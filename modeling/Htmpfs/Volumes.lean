import Mathlib
import Htmpfs.BlockSpec

/-!
# The versions of one inode

The block lists of an inode share the blocks that its snapshots froze.  A node
behind them is linked once for the current list, and once more for each
snapshot that lists it, whether or not the current list still does.
-/

namespace Htmpfs

open Program (Ends)
open Blocks (Sized)

/-- A block list of an inode. -/
structure ListOk (bs : ℕ) (pool : IdPool Buffer) (list : List BufferResult) : Prop where
  live : ∀ r ∈ list, Live pool r
  nodup : (list.map (·.id)).Nodup
  sized : ∃ n, Sized bs n (blockTexts pool list)
  fits : Bank.BlocksFit bs list.length

theorem ListOk.congr {bs : ℕ} {pool pool' : IdPool Buffer} {list : List BufferResult}
    (h : ListOk bs pool list) (hfind : ∀ r ∈ list, pool'.find? r.id = pool.find? r.id) :
    ListOk bs pool' list where
  live := fun r hr => (h.live r hr).congr (hfind r hr)
  nodup := h.nodup
  sized := by
    rw [blockTexts_congr h.live hfind]
    exact h.sized
  fits := h.fits

namespace Inode

variable {inode : Inode} {pool : IdPool Buffer} {b : ℕ} {v : SnapshotVer}
  {list : List BufferResult}

/-- Some version of the inode lists the block. -/
def Owns (inode : Inode) (b : ℕ) : Prop :=
  ∃ (v : SnapshotVer) (list : List BufferResult),
    inode.bufferMap[v]? = some list ∧ b ∈ list.map (·.id)

/-- The snapshots of the inode that list a block. -/
def snapshotRefs (inode : Inode) (b : ℕ) : Set SnapshotVer :=
  {v | v ≠ curModifiableVer ∧ ∃ list, inode.bufferMap[v]? = some list ∧ b ∈ list.map (·.id)}

/-- The bytes of a version. -/
def data (pool : IdPool Buffer) (inode : Inode) (v : SnapshotVer) : Option Bytes :=
  (inode.bufferMap[v]?).map (content pool)

theorem Owns.of_mem (hv : inode.bufferMap[v]? = some list) {r : BufferResult} (hr : r ∈ list) :
    inode.Owns r.id :=
  ⟨v, list, hv, List.mem_map_of_mem hr⟩

theorem Owns.of_ref (h : v ∈ inode.snapshotRefs b) : inode.Owns b := by
  obtain ⟨_, list, hlist, hb⟩ := h
  exact ⟨v, list, hlist, hb⟩

/-- The block lists of an inode of the pool. -/
structure Ok (pool : IdPool Buffer) (inode : Inode) : Prop where
  blockSize_pos : 0 < inode.blockSize
  blockSize_lt : inode.blockSize < 2 ^ 64
  current : ∃ list, inode.bufferMap[curModifiableVer]? = some list
  list : ∀ (v : SnapshotVer) list, inode.bufferMap[v]? = some list → ListOk inode.blockSize pool list
  unfrozen : ∀ list, inode.bufferMap[curModifiableVer]? = some list →
    ∀ r ∈ list, r.isSnapshoted = false → ∀ node, pool.find? r.id = some node → node.linkCount = 1
  count : ∀ b, inode.Owns b → ∀ node, pool.find? b = some node →
    (node.linkCount : ℕ∞) = 1 + (inode.snapshotRefs b).encard

theorem Ok.find?_of_owns (h : inode.Ok pool) (hb : inode.Owns b) :
    ∃ node, pool.find? b = some node := by
  obtain ⟨v, list, hlist, hmem⟩ := hb
  obtain ⟨r, hr, rfl⟩ := List.mem_map.mp hmem
  obtain ⟨node, hnode, _⟩ := (h.list v list hlist).live r hr
  exact ⟨node, hnode⟩

/-- An inode depends on the nodes that it owns. -/
theorem Ok.congr (h : inode.Ok pool) {pool' : IdPool Buffer}
    (hfind : ∀ b, inode.Owns b → pool'.find? b = pool.find? b) : inode.Ok pool' where
  blockSize_pos := h.blockSize_pos
  blockSize_lt := h.blockSize_lt
  current := h.current
  list := fun v list hlist =>
    (h.list v list hlist).congr fun _ hr => hfind _ (Owns.of_mem hlist hr)
  unfrozen := by
    intro list hlist r hr hunfrozen node hnode
    rw [hfind _ (Owns.of_mem hlist hr)] at hnode
    exact h.unfrozen list hlist r hr hunfrozen node hnode
  count := by
    intro b hb node hnode
    rw [hfind b hb] at hnode
    exact h.count b hb node hnode

theorem Ok.data_congr (h : inode.Ok pool) {pool' : IdPool Buffer}
    (hfind : ∀ b, inode.Owns b → pool'.find? b = pool.find? b) : inode.data pool' = inode.data pool := by
  funext v
  unfold data
  cases hv : inode.bufferMap[v]? with
  | none => rfl
  | some list =>
      simp only [Option.map_some]
      rw [content_congr (h.list v list hv).live fun r hr => hfind _ (Owns.of_mem hv hr)]

/-- A block that a snapshot lists is linked twice at least. -/
theorem Ok.two_le_linkCount (h : inode.Ok pool) (hv : v ∈ inode.snapshotRefs b)
    {node : PoolNode Buffer} (hnode : pool.find? b = some node) : 2 ≤ node.linkCount := by
  have hcount := h.count b (Owns.of_ref hv) node hnode
  have hone : 1 ≤ (inode.snapshotRefs b).encard := by
    rw [Set.one_le_encard_iff_nonempty]
    exact ⟨v, hv⟩
  have htwo : ((2 : ℕ) : ℕ∞) ≤ node.linkCount := by
    rw [hcount]
    calc ((2 : ℕ) : ℕ∞) = 1 + 1 := by norm_num
      _ ≤ 1 + (inode.snapshotRefs b).encard := by gcongr
  exact_mod_cast htwo

/-- An unfrozen block of the current list occurs in no snapshot. -/
theorem Ok.snapshotRefs_eq_empty (h : inode.Ok pool)
    (hcur : inode.bufferMap[curModifiableVer]? = some list) {r : BufferResult} (hr : r ∈ list)
    (hunfrozen : r.isSnapshoted = false) : inode.snapshotRefs r.id = ∅ := by
  obtain ⟨node, hnode⟩ := h.find?_of_owns (Owns.of_mem hcur hr)
  rw [Set.eq_empty_iff_forall_notMem]
  intro v hv
  have htwo := h.two_le_linkCount hv hnode
  have hone := h.unfrozen list hcur r hr hunfrozen node hnode
  omega

/-- The bank of an inode, as its methods find it. -/
theorem Ok.own (h : inode.Ok pool) (hsmall : pool.size < pool.maxSize)
    (hcur : inode.bufferMap[curModifiableVer]? = some list) :
    Bank.Own ⟨pool, list⟩ ⟨pool, list⟩ := by
  have hok := h.list _ list hcur
  refine
    { kept := fun _ _ => rfl, live := hok.live, frozen := ?_, owned := ?_, nodup := hok.nodup,
      accounted := ?_, small := hsmall }
  · intro r hr hfrozen
    refine ⟨hr, ?_, ?_⟩
    · obtain ⟨node, hnode, _⟩ := hok.live r hr
      simp [hnode]
    · intro r' hr' hunfrozen hid
      obtain rfl : r' = r := List.inj_on_of_nodup_map hok.nodup hr' hr hid
      rw [hunfrozen] at hfrozen
      exact Bool.false_ne_true hfrozen
  · intro r hr hunfrozen
    exact ⟨fun hheld => hheld.2 r hr hunfrozen rfl, h.unfrozen list hcur r hr hunfrozen⟩
  · intro id hid
    by_cases hown : ∃ r ∈ list, r.isSnapshoted = false ∧ r.id = id
    · exact Or.inr hown
    · push Not at hown
      exact Or.inl ⟨hid, hown⟩

/-- What a snapshot lists is held. -/
theorem Ok.held_of_ref (h : inode.Ok pool)
    (hcur : inode.bufferMap[curModifiableVer]? = some list) (hb : v ∈ inode.snapshotRefs b) :
    (Bank.mk pool list).Held b := by
  obtain ⟨node, hnode⟩ := h.find?_of_owns (Owns.of_ref hb)
  refine ⟨by simp [hnode], ?_⟩
  rintro r hr hunfrozen rfl
  have hempty := h.snapshotRefs_eq_empty hcur hr hunfrozen
  rw [hempty] at hb
  exact hb

/-! ### A new inode -/

section New

variable {blockSize id : ℕ} {isDentry : Bool}

theorem bufferMap_new (v : SnapshotVer) : (Inode.new blockSize id isDentry).bufferMap[v]? =
    if v = curModifiableVer then some [] else none := by
  unfold Inode.new
  rw [getElem?_insert_version]
  simp

theorem eq_nil_of_new (hlist : (Inode.new blockSize id isDentry).bufferMap[v]? = some list) :
    list = [] := by
  rw [bufferMap_new] at hlist
  split_ifs at hlist
  exact (Option.some.inj hlist).symm

theorem not_owns_new : ¬ (Inode.new blockSize id isDentry).Owns b := by
  rintro ⟨v, list, hlist, hb⟩
  rw [eq_nil_of_new hlist] at hb
  simp at hb

theorem ok_new (hbs : 0 < blockSize) (hword : blockSize < 2 ^ 64) :
    (Inode.new blockSize id isDentry).Ok pool where
  blockSize_pos := hbs
  blockSize_lt := hword
  current := ⟨[], by rw [bufferMap_new, if_pos rfl]⟩
  list := by
    intro v list hlist
    rw [eq_nil_of_new hlist]
    exact ⟨by simp, by simp, ⟨0, rfl⟩, Bank.blocksFit_zero⟩
  unfrozen := by
    intro list hlist r hr
    rw [eq_nil_of_new hlist] at hr
    simp at hr
  count := fun _ hb => absurd hb not_owns_new

end New

end Inode

/-! ## What a method leaves alone -/

/-- A method of an inode keeps the nodes of other owners and takes only free ids. -/
structure Frame (v v' : InodeView) : Prop where
  blockSize : v'.self.blockSize = v.self.blockSize
  inodeId : v'.self.inodeId = v.self.inodeId
  isDentry : v'.self.isDentry = v.self.isDentry
  kept : ∀ b, (v.bufferPool.find? b).isSome → ¬ v.self.Owns b →
    v'.bufferPool.find? b = v.bufferPool.find? b
  fresh : ∀ b, v'.self.Owns b → v.self.Owns b ∨ v.bufferPool.find? b = none
  keys : ∀ b, (v'.bufferPool.find? b).isSome → (v.bufferPool.find? b).isSome ∨ v'.self.Owns b

theorem Frame.refl (v : InodeView) : Frame v v where
  blockSize := rfl
  inodeId := rfl
  isDentry := rfl
  kept := fun _ _ _ => rfl
  fresh := fun _ h => Or.inl h
  keys := fun _ h => Or.inl h

/-- An inode after a rewrite of its current bytes: `f` says how, `touched` at which blocks. -/
structure Rewrote (v : InodeView) (f : Bytes → Bytes) (touched : ℕ → Prop) (v' : InodeView) :
    Prop where
  ok : v'.self.Ok v'.bufferPool
  frame : Frame v v'
  data : ∀ ver, v'.self.data v'.bufferPool ver =
    if ver = curModifiableVer then (v.self.data v.bufferPool ver).map f
    else v.self.data v.bufferPool ver
  bank : ∃ list list', v.self.bufferMap[curModifiableVer]? = some list ∧
    (∀ ver : SnapshotVer, v'.self.bufferMap[ver]? =
      if ver = curModifiableVer then some list' else v.self.bufferMap[ver]?) ∧
    Bank.Own ⟨v.bufferPool, list⟩ ⟨v'.bufferPool, list'⟩ ∧
    Bank.Unfroze touched list list'

theorem Rewrote.small {v v' : InodeView} {f : Bytes → Bytes} {touched : ℕ → Prop}
    (h : Rewrote v f touched v') : v'.bufferPool.size < v'.bufferPool.maxSize := by
  obtain ⟨_, _, _, _, hown, _⟩ := h.bank
  exact hown.small

section Rewrite

variable {v : InodeView} {list list' : List BufferResult} {pool' : IdPool Buffer}

/-- The current list of an inode replaced by what a call made of its bank. -/
theorem Inode.Ok.rewrote (h : v.self.Ok v.bufferPool)
    (hcur : v.self.bufferMap[curModifiableVer]? = some list)
    (hown : Bank.Own ⟨v.bufferPool, list⟩ ⟨pool', list'⟩)
    (hs : ∃ n, Sized v.self.blockSize n (blockTexts pool' list'))
    (hfit : Bank.BlocksFit v.self.blockSize list'.length) {f : Bytes → Bytes}
    (hbytes : content pool' list' = f (content v.bufferPool list)) {touched : ℕ → Prop}
    (htouched : Bank.Unfroze touched list list') :
    Rewrote v f touched
      ⟨pool', { v.self with bufferMap := v.self.bufferMap.insert curModifiableVer list' }⟩ := by
  have hmap : ∀ ver : SnapshotVer, (v.self.bufferMap.insert curModifiableVer list')[ver]? =
      if ver = curModifiableVer then some list' else v.self.bufferMap[ver]? :=
    fun ver => getElem?_insert_version
  have hheld : ∀ ver b, ver ∈ v.self.snapshotRefs b → pool'.find? b = v.bufferPool.find? b :=
    fun ver b hb => hown.kept b (h.held_of_ref hcur hb)
  have hrefs : ∀ b, Inode.snapshotRefs
      { v.self with bufferMap := v.self.bufferMap.insert curModifiableVer list' } b =
      v.self.snapshotRefs b := by
    intro b
    ext ver
    simp only [Inode.snapshotRefs, Set.mem_ofPred_eq, hmap]
    constructor
    · rintro ⟨hne, list'', hlist, hb⟩
      rw [if_neg hne] at hlist
      exact ⟨hne, list'', hlist, hb⟩
    · rintro ⟨hne, list'', hlist, hb⟩
      exact ⟨hne, list'', by rw [if_neg hne, hlist], hb⟩
  have hsnap : ∀ ver, ver ≠ curModifiableVer → ∀ list'', v.self.bufferMap[ver]? = some list'' →
      ∀ r ∈ list'', pool'.find? r.id = v.bufferPool.find? r.id :=
    fun ver hver list'' hlist r hr =>
      hheld ver r.id ⟨hver, list'', hlist, List.mem_map_of_mem hr⟩
  refine ⟨?_, ?_, ?_, list, list', hcur, hmap, hown, htouched⟩
  · refine
      { blockSize_pos := h.blockSize_pos, blockSize_lt := h.blockSize_lt,
        current := ⟨list', by simp only [hmap, if_true]⟩, list := ?_, unfrozen := ?_, count := ?_ }
    · intro ver list'' hlist
      simp only [hmap] at hlist
      split_ifs at hlist with hver
      · obtain rfl := Option.some.inj hlist
        exact ⟨hown.live, hown.nodup, hs, hfit⟩
      · exact (h.list ver list'' hlist).congr (hsnap ver hver list'' hlist)
    · intro list'' hlist r hr hunfrozen
      simp only [hmap, if_true, Option.some.injEq] at hlist
      subst hlist
      exact (hown.owned r hr hunfrozen).2
    · intro b hb node hnode
      rw [hrefs]
      obtain ⟨ver, list'', hlist, hmem⟩ := hb
      obtain ⟨r, hr, rfl⟩ := List.mem_map.mp hmem
      simp only [hmap] at hlist
      split_ifs at hlist with hver
      · obtain rfl := Option.some.inj hlist
        by_cases hfrozen : r.isSnapshoted = true
        · obtain ⟨hold, hhold⟩ := hown.frozen r hr hfrozen
          rw [hown.kept r.id hhold] at hnode
          exact h.count r.id (Inode.Owns.of_mem hcur hold) node hnode
        · obtain ⟨hnot, hone⟩ := hown.owned r hr (by simpa using hfrozen)
          have hempty : v.self.snapshotRefs r.id = ∅ := by
            rw [Set.eq_empty_iff_forall_notMem]
            intro ver' hver'
            exact hnot (h.held_of_ref hcur hver')
          rw [hempty, Set.encard_empty, hone node hnode]
          rfl
      · have href : ver ∈ v.self.snapshotRefs r.id := ⟨hver, list'', hlist, hmem⟩
        rw [hheld ver r.id href] at hnode
        exact h.count r.id (Inode.Owns.of_ref href) node hnode
  · refine { blockSize := rfl, inodeId := rfl, isDentry := rfl, kept := ?_, fresh := ?_, keys := ?_ }
    · intro b hb hnot
      refine hown.kept b ⟨hb, ?_⟩
      rintro r hr _ rfl
      exact hnot (Inode.Owns.of_mem hcur hr)
    · rintro b ⟨ver, list'', hlist, hmem⟩
      simp only [hmap] at hlist
      split_ifs at hlist with hver
      · obtain rfl := Option.some.inj hlist
        obtain ⟨r, hr, rfl⟩ := List.mem_map.mp hmem
        by_cases hfrozen : r.isSnapshoted = true
        · exact Or.inl (Inode.Owns.of_mem hcur (hown.frozen r hr hfrozen).1)
        · have hnot := (hown.owned r hr (by simpa using hfrozen)).1
          by_contra hcon
          push Not at hcon
          refine hnot ⟨Option.isSome_iff_ne_none.mpr hcon.2, ?_⟩
          rintro r' hr' _ hid
          exact hcon.1 (hid ▸ Inode.Owns.of_mem hcur hr')
      · exact Or.inl ⟨ver, list'', hlist, hmem⟩
    · intro b hb
      rcases hown.accounted b hb with hheld' | ⟨r, hr, _, rfl⟩
      · exact Or.inl hheld'.1
      · exact Or.inr ⟨curModifiableVer, list', by simp only [hmap, if_true],
          List.mem_map_of_mem hr⟩
  · intro ver
    simp only [Inode.data, hmap]
    split_ifs with hver
    · rw [hver, hcur, Option.map_some, Option.map_some, Option.map_some, hbytes]
    · cases hlist : v.self.bufferMap[ver]? with
      | none => rfl
      | some list'' =>
          rw [Option.map_some, Option.map_some,
            content_congr (h.list ver list'' hlist).live (hsnap ver hver list'' hlist)]

/-- A call that changed nothing rewrote nothing. -/
theorem Inode.Ok.rewrote_self (h : v.self.Ok v.bufferPool)
    (hsmall : v.bufferPool.size < v.bufferPool.maxSize)
    {touched : ℕ → Prop} (htouched : ∀ j, ¬ touched j) : Rewrote v id touched v where
  ok := h
  frame := Frame.refl v
  data := by
    intro ver
    split_ifs <;> simp
  bank := by
    obtain ⟨list, hcur⟩ := h.current
    refine ⟨list, list, hcur, fun ver => ?_, h.own hsmall hcur, Bank.Unfroze.refl htouched⟩
    split_ifs with hver
    · rw [hver, hcur]
    · rfl

theorem ends_onBank {α : Type} {m : BankM α} {Q : α → InodeView → Prop}
    {E : Exit → InodeView → Prop} (hcur : v.self.bufferMap[curModifiableVer]? = some list) :
    Ends (Inode.onBank m) v Q E ↔
      Ends m ⟨v.bufferPool, list⟩
        (fun a b => Q a ⟨b.bufferPool,
          { v.self with bufferMap := v.self.bufferMap.insert curModifiableVer b.blockList }⟩)
        (fun e b => E e ⟨b.bufferPool,
          { v.self with bufferMap := v.self.bufferMap.insert curModifiableVer b.blockList }⟩) := by
  unfold Inode.onBank
  exact Program.ends_zoom (by rw [hcur]; rfl)

theorem insert_current (hcur : v.self.bufferMap[curModifiableVer]? = some list) :
    (⟨v.bufferPool, { v.self with
      bufferMap := v.self.bufferMap.insert curModifiableVer list }⟩ : InodeView) = v := by
  have hmap : v.self.bufferMap.insert curModifiableVer list = v.self.bufferMap := by
    apply Std.ExtTreeMap.ext_getElem?
    intro ver
    rw [getElem?_insert_version]
    split_ifs with hver
    · rw [hver, hcur]
    · rfl
  rw [hmap]

/-- `inode_t::write` -/
theorem Inode.Ok.ends_write (h : v.self.Ok v.bufferPool)
    (hsmall : v.bufferPool.size < v.bufferPool.maxSize)
    {buffer : Bytes} {offset : ℕ} {resize dentryOnly : Bool}
    (hwrap : offset + buffer.length < 2 ^ 64) {old : Bytes}
    (hold : v.self.data v.bufferPool curModifiableVer = some old) :
    Ends (Inode.write buffer offset resize dentryOnly) v
      (fun count v' => count = Bank.writeCount buffer offset resize old ∧
        (v.self.isDentry && !dentryOnly) = false ∧
        Rewrote v (Bank.writeBytes buffer offset resize)
          (Bank.WriteTouches v.self.blockSize buffer offset resize old) v')
      (fun e v' => e = .badAlloc ∨ v' = v ∧
        ((v.self.isDentry && !dentryOnly) = true ∧ e = .htmpfs .invalidWriteInvoke ∨
          e = .outOfRange ∧ Bank.AtBlockEnd v.self.blockSize buffer offset resize old)) := by
  obtain ⟨list, hcur⟩ := h.current
  have hcontent : content v.bufferPool list = old := by
    rw [Inode.data, hcur] at hold
    exact Option.some.inj hold
  unfold Inode.write
  simp only [Program.ends_bind, Program.ends_get]
  by_cases hguard : (v.self.isDentry && !dentryOnly) = true
  · rw [if_pos hguard, Program.ends_throw]
    exact Or.inr ⟨rfl, Or.inl ⟨hguard, rfl⟩⟩
  rw [if_neg hguard]
  have hguard' : (v.self.isDentry && !dentryOnly) = false := by simpa using hguard
  by_cases hempty : buffer.length = 0
  · rw [if_pos hempty, Program.ends_pure]
    refine ⟨by simp [Bank.writeCount, hempty], hguard', ?_⟩
    have hid : Bank.writeBytes buffer offset resize = id := by
      funext c
      simp [Bank.writeBytes, hempty]
    rw [hid]
    exact h.rewrote_self hsmall fun j hj => hj.1 hempty
  · rw [if_neg hempty, ends_onBank hcur]
    obtain ⟨n, hs⟩ := (h.list _ list hcur).sized
    refine ((h.own hsmall hcur).ends_write h.blockSize_pos h.blockSize_lt hs
      (h.list _ list hcur).fits (Nat.pos_of_ne_zero hempty) hwrap).mono ?_ ?_
    · rintro count ⟨pool', list'⟩ ⟨hown, hcount, hs', hfit, hbytes, hunfroze⟩
      subst hcontent
      exact ⟨hcount, hguard', h.rewrote hcur hown hs' hfit hbytes hunfroze⟩
    · rintro e ⟨pool', list'⟩ (rfl | ⟨rfl, hend, hb⟩)
      · exact Or.inl rfl
      · obtain ⟨rfl, rfl⟩ : pool' = v.bufferPool ∧ list' = list := by simpa using hb
        exact Or.inr ⟨insert_current hcur, Or.inr ⟨rfl, hcontent ▸ hend⟩⟩

/-- `inode_t::write` where it asks for a block that is not there. -/
theorem Inode.Ok.ends_write_atBlockEnd (h : v.self.Ok v.bufferPool)
    (hsmall : v.bufferPool.size < v.bufferPool.maxSize) {buffer : Bytes} {offset : ℕ} {dentryOnly : Bool}
    (hwrap : offset + buffer.length < 2 ^ 64)
    (hguard : (v.self.isDentry && !dentryOnly) = false) {c : Bytes}
    (hc : v.self.data v.bufferPool curModifiableVer = some c)
    (hend : Bank.AtBlockEnd v.self.blockSize buffer offset false c) :
    Ends (Inode.write buffer offset false dentryOnly) v (fun _ _ => False)
      (fun e _ => e = .outOfRange) := by
  obtain ⟨list, hcur⟩ := h.current
  obtain ⟨n, hs⟩ := (h.list _ list hcur).sized
  have hcontent : content v.bufferPool list = c := by
    rw [Inode.data, hcur] at hc
    exact Option.some.inj hc
  subst hcontent
  unfold Inode.write
  simp only [Program.ends_bind, Program.ends_get]
  rw [if_neg (by simp [hguard]), if_neg hend.1, ends_onBank hcur]
  exact ((h.own hsmall hcur).ends_write_atBlockEnd h.blockSize_pos hs hwrap hend).mono
    (fun _ _ => False.elim) fun _ _ he => he.1

/-- `inode_t::truncate` -/
theorem Inode.Ok.ends_truncate (h : v.self.Ok v.bufferPool)
    (hsmall : v.bufferPool.size < v.bufferPool.maxSize)
    {length : ℕ} :
    Ends (Inode.truncate length) v
      (fun _ v' => Rewrote v (Blocks.resize 0 length) (fun _ => True) v')
      (fun e _ => e = .badAlloc) := by
  obtain ⟨list, hcur⟩ := h.current
  obtain ⟨n, hs⟩ := (h.list _ list hcur).sized
  unfold Inode.truncate
  simp only [Program.ends_bind, Program.ends_get]
  rw [ends_onBank hcur]
  refine ((h.own hsmall hcur).ends_truncate h.blockSize_pos h.blockSize_lt hs
    (h.list _ list hcur).fits).mono ?_ fun _ _ he => he
  rintro _ ⟨pool', list'⟩ ⟨hown, hs', hfit, hbytes, hunfrozen⟩
  exact h.rewrote hcur hown ⟨_, hs'⟩ hfit hbytes (Bank.Unfroze.of_all hunfrozen fun _ => trivial)

end Rewrite

/-! ## Reading a version -/

section Read

variable {inode : Inode} {pool : IdPool Buffer} {ver : SnapshotVer}

theorem Inode.Ok.currentDataSize_eq (h : inode.Ok pool) :
    inode.currentDataSize pool ver =
      match inode.data pool ver with
      | none => .error (.htmpfs .noSuchSnapshot)
      | some c => .ok c.length := by
  unfold Inode.currentDataSize Inode.data
  cases hv : inode.bufferMap[ver]? with
  | none => rfl
  | some list => exact Bank.dataSize_eq (h.list ver list hv).live

/-- `to_string` gives the bytes of the version, unless the length it reads wraps around to 0. -/
theorem Inode.Ok.toString_eq (h : inode.Ok pool) (ver : SnapshotVer) :
    inode.toString pool ver =
      match inode.data pool ver with
      | none => .error (.htmpfs .noSuchSnapshot)
      | some c =>
          if c ≠ [] ∧ inode.blockSize + 1 = 2 ^ 64 then .error (.htmpfs .bufferShortOps)
          else .ok c := by
  have hnonempty : inode.bufferMap.isEmpty = false := by
    obtain ⟨list, hcur⟩ := h.current
    rw [Std.ExtTreeMap.isEmpty_eq_false_iff]
    intro hempty
    rw [hempty] at hcur
    simp at hcur
  unfold Inode.toString
  rw [hnonempty, h.currentDataSize_eq]
  unfold Inode.data
  cases hv : inode.bufferMap[ver]? with
  | none => rfl
  | some list =>
      obtain ⟨hlive, _, ⟨n, hs⟩, hfits⟩ := h.list ver list hv
      have hlen : (content pool list).length = n := hs.length_flatten
      simp only [Bool.false_eq_true, if_false, Option.map_some, bind, Except.bind, hlen]
      by_cases hn : n = 0
      · have hnil : content pool list = [] := List.length_eq_zero_iff.mp (hlen.trans hn)
        rw [if_pos hn, hnil, if_neg (by simp)]
        rfl
      rw [if_neg hn, Nat.mul_comm]
      have hne : content pool list ≠ [] := fun hnil => hn (by rw [← hlen, hnil, List.length_nil])
      have hle : n ≤ list.length * inode.blockSize := by
        have hcount := hs.length h.blockSize_pos
        rw [length_blockTexts] at hcount
        rw [hcount]
        exact (Blocks.blockCount_le h.blockSize_pos).mp le_rfl
      by_cases hlast : inode.blockSize + 1 = 2 ^ 64
      · -- all is in one block, and no byte is read
        have hone : list.length = 1 := by
          rcases hfits with hlt | ⟨hone, _⟩
          · have hpos : list.length ≠ 0 := fun hzero => by
              rw [hzero, Nat.zero_mul] at hle
              omega
            have hmul := Nat.mul_le_mul_right inode.blockSize (Nat.pos_of_ne_zero hpos)
            omega
          · exact hone
        rw [if_pos ⟨hne, hlast⟩, hone, Nat.one_mul, hlast]
        simp only [u64, Nat.mod_self, Inode.read, if_true]
        exact if_neg fun hzero => hn hzero.symm
      · have hfit : list.length * inode.blockSize + 1 < 2 ^ 64 :=
          hfits.resolve_right fun hwrap => hlast hwrap.2
        have hread := Bank.read_eq h.blockSize_pos hlive hs
          (show 0 + (list.length * inode.blockSize + 1) < 2 ^ 64 by omega) (by omega)
        rw [List.drop_zero, List.take_of_length_le (by omega)] at hread
        rw [if_neg fun hwrap => hlast hwrap.2, u64, Nat.mod_eq_of_lt hfit]
        simp only [Inode.read, hv, hread]
        rw [if_neg (Nat.succ_ne_zero _)]
        exact if_pos hlen

theorem Inode.Ok.read_thrown (h : inode.Ok pool) {length offset : ℕ} {e : Exit}
    (he : inode.read pool ver length offset = .error e) : e.Thrown := by
  unfold Inode.read at he
  split_ifs at he
  · simp at he
  cases hlist : inode.bufferMap[ver]? with
  | none =>
      rw [hlist] at he
      rw [← Program.throw_eq_error.mp he]
      trivial
  | some list =>
      rw [hlist] at he
      exact Bank.read_thrown (h.list ver list hlist).1 he

end Read

/-! ## Volumes -/

/-- The entry that a snapshot keeps. -/
def BufferResult.freeze (r : BufferResult) : BufferResult := { r with isSnapshoted := true }

/-- The pool after one more link for each of the ids. -/
def Relinked (ids : List ℕ) (f : ℕ → ℕ) (pool pool' : IdPool Buffer) : Prop :=
  (pool'.size = pool.size ∧ pool'.maxSize = pool.maxSize) ∧ ∀ b, pool'.find? b =
    if b ∈ ids then (pool.find? b).map fun node => { node with linkCount := f node.linkCount }
    else pool.find? b

theorem Relinked.nil {f : ℕ → ℕ} {pool : IdPool Buffer} : Relinked [] f pool pool :=
  ⟨⟨rfl, rfl⟩, fun b => by simp⟩

theorem Relinked.small {ids : List ℕ} {f : ℕ → ℕ} {pool pool' : IdPool Buffer}
    (h : Relinked ids f pool pool') (hsmall : pool.size < pool.maxSize) :
    pool'.size < pool'.maxSize := by
  rw [h.1.1, h.1.2]
  exact hsmall

theorem Relinked.cons {f : ℕ → ℕ} {pool pool' pool'' : IdPool Buffer} {id : ℕ} {ids : List ℕ}
    {node : PoolNode Buffer} (hnode : pool.find? id = some node) (hid : id ∉ ids)
    (hstep : pool' = pool.setLinkCount id (f node.linkCount)) (h : Relinked ids f pool' pool'') :
    Relinked (id :: ids) f pool pool'' := by
  subst hstep
  refine ⟨⟨h.1.1.trans IdPool.size_setLinkCount, h.1.2⟩, fun b => ?_⟩
  rw [h.2]
  simp only [IdPool.find?_setLinkCount, List.mem_cons]
  by_cases hb : b = id
  · subst hb
    simp [hid, hnode]
  · simp [hb]

section Relink

variable {b : Bank} {pool : IdPool Buffer} {list : List BufferResult}

/-- The loop of `create_new_volume`. -/
theorem ends_freeze {i count : ℕ} (hlen : i + count = b.blockList.length)
    (hlive : ∀ r ∈ b.blockList, (b.bufferPool.find? r.id).isSome)
    (hnodup : (b.blockList.map (·.id)).Nodup) :
    Ends (Bank.freeze i count) b
      (fun volume b' => volume = (b.blockList.drop i).map BufferResult.freeze ∧
        b'.blockList = b.blockList.take i ++ (b.blockList.drop i).map BufferResult.freeze ∧
        Relinked ((b.blockList.drop i).map (·.id)) (· + 1) b.bufferPool b'.bufferPool)
      (fun _ _ => False) := by
  induction count generalizing i b with
  | zero =>
      have hnil : b.blockList.drop i = [] := List.drop_eq_nil_of_le (by omega)
      rw [hnil]
      refine Program.ends_pure.mpr ⟨rfl, ?_, Relinked.nil⟩
      rw [List.take_of_length_le (by omega), List.map_nil, List.append_nil]
  | succ count ih =>
      have hi : i < b.blockList.length := by omega
      have hdrop : b.blockList.drop i = b.blockList[i] :: b.blockList.drop (i + 1) :=
        List.drop_eq_getElem_cons hi
      obtain ⟨node, hnode⟩ := Option.isSome_iff_exists.mp (hlive _ (List.getElem_mem hi))
      have hset : b.blockList.set i b.blockList[i].freeze =
          b.blockList.take i ++ b.blockList[i].freeze :: b.blockList.drop (i + 1) :=
        List.set_eq_take_append_cons_drop.trans (if_pos hi)
      have hnotin : b.blockList[i].id ∉ (b.blockList.drop (i + 1)).map (·.id) := by
        have hsub := hnodup.sublist ((List.drop_sublist i b.blockList).map (·.id))
        rw [hdrop, List.map_cons, List.nodup_cons] at hsub
        exact hsub.1
      unfold Bank.freeze
      simp only [Program.ends_bind]
      refine Program.Ends.reads_ok (Bank.index_ok (List.getElem?_eq_getElem hi)) ?_
      simp only [Bank.setBlock, Program.ends_modify, Bank.ends_onPool, linkBuffer,
        Program.ends_bind, Program.ends_get]
      simp only [hnode, Program.ends_set, Program.ends_pure]
      change Ends (Bank.freeze (i + 1) count) ⟨_, b.blockList.set i b.blockList[i].freeze⟩ _ _
      have hids : (b.blockList.set i b.blockList[i].freeze).map (·.id) = b.blockList.map (·.id) := by
        rw [List.map_set]
        apply List.ext_getElem?
        intro j
        by_cases hj : i = j
        · subst hj
          rw [List.getElem?_set_self (by simpa using hi), List.getElem?_map,
            List.getElem?_eq_getElem hi]
          rfl
        · rw [List.getElem?_set_ne hj]
      have hdrop' : (b.blockList.set i b.blockList[i].freeze).drop (i + 1) =
          b.blockList.drop (i + 1) := List.drop_set_of_lt (Nat.lt_succ_self i)
      have htake' : (b.blockList.set i b.blockList[i].freeze).take (i + 1) =
          b.blockList.take i ++ [b.blockList[i].freeze] := by
        rw [hset, List.take_append]
        have hlt : (b.blockList.take i).length = i := List.length_take_of_le hi.le
        simp [hlt]
      refine (ih (i := i + 1) (b := ⟨b.bufferPool.setLinkCount b.blockList[i].id
        (node.linkCount + 1), b.blockList.set i b.blockList[i].freeze⟩) ?_ ?_ ?_).mono ?_
        fun _ _ he => he
      · simp only [List.length_set]
        omega
      · intro r hr
        have hmem : r.id ∈ b.blockList.map (·.id) := by
          rw [← hids]
          exact List.mem_map_of_mem hr
        obtain ⟨r', hr', hid⟩ := List.mem_map.mp hmem
        simp only [IdPool.find?_setLinkCount]
        split_ifs
        · simp [hnode]
        · rw [← hid]
          exact hlive r' hr'
      · simp only [hids]
        exact hnodup
      · rintro volume b' ⟨rfl, hlist, hpool⟩
        simp only [hdrop', htake'] at hlist hpool ⊢
        rw [hdrop]
        refine ⟨rfl, ?_, Relinked.cons hnode hnotin rfl hpool⟩
        rw [hlist, List.append_assoc]
        rfl

/-- The loop of `delete_volume`, over blocks that have another link. -/
theorem ends_unlinkAll (hlinked : ∀ r ∈ list, ∃ node, pool.find? r.id = some node ∧
      2 ≤ node.linkCount) (hnodup : (list.map (·.id)).Nodup) :
    Ends (Program.each (fun r : BufferResult => unlinkBuffer r.id) list) pool
      (fun _ pool' => Relinked (list.map (·.id)) (· - 1) pool pool') (fun _ _ => False) := by
  induction list generalizing pool with
  | nil => exact Program.ends_pure.mpr Relinked.nil
  | cons r list ih =>
      obtain ⟨node, hnode, htwo⟩ := hlinked r (by simp)
      obtain ⟨hnotin, hnodup⟩ := List.nodup_cons.mp hnodup
      have hdec : decrement node.linkCount = node.linkCount - 1 := if_neg (by omega)
      unfold Program.each unlinkBuffer
      simp only [Program.ends_bind, Program.ends_get, hnode]
      rw [if_neg (by omega), Program.ends_set, hdec]
      refine (ih ?_ hnodup).mono ?_ fun _ _ he => he
      · intro r' hr'
        have hne : r'.id ≠ r.id := by
          intro hid
          exact hnotin (List.mem_map.mpr ⟨r', hr', hid⟩)
        rw [IdPool.find?_setLinkCount, if_neg hne]
        exact hlinked r' (by simp [hr'])
      · intro _ pool' hpool
        exact Relinked.cons hnode hnotin rfl hpool

variable {ids : List ℕ} {f : ℕ → ℕ} {pool' : IdPool Buffer} {r : BufferResult}

theorem Relinked.isSome_iff (h : Relinked ids f pool pool') (id : ℕ) :
    (pool'.find? id).isSome ↔ (pool.find? id).isSome := by
  rw [h.2]
  split_ifs <;> simp

theorem Relinked.live (h : Relinked ids f pool pool') (hr : Live pool r) : Live pool' r := by
  obtain ⟨node, hnode, hdata⟩ := hr
  rw [Live, h.2]
  split_ifs
  · exact ⟨{ node with linkCount := f node.linkCount }, by rw [hnode]; rfl, hdata⟩
  · exact ⟨node, hnode, hdata⟩

theorem Relinked.blockData (h : Relinked ids f pool pool') (hr : Live pool r) :
    blockData pool' r = blockData pool r := by
  obtain ⟨node, hnode, hdata⟩ := hr
  rw [blockData_eq hnode hdata]
  by_cases hid : r.id ∈ ids
  · have hnode' : pool'.find? r.id = some { node with linkCount := f node.linkCount } := by
      rw [h.2, if_pos hid, hnode]
      rfl
    exact (blockData_eq hnode' hdata).trans rfl
  · exact blockData_eq (by rw [h.2, if_neg hid, hnode]) hdata

theorem Relinked.blockTexts (h : Relinked ids f pool pool') (hlive : ∀ r ∈ list, Live pool r) :
    blockTexts pool' list = blockTexts pool list :=
  List.map_congr_left fun r hr => h.blockData (hlive r hr)

theorem Relinked.listOk {bs : ℕ} (h : Relinked ids f pool pool') (hlist : ListOk bs pool list) :
    ListOk bs pool' list where
  live := fun r hr => h.live (hlist.live r hr)
  nodup := hlist.nodup
  sized := by
    rw [h.blockTexts hlist.live]
    exact hlist.sized
  fits := hlist.fits

theorem Live.freeze (h : Live pool r) : Live pool r.freeze := h

theorem blockTexts_freeze : blockTexts pool (list.map BufferResult.freeze) = blockTexts pool list := by
  rw [blockTexts, blockTexts, List.map_map]
  rfl

theorem map_id_freeze : (list.map BufferResult.freeze).map (·.id) = list.map (·.id) := by
  rw [List.map_map]
  rfl

theorem ListOk.freeze {bs : ℕ} (h : ListOk bs pool list) :
    ListOk bs pool (list.map BufferResult.freeze) where
  live := by
    intro r hr
    obtain ⟨r', hr', rfl⟩ := List.mem_map.mp hr
    exact (h.live r' hr').freeze
  nodup := by
    rw [map_id_freeze]
    exact h.nodup
  sized := by
    rw [blockTexts_freeze]
    exact h.sized
  fits := by
    rw [List.length_map]
    exact h.fits

end Relink

/-- An inode after `create_new_volume`. -/
structure Volumed (v : InodeView) (volume : SnapshotVer) (v' : InodeView) : Prop where
  ok : v'.self.Ok v'.bufferPool
  frame : Frame v v'
  data : ∀ ver, v'.self.data v'.bufferPool ver =
    if ver = volume then v.self.data v.bufferPool curModifiableVer
    else v.self.data v.bufferPool ver
  bank : ∃ list, v.self.bufferMap[curModifiableVer]? = some list ∧
    (∀ ver : SnapshotVer, v'.self.bufferMap[ver]? =
      if ver = curModifiableVer ∨ ver = volume then some (list.map BufferResult.freeze)
      else v.self.bufferMap[ver]?) ∧
    Relinked (list.map (·.id)) (· + 1) v.bufferPool v'.bufferPool

/-- An inode after `delete_volume`. -/
structure Unvolumed (v : InodeView) (volume : SnapshotVer) (v' : InodeView) : Prop where
  ok : v'.self.Ok v'.bufferPool
  frame : Frame v v'
  data : ∀ ver, v'.self.data v'.bufferPool ver =
    if ver = volume then none else v.self.data v.bufferPool ver
  bank : ∃ list, v.self.bufferMap[volume]? = some list ∧
    (∀ ver : SnapshotVer, v'.self.bufferMap[ver]? =
      if ver = volume then none else v.self.bufferMap[ver]?) ∧
    Relinked (list.map (·.id)) (· - 1) v.bufferPool v'.bufferPool

section Volume

variable {v : InodeView} {volume : SnapshotVer} {list : List BufferResult}
  {pool' : IdPool Buffer} {self' : Inode}

theorem Inode.Ok.volumed (h : v.self.Ok v.bufferPool) (hnew : v.self.bufferMap[volume]? = none)
    (hcur : v.self.bufferMap[curModifiableVer]? = some list)
    (hpool : Relinked (list.map (·.id)) (· + 1) v.bufferPool pool')
    (hself : self' = { v.self with bufferMap := self'.bufferMap })
    (hmap : ∀ ver : SnapshotVer, self'.bufferMap[ver]? =
      if ver = curModifiableVer ∨ ver = volume then some (list.map BufferResult.freeze)
      else v.self.bufferMap[ver]?) :
    Volumed v volume ⟨pool', self'⟩ := by
  have hvol : volume ≠ curModifiableVer := by
    rintro rfl
    simp [hcur] at hnew
  have hbs : self'.blockSize = v.self.blockSize := by rw [hself]
  have hok := h.list _ list hcur
  have howns : ∀ b, self'.Owns b ↔ v.self.Owns b := by
    intro b
    constructor
    · rintro ⟨ver, list', hlist, hb⟩
      rw [hmap] at hlist
      split_ifs at hlist
      · obtain rfl := Option.some.inj hlist
        rw [map_id_freeze] at hb
        exact ⟨_, list, hcur, hb⟩
      · exact ⟨ver, list', hlist, hb⟩
    · rintro ⟨ver, list', hlist, hb⟩
      by_cases hver : ver = curModifiableVer
      · subst hver
        obtain rfl := Option.some.inj (hcur.symm.trans hlist)
        exact ⟨curModifiableVer, _, by rw [hmap, if_pos (Or.inl rfl)], by rwa [map_id_freeze]⟩
      · have hver' : ver ≠ volume := by
          rintro rfl
          simp [hnew] at hlist
        exact ⟨ver, list', by rw [hmap, if_neg (by tauto), hlist], hb⟩
  have hrefs : ∀ b, self'.snapshotRefs b =
      if b ∈ list.map (·.id) then insert volume (v.self.snapshotRefs b)
      else v.self.snapshotRefs b := by
    intro b
    ext ver
    have hkeep : ver ≠ curModifiableVer → ver ≠ volume →
        (ver ∈ self'.snapshotRefs b ↔ ver ∈ v.self.snapshotRefs b) := by
      intro hver hver'
      simp only [Inode.snapshotRefs, Set.mem_ofPred_eq, hmap,
        if_neg (show ¬ (ver = curModifiableVer ∨ ver = volume) by tauto)]
    have hcur' : ver = curModifiableVer →
        ver ∉ self'.snapshotRefs b ∧ ver ∉ v.self.snapshotRefs b :=
      fun hver => ⟨fun hmem => hmem.1 hver, fun hmem => hmem.1 hver⟩
    have hvol' : ver = volume →
        (ver ∈ self'.snapshotRefs b ↔ b ∈ list.map (·.id)) ∧ ver ∉ v.self.snapshotRefs b := by
      rintro rfl
      refine ⟨⟨?_, fun hb => ⟨hvol, _, by rw [hmap, if_pos (Or.inr rfl)], by rwa [map_id_freeze]⟩⟩,
        ?_⟩
      · rintro ⟨_, list', hlist, hb⟩
        rw [hmap, if_pos (Or.inr rfl)] at hlist
        obtain rfl := Option.some.inj hlist
        rwa [map_id_freeze] at hb
      · rintro ⟨_, list', hlist, _⟩
        simp [hnew] at hlist
    split_ifs with hb
    · rw [Set.mem_insert_iff]
      tauto
    · tauto
  refine ⟨?_, ?_, ?_, list, hcur, hmap, hpool⟩
  · refine
      { blockSize_pos := by rw [hbs]; exact h.blockSize_pos,
        blockSize_lt := by rw [hbs]; exact h.blockSize_lt,
        current := ⟨_, by rw [hmap, if_pos (Or.inl rfl)]⟩, list := ?_, unfrozen := ?_, count := ?_ }
    · intro ver list' hlist
      simp only [hmap] at hlist
      simp only [hbs]
      split_ifs at hlist
      · obtain rfl := Option.some.inj hlist
        exact hpool.listOk hok.freeze
      · exact hpool.listOk (h.list ver list' hlist)
    · intro list' hlist r hr hunfrozen
      simp only [hmap, true_or, if_true, Option.some.injEq] at hlist
      subst hlist
      obtain ⟨r', _, rfl⟩ := List.mem_map.mp hr
      exact absurd hunfrozen (by simp [BufferResult.freeze])
    · intro b hb node hnode
      simp only [howns] at hb
      rw [hrefs]
      simp only [hpool.2] at hnode
      split_ifs at hnode ⊢ with hmem
      · obtain ⟨node', hnode', rfl⟩ := Option.map_eq_some_iff.mp hnode
        have hnotin : volume ∉ v.self.snapshotRefs b := by
          rintro ⟨_, list', hlist, _⟩
          simp [hnew] at hlist
        rw [Set.encard_insert_of_notMem hnotin, ← add_assoc, ← h.count b hb node' hnode']
        push_cast
        rfl
      · exact h.count b hb node hnode
  · refine
      { blockSize := hbs, inodeId := by rw [hself], isDentry := by rw [hself], kept := ?_,
        fresh := fun b hb => Or.inl ((howns b).mp hb),
        keys := fun b hb => Or.inl ((hpool.isSome_iff b).mp hb) }
    intro b _ hb
    simp only [hpool.2]
    refine if_neg fun hmem => hb ⟨_, list, hcur, hmem⟩
  · intro ver
    simp only [Inode.data, hmap]
    by_cases hver : ver = volume
    · rw [if_pos (Or.inr hver), if_pos hver, hcur, Option.map_some, Option.map_some, content,
        content, blockTexts_freeze, hpool.blockTexts hok.live]
    · by_cases hver' : ver = curModifiableVer
      · rw [if_pos (Or.inl hver'), if_neg hver, hver', hcur, Option.map_some, Option.map_some,
          content, content, blockTexts_freeze, hpool.blockTexts hok.live]
      · rw [if_neg (by tauto), if_neg hver]
        cases hlist : v.self.bufferMap[ver]? with
        | none => rfl
        | some list' =>
            rw [Option.map_some, Option.map_some, content, content,
              hpool.blockTexts (h.list ver list' hlist).live]

theorem Inode.Ok.unvolumed (h : v.self.Ok v.bufferPool) (hvol : volume ≠ curModifiableVer)
    (hlist : v.self.bufferMap[volume]? = some list)
    (hpool : Relinked (list.map (·.id)) (· - 1) v.bufferPool pool') :
    Unvolumed v volume ⟨pool', { v.self with bufferMap := v.self.bufferMap.erase volume }⟩ := by
  have hmap : ∀ ver : SnapshotVer, (v.self.bufferMap.erase volume)[ver]? =
      if ver = volume then none else v.self.bufferMap[ver]? := fun ver => getElem?_erase_version
  have hsub : ∀ (ver : SnapshotVer) list', (v.self.bufferMap.erase volume)[ver]? = some list' →
      ver ≠ volume ∧ v.self.bufferMap[ver]? = some list' := by
    intro ver list' hlist'
    rw [hmap] at hlist'
    split_ifs at hlist' with hver
    exact ⟨hver, hlist'⟩
  have howns : ∀ b, Inode.Owns { v.self with bufferMap := v.self.bufferMap.erase volume } b →
      v.self.Owns b := by
    rintro b ⟨ver, list', hlist', hb⟩
    exact ⟨ver, list', (hsub ver list' hlist').2, hb⟩
  have hrefs : ∀ b, Inode.snapshotRefs
      { v.self with bufferMap := v.self.bufferMap.erase volume } b =
      v.self.snapshotRefs b \ {volume} := by
    intro b
    ext ver
    simp only [Inode.snapshotRefs, Set.mem_sdiff, Set.mem_ofPred_eq, Set.mem_singleton_iff]
    constructor
    · rintro ⟨hver, list', hlist', hb⟩
      exact ⟨⟨hver, list', (hsub ver list' hlist').2, hb⟩, (hsub ver list' hlist').1⟩
    · rintro ⟨⟨hver, list', hlist', hb⟩, hne⟩
      exact ⟨hver, list', by rw [hmap, if_neg hne, hlist'], hb⟩
  have href : ∀ b, b ∈ list.map (·.id) → volume ∈ v.self.snapshotRefs b :=
    fun b hb => ⟨hvol, list, hlist, hb⟩
  refine ⟨?_, ?_, ?_, list, hlist, hmap, hpool⟩
  · refine
      { blockSize_pos := h.blockSize_pos, blockSize_lt := h.blockSize_lt, current := ?_,
        list := ?_, unfrozen := ?_, count := ?_ }
    · obtain ⟨cur, hcur⟩ := h.current
      exact ⟨cur, by simp only [hmap, if_neg hvol.symm, hcur]⟩
    · intro ver list' hlist'
      exact hpool.listOk (h.list ver list' (hsub ver list' hlist').2)
    · intro list' hlist' r hr hunfrozen node hnode
      have hcur := (hsub _ list' hlist').2
      have hnot : r.id ∉ list.map (·.id) := by
        intro hmem
        have hempty := h.snapshotRefs_eq_empty hcur hr hunfrozen
        have := href r.id hmem
        rw [hempty] at this
        exact this
      simp only [hpool.2, if_neg hnot] at hnode
      exact h.unfrozen list' hcur r hr hunfrozen node hnode
    · intro b hb node hnode
      rw [hrefs]
      simp only [hpool.2] at hnode
      split_ifs at hnode with hmem
      · obtain ⟨node', hnode', rfl⟩ := Option.map_eq_some_iff.mp hnode
        have htwo := h.two_le_linkCount (href b hmem) hnode'
        have hcount := h.count b (howns b hb) node' hnode'
        rw [← Set.encard_sdiff_singleton_add_one (href b hmem), ← add_assoc] at hcount
        obtain ⟨k, hk⟩ : ∃ k, node'.linkCount = k + 1 := ⟨node'.linkCount - 1, by omega⟩
        simp only [hk, Nat.add_sub_cancel]
        rw [hk, Nat.cast_add, Nat.cast_one] at hcount
        exact WithTop.add_right_cancel ENat.one_ne_top hcount
      · have hnotref : volume ∉ v.self.snapshotRefs b := by
          rintro ⟨_, list', hlist', hb'⟩
          obtain rfl := Option.some.inj (hlist.symm.trans hlist')
          exact hmem hb'
        rw [Set.sdiff_singleton_eq_self hnotref]
        exact h.count b (howns b hb) node hnode
  · refine
      { blockSize := rfl, inodeId := rfl, isDentry := rfl, kept := ?_,
        fresh := fun b hb => Or.inl (howns b hb),
        keys := fun b hb => Or.inl ((hpool.isSome_iff b).mp hb) }
    intro b _ hb
    simp only [hpool.2]
    exact if_neg fun hmem => hb ⟨_, list, hlist, hmem⟩
  · intro ver
    simp only [Inode.data, hmap]
    split_ifs with hver
    · rfl
    · cases hlist' : v.self.bufferMap[ver]? with
      | none => rfl
      | some list' =>
          rw [Option.map_some, Option.map_some, content, content,
            hpool.blockTexts (h.list ver list' hlist').live]

/-- `inode_t::create_new_volume` -/
theorem Inode.Ok.ends_createNewVolume (h : v.self.Ok v.bufferPool) :
    Ends (Inode.createNewVolume volume) v
      (fun _ v' => v.self.data v.bufferPool volume = none ∧ Volumed v volume v')
      (fun e v' => e = .htmpfs .doubleSnapshot ∧ v' = v ∧
        v.self.data v.bufferPool volume ≠ none) := by
  obtain ⟨list, hcur⟩ := h.current
  have hok := h.list _ list hcur
  unfold Inode.createNewVolume
  simp only [Program.ends_bind, Program.ends_get]
  by_cases hnew : v.self.bufferMap[volume]? = none
  · have hcontains : v.self.bufferMap.contains volume = false := by
      rw [Std.ExtTreeMap.contains_eq_isSome_getElem?, hnew]
      rfl
    have hvol : volume ≠ curModifiableVer := by
      rintro rfl
      simp [hcur] at hnew
    rw [hcontains]
    simp only [Bool.false_eq_true, if_false, Program.ends_bind, ends_onBank hcur, Program.ends_get,
      Program.ends_modify]
    refine (ends_freeze (b := ⟨v.bufferPool, list⟩) (Nat.zero_add _) ?_ hok.nodup).mono ?_ fun _ _ he => he.elim
    · intro r hr
      obtain ⟨node, hnode, _⟩ := hok.live r hr
      simp [hnode]
    · rintro volume' ⟨pool', list'⟩ ⟨rfl, hlist', hpool⟩
      simp only [List.drop_zero, List.take_zero, List.nil_append] at hlist' hpool ⊢
      subst hlist'
      refine ⟨by rw [Inode.data, hnew]; rfl, h.volumed hnew hcur hpool rfl fun ver => ?_⟩
      simp only [getElem?_insertIfNew_version, getElem?_insert_version, if_neg hvol, hnew, and_true]
      by_cases hver : ver = volume
      · simp [hver]
      · simp [hver]
  · have hcontains : v.self.bufferMap.contains volume = true := by
      rw [Std.ExtTreeMap.contains_eq_isSome_getElem?, Option.isSome_iff_ne_none]
      exact hnew
    rw [hcontains, if_pos rfl, Program.ends_throw]
    exact ⟨rfl, rfl, by simpa [Inode.data] using hnew⟩

/-- `inode_t::delete_volume` -/
theorem Inode.Ok.ends_deleteVolume (h : v.self.Ok v.bufferPool) :
    Ends (Inode.deleteVolume volume) v
      (fun _ v' => volume ≠ curModifiableVer ∧ Unvolumed v volume v')
      (fun e v' => e = .htmpfs .noSuchSnapshot ∧ v' = v ∧
        (volume = curModifiableVer ∨ v.self.data v.bufferPool volume = none)) := by
  unfold Inode.deleteVolume
  simp only [Program.ends_bind, Program.ends_get]
  by_cases hvol : volume = curModifiableVer
  · rw [if_pos hvol, Program.ends_throw]
    exact ⟨rfl, rfl, Or.inl hvol⟩
  rw [if_neg hvol]
  cases hlist : v.self.bufferMap[volume]? with
  | none =>
      simp only [Program.ends_throw]
      exact ⟨trivial, trivial, Or.inr (by rw [Inode.data, hlist]; rfl)⟩
  | some list =>
      simp only [Program.ends_bind, Program.ends_modify]
      have hok := h.list _ list hlist
      refine (Program.ends_zoom (g := fun v : InodeView => some v.bufferPool) rfl).mpr ?_
      refine (ends_unlinkAll ?_ hok.nodup).mono ?_ fun _ _ he => he.elim
      · intro r hr
        obtain ⟨node, hnode, _⟩ := hok.live r hr
        exact ⟨node, hnode,
          h.two_le_linkCount ⟨hvol, list, hlist, List.mem_map_of_mem hr⟩ hnode⟩
      · intro _ pool' hpool
        exact ⟨hvol, h.unvolumed hvol hlist hpool⟩

end Volume

end Htmpfs
