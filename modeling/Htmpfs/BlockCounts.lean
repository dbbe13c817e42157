import Mathlib
import Htmpfs.InodeRuns

/-!
# The blocks of one inode, counted

A block is linked once for the current list when it is allocated, and once for
each volume.  The link for the current list is given back when an unfrozen
block is dropped, but not when a frozen one is.
-/

namespace Htmpfs

open Program (Ends Leaves)

/-- The versions of an inode that list a block. -/
def Inode.holders (inode : Inode) (b : ℕ) : Set SnapshotVer :=
  {ver | ∃ list, inode.bufferMap[ver]? = some list ∧ b ∈ list.map (·.id)}

/-- The blocks that were not in `pool₀` belong to the inode, and its current list has them all. -/
structure Counted (pool₀ : IdPool Buffer) (v : InodeView) : Prop where
  inOrder : InOrder v
  others : ∀ b, (pool₀.find? b).isSome → (v.bufferPool.find? b).isSome ∧ ¬ v.self.Owns b
  owned : ∀ b, (v.bufferPool.find? b).isSome → (pool₀.find? b).isSome ∨ v.self.Owns b
  current : ∀ list, v.self.bufferMap[curModifiableVer]? = some list →
    ∀ b, v.self.Owns b → b ∈ list.map (·.id)

section Counted

variable {pool₀ : IdPool Buffer} {v v' : InodeView} {op : InodeOp}

theorem counted_new {blockSize id : ℕ} {isDentry : Bool} (hbs : 0 < blockSize)
    (hword : blockSize < 2 ^ 64) (hsmall : pool₀.size < pool₀.maxSize) :
    Counted pool₀ ⟨pool₀, Inode.new blockSize id isDentry⟩ where
  inOrder := ⟨Inode.ok_new hbs hword, hsmall⟩
  others := fun _ hb => ⟨hb, Inode.not_owns_new⟩
  owned := fun _ hb => Or.inl hb
  current := fun _ _ _ hb => absurd hb Inode.not_owns_new

/-- An entry that keeps its place. -/
theorem Bank.Unfroze.mem_map_id {touched : ℕ → Prop} {list list' : List BufferResult}
    (h : Bank.Unfroze touched list list')
    (hkeeps : ∀ j r, list[j]? = some r → touched j → r.isSnapshoted = false) {r : BufferResult}
    (hr : r ∈ list) (hfrozen : r.isSnapshoted = true) : r.id ∈ list'.map (·.id) := by
  obtain ⟨j, hj⟩ := List.getElem?_of_mem hr
  refine List.mem_map_of_mem ((h r hfrozen).mpr ⟨j, hj, fun htouched => ?_⟩)
  rw [hkeeps j r hj htouched] at hfrozen
  exact Bool.false_ne_true hfrozen

theorem Counted.rewrote (h : Counted pool₀ v) {f : Bytes → Bytes} {touched : ℕ → Prop}
    (hrewrote : Rewrote v f touched v')
    (hkeeps : ∀ list, v.self.bufferMap[curModifiableVer]? = some list →
      ∀ j r, list[j]? = some r → touched j → r.isSnapshoted = false) : Counted pool₀ v' := by
  obtain ⟨list, list', hcur, hmap, hown, hunfroze⟩ := hrewrote.bank
  have hcur' : v'.self.bufferMap[curModifiableVer]? = some list' := by rw [hmap, if_pos rfl]
  refine ⟨⟨hrewrote.ok, hrewrote.small⟩, fun b hb => ?_, fun b hb => ?_, fun list'' hlist b hb => ?_⟩
  · obtain ⟨hsome, hnot⟩ := h.others b hb
    refine ⟨by rwa [hrewrote.frame.kept b hsome hnot], fun hb' => ?_⟩
    rcases hrewrote.frame.fresh b hb' with hold | hfresh
    · exact hnot hold
    · simp [hfresh] at hsome
  · rcases hown.accounted b hb with hheld | ⟨r, hr, _, rfl⟩
    · rcases h.owned b hheld.1 with hold | hb'
      · exact Or.inl hold
      -- a node that was left in the pool is a frozen entry, which was left in the list
      obtain ⟨r, hr, rfl⟩ := List.mem_map.mp (h.current list hcur b hb')
      have hfrozen : r.isSnapshoted = true := by
        by_contra hnot
        exact hheld.2 r hr (by simpa using hnot) rfl
      exact Or.inr ⟨_, list', hcur', hunfroze.mem_map_id (hkeeps list hcur) hr hfrozen⟩
    · exact Or.inr (Inode.Owns.of_mem hcur' hr)
  · obtain rfl := Option.some.inj (hcur'.symm.trans hlist)
    obtain ⟨ver, list'', hlist'', hmem⟩ := hb
    rw [hmap] at hlist''
    split_ifs at hlist'' with hver
    · rwa [Option.some.inj hlist'']
    · obtain ⟨r, hr, rfl⟩ := List.mem_map.mp (h.current list hcur b ⟨ver, list'', hlist'', hmem⟩)
      have hfrozen : r.isSnapshoted = true := by
        by_contra hnot
        have hempty := h.inOrder.ok.snapshotRefs_eq_empty hcur hr (by simpa using hnot)
        have href : ver ∈ v.self.snapshotRefs r.id := ⟨hver, list'', hlist'', hmem⟩
        rw [hempty] at href
        exact href
      exact hunfroze.mem_map_id (hkeeps list hcur) hr hfrozen

theorem Counted.sameShape {pool : IdPool Buffer} (h : Counted pool₀ v)
    (hshape : SameShape v.bufferPool pool) : Counted pool₀ ⟨pool, v.self⟩ where
  inOrder := ⟨hshape.inodeOk h.inOrder.ok, by
    rw [hshape.size, hshape.maxSize]
    exact h.inOrder.small⟩
  others := fun b hb => ⟨(hshape.isSome_iff b).mpr (h.others b hb).1, (h.others b hb).2⟩
  owned := fun b hb => h.owned b ((hshape.isSome_iff b).mp hb)
  current := h.current

theorem Counted.volumed (h : Counted pool₀ v) {ver : SnapshotVer} (hv : Volumed v ver v')
    (hsmall : v'.bufferPool.size < v'.bufferPool.maxSize) : Counted pool₀ v' := by
  obtain ⟨list, hcur, hmap, hpool⟩ := hv.bank
  have hcur' : v'.self.bufferMap[curModifiableVer]? = some (list.map BufferResult.freeze) := by
    rw [hmap, if_pos (Or.inl rfl)]
  have howns : ∀ b, v'.self.Owns b → b ∈ list.map (·.id) := by
    rintro b ⟨ver', list', hlist', hmem⟩
    rw [hmap] at hlist'
    split_ifs at hlist'
    · obtain rfl := Option.some.inj hlist'
      rwa [map_id_freeze] at hmem
    · exact h.current list hcur b ⟨ver', list', hlist', hmem⟩
  refine ⟨⟨hv.ok, hsmall⟩, fun b hb => ?_, fun b hb => ?_, fun list'' hlist b hb => ?_⟩
  · obtain ⟨hsome, hnot⟩ := h.others b hb
    exact ⟨(hpool.isSome_iff b).mpr hsome, fun hb' => hnot ⟨_, list, hcur, howns b hb'⟩⟩
  · rcases h.owned b ((hpool.isSome_iff b).mp hb) with hold | hb'
    · exact Or.inl hold
    · exact Or.inr ⟨_, _, hcur', by rw [map_id_freeze]; exact h.current list hcur b hb'⟩
  · obtain rfl := Option.some.inj (hcur'.symm.trans hlist)
    rw [map_id_freeze]
    exact howns b hb

theorem Counted.unvolumed (h : Counted pool₀ v) {ver : SnapshotVer} (hver : ver ≠ curModifiableVer)
    (hv : Unvolumed v ver v') (hsmall : v'.bufferPool.size < v'.bufferPool.maxSize) :
    Counted pool₀ v' := by
  obtain ⟨_, _, hmap, hpool⟩ := hv.bank
  have hcur' : v'.self.bufferMap[curModifiableVer]? = v.self.bufferMap[curModifiableVer]? := by
    rw [hmap, if_neg (Ne.symm hver)]
  have howns : ∀ b, v'.self.Owns b → v.self.Owns b := by
    rintro b ⟨ver', list', hlist', hmem⟩
    rw [hmap] at hlist'
    split_ifs at hlist'
    exact ⟨ver', list', hlist', hmem⟩
  refine ⟨⟨hv.ok, hsmall⟩, fun b hb => ?_, fun b hb => ?_, fun list hlist b hb => ?_⟩
  · obtain ⟨hsome, hnot⟩ := h.others b hb
    exact ⟨(hpool.isSome_iff b).mpr hsome, fun hb' => hnot (howns b hb')⟩
  · rcases h.owned b ((hpool.isSome_iff b).mp hb) with hold | hb'
    · exact Or.inl hold
    · obtain ⟨list, hcur⟩ := h.inOrder.ok.current
      exact Or.inr ⟨_, list, hcur'.trans hcur, h.current list hcur b hb'⟩
  · exact h.current list (hcur' ▸ hlist) b (howns b hb)

/-- The step lemma. -/
theorem InodeOp.Did.counted (h : Counted pool₀ v) (hkeeps : op.KeepsFrozen v)
    (hdid : op.Did v v') : Counted pool₀ v' := by
  have horder' := hdid.inOrder h.inOrder
  cases hdid with
  | none => exact h
  | reworked h' hop =>
      obtain ⟨f, pool, hrewrote, hshape, _⟩ := h'.rewrote
      exact (h.rewrote hrewrote fun list hcur j r hj htouched =>
        hkeeps list hcur j r hj (hop j htouched)).sameShape hshape
  | volumed hv => exact h.volumed hv horder'.small
  | unvolumed hver hv => exact h.unvolumed hver hv horder'.small

theorem Counted.encard_holders (h : Counted pool₀ v) {b : ℕ} {node : PoolNode Buffer}
    (hb : v.self.Owns b) (hnode : v.bufferPool.find? b = some node) :
    (node.linkCount : ℕ∞) = (v.self.holders b).encard := by
  obtain ⟨list, hcur⟩ := h.inOrder.ok.current
  have hholders : v.self.holders b = insert curModifiableVer (v.self.snapshotRefs b) := by
    ext ver
    by_cases hver : ver = curModifiableVer
    · subst hver
      exact iff_of_true ⟨list, hcur, h.current list hcur b hb⟩ (Set.mem_insert _ _)
    · exact ⟨fun hmem => Or.inr ⟨hver, hmem⟩, fun hmem => (hmem.resolve_left hver).2⟩
  have hnotin : curModifiableVer ∉ v.self.snapshotRefs b := fun hmem => hmem.1 rfl
  rw [hholders, Set.encard_insert_of_notMem hnotin, h.inOrder.ok.count b hb node hnode, add_comm]

end Counted

variable {pool₀ : IdPool Buffer} {v : InodeView} {blockSize id : ℕ} {isDentry : Bool}

/-- In a run that gives up no frozen block, a block is linked once for each version that lists it,
and it is in the pool as long as there is one. -/
theorem blocks_counted (hbs : 0 < blockSize) (hword : blockSize < 2 ^ 64)
    (hsmall : pool₀.size < pool₀.maxSize)
    (hrun : Relation.ReflTransGen (InodeStep fun v op => op.KeepsFrozen v)
      ⟨pool₀, Inode.new blockSize id isDentry⟩ v) {b : ℕ} (hb : pool₀.find? b = none) :
    (∀ node, v.bufferPool.find? b = some node →
        (node.linkCount : ℕ∞) = (v.self.holders b).encard) ∧
      ((v.bufferPool.find? b).isSome ↔ (v.self.holders b).Nonempty) ∧
      ((∀ ver, v.self.bufferMap.contains ver → ver = curModifiableVer) →
        ((v.bufferPool.find? b).isSome ↔ curModifiableVer ∈ v.self.holders b)) := by
  have hcounted : Counted pool₀ v :=
    Program.run_preserves hrun (counted_new hbs hword hsmall) fun t t' ht hstep => by
      obtain ⟨op, hkeeps, hdid⟩ := hstep.did ht.inOrder
      exact hdid.counted ht hkeeps
  have howned : (v.bufferPool.find? b).isSome ↔ v.self.Owns b := by
    constructor
    · intro hsome
      refine (hcounted.owned b hsome).resolve_left ?_
      simp [hb]
    · intro howns
      obtain ⟨node, hnode⟩ := hcounted.inOrder.ok.find?_of_owns howns
      simp [hnode]
  refine ⟨fun node hnode => ?_, howned, fun honly => howned.trans ⟨?_, fun hmem => ⟨_, hmem⟩⟩⟩
  · exact hcounted.encard_holders (howned.mp (by simp [hnode])) hnode
  · rintro ⟨ver, list, hlist, hmem⟩
    obtain rfl := honly ver (by simp [Std.ExtTreeMap.contains_eq_isSome_getElem?, hlist])
    exact ⟨list, hlist, hmem⟩

/-! ## A run that gives up a frozen block -/

/-- A file of one byte. -/
def byteInode : InodeView :=
  Program.exec (InodeOp.run (.write [1] 0 true false)) (newFile 1)

/-- The file with a snapshot of it. -/
def frozenInode : InodeView := Program.exec (InodeOp.run (.createNewVolume [118])) byteInode

/-- The file after its frozen byte was overwritten. -/
def thawedInode : InodeView := Program.exec (InodeOp.run (.write [2] 0 true false)) frozenInode

/-- The file after its snapshot was deleted. -/
def leakedInode : InodeView := Program.exec (InodeOp.run (.deleteVolume [118])) thawedInode

theorem run_frozenInode : Relation.ReflTransGen (InodeStep fun v op => op.KeepsFrozen v)
    (newFile 1) frozenInode := by
  have hwrite : InodeStep (fun v op => op.KeepsFrozen v) (newFile 1)
      byteInode := by
    refine InodeStep.of_outcome (by simp [InodeOp.Is64Bit]) ?_ (by decide +kernel)
    intro list hlist j r hj
    rw [Inode.eq_nil_of_new hlist] at hj
    simp at hj
  have hfreeze : InodeStep (fun v op => op.KeepsFrozen v) byteInode frozenInode :=
    InodeStep.of_outcome trivial (fun _ _ _ _ _ hfalse => hfalse.elim) (by decide +kernel)
  exact (Relation.ReflTransGen.single hwrite).tail hfreeze

theorem blocks_counted_frozenInode : (frozenInode.self.holders 0).encard = 2 := by
  have hcount : (frozenInode.bufferPool.find? 0).map (·.linkCount) = some 2 := by decide +kernel
  obtain ⟨node, hnode, htwo⟩ := Option.map_eq_some_iff.mp hcount
  have heq := (blocks_counted (by decide) (by decide) (by decide) run_frozenInode
    (show (newFile 1).bufferPool.find? 0 = none from IdPool.find?_empty)).1 node hnode
  rw [← heq, htwo]
  rfl

theorem run_leakedInode : Relation.ReflTransGen (InodeStep fun _ _ => True)
    (newFile 1) leakedInode := by
  have hfrozen := Relation.ReflTransGen.mono (p := InodeStep fun _ _ => True)
    (fun _ _ ⟨op, hop, _, hleaves⟩ => ⟨op, hop, trivial, hleaves⟩) _ _ run_frozenInode
  have hthaw : InodeStep (fun _ _ => True) frozenInode thawedInode :=
    InodeStep.of_outcome (by simp [InodeOp.Is64Bit]) trivial (by decide +kernel)
  have hdelete : InodeStep (fun _ _ => True) thawedInode leakedInode :=
    InodeStep.of_outcome trivial trivial (by decide +kernel)
  exact (hfrozen.tail hthaw).tail hdelete

/-- The block of the deleted snapshot stays in the pool, and no version lists it. -/
theorem not_blocks_counted : ¬ ∀ v : InodeView,
    Relation.ReflTransGen (InodeStep fun _ _ => True) (newFile 1) v →
    ∀ b, (v.bufferPool.find? b).isSome → (v.self.holders b).Nonempty := by
  intro h
  obtain ⟨ver, list, hlist, hmem⟩ := h leakedInode run_leakedInode 0 (by decide +kernel)
  have hall : leakedInode.self.bufferMap.toList.all (fun p => !(p.2.map (·.id)).contains 0) = true := by
    decide +kernel
  have hentry := List.all_eq_true.mp hall (ver, list)
    (Std.ExtTreeMap.mem_toList_iff_getElem?_eq_some.mpr hlist)
  simp only [Bool.not_eq_true', List.contains_eq_mem, decide_eq_false_iff_not] at hentry
  exact hentry hmem

end Htmpfs
