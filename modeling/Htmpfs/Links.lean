import Mathlib
import Htmpfs.View

/-!
# Links

A version list names inodes by id and by pointer.  `Links` says that an inode
has as many links as there are versions that list it.  A directory whose bytes
were cut may name any inode, also one that only snapshots hold, and removing
that one unbalances its count; `clean` says that no directory was cut, and
without it the balance is kept for the inodes of the current version only.
-/

namespace Htmpfs

/-- The entry under which a version lists the inode `id`. -/
def entryOf (id : ℕ) (n : NodeView) : InodeResult := ⟨id, ⟨id, n.addr⟩⟩

/-- The entry of the root directory. -/
def rootEntry : InodeResult := ⟨rootInodeNumber, ⟨rootInodeNumber, 0⟩⟩

/-- The version has the entry in its list. -/
def View.Lists (w : View) (ver : SnapshotVer) (e : InodeResult) : Prop :=
  ∃ list, w.listing ver = some list ∧ e ∈ list

/-- The versions that list an entry. -/
def View.versionsOf (w : View) (e : InodeResult) : Set SnapshotVer := {ver | w.Lists ver e}

/-- The lists of the versions and the links of the inodes agree. -/
structure Links (clean : Prop) (w : View) : Prop where
  nodup : ∀ ver list, w.listing ver = some list → (list.map (·.id)).Nodup
  nodeAddr : ∀ id n, w.node id = some n → n.addr < w.nextAddr
  entry : ∀ ver e, w.Lists ver e → e.inode.id = e.id ∧ e.inode.addr < w.nextAddr
  live : ∀ ver e, w.Lists ver e → clean ∨ ver = curModifiableVer →
    ∃ n, w.node e.id = some n ∧ e = entryOf e.id n
  data : ∀ ver id n, w.node id = some n →
    ((n.data ver).isSome ↔ ver = curModifiableVer ∨ w.Lists ver (entryOf id n))
  count : ∀ id n, w.node id = some n → clean ∨ w.Lists curModifiableVer (entryOf id n) →
    (n.linkCount : ℕ∞) = (w.versionsOf (entryOf id n)).encard
  pos : ∀ id n, w.node id = some n → 0 < n.linkCount
  root : w.Lists curModifiableVer rootEntry

section Basics

variable {clean : Prop} {w : View} {id : ℕ} {n n' : NodeView} {ver : SnapshotVer}
  {e : InodeResult} {list : List InodeResult} {f : Bytes → Bytes}

@[simp] theorem id_entryOf : (entryOf id n).id = id := rfl

theorem entryOf_congr (h : n'.addr = n.addr) : entryOf id n' = entryOf id n := by
  unfold entryOf
  rw [h]

/-- Balanced for all inodes is balanced for the current ones. -/
theorem Links.weaken (h : Links True w) : Links clean w where
  nodup := h.nodup
  nodeAddr := h.nodeAddr
  entry := h.entry
  live := fun ver e he _ => h.live ver e he (Or.inl trivial)
  data := h.data
  count := fun id n hn _ => h.count id n hn (Or.inl trivial)
  pos := h.pos
  root := h.root

theorem Links.exists_current (h : Links clean w) : ∃ list, w.listing curModifiableVer = some list := by
  obtain ⟨list, hlist, _⟩ := h.root
  exact ⟨list, hlist⟩

theorem Links.exists_head (h : Links clean w) :
    ∃ e list, w.listing curModifiableVer = some (e :: list) := by
  obtain ⟨list, hlist, hmem⟩ := h.root
  cases list with
  | nil => simp at hmem
  | cons e list => exact ⟨e, list, hlist⟩

/-- An inode is in the current list under its own entry. -/
theorem Links.lists_of_mem_ids (h : Links clean w)
    (hlist : w.listing curModifiableVer = some list) (hid : id ∈ list.map (·.id))
    (hn : w.node id = some n) : w.Lists curModifiableVer (entryOf id n) := by
  obtain ⟨e, he, rfl⟩ := List.mem_map.mp hid
  obtain ⟨n', hn', heq⟩ := h.live _ e ⟨list, hlist, he⟩ (Or.inr rfl)
  obtain rfl := Option.some.inj (hn.symm.trans hn')
  exact ⟨list, hlist, heq ▸ he⟩

theorem Links.exists_root (h : Links clean w) :
    ∃ n, w.node rootInodeNumber = some n ∧ n.addr = 0 := by
  obtain ⟨n, hn, heq⟩ := h.live _ rootEntry h.root (Or.inr rfl)
  refine ⟨n, hn, ?_⟩
  have haddr := congrArg (fun e => e.inode.addr) heq
  exact haddr.symm

/-- Pointers in the current list lead to their inodes. -/
theorem Links.deref?_current (h : Links clean w) (he : w.Lists curModifiableVer e) :
    ∃ n, w.node e.id = some n ∧ e.inode = ⟨e.id, n.addr⟩ ∧ w.deref? e.inode = some n := by
  obtain ⟨n, hn, heq⟩ := h.live _ e he (Or.inr rfl)
  have hptr : e.inode = ⟨e.id, n.addr⟩ := congrArg InodeResult.inode heq
  exact ⟨n, hn, hptr, by rw [hptr]; exact View.deref?_of_node hn⟩

theorem View.node_setCurrent_eq_some {j : ℕ} :
    (w.setCurrent id f).node j = some n' ↔
      ∃ n, w.node j = some n ∧ n' = if j = id then n.setCurrent f else n := by
  rw [View.node_setCurrent]
  split_ifs with hj
  · subst hj
    rw [Option.map_eq_some_iff]
    exact ⟨fun ⟨n, hn, hn'⟩ => ⟨n, hn, hn'.symm⟩, fun ⟨n, hn, hn'⟩ => ⟨n, hn, hn'.symm⟩⟩
  · exact ⟨fun hn => ⟨n', hn, rfl⟩, fun ⟨n, hn, hn'⟩ => hn' ▸ hn⟩

theorem View.node_rewrites_eq_some {i j : ℕ} {g : NodeView → NodeView} :
    (w.update i fun n => some (g n)).node j = some n' ↔
      ∃ n, w.node j = some n ∧ n' = if j = i then g n else n := by
  rw [View.node_update]
  split_ifs with hj
  · subst hj
    rw [Option.bind_eq_some_iff]
    simp only [Option.some.injEq, eq_comm (a := n')]
  · exact ⟨fun hn => ⟨n', hn, rfl⟩, fun ⟨n, hn, hn'⟩ => hn' ▸ hn⟩

/-- Links do not depend on the bytes. -/
theorem Links.rewrites {i : ℕ} {g : NodeView → NodeView} (h : Links clean w)
    (hg : ∀ n, w.node i = some n → n.Rewrites (g n)) :
    Links clean (w.update i fun n => some (g n)) := by
  have hnode : ∀ j n', (w.update i fun n => some (g n)).node j = some n' → ∃ n,
      w.node j = some n ∧ n'.addr = n.addr ∧ n'.linkCount = n.linkCount ∧
      ∀ ver, (n'.data ver).isSome = (n.data ver).isSome := by
    intro j n' hn'
    obtain ⟨n, hn, rfl⟩ := View.node_rewrites_eq_some.mp hn'
    refine ⟨n, hn, ?_⟩
    split_ifs with hj
    · subst hj
      exact ⟨(hg n hn).addr, (hg n hn).linkCount, (hg n hn).data⟩
    · exact ⟨rfl, rfl, fun ver => rfl⟩
  refine
    { nodup := h.nodup, nodeAddr := ?_, entry := h.entry, live := ?_, data := ?_, count := ?_,
      pos := ?_, root := h.root }
  · intro j n' hn'
    obtain ⟨n, hn, haddr, _⟩ := hnode j n' hn'
    rw [haddr]
    exact h.nodeAddr j n hn
  · intro ver e he hclean
    obtain ⟨n, hn, heq⟩ := h.live ver e he hclean
    have hn' : (w.update i fun n => some (g n)).node e.id = some (if e.id = i then g n else n) :=
      View.node_rewrites_eq_some.mpr ⟨n, hn, rfl⟩
    obtain ⟨n₀, hn₀, haddr, _⟩ := hnode _ _ hn'
    obtain rfl := Option.some.inj (hn.symm.trans hn₀)
    exact ⟨_, hn', heq.trans (entryOf_congr haddr).symm⟩
  · intro ver j n' hn'
    obtain ⟨n, hn, haddr, _, hdata⟩ := hnode j n' hn'
    rw [hdata, entryOf_congr haddr]
    exact h.data ver j n hn
  · intro j n' hn' hclean
    obtain ⟨n, hn, haddr, hcount, _⟩ := hnode j n' hn'
    rw [entryOf_congr haddr] at hclean ⊢
    rw [hcount]
    exact h.count j n hn hclean
  · intro j n' hn'
    obtain ⟨n, hn, _, hcount, _⟩ := hnode j n' hn'
    rw [hcount]
    exact h.pos j n hn

theorem Links.setCurrent {i : ℕ} (h : Links clean w) : Links clean (w.setCurrent i f) :=
  h.rewrites fun _ _ => NodeView.rewrites_setCurrent

end Basics

/-! ## A new inode -/

section Add

variable {clean : Prop} {w : View} {id : ℕ} {isDir : Bool} {list : List InodeResult}

/-- A new inode in the current list, with one link. -/
theorem Links.addNode (h : Links clean w) (hfree : w.node id = none)
    (hlist : w.listing curModifiableVer = some list) :
    Links clean ((w.addNode id isDir).setListing curModifiableVer
      (some (list ++ [⟨id, ⟨id, w.nextAddr⟩⟩]))) := by
  set new : NodeView :=
    ⟨1, w.nextAddr, isDir, fun ver => if ver = curModifiableVer then some [] else none⟩ with hnew
  set w' := (w.addNode id isDir).setListing curModifiableVer
    (some (list ++ [⟨id, ⟨id, w.nextAddr⟩⟩])) with hw'
  have hnode : ∀ j, w'.node j = if j = id then some new else w.node j := fun j => rfl
  have hold : ∀ ver, ¬ w.Lists ver (entryOf id new) :=
    fun ver hlists => absurd (h.entry ver _ hlists).2 (lt_irrefl _)
  have hlists : ∀ ver e, w'.Lists ver e ↔
      w.Lists ver e ∨ ver = curModifiableVer ∧ e = entryOf id new := by
    intro ver e
    unfold View.Lists
    rw [hw', View.listing_setListing]
    split_ifs with hver
    · subst hver
      simp only [hlist, Option.some.injEq, exists_eq_left', List.mem_append, List.mem_singleton,
        true_and]
      rfl
    · simp [hver]
  have hother : ∀ ver j n, w.node j = some n → (w'.Lists ver (entryOf j n) ↔
      w.Lists ver (entryOf j n)) := by
    intro ver j n hn
    rw [hlists]
    refine or_iff_left ?_
    rintro ⟨_, heq⟩
    obtain rfl : j = id := congrArg InodeResult.id heq
    rw [hfree] at hn
    simp at hn
  have hversions : ∀ j n, w.node j = some n →
      w'.versionsOf (entryOf j n) = w.versionsOf (entryOf j n) := by
    intro j n hn
    ext ver
    exact hother ver j n hn
  have hcases : ∀ j n, w'.node j = some n → j = id ∧ n = new ∨ j ≠ id ∧ w.node j = some n := by
    intro j n hn
    rw [hnode] at hn
    split_ifs at hn with hj
    · exact Or.inl ⟨hj, (Option.some.inj hn).symm⟩
    · exact Or.inr ⟨hj, hn⟩
  refine
    { nodup := ?_, nodeAddr := ?_, entry := ?_, live := ?_, data := ?_, count := ?_, pos := ?_,
      root := (hlists _ _).mpr (Or.inl h.root) }
  · intro ver list' hlist'
    rw [hw', View.listing_setListing] at hlist'
    split_ifs at hlist' with hver
    · obtain rfl := Option.some.inj hlist'
      rw [List.map_append, List.nodup_append]
      refine ⟨h.nodup _ list hlist, by simp, ?_⟩
      rintro i hi j hj rfl
      obtain ⟨e, he, rfl⟩ := List.mem_map.mp hi
      obtain ⟨n, hn, _⟩ := h.live _ e ⟨list, hlist, he⟩ (Or.inr rfl)
      simp only [List.map_cons, List.map_nil, List.mem_singleton] at hj
      rw [hj, hfree] at hn
      simp at hn
    · exact h.nodup ver list' hlist'
  · intro j n hn
    rcases hcases j n hn with ⟨_, rfl⟩ | ⟨_, hn⟩
    · exact Nat.lt_succ_self _
    · exact Nat.lt_succ_of_lt (h.nodeAddr j n hn)
  · intro ver e he
    rcases (hlists ver e).mp he with he | ⟨_, rfl⟩
    · exact ⟨(h.entry ver e he).1, Nat.lt_succ_of_lt (h.entry ver e he).2⟩
    · exact ⟨rfl, Nat.lt_succ_self _⟩
  · intro ver e he hclean
    rcases (hlists ver e).mp he with he | ⟨_, rfl⟩
    · obtain ⟨n, hn, heq⟩ := h.live ver e he hclean
      refine ⟨n, ?_, heq⟩
      rw [hnode, if_neg]
      · exact hn
      · intro hid
        rw [hid, hfree] at hn
        simp at hn
    · exact ⟨new, by rw [id_entryOf, hnode, if_pos rfl], rfl⟩
  · intro ver j n hn
    rcases hcases j n hn with ⟨rfl, rfl⟩ | ⟨_, hn⟩
    · rw [hlists]
      simp only [hold, false_or, and_true, or_self]
      rw [hnew]
      simp only
      split_ifs with hver <;> simp [hver]
    · rw [hother ver j n hn]
      exact h.data ver j n hn
  · intro j n hn hclean
    rcases hcases j n hn with ⟨rfl, rfl⟩ | ⟨_, hn⟩
    · have hone : w'.versionsOf (entryOf j new) = {curModifiableVer} := by
        ext ver
        simp only [View.versionsOf, Set.mem_ofPred_eq, hlists, hold, false_or, and_true,
          Set.mem_singleton_iff]
      rw [hone, Set.encard_singleton]
      rfl
    · rw [hother _ j n hn] at hclean
      rw [hversions j n hn]
      exact h.count j n hn hclean
  · intro j n hn
    rcases hcases j n hn with ⟨_, rfl⟩ | ⟨_, hn⟩
    · exact Nat.one_pos
    · exact h.pos j n hn

end Add

/-! ## An inode leaves the current list -/

section Unlist

variable {clean : Prop} {w : View} {id : ℕ} {n : NodeView} {list : List InodeResult}

/-- Erasing a key from a list without repeated keys leaves the entries of the other keys. -/
theorem mem_eraseP_key {α β : Type} [DecidableEq β] {key : α → β} {k : β} {list : List α} {e : α}
    (hnodup : (list.map key).Nodup) :
    e ∈ list.eraseP (fun i => key i = k) ↔ e ∈ list ∧ key e ≠ k := by
  induction list with
  | nil => simp
  | cons i list ih =>
      obtain ⟨hnot, hnodup⟩ := List.nodup_cons.mp hnodup
      by_cases hi : key i = k
      · rw [List.eraseP_cons_of_pos (by simpa using hi), List.mem_cons]
        constructor
        · intro he
          exact ⟨Or.inr he, fun hid => hnot (List.mem_map.mpr ⟨e, he, hid.trans hi.symm⟩)⟩
        · rintro ⟨rfl | he, hne⟩
          · exact absurd hi hne
          · exact he
      · rw [List.eraseP_cons_of_neg (by simpa using hi), List.mem_cons, List.mem_cons, ih hnodup]
        constructor
        · rintro (rfl | ⟨he, hne⟩)
          · exact ⟨Or.inl rfl, hi⟩
          · exact ⟨Or.inr he, hne⟩
        · rintro ⟨rfl | he, hne⟩
          · exact Or.inl rfl
          · exact Or.inr ⟨he, hne⟩

/-- An inode other than the root leaves the current list and loses one link. -/
theorem Links.unlist (h : Links clean w) (hlist : w.listing curModifiableVer = some list)
    (hn : w.node id = some n) (hroot : id ≠ rootInodeNumber)
    (hclean : clean → w.Lists curModifiableVer (entryOf id n)) :
    Links clean ((w.setListing curModifiableVer
      (some (list.eraseP fun i => i.id = id))).dropLink id) := by
  have hnodup := h.nodup _ list hlist
  set w' := (w.setListing curModifiableVer
    (some (list.eraseP fun i => i.id = id))).dropLink id with hw'
  have hlists : ∀ ver e, w'.Lists ver e ↔ w.Lists ver e ∧ (ver = curModifiableVer → e.id ≠ id) := by
    intro ver e
    unfold View.Lists
    rw [hw', View.listing_dropLink, View.listing_setListing]
    split_ifs with hver
    · subst hver
      simp only [hlist, Option.some.injEq, exists_eq_left', true_imp_iff]
      exact mem_eraseP_key hnodup
    · exact (and_iff_left fun h => absurd h hver).symm
  have hnode : ∀ j, w'.node j = if j = id then n.dropLink else w.node j := by
    intro j
    rw [hw', View.node_dropLink, View.node_setListing, hn]
    rfl
  have hdrop : ∀ n', n.dropLink = some n' ↔
      1 < n.linkCount ∧ n' = { n with linkCount := n.linkCount - 1 } :=
    fun n' => NodeView.dropLink_eq_some (h.pos id n hn)
  have hcases : ∀ j n', w'.node j = some n' →
      (j = id ∧ 1 < n.linkCount ∧ n' = { n with linkCount := n.linkCount - 1 }) ∨
        j ≠ id ∧ w.node j = some n' := by
    intro j n' hn'
    rw [hnode] at hn'
    split_ifs at hn' with hj
    · exact Or.inl ⟨hj, (hdrop n').mp hn'⟩
    · exact Or.inr ⟨hj, hn'⟩
  have hversions : w'.versionsOf (entryOf id n) =
      w.versionsOf (entryOf id n) \ {curModifiableVer} := by
    ext ver
    simp only [View.versionsOf, Set.mem_ofPred_eq, hlists, id_entryOf, Set.mem_sdiff,
      Set.mem_singleton_iff]
    exact and_congr_right fun _ => ⟨fun himp hver => himp hver rfl, fun hver h => absurd h hver⟩
  have hother : ∀ ver j n', j ≠ id → (w'.Lists ver (entryOf j n') ↔ w.Lists ver (entryOf j n')) :=
    fun ver j n' hj => (hlists ver _).trans (and_iff_left fun _ => hj)
  -- the count of the inode itself, before and after
  have hcount : clean → (n.linkCount : ℕ∞) = (w'.versionsOf (entryOf id n)).encard + 1 := by
    intro hc
    rw [h.count id n hn (Or.inl hc), hversions, Set.encard_sdiff_singleton_add_one]
    exact hclean hc
  refine
    { nodup := ?_, nodeAddr := ?_, entry := ?_, live := ?_, data := ?_, count := ?_, pos := ?_,
      root := ?_ }
  · intro ver list' hlist'
    rw [hw', View.listing_dropLink, View.listing_setListing] at hlist'
    split_ifs at hlist' with hver
    · obtain rfl := Option.some.inj hlist'
      exact hnodup.sublist (List.eraseP_sublist.map _)
    · exact h.nodup ver list' hlist'
  · intro j n' hn'
    rcases hcases j n' hn' with ⟨rfl, _, rfl⟩ | ⟨_, hn'⟩
    · exact h.nodeAddr j n hn
    · exact h.nodeAddr j n' hn'
  · intro ver e he
    exact h.entry ver e ((hlists ver e).mp he).1
  · intro ver e he hc
    obtain ⟨hold, hne⟩ := (hlists ver e).mp he
    obtain ⟨n', hn', heq⟩ := h.live ver e hold hc
    by_cases hid : e.id = id
    · rw [hid] at hn' heq
      obtain rfl := Option.some.inj (hn.symm.trans hn')
      have hver : ver ≠ curModifiableVer := fun hver => hne hver hid
      have htwo : 1 < n.linkCount := by
        have hone : 1 ≤ (w'.versionsOf (entryOf id n)).encard := by
          rw [Set.one_le_encard_iff_nonempty]
          exact ⟨ver, heq ▸ he⟩
        have hle : ((2 : ℕ) : ℕ∞) ≤ n.linkCount := by
          rw [hcount (hc.resolve_right hver)]
          calc ((2 : ℕ) : ℕ∞) = 1 + 1 := by norm_num
            _ ≤ _ := by gcongr
        exact_mod_cast hle
      refine ⟨{ n with linkCount := n.linkCount - 1 }, ?_, ?_⟩
      · rw [hnode, if_pos hid]
        exact (hdrop _).mpr ⟨htwo, rfl⟩
      · rw [hid]
        exact heq
    · exact ⟨n', by rw [hnode, if_neg hid, hn'], heq⟩
  · intro ver j n' hn'
    rcases hcases j n' hn' with ⟨rfl, _, rfl⟩ | ⟨hj, hn'⟩
    · have hsame := h.data ver j n hn
      change (n.data ver).isSome ↔ ver = curModifiableVer ∨ w'.Lists ver (entryOf j n)
      rw [hsame, hlists]
      by_cases hver : ver = curModifiableVer
      · simp [hver]
      · simp [hver]
    · rw [hother ver j n' hj]
      exact h.data ver j n' hn'
  · intro j n' hn' hc
    rcases hcases j n' hn' with ⟨rfl, hlt, rfl⟩ | ⟨hj, hn'⟩
    · change clean ∨ w'.Lists curModifiableVer (entryOf j n) at hc
      change ((n.linkCount - 1 : ℕ) : ℕ∞) = (w'.versionsOf (entryOf j n)).encard
      have hc' : clean := hc.resolve_right fun hl => ((hlists _ _).mp hl).2 rfl rfl
      have hold := hcount hc'
      obtain ⟨k, hk⟩ : ∃ k, n.linkCount = k + 1 := ⟨n.linkCount - 1, by omega⟩
      rw [hk, Nat.cast_add, Nat.cast_one] at hold
      rw [hk, Nat.add_sub_cancel]
      exact WithTop.add_right_cancel ENat.one_ne_top hold
    · rw [hother _ j n' hj] at hc
      have hsame : w'.versionsOf (entryOf j n') = w.versionsOf (entryOf j n') := by
        ext ver
        exact hother ver j n' hj
      rw [hsame]
      exact h.count j n' hn' hc
  · intro j n' hn'
    rcases hcases j n' hn' with ⟨_, hlt, rfl⟩ | ⟨_, hn'⟩
    · change 0 < n.linkCount - 1
      omega
    · exact h.pos j n' hn'
  · exact (hlists _ _).mpr ⟨h.root, fun _ => hroot.symm⟩

end Unlist

/-! ## Snapshots -/

section Snapshots

variable {clean : Prop} {w w' : View} {ver : SnapshotVer}

theorem View.CreatesSnapshot.node_eq (hstep : w.CreatesSnapshot ver w') (h : Links clean w)
    (id : ℕ) : w'.node id = (w.node id).map fun n =>
      open Classical in if w.Lists curModifiableVer (entryOf id n) then n.freeze ver else n := by
  obtain ⟨list, hnew, hlist⟩ := hstep
  rw [View.node_setListing, View.node_updateAll]
  cases hn : w.node id with
  | none => split_ifs <;> rfl
  | some n =>
      have hiff : id ∈ list.map (·.id) ↔ w.Lists curModifiableVer (entryOf id n) := by
        refine ⟨fun hid => h.lists_of_mem_ids hlist hid hn, ?_⟩
        rintro ⟨list', hlist', hmem⟩
        obtain rfl := Option.some.inj (hlist.symm.trans hlist')
        exact List.mem_map_of_mem (f := (·.id)) hmem
      by_cases hid : id ∈ list.map (·.id)
      · rw [if_pos hid, Option.map_some, if_pos (hiff.mp hid)]
        rfl
      · rw [if_neg hid, Option.map_some, if_neg (hid ∘ hiff.mpr)]

theorem View.CreatesSnapshot.lists_iff (hstep : w.CreatesSnapshot ver w') (u : SnapshotVer)
    (e : InodeResult) : w'.Lists u e ↔ w.Lists (if u = ver then curModifiableVer else u) e := by
  obtain ⟨list, hnew, hlist⟩ := hstep
  unfold View.Lists
  rw [View.listing_setListing]
  split_ifs with hu
  · simp [hlist]
  · rfl

theorem View.CreatesSnapshot.ne_current (hstep : w.CreatesSnapshot ver w') :
    ver ≠ curModifiableVer := by
  rcases hstep with ⟨list, hnew, hlist⟩
  rintro rfl
  rw [hlist] at hnew
  simp at hnew

theorem View.CreatesSnapshot.listing_eq_none (hstep : w.CreatesSnapshot ver w') :
    w.listing ver = none := by
  rcases hstep with ⟨list, hnew, _⟩
  exact hnew

theorem View.DeletesSnapshot.listing_ne_none (hstep : w.DeletesSnapshot ver w') :
    w.listing ver ≠ none := by
  rcases hstep with ⟨list, _, hlist, _⟩
  rw [hlist]
  simp

theorem View.CreatesSnapshot.not_lists (hstep : w.CreatesSnapshot ver w') (e : InodeResult) :
    ¬ w.Lists ver e := by
  rcases hstep with ⟨list, hnew, hlist⟩
  rintro ⟨list', hlist', _⟩
  rw [hnew] at hlist'
  simp at hlist'

theorem Links.createsSnapshot (h : Links clean w) (hstep : w.CreatesSnapshot ver w') :
    Links clean w' := by
  classical
  have hver := hstep.ne_current
  have hnot := hstep.not_lists
  have hlists := hstep.lists_iff
  have hcur : ∀ e, w'.Lists curModifiableVer e ↔ w.Lists curModifiableVer e := by
    intro e
    rw [hlists, if_neg hver.symm]
  have haddr : w'.nextAddr = w.nextAddr := by
    rcases hstep with ⟨list, _, _⟩
    rfl
  have hcases : ∀ j n', w'.node j = some n' → ∃ n, w.node j = some n ∧ n'.addr = n.addr ∧
      (w.Lists curModifiableVer (entryOf j n) ∧ n' = n.freeze ver ∨
        ¬ w.Lists curModifiableVer (entryOf j n) ∧ n' = n) := by
    intro j n' hn'
    rw [hstep.node_eq h, Option.map_eq_some_iff] at hn'
    obtain ⟨n, hn, rfl⟩ := hn'
    refine ⟨n, hn, ?_⟩
    split_ifs with hl
    · exact ⟨rfl, Or.inl ⟨hl, rfl⟩⟩
    · exact ⟨rfl, Or.inr ⟨hl, rfl⟩⟩
  have hback : ∀ j n, w.node j = some n → ∃ n', w'.node j = some n' ∧ n'.addr = n.addr := by
    intro j n hn
    refine ⟨_, by rw [hstep.node_eq h, hn]; rfl, ?_⟩
    beta_reduce
    split_ifs <;> rfl
  refine
    { nodup := ?_, nodeAddr := ?_, entry := ?_, live := ?_, data := ?_, count := ?_, pos := ?_,
      root := (hcur _).mpr h.root }
  · rcases hstep with ⟨list, hnew, hlist⟩
    intro u list' hlist'
    rw [View.listing_setListing] at hlist'
    split_ifs at hlist' with hu
    · obtain rfl := Option.some.inj hlist'
      exact h.nodup _ list hlist
    · exact h.nodup u list' hlist'
  · intro j n' hn'
    obtain ⟨n, hn, haddr', _⟩ := hcases j n' hn'
    rw [haddr', haddr]
    exact h.nodeAddr j n hn
  · intro u e he
    rw [haddr]
    exact h.entry _ e ((hlists u e).mp he)
  · intro u e he hc
    obtain ⟨n, hn, heq⟩ := h.live _ e ((hlists u e).mp he) (by
      split_ifs with hu
      · exact Or.inr rfl
      · exact hc)
    obtain ⟨n', hn', haddr'⟩ := hback _ n hn
    exact ⟨n', hn', heq.trans (entryOf_congr haddr').symm⟩
  · intro u j n' hn'
    obtain ⟨n, hn, haddr', hl⟩ := hcases j n' hn'
    rw [entryOf_congr haddr', hlists]
    rcases hl with ⟨hl, rfl⟩ | ⟨hl, rfl⟩
    · by_cases hu : u = ver
      · subst hu
        rw [NodeView.data_freeze_self, if_pos rfl]
        have hsome := (h.data curModifiableVer j n hn).mpr (Or.inl rfl)
        simp [hsome, hl]
      · rw [NodeView.data_freeze_of_ne hu, if_neg hu]
        exact h.data u j n hn
    · by_cases hu : u = ver
      · subst hu
        rw [if_pos rfl, h.data _ j _ hn]
        simp [hver, hnot, hl]
      · rw [if_neg hu]
        exact h.data u j _ hn
  · intro j n' hn' hc
    obtain ⟨n, hn, haddr', hl⟩ := hcases j n' hn'
    rw [entryOf_congr haddr'] at hc ⊢
    rw [hcur] at hc
    have hcount := h.count j n hn hc
    rcases hl with ⟨hl, rfl⟩ | ⟨hl, rfl⟩
    · have hnotin : ver ∉ w.versionsOf (entryOf j n) := hnot _
      have hset : w'.versionsOf (entryOf j n) = insert ver (w.versionsOf (entryOf j n)) := by
        ext u
        simp only [View.versionsOf, Set.mem_ofPred_eq, hlists, Set.mem_insert_iff]
        split_ifs with hu
        · simp [hu, hl]
        · simp [hu]
      rw [hset, Set.encard_insert_of_notMem hnotin, NodeView.linkCount_freeze, ← hcount]
      push_cast
      rfl
    · have hset : w'.versionsOf (entryOf j n') = w.versionsOf (entryOf j n') := by
        ext u
        simp only [View.versionsOf, Set.mem_ofPred_eq, hlists]
        split_ifs with hu
        · subst hu
          simp [hl, hnot]
        · rfl
      rw [hset]
      exact hcount
  · intro j n' hn'
    obtain ⟨n, hn, _, hl⟩ := hcases j n' hn'
    rcases hl with ⟨_, rfl⟩ | ⟨_, rfl⟩
    · exact Nat.succ_pos _
    · exact h.pos j _ hn

theorem View.DeletesSnapshot.lists_iff (hstep : w.DeletesSnapshot ver w') (u : SnapshotVer)
    (e : InodeResult) : w'.Lists u e ↔ u ≠ ver ∧ w.Lists u e := by
  rcases hstep with ⟨list, hver, hlist, hlive⟩
  unfold View.Lists
  rw [View.listing_setListing]
  split_ifs with hu <;> simp [hu]

theorem View.DeletesSnapshot.ne_current (hstep : w.DeletesSnapshot ver w') :
    ver ≠ curModifiableVer := by
  rcases hstep with ⟨list, hver, hlist, hlive⟩
  exact hver

theorem View.DeletesSnapshot.node_eq (hstep : w.DeletesSnapshot ver w') (h : Links clean w)
    {id : ℕ} {n : NodeView} (hn : w.node id = some n) :
    w.Lists ver (entryOf id n) ∧ w'.node id = (n.unfreeze ver).dropLink ∨
      ¬ w.Lists ver (entryOf id n) ∧ w'.node id = some n := by
  rcases hstep with ⟨list, hver, hlist, hlive⟩
  rw [View.node_setListing, View.node_updateAll, hn]
  have hiff : id ∈ list.map (·.id) ↔ w.Lists ver (entryOf id n) := by
    constructor
    · intro hid
      obtain ⟨e, he, rfl⟩ := List.mem_map.mp hid
      obtain ⟨n', hn'⟩ := hlive e he
      obtain ⟨hnode, haddr⟩ := View.deref?_eq_some.mp hn'
      obtain ⟨hptr, _⟩ := h.entry ver e ⟨list, hlist, he⟩
      rw [hptr] at hnode
      obtain rfl := Option.some.inj (hn.symm.trans hnode)
      refine ⟨list, hlist, ?_⟩
      have hinode : e.inode = ⟨e.id, n.addr⟩ := by rw [← hptr, haddr]
      have heq : entryOf e.id n = e := by
        unfold entryOf
        rw [← hinode]
      rwa [heq]
    · rintro ⟨list', hlist', hmem⟩
      obtain rfl := Option.some.inj (hlist.symm.trans hlist')
      exact List.mem_map_of_mem (f := (·.id)) hmem
  by_cases hid : id ∈ list.map (·.id)
  · exact Or.inl ⟨hiff.mp hid, by rw [if_pos hid]; rfl⟩
  · exact Or.inr ⟨fun hl => hid (hiff.mpr hl), by rw [if_neg hid]⟩

theorem View.DeletesSnapshot.node_eq_none (hstep : w.DeletesSnapshot ver w') {id : ℕ}
    (hn : w.node id = none) : w'.node id = none := by
  rcases hstep with ⟨list, hver, hlist, hlive⟩
  rw [View.node_setListing, View.node_updateAll, hn]
  split_ifs <;> rfl

theorem Links.deletesSnapshot (h : Links clean w) (hstep : w.DeletesSnapshot ver w') :
    Links clean w' := by
  have hver := hstep.ne_current
  have hlists := hstep.lists_iff
  have hcur : ∀ e, w'.Lists curModifiableVer e ↔ w.Lists curModifiableVer e := by
    intro e
    rw [hlists]
    exact and_iff_right hver.symm
  have haddr : w'.nextAddr = w.nextAddr := by
    rcases hstep with ⟨list, _, _, _⟩
    rfl
  have hdrop : ∀ j n n', w.node j = some n → ((n.unfreeze ver).dropLink = some n' ↔
      1 < n.linkCount ∧ n' = { n.unfreeze ver with linkCount := n.linkCount - 1 }) :=
    fun j n n' hn => NodeView.dropLink_eq_some (h.pos j n hn)
  have hcases : ∀ j n', w'.node j = some n' → ∃ n, w.node j = some n ∧ n'.addr = n.addr ∧
      (w.Lists ver (entryOf j n) ∧ 1 < n.linkCount ∧
          n' = { n.unfreeze ver with linkCount := n.linkCount - 1 } ∨
        ¬ w.Lists ver (entryOf j n) ∧ n' = n) := by
    intro j n' hn'
    cases hn : w.node j with
    | none =>
        rw [hstep.node_eq_none hn] at hn'
        simp at hn'
    | some n =>
        refine ⟨n, rfl, ?_⟩
        rcases hstep.node_eq h hn with ⟨hl, hnode⟩ | ⟨hl, hnode⟩
        · rw [hnode] at hn'
          obtain ⟨hlt, rfl⟩ := (hdrop j n n' hn).mp hn'
          exact ⟨rfl, Or.inl ⟨hl, hlt, rfl⟩⟩
        · rw [hnode] at hn'
          obtain rfl := Option.some.inj hn'
          exact ⟨rfl, Or.inr ⟨hl, rfl⟩⟩
  have hversions : ∀ j n, w'.versionsOf (entryOf j n) = w.versionsOf (entryOf j n) \ {ver} := by
    intro j n
    ext u
    simp only [View.versionsOf, Set.mem_ofPred_eq, hlists, Set.mem_sdiff, Set.mem_singleton_iff]
    exact and_comm
  -- the count of an inode that the snapshot lists, before and after
  have hcount : ∀ j n, w.node j = some n → w.Lists ver (entryOf j n) →
      clean ∨ w.Lists curModifiableVer (entryOf j n) →
      (n.linkCount : ℕ∞) = (w'.versionsOf (entryOf j n)).encard + 1 := by
    intro j n hn hl hc
    rw [h.count j n hn hc, hversions, Set.encard_sdiff_singleton_add_one]
    exact hl
  refine
    { nodup := ?_, nodeAddr := ?_, entry := ?_, live := ?_, data := ?_, count := ?_, pos := ?_,
      root := (hcur _).mpr h.root }
  · rcases hstep with ⟨list, _, hlist, _⟩
    intro u list' hlist'
    rw [View.listing_setListing] at hlist'
    split_ifs at hlist' with hu
    exact h.nodup u list' hlist'
  · intro j n' hn'
    obtain ⟨n, hn, haddr', _⟩ := hcases j n' hn'
    rw [haddr', haddr]
    exact h.nodeAddr j n hn
  · intro u e he
    rw [haddr]
    exact h.entry _ e ((hlists u e).mp he).2
  · intro u e he hc
    obtain ⟨hu, hold⟩ := (hlists u e).mp he
    obtain ⟨n, hn, heq⟩ := h.live u e hold hc
    rcases hstep.node_eq h hn with ⟨hl, hnode⟩ | ⟨hl, hnode⟩
    · have hc' : clean ∨ w.Lists curModifiableVer (entryOf e.id n) :=
        hc.imp_right fun hu' => by rw [← heq, ← hu']; exact hold
      have htwo : 1 < n.linkCount := by
        have hone : 1 ≤ (w'.versionsOf (entryOf e.id n)).encard := by
          rw [Set.one_le_encard_iff_nonempty]
          exact ⟨u, heq ▸ he⟩
        have hle : ((2 : ℕ) : ℕ∞) ≤ n.linkCount := by
          rw [hcount e.id n hn hl hc']
          calc ((2 : ℕ) : ℕ∞) = 1 + 1 := by norm_num
            _ ≤ _ := by gcongr
        exact_mod_cast hle
      exact ⟨_, hnode.trans ((hdrop e.id n _ hn).mpr ⟨htwo, rfl⟩), heq⟩
    · exact ⟨n, hnode, heq⟩
  · intro u j n' hn'
    obtain ⟨n, hn, haddr', hl⟩ := hcases j n' hn'
    rw [entryOf_congr haddr', hlists]
    have hold := h.data u j n hn
    rcases hl with ⟨_, _, rfl⟩ | ⟨hl, rfl⟩
    · by_cases hu : u = ver
      · subst hu
        change ((n.unfreeze u).data u).isSome ↔ _
        rw [NodeView.data_unfreeze_self]
        simp [hver]
      · change ((n.unfreeze ver).data u).isSome ↔ _
        rw [NodeView.data_unfreeze_of_ne hu, hold]
        simp [hu]
    · rw [hold]
      by_cases hu : u = ver
      · subst hu
        simp [hl]
      · simp [hu]
  · intro j n' hn' hc
    obtain ⟨n, hn, haddr', hl⟩ := hcases j n' hn'
    rw [entryOf_congr haddr'] at hc ⊢
    rw [hcur] at hc
    rcases hl with ⟨hl, hlt, rfl⟩ | ⟨hl, rfl⟩
    · have hold := hcount j n hn hl hc
      change ((n.linkCount - 1 : ℕ) : ℕ∞) = _
      obtain ⟨k, hk⟩ : ∃ k, n.linkCount = k + 1 := ⟨n.linkCount - 1, by omega⟩
      rw [hk, Nat.cast_add, Nat.cast_one] at hold
      rw [hk, Nat.add_sub_cancel]
      exact WithTop.add_right_cancel ENat.one_ne_top hold
    · have hnotin : ver ∉ w.versionsOf (entryOf j n') := hl
      rw [hversions, Set.sdiff_singleton_eq_self hnotin]
      exact h.count j _ hn hc
  · intro j n' hn'
    obtain ⟨n, hn, _, hl⟩ := hcases j n' hn'
    rcases hl with ⟨_, hlt, rfl⟩ | ⟨_, rfl⟩
    · change 0 < n.linkCount - 1
      omega
    · exact h.pos j _ hn

end Snapshots

end Htmpfs
