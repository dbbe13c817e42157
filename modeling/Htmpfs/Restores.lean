import Mathlib
import Htmpfs.NewNames

/-!
# Making and removing

What `make_child_dentry_under_parent` makes, `remove_child_dentry_under_parent`
takes away again: the bytes of the directory differ from what they were, its
entries do not.
-/

namespace Htmpfs

open Program (Ends)

/-- The same directories, the same links and the same lists. -/
structure View.Restored (w w' : View) : Prop where
  tables : ∀ id ver, w'.tableAt id ver = w.tableAt id ver
  links : ∀ id, (w'.node id).map (·.linkCount) = (w.node id).map (·.linkCount)
  listing : w'.listing = w.listing

section Restores

variable {w w₁ w₂ : View} {clean : Prop} {parent id : ℕ} {name : Bytes} {isDir : Bool}
  {t : List PathPack}

theorem find?_append_new (hnew : ∀ p ∈ t, p.pathname ≠ name) :
    ((t ++ [(⟨name, id⟩ : PathPack)]).find? fun i => i.pathname = name) = some ⟨name, id⟩ := by
  rw [List.find?_append, List.find?_eq_none.mpr (by simpa using hnew)]
  simp

theorem eraseP_append_new (hnew : ∀ p ∈ t, p.pathname ≠ name) :
    ((t ++ [(⟨name, id⟩ : PathPack)]).eraseP fun i => i.pathname = name) = t := by
  rw [List.eraseP_append_right _ (by simpa using hnew)]
  simp

/-- The table of the directory with the new entry. -/
theorem View.MakesChild.exists_table (hmake : w.MakesChild parent name isDir id w₁)
    (hword : w.blockSize + 1 ≠ 2 ^ 64) (hfits : NameFits name) :
    ∃ t, w.tableAt parent curModifiableVer = .ok t ∧ (∀ p ∈ t, p.pathname ≠ name) ∧
      w₁.tableAt parent curModifiableVer = .ok (t ++ [⟨name, id⟩]) := by
  obtain ⟨t, ht, hnew, _, htables, _⟩ := hmake.tables
  refine ⟨t, ht, hnew, ?_⟩
  rw [htables parent curModifiableVer hmake.parent_ne, if_pos ⟨rfl, rfl⟩,
    View.savedTable_append hword ht, if_pos hfits]

/-- A new inode is a file or an empty directory. -/
theorem View.MakesChild.removable (hmake : w.MakesChild parent name isDir id w₁)
    (hword : w.blockSize + 1 ≠ 2 ^ 64) (hfits : NameFits name) : w₁.Removable parent name := by
  obtain ⟨t, _, hnew, ht₁⟩ := hmake.exists_table hword hfits
  refine ⟨_, ⟨name, id⟩, _, ht₁, find?_append_new hnew, hmake.node_self, fun hdir => ?_⟩
  exact NodeView.table_eq_ok.mpr ⟨hdir, [], rfl, fun hwrap => hwrap.1 rfl, rfl⟩

theorem View.MakesChild.view_eq (hmake : w.MakesChild parent name isDir id w₁) :
    ∃ list f, w.listing curModifiableVer = some list ∧
      w₁ = ((w.addNode id isDir).setCurrent parent f).setListing curModifiableVer
        (some (list ++ [⟨id, ⟨id, w.nextAddr⟩⟩])) := by
  rcases hmake with ⟨n, t, list, hname, hparent, htable, hnew, hfree, hid, hsize, hlist⟩
  exact ⟨list, _, hlist, rfl⟩

theorem View.RemovesChild.view_eq {p : PathPack} (hremove : w.RemovesChild parent name w₁)
    (ht : w.tableAt parent curModifiableVer = .ok t)
    (hp : (t.find? fun i => i.pathname = name) = some p) :
    ∃ list f, w.listing curModifiableVer = some list ∧
      w₁ = ((w.setCurrent parent f).setListing curModifiableVer
        (some (list.eraseP fun i => i.id = p.inodeId))).dropLink p.inodeId := by
  rcases hremove with ⟨n, t', p', target, list, hparent, htable, hp', htarget, hempty, hsize, hlist⟩
  rw [View.tableAt_of_node hparent] at ht
  obtain rfl := Except.ok.inj (htable.symm.trans ht)
  obtain rfl := Option.some.inj (hp'.symm.trans hp)
  exact ⟨list, _, hlist, rfl⟩

theorem View.linkCount_setCurrent {i j : ℕ} {f : Bytes → Bytes} :
    ((w.setCurrent i f).node j).map (·.linkCount) = (w.node j).map (·.linkCount) := by
  rw [View.node_setCurrent]
  split_ifs with hj
  · rw [hj]
    cases w.node i <;> rfl
  · rfl

/-- Removing the new name leaves what there was before. -/
theorem View.MakesChild.restored (hmake : w.MakesChild parent name isDir id w₁)
    (hl : Links clean w) (hword : w.blockSize + 1 ≠ 2 ^ 64) (hfits : NameFits name)
    (hremove : w₁.RemovesChild parent name w₂) : w.Restored w₂ := by
  have hne := hmake.parent_ne
  obtain ⟨_, _, _, hfree, hmade, _⟩ := hmake.tables
  obtain ⟨t, ht, hnew, ht₁⟩ := hmake.exists_table hword hfits
  have hp := @find?_append_new id _ _ hnew
  obtain ⟨list, f, hlist, heq₁⟩ := hmake.view_eq
  obtain ⟨list₁, g, hlist₁, heq₂⟩ := hremove.view_eq ht₁ hp
  have hself := hmake.node_self
  -- the new inode had one link, and is gone
  have hgone : w₂.node id = none := by
    rw [heq₂, View.node_dropLink, if_pos rfl, View.node_setListing, View.node_setCurrent,
      if_neg hne.symm, hself]
    rfl
  have hothers : ∀ j ≠ id, (w₂.node j).map (·.linkCount) = (w.node j).map (·.linkCount) := by
    intro j hj
    rw [heq₂, View.node_dropLink, if_neg hj, View.node_setListing, View.linkCount_setCurrent, heq₁,
      View.node_setListing, View.linkCount_setCurrent, View.node_addNode, if_neg hj]
  refine ⟨fun j u => ?_, fun j => ?_, ?_⟩
  · by_cases hj : j = id
    · rw [hj, View.tableAt_of_none hgone, View.tableAt_of_none hfree]
    · obtain ⟨t₁, p, _, ht₁', hp', _, _, _, htables, _⟩ := hremove.tables (hl.makesChild hmake)
      obtain rfl := Except.ok.inj (ht₁.symm.trans ht₁')
      obtain rfl := Option.some.inj (hp.symm.trans hp')
      rw [(htables j u).resolve_right fun hgone => hj hgone.1, eraseP_append_new hnew,
        hmade j u hj]
      split_ifs with hcase
      · rw [hcase.1, hcase.2, ht]
      · rfl
  · by_cases hj : j = id
    · rw [hj, hgone, hfree]
    · exact hothers j hj
  · -- no entry of the current list had the new id
    have hfresh : ∀ e ∈ list, ¬ e.id = id := by
      rintro e he rfl
      obtain ⟨n, hn, _⟩ := hl.deref?_current ⟨list, hlist, he⟩
      rw [hfree] at hn
      simp at hn
    have hlist₁' : list₁ = list ++ [⟨id, ⟨id, w.nextAddr⟩⟩] := by
      rw [heq₁, View.listing_setListing, if_pos rfl] at hlist₁
      exact (Option.some.inj hlist₁).symm
    funext u
    rw [heq₂, View.listing_dropLink, View.listing_setListing, heq₁]
    split_ifs with hu
    · rw [hu, hlist, hlist₁', List.eraseP_append_right _ (by simpa using hfresh)]
      simp
    · rw [View.listing_setCurrent, View.listing_setListing, if_neg hu]
      rfl

end Restores

/-! ## Directories as the resolver reads them -/

namespace InodeSmi

/-- The entries of a directory. -/
def entries (id : ℕ) (ver : SnapshotVer) (s : InodeSmi) : Except Exit (List PathPack) := do
  let node ← poolAt id s.inodePool
  let directoryResolver ← DirectoryResolver.new ⟨id, node.addr⟩ ver s
  pure directoryResolver.toVector

/-- The id of a name in a directory. -/
def lookupIn (id : ℕ) (ver : SnapshotVer) (name : Bytes) (s : InodeSmi) : Except Exit ℕ := do
  let node ← poolAt id s.inodePool
  let directoryResolver ← DirectoryResolver.new ⟨id, node.addr⟩ ver s
  directoryResolver.namei name

end InodeSmi

/-- The ordered entries of every directory of every version, the inodes with their links and the
lists of the versions are the same. -/
structure SameTree (s s' : InodeSmi) : Prop where
  entries : ∀ id ver, InodeSmi.entries id ver s' = InodeSmi.entries id ver s
  links : ∀ id, (s'.inodePool.find? id).map (·.linkCount) =
    (s.inodePool.find? id).map (·.linkCount)
  lists : ∀ ver : SnapshotVer, s'.snapshotVersionList[ver]? = s.snapshotVersionList[ver]?

section Trees

variable {s s' s₁ : InodeSmi} {parent id : ℕ} {name : Bytes} {isDir : Bool} {ver : SnapshotVer}

theorem BlocksOk.entries_eq (h : BlocksOk s) : InodeSmi.entries id ver s = s.view.tableAt id ver := by
  unfold InodeSmi.entries
  cases hnode : s.inodePool.find? id with
  | none =>
      rw [View.tableAt_of_none (view_node_eq_none.mpr hnode)]
      simp only [poolAt, hnode]
      rfl
  | some node =>
      have hn := view_node_eq_some.mpr ⟨node, hnode, rfl⟩
      have hopen : s.view.openDir ⟨id, node.addr⟩ ver = s.view.tableAt id ver := by
        rw [View.openDir, View.deref?_eq_some.mpr ⟨hn, rfl⟩, View.tableAt_of_node hn]
      simp only [poolAt, hnode, bind, Except.bind, pure, Except.pure, h.resolver_new_eq, hopen]
      cases s.view.tableAt id ver <;> rfl

theorem InodeSmi.lookupIn_eq : InodeSmi.lookupIn id ver name s =
    (do let t ← InodeSmi.entries id ver s; View.lookup t name) := by
  unfold InodeSmi.lookupIn InodeSmi.entries
  simp only [bind_assoc, pure_bind]
  rfl

theorem View.Restored.sameTree (hrestored : s.view.Restored s'.view) (h : BlocksOk s)
    (h' : BlocksOk s') : SameTree s s' where
  entries := fun id ver => by rw [h.entries_eq, h'.entries_eq, hrestored.tables]
  links := fun id => by
    have hlinks := hrestored.links id
    rw [view_node, view_node, Option.map_map, Option.map_map] at hlinks
    exact hlinks
  lists := fun ver => congrFun hrestored.listing ver

/-- A new name is found, and all others are found as before. -/
theorem View.MakesChild.lookupIn (hmake : s.view.MakesChild parent name isDir id s₁.view)
    (h : BlocksOk s) (h₁ : BlocksOk s₁) (hword : s.view.blockSize + 1 ≠ 2 ^ 64)
    (hfits : NameFits name) :
    InodeSmi.lookupIn parent curModifiableVer name s₁ = .ok id ∧
      ∀ j u other k, ¬ (j = parent ∧ u = curModifiableVer ∧ other = name) →
        (InodeSmi.lookupIn j u other s₁ = .ok k ↔ InodeSmi.lookupIn j u other s = .ok k) := by
  obtain ⟨t, ht, hnew, hfree, htables, hempty⟩ := hmake.tables
  have hparent := htables parent curModifiableVer hmake.parent_ne
  rw [if_pos ⟨rfl, rfl⟩, View.savedTable_append hword ht, if_pos hfits] at hparent
  constructor
  · rw [InodeSmi.lookupIn_eq, h₁.entries_eq, hparent]
    exact View.lookup_append_new hnew
  intro j u other k hne
  rw [InodeSmi.lookupIn_eq, InodeSmi.lookupIn_eq, h₁.entries_eq, h.entries_eq]
  by_cases hj : j = id
  · -- the new inode has no entries
    subst hj
    rw [View.tableAt_of_none hfree]
    rcases hempty u with hnil | ⟨e, he, _⟩
    · rw [hnil]
      simp [View.lookup, bind, Except.bind]
    · rw [he]
      simp [bind, Except.bind]
  · rw [htables j u hj]
    split_ifs with hcase
    · obtain ⟨rfl, rfl⟩ := hcase
      have hother : name ≠ other := fun heq => hne ⟨rfl, rfl, heq.symm⟩
      have hsame : View.lookup (t ++ [⟨name, id⟩]) other = View.lookup t other := by
        unfold View.lookup
        rw [List.find?_append]
        simp [hother]
      rw [View.savedTable_append hword ht, if_pos hfits, ht]
      simp only [bind, Except.bind, hsame]
    · rfl

/-- After a wrapped size the directory with the new entry is not read back. -/
theorem View.MakesChild.lookupIn_wrapped
    (hmake : s.view.MakesChild parent name isDir id s₁.view) (h₁ : BlocksOk s₁)
    (hwrap : s.view.blockSize + 1 = 2 ^ 64) :
    InodeSmi.lookupIn parent curModifiableVer name s₁ = .error (.htmpfs .bufferShortOps) := by
  obtain ⟨t, _, _, _, htables, _⟩ := hmake.tables
  rw [InodeSmi.lookupIn_eq, h₁.entries_eq, htables parent curModifiableVer hmake.parent_ne,
    if_pos ⟨rfl, rfl⟩, View.savedTable, if_pos hwrap]
  rfl

/-- The new name leads to the new inode, the other names lead where they led, and
`remove_child_dentry_under_parent` takes the new one away again. -/
structure MadeToRemove (s : InodeSmi) (parent : ℕ) (name : Bytes) (id : ℕ) (s₁ : InodeSmi) :
    Prop where
  found : InodeSmi.lookupIn parent curModifiableVer name s₁ = .ok id
  others : ∀ j u other k, ¬ (j = parent ∧ u = curModifiableVer ∧ other = name) →
    (InodeSmi.lookupIn j u other s₁ = .ok k ↔ InodeSmi.lookupIn j u other s = .ok k)
  removes : Ends (InodeSmi.removeChildDentryUnderParent parent name) s₁
    (fun _ s₂ => SameTree s s₂) (fun e _ => e = .badAlloc)

/-- What `make_child_dentry_under_parent` made is taken away by `remove_child_dentry_under_parent`,
and leaves no trace in the directories, the links and the lists, exactly when the size of one block
and a terminator does not wrap around. -/
theorem make_remove_restores_iff (hs : SmiReachable s) (hname : name.length ≤ 127) :
    Ends (InodeSmi.makeChildDentryUnderParent parent name isDir) s
      (fun id s₁ => s.inodePool.find? id = none ∧
        (MadeToRemove s parent name id s₁ ↔ s.blockSize + 1 < 2 ^ 64))
      (fun _ _ => True) := by
  obtain ⟨h, hsound⟩ := hs.sound
  have hl := hsound.links
  obtain ⟨list, hlist⟩ := hl.exists_current
  have hfits : NameFits name := Nat.lt_succ_of_le hname
  refine (h.ends_makeChild hlist).mono ?_ fun _ _ _ => trivial
  rintro id s₁ ⟨h₁, hmake, _⟩
  obtain ⟨_, _, _, hfree, _⟩ := hmake.tables
  refine ⟨view_node_eq_none.mp hfree, ?_, fun hlt => ?_⟩
  · intro hmade
    have hbound := h.blockSize_lt
    by_contra hlt
    have hfound := hmade.found
    rw [hmake.lookupIn_wrapped h₁ (by rw [blockSize_view]; omega)] at hfound
    simp at hfound
  have hword : s.view.blockSize + 1 ≠ 2 ^ 64 := hlt.ne
  obtain ⟨hfound, hothers⟩ := hmake.lookupIn h h₁ hword hfits
  refine ⟨hfound, hothers, ?_⟩
  obtain ⟨list₁, hlist₁⟩ := (hl.makesChild hmake).exists_current
  refine (h₁.ends_removeChild hlist₁).mono ?_ fun e _ he => he.2 (hmake.removable hword hfits)
  rintro _ s₂ ⟨h₂, hremove, _⟩
  exact (hmake.restored hl hword hfits hremove).sameTree h h₂

/-- A directory `b` next to the sample file. -/
theorem make_remove_restores_iff_sampleSmi : SameTree sampleSmi
    (Program.exec (InodeSmi.removeChildDentryUnderParent 0 [98])
      (Program.exec (InodeSmi.makeChildDentryUnderParent 0 [98] true) sampleSmi)) := by
  have hreach := smiReachable_sampleSmi
  have hmake : Program.outcome (InodeSmi.makeChildDentryUnderParent 0 [98] true) sampleSmi =
      .ok 2 := by decide +kernel
  have hremove : Program.outcome (InodeSmi.removeChildDentryUnderParent 0 [98])
      (Program.exec (InodeSmi.makeChildDentryUnderParent 0 [98] true) sampleSmi) = .ok () := by
    decide +kernel
  have hword : sampleSmi.blockSize + 1 < 2 ^ 64 := by decide +kernel
  generalize sampleSmi = s at hreach hmake hremove hword ⊢
  obtain ⟨_, hiff⟩ := (make_remove_restores_iff hreach (by decide)).outcome_ok hmake
  exact (hiff.mpr hword).removes.outcome_ok hremove

/-- The largest block size. -/
def wrappedSmi : InodeSmi := InodeSmi.new .libstdcxx (2 ^ 64 - 1)

theorem smiReachable_wrappedSmi : SmiReachable wrappedSmi :=
  ⟨.libstdcxx, 2 ^ 64 - 1, by decide, by decide, Relation.ReflTransGen.refl⟩

/-- There the new name is not found. -/
theorem not_make_remove_restores : ¬ ∀ s, SmiReachable s → ∀ parent name isDir,
    name ≠ [] → name.length ≤ 127 → Ends (InodeSmi.makeChildDentryUnderParent parent name isDir) s
      (fun id s₁ => s.inodePool.find? id = none ∧ MadeToRemove s parent name id s₁)
      (fun _ _ => True) := by
  intro hall
  have hmake : Program.outcome (InodeSmi.makeChildDentryUnderParent 0 [97] false) wrappedSmi =
      .ok 1 := by decide +kernel
  have hthrows : InodeSmi.lookupIn 0 curModifiableVer [97]
      (Program.exec (InodeSmi.makeChildDentryUnderParent 0 [97] false) wrappedSmi) =
      .error (.htmpfs .bufferShortOps) := by decide +kernel
  have hreach := smiReachable_wrappedSmi
  generalize wrappedSmi = s at hmake hthrows hreach
  have hfound := ((hall s hreach 0 [97] false (by decide) (by decide)).outcome_ok hmake).2.found
  rw [hthrows] at hfound
  simp at hfound

end Trees

end Htmpfs
