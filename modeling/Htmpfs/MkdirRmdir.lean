import Mathlib
import Htmpfs.RemoveByPath
import Htmpfs.Resizes
import Htmpfs.Restores

/-!
# `do_mkdir` and `do_rmdir`

Both make and remove snapshots below `/.snapshot` and directories elsewhere.
But `do_rmdir` refuses every path that ends in `.snapshot`, and it goes by the
other walker, which does not know `/.snapshot/current`.
-/

namespace Htmpfs

open Program (Ends)

section Snapshots

variable {w w₁ w₂ : View} {clean : Prop} {ver : SnapshotVer}

theorem NodeView.dropLink_unfreeze_freeze {n : NodeView} (hnone : n.data ver = none)
    (hpos : 0 < n.linkCount) : ((n.freeze ver).unfreeze ver).dropLink = some n := by
  refine (NodeView.dropLink_eq_some (by simp)).mpr ⟨?_, ?_⟩
  · simp only [NodeView.linkCount_unfreeze, NodeView.linkCount_freeze]
    omega
  · have hdata : (fun u => if u = ver then none else
        if u = ver then n.data curModifiableVer else n.data u) = n.data := by
      funext u
      split_ifs with hu
      · rw [hu, hnone]
      · rfl
    unfold NodeView.freeze NodeView.unfreeze
    simp only [hdata, Nat.add_sub_cancel]

/-- A snapshot that is deleted at once leaves no trace. -/
theorem View.CreatesSnapshot.restored (hcreate : w.CreatesSnapshot ver w₁) (hl : Links clean w)
    (hdelete : w₁.DeletesSnapshot ver w₂) : w.Restored w₂ := by
  have hl₁ := hl.createsSnapshot hcreate
  have hnode : ∀ id, w₂.node id = w.node id := by
    intro id
    have hnode₁ := hcreate.node_eq hl id
    cases hn : w.node id with
    | none =>
        rw [hn] at hnode₁
        exact hdelete.node_eq_none hnode₁
    | some n =>
        rw [hn, Option.map_some] at hnode₁
        have hlists : w₁.Lists ver (entryOf id n) ↔ w.Lists curModifiableVer (entryOf id n) := by
          rw [hcreate.lists_iff, if_pos rfl]
        split_ifs at hnode₁ with hcur
        · rcases hdelete.node_eq hl₁ hnode₁ with ⟨_, hnode₂⟩ | ⟨hno, _⟩
          · rw [hnode₂]
            have hnone : n.data ver = none := by
              rw [← Option.not_isSome_iff_eq_none, hl.data ver id n hn]
              rintro (rfl | hlisted)
              · exact hcreate.ne_current rfl
              · exact hcreate.not_lists _ hlisted
            have hpos := hl.pos id n hn
            exact NodeView.dropLink_unfreeze_freeze hnone hpos
          · exact absurd (hlists.mpr hcur) hno
        · rcases hdelete.node_eq hl₁ hnode₁ with ⟨hyes, _⟩ | ⟨_, hnode₂⟩
          · exact absurd (hlists.mp hyes) hcur
          · exact hnode₂
  have hsize : w₂.blockSize = w.blockSize := hdelete.blockSize.trans hcreate.blockSize
  refine ⟨fun id u => View.tableAt_congr hsize (hnode id), fun id => by rw [hnode], ?_⟩
  have hnone := hcreate.listing_eq_none
  rcases hcreate with ⟨list, _, _⟩
  rcases hdelete with ⟨list', _, _, _⟩
  funext u
  rw [View.listing_setListing]
  split_ifs with hu
  · rw [hu, hnone]
  · rw [View.listing_updateAll, View.listing_setListing, if_neg hu, View.listing_updateAll]

/-- A new snapshot can be deleted. -/
theorem View.CreatesSnapshot.not_refused {s s₁ s₂ : InodeSmi} {e : Exit}
    (hcreate : s.view.CreatesSnapshot ver s₁.view) (hl : Links clean s.view) :
    ¬ DeleteRefused s₁ ver e s₂ := by
  have hlisting : ∃ list, s.view.listing curModifiableVer = some list ∧
      s₁.view.listing ver = some list := by
    generalize s.view = w at hcreate
    generalize s₁.view = w₁ at hcreate
    rcases hcreate with ⟨list, _, hlist⟩
    exact ⟨list, hlist, by rw [View.listing_setListing, if_pos rfl]⟩
  obtain ⟨list, hlist, hlist₁⟩ := hlisting
  rintro (⟨_, _, rfl | hnone⟩ | ⟨_, list', i, hlist', hi, hdead⟩)
  · exact hcreate.ne_current rfl
  · rw [hlist₁] at hnone
    simp at hnone
  · obtain rfl := Option.some.inj (hlist₁.symm.trans hlist')
    have hlists : s₁.view.Lists curModifiableVer i := by
      rw [hcreate.lists_iff, if_neg hcreate.ne_current.symm]
      exact ⟨_, hlist, hi⟩
    obtain ⟨n, _, _, hderef⟩ := (hl.createsSnapshot hcreate).deref?_current hlists
    rw [hdead] at hderef
    simp at hderef

end Snapshots

section Callbacks

variable {s s₁ : InodeSmi} {ctx : FuseContext} {path : CString} {cs rest : List Bytes}
  {name : Bytes} {mode : ℕ}

theorem isSnapshotDir_iff : Fuse.isSnapshotDir ⟨[] :: cs⟩ = true ↔ cs = [snapshotEntry] := by
  refine ⟨Fuse.comps_of_isSnapshotDir, ?_⟩
  rintro rfl
  decide

/-- `do_mkdir` returned 0: it made a snapshot or a directory, or the parent of the path could not
be resolved and `errno` was 0. -/
inductive MadeDirectory (s : InodeSmi) (cs : List Bytes) (name : Bytes) (s₁ : InodeSmi) : Prop
  | snapshot (hcs : cs = [snapshotEntry]) (hcreate : s.view.CreatesSnapshot name s₁.view)
  | directory {rest : List Bytes} {parent id : ℕ} (hcs : cs ≠ [snapshotEntry])
      (hlive : liveComps (cs ++ [name]) = .ok (curModifiableVer, rest))
      (hparent : s.view.resolveComps cs = .ok parent)
      (hmake : s.view.MakesChild parent name true id s₁.view)
  | nothing {rest : List Bytes} (hcs : cs ≠ [snapshotEntry])
      (hlive : liveComps (cs ++ [name]) = .ok (curModifiableVer, rest))
      (hparent : s.view.resolveComps cs = .error .outOfRange) (hkept : s₁.view = s.view)

theorem Fuse.ends_doMkdir_zero (h : BlocksOk s) (hl : Links False s.view)
    (hpath : comps path.1 = cs ++ [name]) :
    Ends (doMkdir ctx path mode) s
      (fun r s₁ => r = 0 → BlocksOk s₁ ∧ MadeDirectory s cs name s₁) (fun _ _ => True) := by
  obtain ⟨list, hlist⟩ := hl.exists_current
  refine (ends_catchTail (E := fun e s₁ => e.Reported ∨ ¬ e.Thrown ∨
    BlocksOk s₁ ∧ MadeDirectory s cs name s₁) ?_ ?_).mono (fun _ _ hr => hr) fun _ _ _ => trivial
  swap
  · rintro e s₁ (hreported | hnot | hmade) hthrown hzero
    · exact absurd hzero (hreported.caught_neg ctx).ne
    · exact absurd hthrown hnot
    · exact hmade
  rw [Program.ends_bind]
  refine ends_popPath_of hpath ?_
  simp only [isEmpty_of_concat hpath, Bool.false_eq_true, if_false]
  split_ifs with hsnap
  · rw [Program.ends_bind]
    refine (h.ends_createSnapshot_of_links hl _).mono ?_ fun e _ he => ?_
    · rintro _ s₁ ⟨h₁, hcreate, _⟩ _
      exact ⟨h₁, .snapshot (isSnapshotDir_iff.mp hsnap) hcreate⟩
    · rw [he.1]
      exact Or.inl (Exit.reported_of_errno (by decide))
  · have hcs : cs ≠ [snapshotEntry] := fun heq => hsnap (isSnapshotDir_iff.mpr heq)
    refine ends_checkRdonlyFs (fun rest hlive => ?_) (fun _ _ _ _ hzero => ?_) fun e he => ?_
    rotate_left
    · simp [eRofs] at hzero
    · rw [liveComps_error he]
      exact Or.inl (Exit.reported_of_errno (by decide))
    rw [hpath] at hlive
    rw [Program.ends_bind, Program.ends_reads, toString_parent h hpath]
    refine ⟨fun parent hparent => ?_, fun e hparent => ?_⟩
    · by_cases hcreatable : s.view.Creatable parent name
      · refine ends_newChild h hlist ?_ fun e _ _ he => ?_
        · intro ptr n s₁ h₁ hmake _ _ _ _
          exact ⟨h₁, .directory hcs hlive hparent hmake⟩
        · rw [he hcreatable]
          exact Or.inr (Or.inl Exit.not_thrown_badAlloc)
      · rw [Program.ends_bind]
        refine (h.makeChild_refused hcreatable).mono (fun _ _ hfalse => hfalse.elim) ?_
        rintro e s₁ ⟨_, he⟩
        exact (Classical.em e.Thrown).imp he Or.inl
    · by_cases hthrown : e.Thrown
      · rcases View.resolveComps_reported hparent hthrown with rfl | hreported
        · exact Or.inr (Or.inr ⟨h, .nothing hcs hlive hparent rfl⟩)
        · exact Or.inl hreported
      · exact Or.inr (Or.inl hthrown)

theorem Fuse.ends_doRmdir_snapshotEntry (hpath : comps path.1 = cs ++ [snapshotEntry]) :
    Ends (doRmdir ctx path) s (fun r _ => r < 0) (fun _ _ => False) := by
  refine (ends_catchTail (E := fun _ _ => False) ?_ fun _ _ hfalse => hfalse.elim).mono
    (fun _ _ hr => hr) fun _ _ he => he.2
  rw [Program.ends_bind]
  refine ends_popPath_of hpath ?_
  dsimp only
  rw [if_neg (by decide), if_pos rfl]
  show -(eRofs : ℤ) < 0
  decide

theorem Fuse.ends_doRmdir_snapshot (h : BlocksOk s) (hl : Links False s.view)
    (hpath : comps path.1 = [snapshotEntry, name]) (hname : name ≠ snapshotEntry)
    (hlisted : ∀ e s', ¬ DeleteRefused s name e s') :
    Ends (doRmdir ctx path) s
      (fun r s' => r = 0 ∧ BlocksOk s' ∧ s.view.DeletesSnapshot name s'.view)
      (fun _ _ => False) := by
  refine (ends_catchTail (E := fun _ _ => False) ?_ fun _ _ hfalse => hfalse.elim).mono
    (fun _ _ hr => hr) fun _ _ he => he.2
  rw [Program.ends_bind]
  have hlast : comps path.1 = [snapshotEntry] ++ [name] := hpath
  refine ends_popPath_of hlast ?_
  simp only [isEmpty_of_concat hlast, Bool.false_eq_true, if_false, if_neg hname]
  rw [if_pos (isSnapshotDir_iff.mpr rfl), Program.ends_bind]
  refine (h.ends_deleteSnapshot_of_links hl _).mono ?_ fun e s' he => hlisted e s' he
  rintro _ s' ⟨h', hdelete, _⟩
  exact ⟨rfl, h', hdelete⟩

/-- `do_rmdir` on any other path removes the last component from where `remove_inode_by_path` finds
the parent, or returns an errno. -/
theorem Fuse.ends_doRmdir_entry (h : BlocksOk s) (hl : Links False s.view)
    (hpath : comps path.1 = cs ++ [name]) (hcs : cs ≠ [snapshotEntry])
    (hlive : liveComps (cs ++ [name]) = .ok (curModifiableVer, rest))
    (hname : name ≠ snapshotEntry) :
    Ends (doRmdir ctx path) s
      (fun r s' => (r = 0 ∧ BlocksOk s' ∧ ∃ parent,
          s.view.walk curModifiableVer rootInodeNumber cs = .ok parent ∧
            s.view.RemovesChild parent name s'.view) ∨
        r < 0 ∧ ∀ parent, s.view.walk curModifiableVer rootInodeNumber cs = .ok parent →
          ¬ s.view.Removable parent name)
      (fun e _ => ∀ parent, s.view.walk curModifiableVer rootInodeNumber cs = .ok parent →
        s.view.Removable parent name → e = .badAlloc) := by
  obtain ⟨list, hlist⟩ := hl.exists_current
  have hremovable := View.removablePath_iff hl hpath path.2.2
  refine (ends_catchTail (E := fun e _ => e = .badAlloc ∨ ¬ s.view.RemovablePath path.1 ∧
    (e.Thrown → e.Reported)) ?_ ?_).mono (fun _ _ hr => hr) ?_
  rotate_left
  · rintro e s' (rfl | ⟨hno, hreported⟩) hthrown
    · exact absurd hthrown Exit.not_thrown_badAlloc
    · refine Or.inr ⟨(hreported hthrown).caught_neg ctx, fun parent hwalk hrem => hno ?_⟩
      exact hremovable.mpr ⟨parent, hwalk, hrem⟩
  · rintro e s' ⟨_, rfl | ⟨hno, _⟩⟩ parent hwalk hrem
    · rfl
    · exact absurd (hremovable.mpr ⟨parent, hwalk, hrem⟩) hno
  rw [Program.ends_bind]
  refine ends_popPath_of hpath ?_
  simp only [isEmpty_of_concat hpath, Bool.false_eq_true, if_false, if_neg hname]
  rw [if_neg fun hsnap => hcs (isSnapshotDir_iff.mp hsnap)]
  refine ends_checkRdonlyFs_of_live (hpath ▸ hlive) ?_
  rw [Program.ends_bind]
  by_cases hrem : s.view.RemovablePath path.1
  · refine (h.ends_removeInodeByPath hlist).mono ?_ fun _ _ he => Or.inl (he.2 hrem)
    rintro _ s' ⟨h', hremoves⟩
    exact Or.inl ⟨rfl, h', (View.removesPath_iff hl hpath path.2.2).mp hremoves⟩
  · refine (h.removeInodeByPath_refused hrem).mono (fun _ _ hfalse => hfalse.elim) ?_
    rintro e s' ⟨_, he⟩
    exact Or.inr ⟨hrem, he⟩

end Callbacks

/-! ## `do_rmdir` after `do_mkdir` -/

/-- Where `do_rmdir` undoes `do_mkdir`: the path does not end in `.snapshot`, and it is the path of
a snapshot, or tables are read back and both walkers find the same parent. -/
def Undoable (s : InodeSmi) (path : Bytes) : Prop :=
  ∃ name vpath, (PathT.ofString path).popEnd = .ok (name, vpath) ∧ name ≠ snapshotEntry ∧
    (Fuse.isSnapshotDir vpath = true ∨ s.blockSize + 1 < 2 ^ 64 ∧ ∃ parent,
      InodeSmi.getInodeIdByPath vpath.toString s = .ok parent ∧
        s.walk curModifiableVer rootInodeNumber vpath.pathname = .ok parent)

section Undo

variable {s s₁ s₂ : InodeSmi} {ctx : FuseContext} {path : CString} {cs rest : List Bytes}
  {name : Bytes} {mode parent id q : ℕ}

theorem undoable_iff (h : BlocksOk s) (hpath : comps path.1 = cs ++ [name]) :
    Undoable s path.1 ↔ name ≠ snapshotEntry ∧ (cs = [snapshotEntry] ∨
      s.blockSize + 1 < 2 ^ 64 ∧ ∃ parent, s.view.resolveComps cs = .ok parent ∧
        s.view.walk curModifiableVer rootInodeNumber cs = .ok parent) := by
  unfold Undoable
  simp only [popEnd_ofString hpath, Except.ok.injEq, Prod.mk.injEq]
  constructor
  · rintro ⟨_, _, ⟨rfl, rfl⟩, hname, hcase⟩
    rw [isSnapshotDir_iff, toString_parent h hpath] at hcase
    simp only [h.walk_eq, View.walk_nil_cons] at hcase
    exact ⟨hname, hcase⟩
  · rintro ⟨hname, hcase⟩
    refine ⟨name, _, ⟨rfl, rfl⟩, hname, ?_⟩
    rw [isSnapshotDir_iff, toString_parent h hpath]
    simp only [h.walk_eq, View.walk_nil_cons]
    exact hcase

/-- A removal that leaves the tree as it was before a new directory took the new directory away. -/
theorem View.MakesChild.parent_eq_of_restored {w w₁ w₂ : View} {isDir : Bool}
    (hmake : w.MakesChild parent name isDir id w₁) (hl : Links False w)
    (hword : w.blockSize + 1 ≠ 2 ^ 64) (hfits : NameFits name)
    (hremove : w₁.RemovesChild q name w₂) (hrestored : ∀ j u, w₂.tableAt j u = w.tableAt j u) :
    q = parent := by
  by_contra hne
  obtain ⟨t, ht, _, ht₁⟩ := hmake.exists_table hword hfits
  obtain ⟨_, _, _, _, _, _, _, _, htables, _⟩ := hremove.tables (hl.makesChild hmake)
  have hsame := hrestored parent curModifiableVer
  rw [ht] at hsame
  rcases htables parent curModifiableVer with hkept | ⟨_, hgone⟩
  · rw [if_neg fun hcase => hne hcase.1.symm, ht₁, hsame] at hkept
    have hlen := congrArg List.length (Except.ok.inj hkept)
    simp at hlen
  · rw [hgone] at hsame
    simp at hsame

/-- A removal changes a table. -/
theorem View.RemovesChild.not_restored {w w' : View} (hremove : w.RemovesChild parent name w')
    (hl : Links False w) : ¬ ∀ j u, w'.tableAt j u = w.tableAt j u := by
  intro hrestored
  obtain ⟨t, p, _, ht, hp, _, _, hne, htables, _⟩ := hremove.tables hl
  have hsame := hrestored parent curModifiableVer
  rw [(htables parent curModifiableVer).resolve_right fun hgone => hne hgone.1.symm,
    if_pos ⟨rfl, rfl⟩, ht] at hsame
  have hlen := congrArg List.length (Except.ok.inj hsame)
  rw [List.length_eraseP_of_mem (List.mem_of_find?_eq_some hp) (List.find?_some hp)] at hlen
  have hpos := List.length_pos_of_mem (List.mem_of_find?_eq_some hp)
  omega

theorem SameTree.tables (hsame : SameTree s s₂) (h : BlocksOk s) (h₂ : BlocksOk s₂) (j : ℕ)
    (u : SnapshotVer) : s₂.view.tableAt j u = s.view.tableAt j u := by
  rw [← h.entries_eq, ← h₂.entries_eq, hsame.entries]

theorem Fuse.ends_doMkdir_root (hpath : comps path.1 = []) :
    Ends (doMkdir ctx path mode) s (fun r _ => r < 0) (fun _ _ => False) := by
  refine (ends_catchTail (E := fun e _ => e = .htmpfs .invalidDentryName) ?_ ?_).mono
    (fun _ _ hr => hr) ?_
  rotate_left
  · rintro e s' rfl _
    exact (Exit.reported_of_errno (by decide)).caught_neg ctx
  · rintro e s' ⟨hthrown, rfl⟩
    exact hthrown trivial
  rw [Program.ends_bind]
  refine ends_popPath (fun _ => rfl) fun cs name hpath' => ?_
  rw [hpath] at hpath'
  simp at hpath'

/-- What is left to undo after a new directory. -/
theorem ends_doRmdir_of_made (h : BlocksOk s) (hl : Links False s.view) (h₁ : BlocksOk s₁)
    (hpath : comps path.1 = cs ++ [name]) (hcs : cs ≠ [snapshotEntry])
    (hlive : liveComps (cs ++ [name]) = .ok (curModifiableVer, rest))
    (hname : name ≠ snapshotEntry) (hfits : NameFits name)
    (hparent : s.view.resolveComps cs = .ok parent)
    (hmake : s.view.MakesChild parent name true id s₁.view) :
    Ends (Fuse.doRmdir ctx path) s₁
      (fun r' s₂ => r' = 0 ∧ SameTree s s₂ ↔ s.blockSize + 1 < 2 ^ 64 ∧
        s.view.walk curModifiableVer rootInodeNumber cs = .ok parent)
      (fun e _ => s.blockSize + 1 < 2 ^ 64 ∧
        s.view.walk curModifiableVer rootInodeNumber cs = .ok parent → e = .badAlloc) := by
  have hway : s.view.walk curModifiableVer rootInodeNumber cs = .ok parent →
      s₁.view.walk curModifiableVer rootInodeNumber cs = .ok parent := fun hwalk =>
    (hmake.walk_kept hwalk hmake.parent_ne).resolve_right fun hlong => hlong.1.2 hfits
  refine (Fuse.ends_doRmdir_entry h₁ (hl.makesChild hmake) hpath hcs hlive hname).mono ?_ ?_
  · rintro r' s₂ (⟨rfl, h₂, q, hwalk, hremove⟩ | ⟨hneg, hno⟩)
    · constructor
      · rintro ⟨_, hsame⟩
        -- the entry that was removed had been read back
        have hword : s.view.blockSize + 1 ≠ 2 ^ 64 := by
          obtain ⟨t, p, _, ht, hp, _⟩ := hremove.tables (hl.makesChild hmake)
          rw [← hmake.blockSize]
          exact View.word_of_tableAt ht (List.ne_nil_of_mem (List.mem_of_find?_eq_some hp))
        have hlt : s.blockSize + 1 ≠ 2 ^ 64 := hword
        obtain rfl := hmake.parent_eq_of_restored hl hword hfits hremove (hsame.tables h h₂)
        exact ⟨by have := h.blockSize_lt; omega, hmake.walk_old hwalk hmake.parent_ne⟩
      · rintro ⟨hword, hwalk'⟩
        obtain rfl := Except.ok.inj ((hway hwalk').symm.trans hwalk)
        exact ⟨rfl, (hmake.restored hl hword.ne hfits hremove).sameTree h h₂⟩
    · constructor
      · rintro ⟨rfl, _⟩
        exact absurd hneg (lt_irrefl _)
      · rintro ⟨hword, hwalk⟩
        exact absurd (hmake.removable hword.ne hfits) (hno parent (hway hwalk))
  · rintro e s₂ he ⟨hword, hwalk⟩
    exact he parent (hway hwalk) (hmake.removable hword.ne hfits)

/-- `do_rmdir` undoes `do_mkdir` exactly where the path does not end in `.snapshot`, the two
walkers agree about its parent and tables are read back. -/
theorem do_rmdir_undoes_do_mkdir_iff (ctx ctx' : FuseContext) (hs : FuseReachable s)
    (hfit : ∀ c ∈ comps path.1, c.length ≤ 127) (mode : ℕ) :
    Ends (Fuse.doMkdir ctx path mode) s
      (fun r s₁ => r = 0 → Ends (Fuse.doRmdir ctx' path) s₁
        (fun r' s₂ => r' = 0 ∧ SameTree s s₂ ↔ Undoable s path.1)
        (fun e _ => Undoable s path.1 → e = .badAlloc))
      (fun _ _ => True) := by
  obtain ⟨h, hl⟩ := hs.links
  rcases List.eq_nil_or_concat (comps path.1) with hnil | ⟨cs, name, hpath⟩
  · refine (Fuse.ends_doMkdir_root hnil).mono ?_ fun _ _ _ => trivial
    rintro r s₁ hneg rfl
    exact absurd hneg (lt_irrefl _)
  rw [List.concat_eq_append] at hpath
  have hfits : NameFits name := Nat.lt_succ_of_le (hfit name (by simp [hpath]))
  refine (Fuse.ends_doMkdir_zero h hl hpath).mono ?_ fun _ _ _ => trivial
  intro r s₁ hmade hzero
  obtain ⟨h₁, hmade⟩ := hmade hzero
  rw [undoable_iff h hpath]
  by_cases hname : name = snapshotEntry
  · subst hname
    refine (Fuse.ends_doRmdir_snapshotEntry hpath).mono ?_ fun _ _ hfalse => hfalse.elim
    intro r' s₂ hneg
    constructor
    · rintro ⟨rfl, _⟩
      exact absurd hneg (lt_irrefl _)
    · exact fun hundo => absurd rfl hundo.1
  cases hmade with
  | snapshot hcs hcreate =>
      subst hcs
      refine (Fuse.ends_doRmdir_snapshot h₁ (hl.createsSnapshot hcreate) hpath hname
        fun e s' => hcreate.not_refused hl).mono ?_ fun _ _ hfalse => hfalse.elim
      rintro r' s₂ ⟨rfl, h₂, hdelete⟩
      have hsame := (hcreate.restored hl hdelete).sameTree h h₂
      exact ⟨fun _ => ⟨hname, Or.inl rfl⟩, fun _ => ⟨rfl, hsame⟩⟩
  | @directory rest parent id hcs hlive hparent hmake =>
      have hundo : (name ≠ snapshotEntry ∧ (cs = [snapshotEntry] ∨ s.blockSize + 1 < 2 ^ 64 ∧
          ∃ parent, s.view.resolveComps cs = .ok parent ∧
            s.view.walk curModifiableVer rootInodeNumber cs = .ok parent)) ↔
          s.blockSize + 1 < 2 ^ 64 ∧
            s.view.walk curModifiableVer rootInodeNumber cs = .ok parent := by
        constructor
        · rintro ⟨_, hsnap | ⟨hword, q, hq, hwalk⟩⟩
          · exact absurd hsnap hcs
          · exact ⟨hword, by rw [hwalk, ← hq, hparent]⟩
        · exact fun ⟨hword, hwalk⟩ => ⟨hname, Or.inr ⟨hword, parent, hparent, hwalk⟩⟩
      rw [hundo]
      exact ends_doRmdir_of_made h hl h₁ hpath hcs hlive hname hfits hparent hmake
  | nothing hcs hlive hparent hkept =>
      have hundo : ¬ (name ≠ snapshotEntry ∧ (cs = [snapshotEntry] ∨ s.blockSize + 1 < 2 ^ 64 ∧
          ∃ parent, s.view.resolveComps cs = .ok parent ∧
            s.view.walk curModifiableVer rootInodeNumber cs = .ok parent)) := by
        rintro ⟨_, hsnap | ⟨_, q, hq, _⟩⟩
        · exact hcs hsnap
        · rw [hparent] at hq
          simp at hq
      have hl₁ : Links False s₁.view := hkept ▸ hl
      refine (Fuse.ends_doRmdir_entry h₁ hl₁ hpath hcs hlive hname).mono ?_
        fun _ _ _ hundoable => absurd hundoable hundo
      rintro r' s₂ (⟨_, h₂, q, _, hremove⟩ | ⟨hneg, _⟩)
      · refine ⟨fun hsame => ?_, fun hundoable => absurd hundoable hundo⟩
        refine absurd (fun j u => ?_) (hremove.not_restored hl₁)
        rw [hsame.2.tables h h₂, hkept]
      · refine ⟨?_, fun hundoable => absurd hundoable hundo⟩
        rintro ⟨rfl, _⟩
        exact absurd hneg (lt_irrefl _)

theorem do_rmdir_undoes_do_mkdir_iff_mount :
    (0 = (0 : ℤ) ∧ SameTree (mount sampleContext .libstdcxx 512)
      (Program.exec (Fuse.doRmdir sampleContext samplePath)
        (Program.exec (Fuse.doMkdir sampleContext samplePath 0)
          (mount sampleContext .libstdcxx 512)))) ↔
      Undoable (mount sampleContext .libstdcxx 512) samplePath.1 := by
  have hreach : FuseReachable (mount sampleContext .libstdcxx 512) := fuseReachable_mount
  have hfit : ∀ c ∈ comps samplePath.1, c.length ≤ 127 := by decide
  have hmkdir : Program.outcome (Fuse.doMkdir sampleContext samplePath 0)
      (mount sampleContext .libstdcxx 512) = .ok 0 := by decide +kernel
  have hrmdir : Program.outcome (Fuse.doRmdir sampleContext samplePath)
      (Program.exec (Fuse.doMkdir sampleContext samplePath 0)
        (mount sampleContext .libstdcxx 512)) = .ok 0 := by decide +kernel
  generalize mount sampleContext .libstdcxx 512 = s at hreach hmkdir hrmdir ⊢
  have hends := (do_rmdir_undoes_do_mkdir_iff sampleContext sampleContext hreach hfit
    0).outcome_ok hmkdir rfl
  exact hends.outcome_ok hrmdir

/-- `"/.snapshot/current/b"` -/
def currentPath : CString :=
  ⟨[47, 46, 115, 110, 97, 112, 115, 104, 111, 116, 47, 99, 117, 114, 114, 101, 110, 116, 47, 98],
    by decide⟩

/-- A directory that was made through `/.snapshot/current` is not found by `do_rmdir`. -/
theorem not_do_rmdir_undoes_do_mkdir : ¬ ∀ s, FuseReachable s →
    ∀ (ctx ctx' : FuseContext) (path : CString) (mode : ℕ), path.1.head? = some slash →
    (∀ c ∈ comps path.1, c.length ≤ 127) →
    Ends (Fuse.doMkdir ctx path mode) s
      (fun r s₁ => r = 0 → Ends (Fuse.doRmdir ctx' path) s₁
        (fun r' s₂ => r' = 0 ∧ SameTree s s₂) (fun e _ => e = .badAlloc))
      (fun _ _ => True) := by
  intro hall
  have hreach : FuseReachable (mount sampleContext .libstdcxx 512) := fuseReachable_mount
  have hfit : ∀ c ∈ comps currentPath.1, c.length ≤ 127 := by decide
  have hmkdir : Program.outcome (Fuse.doMkdir sampleContext currentPath 0)
      (mount sampleContext .libstdcxx 512) = .ok 0 := by decide +kernel
  have hrmdir : Program.outcome (Fuse.doRmdir sampleContext currentPath)
      (Program.exec (Fuse.doMkdir sampleContext currentPath 0)
        (mount sampleContext .libstdcxx 512)) = .ok (-2) := by decide +kernel
  generalize mount sampleContext .libstdcxx 512 = s at hreach hmkdir hrmdir
  have hends := (hall s hreach sampleContext sampleContext currentPath 0 rfl hfit).outcome_ok
    hmkdir rfl
  exact absurd (hends.outcome_ok hrmdir).1 (by decide)

end Undo

end Htmpfs
