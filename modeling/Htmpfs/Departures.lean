import Mathlib
import Htmpfs.Answers
import Htmpfs.Snapshots

/-!
# Removed and renamed

`do_unlink` and `do_rmdir` take the last component of a path from the directory
that the others lead to, or they say that they cannot.  `do_rename` in a state
with readable directories stops only before its first half, or for memory.
-/

namespace Htmpfs

open Program (Ends)

/-! ## Removal -/

section Removal

variable {ctx : FuseContext} {s : InodeSmi} {fs fs' : Trees} {call : FuseCall} {path : CString}
  {name : Bytes} {cs : List Bytes} {w : View} {a : Volume.Action Bytes Bytes SnapshotVer}

/-- A possible removal is one that `remove_inode_by_path` can do. -/
theorem View.Shows.able_removal (hshows : w.Shows fs) (h : Orderly w)
    (hasks : AsksRemoval path.1 a) (hdo : fs.Does a fs') : w.RemovablePath path.1 := by
  obtain ⟨_, cs, hpath, rfl⟩ := hasks
  rw [pathname_iff] at hpath
  cases hdo with
  | erase hne hsome hends =>
      rcases List.eq_nil_or_concat cs with rfl | ⟨front, name, rfl⟩
      · exact absurd rfl hne
      rw [List.concat_eq_append] at hpath hsome hends
      obtain ⟨parent, hway, hrem⟩ := hshows.removable h hsome hends
      exact (View.removablePath_iff h.links hpath path.2.2).mpr ⟨parent, hway.walk, hrem⟩

/-- Removals name their last component. -/
theorem View.RemovesPath.asked {w' : View} (hremoves : w.RemovesPath path.1 w') (h : Named w)
    (hlead : ∃ q, LeadsInto path.1 curModifiableVer q) :
    ∃ a, AsksRemoval path.1 a ∧ w.Acts a w' := by
  rcases List.eq_nil_or_concat (comps path.1) with hnil | ⟨front, name, hpath⟩
  · rcases hremoves with ⟨name, ptr, _, _, hptr, _⟩
    have htail : (PathT.ofString path.1).pathname.tail = [] := by
      rw [PathT.pathname_ofString, List.tail_cons, hnil]
    have hcount : ∃ k, u64Sub (PathT.ofString path.1).size 2 = k + 1 := by
      rw [PathT.size, PathT.pathname_ofString, hnil]
      exact ⟨2 ^ 64 - 2, rfl⟩
    obtain ⟨k, hk⟩ := hcount
    rw [htail, hk, View.descend] at hptr
    obtain ⟨_, _, hthrow⟩ := Program.bind_eq_ok.mp hptr
    exact absurd hthrow Program.throw_ne_ok
  · rw [List.concat_eq_append] at hpath
    obtain ⟨parent, hwalk, hremove⟩ := (View.removesPath_iff h.links hpath path.2.2).mp hremoves
    have hway : w.Way front parent := ⟨ne_nil_of_comps hpath, hwalk⟩
    exact ⟨_, ⟨hlead, _, pathname_iff.mpr hpath, rfl⟩,
      View.Acts.removes hway (isName_of_concat hpath).ne_nil hremove⟩

namespace Fuse

theorem settled_removeInodeByPath (h : BlocksOk s) (hw : Orderly s.view) (hshows : s.view.Shows fs)
    (hlead : ∃ q, LeadsInto path.1 curModifiableVer q) (hasks : ∀ a, call.Asks a ↔ AsksRemoval path.1 a)
    (hpath : path.1 ≠ [slash] → comps path.1 ≠ []) (hzero : call.result = 0) :
    Ends (do InodeSmi.removeInodeByPath path.1; pure 0) s (Settled fs s call)
      (Declined fs s call) := by
  obtain ⟨list, hlist⟩ := hw.links.exists_current
  rw [Program.ends_bind]
  by_cases hrem : s.view.RemovablePath path.1
  · apply (h.ends_removeInodeByPath hlist).mono
    · rintro _ s' ⟨h', hremoves⟩
      obtain ⟨a, ha, hacts⟩ := hremoves.asked hw.toNamed hlead
      exact ⟨h', Or.inl ⟨hzero.symm, a, (hasks a).mpr ha, hacts⟩⟩
    · intro e s' he
      rw [he.2 hrem]
      exact Declined.badAlloc
  · refine (h.removeInodeByPath_objects hw.toSound hpath path.2.2 hrem).mono
      (fun _ _ hfalse => hfalse.elim) ?_
    rintro e s' ⟨rfl, he⟩
    refine declined_of_reported h he ?_
    rintro ⟨a, fs', ha, hdo⟩
    exact hrem (hshows.able_removal hw ((hasks a).mp ha) hdo)

theorem settled_doUnlink (h : BlocksOk s) (hw : Orderly s.view) (hshows : s.view.Shows fs) :
    Ends (doUnlink ctx path) s (Settled fs s (.unlink path))
      (fun e _ => Aborted fs s (.unlink path) e) := by
  apply ends_settled
  refine settled_checkRdonlyFs h ?_ fun q hq => ?_
  · rintro ⟨a, _, ⟨hlead, _⟩, _⟩
    exact hlead
  by_cases hnil : comps path.1 = [] ∧ path.1 ≠ [slash]
  · rw [Program.ends_bind]
    obtain ⟨t, ht⟩ := hshows.exists_rootTable hw
    refine (h.removeInodeByPath_derails hw.links.weaken ht hnil.1 hnil.2).mono
      (fun _ _ hfalse => hfalse.elim) ?_
    rintro e s' rfl
    refine declined_of_derails hnil ?_
    rintro ⟨a, fs', ⟨_, cs, hpath, rfl⟩, hdo⟩
    rw [pathname_iff, hnil.1] at hpath
    cases hdo with
    | erase hne _ _ => exact hne hpath.symm
  · exact settled_removeInodeByPath h hw hshows ⟨q, leadsInto_iff.mpr hq⟩ (fun _ => Iff.rfl)
      (fun hslash hempty => hnil ⟨hempty, hslash⟩) rfl

/-- `do_rmdir` asks by the components of the path. -/
theorem asks_rmdir_iff (hpath : comps path.1 = cs ++ [name]) : (FuseCall.rmdir path).Asks a ↔
    name ≠ snapshotEntry ∧ (cs = [snapshotEntry] ∧ name ≠ curModifiableVer ∧ a = .discard name ∨
      cs ≠ [snapshotEntry] ∧ AsksRemoval path.1 a) := by
  constructor
  · rintro ⟨front, name', hpath', hasks⟩
    rw [pathname_iff, hpath] at hpath'
    obtain ⟨rfl, hlast⟩ := List.append_inj' hpath' rfl
    obtain rfl := List.singleton_inj.mp hlast
    exact hasks
  · exact fun hasks => ⟨cs, name, pathname_iff.mpr hpath, hasks⟩

theorem settled_doRmdir (h : BlocksOk s) (hw : Orderly s.view) (hshows : s.view.Shows fs) :
    Ends (doRmdir ctx path) s (Settled fs s (.rmdir path))
      (fun e _ => Aborted fs s (.rmdir path) e) := by
  apply ends_settled
  rw [Program.ends_bind]
  refine ends_popPath (fun hnil => ?_) fun cs name hpath => ?_
  · refine declined_of_reported h reported_invalidDentryName ?_
    rintro ⟨a, _, ⟨front, name, hpath, _⟩, _⟩
    rw [pathname_iff, hnil] at hpath
    simp at hpath
  simp only [isEmpty_of_concat hpath, Bool.false_eq_true, if_false]
  split_ifs with hentry hsnap
  · refine settled_of_rofs h ?_
    rintro ⟨a, _, ha, _⟩
    exact ((asks_rmdir_iff hpath).mp ha).1 hentry
  · -- a snapshot
    obtain rfl := isSnapshotDir_iff.mp hsnap
    have hasks : ∀ a, (FuseCall.rmdir path).Asks a ↔ name ≠ curModifiableVer ∧ a = .discard name := by
      intro a
      rw [asks_rmdir_iff hpath]
      simp [hentry]
    rw [Program.ends_bind]
    apply (h.ends_deleteSnapshot_of_links hw.links _).mono
    · rintro _ s' ⟨h', hdelete, _⟩
      exact ⟨h', Or.inl ⟨rfl, .discard name, (hasks _).mpr ⟨hdelete.ne_current, rfl⟩,
        View.Acts.deletes hdelete⟩⟩
    · intro e s' he
      obtain ⟨rfl, rfl, hunlisted⟩ := DeleteRefused.noSuchSnapshot he hw.links
      refine declined_of_reported h (Exit.reported_of_errno (by decide)) ?_
      rintro ⟨a, fs', ha, hdo⟩
      obtain ⟨hne, rfl⟩ := (hasks a).mp ha
      cases hdo with
      | discard hsome =>
          rw [hshows.isSome_frozen hw.toNamed hne, hunlisted.resolve_left hne] at hsome
          exact absurd hsome (by simp)
  · have hcs : cs ≠ [snapshotEntry] := fun heq => hsnap (isSnapshotDir_iff.mpr heq)
    have hasks : ∀ a, (FuseCall.rmdir path).Asks a ↔ AsksRemoval path.1 a := by
      intro a
      rw [asks_rmdir_iff hpath]
      simp [hentry, hcs]
    refine settled_checkRdonlyFs h ?_ fun q hq => ?_
    · rintro ⟨a, _, ha, _⟩
      exact ((hasks a).mp ha).1
    exact settled_removeInodeByPath h hw hshows ⟨q, leadsInto_iff.mpr hq⟩ hasks
      (fun _ => by simp [hpath]) rfl

end Fuse

end Removal

/-! ## Rename -/

section Rename

variable {ctx : FuseContext} {s s' : InodeSmi} {fs fs' : Trees} {path name : CString}
  {targetName originalName c : Bytes} {cs ds front front' rest : List Bytes} {w w' : View}
  {id parent p : ℕ} {n : NodeView} {t : List PathPack} {list : List InodeResult}

theorem View.Relinks.defined {clean : Prop} (hstep : w.Relinks parent targetName id w')
    (hl : Links clean w) (hname : 0 ∉ targetName) (hid : id < 2 ^ 64) (hfits : NameFits targetName)
    (h : ∀ j u, w.tableAt j u ≠ .error .undefined) : ∀ j u, w'.tableAt j u ≠ .error .undefined := by
  rcases hstep with hadd | ⟨w₀, hremove, hadd⟩
  · exact hadd.defined hname hid hfits h
  · exact hadd.defined hname hid hfits (hremove.defined hl h)

/-- The first half is done where the target is free or can be removed. -/
theorem BlocksOk.relink_able (h : BlocksOk s) (hw : Named s.view)
    (hn : s.view.node parent = some n) (ht : n.table s.blockSize curModifiableVer = .ok t)
    (hable : ¬ s.view.HasName parent targetName ∨ s.view.Removable parent targetName) :
    Ends (Fuse.relink parent ⟨t, ⟨parent, n.addr⟩, curModifiableVer⟩ targetName id) s
      (fun _ _ => True) (fun e _ => e = .badAlloc) := by
  obtain ⟨list, hlist⟩ := hw.links.exists_current
  unfold Fuse.relink
  rw [Program.ends_tryCatch]
  refine (h.ends_addEntry (View.deref?_of_node hn) ht).mono (fun _ _ _ => trivial) ?_
  rintro e s' (rfl | ⟨rfl, rfl, hany⟩)
  · rw [if_neg (by simp), Program.ends_throw]
  have hname : s'.view.HasName parent targetName :=
    ⟨t, by rw [View.tableAt_of_node hn, blockSize_view, ht], hany⟩
  rw [if_pos rfl, Program.ends_bind]
  refine (h.ends_removeChild hlist).mono ?_ fun e s₀ he => he.2 (hable.resolve_left (not_not.mpr hname))
  rintro _ s₀ ⟨h₀, hremove, _⟩
  obtain ⟨n₀, t', hn₀, haddr, hdir₀, ht', ht₀⟩ := hremove.node_parent hn
  have hderef : s₀.view.deref? ⟨parent, n.addr⟩ = some n₀ := View.deref?_eq_some.mpr ⟨hn₀, haddr⟩
  have hrefresh := h₀.refresh_eq ⟨t, ⟨parent, n.addr⟩, curModifiableVer⟩ hderef hdir₀
  rw [blockSize_view] at ht₀
  rw [ht₀] at hrefresh
  rw [Program.ends_bind]
  refine Program.Ends.reads_ok hrefresh ?_
  refine (h₀.ends_addEntry hderef ht₀).mono (fun _ _ _ => trivial) ?_
  rintro e s₁ (rfl | ⟨rfl, rfl, hagain⟩)
  · rfl
  · exact absurd ⟨_, by rw [View.tableAt_of_node hn₀, blockSize_view, ht₀], hagain⟩
      (hremove.not_hasName hw.links hw.names)

/-- And the second half where the old entry is found. -/
theorem BlocksOk.unlinkOriginal_able (h : BlocksOk s) (hcs : ∀ c ∈ cs, IsName c)
    (hparent : s.view.resolveComps cs = .ok p) (hname : s.view.HasName p originalName) :
    Ends (Fuse.unlinkOriginal ⟨[] :: cs⟩ originalName) s (fun _ _ => True)
      (fun e _ => e = .badAlloc) := by
  obtain ⟨t, ht, q, hq, hqname⟩ := hname
  obtain ⟨n, hn, htable⟩ := View.tableAt_eq_ok.mp ht
  unfold Fuse.unlinkOriginal Fuse.inodeByPath
  simp only [Program.ends_bind]
  refine Program.Ends.reads_ok (a := p)
    (by rw [h.resolve_eq, View.resolve_toString hcs, hparent]) ?_
  refine Program.Ends.reads_ok (a := ⟨p, n.addr⟩) (by rw [getInodeById_eq, hn]) ?_
  refine h.ends_resolver_new (View.deref?_of_node hn) (fun t' hdir ht' => ?_) fun e he => ?_
  swap
  · rw [← blockSize_view, htable] at he
    simp at he
  obtain rfl := Except.ok.inj (htable.symm.trans ht')
  have hany : t.any (fun i => decide (i.pathname = originalName)) = true := by
    rw [List.any_eq_true]
    exact ⟨q, hq, by simpa using hqname⟩
  refine Program.Ends.reads_ok
    (a := ⟨t.eraseP fun i => i.pathname = originalName, ⟨p, n.addr⟩, curModifiableVer⟩) ?_ ?_
  · unfold DirectoryResolver.removePath
    rw [if_pos hany]
    rfl
  · exact (h.ends_saveCurrent (r := ⟨_, ⟨p, n.addr⟩, curModifiableVer⟩)
      (View.deref?_of_node hn)).mono (fun _ _ _ => trivial) fun _ _ he => he

/-- What a possible rename finds. -/
theorem View.Shows.able_rename (hshows : w.Shows fs) (h : Orderly w)
    (hable : (FuseCall.rename path name).Possible fs) :
    (∃ q, LeadsInto path.1 curModifiableVer q) ∧ (∃ q, LeadsInto name.1 curModifiableVer q) ∧
      (∃ id, w.resolve path.1 = .ok id) ∧ comps path.1 ≠ [] ∧
      ∃ ds targetName parent t, comps name.1 = ds ++ [targetName] ∧
        w.resolveComps ds = .ok parent ∧ w.tableAt parent curModifiableVer = .ok t ∧
        (¬ w.HasName parent targetName ∨ w.Removable parent targetName) := by
  obtain ⟨a, fs', ⟨src, front, targetName, habs, hlead, hlead', rfl⟩, hdo⟩ := hable
  have hlive := leadsInto_iff.mp hlead
  have hlive' := leadsInto_iff.mp hlead'
  cases hdo with
  | move hsrc hsome hp hends =>
      obtain ⟨e, he⟩ := Option.isSome_iff_exists.mp hsome
      rw [hshows.current] at he
      obtain ⟨id, hway, _⟩ := View.exists_way he
      refine ⟨⟨_, hlead⟩, ⟨_, hlead'⟩, ⟨id, (View.resolve_iff_way habs hlive).mpr hway⟩, ?_, ?_⟩
      · intro hnil
        rw [hnil] at hlive
        exact hsrc (Prod.mk.inj (Except.ok.inj hlive)).2.symm
      -- the components of the new path
      have hcomps : ∃ ds, comps name.1 = ds ++ [targetName] := by
        obtain ⟨skipped, hsuffix⟩ := suffix_of_liveComps hlive'
        exact ⟨skipped ++ front, by rw [← hsuffix, List.append_assoc]⟩
      obtain ⟨ds, hds⟩ := hcomps
      obtain ⟨front₀, heq, hresolve⟩ := exists_front hds hlive' (ne_snapshotEntry_of_live hds hlive')
      obtain ⟨rfl, _⟩ := List.append_inj' heq rfl
      obtain ⟨parent, t, hway', ht⟩ := hshows.exists_table h hp
      refine ⟨ds, targetName, parent, t, hds, (hresolve w parent).mpr hway', ht, ?_⟩
      rw [← imp_iff_not_or]
      rintro ⟨t', ht', q, hq, hqname⟩
      obtain rfl := Except.ok.inj (ht.symm.trans ht')
      obtain ⟨q', _, hlookup⟩ := View.exists_lookup (List.mem_map.mpr ⟨q, hq, hqname⟩)
      have hlast : w.Way (front ++ [targetName]) q'.inodeId :=
        View.way_concat.mpr ⟨(isName_of_concat hds).ne_nil, parent, hway', t, ht, hlookup⟩
      obtain ⟨parent', hway₀, hrem⟩ := hshows.removable h (hshows.isSome_way h.toNamed hlast) hends
      rwa [hway'.unique hway₀]

/-- A rename is what was asked for. -/
theorem View.Renames.asked (hstep : w.Renames path.1 name.1 w')
    (hfit : (FuseCall.rename path name).NamesFit) :
    ∃ a, (FuseCall.rename path name).Asks a ∧ w.Acts a w' := by
  obtain ⟨front, originalName, front', targetName, id, parent, originalParent, w₀, w₁, hmoves⟩ :=
    hstep.moves name.2.1
  refine ⟨.move (front ++ [originalName]) front' targetName, ⟨_, _, _, ?_, ?_, ?_, rfl⟩, ?_⟩
  · exact View.absolute_of_resolve hmoves.source
  · exact leadsInto_iff.mpr hmoves.live
  · exact leadsInto_iff.mpr hmoves.live'
  · exact View.Acts.moves (hfit _ rfl _ hmoves.mem) hmoves

namespace Fuse

theorem settled_doRename (h : BlocksOk s) (hw : Orderly s.view) (hshows : s.view.Shows fs)
    (hfit : (FuseCall.rename path name).NamesFit) (hroot : (FuseCall.rename path name).KeepsRoot) :
    Ends (doRename ctx path name) s (Settled fs s (.rename path name))
      (fun e _ => Aborted fs s (.rename path name) e) := by
  obtain ⟨list, hlist⟩ := hw.links.exists_current
  have hable := fun hpossible : (FuseCall.rename path name).Possible fs =>
    hshows.able_rename hw hpossible
  apply ends_settled
  refine settled_checkRdonlyFs h (fun hpossible => (hable hpossible).1) fun rest hlive => ?_
  refine settled_checkRdonlyFs h (fun hpossible => (hable hpossible).2.1) fun rest' hlive' => ?_
  rw [Program.ends_bind, Program.ends_reads, h.resolve_eq]
  refine ⟨fun id hid => ?_, fun e he => ?_⟩
  swap
  · refine declined_of_reported h (hw.resolve_reported he) fun hpossible => ?_
    obtain ⟨_, _, ⟨id, hid⟩, _⟩ := hable hpossible
    rw [hid] at he
    simp at he
  rw [Program.ends_bind]
  refine ends_popPath (fun hnil => ?_) fun cs originalName hpath => ?_
  · exact declined_of_reported h reported_invalidDentryName fun hpossible =>
      (hable hpossible).2.2.2.1 hnil
  simp only [PathT.size, List.length_cons, Nat.add_eq_zero_iff, one_ne_zero, and_false, if_false]
  rw [Program.ends_bind]
  refine ends_popPath (fun hnil => ?_) fun ds targetName hname => ?_
  · refine declined_of_reported h reported_invalidDentryName fun hpossible => ?_
    obtain ⟨_, _, _, _, ds, targetName, _, _, hds, _⟩ := hable hpossible
    rw [hnil] at hds
    simp at hds
  simp only [List.length_cons, Nat.add_eq_zero_iff, one_ne_zero, and_false, if_false]
  have hable' : (FuseCall.rename path name).Possible fs → ∃ parent t,
      s.view.resolveComps ds = .ok parent ∧ s.view.tableAt parent curModifiableVer = .ok t ∧
        (¬ s.view.HasName parent targetName ∨ s.view.Removable parent targetName) := by
    intro hpossible
    obtain ⟨_, _, _, _, ds', targetName', parent, t, hds, hparent, ht, hcase⟩ := hable hpossible
    rw [hname] at hds
    obtain ⟨rfl, hlast⟩ := List.append_inj' hds rfl
    obtain rfl := List.singleton_inj.mp hlast
    exact ⟨parent, t, hparent, ht, hcase⟩
  rw [Program.ends_bind]
  refine settled_resolveParent h hw hname (fun hpossible => ?_) fun parent hparent => ?_
  · obtain ⟨parent, _, hparent, _⟩ := hable' hpossible
    exact ⟨parent, hparent⟩
  have hargs : s.view.RenameArgs path.1 name.1 cs originalName ds targetName id parent :=
    ⟨hpath, hname, ⟨rest, hlive⟩, ⟨rest', hlive'⟩, hid, hparent⟩
  have htarget : (FuseCall.rename path name).Possible fs → ∃ t,
      s.view.tableAt parent curModifiableVer = .ok t ∧
        (¬ s.view.HasName parent targetName ∨ s.view.Removable parent targetName) := by
    intro hpossible
    obtain ⟨parent', t, hparent', ht, hcase⟩ := hable' hpossible
    obtain rfl := Except.ok.inj (hparent.symm.trans hparent')
    exact ⟨t, ht, hcase⟩
  rw [Program.ends_bind, Program.ends_reads, getInodeById_eq]
  cases hn : s.view.node parent with
  | none =>
      refine ⟨by simp, fun e he => ?_⟩
      obtain rfl := Except.error.inj he
      refine declined_of_reported h (Exit.reported_of_errno (by decide)) ?_
      intro hpossible
      obtain ⟨t, ht, _⟩ := htarget hpossible
      rw [View.tableAt_of_none hn] at ht
      simp at ht
  | some n =>
      refine ⟨fun ptr hptr => ?_, by simp⟩
      obtain rfl := Except.ok.inj hptr
      rw [Program.ends_bind]
      refine h.ends_resolver_new (View.deref?_of_node hn) (fun t _ ht => ?_) fun e he _ => ?_
      swap
      · refine declined_of_reported h (hw.table_reported hn he) fun hpossible => ?_
        obtain ⟨t, ht, _⟩ := htarget hpossible
        rw [View.tableAt_of_node hn, blockSize_view, he] at ht
        simp at ht
      rw [Program.ends_bind]
      by_cases hfree : ¬ s.view.HasName parent targetName ∨ s.view.Removable parent targetName
      swap
      · -- the first half objects
        rw [not_or, not_not] at hfree
        refine (h.relink_objects hw.toSound hn ht hfree.1 hfree.2).mono
          (fun _ _ hfalse => hfalse.elim) ?_
        rintro e s₁ (rfl | ⟨rfl, hreported⟩)
        · exact Declined.badAlloc
        refine declined_of_reported h hreported fun hpossible => ?_
        obtain ⟨_, _, hnew | hrem⟩ := htarget hpossible
        · exact hnew hfree.1
        · exact hfree.2 hrem
      refine ((h.ends_relink hlist hn ht).and (h.relink_able hw.toNamed hn ht hfree)).mono ?_ ?_
      swap
      · rintro e s₁ ⟨_, rfl⟩
        exact Declined.badAlloc
      rintro _ s₁ ⟨⟨h₁, hrelink, _⟩, _⟩
      have hzero : 0 ∉ targetName := fun hmem =>
        name.2.1 (mem_of_mem_comps (by simp [hname]) hmem)
      -- the second half finds the old entry
      have hcs : cs ≠ [snapshotEntry] := by
        rintro rfl
        rw [hpath] at hlive
        simp only [List.singleton_append, liveComps, if_true] at hlive
        have hver := (Prod.mk.inj (Program.pure_eq_ok.mp hlive)).1
        exact hroot (by rw [hpath, hver]; rfl)
      obtain ⟨front, p, t', hfront, hway, ht', hlookup⟩ := hargs.original hcs
      have hdefined := hrelink.defined hw.links hzero (View.lookup_lt ht' hlookup)
        (hfit name rfl _ (by simp [hname])) hw.defined
      obtain ⟨hway₁, hname₁⟩ :=
        hrelink.original hw.links hzero (View.lookup_lt ht' hlookup) hway ht' hlookup
      have hway₁ := hway₁.resolve_right fun hundef =>
        Exit.not_thrown_undefined (View.walk_thrown hdefined hundef)
      have hname₁ := hname₁.resolve_right (hdefined _ _)
      have hnames : ∀ c ∈ cs, IsName c := fun c hc =>
        isName_of_mem_comps (p := path.1) c (by simp [hpath, hc])
      rw [Program.ends_bind]
      refine ((hargs.ends_unlinkOriginal h₁ hw.links.weaken hrelink hzero).and
        (h₁.unlinkOriginal_able hnames ?_ hname₁)).mono ?_ ?_
      · rw [View.resolveComps_of_live hfront, hway₁]
      · rintro _ s' ⟨⟨h', hrenames, _⟩, _⟩
        exact ⟨h', Or.inl ⟨rfl, hrenames.asked hfit⟩⟩
      · rintro e s' ⟨_, rfl⟩
        exact Declined.badAlloc

end Fuse

end Rename

end Htmpfs
