import Mathlib
import Htmpfs.Frames
import Htmpfs.PathNames
import Htmpfs.Runs

/-!
# Snapshots

A snapshot shows what the live tree showed when it was made, for as long as it
exists; making and deleting one does not show in the live tree; and either
call fails before it has changed anything.
-/

namespace Htmpfs

open Program (Ends Leaves)

/-- What a path shows at a version: whether it leads to a directory, and what `to_string` gives. -/
def InodeSmi.observe (path : Bytes) (ver : SnapshotVer) (s : InodeSmi) :
    Except Exit (Bool × Except Exit Bytes) := do
  let inodeId ← InodeSmi.getInodeIdByPath path s
  let inode ← InodeSmi.getInodeById inodeId s
  let self ← InodeSmi.deref inode s
  pure (self.isDentry, self.toString s.bufferPool ver)

section Observe

variable {s s' : InodeSmi} {path : Bytes} {ver ver' : SnapshotVer} {id : ℕ}
  {x : Bool × Except Exit Bytes}

theorem BlocksOk.observe_eq_ok (h : BlocksOk s) : s.observe path ver = .ok x ↔
    ∃ id n, s.view.resolve path = .ok id ∧ s.view.node id = some n ∧ n.isDentry = x.1 ∧
      n.toString s.blockSize ver = x.2 := by
  have hfinds : ∀ id n, s.view.node id = some n → (do
      let inode ← InodeSmi.getInodeById id s
      let self ← InodeSmi.deref inode s
      pure (self.isDentry, self.toString s.bufferPool ver)) =
        Except.ok (n.isDentry, n.toString s.blockSize ver) := by
    intro id n hn
    obtain ⟨node, hnode, _, rfl, hval⟩ := deref_of_view (View.deref?_of_node hn)
    simp only [getInodeById_eq, hn, hval, h.toString_eq hnode, bind, Except.bind]
    rfl
  unfold InodeSmi.observe
  rw [h.resolve_eq]
  constructor
  · intro hx
    obtain ⟨id, hid, hx⟩ := Program.bind_eq_ok.mp hx
    cases hn : s.view.node id with
    | none => simp [getInodeById_eq, hn, bind, Except.bind] at hx
    | some n =>
        obtain rfl := Except.ok.inj ((hfinds id n hn).symm.trans hx)
        exact ⟨id, n, hid, hn, rfl, rfl⟩
  · rintro ⟨id, n, hid, hn, hkind, hbytes⟩
    rw [hid]
    refine (hfinds id n hn).trans ?_
    rw [hkind, hbytes]

/-- Where a path leads to an inode of a version, the version shows something, and its bytes are read
unless the length of a block and a terminator wraps around. -/
theorem BlocksOk.exists_observe (h : BlocksOk s) (hs : Named s.view)
    (hres : s.view.resolve path = .ok id) (hid : s.view.ListsId ver id) :
    ∃ x, s.observe path ver = .ok x ∧ (s.blockSize + 1 < 2 ^ 64 → ∃ c, x.2 = .ok c) := by
  obtain ⟨n, hn, hl⟩ := hs.links.live_of_listsId hid
  obtain ⟨c, hc⟩ := Option.isSome_iff_exists.mp ((hs.links.data ver id n hn).mpr (Or.inr hl))
  refine ⟨(n.isDentry, n.toString s.blockSize ver),
    h.observe_eq_ok.mpr ⟨id, n, hres, hn, rfl, rfl⟩, fun hword => ⟨c, ?_⟩⟩
  exact NodeView.toString_eq_ok.mpr ⟨hc, fun hwrap => hword.ne hwrap.2⟩

end Observe

/-! ## Paths into a version -/

section Paths

variable {w : View} {path : Bytes} {ver : SnapshotVer}

theorem View.resolve_makePathWithVersion (hver : IsName ver) (hne : ver ≠ curModifiableVer)
    (hlisted : (w.listing ver).isSome) (hslash : path.head? = some slash) :
    w.resolve (makePathWithVersion path ver) = w.walk ver rootInodeNumber (comps path) := by
  have hhead : (makePathWithVersion path ver).head? = some slash := by
    unfold makePathWithVersion
    rw [if_neg hne]
    rfl
  rw [View.resolve_eq_resolveComps (Or.inr hhead), comps_makePathWithVersion hver hne (Or.inr hslash)]
  unfold View.resolveComps
  simp only [liveComps, if_true, bind, Except.bind, pure, Except.pure]
  split_ifs with hroot
  · rw [hroot.2]
    rfl
  · rfl

/-- A path that does not start with `.snapshot` is resolved in the current version. -/
theorem View.resolve_live (hslash : path.head? = some slash)
    (hlive : (comps path).head? ≠ some snapshotEntry) :
    w.resolve path = w.walk curModifiableVer rootInodeNumber (comps path) := by
  rw [View.resolve_eq_resolveComps (Or.inr hslash)]
  refine View.resolveComps_of_live ?_
  cases hcs : comps path with
  | nil => rfl
  | cons head rest =>
      have hhead : head ≠ snapshotEntry := by
        rintro rfl
        rw [hcs] at hlive
        exact hlive rfl
      simp only [liveComps, if_neg hhead]
      rfl

end Paths

/-! ## Faithfulness -/

section Faithful

variable {s s' s'' : InodeSmi} {op : SmiOp} {path : Bytes} {ver u : SnapshotVer}

/-- Every admitted call but its deletion leaves a snapshot alone. -/
theorem View.Changes.keepsVersion {w w' : View} (hstep : w.Changes op w') (h : Named w)
    (hver : ver ≠ curModifiableVer) (hlisted : (w.listing ver).isSome)
    (hop : op ≠ .deleteSnapshot ver) (hsizes : op.SizesFit) : w.KeepsVersion ver w' := by
  cases hstep with
  | none => exact View.KeepsVersion.refl
  | makes hstep => exact hstep.keepsVersion hver
  | removes hstep => exact hstep.keepsVersion h hver
  | @creates u _ hstep =>
      apply hstep.keepsVersion h
      rintro rfl
      rw [hstep.listing_eq_none] at hlisted
      simp at hlisted
  | @deletes u _ hstep =>
      refine hstep.keepsVersion h ?_
      rintro rfl
      exact hop rfl
  | rewrites f hn hfile => exact View.keepsVersion_setCurrent hver
  | overflows g hn hfile hg hover => exact absurd hsizes hover
  | @renames ctx path name _ hstep => exact hstep.keepsVersion h name.2.1 hver

/-- A step that does not delete the snapshot, and whose sums do not overflow. -/
def SmiStepKeeping (ver : SnapshotVer) (s s' : InodeSmi) : Prop :=
  ∃ op : SmiOp, op.Admitted s ∧ op.SizesFit ∧ op ≠ .deleteSnapshot ver ∧
    Leaves Exit.Thrown op.run s s'

theorem SmiStepKeeping.keepsVersion (hstep : SmiStepKeeping ver s s')
    (h : BlocksOk s ∧ Sound s.view) (hver : ver ≠ curModifiableVer)
    (hlisted : (s.view.listing ver).isSome) :
    (BlocksOk s' ∧ Sound s'.view) ∧ s.view.KeepsVersion ver s'.view := by
  obtain ⟨op, hop, hsizes, hne, hrun⟩ := hstep
  refine ⟨SmiStep.sound ⟨op, hop, hrun⟩ h, ?_⟩
  obtain ⟨_, hchange⟩ := SmiOp.leaves_run h.1 h.2.toNamed hop.toAllowed hrun
  exact hchange.keepsVersion h.2.toNamed hver hlisted hne hsizes

theorem keepsVersion_of_run (hrun : Relation.ReflTransGen (SmiStepKeeping ver) s s')
    (h : BlocksOk s ∧ Sound s.view) (hver : ver ≠ curModifiableVer)
    (hlisted : (s.view.listing ver).isSome) :
    (BlocksOk s' ∧ Sound s'.view) ∧ s.view.KeepsVersion ver s'.view := by
  apply Program.run_relates (I := fun t => BlocksOk t ∧ Sound t.view)
    (R := fun t t' => t.view.KeepsVersion ver t'.view) hrun h View.KeepsVersion.refl
  intro t t' ht hkept hstep
  have hlisted' : (t.view.listing ver).isSome := by
    rw [hkept.listing]
    exact hlisted
  obtain ⟨ht', hkept'⟩ := SmiStepKeeping.keepsVersion hstep ht hver hlisted'
  exact ⟨ht', hkept.trans hkept'⟩

/-- What one version shows under a path is what the other shows under the path that leads to the
mirrored inode. -/
theorem observe_iff_of_mirrors {s s' : InodeSmi} {ver ver' : SnapshotVer} {path path' : Bytes}
    (h : BlocksOk s) (h' : BlocksOk s') (hs : Named s.view)
    (hmirrors : s.view.Mirrors ver s'.view ver')
    (hres : s'.view.resolve path' = s.view.resolve path)
    (hlisted : ∀ id, s.view.resolve path = .ok id → s.view.ListsId ver id)
    (x : Bool × Except Exit Bytes) :
    s'.observe path' ver' = .ok x ↔ s.observe path ver = .ok x := by
  have hbs : s'.blockSize = s.blockSize := hmirrors.blockSize
  rw [h.observe_eq_ok, h'.observe_eq_ok, hres, hbs]
  constructor
  · rintro ⟨id, n', hid, hn', hkind, hbytes⟩
    obtain ⟨n, hn, hl⟩ := hs.links.live_of_listsId (hlisted id hid)
    obtain ⟨n₁, hn₁, _, hkind₁, hdata₁⟩ := hmirrors.node id n hn hl
    obtain rfl := Option.some.inj (hn'.symm.trans hn₁)
    exact ⟨id, n, hid, hn, hkind₁ ▸ hkind, (NodeView.toString_congr hdata₁).symm.trans hbytes⟩
  · rintro ⟨id, n, hid, hn, hkind, hbytes⟩
    obtain ⟨n₀, hn₀, hl⟩ := hs.links.live_of_listsId (hlisted id hid)
    obtain rfl := Option.some.inj (hn.symm.trans hn₀)
    obtain ⟨n', hn', _, hkind', hdata'⟩ := hmirrors.node id n hn hl
    exact ⟨id, n', hid, hn', hkind'.trans hkind, (NodeView.toString_congr hdata').trans hbytes⟩

/-- A snapshot shows, until it is deleted, what the live tree showed when it was made. -/
theorem snapshot_faithful (h : SmiReachable s) (hver : IsName ver)
    (hcreate : InodeSmi.createSnapshotVolume ver s = .ok () s')
    (hrun : Relation.ReflTransGen (SmiStepKeeping ver) s' s'') (hslash : path.head? = some slash)
    (hlive : (comps path).head? ≠ some snapshotEntry) :
    ((∃ id, InodeSmi.getInodeIdByPath (makePathWithVersion path ver) s'' = .ok id) ↔
        ∃ id, InodeSmi.getInodeIdByPath path s = .ok id) ∧
      ((∃ id, InodeSmi.getInodeIdByPath path s = .ok id) ↔
        ∃ x, s.observe path curModifiableVer = .ok x) ∧
      (s.blockSize + 1 < 2 ^ 64 →
        ∀ x, s.observe path curModifiableVer = .ok x → ∃ c, x.2 = .ok c) ∧
      ∀ x, s''.observe (makePathWithVersion path ver) ver = .ok x ↔
        s.observe path curModifiableVer = .ok x := by
  obtain ⟨hok, hs⟩ := h.sound
  obtain ⟨hok', hstep, _⟩ := (hok.ends_createSnapshot_of_links hs.links _).of_ok hcreate
  have hs' : Sound s'.view := hs.createsSnapshot hstep
  have hne : ver ≠ curModifiableVer := hstep.ne_current
  have hmirrors := hstep.mirrors hs.toNamed
  have hcur := hs.toNamed.isSome_current
  have hlisted' : (s'.view.listing ver).isSome := by
    rw [hmirrors.listing]
    exact hcur
  obtain ⟨⟨hok'', hs''⟩, hkept⟩ := keepsVersion_of_run hrun ⟨hok', hs'⟩ hne hlisted'
  have hall := hmirrors.trans hkept
  have hlisted'' : (s''.view.listing ver).isSome := by
    rw [hall.listing]
    exact hcur
  have hroot := hs.toNamed.listsId_root hcur
  have hres : s''.view.resolve (makePathWithVersion path ver) = s.view.resolve path := by
    rw [View.resolve_makePathWithVersion hver hne hlisted'' hslash,
      View.resolve_live hslash hlive, hall.walk_eq hs.toNamed hroot]
  have hlisted : ∀ id, s.view.resolve path = .ok id → s.view.ListsId curModifiableVer id := by
    intro id hid
    rw [View.resolve_live hslash hlive] at hid
    exact hs.toNamed.walk_listed hroot hid
  refine ⟨?_, ?_, fun hword x hx => ?_,
    observe_iff_of_mirrors hok hok'' hs.toNamed hall hres hlisted⟩
  · rw [hok''.resolve_eq, hok.resolve_eq, hres]
  · rw [hok.resolve_eq]
    constructor
    · rintro ⟨id, hid⟩
      obtain ⟨x, hx, _⟩ := hok.exists_observe hs.toNamed hid (hlisted id hid)
      exact ⟨x, hx⟩
    · rintro ⟨x, hx⟩
      obtain ⟨id, _, hid, _⟩ := hok.observe_eq_ok.mp hx
      exact ⟨id, hid⟩
  · obtain ⟨id, _, hid, _⟩ := hok.observe_eq_ok.mp hx
    obtain ⟨y, hy, hbytes⟩ := hok.exists_observe hs.toNamed hid (hlisted id hid)
    obtain rfl := Except.ok.inj (hx.symm.trans hy)
    exact hbytes hword

/-- The file system with a snapshot `v`. -/
def snapshotSmi : InodeSmi := Program.exec (InodeSmi.createSnapshotVolume [118]) sampleSmi

theorem createSnapshot_sampleSmi :
    InodeSmi.createSnapshotVolume [118] sampleSmi = .ok () snapshotSmi :=
  Program.eq_ok_of_outcome (by decide +kernel)

/-- The file `a` of the snapshot outlives the file that it was made of. -/
theorem snapshot_faithful_sampleSmi :
    (Program.exec (SmiOp.removeChild 0 [97]).run snapshotSmi).observe
      (makePathWithVersion [slash, 97] [118]) [118] = .ok (false, .ok []) := by
  have hstep : SmiStepKeeping [118] snapshotSmi
      (Program.exec (SmiOp.removeChild 0 [97]).run snapshotSmi) :=
    ⟨.removeChild 0 [97], ⟨⟨trivial, trivial, trivial⟩, trivial⟩, trivial, by simp,
      Program.leaves_exec (a := ()) (by decide +kernel)⟩
  have hver : IsName [118] := ⟨by simp, by decide⟩
  exact ((snapshot_faithful smiReachable_sampleSmi hver createSnapshot_sampleSmi
    (Relation.ReflTransGen.single hstep) (show ([slash, 97] : Bytes).head? = some slash from rfl)
    (by decide +kernel)).2.2.2
    (false, .ok [])).mpr (by decide +kernel)

end Faithful

/-! ## Creation and deletion -/

section Volumes

variable {s s' : InodeSmi} {op : SmiOp} {path : Bytes} {ver : SnapshotVer} {id : ℕ}

/-- What a snapshot lists is there, so that a deletion is refused for its name only. -/
theorem DeleteRefused.noSuchSnapshot {e : Exit} (h : DeleteRefused s ver e s')
    (hl : Links True s.view) : e = .htmpfs .noSuchSnapshot ∧ s' = s ∧
      (ver = curModifiableVer ∨ s.view.listing ver = none) := by
  rcases h with h | ⟨_, list, i, hlist, hi, hnone⟩
  · exact h
  · obtain ⟨n, hn, heq⟩ := hl.live ver i ⟨list, hlist, hi⟩ (Or.inl trivial)
    have hptr : i.inode = ⟨i.id, n.addr⟩ := congrArg InodeResult.inode heq
    rw [hptr, View.deref?_of_node hn] at hnone
    simp at hnone

/-- Both calls succeed, or throw for the name of the snapshot and change nothing. -/
theorem snapshots_all_or_nothing (h : SmiReachable s) (ver : SnapshotVer) :
    ((∃ e s', InodeSmi.createSnapshotVolume ver s = .error e s') ↔
        s.snapshotVersionList.contains ver) ∧
      ((∃ e s', InodeSmi.deleteSnapshotVolume ver s = .error e s') ↔
        ver = curModifiableVer ∨ ¬ s.snapshotVersionList.contains ver) ∧
      ∀ e s', InodeSmi.createSnapshotVolume ver s = .error e s' ∨
        InodeSmi.deleteSnapshotVolume ver s = .error e s' → s' = s := by
  obtain ⟨hok, hs⟩ := h.sound
  have hcreate := hok.ends_createSnapshot_of_links hs.links ver
  have hdelete := hok.ends_deleteSnapshot_of_links hs.links ver
  have hcontains : s.snapshotVersionList.contains ver = true ↔ s.view.listing ver ≠ none := by
    rw [Std.ExtTreeMap.contains_eq_isSome_getElem?, Option.isSome_iff_ne_none]
    rfl
  refine ⟨⟨?_, fun hlisted => ?_⟩, ⟨?_, fun hmissing => ?_⟩, ?_⟩
  · rintro ⟨e, s', hrun⟩
    exact hcontains.mpr (hcreate.of_error hrun).2.2
  · cases hrun : InodeSmi.createSnapshotVolume ver s with
    | error e s' => exact ⟨e, s', rfl⟩
    | ok _ s' =>
        obtain ⟨_, hstep, _⟩ := hcreate.of_ok hrun
        exact absurd hstep.listing_eq_none (hcontains.mp hlisted)
  · rintro ⟨e, s', hrun⟩
    rw [hcontains, not_not]
    exact ((hdelete.of_error hrun).noSuchSnapshot hs.links).2.2
  · cases hrun : InodeSmi.deleteSnapshotVolume ver s with
    | error e s' => exact ⟨e, s', rfl⟩
    | ok _ s' =>
        obtain ⟨_, hstep, _⟩ := hdelete.of_ok hrun
        rw [hcontains, not_not] at hmissing
        exact absurd hmissing (not_or.mpr ⟨hstep.ne_current, hstep.listing_ne_none⟩)
  · rintro e s' (hrun | hrun)
    · exact (hcreate.of_error hrun).2.1
    · exact ((hdelete.of_error hrun).noSuchSnapshot hs.links).2.1

theorem snapshots_all_or_nothing_sampleSmi :
    (∃ e s', InodeSmi.createSnapshotVolume curModifiableVer sampleSmi = .error e s') ↔
      sampleSmi.snapshotVersionList.contains curModifiableVer :=
  (snapshots_all_or_nothing smiReachable_sampleSmi curModifiableVer).1

/-- The current version as both calls leave it, whether they succeed or throw. -/
theorem keepsCurrent_of_volume (h : BlocksOk s) (hs : Named s.view)
    (hop : op = .createSnapshot ver ∨ op = .deleteSnapshot ver)
    (hrun : Leaves (fun _ => True) op.run s s') :
    BlocksOk s' ∧ s.view.KeepsVersion curModifiableVer s'.view := by
  rcases hop with rfl | rfl
  · rcases (h.ends_createSnapshot_of_links hs.links _).leaves hrun with
      ⟨_, h', hstep, _⟩ | ⟨e, _, _, rfl, _⟩
    · exact ⟨h', hstep.keepsVersion hs hstep.ne_current.symm⟩
    · exact ⟨h, View.KeepsVersion.refl⟩
  · rcases (h.ends_deleteSnapshot_of_links hs.links _).leaves hrun with
      ⟨_, h', hstep, _⟩ | ⟨e, _, hrefused⟩
    · exact ⟨h', hstep.keepsVersion hs hstep.ne_current.symm⟩
    · obtain ⟨_, rfl, _⟩ := hrefused.noSuchSnapshot hs.links
      exact ⟨h, View.KeepsVersion.refl⟩

/-- An inode outlives the snapshot exactly when another version lists it. -/
theorem View.DeletesSnapshot.node_iff {w w' : View} (hstep : w.DeletesSnapshot ver w')
    (h : Links True w) {id : ℕ} {n : NodeView} (hn : w.node id = some n) :
    (∃ n', w'.node id = some n' ∧ n'.addr = n.addr) ↔ ∃ u, u ≠ ver ∧ w.ListsId u id := by
  have hcount := h.count id n hn (Or.inl trivial)
  have hlists : ∀ u, w.ListsId u id ↔ u ∈ w.versionsOf (entryOf id n) := by
    intro u
    constructor
    · intro hu
      obtain ⟨n', hn', hl⟩ := h.live_of_listsId hu
      obtain rfl := Option.some.inj (hn.symm.trans hn')
      exact hl
    · exact fun hl => ⟨_, hl, rfl⟩
  simp only [hlists]
  rcases hstep.node_eq h hn with ⟨hl, hnode⟩ | ⟨hl, hnode⟩
  · have hother : (∃ u, u ≠ ver ∧ u ∈ w.versionsOf (entryOf id n)) ↔ 1 < n.linkCount := by
      have hone : 1 < (w.versionsOf (entryOf id n)).encard ↔ 1 < n.linkCount := by
        rw [← hcount]
        exact_mod_cast Iff.rfl
      rw [← hone, Set.one_lt_encard_iff]
      constructor
      · rintro ⟨u, hne, hu⟩
        exact ⟨u, ver, hu, hl, hne⟩
      · rintro ⟨u, v, hu, hv, hne⟩
        by_cases huv : u = ver
        · exact ⟨v, fun hv' => hne (huv.trans hv'.symm), hv⟩
        · exact ⟨u, huv, hu⟩
    rw [hother, hnode]
    constructor
    · rintro ⟨n', hn', _⟩
      exact ((NodeView.dropLink_eq_some (n := n.unfreeze ver) (h.pos id n hn)).mp hn').1
    · intro htwo
      exact ⟨_, (NodeView.dropLink_eq_some (n := n.unfreeze ver) (h.pos id n hn)).mpr
        ⟨htwo, rfl⟩, rfl⟩
  · refine iff_of_true ⟨n, hnode, rfl⟩ ?_
    have hpos : (w.versionsOf (entryOf id n)).encard ≠ 0 := by
      rw [← hcount]
      have := h.pos id n hn
      exact_mod_cast this.ne'
    obtain ⟨u, hu⟩ := Set.encard_ne_zero.mp hpos
    refine ⟨u, ?_, hu⟩
    rintro rfl
    exact hl hu

/-- Neither call shows in the live tree, and a deletion frees just what no other version lists. -/
theorem snapshots_invisible (h : SmiReachable s)
    (hop : op = .createSnapshot ver ∨ op = .deleteSnapshot ver)
    (hrun : Leaves (fun _ => True) op.run s s') :
    (∀ path : Bytes, path.head? = some slash → (comps path).head? ≠ some snapshotEntry →
      InodeSmi.getInodeIdByPath path s' = InodeSmi.getInodeIdByPath path s ∧
        ∀ x, s'.observe path curModifiableVer = .ok x ↔ s.observe path curModifiableVer = .ok x) ∧
      (InodeSmi.deleteSnapshotVolume ver s = .ok () s' → ∀ id node,
        s.inodePool.find? id = some node →
        ((∃ node', s'.inodePool.find? id = some node' ∧ node'.addr = node.addr) ↔
          ∃ u, u ≠ ver ∧ s.ListsInode u id)) := by
  obtain ⟨hok, hs⟩ := h.sound
  obtain ⟨hok', hkept⟩ := keepsCurrent_of_volume hok hs.toNamed hop hrun
  have hroot := hs.toNamed.listsId_root hs.toNamed.isSome_current
  refine ⟨fun path hslash hlive => ?_, fun hdelete id node hnode => ?_⟩
  · have hres : s'.view.resolve path = s.view.resolve path := by
      rw [View.resolve_live hslash hlive, View.resolve_live hslash hlive,
        hkept.walk_eq hs.toNamed hroot]
    refine ⟨by rw [hok'.resolve_eq, hok.resolve_eq, hres], ?_⟩
    refine observe_iff_of_mirrors hok hok' hs.toNamed hkept hres fun id hid => ?_
    rw [View.resolve_live hslash hlive] at hid
    exact hs.toNamed.walk_listed hroot hid
  · obtain ⟨_, hstep, _⟩ := (hok.ends_deleteSnapshot_of_links hs.links _).of_ok hdelete
    have hn : s.view.node id = some (nodeView s.bufferPool node) :=
      view_node_eq_some.mpr ⟨node, hnode, rfl⟩
    simp only [listsInode_iff]
    rw [← hstep.node_iff hs.links hn]
    constructor
    · rintro ⟨node', hnode', haddr⟩
      exact ⟨_, view_node_eq_some.mpr ⟨node', hnode', rfl⟩, haddr⟩
    · rintro ⟨n', hn', haddr⟩
      obtain ⟨node', hnode', rfl⟩ := view_node_eq_some.mp hn'
      exact ⟨node', hnode', haddr⟩

theorem snapshots_invisible_sampleSmi :
    InodeSmi.getInodeIdByPath [slash, 97] snapshotSmi =
      InodeSmi.getInodeIdByPath [slash, 97] sampleSmi := by
  have hrun : Leaves (fun _ => True) (SmiOp.createSnapshot [118]).run sampleSmi snapshotSmi :=
    Or.inl ⟨(), createSnapshot_sampleSmi⟩
  exact ((snapshots_invisible smiReachable_sampleSmi (Or.inl rfl) hrun).1 [slash, 97] rfl
    (by decide +kernel)).1

end Volumes

end Htmpfs
