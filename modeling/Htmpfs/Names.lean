import Mathlib
import Htmpfs.Mounted

/-!
# The names in the directories

`make_child_dentry_under_parent` checks the characters of a name, `do_rename`
does not.  As long as it is given checked names, and no directory is cut, every
directory of every version decodes to names that differ and pass the check.
-/

namespace Htmpfs

/-- The names that a callback enters have at most 127 bytes. -/
def FuseCall.NamesFit (call : FuseCall) : Prop :=
  ∀ path, call.newPath = some path → ∀ c ∈ comps path.1, NameFits c

theorem FuseCall.namesFit_of_newPath {call : FuseCall} {path : CString}
    (hnew : call.newPath = some path) (hfit : ∀ c ∈ comps path.1, NameFits c) : call.NamesFit := by
  intro path' hnew'
  rwa [← Option.some.inj (hnew.symm.trans hnew')]

/-- The new name of a rename would pass the check of `make_child_dentry_under_parent`. -/
def FuseCall.ChecksName : FuseCall → Prop
  | rename _ name => ∀ last ∈ (comps name.1).getLast?, last.all InodeSmi.nameChar = true
  | _ => True

/-- A name that `make_child_dentry_under_parent` accepts. -/
def ValidName (name : Bytes) : Prop := name ≠ [] ∧ name.all InodeSmi.nameChar = true

/-- Directories agree with the version lists, can be read and hold valid names. -/
structure WellNamed (w : View) : Prop extends Named w where
  defined : ∀ id ver, w.tableAt id ver ≠ .error .undefined
  valid : w.Entries fun _ p => ValidName p.pathname

section Steps

variable {w w' : View} {call : FuseCall} {parent id : ℕ} {name : Bytes}

theorem View.not_cutsDirectory_create {path : CString} {mode : ℕ} :
    ¬ w.CutsDirectory (.create path mode) := by
  rintro ⟨_, _, _, hcuts, _⟩
  exact hcuts

theorem View.Enters.fits (h : w.Enters call parent name) (hfit : call.NamesFit) :
    NameFits name := by
  obtain ⟨path, cs, hnew, hpath, _⟩ := h
  exact hfit path hnew name (by simp [hpath])

theorem View.Enters.ne_nil (h : w.Enters call parent name) : name ≠ [] := by
  obtain ⟨path, cs, _, hpath, _⟩ := h
  exact (isName_of_concat hpath).ne_nil

/-- A name comes into a directory through one of the two checks. -/
theorem View.Enters.validName (h : w.Enters call parent name) (horigin : w.Origin call name id)
    (hcheck : call.ChecksName) : ValidName name := by
  refine ⟨h.ne_nil, ?_⟩
  rcases horigin with ⟨hchars, _⟩ | ⟨path, q, rfl, _⟩
  · exact hchars
  · obtain ⟨path', cs, hnew, hpath, _⟩ := h
    obtain rfl := Option.some.inj hnew
    exact hcheck name (by simp [hpath])

/-- The step lemma. -/
theorem WellNamed.effect (h : WellNamed w) (hstep : w.Effect call w') (hfit : call.NamesFit)
    (hcheck : call.ChecksName) (hcut : ¬ w.CutsDirectory call) : WellNamed w' where
  toNamed := h.toNamed.effect hstep hcut
  defined := hstep.defined h.toNamed hcut (fun _ _ henters => henters.fits hfit) h.defined
  valid := hstep.entries h.toNamed hcut h.valid fun _ _ _ henters horigin =>
    henters.validName horigin hcheck

end Steps

section Runs

variable {s : InodeSmi}

theorem Fresh.wellNamed {limits : PoolLimits} {blockSize : ℕ} (h : Fresh limits blockSize s) :
    WellNamed s.view where
  toNamed := h.sound.toNamed
  defined := h.sound.defined
  valid := by
    intro id ver t ht p hp
    simp [h.table_eq_nil ht] at hp

theorem FuseReachableWith.wellNamed {cond : View → FuseCall → Prop}
    (hcond : ∀ w call, cond w call →
      call.NamesFit ∧ call.ChecksName ∧ ¬ w.CutsDirectory call)
    (h : FuseReachableWith cond s) : BlocksOk s ∧ WellNamed s.view :=
  FuseReachableWith.preserved (I := WellNamed) (fun _ hw => hw.links.weaken)
    (fun w _ call hw hmet heffect =>
      have ⟨hfit, hcheck, hcut⟩ := hcond w call hmet
      hw.effect heffect hfit hcheck hcut)
    (fun _ _ _ hfresh => hfresh.wellNamed) h

/-- As long as renames are given checked names, and no directory is cut, every directory of every
version decodes to valid names that differ. -/
theorem stored_names_valid
    (h : FuseReachableWith (fun w call =>
      call.NamesFit ∧ call.ChecksName ∧ ¬ w.CutsDirectory call) s) {id : ℕ}
    {node : PoolNode Inode} {ver : SnapshotVer} (hnode : s.inodePool.find? id = some node)
    (hdir : node.val.isDentry = true) (hver : (node.val.bufferMap[ver]?).isSome) :
    (s.blockSize + 1 < 2 ^ 64 → ∃ r, DirectoryResolver.new ⟨id, node.addr⟩ ver s = .ok r) ∧
      ∀ r, DirectoryResolver.new ⟨id, node.addr⟩ ver s = .ok r →
        (r.path.map fun p => p.pathname).Nodup ∧
        ∀ p ∈ r.path, p.pathname ≠ [] ∧ p.pathname.all InodeSmi.nameChar = true := by
  obtain ⟨hblocks, hw⟩ := h.wellNamed fun _ _ hmet => hmet
  have hn : s.view.node id = some (nodeView s.bufferPool node) :=
    view_node_eq_some.mpr ⟨node, hnode, rfl⟩
  have hopen : s.view.openDir ⟨id, node.addr⟩ ver = s.view.tableAt id ver := by
    unfold View.openDir
    rw [View.deref?_eq_some.mpr ⟨hn, rfl⟩, View.tableAt_of_node hn]
  rw [hblocks.resolver_new_eq, hopen]
  refine ⟨fun hword => ?_, fun r hr => ?_⟩
  · obtain ⟨list, hlist⟩ := Option.isSome_iff_exists.mp hver
    have hc : (nodeView s.bufferPool node).data ver = some (content s.bufferPool list) := by
      simp only [nodeView, Inode.data, hlist, Option.map_some]
    obtain ⟨t, ht⟩ := ((View.tableAt_of_data hn hdir hc).resolve_left
      (hw.defined id ver)).resolve_right fun hwrap => hword.ne hwrap.1
    exact ⟨⟨t, ⟨id, node.addr⟩, ver⟩, by rw [ht]; rfl⟩
  · cases ht : s.view.tableAt id ver with
    | error e => simp [ht, Functor.map, Except.map] at hr
    | ok t =>
        obtain rfl : ⟨t, ⟨id, node.addr⟩, ver⟩ = r := by
          simpa [ht, Functor.map, Except.map] using hr
        exact ⟨hw.names id ver t ht, hw.valid id ver t ht⟩

theorem stored_names_valid_sampleMount :
    ∃ r, DirectoryResolver.new ⟨0, 0⟩ curModifiableVer sampleMount = .ok r ∧
      (r.path.map fun p => p.pathname).Nodup ∧
      ∀ p ∈ r.path, p.pathname ≠ [] ∧ p.pathname.all InodeSmi.nameChar = true := by
  have hroot : (sampleMount.inodePool.find? 0).map (fun node => (node.addr, node.val.isDentry,
      (node.val.bufferMap[curModifiableVer]?).isSome)) = some (0, true, true) := by decide +kernel
  obtain ⟨node, hnode, heq⟩ := Option.map_eq_some_iff.mp hroot
  obtain ⟨haddr, heq⟩ := Prod.mk.inj heq
  obtain ⟨hdir, hver⟩ := Prod.mk.inj heq
  have hnames : (FuseCall.create samplePath 0).NamesFit :=
    FuseCall.namesFit_of_newPath rfl (by decide)
  obtain ⟨hreads, hvalid⟩ := stored_names_valid
    (fuseReachable_sampleMount ⟨hnames, trivial, View.not_cutsDirectory_create⟩) hnode hdir hver
  rw [haddr] at hreads hvalid
  obtain ⟨r, hr⟩ := hreads (by decide +kernel)
  exact ⟨r, hr, hvalid r hr⟩

/-- `"/\x01"` -/
def unprintablePath : CString := ⟨[47, 1], by decide⟩

/-- The file system after `a` got a name that no new file could have. -/
def unprintableMount : InodeSmi :=
  Program.exec ((FuseCall.rename samplePath unprintablePath).run sampleContext) sampleMount

/-- `do_rename` enters any name. -/
theorem not_stored_names_valid : ¬ ∀ s,
    FuseReachableWith (fun _ call => call.ChangesNames ∧ call.NamesFit) s → ∀ id node ver r,
    s.inodePool.find? id = some node → node.val.isDentry = true →
    DirectoryResolver.new ⟨id, node.addr⟩ ver s = .ok r →
    ∀ p ∈ r.path, p.pathname ≠ [] ∧ p.pathname.all InodeSmi.nameChar = true := by
  intro hall
  obtain ⟨ctx, limits, blockSize, hpos, hword, hrun⟩ :=
    @fuseReachable_sampleMount (fun _ call => call.ChangesNames ∧ call.NamesFit)
      ⟨trivial, FuseCall.namesFit_of_newPath rfl (by decide)⟩
  have hreach : FuseReachableWith (fun _ call => call.ChangesNames ∧ call.NamesFit)
      unprintableMount :=
    ⟨ctx, limits, blockSize, hpos, hword, hrun.tail (FuseStep.of_outcome (r := 0) trivial
      ⟨trivial, FuseCall.namesFit_of_newPath rfl (by decide)⟩ (by decide +kernel))⟩
  have hroot : (unprintableMount.inodePool.find? 0).map (fun node => (node.addr,
      node.val.isDentry)) = some (0, true) := by decide +kernel
  obtain ⟨node, hnode, heq⟩ := Option.map_eq_some_iff.mp hroot
  obtain ⟨haddr, hdir⟩ := Prod.mk.inj heq
  have hnames : (DirectoryResolver.new ⟨0, 0⟩ curModifiableVer unprintableMount).map
      (fun r => r.path.map fun p => p.pathname) = .ok [[1]] := by decide +kernel
  cases hr : DirectoryResolver.new ⟨0, 0⟩ curModifiableVer unprintableMount with
  | error e => simp [hr, Except.map] at hnames
  | ok r =>
      rw [hr] at hnames
      obtain ⟨p, hp, hname⟩ := List.mem_map.mp
        (show [1] ∈ r.path.map fun p => p.pathname by simp [Except.ok.inj hnames])
      have hvalid := hall _ hreach 0 node curModifiableVer r hnode hdir
        (by rw [haddr, hr]) p hp
      rw [hname] at hvalid
      exact absurd hvalid.2 (by decide)

end Runs

end Htmpfs
