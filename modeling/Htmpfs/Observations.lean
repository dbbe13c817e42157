import Mathlib
import Htmpfs.Listing
import Htmpfs.Traces

/-!
# What `do_getattr`, `do_readdir`, `do_open` and `do_access` tell

They tell what stands in the trees, in the current one and in the snapshots, and
they fail where nothing does.
-/

namespace Htmpfs

open Program (Ends)

/-- A path that can be opened. -/
def Trees.Opens (fs : Trees) (path : Bytes) : Prop :=
  path = Fuse.snapshotDir ∨ ∃ ver e, fs.Has path ver e

/-- The names that stand under a path, in some order. -/
def Trees.Lists (fs : Trees) (path : Bytes) (names : List Bytes) : Prop :=
  names.Nodup ∧
    ((path = Fuse.snapshotDir ∧ ∀ v, v ∈ names ↔ v = curModifiableVer ∨ (fs.frozen v).isSome) ∨
      Absolute path ∧ ∃ ver q, LeadsInto path ver q ∧ fs.entry ver q = some .dir ∧
        ∀ c, c ∈ names ↔ (fs.entry ver (q ++ [c])).isSome)

section Found

variable {w : View} {fs : Trees} {path : Bytes} {ver : SnapshotVer} {q cs : List Bytes} {id : ℕ}
  {n : NodeView} {c : Bytes} {t : List PathPack}

/-- The inode that a path leads to. -/
structure View.Finds (w : View) (path : Bytes) (ver : SnapshotVer) (q : List Bytes) (id : ℕ)
    (n : NodeView) (c : Bytes) : Prop where
  leads : LeadsInto path ver q
  resolves : w.resolve path = .ok id
  node : w.node id = some n
  data : n.data ver = some c

theorem View.Finds.has (h : w.Finds path ver q id n c) (hshows : w.Shows fs) (hw : Named w) :
    fs.Has path ver (if n.isDentry then .dir else .leaf c) :=
  (hshows.has_iff hw).mpr ⟨⟨q, h.leads⟩, id, n, c, h.resolves, h.node, h.data, rfl⟩

/-- A path leads to an inode, or it is refused and nothing stands there. -/
theorem Sound.finds_or_not (h : Sound w) (hshows : w.Shows fs) (path : Bytes) :
    (∃ ver q id n c, w.Finds path ver q id n c) ∨
      ∃ e, w.resolve path = .error e ∧ e.Reported ∧ ∀ ver x, ¬ fs.Has path ver x := by
  cases hres : w.resolve path with
  | ok id =>
      left
      obtain ⟨ver, q, hlead⟩ := leadsInto_of_resolve hres
      obtain ⟨n, c, hn, hc⟩ := h.exists_data hres hlead
      exact ⟨ver, q, id, n, c, hlead, hres, hn, hc⟩
  | error e =>
      right
      refine ⟨e, rfl, h.resolve_reported hres, fun ver x hx => ?_⟩
      obtain ⟨_, id, _, _, hid, _⟩ := (hshows.has_iff h.toNamed).mp hx
      rw [hres] at hid
      simp at hid

/-- No path leads to the directory of the snapshots. -/
theorem not_leadsInto_snapshotDir : ¬ LeadsInto Fuse.snapshotDir ver q := by
  rw [leadsInto_iff, show comps Fuse.snapshotDir = [snapshotEntry] by decide]
  simp [liveComps]

/-- A path leads to one inode. -/
theorem View.Finds.eq_of_has (h : w.Finds path ver q id n c) (hshows : w.Shows fs) (hw : Named w)
    {ver' : SnapshotVer} {e : PathTree.Entry Bytes} (hhas : fs.Has path ver' e) :
    ver' = ver ∧ e = if n.isDentry then .dir else .leaf c := by
  obtain ⟨⟨q', hlead'⟩, id', n', c', hid', hn', hc', rfl⟩ := (hshows.has_iff hw).mp hhas
  obtain ⟨rfl, _⟩ := h.leads.unique hlead'
  obtain rfl := Except.ok.inj (h.resolves.symm.trans hid')
  obtain rfl := Option.some.inj (h.node.symm.trans hn')
  obtain rfl := Option.some.inj (h.data.symm.trans hc')
  exact ⟨rfl, rfl⟩

end Found

/-! ## The callbacks -/

/-- What the callbacks that look a path up return. -/
def View.lookedUp (w : View) (ctx : FuseContext) (path : Bytes) : ℤ :=
  if path = Fuse.snapshotDir then 0
  else
    match w.resolve path with
    | .ok _ => 0
    | .error e => Fuse.caught ctx e

section LookedUp

variable {w : View} {fs : Trees} {path : Bytes} {e : Exit} {ctx : FuseContext}

theorem View.resolve_of_ifSnapshot (he : ifSnapshot path = .error e) :
    w.resolve path = .error e := by
  have hinvalid := View.ifSnapshot_error he
  cases path with
  | nil =>
      have hok : ifSnapshot [] = .ok (curModifiableVer, []) := rfl
      rw [hok] at he
      simp at he
  | cons c path =>
      unfold View.resolve
      by_cases hc : c = slash
      · simp only [if_pos hc]
        exact Program.bind_eq_error.mpr (Or.inl he)
      · simp only [if_neg hc]
        rw [hinvalid]
        rfl

/-- The answer is 0 where something stands, and a negated errno where nothing does. -/
theorem Sound.lookedUp_cases (h : Sound w) (hshows : w.Shows fs) :
    (w.lookedUp ctx path = 0 ∧ fs.Opens path) ∨ w.lookedUp ctx path < 0 ∧ ¬ fs.Opens path := by
  unfold View.lookedUp
  split_ifs with hdir
  · exact Or.inl ⟨rfl, Or.inl hdir⟩
  rcases h.finds_or_not hshows path with ⟨ver, q, id, n, c, hfinds⟩ | ⟨e, he, hreported, hno⟩
  · rw [hfinds.resolves]
    exact Or.inl ⟨rfl, Or.inr ⟨ver, _, hfinds.has hshows h.toNamed⟩⟩
  · rw [he]
    refine Or.inr ⟨hreported.caught_neg ctx, ?_⟩
    rintro (hpath | ⟨ver, x, hx⟩)
    · exact hdir hpath
    · exact hno ver x hx

end LookedUp

section Callbacks

variable {ctx : FuseContext} {s : InodeSmi} {fs : Trees} {path : CString} {stbuf : Stat} {c : Bytes}
  {e : Exit}

/-- `do_getattr` looks the path up, and tells the size of a file. -/
theorem Fuse.ends_doGetattr (h : BlocksOk s) (hw : Orderly s.view) (hshows : s.view.Shows fs) :
    Ends (Fuse.doGetattr ctx path s) stbuf
      (fun r stbuf' => r = s.view.lookedUp ctx path.1 ∧ (r < 0 → stbuf' = stbuf) ∧
        ∀ ver c, fs.Has path.1 ver (.leaf c) → stbuf'.stSize = (c.length : ℤ).bmod (2 ^ 64))
      (fun _ _ => False) := by
  by_cases hdir : path.1 = Fuse.snapshotDir
  · unfold doGetattr
    apply ends_catchTail_thrown
    rw [if_pos hdir, Program.ends_bind, Program.ends_modify, Program.ends_pure, View.lookedUp,
      if_pos hdir]
    refine ⟨rfl, fun hneg => absurd hneg (by decide), ?_⟩
    rintro ver c ⟨_, q, hlead, _⟩
    rw [hdir] at hlead
    exact absurd hlead not_leadsInto_snapshotDir
  rcases hw.finds_or_not hshows path.1 with ⟨ver, q, id, n, c, hfinds⟩ | ⟨e, he, hreported, hno⟩
  · obtain ⟨node, hnode, rfl⟩ := view_node_eq_some.mp hfinds.node
    obtain ⟨out, hout, _⟩ := hfinds.leads
    unfold Ends
    rw [doGetattr_eq h hdir hout hfinds.resolves hnode hfinds.data, View.lookedUp, if_neg hdir,
      hfinds.resolves]
    refine ⟨rfl, fun hneg => absurd hneg (by decide), fun ver' c' hhas => ?_⟩
    obtain ⟨_, hkind⟩ := hfinds.eq_of_has hshows hw.toNamed hhas
    cases hdentry : (nodeView s.bufferPool node).isDentry with
    | true => simp [hdentry] at hkind
    | false =>
        obtain rfl : c' = c := by simpa [hdentry] using hkind
        dsimp only
  · have hthrown : e.Thrown ∧ caught ctx e = s.view.lookedUp ctx path.1 ∧
        (caught ctx e < 0 → stbuf = stbuf) ∧
        ∀ ver c, fs.Has path.1 ver (.leaf c) → stbuf.stSize = (c.length : ℤ).bmod (2 ^ 64) := by
      refine ⟨hreported.thrown, ?_, fun _ => rfl, fun ver c hhas => absurd hhas (hno ver _)⟩
      rw [View.lookedUp, if_neg hdir, he]
    unfold doGetattr
    apply ends_catchTail_thrown
    rw [if_neg hdir, Program.ends_bind, Program.ends_reads]
    refine ⟨fun p _ => ?_, fun e' he' => ?_⟩
    · rw [Program.ends_bind]
      exact Program.Ends.reads_error (by rw [h.resolve_eq, he]) hthrown
    · obtain rfl := Except.error.inj (he.symm.trans (View.resolve_of_ifSnapshot he'))
      exact hthrown

theorem Fuse.ends_doOpen (h : BlocksOk s) (hw : Orderly s.view) :
    Ends (Fuse.doOpen ctx path) s (fun r s' => r = s.view.lookedUp ctx path.1 ∧ s' = s)
      (fun _ _ => False) := by
  unfold doOpen View.lookedUp
  apply ends_catchTail_thrown
  split_ifs
  · exact ⟨rfl, rfl⟩
  rw [Program.ends_bind, Program.ends_reads, h.resolve_eq]
  refine ⟨fun id hid => ?_, fun e he => ?_⟩
  · rw [hid, Program.ends_pure]
    exact ⟨rfl, rfl⟩
  · rw [he]
    exact ⟨(hw.resolve_reported he).thrown, rfl, rfl⟩

/-- `do_access` with a mask asks for one of the permissions of the owner. -/
theorem Fuse.ends_doAccess (h : BlocksOk s) (hw : Orderly s.view) {mode : ℕ} :
    Ends (Fuse.doAccess ctx path mode) s
      (fun r s' => s' = s ∧ (r = s.view.lookedUp ctx path.1 ∨
        s.view.lookedUp ctx path.1 = 0 ∧ mode ≠ 0 ∧ r = -1))
      (fun _ _ => False) := by
  unfold doAccess View.lookedUp
  apply ends_catchTail_thrown
  by_cases hdir : path.1 = snapshotDir
  · rw [if_pos hdir, if_pos hdir]
    exact ⟨rfl, Or.inl rfl⟩
  rw [if_neg hdir, if_neg hdir, Program.ends_bind]
  unfold inodeByPath
  rw [Program.ends_bind, Program.ends_reads, h.resolve_eq]
  refine ⟨fun id hid => ?_, fun e he => ?_⟩
  swap
  · rw [he]
    exact ⟨(hw.resolve_reported he).thrown, rfl, Or.inl rfl⟩
  obtain ⟨ver, q, hlead⟩ := leadsInto_of_resolve hid
  obtain ⟨n, c, hn, _⟩ := hw.exists_data hid hlead
  refine Program.Ends.reads_ok (a := ⟨id, n.addr⟩) (by rw [getInodeById_eq, hn]) ?_
  rw [hid]
  split_ifs with hmode
  · exact ⟨rfl, Or.inl rfl⟩
  obtain ⟨node, _, _, _, hval⟩ := deref_of_view (View.deref?_of_node hn)
  dsimp only
  rw [Program.ends_bind]
  refine Program.Ends.reads_ok hval ?_
  rw [Program.ends_pure]
  refine ⟨rfl, ?_⟩
  split_ifs
  · exact Or.inr ⟨rfl, hmode, rfl⟩
  · exact Or.inl rfl

/-- The versions that are listed are the current one and the snapshots. -/
theorem View.Shows.mem_keys (hshows : s.view.Shows fs) (hw : Named s.view) {v : SnapshotVer} :
    v ∈ s.snapshotVersionList.keys ↔ v = curModifiableVer ∨ (fs.frozen v).isSome := by
  have hmem : v ∈ s.snapshotVersionList.keys ↔ (s.view.listing v).isSome :=
    Std.ExtTreeMap.mem_keys.trans Std.ExtTreeMap.mem_iff_isSome_getElem?
  rw [hmem]
  by_cases hv : v = curModifiableVer
  · rw [hv]
    exact iff_of_true hw.isSome_current (Or.inl rfl)
  · rw [hshows.isSome_frozen hw hv, or_iff_right hv]

/-! ## What is seen of the trees -/

/-- `do_getattr` returns 0 where something stands, with the size of a file, and else a negated
errno without touching the buffer. -/
theorem do_getattr_shows (ctx : FuseContext) (hs : FuseReachableWith View.Regular s)
    (hword : s.blockSize + 1 < 2 ^ 64) (hshows : s.Shows fs) :
    Ends (Fuse.doGetattr ctx path s) stbuf
      (fun r stbuf' =>
        (r = 0 ∧ fs.Opens path.1 ∧ ∀ ver c, fs.Has path.1 ver (.leaf c) →
          stbuf'.stSize = (c.length : ℤ).bmod (2 ^ 64)) ∨
        r < 0 ∧ ¬ fs.Opens path.1 ∧ stbuf' = stbuf)
      (fun _ _ => False) := by
  obtain ⟨h, hw⟩ := hs.orderly hword
  rw [h.shows_iff hw.word] at hshows
  apply (Fuse.ends_doGetattr h hw hshows).mono
  · rintro r stbuf' ⟨rfl, hkept, hsize⟩
    have hcases := @Sound.lookedUp_cases _ _ path.1 ctx hw.toSound hshows
    rcases hcases with ⟨hzero, hopens⟩ | ⟨hneg, hno⟩
    · exact Or.inl ⟨hzero, hopens, hsize⟩
    · exact Or.inr ⟨hneg, hno, hkept hneg⟩
  · exact fun _ _ he => he

theorem do_getattr_shows_sampleMount : ∃ fs, sampleMount.Shows fs ∧
    Ends (Fuse.doGetattr sampleContext samplePath sampleMount) {}
      (fun r stbuf =>
        (r = 0 ∧ fs.Opens samplePath.1 ∧ ∀ ver c, fs.Has samplePath.1 ver (.leaf c) →
          stbuf.stSize = (c.length : ℤ).bmod (2 ^ 64)) ∨
        r < 0 ∧ ¬ fs.Opens samplePath.1 ∧ stbuf = {})
      (fun _ _ => False) := by
  have hs := regular_sampleMount
  have hword : sampleMount.blockSize + 1 < 2 ^ 64 := by decide +kernel
  generalize sampleMount = s at hs hword ⊢
  obtain ⟨fs, hshows⟩ := hs.exists_shows hword
  exact ⟨fs, hshows, do_getattr_shows sampleContext hs hword hshows⟩

/-- `do_open`, `do_getattr` and `do_access` find the same paths, with the same errnos. -/
theorem lookups_agree (ctx : FuseContext) (hs : FuseReachableWith View.Regular s)
    (hword : s.blockSize + 1 < 2 ^ 64) (hshows : s.Shows fs) (path : CString) : ∃ r,
      ((r = 0 ∧ fs.Opens path.1) ∨ r < 0 ∧ ¬ fs.Opens path.1) ∧
      Fuse.doOpen ctx path s = .ok r s ∧
      (∀ stbuf, Program.outcome (Fuse.doGetattr ctx path s) stbuf = .ok r) ∧
      ∀ mode, ∃ r', Fuse.doAccess ctx path mode s = .ok r' s ∧
        (r' = r ∨ r = 0 ∧ mode ≠ 0 ∧ r' = -1) := by
  obtain ⟨h, hw⟩ := hs.orderly hword
  rw [h.shows_iff hw.word] at hshows
  refine ⟨s.view.lookedUp ctx path.1, hw.lookedUp_cases hshows, ?_, fun stbuf => ?_, fun mode => ?_⟩
  · exact (Fuse.ends_doOpen h hw).eq_ok
  · obtain ⟨r, stbuf', hrun, rfl, _⟩ := (Fuse.ends_doGetattr h hw hshows).exists_ok
    unfold Program.outcome
    rw [hrun]
  · have haccess := @Fuse.ends_doAccess ctx s path h hw mode
    obtain ⟨r, s', hrun, rfl, hr⟩ := haccess.exists_ok
    exact ⟨r, hrun, hr⟩

theorem lookups_agree_sampleMount : ∃ fs, sampleMount.Shows fs ∧ ∃ r,
    ((r = 0 ∧ fs.Opens samplePath.1) ∨ r < 0 ∧ ¬ fs.Opens samplePath.1) ∧
      Fuse.doOpen sampleContext samplePath sampleMount = .ok r sampleMount ∧
      (∀ stbuf, Program.outcome (Fuse.doGetattr sampleContext samplePath sampleMount) stbuf =
        .ok r) ∧
      ∀ mode, ∃ r', Fuse.doAccess sampleContext samplePath mode sampleMount = .ok r' sampleMount ∧
        (r' = r ∨ r = 0 ∧ mode ≠ 0 ∧ r' = -1) := by
  have hs := regular_sampleMount
  have hword : sampleMount.blockSize + 1 < 2 ^ 64 := by decide +kernel
  generalize sampleMount = s at hs hword ⊢
  obtain ⟨fs, hshows⟩ := hs.exists_shows hword
  exact ⟨fs, hshows, lookups_agree sampleContext hs hword hshows samplePath⟩

end Callbacks

end Htmpfs
