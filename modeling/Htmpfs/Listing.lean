import Mathlib
import Htmpfs.Names
import Htmpfs.PathNames

/-!
# Listing and lookup

`do_readdir` puts the names of a directory together from its table, the list of
the versions and the name of the directory of the snapshots; `do_getattr` finds
a name by a walk.  They agree as long as no callback enters the name of the
snapshots in the root.
-/

namespace Htmpfs

open Program (Ends)

section Paths

variable {p n : Bytes}

/-- Only the root has the directory of the snapshots in it. -/
theorem joinPath_eq_snapshotDir (hp : p.head? = some slash) (hn : IsName n) :
    joinPath p n = Fuse.snapshotDir ↔ p = [slash] ∧ n = snapshotEntry := by
  constructor
  · intro heq
    have hcomps := congrArg comps heq
    rw [comps_joinPath hn, show comps Fuse.snapshotDir = [] ++ [snapshotEntry] by decide] at hcomps
    obtain ⟨hroot, hname⟩ := List.append_inj' hcomps rfl
    obtain rfl : n = snapshotEntry := List.singleton_inj.mp hname
    have hlen := congrArg List.length heq
    unfold joinPath Fuse.snapshotDir at hlen
    obtain ⟨rest, rfl⟩ := List.head?_eq_some_iff.mp hp
    split_ifs at hlen
    · refine ⟨?_, rfl⟩
      rw [List.cons_append, List.length_cons, List.length_append, List.length_cons] at hlen
      rw [List.length_eq_zero_iff.mp (show rest.length = 0 by omega)]
    · simp only [List.cons_append, List.length_cons, List.length_append] at hlen
      omega
  · rintro ⟨rfl, rfl⟩
    rfl

end Paths

/-! ## Lookup -/

section Lookup

variable {w : View} {id : ℕ} {cs rest : List Bytes} {name : Bytes} {ver : SnapshotVer}
  {t : List PathPack} {n : NodeView}

/-- A name in a directory is looked up in the table of the directory. -/
theorem View.resolveComps_concat (hlive : liveComps cs = .ok (ver, rest))
    (hres : w.resolveComps cs = .ok id) (hname : IsName name)
    (hroot : cs = [] → name ≠ snapshotEntry) :
    w.resolveComps (cs ++ [name]) = w.tableAt id ver >>= fun t => View.lookup t name := by
  have hwalk : w.walk ver rootInodeNumber rest = .ok id := by
    unfold resolveComps at hres
    simp only [hlive, bind, Except.bind] at hres
    split_ifs at hres with htop hlisted
    · rw [htop.2]
      exact hres
    · exact hres
  have hname' : name.isEmpty = false := by simpa using hname.ne_nil
  unfold resolveComps
  simp only [liveComps_concat hlive hroot, bind, Except.bind]
  rw [if_neg (by simp), View.walk_append, hwalk]
  simp only [bind, Except.bind, View.walk, hname', Bool.false_eq_true, if_false]
  cases w.tableAt id ver with
  | error e => rfl
  | ok t =>
      dsimp only
      cases View.lookup t name <;> rfl

theorem View.lookup_eq_error (hname : ∀ p ∈ t, p.pathname ≠ name) :
    View.lookup t name = .error (.htmpfs .noSuchFileOrDir) := by
  have hfind : (t.find? fun i => i.pathname = name) = none :=
    List.find?_eq_none.mpr fun p hp => by simpa using hname p hp
  unfold View.lookup
  rw [hfind]
  rfl

theorem View.exists_lookup (hname : name ∈ t.map fun p => p.pathname) :
    ∃ p ∈ t, View.lookup t name = .ok p.inodeId := by
  obtain ⟨q, hq, hqname⟩ := List.mem_map.mp hname
  have hsome : (t.find? fun i => i.pathname = name).isSome :=
    List.find?_isSome.mpr ⟨q, hq, by simpa using hqname⟩
  obtain ⟨p, hp⟩ := Option.isSome_iff_exists.mp hsome
  refine ⟨p, List.mem_of_find?_eq_some hp, ?_⟩
  unfold View.lookup
  rw [hp]
  rfl

end Lookup

/-! ## The two callbacks -/

namespace Fuse

section Programs

variable {s : InodeSmi} {ctx : FuseContext} {path : CString} {id : ℕ} {n : NodeView}
  {t : List PathPack} {ver : SnapshotVer} {rest : Bytes} {stbuf : Stat}

theorem ends_filler {name : Bytes} {buffer : List Bytes} {Q : Unit → List Bytes → Prop}
    {E : Exit → List Bytes → Prop} :
    Ends (filler name) buffer Q E ↔ Q () (buffer ++ [name]) := Program.ends_modify

theorem ends_each_filler {α : Type} {xs : List α} {g : α → Bytes} {buffer : List Bytes}
    {Q : Unit → List Bytes → Prop} {E : Exit → List Bytes → Prop}
    (hQ : Q () (buffer ++ xs.map g)) :
    Ends (Program.each (fun i => filler (g i)) xs) buffer Q E := by
  have hall : Ends (Program.each (fun i => filler (g i)) xs) buffer
      (fun _ buffer' => buffer' = buffer ++ xs.flatMap fun i => [g i]) E :=
    Ends.each_append fun i _ buffer => ends_filler.mpr rfl
  apply hall.mono
  · rintro _ _ rfl
    rwa [← List.map_eq_flatMap]
  · exact fun _ _ he => he

/-- What is listed of any directory. -/
def dots (path : Bytes) : List Bytes :=
  [ascii ['.'], ascii ['.', '.']] ++ if path = [slash] then [snapshotEntry] else []

theorem ends_doReaddir {Q : ℤ → List Bytes → Prop} {E : Exit → List Bytes → Prop}
    (hentries : Ends (fillEntries path s) (dots path.1) Q E)
    (hE : ∀ e buffer, E e buffer → e.Thrown → Q (caught ctx e) buffer) :
    Ends (doReaddir ctx path s) [] Q (fun e buffer => ¬ e.Thrown ∧ E e buffer) := by
  unfold doReaddir
  refine ends_catchTail ?_ hE
  rw [Program.ends_bind, ends_filler, Program.ends_bind, ends_filler]
  by_cases hslash : path.1 = [slash]
  · rw [if_pos hslash, Program.ends_bind, ends_filler]
    simpa [dots, hslash] using hentries
  · rw [if_neg hslash]
    simpa [dots, hslash] using hentries

theorem doReaddir_eq {names : List Bytes}
    (hentries : ∀ buffer, fillEntries path s buffer = .ok 0 (buffer ++ names)) :
    doReaddir ctx path s [] = .ok 0 (dots path.1 ++ names) := by
  refine Program.Ends.eq_ok ((ends_doReaddir (E := fun _ _ => False) ?_
    fun _ _ hfalse => hfalse.elim).mono (fun _ _ hr => hr) fun _ _ he => he.2)
  unfold Ends
  rw [hentries]
  exact ⟨rfl, rfl⟩

theorem doReaddir_snapshotDir (hpath : path.1 = snapshotDir) :
    doReaddir ctx path s [] = .ok 0 (dots path.1 ++ s.snapshotVersionList.keys.map cStr) := by
  refine doReaddir_eq fun buffer => Program.Ends.eq_ok ?_
  unfold fillEntries
  rw [if_pos hpath, Program.ends_bind]
  exact ends_each_filler ⟨rfl, rfl⟩

theorem doReaddir_directory (h : BlocksOk s) (hpath : path.1 ≠ snapshotDir)
    (hver : ifSnapshot path.1 = .ok (ver, rest)) (hid : s.view.resolve path.1 = .ok id)
    (hn : s.view.node id = some n) (ht : s.view.tableAt id ver = .ok t) :
    doReaddir ctx path s [] = .ok 0 (dots path.1 ++ t.map fun p => cStr p.pathname) := by
  rw [View.tableAt_of_node hn, blockSize_view] at ht
  refine doReaddir_eq fun buffer => Program.Ends.eq_ok ?_
  unfold fillEntries
  rw [if_neg hpath]
  simp only [Program.ends_bind]
  refine Program.Ends.reads_ok hver ?_
  refine Program.Ends.reads_ok (by rw [h.resolve_eq, hid]) ?_
  refine Program.Ends.reads_ok (a := ⟨id, n.addr⟩) (by rw [getInodeById_eq, hn]) ?_
  refine Program.Ends.reads_ok (h.resolver_new_of_table hn ht) ?_
  exact ends_each_filler ⟨rfl, rfl⟩

/-- A directory that is not read back is listed without its entries. -/
theorem doReaddir_unread (h : BlocksOk s) (hpath : path.1 ≠ snapshotDir)
    (hver : ifSnapshot path.1 = .ok (ver, rest)) (hid : s.view.resolve path.1 = .ok id)
    (hn : s.view.node id = some n) {code : ErrorCode}
    (ht : s.view.tableAt id ver = .error (.htmpfs code)) :
    Program.exec (doReaddir ctx path s) [] = dots path.1 := by
  have hopen : DirectoryResolver.new ⟨id, n.addr⟩ ver s = .error (.htmpfs code) := by
    rw [View.tableAt_of_node hn] at ht
    rw [h.resolver_new_eq, View.openDir, View.deref?_of_node hn]
    dsimp only
    rw [ht]
    rfl
  have hends : Ends (doReaddir ctx path s) [] (fun _ buffer => buffer = dots path.1)
      (fun _ _ => False) := by
    refine (ends_doReaddir (E := fun e buffer => e.Thrown ∧ buffer = dots path.1) ?_
      fun _ _ he _ => he.2).mono (fun _ _ hr => hr) fun _ _ he => he.1 he.2.1
    unfold fillEntries
    rw [if_neg hpath]
    simp only [Program.ends_bind]
    refine Program.Ends.reads_ok hver ?_
    refine Program.Ends.reads_ok (by rw [h.resolve_eq, hid]) ?_
    refine Program.Ends.reads_ok (a := ⟨id, n.addr⟩) (by rw [getInodeById_eq, hn]) ?_
    exact Program.Ends.reads_error hopen ⟨trivial, rfl⟩
  obtain ⟨r, buffer, hrun, hbuffer⟩ := hends.exists_ok
  unfold Program.exec
  rw [hrun]
  exact hbuffer

theorem doGetattr_snapshotDir (hpath : path.1 = snapshotDir) :
    Program.outcome (doGetattr ctx path s) stbuf = .ok 0 := by
  unfold doGetattr
  rw [if_pos hpath]
  rfl

/-- A path that resolves has attributes if the inode has bytes in the version. -/
theorem doGetattr_eq (h : BlocksOk s) (hpath : path.1 ≠ snapshotDir)
    (hver : ifSnapshot path.1 = .ok (ver, rest)) (hid : s.view.resolve path.1 = .ok id)
    {node : PoolNode Inode} (hnode : s.inodePool.find? id = some node) {c : Bytes}
    (hc : node.val.data s.bufferPool ver = some c) :
    doGetattr ctx path s stbuf = .ok 0
      { node.val.fsStat with
        stSize := (c.length : ℤ).bmod (2 ^ 64)
        stNlink := node.linkCount
        stIno := id } := by
  have hderef : InodeSmi.deref ⟨id, node.addr⟩ s = .ok node.val := by
    unfold InodeSmi.deref
    rw [IdPool.deref?_eq_some.mpr ⟨node, hnode, rfl, rfl⟩]
    rfl
  have hsize : node.val.currentDataSize s.bufferPool ver = .ok c.length := by
    rw [(h.inode id node hnode).1.currentDataSize_eq, hc]
  refine Program.Ends.eq_ok ?_
  unfold doGetattr
  refine (ends_catchTail (E := fun _ _ => False) ?_ fun _ _ hfalse => hfalse.elim).mono
    (fun _ _ hr => hr) fun _ _ he => he.2
  rw [if_neg hpath]
  simp only [Program.ends_bind]
  refine Program.Ends.reads_ok hver ?_
  refine Program.Ends.reads_ok (by rw [h.resolve_eq, hid]) ?_
  refine Program.Ends.reads_ok (a := ⟨id, node.addr⟩)
    (by simp only [InodeSmi.getInodeById, hnode]; rfl) ?_
  refine Program.Ends.reads_ok hderef ?_
  rw [Program.ends_set]
  refine Program.Ends.reads_ok hsize ?_
  rw [Program.ends_modify]
  refine Program.Ends.reads_ok (a := node.linkCount)
    (by simp only [InodeSmi.countLinkForInode, hnode]; rfl) ?_
  simp only [Program.ends_modify, Program.ends_pure, and_self]

/-- A path that does not resolve is refused with the errno of the exception. -/
theorem doGetattr_error (h : BlocksOk s) (hpath : path.1 ≠ snapshotDir) {code : ErrorCode}
    (hres : s.view.resolve path.1 = .error (.htmpfs code)) (hcode : code.myErrno ≠ 0) :
    Program.outcome (doGetattr ctx path s) stbuf ≠ .ok 0 := by
  intro hzero
  have hends : Ends (doGetattr ctx path s) stbuf (fun r _ => r ≠ 0) (fun _ _ => True) := by
    unfold doGetattr
    refine (ends_catchTail (E := fun e _ => ∃ code : ErrorCode, e = .htmpfs code ∧
      code.myErrno ≠ 0) ?_ ?_).mono (fun _ _ hr => hr) fun _ _ _ => trivial
    · rw [if_neg hpath, Program.ends_bind, Program.ends_reads]
      refine ⟨fun p _ => ?_, fun e he => ⟨_, View.ifSnapshot_error he, by decide⟩⟩
      rw [Program.ends_bind]
      exact Program.Ends.reads_error (by rw [h.resolve_eq, hres]) ⟨code, rfl, hcode⟩
    · rintro e _ ⟨code, rfl, hcode⟩ _
      simpa [caught] using hcode
  exact hends.outcome_ok hzero rfl

end Programs

end Fuse

/-! ## The condition -/

/-- What listing and lookup agree by. -/
structure Listable (w : View) : Prop extends Named w where
  defined : ∀ id ver, w.tableAt id ver ≠ .error .undefined
  unshadowed : w.Entries fun id p => ¬ (id = rootInodeNumber ∧ p.pathname = snapshotEntry)
  versions : ∀ ver, (w.listing ver).isSome → 0 ∉ ver

section Invariant

variable {w w' : View} {call : FuseCall} {s : InodeSmi}

/-- The step lemma. -/
theorem Listable.effect (h : Listable w) (hstep : w.Effect call w') (hfit : call.NamesFit)
    (hcut : ¬ w.CutsDirectory call)
    (hshadow : ¬ w.Enters call rootInodeNumber snapshotEntry) : Listable w' where
  toNamed := h.toNamed.effect hstep hcut
  defined := hstep.defined h.toNamed hcut (fun _ _ henters => henters.fits hfit) h.defined
  unshadowed := hstep.entries h.toNamed hcut h.unshadowed fun parent name id henters _ => by
    rintro ⟨rfl, hname⟩
    dsimp only at hname
    exact hshadow (hname ▸ henters)
  versions := by
    intro ver hver
    by_cases hcur : ver = curModifiableVer
    · rw [hcur]
      decide
    · rcases hstep.listing hcur hver with hold | ⟨path, mode, _, hpath⟩
      · exact h.versions ver hold
      · exact fun hz => path.2.1 (mem_of_mem_comps (c := ver) (by simp [hpath]) hz)

theorem Fresh.listable {limits : PoolLimits} {blockSize : ℕ} (h : Fresh limits blockSize s) :
    Listable s.view where
  toNamed := h.sound.toNamed
  defined := h.sound.defined
  unshadowed := by
    intro id ver t ht p hp
    simp [h.table_eq_nil ht] at hp
  versions := by
    intro ver hver
    rw [h.eq_current hver]
    decide

end Invariant

/-! ## Agreement -/

section Agreement

variable {s : InodeSmi} {ctx : FuseContext} {p q : CString} {n : Bytes} {stbuf : Stat}

theorem count_of_nodup {names : List Bytes} (hnodup : names.Nodup) :
    names.count n ≤ 1 ∧ (names.count n = 1 ↔ n ∈ names) := by
  have hle := List.nodup_iff_count_le_one.mp hnodup n
  refine ⟨hle, fun hone => List.count_pos_iff.mp (by omega), fun hmem => ?_⟩
  have hpos := List.count_pos_iff.mpr hmem
  omega

theorem count_dots (hdot : n ≠ ascii ['.']) (hdots : n ≠ ascii ['.', '.']) {path : Bytes} :
    (Fuse.dots path).count n = if path = [slash] ∧ n = snapshotEntry then 1 else 0 := by
  unfold Fuse.dots
  rw [List.count_append, List.count_cons_of_ne hdot.symm, List.count_cons_of_ne hdots.symm,
    List.count_nil, zero_add]
  by_cases hroot : path = [slash]
  · rw [if_pos hroot]
    by_cases hname : n = snapshotEntry
    · rw [hname, if_pos ⟨hroot, rfl⟩, List.count_singleton_self]
    · rw [if_neg (by simp [hname]), List.count_cons_of_ne (Ne.symm hname), List.count_nil]
  · rw [if_neg hroot, if_neg (by simp [hroot]), List.count_nil]

/-- `do_getattr` finds the inodes of a version. -/
theorem Listable.getattr_zero (h : BlocksOk s) (hw : Listable s.view) {ver : SnapshotVer}
    {cs : List Bytes} {id : ℕ} (hq : q.1 ≠ Fuse.snapshotDir)
    (hlive : liveComps (comps q.1) = .ok (ver, cs)) (hid : s.view.resolve q.1 = .ok id)
    (hlisted : s.view.ListsId ver id) :
    Program.outcome (Fuse.doGetattr ctx q s) stbuf = .ok 0 := by
  obtain ⟨rest, hver⟩ := ifSnapshot_of_liveComps hlive
  obtain ⟨n, hn, hlists⟩ := hw.links.live_of_listsId hlisted
  obtain ⟨c, hc⟩ := Option.isSome_iff_exists.mp ((hw.links.data ver id n hn).mpr (Or.inr hlists))
  obtain ⟨node, hnode, rfl⟩ := view_node_eq_some.mp hn
  unfold Program.outcome
  rw [Fuse.doGetattr_eq h hq hver hid hnode hc]

/-- The versions. -/
theorem Listable.agree_snapshotDir (h : BlocksOk s) (hw : Listable s.view)
    (hp : p.1 = Fuse.snapshotDir) (hn : IsName n) (hdot : n ≠ ascii ['.'])
    (hdots : n ≠ ascii ['.', '.']) (hq : q.1 = joinPath p.1 n) :
    ((Program.exec (Fuse.doReaddir ctx p s) []).count n = 1 ↔
        Program.outcome (Fuse.doGetattr ctx q s) stbuf = .ok 0) ∧
      (Program.exec (Fuse.doReaddir ctx p s) []).count n ≤ 1 := by
  have hkeys : s.snapshotVersionList.keys.map cStr = s.snapshotVersionList.keys := by
    refine (List.map_congr_left fun ver hver => ?_).trans (List.map_id _)
    refine cStr_of_not_mem (hw.versions ver ?_)
    exact Std.ExtTreeMap.mem_iff_isSome_getElem?.mp (Std.ExtTreeMap.mem_keys.mp hver)
  have hslash : ¬ (p.1 = [slash] ∧ n = snapshotEntry) := by
    rw [hp]
    rintro ⟨heq, _⟩
    exact absurd heq (by decide)
  have hlist : Program.exec (Fuse.doReaddir ctx p s) [] =
      Fuse.dots p.1 ++ s.snapshotVersionList.keys := by
    unfold Program.exec
    rw [Fuse.doReaddir_snapshotDir hp, hkeys]
  obtain ⟨hle, hone⟩ := count_of_nodup (n := n) s.snapshotVersionList.nodup_keys
  rw [hlist, List.count_append, count_dots hdot hdots, if_neg hslash, zero_add]
  refine ⟨hone.trans ?_, hle⟩
  have hmem : n ∈ s.snapshotVersionList.keys ↔ (s.view.listing n).isSome :=
    Std.ExtTreeMap.mem_keys.trans Std.ExtTreeMap.mem_iff_isSome_getElem?
  rw [hmem]
  have habs : p.1.head? = some slash := by rw [hp]; rfl
  have hne : q.1 ≠ Fuse.snapshotDir := by
    rw [hq]
    exact fun heq => hslash ((joinPath_eq_snapshotDir habs hn).mp heq)
  have hcomps : comps q.1 = [snapshotEntry, n] := by
    rw [hq, comps_joinPath hn, hp]
    rfl
  have hlive : liveComps (comps q.1) = .ok (n, []) := by
    rw [hcomps]
    rfl
  have hres : s.view.resolve q.1 = s.view.resolveComps [snapshotEntry, n] := by
    rw [← hcomps]
    exact View.resolve_eq_resolveComps (Or.inr (hq ▸ head?_joinPath habs))
  constructor
  · intro hlisted
    have hroot : s.view.resolve q.1 = .ok rootInodeNumber := by
      rw [hres, ← hcomps, View.resolveComps]
      simp only [hlive, bind, Except.bind, and_true, hlisted, if_true]
      split_ifs <;> rfl
    exact hw.getattr_zero h hne hlive hroot (hw.listsId_root hlisted)
  · intro hzero
    by_contra hlisted
    have hcur : n ≠ curModifiableVer := by
      rintro rfl
      exact hlisted hw.isSome_current
    have herror : s.view.resolve q.1 = .error (.htmpfs .noSuchSnapshot) := by
      rw [hres, ← hcomps, View.resolveComps]
      simp only [hlive, bind, Except.bind, and_true]
      rw [if_pos hcur, if_neg hlisted]
      rfl
    exact Fuse.doGetattr_error h hne herror (by decide) hzero

/-- The entries of a directory are listed once each, and they are the names that a lookup finds. -/
theorem Listable.names_of_directory (hw : Listable s.view) (ctx : FuseContext) (h : BlocksOk s)
    {id : ℕ}
    {node : NodeView} {ver : SnapshotVer} {rest : Bytes} (hpath : p.1 ≠ Fuse.snapshotDir)
    (hver : ifSnapshot p.1 = .ok (ver, rest)) (hid : s.view.resolve p.1 = .ok id)
    (hnode : s.view.node id = some node) (hdir : node.isDentry = true)
    (hlisted : s.view.ListsId ver id) :
    ∃ names, Program.exec (Fuse.doReaddir ctx p s) [] = Fuse.dots p.1 ++ names ∧ names.Nodup ∧
      (id = rootInodeNumber → snapshotEntry ∉ names) ∧
      ∀ n, (n ∈ names ∧ ∃ k, s.view.ListsId ver k ∧
          (s.view.tableAt id ver >>= fun t => View.lookup t n) = .ok k) ∨
        (n ∉ names ∧ ∃ code : ErrorCode, code.myErrno ≠ 0 ∧
          (s.view.tableAt id ver >>= fun t => View.lookup t n) = .error (.htmpfs code)) := by
  rcases hw.table_or_wrap hw.defined hlisted hnode hdir with ⟨t, ht⟩ | ⟨_, ht⟩
  · have hnames : (t.map fun p => cStr p.pathname) = t.map fun p => p.pathname :=
      List.map_congr_left fun p hp =>
        cStr_of_not_mem (View.tableAt_wellFormed ht p hp).1.terminated
    refine ⟨t.map fun p => p.pathname, ?_, hw.names id ver t ht, ?_, fun n => ?_⟩
    · unfold Program.exec
      rw [Fuse.doReaddir_directory h hpath hver hid hnode ht, hnames]
    · intro hroot hmem
      obtain ⟨e, he, hename⟩ := List.mem_map.mp hmem
      exact hw.unshadowed id ver t ht e he ⟨hroot, hename⟩
    · simp only [ht, bind, Except.bind]
      by_cases hmem : n ∈ t.map fun p => p.pathname
      · obtain ⟨e, he, hlookup⟩ := View.exists_lookup hmem
        exact Or.inl ⟨hmem, e.inodeId, hw.listed id ver t ht e he, hlookup⟩
      · refine Or.inr ⟨hmem, .noSuchFileOrDir, by decide, View.lookup_eq_error fun e he hename => ?_⟩
        exact hmem (List.mem_map.mpr ⟨e, he, hename⟩)
  · refine ⟨[], ?_, List.nodup_nil, fun _ => List.not_mem_nil, fun n => Or.inr ?_⟩
    · rw [Fuse.doReaddir_unread h hpath hver hid hnode ht, List.append_nil]
    · refine ⟨List.not_mem_nil, .bufferShortOps, by decide, ?_⟩
      simp only [ht, bind, Except.bind]

/-- The directories that have an inode. -/
theorem Listable.agree_directory (h : BlocksOk s) (hw : Listable s.view)
    (habs : p.1.head? = some slash) {id : ℕ} {node : NodeView}
    (hid : s.view.resolve p.1 = .ok id) (hnode : s.view.node id = some node)
    (hdir : node.isDentry = true) (hn : IsName n) (hdot : n ≠ ascii ['.'])
    (hdots : n ≠ ascii ['.', '.']) (hq : q.1 = joinPath p.1 n) :
    ((Program.exec (Fuse.doReaddir ctx p s) []).count n = 1 ↔
        Program.outcome (Fuse.doGetattr ctx q s) stbuf = .ok 0) ∧
      (Program.exec (Fuse.doReaddir ctx p s) []).count n ≤ 1 := by
  have hresp := View.resolve_eq_resolveComps (w := s.view) (Or.inr habs)
  have hresq : s.view.resolve q.1 = s.view.resolveComps (comps p.1 ++ [n]) := by
    rw [← comps_joinPath hn, ← hq]
    exact View.resolve_eq_resolveComps (Or.inr (hq ▸ head?_joinPath habs))
  have hcompsq : comps q.1 = comps p.1 ++ [n] := by rw [hq, comps_joinPath hn]
  obtain ⟨ver, cs, hlive, hlisted⟩ := hw.resolveComps_listed isName_of_mem_comps (hresp ▸ hid)
  have hpath : p.1 ≠ Fuse.snapshotDir := by
    intro heq
    rw [hresp, heq, show comps Fuse.snapshotDir = [snapshotEntry] by decide,
      View.resolveComps_snapshotEntry] at hid
    simp at hid
  obtain ⟨rest, hver⟩ := ifSnapshot_of_liveComps hlive
  obtain ⟨names, hlist, hnodup, hunshadowed, hnames⟩ :=
    hw.names_of_directory ctx h hpath hver hid hnode hdir hlisted
  obtain ⟨hle, hone⟩ := count_of_nodup (n := n) hnodup
  rw [hlist, List.count_append, count_dots hdot hdots]
  -- the name of the snapshots is in no table of the root
  have hroot : comps p.1 = [] → n = snapshotEntry → n ∉ names := by
    rintro hnil rfl
    rw [hresp, hnil] at hid
    exact hunshadowed (Program.pure_eq_ok.mp hid).symm
  by_cases hslash : p.1 = [slash] ∧ n = snapshotEntry
  · have hnot := hroot (by rw [hslash.1]; rfl) hslash.2
    rw [if_pos hslash, List.count_eq_zero_of_not_mem hnot, add_zero]
    refine ⟨iff_of_true rfl (Fuse.doGetattr_snapshotDir ?_), le_rfl⟩
    rw [hq]
    exact (joinPath_eq_snapshotDir habs hn).mpr hslash
  rw [if_neg hslash, zero_add]
  refine ⟨hone.trans ?_, hle⟩
  have hne : q.1 ≠ Fuse.snapshotDir := by
    rw [hq]
    exact fun heq => hslash ((joinPath_eq_snapshotDir habs hn).mp heq)
  by_cases hshadow : comps p.1 = [] ∧ n = snapshotEntry
  · have herror : s.view.resolve q.1 = .error (.htmpfs .invalidDentryName) := by
      rw [hresq, hshadow.1, hshadow.2, List.nil_append, View.resolveComps_snapshotEntry]
    exact iff_of_false (hroot hshadow.1 hshadow.2)
      (Fuse.doGetattr_error h hne herror (by decide))
  have hname : comps p.1 = [] → n ≠ snapshotEntry := fun hnil hname => hshadow ⟨hnil, hname⟩
  rw [View.resolveComps_concat hlive (hresp ▸ hid) hn hname] at hresq
  rcases hnames n with ⟨hmem, k, hk, hlookup⟩ | ⟨hmem, code, hcode, herror⟩
  · exact iff_of_true hmem (hw.getattr_zero h hne (hcompsq ▸ liveComps_concat hlive hname)
      (hresq.trans hlookup) hk)
  · exact iff_of_false hmem (Fuse.doGetattr_error h hne (hresq.trans herror) hcode)

/-- As long as nothing is entered under the name of the snapshots in the root, a directory lists
a name once if the name has attributes there, and not at all if it has none. -/
theorem readdir_iff_getattr
    (hs : FuseReachableWith (fun w call => call.NamesFit ∧ ¬ w.CutsDirectory call ∧
      ¬ w.Enters call rootInodeNumber snapshotEntry) s)
    (ctx : FuseContext) (stbuf : Stat) (habs : p.1.head? = some slash)
    (hdir : p.1 = Fuse.snapshotDir ∨ ∃ id node, InodeSmi.getInodeIdByPath p.1 s = .ok id ∧
      s.inodePool.find? id = some node ∧ node.val.isDentry = true)
    (hnil : n ≠ []) (hslash : slash ∉ n) (hdot : n ≠ ascii ['.']) (hdots : n ≠ ascii ['.', '.'])
    (hq : q.1 = joinPath p.1 n) :
    ((Program.exec (Fuse.doReaddir ctx p s) []).count n = 1 ↔
        Program.outcome (Fuse.doGetattr ctx q s) stbuf = .ok 0) ∧
      (Program.exec (Fuse.doReaddir ctx p s) []).count n ≤ 1 := by
  obtain ⟨h, hw⟩ : BlocksOk s ∧ Listable s.view :=
    FuseReachableWith.preserved (I := Listable) (fun _ hw => hw.links.weaken)
      (fun w w' call hw hmet heffect => hw.effect heffect hmet.1 hmet.2.1 hmet.2.2)
      (fun _ _ _ hfresh => hfresh.listable) hs
  have hn : IsName n := ⟨hnil, hslash⟩
  rcases hdir with hp | ⟨id, node, hid, hnode, hkind⟩
  · exact hw.agree_snapshotDir h hp hn hdot hdots hq
  · rw [h.resolve_eq] at hid
    exact hw.agree_directory h habs hid (view_node_eq_some.mpr ⟨node, hnode, rfl⟩) hkind hn hdot
      hdots hq

/-- `"/"` -/
def rootPath : CString := ⟨[47], by decide⟩

theorem readdir_iff_getattr_sampleMount :
    ((Program.exec (Fuse.doReaddir sampleContext rootPath sampleMount) []).count [97] = 1 ↔
        Program.outcome (Fuse.doGetattr sampleContext samplePath sampleMount) {} = .ok 0) ∧
      (Program.exec (Fuse.doReaddir sampleContext rootPath sampleMount) []).count [97] ≤ 1 := by
  have hnames : (FuseCall.create samplePath 0).NamesFit :=
    FuseCall.namesFit_of_newPath rfl (by decide)
  have hshadow : ¬ (mount sampleContext .libstdcxx 512).view.Enters (.create samplePath 0)
      rootInodeNumber snapshotEntry := by
    rintro ⟨path, cs, hnew, hpath, _⟩
    obtain rfl := Option.some.inj hnew
    rw [comps_samplePath] at hpath
    have hlast : [] ++ [[97]] = cs ++ [snapshotEntry] := hpath
    exact absurd (List.append_inj' hlast rfl).2 (by decide)
  have hroot : (sampleMount.inodePool.find? 0).map (fun node => node.val.isDentry) = some true := by
    decide +kernel
  obtain ⟨node, hnode, hdir⟩ := Option.map_eq_some_iff.mp hroot
  have hid : InodeSmi.getInodeIdByPath rootPath.1 sampleMount = .ok 0 := by decide +kernel
  exact readdir_iff_getattr
    (fuseReachable_sampleMount ⟨hnames, View.not_cutsDirectory_create, hshadow⟩) sampleContext {}
    rfl (Or.inr ⟨0, node, hid, hnode, hdir⟩) (by decide) (by decide) (by decide) (by decide) rfl

/-- `"/.snapshot/current/.snapshot"` -/
def shadowPath : CString :=
  ⟨slash :: snapshotEntry ++ slash :: curModifiableVer ++ slash :: snapshotEntry, by decide⟩

/-- The file system after a directory was made under the name of the snapshots. -/
def shadowMount : InodeSmi :=
  Program.exec ((FuseCall.mkdir shadowPath 0).run sampleContext)
    (mount sampleContext .libstdcxx 512)

/-- A directory in the root can get the name of the snapshots, which is then listed twice. -/
theorem not_readdir_iff_getattr : ¬ ∀ s, FuseReachableWith (fun _ call => call.NamesFit) s →
    ∀ (p : CString) n, p.1.head? = some slash → n ≠ ascii ['.'] → n ≠ ascii ['.', '.'] →
    (Program.exec (Fuse.doReaddir sampleContext p s) []).count n ≤ 1 := by
  intro hall
  have hnames : (FuseCall.mkdir shadowPath 0).NamesFit := by
    intro path hpath
    obtain rfl := Option.some.inj hpath
    decide
  have hreach : FuseReachableWith (fun _ call => call.NamesFit) shadowMount :=
    ⟨sampleContext, .libstdcxx, 512, by decide, by decide, Relation.ReflTransGen.single
      (FuseStep.of_outcome (r := 0) trivial hnames (by decide +kernel))⟩
  have htwice : (Program.exec (Fuse.doReaddir sampleContext rootPath shadowMount) []).count
      snapshotEntry = 2 := by decide +kernel
  have hle := hall shadowMount hreach rootPath snapshotEntry rfl (by decide) (by decide)
  omega

end Agreement

end Htmpfs
