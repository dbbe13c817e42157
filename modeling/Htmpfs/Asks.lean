import Mathlib
import Htmpfs.Actions
import Htmpfs.Listing
import Htmpfs.RemoveByPath
import Htmpfs.Pwrite
import Htmpfs.Renamed

/-!
# What the callbacks ask for

A callback names paths of the trees by its arguments, and asks for an action on
them.  Where the action is possible, the state of the file system lets the
operations of `inode_smi_t` do it.
-/

namespace Htmpfs

/-- The path leads into a version, by these names. -/
def LeadsInto (path : Bytes) (ver : SnapshotVer) (cs : List Bytes) : Prop :=
  ∃ out, ifSnapshot path = .ok (ver, out) ∧ (PathT.ofString out).pathname = [] :: cs

/-- `get_inode_id_by_path` takes no other path. -/
def Absolute (path : Bytes) : Prop := path = [] ∨ path.head? = some slash

/-- What a callback that succeeded returns. -/
def FuseCall.result : FuseCall → ℤ
  | write _ buffer _ => toInt buffer.length
  | _ => 0

/-- The path is for a new entry under a name that `make_child_dentry_under_parent` accepts. -/
def AsksEntry (path : Bytes) (e : PathTree.Entry Bytes)
    (a : Volume.Action Bytes Bytes SnapshotVer) : Prop :=
  ∃ front name, LeadsInto path curModifiableVer (front ++ [name]) ∧
    name.all InodeSmi.nameChar = true ∧ a = .add front name e

/-- The path is for other bytes of a file. -/
def AsksBytes (path : Bytes) (f : Bytes → Bytes)
    (a : Volume.Action Bytes Bytes SnapshotVer) : Prop :=
  ∃ q, Absolute path ∧ LeadsInto path curModifiableVer q ∧ a = .rewrite q f

/-- The components of the path, as they stand, are for the entry to be removed. -/
def AsksRemoval (path : Bytes) (a : Volume.Action Bytes Bytes SnapshotVer) : Prop :=
  (∃ q, LeadsInto path curModifiableVer q) ∧
    ∃ cs, (PathT.ofString path).pathname = [] :: cs ∧ a = .erase cs

/-- The actions that a callback asks for. -/
def FuseCall.Asks : FuseCall → Volume.Action Bytes Bytes SnapshotVer → Prop
  | mkdir path _, a =>
      (∃ ver, (PathT.ofString path.1).pathname = [[], snapshotEntry, ver] ∧
        ver ≠ curModifiableVer ∧ a = .freeze ver) ∨ AsksEntry path.1 .dir a
  | create path _, a => AsksEntry path.1 (.leaf []) a
  | mknod path _ _, a => AsksEntry path.1 (.leaf []) a
  | symlink path target, a =>
      (∃ q, LeadsInto path.1 curModifiableVer q) ∧ AsksEntry target.1 (.leaf target.1) a
  | write path buffer offset, a =>
      AsksBytes path.1 (fun c => if buffer = [] then c else pwrite buffer offset.toNat c) a
  | truncate path size, a =>
      AsksBytes path.1 (Blocks.resize 0 (offToU64 size)) a ∨
        Absolute path.1 ∧ AsksEntry path.1 (.leaf (List.replicate (offToU64 size) 0)) a
  | fallocate path _ offset length, a =>
      AsksBytes path.1 (Blocks.resize 0 (offToU64 (offset + length))) a
  | unlink path, a => AsksRemoval path.1 a
  | rmdir path, a =>
      ∃ front name, (PathT.ofString path.1).pathname = [] :: (front ++ [name]) ∧
        name ≠ snapshotEntry ∧
        (front = [snapshotEntry] ∧ name ≠ curModifiableVer ∧ a = .discard name ∨
          front ≠ [snapshotEntry] ∧ AsksRemoval path.1 a)
  | rename path name, a =>
      ∃ src front targetName, Absolute path.1 ∧ LeadsInto path.1 curModifiableVer src ∧
        LeadsInto name.1 curModifiableVer (front ++ [targetName]) ∧ a = .move src front targetName
  | _, _ => False

/-- What a callback asks for can be done. -/
def FuseCall.Possible (call : FuseCall) (fs : Trees) : Prop :=
  ∃ a fs', call.Asks a ∧ fs.Does a fs'

section Paths

variable {path name c : Bytes} {ver : SnapshotVer} {cs rest front : List Bytes} {w : View} {id : ℕ}

theorem leadsInto_iff : LeadsInto path ver cs ↔ liveComps (comps path) = .ok (ver, cs) := by
  constructor
  · rintro ⟨out, hout, hcs⟩
    rw [liveComps_comps hout]
    rw [PathT.pathname_ofString] at hcs
    rw [(List.cons.inj hcs).2]
  · exact exists_ifSnapshot

/-- A path leads into one version, by one list of names. -/
theorem LeadsInto.unique {ver' : SnapshotVer} (h : LeadsInto path ver cs)
    (h' : LeadsInto path ver' rest) : ver = ver' ∧ cs = rest :=
  Prod.mk.inj (Except.ok.inj ((leadsInto_iff.mp h).symm.trans (leadsInto_iff.mp h')))

/-- A path to a version leads to its root. -/
theorem LeadsInto.of_version {ver' : SnapshotVer} (hpath : comps path = [snapshotEntry, ver])
    (h : LeadsInto path ver' cs) : ver' = ver ∧ cs = [] := by
  rw [leadsInto_iff, hpath] at h
  obtain ⟨hver, hcs⟩ := Prod.mk.inj (Program.pure_eq_ok.mp h)
  exact ⟨hver.symm, hcs.symm⟩

theorem pathname_iff : (PathT.ofString path).pathname = [] :: cs ↔ comps path = cs := by
  rw [PathT.pathname_ofString]
  simp

/-- What resolves is absolute. -/
theorem View.absolute_of_resolve (h : w.resolve path = .ok id) : Absolute path := by
  cases path with
  | nil => exact Or.inl rfl
  | cons c path =>
      by_contra hno
      have hc : c ≠ slash := fun heq => hno (Or.inr (by rw [heq]; rfl))
      simp [View.resolve, hc] at h

/-- The way to an absolute live path. -/
theorem View.resolve_iff_way (habs : Absolute path)
    (hlive : liveComps (comps path) = .ok (curModifiableVer, rest)) :
    w.resolve path = .ok id ↔ w.Way rest id := by
  rw [View.resolve_eq_resolveComps habs]
  exact View.way_of_resolveComps hlive isName_of_mem_comps

/-- The last component of a live path, and the way to the others. -/
theorem exists_front (hpath : comps path = cs ++ [name])
    (hlive : liveComps (comps path) = .ok (curModifiableVer, rest)) (hcs : cs ≠ [snapshotEntry]) :
    ∃ front, rest = front ++ [name] ∧ ∀ w : View, ∀ id,
      w.resolveComps cs = .ok id ↔ w.Way front id := by
  have hnames : ∀ c ∈ cs, IsName c := fun c hc =>
    isName_of_mem_comps (p := path) c (by simp [hpath, hc])
  rw [hpath] at hlive
  obtain ⟨front, hrest, hfront⟩ := (liveComps_append hlive).resolve_left hcs
  exact ⟨front, hrest, fun _ _ => View.way_of_resolveComps hfront hnames⟩

/-- A live path with a name below `/.snapshot` is not a name in a directory. -/
theorem ne_snapshotEntry_of_live (hpath : comps path = cs ++ [name])
    (hlive : liveComps (comps path) = .ok (curModifiableVer, front ++ [c])) :
    cs ≠ [snapshotEntry] := by
  rintro rfl
  rw [hpath] at hlive
  simp only [List.singleton_append, liveComps, if_true] at hlive
  have hrest := (Prod.mk.inj (Program.pure_eq_ok.mp hlive)).2
  simp at hrest

end Paths

/-! ## One action for a call -/

section Unique

variable {path : Bytes} {ver : SnapshotVer} {e : PathTree.Entry Bytes} {f : Bytes → Bytes}
  {a b : Volume.Action Bytes Bytes SnapshotVer} {fs fs₁ fs₂ : Trees} {call : FuseCall}

theorem AsksEntry.unique (ha : AsksEntry path e a) (hb : AsksEntry path e b) : a = b := by
  obtain ⟨front, name, hlead, _, rfl⟩ := ha
  obtain ⟨front', name', hlead', _, rfl⟩ := hb
  obtain ⟨rfl, hlast⟩ := List.append_inj' (hlead.unique hlead').2 rfl
  rw [List.singleton_inj.mp hlast]

theorem AsksBytes.unique (ha : AsksBytes path f a) (hb : AsksBytes path f b) : a = b := by
  obtain ⟨q, _, hlead, rfl⟩ := ha
  obtain ⟨q', _, hlead', rfl⟩ := hb
  rw [(hlead.unique hlead').2]

theorem AsksRemoval.unique (ha : AsksRemoval path a) (hb : AsksRemoval path b) : a = b := by
  obtain ⟨_, cs, hpath, rfl⟩ := ha
  obtain ⟨_, cs', hpath', rfl⟩ := hb
  rw [(List.cons.inj (hpath.symm.trans hpath')).2]

theorem not_asksEntry_of_version (hpath : comps path = [snapshotEntry, ver]) :
    ¬ AsksEntry path e a := by
  rintro ⟨front, name, hlead, _⟩
  exact absurd (hlead.of_version hpath).2 (by simp)

/-- Where a file can be made there is none to be cut. -/
theorem AsksEntry.not_bytes (ha : AsksEntry path e a) (hda : fs.Does a fs₁)
    (hb : AsksBytes path f b) : ¬ fs.Does b fs₂ := by
  obtain ⟨front, name, hlead, _, rfl⟩ := ha
  obtain ⟨q, _, hlead', rfl⟩ := hb
  obtain rfl := (hlead.unique hlead').2
  intro hdb
  cases hda with
  | add _ hnew =>
      cases hdb with
      | rewrite hleaf =>
          rw [hnew] at hleaf
          simp at hleaf

/-- Only one action that a call asks for can be done. -/
theorem FuseCall.asks_unique (ha : call.Asks a) (hb : call.Asks b) (hda : fs.Does a fs₁)
    (hdb : fs.Does b fs₂) : a = b := by
  cases call with
  | mkdir path mode =>
      rcases ha with ⟨ver, hpath, _, rfl⟩ | ha
      · rcases hb with ⟨ver', hpath', _, rfl⟩ | hb
        · rw [hpath] at hpath'
          simp only [List.cons.injEq, true_and, and_true] at hpath'
          rw [hpath']
        · exact absurd hb (not_asksEntry_of_version (pathname_iff.mp hpath))
      · rcases hb with ⟨ver', hpath', _, rfl⟩ | hb
        · exact absurd ha (not_asksEntry_of_version (pathname_iff.mp hpath'))
        · exact ha.unique hb
  | create => exact AsksEntry.unique ha hb
  | mknod => exact AsksEntry.unique ha hb
  | symlink => exact ha.2.unique hb.2
  | write => exact AsksBytes.unique ha hb
  | truncate =>
      rcases ha with ha | ⟨_, ha⟩
      · rcases hb with hb | ⟨_, hb⟩
        · exact ha.unique hb
        · exact absurd hda (hb.not_bytes hdb ha)
      · rcases hb with hb | ⟨_, hb⟩
        · exact absurd hdb (ha.not_bytes hda hb)
        · exact ha.unique hb
  | fallocate => exact AsksBytes.unique ha hb
  | unlink => exact AsksRemoval.unique ha hb
  | rmdir =>
      obtain ⟨front, name, hpath, _, hcase⟩ := ha
      obtain ⟨front', name', hpath', _, hcase'⟩ := hb
      obtain ⟨rfl, hlast⟩ :=
        List.append_inj' (List.cons.inj (hpath.symm.trans hpath')).2 rfl
      obtain rfl := List.singleton_inj.mp hlast
      rcases hcase with ⟨hfront, _, rfl⟩ | ⟨hfront, ha⟩
      · rcases hcase' with ⟨_, _, rfl⟩ | ⟨hfront', _⟩
        · rfl
        · exact absurd hfront hfront'
      · rcases hcase' with ⟨hfront', _, rfl⟩ | ⟨_, hb⟩
        · exact absurd hfront' hfront
        · exact ha.unique hb
  | rename =>
      obtain ⟨src, front, targetName, _, hlead, hname, rfl⟩ := ha
      obtain ⟨src', front', targetName', _, hlead', hname', rfl⟩ := hb
      obtain ⟨rfl, hlast⟩ := List.append_inj' (hname.unique hname').2 rfl
      rw [(hlead.unique hlead').2, List.singleton_inj.mp hlast]
  | _ => exact ha.elim

end Unique

/-! ## Entries with names -/

/-- Besides, what directories and version lists hold can be told by paths, and a block and a
terminator have a 64-bit size. -/
structure Orderly (w : View) : Prop extends Sound w where
  word : w.blockSize + 1 ≠ 2 ^ 64
  named : w.Entries fun _ p => IsName p.pathname ∧ 0 ∉ p.pathname
  versions : ∀ ver, (w.listing ver).isSome → IsName ver ∧ 0 ∉ ver

section Orderly

variable {w w' : View} {call : FuseCall} {s : InodeSmi}

/-- The step lemma. -/
theorem Orderly.effect (h : Orderly w) (hstep : w.Effect call w') (hfit : call.NamesFit)
    (hcut : ¬ w.CutsDirectory call) (hroot : call.KeepsRoot) : Orderly w' where
  toSound := h.toSound.effect hstep hfit hcut hroot
  word := by
    rw [hstep.blockSize]
    exact h.word
  named := hstep.entries h.toNamed hcut h.named fun parent name id henters _ => by
    refine ⟨?_, henters.not_mem_zero⟩
    obtain ⟨path, cs, _, hpath, _⟩ := henters
    exact isName_of_concat hpath
  versions := by
    intro ver hlisted
    by_cases hver : ver = curModifiableVer
    · rw [hver]
      exact ⟨⟨by decide, by decide⟩, by decide⟩
    · rcases hstep.listing hver hlisted with hold | ⟨path, mode, _, hpath⟩
      · exact h.versions ver hold
      · have hmem : ver ∈ comps path.1 := by simp [hpath]
        exact ⟨isName_of_mem_comps _ hmem, fun hz => path.2.1 (mem_of_mem_comps hmem hz)⟩

theorem Fresh.orderly {limits : PoolLimits} {blockSize : ℕ} (h : Fresh limits blockSize s)
    (hword : s.view.blockSize + 1 ≠ 2 ^ 64) : Orderly s.view where
  toSound := h.sound
  word := hword
  named := by
    intro id ver t ht p hp
    simp [h.table_eq_nil ht] at hp
  versions := by
    intro ver hlisted
    rw [h.eq_current hlisted]
    exact ⟨⟨by decide, by decide⟩, by decide⟩

/-- The calls of a run in which directories stay in order: the names fit, no directory is cut, and
the root is not renamed. -/
def View.Regular (w : View) (call : FuseCall) : Prop :=
  call.NamesFit ∧ ¬ w.CutsDirectory call ∧ call.KeepsRoot

/-- A call that cuts no file is regular wherever it is made. -/
theorem View.regular_of_not_cuts (hcuts : ∀ path, ¬ call.Cuts path) (hfit : call.NamesFit)
    (hroot : call.KeepsRoot) : w.Regular call := by
  refine ⟨hfit, ?_, hroot⟩
  rintro ⟨path, _, _, hpath, _⟩
  exact hcuts path hpath

/-- The run lemma. -/
theorem FuseReachableWith.orderly (h : FuseReachableWith View.Regular s)
    (hword : s.blockSize + 1 < 2 ^ 64) : BlocksOk s ∧ Orderly s.view := by
  obtain ⟨ctx, limits, hpos, hlt, hrun⟩ := h.exists_run
  have hfresh : Fresh limits s.blockSize (mount ctx limits s.blockSize) := fresh_mount
  exact preserved_of_run (I := Orderly) (fun _ hw => hw.links.weaken)
    (fun _ _ _ hw hmet heffect => hw.effect heffect hmet.1 hmet.2.1 hmet.2.2) hrun
    ⟨hfresh.blocksOk hpos hlt, hfresh.orderly hword.ne⟩

end Orderly

/-! ## What is possible -/

section Possible

variable {w : View} {fs fs' : Trees} {front cs : List Bytes} {name c : Bytes} {id : ℕ}
  {n : NodeView} {path : Bytes} {q rest : List Bytes}

theorem View.stands_eq_some {e : PathTree.Entry Bytes} (h : w.stands id = some e) :
    ∃ n c, w.node id = some n ∧ n.data curModifiableVer = some c ∧
      e = if n.isDentry then .dir else .leaf c := by
  unfold View.stands NodeView.entry at h
  obtain ⟨n, hn, h⟩ := Option.bind_eq_some_iff.mp h
  obtain ⟨c, hc, h⟩ := Option.map_eq_some_iff.mp h
  exact ⟨n, c, hn, hc, h.symm⟩

/-- A directory of the tree is one that can be read. -/
theorem View.Shows.exists_table (hshows : w.Shows fs) (h : Orderly w)
    (hdir : fs.current.entry cs = some .dir) :
    ∃ k t, w.Way cs k ∧ w.tableAt k curModifiableVer = .ok t := by
  rw [hshows.current] at hdir
  obtain ⟨k, hway, hstands⟩ := View.exists_way hdir
  obtain ⟨n, c, hn, _, hkind⟩ := View.stands_eq_some hstands
  have hdentry : n.isDentry = true := by
    by_contra hfile
    rw [if_neg hfile] at hkind
    exact absurd hkind (by simp)
  obtain ⟨t, ht⟩ := h.exists_table h.word h.defined (h.way_listed hway) hn hdentry
  exact ⟨k, t, hway, ht⟩

/-- The root can be read. -/
theorem View.Shows.exists_rootTable (hshows : w.Shows fs) (h : Orderly w) :
    ∃ t, w.tableAt rootInodeNumber curModifiableVer = .ok t := by
  obtain ⟨k, t, hway, ht⟩ := hshows.exists_table h fs.current.root
  obtain rfl := View.way_nil.mp hway
  exact ⟨t, ht⟩

theorem View.Shows.creatable (hshows : w.Shows fs) (h : Orderly w)
    (hp : fs.current.entry front = some .dir) (hnew : fs.current.entry (front ++ [name]) = none)
    (hname : name ≠ []) (hchars : name.all InodeSmi.nameChar = true) :
    ∃ parent, w.Way front parent ∧ w.Creatable parent name := by
  obtain ⟨parent, t, hway, ht⟩ := hshows.exists_table h hp
  refine ⟨parent, hway, hchars, t, ht, fun p hp hpname => ?_⟩
  obtain ⟨p', _, hlookup⟩ := View.exists_lookup (List.mem_map.mpr ⟨p, hp, hpname⟩)
  have hlast : w.Way (front ++ [name]) p'.inodeId :=
    View.way_concat.mpr ⟨hname, parent, hway, t, ht, hlookup⟩
  have hsome := hshows.isSome_way h.toNamed hlast
  rw [hnew] at hsome
  exact absurd hsome (by simp)

theorem View.Shows.removable (hshows : w.Shows fs) (h : Orderly w)
    (hsome : (fs.current.entry (front ++ [name])).isSome) (hends : fs.current.Ends (front ++ [name])) :
    ∃ parent, w.Way front parent ∧ w.Removable parent name := by
  obtain ⟨e, he⟩ := Option.isSome_iff_exists.mp hsome
  rw [hshows.current] at he
  obtain ⟨k, hlast, hstands⟩ := View.exists_way he
  obtain ⟨_, parent, hway, hentry⟩ := View.way_concat.mp hlast
  obtain ⟨n, c, hn, _, _⟩ := View.stands_eq_some hstands
  refine ⟨parent, hway, ?_⟩
  obtain ⟨t, ht, hlookup⟩ := hentry
  obtain ⟨p, hp, rfl⟩ := View.lookup_eq_ok.mp hlookup
  refine ⟨t, p, n, ht, hp, hn, fun hdir => ?_⟩
  obtain ⟨u, hu⟩ := h.exists_table h.word h.defined (h.way_listed hlast) hn hdir
  rw [View.tableAt_of_node hn] at hu
  cases u with
  | nil => exact hu
  | cons r u =>
      -- the entry would be a path below
      have hr : r ∈ r :: u := List.mem_cons_self
      rw [← View.tableAt_of_node hn] at hu
      obtain ⟨r', _, hlookup'⟩ := View.exists_lookup (List.mem_map.mpr ⟨r, hr, rfl⟩)
      have hbelow : w.Way (front ++ [name] ++ [r.pathname]) r'.inodeId :=
        View.way_concat.mpr ⟨(h.named _ _ _ hu r hr).1.ne_nil, _, hlast, _, hu, hlookup'⟩
      have hsome' := hshows.isSome_way h.toNamed hbelow
      rw [hends] at hsome'
      exact absurd hsome' (by simp)

theorem View.Shows.leadsToFile (hshows : w.Shows fs) (habs : Absolute path)
    (hlead : LeadsInto path curModifiableVer q) (hleaf : fs.current.entry q = some (.leaf c)) :
    ∃ id n, w.LeadsToFile path id n c := by
  rw [hshows.current] at hleaf
  obtain ⟨id, hway, hstands⟩ := View.exists_way hleaf
  obtain ⟨n, c', hn, hc', hkind⟩ := View.stands_eq_some hstands
  have hlive := leadsInto_iff.mp hlead
  cases hdir : n.isDentry with
  | true => simp [hdir] at hkind
  | false =>
      obtain rfl : c = c' := by simpa [hdir] using hkind
      exact ⟨id, n, ⟨q, hlive⟩, (View.resolve_iff_way habs hlive).mpr hway, hn, hdir, hc'⟩

/-- A possible new entry is one that `make_child_dentry_under_parent` can make. -/
theorem View.Shows.able_entry (hshows : w.Shows fs) (h : Orderly w) (hpath : comps path = cs ++ [name])
    {e : PathTree.Entry Bytes} {a : Volume.Action Bytes Bytes SnapshotVer}
    (hasks : AsksEntry path e a) (hdo : fs.Does a fs') :
    ∃ parent, w.resolveComps cs = .ok parent ∧ w.Creatable parent name := by
  obtain ⟨front, name', hlead, hchars, rfl⟩ := hasks
  have hlive := leadsInto_iff.mp hlead
  obtain ⟨front₀, heq, hresolve⟩ := exists_front hpath hlive (ne_snapshotEntry_of_live hpath hlive)
  obtain ⟨rfl, hlast⟩ := List.append_inj' heq rfl
  obtain rfl := List.singleton_inj.mp hlast
  cases hdo with
  | add hp hnew =>
      obtain ⟨parent, hway, hcreatable⟩ :=
        hshows.creatable h hp hnew (isName_of_concat hpath).ne_nil hchars
      exact ⟨parent, (hresolve w parent).mpr hway, hcreatable⟩

end Possible

end Htmpfs
