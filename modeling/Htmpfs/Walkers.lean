import Mathlib
import Htmpfs.RemoveByPath
import Htmpfs.Renamed
import Htmpfs.Tables

/-!
# `remove_inode_by_path` beside `get_inode_id_by_path`

Where a path has a component and does not start with `.snapshot`, both walkers
go the same way.  Behind `/.snapshot/current` there is another way than the
names of the path, and on a path without components the loop has no bound.
-/

namespace Htmpfs

open Program (Ends)

/-- Every directory of the current version can be read. -/
def View.Readable (w : View) : Prop := ∀ id, w.tableAt id curModifiableVer ≠ .error .undefined

section Readable

variable {w : View} {s : InodeSmi} {id parent count : ℕ} {n : NodeView} {cs : List Bytes}
  {name path : Bytes}

theorem View.Readable.table (h : w.Readable) (hn : w.node id = some n) :
    n.table w.blockSize curModifiableVer ≠ .error .undefined := by
  rw [← View.tableAt_of_node hn]
  exact h id

/-- The loop reads no component that is not there. -/
theorem View.Readable.descend (h : w.Readable) (hn : w.node id = some n)
    (hcount : count ≤ cs.length) : w.descend cs count ⟨id, n.addr⟩ ≠ .error .undefined := by
  induction cs generalizing id n count with
  | nil =>
      obtain rfl := Nat.le_zero.mp hcount
      exact Program.pure_ne_error
  | cons c cs ih =>
      cases count with
      | zero => exact Program.pure_ne_error
      | succ count =>
          intro herror
          rw [View.descend] at herror
          rcases Program.bind_eq_error.mp herror with hopen | ⟨t, _, herror⟩
          · rw [View.openDir, View.deref?_of_node hn] at hopen
            exact h.table hn hopen
          rcases Program.bind_eq_error.mp herror with hlookup | ⟨next, _, herror⟩
          · exact absurd (View.lookup_error hlookup) (by simp)
          cases hm : w.node next with
          | none => simp [hm] at herror
          | some m =>
              rw [hm] at herror
              exact ih hm (Nat.le_of_succ_le_succ hcount) herror

theorem BlocksOk.checkTargetEmpty_defined (h : BlocksOk s) {ptr : PoolPtr}
    (hn : s.view.deref? ptr = some n)
    (hread : n.table s.blockSize curModifiableVer ≠ .error .undefined) :
    Ends (InodeSmi.checkTargetEmpty ptr) s (fun _ _ => True) (fun e _ => e ≠ .undefined) := by
  unfold InodeSmi.checkTargetEmpty
  rw [Program.ends_tryCatch, Program.ends_bind]
  refine h.ends_resolver_new hn (fun t _ _ => ?_) fun e he _ => ?_
  · split_ifs
    · rw [Program.ends_throw, if_neg (by simp), Program.ends_throw]
      simp
    · trivial
  · split_ifs
    · trivial
    · rw [Program.ends_throw]
      rintro rfl
      exact hread he

/-- Neither is the removal undefined, where every entry has an inode. -/
theorem BlocksOk.removeChild_defined (h : BlocksOk s) (hw : Named s.view)
    (hread : s.view.Readable) :
    Ends (InodeSmi.removeChildDentryUnderParent parent name) s (fun _ _ => True)
      (fun e _ => e ≠ .undefined) := by
  obtain ⟨list, hlist⟩ := hw.links.exists_current
  by_cases hrem : s.view.Removable parent name
  · refine (h.ends_removeChild hlist).mono (fun _ _ _ => trivial) ?_
    rintro e s' ⟨_, he⟩
    rw [he hrem]
    simp
  unfold InodeSmi.removeChildDentryUnderParent
  simp only [Program.ends_bind]
  rw [Program.ends_reads, getInodeById_eq]
  cases hn : s.view.node parent with
  | none =>
      refine ⟨by simp, fun e he => ?_⟩
      rw [← Except.error.inj he]
      simp
  | some n =>
      refine ⟨fun ptr hptr => ?_, by simp⟩
      obtain rfl := Except.ok.inj hptr
      refine h.ends_resolver_new (View.deref?_of_node hn) (fun t _ ht => ?_) fun e he _ => ?_
      swap
      · rintro rfl
        exact hread.table hn he
      simp only [namei_eq]
      rw [Program.ends_reads]
      refine ⟨fun id hid => ?_, fun e he => by simp [View.lookup_error he]⟩
      obtain ⟨p, hp, rfl⟩ := View.lookup_eq_ok.mp hid
      obtain ⟨m, hm, _⟩ := hw.node_of_mem ((View.tableAt_of_node hn).trans ht)
        (List.mem_of_find?_eq_some hp)
      obtain ⟨node, htarget, rfl⟩ := view_node_eq_some.mp hm
      refine Program.Ends.reads_ok (a := ⟨p.inodeId, node.addr⟩) (by simp only [htarget]; rfl) ?_
      have hfull : ¬ ((nodeView s.bufferPool node).isDentry = true →
          (nodeView s.bufferPool node).table s.blockSize curModifiableVer = .ok []) :=
        fun hempty => hrem ⟨t, p, _, (View.tableAt_of_node hn).trans ht, hp, hm, hempty⟩
      have hderef := View.deref?_of_node hm
      exact ((h.checkTargetEmpty_refused hderef hfull).and
        (h.checkTargetEmpty_defined hderef (hread.table hm))).mono
          (fun _ _ hr => hr.1.elim) fun _ _ he => he.2

theorem length_descend (hpath : comps path = cs ++ [name]) (hlen : path.length < 2 ^ 63) :
    u64Sub (PathT.ofString path).size 2 ≤ (PathT.ofString path).pathname.tail.length := by
  rw [u64Sub_size hpath hlen, tail_ofString hpath, List.length_append]
  exact Nat.le_add_right _ _

/-- On a path with a component the loop ends in time. -/
theorem BlocksOk.removeInodeByPath_defined (h : BlocksOk s) (hw : Named s.view)
    (hread : s.view.Readable) (hpath : comps path = cs ++ [name]) (hlen : path.length < 2 ^ 63) :
    Ends (InodeSmi.removeInodeByPath path) s (fun _ _ => True) (fun e _ => e ≠ .undefined) := by
  obtain ⟨root, hroot, haddr⟩ := hw.links.exists_root
  unfold InodeSmi.removeInodeByPath
  rw [if_neg (ne_slash_of_comps hpath)]
  simp only [Program.ends_bind, Program.ends_get]
  have hlength := length_descend hpath hlen
  generalize hcount : u64Sub (PathT.ofString path).size 2 = count at hlength
  refine ends_last (fun last hlast => ?_) fun e he _ => ?_
  swap
  · simp [last_ofString hpath] at he
  refine h.ends_descend (fun ptr hptr => ?_) fun e he _ => ?_
  swap
  · rintro rfl
    rw [h.root, ← haddr] at he
    exact hread.descend hroot hlength he
  rw [h.root, ← hcount] at hptr
  obtain ⟨_, m, hm, hptr⟩ := (View.descend_path_eq_ok hw.links hpath hlen).mp hptr
  obtain ⟨node, hnode, _, _, hderef⟩ := deref_of_view (View.deref?_eq_some.mpr ⟨hm, hptr.symm⟩)
  refine Program.Ends.reads_ok hderef ?_
  exact h.removeChild_defined hw hread

/-- On a path without components it does not, unless the root cannot be opened. -/
theorem BlocksOk.removeInodeByPath_undefined_iff (h : BlocksOk s) (hw : Named s.view)
    (hread : s.view.Readable) (hpath : comps path = []) (hne : path ≠ [slash]) :
    Ends (InodeSmi.removeInodeByPath path) s (fun _ _ => True) (fun e _ => e ≠ .undefined) ↔
      ∃ e, s.view.tableAt rootInodeNumber curModifiableVer = .error e := by
  have hrun := h.removeInodeByPath_of_comps_nil hw.links hpath hne
  constructor
  · intro hends
    cases ht : s.view.tableAt rootInodeNumber curModifiableVer with
    | ok t =>
        rw [ht] at hrun
        exact absurd rfl (hends.of_error hrun)
    | error e => exact ⟨e, rfl⟩
  · rintro ⟨e, he⟩
    rw [he] at hrun
    unfold Ends
    rw [hrun]
    rintro rfl
    exact hread _ he

end Readable

/-! ## The entry that is removed -/

/-- A file, or a directory without entries. -/
def FileOrEmpty (s : InodeSmi) (id : ℕ) : Prop :=
  ∃ node, s.inodePool.find? id = some node ∧
    (node.val.isDentry = true → InodeSmi.entries id curModifiableVer s = .ok [])

/-- The entry that the path is for is gone, and every other entry of every version is there. -/
structure EntryRemoved (s : InodeSmi) (path : Bytes) (s' : InodeSmi) : Prop where
  current : ∀ d c k, InodeSmi.lookupIn d curModifiableVer c s' = .ok k ↔
    InodeSmi.lookupIn d curModifiableVer c s = .ok k ∧ ¬ Denotes s path d c
  snapshots : ∀ d ver c k, ver ≠ curModifiableVer →
    (InodeSmi.lookupIn d ver c s' = .ok k ↔ InodeSmi.lookupIn d ver c s = .ok k)

section Removal

variable {w w' : View} {s s' : InodeSmi} {path name out : Bytes} {id parent d k : ℕ}
  {ver : SnapshotVer} {front rest cs : List Bytes} {blockSize : ℕ}

/-- The tables of the snapshots stay. -/
theorem View.RemovesChild.snapshot_iff (hstep : w.RemovesChild parent name w') (h : Named w)
    (hver : ver ≠ curModifiableVer) {t : List PathPack} :
    w'.tableAt d ver = .ok t ↔ w.tableAt d ver = .ok t := by
  constructor
  · intro ht
    obtain ⟨_, _, _, _, _, _, _, _, htables, _⟩ := hstep.tables h.links
    rcases htables d ver with hsame | ⟨_, hgone⟩
    · rw [hsame, if_neg fun hcur => hver hcur.2] at ht
      exact ht
    · rw [hgone] at ht
      simp at ht
  · intro ht
    obtain ⟨n, hn, htable⟩ := View.tableAt_eq_ok.mp ht
    obtain ⟨_, c, hc, _⟩ := NodeView.table_eq_ok.mp htable
    have hlists : w.Lists ver (entryOf d n) :=
      ((h.links.data ver d n hn).mp (by simp [hc])).resolve_left hver
    have hsame := (hstep.keepsVersion h hver).tableAt h.links ⟨_, hlists, rfl⟩
    rw [id_entryOf] at hsame
    rw [hsame, ht]

/-- Where the loop finds the parent of the path. -/
theorem Decodable.entryRemoved_iff (h : Decodable s) (h' : BlocksOk s')
    (hlive : liveComps (comps path) = .ok (curModifiableVer, front ++ [name]))
    (hway : s.view.Way front d) (hentry : s.view.EntryAt d name id)
    (hremove : s.view.RemovesChild parent name s'.view) :
    EntryRemoved s path s' ↔ parent = d := by
  have hdenotes : ∀ j c, Denotes s path j c ↔ j = d ∧ c = name :=
    fun _ _ => h.blocks.denotes_iff hlive hway
  have hiff : ∀ j c k, s'.view.EntryAt j c k ↔
      s.view.EntryAt j c k ∧ ¬ (j = parent ∧ c = name) := fun _ _ _ =>
    hremove.entryAt_iff h.named.links h.named.names
  constructor
  · intro hremoved
    by_contra hne
    have hgone := (hremoved.current d name id).mp
      (h'.lookupIn_iff.mpr ((hiff d name id).mpr ⟨hentry, fun heq => hne heq.1.symm⟩))
    exact hgone.2 ((hdenotes d name).mpr ⟨rfl, rfl⟩)
  · rintro rfl
    refine { current := fun j c k => ?_, snapshots := fun j u c k hu => ?_ }
    · rw [h'.lookupIn_iff, h.blocks.lookupIn_iff, hiff, hdenotes]
    · rw [InodeSmi.lookupIn_eq, InodeSmi.lookupIn_eq, h'.entries_eq, h.blocks.entries_eq]
      simp only [Program.bind_eq_ok, hremove.snapshot_iff h.named hu]

/-- A live path with a component leads through the entry of its last one. -/
theorem View.entry_of_resolve (hlive : ifSnapshot path = .ok (curModifiableVer, out))
    (hid : w.resolve path = .ok id) (hroot : id ≠ rootInodeNumber) : ∃ front name d, comps out = front ++ [name] ∧
      w.Way front d ∧ w.EntryAt d name id := by
  have hway : w.Way (comps out) id := by
    rw [View.resolve_eq_resolveComps (View.resolve_absolute hid)] at hid
    exact (View.way_of_resolveComps (liveComps_comps hlive) isName_of_mem_comps).mp hid
  rcases List.eq_nil_or_concat (comps out) with hnil | ⟨front, name, hout⟩
  · rw [hnil] at hway
    exact absurd (View.way_nil.mp hway) hroot
  · rw [List.concat_eq_append] at hout
    rw [hout] at hway
    obtain ⟨_, d, hfront, hentry⟩ := View.way_concat.mp hway
    exact ⟨front, name, d, hout, hfront, hentry⟩

theorem BlocksOk.removable_of_fileOrEmpty (h : BlocksOk s) (hfile : FileOrEmpty s id)
    (hentry : s.view.EntryAt d name id) : s.view.Removable d name := by
  obtain ⟨t, ht, hlookup⟩ := hentry
  obtain ⟨p, hp, rfl⟩ := View.lookup_eq_ok.mp hlookup
  obtain ⟨node, hnode, hempty⟩ := hfile
  have hn := view_node_eq_some.mpr ⟨node, hnode, rfl⟩
  refine ⟨t, p, _, ht, hp, hn, fun hdir => ?_⟩
  rw [← View.tableAt_of_node hn, ← h.entries_eq]
  exact hempty hdir

/-- The walk without the version prefix ends elsewhere exactly behind the prefix. -/
theorem Named.way_prefix_iff (h : Named w) (hrootless : w.Rootless)
    (hlive : ifSnapshot path = .ok (curModifiableVer, out)) (hout : comps out = front ++ [name])
    (hpath : comps path = cs ++ [name]) (hway : w.Way front d) :
    w.Way cs d ↔ (comps path).head? ≠ some snapshotEntry := by
  have hcomps := liveComps_comps hlive
  rw [hout] at hcomps
  constructor
  · intro hcs hhead
    obtain ⟨tail, htail⟩ := List.head?_eq_some_iff.mp hhead
    rw [htail] at hcomps
    cases tail with
    | nil => simp [liveComps] at hcomps
    | cons version rest =>
        simp only [liveComps, if_true, Program.pure_eq_ok, Prod.mk.injEq] at hcomps
        obtain ⟨rfl, rfl⟩ := hcomps
        rw [hpath, ← List.cons_append, ← List.cons_append] at htail
        have hlong := (List.append_inj' htail rfl).1
        rw [hlong] at hcs
        have hlength := congrArg List.length (h.way_inj hrootless hcs hway)
        simp only [List.length_cons] at hlength
        omega
  · intro hhead
    have hwhole : comps path = front ++ [name] := by
      cases hcs : comps path with
      | nil => simp [hcs] at hpath
      | cons head tail =>
          rw [hcs] at hhead hcomps
          have hne : head ≠ snapshotEntry := by simpa using hhead
          simp only [liveComps, if_neg hne, Program.pure_eq_ok, Prod.mk.injEq] at hcomps
          exact hcomps.2
    rw [(List.append_inj' (hpath.symm.trans hwhole) rfl).1]
    exact hway

/-- The removal of what a live path resolves to. -/
theorem Decodable.ends_removeInodeByPath (h : Decodable s) (hlen : path.length < 2 ^ 63)
    (hlive : ifSnapshot path = .ok (curModifiableVer, out))
    (hid : InodeSmi.getInodeIdByPath path s = .ok id) (hroot : id ≠ rootInodeNumber)
    (hfile : FileOrEmpty s id) :
    Ends (InodeSmi.removeInodeByPath path) s
      (fun _ s' => EntryRemoved s path s' ↔ (comps path).head? ≠ some snapshotEntry)
      (fun e _ => (comps path).head? ≠ some snapshotEntry → e = .badAlloc) := by
  obtain ⟨list, hlist⟩ := h.named.links.exists_current
  rw [h.blocks.resolve_eq] at hid
  obtain ⟨front, name, d, hout, hway, hentry⟩ := View.entry_of_resolve hlive hid hroot
  have hlive' := liveComps_comps hlive
  rw [hout] at hlive'
  obtain ⟨before, hbefore⟩ := suffix_of_liveComps hlive'
  have hpath : comps path = (before ++ front) ++ [name] := by rw [← hbefore, List.append_assoc]
  generalize before ++ front = cs at hpath
  have hsame := h.named.way_prefix_iff h.rootless hlive hout hpath hway
  have hwayOf : ∀ {parent}, s.view.walk curModifiableVer rootInodeNumber cs = .ok parent ↔
      s.view.Way cs parent := ⟨fun hwalk => ⟨ne_nil_of_comps hpath, hwalk⟩, fun hcs => hcs.walk⟩
  refine (h.blocks.ends_removeInodeByPath hlist).mono ?_ ?_
  · rintro _ s' ⟨h', hremoves⟩
    obtain ⟨parent, hwalk, hremove⟩ := (View.removesPath_iff h.named.links hpath hlen).mp hremoves
    rw [h.entryRemoved_iff h' hlive' hway hentry hremove, ← hsame]
    constructor
    · rintro rfl
      exact hwayOf.mp hwalk
    · exact fun hcs => (hwayOf.mp hwalk).unique hcs
  · rintro e s' ⟨_, he⟩ hhead
    refine he ((View.removablePath_iff h.named.links hpath hlen).mpr ⟨d, ?_, ?_⟩)
    · exact hwayOf.mpr (hsame.mpr hhead)
    · exact h.blocks.removable_of_fileOrEmpty hfile hentry

/-- In runs that cut no directory and do not rename the root, `remove_inode_by_path` removes what
the path resolves to exactly where the path does not start with `.snapshot`, refuses exactly one
spelling of the root, and leaves the components only on the other ones, where it opens the root. -/
theorem remove_inode_by_path_agrees_iff {limits : PoolLimits} (hpos : 0 < blockSize)
    (hword : blockSize < 2 ^ 64)
    (hrun : Relation.ReflTransGen (SmiStepWith fun s op => op.Allowed s)
      (InodeSmi.new limits blockSize) s)
    (hlen : path.length < 2 ^ 63) :
    (∀ out id, ifSnapshot path = .ok (curModifiableVer, out) →
      InodeSmi.getInodeIdByPath path s = .ok id → id ≠ rootInodeNumber → FileOrEmpty s id →
      Ends (InodeSmi.removeInodeByPath path) s
        (fun _ s' => EntryRemoved s path s' ↔ (comps path).head? ≠ some snapshotEntry)
        (fun e _ => (comps path).head? ≠ some snapshotEntry → e = .badAlloc)) ∧
    (comps path = [] → (InodeSmi.removeInodeByPath path s =
      .error (.htmpfs .cannotRemoveRoot) s ↔ path = [slash])) ∧
    ((∀ id, InodeSmi.entries id curModifiableVer s ≠ .error .undefined) →
      (Ends (InodeSmi.removeInodeByPath path) s (fun _ _ => True) (fun e _ => e ≠ .undefined) ↔
        path = [slash] ∨ comps path ≠ [] ∨
          ∃ e, InodeSmi.entries rootInodeNumber curModifiableVer s = .error e)) := by
  have h : Decodable s := decodable_of_run hpos hword hrun
  refine ⟨fun out id hlive hid hroot hfile => ?_, fun hnil => ?_, fun hread => ?_⟩
  · exact h.ends_removeInodeByPath hlen hlive hid hroot hfile
  · constructor
    · intro hrefused
      by_contra hne
      have hrun' := h.blocks.removeInodeByPath_of_comps_nil h.named.links hnil hne
      rw [hrefused] at hrun'
      cases ht : s.view.tableAt rootInodeNumber curModifiableVer with
      | ok t => simp [ht] at hrun'
      | error e =>
          -- no reader throws this
          rw [ht] at hrun'
          injection hrun' with he
          obtain ⟨n, hn, _⟩ := h.named.links.exists_root
          rw [View.tableAt_of_node hn] at ht
          rcases View.table_error ht with rfl | rfl | rfl | rfl <;> simp at he
    · rintro rfl
      rfl
  · have hread' : s.view.Readable := fun id => by
      rw [← h.blocks.entries_eq]
      exact hread id
    rw [h.blocks.entries_eq]
    by_cases hslash : path = [slash]
    · subst hslash
      exact iff_of_true (by simp : (Exit.htmpfs .cannotRemoveRoot) ≠ .undefined) (Or.inl rfl)
    rcases List.eq_nil_or_concat (comps path) with hnil | ⟨cs, name, hpath⟩
    · rw [h.blocks.removeInodeByPath_undefined_iff h.named hread' hnil hslash]
      simp [hslash, hnil]
    · rw [List.concat_eq_append] at hpath
      refine iff_of_true (h.blocks.removeInodeByPath_defined h.named hread' hpath hlen) ?_
      simp [hpath]

theorem remove_inode_by_path_agrees_iff_sampleSmi :
    EntryRemoved sampleSmi samplePath.1
        (Program.exec (InodeSmi.removeInodeByPath samplePath.1) sampleSmi) ↔
      (comps samplePath.1).head? ≠ some snapshotEntry := by
  have hlive := ifSnapshot_samplePath
  have hid : InodeSmi.getInodeIdByPath samplePath.1 sampleSmi = .ok 1 := by decide +kernel
  have hfile : FileOrEmpty sampleSmi 1 := by
    have hkind : (sampleSmi.inodePool.find? 1).map (fun node => node.val.isDentry) =
        some false := by decide +kernel
    obtain ⟨node, hnode, hdir⟩ := Option.map_eq_some_iff.mp hkind
    exact ⟨node, hnode, fun hdir' => absurd (hdir.symm.trans hdir') (by simp)⟩
  have hremoved : Program.outcome (InodeSmi.removeInodeByPath samplePath.1) sampleSmi = .ok () := by
    decide +kernel
  have hreach := run_sampleSmi
  generalize sampleSmi = s at hid hfile hremoved hreach ⊢
  have hagrees := remove_inode_by_path_agrees_iff (by decide) (by decide) hreach samplePath.2.2
  exact (hagrees.1 _ _ hlive hid (by decide) hfile).outcome_ok hremoved

/-- On the path `"//"` the loop runs past the components. -/
theorem not_remove_inode_by_path_agrees : ¬ ∀ s,
    Relation.ReflTransGen (SmiStepWith fun s op => op.Allowed s) (InodeSmi.new .libstdcxx 512) s →
    ∀ path : Bytes, path.length < 2 ^ 63 → comps path = [] →
    InodeSmi.removeInodeByPath path s = .error (.htmpfs .cannotRemoveRoot) s := by
  intro hall
  have hrefused := congrArg (fun result => match result with
    | EStateM.Result.ok _ _ => none
    | EStateM.Result.error e _ => some e) (hall _ .refl [slash, slash] (by decide) rfl)
  exact absurd hrefused (by decide +kernel)

end Removal

end Htmpfs
