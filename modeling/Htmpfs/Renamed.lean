import Mathlib
import Htmpfs.Errnos
import Htmpfs.Moves
import Htmpfs.Names
import Htmpfs.Restores

/-!
# `do_rename` that returned 0

Where the directories are sound, 0 means that both halves were done.  Then the
name has moved, unless the components of the new path start with those of the
old one.
-/

namespace Htmpfs

open Program (Ends)

/-! ## Sound runs -/

/-- The root is not renamed by its other spelling. -/
def FuseCall.KeepsRoot : FuseCall → Prop
  | rename path _ => comps path.1 ≠ [snapshotEntry, curModifiableVer]
  | _ => True

section Runs

variable {w w' : View} {call : FuseCall} {s : InodeSmi}

/-- Only `/.snapshot/current` is a name of the root. -/
theorem Sound.source_ne_root (h : Sound w) {path name : Bytes} {cs ds : List Bytes}
    {originalName targetName : Bytes} {id parent : ℕ}
    (hargs : w.RenameArgs path name cs originalName ds targetName id parent)
    (hroot : comps path ≠ [snapshotEntry, curModifiableVer]) : id ≠ rootInodeNumber := by
  by_cases hcs : cs = [snapshotEntry]
  · refine absurd ?_ hroot
    obtain ⟨rest, hlive⟩ := hargs.live
    rw [hargs.hpath, hcs] at hlive ⊢
    simp only [List.singleton_append, liveComps, if_true] at hlive
    rw [(Prod.mk.inj (Program.pure_eq_ok.mp hlive)).1]
    rfl
  · obtain ⟨_, originalParent, t, _, _, ht, hlookup⟩ := hargs.original hcs
    exact h.entryAt_ne_root ⟨t, ht, hlookup⟩

theorem Sound.effect_rootless (h : Sound w) (hstep : w.Effect call w')
    (hcut : ¬ w.CutsDirectory call) (hroot : call.KeepsRoot) : w'.Rootless := by
  have hnone : ∀ (j : ℕ) (p : PathPack), False → p.inodeId ≠ rootInodeNumber :=
    fun _ _ hfalse => hfalse.elim
  cases hstep with
  | none => exact h.rootless
  | makes _ hstep =>
      exact hstep.grows.entries h.rootless fun _ _ hp => hp.2 ▸ hstep.ne_root h.links
  | makesFile f _ hstep =>
      have h₁ := hstep.grows.entries h.rootless fun _ _ hp => hp.2 ▸ hstep.ne_root h.links
      exact (View.grows_rewrites hstep.node_self rfl NodeView.rewrites_setCurrent).entries h₁ hnone
  | removes hstep =>
      obtain ⟨_, _, hremove, _⟩ := hstep.removes h.links
      exact (hremove.grows h.links).entries h.rootless hnone
  | creates _ _ hstep => exact (hstep.grows h.links).entries h.rootless hnone
  | deletes _ _ hstep => exact (hstep.grows h.links).entries h.rootless hnone
  | rewrites f _ hn hfile =>
      have hkind : ¬ _ = true := fun hdir => hcut (hfile hdir)
      exact (View.grows_rewrites hn (by simpa using hkind)
        NodeView.rewrites_setCurrent).entries h.rootless hnone
  | @renames path name _ hcall hstep =>
      subst hcall
      obtain ⟨_, _, _, _, _, _, _, _, hparts⟩ := hstep.parts name.2.1
      obtain ⟨_, _, hargs, _⟩ := hparts.args
      exact hparts.entries h.links h.rootless (h.source_ne_root hargs hroot)
  | @spoils path name _ hcall hstep =>
      subst hcall
      obtain ⟨_, _, _, _, _, hargs, _⟩ := hstep.source_root h.links h.names
      exact absurd rfl (h.source_ne_root hargs hroot)

/-- The step lemma. -/
theorem Sound.effect (h : Sound w) (hstep : w.Effect call w') (hfit : call.NamesFit)
    (hcut : ¬ w.CutsDirectory call) (hroot : call.KeepsRoot) : Sound w' where
  toNamed := h.toNamed.effect hstep hcut
  rootless := h.effect_rootless hstep hcut hroot
  defined := hstep.defined h.toNamed hcut (fun _ _ henters => henters.fits hfit) h.defined

theorem FuseReachableWith.sound {cond : View → FuseCall → Prop}
    (hcond : ∀ w call, cond w call → call.NamesFit ∧ ¬ w.CutsDirectory call ∧ call.KeepsRoot)
    (h : FuseReachableWith cond s) : BlocksOk s ∧ Sound s.view :=
  FuseReachableWith.preserved (I := Sound) (fun _ hw => hw.links.weaken)
    (fun w _ call hw hmet heffect =>
      have ⟨hfit, hcut, hroot⟩ := hcond w call hmet
      hw.effect heffect hfit hcut hroot)
    (fun _ _ _ hfresh => hfresh.sound) h

end Runs

/-! ## Refusals -/

section Refusals

variable {s : InodeSmi} {parent id : ℕ} {name : Bytes} {n : NodeView} {t : List PathPack}
  {ctx : FuseContext}

/-- The first half objects with an errno. -/
theorem BlocksOk.relink_reported (h : BlocksOk s) {list : List InodeResult}
    (hlist : s.view.listing curModifiableVer = some list) (hn : s.view.node parent = some n)
    (ht : n.table s.blockSize curModifiableVer = .ok t) :
    Ends (Fuse.relink parent ⟨t, ⟨parent, n.addr⟩, curModifiableVer⟩ name id) s
      (fun _ _ => True) (fun e _ => e.Thrown → e.Reported) := by
  have hdouble : (Exit.htmpfs .doubleMkpathname).Reported := Exit.reported_of_errno (by decide)
  unfold Fuse.relink
  rw [Program.ends_tryCatch]
  refine (h.ends_addEntry (View.deref?_of_node hn) ht).mono (fun _ _ _ => trivial) ?_
  rintro e s' (rfl | ⟨rfl, rfl, _⟩)
  · rw [if_neg (by simp), Program.ends_throw]
    exact fun hthrown => absurd hthrown Exit.not_thrown_badAlloc
  rw [if_pos rfl, Program.ends_bind]
  by_cases hrem : s'.view.Removable parent name
  swap
  · exact (h.removeChild_refused hrem).mono (fun _ _ hfalse => hfalse.elim) fun _ _ he => he.2
  refine (h.ends_removeChild hlist).mono ?_ ?_
  swap
  · rintro e s₀ ⟨_, he⟩ hthrown
    exact absurd (he hrem ▸ hthrown) Exit.not_thrown_badAlloc
  rintro _ s₀ ⟨h₀, hremove, _⟩
  obtain ⟨n₀, t', hn₀, haddr, hdir₀, ht', ht₀⟩ := hremove.node_parent hn
  have hderef : s₀.view.deref? ⟨parent, n.addr⟩ = some n₀ :=
    View.deref?_eq_some.mpr ⟨hn₀, haddr⟩
  have hrefresh := h₀.refresh_eq ⟨t, ⟨parent, n.addr⟩, curModifiableVer⟩ hderef hdir₀
  rw [← blockSize_view, ht₀] at hrefresh
  rw [Program.ends_bind]
  refine Program.Ends.reads_ok hrefresh ?_
  rw [blockSize_view] at ht₀
  refine (h₀.ends_addEntry hderef ht₀).mono (fun _ _ _ => trivial) ?_
  rintro e s₁ (rfl | ⟨rfl, rfl, _⟩) hthrown
  · exact absurd hthrown Exit.not_thrown_badAlloc
  · exact hdouble

theorem Named.resolveComps_thrown {w : View} (h : Named w) {cs : List Bytes}
    (hcs : ∀ c ∈ cs, IsName c) {e : Exit} (he : w.resolveComps cs = .error e) (hthrown : e.Thrown) :
    e.Reported := by
  rcases View.resolveComps_reported he hthrown with rfl | hreported
  · exact absurd he (h.resolveComps_ne_outOfRange hcs)
  · exact hreported

/-- Where directories agree with the version lists, 0 means that the entry has moved. -/
theorem Fuse.ends_doRename_zero (h : BlocksOk s) (hw : Named s.view) {path name : CString} :
    Ends (doRename ctx path name) s
      (fun r s' => r = 0 → BlocksOk s' ∧ s.view.Renames path.1 name.1 s'.view)
      (fun _ _ => True) := by
  obtain ⟨list, hlist⟩ := hw.links.exists_current
  unfold doRename
  refine (ends_catchTail (E := fun e _ => e.Thrown → e.Reported) ?_ ?_).mono (fun _ _ hr => hr)
    fun _ _ _ => trivial
  swap
  · exact fun e s' he hthrown hzero => absurd hzero ((he hthrown).caught_neg ctx).ne
  have hinvalid : (Exit.htmpfs .invalidDentryName).Reported := Exit.reported_of_errno (by decide)
  refine ends_checkRdonlyFs (fun rest hlive => ?_)
    (fun _ _ _ _ hzero => absurd hzero (by decide)) fun e he _ => liveComps_error he ▸ hinvalid
  refine ends_checkRdonlyFs (fun rest' hlive' => ?_)
    (fun _ _ _ _ hzero => absurd hzero (by decide)) fun e he _ => liveComps_error he ▸ hinvalid
  rw [Program.ends_bind, Program.ends_reads, h.resolve_eq]
  refine ⟨fun id hid => ?_, fun e he hthrown => ?_⟩
  swap
  · by_cases habs : path.1 = [] ∨ path.1.head? = some slash
    · rw [View.resolve_eq_resolveComps habs] at he
      exact hw.resolveComps_thrown isName_of_mem_comps he hthrown
    · unfold View.resolve at he
      cases hpath : path.1 with
      | nil => exact absurd (Or.inl hpath) habs
      | cons c rest =>
          rw [hpath] at he habs
          simp only [List.head?_cons, Option.some.injEq, reduceCtorEq, false_or] at habs
          simp only [if_neg habs] at he
          exact (Program.throw_eq_error.mp he) ▸ hinvalid
  rw [Program.ends_bind]
  refine ends_popPath (fun _ _ => hinvalid) fun cs originalName hpath => ?_
  simp only [PathT.size, List.length_cons, Nat.add_eq_zero_iff, one_ne_zero, and_false, if_false]
  rw [Program.ends_bind]
  refine ends_popPath (fun _ _ => hinvalid) fun ds targetName hname => ?_
  simp only [List.length_cons, Nat.add_eq_zero_iff, one_ne_zero, and_false, if_false]
  have hds : ∀ c ∈ ds, IsName c := fun c hc =>
    isName_of_mem_comps (p := name.1) c (by simp [hname, hc])
  rw [Program.ends_bind, Program.ends_reads, h.resolve_eq, View.resolve_toString hds]
  refine ⟨fun parent hparent => ?_, fun e he => hw.resolveComps_thrown hds he⟩
  have hargs : s.view.RenameArgs path.1 name.1 cs originalName ds targetName id parent :=
    ⟨hpath, hname, ⟨rest, hlive⟩, ⟨rest', hlive'⟩, hid, hparent⟩
  rw [Program.ends_bind, Program.ends_reads, getInodeById_eq]
  cases hn : s.view.node parent with
  | none =>
      refine ⟨by simp, fun e he _ => ?_⟩
      rw [← Except.error.inj he]
      exact Exit.reported_of_errno (by decide)
  | some n =>
      refine ⟨fun ptr hptr => ?_, by simp⟩
      obtain rfl := Except.ok.inj hptr
      rw [Program.ends_bind]
      refine h.ends_resolver_new (View.deref?_of_node hn) (fun t _ ht => ?_)
        fun e he _ => NodeView.table_reported he
      rw [Program.ends_bind]
      refine ((h.ends_relink hlist hn ht).and (h.relink_reported hlist hn ht)).mono ?_
        fun _ _ he => he.2
      rintro _ s₁ ⟨⟨h₁, hrelink, _⟩, _⟩
      have hzero : 0 ∉ targetName := fun hmem =>
        name.2.1 (mem_of_mem_comps (by simp [hname]) hmem)
      rw [Program.ends_bind]
      refine (hargs.ends_unlinkOriginal h₁ hw.links.weaken hrelink hzero).mono ?_ ?_
      · exact fun _ s' hrenames _ => ⟨hrenames.1, hrenames.2.1⟩
      · intro e s' he hthrown
        rw [(he hthrown).2.2]
        exact hinvalid

end Refusals

/-! ## The new name -/

/-- The directory and the name of the entry that a path is for. -/
def Denotes (s : InodeSmi) (path : Bytes) (id : ℕ) (name : Bytes) : Prop :=
  ∃ vpath, (PathT.ofString path).popEnd = .ok (name, vpath) ∧
    InodeSmi.getInodeIdByPath vpath.toString s = .ok id

/-- The links of an inode, 0 where there is none. -/
def InodeSmi.linksOf (id : ℕ) (s : InodeSmi) : ℕ :=
  match s.inodePool.find? id with
  | some node => node.linkCount
  | none => 0

/-- The inode `id` has moved from one path to the other, and nothing else has changed. -/
structure Renamed (s : InodeSmi) (path name : Bytes) (id : ℕ) (s' : InodeSmi) : Prop where
  target : InodeSmi.getInodeIdByPath name s' = .ok id
  inode : ∃ node node', s.inodePool.find? id = some node ∧ s'.inodePool.find? id = some node' ∧
    node'.linkCount = node.linkCount ∧ ∀ ver,
      node'.val.toString s'.bufferPool ver = node.val.toString s.bufferPool ver
  source : (¬ ∃ d c, Denotes s path d c ∧ Denotes s name d c) →
    ∀ k, InodeSmi.getInodeIdByPath path s' ≠ .ok k
  same : (∃ d c, Denotes s path d c ∧ Denotes s name d c) → SameTree s s'
  replaced : ∀ j, InodeSmi.getInodeIdByPath name s = .ok j → j ≠ id →
    InodeSmi.linksOf j s' + 1 = InodeSmi.linksOf j s
  others : ∀ d c k, ¬ Denotes s path d c → ¬ Denotes s name d c →
    (InodeSmi.lookupIn d curModifiableVer c s' = .ok k ↔
      InodeSmi.lookupIn d curModifiableVer c s = .ok k)

/-- The new path is absolute, and its components, behind `/.snapshot/current`, do not start with
those of the old one. -/
def NotBelow (path name : Bytes) : Prop :=
  name.head? = some slash ∧ ¬ ∃ out out',
    ifSnapshot path = .ok (curModifiableVer, out) ∧
      ifSnapshot name = .ok (curModifiableVer, out') ∧
        (PathT.ofString out).pathname <+: (PathT.ofString out').pathname

section Renamed

variable {s s' : InodeSmi} {path name : Bytes} {front front' : List Bytes}
  {originalName targetName c : Bytes} {id parent originalParent d j k : ℕ} {w₀ w₁ : View}
  {ctx : FuseContext}

theorem BlocksOk.lookupIn_iff (h : BlocksOk s) :
    InodeSmi.lookupIn d curModifiableVer c s = .ok k ↔ s.view.EntryAt d c k := by
  rw [InodeSmi.lookupIn_eq, h.entries_eq]
  exact Program.bind_eq_ok

theorem linksOf_eq : InodeSmi.linksOf j s = s.view.links j := by
  unfold InodeSmi.linksOf View.links
  cases hj : s.inodePool.find? j with
  | none => rw [view_node_eq_none.mpr hj]; rfl
  | some node => rw [view_node_eq_some.mpr ⟨node, hj, rfl⟩]; rfl

theorem BlocksOk.denotes_iff (h : BlocksOk s)
    (hlive : liveComps (comps path) = .ok (curModifiableVer, front ++ [originalName]))
    (hway : s.view.Way front originalParent) :
    Denotes s path d c ↔ d = originalParent ∧ c = originalName := by
  rcases List.eq_nil_or_concat (comps path) with hnil | ⟨cs, last, hpath⟩
  · rw [hnil] at hlive
    have hrest := (Prod.mk.inj (Program.pure_eq_ok.mp hlive)).2
    simp at hrest
  rw [List.concat_eq_append] at hpath
  have hnames : ∀ c ∈ cs, IsName c := fun c hc =>
    isName_of_mem_comps (p := path) c (by simp [hpath, hc])
  have hfront : last = originalName ∧ liveComps cs = .ok (curModifiableVer, front) := by
    rw [hpath] at hlive
    rcases liveComps_append hlive with rfl | ⟨front₀, heq, hfront⟩
    · simp only [List.singleton_append, liveComps, if_true] at hlive
      have hrest := (Prod.mk.inj (Program.pure_eq_ok.mp hlive)).2
      simp at hrest
    · obtain ⟨rfl, hlast⟩ := List.append_inj' heq rfl
      exact ⟨(List.singleton_inj.mp hlast).symm, hfront⟩
  obtain ⟨rfl, hfront⟩ := hfront
  unfold Denotes
  simp only [popEnd_ofString hpath, Except.ok.injEq, Prod.mk.injEq]
  constructor
  · rintro ⟨_, ⟨rfl, rfl⟩, hd⟩
    rw [h.resolve_eq, View.resolve_toString hnames,
      View.way_of_resolveComps hfront hnames] at hd
    exact ⟨hd.unique hway, rfl⟩
  · rintro ⟨rfl, rfl⟩
    refine ⟨_, ⟨rfl, rfl⟩, ?_⟩
    rw [h.resolve_eq, View.resolve_toString hnames]
    exact (View.way_of_resolveComps hfront hnames).mpr hway

/-- A live path leads where its names lead. -/
theorem BlocksOk.resolve_iff_way (h : BlocksOk s) {rest : List Bytes}
    (habs : path = [] ∨ path.head? = some slash)
    (hlive : liveComps (comps path) = .ok (curModifiableVer, rest)) :
    InodeSmi.getInodeIdByPath path s = .ok id ↔ s.view.Way rest id := by
  rw [h.resolve_eq, View.resolve_eq_resolveComps habs]
  exact View.way_of_resolveComps hlive isName_of_mem_comps

theorem notBelow_iff {rest rest' : List Bytes}
    (hlive : liveComps (comps path) = .ok (curModifiableVer, rest))
    (hlive' : liveComps (comps name) = .ok (curModifiableVer, rest')) :
    NotBelow path name ↔ name.head? = some slash ∧ ¬ rest <+: rest' := by
  obtain ⟨out, hout, hpath⟩ := exists_ifSnapshot hlive
  obtain ⟨out', hout', hname⟩ := exists_ifSnapshot hlive'
  refine and_congr_right fun _ => not_congr ⟨?_, fun hstarts => ?_⟩
  · rintro ⟨_, _, h, h', hstarts⟩
    obtain rfl := (Prod.mk.inj (Except.ok.inj (h.symm.trans hout))).2
    obtain rfl := (Prod.mk.inj (Except.ok.inj (h'.symm.trans hout'))).2
    rw [hpath, hname, List.cons_prefix_cons] at hstarts
    exact hstarts.2
  · refine ⟨out, out', hout, hout', ?_⟩
    rw [hpath, hname, List.cons_prefix_cons]
    exact ⟨rfl, hstarts⟩

theorem BlocksOk.toString_of_view (h : BlocksOk s) (h' : BlocksOk s')
    (hsize : s'.blockSize = s.blockSize) {node node' : PoolNode Inode}
    (hnode : s.inodePool.find? j = some node) (hnode' : s'.inodePool.find? j = some node')
    (hview : nodeView s'.bufferPool node' = nodeView s.bufferPool node) (ver : SnapshotVer) :
    node'.val.toString s'.bufferPool ver = node.val.toString s.bufferPool ver := by
  rw [h.toString_eq hnode, h'.toString_eq hnode', hview, hsize]

/-- The name has moved exactly where the new path does not start with the old one. -/
theorem View.Moves.renamed_iff
    (hmoves : s.view.Moves path name front originalName front' targetName id parent
      originalParent w₀ w₁ s'.view) (h : BlocksOk s) (h' : BlocksOk s') (hw : Sound s.view)
    (hfits : NameFits targetName) : Renamed s path name id s' ↔ NotBelow path name := by
  have hdenotes : ∀ d c, Denotes s path d c ↔ d = originalParent ∧ c = originalName :=
    fun _ _ => h.denotes_iff hmoves.live hmoves.way
  have hdenotes' : ∀ d c, Denotes s name d c ↔ d = parent ∧ c = targetName :=
    fun _ _ => h.denotes_iff hmoves.live' hmoves.way'
  have hname : name ≠ [] := by
    intro hnil
    have hlive := hmoves.live'
    rw [hnil] at hlive
    have hrest := (Prod.mk.inj (Program.pure_eq_ok.mp hlive)).2
    simp at hrest
  rw [notBelow_iff hmoves.live hmoves.live']
  constructor
  · intro hrenamed
    have htarget := hrenamed.target
    have habs : name.head? = some slash := by
      rw [h'.resolve_eq] at htarget
      exact (View.resolve_absolute htarget).resolve_left hname
    refine ⟨habs, fun hstarts => ?_⟩
    exact hmoves.source_gone hw hfits hstarts
      ((h'.resolve_iff_way (Or.inr habs) hmoves.live').mp htarget)
  · rintro ⟨habs, hstarts⟩
    have hdiffer : ¬ ∃ d c, Denotes s path d c ∧ Denotes s name d c := by
      rintro ⟨d, c, hd, hd'⟩
      obtain ⟨rfl, rfl⟩ := (hdenotes d c).mp hd
      obtain ⟨rfl, rfl⟩ := (hdenotes' d c).mp hd'
      rw [hw.way_inj hmoves.way hmoves.way'] at hstarts
      exact hstarts List.prefix_rfl
    have hsource := View.resolve_absolute hmoves.source
    refine { target := ?_, inode := ?_, source := ?_, same := fun hsame => absurd hsame hdiffer,
             replaced := ?_, others := ?_ }
    · exact (h'.resolve_iff_way (Or.inr habs) hmoves.live').mpr
        (hmoves.way_target hw hfits hstarts)
    · obtain ⟨t, p, ht, hp, _, rfl⟩ := hmoves.entry.mem
      obtain ⟨n, hn, _⟩ := hw.node_of_mem ht hp
      have hn' := (hmoves.node_id hw hstarts).trans hn
      obtain ⟨node, hnode, rfl⟩ := view_node_eq_some.mp hn
      obtain ⟨node', hnode', hview⟩ := view_node_eq_some.mp hn'
      exact ⟨node, node', hnode, hnode', congrArg NodeView.linkCount hview,
        h.toString_of_view h' hmoves.blockSize_eq hnode hnode' hview⟩
    · intro _ k hk
      exact hmoves.source_gone hw hfits List.prefix_rfl
        ((h'.resolve_iff_way hsource hmoves.live).mp hk)
    · intro j hj _
      rw [linksOf_eq, linksOf_eq]
      exact hmoves.links_replaced hw ((h.resolve_iff_way (Or.inr habs) hmoves.live').mp hj)
    · intro d c k hd hd'
      rw [hdenotes] at hd
      rw [hdenotes'] at hd'
      rw [h'.lookupIn_iff, h.lookupIn_iff, hmoves.entryAt_iff hw.toNamed hfits]
      constructor
      · rintro ⟨⟨hentry, _⟩ | ⟨rfl, rfl, _⟩, _⟩
        · exact hentry
        · exact absurd ⟨rfl, rfl⟩ hd'
      · exact fun hentry => ⟨Or.inl ⟨hentry, hd'⟩, hd⟩

/-- In runs that enter fitting names, cut no directory and do not rename the root, a rename that
returns 0 has moved one name and nothing else, exactly where the new path does not start with the
old one. -/
theorem do_rename_moves_iff (ctx : FuseContext)
    (hs : FuseReachableWith
      (fun w call => call.NamesFit ∧ ¬ w.CutsDirectory call ∧ call.KeepsRoot) s)
    {path name : CString} (hfit : ∀ c ∈ comps name.1, c.length ≤ 127)
    (hid : InodeSmi.getInodeIdByPath path.1 s = .ok id) :
    Ends (Fuse.doRename ctx path name) s
      (fun r s' => r = 0 → (Renamed s path.1 name.1 id s' ↔ NotBelow path.1 name.1))
      (fun _ _ => True) := by
  obtain ⟨h, hw⟩ := hs.sound fun _ _ hcond => hcond
  refine (Fuse.ends_doRename_zero h hw.toNamed).mono ?_ fun _ _ _ => trivial
  intro r s' hrenames hzero
  obtain ⟨h', hrenames⟩ := hrenames hzero
  obtain ⟨front, originalName, front', targetName, id', parent, originalParent, w₀, w₁, hmoves⟩ :=
    hrenames.moves name.2.1
  rw [h.resolve_eq] at hid
  obtain rfl := Except.ok.inj (hmoves.source.symm.trans hid)
  exact hmoves.renamed_iff h h' hw (Nat.lt_succ_of_le (hfit _ hmoves.mem))

/-- `"/b"` -/
def otherPath : CString := ⟨[47, 98], by decide⟩

theorem do_rename_moves_iff_sampleMount :
    Renamed sampleMount samplePath.1 otherPath.1 1
        (Program.exec (Fuse.doRename sampleContext samplePath otherPath) sampleMount) ↔
      NotBelow samplePath.1 otherPath.1 := by
  have hreach : FuseReachableWith
      (fun w call => call.NamesFit ∧ ¬ w.CutsDirectory call ∧ call.KeepsRoot) sampleMount :=
    fuseReachable_sampleMount ⟨FuseCall.namesFit_of_newPath rfl (by decide),
      View.not_cutsDirectory_create, trivial⟩
  have hfit : ∀ c ∈ comps otherPath.1, c.length ≤ 127 := by decide
  have hid : InodeSmi.getInodeIdByPath samplePath.1 sampleMount = .ok 1 := by decide +kernel
  have hrun : Program.outcome (Fuse.doRename sampleContext samplePath otherPath) sampleMount =
      .ok 0 := by decide +kernel
  generalize sampleMount = s at hreach hid hrun ⊢
  exact (do_rename_moves_iff sampleContext hreach hfit hid).outcome_ok hrun rfl

/-- `"/.snapshot/current/a"` -/
def currentSamplePath : CString :=
  ⟨slash :: snapshotEntry ++ slash :: curModifiableVer ++ slash :: [97], by decide⟩

/-- A file that is renamed to its other spelling is destroyed. -/
theorem not_do_rename_moves : ¬ ∀ s, FuseReachableWith (fun _ call => call.NamesFit) s →
    ∀ (ctx : FuseContext) (path name : CString) (id : ℕ),
    path.1.head? = some slash → name.1.head? = some slash → ¬ path.1 <+: name.1 →
    (∀ c ∈ comps name.1, c.length ≤ 127) →
    (∃ out, ifSnapshot path.1 = .ok (curModifiableVer, out)) →
    InodeSmi.getInodeIdByPath path.1 s = .ok id →
    Ends (Fuse.doRename ctx path name) s (fun r s' => r = 0 → Renamed s path.1 name.1 id s')
      (fun _ _ => True) := by
  intro hall
  have hreach : FuseReachableWith (fun _ call => call.NamesFit) sampleMount :=
    fuseReachable_sampleMount (FuseCall.namesFit_of_newPath rfl (by decide))
  have hfit : ∀ c ∈ comps currentSamplePath.1, c.length ≤ 127 := by decide
  have hlive : ∃ out, ifSnapshot samplePath.1 = .ok (curModifiableVer, out) :=
    ⟨samplePath.1, ifSnapshot_samplePath⟩
  have hid : InodeSmi.getInodeIdByPath samplePath.1 sampleMount = .ok 1 := by decide +kernel
  have hrun : Program.outcome (Fuse.doRename sampleContext samplePath currentSamplePath)
      sampleMount = .ok 0 := by decide +kernel
  have hlost : InodeSmi.getInodeIdByPath currentSamplePath.1
      (Program.exec (Fuse.doRename sampleContext samplePath currentSamplePath) sampleMount) =
        .error (.htmpfs .noSuchFileOrDir) := by decide +kernel
  generalize sampleMount = s at hreach hid hrun hlost
  have hends := hall s hreach sampleContext samplePath currentSamplePath 1 rfl rfl (by decide) hfit
    hlive hid
  have htarget := (hends.outcome_ok hrun rfl).target
  rw [hlost] at htarget
  simp at htarget

end Renamed

end Htmpfs
