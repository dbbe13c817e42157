import Mathlib
import Htmpfs.Library.LabelledPaths
import Htmpfs.Listing
import Htmpfs.Restores
import Htmpfs.Tables

/-!
# The exported map

`export_as_filesystem_map` goes down from the root by paths that it resolves
again at every level.  As long as nothing is renamed, a directory is older than
the inodes it names, so the search ends, and it finds every path once.
-/

namespace Htmpfs

open Program (Ends)

/-! ## Directories are older than their entries -/

/-- Every directory is older than the inodes it names. -/
def View.Ascends (w : View) : Prop :=
  ∀ id ver t, w.tableAt id ver = .ok t → ∀ p ∈ t, ∀ n m, w.node id = some n →
    w.node p.inodeId = some m → n.addr < m.addr

/-- Every inode is an old one, or newer than all old ones. -/
def View.KeepsAddr (w w' : View) : Prop :=
  ∀ id n', w'.node id = some n' → (∃ n, w.node id = some n ∧ n'.addr = n.addr) ∨
    w.node id = none ∧ n'.addr = w.nextAddr

section Ascends

variable {w w' : View} {parent id : ℕ} {name : Bytes} {isDir : Bool} {ver : SnapshotVer}
  {new : ℕ → PathPack → Prop}

theorem View.MakesChild.keepsAddr (hstep : w.MakesChild parent name isDir id w') :
    w.KeepsAddr w' := by
  obtain ⟨_, _, _, hfree, _⟩ := hstep.tables
  obtain ⟨list, f, _, rfl⟩ := hstep.view_eq
  intro j n' hn'
  rw [View.node_setListing, View.node_setCurrent] at hn'
  by_cases hj : j = parent
  · rw [if_pos hj, View.node_addNode, if_neg hstep.parent_ne] at hn'
    obtain ⟨n, hn, rfl⟩ := Option.map_eq_some_iff.mp hn'
    exact Or.inl ⟨n, hj ▸ hn, rfl⟩
  · rw [if_neg hj, View.node_addNode] at hn'
    split_ifs at hn' with hid
    · obtain rfl := Option.some.inj hn'
      exact Or.inr ⟨hid ▸ hfree, rfl⟩
    · exact Or.inl ⟨n', hn', rfl⟩

theorem NodeView.addr_of_dropLink {n n' : NodeView} (h : n.dropLink = some n') :
    n'.addr = n.addr := by
  unfold NodeView.dropLink at h
  split_ifs at h
  obtain rfl := Option.some.inj h
  rfl

theorem View.RemovesChild.keepsAddr (hstep : w.RemovesChild parent name w') : w.KeepsAddr w' := by
  rcases hstep with ⟨n, t, p, target, list, hparent, htable, hp, htarget, hempty, hsize, hlist⟩
  have hset : ∀ j n, ((w.setCurrent parent fun _ =>
      encodeTable (t.eraseP fun i => i.pathname = name)).node j) = some n →
      ∃ m, w.node j = some m ∧ n.addr = m.addr := by
    intro j n hn
    rw [View.node_setCurrent] at hn
    split_ifs at hn with hj
    · obtain ⟨m, hm, rfl⟩ := Option.map_eq_some_iff.mp hn
      exact ⟨m, hj ▸ hm, rfl⟩
    · exact ⟨n, hn, rfl⟩
  intro j n' hn'
  left
  rw [View.node_dropLink] at hn'
  split_ifs at hn' with hj
  · obtain ⟨n, hn, hdrop⟩ := Option.bind_eq_some_iff.mp hn'
    obtain ⟨m, hm, haddr⟩ := hset _ n hn
    exact ⟨m, hj ▸ hm, (NodeView.addr_of_dropLink hdrop).trans haddr⟩
  · exact hset j n' hn'

theorem View.CreatesSnapshot.keepsAddr (hstep : w.CreatesSnapshot ver w') {clean : Prop}
    (h : Links clean w) : w.KeepsAddr w' := by
  intro j n' hn'
  left
  rw [hstep.node_eq h] at hn'
  obtain ⟨n, hn, rfl⟩ := Option.map_eq_some_iff.mp hn'
  refine ⟨n, hn, ?_⟩
  split_ifs
  · rfl
  · rfl

theorem View.DeletesSnapshot.keepsAddr (hstep : w.DeletesSnapshot ver w') {clean : Prop}
    (h : Links clean w) : w.KeepsAddr w' := by
  intro j n' hn'
  left
  cases hn : w.node j with
  | none =>
      rw [hstep.node_eq_none hn] at hn'
      simp at hn'
  | some n =>
      refine ⟨n, rfl, ?_⟩
      rcases hstep.node_eq h hn with ⟨_, hnode⟩ | ⟨_, hnode⟩
      · rw [hn'] at hnode
        exact NodeView.addr_of_dropLink (n := n.unfreeze ver) hnode.symm
      · rw [hn'] at hnode
        rw [Option.some.inj hnode]

/-- Entries of new inodes keep directories older than what they name. -/
theorem View.Grows.ascends (hgrows : w.Grows new w') (h : Named w) (hw : w.Ascends)
    (haddr : w.KeepsAddr w') (hnew : ∀ j p, new j p → w.node p.inodeId = none) : w'.Ascends := by
  intro j u t ht p hp n' m' hn' hm'
  rcases hgrows j u t ht with rfl | ⟨u₀, t₀, ht₀, hcase⟩
  · simp at hp
  obtain ⟨n, hn, _⟩ := View.tableAt_eq_ok.mp ht₀
  have hn₀ : n'.addr = n.addr := by
    rcases haddr j n' hn' with ⟨n₀, hn₀, heq⟩ | ⟨hnone, _⟩
    · rw [heq, Option.some.inj (hn.symm.trans hn₀)]
    · rw [hnone] at hn
      simp at hn
  have hold : p ∈ t₀ → n'.addr < m'.addr := by
    intro hp₀
    obtain ⟨m, hm, _⟩ := h.node_of_mem ht₀ hp₀
    rcases haddr _ m' hm' with ⟨m₀, hm₀, heq⟩ | ⟨hnone, _⟩
    · rw [hn₀, heq]
      exact hw j u₀ t₀ ht₀ p hp₀ n m₀ hn hm₀
    · rw [hnone] at hm
      simp at hm
  rcases hcase with hsub | ⟨q, hq, _, rfl⟩
  · exact hold (hsub.subset hp)
  · rcases List.mem_append.mp hp with hp | hp
    · exact hold hp
    · obtain rfl := List.mem_singleton.mp hp
      have hnone := hnew j p hq
      rcases haddr _ m' hm' with ⟨m₀, hm₀, _⟩ | ⟨_, heq⟩
      · rw [hnone] at hm₀
        simp at hm₀
      · rw [hn₀, heq]
        exact h.links.nodeAddr j n hn

theorem View.keepsAddr_rewrites {g : NodeView → NodeView} {n : NodeView} (hn : w.node id = some n)
    (hg : n.Rewrites (g n)) : w.KeepsAddr (w.update id fun n => some (g n)) := by
  intro j n' hn'
  left
  rw [View.node_update] at hn'
  split_ifs at hn' with hj
  · subst hj
    rw [hn] at hn'
    obtain rfl := Option.some.inj hn'
    exact ⟨n, hn, hg.addr⟩
  · exact ⟨n', hn', rfl⟩

end Ascends

/-! ## Runs without renames -/

/-- What may be called: names are not empty and fit, the root gets no `.snapshot`, and a version is
one component of a path. -/
def SmiOp.Exports : SmiOp → Prop
  | makeChild parent name _ =>
      name ≠ [] ∧ name.length ≤ 127 ∧ (parent = rootInodeNumber → name ≠ snapshotEntry)
  | removeChild _ _ => True
  | createSnapshot ver => ver ≠ [] ∧ slash ∉ ver
  | deleteSnapshot _ => True
  | _ => False

/-- A name that a path can have after the path of the directory `id`. -/
def Enterable (id : ℕ) (p : PathPack) : Prop :=
  IsName p.pathname ∧ (id = rootInodeNumber → p.pathname ≠ snapshotEntry)

/-- What holds of the file system in such a run. -/
structure Exportable (s : InodeSmi) : Prop where
  blocks : BlocksOk s
  sound : Sound s.view
  rootDir : s.view.RootDir
  ascends : s.view.Ascends
  entries : s.view.Entries Enterable
  versions : ∀ ver, (s.view.listing ver).isSome → IsName ver

section Runs

variable {s s' : InodeSmi} {op : SmiOp}

theorem SmiOp.Exports.admitted (hop : op.Exports) : op.Admitted s := by
  cases op with
  | makeChild parent name isDir =>
      exact SmiOp.admitted_makeChild (Nat.lt_succ_of_le hop.2.1)
  | removeChild parent name => exact ⟨⟨trivial, trivial, trivial⟩, trivial⟩
  | createSnapshot ver => exact ⟨⟨trivial, trivial, trivial⟩, trivial⟩
  | deleteSnapshot ver => exact ⟨⟨trivial, trivial, trivial⟩, trivial⟩
  | write id buffer offset resize => exact hop.elim
  | truncate id length => exact hop.elim
  | rename ctx path name => exact hop.elim

theorem not_slash_of_nameChar {name : Bytes} (h : name.all InodeSmi.nameChar = true) :
    slash ∉ name := by
  intro hmem
  have hchar := List.all_eq_true.mp h slash hmem
  simp [InodeSmi.nameChar] at hchar

theorem Fresh.exportable {limits : PoolLimits} {blockSize : ℕ} (h : Fresh limits blockSize s)
    (hpos : 0 < blockSize) (hword : blockSize < 2 ^ 64) : Exportable s := by
  refine { blocks := h.blocksOk hpos hword, sound := h.sound,
           rootDir := fun _ hn => (h.view_node hn).2.2.2.1, ascends := ?_, entries := ?_,
           versions := ?_ }
  · intro id ver t ht p hp
    simp [h.table_eq_nil ht] at hp
  · intro id ver t ht p hp
    simp [h.table_eq_nil ht] at hp
  · intro ver hver
    exact h.eq_current hver ▸ ⟨by decide, by decide⟩

/-- The step lemma. -/
theorem Exportable.step (h : Exportable s) (hstep : SmiStepWith (fun _ op => op.Exports) s s') :
    Exportable s' := by
  obtain ⟨op, hop, hrun⟩ := hstep
  have hadmitted : op.Admitted s := hop.admitted
  obtain ⟨h', hchange⟩ := SmiOp.leaves_run h.blocks h.sound.toNamed hadmitted.toAllowed hrun
  have hsound := h.sound.changes hchange hadmitted.names hadmitted.root
  have hnamed := h.sound.toNamed
  have hnone : ∀ (j : ℕ) (p : PathPack), False → s.view.node p.inodeId = none :=
    fun _ _ hfalse => hfalse.elim
  have hname : ∀ (j : ℕ) (p : PathPack), False → Enterable j p := fun _ _ hfalse => hfalse.elim
  have hcur := h.versions _ hnamed.isSome_current
  generalize hw' : s'.view = w' at hchange hsound
  have hall : w'.RootDir ∧ w'.Ascends ∧ w'.Entries Enterable ∧
      ∀ ver, (w'.listing ver).isSome → IsName ver := by
    cases hchange with
    | none => exact ⟨h.rootDir, h.ascends, h.entries, h.versions⟩
    | @makes parent id name isDir _ hmake =>
        obtain ⟨hnil, _, hsnap⟩ := hop
        obtain ⟨_, _, _, hfree, _⟩ := hmake.tables
        refine ⟨h.rootDir.makesChild hnamed.links hmake,
          hmake.grows.ascends hnamed h.ascends hmake.keepsAddr ?_,
          hmake.grows.entries h.entries ?_, ?_⟩
        · rintro j p ⟨_, rfl⟩
          exact hfree
        · rintro j p ⟨rfl, rfl⟩
          exact ⟨⟨hnil, not_slash_of_nameChar hmake.nameChar⟩, hsnap⟩
        · obtain ⟨list, f, _, rfl⟩ := hmake.view_eq
          intro ver hver
          rw [View.listing_setListing] at hver
          split_ifs at hver with heq
          · exact heq ▸ hcur
          · exact h.versions ver hver
    | removes hremove =>
        refine ⟨h.rootDir.removesChild hremove,
          (hremove.grows hnamed.links).ascends hnamed h.ascends hremove.keepsAddr hnone,
          (hremove.grows hnamed.links).entries h.entries hname, ?_⟩
        rcases hremove with ⟨n, t, p, target, list, _, _, _, _, _, _, _⟩
        intro ver hver
        rw [View.listing_dropLink, View.listing_setListing] at hver
        split_ifs at hver with heq
        · exact heq ▸ hcur
        · exact h.versions ver hver
    | creates hcreate =>
        refine ⟨h.rootDir.createsSnapshot hcreate,
          (hcreate.grows hnamed.links).ascends hnamed h.ascends
            (hcreate.keepsAddr hnamed.links) hnone,
          (hcreate.grows hnamed.links).entries h.entries hname, ?_⟩
        rcases hcreate with ⟨list, _, _⟩
        intro u hu
        rw [View.listing_setListing] at hu
        split_ifs at hu with heq
        · exact heq ▸ ⟨hop.1, hop.2⟩
        · exact h.versions u hu
    | deletes hdelete =>
        refine ⟨h.rootDir.deletesSnapshot hdelete,
          (hdelete.grows hnamed.links).ascends hnamed h.ascends
            (hdelete.keepsAddr hnamed.links) hnone,
          (hdelete.grows hnamed.links).entries h.entries hname, ?_⟩
        rcases hdelete with ⟨list, _, _, _⟩
        intro u hu
        rw [View.listing_setListing] at hu
        split_ifs at hu with heq
        · simp at hu
        · exact h.versions u hu
    | rewrites f hn hfile =>
        have hgrows := View.grows_rewrites (g := fun n => n.setCurrent f) hn hfile
          NodeView.rewrites_setCurrent
        exact ⟨h.rootDir.setCurrent _,
          hgrows.ascends hnamed h.ascends (View.keepsAddr_rewrites (g := fun n =>
            n.setCurrent f) hn NodeView.rewrites_setCurrent) hnone,
          hgrows.entries h.entries hname, h.versions⟩
    | overflows g hn hfile hg _ =>
        have hgrows := View.grows_rewrites hn hfile hg
        exact ⟨h.rootDir.rewrites hn hfile,
          hgrows.ascends hnamed h.ascends (View.keepsAddr_rewrites hn hg) hnone,
          hgrows.entries h.entries hname, h.versions⟩
    | renames hrename => exact hop.elim
  subst hw'
  exact { blocks := h', sound := hsound, rootDir := hall.1, ascends := hall.2.1,
          entries := hall.2.2.1, versions := hall.2.2.2 }

/-- The run lemma. -/
theorem exportable_of_run {limits : PoolLimits} {blockSize : ℕ} (hpos : 0 < blockSize)
    (hword : blockSize < 2 ^ 64)
    (hrun : Relation.ReflTransGen (SmiStepWith fun _ op => op.Exports)
      (InodeSmi.new limits blockSize) s) : Exportable s :=
  Program.run_preserves hrun ((fresh_new limits blockSize).exportable hpos hword)
    fun _ _ ht hstep => ht.step hstep

end Runs

/-! ## The tree of a version -/

/-- The entries of a directory at a version, as edges. -/
def View.edges (w : View) (ver : SnapshotVer) (id : ℕ) : List (Bytes × ℕ) :=
  match w.tableAt id ver with
  | .ok t => t.map fun p => (p.pathname, p.inodeId)
  | .error _ => []

/-- How long ago an inode was made. -/
def View.age (w : View) (id : ℕ) : ℕ :=
  match w.node id with
  | some n => w.nextAddr - n.addr
  | none => 0

section Edges

variable {w : View} {id j : ℕ} {i name : Bytes} {ver : SnapshotVer} {t : List PathPack}
  {cs : List Bytes}

theorem View.edges_of_table (ht : w.tableAt id ver = .ok t) :
    w.edges ver id = t.map fun p => (p.pathname, p.inodeId) := by
  unfold View.edges
  rw [ht]

theorem View.edges_of_error {e : Exit} (he : w.tableAt id ver = .error e) :
    w.edges ver id = [] := by
  unfold View.edges
  rw [he]

theorem View.mem_edges : (i, j) ∈ w.edges ver id ↔
    ∃ t, w.tableAt id ver = .ok t ∧ (⟨i, j⟩ : PathPack) ∈ t := by
  cases ht : w.tableAt id ver with
  | error e => simp [View.edges_of_error ht]
  | ok t =>
      rw [View.edges_of_table ht]
      constructor
      · intro hmem
        obtain ⟨p, hp, heq⟩ := List.mem_map.mp hmem
        obtain ⟨rfl, rfl⟩ := Prod.mk.inj heq
        exact ⟨t, rfl, hp⟩
      · rintro ⟨_, heq, hp⟩
        obtain rfl := Except.ok.inj heq
        exact List.mem_map.mpr ⟨_, hp, rfl⟩

theorem View.nodup_labels (h : w.NamesNodup) : ((w.edges ver id).map Prod.fst).Nodup := by
  cases ht : w.tableAt id ver with
  | error e => simp [View.edges_of_error ht]
  | ok t =>
      rw [View.edges_of_table ht, List.map_map]
      exact h id ver t ht

theorem View.lookup_iff_mem (ht : (t.map (·.pathname)).Nodup) :
    View.lookup t i = .ok j ↔ (⟨i, j⟩ : PathPack) ∈ t := by
  rw [View.lookup_eq_ok]
  constructor
  · rintro ⟨p, hp, rfl⟩
    have hname : p.pathname = i := by simpa using List.find?_some hp
    exact hname ▸ List.mem_of_find?_eq_some hp
  · intro hmem
    have hsome : (t.find? fun p => p.pathname = i).isSome :=
      List.find?_isSome.mpr ⟨_, hmem, by simp⟩
    obtain ⟨p, hp⟩ := Option.isSome_iff_exists.mp hsome
    have hname : p.pathname = i := by simpa using List.find?_some hp
    have heq := List.inj_on_of_nodup_map ht (List.mem_of_find?_eq_some hp) hmem hname
    exact ⟨p, hp, heq ▸ rfl⟩

/-- The ways through the tree are the ones that path resolution goes. -/
theorem View.leads_iff (h : w.NamesNodup) (hentries : w.Entries Enterable) :
    LabelledPaths.Leads (w.edges ver) id cs j ↔
      (∀ c ∈ cs, IsName c) ∧ w.walk ver id cs = .ok j := by
  induction cs generalizing id with
  | nil =>
      rw [LabelledPaths.leads_nil]
      simp [View.walk]
  | cons i cs ih =>
      rw [LabelledPaths.leads_cons]
      constructor
      · rintro ⟨b, hedge, hrest⟩
        obtain ⟨t, ht, hmem⟩ := View.mem_edges.mp hedge
        obtain ⟨hnames, hwalk⟩ := ih.mp hrest
        have hi : IsName i := (hentries id ver t ht _ hmem).1
        refine ⟨List.forall_mem_cons.mpr ⟨hi, hnames⟩, ?_⟩
        simp only [View.walk]
        rw [if_neg (by simpa using hi.ne_nil)]
        exact Program.bind_eq_ok.mpr ⟨t, ht, Program.bind_eq_ok.mpr
          ⟨b, (View.lookup_iff_mem (h id ver t ht)).mpr hmem, hwalk⟩⟩
      · rintro ⟨hnames, hwalk⟩
        obtain ⟨hi, hrest⟩ := List.forall_mem_cons.mp hnames
        simp only [View.walk] at hwalk
        rw [if_neg (by simpa using hi.ne_nil)] at hwalk
        obtain ⟨t, ht, hwalk⟩ := Program.bind_eq_ok.mp hwalk
        obtain ⟨b, hb, hwalk⟩ := Program.bind_eq_ok.mp hwalk
        have hmem := (View.lookup_iff_mem (h id ver t ht)).mp hb
        exact ⟨b, View.mem_edges.mpr ⟨t, ht, hmem⟩, ih.mpr ⟨hrest, hwalk⟩⟩

/-- Along an edge the age decreases. -/
theorem View.Ascends.age_lt (hw : w.Ascends) (h : Named w) (hedge : (i, j) ∈ w.edges ver id) :
    w.age j < w.age id := by
  obtain ⟨t, ht, hmem⟩ := View.mem_edges.mp hedge
  obtain ⟨n, hn, _⟩ := View.tableAt_eq_ok.mp ht
  obtain ⟨m, hm, _⟩ := h.node_of_mem ht hmem
  have hlt := hw id ver t ht _ hmem n m hn hm
  have hnew := h.links.nodeAddr _ m hm
  unfold View.age
  rw [hn, hm]
  dsimp only
  omega

end Edges

/-! ## The search -/

/-- A path in the form in which the map has it. -/
def canonicalPath (cs : List Bytes) : Bytes := PathT.toString ⟨[] :: cs⟩

section Search

variable {s : InodeSmi} {ver : SnapshotVer} {cs : List Bytes} {id : ℕ}

/-- How `recursion_check` writes the root and the other directories. -/
def dentryPath (cs : List Bytes) : Bytes := if cs = [] then [slash] else canonicalPath cs

theorem canonicalPath_concat {name : Bytes} (hcs : ∀ c ∈ cs, IsName c) (hname : IsName name) :
    canonicalPath (cs ++ [name]) = canonicalPath cs ++ slash :: name := by
  have hall : ∀ c ∈ cs ++ [name], IsName c := by
    intro c hc
    rcases List.mem_append.mp hc with hc | hc
    · exact hcs c hc
    · exact List.mem_singleton.mp hc ▸ hname
  unfold canonicalPath
  rw [toString_eq_join hcs, toString_eq_join hall, List.flatMap_append]
  simp

/-- The prefix of the names in a directory. -/
theorem dentryPath_prefix (hcs : ∀ c ∈ cs, IsName c) :
    (if dentryPath cs = [slash] then [slash] else dentryPath cs ++ [slash]) =
      canonicalPath cs ++ [slash] := by
  unfold dentryPath
  cases cs with
  | nil => rfl
  | cons c cs =>
      obtain ⟨hc, _⟩ := List.forall_mem_cons.mp hcs
      have hne : canonicalPath (c :: cs) ≠ [slash] := by
        unfold canonicalPath
        rw [toString_eq_join hcs, List.flatMap_cons]
        intro heq
        have hlen := congrArg List.length heq
        have hpos := List.length_pos_iff.mpr hc.ne_nil
        simp at hlen
        exact absurd hlen.1 hc.ne_nil
      rw [if_neg (List.cons_ne_nil _ _), if_neg hne]

/-- The path of a version leads where the path leads in that version. -/
theorem BlocksOk.resolve_version {path : Bytes} (h : BlocksOk s) (hver : IsName ver)
    (hlisted : (s.view.listing ver).isSome) (hpath : path.head? = some slash)
    (hfirst : (comps path).head? ≠ some snapshotEntry) :
    InodeSmi.getInodeIdByPath (makePathWithVersion path ver) s =
      s.view.walk ver rootInodeNumber (comps path) := by
  rw [h.resolve_eq]
  by_cases hcur : ver = curModifiableVer
  · have heq : makePathWithVersion path ver = path := if_pos hcur
    have hlive : liveComps (comps path) = .ok (curModifiableVer, comps path) := by
      cases hcs : comps path with
      | nil => rfl
      | cons head rest =>
          have hhead : head ≠ snapshotEntry := by
            rintro rfl
            exact hfirst (by rw [hcs]; rfl)
          simp only [liveComps, if_neg hhead]
          rfl
    rw [heq, View.resolve_eq_resolveComps (Or.inr hpath), View.resolveComps_of_live hlive, hcur]
  · have habs : (makePathWithVersion path ver).head? = some slash := by
      unfold makePathWithVersion
      rw [if_neg hcur]
      rfl
    rw [View.resolve_eq_resolveComps (Or.inr habs),
      comps_makePathWithVersion hver hcur (Or.inr hpath)]
    unfold View.resolveComps
    simp only [liveComps, if_true, bind, Except.bind, pure, Except.pure]
    split_ifs with hnil
    · rw [hnil.2]
      rfl
    · rfl

theorem comps_canonicalPath_slash (hcs : ∀ c ∈ cs, IsName c) :
    comps (canonicalPath cs ++ [slash]) = cs := by
  rw [comps_append_slash, canonicalPath, toString_eq_join hcs, comps_join hcs]
  simp [comps, PathT.split]

/-- No way from the root starts with `.snapshot`. -/
theorem Exportable.head?_ne (h : Exportable s)
    (hwalk : s.view.walk ver rootInodeNumber cs = .ok id) (hcs : ∀ c ∈ cs, IsName c) :
    cs.head? ≠ some snapshotEntry := by
  have hleads := (View.leads_iff h.sound.names h.entries).mpr ⟨hcs, hwalk⟩
  intro hhead
  obtain ⟨rest, rfl⟩ := List.head?_eq_some_iff.mp hhead
  obtain ⟨j, hedge, _⟩ := LabelledPaths.leads_cons.mp hleads
  obtain ⟨t, ht, hmem⟩ := View.mem_edges.mp hedge
  exact (h.entries _ ver t ht _ hmem).2 rfl rfl

/-- The root is read back at a version: it is empty there, or all tables are. -/
def RootRead (ver : SnapshotVer) (s : InodeSmi) : Prop :=
  s.blockSize + 1 < 2 ^ 64 ∨ ∃ root, s.inodePool.find? rootInodeNumber = some root ∧
    root.val.currentDataSize s.bufferPool ver = .ok 0

theorem Exportable.rootRead_iff (h : Exportable s) (hlisted : (s.view.listing ver).isSome) :
    RootRead ver s ↔ ∃ t, s.view.tableAt rootInodeNumber ver = .ok t := by
  have hnamed := h.sound.toNamed
  have hid := hnamed.listsId_root hlisted
  obtain ⟨n, hn, _⟩ := hnamed.links.live_of_listsId hid
  have hdir := h.rootDir n hn
  obtain ⟨root, hroot, rfl⟩ := view_node_eq_some.mp hn
  have hok := (h.blocks.inode _ root hroot).1
  constructor
  · intro hread
    rcases hnamed.table_or_wrap h.sound.defined hid hn hdir with htable | ⟨hwrap, _⟩
    · exact htable
    rcases hread with hlt | ⟨root', hroot', hempty⟩
    · exact absurd hwrap hlt.ne
    -- the root has no bytes
    obtain rfl := Option.some.inj (hroot.symm.trans hroot')
    rw [hok.currentDataSize_eq] at hempty
    cases hc : root.val.data s.bufferPool ver with
    | none => simp [hc] at hempty
    | some c =>
        rw [hc] at hempty
        obtain rfl := List.length_eq_zero_iff.mp (Except.ok.inj hempty)
        refine ⟨[], ?_⟩
        rw [View.tableAt_of_node hn]
        exact NodeView.table_eq_ok.mpr ⟨hdir, [], hc, fun hne => hne.1 rfl, rfl⟩
  · rintro ⟨t, ht⟩
    by_cases hlt : s.blockSize + 1 < 2 ^ 64
    · exact Or.inl hlt
    -- only an empty root could be read
    rw [View.tableAt_of_node hn] at ht
    obtain ⟨_, c, hc, hword, _⟩ := NodeView.table_eq_ok.mp ht
    have hbound := h.blocks.blockSize_lt
    have hnil : c = [] := by
      by_contra hne
      exact hword ⟨hne, by rw [blockSize_view]; omega⟩
    refine Or.inr ⟨root, hroot, ?_⟩
    rw [hok.currentDataSize_eq, show root.val.data s.bufferPool ver = some c from hc, hnil]
    rfl

/-- Where the root is read back, all directories below it are. -/
theorem Exportable.exists_table (h : Exportable s) (hread : RootRead ver s)
    (hlisted : (s.view.listing ver).isSome)
    (hwalk : s.view.walk ver rootInodeNumber cs = .ok id) {n : NodeView}
    (hn : s.view.node id = some n) (hdir : n.isDentry = true) :
    ∃ t, s.view.tableAt id ver = .ok t := by
  have hnamed := h.sound.toNamed
  have hid : s.view.ListsId ver id := hnamed.walk_listed (hnamed.listsId_root hlisted) hwalk
  rcases hnamed.table_or_wrap h.sound.defined hid hn hdir with htable | ⟨hwrap, _⟩
  · exact htable
  rcases View.walk_start hwalk with rfl | ⟨t, p, ht, hp⟩
  · exact (h.rootRead_iff hlisted).mp hread
  · exact absurd hwrap (View.word_of_tableAt ht (List.ne_nil_of_mem hp))

/-- Where it is not, the search stops at the root. -/
theorem Exportable.export_error (h : Exportable s) (hlisted : (s.view.listing ver).isSome)
    (hread : ¬ RootRead ver s) (fuel : ℕ) :
    InodeSmi.exportAsFilesystemMap (fuel + 1) ver s = .error (.htmpfs .bufferShortOps) := by
  have hnamed := h.sound.toNamed
  have hid := hnamed.listsId_root hlisted
  obtain ⟨n, hn, _⟩ := hnamed.links.live_of_listsId hid
  have hdir := h.rootDir n hn
  have htable : s.view.tableAt rootInodeNumber ver = .error (.htmpfs .bufferShortOps) := by
    rcases hnamed.table_or_wrap h.sound.defined hid hn hdir with htable | ⟨_, herror⟩
    · exact absurd ((h.rootRead_iff hlisted).mpr htable) hread
    · exact herror
  obtain ⟨node, hnode, _, hview, hderef⟩ := deref_of_view (View.deref?_of_node hn)
  have hkind : node.val.isDentry = true := by
    rw [← hdir, ← hview]
    rfl
  have hresolve : InodeSmi.getInodeIdByPath (makePathWithVersion [slash] ver) s =
      .ok rootInodeNumber :=
    h.blocks.resolve_version (h.versions ver hlisted) hlisted rfl (by decide)
  have hopen : DirectoryResolver.new ⟨rootInodeNumber, n.addr⟩ ver s =
      .error (.htmpfs .bufferShortOps) := by
    rw [View.tableAt_of_node hn] at htable
    rw [h.blocks.resolver_new_eq, View.openDir, View.deref?_of_node hn]
    dsimp only
    rw [htable]
    rfl
  have hrec : InodeSmi.recursionCheck ver s (fuel + 1) [[slash]] [] =
      .error (.htmpfs .bufferShortOps) [] := by
    refine Program.Ends.eq_error ?_
    unfold InodeSmi.recursionCheck Program.each InodeSmi.makePathForCurrentDentry
    simp only [Program.ends_bind, if_true]
    refine Program.Ends.reads_ok hresolve ?_
    refine Program.Ends.reads_ok (a := ⟨rootInodeNumber, n.addr⟩) (by rw [getInodeById_eq, hn]) ?_
    refine Program.Ends.reads_ok hderef ?_
    rw [if_pos hkind, Program.ends_bind]
    exact Program.Ends.reads_error hopen ⟨rfl, rfl⟩
  unfold InodeSmi.exportAsFilesystemMap
  rw [hrec]
  rfl

/-- One directory, or a file. -/
theorem Exportable.ends_makePath (h : Exportable s) (hread : RootRead ver s)
    (hlisted : (s.view.listing ver).isSome) (hcs : ∀ c ∈ cs, IsName c)
    (hwalk : s.view.walk ver rootInodeNumber cs = .ok id)
    (acc : List Bytes) :
    Ends (InodeSmi.makePathForCurrentDentry ver (canonicalPath cs ++ [slash]) s) acc
      (fun ret acc' => ret = (s.view.edges ver id).map (fun e => canonicalPath (cs ++ [e.1])) ∧
        acc' = acc ++ ret) (fun _ _ => False) := by
  have hnamed := h.sound.toNamed
  have hid : s.view.ListsId ver id := hnamed.walk_listed (hnamed.listsId_root hlisted) hwalk
  obtain ⟨n, hn, _⟩ := hnamed.links.live_of_listsId hid
  obtain ⟨node, hnode, _, hview, hderef⟩ := deref_of_view (View.deref?_of_node hn)
  have hkind : node.val.isDentry = n.isDentry := by rw [← hview]; rfl
  have hcomps := comps_canonicalPath_slash hcs
  have habs : (canonicalPath cs ++ [slash]).head? = some slash := by
    unfold canonicalPath
    rw [toString_eq_join hcs]
    cases cs <;> rfl
  have hresolve : InodeSmi.getInodeIdByPath
      (makePathWithVersion (canonicalPath cs ++ [slash]) ver) s = .ok id := by
    rw [h.blocks.resolve_version (h.versions ver hlisted) hlisted habs
      (by rw [hcomps]; exact h.head?_ne hwalk hcs), hcomps, hwalk]
  unfold InodeSmi.makePathForCurrentDentry
  rw [Program.ends_bind]
  refine Program.Ends.reads_ok hresolve ?_
  rw [Program.ends_bind]
  refine Program.Ends.reads_ok (a := ⟨id, n.addr⟩) (by rw [getInodeById_eq, hn]) ?_
  rw [Program.ends_bind]
  refine Program.Ends.reads_ok hderef ?_
  by_cases hdir : n.isDentry = true
  · obtain ⟨t, ht⟩ := h.exists_table hread hlisted hwalk hn hdir
    have hopen := h.blocks.resolver_new_of_table hn (View.tableAt_of_node hn ▸ ht)
    rw [if_pos (hkind.trans hdir), Program.ends_bind]
    refine Program.Ends.reads_ok hopen ?_
    rw [Program.ends_bind, Program.ends_modify]
    refine ⟨?_, rfl⟩
    rw [View.edges_of_table ht, List.map_map]
    refine List.map_congr_left fun p hp => ?_
    have hname := (h.entries id ver t ht p hp).1
    show canonicalPath cs ++ [slash] ++ p.pathname = canonicalPath (cs ++ [p.pathname])
    rw [canonicalPath_concat hcs hname, List.append_assoc, List.singleton_append]
  · have hfile : s.view.tableAt id ver = .error (.htmpfs .notADirectory) := by
      rw [View.tableAt_of_node hn, NodeView.table, if_neg hdir]
      rfl
    rw [if_neg (by rwa [hkind]), Program.ends_pure, View.edges_of_error hfile]
    exact ⟨rfl, (List.append_nil _).symm⟩

/-- The search finds what is below the directories it is started in. -/
theorem Exportable.ends_recursionCheck (h : Exportable s) (hread : RootRead ver s)
    (hlisted : (s.view.listing ver).isSome) {n : ℕ} :
    ∀ (dirs : List (List Bytes × ℕ)) (acc : List Bytes),
      (∀ d ∈ dirs, (∀ c ∈ d.1, IsName c) ∧ s.view.walk ver rootInodeNumber d.1 = .ok d.2 ∧
        s.view.age d.2 < n) →
      Ends (InodeSmi.recursionCheck ver s (n + 1) (dirs.map fun d => dentryPath d.1)) acc
        (fun _ acc' => acc' = acc ++ dirs.flatMap fun d =>
          (LabelledPaths.below (s.view.edges ver) n d.2).map fun p => canonicalPath (d.1 ++ p))
        (fun _ _ => False) := by
  induction n with
  | zero =>
      intro dirs acc hdirs
      have hnil : dirs = [] := List.eq_nil_iff_forall_not_mem.mpr fun d hd =>
        absurd (hdirs d hd).2.2 (Nat.not_lt_zero _)
      subst hnil
      unfold InodeSmi.recursionCheck
      simp [Program.each]
  | succ n ih =>
      intro dirs acc hdirs
      unfold InodeSmi.recursionCheck
      rw [Program.each_map]
      refine Program.Ends.each_append fun d hd acc => ?_
      obtain ⟨hcs, hwalk, hage⟩ := hdirs d hd
      -- the subdirectories and files of one directory
      have hstart : (if dentryPath d.1 = [slash] then do
            let sub ← InodeSmi.makePathForCurrentDentry ver [slash] s
            InodeSmi.recursionCheck ver s (n + 1) sub
          else do
            let sub ← InodeSmi.makePathForCurrentDentry ver (dentryPath d.1 ++ [slash]) s
            InodeSmi.recursionCheck ver s (n + 1) sub) = (do
          let sub ← InodeSmi.makePathForCurrentDentry ver (canonicalPath d.1 ++ [slash]) s
          InodeSmi.recursionCheck ver s (n + 1) sub) := by
        rw [← dentryPath_prefix hcs]
        split_ifs <;> rfl
      have hedge : ∀ e ∈ s.view.edges ver d.2, IsName e.1 ∧
          s.view.walk ver rootInodeNumber (d.1 ++ [e.1]) = .ok e.2 ∧ s.view.age e.2 < n := by
        rintro ⟨i, j⟩ he
        obtain ⟨t, ht, hmem⟩ := View.mem_edges.mp he
        have hi : IsName i := (h.entries _ ver t ht _ hmem).1
        have hage' := h.ascends.age_lt h.sound.toNamed he
        refine ⟨hi, ?_, hage'.trans_le (Nat.le_of_lt_succ hage)⟩
        rw [View.walk_append, hwalk]
        exact (View.walk_singleton hi.ne_nil).mpr
          ⟨t, ht, (View.lookup_iff_mem (h.sound.names _ ver t ht)).mpr hmem⟩
      dsimp only
      rw [hstart, Program.ends_bind]
      refine (h.ends_makePath hread hlisted hcs hwalk acc).mono ?_ fun _ _ hfalse => hfalse
      rintro ret acc' ⟨rfl, rfl⟩
      have hsub : (s.view.edges ver d.2).map (fun e => canonicalPath (d.1 ++ [e.1])) =
          ((s.view.edges ver d.2).map fun e => (d.1 ++ [e.1], e.2)).map
            fun d => dentryPath d.1 := by
        rw [List.map_map]
        refine List.map_congr_left fun e _ => ?_
        exact (if_neg (by simp)).symm
      rw [hsub]
      refine (ih _ _ ?_).mono ?_ fun _ _ hfalse => hfalse
      · intro d' hd'
        obtain ⟨e, he, rfl⟩ := List.mem_map.mp hd'
        obtain ⟨hi, hwalk', hage'⟩ := hedge e he
        refine ⟨fun c hc => ?_, hwalk', hage'⟩
        rcases List.mem_append.mp hc with hc | hc
        · exact hcs c hc
        · exact List.mem_singleton.mp hc ▸ hi
      · rintro _ acc' rfl
        rw [← hsub, LabelledPaths.below_succ, List.map_append, List.map_map, List.map_flatMap,
          List.flatMap_map, List.append_assoc]
        simp only [List.map_map, Function.comp_def, List.append_assoc, List.singleton_append]

/-- A path that the map has to have: canonical, not the root, not below `.snapshot`, and found in
the version. -/
structure ExportedPath (s : InodeSmi) (ver : SnapshotVer) (path : Bytes) : Prop where
  canonical : (PathT.ofString path).toString = path
  nonroot : (PathT.ofString path).size ≠ 1
  first : (PathT.ofString path).pathname.tail.head? ≠ some snapshotEntry
  resolves : ∃ id, InodeSmi.getInodeIdByPath (makePathWithVersion path ver) s = .ok id

theorem comps_canonicalPath (hcs : ∀ c ∈ cs, IsName c) : comps (canonicalPath cs) = cs := by
  rw [canonicalPath, toString_eq_join hcs, comps_join hcs]

theorem head?_canonicalPath (hcs : ∀ c ∈ cs, IsName c) (hne : cs ≠ []) :
    (canonicalPath cs).head? = some slash := by
  rw [canonicalPath, toString_eq_join hcs]
  cases cs with
  | nil => exact absurd rfl hne
  | cons c cs => rfl

theorem Exportable.exportedPath_iff (h : Exportable s) (hlisted : (s.view.listing ver).isSome)
    {path : Bytes} : ExportedPath s ver path ↔
      ∃ cs, (cs ≠ [] ∧ ∃ id, LabelledPaths.Leads (s.view.edges ver) rootInodeNumber cs id) ∧
        canonicalPath cs = path := by
  have hver := h.versions ver hlisted
  constructor
  · rintro ⟨hcanonical, hnonroot, hfirst, id, hid⟩
    have hcs : ∀ c ∈ comps path, IsName c := isName_of_mem_comps
    have heq : canonicalPath (comps path) = path := by
      rw [PathT.toString, PathT.pathname_ofString] at hcanonical
      exact hcanonical
    have hne : comps path ≠ [] := by
      intro hnil
      rw [PathT.size, PathT.pathname_ofString, hnil] at hnonroot
      exact hnonroot rfl
    rw [PathT.pathname_ofString, List.tail_cons] at hfirst
    have habs : path.head? = some slash := heq ▸ head?_canonicalPath hcs hne
    rw [h.blocks.resolve_version hver hlisted habs hfirst] at hid
    exact ⟨comps path, ⟨hne, id, (View.leads_iff h.sound.names h.entries).mpr ⟨hcs, hid⟩⟩, heq⟩
  · rintro ⟨cs, ⟨hne, id, hleads⟩, rfl⟩
    obtain ⟨hcs, hwalk⟩ := (View.leads_iff h.sound.names h.entries).mp hleads
    have hfirst := h.head?_ne hwalk hcs
    have hcomps := comps_canonicalPath hcs
    refine ⟨?_, ?_, ?_, id, ?_⟩
    · rw [PathT.toString, PathT.pathname_ofString, hcomps]
      rfl
    · rw [PathT.size, PathT.pathname_ofString, hcomps]
      simpa using hne
    · rwa [PathT.pathname_ofString, hcomps]
    · rw [h.blocks.resolve_version hver hlisted (head?_canonicalPath hcs hne) (hcomps.symm ▸ hfirst),
        hcomps, hwalk]

/-- The map is found after finitely many steps, and it has every path of the version once and
nothing else. -/
def ExportsAll (ver : SnapshotVer) (s : InodeSmi) : Prop :=
  ∃ filesystemMap depth,
    (∀ fuel ≥ depth, InodeSmi.exportAsFilesystemMap fuel ver s = .ok filesystemMap) ∧
    ∀ path, (ExportedPath s ver path → filesystemMap.count path = 1) ∧
      (¬ ExportedPath s ver path → path ∉ filesystemMap)

theorem Exportable.exportsAll (h : Exportable s) (hread : RootRead ver s)
    (hlisted : (s.view.listing ver).isSome) : ExportsAll ver s := by
  have hrank : ∀ id, ∀ e ∈ s.view.edges ver id, s.view.age e.2 < s.view.age id :=
    fun _ _ he => h.ascends.age_lt h.sound.toNamed he
  refine ⟨(LabelledPaths.below (s.view.edges ver) (s.view.age rootInodeNumber + 1)
    rootInodeNumber).map canonicalPath, s.view.age rootInodeNumber + 2, ?_, fun path => ?_⟩
  · intro fuel hfuel
    obtain ⟨n, rfl⟩ : ∃ n, fuel = n + 1 := ⟨fuel - 1, by omega⟩
    have hn : s.view.age rootInodeNumber < n := by omega
    have hstart : ∀ d ∈ [(([] : List Bytes), rootInodeNumber)], (∀ c ∈ d.1, IsName c) ∧
        s.view.walk ver rootInodeNumber d.1 = .ok d.2 ∧ s.view.age d.2 < n := by
      intro d hd
      rw [List.mem_singleton.mp hd]
      exact ⟨by simp, rfl, hn⟩
    have hrec : InodeSmi.recursionCheck ver s (n + 1) [[slash]] [] = .ok ()
        ((LabelledPaths.below (s.view.edges ver) n rootInodeNumber).map canonicalPath) := by
      refine Program.Ends.eq_ok ?_
      refine (h.ends_recursionCheck hread hlisted _ [] hstart).mono ?_ fun _ _ hfalse => hfalse
      rintro _ filesystemMap rfl
      exact ⟨rfl, by simp⟩
    unfold InodeSmi.exportAsFilesystemMap
    rw [hrec, LabelledPaths.below_eq hrank hn (Nat.lt_succ_self _)]
    rfl
  · have hmem : path ∈ (LabelledPaths.below (s.view.edges ver) (s.view.age rootInodeNumber + 1)
        rootInodeNumber).map canonicalPath ↔ ExportedPath s ver path := by
      rw [h.exportedPath_iff hlisted, List.mem_map]
      refine exists_congr fun cs => and_congr_left fun _ => ?_
      exact LabelledPaths.mem_below hrank (Nat.lt_succ_self _)
    refine ⟨fun hpath => ?_, fun hpath => fun hin => hpath (hmem.mp hin)⟩
    refine List.count_eq_one_of_mem ?_ (hmem.mpr hpath)
    refine (LabelledPaths.nodup_below fun id => View.nodup_labels h.sound.names).map_on ?_
    intro cs hcs cs' hcs' heq
    have hnames : ∀ cs ∈ LabelledPaths.below (s.view.edges ver) (s.view.age rootInodeNumber + 1)
        rootInodeNumber, ∀ c ∈ cs, IsName c := by
      intro cs hcs
      obtain ⟨_, id, hleads⟩ :=
        (LabelledPaths.mem_below hrank (Nat.lt_succ_self _)).mp hcs
      exact ((View.leads_iff h.sound.names h.entries).mp hleads).1
    rw [← comps_canonicalPath (hnames cs hcs), heq, comps_canonicalPath (hnames cs' hcs')]

/-- In runs of the interface that enter fitting names and rename nothing, the map of a version is
found and complete exactly when the root is read back there. -/
theorem export_complete_iff {limits : PoolLimits} {blockSize : ℕ} (hpos : 0 < blockSize)
    (hword : blockSize < 2 ^ 64)
    (hrun : Relation.ReflTransGen (SmiStepWith fun _ op => op.Exports)
      (InodeSmi.new limits blockSize) s)
    (hlisted : s.snapshotVersionList[ver]?.isSome) : ExportsAll ver s ↔ RootRead ver s := by
  have h := exportable_of_run hpos hword hrun
  constructor
  · rintro ⟨filesystemMap, depth, hfound, _⟩
    by_contra hread
    have hthrows := h.export_error hlisted hread depth
    rw [hfound (depth + 1) (Nat.le_succ depth)] at hthrows
    simp at hthrows
  · exact fun hread => h.exportsAll hread hlisted

theorem export_complete_iff_sampleSmi : ExportsAll curModifiableVer sampleSmi := by
  have hrun : Relation.ReflTransGen (SmiStepWith fun _ op => op.Exports)
      (InodeSmi.new .libstdcxx 512) sampleSmi :=
    Relation.ReflTransGen.single ⟨.makeChild 0 [97] false, ⟨by decide, by decide, by decide⟩,
      Program.leaves_exec (a := ()) (by decide +kernel)⟩
  have hlisted : sampleSmi.snapshotVersionList[curModifiableVer]?.isSome := by decide +kernel
  have hword : sampleSmi.blockSize + 1 < 2 ^ 64 := by decide +kernel
  exact (export_complete_iff (by decide) (by decide) hrun hlisted).mpr (Or.inl hword)

/-- A file in the root under the largest block size. -/
def wrappedFile : InodeSmi := Program.exec (SmiOp.run (.makeChild 0 [97] false)) wrappedSmi

/-- With the largest block size no map is found once the root has an entry. -/
theorem not_export_complete : ¬ ∀ blockSize s ver, 0 < blockSize → blockSize < 2 ^ 64 →
    Relation.ReflTransGen (SmiStepWith fun _ op => op.Exports)
      (InodeSmi.new .libstdcxx blockSize) s →
    (s.snapshotVersionList[ver]?).isSome → ExportsAll ver s := by
  intro hall
  have hrun : Relation.ReflTransGen (SmiStepWith fun _ op => op.Exports)
      (InodeSmi.new .libstdcxx (2 ^ 64 - 1)) wrappedFile :=
    Relation.ReflTransGen.single ⟨.makeChild 0 [97] false, ⟨by decide, by decide, by decide⟩,
      Program.leaves_exec (a := ()) (by decide +kernel)⟩
  have hlisted : (wrappedFile.snapshotVersionList[curModifiableVer]?).isSome := by decide +kernel
  have hunread : ¬ RootRead curModifiableVer wrappedFile := by
    have hsize : (wrappedFile.inodePool.find? rootInodeNumber).map (fun root =>
        root.val.currentDataSize wrappedFile.bufferPool curModifiableVer) ≠ some (.ok 0) := by
      decide +kernel
    rintro (hlt | ⟨root, hroot, hzero⟩)
    · exact absurd hlt (by decide +kernel)
    · rw [hroot, Option.map_some, hzero] at hsize
      exact hsize rfl
  generalize wrappedFile = s at hrun hlisted hunread
  obtain ⟨filesystemMap, depth, hfound, _⟩ :=
    hall (2 ^ 64 - 1) s curModifiableVer (by decide) (by decide) hrun hlisted
  have hexports := exportable_of_run (by decide) (by decide) hrun
  have hthrows := hexports.export_error hlisted hunread depth
  rw [hfound (depth + 1) (Nat.le_succ depth)] at hthrows
  simp at hthrows

/-- The map of the sample. -/
example : InodeSmi.exportAsFilesystemMap 3 curModifiableVer sampleSmi = .ok [[47, 97]] := by
  decide +kernel

end Search

end Htmpfs
