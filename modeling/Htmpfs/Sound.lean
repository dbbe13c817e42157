import Mathlib
import Htmpfs.Links
import Htmpfs.DirectoryTable

/-!
# Sound directories

`Sound` ties the directory tables to the version lists: every table of every
version can be read, its names differ, what it names is listed by the same
version, and no inode is named twice by the current tables.
-/

namespace Htmpfs

section Tables

variable {w : View} {bs id j : ℕ} {ver u : SnapshotVer} {n : NodeView} {t t' : List PathPack}

theorem NodeView.table_eq_ok : n.table bs ver = .ok t ↔
    n.isDentry = true ∧ ∃ c, n.data ver = some c ∧ ¬ (c ≠ [] ∧ bs + 1 = 2 ^ 64) ∧
      decodeTable c = .ok t := by
  unfold table
  split_ifs with hdir
  · simp only [Program.bind_eq_ok, toString_eq_ok, hdir, and_assoc, true_and]
  · simp [hdir]

/-- An inode without bytes at a version has no table there. -/
theorem NodeView.table_of_none (h : n.data ver = none) :
    ∃ e, n.table bs ver = .error e ∧ e ≠ .undefined := by
  unfold table toString
  rw [h]
  split_ifs
  · exact ⟨_, rfl, by simp⟩
  · exact ⟨_, rfl, by simp⟩

theorem NodeView.table_wellFormed (h : n.table bs ver = .ok t) :
    ∀ p ∈ t, p.WellFormed ∧ NameFits p.pathname := by
  obtain ⟨_, c, _, _, hc⟩ := table_eq_ok.mp h
  exact decodeTable_wellFormed hc

namespace View

theorem tableAt_of_node (hn : w.node id = some n) : w.tableAt id ver = n.table w.blockSize ver := by
  unfold tableAt
  rw [hn]

theorem tableAt_of_none (hn : w.node id = none) : w.tableAt id ver = .error .outOfRange := by
  unfold tableAt
  rw [hn]
  rfl

theorem tableAt_congr {w' : View} (hbs : w'.blockSize = w.blockSize)
    (h : w'.node j = w.node j) : w'.tableAt j ver = w.tableAt j ver := by
  unfold tableAt
  rw [h, hbs]

theorem tableAt_eq_ok : w.tableAt id ver = .ok t ↔
    ∃ n, w.node id = some n ∧ n.table w.blockSize ver = .ok t := by
  cases hn : w.node id with
  | none => simp [tableAt_of_none hn]
  | some n => simp [tableAt_of_node hn]

theorem tableAt_wellFormed (h : w.tableAt id ver = .ok t) :
    ∀ p ∈ t, p.WellFormed ∧ NameFits p.pathname := by
  obtain ⟨n, _, ht⟩ := tableAt_eq_ok.mp h
  exact n.table_wellFormed ht

/-- A directory that has bytes at a version has a table there, or it cannot be read. -/
theorem tableAt_of_data {c : Bytes} (hn : w.node id = some n) (hdir : n.isDentry = true)
    (hc : n.data ver = some c) :
    w.tableAt id ver = .error .undefined ∨ (∃ t, w.tableAt id ver = .ok t) ∨
      w.blockSize + 1 = 2 ^ 64 ∧ w.tableAt id ver = .error (.htmpfs .bufferShortOps) := by
  by_cases hwrap : c ≠ [] ∧ w.blockSize + 1 = 2 ^ 64
  · refine Or.inr (Or.inr ⟨hwrap.2, ?_⟩)
    rw [tableAt_of_node hn, NodeView.table, if_pos hdir, NodeView.toString, hc]
    dsimp only
    rw [if_pos hwrap]
    rfl
  have htable : w.tableAt id ver = decodeTable c := by
    rw [tableAt_of_node hn, NodeView.table, if_pos hdir,
      NodeView.toString_eq_ok.mpr ⟨hc, hwrap⟩]
    rfl
  cases ht : decodeTable c with
  | ok t => exact Or.inr (Or.inl ⟨t, htable.trans ht⟩)
  | error e =>
      obtain rfl := decodeTable_error ht
      exact Or.inl (htable.trans ht)

/-- What a resolver finds of a table that was saved. -/
def savedTable (w : View) (t : List PathPack) : Except Exit (List PathPack) :=
  if w.blockSize + 1 = 2 ^ 64 then .error (.htmpfs .bufferShortOps)
  else if ∀ p ∈ t, NameFits p.pathname then .ok t
  else .error .undefined

theorem savedTable_eq_ok : w.savedTable t = .ok t' ↔
    w.blockSize + 1 ≠ 2 ^ 64 ∧ (∀ p ∈ t, NameFits p.pathname) ∧ t = t' := by
  unfold savedTable
  split_ifs with hwrap hfits
  · exact ⟨fun h => absurd h (by simp), fun h => absurd hwrap h.1⟩
  · exact ⟨fun h => ⟨hwrap, hfits, Except.ok.inj h⟩, fun h => congrArg _ h.2.2⟩
  · exact ⟨fun h => absurd h (by simp), fun h => absurd h.2.1 hfits⟩

theorem savedTable_ok (hword : w.blockSize + 1 ≠ 2 ^ 64) (hfits : ∀ p ∈ t, NameFits p.pathname) :
    w.savedTable t = .ok t := savedTable_eq_ok.mpr ⟨hword, hfits, rfl⟩

/-- Only a name that is too long makes a saved table undefined. -/
theorem savedTable_defined (hfits : ∀ p ∈ t, NameFits p.pathname) :
    w.savedTable t ≠ .error .undefined := by
  unfold savedTable
  rw [if_pos hfits]
  split_ifs <;> simp

/-- An entry found in a table was read back, so that tables can be. -/
theorem word_of_tableAt (ht : w.tableAt id ver = .ok t) (hne : t ≠ []) :
    w.blockSize + 1 ≠ 2 ^ 64 := by
  obtain ⟨n, _, hn⟩ := tableAt_eq_ok.mp ht
  obtain ⟨_, c, _, hword, hc⟩ := NodeView.table_eq_ok.mp hn
  intro hwrap
  refine hword ⟨?_, hwrap⟩
  rintro rfl
  exact hne (Except.ok.inj hc).symm

/-- A new table in a directory. -/
theorem tableAt_setTable (ht : w.tableAt id curModifiableVer = .ok t)
    (hnew : ∀ p ∈ t', p.WellFormed) (hsize : (encodeTable t').length < 2 ^ 64) :
    (w.setCurrent id fun _ => encodeTable t').tableAt j u =
      if j = id ∧ u = curModifiableVer then w.savedTable t' else w.tableAt j u := by
  obtain ⟨n, hn, ht⟩ := tableAt_eq_ok.mp ht
  obtain ⟨hdir, c, hc, _⟩ := NodeView.table_eq_ok.mp ht
  by_cases hj : j = id
  · subst hj
    have hn' : (w.setCurrent j fun _ => encodeTable t').node j =
        some (n.setCurrent fun _ => encodeTable t') := by
      rw [node_setCurrent, if_pos rfl, hn]
      rfl
    rw [tableAt_of_node hn', tableAt_of_node hn]
    by_cases hu : u = curModifiableVer
    · subst hu
      have hdir' : (n.setCurrent fun _ => encodeTable t').isDentry = true := hdir
      have hdata : (n.setCurrent fun _ => encodeTable t').data curModifiableVer =
          some (encodeTable t') := by
        rw [NodeView.data_setCurrent_self, hc]
        rfl
      rw [if_pos ⟨rfl, rfl⟩, savedTable, ← decodeTable_encodeTable hnew hsize, NodeView.table,
        if_pos hdir', NodeView.toString, hdata, blockSize_setCurrent]
      dsimp only
      by_cases hwrap : w.blockSize + 1 = 2 ^ 64
      · rw [if_pos ⟨encodeTable_ne_nil, hwrap⟩, if_pos hwrap]
        rfl
      · rw [if_neg fun h => hwrap h.2, if_neg hwrap]
        exact pure_bind _ _
    · rw [if_neg (by simp [hu])]
      exact NodeView.table_congr rfl (NodeView.data_setCurrent_of_ne hu)
  · rw [if_neg (by simp [hj])]
    exact tableAt_congr rfl (by rw [node_setCurrent, if_neg hj])

/-- The bytes of a regular file are no table. -/
theorem tableAt_rewrites {g : NodeView → NodeView} (hn : w.node id = some n)
    (hfile : n.isDentry = false) (hg : n.Rewrites (g n)) :
    (w.update id fun n => some (g n)).tableAt j u = w.tableAt j u := by
  by_cases hj : j = id
  · subst hj
    have hn' : (w.update j fun n => some (g n)).node j = some (g n) := by
      rw [node_update, if_pos rfl, hn]
      rfl
    have hfile' : ¬ (g n).isDentry = true := by simp [hg.isDentry, hfile]
    rw [tableAt_of_node hn', tableAt_of_node hn, NodeView.table, NodeView.table, if_neg hfile',
      if_neg (by simp [hfile])]
  · exact tableAt_congr rfl (by rw [node_update, if_neg hj])

theorem tableAt_setCurrent {f : Bytes → Bytes} (hn : w.node id = some n)
    (hfile : n.isDentry = false) : (w.setCurrent id f).tableAt j u = w.tableAt j u :=
  tableAt_rewrites (g := fun n => n.setCurrent f) hn hfile NodeView.rewrites_setCurrent

/-- An inode that loses a link keeps its tables, or is gone. -/
theorem tableAt_dropLink {i : ℕ} : (w.dropLink i).tableAt j u = w.tableAt j u ∨
    j = i ∧ (w.dropLink i).tableAt j u = .error .outOfRange := by
  by_cases hj : j = i
  · subst hj
    cases hnode : (w.dropLink j).node j with
    | none => exact Or.inr ⟨rfl, tableAt_of_none hnode⟩
    | some n' =>
        left
        rw [node_dropLink, if_pos rfl] at hnode
        obtain ⟨n, hn, hdrop⟩ := Option.bind_eq_some_iff.mp hnode
        rw [tableAt_of_node (w := w.dropLink j) (by rw [node_dropLink, if_pos rfl, hnode]),
          tableAt_of_node hn]
        unfold NodeView.dropLink at hdrop
        split_ifs at hdrop
        obtain rfl := Option.some.inj hdrop
        rfl
  · exact Or.inl (tableAt_congr rfl (by rw [node_dropLink, if_neg hj]))

end View

end Tables

/-! ## The tables after a step -/

section Steps

variable {w w' : View} {parent id j : ℕ} {name : Bytes} {isDir : Bool} {ver u : SnapshotVer}

theorem mem_append_wellFormed {t : List PathPack} (ht : ∀ p ∈ t, p.WellFormed ∧ NameFits p.pathname)
    (hname : 0 ∉ name) (hid : id < 2 ^ 64) : ∀ p ∈ t ++ [⟨name, id⟩], p.WellFormed := by
  intro p hp
  rcases List.mem_append.mp hp with hp | hp
  · exact (ht p hp).1
  · rw [List.mem_singleton.mp hp]
    exact ⟨hname, hid⟩

theorem Links.makesChild {clean : Prop} (h : Links clean w)
    (hstep : w.MakesChild parent name isDir id w') : Links clean w' := by
  rcases hstep with ⟨n, t, list, hname, hparent, htable, hnew, hfree, hid, hsize, hlist⟩
  exact (h.addNode hfree hlist).setCurrent (i := parent)

/-- The new inode, under its entry, is all that the lists gain. -/
theorem View.MakesChild.lists_iff (hstep : w.MakesChild parent name isDir id w')
    (u : SnapshotVer) (e : InodeResult) :
    w'.Lists u e ↔ w.Lists u e ∨ u = curModifiableVer ∧ e = ⟨id, ⟨id, w.nextAddr⟩⟩ := by
  rcases hstep with ⟨n, t, list, hname, hparent, htable, hnew, hfree, hid, hsize, hlist⟩
  unfold View.Lists
  rw [View.listing_setListing]
  split_ifs with hu
  · subst hu
    simp [hlist]
  · simp [hu]

/-- All names of a table fit with the one appended to it. -/
theorem forall_append_fits {t : List PathPack} (name : Bytes) (id : ℕ)
    (ht : ∀ p ∈ t, p.WellFormed ∧ NameFits p.pathname) :
    (∀ p ∈ t ++ [⟨name, id⟩], NameFits p.pathname) ↔ NameFits name := by
  rw [List.forall_mem_append]
  exact ⟨fun h => h.2 _ (List.mem_singleton.mpr rfl), fun h =>
    ⟨fun p hp => (ht p hp).2, fun p hp => List.mem_singleton.mp hp ▸ h⟩⟩

theorem View.savedTable_append {t : List PathPack} (hword : w.blockSize + 1 ≠ 2 ^ 64)
    (ht : w.tableAt parent ver = .ok t) : w.savedTable (t ++ [⟨name, id⟩]) =
      if NameFits name then .ok (t ++ [⟨name, id⟩]) else .error .undefined := by
  unfold View.savedTable
  simp only [if_neg hword, forall_append_fits name id (View.tableAt_wellFormed ht)]

/-- After `make_child_dentry_under_parent`. -/
theorem View.MakesChild.tables (hstep : w.MakesChild parent name isDir id w') :
    ∃ t, w.tableAt parent curModifiableVer = .ok t ∧ (∀ p ∈ t, p.pathname ≠ name) ∧
      w.node id = none ∧
      (∀ j u, j ≠ id → w'.tableAt j u =
        if j = parent ∧ u = curModifiableVer then w.savedTable (t ++ [⟨name, id⟩])
        else w.tableAt j u) ∧
      (∀ u, w'.tableAt id u = .ok [] ∨ ∃ e, w'.tableAt id u = .error e ∧ e ≠ .undefined) := by
  rcases hstep with ⟨n, t, list, hname, hparent, htable, hnew, hfree, hid, hsize, hlist⟩
  have hne : id ≠ parent := by
    rintro rfl
    rw [hfree] at hparent
    simp at hparent
  have ht : w.tableAt parent curModifiableVer = .ok t := by rw [View.tableAt_of_node hparent, htable]
  have hsame : ∀ j u, j ≠ id → (w.addNode id isDir).tableAt j u = w.tableAt j u := fun j u hj =>
    View.tableAt_congr rfl (by rw [View.node_addNode, if_neg hj])
  have hwell := mem_append_wellFormed (View.tableAt_wellFormed ht) (not_mem_zero_of_nameChar hname)
    hid
  refine ⟨t, ht, hnew, hfree, fun j u hj => ?_, fun u => ?_⟩
  · rw [View.tableAt_congr (w := (w.addNode id isDir).setCurrent parent _) (by rfl) (by rfl),
      View.tableAt_setTable ((hsame parent _ hne.symm).trans ht) hwell hsize, hsame j u hj]
    rfl
  · rw [View.tableAt_congr (w := (w.addNode id isDir).setCurrent parent _) (by rfl) (by rfl),
      View.tableAt_setTable ((hsame parent _ hne.symm).trans ht) hwell hsize,
      if_neg (by simp [hne]), View.tableAt_of_node (w := w.addNode id isDir)
        (by rw [View.node_addNode, if_pos rfl])]
    by_cases hdir : isDir = true
    · by_cases hu : u = curModifiableVer
      · left
        simp [NodeView.table, NodeView.toString, hdir, hu, decodeTable, bind, Except.bind, pure,
          Except.pure]
      · right
        exact NodeView.table_of_none (if_neg hu)
    · right
      exact ⟨.htmpfs .notADirectory, by simp [NodeView.table, hdir, throw, throwThe,
        MonadExceptOf.throw], by simp⟩

/-- After `remove_child_dentry_under_parent`. -/
theorem View.RemovesChild.tables {clean : Prop} (hstep : w.RemovesChild parent name w')
    (h : Links clean w) : ∃ t p target, w.tableAt parent curModifiableVer = .ok t ∧
      (t.find? fun i => i.pathname = name) = some p ∧ w.node p.inodeId = some target ∧
      (∀ q, w.tableAt p.inodeId curModifiableVer = .ok q → q = []) ∧ p.inodeId ≠ parent ∧
      (∀ j u, (w'.tableAt j u = if j = parent ∧ u = curModifiableVer then
          .ok (t.eraseP fun i => i.pathname = name) else w.tableAt j u) ∨
        j = p.inodeId ∧ w'.tableAt j u = .error .outOfRange) ∧
      ∀ u e, w'.Lists u e ↔ w.Lists u e ∧ (u = curModifiableVer → e.id ≠ p.inodeId) := by
  rcases hstep with ⟨n, t, p, target, list, hparent, htable, hp, htarget, hempty, hsize, hlist⟩
  have ht : w.tableAt parent curModifiableVer = .ok t := by rw [View.tableAt_of_node hparent, htable]
  have hnil : ∀ q, w.tableAt p.inodeId curModifiableVer = .ok q → q = [] := by
    intro q hq
    rw [View.tableAt_of_node htarget] at hq
    rw [hempty (NodeView.table_eq_ok.mp hq).1] at hq
    exact (Except.ok.inj hq).symm
  have hfound : t ≠ [] := List.ne_nil_of_mem (List.mem_of_find?_eq_some hp)
  have hne : p.inodeId ≠ parent := fun hid => hfound (hnil t (by rw [hid, ht]))
  have hwell : ∀ q ∈ t.eraseP fun i => i.pathname = name, q.WellFormed ∧ NameFits q.pathname :=
    fun q hq => View.tableAt_wellFormed ht q (List.mem_of_mem_eraseP hq)
  refine ⟨t, p, target, ht, hp, htarget, hnil, hne, fun j u => ?_, fun u e => ?_⟩
  · rcases View.tableAt_dropLink (i := p.inodeId) (j := j) (u := u)
      (w := (w.setCurrent parent fun _ =>
        encodeTable (t.eraseP fun i => i.pathname = name)).setListing curModifiableVer
          (some (list.eraseP fun i => i.id = p.inodeId))) with hsame | hgone
    · left
      rw [hsame, View.tableAt_congr (w := w.setCurrent parent _) (by rfl) (by rfl),
        View.tableAt_setTable ht (fun q hq => (hwell q hq).1) hsize,
        View.savedTable_ok (View.word_of_tableAt ht hfound) fun q hq => (hwell q hq).2]
    · exact Or.inr hgone
  · unfold View.Lists
    rw [View.listing_dropLink, View.listing_setListing]
    split_ifs with hu
    · subst hu
      simp only [hlist, Option.some.injEq, exists_eq_left', true_imp_iff]
      exact mem_eraseP_key (h.nodup _ list hlist)
    · exact (and_iff_left fun hcur => absurd hcur hu).symm

/-- The inode that loses its name is not the root, and it is a listed one where that matters. -/
theorem Links.removesChild {clean : Prop} (h : Links clean w)
    (hstep : w.RemovesChild parent name w')
    (htarget : ∀ t p n, w.tableAt parent curModifiableVer = .ok t →
      (t.find? fun i => i.pathname = name) = some p → w.node p.inodeId = some n →
      p.inodeId ≠ rootInodeNumber ∧ (clean → w.Lists curModifiableVer (entryOf p.inodeId n))) :
    Links clean w' := by
  rcases hstep with ⟨n, t, p, target, list, hparent, htable, hp, hn, hempty, hsize, hlist⟩
  obtain ⟨hroot, hlisted⟩ := htarget t p target (by rw [View.tableAt_of_node hparent, htable]) hp hn
  have hne : p.inodeId ≠ parent := by
    intro hid
    rw [hid, hparent] at hn
    obtain rfl := Option.some.inj hn
    have hmem := List.mem_of_find?_eq_some hp
    have hnil := hempty (NodeView.table_eq_ok.mp htable).1
    rw [htable] at hnil
    obtain rfl := Except.ok.inj hnil
    simp at hmem
  refine (h.setCurrent (i := parent)).unlist hlist ?_ hroot hlisted
  rw [View.node_setCurrent, if_neg hne, hn]

/-- After `create_snapshot_volume`: the tables of the new version are the current ones. -/
theorem View.CreatesSnapshot.tables {clean : Prop} (hstep : w.CreatesSnapshot ver w')
    (h : Links clean w) : w'.tableAt j u = w.tableAt j (if u = ver then curModifiableVer else u) ∨
      ∃ e, w'.tableAt j u = .error e ∧ e ≠ .undefined := by
  classical
  have hnode := hstep.node_eq h j
  cases hn : w.node j with
  | none =>
      rw [hn] at hnode
      exact Or.inr ⟨.outOfRange, View.tableAt_of_none hnode, by simp⟩
  | some n =>
      rw [hn, Option.map_some] at hnode
      rw [View.tableAt_of_node hnode, View.tableAt_of_node hn, hstep.blockSize]
      by_cases hl : w.Lists curModifiableVer (entryOf j n)
      · left
        rw [if_pos hl]
        refine NodeView.table_congr rfl ?_
        by_cases hu : u = ver
        · rw [if_pos hu, hu, NodeView.data_freeze_self]
        · rw [if_neg hu, NodeView.data_freeze_of_ne hu]
      · rw [if_neg hl]
        by_cases hu : u = ver
        · right
          refine NodeView.table_of_none (Option.not_isSome_iff_eq_none.mp fun hsome => ?_)
          rcases (h.data u j n hn).mp hsome with hcur | hlists
          · exact hstep.ne_current (hu ▸ hcur)
          · exact hstep.not_lists _ (hu ▸ hlists)
        · rw [if_neg hu]
          exact Or.inl rfl

/-- After `delete_snapshot_volume`. -/
theorem View.DeletesSnapshot.tables {clean : Prop} (hstep : w.DeletesSnapshot ver w')
    (h : Links clean w) : (u ≠ ver ∧ w'.tableAt j u = w.tableAt j u) ∨
      ∃ e, w'.tableAt j u = .error e ∧ e ≠ .undefined := by
  cases hn : w.node j with
  | none => exact Or.inr ⟨.outOfRange, View.tableAt_of_none (hstep.node_eq_none hn), by simp⟩
  | some n =>
      rcases hstep.node_eq h hn with ⟨hl, hnode⟩ | ⟨hl, hnode⟩
      · cases hn' : w'.node j with
        | none => exact Or.inr ⟨.outOfRange, View.tableAt_of_none hn', by simp⟩
        | some n' =>
            rw [hn', eq_comm,
              NodeView.dropLink_eq_some (n := n.unfreeze ver) (h.pos j n hn)] at hnode
            obtain ⟨_, rfl⟩ := hnode
            rw [View.tableAt_of_node hn', View.tableAt_of_node hn, hstep.blockSize]
            by_cases hu : u = ver
            · right
              subst hu
              exact NodeView.table_of_none (NodeView.data_unfreeze_self (n := n))
            · exact Or.inl ⟨hu, NodeView.table_congr rfl (NodeView.data_unfreeze_of_ne (n := n) hu)⟩
      · rw [View.tableAt_of_node hnode, View.tableAt_of_node hn, hstep.blockSize]
        by_cases hu : u = ver
        · right
          refine NodeView.table_of_none (Option.not_isSome_iff_eq_none.mp fun hsome => ?_)
          rcases (h.data u j n hn).mp hsome with hcur | hlists
          · exact hstep.ne_current (hu ▸ hcur)
          · exact hl (hu ▸ hlists)
        · exact Or.inl ⟨hu, rfl⟩

end Steps

/-! ## Snapshots under linked lists -/

section Volumes

open Program (Ends)

variable {s : InodeSmi} {clean : Prop} {ver : SnapshotVer}

theorem BlocksOk.ends_createSnapshot_of_links (h : BlocksOk s) (hl : Links clean s.view)
    (ver : SnapshotVer) :
    Ends (InodeSmi.createSnapshotVolume ver) s
      (fun _ s' => BlocksOk s' ∧ s.view.CreatesSnapshot ver s'.view ∧ (NoOrphan s → NoOrphan s'))
      (CreateRefused s ver) := by
  obtain ⟨list, hlist⟩ := hl.exists_current
  refine h.ends_createSnapshot hlist (hl.nodup _ list hlist) fun hnew e he => ?_
  obtain ⟨n, hn, heq⟩ := hl.live _ e ⟨list, hlist, he⟩ (Or.inr rfl)
  refine ⟨n, hn, congrArg InodeResult.inode heq, ?_⟩
  rw [← Option.not_isSome_iff_eq_none, hl.data ver e.id n hn]
  rintro (rfl | ⟨list', hlist', _⟩)
  · rw [hlist] at hnew
    simp at hnew
  · rw [hlist'] at hnew
    simp at hnew

theorem BlocksOk.ends_deleteSnapshot_of_links (h : BlocksOk s) (hl : Links clean s.view)
    (ver : SnapshotVer) :
    Ends (InodeSmi.deleteSnapshotVolume ver) s
      (fun _ s' => BlocksOk s' ∧ s.view.DeletesSnapshot ver s'.view ∧
        (DeletesCleanly s ver → NoOrphan s → NoOrphan s') ∧
        ∀ b, (s.bufferPool.find? b).isSome → (s'.bufferPool.find? b).isSome)
      (DeleteRefused s ver) := by
  refine h.ends_deleteSnapshot hl.exists_head (hl.nodup ver) fun list hlist e he => ?_
  have hlists : s.view.Lists ver e := ⟨list, hlist, he⟩
  obtain ⟨hid, _⟩ := hl.entry ver e hlists
  refine ⟨hid, fun n hn => ?_⟩
  obtain ⟨hnode, haddr⟩ := View.deref?_eq_some.mp hn
  rw [hid] at hnode
  have hptr : (⟨e.id, n.addr⟩ : PoolPtr) = e.inode := by rw [haddr, ← hid]
  have heq : entryOf e.id n = e := by
    unfold entryOf
    rw [hptr]
  rw [← Option.isSome_iff_ne_none, hl.data ver e.id n hnode, heq]
  exact Or.inr hlists

end Volumes

/-! ## Soundness -/

/-- A version lists an inode. -/
def View.ListsId (w : View) (ver : SnapshotVer) (id : ℕ) : Prop := ∃ e, w.Lists ver e ∧ e.id = id

/-- No table has a name twice. -/
def View.NamesNodup (w : View) : Prop :=
  ∀ id ver t, w.tableAt id ver = .ok t → (t.map (·.pathname)).Nodup

/-- Every entry of every directory has the property. -/
def View.Entries (P : ℕ → PathPack → Prop) (w : View) : Prop :=
  ∀ id ver t, w.tableAt id ver = .ok t → ∀ p ∈ t, P id p

/-- No table names the root. -/
def View.Rootless : View → Prop := View.Entries fun _ p => p.inodeId ≠ rootInodeNumber

/-- What the tables name and what the versions list agree. -/
structure Named (w : View) : Prop where
  links : Links True w
  rooted : ∀ ver, (w.listing ver).isSome → w.Lists ver rootEntry
  names : w.NamesNodup
  listed : ∀ id ver t, w.tableAt id ver = .ok t → ∀ p ∈ t, w.ListsId ver p.inodeId
  unique : ∀ i j t t', w.tableAt i curModifiableVer = .ok t →
    w.tableAt j curModifiableVer = .ok t' → ∀ p ∈ t, ∀ q ∈ t', p.inodeId = q.inodeId →
    p.inodeId ≠ rootInodeNumber → i = j ∧ p = q

/-- Besides, every table can be read, and none of them names the root. -/
structure Sound (w : View) : Prop extends Named w where
  rootless : w.Rootless
  defined : ∀ id ver, w.tableAt id ver ≠ .error .undefined

/-- Every table comes from an old one of the same directory, by leaving out entries or by
appending a new one of another name. -/
def View.Grows (w : View) (new : ℕ → PathPack → Prop) (w' : View) : Prop :=
  ∀ j u t, w'.tableAt j u = .ok t → t = [] ∨ ∃ u₀ t₀, w.tableAt j u₀ = .ok t₀ ∧
    (t.Sublist t₀ ∨ ∃ p, new j p ∧ (∀ q ∈ t₀, q.pathname ≠ p.pathname) ∧ t = t₀ ++ [p])

section Grows

variable {w w' : View} {parent id : ℕ} {name : Bytes} {clean : Prop} {ver : SnapshotVer}
  {new : ℕ → PathPack → Prop} {P : ℕ → PathPack → Prop}

theorem nodup_names_append {t : List PathPack} {p : PathPack} (ht : (t.map (·.pathname)).Nodup)
    (hnew : ∀ q ∈ t, q.pathname ≠ p.pathname) : ((t ++ [p]).map (·.pathname)).Nodup := by
  rw [List.map_append, List.nodup_append]
  refine ⟨ht, by simp, ?_⟩
  intro a ha b hb
  obtain ⟨q, hq, rfl⟩ := List.mem_map.mp ha
  simp only [List.map_cons, List.map_nil, List.mem_singleton] at hb
  rw [hb]
  exact hnew q hq

theorem View.Grows.names (h : w.Grows new w') (hw : w.NamesNodup) : w'.NamesNodup := by
  intro j u t ht
  rcases h j u t ht with rfl | ⟨u₀, t₀, ht₀, hsub | ⟨p, _, hnew, rfl⟩⟩
  · simp
  · exact (hw j u₀ t₀ ht₀).sublist (hsub.map _)
  · exact nodup_names_append (hw j u₀ t₀ ht₀) hnew

theorem View.Grows.entries (h : w.Grows new w') (hw : w.Entries P)
    (hnew : ∀ j p, new j p → P j p) : w'.Entries P := by
  intro j u t ht p hp
  rcases h j u t ht with rfl | ⟨u₀, t₀, ht₀, hsub | ⟨q, hq, _, rfl⟩⟩
  · simp at hp
  · exact hw j u₀ t₀ ht₀ p (hsub.subset hp)
  · rcases List.mem_append.mp hp with hp | hp
    · exact hw j u₀ t₀ ht₀ p hp
    · exact List.mem_singleton.mp hp ▸ hnew j q hq

/-- The one new entry of `make_child_dentry_under_parent`. -/
theorem View.MakesChild.grows {isDir : Bool} (hstep : w.MakesChild parent name isDir id w') :
    w.Grows (fun j p => j = parent ∧ p = ⟨name, id⟩) w' := by
  obtain ⟨t₀, ht₀, hnew, _, htables, hself⟩ := hstep.tables
  intro j u t ht
  by_cases hj : j = id
  · subst hj
    rcases hself u with hnil | ⟨e, he, _⟩
    · rw [hnil] at ht
      exact Or.inl (Except.ok.inj ht).symm
    · rw [he] at ht
      simp at ht
  · rw [htables j u hj] at ht
    split_ifs at ht with hcase
    · obtain ⟨rfl, rfl⟩ := hcase
      obtain ⟨_, _, rfl⟩ := View.savedTable_eq_ok.mp ht
      exact Or.inr ⟨_, t₀, ht₀, Or.inr ⟨_, ⟨rfl, rfl⟩, hnew, rfl⟩⟩
    · exact Or.inr ⟨u, t, ht, Or.inl (List.Sublist.refl _)⟩

theorem View.RemovesChild.grows (hstep : w.RemovesChild parent name w') (h : Links clean w) :
    w.Grows (fun _ _ => False) w' := by
  obtain ⟨t₀, _, _, ht₀, _, _, _, _, htables, _⟩ := hstep.tables h
  intro j u t ht
  rcases htables j u with hsame | ⟨_, hgone⟩
  · rw [hsame] at ht
    split_ifs at ht with hcase
    · obtain ⟨rfl, rfl⟩ := hcase
      obtain rfl := Except.ok.inj ht
      exact Or.inr ⟨_, t₀, ht₀, Or.inl List.eraseP_sublist⟩
    · exact Or.inr ⟨u, t, ht, Or.inl (List.Sublist.refl _)⟩
  · rw [hgone] at ht
    simp at ht

theorem View.CreatesSnapshot.grows (hstep : w.CreatesSnapshot ver w') (h : Links clean w) :
    w.Grows (fun _ _ => False) w' := by
  intro j u t ht
  rcases hstep.tables h (j := j) (u := u) with hsame | ⟨e, he, _⟩
  · exact Or.inr ⟨_, t, hsame ▸ ht, Or.inl (List.Sublist.refl _)⟩
  · rw [he] at ht
    simp at ht

theorem View.DeletesSnapshot.grows (hstep : w.DeletesSnapshot ver w') (h : Links clean w) :
    w.Grows (fun _ _ => False) w' := by
  intro j u t ht
  rcases hstep.tables h (j := j) (u := u) with ⟨_, hsame⟩ | ⟨e, he, _⟩
  · exact Or.inr ⟨u, t, hsame ▸ ht, Or.inl (List.Sublist.refl _)⟩
  · rw [he] at ht
    simp at ht

/-- The bytes of a regular file are no table. -/
theorem View.grows_rewrites {g : NodeView → NodeView} {n : NodeView} (hn : w.node id = some n)
    (hfile : n.isDentry = false) (hg : n.Rewrites (g n)) :
    w.Grows (fun _ _ => False) (w.update id fun n => some (g n)) :=
  fun j u t ht => Or.inr ⟨u, t, View.tableAt_rewrites (j := j) hn hfile hg ▸ ht,
    Or.inl (List.Sublist.refl _)⟩
end Grows

section Preservation

variable {w w' : View} {parent id : ℕ} {name : Bytes} {isDir : Bool} {ver : SnapshotVer}
  {t : List PathPack} {n : NodeView}

/-- A version lists inodes that are in the pool, under their own entries. -/
theorem Links.live_of_listsId (h : Links True w) (hid : w.ListsId ver id) :
    ∃ n, w.node id = some n ∧ w.Lists ver (entryOf id n) := by
  obtain ⟨e, he, rfl⟩ := hid
  obtain ⟨n, hn, heq⟩ := h.live ver e he (Or.inl trivial)
  exact ⟨n, hn, heq ▸ he⟩

/-- A directory of a version has a table there, unless the block size keeps `to_string` from
reading its bytes back. -/
theorem Named.table_or_wrap (h : Named w) {n : NodeView}
    (hdefined : ∀ id ver, w.tableAt id ver ≠ .error .undefined) (hid : w.ListsId ver id)
    (hn : w.node id = some n) (hdir : n.isDentry = true) :
    (∃ t, w.tableAt id ver = .ok t) ∨
      w.blockSize + 1 = 2 ^ 64 ∧ w.tableAt id ver = .error (.htmpfs .bufferShortOps) := by
  obtain ⟨n', hn', hlists⟩ := h.links.live_of_listsId hid
  obtain rfl := Option.some.inj (hn.symm.trans hn')
  obtain ⟨c, hc⟩ := Option.isSome_iff_exists.mp ((h.links.data ver id n hn).mpr (Or.inr hlists))
  rcases View.tableAt_of_data hn hdir hc with hundefined | htable
  · exact absurd hundefined (hdefined id ver)
  · exact htable

/-- A directory of a version has a table there. -/
theorem Named.exists_table (h : Named w) {n : NodeView} (hword : w.blockSize + 1 ≠ 2 ^ 64)
    (hdefined : ∀ id ver, w.tableAt id ver ≠ .error .undefined) (hid : w.ListsId ver id)
    (hn : w.node id = some n) (hdir : n.isDentry = true) :
    ∃ t, w.tableAt id ver = .ok t :=
  (h.table_or_wrap hdefined hid hn hdir).resolve_right fun hwrap => hword hwrap.1

/-- What a table names is in the pool. -/
theorem Named.node_of_mem (h : Named w) (ht : w.tableAt id ver = .ok t) {p : PathPack}
    (hp : p ∈ t) : ∃ n, w.node p.inodeId = some n ∧ w.Lists ver (entryOf p.inodeId n) :=
  h.links.live_of_listsId (h.listed id ver t ht p hp)

/-- A step after which every table is one from before, at a version that lists as much. -/
theorem Named.of_tables (h : Named w) (hlinks : Links True w') (g : SnapshotVer → SnapshotVer)
    (hg : g curModifiableVer = curModifiableVer)
    (hlisting : ∀ u, (w'.listing u).isSome → (w.listing (g u)).isSome ∧
      ∀ e, w.Lists (g u) e → w'.Lists u e)
    (hok : ∀ j u t, w'.tableAt j u = .ok t →
      w.tableAt j (g u) = .ok t ∧ ∀ e, w.Lists (g u) e → w'.Lists u e) : Named w' := by
  refine { links := hlinks, rooted := ?_, names := ?_, listed := ?_, unique := ?_ }
  · intro u hu
    obtain ⟨hold, hlists⟩ := hlisting u hu
    exact hlists _ (h.rooted _ hold)
  · intro j u t ht
    exact h.names j (g u) t (hok j u t ht).1
  · intro j u t ht p hp
    obtain ⟨hold, hlists⟩ := hok j u t ht
    obtain ⟨e, he, hid⟩ := h.listed j (g u) t hold p hp
    exact ⟨e, hlists e he, hid⟩
  · intro i j t t' ht ht' p hp q hq hpq
    have hold := (hok i _ t ht).1
    have hold' := (hok j _ t' ht').1
    rw [hg] at hold hold'
    exact h.unique i j t t' hold hold' p hp q hq hpq

theorem Named.createsSnapshot (h : Named w) (hstep : w.CreatesSnapshot ver w') : Named w' := by
  refine h.of_tables (h.links.createsSnapshot hstep)
    (fun u => if u = ver then curModifiableVer else u) ?_ (fun u hu => ⟨?_, fun e he =>
      (hstep.lists_iff u e).mpr he⟩) fun j u t ht => ?_
  · exact if_neg hstep.ne_current.symm
  · rcases hstep with ⟨list, hnew, hlist⟩
    rw [View.listing_setListing] at hu
    split_ifs at hu ⊢
    · simp [hlist]
    · exact hu
  · rcases hstep.tables h.links (j := j) (u := u) with hsame | ⟨e, he, _⟩
    · exact ⟨hsame ▸ ht, fun e he => (hstep.lists_iff u e).mpr he⟩
    · rw [he] at ht
      simp at ht

theorem Named.deletesSnapshot (h : Named w) (hstep : w.DeletesSnapshot ver w') : Named w' := by
  refine h.of_tables (h.links.deletesSnapshot hstep) (fun u => u) rfl (fun u hu => ?_)
    fun j u t ht => ?_
  · have hne : u ≠ ver := by
      rintro rfl
      rcases hstep with ⟨list, hver, hlist, hlive⟩
      rw [View.listing_setListing, if_pos rfl] at hu
      simp at hu
    refine ⟨?_, fun e he => (hstep.lists_iff u e).mpr ⟨hne, he⟩⟩
    rcases hstep with ⟨list, hver, hlist, hlive⟩
    rwa [View.listing_setListing, if_neg hne] at hu
  · rcases hstep.tables h.links (j := j) (u := u) with ⟨hu, hsame⟩ | ⟨e, he, _⟩
    · exact ⟨hsame ▸ ht, fun e he => (hstep.lists_iff u e).mpr ⟨hu, he⟩⟩
    · rw [he] at ht
      simp at ht

/-- The bytes of a regular file are changed. -/
theorem Named.rewrites (h : Named w) {g : NodeView → NodeView} (hn : w.node id = some n)
    (hfile : n.isDentry = false) (hg : n.Rewrites (g n)) :
    Named (w.update id fun n => some (g n)) := by
  have hlinks : Links True (w.update id fun n => some (g n)) := h.links.rewrites fun n' hn' => by
    obtain rfl := Option.some.inj (hn.symm.trans hn')
    exact hg
  exact h.of_tables hlinks (fun u => u) rfl (fun _ hu => ⟨hu, fun _ he => he⟩)
    fun _ _ _ ht => ⟨View.tableAt_rewrites hn hfile hg ▸ ht, fun _ he => he⟩

theorem Named.setCurrent (h : Named w) {f : Bytes → Bytes} (hn : w.node id = some n)
    (hfile : n.isDentry = false) : Named (w.setCurrent id f) :=
  h.rewrites hn hfile NodeView.rewrites_setCurrent

theorem View.MakesChild.ne_root (hstep : w.MakesChild parent name isDir id w') {clean : Prop}
    (h : Links clean w) : id ≠ rootInodeNumber := by
  obtain ⟨_, _, _, hfree, _⟩ := hstep.tables
  rintro rfl
  obtain ⟨n, hn, _⟩ := h.exists_root
  rw [hfree] at hn
  simp at hn

theorem Named.makesChild (h : Named w) (hstep : w.MakesChild parent name isDir id w') :
    Named w' := by
  obtain ⟨t₀, ht₀, hnew, hfree, htables, hself⟩ := hstep.tables
  have hlists := hstep.lists_iff
  -- an entry is an old one, or the one that was made
  have hmem : ∀ j u t, w'.tableAt j u = .ok t → ∀ p ∈ t,
      (∃ told, w.tableAt j u = .ok told ∧ p ∈ told) ∨
        j = parent ∧ u = curModifiableVer ∧ p = ⟨name, id⟩ := by
    intro j u t ht p hp
    by_cases hj : j = id
    · subst hj
      rcases hself u with hnil | ⟨e, he, _⟩
      · rw [hnil] at ht
        rw [← Except.ok.inj ht] at hp
        simp at hp
      · rw [he] at ht
        simp at ht
    · rw [htables j u hj] at ht
      split_ifs at ht with hcase
      · obtain ⟨_, _, rfl⟩ := View.savedTable_eq_ok.mp ht
        rcases List.mem_append.mp hp with hp | hp
        · exact Or.inl ⟨t₀, by rw [hcase.1, hcase.2, ht₀], hp⟩
        · exact Or.inr ⟨hcase.1, hcase.2, List.mem_singleton.mp hp⟩
      · exact Or.inl ⟨t, ht, hp⟩
  have hold : ∀ j u t, w.tableAt j u = .ok t → ∀ p ∈ t, p.inodeId ≠ id := by
    intro j u t ht p hp hid
    obtain ⟨n, hn, _⟩ := h.node_of_mem ht hp
    rw [hid, hfree] at hn
    simp at hn
  refine { links := h.links.makesChild hstep, rooted := ?_, names := hstep.grows.names h.names,
           listed := ?_, unique := ?_ }
  · intro u hu
    refine (hlists u _).mpr (Or.inl (h.rooted u ?_))
    rcases hstep with ⟨n, t, list, hname, hparent, htable, hnew, hfree, hid, hsize, hlist⟩
    rw [View.listing_setListing] at hu
    split_ifs at hu with hcur
    · rw [hcur, hlist]
      rfl
    · exact hu
  · intro j u t ht p hp
    rcases hmem j u t ht p hp with ⟨told, htold, hp⟩ | ⟨rfl, rfl, rfl⟩
    · obtain ⟨e, he, hid⟩ := h.listed j u told htold p hp
      exact ⟨e, (hlists u e).mpr (Or.inl he), hid⟩
    · exact ⟨_, (hlists _ _).mpr (Or.inr ⟨rfl, rfl⟩), rfl⟩
  · intro i j t t' ht ht' p hp q hq hpq hroot
    rcases hmem i _ t ht p hp with ⟨told, htold, hp⟩ | ⟨rfl, _, rfl⟩
    · rcases hmem j _ t' ht' q hq with ⟨told', htold', hq⟩ | ⟨rfl, _, rfl⟩
      · exact h.unique i j told told' htold htold' p hp q hq hpq hroot
      · exact absurd hpq (hold i _ told htold p hp)
    · rcases hmem j _ t' ht' q hq with ⟨told', htold', hq⟩ | ⟨rfl, _, rfl⟩
      · exact absurd hpq.symm (hold j _ told' htold' q hq)
      · exact ⟨rfl, rfl⟩

theorem Named.removesChild (h : Named w) (hstep : w.RemovesChild parent name w')
    (hroot : ∀ t p, w.tableAt parent curModifiableVer = .ok t →
      (t.find? fun i => i.pathname = name) = some p → p.inodeId ≠ rootInodeNumber) : Named w' := by
  obtain ⟨t₀, p₀, target, ht₀, hp₀, htarget, hnil, hne, htables, hlists⟩ := hstep.tables h.links
  have hp₀mem := List.mem_of_find?_eq_some hp₀
  have hp₀name : p₀.pathname = name := by simpa using List.find?_some hp₀
  have hp₀root := hroot t₀ p₀ ht₀ hp₀
  have hlinks : Links True w' := by
    refine h.links.removesChild hstep fun t p n ht hp hn => ⟨hroot t p ht hp, fun _ => ?_⟩
    obtain ⟨n', hn', hl⟩ := h.node_of_mem ht (List.mem_of_find?_eq_some hp)
    obtain rfl := Option.some.inj (hn.symm.trans hn')
    exact hl
  -- an entry of a current table is an old one, and not the one that went
  have hmem : ∀ j u t, w'.tableAt j u = .ok t → ∃ told, w.tableAt j u = .ok told ∧
      ∀ p ∈ t, p ∈ told ∧ (u = curModifiableVer → p.inodeId ≠ p₀.inodeId) := by
    intro j u t ht
    rcases htables j u with hsame | ⟨_, hgone⟩
    swap
    · rw [hgone] at ht
      simp at ht
    rw [hsame] at ht
    split_ifs at ht with hcase
    · obtain ⟨rfl, rfl⟩ := hcase
      obtain rfl := Except.ok.inj ht
      refine ⟨t₀, ht₀, fun p hp => ?_⟩
      obtain ⟨hp, hname⟩ := (mem_eraseP_key (h.names _ _ _ ht₀)).mp hp
      refine ⟨hp, fun _ hid => hname ?_⟩
      obtain ⟨_, rfl⟩ := h.unique _ _ _ _ ht₀ ht₀ p hp p₀ hp₀mem hid (hid ▸ hp₀root)
      exact hp₀name
    · refine ⟨t, ht, fun p hp => ⟨hp, fun hu hid => hcase ?_⟩⟩
      subst hu
      exact ⟨(h.unique _ _ _ _ ht ht₀ p hp p₀ hp₀mem hid (hid ▸ hp₀root)).1, rfl⟩
  refine { links := hlinks, rooted := ?_, names := (hstep.grows h.links).names h.names,
           listed := ?_, unique := ?_ }
  · intro u hu
    refine (hlists u _).mpr ⟨h.rooted u ?_, fun _ => hp₀root.symm⟩
    rcases hstep with ⟨n, t, p, target, list, hparent, htable, hp, htarget, hempty, hsize, hlist⟩
    rw [View.listing_dropLink, View.listing_setListing] at hu
    split_ifs at hu with hcur
    · rw [hcur, hlist]
      rfl
    · exact hu
  · intro j u t ht p hp
    obtain ⟨told, htold, hin⟩ := hmem j u t ht
    obtain ⟨hp, hother⟩ := hin p hp
    obtain ⟨e, he, hid⟩ := h.listed j u told htold p hp
    exact ⟨e, (hlists u e).mpr ⟨he, fun hu => hid ▸ hother hu⟩, hid⟩
  · intro i j t t' ht ht' p hp q hq hpq
    obtain ⟨told, htold, hin⟩ := hmem i _ t ht
    obtain ⟨told', htold', hin'⟩ := hmem j _ t' ht'
    exact h.unique i j told told' htold htold' p (hin p hp).1 q (hin' q hq).1 hpq

/-! ### With tables that can be read -/

theorem Sound.createsSnapshot (h : Sound w) (hstep : w.CreatesSnapshot ver w') : Sound w' where
  toNamed := h.toNamed.createsSnapshot hstep
  rootless := (hstep.grows h.links).entries h.rootless fun _ _ hfalse => hfalse.elim
  defined := by
    intro j u hundef
    rcases hstep.tables h.links (j := j) (u := u) with hsame | ⟨e, he, hne⟩
    · exact h.defined _ _ (hsame ▸ hundef)
    · rw [he] at hundef
      exact hne (Except.error.inj hundef)

theorem Sound.deletesSnapshot (h : Sound w) (hstep : w.DeletesSnapshot ver w') : Sound w' where
  toNamed := h.toNamed.deletesSnapshot hstep
  rootless := (hstep.grows h.links).entries h.rootless fun _ _ hfalse => hfalse.elim
  defined := by
    intro j u hundef
    rcases hstep.tables h.links (j := j) (u := u) with ⟨_, hsame⟩ | ⟨e, he, hne⟩
    · exact h.defined _ _ (hsame ▸ hundef)
    · rw [he] at hundef
      exact hne (Except.error.inj hundef)

theorem Sound.rewrites (h : Sound w) {g : NodeView → NodeView} (hn : w.node id = some n)
    (hfile : n.isDentry = false) (hg : n.Rewrites (g n)) :
    Sound (w.update id fun n => some (g n)) where
  toNamed := h.toNamed.rewrites hn hfile hg
  rootless := (View.grows_rewrites hn hfile hg).entries h.rootless fun _ _ hfalse => hfalse.elim
  defined := by
    intro j u
    rw [View.tableAt_rewrites hn hfile hg]
    exact h.defined j u

/-- After a new child, a table cannot be read only if it could not before or the name is too
long. -/
theorem View.MakesChild.defined (hstep : w.MakesChild parent name isDir id w')
    (hfits : NameFits name) (h : ∀ j u, w.tableAt j u ≠ .error .undefined) :
    ∀ j u, w'.tableAt j u ≠ .error .undefined := by
  obtain ⟨t₀, ht₀, _, _, htables, hself⟩ := hstep.tables
  intro j u hundef
  by_cases hj : j = id
  · subst hj
    rcases hself u with hnil | ⟨e, he, hne⟩
    · rw [hnil] at hundef
      simp at hundef
    · rw [he] at hundef
      exact hne (Except.error.inj hundef)
  · rw [htables j u hj] at hundef
    split_ifs at hundef
    · exact View.savedTable_defined
        ((forall_append_fits name id (View.tableAt_wellFormed ht₀)).mpr hfits) hundef
    · exact h j u hundef

theorem View.RemovesChild.defined {clean : Prop} (hstep : w.RemovesChild parent name w')
    (hl : Links clean w) (h : ∀ j u, w.tableAt j u ≠ .error .undefined) :
    ∀ j u, w'.tableAt j u ≠ .error .undefined := by
  obtain ⟨_, _, _, _, _, _, _, _, htables, _⟩ := hstep.tables hl
  intro j u hundef
  rcases htables j u with hsame | ⟨_, hgone⟩
  · rw [hsame] at hundef
    split_ifs at hundef
    exact h j u hundef
  · rw [hgone] at hundef
    simp at hundef

theorem Sound.makesChild (h : Sound w) (hstep : w.MakesChild parent name isDir id w')
    (hfits : NameFits name) : Sound w' where
  toNamed := h.toNamed.makesChild hstep
  rootless := hstep.grows.entries h.rootless fun _ _ hp => hp.2 ▸ hstep.ne_root h.links
  defined := hstep.defined hfits h.defined

theorem Sound.removesChild (h : Sound w) (hstep : w.RemovesChild parent name w') : Sound w' where
  toNamed := h.toNamed.removesChild hstep fun t p ht hp =>
    h.rootless parent _ t ht p (List.mem_of_find?_eq_some hp)
  rootless := (hstep.grows h.links).entries h.rootless fun _ _ hfalse => hfalse.elim
  defined := hstep.defined h.links h.defined

end Preservation

end Htmpfs
