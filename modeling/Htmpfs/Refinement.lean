import Mathlib
import Htmpfs.Overflow
import Htmpfs.View

/-!
# Blocks behind the view

`BlocksOk` is what holds of the block lists of all inodes together in every
state.  Under it, what a method of one inode does to the file system is what
the view says, and what the readers find depends on the view alone.
-/

namespace Htmpfs

open Program (Ends)

/-- An inode as its users see it. -/
def nodeView (pool : IdPool Buffer) (node : PoolNode Inode) : NodeView where
  linkCount := node.linkCount
  addr := node.addr
  isDentry := node.val.isDentry
  data := node.val.data pool

/-- The file system as its users see it. -/
def InodeSmi.view (s : InodeSmi) : View where
  blockSize := s.blockSize
  node := fun id => (s.inodePool.find? id).map (nodeView s.bufferPool)
  listing := fun ver => s.snapshotVersionList[ver]?
  nextAddr := s.inodePool.nextAddr

/-- The block lists of every inode are in order and apart from each other. -/
structure BlocksOk (s : InodeSmi) : Prop where
  blockSize_pos : 0 < s.blockSize
  blockSize_lt : s.blockSize < 2 ^ 64
  root : s.filesystemRoot = ⟨rootInodeNumber, 0⟩
  inode : ∀ id node, s.inodePool.find? id = some node →
    node.val.Ok s.bufferPool ∧ node.val.inodeId = id ∧ node.val.blockSize = s.blockSize
  disjoint : ∀ id id' node node' b, s.inodePool.find? id = some node →
    s.inodePool.find? id' = some node' → node.val.Owns b → node'.val.Owns b → id = id'
  bufferSmall : s.bufferPool.size < s.bufferPool.maxSize
  inodeSmall : s.inodePool.size < s.inodePool.maxSize

/-- Every buffer belongs to a version of some inode. -/
def NoOrphan (s : InodeSmi) : Prop :=
  ∀ b, (s.bufferPool.find? b).isSome →
    ∃ id node, s.inodePool.find? id = some node ∧ node.val.Owns b

/-- The frozen blocks at the touched places of the current list are still held by a snapshot of
the inode. -/
def HeldElsewhere (s : InodeSmi) (id : ℕ) (touched : ℕ → Prop) : Prop :=
  ∀ node list, s.inodePool.find? id = some node →
    node.val.bufferMap[curModifiableVer]? = some list →
    ∀ j r, list[j]? = some r → r.isSnapshoted = true → touched j →
      (node.val.snapshotRefs r.id).Nonempty

/-- What was held elsewhere still is. -/
def StaysHeld (s s' : InodeSmi) : Prop :=
  ∀ j touched, HeldElsewhere s j touched → HeldElsewhere s' j touched

/-- No block of the current list is frozen. -/
def Thawed (s : InodeSmi) (id : ℕ) : Prop :=
  ∀ node list, s.inodePool.find? id = some node →
    node.val.bufferMap[curModifiableVer]? = some list → ∀ r ∈ list, r.isSnapshoted = false

/-- The buffers that are not of this inode are the same. -/
def KeepsBuffers (s : InodeSmi) (id : ℕ) (s' : InodeSmi) : Prop :=
  ∀ b, (s.bufferPool.find? b).isSome →
    (∀ node, s.inodePool.find? id = some node → ¬ node.val.Owns b) →
    s'.bufferPool.find? b = s.bufferPool.find? b

/-- A call that fails with an exception leaves everything as it was. -/
def Fails (s : InodeSmi) (e : Exit) (s' : InodeSmi) : Prop :=
  e.Thrown → s' = s ∧ e ≠ .htmpfs .requestedBufferNotFound

section View

variable {s : InodeSmi} {id : ℕ} {ptr : PoolPtr} {node : PoolNode Inode} {n : NodeView}

@[simp] theorem blockSize_view : s.view.blockSize = s.blockSize := rfl

theorem view_node : s.view.node id = (s.inodePool.find? id).map (nodeView s.bufferPool) :=
  rfl

theorem view_node_eq_some : s.view.node id = some n ↔
    ∃ node, s.inodePool.find? id = some node ∧ nodeView s.bufferPool node = n := by
  rw [view_node, Option.map_eq_some_iff]

theorem view_node_eq_none : s.view.node id = none ↔ s.inodePool.find? id = none := by
  rw [view_node, Option.map_eq_none_iff]

theorem view_deref?_eq_some : s.view.deref? ptr = some n ↔
    ∃ node, s.inodePool.find? ptr.id = some node ∧ node.addr = ptr.addr ∧
      nodeView s.bufferPool node = n := by
  rw [View.deref?_eq_some, view_node_eq_some]
  constructor
  · rintro ⟨⟨node, hnode, rfl⟩, haddr⟩
    exact ⟨node, hnode, haddr, rfl⟩
  · rintro ⟨node, hnode, haddr, rfl⟩
    exact ⟨⟨node, hnode, rfl⟩, haddr⟩

theorem deref_of_view (h : s.view.deref? ptr = some n) :
    ∃ node, s.inodePool.find? ptr.id = some node ∧ node.addr = ptr.addr ∧
      nodeView s.bufferPool node = n ∧ InodeSmi.deref ptr s = .ok node.val := by
  obtain ⟨node, hnode, haddr, hn⟩ := view_deref?_eq_some.mp h
  refine ⟨node, hnode, haddr, hn, ?_⟩
  have hval : s.inodePool.deref? ptr = some node.val :=
    IdPool.deref?_eq_some.mpr ⟨node, hnode, haddr, rfl⟩
  simp only [InodeSmi.deref, hval]
  rfl

theorem deref_of_view_none (h : s.view.deref? ptr = none) :
    InodeSmi.deref ptr s = .error .undefined ∧ s.inodePool.deref? ptr = none := by
  have hnone : s.inodePool.deref? ptr = none := by
    rw [Option.eq_none_iff_forall_ne_some]
    intro self hself
    obtain ⟨node, hnode, haddr, rfl⟩ := IdPool.deref?_eq_some.mp hself
    have hsome := view_deref?_eq_some.mpr ⟨node, hnode, haddr, rfl⟩
    rw [h] at hsome
    simp at hsome
  refine ⟨?_, hnone⟩
  simp only [InodeSmi.deref, hnone]
  rfl

end View

/-! ## What the readers find -/

section Readers

variable {s : InodeSmi}

theorem BlocksOk.toString_eq (h : BlocksOk s) {id : ℕ} {node : PoolNode Inode}
    (hnode : s.inodePool.find? id = some node) (ver : SnapshotVer) :
    node.val.toString s.bufferPool ver =
      (nodeView s.bufferPool node).toString s.blockSize ver := by
  obtain ⟨hok, _, hbs⟩ := h.inode id node hnode
  rw [hok.toString_eq, hbs]
  rfl

/-- `refresh` decodes the bytes of the inode. -/
theorem refresh_of_deref (r : DirectoryResolver) {self : Inode}
    (hself : InodeSmi.deref r.associatedInode s = .ok self) (hok : self.Ok s.bufferPool) :
    r.refresh s = (do
      let allPath ← self.toString s.bufferPool r.accessVersion
      let t ← decodeTable allPath
      pure { r with path := t }) := by
  unfold DirectoryResolver.refresh
  simp only [hself, bind, Except.bind, hok.currentDataSize_eq, hok.toString_eq]
  cases self.data s.bufferPool r.accessVersion with
  | none => rfl
  | some c =>
      by_cases hc : c.length = 0
      · obtain rfl := List.length_eq_zero_iff.mp hc
        rfl
      · simp only [if_neg hc]

theorem BlocksOk.refresh_eq (h : BlocksOk s) (r : DirectoryResolver) {n : NodeView}
    (hn : s.view.deref? r.associatedInode = some n) (hdir : n.isDentry = true) :
    r.refresh s = (fun t => { r with path := t }) <$> n.table s.blockSize r.accessVersion := by
  obtain ⟨node, hnode, _, rfl, hderef⟩ := deref_of_view hn
  rw [refresh_of_deref r hderef (h.inode _ node hnode).1, h.toString_eq hnode, NodeView.table,
    if_pos hdir]
  cases (nodeView s.bufferPool node).toString s.blockSize r.accessVersion with
  | error e => rfl
  | ok c =>
      simp only [bind, Except.bind]
      cases decodeTable c <;> rfl

/-- `directory_resolver_t` decodes the table of the view. -/
theorem BlocksOk.resolver_new_eq (h : BlocksOk s) (ptr : PoolPtr) (ver : SnapshotVer) :
    DirectoryResolver.new ptr ver s =
      (fun t => ⟨t, ptr, ver⟩) <$> s.view.openDir ptr ver := by
  unfold DirectoryResolver.new View.openDir
  cases hn : s.view.deref? ptr with
  | none =>
      rw [(deref_of_view_none hn).1]
      rfl
  | some n =>
      obtain ⟨node, hnode, haddr, hview, hderef⟩ := deref_of_view hn
      have hdir : n.isDentry = node.val.isDentry := by
        rw [← hview]
        rfl
      rw [hderef]
      simp only [bind, Except.bind]
      by_cases hkind : node.val.isDentry = true
      · rw [if_pos hkind, h.refresh_eq _ hn (hdir.trans hkind)]
        rfl
      · rw [if_neg hkind, NodeView.table, if_neg (by rwa [hdir])]
        rfl

/-- A directory that can be read is opened. -/
theorem BlocksOk.resolver_new_of_table (h : BlocksOk s) {id : ℕ} {n : NodeView}
    {ver : SnapshotVer} {t : List PathPack} (hn : s.view.node id = some n)
    (ht : n.table s.blockSize ver = .ok t) :
    DirectoryResolver.new ⟨id, n.addr⟩ ver s = .ok ⟨t, ⟨id, n.addr⟩, ver⟩ := by
  rw [h.resolver_new_eq, View.openDir, View.deref?_of_node hn]
  change (fun t => (⟨t, ⟨id, n.addr⟩, ver⟩ : DirectoryResolver)) <$> n.table s.blockSize ver = _
  rw [ht]
  rfl

theorem getInodeById_eq (id : ℕ) :
    InodeSmi.getInodeById id s =
      match s.view.node id with
      | some n => .ok ⟨id, n.addr⟩
      | none => .error (.htmpfs .requestedInodeNotFound) := by
  unfold InodeSmi.getInodeById
  rw [view_node]
  cases s.inodePool.find? id <;> rfl

theorem namei_eq (t : List PathPack) (ptr : PoolPtr) (ver : SnapshotVer) (name : Bytes) :
    DirectoryResolver.namei ⟨t, ptr, ver⟩ name = View.lookup t name := rfl

theorem BlocksOk.walk_eq (h : BlocksOk s) (ver : SnapshotVer) (id : ℕ) (path : List Bytes) :
    s.walk ver id path = s.view.walk ver id path := by
  induction path generalizing id with
  | nil => rfl
  | cons i rest ih =>
      unfold InodeSmi.walk View.walk View.tableAt
      split_ifs
      · exact ih id
      · rw [view_node]
        cases hnode : s.inodePool.find? id with
        | none => simp only [poolAt, hnode]; rfl
        | some node =>
            have hn : s.view.node id = some (nodeView s.bufferPool node) := by
              rw [view_node, hnode]
              rfl
            have hopen : s.view.openDir ⟨id, node.addr⟩ ver =
                (nodeView s.bufferPool node).table s.blockSize ver := by
              unfold View.openDir
              rw [View.deref?_eq_some.mpr ⟨hn, rfl⟩]
              rfl
            simp only [poolAt, hnode, bind, Except.bind, pure, Except.pure, h.resolver_new_eq,
              hopen, Option.map_some, blockSize_view]
            cases (nodeView s.bufferPool node).table s.blockSize ver with
            | error e => rfl
            | ok t =>
                simp only [Functor.map, Except.map, namei_eq]
                cases View.lookup t i with
                | error e => rfl
                | ok next => exact ih next

/-- Path resolution depends on the view alone. -/
theorem BlocksOk.resolve_eq (h : BlocksOk s) (path : Bytes) :
    InodeSmi.getInodeIdByPath path s = s.view.resolve path := by
  unfold InodeSmi.getInodeIdByPath View.resolve
  cases path with
  | nil => rfl
  | cons c rest =>
      simp only [h.walk_eq]
      split_ifs with hc
      · cases ifSnapshot (c :: rest) with
        | error e => rfl
        | ok p =>
            simp only [bind, Except.bind]
            rw [Std.ExtTreeMap.contains_eq_isSome_getElem?]
            rfl
      · rfl

theorem BlocksOk.descend_eq (h : BlocksOk s) (path : List Bytes) (count : ℕ) (ptr : PoolPtr) :
    InodeSmi.descend path count ptr s = s.view.descend path count ptr := by
  induction path generalizing count ptr with
  | nil =>
      cases count with
      | zero => rfl
      | succ count =>
          unfold InodeSmi.descend View.descend
          rw [h.resolver_new_eq]
          cases s.view.openDir ptr curModifiableVer <;> rfl
  | cons i rest ih =>
      cases count with
      | zero => rfl
      | succ count =>
          unfold InodeSmi.descend View.descend
          rw [h.resolver_new_eq]
          cases s.view.openDir ptr curModifiableVer with
          | error e => rfl
          | ok t =>
              simp only [Functor.map, Except.map, bind, Except.bind, namei_eq]
              cases View.lookup t i with
              | error e => rfl
              | ok id =>
                  simp only [getInodeById_eq]
                  cases s.view.node id with
                  | none => rfl
                  | some n => exact ih count _

end Readers

/-! ## A change inside one inode -/

/-- The state after a method of the inode `id` ended with `v`. -/
def InodeSmi.withInode (s : InodeSmi) (id : ℕ) (v : InodeView) : InodeSmi :=
  { s with bufferPool := v.bufferPool, inodePool := s.inodePool.setVal id v.self }

section Update

variable {s : InodeSmi} {id : ℕ} {ptr : PoolPtr} {node : PoolNode Inode} {v' : InodeView}

theorem ends_onInode {α : Type} {m : InodeM α} {Q : α → InodeSmi → Prop}
    {E : Exit → InodeSmi → Prop} (hnode : s.inodePool.find? ptr.id = some node)
    (haddr : node.addr = ptr.addr) :
    Ends (InodeSmi.onInode ptr m) s Q E ↔
      Ends m ⟨s.bufferPool, node.val⟩ (fun a v => Q a (s.withInode ptr.id v))
        (fun e v => E e (s.withInode ptr.id v)) := by
  have hval : s.inodePool.deref? ptr = some node.val :=
    IdPool.deref?_eq_some.mpr ⟨node, hnode, haddr, rfl⟩
  unfold InodeSmi.onInode
  exact Program.ends_zoom (by rw [hval]; rfl)

theorem ends_onInode_undefined {α : Type} {m : InodeM α} {Q : α → InodeSmi → Prop}
    {E : Exit → InodeSmi → Prop} (hnone : s.view.deref? ptr = none) (hE : E .undefined s) :
    Ends (InodeSmi.onInode ptr m) s Q E := by
  unfold InodeSmi.onInode
  exact (Program.ends_zoom_none (by rw [(deref_of_view_none hnone).2]; rfl)).mpr hE

theorem withInode_self (hnode : s.inodePool.find? id = some node) :
    s.withInode id ⟨s.bufferPool, node.val⟩ = s := by
  have hpool : s.inodePool.setVal id node.val = s.inodePool := by
    apply IdPool.ext
    · intro j
      rw [IdPool.find?_setVal]
      split_ifs with hj
      · rw [hj, hnode]
        rfl
      · rfl
    · rfl
    · exact IdPool.maxSize_setVal
  unfold InodeSmi.withInode
  rw [hpool]

theorem find?_withInode (hnode : s.inodePool.find? id = some node) (j : ℕ) :
    (s.withInode id v').inodePool.find? j =
      if j = id then some { node with val := v'.self } else s.inodePool.find? j := by
  simp only [InodeSmi.withInode, IdPool.find?_setVal, hnode, Option.map_some]

/-- The nodes of another inode are as they were. -/
theorem BlocksOk.kept_of_ne (h : BlocksOk s) (hnode : s.inodePool.find? id = some node)
    (hframe : Frame ⟨s.bufferPool, node.val⟩ v') {j : ℕ} {node' : PoolNode Inode}
    (hj : s.inodePool.find? j = some node') (hne : j ≠ id) (b : ℕ) (hb : node'.val.Owns b) :
    v'.bufferPool.find? b = s.bufferPool.find? b := by
  obtain ⟨buf, hbuf⟩ := (h.inode j node' hj).1.find?_of_owns hb
  refine hframe.kept b ?_ fun howns => hne (h.disjoint j id node' node b hj hnode hb howns)
  change (s.bufferPool.find? b).isSome = true
  rw [hbuf]
  rfl

theorem BlocksOk.withInode (h : BlocksOk s) (hnode : s.inodePool.find? id = some node)
    (hok : v'.self.Ok v'.bufferPool) (hframe : Frame ⟨s.bufferPool, node.val⟩ v')
    (hsmall : v'.bufferPool.size < v'.bufferPool.maxSize) : BlocksOk (s.withInode id v') := by
  have hother : ∀ b j node', s.inodePool.find? j = some node' → j ≠ id → node'.val.Owns b →
      ¬ v'.self.Owns b := by
    intro b j node' hj hne hb hown
    rcases hframe.fresh b hown with hown' | hfree
    · exact hne (h.disjoint j id node' node b hj hnode hb hown')
    · obtain ⟨buf, hbuf⟩ := (h.inode j node' hj).1.find?_of_owns hb
      change s.bufferPool.find? b = none at hfree
      simp [hbuf] at hfree
  refine
    { blockSize_pos := h.blockSize_pos, blockSize_lt := h.blockSize_lt, root := h.root,
      inode := ?_, disjoint := ?_,
      bufferSmall := hsmall, inodeSmall := ?_ }
  · intro j node' hj
    rw [find?_withInode hnode] at hj
    split_ifs at hj with hid
    · obtain rfl := Option.some.inj hj
      obtain ⟨_, hid', hbs⟩ := h.inode id node hnode
      exact ⟨hok, hframe.inodeId.trans (hid'.trans hid.symm), hframe.blockSize.trans hbs⟩
    · obtain ⟨hok', hrest⟩ := h.inode j node' hj
      exact ⟨hok'.congr (h.kept_of_ne hnode hframe hj hid), hrest⟩
  · intro j j' node₁ node₂ b hj hj' hb hb'
    rw [find?_withInode hnode] at hj hj'
    split_ifs at hj hj' with h₁ h₂ h₂
    · rw [h₁, h₂]
    · obtain rfl := Option.some.inj hj
      exact absurd hb (hother b j' node₂ hj' h₂ hb')
    · obtain rfl := Option.some.inj hj'
      exact absurd hb' (hother b j node₁ hj h₁ hb)
    · exact h.disjoint j j' node₁ node₂ b hj hj' hb hb'
  · have hsize := h.inodeSmall
    simpa [InodeSmi.withInode] using hsize

theorem BlocksOk.view_withInode (h : BlocksOk s) (hnode : s.inodePool.find? id = some node)
    (hframe : Frame ⟨s.bufferPool, node.val⟩ v') {f : NodeView → NodeView}
    (hf : f (nodeView s.bufferPool node) =
      { nodeView s.bufferPool node with data := v'.self.data v'.bufferPool }) :
    (s.withInode id v').view = s.view.update id fun n => some (f n) := by
  have hnodes : (s.withInode id v').view.node =
      (s.view.update id fun n => some (f n)).node := by
    funext j
    rw [view_node, find?_withInode hnode, View.node_update]
    split_ifs with hj
    · rw [view_node, hnode, Option.map_some, Option.map_some, Option.bind_some, hf]
      simp only [nodeView, NodeView.mk.injEq, Option.some.injEq, true_and]
      exact ⟨hframe.isDentry, rfl⟩
    · rw [view_node]
      cases hnode' : s.inodePool.find? j with
      | none => rfl
      | some node' =>
          simp only [Option.map_some, nodeView]
          change some (NodeView.mk _ _ _ (node'.val.data v'.bufferPool)) = _
          rw [(h.inode j node' hnode').1.data_congr (h.kept_of_ne hnode hframe hnode' hj)]
  change (⟨_, (s.withInode id v').view.node, _, _⟩ : View) = _
  rw [hnodes]
  rfl

theorem NoOrphan.withInode (h : NoOrphan s) (hnode : s.inodePool.find? id = some node)
    (hframe : Frame ⟨s.bufferPool, node.val⟩ v')
    (hkeep : ∀ b, (v'.bufferPool.find? b).isSome → node.val.Owns b → v'.self.Owns b) :
    NoOrphan (s.withInode id v') := by
  intro b hb
  have hself : (s.withInode id v').inodePool.find? id = some { node with val := v'.self } := by
    rw [find?_withInode hnode, if_pos rfl]
  rcases hframe.keys b hb with hold | hown
  · obtain ⟨j, node', hj, hb'⟩ := h b hold
    by_cases hid : j = id
    · subst hid
      obtain rfl := Option.some.inj (hnode.symm.trans hj)
      exact ⟨j, _, hself, hkeep b hb hb'⟩
    · exact ⟨j, node', by rw [find?_withInode hnode, if_neg hid, hj], hb'⟩
  · exact ⟨id, _, hself, hown⟩

/-- A rewrite drops no block for good if the frozen ones it touches are held by a snapshot. -/
theorem Rewrote.owns {v v' : InodeView} {f : Bytes → Bytes} {touched : ℕ → Prop}
    (h : Rewrote v f touched v')
    (hheld : ∀ list, v.self.bufferMap[curModifiableVer]? = some list →
      ∀ j r, list[j]? = some r → r.isSnapshoted = true → touched j →
        (v.self.snapshotRefs r.id).Nonempty) {b : ℕ} (hb : (v'.bufferPool.find? b).isSome)
    (howns : v.self.Owns b) : v'.self.Owns b := by
  obtain ⟨list, list', hcur, hmap, hown, hunfroze⟩ := h.bank
  have hkeep : ∀ ver, ver ∈ v.self.snapshotRefs b → v'.self.Owns b := by
    rintro ver ⟨hver, list'', hlist, hmem⟩
    exact ⟨ver, list'', by rw [hmap, if_neg hver, hlist], hmem⟩
  have hcur' : v'.self.bufferMap[curModifiableVer]? = some list' := by rw [hmap, if_pos rfl]
  obtain ⟨ver, list'', hlist, hmem⟩ := howns
  by_cases hver : ver = curModifiableVer
  · subst hver
    obtain rfl := Option.some.inj (hcur.symm.trans hlist)
    obtain ⟨r, hr, rfl⟩ := List.mem_map.mp hmem
    rcases hown.accounted r.id hb with hheld' | ⟨r', hr', _, hid⟩
    · have hfrozen : r.isSnapshoted = true := by
        by_contra hnot
        exact hheld'.2 r hr (by simpa using hnot) rfl
      obtain ⟨j, hj⟩ := List.getElem?_of_mem hr
      by_cases htouched : touched j
      · obtain ⟨ver', hver'⟩ := hheld list hcur j r hj hfrozen htouched
        exact hkeep ver' hver'
      · exact Inode.Owns.of_mem hcur' ((hunfroze r hfrozen).mpr ⟨j, hj, htouched⟩)
    · have hid' : r'.id = r.id := hid
      rw [← hid']
      exact Inode.Owns.of_mem hcur' hr'
  · exact hkeep ver ⟨hver, list'', hlist, hmem⟩

theorem Rewrote.smi (h : BlocksOk s) (hnode : s.inodePool.find? id = some node)
    {f : Bytes → Bytes} {touched : ℕ → Prop} (hv : Rewrote ⟨s.bufferPool, node.val⟩ f touched v') :
    BlocksOk (s.withInode id v') ∧ (s.withInode id v').view = s.view.setCurrent id f ∧
      (HeldElsewhere s id touched → NoOrphan s → NoOrphan (s.withInode id v')) ∧
      (∀ j ≠ id, (s.withInode id v').inodePool.find? j = s.inodePool.find? j) ∧
      ((∀ j, touched j) → Thawed (s.withInode id v') id) ∧
      KeepsBuffers s id (s.withInode id v') := by
  refine ⟨h.withInode hnode hv.ok hv.frame hv.small, ?_, ?_, fun j hj => ?_, fun htouched => ?_,
    fun b hb hfree => hv.frame.kept b hb (hfree node hnode)⟩
  · refine h.view_withInode hnode hv.frame ?_
    simp only [NodeView.setCurrent, NodeView.mk.injEq, true_and]
    funext ver
    exact (hv.data ver).symm
  · intro hheld horphan
    refine horphan.withInode hnode hv.frame fun b hb howns => hv.owns ?_ hb howns
    exact fun list hcur => hheld node list hnode hcur
  · rw [find?_withInode hnode, if_neg hj]
  · obtain ⟨list, list', _, hmap, _, hunfroze⟩ := hv.bank
    intro node' list'' hnode' hcur r hr
    rw [find?_withInode hnode, if_pos rfl] at hnode'
    obtain rfl := Option.some.inj hnode'
    rw [hmap, if_pos rfl] at hcur
    obtain rfl := Option.some.inj hcur
    by_contra hfrozen
    obtain ⟨j, _, hnot⟩ := (hunfroze r (by simpa using hfrozen)).mp hr
    exact hnot (htouched j)

theorem Reworked.smi (h : BlocksOk s) (hnode : s.inodePool.find? id = some node)
    {touched : ℕ → Prop} (hv : Reworked ⟨s.bufferPool, node.val⟩ touched v') :
    BlocksOk (s.withInode id v') ∧
      (HeldElsewhere s id touched → NoOrphan s → NoOrphan (s.withInode id v')) ∧
      ∃ g : NodeView → NodeView,
        (nodeView s.bufferPool node).Rewrites (g (nodeView s.bufferPool node)) ∧
        (s.withInode id v').view = s.view.update id fun n => some (g n) := by
  refine ⟨h.withInode hnode hv.ok hv.frame hv.small, fun hheld horphan => ?_,
    fun n => { n with data := v'.self.data v'.bufferPool }, ?_,
    h.view_withInode hnode hv.frame rfl⟩
  · obtain ⟨f, pool, hrewrote, hshape, _⟩ := hv.rewrote
    apply horphan.withInode hnode hv.frame
    intro b hb howns
    exact hrewrote.owns (fun list hcur => hheld node list hnode hcur)
      ((hshape.isSome_iff b).mp hb) howns
  · exact { linkCount := rfl, addr := rfl, isDentry := rfl, data := hv.isSome_data }

theorem Volumed.smi (h : BlocksOk s) (hnode : s.inodePool.find? id = some node)
    {ver : SnapshotVer} (hnew : node.val.data s.bufferPool ver = none)
    (hv : Volumed ⟨s.bufferPool, node.val⟩ ver v') :
    BlocksOk (s.withInode id v') ∧
      (s.withInode id v').view = s.view.update id (fun n => some
        { n with data := fun u => if u = ver then n.data curModifiableVer else n.data u }) ∧
      (NoOrphan s → NoOrphan (s.withInode id v')) := by
  obtain ⟨list, hcur, hmap, hpool⟩ := hv.bank
  refine ⟨h.withInode hnode hv.ok hv.frame (hpool.small h.bufferSmall), ?_, ?_⟩
  · refine h.view_withInode hnode hv.frame ?_
    simp only [NodeView.mk.injEq, true_and]
    funext u
    exact (hv.data u).symm
  · intro horphan
    refine horphan.withInode hnode hv.frame ?_
    rintro b _ ⟨u, list', hlist, hb⟩
    by_cases hu : u = curModifiableVer ∨ u = ver
    · rcases hu with rfl | rfl
      · obtain rfl := Option.some.inj (hcur.symm.trans hlist)
        exact ⟨curModifiableVer, _, by rw [hmap, if_pos (Or.inl rfl)], by rwa [map_id_freeze]⟩
      · simp [Inode.data, hlist] at hnew
    · exact ⟨u, list', by rw [hmap, if_neg hu]; exact hlist, hb⟩

/-- Deleting a volume drops no block for good if the other versions list its blocks too. -/
theorem Unvolumed.smi (h : BlocksOk s) (hnode : s.inodePool.find? id = some node)
    {ver : SnapshotVer} (hv : Unvolumed ⟨s.bufferPool, node.val⟩ ver v') :
    BlocksOk (s.withInode id v') ∧
      (s.withInode id v').view = s.view.update id (fun n => some (n.unfreeze ver)) ∧
      ((∀ list, node.val.bufferMap[ver]? = some list → ∀ r ∈ list, ∃ u list', u ≠ ver ∧
        node.val.bufferMap[u]? = some list' ∧ r.id ∈ list'.map (·.id)) →
        NoOrphan s → NoOrphan (s.withInode id v')) := by
  obtain ⟨list, hlist, hmap, hpool⟩ := hv.bank
  refine ⟨h.withInode hnode hv.ok hv.frame (hpool.small h.bufferSmall), ?_, ?_⟩
  · refine h.view_withInode hnode hv.frame ?_
    simp only [NodeView.unfreeze, NodeView.mk.injEq, true_and]
    funext u
    exact (hv.data u).symm
  · intro hother horphan
    refine horphan.withInode hnode hv.frame ?_
    rintro b _ ⟨u, list', hlist', hb⟩
    by_cases hu : u = ver
    · subst hu
      obtain ⟨r, hr, rfl⟩ := List.mem_map.mp hb
      obtain ⟨u', list'', hne, hlist'', hmem⟩ := hother list' hlist' r hr
      exact ⟨u', list'', by rw [hmap, if_neg hne]; exact hlist'', hmem⟩
    · exact ⟨u, list', by rw [hmap, if_neg hu]; exact hlist', hb⟩

end Update

/-! ## A change of the inode pool -/

/-- The state after a change of the inode pool that leaves the inodes in it as they are. -/
theorem BlocksOk.withPool {s : InodeSmi} (h : BlocksOk s) {pool : IdPool Inode}
    (hsize : pool.size < pool.maxSize)
    (hval : ∀ id node, pool.find? id = some node →
      (∃ node', s.inodePool.find? id = some node' ∧ node.val = node'.val) ∨
        ∃ isDir, node.val = Inode.new s.blockSize id isDir) :
    BlocksOk { s with inodePool := pool } := by
  refine
    { blockSize_pos := h.blockSize_pos, blockSize_lt := h.blockSize_lt, root := h.root,
      inode := ?_, disjoint := ?_,
      bufferSmall := h.bufferSmall, inodeSmall := hsize }
  · intro id node hnode
    rcases hval id node hnode with ⟨node', hnode', hv⟩ | ⟨isDir, hv⟩
    · rw [hv]
      exact h.inode id node' hnode'
    · rw [hv]
      exact ⟨Inode.ok_new h.blockSize_pos h.blockSize_lt, rfl, rfl⟩
  · intro id id' node node' b hnode hnode' hb hb'
    rcases hval id node hnode with ⟨node₁, hnode₁, hv⟩ | ⟨isDir, hv⟩
    · rcases hval id' node' hnode' with ⟨node₂, hnode₂, hv'⟩ | ⟨isDir, hv'⟩
      · rw [hv] at hb
        rw [hv'] at hb'
        exact h.disjoint id id' node₁ node₂ b hnode₁ hnode₂ hb hb'
      · rw [hv'] at hb'
        exact absurd hb' Inode.not_owns_new
    · rw [hv] at hb
      exact absurd hb Inode.not_owns_new

theorem BlocksOk.withListing {s : InodeSmi} (h : BlocksOk s)
    (list : Std.ExtTreeMap SnapshotVer (List InodeResult)) :
    BlocksOk { s with snapshotVersionList := list } :=
  ⟨h.blockSize_pos, h.blockSize_lt, h.root, h.inode, h.disjoint, h.bufferSmall, h.inodeSmall⟩

theorem NoOrphan.withPool {s : InodeSmi} (h : NoOrphan s) {pool : IdPool Inode}
    (hval : ∀ id node b, s.inodePool.find? id = some node → node.val.Owns b →
      ∃ node', pool.find? id = some node' ∧ node'.val = node.val) :
    NoOrphan { s with inodePool := pool } := by
  intro b hb
  obtain ⟨id, node, hnode, hown⟩ := h b hb
  obtain ⟨node', hnode', hv⟩ := hval id node b hnode hown
  exact ⟨id, node', hnode', by rwa [hv]⟩

theorem StaysHeld.withPool {s : InodeSmi} {pool : IdPool Inode}
    (hval : ∀ id node, pool.find? id = some node →
      ∃ node', s.inodePool.find? id = some node' ∧ node.val = node'.val) :
    StaysHeld s { s with inodePool := pool } := by
  intro j touched hheld node list hnode hlist
  obtain ⟨node', hnode', hsame⟩ := hval j node hnode
  rw [hsame] at hlist ⊢
  exact hheld node' list hnode' hlist

/-! ## The steps the operations are made of -/

section Steps

variable {s : InodeSmi} {id : ℕ} {ptr : PoolPtr} {n : NodeView}

theorem StaysHeld.of_thawed {s' : InodeSmi}
    (hlocal : ∀ j ≠ id, s'.inodePool.find? j = s.inodePool.find? j) (hthawed : Thawed s' id) :
    StaysHeld s s' := by
  intro j touched hheld node list hnode hlist k r hk hfrozen
  by_cases hj : j = id
  · subst hj
    rw [hthawed node list hnode hlist r (List.mem_of_getElem? hk)] at hfrozen
    simp at hfrozen
  · rw [hlocal j hj] at hnode
    exact hheld node list hnode hlist k r hk hfrozen

theorem BlocksOk.data_current (h : BlocksOk s) (hn : s.view.node id = some n) :
    ∃ c, n.data curModifiableVer = some c := by
  obtain ⟨node, hnode, rfl⟩ := view_node_eq_some.mp hn
  obtain ⟨list, hlist⟩ := (h.inode id node hnode).1.current
  refine ⟨content s.bufferPool list, ?_⟩
  simp only [nodeView, Inode.data, hlist, Option.map_some]

/-- `inode->write(...)` -/
theorem BlocksOk.ends_write (h : BlocksOk s) (hn : s.view.deref? ptr = some n) {buffer : Bytes}
    {offset : ℕ} (resize dentryOnly : Bool) (hwrap : offset + buffer.length < 2 ^ 64) {old : Bytes}
    (hold : n.data curModifiableVer = some old) :
    Ends (InodeSmi.onInode ptr (Inode.write buffer offset resize dentryOnly)) s
      (fun count s' => BlocksOk s' ∧ count = Bank.writeCount buffer offset resize old ∧
        (n.isDentry && !dentryOnly) = false ∧
        s'.view = s.view.setCurrent ptr.id (Bank.writeBytes buffer offset resize) ∧
        (HeldElsewhere s ptr.id (Bank.WriteTouches s.blockSize buffer offset resize old) →
          NoOrphan s → NoOrphan s') ∧
        (∀ j ≠ ptr.id, s'.inodePool.find? j = s.inodePool.find? j) ∧
        ((∀ j, Bank.WriteTouches s.blockSize buffer offset resize old j) → Thawed s' ptr.id) ∧
        KeepsBuffers s ptr.id s')
      (fun e s' => e = .badAlloc ∨ s' = s ∧
        ((n.isDentry && !dentryOnly) = true ∧ e = .htmpfs .invalidWriteInvoke ∨
          e = .outOfRange ∧ Bank.AtBlockEnd s.blockSize buffer offset resize old)) := by
  obtain ⟨node, hnode, haddr, rfl⟩ := view_deref?_eq_some.mp hn
  obtain ⟨hok, _, hbs⟩ := h.inode _ node hnode
  rw [ends_onInode hnode haddr]
  refine (Inode.Ok.ends_write (v := ⟨s.bufferPool, node.val⟩) hok h.bufferSmall hwrap hold).mono
    ?_ ?_
  · rintro count v' ⟨hcount, hkind, hv⟩
    obtain ⟨hok', hview, horphan, hlocal, hthawed, hbuffers⟩ := hv.smi h hnode
    simp only [hbs] at horphan hthawed
    exact ⟨hok', hcount, hkind, hview, horphan, hlocal, hthawed, hbuffers⟩
  · rintro e v' (he | ⟨rfl, he⟩)
    · exact Or.inl he
    · simp only [hbs] at he
      exact Or.inr ⟨withInode_self hnode, he⟩

/-- What a write with any 64-bit arguments leaves, wherever it ended. -/
structure WriteDone (s : InodeSmi) (id : ℕ) (n : NodeView) (buffer : Bytes) (offset : ℕ)
    (resize dentryOnly : Bool) (s' : InodeSmi) : Prop where
  kind : (n.isDentry && !dentryOnly) = false
  view : ∃ g : NodeView → NodeView, n.Rewrites (g n) ∧
    s'.view = s.view.update id fun n => some (g n)
  orphan : ∀ old, n.data curModifiableVer = some old →
    HeldElsewhere s id (Bank.Reallocates s.blockSize buffer offset resize old.length) →
      NoOrphan s → NoOrphan s'

/-- The same with any 64-bit arguments. -/
theorem BlocksOk.ends_write_any (h : BlocksOk s) (hn : s.view.deref? ptr = some n) {buffer : Bytes}
    {offset : ℕ} (resize dentryOnly : Bool) (hoffset : offset < 2 ^ 64)
    (hlength : buffer.length < 2 ^ 64) :
    Ends (InodeSmi.onInode ptr (Inode.write buffer offset resize dentryOnly)) s
      (fun _ s' => BlocksOk s' ∧ WriteDone s ptr.id n buffer offset resize dentryOnly s')
      (fun e s' => e = .badAlloc ∨ e ≠ .htmpfs .requestedBufferNotFound ∧ (s' = s ∨
        BlocksOk s' ∧ WriteDone s ptr.id n buffer offset resize dentryOnly s')) := by
  obtain ⟨node, hnode, haddr, rfl⟩ := view_deref?_eq_some.mp hn
  obtain ⟨hok, _, hbs⟩ := h.inode _ node hnode
  obtain ⟨c, hc⟩ := h.data_current (view_node_eq_some.mpr ⟨node, hnode, rfl⟩)
  have hdone : ∀ v', (node.val.isDentry && !dentryOnly) = false →
      Reworked ⟨s.bufferPool, node.val⟩
        (Bank.Reallocates node.val.blockSize buffer offset resize c.length) v' →
      BlocksOk (s.withInode ptr.id v') ∧ WriteDone s ptr.id (nodeView s.bufferPool node) buffer
        offset resize dentryOnly (s.withInode ptr.id v') := by
    intro v' hkind hv
    obtain ⟨hok', horphan, hview⟩ := hv.smi h hnode
    refine ⟨hok', hkind, hview, fun c' hc' => ?_⟩
    obtain rfl := Option.some.inj (hc.symm.trans hc')
    rwa [hbs] at horphan
  rw [ends_onInode hnode haddr]
  refine (Inode.Ok.ends_write_any (v := ⟨s.bufferPool, node.val⟩) hok h.bufferSmall hoffset hlength
    hc).mono ?_ ?_
  · exact fun _ v' hv => hdone v' hv.1 hv.2
  · rintro e v' (he | ⟨he, rfl | hv⟩)
    · exact Or.inl he
    · exact Or.inr ⟨he, Or.inl (withInode_self hnode)⟩
    · exact Or.inr ⟨he, Or.inr (hdone v' hv.1 hv.2)⟩

/-- `inode->truncate(length)` -/
theorem BlocksOk.ends_truncate (h : BlocksOk s) (hn : s.view.deref? ptr = some n) {length : ℕ} :
    Ends (InodeSmi.onInode ptr (Inode.truncate length)) s
      (fun _ s' => BlocksOk s' ∧ s'.view = s.view.setCurrent ptr.id (Blocks.resize 0 length) ∧
        (HeldElsewhere s ptr.id (fun _ => True) → NoOrphan s → NoOrphan s') ∧
        ∀ j ≠ ptr.id, s'.inodePool.find? j = s.inodePool.find? j)
      (fun e _ => e = .badAlloc) := by
  obtain ⟨node, hnode, haddr, rfl⟩ := view_deref?_eq_some.mp hn
  obtain ⟨hok, _, _⟩ := h.inode _ node hnode
  rw [ends_onInode hnode haddr]
  refine (Inode.Ok.ends_truncate (v := ⟨s.bufferPool, node.val⟩) hok h.bufferSmall).mono ?_
    fun _ _ he => he
  intro _ v' hv
  obtain ⟨hok', hview, horphan, hlocal, _⟩ := hv.smi h hnode
  exact ⟨hok', hview, horphan, hlocal⟩

/-- A table overwrites all that was there. -/
theorem writeBytes_encodeTable {t : List PathPack} :
    Bank.writeBytes (encodeTable t) 0 true = fun _ => encodeTable t := by
  have hpos : (encodeTable t).length ≠ 0 := by
    simp only [encodeTable, List.length_append, LittleEndian.length_encode]
    omega
  funext c
  simp only [Bank.writeBytes, if_neg hpos, if_true, Blocks.overwrite, Nat.zero_add,
    List.take_zero, List.nil_append]
  rw [List.drop_eq_nil_of_le (by simp), List.append_nil]

/-- `save_current` replaces the current bytes of the directory by the encoded table. -/
theorem BlocksOk.ends_saveCurrent (h : BlocksOk s) {r : DirectoryResolver}
    (hn : s.view.deref? r.associatedInode = some n) :
    Ends r.saveCurrent s
      (fun _ s' => BlocksOk s' ∧
        s'.view = s.view.setCurrent r.associatedInode.id (fun _ => encodeTable r.path) ∧
        (HeldElsewhere s r.associatedInode.id (fun _ => True) → NoOrphan s → NoOrphan s') ∧
        (∀ j ≠ r.associatedInode.id, s'.inodePool.find? j = s.inodePool.find? j) ∧
        (encodeTable r.path).length < 2 ^ 64 ∧ StaysHeld s s' ∧
        KeepsBuffers s r.associatedInode.id s')
      (fun e _ => e = .badAlloc) := by
  unfold DirectoryResolver.saveCurrent
  by_cases hlen : 2 ^ 64 ≤ (encodeTable r.path).length
  · simp only [if_pos hlen]
    exact Program.ends_throw.mpr rfl
  · simp only [if_neg hlen, Program.ends_bind, Program.ends_pure]
    obtain ⟨old, hold⟩ := h.data_current (View.deref?_eq_some.mp hn).1
    refine (h.ends_write hn _ _ (by omega) hold).mono ?_ ?_
    · rintro count s' ⟨hok, _, _, hview, horphan, hlocal, hthawed, hbuffers⟩
      have hpos : (encodeTable r.path).length ≠ 0 := by
        simp only [encodeTable, List.length_append, LittleEndian.length_encode]
        omega
      refine ⟨hok, by rw [hview, writeBytes_encodeTable], fun hheld => horphan ?_, hlocal, by omega,
        StaysHeld.of_thawed hlocal (hthawed fun _ => ⟨hpos, Or.inl rfl⟩), hbuffers⟩
      exact fun node list hnode hlist j r hj hr _ => hheld node list hnode hlist j r hj hr trivial
    · rintro e s' (he | ⟨_, he | ⟨_, _, he, _⟩⟩)
      · exact he
      · simp at he
      · simp at he

theorem ends_onInodePool {α : Type} {m : EStateM Exit (IdPool Inode) α}
    {Q : α → InodeSmi → Prop} {E : Exit → InodeSmi → Prop} :
    Ends (InodeSmi.onInodePool m) s Q E ↔
      Ends m s.inodePool (fun a pool => Q a { s with inodePool := pool })
        (fun e pool => E e { s with inodePool := pool }) :=
  Program.ends_zoom rfl

/-- A new inode enters the pool. -/
theorem BlocksOk.ends_addNode (h : BlocksOk s) (hfree : s.view.node id = none) (isDir : Bool) :
    Ends (InodeSmi.onInodePool (emplace id (Inode.new s.blockSize id isDir))) s
      (fun _ s' => BlocksOk s' ∧ s'.view = s.view.addNode id isDir ∧ (NoOrphan s → NoOrphan s') ∧
        (∀ j touched, j ≠ id → HeldElsewhere s j touched → HeldElsewhere s' j touched))
      (fun e _ => e = .badAlloc) := by
  have hfree' : s.inodePool.find? id = none := view_node_eq_none.mp hfree
  rw [ends_onInodePool]
  refine ends_emplace.mono ?_ fun _ _ he => he
  rintro _ pool ⟨rfl, hsize⟩
  have hfind : ∀ j, (s.inodePool.emplace id (Inode.new s.blockSize id isDir)).find? j =
      if j = id then some ⟨1, Inode.new s.blockSize id isDir, s.inodePool.nextAddr⟩
      else s.inodePool.find? j := fun j => IdPool.find?_emplace hfree'
  refine ⟨h.withPool hsize ?_, ?_, fun horphan => horphan.withPool ?_, ?_⟩
  · intro j node hj
    rw [hfind] at hj
    split_ifs at hj with hid
    · obtain rfl := Option.some.inj hj
      exact Or.inr ⟨isDir, by rw [hid]⟩
    · exact Or.inl ⟨node, hj, rfl⟩
  · have hnodes : InodeSmi.view { s with
        inodePool := s.inodePool.emplace id (Inode.new s.blockSize id isDir) } =
        ⟨s.blockSize, (s.view.addNode id isDir).node, s.view.listing,
          (s.inodePool.emplace id (Inode.new s.blockSize id isDir)).nextAddr⟩ := by
      simp only [InodeSmi.view, View.mk.injEq, and_true, true_and]
      funext j
      rw [hfind, View.node_addNode]
      split_ifs
      · simp only [Option.map_some, nodeView, Option.some.injEq, NodeView.mk.injEq, true_and]
        refine ⟨rfl, ?_⟩
        funext ver
        simp only [Inode.data, Inode.new, getElem?_insert_version]
        split_ifs
        · rfl
        · simp
      · rfl
    rw [hnodes, IdPool.nextAddr_emplace hfree']
    rfl
  · intro j node b hj _
    refine ⟨node, ?_, rfl⟩
    rw [hfind, if_neg]
    · exact hj
    · rintro rfl
      rw [hfree'] at hj
      simp at hj
  · intro j touched hne hheld node list hj
    simp only [hfind, if_neg hne] at hj
    exact hheld node list hj

/-- The nodes of the pool with other link counts, perhaps one of them gone. -/
theorem BlocksOk.relink (h : BlocksOk s) {node : PoolNode Inode}
    (hnode : s.inodePool.find? id = some node) (pool : IdPool Inode) {m : Option ℕ}
    (hsize : pool.size ≤ s.inodePool.size) (hmax : pool.maxSize = s.inodePool.maxSize)
    (haddr : pool.nextAddr = s.inodePool.nextAddr)
    (hfind : ∀ j, pool.find? j =
      if j = id then m.map fun k => { node with linkCount := k } else s.inodePool.find? j) :
    BlocksOk { s with inodePool := pool } ∧
      InodeSmi.view { s with inodePool := pool } =
        s.view.update id (fun n => m.map fun k => { n with linkCount := k }) ∧
      ((m = none → ∀ b, ¬ node.val.Owns b) → NoOrphan s →
        NoOrphan { s with inodePool := pool }) := by
  refine ⟨h.withPool (hmax ▸ lt_of_le_of_lt hsize h.inodeSmall) ?_, ?_, fun hempty horphan =>
    horphan.withPool ?_⟩
  · intro j node' hj
    rw [hfind] at hj
    split_ifs at hj with hid
    · obtain ⟨k, _, rfl⟩ := Option.map_eq_some_iff.mp hj
      exact Or.inl ⟨node, by rw [hid, hnode], rfl⟩
    · exact Or.inl ⟨node', hj, rfl⟩
  · have hnodes : InodeSmi.view { s with inodePool := pool } =
        ⟨s.blockSize, (s.view.update id (fun n => m.map fun k => { n with linkCount := k })).node,
          s.view.listing, pool.nextAddr⟩ := by
      simp only [InodeSmi.view, View.mk.injEq, and_true, true_and]
      funext j
      rw [hfind, View.node_update]
      split_ifs
      · simp only [hnode, Option.map_some, Option.bind_some]
        cases m <;> rfl
      · rfl
    rw [hnodes, haddr]
    rfl
  · intro j node' b hj hown
    rw [hfind]
    split_ifs with hid
    · subst hid
      obtain rfl := Option.some.inj (hnode.symm.trans hj)
      cases hm : m with
      | none => exact absurd hown (hempty hm b)
      | some k => exact ⟨_, rfl, rfl⟩
    · exact ⟨node', hj, rfl⟩

/-- One link less. -/
theorem BlocksOk.ends_dropLink (h : BlocksOk s) {node : PoolNode Inode}
    (hnode : s.inodePool.find? id = some node) :
    Ends (InodeSmi.onInodePool (InodeSmi.dropLink id node)) s
      (fun _ s' => BlocksOk s' ∧ s'.view = s.view.dropLink id ∧
        ((decrement node.linkCount = 0 → ∀ b, ¬ node.val.Owns b) → NoOrphan s → NoOrphan s') ∧
        (∀ j ≠ id, s'.inodePool.find? j = s.inodePool.find? j) ∧ StaysHeld s s' ∧
        s'.bufferPool = s.bufferPool)
      (fun _ _ => False) := by
  rw [ends_onInodePool]
  unfold InodeSmi.dropLink
  rw [Program.ends_modify]
  have hview : s.view.dropLink id = s.view.update id (fun n =>
      (if decrement node.linkCount = 0 then none else some (decrement node.linkCount)).map
        fun k => { n with linkCount := k }) := by
    have hn : s.view.node id = some (nodeView s.bufferPool node) := by
      rw [view_node, hnode]
      rfl
    unfold View.dropLink View.update
    simp only [View.mk.injEq, and_self, and_true, true_and]
    funext j
    split_ifs with hj hzero
    · simp only [hn, Option.bind_some, NodeView.dropLink, nodeView, if_pos hzero, Option.map_none]
    · simp only [hn, Option.bind_some, NodeView.dropLink, nodeView, if_neg hzero, Option.map_some]
    · rfl
  rw [hview]
  split_ifs with hzero
  · obtain ⟨h', hview', horphan⟩ := h.relink hnode _ (m := none) IdPool.size_erase_le
      IdPool.maxSize_erase rfl fun j => by
      rw [IdPool.find?_erase]
      rfl
    refine ⟨h', hview', fun hempty => horphan fun _ => hempty hzero, fun j hj => ?_,
      StaysHeld.withPool fun j node' hj => ?_, rfl⟩
    · exact IdPool.find?_erase.trans (if_neg hj)
    · rw [IdPool.find?_erase] at hj
      split_ifs at hj
      exact ⟨node', hj, rfl⟩
  · obtain ⟨h', hview', horphan⟩ := h.relink hnode
      (s.inodePool.setLinkCount id (decrement node.linkCount)) (m := some (decrement node.linkCount))
      IdPool.size_setLinkCount.le IdPool.maxSize_setLinkCount rfl fun j => by
        rw [IdPool.find?_setLinkCount, hnode]
        rfl
    refine ⟨h', hview', fun _ => horphan (by simp), fun j hj => ?_,
      StaysHeld.withPool fun j node' hj => ?_, rfl⟩
    · exact IdPool.find?_setLinkCount.trans (if_neg hj)
    · rw [IdPool.find?_setLinkCount] at hj
      split_ifs at hj with hid
      · obtain ⟨node₀, hnode₀, rfl⟩ := Option.map_eq_some_iff.mp hj
        exact ⟨node₀, by rw [hid, hnode₀], rfl⟩
      · exact ⟨node', hj, rfl⟩

end Steps

end Htmpfs
