import Mathlib
import Htmpfs.Library.Runs
import Htmpfs.SoundRename

/-!
# Runs of the file system

The operations of `inode_smi_t` and of its inodes, called one after the other
from a new file system.  A call that throws is a step too; a run ends where
memory is exhausted.
-/

namespace Htmpfs

open Program (Ends Leaves)

/-- A call from outside, with its arguments. -/
inductive SmiOp
  | makeChild (parent : ℕ) (name : Bytes) (isDir : Bool)
  | removeChild (parent : ℕ) (name : Bytes)
  | createSnapshot (ver : SnapshotVer)
  | deleteSnapshot (ver : SnapshotVer)
  | write (id : ℕ) (buffer : Bytes) (offset : ℕ) (resize : Bool)
  | truncate (id length : ℕ)
  | rename (ctx : FuseContext) (path name : CString)

/-- `get_inode_by_id(id)->...` -/
def InodeSmi.onInodeId {α : Type} (id : ℕ) (m : InodeM α) : SmiM α := do
  let inode ← Program.reads (InodeSmi.getInodeById id)
  InodeSmi.onInode inode m

namespace SmiOp

def run : SmiOp → SmiM Unit
  | makeChild parent name isDir => do
      let _ ← InodeSmi.makeChildDentryUnderParent parent name isDir
  | removeChild parent name => InodeSmi.removeChildDentryUnderParent parent name
  | createSnapshot ver => InodeSmi.createSnapshotVolume ver
  | deleteSnapshot ver => InodeSmi.deleteSnapshotVolume ver
  | write id buffer offset resize => do
      let _ ← InodeSmi.onInodeId id (Inode.write buffer offset resize false)
  | truncate id length => InodeSmi.onInodeId id (Inode.truncate length)
  | rename ctx path name => do
      let _ ← Fuse.doRename ctx path name

/-- The names entered in a directory have at most 127 bytes. -/
def NamesFit : SmiOp → Prop
  | makeChild _ name _ => NameFits name
  | rename _ _ name => ∀ c ∈ comps name.1, NameFits c
  | _ => True

/-- No 64-bit sum overflows. -/
def SizesFit : SmiOp → Prop
  | write _ buffer offset _ => offset + buffer.length < 2 ^ 64
  | _ => True

/-- The offset and the length of a write are 64-bit numbers. -/
def Is64Bit : SmiOp → Prop
  | write _ buffer offset _ => offset < 2 ^ 64 ∧ buffer.length < 2 ^ 64
  | _ => True

/-- No directory is cut or extended. -/
def CutsFile (w : View) : SmiOp → Prop
  | truncate id _ => ∀ n, w.node id = some n → n.isDentry = false
  | _ => True

/-- The root is not renamed. -/
def KeepsRoot (w : View) : SmiOp → Prop
  | rename _ path _ => w.resolve path.1 ≠ .ok rootInodeNumber
  | _ => True

/-- What the operations may be called with, whatever the names are. -/
structure Allowed (s : InodeSmi) (op : SmiOp) : Prop where
  sizes : op.Is64Bit
  file : op.CutsFile s.view
  root : op.KeepsRoot s.view

/-- What the operations may be called with. -/
structure Admitted (s : InodeSmi) (op : SmiOp) : Prop extends Allowed s op where
  names : op.NamesFit

end SmiOp

/-- One call, admitted where it is made, that returned or threw. -/
def SmiStep (s s' : InodeSmi) : Prop :=
  ∃ op : SmiOp, op.Admitted s ∧ Leaves Exit.Thrown op.run s s'

/-! ## A new file system -/

/-- A file system with an empty root directory only. -/
structure Fresh (limits : PoolLimits) (blockSize : ℕ) (s : InodeSmi) : Prop where
  blockSize_eq : s.blockSize = blockSize
  root : s.filesystemRoot = ⟨rootInodeNumber, 0⟩
  buffers : s.bufferPool = IdPool.empty limits.bufferMax
  inodeMax : s.inodePool.maxSize = limits.inodeMax
  size : s.inodePool.size = 1
  nextAddr : s.inodePool.nextAddr = 1
  find : ∃ node : PoolNode Inode, node.linkCount = 1 ∧ node.addr = 0 ∧
    { node.val with fsStat := {} } = Inode.new blockSize rootInodeNumber true ∧
    ∀ id, s.inodePool.find? id = if id = rootInodeNumber then some node else none
  listing : ∀ ver, s.snapshotVersionList[ver]? =
    if ver = curModifiableVer then some [rootEntry] else none

section Fresh

variable {limits : PoolLimits} {blockSize : ℕ} {s : InodeSmi}

theorem find?_new (id : ℕ) : (InodeSmi.new limits blockSize).inodePool.find? id =
    if id = rootInodeNumber then some ⟨1, Inode.new blockSize rootInodeNumber true, 0⟩ else none := by
  have hfind : ((IdPool.empty limits.inodeMax : IdPool Inode).emplace rootInodeNumber
      (Inode.new blockSize rootInodeNumber true)).find? id =
      if id = rootInodeNumber then some ⟨1, Inode.new blockSize rootInodeNumber true, 0⟩
      else (IdPool.empty limits.inodeMax : IdPool Inode).find? id :=
    IdPool.find?_emplace IdPool.find?_empty
  rw [IdPool.find?_empty] at hfind
  exact hfind

theorem fresh_new (limits : PoolLimits) (blockSize : ℕ) :
    Fresh limits blockSize (InodeSmi.new limits blockSize) where
  blockSize_eq := rfl
  root := rfl
  buffers := rfl
  inodeMax := rfl
  size := rfl
  nextAddr := rfl
  find := ⟨_, rfl, rfl, rfl, find?_new⟩
  listing := fun ver => by
    unfold InodeSmi.new
    rw [getElem?_insert_version]
    split_ifs
    · rfl
    · simp

theorem find?_mount (limits : PoolLimits) (blockSize : ℕ) (ctx : FuseContext) : ∃ st, ∀ id,
    (mount ctx limits blockSize).inodePool.find? id = if id = rootInodeNumber then
      some ⟨1, { Inode.new blockSize rootInodeNumber true with fsStat := st }, 0⟩ else none := by
  apply Exists.intro
  intro id
  unfold mount
  rw [IdPool.find?_modify, find?_new, find?_new, if_pos rfl]
  split_ifs
  · rfl
  · rfl

theorem fresh_mount {ctx : FuseContext} :
    Fresh limits blockSize (mount ctx limits blockSize) := by
  obtain ⟨st, hfind⟩ := find?_mount limits blockSize ctx
  exact { blockSize_eq := rfl, root := rfl, buffers := rfl, inodeMax := rfl, size := rfl,
          nextAddr := rfl, find := ⟨_, rfl, rfl, rfl, hfind⟩,
          listing := (fresh_new limits blockSize).listing }

/-- The one list of blocks is the empty current one. -/
theorem Fresh.bufferMap {inode : Inode}
    (h : { inode with fsStat := {} } = Inode.new blockSize rootInodeNumber true)
    (ver : SnapshotVer) :
    inode.bufferMap[ver]? = if ver = curModifiableVer then some [] else none := by
  have hmap := congrArg Inode.bufferMap h
  dsimp only at hmap
  rw [hmap]
  unfold Inode.new
  rw [getElem?_insert_version]
  split_ifs
  · rfl
  · simp

theorem Fresh.inode_ok (hpos : 0 < blockSize) (hword : blockSize < 2 ^ 64) {inode : Inode}
    {pool : IdPool Buffer}
    (h : { inode with fsStat := {} } = Inode.new blockSize rootInodeNumber true) :
    inode.Ok pool := by
  have hlist : ∀ (v : SnapshotVer) (list : List BufferResult),
      inode.bufferMap[v]? = some list → list = [] := by
    intro v list hv
    rw [Fresh.bufferMap h] at hv
    split_ifs at hv
    exact (Option.some.inj hv).symm
  have hsize := congrArg Inode.blockSize h
  dsimp only [Inode.new] at hsize
  refine { blockSize_pos := hsize ▸ hpos, blockSize_lt := hsize ▸ hword,
           current := ⟨[], by rw [Fresh.bufferMap h, if_pos rfl]⟩, list := ?_, unfrozen := ?_,
           count := ?_ }
  · intro v list hv
    rw [hlist v list hv]
    exact ⟨by simp, by simp, ⟨0, rfl⟩, Bank.blocksFit_zero⟩
  · intro list hv r hr
    rw [hlist _ list hv] at hr
    simp at hr
  · rintro b ⟨v, list, hv, hb⟩
    rw [hlist v list hv] at hb
    simp at hb

theorem Fresh.blocksOk (h : Fresh limits blockSize s) (hpos : 0 < blockSize)
    (hword : blockSize < 2 ^ 64) : BlocksOk s := by
  obtain ⟨root, _, _, hroot, hfind⟩ := h.find
  have hcases : ∀ id node, s.inodePool.find? id = some node → id = rootInodeNumber ∧ node = root := by
    intro id node hnode
    rw [hfind] at hnode
    split_ifs at hnode with hid
    exact ⟨hid, (Option.some.inj hnode).symm⟩
  refine { blockSize_pos := h.blockSize_eq ▸ hpos, blockSize_lt := h.blockSize_eq ▸ hword,
           root := h.root, inode := ?_, disjoint := ?_, bufferSmall := ?_, inodeSmall := ?_ }
  · intro id node hnode
    obtain ⟨rfl, rfl⟩ := hcases id node hnode
    exact ⟨Fresh.inode_ok hpos hword hroot, congrArg Inode.inodeId hroot,
      (congrArg Inode.blockSize hroot).trans h.blockSize_eq.symm⟩
  · intro id id' node node' b hnode hnode' _ _
    exact (hcases id node hnode).1.trans (hcases id' node' hnode').1.symm
  · rw [h.buffers, IdPool.size_empty, IdPool.maxSize_empty]
    exact limits.bufferMax_pos
  · rw [h.size, h.inodeMax]
    exact limits.inodeMax_pos

theorem Fresh.noOrphan (h : Fresh limits blockSize s) : NoOrphan s := by
  intro b hb
  rw [h.buffers, IdPool.find?_empty] at hb
  simp at hb

theorem Fresh.view_node (h : Fresh limits blockSize s) {id : ℕ} {n : NodeView}
    (hn : s.view.node id = some n) : id = rootInodeNumber ∧ n.linkCount = 1 ∧ n.addr = 0 ∧
      n.isDentry = true ∧ ∀ ver, n.data ver = if ver = curModifiableVer then some [] else none := by
  obtain ⟨root, hcount, haddr, hroot, hfind⟩ := h.find
  obtain ⟨node, hnode, rfl⟩ := view_node_eq_some.mp hn
  rw [hfind] at hnode
  split_ifs at hnode with hid
  obtain rfl := Option.some.inj hnode
  refine ⟨hid, hcount, haddr, congrArg Inode.isDentry hroot, fun ver => ?_⟩
  simp only [nodeView, Inode.data, Fresh.bufferMap hroot]
  split_ifs
  · rfl
  · rfl

theorem Fresh.view_lists (h : Fresh limits blockSize s) (ver : SnapshotVer) (e : InodeResult) :
    s.view.Lists ver e ↔ ver = curModifiableVer ∧ e = rootEntry := by
  unfold View.Lists
  have hlisting : s.view.listing ver = _ := h.listing ver
  rw [hlisting]
  split_ifs with hver
  · simp [hver]
  · simp [hver]

theorem Fresh.links (h : Fresh limits blockSize s) {clean : Prop} : Links clean s.view := by
  obtain ⟨root, hcount, haddr, hroot, hfind⟩ := h.find
  have hnext : s.view.nextAddr = 1 := h.nextAddr
  have hentry : ∀ id n, s.view.node id = some n → entryOf id n = rootEntry := by
    intro id n hn
    obtain ⟨rfl, _, haddr, _⟩ := h.view_node hn
    unfold entryOf
    rw [haddr]
    rfl
  refine { nodup := ?_, nodeAddr := ?_, entry := ?_, live := ?_, data := ?_, count := ?_,
           pos := ?_, root := (h.view_lists _ _).mpr ⟨rfl, rfl⟩ }
  · intro ver list hlist
    have hlisting : s.view.listing ver = _ := h.listing ver
    rw [hlist] at hlisting
    split_ifs at hlisting
    rw [Option.some.inj hlisting]
    simp
  · intro id n hn
    rw [(h.view_node hn).2.2.1, hnext]
    exact Nat.one_pos
  · intro ver e he
    obtain ⟨_, rfl⟩ := (h.view_lists ver e).mp he
    rw [hnext]
    exact ⟨rfl, Nat.one_pos⟩
  · intro ver e he _
    obtain ⟨_, rfl⟩ := (h.view_lists ver e).mp he
    have hn : s.view.node rootInodeNumber = some (nodeView s.bufferPool root) :=
      view_node_eq_some.mpr ⟨root, by rw [hfind, if_pos rfl], rfl⟩
    exact ⟨_, hn, (hentry _ _ hn).symm⟩
  · intro ver id n hn
    rw [(h.view_node hn).2.2.2.2, h.view_lists, hentry id n hn]
    split_ifs with hver
    · simp [hver]
    · simp [hver]
  · intro id n hn _
    have hversions : s.view.versionsOf (entryOf id n) = {curModifiableVer} := by
      ext ver
      rw [hentry id n hn]
      simp [View.versionsOf, h.view_lists]
    rw [hversions, (h.view_node hn).2.1, Set.encard_singleton]
    rfl
  · intro id n hn
    rw [(h.view_node hn).2.1]
    exact Nat.one_pos

theorem Fresh.tableAt (h : Fresh limits blockSize s) (id : ℕ) (ver : SnapshotVer) :
    s.view.tableAt id ver = .ok [] ∨ ∃ e, s.view.tableAt id ver = .error e ∧ e ≠ .undefined := by
  cases hn : s.view.node id with
  | none => exact Or.inr ⟨.outOfRange, View.tableAt_of_none hn, by simp⟩
  | some n =>
      obtain ⟨_, _, _, hdir, hdata⟩ := h.view_node hn
      rw [View.tableAt_of_node hn]
      by_cases hver : ver = curModifiableVer
      · exact Or.inl (NodeView.table_eq_ok.mpr
          ⟨hdir, [], by rw [hdata, if_pos hver], fun hwrap => hwrap.1 rfl, rfl⟩)
      · exact Or.inr (NodeView.table_of_none (by rw [hdata, if_neg hver]))

theorem Fresh.table_eq_nil (h : Fresh limits blockSize s) {id : ℕ} {ver : SnapshotVer}
    {t : List PathPack} (ht : s.view.tableAt id ver = .ok t) : t = [] := by
  rcases h.tableAt id ver with hok | ⟨e, he, _⟩
  · exact (Except.ok.inj (hok.symm.trans ht)).symm
  · rw [he] at ht
    simp at ht

/-- Only the current version is there. -/
theorem Fresh.eq_current (h : Fresh limits blockSize s) {ver : SnapshotVer}
    (hver : (s.view.listing ver).isSome) : ver = curModifiableVer := by
  have hlisting : s.view.listing ver = _ := h.listing ver
  rw [hlisting] at hver
  split_ifs at hver with hcur
  · exact hcur
  · simp at hver

theorem Fresh.sound (h : Fresh limits blockSize s) : Sound s.view := by
  refine { links := h.links, rooted := ?_, names := ?_, listed := ?_, unique := ?_,
           rootless := ?_, defined := ?_ }
  · intro ver hver
    exact (h.view_lists _ _).mpr ⟨h.eq_current hver, rfl⟩
  · intro id ver t ht
    simp [h.table_eq_nil ht]
  · intro id ver t ht p hp
    simp [h.table_eq_nil ht] at hp
  · intro i j t t' ht ht' p hp
    simp [h.table_eq_nil ht] at hp
  · intro id ver t ht p hp
    simp [h.table_eq_nil ht] at hp
  · intro id ver hundef
    rcases h.tableAt id ver with hok | ⟨e, he, hne⟩
    · rw [hok] at hundef
      simp at hundef
    · rw [he] at hundef
      exact hne (Except.error.inj hundef)

end Fresh

/-! ## What one call does -/

/-- What an admitted call does to the view. -/
inductive View.Changes (w : View) : SmiOp → View → Prop
  | none {op : SmiOp} : Changes w op w
  | makes {parent id : ℕ} {name : Bytes} {isDir : Bool} {w' : View}
      (hstep : w.MakesChild parent name isDir id w') : Changes w (.makeChild parent name isDir) w'
  | removes {parent : ℕ} {name : Bytes} {w' : View} (hstep : w.RemovesChild parent name w') :
      Changes w (.removeChild parent name) w'
  | creates {ver : SnapshotVer} {w' : View} (hstep : w.CreatesSnapshot ver w') :
      Changes w (.createSnapshot ver) w'
  | deletes {ver : SnapshotVer} {w' : View} (hstep : w.DeletesSnapshot ver w') :
      Changes w (.deleteSnapshot ver) w'
  | rewrites {op : SmiOp} {id : ℕ} {n : NodeView} (f : Bytes → Bytes) (hn : w.node id = some n)
      (hfile : n.isDentry = false) : Changes w op (w.setCurrent id f)
  | overflows {op : SmiOp} {id : ℕ} {n : NodeView} (g : NodeView → NodeView)
      (hn : w.node id = some n) (hfile : n.isDentry = false) (hg : n.Rewrites (g n))
      (hsizes : ¬ op.SizesFit) : Changes w op (w.update id fun n => some (g n))
  | renames {ctx : FuseContext} {path name : CString} {w' : View}
      (hstep : w.Renames path.1 name.1 w') : Changes w (.rename ctx path name) w'

section Steps

variable {s s' : InodeSmi} {op : SmiOp}

theorem ends_onInodeId {α : Type} {id : ℕ} {m : InodeM α} {Q : α → InodeSmi → Prop}
    {E : Exit → InodeSmi → Prop}
    (hQ : ∀ n, s.view.node id = some n → Ends (InodeSmi.onInode ⟨id, n.addr⟩ m) s Q E)
    (hE : ∀ e, s.view.node id = none → Fails s e s → E e s) :
    Ends (InodeSmi.onInodeId id m) s Q E := by
  unfold InodeSmi.onInodeId
  rw [Program.ends_bind]
  exact ends_getInodeById hQ hE

/-- A call that threw for good, and what it had done by then. -/
def Stops (s : InodeSmi) (op : SmiOp) (e : Exit) (s' : InodeSmi) : Prop :=
  e.Thrown → e ≠ .htmpfs .requestedBufferNotFound ∧ BlocksOk s' ∧ s.view.Changes op s'.view

theorem Fails.stops (h : BlocksOk s) {e : Exit} (hfails : Fails s e s') : Stops s op e s' := by
  intro hthrown
  obtain ⟨rfl, he⟩ := hfails hthrown
  exact ⟨he, h, View.Changes.none⟩

theorem SmiOp.ends_run (h : BlocksOk s) (hs : Named s.view) (hop : op.Allowed s) :
    Ends op.run s (fun _ s' => BlocksOk s' ∧ s.view.Changes op s'.view) (Stops s op) := by
  obtain ⟨list, hlist⟩ := hs.links.exists_current
  cases op with
  | makeChild parent name isDir =>
      unfold SmiOp.run
      rw [Program.ends_bind]
      refine (h.ends_makeChild hlist).mono ?_ fun _ _ he => he.1.stops h
      rintro _ s' ⟨h', hstep, _⟩
      exact ⟨h', View.Changes.makes hstep⟩
  | removeChild parent name =>
      refine (h.ends_removeChild hlist).mono ?_ fun _ _ he => he.1.stops h
      rintro _ s' ⟨h', hstep, _⟩
      exact ⟨h', View.Changes.removes hstep⟩
  | createSnapshot ver =>
      refine (h.ends_createSnapshot_of_links hs.links _).mono ?_ fun _ _ he => he.fails.stops h
      rintro _ s' ⟨h', hstep, _⟩
      exact ⟨h', View.Changes.creates hstep⟩
  | deleteSnapshot ver =>
      refine (h.ends_deleteSnapshot_of_links hs.links _).mono ?_ fun _ _ he => he.fails.stops h
      rintro _ s' ⟨h', hstep, _⟩
      exact ⟨h', View.Changes.deletes hstep⟩
  | write id buffer offset resize =>
      unfold SmiOp.run
      rw [Program.ends_bind]
      refine ends_onInodeId (fun n hn => ?_) fun e _ he => he.stops h
      by_cases hwrap : offset + buffer.length < 2 ^ 64
      · obtain ⟨c, hc⟩ := h.data_current hn
        refine (h.ends_write (View.deref?_of_node hn) resize false hwrap hc).mono ?_ ?_
        · rintro _ s' ⟨h', _, hkind, hview, _⟩
          exact ⟨h', hview ▸ View.Changes.rewrites _ hn (by simpa using hkind)⟩
        · rintro e s' (rfl | ⟨rfl, ⟨_, rfl⟩ | ⟨rfl, _⟩⟩)
          · exact (Fails.badAlloc rfl).stops h
          · exact (Fails.of_reader (by simp)).stops h
          · exact (Fails.of_reader (by simp)).stops h
      · have hwrite := h.ends_write_any (View.deref?_of_node hn) resize false hop.sizes.1
          hop.sizes.2
        have hchange : ∀ s', BlocksOk s' ∧ WriteDone s id n buffer offset resize false s' →
            BlocksOk s' ∧ s.view.Changes (.write id buffer offset resize) s'.view := by
          rintro s' ⟨h', hkind, ⟨g, hg, hview⟩, _⟩
          exact ⟨h', hview ▸ View.Changes.overflows g hn (by simpa using hkind) hg hwrap⟩
        refine hwrite.mono ?_ ?_
        · exact fun _ s' hs' => hchange s' hs'
        · rintro e s' (rfl | ⟨he, rfl | hs'⟩)
          · exact (Fails.badAlloc rfl).stops h
          · exact (Fails.of_reader he).stops h
          · exact fun _ => ⟨he, hchange s' hs'⟩
  | truncate id length =>
      refine ends_onInodeId (fun n hn => ?_) fun e _ he => he.stops h
      refine (h.ends_truncate (View.deref?_of_node hn)).mono ?_ fun _ _ he =>
        (Fails.badAlloc he).stops h
      rintro _ s' ⟨h', hview, _⟩
      exact ⟨h', hview ▸ View.Changes.rewrites _ hn (hop.file n hn)⟩
  | rename ctx path name =>
      unfold SmiOp.run
      rw [Program.ends_bind]
      refine (Fuse.ends_doRename h hs.links.weaken).mono ?_ fun e s' he hthrown =>
        absurd hthrown he
      rintro r s' (⟨rfl, _⟩ | ⟨_, h', hstep⟩ | ⟨_, _, hspoils⟩)
      · exact ⟨h, View.Changes.none⟩
      · exact ⟨h', View.Changes.renames hstep⟩
      · obtain ⟨_, _, _, _, _, hargs, _⟩ := hspoils.source_root hs.links hs.names
        exact absurd hargs.source hop.root

theorem SmiOp.leaves_run (h : BlocksOk s) (hs : Named s.view) (hop : op.Allowed s)
    (hrun : Leaves Exit.Thrown op.run s s') : BlocksOk s' ∧ s.view.Changes op s'.view := by
  rcases (SmiOp.ends_run h hs hop).leaves hrun with hchange | ⟨e, hthrown, hstops⟩
  · exact hchange.choose_spec
  · exact (hstops hthrown).2

/-- An admitted call keeps directories sound. -/
theorem Sound.changes {w w' : View} (h : Sound w) (hstep : w.Changes op w')
    (hnames : op.NamesFit) (hroot : op.KeepsRoot w) : Sound w' := by
  cases hstep with
  | none => exact h
  | makes hstep => exact h.makesChild hstep hnames
  | removes hstep => exact h.removesChild hstep
  | creates hstep => exact h.createsSnapshot hstep
  | deletes hstep => exact h.deletesSnapshot hstep
  | rewrites f hn hfile => exact h.rewrites hn hfile NodeView.rewrites_setCurrent
  | overflows g hn hfile hg _ => exact h.rewrites hn hfile hg
  | @renames ctx path name _ hstep => exact h.renames hstep name.2.1 hnames hroot

/-- A step ends in the state it started from, or with the change that was asked for. -/
theorem SmiStep.inv (hstep : SmiStep s s') (h : BlocksOk s) (hs : Sound s.view) :
    ∃ op : SmiOp, op.Admitted s ∧ BlocksOk s' ∧ s.view.Changes op s'.view := by
  obtain ⟨op, hop, hrun⟩ := hstep
  obtain ⟨h', hchange⟩ := SmiOp.leaves_run h hs.toNamed hop.toAllowed hrun
  exact ⟨op, hop, h', hchange⟩

theorem SmiStep.sound (hstep : SmiStep s s') (h : BlocksOk s ∧ Sound s.view) :
    BlocksOk s' ∧ Sound s'.view := by
  obtain ⟨op, hop, h', hchange⟩ := hstep.inv h.1 h.2
  exact ⟨h', h.2.changes hchange hop.names hop.root⟩

theorem sound_of_run (hrun : Relation.ReflTransGen SmiStep s s') (h : BlocksOk s ∧ Sound s.view) :
    BlocksOk s' ∧ Sound s'.view :=
  Program.run_preserves (I := fun t => BlocksOk t ∧ Sound t.view) hrun h
    fun _ _ ht hstep => SmiStep.sound hstep ht

end Steps

/-- A version lists the inode of an id. -/
def InodeSmi.ListsInode (s : InodeSmi) (ver : SnapshotVer) (id : ℕ) : Prop :=
  ∃ list, s.snapshotVersionList[ver]? = some list ∧ id ∈ list.map (·.id)

theorem listsInode_iff {s : InodeSmi} {ver : SnapshotVer} {id : ℕ} :
    s.ListsInode ver id ↔ s.view.ListsId ver id := by
  unfold InodeSmi.ListsInode View.ListsId View.Lists
  constructor
  · rintro ⟨list, hlist, hid⟩
    obtain ⟨e, he, rfl⟩ := List.mem_map.mp hid
    exact ⟨e, ⟨list, hlist, he⟩, rfl⟩
  · rintro ⟨e, ⟨list, hlist, he⟩, rfl⟩
    exact ⟨list, hlist, List.mem_map_of_mem he⟩

/-- The states of a file system of some 64-bit block size. -/
def SmiReachable (s : InodeSmi) : Prop :=
  ∃ limits blockSize, 0 < blockSize ∧ blockSize < 2 ^ 64 ∧
    Relation.ReflTransGen SmiStep (InodeSmi.new limits blockSize) s

/-- What every reachable state has. -/
theorem SmiReachable.sound {s : InodeSmi} (h : SmiReachable s) : BlocksOk s ∧ Sound s.view := by
  obtain ⟨limits, blockSize, hpos, hword, hrun⟩ := h
  exact sound_of_run hrun ⟨(fresh_new limits blockSize).blocksOk hpos hword,
    (fresh_new limits blockSize).sound⟩

theorem SmiStep.of_outcome {s : InodeSmi} {op : SmiOp} (hop : op.Admitted s)
    (h : Program.outcome op.run s = .ok ()) : SmiStep s (Program.exec op.run s) :=
  ⟨op, hop, Program.leaves_exec h⟩

theorem SmiOp.admitted_makeChild {s : InodeSmi} {parent : ℕ} {name : Bytes} {isDir : Bool}
    (hname : NameFits name) : (SmiOp.makeChild parent name isDir).Admitted s :=
  ⟨⟨trivial, trivial, trivial⟩, hname⟩

/-- A file system with an empty file `a` in its root. -/
def sampleSmi : InodeSmi :=
  Program.exec (SmiOp.makeChild 0 [97] false).run (InodeSmi.new .libstdcxx 512)

theorem smiReachable_sampleSmi : SmiReachable sampleSmi :=
  ⟨.libstdcxx, 512, by decide, by decide, Relation.ReflTransGen.single
    (SmiStep.of_outcome (SmiOp.admitted_makeChild (by decide)) (by decide +kernel))⟩

end Htmpfs
