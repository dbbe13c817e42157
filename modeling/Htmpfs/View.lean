import Mathlib
import Htmpfs.InodeSmi

/-!
# The file system without its blocks

What a user of the file system can tell apart: for every inode its kind, its
links and, version by version, its bytes; and for every version the inodes it
lists.  A snapshot is here what it is meant to be, a copy.
-/

namespace Htmpfs

/-- An inode as its users see it; `addr` tells it from later inodes of the same id. -/
structure NodeView where
  linkCount : ℕ
  addr : ℕ
  isDentry : Bool
  data : SnapshotVer → Option Bytes

/-- The file system as its users see it. -/
structure View where
  blockSize : ℕ
  node : ℕ → Option NodeView
  listing : SnapshotVer → Option (List InodeResult)
  nextAddr : ℕ

namespace NodeView

/-- What `to_string` gives of a version.  Where the size of one block and a terminator wraps around
to 0, no bytes are read back. -/
def toString (n : NodeView) (blockSize : ℕ) (ver : SnapshotVer) : Except Exit Bytes :=
  match n.data ver with
  | none => throw (.htmpfs .noSuchSnapshot)
  | some c => if c ≠ [] ∧ blockSize + 1 = 2 ^ 64 then throw (.htmpfs .bufferShortOps) else pure c

/-- The directory table of a version. -/
def table (n : NodeView) (blockSize : ℕ) (ver : SnapshotVer) : Except Exit (List PathPack) :=
  if n.isDentry then do
    let allPath ← n.toString blockSize ver
    decodeTable allPath
  else throw (.htmpfs .notADirectory)

/-- The current bytes changed. -/
def setCurrent (n : NodeView) (f : Bytes → Bytes) : NodeView :=
  { n with data := fun ver => if ver = curModifiableVer then (n.data ver).map f else n.data ver }

/-- One more link and a copy of the current bytes. -/
def freeze (n : NodeView) (ver : SnapshotVer) : NodeView :=
  { n with
    linkCount := n.linkCount + 1
    data := fun u => if u = ver then n.data curModifiableVer else n.data u }

/-- The bytes of a version given up. -/
def unfreeze (n : NodeView) (ver : SnapshotVer) : NodeView :=
  { n with data := fun u => if u = ver then none else n.data u }

/-- One link less; without links the inode is gone. -/
def dropLink (n : NodeView) : Option NodeView :=
  if decrement n.linkCount = 0 then none else some { n with linkCount := decrement n.linkCount }

/-- Other bytes, at the same versions. -/
structure Rewrites (n n' : NodeView) : Prop where
  linkCount : n'.linkCount = n.linkCount
  addr : n'.addr = n.addr
  isDentry : n'.isDentry = n.isDentry
  data : ∀ ver, (n'.data ver).isSome = (n.data ver).isSome

section Lemmas

variable {n : NodeView} {ver u : SnapshotVer} {f : Bytes → Bytes}

@[simp] theorem linkCount_setCurrent : (n.setCurrent f).linkCount = n.linkCount := rfl
@[simp] theorem addr_setCurrent : (n.setCurrent f).addr = n.addr := rfl
@[simp] theorem isDentry_setCurrent : (n.setCurrent f).isDentry = n.isDentry := rfl

theorem data_setCurrent_self :
    (n.setCurrent f).data curModifiableVer = (n.data curModifiableVer).map f := by
  simp only [setCurrent, if_true]

theorem data_setCurrent_of_ne (h : ver ≠ curModifiableVer) :
    (n.setCurrent f).data ver = n.data ver := if_neg h

theorem rewrites_setCurrent : n.Rewrites (n.setCurrent f) where
  linkCount := rfl
  addr := rfl
  isDentry := rfl
  data := by
    intro ver
    simp only [setCurrent]
    split_ifs <;> simp

@[simp] theorem linkCount_freeze : (n.freeze ver).linkCount = n.linkCount + 1 := rfl
@[simp] theorem addr_freeze : (n.freeze ver).addr = n.addr := rfl
@[simp] theorem isDentry_freeze : (n.freeze ver).isDentry = n.isDentry := rfl

theorem data_freeze_self : (n.freeze ver).data ver = n.data curModifiableVer := if_pos rfl

theorem data_freeze_of_ne (h : u ≠ ver) : (n.freeze ver).data u = n.data u := if_neg h

@[simp] theorem linkCount_unfreeze : (n.unfreeze ver).linkCount = n.linkCount := rfl
@[simp] theorem addr_unfreeze : (n.unfreeze ver).addr = n.addr := rfl
@[simp] theorem isDentry_unfreeze : (n.unfreeze ver).isDentry = n.isDentry := rfl

theorem data_unfreeze_self : (n.unfreeze ver).data ver = none := if_pos rfl

theorem data_unfreeze_of_ne (h : u ≠ ver) : (n.unfreeze ver).data u = n.data u := if_neg h

theorem dropLink_eq_some {n' : NodeView} (hn : 0 < n.linkCount) :
    n.dropLink = some n' ↔ 1 < n.linkCount ∧ n' = { n with linkCount := n.linkCount - 1 } := by
  have hdec : decrement n.linkCount = n.linkCount - 1 := if_neg (by omega)
  unfold dropLink
  rw [hdec]
  split_ifs with h0
  · simp only [false_iff, not_and]
    intro h1
    omega
  · simp only [Option.some.injEq, eq_comm (a := n'), iff_and_self]
    intro
    omega

theorem toString_congr {n' : NodeView} {blockSize : ℕ} (hdata : n'.data u = n.data ver) :
    n'.toString blockSize u = n.toString blockSize ver := by
  unfold toString
  rw [hdata]

/-- A table depends on the kind of the inode and on its bytes. -/
theorem table_congr {n' : NodeView} {blockSize : ℕ} (hkind : n'.isDentry = n.isDentry)
    (hdata : n'.data u = n.data ver) : n'.table blockSize u = n.table blockSize ver := by
  rw [table, table, hkind, toString_congr hdata]

theorem toString_eq_ok {blockSize : ℕ} {c : Bytes} : n.toString blockSize ver = .ok c ↔
    n.data ver = some c ∧ ¬ (c ≠ [] ∧ blockSize + 1 = 2 ^ 64) := by
  unfold toString
  cases n.data ver with
  | none => simp
  | some c' =>
      dsimp only
      split_ifs with hwrap
      · simp only [Option.some.injEq, false_iff]
        rintro ⟨rfl, hword⟩
        exact hword hwrap
      · rw [Program.pure_eq_ok, Option.some.injEq, iff_self_and]
        rintro rfl
        exact hwrap

theorem toString_error {blockSize : ℕ} {e : Exit} (h : n.toString blockSize ver = .error e) :
    e = .htmpfs .noSuchSnapshot ∨ e = .htmpfs .bufferShortOps := by
  unfold toString at h
  cases hdata : n.data ver with
  | none =>
      rw [hdata] at h
      exact Or.inl (Program.throw_eq_error.mp h).symm
  | some c =>
      rw [hdata] at h
      dsimp only at h
      split_ifs at h
      · exact Or.inr (Program.throw_eq_error.mp h).symm
      · exact absurd h Program.pure_ne_error

end Lemmas

end NodeView

namespace View

/-- Change the inode of an id, or remove it. -/
def update (w : View) (id : ℕ) (f : NodeView → Option NodeView) : View :=
  { w with node := fun j => if j = id then (w.node id).bind f else w.node j }

def setCurrent (w : View) (id : ℕ) (f : Bytes → Bytes) : View :=
  w.update id fun n => some (n.setCurrent f)

def dropLink (w : View) (id : ℕ) : View := w.update id NodeView.dropLink

/-- A new inode with one link and no bytes. -/
def addNode (w : View) (id : ℕ) (isDir : Bool) : View :=
  { w with
    node := fun j =>
      if j = id then
        some ⟨1, w.nextAddr, isDir, fun ver => if ver = curModifiableVer then some [] else none⟩
      else w.node j
    nextAddr := w.nextAddr + 1 }

/-- Change the inodes of a list of ids, or remove them. -/
def updateAll (w : View) (ids : List ℕ) (f : NodeView → Option NodeView) : View :=
  { w with node := fun j => if j ∈ ids then (w.node j).bind f else w.node j }

def setListing (w : View) (ver : SnapshotVer) (list : Option (List InodeResult)) : View :=
  { w with listing := fun u => if u = ver then list else w.listing u }

/-- The inode behind a pointer. -/
def deref? (w : View) (ptr : PoolPtr) : Option NodeView :=
  match w.node ptr.id with
  | some n => if n.addr = ptr.addr then some n else none
  | none => none

/-- The table a `directory_resolver_t` starts with. -/
def openDir (w : View) (ptr : PoolPtr) (ver : SnapshotVer) : Except Exit (List PathPack) :=
  match w.deref? ptr with
  | some n => n.table w.blockSize ver
  | none => throw .undefined

/-- The entry of a name. -/
def lookup (t : List PathPack) (name : Bytes) : Except Exit ℕ :=
  match t.find? fun i => i.pathname = name with
  | some i => pure i.inodeId
  | none => throw (.htmpfs .noSuchFileOrDir)

/-- The directory table of an id, as path resolution reads it. -/
def tableAt (w : View) (id : ℕ) (ver : SnapshotVer) : Except Exit (List PathPack) :=
  match w.node id with
  | some n => n.table w.blockSize ver
  | none => throw .outOfRange

/-- Path resolution from an inode. -/
def walk (w : View) (ver : SnapshotVer) : ℕ → List Bytes → Except Exit ℕ
  | id, [] => pure id
  | id, i :: rest =>
      if i.isEmpty then walk w ver id rest
      else do
        let t ← w.tableAt id ver
        let next ← lookup t i
        walk w ver next rest

/-- `get_inode_id_by_path` -/
def resolve (w : View) (path : Bytes) : Except Exit ℕ :=
  match path with
  | [] => pure rootInodeNumber
  | c :: _ =>
      if c = slash then do
        let (version, parsedPath) ← ifSnapshot path
        let vecPath := PathT.ofString parsedPath
        if version ≠ curModifiableVer ∧ vecPath.size = 1 then
          if (w.listing version).isSome then pure rootInodeNumber
          else throw (.htmpfs .noSuchSnapshot)
        else w.walk version rootInodeNumber vecPath.pathname
      else throw (.htmpfs .invalidDentryName)

/-- The descent of `remove_inode_by_path`. -/
def descend (w : View) : List Bytes → ℕ → PoolPtr → Except Exit PoolPtr
  | _, 0, opsInode => pure opsInode
  | [], _ + 1, opsInode => do
      let _ ← w.openDir opsInode curModifiableVer
      throw .undefined
  | it :: rest, count + 1, opsInode => do
      let t ← w.openDir opsInode curModifiableVer
      let id ← lookup t it
      match w.node id with
      | some n => descend w rest count ⟨id, n.addr⟩
      | none => throw (.htmpfs .requestedInodeNotFound)

section Lemmas

variable {w : View} {id j : ℕ} {ver u : SnapshotVer}

theorem node_update {f : NodeView → Option NodeView} :
    (w.update id f).node j = if j = id then (w.node id).bind f else w.node j := rfl

@[simp] theorem blockSize_update {f : NodeView → Option NodeView} :
    (w.update id f).blockSize = w.blockSize := rfl

@[simp] theorem listing_update {f : NodeView → Option NodeView} :
    (w.update id f).listing = w.listing := rfl

@[simp] theorem nextAddr_update {f : NodeView → Option NodeView} :
    (w.update id f).nextAddr = w.nextAddr := rfl

theorem node_setCurrent {f : Bytes → Bytes} :
    (w.setCurrent id f).node j =
      if j = id then (w.node id).map (·.setCurrent f) else w.node j := by
  rw [setCurrent, node_update]
  cases w.node id <;> rfl

@[simp] theorem blockSize_setCurrent {f : Bytes → Bytes} :
    (w.setCurrent id f).blockSize = w.blockSize := rfl

@[simp] theorem listing_setCurrent {f : Bytes → Bytes} :
    (w.setCurrent id f).listing = w.listing := rfl

@[simp] theorem nextAddr_setCurrent {f : Bytes → Bytes} :
    (w.setCurrent id f).nextAddr = w.nextAddr := rfl

theorem node_dropLink : (w.dropLink id).node j =
    if j = id then (w.node id).bind NodeView.dropLink else w.node j := rfl

@[simp] theorem blockSize_dropLink : (w.dropLink id).blockSize = w.blockSize := rfl

@[simp] theorem listing_dropLink : (w.dropLink id).listing = w.listing := rfl

@[simp] theorem nextAddr_dropLink : (w.dropLink id).nextAddr = w.nextAddr := rfl

theorem node_addNode {isDir : Bool} : (w.addNode id isDir).node j =
    if j = id then
      some ⟨1, w.nextAddr, isDir, fun ver => if ver = curModifiableVer then some [] else none⟩
    else w.node j := rfl

@[simp] theorem blockSize_addNode {isDir : Bool} : (w.addNode id isDir).blockSize = w.blockSize :=
  rfl

@[simp] theorem listing_addNode {isDir : Bool} : (w.addNode id isDir).listing = w.listing := rfl

@[simp] theorem nextAddr_addNode {isDir : Bool} :
    (w.addNode id isDir).nextAddr = w.nextAddr + 1 := rfl

@[simp] theorem blockSize_setListing {list : Option (List InodeResult)} :
    (w.setListing ver list).blockSize = w.blockSize := rfl

@[simp] theorem node_setListing {list : Option (List InodeResult)} :
    (w.setListing ver list).node = w.node := rfl

theorem listing_setListing {list : Option (List InodeResult)} :
    (w.setListing ver list).listing u = if u = ver then list else w.listing u := rfl

@[simp] theorem nextAddr_setListing {list : Option (List InodeResult)} :
    (w.setListing ver list).nextAddr = w.nextAddr := rfl

theorem deref?_eq_some {ptr : PoolPtr} {n : NodeView} :
    w.deref? ptr = some n ↔ w.node ptr.id = some n ∧ n.addr = ptr.addr := by
  unfold deref?
  cases w.node ptr.id with
  | none => simp
  | some n' =>
      simp only [Option.some.injEq]
      split_ifs with haddr
      · constructor
        · intro h
          obtain rfl := Option.some.inj h
          exact ⟨rfl, haddr⟩
        · rintro ⟨rfl, _⟩
          rfl
      · simp only [false_iff, not_and]
        rintro rfl
        exact haddr

theorem deref?_of_node {n : NodeView} (h : w.node id = some n) : w.deref? ⟨id, n.addr⟩ = some n :=
  deref?_eq_some.mpr ⟨h, rfl⟩

theorem node_updateAll {ids : List ℕ} {f : NodeView → Option NodeView} :
    (w.updateAll ids f).node j = if j ∈ ids then (w.node j).bind f else w.node j := rfl

@[simp] theorem blockSize_updateAll {ids : List ℕ} {f : NodeView → Option NodeView} :
    (w.updateAll ids f).blockSize = w.blockSize := rfl

@[simp] theorem listing_updateAll {ids : List ℕ} {f : NodeView → Option NodeView} :
    (w.updateAll ids f).listing = w.listing := rfl

@[simp] theorem nextAddr_updateAll {ids : List ℕ} {f : NodeView → Option NodeView} :
    (w.updateAll ids f).nextAddr = w.nextAddr := rfl

theorem updateAll_nil {f : NodeView → Option NodeView} : w.updateAll [] f = w := rfl

/-- One more id, which was not among the others. -/
theorem update_updateAll {ids : List ℕ} {f : NodeView → Option NodeView} (hid : id ∉ ids) :
    (w.updateAll ids f).update id f = w.updateAll (ids ++ [id]) f := by
  unfold update updateAll
  simp only [View.mk.injEq, and_self, and_true, true_and]
  funext j
  by_cases hj : j = id
  · subst hj
    simp [hid]
  · simp [hj]

end Lemmas

/-! ## The errors of the readers -/

section Errors

variable {w : View} {e : Exit}

theorem decodePacks_error {count : ℕ} {allPath : Bytes} (h : decodePacks count allPath = .error e) :
    e = .undefined := by
  induction count generalizing allPath with
  | zero => exact absurd h Program.pure_ne_error
  | succ count ih =>
      simp only [decodePacks, Program.bind_eq_error, Program.pure_ne_error, and_false, exists_false,
        or_false] at h
      rcases h with h | ⟨pack, _, h | ⟨name, _, h⟩⟩
      · simp only [stringToType] at h
        split_ifs at h
        · exact absurd h Program.pure_ne_error
        · exact (Program.throw_eq_error.mp h).symm
      · simp only [copyName] at h
        split_ifs at h
        · exact absurd h Program.pure_ne_error
        · exact (Program.throw_eq_error.mp h).symm
      · exact ih h

theorem decodeTable_error {allPath : Bytes} (h : decodeTable allPath = .error e) :
    e = .undefined := by
  unfold decodeTable at h
  split_ifs at h
  · exact absurd h Program.pure_ne_error
  · rcases Program.bind_eq_error.mp h with h | ⟨count, _, h⟩
    · simp only [stringToType] at h
      split_ifs at h
      · exact absurd h Program.pure_ne_error
      · exact (Program.throw_eq_error.mp h).symm
    · exact decodePacks_error h

theorem table_error {n : NodeView} {bs : ℕ} {ver : SnapshotVer} (h : n.table bs ver = .error e) :
    e = .undefined ∨ e = .htmpfs .noSuchSnapshot ∨ e = .htmpfs .notADirectory ∨
      e = .htmpfs .bufferShortOps := by
  unfold NodeView.table at h
  split_ifs at h with hdir
  · rcases Program.bind_eq_error.mp h with h | ⟨c, _, h⟩
    · rcases NodeView.toString_error h with rfl | rfl <;> simp
    · exact Or.inl (decodeTable_error h)
  · exact Or.inr (Or.inr (Or.inl (Program.throw_eq_error.mp h).symm))

theorem openDir_error {ptr : PoolPtr} {ver : SnapshotVer} (h : w.openDir ptr ver = .error e) :
    e = .undefined ∨ e = .htmpfs .noSuchSnapshot ∨ e = .htmpfs .notADirectory ∨
      e = .htmpfs .bufferShortOps := by
  unfold openDir at h
  cases hn : w.deref? ptr with
  | none =>
      rw [hn] at h
      exact Or.inl (Program.throw_eq_error.mp h).symm
  | some n =>
      rw [hn] at h
      exact table_error h

theorem lookup_error {t : List PathPack} {name : Bytes} (h : lookup t name = .error e) :
    e = .htmpfs .noSuchFileOrDir := by
  unfold lookup at h
  cases ht : t.find? fun i => i.pathname = name with
  | none =>
      rw [ht] at h
      exact (Program.throw_eq_error.mp h).symm
  | some i =>
      rw [ht] at h
      exact absurd h Program.pure_ne_error

theorem ifSnapshot_error {path : Bytes} (h : ifSnapshot path = .error e) :
    e = .htmpfs .invalidDentryName := by
  unfold ifSnapshot at h
  split_ifs at h
  · exact absurd h Program.pure_ne_error
  · split at h
    · exact absurd h Program.pure_ne_error
    · split_ifs at h
      · split at h
        · exact (Program.throw_eq_error.mp h).symm
        · exact absurd h Program.pure_ne_error
      · exact absurd h Program.pure_ne_error

theorem walk_error {ver : SnapshotVer} {id : ℕ} {path : List Bytes}
    (h : w.walk ver id path = .error e) : e ≠ .htmpfs .requestedBufferNotFound := by
  induction path generalizing id with
  | nil => exact absurd h Program.pure_ne_error
  | cons i rest ih =>
      unfold walk at h
      split_ifs at h
      · exact ih h
      · rcases Program.bind_eq_error.mp h with h | ⟨t, _, h⟩
        · unfold tableAt at h
          cases hn : w.node id with
          | none =>
              rw [hn] at h
              simp [← Program.throw_eq_error.mp h]
          | some n =>
              rw [hn] at h
              rcases table_error h with rfl | rfl | rfl | rfl <;> simp
        · rcases Program.bind_eq_error.mp h with h | ⟨next, _, h⟩
          · simp [lookup_error h]
          · exact ih h

theorem resolve_error {path : Bytes} (h : w.resolve path = .error e) :
    e ≠ .htmpfs .requestedBufferNotFound := by
  unfold resolve at h
  cases path with
  | nil => exact absurd h Program.pure_ne_error
  | cons c rest =>
      simp only at h
      split_ifs at h
      · rcases Program.bind_eq_error.mp h with h | ⟨p, _, h⟩
        · simp [ifSnapshot_error h]
        · split_ifs at h
          · exact absurd h Program.pure_ne_error
          · simp [← Program.throw_eq_error.mp h]
          · exact walk_error h
      · simp [← Program.throw_eq_error.mp h]

theorem descend_error {path : List Bytes} {count : ℕ} {ptr : PoolPtr}
    (h : w.descend path count ptr = .error e) : e ≠ .htmpfs .requestedBufferNotFound := by
  induction path generalizing count ptr with
  | nil =>
      cases count with
      | zero => exact absurd h Program.pure_ne_error
      | succ count =>
          rw [descend] at h
          rcases Program.bind_eq_error.mp h with h | ⟨_, _, h⟩
          · rcases openDir_error h with rfl | rfl | rfl | rfl <;> simp
          · simp [← Program.throw_eq_error.mp h]
  | cons i rest ih =>
      cases count with
      | zero => exact absurd h Program.pure_ne_error
      | succ count =>
          unfold descend at h
          rcases Program.bind_eq_error.mp h with h | ⟨t, _, h⟩
          · rcases openDir_error h with rfl | rfl | rfl | rfl <;> simp
          · rcases Program.bind_eq_error.mp h with h | ⟨id, _, h⟩
            · simp [lookup_error h]
            · cases hn : w.node id with
              | none =>
                  rw [hn] at h
                  simp [← Program.throw_eq_error.mp h]
              | some n =>
                  rw [hn] at h
                  exact ih h

end Errors

/-! ## What the operations do -/

/-- `make_child_dentry_under_parent` returned `id`. -/
inductive MakesChild (w : View) (parent : ℕ) (name : Bytes) (isDir : Bool) (id : ℕ) : View → Prop
  | mk (n : NodeView) (t : List PathPack) (list : List InodeResult)
      (hname : name.all InodeSmi.nameChar = true) (hparent : w.node parent = some n)
      (htable : n.table w.blockSize curModifiableVer = .ok t) (hnew : ∀ p ∈ t, p.pathname ≠ name)
      (hfree : w.node id = none) (hid : id < 2 ^ 64)
      (hfits : (encodeTable (t ++ [⟨name, id⟩])).length < 2 ^ 64)
      (hlist : w.listing curModifiableVer = some list) :
      MakesChild w parent name isDir id
        (((w.addNode id isDir).setCurrent parent fun _ => encodeTable (t ++ [⟨name, id⟩])).setListing
          curModifiableVer (some (list ++ [⟨id, ⟨id, w.nextAddr⟩⟩])))

/-- `remove_child_dentry_under_parent` -/
inductive RemovesChild (w : View) (parent : ℕ) (name : Bytes) : View → Prop
  | mk (n : NodeView) (t : List PathPack) (p : PathPack) (target : NodeView)
      (list : List InodeResult) (hparent : w.node parent = some n)
      (htable : n.table w.blockSize curModifiableVer = .ok t)
      (hp : (t.find? fun i => i.pathname = name) = some p)
      (htarget : w.node p.inodeId = some target)
      (hempty : target.isDentry = true → target.table w.blockSize curModifiableVer = .ok [])
      (hfits : (encodeTable (t.eraseP fun i => i.pathname = name)).length < 2 ^ 64)
      (hlist : w.listing curModifiableVer = some list) :
      RemovesChild w parent name
        (((w.setCurrent parent fun _ =>
          encodeTable (t.eraseP fun i => i.pathname = name)).setListing
            curModifiableVer (some (list.eraseP fun i => i.id = p.inodeId))).dropLink p.inodeId)

/-- `create_snapshot_volume` -/
inductive CreatesSnapshot (w : View) (ver : SnapshotVer) : View → Prop
  | mk (list : List InodeResult) (hnew : w.listing ver = none)
      (hlist : w.listing curModifiableVer = some list) :
      CreatesSnapshot w ver
        ((w.updateAll (list.map (·.id)) fun n => some (n.freeze ver)).setListing ver (some list))

/-- `delete_snapshot_volume` -/
inductive DeletesSnapshot (w : View) (ver : SnapshotVer) : View → Prop
  | mk (list : List InodeResult) (hver : ver ≠ curModifiableVer)
      (hlist : w.listing ver = some list)
      (hlive : ∀ e ∈ list, ∃ n, w.deref? e.inode = some n) :
      DeletesSnapshot w ver
        ((w.updateAll (list.map (·.id)) fun n => (n.unfreeze ver).dropLink).setListing ver none)

section BlockSize

variable {w w' : View} {parent id : ℕ} {name : Bytes} {isDir : Bool} {ver : SnapshotVer}

theorem MakesChild.blockSize (h : w.MakesChild parent name isDir id w') :
    w'.blockSize = w.blockSize := by
  cases h
  rfl

theorem RemovesChild.blockSize (h : w.RemovesChild parent name w') :
    w'.blockSize = w.blockSize := by
  cases h
  rfl

theorem CreatesSnapshot.blockSize (h : w.CreatesSnapshot ver w') : w'.blockSize = w.blockSize := by
  cases h
  rfl

theorem DeletesSnapshot.blockSize (h : w.DeletesSnapshot ver w') : w'.blockSize = w.blockSize := by
  cases h
  rfl

end BlockSize

end View

end Htmpfs
