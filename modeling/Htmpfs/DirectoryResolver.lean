import Mathlib
import Htmpfs.Inode
import Htmpfs.Library.LittleEndian

/-!
# The file system state and the directory resolver

A directory is an inode whose bytes are a count followed by one record of 136
bytes for each entry: a name field of 128 bytes and a 64-bit inode id.
`directory_resolver_t` is the decoded table of one directory at one version.
-/

namespace Htmpfs

/-- `inode_result_t` -/
structure InodeResult where
  id : ℕ
  inode : PoolPtr
  deriving DecidableEq, Repr

/-- `inode_smi_t` -/
structure InodeSmi where
  blockSize : ℕ
  filesystemRoot : PoolPtr
  bufferPool : IdPool Buffer
  inodePool : IdPool Inode
  snapshotVersionList : Std.ExtTreeMap SnapshotVer (List InodeResult)

abbrev SmiM := EStateM Exit InodeSmi

namespace InodeSmi

variable {α : Type}

def onInodePool (m : EStateM Exit (IdPool Inode) α) : SmiM α :=
  Program.zoom (fun s => some s.inodePool) (fun pool s => { s with inodePool := pool })
    .undefined m

/-- `*inode` -/
def deref (inode : PoolPtr) (s : InodeSmi) : Except Exit Inode :=
  match s.inodePool.deref? inode with
  | some self => pure self
  | none => throw .undefined

/-- `inode->method()` -/
def onInode (inode : PoolPtr) (m : InodeM α) : SmiM α :=
  Program.zoom
    (fun s => (s.inodePool.deref? inode).map fun self => ⟨s.bufferPool, self⟩)
    (fun v s =>
      { s with
        bufferPool := v.bufferPool
        inodePool := s.inodePool.setVal inode.id v.self })
    .undefined m

end InodeSmi

/-- `path_pack_t` -/
structure PathPack where
  pathname : Bytes
  inodeId : ℕ
  deriving DecidableEq, Repr

/-- `sizeof(flat_path_pack_t::pathname)` -/
def nameFieldSize : ℕ := 128

/-- `sizeof(flat_path_pack_t)` -/
def flatPathPackSize : ℕ := 136

/-- `type_to_string(save_pack)`: the name copied into a zeroed field, and the id. -/
def PathPack.flatten (i : PathPack) : Bytes :=
  let copied := i.pathname.take (min nameFieldSize i.pathname.length)
  copied ++ List.replicate (nameFieldSize - copied.length) 0 ++ LittleEndian.encode 8 i.inodeId

/-- The first `size` bytes behind `str.c_str()`; the terminator is the last byte there is. -/
def stringToType (size : ℕ) (str : Bytes) : Except Exit Bytes :=
  if size ≤ str.length + 1 then pure ((str ++ [0]).take size) else throw .undefined

/-- `strcpy(name_buff, save_pack.pathname)`: without a terminator in the field the copy leaves
both the field and `name_buff`. -/
def copyName (field : Bytes) : Except Exit Bytes :=
  if (0 : UInt8) ∈ field then pure (field.takeWhile (· ≠ 0)) else throw .undefined

/-- The loop of `directory_resolver_t::refresh` over the records. -/
def decodePacks : ℕ → Bytes → Except Exit (List PathPack)
  | 0, _ => pure []
  | count + 1, allPath => do
      let savePack ← stringToType flatPathPackSize allPath
      let name ← copyName (savePack.take nameFieldSize)
      let rest ← decodePacks count (allPath.drop flatPathPackSize)
      pure (⟨name, LittleEndian.decode (savePack.drop nameFieldSize)⟩ :: rest)

/-- What `directory_resolver_t::refresh` reads from the bytes of a directory. -/
def decodeTable (allPath : Bytes) : Except Exit (List PathPack) :=
  -- ignore empty dentry
  if allPath.isEmpty then pure []
  else do
    let savePackCount ← stringToType 8 allPath
    decodePacks (LittleEndian.decode savePackCount) (allPath.drop 8)

/-- What `directory_resolver_t::save_current` writes. -/
def encodeTable (path : List PathPack) : Bytes :=
  LittleEndian.encode 8 path.length ++ path.flatMap PathPack.flatten

/-- `directory_resolver_t` -/
structure DirectoryResolver where
  path : List PathPack
  associatedInode : PoolPtr
  accessVersion : SnapshotVer

namespace DirectoryResolver

/-- `directory_resolver_t::refresh` -/
def refresh (r : DirectoryResolver) (s : InodeSmi) : Except Exit DirectoryResolver := do
  let self ← s.deref r.associatedInode
  let size ← self.currentDataSize s.bufferPool r.accessVersion
  if size = 0 then pure { r with path := [] }
  else do
    let allPath ← self.toString s.bufferPool r.accessVersion
    let path ← decodeTable allPath
    pure { r with path := path }

/-- `directory_resolver_t::directory_resolver_t` -/
def new (associatedInode : PoolPtr) (ver : SnapshotVer) (s : InodeSmi) :
    Except Exit DirectoryResolver := do
  let self ← s.deref associatedInode
  if self.isDentry then
    refresh { path := [], associatedInode := associatedInode, accessVersion := ver } s
  else throw (.htmpfs .notADirectory)

def targetCount (r : DirectoryResolver) : ℕ := r.path.length

/-- `directory_resolver_t::to_vector` -/
def toVector (r : DirectoryResolver) : List PathPack := r.path

/-- `directory_resolver_t::check_availability` -/
def checkAvailability (r : DirectoryResolver) (pathname : Bytes) : Bool :=
  !r.path.any fun i => i.pathname = pathname

/-- `directory_resolver_t::add_path` -/
def addPath (r : DirectoryResolver) (pathname : Bytes) (inodeId : ℕ) :
    Except Exit DirectoryResolver :=
  if r.path.any fun i => i.pathname = pathname then throw (.htmpfs .doubleMkpathname)
  else pure { r with path := r.path ++ [⟨pathname, inodeId⟩] }

/-- `directory_resolver_t::namei` -/
def namei (r : DirectoryResolver) (pathname : Bytes) : Except Exit ℕ :=
  match r.path.find? fun i => i.pathname = pathname with
  | some i => pure i.inodeId
  | none => throw (.htmpfs .noSuchFileOrDir)

/-- `directory_resolver_t::remove_path` -/
def removePath (r : DirectoryResolver) (pathname : Bytes) : Except Exit DirectoryResolver :=
  if r.path.any fun i => i.pathname = pathname then
    pure { r with path := r.path.eraseP fun i => i.pathname = pathname }
  else throw (.htmpfs .requestedInodeNotFound)

/-- `directory_resolver_t::save_current`.  A table whose size is not a 64-bit number does not fit
in memory. -/
def saveCurrent (r : DirectoryResolver) : SmiM Unit := do
  let data := encodeTable r.path
  if 2 ^ 64 ≤ data.length then throw .badAlloc
  else do
    let _ ← InodeSmi.onInode r.associatedInode (Inode.write data 0 true true)
    pure ()

end DirectoryResolver

end Htmpfs
