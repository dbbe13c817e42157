import Mathlib
import Htmpfs.DirectoryResolver
import Htmpfs.Path

/-!
# The inode system management interface

The operations of `inode_smi_t`: path resolution, dentries, links and
snapshot volumes.
-/

namespace Htmpfs

namespace InodeSmi

/-- `inode_smi_t::inode_smi_t` -/
def new (limits : PoolLimits) (blockSize : ℕ) : InodeSmi :=
  let inodePool :=
    (IdPool.empty limits.inodeMax : IdPool Inode).emplace rootInodeNumber
      (Inode.new blockSize rootInodeNumber true)
  let filesystemRoot : PoolPtr := ⟨rootInodeNumber, 0⟩
  { blockSize := blockSize
    filesystemRoot := filesystemRoot
    bufferPool := IdPool.empty limits.bufferMax
    inodePool := inodePool
    snapshotVersionList :=
      (∅ : Std.ExtTreeMap SnapshotVer (List InodeResult)).insert curModifiableVer
        [⟨rootInodeNumber, filesystemRoot⟩] }

/-- The range loop of `get_inode_id_by_path`. -/
def walk (s : InodeSmi) (version : SnapshotVer) : ℕ → List Bytes → Except Exit ℕ
  | currentInode, [] => pure currentInode
  | currentInode, i :: rest =>
      -- ignore filesystem root
      if i.isEmpty then walk s version currentInode rest
      else do
        let node ← poolAt currentInode s.inodePool
        let directoryResolver ← DirectoryResolver.new ⟨currentInode, node.addr⟩ version s
        let next ← directoryResolver.namei i
        walk s version next rest

/-- `inode_smi_t::get_inode_id_by_path` -/
def getInodeIdByPath (path : Bytes) (s : InodeSmi) : Except Exit ℕ :=
  match path with
  | [] => pure rootInodeNumber
  | c :: _ =>
      if c = slash then do
        let (version, parsedPath) ← ifSnapshot path
        let vecPath := PathT.ofString parsedPath
        -- if access /.snapshot/$(version)
        if version ≠ curModifiableVer ∧ vecPath.size = 1 then
          if s.snapshotVersionList.contains version then pure rootInodeNumber
          else throw (.htmpfs .noSuchSnapshot)
        -- access /.snapshot/$(version)/$(pathname)
        else walk s version rootInodeNumber vecPath.pathname
      else throw (.htmpfs .invalidDentryName)

/-- `inode_smi_t::get_inode_by_id` -/
def getInodeById (inodeId : ℕ) (s : InodeSmi) : Except Exit PoolPtr :=
  match s.inodePool.find? inodeId with
  | some node => pure ⟨inodeId, node.addr⟩
  | none => throw (.htmpfs .requestedInodeNotFound)

/-- `inode_smi_t::count_link_for_inode` -/
def countLinkForInode (inodeId : ℕ) (s : InodeSmi) : Except Exit ℕ :=
  match s.inodePool.find? inodeId with
  | some node => pure node.linkCount
  | none => throw (.htmpfs .requestedInodeNotFound)

/-- The characters `make_child_dentry_under_parent` accepts; from `0x80` on a `char` is
negative, hence below `0x1F`. -/
def nameChar (i : UInt8) : Bool := !(i == slash || i < 0x1F || i ≥ 0x7F)

/-- `snapshot_version_list.at(FILESYSTEM_CUR_MODIFIABLE_VER)` -/
def currentList (s : InodeSmi) : Except Exit (List InodeResult) :=
  match s.snapshotVersionList[curModifiableVer]? with
  | some list => pure list
  | none => throw .outOfRange

def setCurrentList (list : List InodeResult) : SmiM Unit :=
  modify fun s =>
    { s with snapshotVersionList := s.snapshotVersionList.insert curModifiableVer list }

/-- `inode_smi_t::make_child_dentry_under_parent` -/
def makeChildDentryUnderParent (parentInodeId : ℕ) (name : Bytes) (isDir : Bool) : SmiM ℕ := do
  if name.all nameChar then do
    -- make sure parent inode is valid
    let parentInode ← Program.reads (getInodeById parentInodeId)
    let directoryResolver ← Program.reads (DirectoryResolver.new parentInode curModifiableVer)
    -- check name availability
    if directoryResolver.checkAvailability name then do
      -- make a new inode
      let newInodeId ← onInodePool (Program.reads getFreeId)
      let blockSize := (← get).blockSize
      onInodePool (emplace newInodeId (Inode.new blockSize newInodeId isDir))
      let directoryResolver ← Program.reads fun _ => directoryResolver.addPath name newInodeId
      directoryResolver.saveCurrent
      let node ← Program.reads fun s => poolAt newInodeId s.inodePool
      let list ← Program.reads currentList
      setCurrentList (list ++ [⟨newInodeId, ⟨newInodeId, node.addr⟩⟩])
      pure newInodeId
    else throw (.htmpfs .doubleMkpathname)
  else throw (.htmpfs .invalidDentryName)

/-- `inode_smi_t::link_inode` -/
def linkInode (inodeId : ℕ) : SmiM Unit := onInodePool do
  let pool ← get
  match pool.find? inodeId with
  | none => throw (.htmpfs .requestedInodeNotFound)
  | some node => set (pool.setLinkCount inodeId (node.linkCount + 1))

/-- `it->second.link_count -= 1; if (it->second.link_count == 0) inode_pool.erase(it)` -/
def dropLink (inodeId : ℕ) (node : PoolNode Inode) : EStateM Exit (IdPool Inode) Unit :=
  modify fun pool =>
    if decrement node.linkCount = 0 then pool.erase inodeId
    else pool.setLinkCount inodeId (decrement node.linkCount)

/-- `inode_smi_t::unlink_inode` -/
def unlinkInode (inodeId : ℕ) : SmiM Unit := onInodePool do
  let pool ← get
  match pool.find? inodeId with
  | none => throw (.htmpfs .requestedInodeNotFound)
  | some node => dropLink inodeId node

/-- The `try` of `remove_child_dentry_under_parent`: a directory target must be empty. -/
def checkTargetEmpty (targetInode : PoolPtr) : SmiM Unit :=
  tryCatch
    (do
      let ifTargetIsDir ← Program.reads (DirectoryResolver.new targetInode curModifiableVer)
      if ifTargetIsDir.targetCount ≠ 0 then throw (.htmpfs .dirNotEmpty) else pure ())
    fun error =>
      -- target is a directory, but something else failed
      if error = .htmpfs .notADirectory then pure () else throw error

/-- `inode_smi_t::remove_child_dentry_under_parent` -/
def removeChildDentryUnderParent (parentInodeId : ℕ) (name : Bytes) : SmiM Unit := do
  -- make sure parent inode is valid
  let parentInode ← Program.reads (getInodeById parentInodeId)
  let directoryResolver ← Program.reads (DirectoryResolver.new parentInode curModifiableVer)
  let targetId ← Program.reads fun _ => directoryResolver.namei name
  -- target_it, which is used without a check
  let targetIt ← Program.reads fun s =>
    match s.inodePool.find? targetId with
    | some node => pure (⟨targetId, node.addr⟩ : PoolPtr)
    | none => throw .undefined
  checkTargetEmpty targetIt
  -- remove dentry
  let directoryResolver ← Program.reads fun _ => directoryResolver.removePath name
  directoryResolver.saveCurrent
  -- remove inode in version current
  let list ← Program.reads currentList
  setCurrentList (list.eraseP fun i => i.id = targetId)
  -- remove link
  let node ← Program.reads fun s =>
    match s.inodePool.find? targetId with
    | some node => if node.addr = targetIt.addr then pure node else throw .undefined
    | none => throw .undefined
  onInodePool (dropLink targetId node)

/-- `inode_smi_t::create_snapshot_volume` -/
def createSnapshotVolume (snapshotVer : SnapshotVer) : SmiM Unit := do
  let s ← get
  if s.snapshotVersionList.contains snapshotVer then throw (.htmpfs .doubleSnapshot)
  else do
    let rootVec ← Program.reads currentList
    Program.each
      (fun (i : InodeResult) => do
        linkInode i.id
        onInode i.inode (Inode.createNewVolume snapshotVer))
      rootVec
    modify fun s =>
      { s with snapshotVersionList := s.snapshotVersionList.insertIfNew snapshotVer rootVec }

/-- `inode_smi_t::delete_snapshot_volume` -/
def deleteSnapshotVolume (version : SnapshotVer) : SmiM Unit := do
  let s ← get
  match s.snapshotVersionList[version]? with
  | none => throw (.htmpfs .noSuchSnapshot)
  | some targetVec => do
      Program.each
        (fun (i : InodeResult) => do
          onInode i.inode (Inode.deleteVolume version)
          unlinkInode i.id)
        targetVec
      modify fun s => { s with snapshotVersionList := s.snapshotVersionList.erase version }

/-- The counted loop of `remove_inode_by_path`, at the component `it` of the path: past the last
component the directory is opened and the iterator dereferenced all the same. -/
def descend : List Bytes → ℕ → PoolPtr → InodeSmi → Except Exit PoolPtr
  | _, 0, opsInode, _ => pure opsInode
  | [], _ + 1, opsInode, s => do
      let _ ← DirectoryResolver.new opsInode curModifiableVer s
      throw .undefined
  | it :: rest, count + 1, opsInode, s => do
      let directoryResolver ← DirectoryResolver.new opsInode curModifiableVer s
      let inodeId ← directoryResolver.namei it
      let opsInode ← getInodeById inodeId s
      descend rest count opsInode s

/-- `inode_smi_t::remove_inode_by_path` -/
def removeInodeByPath (pathname : Bytes) : SmiM Unit := do
  if pathname = [slash] then throw (.htmpfs .cannotRemoveRoot)
  else do
    -- parse pathname
    let path := PathT.ofString pathname
    let root := (← get).filesystemRoot
    let targetName ← Program.reads fun _ => path.last
    -- filesystem root and last target, in unsigned arithmetic
    let count := u64Sub path.size 2
    let opsInode ← Program.reads (descend path.pathname.tail count root)
    -- remove child
    let self ← Program.reads (deref opsInode)
    removeChildDentryUnderParent self.inodeId targetName

/-- `make_path_for_current_dentry` of `export_as_filesystem_map`, on the `filesystem_map`. -/
def makePathForCurrentDentry (version : SnapshotVer) (pathnamePrefix : Bytes) (s : InodeSmi) :
    EStateM Exit (List Bytes) (List Bytes) := do
  -- get parent inode
  let parentId ← Program.reads fun _ =>
    getInodeIdByPath (makePathWithVersion pathnamePrefix version) s
  let parentInode ← Program.reads fun _ => getInodeById parentId s
  let self ← Program.reads fun _ => s.deref parentInode
  -- check if parent inode is a dentry inode
  if self.isDentry then do
    -- get sub inode list under dentry inode
    let directoryResolver ← Program.reads fun _ => DirectoryResolver.new parentInode version s
    let ret := directoryResolver.toVector.map fun i => pathnamePrefix ++ i.pathname
    modify fun filesystemMap => filesystemMap ++ ret
    pure ret
  else pure []

/-- `recursion_check`, at most `fuel` levels deep. -/
def recursionCheck (version : SnapshotVer) (s : InodeSmi) :
    ℕ → List Bytes → EStateM Exit (List Bytes) Unit
  | 0, _ => throw .diverges
  | fuel + 1, dentryList =>
      Program.each
        (fun i => do
          let sub ←
            if i = [slash] then makePathForCurrentDentry version [slash] s
            else makePathForCurrentDentry version (i ++ [slash]) s
          recursionCheck version s fuel sub)
        dentryList

/-- `inode_smi_t::export_as_filesystem_map` -/
def exportAsFilesystemMap (fuel : ℕ) (version : SnapshotVer) (s : InodeSmi) :
    Except Exit (List Bytes) :=
  match recursionCheck version s fuel [[slash]] [] with
  | .ok _ filesystemMap => pure filesystemMap
  | .error e _ => throw e

end InodeSmi

end Htmpfs
