import Mathlib
import Htmpfs.InodeSmi

/-!
# The FUSE callbacks

Each callback runs under `CATCH_TAIL` and returns an `int`, a negated errno
when it fails.  `do_getattr`, `do_readdir` and `do_readlink` only look at the
file system; what they change is the `stbuf`, the names passed to the `filler`
and the `buffer`.
-/

namespace Htmpfs

/-- What a callback reads from its surroundings: the successive readings of
`get_current_time`, the ids of the mounting process and the global `errno`. -/
structure FuseContext where
  currentTime : ℕ → Timespec
  uid : ℕ
  gid : ℕ
  errno : ℕ

/-- `S_IFDIR` -/
def sIfdir : ℕ := 0x4000
/-- `S_IFREG` -/
def sIfreg : ℕ := 0x8000
/-- `S_IFLNK` -/
def sIflnk : ℕ := 0xA000

/-- The conversion `(int)` of a `htmpfs_size_t`. -/
def toInt (n : ℕ) : ℤ := (n : ℤ).bmod (2 ^ 32)

namespace Fuse

open InodeSmi

variable (ctx : FuseContext)

/-- `CATCH_TAIL` -/
def catchTail {σ : Type} (body : EStateM Exit σ ℤ) : EStateM Exit σ ℤ :=
  tryCatch body fun error =>
    match error with
    | .htmpfs code => pure (-(code.myErrno : ℤ))
    | .outOfRange => pure (-(ctx.errno : ℤ))
    | error => throw error

/-- `CHECK_RDONLY_FS(path)` in front of the rest of a callback. -/
def checkRdonlyFs (path : Bytes) (rest : SmiM ℤ) : SmiM ℤ := do
  let (version, _) ← Program.reads fun _ => ifSnapshot path
  if version ≠ curModifiableVer then pure (-(eRofs : ℤ)) else rest

/-- `path_t vpath(path); auto target_name = vpath.pop_end();` -/
def popPath (path : Bytes) : SmiM (Bytes × PathT) :=
  Program.reads fun _ => (PathT.ofString path).popEnd

/-- `get_inode_by_id(get_inode_id_by_path(path))` -/
def inodeByPath (path : Bytes) : SmiM PoolPtr := do
  let inodeId ← Program.reads (getInodeIdByPath path)
  Program.reads (getInodeById inodeId)

/-- Assignments to `inode->fs_stat`. -/
def setStat (inode : PoolPtr) (f : Stat → Stat) : SmiM Unit :=
  onInode inode do
    modify fun v => { v with self := { v.self with fsStat := f v.self.fsStat } }

/-- `vpath.size() == 2 && *vpath.last() == SNAPSHOT_ENTRY` -/
def isSnapshotDir (vpath : PathT) : Bool :=
  vpath.size == 2 && vpath.pathname.getLast? == some snapshotEntry

/-- `"/" SNAPSHOT_ENTRY` -/
def snapshotDir : Bytes := slash :: snapshotEntry

def doGetattr (path : CString) (s : InodeSmi) : EStateM Exit Stat ℤ := catchTail ctx do
  if path.1 = snapshotDir then do -- non-existing directory
    modify fun stbuf =>
      { stbuf with
        stCtim := ctx.currentTime 0
        stAtim := ctx.currentTime 1
        stMtim := ctx.currentTime 2
        stIno := 0
        stMode := 0o755 ||| sIfdir
        stGid := ctx.gid
        stUid := ctx.uid
        stNlink := 1
        stSize := 0 }
    pure 0
  else do
    let (version, _) ← Program.reads fun _ => ifSnapshot path.1
    let inodeId ← Program.reads fun _ => getInodeIdByPath path.1 s
    let inode ← Program.reads fun _ => getInodeById inodeId s
    let self ← Program.reads fun _ => s.deref inode
    set self.fsStat
    let size ← Program.reads fun _ => self.currentDataSize s.bufferPool version
    modify fun stbuf => { stbuf with stSize := (size : ℤ).bmod (2 ^ 64) }
    let count ← Program.reads fun _ => countLinkForInode inodeId s
    modify fun stbuf => { stbuf with stNlink := count }
    modify fun stbuf => { stbuf with stIno := inodeId }
    pure 0

/-- `filler(buffer, name, nullptr, 0)` -/
def filler (name : Bytes) : EStateM Exit (List Bytes) Unit :=
  modify fun buffer => buffer ++ [name]

/-- The names that `do_readdir` takes from the file system. -/
def fillEntries (path : CString) (s : InodeSmi) : EStateM Exit (List Bytes) ℤ := do
  if path.1 = snapshotDir then do -- non-existing directory
    Program.each (fun i => filler (cStr i)) s.snapshotVersionList.keys
    pure 0
  else do
    let (version, _) ← Program.reads fun _ => ifSnapshot path.1
    let inodeId ← Program.reads fun _ => getInodeIdByPath path.1 s
    let inode ← Program.reads fun _ => getInodeById inodeId s
    let directoryResolver ← Program.reads fun _ => DirectoryResolver.new inode version s
    Program.each (fun i => filler (cStr i.pathname)) directoryResolver.toVector
    pure 0

def doReaddir (path : CString) (s : InodeSmi) : EStateM Exit (List Bytes) ℤ := catchTail ctx do
  filler (ascii ['.']) -- Current Directory
  filler (ascii ['.', '.']) -- Parent Directory
  if path.1 = [slash] then filler snapshotEntry -- .snapshot volume
  fillEntries path s

def doReadlink (path : CString) (size : ℕ) (s : InodeSmi) : EStateM Exit Bytes ℤ := catchTail ctx do
  let (version, _) ← Program.reads fun _ => ifSnapshot path.1
  let inodeId ← Program.reads fun _ => getInodeIdByPath path.1 s
  let inode ← Program.reads fun _ => getInodeById inodeId s
  let self ← Program.reads fun _ => s.deref inode
  if self.fsStat.stMode &&& sIflnk ≠ 0 then do
    let out ← Program.reads fun _ => self.read s.bufferPool version size 0
    modify fun buffer => Blocks.overwrite 0 out buffer
    pure 0
  else pure (-(eInval : ℤ))

def doMkdir (path : CString) (mode : ℕ) : SmiM ℤ := catchTail ctx do
  let (targetName, vpath) ← popPath path.1
  if targetName.isEmpty then throw (.htmpfs .invalidDentryName)
  -- now, determine if creating snapshot volume or normal directory
  else if isSnapshotDir vpath then do
    createSnapshotVolume targetName
    pure 0
  else
    checkRdonlyFs path.1 do
      let parentId ← Program.reads (getInodeIdByPath vpath.toString)
      let childId ← makeChildDentryUnderParent parentId targetName true
      let childInode ← Program.reads (getInodeById childId)
      setStat childInode fun st =>
        { st with
          stCtim := ctx.currentTime 0
          stAtim := ctx.currentTime 1
          stMtim := ctx.currentTime 2
          stIno := rootInodeNumber
          stMode := mode ||| sIfdir
          stNlink := 1
          stSize := 0 }
      pure 0

def doChmod (path : CString) (mode : ℕ) : SmiM ℤ := catchTail ctx do
  checkRdonlyFs path.1 do
    let inode ← inodeByPath path.1
    setStat inode fun st => { st with stMode := mode, stCtim := ctx.currentTime 0 }
    pure 0

def doChown (path : CString) (uid gid : ℕ) : SmiM ℤ := catchTail ctx do
  checkRdonlyFs path.1 do
    let inode ← inodeByPath path.1
    setStat inode fun st => { st with stUid := uid, stGid := gid, stCtim := ctx.currentTime 0 }
    pure 0

def doCreate (path : CString) (mode : ℕ) : SmiM ℤ := catchTail ctx do
  checkRdonlyFs path.1 do
    let (targetName, vpath) ← popPath path.1
    if vpath.size = 0 then throw (.htmpfs .invalidDentryName)
    else do
      let inodeId ← Program.reads (getInodeIdByPath vpath.toString)
      let newTargetId ← makeChildDentryUnderParent inodeId targetName false
      let newInode ← Program.reads (getInodeById newTargetId)
      -- fill up info
      setStat newInode fun st =>
        { st with
          stMode := mode
          stNlink := 1
          stAtim := ctx.currentTime 0
          stCtim := ctx.currentTime 0
          stMtim := ctx.currentTime 0
          stGid := ctx.gid
          stUid := ctx.uid }
      pure 0

/-- `mode` is the mask of `access(2)`; `F_OK` is 0. -/
def doAccess (path : CString) (mode : ℕ) : SmiM ℤ := catchTail ctx do
  if path.1 = snapshotDir then pure 0 -- non-existing directory
  else do
    let inode ← inodeByPath path.1
    if mode = 0 then pure 0
    else do
      let mode := (mode <<< 6) &&& 0x01C0
      let self ← Program.reads fun s => s.deref inode
      pure (if mode &&& self.fsStat.stMode = 0 then -1 else 0)

/-- Also `opendir`. -/
def doOpen (path : CString) : SmiM ℤ := catchTail ctx do
  if path.1 = snapshotDir then pure 0 -- non-existing directory
  else do
    let _ ← Program.reads (getInodeIdByPath path.1)
    pure 0

/-- What `do_read` copies to its buffer. -/
def readBuffer (path : CString) (size : ℕ) (offset : ℤ) (s : InodeSmi) : Except Exit Bytes := do
  let (version, _) ← ifSnapshot path.1
  let inodeId ← getInodeIdByPath path.1 s
  let inode ← getInodeById inodeId s
  let self ← s.deref inode
  self.read s.bufferPool version size (offToU64 offset)

/-- The return value of `do_read`; what it copies out is `Inode.read`. -/
def doRead (path : CString) (size : ℕ) (offset : ℤ) : SmiM ℤ := catchTail ctx do
  let (version, _) ← Program.reads fun _ => ifSnapshot path.1
  let inode ← inodeByPath path.1
  setStat inode fun st => { st with stAtim := ctx.currentTime 0 }
  let out ← Program.reads fun s => do
    let self ← s.deref inode
    self.read s.bufferPool version size (offToU64 offset)
  pure (toInt out.length)

def doWrite (path : CString) (buffer : Bytes) (offset : ℤ) : SmiM ℤ := catchTail ctx do
  checkRdonlyFs path.1 do
    let inode ← inodeByPath path.1
    let currentDataSz ← Program.reads fun s => do
      let self ← s.deref inode
      self.currentDataSize s.bufferPool curModifiableVer
    setStat inode fun st => { st with stMtim := ctx.currentTime 0 }
    let ifResize := decide (u64 (offToU64 offset + buffer.length) > currentDataSz)
    let n ← onInode inode (Inode.write buffer (offToU64 offset) ifResize false)
    pure (toInt n)

def doUtimens (path : CString) (atim mtim : Timespec) : SmiM ℤ := catchTail ctx do
  checkRdonlyFs path.1 do
    let inode ← inodeByPath path.1
    setStat inode fun st => { st with stAtim := atim, stMtim := mtim }
    pure 0

def doUnlink (path : CString) : SmiM ℤ := catchTail ctx do
  checkRdonlyFs path.1 do
    removeInodeByPath path.1
    pure 0

def doRmdir (path : CString) : SmiM ℤ := catchTail ctx do
  let (targetName, vpath) ← popPath path.1
  if targetName.isEmpty then throw (.htmpfs .invalidDentryName)
  else if targetName = snapshotEntry then pure (-(eRofs : ℤ))
  else if isSnapshotDir vpath then do
    -- it's a snapshot deletion
    deleteSnapshotVolume targetName
    pure 0
  else
    checkRdonlyFs path.1 do
      removeInodeByPath path.1
      pure 0

/-- The nested `try` of `do_truncate`; `none` is the pointer that was never assigned. -/
def truncateTarget (path : CString) (size : ℤ) : SmiM (Option PoolPtr) :=
  tryCatch
    (do
      let inode ← inodeByPath path.1
      pure (some inode))
    fun error =>
      match error with
      | .htmpfs code =>
          -- if inode doesn't exist
          if code = .noSuchFileOrDir then do
            let (targetName, vpath) ← popPath path.1
            if vpath.size = 0 then throw (.htmpfs .invalidDentryName)
            else do
              let inodeId ← Program.reads (getInodeIdByPath vpath.toString)
              let newInodeId ← makeChildDentryUnderParent inodeId targetName false
              let inode ← Program.reads (getInodeById newInodeId)
              setStat inode fun st =>
                { st with
                  stSize := size
                  stNlink := 1
                  stAtim := ctx.currentTime 0
                  stCtim := ctx.currentTime 0
                  stMtim := ctx.currentTime 0 }
              pure (some inode)
          else pure none
      | error => throw error

def doTruncate (path : CString) (size : ℤ) : SmiM ℤ := catchTail ctx do
  checkRdonlyFs path.1 do
    match ← truncateTarget ctx path size with
    | none => throw .undefined
    | some inode => do
        -- resize inode buffer
        onInode inode (Inode.truncate (offToU64 size))
        pure 0

def doSymlink (path target : CString) : SmiM ℤ := catchTail ctx do
  checkRdonlyFs path.1 do
    checkRdonlyFs target.1 do
      let (targetName, vpath) ← popPath target.1
      -- invalid target name
      if targetName.isEmpty then throw (.htmpfs .invalidDentryName)
      else do
        let parentInode ← Program.reads (getInodeIdByPath vpath.toString)
        let newInodeId ← makeChildDentryUnderParent parentInode targetName false
        let newInode ← Program.reads (getInodeById newInodeId)
        -- fill up info
        setStat newInode fun st =>
          { st with
            stMode := sIflnk ||| 0o755
            stNlink := 1
            stAtim := ctx.currentTime 0
            stCtim := ctx.currentTime 0
            stMtim := ctx.currentTime 0
            stSize := target.1.length }
        let _ ← onInode newInode (Inode.write target.1 0 true false)
        pure 0

/-- First half of `do_rename`: the new dentry in the target's parent, whose old target is
removed if there is one. -/
def relink (targetParentInodeId : ℕ) (tagDirectoryResolver : DirectoryResolver)
    (targetName : Bytes) (inodeId : ℕ) : SmiM Unit :=
  tryCatch
    (do
      let r ← Program.reads fun _ => tagDirectoryResolver.addPath targetName inodeId
      r.saveCurrent)
    fun error =>
      -- if other error occurred, throw
      if error = .htmpfs .doubleMkpathname then do
        -- if dentry, remove current dentry
        removeChildDentryUnderParent targetParentInodeId targetName
        -- reload dentry list
        let r ← Program.reads tagDirectoryResolver.refresh
        let r ← Program.reads fun _ => r.addPath targetName inodeId
        r.saveCurrent
      else throw error

/-- Second half of `do_rename`: the old dentry goes. -/
def unlinkOriginal (original : PathT) (originalName : Bytes) : SmiM Unit := do
  let parentInode ← inodeByPath original.toString
  let oriDirectoryResolver ← Program.reads (DirectoryResolver.new parentInode curModifiableVer)
  let r ← Program.reads fun _ => oriDirectoryResolver.removePath originalName
  r.saveCurrent

def doRename (path name : CString) : SmiM ℤ := catchTail ctx do
  checkRdonlyFs path.1 do
    checkRdonlyFs name.1 do
      let inodeId ← Program.reads (getInodeIdByPath path.1)
      let (originalName, original) ← popPath path.1
      if original.size = 0 then throw (.htmpfs .invalidDentryName)
      else do
        let (targetName, target) ← popPath name.1
        if target.size = 0 then throw (.htmpfs .invalidDentryName)
        else do
          -- first, create new dentry in new inode parent
          let targetParentInodeId ← Program.reads (getInodeIdByPath target.toString)
          let targetParentInode ← Program.reads (getInodeById targetParentInodeId)
          let tagDirectoryResolver ←
            Program.reads (DirectoryResolver.new targetParentInode curModifiableVer)
          relink targetParentInodeId tagDirectoryResolver targetName inodeId
          -- second, remove dentry in parent inode
          unlinkOriginal original originalName
          pure 0

def doFallocate (path : CString) (mode : ℕ) (offset length : ℤ) : SmiM ℤ := catchTail ctx do
  checkRdonlyFs path.1 do
    let inode ← inodeByPath path.1
    -- fill up info
    setStat inode fun st =>
      { st with
        stMode := mode ||| sIfreg
        stNlink := 1
        stCtim := ctx.currentTime 0
        stSize := offset + length }
    -- resize
    onInode inode (Inode.truncate (offToU64 (offset + length)))
    pure 0

def doMknod (path : CString) (mode device : ℕ) : SmiM ℤ := catchTail ctx do
  checkRdonlyFs path.1 do
    let (targetName, vpath) ← popPath path.1
    if targetName.isEmpty then throw (.htmpfs .invalidDentryName)
    else do
      let inodeId ← Program.reads (getInodeIdByPath vpath.toString)
      let newInodeId ← makeChildDentryUnderParent inodeId targetName false
      let newInode ← Program.reads (getInodeById newInodeId)
      -- fill up info
      setStat newInode fun st =>
        { st with
          stMode := mode
          stNlink := 1
          stAtim := ctx.currentTime 0
          stCtim := ctx.currentTime 0
          stMtim := ctx.currentTime 0
          stDev := device }
      pure 0

end Fuse

/-- The file system as `main` mounts it. -/
def mount (ctx : FuseContext) (limits : PoolLimits) (blockSize : ℕ) : InodeSmi :=
  let s := InodeSmi.new limits blockSize
  { s with
    inodePool := s.inodePool.modify rootInodeNumber fun node =>
      { node with
        val := { node.val with
          fsStat :=
            { stCtim := ctx.currentTime 0
              stAtim := ctx.currentTime 1
              stMtim := ctx.currentTime 2
              stIno := rootInodeNumber
              stMode := 0o755 ||| sIfdir
              stGid := ctx.gid
              stUid := ctx.uid
              stNlink := 1
              stSize := 0 } } } }

/-- The callbacks that change the file system, with their arguments. -/
inductive FuseCall
  | mkdir (path : CString) (mode : ℕ)
  | chmod (path : CString) (mode : ℕ)
  | chown (path : CString) (uid gid : ℕ)
  | create (path : CString) (mode : ℕ)
  | read (path : CString) (size : ℕ) (offset : ℤ)
  | write (path : CString) (buffer : Bytes) (offset : ℤ)
  | utimens (path : CString) (atim mtim : Timespec)
  | unlink (path : CString)
  | rmdir (path : CString)
  | truncate (path : CString) (size : ℤ)
  | symlink (path target : CString)
  | rename (path name : CString)
  | fallocate (path : CString) (mode : ℕ) (offset length : ℤ)
  | mknod (path : CString) (mode device : ℕ)

/-- Dispatch by `fuse_operations`. -/
def FuseCall.run (ctx : FuseContext) : FuseCall → SmiM ℤ
  | mkdir path mode => Fuse.doMkdir ctx path mode
  | chmod path mode => Fuse.doChmod ctx path mode
  | chown path uid gid => Fuse.doChown ctx path uid gid
  | create path mode => Fuse.doCreate ctx path mode
  | read path size offset => Fuse.doRead ctx path size offset
  | write path buffer offset => Fuse.doWrite ctx path buffer offset
  | utimens path atim mtim => Fuse.doUtimens ctx path atim mtim
  | unlink path => Fuse.doUnlink ctx path
  | rmdir path => Fuse.doRmdir ctx path
  | truncate path size => Fuse.doTruncate ctx path size
  | symlink path target => Fuse.doSymlink ctx path target
  | rename path name => Fuse.doRename ctx path name
  | fallocate path mode offset length => Fuse.doFallocate ctx path mode offset length
  | mknod path mode device => Fuse.doMknod ctx path mode device

end Htmpfs
