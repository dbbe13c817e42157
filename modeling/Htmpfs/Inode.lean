import Mathlib
import Htmpfs.Buffer

/-!
# Index nodes

An inode keeps one block list per version.  A block list names nodes of the
file system's buffer pool; the `current` list shares the blocks that a
snapshot froze and copies such a block before changing it.
-/

namespace Htmpfs

/-- `buffer_result_t` -/
structure BufferResult where
  id : ℕ
  data : PoolPtr
  isSnapshoted : Bool
  deriving DecidableEq, Repr

/-- `inode_t`, without the pointer to the one file system. -/
structure Inode where
  blockSize : ℕ
  inodeId : ℕ
  isDentry : Bool
  bufferMap : Std.ExtTreeMap SnapshotVer (List BufferResult)
  fsStat : Stat

/-- `inode_t::inode_t` -/
def Inode.new (blockSize inodeId : ℕ) (isDentry : Bool) : Inode where
  blockSize := blockSize
  inodeId := inodeId
  isDentry := isDentry
  bufferMap := (∅ : Std.ExtTreeMap SnapshotVer (List BufferResult)).insert curModifiableVer []
  fsStat := {}

/-! ## The buffer pool

These are methods of `inode_smi_t` that touch the buffer pool only. -/

/-- `uint64_t` minus one. -/
def decrement (n : ℕ) : ℕ := if n = 0 then 2 ^ 64 - 1 else n - 1

/-- `inode_smi_t::get_free_id` -/
def getFreeId {α : Type} (pool : IdPool α) : Except Exit ℕ :=
  if pool.size = pool.maxSize then throw (.htmpfs .bufferIdDepleted)
  else
    match pool.searchFree (pool.size + 1) pool.size with
    | some id => pure id
    | none => throw .diverges

/-- `pool.emplace(id, pack_t { .link_count = 1, ... })`.  The heap is exhausted before a map
reaches its `max_size`. -/
def emplace {α : Type} (id : ℕ) (val : α) : EStateM Exit (IdPool α) Unit := do
  let pool ← get
  if pool.maxSize ≤ pool.size + 1 then throw .badAlloc
  else set (pool.emplace id val)

/-- `pool.at(id)` -/
def poolAt {α : Type} (id : ℕ) (pool : IdPool α) : Except Exit (PoolNode α) :=
  match pool.find? id with
  | some node => pure node
  | none => throw .outOfRange

abbrev PoolM := EStateM Exit (IdPool Buffer)

/-- `inode_smi_t::request_buffer_allocation` -/
def requestBufferAllocation : PoolM BufferResult := do
  let id ← Program.reads getFreeId
  emplace id ([] : Buffer)
  let node ← Program.reads (poolAt id)
  pure { id := id, data := ⟨id, node.addr⟩, isSnapshoted := false }

/-- `inode_smi_t::unlink_buffer` -/
def unlinkBuffer (bufferId : ℕ) : PoolM Unit := do
  let pool ← get
  match pool.find? bufferId with
  | none => throw (.htmpfs .requestedBufferNotFound)
  | some node =>
      if node.linkCount = 1 then set (pool.erase bufferId)
      else set (pool.setLinkCount bufferId (decrement node.linkCount))

/-- `inode_smi_t::link_buffer`.  Every link is paid for by an entry pushed to a block list, so
the counter does not wrap. -/
def linkBuffer (bufferId : ℕ) : PoolM Unit := do
  let pool ← get
  match pool.find? bufferId with
  | none => throw (.htmpfs .requestedBufferNotFound)
  | some node => set (pool.setLinkCount bufferId (node.linkCount + 1))

/-! ## A block list over the pool -/

/-- The buffer pool and `snapshot_0_block_list`, the list that `write` and `truncate` hold a
reference to. -/
structure Bank where
  bufferPool : IdPool Buffer
  blockList : List BufferResult

abbrev BankM := EStateM Exit Bank

namespace Bank

variable {α : Type}

def onPool (m : PoolM α) : BankM α :=
  Program.zoom (fun b => some b.bufferPool) (fun pool b => { b with bufferPool := pool })
    .undefined m

/-- `r.data->...`: the buffer behind an entry. -/
def deref (pool : IdPool Buffer) (r : BufferResult) : Except Exit Buffer :=
  match pool.deref? r.data with
  | some data => pure data
  | none => throw .undefined

/-- `list[i]` -/
def index (i : ℕ) (b : Bank) : Except Exit BufferResult :=
  match b.blockList[i]? with
  | some r => pure r
  | none => throw .undefined

/-- `list.at(i)` -/
def blockAt (i : ℕ) (b : Bank) : Except Exit BufferResult :=
  match b.blockList[i]? with
  | some r => pure r
  | none => throw .outOfRange

/-- `list[i] = r` -/
def setBlock (i : ℕ) (r : BufferResult) : BankM Unit :=
  modify fun b => { b with blockList := b.blockList.set i r }

/-- `list.emplace_back(r)` -/
def emplaceBack (r : BufferResult) : BankM Unit :=
  modify fun b => { b with blockList := b.blockList ++ [r] }

/-- `r.data->read(...)` -/
def readBuffer (r : BufferResult) (length offset : ℕ) (b : Bank) : Except Exit Bytes := do
  let data ← deref b.bufferPool r
  pure (data.read length offset)

/-- `r.data->write(...)` -/
def writeBuffer (r : BufferResult) (buffer : Bytes) (offset : ℕ) (resize : Bool) : BankM ℕ := do
  let data ← Program.reads fun b => deref b.bufferPool r
  let out := data.write buffer offset resize
  modify fun b => { b with bufferPool := b.bufferPool.setVal r.data.id out.2 }
  pure out.1

/-- `r.data->truncate(length)` -/
def truncateBuffer (r : BufferResult) (length : ℕ) : BankM Unit := do
  let data ← Program.reads fun b => deref b.bufferPool r
  modify fun b => { b with bufferPool := b.bufferPool.setVal r.data.id (data.truncate length) }

/-- One turn of the copy-on-write loops: reallocate the buffer at `i` if a snapshot froze it. -/
def thaw (blockSize i : ℕ) : BankM Unit := do
  let frozenBuffer ← Program.reads (index i)
  if frozenBuffer.isSnapshoted then do
    -- read data from old buffer
    let tmp ← Program.reads (readBuffer frozenBuffer blockSize 0)
    -- allocate new buffer
    let newBuffer ← onPool requestBufferAllocation
    let _ ← writeBuffer newBuffer tmp 0 true
    -- replace buffer
    setBlock i newBuffer
  else pure ()

/-- One turn of the loop that appends lost buffers. -/
def append (_ : ℕ) : BankM Unit := do
  let result ← onPool requestBufferAllocation
  emplaceBack result

/-- One turn of the loop that removes the last buffer. -/
def dropLast (_ : ℕ) : BankM Unit := do
  let lastBuffer ← Program.reads fun b =>
    match b.blockList.getLast? with
    | some r => pure r
    | none => throw .undefined
  -- if not a snapshot frozen buffer (now becomes an owner-less buffer)
  if lastBuffer.isSnapshoted then pure ()
  else onPool (unlinkBuffer lastBuffer.id)
  modify fun b => { b with blockList := b.blockList.dropLast }

/-- `list.at(i).data->truncate(length)` -/
def truncateAt (i length : ℕ) : BankM Unit := do
  let r ← Program.reads (blockAt i)
  truncateBuffer r length

/-- The end of `inode_t::truncate`: the first block, the full blocks, the last.  The bytes of a
file lie at as many addresses of the process, which has fewer than `2 ^ 63` of them. -/
def truncateSpan (blockSize length offset : ℕ) : BankM Unit := do
  let offsetForStartingBuffer := offset % blockSize
  let startingBuffer := offset / blockSize
  let writeLengthInStartingBuffer :=
    if blockSize - offsetForStartingBuffer ≥ length then length
    else blockSize - offsetForStartingBuffer
  let remainingWriteLength := length - writeLengthInStartingBuffer
  let fullBlockOperationCount := remainingWriteLength / blockSize
  let writeLengthInLastBuffer := remainingWriteLength % blockSize
  -- no data pending for modification, skip
  if length = 0 then pure ()
  else if 2 ^ 63 ≤ length then throw .badAlloc
  else do
    truncateAt startingBuffer writeLengthInStartingBuffer
    Program.loop (fun i => truncateAt (startingBuffer + i) blockSize) 1 fullBlockOperationCount
    if writeLengthInLastBuffer = 0 then pure ()
    else truncateAt (startingBuffer + fullBlockOperationCount + 1) writeLengthInLastBuffer

/-- `inode_t::truncate` -/
def truncate (blockSize length : ℕ) : BankM Unit := do
  let count := (← get).blockList.length
  let currentBankSize := u64 (count * blockSize)
  let offset := 0
  -- meet bank size shortage, i.e., grow bank at the end of the buffer list
  if currentBankSize < length then do
    let wantedSize := length - currentBankSize
    let wantedBufferCount :=
      wantedSize / blockSize + (if wantedSize % blockSize = 0 then 0 else 1)
    Program.loop append 0 wantedBufferCount
    let count := (← get).blockList.length
    Program.loop (thaw blockSize) (offset / blockSize) (count - offset / blockSize)
  else do
    let bankCountAfterWrite := length / blockSize + (if length % blockSize = 0 then 0 else 1)
    Program.loop dropLast 0 (count - bankCountAfterWrite)
    let start := offset / blockSize
    let stop := u64 (offset + length) / blockSize +
      (if u64 (offset + length) % blockSize = 0 then 0 else 1)
    Program.loop (thaw blockSize) start (stop - start)
  truncateSpan blockSize length offset

/-- `VERIFY_DATA_OPS_LEN(list.at(i).data->write(buffer, length, offset, resize), length)` -/
def writeAt (i : ℕ) (buffer : Bytes) (offset : ℕ) (resize : Bool) : BankM Unit := do
  let r ← Program.reads (blockAt i)
  let n ← writeBuffer r buffer offset resize
  if n = buffer.length then pure () else throw (.htmpfs .bufferShortOps)

/-- The bytes of `[buffer + start, buffer + start + length)`. -/
def slice (buffer : Bytes) (start length : ℕ) : Bytes := (buffer.drop start).take length

/-- The end of both branches of `inode_t::write`: the first block, the full blocks, the last. -/
def writeSpan (blockSize : ℕ) (buffer : Bytes) (offset : ℕ) (resize : Bool) : BankM Unit := do
  let length := buffer.length
  let offsetForStartingBuffer := offset % blockSize
  let startingBuffer := offset / blockSize
  let writeLengthInStartingBuffer :=
    if blockSize - offsetForStartingBuffer ≥ length then length
    else blockSize - offsetForStartingBuffer
  let remainingWriteLength := length - writeLengthInStartingBuffer
  let fullBlockOperationCount := remainingWriteLength / blockSize
  let writeLengthInLastBuffer := remainingWriteLength % blockSize
  -- write starting block
  writeAt startingBuffer (slice buffer 0 writeLengthInStartingBuffer) offsetForStartingBuffer
    resize
  -- full block operation
  Program.loop (fun i => writeAt (startingBuffer + i)
    (slice buffer (writeLengthInStartingBuffer + (i - 1) * blockSize) blockSize) 0 resize)
    1 fullBlockOperationCount
  -- last block operation
  if writeLengthInLastBuffer = 0 then pure ()
  else
    writeAt (startingBuffer + fullBlockOperationCount + 1)
      (slice buffer (writeLengthInStartingBuffer + fullBlockOperationCount * blockSize)
        writeLengthInLastBuffer) 0 resize

/-- The loop of `inode_t::current_data_size`. -/
def dataSize (pool : IdPool Buffer) : List BufferResult → Except Exit ℕ
  | [] => pure 0
  | r :: rest => do
      let data ← deref pool r
      let size ← dataSize pool rest
      pure (data.length + size)

/-- `inode_t::write` once its sanity checks have passed. -/
def write (blockSize : ℕ) (buffer : Bytes) (offset : ℕ) (resize : Bool) : BankM ℕ := do
  let length := buffer.length
  if resize then do
    truncate blockSize (u64 (offset + length))
    writeSpan blockSize buffer offset true
    pure length
  else do
    let size ← Program.reads fun b => dataSize b.bufferPool b.blockList
    -- write beyond buffer bank
    if offset > size then pure 0
    else do
      let writeSize := if u64 (offset + length) > size then size - offset else length
      let start := offset / blockSize
      let stop := u64 (offset + writeSize) / blockSize +
        (if u64 (offset + writeSize) % blockSize = 0 then 0 else 1)
      Program.loop (thaw blockSize) start (stop - start)
      writeSpan blockSize (buffer.take writeSize) offset false
      pure writeSize

/-- `VERIFY_DATA_OPS_LEN(list.at(i).data->read(buffer, length, offset), length)` -/
def readAt (pool : IdPool Buffer) (list : List BufferResult) (i length offset : ℕ) :
    Except Exit Bytes := do
  let r ← blockAt i ⟨pool, list⟩
  let out ← readBuffer r length offset ⟨pool, list⟩
  if out.length = length then pure out else throw (.htmpfs .bufferShortOps)

/-- The full block operations of `inode_t::read`. -/
def readFull (pool : IdPool Buffer) (list : List BufferResult) (blockSize : ℕ) :
    ℕ → ℕ → Except Exit Bytes
  | _, 0 => pure []
  | i, count + 1 => do
      let out ← readAt pool list i blockSize 0
      let rest ← readFull pool list blockSize (i + 1) count
      pure (out ++ rest)

/-- `inode_t::read` on the block list of its version, for a nonzero length: the bytes copied
out, whose number is the return value. -/
def read (pool : IdPool Buffer) (list : List BufferResult) (blockSize length offset : ℕ) :
    Except Exit Bytes := do
  let size ← dataSize pool list
  -- read beyond buffer bank
  if offset > size then pure []
  else do
    let readSize := if u64 (offset + length) > size then size - offset else length
    let offsetForStartingBuffer := offset % blockSize
    let startingBuffer := offset / blockSize
    let readLengthInStartingBuffer :=
      if blockSize - offsetForStartingBuffer ≥ readSize then readSize
      else blockSize - offsetForStartingBuffer
    let remaining := readSize - readLengthInStartingBuffer
    let fullBlockOperationCount := remaining / blockSize
    let readLengthInLastBuffer := remaining % blockSize
    let first ← readAt pool list startingBuffer readLengthInStartingBuffer offsetForStartingBuffer
    let full ← readFull pool list blockSize (startingBuffer + 1) fullBlockOperationCount
    let last ←
      if readLengthInLastBuffer = 0 then pure []
      else
        readAt pool list (startingBuffer + fullBlockOperationCount + 1) readLengthInLastBuffer 0
    pure (first ++ full ++ last)

/-- The loop of `inode_t::create_new_volume`: freeze and link each buffer; the new volume. -/
def freeze : ℕ → ℕ → BankM (List BufferResult)
  | _, 0 => pure []
  | i, count + 1 => do
      let r ← Program.reads (index i)
      let r := { r with isSnapshoted := true }
      setBlock i r
      onPool (linkBuffer r.id)
      let rest ← freeze (i + 1) count
      pure (r :: rest)

end Bank

/-! ## Methods of an inode -/

/-- What a method works on: `*this` and, behind `filesystem`, the buffer pool. -/
structure InodeView where
  bufferPool : IdPool Buffer
  self : Inode

abbrev InodeM := EStateM Exit InodeView

namespace Inode

variable {α : Type}

/-- `auto & snapshot_0_block_list = buffer_map.at(FILESYSTEM_CUR_MODIFIABLE_VER)` -/
def onBank (m : BankM α) : InodeM α :=
  Program.zoom
    (fun v => (v.self.bufferMap[curModifiableVer]?).map fun list => ⟨v.bufferPool, list⟩)
    (fun b v =>
      { bufferPool := b.bufferPool
        self := { v.self with bufferMap := v.self.bufferMap.insert curModifiableVer b.blockList } })
    .outOfRange m

/-- `inode_t::write`; `dentryOnly` is the token only `directory_resolver_t` can make. -/
def write (buffer : Bytes) (offset : ℕ) (resize dentryOnly : Bool) : InodeM ℕ := do
  let self := (← get).self
  if self.isDentry && !dentryOnly then throw (.htmpfs .invalidWriteInvoke)
  else if buffer.length = 0 then pure 0
  else onBank (Bank.write self.blockSize buffer offset resize)

/-- `inode_t::truncate` -/
def truncate (length : ℕ) : InodeM Unit := do
  let self := (← get).self
  onBank (Bank.truncate self.blockSize length)

/-- `inode_t::current_data_size` -/
def currentDataSize (pool : IdPool Buffer) (self : Inode) (version : SnapshotVer) :
    Except Exit ℕ :=
  match self.bufferMap[version]? with
  | none => throw (.htmpfs .noSuchSnapshot)
  | some list => Bank.dataSize pool list

/-- `inode_t::read` -/
def read (pool : IdPool Buffer) (self : Inode) (version : SnapshotVer) (length offset : ℕ) :
    Except Exit Bytes :=
  if length = 0 then pure []
  else
    match self.bufferMap[version]? with
    | none => throw (.htmpfs .noSuchSnapshot)
    | some list => Bank.read pool list self.blockSize length offset

/-- `inode_t::to_string` -/
def toString (pool : IdPool Buffer) (self : Inode) (version : SnapshotVer) : Except Exit Bytes :=
  if self.bufferMap.isEmpty then pure []
  else do
    let size ← currentDataSize pool self version
    if size = 0 then pure []
    else
      match self.bufferMap[version]? with
      | none => throw .outOfRange
      | some list => do
          let ret ← read pool self version (u64 (self.blockSize * list.length + 1)) 0
          if ret.length = size then pure ret else throw (.htmpfs .bufferShortOps)

/-- `inode_t::create_new_volume` -/
def createNewVolume (volumeVersion : SnapshotVer) : InodeM Unit := do
  let v ← get
  if v.self.bufferMap.contains volumeVersion then throw (.htmpfs .doubleSnapshot)
  else do
    let newVolume ← onBank do
      let count := (← get).blockList.length
      Bank.freeze 0 count
    modify fun v =>
      { v with
        self := { v.self with bufferMap := v.self.bufferMap.insertIfNew volumeVersion newVolume } }

/-- `inode_t::delete_volume` -/
def deleteVolume (volumeVersion : SnapshotVer) : InodeM Unit := do
  let v ← get
  if volumeVersion = curModifiableVer then throw (.htmpfs .noSuchSnapshot)
  else
    match v.self.bufferMap[volumeVersion]? with
    | none => throw (.htmpfs .noSuchSnapshot)
    | some list => do
        Program.zoom (fun v => some v.bufferPool) (fun pool v => { v with bufferPool := pool })
          .undefined (Program.each (fun r => unlinkBuffer r.id) list)
        modify fun v =>
          { v with self := { v.self with bufferMap := v.self.bufferMap.erase volumeVersion } }

end Inode

end Htmpfs
