import Mathlib
import Htmpfs.Buffer

/-!
# Block devices

`ll_io` seeks, reads and writes through the calls of the operating system, which
are a parameter here; `ll_io_blockized` addresses the device by blocks.  The
number of blocks is a truncating division, and the operations accept one block
number too many: the first block that does not fit.
-/

namespace Htmpfs

open Program

/-- What `ll_io` calls outside, on system states of type `σ`. -/
structure SystemCalls (σ : Type) where
  /-- `::open`: the file descriptor, or -1. -/
  openFile : Bytes → StateM σ ℤ
  /-- `lseek(fd, 0, SEEK_END)` -/
  lseekEnd : ℤ → StateM σ ℤ
  /-- `lseek(fd, offset, SEEK_SET)` -/
  lseekSet : ℤ → ℤ → StateM σ ℤ
  /-- `::read`: the bytes that arrived, `none` when it returns -1. -/
  read : ℤ → ℕ → StateM σ (Option Bytes)
  /-- `::write`: the number of bytes that left, or -1. -/
  write : ℤ → Bytes → StateM σ ℤ
  /-- `new char [length]`: what the memory holds, `none` when there is not enough. -/
  newChars : ℕ → StateM σ (Option Bytes)

/-- The state of the system, and the offsets `lseek` was given with `SEEK_SET`, the last in front. -/
structure Host (σ : Type) where
  system : σ
  seeks : List ℤ

def Host.call {σ α : Type} (m : StateM σ α) : EStateM Exit (Host σ) α := fun h =>
  .ok (m.run h.system).1 { h with system := (m.run h.system).2 }

/-- `htmpfs_size_t` converted to `off_t`. -/
def u64ToOff (n : ℕ) : ℤ := if n < 2 ^ 63 then n else n - 2 ^ 64

/-- `ll_io` -/
structure LlIo where
  fd : ℤ
  devLen : ℤ

/-- `ll_io_blockized` -/
structure LlIoBlockized extends LlIo where
  blockSize : ℕ
  blockCount : ℕ

section Operations

variable {σ : Type} (calls : SystemCalls σ)

/-- `ll_io::open` -/
def LlIo.openDevice (pathname : Bytes) : EStateM Exit (Host σ) LlIo := do
  let fd ← Host.call (calls.openFile (cStr pathname))
  if fd = -1 then throw (.htmpfs .cannotOpenDevice)
  else
    let devLen ← Host.call (calls.lseekEnd fd)
    if devLen = -1 then throw (.htmpfs .cannotLseekDevice) else pure ⟨fd, devLen⟩

/-- `if (lseek(fd, offset, SEEK_SET) != offset)` of `ll_io::read` and `ll_io::write`. -/
def LlIo.seek (dev : LlIo) (offset : ℤ) : EStateM Exit (Host σ) Unit := do
  modify fun h => { h with seeks := offset :: h.seeks }
  let reached ← Host.call (calls.lseekSet dev.fd offset)
  if reached ≠ offset then throw (.htmpfs .cannotLseekDevice) else pure ()

/-- `ll_io::read` -/
def LlIo.read (dev : LlIo) (length : ℕ) (offset : ℤ) : EStateM Exit (Host σ) (Option Bytes) := do
  dev.seek calls offset
  Host.call (calls.read dev.fd length)

/-- `ll_io::write` -/
def LlIo.write (dev : LlIo) (buffer : Bytes) (offset : ℤ) : EStateM Exit (Host σ) ℤ := do
  dev.seek calls offset
  Host.call (calls.write dev.fd buffer)

/-- `VERIFY_DATA_OPS_LEN(operation, len)`; the comparison is one of unsigned values. -/
def verifyDataOpsLen (operation : ℤ) (len : ℕ) : EStateM Exit (Host σ) Unit :=
  if offToU64 operation ≠ len then throw (.htmpfs .blockShortOps) else pure ()

namespace LlIoBlockized

/-- `ll_io_blockized::ll_io_blockized` -/
def new (pathname : Bytes) (blockSize : ℕ) : EStateM Exit (Host σ) LlIoBlockized := do
  let dev ← LlIo.openDevice calls pathname
  -- a division by zero
  if blockSize = 0 then throw .undefined
  else
    pure { toLlIo := dev, blockSize := blockSize, blockCount := offToU64 dev.devLen / blockSize }

/-- `new char [block_size]` -/
def newBlock (dev : LlIoBlockized) : EStateM Exit (Host σ) Bytes := do
  match ← Host.call (calls.newChars dev.blockSize) with
  | none => throw .badAlloc
  | some fresh => pure fresh

/-- `(off_t)(block_num * block_size)` -/
def offset (dev : LlIoBlockized) (blockNum : ℕ) : ℤ := u64ToOff (u64 (blockNum * dev.blockSize))

/-- `ll_io_blockized::read_block`: what is in the buffer afterwards. -/
def readBlock (dev : LlIoBlockized) (buffer : Buffer) (blockNum : ℕ) :
    EStateM Exit (Host σ) Buffer := do
  if dev.blockCount < blockNum then throw (.htmpfs .meetDeviceBoundary)
  else
    let fresh ← dev.newBlock calls
    let arrived ← dev.read calls dev.blockSize (dev.offset blockNum)
    verifyDataOpsLen (arrived.elim (-1) fun data => data.length) dev.blockSize
    let cBuff := Buffer.store fresh (arrived.getD []) 0
    pure (Buffer.write buffer cBuff 0 true).2

/-- `ll_io_blockized::write_block` -/
def writeBlock (dev : LlIoBlockized) (buffer : Buffer) (blockNum : ℕ) :
    EStateM Exit (Host σ) Unit := do
  if dev.blockCount < blockNum then throw (.htmpfs .meetDeviceBoundary)
  else
    let fresh ← dev.newBlock calls
    let cBuff := Buffer.store fresh (Buffer.read buffer dev.blockSize 0) 0
    let written ← dev.write calls cBuff (dev.offset blockNum)
    verifyDataOpsLen written dev.blockSize

end LlIoBlockized

end Operations

section Bounds

variable {σ α : Type} {calls : SystemCalls σ} {dev : LlIoBlockized} {h : Host σ}
  {m : StateM σ α} {Q : α → Host σ → Prop} {E : Exit → Host σ → Prop}
  {devLen blockSize b : ℕ} {offset : ℤ}

@[simp] theorem Host.ends_call : Ends (Host.call m) h Q E ↔
    Q (m.run h.system).1 { h with system := (m.run h.system).2 } := Iff.rfl

theorem u64ToOff_u64 {n : ℕ} (hn : n < 2 ^ 63) : u64ToOff (u64 n) = n := by
  have hu : u64 n = n := Nat.mod_eq_of_lt (by omega)
  rw [hu, u64ToOff, if_pos hn]

theorem offToU64_natCast {n : ℕ} (hn : n < 2 ^ 63) : offToU64 n = n := by
  unfold offToU64
  omega

/-- A seek is recorded, whether it arrives or not. -/
theorem LlIo.ends_seek {dev : LlIo} : Ends (dev.seek calls offset) h
    (fun _ h' => h'.seeks = offset :: h.seeks)
    (fun e h' => e = .htmpfs .cannotLseekDevice ∧ h'.seeks = offset :: h.seeks) := by
  unfold LlIo.seek
  simp only [ends_bind, ends_modify, Host.ends_call]
  split_ifs
  · exact ⟨rfl, rfl⟩
  · exact rfl

theorem LlIo.ends_read {dev : LlIo} {length : ℕ} : Ends (dev.read calls length offset) h
    (fun _ h' => h'.seeks = offset :: h.seeks)
    (fun e h' => e = .htmpfs .cannotLseekDevice ∧ h'.seeks = offset :: h.seeks) := by
  unfold LlIo.read
  rw [ends_bind]
  exact LlIo.ends_seek.mono (fun _ _ hseek => hseek) fun _ _ herr => herr

theorem LlIo.ends_write {dev : LlIo} {buffer : Bytes} : Ends (dev.write calls buffer offset) h
    (fun _ h' => h'.seeks = offset :: h.seeks)
    (fun e h' => e = .htmpfs .cannotLseekDevice ∧ h'.seeks = offset :: h.seeks) := by
  unfold LlIo.write
  rw [ends_bind]
  exact LlIo.ends_seek.mono (fun _ _ hseek => hseek) fun _ _ herr => herr

theorem ends_verifyDataOpsLen {operation : ℤ} {len : ℕ} :
    Ends (verifyDataOpsLen operation len) h (fun _ h' => h' = h)
      fun e h' => e = .htmpfs .blockShortOps ∧ h' = h := by
  unfold verifyDataOpsLen
  split_ifs
  · exact ⟨rfl, rfl⟩
  · exact rfl

/-- The accesses to the block `b` of a device of `devLen` bytes that `m` makes: it is refused
with `HTMPFS_MEET_DEVICE_BOUNDARY` just when the block does not lie inside the device, and
`lseek` is given no offset but the one of the block. -/
def Bounded (m : EStateM Exit (Host σ) α) (devLen blockSize b : ℕ) : Prop :=
  ∀ h, Ends m h
    (fun _ h' => (b + 1) * blockSize ≤ devLen ∧ h'.seeks = ↑(b * blockSize) :: h.seeks)
    fun e h' => (e = .htmpfs .meetDeviceBoundary ↔ devLen < (b + 1) * blockSize) ∧
      (h'.seeks = h.seeks ∨ h'.seeks = ↑(b * blockSize) :: h.seeks)

/-- The same with the test that the operations make. -/
def Guarded (m : EStateM Exit (Host σ) α) (dev : LlIoBlockized) (b : ℕ) : Prop :=
  ∀ h, Ends m h
    (fun _ h' => b ≤ dev.blockCount ∧ h'.seeks = dev.offset b :: h.seeks)
    fun e h' => (e = .htmpfs .meetDeviceBoundary ↔ dev.blockCount < b) ∧
      (h'.seeks = h.seeks ∨ b ≤ dev.blockCount ∧ h'.seeks = dev.offset b :: h.seeks)

theorem guarded_ite {m : EStateM Exit (Host σ) α}
    (hm : ∀ h, Ends m h (fun _ h' => h'.seeks = dev.offset b :: h.seeks)
      fun e h' => e ≠ .htmpfs .meetDeviceBoundary ∧
        (h'.seeks = h.seeks ∨ h'.seeks = dev.offset b :: h.seeks)) :
    Guarded (if dev.blockCount < b then throw (.htmpfs .meetDeviceBoundary) else m) dev b := by
  intro h
  split_ifs with hcount
  · exact ⟨iff_of_true rfl hcount, Or.inl rfl⟩
  · have hle := Nat.le_of_not_lt hcount
    apply (hm h).mono
    · intro _ _ hseeks
      exact ⟨hle, hseeks⟩
    · rintro e h' ⟨hne, hseeks⟩
      exact ⟨iff_of_false hne hcount, hseeks.imp_right fun h => ⟨hle, h⟩⟩

namespace LlIoBlockized

theorem ends_newBlock : Ends (dev.newBlock calls) h (fun _ h' => h'.seeks = h.seeks)
    fun e h' => e = .badAlloc ∧ h'.seeks = h.seeks := by
  unfold newBlock
  rw [ends_bind, Host.ends_call]
  split
  · exact ⟨rfl, rfl⟩
  · exact rfl

theorem guarded_readBlock {buffer : Buffer} : Guarded (dev.readBlock calls buffer b) dev b := by
  apply guarded_ite
  intro h
  rw [ends_bind]
  apply ends_newBlock.mono
  · intro fresh h₁ hfresh
    rw [ends_bind]
    apply LlIo.ends_read.mono
    · intro arrived h₂ hseeks
      rw [hfresh] at hseeks
      rw [ends_bind]
      apply ends_verifyDataOpsLen.mono
      · rintro _ _ rfl
        exact hseeks
      · rintro _ _ ⟨rfl, rfl⟩
        exact ⟨by simp, Or.inr hseeks⟩
    · rintro _ _ ⟨rfl, hseeks⟩
      exact ⟨by simp, Or.inr (hseeks.trans (by rw [hfresh]))⟩
  · rintro _ _ ⟨rfl, hseeks⟩
    exact ⟨by simp, Or.inl hseeks⟩

theorem guarded_writeBlock {buffer : Buffer} : Guarded (dev.writeBlock calls buffer b) dev b := by
  apply guarded_ite
  intro h
  rw [ends_bind]
  apply ends_newBlock.mono
  · intro fresh h₁ hfresh
    rw [ends_bind]
    apply LlIo.ends_write.mono
    · intro written h₂ hseeks
      rw [hfresh] at hseeks
      apply ends_verifyDataOpsLen.mono
      · rintro _ _ rfl
        exact hseeks
      · rintro _ _ ⟨rfl, rfl⟩
        exact ⟨by simp, Or.inr hseeks⟩
    · rintro _ _ ⟨rfl, hseeks⟩
      exact ⟨by simp, Or.inr (hseeks.trans (by rw [hfresh]))⟩
  · rintro _ _ ⟨rfl, hseeks⟩
    exact ⟨by simp, Or.inl hseeks⟩

end LlIoBlockized

/-- The test is the one for the device, but at the first block that does not fit. -/
theorem outside_iff (hpos : 0 < blockSize) :
    (devLen / blockSize < b ↔ devLen < (b + 1) * blockSize) ↔ b ≠ devLen / blockSize := by
  rw [← Nat.div_lt_iff_lt_mul hpos]
  omega

/-- The offset of a block that passes the test fits. -/
theorem offset_of_le (hlen : devLen < 2 ^ 63) (hsize : dev.blockSize = blockSize)
    (hcount : b ≤ devLen / blockSize) : dev.offset b = ↑(b * blockSize) := by
  have hle : b * blockSize ≤ devLen :=
    (Nat.mul_le_mul_right blockSize hcount).trans (Nat.div_mul_le_self devLen blockSize)
  rw [LlIoBlockized.offset, hsize]
  exact u64ToOff_u64 (hle.trans_lt hlen)

theorem Guarded.bounded_iff {m : EStateM Exit (Host σ) α} (hm : Guarded m dev b) (h : Host σ)
    (hpos : 0 < blockSize) (hlen : devLen < 2 ^ 63) (hsize : dev.blockSize = blockSize)
    (hcount : dev.blockCount = devLen / blockSize) :
    Bounded m devLen blockSize b ↔ b ≠ devLen / blockSize := by
  rw [← outside_iff hpos]
  unfold Guarded at hm
  rw [hcount] at hm
  constructor
  · intro hbounded
    have hboth := (hm h).and (hbounded h)
    unfold Ends at hboth
    split at hboth
    · obtain ⟨⟨hle, _⟩, hin, _⟩ := hboth
      exact iff_of_false (Nat.not_lt_of_le hle) (Nat.not_lt_of_le hin)
    · obtain ⟨⟨hguard, _⟩, hout, _⟩ := hboth
      exact hguard.symm.trans hout
  · intro hout h
    apply (hm h).mono
    · rintro _ h' ⟨hle, hseeks⟩
      rw [offset_of_le hlen hsize hle] at hseeks
      exact ⟨Nat.le_of_not_lt (hout.not.mp (Nat.not_lt_of_le hle)), hseeks⟩
    · rintro e h' ⟨hguard, hseeks⟩
      refine ⟨hguard.trans hout, hseeks.imp_right ?_⟩
      rintro ⟨hle, hseeks⟩
      rw [offset_of_le hlen hsize hle] at hseeks
      exact hseeks

/-- On a device of `devLen` bytes, `read_block` and `write_block` respect its end, and hand
`lseek` the offset of the block, just for the blocks other than the number `devLen / blockSize`. -/
theorem block_io_bounded_iff (calls : SystemCalls σ) (pathname : Bytes) (devLen blockSize b : ℕ)
    (h : Host σ) (hpos : 0 < blockSize) (hlen : devLen < 2 ^ 63)
    (hreports : ∀ fd, ((calls.lseekEnd fd).run
      ((calls.openFile (cStr pathname)).run h.system).2).1 = devLen) :
    Ends (LlIoBlockized.new calls pathname blockSize) h
      (fun dev _ => ∀ buffer,
        (Bounded (dev.readBlock calls buffer b) devLen blockSize b ↔ b ≠ devLen / blockSize) ∧
        (Bounded (dev.writeBlock calls buffer b) devLen blockSize b ↔ b ≠ devLen / blockSize))
      fun e _ => e = .htmpfs .cannotOpenDevice := by
  unfold LlIoBlockized.new LlIo.openDevice
  simp only [ends_bind, Host.ends_call, Nat.pos_iff_ne_zero.mp hpos, if_false]
  split_ifs with hfd
  · exact rfl
  · simp only [ends_bind, Host.ends_call, hreports]
    rw [if_neg (by omega), ends_pure, ends_pure]
    intro buffer
    have hcount : offToU64 devLen / blockSize = devLen / blockSize := by
      rw [offToU64_natCast hlen]
    exact ⟨LlIoBlockized.guarded_readBlock.bounded_iff h hpos hlen rfl hcount,
      LlIoBlockized.guarded_writeBlock.bounded_iff h hpos hlen rfl hcount⟩

end Bounds

/-! ## A device in memory -/

/-- The position and the bytes of a device of fixed length. -/
structure Disk where
  pos : ℕ
  data : Bytes

/-- The calls on a device: at its end a read finds nothing and a write has no room. -/
def diskCalls : SystemCalls Disk where
  openFile _ := pure 3
  lseekEnd _ := fun d => (d.data.length, { d with pos := d.data.length })
  lseekSet _ offset := fun d =>
    if offset < 0 then (-1, d) else (offset, { d with pos := offset.toNat })
  read _ length := fun d =>
    let bytes := (d.data.drop d.pos).take length
    (some bytes, { d with pos := d.pos + bytes.length })
  write _ buffer := fun d =>
    let bytes := buffer.take (d.data.length - d.pos)
    if bytes.isEmpty ∧ ¬ buffer.isEmpty then (-1, d)
    else (bytes.length, ⟨d.pos + bytes.length, Buffer.store d.data bytes d.pos⟩)
  newChars length := pure (some (List.replicate length 0))

/-- Two blocks of 512 bytes. -/
def sampleDisk : Host Disk := ⟨⟨0, List.replicate 1024 0⟩, []⟩

theorem block_io_bounded_iff_sampleDisk :
    Ends (LlIoBlockized.new diskCalls [slash, 100] 512) sampleDisk
      (fun dev _ => ∀ buffer,
        (Bounded (dev.readBlock diskCalls buffer 1) 1024 512 1 ↔ 1 ≠ 1024 / 512) ∧
        (Bounded (dev.writeBlock diskCalls buffer 1) 1024 512 1 ↔ 1 ≠ 1024 / 512))
      fun e _ => e = .htmpfs .cannotOpenDevice :=
  block_io_bounded_iff diskCalls [slash, 100] 1024 512 1 sampleDisk (by decide) (by decide)
    fun _ => congrArg Nat.cast List.length_replicate

section Disk

variable {pathname buffer : Bytes} {blockSize : ℕ} {d : Disk}

theorem new_diskCalls (hpos : 0 < blockSize) :
    LlIoBlockized.new diskCalls pathname blockSize ⟨d, []⟩ =
      .ok ⟨⟨3, d.data.length⟩, blockSize, offToU64 d.data.length / blockSize⟩
        ⟨{ d with pos := d.data.length }, []⟩ := by
  have hne : ¬ (d.data.length : ℤ) = -1 := by omega
  apply Ends.eq_ok
  unfold LlIoBlockized.new LlIo.openDevice
  simp only [ends_bind, Host.ends_call, Nat.pos_iff_ne_zero.mp hpos, if_false, ends_pure]
  rw [if_neg, ends_bind, Host.ends_call, if_neg, ends_pure]
  · exact ⟨rfl, rfl⟩
  · exact hne
  · change ¬ (3 : ℤ) = -1
    decide

/-- The block behind the last one is not refused. -/
theorem not_bounded_disk (hpos : 0 < blockSize) (hlen : d.data.length < 2 ^ 63) :
    ∃ dev h, LlIoBlockized.new diskCalls pathname blockSize ⟨d, []⟩ = .ok dev h ∧
      ¬ Bounded (dev.readBlock diskCalls buffer (d.data.length / blockSize))
        d.data.length blockSize (d.data.length / blockSize) ∧
      ¬ Bounded (dev.writeBlock diskCalls buffer (d.data.length / blockSize))
        d.data.length blockSize (d.data.length / blockSize) := by
  have hcount : offToU64 d.data.length / blockSize = d.data.length / blockSize := by
    rw [offToU64_natCast hlen]
  refine ⟨_, _, new_diskCalls hpos, ?_, ?_⟩
  · rw [LlIoBlockized.guarded_readBlock.bounded_iff sampleDisk hpos hlen rfl hcount]
    exact not_not_intro rfl
  · rw [LlIoBlockized.guarded_writeBlock.bounded_iff sampleDisk hpos hlen rfl hcount]
    exact not_not_intro rfl

end Disk

theorem not_block_io_bounded :
    ∃ dev h, LlIoBlockized.new diskCalls [slash, 100] 512 sampleDisk = .ok dev h ∧
      ¬ Bounded (dev.readBlock diskCalls [] 2) 1024 512 2 ∧
      ¬ Bounded (dev.writeBlock diskCalls [] 2) 1024 512 2 := by
  have hlen : sampleDisk.system.data.length = 1024 := List.length_replicate
  have hdisk := @not_bounded_disk [slash, 100] [] 512 sampleDisk.system (by decide) (by omega)
  rw [hlen] at hdisk
  exact hdisk

end Htmpfs
