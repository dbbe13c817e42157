import Mathlib
import Htmpfs.BlockDevice
import Htmpfs.Library.BlockArray
import Htmpfs.Library.Runs
import Htmpfs.Library.Simulation

/-!
# A device is an array of blocks

`read_block` and `write_block`, called one after the other on a device whose
system calls behave as documented, read and write an array of blocks.  A read
that fails changes nothing; a write that fails may have changed a part of its
own block.
-/

namespace Htmpfs

open Program

/-- The calls on an open file descriptor.  `lseek` may fail; `read` and `write` may fail or fall
short, and stay inside the device; no array has more than `PTRDIFF_MAX` chars. -/
structure SystemCalls.Serves {σ : Type} (calls : SystemCalls σ) (fd : ℤ) (bytes : σ → Bytes)
    (pos : σ → ℕ) : Prop where
  lseekEnd : ∀ t, ((calls.lseekEnd fd).run t).1 = (bytes t).length ∧
    bytes ((calls.lseekEnd fd).run t).2 = bytes t
  lseekSet : ∀ offset t, bytes ((calls.lseekSet fd offset).run t).2 = bytes t ∧
    (((calls.lseekSet fd offset).run t).1 = offset → 0 ≤ offset →
      pos ((calls.lseekSet fd offset).run t).2 = offset.toNat)
  read : ∀ length t, bytes ((calls.read fd length).run t).2 = bytes t ∧
    ∀ data, ((calls.read fd length).run t).1 = some data →
      data <+: ((bytes t).drop (pos t)).take length
  write : ∀ buffer t, ∃ k ≤ buffer.length, (k = 0 ∨ pos t + k ≤ (bytes t).length) ∧
    (((calls.write fd buffer).run t).1 = k ∨ k = 0 ∧ ((calls.write fd buffer).run t).1 = -1) ∧
    bytes ((calls.write fd buffer).run t).2 = Blocks.overwrite (pos t) (buffer.take k) (bytes t)
  newChars : ∀ length t, bytes ((calls.newChars length).run t).2 = bytes t ∧
    ∀ fresh, ((calls.newChars length).run t).1 = some fresh →
      fresh.length = length ∧ length < 2 ^ 63

/-- A call on a blockized device. -/
inductive BlockCall
  | read (buffer : Buffer) (blockNum : ℕ)
  | write (buffer : Buffer) (blockNum : ℕ)

/-- The buffer that the caller has afterwards. -/
def BlockCall.run {σ : Type} (calls : SystemCalls σ) (dev : LlIoBlockized) :
    BlockCall → EStateM Exit (Host σ) Buffer
  | read buffer blockNum => dev.readBlock calls buffer blockNum
  | write buffer blockNum => do
      dev.writeBlock calls buffer blockNum
      pure buffer

/-- A call, and what it returned or threw. -/
def BlockStep {σ : Type} (calls : SystemCalls σ) (dev : LlIoBlockized) (h : Host σ)
    (l : BlockCall × Except Exit Buffer) (h' : Host σ) : Prop :=
  outcome (l.1.run calls dev) h = l.2 ∧ exec (l.1.run calls dev) h = h'

/-- What `write_block` writes: a block that starts with the buffer. -/
def Fills (blockSize : ℕ) (buffer block : Bytes) : Prop :=
  block.length = blockSize ∧ buffer.take blockSize <+: block

/-- A step of an array of blocks. -/
inductive ArrayStep (blockSize : ℕ) (blocks : ℕ → Bytes) :
    BlockCall × Except Exit Buffer → (ℕ → Bytes) → Prop
  | reads {buffer : Buffer} {b : ℕ} (hfull : (blocks b).length = blockSize) :
      ArrayStep blockSize blocks (.read buffer b, .ok (blocks b)) blocks
  | writes {buffer : Buffer} {b : ℕ} {block : Bytes} (hfull : (blocks b).length = blockSize)
      (hfills : Fills blockSize buffer block) :
      ArrayStep blockSize blocks (.write buffer b, .ok buffer) (Function.update blocks b block)
  | failsRead {buffer : Buffer} {b : ℕ} {e : Exit} :
      ArrayStep blockSize blocks (.read buffer b, .error e) blocks
  | failsWrite {buffer : Buffer} {b k : ℕ} {block : Bytes} {e : Exit}
      (hfills : Fills blockSize buffer block) (hk : k ≤ (blocks b).length) :
      ArrayStep blockSize blocks (.write buffer b, .error e)
        (Function.update blocks b (block.take k ++ (blocks b).drop k))

section Steps

variable {σ : Type} {calls : SystemCalls σ} {dev : LlIoBlockized} {bytes : σ → Bytes}
  {pos : σ → ℕ} {h h' : Host σ} {b : ℕ} {buffer : Buffer} {offset : ℤ}
  {ls : List (BlockCall × Except Exit Buffer)}

/-- What stays as it is between the calls: the device, and the length of what it holds. -/
structure Blockized (calls : SystemCalls σ) (dev : LlIoBlockized) (bytes : σ → Bytes)
    (pos : σ → ℕ) (h : Host σ) : Prop where
  serves : calls.Serves dev.fd bytes pos
  blockSize_pos : 0 < dev.blockSize
  small : (bytes h.system).length < 2 ^ 63
  blockCount : dev.blockCount = (bytes h.system).length / dev.blockSize

/-- The blocks that the device holds. -/
def blocksOf (dev : LlIoBlockized) (bytes : σ → Bytes) (h : Host σ) (b : ℕ) : Bytes :=
  Blocks.blockAt dev.blockSize (bytes h.system) b

/-- A block has been written, and no other. -/
def BlockWritten (dev : LlIoBlockized) (bytes : σ → Bytes) (buffer : Buffer) (b : ℕ)
    (h h' : Host σ) : Prop :=
  (bytes h'.system).length = (bytes h.system).length ∧
    (blocksOf dev bytes h b).length = dev.blockSize ∧
    ∃ block, Fills dev.blockSize buffer block ∧
      blocksOf dev bytes h' = Function.update (blocksOf dev bytes h) b block

/-- The front of a block has been written, and no other block. -/
def BlockTorn (dev : LlIoBlockized) (bytes : σ → Bytes) (buffer : Buffer) (b : ℕ)
    (h h' : Host σ) : Prop :=
  (bytes h'.system).length = (bytes h.system).length ∧
    ∃ block k, Fills dev.blockSize buffer block ∧ k ≤ (blocksOf dev bytes h b).length ∧
      blocksOf dev bytes h' = Function.update (blocksOf dev bytes h) b
        (block.take k ++ (blocksOf dev bytes h b).drop k)

theorem Blockized.of_length (hb : Blockized calls dev bytes pos h)
    (hlen : (bytes h'.system).length = (bytes h.system).length) :
    Blockized calls dev bytes pos h' where
  serves := hb.serves
  blockSize_pos := hb.blockSize_pos
  small := hlen ▸ hb.small
  blockCount := hlen ▸ hb.blockCount

/-- An accepted block is addressed by its offset. -/
theorem Blockized.offset_eq (hb : Blockized calls dev bytes pos h) (hle : b ≤ dev.blockCount) :
    dev.offset b = ↑(b * dev.blockSize) :=
  offset_of_le hb.small rfl (hb.blockCount ▸ hle)

theorem Blockized.ends_seek (hb : Blockized calls dev bytes pos h) (hoffset : 0 ≤ offset) :
    Ends (dev.seek calls offset) h
      (fun _ h' => bytes h'.system = bytes h.system ∧ pos h'.system = offset.toNat)
      (fun _ h' => bytes h'.system = bytes h.system) := by
  unfold LlIo.seek
  simp only [ends_bind, ends_modify, Host.ends_call]
  obtain ⟨hbytes, hpos⟩ := hb.serves.lseekSet offset h.system
  split_ifs with hreached
  · exact hbytes
  · exact ⟨hbytes, hpos (not_not.mp hreached) hoffset⟩

theorem Blockized.ends_newBlock (hb : Blockized calls dev bytes pos h) :
    Ends (dev.newBlock calls) h
      (fun fresh h' => bytes h'.system = bytes h.system ∧ fresh.length = dev.blockSize ∧
        dev.blockSize < 2 ^ 63)
      (fun _ h' => bytes h'.system = bytes h.system) := by
  unfold LlIoBlockized.newBlock
  rw [ends_bind, Host.ends_call]
  obtain ⟨hbytes, hfresh⟩ := hb.serves.newChars dev.blockSize h.system
  cases hnew : ((calls.newChars dev.blockSize).run h.system).1 with
  | none => exact hbytes
  | some fresh => exact ⟨hbytes, hfresh fresh hnew⟩

/-- What passes the test of the length is the whole block. -/
theorem eq_of_offToU64 {k len : ℕ} {r : ℤ} (hlen : len < 2 ^ 63) (hk : k ≤ len)
    (hr : r = k ∨ k = 0 ∧ r = -1) (heq : offToU64 r = len) : k = len := by
  unfold offToU64 at heq
  omega

/-- The step lemma of `read_block`. -/
theorem Blockized.ends_readBlock (hb : Blockized calls dev bytes pos h) :
    Ends (dev.readBlock calls buffer b) h
      (fun out h' => bytes h'.system = bytes h.system ∧ out = blocksOf dev bytes h b ∧
        (blocksOf dev bytes h b).length = dev.blockSize)
      (fun _ h' => bytes h'.system = bytes h.system) := by
  unfold LlIoBlockized.readBlock
  split_ifs with hcount
  · exact rfl
  have hoffset := hb.offset_eq (Nat.le_of_not_lt hcount)
  rw [ends_bind]
  apply hb.ends_newBlock.mono
  · rintro fresh h₁ ⟨hbytes₁, hfresh, hlen⟩
    have hb₁ : Blockized calls dev bytes pos h₁ := hb.of_length (by rw [hbytes₁])
    rw [ends_bind, LlIo.read, ends_bind, hoffset]
    apply (hb₁.ends_seek (Int.natCast_nonneg _)).mono
    · rintro _ h₂ ⟨hbytes₂, hpos⟩
      rw [Host.ends_call, ends_bind]
      obtain ⟨hbytes₃, hdata⟩ := hb.serves.read dev.blockSize h₂.system
      have hkept : bytes ((calls.read dev.fd dev.blockSize).run h₂.system).2 = bytes h.system :=
        hbytes₃.trans (hbytes₂.trans hbytes₁)
      unfold verifyDataOpsLen
      split_ifs with hshort
      · exact hkept
      rw [not_not] at hshort
      rw [ends_pure, ends_pure]
      cases harrived : ((calls.read dev.fd dev.blockSize).run h₂.system).1 with
      | none =>
          rw [harrived] at hshort
          have hzero := eq_of_offToU64 hlen (Nat.zero_le _) (Or.inr ⟨rfl, rfl⟩) hshort
          exact absurd hzero hb.blockSize_pos.ne
      | some data =>
          rw [harrived] at hshort
          have hfront := hdata data harrived
          rw [hbytes₂, hbytes₁, hpos, Int.toNat_natCast] at hfront
          have hfull : data.length = dev.blockSize :=
            eq_of_offToU64 hlen (hfront.length_le.trans (List.length_take_le _ _)) (Or.inl rfl)
              hshort
          have hblock : data = blocksOf dev bytes h b := by
            refine hfront.eq_of_length_le ?_
            rw [hfull]
            exact List.length_take_le _ _
          refine ⟨hkept, ?_, hblock ▸ hfull⟩
          rw [Option.getD_some, Buffer.write_front, ← hblock]
          have hrest : fresh.drop (0 + data.length) = [] :=
            List.drop_eq_nil_of_le (by omega)
          rw [Buffer.store, hrest, List.take_zero, List.nil_append, List.append_nil]
    · exact fun _ h₂ hbytes₂ => hbytes₂.trans hbytes₁
  · exact fun _ _ hbytes₁ => hbytes₁

/-- What a write of a part of a block leaves. -/
theorem blocksOf_overwrite (bytes : σ → Bytes) (b : ℕ) (h h' : Host σ) {block : Bytes} {k : ℕ}
    (hblock : block.length = dev.blockSize)
    (hk : k ≤ block.length) (hin : k = 0 ∨ b * dev.blockSize + k ≤ (bytes h.system).length)
    (hbytes : bytes h'.system =
      Blocks.overwrite (b * dev.blockSize) (block.take k) (bytes h.system)) :
    (bytes h'.system).length = (bytes h.system).length ∧ k ≤ (blocksOf dev bytes h b).length ∧
      blocksOf dev bytes h' = Function.update (blocksOf dev bytes h) b
        (block.take k ++ (blocksOf dev bytes h b).drop k) := by
  rcases Nat.eq_zero_or_pos k with rfl | hpos
  · rw [List.take_zero, Blocks.overwrite_nil] at hbytes
    refine ⟨by rw [hbytes], Nat.zero_le _, ?_⟩
    rw [List.take_zero, List.nil_append, List.drop_zero, Function.update_eq_self]
    unfold blocksOf
    rw [hbytes]
  · have hfits := hin.resolve_left hpos.ne'
    have hlen : (block.take k).length = k := by simp [hk]
    refine ⟨?_, ?_, ?_⟩
    · rw [hbytes, Blocks.length_overwrite (by omega)]
    · rw [blocksOf, Blocks.length_blockAt]
      omega
    · funext j
      by_cases hj : j = b
      · subst hj
        rw [Function.update_self, blocksOf, hbytes,
          Blocks.blockAt_overwrite_self (by omega) (by omega), hlen]
        rfl
      · rw [Function.update_of_ne hj, blocksOf, hbytes,
          Blocks.blockAt_overwrite_of_ne hj (by omega) (by omega)]
        rfl

theorem fills_store {fresh : Bytes} {blockSize : ℕ} (hfresh : fresh.length = blockSize) :
    Fills blockSize buffer (Buffer.store fresh (Buffer.read buffer blockSize 0) 0) := by
  have hread : Buffer.read buffer blockSize 0 = buffer.take blockSize := by
    by_cases hle : blockSize ≤ buffer.length
    · rw [Buffer.read_of_le (by omega), List.drop_zero]
    · rw [Buffer.read_all (by omega), List.take_of_length_le (by omega)]
  rw [hread, Buffer.store, List.take_zero, List.nil_append]
  refine ⟨?_, List.prefix_append _ _⟩
  rw [List.length_append, List.length_drop, hfresh]
  have hle := List.length_take_le blockSize buffer
  omega

/-- The step lemma of `write_block`. -/
theorem Blockized.ends_writeBlock (hb : Blockized calls dev bytes pos h) :
    Ends (dev.writeBlock calls buffer b) h (fun _ h' => BlockWritten dev bytes buffer b h h')
      (fun _ h' => BlockTorn dev bytes buffer b h h') := by
  -- where no call has written, nothing has changed
  have hkept : ∀ h' : Host σ, bytes h'.system = bytes h.system →
      BlockTorn dev bytes buffer b h h' := by
    intro h' hbytes
    have hfills : Fills dev.blockSize buffer _ :=
      fills_store (List.length_replicate (n := dev.blockSize) (a := 0))
    have hnone := blocksOf_overwrite bytes b h h' hfills.1 (Nat.zero_le _) (Or.inl rfl)
      (by rw [List.take_zero, Blocks.overwrite_nil, hbytes])
    exact ⟨hnone.1, _, 0, hfills, hnone.2⟩
  unfold LlIoBlockized.writeBlock
  split_ifs with hcount
  · exact hkept h rfl
  have hoffset := hb.offset_eq (Nat.le_of_not_lt hcount)
  rw [ends_bind]
  apply hb.ends_newBlock.mono
  swap
  · exact fun _ h₁ hbytes₁ => hkept h₁ hbytes₁
  rintro fresh h₁ ⟨hbytes₁, hfresh, hlen⟩
  have hfills : Fills dev.blockSize buffer _ := fills_store hfresh
  have hb₁ : Blockized calls dev bytes pos h₁ := hb.of_length (by rw [hbytes₁])
  rw [ends_bind, LlIo.write, ends_bind, hoffset]
  generalize Buffer.store fresh (Buffer.read buffer dev.blockSize 0) 0 = block at hfills ⊢
  apply (hb₁.ends_seek (Int.natCast_nonneg _)).mono
  swap
  · exact fun _ h₂ hbytes₂ => hkept h₂ (hbytes₂.trans hbytes₁)
  rintro _ h₂ ⟨hbytes₂, hpos⟩
  rw [Host.ends_call]
  obtain ⟨k, hk, hin, hresult, hwritten⟩ := hb.serves.write block h₂.system
  rw [hpos, Int.toNat_natCast, hbytes₂, hbytes₁] at hin hwritten
  have hleft := blocksOf_overwrite bytes b h
    ⟨((calls.write dev.fd block).run h₂.system).2, h₂.seeks⟩ hfills.1 hk hin hwritten
  unfold verifyDataOpsLen
  split_ifs with hshort
  · exact ⟨hleft.1, block, k, hfills, hleft.2⟩
  · rw [not_not] at hshort
    have hfull : k = dev.blockSize :=
      eq_of_offToU64 hlen (hk.trans hfills.1.le) hresult hshort
    have hcomplete : (blocksOf dev bytes h b).length = dev.blockSize := by
      refine le_antisymm ?_ (hfull ▸ hleft.2.1)
      exact List.length_take_le _ _
    refine ⟨hleft.1, hcomplete, block, hfills, ?_⟩
    have htake : block.take k = block := List.take_of_length_le (by rw [hfull, hfills.1])
    have hdrop : (blocksOf dev bytes h b).drop k = [] :=
      List.drop_eq_nil_of_le (by rw [hfull, hcomplete])
    rw [hleft.2.2, htake, hdrop, List.append_nil]

/-- The step lemma. -/
theorem Blockized.step {l : BlockCall × Except Exit Buffer} (hb : Blockized calls dev bytes pos h)
    (hstep : BlockStep calls dev h l h') :
    ArrayStep dev.blockSize (blocksOf dev bytes h) l (blocksOf dev bytes h') ∧
      Blockized calls dev bytes pos h' := by
  obtain ⟨call, result⟩ := l
  obtain ⟨hresult, rfl⟩ := hstep
  have hsame : ∀ {h' : Host σ}, bytes h'.system = bytes h.system →
      blocksOf dev bytes h' = blocksOf dev bytes h := by
    intro h' hbytes
    unfold blocksOf
    rw [hbytes]
  cases call with
  | read buffer b =>
      have hends : Ends (BlockCall.run calls dev (.read buffer b)) h _ _ := hb.ends_readBlock
      cases result with
      | ok out =>
          obtain ⟨hbytes, rfl, hfull⟩ := hends.outcome_ok hresult
          refine ⟨?_, hb.of_length (by rw [hbytes])⟩
          rw [hsame hbytes]
          exact ArrayStep.reads hfull
      | error e =>
          have hbytes := hends.outcome_error hresult
          refine ⟨?_, hb.of_length (by rw [hbytes])⟩
          rw [hsame hbytes]
          exact ArrayStep.failsRead
  | write buffer b =>
      have hends : Ends (BlockCall.run calls dev (.write buffer b)) h
          (fun out h' => out = buffer ∧ BlockWritten dev bytes buffer b h h')
          (fun _ h' => BlockTorn dev bytes buffer b h h') := by
        unfold BlockCall.run
        rw [ends_bind]
        apply hb.ends_writeBlock.mono
        · exact fun _ _ hwritten => ⟨rfl, hwritten⟩
        · exact fun _ _ hleft => hleft
      cases result with
      | ok out =>
          obtain ⟨rfl, hlen, hfull, block, hfills, hblocks⟩ := hends.outcome_ok hresult
          refine ⟨?_, hb.of_length hlen⟩
          rw [hblocks]
          exact ArrayStep.writes hfull hfills
      | error e =>
          obtain ⟨hlen, block, k, hfills, hk, hblocks⟩ := hends.outcome_error hresult
          refine ⟨?_, hb.of_length hlen⟩
          rw [hblocks]
          exact ArrayStep.failsWrite hfills hk

/-- The run lemma. -/
theorem Blockized.trace (hb : Blockized calls dev bytes pos h)
    (htrace : Trace (BlockStep calls dev) h ls h') :
    Trace (ArrayStep dev.blockSize) (blocksOf dev bytes h) ls (blocksOf dev bytes h') := by
  have hstep : ∀ (h : Host σ) (blocks : ℕ → Bytes) (l : BlockCall × Except Exit Buffer)
      (h' : Host σ), blocksOf dev bytes h = blocks ∧ Blockized calls dev bytes pos h →
      BlockStep calls dev h l h' → ∃ blocks', ArrayStep dev.blockSize blocks l blocks' ∧
        blocksOf dev bytes h' = blocks' ∧ Blockized calls dev bytes pos h' := by
    rintro h _ l h' ⟨rfl, hb⟩ hstep
    obtain ⟨harray, hb'⟩ := hb.step hstep
    exact ⟨_, harray, rfl, hb'⟩
  obtain ⟨_, hrun, rfl, _⟩ := htrace.simulates hstep ⟨rfl, hb⟩
  exact hrun

/-- Every run of `read_block` and `write_block` on a device, failed calls included, is a run of an
array of blocks. -/
theorem block_device_refines_array (calls : SystemCalls σ) (pathname : Bytes) {blockSize : ℕ}
    (h : Host σ) (hpos : 0 < blockSize)
    (hserves : ((calls.openFile (cStr pathname)).run h.system).1 ≠ -1 →
      calls.Serves ((calls.openFile (cStr pathname)).run h.system).1 bytes pos)
    (hsmall : (bytes ((calls.openFile (cStr pathname)).run h.system).2).length < 2 ^ 63) :
    Ends (LlIoBlockized.new calls pathname blockSize) h
      (fun dev h₀ => ∀ ls h', Trace (BlockStep calls dev) h₀ ls h' →
        Trace (ArrayStep blockSize) (Blocks.blockAt blockSize (bytes h₀.system)) ls
          (Blocks.blockAt blockSize (bytes h'.system)))
      fun e _ => e = .htmpfs .cannotOpenDevice := by
  unfold LlIoBlockized.new LlIo.openDevice
  simp only [ends_bind, Host.ends_call, Nat.pos_iff_ne_zero.mp hpos, if_false]
  split_ifs with hfd
  · exact rfl
  have hcalls := hserves hfd
  simp only [ends_bind, Host.ends_call]
  generalize ((calls.openFile (cStr pathname)).run h.system).1 = fd at hcalls ⊢
  generalize ((calls.openFile (cStr pathname)).run h.system).2 = t at hsmall ⊢
  obtain ⟨hlen, hbytes⟩ := hcalls.lseekEnd t
  rw [if_neg (by omega), ends_pure, ends_pure]
  intro ls h' htrace
  have hblockized : Blockized calls
      ⟨⟨fd, ((calls.lseekEnd fd).run t).1⟩, blockSize,
        offToU64 ((calls.lseekEnd fd).run t).1 / blockSize⟩ bytes pos
      ⟨((calls.lseekEnd fd).run t).2, h.seeks⟩ := by
    refine ⟨hcalls, hpos, ?_, ?_⟩
    · dsimp only
      rw [hbytes]
      exact hsmall
    · dsimp only
      rw [hbytes, hlen, offToU64_natCast hsmall]
  exact hblockized.trace htrace

end Steps

/-! ## The device in memory -/

/-- The calls on the device in memory, with the limit of `new`. -/
def ramCalls : SystemCalls Disk :=
  { diskCalls with
    newChars := fun length =>
      pure (if length < 2 ^ 63 then some (List.replicate length 0) else none) }

theorem serves_ramCalls : ramCalls.Serves 3 Disk.data Disk.pos where
  lseekEnd _ := ⟨rfl, rfl⟩
  lseekSet offset t := by
    simp only [ramCalls, diskCalls, StateT.run]
    split_ifs with hneg
    · exact ⟨rfl, fun _ hoffset => absurd hneg (not_lt.mpr hoffset)⟩
    · exact ⟨rfl, fun _ _ => rfl⟩
  read length t := by
    refine ⟨rfl, fun data hdata => ?_⟩
    rw [← Option.some.inj hdata]
  write buffer t := by
    have htake : buffer.take (min (t.data.length - t.pos) buffer.length) =
        buffer.take (t.data.length - t.pos) := by
      rw [← List.take_take, List.take_length]
    refine ⟨min (t.data.length - t.pos) buffer.length, min_le_right _ _, by omega, ?_⟩
    simp only [ramCalls, diskCalls, StateT.run]
    rw [htake]
    split_ifs with hfull
    · -- there is no room
      have hnone : buffer.take (t.data.length - t.pos) = [] := List.isEmpty_iff.mp hfull.1
      rw [hnone, Blocks.overwrite_nil]
      refine ⟨Or.inr ⟨?_, rfl⟩, rfl⟩
      rw [← List.length_take, hnone]
      rfl
    · exact ⟨Or.inl (by rw [List.length_take]), rfl⟩
  newChars length t := by
    refine ⟨rfl, fun fresh hfresh => ?_⟩
    simp only [ramCalls, StateT.run, pure, StateT.pure] at hfresh
    split_ifs at hfresh with hlen
    · obtain rfl := Option.some.inj hfresh
      exact ⟨List.length_replicate, hlen⟩

theorem block_device_refines_array_sampleDisk :
    Ends (LlIoBlockized.new ramCalls [slash, 100] 512) sampleDisk
      (fun dev h₀ => ∀ ls h', Trace (BlockStep ramCalls dev) h₀ ls h' →
        Trace (ArrayStep 512) (Blocks.blockAt 512 h₀.system.data) ls
          (Blocks.blockAt 512 h'.system.data))
      fun e _ => e = .htmpfs .cannotOpenDevice := by
  refine block_device_refines_array ramCalls [slash, 100] sampleDisk (by decide)
    (fun _ => serves_ramCalls) ?_
  have hlen : sampleDisk.system.data.length = 1024 := List.length_replicate
  exact hlen.trans_lt (by decide)

end Htmpfs
