import Mathlib
import Htmpfs.InodeSmi
import Htmpfs.Library.BitArray

/-!
# The block bitmap

`bitmap_t` lays its bits over buffers with consecutive ids.  A location is cut
into a block, a byte of the block and a bit of the byte; different locations
are cut differently, so the map is an array of booleans.
-/

namespace Htmpfs

open Program

/-- `set_bit_of` -/
def setBitOf (val8 : UInt8) (bitOffset : ℕ) : UInt8 := val8 ||| BitArray.mask bitOffset

/-- `remove_bit_of` -/
def removeBitOf (val8 : UInt8) (bitOffset : ℕ) : UInt8 := val8 &&& ~~~ BitArray.mask bitOffset

/-- `get_bit_of` -/
def getBitOf (val8 : UInt8) (bitOffset : ℕ) : Bool := decide (BitArray.mask bitOffset &&& val8 ≠ 0)

/-- `if (bit) set_bit_of(val8, bit_offset); else remove_bit_of(val8, bit_offset);` -/
def putBitOf (val8 : UInt8) (bitOffset : ℕ) (bit : ℤ) : UInt8 :=
  if bit ≠ 0 then setBitOf val8 bitOffset else removeBitOf val8 bitOffset

namespace InodeSmi

/-- `inode_smi_t::get_buffer_by_id` -/
def getBufferById (bufferId : ℕ) (s : InodeSmi) : Except Exit PoolPtr :=
  match s.bufferPool.find? bufferId with
  | some node => pure ⟨bufferId, node.addr⟩
  | none => throw (.htmpfs .requestedBufferNotFound)

/-- `buffer->read((char*)&byte, 1, offset)`; where nothing is read `byte` has no value. -/
def readByte (buffer : PoolPtr) (offset : ℕ) (s : InodeSmi) : Except Exit UInt8 :=
  match s.bufferPool.deref? buffer with
  | none => throw .undefined
  | some data =>
      match Buffer.read data 1 offset with
      | [byte] => pure byte
      | _ => throw .undefined

/-- `buffer->write((const char*)&byte, 1, offset, false)` -/
def writeByte (buffer : PoolPtr) (byte : UInt8) (offset : ℕ) : SmiM Unit := do
  let s ← get
  match s.bufferPool.deref? buffer with
  | none => throw .undefined
  | some data =>
      let data := (Buffer.write data [byte] offset false).2
      set { s with bufferPool := s.bufferPool.setVal buffer.id data }

end InodeSmi

/-- `bitmap_t`, without the pointer to the file system. -/
structure Bitmap where
  startingBufferId : ℕ
  bitmapLength : ℕ
  bitmapLength_lt : bitmapLength < 2 ^ 64

namespace Bitmap

/-- `byte_location / filesystem->get_block_size() + starting_buffer_id` -/
def byteLocInBlock (m : Bitmap) (blockSize location : ℕ) : ℕ :=
  u64 (location / 8 / blockSize + m.startingBufferId)

/-- `byte_location % filesystem->get_block_size()` -/
def byteOffInBlock (blockSize location : ℕ) : ℕ := location / 8 % blockSize

/-- `bitmap_t::set_bit_in_map` -/
def setBitInMap (m : Bitmap) (location : ℕ) (bit : ℤ) : SmiM Unit := do
  let blockSize := (← get).blockSize
  -- a division by zero
  if blockSize = 0 then throw .undefined
  else
    let offset := byteOffInBlock blockSize location
    let buffer ← Program.reads (InodeSmi.getBufferById (m.byteLocInBlock blockSize location))
    let byte ← Program.reads (InodeSmi.readByte buffer offset)
    InodeSmi.writeByte buffer (putBitOf byte (location % 8) bit) offset

/-- `bitmap_t::get_bit_in_map` -/
def getBitInMap (m : Bitmap) (location : ℕ) (s : InodeSmi) : Except Exit Bool :=
  if s.blockSize = 0 then throw .undefined
  else do
    let buffer ← InodeSmi.getBufferById (m.byteLocInBlock s.blockSize location) s
    let byte ← InodeSmi.readByte buffer (byteOffInBlock s.blockSize location) s
    pure (getBitOf byte (location % 8))

/-- The `blocks` buffers with the ids from `startingBufferId` on hold a block each, and
together at least the bits of the map. -/
structure Backed (m : Bitmap) (blocks : ℕ) (s : InodeSmi) : Prop where
  blockSize_pos : 0 < s.blockSize
  present : ∀ q < blocks, ∃ node, s.bufferPool.find? (u64 (q + m.startingBufferId)) = some node ∧
    node.val.length = s.blockSize
  enough : m.bitmapLength ≤ blocks * s.blockSize * 8

/-- The map holds the array `a`. -/
def Represents (m : Bitmap) (s : InodeSmi) (a : ℕ → Bool) : Prop :=
  ∀ l < m.bitmapLength, m.getBitInMap l s = .ok (a l)

/-- Nothing changed but what the buffers of the map hold. -/
structure Keeps (m : Bitmap) (blocks : ℕ) (s s' : InodeSmi) : Prop where
  others : s' = { s with bufferPool := s'.bufferPool }
  sizes : ∀ id, (s'.bufferPool.find? id).map (fun node => (node.linkCount, node.val.length)) =
    (s.bufferPool.find? id).map fun node => (node.linkCount, node.val.length)
  outside : ∀ id, (∀ q < blocks, id ≠ u64 (q + m.startingBufferId)) →
    s'.bufferPool.find? id = s.bufferPool.find? id

end Bitmap

section Bits

variable {v : UInt8} {j k : ℕ}

theorem getBitOf_eq_testBit (hk : k < 8) : getBitOf v k = BitArray.testBit v k := by
  unfold getBitOf
  rw [Bool.eq_iff_iff, decide_eq_true_iff]
  exact BitArray.mask_and_ne_zero hk

/-- Writing one bit of a byte leaves the others. -/
theorem getBitOf_putBitOf {bit : ℤ} (hj : j < 8) :
    getBitOf (putBitOf v k bit) j = if k = j then decide (bit ≠ 0) else getBitOf v j := by
  rw [getBitOf_eq_testBit hj, getBitOf_eq_testBit hj, putBitOf]
  by_cases hbit : bit = 0
  · rw [if_neg (not_not_intro hbit), removeBitOf, BitArray.testBit_and, BitArray.testBit_not hj,
      BitArray.testBit_mask]
    by_cases hkj : k = j
    · simp [hkj, hj, hbit]
    · simp [hkj]
  · rw [if_pos hbit, setBitOf, BitArray.testBit_or, BitArray.testBit_mask]
    by_cases hkj : k = j
    · simp [hkj, hj, hbit]
    · simp [hkj]

end Bits

section Bytes

variable {data : Buffer} {byte : UInt8} {offset : ℕ}

theorem Buffer.read_one (h : data[offset]? = some byte) : Buffer.read data 1 offset = [byte] := by
  obtain ⟨hlt, rfl⟩ := List.getElem?_eq_some_iff.mp h
  rw [Buffer.read_of_le hlt, List.drop_eq_getElem_cons hlt]
  rfl

theorem Buffer.write_one (h : offset < data.length) :
    Buffer.write data [byte] offset false = (1, data.set offset byte) := by
  rw [Buffer.write_eq_overwrite h (by simp), List.set_eq_take_append_cons_drop, if_pos h,
    Blocks.overwrite, List.append_assoc]
  rfl

end Bytes

namespace Bitmap

variable {m : Bitmap} {blocks l l' : ℕ} {s s' s'' : InodeSmi} {a : ℕ → Bool} {byte : UInt8}
  {node : PoolNode Buffer} {bit : ℤ}

theorem byteLocInBlock_lt (h : m.Backed blocks s) (hl : l < m.bitmapLength) :
    l / 8 / s.blockSize < blocks := by
  rw [Nat.div_lt_iff_lt_mul h.blockSize_pos, Nat.div_lt_iff_lt_mul (by decide)]
  exact hl.trans_le h.enough

/-- The byte that a location lies in. -/
def byteAt (m : Bitmap) (s : InodeSmi) (l : ℕ) : Option UInt8 :=
  (s.bufferPool.find? (m.byteLocInBlock s.blockSize l)).bind fun node =>
    node.val[byteOffInBlock s.blockSize l]?

theorem byteAt_eq_some : m.byteAt s l = some byte ↔
    ∃ node, s.bufferPool.find? (m.byteLocInBlock s.blockSize l) = some node ∧
      node.val[byteOffInBlock s.blockSize l]? = some byte :=
  Option.bind_eq_some_iff

/-- A location of the map lies in a byte of one of its buffers. -/
theorem Backed.exists_byteAt (h : m.Backed blocks s) (hl : l < m.bitmapLength) :
    ∃ byte, m.byteAt s l = some byte := by
  obtain ⟨node, hnode, hlen⟩ := h.present _ (byteLocInBlock_lt h hl)
  have hoff : byteOffInBlock s.blockSize l < node.val.length := by
    rw [hlen]
    exact Nat.mod_lt _ h.blockSize_pos
  exact ⟨_, byteAt_eq_some.mpr ⟨node, hnode, List.getElem?_eq_getElem hoff⟩⟩

theorem getBitInMap_eq_ok (hpos : 0 < s.blockSize) (hbyte : m.byteAt s l = some byte) :
    m.getBitInMap l s = .ok (getBitOf byte (l % 8)) := by
  obtain ⟨node, hnode, hbyte⟩ := byteAt_eq_some.mp hbyte
  unfold getBitInMap InodeSmi.getBufferById InodeSmi.readByte
  rw [if_neg (Nat.pos_iff_ne_zero.mp hpos), hnode]
  simp only [pure_bind, IdPool.deref?_of_find? hnode, Buffer.read_one hbyte]
  rfl

theorem Backed.exists_represents (h : m.Backed blocks s) : ∃ a, m.Represents s a := by
  refine ⟨fun l => (m.getBitInMap l s).toOption.getD false, fun l hl => ?_⟩
  obtain ⟨byte, hbyte⟩ := h.exists_byteAt hl
  simp only [getBitInMap_eq_ok h.blockSize_pos hbyte]
  rfl

/-- The locations in one bit of one byte of one block are the same. -/
theorem eq_of_place (hl : l < m.bitmapLength) (hl' : l' < m.bitmapLength)
    (hblock : m.byteLocInBlock s.blockSize l = m.byteLocInBlock s.blockSize l')
    (hoff : byteOffInBlock s.blockSize l = byteOffInBlock s.blockSize l')
    (hbit : l % 8 = l' % 8) : l = l' := by
  have hlt := m.bitmapLength_lt
  have hquot : l / 8 / s.blockSize = l' / 8 / s.blockSize := by
    have hle : l / 8 / s.blockSize ≤ l / 8 := Nat.div_le_self _ _
    have hle' : l' / 8 / s.blockSize ≤ l' / 8 := Nat.div_le_self _ _
    unfold byteLocInBlock u64 at hblock
    generalize l / 8 / s.blockSize = q at hle hblock ⊢
    generalize l' / 8 / s.blockSize = q' at hle' hblock ⊢
    omega
  have hbyte : l / 8 = l' / 8 := by
    rw [← Nat.div_add_mod (l / 8) s.blockSize, ← Nat.div_add_mod (l' / 8) s.blockSize, hquot]
    exact congrArg _ hoff
  omega

/-- A set bit is stored in the byte of its location. -/
theorem ends_setBitInMap (h : m.Backed blocks s) (hl : l < m.bitmapLength) :
    Ends (m.setBitInMap l bit) s (fun _ s' => ∃ node byte,
      s.bufferPool.find? (m.byteLocInBlock s.blockSize l) = some node ∧
      node.val[byteOffInBlock s.blockSize l]? = some byte ∧
      s' = { s with
        bufferPool := s.bufferPool.setVal (m.byteLocInBlock s.blockSize l)
          (node.val.set (byteOffInBlock s.blockSize l) (putBitOf byte (l % 8) bit)) })
      fun _ _ => False := by
  obtain ⟨byte, hat⟩ := h.exists_byteAt hl
  obtain ⟨node, hnode, hbyte⟩ := byteAt_eq_some.mp hat
  have hoff := (List.getElem?_eq_some_iff.mp hbyte).1
  have hget : InodeSmi.getBufferById (m.byteLocInBlock s.blockSize l) s =
      .ok ⟨m.byteLocInBlock s.blockSize l, node.addr⟩ := by
    rw [InodeSmi.getBufferById, hnode]
    rfl
  have hread : InodeSmi.readByte ⟨m.byteLocInBlock s.blockSize l, node.addr⟩
      (byteOffInBlock s.blockSize l) s = .ok byte := by
    simp only [InodeSmi.readByte, IdPool.deref?_of_find? hnode, Buffer.read_one hbyte]
    rfl
  unfold setBitInMap InodeSmi.writeByte
  rw [ends_bind, ends_get, if_neg (Nat.pos_iff_ne_zero.mp h.blockSize_pos), ends_bind]
  apply Ends.reads_ok hget
  rw [ends_bind]
  apply Ends.reads_ok hread
  rw [ends_bind, ends_get]
  simp only [IdPool.deref?_of_find? hnode, Buffer.write_one hoff]
  exact ⟨node, byte, hnode, hbyte, rfl⟩

section Written

variable {id offset : ℕ} {byte' : UInt8}

theorem Keeps.refl : m.Keeps blocks s s := ⟨rfl, fun _ => rfl, fun _ _ => rfl⟩

theorem Keeps.trans (h : m.Keeps blocks s s') (h' : m.Keeps blocks s' s'') :
    m.Keeps blocks s s'' where
  others := by
    rw [h'.others, h.others]
  sizes id := (h'.sizes id).trans (h.sizes id)
  outside id hid := (h'.outside id hid).trans (h.outside id hid)

theorem Keeps.backed (h : m.Keeps blocks s s') (hback : m.Backed blocks s) : m.Backed blocks s' := by
  have hsize : s'.blockSize = s.blockSize := by rw [h.others]
  refine ⟨hsize ▸ hback.blockSize_pos, fun q hq => ?_, hsize ▸ hback.enough⟩
  obtain ⟨node, hnode, hlen⟩ := hback.present q hq
  have hmap := h.sizes (u64 (q + m.startingBufferId))
  rw [hnode, Option.map_some, Option.map_eq_some_iff] at hmap
  obtain ⟨node', hnode', hpair⟩ := hmap
  exact ⟨node', hnode', (congrArg Prod.snd hpair).trans (hlen.trans hsize.symm)⟩

theorem keeps_setVal (hblock : ∃ q < blocks, id = u64 (q + m.startingBufferId))
    (hnode : s.bufferPool.find? id = some node) :
    m.Keeps blocks s
      { s with bufferPool := s.bufferPool.setVal id (node.val.set offset byte) } where
  others := rfl
  sizes j := by
    rw [IdPool.find?_setVal]
    split_ifs with hj
    · rw [hj, hnode]
      simp
    · rfl
  outside j hj := by
    obtain ⟨q, hq, rfl⟩ := hblock
    exact IdPool.find?_setVal.trans (if_neg (hj q hq))

theorem byteAt_setVal (byte : UInt8) (l' : ℕ)
    (hnode : s.bufferPool.find? (m.byteLocInBlock s.blockSize l) = some node)
    (hoff : byteOffInBlock s.blockSize l < node.val.length) :
    m.byteAt
      { s with
        bufferPool := s.bufferPool.setVal (m.byteLocInBlock s.blockSize l)
          (node.val.set (byteOffInBlock s.blockSize l) byte) } l' =
      if m.byteLocInBlock s.blockSize l' = m.byteLocInBlock s.blockSize l ∧
          byteOffInBlock s.blockSize l' = byteOffInBlock s.blockSize l then some byte
      else m.byteAt s l' := by
  unfold byteAt
  simp only [IdPool.find?_setVal]
  by_cases hblock : m.byteLocInBlock s.blockSize l' = m.byteLocInBlock s.blockSize l
  · rw [if_pos hblock, hblock, hnode, Option.map_some, Option.bind_some, Option.bind_some,
      List.getElem?_set]
    by_cases hbyte : byteOffInBlock s.blockSize l' = byteOffInBlock s.blockSize l
    · rw [if_pos hbyte.symm, if_pos hoff, if_pos ⟨rfl, hbyte⟩]
    · rw [if_neg (Ne.symm hbyte), if_neg fun h => hbyte h.2]
  · rw [if_neg hblock, if_neg fun h => hblock h.1]

/-- Storing one bit writes one place of the array. -/
theorem represents_setVal (h : m.Backed blocks s) (hrep : m.Represents s a)
    (hl : l < m.bitmapLength)
    (hnode : s.bufferPool.find? (m.byteLocInBlock s.blockSize l) = some node)
    (hbyte : node.val[byteOffInBlock s.blockSize l]? = some byte) :
    m.Represents
      { s with
        bufferPool := s.bufferPool.setVal (m.byteLocInBlock s.blockSize l)
          (node.val.set (byteOffInBlock s.blockSize l) (putBitOf byte (l % 8) bit)) }
      (Function.update a l (decide (bit ≠ 0))) := by
  intro l' hl'
  have hoff := (List.getElem?_eq_some_iff.mp hbyte).1
  obtain ⟨byte', hat⟩ := h.exists_byteAt hl'
  have hold : getBitOf byte' (l' % 8) = a l' := by
    have hget := hrep l' hl'
    rw [getBitInMap_eq_ok h.blockSize_pos hat] at hget
    exact Except.ok.inj hget
  have hnew := byteAt_setVal (putBitOf byte (l % 8) bit) l' hnode hoff
  by_cases hplace : m.byteLocInBlock s.blockSize l' = m.byteLocInBlock s.blockSize l ∧
      byteOffInBlock s.blockSize l' = byteOffInBlock s.blockSize l
  · -- the byte that was written
    rw [if_pos hplace] at hnew
    obtain rfl : byte = byte' := by
      rw [byteAt, hplace.1, hplace.2, hnode, Option.bind_some, hbyte] at hat
      exact Option.some.inj hat
    rw [getBitInMap_eq_ok (by exact h.blockSize_pos) hnew,
      getBitOf_putBitOf (Nat.mod_lt _ (by decide)), hold]
    by_cases hbit : l % 8 = l' % 8
    · obtain rfl := eq_of_place hl' hl hplace.1 hplace.2 hbit.symm
      rw [if_pos rfl, Function.update_self]
    · have hne : l' ≠ l := fun heq => hbit (by rw [heq])
      rw [if_neg hbit, Function.update_of_ne hne]
  · have hne : l' ≠ l := fun heq => hplace (by simp [heq])
    rw [if_neg hplace, hat] at hnew
    rw [getBitInMap_eq_ok (by exact h.blockSize_pos) hnew, hold, Function.update_of_ne hne]

end Written

theorem ends_setBitInMap_represents (h : m.Backed blocks s) (hrep : m.Represents s a)
    (hl : l < m.bitmapLength) :
    Ends (m.setBitInMap l bit) s
      (fun _ s' => m.Represents s' (Function.update a l (decide (bit ≠ 0))) ∧ m.Keeps blocks s s')
      fun _ _ => False := by
  apply (ends_setBitInMap h hl).mono
  · rintro _ s' ⟨node, byte, hnode, hbyte, rfl⟩
    exact ⟨represents_setVal h hrep hl hnode hbyte,
      keeps_setVal ⟨_, byteLocInBlock_lt h hl, rfl⟩ hnode⟩
  · intro _ _ hfalse
    exact hfalse

/-- A run of `set_bit_in_map` writes the array place by place. -/
theorem ends_sets (h : m.Backed blocks s) (hrep : m.Represents s a) {sets : List (ℕ × ℤ)}
    (hsets : ∀ p ∈ sets, p.1 < m.bitmapLength) :
    Ends (each (fun p => m.setBitInMap p.1 p.2) sets) s
      (fun _ s' =>
        m.Represents s' (BitArray.writeAll a (sets.map fun p => (p.1, decide (p.2 ≠ 0)))) ∧
        m.Keeps blocks s s')
      fun _ _ => False := by
  apply Ends.each (fun (done : List (ℕ × ℤ)) s' =>
    m.Represents s' (BitArray.writeAll a (done.map fun p => (p.1, decide (p.2 ≠ 0)))) ∧
    m.Keeps blocks s s')
  · exact ⟨hrep, Keeps.refl⟩
  · rintro pre p post s₁ rfl ⟨hrep₁, hkeeps⟩
    apply (ends_setBitInMap_represents (hkeeps.backed h) hrep₁ (hsets p (by simp))).mono
    · rintro _ s₂ ⟨hrep₂, hkeeps₂⟩
      rw [List.map_append, List.map_singleton, BitArray.writeAll_concat]
      exact ⟨hrep₂, hkeeps.trans hkeeps₂⟩
    · intro _ _ hfalse
      exact hfalse

/-- `get_bit_in_map` returns the last bit set at its location, or the bit it was at first. -/
theorem bitmap_refines_array (m : Bitmap) (blocks : ℕ) (s : InodeSmi) (sets : List (ℕ × ℤ))
    (h : m.Backed blocks s) (hsets : ∀ p ∈ sets, p.1 < m.bitmapLength) :
    Ends (each (fun p => m.setBitInMap p.1 p.2) sets) s
      (fun _ s' => m.Keeps blocks s s' ∧ ∀ l < m.bitmapLength, ∃ initial,
        m.getBitInMap l s = .ok initial ∧
        m.getBitInMap l s' =
          .ok (((BitArray.lastWrite sets l).map fun bit => decide (bit ≠ 0)).getD initial))
      fun _ _ => False := by
  obtain ⟨a, hrep⟩ := h.exists_represents
  apply (ends_sets h hrep hsets).mono
  · rintro _ s' ⟨hrep', hkeeps⟩
    refine ⟨hkeeps, fun l hl => ⟨a l, hrep l hl, ?_⟩⟩
    rw [hrep' l hl, BitArray.writeAll_apply, BitArray.lastWrite_map sets fun bit => decide (bit ≠ 0)]
  · intro _ _ hfalse
    exact hfalse

/-- A file system with two buffers of four bytes, all zero. -/
def sampleBuffers : InodeSmi :=
  let s := InodeSmi.new .libstdcxx 4
  let pool := s.bufferPool.emplace 0 (List.replicate 4 0)
  { s with bufferPool := pool.emplace 1 (List.replicate 4 0) }

def sampleBitmap : Bitmap := ⟨0, 64, by decide⟩

theorem backed_sampleBitmap : sampleBitmap.Backed 2 sampleBuffers := by
  refine ⟨by decide, fun q hq => ?_, by decide⟩
  have hlen : (sampleBuffers.bufferPool.find? (u64 (q + 0))).map (fun node => node.val.length) =
      some 4 := by
    interval_cases q <;> decide +kernel
  obtain ⟨node, hnode, hval⟩ := Option.map_eq_some_iff.mp hlen
  exact ⟨node, hnode, hval⟩

def sampleSets : List (ℕ × ℤ) := [(5, 1), (37, 1), (5, 0)]

theorem bitmap_refines_array_sampleBitmap :
    Ends (each (fun p => sampleBitmap.setBitInMap p.1 p.2) sampleSets) sampleBuffers
      (fun _ s' => sampleBitmap.Keeps 2 sampleBuffers s' ∧ ∀ l < 64, ∃ initial,
        sampleBitmap.getBitInMap l sampleBuffers = .ok initial ∧
        sampleBitmap.getBitInMap l s' =
          .ok (((BitArray.lastWrite sampleSets l).map fun bit => decide (bit ≠ 0)).getD initial))
      fun _ _ => False :=
  bitmap_refines_array sampleBitmap 2 sampleBuffers sampleSets backed_sampleBitmap (by decide)

end Bitmap

end Htmpfs
