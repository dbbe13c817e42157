import Mathlib
import Htmpfs.Types
import Htmpfs.Library.Blocks

/-!
# The universal buffer

`buffer_t`: a growable byte vector.  `length + offset` stays within one block
at every call, so the sum is not wrapped.
-/

namespace Htmpfs

/-- `buffer_t` -/
abbrev Buffer := Bytes

namespace Buffer

/-- The bytes `read(buffer, length, offset)` copies out; their number is the return value. -/
def read (data : Buffer) (length offset : ℕ) : Bytes :=
  let readSize :=
    if offset > data.length then 0
    else if data.length < length + offset then data.length - offset
    else length
  (data.drop offset).take readSize

/-- `data[offset + i] = buffer[i]` for every `i`. -/
def store (data buffer : Bytes) (offset : ℕ) : Bytes :=
  data.take offset ++ buffer ++ data.drop (offset + buffer.length)

/-- `write(buffer, length, offset, resize)`: the return value and the new data. -/
def write (data : Buffer) (buffer : Bytes) (offset : ℕ) (resize : Bool) : ℕ × Buffer :=
  let length := buffer.length
  if resize then
    let data :=
      if length + offset > data.length then
        data ++ List.replicate (length + offset - data.length) 0
      else data.take (length + offset)
    (length, store data buffer offset)
  else
    let writeSize :=
      if offset > data.length then 0
      else if data.length < length + offset then data.length - offset
      else length
    (writeSize, store data (buffer.take writeSize) offset)

/-- `truncate(length)` -/
def truncate (data : Buffer) (length : ℕ) : Buffer :=
  if length > data.length then data ++ List.replicate (length - data.length) 0
  else data.take length

section Lemmas

variable {data buffer : Bytes} {length offset : ℕ} {resize : Bool}

theorem read_of_le (h : offset + length ≤ data.length) :
    read data length offset = (data.drop offset).take length := by
  simp only [read]
  rw [if_neg (by omega), if_neg (by omega)]

theorem read_all (h : data.length ≤ length) : read data length 0 = data := by
  unfold read
  simp only [List.drop_zero, Nat.not_lt_zero, gt_iff_lt, if_false, Nat.add_zero, Nat.sub_zero]
  split_ifs
  · exact List.take_length
  · exact List.take_of_length_le h

theorem truncate_eq_resize : truncate data length = Blocks.resize 0 length data := by
  unfold truncate Blocks.resize
  split_ifs with h
  · rw [List.take_of_length_le h.le]
  · rw [Nat.sub_eq_zero_of_le (Nat.le_of_not_lt h), List.replicate_zero, List.append_nil]

/-- A write that stays inside the buffer and, if it resizes, reaches to its end. -/
theorem write_eq_overwrite (hfits : offset + buffer.length ≤ data.length)
    (hend : resize = true → offset + buffer.length = data.length) :
    write data buffer offset resize = (buffer.length, Blocks.overwrite offset buffer data) := by
  unfold write
  cases resize with
  | true =>
      have hlen := hend rfl
      simp only [if_true]
      rw [if_neg (by omega), List.take_of_length_le (by omega)]
      rfl
  | false =>
      simp only [Bool.false_eq_true, if_false]
      rw [if_neg (by omega), if_neg (by omega), List.take_length]
      rfl

/-- A resizing write from the front leaves just what was written. -/
theorem write_front : write data buffer 0 true = (buffer.length, buffer) := by
  simp only [write, if_true, Nat.add_zero, Prod.mk.injEq, true_and]
  have hlen : (if buffer.length > data.length then
      data ++ List.replicate (buffer.length - data.length) 0
      else data.take buffer.length).length = buffer.length := by
    split_ifs <;> simp <;> omega
  simp only [store, List.take_zero, List.nil_append, Nat.zero_add]
  rw [List.drop_eq_nil_of_le hlen.le, List.append_nil]

end Lemmas

end Buffer

end Htmpfs
