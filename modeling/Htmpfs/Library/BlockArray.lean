import Mathlib
import Htmpfs.Library.Blocks

/-!
# A sequence as an array of blocks

Overwriting a sequence from the start of one block on, and not beyond its end,
changes that block and no other.
-/

namespace Blocks

variable {α : Type} {bs b k j : ℕ} {src xs : List α}

/-- The items of a block; the last one may be shorter. -/
def blockAt (bs : ℕ) (xs : List α) (b : ℕ) : List α := (xs.drop (b * bs)).take bs

theorem getElem?_blockAt :
    (blockAt bs xs b)[j]? = if j < bs then xs[b * bs + j]? else none := by
  rw [blockAt, List.getElem?_take, List.getElem?_drop]

theorem length_blockAt : (blockAt bs xs b).length = min bs (xs.length - b * bs) := by
  simp [blockAt]

/-- The front of the block is new. -/
theorem blockAt_overwrite_self (hlen : src.length ≤ bs) (hfits : b * bs + src.length ≤ xs.length) :
    blockAt bs (overwrite (b * bs) src xs) b = src ++ (blockAt bs xs b).drop src.length := by
  apply List.ext_getElem?
  intro j
  rw [getElem?_blockAt, getElem?_overwrite (by omega)]
  by_cases hj : j < src.length
  · rw [if_pos (by omega), if_pos (by omega), List.getElem?_append_left hj]
    congr 1
    omega
  · have hold : ¬ (b * bs ≤ b * bs + j ∧ b * bs + j < b * bs + src.length) := by omega
    rw [if_neg hold, List.getElem?_append_right (by omega), List.getElem?_drop, getElem?_blockAt]
    have hindex : src.length + (j - src.length) = j := by omega
    rw [hindex]

/-- The other blocks are as they were. -/
theorem blockAt_overwrite_of_ne (hne : k ≠ b) (hlen : src.length ≤ bs)
    (hfits : b * bs + src.length ≤ xs.length) :
    blockAt bs (overwrite (b * bs) src xs) k = blockAt bs xs k := by
  apply List.ext_getElem?
  intro j
  rw [getElem?_blockAt, getElem?_blockAt, getElem?_overwrite (by omega)]
  by_cases hj : j < bs
  · rw [if_pos hj, if_pos hj, if_neg]
    rintro ⟨hle, hlt⟩
    rcases Nat.lt_or_gt_of_ne hne with hk | hk
    · have hmul : (k + 1) * bs ≤ b * bs := Nat.mul_le_mul_right bs hk
      rw [Nat.add_mul, Nat.one_mul] at hmul
      omega
    · have hmul : (b + 1) * bs ≤ k * bs := Nat.mul_le_mul_right bs hk
      rw [Nat.add_mul, Nat.one_mul] at hmul
      omega
  · rw [if_neg hj, if_neg hj]

end Blocks
