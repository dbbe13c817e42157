import Mathlib

/-!
# Bits in bytes and arrays written one place at a time

The bits of a byte are read and changed with the masks `1 << k`.  An array that
is written one place at a time holds, at each place, what was written there last.
-/

namespace BitArray

section Bits

variable {a b : UInt8} {j k : ℕ}

/-- The bit `k` of a byte. -/
def testBit (b : UInt8) (k : ℕ) : Bool := b.toBitVec.getLsbD k

/-- The byte whose only bit is the bit `k`; a bit beyond the byte is lost. -/
def mask (k : ℕ) : UInt8 := UInt8.ofNat (1 <<< k)

theorem toBitVec_mask : (mask k).toBitVec = BitVec.twoPow 8 k := by
  apply BitVec.eq_of_toNat_eq
  rw [BitVec.toNat_twoPow, mask, UInt8.toNat_toBitVec, UInt8.toNat_ofNat', Nat.one_shiftLeft]

@[simp] theorem testBit_mask : testBit (mask k) j = decide (k < 8 ∧ k = j) := by
  rw [testBit, toBitVec_mask, BitVec.getLsbD_twoPow, Bool.decide_and]

@[simp] theorem testBit_or : testBit (a ||| b) j = (testBit a j || testBit b j) := by
  rw [testBit, UInt8.toBitVec_or, BitVec.getLsbD_or, testBit, testBit]

@[simp] theorem testBit_and : testBit (a &&& b) j = (testBit a j && testBit b j) := by
  rw [testBit, UInt8.toBitVec_and, BitVec.getLsbD_and, testBit, testBit]

theorem testBit_not (hj : j < 8) : testBit (~~~ a) j = !testBit a j := by
  rw [testBit, UInt8.toBitVec_not, BitVec.getLsbD_not, testBit, decide_eq_true hj,
    Bool.true_and]

theorem eq_zero_iff : a = 0 ↔ ∀ j < 8, testBit a j = false := by
  constructor
  · rintro rfl j _
    exact BitVec.getLsbD_zero
  · intro hbits
    apply UInt8.eq_of_toBitVec_eq
    apply BitVec.eq_of_getLsbD_eq
    intro j hj
    exact (hbits j hj).trans BitVec.getLsbD_zero.symm

/-- A bit is read by masking the others. -/
theorem mask_and_ne_zero (hk : k < 8) : mask k &&& a ≠ 0 ↔ testBit a k = true := by
  rw [Ne, eq_zero_iff]
  constructor
  · intro hbits
    by_contra hbit
    apply hbits
    intro j _
    rw [testBit_and, testBit_mask]
    by_cases hj : k = j
    · rw [← hj, Bool.eq_false_of_not_eq_true hbit, Bool.and_false]
    · simp [hj]
  · intro hbit hbits
    have hzero := hbits k hk
    simp [hbit, hk] at hzero

end Bits

section Writes

variable {ι α : Type} [DecidableEq ι]

/-- What was written to the place `i` last. -/
def lastWrite (writes : List (ι × α)) (i : ι) : Option α :=
  (writes.reverse.find? fun p => p.1 = i).map Prod.snd

theorem lastWrite_concat (writes : List (ι × α)) (j i : ι) (v : α) :
    lastWrite (writes ++ [(j, v)]) i = if j = i then some v else lastWrite writes i := by
  unfold lastWrite
  rw [List.reverse_append, List.reverse_singleton, List.singleton_append, List.find?_cons]
  by_cases hj : j = i
  · simp [hj]
  · simp [hj]

theorem lastWrite_map {β : Type} (writes : List (ι × α)) (f : α → β) (i : ι) :
    lastWrite (writes.map fun p => (p.1, f p.2)) i = (lastWrite writes i).map f := by
  unfold lastWrite
  rw [← List.map_reverse, List.find?_map, Option.map_map, Option.map_map]
  rfl

/-- The array after a run of writes. -/
def writeAll (a : ι → α) (writes : List (ι × α)) : ι → α :=
  writes.foldl (fun a p => Function.update a p.1 p.2) a

theorem writeAll_concat (a : ι → α) (writes : List (ι × α)) (p : ι × α) :
    writeAll a (writes ++ [p]) = Function.update (writeAll a writes) p.1 p.2 :=
  List.foldl_concat _ _ _ _

theorem writeAll_apply (a : ι → α) (writes : List (ι × α)) (i : ι) :
    writeAll a writes i = (lastWrite writes i).getD (a i) := by
  induction writes using List.reverseRecOn with
  | nil => rfl
  | append_singleton writes p ih =>
      rw [writeAll_concat, lastWrite_concat]
      by_cases hi : p.1 = i
      · subst hi
        rw [Function.update_self, if_pos rfl]
        rfl
      · rw [Function.update_of_ne (Ne.symm hi), if_neg hi]
        exact ih

end Writes

end BitArray
