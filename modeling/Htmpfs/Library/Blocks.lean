import Mathlib

/-!
# Sequences cut into blocks

A sequence of `n` items is held as a list of blocks, all of `bs` items but the
last.  Resizing and overwriting the sequence are done block by block.
-/

namespace Blocks

variable {α : Type}

/-- Cut to `n` items, or pad with `z`. -/
def resize (z : α) (n : ℕ) (xs : List α) : List α :=
  xs.take n ++ List.replicate (n - xs.length) z

/-- Replace the items from `offset` on by `src`. -/
def overwrite (offset : ℕ) (src xs : List α) : List α :=
  xs.take offset ++ src ++ xs.drop (offset + src.length)

/-- The number of blocks of `n` items. -/
def blockCount (bs n : ℕ) : ℕ := n / bs + (if n % bs = 0 then 0 else 1)

/-- The blocks hold `n` items, `bs` in each block but the last. -/
def Sized (bs : ℕ) : ℕ → List (List α) → Prop
  | n, [] => n = 0
  | n, x :: xs => 0 < n ∧ x.length = min bs n ∧ Sized bs (n - bs) xs

section Items

variable {z : α} {n k j offset : ℕ} {src xs : List α}

@[simp] theorem length_resize : (resize z n xs).length = n := by
  simp only [resize, List.length_append, List.length_take, List.length_replicate]
  omega

theorem getElem?_resize : (resize z n xs)[j]? = if j < n then some (xs.getD j z) else none := by
  unfold resize
  by_cases hj : j < n
  · by_cases hx : j < xs.length
    · rw [List.getElem?_append_left (by simp; omega)]
      simp [hj, hx]
    · rw [List.getElem?_append_right (by simp; omega), List.getElem?_replicate]
      simp only [List.length_take]
      rw [if_pos (by omega), if_pos hj, List.getD_eq_getElem?_getD,
        List.getElem?_eq_none (by omega)]
      rfl
  · rw [List.getElem?_eq_none (by simp; omega), if_neg hj]

theorem length_overwrite (h : offset + src.length ≤ xs.length) :
    (overwrite offset src xs).length = xs.length := by
  simp only [overwrite, List.length_append, List.length_take, List.length_drop]
  omega

theorem getElem?_overwrite (h : offset ≤ xs.length) :
    (overwrite offset src xs)[j]? =
      if offset ≤ j ∧ j < offset + src.length then src[j - offset]? else xs[j]? := by
  unfold overwrite
  by_cases h1 : j < offset
  · rw [List.append_assoc, List.getElem?_append_left (by simp; omega),
      if_neg (by omega), List.getElem?_take_of_lt h1]
  · by_cases h2 : j < offset + src.length
    · rw [List.append_assoc, List.getElem?_append_right (by simp; omega),
        List.getElem?_append_left (by simp; omega), if_pos ⟨by omega, h2⟩]
      simp only [List.length_take]
      congr 1
      omega
    · rw [List.getElem?_append_right (by simp; omega), if_neg (by omega), List.getElem?_drop]
      simp only [List.length_append, List.length_take]
      congr 1
      omega

/-- Overwriting the end of what was resized. -/
theorem overwrite_resize : overwrite offset src (resize z (offset + src.length) xs) =
    resize z offset xs ++ src := by
  have hfront : (resize z (offset + src.length) xs).take offset = resize z offset xs := by
    apply List.ext_getElem?
    intro j
    rw [List.getElem?_take, getElem?_resize, getElem?_resize]
    split_ifs <;> first | rfl | omega
  unfold overwrite
  rw [hfront, List.drop_eq_nil_of_le (by rw [length_resize]), List.append_nil]

@[simp] theorem overwrite_nil : overwrite offset [] xs = xs := by
  simp [overwrite]

/-- Overwriting by a prefix of `src` and then by the next piece is overwriting by both. -/
theorem overwrite_take_append {w : ℕ} (hfit : offset + src.length ≤ xs.length) :
    overwrite (offset + w) ((src.drop w).take k) (overwrite offset (src.take w) xs) =
      overwrite offset (src.take (w + k)) xs := by
  by_cases hw : src.length ≤ w
  · have hnil : (src.drop w).take k = [] := by simp [List.drop_eq_nil_of_le hw]
    rw [hnil, overwrite_nil, List.take_of_length_le hw, List.take_of_length_le (by omega)]
  · apply List.ext_getElem?
    intro j
    have hlen : (overwrite offset (src.take w) xs).length = xs.length :=
      length_overwrite (by simp only [List.length_take]; omega)
    rw [getElem?_overwrite (by omega), getElem?_overwrite (by omega),
      getElem?_overwrite (by omega)]
    simp only [List.length_take, List.length_drop]
    by_cases h1 : j < offset
    · rw [if_neg (by omega), if_neg (by omega), if_neg (by omega)]
    · by_cases h2 : j < offset + w
      · rw [if_neg (by omega), if_pos (by omega), if_pos (by omega),
          List.getElem?_take_of_lt (by omega), List.getElem?_take_of_lt (by omega)]
      · by_cases h3 : j < offset + w + min k (src.length - w)
        · rw [if_pos (by omega), if_pos (by omega), List.getElem?_take_of_lt (by omega),
            List.getElem?_take_of_lt (by omega), List.getElem?_drop]
          congr 1
          omega
        · rw [if_neg (by omega), if_neg (by omega), if_neg (by omega)]

/-- Two adjacent slices are one slice. -/
theorem take_append_take_drop {l m : ℕ} :
    (xs.drop k).take l ++ (xs.drop (k + l)).take m = (xs.drop k).take (l + m) := by
  rw [List.take_add, List.drop_drop]

end Items

section Count

variable {bs n k : ℕ}

theorem lt_blockCount (hbs : 0 < bs) : k < blockCount bs n ↔ k * bs < n := by
  unfold blockCount
  have hdm := Nat.div_add_mod n bs
  have hmod := Nat.mod_lt n hbs
  constructor
  · intro hk
    split_ifs at hk with h0
    · have := Nat.mul_le_mul_right bs (show k + 1 ≤ n / bs by omega)
      rw [Nat.add_mul, Nat.mul_comm (n / bs)] at this
      omega
    · have := Nat.mul_le_mul_right bs (show k ≤ n / bs by omega)
      rw [Nat.mul_comm (n / bs)] at this
      omega
  · intro hk
    by_contra hge
    split_ifs at hge with h0
    · have := Nat.mul_le_mul_right bs (show n / bs ≤ k by omega)
      rw [Nat.mul_comm (n / bs)] at this
      omega
    · have := Nat.mul_le_mul_right bs (show n / bs + 1 ≤ k by omega)
      rw [Nat.add_mul, Nat.mul_comm (n / bs)] at this
      omega

theorem blockCount_le (hbs : 0 < bs) : blockCount bs n ≤ k ↔ n ≤ k * bs := by
  rw [← not_lt, lt_blockCount hbs, not_lt]

/-- The number of blocks is the quotient rounded up. -/
theorem blockCount_eq_div (hbs : 0 < bs) : blockCount bs n = (n + bs - 1) / bs := by
  refine eq_of_forall_ge_iff fun k => ?_
  rw [blockCount_le hbs, Nat.div_le_iff_le_mul_add_pred hbs, Nat.mul_comm bs k]
  omega

@[simp] theorem blockCount_zero : blockCount bs 0 = 0 := by simp [blockCount]

theorem blockCount_of_pos (hbs : 0 < bs) (hn : 0 < n) :
    blockCount bs n = blockCount bs (n - bs) + 1 := by
  apply le_antisymm
  · rw [blockCount_le hbs, Nat.add_mul]
    have := (blockCount_le (n := n - bs) hbs).mp le_rfl
    omega
  · apply Nat.succ_le_of_lt
    rw [lt_blockCount hbs]
    by_contra hge
    push Not at hge
    rcases Nat.eq_zero_or_pos (blockCount bs (n - bs)) with h0 | h0
    · rw [h0] at hge
      omega
    · have hlt := (lt_blockCount (n := n - bs) hbs (k := blockCount bs (n - bs) - 1)).mp (by omega)
      obtain ⟨m, hm⟩ := Nat.exists_eq_succ_of_ne_zero (by omega : blockCount bs (n - bs) ≠ 0)
      rw [hm] at hge hlt
      simp only [Nat.succ_eq_add_one, Nat.add_sub_cancel, Nat.add_mul] at hge hlt
      omega

/-- Blocks that are there already need not be counted again. -/
theorem blockCount_sub_mul (hbs : 0 < bs) (m : ℕ) :
    blockCount bs (n - m * bs) = blockCount bs n - m := by
  refine eq_of_forall_lt_iff fun k => ?_
  rw [lt_blockCount hbs, Nat.lt_sub_iff_add_lt, Nat.lt_sub_iff_add_lt, lt_blockCount hbs,
    Nat.add_mul]

end Count

section Blocked

variable {bs n k j : ℕ} {blocks blocks' : List (List α)} {x : List α}

theorem Sized.length_flatten (h : Sized bs n blocks) : blocks.flatten.length = n := by
  induction blocks generalizing n with
  | nil => simpa [Sized] using h.symm
  | cons x blocks ih =>
      obtain ⟨_, hx, hrest⟩ := h
      simp only [List.flatten_cons, List.length_append, ih hrest, hx]
      omega

theorem sized_iff (hbs : 0 < bs) :
    Sized bs n blocks ↔ blocks.length = blockCount bs n ∧
      ∀ k x, blocks[k]? = some x → x.length = min bs (n - k * bs) := by
  induction blocks generalizing n with
  | nil =>
      simp only [Sized, List.length_nil, List.getElem?_nil]
      constructor
      · rintro rfl
        simp
      · rintro ⟨hcount, _⟩
        have := (blockCount_le (n := n) (k := 0) hbs).mp hcount.ge
        omega
  | cons x blocks ih =>
      simp only [Sized, ih, List.length_cons]
      constructor
      · rintro ⟨hn, hx, hlen, hget⟩
        refine ⟨by rw [blockCount_of_pos hbs hn, hlen], ?_⟩
        intro k y hy
        cases k with
        | zero =>
            obtain rfl : x = y := by simpa using hy
            simpa using hx
        | succ k =>
            rw [hget k y (by simpa using hy), Nat.add_mul]
            congr 1
            omega
      · rintro ⟨hlen, hget⟩
        have hn : 0 < n := by
          have := (lt_blockCount (n := n) (k := 0) hbs).mp (by omega)
          omega
        refine ⟨hn, by simpa using hget 0 x rfl, ?_, ?_⟩
        · rw [blockCount_of_pos hbs hn] at hlen
          omega
        · intro k y hy
          rw [hget (k + 1) y (by simpa using hy), Nat.add_mul]
          congr 1
          omega

theorem Sized.length (hbs : 0 < bs) (h : Sized bs n blocks) : blocks.length = blockCount bs n :=
  ((sized_iff hbs).mp h).1

theorem Sized.length_block (hbs : 0 < bs) (h : Sized bs n blocks) (hk : blocks[k]? = some x) :
    x.length = min bs (n - k * bs) :=
  ((sized_iff hbs).mp h).2 k x hk

theorem Sized.length_le (hbs : 0 < bs) (h : Sized bs n blocks) (hx : x ∈ blocks) :
    x.length ≤ bs := by
  obtain ⟨k, hk⟩ := List.getElem?_of_mem hx
  rw [h.length_block hbs hk]
  omega

/-- The block that holds an item. -/
theorem Sized.getElem?_flatten (hbs : 0 < bs) (h : Sized bs n blocks) (j : ℕ) :
    blocks.flatten[j]? = (blocks[j / bs]?).bind (·[j % bs]?) := by
  induction blocks generalizing n j with
  | nil => simp
  | cons x blocks ih =>
      obtain ⟨hn, hx, hrest⟩ := h
      rw [List.flatten_cons]
      by_cases hj : j < bs
      · rw [Nat.div_eq_of_lt hj, Nat.mod_eq_of_lt hj]
        simp only [List.getElem?_cons_zero, Option.bind_some]
        by_cases hjx : j < x.length
        · rw [List.getElem?_append_left hjx]
        · have hnbs : n - bs = 0 := by omega
          have hnil : blocks.flatten = [] := by
            rw [← List.length_eq_zero_iff, hrest.length_flatten, hnbs]
          rw [hnil, List.append_nil]
      · have hjx : x.length ≤ j := by omega
        rw [List.getElem?_append_right hjx]
        by_cases hnbs : n ≤ bs
        · have hnil : blocks = [] := by
            rw [← List.length_eq_zero_iff, hrest.length hbs, show n - bs = 0 by omega,
              blockCount_zero]
          subst hnil
          obtain ⟨i, hi⟩ := Nat.exists_eq_succ_of_ne_zero
            (Nat.div_pos (Nat.le_of_not_lt hj) hbs).ne'
          simp [hi]
        · have hxbs : x.length = bs := by omega
          rw [ih hrest, hxbs, Nat.div_eq_sub_div hbs (Nat.le_of_not_lt hj),
            Nat.mod_eq_sub_mod (Nat.le_of_not_lt hj)]
          rfl

/-- Resizing each block to its share of the new size resizes the sequence. -/
theorem Sized.resize {z : α} {m : ℕ} (hbs : 0 < bs) (h : Sized bs m blocks)
    (hlen : blocks'.length = blockCount bs n)
    (hget : ∀ k < blocks'.length,
      blocks'[k]? = some (resize z (min bs (n - k * bs)) (blocks.getD k []))) :
    Sized bs n blocks' ∧ blocks'.flatten = resize z n blocks.flatten := by
  have hsized : Sized bs n blocks' := by
    rw [sized_iff hbs]
    refine ⟨hlen, fun k x hk => ?_⟩
    have hlt : k < blocks'.length := (List.getElem?_eq_some_iff.mp hk).1
    rw [hget k hlt] at hk
    obtain rfl := Option.some.inj hk
    simp
  refine ⟨hsized, List.ext_getElem? fun j => ?_⟩
  rw [hsized.getElem?_flatten hbs, getElem?_resize]
  by_cases hj : j < n
  · have hk : j / bs < blocks'.length := by
      rw [hlen, lt_blockCount hbs]
      exact lt_of_le_of_lt (Nat.div_mul_le_self j bs) hj
    have hmod := Nat.mod_lt j hbs
    have hdm := Nat.div_add_mod' j bs
    rw [if_pos hj, hget _ hk, Option.bind_some, getElem?_resize, if_pos (by omega),
      List.getD_eq_getElem?_getD, List.getD_eq_getElem?_getD, List.getD_eq_getElem?_getD,
      h.getElem?_flatten hbs]
    cases blocks[j / bs]? <;> simp
  · rw [if_neg hj]
    cases hb : blocks'[j / bs]? with
    | none => rfl
    | some x =>
        have hx := hsized.length_block hbs hb
        have hdm := Nat.div_add_mod' j bs
        simp only [Option.bind_some]
        exact List.getElem?_eq_none (by omega)

/-- Overwriting inside one block overwrites the sequence. -/
theorem Sized.overwrite {r : ℕ} {p : List α} (hbs : 0 < bs) (h : Sized bs n blocks)
    (hk : blocks[k]? = some x) (hfit : r + p.length ≤ x.length) :
    Sized bs n (blocks.set k (overwrite r p x)) ∧
      (blocks.set k (Blocks.overwrite r p x)).flatten =
        Blocks.overwrite (k * bs + r) p blocks.flatten := by
  have hklt : k < blocks.length := (List.getElem?_eq_some_iff.mp hk).1
  have hx := h.length_block hbs hk
  have hsized : Sized bs n (blocks.set k (Blocks.overwrite r p x)) := by
    rw [sized_iff hbs]
    refine ⟨by rw [List.length_set, h.length hbs], fun i y hi => ?_⟩
    by_cases hik : i = k
    · subst hik
      rw [List.getElem?_set_self hklt] at hi
      obtain rfl := Option.some.inj hi
      rw [length_overwrite hfit, hx]
    · rw [List.getElem?_set_ne (Ne.symm hik)] at hi
      exact h.length_block hbs hi
  refine ⟨hsized, List.ext_getElem? fun j => ?_⟩
  have hmod := Nat.mod_lt j hbs
  have hdm := Nat.div_add_mod' j bs
  have hkn : k * bs < n := by
    rw [← lt_blockCount hbs, ← h.length hbs]
    exact hklt
  rw [hsized.getElem?_flatten hbs,
    getElem?_overwrite (by rw [h.length_flatten]; omega), h.getElem?_flatten hbs]
  by_cases hjk : j / bs = k
  · rw [hjk, List.getElem?_set_self hklt, Option.bind_some, hk, Option.bind_some,
      getElem?_overwrite (by omega)]
    rw [hjk] at hdm
    by_cases hin : r ≤ j % bs ∧ j % bs < r + p.length
    · rw [if_pos hin, if_pos (by omega)]
      congr 1
      omega
    · rw [if_neg hin, if_neg (by omega)]
  · rw [List.getElem?_set_ne (Ne.symm hjk), if_neg]
    rintro ⟨hlo, hhi⟩
    exact hjk (Nat.div_eq_of_lt_le (by omega) (by rw [Nat.add_mul]; omega))

/-- A slice of one block is a slice of the sequence. -/
theorem Sized.slice {r l : ℕ} (hbs : 0 < bs) (h : Sized bs n blocks) (hk : blocks[k]? = some x)
    (hfit : r + l ≤ x.length) :
    (x.drop r).take l = (blocks.flatten.drop (k * bs + r)).take l := by
  have hx := h.length_block hbs hk
  apply List.ext_getElem?
  intro j
  by_cases hj : j < l
  · rw [List.getElem?_take_of_lt hj, List.getElem?_take_of_lt hj, List.getElem?_drop,
      List.getElem?_drop, h.getElem?_flatten hbs]
    have hdiv : (k * bs + r + j) / bs = k :=
      Nat.div_eq_of_lt_le (by omega) (by rw [Nat.add_mul]; omega)
    have hmod : (k * bs + r + j) % bs = r + j := by
      have := Nat.div_add_mod' (k * bs + r + j) bs
      rw [hdiv] at this
      omega
    rw [hdiv, hmod, hk, Option.bind_some]
  · rw [List.getElem?_eq_none (by simp; omega), List.getElem?_eq_none (by simp; omega)]

end Blocked

end Blocks
