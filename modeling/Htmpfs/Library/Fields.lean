import Mathlib

/-!
# The fields of a list

A field is a maximal non-empty stretch without the separator.  `split` reads
the fields off from left to right, with the field being read in an accumulator
that is flushed at a separator and at the end.
-/

namespace Fields

variable {α : Type}

/-- The stretch `c` at the position `k` of `s` is a field. -/
def IsField (sep : α) (s : List α) (k : ℕ) (c : List α) : Prop :=
  c ≠ [] ∧ sep ∉ c ∧ ∃ front back, s = front ++ c ++ back ∧ front.length = k ∧
    (front = [] ∨ front.getLast? = some sep) ∧ (back = [] ∨ back.head? = some sep)

/-- The fields of `cur` and what follows it. -/
def split [DecidableEq α] (sep : α) (cur : List α) : List α → List (List α)
  | [] => if cur = [] then [] else [cur]
  | x :: rest =>
      if x = sep then
        if cur = [] then split sep cur rest else cur :: split sep [] rest
      else split sep (cur ++ [x]) rest

/-- The same, with the position of each field; `cur` starts at `i`. -/
def locate [DecidableEq α] (sep : α) (i : ℕ) (cur : List α) : List α → List (ℕ × List α)
  | [] => if cur = [] then [] else [(i, cur)]
  | x :: rest =>
      if x = sep then
        if cur = [] then locate sep (i + 1) cur rest
        else (i, cur) :: locate sep (i + cur.length + 1) [] rest
      else locate sep i (cur ++ [x]) rest

section Fields

variable {sep : α} {cur rest s c : List α} {i j k : ℕ}

/-- Without a separator everything is one field. -/
theorem isField_of_not_mem (hcur : sep ∉ cur) :
    IsField sep cur k c ↔ cur ≠ [] ∧ k = 0 ∧ c = cur := by
  constructor
  · rintro ⟨hne, _, front, back, rfl, rfl, hfront, hback⟩
    obtain rfl : front = [] := hfront.resolve_right fun hlast =>
      hcur (by simp [List.mem_of_getLast? hlast])
    obtain rfl : back = [] := hback.resolve_right fun hhead =>
      hcur (by simp [List.mem_of_head? hhead])
    simpa using hne
  · rintro ⟨hne, rfl, rfl⟩
    exact ⟨hne, hcur, [], [], by simp, rfl, Or.inl rfl, Or.inl rfl⟩

/-- A separator ends the field in front of it, and another list begins. -/
theorem isField_append (hcur : sep ∉ cur) : IsField sep (cur ++ sep :: rest) k c ↔
    (cur ≠ [] ∧ k = 0 ∧ c = cur) ∨ ∃ l, k = cur.length + 1 + l ∧ IsField sep rest l c := by
  constructor
  · rintro ⟨hne, hc, front, back, heq, rfl, hfront, hback⟩
    rw [List.append_assoc] at heq
    rcases List.append_eq_append_iff.mp heq with ⟨a, rfl, hrest⟩ | ⟨a, rfl, hrest⟩
    · -- the separator lies in `front`, or directly after it
      cases a with
      | nil =>
          rw [List.nil_append] at hrest
          obtain ⟨x, c', rfl⟩ := List.exists_cons_of_ne_nil hne
          obtain ⟨rfl, _⟩ := List.cons.inj hrest
          exact absurd List.mem_cons_self hc
      | cons x a =>
          obtain ⟨rfl, rfl⟩ := List.cons.inj hrest
          refine Or.inr ⟨a.length, by simp; omega, hne, hc, a, back, by simp, rfl, ?_, hback⟩
          rcases List.eq_nil_or_concat a with rfl | ⟨a', y, rfl⟩
          · exact Or.inl rfl
          · exact Or.inr (by simpa [List.getLast?_append, List.getLast?_cons] using hfront)
    · -- the field begins in `cur`, so at its first element
      obtain rfl : front = [] := hfront.resolve_right fun hlast =>
        hcur (by simp [List.mem_of_getLast? hlast])
      left
      rcases List.append_eq_append_iff.mp hrest with ⟨b, rfl, hb⟩ | ⟨b, rfl, hb⟩
      · -- `c` ends in `cur`, so at its last element
        cases hback with
        | inl hnil =>
            subst hnil
            simp at hb
        | inr hhead =>
            cases b with
            | nil => simpa using hne
            | cons y b =>
                obtain rfl : y = sep := by simpa [hb] using hhead
                exact absurd (by simp) hcur
      · cases b with
        | nil => simpa using hne
        | cons y b =>
            obtain ⟨rfl, _⟩ := List.cons.inj hb
            exact absurd (by simp) hc
  · rintro (⟨hne, rfl, rfl⟩ | ⟨l, rfl, hne, hc, front, back, rfl, rfl, hfront, hback⟩)
    · exact ⟨hne, hcur, [], sep :: rest, by simp, rfl, Or.inl rfl, Or.inr rfl⟩
    · refine ⟨hne, hc, cur ++ sep :: front, back, by simp, by simp; omega, Or.inr ?_, hback⟩
      rcases hfront with rfl | hlast
      · simp
      · simp [List.getLast?_append, List.getLast?_cons, hlast]

variable [DecidableEq α]

theorem map_locate : (locate sep i cur s).map Prod.snd = split sep cur s := by
  induction s generalizing i cur with
  | nil =>
      unfold locate split
      split_ifs <;> rfl
  | cons x s ih =>
      unfold locate split
      split_ifs
      · exact ih
      · rw [List.map_cons, ih]
      · exact ih

theorem mem_locate (hcur : sep ∉ cur) :
    (j, c) ∈ locate sep i cur s ↔ ∃ k, j = i + k ∧ IsField sep (cur ++ s) k c := by
  induction s generalizing i cur with
  | nil =>
      rw [List.append_nil, locate]
      simp only [isField_of_not_mem hcur]
      split_ifs with hnil
      · simp [hnil]
      · simp [hnil]
  | cons x s ih =>
      rw [locate]
      split_ifs with hx hnil
      · subst hx hnil
        rw [ih hcur]
        simp only [isField_append hcur]
        simp [add_assoc]
      · subst hx
        rw [List.mem_cons, ih (List.not_mem_nil), List.nil_append]
        simp only [isField_append hcur]
        constructor
        · rintro (hpair | ⟨k, rfl, hk⟩)
          · obtain ⟨rfl, rfl⟩ := Prod.mk.inj hpair
            exact ⟨0, rfl, Or.inl ⟨hnil, rfl, rfl⟩⟩
          · exact ⟨cur.length + 1 + k, by omega, Or.inr ⟨k, rfl, hk⟩⟩
        · rintro ⟨k, rfl, ⟨_, rfl, rfl⟩ | ⟨l, rfl, hl⟩⟩
          · exact Or.inl rfl
          · exact Or.inr ⟨l, by omega, hl⟩
      · have hcur' : sep ∉ cur ++ [x] := by simp [hcur, Ne.symm hx]
        rw [ih hcur', List.append_assoc, List.singleton_append]

theorem le_of_mem_locate (h : (j, c) ∈ locate sep i cur s) (hcur : sep ∉ cur) : i ≤ j := by
  obtain ⟨k, rfl, _⟩ := (mem_locate hcur).mp h
  exact Nat.le_add_right i k

/-- The fields are found in the order of their positions. -/
theorem pairwise_locate (hcur : sep ∉ cur) :
    (locate sep i cur s).Pairwise fun a b => a.1 < b.1 := by
  induction s generalizing i cur with
  | nil =>
      rw [locate]
      split_ifs <;> simp
  | cons x s ih =>
      rw [locate]
      split_ifs with hx hnil
      · exact ih hcur
      · refine List.pairwise_cons.mpr ⟨fun b hb => ?_, ih List.not_mem_nil⟩
        have := le_of_mem_locate hb List.not_mem_nil
        simp only at this ⊢
        omega
      · exact ih (by simp [hcur, Ne.symm hx])

end Fields

end Fields
