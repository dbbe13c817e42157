import Mathlib

/-!
# Paths in a labelled graph

Every node has a list of labelled edges.  If a rank decreases along the edges,
every path is short, and a depth-first search finds each of them; if the edges
of a node differ in their labels, it finds each of them once.
-/

namespace LabelledPaths

variable {α ι : Type*}

/-- The labels on the way from one node to another. -/
inductive Leads (edges : α → List (ι × α)) : α → List ι → α → Prop
  | nil {a : α} : Leads edges a [] a
  | cons {a b c : α} {i : ι} {path : List ι} (hedge : (i, b) ∈ edges a)
      (hrest : Leads edges b path c) : Leads edges a (i :: path) c

/-- The paths that a depth-first search of `n` levels finds below a node: the edges of the node,
then what is below each of them. -/
def below (edges : α → List (ι × α)) : ℕ → α → List (List ι)
  | 0, _ => []
  | n + 1, a =>
      (edges a).map (fun e => [e.1]) ++
        (edges a).flatMap fun e => (below edges n e.2).map fun path => e.1 :: path

variable {edges : α → List (ι × α)} {a c : α} {i : ι} {path : List ι} {n : ℕ}

theorem leads_nil : Leads edges a [] c ↔ a = c := by
  constructor
  · intro h
    cases h
    rfl
  · rintro rfl
    exact Leads.nil

theorem leads_cons :
    Leads edges a (i :: path) c ↔ ∃ b, (i, b) ∈ edges a ∧ Leads edges b path c := by
  constructor
  · intro h
    cases h with
    | cons hedge hrest => exact ⟨_, hedge, hrest⟩
  · rintro ⟨b, hedge, hrest⟩
    exact Leads.cons hedge hrest

theorem below_succ : below edges (n + 1) a = (edges a).map (fun e => [e.1]) ++
    (edges a).flatMap fun e => (below edges n e.2).map fun path => e.1 :: path := rfl

theorem nil_not_mem_below : [] ∉ below edges n a := by
  cases n with
  | zero => simp [below]
  | succ n => simp [below]

theorem cons_mem_below : i :: path ∈ below edges (n + 1) a ↔
    ∃ b, (i, b) ∈ edges a ∧ (path = [] ∨ path ∈ below edges n b) := by
  rw [below_succ, List.mem_append, List.mem_map, List.mem_flatMap]
  constructor
  · rintro (⟨⟨j, b⟩, hedge, heq⟩ | ⟨⟨j, b⟩, hedge, hpath⟩)
    · obtain ⟨rfl, rfl⟩ := List.cons.inj heq
      exact ⟨b, hedge, Or.inl rfl⟩
    · obtain ⟨rest, hrest, heq⟩ := List.mem_map.mp hpath
      obtain ⟨rfl, rfl⟩ := List.cons.inj heq
      exact ⟨b, hedge, Or.inr hrest⟩
  · rintro ⟨b, hedge, rfl | hrest⟩
    · exact Or.inl ⟨(i, b), hedge, rfl⟩
    · exact Or.inr ⟨(i, b), hedge, List.mem_map.mpr ⟨path, hrest, rfl⟩⟩

/-- A search that is deep enough for the rank finds every path but the empty one. -/
theorem mem_below {rank : α → ℕ} (hrank : ∀ a, ∀ e ∈ edges a, rank e.2 < rank a)
    (hn : rank a < n) : path ∈ below edges n a ↔ path ≠ [] ∧ ∃ c, Leads edges a path c := by
  induction n generalizing a path with
  | zero => exact absurd hn (Nat.not_lt_zero _)
  | succ n ih =>
      cases path with
      | nil => simp [nil_not_mem_below]
      | cons i path =>
          have hrest : ∀ b, (i, b) ∈ edges a →
              ((path = [] ∨ path ∈ below edges n b) ↔ ∃ c, Leads edges b path c) := by
            intro b hedge
            have hlt : rank b < n := (hrank a _ hedge).trans_le (Nat.le_of_lt_succ hn)
            rw [ih hlt]
            by_cases hnil : path = []
            · subst hnil
              exact iff_of_true (Or.inl rfl) ⟨b, Leads.nil⟩
            · exact ⟨fun h => (h.resolve_left hnil).2, fun h => Or.inr ⟨hnil, h⟩⟩
          rw [cons_mem_below]
          constructor
          · rintro ⟨b, hedge, hb⟩
            obtain ⟨c, hc⟩ := (hrest b hedge).mp hb
            exact ⟨List.cons_ne_nil _ _, c, leads_cons.mpr ⟨b, hedge, hc⟩⟩
          · rintro ⟨_, c, hc⟩
            obtain ⟨b, hedge, hb⟩ := leads_cons.mp hc
            exact ⟨b, hedge, (hrest b hedge).mpr ⟨c, hb⟩⟩

/-- Searches that are deep enough find the same. -/
theorem below_eq {rank : α → ℕ} (hrank : ∀ a, ∀ e ∈ edges a, rank e.2 < rank a) {m : ℕ}
    (hn : rank a < n) (hm : rank a < m) : below edges n a = below edges m a := by
  induction n generalizing a m with
  | zero => exact absurd hn (Nat.not_lt_zero _)
  | succ n ih =>
      cases m with
      | zero => exact absurd hm (Nat.not_lt_zero _)
      | succ m =>
          have hrest : ∀ e ∈ edges a, below edges n e.2 = below edges m e.2 := by
            intro e he
            have hlt := hrank a e he
            exact ih (hlt.trans_le (Nat.le_of_lt_succ hn)) (hlt.trans_le (Nat.le_of_lt_succ hm))
          rw [below_succ, below_succ]
          congr 1
          exact List.flatMap_congr fun e he => by rw [hrest e he]

/-- A search finds no path twice. -/
theorem nodup_below (hlabels : ∀ a, ((edges a).map Prod.fst).Nodup) :
    (below edges n a).Nodup := by
  induction n generalizing a with
  | zero => exact List.nodup_nil
  | succ n ih =>
      have hpairs : ∀ e ∈ edges a, ∀ e' ∈ edges a, e.1 = e'.1 → e = e' := fun e he e' he' heq =>
        List.inj_on_of_nodup_map (hlabels a) he he' heq
      have hedges : (edges a).Nodup := (hlabels a).of_map _
      rw [below_succ, List.nodup_append]
      refine ⟨?_, ?_, ?_⟩
      · refine hedges.map_on fun e he e' he' heq => ?_
        exact hpairs e he e' he' (List.singleton_inj.mp heq)
      · rw [List.nodup_flatMap]
        refine ⟨fun e _ => (ih (a := e.2)).map fun p q heq => (List.cons.inj heq).2, ?_⟩
        refine hedges.pairwise_of_forall_ne ?_
        intro e he e' he' hne p hp hp'
        obtain ⟨q, _, rfl⟩ := List.mem_map.mp hp
        obtain ⟨q', _, heq⟩ := List.mem_map.mp hp'
        exact hne (hpairs e he e' he' (List.cons.inj heq).1.symm)
      · rintro p hp q hq rfl
        obtain ⟨e, _, rfl⟩ := List.mem_map.mp hp
        obtain ⟨e', _, hq⟩ := List.mem_flatMap.mp hq
        obtain ⟨rest, hrest, heq⟩ := List.mem_map.mp hq
        obtain ⟨_, rfl⟩ := List.cons.inj heq
        exact nil_not_mem_below hrest

end LabelledPaths
