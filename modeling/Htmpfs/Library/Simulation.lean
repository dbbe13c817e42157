import Mathlib

/-!
# Simulation

A run of labelled steps leaves the list of its labels as its trace.  Where every
step of one system is answered by a step of another under the same label, and the
states stay related, every trace of the one is a trace of the other.
-/

namespace Program

variable {σ τ Λ : Type*}

/-- A run and its labels. -/
inductive Trace (step : σ → Λ → σ → Prop) : σ → List Λ → σ → Prop
  | nil {s : σ} : Trace step s [] s
  | cons {s s₁ s' : σ} {l : Λ} {ls : List Λ} (hstep : step s l s₁) (hrest : Trace step s₁ ls s') :
      Trace step s (l :: ls) s'

variable {step : σ → Λ → σ → Prop} {step' : τ → Λ → τ → Prop} {s s' : σ} {ls : List Λ}

/-- The rule of forward simulation. -/
theorem Trace.simulates {R : σ → τ → Prop}
    (hstep : ∀ s t l s', R s t → step s l s' → ∃ t', step' t l t' ∧ R s' t')
    (h : Trace step s ls s') {t : τ} (hR : R s t) : ∃ t', Trace step' t ls t' ∧ R s' t' := by
  induction h generalizing t with
  | nil => exact ⟨t, Trace.nil, hR⟩
  | cons hfirst _ ih =>
      obtain ⟨t₁, ht₁, hR₁⟩ := hstep _ _ _ _ hR hfirst
      obtain ⟨t', ht', hR'⟩ := ih hR₁
      exact ⟨t', Trace.cons ht₁ ht', hR'⟩

/-- Runs of the same inputs from the same state stay together, if the steps do. -/
theorem Trace.agrees {κ : Type*} {k : Λ → κ} {A : Λ → Λ → Prop}
    (hstep : ∀ s l l' s₁ s₂, step s l s₁ → step s l' s₂ → k l = k l' → s₁ = s₂ ∧ A l l')
    (h : Trace step s ls s') {ls' : List Λ} {s'' : σ} (h' : Trace step s ls' s'')
    (hinputs : ls.map k = ls'.map k) : s' = s'' ∧ List.Forall₂ A ls ls' := by
  induction h generalizing ls' with
  | nil =>
      cases h' with
      | nil => exact ⟨rfl, List.Forall₂.nil⟩
      | cons _ _ => simp at hinputs
  | cons hfirst _ ih =>
      cases h' with
      | nil => simp at hinputs
      | cons hfirst' hrest' =>
          obtain ⟨hinput, hinputs⟩ := List.cons.inj hinputs
          obtain ⟨rfl, hagree⟩ := hstep _ _ _ _ _ hfirst hfirst' hinput
          obtain ⟨hsame, hagrees⟩ := ih hrest' hinputs
          exact ⟨hsame, List.Forall₂.cons hagree hagrees⟩

/-- What every step keeps, if its label is harmless, a run keeps. -/
theorem Trace.keeps {β : Type*} {f : σ → β} {C : Λ → Prop}
    (hstep : ∀ s l s', step s l s' → C l → f s' = f s) (h : Trace step s ls s')
    (hls : ∀ l ∈ ls, C l) : f s' = f s := by
  induction h with
  | nil => rfl
  | cons hfirst _ ih =>
      rw [ih fun l hl => hls l (List.mem_cons_of_mem _ hl)]
      exact hstep _ _ _ hfirst (hls _ List.mem_cons_self)

end Program
