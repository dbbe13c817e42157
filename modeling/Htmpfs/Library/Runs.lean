import Mathlib
import Htmpfs.Library.Program

/-!
# Runs

A run makes step after step from a state.  What every step preserves, the run
preserves; what every step relates, the run relates, if the relation is
reflexive and transitive.
-/

namespace Program

variable {ε σ τ α β : Type}

/-- The call is over in `s'` and its caller goes on: it returned, or threw what is caught. -/
def Leaves (caught : ε → Prop) (m : EStateM ε σ α) (s s' : σ) : Prop :=
  (∃ a, m s = .ok a s') ∨ ∃ e, caught e ∧ m s = .error e s'

theorem Ends.leaves {m : EStateM ε σ α} {s s' : σ} {Q : α → σ → Prop} {E : ε → σ → Prop}
    {caught : ε → Prop} (h : Ends m s Q E) (hm : Leaves caught m s s') :
    (∃ a, Q a s') ∨ ∃ e, caught e ∧ E e s' := by
  rcases hm with ⟨a, ha⟩ | ⟨e, he, herr⟩
  · exact Or.inl ⟨a, h.of_ok ha⟩
  · exact Or.inr ⟨e, he, h.of_error herr⟩

/-- The store in which a call ends. -/
def exec (m : EStateM ε σ α) (s : σ) : σ :=
  match m s with
  | .ok _ s' => s'
  | .error _ s' => s'

/-- What a call returns or throws. -/
def outcome (m : EStateM ε σ α) (s : σ) : Except ε α :=
  match m s with
  | .ok a _ => .ok a
  | .error e _ => .error e

section Outcome

variable {m : EStateM ε σ α} {s : σ} {a : α} {e : ε} {caught : ε → Prop}
  {Q : α → σ → Prop} {E : ε → σ → Prop}

theorem eq_ok_of_outcome (h : outcome m s = .ok a) : m s = .ok a (exec m s) := by
  unfold outcome at h
  unfold exec
  cases hm : m s with
  | ok a' s' =>
      rw [hm] at h
      rw [Except.ok.inj h]
  | error e s' => simp [hm] at h

theorem eq_error_of_outcome (h : outcome m s = .error e) : m s = .error e (exec m s) := by
  unfold outcome at h
  unfold exec
  cases hm : m s with
  | ok a s' => simp [hm] at h
  | error e' s' =>
      rw [hm] at h
      rw [Except.error.inj h]

theorem leaves_exec (h : outcome m s = .ok a) : Leaves caught m s (exec m s) :=
  Or.inl ⟨a, eq_ok_of_outcome h⟩

theorem Ends.outcome_ok (hends : Ends m s Q E) (h : outcome m s = .ok a) : Q a (exec m s) :=
  hends.of_ok (eq_ok_of_outcome h)

theorem Ends.outcome_error (hends : Ends m s Q E) (h : outcome m s = .error e) :
    E e (exec m s) :=
  hends.of_error (eq_error_of_outcome h)

end Outcome

section Runs

variable {step : σ → σ → Prop} {I : σ → Prop} {s s' : σ}

/-- The run rule of an invariant. -/
theorem run_preserves (hrun : Relation.ReflTransGen step s s') (hs : I s)
    (hstep : ∀ t t', I t → step t t' → I t') : I s' := by
  induction hrun with
  | refl => exact hs
  | tail _ hlast ih => exact hstep _ _ ih hlast

/-- The run rule of a relation between the first state and the last. -/
theorem run_relates {R : σ → σ → Prop} (hrun : Relation.ReflTransGen step s s') (hs : I s)
    (hrefl : R s s) (hstep : ∀ t t', I t → R s t → step t t' → I t' ∧ R s t') :
    I s' ∧ R s s' := by
  induction hrun with
  | refl => exact ⟨hs, hrefl⟩
  | tail _ hlast ih => exact hstep _ _ ih.1 ih.2 hlast

end Runs

end Program
