import Mathlib

/-!
# Programs that may end early

`EStateM ε σ` without backtracking is the calculus of exceptions over a
mutable store: a `throw` ends the call, and whatever had been stored by then
stays stored.  `Ends m s Q E` is the total postcondition of such a program:
the run of `m` from `s` either returns with `Q` or throws with `E`.
-/

namespace Program

variable {ε σ τ α β γ : Type}

/-- The run of `m` from `s` returns with `Q` or throws with `E`. -/
def Ends (m : EStateM ε σ α) (s : σ) (Q : α → σ → Prop) (E : ε → σ → Prop) : Prop :=
  match m s with
  | .ok a s' => Q a s'
  | .error e s' => E e s'

/-- Run a program on a part of the store; if the part is missing the call ends with `e`. -/
def zoom (get : σ → Option τ) (put : τ → σ → σ) (e : ε) (m : EStateM ε τ α) :
    EStateM ε σ α := fun s =>
  match get s with
  | none => .error e s
  | some t =>
    match m t with
    | .ok a t' => .ok a (put t' s)
    | .error e' t' => .error e' (put t' s)

/-- A computation that only looks at the store. -/
def reads (f : σ → Except ε α) : EStateM ε σ α := fun s =>
  match f s with
  | .ok a => .ok a s
  | .error e => .error e s

/-- `for (i = start; i < start + count; i++) body(i)`. -/
def loop (body : ℕ → EStateM ε σ Unit) : ℕ → ℕ → EStateM ε σ Unit
  | _, 0 => pure ()
  | start, count + 1 => do
      body start
      loop body (start + 1) count

/-- `for (auto & x : xs) body(x)`. -/
def each (body : α → EStateM ε σ Unit) : List α → EStateM ε σ Unit
  | [] => pure ()
  | x :: xs => do
      body x
      each body xs

/-! ## Computations without a store -/

section Except

variable {x : Except ε α} {f : α → Except ε β} {a b' : α} {b : β} {e e' : ε}

theorem bind_eq_ok : (x >>= f) = .ok b ↔ ∃ a, x = .ok a ∧ f a = .ok b := by
  cases x <;> simp [bind, Except.bind]

theorem bind_eq_error : (x >>= f) = .error e ↔ x = .error e ∨ ∃ a, x = .ok a ∧ f a = .error e := by
  cases x <;> simp [bind, Except.bind]

@[simp] theorem pure_eq_ok : (pure a : Except ε α) = .ok b' ↔ a = b' := by
  simp [pure, Except.pure]

@[simp] theorem pure_ne_error : (pure a : Except ε α) ≠ .error e := by
  simp [pure, Except.pure]

@[simp] theorem throw_eq_error : (throw e : Except ε α) = .error e' ↔ e = e' := by
  simp [throw, throwThe, MonadExceptOf.throw]

@[simp] theorem throw_ne_ok : (throw e : Except ε α) ≠ .ok a := by
  simp [throw, throwThe, MonadExceptOf.throw]

end Except

section Rules

variable {m : EStateM ε σ α} {s s' : σ} {Q Q' : α → σ → Prop} {E E' : ε → σ → Prop}

theorem Ends.mono (h : Ends m s Q E) (hQ : ∀ a s', Q a s' → Q' a s')
    (hE : ∀ e s', E e s' → E' e s') : Ends m s Q' E' := by
  unfold Ends at h ⊢
  cases hm : m s with
  | ok a s' => exact hQ a s' (by simpa [hm] using h)
  | error e s' => exact hE e s' (by simpa [hm] using h)

theorem Ends.of_ok (h : Ends m s Q E) {a : α} (hm : m s = .ok a s') : Q a s' := by
  simpa [Ends, hm] using h

theorem Ends.of_error (h : Ends m s Q E) {e : ε} (hm : m s = .error e s') : E e s' := by
  simpa [Ends, hm] using h

/-- A program that can only end in one way does. -/
theorem Ends.eq_error {e : ε} {t : σ} (h : Ends m s (fun _ _ => False) fun e' s' => e' = e ∧ s' = t) :
    m s = .error e t := by
  unfold Ends at h
  cases hm : m s with
  | ok a s' => simp [hm] at h
  | error e' s' =>
      obtain ⟨rfl, rfl⟩ : e' = e ∧ s' = t := by simpa [hm] using h
      rfl

theorem Ends.eq_ok {a : α} {t : σ} (h : Ends m s (fun b s' => b = a ∧ s' = t) fun _ _ => False) :
    m s = .ok a t := by
  unfold Ends at h
  cases hm : m s with
  | ok b s' =>
      obtain ⟨rfl, rfl⟩ : b = a ∧ s' = t := by simpa [hm] using h
      rfl
  | error e s' => simp [hm] at h

theorem Ends.exists_ok (h : Ends m s Q fun _ _ => False) : ∃ a s', m s = .ok a s' ∧ Q a s' := by
  cases hm : m s with
  | ok a s' => exact ⟨a, s', rfl, h.of_ok hm⟩
  | error e s' => exact (h.of_error hm).elim

theorem ends_of_forall (hQ : ∀ a s', Q a s') (hE : ∀ e s', E e s') : Ends m s Q E := by
  unfold Ends
  cases m s with
  | ok a s' => exact hQ a s'
  | error e s' => exact hE e s'

theorem Ends.and (h : Ends m s Q E) (h' : Ends m s Q' E') :
    Ends m s (fun a s' => Q a s' ∧ Q' a s') (fun e s' => E e s' ∧ E' e s') := by
  unfold Ends at h h' ⊢
  cases hm : m s with
  | ok a s' => exact ⟨by simpa [hm] using h, by simpa [hm] using h'⟩
  | error e s' => exact ⟨by simpa [hm] using h, by simpa [hm] using h'⟩

@[simp] theorem ends_pure {a : α} : Ends (pure a : EStateM ε σ α) s Q E ↔ Q a s := Iff.rfl

@[simp] theorem ends_throw {e : ε} : Ends (throw e : EStateM ε σ α) s Q E ↔ E e s := Iff.rfl

@[simp] theorem ends_bind {n : EStateM ε σ β} {f : β → EStateM ε σ α} :
    Ends (n >>= f) s Q E ↔ Ends n s (fun b s' => Ends (f b) s' Q E) E := by
  simp only [Ends, bind, EStateM.bind]
  cases n s <;> rfl

@[simp] theorem ends_map {n : EStateM ε σ β} {f : β → α} :
    Ends (f <$> n) s Q E ↔ Ends n s (fun b s' => Q (f b) s') E := by
  simp only [Ends, Functor.map, EStateM.map]
  cases n s <;> rfl

@[simp] theorem ends_tryCatch {n : EStateM ε σ α} {f : ε → EStateM ε σ α} :
    Ends (tryCatch n f) s Q E ↔ Ends n s Q (fun e s' => Ends (f e) s' Q E) := by
  simp only [Ends, tryCatch, tryCatchThe, MonadExceptOf.tryCatch, EStateM.tryCatch]
  cases n s <;> rfl

@[simp] theorem ends_get {Q : σ → σ → Prop} : Ends (get : EStateM ε σ σ) s Q E ↔ Q s s := Iff.rfl

@[simp] theorem ends_set {t : σ} {Q : PUnit → σ → Prop} :
    Ends (set t : EStateM ε σ PUnit) s Q E ↔ Q ⟨⟩ t := Iff.rfl

@[simp] theorem ends_modify {f : σ → σ} {Q : PUnit → σ → Prop} :
    Ends (modify f : EStateM ε σ PUnit) s Q E ↔ Q ⟨⟩ (f s) := Iff.rfl

theorem ends_reads {f : σ → Except ε α} :
    Ends (reads f) s Q E ↔
      (∀ a, f s = .ok a → Q a s) ∧ ∀ e, f s = .error e → E e s := by
  unfold Ends reads
  cases f s <;> simp

theorem Ends.reads_ok {f : σ → Except ε α} {a : α} (hf : f s = .ok a) (h : Q a s) :
    Ends (reads f) s Q E := by
  simpa [Ends, reads, hf] using h

theorem Ends.reads_error {f : σ → Except ε α} {e : ε} (hf : f s = .error e) (h : E e s) :
    Ends (reads f) s Q E := by
  simpa [Ends, reads, hf] using h

theorem ends_zoom {g : σ → Option τ} {put : τ → σ → σ} {e : ε} {n : EStateM ε τ α} {t : τ}
    (ht : g s = some t) :
    Ends (zoom g put e n) s Q E ↔
      Ends n t (fun a t' => Q a (put t' s)) (fun e' t' => E e' (put t' s)) := by
  simp only [Ends, zoom, ht]
  cases n t <;> rfl

theorem ends_zoom_none {get : σ → Option τ} {put : τ → σ → σ} {e : ε} {n : EStateM ε τ α}
    (ht : get s = none) : Ends (zoom get put e n) s Q E ↔ E e s := by
  simp only [Ends, zoom, ht]

/-- The loop rule: `I k` holds after `k` turns. -/
theorem Ends.loop {body : ℕ → EStateM ε σ Unit} {count : ℕ} (I : ℕ → σ → Prop) :
    ∀ {start k : ℕ} {s : σ}, I k s →
      (∀ j s, j < count → I (k + j) s →
        Ends (body (start + j)) s (fun _ s' => I (k + j + 1) s') E) →
      Ends (loop body start count) s (fun _ s' => I (k + count) s') E := by
  induction count with
  | zero =>
      intro start k s hI _
      exact hI
  | succ count ih =>
      intro start k s hI hbody
      refine ends_bind.mpr ((hbody 0 s (by omega) hI).mono ?_ (fun _ _ h => h))
      intro _ s' hI'
      have hrest := @ih (start + 1) (k + 1) s' hI' (by
        intro j t hj hIt
        have hturn := hbody (j + 1) t (by omega) (by
          rwa [show k + (j + 1) = k + 1 + j by omega])
        rwa [show start + (j + 1) = start + 1 + j by omega,
          show k + (j + 1) + 1 = k + 1 + j + 1 by omega] at hturn)
      rwa [show k + (count + 1) = k + 1 + count by omega]

theorem Ends.eachFrom {body : γ → EStateM ε σ Unit} (I : List γ → σ → Prop) :
    ∀ {todo done : List γ} {s : σ}, I done s →
      (∀ pre x post s, done ++ todo = pre ++ x :: post → done.length ≤ pre.length → I pre s →
        Ends (body x) s (fun _ s' => I (pre ++ [x]) s') E) →
      Ends (each body todo) s (fun _ s' => I (done ++ todo) s') E := by
  intro todo
  induction todo with
  | nil =>
      intro done s hI _
      simpa [Program.each] using hI
  | cons x todo ih =>
      intro done s hI hbody
      refine ends_bind.mpr ((hbody done x todo s rfl le_rfl hI).mono ?_ (fun _ _ h => h))
      intro _ s' hI'
      have hrest := @ih (done ++ [x]) s' hI' (by
        intro pre y post t heq hlen hIt
        exact hbody pre y post t (by simpa using heq)
          (by simp only [List.length_append, List.length_singleton] at hlen; omega) hIt)
      simpa using hrest

/-- The rule of a range loop: `I pre` holds once the prefix `pre` has been visited. -/
theorem Ends.each {body : γ → EStateM ε σ Unit} {xs : List γ} (I : List γ → σ → Prop)
    (hstart : I [] s) (hbody : ∀ pre x post s, xs = pre ++ x :: post → I pre s →
      Ends (body x) s (fun _ s' => I (pre ++ [x]) s') E) :
    Ends (each body xs) s (fun _ s' => I xs s') E :=
  Ends.eachFrom I hstart fun pre x post s heq _ hpre => hbody pre x post s heq hpre

theorem each_map {δ : Type} {body : δ → EStateM ε σ Unit} {f : γ → δ} {xs : List γ} :
    each body (xs.map f) = each (fun x => body (f x)) xs := by
  induction xs with
  | nil => rfl
  | cons x xs ih =>
      rw [List.map_cons, each, each, ih]

/-- The rule of a range loop that appends to a list. -/
theorem Ends.each_append {δ : Type} {body : γ → EStateM ε (List δ) Unit} {xs : List γ}
    {s : List δ} {E : ε → List δ → Prop} {out : γ → List δ}
    (hbody : ∀ x ∈ xs, ∀ s, Ends (body x) s (fun _ s' => s' = s ++ out x) E) :
    Ends (Program.each body xs) s (fun _ s' => s' = s ++ xs.flatMap out) E := by
  induction xs generalizing s with
  | nil => simp [Program.each]
  | cons x xs ih =>
      rw [Program.each, ends_bind]
      refine (hbody x List.mem_cons_self s).mono ?_ fun _ _ h => h
      rintro _ s' rfl
      have hrest := ih (s := s ++ out x) fun y hy => hbody y (List.mem_cons_of_mem x hy)
      rwa [List.append_assoc, ← List.flatMap_cons] at hrest

end Rules

end Program
