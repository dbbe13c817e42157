import Mathlib
import Htmpfs.Library.IdPool
import Htmpfs.Library.Program

/-!
# What a program never does

`Guarantees R m`: from whatever store `m` starts and however it ends, `R`
relates the first store to the last.  Every control structure keeps a
guarantee that is a preorder, so a program is seen to keep it as soon as its
assignments do.
-/

namespace Program

variable {ε σ τ α β γ : Type}

/-- Every run of `m` takes a store to one that `R` relates it to. -/
def Guarantees (R : σ → σ → Prop) (m : EStateM ε σ α) : Prop :=
  ∀ s, Ends m s (fun _ s' => R s s') (fun _ s' => R s s')

section Rules

variable {R : σ → σ → Prop} {m : EStateM ε σ α} {s s' : σ}

/-- The guarantee of what is left to do, after what has been done. -/
theorem Guarantees.from [IsTrans σ R] (hm : Guarantees R m) (h : R s s') :
    Ends m s' (fun _ t => R s t) (fun _ t => R s t) :=
  (hm s').mono (fun _ _ ht => trans_of R h ht) fun _ _ ht => trans_of R h ht

theorem guarantees_pure [Std.Refl R] {a : α} : Guarantees R (pure a : EStateM ε σ α) := by
  intro s
  exact ends_pure.mpr (refl_of R s)

theorem guarantees_throw [Std.Refl R] {e : ε} : Guarantees R (throw e : EStateM ε σ α) := by
  intro s
  exact ends_throw.mpr (refl_of R s)

theorem guarantees_get [Std.Refl R] : Guarantees R (get : EStateM ε σ σ) := by
  intro s
  exact ends_get.mpr (refl_of R s)

theorem guarantees_reads [Std.Refl R] {f : σ → Except ε α} : Guarantees R (reads f) := by
  intro s
  exact ends_reads.mpr ⟨fun _ _ => refl_of R s, fun _ _ => refl_of R s⟩

theorem guarantees_modify {f : σ → σ} (hf : ∀ s, R s (f s)) :
    Guarantees R (modify f : EStateM ε σ PUnit) := by
  intro s
  exact ends_modify.mpr (hf s)

theorem Guarantees.bind [IsTrans σ R] {f : α → EStateM ε σ β} (hm : Guarantees R m)
    (hf : ∀ a, Guarantees R (f a)) : Guarantees R (m >>= f) := by
  intro s
  apply ends_bind.mpr
  exact (hm s).mono (fun a _ h => (hf a).from h) fun _ _ h => h

theorem Guarantees.tryCatch [IsTrans σ R] {f : ε → EStateM ε σ α} (hm : Guarantees R m)
    (hf : ∀ e, Guarantees R (f e)) : Guarantees R (tryCatch m f) := by
  intro s
  apply ends_tryCatch.mpr
  exact (hm s).mono (fun _ _ h => h) fun e _ h => (hf e).from h

/-- What is stored depends on what was read. -/
theorem Guarantees.get_bind {f : σ → EStateM ε σ α}
    (hf : ∀ s, Ends (f s) s (fun _ s' => R s s') (fun _ s' => R s s')) :
    Guarantees R (get >>= f) := by
  intro s
  exact ends_bind.mpr (ends_get.mpr (hf s))

theorem Guarantees.each [IsPreorder σ R] {body : γ → EStateM ε σ Unit}
    (hbody : ∀ x, Guarantees R (body x)) (xs : List γ) : Guarantees R (each body xs) := by
  induction xs with
  | nil => exact guarantees_pure
  | cons x xs ih => exact (hbody x).bind fun _ => ih

/-- A program on a part of the store. -/
theorem Guarantees.zoom [Std.Refl R] {S : τ → τ → Prop} {g : σ → Option τ} {put : τ → σ → σ}
    {e : ε} {n : EStateM ε τ α} (hn : Guarantees S n)
    (hput : ∀ s t t', g s = some t → S t t' → R s (put t' s)) : Guarantees R (zoom g put e n) := by
  intro s
  cases hs : g s with
  | none => exact (ends_zoom_none hs).mpr (refl_of R s)
  | some t =>
      apply (ends_zoom hs).mpr
      exact (hn t).mono (fun _ t' h => hput s t t' hs h) fun _ t' h => hput s t t' hs h

end Rules

end Program

/-! ## A pool through a pointer -/

namespace IdPool

variable {α β : Type} {f : α → β} {q ptr : PoolPtr} {p p' : IdPool α} {id n : ℕ} {val x : α}

/-- What a pointer into the pool leads to afterwards, it led to before, with the same `f`. -/
structure Keeps (f : α → β) (q : PoolPtr) (p p' : IdPool α) : Prop where
  nextAddr : p.nextAddr ≤ p'.nextAddr
  kept : ∀ x', q.addr < p.nextAddr → p'.deref? q = some x' →
    ∃ x, p.deref? q = some x ∧ f x' = f x

instance : IsPreorder (IdPool α) (Keeps f q) where
  refl p := ⟨le_rfl, fun x' _ hx' => ⟨x', hx', rfl⟩⟩
  trans p p' p'' h h' := by
    refine ⟨h.nextAddr.trans h'.nextAddr, fun x'' hq hx'' => ?_⟩
    obtain ⟨x', hx', hf'⟩ := h'.kept x'' (hq.trans_le h.nextAddr) hx''
    obtain ⟨x, hx, hf⟩ := h.kept x' hq hx'
    exact ⟨x, hx, hf'.trans hf⟩

/-- A new node has a new address. -/
theorem keeps_emplace (val : α) : Keeps f q p (p.emplace id val) := by
  cases hid : p.find? id with
  | some node =>
      have hsame : p.emplace id val = p := by simp only [emplace, hid]
      rw [hsame]
      exact refl_of (Keeps f q) p
  | none =>
      refine ⟨by rw [nextAddr_emplace hid]; exact Nat.le_succ _, fun x' hq hx' => ⟨x', ?_, rfl⟩⟩
      obtain ⟨node, hnode, haddr, hval⟩ := deref?_eq_some.mp hx'
      rw [find?_emplace hid] at hnode
      split_ifs at hnode
      · have hlast : p.nextAddr = node.addr := congrArg PoolNode.addr (Option.some.inj hnode)
        exact absurd (hlast.trans haddr) hq.ne'
      · exact deref?_eq_some.mpr ⟨node, hnode, haddr, hval⟩

theorem keeps_erase : Keeps f q p (p.erase id) := by
  refine ⟨le_rfl, fun x' _ hx' => ⟨x', ?_, rfl⟩⟩
  obtain ⟨node, hnode, haddr, hval⟩ := deref?_eq_some.mp hx'
  rw [find?_erase] at hnode
  split_ifs at hnode
  exact deref?_eq_some.mpr ⟨node, hnode, haddr, hval⟩

theorem keeps_setLinkCount : Keeps f q p (p.setLinkCount id n) := by
  refine ⟨le_rfl, fun x' _ hx' => ⟨x', ?_, rfl⟩⟩
  obtain ⟨node, hnode, haddr, hval⟩ := deref?_eq_some.mp hx'
  rw [find?_setLinkCount] at hnode
  split_ifs at hnode with hid
  · obtain ⟨node₀, hnode₀, rfl⟩ := Option.map_eq_some_iff.mp hnode
    exact deref?_eq_some.mpr ⟨node₀, by rw [hid, hnode₀], haddr, hval⟩
  · exact deref?_eq_some.mpr ⟨node, hnode, haddr, hval⟩

/-- An assignment through a pointer, to something else or of something with the same `f`. -/
theorem keeps_setVal (hptr : p.deref? ptr = some x) (hf : q = ptr → f val = f x) :
    Keeps f q p (p.setVal ptr.id val) := by
  refine ⟨le_rfl, fun x' _ hx' => ?_⟩
  obtain ⟨node, hnode, haddr, hval⟩ := deref?_eq_some.mp hx'
  rw [find?_setVal] at hnode
  split_ifs at hnode with hid
  · obtain ⟨node₀, hnode₀, rfl⟩ := Option.map_eq_some_iff.mp hnode
    obtain ⟨node₁, hnode₁, haddr₁, hval₁⟩ := deref?_eq_some.mp hptr
    obtain rfl := Option.some.inj (hnode₀.symm.trans hnode₁)
    have hsame : q = ptr := by
      cases q
      cases ptr
      simp only [PoolPtr.mk.injEq]
      exact ⟨hid, haddr.symm.trans haddr₁⟩
    exact ⟨x, hsame ▸ hptr, by rw [← hval]; exact hf hsame⟩
  · exact ⟨x', deref?_eq_some.mpr ⟨node, hnode, haddr, hval⟩, rfl⟩

end IdPool
