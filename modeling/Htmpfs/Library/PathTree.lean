import Mathlib

/-!
# Trees of files

A tree is known by what stands at each path: nothing, a directory, or a leaf
with its contents.  What stands below a path stands in a directory.  A volume is
a tree that changes, together with copies of it that do not.
-/

/-- What stands at a path. -/
inductive PathTree.Entry (α : Type*)
  | dir
  | leaf (a : α)
  deriving DecidableEq

/-- A tree whose leaves have contents of a type. -/
@[ext]
structure PathTree (ι α : Type*) where
  entry : List ι → Option (PathTree.Entry α)
  root : entry [] = some .dir
  parent : ∀ p c, (entry (p ++ [c])).isSome → entry p = some .dir

namespace PathTree

variable {ι α : Type*}

/-- Other contents; a directory has none. -/
def Entry.map (f : α → α) : Entry α → Entry α
  | dir => dir
  | leaf a => leaf (f a)

/-- The tree of a root directory without entries. -/
def empty : PathTree ι α where
  entry
    | [] => some .dir
    | _ :: _ => none
  root := rfl
  parent p c hsome := by
    cases p with
    | nil => rfl
    | cons d p => simp at hsome

/-- Nothing stands below the path. -/
def Ends (t : PathTree ι α) (q : List ι) : Prop := ∀ c, t.entry (q ++ [c]) = none

section Basics

variable {t : PathTree ι α} {p q r : List ι} {c : ι} {a : α}

/-- What stands below a path stands in a directory. -/
theorem entry_eq_dir (hsome : (t.entry (p ++ q)).isSome) (hq : q ≠ []) : t.entry p = some .dir := by
  induction q using List.reverseRecOn with
  | nil => exact absurd rfl hq
  | append_singleton q c ih =>
      rw [← List.append_assoc] at hsome
      have hdir := t.parent _ _ hsome
      by_cases hnil : q = []
      · rw [hnil, List.append_nil] at hdir
        exact hdir
      · exact ih (hdir ▸ rfl) hnil

theorem not_prefix_of_concat (h : ¬ q <+: p ++ [c]) : ¬ q <+: p :=
  fun hstarts => h (hstarts.trans (List.prefix_append _ _))

theorem ends_of_none (h : t.entry q = none) : t.Ends q := by
  intro c
  rw [← Option.not_isSome_iff_eq_none]
  intro hsome
  rw [t.parent q c hsome] at h
  exact absurd h (by simp)

end Basics

/-! ## Operations -/

section Operations

variable [DecidableEq ι] (t : PathTree ι α)

/-- A new entry of a directory. -/
def add (p : List ι) (c : ι) (e : Entry α) (hp : t.entry p = some .dir)
    (hnew : t.entry (p ++ [c]) = none) : PathTree ι α where
  entry q := if q = p ++ [c] then some e else t.entry q
  root := by
    rw [if_neg (by simp), t.root]
  parent q d hsome := by
    have hq : q ≠ p ++ [c] := by
      rintro rfl
      rw [if_neg (by simp), ends_of_none hnew d] at hsome
      exact absurd hsome (by simp)
    rw [if_neg hq]
    split_ifs at hsome with heq
    · rw [(List.append_inj' heq rfl).1, hp]
    · exact t.parent q d hsome

/-- A path is gone, with all that is below it. -/
def erase (q : List ι) (hq : q ≠ []) : PathTree ι α where
  entry r := if q <+: r then none else t.entry r
  root := by
    rw [if_neg (by simpa using hq), t.root]
  parent r c hsome := by
    split_ifs at hsome with hstarts
    · exact absurd hsome (by simp)
    · rw [if_neg (not_prefix_of_concat hstarts)]
      exact t.parent r c hsome

/-- Other contents of the leaf at a path. -/
def rewrite (q : List ι) (f : α → α) : PathTree ι α where
  entry r := if r = q then (t.entry r).map (Entry.map f) else t.entry r
  root := by
    rw [t.root]
    split_ifs <;> rfl
  parent r c hsome := by
    have hdir : t.entry r = some .dir := by
      split_ifs at hsome
      · exact t.parent r c (by simpa using hsome)
      · exact t.parent r c hsome
    rw [hdir]
    split_ifs <;> rfl

/-- What is at and below a path is moved under a new name of a directory; if that name is below
the path, it is lost. -/
def move (src p : List ι) (c : ι) (hsrc : src ≠ []) (hp : t.entry p = some .dir) :
    PathTree ι α where
  entry r :=
    if src <+: r then none
    else if p ++ [c] <+: r then t.entry (src ++ r.drop (p.length + 1))
    else t.entry r
  root := by
    rw [if_neg (by simpa using hsrc), if_neg (by simp), t.root]
  parent r d hsome := by
    split_ifs at hsome with hstarts hbelow
    · exact absurd hsome (by simp)
    · rw [if_neg (not_prefix_of_concat hstarts)]
      obtain ⟨rest, hrest⟩ := hbelow
      rcases List.eq_nil_or_concat rest with rfl | ⟨rest, d', rfl⟩
      · rw [List.append_nil] at hrest
        obtain ⟨rfl, _⟩ := List.append_inj' hrest rfl
        rw [if_neg fun hpre => by simpa using hpre.length_le, hp]
      · rw [List.concat_eq_append, ← List.append_assoc] at hrest
        obtain ⟨rfl, hlast⟩ := List.append_inj' hrest rfl
        obtain rfl := List.singleton_inj.mp hlast
        have hlen : p.length + 1 = (p ++ [c]).length := by simp
        rw [if_pos (List.prefix_append _ _), hlen, List.drop_left]
        rw [List.append_assoc _ rest, hlen, List.drop_left, ← List.append_assoc] at hsome
        exact t.parent _ _ hsome
    · rw [if_neg (not_prefix_of_concat hstarts), if_neg (not_prefix_of_concat hbelow)]
      exact t.parent r d hsome

variable {t} {p q r src : List ι} {c : ι} {e : Entry α} {f : α → α}

@[simp] theorem entry_add {hp : t.entry p = some .dir} {hnew : t.entry (p ++ [c]) = none} :
    (t.add p c e hp hnew).entry r = if r = p ++ [c] then some e else t.entry r := rfl

@[simp] theorem entry_erase {hq : q ≠ []} :
    (t.erase q hq).entry r = if q <+: r then none else t.entry r := rfl

@[simp] theorem entry_rewrite :
    (t.rewrite q f).entry r = if r = q then (t.entry r).map (Entry.map f) else t.entry r := rfl

end Operations

end PathTree

/-! ## Volumes -/

/-- A tree that changes, and copies of it that do not. -/
@[ext]
structure Volume (ι α ν : Type*) where
  current : PathTree ι α
  frozen : ν → Option (PathTree ι α)

namespace Volume

/-- What may be done to a volume. -/
inductive Action (ι α ν : Type*)
  | add (p : List ι) (c : ι) (e : PathTree.Entry α)
  | erase (q : List ι)
  | rewrite (q : List ι) (f : α → α)
  | move (src p : List ι) (c : ι)
  | freeze (v : ν)
  | discard (v : ν)

variable {ι α ν : Type*}

/-- A root directory without entries, and no copies. -/
def empty : Volume ι α ν where
  current := PathTree.empty
  frozen _ := none

variable [DecidableEq ι] [DecidableEq ν] {fs fs' : Volume ι α ν} {a : Action ι α ν}

/-- An action is done where it is possible. -/
inductive Does (fs : Volume ι α ν) : Action ι α ν → Volume ι α ν → Prop
  | add {p : List ι} {c : ι} {e : PathTree.Entry α} (hp : fs.current.entry p = some .dir)
      (hnew : fs.current.entry (p ++ [c]) = none) :
      Does fs (.add p c e) { fs with current := fs.current.add p c e hp hnew }
  | erase {q : List ι} (hq : q ≠ []) (hsome : (fs.current.entry q).isSome)
      (hends : fs.current.Ends q) :
      Does fs (.erase q) { fs with current := fs.current.erase q hq }
  | rewrite {q : List ι} {f : α → α} {x : α} (hleaf : fs.current.entry q = some (.leaf x)) :
      Does fs (.rewrite q f) { fs with current := fs.current.rewrite q f }
  | move {src p : List ι} {c : ι} (hsrc : src ≠ []) (hsome : (fs.current.entry src).isSome)
      (hp : fs.current.entry p = some .dir) (hends : fs.current.Ends (p ++ [c])) :
      Does fs (.move src p c) { fs with current := fs.current.move src p c hsrc hp }
  | freeze {v : ν} (hnew : fs.frozen v = none) :
      Does fs (.freeze v) { fs with frozen := Function.update fs.frozen v (some fs.current) }
  | discard {v : ν} (hsome : (fs.frozen v).isSome) :
      Does fs (.discard v) { fs with frozen := Function.update fs.frozen v none }

end Volume
