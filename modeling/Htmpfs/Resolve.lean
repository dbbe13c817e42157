import Mathlib
import Htmpfs.View

/-!
# Path resolution by components

A path resolves as its components do.  Components of a path are never empty
and have no slash, so that cutting what `path_t::to_string` puts together
gives them back.
-/

namespace Htmpfs

/-- What is found between the slashes of a path. -/
structure IsName (c : Bytes) : Prop where
  ne_nil : c ≠ []
  no_slash : slash ∉ c

/-- The components of a path below the root. -/
def comps (path : Bytes) : List Bytes := PathT.split [] path

namespace PathT

section Split

variable {cur path c : Bytes} {cs : List Bytes}

theorem pathname_ofString : (ofString path).pathname = [] :: comps path := rfl

theorem isName_of_mem_split (hcur : slash ∉ cur) (hc : c ∈ split cur path) : IsName c := by
  induction path generalizing cur with
  | nil =>
      unfold split at hc
      split_ifs at hc with hempty
      · simp at hc
      · rw [List.mem_singleton.mp hc]
        exact ⟨by simpa using hempty, hcur⟩
  | cons b path ih =>
      unfold split at hc
      split_ifs at hc with hslash hempty
      · exact ih hcur hc
      · rcases List.mem_cons.mp hc with rfl | hc
        · exact ⟨by simpa using hempty, hcur⟩
        · exact ih (by simp) hc
      · exact ih (by simpa [hcur] using Ne.symm hslash) hc

/-- The bytes of the components are bytes of the path. -/
theorem mem_of_mem_split {b : UInt8} (hc : c ∈ split cur path) (hb : b ∈ c) :
    b ∈ cur ∨ b ∈ path := by
  induction path generalizing cur with
  | nil =>
      unfold split at hc
      split_ifs at hc
      · simp at hc
      · exact Or.inl (List.mem_singleton.mp hc ▸ hb)
  | cons a path ih =>
      unfold split at hc
      split_ifs at hc
      · exact (ih hc).imp_right (List.mem_cons_of_mem a)
      · rcases List.mem_cons.mp hc with rfl | hc
        · exact Or.inl hb
        · exact Or.inr (List.mem_cons_of_mem a ((ih hc).resolve_left (by simp)))
      · rcases ih hc with h | h
        · rcases List.mem_append.mp h with h | h
          · exact Or.inl h
          · exact Or.inr (List.mem_singleton.mp h ▸ List.mem_cons_self)
        · exact Or.inr (List.mem_cons_of_mem a h)

/-- A component is read up to the next slash. -/
theorem split_append (hc : slash ∉ c) : split cur (c ++ path) = split (cur ++ c) path := by
  induction c generalizing cur with
  | nil => rw [List.nil_append, List.append_nil]
  | cons b c ih =>
      rw [List.mem_cons, not_or] at hc
      rw [List.cons_append, split, if_neg (Ne.symm hc.1), ih hc.2, List.append_assoc]
      rfl

theorem split_slash (hcur : cur ≠ []) : split cur (slash :: path) = cur :: split [] path := by
  rw [split, if_pos rfl, if_neg (by simpa using hcur)]

theorem split_slash_nil : split [] (slash :: path) = split [] path := by
  simp only [split, List.isEmpty_nil, if_true]

/-- Cutting the joined components gives them back. -/
theorem split_join (hcs : ∀ c ∈ cs, IsName c) :
    split [] (cs.flatMap fun i => slash :: i) = cs := by
  induction cs with
  | nil => rfl
  | cons c cs ih =>
      obtain ⟨hc, hcs⟩ := List.forall_mem_cons.mp hcs
      rw [List.flatMap_cons, List.cons_append, split_slash_nil, split_append hc.no_slash,
        List.nil_append]
      cases cs with
      | nil => simp [split, hc.ne_nil]
      | cons d cs =>
          rw [List.flatMap_cons, List.cons_append, split_slash_nil] at ih
          rw [List.flatMap_cons, List.cons_append, split_slash hc.ne_nil, ih hcs]

end Split

end PathT

section Comps

variable {path name : Bytes} {cs : List Bytes}

theorem isName_of_mem_comps {p : Bytes} : ∀ c ∈ comps p, IsName c :=
  fun _ hc => PathT.isName_of_mem_split (by simp) hc

theorem isName_of_concat (hpath : comps path = cs ++ [name]) : IsName name :=
  isName_of_mem_comps (p := path) name (by simp [hpath])

theorem isEmpty_of_concat (hpath : comps path = cs ++ [name]) : name.isEmpty = false := by
  simpa using (isName_of_concat hpath).ne_nil

theorem mem_of_mem_comps {c : Bytes} {b : UInt8} (hc : c ∈ comps path) (hb : b ∈ c) : b ∈ path :=
  (PathT.mem_of_mem_split hc hb).resolve_left (by simp)

theorem comps_join (hcs : ∀ c ∈ cs, IsName c) : comps (cs.flatMap fun i => slash :: i) = cs :=
  PathT.split_join hcs

theorem toString_eq_join (hcs : ∀ c ∈ cs, IsName c) :
    PathT.toString ⟨[] :: cs⟩ = cs.flatMap fun i => slash :: i := by
  have hone : ∀ i ∈ cs, (if i.isEmpty then [] else slash :: i) = slash :: i := fun i hi =>
    if_neg (by simpa using (hcs i hi).ne_nil)
  rw [PathT.toString, List.flatMap_cons]
  exact (List.nil_append _).trans (List.flatMap_congr hone)

theorem PathT.popEnd_concat :
    PathT.popEnd ⟨[] :: (cs ++ [name])⟩ = .ok (name, ⟨[] :: cs⟩) := by
  have hlast : ([] :: (cs ++ [name]) : List Bytes).getLast? = some name := by
    rw [← List.cons_append, List.getLast?_concat]
  have hdrop : ([] :: (cs ++ [name]) : List Bytes).dropLast = [] :: cs := by
    rw [← List.cons_append, List.dropLast_concat]
  unfold PathT.popEnd PathT.last
  rw [hlast, hdrop]
  rfl

/-- `path_t vpath(path); vpath.pop_end();` on a path with components. -/
theorem popEnd_ofString (hpath : comps path = cs ++ [name]) :
    (PathT.ofString path).popEnd = .ok (name, ⟨[] :: cs⟩) := by
  rw [← PathT.popEnd_concat, ← hpath, ← PathT.pathname_ofString]

/-- `pop_end` of the root. -/
theorem popEnd_ofString_nil (hpath : comps path = []) :
    (PathT.ofString path).popEnd = .ok ([], ⟨[]⟩) := by
  unfold PathT.popEnd PathT.last
  rw [PathT.pathname_ofString, hpath]
  rfl

end Comps

/-! ## Resolution -/

/-- The version a path leads into, and the components below it. -/
def liveComps : List Bytes → Except Exit (SnapshotVer × List Bytes)
  | [] => pure (curModifiableVer, [])
  | head :: rest =>
      if head = snapshotEntry then
        match rest with
        | [] => throw (.htmpfs .invalidDentryName)
        | version :: rest => pure (version, rest)
      else pure (curModifiableVer, head :: rest)

theorem suffix_of_liveComps {cs : List Bytes} {ver : SnapshotVer} {rest : List Bytes}
    (h : liveComps cs = .ok (ver, rest)) : rest <:+ cs := by
  cases cs with
  | nil =>
      obtain ⟨_, rfl⟩ := Prod.mk.inj (Program.pure_eq_ok.mp h)
      exact List.suffix_rfl
  | cons head tail =>
      simp only [liveComps] at h
      split_ifs at h
      · cases tail with
        | nil => simp at h
        | cons version tail =>
            obtain ⟨_, rfl⟩ := Prod.mk.inj (Program.pure_eq_ok.mp h)
            exact List.suffix_append [head, version] tail
      · obtain ⟨_, rfl⟩ := Prod.mk.inj (Program.pure_eq_ok.mp h)
        exact List.suffix_rfl

theorem mem_of_mem_liveComps {cs : List Bytes} {ver : SnapshotVer} {rest : List Bytes}
    (h : liveComps cs = .ok (ver, rest)) {c : Bytes} (hc : c ∈ rest) : c ∈ cs :=
  (suffix_of_liveComps h).mem hc

namespace View

/-- `get_inode_id_by_path` from the components of the path. -/
def resolveComps (w : View) (cs : List Bytes) : Except Exit ℕ := do
  let (version, rest) ← liveComps cs
  if version ≠ curModifiableVer ∧ rest = [] then
    if (w.listing version).isSome then pure rootInodeNumber
    else throw (.htmpfs .noSuchSnapshot)
  else w.walk version rootInodeNumber rest

section Resolve

variable {w : View} {path : Bytes} {cs : List Bytes} {ver : SnapshotVer} {id : ℕ}

theorem walk_nil_cons : w.walk ver id ([] :: cs) = w.walk ver id cs := by
  simp only [walk, List.isEmpty_nil, if_true]

theorem resolve_eq_resolveComps (hpath : path = [] ∨ path.head? = some slash) :
    w.resolve path = w.resolveComps (comps path) := by
  unfold resolve
  cases path with
  | nil => rfl
  | cons c rest =>
      obtain rfl : c = slash := by simpa using hpath
      simp only [if_true]
      unfold ifSnapshot resolveComps
      by_cases hroot : rest = []
      · subst hroot
        rfl
      · rw [if_neg (by simpa using hroot)]
        have hnames := isName_of_mem_comps (p := slash :: rest)
        rw [PathT.pathname_ofString, List.tail_cons]
        cases hcs : comps (slash :: rest) with
        | nil => rfl
        | cons head rest' =>
            simp only [liveComps]
            split_ifs with hhead
            · cases rest' with
              | nil => rfl
              | cons version rest' =>
                  have hrest : ∀ c ∈ rest', IsName c := fun c hc =>
                    hnames c (by rw [hcs]; simp [hc])
                  simp only [bind, Except.bind, pure, Except.pure, PathT.size,
                    PathT.pathname_ofString, comps_join hrest, List.length_cons,
                    walk_nil_cons]
                  simp [List.length_eq_zero_iff]
            · simp only [bind, Except.bind, pure, Except.pure, PathT.size,
                PathT.pathname_ofString, hcs, walk_nil_cons]
              simp

theorem resolve_toString (hcs : ∀ c ∈ cs, IsName c) :
    w.resolve (PathT.toString ⟨[] :: cs⟩) = w.resolveComps cs := by
  rw [toString_eq_join hcs, resolve_eq_resolveComps, comps_join hcs]
  cases cs with
  | nil => exact Or.inl rfl
  | cons c cs => exact Or.inr rfl

end Resolve

end View

/-- The version part of `if_snapshot`. -/
theorem ifSnapshot_fst (path : Bytes) :
    Prod.fst <$> ifSnapshot path = Prod.fst <$> liveComps (comps path) := by
  unfold ifSnapshot
  split_ifs with hroot
  · subst hroot
    rfl
  · rw [PathT.pathname_ofString, List.tail_cons]
    cases hcs : comps path with
    | nil => rfl
    | cons head rest =>
        simp only [liveComps]
        split_ifs with hhead
        · cases rest <;> rfl
        · rfl

end Htmpfs
