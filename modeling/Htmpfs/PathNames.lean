import Mathlib
import Htmpfs.Resolve

/-!
# Path names put together

A name is joined to the path of its directory, and a version is put in front of
a path; what is cut from either is what was put together.
-/

namespace Htmpfs

/-- The path of the name `n` in the directory `p`. -/
def joinPath (p n : Bytes) : Bytes :=
  if p.getLast? = some slash then p ++ n else p ++ slash :: n

section Join

variable {cur p q n : Bytes} {cs rest : List Bytes} {ver : SnapshotVer}

theorem PathT.split_append_slash :
    PathT.split cur (p ++ slash :: q) = PathT.split cur p ++ PathT.split [] q := by
  induction p generalizing cur with
  | nil =>
      simp only [List.nil_append, PathT.split, if_true]
      cases cur <;> rfl
  | cons c p ih =>
      rw [List.cons_append]
      simp only [PathT.split]
      split_ifs
      · exact ih
      · rw [ih]
        rfl
      · exact ih

theorem comps_append_slash : comps (p ++ slash :: q) = comps p ++ comps q :=
  PathT.split_append_slash

theorem comps_of_isName (hn : IsName n) : comps n = [n] := by
  have hjoin : comps ([n].flatMap fun i => slash :: i) = [n] := comps_join (by simpa using hn)
  rw [List.flatMap_cons, List.flatMap_nil, List.append_nil] at hjoin
  rw [← hjoin]
  exact (PathT.split_slash_nil).symm

theorem comps_joinPath (hn : IsName n) : comps (joinPath p n) = comps p ++ [n] := by
  unfold joinPath
  split_ifs with hlast
  · obtain ⟨front, rfl⟩ := List.getLast?_eq_some_iff.mp hlast
    rw [List.append_assoc, List.singleton_append, comps_append_slash, comps_append_slash,
      comps_of_isName hn]
    simp [comps, PathT.split]
  · rw [comps_append_slash, comps_of_isName hn]

theorem head?_joinPath (hp : p.head? = some slash) : (joinPath p n).head? = some slash := by
  obtain ⟨rest, rfl⟩ := List.head?_eq_some_iff.mp hp
  unfold joinPath
  split_ifs <;> rfl

theorem liveComps_concat (h : liveComps cs = .ok (ver, rest))
    (hn : cs = [] → n ≠ snapshotEntry) : liveComps (cs ++ [n]) = .ok (ver, rest ++ [n]) := by
  cases cs with
  | nil =>
      obtain ⟨rfl, rfl⟩ := Prod.mk.inj (Program.pure_eq_ok.mp h)
      simp only [List.nil_append, liveComps, if_neg (hn rfl)]
      rfl
  | cons head cs =>
      simp only [List.cons_append, liveComps] at h ⊢
      split_ifs at h ⊢
      · cases cs with
        | nil => simp at h
        | cons version cs =>
            obtain ⟨rfl, rfl⟩ := Prod.mk.inj (Program.pure_eq_ok.mp h)
            rfl
      · obtain ⟨rfl, rfl⟩ := Prod.mk.inj (Program.pure_eq_ok.mp h)
        rfl

theorem ifSnapshot_of_liveComps (h : liveComps (comps p) = .ok (ver, cs)) :
    ∃ rest, ifSnapshot p = .ok (ver, rest) := by
  have hfst := ifSnapshot_fst p
  rw [h] at hfst
  cases hver : ifSnapshot p with
  | error e => simp [hver, Functor.map, Except.map] at hfst
  | ok r =>
      obtain rfl : r.1 = ver := by simpa [hver, Functor.map, Except.map] using hfst
      exact ⟨r.2, rfl⟩

theorem liveComps_of_ifSnapshot {path : Bytes} {rest : Bytes}
    (h : ifSnapshot path = .ok (ver, rest)) :
    ∃ cs, liveComps (comps path) = .ok (ver, cs) := by
  have hfst := ifSnapshot_fst path
  rw [h] at hfst
  cases hlive : liveComps (comps path) with
  | error e => simp [hlive, Functor.map, Except.map] at hfst
  | ok q =>
      obtain rfl : ver = q.1 := by simpa [hlive, Functor.map, Except.map] using hfst
      exact ⟨q.2, rfl⟩

/-- What `if_snapshot` puts out has the components behind the version. -/
theorem liveComps_comps {out : Bytes} (h : ifSnapshot p = .ok (ver, out)) :
    liveComps (comps p) = .ok (ver, comps out) := by
  unfold ifSnapshot at h
  split_ifs at h with hroot
  · subst hroot
    obtain ⟨rfl, rfl⟩ := Prod.mk.inj (Program.pure_eq_ok.mp h)
    rfl
  · rw [PathT.pathname_ofString, List.tail_cons] at h
    cases hcs : comps p with
    | nil =>
        rw [hcs] at h
        obtain ⟨rfl, rfl⟩ := Prod.mk.inj (Program.pure_eq_ok.mp h)
        rfl
    | cons head rest =>
        have hnames := isName_of_mem_comps (p := p)
        rw [hcs] at h hnames
        simp only at h
        simp only [liveComps]
        split_ifs at h ⊢ with hhead
        · cases rest with
          | nil => exact absurd h Program.throw_ne_ok
          | cons version rest =>
              obtain ⟨rfl, rfl⟩ := Prod.mk.inj (Program.pure_eq_ok.mp h)
              rw [comps_join fun c hc => hnames c (by simp [hc])]
              rfl
        · obtain ⟨rfl, rfl⟩ := Prod.mk.inj (Program.pure_eq_ok.mp h)
          rw [hcs]
          rfl

theorem exists_ifSnapshot (h : liveComps (comps p) = .ok (ver, cs)) :
    ∃ out, ifSnapshot p = .ok (ver, out) ∧ (PathT.ofString out).pathname = [] :: cs := by
  obtain ⟨out, hout⟩ := ifSnapshot_of_liveComps h
  rw [liveComps_comps hout] at h
  refine ⟨out, hout, ?_⟩
  rw [PathT.pathname_ofString, (Prod.mk.inj (Except.ok.inj h)).2]

theorem ifSnapshot_of_liveComps_error {e : Exit} (h : liveComps (comps p) = .error e) :
    ifSnapshot p = .error e := by
  have hfst := ifSnapshot_fst p
  rw [h] at hfst
  cases hver : ifSnapshot p with
  | error e' =>
      obtain rfl : e' = e := by simpa [hver, Functor.map, Except.map] using hfst
      rfl
  | ok r => simp [hver, Functor.map, Except.map] at hfst

end Join

/-! ## Version prefixes -/

section Prefix

variable {path v : Bytes} {ver : SnapshotVer}

/-- The components behind `make_path_with_version`. -/
theorem comps_makePathWithVersion (hver : IsName ver) (hne : ver ≠ curModifiableVer)
    (hpath : path = [] ∨ path.head? = some slash) :
    comps (makePathWithVersion path ver) = snapshotEntry :: ver :: comps path := by
  have hstarts : comps (slash :: snapshotEntry ++ slash :: ver) = [snapshotEntry, ver] := by
    rw [comps_append_slash, comps_of_isName hver]
    rfl
  have heq : makePathWithVersion path ver = slash :: snapshotEntry ++ slash :: ver ++ path := by
    unfold makePathWithVersion
    rw [if_neg hne, List.append_assoc]
  rw [heq]
  rcases hpath with rfl | hhead
  · rw [List.append_nil, hstarts]
    rfl
  · obtain ⟨rest, rfl⟩ := List.head?_eq_some_iff.mp hhead
    rw [comps_append_slash, hstarts, comps, comps, PathT.split_slash_nil]
    rfl

/-- `if_snapshot` takes off what `make_path_with_version` puts on. -/
theorem ifSnapshot_makePathWithVersion (hnil : v ≠ []) (hslash : slash ∉ v)
    (hpath : path = [] ∨ path.head? = some slash)
    (hfirst : (PathT.ofString path).pathname.tail.head? ≠ some snapshotEntry) :
    ∃ out, ifSnapshot (makePathWithVersion path v) = .ok (v, out) ∧
      (PathT.ofString out).pathname = (PathT.ofString path).pathname := by
  rw [PathT.pathname_ofString, List.tail_cons] at hfirst
  have hver : IsName v := ⟨hnil, hslash⟩
  by_cases hcur : v = curModifiableVer
  · -- no prefix
    have heq : makePathWithVersion path v = path := if_pos hcur
    rw [heq, hcur, ifSnapshot]
    split_ifs with hroot
    · exact ⟨path, rfl, rfl⟩
    · rw [PathT.pathname_ofString, List.tail_cons]
      cases hcs : comps path with
      | nil =>
          refine ⟨[], rfl, ?_⟩
          rw [PathT.pathname_ofString]
          rfl
      | cons head rest =>
          have hhead : head ≠ snapshotEntry := by
            rintro rfl
            exact hfirst (by rw [hcs]; rfl)
          refine ⟨path, ?_, ?_⟩
          · simp only [if_neg hhead]
            rfl
          · rw [PathT.pathname_ofString, hcs]
  · have hcomps := comps_makePathWithVersion hver hcur hpath
    have hroot : makePathWithVersion path v ≠ [slash] := by
      intro heq
      rw [heq] at hcomps
      exact absurd hcomps (List.cons_ne_nil _ _).symm
    refine ⟨(comps path).flatMap fun i => slash :: i, ?_, ?_⟩
    · rw [ifSnapshot, if_neg hroot, PathT.pathname_ofString, List.tail_cons, hcomps]
      simp only [if_true]
      rfl
    · rw [PathT.pathname_ofString, PathT.pathname_ofString, comps_join isName_of_mem_comps]

/-- `"//a/"` in the version `v`. -/
theorem ifSnapshot_makePathWithVersion_slashes :
    ∃ out, ifSnapshot (makePathWithVersion [47, 47, 97, 47] [118]) = .ok ([118], out) ∧
      (PathT.ofString out).pathname = (PathT.ofString [47, 47, 97, 47]).pathname :=
  ifSnapshot_makePathWithVersion (by decide) (by decide) (Or.inr rfl) (by decide)

end Prefix

end Htmpfs
