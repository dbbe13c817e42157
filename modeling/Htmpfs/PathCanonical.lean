import Mathlib
import Htmpfs.Library.Fields
import Htmpfs.PathNames

/-!
# Parsing a path puts it into canonical form

The components of a path are the fields of its string at the slashes.  The
string of a path parses back to the components it was made of, and so does the
string of a path whose last components were popped.
-/

namespace Htmpfs

namespace PathT

/-- `pop_end` takes the path `p` to `q`. -/
def Pops (p q : PathT) : Prop := ∃ name, p.popEnd = .ok (name, q)

section Canonical

variable {cur s name : Bytes} {cs : List Bytes} {p q : PathT}

theorem split_eq_fields : split cur s = Fields.split slash cur s := by
  induction s generalizing cur with
  | nil =>
      unfold split Fields.split
      simp only [List.isEmpty_iff]
  | cons c s ih =>
      unfold split Fields.split
      simp only [List.isEmpty_iff, ih]

theorem map_locate_eq_comps : (Fields.locate slash 0 [] s).map Prod.snd = comps s := by
  rw [Fields.map_locate, comps, split_eq_fields]

/-- A path with the empty component in front and names behind it parses back. -/
theorem ofString_toString (hcs : ∀ c ∈ cs, IsName c) :
    (ofString (toString ⟨[] :: cs⟩)).pathname = [] :: cs := by
  rw [toString_eq_join hcs, pathname_ofString, comps_join hcs]

theorem Pops.pathname (h : Pops p q) : q.pathname = p.pathname.dropLast := by
  obtain ⟨name, hpop⟩ := h
  unfold popEnd last at hpop
  cases hlast : p.pathname.getLast? with
  | none =>
      rw [hlast] at hpop
      cases hpop
  | some last =>
      rw [hlast] at hpop
      cases hpop
      rfl

theorem pathname_prefix_of_pops (h : Relation.ReflTransGen Pops p q) :
    q.pathname <+: p.pathname := by
  induction h with
  | refl => exact List.prefix_refl _
  | tail _ hstep ih =>
      rw [hstep.pathname]
      exact (List.dropLast_prefix _).trans ih

/-- A path with two components or more is a path of names with a last one. -/
theorem exists_concat (h : Relation.ReflTransGen Pops (ofString s) p) (hsize : 2 ≤ p.size) :
    ∃ cs name, p = ⟨[] :: (cs ++ [name])⟩ ∧ ∀ c ∈ cs, IsName c := by
  have hstarts := pathname_prefix_of_pops h
  rw [pathname_ofString] at hstarts
  obtain ⟨pathname⟩ := p
  cases pathname with
  | nil => simp [size] at hsize
  | cons root rest =>
      obtain ⟨rfl, hrest⟩ := List.cons_prefix_cons.mp hstarts
      rcases List.eq_nil_or_concat rest with rfl | ⟨cs, name, rfl⟩
      · simp [size] at hsize
      · rw [List.concat_eq_append] at hrest ⊢
        refine ⟨cs, name, rfl, fun c hc => isName_of_mem_comps (p := s) c ?_⟩
        exact hrest.subset (List.mem_append_left [name] hc)

end Canonical

end PathT

/-- `path_t(s)` holds an empty component and then the non-empty stretches of `s` between
its slashes, in their order.  Parsing what `to_string` prints changes nothing, and after
`pop_end` it gives all components but the last. -/
theorem path_t_canonical (s : Bytes) :
    (∃ stretches : List (ℕ × Bytes), stretches.Pairwise (fun a b => a.1 < b.1) ∧
      (∀ k c, (k, c) ∈ stretches ↔ Fields.IsField slash s k c) ∧
      (PathT.ofString s).pathname = [] :: stretches.map Prod.snd) ∧
    (PathT.ofString (PathT.ofString s).toString).pathname = (PathT.ofString s).pathname ∧
    (PathT.ofString (PathT.ofString s).toString).toString = (PathT.ofString s).toString ∧
    ∀ p, Relation.ReflTransGen PathT.Pops (PathT.ofString s) p → 2 ≤ p.size →
      ∃ name q, p.popEnd = .ok (name, q) ∧ p.pathname = q.pathname ++ [name] ∧
        (PathT.ofString q.toString).pathname = p.pathname.dropLast := by
  have hback : (PathT.ofString (PathT.ofString s).toString).pathname =
      (PathT.ofString s).pathname := PathT.ofString_toString isName_of_mem_comps
  refine ⟨?_, hback, ?_, fun p hpops hsize => ?_⟩
  · refine ⟨Fields.locate slash 0 [] s, Fields.pairwise_locate List.not_mem_nil, ?_, ?_⟩
    · intro k c
      rw [Fields.mem_locate List.not_mem_nil]
      simp
    · rw [PathT.map_locate_eq_comps, PathT.pathname_ofString]
  · rw [PathT.toString, hback, PathT.toString]
  · obtain ⟨cs, name, rfl, hcs⟩ := PathT.exists_concat hpops hsize
    refine ⟨name, _, PathT.popEnd_concat, rfl, ?_⟩
    rw [PathT.ofString_toString hcs, ← List.cons_append, List.dropLast_concat]

example : (PathT.ofString [slash, slash, 97, slash, 98, slash]).pathname = [[], [97], [98]] := by
  decide

end Htmpfs
