import Mathlib
import Htmpfs.Library.PathTree

/-!
# Where an action works, and which actions commute

An action on a volume works at and below some paths of the tree that changes, or
on one copy.  What it does is a function of the volume, so actions that work
apart can be done in either order.
-/

namespace Volume

open PathTree (Entry)

variable {ι α ν : Type*}

namespace Action

/-- The paths at and below which an action works. -/
def bases : Action ι α ν → List (List ι)
  | add p c _ => [p ++ [c]]
  | erase q => [q]
  | rewrite q _ => [q]
  | move src p c => [src, p ++ [c]]
  | freeze _ => []
  | discard _ => []

/-- The copy that an action makes or drops. -/
def version : Action ι α ν → Option ν
  | freeze v => some v
  | discard v => some v
  | _ => none

/-- The path is at or below a base. -/
def Within (a : Action ι α ν) (r : List ι) : Prop := ∃ x ∈ a.bases, x <+: r

/-- The actions work apart from each other, and not on the same copy; a copy is made of a whole
tree, so that nothing is changed in the tree beside it. -/
structure Independent (a b : Action ι α ν) : Prop where
  apart : ∀ x ∈ a.bases, ∀ y ∈ b.bases, ¬ x <+: y ∧ ¬ y <+: x
  versions : ∀ v, a.version = some v → b.version ≠ some v
  left : ∀ v, a = freeze v → b.bases = []
  right : ∀ v, b = freeze v → a.bases = []

section Regions

variable {a b : Action ι α ν} {r y : List ι}

theorem within_of_mem (hy : y ∈ a.bases) (hstarts : y <+: r) : a.Within r := ⟨y, hy, hstarts⟩

theorem Independent.symm (h : a.Independent b) : b.Independent a where
  apart x hx y hy := (h.apart y hy x hx).symm
  versions v hb ha := h.versions v ha hb
  left := h.right
  right := h.left

/-- The bases of one are not inside those of the other. -/
theorem Independent.not_within (h : a.Independent b) (hb : b.Within r) : ¬ a.Within r := by
  rintro ⟨x, hx, hxr⟩
  obtain ⟨y, hy, hyr⟩ := hb
  obtain ⟨hxy, hyx⟩ := h.apart x hx y hy
  rcases List.prefix_or_prefix_of_prefix hxr hyr with hstarts | hstarts
  · exact hxy hstarts
  · exact hyx hstarts

end Regions

section Effect

variable [DecidableEq ι]

/-- What an action makes of the tree that changes. -/
def effect (f : List ι → Option (Entry α)) : Action ι α ν → List ι → Option (Entry α)
  | add p c e, r => if r = p ++ [c] then some e else f r
  | erase q, r => if q <+: r then none else f r
  | rewrite q g, r => if r = q then (f r).map (Entry.map g) else f r
  | move src p c, r =>
      if src <+: r then none
      else if p ++ [c] <+: r then f (src ++ r.drop (p.length + 1)) else f r
  | freeze _, r => f r
  | discard _, r => f r

variable {a b : Action ι α ν} {f g : List ι → Option (Entry α)} {r : List ι}

/-- Outside its bases an action does nothing. -/
theorem effect_of_not_within (h : ¬ a.Within r) : a.effect f r = f r := by
  have hbase : ∀ y ∈ a.bases, ¬ y <+: r := fun y hy hstarts => h (within_of_mem hy hstarts)
  cases a with
  | add p c e =>
      refine if_neg ?_
      rintro rfl
      exact hbase _ List.mem_cons_self List.prefix_rfl
  | erase q => exact if_neg (hbase q List.mem_cons_self)
  | rewrite q g =>
      refine if_neg ?_
      rintro rfl
      exact hbase _ List.mem_cons_self List.prefix_rfl
  | move src p c =>
      rw [effect, if_neg (hbase src List.mem_cons_self),
        if_neg (hbase _ (List.mem_cons_of_mem _ List.mem_cons_self))]
  | freeze v => rfl
  | discard v => rfl

/-- What an action makes of its bases depends on what stands there. -/
theorem effect_congr (hagree : ∀ r, a.Within r → f r = g r) (h : a.Within r) :
    a.effect f r = a.effect g r := by
  cases a with
  | add p c e =>
      obtain ⟨y, hy, hstarts⟩ := h
      rw [effect, effect, hagree r ⟨y, hy, hstarts⟩]
  | erase q =>
      rw [effect, effect, hagree r h]
  | rewrite q g =>
      rw [effect, effect, hagree r h]
  | move src p c =>
      have hsource : ∀ rest, f (src ++ rest) = g (src ++ rest) := fun rest =>
        hagree _ ⟨src, List.mem_cons_self, List.prefix_append _ _⟩
      rw [effect, effect, hagree r h, hsource]
  | freeze v => exact hagree r h
  | discard v => exact hagree r h

/-- Actions that work apart make the same tree in either order. -/
theorem Independent.effect_comm (h : a.Independent b) :
    b.effect (a.effect f) r = a.effect (b.effect f) r := by
  by_cases ha : a.Within r
  · have hb : ¬ b.Within r := h.symm.not_within ha
    rw [effect_of_not_within hb]
    exact (effect_congr (fun r hr => effect_of_not_within (h.symm.not_within hr)) ha).symm
  · rw [effect_of_not_within ha]
    by_cases hb : b.Within r
    · exact effect_congr (fun r hr => effect_of_not_within (h.not_within hr)) hb
    · rw [effect_of_not_within hb, effect_of_not_within hb, effect_of_not_within ha]

end Effect

/-- What an action makes of the copies. -/
def copies [DecidableEq ν] (fs : Volume ι α ν) : Action ι α ν → ν → Option (PathTree ι α)
  | freeze v => Function.update fs.frozen v (some fs.current)
  | discard v => Function.update fs.frozen v none
  | _ => fs.frozen

theorem copies_of_ne [DecidableEq ν] {fs : Volume ι α ν} {a : Action ι α ν} {v : ν}
    (hv : a.version ≠ some v) : a.copies fs v = fs.frozen v := by
  cases a with
  | freeze u =>
      refine Function.update_of_ne ?_ _ _
      rintro rfl
      exact hv rfl
  | discard u =>
      refine Function.update_of_ne ?_ _ _
      rintro rfl
      exact hv rfl
  | _ => rfl

/-- The action can be done. -/
def Enabled (fs : Volume ι α ν) : Action ι α ν → Prop
  | add p c _ => fs.current.entry p = some .dir ∧ fs.current.entry (p ++ [c]) = none
  | erase q => q ≠ [] ∧ (fs.current.entry q).isSome ∧ fs.current.Ends q
  | rewrite q _ => ∃ x, fs.current.entry q = some (.leaf x)
  | move src p c => src ≠ [] ∧ (fs.current.entry src).isSome ∧
      fs.current.entry p = some .dir ∧ fs.current.Ends (p ++ [c])
  | freeze v => fs.frozen v = none
  | discard v => (fs.frozen v).isSome

end Action

/-! ## What is done is a function of the volume -/

variable [DecidableEq ι] [DecidableEq ν] {fs fs' fs₁ fs₂ : Volume ι α ν} {a b : Action ι α ν}
  {r src p q : List ι} {c d : ι} {v : ν}

theorem Does.spec (h : fs.Does a fs') : a.Enabled fs ∧
    (∀ r, fs'.current.entry r = a.effect fs.current.entry r) ∧ fs'.frozen = a.copies fs := by
  cases h with
  | add hp hnew => exact ⟨⟨hp, hnew⟩, fun _ => rfl, rfl⟩
  | erase hq hsome hends => exact ⟨⟨hq, hsome, hends⟩, fun _ => rfl, rfl⟩
  | rewrite hleaf => exact ⟨⟨_, hleaf⟩, fun _ => rfl, rfl⟩
  | move hsrc hsome hp hends => exact ⟨⟨hsrc, hsome, hp, hends⟩, fun _ => rfl, rfl⟩
  | freeze hnew => exact ⟨hnew, fun _ => rfl, rfl⟩
  | discard hsome => exact ⟨hsome, fun _ => rfl, rfl⟩

theorem exists_does (h : a.Enabled fs) : ∃ fs', fs.Does a fs' := by
  cases a with
  | add p c e => exact ⟨_, Does.add h.1 h.2⟩
  | erase q => exact ⟨_, Does.erase h.1 h.2.1 h.2.2⟩
  | rewrite q f =>
      obtain ⟨x, hleaf⟩ := h
      exact ⟨_, Does.rewrite hleaf⟩
  | move src p c =>
      obtain ⟨hsrc, hsome, hp, hends⟩ := h
      exact ⟨_, Does.move hsrc hsome hp hends⟩
  | freeze v => exact ⟨_, Does.freeze h⟩
  | discard v => exact ⟨_, Does.discard h⟩

theorem Does.unique (h : fs.Does a fs₁) (h' : fs.Does a fs₂) : fs₁ = fs₂ := by
  obtain ⟨_, hentry, hfrozen⟩ := h.spec
  obtain ⟨_, hentry', hfrozen'⟩ := h'.spec
  have hcurrent : fs₁.current = fs₂.current :=
    PathTree.ext (funext fun r => (hentry r).trans (hentry' r).symm)
  exact Volume.ext hcurrent (hfrozen.trans hfrozen'.symm)

theorem does_iff : fs.Does a fs' ↔ a.Enabled fs ∧
    (∀ r, fs'.current.entry r = a.effect fs.current.entry r) ∧ fs'.frozen = a.copies fs := by
  refine ⟨Does.spec, ?_⟩
  rintro ⟨henabled, hentry, hfrozen⟩
  obtain ⟨fs₀, hdoes⟩ := exists_does henabled
  obtain ⟨_, hentry₀, hfrozen₀⟩ := hdoes.spec
  have hcurrent : fs'.current = fs₀.current :=
    PathTree.ext (funext fun r => (hentry r).trans (hentry₀ r).symm)
  rwa [Volume.ext hcurrent (hfrozen.trans hfrozen₀.symm)]

/-- The frame of an action. -/
theorem Does.entry_eq (h : fs.Does a fs') (hr : ¬ a.Within r) :
    fs'.current.entry r = fs.current.entry r := by
  rw [h.spec.2.1, Action.effect_of_not_within hr]

theorem Does.frozen_eq (h : fs.Does a fs') (hv : a.version ≠ some v) :
    fs'.frozen v = fs.frozen v := by
  rw [h.spec.2.2, Action.copies_of_ne hv]

/-- What an action needs is not touched by those that work apart from it. -/
theorem Does.enabled_iff (h : fs.Does a fs') (hind : a.Independent b) :
    b.Enabled fs' ↔ b.Enabled fs := by
  have hentry : ∀ y ∈ b.bases, fs'.current.entry y = fs.current.entry y := by
    intro y hy
    exact h.entry_eq (hind.not_within (Action.within_of_mem hy List.prefix_rfl))
  have hends : ∀ y ∈ b.bases, fs'.current.Ends y ↔ fs.current.Ends y := by
    intro y hy
    refine forall_congr' fun c => ?_
    rw [h.entry_eq (hind.not_within (Action.within_of_mem hy (List.prefix_append _ _)))]
  have hparent : ∀ p c, p ++ [c] ∈ b.bases → fs'.current.entry p = fs.current.entry p := by
    intro p c hy
    apply h.entry_eq
    rintro ⟨x, hx, hstarts⟩
    exact (hind.apart x hx _ hy).1 (hstarts.trans (List.prefix_append _ _))
  cases b with
  | add p c e =>
      rw [Action.Enabled, Action.Enabled, hparent p c List.mem_cons_self, hentry _ List.mem_cons_self]
  | erase q =>
      rw [Action.Enabled, Action.Enabled, hentry q List.mem_cons_self, hends q List.mem_cons_self]
  | rewrite q f =>
      rw [Action.Enabled, Action.Enabled, hentry q List.mem_cons_self]
  | move src p c =>
      have hlast : p ++ [c] ∈ (Action.move src p c : Action ι α ν).bases :=
        List.mem_cons_of_mem _ List.mem_cons_self
      rw [Action.Enabled, Action.Enabled, hentry src List.mem_cons_self, hparent p c hlast, hends _ hlast]
  | freeze v =>
      rw [Action.Enabled, Action.Enabled, h.frozen_eq fun hv => hind.versions v hv rfl]
  | discard v =>
      rw [Action.Enabled, Action.Enabled, h.frozen_eq fun hv => hind.versions v hv rfl]

/-- A copy is the same before and after what works apart from making it. -/
theorem Does.current_eq (h : fs.Does a fs') (hnone : a.bases = []) :
    fs'.current = fs.current := by
  refine PathTree.ext (funext fun r => h.entry_eq ?_)
  rintro ⟨x, hx, _⟩
  rw [hnone] at hx
  exact absurd hx (by simp)

/-- Actions that work apart commute. -/
theorem Does.comm (ha : fs.Does a fs₁) (hb : fs₁.Does b fs₂) (hind : a.Independent b) :
    ∃ fs', fs.Does b fs' ∧ fs'.Does a fs₂ := by
  obtain ⟨henabled, hentry₁, hfrozen₁⟩ := ha.spec
  obtain ⟨henabled', hentry₂, hfrozen₂⟩ := hb.spec
  obtain ⟨fs', hb'⟩ := exists_does ((ha.enabled_iff hind).mp henabled')
  obtain ⟨_, hentry', hfrozen'⟩ := hb'.spec
  refine ⟨fs', hb', does_iff.mpr ⟨(hb'.enabled_iff hind.symm).mpr henabled, fun r => ?_, ?_⟩⟩
  · rw [hentry₂, funext hentry₁, funext hentry', hind.effect_comm]
  · funext v
    rw [hfrozen₂]
    by_cases hbv : b.version = some v
    · -- the copy of the other action
      have hav : a.version ≠ some v := fun hv => hind.versions v hv hbv
      rw [Action.copies_of_ne hav, hfrozen']
      cases b with
      | freeze u =>
          obtain rfl := Option.some.inj hbv
          simp only [Action.copies, Function.update_self]
          rw [ha.current_eq (hind.right u rfl)]
      | discard u =>
          obtain rfl := Option.some.inj hbv
          simp only [Action.copies, Function.update_self]
      | _ => simp [Action.version] at hbv
    · rw [Action.copies_of_ne hbv, hfrozen₁]
      by_cases hav : a.version = some v
      · cases a with
        | freeze u =>
            obtain rfl := Option.some.inj hav
            simp only [Action.copies, Function.update_self]
            rw [hb'.current_eq (hind.left u rfl)]
        | discard u =>
            obtain rfl := Option.some.inj hav
            simp only [Action.copies, Function.update_self]
        | _ => simp [Action.version] at hav
      · rw [Action.copies_of_ne hav, Action.copies_of_ne hav, hfrozen', Action.copies_of_ne hbv]

/-! ## There and back -/

/-- What was moved to where nothing stood can be moved back. -/
theorem Does.move_back (h : fs.Does (.move (q ++ [d]) p c) fs')
    (hnew : fs.current.entry (p ++ [c]) = none) (hbelow : ¬ q ++ [d] <+: p) :
    fs'.Does (.move (p ++ [c]) q d) fs := by
  obtain ⟨⟨_, hsome, hp, _⟩, hentry, hfrozen⟩ := h.spec
  have hgone : ∀ r, p ++ [c] <+: r → fs.current.entry r = none := by
    rintro r ⟨rest, rfl⟩
    rw [← Option.not_isSome_iff_eq_none]
    intro hrest
    by_cases hnil : rest = []
    · rw [hnil, List.append_nil, hnew] at hrest
      exact absurd hrest (by simp)
    · rw [PathTree.entry_eq_dir hrest hnil] at hnew
      exact absurd hnew (by simp)
  have hapart : ¬ q ++ [d] <+: p ++ [c] := by
    rw [List.prefix_concat_iff]
    rintro (heq | hstarts)
    · rw [heq, hnew] at hsome
      exact absurd hsome (by simp)
    · exact hbelow hstarts
  have hnot : ¬ p ++ [c] <+: q ++ [d] := fun hstarts => by
    rw [hgone _ hstarts] at hsome
    exact absurd hsome (by simp)
  have hdir : fs.current.entry q = some .dir := fs.current.parent q d hsome
  have hnotq : ¬ p ++ [c] <+: q := fun hstarts => by
    rw [hgone _ hstarts] at hdir
    exact absurd hdir (by simp)
  have hselfq : ¬ q ++ [d] <+: q := fun hstarts => by
    have hle := hstarts.length_le
    simp at hle
  -- at and below the new place stands what stood at and below the old one
  have hmoved : ∀ rest, fs'.current.entry (p ++ [c] ++ rest) =
      fs.current.entry (q ++ [d] ++ rest) := by
    intro rest
    have hsrc : ¬ q ++ [d] <+: p ++ [c] ++ rest := by
      intro hstarts
      rcases List.prefix_or_prefix_of_prefix hstarts (List.prefix_append _ rest) with hpre | hpre
      · exact hapart hpre
      · exact hnot hpre
    have hlen : p.length + 1 = (p ++ [c]).length := by simp
    rw [hentry, Action.effect, if_neg hsrc, if_pos (List.prefix_append _ _), hlen, List.drop_left]
  have hold : ∀ r, q ++ [d] <+: r → fs'.current.entry r = none := by
    intro r hstarts
    rw [hentry, Action.effect, if_pos hstarts]
  refine does_iff.mpr ⟨⟨by simp, ?_, ?_, fun e => hold _ (List.prefix_append _ _)⟩, fun r => ?_, ?_⟩
  · have hself := hmoved []
    rw [List.append_nil, List.append_nil] at hself
    rwa [hself]
  · rw [hentry, Action.effect, if_neg hselfq, if_neg hnotq, hdir]
  · rw [Action.effect]
    split_ifs with hdst hsrc
    · exact hgone r hdst
    · obtain ⟨rest, rfl⟩ := hsrc
      have hlen : q.length + 1 = (q ++ [d]).length := by simp
      rw [hlen, List.drop_left, hmoved]
    · rw [hentry, Action.effect, if_neg hsrc, if_neg hdst]
  · exact hfrozen.symm

end Volume
