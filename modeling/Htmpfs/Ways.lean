import Mathlib
import Htmpfs.NewNames
import Htmpfs.SoundRename

/-!
# Ways through the current directories

An entry of a directory is one step of a way.  What the operations do to the
entries tells what they do to the ways; where no inode is named twice and the
root is not named at all, there is one way to every inode.
-/

namespace Htmpfs

/-- The current directory `j` has an entry `c` for `k`. -/
def View.EntryAt (w : View) (j : ℕ) (c : Bytes) (k : ℕ) : Prop :=
  ∃ t, w.tableAt j curModifiableVer = .ok t ∧ View.lookup t c = .ok k

/-- The names lead from the root to the inode. -/
structure View.Way (w : View) (cs : List Bytes) (id : ℕ) : Prop where
  names : ∀ c ∈ cs, c ≠ []
  walk : w.walk curModifiableVer rootInodeNumber cs = .ok id

section Ways

variable {w w' : View} {id j k : ℕ} {c : Bytes} {cs ds : List Bytes}

theorem View.EntryAt.unique {k' : ℕ} (h : w.EntryAt j c k) (h' : w.EntryAt j c k') : k = k' := by
  obtain ⟨t, ht, hk⟩ := h
  obtain ⟨t', ht', hk'⟩ := h'
  obtain rfl := Except.ok.inj (ht.symm.trans ht')
  exact Except.ok.inj (hk.symm.trans hk')

theorem View.way_nil : w.Way [] id ↔ id = rootInodeNumber := by
  constructor
  · rintro ⟨_, hwalk⟩
    exact (Program.pure_eq_ok.mp hwalk).symm
  · rintro rfl
    exact ⟨by simp, rfl⟩

theorem View.way_concat : w.Way (cs ++ [c]) k ↔ c ≠ [] ∧ ∃ j, w.Way cs j ∧ w.EntryAt j c k := by
  constructor
  · rintro ⟨hnames, hwalk⟩
    have hc : c ≠ [] := hnames c (by simp)
    rw [View.walk_append] at hwalk
    obtain ⟨j, hj, hlast⟩ := Program.bind_eq_ok.mp hwalk
    exact ⟨hc, j, ⟨fun d hd => hnames d (List.mem_append_left _ hd), hj⟩,
      (View.walk_singleton hc).mp hlast⟩
  · rintro ⟨hc, j, ⟨hnames, hj⟩, hentry⟩
    refine ⟨fun d hd => ?_, ?_⟩
    · rcases List.mem_append.mp hd with hd | hd
      · exact hnames d hd
      · exact List.mem_singleton.mp hd ▸ hc
    · rw [View.walk_append]
      exact Program.bind_eq_ok.mpr ⟨j, hj, (View.walk_singleton hc).mpr hentry⟩

theorem View.Way.unique {k' : ℕ} (h : w.Way cs k) (h' : w.Way cs k') : k = k' :=
  Except.ok.inj (h.walk.symm.trans h'.walk)

/-- A way stays if its steps do. -/
theorem View.Way.kept (h : w.Way cs id)
    (hstep : ∀ front c j k, front ++ [c] <+: cs → w.Way front j → w.EntryAt j c k →
      w'.EntryAt j c k) : w'.Way cs id := by
  induction cs using List.reverseRecOn generalizing id with
  | nil => exact View.way_nil.mpr (View.way_nil.mp h)
  | append_singleton front c ih =>
      obtain ⟨hc, j, hfront, hentry⟩ := View.way_concat.mp h
      have hfront' := ih hfront fun front' c' j' k' hstarts =>
        hstep front' c' j' k' (hstarts.trans (List.prefix_append _ _))
      exact View.way_concat.mpr
        ⟨hc, j, hfront', hstep front c j id List.prefix_rfl hfront hentry⟩

theorem View.EntryAt.mem (h : w.EntryAt j c k) :
    ∃ t p, w.tableAt j curModifiableVer = .ok t ∧ p ∈ t ∧ p.pathname = c ∧ p.inodeId = k := by
  obtain ⟨t, ht, hk⟩ := h
  obtain ⟨p, hp, hname, hid⟩ := View.lookup_mem hk
  exact ⟨t, p, ht, hp, hname, hid⟩

/-- Only one entry names an inode. -/
theorem Named.entryAt_inj (h : Named w) (hentry : w.EntryAt j c k) {j' : ℕ} {c' : Bytes}
    (hentry' : w.EntryAt j' c' k) (hroot : k ≠ rootInodeNumber) : j = j' ∧ c = c' := by
  obtain ⟨t, p, ht, hp, rfl, rfl⟩ := hentry.mem
  obtain ⟨t', p', ht', hp', rfl, hid⟩ := hentry'.mem
  obtain ⟨rfl, rfl⟩ := h.unique j j' t t' ht ht' p hp p' hp' hid.symm hroot
  exact ⟨rfl, rfl⟩

theorem View.Rootless.entryAt_ne_root (h : w.Rootless) (hentry : w.EntryAt j c k) :
    k ≠ rootInodeNumber := by
  obtain ⟨t, p, ht, hp, _, rfl⟩ := hentry.mem
  exact h j _ t ht p hp

theorem Sound.entryAt_ne_root (h : Sound w) (hentry : w.EntryAt j c k) : k ≠ rootInodeNumber :=
  h.rootless.entryAt_ne_root hentry

/-- There is one way to an inode. -/
theorem Named.way_inj (h : Named w) (hrootless : w.Rootless) (hcs : w.Way cs id)
    (hds : w.Way ds id) : cs = ds := by
  induction cs using List.reverseRecOn generalizing ds id with
  | nil =>
      obtain rfl := View.way_nil.mp hcs
      rcases List.eq_nil_or_concat ds with rfl | ⟨front, c, rfl⟩
      · rfl
      · rw [List.concat_eq_append] at hds
        obtain ⟨_, j, _, hentry⟩ := View.way_concat.mp hds
        exact absurd rfl (hrootless.entryAt_ne_root hentry)
  | append_singleton front c ih =>
      obtain ⟨_, j, hfront, hentry⟩ := View.way_concat.mp hcs
      have hroot := hrootless.entryAt_ne_root hentry
      rcases List.eq_nil_or_concat ds with rfl | ⟨front', c', rfl⟩
      · exact absurd (View.way_nil.mp hds) hroot
      · rw [List.concat_eq_append] at hds ⊢
        obtain ⟨_, j', hfront', hentry'⟩ := View.way_concat.mp hds
        obtain ⟨rfl, rfl⟩ := h.entryAt_inj hentry hentry' hroot
        rw [ih hfront hfront']

theorem Sound.way_inj (h : Sound w) (hcs : w.Way cs id) (hds : w.Way ds id) : cs = ds :=
  h.toNamed.way_inj h.rootless hcs hds

/-- The way of a live path. -/
theorem View.way_of_resolveComps {rest : List Bytes}
    (hlive : liveComps cs = .ok (curModifiableVer, rest)) (hcs : ∀ c ∈ cs, IsName c) :
    w.resolveComps cs = .ok id ↔ w.Way rest id := by
  rw [View.resolveComps_of_live hlive]
  constructor
  · intro hwalk
    exact ⟨fun c hc => (hcs c (mem_of_mem_liveComps hlive hc)).ne_nil, hwalk⟩
  · exact fun hway => hway.walk

end Ways

/-! ## The entries after a step -/

section Steps

variable {w w' : View} {parent id j k : ℕ} {name c : Bytes}

theorem View.entryAt_congr (h : ∀ j, w'.tableAt j curModifiableVer = w.tableAt j curModifiableVer) :
    w'.EntryAt j c k ↔ w.EntryAt j c k := by
  unfold View.EntryAt
  rw [h]

theorem View.lookup_append_iff {t : List PathPack} (hnew : ∀ p ∈ t, p.pathname ≠ name) :
    View.lookup (t ++ [⟨name, id⟩]) c = .ok k ↔
      View.lookup t c = .ok k ∨ c = name ∧ k = id := by
  by_cases hc : c = name
  · subst hc
    rw [View.lookup_append_new hnew]
    have hnone : ¬ View.lookup t c = .ok k := by
      intro hk
      obtain ⟨p, hp, hname, _⟩ := View.lookup_mem hk
      exact hnew p hp hname
    simp [hnone, eq_comm]
  · have hfind : (t ++ [(⟨name, id⟩ : PathPack)]).find? (fun i => i.pathname = c) =
        t.find? fun i => i.pathname = c := by
      rw [List.find?_append]
      simp [Ne.symm hc]
    unfold View.lookup
    rw [hfind]
    simp [hc]

theorem View.MakesChild.entryAt_iff {isDir : Bool} (hstep : w.MakesChild parent name isDir id w')
    (hword : w.blockSize + 1 ≠ 2 ^ 64) (hfits : NameFits name) :
    w'.EntryAt j c k ↔ w.EntryAt j c k ∨ j = parent ∧ c = name ∧ k = id := by
  obtain ⟨t, ht, hnew, hfree, htables, hself⟩ := hstep.tables
  have hne := hstep.parent_ne
  unfold View.EntryAt
  by_cases hj : j = id
  · subst hj
    rw [View.tableAt_of_none hfree]
    rcases hself curModifiableVer with hnil | ⟨e, he, _⟩
    · simp [hnil, View.lookup, Ne.symm hne]
    · simp [he, Ne.symm hne]
  · rw [htables j _ hj]
    by_cases hjp : j = parent
    · subst hjp
      rw [if_pos ⟨rfl, rfl⟩, View.savedTable_append hword ht, if_pos hfits, ht]
      simp [View.lookup_append_iff hnew]
    · simp [hjp]

theorem View.AddsEntry.entryAt_iff (hstep : w.AddsEntry parent name id w') (hname : 0 ∉ name)
    (hid : id < 2 ^ 64) (hword : w.blockSize + 1 ≠ 2 ^ 64) (hfits : NameFits name) :
    w'.EntryAt j c k ↔ w.EntryAt j c k ∨ j = parent ∧ c = name ∧ k = id := by
  obtain ⟨t, ht, hnew, htables⟩ := hstep.tables hname hid
  unfold View.EntryAt
  rw [htables]
  by_cases hj : j = parent
  · subst hj
    rw [if_pos ⟨rfl, rfl⟩, View.savedTable_append hword ht, if_pos hfits, ht]
    simp [View.lookup_append_iff hnew]
  · simp [hj]

theorem View.lookup_eraseP_iff {t : List PathPack} (ht : (t.map (·.pathname)).Nodup) :
    View.lookup (t.eraseP fun i => i.pathname = name) c = .ok k ↔
      View.lookup t c = .ok k ∧ c ≠ name := by
  by_cases hc : c = name
  · subst hc
    simp only [ne_eq, not_true, and_false, iff_false]
    intro hk
    obtain ⟨p, hp, hname, _⟩ := View.lookup_mem hk
    exact ((mem_eraseP_key ht).mp hp).2 hname
  · rw [View.lookup_eraseP hc]
    simp [hc]

theorem View.DropsEntry.entryAt_iff (hstep : w.DropsEntry parent name w') (h : w.NamesNodup) :
    w'.EntryAt j c k ↔ w.EntryAt j c k ∧ ¬ (j = parent ∧ c = name) := by
  obtain ⟨t, p, ht, hp, htables⟩ := hstep.tables
  unfold View.EntryAt
  rw [htables]
  by_cases hj : j = parent
  · subst hj
    rw [if_pos ⟨rfl, rfl⟩, ht]
    simp [View.lookup_eraseP_iff (h _ _ t ht)]
  · simp [hj]

theorem View.RemovesChild.entryAt_iff {clean : Prop} (hstep : w.RemovesChild parent name w')
    (hl : Links clean w) (h : w.NamesNodup) :
    w'.EntryAt j c k ↔ w.EntryAt j c k ∧ ¬ (j = parent ∧ c = name) := by
  obtain ⟨t, p, target, ht, hp, _, hnil, hne, htables, _⟩ := hstep.tables hl
  unfold View.EntryAt
  rcases htables j curModifiableVer with hsame | ⟨rfl, hgone⟩
  · rw [hsame]
    by_cases hj : j = parent
    · subst hj
      rw [if_pos ⟨rfl, rfl⟩, ht]
      simp [View.lookup_eraseP_iff (h _ _ t ht)]
    · simp [hj]
  · -- the removed inode names nothing
    rw [hgone]
    simp only [reduceCtorEq, false_and, exists_false, false_iff, not_and]
    rintro ⟨t', ht', hk⟩
    obtain ⟨q, hq, _⟩ := View.lookup_mem hk
    rw [hnil t' ht'] at hq
    simp at hq

/-- The removed inode names nothing. -/
theorem View.RemovesChild.not_entryAt {clean : Prop} (hstep : w.RemovesChild parent name w')
    (hl : Links clean w) (hentry : w.EntryAt parent name id) : ¬ w.EntryAt id c k := by
  obtain ⟨t, p, target, ht, hp, _, hnil, hne, htables, _⟩ := hstep.tables hl
  obtain ⟨t', ht', hlookup⟩ := hentry
  obtain rfl := Except.ok.inj (ht.symm.trans ht')
  obtain ⟨q, hq, rfl⟩ := View.lookup_eq_ok.mp hlookup
  obtain rfl := Option.some.inj (hp.symm.trans hq)
  rintro ⟨u, hu, hk⟩
  obtain ⟨r, hr, _⟩ := View.lookup_mem hk
  rw [hnil u hu] at hr
  simp at hr

end Steps

end Htmpfs
