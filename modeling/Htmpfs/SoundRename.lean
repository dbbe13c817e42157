import Mathlib
import Htmpfs.DoRename

/-!
# Sound directories under `do_rename`

The entry that moves is for a while in two tables, or in none when source and
target are one entry; afterwards the tables and the version lists agree again.
-/

namespace Htmpfs

section Entries

variable {w w' : View} {parent id : ℕ} {name : Bytes} {clean : Prop}

theorem View.AddsEntry.view_eq (hstep : w.AddsEntry parent name id w') :
    ∃ f, w' = w.setCurrent parent f := by
  rcases hstep with ⟨t, ht, hnew, hsize⟩
  exact ⟨_, rfl⟩

theorem View.DropsEntry.view_eq (hstep : w.DropsEntry parent name w') :
    ∃ f, w' = w.setCurrent parent f := by
  rcases hstep with ⟨t, p, ht, hp, hsize⟩
  exact ⟨_, rfl⟩

theorem Links.addsEntry (h : Links clean w) (hstep : w.AddsEntry parent name id w') :
    Links clean w' := by
  obtain ⟨f, rfl⟩ := hstep.view_eq
  exact h.setCurrent

theorem Links.dropsEntry (h : Links clean w) (hstep : w.DropsEntry parent name w') :
    Links clean w' := by
  obtain ⟨f, rfl⟩ := hstep.view_eq
  exact h.setCurrent

theorem View.AddsEntry.listing_eq (hstep : w.AddsEntry parent name id w') :
    w'.listing = w.listing := by
  obtain ⟨f, rfl⟩ := hstep.view_eq
  rfl

theorem View.DropsEntry.listing_eq (hstep : w.DropsEntry parent name w') :
    w'.listing = w.listing := by
  obtain ⟨f, rfl⟩ := hstep.view_eq
  rfl

theorem View.AddsEntry.grows (hstep : w.AddsEntry parent name id w') (hname : 0 ∉ name)
    (hid : id < 2 ^ 64) : w.Grows (fun j p => j = parent ∧ p = ⟨name, id⟩) w' := by
  obtain ⟨t₀, ht₀, hnew, htables⟩ := hstep.tables hname hid
  intro j u t ht
  rw [htables] at ht
  split_ifs at ht with hcase
  · obtain ⟨rfl, rfl⟩ := hcase
    obtain ⟨_, _, rfl⟩ := View.savedTable_eq_ok.mp ht
    exact Or.inr ⟨_, t₀, ht₀, Or.inr ⟨_, ⟨rfl, rfl⟩, hnew, rfl⟩⟩
  · exact Or.inr ⟨u, t, ht, Or.inl (List.Sublist.refl _)⟩

theorem View.DropsEntry.grows (hstep : w.DropsEntry parent name w') :
    w.Grows (fun _ _ => False) w' := by
  obtain ⟨t₀, p, ht₀, hp, htables⟩ := hstep.tables
  intro j u t ht
  rw [htables] at ht
  split_ifs at ht with hcase
  · obtain ⟨rfl, rfl⟩ := hcase
    obtain rfl := Except.ok.inj ht
    exact Or.inr ⟨_, t₀, ht₀, Or.inl List.eraseP_sublist⟩
  · exact Or.inr ⟨u, t, ht, Or.inl (List.Sublist.refl _)⟩

theorem View.AddsEntry.defined (hstep : w.AddsEntry parent name id w') (hname : 0 ∉ name)
    (hid : id < 2 ^ 64) (hfits : NameFits name) (h : ∀ j u, w.tableAt j u ≠ .error .undefined) :
    ∀ j u, w'.tableAt j u ≠ .error .undefined := by
  obtain ⟨t₀, ht₀, _, htables⟩ := hstep.tables hname hid
  intro j u hundef
  rw [htables] at hundef
  split_ifs at hundef
  · exact View.savedTable_defined
      ((forall_append_fits name id (View.tableAt_wellFormed ht₀)).mpr hfits) hundef
  · exact h j u hundef

theorem View.DropsEntry.defined (hstep : w.DropsEntry parent name w')
    (h : ∀ j u, w.tableAt j u ≠ .error .undefined) : ∀ j u, w'.tableAt j u ≠ .error .undefined := by
  obtain ⟨_, _, _, _, htables⟩ := hstep.tables
  intro j u hundef
  rw [htables] at hundef
  split_ifs at hundef
  exact h j u hundef

/-- The root is not removed while some way starts from it. -/
theorem View.RemovesChild.removed_ne_root (hstep : w.RemovesChild parent name w')
    (hl : Links clean w) (hroot : ∃ t p, w.tableAt rootInodeNumber curModifiableVer = .ok t ∧ p ∈ t)
    {t : List PathPack} {p : PathPack} (ht : w.tableAt parent curModifiableVer = .ok t)
    (hp : (t.find? fun i => i.pathname = name) = some p) : p.inodeId ≠ rootInodeNumber := by
  obtain ⟨t₁, q, target, ht₁, hq, _, hnil, _⟩ := hstep.tables hl
  obtain rfl := Except.ok.inj (ht.symm.trans ht₁)
  obtain rfl := Option.some.inj (hp.symm.trans hq)
  intro hid
  obtain ⟨t', p', ht', hp'⟩ := hroot
  rw [hnil t' (hid ▸ ht')] at hp'
  simp at hp'

/-- What a way leads to from the root, and names something, shows that the root does too. -/
theorem View.exists_root_entry {front : List Bytes} {q : ℕ} {t : List PathPack} {p : PathPack}
    (hway : w.walk curModifiableVer rootInodeNumber front = .ok q)
    (ht : w.tableAt q curModifiableVer = .ok t) (hp : p ∈ t) :
    ∃ t p, w.tableAt rootInodeNumber curModifiableVer = .ok t ∧ p ∈ t := by
  rcases View.walk_start hway with rfl | ⟨t', p', ht', hp'⟩
  · exact ⟨t, p, ht, hp⟩
  · exact ⟨t', p', ht', hp'⟩

end Entries

/-- A rename taken apart: the target may be removed, the entry is added, the old one dropped. -/
structure View.RenameParts (w : View) (path name originalName targetName : Bytes)
    (id parent originalParent : ℕ) (t : List PathPack) (w₀ w₁ w' : View) : Prop where
  args : ∃ cs ds, w.RenameArgs path name cs originalName ds targetName id parent ∧
    w.resolveComps cs = .ok originalParent
  source : w.resolve path = .ok id
  id_lt : id < 2 ^ 64
  mem : targetName ∈ comps name
  zero : 0 ∉ targetName
  table : w.tableAt originalParent curModifiableVer = .ok t
  lookup : View.lookup t originalName = .ok id
  rootEntry : ∃ t p, w.tableAt rootInodeNumber curModifiableVer = .ok t ∧ p ∈ t
  removes : w₀ = w ∨ w.RemovesChild parent targetName w₀
  adds : w₀.AddsEntry parent targetName id w₁
  drops : w₁.DropsEntry originalParent originalName w'

section Renames

variable {w w' w₀ w₁ : View} {path name originalName targetName : Bytes}
  {id parent originalParent : ℕ} {t : List PathPack} {clean : Prop}

theorem View.Renames.parts (hstep : w.Renames path name w') (hname : 0 ∉ name) :
    ∃ originalName targetName id parent originalParent t w₀ w₁,
      w.RenameParts path name originalName targetName id parent originalParent t w₀ w₁ w' := by
  rcases hstep with ⟨hargs, hrelink, horiginal, ⟨t, ht, hlookup⟩, hdrop⟩
  rename_i cs originalName ds targetName id parent w₁ originalParent
  have hcs : cs ≠ [snapshotEntry] := by
    rintro rfl
    rw [View.resolveComps_snapshotEntry] at horiginal
    simp at horiginal
  obtain ⟨front, q, t', hfront, hway, ht', hlookup'⟩ := hargs.original hcs
  obtain ⟨p', hp', _⟩ := View.lookup_mem hlookup'
  have hmem : targetName ∈ comps name := by simp [hargs.hname]
  obtain ⟨w₀, hw₀, hadd⟩ : ∃ w₀, (w₀ = w ∨ w.RemovesChild parent targetName w₀) ∧
      w₀.AddsEntry parent targetName id w₁ := by
    rcases hrelink with hadd | ⟨w₀, hremove, hadd⟩
    · exact ⟨w, Or.inl rfl, hadd⟩
    · exact ⟨w₀, Or.inr hremove, hadd⟩
  exact ⟨originalName, targetName, id, parent, originalParent, t, w₀, w₁,
    { args := ⟨cs, ds, hargs, horiginal⟩, source := hargs.source, id_lt := View.lookup_lt ht hlookup, mem := hmem,
      zero := fun hz => hname (mem_of_mem_comps hmem hz), table := ht, lookup := hlookup,
      rootEntry := View.exists_root_entry hway ht' hp', removes := hw₀, adds := hadd,
      drops := hdrop }⟩

namespace View.RenameParts

variable (hparts : w.RenameParts path name originalName targetName id parent originalParent t
  w₀ w₁ w')

include hparts

theorem grows (hl : Links clean w) : w.Grows (fun _ _ => False) w₀ := by
  rcases hparts.removes with rfl | hremove
  · exact fun j u t ht => Or.inr ⟨u, t, ht, Or.inl (List.Sublist.refl _)⟩
  · exact hremove.grows hl

theorem names (hl : Links clean w) (hnames : w.NamesNodup) : w'.NamesNodup :=
  hparts.drops.grows.names ((hparts.adds.grows hparts.zero hparts.id_lt).names
    ((hparts.grows hl).names hnames))

theorem entries (hl : Links clean w) {P : ℕ → PathPack → Prop} (hentries : w.Entries P)
    (hnew : P parent ⟨targetName, id⟩) : w'.Entries P := by
  refine hparts.drops.grows.entries ?_ fun _ _ hfalse => hfalse.elim
  refine (hparts.adds.grows hparts.zero hparts.id_lt).entries ?_ ?_
  · exact (hparts.grows hl).entries hentries fun _ _ hfalse => hfalse.elim
  · rintro j p ⟨rfl, rfl⟩
    exact hnew

theorem defined (hl : Links clean w) (hfits : NameFits targetName)
    (h : ∀ j u, w.tableAt j u ≠ .error .undefined) : ∀ j u, w'.tableAt j u ≠ .error .undefined := by
  refine hparts.drops.defined (hparts.adds.defined hparts.zero hparts.id_lt hfits ?_)
  rcases hparts.removes with rfl | hremove
  · exact h
  · exact hremove.defined hl h

/-- Unless source and target are one entry, the old entry is there when the new one is added. -/
theorem original (hl : Links clean w)
    (hne : ¬ (originalParent = parent ∧ originalName = targetName)) :
    ∃ t₀, w₀.tableAt originalParent curModifiableVer = .ok t₀ ∧
      View.lookup t₀ originalName = .ok id := by
  rcases hparts.removes with rfl | hremove
  · exact ⟨t, hparts.table, hparts.lookup⟩
  · exact hremove.keeps_entry hl hparts.table hparts.lookup hne

/-- If source and target are one entry, it is gone in the end. -/
theorem same_entry (hsame : originalParent = parent ∧ originalName = targetName) :
    ∀ j u, w'.tableAt j u = w₀.tableAt j u := by
  obtain ⟨rfl, rfl⟩ := hsame
  obtain ⟨t₀, ht₀, hnew, hadded⟩ := hparts.adds.tables hparts.zero hparts.id_lt
  obtain ⟨t₁, p, ht₁, hp, hdropped⟩ := hparts.drops.tables
  intro j u
  rw [hdropped]
  split_ifs with hcase
  · obtain ⟨rfl, rfl⟩ := hcase
    rw [hadded, if_pos ⟨rfl, rfl⟩] at ht₁
    obtain ⟨_, _, rfl⟩ := View.savedTable_eq_ok.mp ht₁
    rw [ht₀, List.eraseP_append_right _ (by simpa using hnew)]
    simp
  · rw [hadded, if_neg hcase]

theorem links_after (h₀ : Links clean w₀) : Links clean w' :=
  (h₀.addsEntry hparts.adds).dropsEntry hparts.drops

theorem listing_after : w'.listing = w₀.listing :=
  hparts.drops.listing_eq.trans hparts.adds.listing_eq

/-- An entry of a current table is an old one, though not the one that moved, or the new one. -/
theorem mem_table (hnames : w₀.NamesNodup) {j : ℕ} {u : SnapshotVer} {t' : List PathPack}
    (ht' : w'.tableAt j u = .ok t') {p : PathPack} (hp : p ∈ t') :
    (∃ t₀, w₀.tableAt j u = .ok t₀ ∧ p ∈ t₀ ∧
        (u = curModifiableVer → j = originalParent → p.pathname ≠ originalName)) ∨
      j = parent ∧ u = curModifiableVer ∧ p = ⟨targetName, id⟩ := by
  obtain ⟨t₀, ht₀, hnew, hadded⟩ := hparts.adds.tables hparts.zero hparts.id_lt
  obtain ⟨t₁, q, ht₁, hq, hdropped⟩ := hparts.drops.tables
  have hnames₁ := (hparts.adds.grows hparts.zero hparts.id_lt).names hnames
  -- the table before the old entry was dropped
  obtain ⟨t₂, ht₂, hp₂, hkept⟩ : ∃ t₂, w₁.tableAt j u = .ok t₂ ∧ p ∈ t₂ ∧
      (u = curModifiableVer → j = originalParent → p.pathname ≠ originalName) := by
    rw [hdropped] at ht'
    split_ifs at ht' with hcase
    · obtain ⟨rfl, rfl⟩ := hcase
      rw [← Except.ok.inj ht'] at hp
      obtain ⟨hp₁, hname⟩ := (mem_eraseP_key (hnames₁ _ _ _ ht₁)).mp hp
      exact ⟨t₁, ht₁, hp₁, fun _ _ => hname⟩
    · exact ⟨t', ht', hp, fun hu hj => absurd ⟨hj, hu⟩ hcase⟩
  rw [hadded] at ht₂
  split_ifs at ht₂ with hcase
  · obtain ⟨rfl, rfl⟩ := hcase
    obtain ⟨_, _, rfl⟩ := View.savedTable_eq_ok.mp ht₂
    rcases List.mem_append.mp hp₂ with hp₂ | hp₂
    · exact Or.inl ⟨t₀, ht₀, hp₂, hkept⟩
    · exact Or.inr ⟨rfl, rfl, List.mem_singleton.mp hp₂⟩
  · exact Or.inl ⟨t₂, ht₂, hp₂, hkept⟩

end View.RenameParts

theorem Named.renames (h : Named w) (hstep : w.Renames path name w') (hname : 0 ∉ name) :
    Named w' := by
  obtain ⟨originalName, targetName, id, parent, originalParent, t, w₀, w₁, hparts⟩ :=
    hstep.parts hname
  have h₀ : Named w₀ := by
    rcases hparts.removes with rfl | hremove
    · exact h
    · exact h.removesChild hremove fun t p ht hp =>
        hremove.removed_ne_root h.links hparts.rootEntry ht hp
  have hlinks := hparts.links_after h₀.links
  have hlists : ∀ u e, w₀.Lists u e → w'.Lists u e := by
    intro u e he
    unfold View.Lists
    rw [hparts.listing_after]
    exact he
  by_cases hsame : originalParent = parent ∧ originalName = targetName
  · refine h₀.of_tables hlinks (fun u => u) rfl (fun u hu => ?_) fun j u t ht => ?_
    · exact ⟨hparts.listing_after ▸ hu, hlists u⟩
    · exact ⟨hparts.same_entry hsame j u ▸ ht, hlists u⟩
  obtain ⟨t₀, ht₀, hlookup⟩ := hparts.original h.links hsame
  obtain ⟨q₀, hq₀, hq₀name, hq₀id⟩ := View.lookup_mem hlookup
  -- the moved entry is the only one that led to its inode
  have hmoved : ∀ j t' p, w₀.tableAt j curModifiableVer = .ok t' → p ∈ t' →
      (j = originalParent → p.pathname ≠ originalName) → p.inodeId ≠ rootInodeNumber →
      p.inodeId ≠ id := by
    intro j t' p ht' hp hkept hroot hid
    obtain ⟨rfl, rfl⟩ := h₀.unique _ _ _ _ ht' ht₀ p hp q₀ hq₀ (hid.trans hq₀id.symm) hroot
    exact hkept rfl hq₀name
  refine { links := hlinks, rooted := ?_, names := hparts.names h.links h.names, listed := ?_,
           unique := ?_ }
  · intro u hu
    rw [hparts.listing_after] at hu
    exact hlists u _ (h₀.rooted u hu)
  · intro j u t' ht' p hp
    have hold : w₀.ListsId u p.inodeId := by
      rcases hparts.mem_table h₀.names ht' hp with ⟨t₂, ht₂, hp₂, _⟩ | ⟨rfl, rfl, rfl⟩
      · exact h₀.listed j u t₂ ht₂ p hp₂
      · exact hq₀id ▸ h₀.listed originalParent _ t₀ ht₀ q₀ hq₀
    obtain ⟨e, he, hid⟩ := hold
    exact ⟨e, hlists u e he, hid⟩
  · intro i j t₁ t₂ ht₁ ht₂ p hp q hq hpq hroot
    rcases hparts.mem_table h₀.names ht₁ hp with ⟨t₃, ht₃, hp₃, hkept⟩ | ⟨rfl, _, rfl⟩
    · rcases hparts.mem_table h₀.names ht₂ hq with ⟨t₄, ht₄, hq₄, _⟩ | ⟨rfl, _, rfl⟩
      · exact h₀.unique i j t₃ t₄ ht₃ ht₄ p hp₃ q hq₄ hpq hroot
      · exact absurd hpq (hmoved i t₃ p ht₃ hp₃ (hkept rfl) hroot)
    · rcases hparts.mem_table h₀.names ht₂ hq with ⟨t₄, ht₄, hq₄, hkept⟩ | ⟨rfl, _, rfl⟩
      · exact absurd hpq.symm (hmoved j t₄ q ht₄ hq₄ (hkept rfl) (hpq ▸ hroot))
      · exact ⟨rfl, rfl⟩

theorem Sound.renames (h : Sound w) (hstep : w.Renames path name w') (hname : 0 ∉ name)
    (hfits : ∀ c ∈ comps name, NameFits c) (hroot : w.resolve path ≠ .ok rootInodeNumber) :
    Sound w' := by
  obtain ⟨originalName, targetName, id, parent, originalParent, t, w₀, w₁, hparts⟩ :=
    hstep.parts hname
  refine { toNamed := h.toNamed.renames hstep hname, rootless := ?_, defined := ?_ }
  · refine hparts.entries h.links h.rootless ?_
    rintro rfl
    exact hroot hparts.source
  · exact hparts.defined h.links (hfits _ hparts.mem) h.defined

/-- Where names differ, a removed name does not occur again. -/
theorem View.RemovesChild.not_hasName (hstep : w.RemovesChild parent targetName w')
    (hl : Links clean w) (hnames : w.NamesNodup) : ¬ w'.HasName parent targetName := by
  rintro ⟨t', ht', p, hp, hpname⟩
  obtain ⟨t₁, q, target, ht₁, hq, _, _, hne, htables, _⟩ := hstep.tables hl
  rcases htables parent curModifiableVer with hsame | ⟨hgone, _⟩
  · rw [hsame, if_pos ⟨rfl, rfl⟩] at ht'
    rw [← Except.ok.inj ht'] at hp
    exact ((mem_eraseP_key (hnames _ _ _ ht₁)).mp hp).2 hpname
  · exact hne hgone.symm

/-- Below `/.snapshot` only `current` is live, and it is the root. -/
theorem View.RenameArgs.eq_root
    (hargs : w.RenameArgs path name [snapshotEntry] originalName ds targetName id parent) :
    id = rootInodeNumber := by
  obtain ⟨rest, hlive⟩ := hargs.live
  have hid := hargs.source
  rw [View.resolve_eq_resolveComps (View.resolve_absolute hargs.source),
    View.resolveComps_of_live hlive] at hid
  rw [hargs.hpath] at hlive
  simp only [List.singleton_append, liveComps, if_true] at hlive
  obtain ⟨_, rfl⟩ := Prod.mk.inj (Program.pure_eq_ok.mp hlive)
  exact (Except.ok.inj hid).symm

/-- A rename is spoiled only if it moves the root. -/
theorem View.SpoilsRename.source_root (h : w.SpoilsRename path name w') (hl : Links clean w)
    (hnames : w.NamesNodup) : ∃ cs originalName ds targetName parent,
      w.RenameArgs path name cs originalName ds targetName rootInodeNumber parent ∧
        w.Relinks parent targetName rootInodeNumber w' := by
  rcases h with ⟨hargs, rfl, hrelink⟩ | ⟨hargs, hremove, hagain⟩
  · obtain rfl := hargs.eq_root
    exact ⟨_, _, _, _, _, hargs, hrelink⟩
  · exact absurd hagain (hremove.not_hasName hl hnames)

end Renames

end Htmpfs
