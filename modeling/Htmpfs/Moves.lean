import Mathlib
import Htmpfs.Mounted
import Htmpfs.Ways

/-!
# What a rename moves

A rename that succeeded has put the inode under its new name and taken the old
name away.  Every other entry is where it was; the ways that led through the old
name are cut, so the new name is found unless its own way was one of them.
-/

namespace Htmpfs

section Steps

variable {w w' : View} {parent id j k : ℕ} {name : Bytes}

/-- The way to an inode, and on from it. -/
theorem View.Way.split {cs ds : List Bytes} (h : w.Way (cs ++ ds) id) :
    ∃ j, w.Way cs j ∧ (ds ≠ [] → ∃ c k, w.EntryAt j c k) := by
  obtain ⟨hnames, hwalk⟩ := h
  rw [View.walk_append] at hwalk
  obtain ⟨j, hj, hrest⟩ := Program.bind_eq_ok.mp hwalk
  refine ⟨j, ⟨fun c hc => hnames c (List.mem_append_left _ hc), hj⟩, fun hne => ?_⟩
  obtain ⟨c, ds, rfl⟩ := List.exists_cons_of_ne_nil hne
  have hc : c ≠ [] := hnames c (by simp)
  simp only [View.walk] at hrest
  rw [if_neg (by simpa using hc)] at hrest
  obtain ⟨t, ht, hrest⟩ := Program.bind_eq_ok.mp hrest
  obtain ⟨k, hk, _⟩ := Program.bind_eq_ok.mp hrest
  exact ⟨c, k, t, ht, hk⟩

/-- A way through an inode without entries ends there. -/
theorem View.Way.through {cs front : List Bytes} {c : Bytes} (h : w.Way cs k)
    (hfront : w.Way front j) (hstarts : front ++ [c] <+: cs) :
    ∃ i, w.EntryAt j c i ∧ ((∀ d l, ¬ w.EntryAt i d l) → k = i) := by
  obtain ⟨rest, rfl⟩ := hstarts
  obtain ⟨i, hi, hnext⟩ := h.split
  obtain ⟨_, j', hj', hlast⟩ := View.way_concat.mp hi
  obtain rfl := hj'.unique hfront
  refine ⟨i, hlast, fun hempty => ?_⟩
  by_cases hrest : rest = []
  · subst hrest
    rw [List.append_nil] at h
    exact h.unique hi
  · obtain ⟨d, l, hnext⟩ := hnext hrest
    exact absurd hnext (hempty d l)

/-- A removed inode loses one link, and the others stay. -/
theorem View.RemovesChild.node_of_ne (hstep : w.RemovesChild parent name w')
    (hentry : w.EntryAt parent name j) {x : ℕ} (hx : x ≠ parent) :
    w'.node x = if x = j then (w.node j).bind NodeView.dropLink else w.node x := by
  rcases hstep with ⟨n, t, p, target, list, hparent, htable, hp, htarget, hempty, hsize, hlist⟩
  obtain ⟨t', ht', hlookup⟩ := hentry
  rw [View.tableAt_of_node hparent, htable] at ht'
  obtain rfl := Except.ok.inj ht'
  obtain ⟨q, hq, rfl⟩ := View.lookup_eq_ok.mp hlookup
  obtain rfl := Option.some.inj (hp.symm.trans hq)
  rw [View.node_dropLink]
  split_ifs with hxj
  · subst hxj
    rw [View.node_setListing, View.node_setCurrent, if_neg hx]
  · rw [View.node_setListing, View.node_setCurrent, if_neg hx]

/-- The number of links of an inode, which is 0 where there is none. -/
def View.links (w : View) (id : ℕ) : ℕ := ((w.node id).map (·.linkCount)).getD 0

theorem NodeView.links_dropLink {n : NodeView} (hpos : 0 < n.linkCount) :
    ((n.dropLink).map (·.linkCount)).getD 0 + 1 = n.linkCount := by
  have hdec : decrement n.linkCount = n.linkCount - 1 := if_neg (by omega)
  unfold NodeView.dropLink
  rw [hdec]
  split_ifs with hzero
  · simp only [Option.map_none, Option.getD_none]
    omega
  · simp only [Option.map_some, Option.getD_some]
    omega

end Steps

/-- A rename, with the two ways to the directories it changes. -/
structure View.Moves (w : View) (path name : Bytes) (front : List Bytes) (originalName : Bytes)
    (front' : List Bytes) (targetName : Bytes) (id parent originalParent : ℕ) (w₀ w₁ w' : View) :
    Prop where
  live : liveComps (comps path) = .ok (curModifiableVer, front ++ [originalName])
  live' : liveComps (comps name) = .ok (curModifiableVer, front' ++ [targetName])
  source : w.resolve path = .ok id
  way : w.Way front originalParent
  way' : w.Way front' parent
  names : originalName ≠ [] ∧ targetName ≠ []
  zero : 0 ∉ targetName
  id_lt : id < 2 ^ 64
  mem : targetName ∈ comps name
  entry : w.EntryAt originalParent originalName id
  removes : w₀ = w ∨ w.RemovesChild parent targetName w₀
  adds : w₀.AddsEntry parent targetName id w₁
  drops : w₁.DropsEntry originalParent originalName w'

section Moves

variable {w w₀ w₁ w' : View} {path name : Bytes} {front front' : List Bytes}
  {originalName targetName : Bytes} {id parent originalParent j k : ℕ} {c : Bytes}
  {cs : List Bytes}

theorem View.Renames.moves (hstep : w.Renames path name w') (hname : 0 ∉ name) :
    ∃ front originalName front' targetName id parent originalParent w₀ w₁,
      w.Moves path name front originalName front' targetName id parent originalParent w₀ w₁ w' := by
  obtain ⟨originalName, targetName, id, parent, originalParent, t, w₀, w₁, hparts⟩ :=
    hstep.parts hname
  obtain ⟨cs, ds, hargs, horiginal⟩ := hparts.args
  obtain ⟨rest, hlive⟩ := hargs.live
  obtain ⟨rest', hlive'⟩ := hargs.live'
  have hnames : ∀ c ∈ cs ++ [originalName], IsName c := hargs.hpath ▸ isName_of_mem_comps
  have hnames' : ∀ c ∈ ds ++ [targetName], IsName c := hargs.hname ▸ isName_of_mem_comps
  have hcs : cs ≠ [snapshotEntry] := by
    rintro rfl
    rw [View.resolveComps_snapshotEntry] at horiginal
    simp at horiginal
  have hds : ds ≠ [snapshotEntry] := by
    rintro rfl
    have htarget := hargs.target
    rw [View.resolveComps_snapshotEntry] at htarget
    simp at htarget
  obtain ⟨front, rfl, hfront⟩ := (liveComps_append (hargs.hpath ▸ hlive)).resolve_left hcs
  obtain ⟨front', rfl, hfront'⟩ := (liveComps_append (hargs.hname ▸ hlive')).resolve_left hds
  have hway : w.Way front originalParent :=
    (View.way_of_resolveComps hfront fun c hc => hnames c (by simp [hc])).mp horiginal
  have hway' : w.Way front' parent :=
    (View.way_of_resolveComps hfront' fun c hc => hnames' c (by simp [hc])).mp hargs.target
  exact ⟨front, originalName, front', targetName, id, parent, originalParent, w₀, w₁,
    { live := hlive, live' := hlive', source := hparts.source, way := hway, way' := hway',
      names := ⟨(isName_of_concat hargs.hpath).ne_nil, (isName_of_concat hargs.hname).ne_nil⟩,
      zero := hparts.zero, id_lt := hparts.id_lt, mem := hparts.mem,
      entry := ⟨t, hparts.table, hparts.lookup⟩, removes := hparts.removes, adds := hparts.adds,
      drops := hparts.drops }⟩

namespace View.Moves

variable (hmoves : w.Moves path name front originalName front' targetName id parent originalParent
  w₀ w₁ w')

include hmoves

/-- The entry that moves was read back, so that tables are. -/
theorem word : w₀.blockSize + 1 ≠ 2 ^ 64 := by
  obtain ⟨t, p, ht, hp, _⟩ := hmoves.entry.mem
  have hword := View.word_of_tableAt ht (List.ne_nil_of_mem hp)
  rcases hmoves.removes with rfl | hremove
  · exact hword
  · rw [hremove.blockSize]
    exact hword

theorem blockSize_eq : w'.blockSize = w.blockSize := by
  obtain ⟨f, rfl⟩ := hmoves.drops.view_eq
  obtain ⟨g, rfl⟩ := hmoves.adds.view_eq
  rcases hmoves.removes with rfl | hremove
  · rfl
  · exact hremove.blockSize

/-- The entries after a rename. -/
theorem entryAt_iff (h : Named w) (hfits : NameFits targetName) : w'.EntryAt j c k ↔
    (w.EntryAt j c k ∧ ¬ (j = parent ∧ c = targetName) ∨ j = parent ∧ c = targetName ∧ k = id) ∧
      ¬ (j = originalParent ∧ c = originalName) := by
  have h₀ : w.NamesNodup → w₀.NamesNodup ∧
      (w₀.EntryAt j c k ∨ j = parent ∧ c = targetName ∧ k = id ↔
        w.EntryAt j c k ∧ ¬ (j = parent ∧ c = targetName) ∨
          j = parent ∧ c = targetName ∧ k = id) := by
    intro hnames
    rcases hmoves.removes with rfl | hremove
    · refine ⟨hnames, ?_⟩
      obtain ⟨t, ht, hnew, _⟩ := hmoves.adds.tables hmoves.zero hmoves.id_lt
      have hnone : w₀.EntryAt j c k → ¬ (j = parent ∧ c = targetName) := by
        rintro hentry ⟨rfl, rfl⟩
        obtain ⟨t', p, ht', hp, hpname, _⟩ := hentry.mem
        obtain rfl := Except.ok.inj (ht.symm.trans ht')
        exact hnew p hp hpname
      exact or_congr_left (and_iff_left_of_imp hnone).symm
    · exact ⟨(hremove.grows h.links).names hnames,
        or_congr_left (hremove.entryAt_iff h.links hnames)⟩
  obtain ⟨hnames₀, hiff⟩ := h₀ h.names
  have hnames₁ := (hmoves.adds.grows hmoves.zero hmoves.id_lt).names hnames₀
  rw [hmoves.drops.entryAt_iff hnames₁,
    hmoves.adds.entryAt_iff hmoves.zero hmoves.id_lt hmoves.word hfits, hiff]

/-- What the new name led to has no entries. -/
theorem replaced_not_entryAt (h : Named w) (hentry : w.EntryAt parent targetName j) :
    ¬ w.EntryAt j c k := by
  rcases hmoves.removes with rfl | hremove
  · obtain ⟨t, ht, hnew, _⟩ := hmoves.adds.tables hmoves.zero hmoves.id_lt
    obtain ⟨t', p, ht', hp, hpname, _⟩ := hentry.mem
    obtain rfl := Except.ok.inj (ht.symm.trans ht')
    exact absurd hpname (hnew p hp)
  · exact hremove.not_entryAt h.links hentry

/-- No way to an inode with entries leads through the new name. -/
theorem target_not_prefix (h : Sound w) (hway : w.Way cs j) (hentry : w.EntryAt j c k) :
    ¬ front' ++ [targetName] <+: cs := by
  intro hstarts
  obtain ⟨i, hlast, hends⟩ := hway.through hmoves.way' hstarts
  have hempty : ∀ d l, ¬ w.EntryAt i d l := fun _ _ =>
    hmoves.replaced_not_entryAt h.toNamed hlast
  exact hempty c k (hends hempty ▸ hentry)

/-- A way through neither of the two names stays. -/
theorem way_kept (h : Sound w) (hfits : NameFits targetName) (hway : w.Way cs j)
    (hsource : ¬ front ++ [originalName] <+: cs) (htarget : ¬ front' ++ [targetName] <+: cs) :
    w'.Way cs j := by
  refine hway.kept fun f d i k hstarts hf hentry => ?_
  refine (hmoves.entryAt_iff h.toNamed hfits).mpr ⟨Or.inl ⟨hentry, ?_⟩, ?_⟩
  · rintro ⟨rfl, rfl⟩
    rw [h.way_inj hf hmoves.way'] at hstarts
    exact htarget hstarts
  · rintro ⟨rfl, rfl⟩
    rw [h.way_inj hf hmoves.way] at hstarts
    exact hsource hstarts

theorem way_original (h : Sound w) (hfits : NameFits targetName) : w'.Way front originalParent := by
  refine hmoves.way_kept h hfits hmoves.way (fun hstarts => ?_)
    (hmoves.target_not_prefix h hmoves.way hmoves.entry)
  have hlen := hstarts.length_le
  simp at hlen

/-- Nothing is found through the old name. -/
theorem source_gone (h : Sound w) (hfits : NameFits targetName)
    (hstarts : front ++ [originalName] <+: cs) : ¬ w'.Way cs j := by
  intro hway
  obtain ⟨rest, rfl⟩ := hstarts
  obtain ⟨i, hi, _⟩ := hway.split
  obtain ⟨_, p, hp, hentry⟩ := View.way_concat.mp hi
  obtain rfl := hp.unique (hmoves.way_original h hfits)
  exact ((hmoves.entryAt_iff h.toNamed hfits).mp hentry).2 ⟨rfl, rfl⟩

/-- The new name is found, unless its way led through the old one. -/
theorem way_target (h : Sound w) (hfits : NameFits targetName)
    (hstarts : ¬ front ++ [originalName] <+: front' ++ [targetName]) :
    w'.Way (front' ++ [targetName]) id := by
  have hfront : w'.Way front' parent := by
    refine hmoves.way_kept h hfits hmoves.way'
      (fun hpre => hstarts (hpre.trans (List.prefix_append _ _))) fun hpre => ?_
    have hlen := hpre.length_le
    simp at hlen
  refine View.way_concat.mpr ⟨hmoves.names.2, parent, hfront, ?_⟩
  refine (hmoves.entryAt_iff h.toNamed hfits).mpr ⟨Or.inr ⟨rfl, rfl, rfl⟩, ?_⟩
  rintro ⟨rfl, rfl⟩
  rw [h.way_inj hmoves.way hmoves.way'] at hstarts
  exact hstarts List.prefix_rfl

/-- What is neither of the directories nor replaced is left alone. -/
theorem node_eq {x : ℕ} (hparent : x ≠ parent) (horiginal : x ≠ originalParent) :
    w'.node x = w₀.node x := by
  obtain ⟨f, rfl⟩ := hmoves.drops.view_eq
  obtain ⟨g, rfl⟩ := hmoves.adds.view_eq
  rw [View.node_setCurrent, if_neg horiginal, View.node_setCurrent, if_neg hparent]

/-- The inode that moves is left alone. -/
theorem node_id (h : Sound w)
    (hstarts : ¬ front ++ [originalName] <+: front' ++ [targetName]) : w'.node id = w.node id := by
  have hid : w.Way (front ++ [originalName]) id :=
    View.way_concat.mpr ⟨hmoves.names.1, originalParent, hmoves.way, hmoves.entry⟩
  have hparent : id ≠ parent := by
    rintro rfl
    rw [h.way_inj hid hmoves.way'] at hstarts
    exact hstarts (List.prefix_append _ _)
  have horiginal : id ≠ originalParent := by
    rintro rfl
    have hlen := congrArg List.length (h.way_inj hid hmoves.way)
    simp at hlen
  rw [hmoves.node_eq hparent horiginal]
  rcases hmoves.removes with rfl | hremove
  · rfl
  · obtain ⟨t, p, target, ht, hp, _⟩ := hremove.tables h.links
    have hentry : w.EntryAt parent targetName p.inodeId :=
      ⟨t, ht, View.lookup_eq_ok.mpr ⟨p, hp, rfl⟩⟩
    rw [hremove.node_of_ne hentry hparent, if_neg]
    intro heq
    rw [← heq] at hentry
    obtain ⟨rfl, rfl⟩ := h.entryAt_inj hmoves.entry hentry (h.entryAt_ne_root hentry)
    rw [h.way_inj hmoves.way hmoves.way'] at hstarts
    exact hstarts List.prefix_rfl

/-- What had the new name loses one link. -/
theorem links_replaced (h : Sound w) (hway : w.Way (front' ++ [targetName]) j) :
    w'.links j + 1 = w.links j := by
  obtain ⟨_, p, hp, hentry⟩ := View.way_concat.mp hway
  obtain rfl := hp.unique hmoves.way'
  have hempty : ∀ c k, ¬ w.EntryAt j c k := fun _ _ =>
    hmoves.replaced_not_entryAt h.toNamed hentry
  have hparent : j ≠ p := by
    rintro rfl
    exact hempty _ _ hentry
  have horiginal : j ≠ originalParent := by
    rintro rfl
    exact hempty _ _ hmoves.entry
  unfold View.links
  rw [hmoves.node_eq hparent horiginal]
  rcases hmoves.removes with rfl | hremove
  · obtain ⟨t, ht, hnew, _⟩ := hmoves.adds.tables hmoves.zero hmoves.id_lt
    obtain ⟨t', q, ht', hq, hqname, _⟩ := hentry.mem
    obtain rfl := Except.ok.inj (ht.symm.trans ht')
    exact absurd hqname (hnew q hq)
  · rw [hremove.node_of_ne hentry hparent, if_pos rfl]
    obtain ⟨t, q, ht, hq, _, rfl⟩ := hentry.mem
    obtain ⟨n, hn, _⟩ := h.node_of_mem ht hq
    rw [hn]
    exact NodeView.links_dropLink (h.links.pos _ n hn)

end View.Moves

end Moves

end Htmpfs
