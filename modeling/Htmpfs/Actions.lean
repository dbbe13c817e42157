import Mathlib
import Htmpfs.Content

/-!
# What the operations do to the trees

Every step of the view is an action on the current tree, or on the copies of it
that the snapshots are.
-/

namespace Htmpfs

/-! ## The ways after a step -/

section Ways

variable {w w₀ w₁ w' : View} {parent id j k : ℕ} {name : Bytes} {front cs : List Bytes}
  {isDir : Bool}

/-- A new inode adds the way to it. -/
theorem View.MakesChild.way_iff (hstep : w.MakesChild parent name isDir id w') (h : Sound w)
    (hword : w.blockSize + 1 ≠ 2 ^ 64) (hfits : NameFits name) (hname : name ≠ [])
    (hway : w.Way front parent) :
    w'.Way cs k ↔ w.Way cs k ∨ cs = front ++ [name] ∧ k = id := by
  obtain ⟨_, _, _, hfree, _⟩ := hstep.tables
  have hdead : ∀ c l, ¬ w.EntryAt id c l := by
    rintro c l ⟨t, ht, _⟩
    rw [View.tableAt_of_none hfree] at ht
    simp at ht
  induction cs using List.reverseRecOn generalizing k with
  | nil => simp [View.way_nil]
  | append_singleton cs c ih =>
      rw [View.way_concat, View.way_concat]
      constructor
      · rintro ⟨hc, j, hj, hentry⟩
        rcases (hstep.entryAt_iff hword hfits).mp hentry with hold | ⟨rfl, rfl, rfl⟩
        · rcases ih.mp hj with hj | ⟨_, rfl⟩
          · exact Or.inl ⟨hc, j, hj, hold⟩
          · exact absurd hold (hdead c k)
        · have hj := (ih.mp hj).resolve_right fun heq => hstep.parent_ne heq.2
          exact Or.inr ⟨by rw [h.way_inj hj hway], rfl⟩
      · rintro (⟨hc, j, hj, hold⟩ | ⟨heq, rfl⟩)
        · exact ⟨hc, j, ih.mpr (Or.inl hj), (hstep.entryAt_iff hword hfits).mpr (Or.inl hold)⟩
        · obtain ⟨rfl, hlast⟩ := List.append_inj' heq rfl
          obtain rfl := List.singleton_inj.mp hlast
          exact ⟨hname, parent, ih.mpr (Or.inl hway),
            (hstep.entryAt_iff hword hfits).mpr (Or.inr ⟨rfl, rfl, rfl⟩)⟩

/-- A removal takes the ways through the name. -/
theorem View.RemovesChild.way_iff (hstep : w.RemovesChild parent name w') (h : Sound w)
    (hway : w.Way front parent) : w'.Way cs k ↔ w.Way cs k ∧ ¬ front ++ [name] <+: cs := by
  induction cs using List.reverseRecOn generalizing k with
  | nil => simp [View.way_nil]
  | append_singleton cs c ih =>
      rw [View.way_concat, View.way_concat, List.prefix_concat_iff]
      constructor
      · rintro ⟨hc, j, hj, hentry⟩
        obtain ⟨hj, hnot⟩ := ih.mp hj
        obtain ⟨hold, hne⟩ := (hstep.entryAt_iff h.links h.names).mp hentry
        refine ⟨⟨hc, j, hj, hold⟩, ?_⟩
        rintro (heq | hstarts)
        · obtain ⟨rfl, hlast⟩ := List.append_inj' heq rfl
          exact hne ⟨hj.unique hway, (List.singleton_inj.mp hlast).symm⟩
        · exact hnot hstarts
      · rintro ⟨⟨hc, j, hj, hold⟩, hnot⟩
        refine ⟨hc, j, ih.mpr ⟨hj, fun hstarts => hnot (Or.inr hstarts)⟩, ?_⟩
        refine (hstep.entryAt_iff h.links h.names).mpr ⟨hold, ?_⟩
        rintro ⟨rfl, rfl⟩
        exact hnot (Or.inl (by rw [h.way_inj hj hway]))

/-- A rename takes the ways through the old name to the new one. -/
theorem View.Moves.way_iff {path name : Bytes} {front front' : List Bytes}
    {originalName targetName : Bytes} {originalParent : ℕ}
    (hmoves : w.Moves path name front originalName front' targetName id parent originalParent
      w₀ w₁ w') (h : Sound w) (hfits : NameFits targetName) :
    w'.Way cs k ↔ ¬ front ++ [originalName] <+: cs ∧
      (w.Way cs k ∧ ¬ front' ++ [targetName] <+: cs ∨
        ∃ rest, cs = front' ++ [targetName] ++ rest ∧ w.Way (front ++ [originalName] ++ rest) k) := by
  have hlength : ∀ {p q : List Bytes} {c : Bytes}, ¬ p ++ [c] ++ q <+: p := by
    intro p q c hstarts
    have hle := hstarts.length_le
    simp only [List.length_append, List.length_singleton] at hle
    omega
  induction cs using List.reverseRecOn generalizing k with
  | nil => simp [View.way_nil]
  | append_singleton cs c ih =>
      rw [View.way_concat, List.prefix_concat_iff]
      constructor
      · rintro ⟨hc, j, hj', hentry⟩
        obtain ⟨hsrc, hj⟩ := ih.mp hj'
        obtain ⟨hentry, hne⟩ := (hmoves.entryAt_iff h.toNamed hfits).mp hentry
        refine ⟨?_, ?_⟩
        · rintro (heq | hstarts)
          · obtain ⟨rfl, hlast⟩ := List.append_inj' heq rfl
            rcases hj with ⟨hj, _⟩ | ⟨rest, heq', _⟩
            · exact hne ⟨hj.unique hmoves.way, (List.singleton_inj.mp hlast).symm⟩
            · exact hmoves.target_not_prefix h hmoves.way hmoves.entry (heq' ▸ List.prefix_append _ _)
          · exact hsrc hstarts
        rcases hentry with ⟨hold, hnew⟩ | ⟨rfl, rfl, rfl⟩
        · rcases hj with ⟨hway, hdst⟩ | ⟨rest, rfl, hway⟩
          · refine Or.inl ⟨View.way_concat.mpr ⟨hc, j, hway, hold⟩, ?_⟩
            rw [List.prefix_concat_iff]
            rintro (heq | hstarts)
            · obtain ⟨rfl, hlast⟩ := List.append_inj' heq rfl
              exact hnew ⟨hway.unique hmoves.way', (List.singleton_inj.mp hlast).symm⟩
            · exact hdst hstarts
          · refine Or.inr ⟨rest ++ [c], by simp, ?_⟩
            rw [← List.append_assoc]
            exact View.way_concat.mpr ⟨hc, j, hway, hold⟩
        · rcases hj with ⟨hold, _⟩ | ⟨rest, rfl, hold⟩
          · obtain rfl := h.way_inj hold hmoves.way'
            refine Or.inr ⟨[], by simp, ?_⟩
            rw [List.append_nil]
            exact View.way_concat.mpr ⟨hmoves.names.1, _, hmoves.way, hmoves.entry⟩
          · -- the directory of the new name is not below the old one
            rw [h.way_inj hmoves.way' hold] at hsrc
            refine absurd ?_ hsrc
            rw [List.append_assoc, List.append_assoc]
            exact List.prefix_append _ _
      · rintro ⟨hsrc, hcase⟩
        have hsrc' : ¬ front ++ [originalName] <+: cs := fun hstarts => hsrc (Or.inr hstarts)
        rcases hcase with ⟨hway, hdst⟩ | ⟨rest, heq, hway⟩
        · obtain ⟨hc, j, hj, hold⟩ := View.way_concat.mp hway
          refine ⟨hc, j, ih.mpr ⟨hsrc', Or.inl ⟨hj, ?_⟩⟩, ?_⟩
          · exact PathTree.not_prefix_of_concat hdst
          refine (hmoves.entryAt_iff h.toNamed hfits).mpr ⟨Or.inl ⟨hold, ?_⟩, ?_⟩
          · rintro ⟨rfl, rfl⟩
            rw [h.way_inj hj hmoves.way'] at hdst
            exact hdst List.prefix_rfl
          · rintro ⟨rfl, rfl⟩
            exact hsrc (Or.inl (by rw [h.way_inj hj hmoves.way]))
        · rcases List.eq_nil_or_concat rest with rfl | ⟨rest, c', rfl⟩
          · rw [List.append_nil] at heq hway
            obtain ⟨rfl, hlast⟩ := List.append_inj' heq rfl
            obtain rfl := List.singleton_inj.mp hlast
            obtain ⟨_, j, hj, hold⟩ := View.way_concat.mp hway
            obtain rfl := hj.unique hmoves.way
            obtain rfl := hold.unique hmoves.entry
            refine ⟨hmoves.names.2, parent, ih.mpr ⟨hsrc', Or.inl ⟨hmoves.way', ?_⟩⟩, ?_⟩
            · have hnot := @hlength cs [] c
              rwa [List.append_nil] at hnot
            refine (hmoves.entryAt_iff h.toNamed hfits).mpr ⟨Or.inr ⟨rfl, rfl, rfl⟩, ?_⟩
            rintro ⟨rfl, rfl⟩
            exact hsrc (Or.inl (by rw [h.way_inj hmoves.way hmoves.way']))
          · rw [List.concat_eq_append, ← List.append_assoc] at heq hway
            obtain ⟨rfl, hlast⟩ := List.append_inj' heq rfl
            obtain rfl := List.singleton_inj.mp hlast
            obtain ⟨hc, j, hj, hold⟩ := View.way_concat.mp hway
            refine ⟨hc, j, ih.mpr ⟨hsrc', Or.inr ⟨rest, rfl, hj⟩⟩, ?_⟩
            refine (hmoves.entryAt_iff h.toNamed hfits).mpr ⟨Or.inl ⟨hold, ?_⟩, ?_⟩
            · rintro ⟨rfl, rfl⟩
              rw [h.way_inj hmoves.way' hj] at hsrc'
              refine hsrc' ?_
              rw [List.append_assoc, List.append_assoc]
              exact List.prefix_append _ _
            · rintro ⟨rfl, rfl⟩
              refine @hlength front rest c ?_
              rw [h.way_inj hj hmoves.way]

end Ways

/-! ## The inodes after a step -/

section Stands

variable {w w₀ w₁ w' : View} {parent id j k : ℕ} {name : Bytes} {isDir : Bool} {n : NodeView}
  {f : Bytes → Bytes}

theorem View.stands_congr (h : w'.node k = w.node k) : w'.stands k = w.stands k := by
  unfold View.stands
  rw [h]

theorem View.stands_setCurrent_of_ne (hk : k ≠ id) : (w.setCurrent id f).stands k = w.stands k := by
  apply View.stands_congr
  rw [View.node_setCurrent, if_neg hk]

/-- The bytes of a directory are not part of the tree. -/
theorem View.stands_setCurrent_dir (hn : w.node id = some n) (hdir : n.isDentry = true) :
    (w.setCurrent id f).stands k = w.stands k := by
  by_cases hk : k = id
  · subst hk
    unfold View.stands NodeView.entry
    rw [View.node_setCurrent, if_pos rfl, hn]
    simp only [Option.map_some, Option.bind_some, NodeView.isDentry_setCurrent, hdir,
      NodeView.data_setCurrent_self, if_true, Option.map_map]
    rfl
  · exact View.stands_setCurrent_of_ne hk

theorem View.stands_setCurrent_file (hn : w.node id = some n) (hfile : n.isDentry = false) :
    (w.setCurrent id f).stands id = (w.stands id).map (PathTree.Entry.map f) := by
  unfold View.stands NodeView.entry
  rw [View.node_setCurrent, if_pos rfl, hn]
  simp only [Option.map_some, Option.bind_some, NodeView.isDentry_setCurrent, hfile,
    NodeView.data_setCurrent_self, Option.map_map]
  rfl

/-- What has a table is a directory. -/
theorem View.isDentry_of_table {t : List PathPack} (ht : w.tableAt id curModifiableVer = .ok t) :
    ∃ n, w.node id = some n ∧ n.isDentry = true := by
  obtain ⟨n, hn, htable⟩ := View.tableAt_eq_ok.mp ht
  exact ⟨n, hn, (NodeView.table_eq_ok.mp htable).1⟩

theorem Links.stands_dir {clean : Prop} (h : Links clean w) {t : List PathPack}
    (ht : w.tableAt id curModifiableVer = .ok t) : w.stands id = some .dir := by
  obtain ⟨n, hn, hdir⟩ := View.isDentry_of_table ht
  obtain ⟨c, _, hstands⟩ := h.stands hn
  rw [hstands, if_pos hdir]

theorem View.MakesChild.stands_of_ne (hstep : w.MakesChild parent name isDir id w') (hk : k ≠ id) :
    w'.stands k = w.stands k := by
  have hne := hstep.parent_ne
  rcases hstep with ⟨n, t, list, hname, hparent, htable, hnew, hfree, hid, hsize, hlist⟩
  have hadd : ∀ x, x ≠ id → (w.addNode id isDir).node x = w.node x := fun x hx => by
    rw [View.node_addNode, if_neg hx]
  have hdir : n.isDentry = true := (NodeView.table_eq_ok.mp htable).1
  calc _ = ((w.addNode id isDir).setCurrent parent fun _ => encodeTable (t ++ [⟨name, id⟩])).stands k :=
        View.stands_congr rfl
    _ = (w.addNode id isDir).stands k :=
        View.stands_setCurrent_dir ((hadd parent hne).trans hparent) hdir
    _ = w.stands k := View.stands_congr (hadd k hk)

theorem View.MakesChild.stands_self (hstep : w.MakesChild parent name isDir id w') :
    w'.stands id = some (if isDir then .dir else .leaf []) := by
  unfold View.stands NodeView.entry
  rw [hstep.node_self]
  simp

/-- Only the removed inode is changed for those who look at the trees. -/
theorem View.RemovesChild.stands_of_ne (hstep : w.RemovesChild parent name w')
    (hentry : w.EntryAt parent name j) (hk : k ≠ j) : w'.stands k = w.stands k := by
  rcases hstep with ⟨n, t, p, target, list, hparent, htable, hp, htarget, hempty, hsize, hlist⟩
  obtain ⟨t', ht', hlookup⟩ := hentry
  rw [View.tableAt_of_node hparent, htable] at ht'
  obtain rfl := Except.ok.inj ht'
  obtain ⟨q, hq, rfl⟩ := View.lookup_eq_ok.mp hlookup
  obtain rfl := Option.some.inj (hp.symm.trans hq)
  have hdir : n.isDentry = true := (NodeView.table_eq_ok.mp htable).1
  calc _ = (w.setCurrent parent fun _ => encodeTable (t.eraseP fun i => i.pathname = name)).stands k :=
        View.stands_congr (by rw [View.node_dropLink, if_neg hk, View.node_setListing])
    _ = w.stands k := View.stands_setCurrent_dir hparent hdir

theorem View.Moves.exists_table {path name : Bytes} {front front' : List Bytes}
    {originalName targetName : Bytes} {originalParent : ℕ}
    (hmoves : w.Moves path name front originalName front' targetName id parent originalParent
      w₀ w₁ w') (h : Named w) : ∃ t, w.tableAt parent curModifiableVer = .ok t := by
  rcases hmoves.removes with heq | hremove
  · obtain ⟨t, ht, _⟩ := hmoves.adds.tables hmoves.zero hmoves.id_lt
    exact ⟨t, heq ▸ ht⟩
  · obtain ⟨t, _, _, ht, _⟩ := hremove.tables h.links
    exact ⟨t, ht⟩

theorem View.Moves.keepsVersion {path name : Bytes} {front front' : List Bytes}
    {originalName targetName : Bytes} {originalParent : ℕ} {ver : SnapshotVer}
    (hmoves : w.Moves path name front originalName front' targetName id parent originalParent
      w₀ w₁ w') (h : Named w) (hver : ver ≠ curModifiableVer) : w.KeepsVersion ver w' := by
  have h₀ : w.KeepsVersion ver w₀ := by
    rcases hmoves.removes with heq | hremove
    · exact heq ▸ View.KeepsVersion.refl
    · exact hremove.keepsVersion h hver
  obtain ⟨f, hf⟩ := hmoves.adds.view_eq
  obtain ⟨g, hg⟩ := hmoves.drops.view_eq
  have h₁ := h₀.trans (hf ▸ View.keepsVersion_setCurrent hver)
  exact h₁.trans (hg ▸ View.keepsVersion_setCurrent hver)

/-- A rename changes the directories of both names, and what had the new name. -/
theorem View.Moves.stands_of_ne {path name : Bytes} {front front' : List Bytes}
    {originalName targetName : Bytes} {originalParent : ℕ}
    (hmoves : w.Moves path name front originalName front' targetName id parent originalParent
      w₀ w₁ w') (h : Sound w) (hk : ¬ w.EntryAt parent targetName k) : w'.stands k = w.stands k := by
  obtain ⟨t, ht, _⟩ := hmoves.adds.tables hmoves.zero hmoves.id_lt
  obtain ⟨n, hn, hdir⟩ := View.isDentry_of_table ht
  obtain ⟨t', _, ht', _⟩ := hmoves.drops.tables
  obtain ⟨n', hn', hdir'⟩ := View.isDentry_of_table ht'
  obtain ⟨f, hf⟩ := hmoves.adds.view_eq
  obtain ⟨g, hg⟩ := hmoves.drops.view_eq
  have h₀ : w₀.stands k = w.stands k := by
    rcases hmoves.removes with heq | hremove
    · rw [heq]
    · obtain ⟨u, p, _, hu, hp, _⟩ := hremove.tables h.links
      have hentry : w.EntryAt parent targetName p.inodeId :=
        ⟨u, hu, View.lookup_eq_ok.mpr ⟨p, hp, rfl⟩⟩
      exact hremove.stands_of_ne hentry fun heq => hk (heq ▸ hentry)
  calc w'.stands k = w₁.stands k := by rw [hg, View.stands_setCurrent_dir hn' hdir']
    _ = w₀.stands k := by rw [hf, View.stands_setCurrent_dir hn hdir]
    _ = w.stands k := h₀

end Stands

/-! ## The current tree after a step -/

section Content

variable {w w₀ w₁ w' : View} {parent id j k : ℕ} {name : Bytes} {front q cs : List Bytes}
  {isDir : Bool} {n : NodeView} {f : Bytes → Bytes}

theorem Named.way_listed (h : Named w) (hway : w.Way cs k) : w.ListsId curModifiableVer k :=
  h.walk_listed (h.listsId_root h.isSome_current) hway.walk

theorem View.MakesChild.content (hstep : w.MakesChild parent name isDir id w') (h : Sound w)
    (hword : w.blockSize + 1 ≠ 2 ^ 64) (hfits : NameFits name) (hname : name ≠ [])
    (hway : w.Way front parent) :
    w'.content curModifiableVer cs = if cs = front ++ [name] then
      some (if isDir then .dir else .leaf []) else w.content curModifiableVer cs := by
  have hways : ∀ k, _ := fun k =>
    @View.MakesChild.way_iff _ _ _ _ k _ _ cs _ hstep h hword hfits hname hway
  by_cases hcs : cs = front ++ [name]
  · rw [if_pos hcs, ((hways id).mpr (Or.inr ⟨hcs, rfl⟩)).content, hstep.stands_self]
  · rw [if_neg hcs]
    refine View.content_congr (fun k => (hways k).trans (or_iff_left fun heq => hcs heq.1)) ?_
    intro k hk
    apply hstep.stands_of_ne
    rintro rfl
    obtain ⟨n, hn, _⟩ := h.links.live_of_listsId (h.way_listed hk)
    obtain ⟨_, _, _, hfree, _⟩ := hstep.tables
    rw [hfree] at hn
    simp at hn

theorem View.RemovesChild.content (hstep : w.RemovesChild parent name w') (h : Sound w)
    (hname : name ≠ []) (hway : w.Way front parent) :
    w'.content curModifiableVer cs =
      if front ++ [name] <+: cs then none else w.content curModifiableVer cs := by
  split_ifs with hstarts
  · exact View.content_eq_none fun k hk => ((hstep.way_iff h hway).mp hk).2 hstarts
  · refine View.content_congr (fun k => (hstep.way_iff h hway).trans (and_iff_left hstarts)) ?_
    intro k hk
    obtain ⟨t, p, _, ht, hp, _⟩ := hstep.tables h.links
    have hentry : w.EntryAt parent name p.inodeId := ⟨t, ht, View.lookup_eq_ok.mpr ⟨p, hp, rfl⟩⟩
    apply hstep.stands_of_ne hentry
    rintro rfl
    have hlast : w.Way (front ++ [name]) p.inodeId :=
      View.way_concat.mpr ⟨hname, parent, hway, hentry⟩
    rw [h.way_inj hk hlast] at hstarts
    exact hstarts List.prefix_rfl

theorem View.Moves.content {path name : Bytes} {front front' : List Bytes}
    {originalName targetName : Bytes} {originalParent : ℕ}
    (hmoves : w.Moves path name front originalName front' targetName id parent originalParent
      w₀ w₁ w') (h : Sound w) (hfits : NameFits targetName) :
    w'.content curModifiableVer cs =
      if front ++ [originalName] <+: cs then none
      else if front' ++ [targetName] <+: cs then
        w.content curModifiableVer (front ++ [originalName] ++ cs.drop (front'.length + 1))
      else w.content curModifiableVer cs := by
  have hways : ∀ k, _ := fun k => @View.Moves.way_iff _ _ _ _ _ _ k cs _ _ _ _ _ _ _ hmoves h hfits
  have hlast : ∀ k, w.EntryAt parent targetName k → w.Way (front' ++ [targetName]) k :=
    fun k hentry => View.way_concat.mpr ⟨hmoves.names.2, parent, hmoves.way', hentry⟩
  split_ifs with hsrc hdst
  · exact View.content_eq_none fun k hk => ((hways k).mp hk).1 hsrc
  · obtain ⟨rest, rfl⟩ := hdst
    have hdrop : (front' ++ [targetName] ++ rest).drop (front'.length + 1) = rest :=
      List.drop_left' (by simp)
    rw [hdrop]
    refine View.content_congr (fun k => (hways k).trans ?_) fun k hk => ?_
    · constructor
      · rintro ⟨_, ⟨_, hnot⟩ | ⟨rest', heq, hway⟩⟩
        · exact absurd (List.prefix_append _ _) hnot
        · rwa [List.append_cancel_left heq]
      · exact fun hway => ⟨hsrc, Or.inr ⟨rest, rfl, hway⟩⟩
    · refine hmoves.stands_of_ne h fun hentry => hsrc ?_
      rw [← h.way_inj hk (hlast k hentry), List.append_assoc (_ ++ _)]
      exact List.prefix_append _ _
  · refine View.content_congr (fun k => (hways k).trans ?_) fun k hk => ?_
    · constructor
      · rintro ⟨_, ⟨hway, _⟩ | ⟨rest, rfl, _⟩⟩
        · exact hway
        · exact absurd (List.prefix_append _ _) hdst
      · exact fun hway => ⟨hsrc, Or.inl ⟨hway, hdst⟩⟩
    · refine hmoves.stands_of_ne h fun hentry => hdst ?_
      rw [h.way_inj hk (hlast k hentry)]

/-- Other bytes for the file at a path. -/
theorem View.content_setCurrent (h : Sound w) (hway : w.Way q id) (hn : w.node id = some n)
    (hfile : n.isDentry = false) :
    (w.setCurrent id f).content curModifiableVer cs = if cs = q then
      (w.content curModifiableVer cs).map (PathTree.Entry.map f)
      else w.content curModifiableVer cs := by
  have hways : ∀ {ds k}, (w.setCurrent id f).Way ds k ↔ w.Way ds k := by
    intro ds k
    have hwalk : (w.setCurrent id f).walk curModifiableVer rootInodeNumber ds =
        w.walk curModifiableVer rootInodeNumber ds :=
      View.walk_congr fun j => View.tableAt_setCurrent hn hfile
    constructor
    · exact fun hk => ⟨hk.names, hwalk ▸ hk.walk⟩
    · exact fun hk => ⟨hk.names, hwalk.trans hk.walk⟩
  split_ifs with hcs
  · rw [hcs, hway.content, (hways.mpr hway).content, View.stands_setCurrent_file hn hfile]
  · refine View.content_congr (fun k => hways) fun k hk => View.stands_setCurrent_of_ne ?_
    rintro rfl
    exact hcs (h.way_inj hk hway)

end Content

/-! ## Actions -/

/-- A step of the view, as an action on the trees. -/
inductive View.Acts (w : View) : Volume.Action Bytes Bytes SnapshotVer → View → Prop
  | makes {front : List Bytes} {parent id : ℕ} {name : Bytes} {isDir : Bool} {w' : View}
      (hway : w.Way front parent) (hname : name ≠ []) (hfits : NameFits name)
      (hstep : w.MakesChild parent name isDir id w') :
      Acts w (.add front name (if isDir then .dir else .leaf [])) w'
  | makesFile {front : List Bytes} {parent id : ℕ} {name : Bytes} {w' : View} (f : Bytes → Bytes)
      (hway : w.Way front parent) (hname : name ≠ []) (hfits : NameFits name)
      (hstep : w.MakesChild parent name false id w') :
      Acts w (.add front name (.leaf (f []))) (w'.setCurrent id f)
  | removes {front : List Bytes} {parent : ℕ} {name : Bytes} {w' : View}
      (hway : w.Way front parent) (hname : name ≠ []) (hstep : w.RemovesChild parent name w') :
      Acts w (.erase (front ++ [name])) w'
  | rewrites {q : List Bytes} {id : ℕ} {n : NodeView} (f : Bytes → Bytes) (hway : w.Way q id)
      (hn : w.node id = some n) (hfile : n.isDentry = false) :
      Acts w (.rewrite q f) (w.setCurrent id f)
  | moves {path name : Bytes} {front front' : List Bytes} {originalName targetName : Bytes}
      {id parent originalParent : ℕ} {w₀ w₁ w' : View} (hfits : NameFits targetName)
      (hmoves : w.Moves path name front originalName front' targetName id parent originalParent
        w₀ w₁ w') : Acts w (.move (front ++ [originalName]) front' targetName) w'
  | creates {ver : SnapshotVer} {w' : View} (hstep : w.CreatesSnapshot ver w') :
      Acts w (.freeze ver) w'
  | deletes {ver : SnapshotVer} {w' : View} (hstep : w.DeletesSnapshot ver w') :
      Acts w (.discard ver) w'

section Acts

variable {w w' : View} {fs : Trees} {t : PathTree Bytes Bytes} {ver : SnapshotVer} {k : ℕ}
  {cs : List Bytes}

/-- A version that is kept shows the same tree, if any. -/
theorem View.KeepsVersion.content (hkeeps : w.KeepsVersion ver w') (h : Named w) (h' : Named w') :
    w'.content ver cs = w.content ver cs := by
  by_cases hver : (w.listing ver).isSome
  · exact View.Mirrors.content hkeeps h hver
  · have hnone : w.listing ver = none := by simpa using hver
    rw [h.content_unlisted hnone, h'.content_unlisted (hkeeps.listing.trans hnone)]

theorem View.Shows.live (hshows : w.Shows fs) (h : Named w) (h' : Named w')
    (hkeeps : ∀ ver, ver ≠ curModifiableVer → w.KeepsVersion ver w')
    (hcurrent : ∀ cs, t.entry cs = w'.content curModifiableVer cs) :
    w'.Shows { fs with current := t } where
  current := hcurrent
  frozen ver hver cs := by
    rw [(hkeeps ver hver).content h h']
    exact hshows.frozen ver hver cs

/-- The copies are those of the versions that are listed. -/
theorem View.Shows.isSome_frozen (hshows : w.Shows fs) (h : Named w) (hver : ver ≠ curModifiableVer) :
    (fs.frozen ver).isSome ↔ (w.listing ver).isSome := by
  rw [← h.isSome_content_nil, ← hshows.frozen ver hver []]
  cases fs.frozen ver with
  | none => simp
  | some t => simp [t.root]

theorem View.Shows.way_dir (hshows : w.Shows fs) (h : Named w) {u : List PathPack}
    (hway : w.Way cs k) (ht : w.tableAt k curModifiableVer = .ok u) :
    fs.current.entry cs = some .dir := by
  rw [hshows.current, hway.content, h.links.stands_dir ht]

theorem View.Shows.isSome_way (hshows : w.Shows fs) (h : Named w) (hway : w.Way cs k) :
    (fs.current.entry cs).isSome := by
  obtain ⟨n, hn, _⟩ := h.links.live_of_listsId (h.way_listed hway)
  obtain ⟨c, _, hstands⟩ := h.links.stands hn
  rw [hshows.current, hway.content, hstands]
  rfl

/-- Nothing stands below an inode without entries. -/
theorem View.Shows.ends (hshows : w.Shows fs) (hnone : ∀ c j l, w.Way cs j → ¬ w.EntryAt j c l) :
    fs.current.Ends cs := by
  intro c
  rw [hshows.current]
  apply View.content_eq_none
  intro l hl
  obtain ⟨_, j, hj, hentry⟩ := View.way_concat.mp hl
  exact hnone c j l hj hentry

/-- The name of a new entry is free. -/
theorem View.Shows.entry_new (hshows : w.Shows fs) {front : List Bytes} {parent : ℕ} {name : Bytes}
    {u : List PathPack} (hway : w.Way front parent) (ht : w.tableAt parent curModifiableVer = .ok u)
    (hnew : ∀ p ∈ u, p.pathname ≠ name) : fs.current.entry (front ++ [name]) = none := by
  rw [hshows.current]
  apply View.content_eq_none
  intro l hl
  obtain ⟨_, j, hj, hentry⟩ := View.way_concat.mp hl
  obtain rfl := hj.unique hway
  obtain ⟨u', p, hu', hp, hname, _⟩ := hentry.mem
  obtain rfl := Except.ok.inj (ht.symm.trans hu')
  exact hnew p hp hname

/-- The simulation of one step. -/
theorem View.Acts.does {a : Volume.Action Bytes Bytes SnapshotVer} (hact : w.Acts a w')
    (h : Sound w) (hword : w.blockSize + 1 ≠ 2 ^ 64) (h' : Named w') (hshows : w.Shows fs) :
    ∃ fs', fs.Does a fs' ∧ w'.Shows fs' := by
  cases hact with
  | @makes front parent id name isDir _ hway hname hfits hstep =>
      obtain ⟨u, hu, hnew, _⟩ := hstep.tables
      refine ⟨_, Volume.Does.add (hshows.way_dir h.toNamed hway hu) (hshows.entry_new hway hu hnew), ?_⟩
      refine hshows.live h.toNamed h' (fun _ hver => hstep.keepsVersion hver) fun cs => ?_
      rw [hstep.content h hword hfits hname hway, ← hshows.current]
      rfl
  | @makesFile front parent id name w₁ f hway hname hfits hstep =>
      obtain ⟨u, hu, hnew, _⟩ := hstep.tables
      have h₁ : Sound w₁ := h.makesChild hstep hfits
      have hlast : w₁.Way (front ++ [name]) id :=
        (hstep.way_iff h hword hfits hname hway).mpr (Or.inr ⟨rfl, rfl⟩)
      refine ⟨_, Volume.Does.add (hshows.way_dir h.toNamed hway hu) (hshows.entry_new hway hu hnew), ?_⟩
      refine hshows.live h.toNamed h' (fun _ hver => ?_) fun cs => ?_
      · exact (hstep.keepsVersion hver).trans (View.keepsVersion_setCurrent hver)
      · rw [View.content_setCurrent h₁ hlast hstep.node_self rfl,
          hstep.content h hword hfits hname hway, ← hshows.current]
        rw [PathTree.entry_add]
        by_cases hcs : cs = front ++ [name]
        · simp [hcs, PathTree.Entry.map]
        · simp [hcs]
  | @removes front parent name _ hway hname hstep =>
      obtain ⟨u, p, _, hu, hp, _⟩ := hstep.tables h.links
      have hentry : w.EntryAt parent name p.inodeId := ⟨u, hu, View.lookup_eq_ok.mpr ⟨p, hp, rfl⟩⟩
      have hlast : w.Way (front ++ [name]) p.inodeId :=
        View.way_concat.mpr ⟨hname, parent, hway, hentry⟩
      have hends : fs.current.Ends (front ++ [name]) := by
        apply hshows.ends
        intro c j l hj
        rw [hj.unique hlast]
        exact hstep.not_entryAt h.links hentry
      refine ⟨_, Volume.Does.erase (by simp) (hshows.isSome_way h.toNamed hlast) hends, ?_⟩
      refine hshows.live h.toNamed h' (fun _ hver => hstep.keepsVersion h.toNamed hver) fun cs => ?_
      rw [hstep.content h hname hway, ← hshows.current]
      rfl
  | @rewrites q id n f hway hn hfile =>
      obtain ⟨c, _, hstands⟩ := h.links.stands hn
      have hleaf : fs.current.entry q = some (.leaf c) := by
        rw [hshows.current, hway.content, hstands, hfile]
        rfl
      refine ⟨_, Volume.Does.rewrite hleaf, ?_⟩
      refine hshows.live h.toNamed h' (fun _ hver => View.keepsVersion_setCurrent hver) fun cs => ?_
      rw [View.content_setCurrent h hway hn hfile, ← hshows.current]
      rfl
  | @moves path name front front' originalName targetName id parent originalParent w₀ w₁ _ hfits
      hmoves =>
      have hsome : (fs.current.entry (front ++ [originalName])).isSome :=
        hshows.isSome_way h.toNamed
          (View.way_concat.mpr ⟨hmoves.names.1, originalParent, hmoves.way, hmoves.entry⟩)
      have hdir : fs.current.entry front' = some .dir := by
        obtain ⟨u, hu⟩ := hmoves.exists_table h.toNamed
        exact hshows.way_dir h.toNamed hmoves.way' hu
      have hends : fs.current.Ends (front' ++ [targetName]) := by
        apply hshows.ends
        intro c j l hj
        obtain ⟨_, p, hp, hentry⟩ := View.way_concat.mp hj
        obtain rfl := hp.unique hmoves.way'
        exact hmoves.replaced_not_entryAt h.toNamed hentry
      refine ⟨_, Volume.Does.move (by simp) hsome hdir hends, ?_⟩
      refine hshows.live h.toNamed h' (fun _ hver => hmoves.keepsVersion h.toNamed hver) fun cs => ?_
      rw [hmoves.content h hfits]
      simp only [← hshows.current]
      rfl
  | @creates ver _ hstep =>
      have hne : ver ≠ curModifiableVer := hstep.ne_current
      have hnew : fs.frozen ver = none := by
        rw [← Option.not_isSome_iff_eq_none, hshows.isSome_frozen h.toNamed hne]
        rcases hstep with ⟨list, hnew, hlist⟩
        simp [hnew]
      have hmirrors := hstep.mirrors h.toNamed
      refine ⟨_, Volume.Does.freeze hnew, ?_, fun u hu cs => ?_⟩
      · intro cs
        rw [(hstep.keepsVersion h.toNamed hne.symm).content h.toNamed h']
        exact hshows.current cs
      · by_cases huv : u = ver
        · subst huv
          dsimp only
          rw [Function.update_self, Option.bind_some,
            hmirrors.content h.toNamed h.toNamed.isSome_current]
          exact hshows.current cs
        · dsimp only
          rw [Function.update_of_ne huv, (hstep.keepsVersion h.toNamed huv).content h.toNamed h']
          exact hshows.frozen u hu cs
  | @deletes ver _ hstep =>
      have hne : ver ≠ curModifiableVer := hstep.ne_current
      have hsome : (fs.frozen ver).isSome := by
        rw [hshows.isSome_frozen h.toNamed hne]
        rcases hstep with ⟨list, _, hlist, _⟩
        simp [hlist]
      refine ⟨_, Volume.Does.discard hsome, ?_, fun u hu cs => ?_⟩
      · intro cs
        rw [(hstep.keepsVersion h.toNamed hne.symm).content h.toNamed h']
        exact hshows.current cs
      · by_cases huv : u = ver
        · subst huv
          have hgone : w'.listing u = none := by
            rcases hstep with ⟨list, _, hlist, _⟩
            rw [View.listing_setListing, if_pos rfl]
          dsimp only
          rw [Function.update_self, h'.content_unlisted hgone]
          rfl
        · dsimp only
          rw [Function.update_of_ne huv, (hstep.keepsVersion h.toNamed huv).content h.toNamed h']
          exact hshows.frozen u hu cs

end Acts

end Htmpfs
