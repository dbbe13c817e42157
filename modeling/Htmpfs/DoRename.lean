import Mathlib
import Htmpfs.Callbacks

/-!
# `do_rename`

The call returns with the name moved, or refuses and changes nothing, or
fails between its two halves; what it does is settled by the state before.
-/

namespace Htmpfs

open Program (Ends)

section Original

variable {w w₁ w' : View} {path name : Bytes} {cs ds : List Bytes} {originalName targetName : Bytes}
  {id parent : ℕ} {ver : SnapshotVer} {rest : List Bytes}

/-- The components in front of the last one, where they are a path by themselves. -/
theorem liveComps_append (h : liveComps (cs ++ [name]) = .ok (ver, rest)) :
    cs = [snapshotEntry] ∨ ∃ front, rest = front ++ [name] ∧ liveComps cs = .ok (ver, front) := by
  cases cs with
  | nil =>
      simp only [List.nil_append, liveComps] at h
      split_ifs at h
      obtain ⟨rfl, rfl⟩ := Prod.mk.inj (Program.pure_eq_ok.mp h)
      exact Or.inr ⟨[], rfl, rfl⟩
  | cons head cs =>
      simp only [List.cons_append, liveComps] at h
      split_ifs at h with hhead
      · cases cs with
        | nil => exact Or.inl (by rw [hhead])
        | cons version cs =>
            simp only [List.cons_append] at h
            obtain ⟨rfl, rfl⟩ := Prod.mk.inj (Program.pure_eq_ok.mp h)
            refine Or.inr ⟨cs, rfl, ?_⟩
            simp only [liveComps, if_pos hhead]
            rfl
      · obtain ⟨rfl, rfl⟩ := Prod.mk.inj (Program.pure_eq_ok.mp h)
        refine Or.inr ⟨head :: cs, rfl, ?_⟩
        simp only [liveComps, if_neg hhead]
        rfl

theorem View.resolveComps_of_live (h : liveComps cs = .ok (curModifiableVer, rest)) :
    w.resolveComps cs = w.walk curModifiableVer rootInodeNumber rest := by
  unfold resolveComps
  rw [h]
  simp [bind, Except.bind]

/-- The directory of the snapshots has no inode. -/
theorem View.resolveComps_snapshotEntry :
    w.resolveComps [snapshotEntry] = .error (.htmpfs .invalidDentryName) := by
  simp only [resolveComps, liveComps, if_true]
  rfl

/-- What resolves is absolute, or empty. -/
theorem View.resolve_absolute (h : w.resolve path = .ok id) :
    path = [] ∨ path.head? = some slash := by
  unfold resolve at h
  cases path with
  | nil => exact Or.inl rfl
  | cons c rest =>
      right
      simp only at h
      split_ifs at h with hslash
      simp [hslash]

/-- The parent of the old name, and the entry in it. -/
theorem View.RenameArgs.original
    (hargs : w.RenameArgs path name cs originalName ds targetName id parent)
    (hcs : cs ≠ [snapshotEntry]) :
    ∃ front originalParent t, liveComps cs = .ok (curModifiableVer, front) ∧
      w.walk curModifiableVer rootInodeNumber front = .ok originalParent ∧
      w.tableAt originalParent curModifiableVer = .ok t ∧
      View.lookup t originalName = .ok id := by
  obtain ⟨rest, hlive⟩ := hargs.live
  rw [hargs.hpath] at hlive
  obtain ⟨front, rfl, hfront⟩ := (liveComps_append hlive).resolve_left hcs
  have hne : originalName ≠ [] :=
    (isName_of_mem_comps (p := path) originalName (by simp [hargs.hpath])).ne_nil
  have hsource := hargs.source
  rw [View.resolve_eq_resolveComps (View.resolve_absolute hsource), hargs.hpath,
    View.resolveComps_of_live hlive, View.walk_append] at hsource
  obtain ⟨originalParent, hway, hlast⟩ := Program.bind_eq_ok.mp hsource
  obtain ⟨t, ht, hlookup⟩ := (View.walk_singleton hne).mp hlast
  exact ⟨front, originalParent, t, hfront, hway, ht, hlookup⟩

theorem View.lookup_mem {t : List PathPack} (h : View.lookup t name = .ok id) :
    ∃ p ∈ t, p.pathname = name ∧ p.inodeId = id := by
  obtain ⟨p, hp, hid⟩ := View.lookup_eq_ok.mp h
  exact ⟨p, List.mem_of_find?_eq_some hp, by simpa using List.find?_some hp, hid⟩

/-- The new entry leaves ways and names as they were, unless it cannot be read back. -/
theorem View.AddsEntry.kept (hstep : w.AddsEntry parent targetName id w')
    (hname : 0 ∉ targetName) (hid : id < 2 ^ 64) (hword : w.blockSize + 1 ≠ 2 ^ 64)
    {front : List Bytes} {p : ℕ}
    (hway : w.walk curModifiableVer rootInodeNumber front = .ok p) :
    w'.walk curModifiableVer rootInodeNumber front = .ok p ∨
      ¬ NameFits targetName ∧
        w'.walk curModifiableVer rootInodeNumber front = .error .undefined := by
  obtain ⟨t, ht, _, htables⟩ := hstep.tables hname hid
  refine View.walk_kept (fun _ _ (hfalse : False) => hfalse.elim) ?_ hway
    not_false
  intro j t' i k _ _ ht' hk
  rw [htables]
  by_cases hj : j = parent
  · subst hj
    obtain rfl := Except.ok.inj (ht.symm.trans ht')
    rw [if_pos ⟨rfl, rfl⟩, View.savedTable_append hword ht]
    by_cases hfits : NameFits targetName
    · exact Or.inl ⟨_, by rw [if_pos hfits], View.lookup_append hk⟩
    · exact Or.inr ⟨hfits, by rw [if_neg hfits]⟩
  · rw [if_neg (by simp [hj])]
    exact Or.inl ⟨t', ht', hk⟩

/-- A removal leaves the ways to inodes that still name something. -/
theorem View.RemovesChild.kept {clean : Prop} (hstep : w.RemovesChild parent targetName w')
    (hl : Links clean w) {front : List Bytes} {p : ℕ}
    (hway : w.walk curModifiableVer rootInodeNumber front = .ok p)
    (hp : ∀ t, w.tableAt p curModifiableVer = .ok t → t ≠ [])
    (htable : ∃ t, w.tableAt p curModifiableVer = .ok t) :
    w'.walk curModifiableVer rootInodeNumber front = .ok p := by
  obtain ⟨t, q, target, ht, hq, _, hnil, hne, htables, _⟩ := hstep.tables hl
  have hdead : ∀ j t', j = q.inodeId → w.tableAt j curModifiableVer = .ok t' → t' = [] :=
    fun j t' hj ht' => hnil t' (hj ▸ ht')
  refine (View.walk_kept hdead ?_ hway ?_).resolve_right fun hbad : False ∧ _ => hbad.1
  · intro j t' i k hj hk ht' hlookup
    left
    rcases htables j curModifiableVer with hsame | ⟨hgone, _⟩
    swap
    · exact absurd hgone hj
    rw [hsame]
    by_cases hjp : j = parent
    · subst hjp
      obtain rfl := Except.ok.inj (ht.symm.trans ht')
      refine ⟨_, if_pos ⟨rfl, rfl⟩, ?_⟩
      rw [View.lookup_eraseP]
      · exact hlookup
      · -- the removed name leads to the removed inode
        rintro rfl
        refine hk ?_
        rw [View.lookup, hq] at hlookup
        exact (Program.pure_eq_ok.mp hlookup).symm
    · exact ⟨t', by rw [if_neg (by simp [hjp]), ht'], hlookup⟩
  · rintro rfl
    obtain ⟨t', ht'⟩ := htable
    exact hp t' ht' (hnil t' ht')

/-- An entry stays when another one is removed. -/
theorem View.RemovesChild.keeps_entry {clean : Prop} (hstep : w.RemovesChild parent name w')
    (hl : Links clean w) {j : ℕ} {t : List PathPack} {other : Bytes}
    (ht : w.tableAt j curModifiableVer = .ok t) (hlookup : View.lookup t other = .ok id)
    (hne : ¬ (j = parent ∧ other = name)) :
    ∃ t', w'.tableAt j curModifiableVer = .ok t' ∧ View.lookup t' other = .ok id := by
  obtain ⟨t₁, q, target, ht₁, hq, _, hnil, _, htables, _⟩ := hstep.tables hl
  rcases htables j curModifiableVer with hsame | ⟨rfl, _⟩
  · by_cases hj : j = parent
    · subst hj
      obtain rfl := Except.ok.inj (ht.symm.trans ht₁)
      refine ⟨_, by rw [hsame, if_pos ⟨rfl, rfl⟩], ?_⟩
      rw [View.lookup_eraseP fun hname => hne ⟨rfl, hname⟩]
      exact hlookup
    · exact ⟨t, by rw [hsame, if_neg (by simp [hj]), ht], hlookup⟩
  · -- the removed inode names nothing
    obtain ⟨p, hp, _⟩ := View.lookup_mem hlookup
    rw [hnil t ht] at hp
    simp at hp

/-- The old parent is found again after the first half, and the old name in it. -/
theorem View.Relinks.original {clean : Prop} (hstep : w.Relinks parent targetName id w')
    (hl : Links clean w) (hname : 0 ∉ targetName) (hid : id < 2 ^ 64) {front : List Bytes}
    {p : ℕ} {t : List PathPack} {source : ℕ}
    (hway : w.walk curModifiableVer rootInodeNumber front = .ok p)
    (ht : w.tableAt p curModifiableVer = .ok t) (hlookup : View.lookup t originalName = .ok source) :
    (w'.walk curModifiableVer rootInodeNumber front = .ok p ∨
        w'.walk curModifiableVer rootInodeNumber front = .error .undefined) ∧
      (w'.HasName p originalName ∨ w'.tableAt p curModifiableVer = .error .undefined) := by
  obtain ⟨q, hq, hqname, _⟩ := View.lookup_mem hlookup
  have hword := View.word_of_tableAt ht (List.ne_nil_of_mem hq)
  -- the half that adds the entry, from a state where the way and the table are in place
  have hadds : ∀ w₀ : View, w₀.AddsEntry parent targetName id w' → w₀.blockSize + 1 ≠ 2 ^ 64 →
      w₀.walk curModifiableVer rootInodeNumber front = .ok p →
      (∃ t₀, w₀.tableAt p curModifiableVer = .ok t₀ ∧
        ((∃ q ∈ t₀, q.pathname = originalName) ∨ p = parent ∧ originalName = targetName)) →
      (w'.walk curModifiableVer rootInodeNumber front = .ok p ∨
          w'.walk curModifiableVer rootInodeNumber front = .error .undefined) ∧
        (w'.HasName p originalName ∨ w'.tableAt p curModifiableVer = .error .undefined) := by
    rintro w₀ hadd hword₀ hway₀ ⟨t₀, ht₀, hmem⟩
    refine ⟨(hadd.kept hname hid hword₀ hway₀).imp_right fun hbad => hbad.2, ?_⟩
    obtain ⟨t₁, ht₁, _, htables⟩ := hadd.tables hname hid
    unfold View.HasName
    rw [htables]
    by_cases hp : p = parent
    · subst hp
      obtain rfl := Except.ok.inj (ht₀.symm.trans ht₁)
      rw [if_pos ⟨rfl, rfl⟩, View.savedTable_append hword₀ ht₁]
      split_ifs
      · refine Or.inl ⟨_, rfl, ?_⟩
        rcases hmem with ⟨q, hq, hqname⟩ | ⟨_, rfl⟩
        · exact ⟨q, List.mem_append_left _ hq, hqname⟩
        · exact ⟨_, List.mem_append_right _ (List.mem_singleton.mpr rfl), rfl⟩
      · exact Or.inr rfl
    · rw [if_neg (by simp [hp])]
      exact Or.inl ⟨t₀, ht₀, hmem.resolve_right fun h => hp h.1⟩
  rcases hstep with hadd | ⟨w₀, hremove, hadd⟩
  · exact hadds w hadd hword hway ⟨t, ht, Or.inl ⟨q, hq, hqname⟩⟩
  · have hfull : ∀ t', w.tableAt p curModifiableVer = .ok t' → t' ≠ [] := by
      rintro t' ht' rfl
      rw [Except.ok.inj (ht.symm.trans ht')] at hq
      simp at hq
    apply hadds w₀ hadd (hremove.blockSize ▸ hword) (hremove.kept hl hway hfull ⟨t, ht⟩)
    by_cases htaken : p = parent ∧ originalName = targetName
    · obtain ⟨rfl, rfl⟩ := htaken
      obtain ⟨n, hn, _⟩ := View.tableAt_eq_ok.mp ht
      obtain ⟨n', t', hn', _, _, _, ht'⟩ := hremove.node_parent hn
      exact ⟨_, by rw [View.tableAt_of_node hn', ht'], Or.inr ⟨rfl, rfl⟩⟩
    · obtain ⟨t', ht', hkeep⟩ := hremove.keeps_entry hl ht hlookup htaken
      obtain ⟨q', hq', hq'name, _⟩ := View.lookup_mem hkeep
      exact ⟨t', ht', Or.inl ⟨q', hq', hq'name⟩⟩

/-- The first half of `do_rename` has nothing to object to. -/
def View.Relinkable (w : View) (path name : Bytes) : Prop :=
  ∃ cs originalName ds targetName id parent t,
    w.RenameArgs path name cs originalName ds targetName id parent ∧
    w.tableAt parent curModifiableVer = .ok t ∧
    ((∀ p ∈ t, p.pathname ≠ targetName) ∨ w.Removable parent targetName)

/-- What the first half did, it had nothing to object to. -/
theorem View.Relinks.allowed {t : List PathPack} (h : w.Relinks parent targetName id w')
    (ht : w.tableAt parent curModifiableVer = .ok t) :
    (∀ p ∈ t, p.pathname ≠ targetName) ∨ w.Removable parent targetName := by
  rcases h with ⟨t', ht', hnew, _⟩ | ⟨w₀, hremove, _⟩
  · obtain rfl := Except.ok.inj (ht.symm.trans ht')
    exact Or.inl hnew
  · exact Or.inr hremove.removable

/-- What a spoiled rename has in common with any other. -/
theorem View.SpoilsRename.inv (h : w.SpoilsRename path name w') : w.Relinkable path name := by
  rcases h with ⟨hargs, _, hrelink⟩ | ⟨hargs, hremove, _⟩
  · rcases hrelink with ⟨t, ht, hnew, _⟩ | ⟨w₀, hremove, _⟩
    · exact ⟨_, _, _, _, _, _, t, hargs, ht, Or.inl hnew⟩
    · obtain ⟨t, p, target, ht, hrest⟩ := hremove.removable
      exact ⟨_, _, _, _, _, _, t, hargs, ht, Or.inr ⟨t, p, target, ht, hrest⟩⟩
  · obtain ⟨t, p, target, ht, hrest⟩ := hremove.removable
    exact ⟨_, _, _, _, _, _, t, hargs, ht, Or.inr ⟨t, p, target, ht, hrest⟩⟩

theorem View.lookup_lt {t : List PathPack} (ht : w.tableAt parent ver = .ok t)
    (h : View.lookup t name = .ok id) : id < 2 ^ 64 := by
  obtain ⟨p, hp, _, rfl⟩ := View.lookup_mem h
  exact (View.tableAt_wellFormed ht p hp).1.id_lt

end Original

/-- The second half after the first: it succeeds, or the parent of the old name has no spelling of
its own. -/
theorem View.RenameArgs.ends_unlinkOriginal {w : View} {s : InodeSmi} {path name : Bytes}
    {cs ds : List Bytes} {originalName targetName : Bytes} {id parent : ℕ} (h : BlocksOk s)
    (hl : Links False w)
    (hargs : w.RenameArgs path name cs originalName ds targetName id parent)
    (hrelink : w.Relinks parent targetName id s.view) (hzero : 0 ∉ targetName) :
    Ends (Fuse.unlinkOriginal ⟨[] :: cs⟩ originalName) s
      (fun _ s' => BlocksOk s' ∧ w.Renames path name s'.view ∧
        ((∀ p, w.resolveComps cs = .ok p → HeldElsewhere s p (fun _ => True)) →
          NoOrphan s → NoOrphan s'))
      (fun e s' => e.Thrown →
        s' = s ∧ cs = [snapshotEntry] ∧ e = .htmpfs .invalidDentryName) := by
  have hcs : ∀ c ∈ cs, IsName c := fun c hc =>
    isName_of_mem_comps (p := path) c (by simp [hargs.hpath, hc])
  refine (h.ends_unlinkOriginal hcs).mono ?_ ?_
  · rintro _ s' ⟨h', originalParent, horiginal, hdrop, horphan⟩
    refine ⟨h', ?_⟩
    by_cases hhalf : cs = [snapshotEntry]
    · rw [hhalf, View.resolveComps_snapshotEntry] at horiginal
      simp at horiginal
    obtain ⟨front, p, t', hfront, hway, ht', hlookup⟩ := hargs.original hhalf
    obtain ⟨hway₁, _⟩ := hrelink.original hl hzero (View.lookup_lt ht' hlookup) hway ht' hlookup
    rw [View.resolveComps_of_live hfront] at horiginal
    have hsame : originalParent = p := by
      rcases hway₁ with hok | hundef
      · exact Except.ok.inj (horiginal.symm.trans hok)
      · rw [horiginal] at hundef
        simp at hundef
    subst hsame
    have hway' : w.resolveComps cs = .ok originalParent := by
      rw [View.resolveComps_of_live hfront, hway]
    exact ⟨.mk hargs hrelink hway' ⟨t', ht', hlookup⟩ hdrop, fun hheld => horphan (hheld _ hway')⟩
  · rintro e s' he hthrown
    obtain ⟨rfl, hcause⟩ := he hthrown
    by_cases hhalf : cs = [snapshotEntry]
    · refine ⟨rfl, hhalf, ?_⟩
      rw [hhalf, View.resolveComps_snapshotEntry] at hcause
      rcases hcause with herr | ⟨p, hp, _⟩
      · exact (Except.error.inj herr).symm
      · simp at hp
    exfalso
    obtain ⟨front, p, t', hfront, hway, ht', hlookup⟩ := hargs.original hhalf
    obtain ⟨hway₁, hname₁⟩ :=
      hrelink.original hl hzero (View.lookup_lt ht' hlookup) hway ht' hlookup
    rw [View.resolveComps_of_live hfront] at hcause
    rcases hcause with herr | ⟨p', hp', htable, hnot⟩
    · rcases hway₁ with hok | hundef
      · rw [hok] at herr
        simp at herr
      · rw [hundef] at herr
        obtain rfl := Except.error.inj herr
        exact Exit.not_thrown_undefined hthrown
    · rcases hway₁ with hok | hundef
      · obtain rfl := Except.ok.inj (hok.symm.trans hp')
        exact hname₁.elim hnot htable
      · rw [hp'] at hundef
        simp at hundef

/-- `do_rename` returned without a change, and could not have spoiled anything. -/
def Refused (s : InodeSmi) (path name : CString) (s' : InodeSmi) : Prop :=
  s' = s ∧ ∀ w', ¬ s.view.SpoilsRename path.1 name.1 w'

/-- Where `do_rename` gets past its checks, the frozen blocks of both directories are held by
their snapshots, and an old target that goes has no block. -/
def RenamesCleanly (s : InodeSmi) (path name : Bytes) : Prop :=
  ∀ cs originalName ds targetName id parent t,
    s.view.RenameArgs path name cs originalName ds targetName id parent →
    s.view.tableAt parent curModifiableVer = .ok t →
    ((∀ p ∈ t, p.pathname ≠ targetName) ∨ s.view.Removable parent targetName) →
    HeldElsewhere s parent (fun _ => True) ∧
      (∀ p, (t.find? fun i => i.pathname = targetName) = some p → DropsNothing s p.inodeId) ∧
      ∀ originalParent, s.view.resolveComps cs = .ok originalParent →
        HeldElsewhere s originalParent (fun _ => True)

/-- `do_rename` refuses what its first half refuses, succeeds, or fails half-way. -/
theorem Fuse.ends_doRename_cases {ctx : FuseContext} {s : InodeSmi} (h : BlocksOk s)
    (hl : Links False s.view) {path name : CString} :
    Ends (doRename ctx path name) s
      (fun r s' => (s' = s ∧ ¬ s.view.Relinkable path.1 name.1) ∨
        (r = 0 ∧ BlocksOk s' ∧ s.view.Renames path.1 name.1 s'.view ∧
          (RenamesCleanly s path.1 name.1 → NoOrphan s → NoOrphan s')) ∨
        (r < 0 ∧ BlocksOk s' ∧ s.view.SpoilsRename path.1 name.1 s'.view))
      (fun e _ => ¬ e.Thrown) := by
  obtain ⟨list, hlist⟩ := hl.exists_current
  unfold doRename
  refine (ends_catchTail (E := fun e s' => e.Thrown →
    (s' = s ∧ ¬ s.view.Relinkable path.1 name.1) ∨
    (caught ctx e < 0 ∧ BlocksOk s' ∧ s.view.SpoilsRename path.1 name.1 s'.view)) ?_
    fun e s' he hthrown => (he hthrown).imp_right fun hspoils => Or.inr hspoils).mono
    (fun _ _ hr => hr) fun _ _ he => he.1
  -- a refusal contradicts what the first half needs
  have hrefuse : (∀ cs originalName ds targetName id parent t,
      s.view.RenameArgs path.1 name.1 cs originalName ds targetName id parent →
      s.view.tableAt parent curModifiableVer = .ok t →
      ((∀ p ∈ t, p.pathname ≠ targetName) ∨ s.view.Removable parent targetName) → False) →
      s = s ∧ ¬ s.view.Relinkable path.1 name.1 := by
    refine fun hno => ⟨rfl, ?_⟩
    rintro ⟨cs, originalName, ds, targetName, id, parent, t, hargs, ht, hcase⟩
    exact hno cs originalName ds targetName id parent t hargs ht hcase
  refine ends_checkRdonlyFs (fun rest hlive => ?_)
    (fun ver rest hver hne => Or.inl (hrefuse ?_)) fun e he _ => Or.inl (hrefuse ?_)
  rotate_left
  · rintro cs originalName ds targetName id parent t hargs _ _
    obtain ⟨rest', hlive⟩ := hargs.live
    rw [hver] at hlive
    exact hne (congrArg Prod.fst (Except.ok.inj hlive))
  · rintro cs originalName ds targetName id parent t hargs _ _
    obtain ⟨rest', hlive⟩ := hargs.live
    rw [he] at hlive
    simp at hlive
  refine ends_checkRdonlyFs (fun rest' hlive' => ?_)
    (fun ver rest hver hne => Or.inl (hrefuse ?_)) fun e he _ => Or.inl (hrefuse ?_)
  rotate_left
  · rintro cs originalName ds targetName id parent t hargs _ _
    obtain ⟨rest', hlive'⟩ := hargs.live'
    rw [hver] at hlive'
    exact hne (congrArg Prod.fst (Except.ok.inj hlive'))
  · rintro cs originalName ds targetName id parent t hargs _ _
    obtain ⟨rest', hlive'⟩ := hargs.live'
    rw [he] at hlive'
    simp at hlive'
  rw [Program.ends_bind, Program.ends_reads, h.resolve_eq]
  refine ⟨fun id hid => ?_, fun e he _ => Or.inl (hrefuse ?_)⟩
  swap
  · rintro cs originalName ds targetName id parent t hargs _ _
    rw [hargs.source] at he
    simp at he
  rw [Program.ends_bind]
  refine ends_popPath (fun hnil _ => Or.inl (hrefuse ?_)) fun cs originalName hpath => ?_
  · rintro cs originalName ds targetName id parent t hargs _ _
    have hne := hargs.hpath
    rw [hnil] at hne
    simp at hne
  simp only [PathT.size, List.length_cons, Nat.add_eq_zero_iff, one_ne_zero, and_false, if_false]
  rw [Program.ends_bind]
  refine ends_popPath (fun hnil _ => Or.inl (hrefuse ?_)) fun ds targetName hname => ?_
  · rintro cs originalName ds targetName id parent t hargs _ _
    have hne := hargs.hname
    rw [hnil] at hne
    simp at hne
  simp only [List.length_cons, Nat.add_eq_zero_iff, one_ne_zero, and_false, if_false]
  have hds : ∀ c ∈ ds, IsName c := fun c hc =>
    isName_of_mem_comps (p := name.1) c (by simp [hname, hc])
  -- the target, as every spoiled rename sees it
  have htarget : ∀ cs' originalName' ds' targetName' id' parent',
      s.view.RenameArgs path.1 name.1 cs' originalName' ds' targetName' id' parent' →
      targetName' = targetName ∧ s.view.resolveComps ds = .ok parent' := by
    intro cs' originalName' ds' targetName' id' parent' hargs
    have heq := hargs.hname
    rw [hname] at heq
    obtain ⟨rfl, hlast⟩ := List.append_inj' heq rfl
    exact ⟨(List.singleton_inj.mp hlast).symm, hargs.target⟩
  rw [Program.ends_bind, Program.ends_reads, h.resolve_eq, View.resolve_toString hds]
  refine ⟨fun parent hparent => ?_, fun e he _ => Or.inl (hrefuse ?_)⟩
  swap
  · rintro cs' originalName' ds' targetName' id' parent' t hargs _ _
    rw [(htarget _ _ _ _ _ _ hargs).2] at he
    simp at he
  have hargs : s.view.RenameArgs path.1 name.1 cs originalName ds targetName id parent :=
    ⟨hpath, hname, ⟨rest, hlive⟩, ⟨rest', hlive'⟩, hid, hparent⟩
  rw [Program.ends_bind]
  refine ends_getInodeById (fun n hn => ?_) fun e hnone _ _ => Or.inl (hrefuse ?_)
  swap
  · rintro cs' originalName' ds' targetName' id' parent' t hargs' ht _
    obtain rfl := Except.ok.inj (hparent.symm.trans (htarget _ _ _ _ _ _ hargs').2)
    rw [View.tableAt_of_none hnone] at ht
    simp at ht
  rw [Program.ends_bind]
  refine h.ends_resolver_new (View.deref?_of_node hn) (fun t _ ht => ?_)
    fun e herr _ _ => Or.inl (hrefuse ?_)
  swap
  · rintro cs' originalName' ds' targetName' id' parent' t hargs' ht _
    obtain rfl := Except.ok.inj (hparent.symm.trans (htarget _ _ _ _ _ _ hargs').2)
    rw [View.tableAt_of_node hn, blockSize_view, herr] at ht
    simp at ht
  rw [Program.ends_bind]
  refine (h.ends_relink hlist hn ht).mono ?_ ?_
  swap
  · intro e s' he hthrown
    rcases he hthrown with ⟨rfl, ⟨t₀, ht₀, p, hp, hpname⟩, hrem⟩ | ⟨rfl, h', hremove, hagain⟩
    · refine Or.inl (hrefuse ?_)
      rintro cs' originalName' ds' targetName' id' parent' t' hargs' ht' hcase
      obtain ⟨rfl, hparent'⟩ := htarget _ _ _ _ _ _ hargs'
      obtain rfl := Except.ok.inj (hparent.symm.trans hparent')
      obtain rfl := Except.ok.inj (ht₀.symm.trans ht')
      rcases hcase with hnew | hrem'
      · exact hnew p hp hpname
      · exact hrem hrem'
    · exact Or.inr ⟨by simp [caught, ErrorCode.myErrno, eExist], h', .twice hargs hremove hagain⟩
  rintro _ s₁ ⟨h₁, hrelink, horphan₁, hheld₁⟩
  have hzero : 0 ∉ targetName := fun hmem =>
    name.2.1 (mem_of_mem_comps (by simp [hname]) hmem)
  rw [Program.ends_bind]
  refine (hargs.ends_unlinkOriginal h₁ hl hrelink hzero).mono ?_ ?_
  · rintro _ s' ⟨h', hrenames, horphan⟩
    refine Or.inr (Or.inl ⟨rfl, h', hrenames, fun hclean horphan₀ => ?_⟩)
    have htable : s.view.tableAt parent curModifiableVer = .ok t := by
      rw [View.tableAt_of_node hn, blockSize_view, ht]
    obtain ⟨hheld, hdrops, hheld'⟩ := hclean cs originalName ds targetName id parent t hargs htable
      (hrelink.allowed htable)
    exact horphan (fun p hp => hheld₁ _ _ (hheld' p hp)) (horphan₁ hheld hdrops horphan₀)
  · intro e s' he hthrown
    obtain ⟨rfl, hhalf, rfl⟩ := he hthrown
    refine Or.inr ⟨?_, h₁, .half hargs hhalf hrelink⟩
    simp [caught, ErrorCode.myErrno, eInval]

theorem Fuse.ends_doRename {ctx : FuseContext} {s : InodeSmi} (h : BlocksOk s)
    (hl : Links False s.view) {path name : CString} :
    Ends (doRename ctx path name) s
      (fun r s' => Refused s path name s' ∨
        (r = 0 ∧ BlocksOk s' ∧ s.view.Renames path.1 name.1 s'.view) ∨
        (r < 0 ∧ BlocksOk s' ∧ s.view.SpoilsRename path.1 name.1 s'.view))
      (fun e _ => ¬ e.Thrown) :=
  (Fuse.ends_doRename_cases h hl).mono
    (fun _ _ hr => hr.imp (fun hrefused =>
      ⟨hrefused.1, fun _ hspoils => hrefused.2 hspoils.inv⟩)
      (Or.imp_left fun hrenames => ⟨hrenames.1, hrenames.2.1, hrenames.2.2.1⟩)) fun _ _ he => he

end Htmpfs
