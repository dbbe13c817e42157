import Mathlib
import Htmpfs.Listing

/-!
# A new name and what it leads to

A callback resolves the parent of a path, and `make_child_dentry_under_parent`
enters the last component there.  The path leads to the new inode afterwards,
and other ways are left alone, if the directory can be read back.
-/

namespace Htmpfs

section Ways

variable {w w' : View} {parent id p start : ℕ} {name : Bytes} {isDir : Bool} {ver : SnapshotVer}
  {cs rest front : List Bytes} {t : List PathPack}

theorem View.lookup_append_new (hnew : ∀ p ∈ t, p.pathname ≠ name) :
    View.lookup (t ++ [⟨name, id⟩]) name = .ok id := by
  refine View.lookup_eq_ok.mpr ⟨⟨name, id⟩, ?_, rfl⟩
  rw [List.find?_append, List.find?_eq_none.mpr (by simpa using hnew)]
  simp

theorem View.MakesChild.parent_ne (hstep : w.MakesChild parent name isDir id w') :
    parent ≠ id := by
  rcases hstep with ⟨n, t, list, hname, hparent, htable, hnew, hfree, hid, hsize, hlist⟩
  rintro rfl
  rw [hfree] at hparent
  simp at hparent

theorem View.MakesChild.nameChar (hstep : w.MakesChild parent name isDir id w') :
    name.all InodeSmi.nameChar = true := by
  rcases hstep with ⟨n, t, list, hname, hparent, htable, hnew, hfree, hid, hsize, hlist⟩
  exact hname

/-- A way that does not end in the new inode stays, unless it meets the directory that can no
longer be read. -/
theorem View.MakesChild.walk_kept (hstep : w.MakesChild parent name isDir id w')
    (hway : w.walk ver start front = .ok p) (hp : p ≠ id) :
    w'.walk ver start front = .ok p ∨ (w.blockSize + 1 ≠ 2 ^ 64 ∧ ¬ NameFits name) ∧
      w'.walk ver start front = .error .undefined := by
  obtain ⟨t, ht, _, hfree, htables, _⟩ := hstep.tables
  have hnone : w.tableAt id ver = .error .outOfRange := View.tableAt_of_none hfree
  have hdead : ∀ j t', j = id → w.tableAt j ver = .ok t' → t' = [] := by
    rintro j t' rfl ht'
    rw [hnone] at ht'
    simp at ht'
  refine View.walk_kept hdead ?_ hway hp
  · intro j t' i k hj _ ht' hk
    rw [htables j ver hj]
    by_cases hcase : j = parent ∧ ver = curModifiableVer
    · obtain ⟨rfl, rfl⟩ := hcase
      obtain rfl := Except.ok.inj (ht.symm.trans ht')
      -- a table that the way passes has an entry, so that tables are read back
      obtain ⟨q, hq, _⟩ := View.lookup_mem hk
      have hword := View.word_of_tableAt ht (List.ne_nil_of_mem hq)
      rw [if_pos ⟨rfl, rfl⟩, View.savedTable_append hword ht]
      by_cases hfits : NameFits name
      · exact Or.inl ⟨_, by rw [if_pos hfits], View.lookup_append hk⟩
      · exact Or.inr ⟨⟨hword, hfits⟩, by rw [if_neg hfits]⟩
    · rw [if_neg hcase]
      exact Or.inl ⟨t', ht', hk⟩

/-- A way that does not end in the new inode was there before. -/
theorem View.MakesChild.walk_old (hstep : w.MakesChild parent name isDir id w')
    (hway : w'.walk ver start front = .ok p) (hp : p ≠ id) : w.walk ver start front = .ok p := by
  obtain ⟨t, ht, hnew, _, htables, hempty⟩ := hstep.tables
  have hdead : ∀ j t', j = id → w'.tableAt j ver = .ok t' → t' = [] := by
    rintro j t' rfl ht'
    rcases hempty ver with hnil | ⟨e, he, _⟩
    · exact (Except.ok.inj (hnil.symm.trans ht')).symm
    · rw [he] at ht'
      simp at ht'
  refine (@View.walk_kept _ _ _ _ _ _ _ False hdead ?_ hway hp).resolve_right fun hbad => hbad.1
  intro j t' i k hj hk ht' hlookup
  refine Or.inl ?_
  rw [htables j ver hj] at ht'
  split_ifs at ht' with hcase
  · obtain ⟨rfl, rfl⟩ := hcase
    obtain ⟨_, _, rfl⟩ := View.savedTable_eq_ok.mp ht'
    refine ⟨t, ht, ?_⟩
    have hne : name ≠ i := by
      rintro rfl
      rw [View.lookup_append_new hnew] at hlookup
      exact hk (Except.ok.inj hlookup).symm
    unfold View.lookup at hlookup ⊢
    rw [List.find?_append] at hlookup
    simpa [hne] using hlookup
  · exact ⟨t', ht', hlookup⟩

/-- The path of a new name leads to the new inode, if the table can be read back. -/
theorem View.MakesChild.resolveComps (hstep : w.MakesChild parent name isDir id w')
    (hlive : liveComps (cs ++ [name]) = .ok (curModifiableVer, rest)) (hname : name ≠ [])
    (hparent : w.resolveComps cs = .ok parent) :
    w'.resolveComps (cs ++ [name]) =
      if w.blockSize + 1 = 2 ^ 64 then .error (.htmpfs .bufferShortOps)
      else if NameFits name then .ok id else .error .undefined := by
  rcases liveComps_append hlive with rfl | ⟨front, rfl, hfront⟩
  · rw [View.resolveComps_snapshotEntry] at hparent
    simp at hparent
  rw [View.resolveComps_of_live hfront] at hparent
  rw [View.resolveComps_of_live hlive, View.walk_append]
  obtain ⟨t, ht, hnew, _, htables, _⟩ := hstep.tables
  have htable := htables parent curModifiableVer hstep.parent_ne
  rw [if_pos ⟨rfl, rfl⟩] at htable
  rcases hstep.walk_kept hparent hstep.parent_ne with hway | ⟨⟨hword, hlong⟩, hway⟩
  · rw [hway]
    by_cases hwrap : w.blockSize + 1 = 2 ^ 64
    · rw [View.savedTable, if_pos hwrap] at htable
      simp [View.walk, hname, htable, hwrap, bind, Except.bind]
    · rw [View.savedTable_append hwrap ht] at htable
      rw [if_neg hwrap]
      split_ifs with hfits
      · rw [if_pos hfits] at htable
        exact (View.walk_singleton hname).mpr ⟨_, htable, View.lookup_append_new hnew⟩
      · rw [if_neg hfits] at htable
        simp [View.walk, hname, htable, bind, Except.bind]
  · rw [hway, if_neg hword, if_neg hlong]
    rfl

/-- Resolution depends on the tables. -/
theorem View.walk_congr (htables : ∀ j, w'.tableAt j ver = w.tableAt j ver) :
    w'.walk ver start cs = w.walk ver start cs := by
  induction cs generalizing start with
  | nil => rfl
  | cons i rest ih =>
      simp only [View.walk]
      split_ifs
      · exact ih
      · rw [htables]
        simp only [ih]

theorem View.resolveComps_congr (htables : ∀ j u, w'.tableAt j u = w.tableAt j u)
    (hlisting : w'.listing = w.listing) : w'.resolveComps cs = w.resolveComps cs := by
  unfold View.resolveComps
  simp only [hlisting, View.walk_congr fun j => htables j _]

/-- The bytes of the new file do not matter to its path. -/
theorem View.MakesChild.resolveComps_setCurrent (hstep : w.MakesChild parent name false id w')
    (hlive : liveComps (cs ++ [name]) = .ok (curModifiableVer, rest)) (hname : name ≠ [])
    (hparent : w.resolveComps cs = .ok parent) {f : Bytes → Bytes} :
    (w'.setCurrent id f).resolveComps (cs ++ [name]) =
      if w.blockSize + 1 = 2 ^ 64 then .error (.htmpfs .bufferShortOps)
      else if NameFits name then .ok id else .error .undefined := by
  rw [← hstep.resolveComps hlive hname hparent]
  exact View.resolveComps_congr (fun _ _ => View.tableAt_setCurrent hstep.node_self rfl) rfl

theorem View.absolute_of_noSuchFileOrDir {path : Bytes}
    (hmissing : w.resolve path = .error (.htmpfs .noSuchFileOrDir)) : path.head? = some slash := by
  cases path with
  | nil => simp [View.resolve] at hmissing
  | cons c path =>
      by_contra hne
      have hc : c ≠ slash := by simpa using hne
      simp [View.resolve, hc] at hmissing

/-- Where a file is missing because its directory is. -/
theorem View.parent_error_of_noSuchFileOrDir {e : Exit}
    (hlive : liveComps (cs ++ [name]) = .ok (curModifiableVer, rest))
    (hmissing : w.resolveComps (cs ++ [name]) = .error (.htmpfs .noSuchFileOrDir))
    (hparent : w.resolveComps cs = .error e) :
    e = .htmpfs .noSuchFileOrDir ∨ e = .htmpfs .invalidDentryName := by
  rcases liveComps_append hlive with rfl | ⟨front, rfl, hfront⟩
  · rw [View.resolveComps_snapshotEntry] at hparent
    exact Or.inr (Except.error.inj hparent).symm
  · rw [View.resolveComps_of_live hfront] at hparent
    rw [View.resolveComps_of_live hlive, View.walk_append, hparent] at hmissing
    exact Or.inl (Except.error.inj hmissing)

/-- Only a missing last name is a missing file in a directory that is there. -/
theorem View.table_of_noSuchFileOrDir
    (hlive : liveComps (cs ++ [name]) = .ok (curModifiableVer, rest)) (hname : name ≠ [])
    (hparent : w.resolveComps cs = .ok parent)
    (hmissing : w.resolveComps (cs ++ [name]) = .error (.htmpfs .noSuchFileOrDir)) :
    ∃ t, w.tableAt parent curModifiableVer = .ok t ∧ ∀ p ∈ t, p.pathname ≠ name := by
  rcases liveComps_append hlive with rfl | ⟨front, rfl, hfront⟩
  · rw [View.resolveComps_snapshotEntry] at hparent
    simp at hparent
  rw [View.resolveComps_of_live hfront] at hparent
  rw [View.resolveComps_of_live hlive, View.walk_append, hparent] at hmissing
  have hwalk : w.walk curModifiableVer parent [name] = .error (.htmpfs .noSuchFileOrDir) := hmissing
  rw [View.walk, if_neg (by simpa using hname)] at hwalk
  rcases Program.bind_eq_error.mp hwalk with htable | ⟨t, ht, hlookup⟩
  · unfold View.tableAt at htable
    cases hn : w.node parent with
    | none => simp [hn] at htable
    | some n =>
        rw [hn] at htable
        rcases View.table_error htable with he | he | he <;> simp at he
  · refine ⟨t, ht, fun p hp hpname => ?_⟩
    have hmem : name ∈ t.map fun p => p.pathname := List.mem_map.mpr ⟨p, hp, hpname⟩
    obtain ⟨q, hq, hqlookup⟩ := View.exists_lookup hmem
    rcases Program.bind_eq_error.mp hlookup with hnone | ⟨next, _, hrest⟩
    · rw [hqlookup] at hnone
      simp at hnone
    · simp [View.walk] at hrest

end Ways

end Htmpfs
