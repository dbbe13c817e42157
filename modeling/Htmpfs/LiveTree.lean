import Mathlib
import Htmpfs.Frames
import Htmpfs.Renamed

/-!
# The live tree

Every listed inode is found from the root.  An entry is taken away with the
inode it names, or moved to another directory; a way that led through it leads
through its new place, unless that place was on the way itself.
-/

namespace Htmpfs

/-- Every inode of the current version is found by a path. -/
def View.Reached (w : View) : Prop :=
  ∀ k, w.ListsId curModifiableVer k → ∃ cs, w.Way cs k

section Reached

variable {w w' : View} {id parent k : ℕ} {name path : Bytes} {isDir : Bool} {cs : List Bytes}
  {n : NodeView}

theorem View.Reached.keepsVersion (hw : w.Reached) (h : Named w)
    (hkeeps : w.KeepsVersion curModifiableVer w') : w'.Reached := by
  rintro k ⟨e, he, rfl⟩
  obtain ⟨cs, hnames, hwalk⟩ := hw e.id ⟨e, (hkeeps.lists_iff e).mp he, rfl⟩
  refine ⟨cs, hnames, ?_⟩
  rw [hkeeps.walk_eq h (h.listsId_root h.isSome_current)]
  exact hwalk

/-- The ways need the entries of the current directories only. -/
theorem View.Reached.congr (hw : w.Reached)
    (hlists : ∀ k, w'.ListsId curModifiableVer k → w.ListsId curModifiableVer k)
    (htables : ∀ j, w'.tableAt j curModifiableVer = w.tableAt j curModifiableVer) :
    w'.Reached := by
  intro k hk
  obtain ⟨cs, hway⟩ := hw k (hlists k hk)
  exact ⟨cs, hway.kept fun _ _ _ _ _ _ hentry => (View.entryAt_congr htables).mpr hentry⟩

theorem View.Reached.rewrites {g : NodeView → NodeView} (hw : w.Reached) (hn : w.node id = some n)
    (hfile : n.isDentry = false) (hg : n.Rewrites (g n)) :
    (w.update id fun n => some (g n)).Reached :=
  hw.congr (fun _ hk => hk) fun _ => View.tableAt_rewrites hn hfile hg

theorem View.Reached.makesChild (hw : w.Reached) (hstep : w.MakesChild parent name isDir id w')
    (hword : w.blockSize + 1 ≠ 2 ^ 64) (hname : IsName name) (hfits : NameFits name)
    (hparent : w.ListsId curModifiableVer parent) : w'.Reached := by
  have hkept : ∀ {cs j}, w.Way cs j → w'.Way cs j := fun hway =>
    hway.kept fun _ _ _ _ _ _ hentry => (hstep.entryAt_iff hword hfits).mpr (Or.inl hentry)
  rintro k ⟨e, he, rfl⟩
  rcases (hstep.lists_iff _ e).mp he with he | ⟨_, rfl⟩
  · obtain ⟨cs, hway⟩ := hw e.id ⟨e, he, rfl⟩
    exact ⟨cs, hkept hway⟩
  · obtain ⟨cs, hway⟩ := hw parent hparent
    refine ⟨cs ++ [name], View.way_concat.mpr ⟨hname.ne_nil, parent, hkept hway, ?_⟩⟩
    exact (hstep.entryAt_iff hword hfits).mpr (Or.inr ⟨rfl, rfl, rfl⟩)

/-- Only the removed inode was found through its name. -/
theorem View.Reached.removesChild (hw : w.Reached) (h : Sound w)
    (hstep : w.RemovesChild parent name w') : w'.Reached := by
  obtain ⟨t, p, target, ht, hp, htarget, hempty, hne, htables, hlists⟩ := hstep.tables h.links
  have hentry : w.EntryAt parent name p.inodeId := ⟨t, ht, View.lookup_eq_ok.mpr ⟨p, hp, rfl⟩⟩
  rintro k ⟨e, he, rfl⟩
  obtain ⟨he, hkept⟩ := (hlists _ e).mp he
  obtain ⟨cs, hway⟩ := hw e.id ⟨e, he, rfl⟩
  refine ⟨cs, hway.kept fun front c i j hstarts hfront hstep' => ?_⟩
  refine (hstep.entryAt_iff h.links h.names).mpr ⟨hstep', ?_⟩
  rintro ⟨rfl, rfl⟩
  obtain ⟨q, hq, hends⟩ := hway.through hfront hstarts
  obtain rfl := hq.unique hentry
  exact hkept rfl (hends fun d l => hstep.not_entryAt h.links hentry)

theorem View.Way.append_kept {front front' rest : List Bytes} {i : ℕ} (h : w.Way (front ++ rest) k)
    (hfront : w.Way front i) (hfront' : w'.Way front' i)
    (hstep : ∀ before c j l, before ++ [c] <+: rest → w.Way (front ++ before) j →
      w.EntryAt j c l → w'.EntryAt j c l) : w'.Way (front' ++ rest) k := by
  induction rest using List.reverseRecOn generalizing k with
  | nil =>
      rw [List.append_nil] at h ⊢
      rw [h.unique hfront]
      exact hfront'
  | append_singleton before c ih =>
      rw [← List.append_assoc] at h ⊢
      obtain ⟨hc, j, hbefore, hentry⟩ := View.way_concat.mp h
      have hbefore' := ih hbefore fun before' c' j' l hstarts =>
        hstep before' c' j' l (hstarts.trans (List.prefix_append _ _))
      exact View.way_concat.mpr ⟨hc, j, hbefore', hstep before c j k List.prefix_rfl hbefore hentry⟩

end Reached

section Renames

variable {w w₀ w₁ w' : View} {path name : Bytes} {front front' : List Bytes}
  {originalName targetName : Bytes} {id parent originalParent j k : ℕ}

/-- What a rename takes off the list. -/
theorem View.Moves.listsId (hmoves : w.Moves path name front originalName front' targetName id
    parent originalParent w₀ w₁ w') (h : Named w) (hk : w'.ListsId curModifiableVer k) :
    w.ListsId curModifiableVer k ∧ ¬ w.EntryAt parent targetName k := by
  obtain ⟨e, he, rfl⟩ := hk
  have he₀ : w₀.Lists curModifiableVer e := by
    obtain ⟨f, rfl⟩ := hmoves.drops.view_eq
    obtain ⟨g, rfl⟩ := hmoves.adds.view_eq
    exact he
  rcases hmoves.removes with rfl | hremove
  · refine ⟨⟨e, he₀, rfl⟩, fun hentry => ?_⟩
    obtain ⟨t, ht, hnew, _⟩ := hmoves.adds.tables hmoves.zero hmoves.id_lt
    obtain ⟨t', q, ht', hq, hqname, _⟩ := hentry.mem
    obtain rfl := Except.ok.inj (ht.symm.trans ht')
    exact hnew q hq hqname
  · obtain ⟨t, p, _, ht, hp, _, _, _, _, hlists⟩ := hremove.tables h.links
    obtain ⟨hold, hne⟩ := (hlists _ e).mp he₀
    have hentry : w.EntryAt parent targetName p.inodeId :=
      ⟨t, ht, View.lookup_eq_ok.mpr ⟨p, hp, rfl⟩⟩
    exact ⟨⟨e, hold, rfl⟩, fun hentry' => hne rfl (hentry'.unique hentry)⟩

/-- The ways through the old name lead through the new one. -/
theorem View.Reached.moves (hw : w.Reached) (h : Sound w)
    (hmoves : w.Moves path name front originalName front' targetName id parent originalParent
      w₀ w₁ w') (hfits : NameFits targetName)
    (hbelow : front ++ [originalName] <+: front' ++ [targetName] →
      front ++ [originalName] = front' ++ [targetName]) : w'.Reached := by
  intro k hk
  obtain ⟨hlisted, hreplaced⟩ := hmoves.listsId h.toNamed hk
  obtain ⟨cs, hway⟩ := hw k hlisted
  have htarget : ¬ front' ++ [targetName] <+: cs := by
    intro hstarts
    obtain ⟨i, hlast, hends⟩ := hway.through hmoves.way' hstarts
    obtain rfl := hends fun _ _ => hmoves.replaced_not_entryAt h.toNamed hlast
    exact hreplaced hlast
  by_cases hsource : front ++ [originalName] <+: cs
  swap
  · exact ⟨cs, hmoves.way_kept h hfits hway hsource htarget⟩
  obtain ⟨rest, rfl⟩ := hsource
  have hnot : ¬ front ++ [originalName] <+: front' ++ [targetName] := fun hstarts =>
    htarget (hbelow hstarts ▸ List.prefix_append _ _)
  have hid : w.Way (front ++ [originalName]) id :=
    View.way_concat.mpr ⟨hmoves.names.1, originalParent, hmoves.way, hmoves.entry⟩
  refine ⟨front' ++ [targetName] ++ rest, hway.append_kept hid (hmoves.way_target h hfits hnot) ?_⟩
  intro before c j l hstarts hbefore hentry
  refine (hmoves.entryAt_iff h.toNamed hfits).mpr ⟨Or.inl ⟨hentry, ?_⟩, ?_⟩
  · rintro ⟨rfl, rfl⟩
    rw [← h.way_inj hbefore hmoves.way', List.append_assoc _ before] at hnot
    exact hnot (List.prefix_append _ _)
  · rintro ⟨rfl, rfl⟩
    have hlength := congrArg List.length (h.way_inj hbefore hmoves.way)
    simp only [List.length_append, List.length_singleton] at hlength
    omega

end Renames

/-! ## Runs -/

/-- No inode is renamed to a name below itself: with the prefix `/.snapshot/current` taken off
both, the components of the new path do not go on from those of the old one. -/
def FuseCall.StaysAbove : FuseCall → Prop
  | rename path name => ¬ ∃ out out', ifSnapshot path.1 = .ok (curModifiableVer, out) ∧
      ifSnapshot name.1 = .ok (curModifiableVer, out') ∧
        (PathT.ofString out).pathname <+: (PathT.ofString out').pathname ∧
          (PathT.ofString out).pathname ≠ (PathT.ofString out').pathname
  | _ => True

/-- The directories are sound, and every inode of the current version is found. -/
structure TreeShaped (w : View) : Prop extends Sound w where
  reached : w.Reached

section Runs

variable {w w' : View} {call : FuseCall} {s : InodeSmi} {parent : ℕ} {name : Bytes}

/-- The directory in which a call enters a name is a current one. -/
theorem Named.enters_listed (h : Named w) (henters : w.Enters call parent name) :
    IsName name ∧ w.ListsId curModifiableVer parent := by
  obtain ⟨path, cs, _, hpath, hparent, rest, hlive⟩ := henters
  refine ⟨isName_of_concat hpath, ?_⟩
  have hnames : ∀ c ∈ cs, IsName c := fun c hc =>
    isName_of_mem_comps (p := path.1) c (by simp [hpath, hc])
  have hcs : cs ≠ [snapshotEntry] := by
    rintro rfl
    rw [View.resolveComps_snapshotEntry] at hparent
    simp at hparent
  obtain ⟨front, _, hfront⟩ := (liveComps_append (hpath ▸ hlive)).resolve_left hcs
  obtain ⟨ver, rest', hlive', hlisted⟩ := h.resolveComps_listed hnames hparent
  rw [hfront] at hlive'
  obtain ⟨rfl, _⟩ := Prod.mk.inj (Except.ok.inj hlive')
  exact hlisted

theorem Sound.effect_reached (h : Sound w) (hw : w.Reached) (hstep : w.Effect call w')
    (hword : w.blockSize + 1 ≠ 2 ^ 64) (hfit : call.NamesFit) (hcut : ¬ w.CutsDirectory call)
    (hroot : call.KeepsRoot) (habove : call.StaysAbove) : w'.Reached := by
  cases hstep with
  | none => exact hw
  | makes henters hstep =>
      obtain ⟨hname, hparent⟩ := h.enters_listed henters
      exact hw.makesChild hstep hword hname (henters.fits hfit) hparent
  | makesFile f henters hstep =>
      obtain ⟨hname, hparent⟩ := h.enters_listed henters
      exact (hw.makesChild hstep hword hname (henters.fits hfit) hparent).rewrites
        hstep.node_self rfl NodeView.rewrites_setCurrent
  | removes hstep =>
      obtain ⟨_, _, hremove, _⟩ := hstep.removes h.links
      exact hw.removesChild h hremove
  | creates _ _ hstep =>
      exact hw.keepsVersion h.toNamed (hstep.keepsVersion h.toNamed hstep.ne_current.symm)
  | deletes _ _ hstep =>
      exact hw.keepsVersion h.toNamed (hstep.keepsVersion h.toNamed hstep.ne_current.symm)
  | rewrites f _ hn hfile =>
      have hkind : ¬ _ = true := fun hdir => hcut (hfile hdir)
      exact hw.rewrites hn (by simpa using hkind) NodeView.rewrites_setCurrent
  | @renames path name _ hcall hstep =>
      subst hcall
      obtain ⟨front, originalName, front', targetName, id, parent, originalParent, w₀, w₁,
        hmoves⟩ := hstep.moves name.2.1
      refine hw.moves h hmoves (hfit name rfl _ hmoves.mem) fun hstarts => ?_
      by_contra hne
      obtain ⟨out, hout, hpath⟩ := exists_ifSnapshot hmoves.live
      obtain ⟨out', hout', hname⟩ := exists_ifSnapshot hmoves.live'
      refine habove ⟨out, out', hout, hout', ?_⟩
      rw [hpath, hname, List.cons_prefix_cons, Ne, List.cons.injEq]
      exact ⟨⟨rfl, hstarts⟩, fun heq => hne heq.2⟩
  | @spoils path name _ hcall hstep =>
      subst hcall
      obtain ⟨_, _, _, _, _, hargs, _⟩ := hstep.source_root h.links h.names
      exact absurd rfl (h.source_ne_root hargs hroot)

/-- The step lemma. -/
theorem TreeShaped.effect (h : TreeShaped w) (hstep : w.Effect call w')
    (hword : w.blockSize + 1 ≠ 2 ^ 64) (hfit : call.NamesFit) (hcut : ¬ w.CutsDirectory call)
    (hroot : call.KeepsRoot) (habove : call.StaysAbove) : TreeShaped w' where
  toSound := h.toSound.effect hstep hfit hcut hroot
  reached := h.toSound.effect_reached h.reached hstep hword hfit hcut hroot habove

theorem Fresh.treeShaped {limits : PoolLimits} {blockSize : ℕ} (h : Fresh limits blockSize s) :
    TreeShaped s.view where
  toSound := h.sound
  reached := by
    rintro k ⟨e, he, rfl⟩
    obtain ⟨_, rfl⟩ := (h.view_lists _ e).mp he
    exact ⟨[], View.way_nil.mpr rfl⟩

/-- The run lemma. -/
theorem FuseReachableWith.treeShaped (h : FuseReachableWith (fun w call =>
    w.blockSize + 1 < 2 ^ 64 ∧ call.NamesFit ∧ ¬ w.CutsDirectory call ∧ call.KeepsRoot ∧
      call.StaysAbove) s) : BlocksOk s ∧ TreeShaped s.view :=
  FuseReachableWith.preserved (I := TreeShaped) (fun _ hw => hw.links.weaken)
    (fun _ _ _ hw hmet heffect =>
      have ⟨hword, hfit, hcut, hroot, habove⟩ := hmet
      hw.effect heffect hword.ne hfit hcut hroot habove)
    (fun _ _ _ hfresh => hfresh.treeShaped) h

end Runs

/-- The current directories are a tree with the root on top. -/
structure LiveTree (s : InodeSmi) : Prop where
  root : ∀ d t, InodeSmi.entries d curModifiableVer s = .ok t → ∀ p ∈ t,
    p.inodeId ≠ rootInodeNumber
  named : ∀ k, s.ListsInode curModifiableVer k → k ≠ rootInodeNumber → ∃ d t p,
    s.ListsInode curModifiableVer d ∧ InodeSmi.entries d curModifiableVer s = .ok t ∧
      (t.filter fun q => q.inodeId = k) = [p] ∧
        ∀ d' t', d' ≠ d → InodeSmi.entries d' curModifiableVer s = .ok t' →
          ∀ q ∈ t', q.inodeId ≠ k
  reached : ∀ k, s.ListsInode curModifiableVer k → Relation.ReflTransGen
    (fun d e => ∃ t p, InodeSmi.entries d curModifiableVer s = .ok t ∧ p ∈ t ∧ p.inodeId = e)
    rootInodeNumber k

section Tree

variable {w : View} {s : InodeSmi} {cs : List Bytes} {k : ℕ}

/-- All of one element, and it at most once. -/
theorem filter_eq_singleton {t : List PathPack} {p : PathPack} (ht : t.Nodup) (hp : p ∈ t)
    (hall : ∀ q ∈ t, q.inodeId = p.inodeId → q = p) :
    (t.filter fun q => q.inodeId = p.inodeId) = [p] := by
  have hmem : p ∈ t.filter fun q => q.inodeId = p.inodeId := List.mem_filter.mpr ⟨hp, by simp⟩
  have hsame : ∀ q ∈ t.filter (fun q => q.inodeId = p.inodeId), q = p := fun q hq =>
    hall q (List.mem_filter.mp hq).1 (by simpa using (List.mem_filter.mp hq).2)
  have hnodup := ht.filter fun q => decide (q.inodeId = p.inodeId)
  rw [List.eq_replicate_of_mem hsame] at hnodup hmem ⊢
  have hone := List.nodup_replicate.mp hnodup
  have hpos := (List.mem_replicate.mp hmem).1
  rw [Nat.le_antisymm hone (Nat.one_le_iff_ne_zero.mpr hpos)]
  rfl

theorem BlocksOk.reached_of_way (h : BlocksOk s) (hway : s.view.Way cs k) :
    Relation.ReflTransGen (fun d e => ∃ t p, InodeSmi.entries d curModifiableVer s = .ok t ∧
      p ∈ t ∧ p.inodeId = e) rootInodeNumber k := by
  induction cs using List.reverseRecOn generalizing k with
  | nil =>
      rw [View.way_nil.mp hway]
  | append_singleton front c ih =>
      obtain ⟨_, j, hfront, hentry⟩ := View.way_concat.mp hway
      obtain ⟨t, p, ht, hp, _, hid⟩ := hentry.mem
      exact (ih hfront).tail ⟨t, p, h.entries_eq.trans ht, hp, hid⟩

/-- In runs that read tables back, enter fitting names, cut no directory, do not rename the root and
move no inode below itself, the current directories are a tree. -/
theorem live_tree (hs : FuseReachableWith (fun w call => w.blockSize + 1 < 2 ^ 64 ∧
    call.NamesFit ∧ ¬ w.CutsDirectory call ∧ call.KeepsRoot ∧ call.StaysAbove) s) :
    LiveTree s := by
  obtain ⟨h, hw⟩ := hs.treeShaped
  refine { root := fun d t ht p hp => ?_, named := fun k hk hroot => ?_, reached := fun k hk => ?_ }
  · exact hw.rootless d _ t (h.entries_eq ▸ ht) p hp
  · obtain ⟨cs, hway⟩ := hw.reached k (listsInode_iff.mp hk)
    rcases List.eq_nil_or_concat cs with rfl | ⟨front, c, rfl⟩
    · exact absurd (View.way_nil.mp hway) hroot
    rw [List.concat_eq_append] at hway
    obtain ⟨_, d, hfront, hentry⟩ := View.way_concat.mp hway
    obtain ⟨t, p, ht, hp, _, rfl⟩ := hentry.mem
    have hd : s.view.ListsId curModifiableVer d :=
      hw.walk_listed (hw.listsId_root hw.isSome_current) hfront.walk
    have hunique : ∀ d' t', s.view.tableAt d' curModifiableVer = .ok t' → ∀ q ∈ t',
        q.inodeId = p.inodeId → d' = d ∧ q = p := fun d' t' ht' q hq hid =>
      hw.unique d' d t' t ht' ht q hq p hp hid (hid ▸ hroot)
    refine ⟨d, t, p, listsInode_iff.mpr hd, h.entries_eq.trans ht, ?_, ?_⟩
    · exact filter_eq_singleton (hw.names d _ t ht).of_map hp fun q hq hid => (hunique d t ht q hq hid).2
    · intro d' t' hne ht' q hq hid
      exact hne (hunique d' t' (h.entries_eq ▸ ht') q hq hid).1
  · obtain ⟨cs, hway⟩ := hw.reached k (listsInode_iff.mp hk)
    exact h.reached_of_way hway

theorem live_tree_sampleMount : LiveTree sampleMount :=
  live_tree (fuseReachable_sampleMount ⟨by decide +kernel,
    FuseCall.namesFit_of_newPath rfl (by decide), View.not_cutsDirectory_create, trivial, trivial⟩)

/-- `"/.snapshot/current/a/b"` -/
def insidePath : CString :=
  ⟨slash :: snapshotEntry ++ slash :: curModifiableVer ++ [47, 97, 47, 98], by decide⟩

/-- The file system with a directory `a` in its root. -/
def sampleDirMount : InodeSmi :=
  Program.exec ((FuseCall.mkdir samplePath 0).run sampleContext) (mount sampleContext .libstdcxx 512)

/-- The file system after the directory was renamed to a name below itself. -/
def detachedMount : InodeSmi :=
  Program.exec ((FuseCall.rename samplePath insidePath).run sampleContext) sampleDirMount

/-- What a run of the calls that change names may be made of. -/
def FuseCall.Renamable (call : FuseCall) : Prop :=
  call.ChangesNames ∧ call.NamesFit ∧ (∀ path, call.newPath = some path → path.1.head? = some slash) ∧
    ∀ path name, call = .rename path name →
      path.1.head? = some slash ∧ path.1 ≠ name.1 ∧ ¬ path.1 ++ [slash] <+: name.1

/-- A directory that is renamed to its other spelling and a name below is not found any more. -/
theorem not_live_tree :
    ¬ ∀ s, FuseReachableWith (fun _ call => call.Renamable) s → LiveTree s := by
  intro hall
  have hdir : (FuseCall.mkdir samplePath 0).Renamable := by
    refine ⟨trivial, FuseCall.namesFit_of_newPath rfl (by decide), ?_, by simp⟩
    rintro _ ⟨⟩
    rfl
  have hbelow : (FuseCall.rename samplePath insidePath).Renamable := by
    refine ⟨trivial, FuseCall.namesFit_of_newPath rfl (by decide), ?_, ?_⟩
    · rintro _ ⟨⟩
      rfl
    · rintro _ _ ⟨⟩
      exact ⟨rfl, by decide, by decide⟩
  have hreach : FuseReachableWith (fun _ call => call.Renamable) sampleDirMount :=
    ⟨sampleContext, .libstdcxx, 512, by decide, by decide, Relation.ReflTransGen.single
      (FuseStep.of_outcome (r := 0) trivial hdir (by decide +kernel))⟩
  have hreach' : FuseReachableWith (fun _ call => call.Renamable) detachedMount :=
    hreach.exec (r := 0) trivial hbelow (by decide +kernel)
  have hempty : InodeSmi.entries rootInodeNumber curModifiableVer detachedMount = .ok [] := by
    decide +kernel
  have hids : (detachedMount.snapshotVersionList[curModifiableVer]?.map fun list =>
      list.map (·.id)) = some [0, 1] := by decide +kernel
  have hlisted : detachedMount.ListsInode curModifiableVer 1 := by
    obtain ⟨list, hlist, hmap⟩ := Option.map_eq_some_iff.mp hids
    exact ⟨list, hlist, by simp [hmap]⟩
  rcases ((hall detachedMount hreach').reached 1 hlisted).cases_head with hroot | ⟨_, hstep, _⟩
  · exact absurd hroot (by decide)
  · obtain ⟨t, p, ht, hp, _⟩ := hstep
    rw [hempty] at ht
    rw [← Except.ok.inj ht] at hp
    simp at hp

end Tree

end Htmpfs
