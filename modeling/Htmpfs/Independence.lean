import Mathlib
import Htmpfs.FailedCalls
import Htmpfs.Traces
import Htmpfs.Library.Commuting

/-!
# Callbacks that do not meet

What a callback does to the trees depends on the trees alone, and is confined to
the paths that it was given.  So the block size of a mount cannot be seen, what
is not named in a run is still there behind it, and calls on paths that have
nothing to do with each other can be made in either order.
-/

namespace Htmpfs

open Program (Ends Trace)

/-- No path that one call may change is above or below one that the other may change, they do not
make or drop the same snapshot, and where one makes a snapshot the other changes no tree. -/
def FuseCall.Independent (call call' : FuseCall) : Prop :=
  ∀ a b, call.Asks a → call'.Asks b → a.Independent b

/-- The call does not ask for a change at the path. -/
def FuseCall.Spares (call : FuseCall) (q : List Bytes) : Prop :=
  ∀ a, call.Asks a → ¬ a.Within q

/-- The call does not ask for a version to be made or dropped. -/
def FuseCall.SparesVersion (call : FuseCall) (ver : SnapshotVer) : Prop :=
  ∀ a, call.Asks a → a.version ≠ some ver

/-- The same answer, or both times an errno. -/
def AnswersAgree (l l' : FuseCall × ℤ) : Prop :=
  (∀ path size offset, l.1 ≠ .read path size offset) → l.2 = l'.2 ∨ l.2 < 0 ∧ l'.2 < 0

section Answers

variable {w : View} {fs fs' fs₁ fs₂ : Trees} {call : FuseCall} {r r' : ℤ} {path : CString}
  {a : Volume.Action Bytes Bytes SnapshotVer} {ver : SnapshotVer} {q : List Bytes}

theorem FuseCall.Asks.not_looks (h : call.Asks a) : ¬ call.Looks := by
  intro hlooks
  cases call with
  | chmod => exact h
  | chown => exact h
  | utimens => exact h
  | read => exact h
  | _ => exact hlooks

theorem FuseCall.Sees.looks (h : call.Sees fs r) : call.Looks := by
  cases call with
  | chmod => trivial
  | chown => trivial
  | utimens => trivial
  | read => trivial
  | _ => exact h.elim

/-- What can be done is done. -/
theorem Trees.Answers.eq_of_does (h : fs.Answers call r fs₁) (hasks : call.Asks a)
    (hdoes : fs.Does a fs') : r = call.result ∧ fs₁ = fs' := by
  cases h with
  | does hasks' hdoes' =>
      obtain rfl := FuseCall.asks_unique hasks hasks' hdoes hdoes'
      exact ⟨rfl, hdoes'.unique hdoes⟩
  | refuses _ _ hno => exact absurd ⟨a, fs', hasks, hdoes⟩ hno
  | sees hsees => exact absurd hsees.looks hasks.not_looks

/-- An answer without an errno is that something was done. -/
theorem Trees.Answers.exists_does (h : fs.Answers call r fs') (hr : 0 ≤ r)
    (hlooks : ¬ call.Looks) : ∃ a, call.Asks a ∧ fs.Does a fs' ∧ r = call.result := by
  cases h with
  | does hasks hdoes => exact ⟨_, hasks, hdoes, rfl⟩
  | refuses hneg _ _ => exact absurd hneg (not_lt.mpr hr)
  | sees hsees => exact absurd hsees.looks hlooks

theorem Trees.Touches.agree {path : Bytes} (h : fs.Touches path r) (h' : fs.Touches path r') :
    r = r' ∨ r < 0 ∧ r' < 0 := by
  rcases h with ⟨rfl, e, he⟩ | ⟨hneg, hno⟩
  · rcases h' with ⟨rfl, _⟩ | ⟨_, hno'⟩
    · exact Or.inl rfl
    · exact absurd he (hno' e)
  · rcases h' with ⟨rfl, e, he⟩ | ⟨hneg', _⟩
    · exact absurd he (hno e)
    · exact Or.inr ⟨hneg, hneg'⟩

/-- The answers depend on the trees alone. -/
theorem Trees.Answers.agree (h : fs.Answers call r fs₁) (h' : fs.Answers call r' fs₂) :
    fs₁ = fs₂ ∧ AnswersAgree (call, r) (call, r') := by
  cases h with
  | does hasks hdoes =>
      obtain ⟨rfl, rfl⟩ := h'.eq_of_does hasks hdoes
      exact ⟨rfl, fun _ => Or.inl rfl⟩
  | refuses hneg hlooks hno =>
      cases h' with
      | does hasks hdoes => exact absurd ⟨_, _, hasks, hdoes⟩ hno
      | refuses hneg' _ _ => exact ⟨rfl, fun _ => Or.inr ⟨hneg, hneg'⟩⟩
      | sees hsees => exact absurd hsees.looks hlooks
  | sees hsees =>
      cases h' with
      | does hasks _ => exact absurd hsees.looks hasks.not_looks
      | refuses _ hlooks _ => exact absurd hsees.looks hlooks
      | sees hsees' =>
          refine ⟨rfl, fun hread => ?_⟩
          cases call with
          | chmod => exact Trees.Touches.agree hsees hsees'
          | chown => exact Trees.Touches.agree hsees hsees'
          | utimens => exact Trees.Touches.agree hsees hsees'
          | read => exact absurd rfl (hread _ _ _)
          | _ => exact hsees.elim

theorem Trees.Answers.entry_eq (h : fs.Answers call r fs') (hspares : call.Spares q) :
    fs'.current.entry q = fs.current.entry q := by
  cases h with
  | does hasks hdoes => exact hdoes.entry_eq (hspares _ hasks)
  | _ => rfl

theorem Trees.Answers.frozen_eq (h : fs.Answers call r fs') (hspares : call.SparesVersion ver) :
    fs'.frozen ver = fs.frozen ver := by
  cases h with
  | does hasks hdoes => exact hdoes.frozen_eq (hspares _ hasks)
  | _ => rfl

/-- A directory that a call would cut can be seen in the trees. -/
theorem View.Shows.has_of_cutsDirectory (hshows : w.Shows fs) (h : Named w)
    (hcut : w.CutsDirectory call) : ∃ path ver, call.Cuts path ∧ fs.Has path.1 ver .dir := by
  obtain ⟨path, id, n, hcuts, hid, hn, hdir⟩ := hcut
  obtain ⟨ver, q, hlead⟩ := leadsInto_of_resolve hid
  obtain ⟨n', c, hn', hc⟩ := h.exists_data hid hlead
  obtain rfl := Option.some.inj (hn.symm.trans hn')
  refine ⟨path, ver, hcuts, (hshows.has_iff h).mpr ⟨⟨q, hlead⟩, id, n, c, hid, hn, hc, ?_⟩⟩
  rw [if_pos hdir]

/-- What can be done cuts no directory. -/
theorem View.Shows.not_cutsDirectory (hshows : w.Shows fs) (h : Named w) (hasks : call.Asks a)
    (hdoes : fs.Does a fs') : ¬ w.CutsDirectory call := by
  intro hcut
  obtain ⟨path, ver, hcuts, _, q, hlead, hentry⟩ := hshows.has_of_cutsDirectory h hcut
  have hbytes : ∀ f, ¬ AsksBytes path.1 f a := by
    rintro f ⟨q', _, hlead', rfl⟩
    obtain ⟨rfl, rfl⟩ := hlead.unique hlead'
    cases hdoes with
    | rewrite hleaf =>
        rw [Trees.entry, if_pos rfl, hleaf] at hentry
        simp at hentry
  have hnew : ∀ e, ¬ AsksEntry path.1 e a := by
    rintro e ⟨front, name, hlead', _, rfl⟩
    obtain ⟨rfl, rfl⟩ := hlead.unique hlead'
    cases hdoes with
    | add _ hnone =>
        rw [Trees.entry, if_pos rfl, hnone] at hentry
        simp at hentry
  cases call with
  | truncate =>
      obtain rfl := hcuts
      rcases hasks with hasks | ⟨_, hasks⟩
      · exact hbytes _ hasks
      · exact hnew _ hasks
  | fallocate =>
      obtain rfl := hcuts
      exact hbytes _ hasks
  | _ => exact hcuts

end Answers

section Runs

variable {ctx ctx' : FuseContext} {s s' s₁ s₂ : InodeSmi} {fs fs' : Trees} {call call' : FuseCall}
  {r r' : ℤ} {a : Volume.Action Bytes Bytes SnapshotVer} {ls ls' : List (FuseCall × ℤ)}

/-- A callback that is possible is done, or memory runs out. -/
theorem done_run (h : BlocksOk s) (hw : Orderly s.view) (hshows : s.view.Shows fs)
    (hvalid : call.Valid) (hfit : call.NamesFit) (hroot : call.KeepsRoot) (hasks : call.Asks a)
    (hdoes : fs.Does a fs') :
    Ends (call.run ctx) s
      (fun r s' => r = call.result ∧ BlocksOk s' ∧ Orderly s'.view ∧ s'.view.Shows fs')
      (fun e _ => e = .badAlloc) := by
  have hcut := hshows.not_cutsDirectory hw.toNamed hasks hdoes
  apply (answers_run h hw hshows hvalid ⟨hfit, hcut, hroot⟩).mono
  · rintro r s' ⟨h', hw', fs₁, hanswers, hshows'⟩
    obtain ⟨hr, rfl⟩ := hanswers.eq_of_does hasks hdoes
    exact ⟨hr, h', hw', hshows'⟩
  · exact fun e _ he => he.2.of_possible ⟨a, fs', hasks, hdoes⟩

/-- In every run from a state behind a run, what no call asks for stays as it is. -/
theorem run_frame (hs : FuseReachableWith View.Regular s) (hword : s.blockSize + 1 < 2 ^ 64)
    (hshows : s.Shows fs)
    (h : Trace (FuseAnswer View.Regular) s ls s') : ∃ fs', s'.Shows fs' ∧
      (∀ q, (∀ l ∈ ls, l.1.Spares q) → fs'.current.entry q = fs.current.entry q) ∧
      ∀ ver, (∀ l ∈ ls, l.1.SparesVersion ver) → fs'.frozen ver = fs.frozen ver := by
  obtain ⟨hok, hw⟩ := hs.orderly hword
  obtain ⟨fs', htrace, hok', hw', hshows'⟩ :=
    exists_trees ⟨hok, hw, (hok.shows_iff hw.word).mp hshows⟩ h
  refine ⟨fs', (hok'.shows_iff hw'.word).mpr hshows', fun q hq => ?_, fun ver hver => ?_⟩
  · exact htrace.keeps (f := fun t : Trees => t.current.entry q) (C := fun l => l.1.Spares q)
      (fun _ _ _ hstep hl => Trees.Answers.entry_eq hstep hl) hq
  · exact htrace.keeps (f := fun t : Trees => t.frozen ver) (C := fun l => l.1.SparesVersion ver)
      (fun _ _ _ hstep hl => Trees.Answers.frozen_eq hstep hl) hver

/-- The sample, with a second file `b`. -/
def secondMount : InodeSmi :=
  Program.exec ((FuseCall.create secondPath 0).run sampleContext) sampleMount

theorem answer_secondMount :
    FuseAnswer View.Regular sampleMount (.create secondPath 0, 0) secondMount := by
  have hrun : Program.outcome ((FuseCall.create secondPath 0).run sampleContext) sampleMount =
      .ok 0 := by decide +kernel
  have hregular : View.Regular sampleMount.view (.create secondPath 0) :=
    View.regular_of_not_cuts (fun _ hcuts => hcuts)
      (FuseCall.namesFit_of_newPath rfl (by decide)) trivial
  exact ⟨sampleContext, trivial, hregular, Program.eq_ok_of_outcome hrun⟩

theorem eq_of_leadsInto {path name : Bytes} {q : List Bytes} (hpath : comps path = [name])
    (hname : name ≠ snapshotEntry) (hlead : LeadsInto path curModifiableVer q) : q = [name] := by
  rw [leadsInto_iff, hpath, liveComps, if_neg hname] at hlead
  exact (Prod.mk.inj (Program.pure_eq_ok.mp hlead)).2.symm

/-- A file in the root. -/
theorem asks_create_of_comps {path : CString} {mode : ℕ} {name : Bytes}
    (hpath : comps path.1 = [name]) (hname : name ≠ snapshotEntry)
    (hasks : (FuseCall.create path mode).Asks a) : a = .add [] name (.leaf []) := by
  obtain ⟨front, name', hlead, _, rfl⟩ := hasks
  have hfront : front ++ [name'] = [] ++ [name] := eq_of_leadsInto hpath hname hlead
  obtain ⟨rfl, hlast⟩ := List.append_inj' hfront rfl
  rw [List.singleton_inj.mp hlast]

theorem comps_secondPath : comps secondPath.1 = [[98]] := by decide

theorem run_frame_sampleMount : ∃ fs fs' : Trees, sampleMount.Shows fs ∧ secondMount.Shows fs' ∧
    fs'.current.entry [[97]] = fs.current.entry [[97]] := by
  have hs := regular_sampleMount
  have hanswer := answer_secondMount
  have hspares : (FuseCall.create secondPath 0).Spares [[97]] := by
    rintro a hasks ⟨x, hx, hstarts⟩
    obtain rfl := asks_create_of_comps comps_secondPath (by decide) hasks
    obtain rfl := List.mem_singleton.mp hx
    exact absurd hstarts (by decide)
  have hword : sampleMount.blockSize + 1 < 2 ^ 64 := by decide +kernel
  generalize sampleMount = s at hs hword hanswer ⊢
  generalize secondMount = s' at hanswer ⊢
  obtain ⟨fs, hshows⟩ := hs.exists_shows hword
  obtain ⟨fs', hshows', hentry, _⟩ := run_frame hs hword hshows (Trace.cons hanswer Trace.nil)
  refine ⟨fs, fs', hshows, hshows', hentry _ fun l hl => ?_⟩
  rw [List.mem_singleton.mp hl]
  exact hspares

/-- Two mounts that were given the same calls show the same trees, and gave the same answers. -/
theorem mounts_agree {limits limits' : PoolLimits} {blockSize blockSize' : ℕ}
    (hpos : 0 < blockSize) (hword : blockSize + 1 < 2 ^ 64) (hpos' : 0 < blockSize')
    (hword' : blockSize' + 1 < 2 ^ 64)
    (h : Trace (FuseAnswer View.Regular) (mount ctx limits blockSize) ls s)
    (h' : Trace (FuseAnswer View.Regular) (mount ctx' limits' blockSize') ls' s')
    (hcalls : ls.map Prod.fst = ls'.map Prod.fst) :
    (∃ fs, s.Shows fs ∧ s'.Shows fs) ∧ List.Forall₂ AnswersAgree ls ls' := by
  obtain ⟨fs, htrace, hok, hw, hshows⟩ := exists_trees (trees_mount hpos hword) h
  obtain ⟨fs', htrace', hok', hw', hshows'⟩ := exists_trees (trees_mount hpos' hword') h'
  have hstep : ∀ (fs : Trees) (l l' : FuseCall × ℤ) (fs₁ fs₂ : Trees), Trees.Step fs l fs₁ →
      Trees.Step fs l' fs₂ → l.1 = l'.1 → fs₁ = fs₂ ∧ AnswersAgree l l' := by
    rintro fs ⟨call, r⟩ ⟨_, r'⟩ fs₁ fs₂ hanswers hanswers' rfl
    exact hanswers.agree hanswers'
  obtain ⟨rfl, hagree⟩ := htrace.agrees hstep htrace' hcalls
  exact ⟨⟨fs, (hok.shows_iff hw.word).mpr hshows, (hok'.shows_iff hw'.word).mpr hshows'⟩, hagree⟩

theorem mounts_agree_sampleMount :
    (∃ fs, sampleMount.Shows fs ∧
      (Program.exec ((FuseCall.create samplePath 0).run sampleContext)
        (mount sampleContext .libstdcxx 1024)).Shows fs) ∧
      List.Forall₂ AnswersAgree [(.create samplePath 0, 0)] [(.create samplePath 0, 0)] := by
  have hrun : Program.outcome ((FuseCall.create samplePath 0).run sampleContext)
      (mount sampleContext .libstdcxx 1024) = .ok 0 := by decide +kernel
  have hanswer : FuseAnswer View.Regular (mount sampleContext .libstdcxx 1024)
      (.create samplePath 0, 0)
      (Program.exec ((FuseCall.create samplePath 0).run sampleContext)
        (mount sampleContext .libstdcxx 1024)) :=
    ⟨sampleContext, trivial, regular_create_samplePath, Program.eq_ok_of_outcome hrun⟩
  exact mounts_agree (by decide) (by decide) (by decide) (by decide)
    (Trace.cons answer_sampleMount Trace.nil) (Trace.cons hanswer Trace.nil) rfl

/-- Two callbacks that were asked for changes and succeeded, and that have nothing to do with each
other, could have been called in the other order.  Calls that only look are left out. -/
theorem callbacks_commute (ctx ctx' : FuseContext) (hs : FuseReachableWith View.Regular s)
    (hword : s.blockSize + 1 < 2 ^ 64)
    (hcall : FuseAnswer View.Regular s (call, r) s₁)
    (hcall' : FuseAnswer View.Regular s₁ (call', r') s₂) (hr : 0 ≤ r) (hr' : 0 ≤ r')
    (hlooks : ¬ call.Looks) (hlooks' : ¬ call'.Looks) (hind : call.Independent call') :
    Ends (call'.run ctx') s
      (fun q t => q = r' ∧ Ends (call.run ctx) t
        (fun q t' => q = r ∧ ∃ fs, s₂.Shows fs ∧ t'.Shows fs) (fun e _ => e = .badAlloc))
      (fun e _ => e = .badAlloc) := by
  obtain ⟨fs, hshows⟩ := hs.exists_shows hword
  obtain ⟨h, hw⟩ := hs.orderly hword
  rw [h.shows_iff hw.word] at hshows
  obtain ⟨fs₁, hanswers, h₁⟩ := hcall.answers ⟨h, hw, hshows⟩
  obtain ⟨fs₂, hanswers', h₂, hw₂, hshows₂⟩ := hcall'.answers h₁
  obtain ⟨a, hasks, hdoes, hresult⟩ := Trees.Answers.exists_does hanswers hr hlooks
  obtain ⟨b, hasks', hdoes', hresult'⟩ := Trees.Answers.exists_does hanswers' hr' hlooks'
  obtain ⟨fs', hother, hback⟩ := hdoes.comm hdoes' (hind a b hasks hasks')
  obtain ⟨_, hvalid, ⟨hfit, _, hroot⟩, _⟩ := hcall
  obtain ⟨_, hvalid', ⟨hfit', _, hroot'⟩, _⟩ := hcall'
  apply (done_run h hw hshows hvalid' hfit' hroot' hasks' hother).mono
  · rintro q t ⟨hq, ht, hwt, hshowst⟩
    refine ⟨hq.trans hresult'.symm, ?_⟩
    apply (done_run ht hwt hshowst hvalid hfit hroot hasks hback).mono
    · rintro q t' ⟨hq, ht', hwt', hshowst'⟩
      exact ⟨hq.trans hresult.symm, fs₂, (h₂.shows_iff hw₂.word).mpr hshows₂,
        (ht'.shows_iff hwt'.word).mpr hshowst'⟩
    · exact fun _ _ he => he
  · exact fun _ _ he => he

theorem callbacks_commute_sampleMount :
    Ends ((FuseCall.create secondPath 0).run sampleContext) (mount sampleContext .libstdcxx 512)
      (fun q t => q = 0 ∧ Ends ((FuseCall.create samplePath 0).run sampleContext) t
        (fun q t' => q = 0 ∧ ∃ fs, secondMount.Shows fs ∧ t'.Shows fs) (fun e _ => e = .badAlloc))
      (fun e _ => e = .badAlloc) := by
  have hs : FuseReachableWith View.Regular (mount sampleContext .libstdcxx 512) := fuseReachable_mount
  have hanswer := answer_sampleMount
  have hanswer' := answer_secondMount
  have hind : (FuseCall.create samplePath 0).Independent (.create secondPath 0) := by
    intro a b hasks hasks'
    obtain rfl := asks_create_of_comps comps_samplePath (by decide) hasks
    obtain rfl := asks_create_of_comps comps_secondPath (by decide) hasks'
    refine ⟨?_, by simp [Volume.Action.version], by simp, by simp⟩
    simp [Volume.Action.bases]
  have hword : (mount sampleContext .libstdcxx 512).blockSize + 1 < 2 ^ 64 := by decide +kernel
  generalize mount sampleContext .libstdcxx 512 = s at hs hword hanswer ⊢
  generalize sampleMount = s₁ at hanswer hanswer'
  generalize secondMount = s₂ at hanswer' ⊢
  exact callbacks_commute sampleContext sampleContext hs hword hanswer hanswer' le_rfl le_rfl id id
    hind

/-- A rename to a path where nothing stands, not below the renamed one, can be taken back. -/
theorem rename_back (ctx ctx' : FuseContext) {path name : CString}
    (hs : FuseReachableWith View.Regular s) (hword : s.blockSize + 1 < 2 ^ 64)
    (hshows : s.Shows fs) (hregular : View.Regular s.view (.rename path name))
    (hrun : Fuse.doRename ctx path name s = .ok 0 s₁) (habs : Absolute name.1)
    (hnew : ∀ e, ¬ fs.Has name.1 curModifiableVer e)
    (hbelow : ∀ p q, LeadsInto path.1 curModifiableVer p → LeadsInto name.1 curModifiableVer q →
      ¬ p <+: q)
    (hfit : (FuseCall.rename name path).NamesFit) :
    Ends (Fuse.doRename ctx' name path) s₁ (fun r s₂ => r = 0 ∧ s₂.Shows fs)
      (fun e _ => e = .badAlloc) := by
  obtain ⟨h, hw⟩ := hs.orderly hword
  rw [h.shows_iff hw.word] at hshows
  have hcall : FuseAnswer View.Regular s (.rename path name, 0) s₁ :=
    ⟨ctx, trivial, hregular, hrun⟩
  obtain ⟨fs₁, hanswers, h₁, hw₁, hshows₁⟩ := hcall.answers ⟨h, hw, hshows⟩
  obtain ⟨a, hasks, hdoes, _⟩ := Trees.Answers.exists_does hanswers le_rfl id
  obtain ⟨src, front, targetName, _, hlead, hlead', rfl⟩ := hasks
  have hdst : fs.current.entry (front ++ [targetName]) = none := by
    rw [Option.eq_none_iff_forall_ne_some]
    intro e he
    refine hnew e ⟨habs, _, hlead', ?_⟩
    rwa [Trees.entry, if_pos rfl]
  rcases List.eq_nil_or_concat src with rfl | ⟨p, c, rfl⟩
  · exact absurd List.nil_prefix (hbelow _ _ hlead hlead')
  rw [List.concat_eq_append] at hlead hdoes
  have hapart : ¬ p ++ [c] <+: front := fun hstarts =>
    hbelow _ _ hlead hlead' (hstarts.trans (List.prefix_append _ _))
  have hroot : (FuseCall.rename name path).KeepsRoot := fun hname =>
    absurd (hlead'.of_version hname).2 (by simp)
  have hback : (FuseCall.rename name path).Asks (.move (front ++ [targetName]) p c) :=
    ⟨_, _, _, habs, hlead', hlead, rfl⟩
  have hvalid : (FuseCall.rename name path).Valid := trivial
  apply (done_run h₁ hw₁ hshows₁ hvalid hfit hroot hback (hdoes.move_back hdst hapart)).mono
  · rintro r s₂ ⟨rfl, h₂, hw₂, hshows₂⟩
    exact ⟨rfl, (h₂.shows_iff hw₂.word).mpr hshows₂⟩
  · exact fun _ _ he => he

theorem rename_back_sampleMount : ∃ fs, sampleMount.Shows fs ∧
    Ends (Fuse.doRename sampleContext secondPath samplePath)
      (Program.exec (Fuse.doRename sampleContext samplePath secondPath) sampleMount)
      (fun r s₂ => r = 0 ∧ s₂.Shows fs) (fun e _ => e = .badAlloc) := by
  have hs := regular_sampleMount
  have hrun : Program.outcome (Fuse.doRename sampleContext samplePath secondPath) sampleMount =
      .ok 0 := by decide +kernel
  have hmissing : InodeSmi.getInodeIdByPath secondPath.1 sampleMount =
      .error (.htmpfs .noSuchFileOrDir) := by decide +kernel
  have hregular : View.Regular sampleMount.view (.rename samplePath secondPath) :=
    View.regular_of_not_cuts (fun _ hcuts => hcuts)
      (FuseCall.namesFit_of_newPath rfl (by decide))
      (show comps samplePath.1 ≠ [snapshotEntry, curModifiableVer] by decide)
  have hfit : (FuseCall.rename secondPath samplePath).NamesFit :=
    FuseCall.namesFit_of_newPath rfl (by decide)
  have hword : sampleMount.blockSize + 1 < 2 ^ 64 := by decide +kernel
  generalize sampleMount = s at hs hword hrun hmissing hregular ⊢
  obtain ⟨fs, hshows⟩ := hs.exists_shows hword
  obtain ⟨h, hw⟩ := hs.orderly hword
  refine ⟨fs, hshows, rename_back sampleContext sampleContext hs hword hshows hregular
    (Program.eq_ok_of_outcome hrun) (Or.inr (by decide)) (fun e he => ?_)
    (fun p q hp hq => ?_) hfit⟩
  · obtain ⟨_, id, _, _, hid, _⟩ := (((h.shows_iff hw.word).mp hshows).has_iff hw.toNamed).mp he
    rw [← h.resolve_eq, hmissing] at hid
    simp at hid
  · rw [eq_of_leadsInto comps_samplePath (by decide) hp,
      eq_of_leadsInto comps_secondPath (by decide) hq]
    decide

end Runs

end Htmpfs
