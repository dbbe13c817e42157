import Mathlib
import Htmpfs.Departures
import Htmpfs.Readers
import Htmpfs.Library.Simulation

/-!
# A mounted file system is a volume of trees

Every callback answers as the trees allow, and leaves the trees that its answer
leaves.  So what is seen of a run, the calls and what they returned, could have
been seen of the trees.  Two kinds of calls run into undefined behaviour.
-/

namespace Htmpfs

open Program (Ends Trace)

/-- What a callback may return, and the trees behind it. -/
inductive Trees.Answers (fs : Trees) (call : FuseCall) : ℤ → Trees → Prop
  | does {a : Volume.Action Bytes Bytes SnapshotVer} {fs' : Trees} (hasks : call.Asks a)
      (hdoes : fs.Does a fs') : Answers fs call call.result fs'
  | refuses {r : ℤ} (hneg : r < 0) (hchanges : ¬ call.Looks) (hno : ¬ call.Possible fs) :
      Answers fs call r fs
  | sees {r : ℤ} (hsees : call.Sees fs r) : Answers fs call r fs

/-- A step of the trees, with the call and its answer. -/
def Trees.Step (fs : Trees) (l : FuseCall × ℤ) (fs' : Trees) : Prop := fs.Answers l.1 l.2 fs'

/-- A step of the mounted file system, with the call and its answer. -/
def FuseAnswer (cond : View → FuseCall → Prop) (s : InodeSmi) (l : FuseCall × ℤ)
    (s' : InodeSmi) : Prop :=
  ∃ ctx, l.1.Valid ∧ cond s.view l.1 ∧ l.1.run ctx s = .ok l.2 s'

section Steps

variable {ctx : FuseContext} {s s' : InodeSmi} {fs : Trees} {call : FuseCall} {r : ℤ}
  {cond : View → FuseCall → Prop} {ls : List (FuseCall × ℤ)}

/-- Every callback that changes trees does what it is asked for, or refuses it. -/
theorem settled_run (hlooks : ¬ call.Looks) (h : BlocksOk s) (hw : Orderly s.view)
    (hshows : s.view.Shows fs) (hvalid : call.Valid) (hregular : View.Regular s.view call) :
    Ends (call.run ctx) s (Settled fs s call) (fun e _ => Aborted fs s call e) := by
  obtain ⟨hfit, hcut, hroot⟩ := hregular
  cases call with
  | mkdir => exact Fuse.settled_doMkdir h hw hshows hfit
  | create => exact Fuse.settled_doCreate h hw hshows hfit
  | mknod => exact Fuse.settled_doMknod h hw hshows hfit
  | symlink => exact Fuse.settled_doSymlink h hw hshows hfit
  | write => exact Fuse.settled_doWrite h hw hshows hvalid
  | truncate => exact Fuse.settled_doTruncate h hw hshows hfit hcut
  | fallocate => exact Fuse.settled_doFallocate h hw hshows hcut
  | unlink => exact Fuse.settled_doUnlink h hw hshows
  | rmdir => exact Fuse.settled_doRmdir h hw hshows
  | rename => exact Fuse.settled_doRename h hw hshows hfit hroot
  | _ => exact absurd trivial hlooks

/-- The step lemma. -/
theorem answers_run (h : BlocksOk s) (hw : Orderly s.view) (hshows : s.view.Shows fs)
    (hvalid : call.Valid) (hregular : View.Regular s.view call) :
    Ends (call.run ctx) s
      (fun r s' => BlocksOk s' ∧ Orderly s'.view ∧ ∃ fs', fs.Answers call r fs' ∧ s'.view.Shows fs')
      (fun e _ => ¬ call.Looks ∧ Aborted fs s call e) := by
  have heffect : Ends (call.run ctx) s _ _ := FuseCall.ends_run h hw.links.weaken hvalid
  have horderly : ∀ w', s.view.Effect call w' → Orderly w' := fun w' hstep =>
    hw.effect hstep hregular.1 hregular.2.1 hregular.2.2
  by_cases hlooks : call.Looks
  · apply (heffect.and (seen_run hlooks h hw hshows)).mono
    · rintro r s' ⟨⟨_, hstep⟩, h', hview, hsees⟩
      exact ⟨h', horderly _ hstep, fs, Trees.Answers.sees hsees, hview ▸ hshows⟩
    · exact fun _ _ he => he.2.elim
  · apply (heffect.and (settled_run hlooks h hw hshows hvalid hregular)).mono
    · rintro r s' ⟨⟨_, hstep⟩, h', hcase⟩
      refine ⟨h', horderly _ hstep, ?_⟩
      rcases hcase with ⟨rfl, a, hasks, hacts⟩ | ⟨hneg, hview, hno⟩
      · obtain ⟨fs', hdoes, hshows'⟩ :=
          hacts.does hw.toSound hw.word (horderly _ hstep).toNamed hshows
        exact ⟨fs', Trees.Answers.does hasks hdoes, hshows'⟩
      · exact ⟨fs, Trees.Answers.refuses hneg hlooks hno, hview ▸ hshows⟩
    · exact fun e _ he => ⟨hlooks, he.2⟩

/-- A file system that has just been mounted shows an empty root. -/
theorem Fresh.shows {limits : PoolLimits} {blockSize : ℕ} (h : Fresh limits blockSize s) :
    s.view.Shows Volume.empty := by
  obtain ⟨n, hn, _⟩ := h.sound.links.exists_root
  obtain ⟨_, _, _, hdir, _⟩ := h.view_node hn
  obtain ⟨c, _, hstands⟩ := h.sound.links.stands hn
  refine ⟨fun cs => ?_, fun ver hver cs => ?_⟩
  · rcases List.eq_nil_or_concat cs with rfl | ⟨cs, c, rfl⟩
    · rw [(View.way_nil.mpr rfl).content, hstands, if_pos hdir]
      rfl
    · have hempty : (Volume.empty : Trees).current.entry (cs ++ [c]) = none := by
        cases cs <;> rfl
      rw [List.concat_eq_append, hempty]
      refine (View.content_eq_none fun id hway => ?_).symm
      obtain ⟨_, j, _, t, ht, hlookup⟩ := View.way_concat.mp hway
      rw [h.table_eq_nil ht] at hlookup
      simp [View.lookup] at hlookup
  · have hlisting : s.view.listing ver = none := (h.listing ver).trans (if_neg hver)
    rw [h.sound.toNamed.content_unlisted hlisting]
    rfl

/-- The step lemma of a run. -/
theorem FuseAnswer.answers {l : FuseCall × ℤ}
    (hstep : FuseAnswer View.Regular s l s') (h : BlocksOk s ∧ Orderly s.view ∧ s.view.Shows fs) :
    ∃ fs', Trees.Step fs l fs' ∧ BlocksOk s' ∧ Orderly s'.view ∧ s'.view.Shows fs' := by
  obtain ⟨hok, hw, hshows⟩ := h
  obtain ⟨ctx, hvalid, hregular, hrun⟩ := hstep
  obtain ⟨hok', hw', fs', hanswers, hshows'⟩ :=
    (answers_run hok hw hshows hvalid hregular).of_ok hrun
  exact ⟨fs', hanswers, hok', hw', hshows'⟩

/-- The run lemma: a run of callbacks is a run of the trees, with the same answers. -/
theorem exists_trees (h : BlocksOk s ∧ Orderly s.view ∧ s.view.Shows fs)
    (htrace : Trace (FuseAnswer View.Regular) s ls s') : ∃ fs', Trace Trees.Step fs ls fs' ∧
      BlocksOk s' ∧ Orderly s'.view ∧ s'.view.Shows fs' :=
  htrace.simulates (fun _ _ _ _ hR hstep => hstep.answers hR) h

theorem trees_mount {limits : PoolLimits} {blockSize : ℕ} (hpos : 0 < blockSize)
    (hword : blockSize + 1 < 2 ^ 64) : BlocksOk (mount ctx limits blockSize) ∧
    Orderly (mount ctx limits blockSize).view ∧
      (mount ctx limits blockSize).view.Shows Volume.empty := by
  have hfresh : Fresh limits blockSize (mount ctx limits blockSize) := fresh_mount
  exact ⟨hfresh.blocksOk hpos (by omega), hfresh.orderly hword.ne, hfresh.shows⟩

/-- Behind any run there are trees. -/
theorem FuseReachableWith.exists_shows (hs : FuseReachableWith View.Regular s)
    (hword : s.blockSize + 1 < 2 ^ 64) : ∃ fs, s.Shows fs := by
  obtain ⟨ctx, limits, hpos, _, hrun⟩ := hs.exists_run
  obtain ⟨fs, h, hw, hshows⟩ : ∃ fs, BlocksOk s ∧ Orderly s.view ∧ s.view.Shows fs := by
    apply Program.run_preserves hrun
    · exact ⟨_, trees_mount hpos hword⟩
    · rintro t t' ⟨fs, ht⟩ ⟨ctx', call, r, hvalid, hregular, hcall⟩
      have hstep : FuseAnswer View.Regular t (call, r) t' := ⟨ctx', hvalid, hregular, hcall⟩
      obtain ⟨fs', _, ht'⟩ := hstep.answers ht
      exact ⟨fs', ht'⟩
  exact ⟨fs, (h.shows_iff hw.word).mpr hshows⟩

theorem regular_create_samplePath {w : View} : w.Regular (.create samplePath 0) :=
  View.regular_of_not_cuts (fun _ hcuts => hcuts)
    (FuseCall.namesFit_of_newPath rfl (by decide)) trivial

theorem answer_sampleMount :
    FuseAnswer View.Regular (mount sampleContext .libstdcxx 512) (.create samplePath 0, 0)
      sampleMount := by
  have hrun : Program.outcome ((FuseCall.create samplePath 0).run sampleContext)
      (mount sampleContext .libstdcxx 512) = .ok 0 := by decide +kernel
  exact ⟨sampleContext, trivial, regular_create_samplePath, Program.eq_ok_of_outcome hrun⟩

theorem regular_sampleMount : FuseReachableWith View.Regular sampleMount :=
  fuseReachable_sampleMount regular_create_samplePath

/-- Every run of callbacks is a run of the trees, with the same answers. -/
theorem mount_refines_trees {limits : PoolLimits} {blockSize : ℕ} (hpos : 0 < blockSize)
    (hword : blockSize + 1 < 2 ^ 64)
    (h : Trace (FuseAnswer View.Regular) (mount ctx limits blockSize) ls s) :
    ∃ fs, Trace Trees.Step Volume.empty ls fs ∧ s.Shows fs := by
  obtain ⟨fs, htrace, hok, hw, hshows⟩ := exists_trees (trees_mount hpos hword) h
  exact ⟨fs, htrace, (hok.shows_iff hw.word).mpr hshows⟩

theorem mount_refines_trees_sampleMount :
    ∃ fs, Trace Trees.Step Volume.empty [(.create samplePath 0, 0)] fs ∧ sampleMount.Shows fs :=
  mount_refines_trees (by decide) (by decide) (Trace.cons answer_sampleMount Trace.nil)

/-- In the state behind any run, a callback that is possible is done unless memory runs out, and
one that is not is refused or runs into undefined behaviour. -/
theorem callback_answers (hs : FuseReachableWith View.Regular s)
    (hword : s.blockSize + 1 < 2 ^ 64) (hshows : s.Shows fs) (hvalid : call.Valid)
    (hregular : View.Regular s.view call) :
    Ends (call.run ctx) s (fun r s' => ∃ fs', fs.Answers call r fs' ∧ s'.Shows fs')
      (fun e _ => ¬ call.Looks ∧ Aborted fs s call e) := by
  obtain ⟨h, hw⟩ := hs.orderly hword
  apply (answers_run h hw ((h.shows_iff hw.word).mp hshows) hvalid hregular).mono
  · rintro r s' ⟨h', hw', fs', hanswers, hshows'⟩
    exact ⟨fs', hanswers, (h'.shows_iff hw'.word).mpr hshows'⟩
  · exact fun _ _ he => he

/-! ## What is undefined -/

/-- Nothing catches an undefined step. -/
theorem Fuse.ends_undefined {path : Bytes} {q : List Bytes} {rest : SmiM ℤ}
    (hlive : liveComps (comps path) = .ok (curModifiableVer, q))
    (hrest : Ends rest s (fun _ _ => False) (fun e _ => e = .undefined)) :
    Ends (catchTail ctx (checkRdonlyFs path rest)) s (fun _ _ => False)
      (fun e _ => e = .undefined) := by
  apply (ends_catchTail (ends_checkRdonlyFs_of_live hlive hrest) ?_).mono
  · exact fun _ _ hfalse => hfalse
  · exact fun _ _ he => he.2
  · rintro e s' rfl hthrown
    exact Exit.not_thrown_undefined hthrown

/-- The two calls that derail run into undefined behaviour. -/
theorem ends_of_derails (h : BlocksOk s) (hw : Orderly s.view) (hshows : s.view.Shows fs)
    (hderails : s.Derails call) :
    Ends (call.run ctx) s (fun _ _ => False) (fun e _ => e = .undefined) := by
  cases call with
  | unlink path =>
      obtain ⟨hnil, hpath⟩ := hderails
      have hlive : liveComps (comps path.1) = .ok (curModifiableVer, []) := by
        rw [hnil]
        rfl
      apply Fuse.ends_undefined hlive
      rw [Program.ends_bind]
      obtain ⟨t, ht⟩ := hshows.exists_rootTable hw
      apply (h.removeInodeByPath_derails hw.links.weaken ht hnil hpath).mono
      · exact fun _ _ hfalse => hfalse.elim
      · exact fun _ _ he => he
  | truncate path size =>
      obtain ⟨⟨q, hlead⟩, code, hfails, hcode⟩ := hderails
      apply Fuse.ends_undefined (leadsInto_iff.mp hlead)
      unfold Fuse.truncateTarget Fuse.inodeByPath
      rw [Program.ends_bind, Program.ends_tryCatch, Program.ends_bind, Program.ends_bind,
        Program.ends_reads, hfails]
      refine ⟨by simp, fun e he => ?_⟩
      obtain rfl := Except.error.inj he
      simp only [if_neg hcode]
      rfl
  | _ => exact hderails.elim

/-- In the state behind any run, a callback returns unless memory runs out; only the two calls that
derail run into undefined behaviour. -/
theorem callback_returns (hs : FuseReachableWith View.Regular s)
    (hword : s.blockSize + 1 < 2 ^ 64) (hvalid : call.Valid)
    (hregular : View.Regular s.view call) :
    (s.Derails call → Ends (call.run ctx) s (fun _ _ => False) (fun e _ => e = .undefined)) ∧
      (¬ s.Derails call →
        Ends (call.run ctx) s (fun _ _ => True) (fun e _ => e = .badAlloc)) := by
  obtain ⟨h, hw⟩ := hs.orderly hword
  obtain ⟨fs, hshows⟩ := hs.exists_shows hword
  rw [h.shows_iff hw.word] at hshows
  refine ⟨ends_of_derails h hw hshows, fun hgoes => ?_⟩
  by_cases hlooks : call.Looks
  · exact (seen_run hlooks h hw hshows).mono (fun _ _ _ => trivial)
      fun _ _ hfalse => hfalse.elim
  · apply (settled_run hlooks h hw hshows hvalid hregular).mono
    · exact fun _ _ _ => trivial
    · rintro e s' (he | ⟨_, hderails, _⟩)
      · exact he
      · exact absurd hderails hgoes

end Steps

theorem callback_answers_sampleMount : ∃ fs, sampleMount.Shows fs ∧
    Ends ((FuseCall.unlink samplePath).run sampleContext) sampleMount
      (fun r s' => ∃ fs', fs.Answers (.unlink samplePath) r fs' ∧ s'.Shows fs')
      (fun e _ => ¬ (FuseCall.unlink samplePath).Looks ∧
        Aborted fs sampleMount (.unlink samplePath) e) := by
  have hs := regular_sampleMount
  have hword : sampleMount.blockSize + 1 < 2 ^ 64 := by decide +kernel
  generalize sampleMount = s at hs hword ⊢
  obtain ⟨fs, hshows⟩ := hs.exists_shows hword
  refine ⟨fs, hshows, callback_answers hs hword hshows trivial ?_⟩
  exact View.regular_of_not_cuts (fun _ hcuts => hcuts)
    (fun _ hnew => by simp [FuseCall.newPath] at hnew) trivial

theorem callback_returns_sampleMount :
    Ends ((FuseCall.truncate belowPath 0).run sampleContext) sampleMount (fun _ _ => False)
      (fun e _ => e = .undefined) := by
  have hs := regular_sampleMount
  have hfails : InodeSmi.getInodeIdByPath belowPath.1 sampleMount =
      .error (.htmpfs .notADirectory) := by decide +kernel
  have hword : sampleMount.blockSize + 1 < 2 ^ 64 := by decide +kernel
  generalize sampleMount = s at hs hword hfails ⊢
  have hderails : s.Derails (.truncate belowPath 0) := by
    refine ⟨⟨[[97], [98]], leadsInto_iff.mpr ?_⟩, .notADirectory, hfails, by decide⟩
    decide
  have hresolve := ((hs.orderly hword).1.resolve_eq belowPath.1).symm.trans hfails
  have hregular : s.view.Regular (.truncate belowPath 0) := by
    refine ⟨FuseCall.namesFit_of_newPath rfl (by decide), ?_, trivial⟩
    rintro ⟨path, id, n, rfl, hid, _⟩
    rw [hresolve] at hid
    simp at hid
  have hvalid : FuseCall.Valid (.truncate belowPath 0) := trivial
  exact (callback_returns hs hword hvalid hregular).1 hderails

end Htmpfs
