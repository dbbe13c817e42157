import Mathlib
import Htmpfs.Attributes
import Htmpfs.Independence

/-!
# What is read back

`do_read` copies out what the trees hold.  Behind a run, a file holds what the
calls on it have made of its bytes, and a snapshot what stood in the tree when
it was made.
-/

namespace Htmpfs

open Program (Ends Trace)

instance {path : Bytes} : Decidable (Absolute path) := by
  unfold Absolute
  infer_instance

instance {path : Bytes} {ver : SnapshotVer} {q : List Bytes} : Decidable (LeadsInto path ver q) :=
  decidable_of_iff _ leadsInto_iff.symm

/-- The file whose bytes a call changes, and how. -/
def FuseCall.bytes : FuseCall → Option (CString × (Bytes → Bytes))
  | write path buffer offset =>
      some (path, fun c => if buffer = [] then c else pwrite buffer offset.toNat c)
  | truncate path size => some (path, Blocks.resize 0 (offToU64 size))
  | fallocate path _ offset length => some (path, Blocks.resize 0 (offToU64 (offset + length)))
  | _ => none

/-- What a call makes of the bytes of the file with these names. -/
def FuseCall.rewrites (q : List Bytes) (call : FuseCall) (c : Bytes) : Bytes :=
  match call.bytes with
  | some (path, f) =>
      if Absolute path.1 ∧ LeadsInto path.1 curModifiableVer q then f c else c
  | none => c

section Bytes

variable {fs fs' : Trees} {call : FuseCall} {r : ℤ} {path : CString} {f : Bytes → Bytes}
  {a : Volume.Action Bytes Bytes SnapshotVer} {q : List Bytes} {c : Bytes}
  {ls : List (FuseCall × ℤ)}

theorem FuseCall.asks_of_bytes (hbytes : call.bytes = some (path, f)) (hasks : AsksBytes path.1 f a) :
    call.Asks a := by
  cases call with
  | write =>
      obtain ⟨rfl, rfl⟩ := Prod.mk.inj (Option.some.inj hbytes)
      exact hasks
  | truncate =>
      obtain ⟨rfl, rfl⟩ := Prod.mk.inj (Option.some.inj hbytes)
      exact Or.inl hasks
  | fallocate =>
      obtain ⟨rfl, rfl⟩ := Prod.mk.inj (Option.some.inj hbytes)
      exact hasks
  | _ => simp [bytes] at hbytes

/-- A call that changes bytes may also make a file. -/
theorem FuseCall.Asks.of_bytes (hasks : call.Asks a) (hbytes : call.bytes = some (path, f)) :
    AsksBytes path.1 f a ∨ ∃ e, AsksEntry path.1 e a := by
  cases call with
  | write =>
      obtain ⟨rfl, rfl⟩ := Prod.mk.inj (Option.some.inj hbytes)
      exact Or.inl hasks
  | truncate =>
      obtain ⟨rfl, rfl⟩ := Prod.mk.inj (Option.some.inj hbytes)
      exact hasks.imp_right fun h => ⟨_, h.2⟩
  | fallocate =>
      obtain ⟨rfl, rfl⟩ := Prod.mk.inj (Option.some.inj hbytes)
      exact Or.inl hasks
  | _ => simp [bytes] at hbytes

/-- The step lemma of the bytes of a file. -/
theorem Trees.Answers.leaf (h : fs.Answers call r fs')
    (hleaf : fs.current.entry q = some (.leaf c)) (hcall : call.Spares q ∨ call.bytes.isSome) :
    fs'.current.entry q = some (.leaf (call.rewrites q c)) := by
  unfold FuseCall.rewrites
  cases hbytes : call.bytes with
  | none =>
      rw [hbytes] at hcall
      rw [h.entry_eq (hcall.resolve_right (by simp)), hleaf]
  | some target =>
      obtain ⟨path, f⟩ := target
      dsimp only
      by_cases hlead : Absolute path.1 ∧ LeadsInto path.1 curModifiableVer q
      · -- the call is possible
        rw [if_pos hlead]
        have hdoes := Volume.Does.rewrite (f := f) hleaf
        have hasks : call.Asks (.rewrite q f) :=
          FuseCall.asks_of_bytes hbytes ⟨q, hlead.1, hlead.2, rfl⟩
        obtain ⟨_, rfl⟩ := h.eq_of_does hasks hdoes
        simp [hleaf, PathTree.Entry.map]
      · rw [if_neg hlead, ← hleaf]
        cases h with
        | does hasks hdoes =>
            rcases hasks.of_bytes hbytes with ⟨q', habs, hlead', rfl⟩ | ⟨e, front, name, _, _, rfl⟩
            · rw [hdoes.spec.2.1]
              refine if_neg ?_
              rintro rfl
              exact hlead ⟨habs, hlead'⟩
            · rw [hdoes.spec.2.1]
              refine if_neg ?_
              rintro rfl
              cases hdoes with
              | add _ hnew =>
                  rw [hnew] at hleaf
                  simp at hleaf
        | _ => rfl

/-- The run lemma. -/
theorem Trees.leaf_of_trace (h : Trace Trees.Step fs ls fs')
    (hleaf : fs.current.entry q = some (.leaf c))
    (hcalls : ∀ l ∈ ls, l.1.Spares q ∨ l.1.bytes.isSome) :
    fs'.current.entry q = some (.leaf (ls.foldl (fun c l => l.1.rewrites q c) c)) := by
  induction h generalizing c with
  | nil => exact hleaf
  | cons hfirst _ ih =>
      refine ih (Trees.Answers.leaf hfirst hleaf (hcalls _ List.mem_cons_self)) fun l hl => ?_
      exact hcalls l (List.mem_cons_of_mem _ hl)

end Bytes

section Reads

variable {ctx : FuseContext} {s s' s₁ : InodeSmi} {fs : Trees} {path dir : CString} {size mode : ℕ}
  {offset : ℤ} {ver : SnapshotVer} {c : Bytes} {q : List Bytes} {ls : List (FuseCall × ℤ)}

/-- The bytes of a file, from an offset on. -/
def slice (size : ℕ) (offset : ℤ) (c : Bytes) : Bytes := (c.drop offset.toNat).take size

/-- What is copied out of a file is what it holds. -/
theorem BlocksOk.readBuffer_eq (h : BlocksOk s) (hw : Orderly s.view) (hshows : s.view.Shows fs)
    (hhas : fs.Has path.1 ver (.leaf c)) (hoffset : 0 ≤ offset) (hfits : offset + size < 2 ^ 63)
    (hend : offset ≠ c.length) :
    Fuse.readBuffer path size offset s = .ok (slice size offset c) := by
  obtain ⟨⟨q, hlead⟩, id, n, c', hid, hn, hc, hkind⟩ := (hshows.has_iff hw.toNamed).mp hhas
  obtain ⟨out, hout, _⟩ := hlead
  cases hdir : n.isDentry with
  | true => simp [hdir] at hkind
  | false =>
      obtain rfl : c = c' := by simpa [hdir] using hkind
      obtain ⟨node, hnode, _, hnv, hval⟩ := deref_of_view (View.deref?_of_node hn)
      have hdata : node.val.data s.bufferPool ver = some c := by
        rw [← hnv] at hc
        exact hc
      obtain ⟨k, rfl⟩ := Int.eq_ofNat_of_zero_le hoffset
      have hk : k + size < 2 ^ 63 := by exact_mod_cast hfits
      have hoff : offToU64 (k : ℤ) = k := by
        unfold offToU64
        omega
      have hread : node.val.read s.bufferPool ver size k = .ok ((c.drop k).take size) :=
        (h.inode _ node hnode).1.read_slice hdata (by omega) (by exact_mod_cast hend)
      unfold Fuse.readBuffer
      rw [hout, h.resolve_eq, hid]
      simp only [bind, Except.bind]
      rw [getInodeById_eq, hn]
      dsimp only
      rw [hval]
      dsimp only
      rw [hoff, hread]
      rfl

/-- `do_read` copies out the bytes of a file, in any version, and returns how many. -/
theorem do_read_slice (ctx : FuseContext) (hs : FuseReachableWith View.Regular s)
    (hword : s.blockSize + 1 < 2 ^ 64) (hshows : s.Shows fs)
    (hhas : fs.Has path.1 ver (.leaf c)) (hoffset : 0 ≤ offset)
    (hfits : offset + size < 2 ^ 63) (hend : offset ≠ c.length) :
    Ends (Fuse.doRead ctx path size offset) s
      (fun r s' => s'.Shows fs ∧ Fuse.readBuffer path size offset s = .ok (slice size offset c) ∧
        r = toInt (slice size offset c).length)
      (fun _ _ => False) := by
  obtain ⟨h, hw⟩ := hs.orderly hword
  rw [h.shows_iff hw.word] at hshows
  have hbuffer := h.readBuffer_eq hw hshows hhas hoffset hfits hend
  apply (Fuse.seen_doRead h hw hshows).mono
  · rintro r s' ⟨h', hview, hsees⟩
    refine ⟨(h'.shows_iff (hview ▸ hw.word)).mpr (hview ▸ hshows), hbuffer, ?_⟩
    exact hsees.1 ver c hhas hoffset hfits hend
  · exact fun _ _ he => he

/-- The sample, with two bytes in its file. -/
def writtenMount : InodeSmi :=
  Program.exec ((FuseCall.write samplePath [120, 121] 0).run sampleContext) sampleMount

theorem regular_write {w : View} {path : CString} {buffer : Bytes} :
    View.Regular w (.write path buffer offset) :=
  View.regular_of_not_cuts (fun _ hcuts => hcuts) (fun _ hnew => by simp [FuseCall.newPath] at hnew)
    trivial

theorem answer_writtenMount : FuseAnswer View.Regular sampleMount
    (.write samplePath [120, 121] 0, 2) writtenMount := by
  have hrun : Program.outcome ((FuseCall.write samplePath [120, 121] 0).run sampleContext)
      sampleMount = .ok 2 := by decide +kernel
  exact ⟨sampleContext, ⟨le_rfl, by decide⟩, regular_write, Program.eq_ok_of_outcome hrun⟩

theorem FuseAnswer.reachable {cond : View → FuseCall → Prop} {l : FuseCall × ℤ}
    (hstep : FuseAnswer cond s l s') (hs : FuseReachableWith cond s) :
    FuseReachableWith cond s' := by
  obtain ⟨ctx, limits, blockSize, hpos, hword, hrun⟩ := hs
  obtain ⟨ctx', hvalid, hcond, hcall⟩ := hstep
  exact ⟨ctx, limits, blockSize, hpos, hword, hrun.tail ⟨ctx', l.1, l.2, hvalid, hcond, hcall⟩⟩

theorem do_read_slice_writtenMount :
    Ends (Fuse.doRead sampleContext samplePath 2 0) writtenMount
      (fun r s' => (∃ fs, writtenMount.Shows fs ∧ s'.Shows fs) ∧
        Fuse.readBuffer samplePath 2 0 writtenMount = .ok (slice 2 0 [120, 121]) ∧
        r = toInt (slice 2 0 [120, 121]).length)
      (fun _ _ => False) := by
  have hs : FuseReachableWith View.Regular writtenMount :=
    answer_writtenMount.reachable regular_sampleMount
  have hleaf : writtenMount.entryAt curModifiableVer [[97]] = some (.leaf [120, 121]) := by
    decide +kernel
  have hword : writtenMount.blockSize + 1 < 2 ^ 64 := by decide +kernel
  generalize writtenMount = s at hs hword hleaf ⊢
  obtain ⟨fs, hshows⟩ := hs.exists_shows hword
  have hhas : fs.Has samplePath.1 curModifiableVer (.leaf [120, 121]) := by
    refine ⟨by decide, [[97]], by decide, ?_⟩
    rw [Trees.entry, if_pos rfl, hshows.current, hleaf]
  apply (do_read_slice sampleContext hs hword hshows hhas (by decide) (by decide) (by decide)).mono
  · rintro r s' ⟨hshows', hbuffer, hr⟩
    exact ⟨⟨fs, hshows, hshows'⟩, hbuffer, hr⟩
  · exact fun _ _ he => he

/-- Behind a run, `do_read` copies out what the run has made of the bytes of the file. -/
theorem reads_run (hs : FuseReachableWith View.Regular s) (hword : s.blockSize + 1 < 2 ^ 64)
    (hshows : s.Shows fs) (hleaf : fs.current.entry q = some (.leaf c))
    (h : Trace (FuseAnswer View.Regular) s ls s')
    (hcalls : ∀ l ∈ ls, l.1.Spares q ∨ l.1.bytes.isSome) (habs : Absolute path.1)
    (hlead : LeadsInto path.1 curModifiableVer q) (hoffset : 0 ≤ offset)
    (hfits : offset + size < 2 ^ 63)
    (hend : offset ≠ (ls.foldl (fun c l => l.1.rewrites q c) c).length) :
    Fuse.readBuffer path size offset s' =
      .ok (slice size offset (ls.foldl (fun c l => l.1.rewrites q c) c)) := by
  obtain ⟨hok, hw⟩ := hs.orderly hword
  obtain ⟨fs', htrace, hok', hw', hshows'⟩ :=
    exists_trees ⟨hok, hw, (hok.shows_iff hw.word).mp hshows⟩ h
  refine hok'.readBuffer_eq hw' hshows' ⟨habs, q, hlead, ?_⟩ hoffset hfits hend
  rw [Trees.entry, if_pos rfl]
  exact Trees.leaf_of_trace htrace hleaf hcalls

theorem reads_run_writtenMount : Fuse.readBuffer samplePath 2 0 writtenMount =
    .ok (slice 2 0 ([(FuseCall.write samplePath [120, 121] 0, (2 : ℤ))].foldl
      (fun c l => l.1.rewrites [[97]] c) [])) := by
  have hs := regular_sampleMount
  have hanswer := answer_writtenMount
  have hleaf : sampleMount.entryAt curModifiableVer [[97]] = some (.leaf []) := by decide +kernel
  have hword : sampleMount.blockSize + 1 < 2 ^ 64 := by decide +kernel
  generalize sampleMount = s at hs hword hanswer hleaf
  generalize writtenMount = s' at hanswer ⊢
  obtain ⟨fs, hshows⟩ := hs.exists_shows hword
  refine reads_run hs hword hshows ((hshows.current _).trans hleaf) (Trace.cons hanswer Trace.nil)
    (fun l hl => Or.inr ?_) (by decide) (by decide) (by decide) (by decide) (by decide)
  rw [List.mem_singleton.mp hl]
  rfl

/-- Behind any run that does not drop it, a snapshot is the tree that stood when it was made, and
`do_read` copies the files of that tree out of it. -/
theorem snapshot_reads (hs : FuseReachableWith View.Regular s) (hword : s.blockSize + 1 < 2 ^ 64)
    (hshows : s.Shows fs)
    (hmkdir : FuseAnswer View.Regular s (.mkdir dir mode, 0) s₁)
    (hdir : comps dir.1 = [snapshotEntry, ver])
    (h : Trace (FuseAnswer View.Regular) s₁ ls s') (hls : ∀ l ∈ ls, l.1.SparesVersion ver) :
    (∃ fs', s'.Shows fs' ∧ fs'.frozen ver = some fs.current) ∧
      ∀ (path : CString) (q : List Bytes) (c : Bytes) (size : ℕ) (offset : ℤ),
        Absolute path.1 → LeadsInto path.1 ver q → fs.current.entry q = some (.leaf c) →
        0 ≤ offset → offset + size < 2 ^ 63 → offset ≠ c.length →
        Fuse.readBuffer path size offset s' = .ok (slice size offset c) := by
  obtain ⟨hok, hw⟩ := hs.orderly hword
  obtain ⟨fs₁, hanswers, h₁⟩ := hmkdir.answers ⟨hok, hw, (hok.shows_iff hw.word).mp hshows⟩
  obtain ⟨fs', htrace, hok', hw', hshows'⟩ := exists_trees h₁ h
  obtain ⟨a, hasks, hdoes, _⟩ := Trees.Answers.exists_does hanswers le_rfl id
  obtain ⟨rfl, hne⟩ : a = .freeze ver ∧ ver ≠ curModifiableVer := by
    rcases hasks with ⟨ver', hpath, hne, rfl⟩ | hentry
    · rw [pathname_iff, hdir] at hpath
      simp only [List.cons.injEq, true_and, and_true] at hpath
      exact ⟨by rw [hpath], hpath ▸ hne⟩
    · exact absurd hentry (not_asksEntry_of_version hdir)
  have hfrozen : fs'.frozen ver = some fs.current := by
    have hkept : fs'.frozen ver = fs₁.frozen ver :=
      htrace.keeps (f := fun t : Trees => t.frozen ver) (C := fun l => l.1.SparesVersion ver)
        (fun _ _ _ hstep hl => Trees.Answers.frozen_eq hstep hl) hls
    rw [hkept, hdoes.spec.2.2]
    exact Function.update_self _ _ _
  refine ⟨⟨fs', (hok'.shows_iff hw'.word).mpr hshows', hfrozen⟩, ?_⟩
  intro path q c size offset habs hlead hleaf hoffset hfits hend
  refine hok'.readBuffer_eq hw' hshows' ⟨habs, q, hlead, ?_⟩ hoffset hfits hend
  rw [Trees.entry, if_neg hne, hfrozen]
  exact hleaf

theorem snapshot_reads_writtenMount :
    Fuse.readBuffer frozenPath 2 0
      (Program.exec ((FuseCall.write samplePath [122] 0).run sampleContext)
        (Program.exec ((FuseCall.mkdir frozenRoot 0).run sampleContext) writtenMount)) =
      .ok (slice 2 0 [120, 121]) := by
  have hs : FuseReachableWith View.Regular writtenMount :=
    answer_writtenMount.reachable regular_sampleMount
  have hleaf : writtenMount.entryAt curModifiableVer [[97]] = some (.leaf [120, 121]) := by
    decide +kernel
  have hmkdir : Program.outcome ((FuseCall.mkdir frozenRoot 0).run sampleContext) writtenMount =
      .ok 0 := by decide +kernel
  have hwrite : Program.outcome ((FuseCall.write samplePath [122] 0).run sampleContext)
      (Program.exec ((FuseCall.mkdir frozenRoot 0).run sampleContext) writtenMount) = .ok 1 := by
    decide +kernel
  have hregular : View.Regular writtenMount.view (.mkdir frozenRoot 0) :=
    View.regular_of_not_cuts (fun _ hcuts => hcuts)
      (FuseCall.namesFit_of_newPath rfl (by decide)) trivial
  have hword : writtenMount.blockSize + 1 < 2 ^ 64 := by decide +kernel
  generalize writtenMount = s at hs hword hleaf hmkdir hwrite hregular ⊢
  have hanswer : FuseAnswer View.Regular s (.mkdir frozenRoot 0, 0) _ :=
    ⟨sampleContext, trivial, hregular, Program.eq_ok_of_outcome hmkdir⟩
  have hanswer' : FuseAnswer View.Regular _ (.write samplePath [122] 0, 1) _ :=
    ⟨sampleContext, ⟨le_rfl, by decide⟩, regular_write, Program.eq_ok_of_outcome hwrite⟩
  have hspares : (FuseCall.write samplePath [122] 0).SparesVersion [118] := by
    rintro a ⟨q, _, _, rfl⟩
    simp [Volume.Action.version]
  obtain ⟨fs, hshows⟩ := hs.exists_shows hword
  have hdir : comps frozenRoot.1 = [snapshotEntry, [118]] := by decide
  have hreads := snapshot_reads hs hword hshows hanswer hdir (Trace.cons hanswer' Trace.nil)
    fun l hl => by
    rw [List.mem_singleton.mp hl]
    exact hspares
  exact hreads.2 frozenPath [[97]] _ 2 0 (by decide) (by decide) ((hshows.current _).trans hleaf)
    (by decide) (by decide) (by decide)

end Reads

end Htmpfs
