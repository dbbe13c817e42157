import Mathlib
import Htmpfs.Resizes

/-!
# `do_symlink` and `do_readlink`

`do_symlink` is called with the content of the link and the path of the link,
and stores the path.  `do_readlink` copies out what is stored, without a
terminator, so that no content comes back.
-/

namespace Htmpfs

open Program (Ends)

section Symlink

variable {s s' : InodeSmi} {ctx : FuseContext} {path target : CString} {cs rest : List Bytes}
  {name c buf : Bytes} {parent : ℕ}

theorem ends_makeChild_of_not_nameChar {isDir : Bool} {Q : ℕ → InodeSmi → Prop}
    {E : Exit → InodeSmi → Prop} (hchars : ¬ name.all InodeSmi.nameChar = true)
    (hE : E (.htmpfs .invalidDentryName) s) :
    Ends (InodeSmi.makeChildDentryUnderParent parent name isDir) s Q E := by
  unfold InodeSmi.makeChildDentryUnderParent
  rw [if_neg hchars]
  exact hE

/-- Where the path of the link is missing, `do_symlink` fails or makes it, with the path of the
link in it. -/
theorem Fuse.ends_doSymlink_missing (h : BlocksOk s) (hl : Links False s.view)
    (hlive : liveComps (comps target.1) = .ok (curModifiableVer, rest))
    (hmissing : s.view.resolve target.1 = .error (.htmpfs .noSuchFileOrDir)) :
    Ends (doSymlink ctx path target) s
      (fun r s' => r = 0 → BlocksOk s' ∧ ∃ cs name parent id w,
        comps target.1 = cs ++ [name] ∧ s.view.resolveComps cs = .ok parent ∧
          s.view.MakesChild parent name false id w ∧
          s'.view = w.setCurrent id fun _ => target.1)
      (fun e _ => e = .badAlloc) := by
  obtain ⟨list, hlist⟩ := hl.exists_current
  have habs := View.absolute_of_noSuchFileOrDir hmissing
  rw [View.resolve_eq_resolveComps (Or.inr habs)] at hmissing
  -- the exceptions that are caught here give an errno that is not zero
  refine (ends_catchTail (E := fun e _ => e = .badAlloc ∨ e = .htmpfs .noSuchFileOrDir ∨
    e = .htmpfs .invalidDentryName) ?_ ?_).mono (fun _ _ hr => hr) ?_
  rotate_left
  · rintro e s' (rfl | rfl | rfl) hthrown
    · exact absurd hthrown Exit.not_thrown_badAlloc
    · intro hzero
      simp [caught, ErrorCode.myErrno, eNoent] at hzero
    · intro hzero
      simp [caught, ErrorCode.myErrno, eInval] at hzero
  · rintro e s' ⟨hthrown, rfl | rfl | rfl⟩
    · rfl
    · exact absurd trivial hthrown
    · exact absurd trivial hthrown
  refine ends_checkRdonlyFs (fun _ _ => ?_) (fun _ _ _ _ hzero => ?_) fun e he => ?_
  rotate_left
  · simp [eRofs] at hzero
  · exact Or.inr (Or.inr (liveComps_error he))
  refine ends_checkRdonlyFs_of_live hlive ?_
  rw [Program.ends_bind]
  refine ends_popPath (fun hnil => ?_) fun cs name hpath => ?_
  · -- the root is there
    have hroot : liveComps [] = .ok (curModifiableVer, []) := rfl
    rw [hnil, View.resolveComps_of_live hroot] at hmissing
    simp [View.walk] at hmissing
  have hname : name ≠ [] := (isName_of_concat hpath).ne_nil
  simp only [isEmpty_of_concat hpath, Bool.false_eq_true, if_false]
  rw [hpath] at hlive hmissing
  rw [Program.ends_bind, Program.ends_reads, toString_parent h hpath]
  refine ⟨fun parent hparent => ?_, fun e hparent => ?_⟩
  swap
  · exact Or.inr (View.parent_error_of_noSuchFileOrDir hlive hmissing hparent)
  obtain ⟨t, ht, hnew⟩ := View.table_of_noSuchFileOrDir hlive hname hparent hmissing
  by_cases hchars : name.all InodeSmi.nameChar = true
  · refine ends_newChild h hlist ?_ fun e s' _ hcreatable => ?_
    · intro ptr n s₁ h₁ hmake hn hfile hdata
      rw [Program.ends_bind]
      have hfits := target.2.2
      refine (h₁.ends_write hn _ _ (by omega) hdata).mono ?_ ?_
      · rintro count s' ⟨h', _, _, hview, _, _⟩ _
        refine ⟨h', cs, name, parent, ptr.id, s₁.view, hpath, hparent, hmake, ?_⟩
        rw [hview]
        refine View.setCurrent_congr (View.deref?_eq_some.mp hn).1 hdata ?_
        have hpos : target.1.length ≠ 0 := by
          intro hzero
          rw [List.length_eq_zero_iff.mp hzero] at habs
          simp at habs
        simp [Bank.writeBytes, hpos, Blocks.overwrite, Blocks.resize]
      · rintro e s' (rfl | ⟨_, ⟨hdir, _⟩ | ⟨_, _, hresize, _⟩⟩)
        · exact Or.inl rfl
        · simp [hfile] at hdir
        · simp at hresize
    · exact Or.inl (hcreatable ⟨hchars, t, ht, hnew⟩)
  · rw [Program.ends_bind]
    exact ends_makeChild_of_not_nameChar hchars (Or.inr (Or.inr rfl))

/-- The first bytes of a file that has some. -/
theorem Inode.Ok.read_start {pool : IdPool Buffer} {self : Inode} {ver : SnapshotVer}
    {size : ℕ} (h : self.Ok pool) (hc : self.data pool ver = some c) (hne : c ≠ [])
    (hsize : size < 2 ^ 64) : self.read pool ver size 0 = .ok (c.take size) := by
  unfold Inode.data at hc
  obtain ⟨list, hlist, rfl⟩ := Option.map_eq_some_iff.mp hc
  obtain ⟨hlive, _, ⟨n, hs⟩, _⟩ := h.list ver list hlist
  have hlen : (content pool list).length = n := hs.length_flatten
  have hpos : 0 < n := hlen ▸ List.length_pos_iff.mpr hne
  unfold Inode.read
  split_ifs with hzero
  · rw [hzero, List.take_zero]
    rfl
  · rw [hlist]
    exact Bank.read_eq h.blockSize_pos hlive hs (by omega) (by omega)

/-- `do_readlink` leaves bytes of the buffer and of the file. -/
theorem Fuse.mem_of_doReadlink (h : BlocksOk s) {size : ℕ} {out : Bytes}
    (hlive : ifSnapshot target.1 = .ok (curModifiableVer, out))
    (hdata : ∀ id, s.view.resolve target.1 = .ok id →
      ∃ n, s.view.node id = some n ∧ n.data curModifiableVer = some c)
    (hne : c ≠ []) (hsize : size < 2 ^ 64) :
    Ends (doReadlink ctx target size s) buf (fun _ buf' => ∀ b ∈ buf', b ∈ buf ∨ b ∈ c)
      (fun _ _ => True) := by
  refine (ends_catchTail (E := fun _ buf' => buf' = buf) ?_ ?_).mono (fun _ _ hr => hr)
    fun _ _ _ => trivial
  swap
  · rintro e buf' rfl _ b hb
    exact Or.inl hb
  rw [Program.ends_bind]
  refine Program.Ends.reads_ok hlive ?_
  rw [Program.ends_bind, Program.ends_reads, h.resolve_eq]
  refine ⟨fun id hid => ?_, fun _ _ => rfl⟩
  obtain ⟨n, hn, hc⟩ := hdata id hid
  obtain ⟨node, hnode, rfl⟩ := view_node_eq_some.mp hn
  rw [Program.ends_bind]
  refine Program.Ends.reads_ok (by rw [getInodeById_eq, hn]) ?_
  rw [Program.ends_bind]
  have hself : InodeSmi.deref ⟨id, (nodeView s.bufferPool node).addr⟩ s = .ok node.val := by
    obtain ⟨node', hnode', _, _, hval⟩ := deref_of_view (View.deref?_of_node hn)
    obtain rfl := Option.some.inj (hnode.symm.trans hnode')
    exact hval
  refine Program.Ends.reads_ok hself ?_
  split_ifs
  · have hread := (h.inode id node hnode).1.read_start hc hne hsize
    rw [Program.ends_bind]
    refine Program.Ends.reads_ok hread ?_
    rw [Program.ends_bind, Program.ends_modify]
    intro b hb
    simp only [Blocks.overwrite, List.take_zero, List.nil_append, List.mem_append] at hb
    rcases hb with hb | hb
    · exact Or.inr (List.mem_of_mem_take hb)
    · exact Or.inl (List.mem_of_mem_drop hb)
  · exact fun b hb => Or.inl hb

/-- No content of a link comes back: what `do_readlink` leaves in a buffer without terminator has
no terminator either. -/
theorem do_readlink_not_content (ctx ctx' : FuseContext) (hs : FuseReachable s) {out : Bytes}
    (hlive : ifSnapshot target.1 = .ok (curModifiableVer, out))
    (hmissing : InodeSmi.getInodeIdByPath target.1 s = .error (.htmpfs .noSuchFileOrDir)) :
    Ends (Fuse.doSymlink ctx path target) s
      (fun r s' => r = 0 → ¬ ∀ buf, path.1.length < buf.length → ∃ buf',
        Fuse.doReadlink ctx' target buf.length s' buf = .ok 0 buf' ∧ path.1 ++ [0] <+: buf')
      (fun e _ => e = .badAlloc) := by
  obtain ⟨h, hl⟩ := hs.links
  rw [h.resolve_eq] at hmissing
  have habs := View.absolute_of_noSuchFileOrDir hmissing
  obtain ⟨rest, hcomps⟩ := liveComps_of_ifSnapshot hlive
  refine (Fuse.ends_doSymlink_missing h hl hcomps hmissing).mono ?_ fun _ _ he => he
  intro r s' hmade hzero hreturns
  obtain ⟨h', cs, name, parent, id, w, hpath, hparent, hmake, hview⟩ := hmade hzero
  have hname : name ≠ [] := (isName_of_concat hpath).ne_nil
  have hbytes : ∀ j, s'.view.resolve target.1 = .ok j →
      ∃ n, s'.view.node j = some n ∧ n.data curModifiableVer = some target.1 := by
    intro j hj
    rw [View.resolve_eq_resolveComps (Or.inr habs), hpath, hview,
      hmake.resolveComps_setCurrent (hpath ▸ hcomps) hname hparent] at hj
    split_ifs at hj
    obtain rfl := Except.ok.inj hj
    refine ⟨_, by rw [hview, View.node_setCurrent, if_pos rfl, hmake.node_self]; rfl, ?_⟩
    rw [NodeView.data_setCurrent_self]
    simp
  have hne : target.1 ≠ [] := by
    rintro hnil
    rw [hnil] at habs
    simp at habs
  have hsize := path.2.2
  obtain ⟨buf', hread, hcontent⟩ := hreturns (List.replicate (path.1.length + 1) 1) (by simp)
  have hmem := (Fuse.mem_of_doReadlink h' hlive hbytes hne
    (by rw [List.length_replicate]; omega)).of_ok hread
  rcases hmem 0 (hcontent.subset (by simp)) with hbuf | htarget
  · simp at hbuf
  · exact target.2.1 htarget

/-- A link `a` with the content `b`. -/
theorem do_readlink_not_content_mount :
    Program.outcome (Fuse.doSymlink sampleContext ⟨[98], by decide⟩ samplePath)
        (mount sampleContext .libstdcxx 512) = .ok 0 ∧
      ¬ ∀ buf : Bytes, 1 < buf.length → ∃ buf',
        Fuse.doReadlink sampleContext samplePath buf.length
          (Program.exec (Fuse.doSymlink sampleContext ⟨[98], by decide⟩ samplePath)
            (mount sampleContext .libstdcxx 512)) buf = .ok 0 buf' ∧ [98] ++ [0] <+: buf' := by
  have hreach : FuseReachable (mount sampleContext .libstdcxx 512) := fuseReachable_mount
  have hlive := ifSnapshot_samplePath
  have hmissing : InodeSmi.getInodeIdByPath samplePath.1 (mount sampleContext .libstdcxx 512) =
      .error (.htmpfs .noSuchFileOrDir) := by decide +kernel
  have hrun : Program.outcome (Fuse.doSymlink sampleContext ⟨[98], by decide⟩ samplePath)
      (mount sampleContext .libstdcxx 512) = .ok 0 := by decide +kernel
  generalize mount sampleContext .libstdcxx 512 = s at hreach hmissing hrun ⊢
  refine ⟨hrun, ?_⟩
  exact (do_readlink_not_content sampleContext sampleContext hreach hlive hmissing).outcome_ok
    hrun rfl

/-- The link that was made with the content `b` reads as its own path. -/
theorem not_do_readlink_content : ¬ ∀ s, FuseReachable s →
    ∀ (ctx : FuseContext) (path target : CString) (out buf : Bytes),
    ifSnapshot target.1 = .ok (curModifiableVer, out) →
    InodeSmi.getInodeIdByPath target.1 s = .error (.htmpfs .noSuchFileOrDir) →
    Program.outcome (Fuse.doSymlink ctx path target) s = .ok 0 → path.1.length < buf.length →
    path.1 ++ [0] <+: Program.exec (Fuse.doReadlink ctx target buf.length
      (Program.exec (Fuse.doSymlink ctx path target) s)) buf := by
  intro hall
  have hreach : FuseReachable (mount sampleContext .libstdcxx 512) := fuseReachable_mount
  have hcontent := hall (mount sampleContext .libstdcxx 512) hreach sampleContext ⟨[98], by decide⟩
    samplePath samplePath.1 [0, 0, 0] (by decide +kernel) (by decide +kernel) (by decide +kernel) (by decide)
  exact absurd hcontent (by decide +kernel)

end Symlink

end Htmpfs
