import Mathlib
import Htmpfs.NewNames
import Htmpfs.Pwrite

/-!
# `do_fallocate` and `do_truncate`

Both end in `inode_t::truncate`.  `do_fallocate` asks for the end of the range,
also where the file is longer; `do_truncate` goes on without an inode when the
path runs through a regular file.
-/

namespace Htmpfs

open Program (Ends)

section Rules

variable {s : InodeSmi} {path : Bytes} {Q : ℤ → InodeSmi → Prop} {E : Exit → InodeSmi → Prop}

theorem Fuse.ends_checkRdonlyFs_of_live {rest : SmiM ℤ} {cs : List Bytes}
    (hlive : liveComps (comps path) = .ok (curModifiableVer, cs)) (h : Ends rest s Q E) :
    Ends (checkRdonlyFs path rest) s Q E := by
  refine ends_checkRdonlyFs (fun _ _ => h) (fun ver cs' hver hne => ?_) fun e he => ?_
  · rw [hlive] at hver
    exact absurd (congrArg Prod.fst (Except.ok.inj hver)).symm hne
  · rw [hlive] at he
    simp at he

theorem Fuse.ends_inodeByPath_of {Q : PoolPtr → InodeSmi → Prop} (h : BlocksOk s) {id : ℕ}
    {n : NodeView} (hid : s.view.resolve path = .ok id) (hn : s.view.node id = some n)
    (hQ : Q ⟨id, n.addr⟩ s) : Ends (inodeByPath path) s Q E := by
  unfold inodeByPath
  rw [Program.ends_bind]
  refine Program.Ends.reads_ok (by rw [h.resolve_eq, hid]) ?_
  exact Program.Ends.reads_ok (by rw [getInodeById_eq, hn]) hQ

end Rules

/-! ## `do_fallocate` -/

section Fallocate

variable {s : InodeSmi} {ctx : FuseContext} {path : CString} {c : Bytes} {mode : ℕ}
  {offset length : ℤ} {id : ℕ} {n : NodeView} {node : PoolNode Inode}

theorem Fuse.ends_doFallocate_file (h : BlocksOk s) (hto : s.view.LeadsToFile path.1 id n c) :
    Ends (doFallocate ctx path mode offset length) s
      (fun r s' => r = 0 ∧ BlocksOk s' ∧
        s'.view = s.view.setCurrent id (Blocks.resize 0 (offToU64 (offset + length))))
      (fun e _ => e = .badAlloc) := by
  obtain ⟨cs, hlive⟩ := hto.live
  refine (ends_catchTail (E := fun e _ => e = .badAlloc) ?_ ?_).mono (fun _ _ hr => hr)
    fun _ _ he => he.2
  swap
  · rintro e s' rfl hthrown
    exact absurd hthrown Exit.not_thrown_badAlloc
  refine ends_checkRdonlyFs_of_live hlive ?_
  rw [Program.ends_bind]
  refine ends_inodeByPath_of h hto.resolves hto.node ?_
  rw [Program.ends_bind]
  have hderef : s.view.deref? ⟨id, n.addr⟩ = some n := View.deref?_of_node hto.node
  refine (ends_setStat h hderef).mono ?_ fun _ _ hfalse => hfalse.elim
  rintro _ s₁ ⟨h₁, hview₁⟩
  rw [Program.ends_bind]
  rw [← hview₁] at hderef
  refine (h₁.ends_truncate hderef).mono ?_ fun _ _ he => he
  rintro _ s' ⟨h', hview, _, _⟩
  exact ⟨rfl, h', by rw [hview, hview₁]⟩

theorem resize_eq_append_iff {k : ℕ} :
    Blocks.resize 0 k c = c ++ List.replicate (k - c.length) 0 ↔ c.length ≤ k := by
  constructor
  · intro heq
    have hlen := congrArg List.length heq
    simp only [Blocks.length_resize, List.length_append, List.length_replicate] at hlen
    omega
  · intro hle
    rw [Blocks.resize, List.take_of_length_le hle]

/-- `do_fallocate` keeps the bytes of a regular file exactly when the file does not reach beyond
the range. -/
theorem do_fallocate_keeps_iff (ctx : FuseContext) (hs : FuseReachable s) {rest : Bytes}
    (hlive : ifSnapshot path.1 = .ok (curModifiableVer, rest))
    (hid : InodeSmi.getInodeIdByPath path.1 s = .ok id)
    (hnode : s.inodePool.find? id = some node) (hfile : node.val.isDentry = false)
    (hc : node.val.toString s.bufferPool curModifiableVer = .ok c) (mode : ℕ)
    (hoffset : 0 ≤ offset) (hoffset' : offset < 2 ^ 63) (hlength : 0 < length)
    (hlength' : length < 2 ^ 63) :
    Ends (Fuse.doFallocate ctx path mode offset length) s
      (fun r s' => r = 0 ∧ ∃ node', s'.inodePool.find? id = some node' ∧
        (node'.val.toString s'.bufferPool curModifiableVer =
            .ok (c ++ List.replicate ((offset + length).toNat - c.length) 0) ↔
          c.length ≤ offset + length))
      (fun e _ => e = .badAlloc) := by
  obtain ⟨h, _⟩ := hs.links
  have hto := h.leadsToFile hlive hid hnode hfile hc
  refine (Fuse.ends_doFallocate_file h hto).mono ?_ fun _ _ he => he
  rintro r s' ⟨rfl, h', hview⟩
  have hend : offToU64 (offset + length) = (offset + length).toNat := by
    unfold offToU64
    omega
  have hn' : s'.view.node id = some ((nodeView s.bufferPool node).setCurrent
      (Blocks.resize 0 (offset + length).toNat)) := by
    rw [hview, View.node_setCurrent, if_pos rfl, hto.node, hend]
    rfl
  obtain ⟨node', hnode', heq⟩ := view_node_eq_some.mp hn'
  have hword : s'.view.blockSize + 1 ≠ 2 ^ 64 := by
    rw [hview, View.blockSize_setCurrent]
    exact hs.rootDir.word_of_file hto.resolves hto.node hto.file
  refine ⟨rfl, node', hnode', ?_⟩
  rw [h'.toString_eq_ok hword hnode', heq, NodeView.data_setCurrent_self, hto.data, Option.map_some,
    Option.some.injEq, resize_eq_append_iff]
  omega

/-- The sample file with three bytes. -/
def sampleBytes : InodeSmi :=
  Program.exec ((FuseCall.write samplePath [1, 2, 3] 0).run sampleContext) sampleMount

theorem fuseReachable_sampleBytes : FuseReachable sampleBytes :=
  (fuseReachable_sampleMount trivial).exec (r := 3) ⟨le_rfl, by norm_num⟩ trivial
    (by decide +kernel)

theorem do_fallocate_keeps_iff_sampleBytes :
    ∃ node', (Program.exec (Fuse.doFallocate sampleContext samplePath 0 2 3)
        sampleBytes).inodePool.find? 1 = some node' ∧
      (node'.val.toString (Program.exec (Fuse.doFallocate sampleContext samplePath 0 2 3)
        sampleBytes).bufferPool curModifiableVer = .ok [1, 2, 3, 0, 0] ↔
          (([1, 2, 3] : Bytes).length : ℤ) ≤ 2 + 3) := by
  have hfile : (sampleBytes.inodePool.find? 1).map (fun node => (node.val.isDentry,
      node.val.toString sampleBytes.bufferPool curModifiableVer)) =
      some (false, .ok [1, 2, 3]) := by decide +kernel
  obtain ⟨node, hnode, heq⟩ := Option.map_eq_some_iff.mp hfile
  obtain ⟨hkind, hbytes⟩ := Prod.mk.inj heq
  have hreach := fuseReachable_sampleBytes
  have hlive := ifSnapshot_samplePath
  have hid : InodeSmi.getInodeIdByPath samplePath.1 sampleBytes = .ok 1 := by decide +kernel
  have hrun : Program.outcome (Fuse.doFallocate sampleContext samplePath 0 2 3) sampleBytes =
      .ok 0 := by decide +kernel
  generalize sampleBytes = s at hnode hbytes hreach hid hrun ⊢
  obtain ⟨_, node', hnode', hbytes'⟩ := (do_fallocate_keeps_iff sampleContext hreach hlive hid
    hnode hkind hbytes 0 zero_le_two (by norm_num) zero_lt_three (by norm_num)).outcome_ok hrun
  exact ⟨node', hnode', hbytes'⟩

/-- One byte is allocated at the start of the sample file, which loses the other two. -/
theorem not_do_fallocate_keeps : ¬ ∀ s, FuseReachable s →
    ∀ (ctx : FuseContext) (path : CString) (rest : Bytes) (id : ℕ) (node : PoolNode Inode)
      (c : Bytes) (offset length : ℤ),
    ifSnapshot path.1 = .ok (curModifiableVer, rest) →
    InodeSmi.getInodeIdByPath path.1 s = .ok id → s.inodePool.find? id = some node →
    node.val.isDentry = false → node.val.toString s.bufferPool curModifiableVer = .ok c →
    0 ≤ offset → 0 < length →
    Program.outcome (Fuse.doFallocate ctx path 0 offset length) s = .ok 0 →
    ((Program.exec (Fuse.doFallocate ctx path 0 offset length) s).inodePool.find? id).map
      (fun node' => node'.val.toString
        (Program.exec (Fuse.doFallocate ctx path 0 offset length) s).bufferPool
          curModifiableVer) =
      some (.ok (c ++ List.replicate ((offset + length).toNat - c.length) 0)) := by
  intro hall
  have hfile : (sampleBytes.inodePool.find? 1).map (fun node => (node.val.isDentry,
      node.val.toString sampleBytes.bufferPool curModifiableVer)) =
      some (false, .ok [1, 2, 3]) := by decide +kernel
  obtain ⟨node, hnode, heq⟩ := Option.map_eq_some_iff.mp hfile
  obtain ⟨hkind, hbytes⟩ := Prod.mk.inj heq
  have hkept := hall sampleBytes fuseReachable_sampleBytes sampleContext samplePath samplePath.1 1
    node [1, 2, 3] 0 1 (by decide +kernel) (by decide +kernel) hnode hkind hbytes le_rfl one_pos
    (by decide +kernel)
  exact absurd hkept (by decide +kernel)

end Fallocate

/-! ## `do_truncate` -/

/-- What `do_truncate` promises: it resizes the inode of the path, makes one where only the last
name is missing, and otherwise returns the errno of the exception. -/
def Resized (ctx : FuseContext) (s : InodeSmi) (path : Bytes) (size : ℕ) (r : ℤ)
    (s' : InodeSmi) : Prop :=
  match InodeSmi.getInodeIdByPath path s with
  | .ok id => r = 0 ∧ s'.view = s.view.setCurrent id (Blocks.resize 0 size)
  | .error e =>
      if e = .htmpfs .noSuchFileOrDir then
        ∀ name vpath parent node, (PathT.ofString path).popEnd = .ok (name, vpath) →
          InodeSmi.getInodeIdByPath vpath.toString s = .ok parent →
          s.inodePool.find? parent = some node → node.val.isDentry = true →
          r = 0 ∧ ∃ id w, s.view.MakesChild parent name false id w ∧
            s'.view = w.setCurrent id (fun _ => List.replicate size 0) ∧
            InodeSmi.getInodeIdByPath path s' = .ok id
      else r = Fuse.caught ctx e ∧ s' = s

/-- Where `do_truncate` keeps its promise: the inode of the path is there; or only the last name is
missing, it is one that a directory takes, and tables are read back; or `if_snapshot` throws. -/
def Resizable (s : InodeSmi) (path : Bytes) : Prop :=
  match InodeSmi.getInodeIdByPath path s with
  | .ok id => (s.inodePool.find? id).isSome
  | .error e =>
      if e = .htmpfs .noSuchFileOrDir then
        ∀ name vpath parent node, (PathT.ofString path).popEnd = .ok (name, vpath) →
          InodeSmi.getInodeIdByPath vpath.toString s = .ok parent →
          s.inodePool.find? parent = some node → node.val.isDentry = true →
          name.all InodeSmi.nameChar = true ∧ NameFits name ∧ s.blockSize + 1 < 2 ^ 64
      else e = .outOfRange ∨ ifSnapshot path = .error e

section Truncate

variable {s s' : InodeSmi} {ctx : FuseContext} {path : CString} {size : ℤ} {k : ℕ} {r : ℤ}
  {id parent : ℕ} {n : NodeView} {e : Exit} {cs rest : List Bytes} {name : Bytes}

/-- A call that ended, and whether it kept the promise. -/
def Settles (ctx : FuseContext) (s : InodeSmi) (path : Bytes) (k : ℕ) (e : Exit)
    (s' : InodeSmi) : Prop :=
  (e.Thrown → (Resized ctx s path k (Fuse.caught ctx e) s' ↔ Resizable s path)) ∧
    (Resizable s path → e.Thrown ∨ e = .badAlloc)

/-- The exception of a path that does not resolve, when it is passed on. -/
theorem settles_of_error (hres : InodeSmi.getInodeIdByPath path.1 s = .error e)
    (hne : e ≠ .htmpfs .noSuchFileOrDir) (he : e = .outOfRange ∨ ifSnapshot path.1 = .error e) :
    Settles ctx s path.1 k e s := by
  have hthrown : e.Thrown := by
    rcases he with rfl | he
    · trivial
    · rw [View.ifSnapshot_error he]
      trivial
  unfold Settles Resized Resizable
  rw [hres]
  simp only [if_neg hne, and_self, true_iff]
  exact ⟨fun _ => he, fun _ => Or.inl hthrown⟩

/-- An exception of the walk is not reported. -/
theorem not_resizable_of_error (hlive : liveComps (comps path.1) = .ok (curModifiableVer, rest))
    (hres : InodeSmi.getInodeIdByPath path.1 s = .error e)
    (hne : e ≠ .htmpfs .noSuchFileOrDir) (hrange : e ≠ .outOfRange) :
    ¬ Resizable s path.1 := by
  obtain ⟨out, hver⟩ := ifSnapshot_of_liveComps hlive
  unfold Resizable
  rw [hres]
  simp [hne, hrange, hver]

theorem toString_parent (h : BlocksOk s) (hpath : comps path.1 = cs ++ [name]) :
    InodeSmi.getInodeIdByPath (PathT.toString ⟨[] :: cs⟩) s = s.view.resolveComps cs := by
  rw [h.resolve_eq, View.resolve_toString]
  exact fun c hc => isName_of_mem_comps (p := path.1) c (by simp [hpath, hc])

/-- The promise for a missing name, in terms of the components. -/
theorem resized_of_missing (h : BlocksOk s) (hpath : comps path.1 = cs ++ [name])
    (hmissing : InodeSmi.getInodeIdByPath path.1 s = .error (.htmpfs .noSuchFileOrDir)) :
    Resized ctx s path.1 k r s' ↔ ∀ parent node, s.view.resolveComps cs = .ok parent →
      s.inodePool.find? parent = some node → node.val.isDentry = true →
      r = 0 ∧ ∃ id w, s.view.MakesChild parent name false id w ∧
        s'.view = w.setCurrent id (fun _ => List.replicate k 0) ∧
        InodeSmi.getInodeIdByPath path.1 s' = .ok id := by
  unfold Resized
  rw [hmissing, ← toString_parent h hpath]
  simp only [if_true, popEnd_ofString hpath, Except.ok.injEq, Prod.mk.injEq]
  constructor
  · exact fun hall parent node => hall name _ parent node ⟨rfl, rfl⟩
  · rintro hall name' vpath parent node ⟨rfl, rfl⟩
    exact hall parent node

theorem resizable_of_missing (h : BlocksOk s) (hpath : comps path.1 = cs ++ [name])
    (hmissing : InodeSmi.getInodeIdByPath path.1 s = .error (.htmpfs .noSuchFileOrDir)) :
    Resizable s path.1 ↔ ∀ parent node, s.view.resolveComps cs = .ok parent →
      s.inodePool.find? parent = some node → node.val.isDentry = true →
      name.all InodeSmi.nameChar = true ∧ NameFits name ∧ s.blockSize + 1 < 2 ^ 64 := by
  unfold Resizable
  rw [hmissing, ← toString_parent h hpath]
  simp only [if_true, popEnd_ofString hpath, Except.ok.injEq, Prod.mk.injEq]
  constructor
  · exact fun hall parent node => hall name _ parent node ⟨rfl, rfl⟩
  · rintro hall name' vpath parent node ⟨rfl, rfl⟩
    exact hall parent node

/-- Without a parent nothing is promised, and the exception is passed on. -/
theorem settles_of_missing_parent (h : BlocksOk s) (habs : path.1.head? = some slash)
    (hlive : liveComps (comps path.1) = .ok (curModifiableVer, rest))
    (hpath : comps path.1 = cs ++ [name])
    (hmissing : InodeSmi.getInodeIdByPath path.1 s = .error (.htmpfs .noSuchFileOrDir))
    (hparent : s.view.resolveComps cs = .error e) : Settles ctx s path.1 k e s := by
  have hthrown : e.Thrown := by
    rw [h.resolve_eq, View.resolve_eq_resolveComps (Or.inr habs), hpath] at hmissing
    rw [hpath] at hlive
    rcases View.parent_error_of_noSuchFileOrDir hlive hmissing hparent with rfl | rfl <;> trivial
  have hnone : ∀ parent, s.view.resolveComps cs ≠ .ok parent := by
    intro parent hok
    rw [hparent] at hok
    simp at hok
  refine ⟨fun _ => ?_, fun _ => Or.inl hthrown⟩
  rw [resized_of_missing h hpath hmissing, resizable_of_missing h hpath hmissing]
  constructor
  · exact fun _ parent _ hok => absurd hok (hnone parent)
  · exact fun _ parent _ hok => absurd hok (hnone parent)

/-- A directory refuses a name that is not there only for its characters. -/
theorem settles_of_refused (h : BlocksOk s)
    (hlive : liveComps (comps path.1) = .ok (curModifiableVer, rest))
    (habs : path.1.head? = some slash) (hpath : comps path.1 = cs ++ [name])
    (hmissing : InodeSmi.getInodeIdByPath path.1 s = .error (.htmpfs .noSuchFileOrDir))
    (hparent : s.view.resolveComps cs = .ok parent) (hfails : Fails s e s')
    (hrefused : s.view.Creatable parent name → e = .badAlloc) :
    Settles ctx s path.1 k e s' := by
  have hname : name ≠ [] := (isName_of_concat hpath).ne_nil
  have hres := hmissing
  rw [h.resolve_eq, View.resolve_eq_resolveComps (Or.inr habs), hpath] at hres
  rw [hpath] at hlive
  obtain ⟨t, ht, hnew⟩ := View.table_of_noSuchFileOrDir hlive hname hparent hres
  obtain ⟨n, hn, htable⟩ := View.tableAt_eq_ok.mp ht
  obtain ⟨node, hnode, rfl⟩ := view_node_eq_some.mp hn
  have hdir : node.val.isDentry = true := (NodeView.table_eq_ok.mp htable).1
  have hchars : Resizable s path.1 → e = .badAlloc := by
    intro hresizable
    rw [resizable_of_missing h hpath hmissing] at hresizable
    exact hrefused ⟨(hresizable parent node hparent hnode hdir).1, t, ht, hnew⟩
  refine ⟨fun hthrown => ?_, fun hresizable => Or.inr (hchars hresizable)⟩
  rw [resized_of_missing h hpath hmissing]
  constructor
  · -- nothing has been made
    intro hmade
    obtain ⟨_, id, w, _, _, hfound⟩ := hmade parent node hparent hnode hdir
    rw [(hfails hthrown).1, hmissing] at hfound
    simp at hfound
  · intro hresizable
    exact absurd (hchars hresizable ▸ hthrown) Exit.not_thrown_badAlloc

/-- The inode of the path, or the step into the code behind the `try` without one. -/
theorem Fuse.ends_truncateTarget (h : BlocksOk s) {list : List InodeResult}
    (hlist : s.view.listing curModifiableVer = some list) (habs : path.1.head? = some slash)
    (hlive : liveComps (comps path.1) = .ok (curModifiableVer, rest)) :
    Ends (truncateTarget ctx path size) s
      (fun found s' => match found with
        | none => ¬ Resizable s path.1
        | some ptr => ∃ n, s'.view.deref? ptr = some n ∧ BlocksOk s' ∧
            ((InodeSmi.getInodeIdByPath path.1 s = .ok ptr.id ∧ s' = s) ∨
              ∃ cs name parent, comps path.1 = cs ++ [name] ∧
                InodeSmi.getInodeIdByPath path.1 s = .error (.htmpfs .noSuchFileOrDir) ∧
                s.view.resolveComps cs = .ok parent ∧ n.data curModifiableVer = some [] ∧
                s.view.MakesChild parent name false ptr.id s'.view))
      (Settles ctx s path.1 k) := by
  unfold truncateTarget inodeByPath
  rw [Program.ends_tryCatch, Program.ends_bind, Program.ends_bind, Program.ends_reads]
  refine ⟨fun id hid => ?_, fun e he => ?_⟩
  · -- the path resolves
    rw [Program.ends_reads, getInodeById_eq]
    cases hn : s.view.node id with
    | none =>
        refine ⟨fun ptr hptr => by simp at hptr, fun e he => ?_⟩
        obtain rfl := Except.error.inj he
        have hnone : s.inodePool.find? id = none := by simpa [view_node] using hn
        simp only [reduceCtorEq, if_false]
        simp [Resizable, hid, hnone]
    | some n =>
        refine ⟨fun ptr hptr => ?_, fun e he => by simp at he⟩
        obtain rfl := Except.ok.inj hptr
        exact ⟨n, View.deref?_of_node hn, h, Or.inl ⟨hid, rfl⟩⟩
  · -- an exception of the walk
    have hsilent : ¬ e.Thrown → Settles ctx s path.1 k e s := by
      intro hthrown
      refine ⟨fun hthrown' => absurd hthrown' hthrown, fun hresizable => ?_⟩
      refine absurd hresizable (not_resizable_of_error hlive he ?_ ?_)
      · rintro rfl
        exact hthrown trivial
      · rintro rfl
        exact hthrown trivial
    cases e with
    | htmpfs code =>
        by_cases hcode : code = .noSuchFileOrDir
        · subst hcode
          simp only [if_true]
          rw [Program.ends_bind]
          refine ends_popPath (fun hnil => ?_) fun cs name hpath => ?_
          · -- the root is there
            rw [h.resolve_eq, View.resolve_eq_resolveComps (Or.inr habs), hnil] at he
            have hroot : liveComps [] = .ok (curModifiableVer, []) := rfl
            rw [View.resolveComps_of_live hroot] at he
            simp [View.walk] at he
          simp only [PathT.size, List.length_cons, Nat.add_eq_zero_iff, one_ne_zero, and_false,
            if_false]
          rw [Program.ends_bind, Program.ends_reads, toString_parent h hpath]
          refine ⟨fun parent hparent => ?_, fun e hparent => ?_⟩
          · refine ends_newChild h hlist ?_ fun e s' hfails hrefused =>
              settles_of_refused h hlive habs hpath he hparent hfails hrefused
            intro ptr n s' h' hmake hn _ hdata
            exact ⟨n, hn, h', Or.inr ⟨cs, name, parent, hpath, he, hparent, hdata, hmake⟩⟩
          · exact settles_of_missing_parent h habs hlive hpath he hparent
        · simp only [if_neg hcode]
          exact not_resizable_of_error hlive he (by simpa using hcode) (by simp)
    | outOfRange => exact settles_of_error he (by simp) (Or.inl rfl)
    | badAlloc => exact hsilent Exit.not_thrown_badAlloc
    | undefined => exact hsilent Exit.not_thrown_undefined
    | diverges => exact hsilent Exit.not_thrown_diverges

theorem resized_of_found {ptr : PoolPtr}
    (hid : InodeSmi.getInodeIdByPath path.1 s = .ok ptr.id) (hn : s.view.deref? ptr = some n)
    (hview : s'.view = s.view.setCurrent ptr.id (Blocks.resize 0 k)) :
    Resized ctx s path.1 k 0 s' ↔ Resizable s path.1 := by
  obtain ⟨node, hnode, _, _⟩ := view_deref?_eq_some.mp hn
  unfold Resized Resizable
  simp [hid, hnode, hview]

/-- A new file is found under its path if its name leaves room for the terminator and the block
size for the one of `to_string`. -/
theorem resized_of_made (h : BlocksOk s) (h' : BlocksOk s') {s₁ : InodeSmi} {ptr : PoolPtr}
    (habs : path.1.head? = some slash)
    (hlive : liveComps (comps path.1) = .ok (curModifiableVer, rest))
    (hpath : comps path.1 = cs ++ [name])
    (hmissing : InodeSmi.getInodeIdByPath path.1 s = .error (.htmpfs .noSuchFileOrDir))
    (hparent : s.view.resolveComps cs = .ok parent)
    (hmake : s.view.MakesChild parent name false ptr.id s₁.view)
    (hn : s₁.view.deref? ptr = some n) (hdata : n.data curModifiableVer = some [])
    (hview : s'.view = s₁.view.setCurrent ptr.id (Blocks.resize 0 k)) :
    Resized ctx s path.1 k 0 s' ↔ Resizable s path.1 := by
  have hname : name ≠ [] := (isName_of_concat hpath).ne_nil
  rw [hpath] at hlive
  have hbytes : s'.view = s₁.view.setCurrent ptr.id fun _ => List.replicate k 0 := by
    rw [hview]
    refine View.setCurrent_congr (View.deref?_eq_some.mp hn).1 hdata ?_
    simp [Blocks.resize]
  have hfound : InodeSmi.getInodeIdByPath path.1 s' =
      if s.blockSize + 1 = 2 ^ 64 then .error (.htmpfs .bufferShortOps)
      else if NameFits name then .ok ptr.id else .error .undefined := by
    rw [h'.resolve_eq, View.resolve_eq_resolveComps (Or.inr habs), hpath, hbytes]
    exact hmake.resolveComps_setCurrent hlive hname hparent
  have hchars : name.all InodeSmi.nameChar = true := by
    exact hmake.nameChar
  rw [resized_of_missing h hpath hmissing, resizable_of_missing h hpath hmissing]
  constructor
  · intro hmade parent' node hparent' hnode hdir
    obtain ⟨_, id, w, _, _, hid⟩ := hmade parent' node hparent' hnode hdir
    rw [hfound] at hid
    split_ifs at hid with hwrap hfits
    have hlt := h.blockSize_lt
    exact ⟨hchars, hfits, by omega⟩
  · intro hresizable parent' node hparent' hnode hdir
    obtain ⟨_, hfits, hword⟩ := hresizable parent' node hparent' hnode hdir
    obtain rfl := Except.ok.inj (hparent.symm.trans hparent')
    exact ⟨rfl, ptr.id, s₁.view, hmake, hbytes, by rw [hfound, if_neg hword.ne, if_pos hfits]⟩

/-- `do_truncate` outside the snapshots keeps its promise exactly where the inode is there, where a
directory takes the missing name, or where the exception is not one of the walk. -/
theorem do_truncate_resizes_iff (ctx : FuseContext) (hs : FuseReachable s)
    (habs : path.1.head? = some slash)
    (hlive : ∀ ver rest, ifSnapshot path.1 = .ok (ver, rest) → ver = curModifiableVer)
    (hsize : 0 ≤ size) (hsize' : size < 2 ^ 63) :
    Ends (Fuse.doTruncate ctx path size) s
      (fun r s' => Resized ctx s path.1 size.toNat r s' ↔ Resizable s path.1)
      (fun e _ => Resizable s path.1 → e = .badAlloc) := by
  obtain ⟨h, hl⟩ := hs.links
  obtain ⟨list, hlist⟩ := hl.exists_current
  have hoff : offToU64 size = size.toNat := by
    unfold offToU64
    omega
  refine (Fuse.ends_catchTail (E := Settles ctx s path.1 size.toNat) ?_ ?_).mono
    (fun _ _ hr => hr) ?_
  rotate_left
  · exact fun e s' he hthrown => he.1 hthrown
  · exact fun e s' he hresizable => (he.2.2 hresizable).resolve_left he.1
  refine Fuse.ends_checkRdonlyFs (fun cs hcs => ?_) (fun ver cs hcs hne => ?_) fun e he => ?_
  · rw [Program.ends_bind]
    refine (Fuse.ends_truncateTarget h hlist habs hcs).mono ?_ fun _ _ he => he
    rintro found s₁ hfound
    cases found with
    | none =>
        refine ⟨fun hthrown => absurd hthrown Exit.not_thrown_undefined, fun hresizable => ?_⟩
        exact absurd hresizable hfound
    | some ptr =>
        obtain ⟨n, hn, h₁, hcase⟩ := hfound
        rw [Program.ends_bind]
        refine (h₁.ends_truncate hn).mono ?_ fun e s' he => ?_
        swap
        · subst he
          exact ⟨fun hthrown => absurd hthrown Exit.not_thrown_badAlloc, fun _ => Or.inr rfl⟩
        rintro _ s' ⟨h', hview, _, _⟩
        rw [hoff] at hview
        rw [Program.ends_pure]
        rcases hcase with ⟨hid, rfl⟩ | ⟨cs', name, parent, hpath, hmissing, hparent, hdata, hmake⟩
        · exact resized_of_found hid hn hview
        · exact resized_of_made h h' habs hcs hpath hmissing hparent hmake hn hdata hview
  · obtain ⟨out, hver⟩ := ifSnapshot_of_liveComps hcs
    exact absurd (hlive ver out hver) hne
  · have hres : InodeSmi.getInodeIdByPath path.1 s = .error e := by
      rw [h.resolve_eq, View.resolve_eq_resolveComps (Or.inr habs), View.resolveComps, he]
      rfl
    refine settles_of_error hres ?_ (Or.inr (ifSnapshot_of_liveComps_error he))
    rw [liveComps_error he]
    simp

theorem do_truncate_resizes_iff_sampleMount :
    Resized sampleContext sampleMount samplePath.1 3 0
        (Program.exec (Fuse.doTruncate sampleContext samplePath 3) sampleMount) ↔
      Resizable sampleMount samplePath.1 := by
  have hreach : FuseReachable sampleMount := fuseReachable_sampleMount trivial
  have hlive : ∀ ver rest, ifSnapshot samplePath.1 = .ok (ver, rest) → ver = curModifiableVer := by
    intro ver rest hver
    rw [ifSnapshot_samplePath] at hver
    exact (congrArg Prod.fst (Except.ok.inj hver)).symm
  have hrun : Program.outcome (Fuse.doTruncate sampleContext samplePath 3) sampleMount = .ok 0 := by
    decide +kernel
  generalize sampleMount = s at hreach hrun ⊢
  exact (do_truncate_resizes_iff sampleContext hreach rfl hlive (by norm_num)
    (by norm_num)).outcome_ok hrun

/-- `"/a/b"` -/
def belowPath : CString := ⟨[47, 97, 47, 98], by decide⟩

/-- A path through the sample file is resized without an inode. -/
theorem not_do_truncate_resizes : ¬ ∀ s, FuseReachable s →
    ∀ (ctx : FuseContext) (path : CString) (size : ℤ), path.1.head? = some slash →
    (∀ ver rest, ifSnapshot path.1 = .ok (ver, rest) → ver = curModifiableVer) → 0 ≤ size →
    Ends (Fuse.doTruncate ctx path size) s
      (fun r s' => Resized ctx s path.1 size.toNat r s') (fun e _ => e = .badAlloc) := by
  intro hall
  have hlive : ∀ ver rest, ifSnapshot belowPath.1 = .ok (ver, rest) → ver = curModifiableVer := by
    intro ver rest hver
    have hcurrent : ifSnapshot belowPath.1 = .ok (curModifiableVer, belowPath.1) := by
      decide +kernel
    rw [hcurrent] at hver
    exact (congrArg Prod.fst (Except.ok.inj hver)).symm
  have hreach : FuseReachable sampleMount := fuseReachable_sampleMount trivial
  have hrun : Program.outcome (Fuse.doTruncate sampleContext belowPath 0) sampleMount =
      .error .undefined := by decide +kernel
  generalize sampleMount = s at hreach hrun
  have hends := hall s hreach sampleContext belowPath 0 rfl hlive le_rfl
  exact absurd (hends.outcome_error hrun) (by simp)

end Truncate

end Htmpfs
