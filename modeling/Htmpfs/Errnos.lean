import Mathlib
import Htmpfs.Callbacks
import Htmpfs.Frames

/-!
# What a refusal returns

`fill_out_errno` leaves some codes at 0, and `CATCH_TAIL` returns whatever
`errno` holds for a `std::out_of_range`.  The operations on directories throw
neither, except where a path resolves through an inode that is gone.
-/

namespace Htmpfs

open Program (Ends)

/-- The exception has an errno of its own. -/
def Exit.Reported (e : Exit) : Prop := ∃ code, e = .htmpfs code ∧ code.myErrno ≠ 0

theorem Exit.Reported.caught_neg {e : Exit} (h : e.Reported) (ctx : FuseContext) :
    Fuse.caught ctx e < 0 := by
  obtain ⟨code, rfl, hcode⟩ := h
  simp only [Fuse.caught]
  omega

theorem Exit.reported_of_errno {code : ErrorCode} (h : code.myErrno ≠ 0) :
    (Exit.htmpfs code).Reported := ⟨code, rfl, h⟩

section Readers

variable {w : View} {e : Exit} {ver : SnapshotVer} {id count : ℕ} {name : Bytes}
  {cs : List Bytes} {t : List PathPack} {ptr : PoolPtr} {n : NodeView}

theorem NodeView.table_reported {bs : ℕ} (h : n.table bs ver = .error e) (hthrown : e.Thrown) :
    e.Reported := by
  rcases View.table_error h with rfl | rfl | rfl | rfl
  · exact absurd hthrown Exit.not_thrown_undefined
  · exact Exit.reported_of_errno (by decide)
  · exact Exit.reported_of_errno (by decide)
  · exact Exit.reported_of_errno (by decide)

theorem View.lookup_reported (h : View.lookup t name = .error e) : e.Reported := by
  rw [View.lookup_error h]
  exact Exit.reported_of_errno (by decide)

theorem View.openDir_reported (h : w.openDir ptr ver = .error e) (hthrown : e.Thrown) :
    e.Reported := by
  rcases View.openDir_error h with rfl | rfl | rfl | rfl
  · exact absurd hthrown Exit.not_thrown_undefined
  · exact Exit.reported_of_errno (by decide)
  · exact Exit.reported_of_errno (by decide)
  · exact Exit.reported_of_errno (by decide)

/-- A walk meets an inode that is gone, or it is refused. -/
theorem View.walk_reported (h : w.walk ver id cs = .error e) (hthrown : e.Thrown) :
    e = .outOfRange ∨ e.Reported := by
  induction cs generalizing id with
  | nil => exact absurd h Program.pure_ne_error
  | cons i rest ih =>
      unfold View.walk at h
      split_ifs at h
      · exact ih h
      rcases Program.bind_eq_error.mp h with htable | ⟨t, _, h⟩
      · unfold View.tableAt at htable
        cases hn : w.node id with
        | none =>
            rw [hn] at htable
            exact Or.inl (Program.throw_eq_error.mp htable).symm
        | some n =>
            rw [hn] at htable
            exact Or.inr (NodeView.table_reported htable hthrown)
      · rcases Program.bind_eq_error.mp h with hlookup | ⟨next, _, h⟩
        · exact Or.inr (View.lookup_reported hlookup)
        · exact ih h

theorem View.resolveComps_reported (h : w.resolveComps cs = .error e) (hthrown : e.Thrown) :
    e = .outOfRange ∨ e.Reported := by
  unfold View.resolveComps at h
  rcases Program.bind_eq_error.mp h with hlive | ⟨r, _, h⟩
  · rw [liveComps_error hlive]
    exact Or.inr (Exit.reported_of_errno (by decide))
  · dsimp only at h
    split_ifs at h
    · exact absurd h Program.pure_ne_error
    · rw [← Program.throw_eq_error.mp h]
      exact Or.inr (Exit.reported_of_errno (by decide))
    · exact View.walk_reported h hthrown

/-- `remove_inode_by_path` looks inodes up by `get_inode_by_id`. -/
theorem View.descend_reported (h : w.descend cs count ptr = .error e) (hthrown : e.Thrown) :
    e.Reported := by
  induction cs generalizing count ptr with
  | nil =>
      cases count with
      | zero => exact absurd h Program.pure_ne_error
      | succ count =>
          rw [View.descend] at h
          rcases Program.bind_eq_error.mp h with hopen | ⟨_, _, h⟩
          · exact View.openDir_reported hopen hthrown
          · rw [← Program.throw_eq_error.mp h] at hthrown
            exact absurd hthrown Exit.not_thrown_undefined
  | cons i rest ih =>
      cases count with
      | zero => exact absurd h Program.pure_ne_error
      | succ count =>
          unfold View.descend at h
          rcases Program.bind_eq_error.mp h with hopen | ⟨t, _, h⟩
          · exact View.openDir_reported hopen hthrown
          rcases Program.bind_eq_error.mp h with hlookup | ⟨id, _, h⟩
          · exact View.lookup_reported hlookup
          cases hn : w.node id with
          | none =>
              rw [hn] at h
              rw [← Program.throw_eq_error.mp h]
              exact Exit.reported_of_errno (by decide)
          | some n =>
              rw [hn] at h
              exact ih h

end Readers

section Operations

variable {s : InodeSmi} {parent : ℕ} {name path : Bytes} {isDir : Bool}

/-- `make_child_dentry_under_parent` objects with an errno. -/
theorem BlocksOk.makeChild_refused (h : BlocksOk s) (hno : ¬ s.view.Creatable parent name) :
    Ends (InodeSmi.makeChildDentryUnderParent parent name isDir) s (fun _ _ => False)
      (fun e s' => s' = s ∧ (e.Thrown → e.Reported)) := by
  unfold InodeSmi.makeChildDentryUnderParent
  split_ifs with hchars
  swap
  · exact ⟨rfl, fun _ => Exit.reported_of_errno (by decide)⟩
  simp only [Program.ends_bind]
  rw [Program.ends_reads, getInodeById_eq]
  cases hn : s.view.node parent with
  | none =>
      refine ⟨by simp, fun e he => ⟨rfl, fun _ => ?_⟩⟩
      rw [← Except.error.inj he]
      exact Exit.reported_of_errno (by decide)
  | some n =>
      refine ⟨fun ptr hptr => ?_, by simp⟩
      obtain rfl := Except.ok.inj hptr
      refine h.ends_resolver_new (View.deref?_of_node hn) (fun t _ ht => ?_)
        fun e he _ => ⟨rfl, NodeView.table_reported he⟩
      split_ifs with havail
      · refine absurd ⟨hchars, t, ?_, ?_⟩ hno
        · rw [View.tableAt_of_node hn, blockSize_view, ht]
        · simpa [DirectoryResolver.checkAvailability] using havail
      · exact ⟨rfl, fun _ => Exit.reported_of_errno (by decide)⟩

/-- So does the check that a directory is empty. -/
theorem BlocksOk.checkTargetEmpty_refused (h : BlocksOk s) {ptr : PoolPtr} {n : NodeView}
    (hn : s.view.deref? ptr = some n)
    (hno : ¬ (n.isDentry = true → n.table s.blockSize curModifiableVer = .ok [])) :
    Ends (InodeSmi.checkTargetEmpty ptr) s (fun _ _ => False)
      (fun e s' => s' = s ∧ (e.Thrown → e.Reported)) := by
  have hcheck := h.ends_checkTargetEmpty hn
  have hcodes : Ends (InodeSmi.checkTargetEmpty ptr) s (fun _ _ => True)
      (fun e s' => s' = s ∧ (e.Thrown → e.Reported)) := by
    unfold InodeSmi.checkTargetEmpty
    rw [Program.ends_tryCatch, Program.ends_bind]
    refine h.ends_resolver_new hn (fun t _ _ => ?_) fun e he _ => ?_
    · split_ifs
      · rw [Program.ends_throw, if_neg (by simp), Program.ends_throw]
        exact ⟨rfl, fun _ => Exit.reported_of_errno (by decide)⟩
      · trivial
    · split_ifs
      · trivial
      · exact ⟨rfl, NodeView.table_reported he⟩
  exact (hcheck.and hcodes).mono (fun _ _ hr => absurd hr.1.2 hno) fun _ _ he => he.2

/-- `remove_child_dentry_under_parent` objects with an errno. -/
theorem BlocksOk.removeChild_refused (h : BlocksOk s) (hno : ¬ s.view.Removable parent name) :
    Ends (InodeSmi.removeChildDentryUnderParent parent name) s (fun _ _ => False)
      (fun e s' => s' = s ∧ (e.Thrown → e.Reported)) := by
  unfold InodeSmi.removeChildDentryUnderParent
  simp only [Program.ends_bind]
  rw [Program.ends_reads, getInodeById_eq]
  cases hn : s.view.node parent with
  | none =>
      refine ⟨by simp, fun e he => ⟨rfl, fun _ => ?_⟩⟩
      rw [← Except.error.inj he]
      exact Exit.reported_of_errno (by decide)
  | some n =>
      refine ⟨fun ptr hptr => ?_, by simp⟩
      obtain rfl := Except.ok.inj hptr
      refine h.ends_resolver_new (View.deref?_of_node hn) (fun t _ ht => ?_)
        fun e he _ => ⟨rfl, NodeView.table_reported he⟩
      have htable : s.view.tableAt parent curModifiableVer = .ok t := by
        rw [View.tableAt_of_node hn, blockSize_view, ht]
      simp only [namei_eq]
      rw [Program.ends_reads]
      refine ⟨fun id hid => ?_, fun e he => ⟨rfl, fun _ => View.lookup_reported he⟩⟩
      obtain ⟨p, hp, rfl⟩ := View.lookup_eq_ok.mp hid
      cases htarget : s.inodePool.find? p.inodeId with
      | none =>
          refine Program.Ends.reads_error (e := .undefined) (by simp only [htarget]; rfl) ⟨rfl, ?_⟩
          exact fun hthrown => absurd hthrown Exit.not_thrown_undefined
      | some node =>
          refine Program.Ends.reads_ok (a := ⟨p.inodeId, node.addr⟩)
            (by simp only [htarget]; rfl) ?_
          have hview := view_node_eq_some.mpr ⟨node, htarget, rfl⟩
          have hfull : ¬ ((nodeView s.bufferPool node).isDentry = true →
              (nodeView s.bufferPool node).table s.blockSize curModifiableVer = .ok []) :=
            fun hempty => hno ⟨t, p, _, htable, hp, hview, hempty⟩
          exact (h.checkTargetEmpty_refused (View.deref?_of_node hview) hfull).mono
            (fun _ _ hfalse => hfalse.elim) fun _ _ he => he

/-- `remove_inode_by_path` objects with an errno. -/
theorem BlocksOk.removeInodeByPath_refused (h : BlocksOk s) (hno : ¬ s.view.RemovablePath path) :
    Ends (InodeSmi.removeInodeByPath path) s (fun _ _ => False)
      (fun e s' => s' = s ∧ (e.Thrown → e.Reported)) := by
  unfold InodeSmi.removeInodeByPath
  split_ifs with hroot
  · exact ⟨rfl, fun _ => Exit.reported_of_errno (by decide)⟩
  simp only [Program.ends_bind, Program.ends_get]
  generalize hcount : u64Sub (PathT.ofString path).size 2 = count
  refine ends_last (fun name hname => ?_) fun e he _ => ⟨rfl, fun hthrown => ?_⟩
  swap
  · unfold PathT.last at he
    split at he
    · exact absurd he Program.pure_ne_error
    · rw [← Program.throw_eq_error.mp he] at hthrown
      exact absurd hthrown Exit.not_thrown_undefined
  refine h.ends_descend (fun ptr hptr => ?_) fun e he _ => ⟨rfl, View.descend_reported he⟩
  rw [h.root, ← hcount] at hptr
  cases hn : s.view.deref? ptr with
  | none =>
      refine Program.Ends.reads_error (deref_of_view_none hn).1 ⟨rfl, ?_⟩
      exact fun hthrown => absurd hthrown Exit.not_thrown_undefined
  | some n =>
      obtain ⟨node, hnode, _, _, hderef⟩ := deref_of_view hn
      refine Program.Ends.reads_ok hderef ?_
      rw [(h.inode _ node hnode).2.1]
      exact h.removeChild_refused fun hrem => hno ⟨hroot, name, ptr, n, hname, hptr, hn, hrem⟩

end Operations

end Htmpfs
