import Mathlib
import Htmpfs.Asks

/-!
# Refusals

Where every directory can be read, what an operation on paths objects to is
thrown with an errno of its own, and nothing has been done by then.  No walk
runs into bytes that are no table or into an inode that is gone.
-/

namespace Htmpfs

open Program (Ends)

theorem Exit.Reported.thrown {e : Exit} (h : e.Reported) : e.Thrown := by
  obtain ⟨code, rfl, _⟩ := h
  trivial

theorem reported_invalidDentryName : (Exit.htmpfs .invalidDentryName).Reported :=
  Exit.reported_of_errno (by decide)

section Walks

variable {w : View} {e : Exit} {id count : ℕ} {n : NodeView} {ver : SnapshotVer} {cs : List Bytes}
  {path : Bytes}

theorem Sound.table_reported (h : Sound w) (hn : w.node id = some n)
    (he : n.table w.blockSize ver = .error e) : e.Reported := by
  apply NodeView.table_reported he
  rcases View.table_error he with rfl | rfl | rfl | rfl
  · rw [← View.tableAt_of_node hn] at he
    exact absurd he (h.defined id ver)
  · trivial
  · trivial
  · trivial

/-- Where every table can be read, no walk runs into bytes that are none. -/
theorem View.walk_thrown (h : ∀ j u, w.tableAt j u ≠ .error .undefined)
    (he : w.walk ver id cs = .error e) : e.Thrown := by
  induction cs generalizing id with
  | nil => exact absurd he Program.pure_ne_error
  | cons c cs ih =>
      unfold View.walk at he
      split_ifs at he
      · exact ih he
      · rcases Program.bind_eq_error.mp he with htable | ⟨t, _, he⟩
        · have hundef := h id ver
          unfold View.tableAt at htable hundef
          cases hn : w.node id with
          | none =>
              rw [hn] at htable
              rw [← Program.throw_eq_error.mp htable]
              trivial
          | some n =>
              rw [hn] at htable hundef
              rcases View.table_error htable with rfl | rfl | rfl | rfl
              · exact absurd htable hundef
              · trivial
              · trivial
              · trivial
        · rcases Program.bind_eq_error.mp he with hlookup | ⟨next, _, he⟩
          · rw [View.lookup_error hlookup]
            trivial
          · exact ih he

theorem Sound.resolveComps_reported (h : Sound w) (hcs : ∀ c ∈ cs, IsName c)
    (he : w.resolveComps cs = .error e) : e.Reported := by
  apply h.toNamed.resolveComps_thrown hcs he
  rcases Program.bind_eq_error.mp he with hlive | ⟨⟨ver, q⟩, _, he⟩
  · rw [liveComps_error hlive]
    trivial
  · simp only at he
    split_ifs at he
    · simp at he
    · rw [← Program.throw_eq_error.mp he]
      trivial
    · exact View.walk_thrown h.defined he

theorem Sound.resolve_reported (h : Sound w) (he : w.resolve path = .error e) : e.Reported := by
  by_cases habs : Absolute path
  · rw [View.resolve_eq_resolveComps habs] at he
    exact h.resolveComps_reported isName_of_mem_comps he
  · cases path with
    | nil => exact absurd (Or.inl rfl) habs
    | cons c path =>
        have hc : c ≠ slash := fun heq => habs (Or.inr (by rw [heq]; rfl))
        simp only [View.resolve, if_neg hc] at he
        rw [← Program.throw_eq_error.mp he]
        exact reported_invalidDentryName

/-- The counted loop, as long as there are components left. -/
theorem Sound.descend_reported (h : Sound w) (hn : w.node id = some n) (hcount : count ≤ cs.length)
    (he : w.descend cs count ⟨id, n.addr⟩ = .error e) : e.Reported := by
  induction cs generalizing count id n with
  | nil =>
      obtain rfl := Nat.le_zero.mp hcount
      exact absurd he Program.pure_ne_error
  | cons c cs ih =>
      cases count with
      | zero => exact absurd he Program.pure_ne_error
      | succ count =>
          unfold View.descend View.openDir at he
          rw [View.deref?_of_node hn] at he
          rcases Program.bind_eq_error.mp he with htable | ⟨t, _, he⟩
          · exact h.table_reported hn htable
          rcases Program.bind_eq_error.mp he with hlookup | ⟨next, _, he⟩
          · exact View.lookup_reported hlookup
          cases hm : w.node next with
          | none =>
              rw [hm] at he
              rw [← Program.throw_eq_error.mp he]
              exact Exit.reported_of_errno (by decide)
          | some m =>
              rw [hm] at he
              exact ih hm (Nat.le_of_succ_le_succ hcount) he

theorem View.AddsEntry.table {w' : View} {parent : ℕ} {name : Bytes}
    (h : w.AddsEntry parent name id w') :
    ∃ t, w.tableAt parent curModifiableVer = .ok t ∧ ∀ p ∈ t, p.pathname ≠ name := by
  cases h with
  | mk t htable hnew _ => exact ⟨t, htable, hnew⟩

end Walks

section Operations

variable {s : InodeSmi} {parent id : ℕ} {name : Bytes} {isDir : Bool} {n : NodeView}
  {cs : List Bytes} {path : Bytes} {t : List PathPack}

theorem ends_getInodeById_reported {Q : PoolPtr → InodeSmi → Prop} {E : Exit → InodeSmi → Prop}
    (hQ : ∀ n, s.view.node id = some n → Q ⟨id, n.addr⟩ s)
    (hE : ∀ e : Exit, e.Reported → s.view.node id = none → E e s) :
    Ends (Program.reads (InodeSmi.getInodeById id)) s Q E := by
  rw [Program.ends_reads, getInodeById_eq]
  cases hn : s.view.node id with
  | none =>
      refine ⟨by simp, fun e he => ?_⟩
      obtain rfl := Except.error.inj he
      exact hE _ (Exit.reported_of_errno (by decide)) hn
  | some n =>
      refine ⟨fun ptr hptr => ?_, by simp⟩
      obtain rfl := Except.ok.inj hptr
      exact hQ n hn

theorem BlocksOk.makeChild_objects (h : BlocksOk s) (hw : Sound s.view)
    (hno : ¬ s.view.Creatable parent name) :
    Ends (InodeSmi.makeChildDentryUnderParent parent name isDir) s (fun _ _ => False)
      (fun e s' => s' = s ∧ e.Reported) := by
  unfold InodeSmi.makeChildDentryUnderParent
  split_ifs with hchars
  swap
  · exact ⟨rfl, reported_invalidDentryName⟩
  simp only [Program.ends_bind]
  refine ends_getInodeById_reported (fun n hn => ?_) fun e he _ => ⟨rfl, he⟩
  refine h.ends_resolver_new (View.deref?_of_node hn) (fun t _ ht => ?_)
    fun e he _ => ⟨rfl, hw.table_reported hn he⟩
  split_ifs with havail
  · refine absurd ⟨hchars, t, ?_, ?_⟩ hno
    · rw [View.tableAt_of_node hn, blockSize_view, ht]
    · simpa [DirectoryResolver.checkAvailability] using havail
  · exact ⟨rfl, Exit.reported_of_errno (by decide)⟩

theorem BlocksOk.checkTargetEmpty_objects (h : BlocksOk s) (hw : Sound s.view)
    (hn : s.view.node id = some n)
    (hno : ¬ (n.isDentry = true → n.table s.blockSize curModifiableVer = .ok [])) :
    Ends (InodeSmi.checkTargetEmpty ⟨id, n.addr⟩) s (fun _ _ => False)
      (fun e s' => s' = s ∧ e.Reported) := by
  have hderef := View.deref?_of_node hn
  have hthrows : Ends (InodeSmi.checkTargetEmpty ⟨id, n.addr⟩) s (fun _ _ => True)
      (fun e s' => s' = s ∧ e.Reported) := by
    unfold InodeSmi.checkTargetEmpty
    rw [Program.ends_tryCatch, Program.ends_bind]
    refine h.ends_resolver_new hderef (fun t _ _ => ?_) fun e he _ => ?_
    · split_ifs
      · rw [Program.ends_throw, if_neg (by simp), Program.ends_throw]
        exact ⟨rfl, Exit.reported_of_errno (by decide)⟩
      · trivial
    · split_ifs
      · trivial
      · exact ⟨rfl, hw.table_reported hn he⟩
  apply ((h.checkTargetEmpty_refused hderef hno).and hthrows).mono
  · exact fun _ _ hr => hr.1
  · exact fun _ _ he => he.2

theorem BlocksOk.removeChild_objects (h : BlocksOk s) (hw : Sound s.view)
    (hno : ¬ s.view.Removable parent name) :
    Ends (InodeSmi.removeChildDentryUnderParent parent name) s (fun _ _ => False)
      (fun e s' => s' = s ∧ e.Reported) := by
  unfold InodeSmi.removeChildDentryUnderParent
  simp only [Program.ends_bind]
  refine ends_getInodeById_reported (fun n hn => ?_) fun e he _ => ⟨rfl, he⟩
  refine h.ends_resolver_new (View.deref?_of_node hn) (fun t _ ht => ?_)
    fun e he _ => ⟨rfl, hw.table_reported hn he⟩
  have htable : s.view.tableAt parent curModifiableVer = .ok t := by
    rw [View.tableAt_of_node hn, blockSize_view, ht]
  simp only [namei_eq]
  rw [Program.ends_reads]
  refine ⟨fun id hid => ?_, fun e he => ⟨rfl, View.lookup_reported he⟩⟩
  obtain ⟨p, hp, rfl⟩ := View.lookup_eq_ok.mp hid
  -- what a table names is there
  obtain ⟨m, hm, _⟩ := hw.links.live_of_listsId
    (hw.listed _ _ _ htable p (List.mem_of_find?_eq_some hp))
  obtain ⟨node, hnode, rfl⟩ := view_node_eq_some.mp hm
  refine Program.Ends.reads_ok (a := ⟨p.inodeId, node.addr⟩) (by simp only [hnode]; rfl) ?_
  have hfull : ¬ ((nodeView s.bufferPool node).isDentry = true →
      (nodeView s.bufferPool node).table s.blockSize curModifiableVer = .ok []) :=
    fun hempty => hno ⟨t, p, _, htable, hp, hm, hempty⟩
  exact (h.checkTargetEmpty_objects hw hm hfull).mono (fun _ _ hfalse => hfalse.elim)
    fun _ _ he => he

theorem BlocksOk.removeInodeByPath_objects (h : BlocksOk s) (hw : Sound s.view)
    (hpath : path ≠ [slash] → comps path ≠ []) (hlen : path.length < 2 ^ 63)
    (hno : ¬ s.view.RemovablePath path) :
    Ends (InodeSmi.removeInodeByPath path) s (fun _ _ => False)
      (fun e s' => s' = s ∧ e.Reported) := by
  obtain ⟨root, hn, haddr⟩ := hw.links.exists_root
  by_cases hroot : path = [slash]
  · unfold InodeSmi.removeInodeByPath
    rw [if_pos hroot]
    exact ⟨rfl, Exit.reported_of_errno (by decide)⟩
  obtain ⟨cs, name, hpath⟩ :=
    (List.eq_nil_or_concat (comps path)).resolve_left (hpath hroot)
  rw [List.concat_eq_append] at hpath
  unfold InodeSmi.removeInodeByPath
  rw [if_neg hroot]
  simp only [Program.ends_bind, Program.ends_get]
  rw [tail_ofString hpath, u64Sub_size hpath hlen, h.root]
  refine Program.Ends.reads_ok (last_ofString hpath) ?_
  refine h.ends_descend (fun ptr hptr => ?_) fun e he _ => ⟨rfl, ?_⟩
  swap
  · rw [← haddr] at he
    exact hw.descend_reported hn (by simp) he
  have hfound := hptr
  rw [← haddr] at hfound
  obtain ⟨_, m, hm, hmaddr⟩ := (View.descend_eq_ok hn (ne_nil_of_comps hpath)).mp hfound
  have hderef : s.view.deref? ptr = some m := View.deref?_eq_some.mpr ⟨hm, hmaddr.symm⟩
  obtain ⟨node, hnode, _, _, hself⟩ := deref_of_view hderef
  refine Program.Ends.reads_ok hself ?_
  rw [(h.inode _ node hnode).2.1]
  apply h.removeChild_objects hw
  intro hrem
  refine hno ⟨hroot, name, ptr, m, last_ofString hpath, ?_, hderef, hrem⟩
  rw [tail_ofString hpath, u64Sub_size hpath hlen]
  exact hptr

/-- The loop counts down from `2 ^ 64 - 1`, past the end of the path. -/
theorem BlocksOk.removeInodeByPath_derails (h : BlocksOk s) (hl : Links False s.view)
    (ht : s.view.tableAt rootInodeNumber curModifiableVer = .ok t) (hnil : comps path = [])
    (hpath : path ≠ [slash]) :
    Ends (InodeSmi.removeInodeByPath path) s (fun _ _ => False) (fun e _ => e = .undefined) := by
  have hrun := h.removeInodeByPath_of_comps_nil hl hnil hpath
  rw [ht] at hrun
  unfold Program.Ends
  rw [hrun]

/-- The first half of `do_rename`, where it finds an old target that cannot go. -/
theorem BlocksOk.relink_objects (h : BlocksOk s) (hw : Sound s.view)
    (hn : s.view.node parent = some n) (ht : n.table s.blockSize curModifiableVer = .ok t)
    (hname : s.view.HasName parent name) (hno : ¬ s.view.Removable parent name) :
    Ends (Fuse.relink parent ⟨t, ⟨parent, n.addr⟩, curModifiableVer⟩ name id) s
      (fun _ _ => False) (fun e s' => e = .badAlloc ∨ s' = s ∧ e.Reported) := by
  unfold Fuse.relink
  rw [Program.ends_tryCatch]
  refine (h.ends_addEntry (View.deref?_of_node hn) ht).mono ?_ ?_
  · rintro _ s' ⟨_, hadds, _⟩
    obtain ⟨t', ht', hnew⟩ := hadds.table
    obtain ⟨t'', ht'', p, hp, hpname⟩ := hname
    rw [Except.ok.inj (ht'.symm.trans ht'')] at hnew
    exact hnew p hp hpname
  · rintro e s' (rfl | ⟨rfl, rfl, _⟩)
    · rw [if_neg (by simp), Program.ends_throw]
      exact Or.inl rfl
    · rw [if_pos rfl, Program.ends_bind]
      exact (h.removeChild_objects hw hno).mono (fun _ _ hfalse => hfalse.elim)
        fun _ _ he => Or.inr he

end Operations

end Htmpfs
