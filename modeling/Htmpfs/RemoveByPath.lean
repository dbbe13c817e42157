import Mathlib
import Htmpfs.Errnos
import Htmpfs.PathNames

/-!
# The two walkers

`remove_inode_by_path` counts its way down to the parent of the last component,
by all components as they stand; `get_inode_id_by_path` takes the version
prefix off first.  Below the prefix both read the same tables.
-/

namespace Htmpfs

section Walkers

variable {w w' : View} {id parent : ℕ} {n : NodeView} {ptr : PoolPtr} {cs rest : List Bytes}
  {path name : Bytes} {clean : Prop}

theorem PathT.length_split_le {cur : Bytes} : (PathT.split cur path).length ≤ path.length + 1 := by
  induction path generalizing cur with
  | nil =>
      unfold PathT.split
      split_ifs <;> simp
  | cons c path ih =>
      unfold PathT.split
      rw [List.length_cons]
      split_ifs
      · exact ih.trans (Nat.le_succ _)
      · rw [List.length_cons]
        exact Nat.succ_le_succ ih
      · exact ih.trans (Nat.le_succ _)

/-- The loop bound of `remove_inode_by_path`. -/
theorem u64Sub_size (hpath : comps path = cs ++ [name]) (hlen : path.length < 2 ^ 63) :
    u64Sub (PathT.ofString path).size 2 = cs.length := by
  have hle : (PathT.split [] path).length ≤ path.length + 1 := PathT.length_split_le
  have hcomps : (comps path).length = cs.length + 1 := by simp [hpath]
  rw [comps] at hcomps
  rw [PathT.size, PathT.pathname_ofString, List.length_cons, comps, hcomps]
  unfold u64Sub u64
  omega

/-- The counted loop finds the inode that the walk finds. -/
theorem View.descend_eq_ok (hn : w.node id = some n) (hcs : ∀ c ∈ cs, c ≠ []) :
    w.descend (cs ++ rest) cs.length ⟨id, n.addr⟩ = .ok ptr ↔
      w.walk curModifiableVer id cs = .ok ptr.id ∧ ∃ m, w.node ptr.id = some m ∧ ptr.addr = m.addr := by
  induction cs generalizing id n with
  | nil =>
      have hnil : w.descend ([] ++ rest) 0 ⟨id, n.addr⟩ = .ok ⟨id, n.addr⟩ := by
        cases rest <;> rfl
      rw [List.length_nil, hnil]
      constructor
      · intro h
        obtain rfl := Except.ok.inj h
        exact ⟨rfl, n, hn, rfl⟩
      · rintro ⟨h, m, hm, haddr⟩
        obtain rfl : id = ptr.id := Except.ok.inj h
        obtain rfl := Option.some.inj (hn.symm.trans hm)
        rw [← haddr]
  | cons c cs ih =>
      obtain ⟨hc, hcs⟩ := List.forall_mem_cons.mp hcs
      have hopen : w.openDir ⟨id, n.addr⟩ curModifiableVer = w.tableAt id curModifiableVer := by
        rw [View.openDir, View.deref?_of_node hn, View.tableAt_of_node hn]
      rw [List.cons_append, List.length_cons, View.descend, hopen, View.walk,
        if_neg (by simpa using hc)]
      simp only [Program.bind_eq_ok]
      constructor
      · rintro ⟨t, ht, next, hnext, h⟩
        cases hm : w.node next with
        | none => simp [hm] at h
        | some m =>
            rw [hm] at h
            obtain ⟨hwalk, hptr⟩ := (ih hm hcs).mp h
            exact ⟨⟨t, ht, next, hnext, hwalk⟩, hptr⟩
      · rintro ⟨⟨t, ht, next, hnext, hwalk⟩, m', hm', haddr⟩
        refine ⟨t, ht, next, hnext, ?_⟩
        -- the walk goes on from the inode, or ends at it
        have hsome : ∃ m, w.node next = some m := by
          rcases View.walk_start hwalk with heq | ⟨t', _, ht', _⟩
          · exact ⟨m', heq ▸ hm'⟩
          · obtain ⟨m, hm, _⟩ := View.tableAt_eq_ok.mp ht'
            exact ⟨m, hm⟩
        obtain ⟨m, hm⟩ := hsome
        rw [hm]
        exact (ih hm hcs).mpr ⟨hwalk, m', hm', haddr⟩

theorem last_ofString (hpath : comps path = cs ++ [name]) :
    (PathT.ofString path).last = .ok name := by
  unfold PathT.last
  rw [PathT.pathname_ofString, hpath, ← List.cons_append, List.getLast?_concat]
  rfl

theorem tail_ofString (hpath : comps path = cs ++ [name]) :
    (PathT.ofString path).pathname.tail = cs ++ [name] := by
  rw [PathT.pathname_ofString, List.tail_cons, hpath]

theorem ne_nil_of_comps (hpath : comps path = cs ++ [name]) : ∀ c ∈ cs, c ≠ [] := fun c hc =>
  (isName_of_mem_comps (p := path) c (by simp [hpath, hc])).ne_nil

theorem ne_slash_of_comps (hpath : comps path = cs ++ [name]) : path ≠ [slash] := by
  rintro rfl
  have hnil : comps [slash] = [] := rfl
  rw [hnil] at hpath
  simp at hpath

theorem View.descend_path_eq_ok (hl : Links clean w) (hpath : comps path = cs ++ [name])
    (hlen : path.length < 2 ^ 63) :
    w.descend (PathT.ofString path).pathname.tail (u64Sub (PathT.ofString path).size 2)
        ⟨rootInodeNumber, 0⟩ = .ok ptr ↔
      w.walk curModifiableVer rootInodeNumber cs = .ok ptr.id ∧
        ∃ m, w.node ptr.id = some m ∧ ptr.addr = m.addr := by
  obtain ⟨root, hroot, haddr⟩ := hl.exists_root
  rw [tail_ofString hpath, u64Sub_size hpath hlen, ← haddr]
  exact View.descend_eq_ok hroot (ne_nil_of_comps hpath)

/-- `remove_inode_by_path` removes the last component from the inode that the others lead to. -/
theorem View.removesPath_iff (hl : Links clean w) (hpath : comps path = cs ++ [name])
    (hlen : path.length < 2 ^ 63) : w.RemovesPath path w' ↔
      ∃ parent, w.walk curModifiableVer rootInodeNumber cs = .ok parent ∧
        w.RemovesChild parent name w' := by
  constructor
  · rintro ⟨name', ptr, _, hname', hptr, hremove⟩
    obtain rfl := Except.ok.inj ((last_ofString hpath).symm.trans hname')
    exact ⟨ptr.id, ((View.descend_path_eq_ok hl hpath hlen).mp hptr).1, hremove⟩
  · rintro ⟨parent, hwalk, hremove⟩
    have hnode : ∃ m, w.node parent = some m := by
      rcases hremove with ⟨n, t, p, target, list, hparent, _⟩
      exact ⟨n, hparent⟩
    obtain ⟨m, hm⟩ := hnode
    exact ⟨name, ⟨parent, m.addr⟩, ne_slash_of_comps hpath, last_ofString hpath,
      (View.descend_path_eq_ok hl hpath hlen).mpr ⟨hwalk, m, hm, rfl⟩, hremove⟩

/-- And it removes it where it can be removed. -/
theorem View.removablePath_iff (hl : Links clean w) (hpath : comps path = cs ++ [name])
    (hlen : path.length < 2 ^ 63) : w.RemovablePath path ↔
      ∃ parent, w.walk curModifiableVer rootInodeNumber cs = .ok parent ∧
        w.Removable parent name := by
  constructor
  · rintro ⟨_, name', ptr, n, hname', hptr, _, hrem⟩
    obtain rfl := Except.ok.inj ((last_ofString hpath).symm.trans hname')
    exact ⟨ptr.id, ((View.descend_path_eq_ok hl hpath hlen).mp hptr).1, hrem⟩
  · rintro ⟨parent, hwalk, hrem⟩
    have hnode : ∃ m, w.node parent = some m := by
      obtain ⟨t, _, _, ht, _⟩ := hrem
      obtain ⟨m, hm, _⟩ := View.tableAt_eq_ok.mp ht
      exact ⟨m, hm⟩
    obtain ⟨m, hm⟩ := hnode
    exact ⟨ne_slash_of_comps hpath, name, ⟨parent, m.addr⟩, m, last_ofString hpath,
      (View.descend_path_eq_ok hl hpath hlen).mpr ⟨hwalk, m, hm, rfl⟩, View.deref?_of_node hm, hrem⟩

/-- On a path without components the loop opens the root, and goes on past the end of the path if
it can. -/
theorem BlocksOk.removeInodeByPath_of_comps_nil {s : InodeSmi} (h : BlocksOk s)
    (hl : Links clean s.view) (hpath : comps path = []) (hne : path ≠ [slash]) :
    InodeSmi.removeInodeByPath path s =
      match s.view.tableAt rootInodeNumber curModifiableVer with
      | .ok _ => .error .undefined s
      | .error e => .error e s := by
  obtain ⟨root, hroot, haddr⟩ := hl.exists_root
  have hopen : s.view.openDir ⟨rootInodeNumber, 0⟩ curModifiableVer =
      s.view.tableAt rootInodeNumber curModifiableVer := by
    rw [← haddr, View.openDir, View.deref?_of_node hroot, View.tableAt_of_node hroot]
  have hlast : (PathT.ofString path).last = .ok [] := by
    rw [PathT.last, PathT.pathname_ofString, hpath]
    rfl
  have hcount : u64Sub (PathT.ofString path).size 2 = (2 ^ 64 - 2) + 1 := by
    rw [PathT.size, PathT.pathname_ofString, hpath]
    rfl
  have htail : (PathT.ofString path).pathname.tail = [] := by
    rw [PathT.pathname_ofString, List.tail_cons, hpath]
  have hdescend : ∀ count, s.view.descend [] (count + 1) ⟨rootInodeNumber, 0⟩ =
      match s.view.tableAt rootInodeNumber curModifiableVer with
      | .ok _ => .error .undefined
      | .error e => .error e := by
    intro count
    rw [View.descend, hopen]
    cases s.view.tableAt rootInodeNumber curModifiableVer <;> rfl
  have hread := hdescend (2 ^ 64 - 2)
  rw [← hcount, ← htail, ← h.root, ← h.descend_eq] at hread
  clear hcount hdescend
  unfold InodeSmi.removeInodeByPath
  rw [if_neg hne]
  dsimp only
  generalize u64Sub (PathT.ofString path).size 2 = count at hread ⊢
  cases ht : s.view.tableAt rootInodeNumber curModifiableVer with
  | ok t =>
      rw [ht] at hread
      refine Program.Ends.eq_error ?_
      simp only [Program.ends_bind, Program.ends_get]
      refine Program.Ends.reads_ok hlast ?_
      exact Program.Ends.reads_error hread ⟨rfl, rfl⟩
  | error e =>
      rw [ht] at hread
      refine Program.Ends.eq_error ?_
      simp only [Program.ends_bind, Program.ends_get]
      refine Program.Ends.reads_ok hlast ?_
      exact Program.Ends.reads_error hread ⟨rfl, rfl⟩

end Walkers

end Htmpfs
