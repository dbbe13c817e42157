import Mathlib
import Htmpfs.LiveTree
import Htmpfs.Library.PathTree

/-!
# What stands at a path

A version of the file system is a tree: below its root, a path leads to a
directory, to a file with its bytes, or to nothing.  The file system is there to
keep one such tree that changes and any number of copies that do not.
-/

namespace Htmpfs

/-- What stands at the path with these components in a version. -/
def InodeSmi.entryAt (ver : SnapshotVer) (cs : List Bytes) (s : InodeSmi) :
    Option (PathTree.Entry Bytes) :=
  if [] ∈ cs then none
  else
    let found : Except Exit (PathTree.Entry Bytes) := do
      let id ← s.walk ver rootInodeNumber cs
      let node ← poolAt id s.inodePool
      let bytes ← node.val.toString s.bufferPool ver
      pure (if node.val.isDentry then .dir else .leaf bytes)
    found.toOption

/-- The tree of the current version and those of the snapshots. -/
abbrev Trees : Type := Volume Bytes Bytes SnapshotVer

/-- The file system has these trees. -/
structure InodeSmi.Shows (s : InodeSmi) (fs : Trees) : Prop where
  current : ∀ cs, fs.current.entry cs = s.entryAt curModifiableVer cs
  frozen : ∀ ver, ver ≠ curModifiableVer → ∀ cs,
    ((fs.frozen ver).bind fun t => t.entry cs) = s.entryAt ver cs

/-- An inode as an entry. -/
def NodeView.entry (n : NodeView) (ver : SnapshotVer) : Option (PathTree.Entry Bytes) :=
  (n.data ver).map fun c => if n.isDentry then .dir else .leaf c

/-- What stands at a path of a version. -/
def View.content (w : View) (ver : SnapshotVer) (cs : List Bytes) :
    Option (PathTree.Entry Bytes) :=
  if [] ∈ cs then none
  else
    match w.walk ver rootInodeNumber cs with
    | .ok id => (w.node id).bind fun n => n.entry ver
    | .error _ => none

/-- An inode as an entry of the current tree. -/
def View.stands (w : View) (id : ℕ) : Option (PathTree.Entry Bytes) :=
  (w.node id).bind fun n => n.entry curModifiableVer

/-- The view has these trees. -/
structure View.Shows (w : View) (fs : Trees) : Prop where
  current : ∀ cs, fs.current.entry cs = w.content curModifiableVer cs
  frozen : ∀ ver, ver ≠ curModifiableVer → ∀ cs,
    ((fs.frozen ver).bind fun t => t.entry cs) = w.content ver cs

section Content

variable {s : InodeSmi} {w w' : View} {ver ver' : SnapshotVer} {cs : List Bytes} {id : ℕ}
  {n : NodeView} {c : Bytes} {fs : Trees} {e : PathTree.Entry Bytes}

theorem BlocksOk.entryAt_eq (h : BlocksOk s) (hword : s.view.blockSize + 1 ≠ 2 ^ 64) :
    s.entryAt ver cs = s.view.content ver cs := by
  unfold InodeSmi.entryAt View.content
  rw [h.walk_eq]
  split_ifs
  · rfl
  cases s.view.walk ver rootInodeNumber cs with
  | error e => rfl
  | ok id =>
      simp only [view_node]
      cases hnode : s.inodePool.find? id with
      | none =>
          have hat : poolAt id s.inodePool = .error .outOfRange := by
            simp only [poolAt, hnode]
            rfl
          simp only [bind, Except.bind, hat]
          rfl
      | some node =>
          have hkind : (nodeView s.bufferPool node).isDentry = node.val.isDentry := rfl
          have hstring := h.toString_eq hnode ver
          unfold NodeView.toString at hstring
          simp only [poolAt, hnode, bind, Except.bind, pure, Except.pure, hstring, Option.map_some,
            Option.bind_some, NodeView.entry, hkind]
          cases (nodeView s.bufferPool node).data ver with
          | none => rfl
          | some c =>
              dsimp only
              rw [if_neg fun hwrap => hword hwrap.2]
              rfl

theorem BlocksOk.shows_iff (h : BlocksOk s) (hword : s.view.blockSize + 1 ≠ 2 ^ 64) :
    s.Shows fs ↔ s.view.Shows fs := by
  constructor
  · rintro ⟨hcurrent, hfrozen⟩
    exact ⟨fun cs => (hcurrent cs).trans (h.entryAt_eq hword),
      fun ver hver cs => (hfrozen ver hver cs).trans (h.entryAt_eq hword)⟩
  · rintro ⟨hcurrent, hfrozen⟩
    exact ⟨fun cs => (hcurrent cs).trans (h.entryAt_eq hword).symm,
      fun ver hver cs => (hfrozen ver hver cs).trans (h.entryAt_eq hword).symm⟩

theorem View.Way.content (h : w.Way cs id) : w.content curModifiableVer cs = w.stands id := by
  have hnil : [] ∉ cs := fun hmem => h.names _ hmem rfl
  rw [View.content, if_neg hnil, h.walk]
  rfl

theorem View.exists_way (hcontent : w.content curModifiableVer cs = some e) :
    ∃ id, w.Way cs id ∧ w.stands id = some e := by
  unfold View.content at hcontent
  split_ifs at hcontent with hnil
  cases hwalk : w.walk curModifiableVer rootInodeNumber cs with
  | error e => simp [hwalk] at hcontent
  | ok id =>
      rw [hwalk] at hcontent
      exact ⟨id, ⟨fun c hc heq => hnil (heq ▸ hc), hwalk⟩, hcontent⟩

theorem View.content_eq_none (hnone : ∀ id, ¬ w.Way cs id) :
    w.content curModifiableVer cs = none := by
  rw [Option.eq_none_iff_forall_ne_some]
  intro e he
  obtain ⟨id, hway, _⟩ := View.exists_way he
  exact hnone id hway

/-- Where the same ways lead to what is the same, the trees are the same. -/
theorem View.content_congr {ds : List Bytes} (hways : ∀ k, w'.Way ds k ↔ w.Way cs k)
    (hstands : ∀ k, w.Way cs k → w'.stands k = w.stands k) :
    w'.content curModifiableVer ds = w.content curModifiableVer cs := by
  by_cases hway : ∃ k, w.Way cs k
  · obtain ⟨k, hk⟩ := hway
    rw [hk.content, ((hways k).mpr hk).content, hstands k hk]
  · have hnone : ∀ k, ¬ w.Way cs k := fun k hk => hway ⟨k, hk⟩
    rw [View.content_eq_none hnone, View.content_eq_none fun k hk => hnone k ((hways k).mp hk)]

/-- Current bytes are there, listed or not. -/
theorem Links.stands {clean : Prop} (h : Links clean w) (hn : w.node id = some n) :
    ∃ c, n.data curModifiableVer = some c ∧
      w.stands id = some (if n.isDentry then .dir else .leaf c) := by
  obtain ⟨c, hc⟩ := Option.isSome_iff_exists.mp ((h.data curModifiableVer id n hn).mpr (Or.inl rfl))
  refine ⟨c, hc, ?_⟩
  rw [View.stands, hn, Option.bind_some, NodeView.entry, hc]
  rfl

/-- The tree of a version depends on what the version lists. -/
theorem View.Mirrors.content (hw : w.Mirrors ver w' ver') (h : Named w)
    (hver : (w.listing ver).isSome) : w'.content ver' cs = w.content ver cs := by
  have hroot := h.listsId_root hver
  unfold View.content
  rw [hw.walk_eq h hroot]
  split_ifs
  · rfl
  cases hwalk : w.walk ver rootInodeNumber cs with
  | error e => rfl
  | ok id =>
      obtain ⟨n, hn, hl⟩ := h.links.live_of_listsId (h.walk_listed hroot hwalk)
      obtain ⟨n', hn', _, hkind, hdata⟩ := hw.node id n hn hl
      simp only [hn, hn', Option.bind_some]
      rw [NodeView.entry, NodeView.entry, hkind, hdata]

/-- A version that is not there has no tree. -/
theorem Named.content_unlisted (h : Named w) (hver : w.listing ver = none) :
    w.content ver cs = none := by
  obtain ⟨n, hn, _⟩ := h.links.exists_root
  have hdata : n.data ver = none := by
    rw [← Option.not_isSome_iff_eq_none, h.links.data ver _ n hn]
    rintro (rfl | ⟨list, hlist, _⟩)
    · have hcur := h.isSome_current
      rw [hver] at hcur
      simp at hcur
    · rw [hver] at hlist
      simp at hlist
  unfold View.content
  cases cs with
  | nil => simp [View.walk, pure, Except.pure, hn, NodeView.entry, hdata]
  | cons i cs =>
      by_cases hnil : [] ∈ i :: cs
      · rw [if_pos hnil]
      · have hi : i ≠ [] := fun heq => hnil (by simp [heq])
        have htable : ∃ e, w.tableAt rootInodeNumber ver = .error e := by
          rw [View.tableAt_of_node hn]
          unfold NodeView.table NodeView.toString
          rw [hdata]
          split_ifs
          · exact ⟨_, rfl⟩
          · exact ⟨_, rfl⟩
        obtain ⟨e, he⟩ := htable
        rw [if_neg hnil, View.walk, if_neg (by simpa using hi), he]
        rfl

/-- The trees are those of the versions that are listed. -/
theorem Named.isSome_content_nil (h : Named w) :
    (w.content ver []).isSome ↔ (w.listing ver).isSome := by
  constructor
  · intro hsome
    by_contra hver
    rw [h.content_unlisted (by simpa using hver)] at hsome
    exact absurd hsome (by simp)
  · intro hver
    obtain ⟨n, hn, hl⟩ := h.links.live_of_listsId (h.listsId_root hver)
    obtain ⟨c, hc⟩ := Option.isSome_iff_exists.mp ((h.links.data ver _ n hn).mpr (Or.inr hl))
    simp [View.content, View.walk, pure, Except.pure, hn, NodeView.entry, hc]

end Content

end Htmpfs
