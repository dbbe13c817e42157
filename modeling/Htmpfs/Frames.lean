import Mathlib
import Htmpfs.SoundRename

/-!
# What a step leaves alone

A snapshot keeps its list, and the inodes in it their kind and its bytes,
through every step but its own deletion; the current version keeps them
through the creation and the deletion of snapshots.  Path resolution sees no
more of a version than that.
-/

namespace Htmpfs

/-- What one state lists under one version, another lists under another, with inodes of the same
kinds and bytes, in blocks of the same size. -/
structure View.Mirrors (w : View) (ver : SnapshotVer) (w' : View) (ver' : SnapshotVer) : Prop where
  blockSize : w'.blockSize = w.blockSize
  listing : w'.listing ver' = w.listing ver
  node : ∀ id n, w.node id = some n → w.Lists ver (entryOf id n) →
    ∃ n', w'.node id = some n' ∧ n'.addr = n.addr ∧ n'.isDentry = n.isDentry ∧
      n'.data ver' = n.data ver

/-- A version keeps its list and, of the inodes in it, the kind and the bytes. -/
abbrev View.KeepsVersion (ver : SnapshotVer) (w w' : View) : Prop := w.Mirrors ver w' ver

section Keeps

variable {w w' w'' : View} {ver ver' u : SnapshotVer} {parent id : ℕ} {name path : Bytes}
  {isDir : Bool} {f : Bytes → Bytes} {n : NodeView}

theorem View.KeepsVersion.refl : View.KeepsVersion ver w w where
  blockSize := rfl
  listing := rfl
  node := fun _ n hn _ => ⟨n, hn, rfl, rfl, rfl⟩

theorem View.Mirrors.lists_iff (h : w.Mirrors ver w' ver') (e : InodeResult) :
    w'.Lists ver' e ↔ w.Lists ver e := by
  unfold View.Lists
  rw [h.listing]

theorem View.Mirrors.trans {ver'' : SnapshotVer} (h : w.Mirrors ver w' ver')
    (h' : w'.Mirrors ver' w'' ver'') : w.Mirrors ver w'' ver'' where
  blockSize := h'.blockSize.trans h.blockSize
  listing := h'.listing.trans h.listing
  node := by
    intro id n hn hl
    obtain ⟨n', hn', haddr, hkind, hdata⟩ := h.node id n hn hl
    have hl' : w'.Lists ver' (entryOf id n') := by
      rw [h.lists_iff, entryOf_congr haddr]
      exact hl
    obtain ⟨n'', hn'', haddr', hkind', hdata'⟩ := h'.node id n' hn' hl'
    exact ⟨n'', hn'', haddr'.trans haddr, hkind'.trans hkind, hdata'.trans hdata⟩

/-- An inode that two versions list has two links. -/
theorem Links.two_le (h : Links True w) (hn : w.node id = some n)
    (hl : w.Lists ver (entryOf id n)) (hl' : w.Lists u (entryOf id n)) (hne : ver ≠ u) :
    1 < n.linkCount := by
  have hcount := h.count id n hn (Or.inl trivial)
  have hpair : ({ver, u} : Set SnapshotVer) ⊆ w.versionsOf (entryOf id n) := by
    rintro v (rfl | rfl)
    · exact hl
    · exact hl'
  have htwo := Set.encard_le_encard hpair
  rw [Set.encard_pair hne, ← hcount] at htwo
  have hle : 2 ≤ n.linkCount := by exact_mod_cast htwo
  omega

theorem View.keepsVersion_setCurrent {i : ℕ} (hver : ver ≠ curModifiableVer) :
    w.KeepsVersion ver (w.setCurrent i f) where
  blockSize := rfl
  listing := rfl
  node := by
    intro j n hn _
    refine ⟨_, View.node_setCurrent_eq_some.mpr ⟨n, hn, rfl⟩, ?_⟩
    split_ifs
    · exact ⟨rfl, rfl, NodeView.data_setCurrent_of_ne hver⟩
    · exact ⟨rfl, rfl, rfl⟩

theorem View.MakesChild.keepsVersion (hstep : w.MakesChild parent name isDir id w')
    (hver : ver ≠ curModifiableVer) : w.KeepsVersion ver w' := by
  rcases hstep with ⟨n, t, list, hname, hparent, htable, hnew, hfree, hid, hsize, hlist⟩
  have hadd : w.KeepsVersion ver (w.addNode id isDir) :=
    { blockSize := rfl
      listing := rfl
      node := by
        intro j n hn _
        refine ⟨n, ?_, rfl, rfl, rfl⟩
        rw [View.node_addNode, if_neg, hn]
        rintro rfl
        rw [hfree] at hn
        simp at hn }
  have hset := hadd.trans (View.keepsVersion_setCurrent (i := parent)
    (f := fun _ => encodeTable (t ++ [⟨name, id⟩])) hver)
  exact
    { blockSize := hset.blockSize
      listing := by
        rw [View.listing_setListing, if_neg hver]
        exact hset.listing
      node := hset.node }

theorem View.RemovesChild.keepsVersion (hstep : w.RemovesChild parent name w') (h : Named w)
    (hver : ver ≠ curModifiableVer) : w.KeepsVersion ver w' := by
  rcases hstep with ⟨n, t, p, target, list, hparent, htable, hp, htarget, hempty, hsize, hlist⟩
  have ht : w.tableAt parent curModifiableVer = .ok t := by rw [View.tableAt_of_node hparent, htable]
  obtain ⟨target', htarget', hcur⟩ := h.node_of_mem ht (List.mem_of_find?_eq_some hp)
  obtain rfl := Option.some.inj (htarget.symm.trans htarget')
  have hset : w.KeepsVersion ver (w.setCurrent parent fun _ =>
      encodeTable (t.eraseP fun i => i.pathname = name)) := View.keepsVersion_setCurrent hver
  refine { blockSize := hset.blockSize, listing := ?_, node := ?_ }
  · rw [View.listing_dropLink, View.listing_setListing, if_neg hver]
    exact hset.listing
  · intro j m hm hl
    obtain ⟨m', hm', haddr, hkind, hdata⟩ := hset.node j m hm hl
    rw [View.node_dropLink]
    split_ifs with hj
    · -- the removed inode has a link for the current version and one for this one
      subst hj
      obtain rfl := Option.some.inj (hm.symm.trans htarget)
      have hcount : m'.linkCount = m.linkCount := by
        obtain ⟨m₀, hm₀, heq⟩ := View.node_setCurrent_eq_some.mp hm'
        obtain rfl := Option.some.inj (hm₀.symm.trans hm)
        rw [heq]
        split_ifs <;> rfl
      have htwo := h.links.two_le hm hl hcur hver
      have hdrop : m'.dropLink = some { m' with linkCount := m'.linkCount - 1 } :=
        (NodeView.dropLink_eq_some (by omega)).mpr ⟨by omega, rfl⟩
      refine ⟨{ m' with linkCount := m'.linkCount - 1 }, ?_, haddr, hkind, hdata⟩
      rw [View.node_setListing, hm', Option.bind_some, hdrop]
    · exact ⟨m', hm', haddr, hkind, hdata⟩

theorem View.CreatesSnapshot.keepsVersion (hstep : w.CreatesSnapshot u w') (h : Named w)
    (hver : ver ≠ u) : w.KeepsVersion ver w' where
  blockSize := hstep.blockSize
  listing := by
    rcases hstep with ⟨list, hnew, hlist⟩
    rw [View.listing_setListing, if_neg hver]
    rfl
  node := by
    classical
    intro id n hn _
    have hnode := hstep.node_eq h.links id
    rw [hn, Option.map_some] at hnode
    refine ⟨_, hnode, ?_⟩
    split_ifs
    · exact ⟨rfl, rfl, NodeView.data_freeze_of_ne hver⟩
    · exact ⟨rfl, rfl, rfl⟩

/-- A new snapshot mirrors the current version. -/
theorem View.CreatesSnapshot.mirrors (hstep : w.CreatesSnapshot ver w') (h : Named w) :
    w.Mirrors curModifiableVer w' ver where
  blockSize := hstep.blockSize
  listing := by
    rcases hstep with ⟨list, hnew, hlist⟩
    rw [View.listing_setListing, if_pos rfl, hlist]
  node := by
    classical
    intro id n hn hl
    have hnode := hstep.node_eq h.links id
    rw [hn, Option.map_some, if_pos hl] at hnode
    exact ⟨_, hnode, rfl, rfl, NodeView.data_freeze_self⟩

theorem View.DeletesSnapshot.keepsVersion (hstep : w.DeletesSnapshot u w') (h : Named w)
    (hver : ver ≠ u) : w.KeepsVersion ver w' where
  blockSize := hstep.blockSize
  listing := by
    rcases hstep with ⟨list, hcur, hlist, hlive⟩
    rw [View.listing_setListing, if_neg hver]
    rfl
  node := by
    intro id n hn hl
    rcases hstep.node_eq h.links hn with ⟨hl', hnode⟩ | ⟨_, hnode⟩
    · have htwo := h.links.two_le hn hl hl' hver
      have hdrop : (n.unfreeze u).dropLink =
          some { n.unfreeze u with linkCount := (n.unfreeze u).linkCount - 1 } :=
        (NodeView.dropLink_eq_some (n := n.unfreeze u) (h.links.pos id n hn)).mpr ⟨htwo, rfl⟩
      exact ⟨_, hnode.trans hdrop, rfl, rfl, NodeView.data_unfreeze_of_ne (n := n) hver⟩
    · exact ⟨n, hnode, rfl, rfl, rfl⟩

theorem View.Renames.keepsVersion (hstep : w.Renames path name w') (h : Named w)
    (hname : 0 ∉ name) (hver : ver ≠ curModifiableVer) : w.KeepsVersion ver w' := by
  obtain ⟨_, _, _, _, _, _, w₀, w₁, hparts⟩ := hstep.parts hname
  have h₀ : w.KeepsVersion ver w₀ := by
    rcases hparts.removes with rfl | hremove
    · exact View.KeepsVersion.refl
    · exact hremove.keepsVersion h hver
  obtain ⟨f, hf⟩ := hparts.adds.view_eq
  obtain ⟨g, hg⟩ := hparts.drops.view_eq
  have h₁ := h₀.trans (hf ▸ View.keepsVersion_setCurrent hver)
  exact h₁.trans (hg ▸ View.keepsVersion_setCurrent hver)

end Keeps

/-! ## Resolution inside a version -/

section Walk

variable {w w' : View} {ver ver' : SnapshotVer} {id next : ℕ} {cs : List Bytes} {path : Bytes}
  {e : Exit}

/-- From an inode of a version, resolution stays among the inodes of the version. -/
theorem Named.walk_listed (h : Named w) (hid : w.ListsId ver id)
    (hwalk : w.walk ver id cs = .ok next) : w.ListsId ver next := by
  induction cs generalizing id with
  | nil =>
      obtain rfl := Program.pure_eq_ok.mp hwalk
      exact hid
  | cons i cs ih =>
      unfold View.walk at hwalk
      split_ifs at hwalk
      · exact ih hid hwalk
      · obtain ⟨t, ht, hwalk⟩ := Program.bind_eq_ok.mp hwalk
        obtain ⟨k, hk, hwalk⟩ := Program.bind_eq_ok.mp hwalk
        obtain ⟨p, hp, _, rfl⟩ := View.lookup_mem hk
        exact ih (h.listed id ver t ht p hp) hwalk

theorem View.Mirrors.tableAt (hw : w.Mirrors ver w' ver') (h : Links True w)
    (hid : w.ListsId ver id) : w'.tableAt id ver' = w.tableAt id ver := by
  obtain ⟨n, hn, hl⟩ := h.live_of_listsId hid
  obtain ⟨n', hn', _, hkind, hdata⟩ := hw.node id n hn hl
  rw [View.tableAt_of_node hn', View.tableAt_of_node hn, hw.blockSize]
  exact NodeView.table_congr hkind hdata

/-- Resolution depends on the tables of the inodes of the version only. -/
theorem View.Mirrors.walk_eq (hw : w.Mirrors ver w' ver') (h : Named w)
    (hid : w.ListsId ver id) : w'.walk ver' id cs = w.walk ver id cs := by
  induction cs generalizing id with
  | nil => rfl
  | cons i cs ih =>
      unfold View.walk
      split_ifs
      · exact ih hid
      · rw [hw.tableAt h.links hid]
        cases ht : w.tableAt id ver with
        | error e => rfl
        | ok t =>
            simp only [bind, Except.bind]
            cases hk : View.lookup t i with
            | error e => rfl
            | ok k =>
                obtain ⟨p, hp, _, rfl⟩ := View.lookup_mem hk
                exact ih (h.listed id ver t ht p hp)

/-- An inode of a version is in the pool, so resolution does not leave the pool. -/
theorem Named.walk_ne_outOfRange (h : Named w) (hid : w.ListsId ver id)
    (hwalk : w.walk ver id cs = .error e) : e ≠ .outOfRange := by
  induction cs generalizing id with
  | nil => exact absurd hwalk Program.pure_ne_error
  | cons i cs ih =>
      unfold View.walk at hwalk
      split_ifs at hwalk
      · exact ih hid hwalk
      · rcases Program.bind_eq_error.mp hwalk with ht | ⟨t, ht, hwalk⟩
        · obtain ⟨n, hn, _⟩ := h.links.live_of_listsId hid
          rw [View.tableAt_of_node hn] at ht
          rcases View.table_error ht with rfl | rfl | rfl | rfl <;> simp
        · rcases Program.bind_eq_error.mp hwalk with hk | ⟨k, hk, hwalk⟩
          · simp [View.lookup_error hk]
          · obtain ⟨p, hp, _, rfl⟩ := View.lookup_mem hk
            exact ih (h.listed id ver t ht p hp) hwalk

theorem Named.listsId_root (h : Named w) (hver : (w.listing ver).isSome) :
    w.ListsId ver rootInodeNumber :=
  ⟨rootEntry, h.rooted ver hver, rfl⟩

theorem Named.isSome_current (h : Named w) : (w.listing curModifiableVer).isSome := by
  obtain ⟨list, hlist⟩ := h.links.exists_current
  rw [hlist]
  rfl

/-- A version that is not there gives the root no table. -/
theorem Named.walk_missing (h : Named w) (hver : w.listing ver = none) (hne : cs ≠ [])
    (hcs : ∀ c ∈ cs, IsName c) : ∃ e, w.walk ver rootInodeNumber cs = .error e ∧
      e ≠ .outOfRange := by
  obtain ⟨n, hn, _⟩ := h.links.exists_root
  cases cs with
  | nil => exact absurd rfl hne
  | cons i cs =>
      have hi : i.isEmpty = false := by simpa using (hcs i (by simp)).ne_nil
      have hdata : n.data ver = none := by
        rw [← Option.not_isSome_iff_eq_none, h.links.data ver _ n hn]
        rintro (rfl | ⟨list, hlist, _⟩)
        · have hcur := h.isSome_current
          rw [hver] at hcur
          simp at hcur
        · rw [hver] at hlist
          simp at hlist
      unfold View.walk
      rw [if_neg (by simp [hi]), View.tableAt_of_node hn]
      unfold NodeView.table NodeView.toString
      rw [hdata]
      split_ifs
      · exact ⟨_, rfl, by simp⟩
      · exact ⟨_, rfl, by simp⟩

/-- A path either leads into a version that is there, or is refused. -/
theorem Named.resolveComps_cases (h : Named w) (hcs : ∀ c ∈ cs, IsName c) {rest : List Bytes}
    (hlive : liveComps cs = .ok (ver, rest)) :
    ((w.listing ver).isSome ∧ w.resolveComps cs = w.walk ver rootInodeNumber rest) ∨
      ∃ e, w.resolveComps cs = .error e ∧ e ≠ .outOfRange := by
  unfold View.resolveComps
  simp only [hlive, bind, Except.bind]
  by_cases hlisted : (w.listing ver).isSome
  · left
    refine ⟨hlisted, ?_⟩
    split_ifs with hroot
    · rw [hroot.2]
      rfl
    · rfl
  · right
    have hver : w.listing ver = none := by simpa using hlisted
    have hne : ver ≠ curModifiableVer := by
      rintro rfl
      exact hlisted h.isSome_current
    split_ifs with hroot
    · exact ⟨_, rfl, by simp⟩
    · exact h.walk_missing hver (fun hrest => hroot ⟨hne, hrest⟩) fun c hc =>
        hcs c (mem_of_mem_liveComps hlive hc)

/-- What resolves is an inode of its version. -/
theorem Named.resolveComps_listed (h : Named w) (hcs : ∀ c ∈ cs, IsName c)
    (hres : w.resolveComps cs = .ok id) :
    ∃ ver rest, liveComps cs = .ok (ver, rest) ∧ w.ListsId ver id := by
  obtain ⟨⟨ver, rest⟩, hlive, _⟩ := Program.bind_eq_ok.mp hres
  refine ⟨ver, rest, hlive, ?_⟩
  rcases h.resolveComps_cases hcs hlive with ⟨hlisted, hwalk⟩ | ⟨e, he, _⟩
  · exact h.walk_listed (h.listsId_root hlisted) (hwalk ▸ hres)
  · rw [he] at hres
    simp at hres

theorem liveComps_error (he : liveComps cs = .error e) : e = .htmpfs .invalidDentryName := by
  unfold liveComps at he
  split at he
  · exact absurd he Program.pure_ne_error
  · split_ifs at he
    · split at he
      · exact (Program.throw_eq_error.mp he).symm
      · exact absurd he Program.pure_ne_error
    · exact absurd he Program.pure_ne_error

theorem Named.resolveComps_ne_outOfRange (h : Named w) (hcs : ∀ c ∈ cs, IsName c) :
    w.resolveComps cs ≠ .error .outOfRange := by
  intro hres
  rcases Program.bind_eq_error.mp hres with hlive | ⟨⟨ver, rest⟩, hlive, _⟩
  · simpa using liveComps_error hlive
  · rcases h.resolveComps_cases hcs hlive with ⟨hlisted, hwalk⟩ | ⟨e, he, hne⟩
    · exact h.walk_ne_outOfRange (h.listsId_root hlisted) (hwalk ▸ hres) rfl
    · exact hne (Except.error.inj (he.symm.trans hres))

end Walk

end Htmpfs
