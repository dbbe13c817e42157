import Mathlib
import Htmpfs.Frames
import Htmpfs.Runs

/-!
# What every reachable state accounts for

Blocks are held by at least as many links as there are block lists with them,
inodes by exactly as many as there are versions that list them, and directory
entries lead to inodes of their own version.
-/

namespace Htmpfs

open Program (Ends Leaves)

/-! ## Blocks -/

section Blocks

variable {s : InodeSmi} {inode : Inode} {pool : IdPool Buffer} {b : ℕ}

/-- The block lists that contain a block, by inode and version. -/
def InodeSmi.holders (s : InodeSmi) (b : ℕ) : Set (ℕ × SnapshotVer) :=
  {q | ∃ node list, s.inodePool.find? q.1 = some node ∧ node.val.bufferMap[q.2]? = some list ∧
    b ∈ list.map (·.id)}

/-- The versions of one inode that list a block are no more than its links. -/
theorem Inode.Ok.encard_versions_le (h : inode.Ok pool) (hb : inode.Owns b)
    {node : PoolNode Buffer} (hnode : pool.find? b = some node) :
    {ver : SnapshotVer | ∃ list, inode.bufferMap[ver]? = some list ∧ b ∈ list.map (·.id)}.encard ≤
      node.linkCount := by
  have hsub : {ver : SnapshotVer | ∃ list, inode.bufferMap[ver]? = some list ∧
      b ∈ list.map (·.id)} ⊆ insert curModifiableVer (inode.snapshotRefs b) := by
    rintro ver hver
    by_cases hcur : ver = curModifiableVer
    · exact Or.inl hcur
    · exact Or.inr ⟨hcur, hver⟩
  rw [h.count b hb node hnode, add_comm]
  exact (Set.encard_le_encard hsub).trans (Set.encard_insert_le _ _)

theorem BlocksOk.encard_holders_le (h : BlocksOk s) {id : ℕ} {node : PoolNode Inode}
    (hnode : s.inodePool.find? id = some node) (hb : node.val.Owns b) {buf : PoolNode Buffer}
    (hbuf : s.bufferPool.find? b = some buf) : (s.holders b).encard ≤ buf.linkCount := by
  have hsub : s.holders b ⊆ (fun ver => (id, ver)) ''
      {ver : SnapshotVer | ∃ list, node.val.bufferMap[ver]? = some list ∧
        b ∈ list.map (·.id)} := by
    rintro ⟨id', ver⟩ ⟨node', list, hnode', hlist, hmem⟩
    dsimp only at hnode' hlist
    obtain rfl := h.disjoint id id' node node' b hnode hnode' hb ⟨ver, list, hlist, hmem⟩
    obtain rfl := Option.some.inj (hnode.symm.trans hnode')
    exact ⟨ver, ⟨list, hlist, hmem⟩, rfl⟩
  refine (Set.encard_le_encard hsub).trans ((Set.encard_image_le _ _).trans ?_)
  exact (h.inode id node hnode).1.encard_versions_le hb hbuf

/-- No live block is freed or shared writable, and no buffer is asked for in vain. -/
theorem blocks_accounted (h : SmiReachable s) :
    (∀ id node (ver : SnapshotVer) list, s.inodePool.find? id = some node →
      node.val.bufferMap[ver]? = some list → (list.map (·.id)).Nodup ∧
        ∀ r ∈ list, ∃ buf, s.bufferPool.find? r.id = some buf ∧ r.data = ⟨r.id, buf.addr⟩ ∧
          (s.holders r.id).encard ≤ buf.linkCount) ∧
      (∀ b, ∀ q ∈ s.holders b, ∀ q' ∈ s.holders b, q.1 = q'.1) ∧
      (∀ id node list, s.inodePool.find? id = some node →
        node.val.bufferMap[curModifiableVer]? = some list →
        ∀ r ∈ list, r.isSnapshoted = false → ∀ ver ≠ curModifiableVer, (id, ver) ∉ s.holders r.id) ∧
      ∀ op : SmiOp, op.Admitted s → ∀ s',
        op.run s ≠ .error (.htmpfs .requestedBufferNotFound) s' := by
  obtain ⟨hok, hs⟩ := h.sound
  refine ⟨?_, ?_, ?_, ?_⟩
  · intro id node ver list hnode hlist
    have hlistOk := (hok.inode id node hnode).1.list ver list hlist
    refine ⟨hlistOk.nodup, fun r hr => ?_⟩
    obtain ⟨buf, hbuf, hptr⟩ := hlistOk.live r hr
    exact ⟨buf, hbuf, hptr, hok.encard_holders_le hnode (Inode.Owns.of_mem hlist hr) hbuf⟩
  · rintro b q ⟨node, list, hnode, hlist, hb⟩ q' ⟨node', list', hnode', hlist', hb'⟩
    exact hok.disjoint q.1 q'.1 node node' b hnode hnode' ⟨_, list, hlist, hb⟩ ⟨_, list', hlist', hb'⟩
  · rintro id node list hnode hlist r hr hunfrozen ver hver ⟨node', list', hnode', hlist', hb⟩
    obtain rfl := Option.some.inj (hnode.symm.trans hnode')
    have hempty := (hok.inode id node hnode).1.snapshotRefs_eq_empty hlist hr hunfrozen
    have hmem : ver ∈ node.val.snapshotRefs r.id := ⟨hver, list', hlist', hb⟩
    rw [hempty] at hmem
    exact hmem
  · intro op hop s' hrun
    have hstops : Stops s op (.htmpfs .requestedBufferNotFound) s' :=
      (SmiOp.ends_run hok hs.toNamed hop.toAllowed).of_error hrun
    exact (hstops trivial).1 rfl

/-- The table of the root is in one block, which the current version lists. -/
theorem blocks_accounted_sampleSmi : ∃ buf, sampleSmi.bufferPool.find? 0 = some buf ∧
    (sampleSmi.holders 0).encard ≤ buf.linkCount := by
  have hlist : ((sampleSmi.inodePool.find? 0).bind fun node =>
      node.val.bufferMap[curModifiableVer]?) = some [⟨0, ⟨0, 0⟩, false⟩] := by decide +kernel
  obtain ⟨node, hnode, hlist⟩ := Option.bind_eq_some_iff.mp hlist
  obtain ⟨buf, hbuf, _, hcount⟩ := ((blocks_accounted smiReachable_sampleSmi).1 0 node
    curModifiableVer _ hnode hlist).2 ⟨0, ⟨0, 0⟩, false⟩ (by simp)
  exact ⟨buf, hbuf, hcount⟩

end Blocks

/-! ## Links -/

section Links

variable {s : InodeSmi}

/-- The links of an inode are the versions that list it. -/
theorem links_accounted (h : SmiReachable s) :
    (∀ (ver : SnapshotVer) list, s.snapshotVersionList[ver]? = some list → (list.map (·.id)).Nodup ∧
      ∀ e ∈ list, ∃ node, s.inodePool.find? e.id = some node ∧ e.inode = ⟨e.id, node.addr⟩) ∧
      (∀ id node, s.inodePool.find? id = some node →
        (node.linkCount : ℕ∞) = {ver | s.ListsInode ver id}.encard ∧ 1 ≤ node.linkCount ∧
          ∀ ver, node.val.bufferMap.contains ver ↔ ver = curModifiableVer ∨ s.ListsInode ver id) ∧
      s.ListsInode curModifiableVer rootInodeNumber := by
  obtain ⟨hok, hs⟩ := h.sound
  have hl := hs.links
  have hlists : ∀ ver id n, s.view.node id = some n →
      (s.ListsInode ver id ↔ s.view.Lists ver (entryOf id n)) := by
    intro ver id n hn
    rw [listsInode_iff]
    constructor
    · intro hid
      obtain ⟨n', hn', hlists⟩ := hl.live_of_listsId hid
      obtain rfl := Option.some.inj (hn.symm.trans hn')
      exact hlists
    · exact fun hlists => ⟨_, hlists, rfl⟩
  refine ⟨?_, ?_, listsInode_iff.mpr ⟨rootEntry, hl.root, rfl⟩⟩
  · intro ver list hlist
    refine ⟨hl.nodup ver list hlist, fun e he => ?_⟩
    obtain ⟨n, hn, heq⟩ := hl.live ver e ⟨list, hlist, he⟩ (Or.inl trivial)
    obtain ⟨node, hnode, rfl⟩ := view_node_eq_some.mp hn
    exact ⟨node, hnode, congrArg InodeResult.inode heq⟩
  · intro id node hnode
    have hn : s.view.node id = some (nodeView s.bufferPool node) :=
      view_node_eq_some.mpr ⟨node, hnode, rfl⟩
    have hset : {ver | s.ListsInode ver id} =
        s.view.versionsOf (entryOf id (nodeView s.bufferPool node)) := by
      ext ver
      exact hlists ver id _ hn
    refine ⟨?_, hl.pos id _ hn, fun ver => ?_⟩
    · rw [hset]
      exact hl.count id _ hn (Or.inl trivial)
    · rw [hlists ver id _ hn, ← hl.data ver id _ hn, Std.ExtTreeMap.contains_eq_isSome_getElem?]
      simp only [nodeView, Inode.data, Option.isSome_map]

theorem links_accounted_sampleSmi : sampleSmi.ListsInode curModifiableVer rootInodeNumber ∧
    ∃ node, sampleSmi.inodePool.find? 1 = some node ∧ 1 ≤ node.linkCount := by
  refine ⟨(links_accounted smiReachable_sampleSmi).2.2, ?_⟩
  have hsome : (sampleSmi.inodePool.find? 1).isSome = true := by decide +kernel
  obtain ⟨node, hnode⟩ := Option.isSome_iff_exists.mp hsome
  exact ⟨node, hnode, ((links_accounted smiReachable_sampleSmi).2.1 1 node hnode).2.1⟩

end Links

/-! ## Directory entries -/

section Entries

variable {s : InodeSmi}

/-- What resolves is in the pool. -/
theorem Named.node_of_resolve (h : Named s.view) {path : Bytes} {id : ℕ}
    (hres : s.view.resolve path = .ok id) : ∃ n, s.view.node id = some n := by
  rw [View.resolve_eq_resolveComps (View.resolve_absolute hres)] at hres
  obtain ⟨ver, rest, _, hid⟩ := h.resolveComps_listed isName_of_mem_comps hres
  obtain ⟨n, hn, _⟩ := h.links.live_of_listsId hid
  exact ⟨n, hn⟩

theorem Named.resolve_ne_outOfRange {w : View} (h : Named w) (path : Bytes) :
    w.resolve path ≠ .error .outOfRange := by
  by_cases hslash : path = [] ∨ path.head? = some slash
  · rw [View.resolve_eq_resolveComps hslash]
    exact h.resolveComps_ne_outOfRange isName_of_mem_comps
  · cases path with
    | nil => simp at hslash
    | cons c rest =>
        have hc : c ≠ slash := by simpa using hslash
        simp [View.resolve, hc]

/-- Directory entries of every version lead to inodes that the version lists. -/
theorem entries_accounted (h : SmiReachable s) :
    (∀ (ver : SnapshotVer) list e, s.snapshotVersionList[ver]? = some list → e ∈ list →
      ∀ self, InodeSmi.deref e.inode s = .ok self → self.isDentry = true →
        (s.blockSize + 1 < 2 ^ 64 → ∃ r, DirectoryResolver.new e.inode ver s = .ok r) ∧
        ∀ r, DirectoryResolver.new e.inode ver s = .ok r → ∀ p ∈ r.path,
          ∃ node, s.inodePool.find? p.inodeId = some node ∧ s.ListsInode ver p.inodeId ∧
            node.val.bufferMap.contains ver) ∧
      (∀ path, InodeSmi.getInodeIdByPath path s ≠ .error .outOfRange) ∧
      ∀ id, getFreeId s.inodePool = .ok id → ∀ path, InodeSmi.getInodeIdByPath path s ≠ .ok id := by
  obtain ⟨hok, hs⟩ := h.sound
  refine ⟨?_, ?_, ?_⟩
  · intro ver list e hlist he self hself hdir
    obtain ⟨n, hn, heq⟩ := hs.links.live ver e ⟨list, hlist, he⟩ (Or.inl trivial)
    have hptr : e.inode = ⟨e.id, n.addr⟩ := congrArg InodeResult.inode heq
    have hderef : s.view.deref? e.inode = some n := by
      rw [hptr]
      exact View.deref?_of_node hn
    obtain ⟨node, hnode, _, hnv, hval⟩ := deref_of_view hderef
    obtain rfl := Except.ok.inj (hself.symm.trans hval)
    have hkind : n.isDentry = true := by
      rw [← hnv]
      exact hdir
    have hopen : s.view.openDir e.inode ver = s.view.tableAt e.id ver := by
      unfold View.openDir
      rw [hderef, View.tableAt_of_node hn]
    refine ⟨fun hword => ?_, fun r hr p hp => ?_⟩
    · have hlisted : s.view.ListsId ver e.id := ⟨e, ⟨list, hlist, he⟩, rfl⟩
      obtain ⟨t, ht⟩ := hs.exists_table hword.ne hs.defined hlisted hn hkind
      exact ⟨⟨t, e.inode, ver⟩, by rw [hok.resolver_new_eq, hopen, ht]; rfl⟩
    · rw [hok.resolver_new_eq, hopen] at hr
      cases ht : s.view.tableAt e.id ver with
      | error err => simp [ht, Functor.map, Except.map] at hr
      | ok t =>
          obtain rfl : ⟨t, e.inode, ver⟩ = r := by simpa [ht, Functor.map, Except.map] using hr
          obtain ⟨n', hn', hl'⟩ := hs.toNamed.node_of_mem ht hp
          obtain ⟨node', hnode', rfl⟩ := view_node_eq_some.mp hn'
          refine ⟨node', hnode', listsInode_iff.mpr ⟨_, hl', rfl⟩, ?_⟩
          have hdata := (hs.links.data ver _ _ hn').mpr (Or.inr hl')
          rw [Std.ExtTreeMap.contains_eq_isSome_getElem?]
          simpa only [nodeView, Inode.data, Option.isSome_map] using hdata
  · intro path
    rw [hok.resolve_eq]
    exact hs.toNamed.resolve_ne_outOfRange path
  · intro id hfree path hres
    rw [hok.resolve_eq] at hres
    obtain ⟨n, hn⟩ := hs.toNamed.node_of_resolve hres
    obtain ⟨id', hid', hnone, _⟩ := getFreeId_ok hok.inodeSmall
    obtain rfl := Except.ok.inj (hfree.symm.trans hid')
    rw [view_node_eq_none.mpr hnone] at hn
    simp at hn

theorem entries_accounted_sampleSmi :
    InodeSmi.getInodeIdByPath [slash, 97] sampleSmi ≠ .error .outOfRange :=
  (entries_accounted smiReachable_sampleSmi).2.1 [slash, 97]

end Entries

end Htmpfs
