import Mathlib
import Htmpfs.Tables
import Htmpfs.Pwrite

/-!
# Orphaned blocks

An inode is erased from the pool without a word to its buffers, and a frozen
block that the current version copies keeps the link it had for it.  What is
left behind belongs to no inode and is never freed.  A run leaves nothing
behind if its calls drop no inode with a block and copy no block that only the
current version holds.
-/

namespace Htmpfs

open Program (Ends Leaves)

/-- The buffers that only the block lists of the inode name are gone. -/
def FreesBlocks (s s' : InodeSmi) (id : ℕ) : Prop :=
  ∀ node b, s.inodePool.find? id = some node → node.val.Owns b →
    (∀ id' node', s.inodePool.find? id' = some node' → node'.val.Owns b → id' = id) →
    s'.bufferPool.find? b = none

namespace SmiOp

/-- The two operations that take links from inodes. -/
def Unlinks : SmiOp → Prop
  | removeChild _ _ => True
  | deleteSnapshot _ => True
  | _ => False

/-- The call leaves no block behind: the frozen blocks that it copies are held by a snapshot of
their inode, the inodes that it drops for good have no blocks, and every block of a snapshot that it
deletes is in another version of its inode. -/
def Tidy (s : InodeSmi) : SmiOp → Prop
  | makeChild parent name _ =>
      s.view.Creatable parent name → HeldElsewhere s parent (fun _ => True)
  | removeChild parent name => s.view.Removable parent name →
      HeldElsewhere s parent (fun _ => True) ∧ ∀ t p,
        s.view.tableAt parent curModifiableVer = .ok t →
        (t.find? fun i => i.pathname = name) = some p → DropsNothing s p.inodeId
  | createSnapshot _ => True
  | deleteSnapshot ver => ver ≠ curModifiableVer → DeletesCleanly s ver
  | write id buffer offset resize => ∀ node size, s.inodePool.find? id = some node →
      node.val.isDentry = false →
      node.val.currentDataSize s.bufferPool curModifiableVer = .ok size →
      HeldElsewhere s id (Bank.Reallocates s.blockSize buffer offset resize size)
  | truncate id _ => HeldElsewhere s id (fun _ => True)
  | rename _ path name => RenamesCleanly s path.1 name.1

end SmiOp

section Runs

variable {s s' : InodeSmi} {op : SmiOp}

theorem View.MakesChild.creatable {w w' : View} {parent id : ℕ} {name : Bytes} {isDir : Bool}
    (hstep : w.MakesChild parent name isDir id w') : w.Creatable parent name := by
  rcases hstep with ⟨n, t, list, hname, hparent, htable, hnew, hfree, hid, hsize, hlist⟩
  exact ⟨hname, t, by rw [View.tableAt_of_node hparent, htable], hnew⟩

theorem Fails.noOrphan {e : Exit} (hfails : Fails s e s') (horphan : NoOrphan s) :
    e.Thrown → NoOrphan s' := by
  intro hthrown
  rw [(hfails hthrown).1]
  exact horphan

/-- The step lemma. -/
theorem SmiOp.ends_run_noOrphan (h : BlocksOk s) (hs : Named s.view) (hop : op.Allowed s)
    (htidy : op.Tidy s) (horphan : NoOrphan s) :
    Ends op.run s (fun _ s' => NoOrphan s') (fun e s' => e.Thrown → NoOrphan s') := by
  obtain ⟨list, hlist⟩ := hs.links.exists_current
  cases op with
  | makeChild parent name isDir =>
      unfold SmiOp.run
      apply Program.ends_bind.mpr
      apply (h.ends_makeChild hlist).mono
      · rintro _ s' ⟨_, hstep, hkept⟩
        exact hkept (htidy hstep.creatable) horphan
      · exact fun _ _ he => he.1.noOrphan horphan
  | removeChild parent name =>
      apply (h.ends_removeChild hlist).mono
      · rintro _ s' ⟨_, hstep, hkept, _⟩
        obtain ⟨hheld, hdrops⟩ := htidy hstep.removable
        exact hkept hheld hdrops horphan
      · exact fun _ _ he => he.1.noOrphan horphan
  | createSnapshot ver =>
      apply (h.ends_createSnapshot_of_links hs.links ver).mono
      · exact fun _ _ hr => hr.2.2 horphan
      · exact fun _ _ he => he.fails.noOrphan horphan
  | deleteSnapshot ver =>
      apply (h.ends_deleteSnapshot_of_links hs.links ver).mono
      · rintro _ s' ⟨_, hstep, hkept, _⟩
        exact hkept (htidy hstep.ne_current) horphan
      · exact fun _ _ he => he.fails.noOrphan horphan
  | write id buffer offset resize =>
      unfold SmiOp.run
      apply Program.ends_bind.mpr
      apply ends_onInodeId
      · intro n hn
        obtain ⟨node, hnode, rfl⟩ := view_node_eq_some.mp hn
        obtain ⟨c, hc⟩ := h.data_current hn
        have hsize : node.val.currentDataSize s.bufferPool curModifiableVer = .ok c.length := by
          rw [(h.inode id node hnode).1.currentDataSize_eq, show node.val.data _ _ = _ from hc]
        have hdone : ∀ s', WriteDone s id (nodeView s.bufferPool node) buffer offset resize false
            s' → NoOrphan s' := by
          intro s' hwrite
          have hfile : node.val.isDentry = false := by simpa [nodeView] using hwrite.kind
          apply hwrite.orphan c hc ?_ horphan
          exact htidy node c.length hnode hfile hsize
        apply (h.ends_write_any (View.deref?_of_node hn) resize false hop.sizes.1
          hop.sizes.2).mono
        · exact fun _ s' hs' => hdone s' hs'.2
        · rintro e s' (rfl | ⟨_, rfl | hs'⟩) hthrown
          · exact absurd hthrown Exit.not_thrown_badAlloc
          · exact horphan
          · exact hdone s' hs'.2
      · exact fun _ _ he => he.noOrphan horphan
  | truncate id length =>
      apply ends_onInodeId
      · intro n hn
        apply (h.ends_truncate (View.deref?_of_node hn)).mono
        · exact fun _ _ hr => hr.2.2.1 htidy horphan
        · rintro e s' rfl hthrown
          exact absurd hthrown Exit.not_thrown_badAlloc
      · exact fun _ _ he => he.noOrphan horphan
  | rename ctx path name =>
      unfold SmiOp.run
      apply Program.ends_bind.mpr
      apply (Fuse.ends_doRename_cases h hs.links.weaken).mono
      · rintro r s' (⟨rfl, _⟩ | ⟨_, _, _, hkept⟩ | ⟨_, _, hspoils⟩)
        · exact horphan
        · exact hkept htidy horphan
        · obtain ⟨_, _, _, _, _, hargs, _⟩ := hspoils.source_root hs.links hs.names
          exact absurd hargs.source hop.root
      · exact fun _ _ he hthrown => absurd hthrown he

theorem NoOrphan.step (h : Decodable s) (horphan : NoOrphan s)
    (hstep : SmiStepWith (fun s op => op.Allowed s ∧ op.Tidy s) s s') : NoOrphan s' := by
  obtain ⟨op, ⟨hop, htidy⟩, hrun⟩ := hstep
  have hends := SmiOp.ends_run_noOrphan h.blocks h.named hop htidy horphan
  rcases hends.leaves hrun with ⟨_, hkept⟩ | ⟨e, hthrown, hkept⟩
  · exact hkept
  · exact hkept hthrown

/-- The run lemma. -/
theorem noOrphan_of_run {limits : PoolLimits} {blockSize : ℕ} (hbs : 0 < blockSize)
    (hword : blockSize < 2 ^ 64)
    (hrun : Relation.ReflTransGen (SmiStepWith fun s op => op.Allowed s ∧ op.Tidy s)
      (InodeSmi.new limits blockSize) s) : NoOrphan s := by
  have hboth : Decodable s ∧ NoOrphan s := by
    apply Program.run_preserves hrun
    · exact ⟨(fresh_new limits blockSize).decodable hbs hword, (fresh_new limits blockSize).noOrphan⟩
    · rintro t t' ⟨ht, horphan⟩ hstep
      obtain ⟨op, ⟨hop, htidy⟩, hleaves⟩ := hstep
      exact ⟨ht.step ⟨op, hop, hleaves⟩, horphan.step ht ⟨op, ⟨hop, htidy⟩, hleaves⟩⟩
  exact hboth.2

/-- The blocks of an inode that the call drops are all still there. -/
theorem SmiOp.keeps_blocks (h : Decodable s) (hop : op.Unlinks) (hrun : op.run s = .ok () s')
    {id b : ℕ} {node : PoolNode Inode} (hnode : s.inodePool.find? id = some node)
    (hgone : s'.inodePool.find? id = none) (howns : node.val.Owns b) :
    (s'.bufferPool.find? b).isSome := by
  obtain ⟨buffer, hbuffer⟩ := (h.blocks.inode id node hnode).1.find?_of_owns howns
  have hsome : (s.bufferPool.find? b).isSome := by simp [hbuffer]
  cases op with
  | removeChild parent name =>
      obtain ⟨list, hlist⟩ := h.named.links.exists_current
      obtain ⟨_, hstep, _, _, hkept⟩ := (h.blocks.ends_removeChild hlist).of_ok hrun
      -- the parent outlives its child, so that the block is not the parent's
      have hne : id ≠ parent := by
        rintro rfl
        obtain ⟨n', _, hn', _⟩ := hstep.node_parent (view_node_eq_some.mpr ⟨node, hnode, rfl⟩)
        rw [view_node_eq_none.mpr hgone] at hn'
        simp at hn'
      rw [hkept b hsome fun node' hnode' howns' =>
        hne (h.blocks.disjoint id parent node node' b hnode hnode' howns howns')]
      exact hsome
  | deleteSnapshot ver =>
      obtain ⟨_, _, _, hkept⟩ :=
        (h.blocks.ends_deleteSnapshot_of_links h.named.links ver).of_ok hrun
      exact hkept b hsome
  | makeChild parent name isDir => exact hop.elim
  | createSnapshot ver => exact hop.elim
  | write id buffer offset resize => exact hop.elim
  | truncate id length => exact hop.elim
  | rename ctx path name => exact hop.elim

/-- A dropped inode gives its space back exactly when it has none, and tidy calls leave no block
behind. -/
theorem space_given_back_iff {limits : PoolLimits} {blockSize : ℕ} (hbs : 0 < blockSize)
    (hword : blockSize < 2 ^ 64)
    (hrun : Relation.ReflTransGen (SmiStepWith fun s op => op.Allowed s)
      (InodeSmi.new limits blockSize) s) :
    (∀ op s' id node, SmiOp.Unlinks op → op.run s = .ok () s' →
      s.inodePool.find? id = some node → s'.inodePool.find? id = none →
      (FreesBlocks s s' id ↔ ∀ b, ¬ node.val.Owns b)) ∧
    (Relation.ReflTransGen (SmiStepWith fun s op => op.Allowed s ∧ op.Tidy s)
      (InodeSmi.new limits blockSize) s → NoOrphan s) := by
  have h : Decodable s := decodable_of_run hbs hword hrun
  refine ⟨fun op s' id node hop hcall hnode hgone => ?_, noOrphan_of_run hbs hword⟩
  constructor
  · intro hfrees b howns
    have hkept := SmiOp.keeps_blocks h hop hcall hnode hgone howns
    have hfreed := hfrees node b hnode howns fun id' node' hnode' howns' =>
      h.blocks.disjoint id' id node' node b hnode' hnode howns' howns
    simp [hfreed] at hkept
  · intro hnone node' b hnode' howns
    obtain rfl := Option.some.inj (hnode.symm.trans hnode')
    exact absurd howns (hnone b)

end Runs

/-! ## Two runs -/

section Samples

/-- The file `a` of one byte. -/
def writtenSmi : InodeSmi := Program.exec (SmiOp.write 1 [65] 0 true).run sampleSmi

/-- The file system after the file was removed. -/
def orphanSmi : InodeSmi := Program.exec (SmiOp.removeChild 0 [97]).run writtenSmi

theorem tidy_makeChild_new :
    (SmiOp.makeChild 0 [97] false).Tidy (InodeSmi.new .libstdcxx 512) := by
  intro _ node list hnode hlist j r hj
  have hroot : (((InodeSmi.new .libstdcxx 512).inodePool.find? 0).bind fun node =>
      node.val.bufferMap[curModifiableVer]?) = some [] := by decide +kernel
  rw [hnode, Option.bind_some, hlist] at hroot
  rw [Option.some.inj hroot] at hj
  simp at hj

theorem space_given_back_iff_sampleSmi : NoOrphan sampleSmi ∧
    FreesBlocks sampleSmi (Program.exec (SmiOp.removeChild 0 [97]).run sampleSmi) 1 := by
  have hiff := space_given_back_iff (by decide) (by decide) run_sampleSmi
  have htidy : Relation.ReflTransGen (SmiStepWith fun s op => op.Allowed s ∧ op.Tidy s)
      (InodeSmi.new .libstdcxx 512) sampleSmi :=
    Relation.ReflTransGen.single ⟨.makeChild 0 [97] false,
      ⟨⟨trivial, trivial, trivial⟩, tidy_makeChild_new⟩,
      Program.leaves_exec (a := ()) (by decide +kernel)⟩
  have hfile : (sampleSmi.inodePool.find? 1).map (fun node => node.val.bufferMap.toList.all
      fun p => p.2.isEmpty) = some true := by decide +kernel
  obtain ⟨node, hnode, hempty⟩ := Option.map_eq_some_iff.mp hfile
  refine ⟨hiff.2 htidy, (hiff.1 (.removeChild 0 [97]) _ 1 node trivial
    (Program.eq_ok_of_outcome (by decide +kernel)) hnode (by decide +kernel)).mpr ?_⟩
  rintro b ⟨ver, list, hlist, hmem⟩
  have hnil := List.all_eq_true.mp hempty (ver, list)
    (Std.ExtTreeMap.mem_toList_iff_getElem?_eq_some.mpr hlist)
  simp only [List.isEmpty_iff] at hnil
  simp [hnil] at hmem

theorem run_writtenSmi : Relation.ReflTransGen (SmiStepWith fun s op => op.Allowed s)
    (InodeSmi.new .libstdcxx 512) writtenSmi :=
  run_sampleSmi.tail ⟨.write 1 [65] 0 true, ⟨by simp [SmiOp.Is64Bit], trivial, trivial⟩,
    Program.leaves_exec (a := ()) (by decide +kernel)⟩

/-- The byte of the file stays when the file goes. -/
theorem not_space_given_back :
    (¬ ∀ s, Relation.ReflTransGen (SmiStepWith fun s op => op.Allowed s)
        (InodeSmi.new .libstdcxx 512) s →
      ∀ op s' id, SmiOp.Unlinks op → op.run s = .ok () s' →
        (s.inodePool.find? id).isSome → s'.inodePool.find? id = none → FreesBlocks s s' id) ∧
    ¬ ∀ s, Relation.ReflTransGen (SmiStepWith fun s op => op.Allowed s)
        (InodeSmi.new .libstdcxx 512) s →
      NoOrphan s := by
  have hremove : (SmiOp.removeChild 0 [97]).run writtenSmi = .ok () orphanSmi :=
    Program.eq_ok_of_outcome (by decide +kernel)
  have hleft : (orphanSmi.bufferPool.find? 1).isSome = true := by decide +kernel
  have howners : ∀ s : InodeSmi, (s.inodePool.nodes.toList.all fun p => p.1 = 1 ||
      p.2.val.bufferMap.toList.all fun q => !(q.2.map (·.id)).contains 1) = true →
      ∀ id node, s.inodePool.find? id = some node → node.val.Owns 1 → id = 1 := by
    rintro s hall id node hnode ⟨ver, list, hlist, hmem⟩
    have hentry := List.all_eq_true.mp hall (id, node)
      (Std.ExtTreeMap.mem_toList_iff_getElem?_eq_some.mpr hnode)
    by_contra hne
    rw [Bool.or_eq_true, or_iff_right (by simpa using hne)] at hentry
    have hblock := List.all_eq_true.mp hentry (ver, list)
      (Std.ExtTreeMap.mem_toList_iff_getElem?_eq_some.mpr hlist)
    simp only [Bool.not_eq_true', List.contains_eq_mem, decide_eq_false_iff_not] at hblock
    exact hblock hmem
  constructor
  · intro hall
    have hfile : (writtenSmi.inodePool.find? 1).map (fun node =>
        (node.val.bufferMap[curModifiableVer]?).map fun list => list.map (·.id)) =
          some (some [1]) := by decide +kernel
    obtain ⟨node, hnode, hlists⟩ := Option.map_eq_some_iff.mp hfile
    obtain ⟨list, hlist, hids⟩ := Option.map_eq_some_iff.mp hlists
    have hfreed := hall writtenSmi run_writtenSmi (.removeChild 0 [97]) orphanSmi 1 trivial hremove
      (by decide +kernel) (by decide +kernel) node 1 hnode
      ⟨curModifiableVer, list, hlist, by simp [hids]⟩ (howners writtenSmi (by decide +kernel))
    simp [hfreed] at hleft
  · intro hall
    have hrun := run_writtenSmi.tail ⟨.removeChild 0 [97], ⟨trivial, trivial, trivial⟩,
      Or.inl ⟨(), hremove⟩⟩
    obtain ⟨id, node, hnode, howns⟩ := hall orphanSmi hrun 1 hleft
    obtain rfl := howners orphanSmi (by decide +kernel) id node hnode howns
    have hgone : orphanSmi.inodePool.find? 1 = none := by decide +kernel
    simp [hgone] at hnode

end Samples

end Htmpfs
