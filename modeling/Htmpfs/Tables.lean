import Mathlib
import Htmpfs.InodeData
import Htmpfs.Mounted

/-!
# The bytes of directories

A directory holds nothing, or a count and as many records, as long as no
directory is cut: `save_current` writes nothing else, and `write` without the
token of the resolver is refused.
-/

namespace Htmpfs

open Program (Ends Leaves)

/-- The bytes of no entry, or a count and as many records. -/
def IsTable (c : Bytes) : Prop :=
  c = [] ∨ ∃ k, c.length = 8 + flatPathPackSize * k ∧ LittleEndian.decode (c.take 8) = k

section Bytes

variable {w w' w'' : View} {parent id : ℕ} {name path : Bytes} {isDir : Bool} {ver : SnapshotVer}
  {t : List PathPack} {c : Bytes} {op : SmiOp}

theorem isTable_encodeTable (ht : (encodeTable t).length < 2 ^ 64) : IsTable (encodeTable t) := by
  refine Or.inr ⟨t.length, length_encodeTable, ?_⟩
  rw [length_encodeTable, flatPathPackSize] at ht
  unfold encodeTable
  rw [List.take_left' (LittleEndian.length_encode 8 _)]
  exact LittleEndian.decode_encode_of_lt (by omega)

/-- What `refresh` reads of a table lies inside the string. -/
theorem IsTable.reads (h : IsTable c) (hne : c ≠ []) : stringToType 8 c = .ok (c.take 8) ∧
    ∀ j < LittleEndian.decode (c.take 8),
      stringToType flatPathPackSize (c.drop (8 + flatPathPackSize * j)) =
        .ok ((c.drop (8 + flatPathPackSize * j)).take flatPathPackSize) := by
  obtain ⟨k, hlength, hcount⟩ := h.resolve_left hne
  have hread : ∀ size (str : Bytes), size ≤ str.length →
      stringToType size str = .ok (str.take size) := by
    intro size str hle
    unfold stringToType
    rw [if_pos (by omega), List.take_append_of_le_length hle]
    rfl
  refine ⟨hread _ _ (by omega), fun j hj => hread _ _ ?_⟩
  have hstep : flatPathPackSize * (j + 1) ≤ flatPathPackSize * k :=
    Nat.mul_le_mul_left _ (by omega)
  rw [List.length_drop]
  rw [Nat.mul_add] at hstep
  omega

/-- The bytes of a directory are old bytes of the same directory, or a table. -/
def View.Saves (w w' : View) : Prop :=
  ∀ id n' ver c, w'.node id = some n' → n'.isDentry = true → n'.data ver = some c →
    (∃ n u, w.node id = some n ∧ n.isDentry = true ∧ n.data u = some c) ∨ IsTable c

/-- Every directory of every version holds a table. -/
def View.Tables (w : View) : Prop :=
  ∀ id n ver c, w.node id = some n → n.isDentry = true → n.data ver = some c → IsTable c

theorem View.Tables.saves (h : w.Tables) (hstep : w.Saves w') : w'.Tables := by
  intro id n' ver c hn' hdir hc
  rcases hstep id n' ver c hn' hdir hc with ⟨n, u, hn, hdir', hc'⟩ | htable
  · exact h id n u c hn hdir' hc'
  · exact htable

theorem View.Saves.refl : w.Saves w := fun _ n ver _ hn hdir hc => Or.inl ⟨n, ver, hn, hdir, hc⟩

theorem View.Saves.trans (h : w.Saves w') (h' : w'.Saves w'') : w.Saves w'' := by
  intro id n' ver c hn' hdir hc
  rcases h' id n' ver c hn' hdir hc with ⟨n, u, hn, hdir', hc'⟩ | htable
  · exact h id n u c hn hdir' hc'
  · exact Or.inr htable

/-- A step that changes inodes one by one. -/
theorem View.saves_of_nodes
    (h : ∀ id n', w'.node id = some n' → n'.isDentry = true → ∃ n, w.node id = some n ∧
      n.isDentry = true ∧ ∀ ver c, n'.data ver = some c → (∃ u, n.data u = some c) ∨ IsTable c) :
    w.Saves w' := by
  intro id n' ver c hn' hdir hc
  obtain ⟨n, hn, hdir', hdata⟩ := h id n' hn' hdir
  exact (hdata ver c hc).imp_left fun ⟨u, hu⟩ => ⟨n, u, hn, hdir', hu⟩

theorem View.saves_setTable (ht : (encodeTable t).length < 2 ^ 64) :
    w.Saves (w.setCurrent id fun _ => encodeTable t) := by
  refine View.saves_of_nodes fun j n' hn' hdir => ?_
  obtain ⟨n, hn, rfl⟩ := View.node_setCurrent_eq_some.mp hn'
  refine ⟨n, hn, ?_, fun ver c hc => ?_⟩
  · split_ifs at hdir <;> exact hdir
  · split_ifs at hc with hj
    · by_cases hver : ver = curModifiableVer
      · subst hver
        rw [NodeView.data_setCurrent_self] at hc
        obtain ⟨_, _, rfl⟩ := Option.map_eq_some_iff.mp hc
        exact Or.inr (isTable_encodeTable ht)
      · rw [NodeView.data_setCurrent_of_ne hver] at hc
        exact Or.inl ⟨ver, hc⟩
    · exact Or.inl ⟨ver, hc⟩

theorem View.saves_rewrites {g : NodeView → NodeView} {n : NodeView} (hn : w.node id = some n)
    (hfile : n.isDentry = false) (hg : n.Rewrites (g n)) :
    w.Saves (w.update id fun n => some (g n)) := by
  refine View.saves_of_nodes fun j n' hn' hdir => ?_
  obtain ⟨m, hm, rfl⟩ := View.node_rewrites_eq_some.mp hn'
  split_ifs at hdir ⊢ with hj
  · subst hj
    obtain rfl := Option.some.inj (hn.symm.trans hm)
    rw [hg.isDentry, hfile] at hdir
    exact absurd hdir Bool.false_ne_true
  · exact ⟨m, hm, hdir, fun ver c hc => Or.inl ⟨ver, hc⟩⟩

theorem NodeView.data_of_dropLink {n n' : NodeView} (h : n.dropLink = some n') :
    n'.data = n.data := by
  unfold NodeView.dropLink at h
  split_ifs at h
  obtain rfl := Option.some.inj h
  rfl

theorem View.saves_dropLink : w.Saves (w.dropLink id) := by
  refine View.saves_of_nodes fun j n' hn' hdir => ?_
  rw [View.node_dropLink] at hn'
  split_ifs at hn' with hj
  · obtain ⟨n, hn, hdrop⟩ := Option.bind_eq_some_iff.mp hn'
    have hkind := NodeView.isDentry_of_dropLink hdrop
    have hdata := NodeView.data_of_dropLink hdrop
    exact ⟨n, hj ▸ hn, hkind ▸ hdir, fun ver c hc => Or.inl ⟨ver, hdata ▸ hc⟩⟩
  · exact ⟨n', hn', hdir, fun ver c hc => Or.inl ⟨ver, hc⟩⟩

theorem View.MakesChild.saves (hstep : w.MakesChild parent name isDir id w') : w.Saves w' := by
  rcases hstep with ⟨n, t, list, hname, hparent, htable, hnew, hfree, hid, hsize, hlist⟩
  have hadd : w.Saves (w.addNode id isDir) := by
    intro j n' ver c hn' hdir hc
    rw [View.node_addNode] at hn'
    split_ifs at hn' with hj
    · obtain rfl := Option.some.inj hn'
      simp only at hc
      split_ifs at hc
      exact Or.inr (Or.inl (Option.some.inj hc).symm)
    · exact Or.inl ⟨n', ver, hn', hdir, hc⟩
  exact hadd.trans (View.saves_setTable hsize)

theorem View.RemovesChild.saves (hstep : w.RemovesChild parent name w') : w.Saves w' := by
  rcases hstep with ⟨n, t, p, target, list, hparent, htable, hp, htarget, hempty, hsize, hlist⟩
  have hset : w.Saves ((w.setCurrent parent fun _ =>
      encodeTable (t.eraseP fun i => i.pathname = name)).setListing curModifiableVer
        (list.erase (entryOf p.inodeId target))) :=
    View.saves_setTable hsize
  exact hset.trans View.saves_dropLink

theorem View.CreatesSnapshot.saves (hstep : w.CreatesSnapshot ver w') : w.Saves w' := by
  rcases hstep with ⟨list, hnew, hlist⟩
  refine View.saves_of_nodes fun j n' hn' hdir => ?_
  rw [View.node_setListing, View.node_updateAll] at hn'
  split_ifs at hn' with hj
  · obtain ⟨n, hn, heq⟩ := Option.bind_eq_some_iff.mp hn'
    obtain rfl := Option.some.inj heq
    refine ⟨n, hn, hdir, fun u c hc => Or.inl ?_⟩
    by_cases hu : u = ver
    · rw [hu, NodeView.data_freeze_self] at hc
      exact ⟨_, hc⟩
    · rw [NodeView.data_freeze_of_ne hu] at hc
      exact ⟨u, hc⟩
  · exact ⟨n', hn', hdir, fun u c hc => Or.inl ⟨u, hc⟩⟩

theorem View.DeletesSnapshot.saves (hstep : w.DeletesSnapshot ver w') : w.Saves w' := by
  rcases hstep with ⟨list, hcur, hlist, hlive⟩
  refine View.saves_of_nodes fun j n' hn' hdir => ?_
  rw [View.node_setListing, View.node_updateAll] at hn'
  split_ifs at hn' with hj
  · obtain ⟨n, hn, hdrop⟩ := Option.bind_eq_some_iff.mp hn'
    have hkind := NodeView.isDentry_of_dropLink hdrop
    have hdata := NodeView.data_of_dropLink hdrop
    refine ⟨n, hn, hkind ▸ hdir, fun u c hc => Or.inl ?_⟩
    rw [hdata] at hc
    by_cases hu : u = ver
    · rw [hu, NodeView.data_unfreeze_self] at hc
      simp at hc
    · rw [NodeView.data_unfreeze_of_ne hu] at hc
      exact ⟨u, hc⟩
  · exact ⟨n', hn', hdir, fun u c hc => Or.inl ⟨u, hc⟩⟩

theorem View.Renames.saves (hstep : w.Renames path name w') (hname : 0 ∉ name) : w.Saves w' := by
  obtain ⟨_, _, _, _, _, _, w₀, w₁, hparts⟩ := hstep.parts hname
  have h₀ : w.Saves w₀ := by
    rcases hparts.removes with rfl | hremove
    · exact View.Saves.refl
    · exact hremove.saves
  have h₁ : w₀.Saves w₁ := by
    rcases hparts.adds with ⟨t, htable, hnew, hsize⟩
    exact View.saves_setTable hsize
  have h₂ : w₁.Saves w' := by
    rcases hparts.drops with ⟨t, p, htable, hentry, hsize⟩
    exact View.saves_setTable hsize
  exact (h₀.trans h₁).trans h₂

theorem View.Changes.saves (hstep : w.Changes op w') : w.Saves w' := by
  cases hstep with
  | none => exact View.Saves.refl
  | makes hstep => exact hstep.saves
  | removes hstep => exact hstep.saves
  | creates hstep => exact hstep.saves
  | deletes hstep => exact hstep.saves
  | rewrites f hn hfile => exact View.saves_rewrites hn hfile NodeView.rewrites_setCurrent
  | overflows g hn hfile hg _ => exact View.saves_rewrites hn hfile hg
  | @renames ctx path name _ hstep => exact hstep.saves name.2.1

end Bytes

/-! ## Runs of the interface -/

/-- One call, made where the condition holds, that returned or threw. -/
def SmiStepWith (cond : InodeSmi → SmiOp → Prop) (s s' : InodeSmi) : Prop :=
  ∃ op : SmiOp, cond s op ∧ Leaves Exit.Thrown op.run s s'

section Runs

variable {w w' : View} {op : SmiOp} {s s' : InodeSmi}

theorem View.Changes.rootless (hstep : w.Changes op w') (h : Named w) (hroot : w.Rootless)
    (hop : op.KeepsRoot w) : w'.Rootless := by
  have hnew : ∀ (j : ℕ) (p : PathPack), False → p.inodeId ≠ rootInodeNumber :=
    fun _ _ hfalse => hfalse.elim
  cases hstep with
  | none => exact hroot
  | makes hstep =>
      exact hstep.grows.entries hroot fun _ _ hp => hp.2 ▸ hstep.ne_root h.links
  | removes hstep => exact (hstep.grows h.links).entries hroot hnew
  | creates hstep => exact (hstep.grows h.links).entries hroot hnew
  | deletes hstep => exact (hstep.grows h.links).entries hroot hnew
  | rewrites f hn hfile =>
      exact (View.grows_rewrites hn hfile NodeView.rewrites_setCurrent).entries hroot hnew
  | overflows g hn hfile hg _ => exact (View.grows_rewrites hn hfile hg).entries hroot hnew
  | @renames ctx path name _ hstep =>
      obtain ⟨_, _, id, _, _, _, _, _, hparts⟩ := hstep.parts name.2.1
      refine hparts.entries h.links hroot ?_
      rintro rfl
      exact hop hparts.source

theorem Named.changes (h : Named w) (hroot : w.Rootless) (hstep : w.Changes op w') :
    Named w' := by
  cases hstep with
  | none => exact h
  | makes hstep => exact h.makesChild hstep
  | @removes parent name _ hstep =>
      exact h.removesChild hstep fun t p ht hp =>
        hroot parent _ t ht p (List.mem_of_find?_eq_some hp)
  | creates hstep => exact h.createsSnapshot hstep
  | deletes hstep => exact h.deletesSnapshot hstep
  | rewrites f hn hfile => exact h.setCurrent hn hfile
  | overflows g hn hfile hg _ => exact h.rewrites hn hfile hg
  | @renames ctx path name _ hstep => exact h.renames hstep name.2.1

/-- What holds of the directories in a run, whatever the names are. -/
structure Decodable (s : InodeSmi) : Prop where
  blocks : BlocksOk s
  named : Named s.view
  rootless : s.view.Rootless
  tables : s.view.Tables

theorem Fresh.decodable {limits : PoolLimits} {blockSize : ℕ} (h : Fresh limits blockSize s)
    (hbs : 0 < blockSize) (hword : blockSize < 2 ^ 64) : Decodable s where
  blocks := h.blocksOk hbs hword
  named := h.sound.toNamed
  rootless := h.sound.rootless
  tables := by
    intro id n ver c hn _ hc
    rw [(h.view_node hn).2.2.2.2] at hc
    split_ifs at hc
    exact Or.inl (Option.some.inj hc).symm

/-- The step lemma. -/
theorem Decodable.step (h : Decodable s) (hstep : SmiStepWith (fun s op => op.Allowed s) s s') :
    Decodable s' := by
  obtain ⟨op, hop, hrun⟩ := hstep
  obtain ⟨h', hchange⟩ := SmiOp.leaves_run h.blocks h.named hop hrun
  exact
    { blocks := h'
      named := h.named.changes h.rootless hchange
      rootless := hchange.rootless h.named h.rootless hop.root
      tables := h.tables.saves hchange.saves }

theorem write_directory_eq {id : ℕ} {node : PoolNode Inode}
    (hnode : s.inodePool.find? id = some node) (hdir : node.val.isDentry = true) {buffer : Bytes}
    {offset : ℕ} {resize : Bool} :
    (SmiOp.write id buffer offset resize).run s = .error (.htmpfs .invalidWriteInvoke) s := by
  refine Program.Ends.eq_error ?_
  unfold SmiOp.run
  rw [Program.ends_bind]
  refine ends_onInodeId (fun n hn => ?_) fun e hnone _ => ?_
  · obtain ⟨node', hnode', rfl⟩ := view_node_eq_some.mp hn
    obtain rfl := Option.some.inj (hnode.symm.trans hnode')
    refine (ends_onInode hnode rfl).mpr ?_
    unfold Inode.write
    simp only [Program.ends_bind, Program.ends_get, hdir, Bool.not_false, Bool.and_self, if_true,
      Program.ends_throw, true_and]
    exact withInode_self hnode
  · rw [view_node_eq_none, hnode] at hnone
    simp at hnone

/-- The run lemma. -/
theorem decodable_of_run {limits : PoolLimits} {blockSize : ℕ} (hbs : 0 < blockSize)
    (hword : blockSize < 2 ^ 64)
    (hrun : Relation.ReflTransGen (SmiStepWith fun s op => op.Allowed s)
      (InodeSmi.new limits blockSize) s) : Decodable s :=
  Program.run_preserves hrun ((fresh_new limits blockSize).decodable hbs hword)
    fun _ _ ht hstep => ht.step hstep

/-- As long as no directory is cut, every directory decodes without a read past its end, and
refuses to be written. -/
theorem directories_decode {limits : PoolLimits} {blockSize : ℕ} (hbs : 0 < blockSize)
    (hword : blockSize < 2 ^ 64)
    (hrun : Relation.ReflTransGen (SmiStepWith fun s op => op.Allowed s)
      (InodeSmi.new limits blockSize) s) :
    (∀ id node ver c, s.inodePool.find? id = some node → node.val.isDentry = true →
      node.val.toString s.bufferPool ver = .ok c → IsTable c ∧
        (c ≠ [] → stringToType 8 c = .ok (c.take 8) ∧
          ∀ j < LittleEndian.decode (c.take 8),
            stringToType flatPathPackSize (c.drop (8 + flatPathPackSize * j)) =
              .ok ((c.drop (8 + flatPathPackSize * j)).take flatPathPackSize))) ∧
      ∀ id node buffer offset resize, s.inodePool.find? id = some node →
        node.val.isDentry = true →
        (SmiOp.write id buffer offset resize).run s = .error (.htmpfs .invalidWriteInvoke) s := by
  have h : Decodable s := decodable_of_run hbs hword hrun
  refine ⟨fun id node ver c hnode hdir hc => ?_, fun id node buffer offset resize hnode hdir =>
    write_directory_eq hnode hdir⟩
  have htable : IsTable c := by
    rw [h.blocks.toString_eq hnode] at hc
    exact h.tables id _ ver c (view_node_eq_some.mpr ⟨node, hnode, rfl⟩) hdir
      (NodeView.toString_eq_ok.mp hc).1
  exact ⟨htable, htable.reads⟩

theorem run_sampleSmi : Relation.ReflTransGen (SmiStepWith fun s op => op.Allowed s)
    (InodeSmi.new .libstdcxx 512) sampleSmi :=
  Relation.ReflTransGen.single ⟨.makeChild 0 [97] false, ⟨trivial, trivial, trivial⟩,
    Program.leaves_exec (a := ()) (by decide +kernel)⟩

theorem directories_decode_sampleSmi :
    (SmiOp.write 0 [1] 0 true).run sampleSmi = .error (.htmpfs .invalidWriteInvoke) sampleSmi := by
  have hroot : (sampleSmi.inodePool.find? 0).map (fun node => node.val.isDentry) = some true := by
    decide +kernel
  obtain ⟨node, hnode, hdir⟩ := Option.map_eq_some_iff.mp hroot
  exact (directories_decode (by decide) (by decide) run_sampleSmi).2 0 node [1] 0 true hnode hdir

/-- The file system after its root was cut to 100 bytes. -/
def cutSmi : InodeSmi := Program.exec (SmiOp.truncate 0 100).run sampleSmi

/-- A directory is cut like a file. -/
theorem not_directories_decode : ¬ ∀ s, Relation.ReflTransGen
    (SmiStepWith fun _ op => op.Is64Bit) (InodeSmi.new .libstdcxx 512) s → ∀ id node ver c,
    s.inodePool.find? id = some node → node.val.isDentry = true →
    node.val.toString s.bufferPool ver = .ok c → IsTable c := by
  intro hall
  have hstart : Relation.ReflTransGen (SmiStepWith fun _ op => op.Is64Bit)
      (InodeSmi.new .libstdcxx 512) sampleSmi :=
    Relation.ReflTransGen.mono (fun _ _ ⟨op, hop, h⟩ => ⟨op, hop.sizes, h⟩) _ _ run_sampleSmi
  have hrun := hstart.tail ⟨.truncate 0 100, trivial,
    Program.leaves_exec (m := (SmiOp.truncate 0 100).run) (s := sampleSmi) (a := ())
      (by decide +kernel)⟩
  have hroot : (cutSmi.inodePool.find? 0).map (fun node => (node.val.isDentry,
      (node.val.toString cutSmi.bufferPool curModifiableVer).map List.length)) =
      some (true, .ok 100) := by decide +kernel
  obtain ⟨node, hnode, hbytes⟩ := Option.map_eq_some_iff.mp hroot
  obtain ⟨hdir, hlength⟩ := Prod.mk.inj hbytes
  cases hc : node.val.toString cutSmi.bufferPool curModifiableVer with
  | error e => simp [hc, Except.map] at hlength
  | ok c =>
      have hlen : c.length = 100 := by simpa [hc, Except.map] using hlength
      rcases hall cutSmi hrun 0 node _ c hnode hdir hc with rfl | ⟨k, hk, _⟩
      · simp at hlen
      · rw [hlen, flatPathPackSize] at hk
        omega

end Runs

/-! ## The round trip -/

section RoundTrip

variable {s : InodeSmi} {ptr : PoolPtr} {self : Inode} {t : List PathPack}

/-- A table that is saved in a directory and read back is the same table, exactly when every name
leaves room for its terminator and the size of one block for another. -/
theorem table_round_trip_iff (hself : InodeSmi.deref ptr s = .ok self)
    (hinode : InodeReachable ⟨s.bufferPool, self⟩) (hdir : self.isDentry = true)
    (hchars : ∀ p ∈ t, p.pathname.all InodeSmi.nameChar = true)
    (hids : ∀ p ∈ t, p.inodeId < 2 ^ 64) (ver : SnapshotVer) :
    Ends (DirectoryResolver.saveCurrent ⟨t, ptr, ver⟩) s
      (fun _ s' => DirectoryResolver.new ptr curModifiableVer s' = .ok ⟨t, ptr, curModifiableVer⟩ ↔
        (∀ p ∈ t, p.pathname.length ≤ 127) ∧ self.blockSize + 1 < 2 ^ 64)
      (fun e _ => e = .badAlloc) := by
  have horder := hinode.inOrder
  have hword := horder.ok.blockSize_lt
  obtain ⟨old, hold⟩ := horder.data_current
  have hderef : s.inodePool.deref? ptr = some self := by
    unfold InodeSmi.deref at hself
    cases hval : s.inodePool.deref? ptr with
    | none => simp [hval] at hself
    | some self' =>
        rw [hval] at hself
        rw [Program.pure_eq_ok.mp hself]
  obtain ⟨node, hnode, haddr, rfl⟩ := IdPool.deref?_eq_some.mp hderef
  have hwell : ∀ p ∈ t, p.WellFormed := fun p hp =>
    ⟨not_mem_zero_of_nameChar (hchars p hp), hids p hp⟩
  unfold DirectoryResolver.saveCurrent
  by_cases hlen : 2 ^ 64 ≤ (encodeTable t).length
  · simp only [if_pos hlen]
    exact Program.ends_throw.mpr rfl
  simp only [if_neg hlen, Program.ends_bind, Program.ends_pure]
  rw [ends_onInode hnode haddr]
  refine (horder.ok.ends_write horder.small (by omega) hold).mono ?_ ?_
  · rintro _ v' ⟨_, _, hv⟩
    have hdata : v'.self.data v'.bufferPool curModifiableVer = some (encodeTable t) := by
      rw [hv.data, if_pos rfl, hold, writeBytes_encodeTable]
      rfl
    have hstring : v'.self.toString v'.bufferPool curModifiableVer =
        if node.val.blockSize + 1 = 2 ^ 64 then .error (.htmpfs .bufferShortOps)
        else .ok (encodeTable t) := by
      rw [hv.ok.toString_eq, hdata, hv.frame.blockSize]
      simp only [ne_eq, encodeTable_ne_nil, not_false_eq_true, true_and]
    have hself' : InodeSmi.deref ptr (s.withInode ptr.id v') = .ok v'.self := by
      have hval : (s.withInode ptr.id v').inodePool.deref? ptr = some v'.self := by
        refine IdPool.deref?_eq_some.mpr ⟨{ node with val := v'.self }, ?_, haddr, rfl⟩
        rw [find?_withInode hnode, if_pos rfl]
      simp only [InodeSmi.deref, hval]
      rfl
    have hok' : v'.self.Ok (s.withInode ptr.id v').bufferPool := hv.ok
    have hpool : (s.withInode ptr.id v').bufferPool = v'.bufferPool := rfl
    unfold DirectoryResolver.new
    simp only [hself', bind, Except.bind, hv.frame.isDentry, hdir, if_true]
    rw [refresh_of_deref ⟨[], ptr, curModifiableVer⟩ hself' hok', hpool, hstring]
    by_cases hwrap : node.val.blockSize + 1 = 2 ^ 64
    · rw [if_pos hwrap]
      exact iff_of_false (by simp [bind, Except.bind]) fun hcond => hcond.2.ne hwrap
    rw [if_neg hwrap]
    simp only [bind, Except.bind, decodeTable_encodeTable hwell (by omega)]
    have hfits : (∀ p ∈ t, NameFits p.pathname) ↔ ∀ p ∈ t, p.pathname.length ≤ 127 :=
      forall₂_congr fun p _ => Nat.lt_succ_iff
    rw [← hfits]
    split_ifs with hall
    · exact iff_of_true rfl ⟨hall, lt_of_le_of_ne hword hwrap⟩
    · exact iff_of_false (by simp) fun hcond => hall hcond.1
  · rintro e v' (he | ⟨_, ⟨he, _⟩ | ⟨_, _, he, _⟩⟩)
    · exact he
    · simp [hdir] at he
    · simp at he

theorem deref_root :
    InodeSmi.deref ⟨0, 0⟩ (InodeSmi.new .libstdcxx 512) = .ok (Inode.new 512 0 true) := by
  have hroot : (InodeSmi.new .libstdcxx 512).inodePool.deref? ⟨0, 0⟩ =
      some (Inode.new 512 0 true) :=
    IdPool.deref?_eq_some.mpr ⟨_, find?_new 0, rfl, rfl⟩
  simp only [InodeSmi.deref, hroot]
  rfl

theorem table_round_trip_iff_root : DirectoryResolver.new ⟨0, 0⟩ curModifiableVer
      (Program.exec (DirectoryResolver.saveCurrent ⟨[⟨[97], 1⟩], ⟨0, 0⟩, curModifiableVer⟩)
        (InodeSmi.new .libstdcxx 512)) = .ok ⟨[⟨[97], 1⟩], ⟨0, 0⟩, curModifiableVer⟩ :=
  ((table_round_trip_iff deref_root (inodeReachable_new (by decide) (by decide)) rfl (by decide)
    (by decide) curModifiableVer).outcome_ok (a := ()) (by decide +kernel)).mpr (by decide)

/-- A table with a name of 128 bytes. -/
def longTable : List PathPack := [⟨List.replicate 128 97, 1⟩]

/-- A name of 128 bytes fills its field, and the copy out of the field runs on. -/
theorem not_table_round_trip : ¬ ∀ s ptr self t ver s', InodeSmi.deref ptr s = .ok self →
    InodeReachable ⟨s.bufferPool, self⟩ → self.isDentry = true →
    (t.map fun p : PathPack => p.pathname).Nodup →
    (∀ p ∈ t, p.pathname ≠ [] ∧ p.pathname.all InodeSmi.nameChar = true ∧ p.inodeId < 2 ^ 64) →
    DirectoryResolver.saveCurrent ⟨t, ptr, ver⟩ s = .ok () s' →
    DirectoryResolver.new ptr curModifiableVer s' = .ok ⟨t, ptr, curModifiableVer⟩ := by
  intro hall
  have hnodup : (longTable.map fun p : PathPack => p.pathname).Nodup := by simp [longTable]
  have hread := hall (InodeSmi.new .libstdcxx 512) ⟨0, 0⟩ (Inode.new 512 0 true) longTable
    curModifiableVer _ deref_root (inodeReachable_new (by decide) (by decide)) rfl hnodup
    (by decide +kernel) (Program.eq_ok_of_outcome (by decide +kernel))
  have hfails : (DirectoryResolver.new ⟨0, 0⟩ curModifiableVer
      (Program.exec (DirectoryResolver.saveCurrent ⟨longTable, ⟨0, 0⟩, curModifiableVer⟩)
        (InodeSmi.new .libstdcxx 512))).isOk = false := by decide +kernel
  rw [hread] at hfails
  simp [Except.isOk, Except.toBool] at hfails

end RoundTrip

end Htmpfs
