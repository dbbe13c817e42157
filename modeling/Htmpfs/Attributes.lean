import Mathlib
import Htmpfs.Listing
import Htmpfs.Snapshots
import Htmpfs.Library.Guarantee

/-!
# Attributes

`fs_stat` hangs on the inode, which all its versions share, and no member of
`inode_t` or `inode_smi_t` touches it.  What `do_getattr` reports of a snapshot
is therefore the size of the snapshot and, of the rest, what the callbacks have
made of the live inode.
-/

namespace Htmpfs

open Program (Ends Guarantees)

/-- The attributes of an inode that callbacks assign, but for `st_atim`. -/
inductive Attribute
  | mode
  | uid
  | gid
  | mtim
  | ctim

/-- The member of `struct stat`. -/
def Attribute.read : Attribute → Stat → ℕ ⊕ Timespec
  | mode, st => .inl st.stMode
  | uid, st => .inl st.stUid
  | gid, st => .inl st.stGid
  | mtim, st => .inr st.stMtim
  | ctim, st => .inr st.stCtim

/-- An inode has the attribute it had, as long as it is there. -/
def InodeSmi.KeepsAttribute (a : Attribute) (q : PoolPtr) (s s' : InodeSmi) : Prop :=
  s.inodePool.Keeps (fun self => a.read self.fsStat) q s'.inodePool

instance {a : Attribute} {q : PoolPtr} : IsPreorder InodeSmi (InodeSmi.KeepsAttribute a q) where
  refl s := refl_of (IdPool.Keeps _ q) s.inodePool
  trans _ _ _ h h' := trans_of (IdPool.Keeps _ q) h h'

/-- The attributes of the inode at hand are the same. -/
def InodeView.KeepsStat (v v' : InodeView) : Prop := v'.self.fsStat = v.self.fsStat

instance : IsPreorder InodeView InodeView.KeepsStat where
  refl _ := rfl
  trans _ _ _ h h' := h'.trans h

/-! ## Methods of an inode -/

namespace Inode

variable {α : Type}

theorem guarantees_onBank {m : BankM α} : Guarantees InodeView.KeepsStat (onBank m) := by
  apply Guarantees.zoom (S := fun _ _ => True)
  · exact fun _ => Program.ends_of_forall (fun _ _ => trivial) fun _ _ => trivial
  · exact fun _ _ _ _ _ => rfl

theorem guarantees_write {buffer : Bytes} {offset : ℕ} {resize dentryOnly : Bool} :
    Guarantees InodeView.KeepsStat (write buffer offset resize dentryOnly) := by
  apply Program.guarantees_get.bind
  intro v
  dsimp only
  split_ifs
  · exact Program.guarantees_throw
  · exact Program.guarantees_pure
  · exact guarantees_onBank

theorem guarantees_truncate {length : ℕ} : Guarantees InodeView.KeepsStat (truncate length) :=
  Program.guarantees_get.bind fun _ => guarantees_onBank

theorem guarantees_createNewVolume {ver : SnapshotVer} :
    Guarantees InodeView.KeepsStat (createNewVolume ver) := by
  apply Program.guarantees_get.bind
  intro v
  split_ifs
  · exact Program.guarantees_throw
  · exact guarantees_onBank.bind fun _ => Program.guarantees_modify fun _ => rfl

theorem guarantees_deleteVolume {ver : SnapshotVer} :
    Guarantees InodeView.KeepsStat (deleteVolume ver) := by
  apply Program.guarantees_get.bind
  intro v
  split_ifs
  · exact Program.guarantees_throw
  · cases v.self.bufferMap[ver]? with
    | none => exact Program.guarantees_throw
    | some list =>
        apply Guarantees.bind
        · apply Guarantees.zoom (S := fun _ _ => True)
          · exact fun _ => Program.ends_of_forall (fun _ _ => trivial) fun _ _ => trivial
          · exact fun _ _ _ _ _ => rfl
        · exact fun _ => Program.guarantees_modify fun _ => rfl

end Inode

/-! ## Operations of the file system -/

namespace InodeSmi

variable {α : Type} {a : Attribute} {q : PoolPtr}

theorem guarantees_onInodePool {m : EStateM Exit (IdPool Inode) α}
    (hm : Guarantees (IdPool.Keeps (fun self => a.read self.fsStat) q) m) :
    Guarantees (KeepsAttribute a q) (onInodePool m) := by
  apply hm.zoom
  intro s pool pool' hpool h
  obtain rfl := Option.some.inj hpool
  exact h

theorem guarantees_onInode {ptr : PoolPtr} {m : InodeM α}
    (hm : Guarantees InodeView.KeepsStat m) :
    Guarantees (KeepsAttribute a q) (onInode ptr m) := by
  apply hm.zoom
  intro s v v' hv h
  obtain ⟨self, hself, rfl⟩ := Option.map_eq_some_iff.mp hv
  exact IdPool.keeps_setVal hself fun _ => congrArg a.read h

theorem guarantees_emplace {id : ℕ} {val : Inode} :
    Guarantees (KeepsAttribute a q) (onInodePool (emplace id val)) := by
  apply guarantees_onInodePool
  apply Guarantees.get_bind
  intro pool
  split_ifs
  · exact Program.ends_throw.mpr (refl_of _ pool)
  · exact Program.ends_set.mpr (IdPool.keeps_emplace val)

theorem guarantees_dropLink {id : ℕ} {node : PoolNode Inode} :
    Guarantees (KeepsAttribute a q) (onInodePool (dropLink id node)) := by
  apply guarantees_onInodePool
  apply Program.guarantees_modify
  intro pool
  split_ifs
  · exact IdPool.keeps_erase
  · exact IdPool.keeps_setLinkCount

theorem guarantees_linkInode {id : ℕ} : Guarantees (KeepsAttribute a q) (linkInode id) := by
  apply guarantees_onInodePool
  apply Guarantees.get_bind
  intro pool
  cases pool.find? id with
  | none => exact Program.ends_throw.mpr (refl_of _ pool)
  | some node => exact Program.ends_set.mpr IdPool.keeps_setLinkCount

theorem guarantees_unlinkInode {id : ℕ} : Guarantees (KeepsAttribute a q) (unlinkInode id) := by
  apply guarantees_onInodePool
  apply Guarantees.get_bind
  intro pool
  cases pool.find? id with
  | none => exact Program.ends_throw.mpr (refl_of _ pool)
  | some node =>
      apply Program.ends_modify.mpr
      split_ifs
      · exact IdPool.keeps_erase
      · exact IdPool.keeps_setLinkCount

theorem guarantees_saveCurrent {r : DirectoryResolver} :
    Guarantees (KeepsAttribute a q) r.saveCurrent := by
  unfold DirectoryResolver.saveCurrent
  dsimp only
  split_ifs
  · exact Program.guarantees_throw
  · exact (guarantees_onInode Inode.guarantees_write).bind fun _ => Program.guarantees_pure

theorem guarantees_setCurrentList {list : List InodeResult} :
    Guarantees (KeepsAttribute a q) (setCurrentList list) :=
  Program.guarantees_modify fun s => refl_of (KeepsAttribute a q) s

theorem guarantees_makeChild {parent : ℕ} {name : Bytes} {isDir : Bool} :
    Guarantees (KeepsAttribute a q) (makeChildDentryUnderParent parent name isDir) := by
  unfold makeChildDentryUnderParent
  split_ifs
  swap
  · exact Program.guarantees_throw
  apply Program.guarantees_reads.bind
  intro parentInode
  apply Program.guarantees_reads.bind
  intro resolver
  split_ifs
  swap
  · exact Program.guarantees_throw
  apply (guarantees_onInodePool Program.guarantees_reads).bind
  intro newInodeId
  apply Program.guarantees_get.bind
  intro s
  apply guarantees_emplace.bind
  intro _
  apply Program.guarantees_reads.bind
  intro resolver'
  apply guarantees_saveCurrent.bind
  intro _
  apply Program.guarantees_reads.bind
  intro node
  apply Program.guarantees_reads.bind
  intro list
  exact guarantees_setCurrentList.bind fun _ => Program.guarantees_pure

theorem guarantees_checkTargetEmpty {ptr : PoolPtr} :
    Guarantees (KeepsAttribute a q) (checkTargetEmpty ptr) := by
  apply Guarantees.tryCatch
  · apply Program.guarantees_reads.bind
    intro resolver
    split_ifs
    · exact Program.guarantees_throw
    · exact Program.guarantees_pure
  · intro error
    split_ifs
    · exact Program.guarantees_pure
    · exact Program.guarantees_throw

theorem guarantees_removeChild {parent : ℕ} {name : Bytes} :
    Guarantees (KeepsAttribute a q) (removeChildDentryUnderParent parent name) := by
  apply Program.guarantees_reads.bind
  intro parentInode
  apply Program.guarantees_reads.bind
  intro resolver
  apply Program.guarantees_reads.bind
  intro targetId
  apply Program.guarantees_reads.bind
  intro target
  apply guarantees_checkTargetEmpty.bind
  intro _
  apply Program.guarantees_reads.bind
  intro resolver'
  apply guarantees_saveCurrent.bind
  intro _
  apply Program.guarantees_reads.bind
  intro list
  apply guarantees_setCurrentList.bind
  intro _
  exact Program.guarantees_reads.bind fun _ => guarantees_dropLink

theorem guarantees_createSnapshot {ver : SnapshotVer} :
    Guarantees (KeepsAttribute a q) (createSnapshotVolume ver) := by
  apply Program.guarantees_get.bind
  intro s
  split_ifs
  · exact Program.guarantees_throw
  · apply Program.guarantees_reads.bind
    intro list
    apply Guarantees.bind
    · apply Guarantees.each
      intro i
      exact guarantees_linkInode.bind fun _ =>
        guarantees_onInode Inode.guarantees_createNewVolume
    · exact fun _ => Program.guarantees_modify fun s => refl_of (KeepsAttribute a q) s

theorem guarantees_deleteSnapshot {ver : SnapshotVer} :
    Guarantees (KeepsAttribute a q) (deleteSnapshotVolume ver) := by
  apply Program.guarantees_get.bind
  intro s
  cases s.snapshotVersionList[ver]? with
  | none => exact Program.guarantees_throw
  | some list =>
      apply Guarantees.bind
      · apply Guarantees.each
        intro i
        exact (guarantees_onInode Inode.guarantees_deleteVolume).bind fun _ =>
          guarantees_unlinkInode
      · exact fun _ => Program.guarantees_modify fun s => refl_of (KeepsAttribute a q) s

theorem guarantees_removeInodeByPath {path : Bytes} :
    Guarantees (KeepsAttribute a q) (removeInodeByPath path) := by
  unfold removeInodeByPath
  split_ifs
  · exact Program.guarantees_throw
  · dsimp only
    generalize u64Sub (PathT.ofString path).size 2 = count
    apply Program.guarantees_get.bind
    intro s
    apply Program.guarantees_reads.bind
    intro name
    apply Program.guarantees_reads.bind
    intro ptr
    exact Program.guarantees_reads.bind fun _ => guarantees_removeChild

end InodeSmi

/-! ## Callbacks -/

/-- The callback assigns the attribute to the inode of the path. -/
def FuseCall.Sets : FuseCall → Attribute → CString → Prop
  | chmod path _, a, p => p = path ∧ (a = .mode ∨ a = .ctim)
  | chown path _ _, a, p => p = path ∧ (a = .uid ∨ a = .gid ∨ a = .ctim)
  | write path _ _, a, p => p = path ∧ a = .mtim
  | utimens path _ _, a, p => p = path ∧ a = .mtim
  | fallocate path _ _ _, a, p => p = path ∧ (a = .mode ∨ a = .ctim)
  | _, _, _ => False

/-- The callback assigns the attribute to this inode, under a path of the current version. -/
def View.SetsAt (w : View) (call : FuseCall) (a : Attribute) (id : ℕ) : Prop :=
  ∃ path out, call.Sets a path ∧ ifSnapshot path.1 = .ok (curModifiableVer, out) ∧
    w.resolve path.1 = .ok id

namespace Fuse

open InodeSmi

variable {α : Type} {ctx : FuseContext} {a : Attribute} {q : PoolPtr} {s : InodeSmi} {path : Bytes}

theorem guarantees_setStat {ptr : PoolPtr} {f : Stat → Stat}
    (hf : q = ptr → ∀ st, a.read (f st) = a.read st) :
    Guarantees (KeepsAttribute a q) (setStat ptr f) := by
  unfold setStat onInode
  apply Guarantees.zoom (S := fun v v' : InodeView => v'.self.fsStat = f v.self.fsStat)
  · exact Program.guarantees_modify fun _ => rfl
  · intro s v v' hv h
    obtain ⟨self, hself, rfl⟩ := Option.map_eq_some_iff.mp hv
    exact IdPool.keeps_setVal hself fun hq => (congrArg a.read h).trans (hf hq _)

theorem ends_catchTail_same {body : SmiM ℤ} {P : InodeSmi → Prop}
    (h : Ends body s (fun _ s' => P s') (fun _ s' => P s')) :
    Ends (catchTail ctx body) s (fun _ s' => P s') (fun _ s' => P s') :=
  (ends_catchTail h fun _ _ he _ => he).mono (fun _ _ hr => hr) fun _ _ he => he.2

theorem guarantees_catchTail {body : SmiM ℤ} (h : Guarantees (KeepsAttribute a q) body) :
    Guarantees (KeepsAttribute a q) (catchTail ctx body) :=
  fun s => ends_catchTail_same (h s)

theorem ends_checkRdonlyFs_same {rest : SmiM ℤ} {P : InodeSmi → Prop} (hs : P s)
    (hrest : ∀ out, ifSnapshot path = .ok (curModifiableVer, out) →
      Ends rest s (fun _ s' => P s') (fun _ s' => P s')) :
    Ends (checkRdonlyFs path rest) s (fun _ s' => P s') (fun _ s' => P s') := by
  apply Program.ends_bind.mpr
  apply Program.ends_reads.mpr
  constructor
  · rintro ⟨version, out⟩ hpath
    dsimp only
    split_ifs with hcur
    · exact hs
    · rw [not_not] at hcur
      exact hrest out (hcur ▸ hpath)
  · exact fun _ _ => hs

theorem guarantees_checkRdonlyFs {rest : SmiM ℤ} (hrest : Guarantees (KeepsAttribute a q) rest) :
    Guarantees (KeepsAttribute a q) (checkRdonlyFs path rest) :=
  fun s => ends_checkRdonlyFs_same (refl_of _ s) fun _ _ => hrest s

theorem guarantees_inodeByPath : Guarantees (KeepsAttribute a q) (inodeByPath path) :=
  Program.guarantees_reads.bind fun _ => Program.guarantees_reads

/-- A callback that looks up an inode of the current version. -/
theorem ends_onPath (h : BlocksOk s) {body : PoolPtr → SmiM ℤ}
    (hbody : ∀ out id addr, ifSnapshot path = .ok (curModifiableVer, out) →
      s.view.resolve path = .ok id → Guarantees (KeepsAttribute a q) (body ⟨id, addr⟩)) :
    Ends (catchTail ctx (checkRdonlyFs path (inodeByPath path >>= body))) s
      (fun _ s' => KeepsAttribute a q s s') (fun _ s' => KeepsAttribute a q s s') := by
  apply ends_catchTail_same
  apply ends_checkRdonlyFs_same (refl_of _ s)
  intro out hlive
  apply Program.ends_bind.mpr
  apply ends_inodeByPath h
  · exact fun id n hid _ => hbody out id n.addr hlive hid s
  · exact fun _ => refl_of _ s

/-- A new inode has no attributes that another one had. -/
theorem ends_newChild_keeps (h : BlocksOk s) {list : List InodeResult}
    (hlist : s.view.listing curModifiableVer = some list) (hq : q.addr < s.inodePool.nextAddr)
    {parent : ℕ} {name : Bytes} {isDir : Bool} {f : Stat → Stat} {rest : PoolPtr → SmiM α}
    (hrest : ∀ ptr, Guarantees (KeepsAttribute a q) (rest ptr)) :
    Ends (do
      let id ← makeChildDentryUnderParent parent name isDir
      let inode ← Program.reads (getInodeById id)
      setStat inode f
      rest inode) s (fun _ s' => KeepsAttribute a q s s') (fun _ s' => KeepsAttribute a q s s') := by
  apply Program.ends_bind.mpr
  refine ((h.ends_makeChild hlist).and (guarantees_makeChild s)).mono ?_ fun _ _ he => he.2
  rintro id s₁ ⟨⟨_, hmake, _⟩, hkeeps⟩
  apply Program.ends_bind.mpr
  apply Program.ends_reads.mpr
  constructor
  · intro ptr hptr
    rw [getInodeById_eq, hmake.node_self] at hptr
    have haddr : ptr.addr = s.inodePool.nextAddr := congrArg PoolPtr.addr (Except.ok.inj hptr).symm
    have hset : Guarantees (KeepsAttribute a q) (setStat ptr f) := by
      apply guarantees_setStat
      rintro rfl
      exact absurd haddr hq.ne
    exact (hset.bind fun _ => hrest ptr).from hkeeps
  · exact fun _ _ => hkeeps

theorem guarantees_relink {parent id : ℕ} {resolver : DirectoryResolver} {name : Bytes} :
    Guarantees (KeepsAttribute a q) (relink parent resolver name id) := by
  apply Guarantees.tryCatch
  · exact Program.guarantees_reads.bind fun _ => guarantees_saveCurrent
  · intro error
    split_ifs
    · apply guarantees_removeChild.bind
      intro _
      apply Program.guarantees_reads.bind
      intro resolver'
      exact Program.guarantees_reads.bind fun _ => guarantees_saveCurrent
    · exact Program.guarantees_throw

theorem guarantees_unlinkOriginal {original : PathT} {name : Bytes} :
    Guarantees (KeepsAttribute a q) (unlinkOriginal original name) := by
  apply guarantees_inodeByPath.bind
  intro parentInode
  apply Program.guarantees_reads.bind
  intro resolver
  exact Program.guarantees_reads.bind fun _ => guarantees_saveCurrent

theorem guarantees_doRename {path name : CString} :
    Guarantees (KeepsAttribute a q) (doRename ctx path name) := by
  apply guarantees_catchTail
  apply guarantees_checkRdonlyFs
  apply guarantees_checkRdonlyFs
  apply Program.guarantees_reads.bind
  intro id
  apply Program.guarantees_reads.bind
  rintro ⟨originalName, original⟩
  dsimp only
  split_ifs
  · exact Program.guarantees_throw
  apply Program.guarantees_reads.bind
  rintro ⟨targetName, target⟩
  dsimp only
  split_ifs
  · exact Program.guarantees_throw
  apply Program.guarantees_reads.bind
  intro parentId
  apply Program.guarantees_reads.bind
  intro parentInode
  apply Program.guarantees_reads.bind
  intro resolver
  apply guarantees_relink.bind
  intro _
  exact guarantees_unlinkOriginal.bind fun _ => Program.guarantees_pure

theorem guarantees_doUnlink {path : CString} :
    Guarantees (KeepsAttribute a q) (doUnlink ctx path) := by
  apply guarantees_catchTail
  apply guarantees_checkRdonlyFs
  exact guarantees_removeInodeByPath.bind fun _ => Program.guarantees_pure

theorem guarantees_doRmdir {path : CString} :
    Guarantees (KeepsAttribute a q) (doRmdir ctx path) := by
  apply guarantees_catchTail
  apply Program.guarantees_reads.bind
  rintro ⟨targetName, vpath⟩
  dsimp only
  split_ifs
  · exact Program.guarantees_throw
  · exact Program.guarantees_pure
  · exact guarantees_deleteSnapshot.bind fun _ => Program.guarantees_pure
  · apply guarantees_checkRdonlyFs
    exact guarantees_removeInodeByPath.bind fun _ => Program.guarantees_pure

theorem guarantees_doRead {path : CString} {size : ℕ} {offset : ℤ} :
    Guarantees (KeepsAttribute a q) (doRead ctx path size offset) := by
  apply guarantees_catchTail
  apply Program.guarantees_reads.bind
  rintro ⟨version, out⟩
  apply guarantees_inodeByPath.bind
  intro inode
  apply Guarantees.bind
  · apply guarantees_setStat
    intro _ st
    cases a <;> rfl
  · exact fun _ => Program.guarantees_reads.bind fun _ => Program.guarantees_pure

section Makers

variable {list : List InodeResult} {path : CString} {mode : ℕ}

theorem ends_doMkdir_keeps (h : BlocksOk s) (hlist : s.view.listing curModifiableVer = some list)
    (hq : q.addr < s.inodePool.nextAddr) :
    Ends (doMkdir ctx path mode) s (fun _ s' => KeepsAttribute a q s s')
      (fun _ s' => KeepsAttribute a q s s') := by
  apply ends_catchTail_same
  apply Program.ends_bind.mpr
  apply Program.ends_reads.mpr
  refine ⟨?_, fun _ _ => refl_of _ s⟩
  rintro ⟨targetName, vpath⟩ _
  dsimp only
  split_ifs
  · exact refl_of (KeepsAttribute a q) s
  · exact (guarantees_createSnapshot.bind fun _ => Program.guarantees_pure) s
  · apply ends_checkRdonlyFs_same (refl_of _ s)
    intro out _
    apply Program.ends_bind.mpr
    apply Program.ends_reads.mpr
    refine ⟨fun parent _ => ?_, fun _ _ => refl_of _ s⟩
    exact ends_newChild_keeps h hlist hq fun _ => Program.guarantees_pure

/-- The callbacks that make a file under the last name of a path. -/
theorem ends_makeFile_keeps (h : BlocksOk s) (hlist : s.view.listing curModifiableVer = some list)
    (hq : q.addr < s.inodePool.nextAddr) {vpath : PathT} {name : Bytes} {f : Stat → Stat}
    {rest : PoolPtr → SmiM α} (hrest : ∀ ptr, Guarantees (KeepsAttribute a q) (rest ptr)) :
    Ends (do
      let inodeId ← Program.reads (getInodeIdByPath vpath.toString)
      let newInodeId ← makeChildDentryUnderParent inodeId name false
      let newInode ← Program.reads (getInodeById newInodeId)
      setStat newInode f
      rest newInode) s (fun _ s' => KeepsAttribute a q s s')
      (fun _ s' => KeepsAttribute a q s s') := by
  apply Program.ends_bind.mpr
  apply Program.ends_reads.mpr
  refine ⟨fun parent _ => ?_, fun _ _ => refl_of _ s⟩
  exact ends_newChild_keeps h hlist hq hrest

theorem ends_doCreate_keeps (h : BlocksOk s) (hlist : s.view.listing curModifiableVer = some list)
    (hq : q.addr < s.inodePool.nextAddr) :
    Ends (doCreate ctx path mode) s (fun _ s' => KeepsAttribute a q s s')
      (fun _ s' => KeepsAttribute a q s s') := by
  apply ends_catchTail_same
  apply ends_checkRdonlyFs_same (refl_of _ s)
  intro out _
  apply Program.ends_bind.mpr
  apply Program.ends_reads.mpr
  refine ⟨?_, fun _ _ => refl_of _ s⟩
  rintro ⟨targetName, vpath⟩ _
  dsimp only
  split_ifs
  · exact refl_of (KeepsAttribute a q) s
  · exact ends_makeFile_keeps h hlist hq fun _ => Program.guarantees_pure

theorem ends_doMknod_keeps (h : BlocksOk s) (hlist : s.view.listing curModifiableVer = some list)
    (hq : q.addr < s.inodePool.nextAddr) {device : ℕ} :
    Ends (doMknod ctx path mode device) s (fun _ s' => KeepsAttribute a q s s')
      (fun _ s' => KeepsAttribute a q s s') := by
  apply ends_catchTail_same
  apply ends_checkRdonlyFs_same (refl_of _ s)
  intro out _
  apply Program.ends_bind.mpr
  apply Program.ends_reads.mpr
  refine ⟨?_, fun _ _ => refl_of _ s⟩
  rintro ⟨targetName, vpath⟩ _
  dsimp only
  split_ifs
  · exact refl_of (KeepsAttribute a q) s
  · exact ends_makeFile_keeps h hlist hq fun _ => Program.guarantees_pure

theorem ends_doSymlink_keeps (h : BlocksOk s) (hlist : s.view.listing curModifiableVer = some list)
    (hq : q.addr < s.inodePool.nextAddr) {target : CString} :
    Ends (doSymlink ctx path target) s (fun _ s' => KeepsAttribute a q s s')
      (fun _ s' => KeepsAttribute a q s s') := by
  apply ends_catchTail_same
  apply ends_checkRdonlyFs_same (refl_of _ s)
  intro out _
  apply ends_checkRdonlyFs_same (refl_of _ s)
  intro out' _
  apply Program.ends_bind.mpr
  apply Program.ends_reads.mpr
  refine ⟨?_, fun _ _ => refl_of _ s⟩
  rintro ⟨targetName, vpath⟩ _
  dsimp only
  split_ifs
  · exact refl_of (KeepsAttribute a q) s
  · apply ends_makeFile_keeps h hlist hq
    intro ptr
    exact (guarantees_onInode Inode.guarantees_write).bind fun _ => Program.guarantees_pure

theorem ends_doTruncate_keeps (h : BlocksOk s)
    (hlist : s.view.listing curModifiableVer = some list) (hq : q.addr < s.inodePool.nextAddr)
    {size : ℤ} :
    Ends (doTruncate ctx path size) s (fun _ s' => KeepsAttribute a q s s')
      (fun _ s' => KeepsAttribute a q s s') := by
  have htarget : Ends (truncateTarget ctx path size) s (fun _ s' => KeepsAttribute a q s s')
      (fun _ s' => KeepsAttribute a q s s') := by
    apply Program.ends_tryCatch.mpr
    apply Program.ends_bind.mpr
    apply ends_inodeByPath h
    · exact fun id n _ _ => refl_of (KeepsAttribute a q) s
    · intro e
      cases e with
      | htmpfs code =>
          dsimp only
          split_ifs
          swap
          · exact refl_of (KeepsAttribute a q) s
          apply Program.ends_bind.mpr
          apply Program.ends_reads.mpr
          refine ⟨?_, fun _ _ => refl_of _ s⟩
          rintro ⟨targetName, vpath⟩ _
          dsimp only
          split_ifs
          · exact refl_of (KeepsAttribute a q) s
          · exact ends_makeFile_keeps h hlist hq fun _ => Program.guarantees_pure
      | outOfRange => exact refl_of (KeepsAttribute a q) s
      | badAlloc => exact refl_of (KeepsAttribute a q) s
      | undefined => exact refl_of (KeepsAttribute a q) s
      | diverges => exact refl_of (KeepsAttribute a q) s
  apply ends_catchTail_same
  apply ends_checkRdonlyFs_same (refl_of _ s)
  intro out _
  apply Program.ends_bind.mpr
  refine htarget.mono (fun found s' hkeeps => ?_) fun _ _ he => he
  cases found with
  | none => exact hkeeps
  | some inode =>
      have hresize : Guarantees (KeepsAttribute a q)
          (onInode inode (Inode.truncate (offToU64 size))) :=
        guarantees_onInode Inode.guarantees_truncate
      exact (hresize.bind fun _ => Program.guarantees_pure).from hkeeps

end Makers

/-- A callback keeps the attribute of an inode unless it assigns it there. -/
theorem ends_run_keeps {call : FuseCall} (h : BlocksOk s)
    (hlist : ∃ list, s.view.listing curModifiableVer = some list)
    (hq : q.addr < s.inodePool.nextAddr) (hsets : ¬ s.view.SetsAt call a q.id) :
    Ends (call.run ctx) s (fun _ s' => KeepsAttribute a q s s')
      (fun _ s' => KeepsAttribute a q s s') := by
  obtain ⟨list, hlist⟩ := hlist
  -- the callbacks that assign to what they look up
  have hkept : ∀ (path : CString) (f : Stat → Stat),
      (¬ call.Sets a path → ∀ st, a.read (f st) = a.read st) → ∀ out id addr,
      ifSnapshot path.1 = .ok (curModifiableVer, out) → s.view.resolve path.1 = .ok id →
      Guarantees (KeepsAttribute a q) (setStat ⟨id, addr⟩ f) := by
    intro path f hf out id addr hlive hid
    apply guarantees_setStat
    rintro rfl
    exact hf fun hcall => hsets ⟨path, out, hcall, hlive, hid⟩
  cases call with
  | mkdir path mode => exact ends_doMkdir_keeps h hlist hq
  | chmod path mode =>
      apply ends_onPath h
      intro out id addr hlive hid
      apply (hkept path _ ?_ out id addr hlive hid).bind fun _ => Program.guarantees_pure
      intro hnot st
      cases a <;> simp_all [FuseCall.Sets, Attribute.read]
  | chown path uid gid =>
      apply ends_onPath h
      intro out id addr hlive hid
      apply (hkept path _ ?_ out id addr hlive hid).bind fun _ => Program.guarantees_pure
      intro hnot st
      cases a <;> simp_all [FuseCall.Sets, Attribute.read]
  | create path mode => exact ends_doCreate_keeps h hlist hq
  | read path size offset => exact guarantees_doRead s
  | write path buffer offset =>
      apply ends_onPath h
      intro out id addr hlive hid
      apply Program.guarantees_reads.bind
      intro size
      apply (hkept path _ ?_ out id addr hlive hid).bind
      · intro _
        exact (guarantees_onInode Inode.guarantees_write).bind fun _ => Program.guarantees_pure
      · intro hnot st
        cases a <;> simp_all [FuseCall.Sets, Attribute.read]
  | utimens path atim mtim =>
      apply ends_onPath h
      intro out id addr hlive hid
      apply (hkept path _ ?_ out id addr hlive hid).bind fun _ => Program.guarantees_pure
      intro hnot st
      cases a <;> simp_all [FuseCall.Sets, Attribute.read]
  | unlink path => exact guarantees_doUnlink s
  | rmdir path => exact guarantees_doRmdir s
  | truncate path size => exact ends_doTruncate_keeps h hlist hq
  | symlink path target => exact ends_doSymlink_keeps h hlist hq
  | rename path name => exact guarantees_doRename s
  | fallocate path mode offset length =>
      apply ends_onPath h
      intro out id addr hlive hid
      apply (hkept path _ ?_ out id addr hlive hid).bind
      · intro _
        exact (guarantees_onInode Inode.guarantees_truncate).bind fun _ =>
          Program.guarantees_pure
      · intro hnot st
        cases a <;> simp_all [FuseCall.Sets, Attribute.read]
  | mknod path mode device => exact ends_doMknod_keeps h hlist hq

end Fuse

/-! ## Snapshots under the callbacks -/

section Snapshots

variable {w w' : View} {call : FuseCall} {ver : SnapshotVer} {s s' : InodeSmi} {cs : List Bytes}

/-- The one callback that deletes a version. -/
def FuseCall.DeletesVersion (call : FuseCall) (ver : SnapshotVer) : Prop :=
  ∃ path, call = .rmdir path ∧ comps path.1 = [snapshotEntry, ver]

theorem View.AddsEntry.keepsVersion {parent id : ℕ} {name : Bytes}
    (hadd : w.AddsEntry parent name id w') (hver : ver ≠ curModifiableVer) :
    w.KeepsVersion ver w' := by
  obtain ⟨f, rfl⟩ := hadd.view_eq
  exact View.keepsVersion_setCurrent hver

/-- Every callback but its deletion leaves a snapshot alone. -/
theorem View.Effect.keepsVersion (hstep : w.Effect call w') (h : Named w)
    (hver : ver ≠ curModifiableVer) (hlisted : (w.listing ver).isSome)
    (hcall : ¬ call.DeletesVersion ver) : w.KeepsVersion ver w' := by
  cases hstep with
  | none => exact View.KeepsVersion.refl
  | makes _ hstep => exact hstep.keepsVersion hver
  | makesFile f _ hstep =>
      exact (hstep.keepsVersion hver).trans (View.keepsVersion_setCurrent hver)
  | removes hstep =>
      obtain ⟨parent, name, hremove, _⟩ := hstep.removes h.links
      exact hremove.keepsVersion h hver
  | @creates path mode u _ _ _ hstep =>
      apply hstep.keepsVersion h
      rintro rfl
      rw [hstep.listing_eq_none] at hlisted
      simp at hlisted
  | @deletes path u _ hrmdir hpath hstep =>
      apply hstep.keepsVersion h
      rintro rfl
      exact hcall ⟨path, hrmdir, hpath⟩
  | rewrites f _ _ _ => exact View.keepsVersion_setCurrent hver
  | @renames path name _ _ hstep => exact hstep.keepsVersion h name.2.1 hver
  | spoils _ hstep =>
      obtain ⟨_, _, _, targetName, parent, hargs, hrelink⟩ := hstep.source_root h.links h.names
      rcases hrelink with hadd | ⟨w₀, hremove, hadd⟩
      · exact hadd.keepsVersion hver
      · exact (hremove.keepsVersion h hver).trans (hadd.keepsVersion hver)

theorem View.Mirrors.resolveComps_eq {rest : List Bytes} (hkept : w.KeepsVersion ver w')
    (h : Named w) (hlisted : (w.listing ver).isSome) (hcs : liveComps cs = .ok (ver, rest)) :
    w'.resolveComps cs = w.resolveComps cs := by
  unfold View.resolveComps
  simp only [hcs, bind, Except.bind]
  rw [hkept.listing, hkept.walk_eq h (h.listsId_root hlisted)]

/-- The call cuts no directory, does not delete the version, and assigns none of the attributes
to the inode. -/
structure KeepsMetadata (ver : SnapshotVer) (id : ℕ) (attributes : Set Attribute) (w : View)
    (call : FuseCall) : Prop where
  cuts : ¬ w.CutsDirectory call
  deletes : ¬ call.DeletesVersion ver
  sets : ∀ a ∈ attributes, ¬ w.SetsAt call a id

/-- What a run leaves alone of a version and of one of its inodes. -/
structure MetadataKept (ver : SnapshotVer) (q : PoolPtr) (attributes : Set Attribute)
    (s s' : InodeSmi) : Prop where
  version : s.view.KeepsVersion ver s'.view
  stat : ∀ a ∈ attributes, s.KeepsAttribute a q s'

theorem MetadataKept.refl {q : PoolPtr} {attributes : Set Attribute} :
    MetadataKept ver q attributes s s where
  version := View.KeepsVersion.refl
  stat := fun a _ => refl_of (InodeSmi.KeepsAttribute a q) s

theorem MetadataKept.trans {s'' : InodeSmi} {q : PoolPtr} {attributes : Set Attribute}
    (h : MetadataKept ver q attributes s s') (h' : MetadataKept ver q attributes s' s'') :
    MetadataKept ver q attributes s s'' where
  version := h.version.trans h'.version
  stat := fun a ha =>
    trans_of (InodeSmi.KeepsAttribute a q) (h.stat a ha) (h'.stat a ha)

theorem View.Lists.isSome {e : InodeResult} (hl : w.Lists ver e) : (w.listing ver).isSome := by
  obtain ⟨list, hlist, _⟩ := hl
  rw [hlist]
  rfl

theorem FuseStep.metadataKept {q : PoolPtr} {attributes : Set Attribute}
    (hstep : FuseStep (KeepsMetadata ver q.id attributes) s s') (h : BlocksOk s ∧ Named s.view)
    (hver : ver ≠ curModifiableVer) (hl : s.view.Lists ver ⟨q.id, q⟩) :
    (BlocksOk s' ∧ Named s'.view) ∧ MetadataKept ver q attributes s s' := by
  obtain ⟨ctx, call, r, hvalid, hmet, hrun⟩ := hstep
  obtain ⟨h, hs⟩ := h
  obtain ⟨h', heffect⟩ := (FuseCall.ends_run h hs.links.weaken hvalid).of_ok hrun
  refine ⟨⟨h', hs.effect heffect hmet.cuts⟩, ?_⟩
  constructor
  · exact heffect.keepsVersion hs hver hl.isSome hmet.deletes
  · intro a ha
    have hq : q.addr < s.inodePool.nextAddr := (hs.links.entry ver _ hl).2
    have hends : Ends (call.run ctx) s (fun _ s' => InodeSmi.KeepsAttribute a q s s')
        (fun _ s' => InodeSmi.KeepsAttribute a q s s') :=
      Fuse.ends_run_keeps h hs.links.exists_current hq (hmet.sets a ha)
    exact hends.of_ok hrun

theorem metadataKept_of_run {q : PoolPtr} {attributes : Set Attribute}
    (hrun : Relation.ReflTransGen (FuseStep (KeepsMetadata ver q.id attributes)) s s')
    (h : BlocksOk s ∧ Named s.view) (hver : ver ≠ curModifiableVer)
    (hl : s.view.Lists ver ⟨q.id, q⟩) :
    (BlocksOk s' ∧ Named s'.view) ∧ MetadataKept ver q attributes s s' := by
  apply Program.run_relates hrun h MetadataKept.refl
  intro t t' ht hkept hstep
  obtain ⟨ht', hkept'⟩ := hstep.metadataKept ht hver ((hkept.version.lists_iff _).mpr hl)
  exact ⟨ht', hkept.trans hkept'⟩

/-- What `do_getattr` reports of an inode of a snapshot. -/
theorem Fuse.doGetattr_listed {path : CString} {out : Bytes} {id : ℕ} (h : BlocksOk s)
    (hpath : ifSnapshot path.1 = .ok (ver, out))
    (hid : s.view.resolve path.1 = .ok id) {n : NodeView} (hn : s.view.node id = some n) {c : Bytes}
    (hc : n.data ver = some c) : ∃ self st, s.inodePool.deref? ⟨id, n.addr⟩ = some self ∧
      (∀ ctx stbuf, Fuse.doGetattr ctx path s stbuf = .ok 0 st) ∧
      st.stSize = (c.length : ℤ).bmod (2 ^ 64) ∧ ∀ a : Attribute, a.read st = a.read self.fsStat := by
  obtain ⟨node, hnode, rfl⟩ := view_node_eq_some.mp hn
  have hne : path.1 ≠ Fuse.snapshotDir := by
    intro heq
    rw [heq, show ifSnapshot Fuse.snapshotDir = .error (.htmpfs .invalidDentryName) from rfl]
      at hpath
    simp at hpath
  refine ⟨node.val, _, IdPool.deref?_of_find? hnode, fun ctx stbuf =>
    Fuse.doGetattr_eq h hne hpath hid hnode hc, by dsimp only, fun a => ?_⟩
  cases a <;> rfl

/-- What `do_getattr` reports of a snapshot: the size is frozen with it, and the other attributes
are those of the inode, which a call made on the live file may assign. -/
theorem snapshot_attributes_shared {path : CString} {out : Bytes} {id : ℕ}
    {attributes : Set Attribute}
    (h : FuseReachableWith (fun w call => ¬ w.CutsDirectory call) s)
    (hpath : ifSnapshot path.1 = .ok (ver, out)) (hver : ver ≠ curModifiableVer)
    (hid : InodeSmi.getInodeIdByPath path.1 s = .ok id)
    (hrun : Relation.ReflTransGen (FuseStep (KeepsMetadata ver id attributes)) s s') :
    ∃ st st' : Stat, (∀ ctx stbuf, Fuse.doGetattr ctx path s stbuf = .ok 0 st) ∧
      (∀ ctx stbuf, Fuse.doGetattr ctx path s' stbuf = .ok 0 st') ∧
      st'.stSize = st.stSize ∧ ∀ a ∈ attributes, a.read st' = a.read st := by
  obtain ⟨hok, hs⟩ := h.named fun _ _ hcut => hcut
  rw [hok.resolve_eq] at hid
  have habs := View.resolve_absolute hid
  have hcs := liveComps_comps hpath
  -- the inode is one that the snapshot lists
  have hres := hid
  rw [View.resolve_eq_resolveComps habs] at hres
  obtain ⟨u, rest, hcs', hlists⟩ := hs.resolveComps_listed isName_of_mem_comps hres
  obtain ⟨rfl, rfl⟩ := Prod.mk.inj (Except.ok.inj (hcs.symm.trans hcs'))
  obtain ⟨n, hn, hl⟩ := hs.links.live_of_listsId hlists
  obtain ⟨c, hc⟩ := Option.isSome_iff_exists.mp ((hs.links.data ver id n hn).mpr (Or.inr hl))
  obtain ⟨⟨hok', _⟩, hkept⟩ := metadataKept_of_run (q := ⟨id, n.addr⟩) hrun ⟨hok, hs⟩ hver hl
  -- and still is after the run
  obtain ⟨n', hn', haddr, _, hdata⟩ := hkept.version.node id n hn hl
  have hid' : s'.view.resolve path.1 = .ok id := by
    rw [View.resolve_eq_resolveComps habs, hkept.version.resolveComps_eq hs hl.isSome hcs, hres]
  obtain ⟨self, st, hself, hget, hsize, hread⟩ := Fuse.doGetattr_listed hok hpath hid hn hc
  obtain ⟨self', st', hself', hget', hsize', hread'⟩ :=
    Fuse.doGetattr_listed hok' hpath hid' hn' (hdata.trans hc)
  refine ⟨st, st', hget, hget', hsize'.trans hsize.symm, fun a ha => ?_⟩
  rw [haddr] at hself'
  obtain ⟨self₀, hself₀, hsame⟩ :=
    (hkept.stat a ha).kept self' (hs.links.nodeAddr id n hn) hself'
  obtain rfl := Option.some.inj (hself.symm.trans hself₀)
  rw [hread', hread]
  exact hsame

end Snapshots

/-! ## A sample -/

/-- `"/.snapshot/v"` -/
def frozenRoot : CString := ⟨slash :: snapshotEntry ++ [slash, 118], by decide⟩

/-- `"/.snapshot/v/a"` -/
def frozenPath : CString := ⟨slash :: snapshotEntry ++ [slash, 118, slash, 97], by decide⟩

/-- A mounted file system with an empty file `a` in its root and in the snapshot `v`. -/
def frozenMount : InodeSmi :=
  Program.exec ((FuseCall.mkdir frozenRoot 0).run sampleContext) sampleMount

/-- `chmod("/a", 0777)` on it. -/
def chmodMount : InodeSmi :=
  Program.exec ((FuseCall.chmod samplePath 0o777).run sampleContext) frozenMount

theorem fuseReachable_frozenMount {cond : View → FuseCall → Prop}
    (hcreate : cond (mount sampleContext .libstdcxx 512).view (.create samplePath 0))
    (hmkdir : cond sampleMount.view (.mkdir frozenRoot 0)) : FuseReachableWith cond frozenMount :=
  (fuseReachable_sampleMount hcreate).exec (r := 0) trivial hmkdir (by decide +kernel)

theorem step_chmodMount {cond : View → FuseCall → Prop}
    (hchmod : cond frozenMount.view (.chmod samplePath 0o777)) :
    FuseStep cond frozenMount chmodMount :=
  FuseStep.of_outcome (r := 0) trivial hchmod (by decide +kernel)

/-- The owner of `a` is in the snapshot what it was. -/
theorem snapshot_attributes_shared_frozenMount :
    ∃ st st' : Stat, (∀ ctx stbuf, Fuse.doGetattr ctx frozenPath frozenMount stbuf = .ok 0 st) ∧
      (∀ ctx stbuf, Fuse.doGetattr ctx frozenPath chmodMount stbuf = .ok 0 st') ∧
      st'.stSize = st.stSize ∧
      ∀ a ∈ ({.uid, .gid} : Set Attribute), a.read st' = a.read st := by
  have hnone : ∀ w call, (∀ p, ¬ FuseCall.Cuts call p) → ¬ View.CutsDirectory w call := by
    rintro w call hcall ⟨path, _, _, hcut, _⟩
    exact hcall path hcut
  have hreach : FuseReachableWith (fun w call => ¬ w.CutsDirectory call) frozenMount :=
    fuseReachable_frozenMount (hnone _ _ fun _ hcut => hcut) (hnone _ _ fun _ hcut => hcut)
  have hstep : FuseStep (KeepsMetadata [118] 1 {.uid, .gid}) frozenMount chmodMount := by
    apply step_chmodMount
    constructor
    · exact hnone _ _ fun _ hcut => hcut
    · rintro ⟨path, hcall, _⟩
      simp at hcall
    · rintro a ha ⟨path, out, ⟨_, hsets⟩, _⟩
      rcases ha with rfl | rfl <;> simp at hsets
  exact snapshot_attributes_shared hreach (show ifSnapshot frozenPath.1 = .ok ([118], [47, 97])
    by decide +kernel) (by decide) (by decide +kernel) (Relation.ReflTransGen.single hstep)

/-- The mode of `a` is in the snapshot what `chmod` has made of it. -/
theorem not_snapshot_attributes_frozen :
    ¬ ∀ (s s' : InodeSmi) (path : CString) (ver : SnapshotVer) (out : Bytes) (id : ℕ),
      FuseReachable s → ifSnapshot path.1 = .ok (ver, out) → ver ≠ curModifiableVer →
      InodeSmi.getInodeIdByPath path.1 s = .ok id →
      Relation.ReflTransGen (FuseStep fun _ call =>
        ¬ call.CreatesVersion ver ∧ ¬ call.DeletesVersion ver) s s' →
      ∀ ctx stbuf st st', Fuse.doGetattr ctx path s stbuf = .ok 0 st →
        Fuse.doGetattr ctx path s' stbuf = .ok 0 st' →
        st'.stSize = st.stSize ∧ ∀ a : Attribute, a.read st' = a.read st := by
  intro hall
  have hstep : FuseStep (fun _ call => ¬ call.CreatesVersion [118] ∧ ¬ call.DeletesVersion [118])
      frozenMount chmodMount := by
    apply step_chmodMount
    constructor
    · rintro ⟨path, mode, hcall, _⟩
      simp at hcall
    · rintro ⟨path, hcall, _⟩
      simp at hcall
  have hget : Program.outcome (Fuse.doGetattr sampleContext frozenPath frozenMount) {} = .ok 0 := by
    decide +kernel
  have hget' : Program.outcome (Fuse.doGetattr sampleContext frozenPath chmodMount) {} = .ok 0 := by
    decide +kernel
  have hmode : (Program.exec (Fuse.doGetattr sampleContext frozenPath chmodMount) {}).stMode ≠
      (Program.exec (Fuse.doGetattr sampleContext frozenPath frozenMount) {}).stMode := by
    decide +kernel
  have hsame := hall frozenMount chmodMount frozenPath [118] [47, 97] 1
    (fuseReachable_frozenMount trivial trivial) (by decide +kernel) (by decide)
    (by decide +kernel) (Relation.ReflTransGen.single hstep) sampleContext {} _ _
    (Program.eq_ok_of_outcome hget) (Program.eq_ok_of_outcome hget')
  exact hmode (Sum.inl.inj (hsame.2 .mode))

end Htmpfs
