import Mathlib
import Htmpfs.Refinement

/-!
# The operations of the file system

Each operation of `inode_smi_t` ends with the step of the view it stands for,
or with an exception and nothing changed.
-/

namespace Htmpfs

open Program (Ends)

variable {s : InodeSmi}

/-- A reader that throws. -/
theorem Fails.of_reader {e : Exit} (he : e ≠ .htmpfs .requestedBufferNotFound) : Fails s e s :=
  fun _ => ⟨rfl, he⟩

theorem Fails.badAlloc {s' : InodeSmi} {e : Exit} (he : e = .badAlloc) : Fails s e s' := by
  subst he
  exact fun h => absurd h Exit.not_thrown_badAlloc

theorem Fails.undefined {s' : InodeSmi} {e : Exit} (he : e = .undefined) : Fails s e s' := by
  subst he
  exact fun h => absurd h Exit.not_thrown_undefined

theorem Fails.htmpfs {code : ErrorCode} (hcode : code ≠ .requestedBufferNotFound) :
    Fails s (.htmpfs code) s :=
  fun _ => ⟨rfl, by simpa using hcode⟩

/-! ## Readers inside operations -/

section Readers

variable {Q : PoolPtr → InodeSmi → Prop} {E : Exit → InodeSmi → Prop} {id : ℕ}

theorem ends_getInodeById (hQ : ∀ n, s.view.node id = some n → Q ⟨id, n.addr⟩ s)
    (hE : ∀ e, s.view.node id = none → Fails s e s → E e s) :
    Ends (Program.reads (InodeSmi.getInodeById id)) s Q E := by
  rw [Program.ends_reads, getInodeById_eq]
  cases hn : s.view.node id with
  | none =>
      refine ⟨by simp, fun e he => ?_⟩
      obtain rfl := Except.error.inj he
      exact hE _ hn (Fails.htmpfs (by simp))
  | some n =>
      refine ⟨fun a ha => ?_, by simp⟩
      obtain rfl := Except.ok.inj ha
      exact hQ n hn

theorem BlocksOk.ends_resolver_new (h : BlocksOk s) {ptr : PoolPtr} {ver : SnapshotVer}
    {n : NodeView} (hn : s.view.deref? ptr = some n) {Q : DirectoryResolver → InodeSmi → Prop}
    (hQ : ∀ t, n.isDentry = true → n.table s.blockSize ver = .ok t → Q ⟨t, ptr, ver⟩ s)
    (hE : ∀ e, n.table s.blockSize ver = .error e → Fails s e s → E e s) :
    Ends (Program.reads (DirectoryResolver.new ptr ver)) s Q E := by
  rw [Program.ends_reads, h.resolver_new_eq, View.openDir, hn]
  cases ht : n.table s.blockSize ver with
  | error e =>
      refine ⟨by simp [Functor.map, Except.map, ht], fun e' he => ?_⟩
      obtain rfl : e = e' := by simpa [Functor.map, Except.map, ht] using he
      refine hE e ht ?_
      rcases View.table_error ht with rfl | rfl | rfl | rfl <;> exact Fails.of_reader (by simp)
  | ok t =>
      refine ⟨fun a ha => ?_, by simp [Functor.map, Except.map, ht]⟩
      obtain rfl : ⟨t, ptr, ver⟩ = a := by simpa [Functor.map, Except.map, ht] using ha
      refine hQ t ?_ ht
      by_contra hdir
      unfold NodeView.table at ht
      rw [if_neg hdir] at ht
      exact Program.throw_ne_ok ht

theorem ends_lookup {t : List PathPack} {name : Bytes} {Q : ℕ → InodeSmi → Prop}
    (hQ : ∀ p, (t.find? fun i => i.pathname = name) = some p → Q p.inodeId s)
    (hE : ∀ e, (t.find? fun i => i.pathname = name) = none → Fails s e s → E e s) :
    Ends (Program.reads fun _ => View.lookup t name) s Q E := by
  rw [Program.ends_reads]
  unfold View.lookup
  cases hp : t.find? fun i => i.pathname = name with
  | none =>
      refine ⟨by simp, fun e he => ?_⟩
      obtain rfl := Program.throw_eq_error.mp he
      exact hE _ hp (Fails.htmpfs (by simp))
  | some p =>
      refine ⟨fun a ha => ?_, by simp⟩
      obtain rfl := Program.pure_eq_ok.mp ha
      exact hQ p hp

theorem ends_last {p : PathT} {Q : Bytes → InodeSmi → Prop} {E : Exit → InodeSmi → Prop}
    (hQ : ∀ name, p.last = .ok name → Q name s)
    (hE : ∀ e, p.last = .error e → Fails s e s → E e s) :
    Ends (Program.reads fun _ => p.last) s Q E := by
  rw [Program.ends_reads]
  refine ⟨hQ, fun e he => hE e he ?_⟩
  unfold PathT.last at he
  split at he
  · exact absurd he Program.pure_ne_error
  · exact Fails.undefined (Program.throw_eq_error.mp he).symm

theorem BlocksOk.ends_descend (h : BlocksOk s) {path : List Bytes} {count : ℕ} {ptr : PoolPtr}
    {Q : PoolPtr → InodeSmi → Prop} {E : Exit → InodeSmi → Prop}
    (hQ : ∀ q, s.view.descend path count ptr = .ok q → Q q s)
    (hE : ∀ e, s.view.descend path count ptr = .error e → Fails s e s → E e s) :
    Ends (Program.reads (InodeSmi.descend path count ptr)) s Q E := by
  rw [Program.ends_reads, h.descend_eq]
  exact ⟨hQ, fun e he => hE e he (Fails.of_reader (View.descend_error he))⟩

theorem BlocksOk.ends_resolve (h : BlocksOk s) {path : Bytes} {Q : ℕ → InodeSmi → Prop}
    (hQ : ∀ id, s.view.resolve path = .ok id → Q id s) :
    Ends (Program.reads (InodeSmi.getInodeIdByPath path)) s Q (Fails s) := by
  rw [Program.ends_reads, h.resolve_eq]
  exact ⟨hQ, fun e he => Fails.of_reader (View.resolve_error he)⟩

end Readers

/-! ## `make_child_dentry_under_parent` -/

theorem lookup_current {list : List InodeResult}
    (hlist : s.view.listing curModifiableVer = some list) :
    InodeSmi.currentList s = .ok list := by
  have hlist' : s.snapshotVersionList[curModifiableVer]? = some list := hlist
  simp only [InodeSmi.currentList, hlist']
  rfl

theorem view_setCurrentList {list : List InodeResult} :
    InodeSmi.view { s with
      snapshotVersionList := s.snapshotVersionList.insert curModifiableVer list } =
      s.view.setListing curModifiableVer (some list) := by
  simp only [InodeSmi.view, View.setListing, View.mk.injEq, true_and, and_true]
  funext ver
  exact getElem?_insert_version

/-- `make_child_dentry_under_parent` has nothing to object to. -/
def View.Creatable (w : View) (parent : ℕ) (name : Bytes) : Prop :=
  name.all InodeSmi.nameChar = true ∧
    ∃ t, w.tableAt parent curModifiableVer = .ok t ∧ ∀ p ∈ t, p.pathname ≠ name

theorem BlocksOk.ends_makeChild (h : BlocksOk s) {list : List InodeResult}
    (hlist : s.view.listing curModifiableVer = some list) {parent : ℕ} {name : Bytes}
    {isDir : Bool} :
    Ends (InodeSmi.makeChildDentryUnderParent parent name isDir) s
      (fun id s' => BlocksOk s' ∧ s.view.MakesChild parent name isDir id s'.view ∧
        (HeldElsewhere s parent (fun _ => True) → NoOrphan s → NoOrphan s'))
      (fun e s' => Fails s e s' ∧ (s.view.Creatable parent name → e = .badAlloc)) := by
  unfold InodeSmi.makeChildDentryUnderParent
  split_ifs with hname
  swap
  · exact Program.ends_throw.mpr ⟨Fails.htmpfs (by simp), fun hcreate => absurd hcreate.1 hname⟩
  simp only [Program.ends_bind]
  refine ends_getInodeById (fun n hn => ?_) fun e hnone he => ⟨he, fun hcreate => ?_⟩
  swap
  · obtain ⟨_, t, ht, _⟩ := hcreate
    rw [View.tableAt, hnone] at ht
    exact absurd ht Program.throw_ne_ok
  have htableAt : s.view.tableAt parent curModifiableVer = n.table s.blockSize curModifiableVer := by
    rw [View.tableAt, hn]
    rfl
  refine h.ends_resolver_new (View.deref?_of_node hn) (fun t hdir ht => ?_)
    fun e herr he => ⟨he, fun hcreate => ?_⟩
  swap
  · obtain ⟨_, t, ht, _⟩ := hcreate
    rw [htableAt, herr] at ht
    simp at ht
  split_ifs with havail
  swap
  · refine Program.ends_throw.mpr ⟨Fails.htmpfs (by simp), fun hcreate => absurd ?_ havail⟩
    obtain ⟨_, t', ht', hnames⟩ := hcreate
    obtain rfl := Except.ok.inj ((htableAt.trans ht).symm.trans ht')
    simpa [DirectoryResolver.checkAvailability] using hnames
  simp only [Program.ends_bind, ends_onInodePool, Program.ends_get, Program.ends_pure]
  obtain ⟨id, hid, hfree, hle⟩ := getFreeId_ok h.inodeSmall
  refine Program.Ends.reads_ok hid ?_
  have hfree' : s.view.node id = none := view_node_eq_none.mpr hfree
  have hne : id ≠ parent := by
    rintro rfl
    rw [hfree'] at hn
    simp at hn
  have hadd := h.ends_addNode hfree' isDir
  rw [ends_onInodePool] at hadd
  refine hadd.mono ?_ fun _ _ he => ⟨Fails.badAlloc he, fun _ => he⟩
  rintro _ pool ⟨h₁, hview₁, horphan₁, hheld₁⟩
  have hnames : ∀ p ∈ t, p.pathname ≠ name := by
    simpa [DirectoryResolver.checkAvailability] using havail
  have hadd' : DirectoryResolver.addPath ⟨t, ⟨parent, n.addr⟩, curModifiableVer⟩ name id =
      .ok ⟨t ++ [⟨name, id⟩], ⟨parent, n.addr⟩, curModifiableVer⟩ := by
    unfold DirectoryResolver.addPath
    rw [if_neg (by simpa using hnames)]
    rfl
  refine Program.Ends.reads_ok hadd' ?_
  have hn₁ : View.deref? (InodeSmi.view { s with inodePool := pool }) ⟨parent, n.addr⟩ = some n := by
    rw [hview₁, View.deref?_eq_some]
    exact ⟨by rw [View.node_addNode, if_neg hne.symm, hn], rfl⟩
  have hsave := h₁.ends_saveCurrent
    (r := ⟨t ++ [⟨name, id⟩], ⟨parent, n.addr⟩, curModifiableVer⟩) hn₁
  refine hsave.mono ?_ fun _ _ he => ⟨Fails.badAlloc he, fun _ => he⟩
  rintro _ s₂ ⟨h₂, hview₂, horphan₂, _, hfits, _⟩
  rw [hview₁] at hview₂
  have hnode₂ : s₂.view.node id = some ⟨1, s.view.nextAddr, isDir,
      fun ver => if ver = curModifiableVer then some [] else none⟩ := by
    rw [hview₂, View.node_setCurrent, if_neg hne, View.node_addNode, if_pos rfl]
  obtain ⟨node, hnode, hnv⟩ := view_node_eq_some.mp hnode₂
  have haddr : node.addr = s.view.nextAddr := congrArg NodeView.addr hnv
  refine Program.Ends.reads_ok (a := node) (by simp only [poolAt, hnode]; rfl) ?_
  have hlist₂ : s₂.view.listing curModifiableVer = some list := by
    rw [hview₂]
    exact hlist
  refine Program.Ends.reads_ok (lookup_current hlist₂) ?_
  unfold InodeSmi.setCurrentList
  simp only [Program.ends_modify]
  refine ⟨h₂.withListing _, ?_, fun hheld horphan => ?_⟩
  · rw [view_setCurrentList, hview₂, haddr]
    exact View.MakesChild.mk n t list hname hn ht hnames hfree'
      (lt_of_le_of_lt hle (by have := h.inodeSmall; have := s.inodePool.maxSize.isLt; omega))
      hfits hlist
  · exact horphan₂ (hheld₁ parent _ hne.symm hheld) (horphan₁ horphan)

/-! ## `remove_child_dentry_under_parent` -/

/-- An inode about to lose its last link owns no block. -/
def DropsNothing (s : InodeSmi) (id : ℕ) : Prop :=
  ∀ node, s.inodePool.find? id = some node → decrement node.linkCount = 0 →
    ∀ b, ¬ node.val.Owns b

theorem BlocksOk.ends_checkTargetEmpty (h : BlocksOk s) {ptr : PoolPtr} {n : NodeView}
    (hn : s.view.deref? ptr = some n) :
    Ends (InodeSmi.checkTargetEmpty ptr) s
      (fun _ s' => s' = s ∧ (n.isDentry = true → n.table s.blockSize curModifiableVer = .ok []))
      (fun e s' => Fails s e s' ∧
        ¬ (n.isDentry = true → n.table s.blockSize curModifiableVer = .ok [])) := by
  unfold InodeSmi.checkTargetEmpty
  have hnew : DirectoryResolver.new ptr curModifiableVer s =
      (fun t => ⟨t, ptr, curModifiableVer⟩) <$> n.table s.blockSize curModifiableVer := by
    rw [h.resolver_new_eq, View.openDir, hn]
    rfl
  simp only [Program.ends_tryCatch, Program.ends_bind]
  cases ht : n.table s.blockSize curModifiableVer with
  | error e =>
      rw [ht] at hnew
      refine Program.Ends.reads_error hnew ?_
      by_cases hdir : e = .htmpfs .notADirectory
      · rw [if_pos hdir, Program.ends_pure]
        refine ⟨rfl, fun hkind => ?_⟩
        unfold NodeView.table at ht
        rw [if_pos hkind, hdir] at ht
        rcases Program.bind_eq_error.mp ht with ht | ⟨c, _, ht⟩
        · rcases NodeView.toString_error ht with h | h <;> simp at h
        · exact absurd (View.decodeTable_error ht) (by simp)
      · rw [if_neg hdir, Program.ends_throw]
        refine ⟨?_, fun hempty => ?_⟩
        · rcases View.table_error ht with rfl | rfl | rfl | rfl <;> exact Fails.of_reader (by simp)
        · by_cases hkind : n.isDentry = true
          · simpa using hempty hkind
          · unfold NodeView.table at ht
            rw [if_neg hkind] at ht
            exact hdir (Program.throw_eq_error.mp ht).symm
  | ok t =>
      rw [ht] at hnew
      refine Program.Ends.reads_ok hnew ?_
      split_ifs with hlen
      · rw [Program.ends_throw, if_neg (by simp), Program.ends_throw]
        refine ⟨Fails.htmpfs (by simp), fun hempty => hlen ?_⟩
        have hkind : n.isDentry = true := by
          by_contra hkind
          unfold NodeView.table at ht
          rw [if_neg hkind] at ht
          exact Program.throw_ne_ok ht
        rw [Except.ok.inj (hempty hkind)]
        rfl
      · rw [Program.ends_pure]
        have hnil : t = [] := List.length_eq_zero_iff.mp (not_not.mp hlen)
        exact ⟨rfl, fun _ => by rw [hnil]⟩

/-- `remove_child_dentry_under_parent` has nothing to object to. -/
def View.Removable (w : View) (parent : ℕ) (name : Bytes) : Prop :=
  ∃ t p target, w.tableAt parent curModifiableVer = .ok t ∧
    (t.find? fun i => i.pathname = name) = some p ∧ w.node p.inodeId = some target ∧
    (target.isDentry = true → target.table w.blockSize curModifiableVer = .ok [])

theorem BlocksOk.ends_removeChild (h : BlocksOk s) {list : List InodeResult}
    (hlist : s.view.listing curModifiableVer = some list) {parent : ℕ} {name : Bytes} :
    Ends (InodeSmi.removeChildDentryUnderParent parent name) s
      (fun _ s' => BlocksOk s' ∧ s.view.RemovesChild parent name s'.view ∧
        (HeldElsewhere s parent (fun _ => True) →
          (∀ t p, s.view.tableAt parent curModifiableVer = .ok t →
            (t.find? fun i => i.pathname = name) = some p → DropsNothing s p.inodeId) →
          NoOrphan s → NoOrphan s') ∧ StaysHeld s s' ∧ KeepsBuffers s parent s')
      (fun e s' => Fails s e s' ∧ (s.view.Removable parent name → e = .badAlloc)) := by
  unfold InodeSmi.removeChildDentryUnderParent
  simp only [Program.ends_bind]
  refine ends_getInodeById (fun n hn => ?_) fun e hnone he => ⟨he, fun hrem => ?_⟩
  swap
  · obtain ⟨t, _, _, ht, _⟩ := hrem
    rw [View.tableAt, hnone] at ht
    exact absurd ht Program.throw_ne_ok
  have htableAt : s.view.tableAt parent curModifiableVer = n.table s.blockSize curModifiableVer := by
    rw [View.tableAt, hn]
    rfl
  refine h.ends_resolver_new (View.deref?_of_node hn) (fun t hdir ht => ?_)
    fun e herr he => ⟨he, fun hrem => ?_⟩
  swap
  · obtain ⟨t, _, _, ht, _⟩ := hrem
    rw [htableAt, herr] at ht
    simp at ht
  rw [ht] at htableAt
  simp only [namei_eq]
  refine ends_lookup (fun p hp => ?_) fun e hnone he => ⟨he, fun hrem => ?_⟩
  swap
  · obtain ⟨t', _, _, ht', hp, _⟩ := hrem
    obtain rfl := Except.ok.inj (htableAt.symm.trans ht')
    rw [hnone] at hp
    simp at hp
  cases htarget : s.inodePool.find? p.inodeId with
  | none =>
      refine Program.Ends.reads_error (e := .undefined) ?_
        ⟨Fails.undefined rfl, fun hrem => ?_⟩
      · simp only [htarget]
        rfl
      · obtain ⟨t', p', target, ht', hp', htarget', _⟩ := hrem
        obtain rfl := Except.ok.inj (htableAt.symm.trans ht')
        obtain rfl := Option.some.inj (hp.symm.trans hp')
        rw [view_node_eq_none.mpr htarget] at htarget'
        simp at htarget'
  | some node =>
      refine Program.Ends.reads_ok (a := ⟨p.inodeId, node.addr⟩) (by simp only [htarget]; rfl) ?_
      have hview : s.view.node p.inodeId = some (nodeView s.bufferPool node) := by
        rw [view_node, htarget]
        rfl
      have hcheck := h.ends_checkTargetEmpty (View.deref?_of_node hview)
      refine hcheck.mono ?_ fun _ _ he => ⟨he.1, fun hrem => absurd ?_ he.2⟩
      swap
      · obtain ⟨t', p', target, ht', hp', htarget', hempty⟩ := hrem
        obtain rfl := Except.ok.inj (htableAt.symm.trans ht')
        obtain rfl := Option.some.inj (hp.symm.trans hp')
        obtain rfl := Option.some.inj (hview.symm.trans htarget')
        exact hempty
      rintro _ _ ⟨rfl, hempty⟩
      have hpmem : p ∈ t := List.mem_of_find?_eq_some hp
      have hpname : p.pathname = name := by simpa using List.find?_some hp
      have hne : p.inodeId ≠ parent := by
        rintro hid
        rw [hid, hn] at hview
        obtain rfl := Option.some.inj hview
        rw [hempty hdir] at ht
        obtain rfl := Except.ok.inj ht
        simp at hpmem
      have hremove : DirectoryResolver.removePath ⟨t, ⟨parent, n.addr⟩, curModifiableVer⟩ name =
          .ok ⟨t.eraseP fun i => i.pathname = name, ⟨parent, n.addr⟩, curModifiableVer⟩ := by
        unfold DirectoryResolver.removePath
        rw [if_pos]
        · rfl
        · simp only [List.any_eq_true, decide_eq_true_eq]
          exact ⟨p, hpmem, hpname⟩
      refine Program.Ends.reads_ok hremove ?_
      have hsave := h.ends_saveCurrent
        (r := ⟨t.eraseP fun i => i.pathname = name, ⟨parent, n.addr⟩, curModifiableVer⟩)
        (View.deref?_of_node hn)
      refine hsave.mono ?_ fun _ _ he =>
        ⟨Fails.badAlloc he, fun _ => he⟩
      rintro _ s₁ ⟨h₁, hview₁, horphan₁, hlocal₁, hfits, hheld₁, hbuffers₁⟩
      have hlist₁ : s₁.view.listing curModifiableVer = some list := by
        rw [hview₁]
        exact hlist
      refine Program.Ends.reads_ok (lookup_current hlist₁) ?_
      unfold InodeSmi.setCurrentList
      simp only [Program.ends_modify]
      have htarget₁ : s₁.inodePool.find? p.inodeId = some node := by
        rw [hlocal₁ _ hne, htarget]
      refine Program.Ends.reads_ok (a := node) (by simp only [htarget₁, if_true]; rfl) ?_
      have hdrop := (h₁.withListing (s₁.snapshotVersionList.insert curModifiableVer
        (list.eraseP fun i => i.id = p.inodeId))).ends_dropLink htarget₁
      refine hdrop.mono ?_ fun _ _ he => he.elim
      rintro _ s₂ ⟨h₂, hview₂, horphan₂, _, hheld₂, hpool₂⟩
      refine ⟨h₂, ?_, fun hheld hcond horphan => ?_,
        fun j touched hheld => hheld₂ j touched (hheld₁ j touched hheld), ?_⟩
      · rw [hview₂, view_setCurrentList, hview₁]
        exact View.RemovesChild.mk n t p _ list hn ht hp hview hempty hfits hlist
      · refine horphan₂ (fun hzero => ?_) (horphan₁ hheld horphan)
        refine hcond t p ?_ hp node htarget hzero
        rw [View.tableAt, hn]
        exact ht
      · intro b hb hfree
        rw [hpool₂]
        exact hbuffers₁ b hb hfree

/-- What `remove_inode_by_path` does: it removes the last component of the path from the
directory that the others lead to. -/
inductive View.RemovesPath (w : View) (path : Bytes) (w' : View) : Prop
  | mk (name : Bytes) (ptr : PoolPtr) (hpath : path ≠ [slash])
      (hname : (PathT.ofString path).last = .ok name)
      (hparent : w.descend (PathT.ofString path).pathname.tail
        (u64Sub (PathT.ofString path).size 2) ⟨rootInodeNumber, 0⟩ = .ok ptr)
      (hremove : w.RemovesChild ptr.id name w')

/-- `remove_inode_by_path` has nothing to object to. -/
def View.RemovablePath (w : View) (path : Bytes) : Prop :=
  path ≠ [slash] ∧ ∃ name ptr n, (PathT.ofString path).last = .ok name ∧
    w.descend (PathT.ofString path).pathname.tail
      (u64Sub (PathT.ofString path).size 2) ⟨rootInodeNumber, 0⟩ = .ok ptr ∧
    w.deref? ptr = some n ∧ w.Removable ptr.id name

theorem BlocksOk.ends_removeInodeByPath (h : BlocksOk s) {list : List InodeResult}
    (hlist : s.view.listing curModifiableVer = some list) {path : Bytes} :
    Ends (InodeSmi.removeInodeByPath path) s
      (fun _ s' => BlocksOk s' ∧ s.view.RemovesPath path s'.view)
      (fun e s' => Fails s e s' ∧ (s.view.RemovablePath path → e = .badAlloc)) := by
  unfold InodeSmi.removeInodeByPath
  split_ifs with hroot
  · exact Program.ends_throw.mpr ⟨Fails.htmpfs (by simp), fun hrem => absurd hroot hrem.1⟩
  simp only [Program.ends_bind, Program.ends_get]
  generalize hcount : u64Sub (PathT.ofString path).size 2 = count
  refine ends_last (fun name hname => ?_) fun e he hfails => ⟨hfails, fun hrem => ?_⟩
  swap
  · obtain ⟨_, _, _, _, hname, _⟩ := hrem
    rw [he] at hname
    simp at hname
  refine h.ends_descend (fun ptr hptr => ?_) fun e he hfails => ⟨hfails, fun hrem => ?_⟩
  swap
  · obtain ⟨_, _, _, _, _, hptr, _⟩ := hrem
    rw [hcount, ← h.root, he] at hptr
    simp at hptr
  rw [h.root, ← hcount] at hptr
  cases hn : s.view.deref? ptr with
  | none =>
      refine Program.Ends.reads_error (deref_of_view_none hn).1 ⟨Fails.undefined rfl, fun hrem => ?_⟩
      obtain ⟨_, _, ptr', n, _, hptr', hn', _⟩ := hrem
      obtain rfl := Except.ok.inj (hptr.symm.trans hptr')
      simp [hn] at hn'
  | some n =>
      obtain ⟨node, hnode, _, _, hderef⟩ := deref_of_view hn
      refine Program.Ends.reads_ok hderef ?_
      rw [(h.inode _ node hnode).2.1]
      refine (h.ends_removeChild hlist).mono ?_ fun _ _ he => ⟨he.1, fun hrem => he.2 ?_⟩
      swap
      · obtain ⟨_, name', ptr', _, hname', hptr', _, hrem⟩ := hrem
        obtain rfl := Except.ok.inj (hname.symm.trans hname')
        obtain rfl := Except.ok.inj (hptr.symm.trans hptr')
        exact hrem
      rintro _ s' ⟨h', hremove, _⟩
      exact ⟨h', View.RemovesPath.mk name ptr hroot hname hptr hremove⟩

/-! ## Snapshots -/

section Snapshots

variable {e : InodeResult} {n : NodeView} {ver : SnapshotVer}

/-- The turn of `create_snapshot_volume` for one inode. -/
theorem BlocksOk.ends_linkVolume (h : BlocksOk s) (hn : s.view.node e.id = some n)
    (hptr : e.inode = ⟨e.id, n.addr⟩) (hnew : n.data ver = none) :
    Ends (do
        InodeSmi.linkInode e.id
        InodeSmi.onInode e.inode (Inode.createNewVolume ver)) s
      (fun _ s' => BlocksOk s' ∧ s'.view = s.view.update e.id (fun n => some (n.freeze ver)) ∧
        (NoOrphan s → NoOrphan s'))
      (fun _ _ => False) := by
  obtain ⟨node, hnode, rfl⟩ := view_node_eq_some.mp hn
  simp only [Program.ends_bind, InodeSmi.linkInode, ends_onInodePool, Program.ends_get, hnode,
    Program.ends_set]
  obtain ⟨h₁, hview₁, horphan₁⟩ := h.relink hnode
    (s.inodePool.setLinkCount e.id (node.linkCount + 1)) (m := some (node.linkCount + 1))
    IdPool.size_setLinkCount.le IdPool.maxSize_setLinkCount rfl
    (fun j => by rw [IdPool.find?_setLinkCount, hnode]; rfl)
  generalize hs₁ : ({ s with
    inodePool := s.inodePool.setLinkCount e.id (node.linkCount + 1) } : InodeSmi) = s₁
    at h₁ hview₁ horphan₁ ⊢
  have hnode₁ : s₁.inodePool.find? e.inode.id =
      some { node with linkCount := node.linkCount + 1 } := by
    rw [← hs₁, hptr]
    simp only [IdPool.find?_setLinkCount, if_true, hnode, Option.map_some]
  have hpool₁ : s₁.bufferPool = s.bufferPool := by rw [← hs₁]
  have hptr' : e.inode.id = e.id := by rw [hptr]
  have hnew₁ : node.val.data s₁.bufferPool ver = none := by
    rw [hpool₁]
    exact hnew
  rw [ends_onInode hnode₁ (by rw [hptr]; rfl)]
  refine (Inode.Ok.ends_createNewVolume (v := ⟨s₁.bufferPool, node.val⟩)
    (h₁.inode _ _ hnode₁).1).mono ?_ ?_
  · rintro _ v' ⟨_, hv⟩
    obtain ⟨h₂, hview₂, horphan₂⟩ := Volumed.smi h₁ hnode₁ hnew₁ hv
    refine ⟨h₂, ?_, fun horphan => horphan₂ (horphan₁ (by simp) horphan)⟩
    rw [hview₂, hview₁, hptr']
    unfold View.update
    simp only [View.mk.injEq, and_self, and_true, true_and, if_true]
    funext j
    split_ifs
    · rw [hn]
      rfl
    · rfl
  · rintro _ _ ⟨_, _, hne⟩
    exact hne hnew₁

/-- The turn of `delete_snapshot_volume` for one inode. -/
theorem BlocksOk.ends_unlinkVolume (h : BlocksOk s) (hn : s.view.node e.id = some n)
    (hptr : e.inode = ⟨e.id, n.addr⟩) (hver : ver ≠ curModifiableVer) (hdata : n.data ver ≠ none) :
    Ends (do
        InodeSmi.onInode e.inode (Inode.deleteVolume ver)
        InodeSmi.unlinkInode e.id) s
      (fun _ s' => BlocksOk s' ∧
        s'.view = s.view.update e.id (fun n => (n.unfreeze ver).dropLink) ∧
        (∀ j ≠ e.id, s'.inodePool.find? j = s.inodePool.find? j) ∧
        ((∀ node, s.inodePool.find? e.id = some node →
          ∀ list, node.val.bufferMap[ver]? = some list → ∀ r ∈ list, ∃ u list', u ≠ ver ∧
            node.val.bufferMap[u]? = some list' ∧ r.id ∈ list'.map (·.id)) →
          DropsNothing s e.id → NoOrphan s → NoOrphan s') ∧
        ∀ b, (s.bufferPool.find? b).isSome → (s'.bufferPool.find? b).isSome)
      (fun _ _ => False) := by
  obtain ⟨node, hnode, rfl⟩ := view_node_eq_some.mp hn
  have hptr' : e.inode.id = e.id := by rw [hptr]
  have hnode' : s.inodePool.find? e.inode.id = some node := by rw [hptr', hnode]
  rw [Program.ends_bind, ends_onInode hnode' (by rw [hptr]; rfl)]
  refine (Inode.Ok.ends_deleteVolume (v := ⟨s.bufferPool, node.val⟩)
    (h.inode _ _ hnode').1).mono ?_ ?_
  swap
  · rintro _ _ ⟨_, _, hbad | hbad⟩
    · exact hver hbad
    · exact hdata hbad
  rintro _ v' ⟨_, hv⟩
  obtain ⟨h₁, hview₁, horphan₁⟩ := Unvolumed.smi h hnode' hv
  have hnode₁ : (s.withInode e.inode.id v').inodePool.find? e.id =
      some { node with val := v'.self } := by
    rw [find?_withInode hnode', if_pos hptr'.symm]
  have hdrop := h₁.ends_dropLink hnode₁
  unfold InodeSmi.unlinkInode
  rw [ends_onInodePool] at hdrop ⊢
  simp only [Program.ends_bind, Program.ends_get, hnode₁]
  refine hdrop.mono ?_ fun _ _ he => he
  rintro _ pool ⟨h₂, hview₂, horphan₂, hlocal₂, _⟩
  refine ⟨h₂, ?_, ?_, fun hother hnothing horphan => ?_, ?_⟩
  · rw [hview₂, hview₁, hptr']
    unfold View.dropLink View.update
    simp only [View.mk.injEq, and_self, and_true, true_and, if_true]
    funext j
    split_ifs
    · rw [hn]
      rfl
    · rfl
  · intro j hj
    rw [hlocal₂ j hj, find?_withInode hnode', if_neg (by rwa [hptr'])]
  · refine horphan₂ (fun hzero b hown => ?_) (horphan₁ (hother node hnode) horphan)
    obtain ⟨list, _, hmap, _⟩ := hv.bank
    obtain ⟨u, list', hlist', hb⟩ := hown
    rw [hmap] at hlist'
    split_ifs at hlist'
    exact hnothing node hnode hzero b ⟨u, list', hlist', hb⟩
  · intro b hb
    obtain ⟨list, _, _, hpool⟩ := hv.bank
    have hfind : v'.bufferPool.find? b = _ := hpool.2 b
    change (v'.bufferPool.find? b).isSome
    rw [hfind]
    split_ifs
    · rw [Option.isSome_map]
      exact hb
    · exact hb

theorem not_mem_ids_of_nodup {list pre post : List InodeResult}
    (hnodup : (list.map (·.id)).Nodup) (heq : list = pre ++ e :: post) :
    e.id ∉ pre.map (·.id) := by
  rw [heq, List.map_append, List.nodup_append] at hnodup
  intro hmem
  exact hnodup.2.2 e.id hmem e.id (by simp) rfl

/-- `create_snapshot_volume` threw: the name is taken, and nothing has changed. -/
def CreateRefused (s : InodeSmi) (ver : SnapshotVer) (e : Exit) (s' : InodeSmi) : Prop :=
  e = .htmpfs .doubleSnapshot ∧ s' = s ∧ s.view.listing ver ≠ none

/-- `delete_snapshot_volume` threw: there is no such snapshot, and nothing has changed; or an
inode of the snapshot is gone. -/
def DeleteRefused (s : InodeSmi) (ver : SnapshotVer) (e : Exit) (s' : InodeSmi) : Prop :=
  e = .htmpfs .noSuchSnapshot ∧ s' = s ∧ (ver = curModifiableVer ∨ s.view.listing ver = none) ∨
    e = .undefined ∧ ∃ list i, s.view.listing ver = some list ∧ i ∈ list ∧
      s.view.deref? i.inode = none

theorem CreateRefused.fails {e : Exit} {s' : InodeSmi} (h : CreateRefused s ver e s') :
    Fails s e s' := by
  obtain ⟨rfl, rfl, _⟩ := h
  exact Fails.htmpfs (by simp)

theorem DeleteRefused.fails {e : Exit} {s' : InodeSmi} (h : DeleteRefused s ver e s') :
    Fails s e s' := by
  rcases h with ⟨rfl, rfl, _⟩ | ⟨rfl, _⟩
  · exact Fails.htmpfs (by simp)
  · exact Fails.undefined rfl

theorem BlocksOk.ends_createSnapshot (h : BlocksOk s) {list : List InodeResult}
    (hlist : s.view.listing curModifiableVer = some list) (hnodup : (list.map (·.id)).Nodup)
    (hlive : s.view.listing ver = none → ∀ e ∈ list, ∃ n, s.view.node e.id = some n ∧
      e.inode = ⟨e.id, n.addr⟩ ∧ n.data ver = none) :
    Ends (InodeSmi.createSnapshotVolume ver) s
      (fun _ s' => BlocksOk s' ∧ s.view.CreatesSnapshot ver s'.view ∧ (NoOrphan s → NoOrphan s'))
      (CreateRefused s ver) := by
  unfold InodeSmi.createSnapshotVolume
  simp only [Program.ends_bind, Program.ends_get]
  cases hver : s.snapshotVersionList[ver]? with
  | some _ =>
      rw [Std.ExtTreeMap.contains_eq_isSome_getElem?, hver]
      exact ⟨rfl, rfl, by simp [InodeSmi.view, hver]⟩
  | none =>
      rw [Std.ExtTreeMap.contains_eq_isSome_getElem?, hver]
      simp only [Option.isSome_none, Bool.false_eq_true, if_false, Program.ends_bind,
        Program.ends_modify]
      refine Program.Ends.reads_ok (lookup_current hlist) ?_
      refine (Ends.each (fun pre s' => BlocksOk s' ∧
        s'.view = s.view.updateAll (pre.map (·.id)) (fun n => some (n.freeze ver)) ∧
        (NoOrphan s → NoOrphan s'))
        ⟨h, View.updateAll_nil.symm, fun horphan => horphan⟩ ?_).mono ?_ fun _ _ he => he
      · rintro pre e post s' heq ⟨h', hview', horphan'⟩
        have hnot := not_mem_ids_of_nodup hnodup heq
        obtain ⟨n, hn, hptr, hnew⟩ := hlive hver e (by simp [heq])
        have hn' : s'.view.node e.id = some n := by
          rw [hview', View.node_updateAll, if_neg hnot, hn]
        refine (h'.ends_linkVolume hn' hptr hnew).mono ?_ fun _ _ he => he.elim
        rintro _ s'' ⟨h'', hview'', horphan''⟩
        refine ⟨h'', ?_, fun horphan => horphan'' (horphan' horphan)⟩
        rw [hview'', hview', View.update_updateAll hnot, List.map_append]
        rfl
      · rintro _ s' ⟨h', hview', horphan'⟩
        refine ⟨h'.withListing _, ?_, horphan'⟩
        have hlisting : s'.snapshotVersionList[ver]? = none := by
          have hsame : s'.view.listing ver = s.view.listing ver := by rw [hview']; rfl
          exact hsame.trans hver
        have hview : InodeSmi.view { s' with
            snapshotVersionList := s'.snapshotVersionList.insertIfNew ver list } =
            s'.view.setListing ver (some list) := by
          simp only [InodeSmi.view, View.setListing, View.mk.injEq, true_and, and_true]
          funext u
          rw [getElem?_insertIfNew_version]
          simp only [hlisting, and_true]
        rw [hview, hview']
        exact View.CreatesSnapshot.mk list hver hlist

/-- Deleting a snapshot leaves every block with a version that lists it. -/
def DeletesCleanly (s : InodeSmi) (ver : SnapshotVer) : Prop :=
  ∀ list, s.view.listing ver = some list → ∀ e ∈ list, DropsNothing s e.id ∧
    ∀ node, s.inodePool.find? e.id = some node →
      ∀ list', node.val.bufferMap[ver]? = some list' → ∀ r ∈ list', ∃ u list'', u ≠ ver ∧
        node.val.bufferMap[u]? = some list'' ∧ r.id ∈ list''.map (·.id)

theorem BlocksOk.ends_deleteSnapshot (h : BlocksOk s)
    (hcurrent : ∃ e list, s.view.listing curModifiableVer = some (e :: list))
    (hnodup : ∀ list, s.view.listing ver = some list → (list.map (·.id)).Nodup)
    (hlive : ∀ list, s.view.listing ver = some list → ∀ e ∈ list, e.inode.id = e.id ∧
      ∀ n, s.view.deref? e.inode = some n → n.data ver ≠ none) :
    Ends (InodeSmi.deleteSnapshotVolume ver) s
      (fun _ s' => BlocksOk s' ∧ s.view.DeletesSnapshot ver s'.view ∧
        (DeletesCleanly s ver → NoOrphan s → NoOrphan s') ∧
        ∀ b, (s.bufferPool.find? b).isSome → (s'.bufferPool.find? b).isSome)
      (DeleteRefused s ver) := by
  unfold InodeSmi.deleteSnapshotVolume
  simp only [Program.ends_bind, Program.ends_get]
  cases hver : s.snapshotVersionList[ver]? with
  | none => exact Or.inl ⟨rfl, rfl, Or.inr hver⟩
  | some list =>
      have hlist : s.view.listing ver = some list := hver
      simp only [Program.ends_bind, Program.ends_modify]
      by_cases hcur : ver = curModifiableVer
      · -- the first inode refuses to give up its current volume
        obtain ⟨e, rest, he⟩ := hcurrent
        subst hcur
        obtain rfl := Option.some.inj (hlist.symm.trans he)
        simp only [Program.each, Program.ends_bind]
        cases hn : s.view.deref? e.inode with
        | none =>
            exact ends_onInode_undefined hn (Or.inr ⟨rfl, _, _, he, List.mem_cons_self, hn⟩)
        | some n =>
            obtain ⟨node, hnode, haddr, _⟩ := view_deref?_eq_some.mp hn
            rw [ends_onInode hnode haddr]
            refine (Inode.Ok.ends_deleteVolume (v := ⟨s.bufferPool, node.val⟩)
              (h.inode _ _ hnode).1).mono ?_ ?_
            · rintro _ _ ⟨hne, _⟩
              exact absurd rfl hne
            · rintro _ _ ⟨rfl, rfl, _⟩
              rw [withInode_self hnode]
              exact Or.inl ⟨rfl, rfl, Or.inl rfl⟩
      · refine (Ends.each (fun pre s' => BlocksOk s' ∧
          s'.view = s.view.updateAll (pre.map (·.id)) (fun n => (n.unfreeze ver).dropLink) ∧
          (∀ j, j ∉ pre.map (·.id) → s'.inodePool.find? j = s.inodePool.find? j) ∧
          (∀ e ∈ pre, ∃ n, s.view.deref? e.inode = some n) ∧
          (DeletesCleanly s ver → NoOrphan s → NoOrphan s') ∧
          ∀ b, (s.bufferPool.find? b).isSome → (s'.bufferPool.find? b).isSome)
          ⟨h, View.updateAll_nil.symm, fun _ _ => rfl, by simp, fun _ horphan => horphan,
            fun _ hb => hb⟩ ?_).mono ?_ fun _ _ he => he
        · rintro pre e post s' heq ⟨h', hview', hlocal', hlive', horphan', hbuffers'⟩
          have hnot := not_mem_ids_of_nodup (hnodup list hlist) heq
          have hmem : e ∈ list := by simp [heq]
          obtain ⟨hid, hdata⟩ := hlive list hlist e hmem
          have hsame : s'.view.node e.id = s.view.node e.id := by
            rw [hview', View.node_updateAll, if_neg hnot]
          have hsame' : s'.view.deref? e.inode = s.view.deref? e.inode := by
            simp only [View.deref?, hid, hsame]
          cases hn : s.view.deref? e.inode with
          | none =>
              rw [Program.ends_bind]
              exact ends_onInode_undefined (hsame'.trans hn)
                (Or.inr ⟨rfl, list, e, hlist, hmem, hn⟩)
          | some n =>
              obtain ⟨hnode, haddr⟩ := View.deref?_eq_some.mp hn
              rw [hid] at hnode
              have hptr : e.inode = ⟨e.id, n.addr⟩ := by rw [haddr, ← hid]
              have hturn := h'.ends_unlinkVolume (hsame.trans hnode) hptr hcur (hdata n hn)
              refine hturn.mono ?_ fun _ _ he => he.elim
              rintro _ s'' ⟨h'', hview'', hlocal'', horphan'', hbuffers''⟩
              refine ⟨h'', ?_, ?_, ?_, fun hclean horphan =>
                horphan'' ?_ ?_ (horphan' hclean horphan), fun b hb =>
                hbuffers'' b (hbuffers' b hb)⟩
              · rw [hview'', hview', View.update_updateAll hnot, List.map_append]
                rfl
              · intro j hj
                simp only [List.map_append, List.map_cons, List.map_nil, List.mem_append,
                  List.mem_singleton, not_or] at hj
                rw [hlocal'' j hj.2, hlocal' j hj.1]
              · intro i hi
                rcases List.mem_append.mp hi with hi | hi
                · exact hlive' i hi
                · rw [List.mem_singleton.mp hi]
                  exact ⟨n, hn⟩
              · intro node hnode'
                rw [hlocal' _ hnot] at hnode'
                exact (hclean list hlist e hmem).2 node hnode'
              · intro node hnode'
                rw [hlocal' _ hnot] at hnode'
                exact (hclean list hlist e hmem).1 node hnode'
        · rintro _ s' ⟨h', hview', _, hlive', horphan', hbuffers'⟩
          refine ⟨h'.withListing _, ?_, horphan', hbuffers'⟩
          have hview : InodeSmi.view { s' with
              snapshotVersionList := s'.snapshotVersionList.erase ver } =
              s'.view.setListing ver none := by
            simp only [InodeSmi.view, View.setListing, View.mk.injEq, true_and, and_true]
            funext u
            exact getElem?_erase_version
          rw [hview, hview']
          exact View.DeletesSnapshot.mk list hcur hlist hlive'

end Snapshots

end Htmpfs
