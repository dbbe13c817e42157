import Mathlib
import Htmpfs.Rename

/-!
# What the callbacks do

Every callback ends with a step of the view, or returns an errno and leaves
the view alone; `do_rename` and an overlong `do_write` have ways to do both.
-/

namespace Htmpfs

open Program (Ends)

/-- Nothing a user sees has changed. -/
def Kept (s s' : InodeSmi) : Prop := BlocksOk s' ∧ s'.view = s.view

namespace Fuse

/-- The value `CATCH_TAIL` returns for an exception. -/
def caught (ctx : FuseContext) : Exit → ℤ
  | .htmpfs code => -(code.myErrno : ℤ)
  | _ => -(ctx.errno : ℤ)

section Rules

variable {ctx : FuseContext} {s : InodeSmi} {path : Bytes}

theorem ends_catchTail {σ : Type} {s : σ} {body : EStateM Exit σ ℤ} {Q : ℤ → σ → Prop}
    {E : Exit → σ → Prop} (h : Ends body s Q E) (hE : ∀ e s', E e s' → e.Thrown → Q (caught ctx e) s') :
    Ends (catchTail ctx body) s Q (fun e s' => ¬ e.Thrown ∧ E e s') := by
  unfold catchTail
  rw [Program.ends_tryCatch]
  refine h.mono (fun _ _ hQ => hQ) fun e s' he => ?_
  cases e with
  | htmpfs code => exact hE _ s' he trivial
  | outOfRange => exact hE _ s' he trivial
  | badAlloc => exact ⟨Exit.not_thrown_badAlloc, he⟩
  | undefined => exact ⟨Exit.not_thrown_undefined, he⟩
  | diverges => exact ⟨Exit.not_thrown_diverges, he⟩

theorem ends_checkRdonlyFs {rest : SmiM ℤ} {Q : ℤ → InodeSmi → Prop}
    {E : Exit → InodeSmi → Prop}
    (hlive : ∀ cs, liveComps (comps path) = .ok (curModifiableVer, cs) → Ends rest s Q E)
    (hother : ∀ ver cs, liveComps (comps path) = .ok (ver, cs) → ver ≠ curModifiableVer →
      Q (-(eRofs : ℤ)) s)
    (hE : ∀ e, liveComps (comps path) = .error e → E e s) :
    Ends (checkRdonlyFs path rest) s Q E := by
  have hfst := ifSnapshot_fst path
  unfold checkRdonlyFs
  rw [Program.ends_bind, Program.ends_reads]
  refine ⟨fun p hp => ?_, fun e he => hE e ?_⟩
  · rw [hp] at hfst
    cases hcs : liveComps (comps path) with
    | error e => simp [hcs, Functor.map, Except.map] at hfst
    | ok q =>
        obtain hver : p.1 = q.1 := by simpa [hcs, Functor.map, Except.map] using hfst
        by_cases hcur : p.1 = curModifiableVer
        · simp only [hcur, ne_eq, not_true_eq_false, if_false]
          exact hlive q.2 (by rw [hcs, ← hcur, hver])
        · simp only [ne_eq, hcur, not_false_eq_true, if_true]
          exact hother q.1 q.2 hcs (hver ▸ hcur)
  · rw [he] at hfst
    cases hcs : liveComps (comps path) with
    | error e' =>
        obtain rfl : e = e' := by simpa [hcs, Functor.map, Except.map] using hfst
        rfl
    | ok q => simp [hcs, Functor.map, Except.map] at hfst

theorem ends_popPath_of {Q : Bytes × PathT → InodeSmi → Prop} {E : Exit → InodeSmi → Prop}
    {cs : List Bytes} {name : Bytes} (hpath : comps path = cs ++ [name])
    (hQ : Q (name, ⟨[] :: cs⟩) s) : Ends (popPath path) s Q E :=
  Program.Ends.reads_ok (popEnd_ofString hpath) hQ

theorem ends_popPath {Q : Bytes × PathT → InodeSmi → Prop} {E : Exit → InodeSmi → Prop}
    (hnil : comps path = [] → Q ([], ⟨[]⟩) s)
    (hcons : ∀ cs name, comps path = cs ++ [name] → Q (name, ⟨[] :: cs⟩) s) :
    Ends (popPath path) s Q E := by
  rcases List.eq_nil_or_concat (comps path) with hpath | ⟨cs, name, hpath⟩
  · exact Program.Ends.reads_ok (popEnd_ofString_nil hpath) (hnil hpath)
  · rw [List.concat_eq_append] at hpath
    exact ends_popPath_of hpath (hcons cs name hpath)

theorem ends_inodeByPath (h : BlocksOk s) {Q : PoolPtr → InodeSmi → Prop}
    {E : Exit → InodeSmi → Prop}
    (hQ : ∀ id n, s.view.resolve path = .ok id → s.view.node id = some n → Q ⟨id, n.addr⟩ s)
    (hE : ∀ e, E e s) : Ends (inodeByPath path) s Q E := by
  unfold inodeByPath
  rw [Program.ends_bind, Program.ends_reads, h.resolve_eq]
  refine ⟨fun id hid => ?_, fun e _ => hE e⟩
  exact ends_getInodeById (fun n hn => hQ id n hid hn) fun e _ _ => hE e

/-- The attributes of an inode are no part of the view. -/
theorem ends_setStat (h : BlocksOk s) {ptr : PoolPtr} {n : NodeView}
    (hn : s.view.deref? ptr = some n) {f : Stat → Stat} :
    Ends (setStat ptr f) s (fun _ s' => Kept s s') (fun _ _ => False) := by
  obtain ⟨node, hnode, haddr, rfl⟩ := view_deref?_eq_some.mp hn
  obtain ⟨hok, _, _⟩ := h.inode _ node hnode
  unfold setStat
  rw [ends_onInode hnode haddr, Program.ends_modify]
  set v' : InodeView :=
    ⟨s.bufferPool, { node.val with fsStat := f node.val.fsStat }⟩ with hv'
  have hframe : Frame ⟨s.bufferPool, node.val⟩ v' :=
    { blockSize := rfl, inodeId := rfl, isDentry := rfl, kept := fun _ _ _ => rfl,
      fresh := fun _ hb => Or.inl hb, keys := fun _ hb => Or.inl hb }
  have hok' : v'.self.Ok v'.bufferPool :=
    { blockSize_pos := hok.blockSize_pos, blockSize_lt := hok.blockSize_lt, current := hok.current,
      list := hok.list, unfrozen := hok.unfrozen, count := hok.count }
  refine ⟨h.withInode hnode hok' hframe h.bufferSmall, ?_⟩
  rw [h.view_withInode hnode hframe (f := fun n => n) rfl]
  unfold View.update
  have hsame : (fun j => if j = ptr.id then
      (s.view.node ptr.id).bind fun n => some n else s.view.node j) = s.view.node := by
    funext j
    split_ifs with hj
    · rw [hj]
      cases s.view.node ptr.id <;> rfl
    · rfl
  rw [hsame]

end Rules

end Fuse

/-! ## Effects -/

/-- The path under which a callback enters an inode in a directory. -/
def FuseCall.newPath : FuseCall → Option CString
  | mkdir path _ => some path
  | create path _ => some path
  | truncate path _ => some path
  | symlink _ target => some target
  | rename _ name => some name
  | mknod path _ _ => some path
  | _ => none

/-- The directory and the name under which a callback enters an inode. -/
def View.Enters (w : View) (call : FuseCall) (parent : ℕ) (name : Bytes) : Prop :=
  ∃ path cs, call.newPath = some path ∧ comps path.1 = cs ++ [name] ∧
    w.resolveComps cs = .ok parent ∧
    ∃ rest, liveComps (comps path.1) = .ok (curModifiableVer, rest)

/-- The call cuts or extends the file of a path, whatever that file is. -/
def FuseCall.Cuts : FuseCall → CString → Prop
  | truncate path _, p => p = path
  | fallocate path _ _ _, p => p = path
  | _, _ => False

/-- The path leads to a directory that the call would cut. -/
def View.CutsDirectory (w : View) (call : FuseCall) : Prop :=
  ∃ path id n, call.Cuts path ∧ w.resolve path.1 = .ok id ∧ w.node id = some n ∧
    n.isDentry = true

/-- The callbacks that change directories only. -/
def FuseCall.ChangesNames : FuseCall → Prop
  | mkdir _ _ => True
  | create _ _ => True
  | mknod _ _ _ => True
  | symlink _ _ => True
  | unlink _ => True
  | rmdir _ => True
  | rename _ _ => True
  | _ => False

/-- What both halves of `do_rename` start from. -/
structure View.RenameArgs (w : View) (path name : Bytes) (cs : List Bytes) (originalName : Bytes)
    (ds : List Bytes) (targetName : Bytes) (id parent : ℕ) : Prop where
  hpath : comps path = cs ++ [originalName]
  hname : comps name = ds ++ [targetName]
  live : ∃ rest, liveComps (comps path) = .ok (curModifiableVer, rest)
  live' : ∃ rest, liveComps (comps name) = .ok (curModifiableVer, rest)
  source : w.resolve path = .ok id
  target : w.resolveComps ds = .ok parent

/-- `do_rename` as it is meant: the inode is entered under the new name, and the old name goes. -/
inductive View.Renames (w : View) (path name : Bytes) : View → Prop
  | mk {cs : List Bytes} {originalName : Bytes} {ds : List Bytes} {targetName : Bytes}
      {id parent : ℕ} {w₁ w' : View} {originalParent : ℕ}
      (hargs : w.RenameArgs path name cs originalName ds targetName id parent)
      (hrelink : w.Relinks parent targetName id w₁)
      (horiginal : w.resolveComps cs = .ok originalParent)
      (hentry : ∃ t, w.tableAt originalParent curModifiableVer = .ok t ∧
        View.lookup t originalName = .ok id)
      (hdrop : w₁.DropsEntry originalParent originalName w') : Renames w path name w'

/-- `do_rename` that fails half-way: the parent of the old name has no spelling of its own, or
the name of the removed target was in the table twice. -/
inductive View.SpoilsRename (w : View) (path name : Bytes) : View → Prop
  | half {cs : List Bytes} {originalName : Bytes} {ds : List Bytes} {targetName : Bytes}
      {id parent : ℕ} {w' : View}
      (hargs : w.RenameArgs path name cs originalName ds targetName id parent)
      (hcs : cs = [snapshotEntry]) (hrelink : w.Relinks parent targetName id w') :
      SpoilsRename w path name w'
  | twice {cs : List Bytes} {originalName : Bytes} {ds : List Bytes} {targetName : Bytes}
      {id parent : ℕ} {w' : View}
      (hargs : w.RenameArgs path name cs originalName ds targetName id parent)
      (hremove : w.RemovesChild parent targetName w') (hagain : w'.HasName parent targetName) :
      SpoilsRename w path name w'

/-- What a callback does to the view. -/
inductive View.Effect (w : View) (call : FuseCall) : View → Prop
  | none : Effect w call w
  | makes {parent id : ℕ} {name : Bytes} {isDir : Bool} {w' : View}
      (hname : w.Enters call parent name) (hstep : w.MakesChild parent name isDir id w') :
      Effect w call w'
  | makesFile {parent id : ℕ} {name : Bytes} {w' : View} (f : Bytes → Bytes)
      (hname : w.Enters call parent name) (hstep : w.MakesChild parent name false id w') :
      Effect w call (w'.setCurrent id f)
  | removes {path : Bytes} {w' : View} (hstep : w.RemovesPath path w') : Effect w call w'
  | creates {path : CString} {mode : ℕ} {ver : SnapshotVer} {w' : View}
      (hcall : call = .mkdir path mode) (hpath : comps path.1 = [snapshotEntry, ver])
      (hstep : w.CreatesSnapshot ver w') : Effect w call w'
  | deletes {path : CString} {ver : SnapshotVer} {w' : View} (hcall : call = .rmdir path)
      (hpath : comps path.1 = [snapshotEntry, ver]) (hstep : w.DeletesSnapshot ver w') :
      Effect w call w'
  | rewrites {id : ℕ} {n : NodeView} (f : Bytes → Bytes) (hcall : ¬ call.ChangesNames)
      (hn : w.node id = some n) (hfile : n.isDentry = true → w.CutsDirectory call) :
      Effect w call (w.setCurrent id f)
  | renames {path name : CString} {w' : View} (hcall : call = .rename path name)
      (hstep : w.Renames path.1 name.1 w') : Effect w call w'
  | spoils {path name : CString} {w' : View} (hcall : call = .rename path name)
      (hstep : w.SpoilsRename path.1 name.1 w') : Effect w call w'

/-- A callback returned: what it did, and that it did nothing if it returned an errno. -/
structure Returns (s : InodeSmi) (call : FuseCall) (r : ℤ) (s' : InodeSmi) : Prop where
  ok : BlocksOk s'
  effect : s.view.Effect call s'.view
  failed : r < 0 → s'.view = s.view

section Steps

variable {s s' s₁ : InodeSmi} {call : FuseCall} {r : ℤ} {list : List InodeResult}

theorem Kept.returns (h : Kept s s') : Returns s call r s' where
  ok := h.1
  effect := by
    rw [h.2]
    exact View.Effect.none
  failed := fun _ => h.2

theorem Kept.refl (h : BlocksOk s) : Kept s s := ⟨h, rfl⟩

theorem Fails.kept {e : Exit} (h : BlocksOk s) (hfails : Fails s e s') : e.Thrown → Kept s s' :=
  fun hthrown => (hfails hthrown).1.symm ▸ Kept.refl h

theorem View.MakesChild.node_self {w w' : View} {parent id : ℕ} {name : Bytes} {isDir : Bool}
    (hstep : w.MakesChild parent name isDir id w') :
    w'.node id = some ⟨1, w.nextAddr, isDir,
      fun ver => if ver = curModifiableVer then some [] else none⟩ := by
  rcases hstep with ⟨n, t, list, hname, hparent, htable, hnew, hfree, hid, hsize, hlist⟩
  have hne : id ≠ parent := by
    rintro rfl
    rw [hfree] at hparent
    simp at hparent
  rw [View.node_setListing, View.node_setCurrent, if_neg hne, View.node_addNode, if_pos rfl]

namespace Fuse

/-- A new child, its attributes, and what a callback does with it. -/
theorem ends_newChild (h : BlocksOk s) (hlist : s.view.listing curModifiableVer = some list)
    {parent : ℕ} {name : Bytes} {isDir : Bool} {f : Stat → Stat} {α : Type}
    {rest : PoolPtr → SmiM α} {Q : α → InodeSmi → Prop} {E : Exit → InodeSmi → Prop}
    (hQ : ∀ ptr n s', BlocksOk s' → s.view.MakesChild parent name isDir ptr.id s'.view →
      s'.view.deref? ptr = some n → n.isDentry = isDir → n.data curModifiableVer = some [] →
      Ends (rest ptr) s' Q E)
    (hE : ∀ e s', Fails s e s' → (s.view.Creatable parent name → e = .badAlloc) → E e s') :
    Ends (do
      let id ← InodeSmi.makeChildDentryUnderParent parent name isDir
      let inode ← Program.reads (InodeSmi.getInodeById id)
      setStat inode f
      rest inode) s Q E := by
  simp only [Program.ends_bind]
  refine (h.ends_makeChild hlist).mono ?_ fun e s' he => hE e s' he.1 he.2
  rintro id s₁ ⟨h₁, hmake, _⟩
  have hnode := hmake.node_self
  refine Program.Ends.reads_ok (a := ⟨id, s.view.nextAddr⟩)
    (by rw [getInodeById_eq, hnode]) ?_
  have hderef : s₁.view.deref? ⟨id, s.view.nextAddr⟩ = _ := View.deref?_of_node hnode
  refine (ends_setStat h₁ hderef).mono ?_ fun _ _ hfalse => hfalse.elim
  rintro _ s₂ ⟨h₂, hview⟩
  rw [← hview] at hmake hderef
  exact hQ ⟨id, s.view.nextAddr⟩ _ s₂ h₂ hmake hderef rfl (by simp)

variable {ctx : FuseContext}

/-- A callback whose exceptions leave the view alone. -/
theorem ends_callback {body : SmiM ℤ}
    (h : Ends body s (Returns s call) (fun e s' => e.Thrown → Kept s s')) :
    Ends (catchTail ctx body) s (Returns s call) (fun e _ => ¬ e.Thrown) :=
  (ends_catchTail h fun _ _ he hthrown => (he hthrown).returns).mono (fun _ _ hr => hr)
    fun _ _ he => he.1

theorem returns_zero (hok : BlocksOk s') (heffect : s.view.Effect call s'.view) :
    Returns s call 0 s' where
  ok := hok
  effect := heffect
  failed := fun hneg => absurd hneg (lt_irrefl _)

theorem kept_of_throw (h : BlocksOk s) {e : Exit} : e.Thrown → Kept s s := fun _ => Kept.refl h

/-- The parent of a path that a callback has popped the last component off. -/
theorem ends_resolveParent (h : BlocksOk s) {path : Bytes} {cs : List Bytes} {name : Bytes}
    (hpath : comps path = cs ++ [name]) {Q : ℕ → InodeSmi → Prop}
    (hQ : ∀ id, s.view.resolveComps cs = .ok id → Q id s) :
    Ends (Program.reads (InodeSmi.getInodeIdByPath (PathT.toString ⟨[] :: cs⟩))) s Q
      (fun e s' => e.Thrown → Kept s s') := by
  have hcs : ∀ c ∈ cs, IsName c := fun c hc =>
    isName_of_mem_comps (p := path) c (by simp [hpath, hc])
  refine (h.ends_resolve fun id hid => ?_).mono (fun _ _ hq => hq) fun _ _ he => he.kept h
  exact hQ id (by rw [← View.resolve_toString hcs, hid])

/-- The end of the callbacks that make an inode and only set its attributes. -/
theorem ends_newChild_zero (h : BlocksOk s) (hlist : s.view.listing curModifiableVer = some list)
    {parent : ℕ} {name : Bytes} {isDir : Bool} {f : Stat → Stat} (hname : s.view.Enters call parent name) :
    Ends (do
      let id ← InodeSmi.makeChildDentryUnderParent parent name isDir
      let inode ← Program.reads (InodeSmi.getInodeById id)
      setStat inode f
      pure 0) s (Returns s call) (fun e s' => e.Thrown → Kept s s') :=
  ends_newChild h hlist
    (fun _ _ _ h' hmake _ _ _ => returns_zero h' (View.Effect.makes hname hmake))
    fun _ _ he _ => he.kept h

/-- The path in front of the name is `/.snapshot`. -/
theorem comps_of_isSnapshotDir {cs : List Bytes} (h : isSnapshotDir ⟨[] :: cs⟩ = true) :
    cs = [snapshotEntry] := by
  unfold isSnapshotDir PathT.size at h
  cases cs with
  | nil => simp at h
  | cons c cs =>
      cases cs with
      | nil => simpa using h
      | cons c' cs => simp at h

theorem ends_doMkdir (h : BlocksOk s) (hl : Links False s.view) {path : CString} {mode : ℕ} :
    Ends (doMkdir ctx path mode) s (Returns s (.mkdir path mode)) (fun e _ => ¬ e.Thrown) := by
  obtain ⟨list, hlist⟩ := hl.exists_current
  refine ends_callback ?_
  rw [Program.ends_bind]
  refine ends_popPath (fun _ => kept_of_throw h) fun cs name hpath => ?_
  simp only [isEmpty_of_concat hpath, Bool.false_eq_true, if_false]
  split_ifs with hsnap
  · rw [Program.ends_bind]
    refine (h.ends_createSnapshot_of_links hl _).mono ?_ fun _ _ he => he.fails.kept h
    rintro _ s' ⟨h', hstep, _⟩
    rw [comps_of_isSnapshotDir hsnap] at hpath
    exact returns_zero h' (View.Effect.creates rfl hpath hstep)
  · refine ends_checkRdonlyFs (fun rest hlive => ?_) (fun _ _ _ _ => (Kept.refl h).returns)
      fun _ _ => kept_of_throw h
    rw [Program.ends_bind]
    refine ends_resolveParent h hpath fun parent hparent => ?_
    exact ends_newChild_zero h hlist ⟨path, cs, rfl, hpath, hparent, rest, hlive⟩

theorem ends_doCreate (h : BlocksOk s) (hl : Links False s.view) {path : CString} {mode : ℕ} :
    Ends (doCreate ctx path mode) s (Returns s (.create path mode)) (fun e _ => ¬ e.Thrown) := by
  obtain ⟨list, hlist⟩ := hl.exists_current
  refine ends_callback ?_
  refine ends_checkRdonlyFs (fun rest hlive => ?_) (fun _ _ _ _ => (Kept.refl h).returns)
    fun _ _ => kept_of_throw h
  rw [Program.ends_bind]
  refine ends_popPath (fun _ => kept_of_throw h) fun cs name hpath => ?_
  simp only [PathT.size, List.length_cons, Nat.add_eq_zero_iff, one_ne_zero, and_false, if_false]
  rw [Program.ends_bind]
  refine ends_resolveParent h hpath fun parent hparent => ?_
  exact ends_newChild_zero h hlist ⟨path, cs, rfl, hpath, hparent, rest, hlive⟩

theorem ends_doMknod (h : BlocksOk s) (hl : Links False s.view) {path : CString}
    {mode device : ℕ} :
    Ends (doMknod ctx path mode device) s (Returns s (.mknod path mode device))
      (fun e _ => ¬ e.Thrown) := by
  obtain ⟨list, hlist⟩ := hl.exists_current
  refine ends_callback ?_
  refine ends_checkRdonlyFs (fun rest hlive => ?_) (fun _ _ _ _ => (Kept.refl h).returns)
    fun _ _ => kept_of_throw h
  rw [Program.ends_bind]
  refine ends_popPath (fun _ => kept_of_throw h) fun cs name hpath => ?_
  simp only [isEmpty_of_concat hpath, Bool.false_eq_true, if_false]
  rw [Program.ends_bind]
  refine ends_resolveParent h hpath fun parent hparent => ?_
  exact ends_newChild_zero h hlist ⟨path, cs, rfl, hpath, hparent, rest, hlive⟩

theorem ends_doSymlink (h : BlocksOk s) (hl : Links False s.view) {path target : CString} :
    Ends (doSymlink ctx path target) s (Returns s (.symlink path target))
      (fun e _ => ¬ e.Thrown) := by
  obtain ⟨list, hlist⟩ := hl.exists_current
  refine ends_callback ?_
  refine ends_checkRdonlyFs (fun rest hlive => ?_) (fun _ _ _ _ => (Kept.refl h).returns)
    fun _ _ => kept_of_throw h
  refine ends_checkRdonlyFs (fun rest hlive => ?_) (fun _ _ _ _ => (Kept.refl h).returns)
    fun _ _ => kept_of_throw h
  rw [Program.ends_bind]
  refine ends_popPath (fun _ => kept_of_throw h) fun cs name hpath => ?_
  simp only [isEmpty_of_concat hpath, Bool.false_eq_true, if_false]
  rw [Program.ends_bind]
  refine ends_resolveParent h hpath fun parent hparent => ?_
  refine ends_newChild h hlist ?_ fun _ _ he _ => he.kept h
  intro ptr n s' h' hmake hn hfile hdata
  rw [Program.ends_bind]
  have hfits := target.2.2
  -- the new inode is a regular file, which takes the bytes unless memory runs out
  refine (h'.ends_write hn _ _ (by omega) hdata).mono ?_ ?_
  · rintro count s'' ⟨h'', _, _, hview, _, _⟩
    refine returns_zero h'' ?_
    rw [hview]
    exact View.Effect.makesFile _ ⟨target, cs, rfl, hpath, hparent, rest, hlive⟩ hmake
  · rintro e s'' (rfl | ⟨_, ⟨hdir, _⟩ | ⟨_, _, hresize, _⟩⟩) hthrown
    · exact absurd hthrown Exit.not_thrown_badAlloc
    · simp [hfile] at hdir
    · simp at hresize

/-- A callback that sets attributes only. -/
theorem ends_setStat_zero (h : BlocksOk s) {ptr : PoolPtr} {n : NodeView}
    (hn : s.view.deref? ptr = some n) {f : Stat → Stat} :
    Ends (do setStat ptr f; pure 0) s (Returns s call) (fun e s' => e.Thrown → Kept s s') := by
  rw [Program.ends_bind]
  exact (ends_setStat h hn).mono (fun _ _ hkept => hkept.returns) fun _ _ hfalse => hfalse.elim

theorem ends_doChmod (h : BlocksOk s) {path : CString} {mode : ℕ} :
    Ends (doChmod ctx path mode) s (Returns s (.chmod path mode)) (fun e _ => ¬ e.Thrown) := by
  refine ends_callback ?_
  refine ends_checkRdonlyFs (fun _ _ => ?_) (fun _ _ _ _ => (Kept.refl h).returns)
    fun _ _ => kept_of_throw h
  rw [Program.ends_bind]
  refine ends_inodeByPath h (fun id n _ hn => ?_) fun _ => kept_of_throw h
  exact ends_setStat_zero h (View.deref?_of_node hn)

theorem ends_doChown (h : BlocksOk s) {path : CString} {uid gid : ℕ} :
    Ends (doChown ctx path uid gid) s (Returns s (.chown path uid gid))
      (fun e _ => ¬ e.Thrown) := by
  refine ends_callback ?_
  refine ends_checkRdonlyFs (fun _ _ => ?_) (fun _ _ _ _ => (Kept.refl h).returns)
    fun _ _ => kept_of_throw h
  rw [Program.ends_bind]
  refine ends_inodeByPath h (fun id n _ hn => ?_) fun _ => kept_of_throw h
  exact ends_setStat_zero h (View.deref?_of_node hn)

theorem ends_doUtimens (h : BlocksOk s) {path : CString} {atim mtim : Timespec} :
    Ends (doUtimens ctx path atim mtim) s (Returns s (.utimens path atim mtim))
      (fun e _ => ¬ e.Thrown) := by
  refine ends_callback ?_
  refine ends_checkRdonlyFs (fun _ _ => ?_) (fun _ _ _ _ => (Kept.refl h).returns)
    fun _ _ => kept_of_throw h
  rw [Program.ends_bind]
  refine ends_inodeByPath h (fun id n _ hn => ?_) fun _ => kept_of_throw h
  exact ends_setStat_zero h (View.deref?_of_node hn)

theorem ends_doRead (h : BlocksOk s) {path : CString} {size : ℕ} {offset : ℤ} :
    Ends (doRead ctx path size offset) s (Returns s (.read path size offset))
      (fun e _ => ¬ e.Thrown) := by
  refine ends_callback ?_
  rw [Program.ends_bind, Program.ends_reads]
  refine ⟨fun p _ => ?_, fun _ _ => kept_of_throw h⟩
  rw [Program.ends_bind]
  refine ends_inodeByPath h (fun id n _ hn => ?_) fun _ => kept_of_throw h
  rw [Program.ends_bind]
  refine (ends_setStat h (View.deref?_of_node hn)).mono ?_ fun _ _ hfalse => hfalse.elim
  rintro _ s' hkept
  rw [Program.ends_bind, Program.ends_reads]
  exact ⟨fun _ _ => hkept.returns, fun _ _ _ => hkept⟩

theorem ends_doUnlink (h : BlocksOk s) (hl : Links False s.view) {path : CString} :
    Ends (doUnlink ctx path) s (Returns s (.unlink path)) (fun e _ => ¬ e.Thrown) := by
  obtain ⟨list, hlist⟩ := hl.exists_current
  refine ends_callback ?_
  refine ends_checkRdonlyFs (fun _ _ => ?_) (fun _ _ _ _ => (Kept.refl h).returns)
    fun _ _ => kept_of_throw h
  rw [Program.ends_bind]
  refine (h.ends_removeInodeByPath hlist).mono ?_ fun _ _ he => he.1.kept h
  rintro _ s' ⟨h', hstep⟩
  exact returns_zero h' (View.Effect.removes hstep)

theorem ends_doRmdir (h : BlocksOk s) (hl : Links False s.view) {path : CString} :
    Ends (doRmdir ctx path) s (Returns s (.rmdir path)) (fun e _ => ¬ e.Thrown) := by
  obtain ⟨list, hlist⟩ := hl.exists_current
  refine ends_callback ?_
  rw [Program.ends_bind]
  refine ends_popPath (fun _ => kept_of_throw h) fun cs name hpath => ?_
  dsimp only
  split_ifs with _ _ hsnap
  · exact kept_of_throw h
  · exact (Kept.refl h).returns
  · rw [Program.ends_bind]
    refine (h.ends_deleteSnapshot_of_links hl _).mono ?_ fun _ _ he => he.fails.kept h
    rintro _ s' ⟨h', hstep, _⟩
    rw [comps_of_isSnapshotDir hsnap] at hpath
    exact returns_zero h' (View.Effect.deletes rfl hpath hstep)
  · refine ends_checkRdonlyFs (fun _ _ => ?_) (fun _ _ _ _ => (Kept.refl h).returns)
      fun _ _ => kept_of_throw h
    rw [Program.ends_bind]
    refine (h.ends_removeInodeByPath hlist).mono ?_ fun _ _ he => he.1.kept h
    rintro _ s' ⟨h', hstep⟩
    exact returns_zero h' (View.Effect.removes hstep)

theorem ends_doFallocate (h : BlocksOk s) {path : CString} {mode : ℕ} {offset length : ℤ} :
    Ends (doFallocate ctx path mode offset length) s
      (Returns s (.fallocate path mode offset length)) (fun e _ => ¬ e.Thrown) := by
  refine ends_callback ?_
  refine ends_checkRdonlyFs (fun _ _ => ?_) (fun _ _ _ _ => (Kept.refl h).returns)
    fun _ _ => kept_of_throw h
  rw [Program.ends_bind]
  refine ends_inodeByPath h (fun id n hid hn => ?_) fun _ => kept_of_throw h
  rw [Program.ends_bind]
  have hderef : s.view.deref? ⟨id, n.addr⟩ = some n := View.deref?_of_node hn
  refine (ends_setStat h hderef).mono ?_ fun _ _ hfalse => hfalse.elim
  rintro _ s' ⟨h', hview⟩
  rw [Program.ends_bind]
  rw [← hview] at hderef
  refine (h'.ends_truncate hderef).mono ?_ fun _ _ he hthrown =>
    absurd (he ▸ hthrown) Exit.not_thrown_badAlloc
  rintro _ s'' ⟨h'', hview', _, _⟩
  refine returns_zero h'' ?_
  rw [hview', hview]
  exact View.Effect.rewrites _ (by simp [FuseCall.ChangesNames]) hn fun hdir =>
    ⟨path, id, n, rfl, hid, hn, hdir⟩

theorem ends_doTruncate (h : BlocksOk s) (hl : Links False s.view) {path : CString} {size : ℤ} :
    Ends (doTruncate ctx path size) s (Returns s (.truncate path size))
      (fun e _ => ¬ e.Thrown) := by
  obtain ⟨list, hlist⟩ := hl.exists_current
  refine ends_callback ?_
  refine ends_checkRdonlyFs (fun rest hlive => ?_) (fun _ _ _ _ => (Kept.refl h).returns)
    fun _ _ => kept_of_throw h
  rw [Program.ends_bind]
  -- the inode of the path, or a new one
  have htarget : Ends (truncateTarget ctx path size) s
      (fun found s' => ∀ ptr, found = some ptr → BlocksOk s' ∧
        (∃ n, s'.view.deref? ptr = some n) ∧ ∀ f,
          s.view.Effect (.truncate path size) (s'.view.setCurrent ptr.id f))
      (fun e s' => e.Thrown → Kept s s') := by
    unfold truncateTarget
    rw [Program.ends_tryCatch, Program.ends_bind]
    refine ends_inodeByPath h (fun id n hid hn => ?_) fun e => ?_
    · intro ptr hptr
      obtain rfl := Option.some.inj hptr
      exact ⟨h, ⟨n, View.deref?_of_node hn⟩, fun f =>
        View.Effect.rewrites f (by simp [FuseCall.ChangesNames]) hn fun hdir =>
          ⟨path, id, n, rfl, hid, hn, hdir⟩⟩
    · cases e with
      | htmpfs code =>
          by_cases hcode : code = .noSuchFileOrDir
          · simp only [if_pos hcode]
            rw [Program.ends_bind]
            refine ends_popPath (fun _ => kept_of_throw h) fun cs name hpath => ?_
            simp only [PathT.size, List.length_cons, Nat.add_eq_zero_iff, one_ne_zero, and_false,
              if_false]
            rw [Program.ends_bind]
            refine ends_resolveParent h hpath fun parent hparent => ?_
            refine ends_newChild h hlist ?_ fun _ _ he _ => he.kept h
            rintro ptr n s' h' hmake hn _ _ ptr' hptr
            obtain rfl := Option.some.inj hptr
            exact ⟨h', ⟨n, hn⟩, fun f =>
              View.Effect.makesFile f ⟨path, cs, rfl, hpath, hparent, rest, hlive⟩ hmake⟩
          · simp only [if_neg hcode]
            intro ptr hptr
            simp at hptr
      | outOfRange => exact kept_of_throw h
      | badAlloc => exact kept_of_throw h
      | undefined => exact kept_of_throw h
      | diverges => exact kept_of_throw h
  refine htarget.mono ?_ fun _ _ he => he
  rintro found s' hfound
  cases found with
  | none => exact fun hthrown => absurd hthrown Exit.not_thrown_undefined
  | some ptr =>
      obtain ⟨h', ⟨n, hn⟩, heffect⟩ := hfound ptr rfl
      rw [Program.ends_bind]
      refine (h'.ends_truncate hn).mono ?_ fun _ _ he hthrown =>
        absurd (he ▸ hthrown) Exit.not_thrown_badAlloc
      rintro _ s'' ⟨h'', hview, _, _⟩
      refine returns_zero h'' ?_
      rw [hview]
      exact heffect _

end Fuse

/-! ## `do_write` -/

/-- The path leads to a regular file of the current version, with these bytes. -/
structure View.LeadsToFile (w : View) (path : Bytes) (id : ℕ) (n : NodeView) (c : Bytes) : Prop where
  live : ∃ rest, liveComps (comps path) = .ok (curModifiableVer, rest)
  resolves : w.resolve path = .ok id
  node : w.node id = some n
  file : n.isDentry = false
  data : n.data curModifiableVer = some c

/-- The bytes after `do_write`, which asks for a resize when the file is too short. -/
def written (buffer : Bytes) (offset : ℕ) (old : Bytes) : Bytes :=
  Bank.writeBytes buffer offset (decide (offset + buffer.length > old.length)) old

/-- Only what becomes of the current bytes matters. -/
theorem View.setCurrent_congr {w : View} {id : ℕ} {n : NodeView} {c : Bytes} {f g : Bytes → Bytes}
    (hn : w.node id = some n) (hc : n.data curModifiableVer = some c) (hfg : f c = g c) :
    w.setCurrent id f = w.setCurrent id g := by
  unfold View.setCurrent View.update
  simp only [View.mk.injEq, and_self, and_true, true_and]
  funext j
  split_ifs with hj
  · rw [hn, Option.bind_some, Option.bind_some]
    unfold NodeView.setCurrent
    simp only [Option.some.injEq, NodeView.mk.injEq, true_and]
    funext ver
    split_ifs with hver
    · rw [hver, hc, Option.map_some, Option.map_some, hfg]
    · rfl
  · rfl

theorem Fuse.ends_doWrite (h : BlocksOk s) {ctx : FuseContext} {path : CString} {buffer : Bytes}
    {offset : ℤ} (hoffset : 0 ≤ offset) (hfits : offset + buffer.length < 2 ^ 63) :
    Ends (doWrite ctx path buffer offset) s
      (fun r s' => (Kept s s' ∧ ∀ id n c, ¬ s.view.LeadsToFile path.1 id n c) ∨
        ∃ id n c, s.view.LeadsToFile path.1 id n c ∧ BlocksOk s' ∧ r = toInt buffer.length ∧
          s'.view = s.view.setCurrent id fun _ => written buffer offset.toNat c)
      (fun e _ => ¬ e.Thrown ∧ ∀ id n c, s.view.LeadsToFile path.1 id n c → e = .badAlloc) := by
  obtain ⟨k, rfl⟩ := Int.eq_ofNat_of_zero_le hoffset
  have hk : k + buffer.length < 2 ^ 63 := by exact_mod_cast hfits
  have hoff : offToU64 (k : ℤ) = k := by
    unfold offToU64
    omega
  have hu : u64 (k + buffer.length) = k + buffer.length := Nat.mod_eq_of_lt (by omega)
  unfold doWrite
  -- unless memory runs out, it fails only where there is no file to write
  refine (ends_catchTail (E := fun e s' => e = .badAlloc ∨ Kept s s' ∧
    ∀ id n c, ¬ s.view.LeadsToFile path.1 id n c) ?_ ?_).mono (fun _ _ hr => hr)
    fun e s' he => ⟨he.1, fun id n c hto => he.2.resolve_right fun hno => hno.2 id n c hto⟩
  rotate_left
  · rintro e s' (rfl | hkept) hthrown
    · exact absurd hthrown Exit.not_thrown_badAlloc
    · exact Or.inl hkept
  refine ends_checkRdonlyFs (fun rest hlive => ?_)
    (fun ver rest hver hne => Or.inl ⟨Kept.refl h, fun id n c hto => ?_⟩)
    fun e he => Or.inr ⟨Kept.refl h, fun id n c hto => ?_⟩
  rotate_left
  · obtain ⟨rest', hlive⟩ := hto.live
    rw [hver] at hlive
    exact hne (congrArg Prod.fst (Except.ok.inj hlive))
  · obtain ⟨rest', hlive⟩ := hto.live
    rw [he] at hlive
    simp at hlive
  rw [Program.ends_bind]
  unfold inodeByPath
  rw [Program.ends_bind, Program.ends_reads, h.resolve_eq]
  refine ⟨fun id hid => ?_, fun e he => Or.inr ⟨Kept.refl h, fun id n c hto => ?_⟩⟩
  swap
  · rw [hto.resolves] at he
    simp at he
  refine ends_getInodeById (fun n hn => ?_)
    fun e hnone _ => Or.inr ⟨Kept.refl h, fun id' n c hto => ?_⟩
  swap
  · obtain rfl := Except.ok.inj (hid.symm.trans hto.resolves)
    have hnode := hto.node
    rw [hnone] at hnode
    simp at hnode
  have hderef : s.view.deref? ⟨id, n.addr⟩ = some n := View.deref?_of_node hn
  obtain ⟨c, hc⟩ := h.data_current hn
  obtain ⟨node, hnode, _, hnv, hval⟩ := deref_of_view hderef
  have hsize : (do
      let self ← InodeSmi.deref ⟨id, n.addr⟩ s
      self.currentDataSize s.bufferPool curModifiableVer) = .ok c.length := by
    have hdata : node.val.data s.bufferPool curModifiableVer = some c := by
      rw [← hnv] at hc
      exact hc
    simp only [hval, bind, Except.bind, (h.inode _ node hnode).1.currentDataSize_eq, hdata]
  simp only [Program.ends_bind]
  refine Program.Ends.reads_ok hsize ?_
  refine (ends_setStat h hderef).mono ?_ fun _ _ hfalse => hfalse.elim
  rintro _ s₁ ⟨h₁, hview₁⟩
  rw [← hview₁] at hderef
  rw [hoff, hu]
  refine (h₁.ends_write hderef _ _ (by omega) hc).mono ?_ ?_
  · rintro count s' ⟨h', hcount, hfile, hview, _, _⟩
    have hfile' : n.isDentry = false := by simpa using hfile
    refine Or.inr ⟨id, n, c, ⟨⟨rest, hlive⟩, hid, hn, hfile', hc⟩, h', ?_, ?_⟩
    · have hlength : count = buffer.length := by
        rw [hcount]
        unfold Bank.writeCount
        split_ifs with hzero hgrow
        · exact hzero.symm
        · rfl
        · simp only [decide_eq_true_eq] at hgrow
          omega
        · simp only [decide_eq_true_eq] at hgrow
          omega
      rw [hlength]
    · rw [hview, hview₁]
      exact View.setCurrent_congr hn hc rfl
  · rintro e s' (rfl | ⟨rfl, ⟨hdir, _⟩ | ⟨_, hne, hgrow, hend, _⟩⟩)
    · exact Or.inl rfl
    · refine Or.inr ⟨⟨h₁, hview₁⟩, fun id' n' c' hto => ?_⟩
      obtain rfl := Except.ok.inj (hid.symm.trans hto.resolves)
      obtain rfl := Option.some.inj (hn.symm.trans hto.node)
      simp [hto.file] at hdir
    · simp only [decide_eq_false_iff_not] at hgrow
      omega

end Steps

end Htmpfs
