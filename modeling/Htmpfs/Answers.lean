import Mathlib
import Htmpfs.Asks
import Htmpfs.FailedCalls
import Htmpfs.Refusals
import Htmpfs.Symlinks

/-!
# How the callbacks answer

A callback does what it was asked for and returns its result, or it returns an
errno, has changed nothing, and could not have done it.  Only exhausted memory
keeps it from doing what is possible.
-/

namespace Htmpfs

open Program (Ends)

/-- A callback returned: it did what it was asked for, or it could not. -/
def Settled (fs : Trees) (s : InodeSmi) (call : FuseCall) (r : ℤ) (s' : InodeSmi) : Prop :=
  BlocksOk s' ∧ ((r = call.result ∧ ∃ a, call.Asks a ∧ s.view.Acts a s'.view) ∨
    r < 0 ∧ s'.view = s.view ∧ ¬ call.Possible fs)

/-- The calls that the code has no answer to: `do_unlink` counts down from below zero where the path
has no components, and `do_truncate` goes on without an inode after any error but a missing file. -/
def InodeSmi.Derails (s : InodeSmi) : FuseCall → Prop
  | .unlink path => comps path.1 = [] ∧ path.1 ≠ [slash]
  | .truncate path _ => (∃ q, LeadsInto path.1 curModifiableVer q) ∧
      ∃ code, InodeSmi.getInodeIdByPath path.1 s = .error (.htmpfs code) ∧ code ≠ .noSuchFileOrDir
  | _ => False

/-- A callback ran out of memory, or into undefined behaviour where the code has no answer. -/
def Aborted (fs : Trees) (s : InodeSmi) (call : FuseCall) (e : Exit) : Prop :=
  e = .badAlloc ∨ e = .undefined ∧ s.Derails call ∧ ¬ call.Possible fs

/-- An exception before anything was done, or none that the callback could answer. -/
def Declined (fs : Trees) (s : InodeSmi) (call : FuseCall) (e : Exit) (s' : InodeSmi) : Prop :=
  Aborted fs s call e ∨ e.Reported ∧ Kept s s' ∧ ¬ call.Possible fs

section Rules

variable {ctx : FuseContext} {s s' : InodeSmi} {fs : Trees} {call : FuseCall} {e : Exit}
  {path : Bytes} {cs : List Bytes} {name : Bytes} {list : List InodeResult}

theorem Aborted.not_thrown (h : Aborted fs s call e) : ¬ e.Thrown := by
  rcases h with rfl | ⟨rfl, _⟩
  · exact Exit.not_thrown_badAlloc
  · exact Exit.not_thrown_undefined

theorem Aborted.of_possible (h : Aborted fs s call e) (hpossible : call.Possible fs) :
    e = .badAlloc := by
  rcases h with rfl | ⟨_, _, hno⟩
  · rfl
  · exact absurd hpossible hno

theorem Declined.badAlloc : Declined fs s call .badAlloc s' := Or.inl (Or.inl rfl)

theorem declined_of_derails (h : s.Derails call) (hno : ¬ call.Possible fs) :
    Declined fs s call .undefined s' :=
  Or.inl (Or.inr ⟨rfl, h, hno⟩)

theorem declined_of_reported (h : BlocksOk s) (he : e.Reported) (hno : ¬ call.Possible fs) :
    Declined fs s call e s :=
  Or.inr ⟨he, Kept.refl h, hno⟩

theorem settled_of_rofs (h : BlocksOk s) (hno : ¬ call.Possible fs) :
    Settled fs s call (-(eRofs : ℤ)) s :=
  ⟨h, Or.inr ⟨by decide, rfl, hno⟩⟩

namespace Fuse

/-- `CATCH_TAIL` around a callback. -/
theorem ends_settled {body : SmiM ℤ} (h : Ends body s (Settled fs s call) (Declined fs s call)) :
    Ends (catchTail ctx body) s (Settled fs s call) (fun e _ => Aborted fs s call e) := by
  apply (ends_catchTail h ?_).mono
  · exact fun _ _ hr => hr
  · rintro e s' ⟨hnot, habort | ⟨hreported, _⟩⟩
    · exact habort
    · exact absurd hreported.thrown hnot
  · rintro e s' (habort | ⟨hreported, ⟨h', hview⟩, hno⟩) hthrown
    · exact absurd hthrown habort.not_thrown
    · exact ⟨h', Or.inr ⟨hreported.caught_neg ctx, hview, hno⟩⟩

theorem settled_checkRdonlyFs (h : BlocksOk s) {rest : SmiM ℤ}
    (hable : call.Possible fs → ∃ q, LeadsInto path curModifiableVer q)
    (hrest : ∀ q, liveComps (comps path) = .ok (curModifiableVer, q) →
      Ends rest s (Settled fs s call) (Declined fs s call)) :
    Ends (checkRdonlyFs path rest) s (Settled fs s call) (Declined fs s call) := by
  apply ends_checkRdonlyFs hrest
  · intro ver q hver hne
    apply settled_of_rofs h
    intro hpossible
    obtain ⟨q', hlead⟩ := hable hpossible
    rw [leadsInto_iff.mp hlead] at hver
    exact hne (congrArg Prod.fst (Except.ok.inj hver)).symm
  · intro e he
    refine declined_of_reported h (liveComps_error he ▸ reported_invalidDentryName) ?_
    intro hpossible
    obtain ⟨q, hlead⟩ := hable hpossible
    rw [leadsInto_iff.mp hlead] at he
    simp at he

/-- The parent of a path. -/
theorem settled_resolveParent (h : BlocksOk s) (hw : Orderly s.view)
    (hpath : comps path = cs ++ [name])
    (hable : call.Possible fs → ∃ id, s.view.resolveComps cs = .ok id) {Q : ℕ → InodeSmi → Prop}
    (hQ : ∀ id, s.view.resolveComps cs = .ok id → Q id s) :
    Ends (Program.reads (InodeSmi.getInodeIdByPath (PathT.toString ⟨[] :: cs⟩))) s Q
      (Declined fs s call) := by
  have hcs : ∀ c ∈ cs, IsName c := fun c hc =>
    isName_of_mem_comps (p := path) c (by simp [hpath, hc])
  rw [Program.ends_reads, h.resolve_eq, View.resolve_toString hcs]
  refine ⟨hQ, fun e he => declined_of_reported h (hw.resolveComps_reported hcs he) ?_⟩
  intro hpossible
  obtain ⟨id, hid⟩ := hable hpossible
  rw [hid] at he
  simp at he

/-- A new child, its attributes, and what a callback does with it. -/
theorem settled_newChild (h : BlocksOk s) (hw : Orderly s.view)
    (hlist : s.view.listing curModifiableVer = some list)
    {parent : ℕ} {isDir : Bool} {f : Stat → Stat} {α : Type} {rest : PoolPtr → SmiM α}
    {Q : α → InodeSmi → Prop} (hable : call.Possible fs → s.view.Creatable parent name)
    (hQ : ∀ ptr n s', BlocksOk s' → s.view.MakesChild parent name isDir ptr.id s'.view →
      s'.view.deref? ptr = some n → n.isDentry = isDir → n.data curModifiableVer = some [] →
      Ends (rest ptr) s' Q (Declined fs s call)) :
    Ends (do
      let id ← InodeSmi.makeChildDentryUnderParent parent name isDir
      let inode ← Program.reads (InodeSmi.getInodeById id)
      setStat inode f
      rest inode) s Q (Declined fs s call) := by
  by_cases hcreatable : s.view.Creatable parent name
  · refine ends_newChild h hlist hQ fun e s' _ he => ?_
    rw [he hcreatable]
    exact Declined.badAlloc
  · rw [Program.ends_bind]
    refine (h.makeChild_objects hw.toSound hcreatable).mono (fun _ _ hfalse => hfalse.elim) ?_
    rintro e s' ⟨rfl, he⟩
    exact declined_of_reported h he fun hpossible => hcreatable (hable hpossible)

end Fuse

end Rules

/-! ## New entries -/

section Entries

variable {ctx : FuseContext} {s : InodeSmi} {fs : Trees} {call : FuseCall} {path : CString}
  {name : Bytes} {cs rest : List Bytes} {list : List InodeResult}

/-- What was entered is what the path asked for. -/
theorem View.MakesChild.asked {w w' : View} {parent id : ℕ} {isDir : Bool} {path : Bytes}
    (hmake : w.MakesChild parent name isDir id w') (hpath : comps path = cs ++ [name])
    (hlive : liveComps (comps path) = .ok (curModifiableVer, rest))
    (hparent : w.resolveComps cs = .ok parent) :
    ∃ front, w.Way front parent ∧ name ≠ [] ∧ ∀ e, AsksEntry path e (.add front name e) := by
  have hcs : cs ≠ [snapshotEntry] := by
    rintro rfl
    rw [View.resolveComps_snapshotEntry] at hparent
    simp at hparent
  obtain ⟨front, rfl, hresolve⟩ := exists_front hpath hlive hcs
  refine ⟨front, (hresolve w parent).mp hparent, (isName_of_concat hpath).ne_nil, fun e => ?_⟩
  exact ⟨front, name, leadsInto_iff.mpr hlive, hmake.nameChar, rfl⟩

namespace Fuse

/-- The callbacks that make an inode and set its attributes. -/
theorem settled_newChild_zero (h : BlocksOk s) (hw : Orderly s.view) (hshows : s.view.Shows fs)
    (hpath : comps path.1 = cs ++ [name])
    (hlive : liveComps (comps path.1) = .ok (curModifiableVer, rest)) (hfits : NameFits name)
    (isDir : Bool) {f : Stat → Stat}
    (hasks : ∀ a, call.Asks a → AsksEntry path.1 (if isDir then .dir else .leaf []) a)
    (hasked : ∀ a, AsksEntry path.1 (if isDir then .dir else .leaf []) a → call.Asks a)
    (hzero : call.result = 0) :
    Ends (do
      let parentId ← Program.reads (InodeSmi.getInodeIdByPath (PathT.toString ⟨[] :: cs⟩))
      let id ← InodeSmi.makeChildDentryUnderParent parentId name isDir
      let inode ← Program.reads (InodeSmi.getInodeById id)
      setStat inode f
      pure 0) s (Settled fs s call) (Declined fs s call) := by
  obtain ⟨list, hlist⟩ := hw.links.exists_current
  have hable : call.Possible fs →
      ∃ parent, s.view.resolveComps cs = .ok parent ∧ s.view.Creatable parent name := by
    rintro ⟨a, fs', ha, hdo⟩
    exact hshows.able_entry hw hpath (hasks a ha) hdo
  rw [Program.ends_bind]
  refine settled_resolveParent h hw hpath (fun hpossible => ?_) fun parent hparent => ?_
  · obtain ⟨parent, hparent, _⟩ := hable hpossible
    exact ⟨parent, hparent⟩
  refine settled_newChild h hw hlist (fun hpossible => ?_) fun ptr n s' h' hmake _ _ _ => ?_
  · obtain ⟨parent', hparent', hcreatable⟩ := hable hpossible
    rw [Except.ok.inj (hparent.symm.trans hparent')]
    exact hcreatable
  · obtain ⟨front, hway, hname, hall⟩ := hmake.asked hpath hlive hparent
    exact ⟨h', Or.inl ⟨hzero.symm, _, hasked _ (hall _), View.Acts.makes hway hname hfits hmake⟩⟩

theorem not_asksEntry_of_nil {path : Bytes} (hnil : comps path = []) {e : PathTree.Entry Bytes}
    {a : Volume.Action Bytes Bytes SnapshotVer} : ¬ AsksEntry path e a := by
  rintro ⟨front, name, hlead, _⟩
  rw [leadsInto_iff, hnil] at hlead
  simp [liveComps, pure, Except.pure] at hlead

theorem fits_of_comps {name : Bytes} (hfit : call.NamesFit) (hnew : call.newPath = some path)
    (hpath : comps path.1 = cs ++ [name]) : NameFits name :=
  hfit path hnew name (by simp [hpath])

theorem settled_doCreate (h : BlocksOk s) (hw : Orderly s.view) (hshows : s.view.Shows fs)
    {mode : ℕ}
    (hfit : (FuseCall.create path mode).NamesFit) :
    Ends (doCreate ctx path mode) s (Settled fs s (.create path mode))
      (fun e _ => Aborted fs s (.create path mode) e) := by
  apply ends_settled
  refine settled_checkRdonlyFs h ?_ fun rest hlive => ?_
  · rintro ⟨a, _, ⟨front, name, hlead, _⟩, _⟩
    exact ⟨_, hlead⟩
  rw [Program.ends_bind]
  refine ends_popPath (fun hnil => ?_) fun cs name hpath => ?_
  · refine declined_of_reported h reported_invalidDentryName ?_
    rintro ⟨a, _, hasks, _⟩
    exact not_asksEntry_of_nil hnil hasks
  simp only [PathT.size, List.length_cons, Nat.add_eq_zero_iff, one_ne_zero, and_false, if_false]
  exact settled_newChild_zero h hw hshows hpath hlive (fits_of_comps hfit rfl hpath) false
    (fun _ ha => ha) (fun _ ha => ha) rfl

theorem settled_doMknod (h : BlocksOk s) (hw : Orderly s.view) (hshows : s.view.Shows fs)
    {mode device : ℕ} (hfit : (FuseCall.mknod path mode device).NamesFit) :
    Ends (doMknod ctx path mode device) s (Settled fs s (.mknod path mode device))
      (fun e _ => Aborted fs s (.mknod path mode device) e) := by
  apply ends_settled
  refine settled_checkRdonlyFs h ?_ fun rest hlive => ?_
  · rintro ⟨a, _, ⟨front, name, hlead, _⟩, _⟩
    exact ⟨_, hlead⟩
  rw [Program.ends_bind]
  refine ends_popPath (fun hnil => ?_) fun cs name hpath => ?_
  · refine declined_of_reported h reported_invalidDentryName ?_
    rintro ⟨a, _, hasks, _⟩
    exact not_asksEntry_of_nil hnil hasks
  simp only [isEmpty_of_concat hpath, Bool.false_eq_true, if_false]
  exact settled_newChild_zero h hw hshows hpath hlive (fits_of_comps hfit rfl hpath) false
    (fun _ ha => ha) (fun _ ha => ha) rfl

/-- The snapshots are made and deleted by the paths below `/.snapshot`. -/
theorem settled_doMkdir (h : BlocksOk s) (hw : Orderly s.view) (hshows : s.view.Shows fs) {mode : ℕ}
    (hfit : (FuseCall.mkdir path mode).NamesFit) :
    Ends (doMkdir ctx path mode) s (Settled fs s (.mkdir path mode))
      (fun e _ => Aborted fs s (.mkdir path mode) e) := by
  apply ends_settled
  rw [Program.ends_bind]
  refine ends_popPath (fun hnil => ?_) fun cs name hpath => ?_
  · refine declined_of_reported h reported_invalidDentryName ?_
    rintro ⟨a, _, ⟨ver, hpath, _⟩ | hasks, _⟩
    · rw [pathname_iff, hnil] at hpath
      simp at hpath
    · exact not_asksEntry_of_nil hnil hasks
  simp only [isEmpty_of_concat hpath, Bool.false_eq_true, if_false]
  split_ifs with hsnap
  · -- a snapshot
    obtain rfl := isSnapshotDir_iff.mp hsnap
    rw [Program.ends_bind]
    refine (h.ends_createSnapshot_of_links hw.links _).mono ?_ ?_
    · rintro _ s' ⟨h', hcreate, _⟩
      refine ⟨h', Or.inl ⟨rfl, .freeze name, Or.inl ⟨name, pathname_iff.mpr hpath, ?_, rfl⟩, ?_⟩⟩
      · exact hcreate.ne_current
      · exact View.Acts.creates hcreate
    · rintro e s' ⟨rfl, rfl, hlisted⟩
      refine declined_of_reported h (Exit.reported_of_errno (by decide)) ?_
      rintro ⟨a, fs', ⟨ver, hpath', hver, rfl⟩ | ⟨front, name', hlead, _⟩, hdo⟩
      · rw [pathname_iff, hpath] at hpath'
        obtain rfl : name = ver := by simpa using hpath'
        cases hdo with
        | freeze hnew =>
            rw [Ne, ← Option.not_isSome_iff_eq_none, not_not,
              ← hshows.isSome_frozen hw.toNamed hver, hnew] at hlisted
            exact absurd hlisted (by simp)
      · exact ne_snapshotEntry_of_live hpath (leadsInto_iff.mp hlead) rfl
  · have hcs : cs ≠ [snapshotEntry] := fun heq => hsnap (isSnapshotDir_iff.mpr heq)
    have hasks : ∀ a, (FuseCall.mkdir path mode).Asks a → AsksEntry path.1 .dir a := by
      rintro a (⟨ver, hpath', _⟩ | hasks)
      · rw [pathname_iff, hpath] at hpath'
        have hsplit : cs ++ [name] = [snapshotEntry] ++ [ver] := hpath'
        exact absurd (List.append_inj' hsplit rfl).1 hcs
      · exact hasks
    refine settled_checkRdonlyFs h ?_ fun rest hlive => ?_
    · rintro ⟨a, _, ha, _⟩
      obtain ⟨front, name', hlead, _⟩ := hasks a ha
      exact ⟨_, hlead⟩
    exact settled_newChild_zero h hw hshows hpath hlive (fits_of_comps hfit rfl hpath) true hasks
      (fun _ ha => Or.inr ha) rfl

/-- A new file that gets its first bytes is what the path asked for. -/
theorem settled_newFile (h : BlocksOk s) (hw : Orderly s.view)
    (hlist : s.view.listing curModifiableVer = some list) {path : Bytes}
    (hpath : comps path = cs ++ [name])
    (hlive : liveComps (comps path) = .ok (curModifiableVer, rest)) (hfits : NameFits name)
    {parent : ℕ} (hparent : s.view.resolveComps cs = .ok parent)
    (hable : call.Possible fs → s.view.Creatable parent name) {f : Stat → Stat} {α : Type}
    {next : PoolPtr → SmiM α} {Q : α → InodeSmi → Prop} (g : Bytes → Bytes)
    (hasked : ∀ a, AsksEntry path (.leaf (g [])) a → call.Asks a)
    (hQ : ∀ ptr n s', BlocksOk s' → s'.view.deref? ptr = some n → n.isDentry = false →
      n.data curModifiableVer = some [] →
      (∃ a, call.Asks a ∧ s.view.Acts a (s'.view.setCurrent ptr.id g)) →
      Ends (next ptr) s' Q (Declined fs s call)) :
    Ends (do
      let id ← InodeSmi.makeChildDentryUnderParent parent name false
      let inode ← Program.reads (InodeSmi.getInodeById id)
      setStat inode f
      next inode) s Q (Declined fs s call) := by
  refine settled_newChild h hw hlist hable fun ptr n s' h' hmake hn hfile hdata => ?_
  obtain ⟨front, hway, hname, hall⟩ := hmake.asked hpath hlive hparent
  exact hQ ptr n s' h' hn hfile hdata
    ⟨_, hasked _ (hall _), View.Acts.makesFile g hway hname hfits hmake⟩

theorem settled_doSymlink (h : BlocksOk s) (hw : Orderly s.view) (hshows : s.view.Shows fs)
    {target : CString} (hfit : (FuseCall.symlink path target).NamesFit) :
    Ends (doSymlink ctx path target) s (Settled fs s (.symlink path target))
      (fun e _ => Aborted fs s (.symlink path target) e) := by
  obtain ⟨list, hlist⟩ := hw.links.exists_current
  apply ends_settled
  refine settled_checkRdonlyFs h ?_ fun q hq => ?_
  · rintro ⟨a, _, ⟨hlead, _⟩, _⟩
    exact hlead
  refine settled_checkRdonlyFs h ?_ fun rest hlive => ?_
  · rintro ⟨a, _, ⟨_, front, name, hlead, _⟩, _⟩
    exact ⟨_, hlead⟩
  rw [Program.ends_bind]
  refine ends_popPath (fun hnil => ?_) fun cs name hpath => ?_
  · refine declined_of_reported h reported_invalidDentryName ?_
    rintro ⟨a, _, ⟨_, hasks⟩, _⟩
    exact not_asksEntry_of_nil hnil hasks
  simp only [isEmpty_of_concat hpath, Bool.false_eq_true, if_false]
  have hable : (FuseCall.symlink path target).Possible fs →
      ∃ parent, s.view.resolveComps cs = .ok parent ∧ s.view.Creatable parent name := by
    rintro ⟨a, fs', ha, hdo⟩
    exact hshows.able_entry hw hpath ha.2 hdo
  rw [Program.ends_bind]
  refine settled_resolveParent h hw hpath (fun hpossible => ?_) fun parent hparent => ?_
  · obtain ⟨parent, hparent, _⟩ := hable hpossible
    exact ⟨parent, hparent⟩
  have hlen : target.1.length ≠ 0 := by
    intro hzero
    rw [List.length_eq_zero_iff.mp hzero] at hpath
    have hnil : comps [] = [] := rfl
    rw [hnil] at hpath
    simp at hpath
  -- the bytes of the link
  have hbytes : Bank.writeBytes target.1 0 true [] = target.1 := by
    simp [Bank.writeBytes, hlen, Blocks.overwrite, Blocks.resize]
  have hasks : ∀ a, AsksEntry target.1 (.leaf (Bank.writeBytes target.1 0 true [])) a →
      (FuseCall.symlink path target).Asks a := by
    intro a ha
    simp only [hbytes] at ha
    exact ⟨⟨q, leadsInto_iff.mpr hq⟩, ha⟩
  refine settled_newFile h hw hlist hpath hlive (fits_of_comps hfit rfl hpath) hparent
    (fun hpossible => ?_) (Bank.writeBytes target.1 0 true) hasks
    fun ptr n s' h' hn hfile hdata hasked => ?_
  · obtain ⟨parent', hparent', hcreatable⟩ := hable hpossible
    rw [Except.ok.inj (hparent.symm.trans hparent')]
    exact hcreatable
  have hfits := target.2.2
  rw [Program.ends_bind]
  refine (h'.ends_write hn _ _ (by omega) hdata).mono ?_ ?_
  · rintro _ s'' ⟨h'', _, _, hview, _⟩
    exact ⟨h'', Or.inl ⟨rfl, hview ▸ hasked⟩⟩
  · rintro e s'' (rfl | ⟨_, ⟨hdir, _⟩ | ⟨_, _, hresize, _⟩⟩)
    · exact Declined.badAlloc
    · simp [hfile] at hdir
    · simp at hresize

end Fuse

end Entries

/-! ## Other bytes -/

section Bytes

variable {ctx : FuseContext} {s : InodeSmi} {fs : Trees} {call : FuseCall} {path : CString}
  {name : Bytes} {cs rest : List Bytes} {w : View} {e : Exit} {id : ℕ} {n : NodeView} {c : Bytes}

/-- The bytes of the file are what the path asked for. -/
theorem View.Acts.of_resolve {path : Bytes} {f : Bytes → Bytes}
    (hlive : liveComps (comps path) = .ok (curModifiableVer, rest)) (hid : w.resolve path = .ok id)
    (hn : w.node id = some n) (hfile : n.isDentry = false) :
    ∃ a, AsksBytes path f a ∧ w.Acts a (w.setCurrent id f) := by
  have habs := View.absolute_of_resolve hid
  exact ⟨_, ⟨rest, habs, leadsInto_iff.mpr hlive, rfl⟩,
    View.Acts.rewrites f ((View.resolve_iff_way habs hlive).mp hid) hn hfile⟩

theorem View.Shows.able_bytes (hshows : w.Shows fs) {path : Bytes} {f : Bytes → Bytes}
    {a : Volume.Action Bytes Bytes SnapshotVer} {fs' : Trees} (hasks : AsksBytes path f a)
    (hdo : fs.Does a fs') : ∃ id n c, w.LeadsToFile path id n c := by
  obtain ⟨q, habs, hlead, rfl⟩ := hasks
  cases hdo with
  | @rewrite _ _ x hleaf =>
      obtain ⟨id, n, hto⟩ := hshows.leadsToFile habs hlead hleaf
      exact ⟨id, n, x, hto⟩

/-- What can be entered is missing. -/
theorem View.Shows.resolve_missing (hshows : w.Shows fs) (h : Orderly w) {path : Bytes}
    {e : PathTree.Entry Bytes} {a : Volume.Action Bytes Bytes SnapshotVer} {fs' : Trees}
    (habs : Absolute path) (hasks : AsksEntry path e a) (hdo : fs.Does a fs') :
    w.resolve path = .error (.htmpfs .noSuchFileOrDir) := by
  obtain ⟨front, name, hlead, hchars, rfl⟩ := hasks
  have hlive := leadsInto_iff.mp hlead
  have hname : IsName name :=
    isName_of_mem_comps (p := path) name (mem_of_mem_liveComps hlive (by simp))
  cases hdo with
  | add hp hnew =>
      obtain ⟨parent, hway, _, t, ht, hfree⟩ := hshows.creatable h hp hnew hname.ne_nil hchars
      have hlookup :
          w.walk curModifiableVer parent [name] = .error (.htmpfs .noSuchFileOrDir) := by
        rw [View.walk, if_neg (by simpa using hname.ne_nil), ht]
        exact Program.bind_eq_error.mpr (Or.inr ⟨t, rfl,
          Program.bind_eq_error.mpr (Or.inl (View.lookup_eq_error hfree))⟩)
      rw [View.resolve_eq_resolveComps habs, View.resolveComps_of_live hlive, View.walk_append,
        hway.walk]
      exact hlookup

namespace Fuse

theorem settled_inodeByPath (h : BlocksOk s) (hw : Orderly s.view)
    (hable : call.Possible fs → ∃ id n, s.view.resolve path.1 = .ok id ∧ s.view.node id = some n)
    {Q : PoolPtr → InodeSmi → Prop}
    (hQ : ∀ id n, s.view.resolve path.1 = .ok id → s.view.node id = some n → Q ⟨id, n.addr⟩ s) :
    Ends (inodeByPath path.1) s Q (Declined fs s call) := by
  unfold inodeByPath
  rw [Program.ends_bind, Program.ends_reads, h.resolve_eq]
  refine ⟨fun id hid => ?_, fun e he => declined_of_reported h (hw.resolve_reported he) ?_⟩
  swap
  · intro hpossible
    obtain ⟨id, n, hid, _⟩ := hable hpossible
    rw [hid] at he
    simp at he
  rw [Program.ends_reads, getInodeById_eq]
  cases hn : s.view.node id with
  | none =>
      refine ⟨by simp, fun e he => ?_⟩
      obtain rfl := Except.error.inj he
      refine declined_of_reported h (Exit.reported_of_errno (by decide)) ?_
      intro hpossible
      obtain ⟨id', n, hid', hn'⟩ := hable hpossible
      rw [← Except.ok.inj (hid.symm.trans hid'), hn] at hn'
      simp at hn'
  | some n =>
      refine ⟨fun ptr hptr => ?_, by simp⟩
      obtain rfl := Except.ok.inj hptr
      exact hQ id n hid hn

/-- `truncate` is the last that `do_truncate` and `do_fallocate` do. -/
theorem settled_truncate {s₁ : InodeSmi} (h₁ : BlocksOk s₁) {ptr : PoolPtr}
    (hn : s₁.view.deref? ptr = some n) {length : ℕ} (hzero : call.result = 0)
    (hasked : ∃ a, call.Asks a ∧ s.view.Acts a (s₁.view.setCurrent ptr.id (Blocks.resize 0 length))) :
    Ends (do InodeSmi.onInode ptr (Inode.truncate length); pure 0) s₁ (Settled fs s call)
      (Declined fs s call) := by
  rw [Program.ends_bind]
  refine (h₁.ends_truncate hn).mono ?_ ?_
  · rintro _ s' ⟨h', hview, _⟩
    exact ⟨h', Or.inl ⟨hzero.symm, hview ▸ hasked⟩⟩
  · rintro e s' rfl
    exact Declined.badAlloc

theorem settled_doFallocate (h : BlocksOk s) (hw : Orderly s.view) (hshows : s.view.Shows fs)
    {mode : ℕ} {offset length : ℤ}
    (hcut : ¬ s.view.CutsDirectory (.fallocate path mode offset length)) :
    Ends (doFallocate ctx path mode offset length) s (Settled fs s (.fallocate path mode offset length))
      (fun e _ => Aborted fs s (.fallocate path mode offset length) e) := by
  apply ends_settled
  refine settled_checkRdonlyFs h ?_ fun rest hlive => ?_
  · rintro ⟨a, _, ⟨q, _, hlead, _⟩, _⟩
    exact ⟨q, hlead⟩
  rw [Program.ends_bind]
  refine settled_inodeByPath h hw ?_ fun id n hid hn => ?_
  · rintro ⟨a, fs', ha, hdo⟩
    obtain ⟨id, n, c, hto⟩ := hshows.able_bytes ha hdo
    exact ⟨id, n, hto.resolves, hto.node⟩
  have hfile : n.isDentry = false := by
    rw [← Bool.not_eq_true]
    exact fun hdir => hcut ⟨path, id, n, rfl, hid, hn, hdir⟩
  have hderef : s.view.deref? ⟨id, n.addr⟩ = some n := View.deref?_of_node hn
  rw [Program.ends_bind]
  refine (ends_setStat h hderef).mono ?_ fun _ _ hfalse => hfalse.elim
  rintro _ s₁ ⟨h₁, hview⟩
  rw [← hview] at hderef
  exact settled_truncate h₁ hderef rfl (hview.symm ▸ View.Acts.of_resolve hlive hid hn hfile)

/-- The bytes that `do_write` leaves are what it was asked for. -/
theorem written_eq_asked {buffer : Bytes} {offset : ℕ} {resize : Bool}
    (hresize : resize = decide (offset + buffer.length > c.length)) :
    Bank.writeBytes buffer offset resize c =
      if buffer = [] then c else pwrite buffer offset c := by
  split_ifs with hnil
  · simp [hnil, Bank.writeBytes]
  · rw [hresize, ← written_eq_pwrite hnil]
    rfl

theorem settled_doWrite (h : BlocksOk s) (hw : Orderly s.view) (hshows : s.view.Shows fs)
    {buffer : Bytes} {offset : ℤ} (hvalid : (FuseCall.write path buffer offset).Valid) :
    Ends (doWrite ctx path buffer offset) s (Settled fs s (.write path buffer offset))
      (fun e _ => Aborted fs s (.write path buffer offset) e) := by
  obtain ⟨hoffset, hfits⟩ := hvalid
  obtain ⟨k, rfl⟩ := Int.eq_ofNat_of_zero_le hoffset
  have hk : k + buffer.length < 2 ^ 63 := by exact_mod_cast hfits
  have hoff : offToU64 (k : ℤ) = k := by
    unfold offToU64
    omega
  have hu : u64 (k + buffer.length) = k + buffer.length := Nat.mod_eq_of_lt (by omega)
  have hable : (FuseCall.write path buffer k).Possible fs →
      ∃ id n c, s.view.LeadsToFile path.1 id n c := by
    rintro ⟨a, fs', ha, hdo⟩
    exact hshows.able_bytes ha hdo
  apply ends_settled
  refine settled_checkRdonlyFs h (fun hpossible => ?_) fun rest hlive => ?_
  · obtain ⟨id, n, c, hto⟩ := hable hpossible
    obtain ⟨q, hlive⟩ := hto.live
    exact ⟨q, leadsInto_iff.mpr hlive⟩
  rw [Program.ends_bind]
  refine settled_inodeByPath h hw (fun hpossible => ?_) fun id n hid hn => ?_
  · obtain ⟨id, n, c, hto⟩ := hable hpossible
    exact ⟨id, n, hto.resolves, hto.node⟩
  have hderef : s.view.deref? ⟨id, n.addr⟩ = some n := View.deref?_of_node hn
  obtain ⟨c, hc⟩ := h.data_current hn
  obtain ⟨node, hnode, _, hnv, hval⟩ := deref_of_view hderef
  have hsize : (do
      let self ← InodeSmi.deref ⟨id, n.addr⟩ s
      self.currentDataSize s.bufferPool curModifiableVer) = .ok c.length := by
    have hdata : node.val.data s.bufferPool curModifiableVer = some c := by
      rw [← hnv] at hc
      exact hc
    simp only [hval, bind, Except.bind, (h.inode _ node hnode).1.currentDataSize_eq, hdata]
  simp only [Program.ends_bind]
  refine Program.Ends.reads_ok hsize ?_
  refine (ends_setStat h hderef).mono ?_ fun _ _ hfalse => hfalse.elim
  rintro _ s₁ ⟨h₁, hview₁⟩
  rw [← hview₁] at hderef
  rw [hoff, hu]
  refine (h₁.ends_write hderef _ _ (by omega) hc).mono ?_ ?_
  · rintro count s' ⟨h', hcount, hkind, hview, _, _⟩
    have hfile : n.isDentry = false := by simpa using hkind
    obtain ⟨a, ha, hacts⟩ := View.Acts.of_resolve hlive hid hn hfile
      (f := fun c => if buffer = [] then c else pwrite buffer k c)
    refine ⟨h', Or.inl ⟨?_, a, ha, ?_⟩⟩
    · have hlength : count = buffer.length := by
        rw [hcount]
        unfold Bank.writeCount
        split_ifs with hzero hgrow
        · exact hzero.symm
        · rfl
        · simp only [decide_eq_true_eq] at hgrow
          omega
        · simp only [decide_eq_true_eq] at hgrow
          omega
      rw [hlength]
      rfl
    · rw [hview, hview₁, View.setCurrent_congr (g := fun c => if buffer = [] then c else
        pwrite buffer k c) hn hc (written_eq_asked rfl)]
      exact hacts
  · rintro e s' (rfl | ⟨rfl, ⟨hdir, rfl⟩ | ⟨_, hne, hgrow, hend, _⟩⟩)
    · exact Declined.badAlloc
    · refine Or.inr ⟨Exit.reported_of_errno (by decide), ⟨h₁, hview₁⟩, fun hpossible => ?_⟩
      obtain ⟨id', n', c', hto⟩ := hable hpossible
      obtain rfl := Except.ok.inj (hid.symm.trans hto.resolves)
      obtain rfl := Option.some.inj (hn.symm.trans hto.node)
      simp [hto.file] at hdir
    · simp only [decide_eq_false_iff_not] at hgrow
      omega

theorem settled_truncateTarget (h : BlocksOk s) (hw : Orderly s.view) (hshows : s.view.Shows fs)
    {size : ℤ} (hfit : (FuseCall.truncate path size).NamesFit)
    (hcut : ¬ s.view.CutsDirectory (.truncate path size))
    (hlive : liveComps (comps path.1) = .ok (curModifiableVer, rest)) :
    Ends (truncateTarget ctx path size) s
      (fun found s₁ => match found with
        | none => s.Derails (.truncate path size) ∧ ¬ (FuseCall.truncate path size).Possible fs
        | some ptr => BlocksOk s₁ ∧ (∃ n, s₁.view.deref? ptr = some n) ∧
            ∃ a, (FuseCall.truncate path size).Asks a ∧
              s.view.Acts a (s₁.view.setCurrent ptr.id (Blocks.resize 0 (offToU64 size))))
      (Declined fs s (.truncate path size)) := by
  obtain ⟨list, hlist⟩ := hw.links.exists_current
  unfold truncateTarget inodeByPath
  rw [Program.ends_tryCatch, Program.ends_bind, Program.ends_bind, Program.ends_reads, h.resolve_eq]
  refine ⟨fun id hid => ?_, fun e he => ?_⟩
  · -- the path resolves
    obtain ⟨n, hn, _⟩ := hw.links.live_of_listsId (hw.toNamed.way_listed
      ((View.resolve_iff_way (View.absolute_of_resolve hid) hlive).mp hid))
    have hfile : n.isDentry = false := by
      rw [← Bool.not_eq_true]
      exact fun hdir => hcut ⟨path, id, n, rfl, hid, hn, hdir⟩
    refine Program.Ends.reads_ok (a := ⟨id, n.addr⟩) (by rw [getInodeById_eq, hn]) ?_
    obtain ⟨a, ha, hacts⟩ := View.Acts.of_resolve hlive hid hn hfile
    exact ⟨h, ⟨n, View.deref?_of_node hn⟩, a, Or.inl ha, hacts⟩
  have hmissing : (FuseCall.truncate path size).Possible fs →
      e = .htmpfs .noSuchFileOrDir ∧ ∀ cs name, comps path.1 = cs ++ [name] →
        ∃ parent, s.view.resolveComps cs = .ok parent ∧ s.view.Creatable parent name := by
    rintro ⟨a, fs', ha | ⟨habs, ha⟩, hdo⟩
    · obtain ⟨id, n, c, hto⟩ := hshows.able_bytes ha hdo
      rw [hto.resolves] at he
      simp at he
    · refine ⟨?_, fun cs name hpath => hshows.able_entry hw hpath ha hdo⟩
      rw [hshows.resolve_missing hw habs ha hdo] at he
      exact (Except.error.inj he).symm
  obtain ⟨code, rfl, _⟩ := hw.resolve_reported he
  by_cases hcode : code = .noSuchFileOrDir
  · simp only [if_pos hcode]
    rw [Program.ends_bind]
    refine ends_popPath (fun hnil => ?_) fun cs name hpath => ?_
    · refine declined_of_reported h reported_invalidDentryName ?_
      rintro ⟨a, fs', ha | ⟨_, ha⟩, hdo⟩
      · obtain ⟨id, n, c, hto⟩ := hshows.able_bytes ha hdo
        rw [hto.resolves] at he
        simp at he
      · exact not_asksEntry_of_nil hnil ha
    simp only [PathT.size, List.length_cons, Nat.add_eq_zero_iff, one_ne_zero, and_false,
      if_false]
    rw [Program.ends_bind]
    refine settled_resolveParent h hw hpath (fun hpossible => ?_) fun parent hparent => ?_
    · obtain ⟨parent, hparent, _⟩ := (hmissing hpossible).2 cs name hpath
      exact ⟨parent, hparent⟩
    have habs : Absolute path.1 := Or.inr (View.absolute_of_noSuchFileOrDir (hcode ▸ he))
    have hzeros : Blocks.resize 0 (offToU64 size) ([] : Bytes) =
        List.replicate (offToU64 size) 0 := by
      simp [Blocks.resize]
    refine settled_newFile h hw hlist hpath hlive (fits_of_comps hfit rfl hpath) hparent
      (fun hpossible => ?_) (Blocks.resize 0 (offToU64 size)) (fun a ha => ?_)
      fun ptr n s' h' hn hfile hdata hasked => ?_
    · obtain ⟨parent', hparent', hcreatable⟩ := (hmissing hpossible).2 cs name hpath
      rw [Except.ok.inj (hparent.symm.trans hparent')]
      exact hcreatable
    · rw [hzeros] at ha
      exact Or.inr ⟨habs, ha⟩
    · exact ⟨h', ⟨n, hn⟩, hasked⟩
  · simp only [if_neg hcode]
    rw [Program.ends_pure]
    refine ⟨⟨⟨rest, leadsInto_iff.mpr hlive⟩, code, (h.resolve_eq _).trans he, hcode⟩, ?_⟩
    exact fun hpossible => hcode (Exit.htmpfs.inj (hmissing hpossible).1)

theorem settled_doTruncate (h : BlocksOk s) (hw : Orderly s.view) (hshows : s.view.Shows fs)
    {size : ℤ} (hfit : (FuseCall.truncate path size).NamesFit)
    (hcut : ¬ s.view.CutsDirectory (.truncate path size)) :
    Ends (doTruncate ctx path size) s (Settled fs s (.truncate path size))
      (fun e _ => Aborted fs s (.truncate path size) e) := by
  apply ends_settled
  refine settled_checkRdonlyFs h ?_ fun rest hlive => ?_
  · rintro ⟨a, _, ⟨q, _, hlead, _⟩ | ⟨_, front, name, hlead, _⟩, _⟩
    · exact ⟨q, hlead⟩
    · exact ⟨_, hlead⟩
  rw [Program.ends_bind]
  refine (settled_truncateTarget h hw hshows hfit hcut hlive).mono ?_ fun _ _ he => he
  rintro found s₁ hfound
  cases found with
  | none => exact declined_of_derails hfound.1 hfound.2
  | some ptr =>
      obtain ⟨h₁, ⟨n, hn⟩, hasked⟩ := hfound
      exact settled_truncate h₁ hn rfl hasked

end Fuse

end Bytes

end Htmpfs
