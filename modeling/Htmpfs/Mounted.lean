import Mathlib
import Htmpfs.Frames
import Htmpfs.Runs

/-!
# Runs of the mounted file system

The callbacks, called one after the other from a new mount.  The block lists
and the version lists stay in order whatever is called; the directories agree
with the version lists as long as no directory is cut.
-/

namespace Htmpfs

open Program (Ends)

/-- The offsets the kernel passes are not negative, and the end of what is written is an `off_t`. -/
def FuseCall.Valid : FuseCall → Prop
  | write _ buffer offset => 0 ≤ offset ∧ offset + buffer.length < 2 ^ 63
  | _ => True

/-- One callback, made where the condition holds, which returned. -/
def FuseStep (cond : View → FuseCall → Prop) (s s' : InodeSmi) : Prop :=
  ∃ ctx call r, FuseCall.Valid call ∧ cond s.view call ∧ call.run ctx s = .ok r s'

/-- The states of a mounted file system of some 64-bit block size whose callbacks met the
condition. -/
def FuseReachableWith (cond : View → FuseCall → Prop) (s : InodeSmi) : Prop :=
  ∃ ctx limits blockSize, 0 < blockSize ∧ blockSize < 2 ^ 64 ∧
    Relation.ReflTransGen (FuseStep cond) (mount ctx limits blockSize) s

/-- The states of a mounted file system of some 64-bit block size. -/
def FuseReachable : InodeSmi → Prop := FuseReachableWith fun _ _ => True

/-! ## What is removed -/

section Removed

variable {w w' : View} {path name : Bytes} {cs ds : List Bytes} {originalName targetName : Bytes}
  {id parent : ℕ} {clean : Prop}

theorem View.descend_start {steps : List Bytes} {count : ℕ} {start ptr : PoolPtr}
    (h : w.descend steps count start = .ok ptr) :
    ptr = start ∨ ∃ t p, w.tableAt start.id curModifiableVer = .ok t ∧ p ∈ t := by
  cases count with
  | zero =>
      rw [show w.descend steps 0 start = .ok start by cases steps <;> rfl] at h
      exact Or.inl (Except.ok.inj h).symm
  | succ count =>
      cases steps with
      | nil =>
          rw [View.descend] at h
          obtain ⟨_, _, h⟩ := Program.bind_eq_ok.mp h
          exact absurd h Program.throw_ne_ok
      | cons it rest =>
          unfold View.descend at h
          obtain ⟨t, ht, h⟩ := Program.bind_eq_ok.mp h
          obtain ⟨k, hk, _⟩ := Program.bind_eq_ok.mp h
          obtain ⟨p, hp, _⟩ := View.lookup_mem hk
          refine Or.inr ⟨t, p, ?_, hp⟩
          unfold View.openDir at ht
          cases hn : w.deref? start with
          | none => simp [hn] at ht
          | some n =>
              rw [hn] at ht
              rw [View.tableAt_of_node (View.deref?_eq_some.mp hn).1]
              exact ht

/-- The root is not removed by a path. -/
theorem View.RemovesPath.removes (hstep : w.RemovesPath path w') (hl : Links clean w) :
    ∃ parent name, w.RemovesChild parent name w' ∧ ∀ t p,
      w.tableAt parent curModifiableVer = .ok t →
      (t.find? fun i => i.pathname = name) = some p → p.inodeId ≠ rootInodeNumber := by
  rcases hstep with ⟨name, ptr, hpath, hname, hparent, hremove⟩
  refine ⟨ptr.id, name, hremove, fun t p ht hp => ?_⟩
  refine hremove.removed_ne_root hl ?_ ht hp
  rcases View.descend_start hparent with rfl | hentry
  · exact ⟨t, p, ht, List.mem_of_find?_eq_some hp⟩
  · exact hentry

/-- Nor by a rename. -/
theorem View.RenameArgs.removed_ne_root
    (hargs : w.RenameArgs path name cs originalName ds targetName id parent)
    (hremove : w.RemovesChild parent targetName w') (hl : Links clean w) {t : List PathPack}
    {p : PathPack} (ht : w.tableAt parent curModifiableVer = .ok t)
    (hp : (t.find? fun i => i.pathname = targetName) = some p) :
    p.inodeId ≠ rootInodeNumber := by
  obtain ⟨rest, hlive⟩ := hargs.live'
  rw [hargs.hname] at hlive
  have htarget := hargs.target
  rcases liveComps_append hlive with rfl | ⟨front, _, hfront⟩
  · rw [View.resolveComps_snapshotEntry] at htarget
    simp at htarget
  · rw [View.resolveComps_of_live hfront] at htarget
    exact hremove.removed_ne_root hl
      (View.exists_root_entry htarget ht (List.mem_of_find?_eq_some hp)) ht hp

end Removed

/-! ## What every callback keeps -/

section Keeps

variable {w w' : View} {call : FuseCall}

theorem Links.removesChild_of_ne_root (h : Links False w) {parent : ℕ} {name : Bytes}
    (hstep : w.RemovesChild parent name w')
    (hroot : ∀ t p, w.tableAt parent curModifiableVer = .ok t →
      (t.find? fun i => i.pathname = name) = some p → p.inodeId ≠ rootInodeNumber) :
    Links False w' :=
  h.removesChild hstep fun t p _ ht hp _ => ⟨hroot t p ht hp, False.elim⟩

theorem Links.relinks (h : Links False w) {path name : Bytes} {cs ds : List Bytes}
    {originalName targetName : Bytes} {id parent : ℕ}
    (hargs : w.RenameArgs path name cs originalName ds targetName id parent)
    (hrelink : w.Relinks parent targetName id w') : Links False w' := by
  rcases hrelink with hadd | ⟨w₀, hremove, hadd⟩
  · exact h.addsEntry hadd
  · exact (h.removesChild_of_ne_root hremove fun _ _ ht hp =>
      hargs.removed_ne_root hremove h ht hp).addsEntry hadd

/-- The version lists stay in order, whatever is called. -/
theorem Links.effect (h : Links False w) (hstep : w.Effect call w') : Links False w' := by
  cases hstep with
  | none => exact h
  | makes _ hstep => exact h.makesChild hstep
  | makesFile f _ hstep => exact (h.makesChild hstep).setCurrent
  | removes hstep =>
      obtain ⟨parent, name, hremove, hroot⟩ := hstep.removes h
      exact h.removesChild_of_ne_root hremove hroot
  | creates _ _ hstep => exact h.createsSnapshot hstep
  | deletes _ _ hstep => exact h.deletesSnapshot hstep
  | rewrites f _ _ _ => exact h.setCurrent
  | renames _ hstep =>
      rcases hstep with ⟨hargs, hrelink, _, _, hdrop⟩
      exact (h.relinks hargs hrelink).dropsEntry hdrop
  | spoils _ hstep =>
      rcases hstep with ⟨hargs, _, hrelink⟩ | ⟨hargs, hremove, _⟩
      · exact h.relinks hargs hrelink
      · exact h.removesChild_of_ne_root hremove fun _ _ ht hp =>
          hargs.removed_ne_root hremove h ht hp

/-- One more entry for the root. -/
theorem Named.addsEntry_root (h : Named w) {parent : ℕ} {name : Bytes}
    (hstep : w.AddsEntry parent name rootInodeNumber w') (hname : 0 ∉ name) : Named w' := by
  obtain ⟨t₀, ht₀, hnew, htables⟩ := hstep.tables hname (by decide)
  have hlists : ∀ u e, w'.Lists u e ↔ w.Lists u e := by
    intro u e
    unfold View.Lists
    rw [hstep.listing_eq]
  have hmem : ∀ j u t, w'.tableAt j u = .ok t → ∀ p ∈ t,
      (∃ told, w.tableAt j u = .ok told ∧ p ∈ told) ∨
        u = curModifiableVer ∧ p.inodeId = rootInodeNumber := by
    intro j u t ht p hp
    rw [htables] at ht
    split_ifs at ht with hcase
    · obtain ⟨rfl, rfl⟩ := hcase
      obtain ⟨_, _, rfl⟩ := View.savedTable_eq_ok.mp ht
      rcases List.mem_append.mp hp with hp | hp
      · exact Or.inl ⟨t₀, ht₀, hp⟩
      · exact Or.inr ⟨rfl, by rw [List.mem_singleton.mp hp]⟩
    · exact Or.inl ⟨t, ht, hp⟩
  refine { links := h.links.addsEntry hstep, rooted := ?_,
           names := (hstep.grows hname (by decide)).names h.names, listed := ?_, unique := ?_ }
  · intro u hu
    rw [hstep.listing_eq] at hu
    exact (hlists u _).mpr (h.rooted u hu)
  · intro j u t ht p hp
    rcases hmem j u t ht p hp with ⟨told, htold, hp⟩ | ⟨rfl, hroot⟩
    · obtain ⟨e, he, hid⟩ := h.listed j u told htold p hp
      exact ⟨e, (hlists u e).mpr he, hid⟩
    · rw [hroot]
      exact ⟨rootEntry, (hlists _ _).mpr h.links.root, rfl⟩
  · intro i j t t' ht ht' p hp q hq hpq hroot
    rcases hmem i _ t ht p hp with ⟨told, htold, hp⟩ | ⟨_, hroot'⟩
    · rcases hmem j _ t' ht' q hq with ⟨told', htold', hq⟩ | ⟨_, hroot'⟩
      · exact h.unique i j told told' htold htold' p hp q hq hpq hroot
      · exact absurd (hpq.trans hroot') hroot
    · exact absurd hroot' hroot

/-- The directories agree with the version lists as long as no directory is cut. -/
theorem Named.effect (h : Named w) (hstep : w.Effect call w') (hcut : ¬ w.CutsDirectory call) :
    Named w' := by
  cases hstep with
  | none => exact h
  | makes _ hstep => exact h.makesChild hstep
  | makesFile f _ hstep => exact (h.makesChild hstep).setCurrent hstep.node_self rfl
  | removes hstep =>
      obtain ⟨parent, name, hremove, hroot⟩ := hstep.removes h.links
      exact h.removesChild hremove hroot
  | creates _ _ hstep => exact h.createsSnapshot hstep
  | deletes _ _ hstep => exact h.deletesSnapshot hstep
  | rewrites f _ hn hfile =>
      refine h.setCurrent hn ?_
      rw [← Bool.not_eq_true]
      exact fun hdir => hcut (hfile hdir)
  | @renames path name _ _ hstep => exact h.renames hstep name.2.1
  | @spoils path name _ _ hstep =>
      obtain ⟨_, _, _, targetName, parent, hargs, hrelink⟩ := hstep.source_root h.links h.names
      have hzero : 0 ∉ targetName := fun hz =>
        name.2.1 (mem_of_mem_comps (by rw [hargs.hname]; simp) hz)
      rcases hrelink with hadd | ⟨w₀, hremove, hadd⟩
      · exact h.addsEntry_root hadd hzero
      · refine Named.addsEntry_root (h.removesChild hremove fun _ _ ht hp => ?_) hadd hzero
        exact hargs.removed_ne_root hremove h.links ht hp

/-- The one callback that makes a version. -/
def FuseCall.CreatesVersion (call : FuseCall) (ver : SnapshotVer) : Prop :=
  ∃ path mode, call = .mkdir path mode ∧ comps path.1 = [snapshotEntry, ver]

section Versions

variable {parent id : ℕ} {name : Bytes} {ver : SnapshotVer}

theorem View.MakesChild.listing_eq {isDir : Bool} (hstep : w.MakesChild parent name isDir id w')
    (hver : ver ≠ curModifiableVer) : w'.listing ver = w.listing ver := by
  rcases hstep with ⟨n, t, list, hname, hparent, htable, hnew, hfree, hid, hsize, hlist⟩
  rw [View.listing_setListing, if_neg hver]
  rfl

theorem View.RemovesChild.listing_eq (hstep : w.RemovesChild parent name w')
    (hver : ver ≠ curModifiableVer) : w'.listing ver = w.listing ver := by
  rcases hstep with ⟨n, t, p, target, list, hparent, htable, hp, htarget, hempty, hsize, hlist⟩
  rw [View.listing_dropLink, View.listing_setListing, if_neg hver]
  rfl

theorem View.Relinks.listing_eq (hstep : w.Relinks parent name id w')
    (hver : ver ≠ curModifiableVer) : w'.listing ver = w.listing ver := by
  rcases hstep with hadd | ⟨w₀, hremove, hadd⟩
  · rw [hadd.listing_eq]
  · rw [hadd.listing_eq, hremove.listing_eq hver]

/-- No other callback adds a version. -/
theorem View.Effect.listing (hstep : w.Effect call w') (hver : ver ≠ curModifiableVer)
    (hlisted : (w'.listing ver).isSome) : (w.listing ver).isSome ∨ call.CreatesVersion ver := by
  have hkept : w'.listing ver = w.listing ver → (w.listing ver).isSome ∨ call.CreatesVersion ver :=
    fun hsame => Or.inl (hsame ▸ hlisted)
  cases hstep with
  | none => exact hkept rfl
  | makes _ hstep => exact hkept (hstep.listing_eq hver)
  | makesFile f _ hstep => exact hkept (hstep.listing_eq hver)
  | removes hstep =>
      obtain ⟨_, _, _, _, _, hremove⟩ := hstep
      exact hkept (hremove.listing_eq hver)
  | @creates path mode u _ hcall hpath hstep =>
      rcases hstep with ⟨list, hnew, hlist⟩
      rw [View.listing_setListing] at hlisted
      split_ifs at hlisted with hu
      · exact Or.inr ⟨path, mode, hcall, hu ▸ hpath⟩
      · exact Or.inl hlisted
  | deletes _ _ hstep =>
      rcases hstep with ⟨list, _, hlist, hlive⟩
      rw [View.listing_setListing] at hlisted
      split_ifs at hlisted with hu
      · simp at hlisted
      · exact Or.inl hlisted
  | rewrites f _ _ _ => exact hkept rfl
  | renames _ hstep =>
      rcases hstep with ⟨_, hrelink, _, _, hdrop⟩
      exact hkept (by rw [hdrop.listing_eq, hrelink.listing_eq hver])
  | spoils _ hstep =>
      rcases hstep with ⟨_, _, hrelink⟩ | ⟨_, hremove, _⟩
      · exact hkept (hrelink.listing_eq hver)
      · exact hkept (hremove.listing_eq hver)

end Versions

/-- Where the inode of a new entry comes from: it is new itself, or it is the source of a rename. -/
def View.Origin (w : View) (call : FuseCall) (name : Bytes) (id : ℕ) : Prop :=
  (name.all InodeSmi.nameChar = true ∧ w.node id = none) ∨
    ∃ path q, call = .rename path q ∧ w.resolve path.1 = .ok id

theorem View.MakesChild.origin {parent id : ℕ} {name : Bytes} {isDir : Bool}
    (hstep : w.MakesChild parent name isDir id w') : w.Origin call name id := by
  rcases hstep with ⟨n, t, list, hname, hparent, htable, hnew, hfree, hid, hsize, hlist⟩
  exact Or.inl ⟨hname, hfree⟩

theorem View.RenameArgs.enters {path name : CString} {cs ds : List Bytes}
    {originalName targetName : Bytes} {id parent : ℕ}
    (hargs : w.RenameArgs path.1 name.1 cs originalName ds targetName id parent) :
    w.Enters (.rename path name) parent targetName :=
  ⟨name, ds, rfl, hargs.hname, hargs.target, hargs.live'⟩

theorem View.Enters.not_mem_zero {parent : ℕ} {name : Bytes} (h : w.Enters call parent name) :
    0 ∉ name := by
  obtain ⟨path, cs, _, hpath, _⟩ := h
  exact fun hz => path.2.1 (mem_of_mem_comps (c := name) (by simp [hpath]) hz)

/-- The entries of a callback are old ones, or the one that it enters. -/
theorem View.Effect.entries (hstep : w.Effect call w') (h : Named w)
    (hcut : ¬ w.CutsDirectory call) {P : ℕ → PathPack → Prop} (hP : w.Entries P)
    (hnew : ∀ parent name id, w.Enters call parent name → w.Origin call name id →
      P parent ⟨name, id⟩) : w'.Entries P := by
  have hnone : ∀ (j : ℕ) (p : PathPack), False → P j p := fun _ _ hfalse => hfalse.elim
  cases hstep with
  | none => exact hP
  | @makes parent id name _ _ henters hstep =>
      refine hstep.grows.entries hP ?_
      rintro j p ⟨rfl, rfl⟩
      exact hnew _ _ _ henters hstep.origin
  | @makesFile parent id name w₁ f henters hstep =>
      have h₁ : w₁.Entries P := by
        refine hstep.grows.entries hP ?_
        rintro j p ⟨rfl, rfl⟩
        exact hnew _ _ _ henters hstep.origin
      exact (View.grows_rewrites hstep.node_self rfl NodeView.rewrites_setCurrent).entries h₁ hnone
  | removes hstep =>
      obtain ⟨parent, name, hremove, _⟩ := hstep.removes h.links
      exact (hremove.grows h.links).entries hP hnone
  | creates _ _ hstep => exact (hstep.grows h.links).entries hP hnone
  | deletes _ _ hstep => exact (hstep.grows h.links).entries hP hnone
  | rewrites f _ hn hfile =>
      have hkind : ¬ _ = true := fun hdir => hcut (hfile hdir)
      exact (View.grows_rewrites hn (by simpa using hkind)
        NodeView.rewrites_setCurrent).entries hP hnone
  | @renames path name _ hcall hstep =>
      subst hcall
      obtain ⟨_, _, _, _, _, _, _, _, hparts⟩ := hstep.parts name.2.1
      obtain ⟨_, _, hargs, _⟩ := hparts.args
      exact hparts.entries h.links hP
        (hnew _ _ _ hargs.enters (Or.inr ⟨path, name, rfl, hargs.source⟩))
  | @spoils path name _ hcall hstep =>
      subst hcall
      obtain ⟨_, _, _, targetName, parent, hargs, hrelink⟩ := hstep.source_root h.links h.names
      have hentry := hnew _ _ _ hargs.enters (Or.inr ⟨path, name, rfl, hargs.source⟩)
      have hadded : ∀ w₀ : View, w₀.AddsEntry parent targetName rootInodeNumber w' →
          w₀.Entries P → w'.Entries P := by
        intro w₀ hadd h₀
        refine (hadd.grows hargs.enters.not_mem_zero (by decide)).entries h₀ ?_
        rintro j p ⟨rfl, rfl⟩
        exact hentry
      rcases hrelink with hadd | ⟨w₀, hremove, hadd⟩
      · exact hadded w hadd hP
      · exact hadded w₀ hadd ((hremove.grows h.links).entries hP hnone)

/-- Tables can be read as long as the names fit and no directory is cut. -/
theorem View.Effect.defined (hstep : w.Effect call w') (h : Named w)
    (hcut : ¬ w.CutsDirectory call)
    (hfits : ∀ parent name, w.Enters call parent name → NameFits name)
    (hdefined : ∀ j u, w.tableAt j u ≠ .error .undefined) :
    ∀ j u, w'.tableAt j u ≠ .error .undefined := by
  cases hstep with
  | none => exact hdefined
  | makes henters hstep => exact hstep.defined (hfits _ _ henters) hdefined
  | makesFile f henters hstep =>
      intro j u
      rw [View.tableAt_setCurrent hstep.node_self rfl]
      exact hstep.defined (hfits _ _ henters) hdefined j u
  | removes hstep =>
      obtain ⟨parent, name, hremove, _⟩ := hstep.removes h.links
      exact hremove.defined h.links hdefined
  | creates _ _ hstep =>
      intro j u hundef
      rcases hstep.tables h.links (j := j) (u := u) with hsame | ⟨e, he, hne⟩
      · exact hdefined j _ (hsame ▸ hundef)
      · exact hne (Except.error.inj (he.symm.trans hundef))
  | deletes _ _ hstep =>
      intro j u hundef
      rcases hstep.tables h.links (j := j) (u := u) with ⟨_, hsame⟩ | ⟨e, he, hne⟩
      · exact hdefined j u (hsame ▸ hundef)
      · exact hne (Except.error.inj (he.symm.trans hundef))
  | @rewrites id n f _ hn hfile =>
      have hkind : ¬ n.isDentry = true := fun hdir => hcut (hfile hdir)
      intro j u
      rw [View.tableAt_setCurrent hn (by simpa using hkind)]
      exact hdefined j u
  | @renames path name _ hcall hstep =>
      subst hcall
      obtain ⟨_, _, _, _, _, _, _, _, hparts⟩ := hstep.parts name.2.1
      obtain ⟨_, _, hargs, _⟩ := hparts.args
      exact hparts.defined h.links (hfits _ _ hargs.enters) hdefined
  | @spoils path name _ hcall hstep =>
      subst hcall
      obtain ⟨_, _, _, targetName, parent, hargs, hrelink⟩ := hstep.source_root h.links h.names
      have hzero := hargs.enters.not_mem_zero
      rcases hrelink with hadd | ⟨w₀, hremove, hadd⟩
      · exact hadd.defined hzero (by decide) (hfits _ _ hargs.enters) hdefined
      · exact hadd.defined hzero (by decide) (hfits _ _ hargs.enters)
          (hremove.defined h.links hdefined)

end Keeps

/-! ## The block size stays -/

section BlockSize

variable {w w' : View} {parent id : ℕ} {name : Bytes}

theorem View.Relinks.blockSize (hstep : w.Relinks parent name id w') :
    w'.blockSize = w.blockSize := by
  rcases hstep with hadd | ⟨w₀, hremove, hadd⟩
  · obtain ⟨g, rfl⟩ := hadd.view_eq
    rfl
  · obtain ⟨g, rfl⟩ := hadd.view_eq
    exact hremove.blockSize

/-- No callback changes the block size. -/
theorem View.Effect.blockSize {call : FuseCall} (hstep : w.Effect call w') :
    w'.blockSize = w.blockSize := by
  cases hstep with
  | none => rfl
  | makes _ hstep => exact hstep.blockSize
  | makesFile f _ hstep => exact hstep.blockSize
  | removes hstep =>
      obtain ⟨_, _, _, _, _, hremove⟩ := hstep
      exact hremove.blockSize
  | creates _ _ hstep => exact hstep.blockSize
  | deletes _ _ hstep => exact hstep.blockSize
  | rewrites f _ _ _ => rfl
  | renames _ hstep =>
      rcases hstep with ⟨_, hrelink, _, _, hdrop⟩
      obtain ⟨g, rfl⟩ := hdrop.view_eq
      exact hrelink.blockSize
  | spoils _ hstep =>
      rcases hstep with ⟨_, _, hrelink⟩ | ⟨_, hremove, _⟩
      · exact hrelink.blockSize
      · exact hremove.blockSize

end BlockSize

/-! ## The root stays a directory -/

/-- The inode of the root is a directory. -/
def View.RootDir (w : View) : Prop :=
  ∀ n, w.node rootInodeNumber = some n → n.isDentry = true

section RootDir

variable {w w' : View} {parent id : ℕ} {name : Bytes} {clean : Prop}
  {f : NodeView → Option NodeView}

theorem NodeView.isDentry_of_dropLink {n n' : NodeView} (h : n.dropLink = some n') :
    n'.isDentry = n.isDentry := by
  unfold NodeView.dropLink at h
  split_ifs at h
  obtain rfl := Option.some.inj h
  rfl

/-- A change of inodes that leaves them their kind. -/
theorem View.RootDir.updateAll (h : w.RootDir) {ids : List ℕ}
    (hf : ∀ n n', f n = some n' → n'.isDentry = n.isDentry) : (w.updateAll ids f).RootDir := by
  intro n' hn'
  rw [View.node_updateAll] at hn'
  split_ifs at hn'
  · obtain ⟨n, hn, hfn⟩ := Option.bind_eq_some_iff.mp hn'
    rw [hf n n' hfn]
    exact h n hn
  · exact h n' hn'

theorem View.RootDir.setCurrent (h : w.RootDir) (id : ℕ) {g : Bytes → Bytes} :
    (w.setCurrent id g).RootDir := by
  intro n' hn'
  rw [View.node_setCurrent] at hn'
  split_ifs at hn' with hid
  · subst hid
    obtain ⟨n, hn, rfl⟩ := Option.map_eq_some_iff.mp hn'
    exact h n hn
  · exact h n' hn'

/-- A file that gets other bytes is not the root. -/
theorem View.RootDir.rewrites (h : w.RootDir) {n : NodeView} {g : NodeView → NodeView}
    (hn : w.node id = some n) (hfile : n.isDentry = false) :
    (w.update id fun n => some (g n)).RootDir := by
  intro n' hn'
  rw [View.node_update] at hn'
  split_ifs at hn' with hid
  · rw [← hid] at hn
    rw [h n hn] at hfile
    simp at hfile
  · exact h n' hn'

theorem View.RootDir.makesChild {isDir : Bool} (h : w.RootDir) (hl : Links clean w)
    (hstep : w.MakesChild parent name isDir id w') : w'.RootDir := by
  have hne : id ≠ rootInodeNumber := hstep.ne_root hl
  rcases hstep with ⟨n, t, list, hname, hparent, htable, hnew, hfree, hid, hsize, hlist⟩
  have hadd : (w.addNode id isDir).RootDir := by
    intro n' hn'
    rw [View.node_addNode, if_neg hne.symm] at hn'
    exact h n' hn'
  exact hadd.setCurrent parent

theorem View.RootDir.removesChild (h : w.RootDir) (hstep : w.RemovesChild parent name w') :
    w'.RootDir := by
  rcases hstep with ⟨n, t, p, target, list, hparent, htable, hp, htarget, hempty, hsize, hlist⟩
  intro n' hn'
  rw [View.node_dropLink] at hn'
  split_ifs at hn' with hid
  · obtain ⟨m, hm, hdrop⟩ := Option.bind_eq_some_iff.mp hn'
    rw [NodeView.isDentry_of_dropLink hdrop]
    exact h.setCurrent parent m (hid ▸ hm)
  · exact h.setCurrent parent n' hn'

theorem View.RootDir.createsSnapshot {ver : SnapshotVer} (h : w.RootDir)
    (hstep : w.CreatesSnapshot ver w') : w'.RootDir := by
  rcases hstep with ⟨list, _, _⟩
  refine h.updateAll fun n n' heq => ?_
  obtain rfl := Option.some.inj heq
  rfl

theorem View.RootDir.deletesSnapshot {ver : SnapshotVer} (h : w.RootDir)
    (hstep : w.DeletesSnapshot ver w') : w'.RootDir := by
  rcases hstep with ⟨list, _, _, _⟩
  refine h.updateAll fun n n' heq => ?_
  exact (NodeView.isDentry_of_dropLink heq).trans NodeView.isDentry_unfreeze

theorem View.RootDir.relinks (h : w.RootDir) (hstep : w.Relinks parent name id w') :
    w'.RootDir := by
  rcases hstep with hadd | ⟨w₀, hremove, hadd⟩
  · obtain ⟨g, rfl⟩ := hadd.view_eq
    exact h.setCurrent _
  · obtain ⟨g, rfl⟩ := hadd.view_eq
    exact (h.removesChild hremove).setCurrent _

/-- No callback makes a file of the root. -/
theorem View.RootDir.effect {call : FuseCall} (h : w.RootDir) (hl : Links clean w)
    (hstep : w.Effect call w') : w'.RootDir := by
  cases hstep with
  | none => exact h
  | makes _ hstep => exact h.makesChild hl hstep
  | makesFile f _ hstep => exact (h.makesChild hl hstep).setCurrent _
  | removes hstep =>
      obtain ⟨_, _, _, _, _, hremove⟩ := hstep
      exact h.removesChild hremove
  | creates _ _ hstep => exact h.createsSnapshot hstep
  | deletes _ _ hstep => exact h.deletesSnapshot hstep
  | rewrites f _ _ _ => exact h.setCurrent _
  | renames _ hstep =>
      rcases hstep with ⟨_, hrelink, _, _, hdrop⟩
      obtain ⟨g, rfl⟩ := hdrop.view_eq
      exact (h.relinks hrelink).setCurrent _
  | spoils _ hstep =>
      rcases hstep with ⟨_, _, hrelink⟩ | ⟨_, hremove, _⟩
      · exact h.relinks hrelink
      · exact h.removesChild hremove

/-- A path leads away from the root only through a table that can be read. -/
theorem View.word_of_resolve {path : Bytes} (h : w.resolve path = .ok id)
    (hne : id ≠ rootInodeNumber) : w.blockSize + 1 ≠ 2 ^ 64 := by
  unfold View.resolve at h
  cases path with
  | nil => exact absurd (Program.pure_eq_ok.mp h).symm hne
  | cons c rest =>
      dsimp only at h
      split_ifs at h
      · obtain ⟨⟨ver, parsedPath⟩, _, h⟩ := Program.bind_eq_ok.mp h
        dsimp only at h
        split_ifs at h
        · exact absurd (Program.pure_eq_ok.mp h).symm hne
        · rcases View.walk_start h with rfl | ⟨t, p, ht, hp⟩
          · exact absurd rfl hne
          · exact View.word_of_tableAt ht (List.ne_nil_of_mem hp)

/-- A path to a file leads away from the root. -/
theorem View.RootDir.word_of_file (h : w.RootDir) {path : Bytes} {n : NodeView}
    (hid : w.resolve path = .ok id) (hn : w.node id = some n) (hfile : n.isDentry = false) :
    w.blockSize + 1 ≠ 2 ^ 64 := by
  refine View.word_of_resolve hid ?_
  rintro rfl
  rw [h n hn] at hfile
  simp at hfile

end RootDir

/-! ## Runs -/

section Runs

variable {s s' : InodeSmi} {ctx : FuseContext} {call : FuseCall} {r : ℤ}
  {cond cond' : View → FuseCall → Prop}

theorem Returns.step (h : Returns s call r s') : BlocksOk s' ∧ s.view.Effect call s'.view :=
  ⟨h.ok, h.effect⟩

theorem FuseCall.ends_run (h : BlocksOk s) (hl : Links False s.view) (hvalid : call.Valid) :
    Ends (call.run ctx) s (fun _ s' => BlocksOk s' ∧ s.view.Effect call s'.view)
      (fun e _ => ¬ e.Thrown) := by
  cases call with
  | mkdir => exact (Fuse.ends_doMkdir h hl).mono (fun _ _ hr => hr.step) fun _ _ he => he
  | chmod => exact (Fuse.ends_doChmod h).mono (fun _ _ hr => hr.step) fun _ _ he => he
  | chown => exact (Fuse.ends_doChown h).mono (fun _ _ hr => hr.step) fun _ _ he => he
  | create => exact (Fuse.ends_doCreate h hl).mono (fun _ _ hr => hr.step) fun _ _ he => he
  | read => exact (Fuse.ends_doRead h).mono (fun _ _ hr => hr.step) fun _ _ he => he
  | write path buffer offset =>
      refine (Fuse.ends_doWrite h hvalid.1 hvalid.2).mono ?_ fun _ _ he => he.1
      rintro r s' (⟨hkept, _⟩ | ⟨id, n, c, hto, h', _, hview⟩)
      · exact (hkept.returns (r := r)).step
      · refine ⟨h', hview ▸ View.Effect.rewrites _ (by simp [FuseCall.ChangesNames]) hto.node ?_⟩
        simp [hto.file]
  | utimens => exact (Fuse.ends_doUtimens h).mono (fun _ _ hr => hr.step) fun _ _ he => he
  | unlink => exact (Fuse.ends_doUnlink h hl).mono (fun _ _ hr => hr.step) fun _ _ he => he
  | rmdir => exact (Fuse.ends_doRmdir h hl).mono (fun _ _ hr => hr.step) fun _ _ he => he
  | truncate => exact (Fuse.ends_doTruncate h hl).mono (fun _ _ hr => hr.step) fun _ _ he => he
  | symlink => exact (Fuse.ends_doSymlink h hl).mono (fun _ _ hr => hr.step) fun _ _ he => he
  | rename path name =>
      refine (Fuse.ends_doRename h hl).mono ?_ fun _ _ he => he
      rintro r s' (⟨rfl, _⟩ | ⟨_, h', hstep⟩ | ⟨_, h', hstep⟩)
      · exact ⟨h, View.Effect.none⟩
      · exact ⟨h', View.Effect.renames rfl hstep⟩
      · exact ⟨h', View.Effect.spoils rfl hstep⟩
  | fallocate => exact (Fuse.ends_doFallocate h).mono (fun _ _ hr => hr.step) fun _ _ he => he
  | mknod => exact (Fuse.ends_doMknod h hl).mono (fun _ _ hr => hr.step) fun _ _ he => he

/-- What a step of the mounted file system did. -/
theorem FuseStep.inv (hstep : FuseStep cond s s') (h : BlocksOk s) (hl : Links False s.view) :
    ∃ call, cond s.view call ∧ BlocksOk s' ∧ s.view.Effect call s'.view := by
  obtain ⟨ctx, call, r, hvalid, hcond, hrun⟩ := hstep
  obtain ⟨h', heffect⟩ := (FuseCall.ends_run h hl hvalid).of_ok hrun
  exact ⟨call, hcond, h', heffect⟩

/-- A property of views that every effect of an admitted callback preserves. -/
theorem preserved_of_run {I : View → Prop} (hlinks : ∀ w, I w → Links False w)
    (hI : ∀ w w' call, I w → cond w call → w.Effect call w' → I w')
    (hrun : Relation.ReflTransGen (FuseStep cond) s s') (h : BlocksOk s ∧ I s.view) :
    BlocksOk s' ∧ I s'.view :=
  Program.run_preserves (I := fun t => BlocksOk t ∧ I t.view) hrun h fun t t' ht hstep => by
    obtain ⟨call, hcond, h', heffect⟩ := FuseStep.inv hstep ht.1 (hlinks _ ht.2)
    exact ⟨h', hI _ _ call ht.2 hcond heffect⟩

theorem FuseReachableWith.preserved {I : View → Prop} (hlinks : ∀ w, I w → Links False w)
    (hI : ∀ w w' call, I w → cond w call → w.Effect call w' → I w')
    (hfresh : ∀ t limits blockSize, Fresh limits blockSize t → I t.view)
    (h : FuseReachableWith cond s) : BlocksOk s ∧ I s.view := by
  obtain ⟨ctx, limits, blockSize, hpos, hword, hrun⟩ := h
  exact preserved_of_run hlinks hI hrun
    ⟨fresh_mount.blocksOk hpos hword, hfresh _ _ _ fresh_mount⟩

/-- What every state of a mounted file system has. -/
theorem FuseReachable.links (h : FuseReachable s) : BlocksOk s ∧ Links False s.view :=
  FuseReachableWith.preserved (I := Links False) (fun _ hl => hl)
    (fun _ _ _ hl _ heffect => hl.effect heffect) (fun _ _ _ hfresh => hfresh.links) h

theorem FuseReachable.rootDir (h : FuseReachable s) : s.view.RootDir :=
  (FuseReachableWith.preserved (I := fun w => Links False w ∧ w.RootDir) (fun _ hw => hw.1)
    (fun _ _ _ hw _ heffect => ⟨hw.1.effect heffect, hw.2.effect hw.1 heffect⟩)
    (fun _ _ _ hfresh => ⟨hfresh.links, fun _ hn => (hfresh.view_node hn).2.2.2.1⟩) h).2.2

/-- The block size is the one that was mounted. -/
theorem FuseReachableWith.exists_run (h : FuseReachableWith cond s) :
    ∃ ctx limits, 0 < s.blockSize ∧ s.blockSize < 2 ^ 64 ∧
      Relation.ReflTransGen (FuseStep cond) (mount ctx limits s.blockSize) s := by
  obtain ⟨ctx, limits, blockSize, hpos, hword, hrun⟩ := h
  have hfresh : Fresh limits blockSize (mount ctx limits blockSize) := fresh_mount
  obtain ⟨_, _, hsize⟩ := preserved_of_run
    (I := fun w => Links False w ∧ w.blockSize = blockSize) (fun _ hw => hw.1)
    (fun _ _ _ hw _ heffect => ⟨hw.1.effect heffect, heffect.blockSize.trans hw.2⟩) hrun
    ⟨hfresh.blocksOk hpos hword, hfresh.links, hfresh.blockSize_eq⟩
  rw [blockSize_view] at hsize
  rw [hsize]
  exact ⟨ctx, limits, hpos, hword, hrun⟩

/-- As long as no directory is cut, directories and version lists agree. -/
theorem FuseReachableWith.named (hcond : ∀ w call, cond w call → ¬ w.CutsDirectory call)
    (h : FuseReachableWith cond s) : BlocksOk s ∧ Named s.view :=
  FuseReachableWith.preserved (I := Named) (fun _ hs => hs.links.weaken)
    (fun _ _ _ hs hmet heffect => hs.effect heffect (hcond _ _ hmet))
    (fun _ _ _ hfresh => hfresh.sound.toNamed) h

theorem FuseStep.of_outcome (hvalid : call.Valid) (hcond : cond s.view call)
    (h : Program.outcome (call.run ctx) s = .ok r) :
    FuseStep cond s (Program.exec (call.run ctx) s) :=
  ⟨ctx, call, r, hvalid, hcond, Program.eq_ok_of_outcome h⟩

theorem FuseReachableWith.exec (hs : FuseReachableWith cond s) (hvalid : call.Valid)
    (hcond : cond s.view call) (h : Program.outcome (call.run ctx) s = .ok r) :
    FuseReachableWith cond (Program.exec (call.run ctx) s) := by
  obtain ⟨ctx', limits, blockSize, hpos, hword, hrun⟩ := hs
  exact ⟨ctx', limits, blockSize, hpos, hword,
    hrun.tail (FuseStep.of_outcome hvalid hcond h)⟩

end Runs

/-! ## A sample -/

def sampleContext : FuseContext where
  currentTime := fun _ => ⟨0, 0⟩
  uid := 0
  gid := 0
  errno := 0

/-- `"/a"` -/
def samplePath : CString := ⟨[47, 97], by decide⟩

/-- A mounted file system with an empty file `a` in its root. -/
def sampleMount : InodeSmi :=
  Program.exec ((FuseCall.create samplePath 0).run sampleContext)
    (mount sampleContext .libstdcxx 512)

theorem comps_samplePath : comps samplePath.1 = [[97]] := by decide

theorem ifSnapshot_samplePath : ifSnapshot samplePath.1 = .ok (curModifiableVer, samplePath.1) := by
  decide +kernel

theorem fuseReachable_mount {cond : View → FuseCall → Prop} :
    FuseReachableWith cond (mount sampleContext .libstdcxx 512) :=
  ⟨sampleContext, .libstdcxx, 512, by decide, by decide, Relation.ReflTransGen.refl⟩

theorem step_sampleMount {cond : View → FuseCall → Prop}
    (hcond : cond (mount sampleContext .libstdcxx 512).view (.create samplePath 0)) :
    FuseStep cond (mount sampleContext .libstdcxx 512) sampleMount :=
  FuseStep.of_outcome (r := 0) trivial hcond (by decide +kernel)

theorem fuseReachable_sampleMount {cond : View → FuseCall → Prop}
    (hcond : cond (mount sampleContext .libstdcxx 512).view (.create samplePath 0)) :
    FuseReachableWith cond sampleMount :=
  ⟨sampleContext, .libstdcxx, 512, by decide, by decide,
    Relation.ReflTransGen.single (step_sampleMount hcond)⟩

end Htmpfs
