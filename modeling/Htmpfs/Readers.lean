import Mathlib
import Htmpfs.Answers

/-!
# What stands at a path that a callback is given

A path leads into one of the trees.  The callbacks that change none of them see
what stands there, and return an errno where nothing does.
-/

namespace Htmpfs

open Program (Ends)

/-- What stands at a path of a version. -/
def Trees.entry (fs : Trees) (ver : SnapshotVer) (q : List Bytes) : Option (PathTree.Entry Bytes) :=
  if ver = curModifiableVer then fs.current.entry q
  else (fs.frozen ver).bind fun t => t.entry q

/-- The path, as the callbacks read it, leads to this. -/
def Trees.Has (fs : Trees) (path : Bytes) (ver : SnapshotVer) (e : PathTree.Entry Bytes) : Prop :=
  Absolute path ∧ ∃ q, LeadsInto path ver q ∧ fs.entry ver q = some e

/-- The answer of a callback that sets attributes of a live path. -/
def Trees.Touches (fs : Trees) (path : Bytes) (r : ℤ) : Prop :=
  (r = 0 ∧ ∃ e, fs.Has path curModifiableVer e) ∨ r < 0 ∧ ∀ e, ¬ fs.Has path curModifiableVer e

/-- The answer of `do_read`: the number of bytes it has taken from a file, except at its end. -/
def Trees.Reads (fs : Trees) (path : Bytes) (size : ℕ) (offset : ℤ) (r : ℤ) : Prop :=
  (∀ ver c, fs.Has path ver (.leaf c) → 0 ≤ offset → offset + size < 2 ^ 63 → offset ≠ c.length →
    r = toInt ((c.drop offset.toNat).take size).length) ∧
  ((∀ ver e, ¬ fs.Has path ver e) → r < 0)

/-- The answers of the callbacks that leave the trees as they are. -/
def FuseCall.Sees : FuseCall → Trees → ℤ → Prop
  | chmod path _, fs, r => fs.Touches path.1 r
  | chown path _ _, fs, r => fs.Touches path.1 r
  | utimens path _ _, fs, r => fs.Touches path.1 r
  | read path size offset, fs, r => fs.Reads path.1 size offset r
  | _, _, _ => False

/-- The callbacks that leave the trees as they are. -/
def FuseCall.Looks : FuseCall → Prop
  | chmod _ _ | chown _ _ _ | utimens _ _ _ | read _ _ _ => True
  | _ => False

section Resolve

variable {w : View} {fs : Trees} {path : Bytes} {ver : SnapshotVer} {q cs : List Bytes} {id : ℕ}
  {e : PathTree.Entry Bytes} {c : Bytes} {n : NodeView}

theorem View.Shows.entry (hshows : w.Shows fs) : fs.entry ver q = w.content ver q := by
  unfold Trees.entry
  split_ifs with hver
  · rw [hver]
    exact hshows.current q
  · exact hshows.frozen ver hver q

theorem not_mem_nil_of_leadsInto (hlead : LeadsInto path ver q) : [] ∉ q := fun hmem =>
  (isName_of_mem_comps (p := path) [] (mem_of_mem_liveComps (leadsInto_iff.mp hlead) hmem)).ne_nil rfl

/-- A path resolves in a version that is there, by the walk. -/
theorem Named.resolve_eq_ok (h : Named w) (habs : Absolute path) (hlead : LeadsInto path ver q) :
    w.resolve path = .ok id ↔
      (w.listing ver).isSome ∧ w.walk ver rootInodeNumber q = .ok id := by
  rw [View.resolve_eq_resolveComps habs]
  rcases h.resolveComps_cases isName_of_mem_comps (leadsInto_iff.mp hlead) with
    ⟨hlisted, heq⟩ | ⟨e, he, _⟩
  · rw [heq]
    exact ⟨fun hwalk => ⟨hlisted, hwalk⟩, And.right⟩
  · constructor
    · intro hid
      rw [he] at hid
      simp at hid
    · rintro ⟨hlisted, hwalk⟩
      unfold View.resolveComps at he
      simp only [leadsInto_iff.mp hlead, bind, Except.bind, hlisted, if_true] at he
      split_ifs at he
      · simp at he
      · rw [hwalk] at he
        simp at he

theorem leadsInto_of_resolve (hid : w.resolve path = .ok id) : ∃ ver q, LeadsInto path ver q := by
  rw [View.resolve_eq_resolveComps (View.absolute_of_resolve hid)] at hid
  obtain ⟨⟨ver, q⟩, hlive, _⟩ := Program.bind_eq_ok.mp hid
  exact ⟨ver, q, leadsInto_iff.mpr hlive⟩

/-- What stands at the end of a walk. -/
theorem View.content_eq_some_iff (hnil : [] ∉ q) : w.content ver q = some e ↔
    ∃ id n c, w.walk ver rootInodeNumber q = .ok id ∧ w.node id = some n ∧
      n.data ver = some c ∧ e = if n.isDentry then .dir else .leaf c := by
  rw [View.content, if_neg hnil]
  cases hwalk : w.walk ver rootInodeNumber q with
  | error e => simp
  | ok id =>
      constructor
      · intro hentry
        obtain ⟨n, hn, hentry⟩ := Option.bind_eq_some_iff.mp hentry
        obtain ⟨c, hc, hkind⟩ := Option.map_eq_some_iff.mp hentry
        exact ⟨id, n, c, rfl, hn, hc, hkind.symm⟩
      · rintro ⟨_, n, c, heq, hn, hc, rfl⟩
        obtain rfl := Except.ok.inj heq
        simp [hn, NodeView.entry, hc]

/-- What stands at a path is the inode that it resolves to. -/
theorem View.Shows.has_iff (hshows : w.Shows fs) (h : Named w) : fs.Has path ver e ↔
    (∃ q, LeadsInto path ver q) ∧ ∃ id n c, w.resolve path = .ok id ∧ w.node id = some n ∧
      n.data ver = some c ∧ e = if n.isDentry then .dir else .leaf c := by
  constructor
  · rintro ⟨habs, q, hlead, hentry⟩
    rw [hshows.entry] at hentry
    have hlisted : (w.listing ver).isSome := by
      by_contra hlisted
      rw [h.content_unlisted (by simpa using hlisted)] at hentry
      exact absurd hentry (by simp)
    obtain ⟨id, n, c, hwalk, hstands⟩ :=
      (View.content_eq_some_iff (not_mem_nil_of_leadsInto hlead)).mp hentry
    exact ⟨⟨q, hlead⟩, id, n, c, (h.resolve_eq_ok habs hlead).mpr ⟨hlisted, hwalk⟩, hstands⟩
  · rintro ⟨⟨q, hlead⟩, id, n, c, hid, hstands⟩
    have habs := View.absolute_of_resolve hid
    obtain ⟨_, hwalk⟩ := (h.resolve_eq_ok habs hlead).mp hid
    have hcontent := (View.content_eq_some_iff (not_mem_nil_of_leadsInto hlead)).mpr
      ⟨id, n, c, hwalk, hstands⟩
    exact ⟨habs, q, hlead, hshows.entry.trans hcontent⟩

/-- What resolves stands at the path. -/
theorem Named.exists_data (h : Named w) (hid : w.resolve path = .ok id)
    (hlead : LeadsInto path ver q) : ∃ n c, w.node id = some n ∧ n.data ver = some c := by
  obtain ⟨hlisted, hwalk⟩ := (h.resolve_eq_ok (View.absolute_of_resolve hid) hlead).mp hid
  obtain ⟨n, hn, hlists⟩ :=
    h.links.live_of_listsId (h.walk_listed (h.listsId_root hlisted) hwalk)
  obtain ⟨c, hc⟩ := Option.isSome_iff_exists.mp ((h.links.data ver id n hn).mpr (Or.inr hlists))
  exact ⟨n, c, hn, hc⟩

theorem View.Shows.exists_has (hshows : w.Shows fs) (h : Named w) (hid : w.resolve path = .ok id)
    (hlead : LeadsInto path ver q) : ∃ e, fs.Has path ver e := by
  obtain ⟨n, c, hn, hc⟩ := h.exists_data hid hlead
  exact ⟨_, (hshows.has_iff h).mpr ⟨⟨q, hlead⟩, id, n, c, hid, hn, hc, rfl⟩⟩

end Resolve

/-! ## Reading a slice -/

section Read

variable {pool : IdPool Buffer} {self : Inode} {ver : SnapshotVer} {c : Bytes} {size offset : ℕ}

/-- Anywhere but at the end of the file, a read takes the bytes that are there. -/
theorem Inode.Ok.read_slice (h : self.Ok pool) (hc : self.data pool ver = some c)
    (hfits : offset + size < 2 ^ 64) (hend : offset ≠ c.length) :
    self.read pool ver size offset = .ok ((c.drop offset).take size) := by
  unfold Inode.data at hc
  obtain ⟨list, hlist, rfl⟩ := Option.map_eq_some_iff.mp hc
  obtain ⟨hlive, _, ⟨n, hs⟩, _⟩ := h.list ver list hlist
  have hlen : (content pool list).length = n := hs.length_flatten
  unfold Inode.read
  split_ifs with hzero
  · rw [hzero, List.take_zero]
    rfl
  · rw [hlist]
    exact Bank.read_eq h.blockSize_pos hlive hs hfits fun heq => absurd (heq.trans hlen.symm) hend

end Read

/-! ## The callbacks that look -/

section Looks

variable {ctx : FuseContext} {s : InodeSmi} {fs : Trees} {path : CString} {call : FuseCall}

/-- The trees are as before, and the answer is what they say. -/
def Seen (fs : Trees) (s : InodeSmi) (call : FuseCall) (r : ℤ) (s' : InodeSmi) : Prop :=
  BlocksOk s' ∧ s'.view = s.view ∧ call.Sees fs r

namespace Fuse

/-- `CATCH_TAIL` around what throws nothing but exceptions that it catches. -/
theorem ends_catchTail_thrown {σ : Type} {t : σ} {body : EStateM Exit σ ℤ} {Q : ℤ → σ → Prop}
    (h : Ends body t Q (fun e t' => e.Thrown ∧ Q (caught ctx e) t')) :
    Ends (catchTail ctx body) t Q (fun _ _ => False) :=
  (ends_catchTail h fun _ _ he _ => he.2).mono (fun _ _ hr => hr) fun _ _ he => he.1 he.2.1

/-- `do_chmod`, `do_chown` and `do_utimens` differ by what they set. -/
theorem seen_setStat (call : FuseCall) (h : BlocksOk s) (hw : Orderly s.view)
    (hshows : s.view.Shows fs)
    (hsees : ∀ r, fs.Touches path.1 r → call.Sees fs r) (f : Stat → Stat) :
    Ends (catchTail ctx do
      checkRdonlyFs path.1 do
        let inode ← inodeByPath path.1
        setStat inode f
        pure 0) s (Seen fs s call) (fun _ _ => False) := by
  have hrefused : ∀ e : Exit, e.Reported → (∀ x, ¬ fs.Has path.1 curModifiableVer x) →
      e.Thrown ∧ Seen fs s call (caught ctx e) s := by
    intro e he hno
    exact ⟨he.thrown, h, rfl, hsees _ (Or.inr ⟨he.caught_neg ctx, hno⟩)⟩
  apply ends_catchTail_thrown
  refine ends_checkRdonlyFs (fun q hlive => ?_) (fun ver q hver hne => ?_) fun e he => ?_
  rotate_left
  · refine ⟨h, rfl, hsees _ (Or.inr ⟨by decide, ?_⟩)⟩
    rintro x ⟨_, q', hlead, _⟩
    rw [leadsInto_iff, hver] at hlead
    exact hne (Prod.mk.inj (Except.ok.inj hlead)).1
  · refine hrefused e (liveComps_error he ▸ reported_invalidDentryName) ?_
    rintro x ⟨_, q', hlead, _⟩
    rw [leadsInto_iff, he] at hlead
    simp at hlead
  have hlead : LeadsInto path.1 curModifiableVer q := leadsInto_iff.mpr hlive
  rw [Program.ends_bind]
  unfold inodeByPath
  rw [Program.ends_bind, Program.ends_reads, h.resolve_eq]
  refine ⟨fun id hid => ?_, fun e he => hrefused e (hw.resolve_reported he) fun x hx => ?_⟩
  swap
  · obtain ⟨_, id, _, _, hid, _⟩ := (hshows.has_iff hw.toNamed).mp hx
    rw [hid] at he
    simp at he
  obtain ⟨n, c, hn, _⟩ := hw.exists_data hid hlead
  refine Program.Ends.reads_ok (a := ⟨id, n.addr⟩) (by rw [getInodeById_eq, hn]) ?_
  rw [Program.ends_bind]
  refine (ends_setStat h (View.deref?_of_node hn)).mono ?_ fun _ _ hfalse => hfalse.elim
  rintro _ s' ⟨h', hview⟩
  exact ⟨h', hview, hsees _ (Or.inl ⟨rfl, hshows.exists_has hw.toNamed hid hlead⟩)⟩

theorem seen_doRead (h : BlocksOk s) (hw : Orderly s.view) (hshows : s.view.Shows fs) {size : ℕ}
    {offset : ℤ} : Ends (doRead ctx path size offset) s (Seen fs s (.read path size offset))
      (fun _ _ => False) := by
  apply ends_catchTail_thrown
  have hrefused : ∀ e : Exit, e.Reported → (∀ ver x, ¬ fs.Has path.1 ver x) →
      e.Thrown ∧ Seen fs s (.read path size offset) (caught ctx e) s := by
    intro e he hno
    exact ⟨he.thrown, h, rfl, fun ver c hhas => absurd hhas (hno ver _), fun _ => he.caught_neg ctx⟩
  rw [Program.ends_bind, Program.ends_reads]
  refine ⟨fun p hp => ?_, fun e he => hrefused e ?_ ?_⟩
  rotate_left
  · rw [View.ifSnapshot_error he]
    exact reported_invalidDentryName
  · rintro ver x ⟨_, q, ⟨out, hout, _⟩, _⟩
    rw [hout] at he
    simp at he
  obtain ⟨ver, out⟩ := p
  have hlive := liveComps_comps hp
  have hlead : LeadsInto path.1 ver (comps out) := leadsInto_iff.mpr hlive
  rw [Program.ends_bind]
  unfold inodeByPath
  rw [Program.ends_bind, Program.ends_reads, h.resolve_eq]
  refine ⟨fun id hid => ?_, fun e he => hrefused e (hw.resolve_reported he) fun ver x hx => ?_⟩
  swap
  · obtain ⟨_, id, _, _, hid, _⟩ := (hshows.has_iff hw.toNamed).mp hx
    rw [hid] at he
    simp at he
  obtain ⟨n, c, hn, hc⟩ := hw.exists_data hid hlead
  refine Program.Ends.reads_ok (a := ⟨id, n.addr⟩) (by rw [getInodeById_eq, hn]) ?_
  rw [Program.ends_bind]
  refine (ends_setStat h (View.deref?_of_node hn)).mono ?_ fun _ _ hfalse => hfalse.elim
  rintro _ s₁ ⟨h₁, hview⟩
  have hhas : fs.Has path.1 ver (if n.isDentry then .dir else .leaf c) :=
    (hshows.has_iff hw.toNamed).mpr ⟨⟨_, hlead⟩, id, n, c, hid, hn, hc, rfl⟩
  have hderef : s₁.view.deref? ⟨id, n.addr⟩ = some n := by
    rw [hview]
    exact View.deref?_of_node hn
  obtain ⟨node, hnode, _, hnv, hval⟩ := deref_of_view hderef
  have hok := (h₁.inode _ node hnode).1
  have hdata : node.val.data s₁.bufferPool ver = some c := by
    rw [← hnv] at hc
    exact hc
  have hbind : (do
      let self ← InodeSmi.deref ⟨id, n.addr⟩ s₁
      self.read s₁.bufferPool ver size (offToU64 offset)) =
        node.val.read s₁.bufferPool ver size (offToU64 offset) := by
    rw [hval]
    rfl
  -- the path leads to one entry only
  have hsees : ∀ r : ℤ, (∀ c', n.isDentry = false → c' = c → 0 ≤ offset → offset + size < 2 ^ 63 →
      offset ≠ c'.length → r = toInt ((c'.drop offset.toNat).take size).length) →
      Seen fs s (.read path size offset) r s₁ := by
    intro r hr
    refine ⟨h₁, hview, ?_, fun hno => absurd hhas (hno ver _)⟩
    intro ver' c' hhas'
    obtain ⟨⟨q', hlead'⟩, id', n', c₀, hid', hn', hc', hkind⟩ :=
      (hshows.has_iff hw.toNamed).mp hhas'
    obtain ⟨rfl, _⟩ := hlead.unique hlead'
    obtain rfl := Except.ok.inj (hid.symm.trans hid')
    obtain rfl := Option.some.inj (hn.symm.trans hn')
    obtain rfl := Option.some.inj (hc.symm.trans hc')
    cases hdir : n.isDentry with
    | true => simp [hdir] at hkind
    | false =>
        obtain rfl : c' = c := by simpa [hdir] using hkind
        exact hr _ hdir rfl
  rw [Program.ends_bind, Program.ends_reads]
  simp only [hbind]
  refine ⟨fun bytes hbytes => ?_, fun e he => ?_⟩
  · refine hsees _ ?_
    rintro c' _ rfl hoffset hfits hend
    obtain ⟨k, rfl⟩ := Int.eq_ofNat_of_zero_le hoffset
    have hk : k + size < 2 ^ 63 := by exact_mod_cast hfits
    have hoff : offToU64 (k : ℤ) = k := by
      unfold offToU64
      omega
    rw [hoff, hok.read_slice hdata (by omega) (by exact_mod_cast hend)] at hbytes
    rw [← Except.ok.inj hbytes]
    rfl
  · refine ⟨hok.read_thrown he, hsees _ ?_⟩
    rintro c' _ rfl hoffset hfits hend
    obtain ⟨k, rfl⟩ := Int.eq_ofNat_of_zero_le hoffset
    have hk : k + size < 2 ^ 63 := by exact_mod_cast hfits
    have hoff : offToU64 (k : ℤ) = k := by
      unfold offToU64
      omega
    rw [hoff, hok.read_slice hdata (by omega) (by exact_mod_cast hend)] at he
    simp at he

end Fuse

/-- A callback that looks returns what the trees say. -/
theorem seen_run (hlooks : call.Looks) (h : BlocksOk s) (hw : Orderly s.view)
    (hshows : s.view.Shows fs) :
    Ends (call.run ctx) s (Seen fs s call) (fun _ _ => False) := by
  cases call with
  | chmod path mode => exact Fuse.seen_setStat (.chmod path mode) h hw hshows (fun _ hr => hr) _
  | chown path uid gid => exact Fuse.seen_setStat (.chown path uid gid) h hw hshows (fun _ hr => hr) _
  | utimens path atim mtim =>
      exact Fuse.seen_setStat (.utimens path atim mtim) h hw hshows (fun _ hr => hr) _
  | read => exact Fuse.seen_doRead h hw hshows
  | _ => exact hlooks.elim

end Looks

end Htmpfs
