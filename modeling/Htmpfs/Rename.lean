import Mathlib
import Htmpfs.Fuse
import Htmpfs.Resolve
import Htmpfs.Sound

/-!
# Renaming

`do_rename` puts the inode under its new name, after removing what had that
name, and then takes the old name away.  The old parent is found again on the
changed tables: the way to it does not pass through what was removed, which
was no directory or an empty one.
-/

namespace Htmpfs

open Program (Ends)

/-! ## Ways that are kept -/

section Kept

variable {w w' : View} {ver : SnapshotVer} {id next : ℕ} {cs : List Bytes} {name : Bytes}
  {t : List PathPack} {p : PathPack}

theorem View.lookup_eq_ok :
    View.lookup t name = .ok id ↔ ∃ p, (t.find? fun i => i.pathname = name) = some p ∧
      p.inodeId = id := by
  unfold View.lookup
  cases t.find? fun i => i.pathname = name with
  | none => simp
  | some p => simp

theorem View.walk_append {rest : List Bytes} : w.walk ver id (cs ++ rest) =
    (do let next ← w.walk ver id cs; w.walk ver next rest) := by
  induction cs generalizing id with
  | nil => rfl
  | cons i cs ih =>
      rw [List.cons_append]
      simp only [View.walk]
      split_ifs
      · exact ih
      · cases w.tableAt id ver with
        | error e => rfl
        | ok t =>
            simp only [bind, Except.bind] at ih ⊢
            cases View.lookup t i with
            | error e => rfl
            | ok next => exact ih

theorem View.walk_singleton (hname : name ≠ []) :
    w.walk ver id [name] = .ok next ↔
      ∃ t, w.tableAt id ver = .ok t ∧ View.lookup t name = .ok next := by
  have hne : name.isEmpty = false := by simpa using hname
  simp only [View.walk, hne, Bool.false_eq_true, if_false, Program.bind_eq_ok]
  constructor
  · rintro ⟨t, ht, i, hi, hnext⟩
    obtain rfl := Program.pure_eq_ok.mp hnext
    exact ⟨t, ht, hi⟩
  · rintro ⟨t, ht, hi⟩
    exact ⟨t, ht, next, hi, rfl⟩

/-- A way that leads somewhere starts at an inode that names something, or is no way at all. -/
theorem View.walk_start (hwalk : w.walk ver id cs = .ok next) :
    next = id ∨ ∃ t p, w.tableAt id ver = .ok t ∧ p ∈ t := by
  induction cs with
  | nil => exact Or.inl (Program.pure_eq_ok.mp hwalk).symm
  | cons i cs ih =>
      unfold View.walk at hwalk
      split_ifs at hwalk
      · exact ih hwalk
      · obtain ⟨t, ht, hwalk⟩ := Program.bind_eq_ok.mp hwalk
        obtain ⟨k, hk, _⟩ := Program.bind_eq_ok.mp hwalk
        obtain ⟨p, hp, _⟩ := View.lookup_eq_ok.mp hk
        exact Or.inr ⟨t, p, ht, List.mem_of_find?_eq_some hp⟩

/-- A way survives a change that keeps every step of it which does not enter a dead end, unless
it meets a table that can no longer be read. -/
theorem View.walk_kept {dead : ℕ → Prop} {bad : Prop}
    (hdead : ∀ j t, dead j → w.tableAt j ver = .ok t → t = [])
    (hstep : ∀ j t i k, ¬ dead j → ¬ dead k → w.tableAt j ver = .ok t → View.lookup t i = .ok k →
      (∃ t', w'.tableAt j ver = .ok t' ∧ View.lookup t' i = .ok k) ∨
        bad ∧ w'.tableAt j ver = .error .undefined)
    (hwalk : w.walk ver id cs = .ok next) (hnext : ¬ dead next) :
    w'.walk ver id cs = .ok next ∨ bad ∧ w'.walk ver id cs = .error .undefined := by
  induction cs generalizing id with
  | nil => exact Or.inl hwalk
  | cons i cs ih =>
      have halive : ∀ j, w.walk ver j cs = .ok next → ¬ dead j := by
        intro j hj hjdead
        rcases View.walk_start hj with rfl | ⟨t, p, ht, hp⟩
        · exact hnext hjdead
        · rw [hdead j t hjdead ht] at hp
          simp at hp
      unfold View.walk at hwalk ⊢
      split_ifs at hwalk ⊢ with hempty
      · exact ih hwalk
      · obtain ⟨t, ht, hwalk⟩ := Program.bind_eq_ok.mp hwalk
        obtain ⟨k, hk, hwalk⟩ := Program.bind_eq_ok.mp hwalk
        have hid : ¬ dead id := by
          intro hidead
          obtain ⟨p, hp, _⟩ := View.lookup_eq_ok.mp hk
          have hmem := List.mem_of_find?_eq_some hp
          rw [hdead id t hidead ht] at hmem
          simp at hmem
        rcases hstep id t i k hid (halive k hwalk) ht hk with ⟨t', ht', hk'⟩ | ⟨hbad, hundef⟩
        · simp only [ht', hk', bind, Except.bind]
          exact ih hwalk
        · exact Or.inr ⟨hbad, by rw [hundef]; rfl⟩

theorem View.lookup_append (h : View.lookup t name = .ok id) {t' : List PathPack} :
    View.lookup (t ++ t') name = .ok id := by
  obtain ⟨p, hp, rfl⟩ := View.lookup_eq_ok.mp h
  exact View.lookup_eq_ok.mpr ⟨p, by rw [List.find?_append, hp]; rfl, rfl⟩

/-- Erasing one name does not change what another one finds. -/
theorem View.lookup_eraseP {other : Bytes} (hne : name ≠ other) :
    View.lookup (t.eraseP fun i => i.pathname = other) name = View.lookup t name := by
  have hfind : ((t.eraseP fun i => i.pathname = other).find? fun i => i.pathname = name) =
      t.find? fun i => i.pathname = name := by
    induction t with
    | nil => rfl
    | cons q t ih =>
        by_cases hq : q.pathname = other
        · rw [List.eraseP_cons_of_pos (by simpa using hq), List.find?_cons_of_neg]
          simpa [hq] using Ne.symm hne
        · rw [List.eraseP_cons_of_neg (by simpa using hq), List.find?_cons, List.find?_cons, ih]
  unfold View.lookup
  rw [hfind]

end Kept

/-! ## Entries that come and go -/

/-- A directory gets an entry of a new name. -/
inductive View.AddsEntry (w : View) (parent : ℕ) (name : Bytes) (id : ℕ) : View → Prop
  | mk (t : List PathPack) (htable : w.tableAt parent curModifiableVer = .ok t)
      (hnew : ∀ p ∈ t, p.pathname ≠ name)
      (hsize : (encodeTable (t ++ [⟨name, id⟩])).length < 2 ^ 64) :
      AddsEntry w parent name id (w.setCurrent parent fun _ => encodeTable (t ++ [⟨name, id⟩]))

/-- A directory loses an entry. -/
inductive View.DropsEntry (w : View) (parent : ℕ) (name : Bytes) : View → Prop
  | mk (t : List PathPack) (p : PathPack) (htable : w.tableAt parent curModifiableVer = .ok t)
      (hp : (t.find? fun i => i.pathname = name) = some p)
      (hsize : (encodeTable (t.eraseP fun i => i.pathname = name)).length < 2 ^ 64) :
      DropsEntry w parent name
        (w.setCurrent parent fun _ => encodeTable (t.eraseP fun i => i.pathname = name))

/-- The first half of `do_rename`. -/
def View.Relinks (w : View) (parent : ℕ) (name : Bytes) (id : ℕ) (w' : View) : Prop :=
  w.AddsEntry parent name id w' ∨ ∃ w₀, w.RemovesChild parent name w₀ ∧
    w₀.AddsEntry parent name id w'

section Tables

variable {w w' : View} {parent id : ℕ} {name : Bytes} {j : ℕ} {u : SnapshotVer}

theorem View.AddsEntry.tables (hstep : w.AddsEntry parent name id w') (hname : 0 ∉ name)
    (hid : id < 2 ^ 64) : ∃ t, w.tableAt parent curModifiableVer = .ok t ∧
      (∀ p ∈ t, p.pathname ≠ name) ∧ ∀ j u, w'.tableAt j u =
        if j = parent ∧ u = curModifiableVer then w.savedTable (t ++ [⟨name, id⟩])
        else w.tableAt j u := by
  rcases hstep with ⟨t, ht, hnew, hsize⟩
  have hwell := View.tableAt_wellFormed ht
  refine ⟨t, ht, hnew, fun j u => ?_⟩
  exact View.tableAt_setTable ht (mem_append_wellFormed hwell hname hid) hsize

theorem View.DropsEntry.tables (hstep : w.DropsEntry parent name w') :
    ∃ t p, w.tableAt parent curModifiableVer = .ok t ∧
      (t.find? fun i => i.pathname = name) = some p ∧ ∀ j u, w'.tableAt j u =
        if j = parent ∧ u = curModifiableVer then .ok (t.eraseP fun i => i.pathname = name)
        else w.tableAt j u := by
  rcases hstep with ⟨t, p, ht, hp, hsize⟩
  have hwell : ∀ q ∈ t.eraseP fun i => i.pathname = name, q.WellFormed ∧ NameFits q.pathname :=
    fun q hq => View.tableAt_wellFormed ht q (List.mem_of_mem_eraseP hq)
  refine ⟨t, p, ht, hp, fun j u => ?_⟩
  have hfound : t ≠ [] := List.ne_nil_of_mem (List.mem_of_find?_eq_some hp)
  rw [View.tableAt_setTable ht (fun q hq => (hwell q hq).1) hsize,
    View.savedTable_ok (View.word_of_tableAt ht hfound) fun q hq => (hwell q hq).2]

/-- The parent of a removed name is still there, without the name. -/
theorem View.RemovesChild.node_parent (hstep : w.RemovesChild parent name w') {n : NodeView}
    (hn : w.node parent = some n) : ∃ n' t, w'.node parent = some n' ∧ n'.addr = n.addr ∧
      n'.isDentry = true ∧ n.table w.blockSize curModifiableVer = .ok t ∧
      n'.table w'.blockSize curModifiableVer = .ok (t.eraseP fun i => i.pathname = name) := by
  rcases hstep with ⟨n₀, t, p, target, list, hparent, htable, hp, htarget, hempty, hsize, hlist⟩
  obtain rfl := Option.some.inj (hn.symm.trans hparent)
  obtain ⟨hdir, c, hc, _, hdecode⟩ := NodeView.table_eq_ok.mp htable
  have hfound : t ≠ [] := List.ne_nil_of_mem (List.mem_of_find?_eq_some hp)
  have hword : w.blockSize + 1 ≠ 2 ^ 64 :=
    View.word_of_tableAt (by rw [View.tableAt_of_node hparent, htable]) hfound
  have hne : parent ≠ p.inodeId := by
    rintro hid
    rw [← hid, hn] at htarget
    obtain rfl := Option.some.inj htarget
    exact hfound (Except.ok.inj (htable.symm.trans (hempty hdir)))
  have hwell : ∀ q ∈ t.eraseP fun i => i.pathname = name, q.WellFormed ∧ NameFits q.pathname :=
    fun q hq => n.table_wellFormed htable q (List.mem_of_mem_eraseP hq)
  refine ⟨n.setCurrent fun _ => encodeTable (t.eraseP fun i => i.pathname = name), t, ?_, rfl,
    hdir, htable, ?_⟩
  · rw [View.node_dropLink, if_neg hne, View.node_setListing, View.node_setCurrent, if_pos rfl, hn]
    rfl
  · refine NodeView.table_eq_ok.mpr ⟨hdir, encodeTable (t.eraseP fun i => i.pathname = name), ?_,
      fun hwrap => hword hwrap.2, ?_⟩
    · rw [NodeView.data_setCurrent_self, hc]
      rfl
    · rw [decodeTable_encodeTable (fun q hq => (hwell q hq).1) hsize,
        if_pos fun q hq => (hwell q hq).2]

theorem View.RemovesChild.removable (hstep : w.RemovesChild parent name w') :
    w.Removable parent name := by
  rcases hstep with ⟨n, t, p, target, list, hparent, htable, hp, htarget, hempty, hsize, hlist⟩
  exact ⟨t, p, target, by rw [View.tableAt_of_node hparent, htable], hp, htarget, hempty⟩

end Tables

/-! ## The halves of `do_rename` -/

section Halves

variable {s : InodeSmi} {ptr : PoolPtr} {id : ℕ} {name : Bytes} {n : NodeView}
  {t : List PathPack}

theorem BlocksOk.ends_addEntry (h : BlocksOk s) (hn : s.view.deref? ptr = some n)
    (ht : n.table s.blockSize curModifiableVer = .ok t) :
    Ends (do
        let r ← Program.reads fun _ => DirectoryResolver.addPath ⟨t, ptr, curModifiableVer⟩ name id
        r.saveCurrent) s
      (fun _ s' => BlocksOk s' ∧ s.view.AddsEntry ptr.id name id s'.view ∧
        (HeldElsewhere s ptr.id (fun _ => True) → NoOrphan s → NoOrphan s') ∧ StaysHeld s s')
      (fun e s' => e = .badAlloc ∨
        s' = s ∧ e = .htmpfs .doubleMkpathname ∧ ∃ p ∈ t, p.pathname = name) := by
  simp only [Program.ends_bind]
  by_cases hany : ∃ p ∈ t, p.pathname = name
  · refine Program.Ends.reads_error (e := .htmpfs .doubleMkpathname) ?_ (Or.inr ⟨rfl, rfl, hany⟩)
    unfold DirectoryResolver.addPath
    rw [if_pos (by simpa using hany)]
    rfl
  · have hnew : ∀ p ∈ t, p.pathname ≠ name := fun p hp hname => hany ⟨p, hp, hname⟩
    have hadd : DirectoryResolver.addPath ⟨t, ptr, curModifiableVer⟩ name id =
        .ok ⟨t ++ [⟨name, id⟩], ptr, curModifiableVer⟩ := by
      unfold DirectoryResolver.addPath
      rw [if_neg (by simpa using hnew)]
      rfl
    refine Program.Ends.reads_ok hadd ?_
    have hsave := h.ends_saveCurrent (r := ⟨t ++ [⟨name, id⟩], ptr, curModifiableVer⟩) hn
    refine hsave.mono ?_ fun _ _ he => Or.inl he
    rintro _ s' ⟨h', hview, horphan, _, hsize, hheld, _⟩
    refine ⟨h', ?_, horphan, hheld⟩
    rw [hview]
    refine View.AddsEntry.mk t ?_ hnew hsize
    rw [View.tableAt_of_node (View.deref?_eq_some.mp hn).1, blockSize_view, ht]

/-- The name occurs in the current table of the directory. -/
def View.HasName (w : View) (parent : ℕ) (name : Bytes) : Prop :=
  ∃ t, w.tableAt parent curModifiableVer = .ok t ∧ ∃ p ∈ t, p.pathname = name

/-- The first half either succeeds or refuses to remove the old target, or it finds the target's
name a second time. -/
theorem BlocksOk.ends_relink (h : BlocksOk s) {list : List InodeResult}
    (hlist : s.view.listing curModifiableVer = some list) {parent : ℕ}
    (hn : s.view.node parent = some n) (ht : n.table s.blockSize curModifiableVer = .ok t) :
    Ends (Fuse.relink parent ⟨t, ⟨parent, n.addr⟩, curModifiableVer⟩ name id) s
      (fun _ s' => BlocksOk s' ∧ s.view.Relinks parent name id s'.view ∧
        (HeldElsewhere s parent (fun _ => True) →
          (∀ p, (t.find? fun i => i.pathname = name) = some p → DropsNothing s p.inodeId) →
          NoOrphan s → NoOrphan s') ∧ StaysHeld s s')
      (fun e s' => e.Thrown →
        (s' = s ∧ s.view.HasName parent name ∧ ¬ s.view.Removable parent name) ∨
        e = .htmpfs .doubleMkpathname ∧ BlocksOk s' ∧
          s.view.RemovesChild parent name s'.view ∧ s'.view.HasName parent name) := by
  unfold Fuse.relink
  rw [Program.ends_tryCatch]
  refine (h.ends_addEntry (View.deref?_of_node hn) ht).mono ?_ ?_
  · rintro _ s' ⟨h', hadds, horphan, hheld⟩
    exact ⟨h', Or.inl hadds, fun hfree _ => horphan hfree, hheld⟩
  rintro e s' (rfl | ⟨rfl, rfl, hany⟩)
  · rw [if_neg (by simp), Program.ends_throw]
    exact fun hthrown => absurd hthrown Exit.not_thrown_badAlloc
  have hname : s'.view.HasName parent name :=
    ⟨t, by rw [View.tableAt_of_node hn, blockSize_view, ht], hany⟩
  rw [if_pos rfl, Program.ends_bind]
  refine (h.ends_removeChild hlist).mono ?_ ?_
  swap
  · rintro e s₀ ⟨hfails, hrem⟩ hthrown
    refine Or.inl ⟨(hfails hthrown).1, hname, fun hr => ?_⟩
    exact Exit.not_thrown_badAlloc (hrem hr ▸ hthrown)
  rintro _ s₀ ⟨h₀, hremove, horphan₀, hheld₀, _⟩
  obtain ⟨n₀, t', hn₀, haddr, hdir₀, ht', ht₀⟩ := hremove.node_parent hn
  have hderef : s₀.view.deref? ⟨parent, n.addr⟩ = some n₀ :=
    View.deref?_eq_some.mpr ⟨hn₀, haddr⟩
  have hrefresh := h₀.refresh_eq ⟨t, ⟨parent, n.addr⟩, curModifiableVer⟩ hderef hdir₀
  rw [← blockSize_view, ht₀] at hrefresh
  rw [Program.ends_bind]
  refine Program.Ends.reads_ok hrefresh ?_
  refine (h₀.ends_addEntry hderef ht₀).mono ?_ ?_
  · rintro _ s₁ ⟨h₁, hadds, horphan₁, hheld₁⟩
    refine ⟨h₁, Or.inr ⟨s₀.view, hremove, hadds⟩, fun hfree hdrops horphan => ?_,
      fun j touched hfree => hheld₁ j touched (hheld₀ j touched hfree)⟩
    refine horphan₁ (hheld₀ _ _ hfree) (horphan₀ hfree (fun t₁ p ht₁ hp => ?_) horphan)
    rw [View.tableAt_of_node hn, blockSize_view, ht] at ht₁
    obtain rfl := Except.ok.inj ht₁
    exact hdrops p hp
  · rintro e s₁ (rfl | ⟨rfl, rfl, hagain⟩) hthrown
    · exact absurd hthrown Exit.not_thrown_badAlloc
    · exact Or.inr ⟨rfl, h₀, hremove, _, by rw [View.tableAt_of_node hn₀, ht₀], hagain⟩

/-- The second half fails without a change, and not where the old entry is found. -/
theorem BlocksOk.ends_unlinkOriginal (h : BlocksOk s) {cs : List Bytes}
    (hcs : ∀ c ∈ cs, IsName c) :
    Ends (Fuse.unlinkOriginal ⟨[] :: cs⟩ name) s
      (fun _ s' => BlocksOk s' ∧ ∃ parent, s.view.resolveComps cs = .ok parent ∧
        s.view.DropsEntry parent name s'.view ∧
        (HeldElsewhere s parent (fun _ => True) → NoOrphan s → NoOrphan s'))
      (fun e s' => e.Thrown → s' = s ∧
        (s.view.resolveComps cs = .error e ∨ ∃ parent, s.view.resolveComps cs = .ok parent ∧
          s.view.tableAt parent curModifiableVer ≠ .error .undefined ∧
          ¬ s.view.HasName parent name)) := by
  unfold Fuse.unlinkOriginal Fuse.inodeByPath
  simp only [Program.ends_bind]
  rw [Program.ends_reads, h.resolve_eq, View.resolve_toString hcs]
  refine ⟨fun parent hparent => ?_, fun e he _ => ⟨rfl, Or.inl he⟩⟩
  refine ends_getInodeById (fun n hn => ?_) fun e hnone _ _ =>
    ⟨rfl, Or.inr ⟨parent, hparent, ?_, ?_⟩⟩
  rotate_left
  · rw [View.tableAt_of_none hnone]
    simp
  · rintro ⟨t, ht, _⟩
    rw [View.tableAt_of_none hnone] at ht
    simp at ht
  refine h.ends_resolver_new (View.deref?_of_node hn) (fun t hdir ht => ?_)
    fun e herr _ hthrown => ⟨rfl, Or.inr ⟨parent, hparent, ?_, ?_⟩⟩
  rotate_left
  · rw [View.tableAt_of_node hn, blockSize_view, herr]
    rintro hundef
    rw [Except.error.inj hundef] at hthrown
    exact Exit.not_thrown_undefined hthrown
  · rintro ⟨t, ht, _⟩
    rw [View.tableAt_of_node hn, blockSize_view, herr] at ht
    simp at ht
  have htable : s.view.tableAt parent curModifiableVer = .ok t := by
    rw [View.tableAt_of_node hn, blockSize_view, ht]
  unfold DirectoryResolver.removePath
  cases hp : t.find? fun i => i.pathname = name with
  | none =>
      have hnone : ∀ p ∈ t, p.pathname ≠ name := by simpa using hp
      refine Program.Ends.reads_error (e := .htmpfs .requestedInodeNotFound) ?_
        fun _ => ⟨rfl, Or.inr ⟨parent, hparent, by simp [htable], ?_⟩⟩
      · rw [if_neg (by simpa using hnone)]
        rfl
      · rintro ⟨t', ht', p, hp, hname⟩
        obtain rfl := Except.ok.inj (htable.symm.trans ht')
        exact hnone p hp hname
  | some p =>
      have hname : p.pathname = name := by simpa using List.find?_some hp
      have hany : t.any (fun i => decide (i.pathname = name)) = true := by
        rw [List.any_eq_true]
        exact ⟨p, List.mem_of_find?_eq_some hp, by simpa using hname⟩
      refine Program.Ends.reads_ok
        (a := ⟨t.eraseP fun i => i.pathname = name, ⟨parent, n.addr⟩, curModifiableVer⟩) ?_ ?_
      · rw [if_pos hany]
        rfl
      · have hsave := h.ends_saveCurrent
          (r := ⟨t.eraseP fun i => i.pathname = name, ⟨parent, n.addr⟩, curModifiableVer⟩)
          (View.deref?_of_node hn)
        refine hsave.mono ?_ fun _ _ he hthrown =>
          absurd (he ▸ hthrown) Exit.not_thrown_badAlloc
        rintro _ s' ⟨h', hview, horphan, _, hsize, _⟩
        refine ⟨h', parent, hparent, ?_, horphan⟩
        rw [hview]
        exact View.DropsEntry.mk t p htable hp hsize

end Halves

end Htmpfs
