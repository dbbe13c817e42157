import Mathlib
import Htmpfs.Inode
import Htmpfs.Library.Blocks

/-!
# Who may write a block

A call of `write` or `truncate` starts from a bank `b₀`.  It owns the blocks
of the current list that no snapshot froze and those it allocates itself; every
other node of the buffer pool is held for somebody else and stays as it is.
-/

namespace Htmpfs

open Program (Ends)

/-! ## Free ids and links -/

theorem getFreeId_ok {α : Type} {pool : IdPool α} (h : pool.size < pool.maxSize) :
    ∃ id, getFreeId pool = .ok id ∧ pool.find? id = none ∧ id ≤ 2 * pool.size := by
  obtain ⟨id, hsearch, hfree, _, hle, _⟩ :=
    pool.searchFree_size (by have := pool.maxSize.isLt; omega)
  refine ⟨id, ?_, hfree, hle⟩
  simp only [getFreeId, h.ne, if_false, hsearch]
  rfl

/-- A buffer pool after an allocation under the id `id`. -/
theorem ends_emplace {α : Type} {pool : IdPool α} {id : ℕ} {val : α} :
    Ends (emplace id val) pool
      (fun _ pool' => pool' = pool.emplace id val ∧ pool'.size < pool'.maxSize)
      (fun e _ => e = .badAlloc) := by
  unfold emplace
  simp only [Program.ends_bind, Program.ends_get]
  by_cases hsize : pool.maxSize ≤ pool.size + 1
  · simp [hsize]
  · simp only [hsize, if_false, Program.ends_set, true_and]
    rw [IdPool.maxSize_emplace]
    exact lt_of_le_of_lt IdPool.size_emplace_le (by omega)

theorem ends_requestBufferAllocation {pool : IdPool Buffer} (h : pool.size < pool.maxSize) :
    Ends requestBufferAllocation pool
      (fun r pool' => pool.find? r.id = none ∧ r = ⟨r.id, ⟨r.id, pool.nextAddr⟩, false⟩ ∧
        pool' = pool.emplace r.id [] ∧ pool'.size < pool'.maxSize)
      (fun e _ => e = .badAlloc) := by
  obtain ⟨id, hget, hfree, _⟩ := getFreeId_ok h
  unfold requestBufferAllocation
  simp only [Program.ends_bind]
  refine Program.Ends.reads_ok hget (ends_emplace.mono ?_ fun _ _ he => he)
  rintro _ pool' ⟨rfl, hsize⟩
  have hnode : poolAt id (pool.emplace id ([] : Buffer)) = .ok ⟨1, [], pool.nextAddr⟩ := by
    simp only [poolAt, IdPool.find?_emplace hfree, if_true]
    rfl
  exact Program.Ends.reads_ok hnode ⟨hfree, rfl, rfl, hsize⟩

/-! ## Entries and what is behind them -/

/-- The node an entry points at is the one in the pool under the entry's id. -/
def Live (pool : IdPool Buffer) (r : BufferResult) : Prop :=
  ∃ node, pool.find? r.id = some node ∧ r.data = ⟨r.id, node.addr⟩

/-- The bytes behind an entry. -/
def blockData (pool : IdPool Buffer) (r : BufferResult) : Buffer :=
  (pool.deref? r.data).getD []

/-- The blocks of a list. -/
def blockTexts (pool : IdPool Buffer) (list : List BufferResult) : List Bytes :=
  list.map (blockData pool)

/-- The bytes of a list, block after block. -/
def content (pool : IdPool Buffer) (list : List BufferResult) : Bytes :=
  (blockTexts pool list).flatten

section Entries

variable {pool pool' : IdPool Buffer} {r : BufferResult} {list : List BufferResult}

theorem Live.deref (h : Live pool r) : Bank.deref pool r = .ok (blockData pool r) := by
  obtain ⟨node, hnode, hdata⟩ := h
  have hval : pool.deref? r.data = some node.val := by
    rw [hdata]
    exact IdPool.deref?_of_find? hnode
  simp only [Bank.deref, blockData, hval]
  rfl

theorem Live.id_eq (h : Live pool r) : r.data.id = r.id := by
  obtain ⟨node, _, hdata⟩ := h
  rw [hdata]

theorem Live.congr (h : Live pool r) (hfind : pool'.find? r.id = pool.find? r.id) :
    Live pool' r := by
  obtain ⟨node, hnode, hdata⟩ := h
  exact ⟨node, hfind.trans hnode, hdata⟩

theorem blockData_eq {node : PoolNode Buffer} (hnode : pool.find? r.id = some node)
    (hdata : r.data = ⟨r.id, node.addr⟩) : blockData pool r = node.val := by
  simp only [blockData, hdata, IdPool.deref?_of_find? hnode, Option.getD_some]

theorem Live.blockData_congr (h : Live pool r) (hfind : pool'.find? r.id = pool.find? r.id) :
    blockData pool' r = blockData pool r := by
  obtain ⟨node, hnode, hdata⟩ := h
  rw [blockData_eq hnode hdata, blockData_eq (hfind.trans hnode) hdata]

theorem blockTexts_congr (hlive : ∀ r ∈ list, Live pool r)
    (hfind : ∀ r ∈ list, pool'.find? r.id = pool.find? r.id) :
    blockTexts pool' list = blockTexts pool list :=
  List.map_congr_left fun r hr => (hlive r hr).blockData_congr (hfind r hr)

theorem content_congr (hlive : ∀ r ∈ list, Live pool r)
    (hfind : ∀ r ∈ list, pool'.find? r.id = pool.find? r.id) :
    content pool' list = content pool list := by
  rw [content, content, blockTexts_congr hlive hfind]

@[simp] theorem length_blockTexts : (blockTexts pool list).length = list.length := by
  simp [blockTexts]

theorem getElem?_blockTexts (i : ℕ) :
    (blockTexts pool list)[i]? = (list[i]?).map (blockData pool) := by
  simp [blockTexts]

end Entries

/-! ## Ownership -/

namespace Bank

/-- The texts of the current blocks. -/
def texts (b : Bank) : List Bytes := blockTexts b.bufferPool b.blockList

/-- A node that is not an unfrozen block of the bank. -/
def Held (b : Bank) (id : ℕ) : Prop :=
  (b.bufferPool.find? id).isSome ∧ ∀ r ∈ b.blockList, r.isSnapshoted = false → r.id ≠ id

/-- What stays true while a call that started from `b₀` changes its bank. -/
structure Own (b₀ b : Bank) : Prop where
  kept : ∀ id, b₀.Held id → b.bufferPool.find? id = b₀.bufferPool.find? id
  live : ∀ r ∈ b.blockList, Live b.bufferPool r
  frozen : ∀ r ∈ b.blockList, r.isSnapshoted = true → r ∈ b₀.blockList ∧ b₀.Held r.id
  owned : ∀ r ∈ b.blockList, r.isSnapshoted = false →
    ¬ b₀.Held r.id ∧ ∀ node, b.bufferPool.find? r.id = some node → node.linkCount = 1
  nodup : (b.blockList.map (·.id)).Nodup
  accounted : ∀ id, (b.bufferPool.find? id).isSome →
    b₀.Held id ∨ ∃ r ∈ b.blockList, r.isSnapshoted = false ∧ r.id = id
  small : b.bufferPool.size < b.bufferPool.maxSize

namespace Own

variable {bs : ℕ} {b₀ b : Bank}

theorem not_held_of_fresh (h : Own b₀ b) {id : ℕ} (hfresh : b.bufferPool.find? id = none) :
    ¬ b₀.Held id := by
  intro hheld
  have hsome := hheld.1
  rw [← h.kept id hheld, hfresh] at hsome
  simp at hsome

theorem ne_of_fresh (h : Own b₀ b) {id : ℕ} (hfresh : b.bufferPool.find? id = none)
    {r : BufferResult} (hr : r ∈ b.blockList) : r.id ≠ id := by
  rintro rfl
  obtain ⟨node, hnode, _⟩ := h.live r hr
  simp [hfresh] at hnode

theorem eq_of_id_eq (h : Own b₀ b) {r r' : BufferResult} (hr : r ∈ b.blockList)
    (hr' : r' ∈ b.blockList) (hid : r.id = r'.id) : r = r' :=
  List.inj_on_of_nodup_map h.nodup hr hr' hid

/-- A new node takes a place in the list; the frozen entries may leave it. -/
theorem alloc (h : Own b₀ b) {id addr : ℕ} {data : Bytes} {pool : IdPool Buffer}
    {list : List BufferResult} (hfresh : b.bufferPool.find? id = none)
    (hpool : ∀ j, pool.find? j = if j = id then some ⟨1, data, addr⟩ else b.bufferPool.find? j)
    (hsmall : pool.size < pool.maxSize)
    (hmem : ∀ r ∈ list, r ∈ b.blockList ∨ r = ⟨id, ⟨id, addr⟩, false⟩)
    (hkeep : ∀ r ∈ b.blockList, r.isSnapshoted = false → r ∈ list)
    (hnew : (⟨id, ⟨id, addr⟩, false⟩ : BufferResult) ∈ list)
    (hnodup : (list.map (·.id)).Nodup) :
    Own b₀ ⟨pool, list⟩ where
  kept := by
    intro j hj
    have hne : j ≠ id := by
      rintro rfl
      exact h.not_held_of_fresh hfresh hj
    rw [hpool, if_neg hne, h.kept j hj]
  live := by
    intro r hr
    rcases hmem r hr with hold | rfl
    · exact (h.live r hold).congr (by rw [hpool, if_neg (h.ne_of_fresh hfresh hold)])
    · exact ⟨_, by rw [hpool, if_pos rfl], rfl⟩
  frozen := by
    intro r hr hfrozen
    rcases hmem r hr with hold | rfl
    · exact h.frozen r hold hfrozen
    · simp at hfrozen
  owned := by
    intro r hr hunfrozen
    rcases hmem r hr with hold | rfl
    · refine ⟨(h.owned r hold hunfrozen).1, fun node hnode => ?_⟩
      rw [hpool, if_neg (h.ne_of_fresh hfresh hold)] at hnode
      exact (h.owned r hold hunfrozen).2 node hnode
    · refine ⟨h.not_held_of_fresh hfresh, fun node hnode => ?_⟩
      rw [hpool, if_pos rfl] at hnode
      obtain rfl := Option.some.inj hnode
      rfl
  nodup := hnodup
  accounted := by
    intro j hj
    by_cases hid : j = id
    · exact Or.inr ⟨_, hnew, rfl, hid.symm⟩
    · rw [hpool, if_neg hid] at hj
      rcases h.accounted j hj with hheld | ⟨r, hr, hunfrozen, hrid⟩
      · exact Or.inl hheld
      · exact Or.inr ⟨r, hkeep r hr hunfrozen, hunfrozen, hrid⟩
  small := hsmall

/-- Writing to the buffer of an unfrozen entry. -/
theorem setVal (h : Own b₀ b) {r : BufferResult} {data : Bytes} (hr : r ∈ b.blockList)
    (hunfrozen : r.isSnapshoted = false) :
    Own b₀ { b with bufferPool := b.bufferPool.setVal r.data.id data } := by
  have hrid : r.data.id = r.id := (h.live r hr).id_eq
  have hfind : ∀ j, (b.bufferPool.setVal r.data.id data).find? j =
      if j = r.id then (b.bufferPool.find? r.id).map fun node => { node with val := data }
      else b.bufferPool.find? j := by
    intro j
    rw [hrid, IdPool.find?_setVal]
  refine
    { kept := ?_, live := ?_, frozen := h.frozen, owned := ?_, nodup := h.nodup, accounted := ?_,
      small := by simpa using h.small }
  · intro j hj
    have hne : j ≠ r.id := by
      rintro rfl
      exact (h.owned r hr hunfrozen).1 hj
    simp only [hfind, if_neg hne, h.kept j hj]
  · intro r' hr'
    by_cases hid : r'.id = r.id
    · obtain ⟨node, hnode, hdata⟩ := h.live r' hr'
      refine ⟨{ node with val := data }, ?_, hdata⟩
      simp only [hfind, if_pos hid]
      rw [← hid, hnode]
      rfl
    · exact (h.live r' hr').congr (by simp only [hfind, if_neg hid])
  · intro r' hr' hunfrozen'
    refine ⟨(h.owned r' hr' hunfrozen').1, fun node hnode => ?_⟩
    simp only [hfind] at hnode
    split_ifs at hnode with hid
    · obtain ⟨node', hnode', rfl⟩ := Option.map_eq_some_iff.mp hnode
      exact (h.owned r hr hunfrozen).2 node' hnode'
    · exact (h.owned r' hr' hunfrozen').2 node hnode
  · intro j hj
    simp only [hfind] at hj
    split_ifs at hj with hid
    · exact Or.inr ⟨r, hr, hunfrozen, hid.symm⟩
    · exact h.accounted j hj

theorem texts_setVal (h : Own b₀ b) {r : BufferResult} {data : Bytes} {i : ℕ}
    (hi : b.blockList[i]? = some r) :
    texts { b with bufferPool := b.bufferPool.setVal r.data.id data } = b.texts.set i data := by
  have hr : r ∈ b.blockList := List.mem_of_getElem? hi
  have hrid : r.data.id = r.id := (h.live r hr).id_eq
  apply List.ext_getElem?
  intro j
  simp only [texts, getElem?_blockTexts]
  by_cases hj : i = j
  · subst hj
    obtain ⟨node, hnode, hdata⟩ := h.live r hr
    have hnew : (b.bufferPool.setVal r.data.id data).find? r.id =
        some { node with val := data } := by
      rw [IdPool.find?_setVal, hrid, if_pos rfl, hnode]
      rfl
    rw [List.getElem?_set_self (by simpa using (List.getElem?_eq_some_iff.mp hi).1), hi,
      Option.map_some, blockData_eq hnew hdata]
  · rw [List.getElem?_set_ne hj, getElem?_blockTexts]
    cases hrj : b.blockList[j]? with
    | none => rfl
    | some r' =>
        have hr' : r' ∈ b.blockList := List.mem_of_getElem? hrj
        have hne : r'.id ≠ r.id := by
          intro hid
          have hrr := h.eq_of_id_eq hr' hr hid
          subst hrr
          have hnodup := List.Nodup.of_map _ h.nodup
          exact hj ((List.getElem?_inj (List.getElem?_eq_some_iff.mp hi).1 hnodup).mp
            (hi.trans hrj.symm))
        simp only [Option.map_some]
        rw [(h.live r' hr').blockData_congr]
        rw [hrid, IdPool.find?_setVal, if_neg hne]

end Own

/-! ## One turn of each loop -/

section Turns

variable {bs : ℕ} {b₀ b : Bank} {r : BufferResult} {i : ℕ}

theorem ends_onPool {α : Type} {m : PoolM α} {Q : α → Bank → Prop} {E : Exit → Bank → Prop} :
    Ends (onPool m) b Q E ↔
      Ends m b.bufferPool (fun a pool => Q a { b with bufferPool := pool })
        (fun e pool => E e { b with bufferPool := pool }) :=
  Program.ends_zoom rfl

theorem ends_writeBuffer (hlive : Live b.bufferPool r) {buffer : Bytes} {offset : ℕ}
    {resize : Bool} {Q : ℕ → Bank → Prop} {E : Exit → Bank → Prop}
    (hQ : Q ((blockData b.bufferPool r).write buffer offset resize).1
      { b with bufferPool := b.bufferPool.setVal r.data.id
                ((blockData b.bufferPool r).write buffer offset resize).2 }) :
    Ends (writeBuffer r buffer offset resize) b Q E := by
  unfold writeBuffer
  simp only [Program.ends_bind, Program.ends_modify, Program.ends_pure]
  exact Program.Ends.reads_ok hlive.deref hQ

theorem index_ok (hi : b.blockList[i]? = some r) : index i b = .ok r := by
  simp only [index, hi]
  rfl

theorem blockAt_ok (hi : b.blockList[i]? = some r) : blockAt i b = .ok r := by
  simp only [blockAt, hi]
  rfl

theorem ends_readBuffer (hlive : Live b.bufferPool r) {length offset : ℕ}
    {Q : Bytes → Bank → Prop} {E : Exit → Bank → Prop}
    (hQ : Q ((blockData b.bufferPool r).read length offset) b) :
    Ends (Program.reads (readBuffer r length offset)) b Q E := by
  refine Program.Ends.reads_ok ?_ hQ
  simp only [readBuffer, hlive.deref]
  rfl

/-- A turn of a copy-on-write loop: the entry is not frozen any more, the bytes are the same. -/
theorem Own.ends_thaw (h : Own b₀ b) (hi : b.blockList[i]? = some r)
    (hlen : (blockData b.bufferPool r).length ≤ bs) :
    Ends (thaw bs i) b
      (fun _ b' => Own b₀ b' ∧ b'.texts = b.texts ∧
        ∃ r', r'.isSnapshoted = false ∧ b'.blockList = b.blockList.set i r')
      (fun e _ => e = .badAlloc) := by
  have hr : r ∈ b.blockList := List.mem_of_getElem? hi
  have hilt : i < b.blockList.length := (List.getElem?_eq_some_iff.mp hi).1
  unfold thaw
  simp only [Program.ends_bind]
  refine Program.Ends.reads_ok (index_ok hi) ?_
  by_cases hfrozen : r.isSnapshoted = true
  · simp only [hfrozen, if_true, Program.ends_bind]
    refine ends_readBuffer (h.live r hr) ?_
    rw [Buffer.read_all hlen, ends_onPool]
    refine (ends_requestBufferAllocation h.small).mono ?_ fun _ _ he => he
    rintro n pool ⟨hfresh, hn, rfl, hsmall⟩
    have hnlive : Live (b.bufferPool.emplace n.id []) n := by
      refine ⟨⟨1, [], b.bufferPool.nextAddr⟩, ?_, by rw [hn]⟩
      rw [IdPool.find?_emplace hfresh, if_pos rfl]
    refine ends_writeBuffer hnlive ?_
    rw [Buffer.write_front, hnlive.id_eq]
    simp only [setBlock, Program.ends_modify]
    have hpool : ∀ j, ((b.bufferPool.emplace n.id []).setVal n.id
        (blockData b.bufferPool r)).find? j =
        if j = n.id then some ⟨1, blockData b.bufferPool r, b.bufferPool.nextAddr⟩
        else b.bufferPool.find? j := by
      intro j
      rw [IdPool.find?_setVal, IdPool.find?_emplace hfresh, IdPool.find?_emplace hfresh,
        if_pos rfl]
      split_ifs with hj <;> rfl
    have hmem : ∀ r' ∈ b.blockList.set i n, r' ∈ b.blockList ∨ r' = n := by
      intro r' hr'
      exact List.mem_or_eq_of_mem_set hr'
    have hnodup : ((b.blockList.set i n).map (·.id)).Nodup := by
      rw [List.map_set]
      refine h.nodup.set ?_
      rw [List.mem_map]
      rintro ⟨r', hr', hid⟩
      exact h.ne_of_fresh hfresh hr' hid
    refine ⟨?_, ?_, n, by rw [hn], rfl⟩
    · refine h.alloc hfresh hpool (by simpa using hsmall) (by rw [← hn]; exact hmem) ?_ ?_ hnodup
      · intro r' hr' hunfrozen
        obtain ⟨j, hj⟩ := List.getElem?_of_mem hr'
        have hne : i ≠ j := by
          rintro rfl
          rw [hi] at hj
          obtain rfl := Option.some.inj hj
          simp [hfrozen] at hunfrozen
        exact List.mem_of_getElem? ((List.getElem?_set_ne hne).trans hj)
      · rw [← hn]
        exact List.mem_set hilt n
    · apply List.ext_getElem?
      intro j
      simp only [texts, getElem?_blockTexts]
      by_cases hj : i = j
      · subst hj
        rw [List.getElem?_set_self hilt, hi, Option.map_some, Option.map_some]
        congr 1
        exact blockData_eq ((hpool n.id).trans (if_pos rfl)) (by rw [hn])
      · rw [List.getElem?_set_ne hj]
        cases hrj : b.blockList[j]? with
        | none => rfl
        | some r' =>
            have hr' := List.mem_of_getElem? hrj
            simp only [Option.map_some]
            rw [(h.live r' hr').blockData_congr]
            rw [hpool, if_neg (h.ne_of_fresh hfresh hr')]
  · simp only [hfrozen, Bool.false_eq_true, if_false, Program.ends_pure]
    refine ⟨h, trivial, r, by simpa using hfrozen, ?_⟩
    obtain ⟨hlt, rfl⟩ := List.getElem?_eq_some_iff.mp hi
    rw [List.set_getElem_self]

/-- A turn of the loop that appends lost buffers. -/
theorem Own.ends_append (h : Own b₀ b) {turn : ℕ} :
    Ends (append turn) b
      (fun _ b' => Own b₀ b' ∧ b'.texts = b.texts ++ [[]] ∧
        ∃ r', r'.isSnapshoted = false ∧ b'.blockList = b.blockList ++ [r'])
      (fun e _ => e = .badAlloc) := by
  unfold append
  rw [Program.ends_bind, ends_onPool]
  refine (ends_requestBufferAllocation h.small).mono ?_ fun _ _ he => he
  rintro n pool ⟨hfresh, hn, rfl, hsmall⟩
  unfold emplaceBack
  rw [Program.ends_modify]
  have hpool : ∀ j, (b.bufferPool.emplace n.id []).find? j =
      if j = n.id then some ⟨1, [], b.bufferPool.nextAddr⟩ else b.bufferPool.find? j :=
    fun j => IdPool.find?_emplace hfresh
  refine ⟨?_, ?_, n, by rw [hn], rfl⟩
  · refine h.alloc hfresh hpool hsmall ?_ ?_ ?_ ?_
    · intro r' hr'
      rw [← hn]
      simpa using hr'
    · intro r' hr' _
      exact List.mem_append_left _ hr'
    · rw [← hn]
      simp
    · rw [List.map_append, List.nodup_append]
      refine ⟨h.nodup, by simp, ?_⟩
      rintro id hid id' hid' rfl
      obtain ⟨r', hr', hrid⟩ := List.mem_map.mp hid
      simp only [List.map_cons, List.map_nil, List.mem_singleton] at hid'
      exact h.ne_of_fresh hfresh hr' (hrid.trans hid')
  · simp only [texts, blockTexts, List.map_append, List.map_cons, List.map_nil]
    congr 1
    · refine List.map_congr_left fun r' hr' => (h.live r' hr').blockData_congr ?_
      rw [hpool, if_neg (h.ne_of_fresh hfresh hr')]
    · congr 1
      exact blockData_eq ((hpool n.id).trans (if_pos rfl)) (by rw [hn])

/-- Leaving out the last entry, whose node is erased if nobody else holds it. -/
theorem Own.dropLast (h : Own b₀ b) (pool : IdPool Buffer)
    (hlast : b.blockList.getLast? = some r)
    (hpool : pool = if r.isSnapshoted then b.bufferPool else b.bufferPool.erase r.id) :
    Own b₀ ⟨pool, b.blockList.dropLast⟩ ∧
      blockTexts pool b.blockList.dropLast = b.texts.dropLast := by
  have hsplit : b.blockList = b.blockList.dropLast ++ [r] := by
    obtain ⟨init, hinit⟩ := List.getLast?_eq_some_iff.mp hlast
    rw [hinit, List.dropLast_concat]
  have hr : r ∈ b.blockList := List.mem_of_getLast? hlast
  have hsub : ∀ r' ∈ b.blockList.dropLast, r' ∈ b.blockList := fun r' => List.mem_of_mem_dropLast
  have hother : ∀ r' ∈ b.blockList.dropLast, r'.id ≠ r.id := by
    intro r' hr' hid
    have hnodup := h.nodup
    rw [hsplit, List.map_append, List.nodup_append] at hnodup
    exact hnodup.2.2 r'.id (List.mem_map_of_mem hr') r.id (by simp) hid
  have hfind : ∀ j, (r.isSnapshoted = true ∨ j ≠ r.id) → pool.find? j = b.bufferPool.find? j := by
    intro j hj
    subst hpool
    split_ifs with hfrozen
    · rfl
    · rw [IdPool.find?_erase, if_neg (by simpa [hfrozen] using hj)]
  have hfind' : ∀ r' ∈ b.blockList.dropLast, pool.find? r'.id = b.bufferPool.find? r'.id :=
    fun r' hr' => hfind _ (Or.inr (hother r' hr'))
  refine ⟨?_, ?_⟩
  · refine
      { kept := ?_, live := fun r' hr' => (h.live r' (hsub r' hr')).congr (hfind' r' hr'),
        frozen := fun r' hr' => h.frozen r' (hsub r' hr'), owned := ?_, nodup := ?_,
        accounted := ?_, small := ?_ }
    · intro j hj
      rw [hfind, h.kept j hj]
      by_cases hfrozen : r.isSnapshoted = true
      · exact Or.inl hfrozen
      · right
        rintro rfl
        exact (h.owned r hr (by simpa using hfrozen)).1 hj
    · intro r' hr' hunfrozen
      refine ⟨(h.owned r' (hsub r' hr') hunfrozen).1, fun node hnode => ?_⟩
      rw [hfind' r' hr'] at hnode
      exact (h.owned r' (hsub r' hr') hunfrozen).2 node hnode
    · exact h.nodup.sublist ((List.dropLast_sublist _).map _)
    · intro j hj
      have hold : (b.bufferPool.find? j).isSome := by
        subst hpool
        split_ifs at hj with hfrozen
        · exact hj
        · rw [IdPool.find?_erase] at hj
          split_ifs at hj with hid
          · simp at hj
          · exact hj
      rcases h.accounted j hold with hheld | ⟨r', hr', hunfrozen, hid⟩
      · exact Or.inl hheld
      · rw [hsplit, List.mem_append, List.mem_singleton] at hr'
        rcases hr' with hr' | rfl
        · exact Or.inr ⟨r', hr', hunfrozen, hid⟩
        · simp [hpool, hunfrozen, IdPool.find?_erase, hid] at hj
    · subst hpool
      split_ifs
      · exact h.small
      · exact lt_of_le_of_lt IdPool.size_erase_le h.small
  · rw [texts, blockTexts, blockTexts, List.map_congr_left fun r' hr' =>
      (h.live r' (hsub r' hr')).blockData_congr (hfind' r' hr'), List.map_dropLast]

/-- A turn of the loop that removes the last buffer. -/
theorem Own.ends_dropLast (h : Own b₀ b) (hne : b.blockList ≠ []) {turn : ℕ} :
    Ends (Bank.dropLast turn) b
      (fun _ b' => Own b₀ b' ∧ b'.texts = b.texts.dropLast ∧
        b'.blockList = b.blockList.dropLast)
      (fun e _ => e = .badAlloc) := by
  obtain ⟨r, hlast⟩ := Option.ne_none_iff_exists'.mp (mt List.getLast?_eq_none_iff.mp hne)
  have hr : r ∈ b.blockList := List.mem_of_getLast? hlast
  unfold Bank.dropLast
  simp only [Program.ends_bind]
  refine Program.Ends.reads_ok (a := r) (by simp only [hlast]; rfl) ?_
  by_cases hfrozen : r.isSnapshoted = true
  · simp only [hfrozen, if_true, Program.ends_modify]
    have hdrop := h.dropLast b.bufferPool hlast (by simp [hfrozen])
    exact ⟨hdrop.1, hdrop.2, trivial⟩
  · simp only [hfrozen, Bool.false_eq_true, if_false, ends_onPool, unlinkBuffer, Program.ends_bind,
      Program.ends_get]
    obtain ⟨node, hnode, _⟩ := h.live r hr
    have hone := (h.owned r hr (by simpa using hfrozen)).2 node hnode
    simp only [hnode, hone, if_true, Program.ends_set, Program.ends_modify]
    have hdrop := h.dropLast (b.bufferPool.erase r.id) hlast (by simp [hfrozen])
    exact ⟨hdrop.1, hdrop.2, trivial⟩

/-- Resizing the buffer of one unfrozen entry. -/
theorem Own.ends_truncateAt (h : Own b₀ b) (hi : b.blockList[i]? = some r)
    (hunfrozen : r.isSnapshoted = false) {length : ℕ} :
    Ends (truncateAt i length) b
      (fun _ b' => Own b₀ b' ∧ b'.blockList = b.blockList ∧
        b'.texts = b.texts.set i (Blocks.resize 0 length (blockData b.bufferPool r)))
      (fun e _ => e = .badAlloc) := by
  have hr : r ∈ b.blockList := List.mem_of_getElem? hi
  unfold truncateAt truncateBuffer
  simp only [Program.ends_bind]
  refine Program.Ends.reads_ok (blockAt_ok hi) ?_
  refine Program.Ends.reads_ok (h.live r hr).deref ?_
  simp only [Program.ends_modify]
  rw [Buffer.truncate_eq_resize]
  exact ⟨h.setVal hr hunfrozen, trivial, h.texts_setVal hi⟩

/-- A write to the buffer of one unfrozen entry that takes all bytes. -/
theorem Own.ends_writeAt_of (h : Own b₀ b) (hi : b.blockList[i]? = some r)
    (hunfrozen : r.isSnapshoted = false) {buffer text : Bytes} {offset : ℕ} {resize : Bool}
    (hwrite : (blockData b.bufferPool r).write buffer offset resize = (buffer.length, text)) :
    Ends (writeAt i buffer offset resize) b
      (fun _ b' => Own b₀ b' ∧ b'.blockList = b.blockList ∧ b'.texts = b.texts.set i text)
      (fun _ _ => False) := by
  have hr : r ∈ b.blockList := List.mem_of_getElem? hi
  unfold writeAt
  simp only [Program.ends_bind]
  refine Program.Ends.reads_ok (blockAt_ok hi) (ends_writeBuffer (h.live r hr) ?_)
  rw [hwrite]
  simp only [if_true, Program.ends_pure]
  exact ⟨h.setVal hr hunfrozen, trivial, h.texts_setVal hi⟩

/-- Overwriting inside the buffer of one unfrozen entry. -/
theorem Own.ends_writeAt (h : Own b₀ b) (hi : b.blockList[i]? = some r)
    (hunfrozen : r.isSnapshoted = false) {buffer : Bytes} {offset : ℕ} {resize : Bool}
    (hfits : offset + buffer.length ≤ (blockData b.bufferPool r).length)
    (hend : resize = true → offset + buffer.length = (blockData b.bufferPool r).length) :
    Ends (writeAt i buffer offset resize) b
      (fun _ b' => Own b₀ b' ∧ b'.blockList = b.blockList ∧
        b'.texts = b.texts.set i (Blocks.overwrite offset buffer (blockData b.bufferPool r)))
      (fun e _ => e = .badAlloc) :=
  (h.ends_writeAt_of hi hunfrozen (Buffer.write_eq_overwrite hfits hend)).mono
    (fun _ _ hb => hb) fun _ _ => False.elim

end Turns

end Bank

end Htmpfs
