import Mathlib

/-!
# Pools of counted nodes under recycled ids

A pool maps ids to nodes carrying a link count, and hands out an id that is
free at the moment.  Ids are recycled; a node's address is not, so a pointer
that outlived its node is told from a pointer to the id's next owner.
-/

/-- A map node: its payload, its link count and its identity. -/
structure PoolNode (α : Type) where
  linkCount : ℕ
  val : α
  addr : ℕ

/-- A pointer to the payload of the node that had this id and this address. -/
structure PoolPtr where
  id : ℕ
  addr : ℕ
  deriving DecidableEq, Repr

/-- Nodes by id, the address of the next node to be allocated, and the number of nodes that the
map says it can have at most, which is below the largest pointer difference. -/
structure IdPool (α : Type) where
  nodes : Std.ExtTreeMap ℕ (PoolNode α)
  nextAddr : ℕ
  maxSize : Fin (2 ^ 63)

namespace IdPool

variable {α : Type}

/-- The pool without nodes. -/
def empty (maxSize : Fin (2 ^ 63)) : IdPool α := ⟨∅, 0, maxSize⟩

def size (p : IdPool α) : ℕ := p.nodes.size

def find? (p : IdPool α) (id : ℕ) : Option (PoolNode α) := p.nodes[id]?

/-- Follow a pointer; `none` when its node is gone. -/
def deref? (p : IdPool α) (q : PoolPtr) : Option α :=
  match p.find? q.id with
  | some node => if node.addr = q.addr then some node.val else none
  | none => none

/-- The linear search `while (find(id) != end) id++` on 64-bit ids; `none` is out of fuel. -/
def searchFree (p : IdPool α) : ℕ → ℕ → Option ℕ
  | 0, _ => none
  | fuel + 1, id =>
      if (p.find? id).isSome then searchFree p fuel ((id + 1) % 2 ^ 64) else some id

/-- `emplace`: a node with one link, unless the id is taken. -/
def emplace (p : IdPool α) (id : ℕ) (val : α) : IdPool α :=
  match p.find? id with
  | some _ => p
  | none =>
      { p with nodes := p.nodes.insert id ⟨1, val, p.nextAddr⟩, nextAddr := p.nextAddr + 1 }

def erase (p : IdPool α) (id : ℕ) : IdPool α := { p with nodes := p.nodes.erase id }

/-- Change the node of an id in place. -/
def modify (p : IdPool α) (id : ℕ) (f : PoolNode α → PoolNode α) : IdPool α :=
  { p with nodes := p.nodes.modify id f }

def setLinkCount (p : IdPool α) (id n : ℕ) : IdPool α :=
  p.modify id fun node => { node with linkCount := n }

def setVal (p : IdPool α) (id : ℕ) (val : α) : IdPool α :=
  p.modify id fun node => { node with val := val }

section Lookup

variable {p q : IdPool α} {id id' n : ℕ} {val : α} {node : PoolNode α} {max : Fin (2 ^ 63)}

@[ext] theorem ext (h : ∀ id, p.find? id = q.find? id) (ha : p.nextAddr = q.nextAddr)
    (hmax : p.maxSize = q.maxSize) : p = q := by
  cases p
  cases q
  simp only [mk.injEq]
  exact ⟨Std.ExtTreeMap.ext_getElem? h, ha, hmax⟩

@[simp] theorem find?_empty : (empty max : IdPool α).find? id = none := by
  simp [empty, find?]

@[simp] theorem size_empty : (empty max : IdPool α).size = 0 := Std.ExtTreeMap.size_empty

@[simp] theorem nextAddr_empty : (empty max : IdPool α).nextAddr = 0 := rfl

@[simp] theorem maxSize_empty : (empty max : IdPool α).maxSize = max := rfl

theorem find?_emplace (h : p.find? id = none) :
    (p.emplace id val).find? id' = if id' = id then some ⟨1, val, p.nextAddr⟩ else p.find? id' := by
  simp only [emplace, h]
  simp only [find?, Std.ExtTreeMap.getElem?_insert, Nat.compare_eq_eq]
  by_cases hid : id' = id
  · simp [hid]
  · simp [hid, Ne.symm hid]

theorem nextAddr_emplace (h : p.find? id = none) :
    (p.emplace id val).nextAddr = p.nextAddr + 1 := by
  simp [emplace, h]

theorem find?_erase : (p.erase id).find? id' = if id' = id then none else p.find? id' := by
  simp only [erase, find?, Std.ExtTreeMap.getElem?_erase, Nat.compare_eq_eq]
  by_cases hid : id' = id
  · simp [hid]
  · simp [hid, Ne.symm hid]

@[simp] theorem maxSize_emplace : (p.emplace id val).maxSize = p.maxSize := by
  unfold emplace
  cases p.find? id <;> rfl

@[simp] theorem nextAddr_erase : (p.erase id).nextAddr = p.nextAddr := rfl

@[simp] theorem maxSize_erase : (p.erase id).maxSize = p.maxSize := rfl

theorem find?_modify {f : PoolNode α → PoolNode α} :
    (p.modify id f).find? id' = if id' = id then (p.find? id).map f else p.find? id' := by
  simp only [modify, find?, Std.ExtTreeMap.getElem?_modify, Nat.compare_eq_eq]
  by_cases hid : id' = id
  · simp [hid]
  · simp [hid, Ne.symm hid]

@[simp] theorem nextAddr_modify {f : PoolNode α → PoolNode α} :
    (p.modify id f).nextAddr = p.nextAddr := rfl

@[simp] theorem maxSize_modify {f : PoolNode α → PoolNode α} :
    (p.modify id f).maxSize = p.maxSize := rfl

theorem find?_setLinkCount : (p.setLinkCount id n).find? id' =
    if id' = id then (p.find? id).map fun node => { node with linkCount := n } else p.find? id' :=
  find?_modify

@[simp] theorem nextAddr_setLinkCount : (p.setLinkCount id n).nextAddr = p.nextAddr := rfl

@[simp] theorem maxSize_setLinkCount : (p.setLinkCount id n).maxSize = p.maxSize := rfl

theorem find?_setVal : (p.setVal id val).find? id' =
    if id' = id then (p.find? id).map fun node => { node with val := val } else p.find? id' :=
  find?_modify

@[simp] theorem nextAddr_setVal : (p.setVal id val).nextAddr = p.nextAddr := rfl

@[simp] theorem maxSize_setVal : (p.setVal id val).maxSize = p.maxSize := rfl

theorem size_emplace_le : (p.emplace id val).size ≤ p.size + 1 := by
  unfold emplace
  cases p.find? id with
  | some node => exact Nat.le_succ _
  | none => exact Std.ExtTreeMap.size_insert_le

theorem size_emplace (h : p.find? id = none) : (p.emplace id val).size = p.size + 1 := by
  have hnot : p.nodes.contains id = false := by
    rw [find?] at h
    rw [Std.ExtTreeMap.contains_eq_isSome_getElem?, h]
    rfl
  simp only [emplace, h]
  simp only [size]
  rw [Std.ExtTreeMap.size_insert, if_neg (by rw [hnot]; decide)]

theorem size_erase_le : (p.erase id).size ≤ p.size := Std.ExtTreeMap.size_erase_le

@[simp] theorem size_modify {f : PoolNode α → PoolNode α} : (p.modify id f).size = p.size :=
  Std.ExtTreeMap.size_modify

@[simp] theorem size_setLinkCount : (p.setLinkCount id n).size = p.size := size_modify

@[simp] theorem size_setVal : (p.setVal id val).size = p.size := size_modify

theorem deref?_eq_some {ptr : PoolPtr} :
    p.deref? ptr = some val ↔
      ∃ node, p.find? ptr.id = some node ∧ node.addr = ptr.addr ∧ node.val = val := by
  unfold deref?
  cases p.find? ptr.id with
  | none => simp
  | some node => simp

theorem deref?_of_find? (h : p.find? id = some node) :
    p.deref? ⟨id, node.addr⟩ = some node.val :=
  deref?_eq_some.mpr ⟨node, h, rfl, rfl⟩

end Lookup

section Search

variable {p : IdPool α}

theorem find?_eq_none_of_searchFree {fuel start id : ℕ}
    (h : p.searchFree fuel start = some id) : p.find? id = none := by
  induction fuel generalizing start with
  | zero => simp [searchFree] at h
  | succ fuel ih =>
      simp only [searchFree] at h
      by_cases hs : (p.find? start).isSome
      · exact ih (by simpa [hs] using h)
      · obtain rfl : start = id := by simpa [hs] using h
        simpa using hs

/-- A search that ended is not changed by more fuel. -/
theorem searchFree_of_le {fuel fuel' start id : ℕ} (h : p.searchFree fuel start = some id)
    (hle : fuel ≤ fuel') : p.searchFree fuel' start = some id := by
  induction fuel generalizing fuel' start with
  | zero => simp [searchFree] at h
  | succ fuel ih =>
      obtain ⟨rest, rfl⟩ := Nat.exists_eq_add_of_le' hle
      rw [← Nat.add_assoc]
      simp only [searchFree] at h ⊢
      split_ifs at h ⊢
      · exact ih h (Nat.le_add_left _ _)
      · exact h

/-- Without wrapping, the search inspects consecutive ids and stops at the first free one. -/
theorem searchFree_eq_none_or {fuel start : ℕ} (hwrap : start + fuel ≤ 2 ^ 64) :
    (p.searchFree fuel start = none ∧ ∀ k < fuel, (p.find? (start + k)).isSome) ∨
      ∃ k < fuel, p.searchFree fuel start = some (start + k) ∧
        ∀ j < k, (p.find? (start + j)).isSome := by
  induction fuel generalizing start with
  | zero => exact Or.inl ⟨rfl, by simp⟩
  | succ fuel ih =>
      by_cases hs : (p.find? start).isSome
      · have hstep : p.searchFree (fuel + 1) start = p.searchFree fuel ((start + 1) % 2 ^ 64) := by
          simp [searchFree, hs]
        rcases Nat.eq_zero_or_pos fuel with rfl | hfuel
        · left
          refine ⟨by simp [searchFree, hs], fun k hk => ?_⟩
          obtain rfl : k = 0 := by omega
          simpa using hs
        rw [hstep, Nat.mod_eq_of_lt (by omega)]
        rcases @ih (start + 1) (by omega) with ⟨hnone, hall⟩ | ⟨k, hk, hsome, hall⟩
        · refine Or.inl ⟨hnone, fun k hk => ?_⟩
          rcases k with _ | k
          · simpa using hs
          · have := hall k (by omega)
            rwa [show start + (k + 1) = start + 1 + k by omega]
        · refine Or.inr ⟨k + 1, by omega, by rw [hsome]; congr 1; omega, fun j hj => ?_⟩
          rcases j with _ | j
          · simpa using hs
          · have := hall j (by omega)
            rwa [show start + (j + 1) = start + 1 + j by omega]
      · refine Or.inr ⟨0, by omega, by simp [searchFree, hs], by simp⟩

/-- Pigeonhole: among `size + 1` ids one is free. -/
theorem exists_free (p : IdPool α) (start : ℕ) :
    ∃ k ≤ p.size, p.find? (start + k) = none := by
  by_contra hall
  push Not at hall
  have hsub : (Finset.range (p.size + 1)).image (start + ·) ⊆ p.nodes.keys.toFinset := by
    intro id hid
    obtain ⟨k, hk, rfl⟩ := Finset.mem_image.mp hid
    have hk' := hall k (by simpa [Nat.lt_succ_iff] using hk)
    rw [List.mem_toFinset, Std.ExtTreeMap.mem_keys, Std.ExtTreeMap.mem_iff_isSome_getElem?]
    exact Option.isSome_iff_ne_none.mpr hk'
  have hcard := Finset.card_le_card hsub
  rw [Finset.card_image_of_injective _ (add_right_injective start), Finset.card_range] at hcard
  have hkeys := List.toFinset_card_le p.nodes.keys
  rw [Std.ExtTreeMap.length_keys] at hkeys
  simp only [size] at hcard
  omega

/-- Pools of every size exist. -/
theorem exists_size (val : α) (max : Fin (2 ^ 63)) (n : ℕ) :
    ∃ p : IdPool α, p.maxSize = max ∧ p.size = n := by
  induction n with
  | zero => exact ⟨empty max, rfl, size_empty⟩
  | succ n ih =>
      obtain ⟨p, rfl, rfl⟩ := ih
      obtain ⟨k, _, hfree⟩ := p.exists_free 0
      exact ⟨p.emplace (0 + k) val, maxSize_emplace, size_emplace hfree⟩

/-- Started at the size, with as much fuel as there are nodes and one more, the search finds a
free id within `size` increments and never wraps. -/
theorem searchFree_size (p : IdPool α) (hsize : 2 * p.size + 1 ≤ 2 ^ 64) :
    ∃ id, p.searchFree (p.size + 1) p.size = some id ∧ p.find? id = none ∧
      p.size ≤ id ∧ id ≤ 2 * p.size ∧ ∀ j, p.size ≤ j → j < id → (p.find? j).isSome := by
  rcases p.searchFree_eq_none_or (show p.size + (p.size + 1) ≤ 2 ^ 64 by omega) with
    ⟨_, hall⟩ | ⟨k, hk, hsome, hall⟩
  · obtain ⟨k, hk, hnone⟩ := p.exists_free p.size
    have := hall k (by omega)
    simp [hnone] at this
  · refine ⟨p.size + k, hsome, find?_eq_none_of_searchFree hsome, by omega, by omega, ?_⟩
    intro j hj hlt
    have := hall (j - p.size) (by omega)
    rwa [show p.size + (j - p.size) = j by omega] at this

end Search

end IdPool
