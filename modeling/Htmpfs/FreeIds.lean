import Mathlib
import Htmpfs.Operations

/-!
# Free ids

`get_free_id` starts at the size of the pool and counts up.  Of as many ids as
the pool has entries, and one more, one is free, so the search ends before the
id wraps; what is emplaced under the id is new.
-/

namespace Htmpfs

open Program (Ends)

section Search

variable {α : Type} {pool : IdPool α}

/-- The search ends after at most as many increments as there are entries. -/
theorem getFreeId_search (hsize : pool.size < pool.maxSize) : ∃ k ≤ pool.size,
    getFreeId pool = .ok (pool.size + k) ∧ pool.size + k < 2 ^ 64 ∧
      (∀ j < k, (pool.find? (pool.size + j)).isSome) ∧ pool.find? (pool.size + k) = none ∧
        ∀ fuel > k, pool.searchFree fuel pool.size = some (pool.size + k) := by
  have hwrap : 2 * pool.size + 1 ≤ 2 ^ 64 := by
    have hmax := pool.maxSize.isLt
    omega
  obtain ⟨k, hle, hnone, htaken⟩ : ∃ k ≤ pool.size, pool.find? (pool.size + k) = none ∧
      ∀ j < k, (pool.find? (pool.size + j)).isSome := by
    obtain ⟨id, _, hnone, hge, hle, htaken⟩ := pool.searchFree_size hwrap
    refine ⟨id - pool.size, by omega, ?_, fun j hj => htaken _ (by omega) (by omega)⟩
    rw [Nat.add_sub_cancel' hge]
    exact hnone
  have hsearch : pool.searchFree (k + 1) pool.size = some (pool.size + k) := by
    have hrun : pool.size + (k + 1) ≤ 2 ^ 64 := by omega
    rcases pool.searchFree_eq_none_or hrun with ⟨_, hall⟩ | ⟨k', hk', hsome, _⟩
    · have hk := hall k (Nat.lt_succ_self k)
      simp [hnone] at hk
    · have hfree := IdPool.find?_eq_none_of_searchFree hsome
      have hge : k ≤ k' := by
        by_contra hlt
        have hk := htaken k' (by omega)
        simp [hfree] at hk
      rw [hsome, Nat.le_antisymm (Nat.le_of_lt_succ hk') hge]
  refine ⟨k, hle, ?_, by omega, htaken, hnone, fun fuel hfuel =>
    IdPool.searchFree_of_le hsearch hfuel⟩
  unfold getFreeId
  rw [if_neg hsize.ne, IdPool.searchFree_of_le hsearch (Nat.succ_le_succ hle)]
  rfl

end Search

section Allocation

variable {s : InodeSmi} {parent : ℕ} {name : Bytes} {isDir : Bool}

/-- The inodes under all ids are the same ones. -/
def KeepsInodes (s s' : InodeSmi) : Prop :=
  ∀ j, (s'.inodePool.find? j).map (·.addr) = (s.inodePool.find? j).map (·.addr)

theorem ends_saveCurrent_keepsInodes {r : DirectoryResolver} :
    Ends r.saveCurrent s
      (fun _ s' => KeepsInodes s s' ∧ s'.snapshotVersionList = s.snapshotVersionList)
      (fun _ _ => True) := by
  unfold DirectoryResolver.saveCurrent
  dsimp only
  split_ifs
  · trivial
  rw [Program.ends_bind]
  unfold InodeSmi.onInode
  cases hself : s.inodePool.deref? r.associatedInode with
  | none =>
      rw [Program.ends_zoom_none (by rw [hself]; rfl)]
      trivial
  | some self =>
      rw [Program.ends_zoom (by rw [hself]; rfl)]
      refine Program.ends_of_forall (fun _ t' => ⟨fun j => ?_, rfl⟩) fun _ _ => trivial
      dsimp only
      rw [IdPool.find?_setVal]
      split_ifs with hj
      · rw [hj, Option.map_map]
        rfl
      · rfl

/-- What `make_child_dentry_under_parent` enters in the pool and in the list is new. -/
theorem ends_makeChild_new (hsize : s.inodePool.size < s.inodePool.maxSize) :
    Ends (InodeSmi.makeChildDentryUnderParent parent name isDir) s
      (fun id s' => getFreeId s.inodePool = .ok id ∧
        (s'.inodePool.find? id).map (·.addr) = some s.inodePool.nextAddr ∧
        (∀ j ≠ id, (s'.inodePool.find? j).map (·.addr) =
          (s.inodePool.find? j).map (·.addr)) ∧
        ∃ list, s'.snapshotVersionList[curModifiableVer]? =
          some (list ++ [⟨id, ⟨id, s.inodePool.nextAddr⟩⟩]))
      (fun _ _ => True) := by
  obtain ⟨k, _, hget, _, _, hfree, _⟩ := getFreeId_search hsize
  unfold InodeSmi.makeChildDentryUnderParent
  split_ifs
  swap
  · trivial
  simp only [Program.ends_bind]
  rw [Program.ends_reads]
  refine ⟨fun parentInode _ => ?_, fun _ _ => trivial⟩
  rw [Program.ends_reads]
  refine ⟨fun r _ => ?_, fun _ _ => trivial⟩
  split_ifs
  swap
  · trivial
  simp only [Program.ends_bind, ends_onInodePool, Program.ends_get, Program.ends_pure]
  refine Program.Ends.reads_ok hget (ends_emplace.mono ?_ fun _ _ _ => trivial)
  rintro _ pool ⟨rfl, _⟩
  rw [Program.ends_reads]
  refine ⟨fun r' _ => ?_, fun _ _ => trivial⟩
  refine ends_saveCurrent_keepsInodes.mono ?_ fun _ _ he => he
  rintro _ s₂ ⟨hkeeps, _⟩
  have haddr : ∀ j, (s₂.inodePool.find? j).map (·.addr) =
      if j = s.inodePool.size + k then some s.inodePool.nextAddr
      else (s.inodePool.find? j).map (·.addr) := by
    intro j
    rw [hkeeps j]
    dsimp only
    rw [IdPool.find?_emplace hfree]
    split_ifs <;> rfl
  have hself := haddr (s.inodePool.size + k)
  rw [if_pos rfl] at hself
  obtain ⟨node, hnode, hnodeAddr⟩ := Option.map_eq_some_iff.mp hself
  refine Program.Ends.reads_ok (a := node) (by simp only [poolAt, hnode]; rfl) ?_
  rw [Program.ends_reads]
  refine ⟨fun list _ => ?_, fun _ _ => trivial⟩
  unfold InodeSmi.setCurrentList
  rw [Program.ends_modify]
  refine ⟨hget, hself, fun j hj => (haddr j).trans (if_neg hj), list, ?_⟩
  rw [← hnodeAddr]
  exact Std.ExtTreeMap.getElem?_insert_self

end Allocation

section Fresh

/-- The id of a new buffer and of a new inode is found, and it is new; a pool that cannot grow is
refused. -/
theorem get_free_id_fresh :
    (∀ {α : Type} (pool : IdPool α), pool.size < pool.maxSize → ∃ k ≤ pool.size,
      getFreeId pool = .ok (pool.size + k) ∧ pool.size + k < 2 ^ 64 ∧
        (∀ j < k, (pool.find? (pool.size + j)).isSome) ∧ pool.find? (pool.size + k) = none ∧
          ∀ fuel > k, pool.searchFree fuel pool.size = some (pool.size + k)) ∧
    (∀ {α : Type} (pool : IdPool α), pool.size = pool.maxSize →
      getFreeId pool = .error (.htmpfs .bufferIdDepleted)) ∧
    (∀ pool : IdPool Buffer, pool.size < pool.maxSize → Ends requestBufferAllocation pool
      (fun r pool' => getFreeId pool = .ok r.id ∧ r.data = ⟨r.id, pool.nextAddr⟩ ∧
        pool'.find? r.id = some ⟨1, [], pool.nextAddr⟩ ∧
        ∀ j ≠ r.id, pool'.find? j = pool.find? j)
      (fun e _ => e = .badAlloc)) ∧
    ∀ (s : InodeSmi) (parent : ℕ) (name : Bytes) (isDir : Bool),
      s.inodePool.size < s.inodePool.maxSize →
      Ends (InodeSmi.makeChildDentryUnderParent parent name isDir) s
        (fun id s' => getFreeId s.inodePool = .ok id ∧
          (s'.inodePool.find? id).map (·.addr) = some s.inodePool.nextAddr ∧
          (∀ j ≠ id, (s'.inodePool.find? j).map (·.addr) =
            (s.inodePool.find? j).map (·.addr)) ∧
          ∃ list, s'.snapshotVersionList[curModifiableVer]? =
            some (list ++ [⟨id, ⟨id, s.inodePool.nextAddr⟩⟩]))
        (fun _ _ => True) := by
  refine ⟨fun pool hsize => getFreeId_search hsize, fun pool hfull => ?_, fun pool hsize => ?_,
    fun s parent name isDir hsize => ends_makeChild_new hsize⟩
  · unfold getFreeId
    rw [if_pos hfull]
    rfl
  · obtain ⟨k, _, hget, _, _, hfree, _⟩ := getFreeId_search hsize
    unfold requestBufferAllocation
    simp only [Program.ends_bind]
    refine Program.Ends.reads_ok hget (ends_emplace.mono ?_ fun _ _ he => he)
    rintro _ pool' ⟨rfl, _⟩
    have hfind : ∀ j, (pool.emplace (pool.size + k) ([] : Buffer)).find? j =
        if j = pool.size + k then some ⟨1, [], pool.nextAddr⟩ else pool.find? j := fun _ =>
      IdPool.find?_emplace hfree
    have hnode := hfind (pool.size + k)
    rw [if_pos rfl] at hnode
    refine Program.Ends.reads_ok (a := ⟨1, [], pool.nextAddr⟩)
      (by simp only [poolAt, hnode]; rfl) ?_
    exact ⟨hget, rfl, hnode, fun j hj => (hfind j).trans (if_neg hj)⟩

/-- The first buffer gets the id 0. -/
theorem get_free_id_fresh_empty :
    getFreeId (IdPool.empty PoolLimits.libstdcxx.bufferMax : IdPool Buffer) = .ok 0 := by
  have hsize : (IdPool.empty PoolLimits.libstdcxx.bufferMax : IdPool Buffer).size = 0 :=
    IdPool.size_empty
  obtain ⟨k, hk, hget, _⟩ := get_free_id_fresh.1
    (IdPool.empty PoolLimits.libstdcxx.bufferMax : IdPool Buffer) (by rw [hsize]; decide)
  rw [hsize] at hk hget
  obtain rfl := Nat.le_zero.mp hk
  exact hget

/-- A pool of `max_size` entries is below the bound, and is refused. -/
theorem not_get_free_id_fresh :
    ¬ ∀ pool : IdPool Buffer, pool.size < 2 ^ 63 → ∃ id, getFreeId pool = .ok id := by
  intro hall
  obtain ⟨pool, hmax, hpool⟩ := IdPool.exists_size ([] : Buffer) PoolLimits.libstdcxx.bufferMax
    PoolLimits.libstdcxx.bufferMax
  obtain ⟨id, hid⟩ := hall pool (by rw [hpool]; exact PoolLimits.libstdcxx.bufferMax.isLt)
  unfold getFreeId at hid
  rw [if_pos (by rw [hpool, hmax])] at hid
  simp at hid

end Fresh

end Htmpfs
