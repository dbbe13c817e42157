import Mathlib
import Htmpfs.Volumes

/-!
# Writes whose end wraps around

A write with an end past `2 ^ 64` computes with a small one.  If it may resize
the file it stops with the first block that is missing; if it may not, it can
reach blocks that it did not reallocate.  In both cases the block lists stay in
order.
-/

namespace Htmpfs

open Program (Ends)
open Blocks (Sized blockCount)

namespace Buffer

variable {data buffer : Bytes} {offset : ℕ}

theorem write_resize_fst : (write data buffer offset true).1 = buffer.length := rfl

theorem length_write_resize : (write data buffer offset true).2.length = offset + buffer.length := by
  have hlen : (if buffer.length + offset > data.length then
      data ++ List.replicate (buffer.length + offset - data.length) 0
      else data.take (buffer.length + offset)).length = buffer.length + offset := by
    split_ifs <;> simp <;> omega
  simp only [write, if_true, store, List.length_append, List.length_take, List.length_drop, hlen]
  omega

theorem length_write_keep : (write data buffer offset false).2.length = data.length := by
  simp only [write, Bool.false_eq_true, if_false, store, List.length_append, List.length_take,
    List.length_drop]
  split_ifs <;> omega

end Buffer

/-! ## The same nodes, with other bytes -/

/-- The nodes of `pool'` are those of `pool`, with as many bytes in each. -/
structure SameShape (pool pool' : IdPool Buffer) : Prop where
  size : pool'.size = pool.size
  maxSize : pool'.maxSize = pool.maxSize
  node : ∀ b, (pool'.find? b).map (fun n => (n.linkCount, n.addr, n.val.length)) =
    (pool.find? b).map (fun n => (n.linkCount, n.addr, n.val.length))

namespace SameShape

variable {pool pool' pool'' : IdPool Buffer} {list : List BufferResult} {r : BufferResult}

theorem refl (pool : IdPool Buffer) : SameShape pool pool := ⟨rfl, rfl, fun _ => rfl⟩

theorem trans (h : SameShape pool pool') (h' : SameShape pool' pool'') : SameShape pool pool'' :=
  ⟨h'.size.trans h.size, h'.maxSize.trans h.maxSize, fun b => (h'.node b).trans (h.node b)⟩

theorem find? (h : SameShape pool pool') {b : ℕ} {node : PoolNode Buffer}
    (hnode : pool.find? b = some node) : ∃ node', pool'.find? b = some node' ∧
      node'.linkCount = node.linkCount ∧ node'.addr = node.addr ∧
      node'.val.length = node.val.length := by
  have heq := h.node b
  rw [hnode, Option.map_some] at heq
  obtain ⟨node', hnode', hfields⟩ := Option.map_eq_some_iff.mp heq
  simp only [Prod.mk.injEq] at hfields
  exact ⟨node', hnode', hfields⟩

theorem symm (h : SameShape pool pool') : SameShape pool' pool :=
  ⟨h.size.symm, h.maxSize.symm, fun b => (h.node b).symm⟩

theorem isSome_iff (h : SameShape pool pool') (b : ℕ) :
    (pool'.find? b).isSome ↔ (pool.find? b).isSome := by
  have heq := congrArg Option.isSome (h.node b)
  simp only [Option.isSome_map] at heq
  rw [heq]

theorem live (h : SameShape pool pool') (hr : Live pool r) : Live pool' r := by
  obtain ⟨node, hnode, hdata⟩ := hr
  obtain ⟨node', hnode', _, haddr, _⟩ := h.find? hnode
  exact ⟨node', hnode', by rw [haddr, hdata]⟩

theorem length_blockData (h : SameShape pool pool') (hr : Live pool r) :
    (blockData pool' r).length = (blockData pool r).length := by
  obtain ⟨node, hnode, hdata⟩ := hr
  obtain ⟨node', hnode', _, haddr, hlen⟩ := h.find? hnode
  rw [blockData_eq hnode hdata, blockData_eq hnode' (by rw [haddr, hdata]), hlen]

theorem listOk {bs : ℕ} (hbs : 0 < bs) (h : SameShape pool pool') (hlist : ListOk bs pool list) :
    ListOk bs pool' list where
  live := fun r hr => h.live (hlist.live r hr)
  nodup := hlist.nodup
  sized := by
    obtain ⟨n, hs⟩ := hlist.sized
    rw [Blocks.sized_iff hbs] at hs
    refine ⟨n, (Blocks.sized_iff hbs).mpr ⟨by rw [← hs.1]; simp, fun k x hx => ?_⟩⟩
    rw [getElem?_blockTexts] at hx
    obtain ⟨r, hr, rfl⟩ := Option.map_eq_some_iff.mp hx
    rw [h.length_blockData (hlist.live r (List.mem_of_getElem? hr))]
    exact hs.2 k _ (by rw [getElem?_blockTexts, hr]; rfl)
  fits := hlist.fits

theorem inodeOk {inode : Inode} (h : SameShape pool pool') (hok : inode.Ok pool) :
    inode.Ok pool' where
  blockSize_pos := hok.blockSize_pos
  blockSize_lt := hok.blockSize_lt
  current := hok.current
  list := fun v list hlist => h.listOk hok.blockSize_pos (hok.list v list hlist)
  unfrozen := by
    intro list hlist r hr hunfrozen node' hnode'
    obtain ⟨node, hnode, hcount, _⟩ := h.symm.find? hnode'
    rw [← hcount]
    exact hok.unfrozen list hlist r hr hunfrozen node hnode
  count := by
    intro b hb node' hnode'
    obtain ⟨node, hnode, hcount, _⟩ := h.symm.find? hnode'
    rw [← hcount]
    exact hok.count b hb node hnode

/-- The bytes behind one entry replaced by as many others. -/
theorem setVal {n : PoolNode Buffer} {data : Bytes} {b : ℕ} (hnode : pool.find? b = some n)
    (hlen : data.length = n.val.length) : SameShape pool (pool.setVal b data) where
  size := IdPool.size_setVal
  maxSize := IdPool.maxSize_setVal
  node := by
    intro j
    rw [IdPool.find?_setVal]
    split_ifs with hj
    · rw [hj, hnode, Option.map_some, Option.map_some, Option.map_some, hlen]
    · rfl

end SameShape

namespace Bank

variable {bs n : ℕ} {b₀ b : Bank} {buffer : Bytes} {offset : ℕ} {r : BufferResult} {i : ℕ}

/-! ## A write that may not resize -/

/-- The same list over the same nodes, with other bytes in the blocks of the list only. -/
structure Shaken (b b' : Bank) : Prop where
  blockList : b'.blockList = b.blockList
  shape : SameShape b.bufferPool b'.bufferPool
  kept : ∀ j, (∀ r ∈ b.blockList, r.id ≠ j) → b'.bufferPool.find? j = b.bufferPool.find? j

theorem Shaken.refl (b : Bank) : Shaken b b := ⟨rfl, SameShape.refl _, fun _ _ => rfl⟩

theorem ends_writeAt_keep {b' : Bank} (hlive : ∀ r ∈ b.blockList, Live b.bufferPool r)
    (h : Shaken b b') :
    Ends (writeAt i buffer offset false) b' (fun _ b'' => Shaken b b'')
      (fun e b'' => e ≠ .htmpfs .requestedBufferNotFound ∧ Shaken b b'') := by
  unfold writeAt
  rw [Program.ends_bind]
  cases hi : b'.blockList[i]? with
  | none => exact Program.Ends.reads_error (by simp only [blockAt, hi]; rfl) ⟨by simp, h⟩
  | some r =>
      have hmem : r ∈ b.blockList := h.blockList ▸ List.mem_of_getElem? hi
      have hr : Live b'.bufferPool r := h.shape.live (hlive r hmem)
      refine Program.Ends.reads_ok (blockAt_ok hi) ?_
      rw [Program.ends_bind]
      refine ends_writeBuffer hr ?_
      have hshaken : Shaken b ⟨b'.bufferPool.setVal r.data.id
          ((blockData b'.bufferPool r).write buffer offset false).2, b'.blockList⟩ := by
        obtain ⟨node, hnode, hdata⟩ := hr
        refine ⟨h.blockList, h.shape.trans (SameShape.setVal (n := node) ?_ ?_), fun j hj => ?_⟩
        · rw [hdata]
          exact hnode
        · rw [Buffer.length_write_keep, blockData_eq hnode hdata]
        · rw [IdPool.find?_setVal, hdata, if_neg (hj r hmem).symm]
          exact h.kept j hj
      split_ifs
      · exact hshaken
      · exact ⟨by simp, hshaken⟩

theorem ends_writeSpan_keep (hlive : ∀ r ∈ b.blockList, Live b.bufferPool r) :
    Ends (writeSpan bs buffer offset false) b (fun _ b' => Shaken b b')
      (fun e b' => e ≠ .htmpfs .requestedBufferNotFound ∧ Shaken b b') := by
  unfold writeSpan
  dsimp only
  generalize (if bs - offset % bs ≥ buffer.length then buffer.length else bs - offset % bs) = w
  rw [Program.ends_bind]
  refine (ends_writeAt_keep hlive (Shaken.refl b)).mono ?_ fun _ _ he => he
  intro _ b₁ h₁
  rw [Program.ends_bind]
  refine (Ends.loop (k := 1) (fun _ b' => Shaken b b') h₁
    fun _ _ _ h' => ends_writeAt_keep hlive h').mono ?_ fun _ _ he => he
  intro _ b₂ h₂
  split_ifs
  · exact h₂
  · exact ends_writeAt_keep hlive h₂

/-! ## A write that may resize -/

theorem Own.ends_writeAt_resize (h : Own b₀ b) (hi : b.blockList[i]? = some r)
    (hunfrozen : r.isSnapshoted = false) :
    Ends (writeAt i buffer offset true) b
      (fun _ b' => Own b₀ b' ∧ b'.blockList = b.blockList ∧
        ∃ x, x.length = offset + buffer.length ∧ b'.texts = b.texts.set i x)
      (fun _ _ => False) := by
  have hwrite : (blockData b.bufferPool r).write buffer offset true =
      (buffer.length, ((blockData b.bufferPool r).write buffer offset true).2) := by
    rw [← Buffer.write_resize_fst]
  apply (h.ends_writeAt_of hi hunfrozen hwrite).mono
  · rintro _ b' ⟨hown, hlist, htexts⟩
    exact ⟨hown, hlist, _, Buffer.length_write_resize, htexts⟩
  · exact fun _ _ => False.elim

theorem ends_writeAt_missing (hi : b.blockList.length ≤ i) {resize : Bool} :
    Ends (writeAt i buffer offset resize) b (fun _ _ => False)
      (fun e b' => e = .outOfRange ∧ b' = b) := by
  have hnone : b.blockList[i]? = none := List.getElem?_eq_none_iff.mpr hi
  unfold writeAt
  rw [Program.ends_bind]
  exact Program.Ends.reads_error (by simp only [blockAt, hnone]; rfl) ⟨rfl, rfl⟩

/-- Filling up the last block. -/
theorem sized_set_last {blocks : List Bytes} {x y : Bytes} (hbs : 0 < bs) (hs : Sized bs n blocks)
    (hi : blocks[i]? = some x) (hlast : n ≤ (i + 1) * bs) (hy : y.length = bs) :
    Sized bs ((i + 1) * bs) (blocks.set i y) := by
  have hilt := (List.getElem?_eq_some_iff.mp hi).1
  have hcount : blocks.length = i + 1 := by
    have hle : blockCount bs n ≤ i + 1 := (Blocks.blockCount_le hbs).mpr hlast
    rw [← hs.length hbs] at hle
    omega
  rw [Blocks.sized_iff hbs]
  refine ⟨?_, fun k z hk => ?_⟩
  · rw [List.length_set, hcount]
    refine le_antisymm ?_ ((Blocks.blockCount_le hbs).mpr le_rfl)
    rw [Nat.succ_le_iff, Blocks.lt_blockCount hbs]
    exact Nat.mul_lt_mul_of_pos_right (Nat.lt_succ_self i) hbs
  · by_cases hki : i = k
    · subst hki
      rw [List.getElem?_set_self hilt] at hk
      rw [← Option.some.inj hk, hy, Nat.add_mul]
      omega
    · rw [List.getElem?_set_ne hki] at hk
      have hklt := (List.getElem?_eq_some_iff.mp hk).1
      have hkbs : (k + 1) * bs ≤ i * bs := Nat.mul_le_mul_right bs (by omega)
      have hin : i * bs < n := by
        rw [← Blocks.lt_blockCount hbs, ← hs.length hbs]
        exact hilt
      rw [hs.length_block hbs hk]
      rw [Nat.add_mul] at hkbs ⊢
      omega

/-- The end of the write is `2 ^ 64` past the `n` bytes that there are. -/
theorem Own.ends_writeSpan_overflow (hbs : 0 < bs) (h : Own b₀ b) (hs : Sized bs n b.texts)
    (hfit : BlocksFit bs b.blockList.length)
    (hunfrozen : ∀ r ∈ b.blockList, r.isSnapshoted = false) (hoffset : offset < 2 ^ 64)
    (hlength : buffer.length < 2 ^ 64) (hn : n + 2 ^ 64 = offset + buffer.length) :
    Ends (writeSpan bs buffer offset true) b (fun _ _ => False)
      (fun e b' => e = .outOfRange ∧ Own b₀ b' ∧ (∃ n', Sized bs n' b'.texts) ∧
        BlocksFit bs b'.blockList.length ∧ ∀ r ∈ b'.blockList, r.isSnapshoted = false) := by
  have hr := Nat.mod_lt offset hbs
  have hdm := Nat.div_add_mod' offset bs
  have hnext : (offset / bs + 1) * bs = offset / bs * bs + bs := by rw [Nat.add_mul, Nat.one_mul]
  have hend : b.blockList.length ≤ offset / bs + 1 := by
    rw [← length_texts, hs.length hbs, Blocks.blockCount_le hbs]
    omega
  have hmissing : ∀ {e : Exit} {b' b'' : Bank}, Own b₀ b' → (∃ n', Sized bs n' b'.texts) →
      b'.blockList = b.blockList → e = .outOfRange ∧ b'' = b' →
      e = .outOfRange ∧ Own b₀ b'' ∧ (∃ n', Sized bs n' b''.texts) ∧
        BlocksFit bs b''.blockList.length ∧ ∀ r ∈ b''.blockList, r.isSnapshoted = false := by
    rintro e b' b'' hown hsized hlist ⟨rfl, rfl⟩
    rw [hlist]
    exact ⟨rfl, hown, hsized, hfit, hunfrozen⟩
  unfold writeSpan
  rw [Program.ends_bind]
  by_cases hi : offset / bs < b.blockList.length
  · obtain ⟨r, hri⟩ := exists_entry hi
    -- the blocks can be counted, so the block ends before the write does
    have hfits := hfit.mul_lt
    rw [show b.blockList.length = offset / bs + 1 by omega] at hfits
    have hw : (if bs - offset % bs ≥ buffer.length then buffer.length else bs - offset % bs) =
        bs - offset % bs := if_neg (by omega)
    rw [hw]
    refine (h.ends_writeAt_resize hri (hunfrozen r (List.mem_of_getElem? hri))).mono ?_
      fun _ _ => False.elim
    rintro _ b₁ ⟨h₁, hlist, x, hx, htexts⟩
    have hxlen : x.length = bs := by
      rw [hx, slice, List.drop_zero, List.length_take]
      omega
    have hsized : ∃ n', Sized bs n' b₁.texts := by
      rw [htexts]
      exact ⟨_, sized_set_last hbs hs (getElem?_texts hri) (by omega) hxlen⟩
    rw [← hlist] at hend
    rw [Program.ends_bind]
    by_cases hcount : (buffer.length - (bs - offset % bs)) / bs = 0
    · have hlast : (buffer.length - (bs - offset % bs)) % bs ≠ 0 := by
        have hquot := Nat.div_add_mod' (buffer.length - (bs - offset % bs)) bs
        rw [hcount] at hquot
        omega
      rw [hcount, if_neg hlast]
      exact (ends_writeAt_missing (by omega)).mono (fun _ _ => False.elim)
        fun _ _ => hmissing h₁ hsized hlist
    · obtain ⟨count, hcount⟩ := Nat.exists_eq_succ_of_ne_zero hcount
      rw [hcount, Program.loop, Program.ends_bind]
      exact (ends_writeAt_missing hend).mono (fun _ _ => False.elim)
        fun _ _ => hmissing h₁ hsized hlist
  · exact (ends_writeAt_missing (Nat.le_of_not_lt hi)).mono (fun _ _ => False.elim)
      fun _ _ => hmissing h ⟨n, hs⟩ rfl

/-! ## `write` -/

/-- The block numbers at which a write to `size` bytes gives up a frozen entry, wherever the write
ends. -/
def Reallocates (bs : ℕ) (buffer : Bytes) (offset : ℕ) (resize : Bool) (size j : ℕ) : Prop :=
  buffer.length ≠ 0 ∧ (resize = true ∨ offset ≤ size ∧ offset / bs ≤ j ∧
    j < blockCount bs (u64 (offset +
      if u64 (offset + buffer.length) > size then size - offset else buffer.length)))

theorem writeTouches_eq {old : Bytes} {resize : Bool} (hwrap : offset + buffer.length < 2 ^ 64) :
    WriteTouches bs buffer offset resize old = Reallocates bs buffer offset resize old.length := by
  funext j
  have hu : u64 (offset + buffer.length) = offset + buffer.length := Nat.mod_eq_of_lt hwrap
  have hsize : offset ≤ old.length → u64 (offset + if offset + buffer.length > old.length then
      old.length - offset else buffer.length) =
      offset + min buffer.length (old.length - offset) := by
    intro hle
    have hmin : (if offset + buffer.length > old.length then old.length - offset
        else buffer.length) = min buffer.length (old.length - offset) := by
      split_ifs <;> omega
    rw [hmin]
    exact Nat.mod_eq_of_lt (by omega)
  unfold WriteTouches Reallocates
  rw [hu]
  refine propext (and_congr_right fun _ => or_congr_right (and_congr_right fun hle => ?_))
  rw [hsize hle]

/-- What a write with an overflowing end leaves of the bank. -/
def Reworked (bs : ℕ) (b₀ b : Bank) (touched : ℕ → Prop) (b' : Bank) : Prop :=
  ∃ b₁, Own b₀ b₁ ∧ (∃ n, Sized bs n b₁.texts) ∧ BlocksFit bs b₁.blockList.length ∧
    Unfroze touched b.blockList b₁.blockList ∧ Shaken b₁ b'

theorem Own.ends_write_overflow (hbs : 0 < bs) (hword : bs < 2 ^ 64) (h : Own b₀ b)
    (hs : Sized bs n b.texts) (hfit : BlocksFit bs b.blockList.length)
    {resize : Bool} (hoffset : offset < 2 ^ 64) (hlength : buffer.length < 2 ^ 64)
    (hwrap : 2 ^ 64 ≤ offset + buffer.length) :
    Ends (write bs buffer offset resize) b
      (fun _ b' => Reworked bs b₀ b (Reallocates bs buffer offset resize n) b')
      (fun e b' => e = .badAlloc ∨ e ≠ .htmpfs .requestedBufferNotFound ∧
        Reworked bs b₀ b (Reallocates bs buffer offset resize n) b') := by
  have hpos : buffer.length ≠ 0 := by omega
  have hu : u64 (offset + buffer.length) = offset + buffer.length - 2 ^ 64 := by
    unfold u64
    rw [Nat.mod_eq_sub_mod hwrap, Nat.mod_eq_of_lt (by omega)]
  unfold write
  cases resize with
  | true =>
      have hn : offset + buffer.length - 2 ^ 64 + 2 ^ 64 = offset + buffer.length :=
        Nat.sub_add_cancel hwrap
      generalize offset + buffer.length - 2 ^ 64 = m at hu hn
      simp only [if_true, Program.ends_bind, hu, Program.ends_pure]
      refine (h.ends_truncate hbs hword hs hfit).mono ?_ fun _ _ he => Or.inl he
      rintro _ b₁ ⟨h₁, hs₁, hfit₁, _, hunfrozen⟩
      refine (h₁.ends_writeSpan_overflow hbs hs₁ hfit₁ hunfrozen hoffset hlength hn).mono
        (fun _ _ => False.elim) ?_
      rintro e b' ⟨rfl, hown, hsized, hfit', hall⟩
      exact Or.inr ⟨by simp, b', hown, hsized, hfit', Unfroze.of_all hall fun _ => ⟨hpos, Or.inl rfl⟩,
        Shaken.refl b'⟩
  | false =>
      have hdata : dataSize b.bufferPool b.blockList = .ok n := by
        rw [dataSize_eq h.live, ← hs.length_flatten]
        rfl
      simp only [Bool.false_eq_true, if_false, Program.ends_bind]
      refine Program.Ends.reads_ok hdata ?_
      by_cases hbeyond : n < offset
      · rw [if_pos hbeyond, Program.ends_pure]
        refine ⟨b, h, ⟨n, hs⟩, hfit, Unfroze.refl ?_, Shaken.refl b⟩
        rintro j ⟨_, htouched | ⟨hle, _⟩⟩
        · exact Bool.false_ne_true htouched
        · omega
      · -- the sum wraps to a number below the offset, so that nothing is cut off
        have hbelow : ¬ offset + buffer.length - 2 ^ 64 > n := by omega
        rw [if_neg hbeyond, hu, if_neg hbelow, hu]
        change Ends (do
          Program.loop (thaw bs) (offset / bs)
            (blockCount bs (offset + buffer.length - 2 ^ 64) - offset / bs)
          writeSpan bs (buffer.take buffer.length) offset false
          pure buffer.length) b _ _
        have hstart : offset / bs ≤ blockCount bs n :=
          le_trans (Nat.div_le_div_right (Nat.le_of_not_lt hbeyond)) (Nat.le_add_right _ _)
        have hstop : blockCount bs (offset + buffer.length - 2 ^ 64) ≤ blockCount bs n := by
          rw [Blocks.blockCount_le hbs]
          exact le_trans (by omega) ((Blocks.blockCount_le hbs).mp le_rfl)
        rw [Program.ends_bind]
        have hin : offset / bs + (blockCount bs (offset + buffer.length - 2 ^ 64) - offset / bs) ≤
            b.blockList.length := by
          rw [← length_texts, hs.length hbs]
          omega
        refine (h.ends_thawLoop (fun x hx => hs.length_le hbs hx) hin).mono ?_
          fun _ _ he => Or.inl he
        · rintro _ b₁ ⟨h₁, htexts, hthawed⟩
          have hunfroze : Unfroze (Reallocates bs buffer offset false n) b.blockList
              b₁.blockList := by
            refine hthawed.unfroze fun j => ?_
            unfold Reallocates
            rw [hu, if_neg hbelow, hu]
            constructor
            · rintro ⟨_, htouched | ⟨_, hlo, hhi⟩⟩
              · exact absurd htouched Bool.false_ne_true
              · omega
            · intro hj
              exact ⟨hpos, Or.inr ⟨Nat.le_of_not_lt hbeyond, by omega⟩⟩
          have hfit₁ : BlocksFit bs b₁.blockList.length := by
            rw [← length_texts, htexts, length_texts]
            exact hfit
          have hdone : ∀ b', Shaken b₁ b' →
              Reworked bs b₀ b (Reallocates bs buffer offset false n) b' :=
            fun b' hshaken => ⟨b₁, h₁, ⟨n, htexts ▸ hs⟩, hfit₁, hunfroze, hshaken⟩
          rw [Program.ends_bind]
          exact (ends_writeSpan_keep h₁.live).mono (fun _ b' hb' => hdone b' hb')
            fun _ b' hb' => Or.inr ⟨hb'.1, hdone b' hb'.2⟩

end Bank

/-- An inode after a write, wherever the write ended. -/
structure Reworked (v : InodeView) (touched : ℕ → Prop) (v' : InodeView) : Prop where
  rewrote : ∃ f pool, Rewrote v f touched ⟨pool, v'.self⟩ ∧ SameShape pool v'.bufferPool ∧
    ∀ b, ¬ v'.self.Owns b → v'.bufferPool.find? b = pool.find? b

section Inode

variable {v v' : InodeView} {touched : ℕ → Prop}

theorem Rewrote.reworked {f : Bytes → Bytes} (h : Rewrote v f touched v') : Reworked v touched v' :=
  ⟨f, v'.bufferPool, h, SameShape.refl _, fun _ _ => rfl⟩

theorem Reworked.ok (h : Reworked v touched v') : v'.self.Ok v'.bufferPool := by
  obtain ⟨f, pool, hrewrote, hshape, _⟩ := h.rewrote
  exact hshape.inodeOk hrewrote.ok

theorem Reworked.small (h : Reworked v touched v') : 
    v'.bufferPool.size < v'.bufferPool.maxSize := by
  obtain ⟨f, pool, hrewrote, hshape, _⟩ := h.rewrote
  rw [hshape.size, hshape.maxSize]
  exact hrewrote.small

theorem Reworked.frame (h : Reworked v touched v') : Frame v v' := by
  obtain ⟨f, pool, hrewrote, hshape, hkept⟩ := h.rewrote
  have hframe := hrewrote.frame
  refine
    { blockSize := hframe.blockSize, inodeId := hframe.inodeId, isDentry := hframe.isDentry,
      kept := fun b hb hnot => ?_, fresh := hframe.fresh, keys := fun b hb => ?_ }
  · rw [hkept b fun howns => ?_]
    · exact hframe.kept b hb hnot
    · rcases hframe.fresh b howns with hold | hnone
      · exact hnot hold
      · simp [hnone] at hb
  · exact hframe.keys b ((hshape.isSome_iff b).mp hb)

/-- Every version has as many bytes as it had, or the current one has others. -/
theorem Reworked.isSome_data (h : Reworked v touched v') (ver : SnapshotVer) :
    (v'.self.data v'.bufferPool ver).isSome = (v.self.data v.bufferPool ver).isSome := by
  obtain ⟨f, pool, hrewrote, _⟩ := h.rewrote
  have hdata := congrArg Option.isSome (hrewrote.data ver)
  rw [show (v'.self.data v'.bufferPool ver).isSome = (v'.self.data pool ver).isSome by
    simp [Inode.data], hdata]
  split_ifs <;> simp

/-- `inode_t::write` with any 64-bit arguments. -/
theorem Inode.Ok.ends_write_any (h : v.self.Ok v.bufferPool)
    (hsmall : v.bufferPool.size < v.bufferPool.maxSize)
    {buffer : Bytes} {offset : ℕ} {resize dentryOnly : Bool} (hoffset : offset < 2 ^ 64)
    (hlength : buffer.length < 2 ^ 64) {old : Bytes}
    (hold : v.self.data v.bufferPool curModifiableVer = some old) :
    Ends (Inode.write buffer offset resize dentryOnly) v
      (fun _ v' => (v.self.isDentry && !dentryOnly) = false ∧
        Reworked v (Bank.Reallocates v.self.blockSize buffer offset resize old.length) v')
      (fun e v' => e = .badAlloc ∨ e ≠ .htmpfs .requestedBufferNotFound ∧ (v' = v ∨
        (v.self.isDentry && !dentryOnly) = false ∧
          Reworked v (Bank.Reallocates v.self.blockSize buffer offset resize old.length) v')) := by
  by_cases hwrap : offset + buffer.length < 2 ^ 64
  · refine (h.ends_write hsmall hwrap hold).mono ?_ ?_
    · rintro _ v' ⟨_, hguard, hrewrote⟩
      rw [Bank.writeTouches_eq hwrap] at hrewrote
      exact ⟨hguard, hrewrote.reworked⟩
    · rintro e v' (he | ⟨rfl, he⟩)
      · exact Or.inl he
      · refine Or.inr ⟨?_, Or.inl rfl⟩
        rcases he with ⟨_, rfl⟩ | ⟨rfl, _⟩ <;> simp
  · push Not at hwrap
    obtain ⟨list, hcur⟩ := h.current
    have hlist := h.list _ list hcur
    obtain ⟨n, hs⟩ := hlist.sized
    have hlen : old.length = n := by
      rw [Inode.data, hcur] at hold
      rw [← Option.some.inj hold]
      exact hs.length_flatten
    unfold Inode.write
    simp only [Program.ends_bind, Program.ends_get]
    by_cases hguard : (v.self.isDentry && !dentryOnly) = true
    · rw [if_pos hguard]
      exact Or.inr ⟨by simp, Or.inl rfl⟩
    rw [if_neg hguard, if_neg (by omega), ends_onBank hcur, hlen]
    have hreworked : ∀ b', Bank.Reworked v.self.blockSize ⟨v.bufferPool, list⟩ ⟨v.bufferPool, list⟩
        (Bank.Reallocates v.self.blockSize buffer offset resize n) b' →
        Reworked v (Bank.Reallocates v.self.blockSize buffer offset resize n) ⟨b'.bufferPool,
          { v.self with bufferMap := v.self.bufferMap.insert curModifiableVer b'.blockList }⟩ := by
      rintro b' ⟨b₁, hown, hsized, hfit, hunfroze, hshaken⟩
      rw [hshaken.blockList]
      refine ⟨fun _ => content b₁.bufferPool b₁.blockList, b₁.bufferPool,
        h.rewrote hcur hown hsized hfit rfl hunfroze, hshaken.shape, fun b hb => ?_⟩
      refine hshaken.kept b fun r hr hid => hb ?_
      exact ⟨curModifiableVer, b₁.blockList, by rw [getElem?_insert_version, if_pos rfl],
        hid ▸ List.mem_map_of_mem hr⟩
    refine ((h.own hsmall hcur).ends_write_overflow h.blockSize_pos h.blockSize_lt hs hlist.fits
      hoffset hlength hwrap).mono
      ?_ ?_
    · exact fun _ b' hb' => ⟨by simpa using hguard, hreworked b' hb'⟩
    · rintro e b' (he | ⟨he, hb'⟩)
      · exact Or.inl he
      · exact Or.inr ⟨he, Or.inr ⟨by simpa using hguard, hreworked b' hb'⟩⟩

end Inode

end Htmpfs
