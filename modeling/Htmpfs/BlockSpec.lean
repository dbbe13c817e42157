import Mathlib
import Htmpfs.BlockOwnership

/-!
# What `write`, `truncate` and `read` do to the bytes

A bank holds its bytes in blocks that are all full but the last.  `truncate`
resizes them, `write` overwrites a span of them, and neither touches a node
that the call does not own.
-/

namespace Htmpfs

open Program (Ends)
open Blocks (Sized blockCount)

namespace Bank

variable {bs : ℕ} {b₀ b : Bank}

/-- The entries from `lo` to `hi` are not frozen any more; the others are the old ones. -/
structure Thawed (lo hi : ℕ) (list list' : List BufferResult) : Prop where
  length : list'.length = list.length
  inside : ∀ j r, lo ≤ j → j < hi → list'[j]? = some r → r.isSnapshoted = false
  outside : ∀ j, ¬ (lo ≤ j ∧ j < hi) → list'[j]? = list[j]?

theorem Thawed.refl (lo : ℕ) (list : List BufferResult) : Thawed lo lo list list :=
  ⟨rfl, fun _ _ hlo hhi => absurd hhi (Nat.not_lt.mpr hlo), fun _ _ => rfl⟩

theorem Thawed.step {lo hi : ℕ} {list list' : List BufferResult} {r : BufferResult}
    (h : Thawed lo hi list list') (hle : lo ≤ hi) (hr : r.isSnapshoted = false) :
    Thawed lo (hi + 1) list (list'.set hi r) where
  length := by simp [h.length]
  inside := by
    intro j r' hlo hhi hj
    by_cases hjhi : hi = j
    · subst hjhi
      rw [List.getElem?_set] at hj
      rw [if_pos rfl] at hj
      split_ifs at hj
      obtain rfl := Option.some.inj hj
      exact hr
    · rw [List.getElem?_set_ne hjhi] at hj
      exact h.inside j r' hlo (by omega) hj
  outside := by
    intro j hj
    rw [List.getElem?_set_ne (by omega)]
    exact h.outside j (by omega)

theorem Thawed.unfrozen {n : ℕ} {list list' : List BufferResult} (h : Thawed 0 n list list')
    (hn : list.length ≤ n) : ∀ r ∈ list', r.isSnapshoted = false := by
  intro r hr
  obtain ⟨j, hj⟩ := List.getElem?_of_mem hr
  have hjlt := (List.getElem?_eq_some_iff.mp hj).1
  rw [h.length] at hjlt
  exact h.inside j r (Nat.zero_le _) (by omega) hj

theorem length_texts (b : Bank) : b.texts.length = b.blockList.length :=
  length_blockTexts

theorem getElem?_texts {i : ℕ} {r : BufferResult} (hi : b.blockList[i]? = some r) :
    b.texts[i]? = some (blockData b.bufferPool r) := by
  simp [texts, getElem?_blockTexts, hi]

theorem exists_entry {i : ℕ} (hi : i < b.blockList.length) : ∃ r, b.blockList[i]? = some r :=
  ⟨_, List.getElem?_eq_getElem hi⟩

/-! ## The loops -/

/-- A copy-on-write loop. -/
theorem Own.ends_thawLoop (h : Own b₀ b) (hlen : ∀ x ∈ b.texts, x.length ≤ bs)
    {start count : ℕ} (hstop : start + count ≤ b.blockList.length) :
    Ends (Program.loop (thaw bs) start count) b
      (fun _ b' => Own b₀ b' ∧ b'.texts = b.texts ∧
        Thawed start (start + count) b.blockList b'.blockList)
      (fun e _ => e = .badAlloc) := by
  refine Ends.loop (k := start) (fun k b' => Own b₀ b' ∧ b'.texts = b.texts ∧
    Thawed start k b.blockList b'.blockList) ⟨h, rfl, Thawed.refl _ _⟩ ?_
  rintro j b' hj ⟨h', htexts, hthawed⟩
  obtain ⟨r, hr⟩ := exists_entry (b := b') (i := start + j) (by rw [hthawed.length]; omega)
  have hrlen : (blockData b'.bufferPool r).length ≤ bs :=
    hlen _ (by rw [← htexts]; exact List.mem_of_getElem? (getElem?_texts hr))
  refine (h'.ends_thaw hr hrlen).mono ?_ fun _ _ he => he
  rintro _ b'' ⟨h'', htexts', r', hr', hlist⟩
  refine ⟨h'', htexts'.trans htexts, ?_⟩
  rw [hlist]
  exact hthawed.step (Nat.le_add_right _ _) hr'

/-- The loop that appends lost buffers. -/
theorem Own.ends_appendLoop (h : Own b₀ b) {start count : ℕ} :
    Ends (Program.loop append start count) b
      (fun _ b' => Own b₀ b' ∧ b'.texts = b.texts ++ List.replicate count [])
      (fun e _ => e = .badAlloc) := by
  have hloop : Ends (Program.loop append start count) b
      (fun _ b' => Own b₀ b' ∧ b'.texts = b.texts ++ List.replicate (0 + count) [])
      (fun e _ => e = .badAlloc) :=
    Ends.loop (fun k b' => Own b₀ b' ∧ b'.texts = b.texts ++ List.replicate k [])
    ⟨h, by simp⟩ (by
      rintro j b' _ ⟨h', htexts⟩
      refine h'.ends_append.mono ?_ fun _ _ he => he
      rintro _ b'' ⟨h'', htexts', _⟩
      refine ⟨h'', ?_⟩
      rw [htexts', htexts, List.replicate_succ', List.append_assoc])
  simpa using hloop

/-- The loop that removes the last buffers. -/
theorem Own.ends_dropLoop (h : Own b₀ b) {start count : ℕ} (hcount : count ≤ b.blockList.length) :
    Ends (Program.loop Bank.dropLast start count) b
      (fun _ b' => Own b₀ b' ∧ b'.texts = b.texts.take (b.blockList.length - count))
      (fun e _ => e = .badAlloc) := by
  have hloop : Ends (Program.loop Bank.dropLast start count) b
      (fun _ b' => Own b₀ b' ∧ b'.texts = b.texts.take (b.blockList.length - (0 + count)))
      (fun e _ => e = .badAlloc) :=
    Ends.loop (fun k b' => Own b₀ b' ∧ b'.texts = b.texts.take (b.blockList.length - k))
    ⟨h, by rw [List.take_of_length_le]; simp [length_texts]⟩ (by
      rintro j b' hj ⟨h', htexts⟩
      have hlen : b'.blockList.length = b.blockList.length - j := by
        rw [← length_texts, htexts, List.length_take, length_texts]
        omega
      refine (h'.ends_dropLast ?_).mono ?_ fun _ _ he => he
      · rw [← List.length_pos_iff, hlen]
        omega
      · rintro _ b'' ⟨h'', htexts', _⟩
        refine ⟨h'', ?_⟩
        rw [htexts', htexts, List.dropLast_eq_take, List.take_take, List.length_take,
          length_texts]
        congr 1
        omega)
  simpa using hloop

/-! ## `truncate` -/

/-- The first `j` blocks have been resized to their share of `n` bytes. -/
def resizedTo (bs n j : ℕ) (blocks : List Bytes) : List Bytes :=
  blocks.mapIdx fun k x => if k < j then Blocks.resize 0 (min bs (n - k * bs)) x else x

theorem resizedTo_zero {n : ℕ} {blocks : List Bytes} : resizedTo bs n 0 blocks = blocks := by
  apply List.ext_getElem?
  intro k
  simp [resizedTo]

theorem length_resizedTo {n j : ℕ} {blocks : List Bytes} :
    (resizedTo bs n j blocks).length = blocks.length := by
  simp [resizedTo]

theorem resizedTo_succ {n j : ℕ} {blocks : List Bytes} {x : Bytes}
    (hx : (resizedTo bs n j blocks)[j]? = some x) :
    (resizedTo bs n j blocks).set j (Blocks.resize 0 (min bs (n - j * bs)) x) =
      resizedTo bs n (j + 1) blocks := by
  have hj : j < blocks.length := by
    have := (List.getElem?_eq_some_iff.mp hx).1
    rwa [length_resizedTo] at this
  apply List.ext_getElem?
  intro k
  by_cases hk : j = k
  · subst hk
    rw [List.getElem?_set_self (by rwa [length_resizedTo])]
    simp only [resizedTo, List.getElem?_mapIdx, lt_irrefl, if_false, Option.map_eq_some_iff] at hx
    obtain ⟨y, hy, rfl⟩ := hx
    simp [resizedTo, List.getElem?_mapIdx, hy]
  · rw [List.getElem?_set_ne hk]
    simp only [resizedTo, List.getElem?_mapIdx]
    have hiff : k < j + 1 ↔ k < j := by omega
    simp only [hiff]

/-- One block resized by the second half of `truncate`. -/
theorem Own.ends_resizeBlock (h : Own b₀ b) {n j w : ℕ} {blocks : List Bytes}
    (htexts : b.texts = resizedTo bs n j blocks) (hj : j < blocks.length)
    (hunfrozen : ∀ r ∈ b.blockList, r.isSnapshoted = false) (hw : w = min bs (n - j * bs)) :
    Ends (truncateAt j w) b
      (fun _ b' => Own b₀ b' ∧ b'.texts = resizedTo bs n (j + 1) blocks ∧
        b'.blockList = b.blockList)
      (fun e _ => e = .badAlloc) := by
  have hjlen : j < b.blockList.length := by
    rwa [← length_texts, htexts, length_resizedTo]
  obtain ⟨r, hr⟩ := exists_entry hjlen
  have hx := getElem?_texts hr
  rw [htexts] at hx
  refine (h.ends_truncateAt hr (hunfrozen r (List.mem_of_getElem? hr))).mono ?_ fun _ _ he => he
  rintro _ b' ⟨h', hlist, htexts'⟩
  refine ⟨h', ?_, hlist⟩
  rw [htexts', htexts, hw]
  exact resizedTo_succ hx

/-- The number of blocks counted block by block: a first, the full ones and a partial last. -/
theorem blockCount_span {n : ℕ} (hbs : 0 < bs) (hn : 0 < n) :
    blockCount bs n = (n - min bs n) / bs + 1 + if (n - min bs n) % bs = 0 then 0 else 1 := by
  have hsub : n - min bs n = n - bs := by omega
  rw [hsub, Blocks.blockCount_of_pos hbs hn, blockCount]
  omega

/-- The 64-bit sizes of `truncate` and `to_string` count the blocks; only one block of the largest
size wraps around, together with the terminator. -/
def BlocksFit (bs count : ℕ) : Prop :=
  count * bs + 1 < 2 ^ 64 ∨ count = 1 ∧ bs + 1 = 2 ^ 64

theorem blocksFit_zero : BlocksFit bs 0 := Or.inl (by simp)

theorem BlocksFit.mul_lt {count : ℕ} (h : BlocksFit bs count) : count * bs < 2 ^ 64 := by
  rcases h with hlt | ⟨rfl, hbs⟩
  · omega
  · omega

theorem blocksFit_blockCount {n : ℕ} (hbs : 0 < bs) (hword : bs < 2 ^ 64) (hn : n < 2 ^ 63) :
    BlocksFit bs (blockCount bs n) := by
  rcases hcount : blockCount bs n with _ | _ | k
  · exact blocksFit_zero
  · by_cases hlast : bs + 1 = 2 ^ 64
    · exact Or.inr ⟨rfl, hlast⟩
    · exact Or.inl (by omega)
  · -- all blocks but the last are full
    have hfull := (Blocks.lt_blockCount (k := k + 1) hbs).mp (by omega : k + 1 < blockCount bs n)
    have hone := Nat.mul_le_mul_right bs (Nat.le_add_left 1 k)
    left
    rw [Nat.add_mul (k + 1)]
    omega

/-- The second half of `truncate`. -/
theorem Own.ends_truncateSpan (hbs : 0 < bs) (h : Own b₀ b) {n : ℕ}
    (hcount : b.blockList.length = blockCount bs n)
    (hunfrozen : ∀ r ∈ b.blockList, r.isSnapshoted = false) :
    Ends (truncateSpan bs n 0) b
      (fun _ b' => Own b₀ b' ∧ b'.texts = resizedTo bs n (blockCount bs n) b.texts ∧
        b'.blockList = b.blockList ∧ n < 2 ^ 63)
      (fun e _ => e = .badAlloc) := by
  have hw : (if bs - 0 % bs ≥ n then n else bs - 0 % bs) = min bs n := by
    rw [Nat.zero_mod]
    split_ifs <;> omega
  unfold truncateSpan
  simp only [hw, Nat.zero_div, Nat.zero_add]
  by_cases hn : n = 0
  · subst hn
    simp only [if_true, Program.ends_pure]
    exact ⟨h, by rw [Blocks.blockCount_zero, resizedTo_zero], trivial, by norm_num⟩
  · rw [if_neg hn]
    by_cases hlarge : 2 ^ 63 ≤ n
    · rw [if_pos hlarge, Program.ends_throw]
    rw [if_neg hlarge]
    have hspan := blockCount_span (n := n) hbs (by omega)
    have hlen : b.texts.length = blockCount bs n := (length_texts b).trans hcount
    generalize hblocks : b.texts = blocks at hlen ⊢
    generalize hrest : n - min bs n = rest at hspan ⊢
    have hfull : ∀ j ≤ rest / bs, min bs (n - j * bs) = bs ∨ j = 0 := by
      intro j hj
      by_cases hj0 : j = 0
      · exact Or.inr hj0
      · have h1 := Nat.mul_le_mul_right bs hj
        have h2 := Nat.div_mul_le_self rest bs
        have h3 := Nat.mul_le_mul_right bs (Nat.one_le_iff_ne_zero.mpr hj0)
        left
        omega
    simp only [Program.ends_bind]
    refine (h.ends_resizeBlock (n := n) (j := 0)
      (show b.texts = resizedTo bs n 0 blocks by rw [resizedTo_zero, hblocks])
      (by rw [hlen, hspan]; exact Nat.add_pos_left (Nat.succ_pos _) _) hunfrozen (by simp)).mono ?_ fun _ _ he => he
    rintro _ b₁ ⟨h₁, htexts₁, hlist₁⟩
    refine (Ends.loop (k := 1) (fun k b' => Own b₀ b' ∧ b'.texts = resizedTo bs n k blocks ∧
      b'.blockList = b.blockList) ⟨h₁, htexts₁, hlist₁⟩ ?_).mono ?_ fun _ _ he => he
    · rintro j b' hj ⟨h', htexts', hlist'⟩
      refine (h'.ends_resizeBlock htexts' (by omega) (by rwa [hlist']) ?_).mono ?_
        fun _ _ he => he
      · rcases hfull (1 + j) (by omega) with hbs' | h0
        · exact hbs'.symm
        · omega
      · rintro _ b'' ⟨h'', htexts'', hlist''⟩
        exact ⟨h'', htexts'', hlist''.trans hlist'⟩
    · rintro _ b₂ ⟨h₂, htexts₂, hlist₂⟩
      by_cases hlast : rest % bs = 0
      · rw [if_pos hlast] at hspan ⊢
        rw [hspan, Nat.add_zero, Nat.add_comm _ 1]
        exact ⟨h₂, htexts₂, hlist₂, not_le.mp hlarge⟩
      · rw [if_neg hlast] at hspan ⊢
        rw [Nat.add_comm 1] at htexts₂
        rw [hspan]
        refine (h₂.ends_resizeBlock htexts₂ (by omega) (by rwa [hlist₂]) ?_).mono ?_
          fun _ _ he => he
        · have hdm := Nat.div_add_mod' rest bs
          have hmod := Nat.mod_lt rest hbs
          rw [Nat.add_mul]
          omega
        · rintro _ b₃ ⟨h₃, htexts₃, hlist₃⟩
          exact ⟨h₃, htexts₃, hlist₃.trans hlist₂, not_le.mp hlarge⟩

/-- Both branches of `truncate` leave as many blocks as the new size needs, none of them frozen,
and the old blocks among them unchanged. -/
theorem Own.ends_truncate_of_blocks {b' : Bank} (h' : Own b₀ b') (hbs : 0 < bs)
    (hword : bs < 2 ^ 64) {m n : ℕ} (hs : Sized bs m b.texts)
    (hcount : b'.blockList.length = blockCount bs n)
    (hunfrozen : ∀ r ∈ b'.blockList, r.isSnapshoted = false)
    (htexts : ∀ k < blockCount bs n, b'.texts[k]? = some (b.texts.getD k [])) :
    Ends (truncateSpan bs n 0) b'
      (fun _ b'' => Own b₀ b'' ∧ Sized bs n b''.texts ∧ BlocksFit bs b''.blockList.length ∧
        b''.texts.flatten = Blocks.resize 0 n b.texts.flatten ∧
        ∀ r ∈ b''.blockList, r.isSnapshoted = false)
      (fun e _ => e = .badAlloc) := by
  refine (h'.ends_truncateSpan hbs hcount hunfrozen).mono ?_ fun _ _ he => he
  rintro _ b'' ⟨h'', htexts'', hlist'', hlarge⟩
  have hresize := hs.resize (z := (0 : UInt8)) (n := n) hbs
    (show b''.texts.length = blockCount bs n by
      rw [htexts'', length_resizedTo, length_texts, hcount]) (by
      intro k hk
      rw [htexts'', length_resizedTo, length_texts, hcount] at hk
      rw [htexts'', resizedTo, List.getElem?_mapIdx, htexts k hk, Option.map_some, if_pos hk])
  exact ⟨h'', hresize.1, by rw [hlist'', hcount]; exact blocksFit_blockCount hbs hword hlarge,
    hresize.2, by rwa [hlist'']⟩

/-- `truncate` cuts the bytes or pads them with zeros, and leaves no frozen entry. -/
theorem Own.ends_truncate (hbs : 0 < bs) (hword : bs < 2 ^ 64) (h : Own b₀ b) {m n : ℕ}
    (hs : Sized bs m b.texts) (hfit : BlocksFit bs b.blockList.length) :
    Ends (truncate bs n) b
      (fun _ b' => Own b₀ b' ∧ Sized bs n b'.texts ∧ BlocksFit bs b'.blockList.length ∧
        b'.texts.flatten = Blocks.resize 0 n b.texts.flatten ∧
        ∀ r ∈ b'.blockList, r.isSnapshoted = false)
      (fun e _ => e = .badAlloc) := by
  have hsize : u64 (b.blockList.length * bs) = b.blockList.length * bs :=
    Nat.mod_eq_of_lt hfit.mul_lt
  have hle : ∀ x ∈ b.texts, x.length ≤ bs := fun x hx => hs.length_le hbs hx
  unfold truncate
  simp only [Program.ends_bind, Program.ends_get, hsize, Nat.zero_div, Nat.sub_zero, Nat.zero_add]
  by_cases hgrow : b.blockList.length * bs < n
  · rw [if_pos hgrow]
    simp only [Program.ends_bind, Program.ends_get]
    refine h.ends_appendLoop.mono ?_ fun _ _ he => he
    rintro _ b₁ ⟨h₁, htexts₁⟩
    have hlen₁ : b₁.blockList.length = blockCount bs n := by
      have hcount := (Blocks.lt_blockCount (n := n) hbs).mpr hgrow
      have hadd := Blocks.blockCount_sub_mul (n := n) hbs b.blockList.length
      rw [← length_texts, htexts₁, List.length_append, List.length_replicate, length_texts]
      change _ + blockCount bs (n - b.blockList.length * bs) = _
      omega
    have hle₁ : ∀ x ∈ b₁.texts, x.length ≤ bs := by
      intro x hx
      rw [htexts₁, List.mem_append] at hx
      rcases hx with hx | hx
      · exact hle x hx
      · rw [List.eq_of_mem_replicate hx]
        exact Nat.zero_le _
    refine (h₁.ends_thawLoop hle₁ (Nat.zero_add _).le).mono ?_ fun _ _ he => he
    rintro _ b₂ ⟨h₂, htexts₂, hthawed⟩
    refine h₂.ends_truncate_of_blocks hbs hword hs (by rw [hthawed.length, hlen₁])
      (hthawed.unfrozen (by omega)) ?_
    · intro k hk
      rw [htexts₂, htexts₁, List.getD_eq_getElem?_getD]
      by_cases hkb : k < b.texts.length
      · rw [List.getElem?_append_left hkb, List.getElem?_eq_getElem hkb]
        rfl
      · rw [List.getElem?_append_right (by omega), List.getElem?_eq_none (l := b.texts) (by omega),
          List.getElem?_replicate, if_pos]
        · rfl
        · rw [← hlen₁, ← length_texts, htexts₁, List.length_append,
            List.length_replicate] at hk
          omega
  · rw [if_neg hgrow]
    have hu : u64 n = n := Nat.mod_eq_of_lt (by have := hfit.mul_lt; omega)
    have hcount : blockCount bs n ≤ b.blockList.length :=
      (Blocks.blockCount_le hbs).mpr (by omega)
    simp only [Program.ends_bind, hu]
    refine (h.ends_dropLoop (Nat.sub_le _ _)).mono ?_ fun _ _ he => he
    rintro _ b₁ ⟨h₁, htexts₁⟩
    change b₁.texts = b.texts.take (_ - (_ - blockCount bs n)) at htexts₁
    rw [Nat.sub_sub_self hcount] at htexts₁
    have hlen₁ : b₁.blockList.length = blockCount bs n := by
      rw [← length_texts, htexts₁, List.length_take, length_texts]
      omega
    have hle₁ : ∀ x ∈ b₁.texts, x.length ≤ bs := by
      intro x hx
      rw [htexts₁] at hx
      exact hle x (List.mem_of_mem_take hx)
    change Ends (Program.loop (thaw bs) 0 (blockCount bs n)) b₁ _ _
    refine (h₁.ends_thawLoop hle₁ (by rw [hlen₁, Nat.zero_add])).mono ?_ fun _ _ he => he
    rintro _ b₂ ⟨h₂, htexts₂, hthawed⟩
    refine h₂.ends_truncate_of_blocks hbs hword hs (by rw [hthawed.length, hlen₁])
      (hthawed.unfrozen (by omega)) ?_
    · intro k hk
      have hkb : k < b.texts.length := by
        rw [length_texts]
        omega
      rw [htexts₂, htexts₁, List.getElem?_take_of_lt hk, List.getD_eq_getElem?_getD,
        List.getElem?_eq_getElem hkb]
      rfl

/-! ## `write` -/

/-- The first `w` bytes of the buffer have been written over the `n` bytes of `b`. -/
structure Written (bs n : ℕ) (b₀ b : Bank) (buffer : Bytes) (offset w : ℕ) (b' : Bank) : Prop where
  own : Own b₀ b'
  list : b'.blockList = b.blockList
  sized : Sized bs n b'.texts
  bytes : b'.texts.flatten = Blocks.overwrite offset (buffer.take w) b.texts.flatten

section Write

variable {n : ℕ} {buffer : Bytes} {offset w : ℕ} {resize : Bool}

/-- One piece of a write, inside one block. -/
theorem Written.ends_piece {b' : Bank} (hbs : 0 < bs) (hs : Sized bs n b.texts)
    (h : Written bs n b₀ b buffer offset w b') {i r l : ℕ}
    (hunfrozen : ∀ j e, offset / bs ≤ j → j < blockCount bs (offset + buffer.length) →
      b.blockList[j]? = some e → e.isSnapshoted = false)
    (hfits : offset + buffer.length ≤ n) (hend : resize = true → offset + buffer.length = n)
    (hpos : i * bs + r = offset + w) (hl : 0 < l) (hwl : w + l ≤ buffer.length)
    (hrl : r + l ≤ bs) (hfull : r + l = bs ∨ w + l = buffer.length) :
    Ends (writeAt i (slice buffer w l) r resize) b'
      (fun _ b'' => Written bs n b₀ b buffer offset (w + l) b'')
      (fun e _ => e = .badAlloc) := by
  have hcount : b'.blockList.length = blockCount bs n := by
    rw [← length_texts, h.sized.length hbs]
  obtain ⟨e, he⟩ := exists_entry (b := b') (i := i) (by
    rw [hcount, Blocks.lt_blockCount hbs]
    omega)
  have hx := getElem?_texts he
  have hxlen := h.sized.length_block hbs hx
  have hslice : (slice buffer w l).length = l := by
    simp only [slice, List.length_take, List.length_drop]
    omega
  have hthawed : e.isSnapshoted = false := by
    refine hunfrozen i e ?_ ?_ (by rw [← h.list]; exact he)
    · rw [Nat.div_le_iff_le_mul_add_pred hbs, Nat.mul_comm]
      omega
    · rw [Blocks.lt_blockCount hbs]
      omega
  refine (h.own.ends_writeAt he hthawed (by rw [hslice, hxlen]; omega) ?_).mono ?_ fun _ _ he => he
  · intro hr
    have := hend hr
    rw [hslice, hxlen]
    omega
  · rintro _ b'' ⟨hown, hlist, htexts⟩
    have hwrite := h.sized.overwrite (r := r) (p := slice buffer w l) hbs hx
      (by rw [hslice, hxlen]; omega)
    rw [← htexts] at hwrite
    refine ⟨hown, hlist.trans h.list, hwrite.1, ?_⟩
    rw [hwrite.2, h.bytes, hpos]
    exact Blocks.overwrite_take_append (by rw [hs.length_flatten]; exact hfits)

/-- The common end of both branches of `write`. -/
theorem Own.ends_writeSpan (hbs : 0 < bs) (h : Own b₀ b) (hs : Sized bs n b.texts)
    (hunfrozen : ∀ j e, offset / bs ≤ j → j < blockCount bs (offset + buffer.length) →
      b.blockList[j]? = some e → e.isSnapshoted = false)
    (hfits : offset + buffer.length ≤ n) (hend : resize = true → offset + buffer.length = n)
    (hpos : 0 < buffer.length) :
    Ends (writeSpan bs buffer offset resize) b
      (fun _ b' => Written bs n b₀ b buffer offset buffer.length b')
      (fun e _ => e = .badAlloc) := by
  have hw : (if bs - offset % bs ≥ buffer.length then buffer.length else bs - offset % bs) =
      min (bs - offset % bs) buffer.length := by
    split_ifs <;> omega
  unfold writeSpan
  simp only [hw, Program.ends_bind]
  have hdm := Nat.div_add_mod' offset bs
  have hmod := Nat.mod_lt offset hbs
  generalize hw₀ : min (bs - offset % bs) buffer.length = w₀
  have hstart : Written bs n b₀ b buffer offset 0 b :=
    ⟨h, rfl, hs, by rw [List.take_zero, Blocks.overwrite_nil]⟩
  refine (hstart.ends_piece hbs hs hunfrozen hfits hend (by omega) (l := w₀) (by omega) (by omega)
    (by omega) (by omega)).mono ?_ fun _ _ he => he
  intro _ b₁ h₁
  rw [Nat.zero_add] at h₁
  have hfull := Nat.div_mul_le_self (buffer.length - w₀) bs
  have hrest := Nat.div_add_mod' (buffer.length - w₀) bs
  have hrmod := Nat.mod_lt (buffer.length - w₀) hbs
  -- the `j`-th full block begins where the pieces before it end
  have hblock : ∀ j, 0 < buffer.length - w₀ →
      (offset / bs + (1 + j)) * bs = offset + (w₀ + j * bs) := by
    intro j hj
    rw [Nat.add_mul, Nat.add_mul, Nat.one_mul]
    omega
  refine (Ends.loop (k := 0) (fun k b' => Written bs n b₀ b buffer offset (w₀ + k * bs) b')
    (by simpa using h₁) ?_).mono ?_ fun _ _ he => he
  · intro j b' hj h'
    have hjle := Nat.mul_le_mul_right bs (show j + 1 ≤ _ from hj)
    rw [Nat.add_mul, Nat.one_mul] at hjle
    rw [Nat.zero_add] at h'
    rw [Nat.add_sub_cancel_left, Nat.zero_add, Nat.add_mul, Nat.one_mul, ← Nat.add_assoc w₀]
    exact h'.ends_piece hbs hs hunfrozen hfits hend (by rw [hblock j (by omega), Nat.add_zero])
      hbs (by omega) (by omega) (Or.inl (Nat.zero_add bs))
  · intro _ b₂ h₂
    rw [Nat.zero_add] at h₂
    by_cases hlast : (buffer.length - w₀) % bs = 0
    · rw [if_pos hlast, Program.ends_pure]
      rwa [show w₀ + (buffer.length - w₀) / bs * bs = buffer.length by omega] at h₂
    · rw [if_neg hlast]
      have hpiece := h₂.ends_piece (i := offset / bs + (buffer.length - w₀) / bs + 1) (r := 0)
        (l := (buffer.length - w₀) % bs) hbs hs hunfrozen hfits hend
        (by
          have := hblock ((buffer.length - w₀) / bs) (by omega)
          rw [Nat.add_zero, ← this]
          congr 1
          omega)
        (by omega) (by omega) (by omega) (Or.inr (by omega))
      rwa [show w₀ + (buffer.length - w₀) / bs * bs + (buffer.length - w₀) % bs = buffer.length
        by omega] at hpiece

theorem dataSize_eq {pool : IdPool Buffer} {list : List BufferResult}
    (hlive : ∀ r ∈ list, Live pool r) : dataSize pool list = .ok (content pool list).length := by
  induction list with
  | nil => rfl
  | cons r list ih =>
      have hr := (hlive r (by simp)).deref
      have hrest := ih fun r' hr' => hlive r' (by simp [hr'])
      simp only [dataSize, hr, hrest]
      simp only [content, blockTexts, List.map_cons, List.flatten_cons, List.length_append]
      rfl

/-- The bytes after a write. -/
def writeBytes (buffer : Bytes) (offset : ℕ) (resize : Bool) (old : Bytes) : Bytes :=
  if buffer.length = 0 then old
  else if resize then
    Blocks.overwrite offset buffer (Blocks.resize 0 (offset + buffer.length) old)
  else if old.length < offset then old
  else Blocks.overwrite offset (buffer.take (old.length - offset)) old

/-- The return value of a write. -/
def writeCount (buffer : Bytes) (offset : ℕ) (resize : Bool) (old : Bytes) : ℕ :=
  if buffer.length = 0 then 0
  else if resize then buffer.length
  else if old.length < offset then 0
  else min buffer.length (old.length - offset)

/-- The block numbers at which a write gives up a frozen entry. -/
def WriteTouches (bs : ℕ) (buffer : Bytes) (offset : ℕ) (resize : Bool) (old : Bytes) (j : ℕ) :
    Prop :=
  buffer.length ≠ 0 ∧ (resize = true ∨ offset ≤ old.length ∧ offset / bs ≤ j ∧
    j < blockCount bs (offset + min buffer.length (old.length - offset)))

instance (bs : ℕ) (buffer : Bytes) (offset : ℕ) (resize : Bool) (old : Bytes) :
    DecidablePred (WriteTouches bs buffer offset resize old) := fun j => by
  unfold WriteTouches
  infer_instance

/-- A write in place at the end of the bytes, where no block begins. -/
def AtBlockEnd (bs : ℕ) (buffer : Bytes) (offset : ℕ) (resize : Bool) (old : Bytes) : Prop :=
  buffer.length ≠ 0 ∧ resize = false ∧ offset = old.length ∧ old.length % bs = 0

/-- The frozen entries that remain are those at the places that were not touched. -/
def Unfroze (touched : ℕ → Prop) (list list' : List BufferResult) : Prop :=
  ∀ r, r.isSnapshoted = true → (r ∈ list' ↔ ∃ j, list[j]? = some r ∧ ¬ touched j)

theorem Unfroze.of_all {list list' : List BufferResult} {touched : ℕ → Prop}
    (h : ∀ r ∈ list', r.isSnapshoted = false) (htouched : ∀ j, touched j) :
    Unfroze touched list list' := by
  intro r hr
  constructor
  · intro hmem
    simp [h r hmem] at hr
  · rintro ⟨j, _, hj⟩
    exact absurd (htouched j) hj

theorem Unfroze.refl {list : List BufferResult} {touched : ℕ → Prop} (h : ∀ j, ¬ touched j) :
    Unfroze touched list list := by
  intro r _
  rw [List.mem_iff_getElem?]
  exact ⟨fun ⟨j, hj⟩ => ⟨j, hj, h j⟩, fun ⟨j, hj, _⟩ => ⟨j, hj⟩⟩

theorem Thawed.unfroze {lo hi : ℕ} {list list' : List BufferResult} {touched : ℕ → Prop}
    (h : Thawed lo hi list list') (htouched : ∀ j, touched j ↔ lo ≤ j ∧ j < hi) :
    Unfroze touched list list' := by
  intro r hr
  constructor
  · intro hmem
    obtain ⟨j, hj⟩ := List.getElem?_of_mem hmem
    have hout : ¬ (lo ≤ j ∧ j < hi) := by
      rintro ⟨hlo, hhi⟩
      simp [h.inside j r hlo hhi hj] at hr
    exact ⟨j, by rw [← h.outside j hout, hj], by rwa [htouched]⟩
  · rintro ⟨j, hj, hnot⟩
    rw [htouched] at hnot
    exact List.mem_of_getElem? ((h.outside j hnot).trans hj)

theorem blockAt_at_end {pool : IdPool Buffer} {list : List BufferResult} (hbs : 0 < bs)
    (hs : Sized bs n (blockTexts pool list)) (hmod : n % bs = 0) :
    blockAt (n / bs) ⟨pool, list⟩ = .error .outOfRange := by
  have hnone : list[n / bs]? = none := by
    rw [List.getElem?_eq_none_iff, ← @length_blockTexts pool, hs.length hbs, blockCount,
      if_pos hmod, Nat.add_zero]
  simp only [blockAt, hnone]
  rfl

/-- An empty span still asks for its first block. -/
theorem ends_writeSpan_at_end (hbs : 0 < bs) (hs : Sized bs n b.texts) (hmod : n % bs = 0) :
    Ends (writeSpan bs [] n false) b (fun _ _ => False) (fun e b' => e = .outOfRange ∧ b' = b) := by
  unfold writeSpan writeAt
  simp only [Program.ends_bind]
  exact Program.Ends.reads_error (blockAt_at_end hbs hs hmod) ⟨rfl, rfl⟩

/-- A write that may not grow the file, at an offset inside it. -/
theorem Own.ends_writeInPlace (hbs : 0 < bs) (h : Own b₀ b) (hs : Sized bs n b.texts)
    (hpos : 0 < buffer.length) (hoffset : offset ≤ n) {writeSize : ℕ}
    (hsize : writeSize = min buffer.length (n - offset)) :
    Ends (do
        Program.loop (thaw bs) (offset / bs) (blockCount bs (offset + writeSize) - offset / bs)
        writeSpan bs (buffer.take writeSize) offset false) b
      (fun _ b' => Own b₀ b' ∧ Sized bs n b'.texts ∧
        b'.texts.flatten = Blocks.overwrite offset (buffer.take writeSize) b.texts.flatten ∧
        Thawed (offset / bs) (blockCount bs (offset + writeSize)) b.blockList b'.blockList)
      (fun e b' => e = .badAlloc ∨ e = .outOfRange ∧ offset = n ∧ n % bs = 0 ∧ b' = b) := by
  have hle : ∀ x ∈ b.texts, x.length ≤ bs := fun x hx => hs.length_le hbs hx
  have hcount : b.blockList.length = blockCount bs n := by
    rw [← length_texts, hs.length hbs]
  have htake : (buffer.take writeSize).length = writeSize := by
    rw [List.length_take]
    omega
  have hstart : offset / bs ≤ blockCount bs (offset + writeSize) := by
    by_contra hlt
    push Not at hlt
    have h1 := Nat.div_mul_le_self offset bs
    have h2 := (Blocks.blockCount_le (n := offset + writeSize) hbs).mp le_rfl
    have h3 := Nat.mul_le_mul_right bs hlt
    rw [Nat.succ_mul] at h3
    omega
  have hstop : blockCount bs (offset + writeSize) ≤ blockCount bs n := by
    rw [Blocks.blockCount_le hbs]
    exact le_trans (by omega) ((Blocks.blockCount_le hbs).mp le_rfl)
  have hthaw := h.ends_thawLoop hle
    (show offset / bs + (blockCount bs (offset + writeSize) - offset / bs) ≤ b.blockList.length by
      omega)
  rw [Nat.add_sub_cancel' hstart] at hthaw
  rw [Program.ends_bind]
  by_cases hzero : 0 < writeSize
  · refine hthaw.mono ?_ fun _ _ he => Or.inl he
    rintro _ b₁ ⟨h₁, htexts₁, hthawed⟩
    refine (h₁.ends_writeSpan (n := n) hbs (by rwa [htexts₁]) ?_ (by omega) (by simp)
      (by omega)).mono ?_ fun _ _ he => Or.inl he
    · rw [htake]
      exact fun j e hlo hhi => hthawed.inside j e hlo hhi
    · rintro _ b₂ ⟨hown, hlist, hsized, hbytes⟩
      rw [List.take_length, htexts₁] at hbytes
      refine ⟨hown, hsized, hbytes, ?_⟩
      rw [hlist]
      exact hthawed
  · obtain rfl : writeSize = 0 := by omega
    obtain rfl : offset = n := by omega
    rw [Nat.add_zero] at hstart hstop hthaw ⊢
    simp only [List.take_zero, Blocks.overwrite_nil]
    by_cases hmod : offset % bs = 0
    · have hlast : blockCount bs offset = offset / bs := by
        rw [blockCount, if_pos hmod, Nat.add_zero]
      rw [hlast, Nat.sub_self]
      exact (ends_writeSpan_at_end hbs hs hmod).mono (fun _ _ => False.elim)
        fun _ _ he => Or.inr ⟨he.1, trivial, hmod, he.2⟩
    · have hlast : blockCount bs offset = offset / bs + 1 := by
        rw [blockCount, if_neg hmod]
      refine hthaw.mono ?_ fun _ _ he => Or.inl he
      rintro _ b₁ ⟨h₁, htexts₁, hthawed⟩
      obtain ⟨e, he⟩ := exists_entry (b := b₁) (i := offset / bs) (by rw [hthawed.length]; omega)
      have hx := getElem?_texts he
      have hxlen : (blockData b₁.bufferPool e).length = offset % bs := by
        have hmodlt := Nat.mod_lt offset hbs
        have hdm := Nat.div_add_mod' offset bs
        rw [htexts₁] at hx
        rw [hs.length_block hbs hx]
        omega
      have hwrite : Ends (writeAt (offset / bs) [] (offset % bs) false) b₁
          (fun _ b' => Own b₀ b' ∧ b'.blockList = b₁.blockList ∧ b'.texts = b₁.texts.set
            (offset / bs) (Blocks.overwrite (offset % bs) [] (blockData b₁.bufferPool e)))
          (fun e _ => e = .badAlloc) :=
        h₁.ends_writeAt he (hthawed.inside _ e le_rfl (by omega) he) (by rw [hxlen]; rfl) (by simp)
      unfold writeSpan
      simp only [slice, List.drop_nil, List.take_nil, List.length_nil, Nat.zero_sub, Nat.zero_div,
        Nat.zero_mod, if_true, Program.ends_bind, Program.loop, Program.ends_pure]
      refine hwrite.mono ?_ fun _ _ he => Or.inl he
      rintro _ b₂ ⟨h₂, hlist, htexts₂⟩
      rw [Blocks.overwrite_nil] at htexts₂
      have hsame : b₂.texts = b.texts := by
        rw [htexts₂, ← htexts₁]
        obtain ⟨hlt, hget⟩ := List.getElem?_eq_some_iff.mp hx
        rw [← hget, List.set_getElem_self]
      refine ⟨h₂, by rwa [hsame], by rw [hsame], ?_⟩
      rw [hlist]
      exact hthawed

/-- `write` on the current block list, after its sanity checks. -/
theorem Own.ends_write (hbs : 0 < bs) (hword : bs < 2 ^ 64) (h : Own b₀ b)
    (hs : Sized bs n b.texts) (hfit : BlocksFit bs b.blockList.length) (hpos : 0 < buffer.length)
    (hwrap : offset + buffer.length < 2 ^ 64) :
    Ends (write bs buffer offset resize) b
      (fun count b' => Own b₀ b' ∧ count = writeCount buffer offset resize b.texts.flatten ∧
        (∃ n', Sized bs n' b'.texts) ∧ BlocksFit bs b'.blockList.length ∧
        b'.texts.flatten = writeBytes buffer offset resize b.texts.flatten ∧
        Unfroze (WriteTouches bs buffer offset resize b.texts.flatten) b.blockList b'.blockList)
      (fun e b' => e = .badAlloc ∨ e = .outOfRange ∧
        AtBlockEnd bs buffer offset resize b.texts.flatten ∧ b' = b) := by
  have hu : u64 (offset + buffer.length) = offset + buffer.length := Nat.mod_eq_of_lt hwrap
  have hlen : b.texts.flatten.length = n := hs.length_flatten
  unfold write
  simp only [writeBytes, writeCount, if_neg hpos.ne']
  cases resize with
  | true =>
      simp only [if_true, Program.ends_bind, hu, Program.ends_pure]
      refine (h.ends_truncate hbs hword hs hfit).mono ?_ fun _ _ he => Or.inl he
      rintro _ b₁ ⟨h₁, hs₁, hfit₁, hbytes₁, hunfrozen⟩
      refine (h₁.ends_writeSpan hbs hs₁ ?_ le_rfl (fun _ => rfl) hpos).mono ?_
        fun _ _ he => Or.inl he
      · exact fun j e _ _ he => hunfrozen e (List.mem_of_getElem? he)
      · rintro _ b₂ ⟨hown, hlist, hsized, hbytes⟩
        rw [List.take_length, hbytes₁] at hbytes
        exact ⟨hown, trivial, ⟨_, hsized⟩, by rwa [hlist], hbytes,
          Unfroze.of_all (by rwa [hlist]) fun _ => ⟨hpos.ne', Or.inl rfl⟩⟩
  | false =>
      have hdata : dataSize b.bufferPool b.blockList = .ok n := by
        rw [dataSize_eq h.live, ← hlen]
        rfl
      simp only [Bool.false_eq_true, if_false, Program.ends_bind]
      refine Program.Ends.reads_ok hdata ?_
      simp only [hlen, hu]
      by_cases hbeyond : n < offset
      · rw [if_pos hbeyond, if_pos hbeyond, if_pos hbeyond, Program.ends_pure]
        refine ⟨h, rfl, ⟨n, hs⟩, hfit, rfl, Unfroze.refl ?_⟩
        rintro j ⟨_, htouched | ⟨hle, _⟩⟩
        · exact Bool.false_ne_true htouched
        · omega
      · rw [if_neg hbeyond, if_neg hbeyond, if_neg hbeyond]
        have hsize : (if offset + buffer.length > n then n - offset else buffer.length) =
            min buffer.length (n - offset) := by
          split_ifs <;> omega
        have hu' : u64 (offset + min buffer.length (n - offset)) =
            offset + min buffer.length (n - offset) := Nat.mod_eq_of_lt (by omega)
        have hinplace := h.ends_writeInPlace hbs hs hpos (Nat.le_of_not_lt hbeyond) rfl
        simp only [hsize, hu', Program.ends_bind, Program.ends_pure] at hinplace ⊢
        have hleaves : ∀ e b', e = Exit.badAlloc ∨ e = .outOfRange ∧ offset = n ∧ n % bs = 0 ∧
            b' = b → e = .badAlloc ∨ e = .outOfRange ∧
              AtBlockEnd bs buffer offset false b.texts.flatten ∧ b' = b := by
          rintro e b' (he | ⟨he, hend, hmod, hb⟩)
          · exact Or.inl he
          · exact Or.inr ⟨he, ⟨hpos.ne', rfl, hlen ▸ hend, hlen ▸ hmod⟩, hb⟩
        refine hinplace.mono ?_ hleaves
        intro _ b₁ hspan
        refine hspan.mono ?_ hleaves
        rintro _ b₂ ⟨hown, hsized, hbytes, hthawed⟩
        refine ⟨hown, trivial, ⟨n, hsized⟩, by rwa [hthawed.length], ?_,
          hthawed.unfroze fun j => ?_⟩
        · rw [hbytes]
          congr 1
          rw [← List.take_length (l := buffer), List.take_take]
          simp [min_comm]
        · simp only [WriteTouches, hpos.ne', hlen, Bool.false_eq_true, false_or, ne_eq,
            not_false_eq_true, true_and]
          exact and_iff_right (Nat.le_of_not_lt hbeyond)

/-- `write` where it asks for a block that is not there. -/
theorem Own.ends_write_atBlockEnd (hbs : 0 < bs) (h : Own b₀ b) (hs : Sized bs n b.texts)
    (hwrap : offset + buffer.length < 2 ^ 64)
    (hend : AtBlockEnd bs buffer offset resize b.texts.flatten) :
    Ends (write bs buffer offset resize) b (fun _ _ => False)
      (fun e b' => e = .outOfRange ∧ b' = b) := by
  obtain ⟨hpos, rfl, rfl, hmod⟩ := hend
  have hdata : dataSize b.bufferPool b.blockList = .ok n := by
    rw [dataSize_eq h.live, ← hs.length_flatten]
    rfl
  rw [hs.length_flatten] at hmod hwrap ⊢
  have hu : u64 (n + buffer.length) = n + buffer.length := Nat.mod_eq_of_lt hwrap
  have hu' : u64 n = n := Nat.mod_eq_of_lt (by omega)
  unfold write
  simp only [Bool.false_eq_true, if_false, Program.ends_bind]
  refine Program.Ends.reads_ok hdata ?_
  -- nothing is left to write, and no block is to be reallocated
  rw [if_neg (lt_irrefl n), hu, if_pos (show n + buffer.length > n by omega), Nat.sub_self,
    Nat.add_zero, hu', if_pos hmod, Nat.add_zero, Nat.sub_self, List.take_zero]
  simp only [Program.ends_bind, Program.loop, Program.ends_pure]
  exact (ends_writeSpan_at_end hbs hs hmod).mono (fun _ _ => False.elim) fun _ _ he => he

end Write

/-! ## `read` -/

section Read

variable {pool : IdPool Buffer} {list : List BufferResult} {n i l r : ℕ}

theorem readAt_eq (hbs : 0 < bs) (hlive : ∀ e ∈ list, Live pool e)
    (hs : Sized bs n (blockTexts pool list)) (hi : i * bs < n) (hpos : i * bs + r + l ≤ n)
    (hrl : r + l ≤ bs) :
    readAt pool list i l r = .ok (((content pool list).drop (i * bs + r)).take l) := by
  obtain ⟨e, he⟩ := exists_entry (b := ⟨pool, list⟩) (i := i) (by
    rwa [← length_texts, texts, hs.length hbs, Blocks.lt_blockCount hbs])
  have hx := getElem?_texts he
  have hxlen := hs.length_block hbs hx
  have hslice := hs.slice (r := r) (l := l) hbs hx (by rw [hxlen]; omega)
  have hread : Buffer.read (blockData pool e) l r = ((content pool list).drop (i * bs + r)).take l := by
    rw [Buffer.read_of_le (by rw [hxlen]; omega)]
    exact hslice
  have hlen : (((content pool list).drop (i * bs + r)).take l).length = l := by
    simp only [content, List.length_take, List.length_drop, hs.length_flatten]
    omega
  simp only [readAt, blockAt_ok he, readBuffer, bind, Except.bind,
    (hlive e (List.mem_of_getElem? he)).deref, pure, Except.pure, hread, hlen, if_true]

theorem readFull_eq (hbs : 0 < bs) (hlive : ∀ e ∈ list, Live pool e)
    (hs : Sized bs n (blockTexts pool list)) {count : ℕ}
    (hpos : 0 < count → (i + count) * bs ≤ n) :
    readFull pool list bs i count =
      .ok (((content pool list).drop (i * bs)).take (count * bs)) := by
  induction count generalizing i with
  | zero => simp [readFull, pure, Except.pure]
  | succ count ih =>
      have hsum : (i + (count + 1)) * bs = i * bs + bs + count * bs := by
        rw [Nat.add_mul, Nat.add_mul, Nat.one_mul]
        omega
      have hnext : (i + 1) * bs = i * bs + bs := by rw [Nat.add_mul, Nat.one_mul]
      have hpos := hpos (Nat.succ_pos count)
      have hrest := ih (i := i + 1) fun _ => by
        rw [Nat.add_mul, hnext]
        omega
      have hfirst := readAt_eq (i := i) (r := 0) (l := bs) hbs hlive hs (by omega) (by omega)
        (by omega)
      simp only [readFull, hfirst, hrest, bind, Except.bind, pure, Except.pure, Nat.add_zero]
      rw [hnext, Blocks.take_append_take_drop, Nat.add_mul, Nat.one_mul, Nat.add_comm bs]

theorem read_beyond (hlive : ∀ e ∈ list, Live pool e) {length offset : ℕ}
    (hoffset : (content pool list).length < offset) : read pool list bs length offset = .ok [] := by
  simp only [read, dataSize_eq hlive, bind, Except.bind]
  rw [if_pos hoffset]
  rfl

/-- Reading from a place where there is a block gives the bytes there. -/
theorem read_eq (hbs : 0 < bs) (hlive : ∀ e ∈ list, Live pool e)
    (hs : Sized bs n (blockTexts pool list)) {length offset : ℕ}
    (hwrap : offset + length < 2 ^ 64) (hend : offset = n → n % bs ≠ 0) :
    read pool list bs length offset = .ok (((content pool list).drop offset).take length) := by
  have hlen : (content pool list).length = n := hs.length_flatten
  have hu : u64 (offset + length) = offset + length := Nat.mod_eq_of_lt hwrap
  by_cases hbeyond : n < offset
  · rw [List.drop_eq_nil_of_le (by omega), List.take_nil]
    exact read_beyond hlive (by omega)
  simp only [read, dataSize_eq hlive, hlen, bind, Except.bind, hu]
  rw [if_neg hbeyond]
  have hsize : (if offset + length > n then n - offset else length) = min length (n - offset) := by
    split_ifs <;> omega
  have hslice : ((content pool list).drop offset).take length =
      ((content pool list).drop offset).take (min length (n - offset)) := by
    rw [List.take_eq_take_iff, List.length_drop, hlen]
    omega
  rw [hsize, hslice]
  generalize hrs : min length (n - offset) = rs
  have hr := Nat.mod_lt offset hbs
  have hdm := Nat.div_add_mod' offset bs
  have hw : (if bs - offset % bs ≥ rs then rs else bs - offset % bs) = min rs (bs - offset % bs) := by
    split_ifs <;> omega
  rw [hw]
  generalize hwd : min rs (bs - offset % bs) = w
  have hstart : offset / bs * bs < n := by
    by_cases heq : offset = n
    · have hmod := hend heq
      rw [← heq] at hmod
      omega
    · omega
  have hfirst := readAt_eq (i := offset / bs) (r := offset % bs) (l := w) hbs hlive hs hstart
    (by omega) (by omega)
  rw [hdm] at hfirst
  have hquot := Nat.div_add_mod' (rs - w) bs
  have hnext : (offset / bs + 1) * bs = offset / bs * bs + bs := by rw [Nat.add_mul, Nat.one_mul]
  -- what is left after the first block begins at the next one
  have hrest : 0 < rs - w → (offset / bs + 1) * bs = offset + w := by
    intro hpos
    omega
  have hcount : 0 < (rs - w) / bs → 0 < rs - w := fun hpos =>
    Nat.pos_of_ne_zero fun hzero => by simp [hzero] at hpos
  have hfull := readFull_eq (i := offset / bs + 1) hbs hlive hs
    fun hpos : 0 < (rs - w) / bs => by
      have hplace := hrest (hcount hpos)
      rw [Nat.add_mul]
      omega
  simp only [hfirst, hfull]
  by_cases hzero : rs - w = 0
  · have hall : w = rs := by omega
    subst hall
    simp only [Nat.sub_self, Nat.zero_div, Nat.zero_mod, Nat.zero_mul, if_true, pure, Except.pure,
      List.take_zero, List.append_nil]
  · have hplace := hrest (Nat.pos_of_ne_zero hzero)
    have hlastBlock : (offset / bs + (rs - w) / bs + 1) * bs = offset + w + (rs - w) / bs * bs := by
      rw [← hplace, Nat.add_mul, Nat.add_mul, hnext, Nat.one_mul]
      omega
    rw [hplace]
    by_cases hlast : (rs - w) % bs = 0
    · rw [if_pos hlast]
      simp only [pure, Except.pure, List.append_nil]
      rw [Blocks.take_append_take_drop]
      have hsum : w + (rs - w) / bs * bs = rs := by omega
      rw [hsum]
    · have hread := readAt_eq (i := offset / bs + (rs - w) / bs + 1) (r := 0)
        (l := (rs - w) % bs) hbs hlive hs (by omega) (by omega)
        (by have := Nat.mod_lt (rs - w) hbs; omega)
      rw [if_neg hlast, hread]
      simp only [pure, Except.pure, Nat.add_zero]
      rw [hlastBlock, List.append_assoc, Blocks.take_append_take_drop, hquot,
        Blocks.take_append_take_drop]
      have hsum : w + (rs - w) = rs := by omega
      rw [hsum]

/-- Reading at the end of the bytes where no block begins fails. -/
theorem read_at_end (hbs : 0 < bs) (hlive : ∀ e ∈ list, Live pool e)
    (hs : Sized bs n (blockTexts pool list)) (hmod : n % bs = 0) (length : ℕ) :
    read pool list bs length n = .error .outOfRange := by
  have hlen : (content pool list).length = n := hs.length_flatten
  simp only [read, dataSize_eq hlive, hlen, bind, Except.bind, gt_iff_lt, lt_irrefl, if_false,
    readAt, blockAt_at_end hbs hs hmod]

theorem length_readAt {out : Bytes} (h : readAt pool list i l r = .ok out) : out.length = l := by
  unfold readAt at h
  obtain ⟨e, _, h⟩ := Program.bind_eq_ok.mp h
  obtain ⟨data, _, h⟩ := Program.bind_eq_ok.mp h
  split_ifs at h with hl
  rwa [← Program.pure_eq_ok.mp h]

theorem length_readFull {count : ℕ} {out : Bytes} (h : readFull pool list bs i count = .ok out) :
    out.length = count * bs := by
  induction count generalizing i out with
  | zero =>
      rw [← Program.pure_eq_ok.mp h]
      simp
  | succ count ih =>
      obtain ⟨first, hfirst, h⟩ := Program.bind_eq_ok.mp h
      obtain ⟨rest, hrest, h⟩ := Program.bind_eq_ok.mp h
      rw [← Program.pure_eq_ok.mp h, List.length_append, length_readAt hfirst, ih hrest,
        Nat.add_mul, Nat.one_mul, Nat.add_comm]

/-- What `read` returns where the 64-bit sum of its arguments wraps around. -/
theorem length_read_of_wrap (hlive : ∀ e ∈ list, Live pool e) {length offset : ℕ}
    (hlength : length < 2 ^ 64) (hoffset : offset ≤ (content pool list).length)
    (hbound : (content pool list).length < 2 ^ 64)
    (hwrap : 2 ^ 64 ≤ offset + length) {out : Bytes}
    (h : read pool list bs length offset = .ok out) : out.length = length := by
  have hu : u64 (offset + length) = offset + length - 2 ^ 64 := by
    unfold u64
    rw [Nat.mod_eq_sub_mod hwrap, Nat.mod_eq_of_lt (by omega)]
  have hsize : (if offset + length - 2 ^ 64 > (content pool list).length then
      (content pool list).length - offset else length) = length := if_neg (by omega)
  unfold read at h
  obtain ⟨size, hdata, h⟩ := Program.bind_eq_ok.mp h
  rw [dataSize_eq hlive] at hdata
  obtain rfl := Except.ok.inj hdata
  rw [if_neg (by omega), hu, hsize] at h
  have hle : (if bs - offset % bs ≥ length then length else bs - offset % bs) ≤ length := by
    split_ifs <;> omega
  dsimp only at h
  generalize (if bs - offset % bs ≥ length then length else bs - offset % bs) = w at h hle
  have hquot := Nat.div_add_mod' (length - w) bs
  obtain ⟨first, hfirst, h⟩ := Program.bind_eq_ok.mp h
  obtain ⟨full, hfull, h⟩ := Program.bind_eq_ok.mp h
  split_ifs at h with hzero
  · obtain ⟨last, hlast, h⟩ := Program.bind_eq_ok.mp h
    rw [← Program.pure_eq_ok.mp h, ← Program.pure_eq_ok.mp hlast, List.length_append,
      List.length_append, length_readAt hfirst, length_readFull hfull, List.length_nil]
    omega
  · obtain ⟨last, hlast, h⟩ := Program.bind_eq_ok.mp h
    rw [← Program.pure_eq_ok.mp h, List.length_append, List.length_append, length_readAt hfirst,
      length_readFull hfull, length_readAt hlast]
    omega

variable {e : Exit}

theorem readAt_thrown (hlive : ∀ x ∈ list, Live pool x) (h : readAt pool list i l r = .error e) :
    e.Thrown := by
  unfold readAt at h
  rcases Program.bind_eq_error.mp h with hblock | ⟨x, hx, h⟩
  · unfold blockAt at hblock
    split at hblock
    · simp at hblock
    · rw [← Program.throw_eq_error.mp hblock]
      trivial
  · have hmem : x ∈ list := by
      unfold blockAt at hx
      cases hget : list[i]? with
      | none => simp [hget] at hx
      | some y =>
          rw [hget] at hx
          rw [← Except.ok.inj hx]
          exact List.mem_of_getElem? hget
    rcases Program.bind_eq_error.mp h with hread | ⟨out, _, h⟩
    · simp [readBuffer, (hlive x hmem).deref, bind, Except.bind] at hread
    · split_ifs at h
      · simp at h
      · rw [← Program.throw_eq_error.mp h]
        trivial

theorem readFull_thrown (hlive : ∀ x ∈ list, Live pool x) {count : ℕ}
    (h : readFull pool list bs i count = .error e) : e.Thrown := by
  induction count generalizing i with
  | zero => exact absurd h Program.pure_ne_error
  | succ count ih =>
      unfold readFull at h
      rcases Program.bind_eq_error.mp h with hfirst | ⟨out, _, h⟩
      · exact readAt_thrown hlive hfirst
      · rcases Program.bind_eq_error.mp h with hrest | ⟨rest, _, h⟩
        · exact ih hrest
        · exact absurd h Program.pure_ne_error

/-- The last block operation of a read, if there is one. -/
theorem last_thrown {p : Prop} [Decidable p] {x : Except Exit Bytes} {f : Bytes → Bytes}
    (hx : ∀ e, x = .error e → e.Thrown)
    (h : (if p then (do let last ← pure []; pure (f last)) else do let last ← x; pure (f last)) =
      .error e) : e.Thrown := by
  split_ifs at h
  · simp at h
  · rcases Program.bind_eq_error.mp h with hlast | ⟨last, _, h⟩
    · exact hx e hlast
    · exact absurd h Program.pure_ne_error

/-- What a read of live blocks throws is caught. -/
theorem read_thrown (hlive : ∀ x ∈ list, Live pool x)
    (h : read pool list bs l r = .error e) : e.Thrown := by
  unfold read at h
  rcases Program.bind_eq_error.mp h with hsize | ⟨size, _, h⟩
  · rw [dataSize_eq hlive] at hsize
    simp at hsize
  by_cases hbeyond : r > size
  · simp [if_pos hbeyond] at h
  rw [if_neg hbeyond] at h
  rcases Program.bind_eq_error.mp h with hfirst | ⟨first, _, h⟩
  · exact readAt_thrown hlive hfirst
  rcases Program.bind_eq_error.mp h with hfull | ⟨full, _, h⟩
  · exact readFull_thrown hlive hfull
  exact last_thrown (fun _ he => readAt_thrown hlive he) h

end Read

end Bank

end Htmpfs
