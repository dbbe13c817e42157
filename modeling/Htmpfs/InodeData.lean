import Mathlib
import Htmpfs.InodeRuns

/-!
# What `read`, `write` and `truncate` do

A read takes a slice of the bytes of its version and a write overwrites a span
of the current ones.  At the end of a file whose last block is full, or that
has no block, both ask for a block that does not exist.  `truncate` cuts or
extends, and the blocks of every version stay full but for the last.
-/

namespace Htmpfs

open Program (Ends)

section Data

variable {v : InodeView} {ver : SnapshotVer} {c : Bytes}

/-- The bytes of a version: those of its blocks, which `to_string` gives unless the size of one
block and a terminator wraps around. -/
structure InodeView.Holds (v : InodeView) (ver : SnapshotVer) (c : Bytes) : Prop where
  data : v.self.data v.bufferPool ver = some c
  toString : v.self.blockSize + 1 < 2 ^ 64 → v.self.toString v.bufferPool ver = .ok c

theorem InOrder.toString_eq_ok (h : InOrder v) : v.self.toString v.bufferPool ver = .ok c ↔
    v.self.data v.bufferPool ver = some c ∧ ¬ (c ≠ [] ∧ v.self.blockSize + 1 = 2 ^ 64) := by
  rw [h.ok.toString_eq]
  cases v.self.data v.bufferPool ver with
  | none => simp
  | some c' =>
      dsimp only
      split_ifs with hwrap
      · simp only [Option.some.injEq, false_iff]
        rintro ⟨rfl, hword⟩
        exact hword hwrap
      · rw [Except.ok.injEq, Option.some.injEq, iff_self_and]
        rintro rfl
        exact hwrap

theorem InOrder.holds_iff (h : InOrder v) :
    v.Holds ver c ↔ v.self.data v.bufferPool ver = some c :=
  ⟨fun hc => hc.data, fun hdata => ⟨hdata, fun hword =>
    h.toString_eq_ok.mpr ⟨hdata, fun hwrap => hword.ne hwrap.2⟩⟩⟩

/-- What `to_string` gives are the bytes of the version. -/
theorem InodeReachable.holds_of_toString (h : InodeReachable v)
    (hc : v.self.toString v.bufferPool ver = .ok c) : v.Holds ver c :=
  h.inOrder.holds_iff.mpr (h.inOrder.toString_eq_ok.mp hc).1

/-- `read` on a version whose bytes are known. -/
theorem InOrder.exists_list (h : InOrder v) (hc : v.self.data v.bufferPool ver = some c) :
    ∃ list, v.self.bufferMap[ver]? = some list ∧ content v.bufferPool list = c ∧
      ListOk v.self.blockSize v.bufferPool list := by
  obtain ⟨list, hlist, hcontent⟩ := Option.map_eq_some_iff.mp hc
  exact ⟨list, hlist, hcontent, h.ok.list ver list hlist⟩

theorem length_lt_of_listOk {bs : ℕ} {pool : IdPool Buffer} {list : List BufferResult}
    (hbs : 0 < bs) (h : ListOk bs pool list) : (content pool list).length < 2 ^ 64 := by
  obtain ⟨hlive, _, ⟨n, hs⟩, hfits⟩ := h
  have hlen : (content pool list).length = n := hs.length_flatten
  have hcount := hs.length hbs
  rw [length_blockTexts] at hcount
  have hle := (Blocks.blockCount_le hbs).mp hcount.ge
  have hlt := hfits.mul_lt
  omega

theorem inodeReachable_new {blockSize id : ℕ} {isDentry : Bool} (hbs : 0 < blockSize)
    (hword : blockSize < 2 ^ 64) : InodeReachable
      ⟨IdPool.empty PoolLimits.libstdcxx.bufferMax, Inode.new blockSize id isDentry⟩ :=
  ⟨_, blockSize, id, isDentry, hbs, hword, by rw [IdPool.size_empty]; decide,
    Relation.ReflTransGen.refl⟩

/-- `read` takes the slice that was asked for, except at the end of a file whose last block is
full and where the end of the slice wraps around. -/
theorem read_slice_iff (h : InodeReachable v)
    (hc : v.Holds ver c) {length offset : ℕ}
    (hlength : length < 2 ^ 64) :
    v.self.read v.bufferPool ver length offset = .ok ((c.drop offset).take length) ↔
      length = 0 ∨ c.length < offset ∨
        offset + length < 2 ^ 64 ∧ ¬ (offset = c.length ∧ c.length % v.self.blockSize = 0) := by
  have horder := h.inOrder
  obtain ⟨list, hlist, rfl, hok⟩ := horder.exists_list hc.data
  have hbs := horder.ok.blockSize_pos
  have hbound := length_lt_of_listOk hbs hok
  obtain ⟨hlive, _, ⟨n, hs⟩, _⟩ := hok
  have hlen : (content v.bufferPool list).length = n := hs.length_flatten
  unfold Inode.read
  by_cases hzero : length = 0
  · subst hzero
    simp
  rw [if_neg hzero, hlist, hlen]
  simp only [hzero, false_or]
  constructor
  · intro hread
    by_contra hcon
    push Not at hcon
    obtain ⟨hle, hcon⟩ := hcon
    by_cases hwrap : offset + length < 2 ^ 64
    · obtain ⟨rfl, hmod⟩ := hcon hwrap
      rw [Bank.read_at_end hbs hlive hs hmod] at hread
      simp at hread
    · have hout := Bank.length_read_of_wrap hlive hlength (by omega) hbound (by omega) hread
      rw [List.length_take, List.length_drop] at hout
      omega
  · rintro (hbeyond | ⟨hwrap, hend⟩)
    · by_cases hwrap : offset + length < 2 ^ 64
      · exact Bank.read_eq hbs hlive hs hwrap (by omega)
      · rw [List.drop_eq_nil_of_le (by omega), List.take_nil]
        exact Bank.read_beyond hlive (by omega)
    · exact Bank.read_eq hbs hlive hs hwrap (by omega)

/-- A file of block size 2 that holds the bytes 1, 2, 3. -/
def sampleInode : InodeView :=
  Program.exec (InodeOp.run (.write [1, 2, 3] 0 true false)) (newFile 2)

theorem inodeReachable_sampleInode : InodeReachable sampleInode := by
  refine ⟨IdPool.empty PoolLimits.libstdcxx.bufferMax, 2, 0, false, by decide, by decide,
    by rw [IdPool.size_empty]; decide, Relation.ReflTransGen.single (Or.inl ?_)⟩
  exact InodeStep.of_outcome (by simp [InodeOp.Is64Bit]) trivial (by decide +kernel)

theorem holds_sampleInode : sampleInode.Holds curModifiableVer [1, 2, 3] :=
  inodeReachable_sampleInode.holds_of_toString (by decide +kernel)

theorem read_slice_iff_sample : sampleInode.self.read sampleInode.bufferPool curModifiableVer 2 1 =
    .ok [2, 3] :=
  (read_slice_iff inodeReachable_sampleInode holds_sampleInode (by decide)).mpr (by decide +kernel)

/-- An empty file has no block to read nothing from. -/
theorem not_read_slice : ¬ ∀ (v : InodeView) ver c length offset, InodeReachable v →
    v.self.toString v.bufferPool ver = .ok c → length < 2 ^ 64 → offset < 2 ^ 64 →
    v.self.read v.bufferPool ver length offset = .ok ((c.drop offset).take length) := by
  intro h
  have hread := h (newFile 1) curModifiableVer [] 1 0
    (inodeReachable_new (by decide) (by decide)) (by decide +kernel) (by decide) (by decide)
  have hfails : (newFile 1).self.read (newFile 1).bufferPool curModifiableVer 1 0 =
      .error .outOfRange := by decide +kernel
  rw [hfails] at hread
  simp at hread

/-! ## `write` -/

variable {buffer : Bytes} {offset : ℕ} {dentryOnly : Bool}

theorem holds_rewrote {f : Bytes → Bytes} {touched : ℕ → Prop} {v' : InodeView}
    (h : Rewrote v f touched v') (hc : v.self.data v.bufferPool curModifiableVer = some c) :
    v'.Holds curModifiableVer (f c) := by
  have horder : InOrder v' := ⟨h.ok, h.small⟩
  rw [horder.holds_iff, h.data, if_pos rfl, hc]
  rfl

theorem writeCount_in_place : Bank.writeCount buffer offset false c =
    if c.length ≤ offset then 0 else min buffer.length (c.length - offset) := by
  simp only [Bank.writeCount, Bool.false_eq_true, if_false]
  split_ifs <;> omega

theorem writeBytes_in_place : Bank.writeBytes buffer offset false c =
    Blocks.overwrite offset (buffer.take
      (if c.length ≤ offset then 0 else min buffer.length (c.length - offset))) c := by
  simp only [Bank.writeBytes, Bool.false_eq_true, if_false]
  split_ifs with hempty hle hbeyond hle' hle''
  · rw [List.take_zero, Blocks.overwrite_nil]
  · rw [List.length_eq_zero_iff.mp hempty, List.take_nil, Blocks.overwrite_nil]
  · rw [List.take_zero, Blocks.overwrite_nil]
  · omega
  · rw [show c.length - offset = 0 by omega]
  · congr 1
    rw [List.take_eq_take_iff]
    omega

/-- `write` without `resize` overwrites what exists and nothing else, except at the end of a file
whose last block is full. -/
theorem write_in_place_iff (h : InodeReachable v) (hfile : v.self.isDentry = false)
    (hc : v.Holds curModifiableVer c) (hwrap : offset + buffer.length < 2 ^ 64) :
    Ends (Inode.write buffer offset false dentryOnly) v
        (fun n v' => n = (if c.length ≤ offset then 0 else min buffer.length (c.length - offset)) ∧
          v'.Holds curModifiableVer (Blocks.overwrite offset (buffer.take n) c) ∧
          (Blocks.overwrite offset (buffer.take n) c).length = c.length)
        (fun e _ => e = .badAlloc) ↔
      ¬ (buffer ≠ [] ∧ offset = c.length ∧ c.length % v.self.blockSize = 0) := by
  have horder := h.inOrder
  have hdata := hc.data
  have hguard : (v.self.isDentry && !dentryOnly) = false := by simp [hfile]
  constructor
  · rintro hends ⟨hne, hoffset, hmod⟩
    have hend : Bank.AtBlockEnd v.self.blockSize buffer offset false c :=
      ⟨by simpa using hne, rfl, hoffset, hmod⟩
    have hthrows := horder.ok.ends_write_atBlockEnd horder.small hwrap hguard hdata hend
    have hboth := hends.and hthrows
    unfold Ends at hboth
    split at hboth
    · exact hboth.2
    · obtain ⟨rfl, hne⟩ := hboth
      simp at hne
  · intro hinside
    refine (horder.ok.ends_write horder.small hwrap hdata).mono ?_ ?_
    · rintro n v' ⟨rfl, _, hrewrote⟩
      rw [writeCount_in_place]
      refine ⟨rfl, ?_, ?_⟩
      · rw [← writeBytes_in_place]
        exact holds_rewrote hrewrote hdata
      · split_ifs with hle
        · rw [List.take_zero, Blocks.overwrite_nil]
        · rw [Blocks.length_overwrite]
          rw [List.length_take]
          omega
    · rintro e v' (he | ⟨_, ⟨hdir, _⟩ | ⟨_, hne, _, hend⟩⟩)
      · exact he
      · simp [hfile] at hdir
      · exact absurd ⟨by simpa using hne, hend⟩ hinside

theorem write_in_place_iff_sample :
    Ends (Inode.write [9, 9, 9] 1 false false) sampleInode
      (fun n v' => n = 2 ∧ v'.Holds curModifiableVer [1, 9, 9]) (fun e _ => e = .badAlloc) := by
  refine ((write_in_place_iff (v := sampleInode) inodeReachable_sampleInode (by decide +kernel)
    holds_sampleInode (by decide)).mpr (by decide +kernel)).mono ?_ fun _ _ he => he
  rintro n v' ⟨rfl, hbytes, _⟩
  exact ⟨rfl, hbytes⟩

/-- A write to an empty file asks for a block that is not there. -/
theorem not_write_in_place : ¬ ∀ (v : InodeView) c buffer offset, InodeReachable v →
    v.self.isDentry = false → v.self.toString v.bufferPool curModifiableVer = .ok c →
    offset + buffer.length < 2 ^ 64 →
    Ends (Inode.write buffer offset false false) v
      (fun n v' => n = (if c.length ≤ offset then 0 else min buffer.length (c.length - offset)) ∧
        v'.self.toString v'.bufferPool curModifiableVer =
          .ok (Blocks.overwrite offset (buffer.take n) c))
      (fun e _ => e = .badAlloc) := by
  intro h
  have hends := h (newFile 1) [] [1] 0 (inodeReachable_new (by decide) (by decide)) rfl
    (by decide +kernel) (by decide)
  have hbad := hends.outcome_error (e := .outOfRange) (by decide +kernel)
  simp at hbad

/-- `write` with `resize` leaves what was before the offset, and then the buffer. -/
theorem write_resizing (h : InodeReachable v)
    (hc : v.Holds curModifiableVer c) (hne : buffer ≠ [])
    (hwrap : offset + buffer.length < 2 ^ 64)
    (hadmitted : v.self.isDentry = true → dentryOnly = true) :
    Ends (Inode.write buffer offset true dentryOnly) v
      (fun n v' => n = buffer.length ∧
        v'.Holds curModifiableVer (Blocks.resize 0 offset c ++ buffer))
      (fun e _ => e = .badAlloc) := by
  have horder := h.inOrder
  have hdata := hc.data
  have hpos : buffer.length ≠ 0 := by simpa using hne
  refine (horder.ok.ends_write horder.small hwrap hdata).mono ?_ ?_
  · rintro n v' ⟨hn, _, hrewrote⟩
    simp only [Bank.writeCount, if_neg hpos, if_true] at hn
    refine ⟨hn, ?_⟩
    have hbytes := holds_rewrote hrewrote hdata
    simpa only [Bank.writeBytes, if_neg hpos, if_true, Blocks.overwrite_resize] using hbytes
  · rintro e v' (he | ⟨_, ⟨hdir, _⟩ | ⟨_, _, hresize, _⟩⟩)
    · exact he
    · cases hd : v.self.isDentry <;> simp_all
    · exact absurd hresize.symm Bool.false_ne_true

theorem write_resizing_sample :
    Ends (Inode.write [9] 4 true false) sampleInode
      (fun n v' => n = 1 ∧ v'.Holds curModifiableVer [1, 2, 3, 0, 9]) (fun e _ => e = .badAlloc) :=
  write_resizing (v := sampleInode) inodeReachable_sampleInode holds_sampleInode (by decide)
    (by decide) (by decide +kernel)

/-! ## `truncate` -/

/-- `truncate` cuts the current bytes or extends them with zeros, and leaves the snapshots alone. -/
theorem truncate_resizes (h : InodeReachable v)
    (hc : v.Holds curModifiableVer c) (n : ℕ) :
    Ends (Inode.truncate n) v
      (fun _ v' => v'.Holds curModifiableVer (c.take n ++ List.replicate (n - c.length) 0) ∧
        ∀ ver ≠ curModifiableVer,
          v'.self.toString v'.bufferPool ver = v.self.toString v.bufferPool ver ∧
            ∀ c, v'.Holds ver c ↔ v.Holds ver c)
      (fun e _ => e = .badAlloc) := by
  have horder := h.inOrder
  refine (horder.ok.ends_truncate horder.small).mono ?_ fun _ _ he => he
  intro _ v' hrewrote
  have horder' : InOrder v' := ⟨hrewrote.ok, hrewrote.small⟩
  have hbytes := holds_rewrote hrewrote hc.data
  refine ⟨hbytes, fun ver hver => ?_⟩
  rw [hrewrote.ok.toString_eq, horder.ok.toString_eq, hrewrote.frame.blockSize]
  simp only [horder.holds_iff, horder'.holds_iff, hrewrote.data, if_neg hver, implies_true, and_self]

theorem truncate_resizes_sample :
    Ends (Inode.truncate 5) sampleInode
      (fun _ v' => v'.Holds curModifiableVer [1, 2, 3, 0, 0] ∧
        ∀ ver ≠ curModifiableVer,
          v'.self.toString v'.bufferPool ver =
              sampleInode.self.toString sampleInode.bufferPool ver ∧
            ∀ c, v'.Holds ver c ↔ sampleInode.Holds ver c)
      (fun e _ => e = .badAlloc) :=
  truncate_resizes (v := sampleInode) inodeReachable_sampleInode holds_sampleInode 5

/-! ## The blocks of a version -/

/-- The blocks of a version are full, but for the last, which is not empty, and there are as many
as its size asks for. -/
structure InodeView.Filled (v : InodeView) (ver : SnapshotVer) (list : List BufferResult)
    (blocks : List Bytes) : Prop where
  read : List.Forall₂ (fun r x => Bank.deref v.bufferPool r = .ok x) list blocks
  size : v.self.currentDataSize v.bufferPool ver = .ok blocks.flatten.length
  count : list.length = (blocks.flatten.length + v.self.blockSize - 1) / v.self.blockSize
  full : ∀ j x, blocks[j]? = some x → j + 1 < blocks.length → x.length = v.self.blockSize
  last : ∀ x, blocks.getLast? = some x → 1 ≤ x.length ∧ x.length ≤ v.self.blockSize

theorem InOrder.filled (h : InOrder v) {list : List BufferResult}
    (hlist : v.self.bufferMap[ver]? = some list) :
    v.Filled ver list (blockTexts v.bufferPool list) := by
  have hbs := h.ok.blockSize_pos
  have hdata : v.self.data v.bufferPool ver = some (content v.bufferPool list) := by
    rw [Inode.data, hlist]
    rfl
  obtain ⟨hlive, _, ⟨n, hs⟩, _⟩ := h.ok.list ver list hlist
  have hn : (blockTexts v.bufferPool list).flatten.length = n := hs.length_flatten
  have hcount := hs.length hbs
  refine { read := ?_, size := ?_, count := ?_, full := fun j x hx hj => ?_,
           last := fun x hx => ?_ }
  · exact List.forall₂_map_right_iff.mpr (List.forall₂_same.mpr fun r hr => (hlive r hr).deref)
  · rw [h.ok.currentDataSize_eq, hdata]
    rfl
  · rw [hn, ← Blocks.blockCount_eq_div hbs, ← hcount, length_blockTexts]
  · -- the next block starts inside the file
    have hnext := (Blocks.lt_blockCount hbs).mp (hcount ▸ hj)
    rw [hs.length_block hbs hx, Nat.min_eq_left]
    rw [Nat.succ_mul] at hnext
    omega
  · rw [List.getLast?_eq_getElem?] at hx
    have hlt := (List.getElem?_eq_some_iff.mp hx).1
    rw [hs.length_block hbs hx]
    have hinside := (Blocks.lt_blockCount hbs).mp (lt_of_lt_of_eq hlt hcount)
    omega

/-- The blocks of every version are filled, and put together they are what `to_string` gives,
unless there is a block and its size and a terminator wrap around. -/
theorem blocks_filled_iff (h : InodeReachable v) {list : List BufferResult}
    (hlist : v.self.bufferMap[ver]? = some list) :
    (∃ blocks, v.Filled ver list blocks) ∧
      ((∃ blocks, v.Filled ver list blocks ∧
          v.self.toString v.bufferPool ver = .ok blocks.flatten) ↔
        list = [] ∨ v.self.blockSize + 1 < 2 ^ 64) := by
  have horder := h.inOrder
  have hfilled := horder.filled hlist
  have hdata : v.self.data v.bufferPool ver = some (content v.bufferPool list) := by
    rw [Inode.data, hlist]
    rfl
  have hword := horder.ok.blockSize_lt
  -- a list with a block has bytes
  have hnil : content v.bufferPool list = [] ↔ list = [] := by
    constructor
    · intro hempty
      have hcount := hfilled.count
      rw [show (blockTexts v.bufferPool list).flatten = [] from hempty, List.length_nil,
        Nat.zero_add, Nat.div_eq_of_lt (Nat.sub_one_lt horder.ok.blockSize_pos.ne')] at hcount
      exact List.length_eq_zero_iff.mp hcount
    · rintro rfl
      rfl
  refine ⟨⟨_, hfilled⟩, ?_⟩
  constructor
  · rintro ⟨blocks, _, hbytes⟩
    obtain ⟨hflat, hread⟩ := horder.toString_eq_ok.mp hbytes
    by_contra hnot
    push Not at hnot
    refine hread ⟨?_, by omega⟩
    rw [← Option.some.inj (hdata.symm.trans hflat)]
    exact fun hempty => hnot.1 (hnil.mp hempty)
  · intro hcond
    refine ⟨_, hfilled, horder.toString_eq_ok.mpr ⟨hdata, fun hwrap => ?_⟩⟩
    rcases hcond with hempty | hlt
    · exact hwrap.1 (hnil.mpr hempty)
    · omega

theorem blocks_filled_iff_sample : ∃ blocks : List Bytes,
    sampleInode.self.toString sampleInode.bufferPool curModifiableVer = .ok blocks.flatten ∧
      ∀ x, blocks.getLast? = some x → 1 ≤ x.length := by
  have hsome : (sampleInode.self.bufferMap[curModifiableVer]?).isSome := by decide +kernel
  obtain ⟨list, hlist⟩ := Option.isSome_iff_exists.mp hsome
  obtain ⟨blocks, hfilled, hbytes⟩ := (blocks_filled_iff inodeReachable_sampleInode hlist).2.mpr
    (Or.inr (by decide +kernel))
  exact ⟨blocks, hbytes, fun x hx => (hfilled.last x hx).1⟩

/-- One byte in a block of the largest size cannot be read back. -/
theorem not_blocks_filled : ¬ ∀ (v : InodeView) ver list, InodeReachable v →
    v.self.bufferMap[ver]? = some list →
    ∃ blocks, v.Filled ver list blocks ∧
      v.self.toString v.bufferPool ver = .ok blocks.flatten := by
  intro h
  have hreach : InodeReachable
      (Program.exec (InodeOp.run (.write [1] 0 true false)) (newFile (2 ^ 64 - 1))) := by
    refine ⟨IdPool.empty PoolLimits.libstdcxx.bufferMax, 2 ^ 64 - 1, 0, false, by decide,
      by decide, by rw [IdPool.size_empty]; decide, Relation.ReflTransGen.single (Or.inl ?_)⟩
    exact InodeStep.of_outcome (by simp [InodeOp.Is64Bit]) trivial (by decide +kernel)
  obtain ⟨list, hlist⟩ := hreach.inOrder.ok.current
  obtain ⟨blocks, _, hbytes⟩ := h _ _ list hreach hlist
  have hthrows : (Program.exec (InodeOp.run (.write [1] 0 true false))
      (newFile (2 ^ 64 - 1))).self.toString (Program.exec (InodeOp.run (.write [1] 0 true false))
        (newFile (2 ^ 64 - 1))).bufferPool curModifiableVer =
      .error (.htmpfs .bufferShortOps) := by decide +kernel
  rw [hthrows] at hbytes
  simp at hbytes

end Data

end Htmpfs
