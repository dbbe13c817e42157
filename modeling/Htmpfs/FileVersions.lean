import Mathlib
import Htmpfs.InodeRuns
import Htmpfs.Library.Simulation

/-!
# An inode is a map from versions to bytes

The methods of an inode, with what they return, called in any order while other
inodes use the same buffer pool.  Block lists, frozen blocks and the link counts
of the pool cannot be told from a map that gives each version its bytes: a new
volume is a copy of the current version, and a write whose end does not wrap
around changes the current version only.
-/

namespace Htmpfs

open Program (Ends Trace)

/-! ## Reads whose end wraps around -/

namespace Bank

variable {pool : IdPool Buffer} {list : List BufferResult} {bs i l r count length offset : ℕ}
  {out : Bytes}

theorem lt_of_readAt (h : readAt pool list i l r = .ok out) : i < list.length := by
  unfold readAt at h
  obtain ⟨entry, hentry, _⟩ := Program.bind_eq_ok.mp h
  by_contra hmissing
  unfold blockAt at hentry
  rw [List.getElem?_eq_none_iff.mpr (Nat.le_of_not_lt hmissing)] at hentry
  exact absurd hentry Program.throw_ne_ok

theorem le_of_readFull (h : readFull pool list bs i count = .ok out) (hi : i ≤ list.length) :
    i + count ≤ list.length := by
  induction count generalizing i out with
  | zero => exact hi
  | succ count ih =>
      obtain ⟨first, hfirst, h⟩ := Program.bind_eq_ok.mp h
      obtain ⟨rest, hrest, _⟩ := Program.bind_eq_ok.mp h
      have hnext := ih hrest (lt_of_readAt hfirst)
      omega

/-- A read whose end wraps around returns only where it has nothing to read. -/
theorem read_ne_ok_of_wrap (hbs : 0 < bs) (hlive : ∀ r ∈ list, Live pool r)
    (hfits : list.length * bs + 1 < 2 ^ 64) (hlength : length < 2 ^ 64)
    (hoffset : offset ≤ (content pool list).length)
    (hbound : (content pool list).length < 2 ^ 64) (hwrap : 2 ^ 64 ≤ offset + length) :
    read pool list bs length offset ≠ .ok out := by
  intro h
  have hu : u64 (offset + length) = offset + length - 2 ^ 64 := by
    unfold u64
    rw [Nat.mod_eq_sub_mod hwrap, Nat.mod_eq_of_lt (by omega)]
  have hsize : (if offset + length - 2 ^ 64 > (content pool list).length then
      (content pool list).length - offset else length) = length := if_neg (by omega)
  unfold read at h
  obtain ⟨size, hdata, h⟩ := Program.bind_eq_ok.mp h
  rw [dataSize_eq hlive] at hdata
  obtain rfl := Except.ok.inj hdata
  rw [if_neg (by omega), hu, hsize] at h
  have hr := Nat.mod_lt offset hbs
  have hdm := Nat.div_add_mod' offset bs
  obtain ⟨first, hfirst, h⟩ := Program.bind_eq_ok.mp h
  obtain ⟨full, hfull, h⟩ := Program.bind_eq_ok.mp h
  have hstart := lt_of_readAt hfirst
  have hstop := le_of_readFull hfull hstart
  -- the blocks that were read lie in the list, and the list can be counted
  have hcount : ∀ k ≤ list.length, k * bs + 1 < 2 ^ 64 := fun k hk =>
    lt_of_le_of_lt (Nat.add_le_add_right (Nat.mul_le_mul_right bs hk) 1) hfits
  have hfirstBlock := hcount (offset / bs + 1) hstart
  rw [Nat.add_mul, Nat.one_mul] at hfirstBlock
  have hw : (if bs - offset % bs ≥ length then length else bs - offset % bs) = bs - offset % bs :=
    if_neg (by omega)
  rw [hw] at hstop h
  have hquot := Nat.div_add_mod' (length - (bs - offset % bs)) bs
  have hnext := hcount _ hstop
  rw [Nat.add_mul, Nat.add_mul, Nat.one_mul] at hnext
  split_ifs at h with hzero
  · omega
  · obtain ⟨last, hlast, _⟩ := Program.bind_eq_ok.mp h
    have hlastBlock := hcount (offset / bs + (length - (bs - offset % bs)) / bs + 1 + 1)
      (lt_of_readAt hlast)
    rw [Nat.add_mul, Nat.add_mul, Nat.add_mul, Nat.one_mul] at hlastBlock
    have hrest := Nat.mod_lt (length - (bs - offset % bs)) hbs
    omega

end Bank

/-! ## The calls -/

/-- A method of an inode with its arguments, by what it returns. -/
inductive InodeCall : Type → Type
  | write (buffer : Bytes) (offset : ℕ) (resize dentryOnly : Bool) : InodeCall ℕ
  | truncate (length : ℕ) : InodeCall Unit
  | createNewVolume (ver : SnapshotVer) : InodeCall Unit
  | deleteVolume (ver : SnapshotVer) : InodeCall Unit
  | read (ver : SnapshotVer) (length offset : ℕ) : InodeCall Bytes
  | toString (ver : SnapshotVer) : InodeCall Bytes
  | currentDataSize (ver : SnapshotVer) : InodeCall ℕ

namespace InodeCall

variable {α : Type}

def run : {α : Type} → InodeCall α → InodeM α
  | _, write buffer offset resize dentryOnly => Inode.write buffer offset resize dentryOnly
  | _, truncate length => Inode.truncate length
  | _, createNewVolume ver => Inode.createNewVolume ver
  | _, deleteVolume ver => Inode.deleteVolume ver
  | _, read ver length offset =>
      Program.reads fun v => v.self.read v.bufferPool ver length offset
  | _, toString ver => Program.reads fun v => v.self.toString v.bufferPool ver
  | _, currentDataSize ver => Program.reads fun v => v.self.currentDataSize v.bufferPool ver

/-- The arguments are 64-bit numbers, and so are the sizes of what they point to. -/
def Is64Bit : InodeCall α → Prop
  | write buffer offset _ _ => buffer.length < 2 ^ 64 ∧ offset < 2 ^ 64
  | read _ length offset => length < 2 ^ 64 ∧ offset < 2 ^ 64
  | truncate length => length < 2 ^ 64
  | _ => True

/-- The end of what is to be written is a 64-bit number too. -/
def Fits : InodeCall α → Prop
  | write buffer offset _ _ => offset + buffer.length < 2 ^ 64
  | _ => True

end InodeCall

/-- A call, and what it returned or threw. -/
structure InodeEvent where
  {α : Type}
  call : InodeCall α
  result : Except Exit α

/-- A call on the inode that returned or threw, or some work of another owner of blocks. -/
inductive InodeCalled (v : InodeView) : Option InodeEvent → InodeView → Prop
  | called {α : Type} {call : InodeCall α} {result : Except Exit α} (hargs : call.Is64Bit)
      (hresult : Program.outcome call.run v = result)
      (hcaught : ∀ e, result = .error e → e.Thrown) :
      InodeCalled v (some ⟨call, result⟩) (Program.exec call.run v)
  | others {v' : InodeView} (h : Interferes v v') : InodeCalled v none v'

/-! ## The map -/

/-- The bytes of each version. -/
abbrev FileVersions := SnapshotVer → Option Bytes

/-- A new file has one version, which is empty. -/
def FileVersions.new : FileVersions :=
  Function.update (fun _ => none) curModifiableVer (some [])

/-- A read of some bytes finds a block at each place that it asks for. -/
def ReadsSlice (blockSize : ℕ) (c : Bytes) (length offset : ℕ) : Prop :=
  c.length < offset ∨ offset + length < 2 ^ 64 ∧ ¬ (offset = c.length ∧ c.length % blockSize = 0)

/-- What a call may do to the map, and what it returns or throws then. -/
inductive FileStep (blockSize : ℕ) (isDentry : Bool) (files : FileVersions) :
    {α : Type} → InodeCall α → Except Exit α → FileVersions → Prop
  | written {buffer c : Bytes} {offset : ℕ} {resize dentryOnly : Bool}
      (hadmitted : (isDentry && !dentryOnly) = false) (hc : files curModifiableVer = some c)
      (hwrap : offset + buffer.length < 2 ^ 64)
      (hend : ¬ Bank.AtBlockEnd blockSize buffer offset resize c) :
      FileStep blockSize isDentry files (.write buffer offset resize dentryOnly)
        (.ok (Bank.writeCount buffer offset resize c))
        (Function.update files curModifiableVer (some (Bank.writeBytes buffer offset resize c)))
  | refused {buffer : Bytes} {offset : ℕ} {resize dentryOnly : Bool}
      (hrefused : (isDentry && !dentryOnly) = true) :
      FileStep blockSize isDentry files (.write buffer offset resize dentryOnly)
        (.error (.htmpfs .invalidWriteInvoke)) files
  | writtenAtEnd {buffer c : Bytes} {offset : ℕ} {resize dentryOnly : Bool}
      (hc : files curModifiableVer = some c)
      (hend : Bank.AtBlockEnd blockSize buffer offset resize c) :
      FileStep blockSize isDentry files (.write buffer offset resize dentryOnly)
        (.error .outOfRange) files
  | wrapped {buffer : Bytes} {offset : ℕ} {resize dentryOnly : Bool} {result : Except Exit ℕ}
      {files' : FileVersions} (hwrap : 2 ^ 64 ≤ offset + buffer.length)
      (hkeys : ∀ ver, (files' ver).isSome = (files ver).isSome) :
      FileStep blockSize isDentry files (.write buffer offset resize dentryOnly) result files'
  | truncated {length : ℕ} {c : Bytes} (hc : files curModifiableVer = some c) :
      FileStep blockSize isDentry files (.truncate length) (.ok ())
        (Function.update files curModifiableVer (some (Blocks.resize 0 length c)))
  | created {ver : SnapshotVer} (hnew : files ver = none) :
      FileStep blockSize isDentry files (.createNewVolume ver) (.ok ())
        (Function.update files ver (files curModifiableVer))
  | notCreated {ver : SnapshotVer} (hold : files ver ≠ none) :
      FileStep blockSize isDentry files (.createNewVolume ver)
        (.error (.htmpfs .doubleSnapshot)) files
  | deleted {ver : SnapshotVer} (hver : ver ≠ curModifiableVer) (hold : files ver ≠ none) :
      FileStep blockSize isDentry files (.deleteVolume ver) (.ok ())
        (Function.update files ver none)
  | notDeleted {ver : SnapshotVer} (hver : ver = curModifiableVer ∨ files ver = none) :
      FileStep blockSize isDentry files (.deleteVolume ver)
        (.error (.htmpfs .noSuchSnapshot)) files
  | readNothing {ver : SnapshotVer} {offset : ℕ} :
      FileStep blockSize isDentry files (.read ver 0 offset) (.ok []) files
  | read {ver : SnapshotVer} {length offset : ℕ} {c : Bytes} (hc : files ver = some c)
      (hslice : ReadsSlice blockSize c length offset) :
      FileStep blockSize isDentry files (.read ver length offset)
        (.ok ((c.drop offset).take length)) files
  | notRead {ver : SnapshotVer} {length offset : ℕ} {c : Bytes} {e : Exit}
      (hc : files ver = some c) (hlength : length ≠ 0)
      (hslice : ¬ ReadsSlice blockSize c length offset) :
      FileStep blockSize isDentry files (.read ver length offset) (.error e) files
  | readMissing {ver : SnapshotVer} {length offset : ℕ} (hc : files ver = none)
      (hlength : length ≠ 0) :
      FileStep blockSize isDentry files (.read ver length offset)
        (.error (.htmpfs .noSuchSnapshot)) files
  | toString {ver : SnapshotVer} {c : Bytes} (hc : files ver = some c) :
      FileStep blockSize isDentry files (.toString ver) (.ok c) files
  | toStringMissing {ver : SnapshotVer} (hc : files ver = none) :
      FileStep blockSize isDentry files (.toString ver) (.error (.htmpfs .noSuchSnapshot)) files
  | currentDataSize {ver : SnapshotVer} {c : Bytes} (hc : files ver = some c) :
      FileStep blockSize isDentry files (.currentDataSize ver) (.ok c.length) files
  | currentDataSizeMissing {ver : SnapshotVer} (hc : files ver = none) :
      FileStep blockSize isDentry files (.currentDataSize ver)
        (.error (.htmpfs .noSuchSnapshot)) files

/-- A call, or nothing. -/
inductive VersionsStep (blockSize : ℕ) (isDentry : Bool) (files : FileVersions) :
    Option InodeEvent → FileVersions → Prop
  | called {l : InodeEvent} {files' : FileVersions}
      (h : FileStep blockSize isDentry files l.call l.result files') :
      VersionsStep blockSize isDentry files (some l) files'
  | others : VersionsStep blockSize isDentry files none files

/-- The map that an inode stands for. -/
def InodeView.versions (v : InodeView) : FileVersions := v.self.data v.bufferPool

/-! ## One call -/

/-- What stays as it is between the calls. -/
structure Follows (v v' : InodeView) : Prop where
  inOrder : InOrder v'
  blockSize : v'.self.blockSize = v.self.blockSize
  isDentry : v'.self.isDentry = v.self.isDentry

/-- A call did to the inode what it may do to the map. -/
def Meets {α : Type} (v : InodeView) (call : InodeCall α) (result : Except Exit α)
    (v' : InodeView) : Prop :=
  Follows v v' ∧ FileStep v.self.blockSize v.self.isDentry v.versions call result v'.versions

section Calls

variable {v v' : InodeView} {α : Type}

theorem Follows.of_frame (h : Frame v v') (horder : InOrder v') : Follows v v' :=
  ⟨horder, h.blockSize, h.isDentry⟩

theorem InOrder.follows (h : InOrder v) : Follows v v := ⟨h, rfl, rfl⟩

theorem Rewrote.versions {f : Bytes → Bytes} {touched : ℕ → Prop} (h : Rewrote v f touched v')
    {c : Bytes} (hc : v.versions curModifiableVer = some c) :
    v'.versions = Function.update v.versions curModifiableVer (some (f c)) := by
  funext ver
  rw [InodeView.versions, h.data, Function.update_apply]
  split_ifs with hver
  · rw [hver, ← InodeView.versions, hc, Option.map_some]
  · rfl

theorem Reworked.follows {touched : ℕ → Prop} (h : Reworked v touched v') : Follows v v' :=
  Follows.of_frame h.frame ⟨h.ok, h.small⟩

theorem Rewrote.follows {f : Bytes → Bytes} {touched : ℕ → Prop} (h : Rewrote v f touched v') :
    Follows v v' :=
  Follows.of_frame h.frame ⟨h.ok, h.small⟩

theorem InOrder.ends_write_call (h : InOrder v) {buffer : Bytes} {offset : ℕ}
    {resize dentryOnly : Bool} (hargs : buffer.length < 2 ^ 64 ∧ offset < 2 ^ 64) :
    Ends (Inode.write buffer offset resize dentryOnly) v
      (fun n v' => Meets v (.write buffer offset resize dentryOnly) (.ok n) v')
      (fun e v' => e = .badAlloc ∨ (offset + buffer.length < 2 ^ 64 → e.Thrown) ∧
        Meets v (.write buffer offset resize dentryOnly) (.error e) v') := by
  obtain ⟨c, hc⟩ := h.data_current
  by_cases hwrap : offset + buffer.length < 2 ^ 64
  · by_cases hend : (v.self.isDentry && !dentryOnly) = false ∧
        Bank.AtBlockEnd v.self.blockSize buffer offset resize c
    · obtain ⟨hadmitted, hatEnd⟩ := hend
      obtain ⟨_, rfl, _⟩ := id hatEnd
      have hthrows := h.ok.ends_write_atBlockEnd h.small hwrap hadmitted hc hatEnd
      refine ((h.ok.ends_write h.small hwrap hc).and hthrows).mono ?_ ?_
      · exact fun _ _ hboth => hboth.2.elim
      · rintro e v' ⟨he | ⟨rfl, _⟩, rfl⟩
        · exact Or.inl he
        · exact Or.inr ⟨fun _ => Exit.thrown_outOfRange, h.follows,
            FileStep.writtenAtEnd hc hatEnd⟩
    · refine (h.ok.ends_write h.small hwrap hc).mono ?_ ?_
      · rintro n v' ⟨rfl, hadmitted, hrewrote⟩
        refine ⟨hrewrote.follows, ?_⟩
        rw [hrewrote.versions hc]
        exact FileStep.written hadmitted hc hwrap fun hatEnd => hend ⟨hadmitted, hatEnd⟩
      · rintro e v' (he | ⟨rfl, ⟨hrefused, rfl⟩ | ⟨rfl, hatEnd⟩⟩)
        · exact Or.inl he
        · exact Or.inr ⟨fun _ => Exit.thrown_htmpfs _, h.follows, FileStep.refused hrefused⟩
        · exact Or.inr ⟨fun _ => Exit.thrown_outOfRange, h.follows, FileStep.writtenAtEnd hc hatEnd⟩
  · rw [Nat.not_lt] at hwrap
    refine (h.ok.ends_write_any h.small hargs.2 hargs.1 hc).mono ?_ ?_
    · rintro n v' ⟨_, hreworked⟩
      exact ⟨hreworked.follows, FileStep.wrapped hwrap hreworked.isSome_data⟩
    · rintro e v' (he | ⟨_, rfl | ⟨_, hreworked⟩⟩)
      · exact Or.inl he
      · exact Or.inr ⟨fun hfits => by omega, h.follows, FileStep.wrapped hwrap fun _ => rfl⟩
      · exact Or.inr ⟨fun hfits => by omega, hreworked.follows,
          FileStep.wrapped hwrap hreworked.isSome_data⟩

theorem InOrder.ends_truncate_call (h : InOrder v) {length : ℕ} :
    Ends (Inode.truncate length) v (fun a v' => Meets v (.truncate length) (.ok a) v')
      (fun e _ => e = .badAlloc) := by
  obtain ⟨c, hc⟩ := h.data_current
  refine (h.ok.ends_truncate h.small).mono ?_ fun _ _ he => he
  intro _ v' hrewrote
  refine ⟨hrewrote.follows, ?_⟩
  rw [hrewrote.versions hc]
  exact FileStep.truncated hc

theorem InOrder.ends_createNewVolume_call (h : InOrder v) {ver : SnapshotVer} :
    Ends (Inode.createNewVolume ver) v
      (fun a v' => Meets v (.createNewVolume ver) (.ok a) v')
      (fun e v' => e.Thrown ∧ Meets v (.createNewVolume ver) (.error e) v') := by
  refine h.ok.ends_createNewVolume.mono ?_ ?_
  · rintro _ v' ⟨hnew, hvolumed⟩
    have hversions : v'.versions =
        Function.update v.versions ver (v.versions curModifiableVer) := by
      funext ver'
      rw [InodeView.versions, hvolumed.data, Function.update_apply]
      rfl
    have hdid : (InodeOp.createNewVolume ver).Did v v' := InodeOp.Did.volumed hvolumed
    refine ⟨Follows.of_frame hvolumed.frame (hdid.inOrder h), ?_⟩
    rw [hversions]
    exact FileStep.created hnew
  · rintro e v' ⟨rfl, rfl, hold⟩
    exact ⟨Exit.thrown_htmpfs _, h.follows, FileStep.notCreated hold⟩

theorem InOrder.ends_deleteVolume_call (h : InOrder v) {ver : SnapshotVer} :
    Ends (Inode.deleteVolume ver) v
      (fun a v' => Meets v (.deleteVolume ver) (.ok a) v')
      (fun e v' => e.Thrown ∧ Meets v (.deleteVolume ver) (.error e) v') := by
  refine h.ok.ends_deleteVolume.mono ?_ ?_
  · rintro _ v' ⟨hver, hunvolumed⟩
    have hversions : v'.versions = Function.update v.versions ver none := by
      funext ver'
      rw [InodeView.versions, hunvolumed.data, Function.update_apply]
      rfl
    have hold : v.versions ver ≠ none := by
      obtain ⟨list, hlist, _⟩ := hunvolumed.bank
      simp [InodeView.versions, Inode.data, hlist]
    have hdid : (InodeOp.deleteVolume ver).Did v v' := InodeOp.Did.unvolumed hver hunvolumed
    refine ⟨Follows.of_frame hunvolumed.frame (hdid.inOrder h), ?_⟩
    rw [hversions]
    exact FileStep.deleted hver hold
  · rintro e v' ⟨rfl, rfl, hver⟩
    exact ⟨Exit.thrown_htmpfs _, h.follows, FileStep.notDeleted hver⟩

theorem InOrder.ends_read_call (h : InOrder v) (hword : v.self.blockSize + 1 < 2 ^ 64)
    {ver : SnapshotVer} {length offset : ℕ} (hlength : length < 2 ^ 64) :
    Ends (InodeCall.run (.read ver length offset)) v
      (fun a v' => Meets v (.read ver length offset) (.ok a) v')
      (fun e v' => e.Thrown ∧ Meets v (.read ver length offset) (.error e) v') := by
  unfold InodeCall.run
  rw [Program.ends_reads]
  unfold Inode.read
  by_cases hzero : length = 0
  · subst hzero
    rw [if_pos rfl]
    refine ⟨fun out hout => ?_, fun e he => absurd he Program.pure_ne_error⟩
    obtain rfl := Program.pure_eq_ok.mp hout
    exact ⟨h.follows, FileStep.readNothing⟩
  rw [if_neg hzero]
  cases hlist : v.self.bufferMap[ver]? with
  | none =>
      have hc : v.versions ver = none := by
        rw [InodeView.versions, Inode.data, hlist]
        rfl
      refine ⟨fun out hout => absurd hout Program.throw_ne_ok, fun e he => ?_⟩
      obtain rfl := Program.throw_eq_error.mp he
      exact ⟨Exit.thrown_htmpfs _, h.follows, FileStep.readMissing hc hzero⟩
  | some list =>
      have hbs := h.ok.blockSize_pos
      obtain ⟨hlive, _, ⟨n, hs⟩, hfits⟩ := h.ok.list ver list hlist
      have hc : v.versions ver = some (content v.bufferPool list) := by
        rw [InodeView.versions, Inode.data, hlist]
        rfl
      have hlen : (content v.bufferPool list).length = n := hs.length_flatten
      dsimp only
      by_cases hslice : ReadsSlice v.self.blockSize (content v.bufferPool list) length offset
      · have hread : Bank.read v.bufferPool list v.self.blockSize length offset =
            .ok (((content v.bufferPool list).drop offset).take length) := by
          rcases hslice with hbeyond | ⟨hwrap, hend⟩
          · rw [List.drop_eq_nil_of_le hbeyond.le, List.take_nil]
            exact Bank.read_beyond hlive hbeyond
          · rw [hlen] at hend
            exact Bank.read_eq hbs hlive hs hwrap fun heq hmod => hend ⟨heq, hmod⟩
        rw [hread]
        refine ⟨fun out hout => ?_, fun e he => absurd he (by simp)⟩
        obtain rfl := Except.ok.inj hout
        exact ⟨h.follows, FileStep.read hc hslice⟩
      · refine ⟨fun out hout => ?_, fun e he => ⟨Bank.read_thrown hlive he, h.follows,
          FileStep.notRead hc hzero hslice⟩⟩
        unfold ReadsSlice at hslice
        push Not at hslice
        obtain ⟨hle, hslice⟩ := hslice
        by_cases hwrap : offset + length < 2 ^ 64
        · obtain ⟨rfl, hmod⟩ := hslice hwrap
          rw [hlen] at hmod hout
          rw [Bank.read_at_end hbs hlive hs hmod] at hout
          exact absurd hout (by simp)
        · have hcount := (Blocks.blockCount_le hbs).mp (hs.length hbs).ge
          rw [length_blockTexts] at hcount
          have hspace := hfits.resolve_right fun hone => hword.ne hone.2
          exact absurd hout (Bank.read_ne_ok_of_wrap hbs hlive hspace hlength hle (by omega)
            (Nat.le_of_not_lt hwrap))

theorem InOrder.ends_toString_call (h : InOrder v) (hword : v.self.blockSize + 1 < 2 ^ 64)
    {ver : SnapshotVer} :
    Ends (InodeCall.run (.toString ver)) v
      (fun a v' => Meets v (.toString ver) (.ok a) v')
      (fun e v' => e.Thrown ∧ Meets v (.toString ver) (.error e) v') := by
  unfold InodeCall.run
  rw [Program.ends_reads, h.ok.toString_eq]
  cases hc : v.self.data v.bufferPool ver with
  | none =>
      refine ⟨fun out hout => absurd hout (by simp), fun e he => ?_⟩
      obtain rfl := Except.error.inj he
      exact ⟨Exit.thrown_htmpfs _, h.follows, FileStep.toStringMissing hc⟩
  | some c =>
      dsimp only
      rw [if_neg fun hwrap => hword.ne hwrap.2]
      refine ⟨fun out hout => ?_, fun e he => absurd he (by simp)⟩
      obtain rfl := Except.ok.inj hout
      exact ⟨h.follows, FileStep.toString hc⟩

theorem InOrder.ends_currentDataSize_call (h : InOrder v) {ver : SnapshotVer} :
    Ends (InodeCall.run (.currentDataSize ver)) v
      (fun a v' => Meets v (.currentDataSize ver) (.ok a) v')
      (fun e v' => e.Thrown ∧ Meets v (.currentDataSize ver) (.error e) v') := by
  unfold InodeCall.run
  rw [Program.ends_reads, h.ok.currentDataSize_eq]
  cases hc : v.self.data v.bufferPool ver with
  | none =>
      refine ⟨fun out hout => absurd hout (by simp), fun e he => ?_⟩
      obtain rfl := Except.error.inj he
      exact ⟨Exit.thrown_htmpfs _, h.follows, FileStep.currentDataSizeMissing hc⟩
  | some c =>
      refine ⟨fun out hout => ?_, fun e he => absurd he (by simp)⟩
      obtain rfl := Except.ok.inj hout
      exact ⟨h.follows, FileStep.currentDataSize hc⟩

/-- The step lemma. -/
theorem InOrder.ends_call (h : InOrder v) (hword : v.self.blockSize + 1 < 2 ^ 64)
    (call : InodeCall α) (hargs : call.Is64Bit) :
    Ends call.run v (fun a v' => Meets v call (.ok a) v')
      (fun e v' => e = .badAlloc ∨ (call.Fits → e.Thrown) ∧ Meets v call (.error e) v') := by
  have hthrows : ∀ {β : Type} {call : InodeCall β} (e : Exit) (v' : InodeView),
      e.Thrown ∧ Meets v call (.error e) v' →
      e = .badAlloc ∨ (call.Fits → e.Thrown) ∧ Meets v call (.error e) v' :=
    fun e v' he => Or.inr ⟨fun _ => he.1, he.2⟩
  cases call with
  | write buffer offset resize dentryOnly => exact h.ends_write_call hargs
  | truncate length => exact h.ends_truncate_call.mono (fun _ _ hv' => hv') fun _ _ he => Or.inl he
  | createNewVolume ver => exact h.ends_createNewVolume_call.mono (fun _ _ hv' => hv') hthrows
  | deleteVolume ver => exact h.ends_deleteVolume_call.mono (fun _ _ hv' => hv') hthrows
  | read ver length offset =>
      exact (h.ends_read_call hword hargs.1).mono (fun _ _ hv' => hv') hthrows
  | toString ver => exact (h.ends_toString_call hword).mono (fun _ _ hv' => hv') hthrows
  | currentDataSize ver => exact h.ends_currentDataSize_call.mono (fun _ _ hv' => hv') hthrows

/-! ## Runs -/

theorem InodeCalled.versionsStep {l : Option InodeEvent} (h : InOrder v)
    (hword : v.self.blockSize + 1 < 2 ^ 64) (hstep : InodeCalled v l v') : Follows v v' ∧
      VersionsStep v.self.blockSize v.self.isDentry v.versions l v'.versions := by
  cases hstep with
  | @called α call result hargs hresult hcaught =>
      have hends := h.ends_call hword call hargs
      cases result with
      | ok a =>
          obtain ⟨hfollows, hfile⟩ := hends.outcome_ok hresult
          exact ⟨hfollows, VersionsStep.called hfile⟩
      | error e =>
          rcases hends.outcome_error hresult with rfl | ⟨_, hfollows, hfile⟩
          · exact absurd (hcaught _ rfl) Exit.not_thrown_badAlloc
          · exact ⟨hfollows, VersionsStep.called hfile⟩
  | others hother =>
      have hversions : v'.versions = v.versions := by
        unfold InodeView.versions
        rw [hother.self]
        exact h.ok.data_congr hother.kept
      refine ⟨⟨hother.inOrder h, by rw [hother.self], by rw [hother.self]⟩, ?_⟩
      rw [hversions]
      exact VersionsStep.others

theorem versions_new {pool : IdPool Buffer} {blockSize id : ℕ} {isDentry : Bool} :
    InodeView.versions ⟨pool, Inode.new blockSize id isDentry⟩ = FileVersions.new := by
  funext ver
  rw [InodeView.versions, Inode.data, Inode.bufferMap_new, FileVersions.new, Function.update_apply]
  split_ifs <;> rfl

/-- Every run of the methods of a new inode, whatever other owners do to the pool in between, is a
run of the map from versions to bytes that returns and throws the same; and a call whose end does
not wrap around returns or throws, unless memory runs out. -/
theorem inode_refines_versions {pool : IdPool Buffer} {blockSize id : ℕ} {isDentry : Bool}
    (hbs : 0 < blockSize) (hword : blockSize + 1 < 2 ^ 64) (hsmall : pool.size < pool.maxSize)
    {ls : List (Option InodeEvent)}
    (hrun : Trace InodeCalled ⟨pool, Inode.new blockSize id isDentry⟩ ls v) :
    Trace (VersionsStep blockSize isDentry) FileVersions.new ls v.versions ∧
      ∀ {α : Type} (call : InodeCall α), call.Is64Bit → call.Fits →
        Ends call.run v (fun _ _ => True) (fun e _ => e = .badAlloc ∨ e.Thrown) := by
  have hstep : ∀ (v : InodeView) (files : FileVersions) (l : Option InodeEvent) (v' : InodeView),
      v.versions = files ∧ InOrder v ∧ v.self.blockSize = blockSize ∧ v.self.isDentry = isDentry →
      InodeCalled v l v' → ∃ files', VersionsStep blockSize isDentry files l files' ∧
        v'.versions = files' ∧ InOrder v' ∧ v'.self.blockSize = blockSize ∧
          v'.self.isDentry = isDentry := by
    rintro v _ l v' ⟨rfl, horder, rfl, rfl⟩ hcalled
    obtain ⟨hfollows, hversions⟩ := hcalled.versionsStep horder hword
    exact ⟨_, hversions, rfl, hfollows.inOrder, hfollows.blockSize, hfollows.isDentry⟩
  obtain ⟨_, htrace, rfl, horder, rfl, _⟩ := hrun.simulates hstep
    ⟨versions_new, ⟨Inode.ok_new hbs (Nat.lt_of_succ_lt hword), hsmall⟩, rfl, rfl⟩
  refine ⟨htrace, fun call hargs hfits => ?_⟩
  refine (horder.ends_call hword call hargs).mono (fun _ _ _ => trivial) ?_
  rintro e _ (he | ⟨hthrown, _⟩)
  · exact Or.inl he
  · exact Or.inr (hthrown hfits)

end Calls

/-- A file of block size 2 that was written, kept as version 1, and written over. -/
def overwrittenInode : InodeView :=
  Program.exec (InodeCall.run (.write [9] 0 false false))
    (Program.exec (InodeCall.run (.createNewVolume [49]))
      (Program.exec (InodeCall.run (.write [1, 2, 3] 0 true false))
        (newFile 2)))

theorem trace_overwrittenInode : Trace InodeCalled (newFile 2)
    [some ⟨.write [1, 2, 3] 0 true false, .ok 3⟩, some ⟨.createNewVolume [49], .ok ()⟩,
      some ⟨.write [9] 0 false false, .ok 1⟩] overwrittenInode := by
  have hcaught : ∀ {α : Type} {a : α} (e : Exit), (.ok a : Except Exit α) = .error e → e.Thrown :=
    fun e he => absurd he (by simp)
  refine Trace.cons (InodeCalled.called ⟨by decide, by decide⟩ ?_ hcaught) ?_
  · decide +kernel
  refine Trace.cons (InodeCalled.called trivial ?_ hcaught) ?_
  · decide +kernel
  refine Trace.cons (InodeCalled.called ⟨by decide, by decide⟩ ?_ hcaught) Trace.nil
  decide +kernel

theorem inode_refines_versions_overwrittenInode :
    Trace (VersionsStep 2 false) FileVersions.new
      [some ⟨.write [1, 2, 3] 0 true false, .ok 3⟩, some ⟨.createNewVolume [49], .ok ()⟩,
        some ⟨.write [9] 0 false false, .ok 1⟩] overwrittenInode.versions :=
  (inode_refines_versions (by decide) (by decide) (by decide) trace_overwrittenInode).1

end Htmpfs
