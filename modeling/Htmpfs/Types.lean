import Mathlib
import Htmpfs.Library.Program
import Htmpfs.Library.IdPool

/-!
# Types, constants and errors

`std::string` and `std::vector <char>` are byte lists; byte 0 is the
terminator of a C string.  Sizes of what is held in memory are natural
numbers; `u64` is written where the source adds or multiplies 64-bit values
that need not fit.
-/

namespace Htmpfs

/-- `std::string`, `data_t`. -/
abbrev Bytes := List UInt8

/-- `const char *`: a string without an inner terminator, which fits in the address space. -/
def CString := {s : Bytes // 0 ∉ s ∧ s.length < 2 ^ 63}

instance : Coe CString Bytes := ⟨Subtype.val⟩

/-- What is read of a string through its `c_str()`. -/
def cStr (s : Bytes) : Bytes := s.takeWhile (· ≠ 0)

theorem cStr_of_not_mem {s : Bytes} (h : 0 ∉ s) : cStr s = s :=
  List.takeWhile_eq_self_iff.mpr fun b hb => by
    have hne : b ≠ 0 := fun hzero => h (hzero ▸ hb)
    simpa using hne

/-- `snapshot_ver_t`. -/
abbrev SnapshotVer := Bytes

section VersionMap

variable {β : Type} {t : Std.ExtTreeMap SnapshotVer β} {k a : SnapshotVer} {v : β}

theorem getElem?_insert_version : (t.insert k v)[a]? = if a = k then some v else t[a]? := by
  rw [Std.ExtTreeMap.getElem?_insert]
  simp only [Std.LawfulEqOrd.compare_eq_iff_eq, eq_comm (a := k)]

theorem getElem?_insertIfNew_version :
    (t.insertIfNew k v)[a]? = if a = k ∧ t[k]? = none then some v else t[a]? := by
  rw [Std.ExtTreeMap.getElem?_insertIfNew]
  simp only [Std.LawfulEqOrd.compare_eq_iff_eq, Std.ExtTreeMap.mem_iff_isSome_getElem?,
    Option.not_isSome_iff_eq_none, eq_comm (a := k)]

theorem getElem?_erase_version : (t.erase k)[a]? = if a = k then none else t[a]? := by
  rw [Std.ExtTreeMap.getElem?_erase]
  simp only [Std.LawfulEqOrd.compare_eq_iff_eq, eq_comm (a := k)]

end VersionMap

/-- Wrap to `uint64_t`. -/
def u64 (n : ℕ) : ℕ := n % 2 ^ 64

/-- A difference of `uint64_t`. -/
def u64Sub (a b : ℕ) : ℕ := u64 (a + 2 ^ 64 - b)

/-- `off_t` converted to `htmpfs_size_t`. -/
def offToU64 (n : ℤ) : ℕ := (n % 2 ^ 64).toNat

/-- `max_size()` of the two maps of a file system, as the standard library fixes it. -/
structure PoolLimits where
  bufferMax : Fin (2 ^ 63)
  inodeMax : Fin (2 ^ 63)
  bufferMax_pos : 0 < bufferMax.val
  inodeMax_pos : 1 < inodeMax.val

/-- The limits of a 64-bit libstdc++: `PTRDIFF_MAX` over the size of a node. -/
def PoolLimits.libstdcxx : PoolLimits where
  bufferMax := ⟨256204778801521550, by norm_num⟩
  inodeMax := ⟨67818912035696880, by norm_num⟩
  bufferMax_pos := by norm_num
  inodeMax_pos := by norm_num

def ascii (s : List Char) : Bytes := s.map fun c => UInt8.ofNat c.toNat

/-- `FILESYSTEM_CUR_MODIFIABLE_VER` -/
def curModifiableVer : SnapshotVer := ascii ['c', 'u', 'r', 'r', 'e', 'n', 't']

/-- `SNAPSHOT_ENTRY` -/
def snapshotEntry : Bytes := ascii ['.', 's', 'n', 'a', 'p', 's', 'h', 'o', 't']

/-- `FILESYSTEM_ROOT_INODE_NUMBER` -/
def rootInodeNumber : ℕ := 0

/-- The byte `/`. -/
def slash : UInt8 := 0x2F

/-- The error codes of `htmpfs_error.h`. -/
inductive ErrorCode
  | successful | extLibErr | doubleAlloc | illegalAccess | snapshotVerDepleted
  | noSuchSnapshot | doubleSnapshot | blockNotFound | bufferIdDepleted | bufferShortOps
  | notADirectory | doubleMkpathname | noSuchFileOrDir | requestedBufferNotFound
  | requestedInodeNotFound | dirNotEmpty | invalidDentryName | invalidWriteInvoke
  | invalidReadInvoke | cannotRemoveRoot | cannotOpenDevice | cannotLseekDevice
  | meetDeviceBoundary | blockShortOps
  deriving DecidableEq, Repr

def eNoent : ℕ := 2
def eExist : ℕ := 17
def eNotdir : ℕ := 20
def eIsdir : ℕ := 21
def eInval : ℕ := 22
def eRofs : ℕ := 30
def eNotempty : ℕ := 39

/-- `HTMPFS_error_t::fill_out_errno`; codes without a case keep `_errno = 0`. -/
def ErrorCode.myErrno : ErrorCode → ℕ
  | extLibErr => 1
  | doubleAlloc => eExist
  | illegalAccess => 1
  | snapshotVerDepleted => 1
  | noSuchSnapshot => eNoent
  | doubleSnapshot => eExist
  | bufferIdDepleted => 1
  | bufferShortOps => 1
  | notADirectory => eNotdir
  | doubleMkpathname => eExist
  | noSuchFileOrDir => eNoent
  | requestedBufferNotFound => 1
  | requestedInodeNotFound => 1
  | dirNotEmpty => eNotempty
  | invalidDentryName => eInval
  | invalidWriteInvoke => 1
  | invalidReadInvoke => 1
  | cannotRemoveRoot => eIsdir
  | successful | blockNotFound | cannotOpenDevice | cannotLseekDevice
  | meetDeviceBoundary | blockShortOps => 0

/-- How a call ends that does not return: a thrown `HTMPFS_error_t`, the
`std::out_of_range` of an `at`, exhausted memory, or a step the language
leaves undefined (a dangling pointer, an access past an end). -/
inductive Exit
  | htmpfs (code : ErrorCode)
  | outOfRange
  | badAlloc
  | undefined
  | diverges
  deriving DecidableEq, Repr

/-- An exception after which the caller goes on.  A run is not followed past exhausted memory
or an undefined step. -/
def Exit.Thrown : Exit → Prop
  | htmpfs _ => True
  | outOfRange => True
  | badAlloc => False
  | undefined => False
  | diverges => False

instance : DecidablePred Exit.Thrown := fun e => by
  cases e <;> unfold Exit.Thrown <;> infer_instance

@[simp] theorem Exit.thrown_htmpfs (c : ErrorCode) : (Exit.htmpfs c).Thrown := trivial
@[simp] theorem Exit.thrown_outOfRange : Exit.outOfRange.Thrown := trivial
@[simp] theorem Exit.not_thrown_badAlloc : ¬ Exit.badAlloc.Thrown := id
@[simp] theorem Exit.not_thrown_undefined : ¬ Exit.undefined.Thrown := id
@[simp] theorem Exit.not_thrown_diverges : ¬ Exit.diverges.Thrown := id

/-- `struct timespec` -/
structure Timespec where
  tvSec : ℤ
  tvNsec : ℤ
  deriving DecidableEq, Repr

/-- The members of `struct stat` that the callbacks fill in. -/
structure Stat where
  stMode : ℕ := 0
  stNlink : ℕ := 0
  stUid : ℕ := 0
  stGid : ℕ := 0
  stSize : ℤ := 0
  stIno : ℕ := 0
  stDev : ℕ := 0
  stAtim : Timespec := ⟨0, 0⟩
  stMtim : Timespec := ⟨0, 0⟩
  stCtim : Timespec := ⟨0, 0⟩
  deriving DecidableEq, Repr

end Htmpfs
