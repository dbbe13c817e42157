import Mathlib
import Htmpfs.Library.Runs
import Htmpfs.Overflow

/-!
# Runs of one inode

The data methods of an inode, called one after the other with any 64-bit
arguments.  In between, other inodes may use the same buffer pool.
-/

namespace Htmpfs

open Program (Ends Leaves)

/-- A call of a method of an inode, with its arguments. -/
inductive InodeOp
  | write (buffer : Bytes) (offset : ℕ) (resize dentryOnly : Bool)
  | truncate (length : ℕ)
  | createNewVolume (ver : SnapshotVer)
  | deleteVolume (ver : SnapshotVer)

namespace InodeOp

def run : InodeOp → InodeM Unit
  | write buffer offset resize dentryOnly => do
      let _ ← Inode.write buffer offset resize dentryOnly
  | truncate length => Inode.truncate length
  | createNewVolume ver => Inode.createNewVolume ver
  | deleteVolume ver => Inode.deleteVolume ver

/-- The arguments are 64-bit numbers, and so are the sizes of what they point to. -/
def Is64Bit : InodeOp → Prop
  | write buffer offset _ _ => buffer.length < 2 ^ 64 ∧ offset < 2 ^ 64
  | truncate length => length < 2 ^ 64
  | _ => True

/-- The places of the current list at which a call gives up a frozen block. -/
def Reallocates (v : InodeView) : InodeOp → ℕ → Prop
  | write buffer offset resize dentryOnly, j =>
      (v.self.isDentry && !dentryOnly) = false ∧
        ∃ c, v.self.data v.bufferPool curModifiableVer = some c ∧
          Bank.Reallocates v.self.blockSize buffer offset resize c.length j
  | truncate _, _ => True
  | _, _ => False

/-- No call gives up a block that a snapshot froze. -/
def KeepsFrozen (v : InodeView) (op : InodeOp) : Prop :=
  ∀ list, v.self.bufferMap[curModifiableVer]? = some list →
    ∀ j r, list[j]? = some r → op.Reallocates v j → r.isSnapshoted = false

end InodeOp

/-- One call, made where the condition holds, that returned or threw. -/
def InodeStep (cond : InodeView → InodeOp → Prop) (v v' : InodeView) : Prop :=
  ∃ op : InodeOp, op.Is64Bit ∧ cond v op ∧ Leaves Exit.Thrown op.run v v'

theorem InodeStep.of_outcome {cond : InodeView → InodeOp → Prop} {v : InodeView} {op : InodeOp}
    (hop : op.Is64Bit) (hcond : cond v op) (h : Program.outcome op.run v = .ok ()) :
    InodeStep cond v (Program.exec op.run v) :=
  ⟨op, hop, hcond, Program.leaves_exec h⟩

/-- Another owner changed the buffer pool, and left the blocks of this inode alone. -/
structure Interferes (v v' : InodeView) : Prop where
  self : v'.self = v.self
  small : v'.bufferPool.size < v'.bufferPool.maxSize
  kept : ∀ b, v.self.Owns b → v'.bufferPool.find? b = v.bufferPool.find? b

/-- A new file over an empty buffer pool. -/
def newFile (blockSize : ℕ) : InodeView :=
  ⟨IdPool.empty PoolLimits.libstdcxx.bufferMax, Inode.new blockSize 0 false⟩

/-- The states that a new inode may come to. -/
def InodeReachable (v : InodeView) : Prop :=
  ∃ pool blockSize id isDentry, 0 < blockSize ∧ blockSize < 2 ^ 64 ∧ pool.size < pool.maxSize ∧
    Relation.ReflTransGen
      (fun v v' => InodeStep (fun _ _ => True) v v' ∨ Interferes v v')
      ⟨pool, Inode.new blockSize id isDentry⟩ v

/-! ## The invariant -/

/-- The block lists are in order, and the pool can grow. -/
structure InOrder (v : InodeView) : Prop where
  ok : v.self.Ok v.bufferPool
  small : v.bufferPool.size < v.bufferPool.maxSize

/-- What a call did. -/
inductive InodeOp.Did (v : InodeView) (op : InodeOp) : InodeView → Prop
  | none : Did v op v
  | reworked {touched : ℕ → Prop} {v' : InodeView} (h : Reworked v touched v')
      (hop : ∀ j, touched j → op.Reallocates v j) : Did v op v'
  | volumed {ver : SnapshotVer} {v' : InodeView} (h : Volumed v ver v') : Did v op v'
  | unvolumed {ver : SnapshotVer} {v' : InodeView} (hver : ver ≠ curModifiableVer)
      (h : Unvolumed v ver v') : Did v op v'

section Invariant

variable {v v' : InodeView} {op : InodeOp}

theorem InOrder.data_current (h : InOrder v) :
    ∃ c, v.self.data v.bufferPool curModifiableVer = some c := by
  obtain ⟨list, hcur⟩ := h.ok.current
  exact ⟨content v.bufferPool list, by rw [Inode.data, hcur]; rfl⟩

/-- The step lemma. -/
theorem InOrder.ends_run (h : InOrder v) (hop : op.Is64Bit) :
    Ends op.run v (fun _ v' => op.Did v v') (fun e v' => e = .badAlloc ∨ op.Did v v') := by
  cases op with
  | write buffer offset resize dentryOnly =>
      obtain ⟨c, hc⟩ := h.data_current
      unfold InodeOp.run
      rw [Program.ends_bind]
      refine (h.ok.ends_write_any h.small hop.2 hop.1 hc).mono ?_ ?_
      · rintro _ v' ⟨hguard, hv'⟩
        exact InodeOp.Did.reworked hv' fun j hj => ⟨hguard, c, hc, hj⟩
      · rintro e v' (he | ⟨_, rfl | ⟨hguard, hv'⟩⟩)
        · exact Or.inl he
        · exact Or.inr InodeOp.Did.none
        · exact Or.inr (InodeOp.Did.reworked hv' fun j hj => ⟨hguard, c, hc, hj⟩)
  | truncate length =>
      refine (h.ok.ends_truncate h.small).mono ?_ fun _ _ he => Or.inl he
      exact fun _ v' hv' => InodeOp.Did.reworked hv'.reworked fun _ _ => trivial
  | createNewVolume ver =>
      refine h.ok.ends_createNewVolume.mono ?_ ?_
      · exact fun _ v' hv' => InodeOp.Did.volumed hv'.2
      · rintro e v' ⟨_, rfl, _⟩
        exact Or.inr InodeOp.Did.none
  | deleteVolume ver =>
      refine h.ok.ends_deleteVolume.mono ?_ ?_
      · exact fun _ v' hv' => InodeOp.Did.unvolumed hv'.1 hv'.2
      · rintro e v' ⟨_, rfl, _⟩
        exact Or.inr InodeOp.Did.none

theorem InodeStep.did {cond : InodeView → InodeOp → Prop} (h : InOrder v)
    (hstep : InodeStep cond v v') : ∃ op : InodeOp, cond v op ∧ op.Did v v' := by
  obtain ⟨op, hop, hcond, hleaves⟩ := hstep
  refine ⟨op, hcond, ?_⟩
  rcases (h.ends_run hop).leaves hleaves with ⟨_, hdid⟩ | ⟨e, hthrown, rfl | hdid⟩
  · exact hdid
  · exact absurd hthrown Exit.not_thrown_badAlloc
  · exact hdid

theorem InodeOp.Did.inOrder (h : InOrder v) (hdid : op.Did v v') : InOrder v' := by
  cases hdid with
  | none => exact h
  | reworked h' _ => exact ⟨h'.ok, h'.small⟩
  | volumed h' =>
      obtain ⟨_, _, _, hpool⟩ := h'.bank
      exact ⟨h'.ok, hpool.small h.small⟩
  | unvolumed _ h' =>
      obtain ⟨_, _, _, hpool⟩ := h'.bank
      exact ⟨h'.ok, hpool.small h.small⟩

theorem Interferes.inOrder (h : InOrder v) (hstep : Interferes v v') : InOrder v' := by
  obtain ⟨pool, self⟩ := v'
  obtain ⟨rfl, hsmall, hkept⟩ := hstep
  exact ⟨h.ok.congr hkept, hsmall⟩

/-- Every reachable inode is in order. -/
theorem InodeReachable.inOrder (h : InodeReachable v) : InOrder v := by
  obtain ⟨pool, blockSize, id, isDentry, hbs, hword, hsmall, hrun⟩ := h
  refine Program.run_preserves hrun ⟨Inode.ok_new hbs hword, hsmall⟩ fun t t' ht hstep => ?_
  rcases hstep with hstep | hstep
  · obtain ⟨op, _, hdid⟩ := hstep.did ht
    exact hdid.inOrder ht
  · exact hstep.inOrder ht

end Invariant

end Htmpfs
