import Mathlib
import Htmpfs.MkdirRmdir
import Htmpfs.Pwrite
import Htmpfs.Walkers

/-!
# What a failed call leaves

A callback that returns an errno changed nothing, but for two cases: a
`do_rename` that fails after its first half, and a `do_write` of so many bytes
that their number is negative as an `int`.
-/

namespace Htmpfs

open Program (Ends)

/-- The bytes of an inode in a version. -/
def InodeSmi.bytes (id : ℕ) (ver : SnapshotVer) (s : InodeSmi) : Except Exit Bytes := do
  let node ← poolAt id s.inodePool
  node.val.toString s.bufferPool ver

/-- The directories, the bytes of every inode in every version, the inodes with their links and
the lists of the versions are the same. -/
structure Unchanged (s s' : InodeSmi) : Prop extends SameTree s s' where
  bytes : ∀ id ver, InodeSmi.bytes id ver s' = InodeSmi.bytes id ver s

section Unchanged

variable {s s' : InodeSmi} {w w' : View} {id parent : ℕ} {name path : Bytes} {ver : SnapshotVer}

theorem Unchanged.refl : Unchanged s s where
  entries _ _ := rfl
  links _ := rfl
  lists _ := rfl
  bytes _ _ := rfl

theorem SameTree.linkCount (h : SameTree s s') (id : ℕ) :
    (s'.view.node id).map (·.linkCount) = (s.view.node id).map (·.linkCount) := by
  rw [view_node, view_node, Option.map_map, Option.map_map]
  exact h.links id

/-- An entry more is no entry less, and no link less. -/
theorem View.AddsEntry.linkCount (hadd : w.AddsEntry parent name id w') (j : ℕ) :
    (w'.node j).map (·.linkCount) = (w.node j).map (·.linkCount) := by
  obtain ⟨t, ht, hnew, hsize⟩ := hadd
  exact View.linkCount_setCurrent

theorem View.AddsEntry.not_restored (hadd : w.AddsEntry parent name id w') (hname : 0 ∉ name)
    (hid : id < 2 ^ 64) : ¬ ∀ j u, w'.tableAt j u = w.tableAt j u := by
  intro hrestored
  obtain ⟨t, ht, _, htables⟩ := hadd.tables hname hid
  have hsame := hrestored parent curModifiableVer
  rw [htables, if_pos ⟨rfl, rfl⟩, ht] at hsame
  have hlen := congrArg List.length (View.savedTable_eq_ok.mp hsame).2.2
  simp at hlen

end Unchanged

section Rename

variable {s s' : InodeSmi} {w w' : View} {id parent : ℕ} {name path targetName : Bytes}
  {t : List PathPack}

theorem View.RenameArgs.unique {cs cs' ds ds' : List Bytes} {n n' m m' : Bytes} {id' parent' : ℕ}
    (h : w.RenameArgs path name cs n ds m id parent)
    (h' : w.RenameArgs path name cs' n' ds' m' id' parent') :
    cs' = cs ∧ m' = m ∧ parent' = parent := by
  obtain ⟨rfl, _⟩ := List.append_inj' (h.hpath.symm.trans h'.hpath) rfl
  obtain ⟨rfl, hlast⟩ := List.append_inj' (h.hname.symm.trans h'.hname) rfl
  exact ⟨rfl, (List.singleton_inj.mp hlast).symm, Except.ok.inj (h'.target.symm.trans h.target)⟩

end Rename

section Write

variable {s s' : InodeSmi} {w : View} {path : CString} {buffer c : Bytes} {id : ℕ} {n : NodeView}

theorem View.LeadsToFile.unique {c' : Bytes} {id' : ℕ} {n' : NodeView}
    (h : w.LeadsToFile path.1 id n c) (h' : w.LeadsToFile path.1 id' n' c') :
    id' = id ∧ c' = c := by
  obtain rfl := Except.ok.inj (h'.resolves.symm.trans h.resolves)
  obtain rfl := Option.some.inj (h'.node.symm.trans h.node)
  exact ⟨rfl, Option.some.inj (h'.data.symm.trans h.data)⟩

end Write

section Calls

variable {s : InodeSmi} {call : FuseCall}

def secondPath : CString := ⟨[slash, 98], by decide⟩

end Calls

end Htmpfs
