import Mathlib
import Htmpfs.Mounted
import Htmpfs.PathNames

/-!
# `do_write` and `pwrite`

`do_write` overwrites in place when the file is long enough, and cuts it behind
the new bytes when it is not.  Both ways come to the `pwrite` of POSIX.
-/

namespace Htmpfs

open Program (Ends)

/-- The bytes of a file after `pwrite`. -/
def pwrite (d : Bytes) (offset : ℕ) (c : Bytes) : Bytes :=
  c.take offset ++ List.replicate (offset - c.length) 0 ++ d ++ c.drop (offset + d.length)

section Bytes

variable {d c : Bytes} {offset : ℕ}

theorem length_pwrite : (pwrite d offset c).length = max c.length (offset + d.length) := by
  simp only [pwrite, List.length_append, List.length_take, List.length_replicate,
    List.length_drop]
  omega

theorem written_eq_pwrite (hne : d ≠ []) : written d offset c = pwrite d offset c := by
  have hlen : d.length ≠ 0 := by simpa using hne
  unfold written Bank.writeBytes pwrite
  rw [if_neg hlen]
  by_cases hgrow : offset + d.length > c.length
  · rw [if_pos (by simpa using hgrow), Blocks.overwrite_resize, Blocks.resize,
      List.drop_eq_nil_of_le (by omega), List.append_nil]
  · have hreplicate : offset - c.length = 0 := by omega
    rw [if_neg (by simpa using hgrow), if_neg (by omega), List.take_of_length_le (by omega),
      Blocks.overwrite, hreplicate, List.replicate_zero, List.append_nil]

end Bytes

section Files

variable {s : InodeSmi} {path : CString} {d c : Bytes} {offset : ℤ}
  {id : ℕ} {node : PoolNode Inode}

theorem BlocksOk.toString_eq_ok (h : BlocksOk s) (hword : s.view.blockSize + 1 ≠ 2 ^ 64)
    (hnode : s.inodePool.find? id = some node) {ver : SnapshotVer} :
    node.val.toString s.bufferPool ver = .ok c ↔
      (nodeView s.bufferPool node).data ver = some c := by
  rw [h.toString_eq hnode, ← blockSize_view, NodeView.toString_eq_ok]
  exact and_iff_left fun hwrap => hword hwrap.2

theorem BlocksOk.leadsToFile (h : BlocksOk s) {rest : Bytes}
    (hlive : ifSnapshot path.1 = .ok (curModifiableVer, rest))
    (hid : InodeSmi.getInodeIdByPath path.1 s = .ok id)
    (hnode : s.inodePool.find? id = some node) (hfile : node.val.isDentry = false)
    (hc : node.val.toString s.bufferPool curModifiableVer = .ok c) :
    s.view.LeadsToFile path.1 id (nodeView s.bufferPool node) c where
  live := liveComps_of_ifSnapshot hlive
  resolves := by rw [← h.resolve_eq, hid]
  node := view_node_eq_some.mpr ⟨node, hnode, rfl⟩
  file := hfile
  data := by
    rw [h.toString_eq hnode] at hc
    exact (NodeView.toString_eq_ok.mp hc).1

/-- `do_write` on a regular file of the current version is `pwrite`, unless memory runs out. -/
theorem do_write_refines_pwrite (ctx : FuseContext) (hs : FuseReachable s) {rest : Bytes}
    (hlive : ifSnapshot path.1 = .ok (curModifiableVer, rest))
    (hid : InodeSmi.getInodeIdByPath path.1 s = .ok id)
    (hnode : s.inodePool.find? id = some node) (hfile : node.val.isDentry = false)
    (hc : node.val.toString s.bufferPool curModifiableVer = .ok c) (hne : d ≠ [])
    (hoffset : 0 ≤ offset) (hfits : offset + d.length < 2 ^ 31) :
    Ends (Fuse.doWrite ctx path d offset) s
      (fun r s' => r = d.length ∧ ∃ node', s'.inodePool.find? id = some node' ∧
        node'.val.toString s'.bufferPool curModifiableVer = .ok (pwrite d offset.toNat c) ∧
        (pwrite d offset.toNat c).length = max c.length (offset.toNat + d.length))
      (fun e _ => e = .badAlloc) := by
  obtain ⟨h, _⟩ := hs.links
  have hto := h.leadsToFile hlive hid hnode hfile hc
  have hword := hs.rootDir.word_of_file hto.resolves hto.node hto.file
  have hfits' : offset + d.length < 2 ^ 63 := lt_trans hfits (by norm_num)
  refine (Fuse.ends_doWrite h hoffset hfits').mono ?_ fun e _ he => he.2 _ _ _ hto
  rintro r s' (⟨_, hno⟩ | ⟨id', n', c', hto', h', hr, hview⟩)
  · exact absurd hto (hno _ _ _)
  obtain rfl := Except.ok.inj (hto.resolves.symm.trans hto'.resolves)
  obtain rfl := Option.some.inj (hto.node.symm.trans hto'.node)
  obtain rfl := Option.some.inj (hto.data.symm.trans hto'.data)
  have hn' : s'.view.node id = some ((nodeView s.bufferPool node).setCurrent
      fun _ => written d offset.toNat c) := by
    rw [hview, View.node_setCurrent, if_pos rfl, hto.node]
    rfl
  obtain ⟨node', hnode', heq⟩ := view_node_eq_some.mp hn'
  refine ⟨?_, node', hnode', ?_, length_pwrite⟩
  · exact hr.trans (Int.bmod_eq_of_le (by omega) (by omega))
  · have hword' : s'.view.blockSize + 1 ≠ 2 ^ 64 := by
      rw [hview, View.blockSize_setCurrent]
      exact hword
    rw [h'.toString_eq_ok hword' hnode', heq, NodeView.data_setCurrent_self, hto.data,
      ← written_eq_pwrite hne]
    rfl

/-- Two bytes behind the first byte of an empty file. -/
theorem do_write_refines_pwrite_sampleMount :
    ∃ node', (Program.exec (Fuse.doWrite sampleContext samplePath [1, 2] 1)
        sampleMount).inodePool.find? 1 = some node' ∧
      node'.val.toString (Program.exec (Fuse.doWrite sampleContext samplePath [1, 2] 1)
        sampleMount).bufferPool curModifiableVer = .ok (pwrite [1, 2] 1 []) := by
  have hfile : (sampleMount.inodePool.find? 1).map (fun node => (node.val.isDentry,
      node.val.toString sampleMount.bufferPool curModifiableVer)) = some (false, .ok []) := by
    decide +kernel
  obtain ⟨node, hnode, heq⟩ := Option.map_eq_some_iff.mp hfile
  obtain ⟨hkind, hbytes⟩ := Prod.mk.inj heq
  have hreach : FuseReachable sampleMount := fuseReachable_sampleMount trivial
  have hlive := ifSnapshot_samplePath
  have hid : InodeSmi.getInodeIdByPath samplePath.1 sampleMount = .ok 1 := by decide +kernel
  have hfits : (1 : ℤ) + ([1, 2] : Bytes).length < 2 ^ 31 := by norm_num
  have hrun : Program.outcome (Fuse.doWrite sampleContext samplePath [1, 2] 1) sampleMount =
      .ok 2 := by decide +kernel
  generalize sampleMount = s at hnode hbytes hreach hid hrun ⊢
  obtain ⟨_, node', hnode', hbytes', _⟩ := (do_write_refines_pwrite sampleContext hreach hlive hid
    hnode hkind hbytes (by simp) zero_le_one hfits).outcome_ok hrun
  exact ⟨node', hnode', hbytes'⟩

end Files

end Htmpfs
