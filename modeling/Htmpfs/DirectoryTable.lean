import Mathlib
import Htmpfs.Operations

/-!
# Encoded directory tables

`save_current` writes a table as a count and one record for each entry, and
`refresh` reads it back.  A name leaves its terminator in the record when it
has fewer bytes than the field; without a terminator the copy out of the
record runs on.
-/

namespace Htmpfs

open Program (Ends)

/-- The name and its terminator fit the field of a record. -/
def NameFits (name : Bytes) : Prop := name.length < nameFieldSize

instance (name : Bytes) : Decidable (NameFits name) := by unfold NameFits; infer_instance

/-- What can be written as a record at all: a name without terminator, a 64-bit id. -/
structure PathPack.WellFormed (p : PathPack) : Prop where
  terminated : 0 ∉ p.pathname
  id_lt : p.inodeId < 2 ^ 64

section Codec

variable {p : PathPack} {t : List PathPack} {rest : Bytes}

@[simp] theorem PathPack.length_flatten : p.flatten.length = flatPathPackSize := by
  simp only [flatten, List.length_append, List.length_take, List.length_replicate,
    LittleEndian.length_encode, nameFieldSize, flatPathPackSize]
  omega

theorem length_flatMap_flatten :
    (t.flatMap PathPack.flatten).length = flatPathPackSize * t.length := by
  induction t with
  | nil => rfl
  | cons p t ih =>
      rw [List.flatMap_cons, List.length_append, PathPack.length_flatten, ih, List.length_cons]
      ring

theorem length_encodeTable : (encodeTable t).length = 8 + flatPathPackSize * t.length := by
  rw [encodeTable, List.length_append, LittleEndian.length_encode, length_flatMap_flatten]

theorem encodeTable_ne_nil : encodeTable t ≠ [] := by
  rw [← List.length_pos_iff, length_encodeTable]
  omega

theorem stringToType_append {size : ℕ} {str : Bytes} (h : str.length = size) :
    stringToType size (str ++ rest) = .ok str := by
  unfold stringToType
  rw [if_pos (by simp only [List.length_append]; omega), List.append_assoc, ← h,
    List.take_left']
  · rfl
  · rfl

theorem PathPack.flatten_eq : p.flatten =
    p.pathname.take nameFieldSize ++ List.replicate (nameFieldSize - p.pathname.length) 0 ++
      LittleEndian.encode 8 p.inodeId := by
  have hcopied : p.pathname.take (min nameFieldSize p.pathname.length) =
      p.pathname.take nameFieldSize := by
    rw [← List.take_take, List.take_length]
  have hlength : nameFieldSize - (p.pathname.take nameFieldSize).length =
      nameFieldSize - p.pathname.length := by
    rw [List.length_take]
    omega
  simp only [flatten, hcopied, hlength]

/-- The name field of a record. -/
theorem PathPack.take_flatten :
    p.flatten.take nameFieldSize = p.pathname.take nameFieldSize ++
      List.replicate (nameFieldSize - p.pathname.length) 0 := by
  rw [flatten_eq, List.take_left']
  rw [List.length_append, List.length_take, List.length_replicate]
  omega

/-- The id field of a record. -/
theorem PathPack.drop_flatten :
    p.flatten.drop nameFieldSize = LittleEndian.encode 8 p.inodeId := by
  rw [flatten_eq, List.drop_left']
  rw [List.length_append, List.length_take, List.length_replicate]
  omega

/-- The copy of the name field ends at the terminator, if there is one. -/
theorem copyName_flatten (hp : 0 ∉ p.pathname) :
    copyName (p.flatten.take nameFieldSize) =
      if NameFits p.pathname then .ok p.pathname else .error .undefined := by
  rw [PathPack.take_flatten]
  unfold copyName
  by_cases hfits : NameFits p.pathname
  · have hlt : p.pathname.length < nameFieldSize := hfits
    obtain ⟨k, hk⟩ : ∃ k, nameFieldSize - p.pathname.length = k + 1 :=
      ⟨nameFieldSize - p.pathname.length - 1, by omega⟩
    rw [if_pos hfits, List.take_of_length_le hlt.le, hk, List.replicate_succ, if_pos (by simp),
      List.takeWhile_append_of_pos]
    · simp [pure, Except.pure]
    · intro a ha
      simpa using fun h : a = 0 => hp (h ▸ ha)
  · have hle : nameFieldSize ≤ p.pathname.length := not_lt.mp hfits
    rw [if_neg hfits, Nat.sub_eq_zero_of_le hle, List.replicate_zero, List.append_nil, if_neg]
    · rfl
    · exact fun h => hp (List.mem_of_mem_take h)

/-- Reading the records back gives the table when every name fits, and is undefined otherwise. -/
theorem decodePacks_flatMap (rest : Bytes) (ht : ∀ p ∈ t, p.WellFormed) :
    decodePacks t.length (t.flatMap PathPack.flatten ++ rest) =
      if ∀ p ∈ t, NameFits p.pathname then .ok t else .error .undefined := by
  induction t with
  | nil => simp [decodePacks, pure, Except.pure]
  | cons p t ih =>
      have hp := ht p (by simp)
      have hid : LittleEndian.decode (LittleEndian.encode 8 p.inodeId) = p.inodeId :=
        LittleEndian.decode_encode_of_lt (lt_of_lt_of_eq hp.id_lt (by norm_num))
      rw [List.length_cons, decodePacks, List.flatMap_cons, List.append_assoc,
        stringToType_append PathPack.length_flatten]
      simp only [bind, Except.bind]
      rw [copyName_flatten hp.terminated, List.drop_left' PathPack.length_flatten,
        ih fun q hq => ht q (List.mem_cons_of_mem p hq), PathPack.drop_flatten, hid]
      by_cases hfits : NameFits p.pathname
      · by_cases hrest : ∀ q ∈ t, NameFits q.pathname
        · simp only [if_pos hrest, List.forall_mem_cons, hfits, true_and]
          rfl
        · simp only [if_neg hrest, List.forall_mem_cons, hfits, true_and]
          rfl
      · simp [hfits]

/-- The round trip of a table. -/
theorem decodeTable_encodeTable (ht : ∀ p ∈ t, p.WellFormed)
    (hsize : (encodeTable t).length < 2 ^ 64) :
    decodeTable (encodeTable t) =
      if ∀ p ∈ t, NameFits p.pathname then .ok t else .error .undefined := by
  have hcount : LittleEndian.decode (LittleEndian.encode 8 t.length) = t.length := by
    refine LittleEndian.decode_encode_of_lt ?_
    rw [length_encodeTable, flatPathPackSize] at hsize
    omega
  have hne : (encodeTable t).isEmpty = false := by
    rw [List.isEmpty_eq_false_iff, ← List.length_pos_iff, length_encodeTable]
    omega
  unfold decodeTable
  rw [hne, if_neg (by simp)]
  unfold encodeTable
  rw [stringToType_append (LittleEndian.length_encode 8 _),
    List.drop_left' (LittleEndian.length_encode 8 _)]
  simp only [bind, Except.bind, hcount]
  simpa only [List.append_nil] using decodePacks_flatMap [] ht

/-- What is read from a field of a record fits the field and has no terminator. -/
theorem copyName_ok {field name : Bytes} (h : copyName field = .ok name) :
    0 ∉ name ∧ name.length < field.length := by
  unfold copyName at h
  split_ifs at h with hzero
  · obtain rfl := Program.pure_eq_ok.mp h
    have hnot : 0 ∉ field.takeWhile (· ≠ 0) := fun hmem => by
      simpa using List.mem_takeWhile_imp hmem
    have hpre := List.takeWhile_prefix (l := field) fun b : UInt8 => decide (b ≠ 0)
    refine ⟨hnot, lt_of_le_of_ne hpre.length_le fun hlength => hnot ?_⟩
    rwa [hpre.eq_of_length hlength]

/-- Whatever bytes a directory has, the names read from them fit and the ids are 64-bit. -/
theorem decodePacks_wellFormed {count : ℕ} {allPath : Bytes}
    (h : decodePacks count allPath = .ok t) : ∀ p ∈ t, p.WellFormed ∧ NameFits p.pathname := by
  induction count generalizing allPath t with
  | zero =>
      obtain rfl := Program.pure_eq_ok.mp h
      simp
  | succ count ih =>
      unfold decodePacks at h
      obtain ⟨savePack, hpack, h⟩ := Program.bind_eq_ok.mp h
      obtain ⟨name, hname, h⟩ := Program.bind_eq_ok.mp h
      obtain ⟨rest, hrest, h⟩ := Program.bind_eq_ok.mp h
      obtain rfl := Program.pure_eq_ok.mp h
      have hsize : savePack.length = flatPathPackSize := by
        unfold stringToType at hpack
        split_ifs at hpack with hle
        · obtain rfl := Program.pure_eq_ok.mp hpack
          rw [List.length_take, List.length_append, List.length_singleton]
          omega
      obtain ⟨hzero, hlength⟩ := copyName_ok hname
      intro p hp
      rcases List.mem_cons.mp hp with rfl | hp
      · refine ⟨⟨hzero, ?_⟩, lt_of_lt_of_le hlength (List.length_take_le _ _)⟩
        refine lt_of_lt_of_eq (LittleEndian.decode_lt _) ?_
        rw [List.length_drop, hsize]
        rfl
      · exact ih hrest p hp

theorem decodeTable_wellFormed {allPath : Bytes} (h : decodeTable allPath = .ok t) :
    ∀ p ∈ t, p.WellFormed ∧ NameFits p.pathname := by
  unfold decodeTable at h
  split_ifs at h
  · obtain rfl := Program.pure_eq_ok.mp h
    simp
  · obtain ⟨count, _, h⟩ := Program.bind_eq_ok.mp h
    exact decodePacks_wellFormed h

end Codec

/-- What `make_child_dentry_under_parent` accepts has no terminator. -/
theorem not_mem_zero_of_nameChar {name : Bytes} (h : name.all InodeSmi.nameChar = true) :
    0 ∉ name := fun hzero => by
  have hchar := List.all_eq_true.mp h 0 hzero
  simp [InodeSmi.nameChar] at hchar

end Htmpfs
