/-
`src/storage/memory_map.cpp`: the mapped file under an index, and what a failed growth leaves.

`resize` unmaps the file, and then opens, extends and maps it again. Each of these calls can
fail, and `resize` then throws out of `HNSW::insert`; the server answers that request with an
error and goes on with the same index.

# The one awkward thing, named up front

`open_file` records the new size before it has it, and nobody restores the old mapping. Whichever
call fails, the handler is left without a mapping and with a size that lets every check of an id
pass: the next access goes through a null pointer or through `MAP_FAILED`.

The POSIX branch is modelled. The bytes of the file are shared with every mapping of it.
-/
import NanoDB.Hnsw

set_option autoImplicit false

namespace NanoDB.Index

/-! ## The handler -/

/-- The values of `data_`. A mapping starts at the first byte of the file. -/
inductive Pointer
  | null
  | map_failed
  | mapped (length : ℕ)
deriving DecidableEq, Repr

structure MMapHandler where
  file_size : ℕ := 0
  data : Pointer := .null
deriving DecidableEq, Repr

/-- How the calls of one `open_file` end. -/
structure Calls where
  create_directories : Bool
  open_ : Bool
  ftruncate : Bool
  mmap : Bool
deriving DecidableEq, Repr

/-- The exceptions. -/
inductive Thrown
  | filesystem_error
  | runtime_error (what : String)
deriving DecidableEq, Repr

/-- The handler, the bytes of the file, and the exception if there was one. -/
structure Opened where
  handler : MMapHandler
  file : List UInt8
  thrown : Option Thrown
deriving DecidableEq, Repr

def MMapHandler.open_file (h : MMapHandler) (file : List UInt8) (min_size : ℕ) (calls : Calls) :
    Opened :=
  let h := { h with file_size := min_size }
  if calls.create_directories = false then ⟨h, file, some .filesystem_error⟩
  else if calls.open_ = false then
    ⟨h, file, some (.runtime_error "Failed to open file (POSIX)")⟩
  else if file.length < min_size ∧ calls.ftruncate = false then
    ⟨h, file, some (.runtime_error "Failed to resize file")⟩
  else
    -- the file is extended with zeros, or is longer than asked for
    let file_size := max file.length min_size
    let file := file ++ List.replicate (min_size - file.length) 0
    if calls.mmap = false then
      ⟨⟨file_size, .map_failed⟩, file, some (.runtime_error "mmap failed")⟩
    else ⟨⟨file_size, .mapped file_size⟩, file, none⟩

def MMapHandler.close_file (h : MMapHandler) : MMapHandler := { h with data := .null }

def MMapHandler.resize (h : MMapHandler) (file : List UInt8) (new_size : ℕ) (calls : Calls) :
    Opened :=
  h.close_file.open_file file new_size calls

/-! ## What the index does with it -/

/-- The bytes behind `get_node(id)`. Nothing outside of the mapping can be accessed. -/
def MMapHandler.node_bytes (h : MMapHandler) (file : List UInt8) (id : ℕ) : Option (List UInt8) :=
  match h.data with
  | .mapped length =>
      if slot_end id ≤ length ∧ slot_end id ≤ file.length then
        some ((file.drop (HEADER_SIZE + id * NODE_SIZE)).take NODE_SIZE)
      else none
  | _ => none

/-- What `is_deleted` and `get_vector_data` do: an id behind the end is answered at once, and
otherwise the node is accessed. The outer `none` is a fault. -/
def MMapHandler.read_node (h : MMapHandler) (file : List UInt8) (id : ℕ) :
    Option (Option (List UInt8)) :=
  if slot_end id > h.file_size then some none else (h.node_bytes file id).map some

/-- The growth at the head of `HNSW::insert`. -/
def MMapHandler.grow_for (h : MMapHandler) (file : List UInt8) (id : ℕ) (calls : Calls) : Opened :=
  if slot_end id > h.file_size then
    h.resize file (grown_size h.file_size (slot_end id)) calls
  else ⟨h, file, none⟩

/-! ## Usable handlers -/

/-- The mapping is there, and is as long as recorded. -/
structure MMapHandler.Valid (h : MMapHandler) (file : List UInt8) : Prop where
  data : h.data = .mapped h.file_size
  file : h.file_size ≤ file.length

/-- After an operation the index can go on: there is a mapping with the old contents, the recorded
size does not exceed it, every node that could be read before can be read and is the same, and an
id that passes the check of an insertion can be accessed. -/
structure StillUsable (h : MMapHandler) (file : List UInt8) (h' : MMapHandler)
    (file' : List UInt8) : Prop where
  mapping : ∃ length, h'.data = .mapped length ∧ h'.file_size ≤ length ∧ length ≤ file'.length ∧
    file.take h.file_size <+: file'.take length
  reads : ∀ id bytes, h.read_node file id = some (some bytes) →
    h'.read_node file' id = some (some bytes)
  inserts : ∀ id, slot_end id ≤ h'.file_size → h'.node_bytes file' id ≠ none

/-- No call that `open_file` makes fails. -/
def Succeeds (file : List UInt8) (new_size : ℕ) (calls : Calls) : Prop :=
  calls.create_directories = true ∧ calls.open_ = true ∧
    (file.length < new_size → calls.ftruncate = true) ∧ calls.mmap = true

/-- **What `resize` leaves**: the file mapped as a whole, or no mapping and an exception. -/
theorem resize_cases (h : MMapHandler) (file : List UInt8) (new_size : ℕ) (calls : Calls) :
    (Succeeds file new_size calls ∧ h.resize file new_size calls =
      ⟨⟨max file.length new_size, .mapped (max file.length new_size)⟩,
        file ++ List.replicate (new_size - file.length) 0, none⟩) ∨
    (¬ Succeeds file new_size calls ∧ (h.resize file new_size calls).thrown ≠ none ∧
      ∀ length, (h.resize file new_size calls).handler.data ≠ .mapped length) := by
  unfold MMapHandler.resize MMapHandler.open_file Succeeds MMapHandler.close_file
  dsimp only
  by_cases hdir : calls.create_directories = false
  · right
    rw [if_pos hdir]
    simp [hdir]
  rw [if_neg hdir]
  by_cases hopen : calls.open_ = false
  · right
    rw [if_pos hopen]
    simp [hopen]
  rw [if_neg hopen]
  by_cases htrunc : file.length < new_size ∧ calls.ftruncate = false
  · right
    rw [if_pos htrunc]
    simp [htrunc.1, htrunc.2]
  rw [if_neg htrunc]
  by_cases hmap : calls.mmap = false
  · right
    rw [if_pos hmap]
    simp [hmap]
  · left
    rw [if_neg hmap]
    simp only [Bool.not_eq_false] at hdir hopen hmap
    refine ⟨⟨hdir, hopen, fun hlt => ?_, hmap⟩, rfl⟩
    by_contra hfalse
    exact htrunc ⟨hlt, by simpa using hfalse⟩

theorem slot_start_add (id : ℕ) : HEADER_SIZE + id * NODE_SIZE + NODE_SIZE = slot_end id := rfl

/-- The bytes of a slot that lies in the front part of a file. -/
theorem slot_of_prefix {file file' : List UInt8} (hpre : file <+: file') {id : ℕ}
    (hid : slot_end id ≤ file.length) :
    (file'.drop (HEADER_SIZE + id * NODE_SIZE)).take NODE_SIZE
      = (file.drop (HEADER_SIZE + id * NODE_SIZE)).take NODE_SIZE := by
  obtain ⟨rest, rfl⟩ := hpre
  have hslot := slot_start_add id
  rw [List.drop_append_of_le_length (by omega),
    List.take_append_of_le_length (by rw [List.length_drop]; omega)]

/-- A file that is mapped as a whole, and has grown at its end only. -/
theorem stillUsable_of_mapped {h : MMapHandler} {file : List UInt8} (hvalid : h.Valid file)
    {file' : List UInt8} (hpre : file <+: file') :
    StillUsable h file ⟨file'.length, .mapped file'.length⟩ file' := by
  have hlength := hpre.length_le
  have hfile := hvalid.file
  constructor
  · refine ⟨file'.length, rfl, le_refl _, le_refl _, ?_⟩
    rw [List.take_length]
    exact (List.take_prefix _ _).trans hpre
  · intro id bytes hread
    unfold MMapHandler.read_node MMapHandler.node_bytes at hread ⊢
    rw [hvalid.data] at hread
    dsimp only at hread ⊢
    split at hread
    · simp at hread
    · rename_i hid
      rw [if_pos (by omega), Option.map_some] at hread
      rw [if_neg (by omega), if_pos (by omega), Option.map_some,
        slot_of_prefix hpre (by omega)]
      exact hread
  · intro id hid
    unfold MMapHandler.node_bytes
    dsimp only at hid ⊢
    rw [if_pos (by omega)]
    simp

/-- **When the index is usable after `resize`**: if and only if no call failed. So whenever
`resize` throws, it is not. -/
theorem resize_usable_iff {h : MMapHandler} {file : List UInt8} (hvalid : h.Valid file)
    (new_size : ℕ) (calls : Calls) :
    ((h.resize file new_size calls).thrown = none ↔ Succeeds file new_size calls) ∧
      (StillUsable h file (h.resize file new_size calls).handler
        (h.resize file new_size calls).file ↔ Succeeds file new_size calls) := by
  rcases resize_cases h file new_size calls with ⟨hsucceeds, hresize⟩ | ⟨hfails, hthrown, hdata⟩
  · rw [hresize]
    refine ⟨iff_of_true rfl hsucceeds, iff_of_true ?_ hsucceeds⟩
    have hlength : max file.length new_size
        = (file ++ List.replicate (new_size - file.length) 0).length := by
      rw [List.length_append, List.length_replicate]
      omega
    rw [hlength]
    exact stillUsable_of_mapped hvalid (List.prefix_append _ _)
  · refine ⟨iff_of_false hthrown hfails, iff_of_false ?_ hfails⟩
    rintro ⟨⟨length, hmapped, -⟩, -, -⟩
    exact hdata length hmapped

/-- One node is mapped. The file grows for node 1, and node 0 is still what it was. -/
theorem resize_usable_iff_second_node :
    (MMapHandler.mk 1120 (.mapped 1120)).Valid (List.replicate 1120 1) ∧
      StillUsable ⟨1120, .mapped 1120⟩ (List.replicate 1120 1)
        ((MMapHandler.mk 1120 (.mapped 1120)).resize (List.replicate 1120 1) 2176
          ⟨true, true, true, true⟩).handler
        ((MMapHandler.mk 1120 (.mapped 1120)).resize (List.replicate 1120 1) 2176
          ⟨true, true, true, true⟩).file := by
  have hvalid : (MMapHandler.mk 1120 (.mapped 1120)).Valid (List.replicate 1120 1) :=
    ⟨rfl, by rw [List.length_replicate]⟩
  exact ⟨hvalid, (resize_usable_iff hvalid 2176 ⟨true, true, true, true⟩).2.mpr
    ⟨rfl, rfl, fun _ => rfl, rfl⟩⟩

/-- One node is mapped, and the disk is full when node 1 is inserted. Node 0 could be read and now
faults, and so does the next insertion of node 1, which passes its check. -/
theorem failed_growth_unmaps_index :
    (MMapHandler.mk 1120 (.mapped 1120)).Valid (List.replicate 1120 1) ∧
    ∃ r, (MMapHandler.mk 1120 (.mapped 1120)).grow_for (List.replicate 1120 1) 1
        ⟨true, true, false, true⟩ = r ∧
      r.thrown = some (.runtime_error "Failed to resize file") ∧
      (MMapHandler.mk 1120 (.mapped 1120)).read_node (List.replicate 1120 1) 0
        = some (some (List.replicate 1056 1)) ∧
      r.handler.data = .null ∧ r.handler.read_node r.file 0 = none ∧
      slot_end 1 ≤ r.handler.file_size ∧ r.handler.node_bytes r.file 1 = none := by
  refine ⟨⟨rfl, by rw [List.length_replicate]⟩, _, rfl, ?_⟩
  decide +kernel

end NanoDB.Index
