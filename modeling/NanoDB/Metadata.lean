/-
`include/storage/metadata_store.hpp`: metadata strings in an append-only file.

The file is a sequence of records, a 32-bit length and the bytes; which id a record belongs
to is only in memory (`offsets_`). Reopening numbers the records in file order.

# The one awkward thing, named up front

A record that is the third of the file belongs to id 2 after reopening, whatever id it was
saved for: the source assumes that ids are saved in the order 0, 1, 2, and its callers do not
(an insert without metadata saves nothing, and a deleted id can be inserted again).
`metadata_survives_iff` says which sequences of calls the assumption covers.

The ids here are numbers of which the source says `int`. A shard's ids are the numbers of its
keys and start at 0; what becomes of an id that is negative as an `int` is `save_negative`.
-/
import Mathlib.Data.List.Perm.Subperm
import Mathlib.Data.List.Nodup
import NanoDB.Lib.LittleEndian
import NanoDB.Lib.Store
import NanoDB.RaftLog

set_option autoImplicit false

namespace NanoDB.Index

open Raft (Bytes)

/-- `MetadataHandler`. A slot of `offsets_` is `{offset, length}`; the vector is as long as
needed, and every slot that was not set is `{0, 0}`. -/
structure MetadataHandler where
  file : Bytes := []
  offsets : Store (ℕ × ℕ) := []
deriving DecidableEq, Repr

def MetadataHandler.save_metadata (m : MetadataHandler) (id : ℕ) (metadata : Bytes) :
    MetadataHandler :=
  if metadata = [] then m
  else
    { file := m.file ++ (LittleEndian.encode 4 metadata.length ++ metadata)
      offsets := m.offsets.set id (m.file.length, metadata.length) }

/-- `save_metadata` of an id that is negative as an `int`, and not above -1000: the record is
written, and then `offsets_.resize` throws. -/
def MetadataHandler.save_negative (m : MetadataHandler) (metadata : Bytes) : MetadataHandler :=
  { m with file := m.file ++ (LittleEndian.encode 4 metadata.length ++ metadata) }

def MetadataHandler.get_metadata (m : MetadataHandler) (id : ℕ) : Bytes :=
  let slot := m.offsets.get (0, 0) id
  if slot.2 = 0 then []
  else
    let data := (m.file.drop (slot.1 + 4)).take slot.2
    -- a short read is reported and answered with the empty string
    if data.length = slot.2 then data else []

/-- The loop of `rebuild_index` at `offset`. -/
def MetadataHandler.rebuild_index (file : Bytes) : ℕ → ℕ → ℕ → Store (ℕ × ℕ) → Store (ℕ × ℕ)
  | 0, _, _, offsets => offsets
  | fuel + 1, offset, current_id, offsets =>
      if file.length < offset + 4 then offsets
      else
        let len := LittleEndian.decode ((file.drop offset).take 4)
        MetadataHandler.rebuild_index file fuel (offset + 4 + len) (current_id + 1)
          (offsets.set current_id (offset, len))

def MetadataHandler.open_file (file : Bytes) : MetadataHandler :=
  { file := file, offsets := MetadataHandler.rebuild_index file file.length 0 0 [] }

/-! ## What is saved is what is read -/

/-- Every slot in use points into the file. -/
def MetadataHandler.Wf (m : MetadataHandler) : Prop :=
  ∀ id, (m.offsets.get (0, 0) id).1 + 4 + (m.offsets.get (0, 0) id).2 ≤ m.file.length ∨
    (m.offsets.get (0, 0) id).2 = 0

theorem save_metadata_wf {m : MetadataHandler} (hm : m.Wf) (id : ℕ) (metadata : Bytes) :
    (m.save_metadata id metadata).Wf := by
  unfold MetadataHandler.save_metadata
  by_cases hmd : metadata = []
  · rw [if_pos hmd]
    exact hm
  rw [if_neg hmd]
  intro j
  dsimp only
  rw [Store.get_set, List.length_append, List.length_append, LittleEndian.length_encode]
  by_cases hj : j = id
  · rw [if_pos hj]
    left
    dsimp only
    omega
  · rw [if_neg hj]
    exact (hm j).imp (fun h => by omega) (fun h => h)

theorem get_save_self (m : MetadataHandler) (id : ℕ) {metadata : Bytes} (h : metadata ≠ []) :
    (m.save_metadata id metadata).get_metadata id = metadata := by
  have hpos : ¬ metadata.length = 0 := fun h' => h (List.length_eq_zero_iff.mp h')
  have hread : ((m.file ++ (LittleEndian.encode 4 metadata.length ++ metadata)).drop
      (m.file.length + 4)).take metadata.length = metadata := by
    rw [← List.append_assoc, List.drop_left' (by simp), List.take_length]
  unfold MetadataHandler.save_metadata MetadataHandler.get_metadata
  rw [if_neg h]
  dsimp only
  rw [Store.get_set_self]
  dsimp only
  rw [hread, if_neg hpos, if_pos rfl]

/-- Records are appended: a new one leaves what the slots point to alone. -/
theorem get_save_negative {m : MetadataHandler} (hm : m.Wf) (metadata : Bytes) (j : ℕ) :
    (m.save_negative metadata).get_metadata j = m.get_metadata j := by
  unfold MetadataHandler.save_negative MetadataHandler.get_metadata
  dsimp only
  rcases hm j with hin | hzero
  · rw [List.drop_append_of_le_length (by omega), List.take_append_of_le_length]
    rw [List.length_drop]
    omega
  · rw [if_pos hzero, if_pos hzero]

theorem save_negative_wf {m : MetadataHandler} (hm : m.Wf) (metadata : Bytes) :
    (m.save_negative metadata).Wf := by
  intro j
  unfold MetadataHandler.save_negative
  dsimp only
  rw [List.length_append]
  exact (hm j).imp_left (fun h => by omega)

theorem get_save_ne {m : MetadataHandler} (hm : m.Wf) {id j : ℕ} (metadata : Bytes) (h : j ≠ id) :
    (m.save_metadata id metadata).get_metadata j = m.get_metadata j := by
  unfold MetadataHandler.save_metadata
  by_cases hmd : metadata = []
  · rw [if_pos hmd]
  rw [if_neg hmd, ← get_save_negative hm metadata j]
  unfold MetadataHandler.get_metadata
  dsimp only
  rw [Store.get_set_ne _ _ _ h]
  rfl

/-- Saving the empty string does nothing. -/
theorem save_metadata_nil (m : MetadataHandler) (id : ℕ) : m.save_metadata id [] = m :=
  if_pos rfl

/-! ## Reopening -/

/-- The file is a sequence of complete records. -/
def MetadataHandler.Recorded (m : MetadataHandler) : Prop :=
  ∃ records : List Bytes, (∀ r ∈ records, r.length < 2 ^ 32) ∧
    m.file = (records.map (fun r => LittleEndian.encode 4 r.length ++ r)).flatten

theorem save_metadata_recorded {m : MetadataHandler} (hm : m.Recorded) (id : ℕ) {metadata : Bytes}
    (hlen : metadata.length < 2 ^ 32) : (m.save_metadata id metadata).Recorded := by
  unfold MetadataHandler.save_metadata
  by_cases hmd : metadata = []
  · rw [if_pos hmd]
    exact hm
  rw [if_neg hmd]
  obtain ⟨records, hshort, hfile⟩ := hm
  refine ⟨records ++ [metadata], fun r hr => ?_, ?_⟩
  · rcases List.mem_append.mp hr with hr | hr
    · exact hshort r hr
    · exact List.mem_singleton.mp hr ▸ hlen
  · rw [hfile]
    simp

/-- The slots that `rebuild_index` sets point into the file. -/
theorem rebuild_index_wf (file : Bytes) (fuel : ℕ) :
    ∀ (offset current_id : ℕ) (offsets : Store (ℕ × ℕ)) (records : List Bytes),
      (∀ r ∈ records, r.length < 2 ^ 32) →
      file.drop offset = (records.map (fun r => LittleEndian.encode 4 r.length ++ r)).flatten →
      MetadataHandler.Wf ⟨file, offsets⟩ →
      MetadataHandler.Wf
        ⟨file, MetadataHandler.rebuild_index file fuel offset current_id offsets⟩ := by
  induction fuel with
  | zero =>
      intro _ _ _ _ _ _ hwf
      exact hwf
  | succ fuel ih =>
      intro offset current_id offsets records hshort hrest hwf
      rw [MetadataHandler.rebuild_index]
      by_cases hend : file.length < offset + 4
      · rw [if_pos hend]
        exact hwf
      rw [if_neg hend]
      cases records with
      | nil =>
          -- no record left, but four more bytes in the file
          have hlen := congrArg List.length hrest
          rw [List.length_drop, List.map_nil, List.flatten_nil, List.length_nil] at hlen
          omega
      | cons r records =>
          have hr := hshort r List.mem_cons_self
          rw [List.map_cons, List.flatten_cons, List.append_assoc] at hrest
          -- the four bytes at `offset` are the length of the next record
          have hdecode : LittleEndian.decode ((file.drop offset).take 4) = r.length := by
            rw [hrest, LittleEndian.take_encode, LittleEndian.decode_encode_of_lt (by omega)]
          have hlen := congrArg List.length hrest
          rw [List.length_drop, List.length_append, List.length_append,
            LittleEndian.length_encode] at hlen
          dsimp only
          rw [hdecode]
          refine ih _ _ _ records (fun r' hr' => hshort r' (List.mem_cons_of_mem _ hr')) ?_ ?_
          · rw [← List.drop_drop, ← List.drop_drop, hrest, LittleEndian.drop_encode,
              List.drop_left' rfl]
          · intro j
            dsimp only
            rw [Store.get_set]
            by_cases hj : j = current_id
            · rw [if_pos hj]
              left
              dsimp only
              omega
            · rw [if_neg hj]
              exact hwf j

theorem open_file_wf {m : MetadataHandler} (hm : m.Recorded) :
    (MetadataHandler.open_file m.file).Wf := by
  obtain ⟨records, hshort, hfile⟩ := hm
  exact rebuild_index_wf m.file _ 0 0 [] records hshort hfile (fun _ => Or.inr rfl)

/-- Reopening gives the records in file order to the ids from `current_id` on. -/
theorem rebuild_index_get (file : Bytes) (records : List Bytes) :
    ∀ (fuel offset current_id : ℕ) (offsets : Store (ℕ × ℕ)), records.length ≤ fuel →
      (∀ r ∈ records, r.length < 2 ^ 32) →
      file.drop offset = (records.map (fun r => LittleEndian.encode 4 r.length ++ r)).flatten →
      ∀ j, (⟨file, MetadataHandler.rebuild_index file fuel offset current_id offsets⟩ :
          MetadataHandler).get_metadata j
        = if j < current_id then (⟨file, offsets⟩ : MetadataHandler).get_metadata j
          else (records[j - current_id]?).getD
            ((⟨file, offsets⟩ : MetadataHandler).get_metadata j) := by
  induction records with
  | nil =>
      intro fuel offset current_id offsets _ _ hrest j
      have hend : file.length < offset + 4 := by
        have hlen := congrArg List.length hrest
        rw [List.length_drop, List.map_nil, List.flatten_nil, List.length_nil] at hlen
        omega
      have hstop : MetadataHandler.rebuild_index file fuel offset current_id offsets = offsets := by
        cases fuel with
        | zero => rfl
        | succ fuel => rw [MetadataHandler.rebuild_index, if_pos hend]
      rw [hstop]
      split <;> rfl
  | cons r records ih =>
      intro fuel offset current_id offsets hfuel hshort hrest j
      obtain ⟨fuel, rfl⟩ : ∃ f, fuel = f + 1 := ⟨fuel - 1, by rw [List.length_cons] at hfuel; omega⟩
      rw [List.length_cons] at hfuel
      have hr := hshort r List.mem_cons_self
      rw [List.map_cons, List.flatten_cons, List.append_assoc] at hrest
      have hlen := congrArg List.length hrest
      rw [List.length_drop, List.length_append, List.length_append,
        LittleEndian.length_encode] at hlen
      have hdecode : LittleEndian.decode ((file.drop offset).take 4) = r.length := by
        rw [hrest, LittleEndian.take_encode, LittleEndian.decode_encode_of_lt (by omega)]
      have hnext : file.drop (offset + 4 + r.length)
          = (records.map (fun r => LittleEndian.encode 4 r.length ++ r)).flatten := by
        rw [← List.drop_drop, ← List.drop_drop, hrest, LittleEndian.drop_encode,
          List.drop_left' rfl]
      rw [MetadataHandler.rebuild_index, if_neg (by omega)]
      dsimp only
      rw [hdecode, ih fuel _ _ _ (by omega) (fun r' hr' => hshort r' (List.mem_cons_of_mem _ hr'))
        hnext j]
      -- the record that was just read belongs to `current_id`
      rcases Nat.lt_trichotomy j current_id with hlt | rfl | hgt
      · rw [if_pos (by omega), if_pos hlt]
        unfold MetadataHandler.get_metadata
        dsimp only
        rw [Store.get_set_ne _ _ _ (by omega)]
      · have hread : ((file.drop (offset + 4)).take r.length) = r := by
          rw [← List.drop_drop, hrest, LittleEndian.drop_encode, List.take_left' rfl]
        rw [if_pos (by omega), if_neg (by omega), Nat.sub_self]
        unfold MetadataHandler.get_metadata
        dsimp only
        rw [Store.get_set_self]
        dsimp only
        rw [hread, if_pos rfl]
        split
        · exact (List.length_eq_zero_iff.mp (by assumption)).symm
        · rfl
      · have hsame :
            (⟨file, offsets.set current_id (offset, r.length)⟩ : MetadataHandler).get_metadata j
              = (⟨file, offsets⟩ : MetadataHandler).get_metadata j := by
          unfold MetadataHandler.get_metadata
          dsimp only
          rw [Store.get_set_ne _ _ _ (by omega)]
        rw [if_neg (by omega), if_neg (by omega), hsame,
          show j - current_id = j - (current_id + 1) + 1 by omega, List.getElem?_cons_succ]

/-- **What is read after reopening** a file of complete records: the record whose number is the
id. -/
theorem open_file_get {file : Bytes} {records : List Bytes}
    (hshort : ∀ r ∈ records, r.length < 2 ^ 32)
    (hfile : file = (records.map (fun r => LittleEndian.encode 4 r.length ++ r)).flatten) (id : ℕ) :
    (MetadataHandler.open_file file).get_metadata id = (records[id]?).getD [] := by
  have hfuel : records.length ≤ file.length := by
    rw [hfile]
    clear hfile hshort
    induction records with
    | nil => exact Nat.zero_le _
    | cons r records ih =>
        rw [List.map_cons, List.flatten_cons, List.length_append, List.length_append,
          LittleEndian.length_encode, List.length_cons]
        omega
  unfold MetadataHandler.open_file
  rw [rebuild_index_get file records file.length 0 0 [] hfuel hshort hfile id, if_neg (by omega)]
  rfl

/-! ## When metadata survives -/

/-- The handler of a new file after some calls of `save_metadata`. -/
def saved (saves : List (ℕ × Bytes)) : MetadataHandler :=
  saves.foldl (fun m s => m.save_metadata s.1 s.2) {}

/-- The string last saved for an id, empty if there is none. -/
def last_saved (saves : List (ℕ × Bytes)) (id : ℕ) : Bytes :=
  ((saves.reverse.find? (fun s => decide (s.1 = id))).map Prod.snd).getD []

theorem last_saved_concat (saves : List (ℕ × Bytes)) (s : ℕ × Bytes) (id : ℕ) :
    last_saved (saves ++ [s]) id = if s.1 = id then s.2 else last_saved saves id := by
  unfold last_saved
  rw [List.reverse_append, List.reverse_singleton, List.singleton_append, List.find?_cons]
  by_cases h : s.1 = id
  · rw [if_pos h, decide_eq_true h]
    rfl
  · rw [if_neg h, decide_eq_false h]

theorem saved_concat (saves : List (ℕ × Bytes)) (s : ℕ × Bytes) :
    saved (saves ++ [s]) = (saved saves).save_metadata s.1 s.2 := by
  rw [saved, List.foldl_append]
  rfl

/-- Every run writes its strings one after the other, and reads the last one of each id. -/
theorem saved_spec (saves : List (ℕ × Bytes)) (hne : ∀ s ∈ saves, s.2 ≠ []) :
    (saved saves).Wf ∧
      (saved saves).file
        = ((saves.map Prod.snd).map (fun r => LittleEndian.encode 4 r.length ++ r)).flatten ∧
      ∀ id, (saved saves).get_metadata id = last_saved saves id := by
  induction saves using List.reverseRecOn with
  | nil => exact ⟨fun _ => Or.inr rfl, rfl, fun _ => rfl⟩
  | append_singleton saves s ih =>
      obtain ⟨hwf, hfile, hget⟩ := ih (fun t ht => hne t (List.mem_append_left _ ht))
      have hs : s.2 ≠ [] := hne s (List.mem_append_right _ (List.mem_singleton_self s))
      rw [saved_concat]
      refine ⟨save_metadata_wf hwf _ _, ?_, fun id => ?_⟩
      · rw [MetadataHandler.save_metadata, if_neg hs, hfile]
        simp
      · rw [last_saved_concat]
        by_cases h : s.1 = id
        · rw [if_pos h, ← h]
          exact get_save_self _ _ hs
        · rw [if_neg h, get_save_ne hwf _ (Ne.symm h), hget]

/-- The `n` calls are for the ids below `n`, each once, and the string saved for an id is the one
of the call with its number. With distinct strings: the calls come in the order of the ids. -/
def InFileOrder (saves : List (ℕ × Bytes)) : Prop :=
  (saves.map Prod.fst).Perm (List.range saves.length) ∧
    ∀ s ∈ saves, (saves[s.1]?).map Prod.snd = some s.2

/-- An id that was saved once. -/
theorem last_saved_of_nodup {saves : List (ℕ × Bytes)} (hnodup : (saves.map Prod.fst).Nodup)
    {s : ℕ × Bytes} (hs : s ∈ saves) : last_saved saves s.1 = s.2 := by
  have hfind : saves.reverse.find? (fun t => decide (t.1 = s.1)) = some s := by
    cases h : saves.reverse.find? (fun t => decide (t.1 = s.1)) with
    | none =>
        have := List.find?_eq_none.mp h s (List.mem_reverse.mpr hs)
        simp at this
    | some t =>
        have hid : t.1 = s.1 := by simpa using List.find?_some h
        have ht : t ∈ saves := List.mem_reverse.mp (List.mem_of_find?_eq_some h)
        rw [List.inj_on_of_nodup_map hnodup ht hs hid]
  rw [last_saved, hfind]
  rfl

theorem last_saved_ne_nil {saves : List (ℕ × Bytes)} {id : ℕ} (h : last_saved saves id ≠ []) :
    id ∈ saves.map Prod.fst := by
  unfold last_saved at h
  cases hfind : saves.reverse.find? (fun t => decide (t.1 = id)) with
  | none =>
      rw [hfind] at h
      exact absurd rfl h
  | some t =>
      have hid : t.1 = id := by simpa using List.find?_some hfind
      exact hid ▸ List.mem_map_of_mem (List.mem_reverse.mp (List.mem_of_find?_eq_some hfind))

/-- The strings in file order are the strings of the ids. -/
theorem in_file_order_iff (saves : List (ℕ × Bytes)) (hne : ∀ s ∈ saves, s.2 ≠ []) :
    (∀ id, ((saves.map Prod.snd)[id]?).getD [] = last_saved saves id) ↔ InFileOrder saves := by
  constructor
  · intro h
    -- every number of a call is an id that was saved
    have hsub : (List.range saves.length).Subset (saves.map Prod.fst) := by
      intro id hid
      have hlt : id < saves.length := List.mem_range.mp hid
      apply last_saved_ne_nil
      rw [← h id, List.getElem?_map, List.getElem?_eq_getElem hlt]
      exact hne _ (List.getElem_mem hlt)
    have hperm : (List.range saves.length).Perm (saves.map Prod.fst) :=
      (List.nodup_range.subperm hsub).perm_of_length_le (by simp)
    have hnodup : (saves.map Prod.fst).Nodup := hperm.nodup_iff.mp List.nodup_range
    refine ⟨hperm.symm, fun s hs => ?_⟩
    have hlt : s.1 < saves.length :=
      List.mem_range.mp (hperm.mem_iff.mpr (List.mem_map_of_mem hs))
    have hstring := h s.1
    rw [last_saved_of_nodup hnodup hs, List.getElem?_map, List.getElem?_eq_getElem hlt] at hstring
    rw [List.getElem?_eq_getElem hlt]
    exact congrArg some hstring
  · rintro ⟨hperm, hstring⟩ id
    have hnodup : (saves.map Prod.fst).Nodup := hperm.nodup_iff.mpr List.nodup_range
    by_cases hid : id < saves.length
    · obtain ⟨s, hs, rfl⟩ := List.mem_map.mp (hperm.mem_iff.mpr (List.mem_range.mpr hid))
      rw [last_saved_of_nodup hnodup hs, List.getElem?_map, hstring s hs]
      rfl
    · rw [List.getElem?_map, List.getElem?_eq_none (not_lt.mp hid)]
      by_contra hsome
      exact hid (List.mem_range.mp (hperm.mem_iff.mp (last_saved_ne_nil (Ne.symm hsome))))

/-- **When metadata survives reopening.** The records carry no id, so it does exactly when the
calls came in file order. -/
theorem metadata_survives_iff (saves : List (ℕ × Bytes)) (hne : ∀ s ∈ saves, s.2 ≠ [])
    (hshort : ∀ s ∈ saves, s.2.length < 2 ^ 32) :
    (∀ id, (MetadataHandler.open_file (saved saves).file).get_metadata id
        = (saved saves).get_metadata id ∧
      (saved saves).get_metadata id = last_saved saves id) ↔ InFileOrder saves := by
  obtain ⟨-, hfile, hget⟩ := saved_spec saves hne
  have hshort' : ∀ r ∈ saves.map Prod.snd, r.length < 2 ^ 32 := by
    intro r hr
    obtain ⟨s, hs, rfl⟩ := List.mem_map.mp hr
    exact hshort s hs
  rw [← in_file_order_iff saves hne]
  apply forall_congr'
  intro id
  rw [open_file_get hshort' hfile, hget]
  exact and_iff_left rfl

/-- The ids in order. -/
theorem metadata_survives_iff_in_order :
    InFileOrder [(0, [97]), (1, [98])] ∧
    (MetadataHandler.open_file (saved [(0, [97]), (1, [98])]).file).get_metadata 1
      = (saved [(0, [97]), (1, [98])]).get_metadata 1 := by
  have hcond : InFileOrder [(0, [97]), (1, [98])] := by
    unfold InFileOrder
    decide
  exact ⟨hcond, ((metadata_survives_iff [(0, [97]), (1, [98])] (by decide) (by decide)).mpr hcond
    1).1⟩

/-- Id 0 was inserted without metadata, id 1 with some. After reopening it belongs to id 0. -/
theorem metadata_moves_to_another_id :
    (saved [(1, [97])]).get_metadata 1 = [97] ∧ (saved [(1, [97])]).get_metadata 0 = [] ∧
    (MetadataHandler.open_file (saved [(1, [97])]).file).get_metadata 1 = [] ∧
    (MetadataHandler.open_file (saved [(1, [97])]).file).get_metadata 0 = [97] := by
  decide

end NanoDB.Index
