/-
`cluster/id_map_store.hpp` after a torn append.

`persist` appends the length of an id and then its bytes. A process that is killed in between
leaves a part of a record at the end of the file, and `rebuild_index` stops in front of it
(`open_torn`). The stream still holds those bytes: `persist` seeks to the end, so the next
records follow them, and the next `open_file` takes the torn length for the length of an id
that reaches into those records.

The argument is that every file is, in one way only, a list of records and a rest that starts
with no record (`exists_records`, `records_unique`). The second reopening reads the ids that
were assigned exactly if the torn bytes in front of the new records are the same bytes as some
rest behind them.
-/
import NanoDB.IdMap

set_option autoImplicit false

namespace NanoDB.Index

open Raft (Bytes)
open LittleEndian

/-! ## Files are records and a rest -/

/-- There is no complete record at the front: the length is cut, or the bytes behind it. -/
def Incomplete (rest : Bytes) : Prop :=
  rest.length < 4 ∨ (rest.drop 4).length < decode (rest.take 4)

instance (rest : Bytes) : Decidable (Incomplete rest) :=
  inferInstanceAs (Decidable (_ ∨ _))

/-- The records of these ids, one after the other. -/
def records_of (xs : List Bytes) : Bytes := (xs.map record).flatten

theorem records_of_cons (x : Bytes) (xs : List Bytes) :
    records_of (x :: xs) = record x ++ records_of xs := by
  rw [records_of, List.map_cons, List.flatten_cons]
  rfl

theorem records_of_append (xs ys : List Bytes) :
    records_of (xs ++ ys) = records_of xs ++ records_of ys := by
  rw [records_of, List.map_append, List.flatten_append]
  rfl

theorem length_records (xs : List Bytes) : xs.length ≤ (records_of xs).length := by
  induction xs with
  | nil => simp
  | cons x xs ih =>
      rw [records_of_cons, List.length_append, List.length_cons, record, List.length_append,
        length_encode]
      omega

theorem rebuild_incomplete {rest : Bytes} (hrest : Incomplete rest) (fuel : ℕ) (m : IdMapStore) :
    IdMapStore.rebuild_index fuel rest m = m := by
  cases fuel with
  | zero => rfl
  | succ fuel =>
      rw [IdMapStore.rebuild_index]
      rcases hrest with hlen | hbody
      · rw [if_pos hlen]
      · simp only [if_pos hbody, ite_self]

/-- The loop reads the records and stops at the rest. -/
theorem rebuild_records_rest {xs : List Bytes} (hxs : ∀ x ∈ xs, x.length < 2 ^ 32) {rest : Bytes}
    (hrest : Incomplete rest) : ∀ (fuel : ℕ) (m : IdMapStore), xs.length ≤ fuel →
      IdMapStore.rebuild_index fuel (records_of xs ++ rest) m = xs.foldl IdMapStore.push m := by
  induction xs with
  | nil =>
      intro fuel m _
      exact rebuild_incomplete hrest fuel m
  | cons x xs ih =>
      intro fuel m hfuel
      rw [List.length_cons] at hfuel
      obtain ⟨fuel, rfl⟩ : ∃ f, fuel = f + 1 := ⟨fuel - 1, by omega⟩
      rw [records_of_cons, List.append_assoc, rebuild_record (hxs x List.mem_cons_self),
        List.foldl_cons]
      exact ih (fun y hy => hxs y (List.mem_cons_of_mem x hy)) fuel (m.push x) (by omega)

/-- **A torn tail is left out.** -/
theorem open_torn {xs : List Bytes} (hxs : ∀ x ∈ xs, x.length < 2 ^ 32) {rest : Bytes}
    (hrest : Incomplete rest) :
    IdMapStore.open_file (records_of xs ++ rest)
      = { IdMapStore.of xs with file := records_of xs ++ rest } := by
  have hfuel : xs.length ≤ (records_of xs ++ rest).length := by
    rw [List.length_append]
    exact (length_records xs).trans (Nat.le_add_right _ _)
  rw [IdMapStore.open_file, rebuild_records_rest hxs hrest _ _ hfuel]
  rfl

/-- A file with a complete record at the front is that record and the bytes behind it. -/
theorem record_of_complete {bytes : Bytes} (h : ¬ Incomplete bytes) :
    ∃ x rest, bytes = record x ++ rest ∧ x.length < 2 ^ 32 ∧ rest.length < bytes.length := by
  rw [Incomplete, not_or, not_lt, not_lt] at h
  obtain ⟨hhead, hbody⟩ := h
  have hfour : (bytes.take 4).length = 4 := by rw [List.length_take, min_eq_left hhead]
  have hlt : decode (bytes.take 4) < 2 ^ 32 := by
    have := decode_lt (bytes.take 4)
    rw [hfour] at this
    omega
  set len := decode (bytes.take 4) with hlen
  have hx : ((bytes.drop 4).take len).length = len := by
    rw [List.length_take, min_eq_left hbody]
  have hcode : encode 4 len = bytes.take 4 := by
    rw [hlen]
    have := encode_decode (bytes.take 4)
    rwa [hfour] at this
  refine ⟨(bytes.drop 4).take len, (bytes.drop 4).drop len, ?_, by rw [hx]; exact hlt, ?_⟩
  · rw [record_short (by rw [hx]; exact hlt), hx, hcode, List.append_assoc, List.take_append_drop,
      List.take_append_drop]
  · rw [List.length_drop, List.length_drop]
    omega

/-- **Every file is records and a rest.** The induction is on the length of the file. -/
theorem exists_records (bytes : Bytes) :
    ∃ xs rest, bytes = records_of xs ++ rest ∧ (∀ x ∈ xs, x.length < 2 ^ 32) ∧
      Incomplete rest := by
  induction hn : bytes.length using Nat.strong_induction_on generalizing bytes with
  | _ n ih =>
      by_cases hbytes : Incomplete bytes
      · exact ⟨[], bytes, rfl, by simp, hbytes⟩
      · obtain ⟨x, tail, rfl, hx, hlt⟩ := record_of_complete hbytes
        obtain ⟨xs, rest, rfl, hxs, hrest⟩ := ih _ (hn ▸ hlt) tail rfl
        refine ⟨x :: xs, rest, ?_, ?_, hrest⟩
        · rw [records_of_cons, List.append_assoc]
        · intro y hy
          rcases List.mem_cons.mp hy with rfl | hy
          · exact hx
          · exact hxs y hy

/-- **And in one way only**, since `open_file` finds the ids. -/
theorem records_unique {xs ys : List Bytes} (hxs : ∀ x ∈ xs, x.length < 2 ^ 32)
    (hys : ∀ y ∈ ys, y.length < 2 ^ 32) {rest rest' : Bytes} (hrest : Incomplete rest)
    (hrest' : Incomplete rest') (h : records_of xs ++ rest = records_of ys ++ rest') : xs = ys := by
  have hopen := congrArg IdMapStore.reverse (open_torn hxs hrest)
  rw [h, open_torn hys hrest'] at hopen
  change (IdMapStore.of ys).reverse = (IdMapStore.of xs).reverse at hopen
  rw [of_reverse, of_reverse] at hopen
  exact hopen.symm

/-- A proper part of a record is not a complete one. -/
theorem incomplete_of_torn {torn x : Bytes} (hpart : torn <+: record x) (hne : torn ≠ record x) :
    Incomplete torn := by
  have hlt : torn.length < (record x).length :=
    lt_of_le_of_ne hpart.length_le (fun h => hne (hpart.eq_of_length h))
  by_cases hfour : torn.length < 4
  · exact Or.inl hfour
  · -- the length is complete, so it is the one of the record
    have hhead : torn.take 4 = encode 4 x.length := by
      rw [List.prefix_iff_eq_take.mp hpart, List.take_take, min_eq_left (not_lt.mp hfour), record,
        take_encode]
    right
    rw [hhead, decode_encode, List.length_drop]
    rw [record, List.length_append, length_encode, List.length_take] at hlt
    omega

/-! ## Assigning behind the torn bytes -/

/-- The ids of a list of `assign` calls that get a record, given those that have one. -/
def new_ids : List Bytes → List Bytes → List Bytes
  | _, [] => []
  | known, x :: ids =>
      if known.contains x then new_ids known ids else x :: new_ids (known ++ [x]) ids

/-- The store after these calls. -/
def assign_all (m : IdMapStore) (ids : List Bytes) : IdMapStore :=
  ids.foldl (fun m external_id => (m.assign external_id).1) m

/-- An id that was never pushed is not found. -/
theorem of_forward_eq_none (xs : List Bytes) (x : Bytes) :
    (IdMapStore.of xs).forward x = none ↔ x ∉ xs := by
  induction xs using List.reverseRecOn with
  | nil => simp [IdMapStore.of]
  | append_singleton xs y ih =>
      rw [of_append]
      dsimp only [IdMapStore.push]
      by_cases hxy : x = y
      · rw [hxy, Function.update_self]
        simp
      · rw [Function.update_of_ne hxy, ih]
        simp [hxy]

/-- **What the calls leave**, whatever is in the file: the new ids are pushed and their records
appended. -/
theorem assign_all_spec (ids : List Bytes) : ∀ (xs : List Bytes) (file : Bytes),
    assign_all { IdMapStore.of xs with file := file } ids
      = { IdMapStore.of (xs ++ new_ids xs ids) with
          file := file ++ records_of (new_ids xs ids) } := by
  induction ids with
  | nil =>
      intro xs file
      rw [new_ids, List.append_nil]
      change ({ IdMapStore.of xs with file := file } : IdMapStore)
        = { IdMapStore.of xs with file := file ++ [] }
      rw [List.append_nil]
  | cons x ids ih =>
      intro xs file
      rw [new_ids]
      by_cases hx : x ∈ xs
      · -- the id is known, and the store stays as it is
        rw [if_pos (List.contains_iff_mem.mpr hx), ← ih xs file]
        obtain ⟨i, hi⟩ := Option.ne_none_iff_exists'.mp
          (fun h => (of_forward_eq_none xs x).mp h hx)
        have hsame : (IdMapStore.assign { IdMapStore.of xs with file := file } x).1
            = { IdMapStore.of xs with file := file } := by
          simp only [IdMapStore.assign, hi]
        rw [assign_all, List.foldl_cons, hsame, assign_all]
      · rw [if_neg (fun h => hx (List.contains_iff_mem.mp h)), records_of_cons,
          ← List.append_assoc file, List.append_cons, ← ih (xs ++ [x]) (file ++ record x)]
        have hnone := (of_forward_eq_none xs x).mpr hx
        have hpush : (IdMapStore.assign { IdMapStore.of xs with file := file } x).1
            = { IdMapStore.of (xs ++ [x]) with file := file ++ record x } := by
          simp only [IdMapStore.assign, hnone, of_append, IdMapStore.push]
        rw [assign_all, List.foldl_cons, hpush, assign_all]

/-- A call does not change the local id of an id that has one. -/
theorem assign_forward (m : IdMapStore) (x y : Bytes) {i : ℕ} (h : m.forward y = some i) :
    (m.assign x).1.forward y = some i := by
  unfold IdMapStore.assign
  cases hx : m.forward x with
  | some j => exact h
  | none =>
      have hne : y ≠ x := by
        rintro rfl
        rw [hx] at h
        exact absurd h (by simp)
      dsimp only [IdMapStore.push]
      rw [Function.update_of_ne hne, h]

theorem assign_all_forward (ids : List Bytes) : ∀ (m : IdMapStore) {y : Bytes} {i : ℕ},
    m.forward y = some i → (assign_all m ids).forward y = some i := by
  induction ids with
  | nil =>
      intro m y i h
      exact h
  | cons x ids ih =>
      intro m y i h
      exact ih (m.assign x).1 (assign_forward m x y h)

/-- The two maps hold what the calls answered. -/
theorem assign_all_answers (m : IdMapStore) (before after : List Bytes) (x : Bytes) :
    (assign_all m (before ++ x :: after)).forward x
      = some ((assign_all m before).assign x).2.1 := by
  have hcut : assign_all m (before ++ x :: after)
      = assign_all ((assign_all m before).assign x).1 after := by
    rw [assign_all, List.foldl_append, List.foldl_cons]
    rfl
  rw [hcut]
  apply assign_all_forward
  unfold IdMapStore.assign
  cases hx : (assign_all m before).forward x with
  | some i => exact hx
  | none => simp [IdMapStore.push]

/-! ## The second reopening -/

/-- The torn bytes in front of the new records are the same bytes as some rest behind them. -/
def Repeats (torn news : Bytes) : Prop :=
  (torn ++ news).take news.length = news ∧ Incomplete ((torn ++ news).drop news.length)

instance (torn news : Bytes) : Decidable (Repeats torn news) :=
  inferInstanceAs (Decidable (_ ∧ _))

theorem repeats_iff (torn news : Bytes) :
    Repeats torn news ↔ ∃ rest, torn ++ news = news ++ rest ∧ Incomplete rest := by
  constructor
  · rintro ⟨htake, hrest⟩
    refine ⟨_, ?_, hrest⟩
    have hsplit := List.take_append_drop news.length (torn ++ news)
    rw [htake] at hsplit
    exact hsplit.symm
  · rintro ⟨rest, heq, hrest⟩
    rw [Repeats, heq, List.take_left' rfl, List.drop_left' rfl]
    exact ⟨rfl, hrest⟩

/-- The bytes between the old records and the end of the file are read as the new ids exactly
if these fit a record and the torn bytes do not matter. -/
theorem read_news_iff {torn : Bytes} {news ys : List Bytes} {rest : Bytes}
    (hys : ∀ y ∈ ys, y.length < 2 ^ 32) (hrest : Incomplete rest)
    (hfile : torn ++ records_of news = records_of ys ++ rest) :
    ys = news ↔ (∀ y ∈ news, y.length < 2 ^ 32) ∧ Repeats torn (records_of news) := by
  rw [repeats_iff]
  constructor
  · rintro rfl
    exact ⟨hys, rest, hfile, hrest⟩
  · rintro ⟨hshort, rest', heq, hrest'⟩
    exact records_unique hys hshort hrest hrest' (hfile.symm.trans heq)

theorem repeats_nil_left (news : Bytes) : Repeats [] news := by
  rw [repeats_iff]
  exact ⟨[], (List.append_nil news).symm, Or.inl (by simp)⟩

theorem repeats_nil_right {torn : Bytes} (h : Incomplete torn) : Repeats torn [] := by
  rw [repeats_iff]
  exact ⟨torn, by rw [List.append_nil, List.nil_append], h⟩

/-- **Recovery from a torn append, exactly.** The first reopening yields the mapping of the
complete records. After the calls that follow, the second one yields the mapping these calls
returned if nothing was torn or no id got a record; with torn bytes and new records it does so
only if the bytes happen to repeat. -/
theorem torn_append_recovers_iff (xs ids : List Bytes) (x torn : Bytes)
    (hxs : ∀ y ∈ xs, y.length < 2 ^ 32) (hpart : torn <+: record x) (hne : torn ≠ record x) :
    (((IdMapStore.open_file (records_of xs ++ torn)).forward = (IdMapStore.of xs).forward ∧
        (IdMapStore.open_file (records_of xs ++ torn)).reverse = xs) ∧
      (IdMapStore.open_file
          (assign_all (IdMapStore.open_file (records_of xs ++ torn)) ids).file).forward
        = (assign_all (IdMapStore.open_file (records_of xs ++ torn)) ids).forward ∧
      (IdMapStore.open_file
          (assign_all (IdMapStore.open_file (records_of xs ++ torn)) ids).file).reverse
        = (assign_all (IdMapStore.open_file (records_of xs ++ torn)) ids).reverse) ↔
    (∀ y ∈ new_ids xs ids, y.length < 2 ^ 32) ∧
      (torn = [] ∨ new_ids xs ids = [] ∨ Repeats torn (records_of (new_ids xs ids))) := by
  have htorn : Incomplete torn := incomplete_of_torn hpart hne
  obtain ⟨ys, rest, hfile, hys, hrest⟩ := exists_records (torn ++ records_of (new_ids xs ids))
  -- the second reopening finds `ys` behind the old records
  have hsecond : IdMapStore.open_file (records_of xs ++ torn ++ records_of (new_ids xs ids))
      = { IdMapStore.of (xs ++ ys) with
          file := records_of xs ++ torn ++ records_of (new_ids xs ids) } := by
    have hsplit : records_of xs ++ torn ++ records_of (new_ids xs ids)
        = records_of (xs ++ ys) ++ rest := by
      rw [List.append_assoc, hfile, records_of_append, List.append_assoc]
    have hall : ∀ y ∈ xs ++ ys, y.length < 2 ^ 32 := by
      intro y hy
      rcases List.mem_append.mp hy with hy | hy
      · exact hxs y hy
      · exact hys y hy
    rw [hsplit, open_torn hall hrest]
  have hcond : Repeats torn (records_of (new_ids xs ids)) ↔
      torn = [] ∨ new_ids xs ids = [] ∨ Repeats torn (records_of (new_ids xs ids)) := by
    constructor
    · intro h
      exact Or.inr (Or.inr h)
    · rintro (rfl | hnone | h)
      · exact repeats_nil_left _
      · rw [hnone]
        exact repeats_nil_right htorn
      · exact h
  rw [← hcond, ← read_news_iff hys hrest hfile, open_torn hxs htorn, assign_all_spec, hsecond]
  dsimp only
  rw [of_reverse, of_reverse, of_reverse]
  constructor
  · rintro ⟨-, -, hrev⟩
    exact List.append_cancel_left hrev
  · rintro rfl
    exact ⟨⟨rfl, rfl⟩, rfl, rfl⟩

/-- A torn record of two bytes, and then an id that is known and one that is new but empty: the
zero bytes happen to repeat. -/
theorem torn_append_recovers_iff_zero :
    (∀ y ∈ [[97]], y.length < 2 ^ 32) ∧
    (IdMapStore.open_file
      (assign_all (IdMapStore.open_file (records_of [[97]] ++ [0, 0])) [[97], []]).file).reverse
        = (assign_all (IdMapStore.open_file (records_of [[97]] ++ [0, 0])) [[97], []]).reverse :=
  ⟨by decide, ((torn_append_recovers_iff [[97]] [[97], []] [] [0, 0] (by decide) (by decide)
    (by decide)).mpr ⟨by decide, Or.inr (Or.inr (by decide))⟩).2.2⟩

/-- **The next id is lost.** The append of `hello` is torn after its first letter. After the
recovery `b` is assigned 0; the next restart does not find it, and has another id in slot 0. -/
theorem torn_append_shifts_ids :
    [5, 0, 0, 0, 104] <+: record [104, 101, 108, 108, 111] ∧
    [5, 0, 0, 0, 104] ≠ record [104, 101, 108, 108, 111] ∧
    ((IdMapStore.open_file [5, 0, 0, 0, 104]).assign [98]).2 = (0, true) ∧
    (IdMapStore.open_file
      ((IdMapStore.open_file [5, 0, 0, 0, 104]).assign [98]).1.file).lookup [98] = none ∧
    (IdMapStore.open_file
      ((IdMapStore.open_file [5, 0, 0, 0, 104]).assign [98]).1.file).reverse
        = [[104, 1, 0, 0, 0]] := by
  decide

end NanoDB.Index
