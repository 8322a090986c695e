/-
The two files of a Raft node, and what a crash inside `persist` leaves of them.

`PersistentState::persist` and `RaftLog::persist` open their file with `O_TRUNC` and then
call `write` once per field, so the file passes through every prefix of that sequence of
writes. `persist` is therefore modelled as the list of the write calls, `crashed` as the
contents after the first `k` of them, and `open_file` as the reader of the source.

# The one awkward thing, named up front

The reader cannot tell a torn file from a short log: a header that is cut off reads as the
empty log, a header whose snapshot bytes are missing reads as a snapshot *without* its
bytes, and records stop at the first incomplete one. `open_crashed` states exactly that,
and `crash_atomic_iff` reads off when it is the old or the new state. It is not when the
first write has not happened, unless one of the two states is the fresh one: the crash
window right after `O_TRUNC` forgets the term and the vote.
-/
import NanoDB.Lib.LittleEndian
import NanoDB.RaftNode

set_option autoImplicit false

namespace NanoDB.Raft

open LittleEndian

/-! ## Writing -/

/-- The contents of a file after `O_TRUNC` and the first `k` of the write calls. -/
def crashed (writes : List Bytes) (k : ℕ) : Bytes := (writes.take k).flatten

/-- `PersistentState::persist`: one write of twelve bytes. -/
def PersistentState.persist (s : PersistentState) : List Bytes :=
  [encode 8 s.current_term ++ encode_signed 4 s.voted_for]

def kMagic : ℕ := 0x4E414654

/-- What is written of a string: its length is stored in four bytes, and so many bytes
follow. -/
def written (s : Bytes) : Bytes := s.take (s.length % 2 ^ 32)

/-- The three writes of one entry. -/
def entry_writes (e : PersistedEntry) : List Bytes :=
  [encode 8 e.term, encode 4 e.command.length, written e.command]

/-- `RaftLog::persist`. -/
def RaftLog.persist (l : RaftLog) : List Bytes :=
  [encode 4 kMagic, encode 8 l.snapshot_last_index, encode 8 l.snapshot_last_term,
      encode 4 l.snapshot_data.length]
    ++ (if written l.snapshot_data = [] then [] else [written l.snapshot_data])
    ++ l.entries.flatMap entry_writes

/-! ## Reading -/

/-- `PersistentState::open_file`: the state, and the file afterwards (a missing or short
file is replaced by fresh defaults). -/
def PersistentState.open_file : Option Bytes → PersistentState × Bytes
  | some data =>
      let buf := data.take 12
      if buf.length = 12 then (⟨decode (buf.take 8), decode_signed 4 (buf.drop 8)⟩, data)
      else ({}, ({} : PersistentState).persist.flatten)
  | none => ({}, ({} : PersistentState).persist.flatten)

/-- The record loop of `RaftLog::open_file` on the bytes from `pos` on. Every record takes
at least twelve bytes, so the length of the file is fuel enough. -/
def read_entries : ℕ → Bytes → List PersistedEntry
  | 0, _ => []
  | fuel + 1, rest =>
      if rest.length < 12 then []
      else
        let term := decode (rest.take 8)
        let len := decode ((rest.drop 8).take 4)
        let rest := rest.drop 12
        if rest.length < len then []
        else ⟨term, rest.take len⟩ :: read_entries fuel (rest.drop len)

/-- `RaftLog::open_file`: the log, and the file afterwards. -/
def RaftLog.open_file : Option Bytes → RaftLog × Bytes
  | none => ({}, ({} : RaftLog).persist.flatten)
  | some data =>
      if 4 ≤ data.length ∧ decode (data.take 4) = kMagic then
        let rest := data.drop 4
        -- truncated header: start fresh
        if rest.length < 20 then ({}, ({} : RaftLog).persist.flatten)
        else
          let snapshot_last_index := decode (rest.take 8)
          let snapshot_last_term := decode ((rest.drop 8).take 8)
          let snap_len := decode ((rest.drop 16).take 4)
          let rest := rest.drop 20
          if rest.length < snap_len then
            -- the index and the term are already set, the data and the entries are not
            let l : RaftLog := ⟨[], snapshot_last_index, snapshot_last_term, []⟩
            (l, l.persist.flatten)
          else
            (⟨read_entries data.length (rest.drop snap_len), snapshot_last_index,
              snapshot_last_term, rest.take snap_len⟩, data)
      else (⟨read_entries data.length data, 0, 0, []⟩, data)

/-! ## The term and the vote -/

/-- The ranges of `uint64_t` and `int32_t`. -/
def PersistentState.InRange (s : PersistentState) : Prop :=
  s.current_term < 2 ^ 64 ∧ -2 ^ 31 ≤ s.voted_for ∧ s.voted_for < 2 ^ 31

/-- A file that was written completely reads back as it was. -/
theorem open_state_full {s : PersistentState} (h : s.InRange) :
    (PersistentState.open_file (some (s.persist.flatten))).1 = s := by
  obtain ⟨hterm, hlo, hhi⟩ := h
  unfold PersistentState.persist PersistentState.open_file
  have hlen : ((encode 8 s.current_term ++ encode_signed 4 s.voted_for).take 12).length = 12 := by
    simp
  have hall : (encode 8 s.current_term ++ encode_signed 4 s.voted_for).take 12
      = encode 8 s.current_term ++ encode_signed 4 s.voted_for := by
    apply List.take_of_length_le
    simp
  simp only [List.flatten_cons, List.flatten_nil, List.append_nil]
  rw [if_pos hlen, hall, take_encode, drop_encode, decode_encode_of_lt (by omega),
    decode_encode_signed (by omega) (by omega)]

/-- What `open_file` finds after a crash: the defaults before the write, the new state
after it. -/
theorem open_state_crashed {s : PersistentState} (h : s.InRange) (k : ℕ) :
    (PersistentState.open_file (some (crashed s.persist k))).1 = if k = 0 then {} else s := by
  by_cases hk : k = 0
  · subst hk
    rfl
  · rw [if_neg hk]
    have hwhole : crashed s.persist k = s.persist.flatten := by
      unfold crashed
      rw [List.take_of_length_le (by simp [PersistentState.persist]; omega)]
    rw [hwhole]
    exact open_state_full h

/-! ## The records of the log file -/

/-- The ranges of the `uint64_t` fields; strings may have any length. -/
def RaftLog.InRange (l : RaftLog) : Prop :=
  l.snapshot_last_index < 2 ^ 64 ∧ l.snapshot_last_term < 2 ^ 64 ∧ ∀ e ∈ l.entries, e.term < 2 ^ 64

/-- The entry a complete record stands for. -/
def written_entry (e : PersistedEntry) : PersistedEntry := ⟨e.term, written e.command⟩

/-- How many records are complete after the first `k` writes of the entries. A record needs
its three writes, or two when no command byte is to follow. -/
def whole_entries : List PersistedEntry → ℕ → ℕ
  | [], _ => 0
  | _ :: es, k + 3 => whole_entries es k + 1
  | e :: _, 2 => if written e.command = [] then 1 else 0
  | _ :: _, _ => 0

theorem decode_length (s : Bytes) : decode (encode 4 s.length) = (written s).length := by
  rw [decode_encode, written, List.length_take]
  have : s.length % 2 ^ 32 ≤ s.length := Nat.mod_le _ _
  omega

/-- Reading one complete record. -/
theorem read_entries_record (fuel : ℕ) {e : PersistedEntry} (he : e.term < 2 ^ 64) (rest : Bytes) :
    read_entries (fuel + 1)
        (encode 8 e.term ++ encode 4 e.command.length ++ written e.command ++ rest)
      = written_entry e :: read_entries fuel rest := by
  have hlong : ¬ (encode 8 e.term ++ encode 4 e.command.length ++ written e.command
      ++ rest).length < 12 := by
    simp only [List.length_append, length_encode]
    omega
  have hdrop : (encode 8 e.term ++ encode 4 e.command.length ++ written e.command ++ rest).drop 12
      = written e.command ++ rest := by
    rw [List.append_assoc, List.drop_append_of_le_length (by simp),
      List.drop_of_length_le (by simp), List.nil_append]
  have hterm : decode ((encode 8 e.term ++ encode 4 e.command.length ++ written e.command
      ++ rest).take 8) = e.term := by
    rw [List.append_assoc, List.append_assoc, take_encode, decode_encode_of_lt (by omega)]
  have hlen : decode (((encode 8 e.term ++ encode 4 e.command.length ++ written e.command
      ++ rest).drop 8).take 4) = (written e.command).length := by
    rw [List.append_assoc, List.append_assoc, drop_encode, take_encode, decode_length]
  rw [read_entries, if_neg hlong]
  simp only [hterm, hlen, hdrop]
  rw [if_neg (by simp)]
  rw [List.take_append_of_le_length (le_refl _), List.take_length,
    List.drop_append_of_le_length (le_refl _), List.drop_length, List.nil_append]
  rfl

/-- A record that is cut inside its header, or before its last command byte, ends the
loop. -/
theorem read_entries_short (fuel : ℕ) {rest : Bytes} (h : rest.length < 12) :
    read_entries fuel rest = [] := by
  cases fuel with
  | zero => rfl
  | succ fuel =>
      unfold read_entries
      rw [if_pos h]

theorem read_entries_cut_command (fuel : ℕ) (e : PersistedEntry) (part : Bytes)
    (hpart : part.length < (written e.command).length) :
    read_entries fuel (encode 8 e.term ++ encode 4 e.command.length ++ part) = [] := by
  cases fuel with
  | zero => rfl
  | succ fuel =>
      have hlen : decode (((encode 8 e.term ++ encode 4 e.command.length ++ part).drop 8).take 4)
          = (written e.command).length := by
        rw [List.append_assoc, drop_encode, take_encode, decode_length]
      have hrest : (encode 8 e.term ++ encode 4 e.command.length ++ part).drop 12 = part := by
        rw [List.drop_append_of_le_length (by simp), List.drop_of_length_le (by simp),
          List.nil_append]
      unfold read_entries
      rw [if_neg (by simp only [List.length_append, length_encode]; omega)]
      simp only [hlen, hrest]
      rw [if_pos hpart]

/-- The bytes after the first two writes of an entry, and after its three. -/
theorem crashed_two (e : PersistedEntry) (es : List PersistedEntry) :
    crashed ((e :: es).flatMap entry_writes) 2 = encode 8 e.term ++ encode 4 e.command.length := by
  simp [crashed, entry_writes]

theorem crashed_three (e : PersistedEntry) (es : List PersistedEntry) (k : ℕ) :
    crashed ((e :: es).flatMap entry_writes) (k + 3)
      = encode 8 e.term ++ encode 4 e.command.length ++ written e.command
        ++ crashed (es.flatMap entry_writes) k := by
  simp [crashed, entry_writes]

/-- **The record loop on a torn tail** returns the complete records. -/
theorem read_entries_crashed (es : List PersistedEntry) (hes : ∀ e ∈ es, e.term < 2 ^ 64) :
    ∀ k fuel, whole_entries es k ≤ fuel →
      read_entries fuel (crashed (es.flatMap entry_writes) k)
        = (es.take (whole_entries es k)).map written_entry := by
  induction es with
  | nil =>
      intro k fuel _
      unfold crashed
      simp only [List.flatMap_nil, List.take_nil, List.flatten_nil, List.map_nil]
      apply read_entries_short
      simp
  | cons e es ih =>
      intro k fuel hfuel
      have he := hes e List.mem_cons_self
      -- how many of the first record's three writes reached the file
      match k with
      | 0 =>
          apply read_entries_short
          simp [crashed]
      | 1 =>
          apply read_entries_short
          simp [crashed, entry_writes]
      | 2 =>
          rw [crashed_two]
          by_cases hnil : written e.command = []
          · -- no command byte is to follow: the record is complete after two writes
            simp only [whole_entries, if_pos hnil] at hfuel ⊢
            obtain ⟨fuel, rfl⟩ : ∃ f, fuel = f + 1 := ⟨fuel - 1, by omega⟩
            have hrec := read_entries_record fuel he []
            rw [hnil, List.append_nil, List.append_nil] at hrec
            rw [hrec, read_entries_short fuel (by simp)]
            simp
          · have hcut := read_entries_cut_command fuel e [] (List.length_pos_iff.mpr hnil)
            rw [List.append_nil] at hcut
            simp only [whole_entries, if_neg hnil]
            rw [hcut]
            simp
      | k + 3 =>
          simp only [whole_entries] at hfuel ⊢
          obtain ⟨fuel, rfl⟩ : ∃ f, fuel = f + 1 := ⟨fuel - 1, by omega⟩
          rw [crashed_three, read_entries_record fuel he,
            ih (fun e' he' => hes e' (List.mem_cons_of_mem e he')) k fuel (by omega)]
          rfl

/-- The fuel is enough: a complete record takes twelve bytes. -/
theorem whole_entries_le (es : List PersistedEntry) :
    ∀ k, whole_entries es k ≤ (crashed (es.flatMap entry_writes) k).length := by
  induction es with
  | nil =>
      intro k
      exact Nat.zero_le _
  | cons e es ih =>
      intro k
      match k with
      | 0 => exact Nat.zero_le _
      | 1 => exact Nat.zero_le _
      | 2 =>
          rw [crashed_two, List.length_append, length_encode, length_encode, whole_entries]
          split <;> omega
      | k + 3 =>
          have h := ih k
          rw [crashed_three, whole_entries]
          simp only [List.length_append, length_encode]
          omega

/-! ## The log file -/

/-- The log that is found after the first `k` writes of `l`. -/
def RaftLog.torn (l : RaftLog) (k : ℕ) : RaftLog :=
  if k < 4 then {}
  else if k = 4 ∧ written l.snapshot_data ≠ [] then
    ⟨[], l.snapshot_last_index, l.snapshot_last_term, []⟩
  else
    let header := if written l.snapshot_data = [] then 4 else 5
    ⟨(l.entries.take (whole_entries l.entries (k - header))).map written_entry,
      l.snapshot_last_index, l.snapshot_last_term, written l.snapshot_data⟩

/-- The bytes of a complete header. -/
def RaftLog.header (l : RaftLog) : Bytes :=
  encode 4 kMagic ++ encode 8 l.snapshot_last_index ++ encode 8 l.snapshot_last_term
    ++ encode 4 l.snapshot_data.length

theorem decode_magic : decode (encode 4 kMagic) = kMagic := decode_encode_of_lt (by decide)

/-- A file that ends inside the header reads as the empty log. -/
theorem open_short_header (rest : Bytes) (h : rest.length < 20) :
    (RaftLog.open_file (some (encode 4 kMagic ++ rest))).1 = {} := by
  unfold RaftLog.open_file
  have hmagic : 4 ≤ (encode 4 kMagic ++ rest).length ∧
      decode ((encode 4 kMagic ++ rest).take 4) = kMagic := by
    refine ⟨by simp, ?_⟩
    rw [take_encode, decode_magic]
  dsimp only
  rw [if_pos hmagic, drop_encode, if_pos h]

/-- Behind a complete header the reader takes the snapshot bytes, if they are all there,
and then the records. -/
theorem open_header {l : RaftLog} (hl : l.InRange) (tail : Bytes) :
    (RaftLog.open_file (some (l.header ++ tail))).1
      = if tail.length < (written l.snapshot_data).length then
          ⟨[], l.snapshot_last_index, l.snapshot_last_term, []⟩
        else
          ⟨read_entries (l.header ++ tail).length (tail.drop (written l.snapshot_data).length),
            l.snapshot_last_index, l.snapshot_last_term,
            tail.take (written l.snapshot_data).length⟩ := by
  obtain ⟨hidx, htrm, -⟩ := hl
  -- the header field by field, each where `open_file` looks for it
  have hassoc : l.header ++ tail = encode 4 kMagic ++ (encode 8 l.snapshot_last_index
      ++ (encode 8 l.snapshot_last_term ++ (encode 4 l.snapshot_data.length ++ tail))) := by
    simp only [RaftLog.header, List.append_assoc]
  have hmagic : 4 ≤ (l.header ++ tail).length ∧ decode ((l.header ++ tail).take 4) = kMagic := by
    refine ⟨by simp [RaftLog.header], ?_⟩
    rw [hassoc, take_encode, decode_magic]
  have hrest : (l.header ++ tail).drop 4 = encode 8 l.snapshot_last_index
      ++ (encode 8 l.snapshot_last_term ++ (encode 4 l.snapshot_data.length ++ tail)) := by
    rw [hassoc, drop_encode]
  have h16 : (encode 8 l.snapshot_last_index ++ (encode 8 l.snapshot_last_term
      ++ (encode 4 l.snapshot_data.length ++ tail))).drop 16
      = encode 4 l.snapshot_data.length ++ tail := by
    rw [show 16 = 8 + 8 from rfl, ← List.drop_drop, drop_encode, drop_encode]
  have h20 : (encode 8 l.snapshot_last_index ++ (encode 8 l.snapshot_last_term
      ++ (encode 4 l.snapshot_data.length ++ tail))).drop 20 = tail := by
    rw [show 20 = 16 + 4 from rfl, ← List.drop_drop, h16, drop_encode]
  have hdidx : decode (encode 8 l.snapshot_last_index) = l.snapshot_last_index :=
    decode_encode_of_lt (by omega)
  have hdtrm : decode (encode 8 l.snapshot_last_term) = l.snapshot_last_term :=
    decode_encode_of_lt (by omega)
  unfold RaftLog.open_file
  dsimp only
  rw [if_pos hmagic, hrest, if_neg (by simp only [List.length_append, length_encode]; omega), h16,
    h20, take_encode, drop_encode, take_encode, take_encode, hdidx, hdtrm, decode_length]
  by_cases hshort : tail.length < (written l.snapshot_data).length
  · rw [if_pos hshort, if_pos hshort]
  · rw [if_neg hshort, if_neg hshort]

/-- Without snapshot bytes the records follow the header at once. -/
theorem crashed_no_data {l : RaftLog} (hnil : written l.snapshot_data = []) (k : ℕ) :
    crashed l.persist (k + 4) = l.header ++ crashed (l.entries.flatMap entry_writes) k := by
  simp [crashed, RaftLog.persist, RaftLog.header, hnil]

theorem crashed_header_only {l : RaftLog} (hdata : written l.snapshot_data ≠ []) :
    crashed l.persist 4 = l.header ++ [] := by
  simp [crashed, RaftLog.persist, RaftLog.header, hdata]

theorem crashed_data {l : RaftLog} (hdata : written l.snapshot_data ≠ []) (k : ℕ) :
    crashed l.persist (k + 5) = l.header ++ (written l.snapshot_data
      ++ crashed (l.entries.flatMap entry_writes) k) := by
  simp [crashed, RaftLog.persist, RaftLog.header, hdata]

/-- **What `open_file` finds after a crash** inside `RaftLog::persist`. -/
theorem open_log_crashed {l : RaftLog} (hl : l.InRange) (k : ℕ) :
    (RaftLog.open_file (some (crashed l.persist k))).1 = l.torn k := by
  match k with
  | 0 => rfl
  -- a file that ends inside the header reads as an empty log
  | 1 =>
      have h := open_short_header [] (by simp)
      simpa [crashed, RaftLog.persist, RaftLog.torn] using h
  | 2 =>
      have h := open_short_header (encode 8 l.snapshot_last_index) (by simp)
      simpa [crashed, RaftLog.persist, RaftLog.torn] using h
  | 3 =>
      have h := open_short_header
        (encode 8 l.snapshot_last_index ++ encode 8 l.snapshot_last_term) (by simp)
      simpa [crashed, RaftLog.persist, RaftLog.torn] using h
  | k + 4 =>
      have hfresh : ¬ k + 4 < 4 := by omega
      unfold RaftLog.torn
      rw [if_neg hfresh]
      -- empty snapshot data is no write at all, so the entries start one write earlier
      by_cases hnil : written l.snapshot_data = []
      · have hfuel : whole_entries l.entries k
            ≤ (l.header ++ crashed (l.entries.flatMap entry_writes) k).length := by
          rw [List.length_append]
          exact le_trans (whole_entries_le l.entries k) (Nat.le_add_left _ _)
        rw [crashed_no_data hnil, open_header hl, if_neg (by rw [hnil]; simp),
          if_neg (fun h => h.2 hnil)]
        dsimp only
        rw [if_pos hnil, hnil, List.length_nil, List.drop_zero, List.take_zero, Nat.add_sub_cancel,
          read_entries_crashed l.entries hl.2.2 k _ hfuel]
      · match k with
        | 0 =>
            have hpos : 0 < (written l.snapshot_data).length := List.length_pos_iff.mpr hnil
            rw [if_pos ⟨rfl, hnil⟩, crashed_header_only hnil, open_header hl,
              if_pos (by rw [List.length_nil]; exact hpos)]
        | k + 1 =>
            have hfuel : whole_entries l.entries k ≤ (l.header ++ (written l.snapshot_data
                ++ crashed (l.entries.flatMap entry_writes) k)).length := by
              rw [List.length_append, List.length_append]
              have := whole_entries_le l.entries k
              omega
            rw [crashed_data hnil, open_header hl, if_neg (by rw [List.length_append]; omega),
              if_neg (by omega)]
            dsimp only
            rw [if_neg hnil, List.drop_append_of_le_length (le_refl _), List.drop_length,
              List.nil_append, List.take_append_of_le_length (le_refl _), List.take_length,
              show k + 1 + 4 - 5 = k by omega,
              read_entries_crashed l.entries hl.2.2 k _ hfuel]

/-! ## When a crash is atomic -/

/-- Every string is short enough for its length field. -/
def RaftLog.Short (l : RaftLog) : Prop :=
  l.snapshot_data.length < 2 ^ 32 ∧ ∀ e ∈ l.entries, e.command.length < 2 ^ 32

theorem written_eq_self {s : Bytes} : written s = s ↔ s.length < 2 ^ 32 := by
  unfold written
  constructor
  · intro h
    have hlen := congrArg List.length h
    rw [List.length_take] at hlen
    have hmod : s.length % 2 ^ 32 < 2 ^ 32 := Nat.mod_lt _ (by decide)
    omega
  · intro h
    rw [Nat.mod_eq_of_lt h, List.take_length]

theorem map_written_eq_self {es : List PersistedEntry} :
    es.map written_entry = es ↔ ∀ e ∈ es, e.command.length < 2 ^ 32 := by
  have hid : es.map written_entry = es ↔ es.map written_entry = es.map id := by
    rw [List.map_id]
  rw [hid, List.map_inj_left]
  apply forall₂_congr
  intro e _
  rw [← written_eq_self]
  constructor
  · intro h
    exact congrArg PersistedEntry.command h
  · intro h
    unfold written_entry
    rw [h, id]

/-- The complete records are a prefix of the entries. -/
theorem whole_entries_le_length (es : List PersistedEntry) :
    ∀ k, whole_entries es k ≤ es.length := by
  induction es with
  | nil =>
      intro k
      exact Nat.zero_le _
  | cons e es ih =>
      intro k
      match k with
      | 0 => exact Nat.zero_le _
      | 1 => exact Nat.zero_le _
      | 2 =>
          rw [whole_entries, List.length_cons]
          split <;> omega
      | k + 3 =>
          have := ih k
          rw [whole_entries, List.length_cons]
          omega

theorem whole_entries_all (es : List PersistedEntry) :
    whole_entries es (3 * es.length) = es.length := by
  induction es with
  | nil => rfl
  | cons e es ih =>
      rw [List.length_cons, Nat.mul_succ, whole_entries, ih]

/-- The condition under which a crash after `k` writes of `new` leaves `old` or `new`. -/
def RaftLog.Survives (old new : RaftLog) (k : ℕ) : Prop :=
  if k < 4 then old = {} ∨ new = {}
  else if k = 4 ∧ written new.snapshot_data ≠ [] then
    old = ⟨[], new.snapshot_last_index, new.snapshot_last_term, []⟩
  else
    let whole := whole_entries new.entries (k - if written new.snapshot_data = [] then 4 else 5)
    (whole = new.entries.length ∧ new.Short) ∨
      old = ⟨(new.entries.take whole).map written_entry, new.snapshot_last_index,
        new.snapshot_last_term, written new.snapshot_data⟩

/-- A log whose first `m` entries were written is the whole log when `m` is all of them
and nothing was cut. -/
theorem written_log_eq_self {l : RaftLog} {m : ℕ} (hm : m ≤ l.entries.length) :
    (⟨(l.entries.take m).map written_entry, l.snapshot_last_index, l.snapshot_last_term,
      written l.snapshot_data⟩ : RaftLog) = l ↔ m = l.entries.length ∧ l.Short := by
  unfold RaftLog.Short
  rw [← map_written_eq_self, ← written_eq_self]
  constructor
  · intro h
    have hentries := congrArg RaftLog.entries h
    have hdata := congrArg RaftLog.snapshot_data h
    have hlen := congrArg List.length hentries
    dsimp only at hentries hdata hlen
    rw [List.length_map, List.length_take] at hlen
    have hall : m = l.entries.length := by omega
    rw [hall, List.take_length] at hentries
    exact ⟨hall, hdata, hentries⟩
  · rintro ⟨hall, hdata, hentries⟩
    rw [hall, List.take_length, hentries, hdata]

/-- **The codec round trip**: a log that was written completely is read back as it was. -/
theorem open_log_full {l : RaftLog} (hl : l.InRange) (hshort : l.Short) :
    (RaftLog.open_file (some l.persist.flatten)).1 = l := by
  have hlen : l.persist.length
      = (if written l.snapshot_data = [] then 4 else 5) + 3 * l.entries.length := by
    unfold RaftLog.persist
    have h3 : (l.entries.flatMap entry_writes).length = 3 * l.entries.length := by
      rw [List.length_flatMap]
      simp [entry_writes, Nat.mul_comm]
    rw [List.length_append, List.length_append, h3]
    split <;> rfl
  have hwhole : crashed l.persist l.persist.length = l.persist.flatten := by
    unfold crashed
    rw [List.take_length]
  have hnot : ¬ (l.persist.length = 4 ∧ written l.snapshot_data ≠ []) := by
    rintro ⟨h4, hdata⟩
    rw [if_neg hdata] at hlen
    omega
  rw [← hwhole, open_log_crashed hl]
  unfold RaftLog.torn
  rw [if_neg (by rw [hlen]; split <;> omega), if_neg hnot]
  dsimp only
  rw [hlen, Nat.add_sub_cancel_left, whole_entries_all]
  exact (written_log_eq_self (le_refl _)).mpr ⟨rfl, hshort⟩

/-- Restarting a node whose last `persist` calls went through is reading its two files. -/
theorem restart_eq_open (n : RaftNode) (hstate : n.state.InRange) (hlog : n.log.InRange)
    (hshort : n.log.Short) :
    n.restart = RaftNode.open_files n.node_id n.peers
      (PersistentState.open_file (some n.state.persist.flatten)).1
      (RaftLog.open_file (some n.log.persist.flatten)).1 := by
  rw [open_state_full hstate, open_log_full hlog hshort, RaftNode.restart]

theorem torn_survives (old new : RaftLog) (k : ℕ) :
    (new.torn k = old ∨ new.torn k = new) ↔ old.Survives new k := by
  unfold RaftLog.torn RaftLog.Survives
  by_cases hfresh : k < 4
  · rw [if_pos hfresh, if_pos hfresh, eq_comm, @eq_comm _ {} new]
  rw [if_neg hfresh, if_neg hfresh]
  by_cases hdata : k = 4 ∧ written new.snapshot_data ≠ []
  · rw [if_pos hdata, if_pos hdata]
    constructor
    · rintro (h | h)
      · exact h.symm
      · -- the snapshot bytes are missing, so this is not the new state
        refine absurd ?_ hdata.2
        rw [← h]
        rfl
    · intro h
      exact Or.inl h.symm
  · rw [if_neg hdata, if_neg hdata]
    dsimp only
    rw [written_log_eq_self (whole_entries_le_length _ _), or_comm]
    apply or_congr_right
    exact eq_comm

/-- **When a crash inside `persist` is atomic.** For the term and the vote: when the one
write has happened, or one of the two states is the fresh one. For the log: when so much
was written that nothing is missing, or when what was written happens to be the old log. -/
theorem crash_atomic_iff (old new : PersistentState) (hnew : new.InRange)
    (old_log new_log : RaftLog) (hnew_log : new_log.InRange) (k : ℕ) :
    (((PersistentState.open_file (some (crashed new.persist k))).1 = old ∨
        (PersistentState.open_file (some (crashed new.persist k))).1 = new) ↔
      (0 < k ∨ old = {} ∨ new = {})) ∧
    (((RaftLog.open_file (some (crashed new_log.persist k))).1 = old_log ∨
        (RaftLog.open_file (some (crashed new_log.persist k))).1 = new_log) ↔
      old_log.Survives new_log k) := by
  constructor
  · rw [open_state_crashed hnew]
    by_cases hk : k = 0
    · subst hk
      rw [if_pos rfl, eq_comm, @eq_comm _ {} new]
      simp
    · rw [if_neg hk]
      have hpos : 0 < k := Nat.pos_of_ne_zero hk
      simp [hpos]
  · rw [open_log_crashed hnew_log]
    exact torn_survives old_log new_log k

/-- A crash before the first vote of a new node is written, and one inside the second entry of a
log: both leave the old state. -/
theorem crash_atomic_iff_written :
    (PersistentState.open_file (some (crashed (PersistentState.persist ⟨1, 2⟩) 0))).1 = {} ∧
    (RaftLog.open_file (some (crashed
      (RaftLog.persist { entries := [⟨5, [97]⟩, ⟨5, [98]⟩] }) 8))).1
        = { entries := [⟨5, [97]⟩] } := by
  have h := fun k => crash_atomic_iff {} ⟨1, 2⟩ ⟨by decide, by decide, by decide⟩
    { entries := [⟨5, [97]⟩] } { entries := [⟨5, [97]⟩, ⟨5, [98]⟩] }
    ⟨by decide, by decide, by decide⟩ k
  have hstate := (h 0).1.mpr (Or.inr (Or.inl rfl))
  have hlog := (h 8).2.mpr (by
    unfold RaftLog.Survives RaftLog.Short
    decide)
  exact ⟨hstate.resolve_right (by decide), hlog.resolve_right (by decide)⟩

/-- Node `1` is in term `5` and records its vote for node `2`; a kill between the `O_TRUNC`
open and the write brings it back in term `0` without a vote. A kill at the same place while
a second entry is appended brings the log back empty. -/
theorem crash_forgets_vote_and_log :
    (PersistentState.open_file (some (crashed (PersistentState.persist ⟨5, 2⟩) 0))).1 = ⟨0, -1⟩ ∧
    (⟨0, -1⟩ : PersistentState) ≠ ⟨5, -1⟩ ∧ (⟨0, -1⟩ : PersistentState) ≠ ⟨5, 2⟩ ∧
    (RaftLog.open_file (some (crashed (RaftLog.persist
      { entries := [⟨5, [97]⟩, ⟨5, [98]⟩] }) 0))).1 = {} ∧
    ({} : RaftLog) ≠ { entries := [⟨5, [97]⟩] } ∧
    ({} : RaftLog) ≠ { entries := [⟨5, [97]⟩, ⟨5, [98]⟩] } := by
  decide

/-! ## Files without a header -/

/-- The format without magic and snapshot header: the records alone. -/
def legacy_file (es : List PersistedEntry) : Bytes := (es.flatMap entry_writes).flatten

/-- The record loop on complete records returns their entries. -/
theorem read_entries_all {es : List PersistedEntry}
    (hes : ∀ e ∈ es, e.term < 2 ^ 64 ∧ e.command.length < 2 ^ 32) :
    read_entries (legacy_file es).length (legacy_file es) = es := by
  have hall : crashed (es.flatMap entry_writes) (3 * es.length) = legacy_file es := by
    unfold crashed legacy_file
    apply congrArg List.flatten
    apply List.take_of_length_le
    rw [List.length_flatMap]
    simp [entry_writes, Nat.mul_comm]
  have hfuel := whole_entries_le es (3 * es.length)
  rw [hall] at hfuel
  have hread := read_entries_crashed es (fun e he => (hes e he).1) _ _ hfuel
  rw [hall, whole_entries_all, List.take_length] at hread
  rw [hread]
  exact map_written_eq_self.mpr (fun e he => (hes e he).2)

/-- **The codec round trip.** A log that was written completely is read back as it was. Records
that do not happen to start with the magic bytes are read as a log without a snapshot, and
that log is not changed by writing it in the new format and reading it again. -/
theorem log_codec_round_trip :
    (∀ l : RaftLog, l.InRange → l.Short →
      (RaftLog.open_file (some l.persist.flatten)).1 = l) ∧
    ∀ es : List PersistedEntry, (∀ e ∈ es, e.term < 2 ^ 64 ∧ e.command.length < 2 ^ 32) →
      decode ((legacy_file es).take 4) ≠ kMagic →
        (RaftLog.open_file (some (legacy_file es))).1 = { entries := es } ∧
        (RaftLog.open_file (some
          (RaftLog.open_file (some (legacy_file es))).1.persist.flatten)).1
          = { entries := es } := by
  refine ⟨fun l hl hshort => open_log_full hl hshort, fun es hes hmagic => ?_⟩
  have hopen : (RaftLog.open_file (some (legacy_file es))).1 = { entries := es } := by
    unfold RaftLog.open_file
    dsimp only
    rw [if_neg (fun h => hmagic h.2), read_entries_all hes]
  refine ⟨hopen, ?_⟩
  rw [hopen]
  apply open_log_full
  · exact ⟨Nat.two_pow_pos 64, Nat.two_pow_pos 64, fun e he => (hes e he).1⟩
  · exact ⟨Nat.two_pow_pos 32, fun e he => (hes e he).2⟩

/-- A log with snapshot bytes and a command that are not text, and a record without header. -/
theorem log_codec_round_trip_bytes :
    (RaftLog.open_file (some (RaftLog.persist ⟨[⟨5, [0, 255]⟩], 3, 2, [0]⟩).flatten)).1
      = ⟨[⟨5, [0, 255]⟩], 3, 2, [0]⟩ ∧
    (RaftLog.open_file (some (legacy_file [⟨5, [97]⟩]))).1 = { entries := [⟨5, [97]⟩] } :=
  ⟨log_codec_round_trip.1 _ ⟨by decide, by decide, by decide⟩ ⟨by decide, by decide⟩,
    (log_codec_round_trip.2 [⟨5, [97]⟩] (by decide) (by decide)).1⟩

end NanoDB.Raft
