/-
`RaftLog::open_file` on a log file that was cut at any byte.

The file of a log is a header of 24 bytes, the bytes of the snapshot, and one record for each
entry. A cut inside the header reads as the fresh log, as the comment in `open_file` has it
("truncated header -- start fresh"). A cut inside the records leaves the snapshot and the
complete records. A cut inside the snapshot bytes takes the branch in between: the index and
the term of the snapshot are already in their fields, and the function returns with them and
without the data. `open_cut` states the three cases.
-/
import NanoDB.RaftFile

set_option autoImplicit false

namespace NanoDB.Raft

open LittleEndian

/-! ## The records that are complete -/

/-- The bytes of one record. -/
def entry_bytes (e : PersistedEntry) : Bytes :=
  encode 8 e.term ++ encode 4 e.command.length ++ written e.command

/-- How many records are complete within the first `p` bytes. -/
def whole_records : List PersistedEntry → ℕ → ℕ
  | [], _ => 0
  | e :: es, p =>
      if (entry_bytes e).length ≤ p then whole_records es (p - (entry_bytes e).length) + 1 else 0

theorem legacy_file_cons (e : PersistedEntry) (es : List PersistedEntry) :
    legacy_file (e :: es) = entry_bytes e ++ legacy_file es := by
  simp [legacy_file, entry_writes, entry_bytes]

theorem length_entry_bytes (e : PersistedEntry) :
    (entry_bytes e).length = 12 + (written e.command).length := by
  simp only [entry_bytes, List.length_append, length_encode]

/-- A part of a record that is not all of it ends the loop. -/
theorem read_entries_part (fuel : ℕ) (e : PersistedEntry) {p : ℕ}
    (hp : p < (entry_bytes e).length) : read_entries fuel ((entry_bytes e).take p) = [] := by
  rw [length_entry_bytes] at hp
  by_cases hhead : p < 12
  · apply read_entries_short
    rw [List.length_take]
    omega
  · -- the term and the length are there, the command is not
    have hlen : (encode 8 e.term ++ encode 4 e.command.length).length = 12 := by simp
    rw [entry_bytes, List.take_append, hlen, List.take_of_length_le (by omega)]
    apply read_entries_cut_command
    rw [List.length_take]
    omega

/-- **The record loop on a cut tail** returns the complete records. -/
theorem read_entries_cut (es : List PersistedEntry) (hes : ∀ e ∈ es, e.term < 2 ^ 64) :
    ∀ p fuel, whole_records es p ≤ fuel →
      read_entries fuel ((legacy_file es).take p)
        = (es.take (whole_records es p)).map written_entry := by
  induction es with
  | nil =>
      intro p fuel _
      rw [whole_records]
      exact read_entries_short fuel (by simp [legacy_file])
  | cons e es ih =>
      intro p fuel hfuel
      rw [legacy_file_cons, whole_records] at *
      by_cases hp : (entry_bytes e).length ≤ p
      · rw [if_pos hp] at hfuel ⊢
        obtain ⟨fuel, rfl⟩ : ∃ f, fuel = f + 1 := ⟨fuel - 1, by omega⟩
        rw [List.take_append, List.take_of_length_le hp, entry_bytes,
          read_entries_record fuel (hes e List.mem_cons_self), ← entry_bytes,
          ih (fun e' he' => hes e' (List.mem_cons_of_mem e he')) _ fuel (by omega),
          List.take_succ_cons, List.map_cons]
      · rw [if_neg hp, List.take_append_of_le_length (by omega),
          read_entries_part fuel e (not_le.mp hp), List.take_zero, List.map_nil]

theorem whole_records_le (es : List PersistedEntry) :
    ∀ p, whole_records es p ≤ ((legacy_file es).take p).length := by
  induction es with
  | nil =>
      intro p
      exact Nat.zero_le _
  | cons e es ih =>
      intro p
      have hsize := length_entry_bytes e
      rw [whole_records, legacy_file_cons]
      split_ifs with hp
      · have := ih (p - (entry_bytes e).length)
        rw [List.take_append, List.length_append, List.take_of_length_le hp]
        omega
      · exact Nat.zero_le _

/-! ## The file -/

theorem length_header (l : RaftLog) : l.header.length = 24 := by
  simp [RaftLog.header]

/-- A file is the header, the snapshot bytes and the records. -/
theorem persist_flatten (l : RaftLog) :
    l.persist.flatten = l.header ++ (written l.snapshot_data ++ legacy_file l.entries) := by
  have hdata : (if written l.snapshot_data = [] then [] else [written l.snapshot_data]).flatten
      = written l.snapshot_data := by
    split_ifs with hnil
    · exact hnil.symm
    · simp
  rw [RaftLog.persist, List.flatten_append, List.flatten_append, ← legacy_file, hdata,
    List.append_assoc]
  simp [RaftLog.header]

/-- The log that is found in the first `p` bytes of the file of `l`. -/
def RaftLog.cut (l : RaftLog) (p : ℕ) : RaftLog :=
  if p < 24 then {}
  else if p < 24 + (written l.snapshot_data).length then
    ⟨[], l.snapshot_last_index, l.snapshot_last_term, []⟩
  else
    ⟨(l.entries.take (whole_records l.entries
        (p - (24 + (written l.snapshot_data).length)))).map written_entry,
      l.snapshot_last_index, l.snapshot_last_term, written l.snapshot_data⟩

/-- A file that ends inside the header, in the magic number or behind it. -/
theorem open_cut_header {l : RaftLog} {p : ℕ} (hp : p < 24) :
    (RaftLog.open_file (some (l.persist.flatten.take p))).1 = {} := by
  by_cases hmagic : p < 4
  · -- too short for the magic number, and for a record of the old format
    have hlen : (l.persist.flatten.take p).length < 4 := by
      rw [List.length_take]
      omega
    unfold RaftLog.open_file
    dsimp only
    rw [if_neg (by omega), read_entries_short _ (by omega)]
  · have hsplit : l.persist.flatten.take p
        = encode 4 kMagic ++ ((l.persist.flatten.drop 4).take (p - 4)) := by
      rw [persist_flatten, RaftLog.header, List.append_assoc, List.append_assoc, List.append_assoc,
        drop_encode, List.take_append, length_encode,
        List.take_of_length_le (by rw [length_encode]; omega)]
    rw [hsplit]
    apply open_short_header
    rw [List.length_take]
    omega

/-- **What `open_file` finds in a cut file.** -/
theorem open_cut {l : RaftLog} (hl : l.InRange) (p : ℕ) :
    (RaftLog.open_file (some (l.persist.flatten.take p))).1 = l.cut p := by
  unfold RaftLog.cut
  by_cases hhead : p < 24
  · rw [if_pos hhead, open_cut_header hhead]
  rw [if_neg hhead, persist_flatten, List.take_append, length_header,
    List.take_of_length_le (by rw [length_header]; omega), open_header hl]
  by_cases hdata : p < 24 + (written l.snapshot_data).length
  · rw [if_pos hdata, if_pos]
    rw [List.length_take]
    omega
  · have htail : (written l.snapshot_data ++ legacy_file l.entries).take (p - 24)
        = written l.snapshot_data ++ (legacy_file l.entries).take
            (p - (24 + (written l.snapshot_data).length)) := by
      rw [List.take_append, List.take_of_length_le (by omega), Nat.sub_sub]
    have hfuel := whole_records_le l.entries (p - (24 + (written l.snapshot_data).length))
    rw [if_neg hdata, htail, if_neg (by rw [List.length_append]; omega), List.drop_left' rfl,
      List.take_left' rfl, read_entries_cut l.entries hl.2.2 _ _ ?_]
    rw [List.length_append, List.length_append]
    omega

/-! ## Which cuts are read conservatively -/

/-- What may be made of a cut file of `l`: the fresh log, or the snapshot of `l` with the first
of its entries; and never a snapshot that covers something and has no data. -/
structure RaftLog.Conservative (l found : RaftLog) : Prop where
  keeps : found = {} ∨
    (found.snapshot_last_index = l.snapshot_last_index ∧
      found.snapshot_last_term = l.snapshot_last_term ∧
      found.snapshot_data = l.snapshot_data ∧ found.entries <+: l.entries)
  covered : ¬ (0 < found.snapshot_last_index ∧ found.snapshot_data = [])

/-- The condition on the log and the place of the cut. Inside the header nothing can go wrong.
Inside the snapshot bytes the log must not have had a snapshot at all. Behind them the snapshot
must have data if it covers something, and no string may be too long for its length field, unless
nothing of the log was read. -/
def RaftLog.CutSafe (l : RaftLog) (p : ℕ) : Prop :=
  if p < 24 then True
  else if p < 24 + (written l.snapshot_data).length then
    l.snapshot_last_index = 0 ∧ l.snapshot_last_term = 0
  else
    let whole := whole_records l.entries (p - (24 + (written l.snapshot_data).length))
    (l.snapshot_last_index = 0 ∨ written l.snapshot_data ≠ []) ∧
      ((l.snapshot_data.length < 2 ^ 32 ∧
          ∀ e ∈ l.entries.take whole, e.command.length < 2 ^ 32) ∨
        (l.snapshot_last_index = 0 ∧ l.snapshot_last_term = 0 ∧
          written l.snapshot_data = [] ∧ whole = 0))

theorem whole_records_le_length (es : List PersistedEntry) :
    ∀ p, whole_records es p ≤ es.length := by
  induction es with
  | nil =>
      intro p
      exact Nat.zero_le _
  | cons e es ih =>
      intro p
      rw [whole_records, List.length_cons]
      split_ifs
      · exact Nat.succ_le_succ (ih _)
      · exact Nat.zero_le _

/-- The first entries as they were written are the first entries exactly if none was too long. -/
theorem map_written_prefix_iff (es : List PersistedEntry) (m : ℕ) :
    (es.take m).map written_entry <+: es ↔ ∀ e ∈ es.take m, e.command.length < 2 ^ 32 := by
  rw [← map_written_eq_self]
  constructor
  · intro h
    have heq := List.prefix_iff_eq_take.mp h
    rw [List.length_map, List.length_take] at heq
    rw [heq]
    exact (List.take_eq_take_min).symm
  · intro h
    rw [h]
    exact List.take_prefix m es

/-- Behind the snapshot bytes. -/
theorem conservative_records_iff (l : RaftLog) {m : ℕ} (hm : m ≤ l.entries.length) :
    l.Conservative ⟨(l.entries.take m).map written_entry, l.snapshot_last_index,
        l.snapshot_last_term, written l.snapshot_data⟩ ↔
      (l.snapshot_last_index = 0 ∨ written l.snapshot_data ≠ []) ∧
      ((l.snapshot_data.length < 2 ^ 32 ∧ ∀ e ∈ l.entries.take m, e.command.length < 2 ^ 32) ∨
        (l.snapshot_last_index = 0 ∧ l.snapshot_last_term = 0 ∧
          written l.snapshot_data = [] ∧ m = 0)) := by
  have hfresh : (⟨(l.entries.take m).map written_entry, l.snapshot_last_index,
      l.snapshot_last_term, written l.snapshot_data⟩ : RaftLog) = {} ↔
      l.snapshot_last_index = 0 ∧ l.snapshot_last_term = 0 ∧ written l.snapshot_data = [] ∧
        m = 0 := by
    rw [RaftLog.mk.injEq, List.map_eq_nil_iff, List.take_eq_nil_iff]
    constructor
    · rintro ⟨hnil, hidx, hterm, hdata⟩
      refine ⟨hidx, hterm, hdata, ?_⟩
      rcases hnil with hzero | hnil
      · exact hzero
      · rw [hnil, List.length_nil] at hm
        omega
    · rintro ⟨hidx, hterm, hdata, hzero⟩
      exact ⟨Or.inl hzero, hidx, hterm, hdata⟩
  rw [← hfresh, ← written_eq_self, ← map_written_prefix_iff]
  constructor
  · rintro ⟨hkeeps, hcovered⟩
    refine ⟨?_, ?_⟩
    · by_contra hno
      rw [not_or, not_not] at hno
      exact hcovered ⟨Nat.pos_of_ne_zero hno.1, hno.2⟩
    · rcases hkeeps with hkeeps | ⟨-, -, hdata, hentries⟩
      · exact Or.inr hkeeps
      · exact Or.inl ⟨hdata, hentries⟩
  · rintro ⟨hcovered, hkeeps⟩
    refine ⟨?_, ?_⟩
    · rcases hkeeps with ⟨hdata, hentries⟩ | hkeeps
      · exact Or.inr ⟨rfl, rfl, hdata, hentries⟩
      · exact Or.inl hkeeps
    · rintro ⟨hidx, hdata⟩
      rcases hcovered with hzero | hne
      · exact absurd hzero (Nat.ne_of_gt hidx)
      · exact hne hdata

/-- **Cut log files.** Reading any first part of the bytes that `persist` writes is conservative
exactly if the cut is in the header, or behind the snapshot bytes, or there was no snapshot. -/
theorem cut_log_conservative_iff (l : RaftLog) (hl : l.InRange) (p : ℕ) :
    l.Conservative (RaftLog.open_file (some (l.persist.flatten.take p))).1 ↔ l.CutSafe p := by
  rw [open_cut hl]
  unfold RaftLog.cut RaftLog.CutSafe
  by_cases hhead : p < 24
  · rw [if_pos hhead, if_pos hhead]
    exact ⟨fun _ => trivial, fun _ => ⟨Or.inl rfl, by simp⟩⟩
  rw [if_neg hhead, if_neg hhead]
  by_cases hdata : p < 24 + (written l.snapshot_data).length
  · rw [if_pos hdata, if_pos hdata]
    constructor
    · rintro ⟨hkeeps | ⟨-, -, hnone, -⟩, -⟩
      · exact ⟨congrArg RaftLog.snapshot_last_index hkeeps,
          congrArg RaftLog.snapshot_last_term hkeeps⟩
      · -- the data was cut, so there was some
        rw [← hnone] at hdata
        exact absurd hdata hhead
    · rintro ⟨hidx, hterm⟩
      refine ⟨Or.inl ?_, ?_⟩
      · rw [hidx, hterm]
      · rw [hidx]
        simp
  · rw [if_neg hdata, if_neg hdata]
    exact conservative_records_iff l (whole_records_le_length _ _)

/-- A snapshot up to index 7 with two bytes of data and one entry, cut inside the entry. -/
theorem cut_log_conservative_iff_entry :
    RaftLog.InRange ⟨[⟨3, [99]⟩], 7, 2, [97, 98]⟩ ∧
    RaftLog.Conservative ⟨[⟨3, [99]⟩], 7, 2, [97, 98]⟩ (RaftLog.open_file (some
      ((RaftLog.persist ⟨[⟨3, [99]⟩], 7, 2, [97, 98]⟩).flatten.take 30))).1 :=
  ⟨⟨by decide, by decide, by decide⟩,
    (cut_log_conservative_iff ⟨[⟨3, [99]⟩], 7, 2, [97, 98]⟩ ⟨by decide, by decide, by decide⟩
      30).mpr (by unfold RaftLog.CutSafe; decide)⟩

/-- **A snapshot without its data.** The same file cut inside the two bytes of data: the log that
is found covers index 7, and its data is gone. The cut file is then replaced by that of the
log that was found, so the next restart finds the same. -/
theorem cut_log_claims_snapshot :
    25 < (RaftLog.persist ⟨[⟨3, [99]⟩], 7, 2, [97, 98]⟩).flatten.length ∧
    RaftLog.open_file (some ((RaftLog.persist ⟨[⟨3, [99]⟩], 7, 2, [97, 98]⟩).flatten.take 25))
      = (⟨[], 7, 2, []⟩, (RaftLog.persist ⟨[], 7, 2, []⟩).flatten) ∧
    ¬ RaftLog.Conservative ⟨[⟨3, [99]⟩], 7, 2, [97, 98]⟩ (RaftLog.open_file (some
      ((RaftLog.persist ⟨[⟨3, [99]⟩], 7, 2, [97, 98]⟩).flatten.take 25))).1 :=
  ⟨by decide, by decide, fun h => h.covered (by decide)⟩

end NanoDB.Raft
