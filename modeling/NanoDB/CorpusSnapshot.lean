/-
The corpus of `research/replica_recall`: `RetainingWriter._append_corpus` and `snapshot_corpus`
of `run_experiment.py`, `Corpus.rows_for` of `metrics.py`.

Writers append confirmed vectors to an array that grows geometrically, one append at a time. A
snapshot is a count and three references: to the list of ids, to the map from ids to rows and to
the array of that moment. The list and the map go on changing under the reader, and so do the
rows behind the count, until the writer moves to a larger array and leaves the old one alone.

Arrays are held in a heap here, because whether two of them are the same is what matters. An
append is a sequence of statements, and a reader looks between any two of them; a snapshot is
taken under the lock, between two appends.
-/
import NanoDB.Lib.Ranking
import NanoDB.Lib.Trace

set_option autoImplicit false

namespace NanoDB.Experiment

/-! ## The writer -/

section Writer

variable {I V : Type*}

/-- The last statement of an append that was executed. -/
inductive Stage
  | entered
  | ready
  | written
  | mapped
  | appended
deriving DecidableEq, Repr

/-- The corpus of `RetainingWriter`. A row of an array is `none` until it is written. -/
structure Writer (I V : Type*) where
  arrays : ℕ → List (Option V)
  next_array : ℕ
  corpus_ids : List I
  corpus_mat : ℕ
  corpus_row : I → Option ℕ
  corpus_n : ℕ
  /-- The append that is going on, with its id and its vector. -/
  pending : Option (Stage × I × V)

/-- `Corpus`. The ids and the rows are those of the writer, by reference. -/
structure Corpus where
  mat : ℕ
  n : ℕ
deriving DecidableEq, Repr

def Writer.init : Writer I V :=
  { arrays := fun _ => [], next_array := 1, corpus_ids := [], corpus_mat := 0
    corpus_row := fun _ => none, corpus_n := 0, pending := none }

/-- A larger array with the rows that are in use. -/
def Writer.grow (s : Writer I V) : Writer I V :=
  let mat := s.arrays s.corpus_mat
  let new_cap := max 1024 (mat.length * 2)
  let grown := mat.take s.corpus_n ++ List.replicate (new_cap - s.corpus_n) none
  { s with
    arrays := Function.update s.arrays s.next_array grown
    next_array := s.next_array + 1
    corpus_mat := s.next_array }

inductive WriterAct (I V : Type*)
  /-- `_append_corpus` is called; the caller holds the lock. -/
  | append (vid : I) (vec : V)
  /-- The next statement of the append. -/
  | advance

/-- The id and the vector of a call. -/
def WriterAct.entry : WriterAct I V → Option (I × V)
  | .append vid vec => some (vid, vec)
  | .advance => none

variable [DecidableEq I]

/-- The next statement of `_append_corpus`. -/
def Writer.advance (s : Writer I V) : Option (Writer I V) :=
  match s.pending with
  | none => none
  | some (.entered, vid, vec) =>
      let s := if s.corpus_n = (s.arrays s.corpus_mat).length then s.grow else s
      some { s with pending := some (.ready, vid, vec) }
  | some (.ready, vid, vec) =>
      -- storing behind the end of the array is an `IndexError`
      if s.corpus_n < (s.arrays s.corpus_mat).length then
        some
          { s with
            arrays := Function.update s.arrays s.corpus_mat
              ((s.arrays s.corpus_mat).set s.corpus_n (some vec))
            pending := some (.written, vid, vec) }
      else none
  | some (.written, vid, vec) =>
      some
        { s with
          corpus_row := Function.update s.corpus_row vid (some s.corpus_n)
          pending := some (.mapped, vid, vec) }
  | some (.mapped, vid, vec) =>
      some { s with corpus_ids := s.corpus_ids ++ [vid], pending := some (.appended, vid, vec) }
  | some (.appended, _, _) => some { s with corpus_n := s.corpus_n + 1, pending := none }

def writer_step (s : Writer I V) : WriterAct I V → Option (Writer I V)
  | .append vid vec =>
      match s.pending with
      | none => some { s with pending := some (.entered, vid, vec) }
      | some _ => none
  | .advance => s.advance

/-- `snapshot_corpus` waits for the lock. -/
def Writer.snapshot_corpus (s : Writer I V) : Option Corpus :=
  match s.pending with
  | none => some ⟨s.corpus_mat, s.corpus_n⟩
  | some _ => none

/-! ## The reader -/

/-- `row_of.get(i, -1)`, if it passes the test `0 <= r < n`. -/
def Writer.row_for (s : Writer I V) (c : Corpus) (i : I) : Option ℕ :=
  (s.corpus_row i).filter (fun r => decide (r < c.n))

/-- `rows_for` on a snapshot, at a later time. `wanted` is a set, in the order in which it is
iterated over. -/
def Writer.rows_for (s : Writer I V) (c : Corpus) (wanted : List I) : List ℕ :=
  (wanted.filterMap (s.row_for c)).insertionSort (· ≤ ·)

/-- `ids[r]` for the given rows. -/
def Writer.gather_ids (s : Writer I V) (rows : List ℕ) : List (Option I) :=
  rows.map (fun r => s.corpus_ids[r]?)

/-- `mat[rows]` of a snapshot. -/
def Writer.gather_vectors (s : Writer I V) (c : Corpus) (rows : List ℕ) : List (Option V) :=
  rows.map (fun r => ((s.arrays c.mat)[r]?).join)

/-- The rows, and the ids and vectors gathered there. -/
def Writer.read (s : Writer I V) (c : Corpus) (wanted : List I) :
    List ℕ × List (Option I) × List (Option V) :=
  let rows := s.rows_for c wanted
  (rows, s.gather_ids rows, s.gather_vectors c rows)

end Writer

/-! ## What the statements of an append leave behind -/

section Invariant

variable {I V : Type*}

/-- The entry that is being appended, if it has come as far as one of the given stages. -/
def past (pending : Option (Stage × I × V)) (stages : List Stage) : List (I × V) :=
  match pending with
  | none => []
  | some (stage, e) => if stage ∈ stages then [e] else []

/-- The entry that is being appended. -/
def begun (pending : Option (Stage × I × V)) : List (I × V) := (pending.map Prod.snd).toList

/-- The appends in `h` are done. Array, map and list have one entry more, each from its own
statement on. -/
structure Holds (s : Writer I V) (h : List (I × V)) : Prop where
  count : s.corpus_n = h.length
  array : s.corpus_mat < s.next_array
  room : past s.pending [.ready] ≠ [] → h.length < (s.arrays s.corpus_mat).length
  vectors : ∀ (r : ℕ) (e : I × V),
    (h ++ past s.pending [.written, .mapped, .appended])[r]? = some e →
      (s.arrays s.corpus_mat)[r]? = some (some e.2)
  rows : ∀ (i : I) (r : ℕ), s.corpus_row i = some r ↔
    ((h ++ past s.pending [.mapped, .appended]).map Prod.fst)[r]? = some i
  ids : s.corpus_ids = (h ++ past s.pending [.appended]).map Prod.fst

theorem holds_init : Holds (Writer.init : Writer I V) [] := by
  constructor <;> simp [Writer.init, past]

/-- The rows in use are in the array. -/
theorem Holds.length_le {s : Writer I V} {h : List (I × V)} (hs : Holds s h) :
    h.length ≤ (s.arrays s.corpus_mat).length := by
  by_contra hlt
  have hrow : h[(s.arrays s.corpus_mat).length]?
      = some (h.get ⟨(s.arrays s.corpus_mat).length, not_le.mp hlt⟩) :=
    List.getElem?_eq_getElem _
  have hvec := hs.vectors _ _ (by rw [List.getElem?_append_left (not_le.mp hlt), hrow])
  rw [List.getElem?_eq_none (le_refl _)] at hvec
  simp at hvec

/-- Growing keeps the rows in use and makes room for one more. -/
theorem grow_vectors {s : Writer I V} {h : List (I × V)} (hs : Holds s h) :
    (∀ (r : ℕ) (e : I × V), h[r]? = some e → (s.grow.arrays s.grow.corpus_mat)[r]?
        = some (some e.2)) ∧
      (s.corpus_n = (s.arrays s.corpus_mat).length →
        h.length < (s.grow.arrays s.grow.corpus_mat).length) := by
  have hgrown : s.grow.arrays s.grow.corpus_mat = (s.arrays s.corpus_mat).take s.corpus_n
      ++ List.replicate (max 1024 ((s.arrays s.corpus_mat).length * 2) - s.corpus_n) none := by
    simp [Writer.grow]
  rw [hgrown]
  constructor
  · intro r e hr
    obtain ⟨hlt, -⟩ := List.getElem?_eq_some_iff.mp hr
    have hrow := hs.vectors r e (by rw [List.getElem?_append_left hlt, hr])
    obtain ⟨hlt', -⟩ := List.getElem?_eq_some_iff.mp hrow
    have hcount := hs.count
    rw [List.getElem?_append_left (by rw [List.length_take]; omega),
      List.getElem?_take_of_lt (by omega), hrow]
  · intro hfull
    have hcount := hs.count
    rw [List.length_append, List.length_take, List.length_replicate]
    omega

theorem getElem?_concat {α : Type*} {l : List α} {x y : α} {r : ℕ} :
    (l ++ [x])[r]? = some y ↔ l[r]? = some y ∨ r = l.length ∧ x = y := by
  rw [List.getElem?_append]
  split
  · simp
    omega
  · rw [List.getElem?_singleton, List.getElem?_eq_none (by omega)]
    simp
    omega

variable [DecidableEq I]

/-- The map has a new id: it is in no other row. -/
theorem update_row {rows : I → Option ℕ} {ids : List I} {vid : I} (hvid : vid ∉ ids)
    (hrows : ∀ (i : I) (r : ℕ), rows i = some r ↔ ids[r]? = some i) (i : I) (r : ℕ) :
    Function.update rows vid (some ids.length) i = some r ↔ (ids ++ [vid])[r]? = some i := by
  rw [getElem?_concat]
  by_cases hi : i = vid
  · subst hi
    have hnone : ids[r]? ≠ some i := fun h => hvid (List.mem_of_getElem? h)
    simp [hnone, eq_comm]
  · rw [Function.update_of_ne hi, hrows]
    simp [Ne.symm hi]

/-- **One statement of an append**: the entry is in one place more, and after the last one the
append is done. -/
theorem holds_advance {s s' : Writer I V} {h : List (I × V)} (hs : Holds s h)
    (hnodup : ((h ++ begun s.pending).map Prod.fst).Nodup) (hstep : s.advance = some s') :
    ∃ h', Holds s' h' ∧ h <+: h' ∧ h' ++ begun s'.pending = h ++ begun s.pending := by
  have hgrow := grow_vectors hs
  have hlength := hs.length_le
  obtain ⟨hcount, harray, hroom, hvectors, hrows, hids⟩ := hs
  obtain ⟨arrays, next_array, corpus_ids, corpus_mat, corpus_row, corpus_n, pending⟩ := s
  dsimp only at hcount harray hroom hvectors hrows hids hnodup
  unfold Writer.advance at hstep
  rcases pending with _ | ⟨stage, vid, vec⟩
  · simp at hstep
  cases stage with
  | entered =>
      obtain rfl := Option.some.inj hstep
      by_cases hfull : corpus_n = (arrays corpus_mat).length
      · rw [if_pos hfull]
        refine ⟨h, ⟨hcount, Nat.lt_succ_self _, fun _ => hgrow.2 hfull, ?_, hrows, hids⟩,
          List.prefix_rfl, rfl⟩
        simpa [past] using hgrow.1
      · rw [if_neg hfull]
        refine ⟨h, ⟨hcount, harray, fun _ => ?_, hvectors, hrows, hids⟩, List.prefix_rfl, rfl⟩
        rw [hcount] at hfull
        exact lt_of_le_of_ne hlength hfull
  | ready =>
      dsimp only at hstep
      split at hstep
      · rename_i hlt
        obtain rfl := Option.some.inj hstep
        refine ⟨h, ⟨hcount, harray, by simp [past], ?_, hrows, hids⟩, List.prefix_rfl, rfl⟩
        intro r e hr
        dsimp only
        rw [Function.update_self, List.getElem?_set]
        rcases getElem?_concat.mp hr with hold | ⟨rfl, rfl⟩
        · have hlt' := (List.getElem?_eq_some_iff.mp hold).1
          rw [if_neg (by omega)]
          exact hvectors r e (by simpa [past] using hold)
        · rw [if_pos hcount, if_pos hlt]
      · simp at hstep
  | written =>
      obtain rfl := Option.some.inj hstep
      refine ⟨h, ⟨hcount, harray, by simp [past], hvectors, ?_, hids⟩, List.prefix_rfl, rfl⟩
      have hvid : vid ∉ h.map Prod.fst := by
        rw [List.map_append, List.nodup_append] at hnodup
        intro hmem
        exact hnodup.2.2 vid hmem vid (by simp [begun]) rfl
      intro i r
      have hupdate := update_row hvid (by simpa [past] using hrows) i r
      rw [List.length_map, ← hcount] at hupdate
      simpa [past] using hupdate
  | mapped =>
      obtain rfl := Option.some.inj hstep
      refine ⟨h, ⟨hcount, harray, by simp [past], hvectors, hrows, ?_⟩, List.prefix_rfl, rfl⟩
      rw [hids]
      simp [past]
  | appended =>
      obtain rfl := Option.some.inj hstep
      refine ⟨h ++ [(vid, vec)], ⟨?_, harray, by simp [past], ?_, ?_, ?_⟩,
        List.prefix_append _ _, by simp [begun]⟩
      · rw [hcount, List.length_append, List.length_singleton]
      · simpa [past] using hvectors
      · simpa [past] using hrows
      · simpa [past] using hids

/-- **Every statement.** -/
theorem holds_step {s s' : Writer I V} {h : List (I × V)} (hs : Holds s h) {a : WriterAct I V}
    (hnodup : ((h ++ begun s.pending ++ a.entry.toList).map Prod.fst).Nodup)
    (hstep : writer_step s a = some s') :
    ∃ h', Holds s' h' ∧ h <+: h' ∧
      h' ++ begun s'.pending = h ++ begun s.pending ++ a.entry.toList := by
  cases a with
  | append vid vec =>
      cases hpending : s.pending with
      | none =>
          rw [writer_step, hpending] at hstep
          obtain rfl := Option.some.inj hstep
          refine ⟨h, ?_, List.prefix_rfl, by simp [begun, WriterAct.entry]⟩
          obtain ⟨hcount, harray, hroom, hvectors, hrows, hids⟩ := hs
          rw [hpending] at hvectors hrows hids
          exact ⟨hcount, harray, by simp [past], hvectors, hrows, hids⟩
      | some e => simp [writer_step, hpending] at hstep
  | advance =>
      have hentry : (WriterAct.advance : WriterAct I V).entry.toList = [] := rfl
      rw [hentry, List.append_nil] at hnodup ⊢
      exact holds_advance hs hnodup hstep

/-- A snapshot of the first entries `h`: its array has them. -/
structure Captures (s : Writer I V) (c : Corpus) (h : List (I × V)) : Prop where
  count : c.n = h.length
  array : c.mat < s.next_array
  vectors : ∀ (r : ℕ) (e : I × V), h[r]? = some e → (s.arrays c.mat)[r]? = some (some e.2)

/-- **The frame of a statement**: it stores behind the rows in use, or in a new array. -/
theorem step_frame {s s' : Writer I V} {a : WriterAct I V} (hstep : writer_step s a = some s') :
    s.next_array ≤ s'.next_array ∧ ∀ m r, m < s.next_array → r < s.corpus_n →
      (s'.arrays m)[r]? = (s.arrays m)[r]? := by
  cases a with
  | append vid vec =>
      rw [writer_step] at hstep
      cases hpending : s.pending with
      | none =>
          rw [hpending] at hstep
          obtain rfl := Option.some.inj hstep
          exact ⟨le_refl _, fun _ _ _ _ => rfl⟩
      | some e => simp [hpending] at hstep
  | advance =>
      rw [writer_step, Writer.advance] at hstep
      split at hstep
      · simp at hstep
      · obtain rfl := Option.some.inj hstep
        split
        · refine ⟨Nat.le_succ _, fun m r hm _ => ?_⟩
          change (Function.update s.arrays s.next_array _ m)[r]? = _
          rw [Function.update_of_ne (Nat.ne_of_lt hm)]
        · exact ⟨le_refl _, fun _ _ _ _ => rfl⟩
      · split at hstep
        · obtain rfl := Option.some.inj hstep
          refine ⟨le_refl _, fun m r _ hr => ?_⟩
          dsimp only
          by_cases hsame : m = s.corpus_mat
          · rw [hsame, Function.update_self, List.getElem?_set_ne (by omega)]
          · rw [Function.update_of_ne hsame]
        · simp at hstep
      all_goals
        obtain rfl := Option.some.inj hstep
        exact ⟨le_refl _, fun _ _ _ _ => rfl⟩

/-- **A snapshot is not disturbed** by a statement. -/
theorem captures_step {s s' : Writer I V} {c : Corpus} {h₀ h : List (I × V)}
    (hc : Captures s c h₀) (hpre : h₀ <+: h) (hs : Holds s h) {a : WriterAct I V}
    (hstep : writer_step s a = some s') : Captures s' c h₀ := by
  obtain ⟨hnext, hframe⟩ := step_frame hstep
  refine ⟨hc.count, lt_of_lt_of_le hc.array hnext, fun r e hr => ?_⟩
  have hlt := (List.getElem?_eq_some_iff.mp hr).1
  have hlen := hpre.length_le
  have hcount := hs.count
  rw [hframe c.mat r hc.array (by omega)]
  exact hc.vectors r e hr

/-- **Whole runs**: what is done stays done, and a snapshot keeps its rows. -/
theorem holds_run (acts : List (WriterAct I V)) :
    ∀ {s s' : Writer I V} {h : List (I × V)}, Holds s h →
      ((h ++ begun s.pending ++ acts.filterMap WriterAct.entry).map Prod.fst).Nodup →
      Trace.run writer_step s acts = some s' →
      ∃ h', Holds s' h' ∧ h <+: h' ∧
        h' ++ begun s'.pending = h ++ begun s.pending ++ acts.filterMap WriterAct.entry ∧
        ∀ c h₀, h₀ <+: h → Captures s c h₀ → Captures s' c h₀ := by
  induction acts with
  | nil =>
      intro s s' h hs _ hrun
      obtain rfl := Option.some.inj hrun
      exact ⟨h, hs, List.prefix_rfl, by simp, fun _ _ _ hc => hc⟩
  | cons a acts ih =>
      intro s s' h hs hnodup hrun
      have hentry : (a :: acts).filterMap WriterAct.entry
          = a.entry.toList ++ acts.filterMap WriterAct.entry := by
        cases a <;> rfl
      rw [hentry, ← List.append_assoc] at hnodup ⊢
      obtain ⟨m, hm, hms⟩ := Trace.run_cons_some hrun
      obtain ⟨h₁, hh₁, hpre₁, heq₁⟩ := holds_step hs
        (hnodup.sublist ((List.sublist_append_left _ _).map _)) hm
      rw [← heq₁] at hnodup ⊢
      obtain ⟨h₂, hh₂, hpre₂, heq₂, hcaptures⟩ := ih hh₁ hnodup hms
      exact ⟨h₂, hh₂, hpre₁.trans hpre₂, heq₂, fun c h₀ hpre hc =>
        hcaptures c h₀ (hpre.trans hpre₁) (captures_step hc hpre hs hm)⟩

omit [DecidableEq I] in
theorem snapshot_corpus_eq {s : Writer I V} {c : Corpus} (hc : s.snapshot_corpus = some c) :
    s.pending = none ∧ c = ⟨s.corpus_mat, s.corpus_n⟩ := by
  cases hpending : s.pending with
  | none =>
      rw [Writer.snapshot_corpus, hpending] at hc
      exact ⟨rfl, (Option.some.inj hc).symm⟩
  | some e => simp [Writer.snapshot_corpus, hpending] at hc

omit [DecidableEq I] in
/-- A snapshot has everything that was appended before it. -/
theorem captures_snapshot {s : Writer I V} {h : List (I × V)} (hs : Holds s h) :
    Captures s ⟨s.corpus_mat, s.corpus_n⟩ h := by
  refine ⟨hs.count, hs.array, fun r e hr => hs.vectors r e ?_⟩
  rw [List.getElem?_append_left (List.getElem?_eq_some_iff.mp hr).1, hr]

/-! ## What the reader sees -/

omit [DecidableEq I] in
/-- **One lookup**: the row of an id that was there when the snapshot was taken. -/
theorem row_for_eq_some {s : Writer I V} {c : Corpus} {h₀ h : List (I × V)} (hs : Holds s h)
    (hpre : h₀ <+: h) (hn : c.n = h₀.length) {i : I} {r : ℕ} :
    s.row_for c i = some r ↔ (h₀.map Prod.fst)[r]? = some i := by
  rw [Writer.row_for, Option.filter_eq_some_iff, hs.rows, decide_eq_true_iff, hn]
  obtain ⟨rest, rfl⟩ := hpre
  rw [List.append_assoc, List.map_append]
  constructor
  · rintro ⟨hrow, hlt⟩
    rwa [List.getElem?_append_left (by simpa using hlt)] at hrow
  · intro hrow
    have hlt := (List.getElem?_eq_some_iff.mp hrow).1
    rw [List.getElem?_append_left hlt]
    exact ⟨hrow, by simpa using hlt⟩

omit [DecidableEq I] in
/-- `rows_for` is determined by the entries of the snapshot. -/
theorem rows_for_congr {s s' : Writer I V} {c : Corpus} {h₀ h h' : List (I × V)} (hs : Holds s h)
    (hs' : Holds s' h') (hpre : h₀ <+: h) (hpre' : h₀ <+: h') (hn : c.n = h₀.length)
    {wanted wanted' : List I} (hperm : wanted'.Perm wanted) :
    s'.rows_for c wanted' = s.rows_for c wanted := by
  have hrow : s'.row_for c = s.row_for c := by
    funext i
    ext r
    rw [row_for_eq_some hs hpre hn, row_for_eq_some hs' hpre' hn]
  rw [Writer.rows_for, Writer.rows_for, hrow]
  exact Ranking.insertionSort_eq_of_perm (hperm.filterMap _)

omit [DecidableEq I] in
theorem mem_rows_for {s : Writer I V} {c : Corpus} {h₀ h : List (I × V)} (hs : Holds s h)
    (hpre : h₀ <+: h) (hn : c.n = h₀.length) {wanted : List I} {r : ℕ} :
    r ∈ s.rows_for c wanted ↔ ∃ i ∈ wanted, (h₀.map Prod.fst)[r]? = some i := by
  rw [Writer.rows_for, List.mem_insertionSort, List.mem_filterMap]
  simp only [row_for_eq_some hs hpre hn]

omit [DecidableEq I] in
/-- No two ids have one row, so the rows ascend strictly. -/
theorem rows_for_ascending {s : Writer I V} {c : Corpus} {h₀ h : List (I × V)} (hs : Holds s h)
    (hpre : h₀ <+: h) (hn : c.n = h₀.length) {wanted : List I} (hnodup : wanted.Nodup) :
    (s.rows_for c wanted).Pairwise (· < ·) := by
  have hdistinct : (wanted.filterMap (s.row_for c)).Nodup := by
    apply hnodup.filterMap
    intro i j r hi hj
    have hi := (row_for_eq_some hs hpre hn).mp hi
    have hj := (row_for_eq_some hs hpre hn).mp hj
    exact Option.some.inj (hi.symm.trans hj)
  have hrows : (s.rows_for c wanted).Nodup :=
    (List.perm_insertionSort _ _).nodup_iff.mpr hdistinct
  exact (List.pairwise_insertionSort (· ≤ ·) _).imp₂
    (fun _ _ hle hne => lt_of_le_of_ne hle hne) hrows

omit [DecidableEq I] in
/-- What is gathered are the entries of the snapshot. -/
theorem read_eq {s : Writer I V} {c : Corpus} {h₀ h : List (I × V)} (hs : Holds s h)
    (hpre : h₀ <+: h) (hc : Captures s c h₀) (wanted : List I) :
    s.read c wanted = (s.rows_for c wanted,
      (s.rows_for c wanted).map (fun r => (h₀.map Prod.fst)[r]?),
      (s.rows_for c wanted).map (fun r => (h₀.map Prod.snd)[r]?)) := by
  have hlt : ∀ r ∈ s.rows_for c wanted, r < h₀.length := by
    intro r hr
    obtain ⟨i, -, hi⟩ := (mem_rows_for hs hpre hc.count).mp hr
    simpa using (List.getElem?_eq_some_iff.mp hi).1
  refine Prod.ext rfl (Prod.ext (List.map_congr_left fun r hr => ?_)
    (List.map_congr_left fun r hr => ?_))
  · obtain ⟨rest, rfl⟩ := hpre
    rw [hs.ids, List.append_assoc, List.map_append,
      List.getElem?_append_left (by simpa using hlt r hr)]
  · have hrow : h₀[r]? = some (h₀.get ⟨r, hlt r hr⟩) := List.getElem?_eq_getElem _
    rw [hc.vectors r _ hrow, List.getElem?_map, hrow]
    rfl

/-- **Snapshots are isolated.** Ids are appended once. A snapshot is taken after the calls in
`before`; the reader computes at once, or between any two later statements, and gets the same.
The rows ascend and are those of the wanted ids that were appended by then. -/
theorem snapshot_isolated {before after : List (WriterAct I V)} {s s' : Writer I V} {c : Corpus}
    (hdistinct : (((before ++ after).filterMap WriterAct.entry).map Prod.fst).Nodup)
    (hs : Trace.run writer_step Writer.init before = some s) (hc : s.snapshot_corpus = some c)
    (hs' : Trace.run writer_step s after = some s') {wanted wanted' : List I}
    (hnodup : wanted.Nodup) (hperm : wanted'.Perm wanted) :
    s'.read c wanted' = s.read c wanted ∧
      (s.rows_for c wanted).Pairwise (· < ·) ∧
      (∀ r, r ∈ s.rows_for c wanted ↔
        ∃ i ∈ wanted, ((before.filterMap WriterAct.entry).map Prod.fst)[r]? = some i) ∧
      s.read c wanted = (s.rows_for c wanted,
        (s.rows_for c wanted).map
          (fun r => ((before.filterMap WriterAct.entry).map Prod.fst)[r]?),
        (s.rows_for c wanted).map
          (fun r => ((before.filterMap WriterAct.entry).map Prod.snd)[r]?)) := by
  obtain ⟨hpending, rfl⟩ := snapshot_corpus_eq hc
  have hbegun : begun s.pending = [] := by rw [hpending]; rfl
  have hsplit := hdistinct
  rw [List.filterMap_append] at hsplit
  obtain ⟨h, hh, -, heq, -⟩ := holds_run before holds_init
    (by simpa [begun, Writer.init] using hsplit.sublist ((List.sublist_append_left _ _).map _)) hs
  -- nothing is going on when the snapshot is taken
  obtain rfl : h = before.filterMap WriterAct.entry := by
    rwa [hbegun, List.append_nil] at heq
  have hcaptures := captures_snapshot hh
  obtain ⟨h', hh', hpre, -, hkeep⟩ := holds_run after hh (by simpa [hbegun] using hsplit) hs'
  have hcaptures' := hkeep _ _ List.prefix_rfl hcaptures
  have hrows := rows_for_congr hh hh' List.prefix_rfl hpre hcaptures.count hperm
  refine ⟨?_, rows_for_ascending hh List.prefix_rfl hcaptures.count hnodup,
    fun r => mem_rows_for hh List.prefix_rfl hcaptures.count,
    read_eq hh List.prefix_rfl hcaptures wanted⟩
  rw [read_eq hh' hpre hcaptures', read_eq hh List.prefix_rfl hcaptures, hrows]

end Invariant

/-- The statements of one append. -/
def whole_append (vid : ℕ) (vec : ℤ) : List (WriterAct ℕ ℤ) :=
  [.append vid vec, .advance, .advance, .advance, .advance, .advance]

/-- A snapshot of two entries, read after a third was appended and in the middle of a fourth. -/
theorem snapshot_isolated_in_append :
    ∃ s s', Trace.run writer_step Writer.init (whole_append 7 70 ++ whole_append 8 80) = some s ∧
      s.snapshot_corpus = some ⟨1, 2⟩ ∧
      Trace.run writer_step s (whole_append 9 90 ++ (whole_append 6 60).take 4) = some s' ∧
      s'.read ⟨1, 2⟩ [9, 8, 6, 7] = s.read ⟨1, 2⟩ [7, 6, 8, 9] ∧
      (s'.read ⟨1, 2⟩ [9, 8, 6, 7]).1 = [0, 1] := by
  have hall : (Trace.run writer_step Writer.init (whole_append 7 70 ++ whole_append 8 80)).bind
      (fun s => (Trace.run writer_step s (whole_append 9 90 ++ (whole_append 6 60).take 4)).map
        (fun s' => (s.snapshot_corpus, (s'.read ⟨1, 2⟩ [9, 8, 6, 7]).1)))
      = some (some ⟨1, 2⟩, [0, 1]) := by
    decide +kernel
  obtain ⟨s, hs, hrest⟩ := Option.bind_eq_some_iff.mp hall
  obtain ⟨s', hs', hpair⟩ := Option.map_eq_some_iff.mp hrest
  obtain ⟨hc, hrows⟩ := Prod.mk.inj hpair
  refine ⟨s, s', hs, hc, hs', ?_, hrows⟩
  exact (snapshot_isolated (by decide) hs hc hs' (by decide) (by decide)).1

end NanoDB.Experiment
