/-
`cluster/id_map_store.hpp`: external ids to dense local ids.

Every external id that was ever seen has a local id, its position in `reverse`, and both
are persisted as one record in an append-only file before they are used. Nothing is ever
removed. Reopening reads the records in order, so as long as every record is complete a
store is its file (`reopen`), and a run of calls and restarts is the list of the ids in the
order of their first assignment (`id_run_spec`).

`open_file` does not clear the maps. It is called once on each `IdMapStore`, so a restart
opens another one.

A local id is a `uint32_t` in the source and a natural number here. Local ids are dense, so the two
are the same as long as a store has at most `2 ^ 32` keys.
-/
import NanoDB.Lib.LittleEndian
import NanoDB.RaftLog

set_option autoImplicit false

namespace NanoDB.Index

open Raft (Bytes)
open LittleEndian

/-- `IdMapStore`. -/
structure IdMapStore where
  file : Bytes := []
  forward : Bytes → Option ℕ := fun _ => none
  reverse : List Bytes := []

/-- The two maps learn the next id. -/
def IdMapStore.push (m : IdMapStore) (external_id : Bytes) : IdMapStore :=
  { m with
    forward := Function.update m.forward external_id (some m.reverse.length)
    reverse := m.reverse ++ [external_id] }

/-- What `persist` appends; the length is a `uint32_t`. -/
def record (external_id : Bytes) : Bytes :=
  encode 4 external_id.length ++ external_id.take (external_id.length % 2 ^ 32)

/-- `assign`: the store, the local id, and whether it is new. -/
def IdMapStore.assign (m : IdMapStore) (external_id : Bytes) : IdMapStore × ℕ × Bool :=
  match m.forward external_id with
  | some local_id => (m, local_id, false)
  | none =>
      ({ m.push external_id with file := m.file ++ record external_id }, m.reverse.length, true)

def IdMapStore.lookup (m : IdMapStore) (external_id : Bytes) : Option ℕ := m.forward external_id

def IdMapStore.reverse_lookup (m : IdMapStore) (local_id : ℕ) : Bytes := m.reverse.getD local_id []

def IdMapStore.list_all_external_ids (m : IdMapStore) : List Bytes := m.reverse

/-- The loop of `rebuild_index` on what is left of the file. A record that is cut short ends
it. -/
def IdMapStore.rebuild_index : ℕ → Bytes → IdMapStore → IdMapStore
  | 0, _, m => m
  | fuel + 1, rest, m =>
      if rest.length < 4 then m
      else
        let len := decode (rest.take 4)
        if (rest.drop 4).length < len then m
        else
          IdMapStore.rebuild_index fuel ((rest.drop 4).drop len) (m.push ((rest.drop 4).take len))

def IdMapStore.open_file (file : Bytes) : IdMapStore :=
  { IdMapStore.rebuild_index file.length file {} with file := file }

/-! ## A store is the list of its external ids -/

/-- The store that has seen these ids, in this order. -/
def IdMapStore.of (xs : List Bytes) : IdMapStore :=
  { xs.foldl IdMapStore.push {} with file := (xs.map record).flatten }

/-- The ids are distinct and fit a record. -/
structure IdMapStore.Wf (m : IdMapStore) : Prop where
  eq : m = IdMapStore.of m.reverse
  nodup : m.reverse.Nodup
  short : ∀ x ∈ m.reverse, x.length < 2 ^ 32

theorem of_reverse (xs : List Bytes) : (IdMapStore.of xs).reverse = xs := by
  have key : ∀ (xs : List Bytes) (m : IdMapStore),
      (xs.foldl IdMapStore.push m).reverse = m.reverse ++ xs := by
    intro xs
    induction xs with
    | nil =>
        intro m
        rw [List.append_nil]
        rfl
    | cons x xs ih =>
        intro m
        rw [List.foldl_cons, ih, IdMapStore.push, List.append_assoc, List.singleton_append]
  exact key xs {}

theorem of_append (xs : List Bytes) (x : Bytes) :
    IdMapStore.of (xs ++ [x]) = { (IdMapStore.of xs).push x with
      file := (IdMapStore.of xs).file ++ record x } := by
  unfold IdMapStore.of
  rw [List.foldl_append, List.map_append, List.flatten_append]
  simp [IdMapStore.push]

theorem wf_empty : IdMapStore.Wf {} := ⟨rfl, List.nodup_nil, by simp⟩

/-- The two maps are inverse to each other. -/
theorem forward_iff {m : IdMapStore} (hm : m.Wf) (x : Bytes) (i : ℕ) :
    m.forward x = some i ↔ m.reverse[i]? = some x := by
  -- by induction from the end, as `push` grows the map
  have key : ∀ xs : List Bytes, xs.Nodup →
      ((IdMapStore.of xs).forward x = some i ↔ xs[i]? = some x) := by
    intro xs
    induction xs using List.reverseRecOn with
    | nil =>
        intro _
        simp [IdMapStore.of]
    | append_singleton xs y ih =>
        intro hnodup
        have hxs : xs.Nodup := List.Nodup.of_append_left hnodup
        have hy : y ∉ xs := fun h => (List.nodup_append.mp hnodup).2.2 y h y (by simp) rfl
        rw [of_append]
        dsimp only [IdMapStore.push]
        rw [of_reverse]
        -- the id pushed last, or one that was there before
        by_cases hxy : x = y
        · subst hxy
          rw [Function.update_self]
          constructor
          · intro h
            rw [← Option.some.inj h, List.getElem?_append_right (le_refl _), Nat.sub_self]
            rfl
          · intro h
            by_cases hi : i < xs.length
            · rw [List.getElem?_append_left hi] at h
              exact absurd (List.mem_of_getElem? h) hy
            · obtain ⟨hlt, -⟩ := List.getElem?_eq_some_iff.mp h
              rw [List.length_append, List.length_singleton] at hlt
              congr 1
              omega
        · rw [Function.update_of_ne hxy, ih hxs]
          by_cases hi : i < xs.length
          · rw [List.getElem?_append_left hi]
          · rw [List.getElem?_append_right (not_lt.mp hi), List.getElem?_singleton,
              List.getElem?_eq_none (not_lt.mp hi)]
            constructor
            · intro h
              simp at h
            · intro h
              split at h
              · exact absurd (Option.some.inj h).symm hxy
              · exact h
  rw [hm.eq, of_reverse]
  exact key m.reverse hm.nodup

/-- Two external ids never share a slot. -/
theorem forward_inj {m : IdMapStore} (hm : m.Wf) {x y : Bytes} {i : ℕ} (hx : m.forward x = some i)
    (hy : m.forward y = some i) : x = y := by
  rw [forward_iff hm] at hx hy
  exact Option.some.inj (hx.symm.trans hy)

/-- What `assign` answers, and what it leaves. -/
theorem assign_spec {m : IdMapStore} (hm : m.Wf) {x : Bytes} (hx : x.length < 2 ^ 32) :
    (m.assign x).1.Wf ∧ (m.assign x).1.forward x = some (m.assign x).2.1 ∧
      (∀ y, y ≠ x → (m.assign x).1.forward y = m.forward y) ∧
      ((m.forward x = some (m.assign x).2.1 ∧ (m.assign x).2.2 = false ∧ (m.assign x).1 = m) ∨
        (m.forward x = none ∧ (m.assign x).2 = (m.reverse.length, true) ∧
          (m.assign x).1.reverse = m.reverse ++ [x])) := by
  unfold IdMapStore.assign
  cases hfx : m.forward x with
  | some i => exact ⟨hm, hfx, fun _ _ => rfl, Or.inl ⟨rfl, rfl, rfl⟩⟩
  | none =>
      -- an id that was not found is not stored either
      have hnew : x ∉ m.reverse := by
        intro hmem
        obtain ⟨i, hi⟩ := List.mem_iff_getElem?.mp hmem
        rw [(forward_iff hm x i).mpr hi] at hfx
        simp at hfx
      refine ⟨⟨?_, ?_, ?_⟩, ?_, fun y hy => ?_, Or.inr ⟨rfl, rfl, rfl⟩⟩
      · have happend := of_append m.reverse x
        rw [← hm.eq] at happend
        exact happend.symm
      · refine List.nodup_append.mpr ⟨hm.nodup, by simp, fun a ha b hb => ?_⟩
        rintro rfl
        exact hnew (List.mem_singleton.mp hb ▸ ha)
      · intro y hy
        rcases List.mem_append.mp hy with hy | hy
        · exact hm.short y hy
        · exact List.mem_singleton.mp hy ▸ hx
      · simp [IdMapStore.push]
      · simp [IdMapStore.push, hy]

/-! ## Reopening -/

theorem record_short {x : Bytes} (hx : x.length < 2 ^ 32) :
    record x = encode 4 x.length ++ x := by
  rw [record, Nat.mod_eq_of_lt hx, List.take_length]

/-- One round of the loop on a complete record. -/
theorem rebuild_record {x : Bytes} (hx : x.length < 2 ^ 32) (fuel : ℕ) (rest : Bytes)
    (m : IdMapStore) :
    IdMapStore.rebuild_index (fuel + 1) (record x ++ rest) m
      = IdMapStore.rebuild_index fuel rest (m.push x) := by
  have hlen : decode (encode 4 x.length) = x.length := decode_encode_of_lt (by omega)
  rw [record_short hx, List.append_assoc, IdMapStore.rebuild_index, if_neg (by simp)]
  simp only [take_encode, drop_encode, hlen]
  rw [if_neg (by simp), List.take_left' rfl, List.drop_left' rfl]

theorem rebuild_records (xs : List Bytes) (hxs : ∀ x ∈ xs, x.length < 2 ^ 32) :
    ∀ (fuel : ℕ) (m : IdMapStore), xs.length ≤ fuel →
      IdMapStore.rebuild_index fuel (xs.map record).flatten m = xs.foldl IdMapStore.push m := by
  induction xs with
  | nil =>
      intro fuel m _
      cases fuel with
      | zero => rfl
      | succ fuel =>
          rw [IdMapStore.rebuild_index, if_pos (by simp)]
          rfl
  | cons x xs ih =>
      intro fuel m hfuel
      obtain ⟨fuel, rfl⟩ : ∃ f, fuel = f + 1 := ⟨fuel - 1, by simp at hfuel; omega⟩
      rw [List.map_cons, List.flatten_cons, rebuild_record (hxs x List.mem_cons_self),
        List.foldl_cons]
      exact ih (fun y hy => hxs y (List.mem_cons_of_mem _ hy)) fuel (m.push x)
        (by simpa using hfuel)

/-- **A store is its file.** -/
theorem reopen {m : IdMapStore} (hm : m.Wf) : IdMapStore.open_file m.file = m := by
  have hlong : m.reverse.length ≤ m.file.length := by
    have key : ∀ xs : List Bytes, xs.length ≤ (xs.map record).flatten.length := by
      intro xs
      induction xs with
      | nil => simp
      | cons x xs ih =>
          rw [List.map_cons, List.flatten_cons, List.length_append, List.length_cons, record,
            List.length_append, length_encode]
          omega
    rw [hm.eq, of_reverse]
    exact key m.reverse
  have hfile : m.file = (m.reverse.map record).flatten := congrArg IdMapStore.file hm.eq
  unfold IdMapStore.open_file
  rw [hfile, rebuild_records m.reverse hm.short _ {} (hfile ▸ hlong)]
  exact hm.eq.symm

/-! ## Whole runs -/

inductive IdOp
  | assign (external_id : Bytes)
  | restart
deriving DecidableEq

/-- One call, or a restart: another `IdMapStore` is opened on the file. -/
def id_step (m : IdMapStore) : IdOp → IdMapStore
  | .assign external_id => (m.assign external_id).1
  | .restart => IdMapStore.open_file m.file

/-- The external ids that were assigned, with repetitions. -/
def assigned (ops : List IdOp) : List Bytes :=
  ops.filterMap (fun | .assign external_id => some external_id | .restart => none)

theorem assigned_append (ops ops' : List IdOp) :
    assigned (ops ++ ops') = assigned ops ++ assigned ops' := List.filterMap_append

/-- The order of first assignment. -/
theorem eraseDups_concat (xs : List Bytes) (x : Bytes) :
    (xs ++ [x]).eraseDups = if x ∈ xs then xs.eraseDups else xs.eraseDups ++ [x] := by
  rw [List.eraseDups_append]
  by_cases hx : x ∈ xs
  · rw [if_pos hx]
    simp [List.removeAll, hx]
  · have hone : [x].removeAll xs = [x] := by simp [List.removeAll, hx]
    rw [if_neg hx, hone]
    rfl

theorem mem_reverse_iff {m : IdMapStore} (hm : m.Wf) (x : Bytes) :
    x ∈ m.reverse ↔ ∃ i, m.forward x = some i := by
  rw [List.mem_iff_getElem?]
  exact exists_congr (fun i => (forward_iff hm x i).symm)

/-- **Every run** leaves the store of the ids in the order of their first assignment. -/
theorem id_run_spec (ops : List IdOp) (hshort : ∀ x ∈ assigned ops, x.length < 2 ^ 32) :
    (ops.foldl id_step {}).Wf ∧ (ops.foldl id_step {}).reverse = (assigned ops).eraseDups := by
  induction ops using List.reverseRecOn with
  | nil => exact ⟨wf_empty, rfl⟩
  | append_singleton ops op ih =>
      rw [assigned_append] at hshort ⊢
      obtain ⟨hwf, hrev⟩ := ih (fun x hx => hshort x (List.mem_append_left _ hx))
      rw [List.foldl_append]
      cases op with
      | restart =>
          change (IdMapStore.open_file _).Wf ∧ (IdMapStore.open_file _).reverse = _
          rw [reopen hwf]
          exact ⟨hwf, hrev.trans (congrArg List.eraseDups (List.append_nil _).symm)⟩
      | assign x =>
          have hx : x.length < 2 ^ 32 :=
            hshort x (List.mem_append_right _ (List.mem_singleton_self x))
          obtain ⟨hwf', -, -, hcase⟩ := assign_spec hwf hx
          refine ⟨hwf', ?_⟩
          change ((ops.foldl id_step {}).assign x).1.reverse = (assigned ops ++ [x]).eraseDups
          have hseen : x ∈ assigned ops ↔ ∃ i, (ops.foldl id_step {}).forward x = some i := by
            rw [← mem_reverse_iff hwf, hrev, List.mem_eraseDups]
          rw [eraseDups_concat]
          rcases hcase with ⟨hold, -, hsame⟩ | ⟨hnew, -, hpush⟩
          · rw [if_pos (hseen.mpr ⟨_, hold⟩), hsame, hrev]
          · rw [if_neg (by rw [hseen, hnew]; simp), hpush, hrev]

/-- **A durable dense bijection.** After any assignments and restarts the two maps are inverse
to each other, the local ids in use are those below the size, and the external ids are listed
in the order of their first assignment. Every `assign` answered with the local id its external
id still has, and with "new" the first time only. -/
theorem id_map_dense_bijection (ops : List IdOp)
    (hshort : ∀ x ∈ assigned ops, x.length < 2 ^ 32)
    (hfew : (assigned ops).eraseDups.length < 2 ^ 32) :
    (∀ x i, (ops.foldl id_step {}).forward x = some i ↔
      (ops.foldl id_step {}).reverse[i]? = some x) ∧
    (∀ i, (∃ x, (ops.foldl id_step {}).forward x = some i) ↔
      i < (ops.foldl id_step {}).reverse.length) ∧
    (ops.foldl id_step {}).list_all_external_ids = (assigned ops).eraseDups ∧
    ∀ before x after, ops = before ++ .assign x :: after →
      ((before.foldl id_step {}).assign x).2.1 < 2 ^ 32 ∧
      (ops.foldl id_step {}).forward x = some ((before.foldl id_step {}).assign x).2.1 ∧
      (((before.foldl id_step {}).assign x).2.2 = true ↔ x ∉ assigned before) := by
  obtain ⟨hwf, hrev⟩ := id_run_spec ops hshort
  refine ⟨forward_iff hwf, fun i => ?_, hrev, fun before x after hops => ?_⟩
  · constructor
    · rintro ⟨x, hx⟩
      exact (List.getElem?_eq_some_iff.mp ((forward_iff hwf x i).mp hx)).1
    · intro hi
      exact ⟨_, (forward_iff hwf _ i).mpr (List.getElem?_eq_getElem hi)⟩
  · subst hops
    have hcut : assigned (before ++ .assign x :: after)
        = assigned (before ++ [.assign x]) ++ assigned after := by
      rw [← assigned_append, List.append_assoc, List.singleton_append]
    rw [hcut] at hshort hfew hrev
    have hshort' := fun y hy => hshort y (List.mem_append_left (assigned after) hy)
    rw [assigned_append] at hshort'
    obtain ⟨hwf₀, hrev₀⟩ := id_run_spec before (fun y hy => hshort' y (List.mem_append_left _ hy))
    obtain ⟨hwf₁, hx, -, hcase⟩ := assign_spec hwf₀
      (hshort' x (List.mem_append_right _ (List.mem_singleton_self x)))
    -- later calls only append to the list
    obtain ⟨-, hrev₁⟩ := id_run_spec (before ++ [.assign x])
      (fun y hy => hshort y (List.mem_append_left (assigned after) hy))
    rw [List.foldl_append] at hrev₁
    change ((before.foldl id_step {}).assign x).1.reverse = _ at hrev₁
    rw [forward_iff hwf₁, hrev₁] at hx
    have hpos := (List.getElem?_eq_some_iff.mp hx).1
    rw [List.eraseDups_append] at hrev hfew
    rw [← List.getElem?_append_left hpos, ← hrev, ← forward_iff hwf] at hx
    refine ⟨?_, hx, ?_⟩
    · rw [List.length_append] at hfew
      omega
    · rw [← List.mem_eraseDups, ← hrev₀, mem_reverse_iff hwf₀]
      rcases hcase with ⟨hold, hno, -⟩ | ⟨hnew, hyes, -⟩
      · rw [hno, hold]
        simp
      · rw [hyes, hnew]
        simp

/-- The empty id and another one, a restart, and the empty id again. -/
theorem id_map_dense_bijection_restart :
    (∀ x ∈ assigned [.assign [], .assign [97], .restart, .assign []], x.length < 2 ^ 32) ∧
    ([IdOp.assign [], .assign [97], .restart, .assign []].foldl id_step {}).list_all_external_ids
      = [[], [97]] :=
  ⟨by decide, (id_map_dense_bijection [.assign [], .assign [97], .restart, .assign []]
    (by decide) (by decide)).2.2.1⟩

end NanoDB.Index
