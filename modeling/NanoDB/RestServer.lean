/-
`src/server.cpp`: the REST server around one index, `POST /vectors`, `POST /search`,
`DELETE /vectors/:id` and `GET /stats`, one request at a time.

A body is parsed JSON; the parser and the conversions from `double` are parameters, everything
the handlers do with the parsed value is here, with the texts of the exceptions they report. The
level an insertion draws is part of the request. What `httplib` makes of an exception that leaves
a handler is not modelled (`Answer.thrown`).

What the server is for is a table from ids to vectors and metadata. `serve_answers` says that it
behaves as one, for every request, well formed or not.

# The one awkward thing, named up front

An id of the table has 32 bits, and the two ways to write one into a request are cut off without
a word: `get<id_t>` and the assignment of `stoul` both keep the low bits. And `insert` saves no
metadata if there are none, so an id that is posted again without metadata has those of the vector
it replaces. The table does both as the code does.

`save_metadata` takes the id as an `int`. For an id from 2^31 on with metadata it throws, past the
`catch` of the handler, when the vector is in the index. Within 1000 of 2^31 and of 2^32 the code
is undefined: `id + 1000` overflows, unless `offsets_` is that long already, or `offsets_[id]` lies
in front of the vector. `Request.Defined` leaves these out.
-/
import NanoDB.Distance
import NanoDB.HnswSearch
import NanoDB.Lib.Service
import NanoDB.ShardService

set_option autoImplicit false

namespace NanoDB.Rest

open Raft (Bytes)
open Index
open Beam (Ties)
open Shard (VECTOR_DIM Vec to_vec)
open Distance (DistanceMetric)

/-! ## JSON -/

/-- A parsed value of `nlohmann::json`; `F` are its floating-point numbers. -/
inductive Value (F : Type)
  | null
  | boolean (b : Bool)
  | integer (n : ℤ)
  | float (x : F)
  | string (s : Bytes)
  | array (elements : List (Value F))
  | object (fields : List (String × Value F))

/-- The conversions of the source from `double`, and from integers to `float`. -/
structure Numbers (F G : Type) where
  float_of_integer : ℤ → G
  float_of_double : F → G
  id_of_double : F → ℕ
  int_of_double : F → ℤ

section Json

variable {F G : Type}

def Value.type_name : Value F → String
  | .null => "null"
  | .boolean _ => "boolean"
  | .integer _ => "number"
  | .float _ => "number"
  | .string _ => "string"
  | .array _ => "array"
  | .object _ => "object"

/-- `type_error::create(id, what)`. -/
def type_error (id : ℕ) (what : String) : String :=
  "[json.exception.type_error." ++ toString id ++ "] " ++ what

def Value.contains (j : Value F) (key : String) : Bool :=
  match j with
  | .object fields => (fields.lookup key).isSome
  | _ => false

/-- `j[key]`, of an object that has the key. -/
def Value.field (j : Value F) (key : String) : Value F :=
  match j with
  | .object fields => (fields.lookup key).getD .null
  | _ => .null

def Value.size : Value F → ℕ
  | .null => 0
  | .array elements => elements.length
  | .object fields => fields.length
  | _ => 1

/-- `get` of an arithmetic type; a boolean counts as 0 or 1. -/
def Value.get_arithmetic {α : Type} (of_integer : ℤ → α) (of_double : F → α) :
    Value F → Except String α
  | .integer n => .ok (of_integer n)
  | .float x => .ok (of_double x)
  | .boolean b => .ok (of_integer (if b then 1 else 0))
  | j => .error (type_error 302 ("type must be number, but is " ++ j.type_name))

variable (num : Numbers F G)

/-- `get<id_t>()`. -/
def Value.get_id (j : Value F) : Except String ℕ :=
  j.get_arithmetic (fun n => (n % 2 ^ 32).toNat) (fun x => num.id_of_double x % 2 ^ 32)

/-- `get<int>()`. -/
def Value.get_int (j : Value F) : Except String ℤ :=
  j.get_arithmetic (fun n => n.bmod (2 ^ 32)) num.int_of_double

/-- `get<float>()`. -/
def Value.get_float (j : Value F) : Except String G :=
  j.get_arithmetic num.float_of_integer num.float_of_double

/-- `for (…) vec[i] = vec_json[i].get<float>()`. -/
def Value.get_floats : Value F → Except String (List G)
  | .array elements => elements.mapM (Value.get_float num)
  | j => .error (type_error 305
      ("cannot use operator[] with a numeric argument with " ++ j.type_name))

/-- `get<std::string>()`. -/
def Value.get_string : Value F → Except String Bytes
  | .string s => .ok s
  | j => .error (type_error 302 ("type must be string, but is " ++ j.type_name))

/-- `body.value("metadata", "")`, of an object. -/
def Value.metadata (j : Value F) : Except String Bytes :=
  if j.contains "metadata" then (j.field "metadata").get_string else .ok []

end Json

/-! ## Requests and answers -/

inductive Request
  | post_vectors (body : Bytes) (level : Fin MAX_LAYERS)
  | post_search (body : Bytes)
  /-- `/vectors/(\d+)`, as the number the digits write. -/
  | delete_vectors (digits : ℕ)
  | get_stats
deriving DecidableEq, Repr

inductive Content (D : Type*)
  | text (s : String)
  | results (rs : List (Result D))
  | stats (element_count vector_dim : ℕ) (metric : String)
deriving DecidableEq, Repr

inductive Answer (D : Type*)
  | response (status : ℕ) (content : Content D)
  | thrown (what : String)
deriving DecidableEq, Repr

def missing_fields (names : String) : String :=
  "\x7b\"error\":\"missing required fields: " ++ names ++ "\"\x7d"

def dimension_mismatch : String :=
  "\x7b\"error\":\"vector dimension mismatch, expected " ++ toString VECTOR_DIM ++ "\"\x7d"

def k_not_positive : String := "\x7b\"error\":\"k must be positive\"\x7d"

/-- What the `catch` clauses write. -/
def invalid_json (what : String) : String := "\x7b\"error\":\"invalid JSON: " ++ what ++ "\"\x7d"

def status_ok (id : ℕ) : String := "\x7b\"status\":\"ok\",\"id\":" ++ toString id ++ "\x7d"

def metric_to_string : DistanceMetric → String
  | .L2 => "L2"
  | .Cosine => "Cosine"
  | .InnerProduct => "InnerProduct"

/-- An exception of the JSON library becomes an answer. -/
def caught {α : Type} (r : Except String α) : Except String α := r.mapError invalid_json

section Handlers

variable {F G : Type} [Zero G] (parse : Bytes → Except String (Value F)) (num : Numbers F G)

/-- The body of `POST /vectors`, up to the call of `insert`: the error text, or what is
inserted. -/
def insert_request (body : Bytes) : Except String (ℕ × Vec G × Bytes) := do
  let body ← caught (parse body)
  if body.contains "id" = false ∨ body.contains "vector" = false then
    throw (missing_fields "id, vector")
  else
    let id ← caught ((body.field "id").get_id num)
    let vec_json := body.field "vector"
    if vec_json.size ≠ VECTOR_DIM then throw dimension_mismatch
    else
      let vec ← caught (vec_json.get_floats num)
      let metadata ← caught body.metadata
      return (id, to_vec vec, metadata)

/-- The body of `POST /search`, up to the call of `search`. -/
def search_request (body : Bytes) : Except String (Vec G × ℕ) := do
  let body ← caught (parse body)
  if body.contains "vector" = false ∨ body.contains "k" = false then
    throw (missing_fields "vector, k")
  else
    let vec_json := body.field "vector"
    let k ← caught ((body.field "k").get_int num)
    if vec_json.size ≠ VECTOR_DIM then throw dimension_mismatch
    else if k ≤ 0 then throw k_not_positive
    else
      let vec ← caught (vec_json.get_floats num)
      return (to_vec vec, k.toNat)

variable {D : Type*} [LinearOrder D] (ties : Ties D) (dist : Vec G → Vec G → D)

/-- `what()` of the `std::length_error`. -/
def resize_error : String := "vector::_M_default_append"

/-- One request. `none` if the index does not return, or the code is undefined. -/
def serve (s : HNSW (Vec G)) : Request → Option (HNSW (Vec G) × Answer D)
  | .post_vectors body level =>
      match insert_request parse num body with
      | .error e => some (s, .response 400 (.text e))
      | .ok (id, vec, metadata) =>
          if metadata = [] ∨ id + 1000 < 2 ^ 31 then
            (s.insert ties dist vec id level metadata).map
              (fun s' => (s', .response 201 (.text (status_ok id))))
          else if 2 ^ 31 ≤ id ∧ id + 1000 < 2 ^ 32 then
            -- `insert` saves the metadata last
            (s.insert ties dist vec id level []).map (fun s' =>
              ({ s' with metadata_storage := s'.metadata_storage.save_negative metadata },
                .thrown resize_error))
          else none
  | .post_search body =>
      match search_request parse num body with
      | .error e => some (s, .response 400 (.text e))
      | .ok (vec, k) =>
          (s.search ties dist vec k 0).map (fun rs => (s, .response 200 (.results rs)))
  | .delete_vectors digits =>
      -- `id_t id = std::stoul(…)`
      if digits < 2 ^ 64 then
        let id := digits % 2 ^ 32
        some (s.delete_vector id, .response 200 (.text (status_ok id)))
      else some (s, .thrown "stoul")
  | .get_stats =>
      some (s, .response 200 (.stats s.element_count VECTOR_DIM (metric_to_string .L2)))

end Handlers

/-! ## What is accepted -/

section Accepted

variable {F G : Type} [Zero G] (parse : Bytes → Except String (Value F)) (num : Numbers F G)

/-- An array of as many numbers as a vector has, and the vector. -/
structure Value.IsVector (j : Value F) (vec : Vec G) (elements : List (Value F))
    (xs : List G) : Prop where
  array : j = .array elements
  length : elements.length = VECTOR_DIM
  numbers : elements.mapM (Value.get_float num) = .ok xs
  vec : vec = to_vec xs

/-- A body from which `POST /vectors` inserts. -/
structure Inserts (body : Bytes) (id : ℕ) (vec : Vec G) (metadata : Bytes)
    (fields : List (String × Value F)) : Prop where
  object : parse body = .ok (.object fields)
  id : ∃ j, fields.lookup "id" = some j ∧ j.get_id num = .ok id
  vector : ∃ j elements xs, fields.lookup "vector" = some j ∧ j.IsVector num vec elements xs
  metadata : fields.lookup "metadata" = none ∧ metadata = [] ∨
    fields.lookup "metadata" = some (.string metadata)

/-- A body for which `POST /search` searches. -/
structure Searches (body : Bytes) (q : Vec G) (k : ℕ) (fields : List (String × Value F)) :
    Prop where
  object : parse body = .ok (.object fields)
  vector : ∃ j elements xs, fields.lookup "vector" = some j ∧ j.IsVector num q elements xs
  k : ∃ j n, fields.lookup "k" = some j ∧ j.get_int num = .ok n ∧ 0 < n ∧ k = n.toNat

/-- The code is defined for the id, if there are metadata to save. -/
def Request.Defined : Request → Prop
  | .post_vectors body _ => ∀ id vec metadata fields,
      Inserts parse num body id vec metadata fields → metadata ≠ [] →
        id + 1000 < 2 ^ 31 ∨ (2 ^ 31 ≤ id ∧ id + 1000 < 2 ^ 32)
  | _ => True

end Accepted

section Requests

theorem bind_ok {ε α β : Type} {x : Except ε α} {f : α → Except ε β} {b : β} :
    (x >>= f) = .ok b ↔ ∃ a, x = .ok a ∧ f a = .ok b := by
  cases x with
  | error e => exact ⟨nofun, fun ⟨_, h, _⟩ => nomatch h⟩
  | ok a => exact ⟨fun h => ⟨a, rfl, h⟩, fun ⟨_, h, hf⟩ => by cases h; exact hf⟩

theorem caught_ok {α : Type} {r : Except String α} {a : α} : caught r = .ok a ↔ r = .ok a := by
  cases r with
  | error e => exact ⟨nofun, nofun⟩
  | ok b => exact Iff.rfl

/-- A check that throws. -/
theorem check_ok {ε α : Type} {c : Prop} [Decidable c] {e : ε} {x : Except ε α} {a : α} :
    (if c then throw e else x) = .ok a ↔ ¬ c ∧ x = .ok a := by
  by_cases hc : c
  · rw [if_pos hc]
    exact ⟨nofun, fun h => absurd hc h.1⟩
  · rw [if_neg hc]
    exact ⟨fun h => ⟨hc, h⟩, fun h => h.2⟩

variable {F G : Type} [Zero G] {parse : Bytes → Except String (Value F)} {num : Numbers F G}

omit [Zero G] in
theorem contains_iff (j : Value F) (key : String) : ¬ j.contains key = false ↔
    ∃ fields v, j = .object fields ∧ fields.lookup key = some v := by
  cases j with
  | object fields =>
      unfold Value.contains
      dsimp only
      rw [Bool.not_eq_false, Option.isSome_iff_exists]
      exact ⟨fun ⟨v, hv⟩ => ⟨fields, v, rfl, hv⟩, fun ⟨_, v, h, hv⟩ => by cases h; exact ⟨v, hv⟩⟩
  | _ => exact ⟨fun h => absurd rfl h, fun ⟨_, _, h, _⟩ => nomatch h⟩

theorem field_object {fields : List (String × Value F)} {key : String} {v : Value F}
    (h : fields.lookup key = some v) : (Value.object fields).field key = v := by
  change (fields.lookup key).getD .null = v
  rw [h]
  rfl

/-- Reading a vector: the check of the size and the loop. -/
theorem is_vector_iff (j : Value F) (vec : Vec G) :
    (∃ elements xs, j.IsVector num vec elements xs) ↔
      j.size = VECTOR_DIM ∧ ∃ xs, j.get_floats num = .ok xs ∧ to_vec xs = vec := by
  constructor
  · rintro ⟨elements, xs, rfl, hlen, hnum, rfl⟩
    exact ⟨hlen, xs, hnum, rfl⟩
  · rintro ⟨hsize, xs, hxs, rfl⟩
    cases j with
    | array elements => exact ⟨elements, xs, rfl, hsize, hxs, rfl⟩
    | _ => cases hxs

theorem metadata_iff (fields : List (String × Value F)) (metadata : Bytes) :
    (Value.object fields).metadata = .ok metadata ↔
      fields.lookup "metadata" = none ∧ metadata = [] ∨
        fields.lookup "metadata" = some (.string metadata) := by
  change (if (fields.lookup "metadata").isSome then
    ((fields.lookup "metadata").getD .null).get_string else .ok []) = .ok metadata ↔ _
  cases fields.lookup "metadata" with
  | none =>
      constructor
      · intro hm
        cases hm
        exact .inl ⟨rfl, rfl⟩
      · rintro (⟨-, rfl⟩ | hm)
        · rfl
        · cases hm
  | some v =>
      cases v with
      | string s =>
          constructor
          · intro hm
            cases hm
            exact .inr rfl
          · rintro (hm | hm)
            · cases hm.1
            · cases hm
              rfl
      | _ => exact ⟨nofun, fun hm => hm.elim (fun hm => nomatch hm.1) (fun hm => nomatch hm)⟩

/-- **What `POST /vectors` inserts from.** -/
theorem insert_request_ok (body : Bytes) (id : ℕ) (vec : Vec G) (metadata : Bytes) :
    insert_request parse num body = .ok (id, vec, metadata) ↔
      ∃ fields, Inserts parse num body id vec metadata fields := by
  unfold insert_request
  simp only [bind_ok, caught_ok, check_ok, not_or, not_not, contains_iff]
  constructor
  · rintro ⟨j, hparse, ⟨⟨fields, i, rfl, hi⟩, fields', v, hobj, hv⟩, id', hid, hsize, xs, hxs, md,
      hmd, hpure⟩
    obtain rfl : fields = fields' := Value.object.inj hobj
    obtain ⟨rfl, rfl, rfl⟩ : id' = id ∧ to_vec xs = vec ∧ md = metadata := by
      simpa only [Prod.mk.injEq] using Except.ok.inj hpure
    rw [field_object hi] at hid
    rw [field_object hv] at hsize hxs
    obtain ⟨elements, xs', hvec⟩ := (is_vector_iff v (to_vec xs)).mpr ⟨hsize, xs, hxs, rfl⟩
    exact ⟨fields, hparse, ⟨i, hi, hid⟩, ⟨v, elements, xs', hv, hvec⟩,
      (metadata_iff fields md).mp hmd⟩
  · rintro ⟨fields, hparse, ⟨i, hi, hid⟩, ⟨v, elements, xs, hv, hvec⟩, hmd⟩
    obtain ⟨hsize, xs', hxs, rfl⟩ := (is_vector_iff v vec).mp ⟨elements, xs, hvec⟩
    refine ⟨_, hparse, ⟨⟨fields, i, rfl, hi⟩, fields, v, rfl, hv⟩, id, ?_, ?_, xs', ?_, metadata,
      (metadata_iff fields metadata).mpr hmd, rfl⟩
    · rw [field_object hi]
      exact hid
    · rw [field_object hv]
      exact hsize
    · rw [field_object hv]
      exact hxs

/-- **What `POST /search` searches for.** -/
theorem search_request_ok (body : Bytes) (q : Vec G) (k : ℕ) :
    search_request parse num body = .ok (q, k) ↔
      ∃ fields, Searches parse num body q k fields := by
  unfold search_request
  simp only [bind_ok, caught_ok, check_ok, not_or, not_not, contains_iff, not_le]
  constructor
  · rintro ⟨j, hparse, ⟨⟨fields, v, rfl, hv⟩, fields', i, hobj, hi⟩, n, hn, hsize, hpos, xs, hxs,
      hpure⟩
    obtain rfl : fields = fields' := Value.object.inj hobj
    obtain ⟨rfl, rfl⟩ : to_vec xs = q ∧ n.toNat = k := by
      simpa only [Prod.mk.injEq] using Except.ok.inj hpure
    rw [field_object hi] at hn
    rw [field_object hv] at hsize hxs
    obtain ⟨elements, xs', hvec⟩ := (is_vector_iff v (to_vec xs)).mpr ⟨hsize, xs, hxs, rfl⟩
    exact ⟨fields, hparse, ⟨v, elements, xs', hv, hvec⟩, ⟨i, n, hi, hn, hpos, rfl⟩⟩
  · rintro ⟨fields, hparse, ⟨v, elements, xs, hv, hvec⟩, ⟨i, n, hi, hn, hpos, rfl⟩⟩
    obtain ⟨hsize, xs', hxs, rfl⟩ := (is_vector_iff v q).mp ⟨elements, xs, hvec⟩
    refine ⟨_, hparse, ⟨⟨fields, v, rfl, hv⟩, fields, i, rfl, hi⟩, n, ?_, ?_, hpos, xs', ?_, rfl⟩
    · rw [field_object hi]
      exact hn
    · rw [field_object hv]
      exact hsize
    · rw [field_object hv]
      exact hxs

end Requests

/-! ## The table -/

/-- Ids to vectors and metadata. -/
structure Table (V : Type*) where
  vectors : ℕ → Option V := fun _ => none
  metadata : ℕ → Bytes := fun _ => []

section Table

variable {V : Type*}

/-- Empty metadata are not saved. -/
def Table.insert (m : Table V) (id : ℕ) (vec : V) (metadata : Bytes) : Table V where
  vectors := Function.update m.vectors id (some vec)
  metadata := if metadata = [] then m.metadata else Function.update m.metadata id metadata

/-- The metadata of a deleted id stay. -/
def Table.delete (m : Table V) (id : ℕ) : Table V :=
  { m with vectors := Function.update m.vectors id none }

variable {F G : Type} [Zero G] (parse : Bytes → Except String (Value F)) (num : Numbers F G)
  {D : Type*} [LinearOrder D] (dist : Vec G → Vec G → D)

/-- What a search may answer: `k` entries of the table at most, each once, nearest first. -/
structure Table.Finds (m : Table (Vec G)) (q : Vec G) (k : ℕ) (rs : List (Result D)) : Prop where
  short : rs.length ≤ k
  nodup : (rs.map Result.id).Nodup
  sorted : rs.Pairwise (fun a b => a.distance ≤ b.distance)
  entries : ∀ r ∈ rs, ∃ v, m.vectors r.id = some v ∧ r.distance = dist q v ∧
    r.metadata = m.metadata r.id

/-- What a table answers. A body that is not accepted is answered with status 400 and changes
nothing. An id from 2^31 on with metadata gets its vector, and an exception. The count of `/stats`
is left open. -/
def Table.answers (m : Table (Vec G)) : Request → Answer D → Table (Vec G) → Prop
  | .post_vectors body _, a, m' =>
      (∃ id vec metadata fields, Inserts parse num body id vec metadata fields ∧
        (metadata = [] ∨ id < 2 ^ 31) ∧
        a = .response 201 (.text (status_ok id)) ∧ m' = m.insert id vec metadata) ∨
      (∃ id vec metadata fields, Inserts parse num body id vec metadata fields ∧
        metadata ≠ [] ∧ 2 ^ 31 ≤ id ∧ a = .thrown resize_error ∧ m' = m.insert id vec []) ∨
      ((∀ id vec metadata fields, ¬ Inserts parse num body id vec metadata fields) ∧
        (∃ e, a = .response 400 (.text e)) ∧ m' = m)
  | .post_search body, a, m' =>
      m' = m ∧ ((∃ q k fields rs, Searches parse num body q k fields ∧
          a = .response 200 (.results rs) ∧ m.Finds dist q k rs) ∨
        ((∀ q k fields, ¬ Searches parse num body q k fields) ∧
          ∃ e, a = .response 400 (.text e)))
  | .delete_vectors digits, a, m' =>
      if digits < 2 ^ 64 then
        a = .response 200 (.text (status_ok (digits % 2 ^ 32))) ∧ m' = m.delete (digits % 2 ^ 32)
      else a = .thrown "stoul" ∧ m' = m
  | .get_stats, a, m' => m' = m ∧ ∃ n, a = .response 200 (.stats n VECTOR_DIM "L2")

end Table

section Refinement

variable {F G : Type} [Zero G] {parse : Bytes → Except String (Value F)} {num : Numbers F G}
  {D : Type*} [LinearOrder D] (ties : Ties D) (dist : Vec G → Vec G → D)

/-- The index holds the vectors of the table, and its metadata file the metadata. -/
structure Refines (s : HNSW (Vec G)) (m : Table (Vec G)) : Prop where
  holds : Holds s m.vectors
  wf : s.metadata_storage.Wf
  metadata : ∀ id, s.get_metadata id = m.metadata id

theorem refines_fresh (storage_size : ℕ) :
    Refines (HNSW.fresh storage_size : HNSW (Vec G)) {} :=
  ⟨holds_fresh storage_size, fun _ => .inr rfl, fun _ => rfl⟩

/-- A search of an index that holds the table finds in the table. -/
theorem search_finds {s : HNSW (Vec G)} {m : Table (Vec G)} (h : Refines s m) (q : Vec G)
    (k ef : ℕ) : ∃ rs, s.search ties dist q k ef = some rs ∧ m.Finds dist q k rs := by
  obtain ⟨rs, hsearch, hshort, hnodup, hsorted, hmem⟩ := h.holds.search ties dist q k ef
  refine ⟨rs, hsearch, hshort, hnodup, hsorted, fun r hr => ?_⟩
  obtain ⟨v, hv, hdist, hmeta⟩ := hmem r hr
  exact ⟨v, hv, hdist, hmeta.trans (h.metadata r.id)⟩

theorem insert_refines {s : HNSW (Vec G)} {m : Table (Vec G)} (h : Refines s m) (id : ℕ)
    (vec : Vec G) (level : Fin MAX_LAYERS) (metadata : Bytes) :
    ∃ s', s.insert ties dist vec id level metadata = some s' ∧
      Refines s' (m.insert id vec metadata) := by
  obtain ⟨s', hstep, hholds⟩ := holds_step ties dist h.holds (.insert ⟨vec, id, level, metadata⟩)
  obtain ⟨s'', hstep', hw⟩ := insert_writes ties dist h.holds.sound ⟨vec, id, level, metadata⟩
  obtain rfl : s'' = s' := Option.some.inj (hstep'.symm.trans hstep)
  refine ⟨s'', hstep, hholds, ?_, fun j => ?_⟩
  · rw [hw.metadata]
    exact save_metadata_wf h.wf id metadata
  · unfold HNSW.get_metadata Table.insert
    rw [hw.metadata]
    dsimp only
    by_cases hmd : metadata = []
    · rw [if_pos hmd, hmd, save_metadata_nil]
      exact h.metadata j
    · rw [if_neg hmd]
      by_cases hj : j = id
      · rw [hj, Function.update_self]
        exact get_save_self _ _ hmd
      · rw [Function.update_of_ne hj, get_save_ne h.wf metadata hj]
        exact h.metadata j

theorem delete_refines {s : HNSW (Vec G)} {m : Table (Vec G)} (h : Refines s m) (id : ℕ) :
    Refines (s.delete_vector id) (m.delete id) := by
  obtain ⟨-, -, -, hmeta, -, -⟩ := delete_spec h.holds.sound id
  refine ⟨holds_delete h.holds id, ?_, fun j => ?_⟩
  · rw [hmeta]
    exact h.wf
  · unfold HNSW.get_metadata
    rw [hmeta]
    exact h.metadata j

/-- A record that belongs to no id changes no metadata. -/
theorem Refines.save_negative {s : HNSW (Vec G)} {m : Table (Vec G)} (h : Refines s m)
    (metadata : Bytes) : Refines
      { s with metadata_storage := s.metadata_storage.save_negative metadata } m :=
  ⟨h.holds.same rfl rfl h.holds.sound.entry, save_negative_wf h.wf metadata,
    fun id => (get_save_negative h.wf metadata id).trans (h.metadata id)⟩

/-- **Every request is answered as by the table.** -/
theorem serve_answers {s : HNSW (Vec G)} {m : Table (Vec G)} (h : Refines s m) (r : Request)
    (hdefined : r.Defined parse num) :
    ∃ s' a m', serve parse num ties dist s r = some (s', a) ∧
      m.answers parse num dist r a m' ∧ Refines s' m' := by
  cases r with
  | post_vectors body level =>
      unfold serve
      dsimp only
      cases hreq : insert_request parse num body with
      | error e =>
          refine ⟨s, _, m, rfl, .inr (.inr ⟨fun id vec metadata fields hins => ?_, ⟨e, rfl⟩, rfl⟩),
            h⟩
          rw [(insert_request_ok body id vec metadata).mpr ⟨fields, hins⟩] at hreq
          cases hreq
      | ok r =>
          obtain ⟨id, vec, metadata⟩ := r
          obtain ⟨fields, hins⟩ := (insert_request_ok body id vec metadata).mp hreq
          dsimp only
          by_cases hsaved : metadata = [] ∨ id + 1000 < 2 ^ 31
          · obtain ⟨s', hs', h'⟩ := insert_refines ties dist h id vec level metadata
            refine ⟨s', _, _, ?_, .inl ⟨id, vec, metadata, fields, hins,
              hsaved.imp_right (fun hlt => by omega), rfl, rfl⟩, h'⟩
            rw [if_pos hsaved, hs']
            rfl
          · obtain ⟨hmd, hlarge⟩ := not_or.mp hsaved
            have hneg := (hdefined id vec metadata fields hins hmd).resolve_left hlarge
            obtain ⟨s', hs', h'⟩ := insert_refines ties dist h id vec level []
            refine ⟨_, _, _, ?_, .inr (.inl ⟨id, vec, metadata, fields, hins, hmd, hneg.1, rfl,
              rfl⟩), h'.save_negative metadata⟩
            rw [if_neg hsaved, if_pos hneg, hs']
            rfl
  | post_search body =>
      unfold serve
      dsimp only
      cases hreq : search_request parse num body with
      | error e =>
          refine ⟨s, _, m, rfl, ⟨rfl, .inr ⟨fun q k fields hs => ?_, e, rfl⟩⟩, h⟩
          rw [(search_request_ok body q k).mpr ⟨fields, hs⟩] at hreq
          cases hreq
      | ok r =>
          obtain ⟨q, k⟩ := r
          obtain ⟨fields, hs⟩ := (search_request_ok body q k).mp hreq
          obtain ⟨rs, hrs, hfinds⟩ := search_finds ties dist h q k 0
          refine ⟨s, _, m, ?_, ⟨rfl, .inl ⟨q, k, fields, rs, hs, rfl, hfinds⟩⟩, h⟩
          dsimp only
          rw [hrs]
          rfl
  | delete_vectors digits =>
      unfold serve Table.answers
      dsimp only
      by_cases hdigits : digits < 2 ^ 64
      · rw [if_pos hdigits]
        refine ⟨_, _, _, rfl, ?_, delete_refines h (digits % 2 ^ 32)⟩
        rw [if_pos hdigits]
        exact ⟨rfl, rfl⟩
      · rw [if_neg hdigits]
        refine ⟨_, _, m, rfl, ?_, h⟩
        rw [if_neg hdigits]
        exact ⟨rfl, rfl⟩
  | get_stats => exact ⟨s, _, m, rfl, ⟨rfl, s.element_count, rfl⟩, h⟩

end Refinement

/-! ## Some requests -/

/-- Bodies: the id is 7, or 2^31; a body that asks for the two nearest; no JSON otherwise. -/
def parse_some (body : Bytes) : Except String (Value ℤ) :=
  let ones := Value.array (List.replicate VECTOR_DIM (.integer 1))
  match body with
  | [7] => .ok (.object [("id", .integer 7), ("vector", ones), ("metadata", .string [97])])
  | [31] => .ok (.object [("id", .integer (2 ^ 31)), ("vector", ones), ("metadata", .string [98])])
  | [2] => .ok (.object [("vector", ones), ("k", .integer 2)])
  | _ => .error "syntax error"

def integers : Numbers ℤ ℤ := ⟨id, id, Int.toNat, id⟩

def some_requests : List Request :=
  [.post_vectors [7] 0, .post_vectors [31] 0, .post_vectors [] 0, .post_search [2],
    .delete_vectors (2 ^ 32 + 7), .get_stats]

theorem some_requests_defined : ∀ r ∈ some_requests, r.Defined parse_some integers := by
  have hid : ∀ (n : ℤ) {body : Bytes} {rest id vec metadata fields},
      parse_some body = .ok (.object (("id", .integer n) :: rest)) →
      Inserts parse_some integers body id vec metadata fields → (n % 2 ^ 32).toNat = id := by
    intro n body rest id vec metadata fields hparse h
    obtain rfl := Value.object.inj (Except.ok.inj (hparse.symm.trans h.object))
    obtain ⟨j, hj, hid⟩ := h.id
    obtain rfl : .integer n = j := Option.some.inj hj
    exact Except.ok.inj hid
  rintro r hr
  simp only [some_requests, List.mem_cons, List.not_mem_nil, or_false] at hr
  rcases hr with rfl | rfl | rfl | rfl | rfl | rfl
  · intro id vec metadata fields h _
    obtain rfl : 7 = id := hid 7 rfl h
    exact .inl (by decide)
  · intro id vec metadata fields h _
    obtain rfl : 2 ^ 31 = id := hid (2 ^ 31) rfl h
    exact .inr (by decide)
  · intro id vec metadata fields h _
    exact nomatch h.object
  · trivial
  · trivial
  · trivial

/-- The second one stores its vector, and then throws. -/
def some_answers : List (Answer ℤ) :=
  [.response 201 (.text (status_ok 7)), .thrown resize_error,
    .response 400 (.text (invalid_json "syntax error")),
    .response 200 (.results [⟨7, 0, [97]⟩, ⟨2 ^ 31, 0, []⟩]),
    .response 200 (.text (status_ok 7)), .response 200 (.stats 1 VECTOR_DIM "L2")]

end NanoDB.Rest
