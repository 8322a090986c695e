/-
`cluster/cluster_config.hpp`: the config file that coordinators share.

A save writes to a temporary file and renames it over the path; a load opens the path and reads
what it finds. Any number of both run at once, in several processes and threads. Every call is
a position in a list, every system call a step, and a run is a list of steps: all interleavings
of opening, writing in pieces, renaming and reading, with failures wherever the source throws.
A call that is given no further step is one whose process has died.

The text of a JSON value is a parameter (`JsonText`) of which only the round trip is known, and
so is the unit that files are made of.

# The one awkward thing, named up front

The name of a temporary file is made of the path, the process id and the value of a counter of
the process. Different calls have different names because decimal numbers contain no dot, and
as long as the counter does not come round to a number whose save is still going on. The counter
has 64 bits, so this takes 2^64 saves (`shared_temp_file`), but it is a condition all the same
(`NoReuse`).
-/
import Mathlib.Algebra.Group.Nat.Defs
import NanoDB.Coordinator
import NanoDB.Lib.Files
import NanoDB.Lib.Trace

set_option autoImplicit false

namespace NanoDB.Config

open Coord (ShardEndpoint)
open Files (Disk Sealed)

/-! ## JSON -/

/-- `nlohmann::json`, with integers as its only numbers. -/
inductive Json
  | null
  | bool (b : Bool)
  | int (n : ℤ)
  | str (s : String)
  | arr (elements : List Json)
  | obj (fields : List (String × Json))
deriving Repr

/-- What the two functions throw. The texts of the JSON library are left out. -/
inductive Thrown
  | runtime_error (what : String)
  | json_exception
deriving DecidableEq, Repr

/-- What a range-based `for` runs through. -/
def Json.elements : Json → List Json
  | .arr l => l
  | .obj fields => fields.map Prod.snd
  | .null => []
  | j => [j]

/-- `j.at(key)`. -/
def Json.at_key (j : Json) (key : String) : Except Thrown Json :=
  match j with
  | .obj fields =>
      match fields.lookup key with
      | some v => .ok v
      | none => .error .json_exception
  | _ => .error .json_exception

/-- `j.value(key, default)`. -/
def Json.value {α : Type} (get : Json → Except Thrown α) (j : Json) (key : String) (dflt : α) :
    Except Thrown α :=
  match j with
  | .obj fields =>
      match fields.lookup key with
      | some v => get v
      | none => .ok dflt
  | _ => .error .json_exception

/-- `get<int>()`, which also takes a boolean. -/
def Json.get_int : Json → Except Thrown ℤ
  | .int n => .ok n
  | .bool b => .ok (if b then 1 else 0)
  | _ => .error .json_exception

def Json.get_string : Json → Except Thrown String
  | .str s => .ok s
  | _ => .error .json_exception

def Json.get_bool : Json → Except Thrown Bool
  | .bool b => .ok b
  | _ => .error .json_exception

/-- The text of JSON values: `dump(2)` and `operator>>`. -/
structure JsonText (B : Type*) where
  dump : Json → List B
  parse : List B → Except Thrown Json
  parse_dump : ∀ j, parse (dump j) = .ok j

/-! ## Endpoints -/

/-- The JSON object of an endpoint. -/
def endpoint_json (ep : ShardEndpoint) : Json :=
  .obj [("shard_id", .int ep.shard_id), ("replica_id", .int ep.replica_id),
    ("host", .str ep.host), ("port", .int ep.port), ("primary", .bool ep.is_primary)]

/-- The value that `save_cluster_config` writes. -/
def config_json (shards : List ShardEndpoint) : Json :=
  .obj [("shards", .arr (shards.map endpoint_json))]

/-- The body of the loop of `load_cluster_config`. -/
def endpoint_of_json (s : Json) : Except Thrown ShardEndpoint := do
  let shard_id ← (← s.at_key "shard_id").get_int
  let replica_id ← s.value Json.get_int "replica_id" 0
  let host ← (← s.at_key "host").get_string
  let port ← (← s.at_key "port").get_int
  let is_primary ← s.value Json.get_bool "primary" true
  return ⟨shard_id, replica_id, host, port, is_primary⟩

/-- `load_cluster_config`, from the value that was parsed. -/
def config_of_json (j : Json) : Except Thrown (List ShardEndpoint) := do
  let shards ← (← j.at_key "shards").elements.mapM endpoint_of_json
  if shards = [] then .error (.runtime_error "cluster config has zero shards") else .ok shards

theorem endpoint_round_trip (ep : ShardEndpoint) :
    endpoint_of_json (endpoint_json ep) = .ok ep := rfl

theorem endpoints_round_trip (shards : List ShardEndpoint) :
    (shards.map endpoint_json).mapM endpoint_of_json = .ok shards := by
  induction shards with
  | nil => rfl
  | cons ep shards ih =>
      rw [List.map_cons, List.mapM_cons, endpoint_round_trip, ih]
      rfl

/-- A config is read back, unless it is empty. -/
theorem config_round_trip (shards : List ShardEndpoint) :
    config_of_json (config_json shards)
      = if shards = [] then .error (.runtime_error "cluster config has zero shards")
        else .ok shards := by
  have hparts : config_of_json (config_json shards)
      = ((shards.map endpoint_json).mapM endpoint_of_json >>= fun shards =>
        if shards = [] then .error (.runtime_error "cluster config has zero shards")
        else .ok shards) := rfl
  rw [hparts, endpoints_round_trip]
  rfl

/-! ## Names -/

/-- The name of the temporary file. -/
def tmp_path (path : List Char) (pid seq : ℕ) : List Char :=
  path ++ '.' :: (Nat.toDigits 10 pid ++ '.' :: (Nat.toDigits 10 seq ++ ['.', 't', 'm', 'p']))

theorem dot_not_digit (n : ℕ) : '.' ∉ Nat.toDigits 10 n := by
  intro h
  have hdigit := Nat.isDigit_of_mem_toDigits (by decide) (by decide) h
  exact absurd hdigit (by decide)

theorem toDigits_injective {n m : ℕ} (h : Nat.toDigits 10 n = Nat.toDigits 10 m) : n = m := by
  rw [← @Nat.ofDigitChars_toDigits 10 n (by decide) (by decide), h]
  exact Nat.ofDigitChars_toDigits (by decide) (by decide)

/-- Process and counter can be read off the name. -/
theorem tmp_path_injective {path : List Char} {pid pid' seq seq' : ℕ}
    (h : tmp_path path pid seq = tmp_path path pid' seq') : pid = pid' ∧ seq = seq' := by
  have hrest := List.cons.inj (List.append_cancel_left h)
  rw [← List.cons_append, ← List.cons_append, ← List.append_assoc, ← List.append_assoc] at hrest
  have hnumbers := List.append_cancel_right hrest.2
  rw [List.append_cons_inj_of_notMem (dot_not_digit pid) (dot_not_digit seq)] at hnumbers
  exact ⟨toDigits_injective hnumbers.1, toDigits_injective hnumbers.2.2⟩

theorem tmp_path_ne (path : List Char) (pid seq : ℕ) : tmp_path path pid seq ≠ path := by
  intro h
  have hlen := congrArg List.length h
  rw [tmp_path, List.length_append, List.length_cons] at hlen
  omega

/-! ## Calls -/

/-- Where a call of `save_cluster_config` is. -/
inductive SavePhase
  | named
  | writing (file written : ℕ)
  | renamed
  | failed (e : Thrown)
deriving DecidableEq, Repr

/-- The temporary file may still be opened or written. -/
def SavePhase.active : SavePhase → Bool
  | .named => true
  | .writing _ _ => true
  | _ => false

/-- A call of `save_cluster_config`. -/
structure Save where
  pid : ℕ
  seq : ℕ
  shards : List ShardEndpoint
  phase : SavePhase
deriving DecidableEq, Repr

def Save.tmp_path (sv : Save) (path : List Char) : List Char := Config.tmp_path path sv.pid sv.seq

/-- A call of `load_cluster_config`: it has read a part, or it has returned. -/
inductive Load (B : Type*)
  | reading (file : ℕ) (got : List B)
  | returned (r : Except Thrown (List ShardEndpoint))

/-- The file system, the counter `s_write_counter` of every process, and the calls. -/
structure System (B : Type*) where
  disk : Disk (List Char) B
  counter : ℕ → ℕ
  saves : List Save
  loads : List (Load B)

def System.start {B : Type*} (disk : Disk (List Char) B) : System B := ⟨disk, fun _ => 0, [], []⟩

/-- A step of a save. Writing says how much the system call takes. -/
inductive SaveAct
  | open_tmp
  | open_fails
  | write (k : ℕ)
  | write_fails
  | rename
  | rename_fails
deriving DecidableEq, Repr

/-- A step of the system: a save begins or goes on, a load opens the file or reads on. -/
inductive Act
  | save (pid : ℕ) (shards : List ShardEndpoint)
  | go (c : ℕ) (a : SaveAct)
  | load
  | read (l k : ℕ)
deriving DecidableEq, Repr

section Steps

variable {B : Type*} [Inhabited B] (text : JsonText B) (path : List Char)

/-- What a save writes. -/
def Save.content (sv : Save) : List B := text.dump (config_json sv.shards)

/-- What a load makes of the bytes it has read. -/
def load_result (bytes : List B) : Except Thrown (List ShardEndpoint) :=
  (text.parse bytes).bind config_of_json

def cannot_write (tmp : List Char) : Thrown :=
  .runtime_error ("cannot write cluster config temp file: " ++ String.ofList tmp)

def error_writing (tmp : List Char) : Thrown :=
  .runtime_error ("error writing cluster config temp file: " ++ String.ofList tmp)

def cannot_rename : Thrown :=
  .runtime_error ("cannot atomically rename cluster config into place: " ++ String.ofList path)

def cannot_open : Thrown :=
  .runtime_error ("cannot open cluster config: " ++ String.ofList path)

/-- `save_cluster_config` up to the name: the counter is taken and moved on in one step. -/
def System.begin_save (s : System B) (pid : ℕ) (shards : List ShardEndpoint) : System B :=
  { s with
    counter := Function.update s.counter pid ((s.counter pid + 1) % 2 ^ 64)
    saves := s.saves ++ [⟨pid, s.counter pid, shards, .named⟩] }

/-- A save goes on. -/
def System.advance (s : System B) (c : ℕ) (sv : Save) (d : Disk (List Char) B)
    (phase : SavePhase) : System B :=
  { s with disk := d, saves := s.saves.set c { sv with phase := phase } }

/-- The next step of a save, if it is in the right place for it. -/
def save_step (d : Disk (List Char) B) (sv : Save) :
    SaveAct → Option (Disk (List Char) B × SavePhase)
  | .open_tmp =>
      match sv.phase with
      | .named =>
          let r := d.create (sv.tmp_path path)
          some (r.1, .writing r.2 0)
      | _ => none
  | .open_fails =>
      match sv.phase with
      | .named => some (d, .failed (cannot_write (sv.tmp_path path)))
      | _ => none
  | .write k =>
      match sv.phase with
      | .writing i n =>
          let bytes := ((sv.content text).drop n).take k
          if bytes = [] then none else some (d.write i n bytes, .writing i (n + bytes.length))
      | _ => none
  | .write_fails =>
      match sv.phase with
      | .writing _ _ => some (d, .failed (error_writing (sv.tmp_path path)))
      | _ => none
  | .rename =>
      match sv.phase with
      | .writing _ n =>
          if n = (sv.content text).length then
            (d.rename (sv.tmp_path path) path).map (fun d => (d, .renamed))
          else none
      | _ => none
  | .rename_fails =>
      match sv.phase with
      | .writing _ n =>
          if n = (sv.content text).length then some (d, .failed (cannot_rename path)) else none
      | _ => none

/-- The next read of a load; none left to read is the end of the file. -/
def load_step (d : Disk (List Char) B) (k : ℕ) : Load B → Option (Load B)
  | .reading i got =>
      let more := ((d.files i).drop got.length).take k
      if k = 0 then none
      else if more = [] then some (.returned (load_result text got))
      else some (.reading i (got ++ more))
  | .returned _ => none

/-- One step of the system. -/
def step (s : System B) : Act → Option (System B)
  | .save pid shards => some (s.begin_save pid shards)
  | .go c a =>
      (s.saves[c]?).bind (fun sv =>
        (save_step text path s.disk sv a).map (fun r => s.advance c sv r.1 r.2))
  | .load =>
      match s.disk.dir path with
      | none => some { s with loads := s.loads ++ [.returned (.error (cannot_open path))] }
      | some i => some { s with loads := s.loads ++ [.reading i []] }
  | .read l k =>
      (s.loads[l]?).bind (fun ld => (load_step text s.disk k ld).map
        (fun ld => { s with loads := s.loads.set l ld }))

/-- The name that a new save gets is not in use by one that is still going on. -/
def NoReuse (s : System B) : Act → Prop
  | .save pid _ => ∀ sv ∈ s.saves, sv.phase.active = true → sv.pid = pid → sv.seq ≠ s.counter pid
  | _ => True

omit [Inhabited B] in
instance decidableNoReuse (s : System B) : (a : Act) → Decidable (NoReuse s a)
  | .save _ _ => by unfold NoReuse; infer_instance
  | .go _ _ | .load | .read _ _ => isTrue trivial

/-! ## One step of a save -/

/-- What is known of a save that has its temporary file open. -/
def Owns (d : Disk (List Char) B) (sv : Save) : Prop :=
  ∀ i n, sv.phase = .writing i n → d.dir (sv.tmp_path path) = some i ∧
    d.files i = (sv.content text).take n ∧ n ≤ (sv.content text).length

/-- What a step of a save does: to its own file, to those of others, to what is read under the
path, and to files out of reach. -/
structure Advances (d : Disk (List Char) B) (sv : Save) (a : SaveAct) (d' : Disk (List Char) B)
    (phase : SavePhase) : Prop where
  active : sv.phase.active = true
  wf : d'.Wf
  owns : Owns text path d' { sv with phase := phase }
  other : ∀ m i, m ≠ sv.tmp_path path → m ≠ path → d.dir m = some i →
    d'.dir m = some i ∧ d'.files i = d.files i
  before : a ≠ .rename → d'.contents path = d.contents path
  renames : a = .rename → phase = .renamed
  after : phase = .renamed → d'.contents path = some (sv.content text)
  out_of_reach : ∀ i, Sealed path i d → Sealed path i d' ∧ d'.files i = d.files i

variable {path} {d d' : Disk (List Char) B} {sv : Save} {phase : SavePhase}

omit [Inhabited B] in
/-- A call that fails changes nothing but itself. -/
theorem advances_fail (hd : d.Wf) (hactive : sv.phase.active = true) {a : SaveAct}
    (hne : a ≠ .rename) (e : Thrown) :
    Advances text path d sv a d (.failed e) :=
  ⟨hactive, hd, fun _ _ h => absurd h (by simp), fun _ _ _ _ h => ⟨h, rfl⟩,
    fun _ => rfl, fun h => absurd h hne, fun h => absurd h (by simp), fun _ h => ⟨h, rfl⟩⟩

omit [Inhabited B] in
theorem advances_open (hd : d.Wf) (hphase : sv.phase = .named) :
    Advances text path d sv .open_tmp (d.create (sv.tmp_path path)).1
      (.writing (d.create (sv.tmp_path path)).2 0) := by
  have hne : sv.tmp_path path ≠ path := tmp_path_ne path sv.pid sv.seq
  refine ⟨by rw [hphase]; rfl, Files.create_wf hd _, ?_, fun m i hm _ h => ?_, fun _ => ?_,
    fun h => absurd h (by simp), fun h => absurd h (by simp), fun i h => Files.sealed_create h hne⟩
  · rintro i n hin
    obtain ⟨rfl, rfl⟩ := SavePhase.writing.inj hin
    refine ⟨?_, ?_, Nat.zero_le _⟩
    · change (d.create (sv.tmp_path path)).1.dir (sv.tmp_path path) = _
      rw [Files.create_dir, if_pos rfl]
    · rw [Files.create_files, if_pos rfl, List.take_zero]
  · exact Files.create_frame hd hm h
  · exact Files.create_contents hd (fun h => hne h.symm)

theorem advances_write (hd : d.Wf) (howns : Owns text path d sv) {i n : ℕ}
    (hphase : sv.phase = .writing i n) (k : ℕ) :
    Advances text path d sv (.write k)
      (d.write i n (((sv.content text).drop n).take k))
      (.writing i (n + (((sv.content text).drop n).take k).length)) := by
  have hne : sv.tmp_path path ≠ path := tmp_path_ne path sv.pid sv.seq
  obtain ⟨hdir, hfile, hn⟩ := howns i n hphase
  refine ⟨by rw [hphase]; rfl, Files.write_wf hd _ _ _, ?_, fun m j hm _ h => ?_, fun _ => ?_,
    fun h => absurd h (by simp), fun h => absurd h (by simp),
    fun j h => Files.sealed_write h hne hdir _ _⟩
  · rintro j m hjm
    obtain ⟨rfl, rfl⟩ := SavePhase.writing.inj hjm
    have hend : (d.files i).length = n := by
      rw [hfile, List.length_take]
      omega
    refine ⟨hdir, ?_, ?_⟩
    · -- the next piece goes to the end of what was written
      change Function.update d.files i _ i = ((sv.content text)).take _
      rw [Function.update_self, ← hend, Files.overwrite_end, hend, hfile, List.take_add]
      congr 1
      rw [List.length_take, List.take_eq_take_iff]
      simp
    · change n + _ ≤ (sv.content text).length
      rw [List.length_take, List.length_drop]
      omega
  · exact Files.write_frame hd hm hdir h _ _
  · exact Files.write_contents hd (fun h => hne h.symm) hdir _ _

omit [Inhabited B] in
theorem advances_rename (hd : d.Wf) (howns : Owns text path d sv) {i : ℕ}
    (hphase : sv.phase = .writing i (sv.content text).length)
    (hrename : d.rename (sv.tmp_path path) path = some d') :
    Advances text path d sv .rename d' .renamed := by
  have hne : sv.tmp_path path ≠ path := tmp_path_ne path sv.pid sv.seq
  obtain ⟨hdir, hfile, -⟩ := howns i _ hphase
  refine ⟨by rw [hphase]; rfl, Files.rename_wf hd hne hrename, fun _ _ h => absurd h (by simp),
    fun m j hm hmp h => ?_, fun h => absurd rfl h, fun _ => rfl, fun _ => ?_,
    fun j h => Files.sealed_rename h hd hne hrename⟩
  · obtain ⟨hdir', hfiles⟩ := Files.rename_frame hd hne hrename hm hmp
    rw [hdir', hfiles]
    exact ⟨h, rfl⟩
  · rw [Files.rename_contents hd hne hrename, Disk.contents, hdir, Option.map_some, hfile,
      List.take_length]

/-- **One step of a save.** -/
theorem save_step_spec (hd : d.Wf) (howns : Owns text path d sv) {a : SaveAct}
    (h : save_step text path d sv a = some (d', phase)) :
    Advances text path d sv a d' phase := by
  cases hphase : sv.phase with
  | named =>
      have hactive : sv.phase.active = true := by rw [hphase]; rfl
      cases a with
      | open_tmp =>
          rw [save_step, hphase] at h
          obtain ⟨rfl, rfl⟩ := Prod.mk.inj (Option.some.inj h)
          exact advances_open text hd hphase
      | open_fails =>
          rw [save_step, hphase] at h
          obtain ⟨rfl, rfl⟩ := Prod.mk.inj (Option.some.inj h)
          exact advances_fail text hd hactive (by simp) _
      | write k => simp [save_step, hphase] at h
      | write_fails => simp [save_step, hphase] at h
      | rename => simp [save_step, hphase] at h
      | rename_fails => simp [save_step, hphase] at h
  | writing i n =>
      have hactive : sv.phase.active = true := by rw [hphase]; rfl
      cases a with
      | open_tmp => simp [save_step, hphase] at h
      | open_fails => simp [save_step, hphase] at h
      | write k =>
          rw [save_step, hphase] at h
          dsimp only at h
          split at h
          · simp at h
          · obtain ⟨rfl, rfl⟩ := Prod.mk.inj (Option.some.inj h)
            exact advances_write text hd howns hphase k
      | write_fails =>
          rw [save_step, hphase] at h
          obtain ⟨rfl, rfl⟩ := Prod.mk.inj (Option.some.inj h)
          exact advances_fail text hd hactive (by simp) _
      | rename =>
          rw [save_step, hphase] at h
          dsimp only at h
          split at h
          · rename_i hn
            obtain ⟨r, hr, heq⟩ := Option.map_eq_some_iff.mp h
            obtain ⟨rfl, rfl⟩ := Prod.mk.inj heq
            exact advances_rename text hd howns (hn ▸ hphase) hr
          · simp at h
      | rename_fails =>
          rw [save_step, hphase] at h
          dsimp only at h
          split at h
          · obtain ⟨rfl, rfl⟩ := Prod.mk.inj (Option.some.inj h)
            exact advances_fail text hd hactive (by simp) _
          · simp at h
  | renamed => cases a <;> simp [save_step, hphase] at h
  | failed e => cases a <;> simp [save_step, hphase] at h

/-! ## The invariant -/

variable (path)

/-- No two saves that are going on share a name, each has in its file what it has written, and
once a save has been completed the path leads to what one of them wrote. -/
structure Inv (s : System B) : Prop where
  wf : s.disk.Wf
  names : ∀ (c c' : ℕ) (sv sv' : Save), s.saves[c]? = some sv → s.saves[c']? = some sv' →
    sv.phase.active = true → sv'.phase.active = true →
    sv.tmp_path path = sv'.tmp_path path → c = c'
  owns : ∀ sv ∈ s.saves, Owns text path s.disk sv
  saved : (∃ sv ∈ s.saves, sv.phase = .renamed) →
    ∃ sv ∈ s.saves, sv.phase = .renamed ∧ s.disk.contents path = some (sv.content text)

variable {path} {s s' : System B}

omit [Inhabited B] in
theorem inv_start (hd : d.Wf) : Inv text path (System.start d) :=
  ⟨hd, fun _ _ _ _ h => absurd h (by simp [System.start]),
    fun _ h => absurd h List.not_mem_nil, fun ⟨_, h, _⟩ => absurd h List.not_mem_nil⟩

omit [Inhabited B] in
/-- A new save brings a name of its own. -/
theorem inv_begin_save (h : Inv text path s) {pid : ℕ} {shards : List ShardEndpoint}
    (hnew : ∀ sv ∈ s.saves, sv.phase.active = true → sv.pid = pid → sv.seq ≠ s.counter pid) :
    Inv text path (s.begin_save pid shards) := by
  -- an old save with the new name would be the one that is excluded
  have hfresh : ∀ sv ∈ s.saves, sv.phase.active = true →
      sv.tmp_path path ≠ Config.tmp_path path pid (s.counter pid) := by
    intro sv hsv hactive hname
    obtain ⟨hpid, hseq⟩ := tmp_path_injective hname
    exact hnew sv hsv hactive hpid hseq
  have hsaves : ∀ (c : ℕ) (sv : Save), (s.begin_save pid shards).saves[c]? = some sv →
      s.saves[c]? = some sv ∨
        (c = s.saves.length ∧ sv = ⟨pid, s.counter pid, shards, .named⟩) := by
    intro c sv hsv
    change (s.saves ++ [_])[c]? = some sv at hsv
    rcases lt_trichotomy c s.saves.length with hc | hc | hc
    · rw [List.getElem?_append_left hc] at hsv
      exact Or.inl hsv
    · rw [hc, List.getElem?_concat_length] at hsv
      exact Or.inr ⟨hc, (Option.some.inj hsv).symm⟩
    · rw [List.getElem?_eq_none (by simp; omega)] at hsv
      simp at hsv
  refine ⟨h.wf, fun c c' sv sv' hsv hsv' hact hact' hname => ?_, fun sv hsv => ?_, ?_⟩
  · rcases hsaves c sv hsv with hold | ⟨rfl, rfl⟩
    · rcases hsaves c' sv' hsv' with hold' | ⟨rfl, rfl⟩
      · exact h.names c c' sv sv' hold hold' hact hact' hname
      · exact absurd hname (hfresh sv (List.mem_of_getElem? hold) hact)
    · rcases hsaves c' sv' hsv' with hold' | ⟨rfl, rfl⟩
      · exact absurd hname.symm (hfresh sv' (List.mem_of_getElem? hold') hact')
      · rfl
  · rcases List.mem_append.mp hsv with hold | hnew
    · exact h.owns sv hold
    · rw [List.mem_singleton.mp hnew]
      intro i n hphase
      simp at hphase
  · rintro ⟨sv, hsv, hdone⟩
    rcases List.mem_append.mp hsv with hold | hnew
    · obtain ⟨w, hw, hwdone, hread⟩ := h.saved ⟨sv, hold, hdone⟩
      exact ⟨w, List.mem_append_left _ hw, hwdone, hread⟩
    · rw [List.mem_singleton.mp hnew] at hdone
      simp at hdone

omit [Inhabited B] in
/-- A save that goes on leaves the others alone. -/
theorem inv_advance (h : Inv text path s) {c : ℕ} (hsv : s.saves[c]? = some sv) {a : SaveAct}
    (hadv : Advances text path s.disk sv a d' phase) :
    Inv text path (s.advance c sv d' phase) := by
  have hc : c < s.saves.length := (List.getElem?_eq_some_iff.mp hsv).1
  -- each save of the new list is the one that moved or an old one
  have hsaves : ∀ (k : ℕ) (w : Save), (s.advance c sv d' phase).saves[k]? = some w →
      (k = c ∧ w = { sv with phase := phase }) ∨ (k ≠ c ∧ s.saves[k]? = some w) := by
    intro k w hw
    change (s.saves.set c _)[k]? = some w at hw
    by_cases hkc : k = c
    · rw [hkc, List.getElem?_set_self hc] at hw
      exact Or.inl ⟨hkc, (Option.some.inj hw).symm⟩
    · rw [List.getElem?_set_ne (fun h => hkc h.symm)] at hw
      exact Or.inr ⟨hkc, hw⟩
  have hself : { sv with phase := phase } ∈ (s.advance c sv d' phase).saves := by
    apply List.mem_of_getElem? (i := c)
    change (s.saves.set c _)[c]? = _
    rw [List.getElem?_set_self hc]
  refine ⟨hadv.wf, fun k k' w w' hw hw' hact hact' hname => ?_, fun w hw => ?_, ?_⟩
  · rcases hsaves k w hw with ⟨rfl, rfl⟩ | ⟨-, hold⟩
    · rcases hsaves k' w' hw' with ⟨rfl, rfl⟩ | ⟨-, hold'⟩
      · rfl
      · exact h.names k k' sv w' hsv hold' hadv.active hact' hname
    · rcases hsaves k' w' hw' with ⟨rfl, rfl⟩ | ⟨-, hold'⟩
      · exact h.names k k' w sv hold hsv hact hadv.active hname
      · exact h.names k k' w w' hold hold' hact hact' hname
  · obtain ⟨k, hk⟩ := List.mem_iff_getElem?.mp hw
    rcases hsaves k w hk with ⟨-, rfl⟩ | ⟨hkc, hold⟩
    · exact hadv.owns
    · intro i n hphase
      obtain ⟨hdir, hfile, hn⟩ := h.owns w (List.mem_of_getElem? hold) i n hphase
      have hname : w.tmp_path path ≠ sv.tmp_path path := by
        intro hname
        exact hkc (h.names k c w sv hold hsv (by rw [hphase]; rfl) hadv.active hname)
      obtain ⟨hdir', hfile'⟩ := hadv.other _ i hname (tmp_path_ne path w.pid w.seq) hdir
      exact ⟨hdir', hfile'.trans hfile, hn⟩
  · rintro ⟨w, hw, hdone⟩
    by_cases hphase : phase = .renamed
    · exact ⟨_, hself, hphase, hadv.after hphase⟩
    · have hsame : d'.contents path = s.disk.contents path := by
        refine hadv.before ?_
        rintro rfl
        exact hphase (hadv.renames rfl)
      obtain ⟨k, hk⟩ := List.mem_iff_getElem?.mp hw
      rcases hsaves k w hk with ⟨-, rfl⟩ | ⟨-, hold⟩
      · exact absurd hdone hphase
      · obtain ⟨v, hv, hvdone, hread⟩ := h.saved ⟨w, List.mem_of_getElem? hold, hdone⟩
        -- the save whose text is read is over, so it is not the one that moved
        obtain ⟨m, hm⟩ := List.mem_iff_getElem?.mp hv
        have hmc : c ≠ m := by
          rintro rfl
          obtain rfl := Option.some.inj (hm.symm.trans hsv)
          have := hadv.active
          rw [hvdone] at this
          exact absurd this (by decide)
        refine ⟨v, List.mem_of_getElem? (i := m) ?_, hvdone, hsame.trans hread⟩
        change (s.saves.set c _)[m]? = some v
        rw [List.getElem?_set_ne hmc]
        exact hm

/-! ## One step of the system -/

/-- A step of a save, taken apart. -/
theorem go_cases {c : ℕ} {a : SaveAct} (h : step text path s (.go c a) = some s') :
    ∃ sv d' phase, s.saves[c]? = some sv ∧ save_step text path s.disk sv a = some (d', phase) ∧
      s' = s.advance c sv d' phase := by
  obtain ⟨sv, hsv, h⟩ := Option.bind_eq_some_iff.mp h
  obtain ⟨r, hr, h⟩ := Option.map_eq_some_iff.mp h
  exact ⟨sv, r.1, r.2, hsv, hr, h.symm⟩

/-- A read, taken apart. -/
theorem read_cases {l k : ℕ} (h : step text path s (.read l k) = some s') :
    ∃ ld ld', s.loads[l]? = some ld ∧ load_step text s.disk k ld = some ld' ∧
      s' = { s with loads := s.loads.set l ld' } := by
  obtain ⟨ld, hld, h⟩ := Option.bind_eq_some_iff.mp h
  obtain ⟨ld', hld', h⟩ := Option.map_eq_some_iff.mp h
  exact ⟨ld, ld', hld, hld', h.symm⟩

/-- A load only adds itself. -/
theorem load_cases (h : step text path s .load = some s') :
    ∃ ld, s' = { s with loads := s.loads ++ [ld] } ∧
      ∀ i, s.disk.dir path = some i → ld = .reading i [] := by
  rw [step] at h
  cases hdir : s.disk.dir path with
  | none =>
      rw [hdir] at h
      exact ⟨_, (Option.some.inj h).symm, fun i hi => absurd hi (by simp)⟩
  | some j =>
      rw [hdir] at h
      refine ⟨_, (Option.some.inj h).symm, fun i hi => ?_⟩
      rw [Option.some.inj hi]

theorem inv_step (h : Inv text path s) {a : Act} (hok : NoReuse s a)
    (hstep : step text path s a = some s') : Inv text path s' := by
  cases a with
  | save pid shards =>
      obtain rfl := Option.some.inj hstep
      exact inv_begin_save text h hok
  | go c a =>
      obtain ⟨sv, d', phase, hsv, hsave, rfl⟩ := go_cases text hstep
      exact inv_advance text h hsv
        (save_step_spec text h.wf (h.owns sv (List.mem_of_getElem? hsv)) hsave)
  | load =>
      obtain ⟨ld, rfl, -⟩ := load_cases text hstep
      exact ⟨h.wf, h.names, h.owns, h.saved⟩
  | read l k =>
      obtain ⟨ld, ld', -, -, rfl⟩ := read_cases text hstep
      exact ⟨h.wf, h.names, h.owns, h.saved⟩

/-- **A step never touches a file out of reach**, and what is read under the path stays unless
a save is renamed. -/
theorem step_frame (h : Inv text path s) {a : Act} (hstep : step text path s a = some s') :
    (∀ i, Sealed path i s.disk → Sealed path i s'.disk ∧ s'.disk.files i = s.disk.files i) ∧
      ((∀ c, a ≠ .go c .rename) → s'.disk.contents path = s.disk.contents path) := by
  cases a with
  | save pid shards =>
      obtain rfl := Option.some.inj hstep
      exact ⟨fun _ hi => ⟨hi, rfl⟩, fun _ => rfl⟩
  | go c a =>
      obtain ⟨sv, d', phase, hsv, hsave, rfl⟩ := go_cases text hstep
      have hadv := save_step_spec text h.wf (h.owns sv (List.mem_of_getElem? hsv)) hsave
      refine ⟨hadv.out_of_reach, fun hne => hadv.before ?_⟩
      rintro rfl
      exact hne c rfl
  | load =>
      obtain ⟨ld, rfl, -⟩ := load_cases text hstep
      exact ⟨fun _ hi => ⟨hi, rfl⟩, fun _ => rfl⟩
  | read l k =>
      obtain ⟨ld, ld', -, -, rfl⟩ := read_cases text hstep
      exact ⟨fun _ hi => ⟨hi, rfl⟩, fun _ => rfl⟩

/-! ## A load -/

/-- A load has read a part of a file that does not change, or has returned what is in it. -/
structure Reads (path : List Char) (l i : ℕ) (content : List B) (s : System B) : Prop where
  out_of_reach : Sealed path i s.disk
  file : s.disk.files i = content
  phase : (∃ n ≤ content.length, s.loads[l]? = some (.reading i (content.take n))) ∨
    s.loads[l]? = some (.returned (load_result text content))

variable {l i : ℕ} {content : List B}

omit [Inhabited B] in
/-- The next read takes the next piece, or returns at the end. -/
theorem load_step_spec (hfile : s.disk.files i = content) {n k : ℕ} (hn : n ≤ content.length)
    {ld : Load B} (h : load_step text s.disk k (.reading i (content.take n)) = some ld) :
    (∃ m ≤ content.length, ld = .reading i (content.take m)) ∨
      ld = .returned (load_result text content) := by
  have hlen : (content.take n).length = n := List.length_take_of_le hn
  rw [load_step, hfile, hlen] at h
  by_cases hk : k = 0
  · rw [if_pos hk] at h
    simp at h
  rw [if_neg hk] at h
  by_cases hmore : (content.drop n).take k = []
  · rw [if_pos hmore] at h
    have hend : content.length ≤ n := by
      rcases List.take_eq_nil_iff.mp hmore with h | h
      · exact absurd h hk
      · exact List.drop_eq_nil_iff.mp h
    rw [List.take_of_length_le hend] at h
    exact Or.inr (Option.some.inj h).symm
  · rw [if_neg hmore, ← List.take_add] at h
    refine Or.inl ⟨min (n + k) content.length, min_le_right _ _, ?_⟩
    rw [← List.take_eq_take_min]
    exact (Option.some.inj h).symm

theorem reads_step (h : Inv text path s) (hr : Reads text path l i content s) {a : Act}
    (hstep : step text path s a = some s') : Reads text path l i content s' := by
  obtain ⟨hsealed, hfile⟩ := (step_frame text h hstep).1 i hr.out_of_reach
  refine ⟨hsealed, hfile.trans hr.file, ?_⟩
  cases a with
  | save pid shards =>
      obtain rfl := Option.some.inj hstep
      exact hr.phase
  | go c a =>
      obtain ⟨sv, d', phase, -, -, rfl⟩ := go_cases text hstep
      exact hr.phase
  | load =>
      obtain ⟨ld, rfl, -⟩ := load_cases text hstep
      have hold : ∀ x, s.loads[l]? = some x → (s.loads ++ [ld])[l]? = some x := by
        intro x hx
        rw [List.getElem?_append_left (List.getElem?_eq_some_iff.mp hx).1]
        exact hx
      exact hr.phase.imp (fun ⟨n, hn, hx⟩ => ⟨n, hn, hold _ hx⟩) (hold _)
  | read l' k =>
      obtain ⟨ld, ld', hld, hnext, rfl⟩ := read_cases text hstep
      by_cases hl : l' = l
      · subst hl
        have hlt := (List.getElem?_eq_some_iff.mp hld).1
        dsimp only
        rw [List.getElem?_set_self hlt]
        rcases hr.phase with ⟨n, hn, hx⟩ | hx
        · obtain rfl := Option.some.inj (hx.symm.trans hld)
          rcases load_step_spec text hr.file hn hnext with ⟨m, hm, rfl⟩ | rfl
          · exact Or.inl ⟨m, hm, rfl⟩
          · exact Or.inr rfl
        · -- a load that has returned does not read on
          obtain rfl := Option.some.inj (hx.symm.trans hld)
          simp [load_step] at hnext
      · dsimp only
        rw [List.getElem?_set_ne hl]
        exact hr.phase

/-- **Every load can go on to its end**, and returns what is in the file. -/
theorem reads_finish (hr : Reads text path l i content s) :
    ∃ reads s', (∀ a ∈ reads, ∃ k, a = Act.read l k) ∧
      Trace.run (step text path) s reads = some s' ∧
      s'.loads[l]? = some (.returned (load_result text content)) := by
  -- at the end of the file one read is enough
  have hlast : ∀ t : System B, t.disk.files i = content →
      t.loads[l]? = some (.reading i content) →
      ∃ t', step text path t (.read l 1) = some t' ∧
        t'.loads[l]? = some (.returned (load_result text content)) := by
    intro t hfile hload
    refine ⟨{ t with loads := t.loads.set l (.returned (load_result text content)) }, ?_, ?_⟩
    · have hstep : load_step text t.disk 1 (.reading i content)
          = some (.returned (load_result text content)) := by
        rw [load_step, hfile]
        simp
      rw [step, hload, Option.bind_some, hstep]
      rfl
    · exact List.getElem?_set_self (List.getElem?_eq_some_iff.mp hload).1
  rcases hr.phase with ⟨n, hn, hload⟩ | hdone
  · rcases Nat.lt_or_ge n content.length with hlt | hge
    · -- the whole rest first
      have hlen : (content.take n).length = n := List.length_take_of_le hn
      have hstep : load_step text s.disk (content.length - n) (.reading i (content.take n))
          = some (.reading i content) := by
        rw [load_step, hr.file, hlen]
        have hrest : (content.drop n).take (content.length - n) = content.drop n := by
          rw [List.take_of_length_le]
          rw [List.length_drop]
        rw [hrest, if_neg (by omega), if_neg (by rw [List.drop_eq_nil_iff]; omega),
          List.take_append_drop]
      have hread : step text path s (.read l (content.length - n))
          = some { s with loads := s.loads.set l (.reading i content) } := by
        rw [step, hload, Option.bind_some, hstep]
        rfl
      obtain ⟨t, ht, hres⟩ := hlast { s with loads := s.loads.set l (.reading i content) } hr.file
        (List.getElem?_set_self (List.getElem?_eq_some_iff.mp hload).1)
      refine ⟨[.read l (content.length - n), .read l 1], t, ?_, ?_, hres⟩
      · intro a ha
        rcases List.mem_pair.mp ha with rfl | rfl
        · exact ⟨_, rfl⟩
        · exact ⟨_, rfl⟩
      · rw [Trace.run_step hread, Trace.run_step ht]
        rfl
    · rw [List.take_of_length_le hge] at hload
      obtain ⟨t, ht, hres⟩ := hlast s hr.file hload
      refine ⟨[.read l 1], t, ?_, ?_, hres⟩
      · intro a ha
        exact ⟨1, List.mem_singleton.mp ha⟩
      · rw [Trace.run_step ht]
        rfl
  · exact ⟨[], s, fun a ha => absurd ha List.not_mem_nil, rfl, hdone⟩

omit [Inhabited B] in
/-- What a load makes of what a save wrote. -/
theorem load_result_content (hne : sv.shards ≠ []) :
    load_result text (sv.content text) = .ok sv.shards := by
  rw [load_result, Save.content, text.parse_dump]
  change config_of_json (config_json sv.shards) = _
  rw [config_round_trip, if_neg hne]

/-- **The config file is read atomically.** Whatever saves and loads are going on, a step other
than a successful rename leaves what is read under the path as it is. And a load that opens the
file after a first save was completed returns the list of one of the saves that were completed
then, provided that none of these lists is empty: if it has returned, this is what it returned,
and it can always read on until it returns. -/
theorem config_read_atomically (hd : d.Wf) {before : List Act} {s : System B}
    (hbefore : Trace.run (step text path) (System.start d) before = some s)
    (hok : Trace.Along (step text path) NoReuse (System.start d) before) :
    (∀ a s', step text path s a = some s' → (∀ c, a ≠ .go c .rename) →
      s'.disk.contents path = s.disk.contents path) ∧
    ((∃ sv ∈ s.saves, sv.phase = .renamed) →
      (∀ sv ∈ s.saves, sv.phase = .renamed → sv.shards ≠ []) →
      ∀ after t, Trace.run (step text path) s (.load :: after) = some t →
        Trace.Along (step text path) NoReuse s (.load :: after) →
        ∃ sv ∈ s.saves, sv.phase = .renamed ∧
          (∀ r, t.loads[s.loads.length]? = some (.returned r) → r = .ok sv.shards) ∧
          ∃ reads u, (∀ a ∈ reads, ∃ k, a = Act.read s.loads.length k) ∧
            Trace.run (step text path) t reads = some u ∧
            u.loads[s.loads.length]? = some (.returned (.ok sv.shards))) := by
  have hinv : Inv text path s := Trace.run_invariant_along
    (fun _ _ _ h hop hs => inv_step text h hop hs) (inv_start text hd) hok hbefore
  refine ⟨fun a s' hstep => (step_frame text hinv hstep).2, fun hsaved hne after t hrun hrest => ?_⟩
  obtain ⟨sv, hsv, hdone, hread⟩ := hinv.saved hsaved
  refine ⟨sv, hsv, hdone, ?_⟩
  -- the load opens the file that the save has put there
  obtain ⟨i, hdir, hfile⟩ := Option.map_eq_some_iff.mp hread
  obtain ⟨m, hm, hmt⟩ := Trace.run_cons_some hrun
  obtain ⟨ld, hopen, hld⟩ := load_cases text hm
  have hreads : Reads text path s.loads.length i (sv.content text) m := by
    rw [hopen, hld i hdir]
    refine ⟨Files.sealed_of_dir hinv.wf hdir, hfile, Or.inl ⟨0, Nat.zero_le _, ?_⟩⟩
    dsimp only
    rw [List.getElem?_concat_length]
    rfl
  have hend := Trace.run_invariant_along
    (P := fun u => Inv text path u ∧ Reads text path s.loads.length i (sv.content text) u)
    (fun _ _ _ h hop hs => ⟨inv_step text h.1 hop hs, reads_step text h.1 h.2 hs⟩)
    ⟨inv_step text hinv hrest.1 hm, hreads⟩ (hrest.2 m hm) hmt
  have hresult := load_result_content text (hne sv hsv hdone)
  refine ⟨fun r hr => ?_, ?_⟩
  · rcases hend.2.phase with ⟨n, -, hload⟩ | hload
    · rw [hload] at hr
      simp at hr
    · rw [hload] at hr
      rw [← hresult]
      exact (Load.returned.inj (Option.some.inj hr)).symm
  · rw [← hresult]
    exact reads_finish text hend.2

/-- How many saves a process begins in a run. -/
def begins (pid : ℕ) : List Act → ℕ
  | [] => 0
  | .save p _ :: acts => (if p = pid then 1 else 0) + begins pid acts
  | _ :: acts => begins pid acts

omit [Inhabited B] in
/-- A counter that does not come round goes up by one when its process begins a save. -/
theorem begin_save_counter {pid : ℕ} (hlow : s.counter pid + 1 < 2 ^ 64)
    (shards : List ShardEndpoint) (p : ℕ) :
    (s.begin_save pid shards).counter p = s.counter p + if pid = p then 1 else 0 := by
  rw [System.begin_save]
  dsimp only
  rw [Function.update_apply, Nat.mod_eq_of_lt hlow]
  by_cases hp : p = pid
  · rw [if_pos hp, if_pos hp.symm, hp]
  · rw [if_neg hp, if_neg (Ne.symm hp), Nat.add_zero]

/-- As long as no counter comes round, the numbers in use lie below it. -/
theorem few_step {a : Act} {acts : List Act} (hseq : ∀ sv ∈ s.saves, sv.seq < s.counter sv.pid)
    (hfew : ∀ pid, s.counter pid + begins pid (a :: acts) < 2 ^ 64)
    (hstep : step text path s a = some s') :
    (∀ sv ∈ s'.saves, sv.seq < s'.counter sv.pid) ∧
      ∀ pid, s'.counter pid + begins pid acts < 2 ^ 64 := by
  cases a with
  | save pid shards =>
      obtain rfl := Option.some.inj hstep
      have hlow : s.counter pid + 1 < 2 ^ 64 := by
        have := hfew pid
        rw [begins, if_pos rfl] at this
        omega
      refine ⟨fun sv hsv => ?_, fun p => ?_⟩
      · rw [begin_save_counter hlow]
        rcases List.mem_append.mp hsv with hold | hnew
        · exact Nat.lt_add_right _ (hseq sv hold)
        · rw [List.mem_singleton.mp hnew, if_pos rfl]
          exact Nat.lt_succ_self _
      · have := hfew p
        rw [begins] at this
        rw [begin_save_counter hlow]
        omega
  | go c a =>
      obtain ⟨sv, d', phase, hsv, -, rfl⟩ := go_cases text hstep
      refine ⟨fun w hw => ?_, hfew⟩
      rcases List.mem_or_eq_of_mem_set hw with hold | rfl
      · exact hseq w hold
      · exact hseq sv (List.mem_of_getElem? hsv)
  | load =>
      obtain ⟨ld, rfl, -⟩ := load_cases text hstep
      exact ⟨hseq, hfew⟩
  | read l k =>
      obtain ⟨ld, ld', -, -, rfl⟩ := read_cases text hstep
      exact ⟨hseq, hfew⟩

/-- Names are not reused in a run in which every process begins fewer than 2^64 saves. -/
theorem noReuse_of_few (acts : List Act) :
    ∀ s : System B, (∀ sv ∈ s.saves, sv.seq < s.counter sv.pid) →
      (∀ pid, s.counter pid + begins pid acts < 2 ^ 64) →
      Trace.Along (step text path) NoReuse s acts := by
  induction acts with
  | nil =>
      intro s _ _
      trivial
  | cons a acts ih =>
      intro s hseq hfew
      refine ⟨?_, fun s' hs' => ?_⟩
      · cases a with
        | save pid shards =>
            rintro sv hsv - rfl
            exact Nat.ne_of_lt (hseq sv hsv)
        | go c a => trivial
        | load => trivial
        | read l k => trivial
      · obtain ⟨hseq', hfew'⟩ := few_step text hseq hfew hs'
        exact ih s' hseq' hfew'

end Steps

/-! ## Races -/

/-- How many endpoints a config has. -/
def shard_count : Json → ℕ
  | .obj [(_, .arr l)] => l.length
  | _ => 0

/-- A text for tests: the value itself, followed by as many blanks as there are endpoints. -/
def blank_text : JsonText (Option Json) where
  dump j := some j :: List.replicate (shard_count j) none
  parse
    | some j :: rest =>
        if rest.length = shard_count j ∧ rest.all Option.isNone then .ok j
        else .error .json_exception
    | _ => .error .json_exception
  parse_dump j := by simp

def empty_disk : Disk (List Char) (Option Json) := ⟨fun _ => none, fun _ => [], 0⟩

def local_shard (port : ℤ) : ShardEndpoint := ⟨0, 0, "127.0.0.1", port, true⟩

/-- Two processes save at once. The second save is completed while a load that has opened the
result of the first is still reading, and the load returns the list of the first. -/
theorem config_read_atomically_race :
    ∃ s t, Trace.run (step blank_text ['c']) (System.start empty_disk)
        [.save 1 [local_shard 1], .save 2 [local_shard 2, local_shard 3], .go 0 .open_tmp,
         .go 1 .open_tmp, .go 0 (.write 1), .go 1 (.write 2), .go 0 (.write 1), .go 0 .rename]
        = some s ∧
      Trace.run (step blank_text ['c']) s
        [.load, .read 0 1, .go 1 (.write 1), .go 1 .rename, .read 0 5, .read 0 5] = some t ∧
      ∃ sv ∈ s.saves, sv.phase = .renamed ∧
        (∀ r, t.loads[s.loads.length]? = some (.returned r) → r = .ok sv.shards) ∧
        ∃ reads u, (∀ a ∈ reads, ∃ k, a = Act.read s.loads.length k) ∧
          Trace.run (step blank_text ['c']) t reads = some u ∧
          u.loads[s.loads.length]? = some (.returned (.ok sv.shards)) := by
  have hempty : empty_disk.Wf := ⟨fun _ _ h => absurd h (by simp [empty_disk]),
    fun _ _ _ h => absurd h (by simp [empty_disk])⟩
  have hbefore : (Trace.run (step blank_text ['c']) (System.start empty_disk)
      [.save 1 [local_shard 1], .save 2 [local_shard 2, local_shard 3], .go 0 .open_tmp,
       .go 1 .open_tmp, .go 0 (.write 1), .go 1 (.write 2), .go 0 (.write 1), .go 0 .rename]).map
      (fun s => (s.saves, decide (Trace.Along (step blank_text ['c']) NoReuse s
        [.load, .read 0 1, .go 1 (.write 1), .go 1 .rename, .read 0 5, .read 0 5]),
        (Trace.run (step blank_text ['c']) s
          [.load, .read 0 1, .go 1 (.write 1), .go 1 .rename, .read 0 5, .read 0 5]).isSome))
      = some ([⟨1, 0, [local_shard 1], .renamed⟩,
          ⟨2, 0, [local_shard 2, local_shard 3], .writing 1 2⟩], true, true) := by
    decide +kernel
  obtain ⟨s, hs, hstate⟩ := Option.map_eq_some_iff.mp hbefore
  obtain ⟨hsaves, hstate⟩ := Prod.mk.inj hstate
  obtain ⟨halong, hafter⟩ := Prod.mk.inj hstate
  obtain ⟨t, ht⟩ := Option.isSome_iff_exists.mp hafter
  refine ⟨s, t, hs, ht, (config_read_atomically blank_text hempty hs (by decide +kernel)).2 ?_ ?_
    _ t ht (of_decide_eq_true halong)⟩
  · rw [hsaves]
    exact ⟨_, List.mem_cons_self, rfl⟩
  · rw [hsaves]
    decide

/-! ## The counter comes round -/

section Wrap

variable {B : Type*} [Inhabited B] (text : JsonText B) (path : List Char)

variable {path} in
/-- A step of the save that began last. -/
theorem go_last {d d' : Disk (List Char) B} {counter : ℕ → ℕ} {old : List Save} {sv : Save}
    {loads : List (Load B)} {a : SaveAct} {phase : SavePhase}
    (h : save_step text path d sv a = some (d', phase)) :
    step text path ⟨d, counter, old ++ [sv], loads⟩ (.go old.length a)
      = some ⟨d', counter, old ++ [{ sv with phase := phase }], loads⟩ := by
  rw [step]
  dsimp only
  rw [List.getElem?_concat_length, Option.bind_some, h, Option.map_some, System.advance,
    List.set_append_right _ _ (le_refl _), Nat.sub_self]
  rfl

/-- `k` saves of a process that cannot open their files. -/
def dead_saves (pid : ℕ) (shards : List ShardEndpoint) (first k : ℕ) : List Act :=
  (List.range k).flatMap (fun m => [.save pid shards, .go (first + m) .open_fails])

/-- They move the counter and leave the rest alone. -/
theorem run_dead_saves (pid : ℕ) (shards : List ShardEndpoint) {s : System B}
    (hcount : s.counter pid < 2 ^ 64) (k : ℕ) :
    ∃ s', Trace.run (step text path) s (dead_saves pid shards s.saves.length k) = some s' ∧
      s'.disk = s.disk ∧ s'.loads = s.loads ∧ s'.counter pid = (s.counter pid + k) % 2 ^ 64 ∧
      ∃ dead, s'.saves = s.saves ++ dead ∧ dead.length = k ∧ ∀ sv ∈ dead, sv.shards = shards := by
  induction k with
  | zero => exact ⟨s, rfl, rfl, rfl, (Nat.mod_eq_of_lt hcount).symm, [], by simp, rfl, by simp⟩
  | succ k ih =>
      obtain ⟨t, hrun, hdisk, hloads, hcounter, dead, hsaves, hlen, hshards⟩ := ih
      have hlast : s.saves.length + k = t.saves.length := by
        rw [hsaves, List.length_append, hlen]
      let sv : Save := ⟨pid, t.counter pid, shards, .named⟩
      let failed : Save := { sv with phase := .failed (cannot_write (sv.tmp_path path)) }
      have hgo : step text path (t.begin_save pid shards) (.go t.saves.length .open_fails)
          = some { t.begin_save pid shards with saves := t.saves ++ [failed] } :=
        go_last text rfl
      refine ⟨{ t.begin_save pid shards with saves := t.saves ++ [failed] }, ?_, hdisk, hloads, ?_,
        dead ++ [failed], ?_, ?_, ?_⟩
      · rw [dead_saves, List.range_succ, List.flatMap_append, ← dead_saves, Trace.run_append, hrun,
          Option.bind_some, List.flatMap_singleton, hlast, Trace.run_cons]
        exact congrArg (fun o => Option.bind o (fun s' => Trace.run (step text path) s' [])) hgo
      · change Function.update t.counter pid ((t.counter pid + 1) % 2 ^ 64) pid = _
        rw [Function.update_self, hcounter]
        omega
      · rw [← List.append_assoc, ← hsaves]
      · rw [List.length_append, hlen, List.length_singleton]
      · intro w hw
        rcases List.mem_append.mp hw with h | h
        · exact hshards w h
        · rw [List.mem_singleton.mp h]

end Wrap

/-- A save is under way in process 1, with its temporary file open. -/
def half_saved : System (Option Json) :=
  ⟨(empty_disk.create (tmp_path ['c'] 1 0)).1, Function.update (fun _ => 0) 1 1,
    [⟨1, 0, [local_shard 1], .writing 0 0⟩], []⟩

/-- The disk when the process takes the same number for another save and completes it. -/
def overtaken : Disk (List Char) (Option Json) :=
  { (half_saved.disk.create (tmp_path ['c'] 1 0)).1.write 0 0
      (blank_text.dump (config_json [local_shard 2, local_shard 3])) with
    dir := Function.update (Function.update half_saved.disk.dir (tmp_path ['c'] 1 0) none) ['c']
      (some 0) }

/-- The other save is completed; then the first one writes on, into the file that the path now
leads to. -/
theorem shared_temp_file {counter : ℕ → ℕ} (hcounter : counter 1 = 0) (dead : List Save) :
    ∃ s, Trace.run (step blank_text ['c'])
        ⟨half_saved.disk, counter, half_saved.saves ++ dead, []⟩
        [.save 1 [local_shard 2, local_shard 3], .go (dead.length + 1) .open_tmp,
         .go (dead.length + 1) (.write 3), .go (dead.length + 1) .rename] = some s ∧
      s.saves = half_saved.saves ++ dead ++ [⟨1, 0, [local_shard 2, local_shard 3], .renamed⟩] ∧
      ∃ t, Trace.run (step blank_text ['c']) s
          [.load, .go 0 (.write 1), .read 0 5, .read 0 5] = some t ∧
        t.loads[0]? = some (.returned (.error .json_exception)) := by
  have hlast : dead.length + 1 = (half_saved.saves ++ dead).length := by
    rw [List.length_append, Nat.add_comm]
    rfl
  have hsave : step blank_text ['c'] ⟨half_saved.disk, counter, half_saved.saves ++ dead, []⟩
      (.save 1 [local_shard 2, local_shard 3])
      = some ⟨half_saved.disk, Function.update counter 1 1, half_saved.saves ++ dead ++
          [⟨1, 0, [local_shard 2, local_shard 3], .named⟩], []⟩ := by
    have hnext : (counter 1 + 1) % 2 ^ 64 = 1 := by omega
    change some (System.begin_save _ _ _) = _
    rw [System.begin_save]
    dsimp only
    rw [hnext, hcounter]
  have hopen : save_step blank_text ['c'] half_saved.disk
      ⟨1, 0, [local_shard 2, local_shard 3], .named⟩ .open_tmp
      = some ((half_saved.disk.create (tmp_path ['c'] 1 0)).1, .writing 0 0) := rfl
  have hwrite : save_step blank_text ['c'] (half_saved.disk.create (tmp_path ['c'] 1 0)).1
      ⟨1, 0, [local_shard 2, local_shard 3], .writing 0 0⟩ (.write 3)
      = some ((half_saved.disk.create (tmp_path ['c'] 1 0)).1.write 0 0
          (blank_text.dump (config_json [local_shard 2, local_shard 3])), .writing 0 3) := rfl
  have hrename : save_step blank_text ['c'] ((half_saved.disk.create (tmp_path ['c'] 1 0)).1.write
      0 0 (blank_text.dump (config_json [local_shard 2, local_shard 3])))
      ⟨1, 0, [local_shard 2, local_shard 3], .writing 0 3⟩ .rename
      = some (overtaken, .renamed) := rfl
  refine ⟨⟨overtaken, Function.update counter 1 1, half_saved.saves ++ dead ++
    [⟨1, 0, [local_shard 2, local_shard 3], .renamed⟩], []⟩, ?_, rfl, ?_⟩
  · rw [hlast, Trace.run_step hsave, Trace.run_step (go_last blank_text hopen),
      Trace.run_step (go_last blank_text hwrite), Trace.run_step (go_last blank_text hrename)]
    rfl
  · exact ⟨_, rfl, rfl⟩

/-- **A load fails after a completed save**, for two reasons. The list that was saved is empty.
Or the counter of a process has come round while a save of it was under way: all lists have an
endpoint, but the load reads a mixture. -/
theorem load_fails_after_save :
    (∃ s, Trace.run (step blank_text ['c']) (System.start empty_disk)
        [.save 1 [], .go 0 .open_tmp, .go 0 (.write 1), .go 0 .rename, .load, .read 0 5,
         .read 0 5] = some s ∧
      s.saves = [⟨1, 0, [], .renamed⟩] ∧
      s.loads[0]? = some (.returned (.error (.runtime_error "cluster config has zero shards")))) ∧
    ∃ s t, Trace.run (step blank_text ['c']) (System.start empty_disk)
        ([.save 1 [local_shard 1], .go 0 .open_tmp] ++
          (dead_saves 1 [local_shard 1] 1 (2 ^ 64 - 1) ++
          [.save 1 [local_shard 2, local_shard 3], .go (2 ^ 64) .open_tmp,
            .go (2 ^ 64) (.write 3), .go (2 ^ 64) .rename])) = some s ∧
      (∃ sv ∈ s.saves, sv.phase = .renamed) ∧ (∀ sv ∈ s.saves, sv.shards ≠ []) ∧
      Trace.run (step blank_text ['c']) s [.load, .go 0 (.write 1), .read 0 5, .read 0 5]
        = some t ∧
      t.loads[0]? = some (.returned (.error .json_exception)) := by
  refine ⟨⟨_, rfl, rfl, rfl⟩, ?_⟩
  have hstart : Trace.run (step blank_text ['c']) (System.start empty_disk)
      [.save 1 [local_shard 1], .go 0 .open_tmp] = some half_saved := rfl
  obtain ⟨m, hrun, hdisk, hloads, hcounter, dead, hsaves, hlen, hshards⟩ :=
    run_dead_saves blank_text ['c'] 1 [local_shard 1] (s := half_saved) (by decide) (2 ^ 64 - 1)
  have hm : m = ⟨half_saved.disk, m.counter, half_saved.saves ++ dead, []⟩ := by
    rw [← hdisk, ← hsaves]
    exact congrArg (System.mk m.disk m.counter m.saves) hloads
  obtain ⟨s, hs, hsaved, t, ht, hload⟩ := shared_temp_file (hcounter.trans (by decide)) dead
  rw [hlen, ← hm] at hs
  refine ⟨s, t, ?_, ?_, ?_, ht, hload⟩
  · rw [Trace.run_append, hstart, Option.bind_some, Trace.run_append]
    change (Trace.run _ half_saved
      (dead_saves 1 [local_shard 1] half_saved.saves.length _)).bind _ = _
    rw [hrun]
    exact hs
  · rw [hsaved]
    exact ⟨_, List.mem_append_right _ List.mem_cons_self, rfl⟩
  · rw [hsaved]
    intro sv hsv
    rcases List.mem_append.mp hsv with h | h
    · rcases List.mem_append.mp h with h | h
      · rw [List.mem_singleton.mp h]
        simp
      · rw [hshards sv h]
        simp
    · rw [List.mem_singleton.mp h]
      simp

end NanoDB.Config
