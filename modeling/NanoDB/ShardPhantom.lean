/-
Which keys a shard treats as live, under concurrent requests and kills.

# The one awkward thing, named up front

`assign` makes a key known before its slot is written, and a slot that was never written reads
as live: from the first `assign` of a key to its index write, and for good if the process is
killed in between, the duplicate check and `ListLocalIds` take the key for live, and an
identical insert is compared with a vector of zeros. `Calm` asks that nobody looks at a key in
that window. It also excludes three things that make a live key look different from what
its last insert wrote: a deletion between the duplicate check and the read of the vector, an
index write without metadata over a slot that has some, and a kill after which the metadata
file is numbered differently.
-/
import NanoDB.ShardCalls

set_option autoImplicit false

namespace NanoDB.Shard

open Raft (Bytes)
open Index
open Beam (Ties)
open History (current latest)

section Phantom

variable {F D : Type*} [Zero F]

/-- What the stores of a shard have to do with its history. -/
structure Holds (sh : ShardServiceImpl F) (log : Log F) : Prop where
  sound : sh.index.Sound
  ids : sh.id_map.Wf
  metadata_wf : sh.index.metadata_storage.Wf
  recorded : sh.index.metadata_storage.Recorded
  assigned : ∀ i ∈ sh.index.nodes.keys, i < sh.id_map.reverse.length
  named : ∀ x, latest log x ≠ none → sh.id_map.lookup x ≠ none
  live : ∀ x i v, sh.id_map.lookup x = some i → i ∈ sh.index.nodes.keys →
    sh.index.get_vector_data i = some v → ∃ w, current log x = some w ∧ v = to_vec w.vector
  metadata : ∀ x i w, sh.id_map.lookup x = some i → latest log x = some w →
    sh.index.get_metadata i = w.metadata

/-- A shard is as it was up to its epoch. -/
theorem Holds.epoch {sh : ShardServiceImpl F} {log : Log F} (h : Holds sh log) (e : ℕ) :
    Holds { sh with current_epoch := e } log :=
  ⟨h.sound, h.ids, h.metadata_wf, h.recorded, h.assigned, h.named, h.live, h.metadata⟩

theorem holds_fresh (storage_size : ℕ) :
    Holds (ShardServiceImpl.fresh storage_size : ShardServiceImpl F) [] where
  sound := fresh_sound storage_size
  ids := wf_empty
  metadata_wf := fun _ => Or.inr rfl
  recorded := ⟨[], by simp, rfl⟩
  assigned := fun i hi => absurd hi (by simp [ShardServiceImpl.fresh, HNSW.fresh, Store.keys])
  named := fun _ h => absurd rfl h
  live := fun _ _ _ h => absurd h (by simp [ShardServiceImpl.fresh, IdMapStore.lookup])
  metadata := fun _ _ _ h => absurd h (by simp [ShardServiceImpl.fresh, IdMapStore.lookup])

/-- A new local id has no slot yet. -/
theorem holds_assign {sh : ShardServiceImpl F} {log : Log F} (h : Holds sh log) (x : Text) :
    Holds { sh with id_map := (sh.id_map.assign x).1 } log ∧
      (sh.id_map.assign x).1.lookup x = some (sh.id_map.assign x).2.1 ∧
      ∀ y i, sh.id_map.lookup y = some i → (sh.id_map.assign x).1.lookup y = some i := by
  obtain ⟨hwf, hself, hother, hcases⟩ := assign_spec h.ids x.2
  rcases hcases with ⟨-, -, hsame⟩ | ⟨hnone, hnew, hrev⟩
  · rw [hsame] at hself ⊢
    exact ⟨h, hself, fun _ _ hy => hy⟩
  -- a new id disturbs no assignment
  have hkept : ∀ y i, sh.id_map.lookup y = some i → (sh.id_map.assign x).1.lookup y = some i := by
    intro y i hy
    have hne : y ≠ x.1 := by
      rintro rfl
      exact absurd (hnone.symm.trans hy) (by simp)
    exact (hother y hne).trans hy
  refine ⟨⟨h.sound, hwf, h.metadata_wf, h.recorded, fun i hi => ?_, fun y hy => ?_,
    fun y i v hy hi hv => ?_, fun y i w hy hw => ?_⟩, hself, hkept⟩
  · have hlt := h.assigned i hi
    dsimp only
    rw [hrev, List.length_append]
    omega
  · obtain ⟨i, hi⟩ := Option.ne_none_iff_exists'.mp (h.named y hy)
    exact Option.ne_none_iff_exists'.mpr ⟨i, hkept y i hi⟩
  · by_cases hyx : y = x.1
    · -- the new id is behind all written slots
      rw [hyx] at hy
      have hi' : (sh.id_map.assign x).2.1 = i := Option.some.inj (hself.symm.trans hy)
      have hlt := h.assigned i hi
      rw [hnew] at hi'
      exact absurd hlt (by simp [← hi'])
    · exact h.live y i v ((hother y hyx).symm.trans hy) hi hv
  · by_cases hyx : y = x.1
    · exact absurd hnone (hyx ▸ h.named y (by simp [hw]))
    · exact h.metadata y i w ((hother y hyx).symm.trans hy) hw

/-- An index write. -/
theorem holds_write {sh : ShardServiceImpl F} {log : Log F} (h : Holds sh log)
    (req : InsertRequest F) {i : ℕ} (level : Fin MAX_LAYERS)
    (hi : sh.id_map.lookup req.external_id = some i)
    (hold : req.metadata.1 = [] → sh.index.get_metadata i = []) {index : HNSW (Vec F)}
    (hw : Writes sh.index ⟨to_vec req.vector, i, level, req.metadata.1⟩ index) :
    Holds { sh with index := index } (.put req.external_id.1 req :: log) := by
  obtain ⟨hmeta_ne, hmeta⟩ := hw.get_metadata h.metadata_wf
  -- the other keys have other slots
  have hne : ∀ y j, y ≠ req.external_id.1 → sh.id_map.lookup y = some j → j ≠ i := by
    rintro y j hy hj rfl
    exact hy (forward_inj h.ids hj hi)
  have hlt := (List.getElem?_eq_some_iff.mp ((forward_iff h.ids _ _).mp hi)).1
  refine ⟨hw.sound, h.ids, hw.metadata ▸ save_metadata_wf h.metadata_wf _ _,
    hw.metadata ▸ save_metadata_recorded h.recorded _ req.metadata.2, fun j hj => ?_,
    fun y hy => ?_, fun y j v hj hkey hv => ?_, fun y j w hj hlast => ?_⟩
  · rcases (hw.keys j).mp hj with rfl | hj
    · exact hlt
    · exact h.assigned j hj
  · by_cases hyx : y = req.external_id.1
    · rw [hyx]
      exact Option.ne_none_iff_exists'.mpr ⟨i, hi⟩
    · rw [History.latest_put_ne _ _ hyx] at hy
      exact h.named y hy
  · by_cases hyx : y = req.external_id.1
    · rw [hyx] at hj
      obtain rfl : i = j := Option.some.inj (hi.symm.trans hj)
      rw [hyx, History.current_put_self]
      exact ⟨req, rfl, Option.some.inj (hv.symm.trans hw.vector_self)⟩
    · have hji := hne y j hyx hj
      have hkey' := ((hw.keys j).mp hkey).resolve_left hji
      rw [History.current_put_ne _ _ hyx]
      exact h.live y j v hj hkey' ((hw.vector_ne j hji hkey').symm.trans hv)
  · by_cases hyx : y = req.external_id.1
    · rw [hyx] at hj hlast
      obtain rfl : i = j := Option.some.inj (hi.symm.trans hj)
      rw [History.latest_put_self] at hlast
      rw [← Option.some.inj hlast]
      exact hmeta hold
    · rw [History.latest_put_ne _ _ hyx] at hlast
      exact (hmeta_ne j (hne y j hyx hj)).trans (h.metadata y j w hj hlast)

/-- A deletion, also of a slot that was never written. -/
theorem holds_delete {sh : ShardServiceImpl F} {log : Log F} (h : Holds sh log) {x : Bytes} {i : ℕ}
    (hi : sh.id_map.lookup x = some i) :
    Holds { sh with index := sh.index.delete_vector i } (.del x :: log) := by
  obtain ⟨hsound, -, hback, hmeta, hself, hne⟩ := delete_spec h.sound i
  have hlt := (List.getElem?_eq_some_iff.mp ((forward_iff h.ids _ _).mp hi)).1
  refine ⟨hsound, h.ids, hmeta ▸ h.metadata_wf, hmeta ▸ h.recorded, fun j hj => ?_, h.named,
    fun y j v hj hkey hv => ?_, fun y j w hj hlast => ?_⟩
  · rcases hback j hj with hj | rfl
    · exact h.assigned j hj
    · exact hlt
  · by_cases hji : j = i
    · subst hji
      exact absurd ((hself hkey).symm.trans hv) (by simp)
    · have hkey' := (hback j hkey).resolve_right hji
      have hyx : y ≠ x := by
        rintro rfl
        exact hji (Option.some.inj (hj.symm.trans hi))
      rw [History.current_del_ne _ hyx]
      exact h.live y j v hj hkey' ((hne j hji).symm.trans hv)
  · rw [HNSW.get_metadata, hmeta]
    exact h.metadata y j w hj hlast

/-- A kill that finds every key's metadata again. -/
theorem holds_reopen {sh : ShardServiceImpl F} {log : Log F} (h : Holds sh log)
    (hmeta : ∀ i < sh.id_map.reverse.length,
      (MetadataHandler.open_file sh.index.metadata_storage.file).get_metadata i
        = sh.index.get_metadata i) : Holds sh.reopen log := by
  have hids : sh.reopen.id_map = sh.id_map := reopen h.ids
  refine ⟨⟨⟨h.sound.region.closed, h.sound.region.range⟩, h.sound.entry⟩, hids.symm ▸ h.ids,
    open_file_wf h.recorded, h.recorded, hids.symm ▸ h.assigned, hids.symm ▸ h.named,
    hids.symm ▸ h.live, fun y j w hj hlast => ?_⟩
  rw [hids] at hj
  have hlt := (List.getElem?_eq_some_iff.mp ((forward_iff h.ids _ _).mp hj)).1
  exact (hmeta j hlt).trans (h.metadata y j w hj hlast)

/-! ## Handlers -/

/-- What is true of a handler that waits for its next call. -/
def HandlerOk (sh : ShardServiceImpl F) (log : Log F) (h : Handler F) : Prop :=
  match h.pc with
  | .assign => True
  | .is_deleted i => sh.id_map.lookup h.req.external_id = some i
  | .get_vector_data i since =>
      sh.id_map.lookup h.req.external_id = some i ∧ since <:+ log ∧
        current since h.req.external_id.1 ≠ none ∧ i ∈ sh.index.nodes.keys ∧
        sh.index.get_vector_data i ≠ none
  | .get_metadata i since existing_vec =>
      sh.id_map.lookup h.req.external_id = some i ∧ since <:+ log ∧
        current since h.req.external_id.1 ≠ none ∧
        ∃ es w, since <:+ es ∧ es <:+ log ∧ current es h.req.external_id.1 = some w ∧
          existing_vec = some (to_vec w.vector)
  | .insert i => sh.id_map.lookup h.req.external_id = some i

/-- A handler in front of its read of the vector. -/
def Handler.reads (h : Handler F) (x : Bytes) : Prop :=
  h.req.external_id.1 = x ∧
    match h.pc with
    | .get_vector_data _ _ => True
    | _ => False

instance decidableReads (h : Handler F) (x : Bytes) : Decidable (h.reads x) := by
  unfold Handler.reads
  rcases h.pc <;> infer_instance

/-- Handlers are not disturbed by what others do: ids stay, the history grows, and a slot that
one of them is about to read stays live. -/
theorem HandlerOk.mono {sh sh' : ShardServiceImpl F} {log log' : Log F} {h : Handler F}
    (hh : HandlerOk sh log h)
    (hids : ∀ y i, sh.id_map.lookup y = some i → sh'.id_map.lookup y = some i)
    (hlog : log <:+ log')
    (hlive : ∀ i, h.reads h.req.external_id.1 → sh.id_map.lookup h.req.external_id = some i →
      i ∈ sh.index.nodes.keys → sh.index.get_vector_data i ≠ none →
      i ∈ sh'.index.nodes.keys ∧ sh'.index.get_vector_data i ≠ none) : HandlerOk sh' log' h := by
  obtain ⟨req, pc⟩ := h
  cases pc with
  | assign => trivial
  | is_deleted i => exact hids _ i hh
  | get_vector_data i since =>
      obtain ⟨hi, hsince, hheld, hkey, hsome⟩ := hh
      exact ⟨hids _ i hi, hsince.trans hlog, hheld, hlive i ⟨rfl, trivial⟩ hi hkey hsome⟩
  | get_metadata i since existing_vec =>
      obtain ⟨hi, hsince, hheld, es, w, h₁, h₂, h₃⟩ := hh
      exact ⟨hids _ i hi, hsince.trans hlog, hheld, es, w, h₁, h₂.trans hlog, h₃⟩
  | insert i => exact hids _ i hh

/-! ## Processes -/

variable [BEq F]

/-- What every calm run keeps. -/
structure Calmed (p : Process F) : Prop where
  holds : Holds p.shard p.log
  handlers : ∀ h ∈ p.handlers, HandlerOk p.shard p.log h
  deletes : ∀ d ∈ p.deletes, p.shard.id_map.lookup d.1 = some d.2
  observed : ∀ o ∈ p.observed, current o.log o.external_id ≠ none
  rejected : ∀ r ∈ p.rejected, ∃ es w, r.since <:+ es ∧ es <:+ r.log ∧
    current es r.req.external_id.1 = some w ∧ same_data w r.req = false

/-- The conditions on a call, in the state before it. -/
def Calm (p : Process F) : Act F → Prop
  | .is_deleted k =>
      ∀ h ∈ p.handlers[k]?, ∀ i ∈ p.shard.id_map.lookup h.req.external_id,
        i ∈ p.shard.index.nodes.keys
  | .list_key x => ∀ i ∈ p.shard.id_map.lookup x, i ∈ p.shard.index.nodes.keys
  | .get_vector x =>
      ∀ i ∈ p.shard.id_map.lookup x,
        i ∈ p.shard.index.nodes.keys ∨ slot_end i > p.shard.index.storage_size
  | .insert k _ =>
      ∀ h ∈ p.handlers[k]?, h.req.metadata.1 = [] →
        ∀ i ∈ p.shard.id_map.lookup h.req.external_id, p.shard.index.get_metadata i = []
  | .delete_vector k => ∀ d ∈ p.deletes[k]?, ∀ h ∈ p.handlers, ¬ h.reads d.1
  | .kill =>
      ∀ i < p.shard.id_map.reverse.length,
        (MetadataHandler.open_file p.shard.index.metadata_storage.file).get_metadata i
          = p.shard.index.get_metadata i
  | _ => True

instance decidableCalm (p : Process F) : ∀ a, Decidable (Calm p a) := by
  intro a
  rcases a <;> (unfold Calm; infer_instance)

theorem Calmed.goto {p : Process F} (hp : Calmed p) (k : ℕ) {req : InsertRequest F} {pc : Pc F}
    (h : HandlerOk p.shard p.log ⟨req, pc⟩) : Calmed (p.goto k req pc) := by
  refine ⟨hp.holds, fun h' hh' => ?_, hp.deletes, hp.observed, hp.rejected⟩
  rcases List.mem_or_eq_of_mem_set hh' with hh' | rfl
  · exact hp.handlers h' hh'
  · exact h

theorem Calmed.answer {p : Process F} (hp : Calmed p) (k : ℕ) : Calmed (p.answer k) :=
  ⟨hp.holds, fun h hh => hp.handlers h (List.mem_of_mem_eraseIdx hh), hp.deletes, hp.observed,
    hp.rejected⟩

theorem Calmed.observe {p : Process F} (hp : Calmed p) {x : Bytes} (hx : current p.log x ≠ none) :
    Calmed (p.observe x) := by
  refine ⟨hp.holds, hp.handlers, hp.deletes, fun o ho => ?_, hp.rejected⟩
  rcases List.mem_cons.mp ho with rfl | ho
  · exact hx
  · exact hp.observed o ho

/-- A written slot that reads as live belongs to a key whose last write was not deleted. -/
theorem Calmed.current_ne_none {p : Process F} (hp : Calmed p) {x : Bytes} {i : ℕ}
    (hi : p.shard.id_map.lookup x = some i) (hkey : i ∈ p.shard.index.nodes.keys)
    (hlive : p.shard.index.get_vector_data i ≠ none) : current p.log x ≠ none := by
  obtain ⟨v, hv⟩ := Option.ne_none_iff_exists'.mp hlive
  obtain ⟨w, hw, -⟩ := hp.holds.live x i v hi hkey hv
  exact Option.ne_none_iff_exists'.mpr ⟨w, hw⟩

theorem Calmed.not_deleted {p : Process F} (hp : Calmed p) {i : ℕ}
    (hkey : i ∈ p.shard.index.nodes.keys) (hdel : ¬ p.shard.index.is_deleted i = true) :
    p.shard.index.get_vector_data i ≠ none :=
  fun h => hdel ((is_deleted_iff hp.holds.sound hkey).mpr h)

/-! ## One call -/

/-- The duplicate check. -/
theorem calmed_is_deleted {p : Process F} (hp : Calmed p) {k i : ℕ} {req : InsertRequest F}
    (hk : p.handlers[k]? = some ⟨req, .is_deleted i⟩) (hcalm : Calm p (.is_deleted k)) :
    Calmed (if p.shard.index.is_deleted i then p.goto k req (.insert i)
      else (p.observe req.external_id).goto k req (.get_vector_data i p.log)) := by
  have hi : p.shard.id_map.lookup req.external_id = some i :=
    hp.handlers _ (List.mem_of_getElem? hk)
  have hkey := hcalm _ hk i hi
  split
  · exact hp.goto k hi
  · rename_i hdel
    have hlive := hp.not_deleted hkey hdel
    have hx := hp.current_ne_none hi hkey hlive
    exact (hp.observe hx).goto k ⟨hi, List.suffix_refl _, hx, hkey, hlive⟩

/-- The read of the vector: it is that of the insert the key holds. -/
theorem calmed_get_vector_data {p : Process F} (hp : Calmed p) {k i : ℕ} {req : InsertRequest F}
    {since : Log F} (hk : p.handlers[k]? = some ⟨req, .get_vector_data i since⟩) :
    Calmed (p.goto k req (.get_metadata i since (p.shard.index.get_vector_data i))) := by
  obtain ⟨hi, hsince, hheld, hkey, hlive⟩ := hp.handlers _ (List.mem_of_getElem? hk)
  obtain ⟨v, hv⟩ := Option.ne_none_iff_exists'.mp hlive
  obtain ⟨w, hw, rfl⟩ := hp.holds.live _ i v hi hkey hv
  exact hp.goto k ⟨hi, hsince, hheld, p.log, w, hsince, List.suffix_refl _, hw, hv⟩

/-- The comparison. Vector and metadata may come from two inserts; whichever of the two
differs from the request was held since the duplicate check. -/
theorem calmed_get_metadata {p : Process F} (hp : Calmed p) {k i : ℕ} {req : InsertRequest F}
    {since : Log F} {existing_vec : Option (Vec F)}
    (hk : p.handlers[k]? = some ⟨req, .get_metadata i since existing_vec⟩) :
    Calmed (if same existing_vec (p.shard.index.get_metadata i) req then p.answer k
      else { p.answer k with rejected := ⟨req, since, p.log⟩ :: p.rejected }) := by
  obtain ⟨hi, hsince, hheld, es, w, hes, hes', hw, rfl⟩ :=
    hp.handlers _ (List.mem_of_getElem? hk)
  have ha := hp.answer k
  split
  · exact ha
  rename_i hdiff
  refine ⟨ha.holds, ha.handlers, ha.deletes, ha.observed, fun r hr => ?_⟩
  rcases List.mem_cons.mp hr with rfl | hr
  swap
  · exact hp.rejected r hr
  -- the vectors agree, so the metadata must differ, and it is that of the latest write
  by_cases hvec : equal (to_vec w.vector) (to_vec req.vector) = true
  · obtain ⟨w', es', hlatest, h₁, h₂, hw'⟩ := History.exists_current hsince hheld
    have hmeta := hp.holds.metadata _ i w' hi hlatest
    refine ⟨es', w', h₁, h₂, hw', ?_⟩
    rw [same, hvec, hmeta] at hdiff
    simp only [same_data, same]
    simp at hdiff ⊢
    exact fun _ => hdiff
  · refine ⟨es, w, hes, hes', hw, ?_⟩
    simp only [same_data, same]
    simp [hvec]

/-- The index write. -/
theorem calmed_insert {p : Process F} (hp : Calmed p) {k i : ℕ} {req : InsertRequest F}
    (level : Fin MAX_LAYERS) (hk : p.handlers[k]? = some ⟨req, .insert i⟩)
    (hcalm : Calm p (.insert k level)) {index : HNSW (Vec F)}
    (hw : Writes p.shard.index ⟨to_vec req.vector, i, level, req.metadata.1⟩ index) :
    Calmed { p.answer k with
      shard := { p.shard with index := index }
      log := .put req.external_id.1 req :: p.log } := by
  have hi : p.shard.id_map.lookup req.external_id = some i :=
    hp.handlers _ (List.mem_of_getElem? hk)
  have ha := hp.answer k
  refine ⟨holds_write hp.holds req level hi (fun hmd => hcalm _ hk hmd i hi) hw, fun h hh => ?_,
    ha.deletes, ha.observed, ha.rejected⟩
  refine (ha.handlers h hh).mono (fun _ _ hy => hy) (List.suffix_cons _ _)
    (fun j _ _ hkey hlive => ?_)
  refine ⟨(hw.keys j).mpr (Or.inr hkey), ?_⟩
  by_cases hji : j = i
  · subst hji
    exact Option.ne_none_iff_exists'.mpr ⟨_, hw.vector_self⟩
  · exact (hw.vector_ne j hji hkey).symm ▸ hlive

/-- The deletion, while nobody is about to read that key. -/
theorem calmed_delete_vector {p : Process F} (hp : Calmed p) {k i : ℕ} {x : Bytes}
    (hk : p.deletes[k]? = some (x, i)) (hcalm : Calm p (.delete_vector k)) :
    Calmed { p with
      shard := { p.shard with index := p.shard.index.delete_vector i }
      deletes := p.deletes.eraseIdx k
      log := .del x :: p.log } := by
  have hi : p.shard.id_map.lookup x = some i := hp.deletes _ (List.mem_of_getElem? hk)
  obtain ⟨-, hkeys, -, -, -, hne⟩ := delete_spec hp.holds.sound i
  refine ⟨holds_delete hp.holds hi, fun h hh => ?_,
    fun d hd => hp.deletes d (List.mem_of_mem_eraseIdx hd), hp.observed, hp.rejected⟩
  refine (hp.handlers h hh).mono (fun _ _ hy => hy) (List.suffix_cons _ _)
    (fun j hreads hj hkey hlive => ⟨hkeys j hkey, ?_⟩)
  have hji : j ≠ i := by
    rintro rfl
    have hx := forward_inj hp.holds.ids hj hi
    exact hcalm _ hk h hh (hx ▸ hreads)
  exact (hne j hji).symm ▸ hlive

/-- `assign`. -/
theorem calmed_assign {p : Process F} (hp : Calmed p) (k : ℕ) (req : InsertRequest F) :
    Calmed ({ p with shard := { p.shard with
        id_map := (p.shard.id_map.assign req.external_id).1 } }.goto k req
      (if (p.shard.id_map.assign req.external_id).2.2
        then .insert (p.shard.id_map.assign req.external_id).2.1
        else .is_deleted (p.shard.id_map.assign req.external_id).2.1)) := by
  obtain ⟨hholds, hself, hkept⟩ := holds_assign hp.holds req.external_id
  have hp' : Calmed { p with shard := { p.shard with
      id_map := (p.shard.id_map.assign req.external_id).1 } } := by
    refine ⟨hholds, fun h hh => ?_, fun d hd => hkept _ _ (hp.deletes d hd), hp.observed,
      hp.rejected⟩
    exact (hp.handlers h hh).mono hkept (List.suffix_refl _) (fun _ _ _ hkey hlive => ⟨hkey, hlive⟩)
  apply hp'.goto
  split <;> exact hself

/-- The epoch has no part in this. -/
theorem Calmed.epoch {p : Process F} (hp : Calmed p) (e : ℕ) :
    Calmed { p with shard := { p.shard with current_epoch := e } } := by
  refine ⟨hp.holds.epoch e, fun h hh => ?_, hp.deletes, hp.observed, hp.rejected⟩
  exact (hp.handlers h hh).mono (fun _ _ hy => hy) (List.suffix_refl _)
    (fun _ _ _ hkey hlive => ⟨hkey, hlive⟩)

variable [LinearOrder D] (ties : Ties D) (dist : Vec F → Vec F → D)

/-- **A calm call keeps what was said.** -/
theorem calmed_step {p p' : Process F} {a : Act F} (hp : Calmed p) (hcalm : Calm p a)
    (hstep : call_step ties dist p a = some p') : Calmed p' := by
  cases a with
  -- one lemma per act; here the handler's position is read off the step
  | call req =>
      simp only [call_step] at hstep
      split at hstep
      · exact Option.some.inj hstep ▸ hp
      · rename_i sh hchecks
        obtain ⟨e, rfl⟩ := checks_eq hchecks
        have he := hp.epoch e
        rw [← Option.some.inj hstep]
        refine ⟨he.holds, fun h hh => ?_, he.deletes, he.observed, he.rejected⟩
        rcases List.mem_append.mp hh with hh | hh
        · exact he.handlers h hh
        · rw [List.mem_singleton.mp hh]
          trivial
  | assign k =>
      simp only [call_step] at hstep
      split at hstep
      · exact Option.some.inj hstep ▸ calmed_assign hp k _
      · simp at hstep
  | is_deleted k =>
      simp only [call_step] at hstep
      split at hstep
      · rename_i hk
        have h := calmed_is_deleted hp hk hcalm
        split at hstep <;> rename_i hdel
        · rw [if_pos hdel] at h
          exact Option.some.inj hstep ▸ h
        · rw [if_neg hdel] at h
          exact Option.some.inj hstep ▸ h
      · simp at hstep
  | get_vector_data k =>
      simp only [call_step] at hstep
      split at hstep
      · rename_i hk
        exact Option.some.inj hstep ▸ calmed_get_vector_data hp hk
      · simp at hstep
  | get_metadata k =>
      simp only [call_step] at hstep
      split at hstep
      · rename_i hk
        have h := calmed_get_metadata hp hk
        split at hstep <;> rename_i hsame
        · rw [if_pos hsame] at h
          exact Option.some.inj hstep ▸ h
        · rw [if_neg hsame] at h
          exact Option.some.inj hstep ▸ h
      · simp at hstep
  | insert k level =>
      simp only [call_step] at hstep
      split at hstep
      · rename_i req i hk
        obtain ⟨index, hindex, hw⟩ := insert_writes ties dist hp.holds.sound
          ⟨to_vec req.vector, i, level, req.metadata.1⟩
        rw [show p.shard.index.insert ties dist (to_vec req.vector) i level req.metadata.1
          = some index from hindex] at hstep
        exact Option.some.inj hstep ▸ calmed_insert hp level hk hcalm hw
      · simp at hstep
  | call_delete req =>
      simp only [call_step] at hstep
      split at hstep
      · exact Option.some.inj hstep ▸ hp
      · rename_i sh hepoch
        obtain ⟨e, rfl⟩ := check_and_advance_epoch_eq hepoch
        have he := hp.epoch e
        split at hstep
        · exact Option.some.inj hstep ▸ he
        · rename_i i hi
          rw [← Option.some.inj hstep]
          refine ⟨he.holds, he.handlers, fun d hd => ?_, he.observed, he.rejected⟩
          rcases List.mem_append.mp hd with hd | hd
          · exact he.deletes d hd
          · rw [List.mem_singleton.mp hd]
            exact hi
  | delete_vector k =>
      simp only [call_step] at hstep
      split at hstep
      · rename_i x i hk
        exact Option.some.inj hstep ▸ calmed_delete_vector hp hk hcalm
      · simp at hstep
  | list_key x =>
      simp only [call_step] at hstep
      split at hstep
      · rename_i hlisted
        have hlisted' := hlisted.2
        unfold ShardServiceImpl.listed at hlisted'
        split at hlisted'
        · simp at hlisted'
        · rename_i i hi
          have hkey := hcalm i hi
          have hlive := hp.not_deleted hkey (by simpa using hlisted')
          exact Option.some.inj hstep ▸ hp.observe (hp.current_ne_none hi hkey hlive)
      · exact Option.some.inj hstep ▸ hp
  | get_vector x =>
      simp only [call_step] at hstep
      split at hstep
      · rename_i hok
        unfold ShardServiceImpl.get_vector at hok
        split at hok
        · simp at hok
        rename_i i hi
        split at hok
        · simp at hok
        rename_i v hv
        rcases hcalm i hi with hkey | hrange
        · have hlive := Option.ne_none_iff_exists'.mpr ⟨v, hv⟩
          exact Option.some.inj hstep ▸ hp.observe (hp.current_ne_none hi hkey hlive)
        · -- out of range: there is no vector
          rw [HNSW.get_vector_data, if_pos hrange] at hv
          simp at hv
      · exact Option.some.inj hstep ▸ hp
  | kill =>
      rw [← Option.some.inj hstep]
      exact ⟨holds_reopen hp.holds hcalm, by simp, by simp, hp.observed, hp.rejected⟩

end Phantom

/-- An insert under the key `"\x01"`. -/
def insert_one (metadata : Text) : InsertRequest ℤ :=
  ⟨one_byte 1, List.replicate VECTOR_DIM 1, metadata, 0⟩

/-- Two identical inserts of which the second looks when the first has written, a kill, the
insert once more, a deletion, and an insert that revives the key with other data while a
last one is refused. -/
def calm_run : List (Act ℤ) :=
  [.call (insert_one (one_byte 97)), .call (insert_one (one_byte 97)), .assign 1, .insert 1 0,
    .assign 0, .is_deleted 0, .get_vector_data 0, .get_metadata 0, .kill,
    .call (insert_one (one_byte 97)), .assign 0, .is_deleted 0, .get_vector_data 0,
    .get_metadata 0, .list_key (one_byte 1), .call_delete ⟨one_byte 1, 0⟩, .delete_vector 0,
    .get_vector (one_byte 1), .call (insert_one (one_byte 98)), .assign 0, .is_deleted 0,
    .insert 0 0, .call (insert_one (one_byte 97)), .assign 0, .is_deleted 0,
    .get_vector_data 0, .get_metadata 0]

end NanoDB.Shard
