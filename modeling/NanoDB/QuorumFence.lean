/-
One shard with a fixed set of replicas, written to by any number of coordinators.

Every coordinator has its own view of the shard: which replica is the primary, in which order
they are listed, and the epoch it attaches to its writes. A write is issued to all replicas at
once; each process executes its requests one at a time, in any order, and any reply can be lost.

`Served` is the induction all results about such runs share: whatever the execution of one
request establishes and later ones keep, holds of every call that was answered ok. Quorums turn
it into agreement: two writes that reported ok have a replica in common that answered both.
Fencing is the first instance. A replica that answered ok to an epoch has a mark at least that
high, so a write issued later with a lower epoch is refused by a majority.
-/
import NanoDB.Lib.Quorum
import NanoDB.Lib.Trace
import NanoDB.QuorumWrite

set_option autoImplicit false

namespace NanoDB.Coord

open Raft (Bytes)
open Shard
open Index (MAX_LAYERS)
open Beam (Ties)
open Quorum

/-! ## The replicas of a shard -/

/-- A call of `quorum_insert` or `quorum_delete`. -/
inductive Update (F : Type*)
  | insert (external_id : Text) (vector : List F) (metadata : Text)
  | delete (external_id : Text)
deriving DecidableEq

/-- The request to a replica whose epoch is known to be `epoch`. -/
def Update.write {F : Type*} (epoch : ℕ) : Update F → Write F
  | .insert external_id vector metadata => .insert ⟨external_id, vector, metadata, epoch⟩
  | .delete external_id => .delete ⟨external_id, epoch⟩

def Write.epoch {F : Type*} : Write F → ℕ
  | .insert req => req.epoch
  | .delete req => req.epoch

@[simp] theorem write_epoch {F : Type*} (update : Update F) (e : ℕ) :
    (update.write e).epoch = e := by
  cases update <;> rfl

/-- A quorum write in progress, with the replicas as its coordinator sees them. -/
structure QuorumCall (F : Type*) where
  replicas : List ShardClient
  update : Update F
  futures : List Future

/-- All futures are there, and they are a quorum. -/
def QuorumCall.ok {F : Type*} (q : QuorumCall F) : Bool :=
  joined q.futures && (quorum_result q.futures).ok

structure Replicas (F : Type*) where
  procs : Node → ShardServiceImpl F
  calls : List (Call F) := []
  writes : List (QuorumCall F) := []

inductive WriteAct (F : Type*)
  | issue (replicas : List ShardClient) (update : Update F)
  | execute (k : ℕ) (level : Fin MAX_LAYERS)
  | resolve (j i : ℕ) (delivered : Bool)

section Step

variable {F D : Type*} [Zero F] [BEq F] [LinearOrder D] (ties : Ties D) (dist : Vec F → Vec F → D)

/-- A process executes one request. -/
def perform (sh : ShardServiceImpl F) (level : Fin MAX_LAYERS) :
    Write F → Option (ShardServiceImpl F × WriteResponse)
  | .insert req => sh.insert ties dist req level
  | .delete req => some (sh.delete req)

/-- One step. `none`: there is no such call, or it was answered. -/
def replicas_step (s : Replicas F) : WriteAct F → Option (Replicas F)
  | .issue replicas update =>
      let q := fire s.calls .client replicas (fun epoch => update.write epoch)
      some { s with calls := q.1, writes := s.writes ++ [⟨replicas, update, q.2⟩] }
  | .execute k level =>
      match s.calls[k]? with
      | none => none
      | some c =>
          if c.response.isSome then none
          else (perform ties dist (s.procs c.node) level c.body).map (fun p =>
            { s with
              procs := Function.update s.procs c.node p.1
              calls := s.calls.set k { c with response := some p.2 } })
  | .resolve j i delivered =>
      match s.writes[j]? with
      | none => none
      | some q => (resolve s.calls q.futures i delivered).map (fun futures =>
          { s with writes := s.writes.set j { q with futures := futures } })

end Step

/-! ## Calls and their answers -/

section Served

variable {F D : Type*}

/-- The call was answered ok. -/
def Call.acked (c : Call F) : Prop := ∃ res, c.response = some res ∧ res.ok = true

/-- A future of a write belongs to the call to its replica, and is true only if that call was
answered ok. Calls before the `start`-th are not among them. -/
def Tracks (calls : List (Call F)) (start : ℕ) (update : Update F) (sc : ShardClient)
    (f : Future) : Prop :=
  start ≤ f.call ∧ ∃ c, calls[f.call]? = some c ∧ c.node = sc.node ∧
    c.body = update.write sc.epoch ∧ (f.result = some true → c.acked)

theorem Tracks.mono {calls calls' : List (Call F)} {start : ℕ} {update : Update F}
    {sc : ShardClient} {f : Future} (hg : Grown calls calls') (h : Tracks calls start update sc f) :
    Tracks calls' start update sc f := by
  obtain ⟨hstart, c, hc, hnode, hbody, hack⟩ := h
  obtain ⟨c', hc', hnode', -, hbody', hres⟩ := hg f.call c hc
  refine ⟨hstart, c', hc', hnode'.trans hnode, hbody'.trans hbody, fun hf => ?_⟩
  obtain ⟨res, hr, hok⟩ := hack hf
  exact ⟨res, hres res hr, hok⟩

/-- A new round is tracked. -/
theorem tracks_fire (calls : List (Call F)) (replicas : List ShardClient) (update : Update F)
    {start : ℕ} (hstart : start ≤ calls.length) :
    List.Forall₂ (Tracks (fire calls .client replicas (fun e => update.write e)).1 start update)
      replicas (fire calls .client replicas (fun e => update.write e)).2 := by
  rw [List.forall₂_iff_get]
  refine ⟨by simp [fire], fun i h₁ h₂ => ?_⟩
  have hi : replicas[i]? = some (replicas.get ⟨i, h₁⟩) := List.getElem?_eq_getElem h₁
  have hcall : ((fire calls .client replicas (fun e => update.write e)).2.get ⟨i, h₂⟩).call
      = calls.length + i := by simp [fire]
  rw [Tracks, hcall]
  refine ⟨Nat.le_add_right_of_le hstart,
    ⟨(replicas.get ⟨i, h₁⟩).node, .client, update.write (replicas.get ⟨i, h₁⟩).epoch, none⟩, ?_,
    rfl, rfl, fun h => absurd h (by simp [fire])⟩
  exact fire_getElem? calls .client _ hi

/-- Resolving a future keeps the round tracked. -/
theorem tracks_resolve {calls : List (Call F)} {start : ℕ} {update : Update F}
    {replicas : List ShardClient} {futures futures' : List Future} {i : ℕ} {delivered : Bool}
    (h : List.Forall₂ (Tracks calls start update) replicas futures)
    (hres : resolve calls futures i delivered = some futures') :
    List.Forall₂ (Tracks calls start update) replicas futures' := by
  obtain ⟨f, hf, rfl⟩ := resolve_spec hres
  rw [List.forall₂_iff_get] at h ⊢
  refine ⟨by rw [List.length_set]; exact h.1, fun j h₁ h₂ => ?_⟩
  have hj := h.2 j h₁ (by rwa [List.length_set] at h₂)
  rw [List.get_eq_getElem, List.get_eq_getElem] at hj ⊢
  rw [List.getElem_set]
  split_ifs with hij
  · subst hij
    have hfi : futures[i] = f := (List.getElem?_eq_some_iff.mp hf).2
    rw [hfi] at hj
    obtain ⟨hstart, c, hc, hnode, hbody, -⟩ := hj
    refine ⟨hstart, c, hc, hnode, hbody, fun hout => ?_⟩
    obtain ⟨c', res, hc', hr, hok⟩ := outcome_true (Option.some.inj hout)
    obtain rfl : c = c' := Option.some.inj (hc.symm.trans hc')
    exact ⟨res, hr, hok⟩
  · exact hj

/-- The replicas whose future is true. -/
theorem exists_acked {Rel : ShardClient → Future → Prop} {replicas : List ShardClient}
    {futures : List Future} (h : List.Forall₂ Rel replicas futures) :
    ∃ acked : List ShardClient, acked.Sublist replicas ∧
      acked.length = futures.countP (fun f => f.result = some true) ∧
      ∀ sc ∈ acked, ∃ f, Rel sc f ∧ f.result = some true := by
  induction h with
  | nil => exact ⟨[], List.Sublist.refl _, rfl, fun _ h => absurd h (by simp)⟩
  | @cons sc f replicas futures hrel _ ih =>
      obtain ⟨acked, hsub, hlen, hall⟩ := ih
      by_cases hf : f.result = some true
      · refine ⟨sc :: acked, hsub.cons_cons sc, ?_, fun sc' hsc' => ?_⟩
        · rw [List.countP_cons_of_pos (by simpa using hf), List.length_cons, hlen]
        · rcases List.mem_cons.mp hsc' with rfl | hsc'
          · exact ⟨f, hrel, hf⟩
          · exact hall sc' hsc'
      · refine ⟨acked, hsub.cons sc, ?_, hall⟩
        rw [List.countP_cons_of_neg (by simpa using hf), hlen]

/-- **A write that reported ok was answered ok by a majority of the replicas.** -/
theorem acked_majority {R : List Node} (hR : R.Nodup) {Rel : ShardClient → Future → Prop}
    {q : QuorumCall F} (hview : (q.replicas.map ShardClient.node).Perm R)
    (h : List.Forall₂ Rel q.replicas q.futures) (hok : q.ok = true) :
    ∃ A, IsMajority R A ∧ ∀ n ∈ A, ∃ sc ∈ q.replicas, sc.node = n ∧ ∃ f, Rel sc f ∧
      f.result = some true := by
  obtain ⟨acked, hsub, hlen, hall⟩ := exists_acked h
  have hmap : (acked.map ShardClient.node).Sublist (q.replicas.map ShardClient.node) :=
    hsub.map _
  have hneeded : q.futures.length / 2 + 1 ≤ q.futures.countP (fun f => f.result = some true) := by
    unfold QuorumCall.ok quorum_result at hok
    simp only [Bool.and_eq_true, decide_eq_true_eq] at hok
    exact hok.2.2
  refine ⟨(acked.map ShardClient.node).toFinset, ⟨fun n hn => ?_, ?_⟩, fun n hn => ?_⟩
  · rw [List.mem_toFinset] at hn ⊢
    exact hview.mem_iff.mp (hmap.subset hn)
  · rw [List.toFinset_card_of_nodup ((hview.nodup_iff.mpr hR).sublist hmap), List.length_map,
      hlen, ← hview.length_eq, List.length_map, h.length_eq]
    exact hneeded
  · rw [List.mem_toFinset] at hn
    obtain ⟨sc, hsc, rfl⟩ := List.mem_map.mp hn
    exact ⟨sc, hsub.subset hsc, rfl, hall sc hsc⟩

/-- The writes from the `m`-th on are tracked, from call `start` on. -/
structure Tracked (m start : ℕ) (s : Replicas F) : Prop where
  start_le : start ≤ s.calls.length
  length : m ≤ s.writes.length
  write : ∀ q ∈ s.writes.drop m, List.Forall₂ (Tracks s.calls start q.update) q.replicas q.futures

variable [Zero F] [BEq F] [LinearOrder D] {ties : Ties D} {dist : Vec F → Vec F → D}

/-- What one step can do. -/
theorem replicas_step_cases {s s' : Replicas F} {a : WriteAct F}
    (h : replicas_step ties dist s a = some s') :
    (∃ replicas update, a = .issue replicas update ∧
      s' = { s with
        calls := (fire s.calls .client replicas (fun e => update.write e)).1
        writes := s.writes ++ [⟨replicas, update,
          (fire s.calls .client replicas (fun e => update.write e)).2⟩] }) ∨
    (∃ k level c p, a = .execute k level ∧ s.calls[k]? = some c ∧ c.response = none ∧
      perform ties dist (s.procs c.node) level c.body = some p ∧
      s' = { s with
        procs := Function.update s.procs c.node p.1
        calls := s.calls.set k { c with response := some p.2 } }) ∨
    ∃ j i delivered q futures, a = .resolve j i delivered ∧ s.writes[j]? = some q ∧
      resolve s.calls q.futures i delivered = some futures ∧
      s' = { s with writes := s.writes.set j { q with futures := futures } } := by
  cases a with
  | issue replicas update => exact Or.inl ⟨replicas, update, rfl, (Option.some.inj h).symm⟩
  | execute k level =>
      simp only [replicas_step] at h
      split at h
      · simp at h
      rename_i c hk
      split_ifs at h with hopen
      obtain ⟨p, hp, rfl⟩ := Option.map_eq_some_iff.mp h
      exact Or.inr (Or.inl ⟨k, level, c, p, rfl, hk, by simpa using hopen, hp, rfl⟩)
  | resolve j i delivered =>
      simp only [replicas_step] at h
      split at h
      · simp at h
      rename_i q hj
      obtain ⟨futures, hres, rfl⟩ := Option.map_eq_some_iff.mp h
      exact Or.inr (Or.inr ⟨j, i, delivered, q, futures, rfl, hj, hres, rfl⟩)

theorem tracked_step {m start : ℕ} {s s' : Replicas F} {a : WriteAct F} (ht : Tracked m start s)
    (h : replicas_step ties dist s a = some s') : Tracked m start s' := by
  obtain ⟨replicas, update, -, rfl⟩ | ⟨k, level, c, p, -, hk, hopen, -, rfl⟩ |
    ⟨j, i, delivered, q, futures, -, hj, hres, rfl⟩ := replicas_step_cases h
  · refine ⟨by simp [fire, Nat.le_add_right_of_le ht.start_le],
      by simp [Nat.le_add_right_of_le ht.length], fun q hq => ?_⟩
    dsimp only at hq ⊢
    rw [List.drop_append_of_le_length ht.length] at hq
    -- the writes issued before, whose calls only grew, and the new one
    rcases List.mem_append.mp hq with hq | hq
    · exact (ht.write q hq).imp (fun _ _ => Tracks.mono (grown_append _ _))
    · rw [List.mem_singleton.mp hq]
      exact tracks_fire s.calls replicas update ht.start_le
  · refine ⟨by rw [List.length_set]; exact ht.start_le, ht.length, fun q hq => ?_⟩
    exact (ht.write q hq).imp (fun _ _ => Tracks.mono (grown_answer hk hopen p.2))
  · refine ⟨ht.start_le, by rw [List.length_set]; exact ht.length, fun q' hq' => ?_⟩
    dsimp only at hq'
    rw [List.drop_set] at hq'
    split_ifs at hq' with hjm
    · exact ht.write q' hq'
    · rcases List.mem_or_eq_of_mem_set hq' with hq' | rfl
      · exact ht.write q' hq'
      · -- the write whose future came in
        exact tracks_resolve (ht.write q (Trace.mem_drop_of_le (not_lt.mp hjm) hj)) hres

section Rule

variable (Inv : Node → ShardServiceImpl F → Prop)
  (Good : Node → ShardServiceImpl F → Write F → Prop) (Allowed : Write F → Prop)

/-- Every process meets `Inv`, every request is allowed, and every call from the `start`-th on that
was answered ok is good. -/
structure Served (start : ℕ) (s : Replicas F) : Prop where
  procs : ∀ n, Inv n (s.procs n)
  calls : ∀ c ∈ s.calls, Allowed c.body
  good : ∀ (k : ℕ) (c : Call F), start ≤ k → s.calls[k]? = some c → c.acked →
    Good c.node (s.procs c.node) c.body

/-- The requests an act issues are allowed. -/
def WriteAct.Allows : WriteAct F → Prop
  | .issue _ update => ∀ epoch, Allowed (update.write epoch)
  | _ => True

variable {Inv Good Allowed}

/-- **The rule for answered calls**: what one execution establishes and every execution keeps. -/
theorem served_step
    (hperform : ∀ n sh level body sh' res, Inv n sh → Allowed body →
      perform ties dist sh level body = some (sh', res) →
      Inv n sh' ∧ (res.ok = true → Good n sh' body) ∧ ∀ b, Good n sh b → Good n sh' b)
    {start : ℕ} {s s' : Replicas F} {a : WriteAct F} (hs : Served Inv Good Allowed start s)
    (ha : a.Allows Allowed) (h : replicas_step ties dist s a = some s') :
    Served Inv Good Allowed start s' := by
  obtain ⟨replicas, update, rfl, rfl⟩ | ⟨k, level, c, p, -, hk, hopen, hp, rfl⟩ |
    ⟨j, i, delivered, q, futures, -, hj, hres, rfl⟩ := replicas_step_cases h
  · refine ⟨hs.procs, fun c hc => ?_, fun k c hk hc hack => ?_⟩
    · rcases List.mem_append.mp hc with hc | hc
      · exact hs.calls c hc
      · obtain ⟨sc, -, rfl⟩ := List.mem_map.mp hc
        exact ha sc.epoch
    · rcases Nat.lt_or_ge k s.calls.length with hlt | hge
      · have hold : s.calls[k]? = some c := (List.getElem?_append_left hlt).symm.trans hc
        exact hs.good k c hk hold hack
      · -- a new call is not answered
        have hnew : c ∈ replicas.map (fun sc =>
            (⟨sc.node, .client, update.write sc.epoch, none⟩ : Call F)) :=
          List.mem_of_getElem? ((List.getElem?_append_right hge).symm.trans hc)
        obtain ⟨sc, -, rfl⟩ := List.mem_map.mp hnew
        obtain ⟨res, hres, -⟩ := hack
        exact absurd hres (by simp)
  · -- one replica executed one call: the others are as they were
    obtain ⟨hinv, hgood, hkeep⟩ := hperform c.node _ level c.body p.1 p.2 (hs.procs c.node)
      (hs.calls c (List.mem_of_getElem? hk)) hp
    refine ⟨fun n => ?_, fun d hd => ?_, fun j d hj hd hack => ?_⟩
    · by_cases hn : n = c.node
      · subst hn
        dsimp only
        rw [Function.update_self]
        exact hinv
      · dsimp only
        rw [Function.update_of_ne hn]
        exact hs.procs n
    · rcases List.mem_or_eq_of_mem_set hd with hd | rfl
      · exact hs.calls d hd
      · exact hs.calls c (List.mem_of_getElem? hk)
    · dsimp only at hd ⊢
      by_cases hjk : k = j
      · subst hjk
        rw [List.getElem?_set_self (List.getElem?_eq_some_iff.mp hk).1] at hd
        obtain rfl := Option.some.inj hd
        obtain ⟨res, hres, hok⟩ := hack
        rw [Function.update_self]
        exact hgood (Option.some.inj hres ▸ hok)
      · rw [List.getElem?_set_ne hjk] at hd
        have hold := hs.good j d hj hd hack
        by_cases hn : d.node = c.node
        · rw [hn] at hold ⊢
          rw [Function.update_self]
          exact hkeep d.body hold
        · rw [Function.update_of_ne hn]
          exact hold
  · exact ⟨hs.procs, hs.calls, hs.good⟩

/-- The rule along a run. -/
theorem served_run
    (hperform : ∀ n sh level body sh' res, Inv n sh → Allowed body →
      perform ties dist sh level body = some (sh', res) →
      Inv n sh' ∧ (res.ok = true → Good n sh' body) ∧ ∀ b, Good n sh b → Good n sh' b)
    {start m : ℕ} {s s' : Replicas F} {acts : List (WriteAct F)}
    (hs : Served Inv Good Allowed start s) (ht : Tracked m start s)
    (hacts : ∀ a ∈ acts, a.Allows Allowed)
    (h : Trace.run (replicas_step ties dist) s acts = some s') :
    Served Inv Good Allowed start s' ∧ Tracked m start s' := by
  exact Trace.run_invariant_along
    (P := fun t => Served Inv Good Allowed start t ∧ Tracked m start t)
    (fun t a t' hP ha hstep => ⟨served_step hperform hP.1 ha hstep, tracked_step hP.2 hstep⟩)
    ⟨hs, ht⟩ (Trace.along_of_forall hacts s) h

end Rule

end Served

/-! ## Fencing -/

section Fencing

variable {F D : Type*} [Zero F] [BEq F] [LinearOrder D] {ties : Ties D} {dist : Vec F → Vec F → D}

/-- An executed request does not lower the mark; it is answered ok only if its epoch is not below
the mark, which then is not below the epoch. -/
theorem perform_epoch {sh sh' : ShardServiceImpl F} {level : Fin MAX_LAYERS} {body : Write F}
    {res : WriteResponse} (h : perform ties dist sh level body = some (sh', res)) :
    sh.current_epoch ≤ sh'.current_epoch ∧
      (res.ok = true → sh.current_epoch ≤ body.epoch ∧ body.epoch ≤ sh'.current_epoch) := by
  cases body with
  | insert req =>
      simp only [perform, ShardServiceImpl.insert] at h
      cases hchecks : sh.checks req with
      | error e =>
          rw [hchecks] at h
          obtain ⟨rfl, rfl⟩ := Prod.mk.inj (Option.some.inj h)
          exact ⟨le_refl _, fun hok => absurd hok (by simp)⟩
      | ok sh₁ =>
          obtain ⟨-, hle, rfl⟩ := checks_spec hchecks
          rw [hchecks] at h
          dsimp only at h
          -- past the checks every branch answers with the request's epoch stored
          have hepoch : sh'.current_epoch = req.epoch := by
            split_ifs at h
            · rw [← (Prod.mk.inj (Option.some.inj h)).1]
            · rw [← (Prod.mk.inj (Option.some.inj h)).1]
            · obtain ⟨index, -, hindex⟩ := Option.map_eq_some_iff.mp h
              rw [← (Prod.mk.inj hindex).1]
          rw [hepoch]
          exact ⟨hle, fun _ => ⟨hle, le_refl _⟩⟩
  | delete req =>
      simp only [perform, ShardServiceImpl.delete] at h
      cases hcheck : sh.check_and_advance_epoch req.epoch with
      | error e =>
          rw [hcheck] at h
          obtain ⟨rfl, rfl⟩ := Prod.mk.inj (Option.some.inj h)
          exact ⟨le_refl _, fun hok => absurd hok (by simp)⟩
      | ok sh₁ =>
          obtain ⟨hle, rfl⟩ := check_and_advance_epoch_spec hcheck
          rw [hcheck] at h
          dsimp only at h
          have hepoch : sh'.current_epoch = req.epoch := by
            split at h
            · rw [← (Prod.mk.inj (Option.some.inj h)).1]
            · rw [← (Prod.mk.inj (Option.some.inj h)).1]
          rw [hepoch]
          exact ⟨hle, fun _ => ⟨hle, le_refl _⟩⟩

/-- **Quorum fencing.** Once a write with epoch `e₂` has reported ok, a write issued later with an
epoch `e₁` below it does not, whatever the views, the order of the deliveries and the replies. -/
theorem quorum_fencing {R : List Node} (hR : R.Nodup) (procs : Node → ShardServiceImpl F)
    {acts acts' : List (WriteAct F)} {s s' : Replicas F}
    (hs : Trace.run (replicas_step ties dist) { procs := procs } acts = some s)
    (hs' : Trace.run (replicas_step ties dist) s acts' = some s')
    {q q' : QuorumCall F} (hq : q ∈ s.writes) (hq' : q' ∈ s'.writes.drop s.writes.length)
    (hview : (q.replicas.map ShardClient.node).Perm R)
    (hview' : (q'.replicas.map ShardClient.node).Perm R) {e₁ e₂ : ℕ}
    (he₂ : ∀ sc ∈ q.replicas, sc.epoch = e₂) (he₁ : ∀ sc ∈ q'.replicas, sc.epoch = e₁)
    (hlt : e₁ < e₂) (hok : q.ok = true) : q'.ok = false := by
  -- up to `s`: an answered epoch is at most the mark
  obtain ⟨hserved, htracked⟩ : Served (fun _ _ => True)
      (fun _ sh body => body.epoch ≤ sh.current_epoch) (fun _ => True) 0 s ∧ Tracked 0 0 s := by
    refine served_run (fun n sh level body sh' res _ _ h => ?_)
      ⟨fun _ => trivial, fun _ _ => trivial, fun _ _ _ hc => absurd hc (by simp)⟩
      ⟨le_refl _, le_refl _, fun _ h => absurd h (by simp)⟩
      (fun a _ => by cases a <;> simp [WriteAct.Allows]) hs
    obtain ⟨hraised, hanswered⟩ := perform_epoch h
    exact ⟨trivial, fun hok => (hanswered hok).2, fun b hb => le_trans hb hraised⟩
  -- from `s` on: a new call is answered ok only with an epoch of at least the mark in `s`
  obtain ⟨hserved', htracked'⟩ : Served (fun n sh => (s.procs n).current_epoch ≤ sh.current_epoch)
      (fun n _ body => (s.procs n).current_epoch ≤ body.epoch) (fun _ => True) s.calls.length s' ∧
      Tracked s.writes.length s.calls.length s' := by
    refine served_run (fun n sh level body sh' res hinv _ h => ?_)
      ⟨fun _ => le_refl _, fun _ _ => trivial, fun k c hk hc =>
        absurd (List.getElem?_eq_some_iff.mp hc).1 (not_lt.mpr hk)⟩
      ⟨le_refl _, le_refl _, fun _ h => absurd h (by simp)⟩
      (fun a _ => by cases a <;> simp [WriteAct.Allows]) hs'
    obtain ⟨hraised, hanswered⟩ := perform_epoch h
    exact ⟨le_trans hinv hraised, fun hok => le_trans hinv (hanswered hok).1, fun b hb => hb⟩
  by_contra hok'
  rw [Bool.not_eq_false] at hok'
  obtain ⟨A, hA, hackA⟩ := acked_majority hR hview (htracked.write q hq) hok
  obtain ⟨B, hB, hackB⟩ := acked_majority hR hview' (htracked'.write q' hq') hok'
  obtain ⟨n, hnA, hnB⟩ := majority_inter hA hB
  obtain ⟨sc, hsc, rfl, f, ⟨-, c, hc, hnode, hbody, hack⟩, hf⟩ := hackA n hnA
  obtain ⟨sc', hsc', hnode', f', ⟨hstart', c', hc', hcnode', hbody', hack'⟩, hf'⟩ := hackB _ hnB
  have hmark := hserved.good f.call c (Nat.zero_le _) hc (hack hf)
  have hlater := hserved'.good f'.call c' hstart' hc' (hack' hf')
  rw [hbody, write_epoch, he₂ sc hsc, hnode] at hmark
  rw [hbody', write_epoch, he₁ sc' hsc', hcnode', hnode'] at hlater
  omega

end Fencing

/-- The three replicas of shard `0`, as a coordinator with this epoch sees them. -/
def three_replicas (epoch : ℕ) : List ShardClient :=
  [⟨0, 0, "a", 9090, true, true, epoch⟩, ⟨0, 1, "b", 9090, true, false, epoch⟩,
    ⟨0, 2, "c", 9090, true, false, epoch⟩]

/-- One key, with a vector and metadata. -/
def one_insert : Update ℤ :=
  .insert (one_byte 1) (List.replicate VECTOR_DIM 1) (one_byte 97)

/-- Its write through a coordinator with this epoch, executed by the first two replicas as call `k`
and `k + 1`. -/
def write_one (epoch k j : ℕ) : List (WriteAct ℤ) :=
  [.issue (three_replicas epoch) one_insert,
    .execute k 0, .execute (k + 1) 0, .resolve j 0 true, .resolve j 1 true, .resolve j 2 false]

/-- The write with epoch `2` reports ok, the one with epoch `1` does not. -/
theorem quorum_fencing_three_replicas : ∃ s s' q q',
    Trace.run (replicas_step Ties.first (fun _ _ => (0 : ℤ)))
      { procs := fun _ => ShardServiceImpl.fresh 4096 } (write_one 2 0 0) = some s ∧
    Trace.run (replicas_step Ties.first (fun _ _ => (0 : ℤ))) s (write_one 1 3 1) = some s' ∧
    q ∈ s.writes ∧ q' ∈ s'.writes.drop s.writes.length ∧ q.ok = true ∧ q'.ok = false := by
  have hend : (Trace.run (replicas_step Ties.first (fun _ _ => (0 : ℤ)))
      { procs := fun _ => ShardServiceImpl.fresh 4096 } (write_one 2 0 0)).map
      (fun s => (s.writes.map (fun q => (q.replicas, q.ok)),
        (Trace.run (replicas_step Ties.first (fun _ _ => (0 : ℤ))) s (write_one 1 3 1)).map
          (fun s => s.writes.map QuorumCall.replicas)))
      = some ([(three_replicas 2, true)], some [three_replicas 2, three_replicas 1]) := by
    decide +kernel
  obtain ⟨s, hs, hpair⟩ := Option.map_eq_some_iff.mp hend
  obtain ⟨hwrites, hrest⟩ := Prod.mk.inj hpair
  obtain ⟨s', hs', hwrites'⟩ := Option.map_eq_some_iff.mp hrest
  obtain ⟨q, hq, hqv⟩ : ∃ q ∈ s.writes, (q.replicas, q.ok) = (three_replicas 2, true) :=
    List.mem_map.mp (hwrites ▸ List.mem_singleton_self _)
  obtain ⟨hreplicas, hok⟩ := Prod.mk.inj hqv
  have hlen : s.writes.length = 1 := by
    have := congrArg List.length hwrites
    simpa using this
  obtain ⟨q', hq', hreplicas'⟩ : ∃ q' ∈ s'.writes.drop 1, q'.replicas = three_replicas 1 := by
    have hdrop := congrArg (List.drop 1) hwrites'
    rw [← List.map_drop] at hdrop
    exact List.mem_map.mp (hdrop ▸ List.mem_singleton_self _)
  rw [← hlen] at hq'
  have hepoch : ∀ sc ∈ q.replicas, sc.epoch = 2 := by
    rw [hreplicas]
    decide
  have hepoch' : ∀ sc ∈ q'.replicas, sc.epoch = 1 := by
    rw [hreplicas']
    decide
  refine ⟨s, s', q, q', hs, hs', hq, hq', hok, quorum_fencing (R := [(0, 0), (0, 1), (0, 2)])
    (by decide) _ hs hs' hq hq' ?_ ?_ hepoch hepoch' (by decide) hok⟩
  · rw [hreplicas]
    exact List.Perm.refl _
  · rw [hreplicas']
    exact List.Perm.refl _

end NanoDB.Coord
