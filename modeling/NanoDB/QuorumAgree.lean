/-
Acknowledged inserts agree.

A replica keeps the first value it stored for a key, and answers ok to a later insert of that key
only if the value is the same. Two quorum inserts that both reported ok have a replica in common,
so their values are both the one stored there.

# The one awkward thing, named up front

The same value means `==` on the floats of the vector, element by element, and equality of the
metadata. `==` is symmetric and transitive on floats but not reflexive, so nothing here may compare
a value with itself: `SameVector` is "identical, or equal as the code compares".

Replicas can end up with different values; the argument is about answers, not about convergence.
Requests about other keys, deletes and revivals among them, go on all the time and only have to
leave this key alone.
-/
import NanoDB.QuorumFence
import NanoDB.ShardMap

set_option autoImplicit false

namespace NanoDB.Coord

open Raft (Bytes)
open Shard
open Index
open Beam (Ties)
open Quorum

variable {F D : Type*} [Zero F] [BEq F]

/-- Identical, or equal as `Insert` compares. -/
def SameVector (v w : List F) : Prop := v = w ∨ (v == w) = true

/-! ## One request, for one key -/

/-- The stores are in order, and the key is live if it was ever seen: it was not deleted. -/
structure Firm (x : Text) (sh : ShardServiceImpl F) : Prop where
  refines : Refines sh sh.view
  live : sh.id_map.lookup x ≠ none → sh.view x ≠ none

/-- The replica has a value for `x` that the insert agrees with. -/
def Stores (x : Text) (sh : ShardServiceImpl F) : Write F → Prop
  | .insert req => req.external_id = x →
      ∃ v, sh.view x = some (v, req.metadata.1) ∧ SameVector v req.vector
  | .delete _ => True

/-- Everything but a delete of `x`. -/
def NotDelete (x : Text) : Write F → Prop
  | .insert _ => True
  | .delete req => req.external_id ≠ x

omit [BEq F] in
theorem firm_fresh (x : Text) (storage_size : ℕ) :
    Firm x (ShardServiceImpl.fresh storage_size : ShardServiceImpl F) :=
  ⟨refines_fresh storage_size, fun h => absurd rfl h⟩

omit [BEq F] in
/-- A shard stands for its own view. -/
theorem Refines.own {sh : ShardServiceImpl F} {m : Table F} (h : Refines sh m) :
    Refines sh sh.view :=
  ⟨h.sound, h.ids, h.written, h.metadata, h.unused, fun _ => rfl⟩

omit [BEq F] in
/-- A request that leaves `x` alone. -/
theorem Firm.frame {x : Text} {sh sh' : ShardServiceImpl F} {m : Table F} (h : Firm x sh)
    (h' : Refines sh' m) (hview : m x = sh.view x)
    (hlookup : sh'.id_map.lookup x = sh.id_map.lookup x) :
    Firm x sh' ∧ sh'.view x = sh.view x := by
  have heq : sh'.view x = sh.view x := (h'.view x).symm.trans hview
  refine ⟨⟨Refines.own h', ?_⟩, heq⟩
  rw [hlookup, heq]
  exact h.live

omit [BEq F] in
/-- A delete of another key. -/
theorem delete_firm {x : Text} {sh : ShardServiceImpl F} (h : Firm x sh) {req : DeleteRequest}
    (hne : req.external_id ≠ x) :
    Firm x (sh.delete req).1 ∧ (sh.delete req).1.view x = sh.view x := by
  have hx : x.1 ≠ req.external_id.1 := fun heq => hne (Subtype.ext heq.symm)
  cases hcheck : sh.check_and_advance_epoch req.epoch with
  | error e =>
      have heq : (sh.delete req).1 = sh := by
        unfold ShardServiceImpl.delete
        rw [hcheck]
      rw [heq]
      exact ⟨h, rfl⟩
  | ok sh₁ =>
      obtain ⟨hle, -⟩ := check_and_advance_epoch_spec hcheck
      refine h.frame (delete_refines h.refines req hle).1 (Function.update_of_ne hx _ _) ?_
      unfold ShardServiceImpl.delete
      rw [check_and_advance_epoch_ok hle]
      dsimp only
      split <;> rfl

variable [LinearOrder D] {ties : Ties D} {dist : Vec F → Vec F → D}

/-- **An insert keeps the value of a key that is never deleted**, and is answered ok for that key
only if it agrees with the value that is there afterwards. -/
theorem insert_firm {x : Text} {sh sh' : ShardServiceImpl F} (h : Firm x sh)
    {req : InsertRequest F} {level : Fin MAX_LAYERS} {res : WriteResponse}
    (hins : sh.insert ties dist req level = some (sh', res)) :
    Firm x sh' ∧ (∀ p, sh.view x = some p → sh'.view x = some p) ∧
      (res.ok = true → Stores x sh' (.insert req)) := by
  obtain ⟨e, -, heq⟩ | ⟨v, md, hview, heq⟩ | ⟨hview, sh₁, md, heq, h₁, hother, hmd⟩ :=
    insert_cases ties dist h.refines req level
  · obtain ⟨rfl, rfl⟩ := Prod.mk.inj (Option.some.inj (heq.symm.trans hins))
    exact ⟨h, fun _ hp => hp, fun hok => absurd hok (by simp)⟩
  · obtain ⟨rfl, rfl⟩ := Prod.mk.inj (Option.some.inj (heq.symm.trans hins))
    refine ⟨⟨h.refines.epoch req.epoch, h.live⟩, fun _ hp => hp, fun hok hx => ?_⟩
    -- ok means that the comparison succeeded
    split_ifs at hok with hsame
    rw [hx] at hview
    exact ⟨v, hsame.2 ▸ hview, Or.inr hsame.1⟩
  · obtain ⟨rfl, rfl⟩ := Prod.mk.inj (Option.some.inj (heq.symm.trans hins))
    by_cases hx : req.external_id = x
    · subst hx
      -- not live, so never seen
      have hnew : sh.id_map.lookup req.external_id = none := by
        by_contra hseen
        exact h.live hseen hview
      obtain rfl := hmd (fun _ i hi => by rw [hnew] at hi; simp at hi)
      have hval : sh₁.view req.external_id = some (req.vector, req.metadata.1) := by
        rw [← h₁.view, Function.update_self]
      refine ⟨⟨Refines.own h₁, fun _ => by rw [hval]; simp⟩, fun p hp => ?_, fun _ _ => ?_⟩
      · rw [hview] at hp
        simp at hp
      · exact ⟨req.vector, hval, Or.inl rfl⟩
    · have hne : x.1 ≠ req.external_id.1 := fun heq => hx (Subtype.ext heq.symm)
      obtain ⟨hfirm, hsame⟩ := h.frame h₁ (Function.update_of_ne hne _ _) (hother x hne)
      exact ⟨hfirm, fun p hp => hsame.trans hp, fun _ heq => absurd heq hx⟩

omit [LinearOrder D] in
/-- What a replica stores, it stores as long as the value of the key is kept. -/
theorem Stores.keep {x : Text} {sh sh' : ShardServiceImpl F}
    (hkeep : ∀ p, sh.view x = some p → sh'.view x = some p) {b : Write F} (h : Stores x sh b) :
    Stores x sh' b := by
  cases b with
  | insert req =>
      intro hx
      obtain ⟨v, hv, hagree⟩ := h hx
      exact ⟨v, hkeep _ hv, hagree⟩
  | delete req => trivial

/-- The two kinds of request together. -/
theorem perform_firm {x : Text} {sh sh' : ShardServiceImpl F} (h : Firm x sh)
    {level : Fin MAX_LAYERS} {body : Write F} (hbody : NotDelete x body) {res : WriteResponse}
    (hp : perform ties dist sh level body = some (sh', res)) :
    Firm x sh' ∧ (∀ p, sh.view x = some p → sh'.view x = some p) ∧
      (res.ok = true → Stores x sh' body) := by
  cases body with
  | insert req => exact insert_firm h hp
  | delete req =>
      obtain ⟨hfirm, hview⟩ := delete_firm h hbody
      obtain ⟨rfl, -⟩ := Prod.mk.inj (Option.some.inj hp)
      exact ⟨hfirm, fun p hp => hview.trans hp, fun _ => trivial⟩

omit [BEq F] in
/-- What `GetVector` reads. -/
theorem get_vector_of_view {sh : ShardServiceImpl F} (h : Refines sh sh.view) {x : Text}
    {v : List F} {md : Bytes} (hview : sh.view x = some (v, md)) :
    sh.get_vector x = ⟨true, v, md, ""⟩ := by
  have hget := get_vector_refines h x
  rw [hview] at hget
  exact hget

/-! ## Agreement -/

omit [Zero F] in
theorem list_beq_symm [PartialEquivBEq F] {v w : List F} (h : (v == w) = true) :
    (w == v) = true := by
  induction v generalizing w with
  | nil =>
      cases w with
      | nil => rfl
      | cons b w => simp at h
  | cons a v ih =>
      cases w with
      | nil => simp at h
      | cons b w =>
          rw [List.cons_beq_cons, Bool.and_eq_true] at h ⊢
          exact ⟨BEq.symm h.1, ih h.2⟩

omit [Zero F] in
theorem list_beq_trans [PartialEquivBEq F] {u v w : List F} (huv : (u == v) = true)
    (hvw : (v == w) = true) : (u == w) = true := by
  induction u generalizing v w with
  | nil =>
      cases v with
      | nil => exact hvw
      | cons b v => simp at huv
  | cons a u ih =>
      cases v with
      | nil => simp at huv
      | cons b v =>
          cases w with
          | nil => simp at hvw
          | cons c w =>
              rw [List.cons_beq_cons, Bool.and_eq_true] at huv hvw ⊢
              exact ⟨BEq.trans huv.1 hvw.1, ih huv.2 hvw.2⟩

omit [Zero F] in
/-- Values that agree with one and the same value agree. -/
theorem SameVector.of_common [PartialEquivBEq F] {u v w : List F} (hv : SameVector u v)
    (hw : SameVector u w) : SameVector v w := by
  rcases hv with rfl | hv
  · exact hw
  rcases hw with rfl | hw
  · exact Or.inr (list_beq_symm hv)
  · exact Or.inr (list_beq_trans (list_beq_symm hv) hw)

/-- **Acknowledged inserts agree.** For a key that is never deleted: two inserts that reported ok
have the same metadata and vectors that agree, and a replica that answered ok to an insert still
has the value it had then, which agrees with the insert, in every later state. -/
theorem acknowledged_inserts_agree [PartialEquivBEq F] {R : List Node} (hR : R.Nodup)
    (storage_size : Node → ℕ) (x : Text) {acts acts' : List (WriteAct F)} {s s' : Replicas F}
    (hacts : ∀ a ∈ acts ++ acts', a.Allows (NotDelete x))
    (hs : Trace.run (replicas_step ties dist)
      { procs := fun n => ShardServiceImpl.fresh (storage_size n) } acts = some s)
    (hs' : Trace.run (replicas_step ties dist) s acts' = some s') :
    (∀ q ∈ s.writes, ∀ q' ∈ s.writes, (q.replicas.map ShardClient.node).Perm R →
      (q'.replicas.map ShardClient.node).Perm R → ∀ v v' md md', q.update = .insert x v md →
      q'.update = .insert x v' md' → q.ok = true → q'.ok = true → SameVector v v' ∧ md = md') ∧
    ∀ c ∈ s.calls, ∀ req, c.body = .insert req → req.external_id = x → c.acked →
      ∃ v, (s.procs c.node).get_vector x = ⟨true, v, req.metadata.1, ""⟩ ∧
        (s'.procs c.node).get_vector x = ⟨true, v, req.metadata.1, ""⟩ ∧
        SameVector v req.vector := by
  -- run the first part: each replica keeps what it acknowledged for `x`
  obtain ⟨hserved, htracked⟩ :
      Served (fun _ => Firm x) (fun _ => Stores x) (NotDelete x) 0 s ∧ Tracked 0 0 s := by
    refine served_run (fun n sh level body sh' res hfirm hbody hp => ?_)
      ⟨fun _ => firm_fresh x _, fun _ hc => absurd hc (by simp),
        fun _ _ _ hc => absurd hc (by simp)⟩
      ⟨le_refl _, le_refl _, fun _ h => absurd h (by simp)⟩
      (fun a ha => hacts a (List.mem_append_left _ ha)) hs
    obtain ⟨hfirm', hkeep, hok⟩ := perform_firm hfirm hbody hp
    exact ⟨hfirm', hok, fun b hb => hb.keep hkeep⟩
  refine ⟨fun q hq q' hq' hview hview' v v' md md' hu hu' hok hok' => ?_,
    fun c hc req hbody hx hack => ?_⟩
  · -- the replica that acknowledged both
    obtain ⟨A, hA, hackA⟩ := acked_majority hR hview (htracked.write q hq) hok
    obtain ⟨B, hB, hackB⟩ := acked_majority hR hview' (htracked.write q' hq') hok'
    obtain ⟨n, hnA, hnB⟩ := majority_inter hA hB
    obtain ⟨sc, -, rfl, f, ⟨-, c, hc, hnode, hbody, hack⟩, hf⟩ := hackA n hnA
    obtain ⟨sc', -, hnode', f', ⟨-, c', hc', hcnode', hbody', hack'⟩, hf'⟩ := hackB _ hnB
    have hgood := hserved.good f.call c (Nat.zero_le _) hc (hack hf)
    have hgood' := hserved.good f'.call c' (Nat.zero_le _) hc' (hack' hf')
    rw [hbody, hu, hnode] at hgood
    rw [hbody', hu', hcnode', hnode'] at hgood'
    obtain ⟨u, hview, hagree⟩ := hgood rfl
    obtain ⟨u', hview', hagree'⟩ := hgood' rfl
    obtain ⟨rfl, hmd⟩ := Prod.mk.inj (Option.some.inj (hview.symm.trans hview'))
    exact ⟨hagree.of_common hagree', Subtype.ext hmd⟩
  · -- the second part keeps the view each replica had in between
    obtain ⟨hkept, -⟩ : Served
        (fun n sh => Firm x sh ∧ ∀ p, (s.procs n).view x = some p → sh.view x = some p)
        (fun _ _ _ => True) (NotDelete x) 0 s' ∧ Tracked 0 0 s' := by
      refine served_run (fun n sh level body sh' res hinv hbody hp => ?_)
        ⟨fun n => ⟨hserved.procs n, fun _ hp => hp⟩, hserved.calls, fun _ _ _ _ _ => trivial⟩
        htracked (fun a ha => hacts a (List.mem_append_right _ ha)) hs'
      obtain ⟨hfirm, hkeep, -⟩ := perform_firm hinv.1 hbody hp
      exact ⟨⟨hfirm, fun p hp => hkeep p (hinv.2 p hp)⟩, fun _ => trivial, fun _ _ => trivial⟩
    obtain ⟨k, hk⟩ := List.mem_iff_getElem?.mp hc
    have hgood := hserved.good k c (Nat.zero_le _) hk hack
    rw [hbody] at hgood
    obtain ⟨v, hview, hagree⟩ := hgood hx
    have hview' := (hkept.procs c.node).2 _ hview
    exact ⟨v, get_vector_of_view (hserved.procs c.node).refines hview,
      get_vector_of_view (hkept.procs c.node).1.refines hview', hagree⟩

/-- The same insert through two coordinators, both acknowledged. -/
theorem acknowledged_inserts_agree_twice : ∃ s q q',
    Trace.run (replicas_step Ties.first (fun _ _ => (0 : ℤ)))
      { procs := fun _ => ShardServiceImpl.fresh 4096 } (write_one 0 0 0 ++ write_one 0 3 1)
      = some s ∧ q ∈ s.writes ∧ q' ∈ s.writes.drop 1 ∧ q.ok = true ∧ q'.ok = true ∧
    q.update = one_insert ∧ q'.update = one_insert ∧
      SameVector (List.replicate VECTOR_DIM (1 : ℤ)) (List.replicate VECTOR_DIM 1) := by
  -- the run, evaluated down to the writes it issued
  have hend : (Trace.run (replicas_step Ties.first (fun _ _ => (0 : ℤ)))
      { procs := fun _ => ShardServiceImpl.fresh 4096 } (write_one 0 0 0 ++ write_one 0 3 1)).map
      (fun s => s.writes.map (fun q => (q.replicas, q.update, q.ok)))
      = some [(three_replicas 0, one_insert, true), (three_replicas 0, one_insert, true)] := by
    decide +kernel
  obtain ⟨s, hs, hwrites⟩ := Option.map_eq_some_iff.mp hend
  obtain ⟨q, hq, hqv⟩ : ∃ q ∈ s.writes,
      (q.replicas, q.update, q.ok) = (three_replicas 0, one_insert, true) :=
    List.mem_map.mp (hwrites ▸ List.mem_cons_self)
  obtain ⟨q', hq', hqv'⟩ : ∃ q' ∈ s.writes.drop 1,
      (q'.replicas, q'.update, q'.ok) = (three_replicas 0, one_insert, true) := by
    have hdrop := congrArg (List.drop 1) hwrites
    rw [← List.map_drop] at hdrop
    exact List.mem_map.mp (hdrop ▸ List.mem_singleton_self _)
  simp only [Prod.mk.injEq] at hqv hqv'
  obtain ⟨hreplicas, hu, hok⟩ := hqv
  obtain ⟨hreplicas', hu', hok'⟩ := hqv'
  have hallows : ∀ a ∈ (write_one 0 0 0 ++ write_one 0 3 1) ++ [],
      a.Allows (NotDelete ⟨[1], by decide⟩) := by
    simp [write_one, one_insert, WriteAct.Allows, NotDelete, Update.write]
  have hstay : Trace.run (replicas_step Ties.first (fun _ _ => (0 : ℤ))) s [] = some s := rfl
  refine ⟨s, q, q', hs, hq, hq', hok, hok', hu, hu', ?_⟩
  exact ((acknowledged_inserts_agree (R := [(0, 0), (0, 1), (0, 2)]) (by decide) (fun _ => 4096) _
    hallows hs hstay).1 q hq q' (List.mem_of_mem_drop hq')
    (by rw [hreplicas]; exact List.Perm.refl _) (by rw [hreplicas']; exact List.Perm.refl _)
    _ _ _ _ hu hu' hok hok').1

end NanoDB.Coord
