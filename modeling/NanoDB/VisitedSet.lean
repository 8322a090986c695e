/-
`HNSW::VisitedSet` of `include/index/hnsw.hpp`: which nodes a traversal has seen.

One array of stamps is kept for all traversals of a thread. A node counts as seen when its stamp
is the current epoch, so that forgetting everything is one increment. The epoch is a `uint32_t`
and wraps, and the array is replaced when an index has more slots than it has stamps.

The abstract set is a bitmap that is cleared at the start of every traversal, and
`visited_set_is_fresh` says that all answers are those of the bitmap. At the end of the file the
stamps are put where the source has them, into `search_layer`: with what was left of earlier
traversals it returns what `HNSW.search_layer` does, whose visited nodes are a list.

# The one awkward thing, named up front

The array is not replaced when the capacity shrinks, so it has stamps behind the capacity, and ids
there are marked like others. What the stamps mean is therefore said for ids below the capacity,
while the bound on all of them (`Old`) covers the whole array: the next traversal may be over a
larger index and read them.
-/
import NanoDB.HnswTable
import NanoDB.Lib.Service

set_option autoImplicit false

namespace NanoDB.Index

open Beam (Cand Ties)

/-! ## The stamps -/

structure VisitedSet where
  stamp : List UInt32 := []
  epoch : UInt32 := 0
deriving DecidableEq, Repr

namespace VisitedSet

/-- The first lines of `begin`: an array that is too short is replaced. -/
def assign (v : VisitedSet) (capacity : ℕ) : VisitedSet :=
  if v.stamp.length < capacity then { stamp := List.replicate capacity 0, epoch := 0 } else v

/-- The last lines of `begin`: `++epoch`, and the stamps are cleared when it wraps. -/
def advance (v : VisitedSet) : VisitedSet :=
  if v.epoch + 1 = 0 then { stamp := List.replicate v.stamp.length 0, epoch := 1 }
  else { v with epoch := v.epoch + 1 }

def begin (v : VisitedSet) (capacity : ℕ) : VisitedSet := (v.assign capacity).advance

/-- The set after the call, and what the call returns. -/
def test_and_set (v : VisitedSet) (id : ℕ) : VisitedSet × Bool :=
  match v.stamp[id]? with
  | none => (v, true)
  | some t =>
      if t = v.epoch then (v, true) else ({ v with stamp := v.stamp.set id v.epoch }, false)

/-! ## What they mean -/

/-- No stamp is ahead of the epoch. -/
def Old (v : VisitedSet) : Prop := ∀ t ∈ v.stamp, t ≤ v.epoch

/-- Below the capacity, the stamps say what was seen. -/
structure Marks (v : VisitedSet) (capacity : ℕ) (seen : ℕ → Prop) : Prop where
  old : v.Old
  covers : capacity ≤ v.stamp.length
  seen_iff : ∀ i, i < capacity → (v.stamp[i]? = some v.epoch ↔ seen i)

variable {v : VisitedSet} {capacity : ℕ} {seen : ℕ → Prop}

theorem Marks.congr {seen' : ℕ → Prop} (h : v.Marks capacity seen)
    (heq : ∀ i, i < capacity → (seen i ↔ seen' i)) : v.Marks capacity seen' :=
  ⟨h.old, h.covers, fun i hi => (h.seen_iff i hi).trans (heq i hi)⟩

theorem assign_spec (h : v.Old) (capacity : ℕ) :
    (v.assign capacity).Old ∧ capacity ≤ (v.assign capacity).stamp.length := by
  rw [assign]
  by_cases hshort : v.stamp.length < capacity
  · rw [if_pos hshort]
    refine ⟨fun t ht => ?_, ?_⟩
    · obtain rfl := List.eq_of_mem_replicate ht
      exact UInt32.le_refl 0
    · rw [List.length_replicate]
  · rw [if_neg hshort]
    exact ⟨h, not_lt.mp hshort⟩

/-- After the increment every stamp is behind the epoch. -/
theorem advance_spec (h : v.Old) :
    (∀ t ∈ v.advance.stamp, t < v.advance.epoch) ∧ v.advance.stamp.length = v.stamp.length := by
  rw [advance]
  by_cases hwrap : v.epoch + 1 = 0
  · rw [if_pos hwrap]
    refine ⟨fun t ht => ?_, List.length_replicate⟩
    obtain rfl := List.eq_of_mem_replicate ht
    show (0 : UInt32) < 1
    decide
  · rw [if_neg hwrap]
    refine ⟨fun t ht => ?_, rfl⟩
    have hle : t.toNat ≤ v.epoch.toNat := UInt32.le_iff_toNat_le.mp (h t ht)
    have hnext : (v.epoch + 1).toNat = (v.epoch.toNat + 1) % 2 ^ 32 := UInt32.toNat_add _ _
    have hbound := v.epoch.toNat_lt
    have hne : (v.epoch + 1).toNat ≠ 0 := fun h0 => hwrap (UInt32.toNat_inj.mp h0)
    apply UInt32.lt_iff_toNat_lt.mpr
    show t.toNat < (v.epoch + 1).toNat
    omega

/-- **`begin`** forgets everything. -/
theorem marks_begin (h : v.Old) (capacity : ℕ) :
    (v.begin capacity).Marks capacity (fun _ => False) := by
  obtain ⟨hold, hcovers⟩ := assign_spec h capacity
  obtain ⟨hbehind, hlen⟩ := advance_spec hold
  refine ⟨fun t ht => UInt32.le_of_lt (hbehind t ht), hlen.symm ▸ hcovers, fun i _ => ?_⟩
  refine ⟨fun hi => ?_, False.elim⟩
  exact UInt32.lt_irrefl _ (hbehind _ (List.mem_of_getElem? hi))

/-- One form for the three branches: writing the epoch changes nothing in the first two. -/
theorem test_and_set_eq (v : VisitedSet) (id : ℕ) :
    v.test_and_set id = ({ v with stamp := v.stamp.set id v.epoch },
      decide (v.stamp[id]? = none ∨ v.stamp[id]? = some v.epoch)) := by
  rw [test_and_set]
  cases hid : v.stamp[id]? with
  | none =>
      rw [List.set_eq_of_length_le (List.getElem?_eq_none_iff.mp hid)]
      simp
  | some t =>
      dsimp only
      by_cases ht : t = v.epoch
      · have hset : v.stamp.set id v.epoch = v.stamp := by
          obtain ⟨hlt, hget⟩ := List.getElem?_eq_some_iff.mp hid
          rw [← ht, ← hget, List.set_getElem_self]
        rw [if_pos ht, hset, ht]
        simp
      · rw [if_neg ht]
        simp [ht]

/-- **`test_and_set`** marks its id. -/
theorem marks_test_and_set (h : v.Marks capacity seen) (id : ℕ) :
    (v.test_and_set id).1.Marks capacity (fun i => seen i ∨ i = id) := by
  rw [test_and_set_eq]
  refine ⟨fun t ht => ?_, ?_, fun i hi => ?_⟩
  · rcases List.mem_or_eq_of_mem_set ht with hold | rfl
    · exact h.old t hold
    · exact UInt32.le_refl _
  · rw [List.length_set]
    exact h.covers
  · have hlt : i < v.stamp.length := lt_of_lt_of_le hi h.covers
    by_cases hid : i = id
    · subst hid
      simp [List.getElem?_set_self hlt]
    · rw [List.getElem?_set_ne (fun he => hid he.symm), h.seen_iff i hi]
      simp [hid]

/-- Below the capacity it returns whether the id was seen. -/
theorem test_and_set_answer (h : v.Marks capacity seen) {id : ℕ} (hid : id < capacity) :
    (v.test_and_set id).2 = true ↔ seen id := by
  have hlt : id < v.stamp.length := lt_of_lt_of_le hid h.covers
  rw [test_and_set_eq, decide_eq_true_iff, ← h.seen_iff id hid]
  refine ⟨fun hor => hor.resolve_left ?_, Or.inr⟩
  rw [List.getElem?_eq_none_iff]
  omega

/-! ## A bitmap that is cleared -/

inductive Call where
  | begin (capacity : ℕ)
  | test_and_set (id : ℕ)
deriving DecidableEq, Repr

/-- One call on the stamps; `begin` returns nothing. -/
def serve (v : VisitedSet) : Call → Option (VisitedSet × Option Bool)
  | .begin capacity => some (v.begin capacity, none)
  | .test_and_set id => some ((v.test_and_set id).1, some (v.test_and_set id).2)

/-- The same call on a bitmap. An id behind its end is not marked, and may be answered anyhow. -/
def bitmap (bits : List Bool) : Call → Option Bool → List Bool → Prop
  | .begin capacity, answer, bits' => answer = none ∧ bits' = List.replicate capacity false
  | .test_and_set id, answer, bits' =>
      (∀ b, bits[id]? = some b → answer = some b) ∧ bits' = bits.set id true

/-- The stamps stand for a bitmap. -/
def Stands (v : VisitedSet) (bits : List Bool) : Prop :=
  v.Marks bits.length (fun i => bits[i]? = some true)

/-- **One call** keeps that, and is answered as by the bitmap. -/
theorem serve_bitmap {bits : List Bool} (h : v.Stands bits) (call : Call) :
    ∃ v' answer bits', v.serve call = some (v', answer) ∧ bitmap bits call answer bits' ∧
      v'.Stands bits' := by
  cases call with
  | begin capacity =>
      refine ⟨_, none, List.replicate capacity false, rfl, ⟨rfl, rfl⟩, ?_⟩
      rw [Stands, List.length_replicate]
      refine (marks_begin h.old capacity).congr (fun i hi => ?_)
      simp [hi]
  | test_and_set id =>
      refine ⟨_, _, bits.set id true, rfl, ⟨fun b hb => ?_, rfl⟩, ?_⟩
      · obtain ⟨hlt, -⟩ := List.getElem?_eq_some_iff.mp hb
        have hanswer := test_and_set_answer h hlt
        rw [hb, Option.some.injEq] at hanswer
        rw [Bool.eq_iff_iff.mpr hanswer]
      · rw [Stands, List.length_set]
        refine (marks_test_and_set h id).congr (fun i hi => ?_)
        by_cases hid : i = id
        · subst hid
          simp [List.getElem?_set_self hi]
        · rw [List.getElem?_set_ne (fun he => hid he.symm)]
          simp [hid]

/-- A bitmap tells whether an id was passed before. -/
theorem bitmap_answer {id : ℕ} {post : List Call} (ids : List ℕ) :
    ∀ {bits : List Bool} {b : Bool} {answers : List (Option Bool)},
      Service.Answers bitmap bits (ids.map .test_and_set ++ .test_and_set id :: post) answers →
      bits[id]? = some b → answers[ids.length]? = some (some (b || decide (id ∈ ids))) := by
  induction ids with
  | nil =>
      intro bits b answers h hb
      cases answers with
      | nil => exact absurd h not_false
      | cons a answers =>
          obtain ⟨-, ⟨ha, -⟩, -⟩ := h
          rw [ha b hb]
          simp
  | cons i ids ih =>
      intro bits b answers h hb
      cases answers with
      | nil => exact absurd h not_false
      | cons a answers =>
          obtain ⟨-, ⟨-, rfl⟩, hrest⟩ := h
          obtain ⟨hlt, -⟩ := List.getElem?_eq_some_iff.mp hb
          rw [List.length_cons, List.getElem?_cons_succ]
          by_cases hid : id = i
          · subst hid
            rw [ih hrest (List.getElem?_set_self hlt)]
            simp
          · rw [ih hrest ((List.getElem?_set_ne (fun he => hid he.symm)).trans hb)]
            simp [hid]

/-- **The visited set is a fresh set in every traversal.** Any calls of `begin` and `test_and_set`,
in any order, are answered as by a bitmap that `begin` clears. So for an id below the capacity,
`test_and_set` returns whether the id was passed since the last `begin`. -/
theorem visited_set_is_fresh (calls : List Call) :
    ∃ v answers, Service.serve_all serve {} calls = some (v, answers) ∧
      Service.Answers bitmap [] calls answers ∧
      ∀ (pre : List Call) (capacity : ℕ) (ids : List ℕ) (id : ℕ) (post : List Call),
        calls = pre ++ .begin capacity :: (ids.map .test_and_set ++ .test_and_set id :: post) →
        id < capacity →
        answers[pre.length + (ids.length + 1)]? = some (some (decide (id ∈ ids))) := by
  have hempty : ({} : VisitedSet).Stands [] := by
    refine ⟨fun t ht => absurd ht List.not_mem_nil, Nat.zero_le _, fun i hi => ?_⟩
    exact absurd hi (Nat.not_lt_zero i)
  obtain ⟨v, answers, hserve, hanswers⟩ := Service.simulates (R := Stands)
    (fun v bits call h _ => serve_bitmap h call) calls {} []
    hempty (Trace.along_of_forall (Q := fun _ => True) (fun _ _ => trivial) _)
  refine ⟨v, answers, hserve, hanswers, ?_⟩
  rintro pre capacity ids id post rfl hid
  obtain ⟨bits, before, after, rfl, hlen, hafter⟩ := Service.answers_append hanswers
  cases after with
  | nil => exact absurd hafter not_false
  | cons a after =>
      obtain ⟨-, ⟨-, rfl⟩, htests⟩ := hafter
      have hclear : (List.replicate capacity false)[id]? = some false := by
        simp [hid]
      rw [← hlen, List.getElem?_append_right (by omega), Nat.add_sub_cancel_left,
        List.getElem?_cons_succ, bitmap_answer ids htests hclear]
      simp

end VisitedSet

/-! ## The search on one layer -/

section Traversal

variable {D : Type*} [LinearOrder D] (ties : Ties D) (g : Beam.Query D) (ef : ℕ)

/-- The local variables of `search_layer`. -/
structure Traversal (D : Type*) where
  candidates : List (Cand D)
  found_results : List (Cand D)
  visited : VisitedSet

/-- Look at one neighbour. -/
def Traversal.visit (t : Traversal D) (neighbor_id : ℕ) : Traversal D :=
  let tested := t.visited.test_and_set neighbor_id
  if tested.2 then { t with visited := tested.1 }
  else
    let c : Cand D := ⟨g.dist neighbor_id, neighbor_id⟩
    if t.found_results.length < ef ∨ Beam.nearer ties t.found_results c.distance = true then
      { candidates := ties.nearest.push c t.candidates
        found_results :=
          if g.live neighbor_id then Beam.keep ties ef (ties.farthest.push c t.found_results)
          else t.found_results
        visited := tested.1 }
    else { t with visited := tested.1 }

def Traversal.loop : ℕ → Traversal D → Option (Traversal D)
  | 0, _ => none
  | fuel + 1, t =>
      match ties.nearest.top t.candidates with
      | none => some t
      | some curr =>
          if Beam.stops ties ef t.found_results curr then some t
          else Traversal.loop fuel ((g.next curr.id).foldl (Traversal.visit ties g ef)
            { t with candidates := ties.nearest.pop t.candidates })

/-- `search_layer`, with the set that the thread has used before. -/
def Traversal.search (visited : VisitedSet) (entry_point : ℕ) : Option (Traversal D) :=
  let start_node : Cand D := ⟨g.dist entry_point, entry_point⟩
  Traversal.loop ties g ef (g.capacity + 1)
    { candidates := [start_node]
      found_results := if g.live entry_point then [start_node] else []
      visited := ((visited.begin g.capacity).test_and_set entry_point).1 }

/-- The same queues, and stamps for the visited nodes. -/
structure Stamped (g : Beam.Query D) (t : Traversal D) (s : Beam.State D) : Prop where
  candidates : t.candidates = s.candidates
  found : t.found_results = s.found
  visited : t.visited.Marks g.capacity (fun i => i ∈ s.visited)

variable {g ef}

/-- **One neighbour.** -/
theorem stamped_visit {t : Traversal D} {s : Beam.State D} (h : Stamped g t s) {n : ℕ}
    (hn : n < g.capacity) :
    Stamped g (t.visit ties g ef n) (Beam.visit ties g ef s n) := by
  obtain ⟨candidates, found, visited⟩ := t
  obtain ⟨rfl, rfl, hmarks⟩ := h
  have hanswer := VisitedSet.test_and_set_answer hmarks hn
  have hmarked := VisitedSet.marks_test_and_set hmarks n
  rw [Traversal.visit, Beam.visit]
  dsimp only at hanswer hmarked ⊢
  by_cases hseen : n ∈ s.visited
  · rw [if_pos (hanswer.mpr hseen), if_pos (Or.inl hseen)]
    refine ⟨rfl, rfl, hmarked.congr (fun i _ => ⟨?_, Or.inl⟩)⟩
    rintro (hi | rfl)
    · exact hi
    · exact hseen
  · have hout : ¬ (n ∈ s.visited ∨ g.capacity ≤ n) := by
      rintro (h | h)
      · exact hseen h
      · omega
    have hmarked' : (visited.test_and_set n).1.Marks g.capacity (fun i => i ∈ n :: s.visited) :=
      hmarked.congr (fun i _ => or_comm.trans List.mem_cons.symm)
    rw [if_neg (fun h => hseen (hanswer.mp h)), if_neg hout]
    by_cases hpush : s.found.length < ef ∨ Beam.nearer ties s.found (g.dist n) = true
    · rw [if_pos hpush, if_pos hpush]
      exact ⟨rfl, rfl, hmarked'⟩
    · rw [if_neg hpush, if_neg hpush]
      exact ⟨rfl, rfl, hmarked'⟩

theorem stamped_foldl {ns : List ℕ} (hns : ∀ n ∈ ns, n < g.capacity) :
    ∀ {t : Traversal D} {s : Beam.State D}, Stamped g t s →
      Stamped g (ns.foldl (Traversal.visit ties g ef) t) (ns.foldl (Beam.visit ties g ef) s) := by
  induction ns with
  | nil =>
      intro t s h
      exact h
  | cons n ns ih =>
      intro t s h
      obtain ⟨hn, hrest⟩ := List.forall_mem_cons.mp hns
      exact ih hrest (stamped_visit ties h hn)

/-- **The loop.** -/
theorem stamped_loop (hnext : ∀ i, ∀ j ∈ g.next i, j < g.capacity) (fuel : ℕ) :
    ∀ {t : Traversal D} {s : Beam.State D}, Stamped g t s →
      Beam.loop ties g ef fuel s
          = (Traversal.loop ties g ef fuel t).map Traversal.found_results ∧
        ∀ t', Traversal.loop ties g ef fuel t = some t' → t'.visited.Old := by
  induction fuel with
  | zero =>
      intro t s _
      exact ⟨rfl, fun t' h => by simp [Traversal.loop] at h⟩
  | succ fuel ih =>
      intro t s h
      have hstop : ∀ t', some t = some t' → t'.visited.Old :=
        fun t' ht => Option.some.inj ht ▸ h.visited.old
      rw [Beam.loop, Traversal.loop, ← h.candidates, ← h.found]
      cases ties.nearest.top t.candidates with
      | none => exact ⟨rfl, hstop⟩
      | some curr =>
          dsimp only
          split_ifs
          · exact ⟨rfl, hstop⟩
          · exact ih (stamped_foldl ties (hnext curr.id) ⟨rfl, rfl, h.visited⟩)

end Traversal

/-- **`search_layer` with reused stamps.** Whatever the traversals before have left in the set, the
search on a sound index finds what `HNSW.search_layer` finds, and leaves the set usable. -/
theorem search_layer_stamps {V D : Type*} [Zero V] [LinearOrder D] (ties : Ties D)
    (dist : V → V → D) {s : HNSW V} (hs : s.Sound) {visited : VisitedSet} (hold : visited.Old)
    (entry_point : ℕ) (q : V) (ef layer : ℕ) :
    s.search_layer ties dist entry_point q ef layer
        = (Traversal.search ties (s.query dist q layer) ef visited entry_point).map
            Traversal.found_results ∧
      ∀ t, Traversal.search ties (s.query dist q layer) ef visited entry_point = some t →
        t.visited.Old := by
  have hnext : ∀ i, ∀ j ∈ s.links layer i, j < s.capacity :=
    fun i j hj => hs.region.range j (links_written hs.region.closed i layer j hj)
  have hmarks := VisitedSet.marks_test_and_set
    (VisitedSet.marks_begin hold (s.query dist q layer).capacity) entry_point
  refine stamped_loop ties hnext _ ⟨rfl, rfl, hmarks.congr (fun i _ => ?_)⟩
  rw [List.mem_singleton, false_or]

end NanoDB.Index
