/-
Best-first search with a bounded set of results, and greedy descent, over any graph.

`search` keeps two queues: the candidates still to be expanded, nearest first, and the at
most `ef` nearest results, from which dead nodes are withheld although the search walks
through them. `walk` moves to a nearer neighbour as long as there is one. Both are loops
that stop for reasons of their own, so they carry fuel, and the specifications say that
one unit more than the number of nodes is always enough.

`search_spec` is all that is needed of the search: what it finds is reachable and alive,
and either it found as many as it was asked for or it found everything. Nothing in it
depends on the distances, and nothing on how the queues order equal ones, at any of their
steps: the queues are a parameter (`Ties`).
-/
import NanoDB.Lib.Heap
import Mathlib.Data.Finset.Card
import Mathlib.Data.List.Perm.Subperm
import Mathlib.Data.List.Sort
import Mathlib.Logic.Relation
import Mathlib.Order.Basic

set_option autoImplicit false

namespace Beam

/-! ## Queues -/

/-- A node with its distance from the query. -/
structure Cand (D : Type*) where
  distance : D
  id : ℕ
deriving DecidableEq, Repr

variable {D : Type*} [LinearOrder D]

/-- The queues and the sort, free among equal distances. -/
structure Ties (D : Type*) [LinearOrder D] where
  nearest : Heap (Cand D) (fun a b => a.distance ≤ b.distance)
  farthest : Heap (Cand D) (fun a b => b.distance ≤ a.distance)
  sort : List (Cand D) → List (Cand D)
  sort_perm : ∀ q, (sort q).Perm q
  sort_sorted : ∀ q, (sort q).Pairwise (fun a b => a.distance ≤ b.distance)

/-- Queues that yield the first of equals, and a stable sort. -/
def Ties.first : Ties D where
  nearest := Heap.first (fun _ _ => le_total _ _) (fun _ _ _ => le_trans)
  farthest := Heap.first (fun _ _ => le_total _ _) (fun _ _ _ h h' => le_trans h' h)
  sort := List.insertionSort (fun a b => a.distance ≤ b.distance)
  sort_perm := List.perm_insertionSort _
  sort_sorted := by
    have : Std.Total (fun a b : Cand D => a.distance ≤ b.distance) := ⟨fun a b => le_total _ _⟩
    have : IsTrans (Cand D) (fun a b => a.distance ≤ b.distance) := ⟨fun _ _ _ => le_trans⟩
    exact List.pairwise_insertionSort _

/-! ## The graph of a query -/

/-- What the search reads: neighbours, distances from the query, which nodes are alive, and
how many nodes there can be. -/
structure Query (D : Type*) where
  next : ℕ → List ℕ
  dist : ℕ → D
  live : ℕ → Bool
  capacity : ℕ

/-- Along the edges. -/
def Query.Reach (g : Query D) : ℕ → ℕ → Prop := Relation.ReflTransGen (fun i j => j ∈ g.next i)

omit [LinearOrder D] in
theorem Query.Reach.step {g : Query D} {i j k : ℕ} (h : g.Reach i j) (hk : k ∈ g.next j) :
    g.Reach i k :=
  Relation.ReflTransGen.tail h hk

/-! ## Bounded search -/

structure State (D : Type*) where
  candidates : List (Cand D)
  found : List (Cand D)
  visited : List ℕ

variable (ties : Ties D) (g : Query D) (ef : ℕ)

/-- Drop the farthest result when there are too many. -/
def keep (found : List (Cand D)) : List (Cand D) :=
  if found.length > ef then ties.farthest.pop found else found

/-- Nearer than the farthest result. -/
def nearer (found : List (Cand D)) (d : D) : Bool :=
  match ties.farthest.top found with
  | none => false
  | some t => decide (d < t.distance)

/-- Look at one neighbour. -/
def visit (s : State D) (n : ℕ) : State D :=
  if n ∈ s.visited ∨ g.capacity ≤ n then s
  else
    let c : Cand D := ⟨g.dist n, n⟩
    if s.found.length < ef ∨ nearer ties s.found c.distance = true then
      { candidates := ties.nearest.push c s.candidates
        found := if g.live n then keep ties ef (ties.farthest.push c s.found) else s.found
        visited := n :: s.visited }
    else { s with visited := n :: s.visited }

/-- The nearest candidate is farther than every result, and there are enough. -/
def stops (found : List (Cand D)) (curr : Cand D) : Bool :=
  match ties.farthest.top found with
  | none => false
  | some t => decide (t.distance < curr.distance) && decide (ef ≤ found.length)

def loop : ℕ → State D → Option (List (Cand D))
  | 0, _ => none
  | fuel + 1, s =>
      match ties.nearest.top s.candidates with
      | none => some s.found
      | some curr =>
          if stops ties ef s.found curr then some s.found
          else loop fuel ((g.next curr.id).foldl (visit ties g ef)
            { s with candidates := ties.nearest.pop s.candidates })

/-- The search from `entry`; `none` if it ran out of fuel. -/
def search (entry : ℕ) : Option (List (Cand D)) :=
  let start_node : Cand D := ⟨g.dist entry, entry⟩
  loop ties g ef (g.capacity + 1)
    { candidates := [start_node]
      found := if g.live entry then [start_node] else []
      visited := [entry] }

/-! ### What one look at a neighbour does -/

section Spec

variable {g ef} {entry : ℕ}

/-- What the loop keeps. As long as there are not enough results, no live node that was
visited is missing from them. -/
structure Inv (g : Query D) (ef entry : ℕ) (s : State D) : Prop where
  reach : ∀ v ∈ s.visited, g.Reach entry v
  nodup : s.visited.Nodup
  start : entry ∈ s.visited
  pending : ∀ c ∈ s.candidates, c.id ∈ s.visited
  found : ∀ c ∈ s.found, c.id ∈ s.visited ∧ g.live c.id = true ∧ c.distance = g.dist c.id
  found_nodup : (s.found.map Cand.id).Nodup
  seen : ef ≤ s.found.length ∨ ∀ v ∈ s.visited, g.live v = true → v ∈ s.found.map Cand.id

/-- How far `s'` is from `s`: nothing visited is forgotten, no candidate is lost, what is new
is a candidate unless there are enough results, and candidates come from new visits. -/
structure Ahead (ef : ℕ) (s s' : State D) : Prop where
  visited : ∀ v ∈ s.visited, v ∈ s'.visited
  candidates : ∀ c ∈ s.candidates, c ∈ s'.candidates
  found : s.found.length ≤ s'.found.length
  pending : ef ≤ s'.found.length ∨
    ∀ v ∈ s'.visited, v ∈ s.visited ∨ v ∈ s'.candidates.map Cand.id
  cost : s'.candidates.length + s.visited.length ≤ s.candidates.length + s'.visited.length

omit [LinearOrder D] in
theorem Ahead.refl (s : State D) : Ahead ef s s :=
  ⟨fun _ h => h, fun _ h => h, le_refl _, Or.inr (fun _ h => Or.inl h), le_refl _⟩

omit [LinearOrder D] in
theorem Ahead.trans {s s' s'' : State D} (h : Ahead ef s s') (h' : Ahead ef s' s'') :
    Ahead ef s s'' := by
  refine ⟨fun v hv => h'.visited v (h.visited v hv),
    fun c hc => h'.candidates c (h.candidates c hc), le_trans h.found h'.found, ?_, ?_⟩
  · rcases h'.pending with hfull | hpend'
    · exact Or.inl hfull
    rcases h.pending with hfull | hpend
    · exact Or.inl (le_trans hfull h'.found)
    refine Or.inr (fun v hv => ?_)
    rcases hpend' v hv with hv | hv
    · rcases hpend v hv with hv | hv
      · exact Or.inl hv
      · obtain ⟨c, hc, rfl⟩ := List.mem_map.mp hv
        exact Or.inr (List.mem_map_of_mem (h'.candidates c hc))
    · exact Or.inr hv
  · have h₁ := h.cost
    have h₂ := h'.cost
    omega

/-- A queue that is too long loses its farthest element, and otherwise nothing happens. -/
theorem keep_cases (ef : ℕ) (found : List (Cand D)) :
    found.length ≤ ef ∧ keep ties ef found = found ∨
      ∃ t, ef < found.length ∧ (∀ c ∈ found, c.distance ≤ t.distance) ∧
        (t :: keep ties ef found).Perm found := by
  unfold keep
  by_cases h : found.length > ef
  · have hne : found ≠ [] := List.ne_nil_of_length_pos (by omega)
    obtain ⟨t, ht⟩ := Heap.exists_top (h := ties.farthest) hne
    rw [if_pos h]
    exact Or.inr ⟨t, h, (ties.farthest.top_mem found t ht).2, ties.farthest.pop_perm found t ht⟩
  · rw [if_neg h]
    exact Or.inl ⟨not_lt.mp h, rfl⟩

theorem mem_of_mem_keep {ef : ℕ} {found : List (Cand D)} {c : Cand D}
    (hc : c ∈ keep ties ef found) : c ∈ found := by
  rcases keep_cases ties ef found with ⟨-, heq⟩ | ⟨t, -, -, hperm⟩
  · exact heq ▸ hc
  · exact hperm.subset (List.mem_cons_of_mem t hc)

theorem nodup_keep {ef : ℕ} {found : List (Cand D)} (h : (found.map Cand.id).Nodup) :
    ((keep ties ef found).map Cand.id).Nodup := by
  rcases keep_cases ties ef found with ⟨-, heq⟩ | ⟨t, -, -, hperm⟩
  · rwa [heq]
  · exact ((hperm.map Cand.id).nodup_iff.mpr h).of_cons

theorem length_keep (ef : ℕ) (found : List (Cand D)) :
    found.length ≤ ef ∧ keep ties ef found = found ∨
      ef < found.length ∧ found.length = (keep ties ef found).length + 1 := by
  rcases keep_cases ties ef found with h | ⟨t, hlt, -, hperm⟩
  · exact Or.inl h
  · exact Or.inr ⟨hlt, hperm.length_eq.symm⟩

/-- The results with a new live node, before the farthest is dropped. -/
theorem push_found {visited : List ℕ} {found : List (Cand D)}
    (hfound : ∀ c ∈ found, c.id ∈ visited ∧ g.live c.id = true ∧ c.distance = g.dist c.id)
    (hnodup : (found.map Cand.id).Nodup) {n : ℕ} (hnew : n ∉ visited) (hlive : g.live n = true) :
    (∀ c ∈ ties.farthest.push ⟨g.dist n, n⟩ found,
      c.id ∈ n :: visited ∧ g.live c.id = true ∧ c.distance = g.dist c.id) ∧
    ((ties.farthest.push ⟨g.dist n, n⟩ found).map Cand.id).Nodup := by
  constructor
  · intro c hc
    rcases (Heap.mem_push _).mp hc with rfl | hc
    · exact ⟨List.mem_cons_self, hlive, rfl⟩
    · exact ⟨List.mem_cons_of_mem _ (hfound c hc).1, (hfound c hc).2⟩
  · rw [((ties.farthest.push_perm _ found).map Cand.id).nodup_iff, List.map_cons, List.nodup_cons]
    refine ⟨fun hmem => ?_, hnodup⟩
    obtain ⟨c, hc, hid⟩ := List.mem_map.mp hmem
    have hid' : c.id = n := hid
    exact hnew (hid' ▸ (hfound c hc).1)

/-- **One neighbour**: the invariant is kept, and the neighbour is visited. -/
theorem visit_spec {s : State D} (hs : Inv g ef entry s) {n : ℕ} (hn : g.Reach entry n)
    (hcap : n < g.capacity) :
    Inv g ef entry (visit ties g ef s n) ∧ Ahead ef s (visit ties g ef s n) ∧
      n ∈ (visit ties g ef s n).visited := by
  unfold visit
  by_cases hseen : n ∈ s.visited ∨ g.capacity ≤ n
  · rw [if_pos hseen]
    exact ⟨hs, Ahead.refl s, hseen.resolve_right (not_le.mpr hcap)⟩
  rw [if_neg hseen]
  have hnew : n ∉ s.visited := fun h => hseen (Or.inl h)
  have hreach : ∀ v ∈ n :: s.visited, g.Reach entry v := by
    intro v hv
    rcases List.mem_cons.mp hv with rfl | hv
    · exact hn
    · exact hs.reach v hv
  have hnodup : (n :: s.visited).Nodup := List.nodup_cons.mpr ⟨hnew, hs.nodup⟩
  have hold : ∀ c ∈ s.found,
      c.id ∈ n :: s.visited ∧ g.live c.id = true ∧ c.distance = g.dist c.id :=
    fun c hc => ⟨List.mem_cons_of_mem _ (hs.found c hc).1, (hs.found c hc).2⟩
  dsimp only
  by_cases hpush : s.found.length < ef ∨ nearer ties s.found (g.dist n) = true
  · rw [if_pos hpush]
    have hlen := length_keep ties ef (ties.farthest.push ⟨g.dist n, n⟩ s.found)
    rw [Heap.length_push] at hlen
    refine ⟨⟨hreach, hnodup, List.mem_cons_of_mem _ hs.start, ?_, ?_, ?_, ?_⟩,
      ⟨fun v hv => List.mem_cons_of_mem _ hv, fun c hc => (Heap.mem_push _).mpr (Or.inr hc), ?_, ?_,
        ?_⟩, List.mem_cons_self⟩
    · intro c hc
      rcases (Heap.mem_push _).mp hc with rfl | hc
      · exact List.mem_cons_self
      · exact List.mem_cons_of_mem _ (hs.pending c hc)
    · intro c hc
      dsimp only at hc
      split at hc
      · rename_i hlive
        exact (push_found ties hs.found hs.found_nodup hnew hlive).1 c (mem_of_mem_keep ties hc)
      · exact hold c hc
    · dsimp only
      split
      · rename_i hlive
        exact nodup_keep ties (push_found ties hs.found hs.found_nodup hnew hlive).2
      · exact hs.found_nodup
    · -- while there are not enough results nothing is dropped
      dsimp only
      rcases hs.seen with hfull | hseen'
      · left
        split
        · rcases hlen with ⟨-, heq⟩ | ⟨-, heq⟩
          · rw [heq, Heap.length_push]
            omega
          · omega
        · exact hfull
      by_cases hlive : g.live n = true
      · rw [if_pos hlive]
        rcases hlen with ⟨-, heq⟩ | ⟨hgt, heq⟩
        · rw [heq]
          refine Or.inr (fun v hv hvlive => ?_)
          rw [((ties.farthest.push_perm _ s.found).map Cand.id).mem_iff, List.map_cons]
          rcases List.mem_cons.mp hv with rfl | hv
          · exact List.mem_cons_self
          · exact List.mem_cons_of_mem _ (hseen' v hv hvlive)
        · left
          omega
      · rw [if_neg hlive]
        refine Or.inr (fun v hv hvlive => ?_)
        rcases List.mem_cons.mp hv with rfl | hv
        · exact absurd hvlive hlive
        · exact hseen' v hv hvlive
    · dsimp only
      split
      · rcases hlen with ⟨-, heq⟩ | ⟨-, heq⟩
        · rw [heq, Heap.length_push]
          omega
        · omega
      · exact le_refl _
    · refine Or.inr (fun v hv => ?_)
      rcases List.mem_cons.mp hv with rfl | hv
      · exact Or.inr (List.mem_map_of_mem ((Heap.mem_push _).mpr (Or.inl rfl)))
      · exact Or.inl hv
    · simp only [List.length_cons, Heap.length_push]
      omega
  · -- not pushed: there are enough results
    rw [if_neg hpush]
    have hfull : ef ≤ s.found.length := not_lt.mp (fun h => hpush (Or.inl h))
    refine ⟨⟨hreach, hnodup, List.mem_cons_of_mem _ hs.start,
        fun c hc => List.mem_cons_of_mem _ (hs.pending c hc), hold, hs.found_nodup, Or.inl hfull⟩,
      ⟨fun v hv => List.mem_cons_of_mem _ hv, fun _ hc => hc, le_refl _, Or.inl hfull, ?_⟩,
      List.mem_cons_self⟩
    simp only [List.length_cons]
    omega

/-- All neighbours of one node. -/
theorem foldl_visit_spec (ns : List ℕ) :
    ∀ s : State D, Inv g ef entry s → (∀ n ∈ ns, g.Reach entry n ∧ n < g.capacity) →
      Inv g ef entry (ns.foldl (visit ties g ef) s) ∧ Ahead ef s (ns.foldl (visit ties g ef) s) ∧
        ∀ n ∈ ns, n ∈ (ns.foldl (visit ties g ef) s).visited := by
  induction ns with
  | nil =>
      intro s hs _
      exact ⟨hs, Ahead.refl s, fun n hn => absurd hn (by simp)⟩
  | cons n ns ih =>
      intro s hs hns
      obtain ⟨hn, hcap⟩ := hns n List.mem_cons_self
      obtain ⟨h₁, h₂, h₃⟩ := visit_spec ties hs hn hcap
      obtain ⟨h₁', h₂', h₃'⟩ := ih _ h₁ (fun m hm => hns m (List.mem_cons_of_mem _ hm))
      refine ⟨h₁', h₂.trans h₂', fun m hm => ?_⟩
      rcases List.mem_cons.mp hm with rfl | hm
      · exact h₂'.visited m h₃
      · exact h₃' m hm

/-! ### The loop -/

/-- Every visited node is a candidate or has all its neighbours visited, unless there are
enough results. -/
def Expanded (g : Query D) (ef : ℕ) (s : State D) : Prop :=
  ef ≤ s.found.length ∨ ∀ v ∈ s.visited,
    v ∈ s.candidates.map Cand.id ∨ ∀ w ∈ g.next v, w ∈ s.visited

omit [LinearOrder D] in
/-- With nothing left to expand, what is visited is what is reachable. -/
theorem visited_of_reach {s : State D} (hs : Inv g ef entry s) (hcand : s.candidates = [])
    (hexp : Expanded g ef s) (hfull : ¬ ef ≤ s.found.length) {v : ℕ} (hv : g.Reach entry v) :
    v ∈ s.visited := by
  have hclosed := hexp.resolve_left hfull
  induction hv with
  | refl => exact hs.start
  | tail _ hedge ih =>
      rcases hclosed _ ih with h | h
      · rw [hcand] at h
        simp at h
      · exact h _ hedge

/-- What a search delivers. -/
structure Delivers (g : Query D) (ef entry : ℕ) (found : List (Cand D)) : Prop where
  sound : ∀ c ∈ found, g.Reach entry c.id ∧ g.live c.id = true ∧ c.distance = g.dist c.id
  nodup : (found.map Cand.id).Nodup
  complete : ef ≤ found.length ∨
    ∀ v, g.Reach entry v → g.live v = true → v ∈ found.map Cand.id

omit [LinearOrder D] in
theorem Inv.delivers {s : State D} (hs : Inv g ef entry s)
    (h : ef ≤ s.found.length ∨ ∀ v, g.Reach entry v → v ∈ s.visited) :
    Delivers g ef entry s.found := by
  refine ⟨fun c hc => ?_, hs.found_nodup, ?_⟩
  · obtain ⟨h₁, h₂, h₃⟩ := hs.found c hc
    exact ⟨hs.reach _ h₁, h₂, h₃⟩
  · rcases h with hfull | hall
    · exact Or.inl hfull
    · exact hs.seen.imp id (fun hseen v hv hlive => hseen v (hall v hv) hlive)

omit [LinearOrder D] in
theorem Inv.length_visited {s : State D} (hs : Inv g ef entry s)
    (hrange : ∀ v, g.Reach entry v → v < g.capacity) : s.visited.length ≤ g.capacity := by
  have hsub : s.visited ⊆ List.range g.capacity := by
    intro v hv
    exact List.mem_range.mpr (hrange v (hs.reach v hv))
  have hle := (hs.nodup.subperm hsub).length_le
  rwa [List.length_range] at hle

/-- **The loop ends**, with fuel for the candidates and for the nodes not yet visited, and
delivers. -/
theorem loop_spec (hrange : ∀ v, g.Reach entry v → v < g.capacity) :
    ∀ (fuel : ℕ) (s : State D), Inv g ef entry s → Expanded g ef s →
      s.candidates.length + g.capacity < fuel + s.visited.length →
      ∃ found, loop ties g ef fuel s = some found ∧ Delivers g ef entry found := by
  intro fuel
  induction fuel with
  | zero =>
      intro s hs _ hfuel
      have := hs.length_visited hrange
      omega
  | succ fuel ih =>
      intro s hs hexp hfuel
      rw [loop]
      cases hnear : ties.nearest.top s.candidates with
      | none =>
          -- the queue is empty: the result is full, or everything reachable was seen
          have hcand := ties.nearest.top_none _ hnear
          refine ⟨s.found, rfl, hs.delivers ?_⟩
          by_cases hfull : ef ≤ s.found.length
          · exact Or.inl hfull
          · exact Or.inr (fun v hv => visited_of_reach hs hcand hexp hfull hv)
      | some curr =>
          dsimp only
          by_cases hstop : stops ties ef s.found curr = true
          · rw [if_pos hstop]
            refine ⟨s.found, rfl, hs.delivers (Or.inl ?_)⟩
            unfold stops at hstop
            split at hstop
            · simp at hstop
            · simp only [Bool.and_eq_true, decide_eq_true_eq] at hstop
              exact hstop.2
          rw [if_neg hstop]
          have hcurr := hs.reach _ (hs.pending curr (ties.nearest.top_mem _ curr hnear).1)
          -- one round pops the nearest candidate and visits its neighbours
          have hpop : Inv g ef entry { s with candidates := ties.nearest.pop s.candidates } :=
            ⟨hs.reach, hs.nodup, hs.start,
              fun c hc => hs.pending c ((Heap.mem_of_top hnear).mpr (Or.inr hc)),
              hs.found, hs.found_nodup, hs.seen⟩
          obtain ⟨hinv, hahead, hall⟩ := foldl_visit_spec ties (g.next curr.id) _ hpop
            (fun n hn => ⟨hcurr.step hn, hrange n (hcurr.step hn)⟩)
          generalize (g.next curr.id).foldl (visit ties g ef)
            { s with candidates := ties.nearest.pop s.candidates } = s' at hinv hahead hall
          apply ih s' hinv
          · -- the popped node is expanded now, the others are as they were
            rcases hahead.pending with hfull | hpend
            · exact Or.inl hfull
            rcases hexp with hfull | hexp
            · exact Or.inl (le_trans hfull hahead.found)
            refine Or.inr (fun v hv => ?_)
            rcases hpend v hv with hv | hv
            · rcases hexp v hv with h | h
              · obtain ⟨c, hc, rfl⟩ := List.mem_map.mp h
                rcases (Heap.mem_of_top hnear).mp hc with rfl | hc
                · exact Or.inr hall
                · exact Or.inl (List.mem_map_of_mem (hahead.candidates c hc))
              · exact Or.inr (fun w hw => hahead.visited w (h w hw))
            · exact Or.inl hv
          · -- the round popped one and pushed only what it newly visited
            have hcost := hahead.cost
            dsimp only at hcost
            have := Heap.length_of_top hnear
            omega

/-- **The search.** If every reachable node is in range, it ends and delivers. -/
theorem search_spec (hrange : ∀ v, g.Reach entry v → v < g.capacity) :
    ∃ found, search ties g ef entry = some found ∧ Delivers g ef entry found := by
  have hentry : g.Reach entry entry := Relation.ReflTransGen.refl
  apply loop_spec ties hrange
  · -- the invariant holds with only the entry point visited
    refine ⟨?_, by simp, by simp, by simp, ?_, ?_, ?_⟩
    · intro v hv
      rw [List.mem_singleton.mp hv]
      exact hentry
    · intro c hc
      dsimp only at hc
      split at hc
      · rename_i hlive
        rw [List.mem_singleton.mp hc]
        exact ⟨by simp, hlive, rfl⟩
      · simp at hc
    · dsimp only
      split <;> simp
    · refine Or.inr (fun v hv hlive => ?_)
      rw [List.mem_singleton.mp hv] at hlive ⊢
      rw [if_pos hlive]
      simp
  · refine Or.inr (fun v hv => ?_)
    rw [List.mem_singleton.mp hv]
    exact Or.inl (by simp)
  · simp only [List.length_singleton]
    omega

end Spec

/-! ## Reading the results -/

/-- Pop the farthest result until none is left. -/
def drain : ℕ → List (Cand D) → List (Cand D)
  | 0, _ => []
  | k + 1, q =>
      match ties.farthest.top q with
      | none => []
      | some c => c :: drain k (ties.farthest.pop q)

/-- The results, nearest first. -/
def nearest_first (q : List (Cand D)) : List (Cand D) := (drain ties q.length q).reverse

theorem drain_perm : ∀ (k : ℕ) (q : List (Cand D)), q.length = k → (drain ties k q).Perm q := by
  intro k
  induction k with
  | zero =>
      intro q hq
      rw [List.length_eq_zero_iff.mp hq]
      exact List.Perm.refl _
  | succ k ih =>
      intro q hq
      rw [drain]
      cases hfar : ties.farthest.top q with
      | none =>
          rw [ties.farthest.top_none q hfar] at hq
          simp at hq
      | some c =>
          have hlen : (ties.farthest.pop q).length = k := by
            have := Heap.length_of_top hfar
            omega
          exact ((ih _ hlen).cons c).trans (ties.farthest.pop_perm q c hfar)

theorem nearest_first_perm (q : List (Cand D)) : (nearest_first ties q).Perm q :=
  (List.reverse_perm _).trans (drain_perm ties _ q rfl)

theorem drain_sorted :
    ∀ (k : ℕ) (q : List (Cand D)), q.length = k →
      (drain ties k q).Pairwise (fun a b => b.distance ≤ a.distance) := by
  intro k
  induction k with
  | zero =>
      intro q _
      exact List.Pairwise.nil
  | succ k ih =>
      intro q hq
      rw [drain]
      cases hfar : ties.farthest.top q with
      | none => exact List.Pairwise.nil
      | some c =>
          have hlen : (ties.farthest.pop q).length = k := by
            have := Heap.length_of_top hfar
            omega
          refine List.pairwise_cons.mpr
            ⟨fun b hb => (ties.farthest.top_mem q c hfar).2 b ?_, ih _ hlen⟩
          exact (Heap.mem_of_top hfar).mpr (Or.inr ((drain_perm ties k _ hlen).mem_iff.mp hb))

theorem nearest_first_sorted (q : List (Cand D)) :
    (nearest_first ties q).Pairwise (fun a b => a.distance ≤ b.distance) :=
  List.pairwise_reverse.mpr (drain_sorted ties _ q rfl)

/-! ## Greedy descent -/

/-- Move to `n` if it is nearer. -/
def scan (b : ℕ × D) (n : ℕ) : ℕ × D := if g.dist n < b.2 then (n, g.dist n) else b

/-- Scan the neighbours of the node one is at, as long as that moves. -/
def walk : ℕ → ℕ × D → Option (ℕ × D)
  | 0, _ => none
  | fuel + 1, b =>
      let b' := (g.next b.1).foldl (scan g) b
      if b'.2 < b.2 then walk fuel b' else some b'

/-- The scan ends at the start or at a neighbour, with its distance, and not farther away. -/
theorem foldl_scan_spec (ns : List ℕ) :
    ∀ b : ℕ × D, b.2 = g.dist b.1 →
      (ns.foldl (scan g) b).2 = g.dist (ns.foldl (scan g) b).1 ∧
      ((ns.foldl (scan g) b).1 = b.1 ∨ (ns.foldl (scan g) b).1 ∈ ns) ∧
      (ns.foldl (scan g) b).2 ≤ b.2 := by
  induction ns with
  | nil =>
      intro b hb
      exact ⟨hb, Or.inl rfl, le_refl _⟩
  | cons n ns ih =>
      intro b hb
      rw [List.foldl_cons]
      unfold scan
      by_cases hlt : g.dist n < b.2
      · rw [if_pos hlt]
        obtain ⟨h₁, h₂, h₃⟩ := ih (n, g.dist n) rfl
        refine ⟨h₁, Or.inr ?_, le_trans h₃ (le_of_lt hlt)⟩
        rcases h₂ with h | h
        · exact List.mem_cons.mpr (Or.inl h)
        · exact List.mem_cons_of_mem _ h
      · rw [if_neg hlt]
        obtain ⟨h₁, h₂, h₃⟩ := ih b hb
        exact ⟨h₁, h₂.imp id (List.mem_cons_of_mem _), h₃⟩

/-- Moving to a nearer member of a finite set leaves fewer members that are nearer. -/
theorem card_nearer_lt {P : Type*} [Preorder P] [DecidableLT P] (U : Finset ℕ) (f : ℕ → P) {i : ℕ}
    (hi : i ∈ U) {d : P} (hlt : f i < d) :
    (U.filter (fun k => f k < f i)).card < (U.filter (fun k => f k < d)).card := by
  apply Finset.card_lt_card
  refine Finset.ssubset_iff_of_subset ?_ |>.mpr ⟨i, ?_, ?_⟩
  · intro k hk
    rw [Finset.mem_filter] at hk ⊢
    exact ⟨hk.1, lt_trans hk.2 hlt⟩
  · exact Finset.mem_filter.mpr ⟨hi, hlt⟩
  · rw [Finset.mem_filter]
    exact fun h => lt_irrefl _ h.2

/-- **The descent ends**, at a reachable node and with its distance. The fuel is bounded by
the nodes that are nearer. -/
theorem walk_spec {start : ℕ} (hrange : ∀ v, g.Reach start v → v < g.capacity) :
    ∃ j, walk g (g.capacity + 1) (start, g.dist start) = some (j, g.dist j) ∧ g.Reach start j := by
  -- the number of nodes strictly nearer than the current one falls with every move
  have key : ∀ (fuel i : ℕ), g.Reach start i →
      ((Finset.range g.capacity).filter (fun k => g.dist k < g.dist i)).card < fuel →
      ∃ j, walk g fuel (i, g.dist i) = some (j, g.dist j) ∧ g.Reach start j := by
    intro fuel
    induction fuel with
    | zero =>
        intro i _ h
        omega
    | succ fuel ih =>
        intro i hi hcard
        obtain ⟨h₁, h₂, h₃⟩ := foldl_scan_spec g (g.next i) (i, g.dist i) rfl
        rw [walk]
        dsimp only
        generalize hb : (g.next i).foldl (scan g) (i, g.dist i) = b at h₁ h₂ h₃
        have hreach : g.Reach start b.1 := by
          rcases h₂ with h | h
          · rw [h]
            exact hi
          · exact hi.step h
        have hpair : b = (b.1, g.dist b.1) := Prod.ext rfl h₁
        by_cases hlt : b.2 < g.dist i
        · rw [if_pos hlt, hpair]
          apply ih b.1 hreach
          rw [h₁] at hlt
          have hfewer := card_nearer_lt (Finset.range g.capacity) g.dist
            (Finset.mem_range.mpr (hrange b.1 hreach)) hlt
          exact lt_of_lt_of_le hfewer (Nat.lt_succ_iff.mp hcard)
        · rw [if_neg hlt, hpair]
          exact ⟨b.1, rfl, hreach⟩
  apply key _ start Relation.ReflTransGen.refl
  have hle := Finset.card_filter_le (Finset.range g.capacity)
    (fun k => g.dist k < g.dist start)
  rw [Finset.card_range] at hle
  omega

end Beam
