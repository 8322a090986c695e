/-
What a bounded best-first search has visited, and which nodes it reads.

`traverse` is `Beam.search` with the whole state in which the loop ends, the visited nodes
among it. `Best` is the invariant of the bounded queue: it holds the `ef` nearest of the live
nodes visited so far. Dropping the farthest result loses nothing that would come back, because
a node is only taken up when it is nearer than the farthest one.

`loop_reads` and `walk_reads` list the nodes whose records the two loops of `Beam` look at, in
the order of the loops. All of them lie in any set that holds the start and that no edge leaves.
-/
import NanoDB.Lib.Beam
import NanoDB.Lib.Ranking

set_option autoImplicit false

namespace Beam

variable {D : Type*} [LinearOrder D] (ties : Ties D) (g : Query D) (ef : ℕ)

/-! ## The state at the end -/

/-- `loop`, with the state in which it ends. -/
def loop_state : ℕ → State D → Option (State D)
  | 0, _ => none
  | fuel + 1, s =>
      match ties.nearest.top s.candidates with
      | none => some s
      | some curr =>
          if stops ties ef s.found curr then some s
          else loop_state fuel ((g.next curr.id).foldl (visit ties g ef)
            { s with candidates := ties.nearest.pop s.candidates })

/-- The state in which the search starts. -/
def start (entry : ℕ) : State D :=
  { candidates := [⟨g.dist entry, entry⟩]
    found := if g.live entry then [⟨g.dist entry, entry⟩] else []
    visited := [entry] }

/-- `search`, with the state in which it ends. -/
def traverse (entry : ℕ) : Option (State D) :=
  loop_state ties g ef (g.capacity + 1) (start g entry)

theorem loop_eq_map (fuel : ℕ) : ∀ s : State D,
    loop ties g ef fuel s = (loop_state ties g ef fuel s).map State.found := by
  induction fuel with
  | zero =>
      intro s
      rfl
  | succ fuel ih =>
      intro s
      rw [loop, loop_state]
      cases ties.nearest.top s.candidates with
      | none => rfl
      | some curr =>
          dsimp only
          split_ifs
          · rfl
          · exact ih _

/-- The search returns what the traversal has found. -/
theorem search_eq_map (entry : ℕ) :
    search ties g ef entry = (traverse ties g ef entry).map State.found :=
  loop_eq_map ties g ef (g.capacity + 1) (start g entry)

variable {g ef}

/-- What popping a candidate and visiting a node keep holds in the end. -/
theorem loop_state_invariant {P : State D → Prop}
    (hpop : ∀ s, P s → P { s with candidates := ties.nearest.pop s.candidates })
    (hvisit : ∀ s n, P s → P (visit ties g ef s n)) (fuel : ℕ) :
    ∀ s s', loop_state ties g ef fuel s = some s' → P s → P s' := by
  have hfold : ∀ (ns : List ℕ) (s : State D), P s → P (ns.foldl (visit ties g ef) s) := by
    intro ns
    induction ns with
    | nil =>
        intro s hs
        exact hs
    | cons n ns ih =>
        intro s hs
        exact ih _ (hvisit s n hs)
  induction fuel with
  | zero =>
      intro s s' h
      simp [loop_state] at h
  | succ fuel ih =>
      intro s s' h hs
      rw [loop_state] at h
      cases hnear : ties.nearest.top s.candidates with
      | none =>
          rw [hnear] at h
          exact Option.some.inj h ▸ hs
      | some curr =>
          rw [hnear] at h
          dsimp only at h
          split_ifs at h
          · exact Option.some.inj h ▸ hs
          · exact ih _ s' h (hfold _ _ (hpop s hs))

/-! ## The bounded queue -/

/-- The queue holds the `ef` nearest of the live nodes visited. -/
structure Best (g : Query D) (ef : ℕ) (s : State D) : Prop where
  found : ∀ c ∈ s.found, c.id ∈ s.visited ∧ g.live c.id = true ∧ c.distance = g.dist c.id
  nodup : (s.found.map Cand.id).Nodup
  short : s.found.length ≤ ef
  best : ∀ v ∈ s.visited, g.live v = true → v ∈ s.found.map Cand.id ∨
    (ef ≤ s.found.length ∧ ∀ c ∈ s.found, c.distance ≤ g.dist v)

/-- A node that is not taken up is behind a full queue. -/
theorem le_of_not_nearer {found : List (Cand D)} {d : D} (h : ¬ nearer ties found d = true) :
    ∀ c ∈ found, c.distance ≤ d := by
  intro c hc
  rw [nearer] at h
  cases hfar : ties.farthest.top found with
  | none =>
      rw [ties.farthest.top_none found hfar] at hc
      simp at hc
  | some t =>
      rw [hfar] at h
      have hle : t.distance ≤ d := not_lt.mp (fun hlt => h (decide_eq_true hlt))
      exact ((ties.farthest.top_mem found t hfar).2 c hc).trans hle

/-- A node that is taken up into a full queue is in front of what the queue is in front of. -/
theorem le_of_nearer {found : List (Cand D)} {d e : D} (h : nearer ties found d = true)
    (hfound : ∀ c ∈ found, c.distance ≤ e) : d ≤ e := by
  rw [nearer] at h
  cases hfar : ties.farthest.top found with
  | none =>
      rw [hfar] at h
      simp at h
  | some t =>
      rw [hfar] at h
      exact (le_of_lt (of_decide_eq_true h)).trans
        (hfound t (ties.farthest.top_mem found t hfar).1)

/-- A new live node in the queue. -/
theorem best_push {s : State D} (h : Best g ef s) {n : ℕ} (hnew : n ∉ s.visited)
    (hlive : g.live n = true)
    (hpush : s.found.length < ef ∨ nearer ties s.found (g.dist n) = true)
    (candidates : List (Cand D)) :
    Best g ef
      ⟨candidates, keep ties ef (ties.farthest.push ⟨g.dist n, n⟩ s.found), n :: s.visited⟩ := by
  obtain ⟨hfound, hnodup⟩ := push_found ties h.found h.nodup hnew hlive
  have hlen := length_keep ties ef (ties.farthest.push ⟨g.dist n, n⟩ s.found)
  have hshort := h.short
  rw [Heap.length_push] at hlen
  refine ⟨fun c hc => hfound c (mem_of_mem_keep ties hc), nodup_keep ties hnodup, ?_, ?_⟩
  · rcases hlen with ⟨hle, heq⟩ | ⟨-, heq⟩
    · rw [heq, Heap.length_push]
      exact hle
    · dsimp only
      omega
  · intro v hv hvlive
    dsimp only at hv ⊢
    -- where `v` was before the farthest element was dropped
    have hwhere : (∃ c ∈ ties.farthest.push ⟨g.dist n, n⟩ s.found, c.id = v) ∨
        (ef ≤ s.found.length ∧ ∀ c ∈ s.found, c.distance ≤ g.dist v) := by
      rcases List.mem_cons.mp hv with rfl | hv
      · exact Or.inl ⟨_, (Heap.mem_push _).mpr (Or.inl rfl), rfl⟩
      · rcases h.best v hv hvlive with hmem | hfar
        · obtain ⟨c, hc, hid⟩ := List.mem_map.mp hmem
          exact Or.inl ⟨c, (Heap.mem_push _).mpr (Or.inr hc), hid⟩
        · exact Or.inr hfar
    rcases keep_cases ties ef (ties.farthest.push ⟨g.dist n, n⟩ s.found) with
      ⟨hle, heq⟩ | ⟨t, hlt, hmax, hperm⟩
    · rw [heq]
      rw [Heap.length_push] at hle
      rcases hwhere with ⟨c, hc, rfl⟩ | ⟨hfull, -⟩
      · exact Or.inl (List.mem_map_of_mem hc)
      · omega
    · have hfull : ef ≤ (keep ties ef (ties.farthest.push ⟨g.dist n, n⟩ s.found)).length := by
        rw [← hperm.length_eq, List.length_cons] at hlt
        omega
      rcases hwhere with ⟨c, hc, rfl⟩ | ⟨hfull', hfar⟩
      · rcases List.mem_cons.mp (hperm.mem_iff.mpr hc) with rfl | hkept
        · refine Or.inr ⟨hfull, fun d hd => ?_⟩
          rw [← (hfound c hc).2.2]
          exact hmax d (mem_of_mem_keep ties hd)
        · exact Or.inl (List.mem_map_of_mem hkept)
      · refine Or.inr ⟨hfull, fun d hd => ?_⟩
        rcases (Heap.mem_push _).mp (mem_of_mem_keep ties hd) with rfl | hd
        · exact le_of_nearer ties (hpush.resolve_left (not_lt.mpr hfull')) hfar
        · exact hfar d hd

/-- A neighbour is known, is taken up, or is only visited. -/
theorem visit_cases (g : Query D) (ef : ℕ) (s : State D) (n : ℕ) :
    visit ties g ef s n = s ∨
    (n ∉ s.visited ∧ (s.found.length < ef ∨ nearer ties s.found (g.dist n) = true) ∧
      visit ties g ef s n = ⟨ties.nearest.push ⟨g.dist n, n⟩ s.candidates,
        if g.live n then keep ties ef (ties.farthest.push ⟨g.dist n, n⟩ s.found) else s.found,
        n :: s.visited⟩) ∨
    (n ∉ s.visited ∧ ¬ (s.found.length < ef ∨ nearer ties s.found (g.dist n) = true) ∧
      visit ties g ef s n = { s with visited := n :: s.visited }) := by
  rw [visit]
  by_cases hseen : n ∈ s.visited ∨ g.capacity ≤ n
  · rw [if_pos hseen]
    exact Or.inl rfl
  rw [if_neg hseen]
  have hnew : n ∉ s.visited := fun hn => hseen (Or.inl hn)
  dsimp only
  by_cases hpush : s.found.length < ef ∨ nearer ties s.found (g.dist n) = true
  · rw [if_pos hpush]
    exact Or.inr (Or.inl ⟨hnew, hpush, rfl⟩)
  · rw [if_neg hpush]
    exact Or.inr (Or.inr ⟨hnew, hpush, rfl⟩)

/-- A node that does not change the queue, because it is dead or behind a full queue. -/
theorem best_pass {s : State D} (h : Best g ef s) {n : ℕ}
    (hpass : g.live n = true → ef ≤ s.found.length ∧ ∀ c ∈ s.found, c.distance ≤ g.dist n)
    (candidates : List (Cand D)) : Best g ef ⟨candidates, s.found, n :: s.visited⟩ := by
  refine ⟨fun c hc => ⟨List.mem_cons_of_mem _ (h.found c hc).1, (h.found c hc).2⟩, h.nodup,
    h.short, fun v hv hvlive => ?_⟩
  rcases List.mem_cons.mp hv with rfl | hv
  · exact Or.inr (hpass hvlive)
  · exact h.best v hv hvlive

/-- **One neighbour** keeps the queue best. -/
theorem visit_best {s : State D} (h : Best g ef s) (n : ℕ) : Best g ef (visit ties g ef s n) := by
  rcases visit_cases ties g ef s n with heq | ⟨hnew, hpush, heq⟩ | ⟨-, hpush, heq⟩
  · rw [heq]
    exact h
  · rw [heq]
    by_cases hlive : g.live n = true
    · rw [if_pos hlive]
      exact best_push ties h hnew hlive hpush _
    · rw [if_neg hlive]
      exact best_pass h (fun h' => absurd h' hlive) _
  · rw [heq]
    rw [not_or, not_lt] at hpush
    exact best_pass h (fun _ => ⟨hpush.1, le_of_not_nearer ties hpush.2⟩) _

theorem best_start (hef : 1 ≤ ef) (entry : ℕ) : Best g ef (start g entry) := by
  rw [start]
  refine ⟨fun c hc => ?_, ?_, ?_, fun v hv hvlive => ?_⟩
  · dsimp only at hc
    split_ifs at hc with hlive
    · rw [List.mem_singleton.mp hc]
      exact ⟨List.mem_singleton_self _, hlive, rfl⟩
    · simp at hc
  · dsimp only
    split_ifs
    · exact List.nodup_singleton _
    · exact List.nodup_nil
  · dsimp only
    split_ifs
    · exact hef
    · exact Nat.zero_le _
  · rw [List.mem_singleton.mp hv] at hvlive ⊢
    rw [if_pos hvlive]
    exact Or.inl (List.mem_singleton_self _)

/-- **The search returns the `ef` nearest** of the live nodes it visited. -/
theorem traverse_best (hef : 1 ≤ ef) {entry : ℕ} {s : State D}
    (h : traverse ties g ef entry = some s) : Best g ef s :=
  loop_state_invariant ties (P := Best g ef)
    (fun _ hs => ⟨hs.found, hs.nodup, hs.short, hs.best⟩)
    (fun _ n hs => visit_best ties hs n) _ _ s h (best_start hef entry)

/-- The queue, nearest first, as a ranking. -/
theorem Best.top {s : State D} (h : Best g ef s) :
    Ranking.Top Cand.distance Cand.id ef
      { c | c.id ∈ s.visited ∧ g.live c.id = true ∧ c.distance = g.dist c.id }
      (nearest_first ties s.found) := by
  have hperm := nearest_first_perm ties s.found
  refine ⟨nearest_first_sorted ties s.found, ?_, ?_, ?_, ?_, ?_⟩
  · exact (hperm.map Cand.id).nodup_iff.mpr h.nodup
  · intro c hc
    exact h.found c (hperm.mem_iff.mp hc)
  · rintro a ha c ⟨-, -, hc⟩ hid
    rw [(h.found a (hperm.mem_iff.mp ha)).2.2, hc, hid]
  · rw [hperm.length_eq]
    exact h.short
  · rintro c ⟨hv, hlive, hc⟩ hnot
    rw [(hperm.map Cand.id).mem_iff] at hnot
    obtain ⟨hfull, hfar⟩ := (h.best c.id hv hlive).resolve_left hnot
    rw [hperm.length_eq, hc]
    exact ⟨le_antisymm h.short hfull, fun a ha => hfar a (hperm.mem_iff.mp ha)⟩

/-! ## The nodes that are read -/

variable (g ef)

/-- Look at one neighbour: its record is read if it was not visited. -/
def visit_reads (s : State D) (n : ℕ) : List ℕ :=
  if n ∈ s.visited ∨ g.capacity ≤ n then [] else [n]

/-- The records read while the neighbours are visited one after the other. -/
def visits_reads : List ℕ → State D → List ℕ
  | [], _ => []
  | n :: ns, s => visit_reads g s n ++ visits_reads ns (visit ties g ef s n)

/-- The records read by `loop`: of every node that is expanded, and of its new neighbours. -/
def loop_reads : ℕ → State D → List ℕ
  | 0, _ => []
  | fuel + 1, s =>
      match ties.nearest.top s.candidates with
      | none => []
      | some curr =>
          if stops ties ef s.found curr then []
          else
            let popped := { s with candidates := ties.nearest.pop s.candidates }
            curr.id :: (visits_reads ties g ef (g.next curr.id) popped
              ++ loop_reads fuel ((g.next curr.id).foldl (visit ties g ef) popped))

/-- The records read by `search`. -/
def search_reads (entry : ℕ) : List ℕ :=
  entry :: loop_reads ties g ef (g.capacity + 1) (start g entry)

/-- The records read by `walk`: of every node it is at, and of all neighbours. -/
def walk_reads : ℕ → ℕ × D → List ℕ
  | 0, _ => []
  | fuel + 1, b =>
      let b' := (g.next b.1).foldl (scan g) b
      b.1 :: (g.next b.1 ++ if b'.2 < b.2 then walk_reads fuel b' else [])

section Closed

variable {g ef} {K : ℕ → Prop} (hK : ∀ i, K i → ∀ j ∈ g.next i, K j)

theorem visit_candidates {s : State D} (hs : ∀ c ∈ s.candidates, K c.id) {n : ℕ} (hn : K n) :
    ∀ c ∈ (visit ties g ef s n).candidates, K c.id := by
  rcases visit_cases ties g ef s n with heq | ⟨-, -, heq⟩ | ⟨-, -, heq⟩
  · rw [heq]
    exact hs
  · rw [heq]
    intro c hc
    rcases (Heap.mem_push _).mp hc with rfl | hc
    · exact hn
    · exact hs c hc
  · rw [heq]
    exact hs

theorem visits_reads_mem (ns : List ℕ) : ∀ s : State D, (∀ c ∈ s.candidates, K c.id) →
    (∀ n ∈ ns, K n) →
    (∀ c ∈ (ns.foldl (visit ties g ef) s).candidates, K c.id) ∧
      ∀ i ∈ visits_reads ties g ef ns s, K i := by
  induction ns with
  | nil =>
      intro s hs _
      exact ⟨hs, fun i hi => absurd hi List.not_mem_nil⟩
  | cons n ns ih =>
      intro s hs hns
      have hn := hns n List.mem_cons_self
      obtain ⟨hcand, hreads⟩ := ih _ (visit_candidates ties hs hn)
        (fun m hm => hns m (List.mem_cons_of_mem n hm))
      refine ⟨hcand, fun i hi => ?_⟩
      rcases List.mem_append.mp hi with hi | hi
      · rw [visit_reads] at hi
        split_ifs at hi
        · simp at hi
        · rw [List.mem_singleton.mp hi]
          exact hn
      · exact hreads i hi

include hK

theorem loop_reads_mem (fuel : ℕ) : ∀ s : State D, (∀ c ∈ s.candidates, K c.id) →
    ∀ i ∈ loop_reads ties g ef fuel s, K i := by
  induction fuel with
  | zero =>
      intro s _ i hi
      simp [loop_reads] at hi
  | succ fuel ih =>
      intro s hs i hi
      rw [loop_reads] at hi
      cases hnear : ties.nearest.top s.candidates with
      | none =>
          rw [hnear] at hi
          simp at hi
      | some curr =>
          rw [hnear] at hi
          dsimp only at hi
          split_ifs at hi
          · simp at hi
          · have hcurr := hs curr (ties.nearest.top_mem _ curr hnear).1
            obtain ⟨hcand, hreads⟩ := visits_reads_mem ties (g.next curr.id)
              { s with candidates := ties.nearest.pop s.candidates }
              (fun c hc => hs c ((Heap.mem_of_top hnear).mpr (Or.inr hc))) (hK _ hcurr)
            rcases List.mem_cons.mp hi with rfl | hi
            · exact hcurr
            rcases List.mem_append.mp hi with hi | hi
            · exact hreads i hi
            · exact ih _ hcand i hi

/-- **A search reads** only nodes of a closed set it starts in. -/
theorem search_reads_mem {entry : ℕ} (hentry : K entry) :
    ∀ i ∈ search_reads ties g ef entry, K i := by
  intro i hi
  rcases List.mem_cons.mp hi with rfl | hi
  · exact hentry
  · refine loop_reads_mem ties hK _ _ (fun c hc => ?_) i hi
    rw [List.mem_singleton.mp hc]
    exact hentry

/-- **A walk reads** only nodes of a closed set it starts in. -/
theorem walk_reads_mem (fuel : ℕ) : ∀ b : ℕ × D, b.2 = g.dist b.1 → K b.1 →
    ∀ i ∈ walk_reads g fuel b, K i := by
  induction fuel with
  | zero =>
      intro b _ _ i hi
      simp [walk_reads] at hi
  | succ fuel ih =>
      intro b hdist hb i hi
      obtain ⟨hdist', hstays, -⟩ := foldl_scan_spec g (g.next b.1) b hdist
      rcases List.mem_cons.mp hi with rfl | hi
      · exact hb
      rcases List.mem_append.mp hi with hi | hi
      · exact hK _ hb i hi
      · split_ifs at hi
        · refine ih _ hdist' ?_ i hi
          rcases hstays with heq | hmem
          · rw [heq]
            exact hb
          · exact hK _ hb _ hmem
        · simp at hi

end Closed

end Beam
