/-
The greedy descent through the upper layers, in `search` and in `insert` of
`include/index/hnsw.hpp`.

On each layer the source scans the list of the node it is at, and repeats that as long as a scan
changed something. `Hnsw.lean` has this as `descend`; here it is written with the variables of the
source, among them the flag, and without a bound on the rounds (`greedy_descent`, which has
`descend` as the case of one amount of fuel).

# The one awkward thing, named up front

The scan goes on in the list of the node it started at after `curr_obj` has moved: a neighbour is
compared with the best one so far, and not with the node whose list it is in. So a round can move
several times, and only the round that moves nowhere says something about the node one ends at.
What falls from round to round is the distance, and so the number of written nodes that are
nearer. Nothing here needs two distances to be comparable: a distance that is not a number is less
than none, and none is less than it.
-/
import NanoDB.HnswTable
import NanoDB.Lib.While

set_option autoImplicit false

namespace NanoDB.Index

/-! ## The loops of the source -/

/-- The variables of the descent on one layer. -/
structure Greedy (D : Type*) where
  curr_obj : ℕ
  dist : D
  changed : Bool
deriving DecidableEq, Repr

variable {V D : Type*} [Zero V]

section Order

variable [Preorder D] [DecidableLT D] (dist : V → V → D)

/-- The body of the scan. -/
def HNSW.look (s : HNSW V) (q : V) (g : Greedy D) (n_id : ℕ) : Greedy D :=
  let d := dist q (s.get_node n_id).vector
  if d < g.dist then { curr_obj := n_id, dist := d, changed := true } else g

/-- One round of the loop: `changed` is cleared, and the list of the current node is scanned. -/
def HNSW.greedy_round (s : HNSW V) (q : V) (l : ℕ) (g : Greedy D) : Greedy D :=
  (s.links l g.curr_obj).foldl (s.look dist q) { g with changed := false }

/-- `while (changed)` on one layer. -/
def HNSW.greedy_layer (s : HNSW V) (q : V) (fuel l : ℕ) (b : ℕ × D) : Option (ℕ × D) :=
  (While.run Greedy.changed (s.greedy_round dist q l) fuel ⟨b.1, b.2, true⟩).map
    (fun g => (g.curr_obj, g.dist))

/-- The descent through `layers`. -/
def HNSW.greedy_descent (s : HNSW V) (q : V) (fuel : ℕ) : List ℕ → ℕ × D → Option (ℕ × D)
  | [], b => some b
  | l :: layers, b => (s.greedy_layer dist q fuel l b).bind (s.greedy_descent q fuel layers)

/-! ## One round -/

section Round

variable (s : HNSW V) (q : V)

/-- A scan that finds nothing nearer leaves everything as it is; any other one ends, with the flag
set, at a node of the list that is nearer. -/
theorem foldl_look_cases (ns : List ℕ) :
    ∀ g : Greedy D, (ns.foldl (s.look dist q) g = g ∧
        ∀ n ∈ ns, ¬ dist q (s.get_node n).vector < g.dist) ∨
      ((ns.foldl (s.look dist q) g).changed = true ∧
        (ns.foldl (s.look dist q) g).dist < g.dist ∧
        (ns.foldl (s.look dist q) g).curr_obj ∈ ns ∧
        (ns.foldl (s.look dist q) g).dist
          = dist q (s.get_node (ns.foldl (s.look dist q) g).curr_obj).vector) := by
  induction ns with
  | nil =>
      intro g
      exact Or.inl ⟨rfl, fun n hn => absurd hn List.not_mem_nil⟩
  | cons n ns ih =>
      intro g
      rw [List.foldl_cons]
      by_cases hlt : dist q (s.get_node n).vector < g.dist
      · -- the scan moves here, and goes on from there
        have hlook : s.look dist q g n = ⟨n, dist q (s.get_node n).vector, true⟩ := if_pos hlt
        rw [hlook]
        rcases ih ⟨n, dist q (s.get_node n).vector, true⟩ with ⟨hstay, -⟩ | ⟨hc, hd, hmem, heq⟩
        · rw [hstay]
          exact Or.inr ⟨rfl, hlt, List.mem_cons_self, rfl⟩
        · exact Or.inr ⟨hc, hd.trans hlt, List.mem_cons_of_mem n hmem, heq⟩
      · have hlook : s.look dist q g n = g := if_neg hlt
        rw [hlook]
        rcases ih g with ⟨hstay, hnone⟩ | ⟨hc, hd, hmem, heq⟩
        · exact Or.inl ⟨hstay, List.forall_mem_cons.mpr ⟨hlt, hnone⟩⟩
        · exact Or.inr ⟨hc, hd, List.mem_cons_of_mem n hmem, heq⟩

/-- **A round** moves nowhere and finds the node to be a local minimum, or moves nearer. -/
theorem greedy_round_cases (l : ℕ) (g : Greedy D) :
    (s.greedy_round dist q l g = { g with changed := false } ∧
      ∀ n ∈ s.links l g.curr_obj, ¬ dist q (s.get_node n).vector < g.dist) ∨
    ((s.greedy_round dist q l g).changed = true ∧ (s.greedy_round dist q l g).dist < g.dist ∧
      (s.greedy_round dist q l g).curr_obj ∈ s.links l g.curr_obj ∧
      (s.greedy_round dist q l g).dist
        = dist q (s.get_node (s.greedy_round dist q l g).curr_obj).vector) :=
  foldl_look_cases dist s q (s.links l g.curr_obj) { g with changed := false }

end Round

variable {dist} {s : HNSW V} {q : V}

/-! ## One layer -/

/-- What every test of the flag finds, after a start at distance `d`: the distance is that of the
current node and no larger, and once the flag is clear the node has no nearer neighbour. -/
structure Descending (dist : V → V → D) (s : HNSW V) (q : V) (l : ℕ) (d : D) (g : Greedy D) :
    Prop where
  true_dist : g.dist = dist q (s.get_node g.curr_obj).vector
  le_start : g.dist ≤ d
  minimum : g.changed = false →
    ∀ n ∈ s.links l g.curr_obj, ¬ dist q (s.get_node n).vector < g.dist

/-- The written nodes nearer than `d`. -/
def nearer_written (dist : V → V → D) (s : HNSW V) (q : V) (d : D) : Finset ℕ :=
  s.nodes.keys.toFinset.filter (fun i => dist q (s.get_node i).vector < d)

/-- The measure: the nearer nodes, and one for the flag. -/
def rounds_left (dist : V → V → D) (s : HNSW V) (q : V) (g : Greedy D) : ℕ :=
  (nearer_written dist s q g.dist).card + if g.changed then 1 else 0

section Written

variable (dist q)
variable (hlinks : ∀ i l, ∀ j ∈ s.links l i, j ∈ s.nodes.keys)
include hlinks

/-- **One round** keeps the invariant and lowers the measure. -/
theorem descending_round {l : ℕ} {d : D} {g : Greedy D} (h : Descending dist s q l d g)
    (hchanged : g.changed = true) :
    Descending dist s q l d (s.greedy_round dist q l g) ∧
      rounds_left dist s q (s.greedy_round dist q l g) < rounds_left dist s q g := by
  rcases greedy_round_cases dist s q l g with ⟨hstay, hnone⟩ | ⟨hmoved, hlt, hmem, heq⟩
  · rw [hstay]
    refine ⟨⟨h.true_dist, h.le_start, fun _ => hnone⟩, ?_⟩
    simp [rounds_left, hchanged]
  · refine ⟨⟨heq, hlt.le.trans h.le_start, fun hclear => ?_⟩, ?_⟩
    · rw [hmoved] at hclear
      simp at hclear
    have hwritten : (s.greedy_round dist q l g).curr_obj ∈ s.nodes.keys.toFinset :=
      List.mem_toFinset.mpr (hlinks _ _ _ hmem)
    have hfewer := Beam.card_nearer_lt s.nodes.keys.toFinset
      (fun i => dist q (s.get_node i).vector) hwritten (heq ▸ hlt)
    rw [← heq] at hfewer
    rw [rounds_left, rounds_left, nearer_written, nearer_written, hmoved, hchanged]
    omega

/-- **One layer** ends at a local minimum that is no farther than the start. -/
theorem greedy_layer_spec (l i : ℕ) :
    ∃ j, (∀ fuel, s.nodes.keys.toFinset.card + 2 ≤ fuel →
        s.greedy_layer dist q fuel l (i, dist q (s.get_node i).vector)
          = some (j, dist q (s.get_node j).vector)) ∧
      dist q (s.get_node j).vector ≤ dist q (s.get_node i).vector ∧
      ∀ n ∈ s.links l j,
        ¬ dist q (s.get_node n).vector < dist q (s.get_node j).vector := by
  have hstart : Descending dist s q l (dist q (s.get_node i).vector)
      ⟨i, dist q (s.get_node i).vector, true⟩ :=
    ⟨rfl, le_refl _, fun h => by simp at h⟩
  have hfuel : rounds_left dist s q ⟨i, dist q (s.get_node i).vector, true⟩
      < s.nodes.keys.toFinset.card + 2 := by
    have hcard := Finset.card_filter_le s.nodes.keys.toFinset
      (fun k => dist q (s.get_node k).vector < dist q (s.get_node i).vector)
    simp only [rounds_left, nearer_written, if_true]
    omega
  obtain ⟨g, hrun, hg, hclear⟩ := While.total
    (P := Descending dist s q l (dist q (s.get_node i).vector)) (rounds_left dist s q)
    (fun g hg hchanged => descending_round dist q hlinks hg hchanged) _ _ hstart hfuel
  refine ⟨g.curr_obj, fun fuel hle => ?_, hg.true_dist ▸ hg.le_start, ?_⟩
  · rw [HNSW.greedy_layer, While.run_of_le hrun hle, Option.map_some, hg.true_dist]
  · intro n hn
    rw [← hg.true_dist]
    exact hg.minimum hclear n hn

/-! ## The layers -/

/-- **The descent** through any layers ends no farther than it starts, at a local minimum of the
last layer. -/
theorem greedy_descent_spec (layers : List ℕ) :
    ∀ i, ∃ j, (∀ fuel, s.nodes.keys.toFinset.card + 2 ≤ fuel →
        s.greedy_descent dist q fuel layers (i, dist q (s.get_node i).vector)
          = some (j, dist q (s.get_node j).vector)) ∧
      dist q (s.get_node j).vector ≤ dist q (s.get_node i).vector ∧
      ∀ l, layers.getLast? = some l → ∀ n ∈ s.links l j,
        ¬ dist q (s.get_node n).vector < dist q (s.get_node j).vector := by
  induction layers with
  | nil =>
      intro i
      exact ⟨i, fun _ _ => rfl, le_refl _, fun l hl => by simp at hl⟩
  | cons l layers ih =>
      intro i
      obtain ⟨k, hlayer, hle, hminimum⟩ := greedy_layer_spec dist q hlinks l i
      obtain ⟨j, hrest, hle', hlast⟩ := ih k
      refine ⟨j, fun fuel hfuel => ?_, hle'.trans hle, fun l' hl' => ?_⟩
      · rw [HNSW.greedy_descent, hlayer fuel hfuel]
        exact hrest fuel hfuel
      · cases layers with
        | nil =>
            -- this was the last layer, and the descent ends where it ends here
            have hsame := hrest _ (le_refl _)
            rw [HNSW.greedy_descent, Option.some.injEq, Prod.mk.injEq] at hsame
            obtain rfl : l = l' := by simpa using hl'
            rw [← hsame.1]
            exact hminimum
        | cons l₂ layers =>
            rw [List.getLast?_cons_cons] at hl'
            exact hlast l' hl'

end Written

/-- The last layer of a descent to above `lo`. -/
theorem layers_down_getLast {hi lo : ℕ} (h : lo < hi) :
    (layers_down hi lo).getLast? = some (lo + 1) := by
  rw [layers_down, List.getLast?_reverse, List.head?_range', if_neg (by omega)]

/-- **The greedy descent ends at a local minimum.** Let links lead to written nodes, and let a
descent start anywhere and go down from layer `hi` to the one above `lo`: `search` does this with
0 for `lo`, `insert` with the level of the new node. Then the loops end. The node they end at is
no farther from the query than the start, and has no nearer neighbour on the lowest layer. -/
theorem descent_ends_at_local_minimum (dist : V → V → D) {s : HNSW V}
    (hclosed : s.Closed (fun i => i ∈ s.nodes.keys)) (q : V) (start hi lo : ℕ) :
    ∃ j, (∃ enough, ∀ fuel, enough ≤ fuel →
        s.greedy_descent dist q fuel (layers_down hi lo) (start, dist q (s.get_node start).vector)
          = some (j, dist q (s.get_node j).vector)) ∧
      dist q (s.get_node j).vector ≤ dist q (s.get_node start).vector ∧
      (lo < hi → ∀ n ∈ s.links (lo + 1) j,
        ¬ dist q (s.get_node n).vector < dist q (s.get_node j).vector) := by
  obtain ⟨j, hends, hle, hminimum⟩ :=
    greedy_descent_spec dist q (links_written hclosed) (layers_down hi lo) start
  exact ⟨j, ⟨_, hends⟩, hle, fun h => hminimum (lo + 1) (layers_down_getLast h)⟩

/-- Three nodes on layer 1: a link to itself, one twice, and a way round. -/
def looped : HNSW ℤ where
  nodes := [(0, ⟨0, 1, false, 0, [(1, [0, 1, 1])]⟩), (1, ⟨1, 1, false, 6, [(1, [2, 0])]⟩),
    (2, ⟨2, 1, false, 9, [(1, [2, 0])]⟩)]
  storage_size := slot_end 2
  entry_point_id := 0
  current_max_layer := 1

theorem looped_closed : looped.Closed (fun i => i ∈ looped.nodes.keys) := by
  intro i hi l
  by_cases hl : l = 1
  · subst hl
    revert i
    decide
  · have hone : ∀ i ∈ looped.nodes.keys, (looped.get_node i).neighbors.keys = [1] := by decide
    have hkeys : l ∉ (looped.get_node i).neighbors.keys := by
      rw [hone i hi]
      simpa using hl
    rw [HNSW.links, Store.get_of_not_mem _ _ hkeys]
    exact fun j hj => absurd hj List.not_mem_nil

theorem looped_descent_ends :
    ∃ j, (∃ enough, ∀ fuel, enough ≤ fuel →
        looped.greedy_descent (fun a b => (a - b).natAbs) 10 fuel (layers_down 1 0)
          (0, (10 - (looped.get_node 0).vector).natAbs)
          = some (j, (10 - (looped.get_node j).vector).natAbs)) ∧
      (10 - (looped.get_node j).vector).natAbs ≤ (10 - (looped.get_node 0).vector).natAbs ∧
      (0 < 1 → ∀ n ∈ looped.links 1 j,
        ¬ (10 - (looped.get_node n).vector).natAbs < (10 - (looped.get_node j).vector).natAbs) :=
  descent_ends_at_local_minimum (fun a b => (a - b).natAbs) looped_closed 10 0 1 0

end Order

/-! ## The model of the index -/

section Model

variable [LinearOrder D] {dist : V → V → D} {s : HNSW V} {q : V}

/-- The scan with the flag and the one without. -/
theorem foldl_scan_eq (l : ℕ) (ns : List ℕ) :
    ∀ g : Greedy D, ns.foldl (Beam.scan (s.query dist q l)) (g.curr_obj, g.dist)
      = ((ns.foldl (s.look dist q) g).curr_obj, (ns.foldl (s.look dist q) g).dist) := by
  induction ns with
  | nil =>
      intro g
      rfl
  | cons n ns ih =>
      intro g
      have hstep : Beam.scan (s.query dist q l) (g.curr_obj, g.dist) n
          = ((s.look dist q g n).curr_obj, (s.look dist q g n).dist) := by
        by_cases hlt : dist q (s.get_node n).vector < g.dist
        · rw [HNSW.look, if_pos hlt]
          exact if_pos hlt
        · rw [HNSW.look, if_neg hlt]
          exact if_neg hlt
      rw [List.foldl_cons, List.foldl_cons, hstep, ih]

/-- One layer of `descend` is one layer here; the first test of the flag comes on top. -/
theorem walk_eq (l fuel : ℕ) :
    ∀ b : ℕ × D, Beam.walk (s.query dist q l) fuel b = s.greedy_layer dist q (fuel + 1) l b := by
  induction fuel with
  | zero =>
      intro b
      rfl
  | succ fuel ih =>
      intro b
      have hscan : ((s.query dist q l).next b.1).foldl (Beam.scan (s.query dist q l)) b
          = ((s.greedy_round dist q l ⟨b.1, b.2, true⟩).curr_obj,
            (s.greedy_round dist q l ⟨b.1, b.2, true⟩).dist) :=
        foldl_scan_eq l (s.links l b.1) ⟨b.1, b.2, false⟩
      rw [Beam.walk, HNSW.greedy_layer, While.run, if_pos rfl, hscan]
      dsimp only
      have hcases := greedy_round_cases dist s q l ⟨b.1, b.2, true⟩
      generalize s.greedy_round dist q l ⟨b.1, b.2, true⟩ = g at hcases
      obtain ⟨curr_obj, d, changed⟩ := g
      rcases hcases with ⟨hstay, -⟩ | ⟨hmoved, hlt, -⟩
      · obtain ⟨rfl, rfl, rfl⟩ := Greedy.mk.inj hstay
        rw [if_neg (lt_irrefl _), While.run, if_neg (by simp)]
        rfl
      · obtain rfl : changed = true := hmoved
        rw [if_pos hlt, ih, HNSW.greedy_layer]

/-- `descend` is the descent with one amount of fuel. -/
theorem descend_eq (layers : List ℕ) :
    ∀ b : ℕ × D, s.descend dist q layers b
      = s.greedy_descent dist q (s.capacity + 2) layers b := by
  induction layers with
  | nil =>
      intro b
      rfl
  | cons l layers ih =>
      intro b
      rw [HNSW.descend, HNSW.greedy_descent, walk_eq]
      exact congrArg _ (funext ih)

/-- On a sound index the fuel of `descend` is enough, so the descents of `search` and of `insert`
end at a local minimum. -/
theorem descend_local_minimum (hs : s.Sound) (start hi lo : ℕ) :
    ∃ j, s.descend dist q (layers_down hi lo) (start, dist q (s.get_node start).vector)
        = some (j, dist q (s.get_node j).vector) ∧
      dist q (s.get_node j).vector ≤ dist q (s.get_node start).vector ∧
      (lo < hi → ∀ n ∈ s.links (lo + 1) j,
        dist q (s.get_node j).vector ≤ dist q (s.get_node n).vector) := by
  obtain ⟨j, hends, hle, hminimum⟩ :=
    greedy_descent_spec dist q (links_written hs.region.closed) (layers_down hi lo) start
  refine ⟨j, ?_, hle, fun h n hn => not_lt.mp (hminimum _ (layers_down_getLast h) n hn)⟩
  rw [descend_eq]
  apply hends
  have hsub : s.nodes.keys.toFinset ⊆ Finset.range s.capacity := by
    intro i hi
    exact Finset.mem_range.mpr (hs.region.range i (List.mem_toFinset.mp hi))
  have hcard := Finset.card_le_card hsub
  rw [Finset.card_range] at hcard
  omega

end Model

end NanoDB.Index
