/-
Reachability in a graph on `0, ..., n - 1` by rounds of a frontier.

The edges are stored by compressed rows: they are sorted by source, and a table says where the
targets of each source begin. A round looks up the rows of the frontier and makes the targets that
were not seen before the next frontier. The rounds end with what can be reached (`rounds_spec`).

The array functions (`bincount`, `cumsum`, `unique`) are here as what they return.
-/
import Mathlib.Algebra.GroupWithZero.Nat
import Mathlib.Data.Finset.Card
import Mathlib.Data.Finset.Lattice.Basic
import Mathlib.Data.List.Dedup
import Mathlib.Data.List.GetD
import Mathlib.Data.List.Sort
import Mathlib.Logic.Relation

set_option autoImplicit false

namespace Frontier

/-! ## Array functions -/

/-- How often each of `0, ..., n - 1` occurs. -/
def bincount (n : ℕ) (xs : List ℕ) : List ℕ := (List.range n).map (fun v => xs.count v)

/-- The sums of the first elements. -/
def cumsum (l : List ℕ) : List ℕ := (List.range l.length).map (fun i => (l.take (i + 1)).sum)

/-- The distinct elements, ascending. -/
def unique (l : List ℕ) : List ℕ := l.dedup.insertionSort (· ≤ ·)

@[simp] theorem mem_unique {l : List ℕ} {x : ℕ} : x ∈ unique l ↔ x ∈ l := by
  simp [unique]

/-! ## Compressed rows -/

/-- The targets, and where those of each source begin and end. -/
structure Rows where
  start : List ℕ
  target : List ℕ

/-- The rows of a list of edges. -/
def Rows.of_edges (n : ℕ) (edges : List (ℕ × ℕ)) : Rows :=
  let sorted := edges.insertionSort (fun a b => a.1 ≤ b.1)
  { start := 0 :: cumsum (bincount n (sorted.map Prod.fst))
    target := sorted.map Prod.snd }

/-- Where the row of a source begins and where it ends. -/
def Rows.span (g : Rows) (v : ℕ) : ℕ × ℕ := (g.start.getD v 0, g.start.getD (v + 1) 0)

/-- The targets in a span. -/
def Rows.slice (g : Rows) (p : ℕ × ℕ) : List ℕ :=
  (List.range' p.1 (p.2 - p.1)).map (fun i => g.target.getD i 0)

theorem countP_lt_succ (xs : List ℕ) (i : ℕ) :
    xs.countP (fun x => decide (x < i + 1))
      = xs.countP (fun x => decide (x < i)) + xs.count i := by
  induction xs with
  | nil => rfl
  | cons x xs ih =>
      have hone : (if decide (x < i + 1) = true then 1 else 0)
          = (if decide (x < i) = true then 1 else 0) + (if (x == i) = true then 1 else 0) := by
        simp only [decide_eq_true_eq, beq_iff_eq]
        split_ifs <;> omega
      rw [List.countP_cons, List.countP_cons, List.count_cons]
      omega

/-- The sources below `i`, counted one by one. -/
theorem sum_take_bincount {n : ℕ} (xs : List ℕ) {i : ℕ} (hi : i ≤ n) :
    ((bincount n xs).take i).sum = xs.countP (fun x => decide (x < i)) := by
  induction i with
  | zero => simp
  | succ i ih =>
      have hlength : i < (bincount n xs).length := by
        rw [bincount, List.length_map, List.length_range]
        omega
      have hcount : (bincount n xs)[i] = xs.count i := by simp [bincount]
      rw [List.take_add_one, List.sum_append, ih (by omega), List.getElem?_eq_getElem hlength,
        hcount]
      rw [countP_lt_succ, Option.toList_some, List.sum_singleton]

/-- A row begins behind the edges with smaller sources. -/
theorem start_eq {n : ℕ} (edges : List (ℕ × ℕ)) {i : ℕ} (hi : i ≤ n) :
    (Rows.of_edges n edges).start.getD i 0
      = (edges.insertionSort (fun a b => a.1 ≤ b.1)).countP (fun e => decide (e.1 < i)) := by
  cases i with
  | zero => simp [Rows.of_edges]
  | succ i =>
      have hlength : i < (cumsum (bincount n ((edges.insertionSort
          (fun a b => a.1 ≤ b.1)).map Prod.fst))).length := by
        simp [cumsum, bincount]
        omega
      have hsum := sum_take_bincount ((edges.insertionSort (fun a b => a.1 ≤ b.1)).map Prod.fst) hi
      rw [List.countP_map] at hsum
      rw [Rows.of_edges, List.getD_cons_succ, List.getD_eq_getElem _ _ hlength]
      simp only [cumsum, List.getElem_map, List.getElem_range]
      exact hsum

/-- A list sorted by a key is cut at a value of the key. -/
theorem sorted_cut {α : Type*} {key : α → ℕ} {l : List α}
    (hsorted : l.Pairwise (fun a b => key a ≤ key b)) (i : ℕ) :
    l = l.filter (fun a => decide (key a < i)) ++ l.filter (fun a => decide (i ≤ key a)) := by
  induction l with
  | nil => rfl
  | cons a l ih =>
      obtain ⟨ha, hl⟩ := List.pairwise_cons.mp hsorted
      by_cases hlt : key a < i
      · have hnot : ¬ i ≤ key a := by omega
        rw [List.filter_cons_of_pos (by simpa using hlt),
          List.filter_cons_of_neg (by simpa using hnot), List.cons_append, ← ih hl]
      · have hnone : l.filter (fun b => decide (key b < i)) = [] := by
          rw [List.filter_eq_nil_iff]
          intro b hb
          have := ha b hb
          simp
          omega
        have hall : l.filter (fun b => decide (i ≤ key b)) = l := by
          rw [List.filter_eq_self]
          intro b hb
          have := ha b hb
          simp
          omega
        have hle : i ≤ key a := by omega
        rw [List.filter_cons_of_neg (by simpa using hlt),
          List.filter_cons_of_pos (by simpa using hle), hnone, hall, List.nil_append]

theorem sorted_take {α : Type*} {key : α → ℕ} {l : List α}
    (hsorted : l.Pairwise (fun a b => key a ≤ key b)) (i : ℕ) :
    l.take (l.countP (fun a => decide (key a < i))) = l.filter (fun a => decide (key a < i)) := by
  rw [List.countP_eq_length_filter]
  nth_rewrite 2 [sorted_cut hsorted i]
  exact List.take_left

theorem sorted_drop {α : Type*} {key : α → ℕ} {l : List α}
    (hsorted : l.Pairwise (fun a b => key a ≤ key b)) (i : ℕ) :
    l.drop (l.countP (fun a => decide (key a < i))) = l.filter (fun a => decide (i ≤ key a)) := by
  rw [List.countP_eq_length_filter]
  nth_rewrite 2 [sorted_cut hsorted i]
  exact List.drop_left

/-- Those between two values of the key. -/
theorem countP_between {α : Type*} (key : α → ℕ) {l : List α} {i j : ℕ} (hij : i ≤ j) :
    l.countP (fun a => decide (key a < j)) - l.countP (fun a => decide (key a < i))
      = (l.filter (fun a => decide (i ≤ key a))).countP (fun a => decide (key a < j)) := by
  have hsum : l.countP (fun a => decide (key a < j))
      = l.countP (fun a => decide (key a < i))
        + (l.filter (fun a => decide (i ≤ key a))).countP (fun a => decide (key a < j)) := by
    induction l with
    | nil => rfl
    | cons a l ih =>
        by_cases hi : key a < i
        · have hj : key a < j := by omega
          have hle : ¬ i ≤ key a := by omega
          rw [List.countP_cons_of_pos (by simpa using hj), ih,
            List.countP_cons_of_pos (by simpa using hi),
            List.filter_cons_of_neg (by simpa using hle)]
          omega
        · have hle : i ≤ key a := by omega
          have hnot : (if decide (key a < i) = true then 1 else 0) = 0 := by simp [hle]
          rw [List.filter_cons_of_pos (by simpa using hle), List.countP_cons, List.countP_cons,
            List.countP_cons, ih, hnot]
          omega
  omega

theorem slice_eq (g : Rows) {a b : ℕ} (hb : b ≤ g.target.length) :
    g.slice (a, b) = (g.target.drop a).take (b - a) := by
  apply List.ext_getElem
  · simp [Rows.slice]
    omega
  · intro i hi hi'
    have hlt : a + i < g.target.length := by
      simp [Rows.slice] at hi
      omega
    simp [Rows.slice, List.getElem?_eq_getElem hlt]

/-- **A row** has the edges of its source, in order. -/
theorem row_eq {n : ℕ} (edges : List (ℕ × ℕ)) {v : ℕ} (hv : v < n) :
    (Rows.of_edges n edges).slice ((Rows.of_edges n edges).span v)
      = (((edges.insertionSort (fun a b => a.1 ≤ b.1)).filter (fun e => decide (v ≤ e.1))).filter
          (fun e => decide (e.1 < v + 1))).map Prod.snd := by
  have : Std.Total (fun a b : ℕ × ℕ => a.1 ≤ b.1) := ⟨fun a b => le_total _ _⟩
  have : IsTrans (ℕ × ℕ) (fun a b => a.1 ≤ b.1) := ⟨fun _ _ _ => le_trans⟩
  have hsorted := List.pairwise_insertionSort (fun a b : ℕ × ℕ => a.1 ≤ b.1) edges
  have htarget : (Rows.of_edges n edges).target
      = (edges.insertionSort (fun a b => a.1 ≤ b.1)).map Prod.snd := rfl
  rw [Rows.span, start_eq edges hv.le, start_eq edges hv]
  generalize edges.insertionSort (fun a b => a.1 ≤ b.1) = l at htarget hsorted ⊢
  have hlength : l.countP (fun e => decide (e.1 < v + 1))
      ≤ (Rows.of_edges n edges).target.length := by
    rw [htarget, List.length_map]
    exact List.countP_le_length
  rw [slice_eq _ hlength, htarget, ← List.map_drop, ← List.map_take, sorted_drop hsorted v,
    countP_between Prod.fst (Nat.le_succ v), sorted_take (hsorted.filter _)]

/-- What a row has. -/
theorem mem_row {n : ℕ} {edges : List (ℕ × ℕ)} {v x : ℕ} (hv : v < n) :
    x ∈ (Rows.of_edges n edges).slice ((Rows.of_edges n edges).span v) ↔ (v, x) ∈ edges := by
  rw [row_eq edges hv, List.mem_map]
  simp only [List.mem_filter, decide_eq_true_eq, List.mem_insertionSort]
  constructor
  · rintro ⟨⟨u, y⟩, ⟨⟨he, hle⟩, hlt⟩, rfl⟩
    obtain rfl : u = v := by
      dsimp only at hle hlt
      omega
    exact he
  · intro he
    exact ⟨(v, x), ⟨⟨he, le_refl v⟩, Nat.lt_succ_self v⟩, rfl⟩

/-! ## Rounds -/

/-- The loop over the frontiers. -/
def rounds (g : Rows) : ℕ → Finset ℕ → List ℕ → Option (Finset ℕ)
  | 0, _, _ => none
  | fuel + 1, seen, frontier =>
      if frontier = [] then some seen
      else
        let spans := (frontier.map g.span).filter (fun p => 0 < p.2 - p.1)
        if spans = [] then some seen
        else
          let nxt := (unique (spans.flatMap g.slice)).filter (fun x => x ∉ seen)
          rounds g fuel (seen ∪ nxt.toFinset) nxt

/-- Between two rounds: everything that was seen can be reached, and only the frontier has
targets that were not seen. -/
structure Progress (g : Rows) (n entry : ℕ) (seen : Finset ℕ) (frontier : List ℕ) : Prop where
  root : entry ∈ seen
  range : ∀ v ∈ seen, v < n
  reached : ∀ v ∈ seen, Relation.ReflTransGen (fun a b => b ∈ g.slice (g.span a)) entry v
  front : ∀ v ∈ frontier, v ∈ seen
  closed : ∀ v ∈ seen, v ∉ frontier → ∀ x ∈ g.slice (g.span v), x ∈ seen

theorem Progress.start {g : Rows} {n entry : ℕ} (hentry : entry < n) :
    Progress g n entry {entry} [entry] where
  root := Finset.mem_singleton_self entry
  range := by
    intro v hv
    rwa [Finset.mem_singleton.mp hv]
  reached := by
    intro v hv
    rw [Finset.mem_singleton.mp hv]
  front := by
    intro v hv
    rwa [Finset.mem_singleton, ← List.mem_singleton]
  closed := by
    intro v hv hnot
    rw [Finset.mem_singleton, ← List.mem_singleton] at hv
    exact absurd hv hnot

/-- A span without elements has no row. -/
theorem mem_slices {g : Rows} {frontier : List ℕ} {x : ℕ} :
    x ∈ ((frontier.map g.span).filter (fun p => decide (0 < p.2 - p.1))).flatMap g.slice
      ↔ ∃ v ∈ frontier, x ∈ g.slice (g.span v) := by
  simp only [List.mem_flatMap, List.mem_filter, List.mem_map, decide_eq_true_eq]
  constructor
  · rintro ⟨p, ⟨⟨v, hv, rfl⟩, -⟩, hx⟩
    exact ⟨v, hv, hx⟩
  · rintro ⟨v, hv, hx⟩
    refine ⟨g.span v, ⟨⟨v, hv, rfl⟩, ?_⟩, hx⟩
    by_contra hzero
    have hempty : (g.span v).2 - (g.span v).1 = 0 := by omega
    rw [Rows.slice, hempty] at hx
    simp at hx

/-- **The end**: nothing that was seen has a target that was not. -/
theorem Progress.mem_iff {g : Rows} {n entry : ℕ} {seen : Finset ℕ} {frontier : List ℕ}
    (h : Progress g n entry seen frontier)
    (hend : ∀ v ∈ frontier, ∀ x ∈ g.slice (g.span v), x ∈ seen) (x : ℕ) :
    x ∈ seen ↔ Relation.ReflTransGen (fun a b => b ∈ g.slice (g.span a)) entry x := by
  constructor
  · exact h.reached x
  · intro hreach
    induction hreach with
    | refl => exact h.root
    | @tail a b _ hedge ih =>
        by_cases ha : a ∈ frontier
        · exact hend a ha b hedge
        · exact h.closed a ih ha b hedge

/-- One round. -/
theorem Progress.step {g : Rows} {n entry : ℕ} {seen : Finset ℕ} {frontier nxt : List ℕ}
    (hrange : ∀ v < n, ∀ x ∈ g.slice (g.span v), x < n)
    (h : Progress g n entry seen frontier)
    (hnxt : ∀ x, x ∈ nxt ↔ (∃ v ∈ frontier, x ∈ g.slice (g.span v)) ∧ x ∉ seen) :
    Progress g n entry (seen ∪ nxt.toFinset) nxt := by
  have hnew : ∀ x ∈ nxt, ∃ v ∈ seen, x ∈ g.slice (g.span v) := by
    intro x hx
    obtain ⟨⟨v, hv, hxv⟩, -⟩ := (hnxt x).mp hx
    exact ⟨v, h.front v hv, hxv⟩
  constructor
  · exact Finset.mem_union_left _ h.root
  · intro x hx
    rcases Finset.mem_union.mp hx with hx | hx
    · exact h.range x hx
    · obtain ⟨v, hv, hxv⟩ := hnew x (List.mem_toFinset.mp hx)
      exact hrange v (h.range v hv) x hxv
  · intro x hx
    rcases Finset.mem_union.mp hx with hx | hx
    · exact h.reached x hx
    · obtain ⟨v, hv, hxv⟩ := hnew x (List.mem_toFinset.mp hx)
      exact (h.reached v hv).tail hxv
  · intro x hx
    exact Finset.mem_union_right _ (List.mem_toFinset.mpr hx)
  · intro v hv hnot x hx
    have hseen : v ∈ seen :=
      (Finset.mem_union.mp hv).resolve_right (fun hm => hnot (List.mem_toFinset.mp hm))
    rw [Finset.mem_union, List.mem_toFinset, hnxt]
    by_cases hxs : x ∈ seen
    · exact Or.inl hxs
    · right
      refine ⟨?_, hxs⟩
      by_contra hout
      apply hxs
      apply h.closed v hseen _ x hx
      intro hfront
      exact hout ⟨v, hfront, hx⟩

theorem Progress.card_le {g : Rows} {n entry : ℕ} {seen : Finset ℕ} {frontier : List ℕ}
    (h : Progress g n entry seen frontier) : seen.card ≤ n := by
  have hsub : seen ⊆ Finset.range n := fun v hv => Finset.mem_range.mpr (h.range v hv)
  simpa using Finset.card_le_card hsub

/-- A round with a new node uses up the fuel of that node, and a round without ends the loop. -/
theorem Progress.fuel {g : Rows} {n entry fuel : ℕ} {seen : Finset ℕ} {frontier nxt : List ℕ}
    (hstep : Progress g n entry (seen ∪ nxt.toFinset) nxt)
    (hnxt : ∀ x, x ∈ nxt ↔ (∃ v ∈ frontier, x ∈ g.slice (g.span v)) ∧ x ∉ seen)
    (hfront : frontier ≠ [])
    (hfuel : n - seen.card + (if frontier = [] then 0 else 1) < fuel + 1) :
    n - (seen ∪ nxt.toFinset).card + (if nxt = [] then 0 else 1) < fuel := by
  rw [if_neg hfront] at hfuel
  by_cases hnil : nxt = []
  · rw [if_pos hnil, hnil, List.toFinset_nil, Finset.union_empty]
    omega
  · obtain ⟨x, hx⟩ := List.exists_mem_of_ne_nil nxt hnil
    have hlt : seen.card < (seen ∪ nxt.toFinset).card := by
      apply Finset.card_lt_card
      refine (Finset.ssubset_iff_of_subset Finset.subset_union_left).mpr ⟨x, ?_, ((hnxt x).mp hx).2⟩
      exact Finset.mem_union_right _ (List.mem_toFinset.mpr hx)
    have hle := hstep.card_le
    rw [if_neg hnil]
    omega

/-- **The rounds end** with what can be reached, if there is fuel for every node that was not
seen and for one more round. -/
theorem rounds_spec {g : Rows} {n entry : ℕ}
    (hrange : ∀ v < n, ∀ x ∈ g.slice (g.span v), x < n) (fuel : ℕ) :
    ∀ (seen : Finset ℕ) (frontier : List ℕ), Progress g n entry seen frontier →
      n - seen.card + (if frontier = [] then 0 else 1) < fuel →
      ∃ out, rounds g fuel seen frontier = some out ∧
        ∀ x, x ∈ out ↔ Relation.ReflTransGen (fun a b => b ∈ g.slice (g.span a)) entry x := by
  induction fuel with
  | zero =>
      intro seen frontier _ hfuel
      exact absurd hfuel (Nat.not_lt_zero _)
  | succ fuel ih =>
      intro seen frontier h hfuel
      rw [rounds]
      by_cases hfront : frontier = []
      · rw [if_pos hfront]
        refine ⟨seen, rfl, h.mem_iff ?_⟩
        intro v hv
        rw [hfront] at hv
        exact absurd hv List.not_mem_nil
      rw [if_neg hfront]
      dsimp only
      split_ifs with hspans
      · refine ⟨seen, rfl, h.mem_iff ?_⟩
        intro v hv x hx
        have hmem := mem_slices.mpr ⟨v, hv, hx⟩
        rw [hspans] at hmem
        exact absurd hmem List.not_mem_nil
      · have hnxt : ∀ x, x ∈ (unique (((frontier.map g.span).filter
            (fun p => decide (0 < p.2 - p.1))).flatMap g.slice)).filter
              (fun x => decide (x ∉ seen))
            ↔ (∃ v ∈ frontier, x ∈ g.slice (g.span v)) ∧ x ∉ seen := by
          intro x
          rw [List.mem_filter, mem_unique, mem_slices, decide_eq_true_eq]
        generalize (unique (((frontier.map g.span).filter
            (fun p => decide (0 < p.2 - p.1))).flatMap g.slice)).filter
              (fun x => decide (x ∉ seen)) = nxt at hnxt ⊢
        have hstep := h.step hrange hnxt
        exact ih _ _ hstep (hstep.fuel hnxt hfront hfuel)

end Frontier
