/-
Grouping a list by a key.

`groups key l` is what a map from keys to lists holds after every element of `l` was appended to
the list of its key, read in ascending order of the keys. Every group has an element, the keys
are distinct, and a group has its elements in the order of `l`. `collect` is the same for a map
that is read in the order in which the keys came.
-/
import Mathlib.Data.Finset.Dedup
import Mathlib.Data.Finset.Filter
import Mathlib.Data.Finset.Card
import Mathlib.Data.List.Dedup
import Mathlib.Data.List.Sort

set_option autoImplicit false

namespace Grouping

variable {α κ : Type*} [LinearOrder κ] (key : α → κ)

/-- The elements of a list with a given key. -/
def group (l : List α) (k : κ) : List α := l.filter (fun x => decide (key x = k))

/-- The distinct keys, ascending. -/
def keys (l : List α) : List κ := (l.map key).dedup.insertionSort (· ≤ ·)

/-- The groups, by ascending key. -/
def groups (l : List α) : List (κ × List α) := (keys key l).map (fun k => (k, group key l k))

variable {key}

@[simp] theorem mem_group {l : List α} {k : κ} {x : α} : x ∈ group key l k ↔ x ∈ l ∧ key x = k := by
  simp [group]

@[simp] theorem mem_keys {l : List α} {k : κ} : k ∈ keys key l ↔ ∃ x ∈ l, key x = k := by
  simp [keys]

theorem mem_groups {l : List α} {g : κ × List α} :
    g ∈ groups key l ↔ (∃ x ∈ l, key x = g.1) ∧ g.2 = group key l g.1 := by
  rw [groups, List.mem_map]
  constructor
  · rintro ⟨k, hk, rfl⟩
    exact ⟨mem_keys.mp hk, rfl⟩
  · rintro ⟨hk, hg⟩
    exact ⟨g.1, mem_keys.mpr hk, Prod.ext rfl hg.symm⟩

/-- The keys ascend strictly. -/
theorem keys_ascending (l : List α) : (keys key l).Pairwise (· < ·) := by
  have hsorted : (keys key l).Pairwise (· ≤ ·) := List.pairwise_insertionSort _ _
  have hnodup : (keys key l).Nodup :=
    (List.perm_insertionSort _ _).nodup_iff.mpr (List.nodup_dedup _)
  exact hsorted.imp₂ (fun _ _ hle hne => lt_of_le_of_ne hle hne) hnodup

theorem groups_ascending (l : List α) : (groups key l).Pairwise (fun a b => a.1 < b.1) :=
  List.pairwise_map.mpr (keys_ascending l)

/-! ## In order of first appearance -/

section Collect

variable {ι β : Type*} [DecidableEq ι]

/-- Append to the list of a key; a new key comes last. -/
def append_to (k : ι) (x : β) : List (ι × List β) → List (ι × List β)
  | [] => [(k, [x])]
  | (j, g) :: d => if j = k then (j, g ++ [x]) :: d else (j, g) :: append_to k x d

/-- The lists of all keys. -/
def collect (l : List (ι × β)) : List (ι × List β) :=
  l.foldl (fun d e => append_to e.1 e.2 d) []

/-- The values of a key. -/
def values (l : List (ι × β)) (k : ι) : List β :=
  l.filterMap (fun e => if e.1 = k then some e.2 else none)

@[simp] theorem mem_values {l : List (ι × β)} {k : ι} {x : β} : x ∈ values l k ↔ (k, x) ∈ l := by
  simp only [values, List.mem_filterMap]
  constructor
  · rintro ⟨e, he, hx⟩
    split_ifs at hx with hk
    obtain rfl := Option.some.inj hx
    rwa [← hk]
  · intro h
    exact ⟨(k, x), h, by simp⟩

/-- One more element: every key keeps its place. -/
theorem append_to_map {ks : List ι} (hnodup : ks.Nodup) (f : ι → List β) {k : ι}
    (hnew : k ∉ ks → f k = []) (x : β) :
    append_to k x (ks.map (fun j => (j, f j)))
      = (if k ∈ ks then ks else ks ++ [k]).map
          (fun j => (j, if j = k then f j ++ [x] else f j)) := by
  induction ks with
  | nil => simp [append_to, hnew]
  | cons j ks ih =>
      obtain ⟨hj, hks⟩ := List.nodup_cons.mp hnodup
      rw [List.map_cons, append_to]
      by_cases hjk : j = k
      · subst hjk
        have hrest : ks.map (fun i => (i, if i = j then f i ++ [x] else f i))
            = ks.map (fun i => (i, f i)) := by
          apply List.map_congr_left
          intro i hi
          have hne : i ≠ j := fun h => hj (h ▸ hi)
          rw [if_neg hne]
        rw [if_pos rfl, if_pos List.mem_cons_self, List.map_cons, hrest, if_pos rfl]
      · have hrest := ih hks (fun h => hnew (by simp [h, Ne.symm hjk]))
        rw [if_neg hjk, hrest]
        by_cases hk : k ∈ ks <;> simp [hk, hjk, Ne.symm hjk]

/-- **What is collected**: every key once, with all its values. -/
theorem collect_eq (l : List (ι × β)) :
    ∃ ks : List ι, ks.Nodup ∧ (∀ k, k ∈ ks ↔ k ∈ l.map Prod.fst) ∧
      collect l = ks.map (fun k => (k, values l k)) := by
  induction l using List.reverseRecOn with
  | nil => exact ⟨[], List.nodup_nil, by simp, rfl⟩
  | append_singleton l e ih =>
      obtain ⟨ks, hnodup, hmem, heq⟩ := ih
      have hnew : e.1 ∉ ks → values l e.1 = [] := by
        intro he
        apply List.eq_nil_iff_forall_not_mem.mpr
        intro x hx
        exact he ((hmem e.1).mpr (List.mem_map.mpr ⟨(e.1, x), mem_values.mp hx, rfl⟩))
      have hvalues : ∀ k, values (l ++ [e]) k
          = if k = e.1 then values l k ++ [e.2] else values l k := by
        intro k
        by_cases hk : k = e.1
        · simp [values, hk]
        · simp [values, hk, Ne.symm hk]
      have hcollect : collect (l ++ [e])
          = (if e.1 ∈ ks then ks else ks ++ [e.1]).map (fun k => (k, values (l ++ [e]) k)) := by
        rw [collect, List.foldl_append, List.foldl_cons, List.foldl_nil, ← collect, heq,
          append_to_map hnodup _ hnew]
        simp only [hvalues]
      refine ⟨_, ?_, ?_, hcollect⟩
      · split_ifs with he
        · exact hnodup
        · exact List.nodup_append.mpr ⟨hnodup, by simp, by
            intro k hk j hj
            obtain rfl := List.mem_singleton.mp hj
            exact fun h => he (h ▸ hk)⟩
      · intro k
        split_ifs with he
        · rw [hmem, List.map_append, List.mem_append]
          constructor
          · exact Or.inl
          · rintro (h | h)
            · exact h
            · obtain rfl : k = e.1 := by simpa using h
              exact (hmem _).mp he
        · simp [hmem]

/-- Counting lists is counting keys. -/
theorem countP_collect (l : List (ι × β)) (p : List β → Prop) [DecidablePred p] :
    ((collect l).map Prod.snd).countP (fun g => p g)
      = ((l.map Prod.fst).toFinset.filter (fun k => p (values l k))).card := by
  obtain ⟨ks, hnodup, hmem, heq⟩ := collect_eq l
  have hkeys : (l.map Prod.fst).toFinset = ks.toFinset := by
    ext k
    rw [List.mem_toFinset, List.mem_toFinset, hmem]
  rw [heq, List.map_map, List.countP_map, hkeys, List.countP_eq_length_filter,
    ← List.toFinset_card_of_nodup (hnodup.filter _)]
  congr 1
  ext k
  simp

end Collect

end Grouping
