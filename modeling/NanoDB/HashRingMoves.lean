/-
Which keys move when a shard joins the ring.

`HashRing::route` is a `lower_bound` in the sorted points with a wrap-around, so it picks the
owner of the key's position (`Successor.Owns`), and nothing about the hashes matters: not
their values, not that two virtual nodes may collide, in which case `std::sort` puts the
smaller shard id first.

# The one awkward thing, named up front

`build` does not remove repetitions: a shard id given twice has its virtual nodes in the ring
twice. So the ring is the same for the same set of ids only up to repeated points; in another
order it is the same ring. No route can tell.
-/
import Mathlib.Data.List.Dedup
import NanoDB.HashRing
import NanoDB.Lib.Successor

set_option autoImplicit false

namespace NanoDB.Coord

open Successor

/-! ## The order of the points -/

/-- The order `std::sort` uses on the points. -/
def point_le (a b : UInt64 × ℤ) : Prop := a.1 < b.1 ∨ (a.1 = b.1 ∧ a.2 ≤ b.2)

theorem point_le_iff (a b : UInt64 × ℤ) :
    point_le a b ↔ a.1.toNat < b.1.toNat ∨ (a.1.toNat = b.1.toNat ∧ a.2 ≤ b.2) := by
  rw [point_le, UInt64.lt_iff_toNat_lt, UInt64.toNat_inj]

theorem point_le_refl (a : UInt64 × ℤ) : point_le a a := Or.inr ⟨rfl, le_refl _⟩

theorem point_le_trans {a b c : UInt64 × ℤ} (hab : point_le a b) (hbc : point_le b c) :
    point_le a c := by
  rw [point_le_iff] at *
  omega

theorem point_le_total (a b : UInt64 × ℤ) : point_le a b ∨ point_le b a := by
  rw [point_le_iff, point_le_iff]
  omega

theorem point_le_antisymm (a b : UInt64 × ℤ) (hab : point_le a b) (hba : point_le b a) :
    a = b := by
  rw [point_le_iff] at *
  exact Prod.ext (UInt64.toNat_inj.mp (by omega)) (by omega)

/-! ## The points of a ring -/

/-- The virtual nodes of some shards. -/
def vnodes (shard_ids : List ℤ) : List (UInt64 × ℤ) :=
  shard_ids.flatMap (fun sid => (List.range VIRTUAL_NODES_PER_SHARD).map
    (fun v => (chained_vnode_point sid v, sid)))

theorem build_perm (shard_ids : List ℤ) :
    (HashRing.build shard_ids).ring.Perm (vnodes shard_ids) := List.mergeSort_perm _ _

theorem build_sorted (shard_ids : List ℤ) :
    (HashRing.build shard_ids).ring.Pairwise point_le := by
  have h : (HashRing.build shard_ids).ring.Pairwise
      (fun a b => decide (a.1 < b.1 ∨ (a.1 = b.1 ∧ a.2 ≤ b.2)) = true) := by
    apply List.pairwise_mergeSort
    · intro a b c hab hbc
      rw [decide_eq_true_iff] at *
      exact point_le_trans hab hbc
    · intro a b
      rw [Bool.or_eq_true, decide_eq_true_iff, decide_eq_true_iff]
      exact point_le_total a b
  exact h.imp of_decide_eq_true

theorem mem_build {shard_ids : List ℤ} {p : UInt64 × ℤ} :
    p ∈ (HashRing.build shard_ids).ring
      ↔ p.2 ∈ shard_ids ∧ ∃ v < VIRTUAL_NODES_PER_SHARD, p.1 = chained_vnode_point p.2 v := by
  rw [(build_perm shard_ids).mem_iff, vnodes, List.mem_flatMap]
  constructor
  · rintro ⟨sid, hsid, hp⟩
    obtain ⟨v, hv, rfl⟩ := List.mem_map.mp hp
    exact ⟨hsid, v, List.mem_range.mp hv, rfl⟩
  · rintro ⟨hsid, v, hv, hp⟩
    exact ⟨p.2, hsid, List.mem_map.mpr ⟨v, List.mem_range.mpr hv, Prod.ext hp.symm rfl⟩⟩

/-- Another order of the ids gives the same ring. -/
theorem build_congr_perm {S T : List ℤ} (h : T.Perm S) :
    (HashRing.build T).ring = (HashRing.build S).ring := by
  have hperm : (HashRing.build T).ring.Perm (HashRing.build S).ring :=
    (build_perm T).trans ((h.flatMap_right _).trans (build_perm S).symm)
  exact hperm.eq_of_pairwise (fun a b _ _ => point_le_antisymm a b) (build_sorted T)
    (build_sorted S)

/-- The same ids, some of them repeated, give the same points. -/
theorem build_dedup_congr {S T : List ℤ} (h : ∀ sid, sid ∈ T ↔ sid ∈ S) :
    (HashRing.build T).ring.dedup = (HashRing.build S).ring.dedup := by
  have hmem : ∀ p, p ∈ (HashRing.build T).ring.dedup ↔ p ∈ (HashRing.build S).ring.dedup := by
    intro p
    rw [List.mem_dedup, List.mem_dedup, mem_build, mem_build, h]
  exact ((List.perm_ext_iff_of_nodup (List.nodup_dedup _) (List.nodup_dedup _)).mpr
    hmem).eq_of_pairwise (fun a b _ _ => point_le_antisymm a b)
      ((build_sorted T).sublist (List.dedup_sublist _))
      ((build_sorted S).sublist (List.dedup_sublist _))

/-! ## Routes -/

/-- `std::lower_bound` with the wrap-around finds the owner of the position. -/
theorem route_owns {shard_ids : List ℤ} (h : shard_ids ≠ []) (external_id : List UInt8) :
    ∃ p, Owns point_le (fun point => decide (point.1 < well_mixed_hash external_id))
        {q | q ∈ (HashRing.build shard_ids).ring} p ∧
      (HashRing.build shard_ids).route external_id = p.2 := by
  obtain ⟨first, rest, hring⟩ := List.exists_cons_of_ne_nil (ring_ne_nil h)
  have hroute : ∃ p, pick (fun point => decide (point.1 < well_mixed_hash external_id))
      (HashRing.build shard_ids).ring = some p ∧
      (HashRing.build shard_ids).route external_id = p.2 := by
    unfold HashRing.route pick
    dsimp only
    cases hfind : (HashRing.build shard_ids).ring.find?
        (fun point => !decide (point.1 < well_mixed_hash external_id)) with
    | some p => exact ⟨p, rfl, rfl⟩
    | none =>
        rw [hring]
        exact ⟨first, rfl, rfl⟩
  obtain ⟨p, hpick, hp⟩ := hroute
  exact ⟨p, pick_owns point_le_refl (build_sorted shard_ids) hpick, hp⟩

/-- **A larger ring** sends a key where the smaller one does, or to one of the new shards. -/
theorem route_of_subset {S T : List ℤ} (hS : S ≠ []) (hsub : ∀ sid ∈ S, sid ∈ T)
    (external_id : List UInt8) :
    (HashRing.build T).route external_id = (HashRing.build S).route external_id ∨
      (HashRing.build T).route external_id ∉ S := by
  obtain ⟨sid, hsid⟩ := List.exists_mem_of_ne_nil S hS
  have hT : T ≠ [] := List.ne_nil_of_mem (hsub sid hsid)
  obtain ⟨p, hp, hroute⟩ := route_owns hS external_id
  obtain ⟨q, hq, hroute'⟩ := route_owns hT external_id
  rw [hroute, hroute']
  by_cases hold : q.2 ∈ S
  · -- the owner in the larger ring is a point of the smaller one
    have hpoints : {p | p ∈ (HashRing.build S).ring} ⊆ {p | p ∈ (HashRing.build T).ring} :=
      fun p hp => mem_build.mpr ⟨hsub _ (mem_build.mp hp).1, (mem_build.mp hp).2⟩
    have hmem : q ∈ (HashRing.build S).ring := mem_build.mpr ⟨hold, (mem_build.mp hq.mem).2⟩
    rw [(hq.mono hpoints hmem).unique point_le_antisymm hp]
    exact Or.inl rfl
  · exact Or.inr hold

/-- Routes depend on the set of ids. -/
theorem route_congr {S T : List ℤ} (hS : S ≠ []) (h : ∀ sid, sid ∈ T ↔ sid ∈ S)
    (external_id : List UInt8) :
    (HashRing.build T).route external_id = (HashRing.build S).route external_id := by
  obtain ⟨sid, hsid⟩ := List.exists_mem_of_ne_nil S hS
  have hT : T ≠ [] := List.ne_nil_of_mem ((h sid).mpr hsid)
  exact (route_of_subset hS (fun sid hsid => (h sid).mpr hsid) external_id).resolve_right
    (fun hnot => hnot ((h _).mp (route_mem hT external_id)))

/-! ## Evaluating a route -/

theorem chained_vnode_point_succ (sid : ℤ) (v : ℕ) :
    chained_vnode_point sid (v + 1) = fnv1a_64 (to_string (chained_vnode_point sid v).toNat) := by
  rw [chained_vnode_point, List.range_succ, List.foldl_append]
  rfl

/-- The next `n` points of a chain lie outside of an arc. The chain is walked once, where
`chained_vnode_point` starts from its beginning for every point. -/
def skips (low high : UInt64) : ℕ → UInt64 → Bool
  | 0, _ => true
  | n + 1, point => (decide (point < low) || decide (high < point)) &&
      skips low high n (fnv1a_64 (to_string point.toNat))

theorem skips_from {low high : UInt64} {sid : ℤ} : ∀ {n v : ℕ},
    skips low high n (chained_vnode_point sid v) = true → ∀ w, v ≤ w → w < v + n →
      chained_vnode_point sid w < low ∨ high < chained_vnode_point sid w
  | 0, v, _, w, hle, hlt => absurd hlt (by omega)
  | n + 1, v, h, w, hle, hlt => by
      rw [skips, ← chained_vnode_point_succ, Bool.and_eq_true, Bool.or_eq_true,
        decide_eq_true_iff, decide_eq_true_iff] at h
      rcases Nat.eq_or_lt_of_le hle with rfl | hgt
      · exact h.1
      · exact skips_from h.2 w hgt (by omega)

theorem skips_spec {low high : UInt64} {sid : ℤ}
    (h : skips low high VIRTUAL_NODES_PER_SHARD (chained_vnode_point sid 0) = true) :
    ∀ w < VIRTUAL_NODES_PER_SHARD,
      chained_vnode_point sid w < low ∨ high < chained_vnode_point sid w :=
  fun w hw => skips_from h w (Nat.zero_le w) (by omega)

/-- A shard has the key if no other one has a point between the key and one of its own. -/
theorem route_of_skips {shard_ids : List ℤ} {sid : ℤ} (hsid : sid ∈ shard_ids) {v : ℕ}
    (hv : v < VIRTUAL_NODES_PER_SHARD) {external_id : List UInt8}
    (hpoint : ¬ chained_vnode_point sid v < well_mixed_hash external_id)
    (hskips : ∀ other ∈ shard_ids, other ≠ sid → ∀ w < VIRTUAL_NODES_PER_SHARD,
      chained_vnode_point other w < well_mixed_hash external_id ∨
        chained_vnode_point sid v < chained_vnode_point other w) :
    (HashRing.build shard_ids).route external_id = sid := by
  obtain ⟨p, hp, hroute⟩ := route_owns (List.ne_nil_of_mem hsid) external_id
  rw [hroute]
  by_contra hne
  obtain ⟨hmem, w, hw, hpw⟩ := mem_build.mp hp.mem
  have hq : (chained_vnode_point sid v, sid) ∈ (HashRing.build shard_ids).ring :=
    mem_build.mpr ⟨hsid, v, hv, rfl⟩
  rcases hskips p.2 hmem hne w hw with hbelow | habove
  · -- then every point is below, and this one is not
    rw [← hpw] at hbelow
    exact hpoint (of_decide_eq_true (hp.wraps (decide_eq_true hbelow) _ hq))
  · rw [← hpw] at habove
    have hp' : ¬ p.1 < well_mixed_hash external_id := by
      rw [UInt64.lt_iff_toNat_lt] at *
      omega
    have hle := hp.least _ hq (by rw [decide_eq_false hpoint, decide_eq_false hp'])
    rw [point_le_iff] at hle
    dsimp only at hle
    rw [UInt64.lt_iff_toNat_lt] at habove
    omega

/-- Shard 0 has no point between the key "1" and the first virtual node of shard 1. -/
theorem shard_0_skips : ∀ w < VIRTUAL_NODES_PER_SHARD,
    chained_vnode_point 0 w < well_mixed_hash [49] ∨
      chained_vnode_point 1 0 < chained_vnode_point 0 w :=
  skips_spec (by decide +kernel)

/-! ## Minimal disruption -/

/-- **Minimal disruption.** A shard that joins takes keys over and moves no other key; a ring
sends every key to one of its shards; and neither the order nor the repetition of the ids
matters to a route. The ring itself does not depend on their order, and on their repetition
only by repeated points. -/
theorem route_minimal_disruption (S : List ℤ) (hS : S ≠ []) :
    (∀ s, s ∉ S → ∀ external_id,
      (HashRing.build (S ++ [s])).route external_id = (HashRing.build S).route external_id ∨
        (HashRing.build (S ++ [s])).route external_id = s) ∧
    (∀ external_id, (HashRing.build S).route external_id ∈ S) ∧
    (∀ T, T.Perm S → (HashRing.build T).ring = (HashRing.build S).ring) ∧
    ∀ T, (∀ sid, sid ∈ T ↔ sid ∈ S) →
      (HashRing.build T).ring.dedup = (HashRing.build S).ring.dedup ∧
        ∀ external_id,
          (HashRing.build T).route external_id = (HashRing.build S).route external_id := by
  refine ⟨fun s _ external_id => ?_, route_mem hS, fun T hT => build_congr_perm hT,
    fun T hT => ⟨build_dedup_congr hT, route_congr hS hT⟩⟩
  rcases route_of_subset hS (fun sid hsid => List.mem_append_left [s] hsid) external_id with h | h
  · exact Or.inl h
  · have hmem := route_mem (List.append_ne_nil_of_left_ne_nil hS [s]) external_id
    rcases List.mem_append.mp hmem with hold | hnew
    · exact absurd hold h
    · exact Or.inr (List.mem_singleton.mp hnew)

/-- **The key "1"** moves when shard 1 joins shards 0 and 2. -/
theorem route_minimal_disruption_third_shard :
    (HashRing.build [0, 2]).route [49] ∈ ([0, 2] : List ℤ) ∧
    (HashRing.build ([0, 2] ++ [1])).route [49] = 1 ∧
    (HashRing.build ([0, 2] ++ [1])).route [49] ≠ (HashRing.build [0, 2]).route [49] := by
  have hold := (route_minimal_disruption [0, 2] (by decide)).2.1 [49]
  have hnew : (HashRing.build ([0, 2] ++ [1])).route [49] = 1 := by
    apply route_of_skips (v := 0) (by decide) (by decide) (by decide +kernel)
    intro other hother hne
    have hmem : other = 0 ∨ other = 2 := by simpa [hne] using hother
    rcases hmem with rfl | rfl
    · exact shard_0_skips
    · exact skips_spec (by decide +kernel)
  refine ⟨hold, hnew, fun heq => ?_⟩
  rw [← heq, hnew] at hold
  exact absurd hold (by decide)

/-- An id given twice has its virtual nodes twice. -/
theorem ring_of_repeated_id : (∀ sid : ℤ, sid ∈ ([0, 0] : List ℤ) ↔ sid ∈ ([0] : List ℤ)) ∧
    (HashRing.build [0, 0]).ring ≠ (HashRing.build [0]).ring := by
  refine ⟨by simp, fun h => ?_⟩
  have hlen := congrArg List.length h
  rw [(build_perm _).length_eq, (build_perm _).length_eq] at hlen
  simp [vnodes, VIRTUAL_NODES_PER_SHARD] at hlen

end NanoDB.Coord
