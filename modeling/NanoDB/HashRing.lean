/-
`cluster/routing.hpp` and `cluster/hash_ring.hpp`: hashing and the ring.

Hashes are `uint64_t`, so the multiplication of FNV-1a wraps. A ring is the sorted list
of the virtual nodes of its shards; `build` is a function of the list of ids it is given,
and that is all the topology results use of it.
-/
import Mathlib.Data.List.Basic
import Mathlib.Data.Int.Order.Basic

set_option autoImplicit false

namespace NanoDB.Coord

/-- `fnv1a_64`, on the bytes of the string. -/
def fnv1a_64 (s : List UInt8) : UInt64 :=
  s.foldl (fun h c => (h ^^^ c.toUInt64) * 1099511628211) 14695981039346656037

/-- `std::to_string` of an integer, as bytes. -/
def to_string (n : ℤ) : List UInt8 := (toString n).toUTF8.toList

def well_mixed_hash (external_id : List UInt8) : UInt64 :=
  let h := fnv1a_64 external_id
  fnv1a_64 (to_string h.toNat)

def VIRTUAL_NODES_PER_SHARD : ℕ := 200

/-- `chained_vnode_point`: `vnode_index + 1` rounds from the hash of the id. -/
def chained_vnode_point (shard_id : ℤ) (vnode_index : ℕ) : UInt64 :=
  (List.range (vnode_index + 1)).foldl (fun h _ => fnv1a_64 (to_string h.toNat))
    (fnv1a_64 (to_string shard_id))

/-- `HashRing`: the points with the shard that owns each. -/
structure HashRing where
  ring : List (UInt64 × ℤ) := []

/-- `HashRing::build`; `std::sort` on pairs is lexicographic. -/
def HashRing.build (shard_ids : List ℤ) : HashRing :=
  ⟨(shard_ids.flatMap (fun sid => (List.range VIRTUAL_NODES_PER_SHARD).map
    (fun v => (chained_vnode_point sid v, sid)))).mergeSort
      (fun a b => decide (a.1 < b.1 ∨ (a.1 = b.1 ∧ a.2 ≤ b.2)))⟩

/-- `HashRing::route`: the first point that is not below the hash, or the first of all. The
ring has to have a point. -/
def HashRing.route (r : HashRing) (external_id : List UInt8) : ℤ :=
  let h := well_mixed_hash external_id
  match r.ring.find? (fun point => !decide (point.1 < h)) with
  | some point => point.2
  | none => (r.ring.headD (0, 0)).2

/-- A ring of some shards has a point. -/
theorem ring_ne_nil {shard_ids : List ℤ} (h : shard_ids ≠ []) :
    (HashRing.build shard_ids).ring ≠ [] := by
  obtain ⟨sid, rest, rfl⟩ := List.exists_cons_of_ne_nil h
  intro hnil
  have hmem : (chained_vnode_point sid 0, sid) ∈ (HashRing.build (sid :: rest)).ring := by
    rw [HashRing.build, List.mem_mergeSort]
    refine List.mem_flatMap.mpr ⟨sid, List.mem_cons_self, List.mem_map.mpr ⟨0, ?_, rfl⟩⟩
    exact List.mem_range.mpr (by decide)
  rw [hnil] at hmem
  simp at hmem

/-- A ring of some shards routes to one of them. -/
theorem route_mem {shard_ids : List ℤ} (h : shard_ids ≠ []) (external_id : List UInt8) :
    (HashRing.build shard_ids).route external_id ∈ shard_ids := by
  have hpoint : ∀ point ∈ (HashRing.build shard_ids).ring, point.2 ∈ shard_ids := by
    intro point hmem
    rw [HashRing.build, List.mem_mergeSort] at hmem
    obtain ⟨sid, hsid, hmem⟩ := List.mem_flatMap.mp hmem
    obtain ⟨v, -, rfl⟩ := List.mem_map.mp hmem
    exact hsid
  unfold HashRing.route
  dsimp only
  split
  · rename_i point hfind
    exact hpoint point (List.mem_of_find?_eq_some hfind)
  · -- behind the last point: the ring is not empty, so it has a first one
    obtain ⟨point, points, heq⟩ := List.exists_cons_of_ne_nil (ring_ne_nil h)
    rw [heq]
    exact hpoint point (heq ▸ List.mem_cons_self)

end NanoDB.Coord
