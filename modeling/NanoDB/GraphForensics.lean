/-
`load_index` and `analyse` of `replica_recall/graph_forensics.py`: which nodes of an index file can
be reached from its entry point.

The tool reads the file that `hnsw.hpp` maps into memory. It looks for the last slot that was ever
written, extracts the links of all nodes on all layers, and runs a frontier search from the entry
point over compressed rows. Whatever it does not reach is reported as lost to every search.

Both programs are modelled on the bytes: the tool through the fields of `NODE_DTYPE`, the index
through `open_index`, the state in which `HNSW` finds itself on that file. A vector is its 128
words, and distances between them are any function. The degree and link quality statistics of the
tool are left out.

# The one awkward thing, named up front

The tool has to tell a written slot from a zero one by its content: some neighbour slot still has
the value the constructor filled it with, or a component of the vector is not zero. Every node
that `hnsw.hpp` writes is seen this way, because no list above layer 0 fills its row
(`run_well_formed`).
-/
import NanoDB.HnswBounds
import NanoDB.HnswFind
import NanoDB.Lib.Frontier
import NanoDB.Lib.LittleEndian

set_option autoImplicit false

namespace NanoDB.Forensics

open Index (HNSW Node M M_MAX0 MAX_LAYERS HEADER_SIZE NODE_SIZE NO_ENTRY)
open Beam (Cand Ties)

/-! ## The file -/

/-- A file in memory. Nothing behind its size is read. -/
structure MappedFile where
  size : ℕ
  byte : ℕ → UInt8

def MappedFile.bytes4 (f : MappedFile) (offset : ℕ) : List UInt8 :=
  (List.range 4).map (fun i => f.byte (offset + i))

/-- `<u4`. -/
def MappedFile.u4 (f : MappedFile) (offset : ℕ) : ℕ := LittleEndian.decode (f.bytes4 offset)

/-- `<i4`. -/
def MappedFile.i4 (f : MappedFile) (offset : ℕ) : ℤ :=
  LittleEndian.decode_signed 4 (f.bytes4 offset)

def VECTOR_DIM : ℕ := 128

def NANODB_MAGIC : ℕ := 0x4E444200

def NO_NEIGHBOR : ℕ := 0xFFFFFFFF

section Fields

variable (f : MappedFile)

/-! `HEADER_DTYPE`, and `FileHeader` of `hnsw.hpp`. -/

def MappedFile.magic : ℕ := f.u4 0

def MappedFile.element_count : ℕ := f.u4 4

def MappedFile.entry_point_id : ℤ := f.i4 8

def MappedFile.max_layer : ℤ := f.i4 12

/-- How many slots the file has. -/
def MappedFile.capacity : ℕ := (f.size - HEADER_SIZE) / NODE_SIZE

def node_offset (i : ℕ) : ℕ := HEADER_SIZE + i * NODE_SIZE

/-! `NODE_DTYPE`, and `Node` of `graph_node.hpp`. -/

def MappedFile.id (i : ℕ) : ℕ := f.u4 (node_offset i)

def MappedFile.node_max_layer (i : ℕ) : ℤ := f.i4 (node_offset i + 4)

def MappedFile.is_deleted (i : ℕ) : UInt8 := f.byte (node_offset i + 8)

/-- A component of the vector, as the word that holds it. -/
def MappedFile.component (i j : ℕ) : ℕ := f.u4 (node_offset i + 12 + 4 * j)

def MappedFile.neighbor (i layer slot : ℕ) : ℕ :=
  f.u4 (node_offset i + 524 + 4 * (M_MAX0 * layer + slot))

def MappedFile.neighbor_count (i layer : ℕ) : ℤ := f.i4 (node_offset i + 1036 + 4 * layer)

end Fields

/-- Where a compiler puts the members of a struct, given their sizes and alignments. -/
def member_offsets : ℕ → List (ℕ × ℕ) → List ℕ
  | _, [] => []
  | offset, (size, alignment) :: members =>
      let start := (offset + alignment - 1) / alignment * alignment
      start :: member_offsets (start + size) members

example : member_offsets 0 [(4, 4), (4, 4), (1, 1), (4 * 128, 4), (4 * 4 * 32, 4), (4 * 4, 4)]
    = [0, 4, 8, 12, 524, 1036] := by decide

/-! ## The tool -/

/-- Why a file is refused. -/
inductive LoadError
  | too_small (size : ℕ)
  | bad_magic (magic : ℕ)
deriving DecidableEq, Repr

section Tool

variable (f : MappedFile)

/-- A slot has the fill value in a neighbour slot, or a component that is not zero. A float is zero
if at most its sign bit is set. -/
def MappedFile.written (i : ℕ) : Bool :=
  (List.range MAX_LAYERS).any (fun l =>
      (List.range M_MAX0).any (fun s => f.neighbor i l s == NO_NEIGHBOR)) ||
    (List.range VECTOR_DIM).any (fun j => f.component i j % 2 ^ 31 != 0)

/-- `load_index`: the extent and the capacity. -/
def load_index : Except LoadError (ℕ × ℕ) :=
  if f.size < HEADER_SIZE then .error (.too_small f.size)
  else if f.magic ≠ NANODB_MAGIC then .error (.bad_magic f.magic)
  else
    let nz := (List.range f.capacity).filter f.written
    .ok (nz.getLast?.elim 0 (fun i => i + 1), f.capacity)

/-- `np.clip(counts, 0, M_MAX0)`. -/
def clip (count : ℤ) : ℕ := (min (max count 0) M_MAX0).toNat

/-- `src` and `dst`: the links of the first `n` nodes, on all layers. -/
def edges (n : ℕ) : List (ℕ × ℕ) :=
  (List.range n).flatMap (fun i => (List.range MAX_LAYERS).flatMap (fun l =>
    ((List.range M_MAX0).filter (fun slot => slot < clip (f.neighbor_count i l))).map
      (fun slot => (i, f.neighbor i l slot))))

/-- `src_g` and `dst_g`. -/
def good_edges (n : ℕ) : List (ℕ × ℕ) := (edges f n).filter (fun e => ¬ e.2 ≥ n)

/-- `seen` at the end of the search, if the entry point is in range. A round is left over when
every node was found (`seen_spec`). -/
def seen (n : ℕ) : Option (Finset ℕ) :=
  if 0 ≤ f.entry_point_id ∧ f.entry_point_id < n then
    Frontier.rounds (Frontier.Rows.of_edges n (good_edges f n)) (n + 1) {f.entry_point_id.toNat}
      [f.entry_point_id.toNat]
  else none

/-- `in_degree_0`: nodes without a link to them, other than the entry point. -/
def in_degree_0 (n : ℕ) : ℕ :=
  let indeg := Frontier.bincount n ((good_edges f n).map Prod.snd)
  (List.range n).countP (fun i => indeg.getD i 0 = 0 ∧ (i : ℤ) ≠ f.entry_point_id)

structure EdgeReport where
  edges_total : ℕ
  dangling_edges : ℕ
  self_loops : ℕ
  in_degree_0 : ℕ
  reachable_from_entry : Option ℕ
  unreachable_from_entry : Option ℕ
deriving DecidableEq, Repr

/-- What `analyse` returns; a file without nodes has no report on edges. -/
structure Report where
  element_count : ℕ
  capacity : ℕ
  entry_point_id : ℤ
  header_max_layer : ℤ
  nodes_examined : ℕ
  uncounted_nodes : ℤ
  edges : Option EdgeReport
deriving DecidableEq, Repr

def analyse : Except LoadError Report :=
  (load_index f).map (fun (n, capacity) =>
    { element_count := f.element_count
      capacity := capacity
      entry_point_id := f.entry_point_id
      header_max_layer := f.max_layer
      nodes_examined := n
      uncounted_nodes := n - f.element_count
      edges :=
        if n = 0 then none
        else
          some
            { edges_total := (edges f n).length
              dangling_edges := (edges f n).countP (fun e => e.2 ≥ n)
              self_loops := (edges f n).countP (fun e => e.2 = e.1)
              in_degree_0 := in_degree_0 f n
              reachable_from_entry := (seen f n).map Finset.card
              unreachable_from_entry := (seen f n).map (fun s => n - s.card) } })

end Tool

/-! ## The index -/

/-- A vector, as its words. -/
abbrev Words : Type := Fin VECTOR_DIM → ℕ

/-- What `get_node` points at. -/
def node_at (f : MappedFile) (i : ℕ) : Node Words where
  id := f.id i
  max_layer := (f.node_max_layer i).toNat
  is_deleted := f.is_deleted i != 0
  vector := fun j => f.component i j
  neighbors := (List.range MAX_LAYERS).map (fun l =>
    (l, (List.range (f.neighbor_count i l).toNat).map (f.neighbor i l)))

/-- The index that `HNSW` restores from the file. The header has the entry point as an `int32_t`,
and the id is its word. -/
def open_index (f : MappedFile) (metadata_storage : Index.MetadataHandler) : HNSW Words where
  nodes := (List.range f.capacity).map (fun i => (i, node_at f i))
  storage_size := f.size
  entry_point_id := f.u4 8
  current_max_layer := f.max_layer.toNat
  element_count := f.element_count
  metadata_storage := metadata_storage

/-! ## Reachability -/

/-- A link within the count of its list. -/
def Link (f : MappedFile) (i j : ℕ) : Prop :=
  ∃ layer < MAX_LAYERS, ∃ slot : ℕ, (slot : ℤ) < f.neighbor_count i layer ∧
    f.neighbor i layer slot = j

/-- A directed path over the links of all layers. -/
def Reachable (f : MappedFile) (j : ℕ) : Prop :=
  Relation.ReflTransGen (Link f) f.entry_point_id.toNat j

/-- A slot of the file that was written. -/
def Written (f : MappedFile) (i : ℕ) : Prop := i < f.capacity ∧ f.written i = true

/-- An index file with a graph in it. The top layer of the header is a layer of the arrays; the
search would read past them otherwise. -/
structure WellFormed (f : MappedFile) : Prop where
  header : HEADER_SIZE ≤ f.size
  magic : f.magic = NANODB_MAGIC
  max_layer : f.max_layer < MAX_LAYERS
  entry_nonneg : 0 ≤ f.entry_point_id
  entry : Written f f.entry_point_id.toNat
  counts : ∀ i, Written f i → ∀ layer < MAX_LAYERS,
    0 ≤ f.neighbor_count i layer ∧ f.neighbor_count i layer ≤ M_MAX0
  links : ∀ i j, Written f i → Link f i j → Written f j

section Reach

variable {f : MappedFile}

theorem reachable_written (hf : WellFormed f) {j : ℕ} (h : Reachable f j) : Written f j := by
  induction h with
  | refl => exact hf.entry
  | tail _ hlink ih => exact hf.links _ _ ih hlink

/-- The extent has every written slot. -/
theorem written_lt_extent {i n capacity : ℕ} (hload : load_index f = .ok (n, capacity))
    (hi : Written f i) : i < n := by
  unfold load_index at hload
  split_ifs at hload
  obtain ⟨hn, -⟩ := Prod.mk.inj (Except.ok.inj hload)
  have hmem : i ∈ (List.range f.capacity).filter f.written :=
    List.mem_filter.mpr ⟨List.mem_range.mpr hi.1, hi.2⟩
  have hne := List.ne_nil_of_mem hmem
  rw [List.getLast?_eq_getLast_of_ne_nil hne, Option.elim_some] at hn
  have hsorted : ((List.range f.capacity).filter f.written).Pairwise (· < ·) :=
    List.pairwise_lt_range.filter _
  have hle : i ≤ ((List.range f.capacity).filter f.written).getLast hne := by
    rw [← List.dropLast_append_getLast hne] at hsorted hmem
    rcases List.mem_append.mp hmem with hmem | hmem
    · exact ((List.pairwise_append.mp hsorted).2.2 i hmem _ (List.mem_singleton_self _)).le
    · exact (List.mem_singleton.mp hmem).le
  omega

theorem load_index_ok (hf : WellFormed f) : ∃ n, load_index f = .ok (n, f.capacity) := by
  rw [load_index, if_neg (Nat.not_lt.mpr hf.header), if_neg (not_not.mpr hf.magic)]
  exact ⟨_, rfl⟩

/-- Which links the tool extracts. -/
theorem mem_good_edges {n i j : ℕ} :
    (i, j) ∈ good_edges f n ↔ i < n ∧ j < n ∧
      ∃ layer < MAX_LAYERS, ∃ slot < clip (f.neighbor_count i layer),
        f.neighbor i layer slot = j := by
  have hclip : ∀ count, clip count ≤ M_MAX0 := fun count => by
    unfold clip
    omega
  simp only [good_edges, edges, List.mem_filter, List.mem_flatMap, List.mem_range, List.mem_map,
    decide_eq_true_eq, Prod.mk.injEq]
  constructor
  · rintro ⟨⟨_, hi, layer, hlayer, slot, ⟨-, hslot⟩, rfl, rfl⟩, hj⟩
    exact ⟨hi, by omega, layer, hlayer, slot, hslot, rfl⟩
  · rintro ⟨hi, hj, layer, hlayer, slot, hslot, rfl⟩
    have hrow := hclip (f.neighbor_count i layer)
    exact ⟨⟨i, hi, layer, hlayer, slot, ⟨by omega, hslot⟩, rfl, rfl⟩, by omega⟩

/-- In a written node the counts are as they are. -/
theorem mem_good_edges_iff (hf : WellFormed f) {n capacity : ℕ}
    (hload : load_index f = .ok (n, capacity)) {i j : ℕ} (hi : Written f i) :
    (i, j) ∈ good_edges f n ↔ Link f i j := by
  have hclip : ∀ layer < MAX_LAYERS, ∀ slot : ℕ, slot < clip (f.neighbor_count i layer) ↔
      (slot : ℤ) < f.neighbor_count i layer := by
    intro layer hlayer slot
    obtain ⟨hnonneg, hle⟩ := hf.counts i hi layer hlayer
    unfold clip
    omega
  rw [mem_good_edges]
  constructor
  · rintro ⟨-, -, layer, hlayer, slot, hslot, hj⟩
    exact ⟨layer, hlayer, slot, (hclip layer hlayer slot).mp hslot, hj⟩
  · intro hlink
    have hj := written_lt_extent hload (hf.links i j hi hlink)
    obtain ⟨layer, hlayer, slot, hslot, heq⟩ := hlink
    exact ⟨written_lt_extent hload hi, hj, layer, hlayer, slot,
      (hclip layer hlayer slot).mpr hslot, heq⟩

/-- **The search of the tool** finds what can be reached. -/
theorem seen_spec (hf : WellFormed f) {n capacity : ℕ} (hload : load_index f = .ok (n, capacity)) :
    ∃ s, seen f n = some s ∧ ∀ j, j ∈ s ↔ Reachable f j := by
  have hentry : f.entry_point_id.toNat < n := written_lt_extent hload hf.entry
  have hnonneg := hf.entry_nonneg
  have hin : 0 ≤ f.entry_point_id ∧ f.entry_point_id < n := by omega
  have hrange : ∀ v < n, ∀ x ∈ (Frontier.Rows.of_edges n (good_edges f n)).slice
      ((Frontier.Rows.of_edges n (good_edges f n)).span v), x < n := by
    intro v hv x hx
    exact (mem_good_edges.mp ((Frontier.mem_row hv).mp hx)).2.1
  obtain ⟨s, hs, hmem⟩ := Frontier.rounds_spec hrange (n + 1) _ _
    (Frontier.Progress.start hentry) (by simp; omega)
  refine ⟨s, by rw [seen, if_pos hin, hs], fun j => (hmem j).trans ⟨fun h => ?_, fun h => ?_⟩⟩
  · have hstays : Reachable f j ∧ Written f j := by
      induction h with
      | refl => exact ⟨.refl, hf.entry⟩
      | tail _ hedge ih =>
          have hlink := (mem_good_edges_iff hf hload ih.2).mp
            ((Frontier.mem_row (written_lt_extent hload ih.2)).mp hedge)
          exact ⟨ih.1.tail hlink, hf.links _ _ ih.2 hlink⟩
    exact hstays.1
  · induction h with
    | refl => exact .refl
    | @tail a b hreach hlink ih =>
        have hwritten := reachable_written hf hreach
        exact ih.tail ((Frontier.mem_row (written_lt_extent hload hwritten)).mpr
          ((mem_good_edges_iff hf hload hwritten).mpr hlink))

/-! ## The search of the index -/

/-- The links that the index sees. -/
theorem mem_links (metadata_storage : Index.MetadataHandler) {i j layer : ℕ}
    (hi : i < f.capacity) (hj : j ∈ (open_index f metadata_storage).links layer i) :
    Link f i j := by
  have hnode : (open_index f metadata_storage).get_node i = node_at f i :=
    Store.get_map _ _ (List.mem_range.mpr hi)
  rw [HNSW.links, hnode, node_at] at hj
  by_cases hlayer : layer < MAX_LAYERS
  · rw [Store.get_map [] _ (List.mem_range.mpr hlayer)] at hj
    obtain ⟨slot, hslot, rfl⟩ := List.mem_map.mp hj
    rw [List.mem_range] at hslot
    exact ⟨layer, hlayer, slot, by omega, rfl⟩
  · rw [Store.get_of_not_mem _ _ (by simpa [Store.keys] using hlayer)] at hj
    exact absurd hj List.not_mem_nil

/-- No link leaves what can be reached. -/
theorem reachable_region (hf : WellFormed f) (metadata_storage : Index.MetadataHandler) :
    (open_index f metadata_storage).Region (Reachable f) where
  closed := by
    intro i hi layer j hj
    exact hi.tail (mem_links metadata_storage (reachable_written hf hi).1 hj)
  range := by
    intro i hi
    exact (reachable_written hf hi).1

/-- The word of an entry point that is not negative. -/
theorem entry_eq (hnonneg : 0 ≤ f.entry_point_id) (metadata_storage : Index.MetadataHandler) :
    (open_index f metadata_storage).entry_point_id = f.entry_point_id.toNat := by
  have hlength : (f.bytes4 8).length = 4 := by simp [MappedFile.bytes4]
  rw [MappedFile.entry_point_id, MappedFile.i4] at hnonneg ⊢
  rw [LittleEndian.toNat_decode_signed hlength hnonneg, open_index, MappedFile.u4]

end Reach

section Search

variable {D : Type*} [LinearOrder D] (ties : Ties D) (dist : Words → Words → D)

/-- A search that starts in a region finds nodes of it. -/
theorem found_in_region {s : HNSW Words} {K : ℕ → Prop} (hs : s.Region K)
    (hentry : K s.entry_point_id) (q : Words) (k ef : ℕ) :
    ∃ results, s.search ties dist q k ef = some results ∧ ∀ r ∈ results, K r.id := by
  by_cases hnone : s.entry_point_id = NO_ENTRY
  · exact ⟨[], if_pos hnone, fun r hr => absurd hr List.not_mem_nil⟩
  obtain ⟨b, found, results, -, -, hK, hsearch, hids⟩ :=
    Index.search_region ties dist hs hentry hnone q k ef
  refine ⟨results, hsearch, fun r hr => ?_⟩
  have hmem : r.id ∈ ((Beam.nearest_first ties found).take k).map Cand.id := by
    rw [← hids]
    exact List.mem_map_of_mem hr
  obtain ⟨c, hc, heq⟩ := List.mem_map.mp hmem
  rw [← heq]
  exact hK c ((Beam.nearest_first_perm ties found).mem_iff.mp (List.mem_of_mem_take hc))

/-- **Nothing that is reported as unreachable is found.** For a file with a graph in it the tool
counts the nodes that can be reached from the entry point by directed paths over the links of all
layers, and every node that a search on the same file reads or returns is one of them. -/
theorem reachable_from_entry_exact {f : MappedFile} (hf : WellFormed f) :
    ∃ n reached report, load_index f = .ok (n, f.capacity) ∧ seen f n = some reached ∧
      analyse f = .ok report ∧
      report.edges.map EdgeReport.reachable_from_entry = some (some reached.card) ∧
      (∀ j, j ∈ reached ↔ Reachable f j) ∧
      ∀ metadata_storage q k ef,
        (∀ a ∈ (open_index f metadata_storage).search_accesses ties dist q k ef, a ∈ reached) ∧
        ∃ results, (open_index f metadata_storage).search ties dist q k ef = some results ∧
          ∀ r ∈ results, r.id ∈ reached := by
  obtain ⟨n, hload⟩ := load_index_ok hf
  obtain ⟨reached, hseen, hmem⟩ := seen_spec hf hload
  have hn : n ≠ 0 := by
    have := written_lt_extent hload hf.entry
    omega
  refine ⟨n, reached, _, hload, hseen, by rw [analyse, hload]; rfl, ?_, hmem, ?_⟩
  · simp only [if_neg hn, Option.map_some, hseen]
  · intro metadata_storage q k ef
    have hregion := reachable_region hf metadata_storage
    have hentry : Reachable f (open_index f metadata_storage).entry_point_id := by
      rw [entry_eq hf.entry_nonneg]
      exact .refl
    obtain ⟨results, hresults, hids⟩ := found_in_region ties dist hregion hentry q k ef
    refine ⟨fun a ha => ?_, results, hresults, fun r hr => (hmem r.id).mpr (hids r hr)⟩
    exact (hmem a).mpr
      (Index.search_accesses_region ties dist hregion (fun _ => hentry) q k ef a ha)

end Search

/-! ## The files of the index -/

/-- The file holds the index, with nodes in the slots `ids`. The slots of a row that no list may
use still have the value that the constructor filled them with. Where no node was inserted, links
and vector are zero; a deletion may have set the flag there. -/
structure Stores (f : MappedFile) (s : HNSW Words) (ids : List ℕ) : Prop where
  size : f.size = s.storage_size
  magic : f.magic = NANODB_MAGIC
  entry : f.entry_point_id = s.entry_point_id
  max_layer : f.max_layer = s.current_max_layer
  counts : ∀ i ∈ ids, ∀ layer < MAX_LAYERS, f.neighbor_count i layer = (s.links layer i).length
  lists : ∀ i ∈ ids, ∀ layer < MAX_LAYERS, ∀ slot < (s.links layer i).length,
    (s.links layer i)[slot]? = some (f.neighbor i layer slot)
  fill : ∀ i ∈ ids, ∀ layer < MAX_LAYERS, ∀ slot, Index.max_conn layer ≤ slot →
    slot < M_MAX0 → f.neighbor i layer slot = NO_NEIGHBOR
  blank : ∀ i < f.capacity, i ∉ ids → ∀ o, 12 ≤ o → o < NODE_SIZE →
    f.byte (node_offset i + o) = 0

section Stores

variable {f : MappedFile} {s : HNSW Words} {ids : List ℕ}

theorem u4_zero {offset : ℕ} (h : ∀ i < 4, f.byte (offset + i) = 0) : f.u4 offset = 0 := by
  have hbytes : f.bytes4 offset = [0, 0, 0, 0] := by
    rw [MappedFile.bytes4, List.map_congr_left (fun i hi => h i (List.mem_range.mp hi))]
    rfl
  rw [MappedFile.u4, hbytes]
  decide

/-- A slot of zeros is not seen. -/
theorem not_written_of_blank {i : ℕ}
    (h : ∀ o, 12 ≤ o → o < NODE_SIZE → f.byte (node_offset i + o) = 0) : f.written i = false := by
  have hword : ∀ o, 12 ≤ o → o + 4 ≤ NODE_SIZE → f.u4 (node_offset i + o) = 0 := by
    intro o hle ho
    refine u4_zero (fun b hb => ?_)
    rw [Nat.add_assoc]
    exact h (o + b) (by omega) (by omega)
  have hneighbor : ∀ layer < MAX_LAYERS, ∀ slot < M_MAX0, f.neighbor i layer slot = 0 := by
    intro layer hlayer slot hslot
    rw [MappedFile.neighbor, Nat.add_assoc]
    refine hword _ (by omega) ?_
    simp only [MAX_LAYERS, M_MAX0, M, NODE_SIZE] at hlayer hslot ⊢
    omega
  have hcomponent : ∀ j < VECTOR_DIM, f.component i j = 0 := by
    intro j hj
    rw [MappedFile.component, Nat.add_assoc]
    refine hword _ (by omega) ?_
    simp only [VECTOR_DIM, NODE_SIZE] at hj ⊢
    omega
  rw [MappedFile.written, Bool.or_eq_false_iff, List.any_eq_false, List.any_eq_false]
  refine ⟨fun l hl => ?_, fun j hj => ?_⟩
  · rw [Bool.not_eq_true, List.any_eq_false]
    intro slot hslot
    rw [hneighbor l (List.mem_range.mp hl) slot (List.mem_range.mp hslot)]
    decide
  · rw [hcomponent j (List.mem_range.mp hj)]
    decide

/-- The tool sees the nodes of the index. Layer 1 has room for `M_MAX0` links and no list there is
longer than `M`. -/
theorem Stores.written_iff (hf : Stores f s ids) (hs : s.Linked (· ∈ ids)) (i : ℕ) :
    Written f i ↔ i ∈ ids := by
  constructor
  · rintro ⟨hrange, hwritten⟩
    by_contra hi
    rw [not_written_of_blank (hf.blank i hrange hi)] at hwritten
    exact Bool.false_ne_true hwritten
  · intro hi
    refine ⟨?_, ?_⟩
    · rw [MappedFile.capacity, hf.size]
      exact hs.region.range i hi
    · have hfill := hf.fill i hi 1 (by decide) M (by decide) (by decide)
      rw [MappedFile.written, Bool.or_eq_true]
      refine .inl (List.any_eq_true.mpr ⟨1, List.mem_range.mpr (by decide), ?_⟩)
      exact List.any_eq_true.mpr ⟨M, List.mem_range.mpr (by decide), beq_iff_eq.mpr hfill⟩

/-- The links within the counts are those of the index. -/
theorem Stores.link_mem (hf : Stores f s ids) {i j : ℕ} (hi : i ∈ ids) (hlink : Link f i j) :
    ∃ layer, j ∈ s.links layer i := by
  obtain ⟨layer, hlayer, slot, hslot, rfl⟩ := hlink
  rw [hf.counts i hi layer hlayer, Nat.cast_lt] at hslot
  exact ⟨layer, List.mem_of_getElem? (hf.lists i hi layer hlayer slot hslot)⟩

end Stores

/-- **What `hnsw.hpp` writes is well formed.** A file that holds an index built by inserts and
deletes from nothing is one the result above is about, once the index has an entry point. -/
theorem run_well_formed {D : Type*} [LinearOrder D] (ties : Ties D) (dist : Words → Words → D)
    {storage_size : ℕ} {ops : List (Index.Op Words)} {s : HNSW Words}
    (hrun : Trace.run (Index.step ties dist) (HNSW.fresh storage_size) ops = some s)
    (hentry : s.entry_point_id ≠ NO_ENTRY) {f : MappedFile}
    (hf : Stores f s (Index.inserted ops)) : WellFormed f := by
  obtain ⟨-, hfits, hshallow⟩ := Index.run_sound ties dist hrun
  have hs : s.Linked (· ∈ Index.inserted ops) := by
    simpa using Index.linked_run ties dist ops (Index.linked_fresh storage_size) hrun
  have hkey := (hf.written_iff hs _).mpr (hs.entry hentry)
  refine ⟨?_, hf.magic, ?_, ?_, ?_, ?_, ?_⟩
  · by_contra hheader
    have hcapacity := hkey.1
    rw [MappedFile.capacity, Nat.sub_eq_zero_of_le (by omega), Nat.zero_div] at hcapacity
    exact Nat.not_lt_zero _ hcapacity
  · rw [hf.max_layer, Nat.cast_lt]
    exact hshallow.top
  · rw [hf.entry]
    exact Int.natCast_nonneg _
  · rw [hf.entry, Int.toNat_natCast]
    exact hkey
  · intro i hi layer hlayer
    rw [hf.counts i ((hf.written_iff hs i).mp hi) layer hlayer]
    refine ⟨Int.natCast_nonneg _, Nat.cast_le.mpr ((hfits layer i).1.trans ?_)⟩
    unfold Index.max_conn
    split_ifs <;> decide
  · intro i j hi hlink
    rw [hf.written_iff hs] at hi ⊢
    obtain ⟨layer, hj⟩ := hf.link_mem hi hlink
    exact hs.region.closed i hi layer j hj

/-! ## A file with a graph -/

/-- A file can be checked. -/
theorem WellFormed.of_check {f : MappedFile} (hheader : HEADER_SIZE ≤ f.size)
    (hmagic : f.magic = NANODB_MAGIC) (hmax : f.max_layer < MAX_LAYERS)
    (hentry : 0 ≤ f.entry_point_id ∧ f.entry_point_id.toNat < f.capacity ∧
      f.written f.entry_point_id.toNat = true)
    (hnodes : ∀ i < f.capacity, f.written i = true → ∀ layer < MAX_LAYERS,
      0 ≤ f.neighbor_count i layer ∧ f.neighbor_count i layer ≤ M_MAX0 ∧
        ∀ slot < (f.neighbor_count i layer).toNat,
          f.neighbor i layer slot < f.capacity ∧ f.written (f.neighbor i layer slot) = true) :
    WellFormed f where
  header := hheader
  magic := hmagic
  max_layer := hmax
  entry_nonneg := hentry.1
  entry := hentry.2
  counts := by
    intro i hi layer hlayer
    obtain ⟨hnonneg, hle, -⟩ := hnodes i hi.1 hi.2 layer hlayer
    exact ⟨hnonneg, hle⟩
  links := by
    rintro i j hi ⟨layer, hlayer, slot, hslot, rfl⟩
    exact (hnodes i hi.1 hi.2 layer hlayer).2.2 slot (Int.lt_toNat.2 hslot)

/-- A file of words. -/
def of_words (size : ℕ) (word : ℕ → ℕ) : MappedFile :=
  ⟨size, fun offset => UInt8.ofNat (word (offset / 4) / 256 ^ (offset % 4))⟩

/-- Three nodes with zero vectors, and one link: from the entry point `0` to node `1`. -/
def three_nodes : MappedFile :=
  of_words (HEADER_SIZE + 3 * NODE_SIZE) (fun w =>
    if w = 0 then NANODB_MAGIC
    else if w = 1 then 3
    else if w < 16 then 0
    else
      let i := (w - 16) / 264
      let r := (w - 16) % 264
      if 131 ≤ r ∧ r < 259 then if i = 0 ∧ r = 131 then 1 else NO_NEIGHBOR
      else if i = 0 ∧ r = 259 then 1
      else 0)

theorem reachable_from_entry_exact_three :
    ∃ reached, seen three_nodes 3 = some reached ∧ reached.card = 2 ∧
      (∀ j, j ∈ reached ↔ Reachable three_nodes j) := by
  have hf : WellFormed three_nodes := .of_check (by decide +kernel) (by decide +kernel)
    (by decide +kernel) (by decide +kernel) (by decide +kernel)
  have hload : load_index three_nodes = .ok (3, 3) := by decide +kernel
  have hcard : (seen three_nodes 3).map Finset.card = some 2 := by decide +kernel
  obtain ⟨n, reached, -, hload', hseen, -, -, hmem, -⟩ :=
    reachable_from_entry_exact (D := ℕ) Ties.first (fun _ _ => 0) hf
  obtain rfl : n = 3 := (Prod.mk.inj (Except.ok.inj (hload'.symm.trans hload))).1
  rw [hseen, Option.map_some, Option.some.injEq] at hcard
  exact ⟨reached, hseen, hcard, hmem⟩

end NanoDB.Forensics
