/-
`include/index/hnsw.hpp`: the HNSW index of one shard, single-threaded.

The index is a memory-mapped array of nodes: an id is an offset, a slot that was never
written reads as zeros (a live node with the zero vector and no neighbours), and the
storage grows geometrically when an id lies behind its end. Vectors and distances stay
abstract: any type of vectors, any distance with values in a linear order. The level that
`get_random_level` draws is an argument, below `MAX_LAYERS` by its type. How the priority
queues and `std::sort` order equal distances is a parameter (`Beam.Ties`).

`insert` and `search` contain loops that end because a distance decreases or a node is
visited once; they return `none` when the fuel of such a loop runs out, which
`HnswGraph.lean` excludes.
-/
import NanoDB.Lib.Beam
import NanoDB.Metadata

set_option autoImplicit false

namespace NanoDB.Index

open Raft (Bytes)
open Beam (Cand Ties)

/-! ## Constants -/

def M : ℕ := 16

def M_MAX0 : ℕ := M * 2

def EF_CONSTRUCTION : ℕ := 200

abbrev MAX_LAYERS : ℕ := 4

instance : NeZero MAX_LAYERS := ⟨Nat.succ_ne_zero 3⟩

def HEADER_SIZE : ℕ := 64

/-- `sizeof(Node)`. -/
def NODE_SIZE : ℕ := 1056

/-- `(id_t)-1`. -/
def NO_ENTRY : ℕ := 2 ^ 32 - 1

/-! ## Data -/

/-- `Node`. The first `neighbor_counts[l]` entries of `neighbors[l]` are the list at `l`. -/
structure Node (V : Type*) where
  id : ℕ
  max_layer : ℕ
  is_deleted : Bool
  vector : V
  neighbors : Store (List ℕ)
deriving DecidableEq, Repr

/-- Zeroed memory. -/
def Node.zero {V : Type*} [Zero V] : Node V := ⟨0, 0, false, 0, []⟩

/-- `Node(id, level, vec_data)`. -/
def Node.new {V : Type*} (id level : ℕ) (vec_data : V) : Node V := ⟨id, level, false, vec_data, []⟩

/-- `HNSW`. `current_max_layer` is -1 in the source before the first insertion; it is not
read then. The file header repeats these numbers after every operation. -/
structure HNSW (V : Type*) where
  nodes : Store (Node V) := []
  storage_size : ℕ
  entry_point_id : ℕ := NO_ENTRY
  current_max_layer : ℕ := 0
  element_count : ℕ := 0
  metadata_storage : MetadataHandler := {}
deriving DecidableEq, Repr

structure Result (D : Type*) where
  id : ℕ
  distance : D
  metadata : Bytes
deriving DecidableEq, Repr

/-! ## Storage -/

section Storage

variable {V : Type*}

def MIN_GROWTH_STEP : ℕ := 10 * 1024 * 1024

def MAX_GROWTH_STEP : ℕ := 256 * 1024 * 1024

/-- The loop of `grown_size`. -/
def grow : ℕ → ℕ → ℕ → ℕ
  | 0, next, _ => next
  | fuel + 1, next, needed =>
      if next < needed then
        grow fuel (next + max (min next MAX_GROWTH_STEP) MIN_GROWTH_STEP) needed
      else next

/-- `grown_size`. Every round adds at least a byte, so `needed` rounds are enough. -/
def grown_size (current needed : ℕ) : ℕ := grow needed current needed

/-- The end of slot `id` in the file. -/
def slot_end (id : ℕ) : ℕ := HEADER_SIZE + id * NODE_SIZE + NODE_SIZE

/-- How many slots the storage has. -/
def HNSW.capacity (s : HNSW V) : ℕ := (s.storage_size - HEADER_SIZE) / NODE_SIZE

/-- Expand the storage if slot `id` is not in it. -/
def HNSW.expand (s : HNSW V) (id : ℕ) : HNSW V :=
  if slot_end id > s.storage_size then
    { s with storage_size := grown_size s.storage_size (slot_end id) }
  else s

variable [Zero V]

def HNSW.get_node (s : HNSW V) (id : ℕ) : Node V := s.nodes.get Node.zero id

def HNSW.set_node (s : HNSW V) (id : ℕ) (n : Node V) : HNSW V :=
  { s with nodes := s.nodes.set id n }

/-- The first lines of `insert`: the storage is expanded and the node written. -/
def HNSW.place (s : HNSW V) (id level : ℕ) (vec_data : V) : HNSW V :=
  (s.expand id).set_node id (Node.new id level vec_data)

/-- Incrementing a `size_t`. -/
def increment (n : ℕ) : ℕ := (n + 1) % 2 ^ 64

/-- The last lines of `insert`: entry point, count, header and metadata. -/
def HNSW.finish (s : HNSW V) (id entry_point_id max_layer : ℕ) (metadata : Bytes) : HNSW V :=
  { s with
    entry_point_id := entry_point_id
    current_max_layer := max_layer
    element_count := increment s.element_count
    metadata_storage := s.metadata_storage.save_metadata id metadata }

/-- `neighbors[layer]` of node `id`, as far as it is in use. -/
def HNSW.links (s : HNSW V) (layer id : ℕ) : List ℕ := (s.get_node id).neighbors.get [] layer

/-- Store a new list of neighbours. -/
def HNSW.set_links (s : HNSW V) (layer id : ℕ) (ns : List ℕ) : HNSW V :=
  s.set_node id
    { s.get_node id with neighbors := (s.get_node id).neighbors.set layer ns }

def HNSW.is_deleted (s : HNSW V) (id : ℕ) : Bool :=
  if slot_end id > s.storage_size then false else (s.get_node id).is_deleted

/-- `get_vector_data`; `none` is the empty vector. -/
def HNSW.get_vector_data (s : HNSW V) (id : ℕ) : Option V :=
  if slot_end id > s.storage_size then none
  else if (s.get_node id).is_deleted then none
  else some (s.get_node id).vector

def HNSW.get_metadata (s : HNSW V) (id : ℕ) : Bytes := s.metadata_storage.get_metadata id

/-- Decrementing a `size_t` wraps at 0. -/
def decrement (n : ℕ) : ℕ := if n = 0 then 2 ^ 64 - 1 else n - 1

def HNSW.delete_vector (s : HNSW V) (id : ℕ) : HNSW V :=
  if slot_end id > s.storage_size then s
  else if (s.get_node id).is_deleted then s
  else
    { s.set_node id { s.get_node id with is_deleted := true } with
      element_count := decrement s.element_count }

/-- The index of a process that opens the files again. The header has the count as a
`uint32_t`. -/
def HNSW.reopen (s : HNSW V) : HNSW V :=
  { s with
    element_count := s.element_count % 2 ^ 32
    metadata_storage := MetadataHandler.open_file s.metadata_storage.file }

end Storage

/-! ## Graph -/

section Graph

variable {V D : Type*} [Zero V] [LinearOrder D] (ties : Ties D) (dist : V → V → D)

/-- What a search for `q` on a layer reads of the index. -/
def HNSW.query (s : HNSW V) (q : V) (layer : ℕ) : Beam.Query D where
  next := s.links layer
  dist := fun i => dist q (s.get_node i).vector
  live := fun i => !(s.get_node i).is_deleted
  capacity := s.capacity

/-- `search_layer`: the `ef` nearest live nodes found, as the heap holds them. -/
def HNSW.search_layer (s : HNSW V) (entry_point : ℕ) (q : V) (ef layer : ℕ) :
    Option (List (Cand D)) :=
  Beam.search ties (s.query dist q layer) ef entry_point

/-- The greedy search through `layers`, top down. -/
def HNSW.descend (s : HNSW V) (q : V) : List ℕ → ℕ × D → Option (ℕ × D)
  | [], b => some b
  | l :: layers, b =>
      (Beam.walk (s.query dist q l) (s.capacity + 1) b).bind (s.descend q layers)

/-- The layers `hi`, `hi - 1`, ..., `lo + 1`. -/
def layers_down (hi lo : ℕ) : List ℕ := (List.range' (lo + 1) (hi - lo)).reverse

/-- The loop of `select_neighbors_heuristic`. -/
def HNSW.select_loop (s : HNSW V) (keep_all : Bool) (max_keep exclude_id : ℕ) :
    List ℕ → List (Cand D) → List ℕ
  | selected, [] => selected
  | selected, cand :: cands =>
      if selected.length ≥ max_keep then selected
      else if cand.id = exclude_id then
        HNSW.select_loop s keep_all max_keep exclude_id selected cands
      else if keep_all = false ∧ ∃ chosen ∈ selected,
          dist (s.get_node cand.id).vector (s.get_node chosen).vector < cand.distance then
        HNSW.select_loop s keep_all max_keep exclude_id selected cands
      else HNSW.select_loop s keep_all max_keep exclude_id (selected ++ [cand.id]) cands

def HNSW.select_neighbors_heuristic (s : HNSW V) (ordered : List (Cand D))
    (max_keep exclude_id : ℕ) : List ℕ :=
  s.select_loop dist (decide (ordered.length ≤ max_keep)) max_keep exclude_id [] ordered

/-- The most links a node may have on a layer. -/
def max_conn (layer : ℕ) : ℕ := if layer = 0 then M_MAX0 else M

def HNSW.add_link (s : HNSW V) (src dest layer : ℕ) : HNSW V :=
  let ns := s.links layer src
  if ns.length < max_conn layer then s.set_links layer src (ns ++ [dest])
  else if dest ∈ ns then s
  else
    -- full: choose again among the old neighbours and the new one
    let cands : List (Cand D) := (ns ++ [dest]).map
      (fun n => ⟨dist (s.get_node src).vector (s.get_node n).vector, n⟩)
    s.set_links layer src
      (s.select_neighbors_heuristic dist (ties.sort cands) (max_conn layer) src)

/-- Link node `id` with the selected neighbours, in both directions. -/
def HNSW.link_all (s : HNSW V) (id layer : ℕ) (selected : List ℕ) : HNSW V :=
  selected.foldl (fun s n => (s.add_link ties dist id n layer).add_link ties dist n id layer) s

/-- One round of the connecting loop: the index and where the next layer is entered. -/
def HNSW.connect_layer (s : HNSW V) (id curr_obj layer : ℕ) : Option (HNSW V × ℕ) :=
  (s.search_layer ties dist curr_obj (s.get_node id).vector EF_CONSTRUCTION layer).map
    (fun candidates =>
      let selected := s.select_neighbors_heuristic dist (Beam.nearest_first ties candidates) M id
      (s.link_all ties dist id layer selected, selected.headD curr_obj))

/-- The connecting loop. -/
def HNSW.connect (id : ℕ) : List ℕ → HNSW V × ℕ → Option (HNSW V × ℕ)
  | [], r => some r
  | l :: layers, r => (r.1.connect_layer ties dist id r.2 l).bind (HNSW.connect id layers)

/-- `insert`. -/
def HNSW.insert (s : HNSW V) (vec_data : V) (id : ℕ) (level : Fin MAX_LAYERS) (metadata : Bytes) :
    Option (HNSW V) :=
  let s := s.place id level vec_data
  if s.entry_point_id = NO_ENTRY then some (s.finish id id level metadata)
  else
    let ep := s.entry_point_id
    let top := s.current_max_layer
    (s.descend dist vec_data (layers_down top level)
      (ep, dist vec_data (s.get_node ep).vector)).bind (fun b =>
    (HNSW.connect ties dist id (List.range (min level.val top + 1)).reverse (s, b.1)).map (fun r =>
    r.1.finish id (if level.val > top then id else ep) (max level.val top) metadata))

/-- The beam width of a search; 0 asks for the default. -/
def ef_search (ef k : ℕ) : ℕ := if ef > 0 then max ef k else max 100 k

/-- The last loop of `search`: the `k` nearest that are alive, with their metadata. -/
def HNSW.collect (s : HNSW V) (k : ℕ) (top_candidates : List (Cand D)) : List (Result D) :=
  (((Beam.nearest_first ties top_candidates).filter
    (fun c => !(s.get_node c.id).is_deleted)).take k).map
    (fun c => ⟨c.id, c.distance, s.get_metadata c.id⟩)

/-- `search`. -/
def HNSW.search (s : HNSW V) (q : V) (k : ℕ) (ef : ℕ) : Option (List (Result D)) :=
  if s.entry_point_id = NO_ENTRY then some []
  else
    let ep := s.entry_point_id
    (s.descend dist q (layers_down s.current_max_layer 0)
      (ep, dist q (s.get_node ep).vector)).bind (fun b =>
    (s.search_layer ties dist b.1 q (ef_search ef k) 0).map (s.collect ties k))

end Graph

end NanoDB.Index
