/-
Can the index be searched? Runs of insertions and deletions.

A search enters layer 0 somewhere in the part of the graph that hangs together with the
entry point. `Component` says what has to be true of that part: no link leaves it, every two
of its nodes reach each other on layer 0, and every live node is in it. Then a search with
enough room returns all live nodes, and any search returns one if there is one.

# The one awkward thing, named up front

Two things can break a component. A new node is linked with the neighbours it selected in
both directions, but a neighbour whose list is full selects again and may drop the link
back, or a link that was the only way to some older node. And deleted nodes stay in the
graph but are withheld from the candidates a new node can select, so a node that is inserted
when nothing is alive is linked to nothing. It is found only if it becomes the entry point.
-/
import NanoDB.HnswGraph
import NanoDB.Lib.Trace

set_option autoImplicit false

namespace NanoDB.Index

open Raft (Bytes)
open Beam (Cand Ties)

/-! ## Runs -/

/-- The arguments of `insert`, and the level it draws. -/
structure Insertion (V : Type*) where
  vec_data : V
  id : ℕ
  level : Fin MAX_LAYERS
  metadata : Bytes
deriving DecidableEq, Repr

inductive Op (V : Type*)
  | insert (i : Insertion V)
  | delete (id : ℕ)
deriving DecidableEq, Repr

/-- The ids inserted by a list of operations. -/
def inserted {V : Type*} : List (Op V) → List ℕ
  | [] => []
  | .insert i :: ops => i.id :: inserted ops
  | .delete _ :: ops => inserted ops

variable {V D : Type*} [Zero V] [LinearOrder D] (ties : Ties D) (dist : V → V → D)

/-- One operation. -/
def step (s : HNSW V) : Op V → Option (HNSW V)
  | .insert i => s.insert ties dist i.vec_data i.id i.level i.metadata
  | .delete id => some (s.delete_vector id)

/-- A fresh index on a file of the given size. -/
def HNSW.fresh (storage_size : ℕ) : HNSW V := { storage_size := storage_size }

/-- The pre-allocated file of a shard. -/
def shard_file : ℕ := 100 * 1024 * 1024

/-! ## Components -/

/-- Reachability on layer 0. -/
def HNSW.Reach0 (s : HNSW V) : ℕ → ℕ → Prop := Relation.ReflTransGen (fun i j => j ∈ s.links 0 i)

structure Component (s : HNSW V) (K : ℕ → Prop) : Prop where
  region : s.Region K
  joined : ∀ i j, K i → K j → s.Reach0 i j
  written : ∀ i, K i → i ∈ s.nodes.keys
  entry : K s.entry_point_id
  live : ∀ i ∈ s.nodes.keys, (s.get_node i).is_deleted = false → K i

/-- Paths survive when the links of a closed set do. -/
theorem HNSW.Reach0.mono {s s' : HNSW V} {K : ℕ → Prop} (hclosed : s.Closed K)
    (h : ∀ i, K i → ∀ j ∈ s.links 0 i, j ∈ s'.links 0 i) {i j : ℕ} (hi : K i)
    (hij : s.Reach0 i j) : s'.Reach0 i j := by
  have key : K j ∧ s'.Reach0 i j := by
    induction hij with
    | refl => exact ⟨hi, Relation.ReflTransGen.refl⟩
    | tail _ hedge ih =>
        exact ⟨hclosed _ ih.1 0 _ hedge, ih.2.tail (h _ ih.1 _ hedge)⟩
  exact key.2

/-! ## Placing a node -/

/-- A set that is linked with itself and with the new node, which has no links yet. -/
theorem place_region_back {s : HNSW V} {K : ℕ → Prop} {id : ℕ}
    (hclosed : ∀ i, K i → ∀ l, ∀ j ∈ s.links l i, K j ∨ j = id)
    (hrange : ∀ i, K i → i < s.capacity) (level : ℕ) (vec_data : V) :
    (s.place id level vec_data).Region (fun i => K i ∨ i = id) := by
  refine ⟨fun i hi l j hj => ?_, fun i hi => ?_⟩
  · by_cases h : i = id
    · rw [h, place_links_self] at hj
      simp at hj
    · rw [place_links_ne s id level vec_data l h] at hj
      exact hclosed i (hi.resolve_right h) l j hj
  · rcases hi with hi | rfl
    · exact place_capacity_mono s id level vec_data (hrange i hi)
    · exact place_lt_capacity s i level vec_data

/-- The region and the new node. -/
theorem place_region {s : HNSW V} {K : ℕ → Prop} (hs : s.Region K) (id level : ℕ) (vec_data : V) :
    (s.place id level vec_data).Region (fun i => K i ∨ i = id) :=
  place_region_back (fun i hi l j hj => Or.inl (hs.closed i hi l j hj)) hs.range level vec_data

/-- A region the new node is not in. -/
theorem place_region_fresh {s : HNSW V} {K : ℕ → Prop} (hs : s.Region K) {id : ℕ}
    (hfresh : ¬ K id) (level : ℕ) (vec_data : V) : (s.place id level vec_data).Region K := by
  refine ⟨fun i hi l j hj => ?_,
    fun i hi => place_capacity_mono s id level vec_data (hs.range i hi)⟩
  rw [place_links_ne s id level vec_data l (fun h => hfresh (h ▸ hi))] at hj
  exact hs.closed i hi l j hj

theorem connect_append (id : ℕ) (ls ls' : List ℕ) (r : HNSW V × ℕ) :
    HNSW.connect ties dist id (ls ++ ls') r
      = (HNSW.connect ties dist id ls r).bind (HNSW.connect ties dist id ls') := by
  induction ls generalizing r with
  | nil => rfl
  | cons l ls ih =>
      rw [List.cons_append, HNSW.connect, HNSW.connect, Option.bind_assoc]
      congr 1
      funext r'
      exact ih r'

/-! ## One insertion -/

/-- What every insertion does to the nodes: one more is written and alive, the others are
as dead or alive as they were. -/
structure Gains (s : HNSW V) (id : ℕ) (s' : HNSW V) : Prop where
  keys : ∀ j, j ∈ s'.nodes.keys ↔ j = id ∨ j ∈ s.nodes.keys
  deleted : ∀ j, j ≠ id → (s'.get_node j).is_deleted = (s.get_node j).is_deleted
  alive : (s'.get_node id).is_deleted = false

theorem gains_place (s : HNSW V) (id level : ℕ) (vec_data : V) :
    Gains s id (s.place id level vec_data) := by
  refine ⟨place_keys s id level vec_data, fun j hj => ?_, ?_⟩
  · rw [place_get_node_ne s id level vec_data hj]
  · rw [place_get_node_self]
    rfl

theorem Gains.relink {s s' s'' : HNSW V} {id : ℕ} (h : Gains s id s') (hr : Relinked s' s'') :
    Gains s id s'' :=
  ⟨fun j => (hr.keys j).trans (h.keys j), fun j hj => (hr.deleted j).trans (h.deleted j hj),
    (hr.deleted id).trans h.alive⟩

theorem Gains.finish {s s' : HNSW V} {id : ℕ} (h : Gains s id s') (ep max_layer : ℕ)
    (metadata : Bytes) : Gains s id (s'.finish id ep max_layer metadata) :=
  ⟨h.keys, h.deleted, h.alive⟩

/-- A node without links is a component when nothing else is alive. -/
theorem component_single {s s₁ : HNSW V} {id : ℕ} (hgains : Gains s id s₁)
    (hdead : ∀ i ∈ s.nodes.keys, (s.get_node i).is_deleted = true)
    (hlinks : ∀ l, s₁.links l id = []) (hcap : id < s₁.capacity) (max_layer : ℕ)
    (metadata : Bytes) : Component (s₁.finish id id max_layer metadata) (fun j => j = id) := by
  refine ⟨⟨fun j hj l k hk => ?_, fun j hj => ?_⟩, fun j k hj hk => ?_, fun j hj => ?_, rfl,
    fun j hj hlive => ?_⟩
  · have hk' : k ∈ s₁.links l j := hk
    rw [hj, hlinks] at hk'
    simp at hk'
  · exact hj ▸ hcap
  · rw [hj, hk]
    exact Relation.ReflTransGen.refl
  · exact (hgains.keys j).mpr (Or.inl hj)
  · by_contra hne
    have hold := ((hgains.keys j).mp hj).resolve_left hne
    have hdel := (hgains.deleted j hne).trans (hdead j hold)
    exact Bool.false_ne_true (hlive.symm.trans hdel)

/-- The first insertion only places its node. -/
theorem insert_empty {s : HNSW V} (hentry : s.entry_point_id = NO_ENTRY) (i : Insertion V) :
    step ties dist s (.insert i)
      = some ((s.place i.id i.level i.vec_data).finish i.id i.id i.level i.metadata) := by
  rw [step, HNSW.insert]
  dsimp only
  rw [if_pos ((place_rest s i.id i.level i.vec_data).1.trans hentry)]

/-- The first node is a component. -/
theorem insert_first {s : HNSW V} (hentry : s.entry_point_id = NO_ENTRY)
    (hdead : ∀ i ∈ s.nodes.keys, (s.get_node i).is_deleted = true) (i : Insertion V) :
    ∃ s', step ties dist s (.insert i) = some s' ∧ s'.entry_point_id = i.id ∧
      Component s' (fun j => j = i.id) ∧ Gains s i.id s' := by
  have hgains := gains_place s i.id i.level i.vec_data
  have hlinks := place_links_self s i.id i.level i.vec_data
  have hcap := place_lt_capacity s i.id i.level i.vec_data
  exact ⟨_, insert_empty ties dist hentry i, rfl,
    component_single hgains hdead hlinks hcap _ _, hgains.finish _ _ _⟩

/-- The entry point and the greedy descent of an insertion, in a set that no link above its
level leaves. -/
theorem insert_descends_above {s : HNSW V} {K : ℕ → Prop} (i : Insertion V)
    (hrange : ∀ j, K j → j < (s.place i.id i.level i.vec_data).capacity)
    (hclosed : ∀ l, i.level.val < l → ∀ j, K j →
      ∀ k ∈ (s.place i.id i.level i.vec_data).links l j, K k)
    (hentry : s.entry_point_id ≠ NO_ENTRY) (hK : K s.entry_point_id) :
    ∃ b, K b ∧ step ties dist s (.insert i)
      = (HNSW.connect ties dist i.id (List.range (min i.level.val s.current_max_layer + 1)).reverse
          (s.place i.id i.level i.vec_data, b)).map (fun r =>
        r.1.finish i.id (if i.level.val > s.current_max_layer then i.id else s.entry_point_id)
          (max i.level.val s.current_max_layer) i.metadata) := by
  obtain ⟨hentry₁, hmax₁⟩ := place_rest s i.id i.level i.vec_data
  have habove : ∀ l ∈ layers_down s.current_max_layer i.level, i.level.val < l := by
    intro l hl
    rw [layers_down, List.mem_reverse, List.mem_range'_1] at hl
    omega
  obtain ⟨b, hb, hKb⟩ := descend_layers dist hrange i.vec_data
    (layers_down s.current_max_layer i.level) (fun l hl => hclosed l (habove l hl))
    s.entry_point_id hK
  refine ⟨b, hKb, ?_⟩
  rw [step, HNSW.insert]
  dsimp only
  rw [hentry₁, hmax₁, if_neg hentry, hb]
  rfl

/-- The entry point and the greedy descent of an insertion. -/
theorem insert_descends {s : HNSW V} {K : ℕ → Prop} (i : Insertion V)
    (hs : (s.place i.id i.level i.vec_data).Region K) (hentry : s.entry_point_id ≠ NO_ENTRY)
    (hK : K s.entry_point_id) :
    ∃ b, K b ∧ step ties dist s (.insert i)
      = (HNSW.connect ties dist i.id (List.range (min i.level.val s.current_max_layer + 1)).reverse
          (s.place i.id i.level i.vec_data, b)).map (fun r =>
        r.1.finish i.id (if i.level.val > s.current_max_layer then i.id else s.entry_point_id)
          (max i.level.val s.current_max_layer) i.metadata) :=
  insert_descends_above ties dist i hs.range (fun l _ j hj => hs.closed j hj l) hentry hK

/-- There is room in the list of layer 0 of every node that the insertion links with. -/
def HasRoom (s : HNSW V) (i : Insertion V) : Prop :=
  ∀ s' ∈ step ties dist s (.insert i), ∀ j ∈ s'.links 0 i.id, (s.links 0 j).length < M_MAX0

instance decidableHasRoom (s : HNSW V) (i : Insertion V) : Decidable (HasRoom ties dist s i) :=
  inferInstanceAs (Decidable (∀ s' ∈ step ties dist s (.insert i), _))

/-- **The round of layer 0**, from a node of a set that reaches a live node of it, if there is room
in the lists of the nodes that are selected: the new node is linked with one of the set, in both
directions, and no link is lost. -/
theorem ground_round {t : HNSW V} {K : ℕ → Prop} {id curr : ℕ}
    (hregion : t.Region (fun j => K j ∨ j = id)) (hfresh : ¬ K id) (hcurr : K curr)
    (hlive : ∃ k, K k ∧ (t.get_node k).is_deleted = false ∧ t.Reach0 curr k)
    (hroom : ∀ r, t.connect_layer ties dist id curr 0 = some r →
      ∀ j ∈ r.1.links 0 id, K j → (t.links 0 j).length < M_MAX0) (hself : t.links 0 id = [])
    (hkeys : ∀ j, K j ∨ j = id → j ∈ t.nodes.keys) :
    ∃ s' curr' n, t.connect_layer ties dist id curr 0 = some (s', curr') ∧
      s'.Region (fun j => K j ∨ j = id) ∧ Relinked t s' ∧
      (K n ∧ n ∈ s'.links 0 id ∧ id ∈ s'.links 0 n) ∧
      ∀ j, ∀ k ∈ t.links 0 j, k ∈ s'.links 0 j := by
  obtain ⟨found, selected, hdel, hfoundK, hsel, hround⟩ :=
    connect_layer_spec ties dist hregion id (Or.inl hcurr) 0
  have hselK : ∀ n ∈ selected, K n := by
    intro n hn
    obtain ⟨c, hc, rfl⟩ := List.mem_map.mp (hsel.mem n hn)
    exact (hfoundK c hc).resolve_right (fun h => hsel.not_self (h ▸ hn))
  -- the search comes back with another node than the new one, so something is selected
  have hfound : ∃ c ∈ found, c.id ≠ id := by
    obtain ⟨k, hk, hklive, hreach⟩ := hlive
    rcases hdel.complete with hfull | hall
    · by_contra hnone
      push Not at hnone
      have hsub : found.map Cand.id ⊆ [id] := by
        intro j hj
        obtain ⟨c, hc, rfl⟩ := List.mem_map.mp hj
        exact List.mem_singleton.mpr (hnone c hc)
      have hle := (hdel.nodup.subperm hsub).length_le
      rw [List.length_map, List.length_singleton] at hle
      have : 1 < EF_CONSTRUCTION := by decide
      omega
    · have hmem := hall k hreach
        (show (!(t.get_node k).is_deleted) = true by rw [hklive]; rfl)
      obtain ⟨c, hc, hck⟩ := List.mem_map.mp hmem
      exact ⟨c, hc, fun h => hfresh (h ▸ hck ▸ hk)⟩
  obtain ⟨n, hn⟩ := List.exists_mem_of_ne_nil _ (hsel.ne_nil hfound)
  obtain ⟨hclosed, hrel, -⟩ := link_all_spec ties dist 0 (Or.inr rfl) selected t hregion.closed
    (hkeys id (Or.inr rfl)) (fun n hn => ⟨Or.inl (hselK n hn), hkeys n (Or.inl (hselK n hn))⟩)
  have hfits : (t.links 0 id).length + selected.length ≤ M_MAX0 := by
    rw [hself, List.length_nil, Nat.zero_add]
    exact le_trans hsel.length (by decide)
  have hown := link_all_self ties dist selected t hsel.not_self hfits
  rw [hself, List.nil_append] at hown
  obtain ⟨hmono, hboth⟩ := link_all_room ties dist selected t hsel.nodup hsel.not_self hfits
    (fun n hn => hroom _ hround n (hown.symm ▸ hn) (hselK n hn))
  exact ⟨_, _, n, hround, hregion.relink hrel hclosed, hrel, ⟨hselK n hn, hboth n hn⟩, hmono⟩

/-- **An insertion beside a live node**, into a slot that may be in use and linked to. From the
nodes of `K`, which reach a live one, the new node is linked in both directions, and of their links
none is lost if there is room in the lists of those it is linked with. -/
theorem insert_joins {s : HNSW V} {K : ℕ → Prop} (i : Insertion V)
    (hclosed : ∀ j, K j → ∀ l, ∀ k ∈ s.links l j, K k ∨ k = i.id)
    (hrange : ∀ j, K j → j < s.capacity) (hwritten : ∀ j, K j → j ∈ s.nodes.keys)
    (hfresh : ¬ K i.id) (hentry : s.entry_point_id ≠ NO_ENTRY) (hK : K s.entry_point_id)
    (habove : ∀ j, K j → ∀ l, i.level.val < l → i.id ∉ s.links l j)
    (hroom : HasRoom ties dist s i)
    (hlive : ∀ j, K j → ∃ k, K k ∧ (s.get_node k).is_deleted = false ∧
      Relation.ReflTransGen (fun a b => b ∈ s.links 0 a ∧ b ≠ i.id) j k) :
    ∃ s' n, step ties dist s (.insert i) = some s' ∧
      (s'.entry_point_id = s.entry_point_id ∨ s'.entry_point_id = i.id) ∧ Gains s i.id s' ∧
      s'.Region (fun j => K j ∨ j = i.id) ∧
      (K n ∧ n ∈ s'.links 0 i.id ∧ i.id ∈ s'.links 0 n) ∧
      ∀ j, K j → ∀ k ∈ s.links 0 j, k ∈ s'.links 0 j := by
  have hne : ∀ j, K j → j ≠ i.id := fun j hj h => hfresh (h ▸ hj)
  have hlinks₁ : ∀ l j, K j → (s.place i.id i.level i.vec_data).links l j = s.links l j :=
    fun l j hj => place_links_ne s i.id i.level i.vec_data l (hne j hj)
  obtain ⟨b, hKb, hstep⟩ := insert_descends_above ties dist i
    (fun j hj => place_capacity_mono s i.id i.level i.vec_data (hrange j hj))
    (fun l hl j hj k hk => by
      rw [hlinks₁ l j hj] at hk
      exact (hclosed j hj l k hk).resolve_right (fun h => habove j hj l hl (h ▸ hk))) hentry hK
  have hgains := gains_place s i.id i.level i.vec_data
  have hregion := place_region_back hclosed hrange i.level i.vec_data
  have hself₁ := place_links_self s i.id i.level i.vec_data 0
  generalize s.place i.id i.level i.vec_data = s₁ at *
  have hkeys₁ : ∀ j, K j ∨ j = i.id → j ∈ s₁.nodes.keys := by
    intro j hj
    exact (hgains.keys j).mpr (hj.symm.imp id (hwritten j))
  -- the layers above 0 leave the links of layer 0 alone
  have hlayers : (List.range (min i.level.val s.current_max_layer + 1)).reverse
      = ((List.range (min i.level.val s.current_max_layer)).map Nat.succ).reverse ++ [0] := by
    rw [List.range_succ_eq_map, List.reverse_cons]
  obtain ⟨t, curr, hupper, htregion, htrel, hKcurr, hground, hcurr⟩ := connect_region ties dist
    (Or.inr rfl) ((List.range (min i.level.val s.current_max_layer)).map Nat.succ).reverse s₁ b
    hregion hkeys₁ (Or.inl hKb)
  have htlinks := hground (by simp)
  have hlinks : ∀ j, K j → t.links 0 j = s.links 0 j :=
    fun j hj => (htlinks j).trans (hlinks₁ 0 j hj)
  have hcurrK : K curr := hKcurr.resolve_right (hcurr (hne b hKb))
  -- a path around the new node is still there
  have hpath : ∀ {j k}, K j →
      Relation.ReflTransGen (fun a b => b ∈ s.links 0 a ∧ b ≠ i.id) j k → K k ∧ t.Reach0 j k := by
    intro j k hj hjk
    induction hjk with
    | refl => exact ⟨hj, Relation.ReflTransGen.refl⟩
    | tail _ hedge ih =>
        exact ⟨(hclosed _ ih.1 0 _ hedge.1).resolve_right hedge.2,
          ih.2.tail ((hlinks _ ih.1).symm ▸ hedge.1)⟩
  -- the insertion ends with the round of layer 0
  have hlast : ∀ r, t.connect_layer ties dist i.id curr 0 = some r →
      step ties dist s (.insert i) = some (r.1.finish i.id
        (if i.level.val > s.current_max_layer then i.id else s.entry_point_id)
        (max i.level.val s.current_max_layer) i.metadata) := by
    intro r hr
    have hground : HNSW.connect ties dist i.id [0] (t, curr) = some r :=
      (congrArg (Option.bind · (HNSW.connect ties dist i.id [])) hr).trans rfl
    rw [hstep, hlayers, connect_append, hupper, Option.bind_some, hground, Option.map_some]
  obtain ⟨s₂, curr', n, hround, hregion₂, hrel, hn, hmono⟩ := ground_round ties dist htregion
    hfresh hcurrK (by
      obtain ⟨k, hk, hklive, hreach⟩ := hlive curr hcurrK
      exact ⟨k, hk, ((htrel.deleted k).trans (hgains.deleted k (hne k hk))).trans hklive,
        (hpath hcurrK hreach).2⟩)
    (fun r hr j hj hK => (hlinks j hK).symm ▸ hroom _ (hlast r hr) j hj) ((htlinks _).trans hself₁)
    (fun j hj => (htrel.keys j).mpr (hkeys₁ j hj))
  refine ⟨_, n, hlast _ hround, ?_, ((hgains.relink htrel).relink hrel).finish _ _ _,
    ⟨hregion₂.closed, hregion₂.range⟩, hn, fun j hj k hk => hmono j k (hlinks j hj ▸ hk)⟩
  unfold HNSW.finish
  dsimp only
  split
  · exact Or.inr rfl
  · exact Or.inl rfl

/-- **An insertion of a fresh node beside a live one.** With room in the lists of its neighbours the
component grows by the new node. -/
theorem insert_live {s : HNSW V} {K : ℕ → Prop} (hs : Component s K)
    (hentry : s.entry_point_id ≠ NO_ENTRY)
    (hlive : ∃ i ∈ s.nodes.keys, (s.get_node i).is_deleted = false) (i : Insertion V)
    (hroom : HasRoom ties dist s i) (hfresh : ¬ K i.id) :
    ∃ s', step ties dist s (.insert i) = some s' ∧
      (s'.entry_point_id = s.entry_point_id ∨ s'.entry_point_id = i.id) ∧
      Component s' (fun j => K j ∨ j = i.id) ∧ Gains s i.id s' := by
  -- nothing links to a fresh node, so every path goes around it
  have haround : ∀ j k, K j → s.Reach0 j k →
      Relation.ReflTransGen (fun a b => b ∈ s.links 0 a ∧ b ≠ i.id) j k ∧ K k := by
    intro j k hj hjk
    induction hjk with
    | refl => exact ⟨Relation.ReflTransGen.refl, hj⟩
    | tail _ hedge ih =>
        have hK := hs.region.closed _ ih.2 0 _ hedge
        exact ⟨ih.1.tail ⟨hedge, fun h => hfresh (h ▸ hK)⟩, hK⟩
  obtain ⟨k, hkey, hk⟩ := hlive
  have hkK := hs.live k hkey hk
  obtain ⟨s', n, hstep, hep, hgains, hregion, ⟨hKn, hto, hfrom⟩, hmono⟩ := insert_joins ties dist i
    (fun j hj l m hm => Or.inl (hs.region.closed j hj l m hm)) hs.region.range hs.written hfresh
    hentry hs.entry (fun j hj l _ hm => hfresh (hs.region.closed j hj l _ hm))
    hroom
    (fun j hj => ⟨k, hkK, hk, (haround j k hj (hs.joined j k hj hkK)).1⟩)
  have hold : ∀ j m, K j → K m → s'.Reach0 j m := by
    intro j m hj hm
    exact HNSW.Reach0.mono hs.region.closed hmono hj (hs.joined j m hj hm)
  refine ⟨s', hstep, hep, ⟨hregion, fun j m hj hm => ?_, fun j hj => ?_, ?_, fun j hj hjlive => ?_⟩,
    hgains⟩
  · rcases hj with hj | rfl <;> rcases hm with hm | rfl
    · exact hold j m hj hm
    · exact (hold j n hj hKn).tail hfrom
    · exact Relation.ReflTransGen.head hto (hold n m hKn hm)
    · exact Relation.ReflTransGen.refl
  · exact (hgains.keys j).mpr (hj.symm.imp id (hs.written j))
  · rcases hep with h | h
    · rw [h]
      exact Or.inl hs.entry
    · exact Or.inr h
  · by_cases hji : j = i.id
    · exact Or.inr hji
    · have hkey := ((hgains.keys j).mp hj).resolve_left hji
      exact Or.inl (hs.live j hkey ((hgains.deleted j hji).symm.trans hjlive))

/-- **An insertion when nothing is alive** links the new node with nothing. If its level is
above all others it becomes the entry point, and a component of its own. -/
theorem insert_dead {s : HNSW V} {K : ℕ → Prop} (hs : Component s K)
    (hentry : s.entry_point_id ≠ NO_ENTRY)
    (hdead : ∀ i ∈ s.nodes.keys, (s.get_node i).is_deleted = true) (i : Insertion V)
    (hfresh : ¬ K i.id) (hlevel : s.current_max_layer < i.level.val) :
    ∃ s', step ties dist s (.insert i) = some s' ∧ s'.entry_point_id = i.id ∧
      Component s' (fun j => j = i.id) ∧ Gains s i.id s' := by
  have hne : ∀ j, K j → j ≠ i.id := fun j hj h => hfresh (h ▸ hj)
  have hregion := place_region_fresh hs.region hfresh i.level i.vec_data
  obtain ⟨b, hKb, hstep⟩ := insert_descends ties dist i hregion hentry hs.entry
  have hgains := gains_place s i.id i.level i.vec_data
  have hlinks := place_links_self s i.id i.level i.vec_data
  have hcap := place_lt_capacity s i.id i.level i.vec_data
  generalize s.place i.id i.level i.vec_data = s₁ at *
  rw [connect_dead ties dist hregion (fun j hj => (hgains.deleted j (hne j hj)).trans
    (hdead j (hs.written j hj))) hKb, if_pos hlevel] at hstep
  exact ⟨_, hstep, rfl, component_single hgains hdead hlinks hcap _ _, hgains.finish _ _ _⟩

/-! ## One deletion -/

theorem delete_links (s : HNSW V) (id l j : ℕ) : (s.delete_vector id).links l j = s.links l j := by
  unfold HNSW.links
  rw [delete_get_node]
  split <;> rfl

/-- A deletion moves nothing, and what is alive afterwards was so before. -/
theorem delete_frame (s : HNSW V) (id : ℕ) :
    (s.delete_vector id).entry_point_id = s.entry_point_id ∧
    (s.delete_vector id).capacity = s.capacity ∧
    (∀ j ∈ s.nodes.keys, j ∈ (s.delete_vector id).nodes.keys) ∧
    ∀ j ∈ (s.delete_vector id).nodes.keys, ((s.delete_vector id).get_node j).is_deleted = false →
      j ∈ s.nodes.keys ∧ (s.get_node j).is_deleted = false := by
  have hlive : ∀ j, ((s.delete_vector id).get_node j).is_deleted = false →
      (s.get_node j).is_deleted = false ∧ ¬ (j = id ∧ slot_end id ≤ s.storage_size) := by
    intro j hj
    rw [delete_get_node] at hj
    split at hj
    · simp at hj
    · rename_i hne
      exact ⟨hj, hne⟩
  -- a deletion may write a slot that was never inserted, but only to mark it deleted
  have hkeys : ∀ j, j ∈ (s.delete_vector id).nodes.keys →
      j ∈ s.nodes.keys ∨ j = id ∧ slot_end id ≤ s.storage_size := by
    intro j hj
    unfold HNSW.delete_vector at hj
    split at hj
    · exact Or.inl hj
    split at hj
    · exact Or.inl hj
    · rename_i hcap _
      exact ((Store.mem_keys_set _ _ _ _).mp hj).symm.imp (fun h => h)
        (fun h => ⟨h, not_lt.mp hcap⟩)
  have hrest : (s.delete_vector id).entry_point_id = s.entry_point_id ∧
      (s.delete_vector id).capacity = s.capacity ∧
      ∀ j ∈ s.nodes.keys, j ∈ (s.delete_vector id).nodes.keys := by
    unfold HNSW.delete_vector
    split
    · exact ⟨rfl, rfl, fun _ h => h⟩
    split
    · exact ⟨rfl, rfl, fun _ h => h⟩
    · exact ⟨rfl, rfl, fun j hj => (Store.mem_keys_set _ _ _ _).mpr (Or.inr hj)⟩
  refine ⟨hrest.1, hrest.2.1, hrest.2.2, fun j hj h => ?_⟩
  exact ⟨(hkeys j hj).resolve_right (hlive j h).2, (hlive j h).1⟩

theorem delete_component {s : HNSW V} {K : ℕ → Prop} (hs : Component s K) (id : ℕ) :
    Component (s.delete_vector id) K := by
  obtain ⟨hentry, hcap, hkeys, hlive⟩ := delete_frame s id
  refine ⟨⟨?_, ?_⟩, ?_, fun i hi => hkeys i (hs.written i hi), ?_, ?_⟩
  · intro i hi l j hj
    rw [delete_links] at hj
    exact hs.region.closed i hi l j hj
  · intro i hi
    rw [hcap]
    exact hs.region.range i hi
  · intro i j hi hj
    exact HNSW.Reach0.mono hs.region.closed (fun a _ c hc => (delete_links s id 0 a).symm ▸ hc) hi
      (hs.joined i j hi hj)
  · rw [hentry]
    exact hs.entry
  · intro i hi h
    obtain ⟨hi', h'⟩ := hlive i hi h
    exact hs.live i hi' h'

/-! ## Whole runs -/

/-- What a run keeps, with the ids inserted so far: nothing was inserted and nothing is
alive, or there is a component made of inserted nodes. -/
def Searchable (s : HNSW V) (ids : List ℕ) : Prop :=
  (∀ i ∈ ids, i ∈ s.nodes.keys) ∧
  ((s.entry_point_id = NO_ENTRY ∧ ids = [] ∧
      ∀ i ∈ s.nodes.keys, (s.get_node i).is_deleted = true) ∨
    (s.entry_point_id ≠ NO_ENTRY ∧ ∃ K, Component s K ∧ ∀ i, K i → i ∈ ids))

/-- Nothing that was written is alive. -/
def NoneAlive (s : HNSW V) : Prop := ∀ i ∈ s.nodes.keys, (s.get_node i).is_deleted = true

instance decidableNoneAlive (s : HNSW V) : Decidable (NoneAlive s) := by
  unfold NoneAlive
  infer_instance

/-- An insertion finds room in the lists of its neighbours, its id is not the one that stands for
"no entry point", and if there are nodes and none is alive its level is above all others. -/
def Welcome (s : HNSW V) : Op V → Prop
  | .insert i => i.id < NO_ENTRY ∧ HasRoom ties dist s i ∧
      (s.entry_point_id ≠ NO_ENTRY → NoneAlive s → s.current_max_layer < i.level.val)
  | .delete _ => True

instance decidableWelcome (s : HNSW V) (op : Op V) : Decidable (Welcome ties dist s op) := by
  rcases op with i | id
  · unfold Welcome
    infer_instance
  · exact isTrue trivial

/-- **One operation** keeps the index searchable. -/
theorem searchable_step {s : HNSW V} {ids : List ℕ} (hs : Searchable s ids) {op : Op V}
    (hfresh : (ids ++ inserted [op]).Nodup) (hok : Welcome ties dist s op) :
    ∃ s', step ties dist s op = some s' ∧ Searchable s' (ids ++ inserted [op]) ∧
      ∀ i, op = .insert i → Gains s i.id s' := by
  obtain ⟨hkeys, hcase⟩ := hs
  cases op with
  | delete id =>
      obtain ⟨hentry, -, hmono, hlive⟩ := delete_frame s id
      refine ⟨_, rfl, ?_, fun i hi => by simp at hi⟩
      rw [inserted, inserted, List.append_nil]
      refine ⟨fun i hi => hmono i (hkeys i hi), ?_⟩
      rcases hcase with ⟨h₁, h₂, h₃⟩ | ⟨h₁, K, hK, hids⟩
      · refine Or.inl ⟨hentry.trans h₁, h₂, fun i hi => ?_⟩
        by_contra hne
        obtain ⟨hi', h'⟩ := hlive i hi (by simpa using hne)
        rw [h₃ i hi'] at h'
        simp at h'
      · exact Or.inr ⟨hentry ▸ h₁, K, delete_component hK id, hids⟩
  | insert i =>
      obtain ⟨hid, hroom, hlevel⟩ := hok
      rw [inserted, inserted] at hfresh ⊢
      have hnew : i.id ∉ ids := by
        intro h
        exact (List.nodup_append.mp hfresh).2.2 i.id h i.id (by simp) rfl
      -- in all three cases the new node joins what was written and the entry point is a node
      have hfinish : ∀ (s' : HNSW V) (K : ℕ → Prop), Gains s i.id s' →
          s'.entry_point_id ≠ NO_ENTRY →
          Component s' K → (∀ j, K j → j ∈ ids ∨ j = i.id) →
          Searchable s' (ids ++ [i.id]) ∧ ∀ i', Op.insert i = .insert i' → Gains s i'.id s' := by
        intro s' K hgains hentry hK hsub
        refine ⟨⟨fun j hj => ?_, Or.inr ⟨hentry, K, hK, fun j hj => ?_⟩⟩,
          fun i' h => Op.insert.inj h ▸ hgains⟩
        · rw [hgains.keys]
          rcases List.mem_append.mp hj with hj | hj
          · exact Or.inr (hkeys j hj)
          · exact Or.inl (List.mem_singleton.mp hj)
        · rw [List.mem_append, List.mem_singleton]
          exact hsub j hj
      rcases hcase with ⟨h₁, rfl, h₃⟩ | ⟨h₁, K, hK, hids⟩
      · obtain ⟨s', hstep, hentry, hK, hgains⟩ := insert_first ties dist h₁ h₃ i
        exact ⟨s', hstep,
          hfinish s' _ hgains (hentry ▸ Nat.ne_of_lt hid) hK (fun j hj => Or.inr hj)⟩
      have hKnew : ¬ K i.id := fun h => hnew (hids _ h)
      by_cases hnone : NoneAlive s
      · obtain ⟨s', hstep, hentry, hK', hgains⟩ :=
          insert_dead ties dist hK h₁ hnone i hKnew (hlevel h₁ hnone)
        exact ⟨s', hstep,
          hfinish s' _ hgains (hentry ▸ Nat.ne_of_lt hid) hK' (fun j hj => Or.inr hj)⟩
      · have hlive : ∃ j ∈ s.nodes.keys, (s.get_node j).is_deleted = false := by
          unfold NoneAlive at hnone
          push Not at hnone
          simpa using hnone
        obtain ⟨s', hstep, hentry, hK', hgains⟩ :=
          insert_live ties dist hK h₁ hlive i hroom hKnew
        refine ⟨s', hstep, hfinish s' _ hgains ?_ hK' (fun j hj => hj.imp (hids j) id)⟩
        rcases hentry with h | h
        · exact h ▸ h₁
        · exact h ▸ Nat.ne_of_lt hid

/-- **A whole run.** -/
theorem searchable_run (ops : List (Op V)) :
    ∀ (s : HNSW V) (ids : List ℕ), Searchable s ids → (ids ++ inserted ops).Nodup →
      Trace.Along (step ties dist) (Welcome ties dist) s ops →
      ∃ s', Trace.run (step ties dist) s ops = some s' ∧ Searchable s' (ids ++ inserted ops) := by
  induction ops with
  | nil =>
      intro s ids hs _ _
      refine ⟨s, rfl, ?_⟩
      rw [inserted, List.append_nil]
      exact hs
  | cons op ops ih =>
      intro s ids hs hfresh hok
      have hsplit : inserted (op :: ops) = inserted [op] ++ inserted ops := by
        cases op <;> rfl
      rw [hsplit, ← List.append_assoc] at hfresh ⊢
      obtain ⟨s₁, hstep, hs₁, -⟩ := searchable_step ties dist hs
        (List.Nodup.of_append_left hfresh) hok.1
      obtain ⟨s', hrun, hs'⟩ := ih s₁ _ hs₁ hfresh (hok.2 s₁ hstep)
      refine ⟨s', ?_, hs'⟩
      rw [Trace.run_step hstep]
      exact hrun

theorem searchable_fresh (storage_size : ℕ) : Searchable (HNSW.fresh storage_size : HNSW V) [] :=
  ⟨by simp, Or.inl ⟨rfl, rfl, by simp [HNSW.fresh, Store.keys]⟩⟩

end NanoDB.Index
