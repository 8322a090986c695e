/-
A cluster of Raft nodes: every interleaving of their critical sections.

The state holds the nodes, the elections in progress (one ticker thread a node, so at
most one each), the `send_append_entries_to_peer` calls in progress, and every message
ever put on the wire. Messages are never removed: delivering one late, in any order,
several times or not at all are all just runs. A reply stays deliverable after its
addressee restarted, which the source excludes; that only adds runs.

`Act` names which thread or message moves and `step` runs the corresponding critical
section of `RaftNode`, so a run is a list of `Act`s (`Trace.run`).
-/
import NanoDB.Lib.Trace
import NanoDB.RaftNode

set_option autoImplicit false

namespace NanoDB.Raft

/-- `start_election` between its two lock scopes: the request sent, the futures that have
not resolved, and the peers whose future resolved to `true`. -/
structure Election where
  req : RequestVoteRequest
  pending : List ℤ
  granted : List ℤ
deriving DecidableEq, Repr

/-- A call `send_append_entries_to_peer(term, peer, next_idx)` of node `leader`;
`checked` once its first lock scope has passed. -/
structure SendTask where
  leader : ℤ
  term : ℕ
  peer : ℤ
  next_idx : ℕ
  checked : Bool
deriving DecidableEq, Repr

/-- A message on the wire. A reply carries the request it answers, as the caller's stack
frame does. -/
inductive Message
  | request_vote (dst : ℤ) (req : RequestVoteRequest)
  | request_vote_reply (src : ℤ) (req : RequestVoteRequest) (resp : RequestVoteResponse)
  | append_entries (dst : ℤ) (req : AppendEntriesRequest)
  | append_entries_reply (src : ℤ) (req : AppendEntriesRequest) (resp : AppendEntriesResponse)
  | install_snapshot (dst : ℤ) (req : InstallSnapshotRequest)
  | install_snapshot_reply (src : ℤ) (req : InstallSnapshotRequest)
      (resp : InstallSnapshotResponse)
deriving DecidableEq, Repr

structure Cluster where
  peers : List ℤ
  node : ℤ → RaftNode
  election : ℤ → Option Election
  tasks : List SendTask
  msgs : List Message
  /-- Everything any node has applied: node, log index, command. -/
  applied : List (ℤ × ℕ × Bytes)

/-- Fresh files on every node. -/
def Cluster.init (peers : List ℤ) : Cluster :=
  { peers := peers
    node := fun i => RaftNode.open_files i peers {} {}
    election := fun _ => none
    tasks := []
    msgs := []
    applied := [] }

/-- Which critical section runs next. -/
inductive Act
  | start_election (i : ℤ)
  | deliver_request_vote (i : ℤ) (req : RequestVoteRequest)
  | vote_reply (i p : ℤ) (resp : RequestVoteResponse)
  | vote_failed (i p : ℤ)
  | finish_election (i : ℤ)
  | propose (i : ℤ) (command : Bytes)
  | replicate (i : ℤ)
  | send_check (task : SendTask)
  | send_build (task : SendTask)
  | deliver_append_entries (i : ℤ) (req : AppendEntriesRequest)
  | append_reply (p : ℤ) (req : AppendEntriesRequest) (resp : AppendEntriesResponse)
  | deliver_install_snapshot (i : ℤ) (req : InstallSnapshotRequest)
  | snapshot_reply (p : ℤ) (req : InstallSnapshotRequest) (resp : InstallSnapshotResponse)
  | compact (i : ℤ) (up_to_index : ℕ) (snapshot_data : Bytes)
  | restart (i : ℤ)
deriving DecidableEq, Repr

/-- Replace one node. -/
def Cluster.set (s : Cluster) (i : ℤ) (n : RaftNode) : Cluster :=
  { s with node := Function.update s.node i n }

@[simp] theorem set_node_self (s : Cluster) (i : ℤ) (n : RaftNode) : (s.set i n).node i = n := by
  simp [Cluster.set]

theorem set_node_ne (s : Cluster) {i j : ℤ} (n : RaftNode) (h : j ≠ i) :
    (s.set i n).node j = s.node j := by
  simp [Cluster.set, h]

theorem set_set (s : Cluster) (i : ℤ) (n n' : RaftNode) : (s.set i n).set i n' = s.set i n' := by
  simp [Cluster.set]

/-- Put messages on the wire. -/
def Cluster.send (s : Cluster) (ms : List Message) : Cluster := { s with msgs := ms ++ s.msgs }

/-- Record what node `i` applied. -/
def Cluster.record (s : Cluster) (i : ℤ) (as : List (ℕ × Bytes)) : Cluster :=
  { s with applied := s.applied ++ as.map (fun a => (i, a.1, a.2)) }

def Cluster.set_election (s : Cluster) (i : ℤ) (e : Option Election) : Cluster :=
  { s with election := Function.update s.election i e }

/-- A future of `i`'s election resolves to `granted`. -/
def Cluster.resolve (s : Cluster) (i p : ℤ) (e : Election) (granted : Bool) : Cluster :=
  s.set_election i (some
    { e with
      pending := e.pending.erase p
      granted := if granted then e.granted ++ [p] else e.granted })

theorem resolve_election (s : Cluster) (i p : ℤ) (e : Election) (granted : Bool) :
    (s.resolve i p e granted).election i = some { e with
      pending := e.pending.erase p
      granted := if granted then e.granted ++ [p] else e.granted } :=
  Function.update_self i _ _

/-- One critical section. `none`: that thread has nothing to run, or the message is not
on the wire. -/
def step (s : Cluster) : Act → Option Cluster
  | .start_election i =>
      -- the ticker starts an election only while the role is not Leader, and waits for it
      if i ∈ s.peers ∧ (s.node i).role ≠ .Leader ∧ s.election i = none then
        let n := start_election (s.node i)
        let req := election_request n
        some (((s.set i n).set_election i (some ⟨req, n.stubs, []⟩)).send
          (n.stubs.map (fun p => .request_vote p req)))
      else none
  | .deliver_request_vote i req =>
      if i ∈ s.peers ∧ .request_vote i req ∈ s.msgs then
        let r := handle_request_vote (s.node i) req
        some ((s.set i r.1).send [.request_vote_reply i req r.2])
      else none
  | .vote_reply i p resp =>
      match s.election i with
      | none => none
      | some e =>
          if p ∈ e.pending ∧ .request_vote_reply p e.req resp ∈ s.msgs then
            let r := on_vote_reply (s.node i) e.req.term resp
            some ((s.set i r.1).resolve i p e r.2)
          else none
  | .vote_failed i p =>
      match s.election i with
      | none => none
      | some e => if p ∈ e.pending then some (s.resolve i p e false) else none
  | .finish_election i =>
      match s.election i with
      | none => none
      | some e =>
          if e.pending = [] then
            some ((s.set i
              (finish_election (s.node i) e.req.term (1 + e.granted.length))).set_election i none)
          else none
  | .propose i command =>
      if i ∈ s.peers then
        (propose (s.node i) command).map (fun r => (s.set i r.1).record i r.2)
      else none
  | .replicate i =>
      if i ∈ s.peers ∧ (s.node i).role = .Leader then
        let n := s.node i
        some { s with
          tasks := n.stubs.map (fun p => ⟨i, n.state.current_term, p, n.next_index p, false⟩)
            ++ s.tasks }
      else none
  | .send_check task =>
      if task ∈ s.tasks ∧ task.checked = false then
        let s := { s with tasks := s.tasks.erase task }
        match send_check (s.node task.leader) task.term task.next_idx with
        | .give_up => some s
        | .snapshot req => some (s.send [.install_snapshot task.peer req])
        | .entries => some { s with tasks := { task with checked := true } :: s.tasks }
      else none
  | .send_build task =>
      if task ∈ s.tasks ∧ task.checked = true then
        let s := { s with tasks := s.tasks.erase task }
        match build_append_entries (s.node task.leader) task.term task.next_idx with
        | none => some s
        | some req => some (s.send [.append_entries task.peer req])
      else none
  | .deliver_append_entries i req =>
      if i ∈ s.peers ∧ .append_entries i req ∈ s.msgs then
        let r := handle_append_entries (s.node i) req
        some (((s.set i r.1).send [.append_entries_reply i req r.2.1]).record i r.2.2)
      else none
  | .append_reply p req resp =>
      if .append_entries_reply p req resp ∈ s.msgs then
        let r := on_append_reply (s.node req.leader_id) p req resp
        some ((s.set req.leader_id r.1).record req.leader_id r.2)
      else none
  | .deliver_install_snapshot i req =>
      if i ∈ s.peers ∧ .install_snapshot i req ∈ s.msgs then
        let r := handle_install_snapshot (s.node i) req
        some ((s.set i r.1).send [.install_snapshot_reply i req r.2])
      else none
  | .snapshot_reply p req resp =>
      if .install_snapshot_reply p req resp ∈ s.msgs then
        some (s.set req.leader_id (on_snapshot_reply (s.node req.leader_id) p req resp))
      else none
  | .compact i up_to_index snapshot_data =>
      if i ∈ s.peers then some (s.set i (compact (s.node i) up_to_index snapshot_data).1) else none
  | .restart i =>
      if i ∈ s.peers then
        some (({ s with tasks := s.tasks.filter (fun t => t.leader ≠ i) }.set i
          (s.node i).restart).set_election i none)
      else none

/-! ## What a step does

One node runs a critical section; its election and the calls under way move on, messages are
added, and what was applied is recorded. The proofs about runs take a step apart here and look
at the critical section alone. -/

/-- The node whose critical section an act runs. -/
def Act.actor : Act → ℤ
  | .start_election i | .deliver_request_vote i _ | .vote_reply i _ _ | .vote_failed i _
  | .finish_election i | .propose i _ | .replicate i | .deliver_append_entries i _
  | .deliver_install_snapshot i _ | .compact i _ _ | .restart i => i
  | .send_check task | .send_build task => task.leader
  | .append_reply _ req _ => req.leader_id
  | .snapshot_reply _ req _ => req.leader_id

/-- That node afterwards. -/
def Act.result (s : Cluster) : Act → RaftNode
  | .start_election i => Raft.start_election (s.node i)
  | .deliver_request_vote i req => (handle_request_vote (s.node i) req).1
  | .vote_reply i _ resp =>
      (s.election i).elim (s.node i) (fun e => (on_vote_reply (s.node i) e.req.term resp).1)
  | .finish_election i =>
      (s.election i).elim (s.node i)
        (fun e => Raft.finish_election (s.node i) e.req.term (1 + e.granted.length))
  | .propose i command => (Raft.propose (s.node i) command).elim (s.node i) Prod.fst
  | .deliver_append_entries i req => (handle_append_entries (s.node i) req).1
  | .append_reply p req resp => (on_append_reply (s.node req.leader_id) p req resp).1
  | .deliver_install_snapshot i req => (handle_install_snapshot (s.node i) req).1
  | .snapshot_reply p req resp => on_snapshot_reply (s.node req.leader_id) p req resp
  | .compact i up_to_index snapshot_data =>
      (Raft.compact (s.node i) up_to_index snapshot_data).1
  | .restart i => (s.node i).restart
  | a => s.node a.actor

/-- The messages the act puts on the wire. -/
def Act.sent (s : Cluster) : Act → List Message
  | .start_election i =>
      (Raft.start_election (s.node i)).stubs.map
        (fun p => .request_vote p (election_request (Raft.start_election (s.node i))))
  | .deliver_request_vote i req =>
      [.request_vote_reply i req (handle_request_vote (s.node i) req).2]
  | .send_check task =>
      match Raft.send_check (s.node task.leader) task.term task.next_idx with
      | .snapshot req => [.install_snapshot task.peer req]
      | _ => []
  | .send_build task =>
      match build_append_entries (s.node task.leader) task.term task.next_idx with
      | some req => [.append_entries task.peer req]
      | none => []
  | .deliver_append_entries i req =>
      [.append_entries_reply i req (handle_append_entries (s.node i) req).2.1]
  | .deliver_install_snapshot i req =>
      [.install_snapshot_reply i req (handle_install_snapshot (s.node i) req).2]
  | _ => []

/-- What the node applies, as log indices and commands. -/
def Act.applies (s : Cluster) : Act → List (ℕ × Bytes)
  | .propose i command => (Raft.propose (s.node i) command).elim [] Prod.snd
  | .deliver_append_entries i req => (handle_append_entries (s.node i) req).2.2
  | .append_reply p req resp => (on_append_reply (s.node req.leader_id) p req resp).2
  | _ => []

/-- When the act can run: its thread has come there, or its message is on the wire. -/
def Act.Enabled (s : Cluster) : Act → Prop
  | .start_election i => i ∈ s.peers ∧ (s.node i).role ≠ .Leader ∧ s.election i = none
  | .deliver_request_vote i req => i ∈ s.peers ∧ .request_vote i req ∈ s.msgs
  | .vote_reply i p resp =>
      ∃ e, s.election i = some e ∧ p ∈ e.pending ∧ .request_vote_reply p e.req resp ∈ s.msgs
  | .vote_failed i p => ∃ e, s.election i = some e ∧ p ∈ e.pending
  | .finish_election i => ∃ e, s.election i = some e ∧ e.pending = []
  | .propose i _ | .replicate i => i ∈ s.peers ∧ (s.node i).role = .Leader
  | .send_check task => task ∈ s.tasks ∧ task.checked = false
  | .send_build task => task ∈ s.tasks ∧ task.checked = true
  | .deliver_append_entries i req => i ∈ s.peers ∧ .append_entries i req ∈ s.msgs
  | .append_reply p req resp => .append_entries_reply p req resp ∈ s.msgs
  | .deliver_install_snapshot i req => i ∈ s.peers ∧ .install_snapshot i req ∈ s.msgs
  | .snapshot_reply p req resp => .install_snapshot_reply p req resp ∈ s.msgs
  | .compact i _ _ | .restart i => i ∈ s.peers

/-- The election of the actor afterwards. -/
def Act.election (s : Cluster) : Act → Option Election
  | .start_election i =>
      some ⟨election_request (Raft.start_election (s.node i)),
        (Raft.start_election (s.node i)).stubs, []⟩
  | .vote_reply i p resp =>
      (s.election i).bind (fun e =>
        (s.resolve i p e (on_vote_reply (s.node i) e.req.term resp).2).election i)
  | .vote_failed i p => (s.election i).bind (fun e => (s.resolve i p e false).election i)
  | .finish_election _ | .restart _ => none
  | a => s.election a.actor

/-- The calls of `send_append_entries_to_peer` under way afterwards. -/
def Act.tasks (s : Cluster) : Act → List SendTask
  | .replicate i =>
      (s.node i).stubs.map
        (fun p => ⟨i, (s.node i).state.current_term, p, (s.node i).next_index p, false⟩) ++ s.tasks
  | .send_check task =>
      match Raft.send_check (s.node task.leader) task.term task.next_idx with
      | .entries => { task with checked := true } :: s.tasks.erase task
      | _ => s.tasks.erase task
  | .send_build task => s.tasks.erase task
  | .restart i => s.tasks.filter (fun t => t.leader ≠ i)
  | _ => s.tasks

/-- What a step needs and what it leaves behind. -/
structure Stepped (s : Cluster) (a : Act) (s' : Cluster) : Prop where
  enabled : a.Enabled s
  peers : s'.peers = s.peers
  node : s'.node = (s.set a.actor (a.result s)).node
  election : s'.election = Function.update s.election a.actor (a.election s)
  tasks : s'.tasks = a.tasks s
  msgs : s'.msgs = a.sent s ++ s.msgs
  applied : s'.applied = s.applied ++ (a.applies s).map (fun x => (a.actor, x.1, x.2))

theorem step_spec {s s' : Cluster} {a : Act} (hs : step s a = some s') : Stepped s a s' := by
  -- what an act that touches only part of the state leaves alone
  have same : ∀ i, s.node = (s.set i (s.node i)).node := fun i => by simp [Cluster.set]
  have idle : ∀ i, s.election = Function.update s.election i (s.election i) := fun i => by simp
  have none_applied : s.applied
      = s.applied ++ ([] : List (ℕ × Bytes)).map (fun x => (a.actor, x.1, x.2)) := by simp
  cases a with
  | vote_reply i p resp =>
      rw [step] at hs
      cases he : s.election i with
      | none => simp [he] at hs
      | some e =>
          simp only [he] at hs
          split_ifs at hs with hg
          obtain rfl := Option.some.inj hs
          refine ⟨⟨e, he, hg⟩, rfl, by simp only [Act.result, he]; rfl, ?_, rfl, rfl, none_applied⟩
          simp [Act.election, he, Cluster.resolve, Cluster.set_election, Cluster.set, Act.actor]
  | vote_failed i p =>
      rw [step] at hs
      cases he : s.election i with
      | none => simp [he] at hs
      | some e =>
          simp only [he] at hs
          split_ifs at hs with hg
          obtain rfl := Option.some.inj hs
          refine ⟨⟨e, he, hg⟩, rfl, same i, ?_, rfl, rfl, none_applied⟩
          simp [Act.election, he, Cluster.resolve, Cluster.set_election, Act.actor]
  | finish_election i =>
      rw [step] at hs
      cases he : s.election i with
      | none => simp [he] at hs
      | some e =>
          simp only [he] at hs
          split_ifs at hs with hg
          obtain rfl := Option.some.inj hs
          exact ⟨⟨e, he, hg⟩, rfl, by simp only [Act.result, he]; rfl, rfl, rfl, rfl, none_applied⟩
  | propose i command =>
      rw [step] at hs
      split_ifs at hs with hi
      obtain ⟨out, hout, rfl⟩ := Option.map_eq_some_iff.mp hs
      have hlead : (s.node i).role = .Leader := by
        rw [propose] at hout
        split_ifs at hout with hlead
        exact hlead
      exact ⟨⟨hi, hlead⟩, rfl, by simp only [Act.result, hout]; rfl, idle i, rfl, rfl,
        by simp only [Act.applies, hout]; rfl⟩
  | replicate i =>
      rw [step] at hs
      split_ifs at hs with hg
      obtain rfl := Option.some.inj hs
      exact ⟨hg, rfl, same i, idle i, rfl, rfl, none_applied⟩
  -- both halves of a send read the node and leave it alone
  | send_check task =>
      rw [step] at hs
      split_ifs at hs with hg
      dsimp only at hs
      split at hs <;> rename_i hcheck <;> obtain rfl := Option.some.inj hs <;>
        exact ⟨hg, rfl, same task.leader, idle task.leader,
          by simp only [Act.tasks, hcheck, Cluster.send], by simp only [Act.sent, hcheck]; rfl,
          none_applied⟩
  | send_build task =>
      rw [step] at hs
      split_ifs at hs with hg
      dsimp only at hs
      split at hs <;> rename_i hbuild <;> obtain rfl := Option.some.inj hs <;>
        exact ⟨hg, rfl, same task.leader, idle task.leader, rfl,
          by simp only [Act.sent, hbuild]; rfl, none_applied⟩
  | deliver_append_entries i req =>
      rw [step] at hs
      split_ifs at hs with hg
      obtain rfl := Option.some.inj hs
      exact ⟨hg, rfl, rfl, idle i, rfl, rfl, rfl⟩
  | append_reply p req resp =>
      rw [step] at hs
      split_ifs at hs with hg
      obtain rfl := Option.some.inj hs
      exact ⟨hg, rfl, rfl, idle req.leader_id, rfl, rfl, rfl⟩
  | start_election i =>
      rw [step] at hs
      split_ifs at hs with hg
      obtain rfl := Option.some.inj hs
      exact ⟨hg, rfl, rfl, rfl, rfl, rfl, none_applied⟩
  | restart i =>
      rw [step] at hs
      split_ifs at hs with hg
      obtain rfl := Option.some.inj hs
      exact ⟨hg, rfl, rfl, rfl, rfl, rfl, none_applied⟩
  | _ =>
      rw [step] at hs
      split_ifs at hs with hg
      obtain rfl := Option.some.inj hs
      exact ⟨hg, rfl, rfl, idle _, rfl, rfl, none_applied⟩

theorem Stepped.election_ne {s s' : Cluster} {a : Act} (h : Stepped s a s') {j : ℤ}
    (hj : j ≠ a.actor) : s'.election j = s.election j := by
  rw [h.election, Function.update_of_ne hj]

/-- What holds of every node of `s` and of the new node `i` holds of every node. -/
theorem forall_node_set {s : Cluster} {Q : ℤ → RaftNode → Prop} {i : ℤ} {n : RaftNode}
    (hi : Q i n) (hs : ∀ j, j ≠ i → Q j (s.node j)) : ∀ j, Q j ((s.set i n).node j) := by
  intro j
  by_cases hj : j = i
  · subst hj
    rw [set_node_self]
    exact hi
  · rw [set_node_ne s n hj]
    exact hs j hj

/-- A property of nodes that the actor's critical section keeps. -/
theorem Stepped.forall_node {s s' : Cluster} {a : Act} (h : Stepped s a s')
    {Q : ℤ → RaftNode → Prop} (hactor : Q a.actor (a.result s)) (hs : ∀ j, Q j (s.node j)) :
    ∀ j, Q j (s'.node j) := by
  rw [h.node]
  exact forall_node_set hactor (fun j _ => hs j)

/-- The cluster after the listed critical sections, from fresh files. -/
def run (peers : List ℤ) (acts : List Act) : Option Cluster :=
  Trace.run step (Cluster.init peers) acts

end NanoDB.Raft
