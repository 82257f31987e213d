/-
**The server loop and the cluster.**

`core/raft_server.rs` runs one event loop per node.  The loop handles one thing at a time — a
client command, a heartbeat tick, an election — but each of these takes and releases the core's
lock several times, and incoming RPCs, which come straight from the transport, run whenever the
lock is free.  A `Task` says at which lock release the loop of a node stands; an `Action` is one
acquisition of one node's lock.  A run of the cluster is a sequence of actions, so every
interleaving at a lock release is a run.

The network keeps every request ever sent and every reply ever given.  Delivering a request twice,
late, out of order or never, and losing a reply, are all choices of actions.  A reply reaches only
the round of requests it answers: `round` numbers the captures of a node.  A future of the
transport resolves once, so a round forgets a request when it is answered.

Main definitions:

* `RaftVibe.Task`, `RaftVibe.Server` — the loop of a node;
* `RaftVibe.Action`, `RaftVibe.Server.act` — the lock acquisitions of the loop;
* `RaftVibe.Cluster`, `RaftVibe.Cluster.step` — the cluster and one action of it;
* `RaftVibe.Cluster.Initial` — a freshly booted cluster.
-/

import Mathlib.Logic.Function.Basic
import RaftVibe.RaftNode

set_option relaxedAutoImplicit false
set_option autoImplicit false

namespace RaftVibe

/-- Errors of the client operations. -/
inductive RaftError
  | notLeader (leaderHint : Option ℕ)
  | notCommitted
  | invalidCommand (message : String)
  | stateMachine (message : String)
  | readTimeout
deriving DecidableEq, Repr

/-- A request on its way: who sent it to whom, in which round of the sender. -/
structure Envelope where
  source : ℕ
  target : ℕ
  round : ℕ
  request : Request
deriving DecidableEq, Repr

/-- What clients see.  A read is named by the length of the history at its invocation. -/
inductive Event
  | submitReturned (node : ℕ) (command : String) (entryIndex : Option ℕ)
      (result : Except RaftError String)
  | readInvoked (node : ℕ)
  | readReturned (node since : ℕ) (result : Except RaftError ℕ)

/-- **Where the event loop of a node stands.**

* `submitted`: in `handle_submit`, between the append and the capture of `replicate_to_peers`;
* `electing`: between `start_election` and the capture of `request_votes`;
* `elected`: after `request_votes` returned `true`, before the first heartbeat;
* `readInvoked`, `reading`, `refusing`, `awaiting`: inside `handle_read_index`, before its first
  lock, before `confirm_leadership`, after it failed, and in the final wait;
* the others wait for the answers of a round. -/
inductive Task
  | idle
  | submitted (command : String) (entryIndex : ℕ)
  | replicating (command : String) (entryIndex : ℕ) (waiting : List Envelope)
  | electing
  | polling (waiting : List Envelope)
  | elected
  | heartbeating (waiting : List Envelope)
  | readInvoked (since : ℕ)
  | reading (since readIndex numPeers : ℕ)
  | confirming (since readIndex numPeers majorityNeeded successCount : ℕ)
      (waiting : List Envelope)
  | refusing (since : ℕ)
  | awaiting (since readIndex : ℕ)

/-- The requests a task still waits for. -/
def Task.waiting : Task → List Envelope
  | replicating _ _ waiting => waiting
  | polling waiting => waiting
  | heartbeating waiting => waiting
  | confirming _ _ _ _ _ waiting => waiting
  | _ => []

/-- A node: its core, its event loop, and how many rounds of requests it has sent. -/
structure Server (σ μ : Type) where
  core : RaftCore σ μ
  task : Task
  rounds : ℕ

/-- One acquisition of the lock by the event loop. -/
inductive LocalAction
  /-- `handle_submit`, up to the append -/
  | submit (command : String)
  /-- the capture of `replicate_to_peers` -/
  | replicate
  /-- the election timeout fires on a node that is not leader: `start_election` -/
  | startElection
  /-- the capture of `request_votes` -/
  | requestVotes
  /-- the capture of `send_heartbeat`, on a tick or after a won election -/
  | sendHeartbeat
  /-- a `ReadIndex` command arrives -/
  | readIndex
  /-- the first lock of `handle_read_index` -/
  | beginRead
  /-- the capture of `confirm_leadership` -/
  | confirmLeadership
  /-- a future of the round resolves with an answer -/
  | answer (envelope : Envelope) (reply : Reply)
  /-- a future of the round resolves with a transport error -/
  | fail (envelope : Envelope)
  /-- the round is over -/
  | finish
  /-- the round is dropped: the timeout around the heartbeat, or a shutdown -/
  | drop
  /-- the lock that reads the leader hint of a refused read -/
  | refuseRead
  /-- one round of the final wait of `handle_read_index` -/
  | pollRead
  /-- the final wait gives up -/
  | readTimeout

/-- What an acquisition leaves behind: the node, the requests sent, what clients see. -/
structure Effect (σ μ : Type) where
  server : Server σ μ
  sent : List Envelope
  events : List Event

namespace Server

variable {σ μ : Type} [Storage σ] [Snapshotable μ]

/-- The next task, with a new core and nothing sent. -/
def proceed (s : Server σ μ) (core : RaftCore σ μ) (task : Task) (events : List Event) :
    Effect σ μ :=
  ⟨{ s with core, task }, [], events⟩

/-- The requests of a new round, one for each peer that gets one. -/
def newRound (s : Server σ μ) (request : ℕ → Option Request) : List Envelope :=
  s.core.peers.filterMap fun peer => (request peer).map (⟨s.core.id, peer, s.rounds + 1, ·⟩)

/-- Send a new round of requests and wait for their answers. -/
def send (s : Server σ μ) (request : ℕ → Option Request) (task : List Envelope → Task) :
    Effect σ μ :=
  let sent := s.newRound request
  ⟨{ s with task := task sent, rounds := s.rounds + 1 }, sent, []⟩

/-- The result for the submitted entry among those of an apply; a later one wins. -/
def entryResult (entryIndex : ℕ) (applyResults : List (ℕ × ApplyResult)) : Option ApplyResult :=
  applyResults.foldl (fun acc r => if r.1 = entryIndex then some r.2 else acc) none

/-- What `handle_submit` returns for a result of the state machine. -/
def submitResult : ApplyResult → Except RaftError String
  | .ok output => .ok output
  | .error message => .error (.stateMachine message)

/-- **One lock acquisition of the event loop.**  `now` is the length of the client history. -/
def act (s : Server σ μ) (now : ℕ) : LocalAction → Option (Effect σ μ)
  | .submit command =>
      match s.task with
      | .idle =>
          if s.core.state ≠ .leader then
            some <| s.proceed s.core .idle
              [.submitReturned s.core.id command none (.error (.notLeader s.core.currentLeader))]
          else
            match s.core.validateCommand command with
            | .error message =>
                some <| s.proceed s.core .idle
                  [.submitReturned s.core.id command none (.error (.invalidCommand message))]
            | .ok _ =>
                match s.core.appendLogEntry command with
                | .ok (core, some entry) => some <| s.proceed core (.submitted command entry.index) []
                | .ok (core, none) =>
                    some <| s.proceed core .idle
                      [.submitReturned s.core.id command none (.error (.notLeader none))]
                | .error _ => none
      | _ => none
  | .replicate =>
      match s.task with
      | .submitted command entryIndex =>
          some <| s.send (fun peer => some (.appendEntries (s.core.replicateArgs entryIndex peer)))
            (.replicating command entryIndex)
      | _ => none
  | .startElection =>
      match s.task with
      | .idle =>
          if s.core.state = .leader then none
          else
            match s.core.startElection with
            | .ok core => some <| s.proceed core .electing []
            | .error _ => none
      | _ => none
  | .requestVotes =>
      match s.task with
      | .electing => some <| s.send (fun _ => some (.requestVote s.core.requestVoteArgs)) .polling
      | _ => none
  | .sendHeartbeat =>
      match s.task with
      | .idle | .elected =>
          if s.core.state ≠ .leader then some <| s.proceed s.core .idle []
          else some <| s.send s.core.heartbeatRequest .heartbeating
      | _ => none
  | .readIndex =>
      match s.task with
      | .idle => some <| s.proceed s.core (.readInvoked now) [.readInvoked s.core.id]
      | _ => none
  | .beginRead =>
      match s.task with
      | .readInvoked since =>
          if s.core.state ≠ .leader then
            some <| s.proceed s.core .idle
              [.readReturned s.core.id since (.error (.notLeader s.core.currentLeader))]
          else
            some <| s.proceed s.core
              (.reading since s.core.commitIndex s.core.peers.length) []
      | _ => none
  | .confirmLeadership =>
      match s.task with
      | .reading since readIndex numPeers =>
          if s.core.state ≠ .leader then some <| s.proceed s.core (.refusing since) []
          else
            some <| s.send (fun peer => some (.appendEntries (s.core.confirmArgs peer)))
              (.confirming since readIndex numPeers ((s.core.peers.length + 1) / 2) 0)
      | _ => none
  | .answer envelope reply =>
      match s.task, reply with
      | .replicating command entryIndex waiting, .appendEntries result =>
          match s.core.handleAppendEntriesResult envelope.target entryIndex result with
          | .ok (core, _, applyResults) =>
              match entryResult entryIndex applyResults with
              | some res =>
                  some <| s.proceed core .idle
                    [.submitReturned s.core.id command (some entryIndex) (submitResult res)]
              | none =>
                  some <| s.proceed core
                    (.replicating command entryIndex (waiting.erase envelope)) []
          | .error _ => none
      | .polling waiting, .requestVote result =>
          match s.core.handleRequestVoteResult envelope.target result with
          | .ok (core, true) => some <| s.proceed core .elected []
          | .ok (core, false) => some <| s.proceed core (.polling (waiting.erase envelope)) []
          | .error _ => none
      | .heartbeating waiting, .appendEntries result =>
          match envelope.request with
          | .appendEntries args =>
              match s.core.handleAppendEntriesResult envelope.target args.lastEntryIndex result with
              | .ok (core, _, _) =>
                  some <| s.proceed core (.heartbeating (waiting.erase envelope)) []
              | .error _ => none
          | _ => none
      | .heartbeating waiting, .installSnapshot result =>
          match envelope.request with
          | .installSnapshot args =>
              some <| s.proceed
                (s.core.handleInstallSnapshotResult envelope.target args.lastIncludedIndex result)
                (.heartbeating (waiting.erase envelope)) []
          | _ => none
      | .confirming since readIndex numPeers majorityNeeded successCount waiting,
          .appendEntries result =>
          let (core, steppedDown) := s.core.handleConfirmResult result
          if steppedDown then some <| s.proceed core (.refusing since) []
          else
            let successCount := if result.success then successCount + 1 else successCount
            let waiting :=
              if successCount ≥ majorityNeeded then [] else waiting.erase envelope
            some <| s.proceed core
              (.confirming since readIndex numPeers majorityNeeded successCount waiting) []
      | _, _ => none
  | .fail envelope =>
      match s.task with
      | .replicating command entryIndex waiting =>
          some <| s.proceed s.core (.replicating command entryIndex (waiting.erase envelope)) []
      | .polling waiting => some <| s.proceed s.core (.polling (waiting.erase envelope)) []
      | .heartbeating waiting =>
          some <| s.proceed s.core (.heartbeating (waiting.erase envelope)) []
      | .confirming since readIndex numPeers majorityNeeded successCount waiting =>
          some <| s.proceed s.core (.confirming since readIndex numPeers majorityNeeded
            successCount (waiting.erase envelope)) []
      | _ => none
  | .finish =>
      match s.task with
      | .replicating command entryIndex [] =>
          some <| s.proceed s.core .idle
            [.submitReturned s.core.id command (some entryIndex) (.error .notCommitted)]
      | .polling [] => some <| s.proceed s.core .idle []
      | .heartbeating [] => some <| s.proceed s.core .idle []
      | .confirming since readIndex numPeers _ successCount [] =>
          if s.core.state ≠ .leader then some <| s.proceed s.core (.refusing since) []
          else if successCount + 1 < (numPeers + 1) / 2 + 1 then
            some <| s.proceed s.core .idle
              [.readReturned s.core.id since (.error .readTimeout)]
          else some <| s.proceed s.core (.awaiting since readIndex) []
      | _ => none
  | .drop =>
      match s.task with
      | .replicating .. | .polling .. | .heartbeating .. | .confirming .. =>
          some <| s.proceed s.core .idle []
      | _ => none
  | .refuseRead =>
      match s.task with
      | .refusing since =>
          some <| s.proceed s.core .idle
            [.readReturned s.core.id since (.error (.notLeader s.core.currentLeader))]
      | _ => none
  | .pollRead =>
      match s.task with
      | .awaiting since readIndex =>
          if s.core.state ≠ .leader then
            some <| s.proceed s.core .idle
              [.readReturned s.core.id since (.error (.notLeader s.core.currentLeader))]
          else if s.core.lastApplied ≥ readIndex then
            some <| s.proceed s.core .idle
              [.readReturned s.core.id since (.ok s.core.lastApplied)]
          else some <| s.proceed s.core (.awaiting since readIndex) []
      | _ => none
  | .readTimeout =>
      match s.task with
      | .awaiting since _ =>
          some <| s.proceed s.core .idle
            [.readReturned s.core.id since (.error .readTimeout)]
      | _ => none

/-- The transport hands an incoming request to the core. -/
def receive (core : RaftCore σ μ) : Request → Except (Panic σ) (RaftCore σ μ × Reply)
  | .requestVote args => do
      let (core, result) ← core.handleRequestVote args
      return (core, .requestVote result)
  | .appendEntries args => do
      let (core, output) ← core.handleAppendEntries args
      return (core, .appendEntries output.result)
  | .installSnapshot args => do
      let (core, result) ← core.handleInstallSnapshot args
      return (core, .installSnapshot result)

end Server

/-- One acquisition of a lock: by an incoming request at its target, or by a node's own loop. -/
inductive Action
  | deliver (envelope : Envelope)
  | local (node : ℕ) (action : LocalAction)

/-- **The cluster**: its members, the network, and what clients have seen. -/
structure Cluster (σ μ : Type) where
  nodes : List ℕ
  servers : ℕ → Server σ μ
  requests : List Envelope
  replies : List (Envelope × Reply)
  history : List Event

namespace Cluster

variable {σ μ : Type} [Storage σ] [Snapshotable μ]

/-- The core of a node. -/
def core (C : Cluster σ μ) (n : ℕ) : RaftCore σ μ := (C.servers n).core

/-- The answers a node may get are those that were given to a request it still waits for. -/
def Available (C : Cluster σ μ) (n : ℕ) : LocalAction → Prop
  | .answer envelope reply =>
      envelope ∈ (C.servers n).task.waiting ∧ (envelope, reply) ∈ C.replies
  | .fail envelope => envelope ∈ (C.servers n).task.waiting
  | _ => True

instance (C : Cluster σ μ) (n : ℕ) (a : LocalAction) : Decidable (C.Available n a) := by
  cases a <;> unfold Available <;> infer_instance

/-- Put the effect of a lock acquisition by node `n` into the cluster. -/
def perform (C : Cluster σ μ) (n : ℕ) (e : Effect σ μ) : Cluster σ μ :=
  { C with
    servers := Function.update C.servers n e.server
    requests := C.requests ++ e.sent
    history := C.history ++ e.events }

/-- A request is handled at its target, which replies. -/
def receive (C : Cluster σ μ) (envelope : Envelope) (core : RaftCore σ μ) (reply : Reply) :
    Cluster σ μ :=
  { C with
    servers := Function.update C.servers envelope.target
      { C.servers envelope.target with core }
    replies := C.replies ++ [(envelope, reply)] }

/-- **One action of the cluster**, if it is enabled and no node panics. -/
def step (C : Cluster σ μ) : Action → Option (Cluster σ μ)
  | .deliver envelope =>
      if envelope ∈ C.requests then
        match Server.receive (C.core envelope.target) envelope.request with
        | .ok (core, reply) => some (C.receive envelope core reply)
        | .error _ => none
      else none
  | .local n action =>
      if n ∈ C.nodes ∧ C.Available n action then
        ((C.servers n).act C.history.length action).map (C.perform n)
      else none

/-- Every node of `nodes` has just been loaded from a storage that has never been written to, with
the other nodes as its peers; nothing has been sent. -/
structure Initial (C : Cluster σ μ) : Prop where
  nodup : C.nodes.Nodup
  boot : ∀ n ∈ C.nodes, ∃ peers storage stateMachine threshold core,
    RaftCore.new n peers storage stateMachine = .ok core ∧
    (C.servers n).core = core.setSnapshotThreshold threshold ∧
    Storage.loadTerm storage = .ok 0 ∧ Storage.loadVotedFor storage = .ok none ∧
    Storage.loadLog storage = .ok [] ∧ Storage.loadSnapshot storage = .ok none ∧
    peers.Nodup ∧ ∀ p, p ∈ peers ↔ p ∈ C.nodes ∧ p ≠ n
  idle : ∀ n ∈ C.nodes, (C.servers n).task = .idle
  requests : C.requests = []
  replies : C.replies = []
  history : C.history = []

end Cluster

end RaftVibe
