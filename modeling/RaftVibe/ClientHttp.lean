/-
**The client API.**

`api/client_http.rs` serves clients over HTTP.  A `POST` or a `DELETE` of a key is submitted as a
command; a `GET` first asks the event loop for a read index, and then reads the store on its own.  The
store is the one that the core applies to, behind a lock of its own, so a `GET` may find it between two
commands of one `apply_committed_entries`.

Between the cluster and its clients are the requests: each is on its way, or the event loop works on
it, or its handler is about to read the store, or it has been answered, or its node has crashed.
`serde_json` and `{:?}` of a string are parameters.

Main definitions:

* `RaftVibe.SharedKvStore` — the store that is shared with the core;
* `RaftVibe.handleKvSet`, `handleKvDelete`, `handleKvGet`, `handleSubmit` — the handlers;
* `RaftVibe.Service`, `RaftVibe.Service.step` — the cluster and the requests of its clients.
-/

import RaftVibe.KeyValue
import RaftVibe.Restarts

set_option relaxedAutoImplicit false
set_option autoImplicit false

namespace RaftVibe

/-! ### The shared store -/

/-- The code elsewhere: `serde_json` on a map of strings, and `{:?}` of a string. -/
structure KvFormats where
  toVec : (String → Option String) → Except String (List UInt8)
  fromSlice : List UInt8 → Except String (String → Option String)
  debug : String → String

/-- What `serde_json` has written it reads back. -/
class KvFormats.Lawful (formats : KvFormats) : Prop where
  fromSlice_toVec : ∀ {data : String → Option String} {bytes : List UInt8},
    formats.toVec data = .ok bytes → formats.fromSlice bytes = .ok data

/-- Shared key-value store that can be used for both Raft and direct reads. -/
structure SharedKvStore (formats : KvFormats) where
  store : KeyValueStore

namespace SharedKvStore

variable {formats : KvFormats}

def new : SharedKvStore formats := ⟨.new⟩

/-- `KeyValueStore::snapshot`. -/
def snapshot (kv : SharedKvStore formats) : Except String (List UInt8) :=
  match formats.toVec kv.store.data with
  | .ok bytes => .ok bytes
  | .error e => .error ("snapshot serialization failed: " ++ e)

/-- `KeyValueStore::restore`. -/
def restore (_ : SharedKvStore formats) (data : List UInt8) : Except String (SharedKvStore formats) :=
  match formats.fromSlice data with
  | .ok restored => .ok ⟨⟨restored⟩⟩
  | .error e => .error ("snapshot deserialization failed: " ++ e)

instance : Snapshotable (SharedKvStore formats) where
  validate kv command := kv.store.validate command
  apply kv command := (⟨(kv.store.apply command).1⟩, (kv.store.apply command).2)
  snapshot := snapshot
  restore := restore

instance [formats.Lawful] : LawfulSnapshotable (SharedKvStore formats) where
  restore_snapshot {kv bytes} kv' h := by
    replace h : kv.snapshot = .ok bytes := h
    show kv'.restore bytes = .ok kv
    rw [snapshot] at h
    split at h
    · rename_i written hwritten
      obtain rfl := Except.ok.inj h
      rw [restore, KvFormats.Lawful.fromSlice_toVec hwritten]
    · cases h

end SharedKvStore

/-! ### The handlers -/

/-- The status codes that the handlers return. -/
inductive StatusCode
  | ok
  | badRequest
  | internalServerError
  | serviceUnavailable
deriving DecidableEq, Repr

/-- Response for `GET /kv/:key`. -/
structure KvGetResponse where
  key : String
  value : Option String
deriving DecidableEq, Repr

/-- Response for `POST /kv/:key` and `DELETE /kv/:key`. -/
structure KvMutationResponse where
  key : String
  success : Bool
deriving DecidableEq, Repr

/-- Response from a successful submit. -/
structure SubmitResponse where
  result : String
deriving DecidableEq, Repr

structure ErrorResponse where
  error : String
  /-- the leader, if known, for redirect -/
  leaderHint : Option ℕ
deriving DecidableEq, Repr

/-- What a handler returns: a body with status 200, or a status and an error. -/
abbrev HandlerResult (α : Type) := Except (StatusCode × ErrorResponse) α

/-- The arms for errors of a submit, which three handlers have. -/
def submitError : RaftError → StatusCode × ErrorResponse
  | .notLeader leaderHint => (.serviceUnavailable, ⟨"Not the leader", leaderHint⟩)
  | .notCommitted =>
      (.serviceUnavailable, ⟨"Entry not committed (couldn't reach majority)", none⟩)
  | .invalidCommand err => (.badRequest, ⟨"Invalid command: " ++ err, none⟩)
  | .stateMachine err => (.badRequest, ⟨"State machine error: " ++ err, none⟩)
  | .readTimeout => (.serviceUnavailable, ⟨"Read timeout", none⟩)

/-- `handle_submit`, on what `RaftHandle::submit` returns. -/
def handleSubmit : Except RaftError String → HandlerResult SubmitResponse
  | .ok result => .ok ⟨result⟩
  | .error e => .error (submitError e)

/-- `handle_kv_set`. -/
def handleKvSet (key : String) : Except RaftError String → HandlerResult KvMutationResponse
  | .ok _ => .ok ⟨key, true⟩
  | .error e => .error (submitError e)

/-- `handle_kv_delete`. -/
def handleKvDelete (key : String) : Except RaftError String → HandlerResult KvMutationResponse
  | .ok _ => .ok ⟨key, true⟩
  | .error e => .error (submitError e)

/-- `{:?}` of an error. -/
def RaftError.debug (formats : KvFormats) : RaftError → String
  | .notLeader (some leader) => "NotLeader \x7b leader_hint: Some(" ++ toString leader ++ ") \x7d"
  | .notLeader none => "NotLeader \x7b leader_hint: None \x7d"
  | .notCommitted => "NotCommitted"
  | .invalidCommand err => "InvalidCommand(" ++ formats.debug err ++ ")"
  | .stateMachine err => "StateMachine(" ++ formats.debug err ++ ")"
  | .readTimeout => "ReadTimeout"

/-- The arms for errors of a read index. -/
def kvGetError (formats : KvFormats) : RaftError → StatusCode × ErrorResponse
  | .notLeader leaderHint => (.serviceUnavailable, ⟨"Not the leader", leaderHint⟩)
  | .readTimeout => (.serviceUnavailable,
      ⟨"Read timeout (leadership confirmation or apply timeout)", none⟩)
  | e => (.internalServerError, ⟨"Unexpected error: " ++ e.debug formats, none⟩)

/-- `handle_kv_get`, on what `RaftHandle::read_index` returns and the store that it then finds. -/
def handleKvGet (formats : KvFormats) (key : String) (readIndex : Except RaftError ℕ)
    (store : KeyValueStore) : HandlerResult KvGetResponse :=
  match readIndex with
  | .ok _ => .ok ⟨key, store.get key⟩
  | .error e => .error (kvGetError formats e)

/-! ### Requests -/

/-- The requests to `/kv/:key`. -/
inductive KvRequest
  | get (key : String)
  | set (key value : String)
  | delete (key : String)
deriving DecidableEq, Repr

/-- The body of a successful response. -/
inductive HttpBody
  | get (response : KvGetResponse)
  | mutation (response : KvMutationResponse)
deriving DecidableEq, Repr

abbrev HttpResponse := HandlerResult HttpBody

namespace KvRequest

/-- The command that the handler submits. -/
def command : KvRequest → Option String
  | get _ => none
  | set key value => some (kvSetCommand key value)
  | delete key => some (kvDeleteCommand key)

/-- What the handler asks of the event loop. -/
def call (request : KvRequest) : LocalAction :=
  match request.command with
  | some command => .submit command
  | none => .readIndex

/-- The response, if the store is read now or the command is applied to it now. -/
def respond {formats : KvFormats} (request : KvRequest) (kv : SharedKvStore formats) :
    HttpResponse :=
  match request with
  | get key => (handleKvGet formats key (.ok 0) kv.store).map .get
  | set key value => (handleKvSet key
      (Server.submitResult (kv.store.apply (kvSetCommand key value)).2)).map .mutation
  | delete key => (handleKvDelete key
      (Server.submitResult (kv.store.apply (kvDeleteCommand key)).2)).map .mutation

end KvRequest

/-- **Where a request stands.**

* `sent`: on its way to the node, or in the queue of its event loop;
* `serving`: the event loop works on it;
* `confirmed`: in `handle_kv_get`, between the read index and the read of the store;
* `answered`: the response is on its way;
* `lost`: the node has crashed. -/
inductive RequestStage
  | sent
  | serving
  | confirmed (readIndex : ℕ)
  | answered (response : HttpResponse)
  | lost
deriving DecidableEq, Repr

def RequestStage.isConfirmed : RequestStage → Bool
  | confirmed _ => true
  | _ => false

theorem RequestStage.isConfirmed_iff {stage : RequestStage} :
    stage.isConfirmed = true ↔ ∃ readIndex, stage = confirmed readIndex := by
  cases stage <;> simp [isConfirmed]

/-- A request of a client to a node.  The last three fields are for the reader only: when it was sent,
the entry that was appended for it, and its place in the history of commands, with the time at which
it was known. -/
structure HttpRequest where
  node : ℕ
  request : KvRequest
  stage : RequestStage
  sentAt : ℕ
  entry : Option LogEntry
  point : Option (ℕ × ℕ)
deriving DecidableEq, Repr

/-- What the reply channel of a submit brings; an error if it is closed. -/
def submitReply : List Event → Except RaftError String
  | [.submitReturned _ _ _ result] => result
  | _ => .error (.notLeader none)

/-- What the reply channel of a read index brings. -/
def readReply : List Event → Except RaftError ℕ
  | [.readReturned _ _ result] => result
  | _ => .error (.notLeader none)

/-- Where a submit takes effect that tells a result. -/
def submitPoint : List Event → Option ℕ
  | [.submitReturned _ _ (some index) (.ok _)] => some index
  | [.submitReturned _ _ (some index) (.error (.stateMachine _))] => some index
  | _ => none

namespace HttpRequest

variable {σ : Type} {formats : KvFormats}

/-- The event loop of the node takes the request from its queue. -/
def serve (q : HttpRequest) (C : Cluster σ (SharedKvStore formats)) : HttpRequest :=
  { q with
    stage := .serving
    entry := match (C.servers q.node).task with
      | .submitted command index => some ⟨(C.core q.node).currentTerm, index, command⟩
      | _ => none }

/-- The event loop replies, and the handler goes on. -/
def conclude (formats : KvFormats) (q : HttpRequest) (clock : ℕ) (events : List Event) :
    HttpRequest :=
  match q.request with
  | .get _ =>
      match readReply events with
      | .ok readIndex => { q with stage := .confirmed readIndex }
      | .error e => { q with stage := .answered (.error (kvGetError formats e)) }
  | .set key _ => { q with
      stage := .answered ((handleKvSet key (submitReply events)).map .mutation)
      point := (submitPoint events).map (·, clock) }
  | .delete key => { q with
      stage := .answered ((handleKvDelete key (submitReply events)).map .mutation)
      point := (submitPoint events).map (·, clock) }

/-- The handler reads the store, which holds the result of so many commands. -/
def readStore (q : HttpRequest) (kv : SharedKvStore formats) (applied clock : ℕ) : HttpRequest :=
  { q with stage := .answered (q.request.respond kv), point := some (applied, clock) }

/-- A crash of the node takes the handler with it. -/
def lose (q : HttpRequest) (node : ℕ) : HttpRequest :=
  if q.node = node then
    match q.stage with
    | .serving | .confirmed _ => { q with stage := .lost }
    | _ => q
  else q

theorem lose_of_ne {q : HttpRequest} {node : ℕ} (h : q.node ≠ node) : q.lose node = q := if_neg h

/-- What has been recorded of a request outlives its node. -/
theorem lose_records (q : HttpRequest) (node : ℕ) :
    (q.lose node).entry = q.entry ∧ (q.lose node).point = q.point := by
  unfold lose
  repeat' split
  all_goals exact ⟨rfl, rfl⟩

/-- The handler is about to read the store of the node. -/
def Confirmed (q : HttpRequest) (node : ℕ) : Prop := q.node = node ∧ q.stage.isConfirmed = true

instance (q : HttpRequest) (node : ℕ) : Decidable (q.Confirmed node) :=
  inferInstanceAs (Decidable (_ ∧ _))

section Concluding

variable {q : HttpRequest} {clock : ℕ} {events : List Event}

theorem conclude_of_error {command : String} (hq : q.request.command = some command)
    {e : RaftError} (hreply : submitReply events = .error e) (hpoint : submitPoint events = none) :
    q.conclude formats clock events =
      { q with stage := .answered (.error (submitError e)), point := none } := by
  unfold conclude
  split
  · rename_i hrequest
    rw [hrequest] at hq
    cases hq
  all_goals
    rw [hreply, hpoint]
    rfl

/-- What a write is told is what the store answers. -/
theorem conclude_of_told {command : String} (hq : q.request.command = some command)
    (kv : SharedKvStore formats) (id index : ℕ) :
    q.conclude formats clock [.submitReturned id command (some index)
        (Server.submitResult (StateMachine.apply kv command).2)] =
      { q with stage := .answered (q.request.respond kv), point := some (index, clock) } := by
  have hpoint (result : ApplyResult) : submitPoint [.submitReturned id command (some index)
      (Server.submitResult result)] = some index := by
    cases result <;> rfl
  unfold conclude
  split
  · rename_i hrequest
    rw [hrequest] at hq
    cases hq
  all_goals
    rename_i hrequest
    rw [hrequest] at hq ⊢
    obtain rfl := Option.some.inj hq
    rw [hpoint]
    rfl

theorem conclude_of_readError (hq : q.request.command = none) {e : RaftError}
    (hreply : readReply events = .error e) : q.conclude formats clock events =
      { q with stage := .answered (.error (kvGetError formats e)) } := by
  unfold conclude
  split
  · rw [hreply]
  all_goals
    rename_i hrequest
    rw [hrequest] at hq
    cases hq

theorem conclude_of_read (hq : q.request.command = none) (readIndex : ℕ)
    (hreply : readReply events = .ok readIndex) :
    q.conclude formats clock events = { q with stage := .confirmed readIndex } := by
  unfold conclude
  split
  · rw [hreply]
  all_goals
    rename_i hrequest
    rw [hrequest] at hq
    cases hq

/-- A reply does not change the entry, and the place that it gives is known now. -/
theorem conclude_records (formats : KvFormats) (q : HttpRequest) (clock : ℕ) (events : List Event) :
    (q.conclude formats clock events).entry = q.entry ∧
      ∀ p time, (q.conclude formats clock events).point = some (p, time) →
        time = clock ∨ q.point = some (p, time) := by
  have hnow {p time : ℕ} (hp : (submitPoint events).map (·, clock) = some (p, time)) :
      time = clock := by
    obtain ⟨index, -, heq⟩ := Option.map_eq_some_iff.1 hp
    exact (Prod.mk.inj heq).2.symm
  unfold conclude
  repeat' split
  all_goals
    refine ⟨rfl, fun p time hp => ?_⟩
    first
    | exact Or.inr hp
    | exact Or.inl (hnow hp)

end Concluding

end HttpRequest

/-! ### The service -/

/-- The cluster, the requests of its clients, which of them the event loop of each node works on, and
the time. -/
structure Service (σ : Type) (formats : KvFormats) where
  cluster : Cluster σ (SharedKvStore formats)
  requests : ℕ → Option HttpRequest
  count : ℕ
  serving : ℕ → Option ℕ
  clock : ℕ

/-- What happens to the service.

* `send`: a client sends a request to a node;
* `serve`: the event loop of its node takes the request from the queue;
* `cluster`: something happens in the cluster, and in the meantime some handlers read the store of the
  node, each after so many of the commands that the node is applying;
* `readStore`: a handler reads the store;
* `tick`: time goes by. -/
inductive ServiceAction
  | send (node : ℕ) (request : KvRequest)
  | serve (id : ℕ)
  | cluster (action : RestartAction) (reads : List (ℕ × ℕ))
  | readStore (id : ℕ)
  | tick (micros : ℕ)

/-- A call of a client, which comes from the queue. -/
def RestartAction.isCall : RestartAction → Bool
  | act (.local _ (.submit _)) => true
  | act (.local _ .readIndex) => true
  | _ => false

/-- The commands that `apply_committed_entries` applies in the step from `C` to `C'`, one after the
other. -/
def Cluster.applying {σ μ : Type} [Snapshotable μ] (C : Cluster σ μ) (action : Action)
    (C' : Cluster σ μ) : List String :=
  match C.call action with
  | none | some (.installSnapshot _) => []
  | some op =>
      ((op.committing (C.core action.node)).filter fun e =>
        (C.core action.node).lastApplied < e.index ∧
          e.index ≤ (C'.core action.node).lastApplied).map LogEntry.command

namespace Service

variable {σ : Type} {formats : KvFormats}

/-- The cluster has moved on.  If the event loop of the node is idle now, it has replied to the request
that it worked on. -/
def settle (sv : Service σ formats) (node : ℕ) (C : Cluster σ (SharedKvStore formats)) :
    Service σ formats :=
  match sv.serving node, (C.servers node).task with
  | some id, .idle => { sv with
      cluster := C
      serving := Function.update sv.serving node none
      requests := Function.update sv.requests id ((sv.requests id).map fun q =>
        q.conclude formats sv.clock (C.history.drop sv.cluster.history.length)) }
  | _, _ => { sv with cluster := C }

/-- Handlers read the store of the node while it applies the commands. -/
def readWithin (sv : Service σ formats) (node : ℕ) (commands : List String)
    (reads : List (ℕ × ℕ)) : Service σ formats :=
  { sv with
    requests := fun id =>
      match reads.lookup id with
      | some k => (sv.requests id).map fun q =>
          q.readStore (foldCommands (sv.cluster.core node).stateMachine (commands.take k))
            ((sv.cluster.core node).lastApplied + k) sv.clock
      | none => sv.requests id }

/-- Those handlers are about to read that store, and the commands are there. -/
def CanRead (sv : Service σ formats) (node : ℕ) (commands : List String) (reads : List (ℕ × ℕ)) :
    Prop :=
  ∀ r ∈ reads, r.2 ≤ commands.length ∧ ∃ q ∈ sv.requests r.1, q.Confirmed node

instance (sv : Service σ formats) (node : ℕ) (commands : List String) (reads : List (ℕ × ℕ)) :
    Decidable (sv.CanRead node commands reads) := by
  unfold CanRead
  infer_instance

variable [Storage σ]

/-- **One step of the service.** -/
def step (sv : Service σ formats) : ServiceAction → Option (Service σ formats)
  | .send node request => some { sv with
      requests := Function.update sv.requests sv.count
        (some ⟨node, request, .sent, sv.clock, none, none⟩)
      count := sv.count + 1 }
  | .serve id =>
      match sv.requests id with
      | some q =>
          if q.stage = .sent then
            (sv.cluster.step (.local q.node q.request.call)).map fun C =>
              { sv with
                serving := Function.update sv.serving q.node (some id)
                requests := Function.update sv.requests id (some (q.serve C)) }.settle q.node C
          else none
      | none => none
  | .cluster action reads =>
      if action.isCall then none
      else
        match action, sv.cluster.stepOrRestart .new action with
        | .act action, some C =>
            if sv.CanRead action.node (sv.cluster.applying action C) reads then
              some <| (sv.readWithin action.node (sv.cluster.applying action C) reads).settle
                action.node C
            else none
        | .restart node, some C => some { sv with
            cluster := C
            serving := Function.update sv.serving node none
            requests := fun id => (sv.requests id).map (·.lose node) }
        | _, none => none
  | .readStore id =>
      match sv.requests id with
      | some q =>
          if q.Confirmed q.node then
            some { sv with
              requests := Function.update sv.requests id (some (q.readStore
                (sv.cluster.core q.node).stateMachine (sv.cluster.core q.node).lastApplied
                  sv.clock)) }
          else none
      | none => none
  | .tick micros => some { sv with clock := sv.clock + micros }

/-- The cluster has just booted with empty stores, and nobody has sent anything. -/
structure Initial (sv : Service σ formats) : Prop where
  cluster : sv.cluster.Initial
  stores : ∀ n ∈ sv.cluster.nodes, (sv.cluster.core n).stateMachine = .new
  requests : ∀ id, sv.requests id = none
  serving : ∀ n, sv.serving n = none

end Service

end RaftVibe
