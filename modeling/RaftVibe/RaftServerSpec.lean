/-
**What one acquisition of a lock can do.**

`Server.act` says what the event loop does with the lock, one action at a time.  Read the other way
round, an acquisition that succeeds is one of the kinds listed here: it settles into a task that
waits for nobody, it captures a round of requests, it runs a method of the core, or it handles one
answer.  Everything proved about runs of the cluster goes by these kinds.

Main definitions:

* `RaftVibe.Settles` — the acquisitions that leave the core alone and send nothing;
* `RaftVibe.Acts` — all acquisitions.

Main results:

* `RaftVibe.Server.acts_of_act` — **nothing else happens**;
* `RaftVibe.Cluster.step_deliver`, `RaftVibe.Cluster.step_local` — the two kinds of steps of the
  cluster;
* `RaftVibe.Acts.role`, `RaftVibe.Server.receive_role` — who is leader or candidate after an
  acquisition was so before, unless it was elected or started an election.
-/

import RaftVibe.RaftCoreSpec
import RaftVibe.RaftServer
import RaftVibe.Runs

set_option relaxedAutoImplicit false
set_option autoImplicit false

namespace RaftVibe

variable {σ μ : Type} [Storage σ] [Snapshotable μ]

/-! ### Kinds of acquisitions -/

/-- A client sees an error. -/
def Event.Failed : Event → Prop
  | submitReturned _ _ _ result => ∃ e, result = .error e
  | readInvoked _ => False
  | readReturned _ _ result => ∃ e, result = .error e

deriving instance DecidableEq for Event

/-- A request that failed is not waited for any longer. -/
def Task.forget (envelope : Envelope) : Task → Task
  | replicating command entryIndex waiting =>
      replicating command entryIndex (waiting.erase envelope)
  | polling waiting => polling (waiting.erase envelope)
  | heartbeating waiting => heartbeating (waiting.erase envelope)
  | confirming since readIndex numPeers majorityNeeded successCount waiting =>
      confirming since readIndex numPeers majorityNeeded successCount (waiting.erase envelope)
  | task => task

theorem Task.waiting_forget (task : Task) (envelope : Envelope) :
    (task.forget envelope).waiting = task.waiting.erase envelope := by
  cases task <;> simp [forget, waiting]

theorem Task.forget_eq_submitted {task : Task} {envelope : Envelope} {command : String} {i : ℕ} :
    task.forget envelope = .submitted command i ↔ task = .submitted command i := by
  cases task <;> simp [forget]

theorem Task.forget_eq_electing {task : Task} {envelope : Envelope} :
    task.forget envelope = .electing ↔ task = .electing := by
  cases task <;> simp [forget]

/-- **The core stays and nothing is sent**: a task stops, a read goes on by one step. -/
inductive Settles (s : Server σ μ) (now : ℕ) : LocalAction → Task → List Event → Prop
  | stop {action : LocalAction} {events : List Event} (h : ∀ ev ∈ events, ev.Failed) :
      Settles s now action .idle events
  | invoke (ht : s.task = .idle) :
      Settles s now .readIndex (.readInvoked now) [.readInvoked s.core.id]
  | beginRead {since : ℕ} (ht : s.task = .readInvoked since) (hl : s.core.state = .leader) :
      Settles s now .beginRead (.reading since s.core.commitIndex s.core.peers.length) []
  | refuse {action : LocalAction} {since : ℕ} : Settles s now action (.refusing since) []
  | confirm {since readIndex numPeers majorityNeeded successCount : ℕ}
      (ht : s.task = .confirming since readIndex numPeers majorityNeeded successCount [])
      (hl : s.core.state = .leader) (hm : (numPeers + 1) / 2 + 1 ≤ successCount + 1) :
      Settles s now .finish (.awaiting since readIndex) []
  | wait {since readIndex : ℕ} (ht : s.task = .awaiting since readIndex) :
      Settles s now .pollRead (.awaiting since readIndex) []
  | finishRead {since readIndex : ℕ} (ht : s.task = .awaiting since readIndex)
      (hl : s.core.state = .leader) (ha : readIndex ≤ s.core.lastApplied) :
      Settles s now .pollRead .idle [.readReturned s.core.id since (.ok s.core.lastApplied)]

/-- **What one acquisition of the lock by the event loop does.** -/
inductive Acts (s : Server σ μ) (now : ℕ) : LocalAction → Effect σ μ → Prop
  | settle {action : LocalAction} {task : Task} {events : List Event}
      (h : Settles s now action task events) : Acts s now action (s.proceed s.core task events)
  | submit {command : String} {core : RaftCore σ μ} {entry : LogEntry} (ht : s.task = .idle)
      (hl : s.core.state = .leader) (h : s.core.appendLogEntry command = .ok (core, some entry)) :
      Acts s now (.submit command) (s.proceed core (.submitted command entry.index) [])
  | replicate {command : String} {entryIndex : ℕ} (ht : s.task = .submitted command entryIndex) :
      Acts s now .replicate (s.send
        (fun peer => some (.appendEntries (s.core.replicateArgs entryIndex peer)))
        (.replicating command entryIndex))
  | startElection {core : RaftCore σ μ} (ht : s.task = .idle) (hl : s.core.state ≠ .leader)
      (h : s.core.startElection = .ok core) :
      Acts s now .startElection (s.proceed core .electing [])
  | requestVotes (ht : s.task = .electing) :
      Acts s now .requestVotes
        (s.send (fun _ => some (.requestVote s.core.requestVoteArgs)) .polling)
  | sendHeartbeat (hl : s.core.state = .leader) :
      Acts s now .sendHeartbeat (s.send s.core.heartbeatRequest .heartbeating)
  | confirmLeadership {since readIndex numPeers : ℕ}
      (ht : s.task = .reading since readIndex numPeers) (hl : s.core.state = .leader) :
      Acts s now .confirmLeadership (s.send
        (fun peer => some (.appendEntries (s.core.confirmArgs peer)))
        (.confirming since readIndex numPeers ((s.core.peers.length + 1) / 2) 0))
  | submitDone {command : String} {entryIndex : ℕ} {waiting : List Envelope} {envelope : Envelope}
      {result : AppendEntriesResult} {core : RaftCore σ μ} {commit : Option ℕ}
      {results : List (ℕ × ApplyResult)} {res : ApplyResult}
      (ht : s.task = .replicating command entryIndex waiting)
      (h : s.core.handleAppendEntriesResult envelope.target entryIndex result =
        .ok (core, commit, results))
      (hres : Server.entryResult entryIndex results = some res) :
      Acts s now (.answer envelope (.appendEntries result)) (s.proceed core .idle
        [.submitReturned s.core.id command (some entryIndex) (Server.submitResult res)])
  | submitPending {command : String} {entryIndex : ℕ} {waiting : List Envelope}
      {envelope : Envelope} {result : AppendEntriesResult} {core : RaftCore σ μ}
      {commit : Option ℕ} {results : List (ℕ × ApplyResult)}
      (ht : s.task = .replicating command entryIndex waiting)
      (h : s.core.handleAppendEntriesResult envelope.target entryIndex result =
        .ok (core, commit, results)) :
      Acts s now (.answer envelope (.appendEntries result))
        (s.proceed core (s.task.forget envelope) [])
  | voteWon {waiting : List Envelope} {envelope : Envelope} {result : RequestVoteResult}
      {core : RaftCore σ μ} (ht : s.task = .polling waiting)
      (h : s.core.handleRequestVoteResult envelope.target result = .ok (core, true)) :
      Acts s now (.answer envelope (.requestVote result)) (s.proceed core .elected [])
  | votePending {waiting : List Envelope} {envelope : Envelope} {result : RequestVoteResult}
      {core : RaftCore σ μ} (ht : s.task = .polling waiting)
      (h : s.core.handleRequestVoteResult envelope.target result = .ok (core, false)) :
      Acts s now (.answer envelope (.requestVote result))
        (s.proceed core (s.task.forget envelope) [])
  | heartbeatAppended {waiting : List Envelope} {envelope : Envelope}
      {args : AppendEntriesArgs} {result : AppendEntriesResult} {core : RaftCore σ μ}
      {commit : Option ℕ} {results : List (ℕ × ApplyResult)}
      (ht : s.task = .heartbeating waiting) (hreq : envelope.request = .appendEntries args)
      (h : s.core.handleAppendEntriesResult envelope.target args.lastEntryIndex result =
        .ok (core, commit, results)) :
      Acts s now (.answer envelope (.appendEntries result))
        (s.proceed core (s.task.forget envelope) [])
  | heartbeatInstalled {waiting : List Envelope} {envelope : Envelope}
      {args : InstallSnapshotArgs} {result : InstallSnapshotResult}
      (ht : s.task = .heartbeating waiting) (hreq : envelope.request = .installSnapshot args) :
      Acts s now (.answer envelope (.installSnapshot result))
        (s.proceed
          (s.core.handleInstallSnapshotResult envelope.target args.lastIncludedIndex result)
          (s.task.forget envelope) [])
  | confirmLost {since readIndex numPeers majorityNeeded successCount : ℕ}
      {waiting : List Envelope} {envelope : Envelope} {result : AppendEntriesResult}
      (ht : s.task = .confirming since readIndex numPeers majorityNeeded successCount waiting)
      (hlt : s.core.currentTerm < result.term) :
      Acts s now (.answer envelope (.appendEntries result))
        (s.proceed (s.core.stepDownInMemory result.term) (.refusing since) [])
  | confirmCounted {since readIndex numPeers majorityNeeded successCount successCount' : ℕ}
      {waiting waiting' : List Envelope} {envelope : Envelope} {result : AppendEntriesResult}
      (ht : s.task = .confirming since readIndex numPeers majorityNeeded successCount waiting)
      (hle : result.term ≤ s.core.currentTerm)
      (hcount : successCount' = if result.success then successCount + 1 else successCount)
      (hwait : waiting' = [] ∨ waiting' = waiting.erase envelope) :
      Acts s now (.answer envelope (.appendEntries result)) (s.proceed s.core
        (.confirming since readIndex numPeers majorityNeeded successCount' waiting') [])
  | fail {envelope : Envelope} :
      Acts s now (.fail envelope) (s.proceed s.core (s.task.forget envelope) [])

variable {s : Server σ μ} {now : ℕ} {action : LocalAction} {e : Effect σ μ}

/-- The effect is the one that was computed. -/
theorem Acts.of_some {x : Effect σ μ} (hx : Acts s now action x) (h : some x = some e) :
    Acts s now action e := by
  rw [← Option.some.inj h]
  exact hx

namespace Server

theorem acts_submit {command : String} (h : s.act now (.submit command) = some e) :
    Acts s now (.submit command) e := by
  have failed {error : RaftError} : ∀ ev ∈ [Event.submitReturned s.core.id command none
      (.error error)], ev.Failed := by
    simp [Event.Failed]
  simp only [act] at h
  split at h
  · rename_i ht
    split at h
    · exact Acts.of_some (.settle (.stop failed)) h
    · rename_i hl
      split at h
      · exact Acts.of_some (.settle (.stop failed)) h
      · split at h
        · rename_i core entry ha
          exact Acts.of_some (.submit ht (not_not.1 hl) ha) h
        · rename_i core ha
          rcases RaftCore.appendLogEntry_ok ha with ⟨hno, -⟩ | ⟨-, _, _, -, -, hsome, -⟩
          · exact absurd (not_not.1 hl) hno
          · cases hsome
        · cases h
  · cases h

theorem acts_answer {envelope : Envelope} {reply : Reply}
    (h : s.act now (.answer envelope reply) = some e) : Acts s now (.answer envelope reply) e := by
  simp only [act] at h
  split at h
  · rename_i command entryIndex waiting result ht
    split at h
    · rename_i core commit results hr
      split at h
      · rename_i res hres
        exact Acts.of_some (.submitDone ht hr hres) h
      · have hacts : Acts s now _ _ := .submitPending ht hr
        rw [ht] at hacts
        exact hacts.of_some h
    · cases h
  · rename_i waiting result ht
    split at h
    · rename_i core hr
      exact Acts.of_some (.voteWon ht hr) h
    · rename_i core hr
      have hacts : Acts s now _ _ := .votePending ht hr
      rw [ht] at hacts
      exact hacts.of_some h
    · cases h
  · rename_i waiting result ht
    split at h
    · rename_i args hreq
      split at h
      · rename_i core commit results hr
        have hacts : Acts s now _ _ := .heartbeatAppended ht hreq hr
        rw [ht] at hacts
        exact hacts.of_some h
      · cases h
    · cases h
  · rename_i waiting result ht
    split at h
    · rename_i args hreq
      have hacts : Acts s now (.answer envelope (.installSnapshot result)) _ :=
        .heartbeatInstalled ht hreq
      rw [ht] at hacts
      exact hacts.of_some h
    · cases h
  · rename_i since readIndex numPeers majorityNeeded successCount waiting result ht
    simp only [RaftCore.handleConfirmResult] at h
    split at h
    · rename_i hlt
      exact Acts.of_some (.confirmLost ht hlt) h
    · rename_i hle
      exact Acts.of_some (.confirmCounted ht (not_lt.1 hle) rfl (ite_eq_or_eq _ _ _)) h
  · cases h

theorem acts_fail {envelope : Envelope} (h : s.act now (.fail envelope) = some e) :
    Acts s now (.fail envelope) e := by
  have hfail : Acts s now (.fail envelope) (s.proceed s.core (s.task.forget envelope) []) := .fail
  cases ht : s.task with
  | replicating | polling | heartbeating | confirming =>
      rw [ht] at hfail
      simp only [act, ht] at h
      exact hfail.of_some h
  | _ =>
      simp only [act, ht] at h
      cases h

/-- Nobody has seen anything. -/
theorem failed_nil : ∀ ev ∈ ([] : List Event), ev.Failed := by simp

omit [Storage σ] [Snapshotable μ] in
/-- A read that is refused has failed. -/
theorem failed_read {since : ℕ} {error : RaftError} :
    ∀ ev ∈ [Event.readReturned s.core.id since (.error error)], ev.Failed := by
  simp [Event.Failed]

theorem acts_sendHeartbeat (h : s.act now .sendHeartbeat = some e) :
    Acts s now .sendHeartbeat e := by
  cases ht : s.task with
  | idle | elected =>
      simp only [act, ht] at h
      split at h
      · exact Acts.of_some (.settle (.stop failed_nil)) h
      · rename_i hl
        exact Acts.of_some (.sendHeartbeat (not_not.1 hl)) h
  | _ =>
      simp only [act, ht] at h
      cases h

theorem acts_finish (h : s.act now .finish = some e) : Acts s now .finish e := by
  simp only [act] at h
  split at h
  · exact Acts.of_some (.settle (.stop (by simp [Event.Failed]))) h
  · exact Acts.of_some (.settle (.stop failed_nil)) h
  · exact Acts.of_some (.settle (.stop failed_nil)) h
  · rename_i since readIndex numPeers majorityNeeded successCount ht
    split at h
    · exact Acts.of_some (.settle .refuse) h
    · rename_i hl
      split at h
      · exact Acts.of_some (.settle (.stop failed_read)) h
      · rename_i hm
        exact Acts.of_some (.settle (.confirm ht (not_not.1 hl) (not_lt.1 hm))) h
  · cases h

theorem acts_pollRead (h : s.act now .pollRead = some e) : Acts s now .pollRead e := by
  simp only [act] at h
  split at h
  · rename_i since readIndex ht
    split at h
    · exact Acts.of_some (.settle (.stop failed_read)) h
    · rename_i hl
      split at h
      · rename_i ha
        exact Acts.of_some (.settle (.finishRead ht (not_not.1 hl) ha)) h
      · exact Acts.of_some (.settle (.wait ht)) h
  · cases h

/-- **Nothing else happens**: an acquisition that succeeds is one of the kinds. -/
theorem acts_of_act (h : s.act now action = some e) : Acts s now action e := by
  cases action with
  | submit command => exact acts_submit h
  | answer envelope reply => exact acts_answer h
  | fail envelope => exact acts_fail h
  | sendHeartbeat => exact acts_sendHeartbeat h
  | finish => exact acts_finish h
  | pollRead => exact acts_pollRead h
  | replicate =>
      simp only [act] at h
      split at h
      · rename_i command entryIndex ht
        exact Acts.of_some (.replicate ht) h
      · cases h
  | startElection =>
      simp only [act] at h
      split at h
      · rename_i ht
        split at h
        · cases h
        · rename_i hl
          split at h
          · rename_i core hc
            exact Acts.of_some (.startElection ht hl hc) h
          · cases h
      · cases h
  | requestVotes =>
      simp only [act] at h
      split at h
      · rename_i ht
        exact Acts.of_some (.requestVotes ht) h
      · cases h
  | readIndex =>
      simp only [act] at h
      split at h
      · rename_i ht
        exact Acts.of_some (.settle (.invoke ht)) h
      · cases h
  | beginRead =>
      simp only [act] at h
      split at h
      · rename_i since ht
        split at h
        · exact Acts.of_some (.settle (.stop failed_read)) h
        · rename_i hl
          exact Acts.of_some (.settle (.beginRead ht (not_not.1 hl))) h
      · cases h
  | confirmLeadership =>
      simp only [act] at h
      split at h
      · rename_i since readIndex numPeers ht
        split at h
        · exact Acts.of_some (.settle .refuse) h
        · rename_i hl
          exact Acts.of_some (.confirmLeadership ht (not_not.1 hl)) h
      · cases h
  | drop =>
      cases ht : s.task with
      | replicating | polling | heartbeating | confirming =>
          simp only [act, ht] at h
          exact Acts.of_some (.settle (.stop failed_nil)) h
      | _ =>
          simp only [act, ht] at h
          cases h
  | refuseRead =>
      simp only [act] at h
      split at h
      · exact Acts.of_some (.settle (.stop failed_read)) h
      · cases h
  | readTimeout =>
      simp only [act] at h
      split at h
      · exact Acts.of_some (.settle (.stop failed_read)) h
      · cases h

end Server

/-! ### Results -/

omit [Storage σ] [Snapshotable μ] in
/-- `handle_submit` returns what the state machine gave for the submitted entry. -/
theorem Server.mem_of_entryResult {entryIndex : ℕ} {results : List (ℕ × ApplyResult)}
    {res : ApplyResult} (h : Server.entryResult entryIndex results = some res) :
    (entryIndex, res) ∈ results := by
  have hfold : ∀ (rs : List (ℕ × ApplyResult)) (acc : Option ApplyResult),
      rs.foldl (fun acc r => if r.1 = entryIndex then some r.2 else acc) acc = some res →
        acc = some res ∨ (entryIndex, res) ∈ rs := by
    intro rs
    induction rs with
    | nil => exact fun acc h => Or.inl h
    | cons r rs ih =>
        intro acc h
        rw [List.foldl_cons] at h
        rcases ih _ h with hacc | hmem
        · split at hacc
          · rename_i heq
            rw [← heq, ← Option.some.inj hacc]
            exact Or.inr (List.mem_cons_self ..)
          · exact Or.inl hacc
        · exact Or.inr (List.mem_cons_of_mem _ hmem)
  exact (hfold results none h).resolve_left (by simp)

/-! ### What is sent -/

omit [Storage σ] [Snapshotable μ] in
/-- The requests of a round: one for each peer that gets one. -/
theorem Server.mem_newRound {s : Server σ μ} {request : ℕ → Option Request}
    {envelope : Envelope} : envelope ∈ s.newRound request ↔
      envelope.source = s.core.id ∧ envelope.target ∈ s.core.peers ∧
        envelope.round = s.rounds + 1 ∧ request envelope.target = some envelope.request := by
  simp only [newRound, List.mem_filterMap, Option.map_eq_some_iff]
  constructor
  · rintro ⟨peer, hp, r, hr, rfl⟩
    exact ⟨rfl, hp, rfl, hr⟩
  · rintro ⟨hs, hp, hround, hr⟩
    exact ⟨_, hp, _, hr, by rw [← hs, ← hround]⟩

/-- **Who sends what**: the four captures. -/
theorem Acts.sent_cases {s : Server σ μ} {now : ℕ} {action : LocalAction} {e : Effect σ μ}
    (h : Acts s now action e) {envelope : Envelope} (he : envelope ∈ e.sent) :
    envelope.source = s.core.id ∧ envelope.target ∈ s.core.peers ∧
      envelope.round = s.rounds + 1 ∧ e.server.core = s.core ∧
      ((∃ command i, s.task = .submitted command i ∧
          envelope.request = .appendEntries (s.core.replicateArgs i envelope.target)) ∨
        (s.task = .electing ∧ envelope.request = .requestVote s.core.requestVoteArgs) ∨
        (s.core.state = .leader ∧ s.core.heartbeatRequest envelope.target =
          some envelope.request) ∨
        (s.core.state = .leader ∧
          envelope.request = .appendEntries (s.core.confirmArgs envelope.target))) := by
  cases h with
  | replicate ht =>
      obtain ⟨h₁, h₂, h₃, h₄⟩ := Server.mem_newRound.1 he
      exact ⟨h₁, h₂, h₃, rfl, Or.inl ⟨_, _, ht, (Option.some.inj h₄).symm⟩⟩
  | requestVotes ht =>
      obtain ⟨h₁, h₂, h₃, h₄⟩ := Server.mem_newRound.1 he
      exact ⟨h₁, h₂, h₃, rfl, Or.inr (Or.inl ⟨ht, (Option.some.inj h₄).symm⟩)⟩
  | sendHeartbeat hl =>
      obtain ⟨h₁, h₂, h₃, h₄⟩ := Server.mem_newRound.1 he
      exact ⟨h₁, h₂, h₃, rfl, Or.inr (Or.inr (Or.inl ⟨hl, h₄⟩))⟩
  | confirmLeadership _ hl =>
      obtain ⟨h₁, h₂, h₃, h₄⟩ := Server.mem_newRound.1 he
      exact ⟨h₁, h₂, h₃, rfl, Or.inr (Or.inr (Or.inr ⟨hl, (Option.some.inj h₄).symm⟩))⟩
  | _ => exact absurd he (by simp [Server.proceed])

/-- A task that is between its two locks has just got there, with its role, or nothing has
happened. -/
theorem Acts.submitted {s : Server σ μ} {now : ℕ} {action : LocalAction} {e : Effect σ μ}
    (h : Acts s now action e) {command : String} {i : ℕ}
    (ht : e.server.task = .submitted command i) :
    e.server.core.state = .leader ∨ (s.task = .submitted command i ∧ e.server.core = s.core) := by
  cases h with
  | settle h => cases h <;> simp [Server.proceed] at ht
  | submit _ hl h =>
      rcases RaftCore.appendLogEntry_ok h with ⟨hno, -⟩ | ⟨-, _, _, -, -, -, rfl⟩
      · exact absurd hl hno
      · exact Or.inl hl
  | fail => exact Or.inr ⟨Task.forget_eq_submitted.1 ht, rfl⟩
  | submitPending hw => simp [Server.proceed, hw, Task.forget] at ht
  | votePending hw => simp [Server.proceed, hw, Task.forget] at ht
  | heartbeatAppended hw => simp [Server.proceed, hw, Task.forget] at ht
  | heartbeatInstalled hw => simp [Server.proceed, hw, Task.forget] at ht
  | _ => simp [Server.proceed, Server.send] at ht

theorem Acts.electing {s : Server σ μ} {now : ℕ} {action : LocalAction} {e : Effect σ μ}
    (h : Acts s now action e) (ht : e.server.task = .electing) :
    (e.server.core.state = .candidate ∧ e.server.core.votedFor = some s.core.id) ∨
      (s.task = .electing ∧ e.server.core = s.core) := by
  cases h with
  | settle h => cases h <;> simp [Server.proceed] at ht
  | startElection _ _ h =>
      obtain ⟨_, -, rfl⟩ := RaftCore.startElection_ok h
      exact Or.inl ⟨rfl, rfl⟩
  | fail => exact Or.inr ⟨Task.forget_eq_electing.1 ht, rfl⟩
  | submitPending hw => simp [Server.proceed, hw, Task.forget] at ht
  | votePending hw => simp [Server.proceed, hw, Task.forget] at ht
  | heartbeatAppended hw => simp [Server.proceed, hw, Task.forget] at ht
  | heartbeatInstalled hw => simp [Server.proceed, hw, Task.forget] at ht
  | _ => simp [Server.proceed, Server.send] at ht

/-! ### Steps of the cluster -/

namespace Cluster

open Runs

variable {C C' : Cluster σ μ}

/-- A request is handled at its target. -/
theorem step_deliver {envelope : Envelope} (h : C.step (.deliver envelope) = some C') :
    envelope ∈ C.requests ∧ ∃ core reply,
      Server.receive (C.core envelope.target) envelope.request = .ok (core, reply) ∧
      C' = C.receive envelope core reply := by
  simp only [step] at h
  split at h
  · rename_i hmem
    split at h
    · rename_i core reply hr
      exact ⟨hmem, core, reply, hr, (Option.some.inj h).symm⟩
    · simp at h
  · simp at h

/-- The event loop of a node acquires the lock. -/
theorem step_act {n : ℕ} {action : LocalAction} (h : C.step (.local n action) = some C') :
    n ∈ C.nodes ∧ C.Available n action ∧
      ∃ e, (C.servers n).act C.history.length action = some e ∧ C' = C.perform n e := by
  simp only [step] at h
  split at h
  · rename_i hn
    obtain ⟨e, he, rfl⟩ := Option.map_eq_some_iff.1 h
    exact ⟨hn.1, hn.2, e, he, rfl⟩
  · simp at h

theorem step_local {n : ℕ} {action : LocalAction} (h : C.step (.local n action) = some C') :
    n ∈ C.nodes ∧ C.Available n action ∧
      ∃ e, Acts (C.servers n) C.history.length action e ∧ C' = C.perform n e := by
  obtain ⟨hn, hav, e, he, rfl⟩ := step_act h
  exact ⟨hn, hav, e, Server.acts_of_act he, rfl⟩

omit [Storage σ] [Snapshotable μ] in
@[simp] theorem perform_servers_self (C : Cluster σ μ) (n : ℕ) (e : Effect σ μ) :
    (C.perform n e).servers n = e.server := by
  simp [perform]

omit [Storage σ] [Snapshotable μ] in
theorem perform_servers_ne (C : Cluster σ μ) {n m : ℕ} (e : Effect σ μ) (h : m ≠ n) :
    (C.perform n e).servers m = C.servers m := by
  simp [perform, h]

omit [Storage σ] [Snapshotable μ] in
@[simp] theorem receive_servers_self (C : Cluster σ μ) (envelope : Envelope) (core : RaftCore σ μ)
    (reply : Reply) : (C.receive envelope core reply).servers envelope.target =
      { C.servers envelope.target with core } := by
  simp [receive]

omit [Storage σ] [Snapshotable μ] in
theorem receive_servers_ne (C : Cluster σ μ) {envelope : Envelope} {m : ℕ} (core : RaftCore σ μ)
    (reply : Reply) (h : m ≠ envelope.target) :
    (C.receive envelope core reply).servers m = C.servers m := by
  simp [receive, h]

/-- Nodes that have just been loaded from empty storages, with the given snapshot threshold. -/
def booted (nodes : List ℕ) (storage : σ) (stateMachine : μ) (threshold : ℕ) : Cluster σ μ where
  nodes
  servers n := ⟨(RaftCore.fresh n (nodes.erase n) storage stateMachine).setSnapshotThreshold
    threshold, .idle, 0⟩
  requests := []
  replies := []
  history := []

theorem booted_initial {nodes : List ℕ} (hnodup : nodes.Nodup) {storage : σ} {m : μ}
    (threshold : ℕ) (hterm : Storage.loadTerm storage = .ok 0)
    (hvote : Storage.loadVotedFor storage = .ok none) (hlog : Storage.loadLog storage = .ok [])
    (hsnap : Storage.loadSnapshot storage = .ok none) :
    (booted nodes storage m threshold).Initial where
  nodup := hnodup
  boot n _ := ⟨nodes.erase n, storage, m, threshold, _,
    RaftCore.new_eq_fresh hterm hvote hlog hsnap, rfl, hterm, hvote, hlog, hsnap, hnodup.erase n,
    fun p => by rw [hnodup.mem_erase_iff, and_comm]; rfl⟩
  idle _ _ := rfl
  requests := rfl
  replies := rfl
  history := rfl

/-- A cue for a run: a request or a reply by its number, or an action of a node. -/
inductive Cue
  | deliver (i : ℕ)
  | answer (i : ℕ)
  | local (node : ℕ) (action : LocalAction)

/-- The action that a cue stands for. -/
def choose (C : Cluster σ μ) : Cue → Option Action
  | .deliver i => C.requests[i]?.map .deliver
  | .answer i => C.replies[i]?.map fun r => .local r.1.source (.answer r.1 r.2)
  | .local n action => some (.local n action)

end Cluster

/-! ### Who a node is -/

/-- Nothing ever changes who a node is. -/
def RaftCore.SameNode (core core' : RaftCore σ μ) : Prop :=
  core'.id = core.id ∧ core'.peers = core.peers ∧
    core'.snapshotThreshold = core.snapshotThreshold

namespace RaftCore

variable {core core' : RaftCore σ μ}

omit [Storage σ] [Snapshotable μ] in
theorem SameNode.trans {core'' : RaftCore σ μ} (h : core.SameNode core')
    (h' : core'.SameNode core'') : core.SameNode core'' :=
  ⟨h'.1.trans h.1, h'.2.1.trans h.2.1, h'.2.2.trans h.2.2⟩

omit [Snapshotable μ] in
theorem observeTerm_sameNode {term : ℕ} (h : core.observeTerm term = .ok core') :
    core.SameNode core' := by
  rcases observeTerm_ok h with ⟨-, rfl⟩ | ⟨-, s, -, rfl⟩ <;> exact ⟨rfl, rfl, rfl⟩

omit [Snapshotable μ] in
theorem handleRequestVote_sameNode {args : RequestVoteArgs} {result : RequestVoteResult}
    (h : core.handleRequestVote args = .ok (core', result)) : core.SameNode core' := by
  rcases handleRequestVote_ok h with ⟨-, rfl, -⟩ | ⟨core₁, h₁, -, ⟨rfl, -⟩ | ⟨-, -, hset, -⟩⟩
  · exact ⟨rfl, rfl, rfl⟩
  · exact observeTerm_sameNode h₁
  · obtain ⟨-, rfl⟩ := setVotedFor_ok.1 hset
    exact (observeTerm_sameNode h₁).trans ⟨rfl, rfl, rfl⟩

theorem handleAppendEntries_sameNode {args : AppendEntriesArgs} {out : HandleAppendEntriesOutput}
    (h : core.handleAppendEntries args = .ok (core', out)) : core.SameNode core' := by
  obtain ⟨core₁, h₁, ⟨-, rfl, -⟩ | ⟨-, core₂, rfl, hor⟩⟩ := handleAppendEntries_ok h
  · exact observeTerm_sameNode h₁
  · refine (observeTerm_sameNode h₁).trans ?_
    rcases hor with ⟨rfl, -⟩ | ⟨-, hacc, -⟩
    · exact ⟨rfl, rfl, rfl⟩
    · obtain ⟨_, _, _, _, _, _, _, rfl⟩ := acceptEntries_eq hacc
      exact ⟨rfl, rfl, rfl⟩

theorem handleInstallSnapshot_sameNode {args : InstallSnapshotArgs}
    {result : InstallSnapshotResult} (h : core.handleInstallSnapshot args = .ok (core', result)) :
    core.SameNode core' := by
  rcases handleInstallSnapshot_ok h with ⟨-, rfl, -⟩ | ⟨core₁, core₂, h₁, -, rfl, hor⟩
  · exact ⟨rfl, rfl, rfl⟩
  · refine (observeTerm_sameNode h₁).trans ?_
    rcases hor with ⟨s, reason, rfl, -⟩ | ⟨-, s, m, -, -, rfl, -⟩ <;> exact ⟨rfl, rfl, rfl⟩

omit [Snapshotable μ] in
theorem handleRequestVoteResult_sameNode {peerId : ℕ} {result : RequestVoteResult} {won : Bool}
    (h : core.handleRequestVoteResult peerId result = .ok (core', won)) : core.SameNode core' := by
  obtain ⟨core₁, h₁, ⟨-, rfl, -⟩ | ⟨-, core₂, rfl, hor⟩⟩ := handleRequestVoteResult_ok h
  · exact observeTerm_sameNode h₁
  · refine (observeTerm_sameNode h₁).trans ?_
    obtain ⟨votes, heq, -⟩ := countVote_eq core₁ peerId result
    rw [heq] at hor
    rcases hor with ⟨rfl, -⟩ | ⟨-, hb, -⟩
    · exact ⟨rfl, rfl, rfl⟩
    · obtain ⟨s, -, rfl⟩ := becomeLeader_ok hb
      exact ⟨rfl, rfl, rfl⟩

theorem handleAppendEntriesResult_sameNode {peerId entryIndex : ℕ} {result : AppendEntriesResult}
    {commit : Option ℕ} {results : List (ℕ × ApplyResult)}
    (h : core.handleAppendEntriesResult peerId entryIndex result = .ok (core', commit, results)) :
    core.SameNode core' := by
  obtain ⟨core₁, h₁, ⟨-, rfl, -⟩ | ⟨-, core₂, rfl, hor⟩⟩ := handleAppendEntriesResult_ok h
  · exact observeTerm_sameNode h₁
  · refine (observeTerm_sameNode h₁).trans ?_
    obtain ⟨next, match', heq, -⟩ := recordAppendResult_eq core₁ peerId entryIndex result
    rw [heq] at hor
    rcases hor with ⟨rfl, -⟩ | ⟨-, -, -, -, -, happly⟩
    · exact ⟨rfl, rfl, rfl⟩
    · obtain ⟨_, _, _, _, _, _, rfl⟩ := applyCommittedEntries_eq happly
      exact ⟨rfl, rfl, rfl⟩

omit [Storage σ] [Snapshotable μ] in
theorem handleInstallSnapshotResult_sameNode (core : RaftCore σ μ) (peerId lastIncludedIndex : ℕ)
    (result : InstallSnapshotResult) :
    core.SameNode (core.handleInstallSnapshotResult peerId lastIncludedIndex result) := by
  cases result with
  | success => exact ⟨rfl, rfl, rfl⟩
  | failed term reason =>
      simp only [handleInstallSnapshotResult]
      split <;> exact ⟨rfl, rfl, rfl⟩

end RaftCore

namespace Server

variable {core core' : RaftCore σ μ} {request : Request} {reply : Reply}

/-- A request is handled by one of the three handlers. -/
theorem receive_ok (h : receive core request = .ok (core', reply)) :
    (∃ args result, request = .requestVote args ∧ reply = .requestVote result ∧
      core.handleRequestVote args = .ok (core', result)) ∨
    (∃ args out, request = .appendEntries args ∧ reply = .appendEntries out.result ∧
      core.handleAppendEntries args = .ok (core', out)) ∨
    (∃ args result, request = .installSnapshot args ∧ reply = .installSnapshot result ∧
      core.handleInstallSnapshot args = .ok (core', result)) := by
  cases request with
  | requestVote args =>
      simp only [receive, Except.bind_eq_ok, Except.pure_eq_ok, Prod.mk.injEq, Prod.exists] at h
      obtain ⟨_, result, h, rfl, rfl⟩ := h
      exact Or.inl ⟨args, result, rfl, rfl, h⟩
  | appendEntries args =>
      simp only [receive, Except.bind_eq_ok, Except.pure_eq_ok, Prod.mk.injEq, Prod.exists] at h
      obtain ⟨_, out, h, rfl, rfl⟩ := h
      exact Or.inr (Or.inl ⟨args, out, rfl, rfl, h⟩)
  | installSnapshot args =>
      simp only [receive, Except.bind_eq_ok, Except.pure_eq_ok, Prod.mk.injEq, Prod.exists] at h
      obtain ⟨_, result, h, rfl, rfl⟩ := h
      exact Or.inr (Or.inr ⟨args, result, rfl, rfl, h⟩)

theorem receive_sameNode (h : receive core request = .ok (core', reply)) :
    core.SameNode core' := by
  rcases receive_ok h with ⟨args, _, -, -, h⟩ | ⟨args, _, -, -, h⟩ | ⟨args, _, -, -, h⟩
  · exact RaftCore.handleRequestVote_sameNode h
  · exact RaftCore.handleAppendEntries_sameNode h
  · exact RaftCore.handleInstallSnapshot_sameNode h

end Server

theorem Acts.sameNode {s : Server σ μ} {now : ℕ} {action : LocalAction} {e : Effect σ μ}
    (h : Acts s now action e) : s.core.SameNode e.server.core := by
  cases h with
  | submit _ _ h =>
      rcases RaftCore.appendLogEntry_ok h with ⟨-, rfl, -⟩ | ⟨-, _, _, -, -, -, rfl⟩ <;>
        exact ⟨rfl, rfl, rfl⟩
  | startElection _ _ h =>
      obtain ⟨_, -, rfl⟩ := RaftCore.startElection_ok h
      exact ⟨rfl, rfl, rfl⟩
  | submitDone _ h => exact RaftCore.handleAppendEntriesResult_sameNode h
  | submitPending _ h => exact RaftCore.handleAppendEntriesResult_sameNode h
  | voteWon _ h => exact RaftCore.handleRequestVoteResult_sameNode h
  | votePending _ h => exact RaftCore.handleRequestVoteResult_sameNode h
  | heartbeatAppended _ _ h => exact RaftCore.handleAppendEntriesResult_sameNode h
  | heartbeatInstalled =>
      exact RaftCore.handleInstallSnapshotResult_sameNode _ _ _ _
  | _ => exact ⟨rfl, rfl, rfl⟩

/-! ### The role a node holds -/

namespace RaftCore

variable {core core' : RaftCore σ μ}

/-- `core'` holds the role that `core` held, in the same term. -/
def SameRole (core core' : RaftCore σ μ) : Prop :=
  core'.state = core.state ∧ core'.currentTerm = core.currentTerm

omit [Snapshotable μ] in
theorem handleRequestVote_role {args : RequestVoteArgs} {result : RequestVoteResult}
    (h : core.handleRequestVote args = .ok (core', result)) (hs : core'.state ≠ .follower) :
    core.SameRole core' := by
  rcases handleRequestVote_ok h with ⟨-, rfl, -⟩ | ⟨core₁, h₁, -, ⟨rfl, -⟩ | ⟨-, -, hset, -⟩⟩
  · exact ⟨rfl, rfl⟩
  · rw [eq_of_observeTerm h₁ hs]
    exact ⟨rfl, rfl⟩
  · obtain ⟨-, rfl⟩ := setVotedFor_ok.1 hset
    rw [← eq_of_observeTerm h₁ hs]
    exact ⟨rfl, rfl⟩

theorem handleAppendEntries_role {args : AppendEntriesArgs} {out : HandleAppendEntriesOutput}
    (h : core.handleAppendEntries args = .ok (core', out)) (hs : core'.state ≠ .follower) :
    core' = core ∧ args.term < core.currentTerm := by
  obtain ⟨core₁, h₁, ⟨hlt, rfl, -⟩ | ⟨-, core₂, rfl, hor⟩⟩ := handleAppendEntries_ok h
  · rw [eq_of_observeTerm h₁ hs] at hlt ⊢
    exact ⟨rfl, hlt⟩
  · rcases hor with ⟨rfl, -⟩ | ⟨-, hacc, -⟩
    · exact absurd rfl hs
    · obtain ⟨_, _, _, _, _, _, _, rfl⟩ := acceptEntries_eq hacc
      exact absurd rfl hs

theorem handleInstallSnapshot_role {args : InstallSnapshotArgs}
    {result : InstallSnapshotResult} (h : core.handleInstallSnapshot args = .ok (core', result))
    (hs : core'.state ≠ .follower) : core.SameRole core' := by
  rcases handleInstallSnapshot_ok h with ⟨-, rfl, -⟩ | ⟨core₁, core₂, h₁, -, rfl, hor⟩
  · exact ⟨rfl, rfl⟩
  · rcases hor with ⟨s, reason, rfl, -⟩ | ⟨-, s, m, -, -, rfl, -⟩ <;>
    · rw [← eq_of_observeTerm h₁ hs]
      exact ⟨rfl, rfl⟩

theorem handleAppendEntriesResult_role {peerId entryIndex : ℕ} {result : AppendEntriesResult}
    {commit : Option ℕ} {results : List (ℕ × ApplyResult)}
    (h : core.handleAppendEntriesResult peerId entryIndex result = .ok (core', commit, results))
    (hs : core'.state ≠ .follower) : core.SameRole core' := by
  obtain ⟨core₁, h₁, ⟨-, rfl, -⟩ | ⟨-, core₂, rfl, hor⟩⟩ := handleAppendEntriesResult_ok h
  · rw [eq_of_observeTerm h₁ hs]
    exact ⟨rfl, rfl⟩
  · obtain ⟨next, match', heq, -⟩ := recordAppendResult_eq core₁ peerId entryIndex result
    rw [heq] at hor
    rcases hor with ⟨rfl, -⟩ | ⟨-, -, -, -, -, happly⟩
    · rw [← eq_of_observeTerm h₁ hs]
      exact ⟨rfl, rfl⟩
    · obtain ⟨_, _, _, _, _, _, rfl⟩ := applyCommittedEntries_eq happly
      rw [← eq_of_observeTerm h₁ hs]
      exact ⟨rfl, rfl⟩

omit [Storage σ] [Snapshotable μ] in
theorem handleInstallSnapshotResult_role {peerId lastIncludedIndex : ℕ}
    {result : InstallSnapshotResult}
    (hs : (core.handleInstallSnapshotResult peerId lastIncludedIndex result).state ≠ .follower) :
    core.SameRole (core.handleInstallSnapshotResult peerId lastIncludedIndex result) := by
  cases result with
  | success => exact ⟨rfl, rfl⟩
  | failed term reason =>
      simp only [handleInstallSnapshotResult] at hs ⊢
      split at hs
      · exact absurd rfl hs
      · rename_i hle
        rw [if_neg hle]
        exact ⟨rfl, rfl⟩

omit [Snapshotable μ] in
/-- A vote makes a candidate a leader, and leaves every other role as it is. -/
theorem handleRequestVoteResult_role {peerId : ℕ} {result : RequestVoteResult} {won : Bool}
    (h : core.handleRequestVoteResult peerId result = .ok (core', won))
    (hs : core'.state ≠ .follower) :
    core.SameRole core' ∨
      (core.state = .candidate ∧ core'.state = .leader ∧ core'.currentTerm = core.currentTerm) := by
  obtain ⟨core₁, h₁, ⟨-, rfl, -⟩ | ⟨hc, core₂, rfl, hor⟩⟩ := handleRequestVoteResult_ok h
  · rw [eq_of_observeTerm h₁ hs]
    exact Or.inl ⟨rfl, rfl⟩
  · have hne : core₁.state ≠ .follower := by
      rw [hc]
      simp
    obtain rfl := eq_of_observeTerm h₁ hne
    obtain ⟨votes, heq, -⟩ := countVote_eq core₁ peerId result
    rw [heq] at hor
    rcases hor with ⟨rfl, -⟩ | ⟨-, hb, -⟩
    · exact Or.inl ⟨rfl, rfl⟩
    · obtain ⟨s, -, rfl⟩ := becomeLeader_ok hb
      exact Or.inr ⟨hc, rfl, rfl⟩

omit [Snapshotable μ] in
theorem handleRequestVoteResult_commitIndex {peerId : ℕ} {result : RequestVoteResult} {won : Bool}
    (h : core.handleRequestVoteResult peerId result = .ok (core', won)) :
    core'.commitIndex = core.commitIndex := by
  obtain ⟨core₁, h₁, hor⟩ := handleRequestVoteResult_ok h
  have hci : core₁.commitIndex = core.commitIndex := by
    rcases observeTerm_ok h₁ with ⟨-, rfl⟩ | ⟨-, s, -, rfl⟩ <;> rfl
  rcases hor with ⟨-, rfl, -⟩ | ⟨-, core₂, rfl, hor⟩
  · exact hci
  · obtain ⟨votes, heq, -⟩ := countVote_eq core₁ peerId result
    rw [heq] at hor
    rcases hor with ⟨rfl, -⟩ | ⟨-, hb, -⟩
    · exact hci
    · obtain ⟨s, -, rfl⟩ := becomeLeader_ok hb
      exact hci

omit [Storage σ] [Snapshotable μ] in
theorem handleInstallSnapshotResult_commitIndex (core : RaftCore σ μ)
    (peerId lastIncludedIndex : ℕ) (result : InstallSnapshotResult) :
    (core.handleInstallSnapshotResult peerId lastIncludedIndex result).commitIndex =
      core.commitIndex := by
  cases result with
  | success => rfl
  | failed term reason =>
      simp only [handleInstallSnapshotResult]
      split <;> rfl

/-- Only a leader raises the commit index on an answer, and it stays leader. -/
theorem handleAppendEntriesResult_commit {peerId entryIndex : ℕ} {result : AppendEntriesResult}
    {commit : Option ℕ} {results : List (ℕ × ApplyResult)}
    (h : core.handleAppendEntriesResult peerId entryIndex result = .ok (core', commit, results)) :
    (core'.commitIndex = core.commitIndex ∧ results = []) ∨
      (core.state = .leader ∧ core'.state = .leader ∧ core'.currentTerm = core.currentTerm ∧
        core.commitIndex < core'.commitIndex ∧ commit = some core'.commitIndex ∧
        results.map Prod.fst = List.range' (core.lastApplied + 1)
          (core'.commitIndex - core.lastApplied)) := by
  obtain ⟨core₁, h₁, ⟨-, rfl, -, hres⟩ | ⟨hl, core₂, rfl, hor⟩⟩ := handleAppendEntriesResult_ok h
  · refine Or.inl ⟨?_, hres⟩
    rcases observeTerm_ok h₁ with ⟨-, rfl⟩ | ⟨-, s, -, rfl⟩ <;> rfl
  · obtain rfl := eq_of_observeTerm h₁ (by rw [hl]; simp)
    obtain ⟨next, map, heq, -⟩ := recordAppendResult_eq core₁ peerId entryIndex result
    rw [heq] at hor
    rcases hor with ⟨rfl, -, hres⟩ | ⟨-, -, -, hlt, hcommit, happly⟩
    · exact Or.inl ⟨rfl, hres⟩
    · right
      obtain ⟨es, -, -, hres, -⟩ := applyCommittedEntries_ok happly
      obtain ⟨_, _, _, _, _, _, rfl⟩ := applyCommittedEntries_eq happly
      exact ⟨hl, hl, rfl, hlt, hcommit, hres⟩

omit [Snapshotable μ] in
/-- A vote that does not win leaves everybody in his role. -/
theorem handleRequestVoteResult_pending_role {peerId : ℕ} {result : RequestVoteResult}
    (h : core.handleRequestVoteResult peerId result = .ok (core', false))
    (hs : core'.state ≠ .follower) : core.SameRole core' := by
  obtain ⟨core₁, h₁, ⟨-, rfl, -⟩ | ⟨hc, core₂, rfl, ⟨rfl, -⟩ | ⟨-, -, hno⟩⟩⟩ :=
    handleRequestVoteResult_ok h
  · rw [eq_of_observeTerm h₁ hs]
    exact ⟨rfl, rfl⟩
  · obtain rfl := eq_of_observeTerm h₁ (by rw [hc]; simp)
    obtain ⟨votes, heq, -⟩ := countVote_eq core₁ peerId result
    rw [heq]
    exact ⟨rfl, rfl⟩
  · exact absurd hno (by simp)

end RaftCore

/-- **An incoming request** makes nobody leader or candidate. -/
theorem Server.receive_role {core core' : RaftCore σ μ} {request : Request} {reply : Reply}
    (h : receive core request = .ok (core', reply)) (hs : core'.state ≠ .follower) :
    core.SameRole core' := by
  rcases receive_ok h with ⟨args, _, -, -, h⟩ | ⟨args, _, -, -, h⟩ | ⟨args, _, -, -, h⟩
  · exact RaftCore.handleRequestVote_role h hs
  · rw [(RaftCore.handleAppendEntries_role h hs).1]
    exact ⟨rfl, rfl⟩
  · exact RaftCore.handleInstallSnapshot_role h hs

/-- **An acquisition of the event loop** makes a candidate a leader, or starts an election; else it
leaves who is no follower in its role. -/
theorem Acts.role {s : Server σ μ} {now : ℕ} {action : LocalAction} {e : Effect σ μ}
    (h : Acts s now action e) (hs : e.server.core.state ≠ .follower) :
    s.core.SameRole e.server.core ∨
      (s.core.state = .candidate ∧ e.server.core.state = .leader ∧
        e.server.core.currentTerm = s.core.currentTerm) ∨
      (e.server.core.state = .candidate ∧ e.server.task = .electing) := by
  cases h with
  | submit _ _ h =>
      left
      rcases RaftCore.appendLogEntry_ok h with ⟨-, rfl, -⟩ | ⟨-, _, _, -, -, -, rfl⟩ <;>
        exact ⟨rfl, rfl⟩
  | startElection _ _ h =>
      obtain ⟨_, -, rfl⟩ := RaftCore.startElection_ok h
      exact Or.inr (Or.inr ⟨rfl, rfl⟩)
  | submitDone _ h => exact Or.inl (RaftCore.handleAppendEntriesResult_role h hs)
  | submitPending _ h => exact Or.inl (RaftCore.handleAppendEntriesResult_role h hs)
  | voteWon _ h => exact (RaftCore.handleRequestVoteResult_role h hs).imp id Or.inl
  | votePending _ h => exact (RaftCore.handleRequestVoteResult_role h hs).imp id Or.inl
  | heartbeatAppended _ _ h => exact Or.inl (RaftCore.handleAppendEntriesResult_role h hs)
  | heartbeatInstalled => exact Or.inl (RaftCore.handleInstallSnapshotResult_role hs)
  | confirmLost => exact absurd rfl hs
  | _ => exact Or.inl ⟨rfl, rfl⟩

end RaftVibe
