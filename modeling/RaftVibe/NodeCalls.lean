/-
**The calls that a run of the cluster makes at one node.**

Whoever acquires the lock of a node makes at most one call of its core, and no other core changes.  So
a run of the cluster, seen from one node, is a sequence of calls, and what holds over every sequence
of calls holds in the cluster — provided that the other nodes are the surroundings that these
results expect.  They are: in a run in which no node leaves the log of its leader, the entries of a
request continue `prev_log_index` and agree with what its target has committed, unless the request is
refused, and then its entries do not matter.

Main definitions:

* `RaftVibe.RaftCore.heeded` — what a request amounts to at its target;
* `RaftVibe.Server.call`, `RaftVibe.Cluster.call` — the call that an action makes;
* `RaftVibe.Cluster.callsAt` — the calls of a run at one node.

Main results:

* `RaftVibe.Cluster.run_callsAt` — **a run, seen from one node, is a sequence of calls**;
* `RaftVibe.Sim.fair` — the surroundings keep their promises.
-/

import RaftVibe.Mirror
import RaftVibe.ReadIndex

set_option relaxedAutoImplicit false
set_option autoImplicit false

namespace RaftVibe

open ReplicatedLog Runs

variable {σ μ : Type}

/-! ### Requests that are refused -/

/-- **What a request amounts to at its target**: a request of an old term, or one whose
`prev_log_index` does not match, might as well have no entries. -/
def RaftCore.heeded (core : RaftCore σ μ) (args : AppendEntriesArgs) : AppendEntriesArgs :=
  if core.currentTerm ≤ args.term ∧ core.PrevMatches args.prevLogIndex args.prevLogTerm then args
  else { args with entries := [] }

/-- The index under which an answer is recorded: on who is no leader any more nothing is. -/
def RaftCore.heededIndex (core : RaftCore σ μ) (entryIndex : ℕ) : ℕ :=
  if core.state = .leader then entryIndex else 0

/-- The call that an incoming request makes. -/
def Request.call (core : RaftCore σ μ) : Request → Op
  | .requestVote args => .requestVote args
  | .appendEntries args => .appendEntries (core.heeded args)
  | .installSnapshot args => .installSnapshot args

namespace RaftCore

variable [Storage σ] {core core₁ : RaftCore σ μ}

omit [Storage σ] in
/-- The check on `prev_log_index` reads nothing but the log. -/
theorem prevMatches_congr {core' : RaftCore σ μ} (hl : core'.log = core.log)
    (hs : core'.snapshotLastIndex = core.snapshotLastIndex)
    (ht : core'.snapshotLastTerm = core.snapshotLastTerm) {prevLogIndex prevLogTerm : ℕ} :
    core'.PrevMatches prevLogIndex prevLogTerm ↔ core.PrevMatches prevLogIndex prevLogTerm := by
  simp only [PrevMatches, lastLogIndex, getLogEntry, hl, hs, ht]

variable [Snapshotable μ]

/-- A refusal does not depend on the entries. -/
theorem handleAppendEntries_of_refused (args : AppendEntriesArgs) (entries : List LogEntry)
    (hno : ¬ (core.currentTerm ≤ args.term ∧ core.PrevMatches args.prevLogIndex args.prevLogTerm))
    {out : HandleAppendEntriesOutput} (h : core.handleAppendEntries args = .ok (core₁, out)) :
    ∃ out', core.handleAppendEntries { args with entries } = .ok (core₁, out') := by
  obtain ⟨core₂, h₂, hor⟩ := handleAppendEntries_ok h
  obtain ⟨hl, hs, -, -⟩ := observeTerm_log h₂
  have hsnap : core₂.snapshotLastTerm = core.snapshotLastTerm := (observeTerm_log h₂).2.2.1
  have hle : core₂.currentTerm = args.term → core.currentTerm ≤ args.term := fun heq => by
    have := observeTerm_currentTerm h₂
    omega
  have hcases : _ ∨ _ := handleAppendEntries_cases (show core.observeTerm
    ({ args with entries } : AppendEntriesArgs).term = .ok core₂ from h₂)
  rcases hor with ⟨hlt, rfl, -, -⟩ | ⟨heq, core₃, rfl, hor⟩
  · rcases hcases with ⟨-, out', hout, -, -⟩ | ⟨heq, -⟩
    · exact ⟨out', hout⟩
    · exact absurd heq (Nat.ne_of_gt hlt)
  · -- the term is right, so `prev_log_index` does not match
    have hp : ¬ RaftCore.PrevMatches { core₂ with
        state := .follower, currentLeader := some args.leaderId }
        args.prevLogIndex args.prevLogTerm := fun hp =>
      hno ⟨hle heq, (prevMatches_congr hl hs hsnap).1 hp⟩
    rcases hor with ⟨rfl, -, -⟩ | ⟨hp', -⟩
    · rcases hcases with ⟨hlt, -⟩ | ⟨-, core₄, rfl, ⟨out', hout, -, -, -⟩ | ⟨hp', -⟩⟩
      · exact absurd heq (Nat.ne_of_gt hlt)
      · exact ⟨out', hout⟩
      · exact absurd hp' hp
    · exact absurd hp' hp

/-- The core that a request leaves is the one that the heeded request leaves. -/
theorem handleAppendEntries_heeded {args : AppendEntriesArgs} :
    (∃ out, core.handleAppendEntries args = .ok (core₁, out)) ↔
      ∃ out, core.handleAppendEntries (core.heeded args) = .ok (core₁, out) := by
  unfold heeded
  split
  · rfl
  · rename_i hno
    constructor
    · rintro ⟨out, h⟩
      exact handleAppendEntries_of_refused args [] hno h
    · rintro ⟨out, h⟩
      exact handleAppendEntries_of_refused { args with entries := [] } args.entries hno h

/-- On who is no leader an answer is recorded under no index. -/
theorem handleAppendEntriesResult_heeded (core : RaftCore σ μ) (peerId entryIndex : ℕ)
    (result : AppendEntriesResult) :
    core.handleAppendEntriesResult peerId (core.heededIndex entryIndex) result =
      core.handleAppendEntriesResult peerId entryIndex result := by
  unfold heededIndex
  split
  · rfl
  · rename_i hl
    have hunfold (i : ℕ) : core.handleAppendEntriesResult peerId i result =
        core.observeTerm result.term >>= _ := rfl
    rw [hunfold, hunfold]
    cases h₁ : core.observeTerm result.term with
    | error p => rfl
    | ok core₁ =>
        have hl₁ : core₁.state ≠ .leader := by
          rcases observeTerm_ok h₁ with ⟨-, rfl⟩ | ⟨-, _, -, rfl⟩
          · exact hl
          · simp
        simp only [bind, Except.bind, if_pos hl₁]

end RaftCore

/-! ### Calls -/

section Calls

variable [Storage σ] [Snapshotable μ]

/-- **An incoming request is a call**, which answers it. -/
theorem Server.receive_iff {core core' : RaftCore σ μ} {request : Request} :
    (∃ reply, Server.receive core request = .ok (core', reply)) ↔
      (request.call core).step core = some core' := by
  rw [Op.step_eq_some]
  cases request with
  | requestVote args =>
      simp only [Server.receive, Request.call, Op.run, Except.bind_eq_ok, Except.pure_eq_ok,
        Prod.exists, Prod.mk.injEq]
      constructor
      · rintro ⟨reply, core₁, result, hout, rfl, -⟩
        exact ⟨_, _, result, hout, rfl, rfl⟩
      · rintro ⟨reply, core₁, result, hout, rfl, -⟩
        exact ⟨_, _, result, hout, rfl, rfl⟩
  | appendEntries args =>
      simp only [Server.receive, Request.call, Op.run, Except.bind_eq_ok, Except.pure_eq_ok,
        Prod.exists, Prod.mk.injEq]
      have h : (∃ out, core.handleAppendEntries args = .ok (core', out)) ↔ _ :=
        RaftCore.handleAppendEntries_heeded
      constructor
      · rintro ⟨reply, core₁, out, hout, rfl, -⟩
        obtain ⟨out', hout'⟩ := h.1 ⟨out, hout⟩
        exact ⟨_, _, out', hout', rfl, rfl⟩
      · rintro ⟨reply, core₁, out, hout, rfl, -⟩
        obtain ⟨out', hout'⟩ := h.2 ⟨out, hout⟩
        exact ⟨_, _, out', hout', rfl, rfl⟩
  | installSnapshot args =>
      simp only [Server.receive, Request.call, Op.run, Except.bind_eq_ok, Except.pure_eq_ok,
        Prod.exists, Prod.mk.injEq]
      constructor
      · rintro ⟨reply, core₁, result, hout, rfl, -⟩
        exact ⟨_, _, result, hout, rfl, rfl⟩
      · rintro ⟨reply, core₁, result, hout, rfl, -⟩
        exact ⟨_, _, result, hout, rfl, rfl⟩

/-- **The call that the event loop makes** when it acquires the lock, if it makes one. -/
def Server.call (s : Server σ μ) : LocalAction → Option Op
  | .submit command =>
      match s.task, s.core.state, s.core.validateCommand command with
      | .idle, .leader, .ok _ => some (.appendLogEntry command)
      | _, _, _ => none
  | .startElection =>
      match s.task with
      | .idle => if s.core.state = .leader then none else some .startElection
      | _ => none
  | .answer envelope reply =>
      match s.task, reply with
      | .replicating _ entryIndex _, .appendEntries result =>
          some (.appendEntriesResult envelope.target (s.core.heededIndex entryIndex) result)
      | .polling _, .requestVote result => some (.requestVoteResult envelope.target result)
      | .heartbeating _, .appendEntries result =>
          match envelope.request with
          | .appendEntries args =>
              some (.appendEntriesResult envelope.target
                (s.core.heededIndex args.lastEntryIndex) result)
          | _ => none
      | .heartbeating _, .installSnapshot result =>
          match envelope.request with
          | .installSnapshot args =>
              some (.installSnapshotResult envelope.target args.lastIncludedIndex result)
          | _ => none
      | .confirming .., .appendEntries result => some (.confirmResult result)
      | _, _ => none
  | _ => none

variable {s : Server σ μ} {now : ℕ} {action : LocalAction} {e : Effect σ μ}

/-- What becomes of the core of a node that makes this call, or none. -/
def RaftCore.After (core : RaftCore σ μ) (call : Option Op) (core' : RaftCore σ μ) : Prop :=
  match call with
  | none => core' = core
  | some op => op.step core = some core'

namespace Server

/-- A submitted command is appended by an idle leader that finds it valid. -/
theorem after_submit {command : String} (h : s.act now (.submit command) = some e) :
    s.core.After (s.call (.submit command)) e.server.core := by
  simp only [act] at h
  split at h
  · rename_i ht
    split at h
    · rename_i hl
      obtain rfl := Option.some.inj h
      cases hs : s.core.state with
      | leader => exact absurd hs hl
      | _ => simp [RaftCore.After, call, ht, hs, proceed]
    · rename_i hl
      have hs := not_not.1 hl
      split at h
      · rename_i message hv
        obtain rfl := Option.some.inj h
        simp [RaftCore.After, call, ht, hs, hv, proceed]
      · rename_i hv
        simp only [RaftCore.After, call, ht, hs, hv, Op.step_eq_some, Op.run,
          Except.bind_eq_ok, Except.pure_eq_ok]
        split at h
        · rename_i core entry happ
          obtain rfl := Option.some.inj h
          exact ⟨none, _, happ, rfl⟩
        · rename_i core happ
          obtain rfl := Option.some.inj h
          exact ⟨none, _, happ, rfl⟩
        · cases h
  · cases h

theorem after_startElection (h : s.act now .startElection = some e) :
    s.core.After (s.call .startElection) e.server.core := by
  simp only [act] at h
  split at h
  · rename_i ht
    split at h
    · cases h
    · rename_i hl
      simp only [RaftCore.After, call, ht, if_neg hl, Op.step_eq_some, Op.run,
        Except.bind_eq_ok, Except.pure_eq_ok]
      split at h
      · rename_i core hc
        obtain rfl := Option.some.inj h
        exact ⟨none, core, hc, rfl⟩
      · cases h
  · cases h

/-- An answer goes to the handler of the round that waits for it. -/
theorem after_answer {envelope : Envelope} {reply : Reply}
    (h : s.act now (.answer envelope reply) = some e) :
    s.core.After (s.call (.answer envelope reply)) e.server.core := by
  have hanswer (op : Op) (hcall : s.call (.answer envelope reply) = some op)
      {core : RaftCore σ μ} (hrun : op.run s.core = .ok (core, none)) {task : Task}
      {events : List Event} (he : some (s.proceed core task events) = some e) :
      s.core.After (s.call (.answer envelope reply)) e.server.core := by
    obtain rfl := Option.some.inj he
    rw [hcall]
    exact Op.step_eq_some.2 ⟨none, hrun⟩
  simp only [act] at h
  split at h
  · rename_i command entryIndex waiting result ht
    split at h
    · rename_i core commit results hr
      have hrun : (Op.appendEntriesResult envelope.target (s.core.heededIndex entryIndex)
          result).run s.core = .ok (core, none) := by
        rw [Op.run, RaftCore.handleAppendEntriesResult_heeded, hr]
        rfl
      split at h <;> exact hanswer _ (by simp [call, ht]) hrun h
    · cases h
  · rename_i waiting result ht
    have hrun {core : RaftCore σ μ} {won : Bool}
        (hr : s.core.handleRequestVoteResult envelope.target result = .ok (core, won)) :
        (Op.requestVoteResult envelope.target result).run s.core = .ok (core, none) := by
      rw [Op.run, hr]
      rfl
    split at h
    · rename_i core hr
      exact hanswer _ (by simp [call, ht]) (hrun hr) h
    · rename_i core hr
      exact hanswer _ (by simp [call, ht]) (hrun hr) h
    · cases h
  · rename_i waiting result ht
    split at h
    · rename_i args hreq
      split at h
      · rename_i core commit results hr
        refine hanswer (.appendEntriesResult envelope.target
          (s.core.heededIndex args.lastEntryIndex) result) (by simp [call, ht, hreq]) ?_ h
        rw [Op.run, RaftCore.handleAppendEntriesResult_heeded, hr]
        rfl
      · cases h
    · cases h
  · rename_i waiting result ht
    split at h
    · rename_i args hreq
      exact hanswer (.installSnapshotResult envelope.target args.lastIncludedIndex result)
        (by simp [call, ht, hreq]) rfl h
    · cases h
  · rename_i since readIndex numPeers majorityNeeded successCount waiting result ht
    have hrun : (Op.confirmResult result).run s.core =
        .ok ((s.core.handleConfirmResult result).1, none) := rfl
    split at h <;> exact hanswer _ (by simp [call, ht]) hrun h
  · cases h

/-- **The event loop makes its call**, and the core changes by nothing else. -/
theorem act_after (h : s.act now action = some e) : s.core.After (s.call action) e.server.core := by
  cases action with
  | submit command => exact after_submit h
  | startElection => exact after_startElection h
  | answer envelope reply => exact after_answer h
  | _ => cases acts_of_act h <;> rfl

/-- **A call that returns lets the event loop go on.** -/
theorem act_of_call (now : ℕ) {op : Op} (hcall : s.call action = some op) {core : RaftCore σ μ}
    (hop : op.step s.core = some core) : ∃ e, s.act now action = some e := by
  obtain ⟨reply, hrun⟩ := Op.step_eq_some.1 hop
  cases action with
  | submit command =>
      simp only [call] at hcall
      split at hcall
      · rename_i ht hs hv
        obtain rfl := Option.some.inj hcall
        simp only [Op.run, Except.bind_eq_ok, Except.pure_eq_ok, Prod.exists] at hrun
        obtain ⟨core₁, entry, happ, -⟩ := hrun
        simp only [act, ht, hs, hv, happ]
        cases entry <;> simp
      · cases hcall
  | startElection =>
      simp only [call] at hcall
      split at hcall
      · rename_i ht
        split at hcall
        · cases hcall
        · rename_i hl
          obtain rfl := Option.some.inj hcall
          simp only [Op.run, Except.bind_eq_ok, Except.pure_eq_ok] at hrun
          obtain ⟨core₁, he, -⟩ := hrun
          simp [act, ht, hl, he]
      · cases hcall
  | answer envelope answer =>
      have hresult {i : ℕ} {result : AppendEntriesResult} (hrun : (Op.appendEntriesResult
          envelope.target (s.core.heededIndex i) result).run s.core = .ok (core, reply)) :
          ∃ core commit results, s.core.handleAppendEntriesResult envelope.target i result =
            .ok (core, commit, results) := by
        simp only [Op.run, RaftCore.handleAppendEntriesResult_heeded, Except.bind_eq_ok,
          Prod.exists] at hrun
        obtain ⟨core₁, commit, results, hr, -⟩ := hrun
        exact ⟨core₁, commit, results, hr⟩
      simp only [call] at hcall
      split at hcall
      · rename_i command entryIndex waiting result ht
        obtain rfl := Option.some.inj hcall
        obtain ⟨core₁, commit, results, hr⟩ := hresult hrun
        simp only [act, ht, hr]
        split <;> exact ⟨_, rfl⟩
      · rename_i waiting result ht
        obtain rfl := Option.some.inj hcall
        simp only [Op.run, Except.bind_eq_ok, Prod.exists] at hrun
        obtain ⟨core₁, won, hr, -⟩ := hrun
        simp only [act, ht, hr]
        cases won <;> exact ⟨_, rfl⟩
      · rename_i waiting result ht
        split at hcall
        · rename_i args hreq
          obtain rfl := Option.some.inj hcall
          obtain ⟨core₁, commit, results, hr⟩ := hresult hrun
          simp only [act, ht, hreq, hr]
          exact ⟨_, rfl⟩
        · cases hcall
      · rename_i waiting result ht
        split at hcall
        · rename_i args hreq
          simp only [act, ht, hreq]
          exact ⟨_, rfl⟩
        · cases hcall
      · rename_i ht
        simp only [act, ht]
        split <;> exact ⟨_, rfl⟩
      · cases hcall
  | _ => cases hcall

end Server

end Calls

/-! ### A run, seen from one node -/

namespace Cluster

variable [Storage σ] [Snapshotable μ] {C C' : Cluster σ μ}
  {ts : List (Transition (Cluster σ μ) Action)}

/-- The call that an action makes at the node whose lock is acquired. -/
def call (C : Cluster σ μ) : Action → Option Op
  | .deliver envelope => some (envelope.request.call (C.core envelope.target))
  | .local n action => (C.servers n).call action

/-- The request has been sent, or the event loop belongs to a member and may get the answer. -/
def Offers (C : Cluster σ μ) : Action → Prop
  | .deliver envelope => envelope ∈ C.requests
  | .local n action => n ∈ C.nodes ∧ C.Available n action

theorem offers_of_step {action : Action} (h : C.step action = some C') : C.Offers action := by
  cases action with
  | deliver envelope => exact (step_deliver h).1
  | «local» n action =>
      obtain ⟨hn, hav, -⟩ := step_local h
      exact ⟨hn, hav⟩

/-- **An action of the cluster is a call at one node**, or changes no core at all. -/
theorem step_after {action : Action} (h : C.step action = some C') :
    (C.core action.node).After (C.call action) (C'.core action.node) ∧
      ∀ m ≠ action.node, C'.servers m = C.servers m := by
  cases action with
  | deliver envelope =>
      obtain ⟨-, core, reply, hrec, rfl⟩ := step_deliver h
      refine ⟨?_, fun m hm => C.receive_servers_ne core reply hm⟩
      show Op.step _ _ = some ((C.receive envelope core reply).servers envelope.target).core
      rw [C.receive_servers_self]
      exact Server.receive_iff.1 ⟨reply, hrec⟩
  | «local» n action =>
      obtain ⟨-, -, e, hact, rfl⟩ := step_act h
      refine ⟨?_, fun m hm => C.perform_servers_ne e hm⟩
      show RaftCore.After _ _ ((C.perform n e).servers n).core
      rw [C.perform_servers_self]
      exact Server.act_after hact

/-- A call that returns is a step, when the cluster offers it. -/
theorem step_of_call {action : Action} (hoff : C.Offers action) {op : Op}
    (hcall : C.call action = some op) {core : RaftCore σ μ}
    (hop : op.step (C.core action.node) = some core) : ∃ C', C.step action = some C' := by
  cases action with
  | deliver envelope =>
      obtain rfl := Option.some.inj hcall
      obtain ⟨reply, hrec⟩ := Server.receive_iff.2 hop
      have hmem : envelope ∈ C.requests := hoff
      have hrec' : Server.receive (C.core envelope.target) envelope.request = .ok (core, reply) :=
        hrec
      simp only [step, if_pos hmem, hrec']
      exact ⟨_, rfl⟩
  | «local» n action =>
      have hoff' : n ∈ C.nodes ∧ C.Available n action := hoff
      obtain ⟨e, he⟩ := Server.act_of_call C.history.length hcall hop
      exact ⟨C.perform n e, by rw [step, if_pos hoff', he, Option.map_some]⟩

/-- The call of one transition at node `n`, if it makes one there. -/
def callAt (n : ℕ) (t : Transition (Cluster σ μ) Action) :
    Option (Transition (RaftCore σ μ) Op) :=
  if t.action.node = n then
    (t.source.call t.action).map fun op => ⟨t.source.core n, op, t.target.core n⟩
  else none

/-- **The calls of a run at node `n`.** -/
def callsAt (n : ℕ) (ts : List (Transition (Cluster σ μ) Action)) :
    List (Transition (RaftCore σ μ) Op) :=
  ts.filterMap (callAt n)

omit [Storage σ] in
theorem mem_callsAt {n : ℕ} {u : Transition (RaftCore σ μ) Op} (hu : u ∈ callsAt n ts) :
    ∃ t ∈ ts, t.action.node = n ∧ t.source.call t.action = some u.action ∧
      u.source = t.source.core n ∧ u.target = t.target.core n := by
  obtain ⟨t, ht, hcall⟩ := List.mem_filterMap.1 hu
  unfold callAt at hcall
  split at hcall
  · rename_i hn
    obtain ⟨op, hop, rfl⟩ := Option.map_eq_some_iff.1 hcall
    exact ⟨t, ht, hn, hop, rfl, rfl⟩
  · cases hcall

/-- **A run of the cluster, seen from one node, is a sequence of calls.** -/
theorem run_callsAt (hr : Run Cluster.step C ts C') (n : ℕ) :
    Run Op.step (C.core n) (callsAt n ts) (C'.core n) := by
  induction hr with
  | nil => exact .nil _
  | @snoc C₁ C₂ ts action hr hs ih =>
      obtain ⟨hafter, hother⟩ := step_after hs
      rw [callsAt, List.filterMap_append]
      by_cases hn : action.node = n
      · cases hcall : C₁.call action with
        | none =>
            have hnone : [(⟨C₁, action, C₂⟩ : Transition (Cluster σ μ) Action)].filterMap
                (callAt n) = [] := by simp [callAt, hcall]
            rw [hcall, hn] at hafter
            have hsame : C₂.core n = C₁.core n := hafter
            rw [hnone, List.append_nil, hsame]
            exact ih
        | some op =>
            have hone : [(⟨C₁, action, C₂⟩ : Transition (Cluster σ μ) Action)].filterMap
                (callAt n) = [⟨C₁.core n, op, C₂.core n⟩] := by simp [callAt, hcall, hn]
            rw [hcall, hn] at hafter
            rw [hone]
            exact ih.snoc op hafter
      · have hnone : [(⟨C₁, action, C₂⟩ : Transition (Cluster σ μ) Action)].filterMap
            (callAt n) = [] := by simp [callAt, hn]
        have hsame : C₂.core n = C₁.core n := by
          rw [Cluster.core, Cluster.core, hother n (Ne.symm hn)]
        rw [hnone, List.append_nil, hsame]
        exact ih

end Cluster

/-! ### Answers are for entries of the log -/

/-- The indices under which the answers to a task may be recorded. -/
def Task.recorded : Task → List ℕ
  | .submitted _ entryIndex => [entryIndex]
  | .replicating _ entryIndex _ => [entryIndex]
  | .heartbeating waiting => waiting.filterMap fun envelope =>
      match envelope.request with
      | .appendEntries args => some args.lastEntryIndex
      | _ => none
  | _ => []

theorem Task.recorded_forget (task : Task) (envelope : Envelope) :
    (task.forget envelope).recorded ⊆ task.recorded := by
  cases task with
  | heartbeating waiting =>
      intro i hi
      obtain ⟨envelope', he, hi⟩ := List.mem_filterMap.1 hi
      exact List.mem_filterMap.2 ⟨envelope', List.erase_subset he, hi⟩
  | _ => exact List.Subset.refl _

/-- A leader records answers under the indices of its log. -/
def Server.InLog (s : Server σ μ) : Prop :=
  s.core.state = .leader → ∀ i ∈ s.task.recorded, i ≤ s.core.lastLogIndex

theorem Server.InLog.of_subset {s s' : Server σ μ} (h : s.InLog)
    (hsub : s'.task.recorded ⊆ s.task.recorded) (hl : s'.core.state = .leader → s.core.state = .leader)
    (hle : s'.core.state = .leader → s.core.lastLogIndex ≤ s'.core.lastLogIndex) : s'.InLog :=
  fun hs i hi => (h (hl hs) i (hsub hi)).trans (hle hs)

/-- The last entry of a request is one of the log. -/
theorem RaftCore.Contiguous.lastEntryIndex_le {core : RaftCore σ μ} (h : core.Contiguous)
    {args : AppendEntriesArgs} (hsub : args.entries ⊆ core.log) :
    args.lastEntryIndex ≤ core.lastLogIndex := by
  unfold AppendEntriesArgs.lastEntryIndex
  split
  · rename_i e he
    rw [h.lastLogIndex]
    exact (Indexed.mem h (hsub (List.mem_of_getLast? he))).2.1
  · exact Nat.zero_le _

section Surroundings

variable [Storage σ] [Snapshotable μ] {S : Setting} {A A' : State ℕ LogEntry}
  {C C' : Cluster σ μ} {n m : ℕ}

omit [Snapshotable μ] in
/-- The log of a leader grows. -/
theorem NodeRel.lastLogIndex_le {core core' : RaftCore σ μ} (h : NodeRel S A m core)
    (h' : NodeRel S A' m core') (hf : Frame n A A') (hl : core'.state = .leader)
    (hrole : core.SameRole core') : core.lastLogIndex ≤ core'.lastLogIndex := by
  have hlead := h.leads (hrole.1.symm.trans hl)
  have hlead' := h'.leads hl
  have hterm : A'.term m = A.term m := by
    rw [← h.term_eq, ← h'.term_eq]
    exact hrole.2
  rw [h.log.lastLogIndex, h'.log.lastLogIndex, hlead.log, hlead'.log, hterm]
  exact (hf.llog hlead.leader).length_le

/-- The event loop records answers under indices of the log. -/
theorem Acts.inLog {s : Server σ μ} {now : ℕ} {action : LocalAction} {e : Effect σ μ}
    (ha : Acts s now action e) (h : s.InLog) (hcont : s.core.Contiguous)
    (hgrow : e.server.core.state = .leader → s.core.SameRole e.server.core →
      s.core.lastLogIndex ≤ e.server.core.lastLogIndex) : e.server.InLog := by
  -- a round that goes on
  have hforget {core : RaftCore σ μ} {envelope : Envelope}
      (hrole : core.state ≠ .follower → s.core.SameRole core)
      (hgrow : core.state = .leader → s.core.SameRole core →
        s.core.lastLogIndex ≤ core.lastLogIndex) :
      (s.proceed core (s.task.forget envelope) []).server.InLog := by
    have hsame (hl : core.state = .leader) : s.core.SameRole core := hrole (by simp [hl])
    exact h.of_subset (s.task.recorded_forget envelope) (fun hl => (hsame hl).1.symm.trans hl)
      fun hl => hgrow hl (hsame hl)
  cases ha with
  | settle hset =>
      intro _ i hi
      cases hset <;> exact absurd hi List.not_mem_nil
  | submit ht hl happ =>
      rcases RaftCore.appendLogEntry_ok happ with ⟨-, -, hno⟩ | ⟨-, entry, storage, -, -, heq, rfl⟩
      · cases hno
      · obtain rfl := Option.some.inj heq
        intro _ i hi
        obtain rfl := List.mem_singleton.1 hi
        simp [Server.proceed, RaftCore.lastLogIndex]
  | replicate ht =>
      intro hl i hi
      refine h hl i ?_
      rw [ht]
      exact hi
  | sendHeartbeat hl =>
      intro _ i hi
      obtain ⟨envelope, he, hi⟩ := List.mem_filterMap.1 hi
      obtain ⟨-, -, -, hreq⟩ := Server.mem_newRound.1 he
      split at hi
      · rename_i args hargs
        obtain rfl := Option.some.inj hi
        refine hcont.lastEntryIndex_le ?_
        rw [hargs] at hreq
        simp only [RaftCore.heartbeatRequest] at hreq
        split at hreq
        · split at hreq <;> cases hreq
        · obtain rfl := Request.appendEntries.inj (Option.some.inj hreq)
          exact List.filter_subset_self _
      · cases hi
  | submitPending _ hr => exact hforget (RaftCore.handleAppendEntriesResult_role hr) hgrow
  | votePending _ hr => exact hforget (RaftCore.handleRequestVoteResult_pending_role hr) hgrow
  | heartbeatAppended _ _ hr => exact hforget (RaftCore.handleAppendEntriesResult_role hr) hgrow
  | heartbeatInstalled => exact hforget RaftCore.handleInstallSnapshotResult_role hgrow
  | fail => exact hforget (fun _ => ⟨rfl, rfl⟩) hgrow
  | _ => exact fun _ i hi => absurd hi List.not_mem_nil

/-- **One step of the cluster** keeps the answers within the logs. -/
theorem Sim.inLog_of_step (h : Sim S C A) (h' : Sim S C' A') (hf : Frame n A A') {action : Action}
    (hs : C.step action = some C') (hin : ∀ m ∈ S.nodes, (C.servers m).InLog) :
    ∀ m ∈ S.nodes, (C'.servers m).InLog := by
  intro m hm
  have hgrow (hl : (C'.core m).state = .leader) (hrole : (C.core m).SameRole (C'.core m)) :
      (C.core m).lastLogIndex ≤ (C'.core m).lastLogIndex :=
    (h.node m hm).lastLogIndex_le (h'.node m hm) hf hl hrole
  by_cases hmn : m = action.node
  · cases action with
    | deliver envelope =>
        obtain ⟨-, core, reply, hrec, rfl⟩ := Cluster.step_deliver hs
        obtain rfl : m = envelope.target := hmn
        simp only [Cluster.core, C.receive_servers_self] at hgrow
        rw [C.receive_servers_self]
        have hsame (hl : core.state = .leader) : (C.core envelope.target).SameRole core :=
          Server.receive_role hrec (by simp [hl])
        exact (hin _ hm).of_subset (List.Subset.refl _) (fun hl => (hsame hl).1.symm.trans hl)
          fun hl => hgrow hl (hsame hl)
    | «local» n action =>
        obtain ⟨-, -, e, ha, rfl⟩ := Cluster.step_local hs
        obtain rfl : m = n := hmn
        simp only [Cluster.core, C.perform_servers_self] at hgrow
        rw [C.perform_servers_self]
        exact ha.inLog (hin m hm) (h.node m hm).log.contiguous hgrow
  · rw [(Cluster.step_after hs).2 m hmn]
    exact hin m hm

omit [Snapshotable μ] in
/-- **The entries of a request that is heeded** continue `prev_log_index`, and agree with what its
target has committed. -/
theorem AppendRel.continues {core : RaftCore σ μ} {source : ℕ} {args : AppendEntriesArgs}
    (hr : AppendRel S A source args) (h : NodeRel S A n core) (hA : S.Reachable A)
    (hstrict : S.strict) : core.Continues (core.heeded args) := by
  have hh := S.honest_of_strict hstrict
  unfold RaftCore.heeded
  split
  · rename_i hheeded
    obtain ⟨hterm, hp⟩ := hheeded
    obtain ⟨-, s, hs, -⟩ := h.prevMatches hA hr hp
    have hcom := h.commits hstrict
    have hprev : args.prevLogIndex ≤ s.length := by
      rw [hs.length]
      exact Nat.le_add_right _ _
    have hidx := hs.indexed.drop hprev
    rw [Nat.zero_add, ← hs.entries] at hidx
    refine ⟨hidx, fun e he x hx hle => ?_⟩
    -- both entries are in the log of the leader
    have hpre := (Setting.kept hA hh).committed_prefix_llog (Setting.inv hA) hcom.committed
      (hr.leader hh) (h.term_eq ▸ hterm)
    obtain ⟨hlt, hx⟩ := h.log.getLogEntry_iff.1 (Option.mem_def.1 hx)
    have hxc : ((A.log n).take core.commitIndex)[e.index - 1]? = some x := by
      rw [List.getElem?_take_of_lt (by omega), hx]
    have hes : s[e.index - 1]? = some e := by
      have := (hs.indexed.mem (List.mem_of_mem_drop (hs.entries ▸ he))).2.2
      rwa [Nat.sub_zero] at this
    obtain ⟨r, hr⟩ := hpre
    obtain ⟨r', hr'⟩ := hs.own hh
    have hsame : some x = some e := by
      rw [← hxc, ← hes, ← List.getElem?_append_left (List.getElem?_eq_some_iff.1 hxc).1, hr, ← hr',
        List.getElem?_append_left (List.getElem?_eq_some_iff.1 hes).1]
    rw [Option.some.inj hsame]
  · exact ⟨Indexed.nil, fun e he => absurd he List.not_mem_nil⟩

/-- What the single-node results expect of a call. -/
structure Op.Fair (core : RaftCore σ μ) (op : Op) : Prop where
  expected : op.Expected core
  contiguous : op.SendsContiguous
  uncut : ¬ op.CutsAboveSnapshot core

omit [Storage σ] [Snapshotable μ] in
/-- Nothing is expected of most calls. -/
theorem Op.Fair.of_expected {core : RaftCore σ μ} {op : Op} (hexp : op.Expected core)
    (hop : ∀ args, op ≠ .appendEntries args) : op.Fair core := by
  refine ⟨hexp, ?_, ?_⟩ <;> cases op <;> first | trivial | exact id | exact absurd rfl (hop _)

omit [Storage σ] [Snapshotable μ] in
/-- A call that does not cut above a snapshot does not cut by position either. -/
theorem Op.Fair.not_cutsByPosition {core : RaftCore σ μ} {op : Op} (h : op.Fair core) :
    ¬ op.CutsByPosition core := by
  cases op with
  | appendEntries args =>
      rintro ⟨hpos, hterm, hp, e, he, hconf, -⟩
      exact h.uncut ⟨hpos, hterm, hp, e, he, hconf⟩
  | _ => exact id

/-- **The surroundings keep their promises**, in a setting that keeps all of its own. -/
theorem Sim.fair (h : Sim S C A) (hstrict : S.strict) (hin : ∀ m ∈ S.nodes, (C.servers m).InLog)
    {action : Action} (hoff : C.Offers action) (hdiv : ¬ C.Diverges action) {op : Op}
    (hcall : C.call action = some op) :
    action.node ∈ S.nodes ∧ op.Fair (C.core action.node) := by
  cases action with
  | deliver envelope =>
      obtain rfl := Option.some.inj hcall
      have hrel := h.request envelope hoff
      refine ⟨hrel.target, ?_⟩
      obtain ⟨source, target, round, request⟩ := envelope
      cases request with
      | appendEntries args =>
          have hcont := AppendRel.continues hrel.request (h.node _ hrel.target) h.reachable hstrict
          refine ⟨hcont, hcont.1, ?_⟩
          rintro ⟨hpos, hterm, hp, e, he, hconf⟩
          unfold RaftCore.heeded at he
          split at he
          · rename_i hheeded
            exact hdiv (Or.inl ⟨hpos, hheeded.1, hheeded.2, e, he, hconf⟩)
          · exact absurd he List.not_mem_nil
      | _ => exact .of_expected trivial (by simp [Request.call])
  | «local» n action =>
      obtain ⟨hn, hav⟩ := hoff
      rw [h.nodes] at hn
      refine ⟨hn, ?_⟩
      have hindex {i : ℕ} (hi : i ∈ (C.servers n).task.recorded) :
          (C.core n).heededIndex i ≤ (C.core n).lastLogIndex := by
        unfold RaftCore.heededIndex
        split
        · rename_i hl
          exact hin n hn hl i hi
        · exact Nat.zero_le _
      cases action with
      | submit command =>
          simp only [Cluster.call, Server.call] at hcall
          split at hcall
          · obtain rfl := Option.some.inj hcall
            exact .of_expected trivial (by simp)
          · cases hcall
      | startElection =>
          simp only [Cluster.call, Server.call] at hcall
          split at hcall
          · split at hcall
            · cases hcall
            · obtain rfl := Option.some.inj hcall
              exact .of_expected trivial (by simp)
          · cases hcall
      | answer envelope reply =>
          obtain ⟨hwaiting, -⟩ := hav
          simp only [Cluster.call, Server.call] at hcall
          split at hcall
          · rename_i command i waiting result ht
            obtain rfl := Option.some.inj hcall
            exact .of_expected (hindex (by simp [ht, Task.recorded])) (by simp)
          · obtain rfl := Option.some.inj hcall
            exact .of_expected trivial (by simp)
          · rename_i waiting result ht
            rw [ht] at hwaiting
            split at hcall
            · rename_i args hreq
              obtain rfl := Option.some.inj hcall
              refine .of_expected (hindex ?_) (by simp)
              rw [ht]
              exact List.mem_filterMap.2 ⟨envelope, hwaiting, by rw [hreq]⟩
            · cases hcall
          · split at hcall
            · obtain rfl := Option.some.inj hcall
              exact .of_expected trivial (by simp)
            · cases hcall
          · obtain rfl := Option.some.inj hcall
            exact .of_expected trivial (by simp)
          · cases hcall
      | _ => cases hcall

/-- **The relation to the replicated log**, with all answers for entries of the logs. -/
structure Follows (S : Setting) (C : Cluster σ μ) (A : State ℕ LogEntry) : Prop where
  sim : Sim S C A
  inLog : ∀ m ∈ S.nodes, (C.servers m).InLog

omit [Snapshotable μ] in
theorem Cluster.Initial.follows [Snapshotable μ] (h : C.Initial) (hnodes : C.nodes = S.nodes)
    (hplain : ¬ S.compacting → ∀ n ∈ C.nodes, (C.core n).snapshotThreshold = 0) :
    Follows S C (State.init ℕ LogEntry) where
  sim := h.sim hnodes hplain
  inLog m hm := by
    intro _ i hi
    rw [h.idle m (hnodes ▸ hm)] at hi
    exact absurd hi List.not_mem_nil

theorem Follows.step (h : Follows S C A) (hst : S.Stores σ) {action : Action}
    (hallow : S.Allows C action) (hs : C.step action = some C') :
    ∃ A', S.Moves action.node A A' ∧ Follows S C' A' := by
  obtain ⟨A', hm, h'⟩ := h.sim.step hst hallow hs
  exact ⟨A', hm, h', h.sim.inLog_of_step h' hm.frame hs h.inLog⟩

namespace Cluster

variable {ts : List (Transition (Cluster σ μ) Action)}

/-- **Every call that a run makes at a node is fair**, if no node leaves the log of its leader. -/
theorem callsAt_fair [InfallibleStorage σ] [DurableSnapshots σ] (hinit : C.Initial)
    (hr : Run Cluster.step C ts C') (hdiv : ∀ t ∈ ts, ¬ t.source.Diverges t.action) (n : ℕ) :
    ∀ u ∈ callsAt n ts, u.action.Fair u.source := by
  let S : Setting := .full C.nodes hinit.nodup
  intro u hu
  obtain ⟨t, ht, rfl, hcall, hsource, -⟩ := mem_callsAt hu
  have hstep : ∀ (C₁ : Cluster σ μ) a C₂, (∃ A, Follows S C₁ A) → C₁.step a = some C₂ →
      ¬ C₁.Diverges a → ∃ A, Follows S C₂ A := by
    rintro C₁ a C₂ ⟨A₁, h₁⟩ hs hno
    obtain ⟨A₂, -, h₂⟩ := h₁.step (fun _ => ⟨inferInstance, inferInstance⟩) (allows_full hno) hs
    exact ⟨A₂, h₂⟩
  obtain ⟨⟨A, h⟩, hs⟩ := hr.invariant_source (P := fun t => ¬ t.source.Diverges t.action) hstep
    ⟨_, hinit.follows rfl fun hc => absurd trivial hc⟩ hdiv ht
  rw [hsource]
  exact (h.sim.fair trivial h.inLog (offers_of_step hs) (hdiv t ht) hcall).2

end Cluster

end Surroundings

end RaftVibe
