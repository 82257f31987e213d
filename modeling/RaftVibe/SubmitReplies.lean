/-
**The reply to a client belongs to its command.**

`handle_submit` remembers the index of the entry that it has appended, and nothing else.  It gives the
lock away and waits until the entry at that index is applied.  In between the node may be deposed, and
its log cut off and filled with other entries.  But the event loop is busy with the call, so a node
that was deposed does not come back as leader before the call is over; and a leader only appends to
its log.  So a reply that tells a result comes from the leader of the term in which the command was
appended, and from the very entry.  What the machine gave for it depends on the entries that the node
applied before, one at each index.

Main definitions:

* `RaftVibe.RaftCore.Applied` — a node has applied the next entries of its log;
* `RaftVibe.Task.call` — the command and the index of the call that the event loop is busy with;
* `RaftVibe.Cluster.Calls`, `RaftVibe.Cluster.Returns` — the steps of a call, and its return.

Main results:

* `RaftVibe.Cluster.step_applied`, `RaftVibe.Cluster.step_call` — what one step applies, and what it
  does to a call;
* `RaftVibe.Cluster.run_applied_kept` — what a node has applied stays in its log;
* `RaftVibe.Cluster.run_submit_returned` — **what a returned result says**.
-/

import RaftVibe.Safety

set_option relaxedAutoImplicit false
set_option autoImplicit false

namespace RaftVibe

open ReplicatedLog Runs

/-! ### Applying entries -/

namespace RaftCore

variable {σ μ : Type} {core core₁ core' : RaftCore σ μ} {es : List LogEntry}

/-- The node has applied the entries `es`, which are the next ones of its log. -/
structure Applied [StateMachine μ] (core core' : RaftCore σ μ) (es : List LogEntry) : Prop where
  lastApplied : core'.lastApplied = core.lastApplied + es.length
  machine : core'.stateMachine = foldCommands core.stateMachine (es.map LogEntry.command)
  entries : ∀ k < es.length, core'.getLogEntry (core.lastApplied + 1 + k) = es[k]?

/-- The entries are where they were. -/
def SameEntries (core core' : RaftCore σ μ) : Prop :=
  core'.log = core.log ∧ core'.snapshotLastIndex = core.snapshotLastIndex

theorem SameEntries.getLogEntry (h : core.SameEntries core') (i : ℕ) :
    core'.getLogEntry i = core.getLogEntry i := by
  rw [RaftCore.getLogEntry, RaftCore.getLogEntry, h.1, h.2]

theorem Applied.nil [StateMachine μ] (ha : core'.lastApplied = core.lastApplied)
    (hm : core'.stateMachine = core.stateMachine) : core.Applied core' [] :=
  ⟨ha, hm, fun k hk => absurd hk (Nat.not_lt_zero k)⟩

/-- Only what was applied before counts. -/
theorem Applied.of_eq [StateMachine μ] (h : core₁.Applied core' es)
    (ha : core₁.lastApplied = core.lastApplied) (hm : core₁.stateMachine = core.stateMachine) :
    core.Applied core' es := by
  obtain ⟨hlast, hmachine, hentries⟩ := h
  rw [ha] at hlast hentries
  rw [hm] at hmachine
  exact ⟨hlast, hmachine, hentries⟩

/-- **What the loop gives for an entry** is what the machine answers after the entries before it. -/
theorem applyLoop_mem [Snapshotable μ] {n : ℕ} {results results' : List (ℕ × ApplyResult)}
    (h : applyLoop n core results = .ok (core', results')) {i : ℕ} {res : ApplyResult}
    (hmem : (i, res) ∈ results') : (i, res) ∈ results ∨
      ∃ (es : List LogEntry) (e : LogEntry), core.lastApplied + es.length + 1 = i ∧
        es.length < n ∧ (∀ k < es.length, core.getLogEntry (core.lastApplied + 1 + k) = es[k]?) ∧
        core.getLogEntry i = some e ∧
        res = (StateMachine.apply (foldCommands core.stateMachine (es.map LogEntry.command))
          e.command).2 := by
  induction n generalizing core results with
  | zero =>
      simp only [applyLoop, Except.ok.injEq, Prod.mk.injEq] at h
      rw [h.2]
      exact Or.inl hmem
  | succ n ih =>
      rw [applyLoop] at h
      simp only at h
      split at h
      · rename_i entry he
        rcases ih h with hold | ⟨es, e, hi, hlt, hes, hget, hres⟩
        · rcases List.mem_append.1 hold with hold | hnew
          · exact Or.inl hold
          · -- the entry has just been applied
            obtain ⟨rfl, rfl⟩ := Prod.mk.inj (List.mem_singleton.1 hnew)
            exact Or.inr ⟨[], entry, rfl, Nat.succ_pos n, by simp, he, rfl⟩
        · refine Or.inr ⟨entry :: es, e, ?_, Nat.succ_lt_succ hlt, ?_, hget, ?_⟩
          · rw [← hi, List.length_cons]
            simp only
            omega
          · intro k hk
            cases k with
            | zero => exact he
            | succ k =>
                have := hes k (Nat.lt_of_succ_lt_succ hk)
                rw [List.getElem?_cons_succ, ← this]
                simp only [RaftCore.getLogEntry]
                congr 2 <;> omega
          · rw [hres, List.map_cons, ← List.singleton_append (l := es.map _), foldCommands_append,
              foldCommands_singleton]
      · exact absurd h (by simp)

variable [Storage σ] [Snapshotable μ]

/-- Without snapshots, applying the committed entries does nothing else. -/
theorem applyCommittedEntries_applied {results : List (ℕ × ApplyResult)}
    (h : core.applyCommittedEntries = .ok (core', results)) (hth : core.snapshotThreshold = 0) :
    (∃ es, core.Applied core' es) ∧ core.SameEntries core' := by
  obtain ⟨es, hlen, hes, -, rfl⟩ := applyCommittedEntries_ok h
  rw [autoSnapshot_of_threshold (by exact hth)]
  refine ⟨⟨es, ?_, rfl, hes⟩, rfl, rfl⟩
  simp only
  omega

omit [Snapshotable μ] in
theorem observeTerm_idle {term : ℕ} (h : core.observeTerm term = .ok core₁) :
    core₁.lastApplied = core.lastApplied ∧ core₁.stateMachine = core.stateMachine ∧
      core.SameEntries core₁ ∧ core₁.snapshotThreshold = core.snapshotThreshold := by
  rcases observeTerm_ok h with ⟨-, rfl⟩ | ⟨-, s, -, rfl⟩ <;> exact ⟨rfl, rfl, ⟨rfl, rfl⟩, rfl⟩

omit [Snapshotable μ] in
theorem handleRequestVote_idle {args : RequestVoteArgs} {result : RequestVoteResult}
    (h : core.handleRequestVote args = .ok (core', result)) :
    core'.lastApplied = core.lastApplied ∧ core'.stateMachine = core.stateMachine ∧
      core.SameEntries core' := by
  rcases handleRequestVote_ok h with ⟨-, rfl, -⟩ | ⟨core₁, h₁, -, hor⟩
  · exact ⟨rfl, rfl, rfl, rfl⟩
  · obtain ⟨ha, hm, hlog, -⟩ := observeTerm_idle h₁
    rcases hor with ⟨rfl, -⟩ | ⟨-, -, hset, -⟩
    · exact ⟨ha, hm, hlog⟩
    · obtain ⟨-, rfl⟩ := setVotedFor_ok.1 hset
      exact ⟨ha, hm, hlog⟩

omit [Snapshotable μ] in
theorem handleRequestVoteResult_idle {peerId : ℕ} {result : RequestVoteResult} {won : Bool}
    (h : core.handleRequestVoteResult peerId result = .ok (core', won)) :
    core'.lastApplied = core.lastApplied ∧ core'.stateMachine = core.stateMachine := by
  obtain ⟨core₁, h₁, hor⟩ := handleRequestVoteResult_ok h
  obtain ⟨ha, hm, -⟩ := observeTerm_idle h₁
  rcases hor with ⟨-, rfl, -⟩ | ⟨-, core₂, rfl, hor⟩
  · exact ⟨ha, hm⟩
  · obtain ⟨votes, heq, -⟩ := countVote_eq core₁ peerId result
    rw [heq] at hor
    rcases hor with ⟨rfl, -⟩ | ⟨-, hlead, -⟩
    · exact ⟨ha, hm⟩
    · obtain ⟨_, -, rfl⟩ := becomeLeader_ok hlead
      exact ⟨ha, hm⟩

/-- A follower applies entries of the log that it has taken over. -/
theorem handleAppendEntries_applied (hth : core.snapshotThreshold = 0) {args : AppendEntriesArgs}
    {out : HandleAppendEntriesOutput} (h : core.handleAppendEntries args = .ok (core', out)) :
    ∃ es, core.Applied core' es := by
  obtain ⟨core₁, h₁, hor⟩ := handleAppendEntries_ok h
  obtain ⟨ha, hm, -, hth₁⟩ := observeTerm_idle h₁
  rcases hor with ⟨-, rfl, -⟩ | ⟨-, core₂, rfl, ⟨rfl, -⟩ | ⟨-, hacc, -⟩⟩
  · exact ⟨[], .nil ha hm⟩
  · exact ⟨[], .nil ha hm⟩
  · obtain ⟨s, core₃, -, rfl, ⟨-, rfl⟩ | ⟨-, results, happly⟩⟩ := acceptEntries_ok hacc
    · exact ⟨[], .nil ha hm⟩
    · obtain ⟨⟨es, hes⟩, -⟩ := applyCommittedEntries_applied happly (hth₁.trans hth)
      exact ⟨es, hes.of_eq ha hm⟩

/-- A leader applies entries of its log, and keeps it. -/
theorem handleAppendEntriesResult_applied (hth : core.snapshotThreshold = 0)
    {peerId entryIndex : ℕ} {result : AppendEntriesResult} {commit : Option ℕ}
    {results : List (ℕ × ApplyResult)}
    (h : core.handleAppendEntriesResult peerId entryIndex result = .ok (core', commit, results)) :
    (∃ es, core.Applied core' es) ∧ core.SameEntries core' := by
  obtain ⟨core₁, h₁, hor⟩ := handleAppendEntriesResult_ok h
  obtain ⟨ha, hm, hlog, hth₁⟩ := observeTerm_idle h₁
  rcases hor with ⟨-, rfl, -⟩ | ⟨-, core₂, rfl, hor⟩
  · exact ⟨⟨[], .nil ha hm⟩, hlog⟩
  · obtain ⟨next, match', heq, -⟩ := recordAppendResult_eq core₁ peerId entryIndex result
    rw [heq] at hor
    rcases hor with ⟨rfl, -⟩ | ⟨-, -, -, -, -, happly⟩
    · exact ⟨⟨[], .nil ha hm⟩, hlog⟩
    · obtain ⟨⟨es, hes⟩, hsame⟩ := applyCommittedEntries_applied happly (hth₁.trans hth)
      exact ⟨⟨es, hes.of_eq ha hm⟩, hsame.1.trans hlog.1, hsame.2.trans hlog.2⟩

/-- **What the machine gave for a committed entry** is its answer after the entries before it. -/
theorem handleAppendEntriesResult_mem {peerId entryIndex : ℕ} {result : AppendEntriesResult}
    {commit : Option ℕ} {results : List (ℕ × ApplyResult)}
    (h : core.handleAppendEntriesResult peerId entryIndex result = .ok (core', commit, results))
    {i : ℕ} {res : ApplyResult} (hmem : (i, res) ∈ results) :
    i ≤ core'.lastApplied ∧ ∃ (es : List LogEntry) (e : LogEntry),
      core.lastApplied + es.length + 1 = i ∧
      (∀ k < es.length, core.getLogEntry (core.lastApplied + 1 + k) = es[k]?) ∧
      core.getLogEntry i = some e ∧
      res = (StateMachine.apply (foldCommands core.stateMachine (es.map LogEntry.command))
        e.command).2 := by
  obtain ⟨core₁, h₁, ⟨-, -, -, rfl⟩ | ⟨hlead, core₂, rfl, hor⟩⟩ := handleAppendEntriesResult_ok h
  · exact absurd hmem List.not_mem_nil
  · obtain rfl := eq_of_observeTerm h₁ (by rw [hlead]; simp)
    obtain ⟨next, match', heq, -⟩ := recordAppendResult_eq core₁ peerId entryIndex result
    rw [heq] at hor
    rcases hor with ⟨-, -, rfl⟩ | ⟨-, -, -, -, -, happly⟩
    · exact absurd hmem List.not_mem_nil
    · simp only [applyCommittedEntries, Except.bind_eq_ok, Except.pure_eq_ok, Prod.mk.injEq,
        Prod.exists] at happly
      obtain ⟨core₂, _, hloop, rfl, rfl⟩ := happly
      rcases applyLoop_mem hloop hmem with hnil | ⟨es, e, hi, hlt, hes, he, hres⟩
      · exact absurd hnil List.not_mem_nil
      · refine ⟨?_, es, e, hi, hes, he, hres⟩
        obtain ⟨_, _, _, _, hauto⟩ := autoSnapshot_eq core₂
        obtain ⟨_, _, -, -, rfl⟩ := applyLoop_ok hloop
        rw [hauto]
        simp only at hi hlt ⊢
        omega

end RaftCore

/-! ### What one acquisition applies -/

section Acting

variable {σ μ : Type} [Storage σ] [Snapshotable μ] {s : Server σ μ} {now : ℕ}
  {action : LocalAction} {e : Effect σ μ}

theorem Server.receive_applied {core core' : RaftCore σ μ} {request : Request} {reply : Reply}
    (h : receive core request = .ok (core', reply)) (hth : core.snapshotThreshold = 0)
    (hno : ∀ args, request ≠ .installSnapshot args) : ∃ es, core.Applied core' es := by
  rcases receive_ok h with ⟨args, _, -, -, h⟩ | ⟨args, _, -, -, h⟩ | ⟨args, _, rfl, -, -⟩
  · obtain ⟨ha, hm, -⟩ := RaftCore.handleRequestVote_idle h
    exact ⟨[], .nil ha hm⟩
  · exact RaftCore.handleAppendEntries_applied hth h
  · exact absurd rfl (hno args)

/-- A request leaves a leader its log, or it is deposed. -/
theorem Server.receive_leader {core core' : RaftCore σ μ} {request : Request} {reply : Reply}
    (h : receive core request = .ok (core', reply)) (hno : ∀ args, request ≠ .installSnapshot args)
    (hlead : core'.state = .leader) : core.SameRole core' ∧ core.SameEntries core' := by
  refine ⟨receive_role h (by rw [hlead]; simp), ?_⟩
  rcases receive_ok h with ⟨args, _, -, -, h⟩ | ⟨args, _, -, -, h⟩ | ⟨args, _, rfl, -, -⟩
  · exact (RaftCore.handleRequestVote_idle h).2.2
  · obtain ⟨rfl, -⟩ := RaftCore.handleAppendEntries_role h (by rw [hlead]; simp)
    exact ⟨rfl, rfl⟩
  · exact absurd rfl (hno args)

theorem Acts.applied (h : Acts s now action e) (hth : s.core.snapshotThreshold = 0) :
    ∃ es, s.core.Applied e.server.core es := by
  cases h with
  | submit _ _ h =>
      rcases RaftCore.appendLogEntry_ok h with ⟨-, rfl, -⟩ | ⟨-, _, _, -, -, -, rfl⟩ <;>
        exact ⟨[], .nil rfl rfl⟩
  | startElection _ _ h =>
      obtain ⟨_, -, rfl⟩ := RaftCore.startElection_ok h
      exact ⟨[], .nil rfl rfl⟩
  | submitDone _ h => exact (RaftCore.handleAppendEntriesResult_applied hth h).1
  | submitPending _ h => exact (RaftCore.handleAppendEntriesResult_applied hth h).1
  | heartbeatAppended _ _ h => exact (RaftCore.handleAppendEntriesResult_applied hth h).1
  | voteWon _ h =>
      obtain ⟨ha, hm⟩ := RaftCore.handleRequestVoteResult_idle h
      exact ⟨[], .nil ha hm⟩
  | votePending _ h =>
      obtain ⟨ha, hm⟩ := RaftCore.handleRequestVoteResult_idle h
      exact ⟨[], .nil ha hm⟩
  | @heartbeatInstalled _ envelope args result =>
      cases result with
      | success => exact ⟨[], .nil rfl rfl⟩
      | failed term reason =>
          simp only [Server.proceed, RaftCore.handleInstallSnapshotResult]
          split <;> exact ⟨[], .nil rfl rfl⟩
  | _ => exact ⟨[], .nil rfl rfl⟩

/-! ### The call in progress -/

/-- The command and the index of the call of `handle_submit` that the event loop is busy with. -/
def Task.call : Task → Option (String × ℕ)
  | submitted command entryIndex => some (command, entryIndex)
  | replicating command entryIndex _ => some (command, entryIndex)
  | _ => none

theorem Task.call_forget (task : Task) (envelope : Envelope) :
    (task.forget envelope).call = task.call := by
  cases task <;> rfl

/-- **A call has just appended its command, or it goes on**, and a node that is leader after that was
leader before, with the same log. -/
theorem Acts.call (h : Acts s now action e) (hth : s.core.snapshotThreshold = 0)
    {command : String} {i : ℕ} (hcall : e.server.task.call = some (command, i)) :
    (action = .submit command ∧ e.server.task = .submitted command i ∧ s.core.state = .leader ∧
      s.core.SameRole e.server.core ∧ i = s.core.lastLogIndex + 1 ∧
      e.server.core.snapshotLastIndex = s.core.snapshotLastIndex ∧
      e.server.core.log = s.core.log ++ [⟨s.core.currentTerm, i, command⟩]) ∨
    (s.task.call = some (command, i) ∧ (e.server.core.state = .leader →
      s.core.SameRole e.server.core ∧ s.core.SameEntries e.server.core)) := by
  cases h with
  | settle h => cases h <;> cases hcall
  | submit ht hl h =>
      obtain ⟨rfl, rfl⟩ := Prod.mk.inj (Option.some.inj hcall)
      rcases RaftCore.appendLogEntry_ok h with ⟨hno, -⟩ | ⟨-, entry, _, -, rfl, heq, rfl⟩
      · exact absurd hl hno
      · obtain rfl := Option.some.inj heq
        exact Or.inl ⟨rfl, rfl, hl, ⟨rfl, rfl⟩, rfl, rfl, rfl⟩
  | replicate ht =>
      rw [ht]
      exact Or.inr ⟨hcall, fun _ => ⟨⟨rfl, rfl⟩, rfl, rfl⟩⟩
  | submitPending ht h =>
      refine Or.inr ⟨(s.task.call_forget _).symm.trans hcall, fun hlead => ?_⟩
      exact ⟨RaftCore.handleAppendEntriesResult_role h (by rw [hlead]; simp),
        (RaftCore.handleAppendEntriesResult_applied hth h).2⟩
  | fail =>
      exact Or.inr ⟨(s.task.call_forget _).symm.trans hcall, fun _ => ⟨⟨rfl, rfl⟩, rfl, rfl⟩⟩
  | votePending ht | heartbeatAppended ht | heartbeatInstalled ht =>
      replace hcall := (s.task.call_forget _).symm.trans hcall
      rw [ht] at hcall
      cases hcall
  | _ => cases hcall

/-! ### What a call returns -/

/-- The errors with which a command is refused before it is appended. -/
def RaftError.Refuses : RaftError → Prop
  | notLeader _ => True
  | invalidCommand _ => True
  | _ => False

/-- **When a call returns**: it is refused on the spot, it is given up, or an answer has committed the
entry at its index. -/
theorem Server.act_returned (h : s.act now action = some e) {n : ℕ} {command : String}
    {index : Option ℕ} {result : Except RaftError String}
    (hev : Event.submitReturned n command index result ∈ e.events) : n = s.core.id ∧
      ((action = .submit command ∧ e.server.core = s.core ∧
          ∃ err, result = .error err ∧ err.Refuses) ∨
        result = .error .notCommitted ∨
        ∃ i waiting envelope reply commit results res,
          action = .answer envelope (.appendEntries reply) ∧
          s.task = .replicating command i waiting ∧
          s.core.handleAppendEntriesResult envelope.target i reply =
            .ok (e.server.core, commit, results) ∧
          (i, res) ∈ results ∧ index = some i ∧ result = submitResult res) := by
  cases action <;> simp only [act] at h <;> repeat' split at h
  -- most branches say nothing about a submit
  all_goals first
    | (cases h; done)
    | (obtain rfl := Option.some.inj h
       simp only [proceed, send, List.mem_singleton, List.not_mem_nil, reduceCtorEq] at hev)
  all_goals
    simp only [Event.submitReturned.injEq] at hev
    obtain ⟨rfl, rfl, rfl, rfl⟩ := hev
    refine ⟨rfl, ?_⟩
  · exact Or.inl ⟨rfl, rfl, _, rfl, trivial⟩
  · exact Or.inl ⟨rfl, rfl, _, rfl, trivial⟩
  · rename_i happend
    rcases RaftCore.appendLogEntry_ok happend with ⟨-, rfl, -⟩ | ⟨-, _, _, -, -, hsome, -⟩
    · exact Or.inl ⟨rfl, rfl, _, rfl, trivial⟩
    · cases hsome
  · exact Or.inr (Or.inr ⟨_, _, _, _, _, _, _, rfl, ‹s.task = _›, ‹_›, mem_of_entryResult ‹_›,
      rfl, rfl⟩)
  · exact Or.inr (Or.inl rfl)

end Acting

/-! ### Steps of the cluster -/

variable {σ μ : Type} [Storage σ] [Snapshotable μ] {S : Setting} {A : State ℕ LogEntry}
  {C₀ C C' : Cluster σ μ} {ts : List (Transition (Cluster σ μ) Action)} {action : Action} {n : ℕ}

omit [Snapshotable μ] in
/-- Without snapshots, nobody sends one. -/
theorem Sim.ne_installSnapshot (h : Sim S C A) (hc : ¬ S.compacting) {envelope : Envelope}
    (he : envelope ∈ C.requests) (args : InstallSnapshotArgs) :
    envelope.request ≠ .installSnapshot args := by
  intro hreq
  have hrel := (h.request envelope he).request
  rw [hreq] at hrel
  exact hc hrel.compacting

namespace Cluster

/-- **What one step applies** at a node are the next entries of its log. -/
theorem step_applied (h : Sim S C A) (hc : ¬ S.compacting) (hs : C.step action = some C')
    (hn : n ∈ S.nodes) : ∃ es, (C.core n).Applied (C'.core n) es := by
  have hth := ((h.node n hn).plain hc).1
  cases action with
  | deliver envelope =>
      obtain ⟨he, core, reply, hrec, rfl⟩ := step_deliver hs
      by_cases hne : n = envelope.target
      · subst hne
        rw [Cluster.core, Cluster.core, receive_servers_self]
        exact Server.receive_applied hrec hth (h.ne_installSnapshot hc he)
      · rw [Cluster.core, Cluster.core, C.receive_servers_ne core reply hne]
        exact ⟨[], .nil rfl rfl⟩
  | «local» m action =>
      obtain ⟨-, -, e, ha, rfl⟩ := step_local hs
      by_cases hne : n = m
      · subst hne
        rw [Cluster.core, Cluster.core, perform_servers_self]
        exact ha.applied hth
      · rw [Cluster.core, Cluster.core, C.perform_servers_ne e hne]
        exact ⟨[], .nil rfl rfl⟩

/-- **What one step does to a call** that is in progress after it: it has begun with this step, or it
was in progress before, and a leader has kept its log. -/
theorem step_call (h : Sim S C A) (hc : ¬ S.compacting) (hs : C.step action = some C')
    (hn : n ∈ S.nodes) {command : String} {i : ℕ}
    (hcall : (C'.servers n).task.call = some (command, i)) :
    (action = .local n (.submit command) ∧ (C'.servers n).task = .submitted command i ∧
      (C.core n).state = .leader ∧ (C.core n).SameRole (C'.core n) ∧
      i = (C.core n).lastLogIndex + 1 ∧
      (C'.core n).snapshotLastIndex = (C.core n).snapshotLastIndex ∧
      (C'.core n).log = (C.core n).log ++ [⟨(C.core n).currentTerm, i, command⟩]) ∨
    ((C.servers n).task.call = some (command, i) ∧ ((C'.core n).state = .leader →
      (C.core n).SameRole (C'.core n) ∧ (C.core n).SameEntries (C'.core n))) := by
  have hth := ((h.node n hn).plain hc).1
  cases action with
  | deliver envelope =>
      right
      obtain ⟨he, core, reply, hrec, rfl⟩ := step_deliver hs
      by_cases hne : n = envelope.target
      · subst hne
        rw [receive_servers_self] at hcall
        refine ⟨hcall, fun hlead => ?_⟩
        rw [Cluster.core, Cluster.core, receive_servers_self] at *
        exact Server.receive_leader hrec (h.ne_installSnapshot hc he) hlead
      · rw [C.receive_servers_ne core reply hne] at hcall
        refine ⟨hcall, fun _ => ?_⟩
        rw [Cluster.core, Cluster.core, C.receive_servers_ne core reply hne]
        exact ⟨⟨rfl, rfl⟩, rfl, rfl⟩
  | «local» m action =>
      obtain ⟨-, -, e, ha, rfl⟩ := step_local hs
      by_cases hne : n = m
      · subst hne
        rw [Cluster.core, Cluster.core, perform_servers_self] at *
        rcases ha.call hth hcall with ⟨rfl, hrest⟩ | hrest
        · exact Or.inl ⟨rfl, hrest⟩
        · exact Or.inr hrest
      · right
        rw [C.perform_servers_ne e hne] at hcall
        refine ⟨hcall, fun _ => ?_⟩
        rw [Cluster.core, Cluster.core, C.perform_servers_ne e hne]
        exact ⟨⟨rfl, rfl⟩, rfl, rfl⟩

/-! ### What is known along a run -/

/-- Node `n` is leader of the term `T`. -/
def LeadsIn (C : Cluster σ μ) (n T : ℕ) : Prop :=
  (C.core n).state = .leader ∧ (C.core n).currentTerm = T

/-- **A call of `handle_submit` at node `n`**: in the step `s` it has appended the command, as leader
of the term `T`, with the index `i`; the steps `vs` are made while it goes on. -/
structure Calls (n : ℕ) (command : String) (i T : ℕ) (s : Transition (Cluster σ μ) Action)
    (vs : List (Transition (Cluster σ μ) Action)) : Prop where
  action : s.action = .local n (.submit command)
  given : (s.target.servers n).task = .submitted command i
  leads : s.source.LeadsIn n T
  appended : (s.target.core n).log = (s.source.core n).log ++ [⟨T, i, command⟩]
  goesOn : ∀ u ∈ vs, (u.target.servers n).task.call = some (command, i)

/-- In the step `t`, a call of `handle_submit` at node `n` returns. -/
def Returns (t : Transition (Cluster σ μ) Action) (n : ℕ) (command : String) (index : Option ℕ)
    (result : Except RaftError String) : Prop :=
  t.target.history = t.source.history ++ [.submitReturned n command index result]

instance (t : Transition (Cluster σ μ) Action) (n : ℕ) (command : String)
    (index : Option ℕ) (result : Except RaftError String) :
    Decidable (Returns t n command index result) := by
  unfold Returns
  infer_instance

/-- A call is in progress at node `n`.  If the node is leader, it has been leader all along, and its
entry is where it was. -/
def InCall (ts : List (Transition (Cluster σ μ) Action)) (C : Cluster σ μ) (n : ℕ)
    (command : String) (i : ℕ) : Prop :=
  ∃ us s vs T, ts = us ++ s :: vs ∧ Calls n command i T s vs ∧ ((C.core n).state = .leader →
    (∀ u ∈ s :: vs, u.target.LeadsIn n T) ∧ C.LeadsIn n T ∧
      (C.core n).getLogEntry i = some ⟨T, i, command⟩)

/-- The machine of node `n` is what it was made of by the entries that the node has applied in the run
`ts`, one at each index. -/
def HasApplied (C₀ : Cluster σ μ) (ts : List (Transition (Cluster σ μ) Action)) (C : Cluster σ μ)
    (n : ℕ) : Prop :=
  ∃ es : List LogEntry, (C.core n).lastApplied = es.length ∧
    (C.core n).stateMachine = foldCommands (C₀.core n).stateMachine (es.map LogEntry.command) ∧
    ∀ k e, es[k]? = some e → ∃ t ∈ ts, Applies t n (k + 1) e

omit [Storage σ] in
theorem HasApplied.snoc (h : HasApplied C₀ ts C n) {es : List LogEntry}
    (happ : (C.core n).Applied (C'.core n) es) :
    HasApplied C₀ (ts ++ [⟨C, action, C'⟩]) C' n := by
  obtain ⟨fs, hlast, hmachine, hfs⟩ := h
  refine ⟨fs ++ es, ?_, ?_, fun k e he => ?_⟩
  · rw [happ.lastApplied, hlast, List.length_append]
  · rw [happ.machine, hmachine, List.map_append, foldCommands_append]
  · by_cases hk : k < fs.length
    · rw [List.getElem?_append_left hk] at he
      obtain ⟨t, ht, happ'⟩ := hfs k e he
      exact ⟨t, List.mem_append_left _ ht, happ'⟩
    · rw [List.getElem?_append_right (not_lt.1 hk)] at he
      have hlt := (List.getElem?_eq_some_iff.1 he).1
      refine ⟨_, List.mem_append_right _ (List.mem_singleton_self _), ?_, ?_, ?_⟩
      · show (C.core n).lastApplied < k + 1
        omega
      · show k + 1 ≤ (C'.core n).lastApplied
        rw [happ.lastApplied]
        omega
      · have := happ.entries _ hlt
        rw [he] at this
        rw [← this]
        congr 1
        omega

theorem InCall.snoc (h : Sim S C A) (hc : ¬ S.compacting) (hs : C.step action = some C')
    (hn : n ∈ S.nodes)
    (hcalls : ∀ command i, (C.servers n).task.call = some (command, i) → InCall ts C n command i)
    {command : String} {i : ℕ} (hcall : (C'.servers n).task.call = some (command, i)) :
    InCall (ts ++ [⟨C, action, C'⟩]) C' n command i := by
  rcases step_call h hc hs hn hcall with ⟨rfl, htask, hlead, hrole, hi, hsnap, hlog⟩ | ⟨hold, hkept⟩
  · refine ⟨ts, _, [], (C.core n).currentTerm, rfl, ⟨rfl, htask, ⟨hlead, rfl⟩, hlog, by simp⟩,
      fun _ => ⟨?_, ⟨hrole.1.trans hlead, hrole.2⟩, ?_⟩⟩
    · intro u hu
      obtain rfl := List.mem_singleton.1 hu
      exact ⟨hrole.1.trans hlead, hrole.2⟩
    · -- the entry is the last one
      have hnode := h.node n hn
      have hlast := hnode.log.contiguous.lastLogIndex
      have h0 := (hnode.plain hc).2
      rw [RaftCore.getLogEntry_eq_some, hsnap, hlog]
      refine ⟨by omega, ?_⟩
      rw [List.getElem?_append_right (by omega), List.getElem?_eq_some_iff]
      refine ⟨?_, ?_⟩
      · simp only [List.length_singleton]
        omega
      · simp
  · obtain ⟨us, s, vs, T, rfl, hcs, hlead⟩ := hcalls command i hold
    refine ⟨us, s, vs ++ [⟨C, action, C'⟩], T, by simp, ⟨hcs.action, hcs.given, hcs.leads,
      hcs.appended, fun u hu => ?_⟩, fun hl => ?_⟩
    · rcases List.mem_append.1 hu with hu | hu
      · exact hcs.goesOn u hu
      · obtain rfl := List.mem_singleton.1 hu
        exact hcall
    · obtain ⟨hrole, hsame⟩ := hkept hl
      obtain ⟨hbefore, hnow, he⟩ := hlead (hrole.1.symm.trans hl)
      have hnow' : C'.LeadsIn n T := ⟨hl, hrole.2.trans hnow.2⟩
      refine ⟨fun u hu => ?_, hnow', (hsame.getLogEntry i).trans he⟩
      rw [← List.cons_append] at hu
      rcases List.mem_append.1 hu with hu | hu
      · exact hbefore u hu
      · obtain rfl := List.mem_singleton.1 hu
        exact hnow'

/-- **What is known along a run** of the calls in progress, and of what was applied. -/
structure Served (S : Setting) (C₀ : Cluster σ μ) (ts : List (Transition (Cluster σ μ) Action))
    (C : Cluster σ μ) : Prop where
  sim : ∃ A, Sim S C A
  calls : ∀ n ∈ S.nodes, ∀ command i, (C.servers n).task.call = some (command, i) →
    InCall ts C n command i
  applied : ∀ n ∈ S.nodes, HasApplied C₀ ts C n

theorem Served.snoc (h : Served S C₀ ts C) (hst : S.Stores σ) (hc : ¬ S.compacting)
    (hallow : S.Allows C action) (hs : C.step action = some C') :
    Served S C₀ (ts ++ [⟨C, action, C'⟩]) C' := by
  obtain ⟨A, hsim⟩ := h.sim
  obtain ⟨A', -, hsim'⟩ := hsim.step hst hallow hs
  refine ⟨⟨A', hsim'⟩, fun n hn command i hcall => ?_, fun n hn => ?_⟩
  · exact InCall.snoc hsim hc hs hn (h.calls n hn) hcall
  · obtain ⟨es, hes⟩ := step_applied hsim hc hs hn
    exact (h.applied n hn).snoc hes

/-- A freshly booted cluster has served nobody. -/
theorem Initial.served (hinit : C.Initial) (hplain : C.NoSnapshots) (hnodes : C.nodes = S.nodes) :
    Served S C [] C where
  sim := ⟨_, hinit.sim hnodes fun _ => hplain⟩
  calls n hn command i hcall := by
    rw [hinit.idle n (hnodes ▸ hn)] at hcall
    cases hcall
  applied n hn := by
    obtain ⟨peers, storage, m, threshold, core, hnew, heq, hterm, hvote, hlog, hsnap, -⟩ :=
      hinit.boot n (hnodes ▸ hn)
    rw [RaftCore.new_eq_fresh hterm hvote hlog hsnap, Except.ok.injEq] at hnew
    refine ⟨[], ?_, rfl, fun k e he => by simp at he⟩
    rw [Cluster.core, heq, ← hnew]
    rfl

/-- **An answer has committed the entry of a call**: the node was leader all along, and it applies the
entry of the call after all the entries before it. -/
theorem Served.answered (h : Served S C₀ ts C) (action : Action) (hc : ¬ S.compacting)
    (hn : n ∈ S.nodes) {command : String} {i : ℕ} (hcall : (C.servers n).task.call = some (command, i))
    {peerId : ℕ} {reply : AppendEntriesResult} {commit : Option ℕ}
    {results : List (ℕ × ApplyResult)} (hr : (C.core n).handleAppendEntriesResult peerId i reply =
      .ok (C'.core n, commit, results)) {res : ApplyResult} (hmem : (i, res) ∈ results) :
    ∃ (T : ℕ) (us vs : List (Transition (Cluster σ μ) Action))
      (s : Transition (Cluster σ μ) Action) (earlier : List LogEntry),
      ts = us ++ s :: vs ∧ Calls n command i T s vs ∧
      (∀ u ∈ s :: vs ++ [⟨C, action, C'⟩], u.target.LeadsIn n T) ∧
      Applies ⟨C, action, C'⟩ n i ⟨T, i, command⟩ ∧ earlier.length + 1 = i ∧
      (∀ k e, earlier[k]? = some e → ∃ u ∈ ts ++ [⟨C, action, C'⟩], Applies u n (k + 1) e) ∧
      res = (StateMachine.apply (foldCommands (C₀.core n).stateMachine
        (earlier.map LogEntry.command)) command).2 := by
  obtain ⟨A, hsim⟩ := h.sim
  have hsame := (RaftCore.handleAppendEntriesResult_applied ((hsim.node n hn).plain hc).1 hr).2
  obtain ⟨hle, es, x, hi, hes, hx, hres⟩ := RaftCore.handleAppendEntriesResult_mem hr hmem
  rcases RaftCore.handleAppendEntriesResult_commit hr with ⟨-, rfl⟩ | ⟨hlead, hlead', hterm, -⟩
  · exact absurd hmem List.not_mem_nil
  obtain ⟨us, s, vs, T, rfl, hcs, hkept⟩ := h.calls n hn command i hcall
  obtain ⟨hbefore, hnow, he⟩ := hkept hlead
  obtain rfl : x = ⟨T, i, command⟩ := Option.some.inj (hx.symm.trans he)
  obtain ⟨fs, hlast, hmachine, hfs⟩ := h.applied n hn
  refine ⟨T, us, vs, s, fs ++ es, rfl, hcs, fun u hu => ?_, ⟨?_, hle, ?_⟩, ?_, fun k e hk => ?_, ?_⟩
  · rcases List.mem_append.1 hu with hu | hu
    · exact hbefore u hu
    · obtain rfl := List.mem_singleton.1 hu
      exact ⟨hlead', hterm.trans hnow.2⟩
  · show (C.core n).lastApplied < i
    omega
  · exact (hsame.getLogEntry i).trans he
  · rw [List.length_append]
    omega
  · by_cases hlt : k < fs.length
    · rw [List.getElem?_append_left hlt] at hk
      obtain ⟨u, hu, happ⟩ := hfs k e hk
      exact ⟨u, List.mem_append_left _ hu, happ⟩
    · -- the entries that are applied together with the one of the call
      rw [List.getElem?_append_right (not_lt.1 hlt)] at hk
      have hlt' := (List.getElem?_eq_some_iff.1 hk).1
      refine ⟨_, List.mem_append_right _ (List.mem_singleton_self _), ?_, ?_, ?_⟩
      · show (C.core n).lastApplied < k + 1
        omega
      · show k + 1 ≤ (C'.core n).lastApplied
        omega
      · have hget := hes _ hlt'
        rw [hk] at hget
        rw [hsame.getLogEntry, ← hget]
        congr 1
        omega
  · rw [hres, hmachine, List.map_append, foldCommands_append]

/-- Along a run a node applies more and more. -/
theorem lastApplied_le (hinit : C.Initial) (hplain : C.NoSnapshots)
    {us vs : List (Transition (Cluster σ μ) Action)} {D E : Cluster σ μ}
    (hus : Run Cluster.step C us D) (hvs : Run Cluster.step D vs E) (hn : n ∈ C.nodes) :
    (D.core n).lastApplied ≤ (E.core n).lastApplied := by
  let S : Setting := .plain C.nodes hinit.nodup False False id
  have hsim : Sim S C (State.init ℕ LogEntry) := hinit.sim rfl fun _ => hplain
  have hstart := hsim.run False.elim hus fun t _ => allows_plain False.elim False.elim
  refine (hvs.invariant (P := fun _ => True)
    (I := fun E => (∃ A, Sim S E A) ∧ (D.core n).lastApplied ≤ (E.core n).lastApplied)
    ?_ ⟨hstart, le_rfl⟩ fun _ _ => trivial).2
  rintro E₁ a E₂ ⟨⟨A₁, h₁⟩, hle⟩ hs -
  obtain ⟨A₂, -, h₂⟩ := h₁.step False.elim (allows_plain False.elim False.elim) hs
  obtain ⟨es, hes⟩ := step_applied h₁ id hs hn
  rw [hes.lastApplied]
  exact ⟨⟨A₂, h₂⟩, hle.trans (Nat.le_add_right _ _)⟩

/-- **A node applies something at an index once.** -/
theorem applies_once (hinit : C.Initial) (hplain : C.NoSnapshots)
    {us ws : List (Transition (Cluster σ μ) Action)} {t : Transition (Cluster σ μ) Action}
    (hr : Run Cluster.step C (us ++ t :: ws) C') (hn : n ∈ C.nodes) {i : ℕ} {x : LogEntry}
    (hx : Applies t n i x) {u : Transition (Cluster σ μ) Action} (hu : u ∈ us ++ ws)
    (y : LogEntry) : ¬ Applies u n i y := by
  intro hy
  obtain ⟨hus, hs, hws⟩ := hr.cut
  rcases List.mem_append.1 hu with hu | hu
  · obtain ⟨us₁, us₂, rfl, h₁, hu, h₂⟩ := hus.split hu
    have hle := lastApplied_le hinit hplain (h₁.snoc _ hu) h₂ hn
    exact absurd (hy.2.1.trans hle) (not_le.2 hx.1)
  · obtain ⟨ws₁, ws₂, rfl, h₁, -, -⟩ := hws.split hu
    have hle := lastApplied_le hinit hplain (hus.snoc _ hs) h₁ hn
    exact absurd (hx.2.1.trans hle) (not_le.2 hy.1)

/-- **What a node has applied stays in its log**, in every run in which no node replicates out of role
and no request raises a commit index above the entries that were compared. -/
theorem run_applied_kept (hinit : C.Initial) (hplain : C.NoSnapshots)
    (hr : Run Cluster.step C ts C')
    (hrole : ∀ t ∈ ts, ¬ t.source.ReplicatesOutOfRole t.action)
    (hcheck : ∀ t ∈ ts, ¬ t.source.CommitsUnchecked t.action)
    {t : Transition (Cluster σ μ) Action} (ht : t ∈ ts) (hn : n ∈ C.nodes) {i : ℕ} {x : LogEntry}
    (hx : Applies t n i x) : (C'.core n).getLogEntry i = some x := by
  obtain ⟨A, h, hrec⟩ := recordsApplied_of_run hinit hplain hr hrole hcheck
  obtain ⟨T, ℓ, hℓ, he⟩ := hrec.applied t ht n hn i x hx
  obtain ⟨us, vs, rfl, hus, hs, hvs⟩ := hr.split ht
  have hnode := h.node n hn
  have hcom := hnode.commits trivial
  have hpos : 0 < i := Nat.zero_lt_of_lt hx.1
  have hle : i ≤ (C'.core n).commitIndex :=
    hcom.applied ▸ hx.2.1.trans (lastApplied_le hinit hplain (hus.snoc _ hs) hvs hn)
  -- the entry at the index is committed as well
  have hlt : i - 1 < (C'.core n).commitIndex := (Nat.sub_lt hpos Nat.one_pos).trans_le hle
  have hget := List.getElem?_eq_getElem (hlt.trans_le hcom.commit_le)
  rw [hnode.getLogEntry_iff id]
  refine ⟨hpos, ?_⟩
  rw [hget, committed_agree h trivial hℓ hcom.committed he
    (by rw [List.getElem?_take_of_lt hlt, hget])]

/-- **What a returned result says**, with snapshots disabled.  A result of the machine comes from the
call that appended the command: its node was leader of one term from there on, it applied the command
at the index it was given, there only, and the result is what the machine answers after the entries
that the node applied at the indices before.  And a call that is refused leaves the node as it was. -/
theorem run_submit_returned (hinit : C.Initial) (hplain : C.NoSnapshots)
    {us ws : List (Transition (Cluster σ μ) Action)} {t : Transition (Cluster σ μ) Action}
    (hr : Run Cluster.step C (us ++ t :: ws) C') {command : String} {index : Option ℕ}
    {result : Except RaftError String} (hret : Returns t n command index result) :
    (∀ res, result = Server.submitResult res →
      ∃ (i T : ℕ) (us₁ vs : List (Transition (Cluster σ μ) Action))
        (s : Transition (Cluster σ μ) Action) (earlier : List LogEntry),
        index = some i ∧ us = us₁ ++ s :: vs ∧ Calls n command i T s vs ∧
        (∀ u ∈ s :: vs ++ [t], u.target.LeadsIn n T) ∧
        Applies t n i ⟨T, i, command⟩ ∧ (∀ u ∈ us ++ ws, ∀ e, ¬ Applies u n i e) ∧
        earlier.length + 1 = i ∧
        (∀ k e, earlier[k]? = some e → ∃ u ∈ us ++ [t], Applies u n (k + 1) e) ∧
        res = (StateMachine.apply (foldCommands (C.core n).stateMachine
          (earlier.map LogEntry.command)) command).2) ∧
    (∀ err, result = .error err → err.Refuses →
      t.action = .local n (.submit command) ∧ t.target.core n = t.source.core n) := by
  let S : Setting := .plain C.nodes hinit.nodup False False id
  obtain ⟨D, action, D'⟩ := t
  obtain ⟨hus, (hs : D.step action = some D'), -⟩ := hr.cut
  have h : Served S C us D := hus.history (P := fun _ => True)
    (fun _ _ _ _ h hs _ => h.snoc False.elim id (allows_plain False.elim False.elim) hs)
    (hinit.served hplain rfl) fun _ _ => trivial
  obtain ⟨A, hsim⟩ := h.sim
  cases action with
  | deliver envelope =>
      -- a request tells nothing to clients
      obtain ⟨-, core, reply, -, rfl⟩ := step_deliver hs
      exact absurd hret (by simp [Returns, receive])
  | «local» m action =>
      obtain ⟨hm, -, e, hact, rfl⟩ := step_act hs
      have hev : e.events = [.submitReturned n command index result] :=
        List.append_cancel_left hret
      obtain ⟨hid, hor⟩ := Server.act_returned hact (by rw [hev]; exact List.mem_singleton_self _)
      rw [hsim.nodes] at hm
      obtain rfl : n = m := hid.trans (hsim.node m hm).id_eq
      have hself : (D.perform n e).core n = e.server.core := by
        rw [Cluster.core, perform_servers_self]
      rcases hor with ⟨rfl, hcore, err, rfl, href⟩ | rfl | ⟨i, w, envelope, reply, commit, results,
        res, rfl, ht, hans, hmem, rfl, rfl⟩
      · refine ⟨fun res hres => ?_, fun err' _ _ => ⟨rfl, hself.trans hcore⟩⟩
        cases res with
        | ok output => cases hres
        | error message =>
            obtain rfl := Except.error.inj hres
            exact href.elim
      · refine ⟨fun res hres => ?_, fun err herr href => ?_⟩
        · cases res <;> cases hres
        · obtain rfl := Except.error.inj herr
          exact href.elim
      · refine ⟨fun res' hres => ?_, fun err herr href => ?_⟩
        · obtain rfl : res' = res := by
            cases res <;> cases res' <;> simp [Server.submitResult] at hres ⊢ <;> exact hres.symm
          rw [← hself] at hans
          obtain ⟨T, us₁, vs, s, earlier, hsplit, hcalls, hlead, happ, hlen, hearlier, hres⟩ :=
            h.answered (.local n (.answer envelope (.appendEntries reply))) id hm
              (by rw [ht]; rfl) hans hmem
          exact ⟨i, T, us₁, vs, s, earlier, rfl, hsplit, hcalls, hlead, happ,
            fun u hu e => applies_once hinit hplain hr hm happ hu e, hlen, hearlier, hres⟩
        · cases res with
          | ok output => cases herr
          | error message =>
              obtain rfl := Except.error.inj herr
              exact href.elim

/-- Node 1 commits a command with node 2, and returns what the machine answered. -/
theorem run_submit_returned_committed : ∃ (us : List _)
    (t : Transition (Cluster StorageContents Recorder) Action)
    (C : Cluster StorageContents Recorder), Run step threeNodes (us ++ [t]) C ∧
      Returns t 1 "SET x 1" (some 2) (.ok "") ∧ ∃ T, t.target.LeadsIn 1 T ∧
        Applies t 1 2 ⟨T, 2, "SET x 1"⟩ ∧ ∀ u ∈ us, ∀ e, ¬ Applies u 1 2 e := by
  obtain ⟨ts, C, hr, t, hlast, hret⟩ := exists_run_of_play step choose threeNodes commitFirst
    (P := fun ts _ => ∃ t ∈ ts.getLast?, Returns t 1 "SET x 1" (some 2) (.ok "")) (by decide)
  obtain ⟨us, rfl⟩ := List.getLast?_eq_some_iff.1 hlast
  obtain ⟨i, T, us₁, vs, s, earlier, hi, -, -, hlead, happ, honce, -⟩ :=
    (run_submit_returned threeNodes_initial threeNodes_noSnapshots hr hret).1 (.ok "") rfl
  obtain rfl := Option.some.inj hi
  exact ⟨us, t, C, hr, hret, T, hlead t (by simp), happ, fun u hu => honce u (by simp [hu])⟩

end Cluster

end RaftVibe
