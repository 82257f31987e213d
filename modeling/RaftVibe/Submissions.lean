/-
**Every command comes from one call.**

A state machine applies what is committed, and what is committed was in a log.  An entry gets into a
log in three ways: a new leader appends its no-op, a leader appends the command of a call, or a node
takes the entry over from a request, whose sender had it in its log.  So every command of the history
that is not a no-op was submitted by a client, in a call whose entry got the index at which the
command stands.  A call appends beyond the log of its term, where no earlier call has put anything, so
the entry goes back to one call only.

Main definitions:

* `RaftVibe.Appends` — a step in which a call appends its entry;
* `RaftVibe.Submitted` — where the entries of the logs, and of the requests, come from;
* `RaftVibe.Covering` — a list of what is committed anywhere;
* `RaftVibe.Accounts` — the list, and the calls that it goes back to;
* `RaftVibe.Ledger` — all that is known of a run.

Main results:

* `RaftVibe.Cluster.mem_log_of_step` — how an entry gets into a log;
* `RaftVibe.Accounts.step` — **one step** keeps the account;
* `RaftVibe.Ledger.step` — one step, with or without a crash;
* `RaftVibe.Cluster.run_submitted_once` — **every command comes from one call**.
-/

import RaftVibe.ClientHistory

set_option relaxedAutoImplicit false
set_option autoImplicit false

namespace RaftVibe

open ReplicatedLog Runs

variable {σ μ : Type} [Storage σ] {S : Setting} {A A' A₁ : State ℕ LogEntry}
  {C C' : Cluster σ μ} {n : ℕ} {m₀ : μ}

/-! ### How an entry gets into a log -/

namespace RaftCore

variable [Snapshotable μ] {core core' : RaftCore σ μ} {x : LogEntry}

omit [Snapshotable μ] in
theorem mem_log_of_request {args : RequestVoteArgs} {result : RequestVoteResult}
    (hv : core.handleRequestVote args = .ok (core', result)) (h : x ∈ core'.log) : x ∈ core.log := by
  rcases handleRequestVote_ok hv with ⟨-, rfl, -⟩ | ⟨core₁, h₁, -, ⟨rfl, -⟩ | ⟨-, -, hset, -⟩⟩
  · exact h
  · exact (observeTerm_log h₁).1 ▸ h
  · obtain ⟨-, rfl⟩ := setVotedFor_ok.1 hset
    exact (observeTerm_log h₁).1 ▸ h

theorem mem_log_of_append {args : AppendEntriesArgs} {out : HandleAppendEntriesOutput}
    (ha : core.handleAppendEntries args = .ok (core', out)) (h : x ∈ core'.log) :
    x ∈ core.log ∨ x ∈ args.entries := by
  obtain ⟨core₁, h₁, hor⟩ := handleAppendEntries_ok ha
  have hl := (observeTerm_log h₁).1
  rcases hor with ⟨-, rfl, -, -⟩ | ⟨-, core₂, rfl, ⟨rfl, -, -⟩ | ⟨-, hacc, -, -⟩⟩
  · exact Or.inl (hl ▸ h)
  · exact Or.inl (hl ▸ h)
  · obtain ⟨s, core₃, -, rfl, ⟨-, rfl⟩ | ⟨-, results, happly⟩⟩ := acceptEntries_ok hacc
    · exact hl ▸ mem_takeOver h
    · exact hl ▸ mem_takeOver (mem_log_of_apply happly h)

theorem mem_log_of_install {args : InstallSnapshotArgs} {result : InstallSnapshotResult}
    (hi : core.handleInstallSnapshot args = .ok (core', result)) (h : x ∈ core'.log) :
    x ∈ core.log := by
  rcases handleInstallSnapshot_ok hi with ⟨-, rfl, -⟩ | ⟨core₁, core₂, h₁, -, rfl, hor⟩
  · exact h
  · have hl := (observeTerm_log h₁).1
    rcases hor with ⟨s, reason, rfl, -⟩ | ⟨-, s, m, -, -, rfl, -⟩
    · exact hl ▸ h
    · exact hl ▸ (List.mem_filter.1 h).1

omit [Snapshotable μ] in
theorem mem_log_of_vote {peerId : ℕ} {result : RequestVoteResult} {won : Bool}
    (hv : core.handleRequestVoteResult peerId result = .ok (core', won)) (h : x ∈ core'.log) :
    x ∈ core.log ∨ x.command = noopCommand := by
  obtain ⟨core₁, h₁, hor⟩ := handleRequestVoteResult_ok hv
  have hl := (observeTerm_log h₁).1
  rcases hor with ⟨-, rfl, -⟩ | ⟨-, core₂, rfl, hor⟩
  · exact Or.inl (hl ▸ h)
  · obtain ⟨votes, heq, -⟩ := countVote_eq core₁ peerId result
    rw [heq] at hor
    rcases hor with ⟨rfl, -⟩ | ⟨-, hb, -⟩
    · exact Or.inl (hl ▸ h)
    · obtain ⟨s, -, rfl⟩ := becomeLeader_ok hb
      rcases List.mem_append.1 h with h | h
      · exact Or.inl (hl ▸ h)
      · exact Or.inr (by rw [List.mem_singleton.1 h]; rfl)

theorem mem_log_of_answer {peerId entryIndex : ℕ} {result : AppendEntriesResult}
    {commit : Option ℕ} {results : List (ℕ × ApplyResult)}
    (hr : core.handleAppendEntriesResult peerId entryIndex result = .ok (core', commit, results))
    (h : x ∈ core'.log) : x ∈ core.log := by
  obtain ⟨core₁, h₁, hor⟩ := handleAppendEntriesResult_ok hr
  have hl := (observeTerm_log h₁).1
  rcases hor with ⟨-, rfl, -⟩ | ⟨-, core₂, rfl, hor⟩
  · exact hl ▸ h
  · obtain ⟨next, matchIndex, heq, -, -⟩ := recordAppendResult_eq core₁ peerId entryIndex result
    rw [heq] at hor
    rcases hor with ⟨rfl, -⟩ | ⟨-, -, -, -, -, happly⟩
    · exact hl ▸ h
    · have hmem := mem_log_of_apply happly h
      rw [← hl]
      exact hmem

end RaftCore

section Entries

variable [Snapshotable μ] {x : LogEntry} {t : Transition (Cluster σ μ) RestartAction}
  {ts : List (Transition (Cluster σ μ) RestartAction)}

omit [Storage σ] [Snapshotable μ] in
/-- **A call has appended the entry** `x` in the step `t`. -/
def Appends (t : Transition (Cluster σ μ) RestartAction) (x : LogEntry) : Prop :=
  ∃ n, t.action = .act (.local n (.submit x.command)) ∧
    (t.target.servers n).task = .submitted x.command x.index ∧
    (t.target.core n).currentTerm = x.term

/-- The entry is the no-op of a leader, or that of a call. -/
def Authored (ts : List (Transition (Cluster σ μ) RestartAction)) (x : LogEntry) : Prop :=
  x.command = noopCommand ∨ ∃ t ∈ ts, Appends t x

/-- The entries that a request carries. -/
def Request.entries : Request → List LogEntry
  | appendEntries args => args.entries
  | _ => []

/-- What an acquisition of the lock by an event loop adds to the log. -/
theorem Acts.mem_log {s : Server σ μ} {now : ℕ} {action : LocalAction} {e : Effect σ μ}
    (h : Acts s now action e) (hx : x ∈ e.server.core.log) :
    x ∈ s.core.log ∨ x.command = noopCommand ∨ (action = .submit x.command ∧
      e.server.task = .submitted x.command x.index ∧ e.server.core.currentTerm = x.term) := by
  cases h with
  | submit ht hl h =>
      rcases RaftCore.appendLogEntry_ok h with ⟨hno, -⟩ | ⟨-, entry, _, -, rfl, heq, rfl⟩
      · exact absurd hl hno
      · obtain rfl := Option.some.inj heq
        rcases List.mem_append.1 hx with hx | hx
        · exact Or.inl hx
        · obtain rfl := List.mem_singleton.1 hx
          exact Or.inr (Or.inr ⟨rfl, rfl, rfl⟩)
  | startElection _ _ h =>
      obtain ⟨_, -, rfl⟩ := RaftCore.startElection_ok h
      exact Or.inl hx
  | submitDone _ h => exact Or.inl (RaftCore.mem_log_of_answer h hx)
  | submitPending _ h => exact Or.inl (RaftCore.mem_log_of_answer h hx)
  | heartbeatAppended _ _ h => exact Or.inl (RaftCore.mem_log_of_answer h hx)
  | voteWon _ h => exact (RaftCore.mem_log_of_vote h hx).imp id Or.inl
  | votePending _ h => exact (RaftCore.mem_log_of_vote h hx).imp id Or.inl
  | @heartbeatInstalled _ envelope args result =>
      left
      cases result with
      | success term => exact hx
      | failed term reason =>
          simp only [Server.proceed, RaftCore.handleInstallSnapshotResult] at hx
          split at hx <;> exact hx
  | _ => exact Or.inl hx

/-- What is sent was in the log of the sender. -/
theorem Acts.mem_sent {s : Server σ μ} {now : ℕ} {action : LocalAction} {e : Effect σ μ}
    (h : Acts s now action e) {envelope : Envelope} (he : envelope ∈ e.sent)
    (hx : x ∈ envelope.request.entries) : x ∈ s.core.log := by
  obtain ⟨-, -, -, -, hor⟩ := h.sent_cases he
  rcases hor with ⟨command, i, -, heq⟩ | ⟨-, heq⟩ | ⟨-, heq⟩ | ⟨-, heq⟩
  · rw [heq] at hx
    exact (List.mem_filter.1 hx).1
  · rw [heq] at hx
    cases hx
  · simp only [RaftCore.heartbeatRequest] at heq
    split at heq
    · split at heq
      · obtain heq := Option.some.inj heq
        rw [← heq] at hx
        cases hx
      · cases heq
    · obtain heq := Option.some.inj heq
      rw [← heq] at hx
      exact (List.mem_filter.1 hx).1
  · rw [heq] at hx
    cases hx

/-- **How an entry gets into a log.** -/
theorem Cluster.mem_log_of_step {action : Action} (hs : C.step action = some C')
    (hx : x ∈ (C'.core n).log) : x ∈ (C.core n).log ∨ x.command = noopCommand ∨
      (∃ envelope ∈ C.requests, x ∈ envelope.request.entries) ∨
      Appends ⟨C, .act action, C'⟩ x := by
  cases action with
  | deliver envelope =>
      obtain ⟨hmem, core, reply, hrec, rfl⟩ := step_deliver hs
      by_cases hne : n = envelope.target
      · subst hne
        rw [Cluster.core, C.receive_servers_self] at hx
        rcases Server.receive_ok hrec with
          ⟨args, result, hreq, -, h⟩ | ⟨args, out, hreq, -, h⟩ | ⟨args, result, hreq, -, h⟩
        · exact Or.inl (RaftCore.mem_log_of_request h hx)
        · rcases RaftCore.mem_log_of_append h hx with hx | hx
          · exact Or.inl hx
          · exact Or.inr (Or.inr (Or.inl ⟨envelope, hmem, by rwa [hreq]⟩))
        · exact Or.inl (RaftCore.mem_log_of_install h hx)
      · rw [Cluster.core, C.receive_servers_ne core reply hne] at hx
        exact Or.inl hx
  | «local» m action =>
      obtain ⟨-, -, e, ha, rfl⟩ := step_local hs
      by_cases hne : n = m
      · subst hne
        rw [Cluster.core, C.perform_servers_self] at hx
        rcases ha.mem_log hx with hx | hx | ⟨rfl, htask, hterm⟩
        · exact Or.inl hx
        · exact Or.inr (Or.inl hx)
        · refine Or.inr (Or.inr (Or.inr ⟨n, rfl, ?_, ?_⟩))
          · rw [C.perform_servers_self]
            exact htask
          · rw [Cluster.core, C.perform_servers_self]
            exact hterm
      · rw [Cluster.core, C.perform_servers_ne e hne] at hx
        exact Or.inl hx

end Entries

/-! ### The account -/

section Accounting

variable [Snapshotable μ] {ℓ : List LogEntry} {x : LogEntry} {action : RestartAction}
  {t : Transition (Cluster σ μ) RestartAction}
  {ts us : List (Transition (Cluster σ μ) RestartAction)}

omit [Storage σ] [Snapshotable μ] in
theorem Authored.mono (h : Authored ts x) : Authored (ts ++ us) x := by
  rcases h with h | ⟨t, ht, happ⟩
  · exact Or.inl h
  · exact Or.inr ⟨t, List.mem_append_left _ ht, happ⟩

/-- **Where entries come from**: those of the logs, and those on their way. -/
structure Submitted (ts : List (Transition (Cluster σ μ) RestartAction)) (S : Setting)
    (C : Cluster σ μ) : Prop where
  log : ∀ n ∈ S.nodes, ∀ x ∈ (C.core n).log, Authored ts x
  carried : ∀ envelope ∈ C.requests, ∀ x ∈ envelope.request.entries, Authored ts x

/-- **One step** brings no other entries. -/
theorem Submitted.step (h : Submitted ts S C) (hsim : Sim S C A) {action : Action}
    (hs : C.step action = some C') : Submitted (ts ++ [⟨C, .act action, C'⟩]) S C' := by
  refine ⟨fun n hn x hx => ?_, fun envelope he x hx => ?_⟩
  · rcases Cluster.mem_log_of_step hs hx with hx | hx | ⟨envelope, he, hx⟩ | happ
    · exact (h.log n hn x hx).mono
    · exact Or.inl hx
    · exact (h.carried envelope he x hx).mono
    · exact Or.inr ⟨_, List.mem_append_right _ (List.mem_singleton_self _), happ⟩
  · cases action with
    | deliver envelope' =>
        obtain ⟨-, core, reply, -, rfl⟩ := Cluster.step_deliver hs
        exact (h.carried envelope he x hx).mono
    | «local» k action =>
        obtain ⟨hk, -, e, ha, rfl⟩ := Cluster.step_local hs
        rcases List.mem_append.1 he with he | he
        · exact (h.carried envelope he x hx).mono
        · exact (h.log k (hsim.nodes ▸ hk) x (ha.mem_sent he hx)).mono

/-- A node that comes back has the log it had. -/
theorem Endures.restart_log (h : Endures S C A) {k : ℕ} (hs : C.restart m₀ k = some C') (m : ℕ) :
    (C'.core m).log = (C.core m).log := by
  by_cases hmk : m = k
  · subst hmk
    obtain ⟨hk, core, hnew, rfl⟩ := Cluster.restart_eq_some hs
    rw [h.follows.sim.nodes] at hk
    obtain ⟨_, rfl⟩ := (h.recoverable m hk).new_eq hnew
    simp only [Cluster.core, Function.update_self]
    rfl
  · rw [Cluster.core, Cluster.restart_servers_ne hs hmk, Cluster.core]

theorem Submitted.restart (h : Submitted ts S C) (he : Endures S C A) {k : ℕ}
    (hs : C.restart m₀ k = some C') : Submitted (ts ++ [⟨C, .restart k, C'⟩]) S C' := by
  refine ⟨fun n hn x hx => ?_, fun envelope hmem x hx => ?_⟩
  · rw [he.restart_log hs] at hx
    exact (h.log n hn x hx).mono
  · obtain ⟨-, core, -, rfl⟩ := Cluster.restart_eq_some hs
    exact (h.carried envelope hmem x hx).mono

/-- **What is committed anywhere**, entry by entry: no commit index, and none that is announced, is
beyond the list. -/
structure Covering (S : Setting) (ℓ : List LogEntry) (C : Cluster σ μ) (A : State ℕ LogEntry) :
    Prop where
  committed : ∃ T, CommittedBy S.quorums A T ℓ
  indexed : Indexed 0 ℓ
  node : ∀ n ∈ S.nodes, (C.core n).commitIndex ≤ ℓ.length
  carried : ∀ envelope ∈ C.requests, envelope.request.announced ≤ ℓ.length

/-- **A leader commits by itself**: the list grows, by entries that the leader has in its vector. -/
theorem Covering.commit (h : Covering S ℓ C A) (hsim : Sim S C A) (hst : S.Stores σ)
    (hstrict : S.strict) {k : ℕ} {action : LocalAction} (hs : C.step (.local k action) = some C')
    (hlt : ℓ.length < (C'.core k).commitIndex) :
    ∃ r, (∃ T, CommittedBy S.quorums A T (ℓ ++ r)) ∧ Indexed 0 (ℓ ++ r) ∧
      (ℓ ++ r).length = (C'.core k).commitIndex ∧ ∀ x ∈ r, x ∈ (C.core k).log := by
  have hh := S.honest_of_strict hstrict
  obtain ⟨hk, -, e, ha, hC'⟩ := Cluster.step_local hs
  rw [hsim.nodes] at hk
  have hself : C'.core k = e.server.core := by rw [hC', Cluster.core, C.perform_servers_self]
  have hold := h.node k hk
  have hnode := hsim.node k hk
  have hrise : (C.core k).commitIndex < (C'.core k).commitIndex := hold.trans_lt hlt
  obtain ⟨-, -, hcom⟩ := hsim.commits_of_answer hst hh hs hrise
  have hleads := hnode.leads (ha.leader_of_commit (hself ▸ hrise))
  have hlen : (C'.core k).commitIndex ≤ (A.log k).length := hleads.log ▸ hcom.2.2.1
  have hby : CommittedBy S.quorums A (A.term k) ((A.log k).take (C'.core k).commitIndex) :=
    hleads.log ▸ Or.inr ⟨_, _, le_rfl, hcom, List.prefix_rfl⟩
  obtain ⟨T, hℓ⟩ := h.committed
  -- what the leader has committed continues the list
  obtain ⟨r, hr⟩ : ℓ <+: (A.log k).take (C'.core k).commitIndex := by
    rcases (Setting.kept hsim.reachable hh).committed_comparable (Setting.inv hsim.reachable) hℓ hby
      with hpre | hpre
    · exact hpre
    · have := hpre.length_le
      rw [List.length_take] at this
      omega
  refine ⟨r, ⟨_, hr ▸ hby⟩, hr ▸ hnode.log.indexed.take _, ?_, fun x hx => ?_⟩
  · rw [hr, List.length_take]
    omega
  · -- and the rest is above the snapshot
    have hrest : r = ((A.log k).take (C'.core k).commitIndex).drop ℓ.length := by
      rw [← hr, List.drop_left]
    rw [hrest, List.drop_take] at hx
    rw [hnode.log.log_eq]
    exact List.drop_subset_drop_left _ ((hnode.commits hstrict).snapshot_le.trans hold)
      (List.mem_of_mem_take hx)

/-- **One step** lets the list grow by entries of the vectors. -/
theorem Covering.step (h : Covering S ℓ C A) (hsim : Sim S C A) (hst : S.Stores σ)
    (hstrict : S.strict) (hcomp : S.compacting) {action : Action} (hs : C.step action = some C')
    {m : ℕ} (hf : Frame m A A') :
    ∃ r, Covering S (ℓ ++ r) C' A' ∧ ∀ x ∈ r, ∃ n ∈ S.nodes, x ∈ (C.core n).log := by
  obtain ⟨T, hℓ⟩ := h.committed
  cases action with
  | deliver envelope =>
      obtain ⟨hmem, core, reply, hrec, rfl⟩ := Cluster.step_deliver hs
      refine ⟨[], ?_, by simp⟩
      rw [List.append_nil]
      refine ⟨⟨T, hℓ.frame hf⟩, h.indexed, fun n hn => ?_, h.carried⟩
      by_cases hnt : n = envelope.target
      · subst hnt
        rw [Cluster.core, C.receive_servers_self]
        exact (Server.receive_commit_le hrec).trans (max_le (h.node _ hn) (h.carried envelope hmem))
      · rw [Cluster.core, C.receive_servers_ne core reply hnt]
        exact h.node n hn
  | «local» k action =>
      -- the others, and what is sent, stay below the old list
      obtain ⟨hk, -, e, ha, hC'⟩ := Cluster.step_local hs
      rw [hsim.nodes] at hk
      have hothers : ∀ n ∈ S.nodes, n ≠ k → (C'.core n).commitIndex ≤ ℓ.length := by
        intro n hn hnk
        rw [hC', Cluster.core, C.perform_servers_ne e hnk]
        exact h.node n hn
      have hcarried : ∀ envelope ∈ C'.requests, envelope.request.announced ≤ ℓ.length := by
        intro envelope he
        rw [hC'] at he
        rcases List.mem_append.1 he with he | he
        · exact h.carried envelope he
        · exact ((hsim.node k hk).announced_le hstrict hcomp ha he).trans (h.node k hk)
      rcases Nat.lt_or_ge ℓ.length (C'.core k).commitIndex with hlt | hge
      · obtain ⟨r, ⟨T', hby⟩, hidx, hlen, hr⟩ := h.commit hsim hst hstrict hs hlt
        refine ⟨r, ⟨⟨T', hby.frame hf⟩, hidx, fun n hn => ?_, fun envelope he => ?_⟩,
          fun x hx => ⟨k, hk, hr x hx⟩⟩
        · by_cases hnk : n = k
          · rw [hnk, hlen]
          · rw [hlen]
            exact (hothers n hn hnk).trans hlt.le
        · rw [hlen]
          exact (hcarried envelope he).trans hlt.le
      · refine ⟨[], ?_, by simp⟩
        rw [List.append_nil]
        refine ⟨⟨T, hℓ.frame hf⟩, h.indexed, fun n hn => ?_, hcarried⟩
        by_cases hnk : n = k
        · rw [hnk]
          exact hge
        · exact hothers n hn hnk

theorem Covering.restart (h : Covering S ℓ C A) (he : Endures S C A) (hstrict : S.strict) {k m : ℕ}
    (hs : C.restart m₀ k = some C') (hf : Frame m A A') : Covering S ℓ C' A' := by
  obtain ⟨T, hℓ⟩ := h.committed
  refine ⟨⟨T, hℓ.frame hf⟩, h.indexed, fun n hn => ?_, fun envelope hmem => ?_⟩
  · have hold := h.node n hn
    by_cases hnk : n = k
    · subst hnk
      rw [(he.restart_self hs).2.2]
      exact ((he.follows.sim.node n hn).commits hstrict).snapshot_le.trans hold
    · rw [Cluster.core, Cluster.restart_servers_ne hs hnk]
      exact hold
  · obtain ⟨-, core, -, rfl⟩ := Cluster.restart_eq_some hs
    exact h.carried envelope hmem

/-- A call begins at an idle event loop. -/
theorem Acts.idle_of_submitted {s : Server σ μ} {now i : ℕ} {command : String} {e : Effect σ μ}
    (h : Acts s now (.submit command) e) (ht : e.server.task = .submitted command i) :
    s.task = .idle := by
  cases h with
  | settle h => cases h <;> cases ht
  | submit hidle => exact hidle

/-- **A call appends a new entry**: it was beyond the log of the term, and then it is in it. -/
theorem Sim.appends_of_step (h : Sim S C A) (h' : Sim S C' A') {action : Action}
    (hs : C.step action = some C') (happ : Appends ⟨C, .act action, C'⟩ x) {m : ℕ}
    (hf : Frame m A A') :
    ∃ l, A'.leader x.term = some l ∧ (A.llog x.term).length < x.index ∧
      x.index ≤ (A'.llog x.term).length := by
  obtain ⟨n, hact, htask, hterm⟩ := happ
  obtain rfl := RestartAction.act.inj hact
  replace htask : (C'.servers n).task = .submitted x.command x.index := htask
  replace hterm : (C'.core n).currentTerm = x.term := hterm
  obtain ⟨hn, -, e, ha, hC'⟩ := Cluster.step_local hs
  rw [h.nodes] at hn
  have hidle : (C.servers n).task = .idle := by
    refine ha.idle_of_submitted (i := x.index) ?_
    rw [← htask, hC', C.perform_servers_self]
  have hnode := h.node n hn
  rcases Cluster.step_call_cases hs (by rw [htask]; rfl) with
    ⟨-, -, hl, hi, hrole, hsnap, hlog⟩ | ⟨hcall, -⟩
  · have hget := hnode.llog_of_append (h'.node n hn) (hrole.1.trans hl) hi hsnap hrole.2 hlog
    have hlead := (hnode.leads hl).leader
    have hlen := hnode.log.lastLogIndex
    rw [(hnode.leads hl).log, ← hnode.term_eq, ← hrole.2, hterm] at hlen
    rw [← hnode.term_eq, ← hrole.2, hterm] at hlead
    rw [hterm] at hget
    obtain ⟨hlt, -⟩ := List.getElem?_eq_some_iff.1 hget
    exact ⟨n, hf.leader_some hlead, by omega, by omega⟩
  · rw [hidle] at hcall
    cases hcall

/-- **The account**: the list of what is committed, and the calls that it goes back to. -/
structure Accounts (ts : List (Transition (Cluster σ μ) RestartAction)) (S : Setting)
    (ℓ : List LogEntry) (C : Cluster σ μ) (A : State ℕ LogEntry) : Prop where
  submitted : Submitted ts S C
  covering : Covering S ℓ C A
  authored : ∀ x ∈ ℓ, Authored ts x
  appended : ∀ t ∈ ts, ∀ x, Appends t x →
    ∃ l, A.leader x.term = some l ∧ x.index ≤ (A.llog x.term).length
  once : ts.Pairwise fun t u => ∀ x, Appends t x → ¬ Appends u x

/-- **One step** keeps the account. -/
theorem Accounts.step (h : Accounts ts S ℓ C A) (hsim : Sim S C A) (hst : S.Stores σ)
    (hstrict : S.strict) (hcomp : S.compacting) {action : Action} (hs : C.step action = some C')
    (hsim' : Sim S C' A') {m : ℕ} (hf : Frame m A A') :
    ∃ r, Accounts (ts ++ [⟨C, .act action, C'⟩]) S (ℓ ++ r) C' A' := by
  obtain ⟨r, hcov, hr⟩ := h.covering.step hsim hst hstrict hcomp hs hf
  refine ⟨r, h.submitted.step hsim hs, hcov, fun x hx => ?_, fun t ht x happ => ?_, ?_⟩
  · rcases List.mem_append.1 hx with hx | hx
    · exact (h.authored x hx).mono
    · obtain ⟨n, hn, hx⟩ := hr x hx
      exact (h.submitted.log n hn x hx).mono
  · rcases List.mem_append.1 ht with ht | ht
    · obtain ⟨l, hlead, hle⟩ := h.appended t ht x happ
      exact ⟨l, hf.leader_some hlead, hle.trans (hf.llog hlead).length_le⟩
    · obtain rfl := List.mem_singleton.1 ht
      obtain ⟨l, hlead, -, hle⟩ := hsim.appends_of_step hsim' hs happ hf
      exact ⟨l, hlead, hle⟩
  · rw [List.pairwise_append]
    refine ⟨h.once, List.pairwise_singleton _ _, fun t ht u hu x happ happ' => ?_⟩
    -- the entry of an earlier call is in the log of the term already
    obtain rfl := List.mem_singleton.1 hu
    obtain ⟨-, -, hle⟩ := h.appended t ht x happ
    obtain ⟨-, -, hlt, -⟩ := hsim.appends_of_step hsim' hs happ' hf
    omega

/-- **A restart** appends nothing. -/
theorem Accounts.restart (h : Accounts ts S ℓ C A) (he : Endures S C A) (hstrict : S.strict)
    {k m : ℕ} (hs : C.restart m₀ k = some C') (hf : Frame m A A') :
    Accounts (ts ++ [⟨C, .restart k, C'⟩]) S ℓ C' A' := by
  have hno : ∀ x, ¬ Appends ⟨C, .restart k, C'⟩ x := by
    rintro x ⟨n, hact, -⟩
    cases hact
  refine ⟨h.submitted.restart he hs, h.covering.restart he hstrict hs hf,
    fun x hx => (h.authored x hx).mono, fun t ht x happ => ?_, ?_⟩
  · rcases List.mem_append.1 ht with ht | ht
    · obtain ⟨l, hlead, hle⟩ := h.appended t ht x happ
      exact ⟨l, hf.leader_some hlead, hle.trans (hf.llog hlead).length_le⟩
    · obtain rfl := List.mem_singleton.1 ht
      exact absurd happ (hno x)
  · rw [List.pairwise_append]
    refine ⟨h.once, List.pairwise_singleton _ _, fun t ht u hu x happ happ' => ?_⟩
    obtain rfl := List.mem_singleton.1 hu
    exact hno x happ'

theorem Cluster.Initial.accounts (h : C.Initial) (hnodes : C.nodes = S.nodes) :
    Accounts [] S [] C (State.init ℕ LogEntry) := by
  have hcore : ∀ n ∈ S.nodes, (C.core n).log = [] ∧ (C.core n).commitIndex = 0 := by
    intro n hn
    obtain ⟨peers, storage, m, threshold, core, hnew, heq, hterm, hvote, hlog, hsnap, -⟩ :=
      h.boot n (hnodes ▸ hn)
    rw [RaftCore.new_eq_fresh hterm hvote hlog hsnap, Except.ok.injEq] at hnew
    rw [Cluster.core, heq, ← hnew]
    exact ⟨rfl, rfl⟩
  refine ⟨⟨fun n hn x hx => ?_, by simp [h.requests]⟩,
    ⟨⟨0, Or.inl rfl⟩, Indexed.nil, fun n hn => (hcore n hn).2.le, by simp [h.requests]⟩,
    by simp, by simp, List.Pairwise.nil⟩
  rw [(hcore n hn).1] at hx
  cases hx

end Accounting

/-! ### The ledger -/

omit [Storage σ] in
/-- Of two histories one of which continues the other, a node that agrees with one agrees with the
other, as far as it has applied it. -/
theorem RaftCore.Reflects.of_comparable [Snapshotable μ] {core : RaftCore σ μ} {H H' : List String}
    (h : core.Reflects m₀ H) (hcmp : H <+: H' ∨ H' <+: H) (hle : core.lastApplied ≤ H'.length) :
    core.Reflects m₀ H' := by
  rcases hcmp with hpre | hpre
  · exact h.mono hpre
  · refine ⟨hle, ?_, fun i e hi he => ?_⟩
    · rw [h.stateMachine, take_of_grown hpre hle]
    · obtain ⟨hpos, -⟩ := RaftCore.getLogEntry_eq_some.1 he
      obtain ⟨r, rfl⟩ := hpre
      have hget := h.entries i e hi he
      rwa [List.getElem?_append_left (by omega)] at hget

/-- **What is known of a run**: how it looks from the replicated log, the history of commands, and the
list of what is committed. -/
structure Ledger [Snapshotable μ] (ts : List (Transition (Cluster σ μ) RestartAction)) (S : Setting)
    (m₀ : μ) (H : List String) (ℓ : List LogEntry) (C : Cluster σ μ) (A : State ℕ LogEntry) :
    Prop where
  tracks : Tracks S C A
  replicates : Replicates S m₀ H C A
  accounts : Accounts ts S ℓ C A

section Ledgers

variable [Snapshotable μ] {H : List String} {ℓ : List LogEntry}
  {ts : List (Transition (Cluster σ μ) RestartAction)} {nodes : List ℕ} {hnodup : nodes.Nodup}

/-- The history and the list agree as far as they go. -/
theorem Ledger.comparable (h : Ledger ts (.full nodes hnodup) m₀ H ℓ C A) :
    H <+: ℓ.map LogEntry.command ∨ ℓ.map LogEntry.command <+: H := by
  obtain ⟨T, hby⟩ := h.accounts.covering.committed
  exact h.replicates.decided.comparable ⟨T, _, hby, rfl⟩ h.tracks.endures.follows.sim.reachable
    trivial

/-- No node has applied more than the list has. -/
theorem Ledger.applied_le (h : Ledger ts (.full nodes hnodup) m₀ H ℓ C A) (hn : n ∈ nodes) :
    (C.core n).lastApplied ≤ ℓ.length := by
  rw [((h.tracks.endures.follows.sim.node n hn).commits trivial).applied]
  exact h.accounts.covering.node n hn

theorem Ledger.reflects (h : Ledger ts (.full nodes hnodup) m₀ H ℓ C A) (hn : n ∈ nodes) :
    (C.core n).Reflects m₀ (ℓ.map LogEntry.command) := by
  refine (h.replicates.reflects h.tracks.endures.follows.sim trivial hn).of_comparable h.comparable ?_
  rw [List.length_map]
  exact h.applied_le hn

variable [LawfulStorage σ] [DurableSnapshots σ] [LawfulSnapshotable μ]

/-- **One step**, with or without a crash. -/
theorem Ledger.step (h : Ledger ts (.full nodes hnodup) m₀ H ℓ C A) {action : RestartAction}
    (hok : ¬ C.GoesWrong action) (hs : C.stepOrRestart m₀ action = some C') :
    ∃ A' H' r, Frame action.node A A' ∧ H <+: H' ∧
      Ledger (ts ++ [⟨C, action, C'⟩]) (.full nodes hnodup) m₀ H' (ℓ ++ r) C' A' := by
  obtain ⟨A', H', hf, hH, he, hrep⟩ := Cluster.agrees_of_step h.tracks.endures h.replicates hok hs
  have hsim := h.tracks.endures.follows.sim
  have htracks := h.tracks.of_frame (fun hstray => hok hstray.goesWrong) hs he hf
  obtain ⟨r, hacc⟩ : ∃ r, Accounts (ts ++ [⟨C, action, C'⟩]) (.full nodes hnodup) (ℓ ++ r) C' A' := by
    cases action with
    | act action =>
        exact h.accounts.step hsim (fun _ => ⟨inferInstance, inferInstance⟩) trivial trivial hs
          he.follows.sim hf
    | restart k =>
        refine ⟨[], ?_⟩
        rw [List.append_nil]
        exact h.accounts.restart h.tracks.endures trivial hs hf
  exact ⟨A', H', r, hf, hH, htracks, hrep, hacc⟩

omit [LawfulStorage σ] [DurableSnapshots σ] in
theorem Cluster.Initial.ledger (h : C.Initial)
    (hm : ∀ n ∈ C.nodes, (C.core n).stateMachine = m₀) :
    Ledger [] (.full C.nodes h.nodup) m₀ [] [] C (State.init ℕ LogEntry) :=
  ⟨h.tracks rfl trivial, h.replicates rfl hm, h.accounts rfl⟩

end Ledgers

/-! ### Runs -/

namespace Cluster

variable [Snapshotable μ] {x : LogEntry} {ts : List (Transition (Cluster σ μ) RestartAction)}

omit [Storage σ] [Snapshotable μ] in
/-- **One call of the run, and no other**, has appended the entry `x`. -/
def AppendedOnce (ts : List (Transition (Cluster σ μ) RestartAction)) (x : LogEntry) : Prop :=
  ∃ us t vs, ts = us ++ t :: vs ∧ Appends t x ∧ ∀ u ∈ us ++ vs, ¬ Appends u x

omit [Storage σ] [Snapshotable μ] in
theorem appendedOnce_of_pairwise
    (h : ts.Pairwise fun t u => ∀ x, Appends t x → ¬ Appends u x)
    {t : Transition (Cluster σ μ) RestartAction} (ht : t ∈ ts) (happ : Appends t x) :
    AppendedOnce ts x := by
  obtain ⟨us, vs, rfl⟩ := List.append_of_mem ht
  obtain ⟨-, hvs, hus⟩ := List.pairwise_append.1 h
  refine ⟨us, t, vs, rfl, happ, fun u hu happ' => ?_⟩
  rcases List.mem_append.1 hu with hu | hu
  · exact hus u hu t (List.mem_cons_self ..) x happ' happ
  · exact (List.pairwise_cons.1 hvs).1 u hu x happ happ'

variable [LawfulStorage σ] [DurableSnapshots σ] [LawfulSnapshotable μ]

/-- **Every command comes from one call**, in every run in which nothing goes wrong: there is one list
of entries such that every node, at every moment, holds the fold of the commands of its first
`last_applied` entries, and every entry of it whose command is not that of a no-op, which a client may
send, too, was appended at its place by one call to `submit`, and by no other. -/
theorem run_submitted_once (hinit : C.Initial)
    (hm : ∀ n ∈ C.nodes, (C.core n).stateMachine = m₀) (hr : Run (stepOrRestart m₀) C ts C')
    (hok : ∀ t ∈ ts, ¬ t.source.GoesWrong t.action) :
    ∃ ℓ : List LogEntry,
      (∀ t ∈ ts, ∀ n ∈ C.nodes, (t.target.core n).Reflects m₀ (ℓ.map LogEntry.command)) ∧
      ∀ i x, ℓ[i]? = some x →
        x.index = i + 1 ∧ (x.command = noopCommand ∨ AppendedOnce ts x) := by
  let S : Setting := .full _ hinit.nodup
  obtain ⟨A, H, ℓ, hledger, hreflect⟩ : ∃ A H ℓ, Ledger ts S m₀ H ℓ C' A ∧
      ∀ t ∈ ts, ∀ n ∈ C.nodes, (t.target.core n).Reflects m₀ (ℓ.map LogEntry.command) := by
    refine hr.history (J := fun ts C' => ∃ A H ℓ, Ledger ts S m₀ H ℓ C' A ∧
        ∀ t ∈ ts, ∀ n ∈ C.nodes, (t.target.core n).Reflects m₀ (ℓ.map LogEntry.command))
      (P := fun t => ¬ t.source.GoesWrong t.action) ?_ ⟨_, [], [], hinit.ledger hm, by simp⟩ hok
    rintro ts C₁ action C₂ ⟨A₁, H₁, ℓ₁, h₁, hreflect₁⟩ hs hno
    obtain ⟨A₂, H₂, r, -, -, h₂⟩ := h₁.step hno hs
    refine ⟨A₂, H₂, ℓ₁ ++ r, h₂, fun t ht n hn => ?_⟩
    rcases List.mem_append.1 ht with ht | ht
    · refine (hreflect₁ t ht n hn).mono ?_
      rw [List.map_append]
      exact List.prefix_append _ _
    · obtain rfl := List.mem_singleton.1 ht
      exact h₂.reflects hn
  have hacc := hledger.accounts
  refine ⟨ℓ, hreflect, fun i x hx => ⟨?_, ?_⟩⟩
  · have := hacc.covering.indexed i x hx
    omega
  · rcases hacc.authored x (List.mem_of_getElem? hx) with hnoop | ⟨t, ht, happ⟩
    · exact Or.inl hnoop
    · exact Or.inr (appendedOnce_of_pairwise hacc.once ht happ)

omit [Storage σ] [Snapshotable μ] [LawfulStorage σ] [DurableSnapshots σ] [LawfulSnapshotable μ] in
/-- The entry that node 1 appended before it crashed has its place, and goes back to one call. -/
theorem run_submitted_once_crashed : ∃ (ts : List _) (C : Cluster StorageContents Recorder)
    (ℓ : List LogEntry) (x : LogEntry), Run (stepOrRestart Recorder.new) compactingNodes ts C ∧
      ℓ[1]? = some x ∧ x.command = "SET x 1" ∧ x.index = 2 ∧ AppendedOnce ts x := by
  obtain ⟨ts, C, hr, hok, t, ht, happlied, hget⟩ := exists_run_of_play
    (stepOrRestart Recorder.new) chooseOrRestart compactingNodes crashBoth
    (P := fun ts _ => (∀ t ∈ ts, ¬ t.source.GoesWrong t.action) ∧
      ∃ t ∈ ts, (t.target.core 1).lastApplied = 2 ∧
        (t.target.core 1).getLogEntry 2 = some ⟨1, 2, "SET x 1"⟩)
    (by decide +kernel)
  obtain ⟨ℓ, hreflect, honce⟩ := run_submitted_once compactingNodes_initial (fun _ _ => rfl) hr hok
  have hcommand := (hreflect t ht 1 (by decide)).entries 2 _ happlied.ge hget
  rw [List.getElem?_map] at hcommand
  obtain ⟨x, hx, hcommand⟩ := Option.map_eq_some_iff.1 hcommand
  obtain ⟨hindex, hnoop | happ⟩ := honce 1 x hx
  · rw [hcommand] at hnoop
    exact absurd hnoop (by decide)
  · exact ⟨ts, C, ℓ, x, hr, hx, hcommand, hindex, happ⟩

end Cluster

end RaftVibe
