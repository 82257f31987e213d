/-
**The cluster simulates the replicated log.**

What a capture sends stands in the relation, whatever kind it is; then every acquisition of a lock,
by an incoming request or by an event loop, is a move of one node, after which the relation holds
again.  So whatever is invariant in the replicated log can be read off at any point of a run.

Main definitions:

* `RaftVibe.RaftCore.SkipsSnapshot` — a capture that sends entries with a gap before them;
* `RaftVibe.Setting.Allows` — an action leads into none of the branches that the setting excludes.

Main results:

* `RaftVibe.NodeRel.replicateArgs`, `RaftVibe.NodeRel.heartbeatRequest`,
  `RaftVibe.NodeRel.confirmArgs` — what the captures send;
* `RaftVibe.Acts.sim` — one acquisition of the lock by an event loop;
* `RaftVibe.Sim.step` — **one step of the cluster**.
-/

import RaftVibe.SimulationLeader

set_option relaxedAutoImplicit false
set_option autoImplicit false

namespace RaftVibe

open ReplicatedLog

variable {σ μ : Type} [Storage σ] [Snapshotable μ] {S : Setting} {A A' : State ℕ LogEntry}
  {n : ℕ} {core core' : RaftCore σ μ}

/-! ### Captures -/

/-- **A capture that skips compacted entries**: `replicate_to_peers` sends to a peer that needs the
log from its first entry on, but the first entries are in the snapshot. -/
def RaftCore.SkipsSnapshot (core : RaftCore σ μ) : Prop :=
  0 < core.snapshotLastIndex ∧ ∃ peer ∈ core.peers, core.nextIndex.getD peer 1 = 1

instance (core : RaftCore σ μ) : Decidable core.SkipsSnapshot := by
  unfold RaftCore.SkipsSnapshot
  infer_instance

namespace NodeRel

omit [Snapshotable μ] in
/-- An AppendEntries request: a previous index inside the snapshot or beyond the log gets term `0`;
otherwise the request carries a prefix of the log. -/
theorem appendEntriesArgs (h : NodeRel S A n core) (hA : S.Reachable A)
    (hl : S.honest → core.state = .leader) {peer : ℕ} {entries : List LogEntry}
    (hent : core.snapshotLastIndex ≤ core.nextIndex.getD peer 1 - 1 ∨
        core.nextIndex.getD peer 1 - 1 = 0 →
      core.nextIndex.getD peer 1 - 1 ≤ (A.log n).length →
      ∃ k, core.nextIndex.getD peer 1 - 1 ≤ k ∧ k ≤ (A.log n).length ∧
        entries = ((A.log n).take k).drop (core.nextIndex.getD peer 1 - 1)) :
    AppendRel S A n (core.appendEntriesArgs peer entries) := by
  generalize hprev : core.nextIndex.getD peer 1 - 1 = prev at hent
  have hinv := Setting.inv hA
  have hargs : core.appendEntriesArgs peer entries =
      ⟨core.currentTerm, core.id, prev, core.prevLogTerm prev, entries, core.commitIndex⟩ := by
    rw [RaftCore.appendEntriesArgs, hprev]
  rw [hargs]
  have hlead : S.honest → A.leader core.currentTerm = some n := fun hh => by
    rw [h.term_eq]
    exact (h.leads (hl hh)).leader
  have hlog : S.honest → A.log n = A.llog core.currentTerm := fun hh => by
    rw [h.term_eq]
    exact (h.leads (hl hh)).log
  refine ⟨h.id_eq, hlead, ?_, fun hs => ?_⟩
  · by_cases hin : (core.snapshotLastIndex ≤ prev ∨ prev = 0) ∧ prev ≤ (A.log n).length
    · obtain ⟨k, hk, hkL, rfl⟩ := hent hin.1 hin.2
      refine Or.inr ⟨(A.log n).take k, h.log.indexed.take k, ?_, rfl, fun hpos => ?_,
        (hinv.valid_log n).shorten (List.take_prefix _ _), fun e he => ?_, fun hh => ?_⟩
      · simp only [List.length_take, List.length_drop]
        omega
      · rw [List.take_take, min_eq_left hk]
        exact (h.log.prevLogTerm (hin.1.resolve_right hpos.ne') hin.2).symm
      · show e.term ≤ core.currentTerm
        rw [h.term_eq]
        exact hinv.log_le n e (List.mem_of_mem_take he)
      · show _ <+: A.llog core.currentTerm
        rw [← hlog hh]
        exact List.take_prefix _ _
    · left
      have hlen := h.log.length_eq
      refine ⟨?_, ?_⟩
      · show 0 < prev
        by_contra h0
        exact hin ⟨Or.inr (by omega), by omega⟩
      · show core.prevLogTerm prev = 0
        unfold RaftCore.prevLogTerm
        have hne : prev ≠ core.snapshotLastIndex := by
          rintro rfl
          exact hin ⟨Or.inl le_rfl, by omega⟩
        rw [if_neg hne]
        split
        · rfl
        · split
          · rename_i h0 hgt
            have hout : core.log.length ≤ prev - core.snapshotLastIndex - 1 := by
              by_contra hlt
              exact hin ⟨Or.inl hgt.le, by omega⟩
            rw [List.getElem?_eq_none hout]
            rfl
          · rfl
  · have hc := h.commits hs
    have hh := S.honest_of_strict hs
    refine ⟨(A.log n).take core.commitIndex, ?_, ?_, ?_⟩
    · show _ <+: A.llog core.currentTerm
      rw [← hlog hh]
      exact List.take_prefix _ _
    · rw [List.length_take, min_eq_left hc.commit_le]
    · show CommittedBy S.quorums A core.currentTerm _
      rw [h.term_eq]
      exact hc.committed

omit [Snapshotable μ] in
/-- Below the snapshot the capture of `replicate_to_peers` has no term to send along. -/
theorem replicateArgs_prev (h : NodeRel S A n core) (hskip : S.compacting → ¬ core.SkipsSnapshot)
    {peer i : ℕ} (hp : peer ∈ core.peers) :
    core.snapshotLastIndex ≤ core.nextIndex.getD peer 1 - 1 ∨
      (core.replicateArgs i peer).Bogus := by
  by_cases hle : core.snapshotLastIndex ≤ core.nextIndex.getD peer 1 - 1
  · exact Or.inl hle
  right
  have hc : S.compacting := by
    by_contra hno
    exact hle (by rw [(h.plain hno).2]; exact Nat.zero_le _)
  have hpos := h.next_pos peer
  refine ⟨?_, ?_⟩
  · show 0 < core.nextIndex.getD peer 1 - 1
    by_contra h0
    exact hskip hc ⟨by omega, peer, hp, by omega⟩
  · show core.prevLogTerm (core.nextIndex.getD peer 1 - 1) = 0
    unfold RaftCore.prevLogTerm
    rw [if_neg (by omega)]
    split
    · rfl
    · rw [if_neg (by omega)]

omit [Snapshotable μ] in
/-- **The capture of `replicate_to_peers`** sends the log up to the submitted entry. -/
theorem replicateArgs (h : NodeRel S A n core) (hA : S.Reachable A)
    (hl : S.honest → core.state = .leader) (hskip : S.compacting → ¬ core.SkipsSnapshot)
    {peer : ℕ} (hp : peer ∈ core.peers) (i : ℕ) :
    AppendRel S A n (core.replicateArgs i peer) ∧
      (i ≤ (A.log n).length → ¬ (core.replicateArgs i peer).Bogus →
        i ≤ (core.replicateArgs i peer).prevLogIndex +
          (core.replicateArgs i peer).entries.length) := by
  have hentries : (core.replicateArgs i peer).entries = ((A.log n).take i).drop
      (max core.snapshotLastIndex (core.nextIndex.getD peer 1 - 1)) := h.log.filter_slice _ _
  have hprev := h.replicateArgs_prev hskip (i := i) hp
  refine ⟨h.appendEntriesArgs hA hl fun hin hle => ?_, fun hi hno => ?_⟩
  · have hsli : core.snapshotLastIndex ≤ core.nextIndex.getD peer 1 - 1 := by
      rcases hprev with hsli | ⟨hpos, -⟩
      · exact hsli
      · exact hin.resolve_right (Nat.pos_iff_ne_zero.1 hpos)
    rw [max_eq_right hsli] at hentries
    refine ⟨max (core.nextIndex.getD peer 1 - 1) (min i (A.log n).length), le_max_left _ _,
      max_le hle (min_le_right _ _), hentries.trans ?_⟩
    rcases Nat.le_total i (core.nextIndex.getD peer 1 - 1) with hlt | hge
    · rw [max_eq_left ((min_le_left _ _).trans hlt), List.drop_of_length_le,
        List.drop_of_length_le]
      · exact List.length_take_le _ _
      · exact (List.length_take_le _ _).trans hlt
    · rw [max_eq_right (le_min hge hle), ← List.take_take, List.take_length]
  · have hsli := hprev.resolve_right hno
    rw [hentries, max_eq_right hsli, List.length_drop, List.length_take]
    show i ≤ core.nextIndex.getD peer 1 - 1 + _
    omega

omit [Snapshotable μ] in
/-- **The capture of `send_heartbeat`** sends the snapshot, or the rest of the log. -/
theorem heartbeatRequest (h : NodeRel S A n core) (hA : S.Reachable A) (hl : core.state = .leader)
    {peer : ℕ} {request : Request} (hr : core.heartbeatRequest peer = some request) :
    RequestRel S A n request := by
  have hleads := h.leads hl
  simp only [RaftCore.heartbeatRequest] at hr
  split at hr
  · rename_i hsnap
    have hpos := h.next_pos peer
    have hc : S.compacting := by
      by_contra hno
      have := (h.plain hno).2
      omega
    have hcom := h.commits (S.strict_of_compacting hc)
    split at hr
    · rename_i snapshot hload
      obtain rfl := Option.some.inj hr
      have hmeta := h.stored hc snapshot hload
      refine ⟨hc, ?_, (A.log n).take core.snapshotLastIndex, ?_, h.log.indexed.take _, ?_, ?_, ?_⟩
      · show A.leader core.currentTerm = some n
        rw [h.term_eq]
        exact hleads.leader
      · show _ <+: A.llog core.currentTerm
        rw [h.term_eq, ← hleads.log]
        exact List.take_prefix _ _
      · simp only [hmeta]
        rw [List.length_take, min_eq_left h.log.snapshot_le]
      · simp only [hmeta]
        exact h.log.term_eq.symm
      · show CommittedBy S.quorums A core.currentTerm _
        rw [h.term_eq]
        exact hcom.committed.shorten (List.take_prefix_take_left hcom.snapshot_le)
    · exact absurd hr (by simp)
  · rename_i hsnap
    obtain rfl := Option.some.inj hr
    refine h.appendEntriesArgs hA (fun _ => hl) fun _ hle => ?_
    refine ⟨_, hle, le_rfl, ?_⟩
    rw [h.log.filter_from, max_eq_right (by omega), List.take_length]

omit [Snapshotable μ] in
/-- **The capture of `confirm_leadership`** sends no entries. -/
theorem confirmArgs (h : NodeRel S A n core) (hA : S.Reachable A) (hl : core.state = .leader)
    (peer : ℕ) : AppendRel S A n (core.confirmArgs peer) :=
  h.appendEntriesArgs hA (fun _ => hl) fun _ hle => ⟨_, le_rfl, hle, by
    rw [List.drop_of_length_le (List.length_take_le _ _)]⟩

omit [Snapshotable μ] in
/-- **The capture of `request_votes`** sends what the comparison of logs needs. -/
theorem requestVoteArgs (h : NodeRel S A n core) : VoteRel A n core.requestVoteArgs where
  candidateId := h.id_eq
  term_le := h.term_eq.le
  log _ _ := ⟨h.log.lastLogIndex, h.log.lastLogTerm⟩

end NodeRel

/-- The last entry of a request is within what it carries. -/
theorem Carries.lastEntryIndex_le {args : AppendEntriesArgs} {s : List LogEntry}
    (h : Carries S A args s) :
    args.lastEntryIndex ≤ args.prevLogIndex + args.entries.length := by
  unfold AppendEntriesArgs.lastEntryIndex
  split
  · rename_i e he
    have hmem : e ∈ s := List.mem_of_mem_drop (h.entries ▸ List.mem_of_getLast? he)
    rw [← h.length, ← Nat.zero_add s.length]
    exact (h.indexed.mem hmem).2.1
  · exact Nat.zero_le _

/-! ### Rounds of requests -/

omit [Snapshotable μ] in
/-- A heartbeat carries the term of its sender, whichever request it is. -/
theorem RaftCore.heartbeatRequest_term {peer : ℕ} {request : Request}
    (h : core.heartbeatRequest peer = some request) : request.term = core.currentTerm := by
  simp only [heartbeatRequest] at h
  split at h
  · split at h
    · obtain rfl := Option.some.inj h
      rfl
    · cases h
  · obtain rfl := Option.some.inj h
    rfl

omit [Snapshotable μ] in
/-- The requests of a round go from a member to its peers. -/
theorem NodeRel.newRound {s : Server σ μ} (h : NodeRel S A n s.core) (hn : n ∈ S.nodes)
    {request : ℕ → Option Request}
    (hreq : ∀ peer ∈ s.core.peers, ∀ r, request peer = some r → RequestRel S A n r) :
    ∀ envelope ∈ s.newRound request, EnvelopeRel S A envelope := by
  intro envelope he
  obtain ⟨hs, hp, -, hr⟩ := Server.mem_newRound.1 he
  obtain ⟨hmem, hne⟩ := h.mem_peers.1 hp
  have hsource : envelope.source = n := hs.trans h.id_eq
  refine ⟨hsource ▸ hn, hmem, ?_, ?_⟩
  · rw [hsource]
    exact hne.symm
  · rw [hsource]
    exact hreq _ hp _ hr

omit [Snapshotable μ] in
/-- A task that waits for the answers of the round it has just sent. -/
theorem TaskRel.of_round {s : Server σ μ} (h : NodeRel S A n s.core) {requests : List Envelope}
    {request : ℕ → Option Request} {task : List Envelope → Task}
    (hwaiting : ∀ w, (task w).waiting = w) (hsub : ∀ w command i, task w ≠ .submitted command i)
    (hterm : ∀ peer r, request peer = some r → r.term = s.core.currentTerm)
    (hrep : ∀ command i w, task (s.newRound request) = .replicating command i w → S.honest →
      ∀ envelope ∈ s.newRound request, ∀ args, envelope.request = .appendEntries args →
        ¬ args.Bogus → i ≤ args.prevLogIndex + args.entries.length) :
    TaskRel S A (requests ++ s.newRound request) n (s.send request task).server where
  waiting envelope he := by
    rw [show (s.send request task).server.task = task (s.newRound request) from rfl,
      hwaiting] at he
    exact ⟨List.mem_append_right _ he, (Server.mem_newRound.1 he).1.trans h.id_eq⟩
  waiting_term _ envelope he := by
    rw [show (s.send request task).server.task = task (s.newRound request) from rfl,
      hwaiting] at he
    exact hterm _ _ (Server.mem_newRound.1 he).2.2.2
  submitted command i ht := absurd ht (hsub _ command i)
  replicating command i w ht hh envelope he := by
    have hw := hwaiting (s.newRound request)
    rw [show task (s.newRound request) = .replicating command i w from ht] at hw
    obtain rfl : w = s.newRound request := hw
    exact hrep command i _ ht hh envelope he

section Answers

variable {requests : List Envelope} {s : Server σ μ} {envelope : Envelope}

omit [Snapshotable μ] in
/-- A success for a submitted entry acknowledges it. -/
theorem TaskRel.acked_of_replicating (h : TaskRel S A requests n s) (hn : NodeRel S A n s.core)
    {command : String} {i : ℕ} {w : List Envelope} (ht : s.task = .replicating command i w)
    (he : envelope ∈ s.task.waiting) {result : AppendEntriesResult}
    (hr : ReplyRel S A envelope.target envelope.request (.appendEntries result)) (hh : S.honest)
    (hl : s.core.state = .leader) (hs : result.success = true) :
    i ≤ A.acked envelope.target (A.term n) := by
  have hterm := h.waiting_term (by simp [hl]) envelope he
  rw [ht] at he
  have hrep := h.replicating command i w ht hh envelope he
  cases hreq : envelope.request with
  | requestVote args => simp [hreq, ReplyRel] at hr
  | appendEntries args =>
      rw [hreq] at hr hterm
      obtain ⟨hno, hack⟩ := hr hh hs
      rw [show args.term = A.term n from hterm.trans hn.term_eq] at hack
      exact (hrep args hreq hno).trans hack
  | installSnapshot args => simp [hreq, ReplyRel] at hr

omit [Snapshotable μ] in
/-- A success for a heartbeat acknowledges its last entry. -/
theorem TaskRel.acked_of_heartbeat (h : TaskRel S A requests n s) (hn : NodeRel S A n s.core)
    (he : envelope ∈ s.task.waiting) (hrel : EnvelopeRel S A envelope) {args : AppendEntriesArgs}
    (hreq : envelope.request = .appendEntries args) {result : AppendEntriesResult}
    (hr : ReplyRel S A envelope.target envelope.request (.appendEntries result)) (hh : S.honest)
    (hl : s.core.state = .leader) (hs : result.success = true) :
    args.lastEntryIndex ≤ A.acked envelope.target (A.term n) := by
  have hterm := h.waiting_term (by simp [hl]) envelope he
  have hrequest := hrel.request
  rw [hreq] at hr hterm hrequest
  obtain ⟨hno, hack⟩ := hr hh hs
  rw [show args.term = A.term n from hterm.trans hn.term_eq] at hack
  obtain ⟨ℓ, hℓ⟩ := hrequest.carries.resolve_left hno
  exact hℓ.lastEntryIndex_le.trans hack

omit [Snapshotable μ] in
/-- A granted vote was cast for the candidate that asked for it. -/
theorem TaskRel.vote_of_polling (h : TaskRel S A requests n s) (hn : NodeRel S A n s.core)
    (he : envelope ∈ s.task.waiting) (hrel : EnvelopeRel S A envelope)
    {result : RequestVoteResult}
    (hr : ReplyRel S A envelope.target envelope.request (.requestVote result))
    (hc : s.core.state = .candidate) (hg : result.voteGranted = true) :
    A.vote envelope.target (A.term n) = some n := by
  have hterm := h.waiting_term (by simp [hc]) envelope he
  have hsource := (h.waiting envelope he).2
  have hrequest := hrel.request
  cases hreq : envelope.request with
  | requestVote args =>
      rw [hreq] at hr hterm hrequest
      have hvote := hr hg
      rwa [show args.term = A.term n from hterm.trans hn.term_eq,
        hrequest.candidateId, hsource] at hvote
  | appendEntries args => simp [hreq, ReplyRel] at hr
  | installSnapshot args => simp [hreq, ReplyRel] at hr

end Answers

/-! ### One acquisition of the lock -/

/-- The event loop acquires the lock for nothing that the setting excludes: `replicate_to_peers`
builds its requests in role, and from the whole log. -/
def Setting.AllowsLocal (S : Setting) (core : RaftCore σ μ) : LocalAction → Prop
  | .replicate => (S.honest → core.state = .leader) ∧ (S.compacting → ¬ core.SkipsSnapshot)
  | _ => True

/-- The action leads into none of the branches that the setting excludes. -/
def Setting.Allows (S : Setting) (C : Cluster σ μ) : Action → Prop
  | .deliver envelope => S.Admits (C.core envelope.target) envelope.request
  | .local n action => S.AllowsLocal (C.core n) action

/-- What an event loop may rely on for an answer: it has waited for it, and it says what its giver
did. -/
def Answered (S : Setting) (A : State ℕ LogEntry) (s : Server σ μ) : LocalAction → Prop
  | .answer envelope reply => envelope ∈ s.task.waiting ∧ EnvelopeRel S A envelope ∧
      ReplyRel S A envelope.target envelope.request reply
  | _ => True

/-- **An effect is a move of its node**: there is a move of the abstract node after which the server is
related to it again, and so is everything that was sent. -/
def Effect.Simulates (S : Setting) (A : State ℕ LogEntry) (requests : List Envelope) (n : ℕ)
    (e : Effect σ μ) : Prop :=
  ∃ A', S.Moves n A A' ∧ NodeRel S A' n e.server.core ∧
    TaskRel S A' (requests ++ e.sent) n e.server ∧ ∀ envelope ∈ e.sent, EnvelopeRel S A' envelope

section Effects

variable {requests : List Envelope} {s : Server σ μ} {task : Task} {events : List Event}

omit [Snapshotable μ] in
/-- A task that waits for nobody, with what the core has become. -/
theorem simulates_quiet (hm : S.Moves n A A') (hn : NodeRel S A' n core) (hw : task.waiting = [])
    (hsub : ∀ command i, task ≠ .submitted command i) :
    (s.proceed core task events).Simulates S A requests n :=
  ⟨A', hm, hn, .of_quiet hw hsub, fun _ he => absurd he List.not_mem_nil⟩

omit [Snapshotable μ] in
/-- A round that goes on, with what the core has become. -/
theorem TaskRel.simulates (ht : TaskRel S A requests n s) (h : NodeRel S A n s.core)
    (hm : S.Moves n A A') (hn : NodeRel S A' n core) (hwithin : task.Within s.task)
    (hrole : core.state ≠ .follower → s.core.SameRole core) :
    (s.proceed core task events).Simulates S A requests n :=
  ⟨A', hm, hn, ht.frame h hm.frame (List.subset_append_left _ _) hwithin hrole,
    fun _ he => absurd he List.not_mem_nil⟩

omit [Snapshotable μ] in
/-- A round of requests is sent, by a node that stays as it is. -/
theorem NodeRel.simulates_send (h : NodeRel S A n s.core) (hn : n ∈ S.nodes)
    {request : ℕ → Option Request} {task : List Envelope → Task}
    (hwaiting : ∀ w, (task w).waiting = w) (hsub : ∀ w command i, task w ≠ .submitted command i)
    (hreq : ∀ peer r, request peer = some r →
      r.term = s.core.currentTerm ∧ (peer ∈ s.core.peers → RequestRel S A n r))
    (hrep : ∀ command i w, task (s.newRound request) = .replicating command i w → S.honest →
      ∀ envelope ∈ s.newRound request, ∀ args, envelope.request = .appendEntries args →
        ¬ args.Bogus → i ≤ args.prevLogIndex + args.entries.length) :
    (s.send request task).Simulates S A requests n :=
  ⟨A, .refl n A, h, .of_round h hwaiting hsub (fun peer r hr => (hreq peer r hr).1) hrep,
    h.newRound hn fun peer hp r hr => (hreq peer r hr).2 hp⟩

omit [Snapshotable μ] in
/-- Whoever has answered is a peer. -/
theorem TaskRel.mem_peers (ht : TaskRel S A requests n s) (h : NodeRel S A n s.core)
    {envelope : Envelope} (he : envelope ∈ s.task.waiting) (hrel : EnvelopeRel S A envelope) :
    envelope.target ∈ s.core.peers :=
  h.mem_peers.2 ⟨hrel.target, (ht.waiting _ he).2 ▸ hrel.ne.symm⟩

/-- The answer to a request of a round that replicates or is a heartbeat. -/
theorem TaskRel.moves_of_appended (ht : TaskRel S A requests n s) (h : NodeRel S A n s.core)
    (hA : S.Reachable A) (hst : S.Stores σ) (hn : n ∈ S.nodes) {envelope : Envelope}
    (he : envelope ∈ s.task.waiting) (hrel : EnvelopeRel S A envelope) {i : ℕ}
    {result : AppendEntriesResult} {commit : Option ℕ} {results : List (ℕ × ApplyResult)}
    (hack : S.honest → s.core.state = .leader → result.success = true →
      i ≤ A.acked envelope.target (A.term n))
    (hr : s.core.handleAppendEntriesResult envelope.target i result = .ok (core, commit, results)) :
    ∃ A', S.Moves n A A' ∧ NodeRel S A' n core := by
  obtain ⟨A', hm, hn', -⟩ :=
    h.handleAppendEntriesResult hA hst hn (ht.mem_peers h he hrel) hack hr
  exact ⟨A', hm, hn'⟩

end Effects

/-- **One acquisition of the lock by an event loop** is a move of its node. -/
theorem Acts.sim {requests : List Envelope} {s : Server σ μ} {now : ℕ} {action : LocalAction}
    {e : Effect σ μ} (ha : Acts s now action e) (h : NodeRel S A n s.core)
    (ht : TaskRel S A requests n s) (hA : S.Reachable A) (hst : S.Stores σ) (hn : n ∈ S.nodes)
    (hallow : S.AllowsLocal s.core action) (hans : Answered S A s action) :
    e.Simulates S A requests n := by
  cases ha with
  | settle hset =>
      refine simulates_quiet (.refl n A) h ?_ ?_
      · cases hset <;> rfl
      · intro command i
        cases hset <;> simp
  | submit hidle hl happ =>
      obtain ⟨A', hm, hn', hi⟩ := h.appendLogEntry hA hst happ
      refine ⟨A', hm, hn', ⟨by simp [Server.proceed, Task.waiting],
        by simp [Server.proceed, Task.waiting], fun command i heq _ _ => ?_,
        by simp [Server.proceed]⟩, by simp [Server.proceed]⟩
      obtain ⟨rfl, rfl⟩ : _ = command ∧ _ = i := by simpa [Server.proceed] using heq
      exact hi
  | @replicate command i htask =>
      refine h.simulates_send hn (fun _ => rfl) (by simp) ?_ ?_
      · intro peer r hr
        obtain rfl := Option.some.inj hr
        exact ⟨rfl, fun hp => (h.replicateArgs hA hallow.1 hallow.2 hp i).1⟩
      · intro command' i' w heq hh envelope he args hreq
        obtain ⟨rfl, rfl, -⟩ : command = command' ∧ i = i' ∧ _ := by simpa using heq
        obtain ⟨-, hp, -, hr⟩ := Server.mem_newRound.1 he
        rw [hreq, Option.some.injEq, Request.appendEntries.injEq] at hr
        have hl := hallow.1 hh
        have hi := ht.submitted command i htask hh hl
        rw [h.term_eq, ← (h.leads hl).log] at hi
        rw [← hr]
        exact (h.replicateArgs hA hallow.1 hallow.2 hp i).2 hi
  | startElection hidle hl he =>
      obtain ⟨A', hm, hn'⟩ := h.startElection hA hst hn he
      exact simulates_quiet hm hn' rfl (by simp)
  | requestVotes htask =>
      refine h.simulates_send hn (fun _ => rfl) (by simp) ?_ (by simp)
      intro peer r hr
      obtain rfl := Option.some.inj hr
      exact ⟨rfl, fun _ => h.requestVoteArgs⟩
  | sendHeartbeat hl =>
      refine h.simulates_send hn (fun _ => rfl) (by simp) ?_ (by simp)
      intro peer r hr
      exact ⟨RaftCore.heartbeatRequest_term hr, fun _ => h.heartbeatRequest hA hl hr⟩
  | confirmLeadership htask hl =>
      refine h.simulates_send hn (fun _ => rfl) (by simp) ?_ (by simp)
      intro peer r hr
      obtain rfl := Option.some.inj hr
      exact ⟨rfl, fun _ => h.confirmArgs hA hl peer⟩
  | submitDone htask hr hres =>
      obtain ⟨he, hrel, hrep⟩ := hans
      obtain ⟨A', hm, hn'⟩ := ht.moves_of_appended h hA hst hn he hrel
        (ht.acked_of_replicating h htask he hrep) hr
      exact simulates_quiet hm hn' rfl (by simp)
  | submitPending htask hr =>
      obtain ⟨he, hrel, hrep⟩ := hans
      obtain ⟨A', hm, hn'⟩ := ht.moves_of_appended h hA hst hn he hrel
        (ht.acked_of_replicating h htask he hrep) hr
      exact ht.simulates h hm hn' (Task.forget_within _ _)
        (RaftCore.handleAppendEntriesResult_role hr)
  | voteWon htask hr =>
      obtain ⟨he, hrel, hrep⟩ := hans
      obtain ⟨A', hm, hn'⟩ := h.handleRequestVoteResult hA hst hn hrel.target
        (ht.vote_of_polling h he hrel hrep) hr
      exact simulates_quiet hm hn' rfl (by simp)
  | votePending htask hr =>
      obtain ⟨he, hrel, hrep⟩ := hans
      obtain ⟨A', hm, hn'⟩ := h.handleRequestVoteResult hA hst hn hrel.target
        (ht.vote_of_polling h he hrel hrep) hr
      exact ht.simulates h hm hn' (Task.forget_within _ _)
        (RaftCore.handleRequestVoteResult_pending_role hr)
  | heartbeatAppended htask hreq hr =>
      obtain ⟨he, hrel, hrep⟩ := hans
      obtain ⟨A', hm, hn'⟩ := ht.moves_of_appended h hA hst hn he hrel
        (ht.acked_of_heartbeat h he hrel hreq hrep) hr
      exact ht.simulates h hm hn' (Task.forget_within _ _)
        (RaftCore.handleAppendEntriesResult_role hr)
  | @heartbeatInstalled _ envelope args result htask hreq =>
      obtain ⟨he, hrel, hrep⟩ := hans
      have hack : s.core.state = .leader → ∀ t, result = .success t →
          args.lastIncludedIndex ≤ A.acked envelope.target (A.term n) := by
        intro hl t hsucc
        have hterm := ht.waiting_term (by simp [hl]) _ he
        rw [hreq] at hrep hterm
        rw [← h.term_eq, ← hterm]
        exact hrep t hsucc
      obtain ⟨A', hm, hn'⟩ := h.handleInstallSnapshotResult hA (ht.mem_peers h he hrel) hack
      exact ht.simulates h hm hn' (Task.forget_within _ _) RaftCore.handleInstallSnapshotResult_role
  | confirmLost htask hlt =>
      obtain ⟨A', hm, hn'⟩ := h.stepDownInMemory hA hlt
      exact simulates_quiet hm hn' rfl (by simp)
  | confirmCounted htask hle hcount hwait =>
      refine ht.simulates h (.refl n A) h ⟨?_, by simp, by simp⟩ (fun _ => ⟨rfl, rfl⟩)
      rw [htask]
      rcases hwait with rfl | rfl
      · exact List.nil_subset _
      · exact List.erase_subset
  | fail => exact ht.simulates h (.refl n A) h (Task.forget_within _ _) (fun _ => ⟨rfl, rfl⟩)

/-! ### One step of the cluster -/

/-- The node whose lock is acquired. -/
def Action.node : Action → ℕ
  | .deliver envelope => envelope.target
  | .local n _ => n

namespace Sim

variable {C C' : Cluster σ μ}

omit [Snapshotable μ] in
/-- The relation holds again when it does for the node that has moved, and for what is new. -/
theorem of_move (h : Sim S C A) {n : ℕ} (hm : S.Moves n A A') (hnodes : C'.nodes = C.nodes)
    (hother : ∀ m, m ≠ n → C'.servers m = C.servers m) (hsub : C.requests ⊆ C'.requests)
    (hnode : NodeRel S A' n (C'.core n)) (htask : TaskRel S A' C'.requests n (C'.servers n))
    (hrequest : ∀ envelope ∈ C'.requests, envelope ∈ C.requests ∨ EnvelopeRel S A' envelope)
    (hreply : ∀ r ∈ C'.replies, r ∈ C.replies ∨ ReplyRel S A' r.1.target r.1.request r.2) :
    Sim S C' A' where
  nodes := hnodes.trans h.nodes
  reachable := hm.reachable h.reachable
  node m hm' := by
    by_cases hmn : m = n
    · exact hmn ▸ hnode
    · have := (h.node m hm').frame hm.frame hmn
      rwa [Cluster.core, hother m hmn]
  task m hm' := by
    by_cases hmn : m = n
    · exact hmn ▸ htask
    · rw [hother m hmn]
      exact (h.task m hm').frame (h.node m hm') hm.frame hsub (.refl _) fun _ => ⟨rfl, rfl⟩
  request envelope he := (hrequest envelope he).elim
    (fun he => (h.request envelope he).frame hm.frame) id
  reply r hr := (hreply r hr).elim (fun hr => (h.reply r hr).frame hm.frame) id

/-- A request is handled. -/
theorem deliver (h : Sim S C A) (hst : S.Stores σ) {envelope : Envelope}
    (hadmits : S.Admits (C.core envelope.target) envelope.request)
    (hs : C.step (.deliver envelope) = some C') :
    ∃ A', S.Moves envelope.target A A' ∧ Sim S C' A' ∧
      (S.strict → (C.core envelope.target).commitIndex ≤ (C'.core envelope.target).commitIndex) := by
  obtain ⟨hmem, core, reply, hrec, rfl⟩ := Cluster.step_deliver hs
  have hrel := h.request envelope hmem
  have htarget := hrel.target
  obtain ⟨A', hm, hn, hrep, hle⟩ := (h.node _ htarget).receive h.reachable hst hrel.request
    hrel.ne hadmits hrec
  have hself := C.receive_servers_self envelope core reply
  refine ⟨A', hm, ?_, fun hs => ?_⟩
  rotate_left
  · rw [Cluster.core, Cluster.core, hself]
    exact hle hs
  refine h.of_move hm rfl (fun m hm => C.receive_servers_ne core reply hm)
    (List.Subset.refl _) ?_ ?_ (fun _ he => Or.inl he) ?_
  · rwa [Cluster.core, hself]
  · rw [hself]
    exact (h.task _ htarget).frame (h.node _ htarget) hm.frame (List.Subset.refl _) (.refl _)
      (Server.receive_role hrec)
  · intro r hr
    rcases List.mem_append.1 hr with hr | hr
    · exact Or.inl hr
    · obtain rfl := List.mem_singleton.1 hr
      exact Or.inr hrep

omit [Snapshotable μ] in
/-- What the answers rest on that a node may get. -/
theorem answered (h : Sim S C A) {n : ℕ} (hn : n ∈ S.nodes) {action : LocalAction}
    (hav : C.Available n action) : Answered S A (C.servers n) action := by
  cases action with
  | answer envelope reply =>
      obtain ⟨hw, hr⟩ := hav
      exact ⟨hw, h.request envelope ((h.task n hn).waiting envelope hw).1, h.reply _ hr⟩
  | _ => trivial

/-- An event loop acquires the lock. -/
theorem perform (h : Sim S C A) (hst : S.Stores σ) {n : ℕ} {action : LocalAction}
    (hallow : S.AllowsLocal (C.core n) action) (hs : C.step (.local n action) = some C') :
    ∃ A', S.Moves n A A' ∧ Sim S C' A' := by
  obtain ⟨hn, hav, e, ha, rfl⟩ := Cluster.step_local hs
  rw [h.nodes] at hn
  obtain ⟨A', hm, hn', ht, hsent⟩ := ha.sim (h.node n hn) (h.task n hn) h.reachable hst hn hallow
    (h.answered hn hav)
  have hself := C.perform_servers_self n e
  refine ⟨A', hm, h.of_move hm rfl (fun m hm => C.perform_servers_ne e hm)
    (List.subset_append_left _ _) ?_ ?_ ?_ (fun _ hr => Or.inl hr)⟩
  · rwa [Cluster.core, hself]
  · rwa [hself]
  · intro envelope he
    exact (List.mem_append.1 he).imp id (hsent envelope)

/-- **One step of the cluster** is a move of the node whose lock is acquired. -/
theorem step (h : Sim S C A) (hst : S.Stores σ) {action : Action} (hallow : S.Allows C action)
    (hs : C.step action = some C') : ∃ A', S.Moves action.node A A' ∧ Sim S C' A' := by
  cases action with
  | deliver envelope =>
      obtain ⟨A', hm, hsim, -⟩ := h.deliver hst hallow hs
      exact ⟨A', hm, hsim⟩
  | «local» n action => exact h.perform hst hallow hs

end Sim

end RaftVibe
