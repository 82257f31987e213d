/-
**Reads see what was acknowledged before they began.**

`handle_read_index` takes the commit index of a leader as the read index, asks a majority whether it
still leads, and returns once it has applied up to the read index.  A write that was acknowledged
before was committed by some leader.  A leader of a later term is out of the question, since its
majority would not have confirmed the reader; the reader itself has the write below its commit index;
and what a leader of an earlier term has committed is in the log the reader was elected with.  Only
the last case says nothing about the commit index of the reader: it may lag behind until the reader
has committed an entry of its own term, which `handle_read_index` does not wait for.

Main definitions:

* `RaftVibe.Cluster.Diverges` — the branches in which a node leaves the log of its leader;
* `RaftVibe.Cluster.ReadsEarly` — a read begins before the leader has committed in its term;
* `RaftVibe.ReadRel` — what is known of the acknowledged writes while a read goes on.

Main results:

* `RaftVibe.Reads.of_step` — one step keeps it;
* `RaftVibe.Cluster.run_read_index` — **a read reflects every write acknowledged before it**.
-/

import RaftVibe.Safety

set_option relaxedAutoImplicit false
set_option autoImplicit false

namespace RaftVibe

open ReplicatedLog Runs

variable {σ μ : Type} [Storage σ] [Snapshotable μ] {S : Setting} {A A' : State ℕ LogEntry}
  {C C' : Cluster σ μ} {ts : List (Transition (Cluster σ μ) Action)} {n : ℕ}

/-! ### Conditions -/

/-- All the promises: requests are in role, commit indices rise over compared entries, and nodes
may take snapshots. -/
def Setting.full (nodes : List ℕ) (hnodup : nodes.Nodup) : Setting where
  nodes
  nodup := hnodup
  honest := True
  strict := True
  compacting := True
  honest_of_strict _ := trivial
  strict_of_compacting _ := trivial

namespace Cluster

/-- **The branches in which a node leaves the log of its leader**: a conflict is cut off above a
snapshot, a commit index rises over entries that were not compared, entries are kept above a snapshot
that they do not continue, or `replicate_to_peers` sends out of role or leaves out compacted
entries. -/
def Diverges (C : Cluster σ μ) : Action → Prop
  | .deliver envelope =>
      match envelope.request with
      | .requestVote _ => False
      | .appendEntries args => (C.core envelope.target).CutsAboveSnapshot args ∨
          (C.core envelope.target).CommitsUnchecked args
      | .installSnapshot args => (C.core envelope.target).KeepsSuffix args
  | .local n .replicate => (C.core n).state ≠ .leader ∨ (C.core n).SkipsSnapshot
  | .local _ _ => False

instance (C : Cluster σ μ) : (action : Action) → Decidable (C.Diverges action)
  | .deliver ⟨_, target, _, .appendEntries args⟩ =>
      inferInstanceAs (Decidable ((C.core target).CutsAboveSnapshot args ∨
        (C.core target).CommitsUnchecked args))
  | .deliver ⟨_, _, _, .requestVote _⟩ => instDecidableFalse
  | .deliver ⟨_, target, _, .installSnapshot args⟩ =>
      inferInstanceAs (Decidable ((C.core target).KeepsSuffix args))
  | .local n .replicate =>
      inferInstanceAs (Decidable ((C.core n).state ≠ .leader ∨ (C.core n).SkipsSnapshot))
  | .local _ (.submit _) | .local _ .startElection | .local _ .requestVotes
  | .local _ .sendHeartbeat | .local _ .readIndex | .local _ .beginRead
  | .local _ .confirmLeadership | .local _ (.answer _ _) | .local _ (.fail _) | .local _ .finish
  | .local _ .drop | .local _ .refuseRead | .local _ .pollRead | .local _ .readTimeout =>
      instDecidableFalse

/-- **A leader begins a read before it has committed an entry of its own term**: the entry at its
commit index has another term. -/
def ReadsEarly (C : Cluster σ μ) : Action → Prop
  | .local n .beginRead => (C.core n).state = .leader ∧
      (C.core n).prevLogTerm (C.core n).commitIndex ≠ (C.core n).currentTerm
  | _ => False

instance (C : Cluster σ μ) (action : Action) : Decidable (C.ReadsEarly action) := by
  unfold ReadsEarly
  split <;> infer_instance

omit [Storage σ] [Snapshotable μ] in
theorem allows_full {nodes : List ℕ} {hnodup : nodes.Nodup} {action : Action}
    (h : ¬ C.Diverges action) : (Setting.full nodes hnodup).Allows C action := by
  cases action with
  | deliver envelope =>
      show Setting.Admits _ _ envelope.request
      simp only [Diverges] at h
      cases hreq : envelope.request with
      | requestVote args => trivial
      | appendEntries args =>
          rw [hreq] at h
          exact ⟨fun _ hcut => h (Or.inl hcut), fun _ hcommit => h (Or.inr hcommit)⟩
      | installSnapshot args =>
          rw [hreq] at h
          exact fun _ => h
  | «local» n action =>
      cases action with
      | replicate => exact ⟨fun _ => not_not.1 fun hno => h (Or.inl hno),
          fun _ hskip => h (Or.inr hskip)⟩
      | _ => trivial

/-- `handle_submit` has returned `Ok` for the index `i` before the history had length `since`. -/
def AckedBefore (C : Cluster σ μ) (since i : ℕ) : Prop :=
  ∃ j < since, ∃ l command out,
    C.history[j]? = some (.submitReturned l command (some i) (.ok out))

omit [Storage σ] [Snapshotable μ] in
/-- What happens later was not acknowledged before. -/
theorem AckedBefore.of_append {events : List Event} {since i : ℕ} (h : C'.AckedBefore since i)
    (hhist : C'.history = C.history ++ events) (hsince : since ≤ C.history.length) :
    C.AckedBefore since i := by
  obtain ⟨j, hj, l, command, out, he⟩ := h
  rw [hhist, List.getElem?_append_left (hj.trans_le hsince)] at he
  exact ⟨j, hj, l, command, out, he⟩

end Cluster

/-! ### What is known while a read goes on -/

/-- The index `i` is committed by the leader of the term `T`, whose commit index is no lower. -/
def Backs (S : Setting) (C : Cluster σ μ) (A : State ℕ LogEntry) (T i : ℕ) : Prop :=
  ∃ l ∈ S.nodes, ∃ k, A.leader T = some l ∧ Committed S.quorums A T k ∧ i ≤ k ∧
    k ≤ (C.core l).commitIndex

/-- Every quorum has a member that had moved on beyond the term `T` when the terms were `β`. -/
def Overtaken (S : Setting) (β : ℕ → ℕ) (T : ℕ) : Prop :=
  ∃ Q, S.quorums.IsQuorum Q ∧ ∀ v ∈ Q, T < β v

/-- As long as `n` leads, the read index covers what was acknowledged before the read — unless a
later leader had committed it. -/
def Reaches (S : Setting) (C : Cluster σ μ) (n : ℕ) (β : ℕ → ℕ) (since readIndex : ℕ) : Prop :=
  (C.core n).state = .leader → ∀ i, C.AckedBefore since i →
    i ≤ readIndex ∨ Overtaken S β (C.core n).currentTerm

/-- The round of `confirm_leadership`: the successes that were counted came from different peers, in
the term of the leader, after the terms had been `β`. -/
structure Confirms (C : Cluster σ μ) (n : ℕ) (β : ℕ → ℕ) (successCount : ℕ)
    (waiting : List Envelope) : Prop where
  round : ∀ envelope ∈ waiting, envelope.round = (C.servers n).rounds
  nodup : (waiting.map Envelope.target).Nodup
  answered : ∀ r ∈ C.replies, r.1.source = n → r.1.round = (C.servers n).rounds →
    ∀ result, r.2 = .appendEntries result → result.success = true →
      β r.1.target ≤ r.1.request.term
  counted : ∃ Q : Finset ℕ, Q.card = successCount ∧
    (∀ v ∈ Q, v ∈ (C.core n).peers ∧ v ∉ waiting.map Envelope.target) ∧
    ((C.core n).state = .leader → ∀ v ∈ Q, β v ≤ (C.core n).currentTerm)

/-- **What is known of the acknowledged writes at each stage of a read.** -/
def ReadRel (S : Setting) (C : Cluster σ μ) (A : State ℕ LogEntry) (n : ℕ) : Task → Prop
  | .readInvoked since => since ≤ C.history.length ∧ ∃ β : ℕ → ℕ, (∀ v, β v ≤ A.term v) ∧
      ∀ i, C.AckedBefore since i →
        ∃ T, Backs S C A T i ∧ ∃ Q, S.quorums.IsQuorum Q ∧ ∀ v ∈ Q, T ≤ β v
  | .reading since readIndex numPeers => since ≤ C.history.length ∧
      numPeers = (C.core n).peers.length ∧
      ∃ β : ℕ → ℕ, (∀ v, β v ≤ A.term v) ∧ Reaches S C n β since readIndex
  | .confirming since readIndex numPeers _ successCount waiting => since ≤ C.history.length ∧
      numPeers = (C.core n).peers.length ∧
      ∃ β : ℕ → ℕ, (∀ v, β v ≤ A.term v) ∧ Reaches S C n β since readIndex ∧
        Confirms C n β successCount waiting
  | .awaiting since readIndex => since ≤ C.history.length ∧
      ∀ i, C.AckedBefore since i → i ≤ readIndex
  | _ => True

/-- **The reads of a run so far**: what was acknowledged is committed, and what was read covers what
was acknowledged before. -/
structure Reads (S : Setting) (C : Cluster σ μ) (A : State ℕ LogEntry) : Prop where
  acked : ∀ since i, C.AckedBefore since i → ∃ T, Backs S C A T i
  rounds : ∀ envelope ∈ C.requests, envelope.round ≤ (C.servers envelope.source).rounds
  replied : ∀ r ∈ C.replies, r.1 ∈ C.requests
  read : ∀ n ∈ S.nodes, ReadRel S C A n (C.servers n).task
  returned : ∀ m since r, Event.readReturned m since (.ok r) ∈ C.history →
    since ≤ C.history.length ∧ ∀ i, C.AckedBefore since i → i ≤ r

/-! ### Steps that leave a read where it is -/

/-- What any step does: terms, commit indices and the history only grow, and a success is given by a
node that is not beyond the term of the request. -/
structure Progress (S : Setting) (n : ℕ) (C C' : Cluster σ μ) (A A' : State ℕ LogEntry) :
    Prop where
  frame : Frame n A A'
  commit_le : ∀ l ∈ S.nodes, (C.core l).commitIndex ≤ (C'.core l).commitIndex
  history : ∃ events, C'.history = C.history ++ events
  reply : ∀ r ∈ C'.replies, r ∈ C.replies ∨ ∀ result, r.2 = .appendEntries result →
    result.success = true → A.term r.1.target ≤ r.1.request.term

omit [Storage σ] [Snapshotable μ] in
theorem Backs.progress (hp : Progress S n C C' A A') {T i : ℕ} (h : Backs S C A T i) :
    Backs S C' A' T i := by
  obtain ⟨l, hl, k, hlead, hcom, hi, hk⟩ := h
  exact ⟨l, hl, k, hp.frame.leader_some hlead, hcom.frame hp.frame, hi, hk.trans (hp.commit_le l hl)⟩

omit [Storage σ] [Snapshotable μ] in
theorem Reaches.progress (hp : Progress S n C C' A A') {m : ℕ} {β : ℕ → ℕ}
    {since readIndex : ℕ} (h : Reaches S C m β since readIndex)
    (hrole : (C'.core m).state ≠ .follower → (C.core m).SameRole (C'.core m))
    (hsince : since ≤ C.history.length) : Reaches S C' m β since readIndex := by
  intro hl i hi
  have hsame := hrole (by simp [hl])
  obtain ⟨events, hhist⟩ := hp.history
  rw [hsame.2]
  exact h (hsame.1.symm.trans hl) i (hi.of_append hhist hsince)

omit [Storage σ] [Snapshotable μ] in
theorem Confirms.progress (hp : Progress S n C C' A A') {m successCount : ℕ} {β : ℕ → ℕ}
    {waiting : List Envelope} (h : Confirms C m β successCount waiting)
    (hβ : ∀ v, β v ≤ A.term v) (hrounds : (C'.servers m).rounds = (C.servers m).rounds)
    (hpeers : (C'.core m).peers = (C.core m).peers)
    (hrole : (C'.core m).state ≠ .follower → (C.core m).SameRole (C'.core m)) :
    Confirms C' m β successCount waiting where
  round envelope he := by
    rw [hrounds]
    exact h.round envelope he
  nodup := h.nodup
  answered r hr hsource hround result hres hs := by
    rw [hrounds] at hround
    rcases hp.reply r hr with hr | hnew
    · exact h.answered r hr hsource hround result hres hs
    · exact (hβ _).trans (hnew result hres hs)
  counted := by
    obtain ⟨Q, hcard, hQ, hterm⟩ := h.counted
    refine ⟨Q, hcard, fun v hv => by rw [hpeers]; exact hQ v hv, fun hl v hv => ?_⟩
    have hsame := hrole (by simp [hl])
    rw [hsame.2]
    exact hterm (hsame.1.symm.trans hl) v hv

omit [Storage σ] [Snapshotable μ] in
/-- **A read stays where it is** while others move, and while its node handles requests. -/
theorem ReadRel.progress (hp : Progress S n C C' A A') {m : ℕ} {task : Task}
    (h : ReadRel S C A m task) (hrounds : (C'.servers m).rounds = (C.servers m).rounds)
    (hpeers : (C'.core m).peers = (C.core m).peers)
    (hrole : (C'.core m).state ≠ .follower → (C.core m).SameRole (C'.core m)) :
    ReadRel S C' A' m task := by
  obtain ⟨events, hhist⟩ := hp.history
  have hlen : C.history.length ≤ C'.history.length := by
    rw [hhist, List.length_append]
    exact Nat.le_add_right _ _
  cases task with
  | readInvoked since =>
      obtain ⟨hsince, β, hβ, hacked⟩ := h
      refine ⟨hsince.trans hlen, β, fun v => (hβ v).trans (hp.frame.term_mono v), fun i hi => ?_⟩
      obtain ⟨T, hT, hQ⟩ := hacked i (hi.of_append hhist hsince)
      exact ⟨T, hT.progress hp, hQ⟩
  | reading since readIndex numPeers =>
      obtain ⟨hsince, hnum, β, hβ, hreach⟩ := h
      exact ⟨hsince.trans hlen, by rw [hpeers, hnum], β,
        fun v => (hβ v).trans (hp.frame.term_mono v), hreach.progress hp hrole hsince⟩
  | confirming since readIndex numPeers majorityNeeded successCount waiting =>
      obtain ⟨hsince, hnum, β, hβ, hreach, hconf⟩ := h
      exact ⟨hsince.trans hlen, by rw [hpeers, hnum], β,
        fun v => (hβ v).trans (hp.frame.term_mono v), hreach.progress hp hrole hsince,
        hconf.progress hp hβ hrounds hpeers hrole⟩
  | awaiting since readIndex =>
      exact ⟨h.1.trans hlen, fun i hi => h.2 i (hi.of_append hhist h.1)⟩
  | _ => trivial

/-! ### What any step does -/

/-- A success is given by a node that is not beyond the term of the request. -/
theorem Server.receive_success {core core' : RaftCore σ μ} {request : Request}
    {result : AppendEntriesResult}
    (h : Server.receive core request = .ok (core', .appendEntries result))
    (hs : result.success = true) : core.currentTerm ≤ request.term := by
  rcases Server.receive_ok h with ⟨_, _, -, heq, -⟩ | ⟨args, out, rfl, heq, ha⟩ | ⟨_, _, -, heq, -⟩
  · exact absurd heq (by simp)
  · obtain rfl := Reply.appendEntries.inj heq
    obtain ⟨core₁, h₁, ⟨-, -, -, hno⟩ | ⟨hterm, -⟩⟩ := RaftCore.handleAppendEntries_ok ha
    · exact absurd (hs.symm.trans hno) (by simp)
    · rw [RaftCore.observeTerm_currentTerm h₁] at hterm
      exact (le_max_left _ _).trans hterm.le
  · exact absurd heq (by simp)

/-- The event loop never lowers the commit index. -/
theorem Acts.commit_le {s : Server σ μ} {now : ℕ} {action : LocalAction} {e : Effect σ μ}
    (ha : Acts s now action e) : s.core.commitIndex ≤ e.server.core.commitIndex := by
  rcases ha.commit_cases with heq | ⟨_, _, _, _, _, -, h, -⟩
  · exact heq.ge
  · rcases RaftCore.handleAppendEntriesResult_commit h with ⟨heq, -⟩ | ⟨-, -, -, hlt, -, -⟩
    · exact heq.ge
    · exact hlt.le

/-- **What any step does**, in a setting that keeps all promises. -/
theorem Sim.progress (h : Sim S C A) (hst : S.Stores σ) (hstrict : S.strict) {action : Action}
    (hallow : S.Allows C action) (hs : C.step action = some C') :
    ∃ A', S.Moves action.node A A' ∧ Sim S C' A' ∧ Progress S action.node C C' A A' := by
  cases action with
  | deliver envelope =>
      obtain ⟨A', hm, hsim, hle⟩ := h.deliver hst hallow hs
      obtain ⟨hmem, core, reply, hrec, rfl⟩ := Cluster.step_deliver hs
      refine ⟨A', hm, hsim, hm.frame, fun l _ => ?_, ⟨[], (List.append_nil _).symm⟩, fun r hr => ?_⟩
      · by_cases hl : l = envelope.target
        · rw [hl]
          exact hle hstrict
        · rw [Cluster.core, Cluster.core, C.receive_servers_ne core reply hl]
      · rcases List.mem_append.1 hr with hr | hr
        · exact Or.inl hr
        · obtain rfl := List.mem_singleton.1 hr
          refine Or.inr fun result hres hsucc => ?_
          obtain rfl : reply = .appendEntries result := hres
          have hnode := h.node _ (h.request envelope hmem).target
          rw [← hnode.term_eq]
          exact Server.receive_success hrec hsucc
  | «local» n action =>
      obtain ⟨A', hm, hsim⟩ := h.perform hst hallow hs
      obtain ⟨-, -, e, ha, rfl⟩ := Cluster.step_local hs
      refine ⟨A', hm, hsim, hm.frame, fun l _ => ?_, ⟨e.events, rfl⟩, fun r hr => Or.inl hr⟩
      by_cases hl : l = n
      · rw [hl, Cluster.core, Cluster.core, C.perform_servers_self]
        exact ha.commit_le
      · rw [Cluster.core, Cluster.core, C.perform_servers_ne e hl]

/-! ### The stages of a read -/

/-- **An acknowledgement**: the event loop has just raised the commit index to the submitted entry
or beyond. -/
theorem Acts.acked {s : Server σ μ} {now : ℕ} {action : LocalAction} {e : Effect σ μ}
    (ha : Acts s now action e) {l i : ℕ} {command out : String}
    (he : Event.submitReturned l command (some i) (.ok out) ∈ e.events) :
    s.core.commitIndex < e.server.core.commitIndex ∧ i ≤ e.server.core.commitIndex := by
  cases ha with
  | settle hset =>
      cases hset with
      | stop hfail =>
          obtain ⟨err, herr⟩ := hfail _ he
          exact absurd herr (by simp)
      | _ => exact absurd he (by simp [Server.proceed])
  | @submitDone _ entryIndex _ _ _ core _ _ res _ hr hres =>
      have heq : entryIndex = i := by
        simp only [Server.proceed, List.mem_singleton, Event.submitReturned.injEq,
          Option.some.injEq] at he
        exact he.2.2.1.symm
      subst heq
      have hmem := List.mem_map_of_mem (f := Prod.fst) (Server.mem_of_entryResult hres)
      rcases RaftCore.handleAppendEntriesResult_commit hr with
        ⟨-, rfl⟩ | ⟨-, -, -, hlt, -, hresults⟩
      · exact absurd hmem (by simp)
      · rw [hresults, List.mem_range'_1] at hmem
        refine ⟨hlt, ?_⟩
        show entryIndex ≤ core.commitIndex
        omega
  | _ => exact absurd he (by simp [Server.proceed, Server.send])

/-- **What was acknowledged is committed**, after one more step. -/
theorem Reads.acked_of_step (h : Reads S C A) (hsim : Sim S C A) (hst : S.Stores σ) (hh : S.honest)
    {action : Action} (hs : C.step action = some C') (hsim' : Sim S C' A')
    (hp : Progress S action.node C C' A A') {since i : ℕ} (hi : C'.AckedBefore since i) :
    ∃ T, Backs S C' A' T i := by
  obtain ⟨j, hj, l, command, out, he⟩ := hi
  have hold : C.history[j]? = some (.submitReturned l command (some i) (.ok out)) →
      ∃ T, Backs S C' A' T i := by
    intro he
    obtain ⟨T, hT⟩ := h.acked since i ⟨j, hj, l, command, out, he⟩
    exact ⟨T, hT.progress hp⟩
  cases action with
  | deliver envelope =>
      obtain ⟨-, core, reply, -, rfl⟩ := Cluster.step_deliver hs
      exact hold he
  | «local» n action =>
      obtain ⟨hn, -, e, ha, hC'⟩ := Cluster.step_local hs
      rw [hsim.nodes] at hn
      rcases Nat.lt_or_ge j C.history.length with hlt | hge
      · rw [hC'] at he
        exact hold (by rwa [Cluster.perform, List.getElem?_append_left hlt] at he)
      have hmem : Event.submitReturned l command (some i) (.ok out) ∈ e.events := by
        rw [hC', Cluster.perform, List.getElem?_append_right hge] at he
        exact List.mem_of_getElem? he
      obtain ⟨hlt, hle⟩ := ha.acked hmem
      have hcore : C'.core n = e.server.core := by
        rw [hC', Cluster.core, C.perform_servers_self]
      obtain ⟨hleader, hterm, hcom⟩ := hsim.commits_of_answer hst hh hs (by rw [hcore]; exact hlt)
      have hnode := hsim'.node n hn
      have hlead := (hnode.leads hleader).leader
      rw [← hnode.term_eq, hterm] at hlead
      exact ⟨A.term n, n, hn, _, hlead, hcom.frame hp.frame, hcore ▸ hle, le_rfl⟩

omit [Snapshotable μ] in
/-- **A read is invoked**: what was acknowledged was committed in terms that a quorum has reached. -/
theorem Reads.invoked (h : Reads S C A) (hsim : Sim S C A) :
    ReadRel S C A n (.readInvoked C.history.length) := by
  refine ⟨le_rfl, A.term, fun v => le_rfl, fun i hi => ?_⟩
  obtain ⟨T, hT⟩ := h.acked _ i hi
  have hT' := hT
  obtain ⟨l, -, k, -, ⟨-, hpos, -, Q, hQ, hack⟩, -⟩ := hT'
  refine ⟨T, hT, Q, hQ, fun v hv => ?_⟩
  exact ((Setting.inv hsim.reachable).acked_leader
    ((Nat.zero_le _).trans_lt (hpos.trans_le (hack v hv)))).2

omit [Snapshotable μ] in
/-- **A leader that has committed in its term** takes a read index that covers what was
acknowledged. -/
theorem Sim.reaches (h : Sim S C A) (hstrict : S.strict) (hn : n ∈ S.nodes)
    (hterm : (C.core n).state = .leader →
      (C.core n).prevLogTerm (C.core n).commitIndex = (C.core n).currentTerm)
    {since : ℕ} {β : ℕ → ℕ} (hacked : ∀ i, C.AckedBefore since i →
      ∃ T, Backs S C A T i ∧ ∃ Q, S.quorums.IsQuorum Q ∧ ∀ v ∈ Q, T ≤ β v) :
    Reaches S C n β since (C.core n).commitIndex := by
  intro hl i hi
  obtain ⟨T, ⟨l, -, k, hlead, hcom, hik, hkl⟩, Q, hQ, hβ⟩ := hacked i hi
  have hnode := h.node n hn
  have hleads := hnode.leads hl
  have hinv := Setting.inv h.reachable
  have hprev := hterm hl
  rw [hnode.term_eq] at hprev ⊢
  rcases lt_trichotomy T (A.term n) with hlt | rfl | hgt
  · -- the entry at the commit index is of the term of the leader, so it is above what he was
    -- elected with, and what was committed before is in that
    left
    have hc := hnode.commits hstrict
    rw [hnode.log.prevLogTerm hc.snapshot_le hc.commit_le] at hprev
    have hpos := hinv.leader_pos hleads.leader
    obtain ⟨p, e, hpe⟩ : ∃ p e, (A.log n).take (C.core n).commitIndex = p ++ [e] := by
      rcases List.eq_nil_or_concat' ((A.log n).take (C.core n).commitIndex) with hnil | hpe
      · rw [hnil, lastTerm_nil] at hprev
        omega
      · exact hpe
    rw [hpe, lastTerm_append_singleton] at hprev
    have hpre : p ++ [e] <+: A.llog (A.term n) := by
      rw [← hpe, ← hleads.log]
      exact List.take_prefix _ _
    have helog := (hinv.length_elog_lt_iff hleads.leader hpre).2 hprev
    rw [← hpe] at helog
    have hk := ((Setting.kept h.reachable (S.honest_of_strict hstrict)).leader_completeness hcom
      hleads.leader hlt).length_le
    rw [List.length_take, min_eq_left hcom.2.2.1] at hk
    exact hik.trans (hk.trans (helog.le.trans (List.length_take_le _ _)))
  · left
    obtain rfl : n = l := Option.some.inj (hleads.leader.symm.trans hlead)
    exact hik.trans hkl
  · exact Or.inr ⟨Q, hQ, fun v hv => hgt.trans_le (hβ v hv)⟩

omit [Snapshotable μ] in
/-- **A majority has confirmed the leader**: nobody of a later term had committed anything. -/
theorem Confirms.not_overtaken {β : ℕ → ℕ} {successCount : ℕ} {waiting : List Envelope}
    (h : Confirms C n β successCount waiting) (hnode : NodeRel S A n (C.core n)) (hn : n ∈ S.nodes)
    (hl : (C.core n).state = .leader) (hβ : ∀ v, β v ≤ A.term v)
    (hmaj : ((C.core n).peers.length + 1) / 2 + 1 ≤ successCount + 1) :
    ¬ Overtaken S β (C.core n).currentTerm := by
  rintro ⟨Q', hQ', hover⟩
  obtain ⟨Q, hcard, hQ, hterm⟩ := h.counted
  have hnot : n ∉ Q := fun hmem => (hnode.mem_peers.1 (hQ n hmem).1).2 rfl
  have hquorum : S.quorums.IsQuorum (insert n Q) := by
    refine QuorumSystem.majority_iff.2 ⟨fun v hv => ?_, ?_⟩
    · rw [List.mem_toFinset]
      rcases Finset.mem_insert.1 hv with rfl | hv
      · exact hn
      · exact (hnode.mem_peers.1 (hQ v hv).1).1
    · rw [Finset.card_insert_of_notMem hnot, hnode.card_nodes hn]
      omega
  obtain ⟨v, hv, hv'⟩ := S.quorums.meet hquorum hQ'
  refine absurd (hover v hv') (not_lt.2 ?_)
  rcases Finset.mem_insert.1 hv with rfl | hv
  · rw [hnode.term_eq]
    exact hβ v
  · exact hterm hl v hv

omit [Storage σ] [Snapshotable μ] in
/-- A round that waits for fewer answers. -/
theorem Confirms.sublist {β : ℕ → ℕ} {successCount : ℕ} {waiting waiting' : List Envelope}
    (h : Confirms C n β successCount waiting) (hsub : waiting'.Sublist waiting) :
    Confirms C n β successCount waiting' where
  round envelope he := h.round envelope (hsub.subset he)
  nodup := h.nodup.sublist (hsub.map _)
  answered := h.answered
  counted := by
    obtain ⟨Q, hcard, hQ, hterm⟩ := h.counted
    exact ⟨Q, hcard, fun v hv => ⟨(hQ v hv).1, fun hmem => (hQ v hv).2 ((hsub.map _).subset hmem)⟩,
      hterm⟩

omit [Storage σ] [Snapshotable μ] in
/-- **An answer is counted**: it comes from a peer that has not been counted yet. -/
theorem Confirms.count {β : ℕ → ℕ} {successCount : ℕ} {waiting : List Envelope}
    (h : Confirms C n β successCount waiting) {envelope : Envelope} (he : envelope ∈ waiting)
    (hpeer : envelope.target ∈ (C.core n).peers) (hβ : (C.core n).state = .leader →
      β envelope.target ≤ (C.core n).currentTerm) :
    Confirms C n β (successCount + 1) (waiting.erase envelope) where
  round := (h.sublist List.erase_sublist).round
  nodup := (h.sublist List.erase_sublist).nodup
  answered := h.answered
  counted := by
    obtain ⟨Q, hcard, hQ, hterm⟩ := h.counted
    have hmem : envelope.target ∈ waiting.map Envelope.target := List.mem_map_of_mem he
    have hnot : envelope.target ∉ Q := fun hv => (hQ _ hv).2 hmem
    refine ⟨insert envelope.target Q, by rw [Finset.card_insert_of_notMem hnot, hcard], ?_, ?_⟩
    · intro v hv
      rcases Finset.mem_insert.1 hv with rfl | hv
      · refine ⟨hpeer, fun hmem => ?_⟩
        obtain ⟨envelope', he', htarget⟩ := List.mem_map.1 hmem
        obtain ⟨hne, he'⟩ := (h.nodup.of_map _).mem_erase_iff.1 he'
        exact hne (List.inj_on_of_nodup_map h.nodup he' he htarget)
      · exact ⟨(hQ v hv).1, fun hmem => (hQ v hv).2 ((List.erase_sublist.map _).subset hmem)⟩
    · intro hl v hv
      rcases Finset.mem_insert.1 hv with rfl | hv
      · exact hβ hl
      · exact hterm hl v hv

/-! ### One step -/

omit [Storage σ] [Snapshotable μ] in
/-- A read goes on while nothing else about its node changes. -/
theorem ReadRel.proceed {task : Task} {events : List Event}
    (hp : Progress S n C (C.perform n ((C.servers n).proceed (C.core n) task events)) A A')
    (h : ReadRel S C A n task) :
    ReadRel S (C.perform n ((C.servers n).proceed (C.core n) task events)) A' n task := by
  have hself := C.perform_servers_self n ((C.servers n).proceed (C.core n) task events)
  refine h.progress hp ?_ ?_ fun _ => ⟨?_, ?_⟩ <;>
    first | rw [hself] | rw [Cluster.core, hself]
  all_goals rfl

omit [Snapshotable μ] in
/-- **The capture of `confirm_leadership`** starts a round in which nobody has answered. -/
theorem Confirms.start (h : Reads S C A) (hnode : NodeRel S A n (C.core n)) {β : ℕ → ℕ}
    {task : List Envelope → Task} :
    Confirms (C.perform n ((C.servers n).send
        (fun peer => some (.appendEntries ((C.core n).confirmArgs peer))) task)) n β 0
      ((C.servers n).newRound
        fun peer => some (.appendEntries ((C.core n).confirmArgs peer))) := by
  set e := (C.servers n).send
    (fun peer => some (.appendEntries ((C.core n).confirmArgs peer))) task with he
  have hself := C.perform_servers_self n e
  have hrounds : ((C.perform n e).servers n).rounds = (C.servers n).rounds + 1 := by
    rw [hself]
    rfl
  refine ⟨fun envelope hmem => ?_, ?_, fun r hr hsource hround => ?_, ∅, rfl, by simp, by simp⟩
  · rw [hrounds]
    exact (Server.mem_newRound.1 hmem).2.2.1
  · have hmap : ((C.servers n).newRound
        fun peer => some (.appendEntries ((C.core n).confirmArgs peer))).map Envelope.target =
          (C.core n).peers := by
      simp [Server.newRound, Cluster.core, Function.comp_def]
    rw [hmap]
    exact hnode.peers_nodup
  · -- no request of the new round has been sent before
    have hle := h.rounds r.1 (h.replied r hr)
    rw [hsource] at hle
    rw [hrounds] at hround
    omega

omit [Snapshotable μ] in
/-- **An answer to the round is handled**: a success counts, and the round waits no longer for it. -/
theorem Confirms.handled (hsim : Sim S C A) (hn : n ∈ S.nodes) {β : ℕ → ℕ}
    {since readIndex numPeers majorityNeeded successCount : ℕ} {waiting : List Envelope}
    (ht : (C.servers n).task =
      .confirming since readIndex numPeers majorityNeeded successCount waiting)
    (h : Confirms C n β successCount waiting) {envelope : Envelope} {result : AppendEntriesResult}
    (hmem : envelope ∈ waiting) (hreply : (envelope, .appendEntries result) ∈ C.replies) :
    Confirms C n β (if result.success then successCount + 1 else successCount)
      (waiting.erase envelope) := by
  have hnode := hsim.node n hn
  have htask := hsim.task n hn
  have hwaiting : envelope ∈ (C.servers n).task.waiting := by
    rw [ht]
    exact hmem
  have hsource := (htask.waiting envelope hwaiting).2
  have hrel := hsim.request envelope (htask.waiting envelope hwaiting).1
  split
  · rename_i hsucc
    refine h.count hmem (hnode.mem_peers.2 ⟨hrel.target, ?_⟩) fun hl => ?_
    · rw [← hsource]
      exact hrel.ne.symm
    · have hrole : (C.servers n).core.state ≠ .follower := by
        rw [show (C.servers n).core.state = .leader from hl]
        simp
      have hterm : envelope.request.term = (C.core n).currentTerm :=
        htask.waiting_term hrole envelope hwaiting
      rw [← hterm]
      exact h.answered _ hreply hsource (h.round envelope hmem) result rfl hsucc
  · exact h.sublist List.erase_sublist

/-- **The event loop takes a read one stage further.** -/
theorem Reads.acts (h : Reads S C A) (hsim : Sim S C A) (hstrict : S.strict) (hn : n ∈ S.nodes)
    {action : LocalAction} {e : Effect σ μ} (hav : C.Available n action)
    (hearly : ¬ C.ReadsEarly (.local n action))
    (ha : Acts (C.servers n) C.history.length action e)
    (hp : Progress S n C (C.perform n e) A A') :
    ReadRel S (C.perform n e) A' n e.server.task := by
  have hnode := hsim.node n hn
  have hread := h.read n hn
  cases ha with
  | settle hset =>
      refine ReadRel.proceed hp ?_
      cases hset with
      | invoke => exact h.invoked hsim
      | beginRead ht hl =>
          rw [ht] at hread
          obtain ⟨hsince, β, hβ, hacked⟩ := hread
          refine ⟨hsince, rfl, β, hβ, hsim.reaches hstrict hn (fun _ => ?_) hacked⟩
          exact not_not.1 fun hne => hearly ⟨hl, hne⟩
      | confirm ht hl hm =>
          rw [ht] at hread
          obtain ⟨hsince, hnum, β, hβ, hreach, hconf⟩ := hread
          rw [hnum] at hm
          exact ⟨hsince, fun i hi => (hreach hl i hi).resolve_right
            (hconf.not_overtaken hnode hn hl hβ hm)⟩
      | wait ht =>
          rw [ht] at hread
          exact hread
      | _ => trivial
  | confirmLeadership ht hl =>
      rw [ht] at hread
      obtain ⟨hsince, hnum, β, hβ, hreach⟩ := hread
      have hcore : ∀ e : Effect σ μ, (C.perform n e).core n = e.server.core := fun e => by
        rw [Cluster.core, C.perform_servers_self]
      refine ⟨hsince.trans (by simp [Cluster.perform]), ?_, β,
        fun v => (hβ v).trans (hp.frame.term_mono v), hreach.progress hp (fun _ => ?_) hsince,
        Confirms.start h hnode⟩
      · rw [hcore, hnum]
        rfl
      · rw [hcore]
        exact ⟨rfl, rfl⟩
  | @confirmCounted _ _ _ _ successCount _ waiting _ envelope result ht hle hcount hwait =>
      refine ReadRel.proceed hp ?_
      obtain ⟨hmem, hreply⟩ := hav
      rw [ht] at hread hmem
      obtain ⟨hsince, hnum, β, hβ, hreach, hconf⟩ := hread
      refine ⟨hsince, hnum, β, hβ, hreach, ?_⟩
      have hcounted := hconf.handled hsim hn ht hmem hreply
      rw [hcount]
      rcases hwait with rfl | rfl
      · exact hcounted.sublist (List.nil_sublist _)
      · exact hcounted
  | fail =>
      refine ReadRel.proceed hp ?_
      cases ht : (C.servers n).task with
      | confirming since readIndex numPeers majorityNeeded successCount waiting =>
          rw [ht] at hread
          obtain ⟨hsince, hnum, β, hβ, hreach, hconf⟩ := hread
          exact ⟨hsince, hnum, β, hβ, hreach, hconf.sublist List.erase_sublist⟩
      | _ =>
          rw [ht] at hread
          exact hread
  | submitPending ht | votePending ht | heartbeatAppended ht | heartbeatInstalled ht =>
      show ReadRel _ _ _ _ (Task.forget _ _)
      rw [ht]
      trivial
  | _ => trivial

/-- A read that has returned a value was awaiting it. -/
theorem Acts.read_returned {s : Server σ μ} {now : ℕ} {action : LocalAction} {e : Effect σ μ}
    (ha : Acts s now action e) {m since r : ℕ}
    (he : Event.readReturned m since (.ok r) ∈ e.events) :
    ∃ readIndex, s.task = .awaiting since readIndex ∧ readIndex ≤ r := by
  cases ha with
  | settle hset =>
      cases hset with
      | stop hfail =>
          obtain ⟨err, herr⟩ := hfail _ he
          exact absurd herr (by simp)
      | finishRead ht _ hle =>
          simp only [Server.proceed, List.mem_singleton, Event.readReturned.injEq,
            Except.ok.injEq] at he
          obtain ⟨-, rfl, rfl⟩ := he
          exact ⟨_, ht, hle⟩
      | _ => exact absurd he (by simp [Server.proceed])
  | _ => exact absurd he (by simp [Server.proceed, Server.send])

/-- A round has the number that its node has reached by then. -/
theorem Acts.sent_round {s : Server σ μ} {now : ℕ} {action : LocalAction} {e : Effect σ μ}
    (ha : Acts s now action e) {envelope : Envelope} (he : envelope ∈ e.sent) :
    envelope.source = s.core.id ∧ envelope.round = e.server.rounds := by
  cases ha with
  | replicate | requestVotes | sendHeartbeat | confirmLeadership =>
      obtain ⟨hsource, -, hround, -⟩ := Server.mem_newRound.1 he
      exact ⟨hsource, hround⟩
  | _ => exact absurd he (by simp [Server.proceed])

theorem Acts.rounds_le {s : Server σ μ} {now : ℕ} {action : LocalAction} {e : Effect σ μ}
    (ha : Acts s now action e) : s.rounds ≤ e.server.rounds := by
  cases ha <;> simp [Server.proceed, Server.send]

omit [Storage σ] [Snapshotable μ] in
/-- What was returned before is older than anything that is acknowledged now. -/
theorem Reads.returned_of_progress (h : Reads S C A) (hp : Progress S n C C' A A') {m since r : ℕ}
    (he : Event.readReturned m since (.ok r) ∈ C.history) :
    since ≤ C'.history.length ∧ ∀ i, C'.AckedBefore since i → i ≤ r := by
  obtain ⟨events, hhist⟩ := hp.history
  obtain ⟨hsince, hi⟩ := h.returned m since r he
  exact ⟨hsince.trans (by simp [hhist]), fun i hi' => hi i (hi'.of_append hhist hsince)⟩

/-- A request arrives: no task changes, and no round. -/
theorem Reads.deliver (h : Reads S C A) {envelope : Envelope} {core : RaftCore σ μ} {reply : Reply}
    (hmem : envelope ∈ C.requests)
    (hrec : Server.receive (C.core envelope.target) envelope.request = .ok (core, reply))
    (hp : Progress S envelope.target C (C.receive envelope core reply) A A')
    (hacked : ∀ since i, (C.receive envelope core reply).AckedBefore since i →
      ∃ T, Backs S (C.receive envelope core reply) A' T i) :
    Reads S (C.receive envelope core reply) A' := by
  have hself := C.receive_servers_self envelope core reply
  have hother : ∀ m, m ≠ envelope.target →
      (C.receive envelope core reply).servers m = C.servers m :=
    fun m hm => C.receive_servers_ne core reply hm
  have hserver : ∀ m, ((C.receive envelope core reply).servers m).task = (C.servers m).task ∧
      ((C.receive envelope core reply).servers m).rounds = (C.servers m).rounds := by
    intro m
    by_cases hm : m = envelope.target
    · rw [hm, hself]
      exact ⟨rfl, rfl⟩
    · rw [hother m hm]
      exact ⟨rfl, rfl⟩
  refine ⟨hacked, fun e he => ?_, fun r hr => ?_, fun m hm => ?_,
    fun m since r he => h.returned_of_progress hp he⟩
  · rw [(hserver _).2]
    exact h.rounds e he
  · rcases List.mem_append.1 hr with hr | hr
    · exact h.replied r hr
    · obtain rfl := List.mem_singleton.1 hr
      exact hmem
  · rw [(hserver m).1]
    refine (h.read m hm).progress hp (hserver m).2 ?_ ?_ <;> by_cases hmt : m = envelope.target
    · rw [hmt, Cluster.core, Cluster.core, hself]
      exact (Server.receive_sameNode hrec).2.1
    · rw [Cluster.core, hother m hmt, Cluster.core]
    · rw [hmt, Cluster.core, Cluster.core, hself]
      exact Server.receive_role hrec
    · rw [Cluster.core, hother m hmt, Cluster.core]
      exact fun _ => ⟨rfl, rfl⟩

/-- An event loop goes on: the other nodes stay as they are. -/
theorem Reads.perform (h : Reads S C A) (hsim : Sim S C A) (hstrict : S.strict) (hn : n ∈ S.nodes)
    {action : LocalAction} {e : Effect σ μ} (hav : C.Available n action)
    (hearly : ¬ C.ReadsEarly (.local n action))
    (ha : Acts (C.servers n) C.history.length action e)
    (hp : Progress S n C (C.perform n e) A A')
    (hacked : ∀ since i, (C.perform n e).AckedBefore since i → ∃ T, Backs S (C.perform n e) A' T i) :
    Reads S (C.perform n e) A' := by
  have hself := C.perform_servers_self n e
  have hother : ∀ m, m ≠ n → (C.perform n e).servers m = C.servers m :=
    fun m hm => C.perform_servers_ne e hm
  have hrounds : ∀ m, (C.servers m).rounds ≤ ((C.perform n e).servers m).rounds := by
    intro m
    by_cases hm : m = n
    · rw [hm, hself]
      exact ha.rounds_le
    · rw [hother m hm]
  refine ⟨hacked, fun env he => ?_, fun r hr => List.mem_append_left _ (h.replied r hr),
    fun m hm => ?_, fun m since r he => ?_⟩
  · rcases List.mem_append.1 he with he | hsent
    · exact (h.rounds env he).trans (hrounds _)
    · obtain ⟨hsource, hround⟩ := ha.sent_round hsent
      have hid : (C.servers n).core.id = n := (hsim.node n hn).id_eq
      rw [hsource, hid, hself, hround]
  · by_cases hmn : m = n
    · subst hmn
      rw [hself]
      exact h.acts hsim hstrict hm hav hearly ha hp
    · rw [hother m hmn]
      refine (h.read m hm).progress hp (by rw [hother m hmn]) ?_ ?_ <;>
        rw [Cluster.core, hother m hmn, Cluster.core]
      exact fun _ => ⟨rfl, rfl⟩
  · rcases List.mem_append.1 he with he | he
    · exact h.returned_of_progress hp he
    · obtain ⟨readIndex, ht, hle⟩ := ha.read_returned he
      have hread := h.read n hn
      rw [ht] at hread
      exact ⟨hread.1.trans (by simp [Cluster.perform]),
        fun i hi => (hread.2 i (hi.of_append rfl hread.1)).trans hle⟩

/-- **One step of the cluster** keeps what is known of the reads. -/
theorem Reads.of_step (h : Reads S C A) (hsim : Sim S C A) (hst : S.Stores σ) (hstrict : S.strict)
    {action : Action} (hallow : S.Allows C action) (hearly : ¬ C.ReadsEarly action)
    (hs : C.step action = some C') : ∃ A', Sim S C' A' ∧ Reads S C' A' := by
  obtain ⟨A', -, hsim', hp⟩ := hsim.progress hst hstrict hallow hs
  have hacked := fun since i (hi : C'.AckedBefore since i) =>
    h.acked_of_step hsim hst (S.honest_of_strict hstrict) hs hsim' hp hi
  refine ⟨A', hsim', ?_⟩
  cases action with
  | deliver envelope =>
      obtain ⟨hmem, core, reply, hrec, rfl⟩ := Cluster.step_deliver hs
      exact h.deliver hmem hrec hp hacked
  | «local» n action =>
      obtain ⟨hn, hav, e, ha, rfl⟩ := Cluster.step_local hs
      rw [hsim.nodes] at hn
      exact h.perform hsim hstrict hn hav hearly ha hp hacked

omit [Snapshotable μ] in
/-- Nobody has read anything in a freshly booted cluster. -/
theorem Cluster.Initial.reads [Snapshotable μ] (h : C.Initial) (hnodes : C.nodes = S.nodes) :
    Reads S C (State.init ℕ LogEntry) where
  acked since i hi := by
    obtain ⟨j, -, l, command, out, he⟩ := hi
    simp [h.history] at he
  rounds := by simp [h.requests]
  replied := by simp [h.replies]
  read n hn := by
    rw [h.idle n (hnodes ▸ hn)]
    trivial
  returned := by simp [h.history]

/-! ### Reads -/

namespace Cluster

/-- **A read reflects every write acknowledged before it began**, in every run in which no node
leaves the log of its leader and no leader begins a read before it has committed an entry of its own
term: if `handle_submit` has returned `Ok` for the index `i` before `handle_read_index` was invoked,
and that returns `Ok(r)`, then `i ≤ r`. -/
theorem run_read_index [InfallibleStorage σ] [DurableSnapshots σ] (hinit : C.Initial)
    (hr : Run Cluster.step C ts C') (hdiv : ∀ t ∈ ts, ¬ t.source.Diverges t.action)
    (hearly : ∀ t ∈ ts, ¬ t.source.ReadsEarly t.action) {j k l i n since r : ℕ}
    {command out : String}
    (hsubmit : C'.history[j]? = some (.submitReturned l command (some i) (.ok out)))
    (hj : j < since) (hread : C'.history[k]? = some (.readReturned n since (.ok r))) : i ≤ r := by
  let S : Setting := .full C.nodes hinit.nodup
  have hst : S.Stores σ := fun _ => ⟨inferInstance, inferInstance⟩
  have hsim : Sim S C (State.init ℕ LogEntry) := hinit.sim rfl fun hc => absurd trivial hc
  have hrun : ∃ A, Sim S C' A ∧ Reads S C' A := by
    refine hr.invariant (I := fun C => ∃ A, Sim S C A ∧ Reads S C A)
      (P := fun t => ¬ t.source.Diverges t.action ∧ ¬ t.source.ReadsEarly t.action) ?_
      ⟨_, hsim, hinit.reads rfl⟩ fun t ht => ⟨hdiv t ht, hearly t ht⟩
    rintro C₁ a C₂ ⟨A₁, h₁, hreads⟩ hs ⟨hno, hlate⟩
    exact hreads.of_step h₁ hst trivial (allows_full hno) hlate hs
  obtain ⟨A, -, h⟩ := hrun
  exact (h.returned n since r (List.mem_of_getElem? hread)).2 i ⟨j, hj, l, command, out, hsubmit⟩

/-- Node 1 has committed a command when it serves a read. -/
def readCommitted : List Cue :=
  commitFirst ++ [.local 1 .readIndex, .local 1 .beginRead, .local 1 .confirmLeadership,
    .deliver 6, .answer 2, .local 1 .finish, .local 1 .pollRead]

/-- The read returns no less than the index of the command. -/
theorem run_read_index_committed : ∃ (ts : List _) (C : Cluster StorageContents Recorder) (r : ℕ),
    Run step threeNodes ts C ∧
      C.history[0]? = some (.submitReturned 1 "SET x 1" (some 2) (.ok "")) ∧
      C.history[2]? = some (.readReturned 1 1 (.ok r)) ∧ 2 ≤ r := by
  obtain ⟨ts, C, hr, hdiv, hearly, hsubmit, hread⟩ := exists_run_of_play step choose threeNodes
    readCommitted
    (P := fun ts C => (∀ t ∈ ts, ¬ t.source.Diverges t.action) ∧
      (∀ t ∈ ts, ¬ t.source.ReadsEarly t.action) ∧
      C.history[0]? = some (.submitReturned 1 "SET x 1" (some 2) (.ok "")) ∧
      C.history[2]? = some (.readReturned 1 1 (.ok 2))) (by decide)
  exact ⟨ts, C, 2, hr, hsubmit, hread,
    run_read_index threeNodes_initial hr hdiv hearly hsubmit Nat.one_pos hread⟩

/-- Node 1 has committed a command with node 2, which does not know.  Node 2 wins term 2 with the
vote of node 3, and serves a read: node 1 confirms its leadership. -/
def readBehind : List Cue :=
  commitFirst ++ [.local 2 .startElection, .local 2 .requestVotes, .deliver 7, .answer 2,
    .local 2 .sendHeartbeat, .local 2 .drop, .local 2 .readIndex, .local 2 .beginRead,
    .local 2 .confirmLeadership, .deliver 10, .answer 3, .local 2 .finish, .local 2 .pollRead]

/-- **A read misses an acknowledged write**, although no node leaves the log of its leader: the
command was acknowledged at index 2, and the read of a new leader returns 0. -/
theorem read_missed_write : ∃ (ts : List _) (C : Cluster StorageContents Recorder),
    threeNodes.Initial ∧ Run step threeNodes ts C ∧
      (∀ t ∈ ts, ¬ t.source.Diverges t.action) ∧
      C.history[0]? = some (.submitReturned 1 "SET x 1" (some 2) (.ok "")) ∧
      C.history[2]? = some (.readReturned 2 1 (.ok 0)) := by
  obtain ⟨ts, C, hr, hP⟩ := exists_run_of_play step choose threeNodes readBehind
    (P := fun ts C => (∀ t ∈ ts, ¬ t.source.Diverges t.action) ∧
      C.history[0]? = some (.submitReturned 1 "SET x 1" (some 2) (.ok "")) ∧
      C.history[2]? = some (.readReturned 2 1 (.ok 0))) (by decide)
  exact ⟨ts, C, threeNodes_initial, hr, hP⟩

end Cluster

end RaftVibe
