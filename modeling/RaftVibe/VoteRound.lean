/-
**A round of votes.**

After `start_election` a candidate asks its peers for their votes, and counts the answers as they
arrive.  It looks for a majority when it has counted an answer, and stops at the first one.  Between
two answers the lock is free, so other calls may be handled; those that are quiet do not touch the
election.

A node without peers has no answers to count.  It is a majority on its own, but it never looks.

Main definitions:

* `RaftVibe.RoundEvent`, `RaftVibe.RaftCore.requestVotes` — the events of a round, and the loop;
* `RaftVibe.RoundEvent.Quiet` — answers of peers and other calls, none of which is of a newer term
  or from a leader;
* `RaftVibe.RaftCore.Tally` — the candidate with the votes that it has counted;
* `RaftVibe.RaftCore.Elected` — the node has become leader of its term, with everything it needs.

Main results:

* `RaftVibe.RaftCore.requestVotes_spec` — **the loop**, by induction on the events;
* `RaftVibe.RaftCore.elected_iff` — when a round ends with a leader exactly if there is a majority.
-/

import Mathlib
import RaftVibe.Operations

set_option relaxedAutoImplicit false
set_option autoImplicit false

namespace RaftVibe

/-- What happens during a round: a peer answers, or the transport gives up, or another call gets the
lock. -/
inductive RoundEvent
  | answer (peerId : ℕ) (result : Option RequestVoteResult)
  | call (op : Op)
deriving DecidableEq, Repr

/-- The peer whose answer has arrived. -/
def RoundEvent.answerer : RoundEvent → Option ℕ
  | answer peerId (some _) => some peerId
  | _ => none

/-- The peer that has granted its vote. -/
def RoundEvent.granter : RoundEvent → Option ℕ
  | answer peerId (some result) => if result.voteGranted then some peerId else none
  | _ => none

/-- The peers that grant their votes in a round. -/
def granters (events : List RoundEvent) : Finset ℕ := (events.filterMap RoundEvent.granter).toFinset

/-- The votes that win, among these peers and the node itself. -/
def majority (peers : List ℕ) : ℕ := (1 + peers.length) / 2 + 1

namespace RaftCore

variable {σ μ : Type} [Storage σ] [Snapshotable μ]

/-- The loop of `request_votes` over the answers, as they arrive, and whether the node has become
leader. -/
def requestVotes (core : RaftCore σ μ) :
    List RoundEvent → Except (Panic σ) (RaftCore σ μ × Bool)
  | [] => .ok (core, false)
  | .answer _ none :: events => requestVotes core events
  | .answer peerId (some result) :: events => do
      let (core, won) ← core.handleRequestVoteResult peerId result
      -- it does not wait for the others
      if won then return (core, true) else requestVotes core events
  | .call op :: events => do
      let (core, _) ← op.run core
      requestVotes core events

/-- A call that is not of a newer term, and not from a leader of this one. -/
def QuietCall (core : RaftCore σ μ) : Op → Prop
  | .requestVote args => args.term ≤ core.currentTerm
  | .appendEntries args => args.term < core.currentTerm
  | .installSnapshot args => args.term < core.currentTerm
  | .appendLogEntry _ => True
  | _ => False

/-- An answer of a peer that is not of a newer term, or a quiet call. -/
def QuietEvent (core : RaftCore σ μ) : RoundEvent → Prop
  | .answer peerId result => peerId ∈ core.peers ∧ ∀ r ∈ result, r.term ≤ core.currentTerm
  | .call op => core.QuietCall op

/-- The candidate `core` with the votes that it has counted; no vote is counted twice. -/
structure Tally (core core' : RaftCore σ μ) (votes : List ℕ) : Prop where
  same : ∃ s, core' = { core with votesReceived := votes, storage := s }
  nodup : votes.Nodup

/-- The node has become leader of its term: its bookkeeping starts anew for every peer, and its log
has one more entry, the no-op of the term. -/
structure Elected (core core' : RaftCore σ μ) : Prop where
  state : core'.state = .leader
  term : core'.currentTerm = core.currentTerm
  nextIndex : ∀ p ∈ core.peers, core'.nextIndex.lookup p = some (core.lastLogIndex + 1)
  matchIndex : ∀ p ∈ core.peers, core'.matchIndex.lookup p = some 0
  log : core'.log =
    core.log ++ [{ term := core.currentTerm, index := core.lastLogIndex + 1, command := noopCommand }]

/-- The peers that granted their vote and the node itself are a majority. -/
def MajorityGranted (core : RaftCore σ μ) (events : List RoundEvent) : Prop :=
  majority core.peers ≤ (insert core.id (granters events)).card

instance (core : RaftCore σ μ) (events : List RoundEvent) :
    Decidable (core.MajorityGranted events) :=
  inferInstanceAs (Decidable (_ ≤ _))

/-- A candidate that has voted for itself. -/
structure Standing (core : RaftCore σ μ) : Prop where
  state : core.state = .candidate
  votedFor : core.votedFor = some core.id

variable {core core' : RaftCore σ μ} {votes : List ℕ} {events : List RoundEvent}

omit [Storage σ] [Snapshotable μ] in
theorem Tally.storage (h : Tally core core' votes) (s : σ) :
    Tally core { core' with storage := s } votes := by
  obtain ⟨⟨_, rfl⟩, hnodup⟩ := h
  exact ⟨⟨s, rfl⟩, hnodup⟩

omit [Snapshotable μ] in
theorem observeTerm_eq {term : ℕ} (h : term ≤ core.currentTerm) :
    core.observeTerm term = .ok core := by
  rw [observeTerm, if_neg (not_lt.2 h)]

/-- A request of an older term is refused. -/
theorem handleAppendEntries_of_lt {args : AppendEntriesArgs} (h : args.term < core.currentTerm) :
    core.handleAppendEntries args = .ok (core,
      { result := { term := core.currentTerm, success := false, conflictTerm := none,
                    conflictIndex := none }
        leaderId := none }) := by
  refine Except.bind_eq_ok.2 ⟨core, observeTerm_eq h.le, ?_⟩
  rw [if_pos h]
  rfl

/-- **Quiet calls do not touch the election.** -/
theorem Tally.call [InfallibleStorage σ] (hcore : core.Standing) (h : Tally core core' votes)
    {op : Op} (hquiet : core.QuietCall op) :
    ∃ core'' reply, op.run core' = .ok (core'', reply) ∧ Tally core core'' votes := by
  obtain ⟨s, hsame⟩ := h.same
  have hterm : core'.currentTerm = core.currentTerm := by rw [hsame]
  have hstate : core'.state = .candidate := by rw [hsame, ← hcore.state]
  have hvote : core'.votedFor = some core.id := by rw [hsame, ← hcore.votedFor]
  cases op with
  | requestVote args =>
      obtain ⟨⟨core'', result⟩, hr⟩ := handleRequestVote_returns core' args
      refine ⟨core'', some (.requestVote result), by simp [Op.run, hr], ?_⟩
      rcases handleRequestVote_ok hr with ⟨-, rfl, -⟩ | ⟨core₁, h₁, -, hor⟩
      · exact h
      · have hle : args.term ≤ core'.currentTerm := hterm ▸ hquiet
        obtain rfl : core₁ = core' := by
          rcases observeTerm_ok h₁ with ⟨-, rfl⟩ | ⟨hlt, -⟩
          · rfl
          · exact absurd hle (not_le.2 hlt)
        rcases hor with ⟨rfl, -⟩ | ⟨hfree, -, hset, -⟩
        · exact h
        · -- the vote is its own
          have hself : some args.candidateId = core₁.votedFor := by
            rcases hfree with hfree | hfree
            · rw [hvote] at hfree
              cases hfree
            · exact hfree.symm
          obtain ⟨-, rfl⟩ := setVotedFor_ok.1 hset
          have := h.storage (Storage.saveVotedFor core₁.storage (some args.candidateId)).2
          simpa only [hself] using this
  | appendEntries args =>
      have hlt : args.term < core'.currentTerm := hterm ▸ hquiet
      exact ⟨core', _, by rw [Op.run, handleAppendEntries_of_lt hlt]; rfl, h⟩
  | installSnapshot args =>
      have hlt : args.term < core'.currentTerm := hterm ▸ hquiet
      refine ⟨core', ?_⟩
      rw [Op.run, handleInstallSnapshot, if_pos hlt]
      exact ⟨_, rfl, h⟩
  | appendLogEntry command =>
      refine ⟨core', ?_⟩
      rw [Op.run, appendLogEntry, if_pos (by rw [hstate]; simp)]
      exact ⟨_, rfl, h⟩
  | startElection => exact hquiet.elim
  | becomeLeader => exact hquiet.elim
  | applyCommittedEntries => exact hquiet.elim
  | takeSnapshot => exact hquiet.elim
  | requestVoteResult peerId result => exact hquiet.elim
  | appendEntriesResult peerId entryIndex result => exact hquiet.elim
  | installSnapshotResult peerId lastIncludedIndex result => exact hquiet.elim
  | confirmResult result => exact hquiet.elim

omit [Snapshotable μ] in
/-- A candidate that becomes leader is elected. -/
theorem Tally.elected [InfallibleStorage σ] (h : Tally core core' votes) :
    ∃ core'', core'.becomeLeader = .ok core'' ∧ Elected core core'' := by
  obtain ⟨core'', hlead⟩ := becomeLeader_returns core'
  refine ⟨core'', hlead, ?_⟩
  obtain ⟨⟨s, rfl⟩, -⟩ := h
  obtain ⟨s', -, rfl⟩ := becomeLeader_ok hlead
  have hinsert : ∀ p ∈ core.peers, ∀ (m : IndexMap) (v : ℕ),
      (core.peers.foldl (fun m peer => m.insert peer v) m).lookup p = some v := by
    intro p hp m v
    rw [IndexMap.lookup_foldl_insert, if_pos hp]
  exact ⟨rfl, rfl, fun p hp => hinsert p hp _ _, fun p hp => hinsert p hp _ _, rfl⟩

omit [Storage σ] [Snapshotable μ] in
/-- A vote is counted once. -/
theorem Tally.countVote (h : Tally core core' votes) (peerId : ℕ) (result : RequestVoteResult) :
    ∃ votes', Tally core (core'.countVote peerId result) votes' ∧
      votes'.toFinset = votes.toFinset ∪ granters [.answer peerId (some result)] := by
  obtain ⟨⟨s, rfl⟩, hnodup⟩ := h
  by_cases hgrant : result.voteGranted = true
  · have hgranters : granters [.answer peerId (some result)] = {peerId} := by
      simp [granters, RoundEvent.granter, hgrant]
    by_cases hmem : peerId ∈ votes
    · refine ⟨votes, ⟨⟨s, ?_⟩, hnodup⟩, ?_⟩
      · rw [RaftCore.countVote, if_neg (by simp [hmem])]
      · rw [hgranters, Finset.union_eq_left.2 (by simpa using hmem)]
    · refine ⟨votes ++ [peerId], ⟨⟨s, ?_⟩, ?_⟩, ?_⟩
      · rw [RaftCore.countVote, if_pos ⟨hgrant, hmem⟩]
      · exact hnodup.append (List.nodup_singleton _) (by simpa using hmem)
      · rw [hgranters, List.toFinset_append]
        rfl
  · refine ⟨votes, ⟨⟨s, ?_⟩, hnodup⟩, ?_⟩
    · rw [RaftCore.countVote, if_neg (by simp [hgrant])]
    · simp [granters, RoundEvent.granter, hgrant]

omit [Snapshotable μ] in
/-- **One answer**: the vote is counted, and if there is a majority now, the node is elected. -/
theorem Tally.answer [InfallibleStorage σ] (hcore : core.Standing) (h : Tally core core' votes)
    {peerId : ℕ} {result : RequestVoteResult} (hterm : result.term ≤ core.currentTerm) :
    ∃ core'' won votes', core'.handleRequestVoteResult peerId result = .ok (core'', won) ∧
      votes'.toFinset = votes.toFinset ∪ granters [.answer peerId (some result)] ∧ votes'.Nodup ∧
      ((won = true ∧ majority core.peers ≤ votes'.length ∧ Elected core core'') ∨
        (won = false ∧ votes'.length < majority core.peers ∧ Tally core core'' votes')) := by
  obtain ⟨votes', htally, hvotes⟩ := h.countVote peerId result
  obtain ⟨s, hsame⟩ := h.same
  have hstate : core'.state = .candidate := by rw [hsame, ← hcore.state]
  have hobserve : core'.observeTerm result.term = .ok core' :=
    observeTerm_eq (by rw [hsame]; exact hterm)
  have hlength : (core'.countVote peerId result).votesReceived = votes' ∧
      (core'.countVote peerId result).peers = core.peers := by
    obtain ⟨s', hs'⟩ := htally.same
    rw [hs']
    exact ⟨rfl, rfl⟩
  by_cases hmaj : majority core.peers ≤ votes'.length
  · obtain ⟨core'', hlead, helected⟩ := htally.elected
    refine ⟨core'', true, votes', ?_, hvotes, htally.nodup, Or.inl ⟨rfl, hmaj, helected⟩⟩
    refine Except.bind_eq_ok.2 ⟨core', hobserve, ?_⟩
    rw [if_neg (by rw [hstate]; simp), ← RaftCore.countVote]
    have hif : votes'.length ≥ (1 + core.peers.length) / 2 + 1 := hmaj
    simp only
    rw [hlength.1, hlength.2, if_pos hif, hlead]
    rfl
  · refine ⟨_, false, votes', ?_, hvotes, htally.nodup, Or.inr ⟨rfl, not_le.1 hmaj, htally⟩⟩
    refine Except.bind_eq_ok.2 ⟨core', hobserve, ?_⟩
    rw [if_neg (by rw [hstate]; simp), ← RaftCore.countVote]
    have hif : ¬ votes'.length ≥ (1 + core.peers.length) / 2 + 1 := hmaj
    simp only
    rw [hlength.1, hlength.2, if_neg hif]
    rfl

theorem granters_cons (event : RoundEvent) (events : List RoundEvent) :
    granters (event :: events) = granters [event] ∪ granters events := by
  rw [granters, granters, granters, ← List.toFinset_append, ← List.filterMap_append]
  rfl

/-- **The loop**: it ends with the first majority, or it has counted all the votes and found none. -/
theorem requestVotes_spec [InfallibleStorage σ] (hcore : core.Standing)
    (h : Tally core core' votes) (hquiet : ∀ event ∈ events, core.QuietEvent event) :
    ∃ core'' won, core'.requestVotes events = .ok (core'', won) ∧
      ((won = true ∧ Elected core core'' ∧ events.filterMap RoundEvent.answerer ≠ [] ∧
          majority core.peers ≤ (votes.toFinset ∪ granters events).card) ∨
        (won = false ∧ ∃ votes', Tally core core'' votes' ∧
          votes'.toFinset = votes.toFinset ∪ granters events ∧
          (votes.length < majority core.peers → votes'.length < majority core.peers))) := by
  induction events generalizing core' votes with
  | nil =>
      refine ⟨core', false, rfl, Or.inr ⟨rfl, votes, h, ?_, fun hlt => hlt⟩⟩
      simp [granters]
  | cons event events ih =>
      obtain ⟨hevent, hevents⟩ := List.forall_mem_cons.1 hquiet
      cases event with
      | answer peerId result =>
          cases result with
          | none =>
              -- the transport has given up on this peer
              obtain ⟨core'', won, hrun, hor⟩ := ih h hevents
              have hsame : granters (.answer peerId none :: events) = granters events := rfl
              have hsame' : (RoundEvent.answer peerId none :: events).filterMap RoundEvent.answerer =
                  events.filterMap RoundEvent.answerer := rfl
              exact ⟨core'', won, hrun, by rw [hsame, hsame']; exact hor⟩
          | some result =>
              have hans : (RoundEvent.answer peerId (some result) :: events).filterMap
                  RoundEvent.answerer ≠ [] := by simp [RoundEvent.answerer]
              obtain ⟨core₁, won, votes₁, hrun, hvotes₁, hnodup, hor⟩ :=
                h.answer hcore (hevent.2 result rfl)
              rw [granters_cons, ← Finset.union_assoc, ← hvotes₁]
              rcases hor with ⟨rfl, hmaj, helected⟩ | ⟨rfl, hmin, htally⟩
              · refine ⟨core₁, true, ?_, Or.inl ⟨rfl, helected, hans, ?_⟩⟩
                · rw [requestVotes, hrun]
                  rfl
                · rw [← List.toFinset_card_of_nodup hnodup] at hmaj
                  exact hmaj.trans (Finset.card_le_card Finset.subset_union_left)
              · obtain ⟨core'', won, hrun', hor⟩ := ih htally hevents
                refine ⟨core'', won, ?_, ?_⟩
                · rw [requestVotes, hrun]
                  exact hrun'
                · rcases hor with ⟨rfl, helected, -, hmaj⟩ | ⟨rfl, votes', htally', hvotes', hlt⟩
                  · exact Or.inl ⟨rfl, helected, hans, hmaj⟩
                  · exact Or.inr ⟨rfl, votes', htally', hvotes', fun _ => hlt hmin⟩
      | call op =>
          obtain ⟨core₁, reply, hrun, htally⟩ := h.call hcore hevent
          obtain ⟨core'', won, hrun', hor⟩ := ih htally hevents
          have hsame : granters (.call op :: events) = granters events := rfl
          have hsame' : (RoundEvent.call op :: events).filterMap RoundEvent.answerer =
              events.filterMap RoundEvent.answerer := rfl
          refine ⟨core'', won, ?_, by rw [hsame, hsame']; exact hor⟩
          rw [requestVotes, hrun]
          exact hrun'

theorem one_lt_majority_iff {peers : List ℕ} : 1 < majority peers ↔ peers ≠ [] := by
  rw [majority, ← List.length_pos_iff]
  omega

/-- **When a round ends with a leader exactly if there is a majority**: if there is anyone to ask. -/
theorem elected_iff [InfallibleStorage σ] {core₀ : RaftCore σ μ}
    (hstart : core₀.startElection = .ok core)
    (hquiet : ∀ event ∈ events, core.QuietEvent event) :
    ∃ core' won, core.requestVotes events = .ok (core', won) ∧
      ((Elected core core' ↔ MajorityGranted core events) ↔ core.peers ≠ []) := by
  have hcore : core.Standing ∧ Tally core core [core.id] := by
    obtain ⟨s, -, rfl⟩ := startElection_ok hstart
    exact ⟨⟨rfl, rfl⟩, ⟨s, rfl⟩, List.nodup_singleton _⟩
  obtain ⟨hstanding, htally⟩ := hcore
  obtain ⟨core', won, hrun, hor⟩ := requestVotes_spec hstanding htally hquiet
  have hinsert : [core.id].toFinset ∪ granters events = insert core.id (granters events) := rfl
  rw [hinsert] at hor
  refine ⟨core', won, hrun, ?_⟩
  rcases hor with ⟨-, helected, hanswers, hmaj⟩ | ⟨-, votes', htally', hvotes', hlt⟩
  · have hpeers : core.peers ≠ [] := by
      intro hnil
      obtain ⟨peerId, hmem⟩ := List.exists_mem_of_ne_nil _ hanswers
      obtain ⟨event, hevent, hans⟩ := List.mem_filterMap.1 hmem
      cases event with
      | answer p result =>
          have hp := (hquiet _ hevent).1
          rw [hnil] at hp
          exact absurd hp List.not_mem_nil
      | call op => cases hans
    exact iff_of_true (iff_of_true helected hmaj) hpeers
  · have hnot : ¬ Elected core core' := by
      intro helected
      obtain ⟨s, rfl⟩ := htally'.same
      have := hstanding.state.symm.trans helected.state
      cases this
    have hcard : (insert core.id (granters events)).card = votes'.length := by
      rw [← hvotes', List.toFinset_card_of_nodup htally'.nodup]
    rw [← one_lt_majority_iff]
    constructor
    · intro hiff
      -- the node alone is not a majority
      have hless := mt hiff.2 hnot
      rw [MajorityGranted, hcard, not_le] at hless
      have hpos : 0 < votes'.length := by
        rw [← hcard]
        exact Finset.card_pos.2 (Finset.insert_nonempty _ _)
      exact lt_of_le_of_lt hpos hless
    · intro hpeers
      refine iff_of_false hnot ?_
      rw [MajorityGranted, hcard, not_le]
      exact hlt hpeers

/-- Node 1 in its first election. -/
def firstCandidate (peers : List ℕ) : RaftCore MemoryStorage Recorder where
  storage := ⟨1, some 1, [], none⟩
  stateMachine := Recorder.new
  currentTerm := 1
  votedFor := some 1
  log := []
  snapshotLastIndex := 0
  snapshotLastTerm := 0
  commitIndex := 0
  lastApplied := 0
  nextIndex := ∅
  matchIndex := ∅
  id := 1
  state := .candidate
  peers
  votesReceived := [1]
  currentLeader := none
  snapshotThreshold := 1000

theorem firstCandidate_started (peers : List ℕ) :
    ∃ core₀, RaftCore.new 1 peers MemoryStorage.new Recorder.new = .ok core₀ ∧
      core₀.startElection = .ok (firstCandidate peers) :=
  ⟨_, rfl, rfl⟩

theorem elected_iff_three :
    ∃ core' won, (firstCandidate [2, 3]).requestVotes
        [.answer 3 none, .answer 2 (some ⟨1, true⟩)] = .ok (core', won) ∧
      ((Elected (firstCandidate [2, 3]) core' ↔
        MajorityGranted (firstCandidate [2, 3]) [.answer 3 none, .answer 2 (some ⟨1, true⟩)]) ↔
        (firstCandidate [2, 3]).peers ≠ []) := by
  obtain ⟨core₀, -, hstart⟩ := firstCandidate_started [2, 3]
  refine elected_iff hstart fun event hevent => ?_
  simp only [List.mem_cons, List.not_mem_nil, or_false] at hevent
  rcases hevent with rfl | rfl
  · exact ⟨by decide, by simp⟩
  · exact ⟨by decide, by simp [firstCandidate]⟩

/-- A node without peers stays a candidate, though its own vote is a majority. -/
theorem alone_not_elected :
    (∃ core₀, RaftCore.new 1 [] MemoryStorage.new Recorder.new = .ok core₀ ∧
        core₀.startElection = .ok (firstCandidate [])) ∧
      (firstCandidate []).requestVotes [] = .ok (firstCandidate [], false) ∧
      (firstCandidate []).state = .candidate ∧ MajorityGranted (firstCandidate []) [] ∧
      ¬ (Elected (firstCandidate []) (firstCandidate []) ↔
        MajorityGranted (firstCandidate []) []) := by
  refine ⟨firstCandidate_started [], rfl, rfl, by decide, fun hiff => ?_⟩
  have := (hiff.2 (by decide)).state
  cases this

end RaftCore

end RaftVibe
