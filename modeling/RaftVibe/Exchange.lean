/-
**A leader and one follower, heartbeat by heartbeat.**

In a round the leader builds its message for the follower as `send_heartbeat` does, the follower
handles it, and the leader handles the answer.  This module says what one AppendEntries round does to
the two logical logs and to `next_index`; how many rounds it takes to catch up is the business of the
modules that follow.

Main definitions:

* `RaftVibe.RaftCore.Carries` — a node with a logical log, whose snapshot is applied;
* `RaftVibe.Pair.round`, `RaftVibe.Pair.rounds` — **the exchange**;
* `RaftVibe.Pair.Exchanging` — what holds between two rounds.

Main results:

* `RaftVibe.RaftCore.Carries.handleAppendEntries` — what a follower does with a request;
* `RaftVibe.RaftCore.Carries.handleAppendEntriesResult` — what a leader does with the answer;
* `RaftVibe.Pair.Exchanging.round` — **one round** is refused or merges the logs.
-/

import RaftVibe.RaftServer
import RaftVibe.Representation
import RaftVibe.LogicalLog

set_option relaxedAutoImplicit false
set_option autoImplicit false

namespace RaftVibe

open ReplicatedLog

namespace RaftCore

variable {σ μ : Type} {core core' : RaftCore σ μ} {L s : List LogEntry}

/-! ### A node with a logical log -/

/-- The node's two parts make up the log `L`, and what the snapshot covers is applied. -/
structure Carries (core : RaftCore σ μ) (L : List LogEntry) : Prop where
  log : core.Represents L
  applied : core.snapshotLastIndex ≤ core.lastApplied

/-- The vector, the snapshot boundary, and what decides about compaction are the same. -/
structure SameLog (core core' : RaftCore σ μ) : Prop where
  log : core'.log = core.log
  snapshotLastIndex : core'.snapshotLastIndex = core.snapshotLastIndex
  snapshotLastTerm : core'.snapshotLastTerm = core.snapshotLastTerm
  lastApplied : core'.lastApplied = core.lastApplied
  snapshotThreshold : core'.snapshotThreshold = core.snapshotThreshold

theorem Carries.congr (h : core.Carries L) (hs : SameLog core core') : core'.Carries L :=
  ⟨h.log.congr hs.log hs.snapshotLastIndex hs.snapshotLastTerm,
    by rw [hs.snapshotLastIndex, hs.lastApplied]; exact h.applied⟩

section Applying

variable [Storage σ] [Snapshotable μ] [InfallibleStorage σ]

/-- **Applying and compacting** keep the logical log, and without automatic snapshots the boundary,
too. -/
theorem Carries.applyCommittedEntries (h : core.Carries L) (hc : core.commitIndex ≤ L.length) :
    ∃ core' results, core.applyCommittedEntries = .ok (core', results) ∧ core'.Carries L ∧
      (core.snapshotThreshold = 0 → core'.snapshotLastIndex = core.snapshotLastIndex) := by
  obtain ⟨⟨core', results⟩, happly⟩ :=
    applyCommittedEntries_returns h.log.contiguous h.applied (h.log.lastLogIndex ▸ hc)
  refine ⟨core', results, happly, ?_⟩
  obtain ⟨es, -, -, -, hcore'⟩ := applyCommittedEntries_ok happly
  generalize hcore₁ : ({ core with
    lastApplied := max core.lastApplied core.commitIndex
    stateMachine := foldCommands core.stateMachine (es.map LogEntry.command) } :
      RaftCore σ μ) = core₁ at hcore'
  have hlog : core₁.Represents L := by
    rw [← hcore₁]
    exact h.log.congr rfl rfl rfl
  have happlied : core₁.snapshotLastIndex ≤ core₁.lastApplied := by
    rw [← hcore₁]
    exact h.applied.trans (le_max_left _ _)
  constructor
  · refine ⟨hcore' ▸ hlog.autoSnapshot, ?_⟩
    rw [hcore']
    rcases autoSnapshot_cases core₁ with heq | ⟨entry, data, -, -, -, heq⟩
    · rwa [heq]
    · rw [heq]
  · intro h0
    have h0' : core₁.snapshotThreshold = 0 := by rw [← hcore₁]; exact h0
    rw [hcore', autoSnapshot_of_threshold h0', ← hcore₁]

/-- Taking over the entries of a leader's log merges it into the node's. -/
theorem Carries.acceptEntries (h : core.Carries L) {args : AppendEntriesArgs} (hs : Indexed 0 s)
    (hm : LogMatching L s) (hprev : args.prevLogIndex ≤ s.length)
    (hpre : L.take args.prevLogIndex = s.take args.prevLogIndex)
    (hent : args.entries = s.drop args.prevLogIndex)
    (hcov : L.take (min core.snapshotLastIndex s.length) =
      s.take (min core.snapshotLastIndex s.length))
    (hcut : 0 < core.snapshotLastIndex →
      ∀ e ∈ args.entries, ¬ Conflicts core.snapshotLastIndex core.log e) :
    ∃ core', core.acceptEntries args = .ok core' ∧ core'.Carries (merge L s) ∧
      (core.snapshotThreshold = 0 → core'.snapshotLastIndex = core.snapshotLastIndex) := by
  obtain ⟨core₁, h₁⟩ := applyEntries_returns args.entries core
  obtain ⟨st, -, hcore₁⟩ := applyEntries_ok h₁
  have hc₁ : core₁.Carries (merge L s) := by
    rw [hent] at hcut hcore₁
    subst hcore₁
    exact ⟨h.log.takeOver hs hm hprev hpre hcov hcut rfl rfl rfl, h.applied⟩
  have hsli : core₁.snapshotLastIndex = core.snapshotLastIndex := by rw [hcore₁]
  have hthreshold : core₁.snapshotThreshold = core.snapshotThreshold := by rw [hcore₁]
  rw [RaftCore.acceptEntries, h₁]
  simp only [bind, Except.bind]
  split
  · have hcommit : Carries { core₁ with
        commitIndex := min args.leaderCommit core₁.lastLogIndex } (merge L s) :=
      hc₁.congr ⟨rfl, rfl, rfl, rfl, rfl⟩
    obtain ⟨core₂, results, happly, hc₂, h0⟩ :=
      hcommit.applyCommittedEntries (hc₁.log.lastLogIndex ▸ min_le_right _ _)
    rw [happly]
    exact ⟨core₂, rfl, hc₂, fun ht => (h0 (hthreshold.trans ht)).trans hsli⟩
  · exact ⟨core₁, rfl, hc₁, fun _ => hsli⟩

/-- **A follower on a request of a leader** that is no older: it refuses and keeps its log, or it
agrees with the leader up to `prev_log_index` and merges the leader's log into its own. -/
theorem Carries.handleAppendEntries (h : core.Carries L) {args : AppendEntriesArgs}
    (hterm : core.currentTerm ≤ args.term) (hs : Indexed 0 s) (hm : LogMatching L s)
    (hprev : args.prevLogIndex ≤ s.length)
    (hpt : args.prevLogTerm = lastTerm LogEntry.term (s.take args.prevLogIndex))
    (hent : args.entries = s.drop args.prevLogIndex)
    (hcov : L.take (min core.snapshotLastIndex s.length) =
      s.take (min core.snapshotLastIndex s.length))
    (hcut : L.take args.prevLogIndex = s.take args.prevLogIndex → 0 < core.snapshotLastIndex →
      ∀ e ∈ args.entries, ¬ Conflicts core.snapshotLastIndex core.log e) :
    ∃ core' out, core.handleAppendEntries args = .ok (core', out) ∧
      core'.currentTerm = args.term ∧ out.result.term = args.term ∧
      ((out.result.success = false ∧ SameLog core core' ∧
          core'.Hint args.prevLogIndex args.prevLogTerm out.result.conflictTerm
            out.result.conflictIndex) ∨
        (out.result.success = true ∧ L.take args.prevLogIndex = s.take args.prevLogIndex ∧
          core'.Carries (merge L s) ∧ core'.snapshotThreshold = core.snapshotThreshold ∧
          (core.snapshotThreshold = 0 → core'.snapshotLastIndex = core.snapshotLastIndex))) := by
  obtain ⟨core₁, h₁⟩ := observeTerm_returns core args.term
  have hterm₁ : core₁.currentTerm = args.term := by
    rw [observeTerm_currentTerm h₁, max_eq_right hterm]
  rcases handleAppendEntries_cases h₁ with ⟨hlt, -⟩ | ⟨-, core₂, h₂, hor⟩
  · exact absurd hlt (by omega)
  · have hterm₂ : core₂.currentTerm = args.term := by rw [h₂]; exact hterm₁
    have hsame : SameLog core core₂ := by
      subst h₂
      rcases observeTerm_ok h₁ with ⟨-, rfl⟩ | ⟨-, st, -, rfl⟩ <;> exact ⟨rfl, rfl, rfl, rfl, rfl⟩
    rcases hor with ⟨out, heq, ht, hfail, hhint⟩ | ⟨hp, heq⟩
    · exact ⟨core₂, out, heq, hterm₂, ht, Or.inl ⟨hfail, hsame, hhint⟩⟩
    · have hc₂ := h.congr hsame
      have hpre : L.take args.prevLogIndex = s.take args.prevLogIndex := by
        rcases Nat.eq_zero_or_pos args.prevLogIndex with h0 | hpos
        · rw [h0, List.take_zero, List.take_zero]
        · obtain ⟨-, hle, hlast⟩ := (hc₂.log.prevMatches_iff hpos).1 hp
          exact hm.take_eq hle hprev hpos (hlast.trans hpt)
      rw [← hsame.snapshotLastIndex] at hcov hcut
      rw [← hsame.log] at hcut
      obtain ⟨core₃, hacc, hc₃, h0⟩ := hc₂.acceptEntries hs hm hprev hpre hent hcov (hcut hpre)
      have hframe : core₃.currentTerm = args.term ∧
          core₃.snapshotThreshold = core.snapshotThreshold := by
        obtain ⟨_, _, _, _, _, _, _, rfl⟩ := acceptEntries_eq hacc
        exact ⟨hterm₂, hsame.snapshotThreshold⟩
      rw [heq, hacc]
      refine ⟨core₃, _, rfl, hframe.1, hframe.1, Or.inr ⟨rfl, hpre, hc₃, hframe.2, fun ht => ?_⟩⟩
      exact (h0 (hsame.snapshotThreshold.trans ht)).trans hsame.snapshotLastIndex

end Applying

/-! ### The leader's bookkeeping -/

/-- Whatever the answer is, `next_index` stays within the log and the place behind it. -/
theorem recordAppendResult_next_mem (core : RaftCore σ μ) (peerId : ℕ) {entryIndex n : ℕ}
    (result : AppendEntriesResult) (hpos : 1 ≤ core.nextIndex.getD peerId 1)
    (hle : core.nextIndex.getD peerId 1 ≤ n + 1) (hi : entryIndex ≤ n) :
    1 ≤ (core.recordAppendResult peerId entryIndex result).nextIndex.getD peerId 1 ∧
      (core.recordAppendResult peerId entryIndex result).nextIndex.getD peerId 1 ≤ n + 1 := by
  cases hsuccess : result.success with
  | true =>
      rw [recordAppendResult_success core peerId entryIndex hsuccess]
      split
      · exact ⟨Nat.le_add_left 1 entryIndex, Nat.succ_le_succ hi⟩
      · exact ⟨hpos, hle⟩
  | false =>
      rw [recordAppendResult_rejected core peerId entryIndex hsuccess, IndexMap.getD_insert_self]
      omega

/-- What `match_index` shows on a majority of the last entry, if it is the leader's own, is
committed. -/
def Settled (core : RaftCore σ μ) : Prop :=
  (core.getLogEntry core.lastLogIndex).map LogEntry.term = some core.currentTerm →
    (1 + core.peers.length) / 2 + 1 ≤ core.replicatedCount core.lastLogIndex →
    core.lastLogIndex ≤ core.commitIndex

instance (core : RaftCore σ μ) : Decidable core.Settled := inferInstanceAs (Decidable (_ → _ → _))

/-- A rejection of the last entry gives a settled leader nothing to commit: `match_index` stays. -/
theorem Settled.not_commitsEntry {peerId : ℕ} {result : AppendEntriesResult}
    (h : core.Settled) (hfail : result.success = false) :
    ¬ (core.recordAppendResult peerId core.lastLogIndex result).CommitsEntry core.lastLogIndex := by
  rw [recordAppendResult_rejected core peerId core.lastLogIndex hfail]
  rintro ⟨-, hown, hmaj, hlt⟩
  exact Nat.not_lt.2 (h hown hmaj) hlt

/-- What a leader that carries `L` has become by the answer of a peer. -/
structure Answered (core : RaftCore σ μ) (L : List LogEntry) (peerId entryIndex : ℕ)
    (result : AppendEntriesResult) (core' : RaftCore σ μ) : Prop where
  leading : core'.state = .leader
  term : core'.currentTerm = core.currentTerm
  nextIndex : core'.nextIndex = (core.recordAppendResult peerId entryIndex result).nextIndex
  carries : core'.Carries L
  threshold : core'.snapshotThreshold = core.snapshotThreshold
  boundary : core.snapshotThreshold = 0 → core'.snapshotLastIndex = core.snapshotLastIndex
  settled : result.success = false → (0 < entryIndex → entryIndex = L.length) → core.Settled →
    core' = core.recordAppendResult peerId entryIndex result

section Replying

variable [Storage σ] [Snapshotable μ] [InfallibleStorage σ]

/-- **A leader on an answer** of its own term: `next_index` is moved, and the log stays.  A leader
that has committed what it can does nothing else on a rejection. -/
theorem Carries.handleAppendEntriesResult (h : core.Carries L) (hlead : core.state = .leader)
    (peerId : ℕ) {entryIndex : ℕ} {result : AppendEntriesResult}
    (hterm : result.term = core.currentTerm) (hi : entryIndex ≤ L.length) :
    ∃ core' r, core.handleAppendEntriesResult peerId entryIndex result = .ok (core', r) ∧
      core.Answered L peerId entryIndex result core' := by
  obtain ⟨next, matchIndex, hrec, -, -⟩ := recordAppendResult_eq core peerId entryIndex result
  generalize hcore₂ : core.recordAppendResult peerId entryIndex result = core₂ at hrec
  have hc₂ : core₂.Carries L := h.congr (by rw [hrec]; exact ⟨rfl, rfl, rfl, rfl, rfl⟩)
  have hlead₂ : core₂.state = .leader := by rw [hrec]; exact hlead
  have hterm₂ : core₂.currentTerm = core.currentTerm := by rw [hrec]
  have hthreshold₂ : core₂.snapshotThreshold = core.snapshotThreshold := by rw [hrec]
  have hsli₂ : core₂.snapshotLastIndex = core.snapshotLastIndex := by rw [hrec]
  rcases handleAppendEntriesResult_of_leader hlead hterm.le hcore₂.symm with
    ⟨hcommits, hrun⟩ | ⟨-, hrun⟩
  · have hcommit : Carries { core₂ with commitIndex := entryIndex } L :=
      hc₂.congr ⟨rfl, rfl, rfl, rfl, rfl⟩
    obtain ⟨core₃, results, happly, hc₃, h0⟩ := hcommit.applyCommittedEntries hi
    have hframe : core₃.state = .leader ∧ core₃.currentTerm = core.currentTerm ∧
        core₃.nextIndex = core₂.nextIndex ∧
        core₃.snapshotThreshold = core.snapshotThreshold := by
      obtain ⟨_, _, _, _, _, _, rfl⟩ := applyCommittedEntries_eq happly
      exact ⟨hlead₂, hterm₂, rfl, hthreshold₂⟩
    rw [happly] at hrun
    refine ⟨core₃, _, hrun, hframe.1, hframe.2.1, hcore₂ ▸ hframe.2.2.1, hc₃, hframe.2.2.2,
      fun ht => (h0 (hthreshold₂.trans ht)).trans hsli₂, fun hfail hlen hsettled => ?_⟩
    -- nothing is committed on a rejection
    have hlast : core.lastLogIndex = entryIndex := h.log.lastLogIndex.trans (hlen hcommits.1).symm
    refine absurd hcommits ?_
    rw [← hcore₂, ← hlast]
    exact hsettled.not_commitsEntry hfail
  · exact ⟨core₂, _, hrun, hlead₂, hterm₂, hcore₂ ▸ rfl, hc₂, hthreshold₂, fun _ => hsli₂,
      fun _ _ _ => hcore₂.symm⟩

end Replying

end RaftCore

/-! ### Rounds -/

/-- A leader and one of its followers. -/
structure Pair (σ μ : Type) where
  leader : RaftCore σ μ
  follower : RaftCore σ μ

/-- A round: the two nodes before it, the answer if there was one, and the two nodes after it. -/
structure Round (σ μ : Type) where
  source : Pair σ μ
  reply : Option Reply
  target : Pair σ μ

/-- Whether the follower accepted or refused an AppendEntries request. -/
def Round.success {σ μ : Type} (r : Round σ μ) : Option Bool :=
  match r.reply with
  | some (.appendEntries result) => some result.success
  | _ => none

namespace Pair

variable {σ μ : Type}

/-- The leader's `next_index` for the follower. -/
def next (p : Pair σ μ) (peer : ℕ) : ℕ := p.leader.nextIndex.getD peer 1

section Rounds

variable [Storage σ] [Snapshotable μ]

/-- `send_heartbeat`, on the answer to the request it has sent to the peer. -/
def handleReply (leader : RaftCore σ μ) (peer : ℕ) :
    Request → Reply → Except (Panic σ) (RaftCore σ μ)
  | .appendEntries args, .appendEntries result => do
      let (leader, _) ← leader.handleAppendEntriesResult peer args.lastEntryIndex result
      return leader
  | .installSnapshot args, .installSnapshot result =>
      .ok (leader.handleInstallSnapshotResult peer args.lastIncludedIndex result)
  | _, _ => .ok leader

/-- **One round**: only leaders send heartbeats, and only if there is something to send. -/
def round (p : Pair σ μ) (peer : ℕ) : Except (Panic σ) (Round σ μ) :=
  if p.leader.state ≠ .leader then .ok ⟨p, none, p⟩
  else
    match p.leader.heartbeatRequest peer with
    | none => .ok ⟨p, none, p⟩
    | some request => do
        let (follower, reply) ← Server.receive p.follower request
        let leader ← handleReply p.leader peer request reply
        return ⟨p, some reply, ⟨leader, follower⟩⟩

/-- A number of rounds, one after the other, and the two nodes after them. -/
def rounds (peer : ℕ) : ℕ → Pair σ μ → Except (Panic σ) (List (Round σ μ) × Pair σ μ)
  | 0, p => .ok ([], p)
  | n + 1, p => do
      let r ← p.round peer
      let (rs, p') ← rounds peer n r.target
      return (r :: rs, p')

theorem rounds_succ {peer n : ℕ} {p p' : Pair σ μ} {r : Round σ μ} {rs : List (Round σ μ)}
    (hr : p.round peer = .ok r) (hrs : rounds peer n r.target = .ok (rs, p')) :
    rounds peer (n + 1) p = .ok (r :: rs, p') := by
  rw [rounds, hr]
  simp only [bind, Except.bind]
  rw [hrs]
  rfl

end Rounds

/-- **What holds between two rounds**: a leader with the log `L` and a follower with the log `F`,
no newer than the leader; the logs match, and `next_index` is within the leader's log. -/
structure Exchanging (peer : ℕ) (L F : List LogEntry) (p : Pair σ μ) : Prop where
  leading : p.leader.state = .leader
  leader : p.leader.Carries L
  follower : p.follower.Carries F
  term_le : p.follower.currentTerm ≤ p.leader.currentTerm
  matching : RaftCore.LogMatching F L
  next_pos : 1 ≤ p.next peer
  next_le : p.next peer ≤ L.length + 1

/-- A round in which the follower refuses: its log stays, `next_index` goes down along the hint,
and a leader that has committed what it can changes nothing else. -/
structure Refused (peer : ℕ) (L F : List LogEntry) (r : Round σ μ) : Prop where
  success : r.success = some false
  target : r.target.Exchanging peer L F
  follower : RaftCore.SameLog r.source.follower r.target.follower
  next_lt : r.target.next peer < r.source.next peer
  hint : ∃ conflictTerm conflictIndex,
    r.target.follower.Hint (r.source.next peer - 1)
      (lastTerm LogEntry.term (L.take (r.source.next peer - 1))) conflictTerm conflictIndex ∧
    r.target.next peer =
      min (max (r.source.leader.hintedNext peer conflictTerm conflictIndex) 1)
        (r.source.next peer - 1)
  threshold : r.target.leader.snapshotThreshold = r.source.leader.snapshotThreshold
  boundary : r.source.leader.snapshotThreshold = 0 →
    r.target.leader.snapshotLastIndex = r.source.leader.snapshotLastIndex
  settled : r.source.leader.Settled →
    ∃ next, r.target.leader = { r.source.leader with nextIndex := next }

/-- A round in which the follower agrees up to `next_index`, and takes the leader's log over. -/
structure Merged (peer : ℕ) (L F : List LogEntry) (r : Round σ μ) : Prop where
  success : r.success = some true
  agrees : F.take (r.source.next peer - 1) = L.take (r.source.next peer - 1)
  target : r.target.Exchanging peer L (merge F L)
  threshold : r.target.leader.snapshotThreshold = r.source.leader.snapshotThreshold ∧
    r.target.follower.snapshotThreshold = r.source.follower.snapshotThreshold
  boundary : r.source.leader.snapshotThreshold = 0 → r.source.follower.snapshotThreshold = 0 →
    r.target.leader.snapshotLastIndex = r.source.leader.snapshotLastIndex ∧
      r.target.follower.snapshotLastIndex = r.source.follower.snapshotLastIndex

/-- Where the logs agree up to `next_index`, above the follower's snapshot, it does not refuse. -/
theorem Refused.not_agree {peer : ℕ} {L F : List LogEntry} {r : Round σ μ}
    (h : Refused peer L F r) (hsrc : r.source.Exchanging peer L F)
    (hle : r.source.follower.snapshotLastIndex ≤ r.source.next peer - 1)
    (hagree : F.take (r.source.next peer - 1) = L.take (r.source.next peer - 1)) : False := by
  obtain ⟨_, _, hhint, -⟩ := h.hint
  obtain ⟨hpos, hno⟩ := hhint.not_prevMatches
  have hnext := hsrc.next_le
  have hlen := congrArg List.length hagree
  rw [List.length_take, List.length_take] at hlen
  refine hno ((h.target.follower.log.prevMatches_iff hpos).2 ⟨?_, by omega, by rw [hagree]⟩)
  rwa [h.follower.snapshotLastIndex]

section Step

variable [Storage σ] [Snapshotable μ] {peer : ℕ} {L F : List LogEntry} {p : Pair σ μ}

omit [Snapshotable μ] in
/-- The message to a follower that does not need the snapshot. -/
theorem Exchanging.heartbeatRequest (h : p.Exchanging peer L F)
    (hS : p.leader.snapshotLastIndex < p.next peer) :
    ∃ args, p.leader.heartbeatRequest peer = some (.appendEntries args) ∧
      args.term = p.leader.currentTerm ∧ args.prevLogIndex = p.next peer - 1 ∧
      args.prevLogTerm = lastTerm LogEntry.term (L.take (p.next peer - 1)) ∧
      args.entries = L.drop (p.next peer - 1) ∧
      args.lastEntryIndex = if p.next peer ≤ L.length then L.length else 0 := by
  have hnext : p.leader.nextIndex.getD peer 1 = p.next peer := rfl
  have hle := h.next_le
  have hpos := h.next_pos
  have hent : (p.leader.log.filter fun e => p.next peer ≤ e.index) = L.drop (p.next peer - 1) := by
    rw [h.leader.log.filter_from, max_eq_right (by omega)]
  refine ⟨p.leader.appendEntriesArgs peer (L.drop (p.next peer - 1)), ?_, rfl, rfl, ?_, rfl, ?_⟩
  · simp only [RaftCore.heartbeatRequest, hnext]
    rw [if_neg (Nat.not_le.2 hS), hent]
  · exact h.leader.log.prevLogTerm (by omega) (by omega)
  · unfold AppendEntriesArgs.lastEntryIndex RaftCore.appendEntriesArgs
    simp only [List.getLast?_drop]
    split
    · rename_i entry hlast
      split at hlast
      · simp at hlast
      · rw [if_pos (by omega)]
        rw [List.getLast?_eq_getElem?] at hlast
        have hlen := (List.getElem?_eq_some_iff.1 hlast).1
        have := h.leader.log.indexed _ _ hlast
        omega
    · rename_i hlast
      split at hlast
      · rw [if_neg (by omega)]
      · rw [List.getLast?_eq_none_iff] at hlast
        simp [hlast]

omit [Storage σ] [Snapshotable μ] in
/-- The two nodes after a round, given what became of each. -/
theorem Exchanging.answered (h : p.Exchanging peer L F) {follower leader : RaftCore σ μ}
    {F' : List LogEntry} {entryIndex : ℕ} {result : AppendEntriesResult}
    (hfollower : follower.Carries F') (hterm : follower.currentTerm = p.leader.currentTerm)
    (hmatching : RaftCore.LogMatching F' L)
    (hleader : p.leader.Answered L peer entryIndex result leader) (hi : entryIndex ≤ L.length) :
    (Pair.mk leader follower).Exchanging peer L F' := by
  obtain ⟨hpos, hle⟩ :=
    RaftCore.recordAppendResult_next_mem p.leader peer result h.next_pos h.next_le hi
  rw [← hleader.nextIndex] at hpos hle
  exact ⟨hleader.leading, hleader.carries, hfollower, (hterm.trans hleader.term.symm).le,
    hmatching, hpos, hle⟩

variable [InfallibleStorage σ]

/-- **One round of AppendEntries** is refused, or merges the leader's log into the follower's. -/
theorem Exchanging.round (h : p.Exchanging peer L F)
    (hS : p.leader.snapshotLastIndex < p.next peer)
    (hcov : F.take (min p.follower.snapshotLastIndex L.length) =
      L.take (min p.follower.snapshotLastIndex L.length))
    (hcut : F.take (p.next peer - 1) = L.take (p.next peer - 1) →
      0 < p.follower.snapshotLastIndex → ∀ e ∈ L.drop (p.next peer - 1),
        ¬ Conflicts p.follower.snapshotLastIndex p.follower.log e) :
    ∃ r, p.round peer = .ok r ∧ r.source = p ∧ (Refused peer L F r ∨ Merged peer L F r) := by
  have hnext : p.leader.nextIndex.getD peer 1 = p.next peer := rfl
  have hle := h.next_le
  obtain ⟨args, hreq, hterm, hprev, hpt, hent, hlast⟩ := h.heartbeatRequest hS
  rw [← hprev] at hpt hent hcut
  rw [← hent] at hcut
  obtain ⟨follower, out, hfollower, hfterm, hrterm, hor⟩ :=
    h.follower.handleAppendEntries (hterm.symm ▸ h.term_le) h.leader.log.indexed h.matching
      (by omega) hpt hent hcov hcut
  have hi : args.lastEntryIndex ≤ L.length := by
    rw [hlast]
    split <;> omega
  obtain ⟨leader, res, hleader, hans⟩ :=
    h.leader.handleAppendEntriesResult h.leading peer (hrterm.trans hterm) hi
  refine ⟨⟨p, some (.appendEntries out.result), ⟨leader, follower⟩⟩, ?_, rfl, ?_⟩
  · rw [Pair.round, if_neg (not_not.2 h.leading), hreq]
    simp only [Server.receive, hfollower, handleReply, hleader, bind, Except.bind, pure,
      Except.pure]
  · rcases hor with ⟨hfail, hsame, hhint⟩ | ⟨hsucc, hagree, hmerge, hfthreshold, hfboundary⟩
    · left
      have hpos := hhint.not_prevMatches.1
      have hrec := RaftCore.recordAppendResult_rejected p.leader peer args.lastEntryIndex hfail
      have hnew : leader.nextIndex.getD peer 1 =
          min (max (p.leader.hintedNext peer out.result.conflictTerm out.result.conflictIndex) 1)
            (p.next peer - 1) := by
        rw [hans.nextIndex, hrec, IndexMap.getD_insert_self, hnext]
        omega
      have hlt : leader.nextIndex.getD peer 1 < p.next peer := by omega
      -- a request with entries goes up to the end of the log
      have hend : 0 < args.lastEntryIndex → args.lastEntryIndex = L.length := by
        intro hpos
        rw [hlast] at hpos ⊢
        split at hpos
        · rename_i hin
          rw [if_pos hin]
        · omega
      rw [hprev, hpt, hprev] at hhint
      exact ⟨congrArg some hfail, h.answered (h.follower.congr hsame) (hfterm.trans hterm)
        h.matching hans hi, hsame, hlt, ⟨_, _, hhint, hnew⟩, hans.threshold, hans.boundary,
        fun hset => ⟨_, (hans.settled hfail hend hset).trans hrec⟩⟩
    · right
      have hmatch : RaftCore.LogMatching (merge F L) L := by
        rcases merge_eq_or F L with heq | heq <;> rw [heq]
        · exact h.matching
        · exact RaftCore.LogMatching.refl L
      rw [hprev] at hagree
      exact ⟨congrArg some hsucc, hagree, h.answered hmerge (hfterm.trans hterm) hmatch hans hi,
        ⟨hans.threshold, hfthreshold⟩, fun hl hf => ⟨hans.boundary hl, hfboundary hf⟩⟩

end Step

end Pair

end RaftVibe
