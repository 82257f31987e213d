/-
**The leader's books.**

For each peer a leader keeps the next index to send and the highest index that it knows to be there.
The next index should stay above the other one, and within the log.  Three kinds of answers write
them.  A success raises the highest known index only, but sets the next index to what it was sent
for, also if it comes late.  A rejection follows the hint below what is known: a follower that has
compacted entries it never acknowledged gives such a hint.  An installed snapshot sets both.

Main definitions:

* `RaftVibe.RaftCore.InRange`, `RaftVibe.RaftCore.Bookkept` — the books of a peer, and of a leader;
* `RaftVibe.RaftCore.BooksKept` — a step after which they are in order, and which takes nothing back;
* `RaftVibe.RaftCore.KeepsBooks` — the condition on a call and the state before it.

Main results:

* `RaftVibe.RaftCore.outcome` — **what a call does to the books**;
* `RaftVibe.RaftCore.books_kept` — when they are in order in every state of a run.
-/

import Mathlib
import RaftVibe.MachineRange

set_option relaxedAutoImplicit false
set_option autoImplicit false

namespace RaftVibe

open Runs

namespace RaftCore

variable {σ μ : Type}

/-- **The books of a peer are in range.** -/
structure InRange (core : RaftCore σ μ) (peer : ℕ) : Prop where
  one_le : 1 ≤ core.nextIndex.getD peer 1
  le_last : core.nextIndex.getD peer 1 ≤ core.lastLogIndex + 1
  match_lt : core.matchIndex.getD peer 0 < core.nextIndex.getD peer 1

/-- A leader has the books of all its peers in range. -/
def Bookkept (core : RaftCore σ μ) : Prop :=
  core.state = .leader → ∀ peer ∈ core.peers, core.InRange peer

/-- **A step keeps the books**: they are in range after it, and a leader that goes on in its term
takes nothing back that it knew to be replicated. -/
structure BooksKept (core core' : RaftCore σ μ) : Prop where
  bookkept : core'.Bookkept
  match_le : core.state = .leader → core'.state = .leader →
    core'.currentTerm = core.currentTerm →
    ∀ peer ∈ core.peers, core.matchIndex.getD peer 0 ≤ core'.matchIndex.getD peer 0

/-! ### The condition -/

/-- The hint of a rejection lies above an index: the last entry of the conflicting term does, or the
index that is named. -/
def HintAbove (core : RaftCore σ μ) (result : AppendEntriesResult) (index : ℕ) : Prop :=
  match result.conflictTerm with
  | some conflictTerm =>
      match core.findLastIndexForTerm conflictTerm with
      | some idx => index ≤ idx
      | none => ∃ conflictIndex ∈ result.conflictIndex, index < conflictIndex
  | none => ∀ conflictIndex ∈ result.conflictIndex, index < conflictIndex

/-- **An answer that fits the books**: a success for an entry of the log that is not below what is
known, or a rejection that neither its hint nor the cap turns into one. -/
def AnswerFits (core : RaftCore σ μ) (peerId entryIndex : ℕ) (result : AppendEntriesResult) : Prop :=
  if result.success then
    0 < entryIndex →
      core.matchIndex.getD peerId 0 ≤ entryIndex ∧ entryIndex ≤ core.lastLogIndex
  else
    0 < core.matchIndex.getD peerId 0 →
      core.HintAbove result (core.matchIndex.getD peerId 0) ∧
        core.matchIndex.getD peerId 0 + 1 < core.nextIndex.getD peerId 1

/-- **A call that keeps the books.**  Only the answers of peers to a leader can break them, and
`become_leader` on a leader. -/
def KeepsBooks (core : RaftCore σ μ) : Op → Prop
  | .becomeLeader =>
      core.state = .leader → ∀ peer ∈ core.peers, core.matchIndex.getD peer 0 = 0
  | .appendEntriesResult peerId entryIndex result =>
      core.state = .leader → result.term ≤ core.currentTerm → peerId ∈ core.peers →
        core.AnswerFits peerId entryIndex result
  | .installSnapshotResult peerId lastIncludedIndex (.success _) =>
      core.state = .leader → peerId ∈ core.peers →
        core.matchIndex.getD peerId 0 ≤ lastIncludedIndex ∧
          lastIncludedIndex ≤ core.lastLogIndex
  | _ => True

instance (core : RaftCore σ μ) (result : AppendEntriesResult) (index : ℕ) :
    Decidable (core.HintAbove result index) := by
  unfold HintAbove
  cases result.conflictTerm with
  | some conflictTerm =>
      dsimp only
      cases core.findLastIndexForTerm conflictTerm <;> dsimp only <;> infer_instance
  | none =>
      dsimp only
      infer_instance

instance (core : RaftCore σ μ) (peerId entryIndex : ℕ) (result : AppendEntriesResult) :
    Decidable (core.AnswerFits peerId entryIndex result) := by
  unfold AnswerFits
  cases result.success <;> infer_instance

instance (core : RaftCore σ μ) : (op : Op) → Decidable (core.KeepsBooks op)
  | .becomeLeader => by unfold KeepsBooks; infer_instance
  | .appendEntriesResult .. => by unfold KeepsBooks; infer_instance
  | .installSnapshotResult _ _ (.success _) => by unfold KeepsBooks; infer_instance
  | .installSnapshotResult _ _ (.failed ..) => isTrue trivial
  | .requestVote _ | .appendEntries _ | .installSnapshot _ | .startElection | .appendLogEntry _
  | .applyCommittedEntries | .takeSnapshot | .requestVoteResult .. | .confirmResult _ =>
      isTrue trivial

/-! ### Recording an answer -/

section Recording

variable (core : RaftCore σ μ) (peerId entryIndex : ℕ) (result : AppendEntriesResult) {peer : ℕ}

theorem recordAppendResult_lastLogIndex :
    (core.recordAppendResult peerId entryIndex result).lastLogIndex = core.lastLogIndex := by
  obtain ⟨_, _, heq, -⟩ := recordAppendResult_eq core peerId entryIndex result
  rw [heq]
  rfl

/-- Recording an answer takes nothing back. -/
theorem recordAppendResult_match_le :
    core.matchIndex.getD peer 0 ≤
      (core.recordAppendResult peerId entryIndex result).matchIndex.getD peer 0 := by
  by_cases hp : peer = peerId
  · obtain ⟨_, match', heq, hmatch, -⟩ := recordAppendResult_eq core peerId entryIndex result
    rw [heq, hp]
    rcases hmatch with rfl | ⟨-, hlt, rfl⟩
    · exact le_rfl
    · exact (Nat.le_of_lt hlt).trans (IndexMap.getD_insert_self _ _ _ _).ge
  · rw [(recordAppendResult_ne core peerId entryIndex result hp).2]

/-- The next index only grows to what the answer is for. -/
theorem recordAppendResult_next_le (h : core.InRange peerId) :
    (core.recordAppendResult peerId entryIndex result).nextIndex.getD peerId 1 ≤
      max (entryIndex + 1) (core.nextIndex.getD peerId 1) := by
  have hone := h.one_le
  cases hsucc : result.success with
  | true =>
      rw [recordAppendResult_success core peerId entryIndex hsucc]
      split
      · exact Nat.le_max_left _ _
      · exact Nat.le_max_right _ _
  | false =>
      rw [recordAppendResult_rejected core peerId entryIndex hsucc, IndexMap.getD_insert_self]
      omega

/-- Whether a hint leads above an index, when the cap does. -/
theorem lt_hintedNext_iff {index : ℕ} (hpos : 0 < index)
    (hcap : index + 1 < core.nextIndex.getD peerId 1) :
    index < core.hintedNext peerId result.conflictTerm result.conflictIndex ↔
      core.HintAbove result index := by
  unfold hintedNext HintAbove
  cases result.conflictTerm with
  | some conflictTerm =>
      simp only
      cases core.findLastIndexForTerm conflictTerm with
      | some idx => exact Nat.lt_succ_iff
      | none =>
          cases result.conflictIndex with
          | some conflictIndex => simp
          | none =>
              simp only [Option.getD_none, Option.mem_def, reduceCtorEq, false_and, exists_false,
                iff_false]
              omega
  | none =>
      cases result.conflictIndex with
      | some conflictIndex => simp
      | none =>
          simp only [Option.mem_def, reduceCtorEq, false_implies, implies_true, iff_true]
          omega

/-- **Recording an answer keeps the books of its peer exactly if it fits.** -/
theorem recordAppendResult_inRange_iff (h : core.InRange peerId) :
    (core.recordAppendResult peerId entryIndex result).InRange peerId ↔
      core.AnswerFits peerId entryIndex result := by
  obtain ⟨hone, hlast, hmatch⟩ := h
  unfold AnswerFits
  cases hsucc : result.success with
  | true =>
      have hm := recordAppendResult_getD core peerId entryIndex hsucc
      rw [if_pos rfl]
      by_cases hpos : 0 < entryIndex
      · have hn := recordAppendResult_success core peerId entryIndex hsucc
        rw [if_pos hpos] at hn
        constructor
        · rintro ⟨-, hle, hlt⟩ -
          rw [recordAppendResult_lastLogIndex] at hle
          omega
        · intro hfit
          obtain ⟨hge, hle⟩ := hfit hpos
          refine ⟨?_, ?_, ?_⟩
          · omega
          · rw [recordAppendResult_lastLogIndex]
            omega
          · omega
      · refine iff_of_true ?_ fun h => absurd h hpos
        unfold recordAppendResult
        rw [if_pos hsucc, if_neg hpos]
        exact ⟨hone, hlast, hmatch⟩
  | false =>
      have hhint := @lt_hintedNext_iff σ μ core peerId result (core.matchIndex.getD peerId 0)
      rw [if_neg Bool.false_ne_true, recordAppendResult_rejected core peerId entryIndex hsucc]
      generalize core.hintedNext peerId result.conflictTerm result.conflictIndex = next at hhint ⊢
      have hn := IndexMap.getD_insert_self core.nextIndex peerId
        (min (max next 1) (max (core.nextIndex.getD peerId 1 - 1) 1)) 1
      constructor
      · rintro ⟨-, -, hlt⟩ hpos
        simp only [hn] at hlt
        have hcap : core.matchIndex.getD peerId 0 + 1 < core.nextIndex.getD peerId 1 := by omega
        exact ⟨(hhint hpos hcap).1 (by omega), hcap⟩
      · intro hfit
        refine ⟨?_, ?_, ?_⟩
        · simp only [hn]
          omega
        · show IndexMap.getD _ peerId 1 ≤ core.lastLogIndex + 1
          rw [hn]
          omega
        · simp only [hn]
          rcases Nat.eq_zero_or_pos (core.matchIndex.getD peerId 0) with h0 | hpos
          · rw [h0]
            omega
          · obtain ⟨habove, hcap⟩ := hfit hpos
            have := (hhint hpos hcap).2 habove
            omega

end Recording

/-! ### The last index -/

section LastIndex

variable {core core' : RaftCore σ μ} {n : ℕ}

theorem lastLogIndex_of_concat {l : List LogEntry} {e : LogEntry} (h : core.log = l ++ [e]) :
    core.lastLogIndex = e.index := by
  simp [lastLogIndex, h]

/-- Appending the next entry. -/
theorem lastLogIndex_of_append {e : LogEntry} (h : core'.log = core.log ++ [e])
    (he : e.index = core.lastLogIndex + 1) : core'.lastLogIndex = core.lastLogIndex + 1 :=
  (lastLogIndex_of_concat h).trans he

/-- Cutting the log off at `n` never lowers its last index: the last entry stays if it is above, and
else the last index is at least `n`. -/
theorem lastLogIndex_le_of_filter (h : core.log = [] → core.snapshotLastIndex ≤ n)
    (hlog : core'.log = core.log.filter fun e => e.index > n) (hsnap : core'.snapshotLastIndex = n) :
    core.lastLogIndex ≤ core'.lastLogIndex := by
  rcases List.eq_nil_or_concat' core.log with hnil | ⟨l, e, hl⟩
  · rw [lastLogIndex_of_nil hnil, lastLogIndex_of_nil (by rw [hlog, hnil, List.filter_nil]), hsnap]
    exact h hnil
  · rw [lastLogIndex_of_concat hl]
    rw [hl, List.filter_append] at hlog
    by_cases he : e.index > n
    · rw [List.filter_cons_of_pos (by simpa using he), List.filter_nil] at hlog
      rw [lastLogIndex_of_concat hlog]
    · have hn : n ≤ core'.lastLogIndex := by
        rcases List.eq_nil_or_concat' core'.log with hnil | ⟨l', e', hl'⟩
        · rw [lastLogIndex_of_nil hnil, hsnap]
        · rw [lastLogIndex_of_concat hl']
          have hmem : e' ∈ core'.log := by simp [hl']
          rw [hlog, ← List.filter_append, List.mem_filter, decide_eq_true_iff] at hmem
          exact Nat.le_of_lt hmem.2
      exact Nat.le_trans (not_lt.1 he) hn

/-- What a snapshot does to the two parts of the log never lowers the last index. -/
theorem lastLogIndex_le_of_snapshot
    (h : (core'.snapshotLastIndex = core.snapshotLastIndex ∧ core'.log = core.log) ∨
      (core.snapshotLastIndex < n ∧ (∃ entry, core.getLogEntry n = some entry) ∧
        core'.snapshotLastIndex = n ∧
        (core'.log = core.log ∨ core'.log = core.log.filter fun e => e.index > n))) :
    core.lastLogIndex ≤ core'.lastLogIndex := by
  rcases h with ⟨hsnap, hlog⟩ | ⟨hlt, ⟨entry, he⟩, hsnap, hlog | hlog⟩
  · rw [lastLogIndex, lastLogIndex, hsnap, hlog]
  · -- the vector has an entry, so its last index does not come from the snapshot
    rcases List.eq_nil_or_concat' core.log with hnil | ⟨l, e, hl⟩
    · obtain ⟨-, he⟩ := getLogEntry_eq_some.1 he
      rw [hnil] at he
      cases he
    · rw [lastLogIndex_of_concat hl, lastLogIndex_of_concat (hlog.trans hl)]
  · exact lastLogIndex_le_of_filter (fun _ => Nat.le_of_lt hlt) hlog hsnap

variable [Storage σ] [Snapshotable μ]

theorem applyCommittedEntries_lastLogIndex_le {results : List (ℕ × ApplyResult)}
    (h : core.applyCommittedEntries = .ok (core', results)) :
    core.lastLogIndex ≤ core'.lastLogIndex := by
  obtain ⟨es, -, -, -, rfl⟩ := applyCommittedEntries_ok h
  exact lastLogIndex_le_of_snapshot (autoSnapshot_log { core with
    lastApplied := max core.lastApplied core.commitIndex
    stateMachine := foldCommands core.stateMachine (es.map LogEntry.command) })

end LastIndex

/-! ### What a call does to the books -/

section Outcome

variable {core core₁ core' : RaftCore σ μ}

/-- The books and the role stay as they are, and the log may only grow. -/
structure SameBooks (core core' : RaftCore σ μ) : Prop where
  state : core'.state = core.state
  peers : core'.peers = core.peers
  nextIndex : core'.nextIndex = core.nextIndex
  matchIndex : core'.matchIndex = core.matchIndex
  lastLogIndex_le : core.lastLogIndex ≤ core'.lastLogIndex

/-- The books of a peer stay in range when they stay as they are and the log does not shrink. -/
theorem InRange.mono {peer : ℕ} (h : core.InRange peer)
    (hnext : core'.nextIndex.getD peer 1 = core.nextIndex.getD peer 1)
    (hmatch : core'.matchIndex.getD peer 0 = core.matchIndex.getD peer 0)
    (hlast : core.lastLogIndex ≤ core'.lastLogIndex) : core'.InRange peer := by
  refine ⟨?_, ?_, ?_⟩
  · rw [hnext]
    exact h.one_le
  · rw [hnext]
    exact Nat.le_trans h.le_last (Nat.succ_le_succ hlast)
  · rw [hnext, hmatch]
    exact h.match_lt

theorem SameBooks.inRange (h : core.SameBooks core') {peer : ℕ} (hpeer : core.InRange peer) :
    core'.InRange peer :=
  hpeer.mono (by rw [h.nextIndex]) (by rw [h.matchIndex]) h.lastLogIndex_le

theorem SameBooks.booksKept (h : core.SameBooks core') (hcore : core.Bookkept) :
    core.BooksKept core' := by
  refine ⟨fun hlead peer hpeer => ?_, fun _ _ _ peer _ => ?_⟩
  · rw [h.state] at hlead
    rw [h.peers] at hpeer
    exact h.inRange (hcore hlead peer hpeer)
  · rw [h.matchIndex]

/-- A node that is not leader has no books. -/
theorem booksKept_of_not_leader (h : core'.state ≠ .leader) : core.BooksKept core' :=
  ⟨fun hlead => absurd hlead h, fun _ hlead => absurd hlead h⟩

/-- A new leader has opened its books: it sends its no-op to everyone, and knows nothing. -/
structure Opened (core core' : RaftCore σ μ) : Prop where
  peers : core'.peers = core.peers
  nextIndex : ∀ peer ∈ core.peers, core'.nextIndex.getD peer 1 = core'.lastLogIndex
  matchIndex : ∀ peer ∈ core.peers, core'.matchIndex.getD peer 0 = 0
  pos : 0 < core'.lastLogIndex

variable [Storage σ]

theorem becomeLeader_opened (h : core.becomeLeader = .ok core') : core.Opened core' := by
  obtain ⟨s, -, rfl⟩ := becomeLeader_ok h
  refine ⟨rfl, fun peer hpeer => ?_, fun peer hpeer => ?_, ?_⟩
  · rw [IndexMap.getD_foldl_insert, if_pos hpeer]
    exact (lastLogIndex_of_append rfl rfl).symm
  · rw [IndexMap.getD_foldl_insert, if_pos hpeer]
  · exact Nat.lt_of_lt_of_eq (Nat.succ_pos _) (lastLogIndex_of_append rfl rfl).symm

/-- **What a call does to the books**: a node that is not leader afterwards has none, they stay as
they are, a new leader opens them, or an answer is recorded. -/
inductive Outcome (core : RaftCore σ μ) : Op → RaftCore σ μ → Prop
  | resigned {op : Op} {core' : RaftCore σ μ} : core.KeepsBooks op → core'.state ≠ .leader →
      Outcome core op core'
  | same {op : Op} {core' : RaftCore σ μ} : core.KeepsBooks op → core.SameBooks core' →
      Outcome core op core'
  | opened {op : Op} {core' : RaftCore σ μ} :
      (core.KeepsBooks op ↔
        (core.state = .leader → ∀ peer ∈ core.peers, core.matchIndex.getD peer 0 = 0)) →
      core'.state = .leader → core'.currentTerm = core.currentTerm → core.Opened core' →
      Outcome core op core'
  | answered {peerId entryIndex : ℕ} {result : AppendEntriesResult} {core' : RaftCore σ μ} :
      core.state = .leader → result.term ≤ core.currentTerm →
      core'.currentTerm = core.currentTerm →
      (core.recordAppendResult peerId entryIndex result).SameBooks core' →
      (core'.lastLogIndex = core.lastLogIndex ∨ ∃ e, core.getLogEntry entryIndex = some e) →
      Outcome core (.appendEntriesResult peerId entryIndex result) core'
  | installed {peerId lastIncludedIndex term : ℕ} : core.state = .leader →
      Outcome core (.installSnapshotResult peerId lastIncludedIndex (.success term))
        (core.handleInstallSnapshotResult peerId lastIncludedIndex (.success term))

/-- Observing a term: the node resigns, or it is the same. -/
theorem observeTerm_leader {term : ℕ} (h : core.observeTerm term = .ok core₁)
    (hlead : core₁.state = .leader) : core₁ = core ∧ term ≤ core.currentTerm := by
  rcases observeTerm_ok h with ⟨hle, rfl⟩ | ⟨-, s, -, rfl⟩
  · exact ⟨rfl, hle⟩
  · cases hlead

theorem handleRequestVote_sameBooks {args : RequestVoteArgs} {result : RequestVoteResult}
    (h : core.handleRequestVote args = .ok (core', result)) (hlead : core'.state = .leader) :
    core.SameBooks core' := by
  rcases handleRequestVote_ok h with ⟨-, rfl, -⟩ | ⟨core₁, h₁, -, ⟨rfl, -⟩ | ⟨-, -, hset, -⟩⟩
  · exact ⟨rfl, rfl, rfl, rfl, le_rfl⟩
  · obtain ⟨rfl, -⟩ := observeTerm_leader h₁ hlead
    exact ⟨rfl, rfl, rfl, rfl, le_rfl⟩
  · obtain ⟨-, rfl⟩ := setVotedFor_ok.1 hset
    obtain ⟨rfl, -⟩ := observeTerm_leader h₁ hlead
    exact ⟨rfl, rfl, rfl, rfl, le_rfl⟩

variable [Snapshotable μ]

theorem handleInstallSnapshot_sameBooks {args : InstallSnapshotArgs}
    {result : InstallSnapshotResult} (h : core.handleInstallSnapshot args = .ok (core', result))
    (hlead : core'.state = .leader) : core.SameBooks core' := by
  rcases handleInstallSnapshot_ok h with ⟨-, rfl, -⟩ | ⟨core₁, core₂, h₁, -, rfl, hor⟩
  · exact ⟨rfl, rfl, rfl, rfl, le_rfl⟩
  · rcases hor with ⟨s, reason, rfl, -⟩ | ⟨hnew, s, m, -, -, rfl, -⟩
    · obtain ⟨rfl, -⟩ := observeTerm_leader h₁ hlead
      exact ⟨rfl, rfl, rfl, rfl, le_rfl⟩
    · obtain ⟨rfl, -⟩ := observeTerm_leader h₁ hlead
      exact ⟨rfl, rfl, rfl, rfl, lastLogIndex_le_of_filter (fun _ => Nat.le_of_lt hnew) rfl rfl⟩

theorem handleAppendEntries_sameBooks {args : AppendEntriesArgs} {out : HandleAppendEntriesOutput}
    (h : core.handleAppendEntries args = .ok (core', out)) (hlead : core'.state = .leader) :
    core.SameBooks core' := by
  obtain ⟨core₁, h₁, ⟨-, rfl, -⟩ | ⟨-, core₂, rfl, hor⟩⟩ := handleAppendEntries_ok h
  · obtain ⟨rfl, -⟩ := observeTerm_leader h₁ hlead
    exact ⟨rfl, rfl, rfl, rfl, le_rfl⟩
  · -- whoever takes the request over is a follower
    exfalso
    rcases hor with ⟨rfl, -⟩ | ⟨-, hacc, -⟩
    · cases hlead
    · obtain ⟨_, _, _, _, _, _, _, rfl⟩ := acceptEntries_eq hacc
      cases hlead

theorem handleAppendEntriesResult_outcome {peerId entryIndex : ℕ} {result : AppendEntriesResult}
    {commit : Option ℕ} {results : List (ℕ × ApplyResult)}
    (h : core.handleAppendEntriesResult peerId entryIndex result = .ok (core', commit, results)) :
    core.Outcome (.appendEntriesResult peerId entryIndex result) core' := by
  obtain ⟨core₁, h₁, ⟨hstate, rfl, -⟩ | ⟨hstate, core₂, rfl, hor⟩⟩ := handleAppendEntriesResult_ok h
  · refine .resigned (fun hlead hterm => ?_) hstate
    rcases observeTerm_ok h₁ with ⟨-, rfl⟩ | ⟨hlt, -⟩
    · exact absurd hlead hstate
    · exact absurd hterm (not_le.2 hlt)
  · obtain ⟨rfl, hterm⟩ := observeTerm_leader h₁ hstate
    obtain ⟨next, match', heq, -⟩ := recordAppendResult_eq core₁ peerId entryIndex result
    rcases hor with ⟨rfl, -⟩ | ⟨-, hentry, -, -, -, happly⟩
    · refine .answered hstate hterm ?_ ⟨rfl, rfl, rfl, rfl, le_rfl⟩
        (Or.inl (recordAppendResult_lastLogIndex core₁ peerId entryIndex result))
      rw [heq]
    · have hle := applyCommittedEntries_lastLogIndex_le happly
      obtain ⟨_, _, _, _, _, _, rfl⟩ := applyCommittedEntries_eq happly
      refine .answered hstate hterm ?_ ⟨rfl, rfl, rfl, rfl, hle⟩ (Or.inr ?_)
      · rw [heq]
      · obtain ⟨e, he, -⟩ := Option.map_eq_some_iff.1 hentry
        rw [heq] at he
        exact ⟨e, he⟩

theorem outcome {op : Op} (hs : op.step core = some core') : core.Outcome op core' := by
  -- a call that does not write the books
  have hsame {op : Op} {core' : RaftCore σ μ} (hkeep : core.KeepsBooks op)
      (h : core'.state = .leader → core.SameBooks core') : core.Outcome op core' := by
    by_cases hlead : core'.state = .leader
    · exact .same hkeep (h hlead)
    · exact .resigned hkeep hlead
  have hobserved {term : ℕ} {core' : RaftCore σ μ} (h : core.StepsDown term core')
      (hlead : core'.state = .leader) : core.SameBooks core' := by
    rcases h with ⟨-, rfl⟩ | ⟨-, rfl⟩
    · cases hlead
    · exact ⟨rfl, rfl, rfl, rfl, le_rfl⟩
  cases Op.ran_of_step hs with
  | requestVote hr => exact hsame trivial (handleRequestVote_sameBooks hr)
  | appendEntries hr => exact hsame trivial (handleAppendEntries_sameBooks hr)
  | installSnapshot hr => exact hsame trivial (handleInstallSnapshot_sameBooks hr)
  | startElection hr =>
      obtain ⟨_, -, rfl⟩ := startElection_ok hr
      refine .resigned trivial fun hlead => ?_
      cases hlead
  | becomeLeader hr =>
      have hopened := becomeLeader_opened hr
      obtain ⟨_, -, rfl⟩ := becomeLeader_ok hr
      exact .opened Iff.rfl rfl rfl hopened
  | appendLogEntry hr =>
      rcases appendLogEntry_ok hr with ⟨-, rfl, -⟩ | ⟨-, e, s, -, rfl, -, rfl⟩
      · exact .same trivial ⟨rfl, rfl, rfl, rfl, le_rfl⟩
      · refine .same trivial ⟨rfl, rfl, rfl, rfl, ?_⟩
        exact Nat.le_trans (Nat.le_succ _) (Nat.le_of_eq (lastLogIndex_of_append rfl rfl).symm)
  | applyCommittedEntries hr =>
      have hle := applyCommittedEntries_lastLogIndex_le hr
      obtain ⟨_, _, _, _, _, _, rfl⟩ := applyCommittedEntries_eq hr
      exact .same trivial ⟨rfl, rfl, rfl, rfl, hle⟩
  | takeSnapshot =>
      have hle := lastLogIndex_le_of_snapshot (takeSnapshot_log core)
      obtain ⟨_, _, _, _, heq⟩ := takeSnapshot_eq core
      rw [heq] at hle ⊢
      exact .same trivial ⟨rfl, rfl, rfl, rfl, hle⟩
  | @requestVoteResult peerId result _ won hr =>
      obtain ⟨core₁, h₁, ⟨-, rfl, -⟩ | ⟨hcand, core₂, rfl, hor⟩⟩ := handleRequestVoteResult_ok hr
      · refine hsame trivial fun hlead => ?_
        obtain ⟨rfl, -⟩ := observeTerm_leader h₁ hlead
        exact ⟨rfl, rfl, rfl, rfl, le_rfl⟩
      · obtain ⟨votes, heq, -⟩ := countVote_eq core₁ peerId result
        rw [heq] at hor
        rcases hor with ⟨rfl, -⟩ | ⟨-, hlead, -⟩
        · exact .resigned trivial (by simp [hcand])
        · -- a candidate has observed nothing new
          obtain rfl : core₁ = core := eq_of_observeTerm h₁ (by rw [hcand]; simp)
          have hopened := becomeLeader_opened hlead
          obtain ⟨_, -, rfl⟩ := becomeLeader_ok hlead
          refine .opened (iff_of_true trivial fun h => ?_) rfl rfl
            ⟨rfl, hopened.2, hopened.3, hopened.4⟩
          rw [hcand] at h
          cases h
  | appendEntriesResult hr => exact handleAppendEntriesResult_outcome hr
  | installSnapshotSuccess =>
      by_cases hlead : core.state = .leader
      · exact .installed hlead
      · exact .resigned (fun h => absurd h hlead) hlead
  | installSnapshotFailed h => exact hsame trivial (hobserved h)
  | confirmResult h => exact hsame trivial (hobserved h)

end Outcome

/-! ### Steps and runs -/

section Steps

variable {core core' : RaftCore σ μ} {op : Op}

theorem Opened.bookkept (h : core.Opened core') : core'.Bookkept := by
  intro _ peer hpeer
  rw [h.peers] at hpeer
  have hpos := h.pos
  refine ⟨?_, ?_, ?_⟩
  · rw [h.nextIndex peer hpeer]
    exact hpos
  · rw [h.nextIndex peer hpeer]
    exact Nat.le_succ _
  · rw [h.nextIndex peer hpeer, h.matchIndex peer hpeer]
    exact hpos

variable [Storage σ] [Snapshotable μ]

/-- **A call that keeps the books keeps them.** -/
theorem booksKept_step (hs : op.step core = some core') (h : core.Bookkept)
    (hkeep : core.KeepsBooks op) : core.BooksKept core' := by
  cases outcome hs with
  | resigned _ hstate => exact booksKept_of_not_leader hstate
  | same _ hsame => exact hsame.booksKept h
  | opened hiff _ _ hopened =>
      refine ⟨hopened.bookkept, fun hlead _ _ peer hpeer => ?_⟩
      rw [hiff.1 hkeep hlead peer hpeer]
      exact Nat.zero_le _
  | @answered peerId entryIndex result _ hlead hterm _ hsame _ =>
      refine ⟨fun _ peer hpeer => hsame.inRange ?_, fun _ _ _ peer _ => ?_⟩
      · obtain ⟨_, _, heq, -⟩ := recordAppendResult_eq core peerId entryIndex result
        have hmem : peer ∈ core.peers := by
          rw [hsame.peers, heq] at hpeer
          exact hpeer
        by_cases hp : peer = peerId
        · subst hp
          exact (recordAppendResult_inRange_iff core peer entryIndex result (h hlead peer hmem)).2
            (hkeep hlead hterm hmem)
        · obtain ⟨hnext, hmatch⟩ := recordAppendResult_ne core peerId entryIndex result hp
          exact (h hlead peer hmem).mono hnext hmatch
            (Nat.le_of_eq (recordAppendResult_lastLogIndex core peerId entryIndex result).symm)
      · rw [hsame.matchIndex]
        exact recordAppendResult_match_le core peerId entryIndex result
  | @installed peerId lastIncludedIndex term hlead =>
      have hgetD := handleInstallSnapshotResult_getD core peerId lastIncludedIndex term
      refine ⟨fun _ peer hpeer => ?_, fun _ _ _ peer hpeer => ?_⟩
      · obtain ⟨hnext, hmatch⟩ := hgetD peer
        by_cases hp : peer = peerId
        · subst hp
          rw [if_pos rfl] at hnext hmatch
          refine ⟨?_, ?_, ?_⟩
          · rw [hnext]
            exact Nat.succ_pos _
          · rw [hnext]
            exact Nat.succ_le_succ (hkeep hlead hpeer).2
          · rw [hnext, hmatch]
            exact Nat.lt_succ_self _
        · rw [if_neg hp] at hnext hmatch
          exact (h hlead peer hpeer).mono hnext hmatch le_rfl
      · rw [(hgetD peer).2]
        split
        · rename_i hp
          subst hp
          exact (hkeep hlead hpeer).1
        · exact le_rfl

/-- **And no other call does**, in a log without gaps. -/
theorem keepsBooks_of_booksKept (hs : op.step core = some core') (h : core.Bookkept)
    (hc : core.Contiguous) (hkept : core.BooksKept core') : core.KeepsBooks op := by
  cases outcome hs with
  | resigned hkeep _ => exact hkeep
  | same hkeep _ => exact hkeep
  | opened hiff hstate hterm hopened =>
      refine hiff.2 fun hlead peer hpeer => ?_
      have hle := hkept.match_le hlead hstate hterm peer hpeer
      rw [hopened.matchIndex peer hpeer] at hle
      exact Nat.le_zero.1 hle
  | @answered peerId entryIndex result _ hlead hterm _ hsame hentry =>
      intro _ _ hmem
      obtain ⟨_, _, heq, -⟩ := recordAppendResult_eq core peerId entryIndex result
      have hlead' : core'.state = .leader := by
        rw [hsame.state, heq]
        exact hlead
      have hmem' : peerId ∈ core'.peers := by
        rw [hsame.peers, heq]
        exact hmem
      have hrange := hkept.bookkept hlead' peerId hmem'
      have hle := recordAppendResult_next_le core peerId entryIndex result
        (h hlead peerId hmem)
      refine (recordAppendResult_inRange_iff core peerId entryIndex result (h hlead peerId hmem)).1
        ⟨?_, ?_, ?_⟩
      · rw [← hsame.nextIndex]
        exact hrange.one_le
      · rw [recordAppendResult_lastLogIndex]
        rcases hentry with hlast | ⟨e, he⟩
        · rw [← hsame.nextIndex, ← hlast]
          exact hrange.le_last
        · -- an entry that is committed is in the log
          have := hc.le_lastLogIndex he
          have := (h hlead peerId hmem).le_last
          omega
      · rw [← hsame.nextIndex, ← hsame.matchIndex]
        exact hrange.match_lt
  | @installed peerId lastIncludedIndex term hlead =>
      intro _ hmem
      obtain ⟨hnext, hmatch⟩ :=
        handleInstallSnapshotResult_getD core peerId lastIncludedIndex term peerId
      rw [if_pos rfl] at hnext hmatch
      constructor
      · have hle := hkept.match_le hlead hlead rfl peerId hmem
        rwa [hmatch] at hle
      · have hle := (hkept.bookkept hlead peerId hmem).le_last
        rw [hnext] at hle
        exact Nat.le_of_succ_le_succ hle

/-- **When the books are in order in every state of a run** whose calls fit into the machine range: if
all of them keep the books.  In logs without gaps there is no other way. -/
theorem books_kept {id : ℕ} {peers : List ℕ} {storage : σ} {stateMachine : μ}
    (hnew : RaftCore.new id peers storage stateMachine = .ok core)
    {ts : List (Transition (RaftCore σ μ) Op)} (hrun : Run Op.step core ts core')
    (hfits : ∀ t ∈ ts, t.action.Fits t.source) :
    ((∀ t ∈ ts, t.source.KeepsBooks t.action) → ∀ t ∈ ts, t.source.BooksKept t.target) ∧
      ((∀ t ∈ ts, t.source.Contiguous) → (∀ t ∈ ts, t.source.BooksKept t.target) →
        ∀ t ∈ ts, t.source.KeepsBooks t.action) ∧
      ∀ t ∈ ts, t.target.Within u64Max := by
  have hinit : core.Bookkept := by
    simp only [RaftCore.new, Except.bind_eq_ok, Except.pure_eq_ok] at hnew
    obtain ⟨term, -, votedFor, -, log, -, snapshot, -, m, -, rfl⟩ := hnew
    intro hlead
    cases hlead
  refine ⟨?_, ?_, fun t ht => (hfits t ht).step_within (hrun.step_of_mem ht)⟩
  · intro hkeep t ht
    obtain ⟨hsource, hs⟩ := hrun.invariant_source (P := fun t => t.source.KeepsBooks t.action)
      (fun _ _ _ h hs hk => (booksKept_step hs h hk).bookkept) hinit hkeep ht
    exact booksKept_step hs hsource (hkeep t ht)
  · intro hcont hkept t ht
    obtain ⟨hsource, hs⟩ := hrun.invariant_source (P := fun t => t.source.BooksKept t.target)
      (fun _ _ _ _ _ hk => hk.bookkept) hinit hkept ht
    exact keepsBooks_of_booksKept hs hsource (hcont t ht) (hkept t ht)

end Steps

/-! ### Runs in which the books are kept, and lost -/

theorem books_kept_example : ∃ (ts : List (Transition (RaftCore MemoryStorage Recorder) Op))
    (core' : RaftCore MemoryStorage Recorder),
    Run Op.step (fresh 1 [2, 3] MemoryStorage.new Recorder.new) ts core' ∧
      core'.state = .leader ∧ ∀ t ∈ ts, t.source.BooksKept t.target := by
  obtain ⟨ts, core', hrun, hkeep, hlead⟩ := exists_run Op.step
    (fresh 1 [2, 3] MemoryStorage.new Recorder.new)
    [.startElection, .requestVoteResult 2 ⟨1, true⟩, .appendEntriesResult 2 1 ⟨1, true, none, none⟩,
      .appendLogEntry "SET x 1", .appendEntriesResult 3 2 ⟨1, false, none, some 1⟩]
    (P := fun t => t.source.KeepsBooks t.action ∧ t.action.Fits t.source)
    (Q := fun core' => core'.state = .leader) ⟨_, rfl, by decide, rfl⟩
  have hnew : RaftCore.new 1 [2, 3] MemoryStorage.new Recorder.new
      = .ok (fresh 1 [2, 3] MemoryStorage.new Recorder.new) := rfl
  exact ⟨ts, core', hrun, hlead,
    (books_kept hnew hrun fun t ht => (hkeep t ht).2).1 fun t ht => (hkeep t ht).1⟩

/-- A follower takes over the second entry and a snapshot of it, its answers are lost, and it rejects
the next heartbeat: the leader is sent back into the entry that it knows to be replicated.  So it is
by a success that comes late, and a late snapshot also takes back what is known. -/
theorem books_lost :
    (∃ (ts us : List (Transition (RaftCore MemoryStorage Recorder) Op))
      (leader follower leader' follower' : RaftCore MemoryStorage Recorder)
      (args : AppendEntriesArgs) (result : AppendEntriesResult),
      Run Op.step (fresh 1 [2, 3] MemoryStorage.new Recorder.new) ts leader ∧
        Run Op.step (fresh 2 [1, 3] MemoryStorage.new Recorder.new) us follower ∧
        leader.heartbeatRequest 2 = some (.appendEntries args) ∧
        Op.run follower (.appendEntries args) = .ok (follower', some (.appendEntries result)) ∧
        Op.step leader (.appendEntriesResult 2 args.lastEntryIndex result) = some leader' ∧
        leader'.state = .leader ∧ leader'.nextIndex.getD 2 1 ≤ leader'.matchIndex.getD 2 0) ∧
      (∃ (ts : List (Transition (RaftCore MemoryStorage Recorder) Op))
        (core' : RaftCore MemoryStorage Recorder),
        Run Op.step (fresh 1 [2, 3] MemoryStorage.new Recorder.new) ts core' ∧
          core'.state = .leader ∧ core'.nextIndex.getD 2 1 ≤ core'.matchIndex.getD 2 0) ∧
      ∃ (ts : List (Transition (RaftCore MemoryStorage Recorder) Op))
        (core core' : RaftCore MemoryStorage Recorder),
        Run Op.step (fresh 1 [2, 3] MemoryStorage.new Recorder.new) ts core ∧
          Op.step core (.installSnapshotResult 2 1 (.success 1)) = some core' ∧
          core'.state = .leader ∧ core'.matchIndex.getD 2 0 < core.matchIndex.getD 2 0 := by
  refine ⟨?_, ?_, ?_⟩
  · obtain ⟨ts, leader, hrun, -, rfl⟩ := exists_run Op.step
      (fresh 1 [2, 3] MemoryStorage.new Recorder.new)
      [.startElection, .requestVoteResult 2 ⟨1, true⟩,
        .appendEntriesResult 2 1 ⟨1, true, none, none⟩, .appendLogEntry "SET x 1",
        .appendEntriesResult 3 2 ⟨1, true, none, none⟩]
      (P := fun _ => True) (Q := fun core' => core' = _) ⟨_, rfl, fun _ _ => trivial, rfl⟩
    obtain ⟨us, follower, hrun', -, rfl⟩ := exists_run Op.step
      (fresh 2 [1, 3] MemoryStorage.new Recorder.new)
      [.appendEntries ⟨1, 1, 0, 0, [⟨1, 1, noopCommand⟩], 0⟩,
        .appendEntries ⟨1, 1, 1, 1, [⟨1, 2, "SET x 1"⟩], 1⟩,
        .appendEntries ⟨1, 1, 1, 1, [⟨1, 2, "SET x 1"⟩], 2⟩, .takeSnapshot]
      (P := fun _ => True) (Q := fun core' => core' = _) ⟨_, rfl, fun _ _ => trivial, rfl⟩
    exact ⟨ts, us, _, _, _, _, _, _, hrun, hrun', rfl, rfl, rfl, rfl, by decide⟩
  · obtain ⟨ts, core', hrun, -, hlead, hle⟩ := exists_run Op.step
      (fresh 1 [2, 3] MemoryStorage.new Recorder.new)
      [.startElection, .requestVoteResult 2 ⟨1, true⟩, .appendLogEntry "SET x 1",
        .appendEntriesResult 2 2 ⟨1, true, none, none⟩,
        .appendEntriesResult 2 1 ⟨1, true, none, none⟩]
      (P := fun _ => True)
      (Q := fun core' => core'.state = .leader ∧
        core'.nextIndex.getD 2 1 ≤ core'.matchIndex.getD 2 0)
      ⟨_, rfl, fun _ _ => trivial, rfl, by decide⟩
    exact ⟨ts, core', hrun, hlead, hle⟩
  · obtain ⟨ts, core, hrun, -, rfl⟩ := exists_run Op.step
      (fresh 1 [2, 3] MemoryStorage.new Recorder.new)
      [.startElection, .requestVoteResult 2 ⟨1, true⟩, .appendLogEntry "SET x 1",
        .appendEntriesResult 2 2 ⟨1, true, none, none⟩]
      (P := fun _ => True) (Q := fun core' => core' = _) ⟨_, rfl, fun _ _ => trivial, rfl⟩
    exact ⟨ts, _, _, hrun, rfl, rfl, by decide⟩

end RaftCore

end RaftVibe
