/-
**The top of the machine range.**

Terms and indices are `u64` in the source, and `+ 1` on the largest of them wraps to `0`.  On natural
numbers it does not, so the two agree on a call only if no sum of the call leaves the range.  The
terms and indices that a call adds `1` to are the node's, or come with the call.  So the call is safe
if all of these are below the top, and then the numbers that it leaves the node with are in the range
again.  The runs of a whole cluster start at `0` and only count up; where the arguments of a call are
arbitrary, that it fits is a hypothesis.

Main definitions:

* `RaftVibe.RaftCore.Within` — the terms and indices of a node are at most a number;
* `RaftVibe.Op.Within` — those that come with a call are;
* `RaftVibe.Op.Fits` — a call whose sums stay in the range.

Main results:

* `RaftVibe.Op.step_within` — a call adds at most one to the largest number;
* `RaftVibe.Op.Fits.step_within` — **a call that fits leaves the node in the range**.
-/

import Mathlib.Order.MinMax
import RaftVibe.Operations

set_option relaxedAutoImplicit false
set_option autoImplicit false

namespace RaftVibe

open Runs

variable {σ μ : Type} {n : ℕ}

namespace RaftCore

variable {core core' : RaftCore σ μ}

/-- **The terms and indices of the node are at most `n`.** -/
structure Within (core : RaftCore σ μ) (n : ℕ) : Prop where
  term_le : core.currentTerm ≤ n
  snapshot_le : core.snapshotLastIndex ≤ n
  applied_le : core.lastApplied ≤ n
  commit_le : core.commitIndex ≤ n
  log_le : ∀ e ∈ core.log, e.index ≤ n

instance (core : RaftCore σ μ) (n : ℕ) : Decidable (core.Within n) :=
  decidable_of_iff (core.currentTerm ≤ n ∧ core.snapshotLastIndex ≤ n ∧ core.lastApplied ≤ n ∧
      core.commitIndex ≤ n ∧ ∀ e ∈ core.log, e.index ≤ n)
    ⟨fun ⟨h₁, h₂, h₃, h₄, h₅⟩ => ⟨h₁, h₂, h₃, h₄, h₅⟩,
      fun ⟨h₁, h₂, h₃, h₄, h₅⟩ => ⟨h₁, h₂, h₃, h₄, h₅⟩⟩

namespace Within

theorem mono {m : ℕ} (h : core.Within n) (hle : n ≤ m) : core.Within m :=
  ⟨h.term_le.trans hle, h.snapshot_le.trans hle, h.applied_le.trans hle, h.commit_le.trans hle,
    fun e he => (h.log_le e he).trans hle⟩

theorem lastLogIndex_le (h : core.Within n) : core.lastLogIndex ≤ n := by
  unfold RaftCore.lastLogIndex
  split
  · exact h.snapshot_le
  · rename_i e he
    exact h.log_le e (List.mem_of_getLast? he)

theorem stepDown (h : core.Within n) {term : ℕ} (ht : term ≤ n) :
    (core.stepDownInMemory term).Within n :=
  ⟨ht, h.snapshot_le, h.applied_le, h.commit_le, h.log_le⟩

theorem stepsDown (h : core.Within n) {term : ℕ} (ht : term ≤ n) (hs : core.StepsDown term core') :
    core'.Within n := by
  rcases hs with ⟨-, rfl⟩ | ⟨-, rfl⟩
  · exact h.stepDown ht
  · exact h

/-- The next entry has an index of at most one more. -/
theorem append (h : core.Within n) {e : LogEntry} (he : e.index = core.lastLogIndex + 1)
    (ht : core'.currentTerm = core.currentTerm)
    (hs : core'.snapshotLastIndex = core.snapshotLastIndex)
    (ha : core'.lastApplied = core.lastApplied) (hc : core'.commitIndex = core.commitIndex)
    (hl : core'.log = core.log ++ [e]) : core'.Within (n + 1) := by
  refine ⟨?_, ?_, ?_, ?_, ?_⟩
  · exact ht ▸ Nat.le_succ_of_le h.term_le
  · exact hs ▸ Nat.le_succ_of_le h.snapshot_le
  · exact ha ▸ Nat.le_succ_of_le h.applied_le
  · exact hc ▸ Nat.le_succ_of_le h.commit_le
  · intro x hx
    rw [hl, List.mem_append, List.mem_singleton] at hx
    rcases hx with hx | rfl
    · exact Nat.le_succ_of_le (h.log_le x hx)
    · exact he ▸ Nat.succ_le_succ h.lastLogIndex_le

section Storing

variable [Storage σ]

theorem observeTerm (h : core.Within n) {term : ℕ} (ht : term ≤ n)
    (ho : core.observeTerm term = .ok core') : core'.Within n := by
  rcases observeTerm_ok ho with ⟨-, rfl⟩ | ⟨-, s, -, rfl⟩
  · exact h
  · exact ⟨ht, h.snapshot_le, h.applied_le, h.commit_le, h.log_le⟩

theorem becomeLeader (h : core.Within n) (hb : core.becomeLeader = .ok core') :
    core'.Within (n + 1) := by
  obtain ⟨s, -, rfl⟩ := becomeLeader_ok hb
  exact h.append (e := core.noopEntry) rfl rfl rfl rfl rfl rfl

variable [Snapshotable μ]

/-- A snapshot moves its boundary to `last_applied`, and only drops entries. -/
theorem takeSnapshot (h : core.Within n) : core.takeSnapshot.1.Within n := by
  have hout := takeSnapshot_outcome core
  generalize core.takeSnapshot = r at hout ⊢
  cases hout with
  | refused => exact h
  | notSaved => exact ⟨h.term_le, h.snapshot_le, h.applied_le, h.commit_le, h.log_le⟩
  | notCompacted => exact ⟨h.term_le, h.applied_le, h.applied_le, h.commit_le, h.log_le⟩
  | taken =>
      exact ⟨h.term_le, h.applied_le, h.applied_le, h.commit_le,
        fun e he => h.log_le e (List.mem_filter.1 he).1⟩

theorem autoSnapshot (h : core.Within n) : core.autoSnapshot.Within n := by
  simp only [RaftCore.autoSnapshot]
  split
  · split
    · exact h.takeSnapshot
    · exact h
  · exact h

theorem applyCommittedEntries (h : core.Within n) {results : List (ℕ × ApplyResult)}
    (ha : core.applyCommittedEntries = .ok (core', results)) : core'.Within n := by
  obtain ⟨es, -, -, -, rfl⟩ := applyCommittedEntries_ok ha
  exact autoSnapshot
    ⟨h.term_le, h.snapshot_le, max_le h.applied_le h.commit_le, h.commit_le, h.log_le⟩

theorem acceptEntries (h : core.Within n) {args : AppendEntriesArgs}
    (hargs : ∀ e ∈ args.entries, e.index ≤ n) (ha : core.acceptEntries args = .ok core') :
    core'.Within n := by
  obtain ⟨s, core₁, -, hcore₁, hor⟩ := acceptEntries_ok ha
  have h₁ : core₁.Within n := by
    rw [hcore₁]
    exact ⟨h.term_le, h.snapshot_le, h.applied_le, h.commit_le,
      fun e he => (mem_takeOver he).elim (h.log_le e) (hargs e)⟩
  rcases hor with ⟨-, rfl⟩ | ⟨-, results, happly⟩
  · exact h₁
  · have hcommitted : RaftCore.Within
        { core₁ with commitIndex := min args.leaderCommit core₁.lastLogIndex } n :=
      ⟨h₁.term_le, h₁.snapshot_le, h₁.applied_le,
        (min_le_right _ _).trans h₁.lastLogIndex_le, h₁.log_le⟩
    exact hcommitted.applyCommittedEntries happly

end Storing

end Within

end RaftCore

namespace Op

/-- **The terms and indices that come with the call are at most `n`**: all that the node may keep. -/
def Within (n : ℕ) : Op → Prop
  | requestVote args => args.term ≤ n
  | appendEntries args => args.term ≤ n ∧ ∀ e ∈ args.entries, e.index ≤ n
  | installSnapshot args => args.term ≤ n ∧ args.lastIncludedIndex ≤ n
  | requestVoteResult _ result => result.term ≤ n
  | appendEntriesResult _ entryIndex result => result.term ≤ n ∧ entryIndex ≤ n
  | installSnapshotResult _ lastIncludedIndex result => result.term ≤ n ∧ lastIncludedIndex ≤ n
  | confirmResult result => result.term ≤ n
  | _ => True

instance (n : ℕ) : (op : Op) → Decidable (op.Within n)
  | requestVote args => inferInstanceAs (Decidable (args.term ≤ n))
  | appendEntries args =>
      inferInstanceAs (Decidable (args.term ≤ n ∧ ∀ e ∈ args.entries, e.index ≤ n))
  | installSnapshot args => inferInstanceAs (Decidable (args.term ≤ n ∧ args.lastIncludedIndex ≤ n))
  | requestVoteResult _ result => inferInstanceAs (Decidable (result.term ≤ n))
  | appendEntriesResult _ entryIndex result =>
      inferInstanceAs (Decidable (result.term ≤ n ∧ entryIndex ≤ n))
  | installSnapshotResult _ lastIncludedIndex result =>
      inferInstanceAs (Decidable (result.term ≤ n ∧ lastIncludedIndex ≤ n))
  | confirmResult result => inferInstanceAs (Decidable (result.term ≤ n))
  | startElection | becomeLeader | appendLogEntry _ | applyCommittedEntries | takeSnapshot =>
      isTrue trivial

/-- **The call fits into the machine range**: no term or index of the node, and none that comes with
the call, is the largest `u64`. -/
structure Fits (core : RaftCore σ μ) (op : Op) : Prop where
  core_within : core.Within (u64Max - 1)
  op_within : op.Within (u64Max - 1)

instance (core : RaftCore σ μ) (op : Op) : Decidable (op.Fits core) :=
  decidable_of_iff (core.Within (u64Max - 1) ∧ op.Within (u64Max - 1))
    ⟨fun ⟨h₁, h₂⟩ => ⟨h₁, h₂⟩, fun ⟨h₁, h₂⟩ => ⟨h₁, h₂⟩⟩

variable [Storage σ] [Snapshotable μ] {core core' : RaftCore σ μ}

/-- A call adds at most one to the largest number. -/
theorem step_within {op : Op} (hs : op.step core = some core') (h : core.Within n)
    (hop : op.Within n) : core'.Within (n + 1) := by
  have grown {core' : RaftCore σ μ} (h : core'.Within n) : core'.Within (n + 1) :=
    h.mono n.le_succ
  cases ran_of_step hs with
  | requestVote hv =>
      rcases RaftCore.handleRequestVote_ok hv with ⟨-, rfl, -⟩ | ⟨core₁, h₁, -, ⟨rfl, -⟩ | hgrant⟩
      · exact grown h
      · exact grown (h.observeTerm hop h₁)
      · obtain ⟨-, -, hset, -⟩ := hgrant
        obtain ⟨-, rfl⟩ := RaftCore.setVotedFor_ok.1 hset
        have h' := h.observeTerm hop h₁
        exact grown ⟨h'.term_le, h'.snapshot_le, h'.applied_le, h'.commit_le, h'.log_le⟩
  | appendEntries ha =>
      obtain ⟨core₁, h₁, hor⟩ := RaftCore.handleAppendEntries_ok ha
      have h' := h.observeTerm hop.1 h₁
      rcases hor with ⟨-, rfl, -⟩ | ⟨-, core₂, hcore₂, hor⟩
      · exact grown h'
      · have h₂ : core₂.Within n := by
          rw [hcore₂]
          exact ⟨h'.term_le, h'.snapshot_le, h'.applied_le, h'.commit_le, h'.log_le⟩
        rcases hor with ⟨rfl, -⟩ | ⟨-, hacc, -⟩
        · exact grown h₂
        · exact grown (h₂.acceptEntries hop.2 hacc)
  | installSnapshot hi =>
      rcases RaftCore.handleInstallSnapshot_ok hi with ⟨-, rfl, -⟩ | ⟨core₁, core₂, h₁, -, rfl, hor⟩
      · exact grown h
      · have h' := h.observeTerm hop.1 h₁
        rcases hor with ⟨s, reason, rfl, -⟩ | ⟨-, s, m, -, -, rfl, -⟩
        · exact grown ⟨h'.term_le, h'.snapshot_le, h'.applied_le, h'.commit_le, h'.log_le⟩
        · exact grown ⟨h'.term_le, hop.2, max_le h'.applied_le hop.2, max_le h'.commit_le hop.2,
            fun e he => h'.log_le e (List.mem_filter.1 he).1⟩
  | startElection he =>
      obtain ⟨s, -, rfl⟩ := RaftCore.startElection_ok he
      have h' := grown h
      exact ⟨Nat.succ_le_succ h.term_le, h'.snapshot_le, h'.applied_le, h'.commit_le, h'.log_le⟩
  | becomeLeader hb => exact h.becomeLeader hb
  | appendLogEntry ha =>
      rcases RaftCore.appendLogEntry_ok ha with ⟨-, rfl, -⟩ | ⟨-, e, s, -, he, -, rfl⟩
      · exact grown h
      · exact h.append (e := e) (by rw [he]) rfl rfl rfl rfl rfl
  | applyCommittedEntries ha => exact grown (h.applyCommittedEntries ha)
  | takeSnapshot => exact grown h.takeSnapshot
  | @requestVoteResult peerId result _ _ hv =>
      obtain ⟨core₁, h₁, ⟨-, rfl, -⟩ | ⟨-, core₂, h₂, hor⟩⟩ :=
        RaftCore.handleRequestVoteResult_ok hv
      · exact grown (h.observeTerm hop h₁)
      · have h' := h.observeTerm hop h₁
        obtain ⟨votes, heq, -⟩ := RaftCore.countVote_eq core₁ peerId result
        have hcounted : core₂.Within n := by
          rw [h₂, heq]
          exact ⟨h'.term_le, h'.snapshot_le, h'.applied_le, h'.commit_le, h'.log_le⟩
        rcases hor with ⟨rfl, -⟩ | ⟨-, hb, -⟩
        · exact grown hcounted
        · exact hcounted.becomeLeader hb
  | @appendEntriesResult peerId entryIndex result _ _ _ hr =>
      obtain ⟨core₁, h₁, ⟨-, rfl, -⟩ | ⟨-, core₂, h₂, hor⟩⟩ :=
        RaftCore.handleAppendEntriesResult_ok hr
      · exact grown (h.observeTerm hop.1 h₁)
      · have h' := h.observeTerm hop.1 h₁
        obtain ⟨next, matchIndex, heq, -⟩ :=
          RaftCore.recordAppendResult_eq core₁ peerId entryIndex result
        have hrecorded : core₂.Within n := by
          rw [h₂, heq]
          exact ⟨h'.term_le, h'.snapshot_le, h'.applied_le, h'.commit_le, h'.log_le⟩
        rcases hor with ⟨rfl, -⟩ | ⟨-, -, -, -, -, happly⟩
        · exact grown hrecorded
        · have hcommitted : RaftCore.Within { core₂ with commitIndex := entryIndex } n :=
            ⟨hrecorded.term_le, hrecorded.snapshot_le, hrecorded.applied_le, hop.2, hrecorded.log_le⟩
          exact grown (hcommitted.applyCommittedEntries happly)
  | installSnapshotSuccess =>
      exact grown ⟨h.term_le, h.snapshot_le, h.applied_le, h.commit_le, h.log_le⟩
  | installSnapshotFailed hdown => exact grown (h.stepsDown hop.1 hdown)
  | confirmResult hdown => exact grown (h.stepsDown hop hdown)

/-- **A call that fits leaves the node in the range.** -/
theorem Fits.step_within {op : Op} (h : op.Fits core) (hs : op.step core = some core') :
    core'.Within u64Max :=
  Op.step_within hs h.core_within h.op_within

end Op

end RaftVibe
