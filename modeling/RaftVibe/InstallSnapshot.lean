/-
**What a follower keeps when it installs a snapshot.**

`handle_install_snapshot` throws away the entries that the snapshot covers and keeps all the others.
That is right when the entry at the last included index is the snapshot's own, as its term tells.  A
follower with the tail of a deposed leader may have another entry there.  What it then keeps does not
continue the snapshot, the terms of its log decrease, and it votes for candidates that lack what the
snapshot stands for.  `handle_append_entries` compares the terms at such a boundary;
`handle_install_snapshot` does not.

Main definitions:

* `RaftVibe.Behind` — a log that ends before another, by term and then by index;
* `RaftVibe.RaftCore.KeepsExtension` — what is kept continues the snapshot, and what follows.

Main results:

* `RaftVibe.RaftCore.install_keeps_extension_iff` — **exactly when what is kept continues the
  snapshot**.
-/

import RaftVibe.HintScans
import RaftVibe.Representation

set_option relaxedAutoImplicit false
set_option autoImplicit false

namespace RaftVibe

/-- A log that ends with term `t` at index `i` ends before one that ends with `t'` at `i'`. -/
def Behind (t i t' i' : ℕ) : Prop := t < t' ∨ (t = t' ∧ i < i')

namespace RaftCore

variable {σ μ : Type} {core core' : RaftCore σ μ} {args : InstallSnapshotArgs}

/-- The last term is no older than the snapshot's. -/
theorem TermsSorted.snapshot_le (h : core.TermsSorted) :
    core.snapshotLastTerm ≤ core.lastLogTerm := by
  unfold lastLogTerm
  cases hlast : core.log.getLast? with
  | none => exact le_rfl
  | some entry =>
      have hmem := List.mem_of_getLast? hlast
      exact (List.pairwise_cons.1 h).1 _ (List.mem_map_of_mem hmem)

/-- A log that is contiguous, with terms that never decrease, does not end before its snapshot. -/
theorem TermsSorted.not_behind (h : core.TermsSorted) (hc : core.Contiguous) :
    ¬ Behind core.lastLogTerm core.lastLogIndex core.snapshotLastTerm core.snapshotLastIndex := by
  have hterm := h.snapshot_le
  rw [hc.lastLogIndex]
  rintro (hlt | ⟨-, hlt⟩) <;> omega

variable [Storage σ] [Snapshotable μ]

omit [Snapshotable μ] in
/-- Whoever ends before this node does not get its vote. -/
theorem no_vote_of_behind {voteReq : RequestVoteArgs} {result : RequestVoteResult}
    (hb : Behind voteReq.lastLogTerm voteReq.lastLogIndex core.lastLogTerm core.lastLogIndex)
    (h : core.handleRequestVote voteReq = .ok (core', result)) : result.voteGranted = false := by
  rcases handleRequestVote_ok h with ⟨-, -, rfl⟩ | ⟨core₁, h₁, -, ⟨-, rfl⟩ | ⟨-, hup, -, -⟩⟩
  · rfl
  · rfl
  · have hlog := observeTerm_log h₁
    have hterm : core₁.lastLogTerm = core.lastLogTerm := by
      rw [lastLogTerm, lastLogTerm, hlog.1, hlog.2.2.1]
    have hindex : core₁.lastLogIndex = core.lastLogIndex := by
      rw [lastLogIndex, lastLogIndex, hlog.1, hlog.2.1]
    simp only [isLogUpToDate, hterm, hindex, Bool.or_eq_true, decide_eq_true_eq,
      Bool.and_eq_true, beq_iff_eq] at hup
    rcases hb with hb | hb <;> omega

/-- **What is kept continues the snapshot**: nothing is kept, or what lies above an entry with the
snapshot's index and term.  So the terms never decrease, the log does not end before the snapshot,
and nobody whose log does gets a vote. -/
structure KeepsExtension (core core' : RaftCore σ μ) (args : InstallSnapshotArgs) : Prop where
  suffix : core'.log = [] ∨ (∃ entry, core.getLogEntry args.lastIncludedIndex = some entry ∧
    entry.index = args.lastIncludedIndex ∧ entry.term = args.lastIncludedTerm ∧
    core'.log = core.log.filter fun e => e.index > args.lastIncludedIndex)
  sorted : core'.snapshotLastTerm = args.lastIncludedTerm ∧ core'.TermsSorted
  not_behind : ¬ Behind core'.lastLogTerm core'.lastLogIndex
    args.lastIncludedTerm args.lastIncludedIndex
  no_vote : ∀ voteReq core'' result, core'.handleRequestVote voteReq = .ok (core'', result) →
    Behind voteReq.lastLogTerm voteReq.lastLogIndex args.lastIncludedTerm args.lastIncludedIndex →
    result.voteGranted = false

/-- What a node holds after it has accepted a snapshot. -/
theorem handleInstallSnapshot_success {t : ℕ}
    (h : core.handleInstallSnapshot args = .ok (core', .success t)) :
    core.currentTerm ≤ args.term ∧ core.snapshotLastIndex < args.lastIncludedIndex ∧
      core'.snapshotLastIndex = args.lastIncludedIndex ∧
      core'.snapshotLastTerm = args.lastIncludedTerm ∧
      core'.log = core.log.filter fun e => e.index > args.lastIncludedIndex := by
  rcases handleInstallSnapshot_ok h with ⟨-, -, reason, hno⟩ |
    ⟨core₁, core₂, h₁, hterm, rfl, ⟨s, reason, -, hno, -⟩ | ⟨hlt, s, m, -, -, rfl, -⟩⟩
  · exact absurd hno (by simp)
  · exact absurd hno (by simp)
  · obtain ⟨hlog, hindex, -, -⟩ := observeTerm_log h₁
    have hle := observeTerm_currentTerm h₁
    have hlt : core₁.snapshotLastIndex < args.lastIncludedIndex := hlt
    refine ⟨by omega, hindex ▸ hlt, rfl, rfl, ?_⟩
    rw [← hlog]

/-- **Exactly when what a follower keeps continues the snapshot**: it has nothing above the last
included index, or its entry there has the last included term. -/
theorem install_keeps_extension_iff {t : ℕ} (hc : core.Contiguous) (hsorted : core.TermsSorted)
    (h : core.handleInstallSnapshot args = .ok (core', .success t)) :
    KeepsExtension core core' args ↔
      (core.lastLogIndex ≤ args.lastIncludedIndex ∨
        (core.getLogEntry args.lastIncludedIndex).map LogEntry.term =
          some args.lastIncludedTerm) := by
  obtain ⟨hle, hlt, hindex, hterm, hlog⟩ := handleInstallSnapshot_success h
  have hcont : Indexed core.snapshotLastIndex core.log := hc
  have hdrop := hcont.filter_gt args.lastIncludedIndex
  constructor
  · rintro ⟨hnil | ⟨entry, he, -, hentry, -⟩, -, -, -⟩
    · left
      rw [hlog, hdrop, List.drop_eq_nil_iff] at hnil
      rw [hc.lastLogIndex]
      omega
    · right
      rw [he, ← hentry]
      rfl
  · intro hcond
    have hsuffix : core'.log = [] ∨ ∃ entry, core.getLogEntry args.lastIncludedIndex = some entry ∧
        entry.index = args.lastIncludedIndex ∧ entry.term = args.lastIncludedTerm ∧
        core'.log = core.log.filter fun e => e.index > args.lastIncludedIndex := by
      rcases hcond with hall | hsame
      · left
        rw [hc.lastLogIndex] at hall
        rw [hlog, hdrop, List.drop_eq_nil_iff]
        omega
      · obtain ⟨entry, he, hentry⟩ := Option.map_eq_some_iff.1 hsame
        exact Or.inr ⟨entry, he, hc.getLogEntry_index he, hentry, hlog⟩
    have hsorted' : core'.TermsSorted := by
      unfold TermsSorted
      rcases hsuffix with hnil | ⟨entry, he, -, hentry, -⟩
      · rw [hnil]
        exact List.pairwise_singleton ..
      · -- the new snapshot's term stands for the entry that it replaces
        obtain ⟨-, hpos⟩ := getLogEntry_eq_some.1 he
        obtain ⟨hlen, hget⟩ := List.getElem?_eq_some_iff.1 hpos
        have hcons : core.log.drop (args.lastIncludedIndex - core.snapshotLastIndex - 1) =
            entry :: core'.log := by
          rw [List.drop_eq_getElem_cons hlen, hget, hlog, hdrop]
          congr 2
          omega
        rw [hterm, ← hentry, ← List.map_cons, ← hcons]
        exact hsorted.sublist (((List.drop_sublist _ _).map _).trans (List.sublist_cons_self _ _))
    have hcont' : core'.Contiguous := by
      show Indexed core'.snapshotLastIndex core'.log
      rw [hindex, hlog, hdrop]
      rcases Nat.le_total (args.lastIncludedIndex - core.snapshotLastIndex) core.log.length with
        hin | hout
      · have := hcont.drop hin
        rwa [Nat.add_sub_cancel' hlt.le] at this
      · rw [List.drop_of_length_le hout]
        exact Indexed.nil
    have hnot := hsorted'.not_behind hcont'
    rw [hterm, hindex] at hnot
    refine ⟨hsuffix, ⟨hterm, hsorted'⟩, hnot, fun voteReq core'' result hvote hb => ?_⟩
    refine no_vote_of_behind ?_ hvote
    unfold Behind at hb hnot ⊢
    omega

/-- A follower of term 2 with three entries, the last two of a leader that was deposed. -/
def divergedFollower : RaftCore MemoryStorage Recorder :=
  { RaftCore.fresh 2 [1, 3] MemoryStorage.new Recorder.new with
    currentTerm := 2
    log := [⟨1, 1, "SET x 1"⟩, ⟨2, 2, "SET y 2"⟩, ⟨2, 3, "SET z 3"⟩] }

theorem divergedFollower_contiguous : divergedFollower.Contiguous :=
  show Indexed 0 divergedFollower.log by decide

/-- A snapshot of the first two entries, the second one of term `t`, from the leader of term 3. -/
def snapshotOfTwo (t : ℕ) : InstallSnapshotArgs := ⟨3, 1, 2, t, []⟩

/-- A follower that has the entry which the snapshot ends with keeps the next one. -/
theorem install_keeps_extension_same :
    ∃ core' : RaftCore MemoryStorage Recorder,
      divergedFollower.handleInstallSnapshot (snapshotOfTwo 2) = .ok (core', .success 3) ∧
        core'.log = [⟨2, 3, "SET z 3"⟩] ∧
        KeepsExtension divergedFollower core' (snapshotOfTwo 2) :=
  ⟨_, rfl, rfl,
    (install_keeps_extension_iff divergedFollower_contiguous (by decide) rfl).2 (Or.inr rfl)⟩

/-- **A follower keeps an entry that does not continue the snapshot**: after a snapshot that ends
with term 3 its last term is 2, and it votes for a candidate whose log ends with term 2, too. -/
theorem install_keeps_diverged :
    divergedFollower.Contiguous ∧ divergedFollower.TermsSorted ∧
      ∃ core' core'' : RaftCore MemoryStorage Recorder,
        divergedFollower.handleInstallSnapshot (snapshotOfTwo 3) = .ok (core', .success 3) ∧
        ¬ KeepsExtension divergedFollower core' (snapshotOfTwo 3) ∧
        core'.log = [⟨2, 3, "SET z 3"⟩] ∧ ¬ core'.TermsSorted ∧
        core'.handleRequestVote ⟨4, 3, 3, 2⟩ = .ok (core'', ⟨4, true⟩) ∧ Behind 2 3 3 2 := by
  obtain ⟨core', core'', h, hlog, hsorted, hvote⟩ :
      ∃ core' core'' : RaftCore MemoryStorage Recorder,
        divergedFollower.handleInstallSnapshot (snapshotOfTwo 3) = .ok (core', .success 3) ∧
        core'.log = [⟨2, 3, "SET z 3"⟩] ∧ ¬ core'.TermsSorted ∧
        core'.handleRequestVote ⟨4, 3, 3, 2⟩ = .ok (core'', ⟨4, true⟩) :=
    ⟨_, _, rfl, rfl, by decide, rfl⟩
  exact ⟨divergedFollower_contiguous, by decide, core', core'', h, fun hk => hsorted hk.sorted.2,
    hlog, hsorted, hvote, Or.inl (by decide)⟩

end RaftCore

end RaftVibe
