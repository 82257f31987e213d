/-
**The representation of the log.**

The vector of a node holds the entries above its snapshot, and its indices count up from there.
Every method that reads or writes the vector relies on this, and computes positions by subtracting
the snapshot's index — except `persist_truncate_log`, which forgets to.  So the representation
survives every sequence of calls in which no conflict is cut off above a snapshot, and in such a
sequence `apply_committed_entries` always finds the entries it applies.

Main definitions:

* `RaftVibe.RaftCore.WellFormed` — the representation invariant;
* `RaftVibe.Op.Expected` — what the surroundings of a node promise;
* `RaftVibe.Op.CutsAboveSnapshot` — a call that truncates the log while there is a snapshot.

Main results:

* `RaftVibe.RaftCore.new_wellFormed` — a node starts well formed;
* `RaftVibe.Op.step_wellFormed` — **one call keeps the representation**;
* `RaftVibe.Op.run_representation` — every sequence of calls keeps it, and none panics for want of
  an entry to apply.
-/

import Mathlib.Order.MinMax
import RaftVibe.MachineRange

set_option relaxedAutoImplicit false
set_option autoImplicit false

namespace RaftVibe

variable {σ μ : Type}

namespace RaftCore

/-- **The representation invariant**: the vector is contiguous above the snapshot, and the indices
that mark the snapshot, the applied and the committed entries come in order. -/
structure WellFormed (core : RaftCore σ μ) : Prop where
  contiguous : core.Contiguous
  snapshot_le : core.snapshotLastIndex ≤ core.lastApplied
  applied_le : core.lastApplied ≤ core.commitIndex
  commit_le : core.commitIndex ≤ core.lastLogIndex

variable {core core' : RaftCore σ μ}

instance (core : RaftCore σ μ) : Decidable core.WellFormed :=
  decidable_of_iff (Indexed core.snapshotLastIndex core.log ∧
      core.snapshotLastIndex ≤ core.lastApplied ∧ core.lastApplied ≤ core.commitIndex ∧
      core.commitIndex ≤ core.lastLogIndex)
    ⟨fun ⟨h₁, h₂, h₃, h₄⟩ => ⟨h₁, h₂, h₃, h₄⟩, fun ⟨h₁, h₂, h₃, h₄⟩ => ⟨h₁, h₂, h₃, h₄⟩⟩

/-- A node loaded from a storage whose log continues its snapshot is well formed. -/
theorem new_wellFormed [Storage σ] [Snapshotable μ] {id : ℕ} {peers : List ℕ} {storage : σ}
    {m : μ} (h : RaftCore.new id peers storage m = .ok core) {log : List LogEntry}
    {snapshot : Option Snapshot} (hlog : Storage.loadLog storage = .ok log)
    (hsnap : Storage.loadSnapshot storage = .ok snapshot)
    (hidx : Indexed ((snapshot.map fun s => s.metadata.lastIncludedIndex).getD 0) log) :
    core.WellFormed := by
  simp only [RaftCore.new, hlog, hsnap, expectLoad, Except.bind_eq_ok, Except.ok.injEq,
    exists_eq_left', Except.pure_eq_ok] at h
  obtain ⟨term, -, votedFor, -, m', -, rfl⟩ := h
  have start {core : RaftCore σ μ} (hc : core.Contiguous)
      (ha : core.lastApplied = core.snapshotLastIndex)
      (hci : core.commitIndex = core.snapshotLastIndex) : core.WellFormed := by
    refine ⟨hc, ha.ge, by rw [ha, hci], ?_⟩
    rw [hc.lastLogIndex, hci]
    exact Nat.le_add_right _ _
  cases snapshot with
  | none => exact start hidx rfl rfl
  | some s => exact start hidx rfl rfl

theorem WellFormed.lastLogIndex (h : core.WellFormed) :
    core.lastLogIndex = core.snapshotLastIndex + core.log.length := h.contiguous.lastLogIndex

/-- A vector that grows within its representation leaves the node well formed. -/
theorem WellFormed.of_log (h : core.WellFormed)
    (hs : core'.snapshotLastIndex = core.snapshotLastIndex)
    (ha : core'.lastApplied = core.lastApplied) (hc : core'.commitIndex = core.commitIndex)
    (hlog : core'.Contiguous) (hle : core.commitIndex ≤ core'.lastLogIndex) :
    core'.WellFormed :=
  ⟨hlog, by rw [hs, ha]; exact h.snapshot_le, by rw [ha, hc]; exact h.applied_le, by rwa [hc]⟩

/-- The entries that a contiguous log has between two indices are the ones found there. -/
theorem Contiguous.filter_between (h : core.Contiguous) {m n : ℕ} {es : List LogEntry}
    (hm : core.snapshotLastIndex ≤ m) (hlen : es.length = n - m)
    (hes : ∀ k < es.length, core.getLogEntry (m + 1 + k) = es[k]?) :
    (core.log.filter fun e => m < e.index ∧ e.index ≤ n) = es := by
  have hcont : Indexed core.snapshotLastIndex core.log := h
  rw [hcont.filter_between hm]
  refine List.ext_getElem? fun k => ?_
  rcases Nat.lt_or_ge k es.length with hk | hk
  · rw [List.getElem?_take_of_lt (by omega), List.getElem?_drop, ← hes k hk, getLogEntry,
      if_neg (by omega)]
    congr 1
    omega
  · rw [List.getElem?_eq_none hk, List.getElem?_take_eq_none (by omega)]

/-- Nothing that the invariant speaks about has changed. -/
theorem WellFormed.congr (h : core.WellFormed) (hl : core'.log = core.log)
    (hs : core'.snapshotLastIndex = core.snapshotLastIndex)
    (ha : core'.lastApplied = core.lastApplied) (hc : core'.commitIndex = core.commitIndex) :
    core'.WellFormed := by
  have hcont : core'.Contiguous := by
    rw [Contiguous, hs, hl]
    exact h.contiguous
  refine h.of_log hs ha hc hcont ?_
  rw [hcont.lastLogIndex, hs, hl, ← h.lastLogIndex]
  exact h.commit_le

theorem WellFormed.stepsDown {term : ℕ} (h : core.WellFormed) (hs : core.StepsDown term core') :
    core'.WellFormed := by
  rcases hs with ⟨-, rfl⟩ | ⟨-, rfl⟩
  · exact h.congr rfl rfl rfl rfl
  · exact h

/-- Appending the next entry. -/
theorem WellFormed.append (h : core.WellFormed) (entry : LogEntry)
    (he : entry.index = core.lastLogIndex + 1) (hl : core'.log = core.log ++ [entry])
    (hs : core'.snapshotLastIndex = core.snapshotLastIndex)
    (ha : core'.lastApplied = core.lastApplied) (hc : core'.commitIndex = core.commitIndex) :
    core'.WellFormed := by
  have hcont : core'.Contiguous := by
    rw [Contiguous, hs, hl, Indexed.append_iff, Indexed.singleton_iff, ← h.lastLogIndex]
    exact ⟨h.contiguous, he⟩
  refine h.of_log hs ha hc hcont ?_
  have := h.commit_le
  rw [h.lastLogIndex] at this
  rw [hcont.lastLogIndex, hs, hl, List.length_append]
  omega

theorem observeTerm_wellFormed [Storage σ] (h : core.WellFormed) {term : ℕ}
    (ho : core.observeTerm term = .ok core') : core'.WellFormed := by
  rcases observeTerm_ok ho with ⟨-, rfl⟩ | ⟨-, s, -, rfl⟩
  · exact h
  · exact h.congr rfl rfl rfl rfl

/-- Raising the commit index within the log. -/
theorem WellFormed.commit (h : core.WellFormed) {i : ℕ} (hi : core.commitIndex ≤ i)
    (hle : i ≤ core.lastLogIndex) : WellFormed { core with commitIndex := i } :=
  ⟨h.contiguous, h.snapshot_le, h.applied_le.trans hi, hle⟩

/-! ### Compaction and application -/

section Applying

variable [Storage σ] [Snapshotable μ]

/-- Compaction drops what the snapshot covers. -/
theorem WellFormed.compacted (h : core.WellFormed) (hc : core.Compacted core') :
    core'.WellFormed := by
  obtain ⟨entry, data, hlt, he, -, hcore'⟩ := hc
  have hs : core'.snapshotLastIndex = core.lastApplied := by rw [hcore']
  have hl : core'.log = core.log.drop (core.lastApplied - core.snapshotLastIndex) := by
    rw [hcore', ← h.contiguous.filter_gt core.lastApplied]
    rfl
  have ha : core'.lastApplied = core.lastApplied := by rw [hcore']
  have hc : core'.commitIndex = core.commitIndex := by rw [hcore']
  have happlied := h.applied_le
  have hcommit := h.commit_le
  rw [h.lastLogIndex] at hcommit
  have hcont : core'.Contiguous := by
    have := Indexed.drop h.contiguous (n := core.lastApplied - core.snapshotLastIndex) (by omega)
    rwa [Nat.add_sub_cancel' h.snapshot_le, ← hl, ← hs] at this
  refine ⟨hcont, by rw [hs, ha], by rw [ha, hc]; exact happlied, ?_⟩
  rw [hcont.lastLogIndex, hs, hc, hl, List.length_drop]
  omega

/-- A compaction keeps the entries above it. -/
theorem Compacted.getLogEntry (h : core.Compacted core') (hc : core.Contiguous) {i : ℕ}
    (hi : core.lastApplied < i) : core'.getLogEntry i = core.getLogEntry i := by
  obtain ⟨entry, data, hlt, -, -, rfl⟩ := h
  have hcont : Indexed core.snapshotLastIndex core.log := hc
  have hdrop := hcont.filter_gt core.lastApplied
  simp only [gt_iff_lt, ← Nat.succ_le_iff] at hdrop
  simp only [RaftCore.getLogEntry, ge_iff_le, ← Nat.succ_eq_add_one, hdrop]
  rw [if_neg (by omega), if_neg (by omega), List.getElem?_drop]
  congr 1
  omega

theorem Compacted.lastLogIndex (h : core.Compacted core') (hwf : core.WellFormed) :
    core'.lastLogIndex = core.lastLogIndex := by
  have hlast := (hwf.compacted h).lastLogIndex
  obtain ⟨entry, data, hlt, -, -, rfl⟩ := h
  have hdrop := hwf.contiguous.filter_gt core.lastApplied
  have happlied := hwf.applied_le
  have hcommit := hwf.commit_le
  rw [hwf.lastLogIndex] at hcommit
  simp only [ge_iff_le, gt_iff_lt, ← Nat.succ_le_iff, Nat.succ_eq_add_one] at hlast hdrop ⊢
  rw [hlast, hdrop, hwf.lastLogIndex, List.length_drop]
  omega

theorem WellFormed.autoSnapshot [InfallibleStorage σ] (h : core.WellFormed) :
    core.autoSnapshot.WellFormed := by
  rcases autoSnapshot_cases core with heq | hc
  · rwa [heq]
  · exact h.compacted hc

omit [Storage σ] in
/-- The loop of `apply_committed_entries` finds every entry up to the end of the log. -/
theorem applyLoop_returns {n : ℕ} (hcont : core.Contiguous)
    (hs : core.snapshotLastIndex ≤ core.lastApplied) (hn : core.lastApplied + n ≤ core.lastLogIndex)
    (results : List (ℕ × ApplyResult)) : ∃ r, applyLoop n core results = .ok r := by
  induction n generalizing core results with
  | zero => exact ⟨_, rfl⟩
  | succ n ih =>
      obtain ⟨entry, he⟩ := hcont.exists_getLogEntry (i := core.lastApplied + 1) (by omega) (by omega)
      have he' : getLogEntry { core with lastApplied := core.lastApplied + 1 }
          (core.lastApplied + 1) = some entry := he
      rw [applyLoop]
      simp only [he']
      have hle : core.lastApplied + 1 + n ≤ core.lastLogIndex := by omega
      exact @ih { core with
        lastApplied := core.lastApplied + 1
        stateMachine := (StateMachine.apply core.stateMachine entry.command).1 }
        hcont (Nat.le_succ_of_le hs) hle _

/-- What `apply_committed_entries` needs: the snapshot is applied, and the commit index lies within
the log. -/
theorem applyCommittedEntries_returns (hcont : core.Contiguous)
    (hs : core.snapshotLastIndex ≤ core.lastApplied)
    (hc : core.commitIndex ≤ core.lastLogIndex) : ∃ r, core.applyCommittedEntries = .ok r := by
  refine Except.exists_bind_ok ?_ fun _ _ => ⟨_, rfl⟩
  rcases Nat.le_total core.lastApplied core.commitIndex with hle | hge
  · exact applyLoop_returns hcont hs (by omega) []
  · rw [Nat.sub_eq_zero_of_le hge]
    exact ⟨_, rfl⟩

theorem applyCommittedEntries_wellFormed [InfallibleStorage σ] (h : core.WellFormed)
    {results : List (ℕ × ApplyResult)}
    (ha : core.applyCommittedEntries = .ok (core', results)) : core'.WellFormed := by
  obtain ⟨es, -, -, -, rfl⟩ := applyCommittedEntries_ok ha
  refine WellFormed.autoSnapshot ⟨h.contiguous, ?_, ?_, h.commit_le⟩
  · exact h.snapshot_le.trans (le_max_left _ _)
  · exact max_le h.applied_le le_rfl

end Applying

/-! ### The handlers -/

section Handlers

variable [Storage σ]

omit [Storage σ] in
/-- An accepted request starts inside the log. -/
theorem PrevMatches.le_lastLogIndex {prevLogIndex prevLogTerm : ℕ}
    (h : core.PrevMatches prevLogIndex prevLogTerm) : prevLogIndex ≤ core.lastLogIndex := by
  rcases h with rfl | ⟨hle, -⟩
  · exact Nat.zero_le _
  · exact hle

/-- The entries of a request continue `prev_log_index`, and do not contradict what the node has
committed. -/
def Continues (core : RaftCore σ μ) (args : AppendEntriesArgs) : Prop :=
  Indexed args.prevLogIndex args.entries ∧
    ∀ e ∈ args.entries, ∀ x ∈ core.getLogEntry e.index,
      e.index ≤ core.commitIndex → x.term = e.term

instance (core : RaftCore σ μ) (args : AppendEntriesArgs) : Decidable (core.Continues args) := by
  unfold Continues
  infer_instance

/-- The request makes the node cut its log above a snapshot: it is accepted, one of its entries
conflicts, and there is a snapshot. -/
def CutsAboveSnapshot (core : RaftCore σ μ) (args : AppendEntriesArgs) : Prop :=
  0 < core.snapshotLastIndex ∧ core.currentTerm ≤ args.term ∧
    core.PrevMatches args.prevLogIndex args.prevLogTerm ∧
    ∃ e ∈ args.entries, Conflicts core.snapshotLastIndex core.log e

instance (core : RaftCore σ μ) (args : AppendEntriesArgs) :
    Decidable (core.CutsAboveSnapshot args) := by
  unfold CutsAboveSnapshot
  infer_instance

omit [Storage σ] in
/-- Taking over the entries keeps the representation, and what is committed. -/
theorem WellFormed.takeOver (h : core.WellFormed) {args : AppendEntriesArgs}
    (hargs : core.Continues args) (hprev : args.prevLogIndex ≤ core.lastLogIndex)
    (hcut : 0 < core.snapshotLastIndex →
      ∀ e ∈ args.entries, ¬ Conflicts core.snapshotLastIndex core.log e)
    (hl : core'.log = takeOver core.snapshotLastIndex core.log args.entries)
    (hs : core'.snapshotLastIndex = core.snapshotLastIndex)
    (ha : core'.lastApplied = core.lastApplied) (hc : core'.commitIndex = core.commitIndex) :
    core'.WellFormed := by
  rw [h.lastLogIndex] at hprev
  have hcont : core'.Contiguous := by
    rw [Contiguous, hs, hl]
    exact Indexed.takeOver h.contiguous hargs.1 hprev hcut
  refine h.of_log hs ha hc hcont ?_
  rw [hcont.lastLogIndex, hs, hl]
  refine le_takeOver_length hargs.1 hprev hcut (h.lastLogIndex ▸ h.commit_le) ?_
  rintro e he hle ⟨hlt, x, hx, hne⟩
  exact hne (hargs.2 e he x (getLogEntry_eq_some.2 ⟨hlt, hx⟩) hle)

variable [Snapshotable μ]

theorem acceptEntries_wellFormed [InfallibleStorage σ] (h : core.WellFormed)
    {args : AppendEntriesArgs} (hargs : core.Continues args)
    (hprev : args.prevLogIndex ≤ core.lastLogIndex)
    (hcut : 0 < core.snapshotLastIndex →
      ∀ e ∈ args.entries, ¬ Conflicts core.snapshotLastIndex core.log e)
    (ha : core.acceptEntries args = .ok core') : core'.WellFormed := by
  obtain ⟨s, core₁, -, hcore₁, hor⟩ := acceptEntries_ok ha
  have h₁ : core₁.WellFormed := by
    subst hcore₁
    exact h.takeOver hargs hprev hcut rfl rfl rfl rfl
  rcases hor with ⟨-, rfl⟩ | ⟨hlt, results, happly⟩
  · exact h₁
  · have hci : core₁.commitIndex = core.commitIndex := by rw [hcore₁]
    refine applyCommittedEntries_wellFormed (h₁.commit ?_ (min_le_right _ _)) happly
    exact le_min (hci ▸ hlt.le) h₁.commit_le

theorem acceptEntries_returns [InfallibleStorage σ] (h : core.WellFormed)
    {args : AppendEntriesArgs} (hargs : core.Continues args)
    (hprev : args.prevLogIndex ≤ core.lastLogIndex)
    (hcut : 0 < core.snapshotLastIndex →
      ∀ e ∈ args.entries, ¬ Conflicts core.snapshotLastIndex core.log e) :
    ∃ core', core.acceptEntries args = .ok core' := by
  refine Except.exists_bind_ok (applyEntries_returns _ _) fun core₁ h₁ => ?_
  obtain ⟨s, -, hcore₁⟩ := applyEntries_ok h₁
  have hwf : core₁.WellFormed := by
    subst hcore₁
    exact h.takeOver hargs hprev hcut rfl rfl rfl rfl
  split
  · rename_i hlt
    have hcommit := hwf.commit (le_min hlt.le hwf.commit_le) (min_le_right _ _)
    exact Except.exists_bind_ok (applyCommittedEntries_returns hcommit.contiguous
      hcommit.snapshot_le hcommit.commit_le) fun _ _ => ⟨_, rfl⟩
  · exact ⟨_, rfl⟩

omit [Snapshotable μ] in
/-- What a follower is after observing the term of a request and recognising its sender. -/
theorem observed_wellFormed {core₁ core₂ : RaftCore σ μ} (h : core.WellFormed)
    {args : AppendEntriesArgs} (hargs : core.Continues args) (hcut : ¬ core.CutsAboveSnapshot args)
    (h₁ : core.observeTerm args.term = .ok core₁) (hterm : core₁.currentTerm = args.term)
    (h₂ : core₂ = { core₁ with state := .follower, currentLeader := some args.leaderId }) :
    core₂.WellFormed ∧ core₂.Continues args ∧
      (core₂.PrevMatches args.prevLogIndex args.prevLogTerm → 0 < core₂.snapshotLastIndex →
        ∀ e ∈ args.entries, ¬ Conflicts core₂.snapshotLastIndex core₂.log e) := by
  have hle : core.currentTerm ≤ args.term := by
    have := observeTerm_currentTerm h₁
    omega
  subst h₂
  refine ⟨(observeTerm_wellFormed h h₁).congr rfl rfl rfl rfl, ?_, ?_⟩
  · rcases observeTerm_ok h₁ with ⟨-, rfl⟩ | ⟨-, s, -, rfl⟩ <;> exact hargs
  · intro hp hpos e he hconf
    apply hcut
    rcases observeTerm_ok h₁ with ⟨-, rfl⟩ | ⟨-, s, -, rfl⟩ <;> exact ⟨hpos, hle, hp, e, he, hconf⟩

theorem handleAppendEntries_wellFormed [InfallibleStorage σ] (h : core.WellFormed)
    {args : AppendEntriesArgs} (hargs : core.Continues args) (hcut : ¬ core.CutsAboveSnapshot args)
    {out : HandleAppendEntriesOutput} (ha : core.handleAppendEntries args = .ok (core', out)) :
    core'.WellFormed := by
  obtain ⟨core₁, h₁, ⟨-, rfl, -, -⟩ | ⟨hterm, core₂, h₂, hor⟩⟩ := handleAppendEntries_ok ha
  · exact observeTerm_wellFormed h h₁
  · obtain ⟨hwf, hcont, hno⟩ := observed_wellFormed h hargs hcut h₁ hterm h₂
    rcases hor with ⟨rfl, -, -⟩ | ⟨hp, hacc, -, -⟩
    · exact hwf
    · exact acceptEntries_wellFormed hwf hcont hp.le_lastLogIndex (hno hp) hacc

theorem handleAppendEntries_returns [InfallibleStorage σ] (h : core.WellFormed)
    {args : AppendEntriesArgs} (hargs : core.Continues args)
    (hcut : ¬ core.CutsAboveSnapshot args) : ∃ r, core.handleAppendEntries args = .ok r := by
  obtain ⟨core₁, h₁⟩ := observeTerm_returns core args.term
  rcases handleAppendEntries_cases h₁ with ⟨-, out, heq, -⟩ | ⟨hterm, core₂, h₂, hor⟩
  · exact ⟨_, heq⟩
  · obtain ⟨hwf, hcont, hno⟩ := observed_wellFormed h hargs hcut h₁ hterm h₂
    rcases hor with ⟨out, heq, -⟩ | ⟨hp, heq⟩
    · exact ⟨_, heq⟩
    · rw [heq]
      exact Except.exists_bind_ok (acceptEntries_returns hwf hcont hp.le_lastLogIndex (hno hp))
        fun _ _ => ⟨_, rfl⟩

/-- An installed snapshot drops the entries it covers. -/
theorem handleInstallSnapshot_wellFormed (h : core.WellFormed) {args : InstallSnapshotArgs}
    {result : InstallSnapshotResult}
    (hi : core.handleInstallSnapshot args = .ok (core', result)) : core'.WellFormed := by
  rcases handleInstallSnapshot_ok hi with ⟨-, rfl, -⟩ | ⟨core₁, core₂, h₁, -, h₂, hor⟩
  · exact h
  · have hwf : core₂.WellFormed := by
      subst h₂
      exact (observeTerm_wellFormed h h₁).congr rfl rfl rfl rfl
    rcases hor with ⟨s, reason, rfl, -, -⟩ | ⟨hlt, s, m, -, -, hcore', -⟩
    · exact hwf.congr rfl rfl rfl rfl
    · have hs : core'.snapshotLastIndex = args.lastIncludedIndex := by rw [hcore']
      have hl : core'.log =
          core₂.log.drop (args.lastIncludedIndex - core₂.snapshotLastIndex) := by
        rw [hcore', ← hwf.contiguous.filter_gt]
      have ha : core'.lastApplied = max core₂.lastApplied args.lastIncludedIndex := by rw [hcore']
      have hc : core'.commitIndex = max core₂.commitIndex args.lastIncludedIndex := by rw [hcore']
      have hcommit := hwf.commit_le
      rw [hwf.lastLogIndex] at hcommit
      have hcont : core'.Contiguous := by
        rw [Contiguous, hs, hl]
        rcases Nat.lt_or_ge core₂.log.length
          (args.lastIncludedIndex - core₂.snapshotLastIndex) with hgt | hle
        · rw [List.drop_of_length_le hgt.le]
          exact Indexed.nil
        · have := Indexed.drop hwf.contiguous hle
          rwa [Nat.add_sub_cancel' hlt.le] at this
      refine ⟨hcont, by rw [hs, ha]; exact le_max_right _ _, ?_, ?_⟩
      · rw [ha, hc]
        exact max_le_max hwf.applied_le le_rfl
      · rw [hcont.lastLogIndex, hs, hc, hl, List.length_drop]
        omega

/-- Installing a snapshot panics only if the state machine cannot be restored. -/
theorem handleInstallSnapshot_error [InfallibleStorage σ] {args : InstallSnapshotArgs}
    {p : Panic σ} (hi : core.handleInstallSnapshot args = .error p) :
    ∃ message error, p.reason = .restore message error := by
  unfold handleInstallSnapshot at hi
  split at hi
  · simp at hi
  · obtain ⟨core₁, h₁⟩ := observeTerm_returns core args.term
    simp only [h₁, bind, Except.bind] at hi
    split at hi
    · simp [pure, Except.pure] at hi
    · split at hi
      · simp [pure, Except.pure] at hi
      · rename_i s hsave
        cases hr : Snapshotable.restore core₁.stateMachine args.data with
        | error e =>
            simp only [hr, expectRestore, Except.error.injEq] at hi
            exact ⟨_, _, by rw [← hi]⟩
        | ok m => simp [hr, expectRestore, pure, Except.pure] at hi

theorem handleAppendEntriesResult_wellFormed [InfallibleStorage σ] (h : core.WellFormed)
    {peerId entryIndex : ℕ} {result : AppendEntriesResult} {commit : Option ℕ}
    {results : List (ℕ × ApplyResult)} (hle : entryIndex ≤ core.lastLogIndex)
    (hr : core.handleAppendEntriesResult peerId entryIndex result =
      .ok (core', commit, results)) : core'.WellFormed := by
  obtain ⟨core₁, h₁, hor⟩ := handleAppendEntriesResult_ok hr
  have hwf := observeTerm_wellFormed h h₁
  have hlast : core₁.lastLogIndex = core.lastLogIndex := by
    obtain ⟨hl, hs, -, -⟩ := observeTerm_log h₁
    rw [hwf.lastLogIndex, h.lastLogIndex, hl, hs]
  rcases hor with ⟨-, rfl, -⟩ | ⟨-, core₂, h₂, hor⟩
  · exact hwf
  · obtain ⟨next, matchIndex, heq, -, -⟩ :=
      recordAppendResult_eq core₁ peerId entryIndex result
    rw [heq] at h₂
    subst h₂
    have hwf₂ : WellFormed { core₁ with nextIndex := next, matchIndex } :=
      hwf.congr rfl rfl rfl rfl
    rcases hor with ⟨rfl, -⟩ | ⟨-, -, -, hlt, -, happly⟩
    · exact hwf₂
    · exact applyCommittedEntries_wellFormed
        (hwf₂.commit (Nat.le_of_lt hlt) (hlast.symm ▸ hle)) happly

theorem handleAppendEntriesResult_returns [InfallibleStorage σ] (h : core.WellFormed)
    {peerId entryIndex : ℕ} (result : AppendEntriesResult) (hle : entryIndex ≤ core.lastLogIndex) :
    ∃ r, core.handleAppendEntriesResult peerId entryIndex result = .ok r := by
  refine Except.exists_bind_ok (observeTerm_returns _ _) fun core₁ h₁ => ?_
  have hwf := observeTerm_wellFormed h h₁
  have hlast : core₁.lastLogIndex = core.lastLogIndex := by
    obtain ⟨hl, hs, -, -⟩ := observeTerm_log h₁
    rw [hwf.lastLogIndex, h.lastLogIndex, hl, hs]
  obtain ⟨next, matchIndex, heq, -, -⟩ := recordAppendResult_eq core₁ peerId entryIndex result
  rw [heq]
  split
  · exact ⟨_, rfl⟩
  · simp only
    split
    · exact ⟨_, rfl⟩
    · split
      · exact ⟨_, rfl⟩
      · split
        · rename_i hmaj
          have hlt : core₁.commitIndex < entryIndex := hmaj.2
          have hwf₂ : WellFormed { core₁ with nextIndex := next, matchIndex } :=
            hwf.congr rfl rfl rfl rfl
          have hcommit := hwf₂.commit (Nat.le_of_lt hlt) (hlast.symm ▸ hle)
          exact Except.exists_bind_ok (applyCommittedEntries_returns hcommit.contiguous
            hcommit.snapshot_le hcommit.commit_le) fun _ _ => ⟨_, rfl⟩
        · exact ⟨_, rfl⟩

end Handlers

end RaftCore

/-! ### Sequences of calls -/

namespace Op

open Runs

/-- What the surroundings promise: the entries of a request continue `prev_log_index` and do not
contradict committed entries, and an answer to AppendEntries is for an index of the log. -/
def Expected (core : RaftCore σ μ) : Op → Prop
  | appendEntries args => core.Continues args
  | appendEntriesResult _ entryIndex _ => entryIndex ≤ core.lastLogIndex
  | _ => True

instance (core : RaftCore σ μ) (op : Op) : Decidable (op.Expected core) := by
  unfold Expected
  split <;> infer_instance

/-- The call makes the node cut its log above a snapshot. -/
def CutsAboveSnapshot (core : RaftCore σ μ) : Op → Prop
  | appendEntries args => core.CutsAboveSnapshot args
  | _ => False

instance (core : RaftCore σ μ) (op : Op) : Decidable (op.CutsAboveSnapshot core) := by
  unfold CutsAboveSnapshot
  split <;> infer_instance

variable [Storage σ] [Snapshotable μ] {core core' : RaftCore σ μ}

/-- **One call keeps the representation.** -/
theorem step_wellFormed [InfallibleStorage σ] (h : core.WellFormed) {op : Op}
    (hexp : op.Expected core) (hcut : ¬ op.CutsAboveSnapshot core)
    (hs : op.step core = some core') : core'.WellFormed := by
  cases ran_of_step hs with
  | requestVote hv =>
      rcases RaftCore.handleRequestVote_ok hv with ⟨-, rfl, -⟩ | ⟨core₁, h₁, -, ⟨rfl, -⟩ | hgrant⟩
      · exact h
      · exact RaftCore.observeTerm_wellFormed h h₁
      · obtain ⟨-, -, hset, -⟩ := hgrant
        obtain ⟨-, rfl⟩ := RaftCore.setVotedFor_ok.1 hset
        exact (RaftCore.observeTerm_wellFormed h h₁).congr rfl rfl rfl rfl
  | appendEntries ha => exact RaftCore.handleAppendEntries_wellFormed h hexp hcut ha
  | installSnapshot hi => exact RaftCore.handleInstallSnapshot_wellFormed h hi
  | startElection he =>
      obtain ⟨s, -, rfl⟩ := RaftCore.startElection_ok he
      exact h.congr rfl rfl rfl rfl
  | becomeLeader hb =>
      obtain ⟨s, -, rfl⟩ := RaftCore.becomeLeader_ok hb
      exact h.append core.noopEntry rfl rfl rfl rfl rfl
  | @appendLogEntry command _ _ ha =>
      rcases RaftCore.appendLogEntry_ok ha with ⟨-, rfl, -⟩ | ⟨-, e, s, -, rfl, -, rfl⟩
      · exact h
      · exact h.append ⟨core.currentTerm, core.lastLogIndex + 1, command⟩ rfl rfl rfl rfl rfl
  | applyCommittedEntries ha => exact RaftCore.applyCommittedEntries_wellFormed h ha
  | takeSnapshot =>
      rcases RaftCore.takeSnapshot_cases core with heq | hc
      · rwa [heq]
      · exact h.compacted hc
  | @requestVoteResult peerId result _ _ hv =>
      obtain ⟨core₁, h₁, ⟨-, rfl, -⟩ | ⟨-, core₂, h₂, hor⟩⟩ :=
        RaftCore.handleRequestVoteResult_ok hv
      · exact RaftCore.observeTerm_wellFormed h h₁
      · obtain ⟨votes, heq, -⟩ := RaftCore.countVote_eq core₁ peerId result
        have hwf₂ : core₂.WellFormed := by
          rw [h₂, heq]
          exact (RaftCore.observeTerm_wellFormed h h₁).congr rfl rfl rfl rfl
        rcases hor with ⟨rfl, -⟩ | ⟨-, hb, -⟩
        · exact hwf₂
        · obtain ⟨s, -, rfl⟩ := RaftCore.becomeLeader_ok hb
          exact hwf₂.append core₂.noopEntry rfl rfl rfl rfl rfl
  | appendEntriesResult hr => exact RaftCore.handleAppendEntriesResult_wellFormed h hexp hr
  | installSnapshotSuccess => exact h.congr rfl rfl rfl rfl
  | installSnapshotFailed hdown => exact h.stepsDown hdown
  | confirmResult hdown => exact h.stepsDown hdown

/-- A call on a well-formed node panics only if the state machine cannot be restored. -/
theorem run_error [InfallibleStorage σ] (h : core.WellFormed) {op : Op}
    (hexp : op.Expected core) (hcut : ¬ op.CutsAboveSnapshot core) {p : Panic σ}
    (hp : op.run core = .error p) : ∃ message error, p.reason = .restore message error := by
  -- every method but one returns
  have absurd_error {α : Type} {x : Except (Panic σ) α} {f : α → RaftCore σ μ × Option Reply}
      (hx : ∃ r, x = .ok r) (he : (x >>= fun a => pure (f a)) = .error p) :
      ∃ message error, p.reason = .restore message error := by
    obtain ⟨r, rfl⟩ := hx
    simp [bind, Except.bind, pure, Except.pure] at he
  cases op with
  | requestVote args => exact absurd_error (RaftCore.handleRequestVote_returns _ _) hp
  | appendEntries args => exact absurd_error (RaftCore.handleAppendEntries_returns h hexp hcut) hp
  | installSnapshot args =>
      cases hi : core.handleInstallSnapshot args with
      | error q =>
          obtain rfl : q = p := by simpa [run, hi, bind, Except.bind] using hp
          exact RaftCore.handleInstallSnapshot_error hi
      | ok r => exact absurd_error ⟨r, hi⟩ hp
  | startElection => exact absurd_error (RaftCore.startElection_returns _) hp
  | becomeLeader => exact absurd_error (RaftCore.becomeLeader_returns _) hp
  | appendLogEntry command => exact absurd_error (RaftCore.appendLogEntry_returns _ _) hp
  | applyCommittedEntries =>
      exact absurd_error (RaftCore.applyCommittedEntries_returns h.contiguous h.snapshot_le
        h.commit_le) hp
  | takeSnapshot => simp [run] at hp
  | requestVoteResult peerId result =>
      exact absurd_error (RaftCore.handleRequestVoteResult_returns _ _ _) hp
  | appendEntriesResult peerId entryIndex result =>
      exact absurd_error (RaftCore.handleAppendEntriesResult_returns h result hexp) hp
  | installSnapshotResult peerId lastIncludedIndex result => simp [run] at hp
  | confirmResult result => simp [run] at hp

/-- **The representation of the log** over every sequence of calls that keeps the promises, fits
into the machine range and never cuts the log above a snapshot: the node stays well formed and in the
range, every entry is found at its own index, and no call that may come next panics for want of an
entry to apply. -/
theorem run_representation [InfallibleStorage σ] (h : core.WellFormed)
    {ts : List (Transition (RaftCore σ μ) Op)} (hr : Run step core ts core')
    (hexp : ∀ t ∈ ts, t.action.Expected t.source) (hfits : ∀ t ∈ ts, t.action.Fits t.source)
    (hcut : ∀ t ∈ ts, ¬ t.action.CutsAboveSnapshot t.source) :
    core'.WellFormed ∧ (∀ i e, core'.getLogEntry i = some e → e.index = i) ∧
      (∀ t ∈ ts, t.target.Within u64Max) ∧
      ∀ op : Op, op.Expected core' → op.Fits core' → ¬ op.CutsAboveSnapshot core' →
        ∀ p, op.run core' = .error p → ∃ message error, p.reason = .restore message error := by
  have hwf : core'.WellFormed := hr.invariant
    (P := fun t => t.action.Expected t.source ∧ ¬ t.action.CutsAboveSnapshot t.source)
    (fun _ _ _ hi hs hp => step_wellFormed hi hp.1 hp.2 hs) h
    fun t ht => ⟨hexp t ht, hcut t ht⟩
  exact ⟨hwf, fun i e he => hwf.contiguous.getLogEntry_index he,
    fun t ht => (hfits t ht).step_within (hr.step_of_mem ht),
    fun op hexp _ hcut p hp => run_error hwf hexp hcut hp⟩

/-- A follower takes over three entries, the first two of them committed, and compacts its log. -/
def compacting : List Op :=
  [.appendEntries ⟨1, 2, 0, 0, [⟨1, 1, noopCommand⟩, ⟨1, 2, "SET x 1"⟩, ⟨1, 3, "SET x 2"⟩], 2⟩,
    .takeSnapshot]

/-- The next leader overwrites the third entry, and commits its own. -/
def overwriting : List Op :=
  [.appendEntries ⟨2, 3, 2, 1, [⟨2, 3, noopCommand⟩, ⟨2, 4, "SET x 3"⟩], 2⟩]

/-- The compaction keeps the representation. -/
theorem run_representation_compacting : ∃ (ts : List _)
    (core : RaftCore MemoryStorage Recorder),
    Run step (.fresh 1 [2, 3] .new .new) ts core ∧ core.WellFormed ∧
      core.snapshotLastIndex = 2 ∧ core.log.length = 1 := by
  obtain ⟨ts, core, hr, hP, hQ⟩ := exists_run step
    (RaftCore.fresh 1 [2, 3] MemoryStorage.new Recorder.new) compacting
    (P := fun t => t.action.Expected t.source ∧ t.action.Fits t.source ∧
      ¬ t.action.CutsAboveSnapshot t.source)
    (Q := fun core => core.snapshotLastIndex = 2 ∧ core.log.length = 1) (by decide)
  have hwf : (RaftCore.fresh 1 [2, 3] MemoryStorage.new Recorder.new).WellFormed :=
    ⟨Indexed.nil, le_rfl, le_rfl, le_rfl⟩
  exact ⟨ts, core, hr, (run_representation hwf hr (fun t ht => (hP t ht).1)
    (fun t ht => (hP t ht).2.1) fun t ht => (hP t ht).2.2).1, hQ⟩

/-- **The representation is lost** when the entry to overwrite lies above a snapshot: the position
of the cut does not subtract the snapshot's index, so the old entry stays. -/
theorem representation_lost : ∃ (ts : List _) (core : RaftCore MemoryStorage Recorder),
    Run step (.fresh 1 [2, 3] .new .new) ts core ∧
      (∀ t ∈ ts, t.action.Expected t.source) ∧ ¬ core.WellFormed ∧
      ∃ e, core.getLogEntry 4 = some e ∧ e.index ≠ 4 := by
  obtain ⟨ts, core, hr, hP, hQ⟩ := exists_run step
    (RaftCore.fresh 1 [2, 3] MemoryStorage.new Recorder.new) (compacting ++ overwriting)
    (P := fun t => t.action.Expected t.source)
    (Q := fun core => core.getLogEntry 4 = some ⟨2, 3, noopCommand⟩) (by decide)
  have hne : ¬ core.WellFormed := by
    intro h
    have := h.contiguous.getLogEntry_index hQ
    simp at this
  exact ⟨ts, core, hr, hP, hne, _, hQ, by simp⟩

end Op

end RaftVibe
