/-
**A snapshot that fails.**

`take_snapshot` saves the snapshot, moves the boundary and compacts the log, and returns at the first
step that fails; `apply_committed_entries` prints the error and goes on.  Up to the save nothing has
moved, so every failure up to there leaves the node as usable as before.  The boundary is moved before
the stored log is compacted and the vector only after it, so a failed compaction leaves a vector that
begins below its boundary: every lookup is off by the length of what should have been dropped.

Main definitions:

* `RaftVibe.RaftCore.Usable` — the representation holds, and lookups answer as before;
* `RaftVibe.RaftCore.FailsToCompact` — it is the compaction that fails.

Main results:

* `RaftVibe.RaftCore.usable_iff` — **exactly which failures leave the node usable**.
-/

import RaftVibe.RaftCoreSpec

set_option relaxedAutoImplicit false
set_option autoImplicit false

namespace RaftVibe

namespace RaftCore

variable {σ μ : Type} [Snapshotable μ] {core core' : RaftCore σ μ}

/-- The node can go on: the representation of the log holds, lookups answer as they did in `core`,
and so whatever is committed later is applied as it would have been. -/
structure Usable (core core' : RaftCore σ μ) : Prop where
  contiguous : core'.Contiguous
  getLogEntry : ∀ i, core'.getLogEntry i = core.getLogEntry i
  lastLogIndex : core'.lastLogIndex = core.lastLogIndex
  lastLogTerm : core'.lastLogTerm = core.lastLogTerm
  applies : ∀ n results core₁ results₁, applyLoop n core results = .ok (core₁, results₁) →
    ∃ core₁', applyLoop n core' results = .ok (core₁', results₁) ∧
      core₁'.stateMachine = core₁.stateMachine ∧ core₁'.lastApplied = core₁.lastApplied

/-- The loop of `apply_committed_entries` sees the log through `get_log_entry` alone. -/
theorem applyLoop_congr {n : ℕ} {results results₁ : List (ℕ × ApplyResult)} {core₁ : RaftCore σ μ}
    (hget : ∀ i, core'.getLogEntry i = core.getLogEntry i)
    (ha : core'.lastApplied = core.lastApplied) (hm : core'.stateMachine = core.stateMachine)
    (h : applyLoop n core results = .ok (core₁, results₁)) :
    ∃ core₁', applyLoop n core' results = .ok (core₁', results₁) ∧
      core₁'.stateMachine = core₁.stateMachine ∧ core₁'.lastApplied = core₁.lastApplied := by
  induction n generalizing core core' results with
  | zero =>
      obtain ⟨rfl, rfl⟩ := Prod.mk.inj (Except.ok.inj h)
      exact ⟨core', rfl, hm, ha⟩
  | succ n ih =>
      rw [applyLoop] at h ⊢
      have hentry : getLogEntry { core' with lastApplied := core'.lastApplied + 1 }
          (core'.lastApplied + 1) =
          getLogEntry { core with lastApplied := core.lastApplied + 1 } (core.lastApplied + 1) := by
        rw [ha]
        exact hget _
      simp only [hentry] at h ⊢
      split
      · rename_i entry he
        simp only [he] at h
        rw [hm, ha]
        refine ih ?_ ?_ ?_ h
        · exact hget
        · rfl
        · rfl
      · rename_i he
        simp only [he] at h
        cases h

variable [Storage σ]

/-- The snapshot is saved, and then the stored log cannot be compacted. -/
def FailsToCompact (core : RaftCore σ μ) : Prop :=
  core.snapshotLastIndex < core.lastApplied ∧ ∃ entry data s,
    core.getLogEntry core.lastApplied = some entry ∧
    Snapshotable.snapshot core.stateMachine = .ok data ∧
    Storage.saveSnapshot core.storage ⟨⟨core.lastApplied, entry.term⟩, data⟩ = (.ok (), s) ∧
    ∃ e, (Storage.compactLog s (core.lastApplied + 1)).1 = .error e

omit [Storage σ] in
/-- A change of the storage alone leaves the node usable. -/
theorem usable_of_storage (h : core.Contiguous) (s : σ) : core.Usable { core with storage := s } :=
  ⟨h, fun _ => rfl, rfl, rfl, fun _ _ _ _ => applyLoop_congr (fun _ => rfl) rfl rfl⟩

/-- **A failed snapshot leaves the node usable**, unless it is the compaction of the stored log that
failed. -/
theorem usable_iff (h : core.Contiguous) {message : String}
    (hfail : core.takeSnapshot = (core', .error message)) :
    core.Usable core' ↔ ¬ core.FailsToCompact := by
  have hout := takeSnapshot_outcome core
  rw [hfail] at hout
  cases hout with
  | refused _ hor =>
      refine iff_of_true (usable_of_storage h core.storage) ?_
      rintro ⟨hlt, entry, data, s, he, hdata, -⟩
      rcases hor with hle | hnone | ⟨e, herr⟩
      · omega
      · rw [hnone] at he
        cases he
      · rw [herr] at hdata
        cases hdata
  | notSaved entry data e s _ hlt he hdata hsave =>
      refine iff_of_true (usable_of_storage h s) ?_
      rintro ⟨-, entry', data', s', he', hdata', hsave', -⟩
      obtain rfl : entry = entry' := Option.some.inj (he.symm.trans he')
      obtain rfl : data = data' := Except.ok.inj (hdata.symm.trans hdata')
      rw [hsave] at hsave'
      cases hsave'
  | notCompacted entry data s e s' _ hlt he hdata hsave hcompact =>
      refine iff_of_false (fun hu => ?_) (not_not.2 ⟨hlt, entry, data, s, he, hdata, hsave, e, by
        rw [hcompact]⟩)
      -- the vector begins above the old boundary, which is not the new one
      obtain ⟨-, hget⟩ := getLogEntry_eq_some.1 he
      have hpos : 0 < core.log.length := Nat.zero_lt_of_lt (List.getElem?_eq_some_iff.1 hget).1
      have hold := h 0 core.log[0] (List.getElem?_eq_getElem hpos)
      have hnew := hu.contiguous 0 core.log[0] (List.getElem?_eq_getElem hpos)
      simp only at hnew
      omega

/-! ### A disk that is full -/

/-- A storage with no room left for the copy that compacting the log writes, and perhaps none for a
snapshot. -/
structure FullDisk where
  contents : StorageContents
  snapshotFits : Bool
deriving DecidableEq, Repr

instance : Storage FullDisk where
  loadTerm d := Storage.loadTerm d.contents
  saveTerm d term := (.ok (), { d with contents := { d.contents with term } })
  loadVotedFor d := Storage.loadVotedFor d.contents
  saveVotedFor d votedFor := (.ok (), { d with contents := { d.contents with votedFor } })
  loadLog d := Storage.loadLog d.contents
  appendLogEntries d entries :=
    (.ok (), { d with contents := { d.contents with log := d.contents.log ++ entries } })
  truncateLog d fromIndex := (.ok (), { d with contents := d.contents.truncateLog fromIndex })
  compactLog d _ := (.error (.io "No space left on device"), d)
  loadSnapshot d := Storage.loadSnapshot d.contents
  saveSnapshot d snapshot :=
    if d.snapshotFits then
      (.ok (), { d with contents := { d.contents with snapshot := some snapshot } })
    else (.error (.io "No space left on device"), d)

/-- A node that has three entries and has applied two. -/
def twoApplied (snapshotFits : Bool) : RaftCore FullDisk Recorder :=
  { RaftCore.fresh 1 [2, 3] ⟨.empty, snapshotFits⟩ .new with
    currentTerm := 1
    log := [⟨1, 1, noopCommand⟩, ⟨1, 2, "SET x 1"⟩, ⟨1, 3, "SET x 2"⟩]
    commitIndex := 2
    lastApplied := 2 }

theorem twoApplied_contiguous (snapshotFits : Bool) : (twoApplied snapshotFits).Contiguous :=
  show Indexed 0 [⟨1, 1, noopCommand⟩, ⟨1, 2, "SET x 1"⟩, ⟨1, 3, "SET x 2"⟩] by decide

theorem usable_iff_notSaved : ∃ core', (twoApplied false).takeSnapshot =
      (core', .error "Failed to save snapshot: I/O error: No space left on device") ∧
    (twoApplied false).Usable core' := by
  refine ⟨_, rfl, (usable_iff (twoApplied_contiguous false) rfl).2 ?_⟩
  rintro ⟨-, entry, data, s, -, -, hsave, -⟩
  have hno : (Storage.saveSnapshot (twoApplied false).storage
      ⟨⟨(twoApplied false).lastApplied, entry.term⟩, data⟩).1 ≠ .ok () := by
    simp [Storage.saveSnapshot, twoApplied, fresh]
  exact hno (congrArg Prod.fst hsave)

/-- **A failed compaction**: the next entry to apply is the third, and the lookup gives the
first. -/
theorem unusable_after_failure : (twoApplied true).Contiguous ∧ ∃ core',
    (twoApplied true).takeSnapshot =
      (core', .error "Failed to compact log: I/O error: No space left on device") ∧
    (twoApplied true).getLogEntry 3 = some ⟨1, 3, "SET x 2"⟩ ∧
    core'.getLogEntry 3 = some ⟨1, 1, noopCommand⟩ ∧ ¬ (twoApplied true).Usable core' := by
  refine ⟨twoApplied_contiguous true, _, rfl, rfl, rfl, fun hu => ?_⟩
  have := hu.getLogEntry 3
  revert this
  decide

end RaftCore

end RaftVibe
