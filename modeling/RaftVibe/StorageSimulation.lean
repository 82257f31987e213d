/-
**One storage in the place of another.**

A node sees its storage only through the trait.  So if two storages answer alike, and go on doing so
as long as the numbers that are saved fit into 64 bits, two nodes that only differ in their storages
do the same.  The relation of the two storages is a parameter: it may also say which files are in
order, which the trait does not.

Main definitions:

* `RaftVibe.Simulates` — related storages answer alike, and stay related;
* `RaftVibe.RaftCore.Savable`, `RaftVibe.Op.Savable` — the numbers that a node may save are `u64`s;
* `RaftVibe.RaftCore.Twin` — **the same node on another storage**.

Main results:

* `RaftVibe.Op.run_twin` — **a call does the same on both**;
* `RaftVibe.Op.exists_run_twin` — so does every sequence of calls.
-/

import RaftVibe.MachineRange
import RaftVibe.Outcomes
import RaftVibe.StorageCalls

set_option relaxedAutoImplicit false
set_option autoImplicit false

namespace RaftVibe

open Outcomes Runs

/-! ### Numbers that are saved -/

/-- **The numbers that a node may save are `u64`s.** -/
structure RaftCore.Savable {σ μ : Type} (core : RaftCore σ μ) : Prop where
  id_le : core.id ≤ u64Max
  within : core.Within u64Max
  term_le : ∀ e ∈ core.log, e.term ≤ u64Max

/-- Only what is saved counts. -/
theorem RaftCore.Savable.congr {σ τ μ : Type} {core : RaftCore σ μ} {core' : RaftCore τ μ}
    (h : core.Savable) (hid : core'.id = core.id) (ht : core'.currentTerm = core.currentTerm)
    (hs : core'.snapshotLastIndex = core.snapshotLastIndex)
    (ha : core'.lastApplied = core.lastApplied) (hc : core'.commitIndex = core.commitIndex)
    (hl : core'.log = core.log) : core'.Savable := by
  obtain ⟨hid', ⟨ht', hs', ha', hc', hl'⟩, hlog⟩ := h
  exact ⟨hid ▸ hid', ⟨ht ▸ ht', hs ▸ hs', ha ▸ ha', hc ▸ hc', hl ▸ hl'⟩, hl ▸ hlog⟩

/-- The numbers that come with a call are `u64`s, as far as they may be saved and are not bounded by
`Op.Within`. -/
def Op.Savable : Op → Prop
  | requestVote args => args.candidateId ≤ u64Max
  | appendEntries args => ∀ e ∈ args.entries, e.term ≤ u64Max
  | installSnapshot args => args.lastIncludedTerm ≤ u64Max
  | _ => True

instance : (op : Op) → Decidable op.Savable
  | .requestVote args => inferInstanceAs (Decidable (args.candidateId ≤ u64Max))
  | .appendEntries args => inferInstanceAs (Decidable (∀ e ∈ args.entries, e.term ≤ u64Max))
  | .installSnapshot args => inferInstanceAs (Decidable (args.lastIncludedTerm ≤ u64Max))
  | .startElection | .becomeLeader | .appendLogEntry _ | .applyCommittedEntries | .takeSnapshot
  | .requestVoteResult _ _ | .appendEntriesResult _ _ _ | .installSnapshotResult _ _ _
  | .confirmResult _ => isTrue trivial

/-! ### The relation -/

section Relation

variable {σ τ μ : Type}

/-- **Related storages hold the same `u64`s**, and stay related if the numbers of a save are `u64`s. -/
structure Simulates [Storage σ] [Storage τ] (R : σ → τ → Prop) : Prop where
  holds : ∀ {s t}, R s t → ∃ c : StorageContents, c.Savable ∧ Holds s c ∧ Holds t c
  apply : ∀ {s t} {call : StorageCall}, R s t → call.Savable →
    (call.apply s).1 = (call.apply t).1 ∧ R (call.apply s).2 (call.apply t).2

/-- A save ends alike on both. -/
theorem Simulates.exists_apply [Storage σ] [Storage τ] {R : σ → τ → Prop} (h : Simulates R) {s : σ}
    {t : τ} (hst : R s t) (call : StorageCall) (hcall : call.Savable) :
    ∃ verdict s' t', call.apply s = (verdict, s') ∧ call.apply t = (verdict, t') ∧ R s' t' := by
  obtain ⟨hverdict, hstored⟩ := h.apply hst hcall
  exact ⟨_, _, _, rfl, Prod.ext hverdict.symm rfl, hstored⟩

/-- The relation can be turned round. -/
theorem Simulates.flip [Storage σ] [Storage τ] {R : σ → τ → Prop} (h : Simulates R) :
    Simulates (Function.swap R) where
  holds hst := by
    obtain ⟨c, hc, hs, ht⟩ := h.holds hst
    exact ⟨c, hc, ht, hs⟩
  apply hst hcall := ⟨(h.apply hst hcall).1.symm, (h.apply hst hcall).2⟩

/-- The same panic, of nodes with related storages. -/
def SamePanic (R : σ → τ → Prop) (p : Panic σ) (p' : Panic τ) : Prop :=
  p.reason = p'.reason ∧ R p.storage p'.storage

namespace RaftCore

/-- The node with another storage. -/
def onStorage (core : RaftCore σ μ) (storage : τ) : RaftCore τ μ := { core with storage }

/-- **The same node on another storage**; the numbers that it may save are `u64`s. -/
inductive Twin (R : σ → τ → Prop) : RaftCore σ μ → RaftCore τ μ → Prop
  | intro {core : RaftCore σ μ} {storage : τ} :
      R core.storage storage → core.Savable → Twin R core (core.onStorage storage)

/-- Twins, with the same result. -/
def TwinWith {β : Type} (R : σ → τ → Prop) (x : RaftCore σ μ × β) (x' : RaftCore τ μ × β) : Prop :=
  Twin R x.1 x'.1 ∧ x.2 = x'.2

theorem Twin.storage {R : σ → τ → Prop} {core : RaftCore σ μ} {core' : RaftCore τ μ}
    (h : Twin R core core') : R core.storage core'.storage := by
  obtain ⟨hst, -⟩ := h
  exact hst

theorem Twin.savable {R : σ → τ → Prop} {core : RaftCore σ μ} {core' : RaftCore τ μ}
    (h : Twin R core core') : core.Savable := by
  obtain ⟨-, hsav⟩ := h
  exact hsav

theorem Twin.eq {R : σ → τ → Prop} {core : RaftCore σ μ} {core' : RaftCore τ μ}
    (h : Twin R core core') : core' = core.onStorage core'.storage := by
  obtain ⟨-, -⟩ := h
  rfl

theorem Twin.setSnapshotThreshold {R : σ → τ → Prop} {core : RaftCore σ μ} {core' : RaftCore τ μ}
    (h : Twin R core core') (threshold : ℕ) :
    Twin R (core.setSnapshotThreshold threshold) (core'.setSnapshotThreshold threshold) := by
  obtain ⟨hst, hsav⟩ := h
  exact ⟨hst, hsav.congr rfl rfl rfl rfl rfl rfl⟩

end RaftCore

end Relation

/-! ### The methods of the core -/

namespace RaftCore

variable {σ τ μ : Type} [Storage σ] [Storage τ] {R : σ → τ → Prop} {core : RaftCore σ μ}
  {core' : RaftCore τ μ}

omit [Storage σ] [Storage τ] in
/-- Reading the log does not use the storage. -/
theorem findFirstIndexForTerm_onStorage (core : RaftCore σ μ) (t : τ) (term idx : ℕ) :
    (core.onStorage t).findFirstIndexForTerm term idx = core.findFirstIndexForTerm term idx := by
  induction idx with
  | zero => rfl
  | succ idx ih =>
      simp only [findFirstIndexForTerm, ih]
      rfl

omit [Storage σ] [Storage τ] in
/-- Applying entries does not use the storage. -/
theorem applyLoop_twin [Snapshotable μ] {n : ℕ} (h : Twin R core core')
    (hn : core.lastApplied + n ≤ u64Max) (results : List (ℕ × ApplyResult)) :
    Related (TwinWith R) (SamePanic R) (applyLoop n core results) (applyLoop n core' results) := by
  induction n generalizing core core' results with
  | zero => exact ⟨h, rfl⟩
  | succ n ih =>
      cases h with | @intro t hst hsav =>
      have hlog : getLogEntry { core.onStorage t with
          lastApplied := (core.onStorage t).lastApplied + 1 }
          ((core.onStorage t).lastApplied + 1) =
        getLogEntry { core with lastApplied := core.lastApplied + 1 } (core.lastApplied + 1) := rfl
      rw [applyLoop, applyLoop]
      simp only [hlog]
      cases getLogEntry { core with lastApplied := core.lastApplied + 1 } (core.lastApplied + 1) with
      | none => exact ⟨rfl, hst⟩
      | some entry =>
          have happlied : core.lastApplied + 1 + n ≤ u64Max := by omega
          have h' : Twin R
              { core with
                lastApplied := core.lastApplied + 1
                stateMachine := (StateMachine.apply core.stateMachine entry.command).1 }
              (onStorage { core with
                lastApplied := core.lastApplied + 1
                stateMachine := (StateMachine.apply core.stateMachine entry.command).1 } t) := by
            obtain ⟨hid, hw, hlog⟩ := hsav
            exact ⟨hst, hid, ⟨hw.term_le, hw.snapshot_le, (Nat.le_add_right _ _).trans happlied,
              hw.commit_le, hw.log_le⟩, hlog⟩
          exact ih h' happlied _

section Saving

/-- An `expect` on the same save. -/
theorem expectSave_twin (hR : Simulates R) {s : σ} {t : τ} (hst : R s t) (call : StorageCall)
    (hcall : call.Savable) (message : String) :
    Related R (SamePanic R) (expectSave message (call.apply s))
      (expectSave message (call.apply t)) := by
  obtain ⟨verdict, s', t', hs, ht, hst'⟩ := hR.exists_apply hst call hcall
  rw [hs, ht]
  cases verdict with
  | ok => exact hst'
  | error e => exact ⟨rfl, hst'⟩

variable (hR : Simulates R)
include hR

theorem setTerm_twin (h : Twin R core core') {term : ℕ} (hterm : term ≤ u64Max) :
    Related (Twin R) (SamePanic R) (core.setTerm term) (core'.setTerm term) := by
  obtain ⟨hst, hid, hw, hlog⟩ := h
  refine (expectSave_twin hR hst (.saveTerm term) hterm _).bind fun s t _ hst' => ?_
  exact ⟨hst', hid, ⟨hterm, hw.snapshot_le, hw.applied_le, hw.commit_le, hw.log_le⟩, hlog⟩

theorem setVotedFor_twin (h : Twin R core core') {votedFor : Option ℕ}
    (hvote : ∀ id ∈ votedFor, id ≤ u64Max) :
    Related (Twin R) (SamePanic R) (core.setVotedFor votedFor) (core'.setVotedFor votedFor) := by
  obtain ⟨hst, hsav⟩ := h
  refine (expectSave_twin hR hst (.saveVotedFor votedFor) hvote _).bind fun s t _ hst' => ?_
  exact ⟨hst', hsav.congr rfl rfl rfl rfl rfl rfl⟩

theorem updateTerm_twin (h : Twin R core core') {term : ℕ} (hterm : term ≤ u64Max) :
    Related (Twin R) (SamePanic R) (core.updateTerm term) (core'.updateTerm term) :=
  (setTerm_twin hR h hterm).bind fun _ _ _ h' => setVotedFor_twin hR h' (by simp)

theorem observeTerm_twin (h : Twin R core core') {term : ℕ} (hterm : term ≤ u64Max) :
    Related (Twin R) (SamePanic R) (core.observeTerm term) (core'.observeTerm term) := by
  obtain ⟨hst, hsav⟩ := h
  refine ite_rel (fun _ => (updateTerm_twin hR ⟨hst, hsav⟩ hterm).bind fun _ _ _ h' => ?_)
    fun _ => ⟨hst, hsav⟩
  obtain ⟨hst', hsav'⟩ := h'
  exact ⟨hst', hsav'.congr rfl rfl rfl rfl rfl rfl⟩

theorem persistLogEntry_twin (h : Twin R core core') {entry : LogEntry} (hentry : entry.Savable) :
    Related (Twin R) (SamePanic R) (core.persistLogEntry entry) (core'.persistLogEntry entry) := by
  obtain ⟨hst, hid, hw, hlog⟩ := h
  refine (expectSave_twin hR hst (.appendLogEntries [entry])
    (List.forall_mem_singleton.2 hentry) _).bind fun s t _ hst' => ?_
  exact ⟨hst', hid, ⟨hw.term_le, hw.snapshot_le, hw.applied_le, hw.commit_le,
    List.forall_mem_append.2 ⟨hw.log_le, List.forall_mem_singleton.2 hentry.2⟩⟩,
    List.forall_mem_append.2 ⟨hlog, List.forall_mem_singleton.2 hentry.1⟩⟩

theorem persistTruncateLog_twin (h : Twin R core core') (fromIndex : ℕ) :
    Related (Twin R) (SamePanic R) (core.persistTruncateLog fromIndex)
      (core'.persistTruncateLog fromIndex) := by
  obtain ⟨hst, hid, hw, hlog⟩ := h
  refine ite_rel (fun _ => ?_) fun _ => ⟨hst, hid, hw, hlog⟩
  refine (expectSave_twin hR hst (.truncateLog fromIndex) trivial _).bind
    fun s t _ hst' => ?_
  exact ⟨hst', hid, ⟨hw.term_le, hw.snapshot_le, hw.applied_le, hw.commit_le,
    fun e he => hw.log_le e (List.mem_of_mem_take he)⟩, fun e he => hlog e (List.mem_of_mem_take he)⟩

theorem applyEntries_twin (h : Twin R core core') {entries : List LogEntry}
    (hentries : ∀ e ∈ entries, e.Savable) :
    Related (Twin R) (SamePanic R) (applyEntries entries core) (applyEntries entries core') := by
  induction entries generalizing core core' with
  | nil => exact h
  | cons entry rest ih =>
      obtain ⟨hentry, hrest⟩ := List.forall_mem_cons.1 hentries
      have happend {core : RaftCore σ μ} {core' : RaftCore τ μ} (h : Twin R core core') :
          Related (Twin R) (SamePanic R) (core.persistLogEntry entry >>= applyEntries rest)
            (core'.persistLogEntry entry >>= applyEntries rest) :=
        (persistLogEntry_twin hR h hentry).bind fun _ _ _ h' => ih h' hrest
      cases h with | @intro t hst hsav =>
      rw [applyEntries, applyEntries]
      refine ite_rel (fun _ => ih ⟨hst, hsav⟩ hrest) fun _ => ?_
      have hplace : (core.onStorage t).log[entry.index - (core.onStorage t).snapshotLastIndex - 1]? =
        core.log[entry.index - core.snapshotLastIndex - 1]? := rfl
      simp only [hplace]
      cases core.log[entry.index - core.snapshotLastIndex - 1]? with
      | none => exact happend ⟨hst, hsav⟩
      | some existing =>
          refine ite_rel (fun _ => ?_) fun _ => ih ⟨hst, hsav⟩ hrest
          exact (persistTruncateLog_twin hR ⟨hst, hsav⟩ entry.index).bind fun _ _ _ h' => happend h'

variable [Snapshotable μ]

theorem takeSnapshot_twin (h : Twin R core core') :
    TwinWith R core.takeSnapshot core'.takeSnapshot := by
  cases h with | @intro t hst hsav =>
  unfold takeSnapshot
  refine ite_rel (fun _ => ⟨⟨hst, hsav⟩, rfl⟩) fun _ =>
    ite_rel (fun _ => ⟨⟨hst, hsav⟩, rfl⟩) fun _ => ?_
  have hlog : (core.onStorage t).getLogEntry (core.onStorage t).lastApplied =
    core.getLogEntry core.lastApplied := rfl
  rw [hlog]
  cases hentry : core.getLogEntry core.lastApplied with
  | none => exact ⟨⟨hst, hsav⟩, rfl⟩
  | some entry =>
      have hmachine : (core.onStorage t).stateMachine = core.stateMachine := rfl
      simp only [hmachine]
      cases Snapshotable.snapshot core.stateMachine with
      | error e => exact ⟨⟨hst, hsav⟩, rfl⟩
      | ok data =>
          have hterm : entry.term ≤ u64Max :=
            hsav.term_le entry (List.mem_of_getElem? (getLogEntry_eq_some.1 hentry).2)
          obtain ⟨verdict, s₁, t₁, hs₁, ht₁, hst₁⟩ := hR.exists_apply hst
            (.saveSnapshot ⟨⟨core.lastApplied, entry.term⟩, data⟩) ⟨hsav.within.applied_le, hterm⟩
          change Storage.saveSnapshot core.storage _ = _ at hs₁
          change Storage.saveSnapshot (core.onStorage t).storage
            ⟨⟨(core.onStorage t).lastApplied, entry.term⟩, data⟩ = _ at ht₁
          simp only
          rw [hs₁, ht₁]
          cases verdict with
          | error e => exact ⟨⟨hst₁, hsav.congr rfl rfl rfl rfl rfl rfl⟩, rfl⟩
          | ok =>
              obtain ⟨verdict, s₂, t₂, hs₂, ht₂, hst₂⟩ :=
                hR.exists_apply hst₁ (.compactLog (core.lastApplied + 1)) trivial
              change Storage.compactLog s₁ _ = _ at hs₂
              change Storage.compactLog t₁ ((core.onStorage t).lastApplied + 1) = _ at ht₂
              simp only
              rw [hs₂, ht₂]
              obtain ⟨hid, hw, hlog⟩ := hsav
              cases verdict with
              | error e => exact ⟨⟨hst₂, hid, ⟨hw.term_le, hw.applied_le, hw.applied_le, hw.commit_le,
                  hw.log_le⟩, hlog⟩, rfl⟩
              | ok => exact ⟨⟨hst₂, hid, ⟨hw.term_le, hw.applied_le, hw.applied_le, hw.commit_le,
                  fun e he => hw.log_le e (List.mem_filter.1 he).1⟩,
                  fun e he => hlog e (List.mem_filter.1 he).1⟩, rfl⟩

theorem autoSnapshot_twin (h : Twin R core core') : Twin R core.autoSnapshot core'.autoSnapshot := by
  cases h with | @intro t hst hsav =>
  exact ite_rel (fun _ => ite_rel (fun _ => (takeSnapshot_twin hR ⟨hst, hsav⟩).1)
    fun _ => ⟨hst, hsav⟩) fun _ => ⟨hst, hsav⟩

theorem applyCommittedEntries_twin (h : Twin R core core') :
    Related (TwinWith R) (SamePanic R) core.applyCommittedEntries core'.applyCommittedEntries := by
  have hn : core.lastApplied + (core.commitIndex - core.lastApplied) ≤ u64Max := by
    have happlied := h.savable.within.applied_le
    have hcommit := h.savable.within.commit_le
    omega
  have hloop := applyLoop_twin h hn []
  rw [h.eq] at hloop ⊢
  refine hloop.bind ?_
  rintro ⟨core₁, results⟩ ⟨core₁', _⟩ - ⟨h₁, rfl⟩
  exact ⟨autoSnapshot_twin hR h₁, rfl⟩

/-! ### The handlers -/

theorem acceptEntries_twin (h : Twin R core core') {args : AppendEntriesArgs}
    (hentries : ∀ e ∈ args.entries, e.Savable) :
    Related (Twin R) (SamePanic R) (core.acceptEntries args) (core'.acceptEntries args) := by
  refine (applyEntries_twin hR h hentries).bind fun core₁ core₁' _ h₁ => ?_
  cases h₁ with | @intro t hst hsav =>
  refine ite_rel (fun _ => ?_) fun _ => ⟨hst, hsav⟩
  have hcommitted : Twin R { core₁ with commitIndex := min args.leaderCommit core₁.lastLogIndex }
      (onStorage { core₁ with commitIndex := min args.leaderCommit core₁.lastLogIndex } t) := by
    obtain ⟨hid, hw, hlog⟩ := hsav
    exact ⟨hst, hid, ⟨hw.term_le, hw.snapshot_le, hw.applied_le,
      (min_le_right _ _).trans hw.lastLogIndex_le, hw.log_le⟩, hlog⟩
  exact (applyCommittedEntries_twin hR hcommitted).bind fun _ _ _ h₂ => h₂.1

theorem handleAppendEntries_twin (h : Twin R core core') {args : AppendEntriesArgs}
    (hterm : args.term ≤ u64Max) (hentries : ∀ e ∈ args.entries, e.Savable) :
    Related (TwinWith R) (SamePanic R) (core.handleAppendEntries args)
      (core'.handleAppendEntries args) := by
  refine (observeTerm_twin hR h hterm).bind fun core₁ core₁' _ h₁ => ?_
  cases h₁ with | @intro t hst hsav =>
  refine ite_rel (fun _ => ⟨⟨hst, hsav⟩, rfl⟩) fun _ => ?_
  have hseen : Twin R { core₁ with state := .follower, currentLeader := some args.leaderId }
      (onStorage { core₁ with state := .follower, currentLeader := some args.leaderId } t) :=
    ⟨hst, hsav.congr rfl rfl rfl rfl rfl rfl⟩
  have hreply : ∀ (core₂ : RaftCore σ μ) (core₂' : RaftCore τ μ), Twin R core₂ core₂' →
      TwinWith R (core₂, core₂.appendReply args.leaderId true none none)
        (core₂', core₂'.appendReply args.leaderId true none none) := by
    intro core₂ core₂' h₂
    cases h₂ with | @intro t hst hsav =>
    exact ⟨⟨hst, hsav⟩, rfl⟩
  have haccept := acceptEntries_twin hR hseen hentries
  refine ite_rel (fun _ => ite_rel (fun _ => ⟨hseen, rfl⟩) fun _ => ite_rel
    (fun _ => ite_rel (fun _ => ⟨hseen, rfl⟩) fun _ => haccept.bind fun _ _ _ => hreply _ _)
    fun _ => ?_) fun _ => haccept.bind fun _ _ _ => hreply _ _
  have hprev : getLogEntry { core₁.onStorage t with
        state := .follower, currentLeader := some args.leaderId } args.prevLogIndex =
      getLogEntry { core₁ with state := .follower, currentLeader := some args.leaderId }
        args.prevLogIndex := rfl
  rw [hprev]
  cases getLogEntry { core₁ with state := .follower, currentLeader := some args.leaderId }
    args.prevLogIndex with
  | none => exact ⟨hseen, rfl⟩
  | some entry =>
      refine ite_rel (fun _ => ⟨hseen, ?_⟩) fun _ => haccept.bind fun _ _ _ => hreply _ _
      simp only [appendReply]
      rw [← findFirstIndexForTerm_onStorage _ t]
      rfl

theorem handleInstallSnapshot_twin (h : Twin R core core') {args : InstallSnapshotArgs}
    (hterm : args.term ≤ u64Max) (hindex : args.lastIncludedIndex ≤ u64Max)
    (hlast : args.lastIncludedTerm ≤ u64Max) :
    Related (TwinWith R) (SamePanic R) (core.handleInstallSnapshot args)
      (core'.handleInstallSnapshot args) := by
  cases h with | @intro t hst hsav =>
  unfold handleInstallSnapshot
  refine ite_rel (fun _ => ⟨⟨hst, hsav⟩, rfl⟩) fun _ => ?_
  refine (observeTerm_twin hR ⟨hst, hsav⟩ hterm).bind fun core₁ core₁' _ h₁ => ?_
  cases h₁ with | @intro t₁ hst₁ hsav₁ =>
  have hsav₁' : Savable { core₁ with currentLeader := some args.leaderId } :=
    hsav₁.congr rfl rfl rfl rfl rfl rfl
  refine ite_rel (fun _ => ⟨⟨hst₁, hsav₁'⟩, rfl⟩) fun _ => ?_
  obtain ⟨verdict, s₂, t₂, hs₂, ht₂, hst₂⟩ := hR.exists_apply hst₁
    (.saveSnapshot ⟨⟨args.lastIncludedIndex, args.lastIncludedTerm⟩, args.data⟩) ⟨hindex, hlast⟩
  change Storage.saveSnapshot core₁.storage _ = _ at hs₂
  change Storage.saveSnapshot (core₁.onStorage t₁).storage _ = _ at ht₂
  simp only
  rw [hs₂, ht₂]
  cases verdict with
  | error e => exact ⟨⟨hst₂, hsav₁'.congr rfl rfl rfl rfl rfl rfl⟩, rfl⟩
  | ok =>
      have hmachine : (core₁.onStorage t₁).stateMachine = core₁.stateMachine := rfl
      simp only [hmachine]
      cases Snapshotable.restore core₁.stateMachine args.data with
      | error e => exact ⟨rfl, hst₂⟩
      | ok m =>
          have hst₃ : R (Storage.compactLog s₂ (args.lastIncludedIndex + 1)).2
              (Storage.compactLog t₂ (args.lastIncludedIndex + 1)).2 := by
            obtain ⟨_, _, _, hs, ht, hst⟩ :=
              hR.exists_apply hst₂ (.compactLog (args.lastIncludedIndex + 1)) trivial
            change Storage.compactLog s₂ _ = _ at hs
            change Storage.compactLog t₂ _ = _ at ht
            rw [hs, ht]
            exact hst
          obtain ⟨hid, hw, hlog⟩ := hsav₁
          exact ⟨⟨hst₃, hid, ⟨hw.term_le, hindex, max_le hw.applied_le hindex,
            max_le hw.commit_le hindex, fun e he => hw.log_le e (List.mem_filter.1 he).1⟩,
            fun e he => hlog e (List.mem_filter.1 he).1⟩, rfl⟩

omit [Snapshotable μ] in
theorem startElection_twin (h : Twin R core core') (hterm : core.currentTerm < u64Max) :
    Related (Twin R) (SamePanic R) core.startElection core'.startElection := by
  cases h with | @intro t hst hsav =>
  refine (setTerm_twin hR ⟨hst, hsav⟩ (Nat.succ_le_of_lt hterm)).bind fun core₁ core₁' _ h₁ => ?_
  cases h₁ with | @intro t₁ hst₁ hsav₁ =>
  have hcandidate : Twin R { core₁ with state := .candidate, currentLeader := none }
      (onStorage { core₁ with state := .candidate, currentLeader := none } t₁) :=
    ⟨hst₁, hsav₁.congr rfl rfl rfl rfl rfl rfl⟩
  refine (setVotedFor_twin hR hcandidate (by simpa using hsav₁.id_le)).bind
    fun core₂ core₂' _ h₂ => ?_
  cases h₂ with | @intro t₂ hst₂ hsav₂ =>
  exact ⟨hst₂, hsav₂.congr rfl rfl rfl rfl rfl rfl⟩

omit [Snapshotable μ] in
theorem becomeLeader_twin (h : Twin R core core') (hlast : core.lastLogIndex < u64Max) :
    Related (Twin R) (SamePanic R) core.becomeLeader core'.becomeLeader := by
  cases h with | @intro t hst hsav =>
  let led : RaftCore σ μ := { core with
    state := .leader
    currentLeader := some core.id
    nextIndex := core.peers.foldl (fun m peer => m.insert peer (core.lastLogIndex + 1)) core.nextIndex
    matchIndex := core.peers.foldl (fun m peer => m.insert peer 0) core.matchIndex }
  have hled : Twin R led (led.onStorage t) := ⟨hst, hsav.congr rfl rfl rfl rfl rfl rfl⟩
  exact persistLogEntry_twin hR hled ⟨hsav.within.term_le, Nat.succ_le_of_lt hlast⟩

omit [Snapshotable μ] in
theorem appendLogEntry_twin (h : Twin R core core') (hlast : core.lastLogIndex < u64Max)
    (command : String) :
    Related (TwinWith R) (SamePanic R) (core.appendLogEntry command)
      (core'.appendLogEntry command) := by
  cases h with | @intro t hst hsav =>
  refine ite_rel (fun _ => ⟨⟨hst, hsav⟩, rfl⟩) fun _ => ?_
  have hentry : LogEntry.Savable ⟨core.currentTerm, core.lastLogIndex + 1, command⟩ :=
    ⟨hsav.within.term_le, Nat.succ_le_of_lt hlast⟩
  exact (persistLogEntry_twin hR ⟨hst, hsav⟩ hentry).bind fun _ _ _ h₁ => ⟨h₁, rfl⟩

omit [Snapshotable μ] in
theorem handleRequestVote_twin (h : Twin R core core') {args : RequestVoteArgs}
    (hterm : args.term ≤ u64Max) (hcandidate : args.candidateId ≤ u64Max) :
    Related (TwinWith R) (SamePanic R) (core.handleRequestVote args)
      (core'.handleRequestVote args) := by
  cases h with | @intro t hst hsav =>
  unfold handleRequestVote
  refine ite_rel (fun _ => ⟨⟨hst, hsav⟩, rfl⟩) fun _ => ?_
  refine (observeTerm_twin hR ⟨hst, hsav⟩ hterm).bind fun core₁ core₁' _ h₁ => ?_
  cases h₁ with | @intro t₁ hst₁ hsav₁ =>
  refine ite_rel (fun _ => ⟨⟨hst₁, hsav₁⟩, rfl⟩) fun _ =>
    ite_rel (fun _ => ⟨⟨hst₁, hsav₁⟩, rfl⟩) fun _ => ?_
  refine (setVotedFor_twin hR ⟨hst₁, hsav₁⟩ (by simpa using hcandidate)).bind
    fun core₂ core₂' _ h₂ => ?_
  cases h₂ with | @intro t₂ hst₂ hsav₂ =>
  exact ⟨⟨hst₂, hsav₂⟩, rfl⟩

omit hR [Storage σ] [Storage τ] [Snapshotable μ] in
theorem countVote_twin (h : Twin R core core') (peerId : ℕ) (result : RequestVoteResult) :
    Twin R (core.countVote peerId result) (core'.countVote peerId result) := by
  cases h with | @intro t hst hsav =>
  refine ite_rel (fun _ => ?_) fun _ => ⟨hst, hsav⟩
  exact ⟨hst, hsav.congr rfl rfl rfl rfl rfl rfl⟩

omit [Snapshotable μ] in
theorem handleRequestVoteResult_twin (h : Twin R core core') (hlast : core.lastLogIndex < u64Max)
    (peerId : ℕ) {result : RequestVoteResult} (hterm : result.term ≤ u64Max) :
    Related (TwinWith R) (SamePanic R) (core.handleRequestVoteResult peerId result)
      (core'.handleRequestVoteResult peerId result) := by
  refine (observeTerm_twin hR h hterm).bind fun core₁ core₁' hobserve h₁ => ?_
  have hcounted := countVote_twin h₁ peerId result
  have hlast' : (core₁.countVote peerId result).lastLogIndex < u64Max := by
    obtain ⟨votes, hvotes, -⟩ := countVote_eq core₁ peerId result
    obtain ⟨hl, hs, -⟩ := observeTerm_log hobserve
    rw [hvotes]
    simpa only [lastLogIndex, hl, hs] using hlast
  cases h₁ with | @intro t hst hsav =>
  refine ite_rel (fun _ => ⟨⟨hst, hsav⟩, rfl⟩) fun _ => ?_
  rw [← countVote, ← countVote]
  generalize core₁.countVote peerId result = core₂ at hcounted hlast' ⊢
  generalize (core₁.onStorage t).countVote peerId result = core₂' at hcounted ⊢
  cases hcounted with | @intro t₂ hst₂ hsav₂ =>
  refine ite_rel (fun _ => ?_) fun _ => ⟨⟨hst₂, hsav₂⟩, rfl⟩
  exact (becomeLeader_twin hR ⟨hst₂, hsav₂⟩ hlast').bind fun _ _ _ h₃ => ⟨h₃, rfl⟩

omit hR [Storage σ] [Storage τ] [Snapshotable μ] in
theorem recordAppendResult_onStorage (core : RaftCore σ μ) (t : τ) (peerId entryIndex : ℕ)
    (result : AppendEntriesResult) : (core.onStorage t).recordAppendResult peerId entryIndex result =
      (core.recordAppendResult peerId entryIndex result).onStorage t := by
  unfold recordAppendResult
  split_ifs <;> rfl

theorem handleAppendEntriesResult_twin (h : Twin R core core') (peerId : ℕ) {entryIndex : ℕ}
    (hindex : entryIndex ≤ u64Max) {result : AppendEntriesResult} (hterm : result.term ≤ u64Max) :
    Related (TwinWith R) (SamePanic R) (core.handleAppendEntriesResult peerId entryIndex result)
      (core'.handleAppendEntriesResult peerId entryIndex result) := by
  refine (observeTerm_twin hR h hterm).bind fun core₁ core₁' _ h₁ => ?_
  cases h₁ with | @intro t hst hsav =>
  refine ite_rel (fun _ => ⟨⟨hst, hsav⟩, rfl⟩) fun _ => ?_
  obtain ⟨next, matchIndex, heq, -, -⟩ := recordAppendResult_eq core₁ peerId entryIndex result
  have hsav₂ : (core₁.recordAppendResult peerId entryIndex result).Savable := by
    rw [heq]
    exact hsav.congr rfl rfl rfl rfl rfl rfl
  have hst₂ : R (core₁.recordAppendResult peerId entryIndex result).storage t := by
    rw [heq]
    exact hst
  simp only [recordAppendResult_onStorage]
  generalize core₁.recordAppendResult peerId entryIndex result = core₂ at hst₂ hsav₂ ⊢
  refine ite_rel (fun _ => ⟨⟨hst₂, hsav₂⟩, rfl⟩) fun _ =>
    ite_rel (fun _ => ⟨⟨hst₂, hsav₂⟩, rfl⟩) fun _ =>
    ite_rel (fun _ => ?_) fun _ => ⟨⟨hst₂, hsav₂⟩, rfl⟩
  have hcommitted : Twin R { core₂ with commitIndex := entryIndex }
      (onStorage { core₂ with commitIndex := entryIndex } t) := by
    obtain ⟨hid, hw, hlog⟩ := hsav₂
    exact ⟨hst₂, hid, ⟨hw.term_le, hw.snapshot_le, hw.applied_le, hindex, hw.log_le⟩, hlog⟩
  refine (applyCommittedEntries_twin hR hcommitted).bind ?_
  rintro ⟨core₃, results⟩ ⟨core₃', _⟩ - ⟨h₃, rfl⟩
  exact ⟨h₃, rfl⟩

omit hR [Storage σ] [Storage τ] [Snapshotable μ] in
theorem handleInstallSnapshotResult_twin (h : Twin R core core') (peerId lastIncludedIndex : ℕ)
    {result : InstallSnapshotResult} (hterm : result.term ≤ u64Max) :
    Twin R (core.handleInstallSnapshotResult peerId lastIncludedIndex result)
      (core'.handleInstallSnapshotResult peerId lastIncludedIndex result) := by
  cases h with | @intro t hst hsav =>
  cases result with
  | success => exact ⟨hst, hsav.congr rfl rfl rfl rfl rfl rfl⟩
  | failed term reason =>
      obtain ⟨hid, hw, hlog⟩ := hsav
      exact ite_rel (fun _ => ⟨hst, hid, hw.stepDown hterm, hlog⟩) fun _ => ⟨hst, hid, hw, hlog⟩

omit hR [Storage σ] [Storage τ] [Snapshotable μ] in
theorem handleConfirmResult_twin (h : Twin R core core') {result : AppendEntriesResult}
    (hterm : result.term ≤ u64Max) :
    TwinWith R (core.handleConfirmResult result) (core'.handleConfirmResult result) := by
  cases h with | @intro t hst hsav =>
  obtain ⟨hid, hw, hlog⟩ := hsav
  exact ite_rel (fun _ => ⟨⟨hst, hid, hw.stepDown hterm, hlog⟩, rfl⟩)
    fun _ => ⟨⟨hst, hid, hw, hlog⟩, rfl⟩

/-! ### Loading -/

/-- Loading from related storages gives the same node. -/
theorem new_twin {s : σ} {t : τ} (hst : R s t) {id : ℕ} (hid : id ≤ u64Max) (peers : List ℕ) (m : μ) :
    Related (Twin R) (SamePanic R) (RaftCore.new id peers s m) (RaftCore.new id peers t m) := by
  obtain ⟨c, hc, ⟨hterm, hvote, hlog, hsnap⟩, ⟨hterm', hvote', hlog', hsnap'⟩⟩ := hR.holds hst
  unfold RaftCore.new
  rw [hterm, hvote, hlog, hsnap, hterm', hvote', hlog', hsnap']
  have hrestore : Related Eq (SamePanic R) (restoreLoaded s m c.snapshot)
      (restoreLoaded t m c.snapshot) := by
    cases c.snapshot with
    | none => rfl
    | some x =>
        simp only [restoreLoaded]
        cases Snapshotable.restore m x.data with
        | ok m' => rfl
        | error e => exact ⟨rfl, hst⟩
  refine hrestore.bind fun m' _ _ heq => ?_
  subst heq
  have hlog_le : ∀ e ∈ c.log, e.index ≤ u64Max := fun e he => (hc.log e he).2
  have hterm_le : ∀ e ∈ c.log, e.term ≤ u64Max := fun e he => (hc.log e he).1
  cases hx : c.snapshot with
  | none =>
      exact ⟨hst, hid, ⟨hc.term_le, Nat.zero_le _, Nat.zero_le _, Nat.zero_le _, hlog_le⟩, hterm_le⟩
  | some x =>
      have hx_le := (hc.snapshot x hx).1
      exact ⟨hst, hid, ⟨hc.term_le, hx_le, hx_le, hx_le, hlog_le⟩, hterm_le⟩

end Saving

end RaftCore

/-! ### Calls -/

namespace Op

open RaftCore

variable {σ τ μ : Type} [Storage σ] [Storage τ] [Snapshotable μ] {R : σ → τ → Prop}
  {core core₁ : RaftCore σ μ} {core' : RaftCore τ μ}

omit [Storage σ] [Storage τ] [Snapshotable μ] in
/-- A number below the top is in the range. -/
theorem le_u64Max {n : ℕ} (h : n ≤ u64Max - 1) : n ≤ u64Max ∧ n < u64Max := by
  have : u64Max = (u64Max - 1) + 1 := by decide
  omega

/-- **A call does the same on both storages.** -/
theorem run_twin (hR : Simulates R) (h : Twin R core core') {op : Op} (hfits : op.Fits core)
    (hop : op.Savable) : Related (TwinWith R) (SamePanic R) (op.run core) (op.run core') := by
  have hlast : core.lastLogIndex < u64Max := (le_u64Max hfits.core_within.lastLogIndex_le).2
  have hw := hfits.op_within
  cases op with
  | requestVote args =>
      refine (handleRequestVote_twin hR h (le_u64Max hw).1 hop).bind ?_
      rintro ⟨core₁, result⟩ ⟨core₁', _⟩ - ⟨h₁, rfl⟩
      exact ⟨h₁, rfl⟩
  | appendEntries args =>
      have hentries : ∀ e ∈ args.entries, e.Savable :=
        fun e he => ⟨hop e he, (le_u64Max (hw.2 e he)).1⟩
      refine (handleAppendEntries_twin hR h (le_u64Max hw.1).1 hentries).bind ?_
      rintro ⟨core₁, output⟩ ⟨core₁', _⟩ - ⟨h₁, rfl⟩
      exact ⟨h₁, rfl⟩
  | installSnapshot args =>
      refine (handleInstallSnapshot_twin hR h (le_u64Max hw.1).1 (le_u64Max hw.2).1 hop).bind ?_
      rintro ⟨core₁, result⟩ ⟨core₁', _⟩ - ⟨h₁, rfl⟩
      exact ⟨h₁, rfl⟩
  | startElection =>
      have hterm := (le_u64Max hfits.core_within.term_le).2
      exact (startElection_twin hR h hterm).bind fun _ _ _ h₁ => ⟨h₁, rfl⟩
  | becomeLeader => exact (becomeLeader_twin hR h hlast).bind fun _ _ _ h₁ => ⟨h₁, rfl⟩
  | appendLogEntry command =>
      exact (appendLogEntry_twin hR h hlast command).bind fun _ _ _ h₁ => ⟨h₁.1, rfl⟩
  | applyCommittedEntries =>
      exact (applyCommittedEntries_twin hR h).bind fun _ _ _ h₁ => ⟨h₁.1, rfl⟩
  | takeSnapshot => exact ⟨(takeSnapshot_twin hR h).1, rfl⟩
  | requestVoteResult peerId result =>
      exact (handleRequestVoteResult_twin hR h hlast peerId (le_u64Max hw).1).bind
        fun _ _ _ h₁ => ⟨h₁.1, rfl⟩
  | appendEntriesResult peerId entryIndex result =>
      exact (handleAppendEntriesResult_twin hR h peerId (le_u64Max hw.2).1 (le_u64Max hw.1).1).bind
        fun _ _ _ h₁ => ⟨h₁.1, rfl⟩
  | installSnapshotResult peerId lastIncludedIndex result =>
      exact ⟨handleInstallSnapshotResult_twin h peerId lastIncludedIndex (le_u64Max hw.1).1, rfl⟩
  | confirmResult result => exact ⟨(handleConfirmResult_twin h (le_u64Max hw).1).1, rfl⟩

omit [Storage σ] [Storage τ] [Snapshotable μ] in
/-- Whether a call fits does not depend on the storage. -/
theorem Fits.twin {op : Op} (h : op.Fits core) (htwin : Twin R core core') : op.Fits core' := by
  cases htwin
  obtain ⟨⟨ht, hs, ha, hc, hl⟩, hop⟩ := h
  exact ⟨⟨ht, hs, ha, hc, hl⟩, hop⟩

/-- A step of one node is a step of its twin. -/
theorem step_twin (hR : Simulates R) (h : Twin R core core') {op : Op} (hfits : op.Fits core)
    (hop : op.Savable) (hs : op.step core = some core₁) :
    ∃ core₁', op.step core' = some core₁' ∧ Twin R core₁ core₁' := by
  obtain ⟨reply, hrun⟩ := step_eq_some.1 hs
  obtain ⟨⟨core₁', reply'⟩, hrun', h₁, -⟩ := (run_twin hR h hfits hop).exists_ok hrun
  exact ⟨core₁', step_eq_some.2 ⟨reply', hrun'⟩, h₁⟩

/-- **A sequence of calls does the same on both storages.** -/
theorem exists_run_twin (hR : Simulates R) (h : Twin R core core')
    {ts : List (Transition (RaftCore σ μ) Op)} (hr : Run step core ts core₁)
    (hts : ∀ t ∈ ts, t.action.Fits t.source ∧ t.action.Savable) :
    ∃ ts' core₁', Run step core' ts' core₁' ∧ Twin R core₁ core₁' ∧
      List.Forall₂ (Transition.Alike (Twin R)) ts ts' :=
  hr.simulate (T := Twin R)
    (P := fun t : Transition (RaftCore σ μ) Op => t.action.Fits t.source ∧ t.action.Savable)
    (fun _ _ _ _ h hs hP => step_twin hR h hP.1 hP.2 hs) h hts

end Op

end RaftVibe
