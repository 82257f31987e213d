/-
**The storage mirrors the node.**

Every change of the vector is saved along with it, so after each call the stored log should be the
vector and the stored snapshot should end at the node's snapshot boundary: a restart loses nothing
and brings nothing back.  The one place where memory and disk disagree is `persist_truncate_log`.
It asks the storage to cut at an index and cuts the vector at a position, and only without a
snapshot does the entry with index `i` lie at position `i - 1`.

Main definitions:

* `RaftVibe.RaftCore.Mirrored` — the storage holds the vector and the snapshot boundary;
* `RaftVibe.RaftCore.CutsByPosition` — a request that has the vector cut above a snapshot.

Main results:

* `RaftVibe.RaftCore.applyEntries_stores_of_uncut` — entries that are only appended reach both;
* `RaftVibe.Op.step_mirrored` — **one call keeps the mirror**;
* `RaftVibe.Op.run_synced` — every sequence of calls does, if none cuts by position.
-/

import RaftVibe.Folding

set_option relaxedAutoImplicit false
set_option autoImplicit false

namespace RaftVibe

/-- The snapshot boundary that a node reads off the stored snapshot. -/
def snapshotBoundary : Option Snapshot → ℕ × ℕ
  | some snapshot => (snapshot.metadata.lastIncludedIndex, snapshot.metadata.lastIncludedTerm)
  | none => (0, 0)

namespace RaftCore

variable {σ μ : Type} [Storage σ] {core core' : RaftCore σ μ} {snapshot : Option Snapshot}

/-- **Memory mirrors disk**: the stored log is the vector, entry for entry, and the stored snapshot
ends where the node's does. -/
def Mirrored (core : RaftCore σ μ) : Prop :=
  Storage.loadLog core.storage = .ok core.log ∧
    ∃ snapshot, Storage.loadSnapshot core.storage = .ok snapshot ∧
      snapshotBoundary snapshot = (core.snapshotLastIndex, core.snapshotLastTerm)

/-- A restart on the storage gives back the log and the snapshot boundary. -/
theorem Mirrored.new_log [Snapshotable μ] (h : core.Mirrored) {id : ℕ} {peers : List ℕ} {m : μ}
    (hnew : RaftCore.new id peers core.storage m = .ok core') :
    core'.log = core.log ∧ core'.snapshotLastIndex = core.snapshotLastIndex ∧
      core'.snapshotLastTerm = core.snapshotLastTerm := by
  obtain ⟨hlog, snapshot, hsnap, hb⟩ := h
  simp only [RaftCore.new, hlog, hsnap, expectLoad, Except.bind_eq_ok, Except.ok.injEq,
    exists_eq_left', Except.pure_eq_ok] at hnew
  obtain ⟨term, -, votedFor, -, m', -, rfl⟩ := hnew
  cases snapshot with
  | none => exact ⟨rfl, Prod.mk.inj hb⟩
  | some s => exact ⟨rfl, Prod.mk.inj hb⟩

/-- The invariant: the storage holds what the node has, and as long as there is no snapshot the
indices of the log count up from one. -/
structure Synced (core : RaftCore σ μ) : Prop where
  stored : ∃ snapshot, core.Stores snapshot ∧
    snapshotBoundary snapshot = (core.snapshotLastIndex, core.snapshotLastTerm)
  contiguous : core.snapshotLastIndex = 0 → core.Contiguous

theorem Synced.mirrored (h : core.Synced) : core.Mirrored := by
  obtain ⟨snapshot, ⟨c, ⟨-, -, hlog, hsnap⟩, hsame, rfl⟩, hb⟩ := h.stored
  exact ⟨hsame ▸ hlog, _, hsnap, hb⟩

/-- A node that has just been loaded is synced with its storage. -/
theorem new_synced [Snapshotable μ] {id : ℕ} {peers : List ℕ} {storage : σ} {m : μ}
    {c : StorageContents} (hholds : Holds storage c)
    (hidx : Indexed (snapshotBoundary c.snapshot).1 c.log)
    (h : RaftCore.new id peers storage m = .ok core) : core.Synced := by
  have ⟨hterm, hvote, hlog, hsnap⟩ := hholds
  simp only [RaftCore.new, hterm, hvote, hlog, hsnap, expectLoad, Except.bind_eq_ok,
    Except.ok.injEq, exists_eq_left', Except.pure_eq_ok] at h
  obtain ⟨m', -, rfl⟩ := h
  obtain ⟨term, votedFor, log, snapshot⟩ := c
  cases snapshot with
  | none => exact ⟨⟨none, ⟨_, hholds, rfl, rfl⟩, rfl⟩, fun _ => hidx⟩
  | some s => exact ⟨⟨some s, ⟨_, hholds, rfl, rfl⟩, rfl⟩, fun _ => hidx⟩

/-- Nothing has changed but the vector, which the storage follows. -/
theorem Synced.of_stores (h : core.Synced)
    (hs : core'.snapshotLastIndex = core.snapshotLastIndex)
    (ht : core'.snapshotLastTerm = core.snapshotLastTerm)
    (hst : ∀ snapshot, core.Stores snapshot → core'.Stores snapshot)
    (hc : core.snapshotLastIndex = 0 → core'.Contiguous) : core'.Synced := by
  obtain ⟨snapshot, hstored, hb⟩ := h.stored
  exact ⟨⟨snapshot, hst _ hstored, by rw [hb, hs, ht]⟩, fun h0 => hc (hs ▸ h0)⟩

/-- Neither has the vector. -/
theorem Synced.congr (h : core.Synced) (hl : core'.log = core.log)
    (hs : core'.snapshotLastIndex = core.snapshotLastIndex)
    (ht : core'.snapshotLastTerm = core.snapshotLastTerm)
    (hst : ∀ snapshot, core.Stores snapshot → core'.Stores snapshot) : core'.Synced := by
  refine h.of_stores hs ht hst fun h0 => ?_
  rw [Contiguous, hs, hl]
  exact h.contiguous h0

theorem Synced.stepsDown {term : ℕ} (h : core.Synced) (hs : core.StepsDown term core') :
    core'.Synced := by
  rcases hs with ⟨-, rfl⟩ | ⟨-, rfl⟩
  · exact h.congr rfl rfl rfl fun _ hst => hst.congr rfl rfl
  · exact h

/-- The next entry is appended to both. -/
theorem Synced.append (h : core.Synced) (entry : LogEntry)
    (he : entry.index = core.lastLogIndex + 1) (hl : core'.log = core.log ++ [entry])
    (hs : core'.snapshotLastIndex = core.snapshotLastIndex)
    (ht : core'.snapshotLastTerm = core.snapshotLastTerm)
    (hst : ∀ snapshot, core.Stores snapshot → core'.Stores snapshot) : core'.Synced := by
  refine h.of_stores hs ht hst fun h0 => ?_
  have hcont := h.contiguous h0
  rw [Contiguous, hs, hl, Indexed.append_iff, Indexed.singleton_iff, ← hcont.lastLogIndex]
  exact ⟨hcont, he⟩

variable [LawfulStorage σ]

theorem Synced.observeTerm (h : core.Synced) {term : ℕ}
    (ho : core.observeTerm term = .ok core') : core'.Synced := by
  obtain ⟨hl, hs, ht, -⟩ := observeTerm_log ho
  exact h.congr hl hs ht fun _ hst => observeTerm_stores hst ho

theorem Synced.becomeLeader (h : core.Synced) (hb : core.becomeLeader = .ok core') :
    core'.Synced := by
  have hst : ∀ snapshot, core.Stores snapshot → core'.Stores snapshot :=
    fun _ hs => becomeLeader_stores hs hb
  obtain ⟨s, -, rfl⟩ := becomeLeader_ok hb
  exact h.append core.noopEntry rfl rfl rfl rfl hst

/-- Entries that never have the vector cut are appended to it and to the stored log alike.  A
conflict beyond position `log.length` asks for a cut that does not take place. -/
theorem applyEntries_stores_of_uncut {entries : List LogEntry} {b : ℕ} (h : core.Stores snapshot)
    (hidx : Indexed b entries)
    (huncut : ∀ e ∈ entries, Conflicts core.snapshotLastIndex core.log e →
      core.log.length < e.index)
    (ha : applyEntries entries core = .ok core') : core'.Stores snapshot := by
  induction entries generalizing core b with
  | nil =>
      obtain rfl := Except.ok.inj ha
      exact h
  | cons entry rest ih =>
      obtain ⟨hentry, hrest⟩ := Indexed.cons_iff.1 hidx
      have huncut' : ∀ e ∈ rest, Conflicts core.snapshotLastIndex core.log e →
          core.log.length < e.index := fun e he => huncut e (List.mem_cons_of_mem _ he)
      rw [applyEntries] at ha
      split at ha
      · exact ih h hrest huncut' ha
      · rename_i hgt
        -- once an entry beyond the length has been appended, so are all that follow it
        have hbeyond : core.log.length < entry.index → ∀ e ∈ rest,
            (core.log ++ [entry]).length < e.index := by
          intro hlt e he
          have := (hrest.mem he).1
          rw [List.length_append, List.length_singleton]
          omega
        simp only at ha
        split at ha
        · rename_i existing hx
          split at ha
          · rename_i hne
            have hlt := huncut entry (List.mem_cons_self ..)
              ⟨not_le.1 hgt, existing, hx, hne⟩
            have hnocut : ¬ entry.index - 1 < core.log.length := by omega
            simp only [persistTruncateLog, if_neg hnocut, Except.bind_eq_ok, Except.ok.injEq,
              exists_eq_left'] at ha
            obtain ⟨core₁, h₁, h₂⟩ := ha
            have hstored := persistLogEntry_stores h h₁
            obtain ⟨-, rfl⟩ := persistLogEntry_ok.1 h₁
            exact ih hstored hrest (fun e he _ => hbeyond hlt e he) h₂
          · exact ih h hrest huncut' ha
        · rename_i hx
          rw [List.getElem?_eq_none_iff] at hx
          simp only [Except.bind_eq_ok] at ha
          obtain ⟨core₁, h₁, h₂⟩ := ha
          have hstored := persistLogEntry_stores h h₁
          obtain ⟨-, rfl⟩ := persistLogEntry_ok.1 h₁
          exact ih hstored hrest (fun e he _ => hbeyond (by omega) e he) h₂

/-- The request has the vector cut above a snapshot: it is accepted, there is a snapshot, and one of
its entries conflicts at an index that is a position of the vector. -/
def CutsByPosition (core : RaftCore σ μ) (args : AppendEntriesArgs) : Prop :=
  0 < core.snapshotLastIndex ∧ core.currentTerm ≤ args.term ∧
    core.PrevMatches args.prevLogIndex args.prevLogTerm ∧
    ∃ e ∈ args.entries, Conflicts core.snapshotLastIndex core.log e ∧ e.index ≤ core.log.length

omit [Storage σ] [LawfulStorage σ] in
instance (core : RaftCore σ μ) (args : AppendEntriesArgs) :
    Decidable (core.CutsByPosition args) := by
  unfold CutsByPosition
  infer_instance

/-- **Taking over the entries of a request** keeps the mirror. -/
theorem applyEntries_synced (h : core.Synced) {args : AppendEntriesArgs}
    (hidx : Indexed args.prevLogIndex args.entries) (hprev : args.prevLogIndex ≤ core.lastLogIndex)
    (hcut : 0 < core.snapshotLastIndex → ∀ e ∈ args.entries,
      Conflicts core.snapshotLastIndex core.log e → core.log.length < e.index)
    (ha : applyEntries args.entries core = .ok core') : core'.Synced := by
  obtain ⟨s, -, heq⟩ := applyEntries_ok ha
  rcases Nat.eq_zero_or_pos core.snapshotLastIndex with h0 | hpos
  · -- without a snapshot positions and indices agree
    have hcont := h.contiguous h0
    rw [hcont.lastLogIndex] at hprev
    have hno {P : Prop} : 0 < core.snapshotLastIndex → P := fun hpos =>
      absurd h0 (Nat.ne_of_gt hpos)
    refine h.of_stores (by rw [heq]) (by rw [heq])
      (fun _ hst => applyEntries_stores hst hcont hidx hprev hno ha) fun _ => ?_
    rw [heq]
    exact Indexed.takeOver hcont hidx hprev hno
  · refine h.of_stores (by rw [heq]) (by rw [heq])
      (fun _ hst => applyEntries_stores_of_uncut hst hidx (hcut hpos) ha) fun h0 => ?_
    exact absurd h0 (Nat.ne_of_gt hpos)

variable [Snapshotable μ]

/-- A compaction stores the boundary that it moves to. -/
theorem Synced.compacted (h : core.Synced) (hc : core.Compacted core') : core'.Synced := by
  obtain ⟨snapshot, hstored, -⟩ := h.stored
  obtain ⟨data, -, hst⟩ := hc.stores hstored
  obtain ⟨entry, data', hlt, -, -, rfl⟩ := hc
  exact ⟨⟨_, hst, rfl⟩, fun h0 => absurd hlt (Nat.not_lt.2 (by simp only at h0; omega))⟩

theorem applyCommittedEntries_synced (h : core.Synced) {results : List (ℕ × ApplyResult)}
    (ha : core.applyCommittedEntries = .ok (core', results)) : core'.Synced := by
  obtain ⟨es, -, -, -, rfl⟩ := applyCommittedEntries_ok ha
  have happlied : Synced { core with
      lastApplied := max core.lastApplied core.commitIndex
      stateMachine := foldCommands core.stateMachine (es.map LogEntry.command) } :=
    h.congr rfl rfl rfl fun _ hst => hst.congr rfl rfl
  rcases autoSnapshot_cases { core with
      lastApplied := max core.lastApplied core.commitIndex
      stateMachine := foldCommands core.stateMachine (es.map LogEntry.command) } with heq | hc
  · rwa [heq]
  · exact happlied.compacted hc

theorem acceptEntries_synced (h : core.Synced) {args : AppendEntriesArgs}
    (hidx : Indexed args.prevLogIndex args.entries) (hprev : args.prevLogIndex ≤ core.lastLogIndex)
    (hcut : 0 < core.snapshotLastIndex → ∀ e ∈ args.entries,
      Conflicts core.snapshotLastIndex core.log e → core.log.length < e.index)
    (ha : core.acceptEntries args = .ok core') : core'.Synced := by
  simp only [acceptEntries, Except.bind_eq_ok] at ha
  obtain ⟨core₁, h₁, ha⟩ := ha
  have hsync := applyEntries_synced h hidx hprev hcut h₁
  split at ha
  · simp only [Except.bind_eq_ok, Except.pure_eq_ok, Prod.exists] at ha
    obtain ⟨_, results, ha, rfl⟩ := ha
    refine applyCommittedEntries_synced ?_ ha
    exact hsync.congr rfl rfl rfl fun _ hst => hst.congr rfl rfl
  · obtain rfl := Except.pure_eq_ok.1 ha
    exact hsync

theorem handleAppendEntries_synced (h : core.Synced) {args : AppendEntriesArgs}
    (hidx : Indexed args.prevLogIndex args.entries) (hcut : ¬ core.CutsByPosition args)
    {out : HandleAppendEntriesOutput} (ha : core.handleAppendEntries args = .ok (core', out)) :
    core'.Synced := by
  obtain ⟨core₁, h₁, ⟨-, rfl, -, -⟩ | ⟨hterm, core₂, rfl, hor⟩⟩ := handleAppendEntries_ok ha
  · exact h.observeTerm h₁
  · have hsync : Synced { core₁ with state := .follower, currentLeader := some args.leaderId } :=
      (h.observeTerm h₁).congr rfl rfl rfl fun _ hst => hst.congr rfl rfl
    rcases hor with ⟨rfl, -, -⟩ | ⟨hp, hacc, -, -⟩
    · exact hsync
    · refine acceptEntries_synced hsync hidx hp.le_lastLogIndex (fun hpos e he hconf => ?_) hacc
      by_contra hle
      have hterm' := observeTerm_currentTerm h₁
      apply hcut
      rcases observeTerm_ok h₁ with ⟨-, rfl⟩ | ⟨-, s, -, rfl⟩ <;>
        exact ⟨hpos, by omega, hp, e, he, hconf, not_lt.1 hle⟩

theorem handleInstallSnapshot_synced (h : core.Synced) {args : InstallSnapshotArgs}
    {result : InstallSnapshotResult}
    (hi : core.handleInstallSnapshot args = .ok (core', result)) : core'.Synced := by
  obtain ⟨snapshot, hstored, hb⟩ := h.stored
  rcases handleInstallSnapshot_stores hstored hi with ⟨hs, ht, hl, hst⟩ | ⟨hlt, hst⟩
  · refine ⟨⟨snapshot, hst, by rw [hb, hs, ht]⟩, fun h0 => ?_⟩
    rw [Contiguous, hs, hl]
    exact h.contiguous (hs ▸ h0)
  · exact ⟨⟨_, hst, rfl⟩, fun h0 => absurd hlt (by omega)⟩

theorem handleAppendEntriesResult_synced (h : core.Synced) {peerId entryIndex : ℕ}
    {result : AppendEntriesResult} {commit : Option ℕ} {results : List (ℕ × ApplyResult)}
    (hr : core.handleAppendEntriesResult peerId entryIndex result = .ok (core', commit, results)) :
    core'.Synced := by
  obtain ⟨core₁, h₁, hor⟩ := handleAppendEntriesResult_ok hr
  have hsync := h.observeTerm h₁
  rcases hor with ⟨-, rfl, -⟩ | ⟨-, core₂, h₂, hor⟩
  · exact hsync
  · obtain ⟨next, matchIndex, heq, -, -⟩ := recordAppendResult_eq core₁ peerId entryIndex result
    have hsync₂ : core₂.Synced := by
      rw [h₂, heq]
      exact hsync.congr rfl rfl rfl fun _ hst => hst.congr rfl rfl
    rcases hor with ⟨rfl, -⟩ | ⟨-, -, -, -, -, happly⟩
    · exact hsync₂
    · refine applyCommittedEntries_synced ?_ happly
      exact hsync₂.congr rfl rfl rfl fun _ hst => hst.congr rfl rfl

end RaftCore

/-! ### Sequences of calls -/

namespace Op

open Runs

variable {σ μ : Type}

/-- The entries of a request are contiguous, from `prev_log_index` on. -/
def SendsContiguous : Op → Prop
  | appendEntries args => Indexed args.prevLogIndex args.entries
  | _ => True

instance : (op : Op) → Decidable op.SendsContiguous
  | appendEntries args => inferInstanceAs (Decidable (Indexed args.prevLogIndex args.entries))
  | requestVote _ | installSnapshot _ | startElection | becomeLeader | appendLogEntry _
  | applyCommittedEntries | takeSnapshot | requestVoteResult _ _ | appendEntriesResult _ _ _
  | installSnapshotResult _ _ _ | confirmResult _ => isTrue trivial

/-- The call has the vector cut above a snapshot. -/
def CutsByPosition (core : RaftCore σ μ) : Op → Prop
  | appendEntries args => core.CutsByPosition args
  | _ => False

instance (core : RaftCore σ μ) : (op : Op) → Decidable (op.CutsByPosition core)
  | appendEntries args => inferInstanceAs (Decidable (core.CutsByPosition args))
  | requestVote _ | installSnapshot _ | startElection | becomeLeader | appendLogEntry _
  | applyCommittedEntries | takeSnapshot | requestVoteResult _ _ | appendEntriesResult _ _ _
  | installSnapshotResult _ _ _ | confirmResult _ => isFalse False.elim

variable [Storage σ] [Snapshotable μ] [LawfulStorage σ] {core core' : RaftCore σ μ}

/-- **One call keeps the mirror.** -/
theorem step_mirrored (h : core.Synced) {op : Op} (hcont : op.SendsContiguous)
    (hcut : ¬ op.CutsByPosition core) (hs : op.step core = some core') : core'.Synced := by
  cases ran_of_step hs with
  | requestVote hv =>
      rcases RaftCore.handleRequestVote_ok hv with ⟨-, rfl, -⟩ | ⟨core₁, h₁, -, ⟨rfl, -⟩ | hgrant⟩
      · exact h
      · exact h.observeTerm h₁
      · obtain ⟨-, -, hset, -⟩ := hgrant
        have hst := fun snapshot (hst : core₁.Stores snapshot) =>
          RaftCore.setVotedFor_stores hst hset
        obtain ⟨-, rfl⟩ := RaftCore.setVotedFor_ok.1 hset
        exact (h.observeTerm h₁).congr rfl rfl rfl hst
  | appendEntries ha => exact RaftCore.handleAppendEntries_synced h hcont hcut ha
  | installSnapshot hi => exact RaftCore.handleInstallSnapshot_synced h hi
  | startElection he =>
      have hst := fun snapshot (hst : core.Stores snapshot) => RaftCore.startElection_stores hst he
      obtain ⟨s, -, rfl⟩ := RaftCore.startElection_ok he
      exact h.congr rfl rfl rfl hst
  | becomeLeader hb => exact h.becomeLeader hb
  | @appendLogEntry command _ _ ha =>
      have hst := fun snapshot (hst : core.Stores snapshot) => RaftCore.appendLogEntry_stores hst ha
      rcases RaftCore.appendLogEntry_ok ha with ⟨-, rfl, -⟩ | ⟨-, e, s, -, rfl, -, rfl⟩
      · exact h
      · exact h.append ⟨core.currentTerm, core.lastLogIndex + 1, command⟩ rfl rfl rfl rfl hst
  | applyCommittedEntries ha => exact RaftCore.applyCommittedEntries_synced h ha
  | takeSnapshot =>
      rcases RaftCore.takeSnapshot_cases core with heq | hc
      · rwa [heq]
      · exact h.compacted hc
  | @requestVoteResult peerId result _ _ hv =>
      obtain ⟨core₁, h₁, ⟨-, rfl, -⟩ | ⟨-, core₂, h₂, hor⟩⟩ :=
        RaftCore.handleRequestVoteResult_ok hv
      · exact h.observeTerm h₁
      · obtain ⟨votes, heq, -⟩ := RaftCore.countVote_eq core₁ peerId result
        have hsync : core₂.Synced := by
          rw [h₂, heq]
          exact (h.observeTerm h₁).congr rfl rfl rfl fun _ hst => hst.congr rfl rfl
        rcases hor with ⟨rfl, -⟩ | ⟨-, hb, -⟩
        · exact hsync
        · exact hsync.becomeLeader hb
  | appendEntriesResult hr => exact RaftCore.handleAppendEntriesResult_synced h hr
  | installSnapshotSuccess => exact h.congr rfl rfl rfl fun _ hst => hst.congr rfl rfl
  | installSnapshotFailed hdown => exact h.stepsDown hdown
  | confirmResult hdown => exact h.stepsDown hdown

/-- **A sequence of calls keeps the mirror**, as long as no request has the vector cut above a
snapshot. -/
theorem run_synced (h : core.Synced) {ts : List (Transition (RaftCore σ μ) Op)}
    (hr : Run step core ts core') (hcont : ∀ t ∈ ts, t.action.SendsContiguous)
    (hcut : ∀ t ∈ ts, ¬ t.action.CutsByPosition t.source) : core'.Synced :=
  hr.invariant (P := fun t => t.action.SendsContiguous ∧ ¬ t.action.CutsByPosition t.source)
    (fun _ _ _ hi hs hp => step_mirrored hi hp.1 hp.2 hs) h fun t ht => ⟨hcont t ht, hcut t ht⟩

/-- Eight entries of term 1, the first two of them committed. -/
def eightEntries : Op :=
  .appendEntries ⟨1, 2, 0, 0, (List.range 8).map fun k => ⟨1, k + 1, "SET x 1"⟩, 2⟩

/-- The leader of term `t` overwrites the entry with index 5. -/
def overwriteFifth (t : ℕ) : Op :=
  .appendEntries ⟨t, 3, 4, 1, [⟨t, 5, noopCommand⟩], 2⟩

end Op

end RaftVibe
