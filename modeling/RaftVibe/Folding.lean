/-
**The state machine is the fold of the applied history.**

Let `H` be the sequence of the committed commands.  A node that applies them one by one, compacts
its log, installs snapshots and is loaded again from its storage should always hold the fold of the
first `last_applied` of them.  It does, unless a snapshot is installed that ends below
`last_applied` (only the state machine goes back), or a conflict is cut off above a snapshot.

Main definitions:

* `RaftVibe.RaftCore.Stores` — the storage holds the vector of the node and a snapshot;
* `RaftVibe.RaftCore.Folded` — the invariant: the node, and what it would be loaded from, agree
  with the history;
* `RaftVibe.Replica.step` — one call, or a restart.

Main results:

* `RaftVibe.RaftCore.applyEntries_stores` — the stored log follows the vector;
* `RaftVibe.Replica.step_folded` — **one step keeps the fold**;
* `RaftVibe.Replica.run_folded` — every run does.
-/

import RaftVibe.Representation

set_option relaxedAutoImplicit false
set_option autoImplicit false

namespace RaftVibe

namespace RaftCore

variable {σ μ : Type} [Storage σ] {core core' : RaftCore σ μ} {snapshot : Option Snapshot}

/-! ### What the storage holds -/

section Stored

/-- Loading from the storage gives the node's vector, and this snapshot. -/
def Stores (core : RaftCore σ μ) (snapshot : Option Snapshot) : Prop :=
  ∃ c : StorageContents, Holds core.storage c ∧ c.log = core.log ∧ c.snapshot = snapshot

theorem Stores.congr (h : core.Stores snapshot) (hs : core'.storage = core.storage)
    (hl : core'.log = core.log) : core'.Stores snapshot := by
  obtain ⟨c, hc, hlog, hsnap⟩ := h
  exact ⟨c, hs ▸ hc, hlog.trans hl.symm, hsnap⟩

variable [LawfulStorage σ]

theorem setTerm_stores (h : core.Stores snapshot) {term : ℕ}
    (hs : core.setTerm term = .ok core') : core'.Stores snapshot := by
  obtain ⟨c, hc, hlog, hsnap⟩ := h
  obtain ⟨-, rfl⟩ := setTerm_ok.1 hs
  exact ⟨_, LawfulStorage.saveTerm term hc, hlog, hsnap⟩

theorem setVotedFor_stores (h : core.Stores snapshot) {votedFor : Option ℕ}
    (hs : core.setVotedFor votedFor = .ok core') : core'.Stores snapshot := by
  obtain ⟨c, hc, hlog, hsnap⟩ := h
  obtain ⟨-, rfl⟩ := setVotedFor_ok.1 hs
  exact ⟨_, LawfulStorage.saveVotedFor votedFor hc, hlog, hsnap⟩

theorem persistLogEntry_stores (h : core.Stores snapshot) {entry : LogEntry}
    (hp : core.persistLogEntry entry = .ok core') : core'.Stores snapshot := by
  obtain ⟨c, hc, hlog, hsnap⟩ := h
  obtain ⟨-, rfl⟩ := persistLogEntry_ok.1 hp
  refine ⟨_, LawfulStorage.appendLogEntries [entry] hc, ?_, hsnap⟩
  simp only [hlog]

/-- Without a snapshot, the storage and the vector are cut at the same place. -/
theorem persistTruncateLog_stores (h : core.Stores snapshot) (hcont : core.Contiguous)
    (h0 : core.snapshotLastIndex = 0) {fromIndex : ℕ} (hpos : 0 < fromIndex)
    (hp : core.persistTruncateLog fromIndex = .ok core') : core'.Stores snapshot := by
  obtain ⟨c, hc, hlog, hsnap⟩ := h
  simp only [persistTruncateLog] at hp
  split at hp
  · simp only [Except.bind_eq_ok, expectSave_ok, Except.pure_eq_ok] at hp
    obtain ⟨_, ⟨-, rfl⟩, rfl⟩ := hp
    refine ⟨_, LawfulStorage.truncateLog fromIndex hc, ?_, hsnap⟩
    have hidx : Indexed 0 core.log := h0 ▸ hcont
    have hcut := hidx.filter_le (fromIndex - 1)
    rw [Nat.sub_zero] at hcut
    rw [StorageContents.truncateLog, ← hcut, hlog]
    refine List.filter_congr fun e _ => ?_
    simp only [decide_eq_decide]
    omega
  · obtain rfl := Except.ok.inj hp
    exact ⟨c, hc, hlog, hsnap⟩

theorem observeTerm_stores (h : core.Stores snapshot) {term : ℕ}
    (ho : core.observeTerm term = .ok core') : core'.Stores snapshot := by
  unfold observeTerm at ho
  split at ho
  · simp only [updateTerm, Except.bind_eq_ok, Except.pure_eq_ok] at ho
    obtain ⟨core₂, ⟨core₁, h₁, h₂⟩, rfl⟩ := ho
    exact (setVotedFor_stores (setTerm_stores h h₁) h₂).congr rfl rfl
  · obtain rfl := Except.ok.inj ho
    exact h

theorem startElection_stores (h : core.Stores snapshot) (hs : core.startElection = .ok core') :
    core'.Stores snapshot := by
  simp only [startElection, Except.bind_eq_ok, Except.pure_eq_ok] at hs
  obtain ⟨core₁, h₁, core₂, h₂, rfl⟩ := hs
  refine (setVotedFor_stores ?_ h₂).congr rfl rfl
  exact (setTerm_stores h h₁).congr rfl rfl

theorem becomeLeader_stores (h : core.Stores snapshot) (hb : core.becomeLeader = .ok core') :
    core'.Stores snapshot := by
  simp only [becomeLeader] at hb
  refine persistLogEntry_stores ?_ hb
  exact h.congr rfl rfl

theorem appendLogEntry_stores (h : core.Stores snapshot) {command : String}
    {entry : Option LogEntry} (ha : core.appendLogEntry command = .ok (core', entry)) :
    core'.Stores snapshot := by
  unfold appendLogEntry at ha
  split at ha
  · simp only [Except.ok.injEq, Prod.mk.injEq] at ha
    exact ha.1 ▸ h
  · simp only [Except.bind_eq_ok, Except.pure_eq_ok, Prod.mk.injEq] at ha
    obtain ⟨_, hp, rfl, -⟩ := ha
    exact persistLogEntry_stores h hp

/-- **The stored log follows the vector** through the entries of a request, if no conflict has to be
cut off above a snapshot. -/
theorem applyEntries_stores {entries : List LogEntry} {b : ℕ} (h : core.Stores snapshot)
    (hcont : core.Contiguous) (hidx : Indexed b entries)
    (hb : b ≤ core.snapshotLastIndex + core.log.length)
    (hcut : 0 < core.snapshotLastIndex →
      ∀ e ∈ entries, ¬ Conflicts core.snapshotLastIndex core.log e)
    (ha : applyEntries entries core = .ok core') : core'.Stores snapshot := by
  induction entries generalizing core b with
  | nil =>
      obtain rfl := Except.ok.inj ha
      exact h
  | cons entry rest ih =>
      obtain ⟨hentry, hrest⟩ := Indexed.cons_iff.1 hidx
      have hcut' : 0 < core.snapshotLastIndex →
          ∀ e ∈ rest, ¬ Conflicts core.snapshotLastIndex core.log e :=
        fun hpos e he => hcut hpos e (List.mem_cons_of_mem _ he)
      rw [applyEntries] at ha
      split at ha
      · exact ih h hcont hrest (by omega) hcut' ha
      · rename_i hgt
        simp only at ha
        split at ha
        · rename_i existing hx
          have hlt := (List.getElem?_eq_some_iff.1 hx).1
          split at ha
          · -- a conflict, so there is no snapshot
            rename_i hne
            have h0 : core.snapshotLastIndex = 0 := by
              by_contra hpos
              exact hcut (Nat.pos_of_ne_zero hpos) entry (List.mem_cons_self ..)
                ⟨not_le.1 hgt, existing, hx, hne⟩
            simp only [Except.bind_eq_ok] at ha
            obtain ⟨core₁, h₁, core₂, h₂, h₃⟩ := ha
            have hstored := persistLogEntry_stores
              (persistTruncateLog_stores h hcont h0 (by omega) h₁) h₂
            obtain ⟨s₁, -, rfl⟩ := persistTruncateLog_ok h₁
            obtain ⟨-, rfl⟩ := persistLogEntry_ok.1 h₂
            have hlen : (core.log.take (entry.index - 1)).length = b := by
              rw [List.length_take]
              omega
            refine ih (b := b + 1) hstored ?_ hrest ?_ ?_ h₃
            · rw [Contiguous, Indexed.append_iff, Indexed.singleton_iff]
              refine ⟨Indexed.take hcont _, ?_⟩
              simp only [hlen, h0]
              omega
            · simp only [List.length_append, hlen, List.length_singleton]
              omega
            · intro hpos
              simp only [h0] at hpos
              exact absurd hpos (lt_irrefl 0)
          · exact ih h hcont hrest (by omega) hcut' ha
        · -- the entry continues the vector
          rename_i hx
          rw [List.getElem?_eq_none_iff] at hx
          have hlast : entry.index = core.snapshotLastIndex + core.log.length + 1 := by omega
          simp only [Except.bind_eq_ok] at ha
          obtain ⟨core₁, h₁, h₂⟩ := ha
          have hstored := persistLogEntry_stores h h₁
          obtain ⟨-, rfl⟩ := persistLogEntry_ok.1 h₁
          refine ih (b := b + 1) hstored ?_ hrest ?_ ?_ h₂
          · rw [Contiguous, Indexed.append_iff, Indexed.singleton_iff]
            exact ⟨hcont, hlast⟩
          · simp only [List.length_append, List.length_singleton]
            omega
          · rintro hpos e he ⟨hlt, x, hx', -⟩
            have hmem := (hrest.mem he).1
            have hxlt : e.index - core.snapshotLastIndex - 1 < (core.log ++ [entry]).length :=
              (List.getElem?_eq_some_iff.1 (Option.mem_def.1 hx')).1
            rw [List.length_append, List.length_singleton] at hxlt
            omega

variable [Snapshotable μ]

/-- A compaction stores the snapshot that it takes. -/
theorem Compacted.stores (h : core.Stores snapshot) (hc : core.Compacted core') :
    ∃ data, Snapshotable.snapshot core.stateMachine = .ok data ∧
      core'.Stores (some ⟨⟨core'.snapshotLastIndex, core'.snapshotLastTerm⟩, data⟩) := by
  obtain ⟨c, hholds, hlog, -⟩ := h
  obtain ⟨entry, data, -, -, hdata, rfl⟩ := hc
  refine ⟨data, hdata, _, LawfulStorage.compactLog (core.lastApplied + 1)
    (LawfulStorage.saveSnapshot ⟨⟨core.lastApplied, entry.term⟩, data⟩ hholds), ?_, rfl⟩
  simp only [StorageContents.compactLog, hlog, ge_iff_le]

/-- An installed snapshot is stored, and the stored log is compacted along with the vector. -/
theorem handleInstallSnapshot_stores (h : core.Stores snapshot) {args : InstallSnapshotArgs}
    {result : InstallSnapshotResult}
    (hi : core.handleInstallSnapshot args = .ok (core', result)) :
    (core'.snapshotLastIndex = core.snapshotLastIndex ∧
      core'.snapshotLastTerm = core.snapshotLastTerm ∧ core'.log = core.log ∧
      core'.Stores snapshot) ∨
    (core.snapshotLastIndex < core'.snapshotLastIndex ∧
      core'.Stores (some ⟨⟨core'.snapshotLastIndex, core'.snapshotLastTerm⟩, args.data⟩)) := by
  rcases handleInstallSnapshot_ok hi with ⟨-, rfl, -⟩ | ⟨core₁, core₂, h₁, -, h₂, hor⟩
  · exact Or.inl ⟨rfl, rfl, rfl, h⟩
  · obtain ⟨hl, hs, ht, -⟩ := observeTerm_log h₁
    have hst : core₂.Stores snapshot := by
      subst h₂
      exact (observeTerm_stores h h₁).congr rfl rfl
    rcases hor with ⟨s, reason, rfl, -, rfl | ⟨hsave, -⟩⟩ | ⟨hlt, s, m, hsave, -, rfl, -⟩
    · subst h₂
      exact Or.inl ⟨hs, ht, hl, hst.congr rfl rfl⟩
    · exact absurd (InfallibleStorage.saveSnapshot_ok _ _) hsave
    · right
      have hs₂ : core₂.snapshotLastIndex = core.snapshotLastIndex := by rw [h₂, ← hs]
      obtain ⟨c, hholds, hlog, -⟩ := hst
      obtain rfl : (Storage.saveSnapshot core₂.storage
          ⟨⟨args.lastIncludedIndex, args.lastIncludedTerm⟩, args.data⟩).2 = s := by rw [hsave]
      refine ⟨hs₂ ▸ hlt, _, LawfulStorage.compactLog (args.lastIncludedIndex + 1)
        (LawfulStorage.saveSnapshot ⟨⟨args.lastIncludedIndex, args.lastIncludedTerm⟩, args.data⟩
          hholds), ?_, rfl⟩
      simp only [StorageContents.compactLog, hlog, gt_iff_lt, Nat.succ_le_iff]

end Stored

/-! ### The invariant -/

section Invariant

variable [Snapshotable μ] {m₀ : μ} {H : List String}

/-- A snapshot of the fold of the first `n` commands of the history; none is needed for `0`. -/
def Covers (m₀ : μ) (H : List String) (n : ℕ) : Option Snapshot → Prop
  | none => n = 0
  | some s => s.metadata.lastIncludedIndex = n ∧
      Snapshotable.snapshot (foldCommands m₀ (H.take n)) = .ok s.data

/-- **The node agrees with the history**: its state machine is the fold of what it has applied, and
so is the snapshot it would be loaded from. -/
structure Folded (m₀ : μ) (H : List String) (core : RaftCore σ μ) : Prop where
  wellFormed : core.WellFormed
  applied_eq : core.lastApplied = core.commitIndex
  within : core.lastApplied ≤ H.length
  stateMachine : core.stateMachine = foldCommands m₀ (H.take core.lastApplied)
  stored : ∃ snapshot, core.Stores snapshot ∧ Covers m₀ H core.snapshotLastIndex snapshot

/-- Nothing has changed but the vector, which the storage follows. -/
theorem Folded.congr (h : core.Folded m₀ H) (hwf : core'.WellFormed)
    (hs : core'.snapshotLastIndex = core.snapshotLastIndex)
    (ha : core'.lastApplied = core.lastApplied) (hc : core'.commitIndex = core.commitIndex)
    (hm : core'.stateMachine = core.stateMachine)
    (hst : ∀ snapshot, core.Stores snapshot → core'.Stores snapshot) : core'.Folded m₀ H := by
  obtain ⟨snapshot, hstored, hcov⟩ := h.stored
  refine ⟨hwf, ha.trans (h.applied_eq.trans hc.symm), ha ▸ h.within, ?_, snapshot,
    hst _ hstored, hs ▸ hcov⟩
  rw [hm, ha]
  exact h.stateMachine

theorem Folded.stepsDown {term : ℕ} (h : core.Folded m₀ H) (hs : core.StepsDown term core') :
    core'.Folded m₀ H := by
  have hwf := h.wellFormed.stepsDown hs
  rcases hs with ⟨-, rfl⟩ | ⟨-, rfl⟩
  · exact h.congr hwf rfl rfl rfl rfl fun _ hst => hst.congr rfl rfl
  · exact h

variable [LawfulStorage σ]

/-- Nothing that the fold depends on has changed. -/
theorem Folded.observeTerm (h : core.Folded m₀ H) {term : ℕ}
    (ho : core.observeTerm term = .ok core') : core'.Folded m₀ H := by
  have hst : ∀ snapshot, core.Stores snapshot → core'.Stores snapshot :=
    fun _ hs => observeTerm_stores hs ho
  have hwf := observeTerm_wellFormed h.wellFormed ho
  rcases observeTerm_ok ho with ⟨-, rfl⟩ | ⟨-, s, -, rfl⟩
  · exact h
  · exact h.congr hwf rfl rfl rfl rfl hst

/-- A compaction takes a snapshot of the fold. -/
theorem Folded.compacted (h : core.Folded m₀ H) (hc : core.Compacted core') :
    core'.Folded m₀ H := by
  have hwf := h.wellFormed.compacted hc
  obtain ⟨snapshot, hstored, -⟩ := h.stored
  obtain ⟨data, hdata, hstored'⟩ := hc.stores hstored
  obtain ⟨entry, data', -, -, -, rfl⟩ := hc
  refine ⟨hwf, h.applied_eq, h.within, h.stateMachine, _, hstored', rfl, ?_⟩
  rw [← h.stateMachine]
  exact hdata

theorem Folded.becomeLeader (h : core.Folded m₀ H) (hb : core.becomeLeader = .ok core') :
    core'.Folded m₀ H := by
  have hst : ∀ snapshot, core.Stores snapshot → core'.Stores snapshot :=
    fun _ hs => becomeLeader_stores hs hb
  obtain ⟨s, -, rfl⟩ := becomeLeader_ok hb
  exact h.congr (h.wellFormed.append core.noopEntry rfl rfl rfl rfl rfl) rfl rfl rfl rfl hst

theorem Folded.autoSnapshot (h : core.Folded m₀ H) : core.autoSnapshot.Folded m₀ H := by
  rcases autoSnapshot_cases core with heq | hc
  · rwa [heq]
  · exact h.compacted hc

/-- Between the indices `m` and `n` the entries carry the commands of the history. -/
def CommitsAlong (H : List String) (log : List LogEntry) (m n : ℕ) : Prop :=
  ∀ e ∈ log, m < e.index → e.index ≤ n → H[e.index - 1]? = some e.command

instance (H : List String) (log : List LogEntry) (m n : ℕ) :
    Decidable (CommitsAlong H log m n) := by
  unfold CommitsAlong
  infer_instance

/-- **Applying the committed entries** moves the fold on. -/
theorem applyCommittedEntries_folded {results : List (ℕ × ApplyResult)} (hwf : core.WellFormed)
    (hwithin : core.lastApplied ≤ H.length)
    (hm : core.stateMachine = foldCommands m₀ (H.take core.lastApplied))
    (hst : ∃ snapshot, core.Stores snapshot ∧ Covers m₀ H core.snapshotLastIndex snapshot)
    (hH : CommitsAlong H core.log core.lastApplied core.commitIndex)
    (ha : core.applyCommittedEntries = .ok (core', results)) : core'.Folded m₀ H := by
  obtain ⟨es, hlen, hes, -, rfl⟩ := applyCommittedEntries_ok ha
  have hle := hwf.applied_le
  have hcommit := hwf.commit_le
  rw [hwf.lastLogIndex] at hcommit
  have hmax : max core.lastApplied core.commitIndex = core.commitIndex := max_eq_right hle
  have hget : ∀ k < es.length, H[core.lastApplied + k]? = (es[k]?).map LogEntry.command := by
    intro k hk
    obtain ⟨e, he⟩ : ∃ e, es[k]? = some e := ⟨_, List.getElem?_eq_getElem hk⟩
    have hentry := (hes k hk).trans he
    have hidx := hwf.contiguous.getLogEntry_index hentry
    have hmem := List.mem_of_getElem? (getLogEntry_eq_some.1 hentry).2
    rw [he, Option.map_some, ← hH e hmem (by omega) (by omega)]
    congr 1
    omega
  -- the commands that are applied are the next ones of the history
  have hcmds : es.map LogEntry.command = (H.take core.commitIndex).drop core.lastApplied := by
    refine List.ext_getElem? fun k => ?_
    rcases Nat.lt_or_ge k es.length with hk | hk
    · rw [List.getElem?_map, List.getElem?_drop, List.getElem?_take_of_lt (by omega), hget k hk]
    · rw [List.getElem?_map, List.getElem?_eq_none hk, List.getElem?_drop,
        List.getElem?_take_eq_none (by omega), Option.map_none]
  have hcommitH : core.commitIndex ≤ H.length := by
    rcases Nat.eq_or_lt_of_le hle with heq | hlt
    · exact heq ▸ hwithin
    · have hlast := hget (es.length - 1) (by omega)
      rw [List.getElem?_eq_getElem (show es.length - 1 < es.length by omega),
        Option.map_some] at hlast
      have := (List.getElem?_eq_some_iff.1 hlast).1
      omega
  refine Folded.autoSnapshot ⟨?_, hmax, hmax.trans_le hcommitH, ?_, hst⟩
  · exact ⟨hwf.contiguous, hwf.snapshot_le.trans (le_max_left _ _), hmax.le, hwf.commit_le⟩
  · simp only [hmax]
    rw [hm, ← foldCommands_append, hcmds]
    conv_rhs => rw [← List.take_append_drop core.lastApplied (H.take core.commitIndex)]
    rw [List.take_take, min_eq_left hle]

variable {args : AppendEntriesArgs}

theorem acceptEntries_folded (h : core.Folded m₀ H) (hargs : core.Continues args)
    (hprev : args.prevLogIndex ≤ core.lastLogIndex)
    (hcut : 0 < core.snapshotLastIndex →
      ∀ e ∈ args.entries, ¬ Conflicts core.snapshotLastIndex core.log e)
    (hH : CommitsAlong H (takeOver core.snapshotLastIndex core.log args.entries)
      core.commitIndex core'.commitIndex)
    (ha : core.acceptEntries args = .ok core') : core'.Folded m₀ H := by
  simp only [acceptEntries, Except.bind_eq_ok] at ha
  obtain ⟨core₁, h₁, ha⟩ := ha
  have hprev' := hprev
  rw [h.wellFormed.lastLogIndex] at hprev'
  have hst : ∀ snapshot, core.Stores snapshot → core₁.Stores snapshot := fun _ hs =>
    applyEntries_stores hs h.wellFormed.contiguous hargs.1 hprev' hcut h₁
  obtain ⟨s, -, hcore₁⟩ := applyEntries_ok h₁
  have hwf : core₁.WellFormed := by
    subst hcore₁
    exact h.wellFormed.takeOver hargs hprev hcut rfl rfl rfl rfl
  have hf : core₁.Folded m₀ H := by
    subst hcore₁
    exact h.congr hwf rfl rfl rfl rfl hst
  have hc : core₁.commitIndex = core.commitIndex := by rw [hcore₁]
  split at ha
  · rename_i hlt
    simp only [Except.bind_eq_ok, Except.pure_eq_ok, Prod.exists] at ha
    obtain ⟨_, results, ha, rfl⟩ := ha
    refine applyCommittedEntries_folded
      (hwf.commit (le_min hlt.le hwf.commit_le) (min_le_right _ _)) hf.within hf.stateMachine
      hf.stored ?_ ha
    obtain ⟨_, _, _, _, _, _, heq⟩ := applyCommittedEntries_eq ha
    rw [heq] at hH
    simp only [hf.applied_eq, hc]
    subst hcore₁
    exact hH
  · obtain rfl := Except.pure_eq_ok.1 ha
    exact hf

theorem handleAppendEntries_folded (h : core.Folded m₀ H) (hargs : core.Continues args)
    (hcut : ¬ core.CutsAboveSnapshot args)
    (hH : CommitsAlong H (takeOver core.snapshotLastIndex core.log args.entries)
      core.commitIndex core'.commitIndex)
    {out : HandleAppendEntriesOutput} (ha : core.handleAppendEntries args = .ok (core', out)) :
    core'.Folded m₀ H := by
  obtain ⟨core₁, h₁, ⟨-, rfl, -, -⟩ | ⟨hterm, core₂, h₂, hor⟩⟩ := handleAppendEntries_ok ha
  · exact h.observeTerm h₁
  · obtain ⟨hwf, hcont, hno⟩ := observed_wellFormed h.wellFormed hargs hcut h₁ hterm h₂
    have hf : core₂.Folded m₀ H := by
      subst h₂
      exact (h.observeTerm h₁).congr hwf rfl rfl rfl rfl fun _ hs => hs.congr rfl rfl
    rcases hor with ⟨rfl, -, -⟩ | ⟨hp, hacc, -, -⟩
    · exact hf
    · refine acceptEntries_folded hf hcont hp.le_lastLogIndex (hno hp) ?_ hacc
      obtain ⟨hl, hs, -, hc⟩ := observeTerm_log h₁
      subst h₂
      simp only [hl, hs, hc]
      exact hH

/-- The installed snapshot ends below what the node has applied. -/
def RollsBack (core : RaftCore σ μ) (args : InstallSnapshotArgs) : Prop :=
  core.currentTerm ≤ args.term ∧ core.snapshotLastIndex < args.lastIncludedIndex ∧
    args.lastIncludedIndex < core.lastApplied

omit [Storage σ] [Snapshotable μ] [LawfulStorage σ] in
instance (core : RaftCore σ μ) (args : InstallSnapshotArgs) : Decidable (core.RollsBack args) := by
  unfold RollsBack
  infer_instance

/-- **Installing a snapshot** of the fold that does not end below `last_applied`. -/
theorem handleInstallSnapshot_folded [LawfulSnapshotable μ] (h : core.Folded m₀ H)
    {args : InstallSnapshotArgs} {result : InstallSnapshotResult}
    (hlen : args.lastIncludedIndex ≤ H.length)
    (hdata : Snapshotable.snapshot (foldCommands m₀ (H.take args.lastIncludedIndex)) =
      .ok args.data)
    (hroll : ¬ core.RollsBack args)
    (hi : core.handleInstallSnapshot args = .ok (core', result)) : core'.Folded m₀ H := by
  have hwf := handleInstallSnapshot_wellFormed h.wellFormed hi
  rcases handleInstallSnapshot_ok hi with ⟨-, rfl, -⟩ | ⟨core₁, core₂, h₁, hterm, h₂, hor⟩
  · exact h
  have hf : core₂.Folded m₀ H := by
    have hobs := h.observeTerm h₁
    subst h₂
    exact hobs.congr (hobs.wellFormed.congr rfl rfl rfl rfl) rfl rfl rfl rfl
      fun _ hs => hs.congr rfl rfl
  rcases hor with ⟨s, reason, rfl, -, rfl | ⟨hsave, -⟩⟩ | ⟨hlt, s, m, hsave, hrestore, hcore', -⟩
  · exact hf.congr hwf rfl rfl rfl rfl fun _ hs => hs.congr rfl rfl
  · exact absurd (InfallibleStorage.saveSnapshot_ok _ _) hsave
  · -- the snapshot ends at or above what is applied, so both move to its end
    have hge : core₂.lastApplied ≤ args.lastIncludedIndex := by
      by_contra hgt
      apply hroll
      have hle := observeTerm_currentTerm h₁
      have hsame : core.snapshotLastIndex = core₂.snapshotLastIndex ∧
          core.lastApplied = core₂.lastApplied := by
        subst h₂
        rcases observeTerm_ok h₁ with ⟨-, rfl⟩ | ⟨-, _, -, rfl⟩ <;> exact ⟨rfl, rfl⟩
      exact ⟨by omega, hsame.1 ▸ hlt, hsame.2 ▸ not_le.1 hgt⟩
    obtain rfl : foldCommands m₀ (H.take args.lastIncludedIndex) = m :=
      Except.ok.inj ((LawfulSnapshotable.restore_snapshot core₂.stateMachine hdata).symm.trans
        hrestore)
    obtain ⟨snapshot, hst, -⟩ := h.stored
    have hstored := (handleInstallSnapshot_stores hst hi).resolve_left fun hsame => by
      have hlt' := hlt
      have hidx : core'.snapshotLastIndex = args.lastIncludedIndex := by rw [hcore']
      have hobs := (observeTerm_log h₁).2.1
      rw [h₂] at hlt'
      simp only [hobs] at hlt'
      omega
    have hcov : Covers m₀ H core'.snapshotLastIndex
        (some ⟨⟨core'.snapshotLastIndex, core'.snapshotLastTerm⟩, args.data⟩) := by
      rw [hcore']
      exact ⟨rfl, hdata⟩
    have happlied : max core₂.lastApplied args.lastIncludedIndex = args.lastIncludedIndex :=
      max_eq_right hge
    obtain ⟨-, hstored⟩ := hstored
    subst hcore'
    refine ⟨hwf, ?_, ?_, ?_, _, hstored, hcov⟩
    · simp only [hf.applied_eq]
    · simp only [happlied]
      exact hlen
    · simp only [happlied]

theorem handleAppendEntriesResult_folded (h : core.Folded m₀ H) {peerId entryIndex : ℕ}
    {result : AppendEntriesResult} {commit : Option ℕ} {results : List (ℕ × ApplyResult)}
    (hle : entryIndex ≤ core.lastLogIndex)
    (hH : CommitsAlong H core.log core.commitIndex core'.commitIndex)
    (hr : core.handleAppendEntriesResult peerId entryIndex result = .ok (core', commit, results)) :
    core'.Folded m₀ H := by
  obtain ⟨core₁, h₁, hor⟩ := handleAppendEntriesResult_ok hr
  have hf := h.observeTerm h₁
  rcases hor with ⟨-, rfl, -⟩ | ⟨-, core₂, h₂, hor⟩
  · exact hf
  · obtain ⟨next, matchIndex, heq, -, -⟩ := recordAppendResult_eq core₁ peerId entryIndex result
    rw [heq] at h₂
    have hf₂ : core₂.Folded m₀ H := by
      subst h₂
      exact hf.congr (hf.wellFormed.congr rfl rfl rfl rfl) rfl rfl rfl rfl
        fun _ hs => hs.congr rfl rfl
    rcases hor with ⟨rfl, -⟩ | ⟨-, -, -, hlt, -, happly⟩
    · exact hf₂
    · obtain ⟨hl, hs, -, hc⟩ := observeTerm_log h₁
      have hlast : core₂.lastLogIndex = core.lastLogIndex := by
        rw [hf₂.wellFormed.lastLogIndex, h.wellFormed.lastLogIndex, h₂, hl, hs]
      refine applyCommittedEntries_folded
        (hf₂.wellFormed.commit hlt.le (hlast.symm ▸ hle)) hf₂.within hf₂.stateMachine
        hf₂.stored ?_ happly
      obtain ⟨_, _, _, _, _, _, heq'⟩ := applyCommittedEntries_eq happly
      rw [heq'] at hH
      simp only [hf₂.applied_eq]
      subst h₂
      simp only [hl, hc]
      exact hH

omit [LawfulStorage σ] in
/-- **A node loaded from its storage** starts from the fold that its snapshot holds. -/
theorem new_folded [LawfulSnapshotable μ] {id n : ℕ} {peers : List ℕ} {storage : σ}
    {c : StorageContents} (hholds : Holds storage c) (hcov : Covers m₀ H n c.snapshot)
    (hidx : Indexed n c.log) (hlen : n ≤ H.length)
    (h : RaftCore.new id peers storage m₀ = .ok core) : core.Folded m₀ H := by
  obtain ⟨hterm, hvote, hlog, hsnap⟩ := hholds
  cases hc : c.snapshot with
  | none =>
      rw [hc] at hcov hsnap
      obtain rfl : n = 0 := hcov
      have hwf := new_wellFormed h hlog hsnap hidx
      simp only [RaftCore.new, hterm, hvote, hlog, hsnap, expectLoad, restoreLoaded,
        Except.bind_eq_ok, Except.ok.injEq, exists_eq_left', Except.pure_eq_ok] at h
      subst h
      exact ⟨hwf, rfl, hlen, rfl, none, ⟨c, ⟨hterm, hvote, hlog, hc ▸ hsnap⟩, rfl, hc⟩, rfl⟩
  | some s =>
      rw [hc] at hcov hsnap
      obtain ⟨rfl, hdata⟩ := hcov
      have hwf := new_wellFormed h hlog hsnap hidx
      simp only [RaftCore.new, hterm, hvote, hlog, hsnap, expectLoad, restoreLoaded,
        expectRestore_ok, Except.bind_eq_ok, Except.ok.injEq, exists_eq_left', Except.pure_eq_ok]
        at h
      obtain ⟨m, hm, rfl⟩ := h
      obtain rfl := Except.ok.inj
        ((LawfulSnapshotable.restore_snapshot m₀ hdata).symm.trans hm)
      exact ⟨hwf, rfl, hlen, rfl, some s, ⟨c, ⟨hterm, hvote, hlog, hc ▸ hsnap⟩, rfl, hc⟩, rfl, hdata⟩

omit [LawfulStorage σ] in
/-- A node that agrees with the history is loaded again in agreement with it. -/
theorem Folded.restart [LawfulSnapshotable μ] (h : core.Folded m₀ H) {id : ℕ} {peers : List ℕ}
    (hnew : RaftCore.new id peers core.storage m₀ = .ok core') : core'.Folded m₀ H := by
  obtain ⟨snapshot, ⟨c, hholds, hlog, rfl⟩, hcov⟩ := h.stored
  refine new_folded hholds hcov ?_ (h.wellFormed.snapshot_le.trans h.within) hnew
  rw [hlog]
  exact h.wellFormed.contiguous

end Invariant

end RaftCore

/-! ### Runs -/

/-- A call, or a restart with a fresh state machine and a snapshot threshold. -/
inductive ReplicaAction
  | call (op : Op)
  | restart (threshold : ℕ)
deriving DecidableEq, Repr

/-- The vector in which a call commits. -/
def Op.committing {σ μ : Type} (core : RaftCore σ μ) : Op → List LogEntry
  | .appendEntries args => takeOver core.snapshotLastIndex core.log args.entries
  | _ => core.log

namespace Replica

open Runs

variable {σ μ : Type}

/-- What the surroundings promise for a call. -/
def Expected (core : RaftCore σ μ) : ReplicaAction → Prop
  | .call op => op.Expected core
  | .restart _ => True

instance (core : RaftCore σ μ) (action : ReplicaAction) : Decidable (Expected core action) := by
  cases action <;> unfold Expected <;> infer_instance

/-- The call cuts the log above a snapshot, or installs a snapshot that ends below
`last_applied`. -/
def GoesWrong (core : RaftCore σ μ) : ReplicaAction → Prop
  | .call (.installSnapshot args) => core.RollsBack args
  | .call op => op.CutsAboveSnapshot core
  | .restart _ => False

instance (core : RaftCore σ μ) (action : ReplicaAction) : Decidable (GoesWrong core action) := by
  unfold GoesWrong
  split <;> infer_instance

variable [Storage σ] [Snapshotable μ]

/-- **One step of a node**: a call that returns, or a restart on the storage as it is. -/
def step (m₀ : μ) (core : RaftCore σ μ) : ReplicaAction → Option (RaftCore σ μ)
  | .call op => op.step core
  | .restart threshold =>
      match RaftCore.new core.id core.peers core.storage m₀ with
      | .ok core => some (core.setSnapshotThreshold threshold)
      | .error _ => none

/-- `H` is the sequence of the committed commands: what a call commits is in it, and a snapshot is
one of its fold. -/
def Along (m₀ : μ) (H : List String) (t : Transition (RaftCore σ μ) ReplicaAction) : Prop :=
  match t.action with
  | .call (.installSnapshot args) =>
      args.lastIncludedIndex ≤ H.length ∧
        Snapshotable.snapshot (foldCommands m₀ (H.take args.lastIncludedIndex)) = .ok args.data
  | .call op => RaftCore.CommitsAlong H (op.committing t.source) t.source.commitIndex
      t.target.commitIndex
  | .restart _ => True

instance (m₀ : μ) (H : List String)
    (t : Transition (RaftCore σ μ) ReplicaAction) : Decidable (Along m₀ H t) := by
  unfold Along
  split <;> infer_instance

variable [LawfulStorage σ] [LawfulSnapshotable μ] {m₀ : μ} {H : List String}
  {core core' : RaftCore σ μ}

/-- **One step keeps the fold.** -/
theorem step_folded (h : core.Folded m₀ H) {action : ReplicaAction}
    (hexp : Expected core action) (halong : Along m₀ H ⟨core, action, core'⟩)
    (hok : ¬ GoesWrong core action) (hs : step m₀ core action = some core') :
    core'.Folded m₀ H := by
  cases action with
  | restart threshold =>
      simp only [step] at hs
      split at hs
      · rename_i core₁ hnew
        obtain rfl := Option.some.inj hs
        have hf := h.restart hnew
        exact hf.congr (hf.wellFormed.congr rfl rfl rfl rfl) rfl rfl rfl rfl
          fun _ hst => hst.congr rfl rfl
      · simp at hs
  | call op =>
      cases Op.ran_of_step hs with
      | requestVote hv =>
          rcases RaftCore.handleRequestVote_ok hv with
            ⟨-, rfl, -⟩ | ⟨core₁, h₁, -, ⟨rfl, -⟩ | ⟨-, -, hset, -⟩⟩
          · exact h
          · exact h.observeTerm h₁
          · have hf := h.observeTerm h₁
            have hst := fun snapshot (hst : core₁.Stores snapshot) =>
              RaftCore.setVotedFor_stores hst hset
            obtain ⟨-, rfl⟩ := RaftCore.setVotedFor_ok.1 hset
            exact hf.congr (hf.wellFormed.congr rfl rfl rfl rfl) rfl rfl rfl rfl hst
      | appendEntries ha => exact RaftCore.handleAppendEntries_folded h hexp hok halong ha
      | installSnapshot hi =>
          exact RaftCore.handleInstallSnapshot_folded h halong.1 halong.2 hok hi
      | startElection he =>
          have hst := fun snapshot (hst : core.Stores snapshot) =>
            RaftCore.startElection_stores hst he
          obtain ⟨s, -, rfl⟩ := RaftCore.startElection_ok he
          exact h.congr (h.wellFormed.congr rfl rfl rfl rfl) rfl rfl rfl rfl hst
      | becomeLeader hb => exact h.becomeLeader hb
      | @appendLogEntry command _ _ ha =>
          have hst := fun snapshot (hst : core.Stores snapshot) =>
            RaftCore.appendLogEntry_stores hst ha
          rcases RaftCore.appendLogEntry_ok ha with ⟨-, rfl, -⟩ | ⟨-, e, s, -, rfl, -, rfl⟩
          · exact h
          · exact h.congr (h.wellFormed.append ⟨core.currentTerm, core.lastLogIndex + 1, command⟩
              rfl rfl rfl rfl rfl) rfl rfl rfl rfl hst
      | applyCommittedEntries ha =>
          refine RaftCore.applyCommittedEntries_folded h.wellFormed h.within h.stateMachine
            h.stored ?_ ha
          intro e _ hgt hle
          exact absurd (h.applied_eq ▸ hgt) (not_lt.2 hle)
      | takeSnapshot =>
          rcases RaftCore.takeSnapshot_cases core with heq | hc
          · rwa [heq]
          · exact h.compacted hc
      | @requestVoteResult peerId result _ _ hv =>
          obtain ⟨core₁, h₁, ⟨-, rfl, -⟩ | ⟨-, core₂, h₂, hor⟩⟩ :=
            RaftCore.handleRequestVoteResult_ok hv
          · exact h.observeTerm h₁
          · obtain ⟨votes, heq, -⟩ := RaftCore.countVote_eq core₁ peerId result
            have hf := h.observeTerm h₁
            have hf₂ : core₂.Folded m₀ H := by
              rw [h₂, heq]
              exact hf.congr (hf.wellFormed.congr rfl rfl rfl rfl) rfl rfl rfl rfl
                fun _ hst => hst.congr rfl rfl
            rcases hor with ⟨rfl, -⟩ | ⟨-, hb, -⟩
            · exact hf₂
            · exact hf₂.becomeLeader hb
      | appendEntriesResult hr =>
          exact RaftCore.handleAppendEntriesResult_folded h hexp halong hr
      | installSnapshotSuccess =>
          exact h.congr (h.wellFormed.congr rfl rfl rfl rfl) rfl rfl rfl rfl
            fun _ hst => hst.congr rfl rfl
      | installSnapshotFailed hdown => exact h.stepsDown hdown
      | confirmResult hdown => exact h.stepsDown hdown

/-- A run from an empty storage agrees with the history, as long as the surroundings keep their
promises and no step goes wrong. -/
theorem run_agrees_folded {id : ℕ} {peers : List ℕ} {storage : σ}
    (hholds : Holds storage StorageContents.empty)
    (hnew : RaftCore.new id peers storage m₀ = .ok core)
    {ts : List (Transition (RaftCore σ μ) ReplicaAction)} (hr : Run (step m₀) core ts core')
    (hexp : ∀ t ∈ ts, Expected t.source t.action) (halong : ∀ t ∈ ts, Along m₀ H t)
    (hok : ∀ t ∈ ts, ¬ GoesWrong t.source t.action) : core'.Folded m₀ H := by
  have hstart : core.Folded m₀ H :=
    RaftCore.new_folded (n := 0) hholds rfl Indexed.nil (Nat.zero_le _) hnew
  exact hr.invariant
    (P := fun t => Expected t.source t.action ∧ Along m₀ H t ∧ ¬ GoesWrong t.source t.action)
    (fun _ _ _ hi hs hp => step_folded hi hp.1 hp.2.1 hp.2.2 hs) hstart
    fun t ht => ⟨hexp t ht, halong t ht, hok t ht⟩

/-- **The state machine is the fold of the applied history**, in every run of a node that starts on
an empty storage: calls and restarts in any order, as long as the surroundings keep their promises
and no step goes wrong. -/
theorem run_folded {id : ℕ} {peers : List ℕ} {storage : σ}
    (hholds : Holds storage StorageContents.empty)
    (hnew : RaftCore.new id peers storage m₀ = .ok core)
    {ts : List (Transition (RaftCore σ μ) ReplicaAction)} (hr : Run (step m₀) core ts core')
    (hexp : ∀ t ∈ ts, Expected t.source t.action) (halong : ∀ t ∈ ts, Along m₀ H t)
    (hok : ∀ t ∈ ts, ¬ GoesWrong t.source t.action) :
    core'.stateMachine = foldCommands m₀ (H.take core'.lastApplied) ∧
      core'.lastApplied ≤ H.length := by
  have hf := run_agrees_folded hholds hnew hr hexp halong hok
  exact ⟨hf.stateMachine, hf.within⟩

/-- The commands of five entries. -/
def fiveCommands : List String := [noopCommand, "SET x 1", "SET x 2", "SET y 3", "DEL x"]

/-- A node as it is loaded from an empty storage. -/
def emptyReplica : RaftCore StorageContents Recorder := .fresh 1 [2, 3] .empty .new

/-- The request with the first three entries. -/
def firstThree (leaderCommit : ℕ) : Op :=
  .appendEntries ⟨1, 2, 0, 0, [⟨1, 1, noopCommand⟩, ⟨1, 2, "SET x 1"⟩, ⟨1, 3, "SET x 2"⟩],
    leaderCommit⟩

/-- The request to install a snapshot of the first `n` commands. -/
def installFirst (n : ℕ) : Op :=
  .installSnapshot ⟨1, 2, n, 1, (foldCommands Recorder.new (fiveCommands.take n)).bytes⟩

/-- A node that compacts its log, is restarted, and installs a snapshot of everything. -/
theorem run_folded_restarting : ∃ (ts : List _) (core : RaftCore StorageContents Recorder),
    Run (step Recorder.new) emptyReplica ts core ∧ core.lastApplied = 5 ∧
      core.stateMachine = foldCommands Recorder.new fiveCommands := by
  obtain ⟨ts, core, hr, hP, hQ⟩ := exists_run (step Recorder.new) emptyReplica
    [.call (firstThree 2), .call .takeSnapshot, .restart 0,
      .call (.appendEntries ⟨1, 2, 3, 1, [⟨1, 4, "SET y 3"⟩], 4⟩), .call (installFirst 5)]
    (P := fun t => Expected t.source t.action ∧ Along Recorder.new fiveCommands t ∧
      ¬ GoesWrong t.source t.action)
    (Q := fun core => core.lastApplied = 5) (by decide)
  have hfold := (run_folded (H := fiveCommands)
    (StorageContents.holds_iff.2 rfl) (RaftCore.new_eq_fresh rfl rfl rfl rfl) hr
    (fun t ht => (hP t ht).1) (fun t ht => (hP t ht).2.1) fun t ht => (hP t ht).2.2).1
  rw [hQ] at hfold
  exact ⟨ts, core, hr, hQ, hfold⟩

/-- **The state machine falls behind** when a snapshot of the first two commands is installed after
three are applied: it goes back, and `last_applied` does not. -/
theorem rolled_back : ∃ (ts : List _) (core : RaftCore StorageContents Recorder),
    Run (step Recorder.new) emptyReplica ts core ∧
      (∀ t ∈ ts, Expected t.source t.action) ∧ (∀ t ∈ ts, Along Recorder.new fiveCommands t) ∧
      core.lastApplied = 3 ∧
      core.stateMachine = foldCommands Recorder.new (fiveCommands.take 2) ∧
      core.stateMachine ≠ foldCommands Recorder.new (fiveCommands.take core.lastApplied) := by
  obtain ⟨ts, core, hr, hP, hQ⟩ := exists_run (step Recorder.new) emptyReplica
    [.call (firstThree 3), .call (installFirst 2)]
    (P := fun t => Expected t.source t.action ∧ Along Recorder.new fiveCommands t)
    (Q := fun core => core.lastApplied = 3 ∧
      core.stateMachine = foldCommands Recorder.new (fiveCommands.take 2) ∧
      core.stateMachine ≠ foldCommands Recorder.new (fiveCommands.take core.lastApplied))
    (by decide)
  exact ⟨ts, core, hr, fun t ht => (hP t ht).1, fun t ht => (hP t ht).2, hQ⟩

end Replica

end RaftVibe
