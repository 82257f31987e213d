/-
**A crash in the middle of a compaction.**

`take_snapshot` and `handle_install_snapshot` write twice: first the snapshot, then the log without
the entries that the snapshot covers.  A node that crashes in between comes back with the new
snapshot and the whole log.  `RaftCore::new` takes both as they are, and from then on every entry is
looked up at a position that is computed from the snapshot's index: the log is shifted.

Main definitions:

* `RaftVibe.RaftCore.moments` — the states of the storage during a call;
* `RaftVibe.RaftCore.savedMoment` — the moment between the two writes of a compaction;
* `RaftVibe.RaftCore.RecoversFrom` — what a restart should find.

Main results:

* `RaftVibe.RaftCore.recoversFrom_of_holds` — a snapshot and the log above it are enough;
* `RaftVibe.RaftCore.compaction_moments` — what the storage holds at each moment of a compaction;
* `RaftVibe.RaftCore.crash_recovers_iff` — **exactly when a crash does no harm**.
-/

import RaftVibe.Durability
import RaftVibe.Mirror

set_option relaxedAutoImplicit false
set_option autoImplicit false

namespace RaftVibe

instance {σ : Type} [Storage σ] [InfallibleStorage σ] : InfallibleStorage (Journal σ) where
  saveTerm_ok j t := InfallibleStorage.saveTerm_ok j.current t
  saveVotedFor_ok j v := InfallibleStorage.saveVotedFor_ok j.current v
  appendLogEntries_ok j es := InfallibleStorage.appendLogEntries_ok j.current es
  truncateLog_ok j i := InfallibleStorage.truncateLog_ok j.current i
  compactLog_ok j i := InfallibleStorage.compactLog_ok j.current i
  saveSnapshot_ok j x := InfallibleStorage.saveSnapshot_ok j.current x

namespace RaftCore

variable {σ μ : Type} {core core' : RaftCore σ μ}

/-- The node with a storage that keeps a journal, from here on. -/
def journaled (core : RaftCore σ μ) : RaftCore (Journal σ) μ :=
  { core with storage := .start core.storage }

/-- The states of the storage during a call: it may crash at each of them. -/
def moments [Storage σ] [Snapshotable μ] (core : RaftCore σ μ) (op : Op) : List σ :=
  Life.moments ⟨core.journaled, []⟩ op

/-- The bytes are a snapshot of some state machine. -/
def IsSnapshot (μ : Type) [Snapshotable μ] (data : List UInt8) : Prop :=
  ∃ m : μ, Snapshotable.snapshot m = .ok data

/-! ### What a restart should find -/

section Recovery

variable [Storage σ] [Snapshotable μ]

/-- The node `core'`, loaded after a crash of `core`, has a contiguous log with the same entries
above its snapshot, and when it commits them again it applies exactly the commands that follow the
snapshot. -/
structure Recovers (core core' : RaftCore σ μ) : Prop where
  contiguous : ∀ k e, core'.log[k]? = some e → e.index = core'.snapshotLastIndex + 1 + k
  entries : ∀ i, core'.snapshotLastIndex < i → core'.getLogEntry i = core.getLogEntry i
  recommits : ∀ i, core'.snapshotLastIndex ≤ i → i ≤ max core'.snapshotLastIndex core.lastLogIndex →
    ∃ core'' results,
      applyCommittedEntries { core' with commitIndex := i } = .ok (core'', results) ∧
      core''.stateMachine = foldCommands core'.stateMachine
        ((core.log.filter fun e => core'.snapshotLastIndex < e.index ∧ e.index ≤ i).map
          LogEntry.command)

/-- **A crash that leaves the storage `s` does no harm**: whatever machine the application provides,
the node comes back. -/
def RecoversFrom (core : RaftCore σ μ) (s : σ) : Prop :=
  ∀ m, ∃ core', RaftCore.new core.id core.peers s m = .ok core' ∧ core.Recovers core'

/-- What `new` loads from a storage with these contents. -/
theorem new_of_holds [LawfulSnapshotable μ] (id : ℕ) (peers : List ℕ) {s : σ} {c : StorageContents}
    (hholds : Holds s c) (hdata : ∀ x ∈ c.snapshot, IsSnapshot μ x.data) (m : μ) :
    ∃ core' : RaftCore σ μ, RaftCore.new id peers s m = .ok core' ∧ core'.log = c.log ∧
      core'.snapshotLastIndex = (snapshotBoundary c.snapshot).1 ∧
      core'.commitIndex = core'.snapshotLastIndex ∧
      core'.lastApplied = core'.snapshotLastIndex := by
  obtain ⟨hterm, hvote, hlog, hsnap⟩ := hholds
  obtain ⟨m', hm'⟩ : ∃ m', restoreLoaded s m c.snapshot = .ok m' := by
    cases hc : c.snapshot with
    | none => exact ⟨m, rfl⟩
    | some x =>
        obtain ⟨m', hx⟩ := hdata x (by rw [hc]; rfl)
        exact ⟨m', expectRestore_ok.2 (LawfulSnapshotable.restore_snapshot m hx)⟩
  refine ⟨{ fresh id peers s m' with
    currentTerm := c.term
    votedFor := c.votedFor
    log := c.log
    snapshotLastIndex := (snapshotBoundary c.snapshot).1
    snapshotLastTerm := (snapshotBoundary c.snapshot).2
    commitIndex := (snapshotBoundary c.snapshot).1
    lastApplied := (snapshotBoundary c.snapshot).1 }, ?_, rfl, rfl, rfl, rfl⟩
  simp only [RaftCore.new, hterm, hvote, hlog, hsnap, hm', expectLoad, bind, Except.bind]
  cases c.snapshot <;> rfl

/-- A node whose vector is what lies above its snapshot recovers the log. -/
theorem recovers_of_log (hc : core.Contiguous)
    (hle : core.snapshotLastIndex ≤ core'.snapshotLastIndex)
    (hlog : core'.log = core.log.filter fun e => e.index > core'.snapshotLastIndex)
    (ha : core'.lastApplied = core'.snapshotLastIndex) : core.Recovers core' := by
  have hcont : Indexed core.snapshotLastIndex core.log := hc
  have hdrop := hcont.filter_gt core'.snapshotLastIndex
  rw [← hlog] at hdrop
  have hidx : Indexed core'.snapshotLastIndex core'.log := by
    rcases Nat.le_total (core'.snapshotLastIndex - core.snapshotLastIndex) core.log.length with
      hin | hout
    · have := hcont.drop hin
      rwa [Nat.add_sub_cancel' hle, ← hdrop] at this
    · rw [hdrop, List.drop_of_length_le hout]
      exact Indexed.nil
  have hcore' : core'.Contiguous := hidx
  have hlast : core'.lastLogIndex = max core'.snapshotLastIndex core.lastLogIndex := by
    rw [hcore'.lastLogIndex, hc.lastLogIndex, hdrop, List.length_drop]
    omega
  have hentries : ∀ i, core'.snapshotLastIndex < i → core'.getLogEntry i = core.getLogEntry i := by
    intro i hi
    rw [getLogEntry, getLogEntry, if_neg (by omega), if_neg (by omega), hdrop, List.getElem?_drop]
    congr 1
    omega
  refine ⟨hidx, hentries, fun i hi hi' => ?_⟩
  obtain ⟨⟨core'', results⟩, happly⟩ :
      ∃ r, applyCommittedEntries { core' with commitIndex := i } = .ok r :=
    applyCommittedEntries_returns hidx ha.ge (hlast ▸ hi')
  refine ⟨core'', results, happly, ?_⟩
  obtain ⟨es, hlen, hes, -, hcore''⟩ := applyCommittedEntries_ok happly
  have hsm : core''.stateMachine =
      foldCommands core'.stateMachine (es.map LogEntry.command) := by
    obtain ⟨s, j, t, l, heq⟩ := autoSnapshot_eq { core' with
      commitIndex := i
      lastApplied := max core'.lastApplied i
      stateMachine := foldCommands core'.stateMachine (es.map LogEntry.command) }
    rw [hcore'', heq]
  have hfilter : (core.log.filter fun e => core'.snapshotLastIndex < e.index ∧ e.index ≤ i) =
      es := by
    simp only [ha] at hlen hes
    refine hc.filter_between hle hlen fun k hk => ?_
    rw [← hentries _ (by omega)]
    exact hes k hk
  rw [hsm, hfilter]

/-- **A snapshot, and the log above it, are enough.** -/
theorem recoversFrom_of_holds [LawfulSnapshotable μ] (hc : core.Contiguous) {s : σ}
    {c : StorageContents} (hholds : Holds s c) (hdata : ∀ x ∈ c.snapshot, IsSnapshot μ x.data)
    (hle : core.snapshotLastIndex ≤ (snapshotBoundary c.snapshot).1)
    (hlog : c.log = core.log.filter fun e => e.index > (snapshotBoundary c.snapshot).1) :
    core.RecoversFrom s := by
  intro m
  obtain ⟨core', hnew, hl, hs, -, ha⟩ := new_of_holds core.id core.peers hholds hdata m
  refine ⟨core', hnew, recovers_of_log hc (hs ▸ hle) ?_ ha⟩
  rw [hl, hlog, hs]

/-- A newer snapshot with entries of the old log: the first of them is at the wrong place. -/
theorem not_recoversFrom_of_holds [LawfulSnapshotable μ] (hc : core.Contiguous) {s : σ}
    {c : StorageContents} (m : μ) (hholds : Holds s c)
    (hdata : ∀ x ∈ c.snapshot, IsSnapshot μ x.data)
    (hlt : core.snapshotLastIndex < (snapshotBoundary c.snapshot).1)
    (hlog : c.log = core.log) (hne : core.log ≠ []) : ¬ core.RecoversFrom s := by
  intro h
  obtain ⟨core', hnew, hl, hs, -, -⟩ := new_of_holds core.id core.peers hholds hdata m
  obtain ⟨core'', hnew', hrec⟩ := h m
  obtain rfl : core' = core'' := Except.ok.inj (hnew.symm.trans hnew')
  obtain ⟨e, l, hcons⟩ := List.exists_cons_of_ne_nil hne
  have hfirst : core.log[0]? = some e := by rw [hcons]; rfl
  have hold := hc 0 e hfirst
  have hnow := hrec.contiguous 0 e (by rw [hl, hlog, hfirst])
  omega

end Recovery

/-! ### The moments of a compaction -/

section Moments

variable [Storage σ] [Snapshotable μ] [LawfulStorage σ]

/-- The number of saves before the snapshot is on disk, that one included: a newer term is saved
first, and the vote is cleared. -/
def savedMoment (core : RaftCore σ μ) : Op → ℕ
  | .installSnapshot args => if args.term > core.currentTerm then 3 else 1
  | _ => 1

/-- Up to the `n`-th moment the storage holds the old log and the old snapshot.  Then nothing more
happens, or a newer snapshot is saved, and after it the log is compacted. -/
def CompactsAfter (core : RaftCore σ μ) (snapshot : Option Snapshot) (n : ℕ) (l : List σ) : Prop :=
  ∃ before after, l = before ++ after ∧ before.length = n ∧
    (∀ s ∈ before, ∃ c, Holds s c ∧ c.log = core.log ∧ c.snapshot = snapshot) ∧
    (after = [] ∨ ∃ s₁ s₂ c x, after = [s₁, s₂] ∧
      core.snapshotLastIndex < x.metadata.lastIncludedIndex ∧ IsSnapshot μ x.data ∧
      c.log = core.log ∧ c.snapshot = some x ∧ Holds s₁ c ∧
      Holds s₂ (c.compactLog (x.metadata.lastIncludedIndex + 1)))

/-- The two writes of a compaction. -/
theorem CompactsAfter.of_saves {snapshot : Option Snapshot} {before : List σ}
    {s : σ} {c : StorageContents} {x : Snapshot} (hholds : Holds s c) (hlog : c.log = core.log)
    (hbefore : ∀ s ∈ before, ∃ c, Holds s c ∧ c.log = core.log ∧ c.snapshot = snapshot)
    (hlt : core.snapshotLastIndex < x.metadata.lastIncludedIndex) (hx : IsSnapshot μ x.data) :
    core.CompactsAfter snapshot before.length (before ++ [(Storage.saveSnapshot s x).2,
      (Storage.compactLog (Storage.saveSnapshot s x).2 (x.metadata.lastIncludedIndex + 1)).2]) :=
  ⟨before, _, rfl, rfl, hbefore, Or.inr ⟨_, _, { c with snapshot := some x }, x, rfl, hlt, hx, hlog,
    rfl, LawfulStorage.saveSnapshot x hholds,
    LawfulStorage.compactLog _ (LawfulStorage.saveSnapshot x hholds)⟩⟩

theorem takeSnapshot_moments {c : StorageContents} (hholds : Holds core.storage c)
    (hlog : c.log = core.log) :
    core.CompactsAfter c.snapshot (core.savedMoment .takeSnapshot) (core.moments .takeSnapshot) := by
  have hbefore : ∀ s ∈ [core.storage], ∃ c', Holds s c' ∧ c'.log = core.log ∧
      c'.snapshot = c.snapshot := by
    intro s hs
    rw [List.mem_singleton.1 hs]
    exact ⟨c, hholds, hlog, rfl⟩
  have hmoments : core.moments .takeSnapshot = core.journaled.takeSnapshot.1.storage.past := rfl
  rcases takeSnapshot_cases core.journaled with heq | ⟨entry, data, hlt, he, hdata, heq⟩
  · rw [hmoments, heq]
    exact ⟨[core.storage], [], rfl, rfl, hbefore, Or.inl rfl⟩
  · rw [hmoments, heq]
    exact CompactsAfter.of_saves (x := ⟨⟨core.lastApplied, entry.term⟩, data⟩) hholds hlog hbefore
      hlt ⟨core.stateMachine, hdata⟩

omit [Snapshotable μ] in
/-- Observing a newer term writes the term, then the vote. -/
theorem observeTerm_moments {c : StorageContents} (hholds : Holds core.storage c) {term : ℕ}
    {core₁ : RaftCore (Journal σ) μ} (h : core.journaled.observeTerm term = .ok core₁) :
    core₁.storage.past.length = (if term > core.currentTerm then 3 else 1) ∧
      (∃ c', Holds core₁.storage.current c' ∧ c'.log = c.log ∧ c'.snapshot = c.snapshot) ∧
      ∀ s ∈ core₁.storage.past, ∃ c', Holds s c' ∧ c'.log = c.log ∧ c'.snapshot = c.snapshot := by
  unfold observeTerm at h
  split at h
  · rename_i hlt
    simp only [updateTerm, Except.bind_eq_ok, setTerm_ok, setVotedFor_ok, Except.pure_eq_ok] at h
    obtain ⟨_, ⟨_, ⟨-, rfl⟩, -, rfl⟩, rfl⟩ := h
    have h₁ := LawfulStorage.saveTerm term hholds
    have h₂ := LawfulStorage.saveVotedFor none h₁
    refine ⟨(if_pos hlt).symm, ⟨_, h₂, rfl, rfl⟩, ?_⟩
    intro s hs
    replace hs : s ∈ [core.storage, (Storage.saveTerm core.storage term).2,
      (Storage.saveVotedFor (Storage.saveTerm core.storage term).2 none).2] := hs
    simp only [List.mem_cons, List.not_mem_nil, or_false] at hs
    rcases hs with rfl | rfl | rfl
    · exact ⟨_, hholds, rfl, rfl⟩
    · exact ⟨_, h₁, rfl, rfl⟩
    · exact ⟨_, h₂, rfl, rfl⟩
  · rename_i hle
    obtain rfl := Except.ok.inj h
    refine ⟨(if_neg hle).symm, ⟨_, hholds, rfl, rfl⟩, ?_⟩
    intro s hs
    obtain rfl : s = core.storage := List.mem_singleton.1 hs
    exact ⟨_, hholds, rfl, rfl⟩

omit [LawfulStorage σ] in
/-- With a snapshot that can be restored the call returns. -/
theorem handleInstallSnapshot_returns [InfallibleStorage σ] [LawfulSnapshotable μ]
    (core : RaftCore σ μ) {args : InstallSnapshotArgs} (hdata : IsSnapshot μ args.data) :
    ∃ r, core.handleInstallSnapshot args = .ok r := by
  obtain ⟨m, hm⟩ := hdata
  unfold handleInstallSnapshot
  split
  · exact ⟨_, rfl⟩
  · refine Except.exists_bind_ok (observeTerm_returns _ _) fun core₁ _ => ?_
    simp only
    split
    · exact ⟨_, rfl⟩
    · split
      · exact ⟨_, rfl⟩
      · exact Except.exists_bind_ok
          ⟨m, expectRestore_ok.2 (LawfulSnapshotable.restore_snapshot _ hm)⟩ fun _ _ => ⟨_, rfl⟩

theorem installSnapshot_moments [LawfulSnapshotable μ] {c : StorageContents}
    (hholds : Holds core.storage c) (hlog : c.log = core.log) {args : InstallSnapshotArgs}
    (hdata : IsSnapshot μ args.data) :
    core.CompactsAfter c.snapshot (core.savedMoment (.installSnapshot args))
      (core.moments (.installSnapshot args)) := by
  obtain ⟨⟨core', result⟩, hi⟩ := handleInstallSnapshot_returns core.journaled hdata
  have hrun : (Op.installSnapshot args).run core.journaled =
      .ok (core', some (.installSnapshot result)) := by
    simp only [Op.run, hi]
    rfl
  have hmoments : core.moments (.installSnapshot args) = core'.storage.past := by
    have hbegin : Life.begin ⟨core.journaled, []⟩ = core.journaled := rfl
    simp only [moments, Life.moments, hbegin, hrun]
  have start : ∀ s ∈ [core.storage], ∃ c', Holds s c' ∧ c'.log = core.log ∧
      c'.snapshot = c.snapshot := by
    intro s hs
    rw [List.mem_singleton.1 hs]
    exact ⟨c, hholds, hlog, rfl⟩
  rw [hmoments]
  rcases handleInstallSnapshot_ok hi with ⟨hstale, rfl, -⟩ | ⟨core₁, core₂, h₁, hterm, h₂, hor⟩
  · refine ⟨[core.storage], [], rfl, ?_, start, Or.inl rfl⟩
    have hle : ¬ args.term > core.currentTerm := Nat.not_lt.2 (Nat.le_of_lt hstale)
    simp only [savedMoment, if_neg hle, List.length_singleton]
  · obtain ⟨hlen, ⟨c', hholds', hlog', -⟩, hpast⟩ := observeTerm_moments hholds h₁
    have hst : core₂.storage = core₁.storage := by rw [h₂]
    have hs : core₂.snapshotLastIndex = core.snapshotLastIndex := by
      rw [h₂]
      exact (observeTerm_log h₁).2.1
    simp only [hlog] at hpast
    rcases hor with ⟨s, reason, rfl, -, rfl | ⟨hsave, -⟩⟩ | ⟨hlt, s, m, hsave, -, rfl, -⟩
    · exact ⟨core₁.storage.past, [], by rw [List.append_nil, ← hst], hlen, hpast, Or.inl rfl⟩
    · exact absurd (InfallibleStorage.saveSnapshot_ok _ _) hsave
    · obtain rfl : (Storage.saveSnapshot core₂.storage
          ⟨⟨args.lastIncludedIndex, args.lastIncludedTerm⟩, args.data⟩).2 = s := by rw [hsave]
      have hsaves : core.CompactsAfter c.snapshot core₁.storage.past.length _ :=
        CompactsAfter.of_saves (x := ⟨⟨args.lastIncludedIndex, args.lastIncludedTerm⟩, args.data⟩)
          hholds' (hlog'.trans hlog) hpast (hs ▸ hlt) hdata
      rw [hlen] at hsaves
      show core.CompactsAfter c.snapshot _ (core₂.storage.past ++ [_] ++ [_])
      rw [List.append_assoc, hst]
      exact hsaves

/-- A node whose compaction is cut short comes back with the log it had, above the snapshot it finds,
unless the crash comes after the snapshot is saved and before the log is compacted, while there are
entries in the log. -/
theorem recoversFrom_iff [LawfulSnapshotable μ] {c : StorageContents} (hc : core.Contiguous)
    (hholds : Holds core.storage c) (hlog : c.log = core.log)
    (hboundary : snapshotBoundary c.snapshot = (core.snapshotLastIndex, core.snapshotLastTerm))
    (hdata : ∀ x ∈ c.snapshot, IsSnapshot μ x.data) {op : Op}
    (hop : op = .takeSnapshot ∨ ∃ args, op = .installSnapshot args ∧ IsSnapshot μ args.data)
    {k : ℕ} {s : σ} (hk : (core.moments op)[k]? = some s) :
    core.RecoversFrom s ↔ (k ≠ core.savedMoment op ∨ core.log = []) := by
  obtain ⟨before, after, heq, hlen, hbefore, hafter⟩ :
      core.CompactsAfter c.snapshot (core.savedMoment op) (core.moments op) := by
    rcases hop with rfl | ⟨args, rfl, hargs⟩
    · exact takeSnapshot_moments hholds hlog
    · exact installSnapshot_moments hholds hlog hargs
  rw [heq] at hk
  -- what is left of the log when the snapshot that is found ends at `n`
  have above {n : ℕ} (hn : n = core.snapshotLastIndex ∨ core.log = []) :
      core.log = core.log.filter fun e => e.index > n := by
    rcases hn with rfl | hnil
    · have hcont : Indexed core.snapshotLastIndex core.log := hc
      rw [hcont.filter_gt, Nat.sub_self, List.drop_zero]
    · simp [hnil]
  rcases Nat.lt_or_ge k before.length with hlt | hge
  · -- before the snapshot is saved
    rw [List.getElem?_append_left hlt] at hk
    obtain ⟨c', hholds', hlog', hsnap'⟩ := hbefore s (List.mem_of_getElem? hk)
    have hfst : (snapshotBoundary c'.snapshot).1 = core.snapshotLastIndex := by
      rw [hsnap', hboundary]
    refine iff_of_true ?_ (Or.inl (by omega))
    exact recoversFrom_of_holds hc hholds' (hsnap' ▸ hdata) hfst.ge
      (hlog'.trans (above (Or.inl hfst)))
  · rw [List.getElem?_append_right hge] at hk
    rcases hafter with rfl | ⟨s₁, s₂, c', x, rfl, hlt, hx, hlog', hsnap', h₁, h₂⟩
    · simp at hk
    have hdata' : ∀ y ∈ c'.snapshot, IsSnapshot μ y.data := by
      rintro y hy
      rw [hsnap', Option.mem_some_iff] at hy
      exact hy ▸ hx
    have hfst : (snapshotBoundary c'.snapshot).1 = x.metadata.lastIncludedIndex := by
      rw [hsnap']
      rfl
    obtain ⟨j, hj⟩ : ∃ j, k - before.length = j := ⟨_, rfl⟩
    rw [hj] at hk
    cases j with
    | zero =>
        -- between the two writes
        obtain rfl : s₁ = s := by simpa using hk
        have hkeq : k = core.savedMoment op := by omega
        constructor
        · intro hrec
          by_contra hne
          obtain ⟨-, hne⟩ := not_or.1 hne
          exact not_recoversFrom_of_holds hc core.stateMachine h₁ hdata' (hfst ▸ hlt) hlog' hne hrec
        · rintro (hne | hnil)
          · exact absurd hkeq hne
          · exact recoversFrom_of_holds hc h₁ hdata' (hfst ▸ hlt.le)
              (hlog'.trans (above (Or.inr hnil)))
    | succ j =>
        cases j with
        | succ j => simp at hk
        | zero =>
            obtain rfl : s₂ = s := by simpa using hk
            refine iff_of_true ?_ (Or.inl (by omega))
            refine recoversFrom_of_holds hc h₂ hdata' (hfst ▸ hlt.le) ?_
            simp only [StorageContents.compactLog, hlog', hfst, gt_iff_lt, Nat.succ_le_iff]

/-- **Exactly when a crash does no harm.**  A call of `take_snapshot` or `handle_install_snapshot` is
cut short at one of the moments of the storage.  The node comes back with the log it had, above the
snapshot it finds, unless the crash comes after the snapshot is saved and before the log is
compacted, while there are entries in the log. -/
theorem crash_recovers_iff [LawfulSnapshotable μ] {c : StorageContents} (hc : core.Contiguous)
    (hholds : Holds core.storage c) (hlog : c.log = core.log)
    (hboundary : snapshotBoundary c.snapshot = (core.snapshotLastIndex, core.snapshotLastTerm))
    (hdata : ∀ x ∈ c.snapshot, IsSnapshot μ x.data) {op : Op}
    (hop : op = .takeSnapshot ∨ ∃ args, op = .installSnapshot args ∧ IsSnapshot μ args.data)
    (hfits : op.Fits core) {k : ℕ} {s : σ} (hk : (core.moments op)[k]? = some s) :
    (core.RecoversFrom s ↔ (k ≠ core.savedMoment op ∨ core.log = [])) ∧
      ∀ core', op.step core = some core' → core'.Within u64Max := by
  exact ⟨recoversFrom_iff hc hholds hlog hboundary hdata hop hk, fun core' => hfits.step_within⟩

/-- A node with three entries, the first two of them committed and applied. -/
def beforeCompaction : RaftCore StorageContents Recorder :=
  { RaftCore.fresh 1 [2, 3]
      ⟨1, none, [⟨1, 1, noopCommand⟩, ⟨1, 2, "SET x 1"⟩, ⟨1, 3, "SET x 2"⟩], none⟩
      (foldCommands Recorder.new [noopCommand, "SET x 1"]) with
    currentTerm := 1
    log := [⟨1, 1, noopCommand⟩, ⟨1, 2, "SET x 1"⟩, ⟨1, 3, "SET x 2"⟩]
    commitIndex := 2
    lastApplied := 2 }

theorem beforeCompaction_contiguous : beforeCompaction.Contiguous :=
  show Indexed 0 beforeCompaction.log by decide

/-- What the storage holds once the compaction of this node is complete. -/
def afterCompaction : StorageContents :=
  ⟨1, none, [⟨1, 3, "SET x 2"⟩],
    some ⟨⟨2, 1⟩, (foldCommands Recorder.new [noopCommand, "SET x 1"]).bytes⟩⟩

/-- A crash after the compaction does no harm. -/
theorem crash_recovers_compacted : beforeCompaction.RecoversFrom afterCompaction := by
  have hk : (beforeCompaction.moments .takeSnapshot)[2]? = some afterCompaction := by decide
  exact (crash_recovers_iff beforeCompaction_contiguous (StorageContents.holds_iff.2 rfl) rfl rfl
    (by rintro x ⟨⟩) (Or.inl rfl) (by decide) hk).1.2 (Or.inl (by decide))

/-- **The log is shifted** after a crash between the two writes: at index 3 the node finds the first
entry, and when it commits up to there it applies the first command again. -/
theorem crash_shifts_log : beforeCompaction.WellFormed ∧ beforeCompaction.Mirrored ∧
    ∃ (s : StorageContents) (core' core'' : RaftCore _ Recorder),
      (beforeCompaction.moments .takeSnapshot)[1]? = some s ∧
        RaftCore.new beforeCompaction.id beforeCompaction.peers s Recorder.new = .ok core' ∧
        beforeCompaction.getLogEntry 3 = some ⟨1, 3, "SET x 2"⟩ ∧
        core'.getLogEntry 3 = some ⟨1, 1, noopCommand⟩ ∧ ¬ beforeCompaction.Recovers core' ∧
        applyCommittedEntries { core' with commitIndex := 3 } = .ok (core'', [(3, .ok "")]) ∧
        core''.stateMachine = foldCommands Recorder.new [noopCommand, "SET x 1", noopCommand] := by
  obtain ⟨s, core', core'', hs, hnew, hget, hget', happly, hsm⟩ :
      ∃ (s : StorageContents) (core' core'' : RaftCore _ Recorder),
        (beforeCompaction.moments .takeSnapshot)[1]? = some s ∧
        RaftCore.new beforeCompaction.id beforeCompaction.peers s Recorder.new = .ok core' ∧
        beforeCompaction.getLogEntry 3 = some ⟨1, 3, "SET x 2"⟩ ∧
        core'.getLogEntry 3 = some ⟨1, 1, noopCommand⟩ ∧
        applyCommittedEntries { core' with commitIndex := 3 } = .ok (core'', [(3, .ok "")]) ∧
        core''.stateMachine = foldCommands Recorder.new [noopCommand, "SET x 1", noopCommand] :=
    ⟨_, _, _, rfl, rfl, rfl, rfl, rfl, rfl⟩
  refine ⟨⟨beforeCompaction_contiguous, by decide, by decide, by decide⟩, ⟨rfl, none, rfl, rfl⟩,
    s, core', core'', hs, hnew, hget, hget', fun hrec => ?_, happly, hsm⟩
  have hlt : core'.snapshotLastIndex < 3 := (getLogEntry_eq_some.1 hget').1
  rw [hrec.entries 3 hlt, hget] at hget'
  exact absurd hget' (by decide)

end Moments

end RaftCore

end RaftVibe
