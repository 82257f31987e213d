/-
**Nodes on files.**

The files and the documented contents answer alike, as long as the log file ends with its last line
and the numbers are `u64`s.  So a node on files does what a node on the contents does, and what holds
of every lawful storage holds of the files.

Main results:

* `RaftVibe.FileStorage.simulates` — **files in order simulate their contents**;
* `RaftVibe.FileStorage.run_mirrored` — **the files mirror the node**, if no call cuts by position;
* `RaftVibe.FileStorage.run_machine` — on files, too, the state machine is the fold of the history;
* `RaftVibe.FileStorage.crash_harmless_iff` — when a crash in a call leaves the files recoverable.
-/

import RaftVibe.CrashRecovery
import RaftVibe.FileFormats
import RaftVibe.StorageSimulation

set_option relaxedAutoImplicit false
set_option autoImplicit false

namespace RaftVibe

open Outcomes Runs

variable {formats : Formats}

theorem u64Max_lt_iff {n : ℕ} : n ≤ u64Max ↔ n < 2 ^ 64 := by
  rw [u64Max]
  omega

/-- A save of `u64`s is admissible. -/
theorem StorageCall.Savable.admissible (hf : formats.Lawful) {call : StorageCall}
    (h : call.Savable) : call.Admissible formats := by
  cases call with
  | saveTerm term => exact u64Max_lt_iff.1 h
  | saveVotedFor votedFor => exact fun id hid => u64Max_lt_iff.1 (h id hid)
  | appendLogEntries entries => exact fun e he => hf.entry e (h e he)
  | truncateLog fromIndex => trivial
  | compactLog beforeIndex => trivial
  | saveSnapshot snapshot => exact hf.snapshot snapshot h

namespace FileStorage

variable {s : FileStorage formats} {c : StorageContents}

/-- Every save on the contents succeeds. -/
theorem apply_contents (c : StorageContents) (call : StorageCall) : (call.apply c).1 = .ok () := by
  cases call <;> rfl

/-- The files are in order: they are those of contents whose numbers are `u64`s. -/
structure InOrder (s : FileStorage formats) (c : StorageContents) : Prop where
  represents : s.Represents c
  savable : c.Savable

theorem inOrder_new : (new : FileStorage formats).InOrder .empty :=
  ⟨represents_new, Nat.zero_le _, by simp [StorageContents.empty], by simp [StorageContents.empty]⟩

/-- **Files in order simulate their contents.** -/
theorem simulates (hf : formats.Lawful) :
    Simulates (InOrder : FileStorage formats → StorageContents → Prop) where
  holds h := ⟨_, h.savable, h.represents.holds, StorageContents.holds_iff.2 rfl⟩
  apply h hcall := by
    obtain ⟨hok, hrep⟩ := h.represents.apply (hcall.admissible hf)
    exact ⟨hok.trans (apply_contents _ _).symm, hrep, h.savable.apply hcall⟩

end FileStorage

namespace RaftCore

variable {μ : Type} {core : RaftCore (FileStorage formats) μ} {core' : RaftCore StorageContents μ}

/-- The files of a node mirror it if the contents do. -/
theorem Twin.mirrored (h : Twin FileStorage.InOrder core core')
    (hm : core'.Mirrored) : core.Mirrored := by
  cases h with | @intro c hc _ =>
  obtain ⟨hlog, snapshot, hsnap, hb⟩ := hm
  obtain ⟨-, -, hlog', hsnap'⟩ := hc.represents.holds
  exact ⟨hlog'.trans hlog, snapshot, hsnap'.trans hsnap, hb⟩

end RaftCore

namespace FileStorage

open RaftCore

variable {μ : Type} [Snapshotable μ] {s : FileStorage formats} {c : StorageContents}
  {core core' : RaftCore (FileStorage formats) μ}

/-- Files in order, at the end of a run without a cut by position. -/
theorem run_twin_synced (hf : formats.Lawful) {core₁ : RaftCore StorageContents μ}
    (h : Twin InOrder core core₁) (hsync : core₁.Synced)
    {ts : List (Transition (RaftCore (FileStorage formats) μ) Op)} (hr : Run Op.step core ts core')
    (hrange : ∀ t ∈ ts, t.action.Fits t.source ∧ t.action.Savable)
    (hcont : ∀ t ∈ ts, t.action.SendsContiguous)
    (hcut : ∀ t ∈ ts, ¬ t.action.CutsByPosition t.source) :
    ∃ core₁' : RaftCore StorageContents μ, Twin InOrder core' core₁' ∧ core₁'.Synced := by
  obtain ⟨ts', core₁', hr', h', hall⟩ := Op.exists_run_twin (simulates hf) h hr hrange
  refine ⟨core₁', h', Op.run_synced hsync hr' (forall_mem_of_alike hall ?_ hcont)
    (forall_mem_of_alike hall ?_ hcut)⟩
  · intro t _ t' halike hP
    rw [halike.action]
    exact hP
  · intro t _ t' halike hP
    rw [halike.action, halike.source.eq]
    exact hP

/-- **The files mirror the node** after every call of every sequence, started on any files in order
whose log continues their snapshot: as long as no request has the vector cut above a snapshot, and no
sum leaves the range, `load_log` returns the vector and `load_snapshot` the snapshot boundary, and a
restart gives them back. -/
theorem run_mirrored (hf : formats.Lawful) {id : ℕ} {peers : List ℕ} {m : μ}
    (hs : s.InOrder c) (hid : id ≤ u64Max) (hidx : Indexed (snapshotBoundary c.snapshot).1 c.log)
    (hnew : RaftCore.new id peers s m = .ok core)
    {ts : List (Transition (RaftCore (FileStorage formats) μ) Op)} (hr : Run Op.step core ts core')
    (hrange : ∀ t ∈ ts, t.action.Fits t.source ∧ t.action.Savable)
    (hcont : ∀ t ∈ ts, t.action.SendsContiguous)
    (hcut : ∀ t ∈ ts, ¬ t.action.CutsByPosition t.source) :
    ∀ t ∈ ts, t.target.Mirrored ∧
      ∀ (m' : μ) core'', RaftCore.new id peers t.target.storage m' = .ok core'' →
        core''.log = t.target.log ∧ core''.snapshotLastIndex = t.target.snapshotLastIndex ∧
          core''.snapshotLastTerm = t.target.snapshotLastTerm := by
  obtain ⟨core₁, hnew₁, htwin⟩ := (new_twin (simulates hf) hs hid peers m).exists_ok hnew
  have hsync : core₁.Synced := new_synced (StorageContents.holds_iff.2 rfl) hidx hnew₁
  intro t ht
  obtain ⟨us, vs, rfl, hus, hstep, -⟩ := hr.split ht
  have hmem : ∀ u ∈ us ++ [t], u ∈ us ++ t :: vs := by
    intro u hu
    rcases List.mem_append.1 hu with hu | hu
    · exact List.mem_append_left _ hu
    · exact List.mem_append_right _ (List.mem_singleton.1 hu ▸ List.mem_cons_self ..)
  obtain ⟨core₁', h', hsync'⟩ := run_twin_synced hf htwin hsync (hus.snoc _ hstep)
    (fun u hu => hrange u (hmem u hu)) (fun u hu => hcont u (hmem u hu))
    fun u hu => hcut u (hmem u hu)
  have hmirror := h'.mirrored hsync'.mirrored
  exact ⟨hmirror, fun m' core'' hnew' => hmirror.new_log hnew'⟩

/-- A node as it is loaded from an empty directory. -/
def emptyNode : RaftCore (FileStorage jsonFormats) Recorder := .fresh 1 [2, 3] new .new

theorem new_eq_emptyNode : RaftCore.new 1 [2, 3] new Recorder.new = .ok emptyNode := by
  have hnew : (new : FileStorage jsonFormats).Represents .empty := represents_new
  obtain ⟨hterm, hvote, hlog, hsnap⟩ := hnew.holds
  exact RaftCore.new_eq_fresh hterm hvote hlog hsnap

theorem savable_emptyReplica : Replica.emptyReplica.Savable :=
  ⟨by decide, ⟨by decide, by decide, by decide, by decide, by simp [Replica.emptyReplica, fresh]⟩,
    by simp [Replica.emptyReplica, fresh]⟩

/-- A run on the contents is one on files. -/
theorem exists_run_of_contents {ts : List (Transition (RaftCore StorageContents Recorder) Op)}
    {core : RaftCore StorageContents Recorder} (hr : Run Op.step Replica.emptyReplica ts core)
    (hrange : ∀ t ∈ ts, t.action.Fits t.source ∧ t.action.Savable) :
    ∃ ts' core', Run Op.step emptyNode ts' core' ∧ Twin (Function.swap InOrder) core core' ∧
      List.Forall₂ (Transition.Alike (Twin (Function.swap InOrder))) ts ts' :=
  Op.exists_run_twin (simulates jsonFormats_lawful).flip ⟨inOrder_new, savable_emptyReplica⟩ hr
    hrange

/-- A conflict that is cut off before the first snapshot leaves the mirror intact, and so does the
snapshot after it. -/
theorem run_mirrored_overwriting :
    ∃ (ts : List _) (core : RaftCore (FileStorage jsonFormats) Recorder),
    Run Op.step emptyNode ts core ∧ (∀ t ∈ ts, t.target.Mirrored) ∧ core.snapshotLastIndex = 2 ∧
      core.log.length = 3 := by
  obtain ⟨ts, core, hr, hP, hQ⟩ := exists_run Op.step Replica.emptyReplica
    [Op.eightEntries, Op.overwriteFifth 2, .takeSnapshot]
    (P := fun t => (t.action.Fits t.source ∧ t.action.Savable) ∧ t.action.SendsContiguous ∧
      ¬ t.action.CutsByPosition t.source)
    (Q := fun core => core.snapshotLastIndex = 2 ∧ core.log.length = 3) (by decide)
  obtain ⟨ts', core', hr', htwin, hall⟩ := exists_run_of_contents hr fun t ht => (hP t ht).1
  have hP' : ∀ t ∈ ts', (t.action.Fits t.source ∧ t.action.Savable) ∧
      t.action.SendsContiguous ∧ ¬ t.action.CutsByPosition t.source := by
    refine forall_mem_of_alike hall (fun t _ t' halike hPt => ?_) hP
    rw [halike.action]
    refine ⟨⟨hPt.1.1.twin halike.source, hPt.1.2⟩, hPt.2.1, ?_⟩
    rw [halike.source.eq]
    exact hPt.2.2
  have hmirror := run_mirrored jsonFormats_lawful inOrder_new (by decide) Indexed.nil new_eq_emptyNode
    hr' (fun t ht => (hP' t ht).1) (fun t ht => (hP' t ht).2.1)
    fun t ht => (hP' t ht).2.2
  refine ⟨ts', core', hr', fun t ht => (hmirror t ht).1, ?_⟩
  rw [htwin.eq]
  exact hQ

/-- **Memory and disk part** when the entry to overwrite lies above a snapshot: the log file keeps
the entries 3 and 4, the vector also 5 and 6. -/
theorem mirror_lost : RaftCore.new 1 [2, 3] new Recorder.new = .ok emptyNode ∧
    ∃ (ts : List _) (core : RaftCore (FileStorage jsonFormats) Recorder),
      Run Op.step emptyNode ts core ∧ (∀ t ∈ ts, t.action.SendsContiguous) ∧
        core.log.map LogEntry.index = [3, 4, 5, 6, 5] ∧
        (∃ log, Storage.loadLog core.storage = .ok log ∧ log.map LogEntry.index = [3, 4, 5]) ∧
        ¬ core.Mirrored := by
  obtain ⟨ts, core, hr, hP, hlog, hstored⟩ := exists_run Op.step Replica.emptyReplica
    [Op.eightEntries, .takeSnapshot, Op.overwriteFifth 2]
    (P := fun t => (t.action.Fits t.source ∧ t.action.Savable) ∧ t.action.SendsContiguous)
    (Q := fun core => core.log.map LogEntry.index = [3, 4, 5, 6, 5] ∧
      core.storage.log.map LogEntry.index = [3, 4, 5]) (by decide)
  obtain ⟨ts', core', hr', htwin, hall⟩ := exists_run_of_contents hr fun t ht => (hP t ht).1
  have hcont : ∀ t ∈ ts', t.action.SendsContiguous :=
    forall_mem_of_alike hall (fun t _ t' halike hPt => halike.action ▸ hPt) fun t ht => (hP t ht).2
  have hload : Storage.loadLog core'.storage = .ok core.storage.log :=
    htwin.storage.represents.holds.2.2.1
  have hlog' : core'.log.map LogEntry.index = [3, 4, 5, 6, 5] := by
    rw [htwin.eq]
    exact hlog
  refine ⟨new_eq_emptyNode, ts', core', hr', hcont, hlog', ⟨_, hload, hstored⟩, fun hmirror => ?_⟩
  have hsame : core.storage.log = core'.log := Except.ok.inj (hload.symm.trans hmirror.1)
  rw [hsame, hlog'] at hstored
  exact absurd hstored (by decide)

/-! ### Restarts -/

/-- A call that fits, or a restart. -/
def InRange (t : Transition (RaftCore (FileStorage formats) μ) ReplicaAction) : Prop :=
  ∀ op, t.action = .call op → op.Fits t.source ∧ op.Savable

theorem step_replica_twin (hf : formats.Lawful) {m₀ : μ}
    {core₁ : RaftCore StorageContents μ} (h : Twin InOrder core core₁) {action : ReplicaAction}
    (hrange : InRange ⟨core, action, core'⟩) (hs : Replica.step m₀ core action = some core') :
    ∃ core₁', Replica.step m₀ core₁ action = some core₁' ∧ Twin InOrder core' core₁' := by
  cases action with
  | call op => exact Op.step_twin (simulates hf) h (hrange op rfl).1 (hrange op rfl).2 hs
  | restart threshold =>
      simp only [Replica.step] at hs ⊢
      have hid : core₁.id = core.id := by rw [h.eq]; rfl
      have hpeers : core₁.peers = core.peers := by rw [h.eq]; rfl
      rw [hid, hpeers]
      have hloaded := new_twin (simulates hf) h.storage h.savable.id_le core.peers m₀
      split at hs
      · rename_i core₂ hnew
        obtain ⟨core₂', hnew', h₂⟩ := hloaded.exists_ok hnew
        obtain rfl := Option.some.inj hs
        rw [hnew']
        exact ⟨_, rfl, h₂.setSnapshotThreshold threshold⟩
      · cases hs

/-- **On files, too, the state machine is the fold of the applied history**: calls and restarts in any
order, from an empty directory, as long as the surroundings keep their promises, no step goes wrong
and no sum leaves the range. -/
theorem run_machine [LawfulSnapshotable μ] (hf : formats.Lawful) {m₀ : μ} {H : List String} {id : ℕ}
    {peers : List ℕ} (hid : id ≤ u64Max) (hnew : RaftCore.new id peers new m₀ = .ok core)
    {ts : List (Transition (RaftCore (FileStorage formats) μ) ReplicaAction)}
    (hr : Run (Replica.step m₀) core ts core') (hrange : ∀ t ∈ ts, InRange t)
    (hexp : ∀ t ∈ ts, Replica.Expected t.source t.action) (halong : ∀ t ∈ ts, Replica.Along m₀ H t)
    (hok : ∀ t ∈ ts, ¬ Replica.GoesWrong t.source t.action) :
    core'.stateMachine = foldCommands m₀ (H.take core'.lastApplied) ∧
      core'.lastApplied ≤ H.length := by
  obtain ⟨core₁, hnew₁, h⟩ := (new_twin (simulates hf) inOrder_new hid peers m₀).exists_ok hnew
  obtain ⟨ts', core₁', hr', h', hall⟩ := hr.simulate (T := Twin InOrder) (P := InRange)
    (fun _ _ _ _ h hs hP => step_replica_twin hf h hP hs) h hrange
  have hexp' : ∀ t ∈ ts', Replica.Expected t.source t.action := by
    refine forall_mem_of_alike hall (fun t _ t' halike hP => ?_) hexp
    rw [halike.action, halike.source.eq]
    exact hP
  have halong' : ∀ t ∈ ts', Replica.Along m₀ H t := by
    refine forall_mem_of_alike hall (fun t _ t' halike hP => ?_) halong
    rw [Replica.Along, halike.action, halike.source.eq, halike.target.eq]
    exact hP
  have hok' : ∀ t ∈ ts', ¬ Replica.GoesWrong t.source t.action := by
    refine forall_mem_of_alike hall (fun t _ t' halike hP => ?_) hok
    rw [halike.action, halike.source.eq]
    exact hP
  have hfolded := Replica.run_agrees_folded (StorageContents.holds_iff.2 rfl) hnew₁ hr' hexp' halong'
    hok'
  rw [h'.eq] at hfolded
  exact ⟨hfolded.stateMachine, hfolded.within⟩

end FileStorage

/-! ### Crashes -/

section Crashes

variable {σ τ μ : Type} [Storage σ] [Storage τ] {R : σ → τ → Prop}

/-- Journals of related states. -/
structure Journal.Alike (R : σ → τ → Prop) (j : Journal σ) (j' : Journal τ) : Prop where
  current : R j.current j'.current
  past : List.Forall₂ R j.past j'.past

omit [Storage σ] [Storage τ] in
theorem Journal.Alike.note {j : Journal σ} {j' : Journal τ} (h : j.Alike R j') {r : SaveResult σ}
    {r' : SaveResult τ} (hr : r.1 = r'.1 ∧ R r.2 r'.2) :
    (j.note r).1 = (j'.note r').1 ∧ (j.note r).2.Alike R (j'.note r').2 :=
  ⟨hr.1, hr.2, List.rel_append h.past (.cons hr.2 .nil)⟩

/-- Storages that keep a journal simulate each other if those without do. -/
theorem Simulates.journal (hR : Simulates R) : Simulates (Journal.Alike R) where
  holds h := hR.holds h.current
  apply {_ _ call} h hcall := by
    have hr := hR.apply h.current hcall
    cases call <;> exact h.note hr

namespace RaftCore

variable [Snapshotable μ] {core core₁ : RaftCore σ μ} {core' core₁' : RaftCore τ μ}

/-- **The storages of twins go through related states** during a call. -/
theorem Twin.moments (hR : Simulates R) (h : Twin R core core') {op : Op} (hfits : op.Fits core)
    (hop : op.Savable) : List.Forall₂ R (core.moments op) (core'.moments op) := by
  cases h with | @intro t hst hsav =>
  have hstart : Twin (Journal.Alike R) core.journaled (core.onStorage t).journaled :=
    ⟨⟨hst, .cons hst .nil⟩, hsav.congr rfl rfl rfl rfl rfl rfl⟩
  have hfits' : op.Fits core.journaled := by
    obtain ⟨⟨hterm, hs, ha, hc, hl⟩, hop⟩ := hfits
    exact ⟨⟨hterm, hs, ha, hc, hl⟩, hop⟩
  have hrun := Op.run_twin hR.journal hstart hfits' hop
  unfold RaftCore.moments Life.moments
  change Related _ _ (op.run (Life.begin ⟨core.journaled, []⟩))
    (op.run (Life.begin ⟨(core.onStorage t).journaled, []⟩)) at hrun
  refine hrun.elim (fun _ _ h => ?_) fun _ _ h => ?_
  · exact h.1.storage.past
  · exact h.2.past

/-- A twin of a node that comes back comes back, too. -/
theorem Recovers.twin (hR : Simulates R) (h : core.Recovers core₁) (htwin : Twin R core core')
    (htwin₁ : Twin R core₁ core₁') : core'.Recovers core₁' := by
  cases htwin with | @intro t hst hsav =>
  cases htwin₁ with | @intro t₁ hst₁ hsav₁ =>
  refine ⟨h.contiguous, h.entries, fun i hi hle => ?_⟩
  obtain ⟨core₂, results, happly, hmachine⟩ := h.recommits i hi hle
  have hcommitted : Twin R { core₁ with commitIndex := i }
      (onStorage { core₁ with commitIndex := i } t₁) := by
    obtain ⟨hid, hw, hlog⟩ := hsav₁
    have hi_le : i ≤ u64Max := hle.trans (max_le hw.snapshot_le hsav.within.lastLogIndex_le)
    exact ⟨hst₁, hid, ⟨hw.term_le, hw.snapshot_le, hw.applied_le, hi_le, hw.log_le⟩, hlog⟩
  obtain ⟨⟨core₂', _⟩, happly', h₂, rfl⟩ :=
    (applyCommittedEntries_twin hR hcommitted).exists_ok happly
  refine ⟨core₂', _, happly', ?_⟩
  have hsame : core₂' = core₂.onStorage core₂'.storage := h₂.eq
  rw [hsame]
  exact hmachine

/-- If a node recovers from a storage, its twin recovers from a related one. -/
theorem RecoversFrom.twin (hR : Simulates R) (htwin : Twin R core core') {s : σ} {t : τ}
    (hst : R s t) (h : core.RecoversFrom s) : core'.RecoversFrom t := by
  intro m
  obtain ⟨core₁, hnew, hrec⟩ := h m
  obtain ⟨core₁', hnew', htwin₁⟩ :=
    (new_twin hR hst htwin.savable.id_le core.peers m).exists_ok hnew
  have hid : core'.id = core.id := by rw [htwin.eq]; rfl
  have hpeers : core'.peers = core.peers := by rw [htwin.eq]; rfl
  exact ⟨core₁', by rw [hid, hpeers, hnew'], hrec.twin hR htwin htwin₁⟩

omit [Storage σ] [Storage τ] [Snapshotable μ] in
/-- Twins are twins of each other. -/
theorem Twin.flip (h : Twin R core core') : Twin (Function.swap R) core' core := by
  cases h with | @intro t hst hsav =>
  exact ⟨hst, hsav.congr rfl rfl rfl rfl rfl rfl⟩

end RaftCore

end Crashes

/-- **On files, too, exactly the crashes between the two writes of a compaction do harm**, if there
are entries in the log. -/
theorem FileStorage.crash_harmless_iff {μ : Type} [Snapshotable μ] [LawfulSnapshotable μ]
    {core : RaftCore (FileStorage formats) μ} {c : StorageContents} (hf : formats.Lawful)
    (hfiles : core.storage.InOrder c) (hsav : core.Savable) (hcont : core.Contiguous)
    (hlog : c.log = core.log)
    (hboundary : snapshotBoundary c.snapshot = (core.snapshotLastIndex, core.snapshotLastTerm))
    (hdata : ∀ x ∈ c.snapshot, RaftCore.IsSnapshot μ x.data) {op : Op}
    (hop : op = .takeSnapshot ∨ ∃ args, op = .installSnapshot args ∧ RaftCore.IsSnapshot μ args.data)
    (hrange : op.Fits core ∧ op.Savable) {k : ℕ} {s : FileStorage formats}
    (hk : (core.moments op)[k]? = some s) :
    core.RecoversFrom s ↔ (k ≠ core.savedMoment op ∨ core.log = []) := by
  have hR := FileStorage.simulates hf
  have htwin : RaftCore.Twin FileStorage.InOrder core (core.onStorage c) := ⟨hfiles, hsav⟩
  obtain ⟨c', hk', hs⟩ : ∃ c', ((core.onStorage c).moments op)[k]? = some c' ∧ s.InOrder c' := by
    obtain ⟨hlen, hget⟩ := List.forall₂_iff_get.1 (htwin.moments hR hrange.1 hrange.2)
    obtain ⟨hlt, rfl⟩ := List.getElem?_eq_some_iff.1 hk
    exact ⟨_, List.getElem?_eq_getElem (hlen ▸ hlt), hget k hlt (hlen ▸ hlt)⟩
  have hcont' : (core.onStorage c).Contiguous := hcont
  have hiff := RaftCore.recoversFrom_iff hcont' (StorageContents.holds_iff.2 rfl) hlog hboundary hdata
    hop hk'
  exact Iff.trans ⟨fun h => h.twin hR htwin hs, fun h => h.twin hR.flip htwin.flip hs⟩ hiff

end RaftVibe
