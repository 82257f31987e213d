/-
**What each method of the core does.**

One lemma per method, in the form "if it returns, then …": the fields that change, the branch that
was taken, and a storage that only saves have touched.  Everything later rests on these lemmas and
does not unfold a method again.  Two loops get a closed form first: `applyEntries` is `takeOver` on
the vector, and `applyLoop` folds the commands it reads.

Main definitions:

* `RaftVibe.RaftCore.fresh` — a node that has just been booted for the first time;
* `RaftVibe.RaftCore.Contiguous` — the indices of the vector continue the snapshot's;
* `RaftVibe.RaftCore.PrevMatches` — the check on `prev_log_index` that leads to success;
* `RaftVibe.RaftCore.CommitsEntry` — the check that lets a leader commit an entry.

Main results:

* `RaftVibe.RaftCore.applyEntries_ok`, `applyLoop_ok` — the loops;
* `RaftVibe.RaftCore.autoSnapshot_eq` — what a compaction may change;
* `RaftVibe.RaftCore.handleRequestVote_ok`, `handleAppendEntries_ok`, `handleInstallSnapshot_ok`,
  `handleRequestVoteResult_ok`, `handleAppendEntriesResult_ok` — the handlers;
* `RaftVibe.RaftCore.handleAppendEntriesResult_of_leader` — the last of them, on a leader.
-/

import Mathlib.Data.List.Basic
import RaftVibe.RaftCore
import RaftVibe.TakeOver

set_option relaxedAutoImplicit false
set_option autoImplicit false

namespace RaftVibe

theorem Except.bind_eq_ok {ε α β : Type} {x : Except ε α} {f : α → Except ε β} {b : β} :
    (x >>= f) = .ok b ↔ ∃ a, x = .ok a ∧ f a = .ok b := by
  cases x <;> simp [bind, Except.bind]

/-- Two computations that return, one after the other, return. -/
theorem Except.exists_bind_ok {ε α β : Type} {x : Except ε α} {f : α → Except ε β}
    (hx : ∃ a, x = .ok a) (hf : ∀ a, x = .ok a → ∃ b, f a = .ok b) : ∃ b, (x >>= f) = .ok b := by
  obtain ⟨a, ha⟩ := hx
  obtain ⟨b, hb⟩ := hf a ha
  exact ⟨b, Except.bind_eq_ok.2 ⟨a, ha, hb⟩⟩

theorem Except.pure_eq_ok {ε α : Type} {a b : α} :
    (pure a : Except ε α) = .ok b ↔ a = b := by
  simp [pure, Except.pure]

/-- Looking up what was just inserted. -/
theorem IndexMap.getD_insert_self (m : IndexMap) (peer i default : ℕ) :
    IndexMap.getD (AList.insert peer i m) peer default = i := by
  rw [IndexMap.getD, AList.lookup_insert, Option.getD_some]

/-- The other peers keep theirs. -/
theorem IndexMap.getD_insert_ne {p peer : ℕ} (h : p ≠ peer) (m : IndexMap) (i default : ℕ) :
    IndexMap.getD (AList.insert peer i m) p default = m.getD p default := by
  rw [IndexMap.getD, AList.lookup_insert_ne h, IndexMap.getD]

/-- Inserting one value for every peer. -/
theorem IndexMap.lookup_foldl_insert (peers : List ℕ) (m : IndexMap) (v p : ℕ) :
    (peers.foldl (fun m peer => m.insert peer v) m).lookup p =
      if p ∈ peers then some v else m.lookup p := by
  induction peers generalizing m with
  | nil => simp
  | cons peer peers ih =>
      rw [List.foldl_cons, ih]
      by_cases hp : p = peer
      · subst hp
        simp
      · simp [hp, AList.lookup_insert_ne hp]

theorem IndexMap.getD_foldl_insert (peers : List ℕ) (m : IndexMap) (v p d : ℕ) :
    IndexMap.getD (peers.foldl (fun m peer => m.insert peer v) m) p d =
      if p ∈ peers then v else m.getD p d := by
  rw [IndexMap.getD, IndexMap.lookup_foldl_insert]
  split <;> rfl

namespace RaftCore

variable {σ μ : Type} {core core' : RaftCore σ μ}

/-- A node loaded from a storage that has never been written to. -/
def fresh (id : ℕ) (peers : List ℕ) (storage : σ) (stateMachine : μ) : RaftCore σ μ where
  storage
  stateMachine
  currentTerm := 0
  votedFor := none
  log := []
  snapshotLastIndex := 0
  snapshotLastTerm := 0
  commitIndex := 0
  lastApplied := 0
  nextIndex := ∅
  matchIndex := ∅
  id
  state := .follower
  peers
  votesReceived := []
  currentLeader := none
  snapshotThreshold := 1000

theorem new_eq_fresh [Storage σ] [Snapshotable μ] {id : ℕ} {peers : List ℕ} {storage : σ} {m : μ}
    (hterm : Storage.loadTerm storage = .ok 0) (hvote : Storage.loadVotedFor storage = .ok none)
    (hlog : Storage.loadLog storage = .ok []) (hsnap : Storage.loadSnapshot storage = .ok none) :
    RaftCore.new id peers storage m = .ok (fresh id peers storage m) := by
  simp only [RaftCore.new, hterm, hvote, hlog, hsnap]
  rfl

/-! ### Reading the log -/

/-- The indices of the vector continue the snapshot's. -/
def Contiguous (core : RaftCore σ μ) : Prop := Indexed core.snapshotLastIndex core.log

theorem lastLogIndex_of_nil (h : core.log = []) : core.lastLogIndex = core.snapshotLastIndex := by
  simp [lastLogIndex, h]

/-- The last index of a contiguous log. -/
theorem Contiguous.lastLogIndex (h : core.Contiguous) :
    core.lastLogIndex = core.snapshotLastIndex + core.log.length := by
  rcases List.eq_nil_or_concat' core.log with hnil | ⟨l, e, hl⟩
  · simp [RaftCore.lastLogIndex, hnil]
  · have he : core.log[l.length]? = some e := by simp [hl]
    have := h _ _ he
    simp only [RaftCore.lastLogIndex, hl, List.getLast?_append, List.getLast?_singleton,
      Option.some_or, List.length_append, List.length_singleton]
    omega

theorem getLogEntry_eq_some {i : ℕ} {e : LogEntry} : core.getLogEntry i = some e ↔
    core.snapshotLastIndex < i ∧ core.log[i - core.snapshotLastIndex - 1]? = some e := by
  unfold getLogEntry
  split
  · simp only [reduceCtorEq, false_iff, not_and]
    omega
  · simp only [iff_and_self]
    intro
    omega

/-- In a contiguous log the entry found at an index carries that index. -/
theorem Contiguous.getLogEntry_index (h : core.Contiguous) {i : ℕ} {e : LogEntry}
    (he : core.getLogEntry i = some e) : e.index = i := by
  obtain ⟨hlt, he⟩ := getLogEntry_eq_some.1 he
  have := h _ _ he
  omega

/-- In a contiguous log every index above the snapshot and up to the last one has an entry. -/
theorem Contiguous.exists_getLogEntry (h : core.Contiguous) {i : ℕ}
    (hlt : core.snapshotLastIndex < i) (hle : i ≤ core.lastLogIndex) :
    ∃ e, core.getLogEntry i = some e := by
  rw [h.lastLogIndex] at hle
  have hpos : i - core.snapshotLastIndex - 1 < core.log.length := by omega
  exact ⟨_, getLogEntry_eq_some.2 ⟨hlt, List.getElem?_eq_getElem hpos⟩⟩

/-- In a contiguous log an entry is only found up to the last index. -/
theorem Contiguous.le_lastLogIndex (h : core.Contiguous) {i : ℕ} {e : LogEntry}
    (he : core.getLogEntry i = some e) : i ≤ core.lastLogIndex := by
  obtain ⟨hlt, he⟩ := getLogEntry_eq_some.1 he
  have := (List.getElem?_eq_some_iff.1 he).1
  rw [h.lastLogIndex]
  omega

/-! ### Persistence helpers -/

theorem expectSave_ok {message : String} {r : SaveResult σ} {s : σ} :
    expectSave message r = .ok s ↔ r.1 = .ok () ∧ r.2 = s := by
  rcases r with ⟨_ | _, _⟩ <;> simp [expectSave]

theorem expectRestore_ok {storage : σ} {message : String} {r : Except String μ} {m : μ} :
    expectRestore storage message r = .ok m ↔ r = .ok m := by
  cases r <;> simp [expectRestore]

section Storing

variable [Storage σ]

theorem setTerm_ok {term : ℕ} : core.setTerm term = .ok core' ↔
    (Storage.saveTerm core.storage term).1 = .ok () ∧
      core' = { core with
        currentTerm := term
        storage := (Storage.saveTerm core.storage term).2 } := by
  simp only [setTerm, Except.bind_eq_ok, expectSave_ok, Except.pure_eq_ok]
  constructor
  · rintro ⟨s, ⟨h, rfl⟩, rfl⟩
    exact ⟨h, rfl⟩
  · rintro ⟨h, rfl⟩
    exact ⟨_, ⟨h, rfl⟩, rfl⟩

theorem setVotedFor_ok {votedFor : Option ℕ} : core.setVotedFor votedFor = .ok core' ↔
    (Storage.saveVotedFor core.storage votedFor).1 = .ok () ∧
      core' = { core with
        votedFor
        storage := (Storage.saveVotedFor core.storage votedFor).2 } := by
  simp only [setVotedFor, Except.bind_eq_ok, expectSave_ok, Except.pure_eq_ok]
  constructor
  · rintro ⟨s, ⟨h, rfl⟩, rfl⟩
    exact ⟨h, rfl⟩
  · rintro ⟨h, rfl⟩
    exact ⟨_, ⟨h, rfl⟩, rfl⟩

theorem persistLogEntry_ok {entry : LogEntry} : core.persistLogEntry entry = .ok core' ↔
    (Storage.appendLogEntries core.storage [entry]).1 = .ok () ∧
      core' = { core with
        log := core.log ++ [entry]
        storage := (Storage.appendLogEntries core.storage [entry]).2 } := by
  simp only [persistLogEntry, Except.bind_eq_ok, expectSave_ok, Except.pure_eq_ok]
  constructor
  · rintro ⟨s, ⟨h, rfl⟩, rfl⟩
    exact ⟨h, rfl⟩
  · rintro ⟨h, rfl⟩
    exact ⟨_, ⟨h, rfl⟩, rfl⟩

/-- The vector is cut at the position `from_index - 1`; cutting beyond its end does nothing. -/
theorem persistTruncateLog_ok {fromIndex : ℕ} (h : core.persistTruncateLog fromIndex = .ok core') :
    ∃ s, Saved core.storage s ∧
      core' = { core with log := core.log.take (fromIndex - 1), storage := s } := by
  simp only [persistTruncateLog] at h
  split at h
  · simp only [Except.bind_eq_ok, expectSave_ok, Except.pure_eq_ok] at h
    obtain ⟨_, ⟨-, rfl⟩, rfl⟩ := h
    exact ⟨_, (Saved.refl _).truncateLog _, rfl⟩
  · rename_i hlen
    obtain rfl := Except.ok.inj h
    refine ⟨core.storage, Saved.refl _, ?_⟩
    rw [List.take_of_length_le (by omega)]

/-- **Observing a term**: a newer one is adopted, as a follower without a vote. -/
theorem observeTerm_ok {term : ℕ} (h : core.observeTerm term = .ok core') :
    (term ≤ core.currentTerm ∧ core' = core) ∨
    (core.currentTerm < term ∧ ∃ s, Saved core.storage s ∧
      core' = { core with
        currentTerm := term
        votedFor := none
        state := .follower
        storage := s }) := by
  unfold observeTerm at h
  split at h
  · rename_i hlt
    simp only [updateTerm, Except.bind_eq_ok, setTerm_ok, setVotedFor_ok, Except.pure_eq_ok] at h
    obtain ⟨_, ⟨_, ⟨-, rfl⟩, -, rfl⟩, rfl⟩ := h
    exact Or.inr ⟨hlt, _, ((Saved.refl _).saveTerm _).saveVotedFor _, rfl⟩
  · exact Or.inl ⟨by omega, (Except.ok.inj h).symm⟩

/-- A follower that observes a term keeps its vector. -/
theorem observeTerm_log {term : ℕ} (ho : core.observeTerm term = .ok core') :
    core'.log = core.log ∧ core'.snapshotLastIndex = core.snapshotLastIndex ∧
      core'.snapshotLastTerm = core.snapshotLastTerm ∧ core'.commitIndex = core.commitIndex := by
  rcases observeTerm_ok ho with ⟨-, rfl⟩ | ⟨-, s, -, rfl⟩ <;> exact ⟨rfl, rfl, rfl, rfl⟩

/-- After observing a term the node is in the later of the two. -/
theorem observeTerm_currentTerm {term : ℕ} (h : core.observeTerm term = .ok core') :
    core'.currentTerm = max core.currentTerm term := by
  rcases observeTerm_ok h with ⟨hle, rfl⟩ | ⟨hlt, s, -, rfl⟩
  · exact (max_eq_left hle).symm
  · exact (max_eq_right (Nat.le_of_lt hlt)).symm

/-- A node that is no follower after observing a term has observed nothing new. -/
theorem eq_of_observeTerm {term : ℕ} (h : core.observeTerm term = .ok core')
    (hs : core'.state ≠ .follower) : core' = core := by
  rcases observeTerm_ok h with ⟨-, rfl⟩ | ⟨-, s, -, rfl⟩
  · rfl
  · exact absurd rfl hs

/-- The entries of a request, taken over one by one. -/
theorem applyEntries_ok {entries : List LogEntry} (h : applyEntries entries core = .ok core') :
    ∃ s, Saved core.storage s ∧
      core' = { core with
        log := takeOver core.snapshotLastIndex core.log entries
        storage := s } := by
  induction entries generalizing core with
  | nil =>
      obtain rfl := Except.ok.inj h
      exact ⟨_, Saved.refl _, rfl⟩
  | cons entry rest ih =>
      rw [applyEntries] at h
      split at h
      · rename_i hle
        obtain ⟨s, hs, rfl⟩ := ih h
        exact ⟨s, hs, by simp only [takeOver, if_pos hle]⟩
      · rename_i hle
        simp only at h
        split at h
        · rename_i existing hx
          split at h
          · rename_i hne
            simp only [Except.bind_eq_ok, persistLogEntry_ok] at h
            obtain ⟨core₁, h₁, core₂, ⟨-, rfl⟩, h₂⟩ := h
            obtain ⟨s₁, hs₁, rfl⟩ := persistTruncateLog_ok h₁
            obtain ⟨s, hs, rfl⟩ := ih h₂
            refine ⟨s, (hs₁.appendLogEntries _).trans hs, ?_⟩
            simp only [takeOver, if_neg hle, hx, if_pos hne]
          · rename_i heq
            obtain ⟨s, hs, rfl⟩ := ih h
            exact ⟨s, hs, by simp only [takeOver, if_neg hle, hx, if_neg heq]⟩
        · rename_i hx
          simp only [Except.bind_eq_ok, persistLogEntry_ok] at h
          obtain ⟨core₁, ⟨-, rfl⟩, h₁⟩ := h
          obtain ⟨s, hs, rfl⟩ := ih h₁
          refine ⟨s, ((Saved.refl _).appendLogEntries _).trans hs, ?_⟩
          simp only [takeOver, if_neg hle, hx]

end Storing

/-! ### Applying and compacting -/

section Applying

variable [Snapshotable μ]

/-- The loop of `apply_committed_entries`: it finds an entry at each index it passes, and folds
their commands. -/
theorem applyLoop_ok {n : ℕ} {results results' : List (ℕ × ApplyResult)}
    (h : applyLoop n core results = .ok (core', results')) :
    ∃ es : List LogEntry, es.length = n ∧
      (∀ k < n, core.getLogEntry (core.lastApplied + 1 + k) = es[k]?) ∧
      results'.map Prod.fst = results.map Prod.fst ++ List.range' (core.lastApplied + 1) n ∧
      core' = { core with
        lastApplied := core.lastApplied + n
        stateMachine := foldCommands core.stateMachine (es.map LogEntry.command) } := by
  induction n generalizing core results with
  | zero =>
      simp only [applyLoop, Except.ok.injEq, Prod.mk.injEq] at h
      obtain ⟨rfl, rfl⟩ := h
      exact ⟨[], rfl, by simp, by simp, by simp⟩
  | succ n ih =>
      rw [applyLoop] at h
      simp only at h
      split at h
      · rename_i entry he
        obtain ⟨es, hlen, hes, hres, rfl⟩ := ih h
        refine ⟨entry :: es, by simp [hlen], ?_, ?_, ?_⟩
        · intro k hk
          cases k with
          | zero => exact he
          | succ k =>
              have := hes k (by omega)
              rw [List.getElem?_cons_succ, ← this]
              simp only [getLogEntry]
              congr 2 <;> omega
        · rw [hres, List.range'_succ]
          simp
        · simp only [List.map_cons, ← List.singleton_append (l := es.map _), foldCommands_append,
            foldCommands_singleton]
          congr 1
          omega
      · exact absurd h (by simp)

variable [Storage σ]

/-- **How `take_snapshot` ends.**  Its steps are tried in order, and the first one that fails ends
it: there is nothing new to cover or the state machine cannot be written, the snapshot cannot be
saved, the stored log cannot be compacted. -/
inductive SnapshotOutcome (core : RaftCore σ μ) : RaftCore σ μ × Except String Unit → Prop
  | refused (message : String) :
      core.lastApplied ≤ core.snapshotLastIndex ∨ core.getLogEntry core.lastApplied = none ∨
        (∃ e, Snapshotable.snapshot core.stateMachine = .error e) →
      SnapshotOutcome core (core, .error message)
  | notSaved (entry : LogEntry) (data : List UInt8) (e : StorageError) (s : σ) (message : String) :
      core.snapshotLastIndex < core.lastApplied →
      core.getLogEntry core.lastApplied = some entry →
      Snapshotable.snapshot core.stateMachine = .ok data →
      Storage.saveSnapshot core.storage ⟨⟨core.lastApplied, entry.term⟩, data⟩ = (.error e, s) →
      SnapshotOutcome core ({ core with storage := s }, .error message)
  | notCompacted (entry : LogEntry) (data : List UInt8) (s : σ) (e : StorageError) (s' : σ)
      (message : String) :
      core.snapshotLastIndex < core.lastApplied →
      core.getLogEntry core.lastApplied = some entry →
      Snapshotable.snapshot core.stateMachine = .ok data →
      Storage.saveSnapshot core.storage ⟨⟨core.lastApplied, entry.term⟩, data⟩ = (.ok (), s) →
      Storage.compactLog s (core.lastApplied + 1) = (.error e, s') →
      SnapshotOutcome core ({ core with
        storage := s'
        snapshotLastIndex := core.lastApplied
        snapshotLastTerm := entry.term }, .error message)
  | taken (entry : LogEntry) (data : List UInt8) (s s' : σ) :
      core.snapshotLastIndex < core.lastApplied →
      core.getLogEntry core.lastApplied = some entry →
      Snapshotable.snapshot core.stateMachine = .ok data →
      Storage.saveSnapshot core.storage ⟨⟨core.lastApplied, entry.term⟩, data⟩ = (.ok (), s) →
      Storage.compactLog s (core.lastApplied + 1) = (.ok (), s') →
      SnapshotOutcome core ({ core with
        storage := s'
        snapshotLastIndex := core.lastApplied
        snapshotLastTerm := entry.term
        log := core.log.filter fun e => e.index ≥ core.lastApplied + 1 }, .ok ())

theorem takeSnapshot_outcome (core : RaftCore σ μ) : core.SnapshotOutcome core.takeSnapshot := by
  unfold takeSnapshot
  split
  · exact .refused _ (Or.inl (by omega))
  · split
    · rename_i hle
      exact .refused _ (Or.inl hle)
    · rename_i hlt
      split
      · rename_i hnone
        exact .refused _ (Or.inr (Or.inl hnone))
      · rename_i entry he
        split
        · rename_i message hfail
          exact .refused _ (Or.inr (Or.inr ⟨message, hfail⟩))
        · rename_i data hdata
          simp only
          split
          · rename_i e s hsave
            exact .notSaved entry data e s _ (not_le.1 hlt) he hdata hsave
          · rename_i s hsave
            split
            · rename_i e s' hcompact
              exact .notCompacted entry data s e s' _ (not_le.1 hlt) he hdata hsave hcompact
            · rename_i s' hcompact
              exact .taken entry data s s' (not_le.1 hlt) he hdata hsave hcompact

/-- A snapshot only touches the storage, the snapshot boundary and the vector. -/
theorem takeSnapshot_eq (core : RaftCore σ μ) : ∃ s i t l, core.takeSnapshot.1 = { core with
    storage := s, snapshotLastIndex := i, snapshotLastTerm := t, log := l } := by
  have h := takeSnapshot_outcome core
  generalize core.takeSnapshot = r at h ⊢
  cases h <;> exact ⟨_, _, _, _, rfl⟩

theorem autoSnapshot_eq (core : RaftCore σ μ) : ∃ s i t l, core.autoSnapshot = { core with
    storage := s, snapshotLastIndex := i, snapshotLastTerm := t, log := l } := by
  simp only [autoSnapshot]
  split
  · split
    · exact takeSnapshot_eq core
    · exact ⟨_, _, _, _, rfl⟩
  · exact ⟨_, _, _, _, rfl⟩

/-- What a snapshot does to the two parts of the log; the vector stays as it is when its compaction
fails. -/
theorem takeSnapshot_log (core : RaftCore σ μ) :
    (core.takeSnapshot.1.snapshotLastIndex = core.snapshotLastIndex ∧
      core.takeSnapshot.1.log = core.log) ∨
    (core.snapshotLastIndex < core.lastApplied ∧
      (∃ entry, core.getLogEntry core.lastApplied = some entry) ∧
      core.takeSnapshot.1.snapshotLastIndex = core.lastApplied ∧
      (core.takeSnapshot.1.log = core.log ∨
        core.takeSnapshot.1.log = core.log.filter fun e => e.index > core.lastApplied)) := by
  have h := takeSnapshot_outcome core
  generalize core.takeSnapshot = r at h ⊢
  cases h with
  | refused => exact Or.inl ⟨rfl, rfl⟩
  | notSaved => exact Or.inl ⟨rfl, rfl⟩
  | notCompacted entry _ _ _ _ _ hlt he => exact Or.inr ⟨hlt, ⟨entry, he⟩, rfl, Or.inl rfl⟩
  | taken entry _ _ _ hlt he => exact Or.inr ⟨hlt, ⟨entry, he⟩, rfl, Or.inr rfl⟩

theorem autoSnapshot_log (core : RaftCore σ μ) :
    (core.autoSnapshot.snapshotLastIndex = core.snapshotLastIndex ∧
      core.autoSnapshot.log = core.log) ∨
    (core.snapshotLastIndex < core.lastApplied ∧
      (∃ entry, core.getLogEntry core.lastApplied = some entry) ∧
      core.autoSnapshot.snapshotLastIndex = core.lastApplied ∧
      (core.autoSnapshot.log = core.log ∨
        core.autoSnapshot.log = core.log.filter fun e => e.index > core.lastApplied)) := by
  simp only [autoSnapshot]
  split
  · split
    · exact takeSnapshot_log core
    · exact Or.inl ⟨rfl, rfl⟩
  · exact Or.inl ⟨rfl, rfl⟩

/-- With the threshold at `0` there are no automatic snapshots. -/
theorem autoSnapshot_of_threshold (h : core.snapshotThreshold = 0) : core.autoSnapshot = core := by
  simp [autoSnapshot, h]

/-- `core'` is `core` compacted up to `last_applied`. -/
def Compacted (core core' : RaftCore σ μ) : Prop :=
  ∃ entry data, core.snapshotLastIndex < core.lastApplied ∧
    core.getLogEntry core.lastApplied = some entry ∧
    Snapshotable.snapshot core.stateMachine = .ok data ∧
    core' = { core with
      storage := (Storage.compactLog (Storage.saveSnapshot core.storage
        ⟨⟨core.lastApplied, entry.term⟩, data⟩).2 (core.lastApplied + 1)).2
      snapshotLastIndex := core.lastApplied
      snapshotLastTerm := entry.term
      log := core.log.filter fun e => e.index ≥ core.lastApplied + 1 }

/-- When saves succeed, a snapshot compacts the log or leaves the core as it is. -/
theorem takeSnapshot_cases [InfallibleStorage σ] (core : RaftCore σ μ) :
    core.takeSnapshot.1 = core ∨ core.Compacted core.takeSnapshot.1 := by
  have h := takeSnapshot_outcome core
  generalize core.takeSnapshot = r at h ⊢
  cases h with
  | refused => exact Or.inl rfl
  | notSaved entry data _ _ _ _ _ _ hsave =>
      have := InfallibleStorage.saveSnapshot_ok core.storage ⟨⟨core.lastApplied, entry.term⟩, data⟩
      rw [hsave] at this
      cases this
  | notCompacted _ _ s _ _ _ _ _ _ _ hcompact =>
      have := InfallibleStorage.compactLog_ok s (core.lastApplied + 1)
      rw [hcompact] at this
      cases this
  | taken entry data _ _ hlt he hdata hsave hcompact =>
      refine Or.inr ⟨entry, data, hlt, he, hdata, ?_⟩
      rw [hsave, hcompact]

theorem autoSnapshot_cases [InfallibleStorage σ] (core : RaftCore σ μ) :
    core.autoSnapshot = core ∨ core.Compacted core.autoSnapshot := by
  simp only [autoSnapshot]
  split
  · split
    · exact takeSnapshot_cases core
    · exact Or.inl rfl
  · exact Or.inl rfl

/-- **Applying the committed entries**: the state machine moves on by the commands between
`last_applied` and `commit_index`, then the log may be compacted. -/
theorem applyCommittedEntries_ok {results : List (ℕ × ApplyResult)}
    (h : core.applyCommittedEntries = .ok (core', results)) :
    ∃ es : List LogEntry, es.length = core.commitIndex - core.lastApplied ∧
      (∀ k < es.length, core.getLogEntry (core.lastApplied + 1 + k) = es[k]?) ∧
      results.map Prod.fst =
        List.range' (core.lastApplied + 1) (core.commitIndex - core.lastApplied) ∧
      core' = autoSnapshot { core with
        lastApplied := max core.lastApplied core.commitIndex
        stateMachine := foldCommands core.stateMachine (es.map LogEntry.command) } := by
  simp only [applyCommittedEntries, Except.bind_eq_ok, Except.pure_eq_ok, Prod.mk.injEq,
    Prod.exists] at h
  obtain ⟨core₁, results', h, rfl, rfl⟩ := h
  obtain ⟨es, hlen, hes, hres, rfl⟩ := applyLoop_ok h
  refine ⟨es, hlen, by rwa [hlen], by simpa using hres, ?_⟩
  congr 2
  omega

/-- A compaction only drops entries. -/
theorem mem_log_of_autoSnapshot {x : LogEntry} (h : x ∈ core.autoSnapshot.log) : x ∈ core.log := by
  rcases core.autoSnapshot_log with ⟨-, hl⟩ | ⟨-, -, -, hl | hl⟩
  · rwa [hl] at h
  · rwa [hl] at h
  · rw [hl] at h
    exact (List.mem_filter.1 h).1

theorem mem_log_of_apply {x : LogEntry} {results : List (ℕ × ApplyResult)}
    (ha : core.applyCommittedEntries = .ok (core', results)) (h : x ∈ core'.log) : x ∈ core.log := by
  obtain ⟨es, -, -, -, rfl⟩ := applyCommittedEntries_ok ha
  have hmem : x ∈ { core with
    lastApplied := max core.lastApplied core.commitIndex
    stateMachine := foldCommands core.stateMachine (es.map LogEntry.command) }.log :=
    mem_log_of_autoSnapshot h
  exact hmem

/-- What applying and compacting may change. -/
theorem applyCommittedEntries_eq {results : List (ℕ × ApplyResult)}
    (h : core.applyCommittedEntries = .ok (core', results)) : ∃ s m i t l a, core' = { core with
      storage := s, stateMachine := m, snapshotLastIndex := i, snapshotLastTerm := t, log := l,
      lastApplied := a } := by
  obtain ⟨es, -, -, -, rfl⟩ := applyCommittedEntries_ok h
  obtain ⟨s, i, t, l, heq⟩ := autoSnapshot_eq { core with
    lastApplied := max core.lastApplied core.commitIndex
    stateMachine := foldCommands core.stateMachine (es.map LogEntry.command) }
  exact ⟨s, _, i, t, l, _, heq⟩

end Applying

/-! ### What a node does on its own -/

section Acting

variable [Storage σ]

theorem startElection_ok (h : core.startElection = .ok core') : ∃ s, Saved core.storage s ∧
    core' = { core with
      currentTerm := core.currentTerm + 1
      votedFor := some core.id
      state := .candidate
      currentLeader := none
      votesReceived := [core.id]
      storage := s } := by
  simp only [startElection, Except.bind_eq_ok, setTerm_ok, setVotedFor_ok,
    Except.pure_eq_ok] at h
  obtain ⟨_, ⟨-, rfl⟩, _, ⟨-, rfl⟩, rfl⟩ := h
  exact ⟨_, ((Saved.refl _).saveTerm _).saveVotedFor _, rfl⟩

/-- The no-op of a new leader. -/
def noopEntry (core : RaftCore σ μ) : LogEntry :=
  { term := core.currentTerm, index := core.lastLogIndex + 1, command := noopCommand }

theorem becomeLeader_ok (h : core.becomeLeader = .ok core') : ∃ s, Saved core.storage s ∧
    core' = { core with
      state := .leader
      currentLeader := some core.id
      nextIndex :=
        core.peers.foldl (fun m peer => m.insert peer (core.lastLogIndex + 1)) core.nextIndex
      matchIndex := core.peers.foldl (fun m peer => m.insert peer 0) core.matchIndex
      log := core.log ++ [core.noopEntry]
      storage := s } := by
  simp only [becomeLeader, persistLogEntry_ok] at h
  obtain ⟨-, rfl⟩ := h
  exact ⟨_, (Saved.refl _).appendLogEntries _, rfl⟩

/-- Only a leader appends, and it appends an entry of its term. -/
theorem appendLogEntry_ok {command : String} {entry : Option LogEntry}
    (h : core.appendLogEntry command = .ok (core', entry)) :
    (core.state ≠ .leader ∧ core' = core ∧ entry = none) ∨
    (core.state = .leader ∧ ∃ e s, Saved core.storage s ∧
      e = { term := core.currentTerm, index := core.lastLogIndex + 1, command } ∧
      entry = some e ∧ core' = { core with log := core.log ++ [e], storage := s }) := by
  unfold appendLogEntry at h
  split at h
  · rename_i hs
    simp only [Except.ok.injEq, Prod.mk.injEq] at h
    exact Or.inl ⟨hs, h.1.symm, h.2.symm⟩
  · rename_i hs
    simp only [Except.bind_eq_ok, persistLogEntry_ok, Except.pure_eq_ok, Prod.mk.injEq] at h
    obtain ⟨_, ⟨-, rfl⟩, rfl, rfl⟩ := h
    exact Or.inr ⟨by simpa using hs, _, _, (Saved.refl _).appendLogEntries _, rfl, rfl, rfl⟩

end Acting

/-! ### The RPC handlers -/

section Handlers

variable [Storage σ]

/-- **RequestVote**: a stale request is refused; otherwise the term is observed, and the vote is
granted if it is free and the candidate's log is up to date. -/
theorem handleRequestVote_ok {args : RequestVoteArgs} {result : RequestVoteResult}
    (h : core.handleRequestVote args = .ok (core', result)) :
    (args.term < core.currentTerm ∧ core' = core ∧ result = ⟨core.currentTerm, false⟩) ∨
    ∃ core₁, core.observeTerm args.term = .ok core₁ ∧ core₁.currentTerm = args.term ∧
      ((core' = core₁ ∧ result = ⟨args.term, false⟩) ∨
        ((core₁.votedFor = none ∨ core₁.votedFor = some args.candidateId) ∧
          core₁.isLogUpToDate args.lastLogTerm args.lastLogIndex = true ∧
          core₁.setVotedFor (some args.candidateId) = .ok core' ∧
          result = ⟨args.term, true⟩)) := by
  unfold handleRequestVote at h
  split at h
  · rename_i hlt
    simp only [Except.ok.injEq, Prod.mk.injEq] at h
    exact Or.inl ⟨hlt, h.1.symm, h.2.symm⟩
  · rename_i hle
    right
    rw [Except.bind_eq_ok] at h
    obtain ⟨core₁, h₁, h⟩ := h
    have hterm : core₁.currentTerm = args.term := by
      rw [observeTerm_currentTerm h₁]
      omega
    refine ⟨core₁, h₁, hterm, ?_⟩
    split at h
    · simp only [Except.pure_eq_ok, Prod.mk.injEq] at h
      exact Or.inl ⟨h.1.symm, by rw [← h.2, hterm]⟩
    · rename_i hvote
      split at h
      · simp only [Except.pure_eq_ok, Prod.mk.injEq] at h
        exact Or.inl ⟨h.1.symm, by rw [← h.2, hterm]⟩
      · rename_i hup
        simp only [Except.bind_eq_ok, Except.pure_eq_ok, Prod.mk.injEq] at h
        obtain ⟨core₂, h₂, rfl, rfl⟩ := h
        refine Or.inr ⟨?_, by simpa using hup, h₂, ?_⟩
        · cases hv : core₁.votedFor with
          | none => exact Or.inl rfl
          | some c => exact Or.inr (by simpa [hv] using hvote)
        · obtain ⟨-, rfl⟩ := setVotedFor_ok.1 h₂
          exact congrArg (RequestVoteResult.mk · true) hterm

/-- The checks on `prev_log_index` that lead to success: no check at all for `0`, else the term at
the snapshot boundary or in the log. -/
def PrevMatches (core : RaftCore σ μ) (prevLogIndex prevLogTerm : ℕ) : Prop :=
  prevLogIndex = 0 ∨
    (prevLogIndex ≤ core.lastLogIndex ∧
      ((prevLogIndex = core.snapshotLastIndex ∧ prevLogTerm = core.snapshotLastTerm) ∨
        (prevLogIndex ≠ core.snapshotLastIndex ∧
          ∃ e ∈ core.getLogEntry prevLogIndex, e.term = prevLogTerm)))

instance (core : RaftCore σ μ) (prevLogIndex prevLogTerm : ℕ) :
    Decidable (core.PrevMatches prevLogIndex prevLogTerm) := by
  unfold PrevMatches
  infer_instance

/-- **What a rejection tells the leader**, by the check on `prev_log_index` that fails: the log is
too short; the term at the end of the snapshot, or of the entry, is another one; or the index lies
inside the snapshot. -/
inductive Hint (core : RaftCore σ μ) (prevLogIndex prevLogTerm : ℕ) :
    Option ℕ → Option ℕ → Prop
  | short : core.lastLogIndex < prevLogIndex →
      Hint core prevLogIndex prevLogTerm none (some (core.lastLogIndex + 1))
  | boundary : 0 < prevLogIndex → prevLogIndex = core.snapshotLastIndex →
      prevLogTerm ≠ core.snapshotLastTerm →
      Hint core prevLogIndex prevLogTerm (some core.snapshotLastTerm) (some core.snapshotLastIndex)
  | conflict (entry : LogEntry) : 0 < prevLogIndex → prevLogIndex ≠ core.snapshotLastIndex →
      core.getLogEntry prevLogIndex = some entry → entry.term ≠ prevLogTerm →
      Hint core prevLogIndex prevLogTerm (some entry.term)
        (some (core.findFirstIndexForTerm entry.term prevLogIndex))
  | compacted : 0 < prevLogIndex → prevLogIndex ≤ core.lastLogIndex →
      prevLogIndex ≠ core.snapshotLastIndex → core.getLogEntry prevLogIndex = none →
      Hint core prevLogIndex prevLogTerm none (some (core.snapshotLastIndex + 1))

omit [Storage σ] in
/-- A rejected request has a `prev_log_index`, and it does not match. -/
theorem Hint.not_prevMatches {prevLogIndex prevLogTerm : ℕ} {conflictTerm conflictIndex : Option ℕ}
    (h : core.Hint prevLogIndex prevLogTerm conflictTerm conflictIndex) :
    0 < prevLogIndex ∧ ¬ core.PrevMatches prevLogIndex prevLogTerm := by
  cases h with
  | short hlast =>
      refine ⟨Nat.zero_lt_of_lt hlast, ?_⟩
      rintro (h0 | ⟨hle, -⟩) <;> omega
  | boundary hpos hsnap hterm =>
      refine ⟨hpos, ?_⟩
      rintro (h0 | ⟨-, ⟨-, heq⟩ | ⟨hne, -⟩⟩)
      · omega
      · exact hterm heq
      · exact hne hsnap
  | conflict entry hpos hsnap he hterm =>
      refine ⟨hpos, ?_⟩
      rintro (h0 | ⟨-, ⟨heq, -⟩ | ⟨-, x, hx, hxt⟩⟩)
      · omega
      · exact hsnap heq
      · rw [he] at hx
        exact hterm (Option.some.inj hx ▸ hxt)
  | compacted hpos _ hsnap he =>
      refine ⟨hpos, ?_⟩
      rintro (h0 | ⟨-, ⟨heq, -⟩ | ⟨-, x, hx, -⟩⟩)
      · omega
      · exact hsnap heq
      · simp [he] at hx

variable [Snapshotable μ]

/-- **AppendEntries**, once the term is observed: a stale request is refused; otherwise the sender
is recognised as leader, and the entries are accepted if `prev_log_index` matches. -/
theorem handleAppendEntries_cases {core₁ : RaftCore σ μ} {args : AppendEntriesArgs}
    (h₁ : core.observeTerm args.term = .ok core₁) :
    (args.term < core₁.currentTerm ∧ ∃ out, core.handleAppendEntries args = .ok (core₁, out) ∧
      out.result.term = core₁.currentTerm ∧ out.result.success = false) ∨
    (core₁.currentTerm = args.term ∧ ∃ core₂ : RaftCore σ μ,
      core₂ = { core₁ with state := .follower, currentLeader := some args.leaderId } ∧
      ((∃ out, core.handleAppendEntries args = .ok (core₂, out) ∧
          out.result.term = args.term ∧ out.result.success = false ∧
          core₂.Hint args.prevLogIndex args.prevLogTerm out.result.conflictTerm
            out.result.conflictIndex) ∨
        (core₂.PrevMatches args.prevLogIndex args.prevLogTerm ∧
          core.handleAppendEntries args = core₂.acceptEntries args >>= fun core =>
            pure (core, core.appendReply args.leaderId true none none)))) := by
  have heq : core.handleAppendEntries args = (Except.ok core₁ >>= _) :=
    congrArg (· >>= _) h₁
  rw [heq]
  have hmax := observeTerm_currentTerm h₁
  simp only [bind, Except.bind]
  split
  · rename_i hlt
    exact Or.inl ⟨hlt, _, rfl, rfl, rfl⟩
  · rename_i hle
    have hterm : core₁.currentTerm = args.term := by omega
    refine Or.inr ⟨hterm, _, rfl, ?_⟩
    -- the four rejections return the core as it is
    split
    · rename_i hpos
      split
      · rename_i hlast
        exact Or.inl ⟨_, rfl, hterm, rfl, .short hlast⟩
      · rename_i hlast
        split
        · rename_i hsnap
          split
          · rename_i hpt
            exact Or.inl ⟨_, rfl, hterm, rfl, .boundary hpos hsnap hpt⟩
          · rename_i hpt
            exact Or.inr ⟨Or.inr ⟨not_lt.1 hlast, Or.inl ⟨hsnap, not_not.1 hpt⟩⟩, rfl⟩
        · rename_i hsnap
          split
          · rename_i e he
            split
            · rename_i hpt
              exact Or.inl ⟨_, rfl, hterm, rfl, .conflict e hpos hsnap he hpt⟩
            · rename_i hpt
              exact Or.inr
                ⟨Or.inr ⟨not_lt.1 hlast, Or.inr ⟨hsnap, e, he, not_not.1 hpt⟩⟩, rfl⟩
          · rename_i he
            exact Or.inl ⟨_, rfl, hterm, rfl, .compacted hpos (not_lt.1 hlast) hsnap he⟩
    · rename_i hpos
      exact Or.inr ⟨Or.inl (Nat.eq_zero_of_not_pos hpos), rfl⟩

theorem handleAppendEntries_ok {args : AppendEntriesArgs} {out : HandleAppendEntriesOutput}
    (h : core.handleAppendEntries args = .ok (core', out)) :
    ∃ core₁, core.observeTerm args.term = .ok core₁ ∧
      ((args.term < core₁.currentTerm ∧ core' = core₁ ∧ out.result.term = core₁.currentTerm ∧
          out.result.success = false) ∨
        (core₁.currentTerm = args.term ∧ ∃ core₂ : RaftCore σ μ,
          core₂ = { core₁ with state := .follower, currentLeader := some args.leaderId } ∧
          ((core' = core₂ ∧ out.result.term = args.term ∧ out.result.success = false) ∨
            (core₂.PrevMatches args.prevLogIndex args.prevLogTerm ∧
              core₂.acceptEntries args = .ok core' ∧
              out.result.term = core'.currentTerm ∧ out.result.success = true)))) := by
  obtain ⟨core₁, h₁, -⟩ := Except.bind_eq_ok.1 h
  refine ⟨core₁, h₁, ?_⟩
  rcases handleAppendEntries_cases h₁ with ⟨hlt, out', heq, ht, hs⟩ | ⟨hterm, core₂, hcore₂, hor⟩
  · rw [heq, Except.ok.injEq, Prod.mk.injEq] at h
    obtain ⟨rfl, rfl⟩ := h
    exact Or.inl ⟨hlt, rfl, ht, hs⟩
  · refine Or.inr ⟨hterm, core₂, hcore₂, ?_⟩
    rcases hor with ⟨out', heq, ht, hs, -⟩ | ⟨hp, heq⟩
    · rw [heq, Except.ok.injEq, Prod.mk.injEq] at h
      obtain ⟨rfl, rfl⟩ := h
      exact Or.inl ⟨rfl, ht, hs⟩
    · simp only [heq, Except.bind_eq_ok, Except.pure_eq_ok, Prod.mk.injEq] at h
      obtain ⟨core₃, ha, rfl, rfl⟩ := h
      exact Or.inr ⟨hp, ha, rfl, rfl⟩

/-- Accepting the entries: they are taken over, and the commit index follows the leader's up to
the end of the log. -/
theorem acceptEntries_ok {args : AppendEntriesArgs} (h : core.acceptEntries args = .ok core') :
    ∃ s core₁, Saved core.storage s ∧
      core₁ = { core with
        log := takeOver core.snapshotLastIndex core.log args.entries, storage := s } ∧
      ((args.leaderCommit ≤ core.commitIndex ∧ core' = core₁) ∨
        (core.commitIndex < args.leaderCommit ∧ ∃ results, applyCommittedEntries { core₁ with
          commitIndex := min args.leaderCommit core₁.lastLogIndex } = .ok (core', results))) := by
  simp only [acceptEntries, Except.bind_eq_ok] at h
  obtain ⟨core₁, h₁, h⟩ := h
  obtain ⟨s, hs, rfl⟩ := applyEntries_ok h₁
  refine ⟨s, _, hs, rfl, ?_⟩
  split at h
  · rename_i hlt
    simp only [Except.bind_eq_ok, Except.pure_eq_ok, Prod.exists] at h
    obtain ⟨_, results, h, rfl⟩ := h
    exact Or.inr ⟨hlt, results, h⟩
  · rename_i hle
    exact Or.inl ⟨not_lt.1 hle, (Except.pure_eq_ok.1 h).symm⟩

/-- What accepting entries may change. -/
theorem acceptEntries_eq {args : AppendEntriesArgs} (h : core.acceptEntries args = .ok core') :
    ∃ s m i t l a c, core' = { core with
      storage := s, stateMachine := m, snapshotLastIndex := i, snapshotLastTerm := t, log := l,
      lastApplied := a, commitIndex := c } := by
  obtain ⟨s, core₁, -, rfl, ⟨-, rfl⟩ | ⟨-, results, happly⟩⟩ := acceptEntries_ok h
  · exact ⟨_, _, _, _, _, _, _, rfl⟩
  · obtain ⟨s, m, i, t, l, a, rfl⟩ := applyCommittedEntries_eq happly
    exact ⟨_, _, _, _, _, _, _, rfl⟩

/-- **InstallSnapshot**: a stale or old snapshot changes nothing but the term and the leader; a new
one replaces the state machine and the vector up to its last index. -/
theorem handleInstallSnapshot_ok {args : InstallSnapshotArgs} {result : InstallSnapshotResult}
    (h : core.handleInstallSnapshot args = .ok (core', result)) :
    (args.term < core.currentTerm ∧ core' = core ∧
      ∃ reason, result = .failed core.currentTerm reason) ∨
    ∃ core₁ core₂ : RaftCore σ μ, core.observeTerm args.term = .ok core₁ ∧
      core₁.currentTerm = args.term ∧
      core₂ = { core₁ with currentLeader := some args.leaderId } ∧
      ((∃ s reason, core' = { core₂ with storage := s } ∧ result = .failed args.term reason ∧
          (s = core₂.storage ∨ (Storage.saveSnapshot core₂.storage
            ⟨⟨args.lastIncludedIndex, args.lastIncludedTerm⟩, args.data⟩).1 ≠ .ok () ∧
            s = (Storage.saveSnapshot core₂.storage
              ⟨⟨args.lastIncludedIndex, args.lastIncludedTerm⟩, args.data⟩).2)) ∨
        (core₂.snapshotLastIndex < args.lastIncludedIndex ∧ ∃ s m,
          Storage.saveSnapshot core₂.storage
            ⟨⟨args.lastIncludedIndex, args.lastIncludedTerm⟩, args.data⟩ = (.ok (), s) ∧
          Snapshotable.restore core₂.stateMachine args.data = .ok m ∧
          core' = { core₂ with
            stateMachine := m
            snapshotLastIndex := args.lastIncludedIndex
            snapshotLastTerm := args.lastIncludedTerm
            log := core₂.log.filter fun e => e.index > args.lastIncludedIndex
            storage := (Storage.compactLog s (args.lastIncludedIndex + 1)).2
            commitIndex := max core₂.commitIndex args.lastIncludedIndex
            lastApplied := max core₂.lastApplied args.lastIncludedIndex } ∧
          result = .success args.term)) := by
  unfold handleInstallSnapshot at h
  split at h
  · rename_i hlt
    simp only [Except.ok.injEq, Prod.mk.injEq] at h
    exact Or.inl ⟨hlt, h.1.symm, _, h.2.symm⟩
  · rename_i hle
    right
    simp only [Except.bind_eq_ok] at h
    obtain ⟨core₁, h₁, h⟩ := h
    have hterm : core₁.currentTerm = args.term := by
      have := observeTerm_currentTerm h₁
      omega
    refine ⟨core₁, _, h₁, hterm, rfl, ?_⟩
    split at h
    · simp only [Except.pure_eq_ok, Prod.mk.injEq] at h
      obtain ⟨rfl, rfl⟩ := h
      exact Or.inl ⟨_, _, rfl, by rw [hterm], Or.inl rfl⟩
    · rename_i hnew
      split at h
      · rename_i e s hsave
        simp only [Except.pure_eq_ok, Prod.mk.injEq] at h
        obtain ⟨rfl, rfl⟩ := h
        exact Or.inl ⟨_, _, rfl, by rw [hterm], Or.inr ⟨by simp [hsave], by simp [hsave]⟩⟩
      · rename_i s hsave
        simp only [Except.bind_eq_ok, expectRestore_ok, Except.pure_eq_ok, Prod.mk.injEq] at h
        obtain ⟨m, hm, rfl, rfl⟩ := h
        exact Or.inr ⟨not_le.1 hnew, s, m, hsave, hm, rfl, by simp [hterm]⟩

end Handlers

/-! ### The reply handlers -/

section Replies

variable [Storage σ]

/-- Count the vote of a peer, once. -/
def countVote (core : RaftCore σ μ) (peerId : ℕ) (result : RequestVoteResult) : RaftCore σ μ :=
  if result.voteGranted ∧ peerId ∉ core.votesReceived then
    { core with votesReceived := core.votesReceived ++ [peerId] }
  else core

omit [Storage σ] in
theorem countVote_eq (core : RaftCore σ μ) (peerId : ℕ) (result : RequestVoteResult) :
    ∃ votes, core.countVote peerId result = { core with votesReceived := votes } ∧
      (votes = core.votesReceived ∨
        (result.voteGranted = true ∧ peerId ∉ core.votesReceived ∧
          votes = core.votesReceived ++ [peerId])) := by
  unfold countVote
  split
  · rename_i h
    exact ⟨_, rfl, Or.inr ⟨h.1, h.2, rfl⟩⟩
  · exact ⟨_, rfl, Or.inl rfl⟩

/-- **A RequestVote result**: a candidate counts the vote and becomes leader when it has a majority
of the votes; the term of the result is observed, but not compared. -/
theorem handleRequestVoteResult_ok {peerId : ℕ} {result : RequestVoteResult} {won : Bool}
    (h : core.handleRequestVoteResult peerId result = .ok (core', won)) :
    ∃ core₁, core.observeTerm result.term = .ok core₁ ∧
      ((core₁.state ≠ .candidate ∧ core' = core₁ ∧ won = false) ∨
        (core₁.state = .candidate ∧ ∃ core₂, core₂ = core₁.countVote peerId result ∧
          ((core' = core₂ ∧ won = false) ∨
            ((1 + core₂.peers.length) / 2 + 1 ≤ core₂.votesReceived.length ∧
              core₂.becomeLeader = .ok core' ∧ won = true)))) := by
  simp only [handleRequestVoteResult, Except.bind_eq_ok] at h
  obtain ⟨core₁, h₁, h⟩ := h
  refine ⟨core₁, h₁, ?_⟩
  split at h
  · rename_i hs
    simp only [Except.pure_eq_ok, Prod.mk.injEq] at h
    exact Or.inl ⟨hs, h.1.symm, h.2.symm⟩
  · rename_i hs
    refine Or.inr ⟨not_not.1 hs, _, rfl, ?_⟩
    rw [← countVote] at h
    split at h
    · rename_i hmaj
      simp only [Except.bind_eq_ok, Except.pure_eq_ok, Prod.mk.injEq] at h
      obtain ⟨core₃, h₃, rfl, rfl⟩ := h
      exact Or.inr ⟨hmaj, h₃, rfl⟩
    · simp only [Except.pure_eq_ok, Prod.mk.injEq] at h
      exact Or.inl ⟨h.1.symm, h.2.symm⟩

omit [Storage σ] in
/-- Recording an AppendEntries result only touches the two index maps. -/
theorem recordAppendResult_eq (core : RaftCore σ μ) (peerId entryIndex : ℕ)
    (result : AppendEntriesResult) :
    ∃ next match', core.recordAppendResult peerId entryIndex result =
        { core with nextIndex := next, matchIndex := match' } ∧
      (match' = core.matchIndex ∨ (result.success = true ∧ core.matchIndex.getD peerId 0 < entryIndex ∧
        match' = core.matchIndex.insert peerId entryIndex)) ∧
      (next = core.nextIndex ∨ ∃ i, 1 ≤ i ∧ next = core.nextIndex.insert peerId i) := by
  unfold recordAppendResult
  split
  · rename_i hsucc
    split
    · refine ⟨_, _, rfl, ?_, Or.inr ⟨_, by omega, rfl⟩⟩
      split
      · rename_i hlt
        exact Or.inr ⟨hsucc, hlt, rfl⟩
      · exact Or.inl rfl
    · exact ⟨_, _, rfl, Or.inl rfl, Or.inl rfl⟩
  · exact ⟨_, _, rfl, Or.inl rfl, Or.inr ⟨_, by omega, rfl⟩⟩

omit [Storage σ] in
/-- After a success the match index covers what was acknowledged. -/
theorem recordAppendResult_getD (core : RaftCore σ μ) (peerId entryIndex : ℕ)
    {result : AppendEntriesResult} (h : result.success = true) :
    (core.recordAppendResult peerId entryIndex result).matchIndex.getD peerId 0 =
      max (core.matchIndex.getD peerId 0) entryIndex := by
  unfold recordAppendResult
  rw [if_pos h]
  split
  · simp only
    split
    · rename_i hlt
      rw [IndexMap.getD_insert_self, max_eq_right (Nat.le_of_lt hlt)]
    · rename_i hle
      rw [max_eq_left (not_lt.1 hle)]
  · rename_i h0
    rw [Nat.eq_zero_of_not_pos h0, Nat.max_zero]

omit [Storage σ] in
/-- The index maps keep what they have for the other peers. -/
theorem recordAppendResult_ne (core : RaftCore σ μ) (peerId entryIndex : ℕ)
    (result : AppendEntriesResult) {peer : ℕ} (h : peer ≠ peerId) :
    (core.recordAppendResult peerId entryIndex result).nextIndex.getD peer 1 =
        core.nextIndex.getD peer 1 ∧
      (core.recordAppendResult peerId entryIndex result).matchIndex.getD peer 0 =
        core.matchIndex.getD peer 0 := by
  obtain ⟨next, match', heq, hmatch, hnext⟩ :=
    recordAppendResult_eq core peerId entryIndex result
  rw [heq]
  constructor
  · rcases hnext with rfl | ⟨i, -, rfl⟩
    · rfl
    · exact IndexMap.getD_insert_ne h _ _ _
  · rcases hmatch with rfl | ⟨-, -, rfl⟩
    · rfl
    · exact IndexMap.getD_insert_ne h _ _ _

/-- Where a hint points to, in the log of the leader. -/
def hintedNext (core : RaftCore σ μ) (peerId : ℕ) (conflictTerm conflictIndex : Option ℕ) : ℕ :=
  match conflictTerm with
  | some conflictTerm =>
      match core.findLastIndexForTerm conflictTerm with
      | some idx => idx + 1
      | none => conflictIndex.getD 1
  | none =>
      match conflictIndex with
      | some conflictIndex => conflictIndex
      | none => max (core.nextIndex.getD peerId 1 - 1) 1

omit [Storage σ] in
/-- A rejection only moves `next_index`: along the hint, but never up. -/
theorem recordAppendResult_rejected (core : RaftCore σ μ) (peerId entryIndex : ℕ)
    {result : AppendEntriesResult} (h : result.success = false) :
    core.recordAppendResult peerId entryIndex result = { core with
      nextIndex := core.nextIndex.insert peerId
        (min (max (core.hintedNext peerId result.conflictTerm result.conflictIndex) 1)
          (max (core.nextIndex.getD peerId 1 - 1) 1)) } := by
  unfold recordAppendResult
  rw [if_neg (by simp [h])]
  rfl

omit [Storage σ] in
/-- A success that acknowledges entries moves `next_index` behind them. -/
theorem recordAppendResult_success (core : RaftCore σ μ) (peerId entryIndex : ℕ)
    {result : AppendEntriesResult} (h : result.success = true) :
    (core.recordAppendResult peerId entryIndex result).nextIndex.getD peerId 1 =
      if 0 < entryIndex then entryIndex + 1 else core.nextIndex.getD peerId 1 := by
  unfold recordAppendResult
  rw [if_pos h]
  split
  · exact IndexMap.getD_insert_self _ _ _ _
  · rfl

variable [Snapshotable μ]

/-- What the leader checks before it commits the entry of a reply. -/
def CommitsEntry (core : RaftCore σ μ) (n : ℕ) : Prop :=
  0 < n ∧ (core.getLogEntry n).map LogEntry.term = some core.currentTerm ∧
    (1 + core.peers.length) / 2 + 1 ≤ core.replicatedCount n ∧ core.commitIndex < n

/-- **A leader on a reply of no newer term** records it, then commits the entry it is for if that
passes the check. -/
theorem handleAppendEntriesResult_of_leader {peerId entryIndex : ℕ} {result : AppendEntriesResult}
    (hl : core.state = .leader) (hterm : result.term ≤ core.currentTerm)
    (hrec : core' = core.recordAppendResult peerId entryIndex result) :
    (core'.CommitsEntry entryIndex ∧
        core.handleAppendEntriesResult peerId entryIndex result =
          applyCommittedEntries { core' with commitIndex := entryIndex } >>= fun r =>
            pure (r.1, some entryIndex, r.2)) ∨
      (¬ core'.CommitsEntry entryIndex ∧
        core.handleAppendEntriesResult peerId entryIndex result = .ok (core', none, [])) := by
  have hobs : core.observeTerm result.term = .ok core := by
    rw [observeTerm, if_neg (Nat.not_lt.2 hterm)]
  have heq : core.handleAppendEntriesResult peerId entryIndex result =
      (Except.ok core >>= _) := congrArg (· >>= _) hobs
  rw [heq]
  simp only [bind, Except.bind, if_neg (not_not.2 hl), ← hrec]
  split
  · rename_i h0
    exact Or.inr ⟨fun hc => absurd h0 (Nat.ne_of_gt hc.1), rfl⟩
  · rename_i h0
    split
    · rename_i hother
      exact Or.inr ⟨fun hc => hother hc.2.1, rfl⟩
    · rename_i hown
      split
      · rename_i hmaj
        exact Or.inl ⟨⟨Nat.pos_of_ne_zero h0, not_not.1 hown, hmaj⟩, rfl⟩
      · rename_i hmaj
        exact Or.inr ⟨fun hc => hmaj hc.2.2, rfl⟩

/-- **An AppendEntries result**: a leader records it, and commits the entry it was sent for when
that is of its own term, newly committed, and on a majority. -/
theorem handleAppendEntriesResult_ok {peerId entryIndex : ℕ} {result : AppendEntriesResult}
    {commit : Option ℕ} {results : List (ℕ × ApplyResult)}
    (h : core.handleAppendEntriesResult peerId entryIndex result = .ok (core', commit, results)) :
    ∃ core₁, core.observeTerm result.term = .ok core₁ ∧
      ((core₁.state ≠ .leader ∧ core' = core₁ ∧ commit = none ∧ results = []) ∨
        (core₁.state = .leader ∧ ∃ core₂,
          core₂ = core₁.recordAppendResult peerId entryIndex result ∧
          ((core' = core₂ ∧ commit = none ∧ results = []) ∨
            (0 < entryIndex ∧
              (core₂.getLogEntry entryIndex).map LogEntry.term = some core₂.currentTerm ∧
              (1 + core₂.peers.length) / 2 + 1 ≤ core₂.replicatedCount entryIndex ∧
              core₂.commitIndex < entryIndex ∧ commit = some entryIndex ∧
              applyCommittedEntries { core₂ with commitIndex := entryIndex } =
                .ok (core', results))))) := by
  simp only [handleAppendEntriesResult, Except.bind_eq_ok] at h
  obtain ⟨core₁, h₁, h⟩ := h
  refine ⟨core₁, h₁, ?_⟩
  split at h
  · rename_i hs
    simp only [Except.pure_eq_ok, Prod.mk.injEq] at h
    exact Or.inl ⟨hs, h.1.symm, h.2.1.symm, h.2.2.symm⟩
  · rename_i hs
    refine Or.inr ⟨not_not.1 hs, _, rfl, ?_⟩
    split at h
    · simp only [Except.pure_eq_ok, Prod.mk.injEq] at h
      exact Or.inl ⟨h.1.symm, h.2.1.symm, h.2.2.symm⟩
    · rename_i hpos
      split at h
      · simp only [Except.pure_eq_ok, Prod.mk.injEq] at h
        exact Or.inl ⟨h.1.symm, h.2.1.symm, h.2.2.symm⟩
      · rename_i hterm
        split at h
        · rename_i hmaj
          simp only [Except.bind_eq_ok, Except.pure_eq_ok, Prod.mk.injEq, Prod.exists] at h
          obtain ⟨_, _, h, rfl, rfl, rfl⟩ := h
          exact Or.inr ⟨Nat.pos_of_ne_zero hpos, not_not.1 hterm, hmaj.1, hmaj.2, rfl, h⟩
        · simp only [Except.pure_eq_ok, Prod.mk.injEq] at h
          exact Or.inl ⟨h.1.symm, h.2.1.symm, h.2.2.symm⟩

end Replies

/-! ### Methods return when saves succeed -/

section Returns

variable [Storage σ] [InfallibleStorage σ]

theorem setTerm_returns (core : RaftCore σ μ) (term : ℕ) :
    ∃ core', core.setTerm term = .ok core' :=
  ⟨_, setTerm_ok.2 ⟨InfallibleStorage.saveTerm_ok _ _, rfl⟩⟩

theorem setVotedFor_returns (core : RaftCore σ μ) (votedFor : Option ℕ) :
    ∃ core', core.setVotedFor votedFor = .ok core' :=
  ⟨_, setVotedFor_ok.2 ⟨InfallibleStorage.saveVotedFor_ok _ _, rfl⟩⟩

theorem persistLogEntry_returns (core : RaftCore σ μ) (entry : LogEntry) :
    ∃ core', core.persistLogEntry entry = .ok core' :=
  ⟨_, persistLogEntry_ok.2 ⟨InfallibleStorage.appendLogEntries_ok _ _, rfl⟩⟩

theorem persistTruncateLog_returns (core : RaftCore σ μ) (fromIndex : ℕ) :
    ∃ core', core.persistTruncateLog fromIndex = .ok core' := by
  simp only [persistTruncateLog]
  split
  · exact Except.exists_bind_ok ⟨_, expectSave_ok.2 ⟨InfallibleStorage.truncateLog_ok _ _, rfl⟩⟩
      fun _ _ => ⟨_, rfl⟩
  · exact ⟨_, rfl⟩

theorem observeTerm_returns (core : RaftCore σ μ) (term : ℕ) :
    ∃ core', core.observeTerm term = .ok core' := by
  unfold observeTerm
  split
  · exact Except.exists_bind_ok
      (Except.exists_bind_ok (setTerm_returns _ _) fun _ _ => setVotedFor_returns _ _)
      fun _ _ => ⟨_, rfl⟩
  · exact ⟨_, rfl⟩

theorem startElection_returns (core : RaftCore σ μ) : ∃ core', core.startElection = .ok core' :=
  Except.exists_bind_ok (setTerm_returns _ _) fun _ _ =>
    Except.exists_bind_ok (setVotedFor_returns _ _) fun _ _ => ⟨_, rfl⟩

theorem becomeLeader_returns (core : RaftCore σ μ) : ∃ core', core.becomeLeader = .ok core' :=
  persistLogEntry_returns _ _

theorem appendLogEntry_returns (core : RaftCore σ μ) (command : String) :
    ∃ r, core.appendLogEntry command = .ok r := by
  unfold appendLogEntry
  split
  · exact ⟨_, rfl⟩
  · exact Except.exists_bind_ok (persistLogEntry_returns _ _) fun _ _ => ⟨_, rfl⟩

theorem handleRequestVote_returns (core : RaftCore σ μ) (args : RequestVoteArgs) :
    ∃ r, core.handleRequestVote args = .ok r := by
  unfold handleRequestVote
  split
  · exact ⟨_, rfl⟩
  · refine Except.exists_bind_ok (observeTerm_returns _ _) fun _ _ => ?_
    split
    · exact ⟨_, rfl⟩
    · split
      · exact ⟨_, rfl⟩
      · exact Except.exists_bind_ok (setVotedFor_returns _ _) fun _ _ => ⟨_, rfl⟩

theorem applyEntries_returns (entries : List LogEntry) (core : RaftCore σ μ) :
    ∃ core', applyEntries entries core = .ok core' := by
  induction entries generalizing core with
  | nil => exact ⟨_, rfl⟩
  | cons entry rest ih =>
      rw [applyEntries]
      split
      · exact ih _
      · simp only
        split
        · split
          · exact Except.exists_bind_ok (persistTruncateLog_returns _ _) fun _ _ =>
              Except.exists_bind_ok (persistLogEntry_returns _ _) fun _ _ => ih _
          · exact ih _
        · exact Except.exists_bind_ok (persistLogEntry_returns _ _) fun _ _ => ih _

theorem handleRequestVoteResult_returns (core : RaftCore σ μ) (peerId : ℕ)
    (result : RequestVoteResult) : ∃ r, core.handleRequestVoteResult peerId result = .ok r := by
  refine Except.exists_bind_ok (observeTerm_returns _ _) fun _ _ => ?_
  split
  · exact ⟨_, rfl⟩
  · rw [← countVote]
    simp only
    split
    · exact Except.exists_bind_ok (becomeLeader_returns _) fun _ _ => ⟨_, rfl⟩
    · exact ⟨_, rfl⟩

end Returns

end RaftCore

end RaftVibe
