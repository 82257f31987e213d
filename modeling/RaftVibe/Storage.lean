/-
**Persistent storage: the trait, what it promises, and the in-memory implementation.**

`RaftCore` owns a `Box<dyn Storage>` (`storage/traits.rs`).  Here the trait is a class: a save
returns its verdict together with the storage it leaves behind, also when it fails.

What the trait documents is written down once, as an implementation on plain data
(`StorageContents`): truncation and compaction go by entry index.  The promises that results rely
on are separate classes, so that each result names only what it needs.

Main definitions:

* `RaftVibe.Storage` — the trait;
* `RaftVibe.StorageContents` — the documented behaviour, itself a storage;
* `RaftVibe.InfallibleStorage`, `RaftVibe.DurableVotes`, `RaftVibe.DurableSnapshots`,
  `RaftVibe.LawfulStorage` — what an implementation may promise;
* `RaftVibe.Saved` — what the saves of a method leave behind;
* `RaftVibe.MemoryStorage` — `storage/memory.rs`, which truncates and compacts by position.
-/

import Mathlib.Tactic.Common
import RaftVibe.Types

set_option relaxedAutoImplicit false
set_option autoImplicit false

namespace RaftVibe

/-- Errors that can occur during storage operations. -/
inductive StorageError
  | io (message : String)
  | corruption (message : String)
  | notInitialized
deriving DecidableEq, Repr

/-- The `Display` text of a storage error. -/
def StorageError.display : StorageError → String
  | io msg => "I/O error: " ++ msg
  | corruption msg => "Data corruption: " ++ msg
  | notInitialized => "Storage not initialized"

/-- The verdict of a save and the storage it leaves behind. -/
abbrev SaveResult (σ : Type) := Except StorageError Unit × σ

/-- **The storage trait** for Raft persistent state. -/
class Storage (σ : Type) where
  loadTerm : σ → Except StorageError ℕ
  saveTerm : σ → ℕ → SaveResult σ
  loadVotedFor : σ → Except StorageError (Option ℕ)
  saveVotedFor : σ → Option ℕ → SaveResult σ
  loadLog : σ → Except StorageError (List LogEntry)
  appendLogEntries : σ → List LogEntry → SaveResult σ
  truncateLog : σ → ℕ → SaveResult σ
  compactLog : σ → ℕ → SaveResult σ
  loadSnapshot : σ → Except StorageError (Option Snapshot)
  saveSnapshot : σ → Snapshot → SaveResult σ

/-! ### The documented behaviour -/

/-- What a storage holds, as the trait documents it. -/
structure StorageContents where
  term : ℕ
  votedFor : Option ℕ
  log : List LogEntry
  snapshot : Option Snapshot
deriving DecidableEq, Repr

namespace StorageContents

/-- A fresh storage: term `0`, no vote, no entries, no snapshot. -/
def empty : StorageContents := ⟨0, none, [], none⟩

/-- Truncation removes the entries with `index ≥ from_index`. -/
def truncateLog (c : StorageContents) (fromIndex : ℕ) : StorageContents :=
  { c with log := c.log.filter fun e => e.index < fromIndex }

/-- Compaction removes the entries with `index < before_index`. -/
def compactLog (c : StorageContents) (beforeIndex : ℕ) : StorageContents :=
  { c with log := c.log.filter fun e => beforeIndex ≤ e.index }

/-- The documented behaviour is an implementation on its own. -/
instance : Storage StorageContents where
  loadTerm c := .ok c.term
  saveTerm c term := (.ok (), { c with term })
  loadVotedFor c := .ok c.votedFor
  saveVotedFor c votedFor := (.ok (), { c with votedFor })
  loadLog c := .ok c.log
  appendLogEntries c entries := (.ok (), { c with log := c.log ++ entries })
  truncateLog c fromIndex := (.ok (), c.truncateLog fromIndex)
  compactLog c beforeIndex := (.ok (), c.compactLog beforeIndex)
  loadSnapshot c := .ok c.snapshot
  saveSnapshot c snapshot := (.ok (), { c with snapshot := some snapshot })

end StorageContents

/-! ### What an implementation may promise -/

section Promises

variable (σ : Type) [Storage σ]

/-- No save fails. -/
class InfallibleStorage : Prop where
  saveTerm_ok : ∀ (s : σ) t, (Storage.saveTerm s t).1 = .ok ()
  saveVotedFor_ok : ∀ (s : σ) v, (Storage.saveVotedFor s v).1 = .ok ()
  appendLogEntries_ok : ∀ (s : σ) es, (Storage.appendLogEntries s es).1 = .ok ()
  truncateLog_ok : ∀ (s : σ) i, (Storage.truncateLog s i).1 = .ok ()
  compactLog_ok : ∀ (s : σ) i, (Storage.compactLog s i).1 = .ok ()
  saveSnapshot_ok : ∀ (s : σ) x, (Storage.saveSnapshot s x).1 = .ok ()

variable {σ} in
/-- Loading from `s` gives this term and this vote. -/
def HoldsVote (s : σ) (term : ℕ) (votedFor : Option ℕ) : Prop :=
  Storage.loadTerm s = .ok term ∧ Storage.loadVotedFor s = .ok votedFor

/-- Term and vote are saved atomically and durably: a save that returns `Ok` is read back, a save
that fails leaves the old value or the new one, and no other save touches them. -/
class DurableVotes : Prop where
  saveTerm_ok : ∀ {s : σ} {t v} (t'), HoldsVote s t v → (Storage.saveTerm s t').1 = .ok () →
    HoldsVote (Storage.saveTerm s t').2 t' v
  saveTerm_atomic : ∀ {s : σ} {t v} (t'), HoldsVote s t v →
    HoldsVote (Storage.saveTerm s t').2 t v ∨ HoldsVote (Storage.saveTerm s t').2 t' v
  saveVotedFor_ok : ∀ {s : σ} {t v} (v'), HoldsVote s t v →
    (Storage.saveVotedFor s v').1 = .ok () → HoldsVote (Storage.saveVotedFor s v').2 t v'
  saveVotedFor_atomic : ∀ {s : σ} {t v} (v'), HoldsVote s t v →
    HoldsVote (Storage.saveVotedFor s v').2 t v ∨ HoldsVote (Storage.saveVotedFor s v').2 t v'
  appendLogEntries : ∀ {s : σ} {t v} (es), HoldsVote s t v →
    HoldsVote (Storage.appendLogEntries s es).2 t v
  truncateLog : ∀ {s : σ} {t v} (i), HoldsVote s t v → HoldsVote (Storage.truncateLog s i).2 t v
  compactLog : ∀ {s : σ} {t v} (i), HoldsVote s t v → HoldsVote (Storage.compactLog s i).2 t v
  saveSnapshot : ∀ {s : σ} {t v} (x), HoldsVote s t v →
    HoldsVote (Storage.saveSnapshot s x).2 t v

/-- A saved snapshot is the one loaded afterwards, and no other save touches it. -/
class DurableSnapshots : Prop where
  saveTerm : ∀ (s : σ) t, Storage.loadSnapshot (Storage.saveTerm s t).2 = Storage.loadSnapshot s
  saveVotedFor : ∀ (s : σ) v,
    Storage.loadSnapshot (Storage.saveVotedFor s v).2 = Storage.loadSnapshot s
  appendLogEntries : ∀ (s : σ) es,
    Storage.loadSnapshot (Storage.appendLogEntries s es).2 = Storage.loadSnapshot s
  truncateLog : ∀ (s : σ) i,
    Storage.loadSnapshot (Storage.truncateLog s i).2 = Storage.loadSnapshot s
  compactLog : ∀ (s : σ) i,
    Storage.loadSnapshot (Storage.compactLog s i).2 = Storage.loadSnapshot s
  saveSnapshot : ∀ (s : σ) x, (Storage.saveSnapshot s x).1 = .ok () →
    Storage.loadSnapshot (Storage.saveSnapshot s x).2 = .ok (some x)

variable {σ} in
/-- `s'` is what saves of the term, the vote and the log leave behind of `s`, failed saves
included. -/
inductive Saved : σ → σ → Prop
  | refl (s : σ) : Saved s s
  | saveTerm {s s' : σ} (t : ℕ) : Saved s s' → Saved s (Storage.saveTerm s' t).2
  | saveVotedFor {s s' : σ} (v : Option ℕ) : Saved s s' → Saved s (Storage.saveVotedFor s' v).2
  | appendLogEntries {s s' : σ} (es : List LogEntry) :
      Saved s s' → Saved s (Storage.appendLogEntries s' es).2
  | truncateLog {s s' : σ} (i : ℕ) : Saved s s' → Saved s (Storage.truncateLog s' i).2

variable {σ} in
theorem Saved.trans {s s' s'' : σ} (h : Saved s s') (h' : Saved s' s'') : Saved s s'' := by
  induction h' with
  | refl => exact h
  | saveTerm t _ ih => exact ih.saveTerm t
  | saveVotedFor v _ ih => exact ih.saveVotedFor v
  | appendLogEntries es _ ih => exact ih.appendLogEntries es
  | truncateLog i _ ih => exact ih.truncateLog i

variable {σ} in
/-- Such saves leave the stored snapshot alone. -/
theorem Saved.loadSnapshot [DurableSnapshots σ] {s s' : σ} (h : Saved s s') :
    Storage.loadSnapshot s' = Storage.loadSnapshot s := by
  induction h with
  | refl => rfl
  | saveTerm t _ ih => rw [DurableSnapshots.saveTerm, ih]
  | saveVotedFor v _ ih => rw [DurableSnapshots.saveVotedFor, ih]
  | appendLogEntries es _ ih => rw [DurableSnapshots.appendLogEntries, ih]
  | truncateLog i _ ih => rw [DurableSnapshots.truncateLog, ih]

variable {σ} in
/-- Loading from `s` gives exactly these contents. -/
def Holds (s : σ) (c : StorageContents) : Prop :=
  Storage.loadTerm s = .ok c.term ∧ Storage.loadVotedFor s = .ok c.votedFor ∧
    Storage.loadLog s = .ok c.log ∧ Storage.loadSnapshot s = .ok c.snapshot

/-- Every save succeeds and does what the trait documents.  The files do so as long as the log file ends
with its last line and the numbers are `u64`s, which is why nodes on files only simulate those on a
lawful storage. -/
class LawfulStorage : Prop extends InfallibleStorage σ where
  saveTerm : ∀ {s : σ} {c} (t), Holds s c → Holds (Storage.saveTerm s t).2 { c with term := t }
  saveVotedFor : ∀ {s : σ} {c} (v), Holds s c →
    Holds (Storage.saveVotedFor s v).2 { c with votedFor := v }
  appendLogEntries : ∀ {s : σ} {c} (es), Holds s c →
    Holds (Storage.appendLogEntries s es).2 { c with log := c.log ++ es }
  truncateLog : ∀ {s : σ} {c} (i), Holds s c → Holds (Storage.truncateLog s i).2 (c.truncateLog i)
  compactLog : ∀ {s : σ} {c} (i), Holds s c → Holds (Storage.compactLog s i).2 (c.compactLog i)
  saveSnapshot : ∀ {s : σ} {c} (x), Holds s c →
    Holds (Storage.saveSnapshot s x).2 { c with snapshot := some x }

end Promises

instance : InfallibleStorage StorageContents where
  saveTerm_ok _ _ := rfl
  saveVotedFor_ok _ _ := rfl
  appendLogEntries_ok _ _ := rfl
  truncateLog_ok _ _ := rfl
  compactLog_ok _ _ := rfl
  saveSnapshot_ok _ _ := rfl

instance : DurableVotes StorageContents where
  saveTerm_ok _ h _ := ⟨rfl, h.2⟩
  saveTerm_atomic _ h := Or.inr ⟨rfl, h.2⟩
  saveVotedFor_ok _ h _ := ⟨h.1, rfl⟩
  saveVotedFor_atomic _ h := Or.inr ⟨h.1, rfl⟩
  appendLogEntries _ h := h
  truncateLog _ h := h
  compactLog _ h := h
  saveSnapshot _ h := h

instance : DurableSnapshots StorageContents where
  saveTerm _ _ := rfl
  saveVotedFor _ _ := rfl
  appendLogEntries _ _ := rfl
  truncateLog _ _ := rfl
  compactLog _ _ := rfl
  saveSnapshot _ _ _ := rfl

/-- The documented storage holds exactly itself. -/
theorem StorageContents.holds_iff {s c : StorageContents} : Holds s c ↔ s = c := by
  constructor
  · rintro ⟨h₁, h₂, h₃, h₄⟩
    cases s
    cases c
    simp_all [Storage.loadTerm, Storage.loadVotedFor, Storage.loadLog, Storage.loadSnapshot]
  · rintro rfl
    exact ⟨rfl, rfl, rfl, rfl⟩

instance : LawfulStorage StorageContents where
  saveTerm _ h := by rw [StorageContents.holds_iff] at *; subst h; rfl
  saveVotedFor _ h := by rw [StorageContents.holds_iff] at *; subst h; rfl
  appendLogEntries _ h := by rw [StorageContents.holds_iff] at *; subst h; rfl
  truncateLog _ h := by rw [StorageContents.holds_iff] at *; subst h; rfl
  compactLog _ h := by rw [StorageContents.holds_iff] at *; subst h; rfl
  saveSnapshot _ h := by rw [StorageContents.holds_iff] at *; subst h; rfl

/-! ### The in-memory implementation -/

/-- `MemoryStorage`: the same four fields, kept in memory. -/
structure MemoryStorage where
  term : ℕ
  votedFor : Option ℕ
  log : List LogEntry
  snapshot : Option Snapshot
deriving DecidableEq, Repr

namespace MemoryStorage

/-- A new empty in-memory storage. -/
def new : MemoryStorage := ⟨0, none, [], none⟩

/-- Truncation by position: the entry at index `N` is taken to be at position `N - 1`. -/
def truncateLog (s : MemoryStorage) (fromIndex : ℕ) : MemoryStorage :=
  if 0 < fromIndex then
    let truncatePos := fromIndex - 1
    if truncatePos < s.log.length then { s with log := s.log.take truncatePos } else s
  else { s with log := [] }

/-- Compaction by position. -/
def compactLog (s : MemoryStorage) (beforeIndex : ℕ) : MemoryStorage :=
  if 1 < beforeIndex then
    let removeCount := beforeIndex - 1
    if removeCount < s.log.length then { s with log := s.log.drop removeCount }
    else { s with log := [] }
  else if beforeIndex = 1 then s
  else { s with log := [] }

instance : Storage MemoryStorage where
  loadTerm s := .ok s.term
  saveTerm s term := (.ok (), { s with term })
  loadVotedFor s := .ok s.votedFor
  saveVotedFor s votedFor := (.ok (), { s with votedFor })
  loadLog s := .ok s.log
  appendLogEntries s entries := (.ok (), { s with log := s.log ++ entries })
  truncateLog s fromIndex := (.ok (), s.truncateLog fromIndex)
  compactLog s beforeIndex := (.ok (), s.compactLog beforeIndex)
  loadSnapshot s := .ok s.snapshot
  saveSnapshot s snapshot := (.ok (), { s with snapshot := some snapshot })

@[simp] theorem truncateLog_term (s : MemoryStorage) (i : ℕ) : (s.truncateLog i).term = s.term := by
  simp only [truncateLog]; split_ifs <;> rfl

@[simp] theorem truncateLog_votedFor (s : MemoryStorage) (i : ℕ) :
    (s.truncateLog i).votedFor = s.votedFor := by
  simp only [truncateLog]; split_ifs <;> rfl

@[simp] theorem truncateLog_snapshot (s : MemoryStorage) (i : ℕ) :
    (s.truncateLog i).snapshot = s.snapshot := by
  simp only [truncateLog]; split_ifs <;> rfl

@[simp] theorem compactLog_term (s : MemoryStorage) (i : ℕ) : (s.compactLog i).term = s.term := by
  simp only [compactLog]; split_ifs <;> rfl

@[simp] theorem compactLog_votedFor (s : MemoryStorage) (i : ℕ) :
    (s.compactLog i).votedFor = s.votedFor := by
  simp only [compactLog]; split_ifs <;> rfl

@[simp] theorem compactLog_snapshot (s : MemoryStorage) (i : ℕ) :
    (s.compactLog i).snapshot = s.snapshot := by
  simp only [compactLog]; split_ifs <;> rfl

instance : InfallibleStorage MemoryStorage where
  saveTerm_ok _ _ := rfl
  saveVotedFor_ok _ _ := rfl
  appendLogEntries_ok _ _ := rfl
  truncateLog_ok _ _ := rfl
  compactLog_ok _ _ := rfl
  saveSnapshot_ok _ _ := rfl

instance : DurableVotes MemoryStorage where
  saveTerm_ok _ h _ := ⟨rfl, h.2⟩
  saveTerm_atomic _ h := Or.inr ⟨rfl, h.2⟩
  saveVotedFor_ok _ h _ := ⟨h.1, rfl⟩
  saveVotedFor_atomic _ h := Or.inr ⟨h.1, rfl⟩
  appendLogEntries _ h := h
  truncateLog _ h := by simpa [HoldsVote, Storage.loadTerm, Storage.loadVotedFor,
    Storage.truncateLog] using h
  compactLog _ h := by simpa [HoldsVote, Storage.loadTerm, Storage.loadVotedFor,
    Storage.compactLog] using h
  saveSnapshot _ h := h

instance : DurableSnapshots MemoryStorage where
  saveTerm _ _ := rfl
  saveVotedFor _ _ := rfl
  appendLogEntries _ _ := rfl
  truncateLog _ _ := by simp [Storage.loadSnapshot, Storage.truncateLog]
  compactLog _ _ := by simp [Storage.loadSnapshot, Storage.compactLog]
  saveSnapshot _ _ _ := rfl

end MemoryStorage

end RaftVibe
