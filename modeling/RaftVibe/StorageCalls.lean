/-
**Sequences of storage calls.**

Main definitions:

* `RaftVibe.StorageCall` — a save, with its argument;
* `RaftVibe.StorageCall.Savable` — the numbers of a save are `u64`s;
* `RaftVibe.applyAll` — one save after the other, on any implementation;
* `RaftVibe.AllOk` — each of them succeeds.
-/

import RaftVibe.Storage

set_option relaxedAutoImplicit false
set_option autoImplicit false

namespace RaftVibe

/-- A save. -/
inductive StorageCall
  | saveTerm (term : ℕ)
  | saveVotedFor (votedFor : Option ℕ)
  | appendLogEntries (entries : List LogEntry)
  | truncateLog (fromIndex : ℕ)
  | compactLog (beforeIndex : ℕ)
  | saveSnapshot (snapshot : Snapshot)
deriving DecidableEq, Repr

/-- The numbers of an entry are `u64`s. -/
def LogEntry.Savable (entry : LogEntry) : Prop := entry.term ≤ u64Max ∧ entry.index ≤ u64Max

/-- The numbers of a snapshot are `u64`s. -/
def Snapshot.Savable (snapshot : Snapshot) : Prop :=
  snapshot.metadata.lastIncludedIndex ≤ u64Max ∧ snapshot.metadata.lastIncludedTerm ≤ u64Max

/-- The numbers of a save are `u64`s. -/
def StorageCall.Savable : StorageCall → Prop
  | saveTerm term => term ≤ u64Max
  | saveVotedFor votedFor => ∀ id ∈ votedFor, id ≤ u64Max
  | appendLogEntries entries => ∀ e ∈ entries, e.Savable
  | truncateLog _ | compactLog _ => True
  | saveSnapshot snapshot => snapshot.Savable

section Calls

variable {σ : Type} [Storage σ]

def StorageCall.apply (s : σ) : StorageCall → SaveResult σ
  | saveTerm term => Storage.saveTerm s term
  | saveVotedFor votedFor => Storage.saveVotedFor s votedFor
  | appendLogEntries entries => Storage.appendLogEntries s entries
  | truncateLog fromIndex => Storage.truncateLog s fromIndex
  | compactLog beforeIndex => Storage.compactLog s beforeIndex
  | saveSnapshot snapshot => Storage.saveSnapshot s snapshot

/-- One save after the other. -/
def applyAll (s : σ) (calls : List StorageCall) : σ :=
  calls.foldl (fun s call => (call.apply s).2) s

@[simp] theorem applyAll_nil (s : σ) : applyAll s [] = s := rfl

@[simp] theorem applyAll_cons (s : σ) (call : StorageCall) (calls : List StorageCall) :
    applyAll s (call :: calls) = applyAll (call.apply s).2 calls := rfl

/-- Every save succeeds. -/
def AllOk (s : σ) : List StorageCall → Prop
  | [] => True
  | call :: calls => (call.apply s).1 = .ok () ∧ AllOk (call.apply s).2 calls

end Calls

/-- The numbers that a storage holds are `u64`s. -/
structure StorageContents.Savable (c : StorageContents) : Prop where
  term_le : c.term ≤ u64Max
  log : ∀ e ∈ c.log, e.Savable
  snapshot : ∀ x ∈ c.snapshot, x.Savable

/-- A save of `u64`s keeps them so. -/
theorem StorageContents.Savable.apply {c : StorageContents} (h : c.Savable) {call : StorageCall}
    (hcall : call.Savable) : (call.apply c).2.Savable := by
  cases call with
  | saveTerm term => exact ⟨hcall, h.log, h.snapshot⟩
  | saveVotedFor votedFor => exact ⟨h.term_le, h.log, h.snapshot⟩
  | appendLogEntries entries =>
      exact ⟨h.term_le, List.forall_mem_append.2 ⟨h.log, hcall⟩, h.snapshot⟩
  | truncateLog fromIndex =>
      exact ⟨h.term_le, fun e he => h.log e (List.mem_filter.1 he).1, h.snapshot⟩
  | compactLog beforeIndex =>
      exact ⟨h.term_le, fun e he => h.log e (List.mem_filter.1 he).1, h.snapshot⟩
  | saveSnapshot snapshot => exact ⟨h.term_le, h.log, fun x hx => Option.some.inj hx ▸ hcall⟩

end RaftVibe
