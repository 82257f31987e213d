/-
**One vote per term, across restarts.**

A node may stop at any moment between two saves and be loaded again from what the storage holds
then.  To speak about those moments the storage keeps a journal of all the states it has gone
through (`Journal`).  The life of a node is a sequence of calls and crashes; a call that completes
adds to the history the vote it cast and the term it answered with.

Term and vote are written to the storage before the node acts on them — with two exceptions, the
step-downs written out in the node layer, which change the fields in memory only.  Without those,
a node never votes twice in a term, however often it crashes.

Main definitions:

* `RaftVibe.Journal` — a storage that remembers the states between its saves;
* `RaftVibe.Life`, `RaftVibe.Life.step` — a node that serves calls and crashes;
* `RaftVibe.Op.StepsDownInMemory` — a call that adopts a term without saving it;
* `RaftVibe.Mirrors` — the storage holds the node's term and vote, and no moment of the call
  contradicts the history.

Main results:

* `RaftVibe.Op.run_mirrors` — what one call does to the journal, whether it returns or panics;
* `RaftVibe.Life.step_recorded` — what one step of a life preserves;
* `RaftVibe.Life.run_votes_once` — **one vote per term**, over a whole life.
-/

import Mathlib.Order.MinMax
import RaftVibe.MachineRange
import RaftVibe.Outcomes

set_option relaxedAutoImplicit false
set_option autoImplicit false

namespace RaftVibe

open Outcomes Runs

/-! ### A storage that keeps a journal -/

/-- A storage together with the states it has been in, the present one included. -/
structure Journal (σ : Type) where
  current : σ
  past : List σ
deriving DecidableEq, Repr

namespace Journal

variable {σ : Type}

/-- Forget the past. -/
def start (s : σ) : Journal σ := ⟨s, [s]⟩

/-- The verdict of a save is passed on; the state it leaves behind is written down. -/
def note (j : Journal σ) (r : SaveResult σ) : SaveResult (Journal σ) :=
  (r.1, ⟨r.2, j.past ++ [r.2]⟩)

instance [Storage σ] : Storage (Journal σ) where
  loadTerm j := Storage.loadTerm j.current
  saveTerm j term := j.note (Storage.saveTerm j.current term)
  loadVotedFor j := Storage.loadVotedFor j.current
  saveVotedFor j votedFor := j.note (Storage.saveVotedFor j.current votedFor)
  loadLog j := Storage.loadLog j.current
  appendLogEntries j entries := j.note (Storage.appendLogEntries j.current entries)
  truncateLog j fromIndex := j.note (Storage.truncateLog j.current fromIndex)
  compactLog j beforeIndex := j.note (Storage.compactLog j.current beforeIndex)
  loadSnapshot j := Storage.loadSnapshot j.current
  saveSnapshot j snapshot := j.note (Storage.saveSnapshot j.current snapshot)

end Journal

/-! ### Calls and crashes -/

/-- What a node has said: a vote it cast, for itself or another, or a term it answered with. -/
inductive Statement
  | voted (term candidate : ℕ)
  | answered (term : ℕ)
deriving DecidableEq, Repr

/-- The term of a statement. -/
def Statement.term : Statement → ℕ
  | voted t _ => t
  | answered t => t

/-- The vote a completed call has cast: an election starts with a vote for oneself. -/
def Op.votes {σ μ : Type} (core : RaftCore σ μ) : Op → Option Reply → List Statement
  | .requestVote args, some (.requestVote result) =>
      if result.voteGranted then [.voted result.term args.candidateId] else []
  | .startElection, _ => [.voted core.currentTerm core.id]
  | _, _ => []

/-- What a completed call has the node say. -/
def Op.statements {σ μ : Type} (core : RaftCore σ μ) (op : Op) (reply : Option Reply) :
    List Statement :=
  op.votes core reply ++ reply.toList.map fun r => .answered r.term

/-- A node during its life, with all that it has said. -/
structure Life (σ μ : Type) where
  core : RaftCore (Journal σ) μ
  history : List Statement

/-- A call that completes, or one that is cut short: the node comes back from the `k`-th state the
storage was in during the call, with a state machine as the application provides it. -/
inductive LifeAction (μ : Type)
  | call (op : Op)
  | crash (op : Op) (k : ℕ) (stateMachine : μ)

namespace Life

variable {σ μ : Type} [Storage σ] [Snapshotable μ]

/-- The node at the beginning of a call. -/
def begin (life : Life σ μ) : RaftCore (Journal σ) μ :=
  { life.core with storage := .start life.core.storage.current }

/-- The states of the storage during a call, the one it begins with included. -/
def moments (life : Life σ μ) (op : Op) : List σ :=
  match op.run life.begin with
  | .ok (core, _) => core.storage.past
  | .error p => p.storage.past

/-- **One step of a life.** -/
def step (life : Life σ μ) : LifeAction μ → Option (Life σ μ)
  | .call op =>
      match op.run life.begin with
      | .ok (core, reply) => some ⟨core, life.history ++ op.statements core reply⟩
      | .error _ => none
  | .crash op k stateMachine =>
      match (life.moments op)[k]? with
      | none => none
      | some s =>
          match RaftCore.new life.core.id life.core.peers (Journal.start s) stateMachine with
          | .ok core => some ⟨core, life.history⟩
          | .error _ => none

end Life

/-- The call adopts a term in memory only: a newer term in an answer to `confirm_leadership`, or in
a failed answer to InstallSnapshot. -/
def Op.StepsDownInMemory {σ μ : Type} (core : RaftCore σ μ) : Op → Prop
  | .confirmResult result => core.currentTerm < result.term
  | .installSnapshotResult _ _ (.failed term _) => core.currentTerm < term
  | _ => False

instance {σ μ : Type} (core : RaftCore σ μ) (op : Op) : Decidable (op.StepsDownInMemory core) := by
  unfold Op.StepsDownInMemory
  split <;> infer_instance

/-- A call of this kind that completes. -/
def Life.StepsDownInMemory {σ μ : Type} (life : Life σ μ) : LifeAction μ → Prop
  | .call op => op.StepsDownInMemory life.core
  | .crash .. => False

instance {σ μ : Type} (life : Life σ μ) (action : LifeAction μ) :
    Decidable (life.StepsDownInMemory action) := by
  cases action <;> unfold Life.StepsDownInMemory <;> infer_instance

/-- The call fits into the machine range, whether it completes or is cut short. -/
def Life.Fits {σ μ : Type} (life : Life σ μ) : LifeAction μ → Prop
  | .call op => op.Fits life.core
  | .crash op .. => op.Fits life.core

instance {σ μ : Type} (life : Life σ μ) (action : LifeAction μ) : Decidable (life.Fits action) := by
  cases action <;> unfold Life.Fits <;> infer_instance

/-! ### What the storage holds during a call -/

section Mirror

variable {σ μ : Type} [Storage σ] {history : List Statement} {t t' id : ℕ} {v v' : Option ℕ}

/-- A node in this term and with this vote contradicts nothing that it has said. -/
def Remembers (history : List Statement) (term : ℕ) (votedFor : Option ℕ) : Prop :=
  ∀ e ∈ history, e.term ≤ term ∧ ∀ c, e = .voted term c → votedFor = some c

/-- In a later term there is nothing to contradict. -/
theorem Remembers.later (h : Remembers history t v) (ht : t < t') : Remembers history t' v' := by
  intro e he
  have hle := (h e he).1
  refine ⟨hle.trans ht.le, ?_⟩
  rintro c rfl
  exact absurd hle (not_le.2 ht)

/-- A first vote contradicts nothing. -/
theorem Remembers.vote (h : Remembers history t v) {c : ℕ} (hv : v = none ∨ v = some c) :
    Remembers history t (some c) := by
  intro e he
  refine ⟨(h e he).1, fun d hd => ?_⟩
  rcases hv with hv | hv
  · exact absurd (hv.symm.trans ((h e he).2 d hd)) (by simp)
  · exact hv.symm.trans ((h e he).2 d hd)

/-- A node that comes back from `s` contradicts nothing that it has said. -/
def Safe (history : List Statement) (s : σ) : Prop :=
  ∃ t v, HoldsVote s t v ∧ Remembers history t v

/-- **The storage mirrors the node**: it holds the node's term and vote, which contradict nothing
the node has said, and neither does any earlier moment of the call. -/
structure Mirrors (history : List Statement) (t : ℕ) (v : Option ℕ) (id : ℕ)
    (core : RaftCore (Journal σ) μ) : Prop where
  term : core.currentTerm = t
  vote : core.votedFor = v
  id_eq : core.id = id
  holds : HoldsVote core.storage.current t v
  remembers : Remembers history t v
  past : ∀ s ∈ core.storage.past, Safe history s

/-- No moment up to a panic contradicts what the node has said. -/
def Covered (history : List Statement) (p : Panic (Journal σ)) : Prop :=
  ∀ s ∈ p.storage.past, Safe history s

theorem Safe.snoc {l : List σ} {s : σ} (h : ∀ x ∈ l, Safe history x) (hs : Safe history s) :
    ∀ x ∈ l ++ [s], Safe history x := by
  intro x hx
  rcases List.mem_append.1 hx with hx | hx
  · exact h x hx
  · rw [List.mem_singleton.1 hx]
    exact hs

/-- A save whose result is safe, and what is known when it succeeds. -/
theorem expectSave_ensures {message : String} {j : Journal σ} {r : SaveResult σ}
    {Q : Journal σ → Prop} (hpast : ∀ s ∈ j.past, Safe history s) (hsafe : Safe history r.2)
    (hQ : r.1 = .ok () → Q ⟨r.2, j.past ++ [r.2]⟩) :
    Ensures (RaftCore.expectSave message (j.note r)) Q (Covered history) := by
  cases hr : r.1 with
  | ok u =>
      simp only [Journal.note, hr, RaftCore.expectSave, Ensures.ok_iff]
      exact hQ hr
  | error e =>
      simp only [Journal.note, hr, RaftCore.expectSave, Ensures.error_iff]
      exact Safe.snoc hpast hsafe

variable {core : RaftCore (Journal σ) μ}

/-- Any core with the same storage, term, vote and id mirrors as well. -/
theorem Mirrors.congr (h : Mirrors history t v id core) {core' : RaftCore (Journal σ) μ}
    (hs : core'.storage = core.storage) (ht : core'.currentTerm = core.currentTerm)
    (hv : core'.votedFor = core.votedFor) (hid : core'.id = core.id) :
    Mirrors history t v id core' :=
  ⟨ht.trans h.term, hv.trans h.vote, hid.trans h.id_eq, hs ▸ h.holds, h.remembers, hs ▸ h.past⟩

/-- A save that leaves the vote alone. -/
theorem Mirrors.note (h : Mirrors history t v id core) {r : SaveResult σ}
    (hr : HoldsVote r.2 t v) {core' : RaftCore (Journal σ) μ}
    (hs : core'.storage = (core.storage.note r).2) (ht : core'.currentTerm = core.currentTerm)
    (hv : core'.votedFor = core.votedFor) (hid : core'.id = core.id) :
    Mirrors history t v id core' := by
  refine ⟨ht.trans h.term, hv.trans h.vote, hid.trans h.id_eq, ?_, h.remembers, ?_⟩
  · rw [hs]
    exact hr
  · rw [hs]
    exact Safe.snoc h.past ⟨t, v, hr, h.remembers⟩

variable [DurableVotes σ]

theorem setTerm_mirrors (h : Mirrors history t v id core) (hlt : t < t') :
    Ensures (core.setTerm t') (Mirrors history t' v id) (Covered history) := by
  have hrem : Remembers history t' v := h.remembers.later hlt
  have hsafe : Safe history (Storage.saveTerm core.storage.current t').2 := by
    rcases DurableVotes.saveTerm_atomic t' h.holds with ho | ho
    · exact ⟨t, v, ho, h.remembers⟩
    · exact ⟨t', v, ho, hrem⟩
  refine Ensures.bind (expectSave_ensures h.past hsafe fun hok => ?_) fun j hj => hj
  exact ⟨rfl, h.vote, h.id_eq, DurableVotes.saveTerm_ok t' h.holds hok, hrem,
    Safe.snoc h.past hsafe⟩

theorem setVotedFor_mirrors (h : Mirrors history t v id core) (hrem : Remembers history t v') :
    Ensures (core.setVotedFor v') (Mirrors history t v' id) (Covered history) := by
  have hsafe : Safe history (Storage.saveVotedFor core.storage.current v').2 := by
    rcases DurableVotes.saveVotedFor_atomic v' h.holds with ho | ho
    · exact ⟨t, v, ho, h.remembers⟩
    · exact ⟨t, v', ho, hrem⟩
  refine Ensures.bind (expectSave_ensures h.past hsafe fun hok => ?_) fun j hj => hj
  exact ⟨h.term, rfl, h.id_eq, DurableVotes.saveVotedFor_ok v' h.holds hok, hrem,
    Safe.snoc h.past hsafe⟩

/-- Observing a term: a newer one is saved before it is adopted. -/
theorem observeTerm_mirrors (h : Mirrors history t v id core) (t' : ℕ) :
    Ensures (core.observeTerm t') (Mirrors history (max t t') (if t < t' then none else v) id)
      (Covered history) := by
  unfold RaftCore.observeTerm
  rw [h.term]
  split
  · rename_i hlt
    rw [max_eq_right hlt.le]
    refine Ensures.bind (Ensures.bind (setTerm_mirrors h hlt) fun core₁ h₁ =>
      setVotedFor_mirrors h₁ (h.remembers.later hlt)) fun core₂ h₂ => ?_
    exact h₂.congr rfl rfl rfl rfl
  · rename_i hle
    rw [max_eq_left (not_lt.1 hle)]
    exact h

theorem persistLogEntry_mirrors (h : Mirrors history t v id core) (entry : LogEntry) :
    Ensures (core.persistLogEntry entry) (Mirrors history t v id) (Covered history) := by
  have hr := DurableVotes.appendLogEntries [entry] h.holds
  refine Ensures.bind (expectSave_ensures h.past ⟨t, v, hr, h.remembers⟩ fun _ => ?_)
    fun j hj => hj
  exact h.note hr rfl rfl rfl rfl

theorem persistTruncateLog_mirrors (h : Mirrors history t v id core) (fromIndex : ℕ) :
    Ensures (core.persistTruncateLog fromIndex) (Mirrors history t v id) (Covered history) := by
  simp only [RaftCore.persistTruncateLog]
  split
  · have hr := DurableVotes.truncateLog fromIndex h.holds
    refine Ensures.bind (expectSave_ensures h.past ⟨t, v, hr, h.remembers⟩ fun _ => ?_)
      fun j hj => hj
    exact h.note hr rfl rfl rfl rfl
  · exact h

theorem startElection_mirrors (h : Mirrors history t v id core) :
    Ensures core.startElection (Mirrors history (t + 1) (some id) id) (Covered history) := by
  have hrem : Remembers history (t + 1) (some id) := h.remembers.later (Nat.lt_succ_self t)
  unfold RaftCore.startElection
  rw [h.term]
  refine Ensures.bind (setTerm_mirrors h (Nat.lt_succ_self t)) fun core₁ h₁ => ?_
  have h₂ : Mirrors history (t + 1) v id
      { core₁ with state := .candidate, currentLeader := none } := h₁.congr rfl rfl rfl rfl
  have h₃ := setVotedFor_mirrors h₂ hrem
  rw [← h₂.id_eq] at h₃
  refine Ensures.bind h₃ fun core₃ h₃ => ?_
  rw [h₂.id_eq] at h₃
  exact h₃.congr rfl rfl rfl rfl

theorem becomeLeader_mirrors (h : Mirrors history t v id core) :
    Ensures core.becomeLeader (Mirrors history t v id) (Covered history) := by
  refine persistLogEntry_mirrors ?_ _
  exact h.congr rfl rfl rfl rfl

theorem appendLogEntry_mirrors (h : Mirrors history t v id core) (command : String) :
    Ensures (core.appendLogEntry command) (fun r => Mirrors history t v id r.1)
      (Covered history) := by
  unfold RaftCore.appendLogEntry
  split
  · exact h
  · exact Ensures.bind (persistLogEntry_mirrors h _) fun core' h' => h'

theorem applyEntries_mirrors (entries : List LogEntry) (h : Mirrors history t v id core) :
    Ensures (RaftCore.applyEntries entries core) (Mirrors history t v id) (Covered history) := by
  induction entries generalizing core with
  | nil => exact h
  | cons entry rest ih =>
      rw [RaftCore.applyEntries]
      split
      · exact ih h
      · simp only
        split
        · split
          · exact Ensures.bind (persistTruncateLog_mirrors h _) fun _ h₁ =>
              Ensures.bind (persistLogEntry_mirrors h₁ _) fun _ h₂ => ih h₂
          · exact ih h
        · exact Ensures.bind (persistLogEntry_mirrors h _) fun _ h₁ => ih h₁

variable [Snapshotable μ]

theorem takeSnapshot_mirrors (h : Mirrors history t v id core) :
    Mirrors history t v id core.takeSnapshot.1 := by
  unfold RaftCore.takeSnapshot
  split
  · exact h
  · split
    · exact h
    · split
      · exact h
      · rename_i entry he
        split
        · exact h
        · rename_i data hdata
          have hs := DurableVotes.saveSnapshot ⟨⟨core.lastApplied, entry.term⟩, data⟩ h.holds
          simp only
          split
          · rename_i hsave
            exact h.note hs (Prod.mk.inj hsave).2.symm rfl rfl rfl
          · rename_i s hsave
            have h₁ : Mirrors history t v id { core with storage := s } :=
              h.note hs (Prod.mk.inj hsave).2.symm rfl rfl rfl
            have hc := DurableVotes.compactLog (core.lastApplied + 1) h₁.holds
            split
            · rename_i hcompact
              exact h₁.note hc (Prod.mk.inj hcompact).2.symm rfl rfl rfl
            · rename_i hcompact
              exact h₁.note hc (Prod.mk.inj hcompact).2.symm rfl rfl rfl

theorem autoSnapshot_mirrors (h : Mirrors history t v id core) :
    Mirrors history t v id core.autoSnapshot := by
  simp only [RaftCore.autoSnapshot]
  split
  · split
    · exact takeSnapshot_mirrors h
    · exact h
  · exact h

omit [DurableVotes σ] in
theorem applyLoop_mirrors {n : ℕ} {results : List (ℕ × ApplyResult)}
    (h : Mirrors history t v id core) :
    Ensures (RaftCore.applyLoop n core results) (fun r => Mirrors history t v id r.1)
      (Covered history) := by
  induction n generalizing core results with
  | zero => exact h
  | succ n ih =>
      rw [RaftCore.applyLoop]
      simp only
      split
      · exact ih (h.congr rfl rfl rfl rfl)
      · exact h.past

theorem applyCommittedEntries_mirrors (h : Mirrors history t v id core) :
    Ensures core.applyCommittedEntries (fun r => Mirrors history t v id r.1) (Covered history) :=
  Ensures.bind (applyLoop_mirrors h) fun _ h₁ => autoSnapshot_mirrors h₁

theorem acceptEntries_mirrors (h : Mirrors history t v id core) (args : AppendEntriesArgs) :
    Ensures (core.acceptEntries args) (Mirrors history t v id) (Covered history) := by
  refine Ensures.bind (applyEntries_mirrors _ h) fun core₁ h₁ => ?_
  split
  · have h₂ : Mirrors history t v id
        { core₁ with commitIndex := min args.leaderCommit core₁.lastLogIndex } :=
      h₁.congr rfl rfl rfl rfl
    exact Ensures.bind (applyCommittedEntries_mirrors h₂) fun _ h₃ => h₃
  · exact h₁

omit [Snapshotable μ] in
theorem handleRequestVote_mirrors (h : Mirrors history t v id core) (args : RequestVoteArgs) :
    Ensures (core.handleRequestVote args)
      (fun r => t ≤ r.2.term ∧ ∃ v', Mirrors history r.2.term v' id r.1 ∧
        (r.2.voteGranted = true → v' = some args.candidateId))
      (Covered history) := by
  unfold RaftCore.handleRequestVote
  split
  · exact ⟨h.term.ge, v, h.term.symm ▸ h, by simp⟩
  · refine Ensures.bind (observeTerm_mirrors h args.term) fun core₁ h₁ => ?_
    have hle : t ≤ core₁.currentTerm := h₁.term ▸ le_max_left _ _
    split
    · exact ⟨hle, _, h₁.term.symm ▸ h₁, by simp⟩
    · rename_i hfree
      split
      · exact ⟨hle, _, h₁.term.symm ▸ h₁, by simp⟩
      · have hvote : core₁.votedFor = none ∨ core₁.votedFor = some args.candidateId := by
          cases hv : core₁.votedFor with
          | none => exact Or.inl rfl
          | some c => exact Or.inr (by simpa [hv] using hfree)
        rw [h₁.vote] at hvote
        refine Ensures.bind (setVotedFor_mirrors h₁ (h₁.remembers.vote hvote)) fun core₂ h₂ => ?_
        exact ⟨h₂.term ▸ le_max_left _ _, _, h₂.term.symm ▸ h₂, fun _ => rfl⟩

theorem handleAppendEntries_mirrors (h : Mirrors history t v id core) (args : AppendEntriesArgs) :
    Ensures (core.handleAppendEntries args)
      (fun r => t ≤ r.2.result.term ∧ ∃ v', Mirrors history r.2.result.term v' id r.1)
      (Covered history) := by
  have hobs := observeTerm_mirrors h args.term
  cases ho : core.observeTerm args.term with
  | error p =>
      have heq : core.handleAppendEntries args = (.error p >>= _) := congrArg (· >>= _) ho
      rw [heq]
      exact hobs.of_error ho
  | ok core₁ =>
      have h₁ := hobs.of_ok ho
      have hle : t ≤ core₁.currentTerm := h₁.term ▸ le_max_left _ _
      rcases RaftCore.handleAppendEntries_cases ho with
        ⟨-, out, heq, ht, -⟩ | ⟨hterm, core₂, h₂, hor⟩
      · rw [heq]
        exact ⟨ht ▸ hle, _, ht ▸ h₁.term.symm ▸ h₁⟩
      · have hm₂ : Mirrors history (max t args.term) (if t < args.term then none else v) id core₂ := by
          rw [h₂]
          exact h₁.congr rfl rfl rfl rfl
        rcases hor with ⟨out, heq, ht, -⟩ | ⟨-, heq⟩
        · rw [heq]
          have hout : out.result.term = max t args.term :=
            ht.trans (hterm.symm.trans h₁.term)
          exact ⟨hout ▸ le_max_left _ _, _, hout ▸ hm₂⟩
        · rw [heq]
          refine Ensures.bind (acceptEntries_mirrors hm₂ args) fun core₃ h₃ => ?_
          exact ⟨h₃.term.ge.trans' (le_max_left _ _), _, h₃.term.symm ▸ h₃⟩

theorem handleInstallSnapshot_mirrors (h : Mirrors history t v id core)
    (args : InstallSnapshotArgs) :
    Ensures (core.handleInstallSnapshot args)
      (fun r => t ≤ r.2.term ∧ ∃ v', Mirrors history r.2.term v' id r.1) (Covered history) := by
  unfold RaftCore.handleInstallSnapshot
  split
  · exact ⟨h.term.ge, v, h.term.symm ▸ h⟩
  · refine Ensures.bind (observeTerm_mirrors h args.term) fun core₁ h₁ => ?_
    have hle : t ≤ core₁.currentTerm := h₁.term ▸ le_max_left _ _
    have h₂ : Mirrors history core₁.currentTerm (if t < args.term then none else v) id
        { core₁ with currentLeader := some args.leaderId } :=
      (h₁.term.symm ▸ h₁).congr rfl rfl rfl rfl
    simp only
    split
    · exact ⟨hle, _, h₂⟩
    · have hs := DurableVotes.saveSnapshot
        ⟨⟨args.lastIncludedIndex, args.lastIncludedTerm⟩, args.data⟩ h₂.holds
      split
      · rename_i hsave
        exact ⟨hle, _, h₂.note hs (Prod.mk.inj hsave).2.symm rfl rfl rfl⟩
      · rename_i s hsave
        have h₃ : Mirrors history core₁.currentTerm (if t < args.term then none else v) id
            { core₁ with currentLeader := some args.leaderId, storage := s } :=
          h₂.note hs (Prod.mk.inj hsave).2.symm rfl rfl rfl
        cases Snapshotable.restore core₁.stateMachine args.data with
        | error e => exact h₃.past
        | ok m =>
            have hc := DurableVotes.compactLog (args.lastIncludedIndex + 1) h₃.holds
            exact ⟨hle, _, h₃.note hc rfl rfl rfl rfl⟩

omit [Snapshotable μ] in
theorem handleRequestVoteResult_mirrors (h : Mirrors history t v id core) (peerId : ℕ)
    (result : RequestVoteResult) :
    Ensures (core.handleRequestVoteResult peerId result)
      (fun r => ∃ t' v', Mirrors history t' v' id r.1)
      (Covered history) := by
  refine Ensures.bind (observeTerm_mirrors h result.term) fun core₁ h₁ => ?_
  split
  · exact ⟨_, _, h₁⟩
  · rw [← RaftCore.countVote]
    obtain ⟨votes, heq, -⟩ := RaftCore.countVote_eq core₁ peerId result
    simp only [heq]
    split
    · have h₂ : Mirrors history (max t result.term) (if t < result.term then none else v) id
          { core₁ with votesReceived := votes } := h₁.congr rfl rfl rfl rfl
      exact Ensures.bind (becomeLeader_mirrors h₂) fun core' h' => ⟨_, _, h'⟩
    · exact ⟨_, _, h₁.congr rfl rfl rfl rfl⟩

theorem handleAppendEntriesResult_mirrors (h : Mirrors history t v id core) (peerId entryIndex : ℕ)
    (result : AppendEntriesResult) :
    Ensures (core.handleAppendEntriesResult peerId entryIndex result)
      (fun r => ∃ t' v', Mirrors history t' v' id r.1) (Covered history) := by
  refine Ensures.bind (observeTerm_mirrors h result.term) fun core₁ h₁ => ?_
  obtain ⟨next, matchIndex, heq, -, -⟩ :=
    RaftCore.recordAppendResult_eq core₁ peerId entryIndex result
  split
  · exact ⟨_, _, h₁⟩
  · rw [heq]
    simp only
    split
    · exact ⟨_, _, h₁.congr rfl rfl rfl rfl⟩
    · split
      · exact ⟨_, _, h₁.congr rfl rfl rfl rfl⟩
      · split
        · have h₂ : Mirrors history (max t result.term) (if t < result.term then none else v) id
              { core₁ with nextIndex := next, matchIndex, commitIndex := entryIndex } :=
            h₁.congr rfl rfl rfl rfl
          exact Ensures.bind (applyCommittedEntries_mirrors h₂) fun core' h' => ⟨_, _, h'⟩
        · exact ⟨_, _, h₁.congr rfl rfl rfl rfl⟩

/-- The statements are made in this term, and the votes are this vote. -/
def SaidIn (events : List Statement) (t : ℕ) (v : Option ℕ) : Prop :=
  ∀ e ∈ events, e.term = t ∧ ∀ c, e = .voted t c → v = some c

theorem SaidIn.nil : SaidIn [] t v := by
  intro e he
  cases he

omit [Storage σ] [DurableVotes σ] [Snapshotable μ] in
/-- What a call has the node say: its vote, and the term of its answer. -/
theorem SaidIn.statements {op : Op} {core : RaftCore (Journal σ) μ} {reply : Option Reply}
    (hvotes : SaidIn (op.votes core reply) t v) (hreply : ∀ r ∈ reply, r.term = t) :
    SaidIn (op.statements core reply) t v := by
  intro e he
  rcases List.mem_append.1 he with he | he
  · exact hvotes e he
  · obtain ⟨r, hr, rfl⟩ := List.mem_map.1 he
    refine ⟨hreply r (Option.mem_toList.1 hr), ?_⟩
    intro c hc
    cases hc

theorem Remembers.append (h : Remembers history t v) {events : List Statement}
    (he : SaidIn events t v) : Remembers (history ++ events) t v := by
  intro e hmem
  rcases List.mem_append.1 hmem with hmem | hmem
  · exact h e hmem
  · exact ⟨(he e hmem).1.le, (he e hmem).2⟩

/-- A vote just cast is the only one in its term. -/
theorem Remembers.unique (h : Remembers history t v) {events : List Statement}
    (he : SaidIn events t v) {u c c' : ℕ} (hc : Statement.voted u c ∈ events)
    (hc' : Statement.voted u c' ∈ history) : c = c' := by
  obtain rfl : u = t := (he _ hc).1
  have hv := (he _ hc).2 c rfl
  rw [(h _ hc').2 c' rfl] at hv
  exact (Option.some.inj hv).symm

/-- **One call and the journal.**  If the storage mirrors the node, and the call does not adopt a
term in memory only, the storage mirrors the node afterwards, too, what the call has said included; and
no moment on the way, also up to a panic, contradicts what was said before. -/
theorem Op.run_mirrors (h : Mirrors history t v id core) {op : Op}
    (hop : ¬ op.StepsDownInMemory core) :
    Ensures (op.run core)
      (fun r => ∃ t' v', Mirrors history t' v' id r.1 ∧ SaidIn (op.statements r.1 r.2) t' v')
      (Covered history) := by
  -- a call that says nothing
  have quiet {x : RaftCore (Journal σ) μ} {t' : ℕ} {v' : Option ℕ} {events : List Statement}
      (hevents : events = []) (hx : Mirrors history t' v' id x) :
      ∃ t' v', Mirrors history t' v' id x ∧ SaidIn events t' v' := by
    subst hevents
    exact ⟨t', v', hx, .nil⟩
  -- a call that answers in the term that it leaves
  have answers {r : Reply} : ∀ r' ∈ some r, r'.term = r.term := by
    intro r' hr
    obtain rfl := Option.some.inj hr
    rfl
  cases op with
  | requestVote args =>
      refine Ensures.bind (handleRequestVote_mirrors h args) ?_
      rintro ⟨core', result⟩ ⟨-, v', h', hv⟩
      refine ⟨result.term, v', h', SaidIn.statements ?_ answers⟩
      intro e he
      simp only [Op.votes] at he
      split at he
      · rename_i hg
        obtain rfl := List.mem_singleton.1 he
        refine ⟨rfl, ?_⟩
        intro c hc
        rw [hv hg, (Statement.voted.inj hc).2]
      · cases he
  | appendEntries args =>
      refine Ensures.bind (handleAppendEntries_mirrors h args) ?_
      rintro ⟨core', out⟩ ⟨-, v', h'⟩
      exact ⟨_, v', h', SaidIn.statements .nil answers⟩
  | installSnapshot args =>
      refine Ensures.bind (handleInstallSnapshot_mirrors h args) ?_
      rintro ⟨core', result⟩ ⟨-, v', h'⟩
      exact ⟨_, v', h', SaidIn.statements .nil answers⟩
  | startElection =>
      refine Ensures.bind (startElection_mirrors h) fun core' h' => ?_
      refine ⟨_, _, h', SaidIn.statements ?_ (by simp)⟩
      intro e he
      obtain rfl := List.mem_singleton.1 he
      refine ⟨h'.term, ?_⟩
      intro c hc
      rw [← (Statement.voted.inj hc).2, h'.id_eq]
  | becomeLeader => exact Ensures.bind (becomeLeader_mirrors h) fun core' h' => quiet rfl h'
  | appendLogEntry command =>
      exact Ensures.bind (appendLogEntry_mirrors h command) fun r h' => quiet rfl h'
  | applyCommittedEntries =>
      exact Ensures.bind (applyCommittedEntries_mirrors h) fun r h' => quiet rfl h'
  | takeSnapshot => exact quiet rfl (takeSnapshot_mirrors h)
  | requestVoteResult peerId result =>
      refine Ensures.bind (handleRequestVoteResult_mirrors h peerId result) ?_
      rintro r ⟨t', v', h'⟩
      exact quiet rfl h'
  | appendEntriesResult peerId entryIndex result =>
      refine Ensures.bind (handleAppendEntriesResult_mirrors h peerId entryIndex result) ?_
      rintro r ⟨t', v', h'⟩
      exact quiet rfl h'
  | installSnapshotResult peerId lastIncludedIndex result =>
      cases result with
      | success term => exact quiet rfl (h.congr rfl rfl rfl rfl)
      | failed term reason =>
          have hle : ¬ term > core.currentTerm := hop
          simp only [Op.run, RaftCore.handleInstallSnapshotResult, if_neg hle]
          exact quiet rfl h
  | confirmResult result =>
      have hle : ¬ result.term > core.currentTerm := hop
      simp only [Op.run, RaftCore.handleConfirmResult, if_neg hle]
      exact quiet rfl h

end Mirror

/-! ### A whole life -/

namespace Life

variable {σ μ : Type} [Storage σ] [Snapshotable μ]

/-- What has been said is recorded: the storage mirrors the node, and no two votes of the history
are for different candidates in one term. -/
structure Recorded (life : Life σ μ) : Prop where
  holds : HoldsVote life.core.storage.current life.core.currentTerm life.core.votedFor
  remembers : Remembers life.history life.core.currentTerm life.core.votedFor
  once : ∀ t c c', Statement.voted t c ∈ life.history → Statement.voted t c' ∈ life.history → c = c'

omit [Snapshotable μ] in
theorem Recorded.mirrors_begin {life : Life σ μ} (h : life.Recorded) :
    Mirrors life.history life.core.currentTerm life.core.votedFor life.core.id life.begin := by
  refine ⟨rfl, rfl, rfl, h.holds, h.remembers, ?_⟩
  intro s hs
  obtain rfl := List.mem_singleton.1 hs
  exact ⟨_, _, h.holds, h.remembers⟩

/-- A node that comes back reads its term and vote from the storage. -/
theorem new_reads {storage : Journal σ} {id : ℕ} {peers : List ℕ} {m : μ}
    {core : RaftCore (Journal σ) μ} (h : RaftCore.new id peers storage m = .ok core) {t : ℕ}
    {v : Option ℕ} (hv : HoldsVote storage.current t v) :
    core.storage = storage ∧ core.currentTerm = t ∧ core.votedFor = v := by
  have h₁ : Storage.loadTerm storage = .ok t := hv.1
  have h₂ : Storage.loadVotedFor storage = .ok v := hv.2
  simp only [RaftCore.new, h₁, h₂, RaftCore.expectLoad, Except.bind_eq_ok, Except.ok.injEq,
    exists_eq_left', Except.pure_eq_ok] at h
  obtain ⟨log, -, snapshot, -, m', -, rfl⟩ := h
  exact ⟨rfl, rfl, rfl⟩

variable [DurableVotes σ]

/-- No moment of a call contradicts what was said before it; a call that would adopt a term in memory
only saves nothing at all. -/
theorem Recorded.safe_moments {life : Life σ μ} (h : life.Recorded) (op : Op) :
    ∀ s ∈ life.moments op, Safe life.history s := by
  have hbegin := h.mirrors_begin
  by_cases hop : op.StepsDownInMemory life.begin
  · have hquiet : ∃ core reply, op.run life.begin = .ok (core, reply) ∧
        core.storage = life.begin.storage := by
      cases op with
      | confirmResult result =>
          refine ⟨_, _, rfl, ?_⟩
          simp only [RaftCore.handleConfirmResult]
          split <;> rfl
      | installSnapshotResult peerId lastIncludedIndex result =>
          refine ⟨_, _, rfl, ?_⟩
          cases result with
          | success term => rfl
          | failed term reason =>
              simp only [RaftCore.handleInstallSnapshotResult]
              split <;> rfl
      | _ => exact absurd hop (by simp [Op.StepsDownInMemory])
    obtain ⟨core, reply, hrun, hst⟩ := hquiet
    unfold moments
    rw [hrun]
    simp only [hst]
    exact hbegin.past
  · have hrun := Op.run_mirrors hbegin hop
    unfold moments
    cases hr : op.run life.begin with
    | ok r =>
        obtain ⟨t, v, hm, -⟩ := hrun.of_ok hr
        exact hm.past
    | error p => exact hrun.of_error hr

/-- **One step of a life** keeps what has been said recorded. -/
theorem step_recorded {life life' : Life σ μ} (h : life.Recorded) {action : LifeAction μ}
    (hop : ¬ life.StepsDownInMemory action)
    (hs : life.step action = some life') : life'.Recorded := by
  have hbegin := h.mirrors_begin
  cases action with
  | call op =>
      have hrun := Op.run_mirrors hbegin hop
      simp only [step] at hs
      split at hs
      · rename_i core reply hok
        obtain rfl := Option.some.inj hs
        obtain ⟨t, v, hm, hnew⟩ := hrun.of_ok hok
        have hrem := hm.remembers.append hnew
        refine ⟨?_, ?_, ?_⟩
        · rw [hm.term, hm.vote]
          exact hm.holds
        · rw [hm.term, hm.vote]
          exact hrem
        · intro u c c' hc hc'
          rcases List.mem_append.1 hc with hold | hc₁
          · rcases List.mem_append.1 hc' with hold' | hc₁'
            · exact h.once u c c' hold hold'
            · exact (hrem.unique hnew hc₁' hc).symm
          · exact hrem.unique hnew hc₁ hc'
      · exact absurd hs (by simp)
  | crash op k m =>
      have hsafe := h.safe_moments op
      simp only [step] at hs
      split at hs
      · exact absurd hs (by simp)
      · rename_i s hk
        split at hs
        · rename_i core hnew
          obtain rfl := Option.some.inj hs
          obtain ⟨t, v, hv, hrem⟩ := hsafe s (List.mem_of_getElem? hk)
          obtain ⟨hst, ht, hvote⟩ := new_reads hnew hv
          exact ⟨by rw [hst, ht, hvote]; exact hv, by rw [ht, hvote]; exact hrem, h.once⟩
        · exact absurd hs (by simp)

omit [DurableVotes σ] in
/-- A call that fits and completes leaves the node in the machine range. -/
theorem Fits.step_within {life life' : Life σ μ} {op : Op} (h : life.Fits (.call op))
    (hs : life.step (.call op) = some life') : life'.core.Within u64Max := by
  simp only [step] at hs
  split at hs
  · rename_i core reply hok
    obtain rfl := Option.some.inj hs
    have hfits : op.Fits life.begin := ⟨⟨h.core_within.term_le, h.core_within.snapshot_le,
      h.core_within.applied_le, h.core_within.commit_le, h.core_within.log_le⟩, h.op_within⟩
    exact hfits.step_within (Op.step_eq_some.2 ⟨reply, hok⟩)
  · exact absurd hs (by simp)

/-- **One vote per term, across restarts.**  A node is loaded from a storage and then serves calls
and crashes.  If no call that completes adopts a term in memory only, and all calls fit into the
machine range, the node never votes for two candidates in one term, its term is never behind one in
which it has voted or answered, and it stays in the range. -/
theorem run_votes_once {id : ℕ} {peers : List ℕ} {storage : σ} {m : μ}
    {core : RaftCore (Journal σ) μ}
    (hnew : RaftCore.new id peers (Journal.start storage) m = .ok core) {life : Life σ μ}
    {ts : List (Transition (Life σ μ) (LifeAction μ))} (hr : Run step ⟨core, []⟩ ts life)
    (hop : ∀ t ∈ ts, ¬ t.source.StepsDownInMemory t.action)
    (hfits : ∀ t ∈ ts, t.source.Fits t.action) :
    (∀ t c c', Statement.voted t c ∈ life.history → Statement.voted t c' ∈ life.history → c = c') ∧
      (∀ e ∈ life.history, e.term ≤ life.core.currentTerm) ∧
      ∀ t ∈ ts, ∀ op, t.action = .call op → t.target.core.Within u64Max := by
  have hstart : Recorded (⟨core, []⟩ : Life σ μ) := by
    obtain ⟨t, ht, hnew'⟩ := Except.bind_eq_ok.1 hnew
    obtain ⟨v, hv, -⟩ := Except.bind_eq_ok.1 hnew'
    have hholds : HoldsVote storage t v := by
      refine ⟨?_, ?_⟩
      · cases hl : Storage.loadTerm storage with
        | ok a => simpa [RaftCore.expectLoad, Storage.loadTerm, Journal.start, hl] using ht
        | error e => simp [RaftCore.expectLoad, Storage.loadTerm, Journal.start, hl] at ht
      · cases hl : Storage.loadVotedFor storage with
        | ok a => simpa [RaftCore.expectLoad, Storage.loadVotedFor, Journal.start, hl] using hv
        | error e => simp [RaftCore.expectLoad, Storage.loadVotedFor, Journal.start, hl] at hv
    obtain ⟨hst, hterm, hvote⟩ := new_reads hnew hholds
    refine ⟨?_, by simp [Remembers], by simp⟩
    rw [hst, hterm, hvote]
    exact hholds
  have hrec : life.Recorded := hr.invariant
    (P := fun t => ¬ t.source.StepsDownInMemory t.action)
    (fun _ _ _ hi hs hp => step_recorded hi hp hs) hstart hop
  refine ⟨hrec.once, fun e he => (hrec.remembers e he).1, fun t ht op hcall => ?_⟩
  exact Fits.step_within (hcall ▸ hfits t ht) (hcall ▸ hr.step_of_mem ht)

/-- The first call of a node in a cluster of three, and the answer that makes it leader. -/
def election : List (LifeAction Recorder) :=
  [.call .startElection, .call (.requestVoteResult 2 ⟨1, true⟩)]

/-- A new term, in the answer to `confirm_leadership`; then a request for a vote in this term, a
crash, and a request for a vote in the same term by another candidate. -/
def secondVote : List (LifeAction Recorder) :=
  [.call (.confirmResult ⟨5, false, none, none⟩), .call (.requestVote ⟨5, 2, 1, 1⟩),
    .crash .takeSnapshot 0 .new, .call (.requestVote ⟨5, 3, 1, 1⟩)]

/-- The election, a vote in a later term, and a crash in the middle of an election. -/
theorem run_votes_once_election : ∃ (ts : List _) (life : Life MemoryStorage Recorder),
    Run step ⟨.fresh 1 [2, 3] (.start .new) .new, []⟩ ts life ∧
      Statement.voted 5 2 ∈ life.history ∧ life.core.currentTerm = 6 ∧
      ∀ c, Statement.voted 5 c ∈ life.history → c = 2 := by
  obtain ⟨ts, life, hr, hP, hQ⟩ := exists_run step
    (⟨.fresh 1 [2, 3] (.start .new) .new, []⟩ : Life MemoryStorage Recorder)
    (election ++ [.call (.requestVote ⟨5, 2, 1, 1⟩), .crash .startElection 1 .new])
    (P := fun t => ¬ t.source.StepsDownInMemory t.action ∧ t.source.Fits t.action)
    (Q := fun life => Statement.voted 5 2 ∈ life.history ∧ life.core.currentTerm = 6) (by decide)
  have hnew : RaftCore.new 1 [2, 3] (Journal.start MemoryStorage.new) Recorder.new =
      .ok (.fresh 1 [2, 3] (.start .new) .new) := rfl
  have honce := run_votes_once hnew hr (fun t ht => (hP t ht).1) fun t ht => (hP t ht).2
  exact ⟨ts, life, hr, hQ.1, hQ.2, fun c hc => (honce.1 5 2 c hQ.1 hc).symm⟩

/-- **A second vote in one term**, and a restart into a term older than the one voted in. -/
theorem votes_twice : ∃ (ts : List _) (life : Life MemoryStorage Recorder),
    Run step ⟨.fresh 1 [2, 3] (.start .new) .new, []⟩ ts life ∧
      Statement.voted 5 2 ∈ life.history ∧ Statement.voted 5 3 ∈ life.history ∧
      ∃ t ∈ ts, Statement.voted 5 2 ∈ t.target.history ∧ t.target.core.currentTerm = 1 := by
  have heval : ∃ r ∈ trace step
      (⟨.fresh 1 [2, 3] (.start .new) .new, []⟩ : Life MemoryStorage Recorder)
      (election ++ secondVote), Statement.voted 5 2 ∈ r.2.history ∧
        Statement.voted 5 3 ∈ r.2.history ∧
        ∃ t ∈ r.1, Statement.voted 5 2 ∈ t.target.history ∧ t.target.core.currentTerm = 1 := by
    decide
  obtain ⟨r, hr, h⟩ := heval
  exact ⟨r.1, r.2, run_of_trace hr, h⟩

end Life

end RaftVibe
