/-
**Does the order of the acknowledgements matter?**

A leader that hears of a success looks at one entry only, the one that the reply is for.  An older
entry may reach a majority with this reply without anybody looking at it: with five nodes, replies
for 3 and then 2 commit the entry 2, and replies for 2 and then 3 commit nothing.  What is committed
in the end is what some reply was for at a moment when a majority had it.

Main definitions:

* `RaftVibe.Ack`, `RaftVibe.RaftCore.acknowledge` — success replies, handled one after the other;
* `RaftVibe.RaftCore.ackedIndex` — the match index of a peer after some replies;
* `RaftVibe.RaftCore.Committable`, `RaftVibe.RaftCore.greatestCommittable` — the entries of the
  leader's term that a majority has, and the last of them;
* `RaftVibe.RaftCore.CommitsAll` — what the leader should have committed and applied.

Main results:

* `RaftVibe.RaftCore.Acked.step` — **what one reply does**;
* `RaftVibe.RaftCore.commitsAll_iff` — **exactly when everything committable is committed**;
* `RaftVibe.RaftCore.CommitsAll.perm` — if it is, the order has not mattered.
-/

import Mathlib.Data.Nat.Find
import RaftVibe.Representation

set_option relaxedAutoImplicit false
set_option autoImplicit false

namespace RaftVibe

/-- A reply to an AppendEntries request, with the index that the request went up to. -/
structure Ack where
  peerId : ℕ
  entryIndex : ℕ
  result : AppendEntriesResult
deriving DecidableEq, Repr

/-- A success reply that a leader of this term accepts. -/
def Ack.Success (term : ℕ) (ack : Ack) : Prop :=
  ack.result.success = true ∧ ack.result.term ≤ term

instance (term : ℕ) (ack : Ack) : Decidable (ack.Success term) :=
  inferInstanceAs (Decidable (_ ∧ _))

namespace RaftCore

variable {σ μ : Type} {core core' : RaftCore σ μ} {acks acks' : List Ack} {ack : Ack}

/-- Handle the replies one after the other. -/
def acknowledge [Storage σ] [Snapshotable μ] (core : RaftCore σ μ) :
    List Ack → Except (Panic σ) (RaftCore σ μ)
  | [] => .ok core
  | ack :: rest => do
      let (core, _) ← core.handleAppendEntriesResult ack.peerId ack.entryIndex ack.result
      acknowledge core rest

/-! ### What should be committed -/

/-- The match index of a peer after the replies. -/
def ackedIndex (core : RaftCore σ μ) (acks : List Ack) (p : ℕ) : ℕ :=
  acks.foldl (fun m ack => if ack.peerId = p then max m ack.entryIndex else m)
    (core.matchIndex.getD p 0)

theorem ackedIndex_snoc (core : RaftCore σ μ) (acks : List Ack) (ack : Ack) (p : ℕ) :
    core.ackedIndex (acks ++ [ack]) p =
      if ack.peerId = p then max (core.ackedIndex acks p) ack.entryIndex
      else core.ackedIndex acks p := by
  rw [ackedIndex, List.foldl_append]
  rfl

/-- More replies only raise the match indices. -/
theorem ackedIndex_le_append (core : RaftCore σ μ) (acks more : List Ack) (p : ℕ) :
    core.ackedIndex acks p ≤ core.ackedIndex (acks ++ more) p := by
  induction more generalizing acks with
  | nil => rw [List.append_nil]
  | cons ack more ih =>
      rw [List.append_cons]
      refine le_trans ?_ (ih (acks ++ [ack]))
      rw [ackedIndex_snoc]
      split
      · exact le_max_left _ _
      · exact le_rfl

/-- The match indices do not depend on the order of the replies. -/
theorem ackedIndex_perm (core : RaftCore σ μ) (h : acks.Perm acks') (p : ℕ) :
    core.ackedIndex acks p = core.ackedIndex acks' p := by
  unfold ackedIndex
  refine h.foldl_eq' (fun a _ b _ m => ?_) _
  split <;> split <;> simp only [max_right_comm]

/-- The entry `n` is of the leader's own term, and after the replies the leader and the peers that
have it are a majority. -/
def Committable (core : RaftCore σ μ) (acks : List Ack) (n : ℕ) : Prop :=
  (core.getLogEntry n).map LogEntry.term = some core.currentTerm ∧
    (1 + core.peers.length) / 2 + 1 ≤ 1 + core.peers.countP fun p => n ≤ core.ackedIndex acks p

instance (core : RaftCore σ μ) (acks : List Ack) : DecidablePred (core.Committable acks) :=
  fun _ => inferInstanceAs (Decidable (_ ∧ _))

/-- An entry stays committable. -/
theorem Committable.append {n : ℕ} (h : core.Committable acks n) (more : List Ack) :
    core.Committable (acks ++ more) n := by
  refine ⟨h.1, h.2.trans (Nat.add_le_add_left (List.countP_mono_left fun p _ hp => ?_) 1)⟩
  simp only [decide_eq_true_eq] at hp ⊢
  exact hp.trans (ackedIndex_le_append core acks more p)

/-- The last committable entry, `0` if there is none. -/
def greatestCommittable (core : RaftCore σ μ) (acks : List Ack) : ℕ :=
  Nat.findGreatest (core.Committable acks) core.lastLogIndex

theorem Committable.le_greatest {n : ℕ} (hc : core.Contiguous) (h : core.Committable acks n) :
    n ≤ core.greatestCommittable acks := by
  obtain ⟨e, he, -⟩ := Option.map_eq_some_iff.1 h.1
  exact Nat.le_findGreatest (hc.le_lastLogIndex he) h

/-- The machine of a leader that has applied what follows up to `n`. -/
def machineAt [StateMachine μ] (core : RaftCore σ μ) (n : ℕ) : μ :=
  if core.commitIndex < n then
    foldCommands core.stateMachine
      ((core.log.filter fun e => core.lastApplied < e.index ∧ e.index ≤ n).map LogEntry.command)
  else core.stateMachine

/-- **Commit is complete**: the commit index is the larger of what it was and the last committable
entry, and the commands up to there are applied. -/
def CommitsAll [StateMachine μ] (core : RaftCore σ μ) (acks : List Ack) (core' : RaftCore σ μ) :
    Prop :=
  core'.commitIndex = max core.commitIndex (core.greatestCommittable acks) ∧
    core'.stateMachine = core.machineAt core'.commitIndex

/-- A leader that commits all that it can does not depend on the order of the replies. -/
theorem CommitsAll.perm [StateMachine μ] {core'' : RaftCore σ μ} (h : core.CommitsAll acks core')
    (h' : core.CommitsAll acks' core'') (hp : acks.Perm acks') :
    core'.commitIndex = core''.commitIndex ∧ core'.stateMachine = core''.stateMachine := by
  have hiff : ∀ n, core.Committable acks n ↔ core.Committable acks' n := fun n => by
    simp only [Committable, ackedIndex_perm core hp]
  have hsame : core.greatestCommittable acks = core.greatestCommittable acks' :=
    le_antisymm (Nat.findGreatest_mono_left (fun n => (hiff n).1) _)
      (Nat.findGreatest_mono_left (fun n => (hiff n).2) _)
  have hcommit : core'.commitIndex = core''.commitIndex := by rw [h.1, h'.1, hsame]
  exact ⟨hcommit, by rw [h.2, h'.2, hcommit]⟩

/-! ### What a reply does -/

/-- The map counts each peer once, and nobody else. -/
theorem replicatedCount_eq (hpeers : core.peers.Nodup)
    (hkeys : ∀ p ∈ core.matchIndex, p ∈ core.peers) {n : ℕ} (hn : 0 < n) :
    core.replicatedCount n = 1 + core.peers.countP fun p => n ≤ core.matchIndex.getD p 0 := by
  have hentries : (core.matchIndex.entries.countP fun e => e.2 ≥ n) =
      core.matchIndex.keys.countP fun p => n ≤ core.matchIndex.getD p 0 := by
    rw [AList.keys, List.keys, List.countP_map]
    refine List.countP_congr fun e he => ?_
    have hlookup : core.matchIndex.lookup e.1 = some e.2 := AList.mem_lookup_iff.2 he
    simp only [IndexMap.getD, Function.comp_apply, hlookup, Option.getD_some, ge_iff_le]
  have hperm : (core.matchIndex.keys.filter fun p => n ≤ core.matchIndex.getD p 0).Perm
      (core.peers.filter fun p => n ≤ core.matchIndex.getD p 0) := by
    refine (List.perm_ext_iff_of_nodup (core.matchIndex.keys_nodup.filter _)
      (hpeers.filter _)).2 fun p => ?_
    simp only [List.mem_filter, decide_eq_true_eq]
    refine ⟨fun h => ⟨hkeys p h.1, h.2⟩, fun h => ⟨?_, h.2⟩⟩
    -- a peer that is not in the map has the match index `0`
    by_contra hno
    have hle := h.2
    rw [IndexMap.getD, AList.lookup_eq_none.2 hno] at hle
    exact absurd hn (Nat.not_lt.2 hle)
  rw [replicatedCount, hentries, List.countP_eq_length_filter, List.countP_eq_length_filter,
    hperm.length_eq]

section Replies

variable [Storage σ] [Snapshotable μ]

omit [Storage σ] [Snapshotable μ] in
/-- What a success reply adds to the map. -/
theorem recordAppendResult_acked (hack : ack.result.success = true) (p : ℕ) :
    (core.recordAppendResult ack.peerId ack.entryIndex ack.result).matchIndex.getD p 0 =
      if ack.peerId = p then max (core.matchIndex.getD p 0) ack.entryIndex
      else core.matchIndex.getD p 0 := by
  split
  · rename_i hp
    subst hp
    exact recordAppendResult_getD core ack.peerId ack.entryIndex hack
  · rename_i hp
    exact (recordAppendResult_ne core ack.peerId ack.entryIndex ack.result (Ne.symm hp)).2

end Replies

/-! ### A sequence of replies -/

/-- One of the replies was for `n`, and with it a majority had `n`. -/
def Reached (core : RaftCore σ μ) (acks : List Ack) (n : ℕ) : Prop :=
  ∃ before ack after, acks = before ++ ack :: after ∧ ack.entryIndex = n ∧
    core.Committable (before ++ [ack]) n

theorem Reached.committable {n : ℕ} (h : core.Reached acks n) : core.Committable acks n := by
  obtain ⟨before, ack, after, rfl, -, hc⟩ := h
  have := hc.append after
  rwa [List.append_assoc] at this

theorem reached_snoc {n : ℕ} : core.Reached (acks ++ [ack]) n ↔
    core.Reached acks n ∨ (ack.entryIndex = n ∧ core.Committable (acks ++ [ack]) n) := by
  constructor
  · rintro ⟨before, a, after, heq, hn, hc⟩
    rcases List.eq_nil_or_concat' after with rfl | ⟨after, b, rfl⟩
    · obtain ⟨rfl, hsame⟩ := List.append_inj' heq rfl
      obtain rfl : ack = a := by simpa using hsame
      exact Or.inr ⟨hn, hc⟩
    · rw [← List.cons_append, ← List.append_assoc] at heq
      obtain ⟨rfl, -⟩ := List.append_inj' heq rfl
      exact Or.inl ⟨before, a, after, rfl, hn, hc⟩
  · rintro (⟨before, a, after, rfl, hn, hc⟩ | ⟨hn, hc⟩)
    · exact ⟨before, a, after ++ [ack], by simp, hn, hc⟩
    · exact ⟨acks, ack, [], rfl, hn, hc⟩

/-- **The invariant**: the leader `core'` has handled the replies since it was `core`, and it has
committed the last entry reached. -/
structure Acked [StateMachine μ] (core : RaftCore σ μ) (acks : List Ack) (core' : RaftCore σ μ) :
    Prop where
  wellFormed : core'.WellFormed
  state : core'.state = .leader
  term : core'.currentTerm = core.currentTerm
  peers : core'.peers = core.peers
  keys : ∀ p ∈ core'.matchIndex, p ∈ core.peers
  matched : ∀ p, core'.matchIndex.getD p 0 = core.ackedIndex acks p
  entries : ∀ i, core'.lastApplied < i → core'.getLogEntry i = core.getLogEntry i
  commit_le : core.commitIndex ≤ core'.commitIndex
  reached : core'.commitIndex = core.commitIndex ∨ core.Reached acks core'.commitIndex
  le_commit : ∀ n, core.Reached acks n → n ≤ core'.commitIndex
  applied : core'.lastApplied =
    if core.commitIndex < core'.commitIndex then core'.commitIndex else core.lastApplied
  machine : core'.stateMachine = core.machineAt core'.commitIndex

theorem acked_nil [StateMachine μ] (h : core.WellFormed) (hl : core.state = .leader)
    (hkeys : ∀ p ∈ core.matchIndex, p ∈ core.peers) : core.Acked [] core where
  wellFormed := h
  state := hl
  term := rfl
  peers := rfl
  keys := hkeys
  matched _ := rfl
  entries _ _ := rfl
  commit_le := le_rfl
  reached := Or.inl rfl
  le_commit := by
    rintro n ⟨before, ack, after, heq, -⟩
    simp at heq
  applied := by rw [if_neg (lt_irrefl _)]
  machine := by rw [machineAt, if_neg (lt_irrefl _)]

section Run

variable [Storage σ] [Snapshotable μ] [InfallibleStorage σ]

/-- The leader commits the entry of a reply. -/
theorem Acked.commits (h : core.Acked acks core') (hstart : core.WellFormed)
    (hcom : core.Committable (acks ++ [ack]) ack.entryIndex)
    (hlt : core'.commitIndex < ack.entryIndex) {next map : IndexMap} {core₂ core'' : RaftCore σ μ}
    (h₂ : core₂ = { core' with nextIndex := next, matchIndex := map })
    (hkeys : ∀ p ∈ map, p ∈ core.peers)
    (hmatched : ∀ p, core₂.matchIndex.getD p 0 = core.ackedIndex (acks ++ [ack]) p)
    (hready : WellFormed { core₂ with commitIndex := ack.entryIndex })
    {results : List (ℕ × ApplyResult)}
    (happly : applyCommittedEntries { core₂ with commitIndex := ack.entryIndex } =
      .ok (core'', results)) : core.Acked (acks ++ [ack]) core'' := by
  have hwf := applyCommittedEntries_wellFormed hready happly
  obtain ⟨es, hlen, hes, -, hcore''⟩ := applyCommittedEntries_ok happly
  subst h₂
  have hmax : max core'.lastApplied ack.entryIndex = ack.entryIndex :=
    max_eq_right (h.wellFormed.applied_le.trans hlt.le)
  simp only [hmax] at hlen hes hcore''
  have hcont : Indexed core.snapshotLastIndex core.log := hstart.contiguous
  have hstarts : core.snapshotLastIndex ≤ core.lastApplied ∧
      core.lastApplied ≤ core'.lastApplied := by
    refine ⟨hstart.snapshot_le, ?_⟩
    rw [h.applied]
    split
    · exact hstart.applied_le.trans h.commit_le
    · exact le_rfl
  have hcommit : core.commitIndex < ack.entryIndex := h.commit_le.trans_lt hlt
  -- what is applied are the entries that the log had from the beginning
  have hes' : (core.log.filter fun e => core'.lastApplied < e.index ∧ e.index ≤ ack.entryIndex) =
      es := by
    refine hstart.contiguous.filter_between (hstarts.1.trans hstarts.2) hlen fun k hk => ?_
    rw [← h.entries _ (by omega)]
    exact hes k hk
  have hmachine : foldCommands core'.stateMachine (es.map LogEntry.command) =
      core.machineAt ack.entryIndex := by
    have happlied := h.applied
    rw [h.machine, machineAt, machineAt, if_pos hcommit]
    split
    · rename_i hmoved
      rw [if_pos hmoved] at happlied
      rw [← foldCommands_append, ← List.map_append, ← hes', happlied,
        hcont.filter_between_append hstarts.1 (happlied ▸ hstarts.2) hlt.le]
    · rename_i hstill
      rw [if_neg hstill] at happlied
      rw [← hes', happlied]
  have hentries : ∀ i, ack.entryIndex < i → core''.getLogEntry i = core.getLogEntry i := by
    intro i hi
    have happlied := h.wellFormed.applied_le
    rw [← h.entries i (by omega), hcore'']
    rcases autoSnapshot_cases { core' with
        nextIndex := next
        matchIndex := map
        commitIndex := ack.entryIndex
        lastApplied := ack.entryIndex
        stateMachine := foldCommands core'.stateMachine (es.map LogEntry.command) } with heq | hc
    · rw [heq]
      rfl
    · exact hc.getLogEntry h.wellFormed.contiguous hi
  obtain ⟨s, i, t, l, heq⟩ := autoSnapshot_eq { core' with
    nextIndex := next
    matchIndex := map
    commitIndex := ack.entryIndex
    lastApplied := ack.entryIndex
    stateMachine := foldCommands core'.stateMachine (es.map LogEntry.command) }
  rw [heq] at hcore''
  subst hcore''
  refine ⟨hwf, h.state, h.term, h.peers, hkeys, hmatched, hentries, hcommit.le,
    Or.inr (reached_snoc.2 (Or.inr ⟨rfl, hcom⟩)), fun n hn => ?_, (if_pos hcommit).symm, hmachine⟩
  rcases reached_snoc.1 hn with hn | ⟨rfl, -⟩
  · exact (h.le_commit n hn).trans hlt.le
  · exact le_rfl

omit [Storage σ] [Snapshotable μ] [InfallibleStorage σ] in
/-- **The leader's check is what makes an entry reached**: once it has recorded a reply, the entry would
be committed exactly if a majority has it by then, and it is not committed yet. -/
theorem Acked.commitsEntry_iff [StateMachine μ] (h : core.Acked acks core')
    (hpeers : core.peers.Nodup) {next map : IndexMap} {core₂ : RaftCore σ μ}
    (h₂ : core₂ = { core' with nextIndex := next, matchIndex := map })
    (hkeys : ∀ p ∈ map, p ∈ core.peers)
    (hmatched : ∀ p, core₂.matchIndex.getD p 0 = core.ackedIndex (acks ++ [ack]) p) :
    core₂.CommitsEntry ack.entryIndex ↔
      core.Committable (acks ++ [ack]) ack.entryIndex ∧ core'.commitIndex < ack.entryIndex := by
  have hsame : core₂.currentTerm = core.currentTerm ∧ core₂.peers = core.peers ∧
      core₂.commitIndex = core'.commitIndex := by
    rw [h₂]
    exact ⟨h.term, h.peers, rfl⟩
  have hcount (hpos : 0 < ack.entryIndex) : core₂.replicatedCount ack.entryIndex =
      1 + core.peers.countP fun p => ack.entryIndex ≤ core.ackedIndex (acks ++ [ack]) p := by
    have hkeys₂ : ∀ p ∈ core₂.matchIndex, p ∈ core₂.peers := by
      rw [hsame.2.1, h₂]
      exact hkeys
    rw [replicatedCount_eq (hsame.2.1 ▸ hpeers) hkeys₂ hpos, hsame.2.1]
    simp only [hmatched]
  have hentry (hlt : core'.commitIndex < ack.entryIndex) :
      core₂.getLogEntry ack.entryIndex = core.getLogEntry ack.entryIndex := by
    rw [← h.entries _ (h.wellFormed.applied_le.trans_lt hlt), h₂]
    rfl
  unfold CommitsEntry Committable
  rw [hsame.1, hsame.2.1, hsame.2.2]
  constructor
  · rintro ⟨hpos, hterm, hmaj, hlt⟩
    exact ⟨⟨hentry hlt ▸ hterm, hcount hpos ▸ hmaj⟩, hlt⟩
  · rintro ⟨⟨hterm, hmaj⟩, hlt⟩
    have hpos := Nat.zero_lt_of_lt hlt
    exact ⟨hpos, (hentry hlt).symm ▸ hterm, (hcount hpos).symm ▸ hmaj, hlt⟩

/-- **One reply**: the leader handles it, and commits its entry if that is reached. -/
theorem Acked.step (h : core.Acked acks core') (hstart : core.WellFormed) (hpeers : core.peers.Nodup)
    (hack : ack.Success core.currentTerm) (hpeer : ack.peerId ∈ core.peers) :
    ∃ core'' out, core'.handleAppendEntriesResult ack.peerId ack.entryIndex ack.result =
      .ok (core'', out) ∧ core.Acked (acks ++ [ack]) core'' := by
  obtain ⟨core₂, h₂⟩ : ∃ core₂, core₂ =
    core'.recordAppendResult ack.peerId ack.entryIndex ack.result := ⟨_, rfl⟩
  have hmatched : ∀ p, core₂.matchIndex.getD p 0 = core.ackedIndex (acks ++ [ack]) p := by
    intro p
    rw [h₂, recordAppendResult_acked hack.1, h.matched, ackedIndex_snoc]
  obtain ⟨next, map, heq, hmap, -⟩ :=
    recordAppendResult_eq core' ack.peerId ack.entryIndex ack.result
  have hkeys : ∀ p ∈ map, p ∈ core.peers := by
    intro p hp
    rcases hmap with rfl | ⟨-, -, rfl⟩
    · exact h.keys p hp
    · rcases (AList.mem_insert _).1 hp with rfl | hp
      · exact hpeer
      · exact h.keys p hp
  rw [heq] at h₂
  have hwf : core₂.WellFormed := by
    rw [h₂]
    exact h.wellFormed.congr rfl rfl rfl rfl
  have hcheck : core₂.CommitsEntry ack.entryIndex ↔
      core.Committable (acks ++ [ack]) ack.entryIndex ∧ core'.commitIndex < ack.entryIndex :=
    h.commitsEntry_iff hpeers h₂ hkeys hmatched
  rcases handleAppendEntriesResult_of_leader h.state (h.term ▸ hack.2) (h₂.trans heq.symm) with
    ⟨hcommits, hrun⟩ | ⟨hno, hrun⟩
  · obtain ⟨hcom, hlt⟩ := hcheck.1 hcommits
    have hready : WellFormed { core₂ with commitIndex := ack.entryIndex } := by
      obtain ⟨e, he, -⟩ := Option.map_eq_some_iff.1 hcommits.2.1
      refine hwf.commit ?_ (hwf.contiguous.le_lastLogIndex he)
      rw [h₂]
      exact hlt.le
    obtain ⟨⟨core'', results⟩, happly⟩ := applyCommittedEntries_returns hready.contiguous
      hready.snapshot_le hready.commit_le
    refine ⟨core'', _, by rw [hrun, happly]; rfl, ?_⟩
    exact h.commits hstart hcom hlt h₂ hkeys hmatched hready happly
  · refine ⟨core₂, _, hrun, ?_⟩
    have hnew : ∀ n, core.Reached (acks ++ [ack]) n → n ≤ core'.commitIndex := by
      intro n hn
      rcases reached_snoc.1 hn with hn | ⟨rfl, hcom⟩
      · exact h.le_commit n hn
      · by_contra hgt
        exact hno (hcheck.2 ⟨hcom, not_le.1 hgt⟩)
    subst h₂
    exact ⟨hwf, h.state, h.term, h.peers, hkeys, hmatched, h.entries, h.commit_le,
      h.reached.imp_right fun hr => reached_snoc.2 (Or.inl hr), hnew, h.applied, h.machine⟩

/-- **A sequence of replies.** -/
theorem Acked.run (h : core.Acked acks core') (hstart : core.WellFormed)
    (hpeers : core.peers.Nodup)
    (hacks : ∀ ack ∈ acks', ack.Success core.currentTerm ∧ ack.peerId ∈ core.peers) :
    ∃ core'', core'.acknowledge acks' = .ok core'' ∧ core.Acked (acks ++ acks') core'' := by
  induction acks' generalizing acks core' with
  | nil => exact ⟨core', rfl, by rwa [List.append_nil]⟩
  | cons ack rest ih =>
      obtain ⟨hack, hpeer⟩ := hacks ack (List.mem_cons_self ..)
      obtain ⟨core₁, out, h₁, hacked⟩ := h.step hstart hpeers hack hpeer
      obtain ⟨core'', h₂, hacked'⟩ := ih hacked fun a ha => hacks a (List.mem_cons_of_mem _ ha)
      refine ⟨core'', ?_, by rwa [List.append_assoc] at hacked'⟩
      simp only [acknowledge, h₁, bind, Except.bind]
      exact h₂

/-- **Exactly when everything committable is committed**: the last entry that a majority has is
committed already, or some reply is for just this entry when a majority has it. -/
theorem commitsAll_iff (hwf : core.WellFormed) (hl : core.state = .leader)
    (hpeers : core.peers.Nodup) (hkeys : ∀ p ∈ core.matchIndex, p ∈ core.peers)
    (hacks : ∀ ack ∈ acks, ack.Success core.currentTerm ∧ ack.peerId ∈ core.peers) :
    ∃ core', core.acknowledge acks = .ok core' ∧
      (core.CommitsAll acks core' ↔
        (core.greatestCommittable acks ≤ core.commitIndex ∨
          ∃ before ack after, acks = before ++ ack :: after ∧
            ack.entryIndex = core.greatestCommittable acks ∧
            core.Committable (before ++ [ack]) (core.greatestCommittable acks))) := by
  obtain ⟨core', hrun, h⟩ := (acked_nil hwf hl hkeys).run hwf hpeers hacks
  rw [List.nil_append] at h
  refine ⟨core', hrun, ?_⟩
  have hle := h.commit_le
  have hmax {n : ℕ} (hn : core.Reached acks n) : n ≤ core.greatestCommittable acks :=
    hn.committable.le_greatest hwf.contiguous
  constructor
  · rintro ⟨hcommit, -⟩
    rcases h.reached with hsame | hreached
    · exact Or.inl (by omega)
    · rcases Nat.le_total (core.greatestCommittable acks) core.commitIndex with hg | hg
      · exact Or.inl hg
      · rw [max_eq_right hg] at hcommit
        exact Or.inr (hcommit ▸ hreached)
  · intro hcond
    refine ⟨?_, h.machine⟩
    rcases hcond with hg | hreached
    · rw [max_eq_left hg]
      rcases h.reached with hsame | hreached
      · exact hsame
      · exact le_antisymm ((hmax hreached).trans hg) hle
    · have hge := h.le_commit _ hreached
      rcases h.reached with hsame | hreached'
      · rw [hsame] at hge ⊢
        exact (max_eq_left hge).symm
      · have := hmax hreached'
        omega

end Run

/-- The leader of a cluster of five, in term 1, with three entries that nobody else has. -/
def leaderOfThree : RaftCore MemoryStorage Recorder :=
  { RaftCore.fresh 1 [2, 3, 4, 5] MemoryStorage.new Recorder.new with
    currentTerm := 1
    state := .leader
    log := [⟨1, 1, noopCommand⟩, ⟨1, 2, "SET x 1"⟩, ⟨1, 3, "SET x 2"⟩] }

theorem leaderOfThree_wellFormed : leaderOfThree.WellFormed :=
  ⟨show Indexed 0 leaderOfThree.log by decide, by decide, by decide, by decide⟩

/-- A success of the peer for the entry. -/
def acked (peerId entryIndex : ℕ) : Ack := ⟨peerId, entryIndex, ⟨1, true, none, none⟩⟩

/-- A later reply for the entry 2 commits it after all. -/
theorem commitsAll_repeated : ∃ core', leaderOfThree.acknowledge [acked 3 2, acked 2 3, acked 4 2] =
    .ok core' ∧ leaderOfThree.CommitsAll [acked 3 2, acked 2 3, acked 4 2] core' := by
  have hacks : ∀ ack ∈ [acked 3 2, acked 2 3, acked 4 2],
      ack.Success leaderOfThree.currentTerm ∧ ack.peerId ∈ leaderOfThree.peers := by decide
  obtain ⟨core', hrun, hiff⟩ := commitsAll_iff leaderOfThree_wellFormed rfl (by decide)
    (by rintro p ⟨⟩) hacks
  exact ⟨core', hrun, hiff.2 (Or.inr ⟨[acked 3 2, acked 2 3], acked 4 2, [], rfl, by decide,
    by decide⟩)⟩

/-- **The order matters**: the same two replies commit the entry 2 in one order, and nothing in the
other. -/
theorem commit_depends_on_order : ∃ core' core'' : RaftCore MemoryStorage Recorder,
    leaderOfThree.acknowledge [acked 3 2, acked 2 3] = .ok core' ∧
      leaderOfThree.acknowledge [acked 2 3, acked 3 2] = .ok core'' ∧
      core'.commitIndex = 0 ∧ core''.commitIndex = 2 ∧ core'.stateMachine ≠ core''.stateMachine ∧
      leaderOfThree.greatestCommittable [acked 3 2, acked 2 3] = 2 ∧
      ¬ leaderOfThree.CommitsAll [acked 3 2, acked 2 3] core' := by
  refine ⟨_, _, rfl, rfl, rfl, rfl, by decide, by decide, fun h => ?_⟩
  exact absurd h.1 (by decide)

end RaftCore

end RaftVibe
