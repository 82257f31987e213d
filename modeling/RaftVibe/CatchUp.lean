/-
**A follower catches up, whatever the two nodes have compacted.**

Each node takes its own snapshots.  A leader that nothing disturbs sends heartbeats to one follower
until that one has its log: rejections take `next_index` down to where the logs agree, or into the
leader's snapshot, which is then installed.  A follower that has more entries, and none that
conflict, keeps them.

This rests on five conditions.  The logs match; the leader has its snapshot in the storage; and it has
committed what its `match_index` shows.  The other two leave out three states in which the code does
not do this.  If the leader needs to send its snapshot and the follower has one that is as new, the
follower answers `Failed`, the leader ignores that, and the two repeat the same exchange for ever.  A
follower keeps the entries above a snapshot even if they do not continue it.  And a conflict above a
snapshot is cut off in the wrong place.

Main definitions:

* `RaftVibe.Pair.Lags` — a leader and a follower, with what either may rely on;
* `RaftVibe.Pair.Condition`, `RaftVibe.Pair.Condition.Holds` — the five conditions;
* `RaftVibe.Pair.NeverCaughtUp` — a follower that never gets the leader's log.

Main results:

* `RaftVibe.Pair.Lagging.step` — **what one round does**;
* `RaftVibe.Pair.catch_up` — **after finitely many rounds the logs are merged**;
* `RaftVibe.Pair.never_caught_up` — none of the conditions can be left out.
-/

import RaftVibe.Exchange
import RaftVibe.HintScans

set_option relaxedAutoImplicit false
set_option autoImplicit false

namespace RaftVibe

open ReplicatedLog

/-! ### Logs that agree -/

/-- One log is a prefix of the other. -/
def Agree (F L : List LogEntry) : Prop := F <+: L ∨ L <+: F

instance (F L : List LogEntry) : Decidable (Agree F L) :=
  inferInstanceAs (Decidable (_ ∨ _))

theorem Agree.getElem? {F L : List LogEntry} (h : Agree F L) {n : ℕ} {x y : LogEntry}
    (hx : F[n]? = some x) (hy : L[n]? = some y) : x = y := by
  have hF := (List.getElem?_eq_some_iff.1 hx).1
  have hL := (List.getElem?_eq_some_iff.1 hy).1
  rcases h with ⟨l, rfl⟩ | ⟨l, rfl⟩
  · rw [List.getElem?_append_left hF, hx] at hy
    exact Option.some.inj hy
  · rw [List.getElem?_append_left hL, hy] at hx
    exact (Option.some.inj hx).symm

theorem Agree.take_eq {F L : List LogEntry} (h : Agree F L) {n : ℕ} (hF : n ≤ F.length)
    (hL : n ≤ L.length) : F.take n = L.take n := by
  rcases h with ⟨l, rfl⟩ | ⟨l, rfl⟩
  · rw [List.take_append_of_le_length hF]
  · rw [List.take_append_of_le_length hL]

/-- Logs that agree do not conflict. -/
theorem Agree.not_conflicts {F L : List LogEntry} (h : Agree F L) (hL : Indexed 0 L) (r : ℕ) :
    ∀ e ∈ L, ¬ Conflicts r (F.drop r) e := by
  rintro e he ⟨hlt, x, hx, hne⟩
  obtain ⟨-, -, hget⟩ := hL.mem he
  rw [Option.mem_def, List.getElem?_drop] at hx
  refine hne (congrArg LogEntry.term (h.getElem? (n := e.index - 1) ?_ hget))
  rwa [show r + (e.index - r - 1) = e.index - 1 by omega] at hx

/-- A log that agrees with a prefix of another at least as long as itself is a prefix. -/
theorem Agree.of_take {F L : List LogEntry} {n : ℕ} (h : F.take n = L.take n)
    (hn : F.length ≤ n) : Agree F L := by
  rw [List.take_of_length_le hn] at h
  exact Or.inl (h ▸ List.take_prefix n L)

/-! ### The snapshot -/

namespace RaftCore

variable {σ μ : Type} {core : RaftCore σ μ} {L : List LogEntry}

/-- A leader that knows the term from the end of its snapshot does not miss it. -/
theorem findLastIndexForTerm_ne_none (h : 0 < core.snapshotLastIndex) :
    core.findLastIndexForTerm core.snapshotLastTerm ≠ none := by
  unfold findLastIndexForTerm
  split
  · simp
  · rw [if_pos ⟨rfl, h⟩]
    simp

variable [Storage σ] [Snapshotable μ]

/-- The node can send its snapshot: it is stored, as the state machine has written it. -/
def CanSend (core : RaftCore σ μ) : Prop :=
  ∃ data, Storage.loadSnapshot core.storage =
      .ok (some ⟨⟨core.snapshotLastIndex, core.snapshotLastTerm⟩, data⟩) ∧
    ∃ m : μ, Snapshotable.snapshot m = .ok data

/-- **A follower installs a newer snapshot** of a leader that is no older. -/
theorem handleInstallSnapshot_installs [InfallibleStorage σ] (core : RaftCore σ μ)
    (args : InstallSnapshotArgs)
    (hterm : core.currentTerm ≤ args.term) (hnew : core.snapshotLastIndex < args.lastIncludedIndex)
    (hrestore : ∀ m : μ, ∃ m', Snapshotable.restore m args.data = .ok m') :
    ∃ core', core.handleInstallSnapshot args = .ok (core', .success args.term) ∧
      core'.currentTerm = args.term ∧ core'.snapshotLastIndex = args.lastIncludedIndex ∧
      core'.snapshotLastTerm = args.lastIncludedTerm ∧
      core'.lastApplied = max core.lastApplied args.lastIncludedIndex ∧
      core'.log = core.log.filter fun e => e.index > args.lastIncludedIndex := by
  obtain ⟨core₁, h₁⟩ := observeTerm_returns core args.term
  have hterm₁ : core₁.currentTerm = args.term := by
    rw [observeTerm_currentTerm h₁, max_eq_right hterm]
  have hsame : core₁.log = core.log ∧ core₁.snapshotLastIndex = core.snapshotLastIndex ∧
      core₁.lastApplied = core.lastApplied := by
    rcases observeTerm_ok h₁ with ⟨-, rfl⟩ | ⟨-, s, -, rfl⟩ <;> exact ⟨rfl, rfl, rfl⟩
  obtain ⟨hlog, hsli, happlied⟩ := hsame
  obtain ⟨m, hm⟩ := hrestore core₁.stateMachine
  cases hsave : Storage.saveSnapshot core₁.storage
      ⟨⟨args.lastIncludedIndex, args.lastIncludedTerm⟩, args.data⟩ with
  | mk result st =>
      have hok := InfallibleStorage.saveSnapshot_ok core₁.storage
        ⟨⟨args.lastIncludedIndex, args.lastIncludedTerm⟩, args.data⟩
      rw [hsave] at hok
      simp only at hok
      rw [handleInstallSnapshot, if_neg (by omega), h₁]
      simp only [bind, Except.bind, hsli, if_neg (Nat.not_le.2 hnew), hsave, hok, hm, expectRestore,
        pure, Except.pure, hterm₁, hlog, happlied]
      exact ⟨_, rfl, rfl, rfl, rfl, rfl, rfl⟩

end RaftCore

namespace Pair

variable {σ μ : Type} {peer : ℕ} {L F : List LogEntry} {p : Pair σ μ} {r : Round σ μ}

/-! ### What the two nodes rely on -/

/-- **A leader with the log `L` and a follower with the log `F`**, well formed; the follower is no
newer, what it has committed is in `L`, and `next_index` is within the leader's log. -/
structure Lags (peer : ℕ) (L F : List LogEntry) (p : Pair σ μ) : Prop where
  leading : p.leader.state = .leader
  leader : p.leader.Represents L
  follower : p.follower.Represents F
  leader_wellFormed : p.leader.WellFormed
  follower_wellFormed : p.follower.WellFormed
  term_le : p.follower.currentTerm ≤ p.leader.currentTerm
  committed : p.follower.commitIndex ≤ L.length ∧
    F.take p.follower.commitIndex = L.take p.follower.commitIndex
  next_pos : 1 ≤ p.next peer
  next_le : p.next peer ≤ p.leader.lastLogIndex + 1

/-- A leader whose snapshot is no newer than the follower's does not need to send it. -/
def Newer (peer : ℕ) (p : Pair σ μ) : Prop :=
  0 < p.leader.snapshotLastIndex → p.leader.snapshotLastIndex ≤ p.follower.snapshotLastIndex →
    p.follower.snapshotLastIndex < p.next peer

/-- The follower has nothing above the leader's snapshot, or agrees with it, and has no conflict above
a snapshot of either. -/
def Follows (peer : ℕ) (L F : List LogEntry) (p : Pair σ μ) : Prop :=
  F.length ≤ p.leader.snapshotLastIndex ∨
    (F.take p.leader.snapshotLastIndex = L.take p.leader.snapshotLastIndex ∧
      (Agree F L ∨ (p.follower.snapshotLastIndex = 0 ∧ p.leader.snapshotLastIndex < p.next peer)))

instance (peer : ℕ) (p : Pair σ μ) : Decidable (p.Newer peer) :=
  inferInstanceAs (Decidable (_ → _ → _))

instance (peer : ℕ) (L F : List LogEntry) (p : Pair σ μ) : Decidable (p.Follows peer L F) :=
  inferInstanceAs (Decidable (_ ∨ _))

/-- What catching up rests on besides: five conditions on the two nodes. -/
inductive Condition
  | matching
  | sends
  | settled
  | newer
  | follows
deriving DecidableEq, Repr

/-- **The five conditions**: the logs match; the leader can send its snapshot, and has committed what
its `match_index` shows; and none of the three states that are left out. -/
def Condition.Holds [Storage σ] [Snapshotable μ] (peer : ℕ) (L F : List LogEntry)
    (p : Pair σ μ) : Condition → Prop
  | matching => RaftCore.LogMatching F L
  | sends => 0 < p.leader.snapshotLastIndex → p.leader.CanSend
  | settled => p.leader.Settled
  | newer => p.Newer peer
  | follows => p.Follows peer L F

/-- What holds between two rounds. -/
structure Lagging [Storage σ] [Snapshotable μ] (peer : ℕ) (L F : List LogEntry) (p : Pair σ μ) :
    Prop where
  exchanging : p.Exchanging peer L F
  sends : 0 < p.leader.snapshotLastIndex → p.leader.CanSend
  settled : p.leader.Settled
  covered : p.follower.snapshotLastIndex ≤ L.length ∧
    F.take p.follower.snapshotLastIndex = L.take p.follower.snapshotLastIndex
  newer : p.Newer peer
  follows : p.Follows peer L F

theorem Lags.lagging [Storage σ] [Snapshotable μ] (h : p.Lags peer L F)
    (hc : ∀ c : Condition, c.Holds peer L F p) : p.Lagging peer L F := by
  have hsc : p.follower.snapshotLastIndex ≤ p.follower.commitIndex :=
    h.follower_wellFormed.snapshot_le.trans h.follower_wellFormed.applied_le
  refine ⟨⟨h.leading, ⟨h.leader, h.leader_wellFormed.snapshot_le⟩,
    ⟨h.follower, h.follower_wellFormed.snapshot_le⟩, h.term_le, hc .matching, h.next_pos,
    h.leader.lastLogIndex ▸ h.next_le⟩, hc .sends, hc .settled, ⟨hsc.trans h.committed.1, ?_⟩,
    hc .newer, hc .follows⟩
  exact take_eq_take_of_le h.committed.2 hsc

/-! ### Rejections -/

/-- **A hint does not point below what both logs share**: not below an index up to which they agree
and which both snapshots stay below, if they agree further or the leader's snapshot ends there. -/
theorem Refused.le_next (h : Refused peer L F r) (hsrc : r.source.Exchanging peer L F) {b : ℕ}
    (hb : b < r.source.next peer) (hL : r.source.leader.snapshotLastIndex ≤ b)
    (hF : r.source.follower.snapshotLastIndex ≤ b) (hlen : b ≤ F.length)
    (hagree : F.take b = L.take b)
    (hor : Agree F L ∨ b = r.source.leader.snapshotLastIndex) : b < r.target.next peer := by
  obtain ⟨conflictTerm, conflictIndex, hhint, hnext⟩ := h.hint
  have hno := h.not_agree hsrc
  have hrep := h.target.follower.log
  have hsli := h.follower.snapshotLastIndex
  have hle := hsrc.next_le
  have hne : b ≠ r.source.next peer - 1 := by
    rintro rfl
    exact hno hF hagree
  generalize hn : r.source.next peer - 1 = n at *
  have hbn : b < n := by omega
  cases hhint with
  | short hlast =>
      rw [hrep.lastLogIndex] at hlast hnext
      simp only [RaftCore.hintedNext] at hnext
      omega
  | boundary _ hboundary => omega
  | compacted _ hlast hne' hnone =>
      obtain ⟨e, he⟩ := hrep.contiguous.exists_getLogEntry (i := n) (by omega) hlast
      rw [hnone] at he
      exact absurd he (by simp)
  | conflict entry _ _ he _ =>
      obtain ⟨-, hFn⟩ := hrep.getLogEntry_iff.1 he
      have hFlen := (List.getElem?_eq_some_iff.1 hFn).1
      rcases hor with hall | rfl
      · exact (hno (by omega) (hall.take_eq (by omega) (by omega))).elim
      · cases hscan : r.source.leader.findLastIndexForTerm entry.term with
        | some i =>
            have := RaftCore.findLastIndexForTerm_ge hsrc.leader.log.contiguous hscan
            simp only [RaftCore.hintedNext, hscan] at hnext
            omega
        | none =>
            obtain ⟨hfirst, hstretch⟩ := RaftCore.findFirstIndexForTerm_stretch he rfl
            simp only [RaftCore.hintedNext, hscan, Option.getD_some] at hnext
            by_contra hlt
            -- else the leader's snapshot ends with the term it was asked for
            generalize hs : r.source.leader.snapshotLastIndex = s at *
            obtain ⟨x, hx, hxt⟩ := hstretch s (by omega) (by omega)
            obtain ⟨hpos, hFs⟩ := hrep.getLogEntry_iff.1 hx
            have hlast := lastTerm_take hFs
            rw [show s - 1 + 1 = s by omega, hagree] at hlast
            have hterm := hsrc.leader.log.term_eq
            rw [hs, hlast, hxt] at hterm
            rw [← hterm] at hscan
            exact RaftCore.findLastIndexForTerm_ne_none (by omega) hscan

section Run

variable [Storage σ] [Snapshotable μ]

/-- **A rejection keeps the state between the rounds.** -/
theorem Refused.lagging (h : Refused peer L F r) (hsrc : r.source.Lagging peer L F) :
    r.target.Lagging peer L F := by
  obtain ⟨hle, hagree⟩ := hsrc.covered
  have hfs := h.follower.snapshotLastIndex
  have hlenF := hsrc.exchanging.follower.log.snapshot_le
  obtain ⟨next, hleader⟩ := h.settled hsrc.settled
  have hls : r.target.leader.snapshotLastIndex = r.source.leader.snapshotLastIndex := by
    rw [hleader]
  refine ⟨h.target, ?_, ?_, ?_, ?_, ?_⟩
  · intro hpos
    rw [hls] at hpos
    rw [hleader]
    exact hsrc.sends hpos
  · rw [hleader]
    exact hsrc.settled
  · rw [hfs]
    exact ⟨hle, hagree⟩
  · intro hpos hSR
    rw [hls] at hpos hSR
    rw [hfs] at hSR ⊢
    refine h.le_next hsrc.exchanging (hsrc.newer hpos hSR) hSR le_rfl hlenF hagree ?_
    rcases hsrc.follows with hshort | ⟨-, hall | ⟨h0, -⟩⟩
    · exact Or.inl (Agree.of_take hagree (by omega))
    · exact Or.inl hall
    · omega
  · unfold Follows
    rw [hls, hfs]
    rcases hsrc.follows with hshort | ⟨hpre, hall | ⟨h0, hlt⟩⟩
    · exact Or.inl hshort
    · exact Or.inr ⟨hpre, Or.inl hall⟩
    · rcases Nat.le_total F.length r.source.leader.snapshotLastIndex with hshort | hlong
      · exact Or.inl hshort
      · exact Or.inr ⟨hpre, Or.inr ⟨h0, h.le_next hsrc.exchanging hlt le_rfl (by omega) hlong hpre
          (Or.inr rfl)⟩⟩

/-! ### Installing the snapshot -/

variable [InfallibleStorage σ] [LawfulSnapshotable μ]

/-- What a follower holds after the leader's snapshot: its own log, if that is longer. -/
def afterSnapshot (s : ℕ) (L F : List LogEntry) : List LogEntry :=
  if F.length ≤ s then L.take s else F

/-- **A round that installs the leader's snapshot** leaves the follower with a log that agrees with
the leader's, and `next_index` at the end of the snapshot. -/
theorem Lagging.install (h : p.Lagging peer L F)
    (hS : p.next peer ≤ p.leader.snapshotLastIndex) :
    ∃ r, p.round peer = .ok r ∧ r.source = p ∧
      r.target.Exchanging peer L (afterSnapshot p.leader.snapshotLastIndex L F) ∧
      r.target.next peer = p.leader.snapshotLastIndex + 1 ∧
      r.target.leader.snapshotLastIndex = p.leader.snapshotLastIndex ∧
      r.target.follower.snapshotLastIndex = p.leader.snapshotLastIndex := by
  have hpos := h.exchanging.next_pos
  have hnext : p.leader.nextIndex.getD peer 1 = p.next peer := rfl
  have hrepL := h.exchanging.leader.log
  have hrepF := h.exchanging.follower.log
  have hterm := h.exchanging.term_le
  have hsL := hrepL.snapshot_le
  obtain ⟨data, hload, m, hdata⟩ := h.sends (by omega)
  have hnew : p.follower.snapshotLastIndex < p.leader.snapshotLastIndex := by
    by_contra hge
    have := h.newer (by omega) (by omega)
    omega
  obtain ⟨args, hreq, hargs⟩ : ∃ args, p.leader.heartbeatRequest peer =
      some (.installSnapshot args) ∧ args = ⟨p.leader.currentTerm, p.leader.id,
        p.leader.snapshotLastIndex, p.leader.snapshotLastTerm, data⟩ := by
    refine ⟨_, ?_, rfl⟩
    simp only [RaftCore.heartbeatRequest, hnext]
    rw [if_pos hS, hload]
  obtain ⟨follower, hinstall, hfterm, hfs, hft, hfa, hfl⟩ :=
    p.follower.handleInstallSnapshot_installs args (by rwa [hargs]) (by rwa [hargs])
      fun m' => ⟨m, LawfulSnapshotable.restore_snapshot m' (by rwa [hargs])⟩
  simp only [hargs] at hreq hinstall hfterm hfs hft hfa hfl
  have hnew' : Pair.next ⟨p.leader.handleInstallSnapshotResult peer p.leader.snapshotLastIndex
      (.success p.leader.currentTerm), follower⟩ peer = p.leader.snapshotLastIndex + 1 :=
    IndexMap.getD_insert_self _ _ _ _
  refine ⟨⟨p, some (.installSnapshot (.success p.leader.currentTerm)),
    ⟨p.leader.handleInstallSnapshotResult peer p.leader.snapshotLastIndex
      (.success p.leader.currentTerm), follower⟩⟩, ?_, rfl, ?_, hnew', rfl, hfs⟩
  · rw [Pair.round, if_neg (not_not.2 h.exchanging.leading), hreq]
    simp only [Server.receive, hinstall, handleReply, bind, Except.bind, pure, Except.pure]
  · have hrep : follower.Represents (afterSnapshot p.leader.snapshotLastIndex L F) ∧
        RaftCore.LogMatching (afterSnapshot p.leader.snapshotLastIndex L F) L := by
      unfold afterSnapshot
      split
      · rename_i hshort
        have hcont : Indexed p.follower.snapshotLastIndex p.follower.log := hrepF.contiguous
        have hlen := hrepF.length_eq
        refine ⟨⟨hrepL.indexed.take _, ?_, ?_, ?_⟩, ((RaftCore.LogMatching.refl L).take _).symm⟩
        · rw [hfs, List.length_take, min_eq_left hsL]
        · rw [hfl, hfs, hcont.filter_gt, List.drop_of_length_le, List.drop_of_length_le]
          · rw [List.length_take]
            omega
          · omega
        · rw [hft, hfs, List.take_take, min_self, ← hrepL.term_eq]
      · rename_i hlong
        have hpre := (h.follows.resolve_left hlong).1
        refine ⟨hrepF.cut hnew.le (by omega) hfl hfs ?_, h.exchanging.matching⟩
        rw [hft, hpre, ← hrepL.term_eq]
    refine ⟨h.exchanging.leading, h.exchanging.leader.congr ⟨rfl, rfl, rfl, rfl, rfl⟩,
      ⟨hrep.1, ?_⟩, hfterm.le, hrep.2, ?_, ?_⟩
    · rw [hfs, hfa]
      exact le_max_right _ _
    · rw [hnew']
      omega
    · rw [hnew']
      omega

/-! ### Catching up -/

/-- A shorter log gives way to the leader's. -/
theorem merge_eq_of_length_le (h : F.length ≤ L.length) : merge F L = L := by
  by_cases hpre : L <+: F
  · rw [merge_eq_left hpre, hpre.eq_of_length_le h]
  · exact merge_eq_right hpre

omit [LawfulSnapshotable μ] in
/-- The round that sends entries. -/
theorem Exchanging.accept (h : p.Exchanging peer L F)
    (hS : p.leader.snapshotLastIndex < p.next peer)
    (hcov : p.follower.snapshotLastIndex ≤ L.length ∧
      F.take p.follower.snapshotLastIndex = L.take p.follower.snapshotLastIndex)
    (hagree : F.take (p.next peer - 1) = L.take (p.next peer - 1) →
      0 < p.follower.snapshotLastIndex → Agree F L) :
    ∃ r, p.round peer = .ok r ∧ r.source = p ∧ (Refused peer L F r ∨ Merged peer L F r) := by
  refine h.round hS (by rw [min_eq_left hcov.1, hcov.2]) fun hpre hpos e he => ?_
  rw [h.follower.log.log_eq]
  exact (hagree hpre hpos).not_conflicts h.leader.log.indexed _ e (List.mem_of_mem_drop he)

/-- **What one round does**: the follower refuses, and `next_index` goes down; or it takes the
leader's log over; or it installs the leader's snapshot, and takes the log over in the next round. -/
theorem Lagging.step (h : p.Lagging peer L F) :
    (∃ r, p.round peer = .ok r ∧ r.target.Lagging peer L F ∧ r.target.next peer < p.next peer) ∨
    ∃ n rs p', rounds peer n p = .ok (rs, p') ∧ p'.follower.Represents (merge F L) := by
  rcases Nat.lt_or_ge p.leader.snapshotLastIndex (p.next peer) with hS | hS
  · obtain ⟨r, hr, rfl, href | hmer⟩ := h.exchanging.accept hS h.covered fun hpre hpos => by
      rcases h.follows with hshort | ⟨-, hall | ⟨h0, -⟩⟩
      · exact Agree.of_take hpre (by omega)
      · exact hall
      · omega
    · exact Or.inl ⟨r, hr, href.lagging h, href.next_lt⟩
    · exact Or.inr ⟨1, [r], r.target, rounds_succ hr rfl, hmer.target.follower.log⟩
  · right
    obtain ⟨r, hr, rfl, hex, hnext, hls, hfs⟩ := h.install hS
    have hsL := h.exchanging.leader.log.snapshot_le
    have hagree : (afterSnapshot r.source.leader.snapshotLastIndex L F).take
        r.source.leader.snapshotLastIndex = L.take r.source.leader.snapshotLastIndex ∧
        Agree (afterSnapshot r.source.leader.snapshotLastIndex L F) L ∧
        merge (afterSnapshot r.source.leader.snapshotLastIndex L F) L = merge F L := by
      unfold afterSnapshot
      split
      · rename_i hshort
        refine ⟨by rw [List.take_take, min_self], Or.inl (List.take_prefix _ _), ?_⟩
        rw [merge_eq_of_prefix_right (List.take_prefix _ _),
          merge_eq_of_length_le (hshort.trans hsL)]
      · rename_i hlong
        obtain ⟨hpre, hall | ⟨-, hlt⟩⟩ := h.follows.resolve_left hlong
        · exact ⟨hpre, hall, rfl⟩
        · exact absurd hlt (Nat.not_lt.2 hS)
    obtain ⟨r', hr', hsrc, href | hmer⟩ := hex.accept (by omega)
      (by rw [hfs]; exact ⟨hsL, hagree.1⟩) fun _ _ => hagree.2.1
    · rw [← hsrc] at hex hnext hfs
      refine (href.not_agree hex (by omega) ?_).elim
      rw [hnext, Nat.add_sub_cancel]
      exact hagree.1
    · exact ⟨2, [r, r'], r'.target, rounds_succ hr (rounds_succ hr' rfl),
        hagree.2.2 ▸ hmer.target.follower.log⟩

/-- **Catching up**: after finitely many rounds the follower has the leader's log, or its own if
that one extends it. -/
theorem catch_up (h : p.Lags peer L F) (hc : ∀ c : Condition, c.Holds peer L F p) :
    ∃ n rs p', rounds peer n p = .ok (rs, p') ∧ p'.follower.Represents (merge F L) := by
  have hl := h.lagging hc
  clear h hc
  -- by induction on `next_index`
  generalize hn : p.next peer = n
  induction n using Nat.strong_induction_on generalizing p with
  | h n ih =>
      rcases hl.step with ⟨r, hr, hl', hlt⟩ | hdone
      · obtain ⟨k, rs, p', hrs, hrep⟩ := ih _ (hn ▸ hlt) hl' rfl
        exact ⟨k + 1, r :: rs, p', rounds_succ hr hrs, hrep⟩
      · exact hdone

/-! ### Never catching up -/

/-- The follower never gets the log `L`. -/
def Never (peer : ℕ) (L : List LogEntry) (p : Pair σ μ) : Prop :=
  ∀ n rs p', rounds peer n p = .ok (rs, p') → ¬ p'.follower.Represents L

/-- **The follower never gets the leader's log**, although all of the conditions hold but the given
ones. -/
def NeverCaughtUp (peer : ℕ) (L F : List LogEntry) (p : Pair σ μ) (broken : List Condition) :
    Prop :=
  p.Lags peer L F ∧ (∀ c : Condition, c ∉ broken → c.Holds peer L F p) ∧ p.Never peer L

omit [InfallibleStorage σ] [LawfulSnapshotable μ]

/-- From pairs that lead to each other the rounds do not get out. -/
theorem mem_of_rounds {S : List (Pair σ μ)}
    (hclosed : ∀ q ∈ S, ∃ reply, ∃ q' ∈ S, q.round peer = .ok ⟨q, reply, q'⟩) (hp : p ∈ S) {n : ℕ}
    {rs : List (Round σ μ)} {p' : Pair σ μ} (hrs : rounds peer n p = .ok (rs, p')) : p' ∈ S := by
  induction n generalizing p rs with
  | zero =>
      obtain rfl := (Prod.mk.inj (Except.ok.inj hrs)).2
      exact hp
  | succ n ih =>
      obtain ⟨reply, q, hq, hround⟩ := hclosed p hp
      rw [rounds, hround] at hrs
      simp only [Except.bind_eq_ok, Except.ok.injEq, exists_eq_left', Except.pure_eq_ok,
        Prod.mk.injEq, Prod.exists] at hrs
      obtain ⟨us, _, hrs, -, rfl⟩ := hrs
      exact ih hq hrs

/-- Two pairs that lead to each other, or one that leads to itself. -/
theorem never_of_swap {q : Pair σ μ} {reply reply' : Option Reply}
    (h : p.round peer = .ok ⟨p, reply, q⟩) (h' : q.round peer = .ok ⟨q, reply', p⟩)
    (hp : p.follower.log ≠ L.drop p.follower.snapshotLastIndex)
    (hq : q.follower.log ≠ L.drop q.follower.snapshotLastIndex) : p.Never peer L := by
  intro n rs p' hrs hrep
  have hmem : p' ∈ [p, q] := by
    refine mem_of_rounds (fun x hx => ?_) (List.mem_cons_self ..) hrs
    rcases List.mem_pair.1 hx with rfl | rfl
    · exact ⟨reply, q, by simp, h⟩
    · exact ⟨reply', p, by simp, h'⟩
  rcases List.mem_pair.1 hmem with rfl | rfl
  · exact hp hrep.log_eq
  · exact hq hrep.log_eq

/-- A pair that leads to one that never gets there. -/
theorem Never.of_round {q : Pair σ μ} (hq : q.Never peer L) {reply : Option Reply}
    (h : p.round peer = .ok ⟨p, reply, q⟩)
    (hp : p.follower.log ≠ L.drop p.follower.snapshotLastIndex) : p.Never peer L := by
  intro n rs p' hrs hrep
  cases n with
  | zero =>
      obtain rfl := (Prod.mk.inj (Except.ok.inj hrs)).2
      exact hp hrep.log_eq
  | succ n =>
      rw [rounds, h] at hrs
      simp only [Except.bind_eq_ok, Except.ok.injEq, exists_eq_left', Except.pure_eq_ok,
        Prod.mk.injEq, Prod.exists] at hrs
      obtain ⟨us, _, hrs, -, rfl⟩ := hrs
      exact hq n us _ hrs hrep

end Run

/-! ### Concrete pairs -/

/-- A leader with two peers. -/
def leaderWith (term : ℕ) (log : List LogEntry) (next : ℕ) : RaftCore MemoryStorage Recorder :=
  { RaftCore.fresh 1 [2, 3] MemoryStorage.new Recorder.new with
    state := .leader
    currentTerm := term
    currentLeader := some 1
    log
    nextIndex := AList.insert 2 next ∅ }

/-- A follower of the leader of term 1. -/
def followerWith (log : List LogEntry) : RaftCore MemoryStorage Recorder :=
  { RaftCore.fresh 2 [1, 3] MemoryStorage.new Recorder.new with
    currentTerm := 1
    currentLeader := some 1
    log }

/-- The node with everything up to `n`, an entry of the given term, applied and compacted. -/
def compactedTo (n term : ℕ) (core : RaftCore MemoryStorage Recorder) :
    RaftCore MemoryStorage Recorder :=
  { core with
    storage := { core.storage with snapshot := some ⟨⟨n, term⟩, []⟩ }
    log := core.log.drop n
    snapshotLastIndex := n
    snapshotLastTerm := term
    lastApplied := n
    commitIndex := n }

/-- The first four entries of term 1. -/
def fourEntries : List LogEntry :=
  [⟨1, 1, noopCommand⟩, ⟨1, 2, "SET x 1"⟩, ⟨1, 3, "SET x 2"⟩, ⟨1, 4, "SET x 3"⟩]

/-- The leader of term 2 has only the first of them, and appends its own. -/
def secondTerm : List LogEntry := [⟨1, 1, noopCommand⟩, ⟨2, 2, noopCommand⟩, ⟨2, 3, "SET x 4"⟩]

/-! ### Deciding the conditions -/

instance (peer : ℕ) (L F : List LogEntry) (p : Pair σ μ) :
    Decidable (p.Lags peer L F) :=
  decidable_of_iff (p.leader.state = .leader ∧ p.leader.Represents L ∧ p.follower.Represents F ∧
      p.leader.WellFormed ∧ p.follower.WellFormed ∧
      p.follower.currentTerm ≤ p.leader.currentTerm ∧
      (p.follower.commitIndex ≤ L.length ∧
        F.take p.follower.commitIndex = L.take p.follower.commitIndex) ∧
      1 ≤ p.next peer ∧ p.next peer ≤ p.leader.lastLogIndex + 1)
    ⟨fun ⟨h₁, h₂, h₃, h₄, h₅, h₆, h₇, h₈, h₉⟩ => ⟨h₁, h₂, h₃, h₄, h₅, h₆, h₇, h₈, h₉⟩,
      fun ⟨h₁, h₂, h₃, h₄, h₅, h₆, h₇, h₈, h₉⟩ => ⟨h₁, h₂, h₃, h₄, h₅, h₆, h₇, h₈, h₉⟩⟩

/-- Every list of bytes is a snapshot of the recorder. -/
theorem canSend_iff {core : RaftCore MemoryStorage Recorder} : core.CanSend ↔
    core.storage.snapshot.map Snapshot.metadata =
      some ⟨core.snapshotLastIndex, core.snapshotLastTerm⟩ := by
  constructor
  · rintro ⟨data, hload, -⟩
    rw [show core.storage.snapshot = _ from Except.ok.inj hload]
    rfl
  · intro h
    obtain ⟨⟨metadata, data⟩, hsnap, hmeta⟩ := Option.map_eq_some_iff.1 h
    obtain rfl : metadata = _ := hmeta
    exact ⟨data, congrArg Except.ok hsnap, ⟨data⟩, rfl⟩

instance (core : RaftCore MemoryStorage Recorder) : Decidable core.CanSend :=
  decidable_of_iff _ canSend_iff.symm

instance (peer : ℕ) (L F : List LogEntry) (p : Pair MemoryStorage Recorder) (c : Condition) :
    Decidable (c.Holds peer L F p) := by
  cases c <;> unfold Condition.Holds <;> infer_instance

instance {P : Condition → Prop} [DecidablePred P] : Decidable (∀ c, P c) :=
  decidable_of_iff (P .matching ∧ P .sends ∧ P .settled ∧ P .newer ∧ P .follows)
    ⟨fun ⟨h₁, h₂, h₃, h₄, h₅⟩ c => by cases c <;> assumption,
      fun h => ⟨h _, h _, h _, h _, h _⟩⟩

/-! ### Pairs that catch up, and that never do -/

/-- The follower lacks entries that the leader has compacted. -/
def laggingPair : Pair MemoryStorage Recorder :=
  ⟨compactedTo 2 1 (leaderWith 1 (fourEntries.take 3) 4), followerWith (fourEntries.take 1)⟩

/-- A rejection, a snapshot, and the rest. -/
theorem catch_up_lagging : ∃ n rs p', rounds 2 n laggingPair = .ok (rs, p') ∧
    p'.follower.Represents (merge (fourEntries.take 1) (fourEntries.take 3)) := by
  exact catch_up (by decide) (by decide)

/-- The follower has an entry more than the leader. -/
def longerPair : Pair MemoryStorage Recorder :=
  ⟨leaderWith 1 (fourEntries.take 2) 3, followerWith (fourEntries.take 3)⟩

/-- The follower has another command at the same index and term. -/
def otherPair : Pair MemoryStorage Recorder :=
  ⟨leaderWith 1 [⟨1, 1, "SET x 1"⟩] 2, followerWith [⟨1, 1, "SET x 2"⟩]⟩

/-- The leader needs to send a snapshot, and has none in its storage. -/
def unstoredPair : Pair MemoryStorage Recorder :=
  ⟨{ compactedTo 2 1 (leaderWith 1 (fourEntries.take 3) 1) with storage := .new },
    followerWith (fourEntries.take 1)⟩

/-- The leader commits its last entry on a rejection, and compacts its log above the place where the
logs part. -/
def unsettledPair : Pair MemoryStorage Recorder :=
  ⟨{ leaderWith 2 secondTerm 3 with matchIndex := AList.insert 3 3 ∅, snapshotThreshold := 3 },
    followerWith fourEntries⟩

/-- The leader is about to send a snapshot, and the follower has one that is as new. -/
def stuckPair : Pair MemoryStorage Recorder :=
  ⟨compactedTo 1 1 (leaderWith 1 (fourEntries.take 3) 1),
    compactedTo 1 1 (followerWith (fourEntries.take 2))⟩

/-- The follower gets a snapshot, and keeps an entry above it that does not continue it. -/
def keepingPair : Pair MemoryStorage Recorder :=
  ⟨compactedTo 2 2 (leaderWith 2 (secondTerm.take 2) 1), followerWith (fourEntries.take 3)⟩

/-- The follower has to cut off a conflict above its snapshot. -/
def cutPair : Pair MemoryStorage Recorder :=
  ⟨leaderWith 2 (secondTerm.take 2) 2, compactedTo 1 1 (followerWith (fourEntries.take 3))⟩

/-- The follower gets a snapshot, and has to cut off a conflict above it. -/
def installedPair : Pair MemoryStorage Recorder :=
  ⟨compactedTo 1 1 (leaderWith 2 (secondTerm.take 2) 1), followerWith (fourEntries.take 3)⟩

theorem unsettledPair_never : unsettledPair.Never 2 secondTerm := by
  obtain ⟨p₁, p₂, r₀, r₁, r₂, h₀, h₁, h₂, hno₁, hno₂⟩ : ∃ p₁ p₂ r₀ r₁ r₂,
      unsettledPair.round 2 = .ok ⟨unsettledPair, r₀, p₁⟩ ∧ p₁.round 2 = .ok ⟨p₁, r₁, p₂⟩ ∧
      p₂.round 2 = .ok ⟨p₂, r₂, p₂⟩ ∧
      p₁.follower.log ≠ secondTerm.drop p₁.follower.snapshotLastIndex ∧
      p₂.follower.log ≠ secondTerm.drop p₂.follower.snapshotLastIndex :=
    ⟨_, _, _, _, _, rfl, rfl, rfl, by decide, by decide⟩
  exact ((never_of_swap h₂ h₂ hno₂ hno₂).of_round h₁ hno₁).of_round h₀ (by decide)

theorem keepingPair_never : keepingPair.Never 2 (secondTerm.take 2) := by
  obtain ⟨p₁, r₀, r₁, h₀, h₁, hno⟩ : ∃ p₁ r₀ r₁,
      keepingPair.round 2 = .ok ⟨keepingPair, r₀, p₁⟩ ∧ p₁.round 2 = .ok ⟨p₁, r₁, p₁⟩ ∧
      p₁.follower.log ≠ (secondTerm.take 2).drop p₁.follower.snapshotLastIndex :=
    ⟨_, _, _, rfl, rfl, by decide⟩
  exact (never_of_swap h₁ h₁ hno hno).of_round h₀ (by decide)

/-- Once everything is applied, the follower takes over and refuses the second entry in turn. -/
theorem cutPair_never : cutPair.Never 2 (secondTerm.take 2) := by
  obtain ⟨p₁, p₂, p₃, p₄, r₀, r₁, r₂, r₃, r₄, h₀, h₁, h₂, h₃, h₄, hno₁, hno₂, hno₃, hno₄⟩ :
      ∃ p₁ p₂ p₃ p₄ r₀ r₁ r₂ r₃ r₄, cutPair.round 2 = .ok ⟨cutPair, r₀, p₁⟩ ∧
        p₁.round 2 = .ok ⟨p₁, r₁, p₂⟩ ∧ p₂.round 2 = .ok ⟨p₂, r₂, p₃⟩ ∧
        p₃.round 2 = .ok ⟨p₃, r₃, p₄⟩ ∧ p₄.round 2 = .ok ⟨p₄, r₄, p₃⟩ ∧
        p₁.follower.log ≠ (secondTerm.take 2).drop p₁.follower.snapshotLastIndex ∧
        p₂.follower.log ≠ (secondTerm.take 2).drop p₂.follower.snapshotLastIndex ∧
        p₃.follower.log ≠ (secondTerm.take 2).drop p₃.follower.snapshotLastIndex ∧
        p₄.follower.log ≠ (secondTerm.take 2).drop p₄.follower.snapshotLastIndex :=
    ⟨_, _, _, _, _, _, _, _, _, rfl, rfl, rfl, rfl, rfl, by decide, by decide, by decide, by decide⟩
  have hswap := never_of_swap h₃ h₄ hno₃ hno₄
  exact ((hswap.of_round h₂ hno₂).of_round h₁ hno₁).of_round h₀ (by decide)

theorem installedPair_never : installedPair.Never 2 (secondTerm.take 2) := by
  obtain ⟨p₁, p₂, p₃, p₄, p₅, r₀, r₁, r₂, r₃, r₄, r₅, h₀, h₁, h₂, h₃, h₄, h₅, hno₁, hno₂, hno₃,
      hno₄, hno₅⟩ :
      ∃ p₁ p₂ p₃ p₄ p₅ r₀ r₁ r₂ r₃ r₄ r₅, installedPair.round 2 = .ok ⟨installedPair, r₀, p₁⟩ ∧
        p₁.round 2 = .ok ⟨p₁, r₁, p₂⟩ ∧ p₂.round 2 = .ok ⟨p₂, r₂, p₃⟩ ∧
        p₃.round 2 = .ok ⟨p₃, r₃, p₄⟩ ∧ p₄.round 2 = .ok ⟨p₄, r₄, p₅⟩ ∧
        p₅.round 2 = .ok ⟨p₅, r₅, p₄⟩ ∧
        p₁.follower.log ≠ (secondTerm.take 2).drop p₁.follower.snapshotLastIndex ∧
        p₂.follower.log ≠ (secondTerm.take 2).drop p₂.follower.snapshotLastIndex ∧
        p₃.follower.log ≠ (secondTerm.take 2).drop p₃.follower.snapshotLastIndex ∧
        p₄.follower.log ≠ (secondTerm.take 2).drop p₄.follower.snapshotLastIndex ∧
        p₅.follower.log ≠ (secondTerm.take 2).drop p₅.follower.snapshotLastIndex :=
    ⟨_, _, _, _, _, _, _, _, _, _, _, rfl, rfl, rfl, rfl, rfl, rfl, by decide, by decide, by decide,
      by decide, by decide⟩
  have hswap := never_of_swap h₄ h₅ hno₄ hno₅
  exact (((hswap.of_round h₃ hno₃).of_round h₂ hno₂).of_round h₁ hno₁).of_round h₀ (by decide)

/-- **Some followers never get the leader's log**: one that has more entries, and one for each of the
conditions, all others of which hold. -/
theorem never_caught_up :
    NeverCaughtUp 2 (fourEntries.take 2) (fourEntries.take 3) longerPair [] ∧
    NeverCaughtUp 2 [⟨1, 1, "SET x 1"⟩] [⟨1, 1, "SET x 2"⟩] otherPair [.matching] ∧
    NeverCaughtUp 2 (fourEntries.take 3) (fourEntries.take 1) unstoredPair [.sends] ∧
    NeverCaughtUp 2 secondTerm fourEntries unsettledPair [.settled] ∧
    NeverCaughtUp 2 (fourEntries.take 3) (fourEntries.take 2) stuckPair [.newer] ∧
    NeverCaughtUp 2 (secondTerm.take 2) (fourEntries.take 3) keepingPair [.follows] ∧
    NeverCaughtUp 2 (secondTerm.take 2) (fourEntries.take 3) cutPair [.follows] ∧
    NeverCaughtUp 2 (secondTerm.take 2) (fourEntries.take 3) installedPair [.follows] := by
  refine ⟨⟨by decide, by decide, ?_⟩, ⟨by decide, by decide, ?_⟩, ⟨by decide, by decide, ?_⟩,
    ⟨by decide, by decide, unsettledPair_never⟩, ⟨by decide, by decide, ?_⟩,
    ⟨by decide, by decide, keepingPair_never⟩, ⟨by decide, by decide, cutPair_never⟩,
    ⟨by decide, by decide, installedPair_never⟩⟩
  · exact never_of_swap (p := longerPair) rfl rfl (by decide) (by decide)
  · exact never_of_swap (p := otherPair) rfl rfl (by decide) (by decide)
  · exact never_of_swap (p := unstoredPair) rfl rfl (by decide) (by decide)
  · exact never_of_swap (p := stuckPair) rfl rfl (by decide) (by decide)

end Pair

end RaftVibe
