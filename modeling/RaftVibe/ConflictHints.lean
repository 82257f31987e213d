/-
**Conflict hints skip a whole term for each round trip.**

Without snapshots, and with every common term starting at the same index in both logs, a refused
heartbeat never has the leader back up entry by entry.  A log that is too short costs one rejection.
After that every rejection names the term `t` of the follower's entry before `next_index`: if the
leader has no entry of that term, what is left below `next_index` is older than `t`; if it has one,
the next heartbeat is accepted.  So the terms below `next_index` in the follower's log are the
potential that the rejections use up.

Main definitions:

* `RaftVibe.RaftCore.Snapshotless` — snapshots are disabled, and there is none;
* `RaftVibe.SameStart` — a common term starts at the same index in both logs;
* `RaftVibe.Pair.Converges` — what a number of rounds do.

Main results:

* `RaftVibe.Pair.Refused.hint_cases` — **what one rejection achieves**;
* `RaftVibe.Pair.hints_skip_terms` — **the bound on the rejections**.
-/

import RaftVibe.Exchange
import RaftVibe.HintScans

set_option relaxedAutoImplicit false
set_option autoImplicit false

namespace RaftVibe

open ReplicatedLog

/-! ### Logs without snapshots -/

/-- Automatic snapshots are disabled, and there is no snapshot. -/
structure RaftCore.Snapshotless {σ μ : Type} (core : RaftCore σ μ) : Prop where
  index : core.snapshotLastIndex = 0
  term : core.snapshotLastTerm = 0
  threshold : core.snapshotThreshold = 0

/-- A node without a snapshot carries its vector. -/
theorem RaftCore.Snapshotless.carries {σ μ : Type} {core : RaftCore σ μ} (h : core.Snapshotless)
    (hc : core.Contiguous) : core.Carries core.log := by
  have hidx : Indexed 0 core.log := h.index ▸ hc
  refine ⟨⟨hidx, ?_, ?_, ?_⟩, ?_⟩
  · rw [h.index]
    exact Nat.zero_le _
  · rw [h.index, List.drop_zero]
  · rw [h.index, h.term]
    rfl
  · rw [h.index]
    exact Nat.zero_le _

/-- A term that occurs in both logs starts at the same index in both. -/
def SameStart (L F : List LogEntry) : Prop :=
  ∀ t i j, L.findIdx? (fun e => e.term = t) = some i → F.findIdx? (fun e => e.term = t) = some j →
    i = j

instance (L F : List LogEntry) : Decidable (SameStart L F) :=
  decidable_of_iff (∀ x ∈ L, ∀ i ∈ L.findIdx? (fun e : LogEntry => e.term = x.term),
    ∀ j ∈ F.findIdx? (fun e : LogEntry => e.term = x.term), i = j) <| by
    constructor
    · intro h t i j hi hj
      obtain ⟨hlt, hterm, -⟩ := List.findIdx?_eq_some_iff_getElem.1 hi
      obtain rfl : L[i].term = t := by simpa using hterm
      exact h _ (List.getElem_mem hlt) i hi j hj
    · intro h x _ i hi j hj
      exact h _ i j hi hj

/-- The terms of a log never decrease. -/
def Sorted (l : List LogEntry) : Prop := (l.map LogEntry.term).Pairwise (· ≤ ·)

theorem Sorted.term_le {l : List LogEntry} (h : Sorted l) {i j : ℕ} {x y : LogEntry} (hij : i ≤ j)
    (hx : l[i]? = some x) (hy : l[j]? = some y) : x.term ≤ y.term := by
  rcases hij.eq_or_lt with rfl | hlt
  · rw [Option.some.inj (hx.symm.trans hy)]
  · obtain ⟨hi, rfl⟩ := List.getElem?_eq_some_iff.1 hx
    obtain ⟨hj, rfl⟩ := List.getElem?_eq_some_iff.1 hy
    have := List.pairwise_iff_getElem.1 h i j (by simpa using hi) (by simpa using hj) hlt
    simpa only [List.getElem_map] using this

/-- The first index with a term lies below any other, and has the term. -/
theorem exists_first {l : List LogEntry} {i : ℕ} {x : LogEntry} (hx : l[i]? = some x) :
    ∃ k ≤ i, l.findIdx? (fun e => e.term = x.term) = some k ∧ ∃ y, l[k]? = some y ∧
      y.term = x.term := by
  obtain ⟨hi, rfl⟩ := List.getElem?_eq_some_iff.1 hx
  obtain ⟨k, hk⟩ : ∃ k, l.findIdx? (fun e => e.term = l[i].term) = some k := by
    rw [← Option.isSome_iff_exists, List.findIdx?_isSome, List.any_eq_true]
    exact ⟨_, List.getElem_mem hi, by simp⟩
  obtain ⟨hlt, hterm, hfirst⟩ := List.findIdx?_eq_some_iff_getElem.1 hk
  refine ⟨k, ?_, hk, l[k], List.getElem?_eq_getElem hlt, by simpa using hterm⟩
  by_contra hgt
  exact hfirst i (by omega) (by simp)

/-- How many terms the first `n` entries of a log have. -/
def termCount (l : List LogEntry) (n : ℕ) : ℕ := ((l.take n).map LogEntry.term).toFinset.card

theorem termCount_le (l : List LogEntry) (n : ℕ) :
    termCount l n ≤ (l.map LogEntry.term).dedup.length := by
  rw [termCount, ← List.card_toFinset]
  refine Finset.card_le_card fun t ht => ?_
  rw [List.mem_toFinset] at ht ⊢
  exact ((List.take_sublist n l).map _).subset ht

/-- Fewer terms, if one of them is newer than all that are left. -/
theorem termCount_lt {l : List LogEntry} {m n : ℕ} (hmn : m ≤ n) {x : LogEntry}
    (hx : x ∈ l.take n) (hlt : ∀ y ∈ l.take m, y.term < x.term) : termCount l m < termCount l n := by
  refine Finset.card_lt_card ((Finset.ssubset_iff_of_subset fun t ht => ?_).2
    ⟨x.term, ?_, fun hmem => ?_⟩)
  · rw [List.mem_toFinset] at ht ⊢
    refine (List.Sublist.map _ ?_).subset ht
    exact (List.take_prefix_take_left hmn).sublist
  · rw [List.mem_toFinset]
    exact List.mem_map_of_mem hx
  · rw [List.mem_toFinset] at hmem
    obtain ⟨y, hy, hyx⟩ := List.mem_map.1 hmem
    exact absurd (hlt y hy) (by omega)

/-- **A term that starts at the same index in both logs.**  If one of them has another term at an index
where the other has this one, its entries of the term lie below, and the logs agree up to there. -/
theorem take_eq_of_sameStart {L F : List LogEntry} (hL : Sorted L) (hF : Sorted F)
    (hm : RaftCore.LogMatching F L) (hstart : SameStart L F) {m n : ℕ} {x y e : LogEntry}
    (hLm : L[m]? = some x) (hFn : F[n]? = some e) (hx : x.term = e.term) (hLn : L[n]? = some y)
    (hne : y.term ≠ e.term) : m < n ∧ F.take (m + 1) = L.take (m + 1) := by
  -- both stretches of the term start at `k`
  obtain ⟨k, hkm, hk, z, hLk, hz⟩ := exists_first hLm
  obtain ⟨k', hkn, hk', z', hFk, hz'⟩ := exists_first hFn
  rw [hx] at hk
  obtain rfl : k = k' := hstart _ _ _ hk hk'
  have hmn : m < n := by
    by_contra hge
    have h₁ := hL.term_le hkn hLk hLn
    have h₂ := hL.term_le (not_lt.1 hge) hLn hLm
    omega
  have hFm := List.getElem?_eq_getElem
    (show m < F.length from hmn.trans (List.getElem?_eq_some_iff.1 hFn).1)
  have h₁ := hF.term_le hkm hFk hFm
  have h₂ := hF.term_le hmn.le hFm hFn
  exact ⟨hmn, hm m _ _ hFm hLm (by omega)⟩

/-- Without a snapshot, the terms of the node are those of the log. -/
theorem RaftCore.Represents.termsSorted {σ μ : Type} {core : RaftCore σ μ} {l : List LogEntry}
    (h : core.Represents l) (h0 : core.snapshotLastIndex = 0) (hs : Sorted l) :
    core.TermsSorted := by
  have hlog : core.log = l := by rw [h.log_eq, h0, List.drop_zero]
  have hterm : core.snapshotLastTerm = 0 := by
    rw [h.term_eq, h0]
    rfl
  unfold TermsSorted
  rw [hterm, hlog]
  exact List.pairwise_cons.2 ⟨fun _ _ => Nat.zero_le _, hs⟩

namespace Pair

variable {σ μ : Type} {peer : ℕ} {L F : List LogEntry} {r : Round σ μ}

/-! ### One rejection -/

/-- **What a rejection achieves.**  A log that is too short is measured; the leader finds the term
of the follower, and they agree from there; or the leader lacks that term, and it is skipped. -/
theorem Refused.hint_cases (h : Refused peer L F r) (hsrc : r.source.Exchanging peer L F)
    (hL0 : r.source.leader.snapshotLastIndex = 0) (hF0 : r.source.follower.snapshotLastIndex = 0)
    (hL : Sorted L) (hF : Sorted F) (hstart : SameStart L F) :
    (F.length < r.source.next peer - 1 ∧ r.target.next peer - 1 = F.length) ∨
    (r.source.next peer - 1 ≤ F.length ∧ 0 < termCount F (r.source.next peer - 1) ∧
      F.take (r.target.next peer - 1) = L.take (r.target.next peer - 1)) ∨
    (r.source.next peer - 1 ≤ F.length ∧ r.target.next peer - 1 ≤ F.length ∧
      termCount F (r.target.next peer - 1) < termCount F (r.source.next peer - 1)) := by
  obtain ⟨conflictTerm, conflictIndex, hhint, hnext⟩ := h.hint
  have hpos := hhint.not_prevMatches.1
  have hrep := h.target.follower.log
  have h0 : r.target.follower.snapshotLastIndex = 0 := h.follower.snapshotLastIndex.trans hF0
  have hle := hsrc.next_le
  generalize hn : r.source.next peer - 1 = n at *
  cases hhint with
  | short hlast =>
      rw [hrep.lastLogIndex] at hlast hnext
      simp only [RaftCore.hintedNext] at hnext
      left
      omega
  | boundary _ hboundary => omega
  | compacted _ hlast hne hnone =>
      obtain ⟨e, he⟩ := hrep.contiguous.exists_getLogEntry (i := n) (by omega) hlast
      rw [hnone] at he
      exact absurd he (by simp)
  | conflict entry _ _ he hconflict =>
      right
      obtain ⟨-, hFn⟩ := hrep.getLogEntry_iff.1 he
      have hlen := (List.getElem?_eq_some_iff.1 hFn).1
      have hmem : entry ∈ F.take n := by
        rw [List.mem_iff_getElem?]
        exact ⟨n - 1, by rwa [List.getElem?_take_of_lt (by omega)]⟩
      cases hscan : r.source.leader.findLastIndexForTerm entry.term with
      | some i =>
          left
          refine ⟨by omega, ?_, ?_⟩
          · exact Finset.card_pos.2 ⟨_, List.mem_toFinset.2 (List.mem_map_of_mem hmem)⟩
          · have hrepL := hsrc.leader.log
            obtain ⟨hterm, -⟩ := RaftCore.findLastIndexForTerm_some hrepL.contiguous
              (hrepL.termsSorted hL0 hL) hscan
            have hi : 0 < i := by
              by_contra hi
              obtain rfl : i = 0 := by omega
              simp [RaftCore.termAt, hL0] at hterm
            rw [hrepL.termAt_eq hi (by omega)] at hterm
            obtain ⟨x, hLi, hx⟩ := Option.map_eq_some_iff.1 hterm
            have hLn := List.getElem?_eq_getElem (show n - 1 < L.length by omega)
            have hlast := lastTerm_take hLn
            rw [show n - 1 + 1 = n by omega] at hlast
            obtain ⟨hin, hagree⟩ := take_eq_of_sameStart hL hF hsrc.matching hstart hLi hFn hx hLn
              fun hterm => hconflict (by rw [hlast, hterm])
            have hnext' : r.target.next peer = i + 1 := by
              simp only [RaftCore.hintedNext, hscan] at hnext
              omega
            rw [hnext', show i + 1 - 1 = i - 1 + 1 by omega]
            exact hagree
      | none =>
          right
          obtain ⟨hfpos, hfle, -, hbelow⟩ := RaftCore.findFirstIndexForTerm_spec hrep.contiguous
            (hrep.termsSorted h0 hF) he rfl
          simp only [RaftCore.hintedNext, hscan, Option.getD_some] at hnext
          refine ⟨by omega, by omega, termCount_lt (by omega) hmem fun y hy => ?_⟩
          obtain ⟨j, hj⟩ := List.mem_iff_getElem?.1 hy
          have hjlt : j < r.target.next peer - 1 := by
            have := (List.getElem?_eq_some_iff.1 hj).1
            rw [List.length_take] at this
            omega
          rw [List.getElem?_take_of_lt hjlt] at hj
          exact hbelow (j + 1) y (by omega) (hrep.getLogEntry_iff.2 ⟨by omega, hj⟩)

/-! ### Many rounds -/

/-- What holds between two rounds of nodes without snapshots. -/
structure Plain (peer : ℕ) (L F : List LogEntry) (p : Pair σ μ) : Prop where
  exchanging : p.Exchanging peer L F
  leader_index : p.leader.snapshotLastIndex = 0
  leader_threshold : p.leader.snapshotThreshold = 0
  follower_index : p.follower.snapshotLastIndex = 0
  follower_threshold : p.follower.snapshotThreshold = 0

theorem Plain.leader_log {p : Pair σ μ} (h : p.Plain peer L F) : p.leader.log = L := by
  rw [h.exchanging.leader.log.log_eq, h.leader_index, List.drop_zero]

theorem Plain.follower_log {p : Pair σ μ} (h : p.Plain peer L F) : p.follower.log = F := by
  rw [h.exchanging.follower.log.log_eq, h.follower_index, List.drop_zero]

/-- A follower that has merged the leader's log agrees with it. -/
theorem Plain.agree_merge {p : Pair σ μ} (h : p.Plain peer L (merge F L)) :
    (merge F L).take (p.next peer - 1) = L.take (p.next peer - 1) := by
  have hle := h.exchanging.next_le
  obtain ⟨l, hl⟩ := prefix_merge F L
  rw [← hl, List.take_append_of_le_length (by omega)]

/-- **What a number of rounds do**: every heartbeat is answered; a rejection lowers `next_index`,
and there are at most `k` of them; a success leaves the follower with the whole log of the leader,
which stays the same. -/
structure Converges (peer : ℕ) (L : List LogEntry) (k : ℕ) (rs : List (Round σ μ)) : Prop where
  answered : ∀ r ∈ rs, r.success.isSome
  lowered : ∀ r ∈ rs, r.success = some false →
    1 ≤ r.target.next peer ∧ r.target.next peer < r.source.next peer
  rejections : (rs.countP fun r => r.success = some false) ≤ k
  merged : ∀ r ∈ rs, r.success = some true → L <+: r.target.follower.log
  leader : ∀ r ∈ rs, r.target.leader.log = L

theorem Converges.nil (peer : ℕ) (L : List LogEntry) :
    Converges peer L 0 ([] : List (Round σ μ)) :=
  ⟨by simp, by simp, by simp, by simp, by simp⟩

theorem Converges.mono {k k' : ℕ} {rs : List (Round σ μ)} (h : Converges peer L k rs)
    (hk : k ≤ k') : Converges peer L k' rs :=
  ⟨h.answered, h.lowered, h.rejections.trans hk, h.merged, h.leader⟩

/-- A rejection first. -/
theorem Refused.converges (h : Refused peer L F r) {k : ℕ} {rs : List (Round σ μ)}
    (hlog : r.target.leader.log = L) (hrs : Converges peer L k rs) :
    Converges peer L (k + 1) (r :: rs) where
  answered := List.forall_mem_cons.2 ⟨by rw [h.success]; rfl, hrs.answered⟩
  lowered := List.forall_mem_cons.2 ⟨fun _ => ⟨h.target.next_pos, h.next_lt⟩, hrs.lowered⟩
  rejections := by
    rw [List.countP_cons_of_pos (by simp [h.success])]
    exact Nat.succ_le_succ hrs.rejections
  merged := List.forall_mem_cons.2 ⟨fun hs => by simp [h.success] at hs, hrs.merged⟩
  leader := List.forall_mem_cons.2 ⟨hlog, hrs.leader⟩

/-- A success first. -/
theorem Merged.converges (h : Merged peer L F r) {k : ℕ} {rs : List (Round σ μ)}
    (hp : r.target.Plain peer L (merge F L)) (hrs : Converges peer L k rs) :
    Converges peer L k (r :: rs) where
  answered := List.forall_mem_cons.2 ⟨by rw [h.success]; rfl, hrs.answered⟩
  lowered := List.forall_mem_cons.2 ⟨fun hs => by simp [h.success] at hs, hrs.lowered⟩
  rejections := by
    rw [List.countP_cons_of_neg (by simp [h.success])]
    exact hrs.rejections
  merged := List.forall_mem_cons.2
    ⟨fun _ => hp.follower_log ▸ prefix_merge F L, hrs.merged⟩
  leader := List.forall_mem_cons.2 ⟨hp.leader_log, hrs.leader⟩

section Runs

variable [Storage σ] [Snapshotable μ] [InfallibleStorage σ] {p : Pair σ μ}

/-- **One round.** -/
theorem Plain.round (h : p.Plain peer L F) : ∃ r, p.round peer = .ok r ∧ r.source = p ∧
    ((Refused peer L F r ∧ r.target.Plain peer L F) ∨
      (Merged peer L F r ∧ r.target.Plain peer L (merge F L))) := by
  have hpos := h.exchanging.next_pos
  obtain ⟨r, hr, rfl, hor⟩ := h.exchanging.round (by rw [h.leader_index]; omega)
    (by rw [h.follower_index, Nat.zero_min, List.take_zero, List.take_zero])
    (fun _ h0 => absurd h.follower_index h0.ne')
  refine ⟨r, hr, rfl, ?_⟩
  rcases hor with href | hmer
  · exact Or.inl ⟨href, href.target, (href.boundary h.leader_threshold).trans h.leader_index,
      href.threshold.trans h.leader_threshold,
      href.follower.snapshotLastIndex.trans h.follower_index,
      href.follower.snapshotThreshold.trans h.follower_threshold⟩
  · obtain ⟨hl, hf⟩ := hmer.boundary h.leader_threshold h.follower_threshold
    exact Or.inr ⟨hmer, hmer.target, hl.trans h.leader_index,
      hmer.threshold.1.trans h.leader_threshold, hf.trans h.follower_index,
      hmer.threshold.2.trans h.follower_threshold⟩

/-- **Where the logs agree up to `next_index`, every round succeeds.** -/
theorem Plain.rounds_of_agree (h : p.Plain peer L F)
    (hagree : F.take (p.next peer - 1) = L.take (p.next peer - 1)) (n : ℕ) :
    ∃ rs p', rounds peer n p = .ok (rs, p') ∧ rs.length = n ∧ Converges peer L 0 rs := by
  induction n generalizing p F with
  | zero => exact ⟨[], p, rfl, rfl, .nil peer L⟩
  | succ n ih =>
      obtain ⟨r, hr, rfl, ⟨href, -⟩ | ⟨hmer, hp⟩⟩ := h.round
      · exact (href.not_agree h.exchanging (h.follower_index.trans_le (Nat.zero_le _)) hagree).elim
      · obtain ⟨rs, p', hrs, hlen, hconv⟩ := ih hp hp.agree_merge
        exact ⟨r :: rs, p', rounds_succ hr hrs, congrArg (· + 1) hlen, hmer.converges hp hconv⟩

/-- The rejections that are still to come, at most. -/
def rejectionsLeft (F : List LogEntry) (n : ℕ) : ℕ :=
  (if F.length < n then 1 else 0) + termCount F n

/-- **The rejections use up the terms below `next_index`.** -/
theorem Plain.rounds (h : p.Plain peer L F) (hL : Sorted L) (hF : Sorted F)
    (hstart : SameStart L F) (n : ℕ) :
    ∃ rs p', Pair.rounds peer n p = .ok (rs, p') ∧ rs.length = n ∧
      Converges peer L (rejectionsLeft F (p.next peer - 1)) rs := by
  induction n generalizing p with
  | zero => exact ⟨[], p, rfl, rfl, (Converges.nil peer L).mono (Nat.zero_le _)⟩
  | succ n ih =>
      obtain ⟨r, hr, rfl, ⟨href, hp⟩ | ⟨hmer, hp⟩⟩ := h.round
      · rcases href.hint_cases h.exchanging h.leader_index h.follower_index hL hF hstart with
          ⟨hlt, hnext⟩ | ⟨hle, hcount, hagree⟩ | ⟨hle, hle', hcount⟩
        · -- the log was too short; now it is measured
          obtain ⟨rs, p', hrs, hlen, hconv⟩ := ih hp
          refine ⟨r :: rs, p', rounds_succ hr hrs, congrArg (· + 1) hlen,
            (href.converges hp.leader_log hconv).mono ?_⟩
          have hfull : termCount F F.length ≤ termCount F (r.source.next peer - 1) := by
            rw [termCount, termCount, List.take_length, List.take_of_length_le hlt.le]
          rw [hnext, rejectionsLeft, rejectionsLeft, if_neg (lt_irrefl _), if_pos hlt]
          omega
        · obtain ⟨rs, p', hrs, hlen, hconv⟩ := hp.rounds_of_agree hagree n
          refine ⟨r :: rs, p', rounds_succ hr hrs, congrArg (· + 1) hlen,
            (href.converges hp.leader_log hconv).mono ?_⟩
          rw [rejectionsLeft]
          omega
        · obtain ⟨rs, p', hrs, hlen, hconv⟩ := ih hp
          refine ⟨r :: rs, p', rounds_succ hr hrs, congrArg (· + 1) hlen,
            (href.converges hp.leader_log hconv).mono ?_⟩
          rw [rejectionsLeft, rejectionsLeft, if_neg (by omega), if_neg (by omega)]
          omega
      · obtain ⟨rs, p', hrs, hlen, hconv⟩ := hp.rounds_of_agree hp.agree_merge n
        exact ⟨r :: rs, p', rounds_succ hr hrs, congrArg (· + 1) hlen,
          (hmer.converges hp hconv).mono (Nat.zero_le _)⟩

/-- **Conflict hints skip a whole term for each round trip**: however many rounds there are, every
heartbeat is answered, every rejection lowers `next_index`, there are at most one more of them than
terms in the follower's log, and a success leaves the follower with the leader's whole log. -/
theorem hints_skip_terms (hlead : p.leader.state = .leader) (hL : p.leader.Snapshotless)
    (hF : p.follower.Snapshotless) (hLc : p.leader.Contiguous) (hFc : p.follower.Contiguous)
    (hLs : p.leader.TermsSorted) (hFs : p.follower.TermsSorted)
    (hterm : p.follower.currentTerm ≤ p.leader.currentTerm)
    (hmatch : RaftCore.LogMatching p.follower.log p.leader.log)
    (hstart : SameStart p.leader.log p.follower.log) (hpos : 1 ≤ p.next peer)
    (hle : p.next peer ≤ p.leader.lastLogIndex + 1) (n : ℕ) :
    ∃ rs p', Pair.rounds peer n p = .ok (rs, p') ∧ rs.length = n ∧
      Converges peer p.leader.log (1 + (p.follower.log.map LogEntry.term).dedup.length) rs := by
  have hcL := hL.carries hLc
  have hp : p.Plain peer p.leader.log p.follower.log :=
    ⟨⟨hlead, hcL, hF.carries hFc, hterm, hmatch, hpos, hcL.log.lastLogIndex ▸ hle⟩, hL.index,
      hL.threshold, hF.index, hF.threshold⟩
  obtain ⟨rs, p', hrs, hlen, hconv⟩ :=
    hp.rounds (List.pairwise_cons.1 hLs).2 (List.pairwise_cons.1 hFs).2 hstart n
  refine ⟨rs, p', hrs, hlen, hconv.mono (Nat.add_le_add ?_ (termCount_le _ _))⟩
  split <;> omega

end Runs

/-- A leader of term 5 and a follower with entries of two deposed leaders. -/
def divergedPair : Pair MemoryStorage Recorder where
  leader := { RaftCore.fresh 1 [2, 3] MemoryStorage.new Recorder.new with
    state := .leader
    currentTerm := 5
    log := [⟨1, 1, noopCommand⟩, ⟨4, 2, noopCommand⟩, ⟨5, 3, noopCommand⟩]
    nextIndex := AList.insert 2 4 ∅
    snapshotThreshold := 0 }
  follower := { RaftCore.fresh 2 [1, 3] MemoryStorage.new Recorder.new with
    currentTerm := 3
    log := [⟨1, 1, noopCommand⟩, ⟨2, 2, noopCommand⟩, ⟨2, 3, "SET x 1"⟩, ⟨3, 4, noopCommand⟩]
    snapshotThreshold := 0 }

/-- Three rounds: the terms 2 of the follower are skipped at once, and its log is replaced. -/
theorem hints_skip_terms_diverged :
    ∃ rs p', rounds 2 3 divergedPair = .ok (rs, p') ∧ rs.length = 3 ∧
      Converges 2 divergedPair.leader.log
        (1 + (divergedPair.follower.log.map LogEntry.term).dedup.length) rs :=
  hints_skip_terms rfl ⟨rfl, rfl, rfl⟩ ⟨rfl, rfl, rfl⟩
    (show Indexed 0 divergedPair.leader.log by decide)
    (show Indexed 0 divergedPair.follower.log by decide) (by decide) (by decide) (by decide)
    (by decide) (by decide)
    (by decide) (by decide) 3

end Pair

end RaftVibe
