/-
**The logical log of a node.**

A node stores its log in two parts: the snapshot stands for a prefix, and the vector holds the
rest.  `Represents core L` says that the two parts make up the log `L`.  Compaction moves the border
and changes nothing else; every accessor of the core reads off `L`; and taking over the entries of
a request is `merge` on logical logs.

Main definitions:

* `RaftVibe.RaftCore.Represents` — the node's two parts make up the log `L`;
* `RaftVibe.RaftCore.logicalLog` — the log, from the entries that the snapshot stands for.

Main results:

* `RaftVibe.RaftCore.Represents.prevMatches_iff` — what the check on `prev_log_index` means;
* `RaftVibe.RaftCore.Represents.compacted` — **compaction keeps the logical log**;
* `RaftVibe.RaftCore.Represents.takeOver` — **taking over entries merges logical logs**.
-/

import RaftVibe.RaftCoreSpec
import RaftVibe.RaftNode
import RaftVibe.ReplicatedLog

set_option relaxedAutoImplicit false
set_option autoImplicit false

namespace RaftVibe

open ReplicatedLog

/-- The term of the last of the first `n` entries is the term of the `n`-th. -/
theorem lastTerm_take {L : List LogEntry} {n : ℕ} {e : LogEntry} (h : L[n]? = some e) :
    lastTerm LogEntry.term (L.take (n + 1)) = e.term := by
  obtain ⟨hlt, rfl⟩ := List.getElem?_eq_some_iff.1 h
  rw [List.take_succ_eq_append_getElem hlt, lastTerm_append_singleton]

namespace RaftCore

variable {σ μ : Type} {core core' : RaftCore σ μ} {L : List LogEntry}

/-- **The snapshot and the vector make up the log `L`.** -/
structure Represents (core : RaftCore σ μ) (L : List LogEntry) : Prop where
  indexed : Indexed 0 L
  snapshot_le : core.snapshotLastIndex ≤ L.length
  log_eq : core.log = L.drop core.snapshotLastIndex
  term_eq : core.snapshotLastTerm = lastTerm LogEntry.term (L.take core.snapshotLastIndex)

instance (core : RaftCore σ μ) (L : List LogEntry) : Decidable (core.Represents L) :=
  decidable_of_iff (Indexed 0 L ∧ core.snapshotLastIndex ≤ L.length ∧
      core.log = L.drop core.snapshotLastIndex ∧
      core.snapshotLastTerm = lastTerm LogEntry.term (L.take core.snapshotLastIndex))
    ⟨fun ⟨h₁, h₂, h₃, h₄⟩ => ⟨h₁, h₂, h₃, h₄⟩, fun ⟨h₁, h₂, h₃, h₄⟩ => ⟨h₁, h₂, h₃, h₄⟩⟩

namespace Represents

theorem contiguous (h : core.Represents L) : core.Contiguous := by
  have := h.indexed.drop h.snapshot_le
  rwa [Nat.zero_add, ← h.log_eq] at this

theorem length_eq (h : core.Represents L) :
    core.snapshotLastIndex + core.log.length = L.length := by
  rw [h.log_eq, List.length_drop]
  have := h.snapshot_le
  omega

theorem lastLogIndex (h : core.Represents L) : core.lastLogIndex = L.length := by
  rw [h.contiguous.lastLogIndex, h.length_eq]

theorem lastLogTerm (h : core.Represents L) :
    core.lastLogTerm = lastTerm LogEntry.term L := by
  rcases List.eq_nil_or_concat' core.log with hnil | ⟨l, e, hl⟩
  · have hlen := h.length_eq
    rw [hnil, List.length_nil, Nat.add_zero] at hlen
    simp only [RaftCore.lastLogTerm, hnil, List.getLast?_nil]
    rw [h.term_eq, hlen, List.take_length]
  · have hL : L = L.take core.snapshotLastIndex ++ l ++ [e] := by
      rw [List.append_assoc, ← hl, h.log_eq, List.take_append_drop]
    rw [hL, lastTerm_append_singleton]
    simp [RaftCore.lastLogTerm, hl]

/-- The entry found at an index is the one of the log, if the snapshot does not cover it. -/
theorem getLogEntry_iff (h : core.Represents L) {i : ℕ} {e : LogEntry} :
    core.getLogEntry i = some e ↔ core.snapshotLastIndex < i ∧ L[i - 1]? = some e := by
  rw [getLogEntry_eq_some, h.log_eq]
  constructor
  · rintro ⟨hlt, he⟩
    rw [List.getElem?_drop] at he
    exact ⟨hlt, by rwa [show i - 1 = core.snapshotLastIndex + (i - core.snapshotLastIndex - 1)
      by omega]⟩
  · rintro ⟨hlt, he⟩
    refine ⟨hlt, ?_⟩
    rwa [List.getElem?_drop,
      show core.snapshotLastIndex + (i - core.snapshotLastIndex - 1) = i - 1 by omega]

/-- Nothing that the representation speaks about has changed. -/
theorem congr (h : core.Represents L) (hl : core'.log = core.log)
    (hs : core'.snapshotLastIndex = core.snapshotLastIndex)
    (ht : core'.snapshotLastTerm = core.snapshotLastTerm) : core'.Represents L :=
  ⟨h.indexed, by rw [hs]; exact h.snapshot_le, by rw [hl, hs]; exact h.log_eq,
    by rw [ht, hs]; exact h.term_eq⟩

/-- Appending the next entry. -/
theorem append (h : core.Represents L) {e : LogEntry} (he : e.index = core.lastLogIndex + 1)
    (hl : core'.log = core.log ++ [e])
    (hs : core'.snapshotLastIndex = core.snapshotLastIndex)
    (ht : core'.snapshotLastTerm = core.snapshotLastTerm) : core'.Represents (L ++ [e]) := by
  have hle := h.snapshot_le
  refine ⟨?_, ?_, ?_, ?_⟩
  · rw [Indexed.append_iff, Indexed.singleton_iff, Nat.zero_add, ← h.lastLogIndex]
    exact ⟨h.indexed, he⟩
  · rw [hs, List.length_append]
    omega
  · rw [hl, hs, h.log_eq, List.drop_append_of_le_length hle]
  · rw [ht, hs, h.term_eq, List.take_append_of_le_length hle]

/-- The term sent along with `prev_log_index` is the one of the log, from the snapshot on. -/
theorem prevLogTerm (h : core.Represents L) {p : ℕ} (hs : core.snapshotLastIndex ≤ p)
    (hp : p ≤ L.length) : core.prevLogTerm p = lastTerm LogEntry.term (L.take p) := by
  unfold RaftCore.prevLogTerm
  split
  · rename_i heq
    rw [heq, h.term_eq]
  · rename_i hne
    have hlt : p - 1 < L.length := by omega
    rw [if_neg (by omega), if_pos (by omega), h.log_eq, List.getElem?_drop,
      show core.snapshotLastIndex + (p - core.snapshotLastIndex - 1) = p - 1 by omega,
      List.getElem?_eq_getElem hlt]
    have := lastTerm_take (List.getElem?_eq_getElem hlt)
    rw [show p - 1 + 1 = p by omega] at this
    rw [this]
    rfl

/-- **The check on a positive `prev_log_index`**: it succeeds when the log has that index, not
below the snapshot, with the given term. -/
theorem prevMatches_iff (h : core.Represents L) {p t : ℕ} (hp : 0 < p) :
    core.PrevMatches p t ↔
      core.snapshotLastIndex ≤ p ∧ p ≤ L.length ∧ lastTerm LogEntry.term (L.take p) = t := by
  unfold PrevMatches
  rw [h.lastLogIndex]
  constructor
  · rintro (rfl | ⟨hle, ⟨heq, rfl⟩ | ⟨hne, e, he, rfl⟩⟩)
    · exact absurd hp (lt_irrefl 0)
    · exact ⟨heq.ge, hle, by rw [heq, h.term_eq]⟩
    · obtain ⟨hlt, he⟩ := h.getLogEntry_iff.1 he
      refine ⟨hlt.le, hle, ?_⟩
      have := lastTerm_take he
      rwa [show p - 1 + 1 = p by omega] at this
  · rintro ⟨hs, hle, rfl⟩
    refine Or.inr ⟨hle, ?_⟩
    rcases hs.eq_or_lt with heq | hlt
    · exact Or.inl ⟨heq.symm, by rw [h.term_eq, heq]⟩
    · have hlen : p - 1 < L.length := by omega
      have he := List.getElem?_eq_getElem hlen
      refine Or.inr ⟨hlt.ne', _, h.getLogEntry_iff.2 ⟨hlt, he⟩, ?_⟩
      have := lastTerm_take he
      rwa [show p - 1 + 1 = p by omega, eq_comm] at this

/-- The entries a sender selects are a slice of its log. -/
theorem filter_slice (h : core.Represents L) (lo hi : ℕ) :
    (core.log.filter fun e => lo ≤ e.index ∧ e.index ≤ hi) =
      (L.take hi).drop (max core.snapshotLastIndex (lo - 1)) := by
  have hcont : Indexed core.snapshotLastIndex core.log := h.contiguous
  have hsplit : (core.log.filter fun e => decide (lo ≤ e.index ∧ e.index ≤ hi)) =
      (core.log.filter fun e => e.index ≤ hi).filter fun e => e.index > lo - 1 := by
    rw [List.filter_filter]
    refine List.filter_congr fun e he => ?_
    have := (hcont.mem he).1
    simp only [← Bool.decide_and]
    exact decide_eq_decide.2 (by omega)
  rw [hsplit, hcont.filter_le, (hcont.take _).filter_gt, h.log_eq, List.take_drop,
    List.drop_drop]
  rcases Nat.lt_or_ge hi core.snapshotLastIndex with hlt | hge
  · rw [List.drop_of_length_le, List.drop_of_length_le]
    · rw [List.length_take]
      omega
    · rw [List.length_take]
      omega
  · rw [Nat.add_sub_cancel' hge]
    congr 1
    omega

/-- All the entries from an index on. -/
theorem filter_from (h : core.Represents L) (lo : ℕ) :
    (core.log.filter fun e => lo ≤ e.index) = L.drop (max core.snapshotLastIndex (lo - 1)) := by
  have hcont : Indexed core.snapshotLastIndex core.log := h.contiguous
  have hall : (core.log.filter fun e => decide (lo ≤ e.index)) =
      core.log.filter fun e => decide (lo ≤ e.index ∧ e.index ≤ L.length) := by
    refine List.filter_congr fun e he => ?_
    have := (hcont.mem he).2.1
    rw [h.length_eq] at this
    exact decide_eq_decide.2 (by omega)
  rw [hall, h.filter_slice, List.take_length]

/-- The comparison of logs in `handle_request_vote`. -/
theorem isLogUpToDate_iff (h : core.Represents L) {ℓ : List LogEntry} :
    core.isLogUpToDate (lastTerm LogEntry.term ℓ) ℓ.length = true ↔
      UpToDate LogEntry.term ℓ L := by
  simp only [isLogUpToDate, h.lastLogTerm, h.lastLogIndex, Bool.or_eq_true, decide_eq_true_eq,
    Bool.and_eq_true, beq_iff_eq, UpToDate, gt_iff_lt, ge_iff_le]

/-- The snapshot moves up to `n`: the vector keeps what lies above. -/
theorem cut (h : core.Represents L) {n : ℕ} (hs : core.snapshotLastIndex ≤ n) (hn : n ≤ L.length)
    (hl : core'.log = core.log.filter fun e => e.index > n) (hs' : core'.snapshotLastIndex = n)
    (ht : core'.snapshotLastTerm = lastTerm LogEntry.term (L.take n)) : core'.Represents L := by
  refine ⟨h.indexed, by rwa [hs'], ?_, by rwa [hs']⟩
  have hcont : Indexed core.snapshotLastIndex core.log := h.contiguous
  rw [hl, hcont.filter_gt, h.log_eq, List.drop_drop, hs', Nat.add_sub_cancel' hs]

/-- **Compaction keeps the logical log.** -/
theorem compacted [Storage σ] [Snapshotable μ] (h : core.Represents L)
    (hc : core.Compacted core') : core'.Represents L := by
  obtain ⟨entry, data, hlt, he, -, rfl⟩ := hc
  obtain ⟨-, he⟩ := h.getLogEntry_iff.1 he
  have hlen := (List.getElem?_eq_some_iff.1 he).1
  refine h.cut hlt.le (by omega) rfl rfl ?_
  have := lastTerm_take he
  rw [show core.lastApplied - 1 + 1 = core.lastApplied by omega] at this
  exact this.symm

theorem autoSnapshot [Storage σ] [Snapshotable μ] [InfallibleStorage σ] (h : core.Represents L) :
    core.autoSnapshot.Represents L := by
  rcases autoSnapshot_cases core with heq | hc
  · rwa [heq]
  · exact h.compacted hc

end Represents

/-- **The logical log**, from the entries `pre` that the snapshot stands for: these, and above them
the vector, by index. -/
def logicalLog (core : RaftCore σ μ) (pre : List LogEntry) : List LogEntry :=
  pre.take core.snapshotLastIndex ++ core.log.filter fun e => e.index > core.snapshotLastIndex

theorem Represents.logicalLog_eq (h : core.Represents L) : core.logicalLog L = L := by
  have hcont : Indexed core.snapshotLastIndex core.log := h.contiguous
  rw [logicalLog, hcont.filter_gt, Nat.sub_self, List.drop_zero, h.log_eq, List.take_append_drop]

/-! ### Taking over entries -/

/-- **Log matching** between two logs: entries of one term at one index are preceded by the same
entries. -/
def LogMatching (L s : List LogEntry) : Prop :=
  ∀ i x y, L[i]? = some x → s[i]? = some y → x.term = y.term → L.take (i + 1) = s.take (i + 1)

instance (L s : List LogEntry) : Decidable (LogMatching L s) :=
  decidable_of_iff (∀ i < L.length, ∀ x ∈ L[i]?, ∀ y ∈ s[i]?, x.term = y.term →
    L.take (i + 1) = s.take (i + 1)) <| by
    constructor
    · intro h i x y hx hy ht
      exact h i (List.getElem?_eq_some_iff.1 hx).1 x hx y hy ht
    · intro h i _ x hx y hy ht
      exact h i x y hx hy ht

theorem LogMatching.refl (L : List LogEntry) : LogMatching L L := fun _ _ _ _ _ _ => rfl

theorem LogMatching.take {L s : List LogEntry} (h : LogMatching L s) (n : ℕ) :
    LogMatching L (s.take n) := by
  intro i x y hx hy ht
  have hlt : i < n := by
    by_contra hge
    rw [List.getElem?_take_eq_none (not_lt.1 hge)] at hy
    simp at hy
  rw [List.getElem?_take_of_lt hlt] at hy
  rw [h i x y hx hy ht, List.take_take, min_eq_left hlt]

/-- Equal terms at an index, read off as the last term up to there. -/
theorem LogMatching.take_eq {L s : List LogEntry} {p : ℕ} (h : LogMatching L s)
    (hL : p ≤ L.length) (hs : p ≤ s.length) (hp : 0 < p)
    (ht : lastTerm LogEntry.term (L.take p) = lastTerm LogEntry.term (s.take p)) :
    L.take p = s.take p := by
  obtain ⟨k, rfl⟩ : ∃ k, p = k + 1 := ⟨p - 1, by omega⟩
  have hx := List.getElem?_eq_getElem (show k < L.length by omega)
  have hy := List.getElem?_eq_getElem (show k < s.length by omega)
  rw [lastTerm_take hx, lastTerm_take hy] at ht
  exact h k _ _ hx hy ht

theorem LogMatching.symm {L s : List LogEntry} (h : LogMatching L s) : LogMatching s L :=
  fun i x y hx hy ht => (h i y x hy hx ht.symm).symm

section Merge

variable {s : List LogEntry} {prev r : ℕ}

/-- Where two logs do not conflict above `r` and `prev`, and agree up to there, one is a prefix of
the other. -/
theorem agree_of_no_conflict (hs : Indexed 0 s) (hm : LogMatching L s)
    (hpre : L.take prev = s.take prev) (hcov : L.take (min r s.length) = s.take (min r s.length))
    (hno : ∀ e ∈ s.drop prev, ¬ Conflicts r (L.drop r) e) :
    L.take (min L.length s.length) = s.take (min L.length s.length) := by
  generalize hn : min L.length s.length = n
  rcases Nat.lt_or_ge prev n with hlt | hge
  · rcases Nat.lt_or_ge r n with hr | hr
    · -- the last common entry lies above both, so it does not conflict
      have hL : n - 1 < L.length := by omega
      have hS : n - 1 < s.length := by omega
      have hx := List.getElem?_eq_getElem hL
      have hy := List.getElem?_eq_getElem hS
      have hidx := hs _ _ hy
      have hmem : s[n - 1] ∈ s.drop prev := by
        rw [List.mem_iff_getElem?]
        exact ⟨n - 1 - prev, by rw [List.getElem?_drop, ← hy]; congr 1; omega⟩
      have hterm : L[n - 1].term = s[n - 1].term := by
        by_contra hne
        refine hno _ hmem ⟨by omega, _, ?_, hne⟩
        rw [Option.mem_def, List.getElem?_drop, ← hx]
        congr 1
        omega
      have := hm (n - 1) _ _ hx hy hterm
      rwa [show n - 1 + 1 = n by omega] at this
    · exact take_eq_take_of_le hcov (by omega)
  · exact take_eq_take_of_le hpre hge

/-- **Taking over the entries of `s` after `prev` merges `s` into the logical log**, if the logs
match, agree up to `prev` and as far as the snapshot goes, and no conflict is cut off above a
snapshot. -/
theorem takeOver_eq_merge (hs : Indexed 0 s) (hm : LogMatching L s) (hprev : prev ≤ s.length)
    (hpre : L.take prev = s.take prev) (hr : r ≤ L.length)
    (hcov : L.take (min r s.length) = s.take (min r s.length))
    (hcut : 0 < r → ∀ e ∈ s.drop prev, ¬ Conflicts r (L.drop r) e) :
    L.take r ++ takeOver r (L.drop r) (s.drop prev) = merge L s := by
  have hentries : Indexed prev (s.drop prev) := by
    have := hs.drop hprev
    rwa [Nat.zero_add] at this
  have hprevL : prev ≤ L.length := by
    have := congrArg List.length hpre
    rw [List.length_take, List.length_take] at this
    omega
  have hlen : r + (L.drop r).length = L.length := by
    rw [List.length_drop]
    omega
  rcases first_conflict_or r (L.drop r) (s.drop prev) with hno | ⟨m, e, hme, hconf, hfirst⟩
  · have hagree := agree_of_no_conflict hs hm hpre hcov hno
    rw [takeOver_of_no_conflict hentries (by omega) hno, ← List.append_assoc,
      List.take_append_drop, hlen, List.drop_drop, Nat.add_sub_cancel' hprevL]
    rcases Nat.le_total s.length L.length with hle | hle
    · rw [min_eq_right hle, List.take_length] at hagree
      rw [List.drop_of_length_le hle, List.append_nil,
        merge_eq_left (hagree ▸ List.take_prefix _ _)]
    · rw [min_eq_left hle, List.take_length] at hagree
      have hLs : L <+: s := by
        rw [hagree]
        exact List.take_prefix _ _
      rw [merge_eq_of_prefix_right hLs, List.prefix_iff_eq_append.1 hLs]
  · obtain rfl : r = 0 := by
      by_contra hne
      exact hcut (Nat.pos_of_ne_zero hne) e (List.mem_of_getElem? hme) hconf
    have hidx := hentries m e hme
    rw [takeOver_of_conflict hentries hme hconf hfirst]
    obtain ⟨-, x, hx, hne⟩ := hconf
    have hx : L[prev + m]? = some x := by
      rw [Option.mem_def, List.drop_zero] at hx
      rwa [show e.index - 0 - 1 = prev + m by omega] at hx
    have hy : s[prev + m]? = some e := by rwa [List.getElem?_drop] at hme
    -- up to the conflict the logs agree
    have hagree : L.take (prev + m) = s.take (prev + m) := by
      cases m with
      | zero => exact hpre
      | succ k =>
          have hL : prev + k < L.length := by
            have := (List.getElem?_eq_some_iff.1 hx).1
            omega
          have hS : prev + k < s.length := by
            have := (List.getElem?_eq_some_iff.1 hy).1
            omega
          have hx' := List.getElem?_eq_getElem hL
          have hy' := List.getElem?_eq_getElem hS
          have hmem : s[prev + k] ∈ (s.drop prev).take (k + 1) := by
            rw [List.mem_iff_getElem?]
            exact ⟨k, by rw [List.getElem?_take_of_lt (Nat.lt_succ_self k), List.getElem?_drop, hy']⟩
          have hidx' := hs _ _ hy'
          refine hm (prev + k) _ _ hx' hy' ?_
          by_contra hne'
          refine hfirst _ hmem ⟨by omega, _, ?_, hne'⟩
          rw [Option.mem_def, List.drop_zero, ← hx']
          congr 1
          omega
    have hnot : ¬ s <+: L := by
      intro hsL
      obtain ⟨hlt, hye⟩ := List.getElem?_eq_some_iff.1 hy
      have := hsL.getElem hlt
      rw [(List.getElem?_eq_some_iff.1 hx).2] at this
      exact hne (congrArg LogEntry.term (this.symm.trans hye))
    rw [merge_eq_right hnot, List.take_zero, List.nil_append, List.drop_zero, List.drop_drop,
      hagree, List.take_append_drop]

/-- The same for the node that takes over the entries. -/
theorem Represents.takeOver (h : core.Represents L) (hs : Indexed 0 s) (hm : LogMatching L s)
    (hprev : prev ≤ s.length) (hpre : L.take prev = s.take prev)
    (hcov : L.take (min core.snapshotLastIndex s.length) =
      s.take (min core.snapshotLastIndex s.length))
    (hcut : 0 < core.snapshotLastIndex →
      ∀ e ∈ s.drop prev, ¬ Conflicts core.snapshotLastIndex core.log e)
    (hl : core'.log = takeOver core.snapshotLastIndex core.log (s.drop prev))
    (hs' : core'.snapshotLastIndex = core.snapshotLastIndex)
    (ht : core'.snapshotLastTerm = core.snapshotLastTerm) : core'.Represents (merge L s) := by
  rw [h.log_eq] at hcut hl
  have heq := takeOver_eq_merge hs hm hprev hpre h.snapshot_le hcov hcut
  have hlen : (L.take core.snapshotLastIndex).length = core.snapshotLastIndex := by
    rw [List.length_take, min_eq_left h.snapshot_le]
  rw [← heq]
  refine ⟨?_, ?_, ?_, ?_⟩
  · rw [heq]
    rcases merge_eq_or L s with h' | h' <;> rw [h']
    · exact h.indexed
    · exact hs
  · rw [hs', List.length_append, hlen]
    exact Nat.le_add_right _ _
  · rw [hl, hs', List.drop_left' hlen]
  · rw [ht, hs', h.term_eq, List.take_left' hlen]

end Merge

end RaftCore

end RaftVibe
