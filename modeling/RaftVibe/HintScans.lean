/-
**The scans behind the conflict hints.**

A follower that rejects a request names the first index that has the conflicting term, and the
leader looks for the last index of that term in its own log.  Both scan backwards from where they
are and stop at the first entry that tells them to.  In a contiguous log whose terms never decrease
that is enough: the scans find the first and the last index with the term.

Main definitions:

* `RaftVibe.RaftCore.TermsSorted` — the terms of the log never decrease, the snapshot's included;
* `RaftVibe.RaftCore.termAt` — the term that a node knows of an index.

Main results:

* `RaftVibe.RaftCore.findFirstIndexForTerm_spec`, `RaftVibe.RaftCore.findLastIndexForTerm_some`,
  `RaftVibe.RaftCore.findLastIndexForTerm_none` — what the scans find;
* `RaftVibe.RaftCore.scans_extreme` — **it is the least and the greatest index** with the term.
-/

import Mathlib.Order.Bounds.Basic
import RaftVibe.LogicalLog

set_option relaxedAutoImplicit false
set_option autoImplicit false

namespace RaftVibe

namespace RaftCore

variable {σ μ : Type} {core core' : RaftCore σ μ} {L : List LogEntry}

/-- The terms of the log never decrease, from the snapshot's on. -/
def TermsSorted (core : RaftCore σ μ) : Prop :=
  (core.snapshotLastTerm :: core.log.map LogEntry.term).Pairwise (· ≤ ·)

instance (core : RaftCore σ μ) : Decidable core.TermsSorted :=
  inferInstanceAs (Decidable (List.Pairwise _ _))

/-- The term that the node knows of an index: of its entry, or of the end of its snapshot. -/
def termAt (core : RaftCore σ μ) (i : ℕ) : Option ℕ :=
  if i = core.snapshotLastIndex then
    if 0 < i then some core.snapshotLastTerm else none
  else (core.getLogEntry i).map LogEntry.term

theorem termAt_of_entry {i : ℕ} {e : LogEntry} (h : core.getLogEntry i = some e) :
    core.termAt i = some e.term := by
  have hlt := (getLogEntry_eq_some.1 h).1
  rw [termAt, if_neg (Nat.ne_of_gt hlt), h]
  rfl

/-- The terms known are those of the logical log, from the end of the snapshot on. -/
theorem Represents.termAt_eq (h : core.Represents L) {i : ℕ} (hi : 0 < i)
    (hs : core.snapshotLastIndex ≤ i) : core.termAt i = (L[i - 1]?).map LogEntry.term := by
  unfold termAt
  split
  · rename_i heq
    subst heq
    have hlt : core.snapshotLastIndex - 1 < L.length := by
      have := h.snapshot_le
      omega
    have hget := List.getElem?_eq_getElem hlt
    have hlast := lastTerm_take hget
    rw [Nat.sub_add_cancel hi] at hlast
    rw [h.term_eq, hlast, hget]
    rfl
  · rename_i hne
    have hlt : core.snapshotLastIndex < i := by omega
    cases hget : core.getLogEntry i with
    | some e => rw [(h.getLogEntry_iff.1 hget).2]
    | none =>
        cases hL : L[i - 1]? with
        | none => rfl
        | some e => rw [h.getLogEntry_iff.2 ⟨hlt, hL⟩] at hget; exact absurd hget (by simp)

/-! ### The scan of the follower -/

/-- In a log whose terms never decrease, a term is found in one stretch. -/
theorem TermsSorted.term_le (h : core.TermsSorted) {i j : ℕ} {x y : LogEntry} (hij : i ≤ j)
    (hx : core.getLogEntry i = some x) (hy : core.getLogEntry j = some y) : x.term ≤ y.term := by
  obtain ⟨hi, hx⟩ := getLogEntry_eq_some.1 hx
  obtain ⟨hj, hy⟩ := getLogEntry_eq_some.1 hy
  rcases hij.eq_or_lt with rfl | hlt
  · rw [Option.some.inj (hx.symm.trans hy)]
  · have hlog := (List.pairwise_cons.1 h).2
    obtain ⟨hilt, hix⟩ := List.getElem?_eq_some_iff.1 hx
    obtain ⟨hjlt, hjy⟩ := List.getElem?_eq_some_iff.1 hy
    have hmap := List.pairwise_iff_getElem.1 hlog (i - core.snapshotLastIndex - 1)
      (j - core.snapshotLastIndex - 1) (by simpa using hilt) (by simpa using hjlt) (by omega)
    simpa only [List.getElem_map, hix, hjy] using hmap

/-- **The first index with the term**: the scan stays above the snapshot, and what lies before the
index it finds has an older term. -/
theorem findFirstIndexForTerm_spec (hc : core.Contiguous) (hs : core.TermsSorted) {t i : ℕ}
    {e : LogEntry} (he : core.getLogEntry i = some e) (ht : e.term = t) :
    core.snapshotLastIndex < core.findFirstIndexForTerm t i ∧
      core.findFirstIndexForTerm t i ≤ i ∧
      (∃ x, core.getLogEntry (core.findFirstIndexForTerm t i) = some x ∧ x.term = t) ∧
      ∀ j y, j < core.findFirstIndexForTerm t i → core.getLogEntry j = some y → y.term < t := by
  induction i generalizing e with
  | zero => exact absurd (getLogEntry_eq_some.1 he).1 (Nat.not_lt_zero _)
  | succ i ih =>
      have hi := (getLogEntry_eq_some.1 he).1
      -- what the scan answers when it stops here
      have hstop (hbelow : ∀ j y, j < i + 1 → core.getLogEntry j = some y → y.term < t) :
          core.snapshotLastIndex < i + 1 ∧ i + 1 ≤ i + 1 ∧
            (∃ x, core.getLogEntry (i + 1) = some x ∧ x.term = t) ∧
            ∀ j y, j < i + 1 → core.getLogEntry j = some y → y.term < t :=
        ⟨hi, le_rfl, ⟨e, he, ht⟩, hbelow⟩
      rw [findFirstIndexForTerm]
      split
      · rename_i hgt
        obtain ⟨x, hx⟩ := hc.exists_getLogEntry (i := i) (by omega) (by
          obtain ⟨-, hget⟩ := getLogEntry_eq_some.1 he
          have := (List.getElem?_eq_some_iff.1 hget).1
          rw [hc.lastLogIndex]
          omega)
        simp only [hx]
        have hle := hs.term_le (Nat.le_succ i) hx he
        split
        · rename_i hxt
          obtain ⟨h₁, h₂, h₃⟩ := ih hx hxt
          exact ⟨h₁, h₂.trans (Nat.le_succ i), h₃⟩
        · rename_i hxt
          refine hstop fun j y hj hy => ?_
          have := hs.term_le (Nat.le_of_lt_succ hj) hy hx
          omega
      · refine hstop fun j y hj hy => ?_
        have := (getLogEntry_eq_some.1 hy).1
        omega

/-- Whatever the terms are: the scan stays above the snapshot, and passes over the term alone. -/
theorem findFirstIndexForTerm_stretch {t i : ℕ} {e : LogEntry} (he : core.getLogEntry i = some e)
    (ht : e.term = t) : core.snapshotLastIndex < core.findFirstIndexForTerm t i ∧
      ∀ j, core.findFirstIndexForTerm t i ≤ j → j ≤ i →
        ∃ x, core.getLogEntry j = some x ∧ x.term = t := by
  induction i generalizing e with
  | zero => exact absurd (getLogEntry_eq_some.1 he).1 (Nat.not_lt_zero _)
  | succ i ih =>
      have hi := (getLogEntry_eq_some.1 he).1
      have hstop : core.snapshotLastIndex < i + 1 ∧ ∀ j, i + 1 ≤ j → j ≤ i + 1 →
          ∃ x, core.getLogEntry j = some x ∧ x.term = t := by
        refine ⟨hi, fun j hj hj' => ?_⟩
        obtain rfl := Nat.le_antisymm hj' hj
        exact ⟨e, he, ht⟩
      rw [findFirstIndexForTerm]
      split
      · split
        · rename_i x hx
          split
          · rename_i hxt
            obtain ⟨h₁, h₂⟩ := ih hx hxt
            refine ⟨h₁, fun j hj hj' => ?_⟩
            rcases Nat.le_succ_iff.1 hj' with hle | rfl
            · exact h₂ j hj hle
            · exact ⟨e, he, ht⟩
          · exact hstop
        · exact hstop
      · exact hstop

/-! ### The scan of the leader -/

/-- The scan of a list whose terms never increase and whose indices decrease. -/
theorem scanForTerm_spec {t : ℕ} {l : List LogEntry}
    (h : l.Pairwise fun x y => y.term ≤ x.term ∧ y.index < x.index) :
    match scanForTerm t l with
    | some i => (∃ e ∈ l, e.term = t ∧ e.index = i) ∧ ∀ e ∈ l, e.term = t → e.index ≤ i
    | none => ∀ e ∈ l, e.term ≠ t := by
  induction l with
  | nil => simp [scanForTerm]
  | cons x l ih =>
      obtain ⟨hx, hl⟩ := List.pairwise_cons.1 h
      rw [scanForTerm]
      split_ifs with heq hlt
      · refine ⟨⟨x, List.mem_cons_self .., heq, rfl⟩, fun e he _ => ?_⟩
        rcases List.mem_cons.1 he with rfl | he
        · exact le_rfl
        · exact (hx e he).2.le
      · -- everything further down is older still
        intro e he
        rcases List.mem_cons.1 he with rfl | he
        · exact heq
        · have := (hx e he).1
          omega
      · have := ih hl
        split at this
        · obtain ⟨⟨e, he, hte⟩, hmax⟩ := this
          refine ⟨⟨e, List.mem_cons_of_mem _ he, hte⟩, fun y hy hyt => ?_⟩
          rcases List.mem_cons.1 hy with rfl | hy
          · exact absurd hyt heq
          · exact hmax y hy hyt
        · exact List.forall_mem_cons.2 ⟨heq, this⟩

/-- The reversed log of a node is such a list. -/
theorem reverse_pairwise (hc : core.Contiguous) (hs : core.TermsSorted) :
    core.log.reverse.Pairwise fun x y => y.term ≤ x.term ∧ y.index < x.index := by
  rw [List.pairwise_reverse, List.pairwise_iff_getElem]
  intro i j hi hj hij
  have hlog := (List.pairwise_cons.1 hs).2
  have hmap := List.pairwise_iff_getElem.1 hlog i j (by simpa using hi) (by simpa using hj) hij
  have hx := hc i _ (List.getElem?_eq_getElem hi)
  have hy := hc j _ (List.getElem?_eq_getElem hj)
  exact ⟨by simpa only [List.getElem_map] using hmap, by omega⟩

/-- The entries of a contiguous log are those found by index. -/
theorem Contiguous.mem_log (hc : core.Contiguous) {e : LogEntry} :
    e ∈ core.log ↔ core.getLogEntry e.index = some e := by
  constructor
  · intro he
    obtain ⟨hlt, -, hget⟩ := Indexed.mem hc he
    exact getLogEntry_eq_some.2 ⟨hlt, hget⟩
  · intro he
    exact List.mem_of_getElem? (getLogEntry_eq_some.1 he).2

/-- **The last index with the term**, if the node knows one. -/
theorem findLastIndexForTerm_some (hc : core.Contiguous) (hs : core.TermsSorted) {t i : ℕ}
    (h : core.findLastIndexForTerm t = some i) :
    core.termAt i = some t ∧ ∀ j, i < j → core.termAt j ≠ some t := by
  have hscan := scanForTerm_spec (t := t) (reverse_pairwise hc hs)
  have habove {j : ℕ} (hj : core.snapshotLastIndex < j) (hjt : core.termAt j = some t) :
      ∃ e ∈ core.log, e.term = t ∧ e.index = j := by
    rw [termAt, if_neg (Nat.ne_of_gt hj)] at hjt
    obtain ⟨e, he, het⟩ := Option.map_eq_some_iff.1 hjt
    exact ⟨e, List.mem_of_getElem? (getLogEntry_eq_some.1 he).2, het, hc.getLogEntry_index he⟩
  unfold findLastIndexForTerm at h
  split at h
  · rename_i k hk
    obtain rfl := Option.some.inj h
    rw [hk] at hscan
    obtain ⟨⟨e, he, het, rfl⟩, hmax⟩ := hscan
    have hget := hc.mem_log.1 (List.mem_reverse.1 he)
    refine ⟨het ▸ termAt_of_entry hget, fun j hj hjt => ?_⟩
    have hlt := (getLogEntry_eq_some.1 hget).1
    obtain ⟨x, hx, hxt, rfl⟩ := habove (hlt.trans hj) hjt
    exact absurd (hmax x (List.mem_reverse.2 hx) hxt) (Nat.not_le.2 hj)
  · rename_i hk
    rw [hk] at hscan
    split at h
    · rename_i hboundary
      obtain rfl := Option.some.inj h
      refine ⟨by rw [termAt, if_pos rfl, if_pos hboundary.2, hboundary.1], fun j hj hjt => ?_⟩
      obtain ⟨x, hx, hxt, -⟩ := habove hj hjt
      exact hscan x (List.mem_reverse.2 hx) hxt
    · simp at h

/-- Whatever the terms are: what the scan finds lies at or above the end of the snapshot. -/
theorem findLastIndexForTerm_ge (hc : core.Contiguous) {t i : ℕ}
    (h : core.findLastIndexForTerm t = some i) : core.snapshotLastIndex ≤ i := by
  have hfound {l : List LogEntry} {k : ℕ} (hk : scanForTerm t l = some k) :
      ∃ e ∈ l, e.index = k := by
    induction l with
    | nil => simp [scanForTerm] at hk
    | cons x l ih =>
        rw [scanForTerm] at hk
        split_ifs at hk
        · exact ⟨x, List.mem_cons_self .., Option.some.inj hk⟩
        · obtain ⟨e, he, hek⟩ := ih hk
          exact ⟨e, List.mem_cons_of_mem _ he, hek⟩
  unfold findLastIndexForTerm at h
  split at h
  · rename_i k hk
    obtain rfl := Option.some.inj h
    obtain ⟨e, he, rfl⟩ := hfound hk
    exact (getLogEntry_eq_some.1 (hc.mem_log.1 (List.mem_reverse.1 he))).1.le
  · split at h
    · exact (Option.some.inj h).le
    · simp at h

/-- The node knows no index with the term. -/
theorem findLastIndexForTerm_none (hc : core.Contiguous) (hs : core.TermsSorted) {t : ℕ}
    (h : core.findLastIndexForTerm t = none) (j : ℕ) : core.termAt j ≠ some t := by
  have hscan := scanForTerm_spec (t := t) (reverse_pairwise hc hs)
  unfold findLastIndexForTerm at h
  split at h
  · simp at h
  · rename_i hk
    rw [hk] at hscan
    split at h
    · simp at h
    · rename_i hboundary
      unfold termAt
      split
      · rename_i heq
        split
        · rename_i hpos
          intro hjt
          exact hboundary ⟨Option.some.inj hjt, heq ▸ hpos⟩
        · simp
      · intro hjt
        obtain ⟨e, he, het⟩ := Option.map_eq_some_iff.1 hjt
        exact hscan e (List.mem_reverse.2 (List.mem_of_getElem? (getLogEntry_eq_some.1 he).2)) het

/-! ### Both scans -/

/-- The node knows an index with the term: of an entry in memory, or the end of its snapshot. -/
theorem exists_termAt_iff (hc : core.Contiguous) {t : ℕ} :
    (∃ j, core.termAt j = some t) ↔
      (∃ e ∈ core.log, e.term = t) ∨ (core.snapshotLastTerm = t ∧ 0 < core.snapshotLastIndex) := by
  constructor
  · rintro ⟨j, hj⟩
    unfold termAt at hj
    split at hj
    · rename_i heq
      split at hj
      · rename_i hpos
        exact Or.inr ⟨Option.some.inj hj, heq ▸ hpos⟩
      · cases hj
    · obtain ⟨e, he, het⟩ := Option.map_eq_some_iff.1 hj
      exact Or.inl ⟨e, List.mem_of_getElem? (getLogEntry_eq_some.1 he).2, het⟩
  · rintro (⟨e, he, rfl⟩ | ⟨rfl, hpos⟩)
    · exact ⟨e.index, termAt_of_entry (hc.mem_log.1 he)⟩
    · exact ⟨core.snapshotLastIndex, by rw [termAt, if_pos rfl, if_pos hpos]⟩

theorem findFirstIndexForTerm_isLeast (hc : core.Contiguous) (hs : core.TermsSorted) {i : ℕ}
    {e : LogEntry} (he : core.getLogEntry i = some e) :
    IsLeast {j | core.snapshotLastIndex < j ∧ core.termAt j = some e.term}
      (core.findFirstIndexForTerm e.term i) := by
  obtain ⟨hlt, -, ⟨x, hx, hxt⟩, hbelow⟩ := findFirstIndexForTerm_spec hc hs he rfl
  refine ⟨⟨hlt, (termAt_of_entry hx).trans (congrArg some hxt)⟩, ?_⟩
  rintro j ⟨hj, hjt⟩
  rw [termAt, if_neg (Nat.ne_of_gt hj)] at hjt
  obtain ⟨y, hy, hyt⟩ := Option.map_eq_some_iff.1 hjt
  by_contra hji
  have := hbelow j y (not_le.1 hji) hy
  omega

theorem findLastIndexForTerm_isGreatest (hc : core.Contiguous) (hs : core.TermsSorted) {t i : ℕ}
    (h : core.findLastIndexForTerm t = some i) : IsGreatest {j | core.termAt j = some t} i := by
  obtain ⟨hi, habove⟩ := findLastIndexForTerm_some hc hs h
  exact ⟨hi, fun j hj => not_lt.1 fun hlt => habove j hlt hj⟩

/-- **The scans find the extreme indices.**  In a log without gaps whose terms never decrease, the
scan of the follower finds the least index above the snapshot with the term of the entry it starts
from; the scan of the leader finds the greatest index known to have the term, the end of the snapshot
included, and nothing exactly if there is none. -/
theorem scans_extreme (hc : core.Contiguous) (hs : core.TermsSorted) :
    (∀ i e, core.getLogEntry i = some e →
      IsLeast {j | core.snapshotLastIndex < j ∧ core.termAt j = some e.term}
        (core.findFirstIndexForTerm e.term i)) ∧
    ∀ t, (∀ i, core.findLastIndexForTerm t = some i ↔ IsGreatest {j | core.termAt j = some t} i) ∧
      (core.findLastIndexForTerm t = none ↔ (∀ e ∈ core.log, e.term ≠ t) ∧
        ¬ (core.snapshotLastTerm = t ∧ 0 < core.snapshotLastIndex)) := by
  refine ⟨fun i e he => findFirstIndexForTerm_isLeast hc hs he, fun t => ⟨fun i => ?_, ?_⟩⟩
  · constructor
    · exact findLastIndexForTerm_isGreatest hc hs
    · intro hgreatest
      cases hfind : core.findLastIndexForTerm t with
      | none => exact absurd hgreatest.1 (findLastIndexForTerm_none hc hs hfind i)
      | some k => rw [(findLastIndexForTerm_isGreatest hc hs hfind).unique hgreatest]
  · have hknown : (∀ e ∈ core.log, e.term ≠ t) ∧
        ¬ (core.snapshotLastTerm = t ∧ 0 < core.snapshotLastIndex) ↔
          ¬ ∃ j, core.termAt j = some t := by
      rw [exists_termAt_iff hc, not_or]
      simp only [not_exists, ne_eq, not_and]
    rw [hknown]
    constructor
    · rintro hnone ⟨j, hj⟩
      exact findLastIndexForTerm_none hc hs hnone j hj
    · intro hno
      cases hfind : core.findLastIndexForTerm t with
      | none => rfl
      | some k => exact absurd ⟨k, (findLastIndexForTerm_isGreatest hc hs hfind).1⟩ hno

/-- A node with a snapshot up to index `2`, of term `1`, and four entries above it. -/
def scannedNode : RaftCore Unit Unit :=
  { RaftCore.fresh 1 [2, 3] () () with
    currentTerm := 4
    snapshotLastIndex := 2
    snapshotLastTerm := 1
    log := [⟨1, 3, "SET x 1"⟩, ⟨2, 4, noopCommand⟩, ⟨2, 5, "SET x 2"⟩, ⟨4, 6, noopCommand⟩] }

theorem scans_extreme_example :
    IsLeast {j | 2 < j ∧ scannedNode.termAt j = some 1} 3 ∧
      IsLeast {j | 2 < j ∧ scannedNode.termAt j = some 2} 4 ∧
      IsGreatest {j | scannedNode.termAt j = some 1} 3 ∧
      IsGreatest {j | scannedNode.termAt j = some 2} 5 ∧
      scannedNode.findLastIndexForTerm 3 = none := by
  have hcontiguous : scannedNode.Contiguous :=
    show Indexed 2 [⟨1, 3, "SET x 1"⟩, ⟨2, 4, noopCommand⟩, ⟨2, 5, "SET x 2"⟩, ⟨4, 6, noopCommand⟩]
      by decide
  obtain ⟨hfirst, hlast⟩ := scans_extreme hcontiguous (by decide : scannedNode.TermsSorted)
  exact ⟨hfirst 3 ⟨1, 3, "SET x 1"⟩ rfl, hfirst 5 ⟨2, 5, "SET x 2"⟩ rfl,
    ((hlast 1).1 3).1 rfl, ((hlast 2).1 5).1 rfl, (hlast 3).2.2 ⟨by decide, by decide⟩⟩

end RaftCore

end RaftVibe
