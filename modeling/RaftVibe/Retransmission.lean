/-
**Handling the same AppendEntries request twice.**

A leader whose reply was lost sends the request again.  The second handling should find everything
there already: the check on `prev_log_index` passes again, the walk over the entries passes over all
of them, and the commit index is where it should be.  Two branches of the first handling get in the
way.  An automatic snapshot that ends above `prev_log_index` moves the boundary past it, and then the
check fails.  And a conflict that is cut off above a snapshot is cut off at the wrong position, so
the entry that conflicts is still there.

Main definitions:

* `RaftVibe.Present`, `RaftVibe.AheadBy` — an entry is passed over; a vector whose entries come early;
* `RaftVibe.RaftCore.Compacts` — the request commits far enough for a snapshot;
* `RaftVibe.RaftCore.Repeats` — handling it again changes nothing;
* `RaftVibe.RaftCore.Repeatable` — the condition on the request and the node;
* `RaftVibe.RaftCore.CommitsCut` — a request for which it may be more than is needed.

Main results:

* `RaftVibe.takeOver_fixed_iff` — when a walk that is repeated changes nothing;
* `RaftVibe.RaftCore.repeats_of_repeatable` — **when a request can be sent again**.
-/

import RaftVibe.Representation

set_option relaxedAutoImplicit false
set_option autoImplicit false

namespace RaftVibe

/-! ### Walking twice -/

/-- The walk passes over the entry: it is in the snapshot, or its place has an entry of its term. -/
def Present (sli : ℕ) (log : List LogEntry) (entry : LogEntry) : Prop :=
  entry.index ≤ sli ∨ ∃ existing ∈ log[entry.index - sli - 1]?, existing.term = entry.term

/-- Every entry comes at least `d` positions before the place of its index without a snapshot. -/
def AheadBy (d : ℕ) (log : List LogEntry) : Prop := ∀ k e, log[k]? = some e → d + k < e.index

namespace AheadBy

variable {d d' : ℕ} {l l' : List LogEntry} {e : LogEntry}

theorem cons_iff : AheadBy d (e :: l) ↔ d < e.index ∧ AheadBy (d + 1) l := by
  constructor
  · intro h
    refine ⟨h 0 e rfl, fun k x hx => ?_⟩
    have := h (k + 1) x (by simpa using hx)
    omega
  · rintro ⟨he, h⟩ k x hx
    cases k with
    | zero =>
        obtain rfl : e = x := by simpa using hx
        exact he
    | succ k =>
        have := h k x (by simpa using hx)
        omega

theorem append (h : AheadBy d l) (h' : AheadBy (d + l.length) l') : AheadBy d (l ++ l') := by
  induction l generalizing d with
  | nil => exact h'
  | cons e l ih =>
      obtain ⟨he, hl⟩ := cons_iff.1 h
      refine cons_iff.2 ⟨he, ih hl ?_⟩
      rwa [List.length_cons, Nat.add_comm l.length, ← Nat.add_assoc] at h'

theorem mono (h : AheadBy d l) (hle : d' ≤ d) : AheadBy d' l := by
  intro k e he
  have := h k e he
  omega

/-- Leaving entries out only brings the others forward. -/
theorem sublist (h : AheadBy d l) (hs : l'.Sublist l) : AheadBy d l' := by
  induction hs generalizing d with
  | slnil => exact h
  | cons e _ ih => exact ih ((cons_iff.1 h).2.mono (Nat.le_succ d))
  | cons_cons e _ ih =>
      obtain ⟨he, hl⟩ := cons_iff.1 h
      exact cons_iff.2 ⟨he, ih hl⟩

theorem of_indexed (h : Indexed d l) : AheadBy d l := by
  intro k e he
  have := h k e he
  omega

end AheadBy

section Walk

variable {sli b m : ℕ} {log entries rest : List LogEntry} {e : LogEntry}

theorem takeOver_of_present (h : ∀ e ∈ entries, Present sli log e) :
    takeOver sli log entries = log := by
  have hwalk : takeOver sli log (entries ++ []) = takeOver sli log [] :=
    takeOver_append_of_present h
  rwa [List.append_nil] at hwalk

/-- Once the vector is no longer than the index before the entries, they are only appended. -/
theorem takeOver_appends (sli : ℕ) (log : List LogEntry) (h : Indexed b rest)
    (hb : log.length ≤ b) : ∃ l, l.Sublist rest ∧ takeOver sli log rest = log ++ l := by
  induction rest generalizing b log with
  | nil => exact ⟨[], List.Sublist.refl _, (List.append_nil _).symm⟩
  | cons e rest ih =>
      obtain ⟨he, hrest⟩ := Indexed.cons_iff.1 h
      -- the entry is passed over
      have hskip : ∃ l, l.Sublist (e :: rest) ∧ takeOver sli log rest = log ++ l := by
        obtain ⟨l, hl, heq⟩ := ih log hrest (by omega)
        exact ⟨l, hl.cons e, heq⟩
      -- the entry is appended
      have hpush : ∃ l, l.Sublist (e :: rest) ∧ takeOver sli (log ++ [e]) rest = log ++ l := by
        obtain ⟨l, hl, heq⟩ := ih (log ++ [e]) hrest
          (by rw [List.length_append, List.length_singleton]; omega)
        exact ⟨e :: l, hl.cons_cons e, by rw [heq, List.append_assoc, List.singleton_append]⟩
      rw [takeOver]
      split
      · exact hskip
      · split
        · split
          · rwa [List.take_of_length_le (by omega)]
          · exact hskip
        · exact hpush

/-- The walk up to the first entry that is not passed over, and what is left of it after that. -/
theorem takeOver_of_first_absent (h : Indexed b entries) (hm : entries[m]? = some e)
    (habsent : ¬ Present sli log e) (hfirst : ∀ x ∈ entries.take m, Present sli log x) :
    ∃ l, (e :: l).Sublist (entries.drop m) ∧
      takeOver sli log entries = log.take (e.index - 1) ++ e :: l := by
  have hidx := h m e hm
  obtain ⟨hmlt, hme⟩ := List.getElem?_eq_some_iff.1 hm
  have hdrop : entries.drop m = e :: entries.drop (m + 1) := by
    rw [← List.getElem_cons_drop hmlt, hme]
  have hwalk : takeOver sli log entries =
      takeOver sli (log.take (e.index - 1) ++ [e]) (entries.drop (m + 1)) := by
    conv_lhs => rw [← List.take_append_drop m entries, hdrop]
    rw [takeOver_append_of_present hfirst, takeOver,
      if_neg fun hle => habsent (Or.inl hle)]
    split
    · rename_i x hx
      rw [if_pos fun hterm => habsent (Or.inr ⟨x, hx, hterm⟩)]
    · rename_i hnone
      rw [List.getElem?_eq_none_iff] at hnone
      rw [List.take_of_length_le (by omega)]
  obtain ⟨l, hl, heq⟩ := takeOver_appends sli (log.take (e.index - 1) ++ [e])
    (h.drop (Nat.succ_le_of_lt hmlt)) (by
      rw [List.length_append, List.length_take, List.length_singleton]
      omega)
  refine ⟨l, by rw [hdrop]; exact hl.cons_cons e, ?_⟩
  rw [hwalk, heq, List.append_assoc, List.singleton_append]

/-- **A walk over a vector whose entries come early** changes nothing only if it passes over every
entry. -/
theorem takeOver_fixed_iff (h : Indexed b entries) (hahead : AheadBy 1 log) :
    takeOver sli log entries = log ↔ ∀ e ∈ entries, Present sli log e := by
  constructor
  · intro hfix
    rcases exists_first_or (fun e => ¬ Present sli log e) entries with
      hall | ⟨m, e, hm, habsent, hfirst⟩
    · exact fun e he => not_not.1 (hall e he)
    · obtain ⟨l, -, heq⟩ := takeOver_of_first_absent h hm habsent fun x hx => not_not.1 (hfirst x hx)
      have hidx := h m e hm
      rw [hfix] at heq
      -- the entry was put at a position where no entry with its index can be
      have hlen : (log.take (e.index - 1)).length = e.index - 1 := by
        rw [List.length_take, min_eq_left]
        by_contra hlt
        rw [List.take_of_length_le (by omega)] at heq
        have := congrArg List.length heq
        simp only [List.length_append, List.length_cons] at this
        omega
      have hget : log[e.index - 1]? = some e := by
        rw [heq, List.getElem?_append_right (by rw [hlen]), hlen, Nat.sub_self]
        rfl
      have := hahead _ _ hget
      omega
  · exact takeOver_of_present

/-- **Where no conflict is cut off above a snapshot**, every entry is in place after the walk. -/
theorem present_takeOver (hlog : Indexed sli log) (h : Indexed b entries)
    (hb : b ≤ sli + log.length) (hcut : 0 < sli → ∀ e ∈ entries, ¬ Conflicts sli log e)
    (he : e ∈ entries) : Present sli (takeOver sli log entries) e := by
  rcases Nat.lt_or_ge sli e.index with hlt | hle
  · right
    obtain ⟨hbe, hebl, hget⟩ := h.mem he
    rcases first_conflict_or sli log entries with hno | ⟨m, c, hm, hconf, hfirst⟩
    · rw [takeOver_of_no_conflict h hb hno]
      rcases Nat.lt_or_ge (e.index - sli - 1) log.length with hin | hout
      · rw [List.getElem?_append_left hin, List.getElem?_eq_getElem hin]
        refine ⟨_, rfl, ?_⟩
        by_contra hne
        exact hno e he ⟨hlt, _, List.getElem?_eq_getElem hin, hne⟩
      · refine ⟨e, ?_, rfl⟩
        rw [List.getElem?_append_right hout, List.getElem?_drop, Option.mem_def, ← hget]
        congr 1
        omega
    · obtain rfl : sli = 0 := by
        by_contra hne
        exact hcut (Nat.pos_of_ne_zero hne) c (List.mem_of_getElem? hm) hconf
      rw [takeOver_of_conflict h hm hconf hfirst]
      have hcm := h m c hm
      obtain ⟨-, x, hx, -⟩ := hconf
      obtain ⟨hclt, -⟩ := List.getElem?_eq_some_iff.1 hx
      have hlen : (log.take (b + m)).length = b + m := by
        rw [List.length_take]
        omega
      rcases Nat.lt_or_ge (e.index - 0 - 1) (b + m) with hin | hout
      · rw [List.getElem?_append_left (by omega), List.getElem?_take_of_lt hin,
          List.getElem?_eq_getElem (by omega)]
        refine ⟨_, rfl, ?_⟩
        by_contra hne
        have hmem : (entries.take m)[e.index - b - 1]? = some e := by
          rw [List.getElem?_take_of_lt (by omega), hget]
        exact hfirst e (List.mem_of_getElem? hmem) ⟨hlt, _, List.getElem?_eq_getElem (by omega), hne⟩
      · refine ⟨e, ?_, rfl⟩
        rw [List.getElem?_append_right (by omega), hlen, List.getElem?_drop, Option.mem_def, ← hget]
        congr 1
        omega
  · exact Or.inl hle

/-! ### Conflicts above a snapshot -/

/-- The first entry of the request that conflicts. -/
structure FirstConflict (sli : ℕ) (log entries : List LogEntry) (m : ℕ) (e : LogEntry) : Prop where
  get : entries[m]? = some e
  conflicts : Conflicts sli log e
  first : ∀ x ∈ entries.take m, ¬ Conflicts sli log x

theorem Conflicts.not_present (h : Conflicts sli log e) : ¬ Present sli log e := by
  obtain ⟨hlt, x, hx, hne⟩ := h
  rintro (hle | ⟨y, hy, hterm⟩)
  · omega
  · rw [Option.mem_unique hy hx] at hterm
    exact hne hterm

theorem present_of_not_conflicts (h : ¬ Conflicts sli log e)
    (hin : e.index - sli - 1 < log.length) : Present sli log e := by
  rcases Nat.lt_or_ge sli e.index with hlt | hle
  · refine Or.inr ⟨_, List.getElem?_eq_getElem hin, ?_⟩
    by_contra hne
    exact h ⟨hlt, _, List.getElem?_eq_getElem hin, hne⟩
  · exact Or.inl hle

namespace FirstConflict

/-- The entry that conflicts lies inside the vector. -/
theorem lt_length (hc : FirstConflict sli log entries m e) :
    sli < e.index ∧ e.index - sli - 1 < log.length := by
  obtain ⟨hlt, x, hx, -⟩ := hc.conflicts
  exact ⟨hlt, (List.getElem?_eq_some_iff.1 hx).1⟩

/-- What the walk makes of a conflict: the vector cut at the index, not at the position, of the
entry, and entries of the request from this one on. -/
theorem takeOver_eq (hc : FirstConflict sli log entries m e) (h : Indexed b entries) :
    ∃ l, (e :: l).Sublist (entries.drop m) ∧
      takeOver sli log entries = log.take (e.index - 1) ++ e :: l := by
  obtain ⟨hlt, hin⟩ := hc.lt_length
  have hidx := h m e hc.get
  refine takeOver_of_first_absent h hc.get hc.conflicts.not_present fun x hx => ?_
  obtain ⟨-, hle, -⟩ := (h.take m).mem hx
  have := List.length_take_le m entries
  exact present_of_not_conflicts (hc.first x hx) (by omega)

/-- The cut keeps the entry that conflicts. -/
theorem getElem?_takeOver (hc : FirstConflict sli log entries m e) (hpos : 0 < sli)
    (h : Indexed b entries) {k : ℕ} (hk : k ≤ e.index - sli - 1) :
    (takeOver sli log entries)[k]? = log[k]? := by
  obtain ⟨hlt, hin⟩ := hc.lt_length
  obtain ⟨l, -, heq⟩ := hc.takeOver_eq h
  have hlen := List.length_take (l := log) (i := e.index - 1)
  rw [heq, List.getElem?_append_left (by omega), List.getElem?_take_of_lt (by omega)]

theorem again (hc : FirstConflict sli log entries m e) (hpos : 0 < sli) (h : Indexed b entries) :
    FirstConflict sli (takeOver sli log entries) entries m e := by
  have hidx := h m e hc.get
  refine ⟨hc.get, ⟨hc.conflicts.1, ?_⟩, fun x hx => ?_⟩
  · rw [hc.getElem?_takeOver hpos h le_rfl]
    exact hc.conflicts.2
  · obtain ⟨-, hle, -⟩ := (h.take m).mem hx
    have := List.length_take_le m entries
    have hxc := hc.first x hx
    rwa [Conflicts, ← hc.getElem?_takeOver hpos h (k := x.index - sli - 1) (by omega)] at hxc

theorem aheadBy (hc : FirstConflict sli log entries m e) (hlog : Indexed sli log)
    (h : Indexed b entries) {d : ℕ} (hd : d ≤ sli)
    (hlen : d + (log.take (e.index - 1)).length ≤ e.index - 1) :
    AheadBy d (takeOver sli log entries) := by
  obtain ⟨l, hl, heq⟩ := hc.takeOver_eq h
  obtain ⟨hmlt, -⟩ := List.getElem?_eq_some_iff.1 hc.get
  have hidx := h m e hc.get
  rw [heq]
  refine AheadBy.append ((AheadBy.of_indexed (hlog.take _)).mono hd) ?_
  refine AheadBy.mono ?_ hlen
  have := (AheadBy.of_indexed (h.drop hmlt.le)).sublist hl
  rwa [show b + m = e.index - 1 by omega] at this

/-- **A conflict above a snapshot is cut off again**, and nothing changes, if the cut did not reach
beyond the vector; else the entries are appended once more. -/
theorem takeOver_again_iff (hc : FirstConflict sli log entries m e) (hpos : 0 < sli)
    (hlog : Indexed sli log) (h : Indexed b entries) :
    takeOver sli (takeOver sli log entries) entries = takeOver sli log entries ↔
      e.index ≤ log.length + 1 := by
  obtain ⟨hlt, hin⟩ := hc.lt_length
  have hlen := List.length_take (l := log) (i := e.index - 1)
  constructor
  · intro hfix
    by_contra hgt
    have hahead : AheadBy 1 (takeOver sli log entries) := hc.aheadBy hlog h hpos (by omega)
    exact (hc.again hpos h).conflicts.not_present
      ((takeOver_fixed_iff h hahead).1 hfix e (List.mem_of_getElem? hc.get))
  · intro hle
    have hagain := hc.again hpos h
    obtain ⟨l, -, heq⟩ := hc.takeOver_eq h
    have htake : (takeOver sli log entries).take (e.index - 1) = log.take (e.index - 1) := by
      rw [heq, List.take_append_of_le_length (by omega), List.take_take, Nat.min_self]
    rw [takeOver_of_first_conflict h hagain.get hagain.conflicts hagain.first, htake]
    exact (takeOver_of_first_conflict h hc.get hc.conflicts hc.first).symm

/-- After a compaction the entries come early, wherever the cut was. -/
theorem aheadBy_compacted (hc : FirstConflict sli log entries m e) (hpos : 0 < sli)
    (hlog : Indexed sli log) (h : Indexed b entries) {r : ℕ} (hr : sli < r) :
    AheadBy 1 ((takeOver sli log entries).filter fun e => e.index ≥ r + 1) := by
  obtain ⟨hlt, hin⟩ := hc.lt_length
  have hlen := List.length_take (l := log) (i := e.index - 1)
  have hahead : AheadBy 0 (takeOver sli log entries) :=
    hc.aheadBy hlog h (Nat.zero_le _) (by omega)
  have hhead : (takeOver sli log entries)[0]? = log[0]? :=
    hc.getElem?_takeOver hpos h (Nat.zero_le _)
  have hfirst := hlog 0 log[0] (List.getElem?_eq_getElem (by omega))
  rw [List.getElem?_eq_getElem (show 0 < log.length by omega)] at hhead
  -- the first entry of the vector is compacted away
  cases hV : takeOver sli log entries with
  | nil => simp [hV] at hhead
  | cons x tail =>
      obtain rfl : x = log[0] := by simpa [hV] using hhead
      rw [hV, AheadBy.cons_iff] at hahead
      rw [List.filter_cons_of_neg (by simp only [decide_eq_true_eq]; omega)]
      exact hahead.2.sublist List.filter_sublist

/-- A compaction below the conflict keeps the entry that conflicts, at its place. -/
theorem conflicts_compacted (hc : FirstConflict sli log entries m e) (hpos : 0 < sli)
    (hlog : Indexed sli log) (h : Indexed b entries) {r : ℕ} (hr : sli ≤ r) (hre : r < e.index) :
    Conflicts r ((takeOver sli log entries).filter fun e => e.index ≥ r + 1) e := by
  obtain ⟨hlt, hin⟩ := hc.lt_length
  have hlen := List.length_take (l := log) (i := e.index - 1)
  obtain ⟨l, -, heq⟩ := hc.takeOver_eq h
  have hfilter : ((log.take (e.index - 1)).filter fun e => e.index ≥ r + 1) =
      (log.take (e.index - 1)).drop (r - sli) := (hlog.take _).filter_gt r
  refine ⟨hre, ?_⟩
  rw [heq, List.filter_append, hfilter, List.getElem?_append_left (by
    rw [List.length_drop]; omega), List.getElem?_drop, List.getElem?_take_of_lt (by omega),
    show r - sli + (e.index - r - 1) = e.index - sli - 1 by omega]
  exact hc.conflicts.2

end FirstConflict

end Walk

namespace RaftCore

variable {σ μ : Type} [Storage σ] [Snapshotable μ] {core core₁ core' : RaftCore σ μ}
  {args : AppendEntriesArgs}

/-! ### When a snapshot is taken -/

/-- An automatic snapshot is due, and can be taken. -/
def SnapshotDue (core : RaftCore σ μ) : Prop :=
  0 < core.snapshotThreshold ∧
    core.snapshotThreshold ≤ core.lastApplied - core.snapshotLastIndex ∧
    core.getLogEntry core.lastApplied ≠ none ∧
    ∃ data, Snapshotable.snapshot core.stateMachine = .ok data

theorem autoSnapshot_of_not_due (h : ¬ core.SnapshotDue) : core.autoSnapshot = core := by
  simp only [autoSnapshot]
  split
  · rename_i hpos
    split
    · rename_i hdue
      have hout := takeSnapshot_outcome core
      generalize core.takeSnapshot = r at hout ⊢
      have hno : ∀ entry data, core.getLogEntry core.lastApplied = some entry →
          Snapshotable.snapshot core.stateMachine = .ok data → False :=
        fun entry data he hdata => h ⟨hpos, hdue, by simp [he], data, hdata⟩
      cases hout with
      | refused => rfl
      | notSaved entry data _ _ _ _ he hdata => exact (hno entry data he hdata).elim
      | notCompacted entry data _ _ _ _ _ he hdata => exact (hno entry data he hdata).elim
      | taken entry data _ _ _ he hdata => exact (hno entry data he hdata).elim
    · rfl
  · rfl

theorem autoSnapshot_of_due [InfallibleStorage σ] (h : core.SnapshotDue) :
    core.Compacted core.autoSnapshot := by
  obtain ⟨hpos, hdue, he, data, hdata⟩ := h
  have heq : core.autoSnapshot = core.takeSnapshot.1 := by
    simp only [autoSnapshot]
    rw [if_pos hpos, if_pos hdue]
  rw [heq]
  rcases takeSnapshot_cases core with hsame | hc
  · -- a snapshot moves the boundary
    have hout := takeSnapshot_outcome core
    generalize core.takeSnapshot = r at hout hsame ⊢
    cases hout with
    | refused _ hor =>
        rcases hor with hle | hnone | ⟨e, hfail⟩
        · omega
        · exact absurd hnone he
        · rw [hdata] at hfail
          cases hfail
    | notSaved entry data _ _ _ _ _ _ hsave =>
        have := InfallibleStorage.saveSnapshot_ok core.storage
          ⟨⟨core.lastApplied, entry.term⟩, data⟩
        rw [hsave] at this
        cases this
    | notCompacted =>
        have := congrArg snapshotLastIndex hsame
        simp only at this
        omega
    | taken =>
        have := congrArg snapshotLastIndex hsame
        simp only at this
        omega
  · exact hc

/-- The node after it has taken the entries over, raised its commit index and applied. -/
def applied (core : RaftCore σ μ) (args : AppendEntriesArgs) : RaftCore σ μ :=
  let core := { core with log := takeOver core.snapshotLastIndex core.log args.entries }
  let commitIndex := min args.leaderCommit core.lastLogIndex
  let es := (core.log.drop (core.lastApplied - core.snapshotLastIndex)).take
    (commitIndex - core.lastApplied)
  { core with
    commitIndex
    lastApplied := max core.lastApplied commitIndex
    stateMachine := foldCommands core.stateMachine (es.map LogEntry.command) }

/-- Accepting the entries, with the commands that are applied read off the vector. -/
theorem acceptEntries_applied (hs : core.snapshotLastIndex ≤ core.lastApplied)
    (h : core.acceptEntries args = .ok core') : ∃ s,
    (args.leaderCommit ≤ core.commitIndex ∧ core' = { core with
      log := takeOver core.snapshotLastIndex core.log args.entries, storage := s }) ∨
    (core.commitIndex < args.leaderCommit ∧
      core' = autoSnapshot { core.applied args with storage := s }) := by
  obtain ⟨s, core₁, -, hcore₁, hor⟩ := acceptEntries_ok h
  refine ⟨s, ?_⟩
  subst hcore₁
  rcases hor with ⟨hle, rfl⟩ | ⟨hlt, results, happly⟩
  · exact Or.inl ⟨hle, rfl⟩
  · refine Or.inr ⟨hlt, ?_⟩
    obtain ⟨es, hlen, hes, -, rfl⟩ := applyCommittedEntries_ok happly
    have hes' : es = ((takeOver core.snapshotLastIndex core.log args.entries).drop
        (core.lastApplied - core.snapshotLastIndex)).take es.length := by
      refine List.ext_getElem? fun k => ?_
      rcases Nat.lt_or_ge k es.length with hk | hk
      · rw [List.getElem?_take_of_lt hk, List.getElem?_drop, ← hes k hk, getLogEntry,
          if_neg (by simp only; omega)]
        congr 1
        simp only
        omega
      · rw [List.getElem?_eq_none hk, List.getElem?_take_eq_none hk]
    rw [hlen] at hes'
    rw [hes']
    rfl

theorem autoSnapshot_commitIndex (core : RaftCore σ μ) :
    core.autoSnapshot.commitIndex = core.commitIndex := by
  obtain ⟨s, i, t, l, heq⟩ := autoSnapshot_eq core
  rw [heq]

/-- A snapshot that leaves the boundary where it is leaves the vector alone. -/
theorem autoSnapshot_log_of_boundary
    (h : core.autoSnapshot.snapshotLastIndex = core.snapshotLastIndex) :
    core.autoSnapshot.log = core.log := by
  rcases autoSnapshot_log core with ⟨-, hlog⟩ | ⟨hlt, -, hidx, -⟩
  · exact hlog
  · omega

/-! ### The second handling -/

/-- Term, vote, log, snapshot, commit index, applied index and state machine are the same. -/
structure Unmoved (core core' : RaftCore σ μ) : Prop where
  currentTerm : core'.currentTerm = core.currentTerm
  votedFor : core'.votedFor = core.votedFor
  log : core'.log = core.log
  snapshotLastIndex : core'.snapshotLastIndex = core.snapshotLastIndex
  snapshotLastTerm : core'.snapshotLastTerm = core.snapshotLastTerm
  commitIndex : core'.commitIndex = core.commitIndex
  lastApplied : core'.lastApplied = core.lastApplied
  stateMachine : core'.stateMachine = core.stateMachine

/-- Handling the request gives the same verdict and moves nothing. -/
def Repeats (core : RaftCore σ μ) (args : AppendEntriesArgs) (success : Bool) : Prop :=
  ∃ core' out, core.handleAppendEntries args = .ok (core', out) ∧ out.result.success = success ∧
    core.Unmoved core'

/-- With everything applied, there is only the snapshot left to take. -/
theorem applyCommittedEntries_of_applied (h : core.lastApplied = core.commitIndex) :
    core.applyCommittedEntries = .ok (core.autoSnapshot, []) := by
  rw [applyCommittedEntries, h, Nat.sub_self]
  rfl

theorem acceptEntries_of_walk (h₁ : applyEntries args.entries core = .ok core₁) :
    core.acceptEntries args =
      if args.leaderCommit > core₁.commitIndex then
        applyCommittedEntries { core₁ with
          commitIndex := min args.leaderCommit core₁.lastLogIndex } >>= fun r => .ok r.1
      else .ok core₁ := by
  simp only [acceptEntries, h₁]
  rfl

/-- Accepting the entries again moves nothing, if the walk passes over them and the commit index is
at the end of the log or at the leader's. -/
theorem acceptEntries_again_iff [InfallibleStorage σ]
    (hsettled : core.commitIndex < args.leaderCommit →
      core.lastApplied = core.commitIndex ∧ ¬ core.SnapshotDue) :
    (∃ core', core.acceptEntries args = .ok core' ∧ core.Unmoved core') ↔
      takeOver core.snapshotLastIndex core.log args.entries = core.log ∧
        (core.commitIndex < args.leaderCommit → core.lastLogIndex = core.commitIndex) := by
  constructor
  · rintro ⟨core', hacc, hun⟩
    obtain ⟨s, core₁, -, rfl, ⟨hle, rfl⟩ | ⟨hlt, results, happly⟩⟩ := acceptEntries_ok hacc
    · exact ⟨hun.log, fun hlt => absurd hle (not_le.2 hlt)⟩
    · obtain ⟨es, -, -, -, rfl⟩ := applyCommittedEntries_ok happly
      have hwalk : takeOver core.snapshotLastIndex core.log args.entries = core.log :=
        (autoSnapshot_log_of_boundary hun.snapshotLastIndex).symm.trans hun.log
      refine ⟨hwalk, fun _ => ?_⟩
      have hcommit := hun.commitIndex
      rw [autoSnapshot_commitIndex] at hcommit
      have hmin : min args.leaderCommit core.lastLogIndex = core.commitIndex := by
        rw [← hcommit, hwalk]
        rfl
      omega
  · rintro ⟨hwalk, hend⟩
    obtain ⟨core₁, h₁⟩ := applyEntries_returns args.entries core
    obtain ⟨s, -, hcore₁⟩ := applyEntries_ok h₁
    have hun : core.Unmoved core₁ := by
      subst hcore₁
      exact ⟨rfl, rfl, hwalk, rfl, rfl, rfl, rfl, rfl⟩
    have hlast : core₁.lastLogIndex = core.lastLogIndex := by
      rw [hcore₁, hwalk]
      rfl
    have hdue₁ : core₁.SnapshotDue → core.SnapshotDue := by
      rw [hcore₁, hwalk]
      exact fun h => h
    refine ⟨core₁, ?_, hun⟩
    rw [acceptEntries_of_walk h₁]
    split
    · rename_i hlt
      rw [hun.commitIndex] at hlt
      obtain ⟨happlied, hdue⟩ := hsettled hlt
      have hmin : min args.leaderCommit core₁.lastLogIndex = core₁.commitIndex := by
        have := hend hlt
        rw [hlast, hun.commitIndex]
        omega
      have hraised : ({ core₁ with commitIndex := min args.leaderCommit core₁.lastLogIndex } :
          RaftCore σ μ) = core₁ := by rw [hmin]
      rw [hraised, applyCommittedEntries_of_applied
        (by rw [hun.lastApplied, hun.commitIndex, happlied]),
        autoSnapshot_of_not_due fun h => hdue (hdue₁ h)]
      rfl
    · rfl

/-- Once a node follows the sender in its term, a request is handled by its check and its entries
alone. -/
theorem repeats_iff_of_follows [InfallibleStorage σ] {success : Bool}
    (hterm : core.currentTerm = args.term) (hstate : core.state = .follower)
    (hleader : core.currentLeader = some args.leaderId) :
    core.Repeats args success ↔
      (success = false ∧ ¬ core.PrevMatches args.prevLogIndex args.prevLogTerm) ∨
      (success = true ∧ core.PrevMatches args.prevLogIndex args.prevLogTerm ∧
        ∃ core', core.acceptEntries args = .ok core' ∧ core.Unmoved core') := by
  have hobs : core.observeTerm args.term = .ok core := by
    rw [observeTerm, if_neg (by omega)]
  have hsame : core = { core with state := .follower, currentLeader := some args.leaderId } := by
    rw [← hstate, ← hleader]
  rcases handleAppendEntries_cases hobs with ⟨hlt, -⟩ | ⟨-, core₂, hcore₂, hor⟩
  · omega
  · rw [← hsame] at hcore₂
    subst hcore₂
    rcases hor with ⟨out, heq, -, hfalse, hhint⟩ | ⟨hp, heq⟩
    · have hno := hhint.not_prevMatches.2
      constructor
      · rintro ⟨core', out', hh, hs, -⟩
        rw [heq, Except.ok.injEq, Prod.mk.injEq] at hh
        obtain ⟨rfl, rfl⟩ := hh
        exact Or.inl ⟨by rw [← hs, hfalse], hno⟩
      · rintro (⟨rfl, -⟩ | ⟨-, hp, -⟩)
        · exact ⟨_, out, heq, hfalse, rfl, rfl, rfl, rfl, rfl, rfl, rfl, rfl⟩
        · exact absurd hp hno
    · constructor
      · rintro ⟨core', out, hh, hs, hun⟩
        simp only [heq, Except.bind_eq_ok, Except.pure_eq_ok, Prod.mk.injEq] at hh
        obtain ⟨core'', hacc, rfl, rfl⟩ := hh
        exact Or.inr ⟨hs.symm, hp, _, hacc, hun⟩
      · rintro (⟨-, hno⟩ | ⟨rfl, -, core', hacc, hun⟩)
        · exact absurd hp hno
        · exact ⟨core', core'.appendReply args.leaderId true none none, by rw [heq, hacc]; rfl, rfl,
            hun⟩

/-! ### The condition -/

/-- The request is not stale, and its check passes. -/
def Accepts (core : RaftCore σ μ) (args : AppendEntriesArgs) : Prop :=
  core.currentTerm ≤ args.term ∧ core.PrevMatches args.prevLogIndex args.prevLogTerm

/-- A conflict is cut off above a snapshot, and the cut lies beyond the end of the vector. -/
def CutsBeyond (core : RaftCore σ μ) (args : AppendEntriesArgs) : Prop :=
  0 < core.snapshotLastIndex ∧ ∃ m e,
    FirstConflict core.snapshotLastIndex core.log args.entries m e ∧ core.log.length + 1 < e.index

/-- Where the request makes the log end: with its own last entry if one of its entries conflicts, and
else no earlier than before. -/
def lastAfter (core : RaftCore σ μ) (args : AppendEntriesArgs) : ℕ :=
  if ∃ e ∈ args.entries, Conflicts core.snapshotLastIndex core.log e then
    args.prevLogIndex + args.entries.length
  else max core.lastLogIndex (args.prevLogIndex + args.entries.length)

/-- How far the request commits. -/
def commitAfter (core : RaftCore σ μ) (args : AppendEntriesArgs) : ℕ :=
  min args.leaderCommit (core.lastAfter args)

/-- The request commits far enough above the snapshot for another one. -/
def Compacts (core : RaftCore σ μ) (args : AppendEntriesArgs) : Prop :=
  core.commitIndex < args.leaderCommit ∧ 0 < core.snapshotThreshold ∧
    core.snapshotThreshold ≤ core.commitAfter args - core.snapshotLastIndex

/-- What an accepted request has to meet: it does not cut beyond the vector, and if it commits far
enough for a snapshot, it cuts nothing off above the old one, and commits no further than its
`prev_log_index`. -/
def Settles (core : RaftCore σ μ) (args : AppendEntriesArgs) : Prop :=
  ¬ core.CutsBeyond args ∧
    (core.Compacts args →
      (0 < core.snapshotLastIndex →
        ∀ e ∈ args.entries, ¬ Conflicts core.snapshotLastIndex core.log e) ∧
      (args.prevLogIndex = 0 ∨ core.commitAfter args ≤ args.prevLogIndex))

/-- **The condition** on the request and the state before it. -/
def Repeatable (core : RaftCore σ μ) (args : AppendEntriesArgs) : Prop :=
  core.Accepts args → core.Settles args

/-- The request commits far enough for a snapshot, and up to an entry whose conflict it cuts off above
the old one. -/
def CommitsCut (core : RaftCore σ μ) (args : AppendEntriesArgs) : Prop :=
  core.Compacts args ∧ 0 < core.snapshotLastIndex ∧
    ∃ e ∈ args.entries, Conflicts core.snapshotLastIndex core.log e ∧ e.index ≤ args.leaderCommit

/-! ### What the first handling leaves behind -/

section First

omit [Storage σ] [Snapshotable μ]

/-- There is a first conflict above the snapshot, or no conflict that matters. -/
theorem first_cut_or (core : RaftCore σ μ) (entries : List LogEntry) :
    (0 < core.snapshotLastIndex →
      ∀ e ∈ entries, ¬ Conflicts core.snapshotLastIndex core.log e) ∨
    (0 < core.snapshotLastIndex ∧
      ∃ m e, FirstConflict core.snapshotLastIndex core.log entries m e) := by
  rcases Nat.eq_zero_or_pos core.snapshotLastIndex with h0 | hpos
  · exact Or.inl fun hpos => by omega
  · rcases first_conflict_or core.snapshotLastIndex core.log entries with
      hno | ⟨m, e, hm, hconf, hfirst⟩
    · exact Or.inl fun _ => hno
    · exact Or.inr ⟨hpos, m, e, hm, hconf, hfirst⟩

/-- After a cut above a snapshot the vector ends with an entry of the request, no earlier than the
conflict. -/
theorem lastLogIndex_of_cut {m : ℕ} {e : LogEntry}
    (hfc : FirstConflict core.snapshotLastIndex core.log args.entries m e)
    (h : Indexed args.prevLogIndex args.entries) :
    e.index ≤ lastLogIndex { core with
        log := takeOver core.snapshotLastIndex core.log args.entries } ∧
      lastLogIndex { core with log := takeOver core.snapshotLastIndex core.log args.entries } ≤
        args.prevLogIndex + args.entries.length := by
  obtain ⟨l, hl, heq⟩ := hfc.takeOver_eq h
  obtain ⟨hmlt, -⟩ := List.getElem?_eq_some_iff.1 hfc.get
  have hidx := h m e hfc.get
  have hlast : (takeOver core.snapshotLastIndex core.log args.entries).getLast? =
      some ((e :: l).getLast (List.cons_ne_nil e l)) := by
    rw [heq, List.getLast?_append, List.getLast?_eq_some_getLast (List.cons_ne_nil e l)]
    rfl
  simp only [lastLogIndex, hlast]
  have hmem := hl.subset (List.getLast_mem (List.cons_ne_nil e l))
  obtain ⟨hlt, hle, -⟩ := (h.drop hmlt.le).mem hmem
  rw [List.length_drop] at hle
  exact ⟨by omega, by omega⟩

/-- An index in the log that no conflict has undone stays in the log. -/
theorem le_lastLogIndex_takeOver (h : core.WellFormed) (hargs : core.Continues args)
    (hprev : args.prevLogIndex ≤ core.lastLogIndex) {c : ℕ} (hc : c ≤ core.lastLogIndex)
    (hkeep : ∀ e ∈ args.entries, e.index ≤ c → ¬ Conflicts core.snapshotLastIndex core.log e) :
    c ≤ lastLogIndex { core with
      log := takeOver core.snapshotLastIndex core.log args.entries } := by
  rw [h.lastLogIndex] at hprev hc
  rcases core.first_cut_or args.entries with hcut | ⟨hpos, m, e, hfc⟩
  · have hcont : Contiguous { core with
        log := takeOver core.snapshotLastIndex core.log args.entries } :=
      Indexed.takeOver h.contiguous hargs.1 hprev hcut
    rw [hcont.lastLogIndex]
    exact le_takeOver_length hargs.1 hprev hcut hc hkeep
  · have hmem := List.mem_of_getElem? hfc.get
    have hlt : c < e.index := not_le.1 fun hle => hkeep e hmem hle hfc.conflicts
    exact hlt.le.trans (lastLogIndex_of_cut hfc hargs.1).1

/-- What is committed is still in the log. -/
theorem commit_le_takeOver (h : core.WellFormed) (hargs : core.Continues args)
    (hprev : args.prevLogIndex ≤ core.lastLogIndex) :
    core.commitIndex ≤ lastLogIndex { core with
      log := takeOver core.snapshotLastIndex core.log args.entries } := by
  refine le_lastLogIndex_takeOver h hargs hprev h.commit_le ?_
  rintro e he hle ⟨hlt, x, hx, hne⟩
  exact hne (hargs.2 e he x (getLogEntry_eq_some.2 ⟨hlt, hx⟩) hle)

/-- The check passes again as long as the boundary has not moved. -/
theorem prevMatches_takeOver (h : core.WellFormed) (hargs : core.Continues args)
    (hp : core.PrevMatches args.prevLogIndex args.prevLogTerm)
    (hl : core'.log = takeOver core.snapshotLastIndex core.log args.entries)
    (hs : core'.snapshotLastIndex = core.snapshotLastIndex)
    (ht : core'.snapshotLastTerm = core.snapshotLastTerm) :
    core'.PrevMatches args.prevLogIndex args.prevLogTerm := by
  rcases hp with h0 | ⟨hle, hor⟩
  · exact Or.inl h0
  · right
    have hlast : core'.lastLogIndex = lastLogIndex { core with
        log := takeOver core.snapshotLastIndex core.log args.entries } := by
      simp only [lastLogIndex, hl, hs]
    have hkeep : ∀ e ∈ args.entries, args.prevLogIndex < e.index := fun e he => (hargs.1.mem he).1
    refine ⟨?_, ?_⟩
    · rw [hlast]
      exact le_lastLogIndex_takeOver h hargs hle hle fun e he hge =>
        absurd hge (not_le.2 (hkeep e he))
    · rw [hs, ht]
      rcases hor with hbound | ⟨hne, x, hx, hterm⟩
      · exact Or.inl hbound
      · obtain ⟨hlt, hget⟩ := getLogEntry_eq_some.1 hx
        refine Or.inr ⟨hne, x, getLogEntry_eq_some.2 ⟨by rwa [hs], ?_⟩, hterm⟩
        rw [hl, hs, takeOver_getElem?_of_lt (List.getElem?_eq_some_iff.1 hget).1 fun e he => ?_]
        · exact hget
        · have := hkeep e he
          omega

/-- **The walk changes nothing the second time** unless it cuts beyond the vector. -/
theorem takeOver_again_iff (h : core.WellFormed) (hargs : core.Continues args)
    (hprev : args.prevLogIndex ≤ core.lastLogIndex) :
    takeOver core.snapshotLastIndex (takeOver core.snapshotLastIndex core.log args.entries)
        args.entries = takeOver core.snapshotLastIndex core.log args.entries ↔
      ¬ core.CutsBeyond args := by
  rw [h.lastLogIndex] at hprev
  rcases core.first_cut_or args.entries with hcut | ⟨hpos, m, e, hfc⟩
  · refine iff_of_true (takeOver_of_present fun e he =>
      present_takeOver h.contiguous hargs.1 hprev hcut he) ?_
    rintro ⟨hpos, m, e, hfc, -⟩
    exact hcut hpos e (List.mem_of_getElem? hfc.get) hfc.conflicts
  · constructor
    · rintro hfix ⟨-, m', e', hfc', hlt⟩
      have := (hfc'.takeOver_again_iff hpos h.contiguous hargs.1).1 hfix
      omega
    · intro hno
      refine (hfc.takeOver_again_iff hpos h.contiguous hargs.1).2 ?_
      by_contra hlt
      exact hno ⟨hpos, m, e, hfc, by omega⟩

/-- **Where the log ends** after the walk, if nothing is cut off above a snapshot. -/
theorem lastLogIndex_takeOver (h : core.WellFormed) (hargs : core.Continues args)
    (hprev : args.prevLogIndex ≤ core.lastLogIndex)
    (hcut : 0 < core.snapshotLastIndex →
      ∀ e ∈ args.entries, ¬ Conflicts core.snapshotLastIndex core.log e) :
    lastLogIndex { core with log := takeOver core.snapshotLastIndex core.log args.entries } =
      core.lastAfter args := by
  rw [h.lastLogIndex] at hprev
  have hcont : Contiguous { core with
      log := takeOver core.snapshotLastIndex core.log args.entries } :=
    Indexed.takeOver h.contiguous hargs.1 hprev hcut
  rw [hcont.lastLogIndex, lastAfter]
  rcases first_conflict_or core.snapshotLastIndex core.log args.entries with
    hno | ⟨m, e, hm, hconf, hfirst⟩
  · rw [if_neg fun ⟨e, he, hc⟩ => hno e he hc]
    simp only [takeOver_of_no_conflict hargs.1 hprev hno]
    rw [h.lastLogIndex, List.length_append, List.length_drop]
    omega
  · have hzero : core.snapshotLastIndex = 0 := by
      by_contra hne
      exact hcut (Nat.pos_of_ne_zero hne) e (List.mem_of_getElem? hm) hconf
    rw [if_pos ⟨e, List.mem_of_getElem? hm, hconf⟩]
    obtain ⟨hmlt, -⟩ := List.getElem?_eq_some_iff.1 hm
    have hidx := hargs.1 m e hm
    have hxlt : e.index - core.snapshotLastIndex - 1 < core.log.length := by
      obtain ⟨-, x, hx, -⟩ := hconf
      exact (List.getElem?_eq_some_iff.1 hx).1
    rw [hzero] at hconf hfirst hxlt
    simp only [hzero, takeOver_of_conflict hargs.1 hm hconf hfirst]
    rw [List.length_append, List.length_take, List.length_drop]
    omega

/-- It never ends later. -/
theorem lastLogIndex_takeOver_le (h : core.WellFormed) (hargs : core.Continues args)
    (hprev : args.prevLogIndex ≤ core.lastLogIndex) :
    lastLogIndex { core with log := takeOver core.snapshotLastIndex core.log args.entries } ≤
      core.lastAfter args := by
  rcases core.first_cut_or args.entries with hcut | ⟨hpos, m, e, hfc⟩
  · exact (lastLogIndex_takeOver h hargs hprev hcut).le
  · rw [lastAfter, if_pos ⟨e, List.mem_of_getElem? hfc.get, hfc.conflicts⟩]
    exact (lastLogIndex_of_cut hfc hargs.1).2

end First

omit [Storage σ] in
/-- Raising the commit index and applying end at the same index. -/
theorem applied_eq (h : core.WellFormed) (hargs : core.Continues args)
    (hprev : args.prevLogIndex ≤ core.lastLogIndex)
    (hlt : core.commitIndex < args.leaderCommit) :
    (core.applied args).lastApplied = (core.applied args).commitIndex := by
  have hle := commit_le_takeOver h hargs hprev
  exact max_eq_right (le_min (h.applied_le.trans hlt.le) (h.applied_le.trans hle))

omit [Storage σ] in
/-- The node whose snapshot has just been taken has none to take. -/
theorem not_snapshotDue_of_eq (h : core.lastApplied = core.snapshotLastIndex) :
    ¬ core.SnapshotDue := by
  rintro ⟨hpos, hdue, -⟩
  omega

omit [Storage σ] in
/-- **A snapshot is taken** only if the request commits far enough. -/
theorem compacts_of_due (h : core.WellFormed) (hargs : core.Continues args)
    (hprev : args.prevLogIndex ≤ core.lastLogIndex) (hlt : core.commitIndex < args.leaderCommit)
    (hdue : (core.applied args).SnapshotDue) : core.Compacts args := by
  have heq := applied_eq h hargs hprev hlt
  have hle : (core.applied args).commitIndex ≤ core.commitAfter args :=
    min_le_min_left _ (lastLogIndex_takeOver_le h hargs hprev)
  obtain ⟨hpos, hreached, -⟩ := hdue
  have hreached : core.snapshotThreshold ≤
      (core.applied args).lastApplied - core.snapshotLastIndex := hreached
  exact ⟨hlt, hpos, by omega⟩

omit [Storage σ] in
/-- Without a cut above a snapshot it is taken then, by a state machine that can be written. -/
theorem due_of_compacts (h : core.WellFormed) (hargs : core.Continues args)
    (hprev : args.prevLogIndex ≤ core.lastLogIndex)
    (hcut : 0 < core.snapshotLastIndex →
      ∀ e ∈ args.entries, ¬ Conflicts core.snapshotLastIndex core.log e)
    (hwritten : ∀ m : μ, ∃ data, Snapshotable.snapshot m = .ok data) (hc : core.Compacts args) :
    (core.applied args).SnapshotDue := by
  obtain ⟨hlt, hpos, hreached⟩ := hc
  have heq := applied_eq h hargs hprev hlt
  have hcommit : (core.applied args).commitIndex = core.commitAfter args :=
    congrArg (min args.leaderCommit) (lastLogIndex_takeOver h hargs hprev hcut)
  have hcont : (core.applied args).Contiguous :=
    (h.takeOver hargs hprev hcut rfl rfl rfl rfl : WellFormed { core with
      log := takeOver core.snapshotLastIndex core.log args.entries }).contiguous
  have hreached' : core.snapshotThreshold ≤
      (core.applied args).lastApplied - (core.applied args).snapshotLastIndex := by
    change _ ≤ (core.applied args).lastApplied - core.snapshotLastIndex
    omega
  have hthreshold : (core.applied args).snapshotThreshold = core.snapshotThreshold := rfl
  obtain ⟨e, he⟩ := hcont.exists_getLogEntry (i := (core.applied args).lastApplied) (by omega)
    (heq.le.trans (min_le_right _ _))
  exact ⟨hpos, hreached', by rw [he]; exact Option.some_ne_none e, hwritten _⟩

omit [Storage σ] [Snapshotable μ] in
/-- A compacted log: what is left of it, and where it ends. -/
theorem compacted_lastLogIndex_iff {log : List LogEntry} {r : ℕ}
    (hl : core.log = log.filter fun e => e.index ≥ r + 1) (hs : core.snapshotLastIndex = r) :
    r ≤ core.lastLogIndex ∧ (core.lastLogIndex = r ↔ ∀ e ∈ log, e.index ≤ r) := by
  cases hlast : core.log.getLast? with
  | none =>
      have heq : core.lastLogIndex = r := by
        simp only [lastLogIndex, hlast]
        exact hs
      rw [List.getLast?_eq_none_iff, hl, List.filter_eq_nil_iff] at hlast
      refine ⟨heq.ge, iff_of_true heq fun e he => ?_⟩
      have := hlast e he
      simp only [decide_eq_true_eq] at this
      omega
  | some x =>
      have heq : core.lastLogIndex = x.index := by simp only [lastLogIndex, hlast]
      have hmem := List.mem_of_getLast? hlast
      rw [hl, List.mem_filter, decide_eq_true_eq] at hmem
      refine ⟨by omega, iff_of_false (by omega) fun hall => ?_⟩
      have := hall x hmem.1
      omega

/-- After a compaction the check passes again unless the boundary has passed `prev_log_index`. -/
theorem Compacted.prevMatches_iff (hc : core.Compacted core') (hwf : core.WellFormed) {i t : ℕ}
    (hp : core.PrevMatches i t) : core'.PrevMatches i t ↔ i = 0 ∨ core.lastApplied ≤ i := by
  have hlast := hc.lastLogIndex hwf
  have hget : ∀ j, core.lastApplied < j → core'.getLogEntry j = core.getLogEntry j :=
    fun j hj => hc.getLogEntry hwf.contiguous hj
  obtain ⟨entry, data, hslt, he, -, hcore'⟩ := hc
  have hs : core'.snapshotLastIndex = core.lastApplied := by rw [hcore']
  have ht : core'.snapshotLastTerm = entry.term := by rw [hcore']
  constructor
  · rintro (h0 | ⟨-, ⟨hbound, -⟩ | ⟨-, x, hx, -⟩⟩)
    · exact Or.inl h0
    · exact Or.inr (hs ▸ hbound.ge)
    · exact Or.inr (hs ▸ (getLogEntry_eq_some.1 hx).1.le)
  · rintro (h0 | hge)
    · exact Or.inl h0
    · rcases hp with h0 | ⟨hle, ⟨hbound, -⟩ | ⟨hne, x, hx, hterm⟩⟩
      · exact Or.inl h0
      · omega
      · refine Or.inr ⟨hlast ▸ hle, ?_⟩
        rcases hge.eq_or_lt with heq | hgt
        · -- the entry is the last one the snapshot covers
          left
          rw [← heq, he] at hx
          obtain rfl : entry = x := by simpa using hx
          exact ⟨by rw [hs, heq], by rw [ht, hterm]⟩
        · exact Or.inr ⟨by omega, x, by rw [hget _ hgt]; exact hx, hterm⟩

/-- What is in place stays in place. -/
theorem Compacted.present (hc : core.Compacted core') (hwf : core.WellFormed) {e : LogEntry}
    (h : Present core.snapshotLastIndex core.log e) :
    Present core'.snapshotLastIndex core'.log e := by
  have hs : core'.snapshotLastIndex = core.lastApplied := by
    obtain ⟨entry, data, -, -, -, rfl⟩ := hc
    rfl
  rcases Nat.lt_or_ge core.lastApplied e.index with hgt | hge
  · have hsle := hwf.snapshot_le
    rcases h with hle | ⟨x, hx, hterm⟩
    · omega
    · have hget : core'.getLogEntry e.index = some x :=
        (hc.getLogEntry hwf.contiguous hgt).trans (getLogEntry_eq_some.2 ⟨by omega, hx⟩)
      exact Or.inr ⟨x, (getLogEntry_eq_some.1 hget).2, hterm⟩
  · exact Or.inl (by rwa [hs])

/-! ### Accepting twice -/

/-- The check passes, and accepting the entries moves nothing. -/
def AcceptsAgain (core : RaftCore σ μ) (args : AppendEntriesArgs) : Prop :=
  core.PrevMatches args.prevLogIndex args.prevLogTerm ∧
    ∃ core', core.acceptEntries args = .ok core' ∧ core.Unmoved core'

/-- While the boundary is where it was, the entries are accepted again unless a conflict was cut off
beyond the vector. -/
theorem acceptsAgain_iff_of_boundary [InfallibleStorage σ] (h : core.WellFormed)
    (hargs : core.Continues args) (hp : core.PrevMatches args.prevLogIndex args.prevLogTerm)
    (hl : core₁.log = takeOver core.snapshotLastIndex core.log args.entries)
    (hs : core₁.snapshotLastIndex = core.snapshotLastIndex)
    (ht : core₁.snapshotLastTerm = core.snapshotLastTerm)
    (hsettled : core₁.commitIndex < args.leaderCommit →
      core₁.lastApplied = core₁.commitIndex ∧ ¬ core₁.SnapshotDue)
    (hend : core₁.commitIndex < args.leaderCommit → core₁.lastLogIndex = core₁.commitIndex) :
    core₁.AcceptsAgain args ↔ ¬ core.CutsBeyond args := by
  have hp₁ : core₁.PrevMatches args.prevLogIndex args.prevLogTerm :=
    prevMatches_takeOver h hargs hp hl hs ht
  rw [AcceptsAgain, and_iff_right hp₁, acceptEntries_again_iff hsettled, and_iff_left hend, hl, hs]
  exact takeOver_again_iff h hargs hp.le_lastLogIndex

section Snapshot

variable {s : σ}

/-- After a snapshot the commit index is at the boundary. -/
theorem acceptsAgain_iff_of_compacted [InfallibleStorage σ]
    (heq : (core.applied args).lastApplied = (core.applied args).commitIndex)
    (hc : Compacted { core.applied args with storage := s } core₁) :
    core₁.AcceptsAgain args ↔
      core₁.PrevMatches args.prevLogIndex args.prevLogTerm ∧
      takeOver core₁.snapshotLastIndex core₁.log args.entries = core₁.log ∧
      ((core.applied args).lastApplied < args.leaderCommit →
        ∀ e ∈ (core.applied args).log, e.index ≤ (core.applied args).lastApplied) := by
  obtain ⟨entry, data, -, -, -, hcore₁⟩ := hc
  have hs₁ : core₁.snapshotLastIndex = (core.applied args).lastApplied := by rw [hcore₁]
  have ha₁ : core₁.lastApplied = (core.applied args).lastApplied := by rw [hcore₁]
  have hci₁ : core₁.commitIndex = (core.applied args).lastApplied := by rw [hcore₁, heq]
  have hl₁ : core₁.log = (core.applied args).log.filter fun e =>
    e.index ≥ (core.applied args).lastApplied + 1 := by rw [hcore₁]
  obtain ⟨-, hlast⟩ := compacted_lastLogIndex_iff hl₁ hs₁
  rw [AcceptsAgain, acceptEntries_again_iff fun _ =>
    ⟨by rw [ha₁, hci₁], not_snapshotDue_of_eq (by rw [ha₁, hs₁])⟩, hci₁, hlast]

/-- **A snapshot without a wrong cut**: everything is in place, so only the check can fail. -/
theorem acceptsAgain_iff_of_no_cut [InfallibleStorage σ] (h : core.WellFormed)
    (hargs : core.Continues args) (hp : core.PrevMatches args.prevLogIndex args.prevLogTerm)
    (hlt : core.commitIndex < args.leaderCommit)
    (hcut : 0 < core.snapshotLastIndex →
      ∀ e ∈ args.entries, ¬ Conflicts core.snapshotLastIndex core.log e)
    (hc : Compacted { core.applied args with storage := s } core₁) :
    core₁.AcceptsAgain args ↔
      args.prevLogIndex = 0 ∨ (core.applied args).lastApplied ≤ args.prevLogIndex := by
  have hprev := hp.le_lastLogIndex
  have hle := hprev
  rw [h.lastLogIndex] at hle
  have heq := applied_eq h hargs hprev hlt
  have hwf : WellFormed { core.applied args with storage := s } := by
    have hwf₁ : WellFormed { core with
        log := takeOver core.snapshotLastIndex core.log args.entries } :=
      h.takeOver hargs hprev hcut rfl rfl rfl rfl
    exact ⟨hwf₁.contiguous, h.snapshot_le.trans (le_max_left _ _), heq.le, min_le_right _ _⟩
  have hp' : PrevMatches { core.applied args with storage := s }
      args.prevLogIndex args.prevLogTerm := prevMatches_takeOver h hargs hp rfl rfl rfl
  have hwalk : takeOver core₁.snapshotLastIndex core₁.log args.entries = core₁.log :=
    takeOver_of_present fun e he =>
      hc.present hwf (present_takeOver h.contiguous hargs.1 hle hcut he)
  have hend : (core.applied args).lastApplied < args.leaderCommit →
      ∀ e ∈ (core.applied args).log, e.index ≤ (core.applied args).lastApplied := by
    intro hlc e hmem
    have hmem' := (Indexed.mem hwf.contiguous hmem).2.1
    have hlast := hwf.lastLogIndex
    have hci : (core.applied args).commitIndex =
        min args.leaderCommit (core.applied args).lastLogIndex := rfl
    change (core.applied args).lastLogIndex =
      (core.applied args).snapshotLastIndex + (core.applied args).log.length at hlast
    change e.index ≤ (core.applied args).snapshotLastIndex + (core.applied args).log.length at hmem'
    omega
  rw [acceptsAgain_iff_of_compacted heq hc, hc.prevMatches_iff hwf hp', and_iff_left ⟨hwalk, hend⟩]

/-- **A snapshot below a conflict that was cut off above the old one**: the entry that conflicts is
still there, and the walk comes upon it again. -/
theorem not_acceptsAgain_of_cut [InfallibleStorage σ] (h : core.WellFormed)
    (hargs : core.Continues args)
    (heq : (core.applied args).lastApplied = (core.applied args).commitIndex)
    (hpos : 0 < core.snapshotLastIndex) {m : ℕ} {e : LogEntry}
    (hfc : FirstConflict core.snapshotLastIndex core.log args.entries m e)
    (hbelow : (core.applied args).lastApplied < e.index)
    (hc : Compacted { core.applied args with storage := s } core₁) : ¬ core₁.AcceptsAgain args := by
  rw [acceptsAgain_iff_of_compacted heq hc]
  rintro ⟨-, hfix, -⟩
  obtain ⟨entry, data, hslt, -, -, hcore₁⟩ := hc
  have hslt : core.snapshotLastIndex < (core.applied args).lastApplied := hslt
  have hs₁ : core₁.snapshotLastIndex = (core.applied args).lastApplied := by rw [hcore₁]
  have hl₁ : core₁.log = (takeOver core.snapshotLastIndex core.log args.entries).filter fun e =>
    e.index ≥ (core.applied args).lastApplied + 1 := by
    rw [hcore₁]
    rfl
  rw [hs₁, hl₁, takeOver_fixed_iff hargs.1
    (hfc.aheadBy_compacted hpos h.contiguous hargs.1 hslt)] at hfix
  exact (hfc.conflicts_compacted hpos h.contiguous hargs.1 hslt.le hbelow).not_present
    (hfix e (List.mem_of_getElem? hfc.get))

end Snapshot

/-- Without a snapshot the entries are accepted again unless a conflict was cut off beyond the
vector. -/
theorem acceptsAgain_iff_of_not_due [InfallibleStorage σ] (h : core.WellFormed)
    (hargs : core.Continues args) (hp : core.PrevMatches args.prevLogIndex args.prevLogTerm)
    (hacc : core.acceptEntries args = .ok core₁)
    (hno : core.commitIndex < args.leaderCommit → ¬ (core.applied args).SnapshotDue) :
    core₁.AcceptsAgain args ↔ ¬ core.CutsBeyond args := by
  obtain ⟨s, ⟨hle, hcore₁⟩ | ⟨hlt, hcore₁⟩⟩ := acceptEntries_applied h.snapshot_le hacc
  · -- the commit index stays
    have hstay : ¬ core₁.commitIndex < args.leaderCommit := by
      rw [hcore₁]
      exact not_lt.2 hle
    exact acceptsAgain_iff_of_boundary h hargs hp (by rw [hcore₁]) (by rw [hcore₁])
      (by rw [hcore₁]) (fun hlt => absurd hlt hstay) fun hlt => absurd hlt hstay
  · have heq := applied_eq h hargs hp.le_lastLogIndex hlt
    have hno' : ¬ SnapshotDue { core.applied args with storage := s } := hno hlt
    rw [autoSnapshot_of_not_due hno'] at hcore₁
    have hlast : core₁.lastLogIndex = (core.applied args).lastLogIndex := by
      rw [hcore₁]
      rfl
    have hci : core₁.commitIndex = min args.leaderCommit (core.applied args).lastLogIndex := by
      rw [hcore₁]
      rfl
    exact acceptsAgain_iff_of_boundary h hargs hp (by rw [hcore₁]; rfl) (by rw [hcore₁]; rfl)
      (by rw [hcore₁]; rfl) (fun _ => ⟨by rw [hcore₁]; exact heq, by rw [hcore₁]; exact hno hlt⟩)
      (by omega)

/-- With a snapshot that is due, it is the compacted node that handles the request again. -/
theorem compacted_of_due [InfallibleStorage σ] (h : core.WellFormed)
    (hacc : core.acceptEntries args = .ok core₁) (hlt : core.commitIndex < args.leaderCommit)
    (hdue : (core.applied args).SnapshotDue) :
    ∃ s, Compacted { core.applied args with storage := s } core₁ := by
  obtain ⟨s, ⟨hle, -⟩ | ⟨-, hcore₁⟩⟩ := acceptEntries_applied h.snapshot_le hacc
  · exact absurd hlt (not_lt.2 hle)
  · have hdue' : SnapshotDue { core.applied args with storage := s } := hdue
    exact ⟨s, hcore₁ ▸ autoSnapshot_of_due hdue'⟩

/-- **An accepted request that settles** is accepted again. -/
theorem acceptsAgain_of_settles [InfallibleStorage σ] (h : core.WellFormed)
    (hargs : core.Continues args) (hp : core.PrevMatches args.prevLogIndex args.prevLogTerm)
    (hacc : core.acceptEntries args = .ok core₁) (hsettles : core.Settles args) :
    core₁.AcceptsAgain args := by
  have hprev := hp.le_lastLogIndex
  by_cases hdue : core.commitIndex < args.leaderCommit ∧ (core.applied args).SnapshotDue
  · obtain ⟨hlt, hdue⟩ := hdue
    obtain ⟨s, hc⟩ := compacted_of_due h hacc hlt hdue
    obtain ⟨hcut, hle⟩ := hsettles.2 (compacts_of_due h hargs hprev hlt hdue)
    have hcommit : (core.applied args).commitIndex = core.commitAfter args :=
      congrArg (min args.leaderCommit) (lastLogIndex_takeOver h hargs hprev hcut)
    rw [acceptsAgain_iff_of_no_cut h hargs hp hlt hcut hc, applied_eq h hargs hprev hlt, hcommit]
    exact hle
  · exact (acceptsAgain_iff_of_not_due h hargs hp hacc (not_and.1 hdue)).2 hsettles.1

/-- **And no other request is**, unless it commits an entry that was cut off wrongly. -/
theorem settles_of_acceptsAgain [InfallibleStorage σ] (h : core.WellFormed)
    (hargs : core.Continues args) (hp : core.PrevMatches args.prevLogIndex args.prevLogTerm)
    (hwritten : ∀ m : μ, ∃ data, Snapshotable.snapshot m = .ok data)
    (hacc : core.acceptEntries args = .ok core₁) (hno : ¬ core.CommitsCut args)
    (hagain : core₁.AcceptsAgain args) : core.Settles args := by
  have hprev := hp.le_lastLogIndex
  by_cases hc : core.Compacts args
  · have hlt := hc.1
    have heq := applied_eq h hargs hprev hlt
    rcases core.first_cut_or args.entries with hcut | ⟨hpos, m, e, hfc⟩
    · obtain ⟨s, hcompacted⟩ := compacted_of_due h hacc hlt
        (due_of_compacts h hargs hprev hcut hwritten hc)
      have hcommit : (core.applied args).commitIndex = core.commitAfter args :=
        congrArg (min args.leaderCommit) (lastLogIndex_takeOver h hargs hprev hcut)
      rw [acceptsAgain_iff_of_no_cut h hargs hp hlt hcut hcompacted, heq, hcommit] at hagain
      refine ⟨?_, fun _ => ⟨hcut, hagain⟩⟩
      rintro ⟨hpos, m, e, hfc, -⟩
      exact hcut hpos e (List.mem_of_getElem? hfc.get) hfc.conflicts
    · -- the snapshot ends at the leader's commit index, below the conflict
      have hmem := List.mem_of_getElem? hfc.get
      have hbelow : args.leaderCommit < e.index :=
        not_le.1 fun hle => hno ⟨hc, hpos, e, hmem, hfc.conflicts, hle⟩
      have hend := (lastLogIndex_of_cut hfc hargs.1).1
      have hcommit : (core.applied args).commitIndex = args.leaderCommit :=
        min_eq_left (hbelow.le.trans hend)
      have happlied := heq.trans hcommit
      have hdue : (core.applied args).SnapshotDue := by
        obtain ⟨-, hthreshold, hreached⟩ := hc
        have hle : core.commitAfter args ≤ args.leaderCommit := min_le_left _ _
        refine ⟨hthreshold, ?_, ?_, hwritten _⟩
        · rw [happlied]
          exact hreached.trans (Nat.sub_le_sub_right hle _)
        · obtain ⟨hslt, hin⟩ := hfc.lt_length
          have hle : args.leaderCommit - core.snapshotLastIndex - 1 ≤
              e.index - core.snapshotLastIndex - 1 := by omega
          have hget : (core.applied args).getLogEntry (core.applied args).lastApplied =
              some core.log[args.leaderCommit - core.snapshotLastIndex - 1] := by
            rw [happlied]
            refine getLogEntry_eq_some.2 ⟨show core.snapshotLastIndex < _ by omega, ?_⟩
            exact (hfc.getElem?_takeOver hpos hargs.1 hle).trans
              (List.getElem?_eq_getElem (hle.trans_lt hin))
          rw [hget]
          exact Option.some_ne_none _
      obtain ⟨s, hcompacted⟩ := compacted_of_due h hacc hlt hdue
      exact absurd hagain (not_acceptsAgain_of_cut h hargs heq hpos hfc (happlied ▸ hbelow) hcompacted)
  · have hnot : core.commitIndex < args.leaderCommit → ¬ (core.applied args).SnapshotDue :=
      fun hlt hdue => hc (compacts_of_due h hargs hprev hlt hdue)
    exact ⟨(acceptsAgain_iff_of_not_due h hargs hp hacc hnot).1 hagain, fun h => absurd h hc⟩

/-- The node that follows the sender of the request. -/
def following (core : RaftCore σ μ) (args : AppendEntriesArgs) (storage : σ)
    (votedFor : Option ℕ) : RaftCore σ μ :=
  { core with
    storage, currentTerm := args.term, votedFor, state := .follower
    currentLeader := some args.leaderId }

/-- **What the first handling leaves to the second**: a request that was refused is refused again, and
one that was accepted repeats if it is accepted again. -/
theorem handleAppendEntries_again [InfallibleStorage σ] {out : HandleAppendEntriesOutput}
    (h₁ : core.handleAppendEntries args = .ok (core₁, out)) :
    (¬ core.Accepts args ∧ core₁.Repeats args out.result.success) ∨
      (core.Accepts args ∧ (∃ s v, (core.following args s v).acceptEntries args = .ok core₁) ∧
        (core₁.Repeats args out.result.success ↔ core₁.AcceptsAgain args)) := by
  obtain ⟨core₀, hobs, -⟩ := Except.bind_eq_ok.1 h₁
  have hmax := observeTerm_currentTerm hobs
  rcases handleAppendEntries_cases hobs with ⟨hlt, out', heq, -, hfalse⟩ | ⟨hterm, core₂, hcore₂, hor⟩
  · -- a stale request is refused again
    rw [heq, Except.ok.injEq, Prod.mk.injEq] at h₁
    obtain ⟨rfl, rfl⟩ := h₁
    refine Or.inl ⟨fun hacc => ?_, ?_⟩
    · have := hacc.1
      omega
    · have hagain : core₀.observeTerm args.term = .ok core₀ := by
        rw [observeTerm, if_neg (by omega)]
      rcases handleAppendEntries_cases hagain with ⟨-, out'', heq', -, hfalse'⟩ | ⟨hterm, -⟩
      · exact ⟨_, _, heq', by rw [hfalse, hfalse'], rfl, rfl, rfl, rfl, rfl, rfl, rfl, rfl⟩
      · omega
  · have hle : core.currentTerm ≤ args.term := by omega
    have hcore : ∃ s v, core₂ = core.following args s v := by
      rw [hcore₂]
      rcases observeTerm_ok hobs with ⟨-, rfl⟩ | ⟨-, s, -, rfl⟩
      · exact ⟨core₀.storage, core₀.votedFor, by rw [following, ← hterm]⟩
      · exact ⟨s, none, rfl⟩
    obtain ⟨s, v, rfl⟩ := hcore
    rcases hor with ⟨out', heq, -, hfalse, hhint⟩ | ⟨hp, heq⟩
    · -- a rejection leaves the check as it was
      rw [heq, Except.ok.injEq, Prod.mk.injEq] at h₁
      obtain ⟨rfl, rfl⟩ := h₁
      have hno := hhint.not_prevMatches.2
      exact Or.inl ⟨fun hacc => hno hacc.2,
        (repeats_iff_of_follows rfl rfl rfl).2 (Or.inl ⟨hfalse, hno⟩)⟩
    · simp only [heq, Except.bind_eq_ok, Except.pure_eq_ok, Prod.mk.injEq] at h₁
      obtain ⟨core₃, hacc, rfl, rfl⟩ := h₁
      refine Or.inr ⟨⟨hle, hp⟩, ⟨s, v, hacc⟩, ?_⟩
      obtain ⟨hterm₃, hstate₃, hleader₃⟩ : core₃.currentTerm = args.term ∧
          core₃.state = .follower ∧ core₃.currentLeader = some args.leaderId := by
        obtain ⟨s, m, i, t, l, a, c, rfl⟩ := acceptEntries_eq hacc
        exact ⟨rfl, rfl, rfl⟩
      rw [repeats_iff_of_follows hterm₃ hstate₃ hleader₃]
      -- an accepted request was not a rejection
      exact ⟨fun h => h.elim (fun h => absurd h.1.symm Bool.false_ne_true) fun h => h.2,
        fun h => Or.inr ⟨rfl, h⟩⟩

/-- **When a request can be sent again**: for every well-formed node and every request that
continues its `prev_log_index`, contradicts nothing committed and fits into the machine range,
handling it a second time gives the same verdict and moves nothing if the condition holds.  It does so
under no other condition, unless a snapshot reaches an entry that was cut off wrongly; whether the
second walk passes over what is left then is up to the terms that it finds at the wrong places. -/
theorem repeats_of_repeatable [InfallibleStorage σ] (h : core.WellFormed)
    (hargs : core.Continues args) (hfits : Op.Fits core (.appendEntries args))
    {out : HandleAppendEntriesOutput} (h₁ : core.handleAppendEntries args = .ok (core₁, out)) :
    (core.Repeatable args → core₁.Repeats args out.result.success) ∧
      ((∀ m : μ, ∃ data, Snapshotable.snapshot m = .ok data) → ¬ core.CommitsCut args →
        core₁.Repeats args out.result.success → core.Repeatable args) ∧
      core₁.Within u64Max := by
  have hs : Op.step core (.appendEntries args) = some core₁ :=
    Op.step_eq_some.2 ⟨_, by rw [Op.run, h₁]; rfl⟩
  rcases handleAppendEntries_again h₁ with ⟨hno, hrep⟩ | ⟨haccepts, ⟨s, v, hacc⟩, hiff⟩
  · exact ⟨fun _ => hrep, fun _ _ _ hacc => absurd hacc hno, hfits.step_within hs⟩
  · have hwf : (core.following args s v).WellFormed := h.congr rfl rfl rfl rfl
    have hcont : (core.following args s v).Continues args := hargs
    have hprev : (core.following args s v).PrevMatches args.prevLogIndex args.prevLogTerm :=
      haccepts.2
    refine ⟨fun hrep => ?_, fun hwritten hno hrep _ => ?_, hfits.step_within hs⟩
    · have hsettles : (core.following args s v).Settles args := hrep haccepts
      exact hiff.2 (acceptsAgain_of_settles hwf hcont hprev hacc hsettles)
    · have hno' : ¬ (core.following args s v).CommitsCut args := hno
      have hsettles : (core.following args s v).Settles args :=
        settles_of_acceptsAgain hwf hcont hprev hwritten hacc hno' (hiff.1 hrep)
      exact hsettles

/-- A follower with two entries of term `1`. -/
def followerOfTwo (threshold : ℕ) : RaftCore StorageContents Recorder :=
  { RaftCore.fresh 2 [1, 3] .empty .new with
    currentTerm := 1
    log := [⟨1, 1, noopCommand⟩, ⟨1, 2, "SET x 1"⟩]
    snapshotThreshold := threshold }

theorem followerOfTwo_wellFormed (threshold : ℕ) : (followerOfTwo threshold).WellFormed :=
  ⟨show Indexed 0 [⟨1, 1, noopCommand⟩, ⟨1, 2, "SET x 1"⟩] by decide, Nat.zero_le _, Nat.zero_le _,
    Nat.zero_le _⟩

/-- The leader of term `2` replaces the second entry and commits it. -/
def replaceSecond : AppendEntriesArgs :=
  ⟨2, 1, 1, 1, [⟨2, 2, noopCommand⟩, ⟨2, 3, "SET x 2"⟩], 2⟩

theorem repeats_of_repeatable_replaced : ∃ core₁ out,
    (followerOfTwo 0).handleAppendEntries replaceSecond = .ok (core₁, out) ∧
      core₁.log = [⟨1, 1, noopCommand⟩, ⟨2, 2, noopCommand⟩, ⟨2, 3, "SET x 2"⟩] ∧
      core₁.lastApplied = 2 ∧ core₁.Repeats replaceSecond true := by
  refine ⟨_, _, rfl, rfl, rfl, ?_⟩
  have hcontinues : (followerOfTwo 0).Continues replaceSecond := by decide
  refine (repeats_of_repeatable (followerOfTwo_wellFormed 0) hcontinues (by decide) rfl).1 fun _ =>
    ⟨fun hcut => ?_, fun hc => ?_⟩
  · exact absurd hcut.1 (by decide)
  · exact absurd hc.2.1 (by decide)

/-- The leader of term `1` appends a third entry and commits all of them. -/
def appendThird : AppendEntriesArgs := ⟨1, 1, 2, 1, [⟨1, 3, "SET x 2"⟩], 3⟩

/-- **A follower that takes a snapshot** of three entries refuses the request it has just
accepted. -/
theorem refused_when_repeated : (followerOfTwo 3).WellFormed ∧
    (followerOfTwo 3).Continues appendThird ∧ ∃ core₁ out,
      (followerOfTwo 3).handleAppendEntries appendThird = .ok (core₁, out) ∧
      out.result.success = true ∧ core₁.snapshotLastIndex = 3 ∧
      ¬ core₁.Repeats appendThird out.result.success := by
  have hexchange : ∃ core₁ out core₂ out₂,
      (followerOfTwo 3).handleAppendEntries appendThird = .ok (core₁, out) ∧
      out.result.success = true ∧ core₁.snapshotLastIndex = 3 ∧
      core₁.handleAppendEntries appendThird = .ok (core₂, out₂) ∧ out₂.result.success = false :=
    ⟨_, _, _, _, rfl, rfl, rfl, rfl, rfl⟩
  obtain ⟨core₁, out, core₂, out₂, h₁, hsucc, hs, h₂, hfail⟩ := hexchange
  refine ⟨followerOfTwo_wellFormed 3, by decide, core₁, out, h₁, hsucc, hs, ?_⟩
  rintro ⟨core', out', h, hsame, -⟩
  rw [h₂, Except.ok.injEq, Prod.mk.injEq] at h
  rw [← h.2, hfail, hsucc] at hsame
  cases hsame

end RaftCore

end RaftVibe
