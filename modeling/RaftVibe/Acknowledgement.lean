/-
**What an acknowledgement means.**

A leader builds a request for a peer, the peer accepts it, and the leader takes note of the index
that the peer has acknowledged.  Then the peer's log should hold the leader's entries up to that
index.  It does, except where nobody has compared: below both snapshots when the request starts at
the beginning of the log, or inside the leader's snapshot; and when a conflict had to be cut off
above the peer's snapshot.

Main definitions:

* `RaftVibe.RaftCore.Builds` — the two ways to build the request, with the index acknowledged;
* `RaftVibe.RaftCore.UncheckedAgree` — the peer agrees where the request compares nothing.

Main results:

* `RaftVibe.RaftCore.Builds.slice` — a request carries a slice of the leader's log;
* `RaftVibe.RaftCore.acknowledged_iff` — **exactly when an acknowledgement means replication**.
-/

import RaftVibe.LogicalLog

set_option relaxedAutoImplicit false
set_option autoImplicit false

namespace RaftVibe

open ReplicatedLog

namespace RaftCore

variable {σ μ : Type} {LL FL : List LogEntry}

/-! ### The request -/

section Request

variable [Storage σ] {leader : RaftCore σ μ} {args : AppendEntriesArgs} {peer acked : ℕ}

/-- The leader builds the request `args` for the peer, as `replicate_to_peers` does for an entry of
its log or as `send_heartbeat` does; a success acknowledges the index `acked`. -/
def Builds (leader : RaftCore σ μ) (peer : ℕ) (args : AppendEntriesArgs) (acked : ℕ) : Prop :=
  (args = leader.replicateArgs acked peer ∧ acked ≤ leader.lastLogIndex) ∨
    (leader.heartbeatRequest peer = some (.appendEntries args) ∧ acked = args.lastEntryIndex)

/-- The index of the last entry of a slice that reaches the end of the log. -/
theorem lastEntryIndex_drop (hL : Indexed 0 LL) {n : ℕ} (hn : n < LL.length)
    (he : args.entries = LL.drop n) : args.lastEntryIndex = LL.length := by
  obtain ⟨l, e, rfl⟩ := (List.eq_nil_or_concat' LL).resolve_left (by rintro rfl; simp at hn)
  have hidx := (Indexed.append_iff.1 hL).2
  rw [Indexed.singleton_iff, Nat.zero_add] at hidx
  rw [List.length_append, List.length_singleton] at hn ⊢
  rw [AppendEntriesArgs.lastEntryIndex, he, List.drop_append_of_le_length (by omega)]
  simpa using hidx

/-- **A request carries a slice of the leader's log**: from the entry after `prev_log_index`, or from
the first one above the snapshot, up to the acknowledged index. -/
theorem Builds.slice (hL : leader.Represents LL) (h : leader.Builds peer args acked) :
    args.term = leader.currentTerm ∧
      args.prevLogIndex = leader.nextIndex.getD peer 1 - 1 ∧
      args.prevLogTerm = leader.prevLogTerm (leader.nextIndex.getD peer 1 - 1) ∧
      args.entries = (LL.take acked).drop
        (max leader.snapshotLastIndex (leader.nextIndex.getD peer 1 - 1)) ∧
      acked ≤ LL.length := by
  rcases h with ⟨rfl, hle⟩ | ⟨hb, hacked⟩
  · rw [hL.lastLogIndex] at hle
    exact ⟨rfl, rfl, rfl, hL.filter_slice _ _, hle⟩
  · simp only [heartbeatRequest] at hb
    split at hb
    · split at hb <;> simp at hb
    · rename_i hlt
      rw [Option.some.injEq, Request.appendEntries.injEq] at hb
      have hentries : args.entries = LL.drop
          (max leader.snapshotLastIndex (leader.nextIndex.getD peer 1 - 1)) := by
        rw [← hb]
        exact hL.filter_from _
      have hmax : max leader.snapshotLastIndex (leader.nextIndex.getD peer 1 - 1) =
          leader.nextIndex.getD peer 1 - 1 := max_eq_right (by omega)
      rw [hmax] at hentries ⊢
      refine ⟨by rw [← hb]; rfl, by rw [← hb]; rfl, by rw [← hb]; rfl, ?_, ?_⟩
      · rcases Nat.lt_or_ge (leader.nextIndex.getD peer 1 - 1) LL.length with hn | hn
        · rw [hacked, lastEntryIndex_drop hL.indexed hn hentries, List.take_length, hentries]
        · rw [List.drop_of_length_le hn] at hentries
          rw [hentries, List.drop_of_length_le]
          rw [List.length_take]
          omega
      · rcases Nat.lt_or_ge (leader.nextIndex.getD peer 1 - 1) LL.length with hn | hn
        · rw [hacked, lastEntryIndex_drop hL.indexed hn hentries]
        · rw [List.drop_of_length_le hn] at hentries
          rw [hacked, AppendEntriesArgs.lastEntryIndex, hentries]
          exact Nat.zero_le _

end Request

/-! ### The log of the peer afterwards -/

section After

variable {r s n k : ℕ} {v : List LogEntry} {e : LogEntry}

/-- The first entries of the vector are unchanged: so is the logical log up to there, wherever the
snapshot ends. -/
theorem logical_getElem?_of_unchanged (hF : Indexed 0 FL) (hr : r ≤ FL.length)
    (hn : n ≤ FL.length - r) (hv : v.take n = (FL.drop r).take n) (hs : r ≤ s)
    (hs' : s ≤ r + v.length) (hk : k < r + n) :
    (((FL.take r ++ v).take s) ++ v.filter fun e => e.index > s)[k]? = FL[k]? := by
  have hlen : (FL.take r).length = r := by
    rw [List.length_take, min_eq_left hr]
  have hvn : (FL.take r ++ v).length = r + v.length := by
    rw [List.length_append, hlen]
  -- below `r + n` the list `FL.take r ++ v` is `FL`
  have hpre : ∀ i, i < r + n → (FL.take r ++ v)[i]? = FL[i]? := by
    intro i hi
    rcases Nat.lt_or_ge i r with hir | hir
    · rw [List.getElem?_append_left (by omega), List.getElem?_take_of_lt hir]
    · rw [List.getElem?_append_right (by omega), hlen]
      have := congrArg (·[i - r]?) hv
      simp only [List.getElem?_take_of_lt (show i - r < n by omega)] at this
      rw [this, List.getElem?_drop, Nat.add_sub_cancel' hir]
  rcases Nat.lt_or_ge k s with hks | hks
  · rw [List.getElem?_append_left (by rw [List.length_take]; omega),
      List.getElem?_take_of_lt hks, hpre k hk]
  · have hidx : Indexed r ((FL.drop r).take n) := by
      have := (hF.drop hr).take n
      rwa [Nat.zero_add] at this
    have htake : ((FL.take r ++ v).take s).length = s := by
      rw [List.length_take, hvn, min_eq_left hs']
    rw [List.getElem?_append_right (by omega), htake, ← List.take_append_drop n v,
      List.filter_append, hv, hidx.filter_gt, List.getElem?_append_left]
    · rw [List.getElem?_drop, List.getElem?_take_of_lt (by omega), List.getElem?_drop]
      congr 1
      omega
    · rw [List.length_drop, List.length_take, List.length_drop]
      omega

/-- What lies beyond the old log comes from the entries that were appended. -/
theorem mem_of_logical_getElem? {es : List LogEntry} (hF : Indexed 0 FL) (hr : r ≤ FL.length)
    (hv : v = FL.drop r ++ es) (hs : r ≤ s) (hk : FL.length ≤ k)
    (he : (((FL.take r ++ v).take s) ++ v.filter fun e => e.index > s)[k]? = some e) : e ∈ es := by
  subst hv
  rw [← List.append_assoc, List.take_append_drop] at he
  have hidx : Indexed r (FL.drop r) := by
    have := hF.drop hr
    rwa [Nat.zero_add] at this
  rcases Nat.lt_or_ge k ((FL ++ es).take s).length with hlt | hge
  · rw [List.getElem?_append_left hlt] at he
    have hks : k < s := by
      rw [List.length_take] at hlt
      omega
    rw [List.getElem?_take_of_lt hks, List.getElem?_append_right hk] at he
    exact List.mem_of_getElem? he
  · rw [List.getElem?_append_right hge, List.filter_append, hidx.filter_gt,
      List.getElem?_append_right] at he
    · exact (List.mem_filter.1 (List.mem_of_getElem? he)).1
    · rw [List.length_drop, List.length_drop]
      rw [List.length_take, List.length_append] at hge ⊢
      omega

/-- With consecutive indices the snapshot may end anywhere. -/
theorem logical_of_indexed (hr : r ≤ FL.length) (hv : Indexed r v) (hs : r ≤ s) :
    (((FL.take r ++ v).take s) ++ v.filter fun e => e.index > s) = FL.take r ++ v := by
  have hlen : (FL.take r).length = r := by
    rw [List.length_take, min_eq_left hr]
  rw [hv.filter_gt]
  conv_rhs => rw [← List.take_append_drop s (FL.take r ++ v)]
  congr 1
  have hnil : (FL.take r).drop s = [] := List.drop_of_length_le (by omega)
  rw [List.drop_append, hlen, hnil, List.nil_append]

end After

/-! ### The exchange -/

section Exchange

/-- Where the request compares nothing, the logs agree: if it starts at the beginning of the log, or
inside the leader's snapshot, that is up to the later of the two snapshots (as far as it is
acknowledged). -/
def UncheckedAgree (leader follower : RaftCore σ μ) (LL FL : List LogEntry)
    (prevLogIndex acked : ℕ) : Prop :=
  prevLogIndex = 0 ∨ prevLogIndex < leader.snapshotLastIndex →
    LL.take (min (max leader.snapshotLastIndex follower.snapshotLastIndex) acked) =
      FL.take (min (max leader.snapshotLastIndex follower.snapshotLastIndex) acked)

/-- No conflict has to be cut off above the follower's snapshot. -/
def NoCutAboveSnapshot (follower : RaftCore σ μ) (entries : List LogEntry) : Prop :=
  0 < follower.snapshotLastIndex →
    ∀ e ∈ entries, ¬ Conflicts follower.snapshotLastIndex follower.log e

variable {r prev S acked n s : ℕ} {entries v : List LogEntry}

/-- What the request compares agrees, and so does what it does not compare: together that is
everything up to the request and up to the snapshot, as far as it is acknowledged. -/
theorem take_eq_of_checked
    (hcmp : 0 < prev → S ≤ prev → r ≤ prev ∧ FL.take prev = LL.take prev ∧ prev ≤ FL.length)
    (hcov : prev = 0 ∨ prev < S → LL.take (min (max S r) acked) = FL.take (min (max S r) acked))
    {m : ℕ} (hm : m ≤ acked) (hm' : m ≤ max (max S prev) r) : FL.take m = LL.take m := by
  rcases Nat.lt_or_ge prev S with hpS | hpS
  · exact (take_eq_take_of_le (hcov (Or.inr hpS)) (by omega)).symm
  · rcases Nat.eq_zero_or_pos prev with h0 | hpos
    · exact (take_eq_take_of_le (hcov (Or.inl h0)) (by omega)).symm
    · obtain ⟨hrp, heq, -⟩ := hcmp hpos hpS
      exact take_eq_take_of_le heq (by omega)

/-- What the request carries is taken over, up to the acknowledged index, if what it does not compare
agrees and nothing is cut off above the snapshot. -/
theorem prefix_of_agree (hLL : Indexed 0 LL) (hFL : Indexed 0 FL) (hm : LogMatching FL LL)
    (hr : r ≤ FL.length) (hacked : acked ≤ LL.length) (hn : LL.take n <+: FL)
    (hcmp : 0 < prev → S ≤ prev → r ≤ prev ∧ FL.take prev = LL.take prev ∧ prev ≤ FL.length)
    (hcov : prev = 0 ∨ prev < S → LL.take (min (max S r) acked) = FL.take (min (max S r) acked))
    (hcut : 0 < r → ∀ e ∈ (LL.take acked).drop (max S prev), ¬ Conflicts r (FL.drop r) e)
    (hv : v = takeOver r (FL.drop r) ((LL.take acked).drop (max S prev))) :
    Indexed r v ∧ LL.take (max n acked) <+: FL.take r ++ v := by
  have hFr : Indexed r (FL.drop r) := by
    have := hFL.drop hr
    rwa [Nat.zero_add] at this
  -- the two prefixes, of which the longer one counts
  have longer {M : List LogEntry} (h₁ : LL.take n <+: M) (h₂ : LL.take acked <+: M) :
      LL.take (max n acked) <+: M := by
    rcases max_choice n acked with h | h <;> rw [h] <;> assumption
  rcases Nat.lt_or_ge (max S prev) acked with hlt | hge
  · -- there are entries to take over: they are those of `LL.take acked` after `max S prev`
    have hlen : (LL.take acked).length = acked := by
      rw [List.length_take, min_eq_left hacked]
    have hpre : FL.take (max S prev) = (LL.take acked).take (max S prev) := by
      rw [List.take_take, min_eq_left hlt.le]
      exact take_eq_of_checked hcmp hcov hlt.le (le_max_left _ _)
    have hcov' : FL.take (min r (LL.take acked).length) =
        (LL.take acked).take (min r (LL.take acked).length) := by
      rw [hlen, List.take_take, min_eq_left (min_le_right _ _)]
      exact take_eq_of_checked hcmp hcov (min_le_right _ _)
        ((min_le_left _ _).trans (le_max_right _ _))
    have hmerge := takeOver_eq_merge (hLL.take acked) (hm.take acked) (by omega) hpre hr hcov' hcut
    refine ⟨?_, ?_⟩
    · rw [hv]
      refine Indexed.takeOver hFr (b := max S prev) ?_ ?_ hcut
      · have := (hLL.take acked).drop (n := max S prev) (by omega)
        rwa [Nat.zero_add] at this
      · have := congrArg List.length hpre
        rw [List.length_take, List.length_take, hlen] at this
        rw [List.length_drop]
        omega
    · rw [hv, hmerge]
      exact longer (prefix_merge_left hn (List.take_prefix _ _) (List.take_prefix _ _))
        (prefix_merge _ _)
  · -- there is nothing to take over
    have hnil : (LL.take acked).drop (max S prev) = [] := by
      refine List.drop_of_length_le ?_
      rw [List.length_take]
      omega
    rw [hnil, takeOver] at hv
    subst hv
    refine ⟨hFr, ?_⟩
    rw [List.take_append_drop]
    refine longer hn ?_
    rw [← take_eq_of_checked hcmp hcov le_rfl (hge.trans (le_max_left _ _))]
    exact List.take_prefix _ _

/-- The entries of a list that begins with those of another one. -/
theorem getElem?_of_take_prefix {M : List LogEntry} (hacked : acked ≤ LL.length)
    (h : LL.take acked <+: M) (k : ℕ) (hk : k < acked) : M[k]? = LL[k]? := by
  have hlt : k < (LL.take acked).length := by
    rw [List.length_take]
    omega
  obtain ⟨t, rfl⟩ := h
  rw [List.getElem?_append_left hlt, List.getElem?_take_of_lt hk]

/-- The entries that the request carries. -/
theorem indexed_slice (hLL : Indexed 0 LL) :
    Indexed (max S prev) ((LL.take acked).drop (max S prev)) := by
  rcases Nat.lt_or_ge (LL.take acked).length (max S prev) with hlt | hge
  · rw [List.drop_of_length_le hlt.le]
    exact Indexed.nil
  · have hdrop := (hLL.take acked).drop hge
    rwa [Nat.zero_add] at hdrop

/-- Conversely, if the acknowledged entries are there afterwards, the logs agreed up to the later of the
two snapshots. -/
theorem take_eq_of_logical (hLL : Indexed 0 LL) (hFL : Indexed 0 FL) (hr : r ≤ FL.length)
    (hacked : acked ≤ LL.length)
    (hv : v = takeOver r (FL.drop r) ((LL.take acked).drop (max S prev)))
    (hs : r ≤ s) (hs' : s ≤ r + v.length)
    (hget : ∀ k, k < acked →
      (((FL.take r ++ v).take s) ++ v.filter fun e => e.index > s)[k]? = LL[k]?) :
    LL.take (min (max S r) acked) = FL.take (min (max S r) acked) := by
  have hE : Indexed (max S prev) ((LL.take acked).drop (max S prev)) := indexed_slice hLL
  refine List.ext_getElem? fun j => ?_
  rcases Nat.lt_or_ge j (min (max S r) acked) with hj | hj
  · rw [List.getElem?_take_of_lt hj, List.getElem?_take_of_lt hj, ← hget j (by omega)]
    rcases Nat.lt_or_ge j FL.length with hjF | hjF
    · -- the entries of the request lie beyond `j`, so nothing has changed up to there
      refine logical_getElem?_of_unchanged (n := j + 1 - r) hFL hr (by omega) ?_ hs hs' (by omega)
      refine List.ext_getElem? fun q => ?_
      rcases Nat.lt_or_ge q (j + 1 - r) with hq | hq
      · rw [List.getElem?_take_of_lt hq, List.getElem?_take_of_lt hq, hv]
        refine takeOver_getElem?_of_lt (by rw [List.length_drop]; omega) fun e he => ?_
        have := (hE.mem he).1
        omega
      · rw [List.getElem?_take_eq_none hq, List.getElem?_take_eq_none hq]
    · -- there is a gap before the entries of the request
      exfalso
      have hbeyond : takeOver r (FL.drop r) ((LL.take acked).drop (max S prev)) =
          FL.drop r ++ (LL.take acked).drop (max S prev) :=
        takeOver_of_beyond hE (by rw [List.length_drop]; omega)
      have hjL : j < LL.length := by omega
      have hy := hget j (by omega)
      rw [List.getElem?_eq_getElem hjL] at hy
      have hmem := mem_of_logical_getElem? hFL hr (hv.trans hbeyond) hs hjF hy
      have hidx := hLL j _ (List.getElem?_eq_getElem hjL)
      have := (hE.mem hmem).1
      omega
  · rw [List.getElem?_take_eq_none hj, List.getElem?_take_eq_none hj]

/-- Nor was anything cut off above the snapshot: the old entry at the index of the first conflict would
stay where it is. -/
theorem noConflict_of_logical (hLL : Indexed 0 LL) (hFL : Indexed 0 FL) (hr : r ≤ FL.length)
    (hv : v = takeOver r (FL.drop r) ((LL.take acked).drop (max S prev)))
    (hs : r ≤ s) (hs' : s ≤ r + v.length)
    (hget : ∀ k, k < acked →
      (((FL.take r ++ v).take s) ++ v.filter fun e => e.index > s)[k]? = LL[k]?)
    (hrpos : 0 < r) : ∀ e ∈ (LL.take acked).drop (max S prev), ¬ Conflicts r (FL.drop r) e := by
  have hE : Indexed (max S prev) ((LL.take acked).drop (max S prev)) := indexed_slice hLL
  rcases first_conflict_or r (FL.drop r) ((LL.take acked).drop (max S prev)) with
    hno | ⟨m, e, hm, hconf, hfirst⟩
  · exact hno
  · exfalso
    have hidx := hE m e hm
    obtain ⟨hlt, x, hx, hne⟩ := hconf
    have hx : (FL.drop r)[e.index - r - 1]? = some x := hx
    obtain ⟨hxlt, -⟩ := List.getElem?_eq_some_iff.1 hx
    have hmlt := (List.getElem?_eq_some_iff.1 hm).1
    rw [List.length_drop] at hxlt
    have hcut := takeOver_of_first_conflict hE hm ⟨hlt, x, hx, hne⟩ hfirst
    have hrest := hE.drop (Nat.succ_le_of_lt hmlt)
    have hsame : v.take (e.index - r) = (FL.drop r).take (e.index - r) := by
      refine List.ext_getElem? fun q => ?_
      rcases Nat.lt_or_ge q (e.index - r) with hq | hq
      · have hlen : q < ((FL.drop r).take (e.index - 1)).length := by
          rw [List.length_take, List.length_drop]
          omega
        rw [List.getElem?_take_of_lt hq, List.getElem?_take_of_lt hq, hv, hcut,
          takeOver_getElem?_of_lt (by rw [List.length_append]; omega),
          List.getElem?_append_left hlen, List.getElem?_take_of_lt (by omega)]
        intro y hy
        have := (hrest.mem hy).1
        omega
      · rw [List.getElem?_take_eq_none hq, List.getElem?_take_eq_none hq]
    have hlast : e.index - 1 < acked := by
      rw [List.length_drop, List.length_take] at hmlt
      omega
    have hkeep := logical_getElem?_of_unchanged (k := e.index - 1) (n := e.index - r)
      hFL hr (by omega) hsame hs hs' (by omega)
    rw [hget _ hlast] at hkeep
    have hLe : LL[e.index - 1]? = some e := by
      have := hm
      rw [List.getElem?_drop, List.getElem?_take_of_lt (by omega)] at this
      rw [← this]
      congr 1
      omega
    have hFx : FL[e.index - 1]? = some x := by
      rw [← hx, List.getElem?_drop]
      congr 1
      omega
    rw [hLe, hFx] at hkeep
    exact hne (congrArg LogEntry.term (Option.some.inj hkeep).symm)

variable [Storage σ] [Snapshotable μ] {leader leader' follower follower' : RaftCore σ μ}
  {args : AppendEntriesArgs}

/-- The logical log of a follower that has accepted entries: taken over, and cut somewhere. -/
theorem acceptEntries_logicalLog (FL : List LogEntry)
    (ha : follower.acceptEntries args = .ok follower')
    (hv : v = takeOver follower.snapshotLastIndex follower.log args.entries) :
    ∃ s, follower.snapshotLastIndex ≤ s ∧ s ≤ follower.snapshotLastIndex + v.length ∧
      follower'.logicalLog (FL.take follower.snapshotLastIndex ++ v) =
        (FL.take follower.snapshotLastIndex ++ v).take s ++ v.filter fun e => e.index > s := by
  obtain ⟨st, core₁, -, rfl, ⟨-, rfl⟩ | ⟨-, results, happly⟩⟩ := acceptEntries_ok ha
  · exact ⟨_, le_rfl, Nat.le_add_right _ _, by rw [logicalLog, ← hv]⟩
  · obtain ⟨es, -, -, -, rfl⟩ := applyCommittedEntries_ok happly
    rw [← hv]
    rcases autoSnapshot_log (_ : RaftCore σ μ) with ⟨hs, hl⟩ | ⟨hlt, ⟨entry, he⟩, hs, hl⟩
    · exact ⟨_, le_rfl, Nat.le_add_right _ _, by rw [logicalLog, hs, hl]⟩
    · obtain ⟨-, hpos⟩ := getLogEntry_eq_some.1 he
      have hlen := (List.getElem?_eq_some_iff.1 hpos).1
      refine ⟨_, hlt.le, ?_, by
        rcases hl with hl | hl
        · rw [logicalLog, hs, hl]
        · rw [logicalLog, hs, hl, List.filter_filter]
          simp⟩
      simp only at hlen hlt ⊢
      omega

/-- A leader takes note of the index that a success acknowledges. -/
theorem matchIndex_of_success {peer : ℕ} {result : AppendEntriesResult} {commit : Option ℕ}
    {results : List (ℕ × ApplyResult)} (hstate : leader.state = .leader)
    (hsucc : result.success = true) (hterm : result.term ≤ leader.currentTerm)
    (h : leader.handleAppendEntriesResult peer acked result = .ok (leader', commit, results)) :
    leader'.matchIndex.getD peer 0 = max (leader.matchIndex.getD peer 0) acked := by
  obtain ⟨leader₁, hobs, hor⟩ := handleAppendEntriesResult_ok h
  obtain rfl : leader₁ = leader := by
    rcases observeTerm_ok hobs with ⟨-, rfl⟩ | ⟨hlt, -⟩
    · rfl
    · omega
  rcases hor with ⟨hno, -⟩ | ⟨-, leader₂, h₂, hor⟩
  · exact absurd hstate hno
  · rw [← recordAppendResult_getD leader₁ peer acked hsucc, ← h₂]
    rcases hor with ⟨rfl, -⟩ | ⟨-, -, -, -, -, happly⟩
    · rfl
    · obtain ⟨_, _, _, _, _, _, rfl⟩ := applyCommittedEntries_eq happly
      rfl

/-- A follower that answers with success has accepted the entries, with its log as it was. -/
theorem accepted_of_success {out : HandleAppendEntriesOutput} (hF : follower.Represents FL)
    (h : follower.handleAppendEntries args = .ok (follower', out))
    (hsucc : out.result.success = true) :
    ∃ core : RaftCore σ μ, core.Represents FL ∧
      core.snapshotLastIndex = follower.snapshotLastIndex ∧ core.log = follower.log ∧
      core.PrevMatches args.prevLogIndex args.prevLogTerm ∧
      core.acceptEntries args = .ok follower' ∧
      out.result.term = args.term := by
  obtain ⟨core₁, h₁, ⟨-, -, -, hno⟩ | ⟨hterm₁, core₂, h₂, hor⟩⟩ := handleAppendEntries_ok h
  · exact absurd (hsucc.symm.trans hno) (by simp)
  rcases hor with ⟨-, -, hno⟩ | ⟨hp, hacc, hout, -⟩
  · exact absurd (hsucc.symm.trans hno) (by simp)
  have hterm : out.result.term = args.term := by
    obtain ⟨_, _, _, _, _, _, _, heq⟩ := acceptEntries_eq hacc
    rw [hout, heq, ← hterm₁, h₂]
  obtain ⟨hF₂, hsli, hlog⟩ : core₂.Represents FL ∧
      core₂.snapshotLastIndex = follower.snapshotLastIndex ∧ core₂.log = follower.log := by
    subst h₂
    rcases observeTerm_ok h₁ with ⟨-, rfl⟩ | ⟨-, s, -, rfl⟩
    · exact ⟨hF.congr rfl rfl rfl, rfl, rfl⟩
    · exact ⟨hF.congr rfl rfl rfl, rfl, rfl⟩
  exact ⟨core₂, hF₂, hsli, hlog, hp, hacc, hterm⟩

/-- **Exactly when an acknowledgement means replication.**  The leader builds a request for the peer,
the peer accepts it, and the leader handles the answer.  Then the peer's logical log holds the
leader's entries up to the match index if and only if the logs agreed where the request compares
nothing, and no conflict was cut off above the peer's snapshot. -/
theorem acknowledged_iff {peer : ℕ} {out : HandleAppendEntriesOutput} {commit : Option ℕ}
    {results : List (ℕ × ApplyResult)} (hL : leader.Represents LL) (hF : follower.Represents FL)
    (hm : LogMatching FL LL) (hstate : leader.state = .leader)
    (hpos : 1 ≤ leader.nextIndex.getD peer 1)
    (hnext : leader.nextIndex.getD peer 1 ≤ leader.lastLogIndex + 1)
    (hmatch : LL.take (leader.matchIndex.getD peer 0) <+: FL)
    (hb : leader.Builds peer args acked)
    (hF' : follower.handleAppendEntries args = .ok (follower', out))
    (hsucc : out.result.success = true)
    (hL' : leader.handleAppendEntriesResult peer acked out.result =
      .ok (leader', commit, results)) :
    LL.take (leader'.matchIndex.getD peer 0) <+:
        follower'.logicalLog (FL.take follower.snapshotLastIndex ++
          takeOver follower.snapshotLastIndex follower.log args.entries) ↔
      leader.UncheckedAgree follower LL FL args.prevLogIndex acked ∧
        follower.NoCutAboveSnapshot args.entries := by
  obtain ⟨hterm, hprev, hprevTerm, hentries, hacked⟩ := hb.slice hL
  rw [hL.lastLogIndex] at hnext
  obtain ⟨core₂, hF₂, hsli, hlog, hp, hacc, hout⟩ := accepted_of_success hF hF' hsucc
  have hmax : leader'.matchIndex.getD peer 0 = max (leader.matchIndex.getD peer 0) acked :=
    matchIndex_of_success hstate hsucc (hout.trans hterm).le hL'
  obtain ⟨s, hs, hs', hlogical⟩ := acceptEntries_logicalLog FL hacc rfl
  rw [hsli] at hs
  rw [hsli, hlog, hentries, hF.log_eq] at hs'
  rw [hsli, hlog, hentries, hF.log_eq] at hlogical
  rw [hmax, hentries, hF.log_eq, hlogical, UncheckedAgree, NoCutAboveSnapshot, hprev, hF.log_eq]
  constructor
  · intro h
    have hget := getElem?_of_take_prefix hacked
      ((List.take_prefix_take_left (le_max_right _ _)).trans h)
    exact ⟨fun _ => take_eq_of_logical hL.indexed hF.indexed hF.snapshot_le hacked rfl hs hs' hget,
      noConflict_of_logical hL.indexed hF.indexed hF.snapshot_le rfl hs hs' hget⟩
  · rintro ⟨hagree, hcut⟩
    have hcmp : 0 < leader.nextIndex.getD peer 1 - 1 →
        leader.snapshotLastIndex ≤ leader.nextIndex.getD peer 1 - 1 →
        follower.snapshotLastIndex ≤ leader.nextIndex.getD peer 1 - 1 ∧
          FL.take (leader.nextIndex.getD peer 1 - 1) = LL.take (leader.nextIndex.getD peer 1 - 1) ∧
          leader.nextIndex.getD peer 1 - 1 ≤ FL.length := by
      intro h0 hS
      rw [hprev, hprevTerm] at hp
      obtain ⟨hr, hlen, hlast⟩ := (hF₂.prevMatches_iff h0).1 hp
      rw [hL.prevLogTerm hS (by omega)] at hlast
      exact ⟨hsli ▸ hr, hm.take_eq hlen (by omega) h0 hlast, hlen⟩
    obtain ⟨hidx, hpre⟩ := prefix_of_agree hL.indexed hF.indexed hm hF.snapshot_le hacked hmatch
      hcmp hagree hcut rfl
    rw [logical_of_indexed hF.snapshot_le hidx hs]
    exact hpre

end Exchange

/-- A leader of two entries, whose peer is to be sent everything. -/
def leaderOfTwo : RaftCore MemoryStorage Recorder :=
  { RaftCore.fresh 1 [2] MemoryStorage.new Recorder.new with
    currentTerm := 1
    state := .leader
    log := [⟨1, 1, noopCommand⟩, ⟨1, 2, "SET x 1"⟩]
    nextIndex := AList.insert 2 1 ∅ }

/-- The same leader after it has compacted the first entry. -/
def compactedLeader : RaftCore MemoryStorage Recorder :=
  { leaderOfTwo with
    snapshotLastIndex := 1
    snapshotLastTerm := 1
    log := [⟨1, 2, "SET x 1"⟩]
    commitIndex := 1
    lastApplied := 1 }

/-- The peer, with an empty log. -/
def emptyFollower : RaftCore MemoryStorage Recorder := .fresh 2 [1] .new .new

theorem compactedLeader_represents : compactedLeader.Represents leaderOfTwo.log :=
  ⟨by decide, by decide, rfl, rfl⟩

theorem emptyFollower_represents : emptyFollower.Represents [] := ⟨by decide, by decide, rfl, rfl⟩

/-- The same leader with a third entry, which is the one that the peer is to be sent. -/
def leaderOfThird : RaftCore MemoryStorage Recorder :=
  { compactedLeader with
    log := [⟨1, 2, "SET x 1"⟩, ⟨1, 3, "SET x 2"⟩]
    nextIndex := AList.insert 2 3 ∅
    matchIndex := AList.insert 2 1 ∅ }

/-- The peer with the first two entries, of which it has compacted one, too. -/
def compactedFollower : RaftCore MemoryStorage Recorder :=
  { emptyFollower with
    currentTerm := 1
    snapshotLastIndex := 1
    snapshotLastTerm := 1
    log := [⟨1, 2, "SET x 1"⟩]
    commitIndex := 1
    lastApplied := 1 }

/-- The entries of the log that both have a part of. -/
def threeEntries : List LogEntry := leaderOfTwo.log ++ [⟨1, 3, "SET x 2"⟩]

theorem leaderOfThird_represents : leaderOfThird.Represents threeEntries :=
  ⟨by decide, by decide, rfl, rfl⟩

theorem compactedFollower_represents : compactedFollower.Represents leaderOfTwo.log :=
  ⟨by decide, by decide, rfl, rfl⟩

/-- After compaction on both sides, all three entries are there when the third one is acknowledged. -/
theorem acknowledged_iff_compacted : ∃ (leader' follower' : RaftCore MemoryStorage Recorder)
    (out : HandleAppendEntriesOutput) (commit : Option ℕ) (results : List (ℕ × ApplyResult)),
    compactedFollower.handleAppendEntries (leaderOfThird.replicateArgs 3 2) = .ok (follower', out) ∧
      leaderOfThird.handleAppendEntriesResult 2 3 out.result = .ok (leader', commit, results) ∧
      leader'.matchIndex.getD 2 0 = 3 ∧
      threeEntries.take (leader'.matchIndex.getD 2 0) <+: follower'.logicalLog
        (leaderOfTwo.log.take 1 ++
          takeOver 1 compactedFollower.log (leaderOfThird.replicateArgs 3 2).entries) :=
  ⟨_, _, _, _, _, rfl, rfl, rfl, (acknowledged_iff leaderOfThird_represents
    compactedFollower_represents (by decide) rfl (by decide) (by decide)
    (by decide) (Or.inl ⟨rfl, by decide⟩) rfl rfl rfl).2
    ⟨fun h => absurd h (by decide), fun _ => by decide⟩⟩

/-- **An acknowledgement without replication**: `replicate_to_peers` sends the second entry alone to
a peer that has none, and the peer's success counts for both. -/
theorem acknowledged_not_replicated :
    compactedLeader.Represents leaderOfTwo.log ∧ emptyFollower.Represents [] ∧
      LogMatching [] leaderOfTwo.log ∧ compactedLeader.state = .leader ∧
      compactedLeader.nextIndex.getD 2 1 = 1 ∧ compactedLeader.lastLogIndex = 2 ∧
      compactedLeader.Builds 2 (compactedLeader.replicateArgs 2 2) 2 ∧
      ∃ (leader' follower' : RaftCore MemoryStorage Recorder) (out : HandleAppendEntriesOutput)
        (commit : Option ℕ) (results : List (ℕ × ApplyResult)),
        emptyFollower.handleAppendEntries (compactedLeader.replicateArgs 2 2) =
          .ok (follower', out) ∧
        compactedLeader.handleAppendEntriesResult 2 2 out.result = .ok (leader', commit, results) ∧
        out.result.success = true ∧ leader'.matchIndex.getD 2 0 = 2 ∧
        ¬ leaderOfTwo.log.take (leader'.matchIndex.getD 2 0) <+: follower'.logicalLog
          (([] : List LogEntry).take 0 ++ takeOver 0 []
            (compactedLeader.replicateArgs 2 2).entries) := by
  have hexchange : ∃ (leader' follower' : RaftCore MemoryStorage Recorder)
      (out : HandleAppendEntriesOutput) (commit : Option ℕ) (results : List (ℕ × ApplyResult)),
      emptyFollower.handleAppendEntries (compactedLeader.replicateArgs 2 2) =
        .ok (follower', out) ∧
      compactedLeader.handleAppendEntriesResult 2 2 out.result = .ok (leader', commit, results) ∧
      out.result.success = true ∧ leader'.matchIndex.getD 2 0 = 2 ∧
      follower'.log = [⟨1, 2, "SET x 1"⟩] ∧ follower'.snapshotLastIndex = 0 :=
    ⟨_, _, _, _, _, rfl, rfl, rfl, rfl, rfl, rfl⟩
  obtain ⟨leader', follower', out, commit, results, h₁, h₂, hsucc, hmatch, hlog, hsli⟩ := hexchange
  refine ⟨compactedLeader_represents, emptyFollower_represents, ?_, rfl, rfl, rfl,
    Or.inl ⟨rfl, by decide⟩, leader', follower', out, commit, results, h₁, h₂, hsucc, hmatch, ?_⟩
  · intro i x y hx
    simp at hx
  · rw [hmatch, logicalLog, hlog, hsli]
    decide

end RaftCore

end RaftVibe
