/-
**Incoming requests are moves of their target.**

A node that stands in the relation to the replicated log still does after it has handled a request,
when the log has made the corresponding move.  Observing a term is `advance`, a granted vote is
`grant`, and an accepted AppendEntries or InstallSnapshot request is `accept` — or `overwrite`, if
requests need not be in role.  Two branches of the handlers have no counterpart in the replicated
log: raising the commit index over entries that were not compared, and keeping entries above a
snapshot that they do not continue.

Main definitions:

* `RaftVibe.RaftCore.CommitsUnchecked`, `RaftVibe.RaftCore.KeepsSuffix` — these branches;
* `RaftVibe.Setting.Admits` — a request does not lead into the branches that the setting excludes.

Main results:

* `RaftVibe.NodeRel.handleRequestVote`, `RaftVibe.NodeRel.handleAppendEntries`,
  `RaftVibe.NodeRel.handleInstallSnapshot` — the handlers;
* `RaftVibe.NodeRel.receive` — **an incoming request is a move of its target**.
-/

import RaftVibe.Representation
import RaftVibe.Simulation

set_option relaxedAutoImplicit false
set_option autoImplicit false

namespace RaftVibe

open ReplicatedLog

variable {σ μ : Type} [Storage σ] [Snapshotable μ] {S : Setting} {A A' : State ℕ LogEntry}
  {n source : ℕ} {core core' : RaftCore σ μ}

/-! ### Observing a term -/

namespace NodeRel

omit [Snapshotable μ] in
/-- A node moves on to a later term as a follower. -/
theorem advance (h : NodeRel S A n core) (hA : S.Reachable A) {t : ℕ} (ht : core.currentTerm < t)
    {storage : σ} (hst : S.compacting →
      Storage.loadSnapshot storage = Storage.loadSnapshot core.storage) :
    NodeRel S (A.advance n t) n { core with
      currentTerm := t, votedFor := none, state := .follower, storage } := by
  rw [h.term_eq] at ht
  have hf : Frame n A (A.advance n t) := State.frame_advance ht.le
  refine { h with
    term_eq := by simp
    vote_eq := ?_
    log := h.log.congr rfl rfl rfl
    leads := fun hl => absurd hl (by simp)
    stands := fun hc => absurd hc (by simp)
    commits := fun hs => ?_
    stored := fun hc snapshot hload => h.stored hc snapshot (hst hc ▸ hload) }
  · rw [State.advance_term_self]
    exact ((Setting.inv hA).vote_none ht).symm
  · have hc := h.commits hs
    refine ⟨hc.applied, hc.snapshot_le, hc.commit_le, ?_⟩
    rw [State.advance_term_self]
    exact (hc.committed.frame hf).mono ht.le

omit [Snapshotable μ] in
theorem observeTerm (h : NodeRel S A n core) (hA : S.Reachable A) (hst : S.Stores σ) {t : ℕ}
    (ho : core.observeTerm t = .ok core') : ∃ A', S.Moves n A A' ∧ NodeRel S A' n core' := by
  rcases RaftCore.observeTerm_ok ho with ⟨-, rfl⟩ | ⟨hlt, s, hs, rfl⟩
  · exact ⟨A, .refl n A, h⟩
  · refine ⟨A.advance n t, .advance (h.term_eq ▸ hlt), h.advance hA hlt fun hc => ?_⟩
    obtain ⟨-, hdur⟩ := hst hc
    exact hs.loadSnapshot

omit [Snapshotable μ] in
/-- The step-down of the node layer. -/
theorem stepDownInMemory (h : NodeRel S A n core) (hA : S.Reachable A) {t : ℕ}
    (ht : core.currentTerm < t) :
    ∃ A', S.Moves n A A' ∧ NodeRel S A' n (core.stepDownInMemory t) :=
  ⟨A.advance n t, .advance (h.term_eq ▸ ht), h.advance hA ht fun _ => rfl⟩

/-! ### Voting -/

omit [Snapshotable μ] in
/-- A node casts its vote. -/
theorem grant (h : NodeRel S A n core) {c : ℕ} (hv : core.votedFor = none) {storage : σ}
    (hst : S.compacting → Storage.loadSnapshot storage = Storage.loadSnapshot core.storage) :
    NodeRel S (A.grant n c) n { core with votedFor := some c, storage } := by
  rw [h.vote_eq] at hv
  have hf : Frame n A (A.grant n c) := State.frame_grant hv
  refine { h with
    vote_eq := (State.grant_vote_self A n c).symm
    log := h.log.congr rfl rfl rfl
    leads := fun hl => ?_
    stands := fun hc => ?_
    commits := fun hs => ?_
    stored := fun hc snapshot hload => h.stored hc snapshot (hst hc ▸ hload) }
  · have hl := h.leads hl
    exact ⟨hl.leader, hl.log, hl.self, hl.matched⟩
  · have hc := h.stands hc
    exact ⟨hc.running, hc.nodup, fun v hv => ⟨(hc.votes v hv).1, hf.vote_some (hc.votes v hv).2⟩⟩
  · have hc := h.commits hs
    exact ⟨hc.applied, hc.snapshot_le, hc.commit_le, hc.committed.frame hf⟩

omit [Snapshotable μ] in
/-- **RequestVote**: a granted vote is recorded. -/
theorem handleRequestVote (h : NodeRel S A n core) (hA : S.Reachable A) (hst : S.Stores σ)
    {args : RequestVoteArgs} {result : RequestVoteResult} (hr : VoteRel A source args)
    (hv : core.handleRequestVote args = .ok (core', result)) :
    ∃ A', S.Moves n A A' ∧ NodeRel S A' n core' ∧
      (result.voteGranted = true → A'.vote n args.term = some args.candidateId) := by
  rcases RaftCore.handleRequestVote_ok hv with ⟨-, rfl, rfl⟩ | ⟨core₁, h₁, hterm, hor⟩
  · exact ⟨A, .refl n A, h, by simp⟩
  obtain ⟨A₁, hm₁, hn₁⟩ := h.observeTerm hA hst h₁
  have ht₁ : A₁.term n = args.term := hn₁.term_eq.symm.trans hterm
  rcases hor with ⟨rfl, rfl⟩ | ⟨hfree, hup, hset, rfl⟩
  · exact ⟨A₁, hm₁, hn₁, by simp⟩
  obtain ⟨-, rfl⟩ := RaftCore.setVotedFor_ok.1 hset
  rcases hfree with hnone | hsome
  · have hr₁ := hr.frame hm₁.frame
    rw [hr.candidateId]
    have hgrant : S.Moves n A₁ (A₁.grant n source) := by
      refine .grant (hn₁.vote_eq ▸ hnone) (ht₁ ▸ hr₁.term_le) fun hrun hterm' => ?_
      obtain ⟨hlen, hlast⟩ := hr₁.log hrun (hterm'.trans ht₁)
      rwa [hlen, hlast, hn₁.log.isLogUpToDate_iff] at hup
    refine ⟨_, hm₁.trans hgrant, hn₁.grant hnone fun hc => ?_, fun _ => ?_⟩
    · obtain ⟨-, hdur⟩ := hst hc
      exact DurableSnapshots.saveVotedFor _ _
    · rw [← ht₁]
      exact State.grant_vote_self A₁ n source
  · -- the vote was cast before: only the storage changes
    have hn₂ : NodeRel S A₁ n { core₁ with
        votedFor := some args.candidateId
        storage := (Storage.saveVotedFor core₁.storage (some args.candidateId)).2 } :=
      { hn₁ with
        vote_eq := by rw [← hn₁.vote_eq, hsome]
        log := hn₁.log.congr rfl rfl rfl
        leads := fun hl => (hn₁.leads hl).congr rfl
        stands := fun hc => (hn₁.stands hc).congr rfl
        commits := fun hs => (hn₁.commits hs).congr rfl rfl rfl
        stored := fun hc snapshot hload => by
          obtain ⟨-, hdur⟩ := hst hc
          exact hn₁.stored hc snapshot ((DurableSnapshots.saveVotedFor _ _).symm.trans hload) }
    exact ⟨A₁, hm₁, hn₂, fun _ => by rw [← ht₁, ← hn₁.vote_eq, hsome]⟩

/-! ### Applying and compacting -/

/-- Compaction changes the representation of the log, not the log. -/
theorem autoSnapshot (h : NodeRel S A n core) (hst : S.Stores σ) :
    NodeRel S A n core.autoSnapshot := by
  by_cases hc : S.compacting
  · obtain ⟨hinf, hdur⟩ := hst hc
    rcases RaftCore.autoSnapshot_cases core with heq | hcomp
    · rwa [heq]
    · have hlog := h.log.compacted hcomp
      obtain ⟨entry, data, -, -, -, heq⟩ := hcomp
      rw [heq] at hlog ⊢
      refine { h with
        log := hlog
        leads := fun hl => (h.leads hl).congr rfl
        stands := fun hcand => (h.stands hcand).congr rfl
        plain := fun hno => absurd hc hno
        commits := fun hs => ?_
        stored := fun _ snapshot hload => ?_ }
      · have hcom := h.commits hs
        exact ⟨hcom.applied, hcom.applied.le, hcom.commit_le, hcom.committed⟩
      · have hsave := DurableSnapshots.saveSnapshot core.storage
          ⟨⟨core.lastApplied, entry.term⟩, data⟩ (InfallibleStorage.saveSnapshot_ok _ _)
        have hload' := (DurableSnapshots.compactLog _ _).symm.trans hload
        rw [hsave] at hload'
        obtain rfl : _ = snapshot := by simpa using hload'
        rfl
  · rwa [RaftCore.autoSnapshot_of_threshold (h.plain hc).1]

/-- **Raising the commit index** over a committed prefix of the log. -/
theorem commit (h : NodeRel S A n core) (hst : S.Stores σ) {i : ℕ}
    (hi : S.strict → core.commitIndex ≤ i ∧ i ≤ (A.log n).length ∧
      CommittedBy S.quorums A (A.term n) ((A.log n).take i))
    {results : List (ℕ × ApplyResult)}
    (happly : RaftCore.applyCommittedEntries { core with commitIndex := i } =
      .ok (core', results)) : NodeRel S A n core' := by
  obtain ⟨es, -, -, -, rfl⟩ := RaftCore.applyCommittedEntries_ok happly
  refine NodeRel.autoSnapshot ?_ hst
  refine { h with
    log := h.log.congr rfl rfl rfl
    leads := fun hl => (h.leads hl).congr rfl
    stands := fun hc => (h.stands hc).congr rfl
    commits := fun hs => ?_ }
  have hc := h.commits hs
  obtain ⟨hle, hlen, hcom⟩ := hi hs
  exact ⟨max_eq_right (hc.applied.le.trans hle), hc.snapshot_le.trans hle, hlen, hcom⟩

end NodeRel

/-! ### AppendEntries -/

/-- **A request raises the commit index above the entries that were compared**: it is accepted,
none of its entries conflicts, and both the leader's commit index and the log of the node reach
beyond `prev_log_index + entries.len()`. -/
def RaftCore.CommitsUnchecked (core : RaftCore σ μ) (args : AppendEntriesArgs) : Prop :=
  core.currentTerm ≤ args.term ∧ core.PrevMatches args.prevLogIndex args.prevLogTerm ∧
    (∀ e ∈ args.entries, ¬ Conflicts core.snapshotLastIndex core.log e) ∧
    max core.commitIndex (args.prevLogIndex + args.entries.length) <
      min args.leaderCommit core.lastLogIndex

instance (core : RaftCore σ μ) (args : AppendEntriesArgs) :
    Decidable (core.CommitsUnchecked args) := by
  unfold RaftCore.CommitsUnchecked
  infer_instance

/-- Valid logs match. -/
theorem logMatching_of_valid {L s : List LogEntry} (hL : Valid LogEntry.term A L)
    (hs : Valid LogEntry.term A s) : RaftCore.LogMatching L s := by
  intro i x y hx hy ht
  obtain ⟨hi, rfl⟩ := List.getElem?_eq_some_iff.1 hx
  obtain ⟨hj, rfl⟩ := List.getElem?_eq_some_iff.1 hy
  rw [List.take_succ_eq_append_getElem hi, List.take_succ_eq_append_getElem hj]
  refine hL.matching hs ?_ ?_ (by simp; omega) ht
  · rw [← List.take_succ_eq_append_getElem hi]
    exact List.take_prefix _ _
  · rw [← List.take_succ_eq_append_getElem hj]
    exact List.take_prefix _ _

omit [Storage σ] [Snapshotable μ] in
/-- What is in the log already does not conflict. -/
theorem not_conflicts_of_prefix {L s : List LogEntry} (hlog : core.Represents L)
    (hs : Indexed 0 s) (hpre : s <+: L) {e : LogEntry} (he : e ∈ s) :
    ¬ Conflicts core.snapshotLastIndex core.log e := by
  rintro ⟨hlt, x, hx, hne⟩
  obtain ⟨-, hx⟩ := hlog.getLogEntry_iff.1 (RaftCore.getLogEntry_eq_some.2 ⟨hlt, hx⟩)
  obtain ⟨hpos, hle, he⟩ := hs.mem he
  obtain ⟨r, rfl⟩ := hpre
  rw [Nat.sub_zero] at he
  rw [List.getElem?_append_left (List.getElem?_eq_some_iff.1 he).1, he] at hx
  exact hne (congrArg LogEntry.term (Option.some.inj hx).symm)

/-- A node takes over a log: as a prefix of the leader's where requests are in role, else as any
valid log. -/
theorem exists_moves_merge {s : List LogEntry} (hv : Valid LogEntry.term A s)
    (hle : ∀ e ∈ s, e.term ≤ A.term n) (hne : source ≠ n)
    (hown : S.honest → A.leader (A.term n) = some source ∧ s <+: A.llog (A.term n)) :
    ∃ A', S.Moves n A A' ∧ A'.term n = A.term n ∧ A'.vote n = A.vote n ∧
      A'.log n = merge (A.log n) s ∧ (S.honest → s.length ≤ A'.acked n (A.term n)) := by
  by_cases hh : S.honest
  · refine ⟨A.accept n s, .accept (hown hh).1 hne (hown hh).2, rfl, rfl, by simp, fun _ => ?_⟩
    rw [State.accept_acked_self]
    exact le_max_right _ _
  · exact ⟨A.overwrite n s, .overwrite hh hv hle, rfl, rfl, by simp, fun h => absurd h hh⟩

omit [Storage σ] [Snapshotable μ] in
/-- Taking over a prefix of the leader's log leaves what is committed. -/
theorem Commits.take_merge (h : Commits S A n core) (hA : S.Reachable A) (hh : S.honest)
    (hl : A.leader (A.term n) = some source) {s : List LogEntry} (hs : s <+: A.llog (A.term n)) :
    core.commitIndex ≤ (merge (A.log n) s).length ∧
      (merge (A.log n) s).take core.commitIndex = (A.log n).take core.commitIndex := by
  have hlen : ((A.log n).take core.commitIndex).length = core.commitIndex := by
    rw [List.length_take, min_eq_left h.commit_le]
  have hpre : (A.log n).take core.commitIndex <+: merge (A.log n) s :=
    prefix_merge_left (List.take_prefix _ _)
      ((Setting.kept hA hh).committed_prefix_llog (Setting.inv hA) h.committed hl le_rfl) hs
  have hle := hpre.length_le
  rw [hlen] at hle
  refine ⟨hle, eq_of_prefix_of_length (List.take_prefix _ _) hpre ?_⟩
  rw [hlen, List.length_take, min_eq_left hle]

namespace NodeRel

omit [Snapshotable μ] in
/-- What the check on `prev_log_index` establishes: the sender's term was not made up, and the logs
agree up to there. -/
theorem prevMatches (h : NodeRel S A n core) (hA : S.Reachable A) {args : AppendEntriesArgs}
    (hr : AppendRel S A source args)
    (hp : core.PrevMatches args.prevLogIndex args.prevLogTerm) :
    ¬ args.Bogus ∧ ∃ s, Carries S A args s ∧
      (A.log n).take args.prevLogIndex = s.take args.prevLogIndex := by
  have hvalid := (Setting.inv hA).valid_log n
  have hbogus : ¬ args.Bogus := by
    rintro ⟨hpos, hzero⟩
    obtain ⟨-, hle, hlast⟩ := (h.log.prevMatches_iff hpos).1 hp
    have hne : (A.log n).take args.prevLogIndex ≠ [] := by
      intro hnil
      have := congrArg List.length hnil
      rw [List.length_take, min_eq_left hle] at this
      exact absurd this (by simp; omega)
    obtain ⟨⟨c, hc⟩, -⟩ := (hvalid.shorten (List.take_prefix _ _)).prefix_llog hne
    have := (Setting.inv hA).leader_pos hc
    omega
  obtain ⟨s, hs⟩ := hr.carries.resolve_left hbogus
  refine ⟨hbogus, s, hs, ?_⟩
  rcases Nat.eq_zero_or_pos args.prevLogIndex with h0 | hpos
  · rw [h0, List.take_zero, List.take_zero]
  · obtain ⟨-, hle, hlast⟩ := (h.log.prevMatches_iff hpos).1 hp
    refine (logMatching_of_valid hvalid hs.valid).take_eq hle ?_ hpos ?_
    · rw [hs.length]
      exact Nat.le_add_right _ _
    · rw [hlast, hs.prevTerm hpos]

omit [Snapshotable μ] in
/-- **The entries of a request are taken over.** -/
theorem takeOver (h : NodeRel S A n core) (hA : S.Reachable A) (hst : S.Stores σ)
    (hfol : core.state = .follower) {args : AppendEntriesArgs} (hr : AppendRel S A source args)
    (hne : source ≠ n) (hterm : core.currentTerm = args.term)
    (hp : core.PrevMatches args.prevLogIndex args.prevLogTerm)
    (hcut : S.compacting → ¬ core.CutsAboveSnapshot args) {storage : σ}
    (hsaved : Saved core.storage storage) :
    ∃ A' s, S.Moves n A A' ∧ Carries S A args s ∧ A'.term n = A.term n ∧
      A'.log n = merge (A.log n) s ∧
      (S.honest → ¬ args.Bogus ∧ s.length ≤ A'.acked n args.term) ∧
      NodeRel S A' n { core with
        log := RaftVibe.takeOver core.snapshotLastIndex core.log args.entries, storage } := by
  obtain ⟨hbogus, s, hs, hpre⟩ := h.prevMatches hA hr hp
  have hAterm : A.term n = args.term := h.term_eq.symm.trans hterm
  have hle := hs.le
  have hown : S.honest → A.leader (A.term n) = some source ∧ s <+: A.llog (A.term n) := by
    intro hh
    rw [hAterm]
    exact ⟨hr.leader hh, hs.own hh⟩
  rw [← hAterm] at hle
  obtain ⟨A', hm, ht, hv, hlog, hack⟩ := exists_moves_merge hs.valid hle hne hown
  refine ⟨A', s, hm, hs, ht, hlog, fun hh => ⟨hbogus, hAterm ▸ hack hh⟩, ?_⟩
  have hprev : args.prevLogIndex ≤ s.length := by
    rw [hs.length]
    exact Nat.le_add_right _ _
  -- a snapshot stands for a committed prefix, which the leader has as well
  have hcov : (A.log n).take (min core.snapshotLastIndex s.length) =
      s.take (min core.snapshotLastIndex s.length) := by
    by_cases hc : S.compacting
    · have hstrict := S.strict_of_compacting hc
      have hh := S.honest_of_strict hstrict
      have hcom := h.commits hstrict
      have hpre' := (Setting.kept hA hh).committed_prefix_llog (Setting.inv hA) hcom.committed
        (hown hh).1 le_rfl
      have hsnap := hcom.snapshot_le
      refine eq_of_prefix_of_length ((List.take_prefix_take_left ?_).trans hpre')
        ((List.take_prefix _ _).trans (hown hh).2) ?_
      · exact (min_le_left _ _).trans hsnap
      · have := h.log.snapshot_le
        rw [List.length_take, List.length_take]
        omega
    · rw [(h.plain hc).2, Nat.zero_min, List.take_zero, List.take_zero]
  have hnocut : 0 < core.snapshotLastIndex →
      ∀ e ∈ s.drop args.prevLogIndex, ¬ Conflicts core.snapshotLastIndex core.log e := by
    intro hpos e he hconf
    have hc : S.compacting := by
      by_contra hno
      exact hpos.ne' (h.plain hno).2
    exact hcut hc ⟨hpos, hterm.le, hp, e, hs.entries ▸ he, hconf⟩
  refine { h with
    term_eq := by rw [ht, h.term_eq]
    vote_eq := by rw [ht, hv, h.vote_eq]
    log := ?_
    leads := fun hl => absurd (hfol.symm.trans hl) (by simp)
    stands := fun hc => absurd (hfol.symm.trans hc) (by simp)
    commits := fun hstrict => ?_
    stored := fun hc snapshot hload => ?_ }
  · rw [hlog]
    refine h.log.takeOver hs.indexed
      (logMatching_of_valid ((Setting.inv hA).valid_log n) hs.valid) hprev hpre hcov hnocut ?_ rfl
      rfl
    rw [hs.entries]
  · have hh := S.honest_of_strict hstrict
    have hc := h.commits hstrict
    obtain ⟨hle', htake⟩ := hc.take_merge hA hh (hown hh).1 (hown hh).2
    refine ⟨hc.applied, hc.snapshot_le, by rwa [hlog], ?_⟩
    rw [ht, hlog, htake]
    exact hc.committed.frame hm.frame
  · obtain ⟨-, hdur⟩ := hst hc
    exact h.stored hc snapshot (hsaved.loadSnapshot.symm.trans hload)

/-- **Accepting a request**: its entries are taken over, and the commit index rises over what is
committed. -/
theorem acceptEntries (h : NodeRel S A n core) (hA : S.Reachable A) (hst : S.Stores σ)
    (hfol : core.state = .follower) {args : AppendEntriesArgs} (hr : AppendRel S A source args)
    (hne : source ≠ n) (hterm : core.currentTerm = args.term)
    (hp : core.PrevMatches args.prevLogIndex args.prevLogTerm)
    (hcut : S.compacting → ¬ core.CutsAboveSnapshot args)
    (hcheck : S.strict → ¬ core.CommitsUnchecked args)
    (ha : core.acceptEntries args = .ok core') :
    ∃ A', S.Moves n A A' ∧ NodeRel S A' n core' ∧ (S.honest → ¬ args.Bogus ∧
      args.prevLogIndex + args.entries.length ≤ A'.acked n args.term) ∧
      (S.strict → core.commitIndex ≤ core'.commitIndex) := by
  obtain ⟨storage, core₁, hsaved, hcore₁, hor⟩ := RaftCore.acceptEntries_ok ha
  obtain ⟨A', s, hm, hs, ht, hlog, hack, hn₁⟩ :=
    h.takeOver hA hst hfol hr hne hterm hp hcut hsaved
  rw [← hcore₁] at hn₁
  rw [hs.length] at hack
  have hci : core₁.commitIndex = core.commitIndex := by rw [hcore₁]
  refine ⟨A', hm, ?_⟩
  rcases hor with ⟨-, rfl⟩ | ⟨hlt, results, happly⟩
  · exact ⟨hn₁, hack, fun _ => hci.ge⟩
  have hmono : S.strict → core₁.commitIndex ≤ min args.leaderCommit core₁.lastLogIndex := by
    intro hstrict
    rw [hn₁.log.lastLogIndex]
    exact le_min (hci ▸ hlt.le) (hn₁.commits hstrict).commit_le
  refine ⟨hn₁.commit hst (fun hstrict => ⟨hmono hstrict, ?_⟩) happly, hack, fun hstrict => ?_⟩
  rotate_left
  · obtain ⟨_, _, _, _, _, _, rfl⟩ := RaftCore.applyCommittedEntries_eq happly
    exact hci ▸ hmono hstrict
  have hc := hn₁.commits hstrict
  rw [hn₁.log.lastLogIndex]
  refine ⟨min_le_right _ _, ?_⟩
  -- what lies above the compared entries is not reached
  have hreach : min args.leaderCommit (A'.log n).length ≤ s.length ∨
      min args.leaderCommit (A'.log n).length ≤ core₁.commitIndex := by
    rcases merge_eq_or (A.log n) s with heq | heq
    · have hpre : s <+: A.log n := heq ▸ prefix_merge _ _
      have hno : ∀ e ∈ args.entries, ¬ Conflicts core.snapshotLastIndex core.log e := by
        intro e he
        rw [hs.entries] at he
        exact not_conflicts_of_prefix h.log hs.indexed hpre (List.mem_of_mem_drop he)
      have hle' : min args.leaderCommit core.lastLogIndex ≤
          max core.commitIndex (args.prevLogIndex + args.entries.length) := by
        by_contra hgt
        exact hcheck hstrict ⟨hterm.le, hp, hno, not_le.1 hgt⟩
      rw [h.log.lastLogIndex, ← hs.length] at hle'
      rw [hlog, heq, hci]
      exact (le_max_iff.1 hle').symm
    · rw [hlog, heq]
      exact Or.inl (min_le_right _ _)
  have hpre : s <+: A'.log n := by
    rw [hlog]
    exact prefix_merge _ _
  rcases hreach with hreach | hreach
  · obtain ⟨ℓ, hℓ, hlen, hcom⟩ := hr.announces hstrict
    have hh := S.honest_of_strict hstrict
    rw [ht, ← h.term_eq, hterm]
    refine (hcom.frame hm.frame).shorten ?_
    have htake : (A'.log n).take (min args.leaderCommit (A'.log n).length) <+: s :=
      List.prefix_of_prefix_length_le (List.take_prefix _ _) hpre
        ((List.length_take_le _ _).trans hreach)
    refine List.prefix_of_prefix_length_le (htake.trans (hs.own hh)) hℓ ?_
    rw [hlen]
    exact (List.length_take_le _ _).trans (min_le_left _ _)
  · exact hc.committed.shorten (List.take_prefix_take_left hreach)

/-- **AppendEntries**: a success is an acknowledgement. -/
theorem handleAppendEntries (h : NodeRel S A n core) (hA : S.Reachable A) (hst : S.Stores σ)
    {args : AppendEntriesArgs} {out : HandleAppendEntriesOutput} (hr : AppendRel S A source args)
    (hne : source ≠ n) (hcut : S.compacting → ¬ core.CutsAboveSnapshot args)
    (hcheck : S.strict → ¬ core.CommitsUnchecked args)
    (ha : core.handleAppendEntries args = .ok (core', out)) :
    ∃ A', S.Moves n A A' ∧ NodeRel S A' n core' ∧
      (S.honest → out.result.success = true → ¬ args.Bogus ∧
        args.prevLogIndex + args.entries.length ≤ A'.acked n args.term) ∧
      (S.strict → core.commitIndex ≤ core'.commitIndex) := by
  obtain ⟨core₁, h₁, hor⟩ := RaftCore.handleAppendEntries_ok ha
  obtain ⟨A₁, hm₁, hn₁⟩ := h.observeTerm hA hst h₁
  have hci := (RaftCore.observeTerm_log h₁).2.2.2
  rcases hor with ⟨-, rfl, -, hs⟩ | ⟨hterm, core₂, hcore₂, hor⟩
  · exact ⟨A₁, hm₁, hn₁, by simp [hs], fun _ => hci.ge⟩
  have hn₂ : NodeRel S A₁ n core₂ := by
    subst hcore₂
    exact { hn₁ with
      log := hn₁.log.congr rfl rfl rfl
      leads := fun hl => absurd hl (by simp)
      stands := fun hc => absurd hc (by simp)
      commits := fun hs => (hn₁.commits hs).congr rfl rfl rfl }
  have hobserved : core.currentTerm ≤ args.term := by
    have := RaftCore.observeTerm_currentTerm h₁
    omega
  have hci₂ : core₂.commitIndex = core.commitIndex := by rw [hcore₂]; exact hci
  rcases hor with ⟨rfl, -, hs⟩ | ⟨hp, hacc, -, -⟩
  · exact ⟨A₁, hm₁, hn₂, by simp [hs], fun _ => hci₂.ge⟩
  · -- the conditions speak about the node before it observed the term
    have hcut₂ : S.compacting → ¬ core₂.CutsAboveSnapshot args := by
      rintro hc ⟨hpos, -, hp, e, he, hconf⟩
      subst hcore₂
      rcases RaftCore.observeTerm_ok h₁ with ⟨-, rfl⟩ | ⟨-, s, -, rfl⟩ <;>
        exact hcut hc ⟨hpos, hobserved, hp, e, he, hconf⟩
    have hcheck₂ : S.strict → ¬ core₂.CommitsUnchecked args := by
      rintro hs ⟨-, hp, hno, hlt⟩
      subst hcore₂
      rcases RaftCore.observeTerm_ok h₁ with ⟨-, rfl⟩ | ⟨-, s, -, rfl⟩ <;>
        exact hcheck hs ⟨hobserved, hp, hno, hlt⟩
    have hfol : core₂.state = .follower := by rw [hcore₂]
    have hterm₂ : core₂.currentTerm = args.term := by rw [hcore₂]; exact hterm
    obtain ⟨A₂, hm₂, hn₃, hack, hmono⟩ := hn₂.acceptEntries (hm₁.reachable hA) hst hfol
      (hr.frame hm₁.frame) hne hterm₂ hp hcut₂ hcheck₂ hacc
    exact ⟨A₂, hm₁.trans hm₂, hn₃, fun hh _ => hack hh, fun hs => hci₂ ▸ hmono hs⟩

end NodeRel

/-! ### InstallSnapshot -/

/-- **A snapshot is installed below entries that do not continue it**: the log reaches beyond the
snapshot, and its entry at the last included index has another term. -/
def RaftCore.KeepsSuffix (core : RaftCore σ μ) (args : InstallSnapshotArgs) : Prop :=
  core.currentTerm ≤ args.term ∧ core.snapshotLastIndex < args.lastIncludedIndex ∧
    args.lastIncludedIndex < core.lastLogIndex ∧
    (core.getLogEntry args.lastIncludedIndex).map LogEntry.term ≠ some args.lastIncludedTerm

instance (core : RaftCore σ μ) (args : InstallSnapshotArgs) :
    Decidable (core.KeepsSuffix args) := by
  unfold RaftCore.KeepsSuffix
  infer_instance

omit [Storage σ] [Snapshotable μ] in
/-- **Installing a snapshot** of `s` merges `s` into the logical log, if the entries that are kept
continue it. -/
theorem RaftCore.Represents.install {L s : List LogEntry} (h : core.Represents L)
    (hs : Indexed 0 s) (hm : RaftCore.LogMatching L s) (hlt : core.snapshotLastIndex < s.length)
    (hkeep : s.length < core.lastLogIndex →
      (core.getLogEntry s.length).map LogEntry.term = some (lastTerm LogEntry.term s))
    (hl : core'.log = core.log.filter fun e => e.index > s.length)
    (hs' : core'.snapshotLastIndex = s.length)
    (ht : core'.snapshotLastTerm = lastTerm LogEntry.term s) : core'.Represents (merge L s) := by
  by_cases hpre : s <+: L
  · rw [merge_eq_left hpre]
    refine h.cut hlt.le hpre.length_le hl hs' ?_
    rw [ht, List.prefix_iff_eq_take.1 hpre, List.length_take, min_eq_left hpre.length_le]
  · rw [merge_eq_right hpre]
    have hlen : L.length ≤ s.length := by
      by_contra hgt
      have hkeep := hkeep (by rw [h.lastLogIndex]; exact not_le.1 hgt)
      obtain ⟨x, hx, hterm⟩ := Option.map_eq_some_iff.1 hkeep
      obtain ⟨-, hx⟩ := h.getLogEntry_iff.1 hx
      have hlast := lastTerm_take hx
      rw [Nat.sub_add_cancel (by omega : 1 ≤ s.length), hterm] at hlast
      have heq := hm.take_eq (not_le.1 hgt).le le_rfl (by omega)
        (by rw [hlast, List.take_length])
      rw [List.take_length] at heq
      exact hpre (heq ▸ List.take_prefix _ _)
    have hcont : Indexed core.snapshotLastIndex core.log := h.contiguous
    refine ⟨hs, hs'.le, ?_, ?_⟩
    · rw [hl, hcont.filter_gt, h.log_eq, List.drop_drop, hs', List.drop_of_length_le (by omega),
        List.drop_of_length_le le_rfl]
    · rw [ht, hs', List.take_length]

namespace NodeRel

omit [Snapshotable μ] in
/-- A snapshot of a committed prefix `s` of the leader's log is installed. -/
theorem install (h : NodeRel S A n core) (hA : S.Reachable A) (hst : S.Stores σ)
    {args : InstallSnapshotArgs} (hr : SnapshotRel S A source args) (hne : source ≠ n)
    (hterm : core.currentTerm = args.term)
    (hlt : core.snapshotLastIndex < args.lastIncludedIndex) (hkeep : ¬ core.KeepsSuffix args)
    {storage : σ} {m : μ} (hsave : Storage.saveSnapshot core.storage
      ⟨⟨args.lastIncludedIndex, args.lastIncludedTerm⟩, args.data⟩ = (.ok (), storage)) :
    ∃ A', S.Moves n A A' ∧ args.lastIncludedIndex ≤ A'.acked n args.term ∧
      NodeRel S A' n { core with
        stateMachine := m
        snapshotLastIndex := args.lastIncludedIndex
        snapshotLastTerm := args.lastIncludedTerm
        log := core.log.filter fun e => e.index > args.lastIncludedIndex
        storage := (Storage.compactLog storage (args.lastIncludedIndex + 1)).2
        commitIndex := max core.commitIndex args.lastIncludedIndex
        lastApplied := max core.lastApplied args.lastIncludedIndex } := by
  have hstrict := S.strict_of_compacting hr.compacting
  have hh := S.honest_of_strict hstrict
  obtain ⟨hinf, hdur⟩ := hst hr.compacting
  have hinv := Setting.inv hA
  obtain ⟨s, hs, hidx, hlen, hlast, hcom⟩ := hr.covers
  have hleader := hr.leader
  have hAterm : A.term n = args.term := h.term_eq.symm.trans hterm
  rw [← hAterm] at hs hleader hcom
  have hvalid : Valid LogEntry.term A s := (hinv.valid_llog hleader).shorten hs
  obtain ⟨A', hm, ht, hv, hlog, hack⟩ := exists_moves_merge hvalid
    (fun e he => hinv.llog_le hleader e (hs.subset he)) hne fun _ => ⟨hleader, hs⟩
  refine ⟨A', hm, by rw [← hlen, ← hAterm]; exact hack hh, { h with
    term_eq := by rw [ht, h.term_eq]
    vote_eq := by rw [ht, hv, h.vote_eq]
    log := ?_
    leads := fun hl => ?_
    stands := fun hc => ?_
    plain := fun hno => absurd hr.compacting hno
    commits := fun _ => ?_
    stored := fun _ snapshot hload => ?_ }⟩
  · rw [hlog]
    refine h.log.install hidx (logMatching_of_valid (hinv.valid_log n) hvalid) (hlen ▸ hlt) ?_
      (by rw [hlen]) hlen.symm hlast.symm
    intro hgt
    by_contra hno
    rw [hlen] at hgt hno
    rw [hlast] at hno
    exact hkeep ⟨hterm.le, hlt, hgt, hno⟩
  · have := (h.leads hl).leader
    rw [hleader] at this
    exact absurd (Option.some.inj this) hne
  · have hc := h.stands hc
    refine ⟨Or.inr ⟨source, hne, ?_⟩, hc.nodup, fun v hv => ⟨(hc.votes v hv).1, ?_⟩⟩
    · rw [ht]
      exact hm.frame.leader_some hleader
    · rw [ht]
      exact hm.frame.vote_some (hc.votes v hv).2
  · have hc := h.commits hstrict
    obtain ⟨hle, htake⟩ := hc.take_merge hA hh hleader hs
    have hpre : s <+: merge (A.log n) s := prefix_merge _ _
    have hle' := hpre.length_le
    rw [hlen] at hle'
    refine ⟨by simp only [hc.applied], le_max_right _ _, ?_, ?_⟩
    · rw [hlog]
      exact max_le hle hle'
    · simp only [ht, hlog]
      rcases le_total core.commitIndex args.lastIncludedIndex with hmax | hmax
      · rw [max_eq_right hmax, ← hlen, ← List.prefix_iff_eq_take.1 hpre]
        exact hcom.frame hm.frame
      · rw [max_eq_left hmax, htake]
        exact hc.committed.frame hm.frame
  · have hload' := (DurableSnapshots.compactLog _ _).symm.trans hload
    have hsaved := DurableSnapshots.saveSnapshot core.storage
      ⟨⟨args.lastIncludedIndex, args.lastIncludedTerm⟩, args.data⟩ (by rw [hsave])
    rw [hsave] at hsaved
    obtain rfl : _ = snapshot := by simpa [hsaved] using hload'
    rfl

/-- **InstallSnapshot**: a success is an acknowledgement. -/
theorem handleInstallSnapshot (h : NodeRel S A n core) (hA : S.Reachable A) (hst : S.Stores σ)
    {args : InstallSnapshotArgs} {result : InstallSnapshotResult}
    (hr : SnapshotRel S A source args) (hne : source ≠ n) (hkeep : ¬ core.KeepsSuffix args)
    (hi : core.handleInstallSnapshot args = .ok (core', result)) :
    ∃ A', S.Moves n A A' ∧ NodeRel S A' n core' ∧
      ∀ t, result = .success t → args.lastIncludedIndex ≤ A'.acked n args.term := by
  obtain ⟨hinf, hdur⟩ := hst hr.compacting
  rcases RaftCore.handleInstallSnapshot_ok hi with
    ⟨-, rfl, reason, rfl⟩ | ⟨core₁, core₂, h₁, hterm, hcore₂, hor⟩
  · exact ⟨A, .refl n A, h, by simp⟩
  obtain ⟨A₁, hm₁, hn₁⟩ := h.observeTerm hA hst h₁
  have hn₂ : NodeRel S A₁ n core₂ := by
    subst hcore₂
    exact { hn₁ with
      log := hn₁.log.congr rfl rfl rfl
      leads := fun hl => (hn₁.leads hl).congr rfl
      stands := fun hc => (hn₁.stands hc).congr rfl
      commits := fun hs => (hn₁.commits hs).congr rfl rfl rfl }
  rcases hor with ⟨storage, reason, rfl, rfl, hstorage⟩ | ⟨hlt, storage, m, hsave, -, rfl, rfl⟩
  · obtain rfl : storage = core₂.storage :=
      hstorage.resolve_right fun hno => hno.1 (InfallibleStorage.saveSnapshot_ok _ _)
    exact ⟨A₁, hm₁, hn₂, by simp⟩
  · have hterm₂ : core₂.currentTerm = args.term := by rw [hcore₂]; exact hterm
    have hkeep₂ : ¬ core₂.KeepsSuffix args := by
      have hobserved := RaftCore.observeTerm_currentTerm h₁
      rintro ⟨-, hlt, hgt, hne⟩
      subst hcore₂
      rcases RaftCore.observeTerm_ok h₁ with ⟨-, rfl⟩ | ⟨-, s, -, rfl⟩ <;>
        exact hkeep ⟨by omega, hlt, hgt, hne⟩
    obtain ⟨A₂, hm₂, hack, hn₃⟩ := hn₂.install (hm₁.reachable hA) hst (hr.frame hm₁.frame) hne
      hterm₂ hlt hkeep₂ hsave
    exact ⟨A₂, hm₁.trans hm₂, hn₃, fun t ht => hack⟩

end NodeRel

omit [Snapshotable μ] in
theorem RaftCore.handleRequestVote_commitIndex {args : RequestVoteArgs}
    {result : RequestVoteResult} (h : core.handleRequestVote args = .ok (core', result)) :
    core'.commitIndex = core.commitIndex := by
  rcases RaftCore.handleRequestVote_ok h with ⟨-, rfl, -⟩ | ⟨core₁, h₁, -, ⟨rfl, -⟩ | ⟨-, -, hset, -⟩⟩
  · rfl
  · exact (RaftCore.observeTerm_log h₁).2.2.2
  · obtain ⟨-, rfl⟩ := RaftCore.setVotedFor_ok.1 hset
    exact (RaftCore.observeTerm_log h₁).2.2.2

theorem RaftCore.handleInstallSnapshot_commitIndex {args : InstallSnapshotArgs}
    {result : InstallSnapshotResult}
    (h : core.handleInstallSnapshot args = .ok (core', result)) :
    core.commitIndex ≤ core'.commitIndex := by
  rcases RaftCore.handleInstallSnapshot_ok h with ⟨-, rfl, -⟩ | ⟨core₁, core₂, h₁, -, rfl, hor⟩
  · exact le_rfl
  · have hci := (RaftCore.observeTerm_log h₁).2.2.2
    rcases hor with ⟨_, _, rfl, -⟩ | ⟨-, _, _, -, -, rfl, -⟩
    · exact hci.ge
    · exact hci.ge.trans (le_max_left _ _)

/-- The request leads the node into none of the branches that the setting excludes. -/
def Setting.Admits (S : Setting) (core : RaftCore σ μ) : Request → Prop
  | .requestVote _ => True
  | .appendEntries args => (S.compacting → ¬ core.CutsAboveSnapshot args) ∧
      (S.strict → ¬ core.CommitsUnchecked args)
  | .installSnapshot args => S.compacting → ¬ core.KeepsSuffix args

/-- **Incoming requests**: the node moves, and its reply says what it did. -/
theorem NodeRel.receive (h : NodeRel S A n core) (hA : S.Reachable A) (hst : S.Stores σ)
    {request : Request} {reply : Reply} (hr : RequestRel S A source request) (hne : source ≠ n)
    (hadmits : S.Admits core request) (hrec : Server.receive core request = .ok (core', reply)) :
    ∃ A', S.Moves n A A' ∧ NodeRel S A' n core' ∧ ReplyRel S A' n request reply ∧
      (S.strict → core.commitIndex ≤ core'.commitIndex) := by
  rcases Server.receive_ok hrec with
    ⟨args, result, rfl, rfl, hv⟩ | ⟨args, out, rfl, rfl, ha⟩ | ⟨args, result, rfl, rfl, hi⟩
  · obtain ⟨A', hm, hn, hrep⟩ := h.handleRequestVote hA hst hr hv
    exact ⟨A', hm, hn, hrep, fun _ => (RaftCore.handleRequestVote_commitIndex hv).ge⟩
  · exact h.handleAppendEntries hA hst hr hne hadmits.1 hadmits.2 ha
  · obtain ⟨A', hm, hn, hrep⟩ :=
      h.handleInstallSnapshot hA hst hr hne (hadmits hr.compacting) hi
    exact ⟨A', hm, hn, hrep, fun _ => RaftCore.handleInstallSnapshot_commitIndex hi⟩

end RaftVibe
