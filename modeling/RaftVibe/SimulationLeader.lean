/-
**Elections and replication are moves of their node.**

The methods that the event loop calls.  Starting an election is `campaign`, becoming leader is
`win`, appending is `append`.  An answer to a request changes the bookkeeping of a leader and leaves
the log alone; when it raises the commit index, the quorum that the commit rule of the replicated log
asks for is the set of peers that are recorded to have the entry.

Main results:

* `RaftVibe.NodeRel.startElection`, `RaftVibe.NodeRel.handleRequestVoteResult` — elections;
* `RaftVibe.NodeRel.appendLogEntry`, `RaftVibe.NodeRel.handleAppendEntriesResult`,
  `RaftVibe.NodeRel.handleInstallSnapshotResult` — leaders;
* `RaftVibe.NodeRel.committed` — **what a leader commits is committed**.
-/

import RaftVibe.SimulationFollower

set_option relaxedAutoImplicit false
set_option autoImplicit false

namespace RaftVibe

open ReplicatedLog

variable {σ μ : Type} [Storage σ] [Snapshotable μ] {S : Setting} {A A' : State ℕ LogEntry}
  {n : ℕ} {core core' : RaftCore σ μ}

/-! ### Elections -/

theorem IndexMap.mem_foldl_insert (peers : List ℕ) (m : IndexMap) (v p : ℕ) :
    p ∈ peers.foldl (fun m peer => AList.insert peer v m) m ↔ p ∈ peers ∨ p ∈ m := by
  induction peers generalizing m with
  | nil => simp
  | cons peer peers ih =>
      rw [List.foldl_cons, ih, AList.mem_insert, List.mem_cons]
      tauto

namespace NodeRel

omit [Snapshotable μ] in
/-- A member and its peers are all the members. -/
theorem card_nodes (h : NodeRel S A n core) (hn : n ∈ S.nodes) :
    S.nodes.toFinset.card = 1 + core.peers.length := by
  have hpeers : core.peers.toFinset = S.nodes.toFinset.erase n := by
    ext p
    rw [List.mem_toFinset, h.mem_peers, Finset.mem_erase, List.mem_toFinset, and_comm]
  rw [← List.toFinset_card_of_nodup h.peers_nodup, hpeers, Nat.add_comm,
    Finset.card_erase_add_one (List.mem_toFinset.2 hn)]

omit [Snapshotable μ] in
/-- The votes a candidate counts are a quorum when they are a majority. -/
theorem quorum_of_votes (h : NodeRel S A n core) (hn : n ∈ S.nodes) (hs : Stands S A n core)
    (hmaj : (1 + core.peers.length) / 2 + 1 ≤ core.votesReceived.length) :
    S.quorums.IsQuorum core.votesReceived.toFinset := by
  refine QuorumSystem.majority_iff.2 ⟨fun v hv => ?_, ?_⟩
  · exact List.mem_toFinset.2 (hs.votes v (List.mem_toFinset.1 hv)).1
  · rw [h.card_nodes hn, List.toFinset_card_of_nodup hs.nodup]
    exact hmaj

omit [Snapshotable μ] in
/-- **A new election.** -/
theorem startElection (h : NodeRel S A n core) (hA : S.Reachable A) (hst : S.Stores σ)
    (hn : n ∈ S.nodes) (he : core.startElection = .ok core') :
    ∃ A', S.Moves n A A' ∧ NodeRel S A' n core' := by
  obtain ⟨s, hs, rfl⟩ := RaftCore.startElection_ok he
  have hm : S.Moves n A (A.campaign n) := .campaign (Setting.inv hA) n
  refine ⟨A.campaign n, hm, { h with
    term_eq := by rw [State.campaign_term_self, h.term_eq]
    vote_eq := by rw [State.campaign_term_self, State.campaign_vote_self, h.id_eq]
    log := h.log.congr rfl rfl rfl
    leads := fun hl => absurd hl (by simp)
    stands := fun _ => ?_
    commits := fun hstrict => ?_
    stored := fun hc snapshot hload => ?_ }⟩
  · refine ⟨Or.inl (State.campaign_running_self A n), List.nodup_singleton _, fun v hv => ?_⟩
    obtain rfl : v = n := (List.mem_singleton.1 hv).trans h.id_eq
    exact ⟨hn, by rw [State.campaign_term_self, State.campaign_vote_self]⟩
  · have hc := h.commits hstrict
    refine ⟨hc.applied, hc.snapshot_le, hc.commit_le, ?_⟩
    rw [State.campaign_term_self]
    exact (hc.committed.frame hm.frame).mono (Nat.le_succ _)
  · obtain ⟨-, hdur⟩ := hst hc
    exact h.stored hc snapshot (hs.loadSnapshot.symm.trans hload)

omit [Snapshotable μ] in
/-- **A won election**: nobody else has won the term, since any two majorities meet. -/
theorem becomeLeader (h : NodeRel S A n core) (hA : S.Reachable A) (hst : S.Stores σ)
    (hn : n ∈ S.nodes) (hc : core.state = .candidate)
    (hmaj : (1 + core.peers.length) / 2 + 1 ≤ core.votesReceived.length)
    (hb : core.becomeLeader = .ok core') : ∃ A', S.Moves n A A' ∧ NodeRel S A' n core' := by
  obtain ⟨s, hs, rfl⟩ := RaftCore.becomeLeader_ok hb
  have hinv := Setting.inv hA
  have hstands := h.stands hc
  have hQ := h.quorum_of_votes hn hstands hmaj
  have hvotes : ∀ v ∈ core.votesReceived.toFinset, A.vote v (A.term n) = some n := fun v hv =>
    (hstands.votes v (List.mem_toFinset.1 hv)).2
  have hrun : A.running n := by
    refine hstands.running.resolve_right ?_
    rintro ⟨d, hd, hl⟩
    exact hd (hinv.leader_unique hl hQ hvotes)
  have hnone : A.leader (A.term n) = none := by
    cases hl : A.leader (A.term n) with
    | none => rfl
    | some d =>
        rw [hinv.leader_unique hl hQ hvotes] at hl
        exact absurd hl (hinv.running_leader hrun)
  have hm : S.Moves n A (A.win n core.noopEntry) := .win hinv hrun hnone hQ hvotes h.term_eq
  refine ⟨_, hm, { h with
    term_eq := h.term_eq
    vote_eq := h.vote_eq
    log := ?_
    next_pos := fun p => ?_
    keys := fun p hp => ?_
    leads := fun _ => ?_
    stands := fun hc => absurd hc (by simp)
    commits := fun hstrict => ?_
    stored := fun hcomp snapshot hload => ?_ }⟩
  · rw [State.win_log_self]
    exact h.log.append rfl rfl rfl rfl
  · simp only [IndexMap.getD_foldl_insert]
    split
    · omega
    · exact h.next_pos p
  · rcases (IndexMap.mem_foldl_insert _ _ _ _).1 hp with hp | hp
    · exact hp
    · exact h.keys p hp
  · refine ⟨State.win_leader_self A n _, ?_, ?_, fun _ p => ?_⟩
    · exact (State.win_log_self A n _).trans (State.win_llog_self A n _).symm
    · exact ((congrArg List.length (State.win_log_self A n _)).trans
        (State.win_acked_self A n _).symm).le
    · simp only [IndexMap.getD_foldl_insert]
      split
      · exact Nat.zero_le _
      · rename_i hp
        rw [IndexMap.getD, AList.lookup_eq_none.2 fun hmem => hp (h.keys p hmem)]
        exact Nat.zero_le _
  · have hcom := h.commits hstrict
    refine ⟨hcom.applied, hcom.snapshot_le, ?_, ?_⟩
    · rw [State.win_log_self, List.length_append]
      exact hcom.commit_le.trans (Nat.le_add_right _ _)
    · rw [State.win_log_self, List.take_append_of_le_length hcom.commit_le]
      exact hcom.committed.frame hm.frame
  · obtain ⟨-, hdur⟩ := hst hcomp
    exact h.stored hcomp snapshot (hs.loadSnapshot.symm.trans hload)

omit [Snapshotable μ] in
/-- **A RequestVote result**: a granted vote is counted by the candidate it was cast for. -/
theorem handleRequestVoteResult (h : NodeRel S A n core) (hA : S.Reachable A) (hst : S.Stores σ)
    (hn : n ∈ S.nodes) {target : ℕ} (htarget : target ∈ S.nodes) {result : RequestVoteResult}
    {won : Bool} (hvote : core.state = .candidate → result.voteGranted = true →
      A.vote target (A.term n) = some n)
    (hv : core.handleRequestVoteResult target result = .ok (core', won)) :
    ∃ A', S.Moves n A A' ∧ NodeRel S A' n core' := by
  obtain ⟨core₁, h₁, ⟨-, rfl, -⟩ | ⟨hc, core₂, hcore₂, hor⟩⟩ :=
    RaftCore.handleRequestVoteResult_ok hv
  · exact h.observeTerm hA hst h₁
  obtain rfl := RaftCore.eq_of_observeTerm h₁ (by rw [hc]; simp)
  have hn₂ : NodeRel S A n core₂ := by
    obtain ⟨votes, heq, hvotes⟩ := RaftCore.countVote_eq core₁ target result
    rw [hcore₂, heq]
    refine { h with
      log := h.log.congr rfl rfl rfl
      leads := fun hl => (h.leads hl).congr rfl
      stands := fun hc => ?_
      commits := fun hs => (h.commits hs).congr rfl rfl rfl }
    have hstands := h.stands hc
    rcases hvotes with rfl | ⟨hgranted, hnew, rfl⟩
    · exact hstands.congr rfl
    · refine ⟨hstands.running, ?_, fun v hv => ?_⟩
      · exact List.nodup_append_comm.1 (List.nodup_cons.2 ⟨hnew, hstands.nodup⟩)
      · rcases List.mem_append.1 hv with hv | hv
        · exact hstands.votes v hv
        · obtain rfl := List.mem_singleton.1 hv
          exact ⟨htarget, hvote hc hgranted⟩
  rcases hor with ⟨rfl, -⟩ | ⟨hmaj, hb, -⟩
  · exact ⟨A, .refl n A, hn₂⟩
  · have hc₂ : core₂.state = .candidate := by
      obtain ⟨votes, heq, -⟩ := RaftCore.countVote_eq core₁ target result
      rw [hcore₂, heq]
      exact hc
    exact hn₂.becomeLeader hA hst hn hc₂ hmaj hb

/-! ### The log of a leader -/

omit [Snapshotable μ] in
/-- **A leader appends**, and the entry is in its log. -/
theorem appendLogEntry (h : NodeRel S A n core) (hA : S.Reachable A) (hst : S.Stores σ)
    {command : String} {entry : LogEntry}
    (ha : core.appendLogEntry command = .ok (core', some entry)) :
    ∃ A', S.Moves n A A' ∧ NodeRel S A' n core' ∧
      entry.index ≤ (A'.llog core'.currentTerm).length := by
  rcases RaftCore.appendLogEntry_ok ha with ⟨-, -, hno⟩ | ⟨hl, e, s, hs, he, hsome, rfl⟩
  · exact absurd hno (by simp)
  obtain rfl : entry = e := by simpa using hsome
  have hinv := Setting.inv hA
  have hleads := h.leads hl
  have hm : S.Moves n A (A.append n entry) :=
    .append hinv hleads.leader hleads.log (by rw [he]; exact h.term_eq)
  refine ⟨_, hm, { h with
    term_eq := h.term_eq
    vote_eq := h.vote_eq
    log := ?_
    leads := fun _ => ?_
    stands := fun hc => absurd (hl.symm.trans hc) (by simp)
    commits := fun hstrict => ?_
    stored := fun hcomp snapshot hload => ?_ }, ?_⟩
  · rw [State.append_log_self]
    exact h.log.append (by rw [he]) rfl rfl rfl
  · refine ⟨hleads.leader, ?_, ?_, fun hh p => (hleads.matched hh p).trans ?_⟩
    · exact (State.append_log_self A n entry).trans (State.append_llog_self A n entry).symm
    · exact ((congrArg List.length (State.append_log_self A n entry)).trans
        (State.append_acked_self A n entry).symm).le
    · exact hm.frame.acked_le _ _
  · have hcom := h.commits hstrict
    refine ⟨hcom.applied, hcom.snapshot_le, ?_, ?_⟩
    · rw [State.append_log_self, List.length_append]
      exact hcom.commit_le.trans (Nat.le_add_right _ _)
    · rw [State.append_log_self, List.take_append_of_le_length hcom.commit_le]
      exact hcom.committed.frame hm.frame
  · obtain ⟨-, hdur⟩ := hst hcomp
    exact h.stored hcomp snapshot (hs.loadSnapshot.symm.trans hload)
  · show entry.index ≤ ((A.append n entry).llog core.currentTerm).length
    rw [h.term_eq, State.append_llog_self, List.length_append, List.length_singleton, he,
      h.log.lastLogIndex]

omit [Snapshotable μ] in
/-- The peers that are recorded to have an entry, and the leader itself. -/
theorem quorum_of_count (h : NodeRel S A n core) (hn : n ∈ S.nodes) (hh : S.honest)
    (hleads : Leads S A n core) {i : ℕ} (hi : i ≤ (A.log n).length)
    (hmaj : (1 + core.peers.length) / 2 + 1 ≤ core.replicatedCount i) :
    ∃ Q, S.quorums.IsQuorum Q ∧ ∀ v ∈ Q, i ≤ A.acked v (A.term n) := by
  let P := core.peers.toFinset.filter fun p => i ≤ core.matchIndex.getD p 0
  have hnot : n ∉ P := by
    intro hmem
    exact (h.mem_peers.1 (List.mem_toFinset.1 (Finset.mem_filter.1 hmem).1)).2 rfl
  refine ⟨insert n P, QuorumSystem.majority_iff.2 ⟨?_, ?_⟩, ?_⟩
  · refine Finset.insert_subset (List.mem_toFinset.2 hn) fun p hp => ?_
    exact List.mem_toFinset.2 (h.mem_peers.1 (List.mem_toFinset.1 (Finset.mem_filter.1 hp).1)).1
  · -- the map has each of its keys once, and they are peers
    have hcount : (core.matchIndex.entries.countP fun e => e.2 ≥ i) ≤ P.card := by
      rw [List.countP_eq_length_filter, ← List.length_map Sigma.fst]
      have hnodup : ((core.matchIndex.entries.filter fun e => e.2 ≥ i).map Sigma.fst).Nodup :=
        (List.filter_sublist.map _).nodup core.matchIndex.nodupKeys
      rw [← List.toFinset_card_of_nodup hnodup]
      refine Finset.card_le_card fun p hp => ?_
      obtain ⟨⟨q, j⟩, hmem, rfl⟩ := List.mem_map.1 (List.mem_toFinset.1 hp)
      obtain ⟨hmem, hj⟩ := List.mem_filter.1 hmem
      have hlookup : core.matchIndex.lookup q = some j := AList.mem_lookup_iff.2 hmem
      have hkey : q ∈ core.matchIndex := by
        rw [← AList.lookup_isSome, hlookup]
        rfl
      refine Finset.mem_filter.2 ⟨List.mem_toFinset.2 (h.keys q hkey), ?_⟩
      rw [IndexMap.getD, hlookup]
      exact of_decide_eq_true hj
    rw [Finset.card_insert_of_notMem hnot, h.card_nodes hn]
    have : core.replicatedCount i =
        1 + core.matchIndex.entries.countP fun e => e.2 ≥ i := rfl
    omega
  · intro v hv
    rcases Finset.mem_insert.1 hv with rfl | hv
    · exact hi.trans hleads.self
    · exact (Finset.mem_filter.1 hv).2.trans (hleads.matched hh v)

omit [Snapshotable μ] in
/-- **The commit rule**: an entry of the leader's own term that is recorded on a majority is
committed. -/
theorem committed (h : NodeRel S A n core) (hA : S.Reachable A) (hn : n ∈ S.nodes)
    (hh : S.honest) (hl : core.state = .leader) {i : ℕ} (hpos : 0 < i)
    (hterm : (core.getLogEntry i).map LogEntry.term = some core.currentTerm)
    (hmaj : (1 + core.peers.length) / 2 + 1 ≤ core.replicatedCount i) :
    i ≤ (A.log n).length ∧ Committed S.quorums A (A.term n) i := by
  have hleads := h.leads hl
  obtain ⟨e, he, ht⟩ := Option.map_eq_some_iff.1 hterm
  obtain ⟨-, he⟩ := h.log.getLogEntry_iff.1 he
  obtain ⟨hlt, hget⟩ := List.getElem?_eq_some_iff.1 he
  have hi : i ≤ (A.log n).length := by omega
  have htake : (A.log n).take (i - 1) ++ [e] = (A.log n).take i := by
    rw [← hget, ← List.take_succ_eq_append_getElem hlt, Nat.sub_add_cancel hpos]
  have hown : (A.elog (A.term n)).length < i := by
    have hpre : (A.log n).take (i - 1) ++ [e] <+: A.llog (A.term n) := by
      rw [htake, ← hleads.log]
      exact List.take_prefix _ _
    have := ((Setting.inv hA).length_elog_lt_iff hleads.leader hpre).2 (ht.trans h.term_eq)
    rwa [htake, List.length_take, min_eq_left hi] at this
  exact ⟨hi, ⟨n, hleads.leader⟩, hown, hleads.log ▸ hi, h.quorum_of_count hn hh hleads hi hmaj⟩

omit [Snapshotable μ] in
/-- Recording an acknowledgement. -/
theorem recordAppendResult (h : NodeRel S A n core) {target : ℕ} (htarget : target ∈ core.peers)
    {entryIndex : ℕ} {result : AppendEntriesResult}
    (hack : S.honest → core.state = .leader → result.success = true →
      entryIndex ≤ A.acked target (A.term n)) :
    NodeRel S A n (core.recordAppendResult target entryIndex result) := by
  obtain ⟨next, map, heq, hmap, hnext⟩ :=
    RaftCore.recordAppendResult_eq core target entryIndex result
  rw [heq]
  refine { h with
    log := h.log.congr rfl rfl rfl
    next_pos := fun p => ?_
    keys := fun p hp => ?_
    leads := fun hl => ?_
    stands := fun hc => (h.stands hc).congr rfl
    commits := fun hs => (h.commits hs).congr rfl rfl rfl }
  · rcases hnext with rfl | ⟨i, hi, rfl⟩
    · exact h.next_pos p
    · by_cases hp : p = target
      · subst hp
        exact hi.trans (IndexMap.getD_insert_self _ _ _ _).ge
      · exact (h.next_pos p).trans (IndexMap.getD_insert_ne hp _ _ _).ge
  · rcases hmap with rfl | ⟨-, -, rfl⟩
    · exact h.keys p hp
    · rcases (AList.mem_insert _).1 hp with rfl | hp
      · exact htarget
      · exact h.keys p hp
  · have hleads := h.leads hl
    refine ⟨hleads.leader, hleads.log, hleads.self, fun hh p => ?_⟩
    rcases hmap with rfl | ⟨hs, -, rfl⟩
    · exact hleads.matched hh p
    · by_cases hp : p = target
      · subst hp
        rw [IndexMap.getD_insert_self]
        exact hack hh hl hs
      · rw [IndexMap.getD_insert_ne hp]
        exact hleads.matched hh p

/-- **An AppendEntries result**: what the leader commits is committed. -/
theorem handleAppendEntriesResult (h : NodeRel S A n core) (hA : S.Reachable A)
    (hst : S.Stores σ) (hn : n ∈ S.nodes) {target : ℕ} (htarget : target ∈ core.peers)
    {entryIndex : ℕ} {result : AppendEntriesResult} {commit : Option ℕ}
    {results : List (ℕ × ApplyResult)}
    (hack : S.honest → core.state = .leader → result.success = true →
      entryIndex ≤ A.acked target (A.term n))
    (hr : core.handleAppendEntriesResult target entryIndex result =
      .ok (core', commit, results)) :
    ∃ A', S.Moves n A A' ∧ NodeRel S A' n core' ∧ ∀ i, commit = some i → S.honest →
      core.state = .leader ∧ A' = A ∧ i ≤ (A.log n).length ∧
        Committed S.quorums A (A.term n) i := by
  obtain ⟨core₁, h₁, ⟨-, rfl, rfl, -⟩ | ⟨hl, core₂, hcore₂, hor⟩⟩ :=
    RaftCore.handleAppendEntriesResult_ok hr
  · obtain ⟨A', hm, hn'⟩ := h.observeTerm hA hst h₁
    exact ⟨A', hm, hn', by simp⟩
  obtain rfl := RaftCore.eq_of_observeTerm h₁ (by rw [hl]; simp)
  have hn₂ : NodeRel S A n core₂ := hcore₂ ▸ h.recordAppendResult htarget hack
  have hl₂ : core₂.state = .leader := by
    obtain ⟨next, map, heq, -⟩ := RaftCore.recordAppendResult_eq core₁ target entryIndex result
    rw [hcore₂, heq]
    exact hl
  refine ⟨A, .refl n A, ?_⟩
  rcases hor with ⟨rfl, rfl, -⟩ | ⟨hpos, hterm, hmaj, hgt, rfl, happly⟩
  · exact ⟨hn₂, by simp⟩
  · refine ⟨hn₂.commit hst (fun hs => ?_) happly, fun i hi hh => ?_⟩
    · obtain ⟨hi, hcom⟩ := hn₂.committed hA hn (S.honest_of_strict hs) hl₂ hpos hterm hmaj
      refine ⟨hgt.le, hi, Or.inr ⟨_, _, le_rfl, hcom, ?_⟩⟩
      rw [(hn₂.leads hl₂).log]
    · obtain rfl := Option.some.inj hi
      exact ⟨hl, rfl, hn₂.committed hA hn hh hl₂ hpos hterm hmaj⟩

omit [Snapshotable μ] in
/-- An InstallSnapshot result. -/
theorem handleInstallSnapshotResult (h : NodeRel S A n core) (hA : S.Reachable A) {target : ℕ}
    (htarget : target ∈ core.peers) {i : ℕ} {result : InstallSnapshotResult}
    (hack : core.state = .leader → ∀ t, result = .success t → i ≤ A.acked target (A.term n)) :
    ∃ A', S.Moves n A A' ∧
      NodeRel S A' n (core.handleInstallSnapshotResult target i result) := by
  cases result with
  | success t =>
      refine ⟨A, .refl n A, { h with
        log := h.log.congr rfl rfl rfl
        next_pos := fun p => ?_
        keys := fun p hp => ?_
        leads := fun hl => ?_
        stands := fun hc => (h.stands hc).congr rfl
        commits := fun hs => (h.commits hs).congr rfl rfl rfl }⟩
      · rw [(RaftCore.handleInstallSnapshotResult_getD ..).1]
        split
        · exact Nat.le_add_left 1 _
        · exact h.next_pos p
      · rcases (AList.mem_insert _).1 hp with rfl | hp
        · exact htarget
        · exact h.keys p hp
      · have hleads := h.leads hl
        refine ⟨hleads.leader, hleads.log, hleads.self, fun hh p => ?_⟩
        rw [(RaftCore.handleInstallSnapshotResult_getD ..).2]
        split
        · rename_i hp
          subst hp
          exact hack hl t rfl
        · exact hleads.matched hh p
  | failed t reason =>
      simp only [RaftCore.handleInstallSnapshotResult]
      split
      · rename_i hlt
        exact h.stepDownInMemory hA hlt
      · exact ⟨A, .refl n A, h⟩

end NodeRel

end RaftVibe
