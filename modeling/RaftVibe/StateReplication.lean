/-
**All nodes apply one history.**

What leaders commit, along a run, is one growing list of commands `H`.  Whatever happens to a node —
it applies its log, takes a snapshot, installs one of another node, crashes and comes back — its
state machine is the fold of the first `last_applied` commands of `H`.  The single-node result needs
the surroundings to provide such a list; here the cluster is the surroundings, and the list comes
from the replicated log.

Main definitions:

* `RaftVibe.Decided` — a list of commands is committed;
* `RaftVibe.Replicates` — all nodes, and all snapshots on their way, agree with the history.

Main results:

* `RaftVibe.NodeRel.commitsAlong_of_announced` — a follower commits along what the leader announced;
* `RaftVibe.Replicates.stepOrRestart` — **one step** extends the history, and keeps the agreement;
* `RaftVibe.Cluster.run_replicated` — **one history for the whole run**;
* `RaftVibe.Cluster.run_never_panics` — every request can be handled, and every node loaded again;
* `RaftVibe.Cluster.run_restart_lossless` — a restart loses nothing durable.
-/

import RaftVibe.CrashRecovery
import RaftVibe.Restarts

set_option relaxedAutoImplicit false
set_option autoImplicit false

namespace RaftVibe

open ReplicatedLog Runs

variable {σ μ : Type} [Storage σ] {S : Setting} {A A' : State ℕ LogEntry}
  {C C' : Cluster σ μ} {n : ℕ} {H H' : List String}

/-! ### The history grows -/

section History

/-- The first `n` commands of a history stay the same when it grows. -/
theorem take_of_grown {n : ℕ} (h : H <+: H') (hn : n ≤ H.length) : H'.take n = H.take n := by
  obtain ⟨r, rfl⟩ := h
  exact List.take_append_of_le_length hn

/-- So do the commands that are in it. -/
theorem getElem?_of_grown {n : ℕ} {c : String} (h : H <+: H') (hc : H[n]? = some c) :
    H'[n]? = some c := by
  obtain ⟨r, rfl⟩ := h
  rw [List.getElem?_append_left (List.getElem?_eq_some_iff.1 hc).1, hc]

namespace RaftCore

variable {core : RaftCore σ μ} {log : List LogEntry} {k m : ℕ}

omit [Storage σ] in
theorem CommitsAlong.mono (h : CommitsAlong H log k m) (hH : H <+: H') :
    CommitsAlong H' log k m :=
  fun e he hlt hle => getElem?_of_grown hH (h e he hlt hle)

/-- Nothing is committed when the commit index stays. -/
theorem CommitsAlong.of_le (h : m ≤ k) : CommitsAlong H log k m :=
  fun _ _ hlt hle => absurd (hlt.trans_le (hle.trans h)) (lt_irrefl _)

variable [Snapshotable μ] {m₀ : μ}

omit [Storage σ] in
theorem Covers.mono {snapshot : Option Snapshot} (h : Covers m₀ H k snapshot) (hk : k ≤ H.length)
    (hH : H <+: H') : Covers m₀ H' k snapshot := by
  cases snapshot with
  | none => exact h
  | some s => exact ⟨h.1, by rw [take_of_grown hH hk, h.2]⟩

/-- A node that agrees with a history agrees with every longer one. -/
theorem Folded.mono (h : core.Folded m₀ H) (hH : H <+: H') : core.Folded m₀ H' where
  wellFormed := h.wellFormed
  applied_eq := h.applied_eq
  within := h.within.trans hH.length_le
  stateMachine := by rw [take_of_grown hH h.within, h.stateMachine]
  stored := by
    obtain ⟨snapshot, hst, hcov⟩ := h.stored
    exact ⟨snapshot, hst, hcov.mono (h.wellFormed.snapshot_le.trans h.within) hH⟩

end RaftCore

/-- The commands are those of a committed log. -/
def Decided (S : Setting) (A : State ℕ LogEntry) (H : List String) : Prop :=
  ∃ T ℓ, CommittedBy S.quorums A T ℓ ∧ ℓ.map LogEntry.command = H

theorem Decided.nil : Decided S A [] := ⟨0, [], Or.inl rfl, rfl⟩

theorem Decided.frame (h : Decided S A H) (hf : Frame n A A') : Decided S A' H := by
  obtain ⟨T, ℓ, hℓ, hH⟩ := h
  exact ⟨T, ℓ, hℓ.frame hf, hH⟩

/-- Of two committed histories one continues the other. -/
theorem Decided.comparable (h : Decided S A H) (h' : Decided S A H') (hA : S.Reachable A)
    (hh : S.honest) : H <+: H' ∨ H' <+: H := by
  obtain ⟨T, ℓ, hℓ, rfl⟩ := h
  obtain ⟨T', ℓ', hℓ', rfl⟩ := h'
  rcases (Setting.kept hA hh).committed_comparable (Setting.inv hA) hℓ hℓ' with hpre | hpre
  · exact Or.inl (hpre.map _)
  · exact Or.inr (hpre.map _)

end History

/-! ### What is committed in a step -/

section Committing

variable [Snapshotable μ] {core core' : RaftCore σ μ} {source : ℕ}

omit [Snapshotable μ] in
/-- An entry of the vector is the one of the log at its index. -/
theorem NodeRel.getElem?_of_mem (h : NodeRel S A n core) {e : LogEntry} (he : e ∈ core.log) :
    0 < e.index ∧ (A.log n)[e.index - 1]? = some e := by
  rw [h.log.log_eq] at he
  obtain ⟨hpos, -, hget⟩ := h.log.indexed.mem (List.mem_of_mem_drop he)
  exact ⟨hpos, hget⟩

/-- **A follower commits along what the leader announced**: every entry over which its commit index
rises is the one that the leader has committed there. -/
theorem NodeRel.commitsAlong_of_announced (h : NodeRel S A n core) (hA : S.Reachable A)
    (hst : S.Stores σ) (hh : S.honest) {args : AppendEntriesArgs} (hr : AppendRel S A source args)
    (hne : source ≠ n) (hcut : S.compacting → ¬ core.CutsAboveSnapshot args)
    (hcheck : ¬ core.CommitsUnchecked args) {ℓ : List LogEntry} (hℓ : ℓ <+: A.llog args.term)
    (hlen : ℓ.length = args.leaderCommit) {out : HandleAppendEntriesOutput}
    (ha : core.handleAppendEntries args = .ok (core', out)) :
    RaftCore.CommitsAlong (ℓ.map LogEntry.command)
      (RaftVibe.takeOver core.snapshotLastIndex core.log args.entries)
      core.commitIndex core'.commitIndex := by
  obtain ⟨core₁, h₁, hor⟩ := RaftCore.handleAppendEntries_ok ha
  obtain ⟨A₁, hm₁, hn₁⟩ := h.observeTerm hA hst h₁
  obtain ⟨hl, hs, -, hci⟩ := RaftCore.observeTerm_log h₁
  rcases hor with ⟨-, rfl, -, -⟩ | ⟨hterm, core₂, hcore₂, ⟨rfl, -, -⟩ | ⟨hp, hacc, -, -⟩⟩
  · exact .of_le hci.le
  · exact .of_le (by rw [hcore₂]; exact hci.le)
  have hobserved : core.currentTerm ≤ args.term := by
    have := RaftCore.observeTerm_currentTerm h₁
    omega
  have hn₂ : NodeRel S A₁ n core₂ := by
    subst hcore₂
    exact { hn₁ with
      log := hn₁.log.congr rfl rfl rfl
      leads := fun hl => absurd hl (by simp)
      stands := fun hc => absurd hc (by simp)
      commits := fun hs => (hn₁.commits hs).congr rfl rfl rfl }
  have hcut₂ : S.compacting → ¬ core₂.CutsAboveSnapshot args := by
    rintro hc ⟨hpos, -, hp, e, he, hconf⟩
    subst hcore₂
    rcases RaftCore.observeTerm_ok h₁ with ⟨-, rfl⟩ | ⟨-, s, -, rfl⟩ <;>
      exact hcut hc ⟨hpos, hobserved, hp, e, he, hconf⟩
  have hcheck₂ : ¬ core₂.CommitsUnchecked args := by
    rintro ⟨-, hp, hno, hlt⟩
    subst hcore₂
    rcases RaftCore.observeTerm_ok h₁ with ⟨-, rfl⟩ | ⟨-, s, -, rfl⟩ <;>
      exact hcheck ⟨hobserved, hp, hno, hlt⟩
  have hterm₂ : core₂.currentTerm = args.term := by rw [hcore₂]; exact hterm
  have hfol : core₂.state = .follower := by rw [hcore₂]
  obtain ⟨storage, core₃, hsaved, hcore₃, hor⟩ := RaftCore.acceptEntries_ok hacc
  obtain ⟨A₂, s, hm₂, hcar, -, hlog, -, hn₃⟩ := hn₂.takeOver (hm₁.reachable hA) hst hfol
    (hr.frame hm₁.frame) hne hterm₂ hp hcut₂ hsaved
  rw [← hcore₃] at hn₃
  have hci₂ : core₂.commitIndex = core.commitIndex := by rw [hcore₂]; exact hci
  have hci₃ : core₃.commitIndex = core.commitIndex := by rw [hcore₃]; exact hci₂
  rcases hor with ⟨-, rfl⟩ | ⟨-, results, happly⟩
  · exact .of_le hci₃.le
  obtain ⟨_, _, _, _, _, _, rfl⟩ := RaftCore.applyCommittedEntries_eq happly
  intro e he hlt hle
  have hmem : e ∈ core₃.log := by
    rw [hcore₃, hcore₂]
    simpa only [hl, hs] using he
  obtain ⟨hpos, hget⟩ := hn₃.getElem?_of_mem hmem
  obtain ⟨hle, hle'⟩ := le_min_iff.1 hle
  rw [hn₃.log.lastLogIndex, hlog] at hle'
  -- the entry has been compared, or comes with the request
  have hreach : e.index ≤ s.length := by
    rcases merge_eq_or (A₁.log n) s with heq | heq
    · have hpre : s <+: A₁.log n := heq ▸ prefix_merge _ _
      have hno : ∀ x ∈ args.entries, ¬ Conflicts core₂.snapshotLastIndex core₂.log x := by
        intro x hx
        rw [hcar.entries] at hx
        exact not_conflicts_of_prefix hn₂.log hcar.indexed hpre (List.mem_of_mem_drop hx)
      have hmin : min args.leaderCommit core₂.lastLogIndex ≤
          max core₂.commitIndex (args.prevLogIndex + args.entries.length) := by
        by_contra hgt
        exact hcheck₂ ⟨hterm₂.le, hp, hno, not_le.1 hgt⟩
      rw [hn₂.log.lastLogIndex, ← hcar.length, hci₂] at hmin
      rw [heq] at hle'
      omega
    · rwa [heq] at hle'
  have hs : s[e.index - 1]? = some e := by
    obtain ⟨r, hr⟩ : s <+: A₂.log n := by
      rw [hlog]
      exact prefix_merge _ _
    rwa [← hr, List.getElem?_append_left (by omega)] at hget
  -- both are prefixes of the log of the leader
  obtain ⟨r, hr₁⟩ : ℓ <+: A₁.llog args.term := hℓ.trans (hm₁.frame.llog (hr.leader hh))
  obtain ⟨r', hr₂⟩ := hcar.own hh
  have hsame : ℓ[e.index - 1]? = some e := by
    have happend : (ℓ ++ r)[e.index - 1]? = ℓ[e.index - 1]? :=
      List.getElem?_append_left (by omega)
    rw [← happend, hr₁, ← hr₂, List.getElem?_append_left (by omega), hs]
  rw [List.getElem?_map, hsame, Option.map_some]

/-- A request that is refused commits nothing. -/
theorem RaftCore.handleAppendEntries_commitIndex_of_refused {args : AppendEntriesArgs}
    (hno : ¬ (core.currentTerm ≤ args.term ∧ core.PrevMatches args.prevLogIndex args.prevLogTerm))
    {out : HandleAppendEntriesOutput} (ha : core.handleAppendEntries args = .ok (core', out)) :
    core'.commitIndex = core.commitIndex := by
  obtain ⟨core₁, h₁, hor⟩ := RaftCore.handleAppendEntries_ok ha
  obtain ⟨hl, hs, hsterm, hci⟩ := RaftCore.observeTerm_log h₁
  rcases hor with ⟨-, rfl, -, -⟩ | ⟨hterm, core₂, rfl, ⟨rfl, -, -⟩ | ⟨hp, -⟩⟩
  · exact hci
  · exact hci
  · refine absurd ⟨?_, (RaftCore.prevMatches_congr hl hs hsterm).1 hp⟩ hno
    have := RaftCore.observeTerm_currentTerm h₁
    omega

omit [Storage σ] in
/-- The event loop makes no call of the handlers for entries and snapshots. -/
theorem Server.call_local {s : Server σ μ} {action : LocalAction} {op : Op}
    (hcall : s.call action = some op) :
    (∀ args, op ≠ .appendEntries args) ∧ ∀ args, op ≠ .installSnapshot args := by
  cases action with
  | submit command =>
      simp only [Server.call] at hcall
      split at hcall
      · obtain rfl := Option.some.inj hcall
        simp
      · cases hcall
  | startElection =>
      simp only [Server.call] at hcall
      split at hcall
      · split at hcall
        · cases hcall
        · obtain rfl := Option.some.inj hcall
          simp
      · cases hcall
  | answer envelope reply =>
      simp only [Server.call] at hcall
      split at hcall
      · obtain rfl := Option.some.inj hcall
        simp
      · obtain rfl := Option.some.inj hcall
        simp
      · split at hcall
        · obtain rfl := Option.some.inj hcall
          simp
        · cases hcall
      · split at hcall
        · obtain rfl := Option.some.inj hcall
          simp
        · cases hcall
      · obtain rfl := Option.some.inj hcall
        simp
      · cases hcall
  | _ => cases hcall

omit [Storage σ] in
/-- It commits in the vector that the node has. -/
theorem Server.committing_of_call {s : Server σ μ} {action : LocalAction} {op : Op}
    (hcall : s.call action = some op) : op.committing s.core = s.core.log := by
  obtain ⟨hop, -⟩ := Server.call_local hcall
  cases op with
  | appendEntries args => exact absurd rfl (hop args)
  | _ => rfl

omit [Storage σ] in
/-- A snapshot is installed on a request only. -/
theorem Cluster.call_installSnapshot {action : Action} {args : InstallSnapshotArgs}
    (hcall : C.call action = some (.installSnapshot args)) :
    ∃ envelope, action = .deliver envelope ∧ envelope.request = .installSnapshot args := by
  cases action with
  | deliver envelope =>
      refine ⟨envelope, rfl, ?_⟩
      have hop := Option.some.inj hcall
      cases hreq : envelope.request <;> rw [hreq] at hop <;> cases hop
      rfl
  | «local» n action => exact absurd rfl ((Server.call_local hcall).2 args)

/-- Who commits by itself is a leader. -/
theorem Acts.leader_of_commit {s : Server σ μ} {now : ℕ} {action : LocalAction} {e : Effect σ μ}
    (ha : Acts s now action e) (hlt : s.core.commitIndex < e.server.core.commitIndex) :
    s.core.state = .leader := by
  rcases ha.commit_cases with heq | ⟨_, _, _, _, _, -, hr, -⟩
  · exact absurd hlt (heq ▸ lt_irrefl _)
  · rcases RaftCore.handleAppendEntriesResult_commit hr with ⟨heq, -⟩ | ⟨hl, -⟩
    · exact absurd hlt (heq ▸ lt_irrefl _)
    · exact hl

/-- **What a node commits in a step is decided**: by the leader that announced it, or by the node
itself, as a leader with a majority. -/
theorem Sim.commitsAlong (h : Sim S C A) (hst : S.Stores σ) (hstrict : S.strict) {action : Action}
    (hallow : S.Allows C action) (hs : C.step action = some C') {op : Op}
    (hcall : C.call action = some op) (hop : ∀ args, op ≠ .installSnapshot args) :
    ∃ H, Decided S A H ∧ RaftCore.CommitsAlong H (op.committing (C.core action.node))
      (C.core action.node).commitIndex (C'.core action.node).commitIndex := by
  have hh := S.honest_of_strict hstrict
  cases action with
  | deliver envelope =>
      obtain ⟨hmem, core, reply, hrec, rfl⟩ := Cluster.step_deliver hs
      have hrel := h.request envelope hmem
      have hnode := h.node _ hrel.target
      obtain rfl := Option.some.inj hcall
      simp only [Action.node, Cluster.core, C.receive_servers_self]
      obtain ⟨source, target, round, request⟩ := envelope
      rcases Server.receive_ok hrec with
        ⟨args, result, rfl, -, hv⟩ | ⟨args, out, rfl, -, ha⟩ | ⟨args, result, rfl, -, -⟩
      · exact ⟨[], .nil, .of_le (RaftCore.handleRequestVote_commitIndex hv).le⟩
      · have hr : AppendRel S A source args := hrel.request
        obtain ⟨hcut, hcheck⟩ : (S.compacting → ¬ (C.core target).CutsAboveSnapshot args) ∧
          (S.strict → ¬ (C.core target).CommitsUnchecked args) := hallow
        obtain ⟨ℓ, hℓ, hlen, hcom⟩ := hr.announces hstrict
        refine ⟨_, ⟨_, ℓ, hcom, rfl⟩, ?_⟩
        have hheeded : ∀ args', args' = (C.core target).heeded args → RaftCore.CommitsAlong
            (ℓ.map LogEntry.command) (RaftVibe.takeOver (C.core target).snapshotLastIndex
              (C.core target).log args'.entries) (C.core target).commitIndex core.commitIndex := by
          rintro args' rfl
          unfold RaftCore.heeded
          split
          · exact hnode.commitsAlong_of_announced h.reachable hst hh hr hrel.ne hcut
              (hcheck hstrict) hℓ hlen ha
          · rename_i hno
            exact .of_le (RaftCore.handleAppendEntries_commitIndex_of_refused hno ha).le
        exact hheeded _ rfl
      · exact absurd rfl (hop args)
  | «local» n action =>
      rcases Nat.lt_or_ge (C.core n).commitIndex (C'.core n).commitIndex with hlt | hge
      · obtain ⟨-, -, hcom⟩ := h.commits_of_answer hst hh hs hlt
        obtain ⟨hn, -, e, ha, hC'⟩ := Cluster.step_local hs
        rw [h.nodes] at hn
        have hself : C'.core n = e.server.core := by
          rw [hC', Cluster.core, C.perform_servers_self]
        rw [hself] at hlt
        have hl := ha.leader_of_commit hlt
        have hnode := h.node n hn
        have hlog : op.committing (C.core n) = (C.core n).log := Server.committing_of_call hcall
        refine ⟨_, ⟨_, _, Or.inr ⟨_, _, le_rfl, hcom, List.prefix_rfl⟩, rfl⟩, ?_⟩
        show RaftCore.CommitsAlong _ (op.committing (C.core n)) _ (C'.core n).commitIndex
        rw [hlog]
        intro x hx _ hle
        obtain ⟨hpos, hget⟩ := hnode.getElem?_of_mem hx
        rw [(hnode.leads hl).log] at hget
        rw [List.getElem?_map, List.getElem?_take_of_lt (by omega), hget, Option.map_some]
      · exact ⟨[], .nil, .of_le hge⟩

end Committing

/-! ### The invariant -/

section Invariant

variable [Snapshotable μ] {m₀ : μ} {core core' : RaftCore σ μ} {op : Op}

/-- The request carries a snapshot of the fold of the history. -/
def InstallSnapshotArgs.OfFold (m₀ : μ) (H : List String) (args : InstallSnapshotArgs) : Prop :=
  args.lastIncludedIndex ≤ H.length ∧
    Snapshotable.snapshot (foldCommands m₀ (H.take args.lastIncludedIndex)) = .ok args.data

omit [Storage σ] in
theorem InstallSnapshotArgs.OfFold.mono {args : InstallSnapshotArgs} (h : args.OfFold m₀ H)
    (hH : H <+: H') : args.OfFold m₀ H' :=
  ⟨h.1.trans hH.length_le, by rw [take_of_grown hH h.1, h.2]⟩

/-- **Every node agrees with the history**, and so does every snapshot on its way. -/
structure Replicates (S : Setting) (m₀ : μ) (H : List String) (C : Cluster σ μ)
    (A : State ℕ LogEntry) : Prop where
  decided : Decided S A H
  folded : ∀ n ∈ S.nodes, (C.core n).Folded m₀ H
  carried : ∀ envelope ∈ C.requests, ∀ args, envelope.request = .installSnapshot args →
    args.OfFold m₀ H

/-- A request to install a snapshot that ends below what its target has applied. -/
def Cluster.RollsBack (C : Cluster σ μ) : Action → Prop
  | .deliver envelope =>
      match envelope.request with
      | .installSnapshot args => (C.core envelope.target).RollsBack args
      | _ => False
  | .local _ _ => False

instance (C : Cluster σ μ) : (action : Action) → Decidable (C.RollsBack action)
  | .deliver ⟨_, target, _, .installSnapshot args⟩ =>
      inferInstanceAs (Decidable ((C.core target).RollsBack args))
  | .deliver ⟨_, _, _, .requestVote _⟩ => instDecidableFalse
  | .deliver ⟨_, _, _, .appendEntries _⟩ => instDecidableFalse
  | .local _ _ => instDecidableFalse

omit [Storage σ] in
/-- What the surroundings have to promise for a call. -/
theorem Replica.along_of_call
    (hinstall : ∀ args, op = .installSnapshot args → args.OfFold m₀ H)
    (hcommit : (∀ args, op ≠ .installSnapshot args) →
      RaftCore.CommitsAlong H (op.committing core) core.commitIndex core'.commitIndex) :
    Replica.Along m₀ H ⟨core, .call op, core'⟩ := by
  cases op with
  | installSnapshot args => exact hinstall args rfl
  | _ => exact hcommit (by simp)

omit [Storage σ] [Snapshotable μ] in
/-- When a call does not go wrong. -/
theorem Replica.not_goesWrong_of_call
    (hroll : ∀ args, op = .installSnapshot args → ¬ core.RollsBack args)
    (hcut : ¬ op.CutsAboveSnapshot core) : ¬ Replica.GoesWrong core (.call op) := by
  cases op with
  | installSnapshot args => exact hroll args rfl
  | _ => exact hcut

/-- A snapshot that is sent is the stored one. -/
theorem Acts.sent_snapshot {s : Server σ μ} {now : ℕ} {action : LocalAction} {e : Effect σ μ}
    (ha : Acts s now action e) {envelope : Envelope} (he : envelope ∈ e.sent)
    {args : InstallSnapshotArgs} (hreq : envelope.request = .installSnapshot args) :
    ∃ snapshot, Storage.loadSnapshot s.core.storage = .ok (some snapshot) ∧
      args.lastIncludedIndex = snapshot.metadata.lastIncludedIndex ∧ args.data = snapshot.data := by
  obtain ⟨-, -, -, -, hor⟩ := ha.sent_cases he
  rw [hreq] at hor
  rcases hor with ⟨command, i, -, heq⟩ | ⟨-, heq⟩ | ⟨-, heq⟩ | ⟨-, heq⟩
  · exact absurd heq (by simp)
  · exact absurd heq (by simp)
  · simp only [RaftCore.heartbeatRequest] at heq
    split at heq
    · split at heq
      · rename_i snapshot hload
        obtain rfl := Request.installSnapshot.inj (Option.some.inj heq)
        exact ⟨snapshot, hload, rfl, rfl⟩
      · cases heq
    · cases heq
  · exact absurd heq (by simp)

/-- The stored snapshot of a node that agrees with the history is one of the fold. -/
theorem RaftCore.Folded.ofFold (h : core.Folded m₀ H) {snapshot : Snapshot}
    (hload : Storage.loadSnapshot core.storage = .ok (some snapshot)) {args : InstallSnapshotArgs}
    (hidx : args.lastIncludedIndex = snapshot.metadata.lastIncludedIndex)
    (hdata : args.data = snapshot.data) : args.OfFold m₀ H := by
  obtain ⟨stored, ⟨c, ⟨-, -, -, hsnap⟩, -, rfl⟩, hcov⟩ := h.stored
  obtain hc : c.snapshot = some snapshot := Except.ok.inj (hsnap.symm.trans hload)
  rw [hc] at hcov
  obtain ⟨heq, hfold⟩ := hcov
  rw [InstallSnapshotArgs.OfFold, hidx, hdata, heq]
  exact ⟨h.wellFormed.snapshot_le.trans h.within, hfold⟩

/-- **The history that a step needs**: it continues the old one, and the node whose turn it is commits
along it. -/
theorem Replicates.exists_history (hrep : Replicates S m₀ H C A) (h : Sim S C A)
    (hst : S.Stores σ) (hstrict : S.strict) {action : Action} (hallow : S.Allows C action)
    (hs : C.step action = some C') :
    ∃ H', H <+: H' ∧ Decided S A H' ∧ ∀ op, C.call action = some op →
      (∀ args, op ≠ .installSnapshot args) → RaftCore.CommitsAlong H'
        (op.committing (C.core action.node)) (C.core action.node).commitIndex
          (C'.core action.node).commitIndex := by
  by_cases hnew : ∃ op, C.call action = some op ∧ ∀ args, op ≠ .installSnapshot args
  · obtain ⟨op, hcall, hop⟩ := hnew
    obtain ⟨H₁, hdec, halong⟩ := h.commitsAlong hst hstrict hallow hs hcall hop
    have hop' : ∀ op', C.call action = some op' → op' = op := fun op' h' =>
      Option.some.inj (h'.symm.trans hcall)
    rcases hrep.decided.comparable hdec h.reachable (S.honest_of_strict hstrict) with hpre | hpre
    · refine ⟨H₁, hpre, hdec, fun op' h' _ => ?_⟩
      rw [hop' op' h']
      exact halong
    · refine ⟨H, List.prefix_rfl, hrep.decided, fun op' h' _ => ?_⟩
      rw [hop' op' h']
      exact halong.mono hpre
  · exact ⟨H, List.prefix_rfl, hrep.decided, fun op hcall hop => absurd ⟨op, hcall, hop⟩ hnew⟩

variable [LawfulStorage σ] [LawfulSnapshotable μ]

/-- **One step of the cluster** extends the history, and every node still agrees with it. -/
theorem Replicates.step (hrep : Replicates S m₀ H C A) (h : Follows S C A) (hst : S.Stores σ)
    (hstrict : S.strict) {action : Action} (hallow : S.Allows C action) (hdiv : ¬ C.Diverges action)
    (hroll : ¬ C.RollsBack action) (hs : C.step action = some C') (hf : Frame n A A') :
    ∃ H', H <+: H' ∧ Replicates S m₀ H' C' A' := by
  obtain ⟨H', hH, hdec, hcommit⟩ := hrep.exists_history h.sim hst hstrict hallow hs
  obtain ⟨hafter, hothers⟩ := Cluster.step_after hs
  refine ⟨H', hH, hdec.frame hf, fun m hm => ?_, fun envelope he args hreq => ?_⟩
  · by_cases hmn : m = action.node
    · subst hmn
      have hfold := (hrep.folded _ hm).mono hH
      cases hcall : C.call action with
      | none =>
          rw [hcall] at hafter
          exact (show C'.core action.node = C.core action.node from hafter) ▸ hfold
      | some op =>
          rw [hcall] at hafter
          have hfair := (h.sim.fair hstrict h.inLog (Cluster.offers_of_step hs) hdiv hcall).2
          have hexp : Replica.Expected (C.core action.node) (.call op) := hfair.expected
          refine Replica.step_folded hfold hexp
            (Replica.along_of_call (fun args hop => ?_) (hcommit op hcall))
            (Replica.not_goesWrong_of_call (fun args hop hback => ?_) hfair.uncut) hafter
          · obtain ⟨envelope, rfl, hreq⟩ := Cluster.call_installSnapshot (hop ▸ hcall)
            exact (hrep.carried envelope (Cluster.offers_of_step hs) args hreq).mono hH
          · obtain ⟨envelope, rfl, hreq⟩ := Cluster.call_installSnapshot (hop ▸ hcall)
            simp only [Cluster.RollsBack, hreq] at hroll
            exact hroll hback
    · rw [Cluster.core, hothers m hmn]
      exact (hrep.folded m hm).mono hH
  · cases action with
    | deliver envelope' =>
        obtain ⟨-, core, reply, -, rfl⟩ := Cluster.step_deliver hs
        exact (hrep.carried envelope he args hreq).mono hH
    | «local» k action =>
        obtain ⟨hk, -, e, ha, rfl⟩ := Cluster.step_local hs
        rcases List.mem_append.1 he with he | he
        · exact (hrep.carried envelope he args hreq).mono hH
        · obtain ⟨snapshot, hload, hidx, hdata⟩ := ha.sent_snapshot he hreq
          have hfold := hrep.folded k (h.sim.nodes ▸ hk)
          exact (hfold.ofFold hload hidx hdata).mono hH

omit [LawfulStorage σ] in
/-- **A restart** of a node that agrees with the history. -/
theorem Replicates.restart (hrep : Replicates S m₀ H C A) {k : ℕ}
    (hs : C.restart m₀ k = some C') : Replicates S m₀ H C' A := by
  obtain ⟨hk, core, hnew, rfl⟩ := Cluster.restart_eq_some hs
  refine ⟨hrep.decided, fun m hm => ?_, hrep.carried⟩
  by_cases hmk : m = k
  · subst hmk
    simp only [Cluster.core, Function.update_self]
    have hfold := (hrep.folded m hm).restart hnew
    exact hfold.congr (hfold.wellFormed.congr rfl rfl rfl rfl) rfl rfl rfl rfl
      fun _ hst => hst.congr rfl rfl
  · simp only [Cluster.core, Function.update_of_ne hmk]
    exact hrep.folded m hm

omit [LawfulStorage σ] [LawfulSnapshotable μ] in
/-- The nodes of a freshly booted cluster agree with the empty history. -/
theorem Cluster.Initial.replicates [LawfulSnapshotable μ] (h : C.Initial)
    (hnodes : C.nodes = S.nodes) (hm : ∀ n ∈ C.nodes, (C.core n).stateMachine = m₀) :
    Replicates S m₀ [] C (State.init ℕ LogEntry) where
  decided := .nil
  folded n hn := by
    rw [← hnodes] at hn
    obtain ⟨peers, storage, m, threshold, core, hnew, heq, hterm, hvote, hlog, hsnap, -⟩ :=
      h.boot n hn
    have hmachine := hm n hn
    rw [RaftCore.new_eq_fresh hterm hvote hlog hsnap, Except.ok.injEq] at hnew
    rw [Cluster.core, heq, ← hnew] at hmachine ⊢
    obtain rfl : m = m₀ := hmachine
    have hfold : (RaftCore.fresh n peers storage m).Folded m [] :=
      RaftCore.new_folded (n := 0) (c := StorageContents.empty) ⟨hterm, hvote, hlog, hsnap⟩ rfl
        Indexed.nil le_rfl (RaftCore.new_eq_fresh hterm hvote hlog hsnap)
    exact hfold.congr (hfold.wellFormed.congr rfl rfl rfl rfl) rfl rfl rfl rfl
      fun _ hst => hst.congr rfl rfl
  carried := by simp [h.requests]

/-- **What a node has applied**: the first `last_applied` commands of the history, and the entries
that it still has up to there carry them. -/
structure RaftCore.Reflects (m₀ : μ) (H : List String) (core : RaftCore σ μ) : Prop where
  within : core.lastApplied ≤ H.length
  stateMachine : core.stateMachine = foldCommands m₀ (H.take core.lastApplied)
  entries : ∀ i e, i ≤ core.lastApplied → core.getLogEntry i = some e →
    H[i - 1]? = some e.command

omit [Storage σ] [LawfulSnapshotable μ] in
theorem RaftCore.Reflects.mono (h : core.Reflects m₀ H) (hH : H <+: H') : core.Reflects m₀ H' where
  within := h.within.trans hH.length_le
  stateMachine := by rw [take_of_grown hH h.within, h.stateMachine]
  entries i e hi he := getElem?_of_grown hH (h.entries i e hi he)

omit [LawfulStorage σ] [LawfulSnapshotable μ] in
/-- A committed entry carries the command that the history has at its index. -/
theorem Replicates.command_at (hrep : Replicates S m₀ H C A) (h : Sim S C A) (hh : S.honest)
    {T j : ℕ} {ℓ : List LogEntry} (hℓ : CommittedBy S.quorums A T ℓ) {e : LogEntry}
    (hget : ℓ[j]? = some e) (hlt : j < H.length) : H[j]? = some e.command := by
  have hmem : (ℓ.map LogEntry.command)[j]? = some e.command := by
    rw [List.getElem?_map, hget, Option.map_some]
  rcases hrep.decided.comparable ⟨_, _, hℓ, rfl⟩ h.reachable hh with ⟨r, hr⟩ | hpre
  · rwa [← hr, List.getElem?_append_left hlt] at hmem
  · exact getElem?_of_grown hpre hmem

omit [LawfulStorage σ] [LawfulSnapshotable μ] in
/-- The nodes have applied what the history says. -/
theorem Replicates.reflects (hrep : Replicates S m₀ H C A) (h : Sim S C A) (hstrict : S.strict)
    {m : ℕ} (hm : m ∈ S.nodes) : (C.core m).Reflects m₀ H := by
  have hfold := hrep.folded m hm
  have hnode := h.node m hm
  have hcom := hnode.commits hstrict
  refine ⟨hfold.within, hfold.stateMachine, fun i e hi he => ?_⟩
  obtain ⟨hlt, hget⟩ := hnode.log.getLogEntry_iff.1 he
  have hcommit := hcom.applied
  have hwithin := hfold.within
  -- the committed part of the log is one of the committed histories
  refine hrep.command_at h (S.honest_of_strict hstrict) hcom.committed ?_ (by omega)
  rw [List.getElem?_take_of_lt (by omega), hget]

end Invariant

/-! ### Runs -/

namespace Cluster

/-- What is to be excluded: that a node strays, or installs a snapshot that ends below what it has
applied. -/
def GoesWrong [Snapshotable μ] (C : Cluster σ μ) : RestartAction → Prop
  | .act action => C.Strays (.act action) ∨ C.RollsBack action
  | .restart _ => False

instance [Snapshotable μ] (C : Cluster σ μ) :
    (action : RestartAction) → Decidable (C.GoesWrong action)
  | .act action => inferInstanceAs (Decidable (C.Strays (.act action) ∨ C.RollsBack action))
  | .restart _ => instDecidableFalse

omit [Storage σ] in
theorem Strays.goesWrong [Snapshotable μ] {action : RestartAction} (h : C.Strays action) :
    C.GoesWrong action := by
  cases action with
  | act action => exact Or.inl h
  | restart n => exact h

/-- After the crashes of nodes 1 and 2, node 2 brings node 1 up to date with a request, and node 3 with
its snapshot; then node 3 crashes. -/
def catchUpAll : List RestartCue :=
  crashBoth ++ ([.local 2 .drop, .local 2 .sendHeartbeat, .deliver 12, .deliver 13] : List Cue).map
    .cue ++ [.restart 3]

/-- The snapshot that node 2 sends to node 3. -/
def snapshotOfThree : Envelope :=
  ⟨2, 3, 3, .installSnapshot ⟨2, 2, 3, 2,
    (foldCommands Recorder.new [noopCommand, "SET x 1", noopCommand]).bytes⟩⟩

theorem catchUpAll_run : ∃ (ts : List _) (C : Cluster StorageContents Recorder),
    Run (stepOrRestart Recorder.new) compactingNodes ts C ∧
      (∀ t ∈ ts, ¬ t.source.GoesWrong t.action) ∧
      (∃ t ∈ ts, ∀ n ∈ [1, 2, 3], (t.target.core n).lastApplied = 3 ∧
        (t.target.core n).snapshotLastIndex = 3) ∧
      snapshotOfThree ∈ C.requests ∧ ¬ C.Diverges (.deliver snapshotOfThree) :=
  exists_run_of_play (stepOrRestart Recorder.new) chooseOrRestart compactingNodes catchUpAll
    (P := fun ts C => (∀ t ∈ ts, ¬ t.source.GoesWrong t.action) ∧
      (∃ t ∈ ts, ∀ n ∈ [1, 2, 3], (t.target.core n).lastApplied = 3 ∧
        (t.target.core n).snapshotLastIndex = 3) ∧
      snapshotOfThree ∈ C.requests ∧ ¬ C.Diverges (.deliver snapshotOfThree)) (by decide +kernel)

variable [Snapshotable μ] [LawfulStorage σ] [DurableSnapshots σ] [LawfulSnapshotable μ] {m₀ : μ}
  {ts : List (Transition (Cluster σ μ) RestartAction)}

/-- **One step**, with or without a crash, extends the history. -/
theorem agrees_of_step {nodes : List ℕ} {hnodup : nodes.Nodup}
    (h : Endures (.full nodes hnodup) C A) (hrep : Replicates (.full nodes hnodup) m₀ H C A)
    {action : RestartAction} (hok : ¬ C.GoesWrong action)
    (hs : C.stepOrRestart m₀ action = some C') :
    ∃ A' H', Frame action.node A A' ∧ H <+: H' ∧ Endures (.full nodes hnodup) C' A' ∧
      Replicates (.full nodes hnodup) m₀ H' C' A' := by
  cases action with
  | act action =>
      obtain ⟨hstray, hroll⟩ := not_or.1 hok
      obtain ⟨A', hm, h'⟩ := h.stepOrRestart hstray hs
      have hdiv : ¬ C.Diverges action := fun hdiv => hstray (Or.inl hdiv)
      obtain ⟨H', hH, hrep'⟩ := hrep.step h.follows (fun _ => ⟨inferInstance, inferInstance⟩) trivial
        (allows_full hdiv) hdiv hroll hs hm.frame
      exact ⟨A', H', hm.frame, hH, h', hrep'⟩
  | restart k => exact ⟨A, H, .refl k A, List.prefix_rfl, h.restart hs, hrep.restart hs⟩

/-- The nodes agree with one history, and have done so all along. -/
theorem run_agrees (hinit : C.Initial) (hm : ∀ n ∈ C.nodes, (C.core n).stateMachine = m₀)
    (hr : Run (stepOrRestart m₀) C ts C') (hok : ∀ t ∈ ts, ¬ t.source.GoesWrong t.action) :
    ∃ A H, Endures (.full _ hinit.nodup) C' A ∧ Replicates (.full _ hinit.nodup) m₀ H C' A ∧
      ∀ t ∈ ts, ∀ n ∈ C.nodes, (t.target.core n).Reflects m₀ H := by
  refine hr.history (J := fun ts C' => ∃ A H, Endures (.full _ hinit.nodup) C' A ∧
    Replicates (.full _ hinit.nodup) m₀ H C' A ∧
    ∀ t ∈ ts, ∀ n ∈ C.nodes, (t.target.core n).Reflects m₀ H)
    (P := fun t => ¬ t.source.GoesWrong t.action) ?_
    ⟨_, [], hinit.endures rfl fun hc => absurd trivial hc, hinit.replicates rfl hm, by simp⟩ hok
  rintro ts C₁ action C₂ ⟨A₁, H₁, h₁, hrep₁, hreflect⟩ hs hno
  obtain ⟨A₂, H₂, -, hH, h₂, hrep₂⟩ := agrees_of_step h₁ hrep₁ hno hs
  refine ⟨A₂, H₂, h₂, hrep₂, fun t ht n hn => ?_⟩
  rcases List.mem_append.1 ht with ht | ht
  · exact (hreflect t ht n hn).mono hH
  · obtain rfl := List.mem_singleton.1 ht
    exact hrep₂.reflects h₂.follows.sim trivial hn

/-- **One history for the whole run**: there is a list of commands such that every node, at every
moment, holds the fold of its first `last_applied` commands, whatever was compacted, installed,
crashed and reloaded in between. -/
theorem run_replicated (hinit : C.Initial) (hm : ∀ n ∈ C.nodes, (C.core n).stateMachine = m₀)
    (hr : Run (stepOrRestart m₀) C ts C') (hok : ∀ t ∈ ts, ¬ t.source.GoesWrong t.action) :
    ∃ H : List String, ∀ t ∈ ts, ∀ n ∈ C.nodes, (t.target.core n).Reflects m₀ H := by
  obtain ⟨A, H, -, -, hreflect⟩ := run_agrees hinit hm hr hok
  exact ⟨H, hreflect⟩

omit [Storage σ] [Snapshotable μ] [LawfulStorage σ] [DurableSnapshots σ] [LawfulSnapshotable μ] in
/-- The node that applied its log and the one that installed a snapshot hold the same. -/
theorem run_replicated_crashed : ∃ (ts : List _) (C : Cluster StorageContents Recorder)
    (H : List String), Run (stepOrRestart Recorder.new) compactingNodes ts C ∧
      ∃ t ∈ ts, ∀ n ∈ [1, 2, 3], (t.target.core n).lastApplied = 3 ∧
        (t.target.core n).stateMachine = foldCommands Recorder.new (H.take 3) := by
  obtain ⟨ts, C, hr, hok, ⟨t, ht, happlied⟩, -⟩ := catchUpAll_run
  obtain ⟨H, hreflect⟩ := run_replicated compactingNodes_initial (fun _ _ => rfl) hr hok
  refine ⟨ts, C, H, hr, t, ht, fun n hn => ?_⟩
  have hsm := (hreflect t ht n hn).stateMachine
  rw [(happlied n hn).1] at hsm
  exact ⟨(happlied n hn).1, hsm⟩

end Cluster

/-! ### No node panics -/

section Panics

variable [Snapshotable μ] {core : RaftCore σ μ}

/-- A call on a well-formed node returns, when a snapshot that it installs can be restored. -/
theorem Op.run_returns [InfallibleStorage σ] [LawfulSnapshotable μ] (h : core.WellFormed) {op : Op}
    (hfair : op.Fair core)
    (hinstall : ∀ args, op = .installSnapshot args → RaftCore.IsSnapshot μ args.data) :
    ∃ core', op.step core = some core' := by
  simp only [Op.step_eq_some]
  have returns {α : Type} {x : Except (Panic σ) α} {f : α → RaftCore σ μ × Option Reply}
      (hx : ∃ r, x = .ok r) : ∃ core' reply, (x >>= fun a => pure (f a)) = .ok (core', reply) := by
    obtain ⟨r, rfl⟩ := hx
    exact ⟨_, _, rfl⟩
  cases op with
  | requestVote args => exact returns (RaftCore.handleRequestVote_returns _ _)
  | appendEntries args =>
      exact returns (RaftCore.handleAppendEntries_returns h hfair.expected hfair.uncut)
  | installSnapshot args =>
      exact returns (RaftCore.handleInstallSnapshot_returns core (hinstall args rfl))
  | startElection => exact returns (RaftCore.startElection_returns _)
  | becomeLeader => exact returns (RaftCore.becomeLeader_returns _)
  | appendLogEntry command => exact returns (RaftCore.appendLogEntry_returns _ _)
  | applyCommittedEntries =>
      exact returns (RaftCore.applyCommittedEntries_returns h.contiguous h.snapshot_le h.commit_le)
  | takeSnapshot => exact ⟨_, _, rfl⟩
  | requestVoteResult peerId result =>
      exact returns (RaftCore.handleRequestVoteResult_returns _ _ _)
  | appendEntriesResult peerId entryIndex result =>
      exact returns (RaftCore.handleAppendEntriesResult_returns h result hfair.expected)
  | installSnapshotResult peerId lastIncludedIndex result => exact ⟨_, _, rfl⟩
  | confirmResult result => exact ⟨_, _, rfl⟩

/-- A node that agrees with a history can be loaded again. -/
theorem RaftCore.Folded.new_returns [LawfulSnapshotable μ] {m₀ : μ} (h : core.Folded m₀ H)
    (id : ℕ) (peers : List ℕ) (m : μ) :
    ∃ core', RaftCore.new id peers core.storage m = .ok core' := by
  obtain ⟨snapshot, ⟨c, hholds, -, rfl⟩, hcov⟩ := h.stored
  have hdata : ∀ x ∈ c.snapshot, IsSnapshot μ x.data := by
    intro x hx
    rw [Option.mem_def] at hx
    rw [hx] at hcov
    exact ⟨_, hcov.2⟩
  obtain ⟨core', hnew, -⟩ := RaftCore.new_of_holds id peers hholds hdata m
  exact ⟨core', hnew⟩

namespace Cluster

variable [LawfulStorage σ] [DurableSnapshots σ] [LawfulSnapshotable μ] {m₀ : μ}
  {ts : List (Transition (Cluster σ μ) RestartAction)}

omit [LawfulStorage σ] [DurableSnapshots σ] in
/-- A restart of a node that agrees with a history. -/
theorem restart_returns {H : List String} (hrep : Replicates S m₀ H C A) (h : Sim S C A)
    (hn : n ∈ C.nodes) : ∃ C', C.restart m₀ n = some C' := by
  obtain ⟨core', hnew⟩ := (hrep.folded n (h.nodes ▸ hn)).new_returns (C.core n).id (C.core n).peers m₀
  simp only [restart, if_pos hn, hnew]
  exact ⟨_, rfl⟩

/-- **No node panics**, in any state of a run in which nothing goes wrong: every request that has been
sent can be handled, every event loop can go on, and every node can be loaded again from its
storage. -/
theorem run_never_panics (hinit : C.Initial) (hm : ∀ n ∈ C.nodes, (C.core n).stateMachine = m₀)
    (hr : Run (stepOrRestart m₀) C ts C') (hok : ∀ t ∈ ts, ¬ t.source.GoesWrong t.action) :
    (∀ action op, C'.Offers action → ¬ C'.Diverges action → C'.call action = some op →
      ∃ C'', C'.step action = some C'') ∧ ∀ n ∈ C.nodes, ∃ C'', C'.restart m₀ n = some C'' := by
  obtain ⟨A, H, h, hrep, -⟩ := run_agrees hinit hm hr hok
  have hsim := h.follows.sim
  refine ⟨fun action op hoff hdiv hcall => ?_, fun n hn => ?_⟩
  · obtain ⟨hn, hfair⟩ := hsim.fair trivial h.follows.inLog hoff hdiv hcall
    obtain ⟨core', hop⟩ := Op.run_returns (hrep.folded _ hn).wellFormed hfair fun args hop => by
      obtain ⟨envelope, rfl, hreq⟩ := call_installSnapshot (hop ▸ hcall)
      exact ⟨_, (hrep.carried envelope hoff args hreq).2⟩
    exact step_of_call hoff hcall hop
  · exact restart_returns hrep hsim (hsim.nodes ▸ hn)

omit [Storage σ] [Snapshotable μ] [LawfulStorage σ] [DurableSnapshots σ] [LawfulSnapshotable μ] in
/-- Node 3 can handle the snapshot a second time, after it has crashed, and crash again. -/
theorem run_never_panics_crashed : ∃ (ts : List _) (C : Cluster StorageContents Recorder),
    Run (stepOrRestart Recorder.new) compactingNodes ts C ∧
      (∃ C', C.step (.deliver snapshotOfThree) = some C') ∧
      ∃ C', C.restart Recorder.new 3 = some C' := by
  obtain ⟨ts, C, hr, hok, -, hmem, hdiv⟩ := catchUpAll_run
  obtain ⟨hstep, hrestart⟩ := run_never_panics compactingNodes_initial (fun _ _ => rfl) hr hok
  exact ⟨ts, C, hr, hstep _ _ hmem hdiv rfl, hrestart 3 (by decide)⟩

end Cluster

end Panics

/-! ### A restart loses nothing durable -/

/-- **What comes back after a crash**: everything but the role, the indices of a leader and how much
of the log above the snapshot has been committed and applied. -/
structure RaftCore.Reloads (core core' : RaftCore σ μ) : Prop where
  id_eq : core'.id = core.id
  peers : core'.peers = core.peers
  currentTerm : core'.currentTerm = core.currentTerm
  votedFor : core'.votedFor = core.votedFor
  log : core'.log = core.log
  snapshotLastIndex : core'.snapshotLastIndex = core.snapshotLastIndex
  snapshotLastTerm : core'.snapshotLastTerm = core.snapshotLastTerm
  snapshotThreshold : core'.snapshotThreshold = core.snapshotThreshold
  storage : core'.storage = core.storage
  state : core'.state = .follower
  lastApplied : core'.lastApplied = core.snapshotLastIndex

/-- The node that comes back is the one that crashed. -/
theorem RaftCore.Recoverable.reloads [Snapshotable μ] {core core' : RaftCore σ μ}
    (h : core.Recoverable) {m₀ : μ}
    (hnew : RaftCore.new core.id core.peers core.storage m₀ = .ok core') :
    core.Reloads (core'.setSnapshotThreshold core.snapshotThreshold) := by
  obtain ⟨m, rfl⟩ := h.new_eq hnew
  exact ⟨rfl, rfl, rfl, rfl, rfl, rfl, rfl, rfl, rfl, rfl, rfl⟩

namespace Cluster

variable [Snapshotable μ] [LawfulStorage σ] [DurableSnapshots σ] [LawfulSnapshotable μ] {m₀ : μ}
  {ts : List (Transition (Cluster σ μ) RestartAction)}

/-- **A restart between two calls is possible and loses nothing durable**, in every run in which nothing
goes wrong, however often the nodes have compacted their logs, installed snapshots and crashed
before: the node has its term, its vote, its log and its snapshot boundary again, its state machine is
the fold of the commands that the snapshot covers, and the other nodes do not notice. -/
theorem run_restart_lossless (hinit : C.Initial)
    (hm : ∀ n ∈ C.nodes, (C.core n).stateMachine = m₀) (hr : Run (stepOrRestart m₀) C ts C')
    (hok : ∀ t ∈ ts, ¬ t.source.GoesWrong t.action) :
    ∃ H : List String, (∀ t ∈ ts, ∀ n ∈ C.nodes, (t.target.core n).Reflects m₀ H) ∧
      ∀ n ∈ C.nodes, ∃ C'', C'.restart m₀ n = some C'' ∧ (C'.core n).Reloads (C''.core n) ∧
        (C''.core n).stateMachine = foldCommands m₀ (H.take (C'.core n).snapshotLastIndex) ∧
        ∀ m ≠ n, C''.servers m = C'.servers m := by
  obtain ⟨A, H, h, hrep, hreflect⟩ := run_agrees hinit hm hr hok
  refine ⟨H, hreflect, ?_⟩
  intro n hn
  have hsim := h.follows.sim
  obtain ⟨C'', hs⟩ := restart_returns hrep hsim (n := n) (hsim.nodes ▸ hn)
  obtain ⟨-, core, hnew, heq⟩ := restart_eq_some hs
  have hself : C''.core n = core.setSnapshotThreshold (C'.core n).snapshotThreshold := by
    rw [heq]
    simp only [Cluster.core, Function.update_self]
  have hreloads : (C'.core n).Reloads (C''.core n) := by
    rw [hself]
    exact (h.recoverable n hn).reloads hnew
  refine ⟨C'', hs, hreloads, ?_, ?_⟩
  · have hfold := (hrep.restart hs).folded n hn
    rw [hfold.stateMachine, hreloads.lastApplied]
  · intro m hmn
    rw [heq]
    exact Function.update_of_ne hmn _ _

omit [Storage σ] [Snapshotable μ] [LawfulStorage σ] [DurableSnapshots σ] [LawfulSnapshotable μ] in
/-- Node 3, which has installed a snapshot and crashed, can crash again. -/
theorem run_restart_lossless_crashed : ∃ (ts : List _) (C C' : Cluster StorageContents Recorder)
    (H : List String), Run (stepOrRestart Recorder.new) compactingNodes ts C ∧
      C.restart Recorder.new 3 = some C' ∧ (C.core 3).Reloads (C'.core 3) ∧
      (C'.core 3).stateMachine =
        foldCommands Recorder.new (H.take (C.core 3).snapshotLastIndex) := by
  obtain ⟨ts, C, hr, hok, -⟩ := catchUpAll_run
  obtain ⟨H, -, hrestart⟩ := run_restart_lossless compactingNodes_initial (fun _ _ => rfl) hr hok
  obtain ⟨C', hs, hreloads, hsm, -⟩ := hrestart 3 (by decide)
  exact ⟨ts, C, C', H, hr, hs, hreloads, hsm⟩

end Cluster

end RaftVibe
