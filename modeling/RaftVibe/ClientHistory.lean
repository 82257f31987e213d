/-
**Clients see a single copy.**

The commands that the nodes apply are one list.  A submit whose reply tells a result has its place in
that list, and a read stands between two places; this module proves that the places agree with what
clients are told and with the order in which they are told it.  An operation that begins after another
one has returned is not placed before it: the entry of a call that begins at some moment is new in the
log of its leader, and whatever is committed by then is made of entries that are not new; and a read
covers what was committed when it began.

Main definitions:

* `RaftVibe.Event.point` — where an operation that has returned takes effect;
* `RaftVibe.Since` — one state of the replicated log comes after another;
* `RaftVibe.Linearizes` — the list of commands explains what clients have seen.

Main results:

* `RaftVibe.Tracks.of_frame` — **one step** keeps what is known of a state;
* `RaftVibe.Cluster.run_submit_late` — a call that begins later gets a higher index than everything
  that was committed before;
* `RaftVibe.Cluster.run_linearizable` — **what clients see is a sequential history**.
-/

import RaftVibe.ReadFreshness
import RaftVibe.SubmitReplies

set_option relaxedAutoImplicit false
set_option autoImplicit false

namespace RaftVibe

open ReplicatedLog Runs

variable {σ μ : Type} [Storage σ] {S : Setting} {A A' A₁ : State ℕ LogEntry}
  {C C' : Cluster σ μ} {n : ℕ} {m₀ : μ}

/-! ### Later states of the replicated log -/

/-- The state `A` comes after `A₁`, by moves of any nodes. -/
def Since (A₁ A : State ℕ LogEntry) : Prop :=
  Relation.ReflTransGen (fun A A' => ∃ n, Frame n A A') A₁ A

namespace Since

theorem leader (h : Since A₁ A) {T l : ℕ} (hl : A₁.leader T = some l) : A.leader T = some l := by
  induction h with
  | refl => exact hl
  | tail _ hf ih =>
      obtain ⟨n, hf⟩ := hf
      exact hf.leader_some ih

theorem llog (h : Since A₁ A) {T l : ℕ} (hl : A₁.leader T = some l) :
    A₁.llog T <+: A.llog T := by
  induction h with
  | refl => exact List.prefix_rfl
  | tail h hf ih =>
      obtain ⟨n, hf⟩ := hf
      exact ih.trans (hf.llog (leader h hl))

theorem committed (h : Since A₁ A) {T k : ℕ} (hc : Committed S.quorums A₁ T k) :
    Committed S.quorums A T k ∧ (A.llog T).take k = (A₁.llog T).take k := by
  induction h with
  | refl => exact ⟨hc, rfl⟩
  | tail _ hf ih =>
      obtain ⟨n, hf⟩ := hf
      exact ⟨ih.1.frame hf, (ih.1.take_llog hf).trans ih.2⟩

end Since

/-! ### The calls in progress -/

section Calls

variable [Snapshotable μ]

/-- **A call has just appended its command, or it goes on**, and a node that is leader after that was
leader before. -/
theorem Acts.call_cases {s : Server σ μ} {now : ℕ} {action : LocalAction} {e : Effect σ μ}
    (h : Acts s now action e) {command : String} {i : ℕ}
    (hcall : e.server.task.call = some (command, i)) :
    (action = .submit command ∧ s.task = .idle ∧ s.core.state = .leader ∧
      i = s.core.lastLogIndex + 1 ∧ s.core.SameRole e.server.core ∧
      e.server.core.snapshotLastIndex = s.core.snapshotLastIndex ∧
      e.server.core.log = s.core.log ++ [⟨s.core.currentTerm, i, command⟩]) ∨
    (s.task.call = some (command, i) ∧
      (e.server.core.state = .leader → s.core.SameRole e.server.core)) := by
  cases h with
  | settle h => cases h <;> cases hcall
  | submit ht hl h =>
      obtain ⟨rfl, rfl⟩ := Prod.mk.inj (Option.some.inj hcall)
      rcases RaftCore.appendLogEntry_ok h with ⟨hno, -⟩ | ⟨-, entry, _, -, rfl, heq, rfl⟩
      · exact absurd hl hno
      · obtain rfl := Option.some.inj heq
        exact Or.inl ⟨rfl, ht, hl, rfl, ⟨rfl, rfl⟩, rfl, rfl⟩
  | replicate ht =>
      rw [ht]
      exact Or.inr ⟨hcall, fun _ => ⟨rfl, rfl⟩⟩
  | submitPending ht h =>
      refine Or.inr ⟨(s.task.call_forget _).symm.trans hcall, fun hlead => ?_⟩
      exact RaftCore.handleAppendEntriesResult_role h (by rw [hlead]; simp)
  | fail => exact Or.inr ⟨(s.task.call_forget _).symm.trans hcall, fun _ => ⟨rfl, rfl⟩⟩
  | votePending ht | heartbeatAppended ht | heartbeatInstalled ht =>
      replace hcall := (s.task.call_forget _).symm.trans hcall
      rw [ht] at hcall
      cases hcall
  | _ => cases hcall

/-- What one step of the cluster does to a call that is in progress after it. -/
theorem Cluster.step_call_cases {action : Action} (hs : C.step action = some C') {command : String}
    {i : ℕ} (hcall : (C'.servers n).task.call = some (command, i)) :
    (action = .local n (.submit command) ∧ (C.servers n).task = .idle ∧
      (C.core n).state = .leader ∧ i = (C.core n).lastLogIndex + 1 ∧
      (C.core n).SameRole (C'.core n) ∧
      (C'.core n).snapshotLastIndex = (C.core n).snapshotLastIndex ∧
      (C'.core n).log = (C.core n).log ++ [⟨(C.core n).currentTerm, i, command⟩]) ∨
    ((C.servers n).task.call = some (command, i) ∧
      ((C'.core n).state = .leader → (C.core n).SameRole (C'.core n))) := by
  cases action with
  | deliver envelope =>
      right
      obtain ⟨-, core, reply, hrec, rfl⟩ := step_deliver hs
      by_cases hne : n = envelope.target
      · subst hne
        have hself : (C.receive envelope core reply).core envelope.target = core := by
          rw [Cluster.core, C.receive_servers_self]
        rw [C.receive_servers_self] at hcall
        rw [hself]
        exact ⟨hcall, fun hl => Server.receive_role hrec (by rw [hl]; simp)⟩
      · rw [C.receive_servers_ne core reply hne] at hcall
        rw [Cluster.core, Cluster.core, C.receive_servers_ne core reply hne]
        exact ⟨hcall, fun _ => ⟨rfl, rfl⟩⟩
  | «local» m action =>
      obtain ⟨-, -, e, ha, rfl⟩ := step_local hs
      by_cases hne : n = m
      · subst hne
        have hself : (C.perform n e).core n = e.server.core := by
          rw [Cluster.core, C.perform_servers_self]
        rw [C.perform_servers_self] at hcall
        rw [hself]
        rcases ha.call_cases hcall with ⟨rfl, hrest⟩ | hrest
        · exact Or.inl ⟨rfl, hrest⟩
        · exact Or.inr hrest
      · right
        rw [C.perform_servers_ne e hne] at hcall
        rw [Cluster.core, Cluster.core, C.perform_servers_ne e hne]
        exact ⟨hcall, fun _ => ⟨rfl, rfl⟩⟩

omit [Snapshotable μ] in
/-- A new entry of a leader is at its index in the log of its term. -/
theorem NodeRel.llog_of_append {core core' : RaftCore σ μ} (h : NodeRel S A n core)
    (h' : NodeRel S A' n core') (hl : core'.state = .leader) {command : String} {i : ℕ}
    (hi : i = core.lastLogIndex + 1)
    (hsnap : core'.snapshotLastIndex = core.snapshotLastIndex)
    (hterm : core'.currentTerm = core.currentTerm)
    (hlog : core'.log = core.log ++ [⟨core.currentTerm, i, command⟩]) :
    (A'.llog core'.currentTerm)[i - 1]? = some ⟨core'.currentTerm, i, command⟩ := by
  have hlast := h.log.contiguous.lastLogIndex
  have hget : core'.getLogEntry i = some ⟨core'.currentTerm, i, command⟩ := by
    rw [RaftCore.getLogEntry_eq_some, hsnap, hlog, hterm]
    refine ⟨by omega, ?_⟩
    rw [List.getElem?_append_right (by omega), List.getElem?_eq_some_iff]
    refine ⟨?_, ?_⟩
    · simp only [List.length_singleton]
      omega
    · simp
  obtain ⟨-, hget⟩ := h'.log.getLogEntry_iff.1 hget
  rwa [(h'.leads hl).log, ← h'.term_eq] at hget

/-- **What is known of the calls in progress**: as long as its node leads, the entry of a call is in
the log of the term. -/
def Calling (S : Setting) (C : Cluster σ μ) (A : State ℕ LogEntry) : Prop :=
  ∀ n ∈ S.nodes, ∀ command i, (C.servers n).task.call = some (command, i) →
    (C.core n).state = .leader → 0 < i ∧
      (A.llog (C.core n).currentTerm)[i - 1]? = some ⟨(C.core n).currentTerm, i, command⟩

/-- A call of node `n` has begun since the replicated log was in the state `A₁`: its entry was not in
the log of the term. -/
def Recent (A₁ : State ℕ LogEntry) (C : Cluster σ μ) (n : ℕ) : Prop :=
  ∀ command i, (C.servers n).task.call = some (command, i) → (C.core n).state = .leader →
    ∀ l, A₁.leader (C.core n).currentTerm = some l → (A₁.llog (C.core n).currentTerm).length < i

theorem Calling.step (h : Calling S C A) (hsim : Sim S C A) {action : Action}
    (hs : C.step action = some C') (hsim' : Sim S C' A') {m : ℕ} (hf : Frame m A A') :
    Calling S C' A' := by
  intro n hn command i hcall hl
  have hnode := hsim.node n hn
  rcases Cluster.step_call_cases hs hcall with
    ⟨-, -, -, hi, hrole, hsnap, hlog⟩ | ⟨hold, hkept⟩
  · exact ⟨by omega, hnode.llog_of_append (hsim'.node n hn) hl hi hsnap hrole.2 hlog⟩
  · have hrole := hkept hl
    have hl₀ : (C.core n).state = .leader := hrole.1.symm.trans hl
    obtain ⟨hpos, hget⟩ := h n hn command i hold hl₀
    have hlead := (hnode.leads hl₀).leader
    rw [← hnode.term_eq] at hlead
    obtain ⟨r, hr⟩ := hf.llog hlead
    rw [hrole.2]
    refine ⟨hpos, ?_⟩
    rw [← hr, List.getElem?_append_left (List.getElem?_eq_some_iff.1 hget).1, hget]

theorem Recent.step (h : Recent A₁ C n) (hsince : Since A₁ A) (hsim : Sim S C A) (hn : n ∈ S.nodes)
    {action : Action} (hs : C.step action = some C') : Recent A₁ C' n := by
  intro command i hcall hl l hlead
  have hnode := hsim.node n hn
  rcases Cluster.step_call_cases hs hcall with ⟨-, -, hl₀, hi, hrole, -⟩ | ⟨hold, hkept⟩
  · -- the entry is appended to a log that has grown since then
    rw [hrole.2] at hlead ⊢
    have hle := (hsince.llog hlead).length_le
    rw [hnode.term_eq, ← (hnode.leads hl₀).log] at hle
    rw [hi, hnode.log.lastLogIndex, hnode.term_eq]
    omega
  · have hrole := hkept hl
    rw [hrole.2] at hlead ⊢
    exact h command i hold (hrole.1.symm.trans hl) l hlead

/-- A node that comes back is not busy with a call. -/
theorem Endures.restart_call (h : Endures S C A) {k : ℕ} (hs : C.restart m₀ k = some C') {m : ℕ}
    {call : String × ℕ} (hcall : (C'.servers m).task.call = some call) :
    C'.servers m = C.servers m := by
  by_cases hmk : m = k
  · subst hmk
    rw [(h.restart_self hs).1] at hcall
    cases hcall
  · exact Cluster.restart_servers_ne hs hmk

theorem Calling.restart (h : Calling S C A) (he : Endures S C A) {k : ℕ}
    (hs : C.restart m₀ k = some C') (hf : Frame k A A') : Calling S C' A' := by
  intro m hm command i hcall
  have hsame := he.restart_call hs hcall
  have hcore : C'.core m = C.core m := by rw [Cluster.core, hsame, Cluster.core]
  rw [hsame] at hcall
  rw [hcore]
  intro hl
  have hnode := he.follows.sim.node m hm
  obtain ⟨hpos, hget⟩ := h m hm command i hcall hl
  have hlead := (hnode.leads hl).leader
  rw [← hnode.term_eq] at hlead
  obtain ⟨r, hr⟩ := hf.llog hlead
  refine ⟨hpos, ?_⟩
  rw [← hr, List.getElem?_append_left (List.getElem?_eq_some_iff.1 hget).1, hget]

theorem Recent.restart (h : Recent A₁ C n) (he : Endures S C A) {k : ℕ}
    (hs : C.restart m₀ k = some C') : Recent A₁ C' n := by
  intro command i hcall
  have hsame := he.restart_call hs hcall
  rw [hsame] at hcall
  rw [Cluster.core, hsame]
  exact h command i hcall

end Calls

/-! ### What clients are told -/

/-- **Where an operation that has returned takes effect**: a submit whose reply tells a result at the
index of its entry, a read after as many commands as it has returned. -/
def Event.point : Event → Option ℕ
  | submitReturned _ _ (some i) (.ok _) => some i
  | submitReturned _ _ (some i) (.error (.stateMachine _)) => some i
  | readReturned _ _ (.ok r) => some r
  | _ => none

theorem Event.point_submitReturned {n i : ℕ} {command : String} {res : ApplyResult} :
    (submitReturned n command (some i) (Server.submitResult res)).point = some i := by
  cases res <;> rfl

section Telling

variable [Snapshotable μ]

/-- An acquisition of the lock tells clients one thing at most. -/
theorem Server.act_events {s : Server σ μ} {now : ℕ} {action : LocalAction} {e : Effect σ μ}
    (h : s.act now action = some e) : e.events.length ≤ 1 := by
  cases action <;> simp only [act] at h <;> repeat' split at h
  all_goals first
    | (cases h; done)
    | (obtain rfl := Option.some.inj h
       simp only [proceed, send, List.length_nil, List.length_singleton, Nat.zero_le, le_refl])

/-- **When something with a point is told**: an answer has committed the entry of a call, or a read
returns what its leader has applied. -/
theorem Server.act_point {s : Server σ μ} {now : ℕ} {action : LocalAction} {e : Effect σ μ}
    (h : s.act now action = some e) {ev : Event} (hev : ev ∈ e.events) {p : ℕ}
    (hp : ev.point = some p) :
    (∃ command waiting envelope reply commit results res,
      action = .answer envelope (.appendEntries reply) ∧
      s.task = .replicating command p waiting ∧
      s.core.handleAppendEntriesResult envelope.target p reply =
        .ok (e.server.core, commit, results) ∧ (p, res) ∈ results ∧ e.server.task = .idle ∧
      ev = .submitReturned s.core.id command (some p) (submitResult res)) ∨
    (∃ since, ev = .readReturned s.core.id since (.ok p) ∧ e.server.core = s.core ∧
      p = s.core.lastApplied) := by
  cases action <;> simp only [act] at h <;> repeat' split at h
  -- most branches tell nothing, or an error
  all_goals first
    | (cases h; done)
    | (obtain rfl := Option.some.inj h
       simp only [proceed, send, List.mem_singleton, List.not_mem_nil] at hev)
  all_goals
    subst hev
    first
    | (cases hp; done)
    | skip
  · -- an answer to a round of `replicate_to_peers`
    rename_i hans _ res hres
    obtain rfl := Option.some.inj (Event.point_submitReturned.symm.trans hp)
    exact Or.inl ⟨_, _, _, _, _, _, res, rfl, ‹s.task = _›, hans, mem_of_entryResult hres, rfl, rfl⟩
  · obtain rfl := Option.some.inj hp
    exact Or.inr ⟨_, rfl, rfl, rfl⟩

end Telling

/-! ### What is known of a state -/

section Tracking

variable [Snapshotable μ]

/-- **What is known of a state of a run.** -/
structure Tracks (S : Setting) (C : Cluster σ μ) (A : State ℕ LogEntry) : Prop where
  endures : Endures S C A
  sourced : Sourced S C A
  dated : Dated C
  calling : Calling S C A

/-- The command has entered the log of the term `T` at the index `i`, at node `n`, and is
committed. -/
def Entered (S : Setting) (A : State ℕ LogEntry) (n : ℕ) (command : String) (i T : ℕ) : Prop :=
  0 < i ∧ A.leader T = some n ∧
    ∃ T' ℓ, CommittedBy S.quorums A T' ℓ ∧ ℓ[i - 1]? = some ⟨T, i, command⟩

theorem Entered.frame {command : String} {i T m : ℕ} (h : Entered S A n command i T)
    (hf : Frame m A A') : Entered S A' n command i T := by
  obtain ⟨hpos, hlead, T', ℓ, hℓ, hget⟩ := h
  exact ⟨hpos, hf.leader_some hlead, T', ℓ, hℓ.frame hf, hget⟩

omit [Snapshotable μ] in
/-- **What was committed by a moment is made of entries that are not new**: an entry that was not in the
log of its leader by then is committed above it. -/
theorem Since.lt_of_entered (h : Since A₁ A) (hA₁ : S.Reachable A₁) (hsim : Sim S C A)
    (hh : S.honest) {T₀ k₀ : ℕ} (hcom : Committed S.quorums A₁ T₀ k₀) {command : String} {i T : ℕ}
    (hent : Entered S A n command i T)
    (hnew : ∀ l, A₁.leader T = some l → (A₁.llog T).length < i) : k₀ < i := by
  obtain ⟨hpos, -, T', ℓ, hℓ, hget⟩ := hent
  by_contra hge
  obtain ⟨l, hlead⟩ := hcom.1
  have hlen : ((A₁.llog T₀).take k₀).length = k₀ := by
    rw [List.length_take, min_eq_left hcom.2.2.1]
  obtain ⟨x, hx⟩ : ∃ x, ((A₁.llog T₀).take k₀)[i - 1]? = some x :=
    ⟨_, List.getElem?_eq_getElem (by omega)⟩
  -- the committed entry at that index is the same, so it was there
  obtain ⟨hcom', htake⟩ := h.committed hcom
  have hby : CommittedBy S.quorums A T₀ ((A₁.llog T₀).take k₀) :=
    htake ▸ Or.inr ⟨_, _, le_rfl, hcom', List.prefix_rfl⟩
  obtain rfl : x = ⟨T, i, command⟩ := Cluster.committed_agree hsim hh hby hℓ hx hget
  rw [List.getElem?_take_of_lt (by omega)] at hx
  obtain ⟨hlt, hx⟩ := List.getElem?_eq_some_iff.1 hx
  have hpre : (A₁.llog T₀).take (i - 1) ++ [⟨T, i, command⟩] <+: A₁.llog T₀ := by
    rw [← hx, List.take_append_getElem hlt]
    exact List.take_prefix _ _
  -- and then in the log of its own leader
  have hvalid := ((Setting.inv hA₁).valid_llog hlead).shorten hpre
  obtain ⟨⟨l', hl'⟩, hpre'⟩ := hvalid.prefix_llog (by simp)
  rw [lastTerm_append_singleton] at hl' hpre'
  have hlen' := hpre'.length_le
  have hlt' := hnew l' hl'
  rw [List.length_append, List.length_take, List.length_singleton] at hlen'
  simp only at hlen' hlt'
  omega

theorem Cluster.Initial.tracks (h : C.Initial) (hnodes : C.nodes = S.nodes) (hc : S.compacting) :
    Tracks S C (State.init ℕ LogEntry) where
  endures := h.endures hnodes fun hno => absurd hc hno
  sourced := h.sourced hnodes
  dated := h.dated
  calling n hn command i hcall := by
    rw [h.idle n (hnodes ▸ hn)] at hcall
    cases hcall

variable [LawfulStorage σ] [DurableSnapshots σ] {nodes : List ℕ} {hnodup : nodes.Nodup}

/-- **One step** keeps what is known. -/
theorem Tracks.of_frame (h : Tracks (.full nodes hnodup) C A) {action : RestartAction}
    (hok : ¬ C.Strays action) (hs : C.stepOrRestart m₀ action = some C')
    (he' : Endures (.full nodes hnodup) C' A') (hf : Frame action.node A A') :
    Tracks (.full nodes hnodup) C' A' := by
  have ha := h.endures.advance_of_frame hok hs hf
  refine ⟨he', h.sourced.advance h.endures hs he' ha, ?_, ?_⟩
  · cases action with
    | act action => exact h.dated.step h.endures.follows.sim hs
    | restart k => exact h.dated.restart hs
  · cases action with
    | act action => exact h.calling.step h.endures.follows.sim hs he'.follows.sim hf
    | restart k => exact h.calling.restart h.endures hs hf

/-- **A call returns with a result**: its entry has just been committed, by the leader who appended
it. -/
theorem Tracks.entered (h : Tracks (.full nodes hnodup) C A) {action : LocalAction}
    (hs : C.step (.local n action) = some C') (hn : n ∈ nodes) {command : String} {i : ℕ}
    {waiting : List Envelope} (ht : (C.servers n).task = .replicating command i waiting)
    {peerId : ℕ} {reply : AppendEntriesResult} {commit : Option ℕ}
    {results : List (ℕ × ApplyResult)} (hr : (C.core n).handleAppendEntriesResult peerId i reply =
      .ok (C'.core n, commit, results)) {res : ApplyResult} (hmem : (i, res) ∈ results) :
    (C.core n).state = .leader ∧ i ≤ (C'.core n).commitIndex ∧
      CommittedBy (Setting.full nodes hnodup).quorums A (A.term n)
        ((A.log n).take (C'.core n).commitIndex) ∧
      (A.log n)[i - 1]? = some ⟨A.term n, i, command⟩ ∧
      Entered (.full nodes hnodup) A n command i (A.term n) := by
  have hsim := h.endures.follows.sim
  have hnode := hsim.node n hn
  obtain ⟨hle, -⟩ := RaftCore.handleAppendEntriesResult_mem hr hmem
  rcases RaftCore.handleAppendEntriesResult_commit hr with ⟨-, rfl⟩ | ⟨hl, -, -, hlt, -⟩
  · exact absurd hmem List.not_mem_nil
  have hleads := hnode.leads hl
  obtain ⟨-, -, hcom⟩ := hsim.commits_of_answer (fun _ => ⟨inferInstance, inferInstance⟩) trivial hs
    hlt
  obtain ⟨hpos, hget⟩ := h.calling n hn command i (by rw [ht]; rfl) hl
  rw [hnode.term_eq] at hget
  have hle : i ≤ (C'.core n).commitIndex := by
    have happlied := (hnode.commits trivial).applied
    obtain ⟨-, -, -, -, -, hresults⟩ : _ ∧ _ ∧ _ ∧ _ ∧ _ ∧ results.map Prod.fst =
        List.range' ((C.core n).lastApplied + 1) ((C'.core n).commitIndex - (C.core n).lastApplied) :=
      (RaftCore.handleAppendEntriesResult_commit hr).resolve_left fun h => absurd h.1 (by omega)
    have hmem := List.mem_map_of_mem (f := Prod.fst) hmem
    rw [hresults, List.mem_range'_1] at hmem
    omega
  have hby : CommittedBy (Setting.full nodes hnodup).quorums A (A.term n)
      ((A.llog (A.term n)).take (C'.core n).commitIndex) :=
    Or.inr ⟨_, _, le_rfl, hcom, List.prefix_rfl⟩
  rw [hleads.log]
  refine ⟨hl, hle, hby, hget, hpos, hleads.leader, _, _, hby, ?_⟩
  rw [List.getElem?_take_of_lt (by omega), hget]

end Tracking

/-! ### The order in which clients are told -/

namespace Cluster

variable [Snapshotable μ] {C₁ : Cluster σ μ} {p : ℕ}
  {ts us : List (Transition (Cluster σ μ) RestartAction)}

/-- **What a step tells clients**: nothing, or one thing, by an acquisition of an event loop. -/
theorem history_of_step {action : RestartAction} (hs : C.stepOrRestart m₀ action = some C') :
    C'.history = C.history ∨ ∃ n a e ev, action = .act (.local n a) ∧ n ∈ C.nodes ∧
      (C.servers n).act C.history.length a = some e ∧ ev ∈ e.events ∧ C' = C.perform n e ∧
      C'.history = C.history ++ [ev] := by
  cases action with
  | restart k =>
      obtain ⟨-, core, -, rfl⟩ := restart_eq_some hs
      exact Or.inl rfl
  | act action =>
      cases action with
      | deliver envelope =>
          obtain ⟨-, core, reply, -, rfl⟩ := step_deliver hs
          exact Or.inl rfl
      | «local» n a =>
          obtain ⟨hn, -, e, he, rfl⟩ := step_act hs
          have hlen := Server.act_events he
          cases hev : e.events with
          | nil =>
              left
              rw [perform, hev]
              exact List.append_nil _
          | cons ev rest =>
              obtain rfl : rest = [] := by
                rw [hev, List.length_cons] at hlen
                exact List.eq_nil_of_length_eq_zero (by omega)
              refine Or.inr ⟨n, a, e, ev, rfl, hn, he, ?_, rfl, ?_⟩
              · rw [hev]
                exact List.mem_singleton_self _
              · rw [perform, hev]

variable [LawfulStorage σ] [DurableSnapshots σ] {nodes : List ℕ} {hnodup : nodes.Nodup}

/-- What is told has been committed by then. -/
theorem point_le_of_step (h : Tracks (.full nodes hnodup) C A) {action : RestartAction}
    (hs : C.stepOrRestart m₀ action = some C') {ev : Event}
    (hev : C'.history = C.history ++ [ev]) (hp : ev.point = some p) :
    ∃ m ∈ nodes, p ≤ (C'.core m).commitIndex := by
  have hsim := h.endures.follows.sim
  rcases history_of_step hs with hsame | ⟨n, a, e, ev', rfl, hn, hact, hmem, rfl, hnew⟩
  · rw [hsame] at hev
    exact absurd hev (by simp)
  obtain rfl : ev' = ev := by
    rw [hev] at hnew
    exact (List.singleton_inj.1 (List.append_cancel_left hnew)).symm
  rw [hsim.nodes] at hn
  have hself : (C.perform n e).core n = e.server.core := by rw [Cluster.core, perform_servers_self]
  refine ⟨n, hn, ?_⟩
  rcases Server.act_point hact hmem hp with
    ⟨c, w, envelope, reply, commit, results, res, rfl, ht, hr, hres, -, -⟩ | ⟨since, -, hcore, rfl⟩
  · exact (h.entered hs hn ht (hself ▸ hr) hres).2.1
  · rw [hself, hcore]
    exact (((hsim.node n hn).commits trivial).applied).le

/-- **What is known at the end of a run.** -/
theorem run_tracked (hinit : C.Initial) (hr : Run (stepOrRestart m₀) C ts C')
    (hok : ∀ t ∈ ts, ¬ t.source.Strays t.action) :
    ∃ A, Tracks (.full _ hinit.nodup) C' A ∧
      (∀ t ∈ ts, ∀ m ∈ C.nodes, Known (.full _ hinit.nodup) C' A (t.target.core m).commitIndex) ∧
      ∀ ev ∈ C'.history, ∀ p, ev.point = some p →
        ∃ t ∈ ts, ∃ m ∈ C.nodes, p ≤ (t.target.core m).commitIndex := by
  refine hr.history (J := fun ts C' => ∃ A, Tracks (.full _ hinit.nodup) C' A ∧
      (∀ t ∈ ts, ∀ m ∈ C.nodes, Known (.full _ hinit.nodup) C' A (t.target.core m).commitIndex) ∧
      ∀ ev ∈ C'.history, ∀ p, ev.point = some p →
        ∃ t ∈ ts, ∃ m ∈ C.nodes, p ≤ (t.target.core m).commitIndex)
    (P := fun t => ¬ t.source.Strays t.action) ?_
    ⟨_, hinit.tracks rfl trivial, by simp, by simp [hinit.history]⟩ hok
  rintro ts C₁ action C₂ ⟨A₁, h₁, hknown, hpoint⟩ hs hno
  obtain ⟨A₂, he₂, ha⟩ := h₁.endures.advance hno hs
  have h₂ := h₁.of_frame hno hs he₂ ha.frame
  refine ⟨A₂, h₂, fun t ht m hm => ?_, fun ev hev p hp => ?_⟩
  · rcases List.mem_append.1 ht with ht | ht
    · exact (hknown t ht m hm).advance ha
    · obtain rfl := List.mem_singleton.1 ht
      exact h₂.sourced.node m hm
  · have hold : ev ∈ C₁.history → ∃ t ∈ ts ++ [⟨C₁, action, C₂⟩], ∃ m ∈ C.nodes,
        p ≤ (t.target.core m).commitIndex := by
      intro hev
      obtain ⟨t, ht, hle⟩ := hpoint ev hev p hp
      exact ⟨t, List.mem_append_left _ ht, hle⟩
    rcases history_of_step hs with hsame | ⟨-, -, -, ev', -, -, -, -, -, hnew⟩
    · exact hold (hsame ▸ hev)
    · rw [hnew] at hev
      rcases List.mem_append.1 hev with hev | hev
      · exact hold hev
      · obtain rfl := List.mem_singleton.1 hev
        exact ⟨_, List.mem_append_right _ (List.mem_singleton_self _),
          point_le_of_step h₁ hs hnew hp⟩

/-- What clients have been told is known to leaders. -/
theorem run_point_known (hinit : C.Initial) (hr : Run (stepOrRestart m₀) C ts C')
    (hok : ∀ t ∈ ts, ¬ t.source.Strays t.action) {ev : Event} (hev : ev ∈ C'.history)
    (hp : ev.point = some p) :
    ∃ A, Tracks (.full _ hinit.nodup) C' A ∧ Known (.full _ hinit.nodup) C' A p := by
  obtain ⟨A, h, hknown, hpoint⟩ := run_tracked hinit hr hok
  obtain ⟨t, ht, m, hm, hle⟩ := hpoint ev hev p hp
  exact ⟨A, h, (hknown t ht m hm).mono hle⟩

/-- **A call that begins after the moment `C₁`** returns an index above what leaders knew then. -/
theorem call_is_late (h₁ : Tracks (.full nodes hnodup) C₁ A₁)
    (hr : Run (stepOrRestart m₀) C₁ us C') (hok : ∀ t ∈ us, ¬ t.source.Strays t.action)
    (hn : n ∈ nodes) (hidle : (C₁.servers n).task = .idle) {x : ℕ}
    (hknown : Known (.full nodes hnodup) C₁ A₁ x) {k i : ℕ} {command : String} {res : ApplyResult}
    (hk : C₁.history.length ≤ k)
    (hret : C'.history[k]? = some (.submitReturned n command (some i) (Server.submitResult res))) :
    x < i := by
  obtain ⟨A, htrack, hsince, -, hold⟩ : ∃ A, Tracks (.full nodes hnodup) C' A ∧ Since A₁ A ∧
      Recent A₁ C' n ∧ ∀ k command i res,
      C₁.history.length ≤ k →
      C'.history[k]? = some (.submitReturned n command (some i) (Server.submitResult res)) →
      ∃ T, Entered (.full nodes hnodup) A n command i T ∧
        ∀ l, A₁.leader T = some l → (A₁.llog T).length < i := by
    refine hr.invariant (I := fun C' => ∃ A, Tracks (.full nodes hnodup) C' A ∧ Since A₁ A ∧
      Recent A₁ C' n ∧
      ∀ k command i res, C₁.history.length ≤ k →
        C'.history[k]? = some (.submitReturned n command (some i) (Server.submitResult res)) →
        ∃ T, Entered (.full nodes hnodup) A n command i T ∧
          ∀ l, A₁.leader T = some l → (A₁.llog T).length < i)
      (P := fun t => ¬ t.source.Strays t.action) ?_
      ⟨A₁, h₁, .refl, fun c i hcall => ?_, fun k c i res hk hret => ?_⟩
      hok
    · rintro C₂ action C₃ ⟨A₂, h₂, hsince, hrecent, hold⟩ hs hno
      obtain ⟨A₃, he₃, ha⟩ := h₂.endures.advance hno hs
      refine ⟨A₃, h₂.of_frame hno hs he₃ ha.frame, hsince.tail ⟨_, ha.frame⟩, ?_, ?_⟩
      · cases action with
        | act action => exact hrecent.step hsince h₂.endures.follows.sim hn hs
        | restart l => exact hrecent.restart h₂.endures hs
      · intro k command i res hk hret
        have hbefore : C₂.history[k]? = some (.submitReturned n command (some i)
            (Server.submitResult res)) → ∃ T, Entered (.full nodes hnodup) A₃ n command i T ∧
              ∀ l, A₁.leader T = some l → (A₁.llog T).length < i := by
          intro hret
          obtain ⟨T, hent, hnew⟩ := hold k command i res hk hret
          exact ⟨T, hent.frame ha.frame, hnew⟩
        rcases history_of_step hs with hsame | ⟨l, a, e, ev, rfl, hl, hact, hmem, rfl, hnew⟩
        · exact hbefore (hsame ▸ hret)
        rw [hnew] at hret
        rcases Nat.lt_or_ge k C₂.history.length with hlt | hge
        · exact hbefore (by rwa [List.getElem?_append_left hlt] at hret)
        -- the call has just returned
        rw [List.getElem?_append_right hge] at hret
        obtain rfl := List.mem_singleton.1 (List.mem_of_getElem? hret)
        rcases Server.act_point hact hmem Event.point_submitReturned with
          ⟨c, w, envelope, reply, commit, results, res', rfl, ht, hr, hres, -, heq⟩ | ⟨since, heq, -⟩
        · have hsim := h₂.endures.follows.sim
          rw [hsim.nodes] at hl
          obtain ⟨hid, rfl, -, -⟩ := Event.submitReturned.inj heq
          obtain rfl : n = l := hid.trans (hsim.node l hl).id_eq
          have hself : (C₂.perform n e).core n = e.server.core := by
            rw [Cluster.core, perform_servers_self]
          obtain ⟨hlead, -, -, -, hent⟩ := h₂.entered hs hl ht (hself ▸ hr) hres
          refine ⟨_, hent.frame ha.frame, ?_⟩
          rw [← (hsim.node n hl).term_eq]
          exact hrecent command i (by rw [ht]; rfl) hlead
        · cases heq
    · rw [hidle] at hcall
      cases hcall
    · exact absurd (List.getElem?_eq_some_iff.1 hret).1 (not_lt.2 hk)
  obtain ⟨T, hent, hnew⟩ := hold k command i res hk hret
  rcases hknown with rfl | ⟨T₀, l, -, k₀, hlead, hcom, hle, -⟩
  · exact hent.1
  · exact hle.trans_lt (hsince.lt_of_entered h₁.endures.follows.sim.reachable
      htrack.endures.follows.sim trivial hcom hent hnew)

/-- **A call that begins later gets a higher index than everything that was committed before**, in
every run, with or without crashes, in which no node strays: whatever any node had committed by the
moment `C₁`, at which the event loop of node `n` is idle, the results that node `n` returns after that
moment are those of entries above it. -/
theorem run_submit_late (hinit : C.Initial) (hr : Run (stepOrRestart m₀) C ts C₁)
    (hr' : Run (stepOrRestart m₀) C₁ us C') (hok : ∀ t ∈ ts ++ us, ¬ t.source.Strays t.action)
    (hn : n ∈ C.nodes) (hidle : (C₁.servers n).task = .idle) {k i : ℕ} {command : String}
    {res : ApplyResult} (hk : C₁.history.length ≤ k)
    (hret : C'.history[k]? = some (.submitReturned n command (some i) (Server.submitResult res)))
    {t : Transition (Cluster σ μ) RestartAction} (ht : t ∈ ts) {m : ℕ} (hm : m ∈ C.nodes) :
    (t.target.core m).commitIndex < i := by
  have hts : ∀ t ∈ ts, ¬ t.source.Strays t.action := fun t ht => hok t (List.mem_append_left _ ht)
  have hus : ∀ t ∈ us, ¬ t.source.Strays t.action := fun t ht => hok t (List.mem_append_right _ ht)
  obtain ⟨A₁, h₁, hknown, -⟩ := run_tracked hinit hr hts
  exact call_is_late h₁ hr' hus hn hidle (hknown t ht m hm) hk hret

deriving instance DecidableEq for Task

/-- Node 2 serves a client. -/
def submitAtTwo : List RestartCue :=
  ([.local 2 (.submit "SET y 2"), .local 2 .replicate, .deliver 12, .answer 5] : List Cue).map .cue

omit [Storage σ] [Snapshotable μ] [LawfulStorage σ] [DurableSnapshots σ] in
/-- Node 1 has committed a command and crashed; what the next leader appends is above it. -/
theorem run_submit_late_crashed : ∃ (ts us : List _) (C₁ C : Cluster StorageContents Recorder) (i : ℕ),
    Run (stepOrRestart Recorder.new) compactingNodes ts C₁ ∧
      Run (stepOrRestart Recorder.new) C₁ us C ∧ (C₁.core 1).commitIndex = 0 ∧
      C.history[1]? = some (.submitReturned 2 "SET y 2" (some i) (.ok "")) ∧
      ∃ t ∈ ts, (t.target.core 1).commitIndex = 2 ∧ (t.target.core 1).commitIndex < i := by
  obtain ⟨ts, C₁, hr, hok, ⟨t, ht, hcommit⟩, hback, hidle, hlen, hplay⟩ := exists_run_of_play
    (stepOrRestart Recorder.new) chooseOrRestart compactingNodes (crashBoth ++ [.cue (.local 2 .drop)])
    (P := fun ts C₁ => (∀ t ∈ ts, ¬ t.source.Strays t.action) ∧
      (∃ t ∈ ts, (t.target.core 1).commitIndex = 2) ∧ (C₁.core 1).commitIndex = 0 ∧
      (C₁.servers 2).task = .idle ∧ C₁.history.length ≤ 1 ∧
      ∃ r ∈ play (stepOrRestart Recorder.new) chooseOrRestart C₁ submitAtTwo,
        (∀ t ∈ r.1, ¬ t.source.Strays t.action) ∧
          r.2.history[1]? = some (.submitReturned 2 "SET y 2" (some 4) (.ok "")))
    (by decide +kernel)
  obtain ⟨us, C, hr', hok', hret⟩ := exists_run_of_play (stepOrRestart Recorder.new)
    chooseOrRestart C₁ submitAtTwo (P := fun us C => (∀ t ∈ us, ¬ t.source.Strays t.action) ∧
      C.history[1]? = some (.submitReturned 2 "SET y 2" (some 4) (.ok ""))) hplay
  have hret' : C.history[1]? =
    some (.submitReturned 2 "SET y 2" (some 4) (Server.submitResult (.ok ""))) := hret
  refine ⟨ts, us, C₁, C, 4, hr, hr', hback, hret, t, ht, hcommit, ?_⟩
  exact run_submit_late compactingNodes_initial hr hr'
    (fun t ht => (List.mem_append.1 ht).elim (hok t) (hok' t)) (by decide) hidle hlen hret' ht
    (by decide)

end Cluster

/-! ### What clients are told is explained by the history -/

section Explaining

variable [Snapshotable μ] {H H' : List String}

/-- The commands that follow in a list. -/
theorem take_add_of_getElem? {a : ℕ} {cs : List String} (h : ∀ k < cs.length, H[a + k]? = cs[k]?) :
    H.take (a + cs.length) = H.take a ++ cs := by
  rw [List.take_add]
  congr 1
  refine List.ext_getElem? fun k => ?_
  rcases Nat.lt_or_ge k cs.length with hlt | hge
  · rw [List.getElem?_take_of_lt hlt, List.getElem?_drop, h k hlt]
  · rw [List.getElem?_eq_none hge, List.getElem?_eq_none]
    exact (List.length_take_le _ _).trans hge

/-- **The history explains the results**: the command of a call that has returned one is at its place,
and the result is what the machine answers there. -/
def Explains (S : Setting) (m₀ : μ) (H : List String) (C : Cluster σ μ) (A : State ℕ LogEntry) :
    Prop :=
  ∀ n command i res,
    Event.submitReturned n command (some i) (Server.submitResult res) ∈ C.history →
    (∃ T, Entered S A n command i T) ∧ H[i - 1]? = some command ∧
      res = (StateMachine.apply (foldCommands m₀ (H.take (i - 1))) command).2

omit [Storage σ] in
theorem Explains.mono (h : Explains S m₀ H C A) {m : ℕ} (hf : Frame m A A') (hH : H <+: H')
    (hsame : C'.history = C.history) : Explains S m₀ H' C' A' := by
  intro n command i res hret
  rw [hsame] at hret
  obtain ⟨⟨T, hent⟩, hget, hres⟩ := h n command i res hret
  refine ⟨⟨T, hent.frame hf⟩, getElem?_of_grown hH hget, ?_⟩
  rw [take_of_grown hH ((Nat.sub_le _ _).trans ?_), hres]
  have := (List.getElem?_eq_some_iff.1 hget).1
  have := hent.1
  omega

variable [LawfulStorage σ] [DurableSnapshots σ] {nodes : List ℕ} {hnodup : nodes.Nodup}

/-- **The result of a call** is what the machine answers at the place of its entry. -/
theorem Replicates.answers (hrep : Replicates (.full nodes hnodup) m₀ H C A)
    (h : Tracks (.full nodes hnodup) C A) (hrep' : Replicates (.full nodes hnodup) m₀ H' C' A')
    (hsim' : Sim (.full nodes hnodup) C' A') (hH : H <+: H') {m : ℕ} (hf : Frame m A A')
    {action : LocalAction} (hs : C.step (.local n action) = some C') (hn : n ∈ nodes)
    {command : String} {i : ℕ} {waiting : List Envelope}
    (ht : (C.servers n).task = .replicating command i waiting) {peerId : ℕ}
    {reply : AppendEntriesResult} {commit : Option ℕ} {results : List (ℕ × ApplyResult)}
    (hr : (C.core n).handleAppendEntriesResult peerId i reply = .ok (C'.core n, commit, results))
    {res : ApplyResult} (hmem : (i, res) ∈ results) : H'[i - 1]? = some command ∧
      res = (StateMachine.apply (foldCommands m₀ (H'.take (i - 1))) command).2 := by
  obtain ⟨hl, hle, hby, hget, hent⟩ := h.entered hs hn ht hr hmem
  obtain ⟨happlied, es, x, hi, hes, hx, hres⟩ := RaftCore.handleAppendEntriesResult_mem hr hmem
  have hnode := h.endures.follows.sim.node n hn
  have hfold := hrep.folded n hn
  have hwithin := (hrep'.folded n hn).within
  have hpos := hent.1
  -- what is committed now is what the history has
  have hat {j : ℕ} {e : LogEntry} (hlt : j < i) (he : (A.log n)[j]? = some e) :
      H'[j]? = some e.command := by
    refine hrep'.command_at hsim' trivial (hby.frame hf) ?_ (by omega)
    rw [List.getElem?_take_of_lt (by omega), he]
  have hcommand : x.command = command := by
    obtain ⟨-, hx⟩ := hnode.log.getLogEntry_iff.1 hx
    rw [Option.some.inj (hx.symm.trans hget)]
  refine ⟨hat (by omega) hget, ?_⟩
  have hnext : H'.take (i - 1) = H.take (C.core n).lastApplied ++ es.map LogEntry.command := by
    rw [← take_of_grown hH hfold.within, ← take_add_of_getElem? fun k hk => ?_, List.length_map]
    · congr 1
      omega
    · rw [List.length_map] at hk
      have hk' := hes k hk
      obtain ⟨e, he⟩ : ∃ e, es[k]? = some e := ⟨_, List.getElem?_eq_getElem hk⟩
      rw [he] at hk'
      obtain ⟨-, hk'⟩ := hnode.log.getLogEntry_iff.1 hk'
      rw [List.getElem?_map, he, Option.map_some]
      refine hat (by omega) ?_
      rw [← hk']
      congr 1
      omega
  rw [hres, hcommand, hfold.stateMachine, ← foldCommands_append, hnext]

/-- **One step** is explained. -/
theorem Explains.step (hex : Explains (.full nodes hnodup) m₀ H C A)
    (hrep : Replicates (.full nodes hnodup) m₀ H C A) (h : Tracks (.full nodes hnodup) C A)
    (hrep' : Replicates (.full nodes hnodup) m₀ H' C' A') (hsim' : Sim (.full nodes hnodup) C' A')
    (hH : H <+: H') {m : ℕ} (hf : Frame m A A') {action : RestartAction}
    (hs : C.stepOrRestart m₀ action = some C') : Explains (.full nodes hnodup) m₀ H' C' A' := by
  rcases Cluster.history_of_step hs with hsame | ⟨l, a, e, ev, rfl, hl, hact, hmem, rfl, hnew⟩
  · exact hex.mono hf hH hsame
  intro n command i res hret
  rw [hnew] at hret
  rcases List.mem_append.1 hret with hret | hret
  · have hold : Explains (.full nodes hnodup) m₀ H' C A' := hex.mono hf hH rfl
    exact hold n command i res hret
  obtain rfl := List.mem_singleton.1 hret
  have hsim := h.endures.follows.sim
  rw [hsim.nodes] at hl
  rcases Server.act_point hact hmem Event.point_submitReturned with
    ⟨c, w, envelope, reply, commit, results, res', rfl, ht, hr, hres, -, heq⟩ | ⟨since, heq, -⟩
  · obtain ⟨hid, rfl, -, hresult⟩ := Event.submitReturned.inj heq
    obtain rfl : n = l := hid.trans (hsim.node l hl).id_eq
    obtain rfl : res = res' := by
      cases res <;> cases res' <;> simp [Server.submitResult] at hresult ⊢ <;> exact hresult
    have hself : (C.perform n e).core n = e.server.core := by
      rw [Cluster.core, Cluster.perform_servers_self]
    rw [← hself] at hr
    obtain ⟨-, -, -, -, hent⟩ := h.entered hs hl ht hr hres
    exact ⟨⟨_, hent.frame hf⟩, hrep.answers h hrep' hsim' hH hf hs hl ht hr hres⟩
  · cases heq

end Explaining

/-! ### The sequential history -/

/-- **The list of commands is a sequential history of the run** `ts`, which leads from `C` to `C'`.

* `submit`: the command of a call that has returned a result is at its place, and the result is what
  the machine answers there;
* `once`: no two calls have the same place;
* `read`: when a read returns, the machine of its node is the one after that many commands;
* `readAfter`, `submitAfter`: what begins after something has been returned is not placed before it. -/
structure Linearizes [Snapshotable μ] (m₀ : μ) (H : List String) (C C' : Cluster σ μ)
    (ts : List (Transition (Cluster σ μ) RestartAction)) : Prop where
  submit : ∀ n command i res,
    Event.submitReturned n command (some i) (Server.submitResult res) ∈ C'.history →
    0 < i ∧ H[i - 1]? = some command ∧
      res = (StateMachine.apply (foldCommands m₀ (H.take (i - 1))) command).2
  once : ∀ (j k : ℕ) n n' command command' i res res',
    C'.history[j]? = some (.submitReturned n command (some i) (Server.submitResult res)) →
    C'.history[k]? = some (.submitReturned n' command' (some i) (Server.submitResult res')) → j = k
  read : ∀ t ∈ ts, ∀ n since r,
    t.target.history = t.source.history ++ [.readReturned n since (.ok r)] →
    r ≤ H.length ∧ (t.target.core n).stateMachine = foldCommands m₀ (H.take r)
  readAfter : ∀ us vs C₁, ts = us ++ vs → Run (Cluster.stepOrRestart m₀) C us C₁ →
    Run (Cluster.stepOrRestart m₀) C₁ vs C' → ∀ ev ∈ C₁.history, ∀ p, ev.point = some p →
    ∀ n since r, C₁.history.length ≤ since → Event.readReturned n since (.ok r) ∈ C'.history → p ≤ r
  submitAfter : ∀ us vs C₁, ts = us ++ vs → Run (Cluster.stepOrRestart m₀) C us C₁ →
    Run (Cluster.stepOrRestart m₀) C₁ vs C' → ∀ ev ∈ C₁.history, ∀ p, ev.point = some p →
    ∀ n ∈ C.nodes, (C₁.servers n).task = .idle → ∀ k command i res, C₁.history.length ≤ k →
    C'.history[k]? = some (.submitReturned n command (some i) (Server.submitResult res)) → p < i

namespace Cluster

variable [Snapshotable μ] {C₁ : Cluster σ μ} {ts us : List (Transition (Cluster σ μ) RestartAction)}

/-- What clients have seen was told in some step. -/
theorem exists_told (hr : Run (stepOrRestart m₀) C ts C') (hinit : C.history = []) {k : ℕ}
    {ev : Event} (hev : C'.history[k]? = some ev) :
    ∃ us t vs, ts = us ++ t :: vs ∧ Run (stepOrRestart m₀) C us t.source ∧
      t.source.stepOrRestart m₀ t.action = some t.target ∧
      Run (stepOrRestart m₀) t.target vs C' ∧ t.source.history.length = k ∧
      t.target.history = t.source.history ++ [ev] := by
  induction hr with
  | nil =>
      rw [hinit] at hev
      cases hev
  | @snoc C₁ C₂ ts action hr hs ih =>
      rcases Nat.lt_or_ge k C₁.history.length with hlt | hge
      · have hev : C₁.history[k]? = some ev := by
          rcases history_of_step hs with hsame | ⟨-, -, -, ev', -, -, -, -, -, hnew⟩
          · rwa [← hsame]
          · rwa [hnew, List.getElem?_append_left hlt] at hev
        obtain ⟨us, t, vs, rfl, hus, ht, hvs, hlen, hnew⟩ := ih hev
        exact ⟨us, t, vs ++ [⟨C₁, action, C₂⟩], by simp, hus, ht, hvs.snoc action hs, hlen, hnew⟩
      · rcases history_of_step hs with hsame | ⟨-, -, -, ev', -, -, -, -, -, hnew⟩
        · rw [hsame] at hev
          exact absurd (List.getElem?_eq_some_iff.1 hev).1 (not_lt.2 hge)
        · rw [hnew, List.getElem?_append_right hge, List.getElem?_singleton] at hev
          split at hev
          · rename_i hzero
            obtain rfl := Option.some.inj hev
            exact ⟨ts, ⟨C₁, action, C₂⟩, [], rfl, hr, hs, .nil _,
              le_antisymm hge (Nat.sub_eq_zero_iff_le.1 hzero), hnew⟩
          · cases hev

variable [LawfulStorage σ] [DurableSnapshots σ]

/-- Two results at the same place are told by the same node, so the later one is that of a call that
had not begun. -/
theorem not_told_twice (hinit : C.Initial) (hr : Run (stepOrRestart m₀) C ts C')
    (hok : ∀ t ∈ ts, ¬ t.source.Strays t.action) {j k i : ℕ} (hjk : j < k) {command command' : String}
    {res res' : ApplyResult}
    (hj : C'.history[j]? = some (.submitReturned n command (some i) (Server.submitResult res)))
    (hk : C'.history[k]? = some (.submitReturned n command' (some i) (Server.submitResult res'))) :
    False := by
  obtain ⟨us, t, vs, rfl, hus, hs, hvs, hlen, hnew⟩ := exists_told hr hinit.history hj
  obtain ⟨A, h, -, -⟩ := run_tracked hinit hus fun t ht => hok t (List.mem_append_left _ ht)
  have hsim := h.endures.follows.sim
  obtain ⟨m, hm, hle⟩ := point_le_of_step h hs hnew Event.point_submitReturned
  -- the node is idle after the first result
  obtain ⟨hn, hidle⟩ : n ∈ C.nodes ∧ (t.target.servers n).task = .idle := by
    rcases history_of_step hs with hsame | ⟨l, a, e, ev, -, hl, hact, hmem, htarget, hnew'⟩
    · rw [hsame] at hnew
      exact absurd hnew (by simp)
    obtain rfl := List.singleton_inj.1 (List.append_cancel_left (hnew.symm.trans hnew'))
    rw [hsim.nodes] at hl
    rcases Server.act_point hact hmem Event.point_submitReturned with
      ⟨c, w, envelope, reply, commit, results, r, -, -, -, -, hidle, heq⟩ | ⟨since, heq, -⟩
    · obtain ⟨hid, -⟩ := Event.submitReturned.inj heq
      obtain rfl : n = l := hid.trans (hsim.node l hl).id_eq
      refine ⟨hl, ?_⟩
      rw [htarget, perform_servers_self]
      exact hidle
    · cases heq
  have hbefore : ∀ u ∈ us ++ [⟨t.source, t.action, t.target⟩], ¬ u.source.Strays u.action := by
    intro u hu
    rcases List.mem_append.1 hu with hu | hu
    · exact hok u (List.mem_append_left _ hu)
    · obtain rfl := List.mem_singleton.1 hu
      exact hok t (List.mem_append_right _ (List.mem_cons_self ..))
  obtain ⟨A', h', hknown, -⟩ := run_tracked hinit (hus.snoc _ hs) hbefore
  have hknown := (hknown _ (List.mem_append_right _ (List.mem_singleton_self _)) m hm).mono hle
  refine absurd (call_is_late h' hvs (fun u hu => hok u (by simp [hu])) hn hidle hknown ?_ hk)
    (lt_irrefl i)
  rw [hnew, List.length_append, List.length_singleton]
  omega

omit [LawfulStorage σ] [DurableSnapshots σ] in
/-- A read returns what its node has applied. -/
theorem read_of_step (h : Sim S C A) {action : RestartAction}
    (hs : C.stepOrRestart m₀ action = some C') {since r : ℕ}
    (hnew : C'.history = C.history ++ [.readReturned n since (.ok r)]) :
    n ∈ S.nodes ∧ (C'.core n).lastApplied = r := by
  rcases history_of_step hs with hsame | ⟨l, a, e, ev, -, hl, hact, hmem, rfl, hnew'⟩
  · rw [hsame] at hnew
    exact absurd hnew (by simp)
  obtain rfl := List.singleton_inj.1 (List.append_cancel_left (hnew.symm.trans hnew'))
  rw [h.nodes] at hl
  rcases Server.act_point hact hmem rfl with
    ⟨_, _, _, _, _, _, _, -, -, -, -, -, heq⟩ | ⟨since', heq, hcore, hr⟩
  · cases heq
  · obtain ⟨hid, -, -⟩ := Event.readReturned.inj heq
    obtain rfl : n = l := hid.trans (h.node l hl).id_eq
    rw [Cluster.core, perform_servers_self, hcore, ← hr]
    exact ⟨hl, rfl⟩

variable [LawfulSnapshotable μ]

/-- What is to be excluded: that a node strays, installs a snapshot that ends below what it has
applied, or that a leader begins a read before it has committed in its term. -/
def Misleads (C : Cluster σ μ) (action : RestartAction) : Prop :=
  C.GoesWrong action ∨ C.ReadsWrong action

instance (C : Cluster σ μ) (action : RestartAction) : Decidable (C.Misleads action) := by
  unfold Misleads
  infer_instance

/-- **What clients see is a sequential history**, in every run in which nodes compact their logs,
install snapshots, crash and come back, as long as nobody is misled: there is one list of commands
that explains every result and every read, and that keeps the order in which operations follow one
another. -/
theorem run_linearizable (hinit : C.Initial) (hm : ∀ n ∈ C.nodes, (C.core n).stateMachine = m₀)
    (hr : Run (stepOrRestart m₀) C ts C') (hok : ∀ t ∈ ts, ¬ t.source.Misleads t.action) :
    ∃ H : List String, Linearizes m₀ H C C' ts := by
  let S : Setting := .full _ hinit.nodup
  obtain ⟨A, H, htrack, hex, hreflect, hreads⟩ : ∃ A H, Tracks S C' A ∧ Explains S m₀ H C' A ∧
      (∀ t ∈ ts, ∀ n ∈ C.nodes, (t.target.core n).Reflects m₀ H) ∧
      ∀ t ∈ ts, ∀ n since r, t.target.history = t.source.history ++ [.readReturned n since (.ok r)] →
        n ∈ C.nodes ∧ (t.target.core n).lastApplied = r := by
    obtain ⟨A, H, htrack, -, hrest⟩ : ∃ A H, Tracks S C' A ∧ Replicates S m₀ H C' A ∧
        Explains S m₀ H C' A ∧ (∀ t ∈ ts, ∀ n ∈ C.nodes, (t.target.core n).Reflects m₀ H) ∧
        ∀ t ∈ ts, ∀ n since r,
          t.target.history = t.source.history ++ [.readReturned n since (.ok r)] →
          n ∈ C.nodes ∧ (t.target.core n).lastApplied = r := by
      refine hr.history (J := fun ts C' => ∃ A H, Tracks S C' A ∧ Replicates S m₀ H C' A ∧
        Explains S m₀ H C' A ∧ (∀ t ∈ ts, ∀ n ∈ C.nodes, (t.target.core n).Reflects m₀ H) ∧
        ∀ t ∈ ts, ∀ n since r,
          t.target.history = t.source.history ++ [.readReturned n since (.ok r)] →
          n ∈ C.nodes ∧ (t.target.core n).lastApplied = r)
        (P := fun t => ¬ t.source.GoesWrong t.action) ?_
        ⟨_, [], hinit.tracks rfl trivial, hinit.replicates rfl hm, ?_, by simp, by simp⟩
        fun t ht hno => hok t ht (Or.inl hno)
      · rintro ts C₁ action C₂ ⟨A₁, H₁, h₁, hrep₁, hex₁, hreflect₁, hreads₁⟩ hs hno
        obtain ⟨A₂, H₂, hf, hH, he₂, hrep₂⟩ := agrees_of_step h₁.endures hrep₁ hno hs
        have hsim₂ := he₂.follows.sim
        refine ⟨A₂, H₂, h₁.of_frame (fun hstray => hno hstray.goesWrong) hs he₂ hf, hrep₂,
          hex₁.step hrep₁ h₁ hrep₂ hsim₂ hH hf hs, fun t ht n hn => ?_, fun t ht => ?_⟩
        · rcases List.mem_append.1 ht with ht | ht
          · exact (hreflect₁ t ht n hn).mono hH
          · obtain rfl := List.mem_singleton.1 ht
            exact hrep₂.reflects hsim₂ trivial hn
        · rcases List.mem_append.1 ht with ht | ht
          · exact hreads₁ t ht
          · obtain rfl := List.mem_singleton.1 ht
            exact fun n since r hnew => read_of_step h₁.endures.follows.sim hs hnew
      · intro n command i res hret
        rw [hinit.history] at hret
        cases hret
    exact ⟨A, H, htrack, hrest⟩
  have hstray : ∀ t ∈ ts, ¬ t.source.Strays t.action :=
    fun t ht hno => hok t ht (Or.inl hno.goesWrong)
  have hwrong : ∀ t ∈ ts, ¬ t.source.ReadsWrong t.action := fun t ht hno => hok t ht (Or.inr hno)
  have hsim := htrack.endures.follows.sim
  refine ⟨H, fun n command i res hret => ?_, fun j k n n' command command' i res res' hj hk => ?_,
    fun t ht n since r hnew => ?_, ?_, ?_⟩
  · obtain ⟨⟨T, hent⟩, hget, hres⟩ := hex n command i res hret
    exact ⟨hent.1, hget, hres⟩
  · -- both entries are committed at the same index, so they are the same
    obtain ⟨⟨T, -, hlead, T₁, ℓ, hℓ, hget⟩, -⟩ := hex _ _ _ _ (List.mem_of_getElem? hj)
    obtain ⟨⟨T', -, hlead', T₁', ℓ', hℓ', hget'⟩, -⟩ := hex _ _ _ _ (List.mem_of_getElem? hk)
    obtain ⟨rfl, -, rfl⟩ := LogEntry.mk.inj (committed_agree hsim trivial hℓ hℓ' hget hget')
    obtain rfl : n = n' := Option.some.inj (hlead.symm.trans hlead')
    rcases lt_trichotomy j k with hjk | hjk | hjk
    · exact (not_told_twice hinit hr hstray hjk hj hk).elim
    · exact hjk
    · exact (not_told_twice hinit hr hstray hjk hk hj).elim
  · obtain ⟨hn, happlied⟩ := hreads t ht n since r hnew
    have hr := hreflect t ht n hn
    exact happlied ▸ ⟨hr.within, hr.stateMachine⟩
  · rintro us vs C₁ rfl hus hvs ev hev p hp n since r hsince hret
    obtain ⟨A₁, h₁, hknown⟩ := run_point_known hinit hus
      (fun t ht => hstray t (List.mem_append_left _ ht)) hev hp
    exact read_covers h₁.endures h₁.dated hvs (fun t ht => hwrong t (List.mem_append_right _ ht))
      hknown hsince hret
  · rintro us vs C₁ rfl hus hvs ev hev p hp n hn hidle k command i res hk hret
    obtain ⟨A₁, h₁, hknown⟩ := run_point_known hinit hus
      (fun t ht => hstray t (List.mem_append_left _ ht)) hev hp
    exact call_is_late h₁ hvs (fun t ht => hstray t (List.mem_append_right _ ht)) hn hidle hknown hk
      hret

omit [Storage σ] [Snapshotable μ] [LawfulStorage σ] [DurableSnapshots σ] [LawfulSnapshotable μ] in
/-- The command of a client of node 1 and the read at node 2, which leads after both have crashed,
have their places in one list. -/
theorem run_linearizable_crashed : ∃ (ts : List _) (C : Cluster StorageContents Recorder)
    (H : List String), Run (stepOrRestart Recorder.new) compactingNodes ts C ∧
      Linearizes Recorder.new H compactingNodes C ts ∧ H[1]? = some "SET x 1" ∧
      ∃ t ∈ ts, t.target.history = t.source.history ++ [.readReturned 2 1 (.ok 3)] ∧
        (t.target.core 2).stateMachine = foldCommands Recorder.new (H.take 3) := by
  obtain ⟨ts, C, hr, hok, hsubmit, t, ht, hread⟩ := exists_run_of_play
    (stepOrRestart Recorder.new) chooseOrRestart compactingNodes (crashBoth ++ readAtTwo)
    (P := fun ts C => (∀ t ∈ ts, ¬ t.source.Misleads t.action) ∧
      Event.submitReturned 1 "SET x 1" (some 2) (.ok "") ∈ C.history ∧
      ∃ t ∈ ts, t.target.history = t.source.history ++ [.readReturned 2 1 (.ok 3)])
    (by decide +kernel)
  obtain ⟨H, hH⟩ := run_linearizable compactingNodes_initial (fun _ _ => rfl) hr hok
  exact ⟨ts, C, H, hr, hH, (hH.submit 1 "SET x 1" 2 (.ok "") hsubmit).2.1, t, ht, hread,
    (hH.read t ht 2 1 3 hread).2⟩

end Cluster

end RaftVibe
