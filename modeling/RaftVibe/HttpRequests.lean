/-
**What becomes of a request.**

A request that the event loop works on goes on, or the event loop replies and is idle again.  A write
that is told a result has its entry at its place in the list of what is committed, and the result is
what the store answers there.  A read that is confirmed covers every place that was known when it
began, and the store that its handler then finds is the fold of the list up to some place, also if
the node is just applying commands to it.

Main definitions:

* `RaftVibe.Earlier` — the cluster, as it was at some moment;
* `RaftVibe.HttpRequest.PlacedAt` — the response is that of a place in the list;
* `RaftVibe.Service.RequestRel` — what is known of a request;
* `RaftVibe.Service.WorkedOn` — what is known while the event loop works on it.

Main results:

* `RaftVibe.Ledger.told` — **a call returns a result**;
* `RaftVibe.Ledger.applying` — what a handler finds between two commands;
* `RaftVibe.Service.WorkedOn.step` — **what becomes of the request that an event loop works on**.
-/

import RaftVibe.ClientHttp
import RaftVibe.Submissions

set_option relaxedAutoImplicit false
set_option autoImplicit false

namespace RaftVibe

open ReplicatedLog Runs

variable {σ μ : Type} [Storage σ] {S : Setting} {A A' A₁ : State ℕ LogEntry}
  {C C' C₁ : Cluster σ μ} {n : ℕ} {m₀ : μ}

/-! ### The event loop at work -/

section Loop

variable [Snapshotable μ] {s : Server σ μ} {now : ℕ} {action : LocalAction} {e : Effect σ μ}

/-- The read that the event loop works on, also if it is about to refuse it. -/
def Task.read : Task → Option ℕ
  | refusing since => some since
  | task => task.since?

/-- An event loop that is busy with a call goes on, or it is idle and has replied, or closed the reply
channel. -/
theorem Server.act_call (h : s.act now action = some e) {command : String} {i : ℕ}
    (hcall : s.task.call = some (command, i)) :
    e.server.task.call = some (command, i) ∧ e.events = [] ∨
      e.server.task = .idle ∧ (e.events = [] ∨
        ∃ result, e.events = [.submitReturned s.core.id command (some i) result]) := by
  cases action <;> simp only [act] at h <;> repeat' split at h
  all_goals first
    | (cases h; done)
    | obtain rfl := Option.some.inj h
  -- the tasks of most branches are no calls
  all_goals
    rw [‹s.task = _›] at hcall
    first
    | (cases hcall; done)
    | obtain ⟨rfl, rfl⟩ := Prod.mk.inj (Option.some.inj hcall)
  all_goals first
    | exact Or.inl ⟨rfl, rfl⟩
    | exact Or.inr ⟨rfl, Or.inl rfl⟩
    | exact Or.inr ⟨rfl, Or.inr ⟨_, rfl⟩⟩

/-- An event loop that is busy with a read goes on, or it is idle and has replied, or closed the reply
channel. -/
theorem Server.act_read (h : s.act now action = some e) {since : ℕ}
    (hsince : s.task.read = some since) :
    e.server.task.read = some since ∧ e.events = [] ∨
      e.server.task = .idle ∧ (e.events = [] ∨
        ∃ result, e.events = [.readReturned s.core.id since result]) := by
  cases action <;> simp only [act] at h <;> repeat' split at h
  all_goals first
    | (cases h; done)
    | obtain rfl := Option.some.inj h
  -- the tasks of most branches are no reads
  all_goals
    rw [‹s.task = _›] at hsince
    first
    | (cases hsince; done)
    | obtain rfl := Option.some.inj hsince
  all_goals first
    | exact Or.inl ⟨rfl, rfl⟩
    | exact Or.inr ⟨rfl, Or.inl rfl⟩
    | exact Or.inr ⟨rfl, Or.inr ⟨_, rfl⟩⟩

/-- The event loop takes a submit from its queue. -/
theorem Server.act_submit {command : String} (h : s.act now (.submit command) = some e) :
    (∃ i, e.server.task = .submitted command i ∧ e.events = []) ∨
      (e.server.task = .idle ∧
        ∃ err, e.events = [.submitReturned s.core.id command none (.error err)]) := by
  simp only [act] at h
  repeat' split at h
  all_goals first
    | (cases h; done)
    | (obtain rfl := Option.some.inj h
       first
       | exact Or.inl ⟨_, rfl, rfl⟩
       | exact Or.inr ⟨rfl, _, rfl⟩)

/-- The event loop takes a read from its queue. -/
theorem Server.act_readIndex (h : s.act now .readIndex = some e) :
    e.server.task = .readInvoked now ∧ e.server.core = s.core ∧
      e.events = [.readInvoked s.core.id] := by
  simp only [act] at h
  split at h
  · obtain rfl := Option.some.inj h
    exact ⟨rfl, rfl, rfl⟩
  · cases h

/-- What becomes of a call in one step of the cluster. -/
theorem Cluster.call_goes_on {action : Action} (hs : C.step action = some C') {command : String}
    {i : ℕ} (hcall : (C.servers n).task.call = some (command, i)) :
    (C'.servers n).task.call = some (command, i) ∨
      (n = action.node ∧ (C'.servers n).task = .idle ∧
        ∃ events, C'.history = C.history ++ events ∧
          (events = [] ∨ ∃ id result, events = [.submitReturned id command (some i) result])) := by
  by_cases hn : n = action.node
  · cases action with
    | deliver envelope =>
        left
        obtain rfl : n = envelope.target := hn
        obtain ⟨-, core, reply, -, rfl⟩ := step_deliver hs
        rw [C.receive_servers_self]
        exact hcall
    | «local» k action =>
        obtain rfl : n = k := hn
        obtain ⟨-, -, e, hact, rfl⟩ := step_act hs
        rw [C.perform_servers_self]
        rcases Server.act_call hact hcall with ⟨hsame, -⟩ | ⟨hidle, hevents⟩
        · exact Or.inl hsame
        · refine Or.inr ⟨rfl, hidle, e.events, rfl, hevents.imp id ?_⟩
          rintro ⟨result, heq⟩
          exact ⟨_, result, heq⟩
  · left
    rw [(step_after hs).2 n hn]
    exact hcall

/-- What becomes of a read in one step of the cluster. -/
theorem Cluster.read_goes_on {action : Action} (hs : C.step action = some C') {since : ℕ}
    (hread : (C.servers n).task.read = some since) :
    (C'.servers n).task.read = some since ∨
      (n = action.node ∧ n ∈ C.nodes ∧ (C'.servers n).task = .idle ∧
        ∃ events, C'.history = C.history ++ events ∧
          (events = [] ∨ ∃ result, events = [.readReturned (C.core n).id since result])) := by
  by_cases hn : n = action.node
  · cases action with
    | deliver envelope =>
        left
        obtain rfl : n = envelope.target := hn
        obtain ⟨-, core, reply, -, rfl⟩ := step_deliver hs
        rw [C.receive_servers_self]
        exact hread
    | «local» k action =>
        obtain rfl : n = k := hn
        obtain ⟨hmem, -, e, hact, rfl⟩ := step_act hs
        rw [C.perform_servers_self]
        rcases Server.act_read hact hread with ⟨hsame, -⟩ | ⟨hidle, hevents⟩
        · exact Or.inl hsame
        · exact Or.inr ⟨rfl, hmem, hidle, e.events, rfl, hevents⟩
  · left
    rw [(step_after hs).2 n hn]
    exact hread

end Loop

/-! ### What a step tells, and where it has its place -/

section Telling

variable [Snapshotable μ] {H H' : List String} {ℓ ℓ' : List LogEntry}
  {ts ts' : List (Transition (Cluster σ μ) RestartAction)} {nodes : List ℕ} {hnodup : nodes.Nodup}

/-- The cluster, as it was at some moment. -/
structure Earlier (S : Setting) (m₀ : μ) (C₁ : Cluster σ μ) (A₁ : State ℕ LogEntry)
    (C : Cluster σ μ) (A : State ℕ LogEntry) : Prop where
  tracks : Tracks S C₁ A₁
  run : ∃ us, Run (Cluster.stepOrRestart m₀) C₁ us C ∧ ∀ u ∈ us, ¬ u.source.ReadsWrong u.action
  since : Since A₁ A

theorem Earlier.refl (h : Tracks S C A) : Earlier S m₀ C A C A :=
  ⟨h, ⟨[], .nil C, by simp⟩, .refl⟩

theorem Earlier.step (h : Earlier S m₀ C₁ A₁ C A) {action : RestartAction}
    (hok : ¬ C.ReadsWrong action) (hs : C.stepOrRestart m₀ action = some C') {m : ℕ}
    (hf : Frame m A A') : Earlier S m₀ C₁ A₁ C' A' := by
  obtain ⟨us, hr, hus⟩ := h.run
  refine ⟨h.tracks, ⟨_, hr.snoc action hs, fun u hu => ?_⟩, h.since.tail ⟨m, hf⟩⟩
  rcases List.mem_append.1 hu with hu | hu
  · exact hus u hu
  · obtain rfl := List.mem_singleton.1 hu
    exact hok

variable [LawfulStorage σ] [DurableSnapshots σ]

/-- **A read that has begun since then covers what was known.** -/
theorem Earlier.covers (h : Earlier (.full nodes hnodup) m₀ C₁ A₁ C A) {p since r : ℕ}
    (hp : Known (.full nodes hnodup) C₁ A₁ p) (hsince : C₁.history.length ≤ since)
    (hread : Event.readReturned n since (.ok r) ∈ C.history) : p ≤ r := by
  obtain ⟨us, hr, hus⟩ := h.run
  exact Cluster.read_covers h.tracks.endures h.tracks.dated hr hus hp hsince hread

omit [LawfulStorage σ] [DurableSnapshots σ] in
/-- **An entry that is new since then is committed above what was known.** -/
theorem Earlier.lt_index (h : Earlier (.full nodes hnodup) m₀ C₁ A₁ C A)
    (hledger : Ledger ts (.full nodes hnodup) m₀ H ℓ C A) {p : ℕ}
    (hp : Known (.full nodes hnodup) C₁ A₁ p) {x : LogEntry} (hx : ℓ[x.index - 1]? = some x)
    (hpos : 0 < x.index) (hlead : ∃ l, A.leader x.term = some l)
    (hnew : ∀ l, A₁.leader x.term = some l → (A₁.llog x.term).length < x.index) : p < x.index := by
  obtain ⟨l, hlead⟩ := hlead
  obtain ⟨T', hby⟩ := hledger.accounts.covering.committed
  have hent : Entered (.full nodes hnodup) A l x.command x.index x.term :=
    ⟨hpos, hlead, T', ℓ, hby, hx⟩
  rcases hp with rfl | ⟨T₀, -, -, k₀, -, hcom, hle, -⟩
  · exact hpos
  · exact hle.trans_lt (h.since.lt_of_entered h.tracks.endures.follows.sim.reachable
      hledger.tracks.endures.follows.sim trivial hcom hent hnew)

omit [LawfulStorage σ] [DurableSnapshots σ] in
/-- The list has what is committed. -/
theorem Ledger.getElem?_of_entered (h : Ledger ts (.full nodes hnodup) m₀ H ℓ C A)
    {command : String} {i T : ℕ} (hent : Entered (.full nodes hnodup) A n command i T)
    (hle : i ≤ ℓ.length) : ℓ[i - 1]? = some ⟨T, i, command⟩ := by
  obtain ⟨hpos, -, T', ℓ₁, hℓ₁, hget⟩ := hent
  obtain ⟨T₂, hby⟩ := h.accounts.covering.committed
  obtain ⟨x, hx⟩ : ∃ x, ℓ[i - 1]? = some x := ⟨_, List.getElem?_eq_getElem (by omega)⟩
  rw [hx, Cluster.committed_agree h.tracks.endures.follows.sim trivial hby hℓ₁ hx hget]

/-- **A call returns a result**: its entry is at its place in the list, and the result is what the
machine answers there. -/
theorem Ledger.told (h : Ledger ts (.full nodes hnodup) m₀ H ℓ C A)
    (h' : Ledger ts' (.full nodes hnodup) m₀ H' ℓ' C' A') (hH : H <+: H') {m : ℕ} (hf : Frame m A A')
    {action : Action} (hs : C.step action = some C') {id i : ℕ} {command : String}
    {res : ApplyResult} (hnew : C'.history =
      C.history ++ [.submitReturned id command (some i) (Server.submitResult res)]) :
    action.node ∈ nodes ∧ 0 < i ∧ i ≤ (C'.core action.node).commitIndex ∧
      (C.core action.node).state = .leader ∧
      ℓ'[i - 1]? = some ⟨(C.core action.node).currentTerm, i, command⟩ ∧
      res = (StateMachine.apply
        (foldCommands m₀ ((ℓ'.map LogEntry.command).take (i - 1))) command).2 := by
  have hsim := h.tracks.endures.follows.sim
  have hrestart : C.stepOrRestart m₀ (.act action) = some C' := hs
  rcases Cluster.history_of_step hrestart with
    hsame | ⟨n, a, e, ev, heq, hn, hact, hmem, rfl, hnew'⟩
  · rw [hsame] at hnew
    exact absurd hnew (by simp)
  obtain rfl := List.singleton_inj.1 (List.append_cancel_left (hnew'.symm.trans hnew))
  obtain rfl := RestartAction.act.inj heq
  rw [hsim.nodes] at hn
  rcases Server.act_point hact hmem Event.point_submitReturned with
    ⟨c, w, envelope, reply, commit, results, res', rfl, ht, hr, hres, -, heq⟩ | ⟨since, heq, -⟩
  · obtain ⟨-, rfl, -, hresult⟩ := Event.submitReturned.inj heq
    obtain rfl : res = res' := by
      cases res <;> cases res' <;> simp [Server.submitResult] at hresult ⊢ <;> exact hresult
    have hself : (C.perform n e).core n = e.server.core := by
      rw [Cluster.core, Cluster.perform_servers_self]
    rw [← hself] at hr
    obtain ⟨hl, hle, -, -, hent⟩ := h.tracks.entered hs hn ht hr hres
    obtain ⟨-, hanswer⟩ := h.replicates.answers h.tracks h'.replicates
      h'.tracks.endures.follows.sim hH hf hs hn ht hr hres
    have hwithin : i ≤ ℓ'.length := hle.trans (h'.accounts.covering.node n hn)
    have happlied : i ≤ H'.length := by
      have hsim' := h'.tracks.endures.follows.sim
      refine hle.trans (le_trans ?_ (h'.replicates.folded n hn).within)
      exact (((hsim'.node n hn).commits trivial).applied).ge
    refine ⟨hn, hent.1, hle, hl, ?_, ?_⟩
    · show ℓ'[i - 1]? = some ⟨(C.core n).currentTerm, i, command⟩
      rw [(hsim.node n hn).term_eq]
      exact h'.getElem?_of_entered (hent.frame hf) hwithin
    · -- as far as it goes, the history is that of the list
      rw [hanswer]
      rcases h'.comparable with hpre | hpre
      · rw [take_of_grown hpre (by omega)]
      · rw [take_of_grown hpre (by rw [List.length_map]; omega)]
  · cases heq

end Telling

/-! ### While a node applies -/

section Applying

variable [Snapshotable μ] {H H' : List String} {ℓ ℓ' : List LogEntry}
  {ts ts' : List (Transition (Cluster σ μ) RestartAction)} {nodes : List ℕ} {hnodup : nodes.Nodup}

omit [Storage σ] [Snapshotable μ] in
/-- The vector in which a call commits is consecutive. -/
theorem RaftCore.Contiguous.committing {core : RaftCore σ μ} (h : core.Contiguous) {op : Op}
    (hfair : op.Fair core)
    (hheeded : ∀ args, op = .appendEntries args → ∃ args', args = core.heeded args') :
    Indexed core.snapshotLastIndex (op.committing core) := by
  cases op with
  | appendEntries args =>
      obtain ⟨args', rfl⟩ := hheeded args rfl
      obtain ⟨hexp, hcont, huncut⟩ := hfair
      by_cases hle : core.currentTerm ≤ args'.term ∧
          core.PrevMatches args'.prevLogIndex args'.prevLogTerm
      · have heq : core.heeded args' = args' := if_pos hle
        rw [heq] at hcont huncut ⊢
        have hprev := hle.2.le_lastLogIndex
        rw [h.lastLogIndex] at hprev
        refine Indexed.takeOver h hcont hprev fun hpos e he hconf => ?_
        exact huncut ⟨hpos, hle.1, hle.2, e, he, hconf⟩
      · have heq : core.heeded args' = { args' with entries := [] } := if_neg hle
        rw [heq]
        exact h
  | _ => exact h

omit [Storage σ] in
theorem Cluster.call_heeded {action : Action} {args : AppendEntriesArgs}
    (hcall : C.call action = some (.appendEntries args)) :
    ∃ args', args = (C.core action.node).heeded args' := by
  cases action with
  | deliver envelope =>
      have hop := Option.some.inj hcall
      cases hreq : envelope.request with
      | appendEntries args' =>
          rw [hreq] at hop
          exact ⟨args', (Op.appendEntries.inj hop).symm⟩
      | _ =>
          rw [hreq] at hop
          cases hop
  | «local» n action => exact absurd rfl ((Server.call_local hcall).1 args)

omit [Storage σ] in
/-- The commands that a node applies in a step are a slice of the vector. -/
theorem Cluster.applying_eq (C' : Cluster σ μ) {action : Action} {op : Op}
    (hcall : C.call action = some op) (hop : ∀ args, op ≠ .installSnapshot args)
    (hidx : Indexed (C.core action.node).snapshotLastIndex (op.committing (C.core action.node)))
    (hle : (C.core action.node).snapshotLastIndex ≤ (C.core action.node).lastApplied) :
    C.applying action C' = (((op.committing (C.core action.node)).drop
      ((C.core action.node).lastApplied - (C.core action.node).snapshotLastIndex)).take
        ((C'.core action.node).lastApplied - (C.core action.node).lastApplied)).map
          LogEntry.command := by
  rw [← hidx.filter_between hle]
  cases op with
  | installSnapshot args => exact absurd rfl (hop args)
  | _ => simp only [Cluster.applying, hcall]

variable [LawfulStorage σ] [DurableSnapshots σ]

/-- **What a node applies in a step** are the next commands of the list. -/
theorem Ledger.applying_next (h : Ledger ts (.full nodes hnodup) m₀ H ℓ C A)
    (h' : Ledger ts' (.full nodes hnodup) m₀ H' ℓ' C' A') {m : ℕ} (hf : Frame m A A')
    {action : Action} (hok : ¬ C.Strays (.act action)) (hs : C.step action = some C')
    (hn : action.node ∈ nodes) {j : ℕ} (hj : j < (C.applying action C').length) :
    (C.core action.node).lastApplied + j < (C'.core action.node).lastApplied ∧
      (ℓ'.map LogEntry.command)[(C.core action.node).lastApplied + j]? =
        (C.applying action C')[j]? := by
  have hsim := h.tracks.endures.follows.sim
  have hnode := hsim.node _ hn
  have hcommits := hnode.commits trivial
  have hcommits' := (h'.tracks.endures.follows.sim.node _ hn).commits trivial
  have hdiv : ¬ C.Diverges action := fun hdiv => hok (Or.inl hdiv)
  have hwithin := h'.accounts.covering.node _ hn
  cases hcall : C.call action with
  | none =>
      rw [Cluster.applying, hcall] at hj
      cases hj
  | some op =>
      have hop : ∀ args, op ≠ .installSnapshot args := by
        rintro args rfl
        rw [Cluster.applying, hcall] at hj
        cases hj
      have hfair := (hsim.fair trivial h.tracks.endures.follows.inLog (Cluster.offers_of_step hs)
        hdiv hcall).2
      have hidx := hnode.log.contiguous.committing hfair
        fun args heq => Cluster.call_heeded (heq ▸ hcall)
      obtain ⟨H₁, hdec, halong⟩ := hsim.commitsAlong (fun _ => ⟨inferInstance, inferInstance⟩)
        trivial (Cluster.allows_full hdiv) hs hcall hop
      have happlied := hcommits.applied
      have happlied' := hcommits'.applied
      have hsnap := hcommits.snapshot_le
      have happlying := Cluster.applying_eq C' hcall hop hidx (happlied ▸ hsnap)
      rw [happlying, List.length_map, List.length_take, lt_min_iff, List.length_drop] at hj
      obtain ⟨hjle, hjlt⟩ := hj
      -- the entry in the vector in which the call commits
      obtain ⟨e, he⟩ : ∃ e, (op.committing (C.core action.node))[
          (C.core action.node).lastApplied - (C.core action.node).snapshotLastIndex + j]? =
            some e := ⟨_, List.getElem?_eq_getElem (by omega)⟩
      have hindex := hidx _ e he
      have hcommand := halong e (List.mem_of_getElem? he) (by omega) (by omega)
      have hright : (C.applying action C')[j]? = some e.command := by
        rw [happlying, List.getElem?_map, List.getElem?_take_of_lt hjle, List.getElem?_drop, he,
          Option.map_some]
      have hplace : (C.core action.node).lastApplied + j = e.index - 1 := by omega
      refine ⟨by omega, ?_⟩
      rw [hright, hplace]
      -- what the call commits along, and the list, agree as far as they go
      obtain ⟨T, hby⟩ := h'.accounts.covering.committed
      rcases (hdec.frame hf).comparable ⟨T, _, hby, rfl⟩
        h'.tracks.endures.follows.sim.reachable trivial with hpre | ⟨r, hr⟩
      · exact getElem?_of_grown hpre hcommand
      · rwa [← hr, List.getElem?_append_left (by rw [List.length_map]; omega)] at hcommand

/-- **Between two commands of the apply loop** the store is the fold of the list up to there. -/
theorem Ledger.applying (h : Ledger ts (.full nodes hnodup) m₀ H ℓ C A)
    (h' : Ledger ts' (.full nodes hnodup) m₀ H' ℓ' C' A') (hℓ : ℓ <+: ℓ') {m : ℕ}
    (hf : Frame m A A') {action : Action} (hok : ¬ C.Strays (.act action))
    (hs : C.step action = some C') (hn : action.node ∈ nodes) {k : ℕ}
    (hk : k ≤ (C.applying action C').length) :
    (C.core action.node).lastApplied + k ≤ (C'.core action.node).commitIndex ∧
      foldCommands (C.core action.node).stateMachine ((C.applying action C').take k) =
        foldCommands m₀ ((ℓ'.map LogEntry.command).take ((C.core action.node).lastApplied + k)) := by
  have hsim := h.tracks.endures.follows.sim
  have hcommits := (hsim.node _ hn).commits trivial
  have hcommits' := (h'.tracks.endures.follows.sim.node _ hn).commits trivial
  have hgrown : ℓ.map LogEntry.command <+: ℓ'.map LogEntry.command := hℓ.map _
  obtain ⟨hin, hmachine, -⟩ := h.reflects hn
  rw [← take_of_grown hgrown hin] at hmachine
  refine ⟨?_, ?_⟩
  · cases k with
    | zero =>
        obtain ⟨_, -, -, hp⟩ := hsim.progress (fun _ => ⟨inferInstance, inferInstance⟩) trivial
          (Cluster.allows_full fun hdiv => hok (Or.inl hdiv)) hs
        rw [Nat.add_zero, hcommits.applied]
        exact hp.commit_le _ hn
    | succ j =>
        obtain ⟨hlt, -⟩ := h.applying_next h' hf hok hs hn hk
        rw [hcommits'.applied] at hlt
        exact hlt
  · have hsplit : (ℓ'.map LogEntry.command).take
        ((C.core action.node).lastApplied + ((C.applying action C').take k).length) =
        (ℓ'.map LogEntry.command).take (C.core action.node).lastApplied ++
          (C.applying action C').take k := by
      refine take_add_of_getElem? fun j hj => ?_
      rw [List.length_take, lt_min_iff] at hj
      rw [(h.applying_next h' hf hok hs hn hj.2).2, List.getElem?_take_of_lt hj.1]
    rw [List.length_take, min_eq_left hk] at hsplit
    rw [hsplit, foldCommands_append, hmachine]

end Applying

/-! ### What is known of a request -/

section Requests

variable {formats : KvFormats} {sv sv' : Service σ formats} {q q' : HttpRequest}
  {ℓ ℓ' : List LogEntry}

omit [Storage σ] in
/-- The place `p` was known before the time `t`. -/
def Service.Before (sv : Service σ formats) (t p : ℕ) : Prop :=
  ∃ id q time, sv.requests id = some q ∧ q.point = some (p, time) ∧ time < t

/-- **The response is that of the place** `p`: that of a write is what the store answers to its entry,
which stands there, and that of a read is what the store holds after as many commands. -/
def HttpRequest.PlacedAt (formats : KvFormats) (q : HttpRequest) (ℓ : List LogEntry) (p : ℕ) : Prop :=
  match q.request.command with
  | some _ => 0 < p ∧ (∃ x, q.entry = some x ∧ x.index = p ∧ ℓ[p - 1]? = some x) ∧
      q.stage = .answered (q.request.respond (foldCommands (.new : SharedKvStore formats)
        ((ℓ.map LogEntry.command).take (p - 1))))
  | none => p ≤ ℓ.length ∧ q.stage = .answered (q.request.respond
      (foldCommands (.new : SharedKvStore formats) ((ℓ.map LogEntry.command).take p)))

namespace Service

/-- Something was the case when the event loop took a request from its queue that was sent at the
time `t`, and the places that had been answered when it was sent were known. -/
def Began (S : Setting) (sv : Service σ formats) (A : State ℕ LogEntry) (t : ℕ)
    (P : Cluster σ (SharedKvStore formats) → State ℕ LogEntry → Prop) : Prop :=
  ∃ C₁ A₁, Earlier S .new C₁ A₁ sv.cluster A ∧ (∀ p, sv.Before t p → Known S C₁ A₁ p) ∧ P C₁ A₁

/-- The entry `x` was appended for the request, and it was new. -/
structure EntryRel (S : Setting) (sv : Service σ formats) (A : State ℕ LogEntry) (q : HttpRequest)
    (x : LogEntry) : Prop where
  command : q.request.command = some x.command
  leader : ∃ l, A.leader x.term = some l
  late : sv.Began S A q.sentAt fun _ A₁ =>
    ∀ l, A₁.leader x.term = some l → (A₁.llog x.term).length < x.index

/-- **What is known of a request.** -/
structure RequestRel (S : Setting) (sv : Service σ formats) (A : State ℕ LogEntry)
    (ℓ : List LogEntry) (q : HttpRequest) : Prop where
  sentAt_le : q.sentAt ≤ sv.clock
  unserved : q.stage = .sent → q.entry = none
  entry : ∀ x, q.entry = some x → EntryRel S sv A q x
  confirmed : ∀ r, q.stage = .confirmed r → q.node ∈ S.nodes ∧ q.request.command = none ∧
    r ≤ (sv.cluster.core q.node).lastApplied ∧ ∀ p, sv.Before q.sentAt p → p ≤ r
  point : ∀ p time, q.point = some (p, time) → q.sentAt ≤ time ∧ time ≤ sv.clock ∧
    Known S sv.cluster A p ∧ q.PlacedAt formats ℓ p ∧
      (q.request.command = none → ∀ p', sv.Before q.sentAt p' → p' ≤ p)
  answered : ∀ body, q.stage = .answered (.ok body) → q.point.isSome = true

/-- **The event loop works on a request.** -/
def WorkedOn (S : Setting) (sv : Service σ formats) (A : State ℕ LogEntry) (q : HttpRequest) : Prop :=
  match q.request.command with
  | some command => ∃ x, q.entry = some x ∧ x.command = command ∧
      (sv.cluster.servers q.node).task.call = some (command, x.index) ∧
      ((sv.cluster.core q.node).state = .leader → (sv.cluster.core q.node).currentTerm = x.term)
  | none => ∃ since, (sv.cluster.servers q.node).task.read = some since ∧
      sv.Began S A q.sentAt fun C₁ _ => C₁.history.length ≤ since

/-- **What any step does** to what is known: nothing of it is lost, and a place that is new was not
known before. -/
structure Later (S : Setting) (sv sv' : Service σ formats) (A A' : State ℕ LogEntry)
    (ℓ ℓ' : List LogEntry) : Prop where
  clock : sv.clock ≤ sv'.clock
  earlier : ∀ C₁ A₁, Earlier S .new C₁ A₁ sv.cluster A → Earlier S .new C₁ A₁ sv'.cluster A'
  leader : ∀ T l, A.leader T = some l → A'.leader T = some l
  known : ∀ p, Known S sv.cluster A p → Known S sv'.cluster A' p
  list : ℓ <+: ℓ'
  before : ∀ t p, t ≤ sv.clock → sv'.Before t p → sv.Before t p

variable {P : Cluster σ (SharedKvStore formats) → State ℕ LogEntry → Prop} {t : ℕ}

theorem Began.later (h : sv.Began S A t P) (hl : Later S sv sv' A A' ℓ ℓ') (ht : t ≤ sv.clock) :
    sv'.Began S A' t P := by
  obtain ⟨C₁, A₁, hearlier, hknown, hP⟩ := h
  exact ⟨C₁, A₁, hl.earlier C₁ A₁ hearlier, fun p hp => hknown p (hl.before t p ht hp), hP⟩

theorem EntryRel.later {x : LogEntry} (h : EntryRel S sv A q x) (hl : Later S sv sv' A A' ℓ ℓ')
    (hsent : q.sentAt ≤ sv.clock) (hrequest : q'.request = q.request) (hat : q'.sentAt = q.sentAt) :
    EntryRel S sv' A' q' x := by
  obtain ⟨l, hlead⟩ := h.leader
  refine ⟨hrequest ▸ h.command, ⟨l, hl.leader _ _ hlead⟩, ?_⟩
  rw [hat]
  exact h.late.later hl hsent

end Service

omit [Storage σ] in
/-- A response keeps its place when the list grows. -/
theorem HttpRequest.PlacedAt.mono {p : ℕ} (h : q.PlacedAt formats ℓ p) (hℓ : ℓ <+: ℓ') :
    q.PlacedAt formats ℓ' p := by
  have hgrown : ℓ.map LogEntry.command <+: ℓ'.map LogEntry.command := hℓ.map _
  unfold PlacedAt at h ⊢
  split at h
  · obtain ⟨hpos, ⟨x, hx, hidx, hget⟩, hstage⟩ := h
    have hlt := (List.getElem?_eq_some_iff.1 hget).1
    refine ⟨hpos, ⟨x, hx, hidx, ?_⟩, ?_⟩
    · obtain ⟨r, rfl⟩ := hℓ
      rw [List.getElem?_append_left hlt, hget]
    · rw [hstage, take_of_grown hgrown (by rw [List.length_map]; exact hlt.le)]
  · obtain ⟨hle, hstage⟩ := h
    refine ⟨hle.trans hℓ.length_le, ?_⟩
    rw [hstage, take_of_grown hgrown (by rw [List.length_map]; exact hle)]

omit [Storage σ] in
/-- Who has a place has been answered. -/
theorem HttpRequest.PlacedAt.answered {p : ℕ} (h : q.PlacedAt formats ℓ p) :
    ∃ response, q.stage = .answered response := by
  unfold PlacedAt at h
  split at h
  · exact ⟨_, h.2.2⟩
  · exact ⟨_, h.2⟩

namespace Service.RequestRel

theorem point_none (h : RequestRel S sv A ℓ q) (hstage : ∀ response, q.stage ≠ .answered response) :
    q.point = none := by
  cases hpoint : q.point with
  | none => rfl
  | some at' =>
      obtain ⟨p, time⟩ := at'
      obtain ⟨-, -, -, hplaced, -⟩ := h.point p time hpoint
      obtain ⟨response, hanswered⟩ := hplaced.answered
      exact absurd hanswered (hstage response)

/-- **A request that nobody works on** stays as it is, as long as its node has not crashed. -/
theorem later (h : RequestRel S sv A ℓ q) (hl : Later S sv sv' A A' ℓ ℓ')
    (happlied : ∀ r, q.stage = .confirmed r →
      (sv.cluster.core q.node).lastApplied ≤ (sv'.cluster.core q.node).lastApplied) :
    RequestRel S sv' A' ℓ' q where
  sentAt_le := h.sentAt_le.trans hl.clock
  unserved := h.unserved
  entry x hx := (h.entry x hx).later hl h.sentAt_le rfl rfl
  confirmed r hr := by
    obtain ⟨hn, hrequest, hle, hcovers⟩ := h.confirmed r hr
    exact ⟨hn, hrequest, hle.trans (happlied r hr),
      fun p hp => hcovers p (hl.before _ p h.sentAt_le hp)⟩
  point p time hp := by
    obtain ⟨hsent, htime, hknown, hplaced, hcovers⟩ := h.point p time hp
    exact ⟨hsent, htime.trans hl.clock, hl.known p hknown, hplaced.mono hl.list,
      fun hread p' hp' => hcovers hread p' (hl.before _ p' h.sentAt_le hp')⟩
  answered := h.answered

/-- **A request that fails**, or that the event loop takes: it has no place. -/
theorem moved (h : RequestRel S sv A ℓ q) (hl : Later S sv sv' A A' ℓ ℓ')
    (hat : q'.sentAt = q.sentAt) (hpoint : q'.point = none)
    (hentry : ∀ x, q'.entry = some x → EntryRel S sv' A' q' x) (hsent : q'.stage ≠ .sent)
    (hconfirmed : ∀ r, q'.stage ≠ .confirmed r) (hok : ∀ body, q'.stage ≠ .answered (.ok body)) :
    RequestRel S sv' A' ℓ' q' where
  sentAt_le := hat ▸ h.sentAt_le.trans hl.clock
  unserved hstage := absurd hstage hsent
  entry := hentry
  confirmed r hr := absurd hr (hconfirmed r)
  point p time hp := by
    rw [hpoint] at hp
    cases hp
  answered body hbody := absurd hbody (hok body)

/-- **A crash** of a node, where the others stay as they are. -/
theorem lose (h : RequestRel S sv A ℓ q) (hl : Later S sv sv' A A' ℓ ℓ') {n : ℕ}
    (hothers : ∀ m ≠ n, sv'.cluster.core m = sv.cluster.core m) :
    RequestRel S sv' A' ℓ' (q.lose n) := by
  have hlost (hstage : ∀ response, q.stage ≠ .answered response) :
      RequestRel S sv' A' ℓ' { q with stage := .lost } :=
    h.moved hl rfl (h.point_none hstage)
      (fun x hx => (h.entry x hx).later hl h.sentAt_le rfl rfl) (by simp) (by simp) (by simp)
  unfold HttpRequest.lose
  split
  · split
    · rename_i hstage
      exact hlost (by simp [hstage])
    · rename_i hstage
      exact hlost (by simp [hstage])
    · rename_i hno
      exact h.later hl fun r hr => absurd hr (hno r)
  · rename_i hn
    exact h.later hl fun _ _ => by rw [hothers _ hn]

/-- **A handler reads the store**, which is the fold of the list up to some place. -/
theorem readStore (h : RequestRel S sv A ℓ q) (hl : Later S sv sv' A A' ℓ ℓ')
    (hq : q.Confirmed q.node) {kv : SharedKvStore formats} {applied : ℕ}
    (hge : (sv.cluster.core q.node).lastApplied ≤ applied) (hle : applied ≤ ℓ'.length)
    (hkv : kv = foldCommands .new ((ℓ'.map LogEntry.command).take applied))
    (hknown : Known S sv'.cluster A' applied) :
    RequestRel S sv' A' ℓ' (q.readStore kv applied sv.clock) := by
  obtain ⟨r, hr⟩ := RequestStage.isConfirmed_iff.1 hq.2
  obtain ⟨hn, hrequest, happlied, hcovers⟩ := h.confirmed r hr
  refine ⟨h.sentAt_le.trans hl.clock, ?_, fun x hx => (h.entry x hx).later hl h.sentAt_le rfl rfl,
    ?_, fun p time hp => ?_, fun _ _ => rfl⟩
  · intro hs
    cases hs
  · intro r hr
    cases hr
  obtain ⟨rfl, rfl⟩ := Prod.mk.inj (Option.some.inj hp)
  refine ⟨h.sentAt_le, hl.clock, hknown, ?_, fun _ p' hp' => ?_⟩
  · have hplaced : applied ≤ ℓ'.length ∧ RequestStage.answered (q.request.respond kv) =
        .answered (q.request.respond (foldCommands (.new : SharedKvStore formats)
          ((ℓ'.map LogEntry.command).take applied))) := ⟨hle, by rw [hkv]⟩
    unfold HttpRequest.PlacedAt
    rw [show (q.readStore kv applied sv.clock).request.command = none from hrequest]
    exact hplaced
  · exact (hcovers p' (hl.before _ p' h.sentAt_le hp')).trans (happlied.trans hge)

end Service.RequestRel

end Requests

/-! ### The event loop replies -/

section Replying

variable {formats : KvFormats} {sv sv' : Service σ formats} {q : HttpRequest}
  {H H' : List String} {ℓ ℓ' : List LogEntry}
  {ts ts' : List (Transition (Cluster σ (SharedKvStore formats)) RestartAction)}
  {nodes : List ℕ} {hnodup : nodes.Nodup} {action : Action} {events : List Event} {m : ℕ}

namespace Service.RequestRel

/-- **A write fails.** -/
theorem writeFails (h : RequestRel S sv A ℓ q) (hl : Later S sv sv' A A' ℓ ℓ')
    {command : String} (hq : q.request.command = some command) {e : RaftError}
    (hreply : submitReply events = .error e) (hpoint : submitPoint events = none) :
    RequestRel S sv' A' ℓ' (q.conclude formats sv.clock events) := by
  rw [HttpRequest.conclude_of_error hq hreply hpoint]
  exact h.moved hl rfl rfl (fun x hx => (h.entry x hx).later hl h.sentAt_le rfl rfl) (by simp)
    (by simp) (by simp)

variable [LawfulStorage σ] [DurableSnapshots σ]

/-- **A write returns a result.** -/
theorem writeReturns (h : RequestRel (.full nodes hnodup) sv A ℓ q)
    (hl : Later (.full nodes hnodup) sv sv' A A' ℓ ℓ')
    (hledger : Ledger ts (.full nodes hnodup) .new H ℓ sv.cluster A)
    (hledger' : Ledger ts' (.full nodes hnodup) .new H' ℓ' sv'.cluster A') (hH : H <+: H')
    (hf : Frame m A A') (hs : sv.cluster.step action = some sv'.cluster)
    (hnode : q.node = action.node) {x : LogEntry} (hx : q.entry = some x)
    (hterm : (sv.cluster.core q.node).state = .leader →
      (sv.cluster.core q.node).currentTerm = x.term) {id : ℕ} (res : ApplyResult)
    (hnew : sv'.cluster.history = sv.cluster.history ++
      [.submitReturned id x.command (some x.index) (Server.submitResult res)]) :
    RequestRel (.full nodes hnodup) sv' A' ℓ' (q.conclude formats sv.clock
      [.submitReturned id x.command (some x.index) (Server.submitResult res)]) := by
  have hq := (h.entry x hx).command
  obtain ⟨hn, hpos, hcommit, hlead, hget, rfl⟩ := hledger.told hledger' hH hf hs hnew
  rw [HttpRequest.conclude_of_told hq]
  have hsame : (sv.cluster.core action.node).currentTerm = x.term := by
    rw [← hnode] at hlead ⊢
    exact hterm hlead
  rw [hsame] at hget
  refine ⟨h.sentAt_le.trans hl.clock, ?_, fun y hy => (h.entry y hy).later hl h.sentAt_le rfl rfl,
    ?_, fun p time hp => ?_, fun _ _ => rfl⟩
  · intro hstage
    cases hstage
  · intro r hr
    cases hr
  · obtain ⟨rfl, rfl⟩ := Prod.mk.inj (Option.some.inj hp)
    refine ⟨h.sentAt_le, hl.clock, (hledger'.tracks.sourced.node _ hn).mono hcommit, ?_,
      fun hread => ?_⟩
    · unfold HttpRequest.PlacedAt
      simp only [hq]
      exact ⟨hpos, ⟨x, hx, rfl, hget⟩, trivial⟩
    · rw [show q.request.command = none from hread] at hq
      cases hq

/-- **The event loop replies to a write.** -/
theorem concludeWrite (h : RequestRel (.full nodes hnodup) sv A ℓ q)
    (hl : Later (.full nodes hnodup) sv sv' A A' ℓ ℓ')
    (hledger : Ledger ts (.full nodes hnodup) .new H ℓ sv.cluster A)
    (hledger' : Ledger ts' (.full nodes hnodup) .new H' ℓ' sv'.cluster A') (hH : H <+: H')
    (hf : Frame m A A') (hs : sv.cluster.step action = some sv'.cluster)
    (hnode : q.node = action.node) {x : LogEntry} (hx : q.entry = some x)
    (hterm : (sv.cluster.core q.node).state = .leader →
      (sv.cluster.core q.node).currentTerm = x.term)
    (hnew : sv'.cluster.history = sv.cluster.history ++ events)
    (hevents : events = [] ∨
      ∃ id result, events = [.submitReturned id x.command (some x.index) result]) :
    RequestRel (.full nodes hnodup) sv' A' ℓ' (q.conclude formats sv.clock events) := by
  have hq := (h.entry x hx).command
  rcases hevents with rfl | ⟨id, result, rfl⟩
  · exact h.writeFails hl hq rfl rfl
  · cases result with
    | ok result =>
        exact h.writeReturns hl hledger hledger' hH hf hs hnode hx hterm (.ok result) hnew
    | error e =>
        cases e with
        | stateMachine err =>
            exact h.writeReturns hl hledger hledger' hH hf hs hnode hx hterm (.error err) hnew
        | _ => exact h.writeFails hl hq rfl rfl

omit [LawfulStorage σ] [DurableSnapshots σ] in
/-- **A read fails.** -/
theorem readFails (h : RequestRel S sv A ℓ q) (hl : Later S sv sv' A A' ℓ ℓ')
    (hq : q.request.command = none) (hstage : q.stage = .serving) {e : RaftError}
    (hreply : readReply events = .error e) :
    RequestRel S sv' A' ℓ' (q.conclude formats sv.clock events) := by
  rw [HttpRequest.conclude_of_readError hq hreply]
  exact h.moved hl rfl (h.point_none (by simp [hstage]))
    (fun x hx => (h.entry x hx).later hl h.sentAt_le rfl rfl) (by simp) (by simp) (by simp)

/-- **The event loop replies to a read.** -/
theorem concludeRead (h : RequestRel (.full nodes hnodup) sv A ℓ q)
    (hl : Later (.full nodes hnodup) sv sv' A A' ℓ ℓ')
    (hledger : Ledger ts (.full nodes hnodup) .new H ℓ sv.cluster A)
    (hs : sv.cluster.step action = some sv'.cluster) (hmem : q.node ∈ nodes)
    (hq : q.request.command = none) (hstage : q.stage = .serving) {since : ℕ}
    (hbegan : sv'.Began (.full nodes hnodup) A' q.sentAt fun C₁ _ => C₁.history.length ≤ since)
    (hnew : sv'.cluster.history = sv.cluster.history ++ events)
    (hevents : events = [] ∨
      ∃ result, events = [.readReturned (sv.cluster.core q.node).id since result]) :
    RequestRel (.full nodes hnodup) sv' A' ℓ' (q.conclude formats sv.clock events) := by
  rcases hevents with rfl | ⟨result, rfl⟩
  · exact h.readFails hl hq hstage rfl
  · cases result with
    | error e => exact h.readFails hl hq hstage rfl
    | ok r =>
        have hsim := hledger.tracks.endures.follows.sim
        rw [(hsim.node _ hmem).id_eq] at hnew
        have hs' : sv.cluster.stepOrRestart .new (.act action) = some sv'.cluster := hs
        obtain ⟨-, happlied⟩ := Cluster.read_of_step hsim hs' hnew
        obtain ⟨C₁, A₁, hearlier, hknown, hsince⟩ := hbegan
        have hpoint := h.point_none (by simp [hstage])
        rw [HttpRequest.conclude_of_read hq r rfl]
        refine ⟨h.sentAt_le.trans hl.clock, ?_,
          fun x hx => (h.entry x hx).later hl h.sentAt_le rfl rfl, fun r' hr => ?_,
          fun p time hp => ?_, ?_⟩
        · intro hs
          cases hs
        · obtain rfl := RequestStage.confirmed.inj hr
          refine ⟨hmem, hq, happlied.ge, fun p hp => ?_⟩
          · refine hearlier.covers (hknown p hp) hsince (n := q.node) ?_
            rw [hnew]
            exact List.mem_append_right _ (List.mem_singleton_self _)
        · rw [show q.point = some (p, time) from hp] at hpoint
          cases hpoint
        · intro body hbody
          cases hbody

end Service.RequestRel

variable [LawfulStorage σ] [DurableSnapshots σ]

/-- **What becomes of the request that an event loop works on**: it goes on, or the event loop is idle
and has replied. -/
theorem Service.WorkedOn.step (h : WorkedOn (.full nodes hnodup) sv A q)
    (hrel : RequestRel (.full nodes hnodup) sv A ℓ q) (hstage : q.stage = .serving)
    (hl : Later (.full nodes hnodup) sv sv' A A' ℓ ℓ')
    (hledger : Ledger ts (.full nodes hnodup) .new H ℓ sv.cluster A)
    (hledger' : Ledger ts' (.full nodes hnodup) .new H' ℓ' sv'.cluster A') (hH : H <+: H')
    (hf : Frame m A A') (hs : sv.cluster.step action = some sv'.cluster) :
    (WorkedOn (.full nodes hnodup) sv' A' q ∧ (sv'.cluster.servers q.node).task ≠ .idle) ∨
      (q.node = action.node ∧ (sv'.cluster.servers q.node).task = .idle ∧
        RequestRel (.full nodes hnodup) sv' A' ℓ' (q.conclude formats sv.clock
          (sv'.cluster.history.drop sv.cluster.history.length))) := by
  unfold WorkedOn at h ⊢
  split at h
  · rename_i command hq
    obtain ⟨x, hx, rfl, hcall, hterm⟩ := h
    rcases Cluster.call_goes_on hs hcall with hcall' | ⟨hnode, hidle, events, hnew, hevents⟩
    · left
      refine ⟨?_, ?_⟩
      · refine ⟨x, hx, rfl, hcall', fun hlead => ?_⟩
        rcases Cluster.step_call_cases hs hcall' with ⟨-, hbefore, -⟩ | ⟨-, hkept⟩
        · rw [hbefore] at hcall
          cases hcall
        · have hrole := hkept hlead
          rw [hrole.2]
          exact hterm (hrole.1.symm.trans hlead)
      · intro hidle
        rw [hidle] at hcall'
        cases hcall'
    · right
      refine ⟨hnode, hidle, ?_⟩
      rw [hnew, List.drop_left]
      exact hrel.concludeWrite hl hledger hledger' hH hf hs hnode hx hterm hnew hevents
  · rename_i hq
    obtain ⟨since, hread, hbegan⟩ := h
    have hbegan' := hbegan.later hl hrel.sentAt_le
    rcases Cluster.read_goes_on hs hread with hread' | ⟨hnode, hmem, hidle, events, hnew, hevents⟩
    · left
      refine ⟨?_, ?_⟩
      · exact ⟨since, hread', hbegan'⟩
      · intro hidle
        rw [hidle] at hread'
        cases hread'
    · right
      refine ⟨hnode, hidle, ?_⟩
      rw [hnew, List.drop_left]
      rw [hledger.tracks.endures.follows.sim.nodes] at hmem
      exact hrel.concludeRead hl hledger hs hmem hq hstage hbegan' hnew hevents

end Replying

end RaftVibe
