/-
**The client API is linearizable.**

Every request that has changed or read the store has its place in one list of commands, and the
response is what the store answers there.  A place belongs to one request, and a request that was sent
after another one has been answered does not have an earlier place.  Requests that are answered with
an error, or never, because their node has crashed, have a place or none; if they have one, it is not
before what was answered when they were sent.

Main definitions:

* `RaftVibe.Service.Owned` — every entry belongs to one request;
* `RaftVibe.Service.Knows` — what is known of a state of the service;
* `RaftVibe.Service.Linearizes` — the list of entries explains the responses.

Main results:

* `RaftVibe.Service.Knows.act`, `RaftVibe.Service.Knows.serve` — what the cluster does to the requests;
* `RaftVibe.Service.Knows.step` — **one step of the service**;
* `RaftVibe.Service.run_linearizes` — **what the client API answers is a sequential history**.
-/

import RaftVibe.HttpRequests

set_option relaxedAutoImplicit false
set_option autoImplicit false

namespace RaftVibe

open ReplicatedLog Runs

variable {σ : Type} [Storage σ] {S : Setting} {A A' : State ℕ LogEntry}

/-! ### One step of the service -/

section Stepping

variable {formats : KvFormats} {sv sv' : Service σ formats} {q q' : HttpRequest}
  {H H' : List String} {ℓ ℓ' : List LogEntry} {m : ℕ}
  {ts ts' : List (Transition (Cluster σ (SharedKvStore formats)) RestartAction)}
  {nodes : List ℕ} {hnodup : nodes.Nodup}

omit [Storage σ] in
theorem HttpRequest.of_update {requests : ℕ → Option HttpRequest} {id id' : ℕ}
    (h : Function.update requests id (some q) id' = some q') :
    (id' = id ∧ q' = q) ∨ (id' ≠ id ∧ requests id' = some q') := by
  by_cases hid : id' = id
  · subst hid
    rw [Function.update_self] at h
    exact Or.inl ⟨rfl, (Option.some.inj h).symm⟩
  · rw [Function.update_of_ne hid] at h
    exact Or.inr ⟨hid, h⟩

omit [Storage σ] in
/-- A request that goes on keeps its entry. -/
theorem HttpRequest.entry_update {requests : ℕ → Option HttpRequest} {id : ℕ}
    (hq : requests id = some q) (hsame : q'.entry = q.entry) :
    (∀ id' q₂ x, Function.update requests id (some q') id' = some q₂ → q₂.entry = some x →
      ∃ q₁, requests id' = some q₁ ∧ q₁.entry = some x) ∧
    ∀ id' q₁, requests id' = some q₁ →
      ∃ q₂, Function.update requests id (some q') id' = some q₂ ∧ q₂.entry = q₁.entry := by
  refine ⟨fun id' q₂ x hq₂ hx => ?_, fun id' q₁ hq₁ => ?_⟩
  · rcases of_update hq₂ with ⟨rfl, rfl⟩ | ⟨-, hq₂⟩
    · exact ⟨q, hq, hsame ▸ hx⟩
    · exact ⟨q₂, hq₂, hx⟩
  · by_cases hid : id' = id
    · subst hid
      obtain rfl := Option.some.inj (hq.symm.trans hq₁)
      exact ⟨q', Function.update_self .., hsame⟩
    · exact ⟨q₁, by rw [Function.update_of_ne hid, hq₁], rfl⟩

omit [Storage σ] in
/-- Every place of a request is one that it had before, or it has got it now. -/
def Service.PlacesNow (sv sv' : Service σ formats) : Prop :=
  ∀ id q', sv'.requests id = some q' → ∀ p time, q'.point = some (p, time) →
    time = sv.clock ∨ ∃ q, sv.requests id = some q ∧ q.point = some (p, time)

namespace Service

omit [Storage σ] in
theorem PlacesNow.before (h : sv.PlacesNow sv') {t p : ℕ} (ht : t ≤ sv.clock) (hp : sv'.Before t p) :
    sv.Before t p := by
  obtain ⟨id, q', time, hq', hpoint, htime⟩ := hp
  rcases h id q' hq' p time hpoint with rfl | ⟨q, hq, hpoint⟩
  · omega
  · exact ⟨id, q, time, hq, hpoint, htime⟩

theorem Later.of_same (hC : sv'.cluster = sv.cluster) (hclock : sv.clock ≤ sv'.clock)
    (hplaces : sv.PlacesNow sv') : Later S sv sv' A A ℓ ℓ where
  clock := hclock
  earlier _ _ h := hC ▸ h
  leader _ _ h := h
  known _ h := hC ▸ h
  list := List.prefix_rfl
  before _ _ ht hp := hplaces.before ht hp

variable [LawfulStorage σ] [DurableSnapshots σ]

theorem Later.of_step (h : Ledger ts (.full nodes hnodup) .new H ℓ sv.cluster A)
    {action : RestartAction} (hok : ¬ sv.cluster.Misleads action)
    (hs : sv.cluster.stepOrRestart .new action = some sv'.cluster) (hf : Frame action.node A A')
    (hℓ : ℓ <+: ℓ') (hclock : sv'.clock = sv.clock) (hplaces : sv.PlacesNow sv') :
    Later (.full nodes hnodup) sv sv' A A' ℓ ℓ' where
  clock := hclock.ge
  earlier _ _ hearlier := hearlier.step (fun hno => hok (Or.inr hno)) hs hf
  leader _ _ hlead := hf.leader_some hlead
  known _ hp := by
    have hstray : ¬ sv.cluster.Strays action := fun hno => hok (Or.inl hno.goesWrong)
    exact hp.advance (h.tracks.endures.advance_of_frame hstray hs hf)
  list := hℓ
  before _ _ ht hp := hplaces.before ht hp

omit [LawfulStorage σ] [DurableSnapshots σ]

/-! #### Which request an entry belongs to -/

omit [Storage σ] in
/-- **An entry belongs to one request**, which is the one whose call has appended it. -/
structure Owned (ts : List (Transition (Cluster σ (SharedKvStore formats)) RestartAction))
    (sv : Service σ formats) : Prop where
  owned : ∀ id q x, sv.requests id = some q → q.entry = some x → ∃ t ∈ ts, Appends t x
  owner : ∀ t ∈ ts, ∀ x, Appends t x → ∃ id q, sv.requests id = some q ∧ q.entry = some x
  once : ∀ id id' q q' x, sv.requests id = some q → sv.requests id' = some q' →
    q.entry = some x → q'.entry = some x → id = id'

omit [Storage σ] in
/-- A step in which no call appends anything. -/
theorem Owned.congr (h : Owned ts sv)
    (hts : ∀ x, (∃ t ∈ ts', Appends t x) ↔ ∃ t ∈ ts, Appends t x)
    (hback : ∀ id q' x, sv'.requests id = some q' → q'.entry = some x →
      ∃ q, sv.requests id = some q ∧ q.entry = some x)
    (hforth : ∀ id q, sv.requests id = some q →
      ∃ q', sv'.requests id = some q' ∧ q'.entry = q.entry) : Owned ts' sv' where
  owned id q' x hq' hx := by
    obtain ⟨q, hq, hx⟩ := hback id q' x hq' hx
    exact (hts x).2 (h.owned id q x hq hx)
  owner t ht x happ := by
    obtain ⟨t, ht, happ⟩ := (hts x).1 ⟨t, ht, happ⟩
    obtain ⟨id, q, hq, hx⟩ := h.owner t ht x happ
    obtain ⟨q', hq', hsame⟩ := hforth id q hq
    exact ⟨id, q', hq', hsame.trans hx⟩
  once id id' q q' x hq hq' hx hx' := by
    obtain ⟨q₁, hq₁, hx₁⟩ := hback id q x hq hx
    obtain ⟨q₂, hq₂, hx₂⟩ := hback id' q' x hq' hx'
    exact h.once id id' q₁ q₂ x hq₁ hq₂ hx₁ hx₂

omit [Storage σ] in
/-- **A call appends an entry** for the request that it serves. -/
theorem Owned.append (h : Owned ts sv)
    {t : Transition (Cluster σ (SharedKvStore formats)) RestartAction} {x : LogEntry} {id : ℕ}
    (happ : Appends t x) (honly : ∀ y, Appends t y → y = x)
    (hnew : ∀ u ∈ ts, ¬ Appends u x) (hid : ∀ q, sv.requests id = some q → q.entry = none)
    (hq : sv'.requests id = some q) (hx : q.entry = some x)
    (hothers : ∀ id' ≠ id, sv'.requests id' = sv.requests id') : Owned (ts ++ [t]) sv' where
  owned id' q' y hq' hy := by
    by_cases hne : id' = id
    · subst hne
      obtain rfl := Option.some.inj (hq.symm.trans hq')
      obtain rfl := Option.some.inj (hx.symm.trans hy)
      exact ⟨t, List.mem_append_right _ (List.mem_singleton_self _), happ⟩
    · rw [hothers id' hne] at hq'
      obtain ⟨u, hu, happ⟩ := h.owned id' q' y hq' hy
      exact ⟨u, List.mem_append_left _ hu, happ⟩
  owner u hu y happ' := by
    rcases List.mem_append.1 hu with hu | hu
    · obtain ⟨id', q', hq', hy⟩ := h.owner u hu y happ'
      refine ⟨id', q', ?_, hy⟩
      rwa [hothers id']
      rintro rfl
      rw [hid q' hq'] at hy
      cases hy
    · obtain rfl := List.mem_singleton.1 hu
      obtain rfl := honly y happ'
      exact ⟨id, q, hq, hx⟩
  once id₁ id₂ q₁ q₂ y hq₁ hq₂ hy₁ hy₂ := by
    -- the entry is not that of an earlier call
    have hother (id' : ℕ) (q' : HttpRequest) (hq' : sv'.requests id' = some q')
        (hy : q'.entry = some x) : id' = id := by
      by_contra hne
      rw [hothers id' hne] at hq'
      obtain ⟨u, hu, happ'⟩ := h.owned id' q' x hq' hy
      exact hnew u hu happ'
    by_cases hne₁ : id₁ = id
    · subst hne₁
      obtain rfl := Option.some.inj (hq.symm.trans hq₁)
      obtain rfl := Option.some.inj (hx.symm.trans hy₁)
      exact (hother id₂ q₂ hq₂ hy₂).symm
    · by_cases hne₂ : id₂ = id
      · subst hne₂
        obtain rfl := Option.some.inj (hq.symm.trans hq₂)
        obtain rfl := Option.some.inj (hx.symm.trans hy₂)
        exact hother id₁ q₁ hq₁ hy₁
      · rw [hothers id₁ hne₁] at hq₁
        rw [hothers id₂ hne₂] at hq₂
        exact h.once id₁ id₂ q₁ q₂ y hq₁ hq₂ hy₁ hy₂

/-! #### What is known of a state -/

/-- **What is known of a state** of the service. -/
structure Knows (ts : List (Transition (Cluster σ (SharedKvStore formats)) RestartAction))
    (S : Setting) (H : List String) (ℓ : List LogEntry) (sv : Service σ formats)
    (A : State ℕ LogEntry) : Prop where
  ledger : Ledger ts S .new H ℓ sv.cluster A
  request : ∀ id q, sv.requests id = some q → RequestRel S sv A ℓ q
  working : ∀ n id, sv.serving n = some id →
    ∃ q, sv.requests id = some q ∧ q.node = n ∧ q.stage = .serving ∧ WorkedOn S sv A q
  owned : Owned ts sv
  unused : ∀ id, sv.count ≤ id → sv.requests id = none

theorem WorkedOn.later_of_same (h : WorkedOn S sv A q) (hsent : q.sentAt ≤ sv.clock)
    (hl : Later S sv sv' A A' ℓ ℓ')
    (hsame : sv'.cluster.servers q.node = sv.cluster.servers q.node) : WorkedOn S sv' A' q := by
  have hcore : sv'.cluster.core q.node = sv.cluster.core q.node := by
    rw [Cluster.core, hsame, Cluster.core]
  unfold WorkedOn at h ⊢
  split at h
  · rw [hsame, hcore]
    exact h
  · obtain ⟨since, hread, hbegan⟩ := h
    rw [hsame]
    exact ⟨since, hread, hbegan.later hl hsent⟩

/-- Something happens to requests that no event loop works on. -/
theorem Knows.of_same (h : Knows ts S H ℓ sv A) (hC : sv'.cluster = sv.cluster)
    (hserving : sv'.serving = sv.serving) (hl : Later S sv sv' A A ℓ ℓ)
    (hrequest : ∀ id q, sv'.requests id = some q → RequestRel S sv' A ℓ q)
    (hkept : ∀ id q, sv.requests id = some q → q.stage = .serving → sv'.requests id = some q)
    (hback : ∀ id q' x, sv'.requests id = some q' → q'.entry = some x →
      ∃ q, sv.requests id = some q ∧ q.entry = some x)
    (hforth : ∀ id q, sv.requests id = some q →
      ∃ q', sv'.requests id = some q' ∧ q'.entry = q.entry)
    (hunused : ∀ id, sv'.count ≤ id → sv'.requests id = none) : Knows ts S H ℓ sv' A where
  ledger := hC ▸ h.ledger
  request := hrequest
  working n id hn := by
    rw [hserving] at hn
    obtain ⟨q, hq, hnode, hstage, hwork⟩ := h.working n id hn
    refine ⟨q, hkept id q hq hstage, hnode, hstage, ?_⟩
    exact hwork.later_of_same (h.request id q hq).sentAt_le hl (by rw [hC])
  owned := h.owned.congr (fun _ => Iff.rfl) hback hforth
  unused := hunused

/-- **A client sends a request.** -/
theorem Knows.send (h : Knows ts S H ℓ sv A) {node : ℕ} {request : KvRequest}
    (hs : sv.step (.send node request) = some sv') : Knows ts S H ℓ sv' A := by
  obtain rfl := Option.some.inj hs
  have hkept {id : ℕ} {q : HttpRequest} (hq : sv.requests id = some q) :
      Function.update sv.requests sv.count
        (some ⟨node, request, .sent, sv.clock, none, none⟩) id = some q := by
    rw [Function.update_of_ne, hq]
    rintro rfl
    rw [h.unused sv.count le_rfl] at hq
    cases hq
  have hl : Later S sv { sv with
      requests := Function.update sv.requests sv.count
        (some ⟨node, request, .sent, sv.clock, none, none⟩)
      count := sv.count + 1 } A A ℓ ℓ := by
    refine .of_same rfl le_rfl fun id q' hq' p time hp => ?_
    rcases HttpRequest.of_update hq' with ⟨-, rfl⟩ | ⟨-, hq⟩
    · cases hp
    · exact Or.inr ⟨q', hq, hp⟩
  refine h.of_same rfl rfl hl (fun id q hq => ?_) (fun id q hq _ => hkept hq)
    (fun id q' x hq' hx => ?_) (fun id q hq => ⟨q, hkept hq, rfl⟩) fun id hid => ?_
  · rcases HttpRequest.of_update hq with ⟨-, rfl⟩ | ⟨-, hq⟩
    · exact ⟨le_rfl, fun _ => rfl, by simp, by simp, by simp, by simp⟩
    · exact (h.request id q hq).later hl fun _ _ => le_rfl
  · rcases HttpRequest.of_update hq' with ⟨-, rfl⟩ | ⟨-, hq⟩
    · cases hx
    · exact ⟨q', hq, hx⟩
  · replace hid : sv.count < id := hid
    show Function.update sv.requests sv.count _ id = none
    rw [Function.update_of_ne hid.ne', h.unused id hid.le]

/-- **Time goes by.** -/
theorem Knows.tick (h : Knows ts S H ℓ sv A) {micros : ℕ}
    (hs : sv.step (.tick micros) = some sv') : Knows ts S H ℓ sv' A := by
  obtain rfl := Option.some.inj hs
  have hl : Later S sv { sv with clock := sv.clock + micros } A A ℓ ℓ :=
    .of_same rfl (Nat.le_add_right _ _) fun id q' hq' p time hp => Or.inr ⟨q', hq', hp⟩
  refine h.of_same rfl rfl hl (fun id q hq => ?_) (fun id q hq _ => hq) (fun id q' x hq' hx => ?_)
    (fun id q hq => ⟨q, hq, rfl⟩) h.unused
  · exact (h.request id q hq).later hl fun _ _ => le_rfl
  · exact ⟨q', hq', hx⟩

omit [Storage σ] in
theorem readStore_eq [Storage σ] {id : ℕ} (hs : sv.step (.readStore id) = some sv') :
    ∃ q, sv.requests id = some q ∧ q.Confirmed q.node ∧ sv' = { sv with
      requests := Function.update sv.requests id (some (q.readStore
        (sv.cluster.core q.node).stateMachine (sv.cluster.core q.node).lastApplied sv.clock)) } := by
  simp only [step] at hs
  split at hs
  · rename_i q hq
    split at hs
    · rename_i hconfirmed
      exact ⟨q, hq, hconfirmed, (Option.some.inj hs).symm⟩
    · cases hs
  · cases hs

/-- **A handler reads the store.** -/
theorem Knows.readStore (h : Knows ts (.full nodes hnodup) H ℓ sv A) {id : ℕ}
    (hs : sv.step (.readStore id) = some sv') : Knows ts (.full nodes hnodup) H ℓ sv' A := by
  obtain ⟨q, hq, hconfirmed, rfl⟩ := readStore_eq hs
  have hrel := h.request id q hq
  obtain ⟨-, hstage⟩ := hconfirmed
  obtain ⟨r, hr⟩ := RequestStage.isConfirmed_iff.1 hstage
  obtain ⟨hn, -⟩ := hrel.confirmed r hr
  have hsim := h.ledger.tracks.endures.follows.sim
  have hl : Later (.full nodes hnodup) sv { sv with
      requests := Function.update sv.requests id (some (q.readStore
        (sv.cluster.core q.node).stateMachine (sv.cluster.core q.node).lastApplied sv.clock)) }
      A A ℓ ℓ := by
    refine .of_same rfl le_rfl fun id' q' hq' p time hp => ?_
    rcases HttpRequest.of_update hq' with ⟨-, rfl⟩ | ⟨-, hq'⟩
    · exact Or.inl (Prod.mk.inj (Option.some.inj hp)).2.symm
    · exact Or.inr ⟨q', hq', hp⟩
  have hentry : (q.readStore (sv.cluster.core q.node).stateMachine
    (sv.cluster.core q.node).lastApplied sv.clock).entry = q.entry := rfl
  obtain ⟨hback, hforth⟩ := HttpRequest.entry_update hq hentry
  refine h.of_same rfl rfl hl (fun id' q' hq' => ?_) (fun id' q' hq' hserving => ?_) hback hforth
    fun id' hid => ?_
  · rcases HttpRequest.of_update hq' with ⟨-, rfl⟩ | ⟨-, hq'⟩
    · refine hrel.readStore hl ⟨rfl, hstage⟩ le_rfl (h.ledger.applied_le hn)
        (h.ledger.reflects hn).stateMachine ?_
      rw [((hsim.node _ hn).commits trivial).applied]
      exact h.ledger.tracks.sourced.node _ hn
    · exact (h.request id' q' hq').later hl fun _ _ => le_rfl
  · show Function.update sv.requests id _ id' = some q'
    rw [Function.update_of_ne, hq']
    rintro rfl
    obtain rfl := Option.some.inj (hq.symm.trans hq')
    rw [hr] at hserving
    cases hserving
  · show Function.update sv.requests id _ id' = none
    rw [Function.update_of_ne, h.unused id' hid]
    rintro rfl
    rw [h.unused id' hid] at hq
    cases hq

/-! #### A node crashes -/

omit [Storage σ] in
theorem step_restart [Storage σ] {node : ℕ} {reads : List (ℕ × ℕ)}
    (hs : sv.step (.cluster (.restart node) reads) = some sv') :
    sv.cluster.restart .new node = some sv'.cluster ∧
      sv'.serving = Function.update sv.serving node none ∧
      (∀ id, sv'.requests id = (sv.requests id).map (·.lose node)) ∧
      sv'.count = sv.count ∧ sv'.clock = sv.clock := by
  simp only [step] at hs
  split at hs
  · cases hs
  · split at hs
    · rename_i heq _
      cases heq
    · rename_i heq hC
      obtain rfl := RestartAction.restart.inj heq
      obtain rfl := Option.some.inj hs
      exact ⟨hC, rfl, fun _ => rfl, rfl, rfl⟩
    · cases hs

omit [Storage σ] in
/-- A step that is no call of a client appends nothing. -/
theorem not_appends_of_not_call {action : RestartAction} (hcall : ¬ action.isCall = true)
    {C C' : Cluster σ (SharedKvStore formats)} (x : LogEntry) : ¬ Appends ⟨C, action, C'⟩ x := by
  rintro ⟨n, hact, -⟩
  obtain rfl : action = _ := hact
  exact hcall rfl

omit [Storage σ] in
theorem appends_snoc_iff (ts : List (Transition (Cluster σ (SharedKvStore formats)) RestartAction))
    {t : Transition (Cluster σ (SharedKvStore formats)) RestartAction}
    (hno : ∀ x, ¬ Appends t x) (x : LogEntry) :
    (∃ u ∈ ts ++ [t], Appends u x) ↔ ∃ u ∈ ts, Appends u x := by
  refine ⟨?_, ?_⟩
  · rintro ⟨u, hu, happ⟩
    rcases List.mem_append.1 hu with hu | hu
    · exact ⟨u, hu, happ⟩
    · obtain rfl := List.mem_singleton.1 hu
      exact absurd happ (hno x)
  · rintro ⟨u, hu, happ⟩
    exact ⟨u, List.mem_append_left _ hu, happ⟩

variable [formats.Lawful] [LawfulStorage σ] [DurableSnapshots σ]

/-- **A node crashes and comes back**, and its handlers are gone. -/
theorem Knows.restart (h : Knows ts (.full nodes hnodup) H ℓ sv A) {node : ℕ} {reads : List (ℕ × ℕ)}
    (hok : ¬ sv.cluster.Misleads (.restart node))
    (hs : sv.step (.cluster (.restart node) reads) = some sv') :
    ∃ ts' H' ℓ' A', Knows ts' (.full nodes hnodup) H' ℓ' sv' A' := by
  obtain ⟨hC, hserving, hrequests, hcount, hclock⟩ := step_restart hs
  have hstep : sv.cluster.stepOrRestart .new (.restart node) = some sv'.cluster := hC
  obtain ⟨A', H', r, hf, hH, hledger'⟩ := h.ledger.step (fun hno => hok (Or.inl hno)) hstep
  have hback {id : ℕ} {q' : HttpRequest} (hq' : sv'.requests id = some q') :
      ∃ q, sv.requests id = some q ∧ q' = q.lose node := by
    rw [hrequests] at hq'
    obtain ⟨q, hq, rfl⟩ := Option.map_eq_some_iff.1 hq'
    exact ⟨q, hq, rfl⟩
  have hforth {id : ℕ} {q : HttpRequest} (hq : sv.requests id = some q) :
      sv'.requests id = some (q.lose node) := by
    rw [hrequests, hq, Option.map_some]
  have hl : Later (.full nodes hnodup) sv sv' A A' ℓ (ℓ ++ r) := by
    refine .of_step h.ledger hok hstep hf (List.prefix_append ℓ r) hclock fun id q' hq' p time hp => ?_
    obtain ⟨q, hq, rfl⟩ := hback hq'
    exact Or.inr ⟨q, hq, (q.lose_records node).2 ▸ hp⟩
  refine ⟨_, H', ℓ ++ r, A', hledger', fun id q' hq' => ?_, fun n id hn => ?_,
    h.owned.congr (appends_snoc_iff ts (not_appends_of_not_call (by simp [RestartAction.isCall])))
      (fun id q' x hq' hx => ?_) fun id q hq => ?_, fun id hid => ?_⟩
  · obtain ⟨q, hq, rfl⟩ := hback hq'
    refine (h.request id q hq).lose hl fun m hm => ?_
    rw [Cluster.core, Cluster.restart_servers_ne hC hm, Cluster.core]
  · rw [hserving] at hn
    by_cases hne : n = node
    · subst hne
      rw [Function.update_self] at hn
      cases hn
    · rw [Function.update_of_ne hne] at hn
      obtain ⟨q, hq, rfl, hstage, hwork⟩ := h.working n id hn
      refine ⟨q, ?_, rfl, hstage, ?_⟩
      · rw [hforth hq, HttpRequest.lose_of_ne hne]
      · exact hwork.later_of_same (h.request id q hq).sentAt_le hl
          (Cluster.restart_servers_ne hC hne)
  · obtain ⟨q, hq, rfl⟩ := hback hq'
    exact ⟨q, hq, (q.lose_records node).1 ▸ hx⟩
  · exact ⟨q.lose node, hforth hq, (q.lose_records node).1⟩
  · rw [hrequests, h.unused id (hcount ▸ hid), Option.map_none]

omit [formats.Lawful] [LawfulStorage σ] [DurableSnapshots σ]

/-! #### The cluster moves on -/

omit [Storage σ] in
/-- The event loop of the node has replied, or there is nothing to reply to. -/
theorem settle_cases (sv : Service σ formats) (node : ℕ) (C : Cluster σ (SharedKvStore formats)) :
    ((∀ id, sv.serving node = some id → (C.servers node).task ≠ .idle) ∧
      sv.settle node C = { sv with cluster := C }) ∨
    ∃ id, sv.serving node = some id ∧ (C.servers node).task = .idle ∧
      sv.settle node C = { sv with
        cluster := C
        serving := Function.update sv.serving node none
        requests := Function.update sv.requests id ((sv.requests id).map fun q =>
          q.conclude formats sv.clock (C.history.drop sv.cluster.history.length)) } := by
  unfold settle
  split
  · rename_i id hid hidle
    exact Or.inr ⟨id, hid, hidle, rfl⟩
  · rename_i hno
    exact Or.inl ⟨fun id hid hidle => hno id hid hidle, rfl⟩

omit [Storage σ] in
theorem of_readWithin {node : ℕ} {commands : List String} {reads : List (ℕ × ℕ)} {id : ℕ}
    (h : (sv.readWithin node commands reads).requests id = some q') :
    sv.requests id = some q' ∨ ∃ q k, sv.requests id = some q ∧ (id, k) ∈ reads ∧
      q' = q.readStore (foldCommands (sv.cluster.core node).stateMachine (commands.take k))
        ((sv.cluster.core node).lastApplied + k) sv.clock := by
  simp only [readWithin] at h
  split at h
  · rename_i k hk
    obtain ⟨q, hq, rfl⟩ := Option.map_eq_some_iff.1 h
    obtain ⟨us, vs, rfl, -⟩ := List.lookup_eq_some_iff.1 hk
    exact Or.inr ⟨q, k, hq, by simp, rfl⟩
  · exact Or.inl h

omit [Storage σ] in
/-- A handler that reads the store keeps the entry of its request. -/
theorem readWithin_entry {node : ℕ} {commands : List String} {reads : List (ℕ × ℕ)} {id : ℕ}
    {x : LogEntry} (hq' : (sv.readWithin node commands reads).requests id = some q')
    (hx : q'.entry = some x) : ∃ q, sv.requests id = some q ∧ q.entry = some x := by
  rcases of_readWithin hq' with hq | ⟨q, k, hq, -, rfl⟩
  · exact ⟨q', hq, hx⟩
  · exact ⟨q, hq, hx⟩

omit [Storage σ] in
/-- The places that handlers read are known now. -/
theorem readWithin_point {node : ℕ} {commands : List String} {reads : List (ℕ × ℕ)} {id : ℕ}
    (hq' : (sv.readWithin node commands reads).requests id = some q') {p time : ℕ}
    (hp : q'.point = some (p, time)) :
    time = sv.clock ∨ ∃ q, sv.requests id = some q ∧ q.point = some (p, time) := by
  rcases of_readWithin hq' with hq | ⟨q, k, -, -, rfl⟩
  · exact Or.inr ⟨q', hq, hp⟩
  · exact Or.inl (Prod.mk.inj (Option.some.inj hp)).2.symm

omit [Storage σ] in
theorem exists_readWithin (node : ℕ) (commands : List String) (reads : List (ℕ × ℕ)) {id : ℕ}
    (hq : sv.requests id = some q) :
    ∃ q', (sv.readWithin node commands reads).requests id = some q' ∧ q'.entry = q.entry := by
  simp only [readWithin]
  split
  · rw [hq, Option.map_some]
    exact ⟨_, rfl, rfl⟩
  · exact ⟨q, hq, rfl⟩

omit [Storage σ] in
/-- Where there is no request nothing is read. -/
theorem readWithin_eq_none (node : ℕ) (commands : List String) (reads : List (ℕ × ℕ)) {id : ℕ}
    (hnone : sv.requests id = none) :
    (sv.readWithin node commands reads).requests id = none := by
  simp only [readWithin]
  split
  · rw [hnone, Option.map_none]
  · exact hnone

omit [Storage σ] in
/-- A request that an event loop works on reads no store. -/
theorem CanRead.of_serving {node : ℕ} {commands : List String} {reads : List (ℕ × ℕ)}
    (h : sv.CanRead node commands reads) {id : ℕ} (hq : sv.requests id = some q)
    (hstage : q.stage = .serving) : (sv.readWithin node commands reads).requests id = some q := by
  simp only [readWithin]
  split
  · rename_i k hk
    obtain ⟨us, vs, rfl, -⟩ := List.lookup_eq_some_iff.1 hk
    obtain ⟨-, q', hq', -, hconfirmed⟩ := h (id, k) (by simp)
    obtain rfl := Option.some.inj (hq.symm.trans hq')
    rw [hstage] at hconfirmed
    cases hconfirmed
  · exact hq

omit [Storage σ] in
/-- Something has happened at a node that is no call of a client, and handlers have read the store of
the node in the meantime. -/
structure Moves [Storage σ] (sv sv' : Service σ formats) (action : Action) (reads : List (ℕ × ℕ)) :
    Prop where
  not_call : ¬ (RestartAction.act action).isCall = true
  step : sv.cluster.step action = some sv'.cluster
  can : sv.CanRead action.node (sv.cluster.applying action sv'.cluster) reads
  count : sv'.count = sv.count
  clock : sv'.clock = sv.clock

theorem step_cluster {action : Action} {reads : List (ℕ × ℕ)}
    (hs : sv.step (.cluster (.act action) reads) = some sv') :
    Moves sv sv' action reads ∧
      (((∀ id, sv.serving action.node = some id →
          (sv'.cluster.servers action.node).task ≠ .idle) ∧ sv'.serving = sv.serving ∧
        sv'.requests = (sv.readWithin action.node
          (sv.cluster.applying action sv'.cluster) reads).requests) ∨
      ∃ id, sv.serving action.node = some id ∧ (sv'.cluster.servers action.node).task = .idle ∧
        sv'.serving = Function.update sv.serving action.node none ∧
        sv'.requests = Function.update (sv.readWithin action.node
          (sv.cluster.applying action sv'.cluster) reads).requests id
            (((sv.readWithin action.node
              (sv.cluster.applying action sv'.cluster) reads).requests id).map fun q =>
                q.conclude formats sv.clock
                  (sv'.cluster.history.drop sv.cluster.history.length))) := by
  simp only [step] at hs
  split at hs
  · cases hs
  · rename_i hcall
    split at hs
    · rename_i C heq hC
      obtain rfl := RestartAction.act.inj heq
      split at hs
      · rename_i hcan
        obtain rfl := Option.some.inj hs
        rcases settle_cases (sv.readWithin action.node (sv.cluster.applying action C) reads)
          action.node C with ⟨hbusy, hsettle⟩ | ⟨id, hid, hidle, hsettle⟩
        · rw [hsettle]
          exact ⟨⟨hcall, hC, hcan, rfl, rfl⟩, Or.inl ⟨hbusy, rfl, rfl⟩⟩
        · rw [hsettle]
          exact ⟨⟨hcall, hC, hcan, rfl, rfl⟩, Or.inr ⟨id, hid, hidle, rfl, rfl⟩⟩
      · cases hs
    · rename_i heq _
      cases heq
    · cases hs

variable [LawfulStorage σ] [DurableSnapshots σ]

omit [LawfulStorage σ] [DurableSnapshots σ] in
/-- No node takes back what it has applied. -/
theorem lastApplied_le [LawfulStorage σ] [DurableSnapshots σ]
    (hledger : Ledger ts (.full nodes hnodup) .new H ℓ sv.cluster A)
    (hledger' : Ledger ts' (.full nodes hnodup) .new H' ℓ' sv'.cluster A') {action : Action}
    (hok : ¬ sv.cluster.Strays (.act action)) (hs : sv.cluster.step action = some sv'.cluster)
    {n : ℕ} (hn : n ∈ nodes) :
    (sv.cluster.core n).lastApplied ≤ (sv'.cluster.core n).lastApplied := by
  have hsim := hledger.tracks.endures.follows.sim
  have hsim' := hledger'.tracks.endures.follows.sim
  obtain ⟨_, -, -, hp⟩ := hsim.progress (fun _ => ⟨inferInstance, inferInstance⟩) trivial
    (Cluster.allows_full fun hdiv => hok (Or.inl hdiv)) hs
  rw [((hsim.node _ hn).commits trivial).applied, ((hsim'.node _ hn).commits trivial).applied]
  exact hp.commit_le _ hn

section Moving

variable {action : Action} {reads : List (ℕ × ℕ)} (hm : Moves sv sv' action reads)

include hm

/-- The requests of which the event loop does not tell anything. -/
theorem Moves.request (h : Knows ts (.full nodes hnodup) H ℓ sv A)
    (hl : Later (.full nodes hnodup) sv sv' A A' ℓ ℓ')
    (hledger' : Ledger ts' (.full nodes hnodup) .new H' ℓ' sv'.cluster A') (hf : Frame m A A')
    (hok : ¬ sv.cluster.Misleads (.act action)) {id : ℕ}
    (hq' : (sv.readWithin action.node (sv.cluster.applying action sv'.cluster) reads).requests id =
      some q') : RequestRel (.full nodes hnodup) sv' A' ℓ' q' := by
  have hstray : ¬ sv.cluster.Strays (.act action) := fun hno => hok (Or.inl hno.goesWrong)
  rcases of_readWithin hq' with hq | ⟨q, k, hq, hk, rfl⟩
  · have hrel := h.request id q' hq
    refine hrel.later hl fun r hr => ?_
    exact lastApplied_le h.ledger hledger' hstray hm.step (hrel.confirmed r hr).1
  · have hrel := h.request id q hq
    obtain ⟨hle, q₁, hq₁, hnode, hstage⟩ := hm.can (id, k) hk
    obtain rfl := Option.some.inj (hq.symm.trans hq₁)
    obtain ⟨r, hr⟩ := RequestStage.isConfirmed_iff.1 hstage
    obtain ⟨hn, -⟩ := hrel.confirmed r hr
    rw [hnode] at hn
    obtain ⟨hbound, hfold⟩ := h.ledger.applying hledger' hl.list hf hstray hm.step hn hle
    refine hrel.readStore hl ⟨rfl, hstage⟩ ?_ (hbound.trans (hledger'.accounts.covering.node _ hn))
      hfold ((hledger'.tracks.sourced.node _ hn).mono hbound)
    rw [hnode]
    exact Nat.le_add_right _ _

/-- **Nobody is told anything.** -/
theorem Moves.quiet (h : Knows ts (.full nodes hnodup) H ℓ sv A)
    (hok : ¬ sv.cluster.Misleads (.act action)) (hf : Frame action.node A A') (hH : H <+: H')
    (hℓ : ℓ <+: ℓ') (hledger' : Ledger (ts ++ [⟨sv.cluster, .act action, sv'.cluster⟩])
      (.full nodes hnodup) .new H' ℓ' sv'.cluster A')
    (hbusy : ∀ id, sv.serving action.node = some id →
      (sv'.cluster.servers action.node).task ≠ .idle)
    (hserving : sv'.serving = sv.serving)
    (hrequests : sv'.requests = (sv.readWithin action.node
      (sv.cluster.applying action sv'.cluster) reads).requests) :
    Knows (ts ++ [⟨sv.cluster, .act action, sv'.cluster⟩]) (.full nodes hnodup) H' ℓ' sv' A' := by
  have hstep : sv.cluster.stepOrRestart .new (.act action) = some sv'.cluster := hm.step
  have hl : Later (.full nodes hnodup) sv sv' A A' ℓ ℓ' :=
    .of_step h.ledger hok hstep hf hℓ hm.clock
      fun id q' hq' p time hp => readWithin_point (hrequests ▸ hq') hp
  refine ⟨hledger', fun id q' hq' => ?_, fun n id hn => ?_,
    h.owned.congr (appends_snoc_iff ts (not_appends_of_not_call hm.not_call))
      (fun id q' x hq' hx => readWithin_entry (hrequests ▸ hq') hx) fun id q hq => ?_,
    fun id hid => ?_⟩
  · exact hm.request h hl hledger' hf hok (hrequests ▸ hq')
  · rw [hserving] at hn
    obtain ⟨q, hq, rfl, hstage, hwork⟩ := h.working n id hn
    rcases hwork.step (h.request id q hq) hstage hl h.ledger hledger' hH hf hm.step with
      ⟨hwork', -⟩ | ⟨hnode, hidle, -⟩
    · exact ⟨q, hrequests ▸ hm.can.of_serving hq hstage, rfl, hstage, hwork'⟩
    · rw [hnode] at hn hidle
      exact absurd hidle (hbusy id hn)
  · rw [hrequests]
    exact exists_readWithin _ _ _ hq
  · rw [hrequests]
    exact readWithin_eq_none _ _ _ (h.unused id (hm.count ▸ hid))

/-- **The event loop replies** to the request that it works on. -/
theorem Moves.replies (h : Knows ts (.full nodes hnodup) H ℓ sv A)
    (hok : ¬ sv.cluster.Misleads (.act action)) (hf : Frame action.node A A') (hH : H <+: H')
    (hℓ : ℓ <+: ℓ') (hledger' : Ledger (ts ++ [⟨sv.cluster, .act action, sv'.cluster⟩])
      (.full nodes hnodup) .new H' ℓ' sv'.cluster A') {id₀ : ℕ}
    (hid₀ : sv.serving action.node = some id₀)
    (hidle : (sv'.cluster.servers action.node).task = .idle)
    (hserving : sv'.serving = Function.update sv.serving action.node none)
    (hrequests : sv'.requests = Function.update (sv.readWithin action.node
      (sv.cluster.applying action sv'.cluster) reads).requests id₀
        (((sv.readWithin action.node
          (sv.cluster.applying action sv'.cluster) reads).requests id₀).map fun q =>
            q.conclude formats sv.clock (sv'.cluster.history.drop sv.cluster.history.length))) :
    Knows (ts ++ [⟨sv.cluster, .act action, sv'.cluster⟩]) (.full nodes hnodup) H' ℓ' sv' A' := by
  have hstep : sv.cluster.stepOrRestart .new (.act action) = some sv'.cluster := hm.step
  obtain ⟨q₀, hq₀, hnode₀, hstage₀, hwork₀⟩ := h.working action.node id₀ hid₀
  have hq₁ := hm.can.of_serving hq₀ hstage₀
  rw [hq₁, Option.map_some] at hrequests
  obtain ⟨hsame, hpoint⟩ := q₀.conclude_records formats sv.clock
    (sv'.cluster.history.drop sv.cluster.history.length)
  obtain ⟨hback, hforth⟩ := HttpRequest.entry_update hq₁ hsame
  have hl : Later (.full nodes hnodup) sv sv' A A' ℓ ℓ' := by
    refine .of_step h.ledger hok hstep hf hℓ hm.clock fun id q' hq' p time hp => ?_
    rw [hrequests] at hq'
    rcases HttpRequest.of_update hq' with ⟨rfl, rfl⟩ | ⟨-, hq'⟩
    · exact (hpoint p time hp).imp_right fun hp => ⟨q₀, hq₀, hp⟩
    · exact readWithin_point hq' hp
  refine ⟨hledger', fun id q' hq' => ?_, fun n id hn => ?_,
    h.owned.congr (appends_snoc_iff ts (not_appends_of_not_call hm.not_call))
      (fun id q' x hq' hx => ?_) fun id q hq => ?_, fun id hid => ?_⟩
  · rw [hrequests] at hq'
    rcases HttpRequest.of_update hq' with ⟨rfl, rfl⟩ | ⟨-, hq'⟩
    · rcases hwork₀.step (h.request _ q₀ hq₀) hstage₀ hl h.ledger hledger' hH hf hm.step with
        ⟨-, hbusy⟩ | ⟨-, -, hrel⟩
      · rw [hnode₀] at hbusy
        exact absurd hidle hbusy
      · exact hrel
    · exact hm.request h hl hledger' hf hok hq'
  · rw [hserving] at hn
    by_cases hne : n = action.node
    · subst hne
      rw [Function.update_self] at hn
      cases hn
    · rw [Function.update_of_ne hne] at hn
      obtain ⟨q, hq, rfl, hstage, hwork⟩ := h.working n id hn
      rcases hwork.step (h.request id q hq) hstage hl h.ledger hledger' hH hf hm.step with
        ⟨hwork', -⟩ | ⟨hnode, -⟩
      · refine ⟨q, ?_, rfl, hstage, hwork'⟩
        rw [hrequests, Function.update_of_ne, hm.can.of_serving hq hstage]
        rintro rfl
        obtain rfl := Option.some.inj (hq.symm.trans hq₀)
        exact hne hnode₀
      · exact absurd hnode hne
  · rw [hrequests] at hq'
    obtain ⟨q₁, hq₁, hx⟩ := hback id q' x hq' hx
    exact readWithin_entry hq₁ hx
  · obtain ⟨q₁, hq₁, hx₁⟩ := exists_readWithin action.node
      (sv.cluster.applying action sv'.cluster) reads hq
    obtain ⟨q₂, hq₂, hx₂⟩ := hforth id q₁ hq₁
    exact ⟨q₂, by rw [hrequests, hq₂], hx₂.trans hx₁⟩
  · have hnone := h.unused id (hm.count ▸ hid)
    rw [hrequests, Function.update_of_ne, readWithin_eq_none _ _ _ hnone]
    rintro rfl
    rw [hnone] at hq₀
    cases hq₀

end Moving

variable [formats.Lawful]

/-- **Something happens in the cluster**, and handlers read the store in the meantime. -/
theorem Knows.act (h : Knows ts (.full nodes hnodup) H ℓ sv A) {action : Action}
    {reads : List (ℕ × ℕ)} (hok : ¬ sv.cluster.Misleads (.act action))
    (hs : sv.step (.cluster (.act action) reads) = some sv') :
    ∃ ts' H' ℓ' A', Knows ts' (.full nodes hnodup) H' ℓ' sv' A' := by
  obtain ⟨hm, hor⟩ := step_cluster hs
  have hstep : sv.cluster.stepOrRestart .new (.act action) = some sv'.cluster := hm.step
  obtain ⟨A', H', r, hf, hH, hledger'⟩ := h.ledger.step (fun hno => hok (Or.inl hno)) hstep
  have hℓ := List.prefix_append ℓ r
  rcases hor with ⟨hbusy, hserving, hrequests⟩ | ⟨id, hid, hidle, hserving, hrequests⟩
  · exact ⟨_, H', ℓ ++ r, A', hm.quiet h hok hf hH hℓ hledger' hbusy hserving hrequests⟩
  · exact ⟨_, H', ℓ ++ r, A', hm.replies h hok hf hH hℓ hledger' hid hidle hserving hrequests⟩

/-! #### The event loop takes a request -/

omit [Storage σ] [LawfulStorage σ] [DurableSnapshots σ] [formats.Lawful] in
/-- The event loop of its node takes the request `q` from its queue. -/
structure Takes [Storage σ] (sv sv' : Service σ formats) (id : ℕ) (q : HttpRequest) : Prop where
  request : sv.requests id = some q
  stage : q.stage = .sent
  step : sv.cluster.step (.local q.node q.request.call) = some sv'.cluster
  count : sv'.count = sv.count
  clock : sv'.clock = sv.clock
  others : ∀ n ≠ q.node, sv'.serving n = sv.serving n

omit [LawfulStorage σ] [DurableSnapshots σ] [formats.Lawful] in
theorem step_serve {id : ℕ} (hs : sv.step (.serve id) = some sv') :
    ∃ q, Takes sv sv' id q ∧
      (((sv'.cluster.servers q.node).task ≠ .idle ∧ sv'.serving q.node = some id ∧
        sv'.requests = Function.update sv.requests id (some (q.serve sv'.cluster))) ∨
      ((sv'.cluster.servers q.node).task = .idle ∧ sv'.serving q.node = none ∧
        sv'.requests = Function.update sv.requests id (some ((q.serve sv'.cluster).conclude formats
          sv.clock (sv'.cluster.history.drop sv.cluster.history.length))))) := by
  simp only [step] at hs
  split at hs
  · rename_i q hq
    split at hs
    · rename_i hstage
      obtain ⟨C, hC, rfl⟩ := Option.map_eq_some_iff.1 hs
      refine ⟨q, ?_⟩
      rcases settle_cases ({ sv with
        serving := Function.update sv.serving q.node (some id)
        requests := Function.update sv.requests id (some (q.serve C)) } : Service σ formats)
        q.node C with ⟨hbusy, hsettle⟩ | ⟨id', hid', hidle, hsettle⟩
      · rw [hsettle]
        refine ⟨⟨hq, hstage, hC, rfl, rfl, fun n hn => Function.update_of_ne hn _ _⟩, Or.inl ?_⟩
        exact ⟨hbusy id (Function.update_self ..), Function.update_self .., rfl⟩
      · replace hid' : Function.update sv.serving q.node (some id) q.node = some id' := hid'
        rw [Function.update_self] at hid'
        obtain rfl := Option.some.inj hid'
        rw [hsettle]
        refine ⟨⟨hq, hstage, hC, rfl, rfl, fun n hn => ?_⟩, Or.inr ⟨hidle, ?_, ?_⟩⟩
        · exact (Function.update_of_ne hn _ _).trans (Function.update_of_ne hn _ _)
        · exact Function.update_self ..
        · simp only [Function.update_self, Option.map_some, Function.update_idem]
    · cases hs
  · cases hs

section Taking

variable {id : ℕ} (ht : Takes sv sv' id q)

include ht

omit [LawfulStorage σ] [DurableSnapshots σ] [formats.Lawful] in
/-- What is known when the event loop takes the request. -/
theorem Takes.began (h : Knows ts S H ℓ sv A) (hl : Later S sv sv' A A' ℓ ℓ')
    {P : Cluster σ (SharedKvStore formats) → State ℕ LogEntry → Prop} (hP : P sv.cluster A) :
    sv'.Began S A' q.sentAt P := by
  refine ⟨sv.cluster, A, hl.earlier _ _ (.refl h.ledger.tracks), fun p hp => ?_, hP⟩
  obtain ⟨id', q', time, hq', hpoint, -⟩ :=
    hl.before _ p (h.request id q ht.request).sentAt_le hp
  exact ((h.request id' q' hq').point p time hpoint).2.2.1

omit [formats.Lawful] in
/-- The request has no place yet. -/
theorem Takes.later (h : Knows ts (.full nodes hnodup) H ℓ sv A)
    (hok : ¬ sv.cluster.Misleads (.act (.local q.node q.request.call)))
    (hf : Frame q.node A A') (hℓ : ℓ <+: ℓ')
    (hrequests : sv'.requests = Function.update sv.requests id (some q'))
    (hpoint : q'.point = none) : Later (.full nodes hnodup) sv sv' A A' ℓ ℓ' := by
  have hstep : sv.cluster.stepOrRestart .new (.act (.local q.node q.request.call)) =
    some sv'.cluster := ht.step
  refine .of_step h.ledger hok hstep hf hℓ ht.clock fun id' q₁ hq₁ p time hp => ?_
  rw [hrequests] at hq₁
  rcases HttpRequest.of_update hq₁ with ⟨-, rfl⟩ | ⟨-, hq₁⟩
  · rw [hpoint] at hp
    cases hp
  · exact Or.inr ⟨q₁, hq₁, hp⟩

omit [LawfulStorage σ] [DurableSnapshots σ] [formats.Lawful] in
/-- Nothing is appended for the request. -/
theorem Takes.owned (h : Knows ts S H ℓ sv A)
    (hrequests : sv'.requests = Function.update sv.requests id (some q'))
    (hentry : q'.entry = none)
    (hno : ∀ x, ¬ Appends ⟨sv.cluster, .act (.local q.node q.request.call), sv'.cluster⟩ x) :
    Owned (ts ++ [⟨sv.cluster, .act (.local q.node q.request.call), sv'.cluster⟩]) sv' := by
  have hnone := (h.request id q ht.request).unserved ht.stage
  obtain ⟨hback, hforth⟩ := HttpRequest.entry_update ht.request (hentry.trans hnone.symm)
  refine h.owned.congr (appends_snoc_iff ts hno) (fun id' q₁ x hq₁ hx => ?_) fun id' q₁ hq₁ => ?_
  · exact hback id' q₁ x (hrequests ▸ hq₁) hx
  · rw [hrequests]
    exact hforth id' q₁ hq₁

omit [formats.Lawful] in
/-- The other requests, and those of the other nodes. -/
theorem Takes.knows (h : Knows ts (.full nodes hnodup) H ℓ sv A)
    (hok : ¬ sv.cluster.Misleads (.act (.local q.node q.request.call)))
    (hledger' : Ledger ts' (.full nodes hnodup) .new H' ℓ' sv'.cluster A')
    (hl : Later (.full nodes hnodup) sv sv' A A' ℓ ℓ')
    (hrequests : sv'.requests = Function.update sv.requests id (some q'))
    (hrel : RequestRel (.full nodes hnodup) sv' A' ℓ' q')
    (hwork : ∀ id', sv'.serving q.node = some id' → id' = id ∧ q'.node = q.node ∧
      q'.stage = .serving ∧ WorkedOn (.full nodes hnodup) sv' A' q')
    (howned : Owned ts' sv') : Knows ts' (.full nodes hnodup) H' ℓ' sv' A' where
  ledger := hledger'
  request id' q₁ hq₁ := by
    rw [hrequests] at hq₁
    rcases HttpRequest.of_update hq₁ with ⟨-, rfl⟩ | ⟨-, hq₁⟩
    · exact hrel
    · have hrel₁ := h.request id' q₁ hq₁
      refine hrel₁.later hl fun r hr => ?_
      exact lastApplied_le h.ledger hledger' (fun hno => hok (Or.inl hno.goesWrong)) ht.step
        (hrel₁.confirmed r hr).1
  working n id' hn := by
    by_cases hne : n = q.node
    · subst hne
      obtain ⟨rfl, hnode, hserving', hwork'⟩ := hwork id' hn
      exact ⟨q', by rw [hrequests, Function.update_self], hnode, hserving', hwork'⟩
    · rw [ht.others n hne] at hn
      obtain ⟨q₁, hq₁, rfl, hstage₁, hwork₁⟩ := h.working n id' hn
      refine ⟨q₁, ?_, rfl, hstage₁, ?_⟩
      · rw [hrequests, Function.update_of_ne, hq₁]
        rintro rfl
        obtain rfl := Option.some.inj (ht.request.symm.trans hq₁)
        rw [ht.stage] at hstage₁
        cases hstage₁
      · exact hwork₁.later_of_same (h.request id' q₁ hq₁).sentAt_le hl
          ((Cluster.step_after ht.step).2 _ hne)
  owned := howned
  unused id' hid := by
    have hnone := h.unused id' (ht.count ▸ hid)
    rw [hrequests, Function.update_of_ne, hnone]
    rintro rfl
    have hq := ht.request
    rw [hnone] at hq
    cases hq

omit [formats.Lawful] in
/-- **The event loop has appended an entry** for the request. -/
theorem Takes.submitted (h : Knows ts (.full nodes hnodup) H ℓ sv A)
    (hok : ¬ sv.cluster.Misleads (.act (.local q.node q.request.call)))
    (hf : Frame q.node A A') (hℓ : ℓ <+: ℓ')
    (hledger' : Ledger (ts ++ [⟨sv.cluster, .act (.local q.node q.request.call), sv'.cluster⟩])
      (.full nodes hnodup) .new H' ℓ' sv'.cluster A')
    {command : String} (hcommand : q.request.command = some command) {i : ℕ}
    (htask : (sv'.cluster.servers q.node).task = .submitted command i)
    (hserving : sv'.serving q.node = some id)
    (hrequests : sv'.requests = Function.update sv.requests id (some (q.serve sv'.cluster))) :
    Knows (ts ++ [⟨sv.cluster, .act (.local q.node q.request.call), sv'.cluster⟩])
      (.full nodes hnodup) H' ℓ' sv' A' := by
  have hrel := h.request id q ht.request
  have hpoint := hrel.point_none (by simp [ht.stage])
  obtain ⟨x, hx⟩ : ∃ x : LogEntry, x = ⟨(sv'.cluster.core q.node).currentTerm, i, command⟩ :=
    ⟨_, rfl⟩
  have hserve : q.serve sv'.cluster = { q with stage := .serving, entry := some x } := by
    simp only [HttpRequest.serve, htask, hx]
  rw [hserve] at hrequests
  have happ : Appends ⟨sv.cluster, .act (.local q.node q.request.call), sv'.cluster⟩ x := by
    subst hx
    refine ⟨q.node, ?_, htask, rfl⟩
    rw [KvRequest.call, hcommand]
  have honly : ∀ y, Appends ⟨sv.cluster, .act (.local q.node q.request.call), sv'.cluster⟩ y →
      y = x := by
    rintro ⟨T, j, c⟩ ⟨n, hact, htask', hterm⟩
    obtain ⟨rfl, -⟩ := Action.local.inj (RestartAction.act.inj hact)
    obtain ⟨rfl, rfl⟩ := Task.submitted.inj (htask.symm.trans htask')
    obtain rfl : (sv'.cluster.core q.node).currentTerm = T := hterm
    exact hx.symm
  obtain ⟨l, hlead, hlt, -⟩ := h.ledger.tracks.endures.follows.sim.appends_of_step
    hledger'.tracks.endures.follows.sim ht.step happ hf
  have hl := ht.later h hok hf hℓ hrequests hpoint
  have hcall : (sv'.cluster.servers q.node).task.call = some (command, i) := by
    rw [htask]
    rfl
  refine ht.knows h hok hledger' hl hrequests
    (hrel.moved hl rfl hpoint (fun y hy => ?_) (by simp) (by simp) (by simp)) (fun id' hid' => ?_)
    (h.owned.append happ honly (fun u hu happ' => ?_) (fun q₁ hq₁ => ?_)
      (by rw [hrequests, Function.update_self]) rfl fun id' hid' => ?_)
  · obtain rfl := Option.some.inj hy
    refine ⟨?_, ⟨l, hlead⟩, ht.began h hl fun _ _ => hlt⟩
    rw [hx]
    exact hcommand
  · rw [hserving] at hid'
    refine ⟨(Option.some.inj hid').symm, rfl, rfl, ?_⟩
    unfold WorkedOn
    simp only [hcommand]
    subst hx
    exact ⟨_, rfl, rfl, hcall, fun _ => rfl⟩
  · -- no earlier call has put the entry there
    exact (List.pairwise_append.1 hledger'.accounts.once).2.2 u hu _ (List.mem_singleton_self _) x
      happ' happ
  · obtain rfl := Option.some.inj (ht.request.symm.trans hq₁)
    exact hrel.unserved ht.stage
  · rw [hrequests, Function.update_of_ne hid']

omit [Storage σ] [LawfulStorage σ] [DurableSnapshots σ] [formats.Lawful] ht in
/-- Nothing is appended if the event loop is not about to replicate. -/
theorem not_appends_of_task (hno : ∀ command i,
      (sv'.cluster.servers q.node).task ≠ .submitted command i) (x : LogEntry) :
    ¬ Appends ⟨sv.cluster, .act (.local q.node q.request.call), sv'.cluster⟩ x := by
  rintro ⟨n, hact, htask, -⟩
  obtain ⟨rfl, -⟩ := Action.local.inj (RestartAction.act.inj hact)
  exact hno _ _ htask

omit [formats.Lawful] in
/-- **The event loop begins a read.** -/
theorem Takes.read (h : Knows ts (.full nodes hnodup) H ℓ sv A)
    (hok : ¬ sv.cluster.Misleads (.act (.local q.node q.request.call)))
    (hf : Frame q.node A A') (hℓ : ℓ <+: ℓ')
    (hledger' : Ledger (ts ++ [⟨sv.cluster, .act (.local q.node q.request.call), sv'.cluster⟩])
      (.full nodes hnodup) .new H' ℓ' sv'.cluster A')
    (hcommand : q.request.command = none)
    (htask : (sv'.cluster.servers q.node).task = .readInvoked sv.cluster.history.length)
    (hserving : sv'.serving q.node = some id)
    (hrequests : sv'.requests = Function.update sv.requests id (some (q.serve sv'.cluster))) :
    Knows (ts ++ [⟨sv.cluster, .act (.local q.node q.request.call), sv'.cluster⟩])
      (.full nodes hnodup) H' ℓ' sv' A' := by
  have hrel := h.request id q ht.request
  have hpoint := hrel.point_none (by simp [ht.stage])
  have hserve : q.serve sv'.cluster = { q with stage := .serving, entry := none } := by
    simp only [HttpRequest.serve, htask]
  have hread : (sv'.cluster.servers q.node).task.read = some sv.cluster.history.length := by
    rw [htask]
    rfl
  rw [hserve] at hrequests
  have hl := ht.later h hok hf hℓ hrequests hpoint
  refine ht.knows h hok hledger' hl hrequests
    (hrel.moved hl rfl hpoint (by simp) (by simp) (by simp) (by simp)) (fun id' hid' => ?_)
    (ht.owned h hrequests rfl (not_appends_of_task (by simp [htask])))
  rw [hserving] at hid'
  refine ⟨(Option.some.inj hid').symm, rfl, rfl, ?_⟩
  unfold WorkedOn
  simp only [hcommand]
  exact ⟨_, hread, ht.began h hl le_rfl⟩

omit [formats.Lawful] in
/-- **The event loop refuses a write.** -/
theorem Takes.refused (h : Knows ts (.full nodes hnodup) H ℓ sv A)
    (hok : ¬ sv.cluster.Misleads (.act (.local q.node q.request.call)))
    (hf : Frame q.node A A') (hℓ : ℓ <+: ℓ')
    (hledger' : Ledger (ts ++ [⟨sv.cluster, .act (.local q.node q.request.call), sv'.cluster⟩])
      (.full nodes hnodup) .new H' ℓ' sv'.cluster A')
    {command : String} (hcommand : q.request.command = some command)
    (hidle : (sv'.cluster.servers q.node).task = .idle) {node : ℕ} {err : RaftError}
    (hhistory : sv'.cluster.history =
      sv.cluster.history ++ [.submitReturned node command none (.error err)])
    (hserving : sv'.serving q.node = none)
    (hrequests : sv'.requests = Function.update sv.requests id
      (some ((q.serve sv'.cluster).conclude formats sv.clock
        (sv'.cluster.history.drop sv.cluster.history.length)))) :
    Knows (ts ++ [⟨sv.cluster, .act (.local q.node q.request.call), sv'.cluster⟩])
      (.full nodes hnodup) H' ℓ' sv' A' := by
  have hrel := h.request id q ht.request
  have hserve : q.serve sv'.cluster = { q with stage := .serving, entry := none } := by
    simp only [HttpRequest.serve, hidle]
  have hconclude : ({ q with stage := .serving, entry := none } : HttpRequest).conclude formats
      sv.clock [.submitReturned node command none (.error err)] = { q with
        stage := .answered (.error (submitError err)), entry := none, point := none } := by
    have hplace : submitPoint [.submitReturned node command none (.error err)] = none := by
      cases err <;> rfl
    have hcommand' : ({ q with stage := .serving, entry := none } : HttpRequest).request.command
      = some command := hcommand
    exact HttpRequest.conclude_of_error hcommand' rfl hplace
  rw [hserve, hhistory, List.drop_left, hconclude] at hrequests
  have hl := ht.later h hok hf hℓ hrequests rfl
  refine ht.knows h hok hledger' hl hrequests
    (hrel.moved hl rfl rfl (by simp) (by simp) (by simp) (by simp)) (fun id' hid' => ?_)
    (ht.owned h hrequests rfl (not_appends_of_task (by simp [hidle])))
  rw [hserving] at hid'
  cases hid'

end Taking

/-- **The event loop takes a request from its queue.** -/
theorem Knows.serve (h : Knows ts (.full nodes hnodup) H ℓ sv A) {id : ℕ}
    (hok : ∀ q, sv.requests id = some q →
      ¬ sv.cluster.Misleads (.act (.local q.node q.request.call)))
    (hs : sv.step (.serve id) = some sv') :
    ∃ ts' H' ℓ' A', Knows ts' (.full nodes hnodup) H' ℓ' sv' A' := by
  obtain ⟨q, ht, hor⟩ := step_serve hs
  replace hok := hok q ht.request
  have hstep : sv.cluster.stepOrRestart .new (.act (.local q.node q.request.call)) =
    some sv'.cluster := ht.step
  obtain ⟨A', H', r, hf, hH, hledger'⟩ := h.ledger.step (fun hno => hok (Or.inl hno)) hstep
  have hℓ := List.prefix_append ℓ r
  obtain ⟨-, -, e, hact, hC⟩ := Cluster.step_act ht.step
  have hserver : sv'.cluster.servers q.node = e.server := by
    rw [hC, Cluster.perform_servers_self]
  have hhistory : sv'.cluster.history = sv.cluster.history ++ e.events := by
    rw [hC, Cluster.perform]
  cases hcommand : q.request.command with
  | none =>
      rw [KvRequest.call, hcommand] at hact
      obtain ⟨htask, -, -⟩ := Server.act_readIndex hact
      rw [← hserver] at htask
      rcases hor with ⟨-, hserving, hrequests⟩ | ⟨hidle, -⟩
      · exact ⟨_, H', ℓ ++ r, A', ht.read h hok hf hℓ hledger' hcommand htask hserving hrequests⟩
      · rw [htask] at hidle
        cases hidle
  | some command =>
      rw [KvRequest.call, hcommand] at hact
      rcases Server.act_submit hact with ⟨i, htask, -⟩ | ⟨htask, err, hevents⟩
      · rw [← hserver] at htask
        rcases hor with ⟨-, hserving, hrequests⟩ | ⟨hidle, -⟩
        · exact ⟨_, H', ℓ ++ r, A',
            ht.submitted h hok hf hℓ hledger' hcommand htask hserving hrequests⟩
        · rw [htask] at hidle
          cases hidle
      · rw [← hserver] at htask
        rw [hevents] at hhistory
        rcases hor with ⟨hbusy, -⟩ | ⟨-, hserving, hrequests⟩
        · exact absurd htask hbusy
        · exact ⟨_, H', ℓ ++ r, A',
            ht.refused h hok hf hℓ hledger' hcommand htask hhistory hserving hrequests⟩

end Service

end Stepping

/-! ### Runs -/

namespace Service

variable {formats : KvFormats} {sv sv' : Service σ formats} {H : List String} {ℓ : List LogEntry}

/-- What the cluster does in a step of the service. -/
def within (sv : Service σ formats) : ServiceAction → Option RestartAction
  | .serve id => (sv.requests id).map fun q => .act (.local q.node q.request.call)
  | .cluster action _ => some action
  | _ => none

/-- Somebody in the cluster is misled. -/
def Misleads (sv : Service σ formats) (action : ServiceAction) : Prop :=
  ∃ a ∈ sv.within action, sv.cluster.Misleads a

instance (sv : Service σ formats) (action : ServiceAction) : Decidable (sv.Misleads action) :=
  inferInstanceAs (Decidable (∃ a ∈ sv.within action, sv.cluster.Misleads a))

omit [Storage σ] in
/-- **The list of entries explains the responses**, and keeps the order in which requests follow one
another: an entry belongs to one request, whose response is that of its place; a read that has been
answered has its place between two entries; and what is sent after another request has been answered
has no earlier place. -/
structure Linearizes (ℓ : List LogEntry) (sv : Service σ formats) : Prop where
  entries : ∀ i x, ℓ[i]? = some x → x.index = i + 1 ∧ (x.command = noopCommand ∨
    ∃ id q, sv.requests id = some q ∧ q.entry = some x ∧
      ∀ id' q', sv.requests id' = some q' → q'.entry = some x → id' = id)
  commands : ∀ id q x, sv.requests id = some q → q.entry = some x →
    q.request.command = some x.command
  placed : ∀ id q p time, sv.requests id = some q → q.point = some (p, time) →
    q.sentAt ≤ time ∧ time ≤ sv.clock ∧ q.PlacedAt formats ℓ p
  answered : ∀ id q body, sv.requests id = some q → q.stage = .answered (.ok body) →
    q.point.isSome = true
  writes : ∀ id q x, sv.requests id = some q → q.entry = some x → x ∈ ℓ →
    ∀ p, sv.Before q.sentAt p → p < x.index
  reads : ∀ id q p time, sv.requests id = some q → q.request.command = none →
    q.point = some (p, time) → ∀ p', sv.Before q.sentAt p' → p' ≤ p

section Linearizing

variable {nodes : List ℕ} {hnodup : nodes.Nodup}
  {us : List (Transition (Cluster σ (SharedKvStore formats)) RestartAction)}

/-- What is known says that the list explains the responses. -/
theorem Knows.linearizes (h : Knows us (.full nodes hnodup) H ℓ sv A) : sv.Linearizes ℓ where
  entries i x hx := by
    have hacc := h.ledger.accounts
    have hindex := hacc.covering.indexed i x hx
    refine ⟨by omega, ?_⟩
    rcases hacc.authored x (List.mem_of_getElem? hx) with hnoop | ⟨t, ht, happ⟩
    · exact Or.inl hnoop
    · obtain ⟨id, q, hq, hentry⟩ := h.owned.owner t ht x happ
      exact Or.inr ⟨id, q, hq, hentry,
        fun id' q' hq' hentry' => h.owned.once id' id q' q x hq' hq hentry' hentry⟩
  commands id q x hq hx := ((h.request id q hq).entry x hx).command
  placed id q p time hq hp := by
    obtain ⟨hsent, htime, -, hplaced, -⟩ := (h.request id q hq).point p time hp
    exact ⟨hsent, htime, hplaced⟩
  answered id q body hq hbody := (h.request id q hq).answered body hbody
  writes id q x hq hx hmem p hp := by
    obtain ⟨-, hlead, C₁, A₁, hearlier, hknown, hnew⟩ := (h.request id q hq).entry x hx
    obtain ⟨i, hi⟩ := List.getElem?_of_mem hmem
    have hindex := h.ledger.accounts.covering.indexed i x hi
    refine hearlier.lt_index h.ledger (hknown p hp) ?_ (by omega) hlead hnew
    rwa [show x.index - 1 = i by omega]
  reads id q p time hq hread hp p' hp' :=
    ((h.request id q hq).point p time hp).2.2.2.2 hread p' hp'

/-- What is known when the cluster has just booted. -/
theorem Initial.knows [formats.Lawful] (h : sv.Initial) :
    Knows [] (.full sv.cluster.nodes h.cluster.nodup) [] [] sv (State.init ℕ LogEntry) where
  ledger := h.cluster.ledger h.stores
  request id q hq := by
    rw [h.requests] at hq
    cases hq
  working n id hn := by
    rw [h.serving] at hn
    cases hn
  owned := by
    refine ⟨fun id q x hq => ?_, by simp, fun id id' q q' x hq => ?_⟩
    · rw [h.requests] at hq
      cases hq
    · rw [h.requests] at hq
      cases hq
  unused id _ := h.requests id

variable [formats.Lawful] [LawfulStorage σ] [DurableSnapshots σ]

/-- **One step of the service** keeps what is known. -/
theorem Knows.step (h : Knows us (.full nodes hnodup) H ℓ sv A) {action : ServiceAction}
    (hok : ¬ sv.Misleads action) (hs : sv.step action = some sv') :
    ∃ us' H' ℓ' A', Knows us' (.full nodes hnodup) H' ℓ' sv' A' := by
  cases action with
  | send node request => exact ⟨us, H, ℓ, A, h.send hs⟩
  | serve id =>
      refine h.serve (fun q hq hno => hok ⟨_, ?_, hno⟩) hs
      show (sv.requests id).map _ = _
      rw [hq, Option.map_some]
  | cluster action reads =>
      have hno : ¬ sv.cluster.Misleads action := fun hno => hok ⟨action, rfl, hno⟩
      cases action with
      | act action => exact h.act hno hs
      | restart node => exact h.restart hno hs
  | readStore id => exact ⟨us, H, ℓ, A, h.readStore hs⟩
  | tick micros => exact ⟨us, H, ℓ, A, h.tick hs⟩

end Linearizing

variable [formats.Lawful] [LawfulStorage σ] [DurableSnapshots σ]
  {ts : List (Transition (Service σ formats) ServiceAction)}

/-- What is known is known along every run. -/
theorem run_knows (hinit : sv.Initial) (hr : Run step sv ts sv')
    (hok : ∀ t ∈ ts, ¬ t.source.Misleads t.action) : ∃ us H ℓ A,
      Knows us (.full sv.cluster.nodes hinit.cluster.nodup) H ℓ sv' A := by
  refine hr.invariant (I := fun sv' => ∃ us H ℓ A,
    Knows us (.full sv.cluster.nodes hinit.cluster.nodup) H ℓ sv' A)
    (P := fun t => ¬ t.source.Misleads t.action) ?_ ⟨_, _, _, _, hinit.knows⟩ hok
  rintro sv₁ action sv₂ ⟨us, H, ℓ, A, h₁⟩ hs hno
  exact h₁.step hno hs

/-- **The client API is linearizable**, in every run in which nodes compact their logs, install
snapshots, crash and come back, as long as nobody is misled: one list of entries explains all
responses. -/
theorem run_linearizes (hinit : sv.Initial) (hr : Run step sv ts sv')
    (hok : ∀ t ∈ ts, ¬ t.source.Misleads t.action) : ∃ ℓ : List LogEntry, sv'.Linearizes ℓ := by
  obtain ⟨us, H, ℓ, A, hknows⟩ := run_knows hinit hr hok
  exact ⟨ℓ, hknows.linearizes⟩

/-! #### A run in which a node crashes -/

/-- A hint how to choose an action: the cluster follows a cue of its own. -/
inductive ServiceCue
  | send (node : ℕ) (request : KvRequest)
  | serve (id : ℕ)
  | cluster (cue : Cluster.RestartCue)
  | readStore (id : ℕ)
  | tick (micros : ℕ)

/-- The action that a cue stands for. -/
def chooseService (sv : Service σ formats) : ServiceCue → Option ServiceAction
  | .send node request => some (.send node request)
  | .serve id => some (.serve id)
  | .cluster cue => (sv.cluster.chooseOrRestart cue).map fun action => .cluster action []
  | .readStore id => some (.readStore id)
  | .tick micros => some (.tick micros)

/-- Formats that nobody asks for, because no snapshot is taken. -/
def noFormats : KvFormats := ⟨fun _ => .error "unused", fun _ => .error "unused", id⟩

instance : noFormats.Lawful := ⟨by
  intro data bytes h
  cases h⟩

/-- Three nodes with empty stores. -/
def threeStores : Service StorageContents noFormats :=
  ⟨Cluster.booted [1, 2, 3] .empty .new 0, fun _ => none, 0, fun _ => none, 0⟩

theorem threeStores_initial : threeStores.Initial where
  cluster := Cluster.booted_initial (by decide) 0 rfl rfl rfl rfl
  stores _ _ := rfl
  requests _ := rfl
  serving _ := rfl

/-- A client of node 1 sets a key.  Node 2 crashes, and another client reads the key at node 1. -/
def setAndGet : List ServiceCue :=
  (Cluster.electFirst.map fun cue => .cluster (.cue cue)) ++
    [.send 1 (.set "x" "1"), .serve 0, .cluster (.cue (.local 1 .replicate)),
      .cluster (.cue (.deliver 4)), .cluster (.cue (.answer 1)), .tick 5,
      .cluster (.restart 2), .send 1 (.get "x"), .serve 1, .cluster (.cue (.local 1 .beginRead)),
      .cluster (.cue (.local 1 .confirmLeadership)), .cluster (.cue (.deliver 6)),
      .cluster (.cue (.answer 2)), .cluster (.cue (.local 1 .finish)),
      .cluster (.cue (.local 1 .pollRead)), .tick 1, .readStore 1]

omit [Storage σ] [formats.Lawful] [LawfulStorage σ] [DurableSnapshots σ] in
/-- The read sees the write. -/
theorem run_linearizes_crashed : ∃ (ts : List _) (sv : Service StorageContents noFormats)
    (ℓ : List LogEntry), Run step threeStores ts sv ∧ sv.Linearizes ℓ ∧
      ∃ q, sv.requests 1 = some q ∧ q.stage = .answered (.ok (.get ⟨"x", some "1"⟩)) ∧
        q.PlacedAt noFormats ℓ 2 := by
  obtain ⟨ts, sv, hr, hok, q, hq, hstage, hpoint⟩ := exists_run_of_play step chooseService threeStores
    setAndGet (P := fun ts sv => (∀ t ∈ ts, ¬ t.source.Misleads t.action) ∧
      ∃ q ∈ sv.requests 1, q.stage = .answered (.ok (.get ⟨"x", some "1"⟩)) ∧ q.point = some (2, 6))
    (by decide +kernel)
  obtain ⟨ℓ, hℓ⟩ := run_linearizes threeStores_initial hr hok
  exact ⟨ts, sv, ℓ, hr, hℓ, q, hq, hstage, (hℓ.placed 1 q 2 6 hq hpoint).2.2⟩

end Service

end RaftVibe
