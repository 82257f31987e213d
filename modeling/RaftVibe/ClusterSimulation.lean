/-
**A cluster on one storage in the place of another.**

The event loops and the network do not touch the storages, but for the snapshot that a heartbeat
sends.  So two clusters that only differ in their storages do the same, action by action, as long as
the storages simulate each other and no number comes near the top of the range: their nodes are
twins, and their tasks, their messages and what clients see are the same.

Main definitions:

* `RaftVibe.Server.Twin`, `RaftVibe.Cluster.Twin` — **the same cluster on other storages**;
* `RaftVibe.Cluster.Fits` — no number of the cluster is the largest `u64`.

Main results:

* `RaftVibe.Server.act_twin` — an acquisition of the lock does the same on both;
* `RaftVibe.Cluster.exists_run_twin` — **so does every run**, crashes included;
* `RaftVibe.Cluster.committed_agree_on_files` — state machine safety for nodes that keep their state
  in files.
-/

import RaftVibe.FileNodes
import RaftVibe.Restarts

set_option relaxedAutoImplicit false
set_option autoImplicit false

namespace RaftVibe

open Outcomes RaftCore ReplicatedLog Runs

variable {σ τ μ : Type} {R : σ → τ → Prop}

/-! ### Servers -/

/-- The call that a request makes, whatever it amounts to. -/
def Request.op : Request → Op
  | requestVote args => .requestVote args
  | appendEntries args => .appendEntries args
  | installSnapshot args => .installSnapshot args

/-- The same server on another storage. -/
inductive Server.Twin (R : σ → τ → Prop) : Server σ μ → Server τ μ → Prop
  | intro {core : RaftCore σ μ} {core' : RaftCore τ μ} {task : Task} {rounds : ℕ} :
      RaftCore.Twin R core core' → Server.Twin R ⟨core, task, rounds⟩ ⟨core', task, rounds⟩

/-- The same effect, of twins. -/
structure Effect.Twin (R : σ → τ → Prop) (e : Effect σ μ) (e' : Effect τ μ) : Prop where
  server : e.server.Twin R e'.server
  sent : e'.sent = e.sent
  events : e'.events = e.events

namespace Server.Twin

variable {s : Server σ μ} {s' : Server τ μ}

theorem core (h : s.Twin R s') : RaftCore.Twin R s.core s'.core := by
  obtain ⟨hcore⟩ := h
  exact hcore

theorem task (h : s.Twin R s') : s'.task = s.task := by
  cases h
  rfl

theorem rounds (h : s.Twin R s') : s'.rounds = s.rounds := by
  cases h
  rfl

/-- The cores are replaced by other twins. -/
theorem withCore (h : s.Twin R s') {core₁ : RaftCore σ μ} {core₁' : RaftCore τ μ}
    (h₁ : RaftCore.Twin R core₁ core₁') :
    Server.Twin R { s with core := core₁ } { s' with core := core₁' } := by
  cases h
  exact ⟨h₁⟩

theorem call [Snapshotable μ] (h : s.Twin R s') (action : LocalAction) :
    s'.call action = s.call action := by
  obtain ⟨⟨-, -⟩⟩ := h
  rfl

end Server.Twin

namespace Server

variable {core core₁ : RaftCore σ μ} {core' core₁' : RaftCore τ μ} {task : Task} {rounds : ℕ}

theorem proceed_twin (h : RaftCore.Twin R core₁ core₁') (task' : Task) (events : List Event) :
    Option.Rel (Effect.Twin R) (some (proceed ⟨core, task, rounds⟩ core₁ task' events))
      (some (proceed ⟨core', task, rounds⟩ core₁' task' events)) :=
  .some ⟨⟨h⟩, rfl, rfl⟩

theorem send_twin (h : RaftCore.Twin R core core') (request : ℕ → Option Request)
    (next : List Envelope → Task) :
    Option.Rel (Effect.Twin R) (some (send ⟨core, task, rounds⟩ request next))
      (some (send ⟨core', task, rounds⟩ request next)) := by
  have hsent : newRound ⟨core', task, rounds⟩ request = newRound ⟨core, task, rounds⟩ request := by
    cases h
    rfl
  simp only [send, hsent]
  exact .some ⟨⟨h⟩, rfl, rfl⟩

variable [Storage σ] [Storage τ] [Snapshotable μ]

omit [Snapshotable μ] in
/-- A heartbeat sends the same snapshot. -/
theorem heartbeatRequest_twin (hR : Simulates R) (h : RaftCore.Twin R core core') (peerId : ℕ) :
    core'.heartbeatRequest peerId = core.heartbeatRequest peerId := by
  cases h with | @intro t hst hsav =>
  obtain ⟨c, -, ⟨-, -, -, hsnap⟩, -, -, -, hsnap'⟩ := hR.holds hst
  have ht : Storage.loadSnapshot (core.onStorage t).storage = .ok c.snapshot := hsnap'
  simp only [heartbeatRequest, hsnap, ht]
  rfl

/-- The numbers that come with an acquisition of the lock fit. -/
def Takes (s : Server σ μ) : LocalAction → Prop
  | .answer envelope reply =>
      envelope ∈ s.task.waiting ∧ reply.term ≤ u64Max ∧ ∀ i ∈ s.task.recorded, i ≤ u64Max
  | _ => True

/-- An answer is handled alike. -/
theorem act_answer_twin (hR : Simulates R) (hcore : RaftCore.Twin R core core')
    (hlast : core.lastLogIndex < u64Max) (now : ℕ) {envelope : Envelope} {reply : Reply}
    (htakes : Takes ⟨core, task, rounds⟩ (.answer envelope reply)) :
    Option.Rel (Effect.Twin R) (act ⟨core, task, rounds⟩ now (.answer envelope reply))
      (act ⟨core', task, rounds⟩ now (.answer envelope reply)) := by
  obtain ⟨hwaiting, hterm, hrecorded⟩ := htakes
  cases task with
  | replicating command entryIndex waiting =>
      cases reply with
      | appendEntries result =>
          have hindex : entryIndex ≤ u64Max := hrecorded entryIndex (List.mem_singleton_self _)
          have hid : core'.id = core.id := by
            cases hcore
            rfl
          simp only [act, hid]
          refine (handleAppendEntriesResult_twin hR hcore envelope.target hindex hterm).elim ?_
            fun _ _ _ => .none
          rintro ⟨core₁, commit, results⟩ ⟨core₁', _⟩ ⟨h₁, rfl⟩
          simp only
          cases entryResult entryIndex results with
          | some res => exact proceed_twin h₁ _ _
          | none => exact proceed_twin h₁ _ _
      | _ => exact .none
  | polling waiting =>
      cases reply with
      | requestVote result =>
          simp only [act]
          refine (handleRequestVoteResult_twin hR hcore hlast envelope.target hterm).elim ?_
            fun _ _ _ => .none
          rintro ⟨core₁, won⟩ ⟨core₁', _⟩ ⟨h₁, rfl⟩
          cases won with
          | true => exact proceed_twin h₁ _ _
          | false => exact proceed_twin h₁ _ _
      | _ => exact .none
  | heartbeating waiting =>
      cases reply with
      | appendEntries result =>
          cases hrequest : envelope.request with
          | appendEntries args =>
              have hindex : args.lastEntryIndex ≤ u64Max :=
                hrecorded _ (List.mem_filterMap.2 ⟨envelope, hwaiting, by rw [hrequest]⟩)
              simp only [act, hrequest]
              refine (handleAppendEntriesResult_twin hR hcore envelope.target hindex hterm).elim ?_
                fun _ _ _ => .none
              rintro ⟨core₁, output⟩ ⟨core₁', _⟩ ⟨h₁, rfl⟩
              exact proceed_twin h₁ _ _
          | _ =>
              simp only [act, hrequest]
              exact .none
      | installSnapshot result =>
          cases hrequest : envelope.request with
          | installSnapshot args =>
              simp only [act, hrequest]
              exact proceed_twin (handleInstallSnapshotResult_twin hcore _ _ hterm) _ _
          | _ =>
              simp only [act, hrequest]
              exact .none
      | _ => exact .none
  | confirming since readIndex numPeers majorityNeeded successCount waiting =>
      cases reply with
      | appendEntries result =>
          obtain ⟨h₁, hdown⟩ : TwinWith R (core.handleConfirmResult result)
            (core'.handleConfirmResult result) := handleConfirmResult_twin hcore hterm
          simp only [act, ← hdown]
          exact ite_rel (fun _ => proceed_twin h₁ _ _) fun _ => proceed_twin h₁ _ _
      | _ => exact .none
  | _ => exact .none

/-- **An acquisition of the lock does the same on both storages.** -/
theorem act_twin (hR : Simulates R) {s : Server σ μ} {s' : Server τ μ} (h : s.Twin R s')
    (hwithin : s.core.Within (u64Max - 1)) (now : ℕ) {action : LocalAction}
    (htakes : s.Takes action) : Option.Rel (Effect.Twin R) (s.act now action) (s'.act now action) := by
  have hlast : s.core.lastLogIndex < u64Max := (Op.le_u64Max hwithin.lastLogIndex_le).2
  have hterm : s.core.currentTerm < u64Max := (Op.le_u64Max hwithin.term_le).2
  cases h with | @intro core core' task rounds hcore =>
  cases hcore with | @intro t hst hsav =>
  have hcore : RaftCore.Twin R core (core.onStorage t) := ⟨hst, hsav⟩
  cases action with
  | submit command =>
      cases task with
      | idle =>
          have hvalid : (core.onStorage t).validateCommand command = core.validateCommand command :=
            rfl
          refine ite_rel (fun _ => proceed_twin hcore _ _) fun _ => ?_
          simp only [hvalid]
          cases core.validateCommand command with
          | error message => exact proceed_twin hcore _ _
          | ok =>
              simp only
              refine (appendLogEntry_twin hR hcore hlast command).elim ?_ fun _ _ _ => .none
              rintro ⟨core₁, entry⟩ ⟨core₁', _⟩ ⟨h₁, rfl⟩
              cases entry with
              | some entry => exact proceed_twin h₁ _ _
              | none => exact proceed_twin h₁ _ _
      | _ => exact .none
  | replicate =>
      cases task with
      | submitted command entryIndex => exact send_twin hcore _ _
      | _ => exact .none
  | startElection =>
      cases task with
      | idle =>
          refine ite_rel (fun _ => .none) fun _ => ?_
          simp only
          refine (startElection_twin hR hcore hterm).elim (fun core₁ core₁' h₁ => ?_)
            fun _ _ _ => .none
          exact proceed_twin h₁ _ _
      | _ => exact .none
  | requestVotes =>
      cases task with
      | electing => exact send_twin hcore _ _
      | _ => exact .none
  | sendHeartbeat =>
      have hrequest : (core.onStorage t).heartbeatRequest = core.heartbeatRequest :=
        funext (heartbeatRequest_twin hR hcore)
      have hsend {task : Task} (next : List Envelope → Task) :
          Option.Rel (Effect.Twin R)
            (some (send ⟨core, task, rounds⟩ core.heartbeatRequest next))
            (some (send ⟨core.onStorage t, task, rounds⟩ (core.onStorage t).heartbeatRequest
              next)) := by
        rw [hrequest]
        exact send_twin hcore _ _
      cases task with
      | idle => exact ite_rel (fun _ => proceed_twin hcore _ _) fun _ => hsend _
      | elected => exact ite_rel (fun _ => proceed_twin hcore _ _) fun _ => hsend _
      | _ => exact .none
  | readIndex =>
      cases task with
      | idle => exact proceed_twin hcore _ _
      | _ => exact .none
  | beginRead =>
      cases task with
      | readInvoked since =>
          exact ite_rel (fun _ => proceed_twin hcore _ _) fun _ => proceed_twin hcore _ _
      | _ => exact .none
  | confirmLeadership =>
      cases task with
      | reading since readIndex numPeers =>
          exact ite_rel (fun _ => proceed_twin hcore _ _) fun _ => send_twin hcore _ _
      | _ => exact .none
  | answer envelope reply => exact act_answer_twin hR hcore hlast now htakes
  | fail envelope =>
      cases task with
      | replicating | polling | heartbeating | confirming => exact proceed_twin hcore _ _
      | _ => exact .none
  | finish =>
      cases task with
      | replicating command entryIndex waiting =>
          cases waiting with
          | nil => exact proceed_twin hcore _ _
          | cons => exact .none
      | polling waiting =>
          cases waiting with
          | nil => exact proceed_twin hcore _ _
          | cons => exact .none
      | heartbeating waiting =>
          cases waiting with
          | nil => exact proceed_twin hcore _ _
          | cons => exact .none
      | confirming since readIndex numPeers majorityNeeded successCount waiting =>
          cases waiting with
          | nil => exact ite_rel (fun _ => proceed_twin hcore _ _) fun _ =>
              ite_rel (fun _ => proceed_twin hcore _ _) fun _ => proceed_twin hcore _ _
          | cons => exact .none
      | _ => exact .none
  | drop =>
      cases task with
      | replicating | polling | heartbeating | confirming => exact proceed_twin hcore _ _
      | _ => exact .none
  | refuseRead =>
      cases task with
      | refusing since => exact proceed_twin hcore _ _
      | _ => exact .none
  | pollRead =>
      cases task with
      | awaiting since readIndex =>
          exact ite_rel (fun _ => proceed_twin hcore _ _) fun _ =>
            ite_rel (fun _ => proceed_twin hcore _ _) fun _ => proceed_twin hcore _ _
      | _ => exact .none
  | readTimeout =>
      cases task with
      | awaiting since readIndex => exact proceed_twin hcore _ _
      | _ => exact .none

/-- An incoming request is handled alike. -/
theorem receive_twin (hR : Simulates R) (h : RaftCore.Twin R core core') {request : Request}
    (hwithin : request.op.Within (u64Max - 1)) (hop : request.op.Savable) :
    Related (TwinWith R) (SamePanic R) (receive core request) (receive core' request) := by
  cases request with
  | requestVote args =>
      refine (handleRequestVote_twin hR h (Op.le_u64Max hwithin).1 hop).bind ?_
      rintro ⟨core₁, result⟩ ⟨core₁', _⟩ - ⟨h₁, rfl⟩
      exact ⟨h₁, rfl⟩
  | appendEntries args =>
      have hentries : ∀ e ∈ args.entries, e.Savable :=
        fun e he => ⟨hop e he, (Op.le_u64Max (hwithin.2 e he)).1⟩
      refine (handleAppendEntries_twin hR h (Op.le_u64Max hwithin.1).1 hentries).bind ?_
      rintro ⟨core₁, output⟩ ⟨core₁', _⟩ - ⟨h₁, rfl⟩
      exact ⟨h₁, rfl⟩
  | installSnapshot args =>
      refine (handleInstallSnapshot_twin hR h (Op.le_u64Max hwithin.1).1 (Op.le_u64Max hwithin.2).1
        hop).bind ?_
      rintro ⟨core₁, result⟩ ⟨core₁', _⟩ - ⟨h₁, rfl⟩
      exact ⟨h₁, rfl⟩

end Server

/-! ### Clusters -/

namespace Cluster

variable {nodes : List ℕ} {C C₁ : Cluster σ μ} {C' : Cluster τ μ}

/-- **The same cluster on other storages.** -/
structure Twin (R : σ → τ → Prop) (C : Cluster σ μ) (C' : Cluster τ μ) : Prop where
  nodes : C'.nodes = C.nodes
  server : ∀ n ∈ C.nodes, (C.servers n).Twin R (C'.servers n)
  requests : C'.requests = C.requests
  replies : C'.replies = C.replies
  history : C'.history = C.history

/-- The members of the cluster are `nodes`, and requests stay among them. -/
structure Closed (nodes : List ℕ) (C : Cluster σ μ) : Prop where
  nodes_eq : C.nodes = nodes
  peers : ∀ n ∈ C.nodes, ∀ p ∈ (C.core n).peers, p ∈ C.nodes
  targets : ∀ envelope ∈ C.requests, envelope.target ∈ C.nodes

/-- **No number of the cluster is the largest `u64`**: neither at its nodes nor on its network. -/
structure Fits (C : Cluster σ μ) : Prop where
  node : ∀ n ∈ C.nodes, (C.core n).Within (u64Max - 1)
  recorded : ∀ n ∈ C.nodes, ∀ i ∈ (C.servers n).task.recorded, i ≤ u64Max
  request : ∀ envelope ∈ C.requests,
    envelope.request.op.Within (u64Max - 1) ∧ envelope.request.op.Savable
  reply : ∀ r ∈ C.replies, r.2.term ≤ u64Max

/-- One node of each cluster changes. -/
theorem Twin.update (h : Twin R C C') (n : ℕ) {s : Server σ μ} {s' : Server τ μ}
    (hs : n ∈ C.nodes → s.Twin R s') {m : ℕ} (hm : m ∈ C.nodes) :
    (Function.update C.servers n s m).Twin R (Function.update C'.servers n s' m) := by
  by_cases hmn : m = n
  · subst hmn
    rw [Function.update_self, Function.update_self]
    exact hs hm
  · rw [Function.update_of_ne hmn, Function.update_of_ne hmn]
    exact h.server m hm

variable [Storage σ] [Snapshotable μ]

/-- Nobody leaves the cluster, and who is sent a request belongs to it. -/
theorem Closed.step (h : C.Closed nodes) {action : Action} (hs : C.step action = some C₁) :
    C₁.Closed nodes := by
  cases action with
  | deliver envelope =>
      obtain ⟨-, core, reply, hreceive, rfl⟩ := step_deliver hs
      refine ⟨h.nodes_eq, fun n hn p hp => h.peers n hn p ?_, h.targets⟩
      by_cases hne : n = envelope.target
      · subst hne
        rw [Cluster.core, receive_servers_self] at hp
        exact (Server.receive_sameNode hreceive).2.1 ▸ hp
      · rwa [Cluster.core, receive_servers_ne C core reply hne] at hp
  | «local» n action =>
      obtain ⟨hn, -, e, he, rfl⟩ := step_local hs
      refine ⟨h.nodes_eq, fun m hm p hp => h.peers m hm p ?_, fun envelope hmem => ?_⟩
      · by_cases hne : m = n
        · subst hne
          rw [Cluster.core, perform_servers_self] at hp
          exact he.sameNode.2.1 ▸ hp
        · rwa [Cluster.core, perform_servers_ne C e hne] at hp
      · rcases List.mem_append.1 hmem with hold | hnew
        · exact h.targets envelope hold
        · exact h.peers n hn _ (he.sent_cases hnew).2.1

variable [Storage τ]

/-- **An action does the same on both clusters.** -/
theorem step_twin (hR : Simulates R) (h : Twin R C C') (hclosed : C.Closed nodes) (hfits : C.Fits)
    {action : Action} (hs : C.step action = some C₁) :
    ∃ C₁', C'.step action = some C₁' ∧ Twin R C₁ C₁' := by
  cases action with
  | deliver envelope =>
      obtain ⟨hmem, core₁, reply, hreceive, rfl⟩ := step_deliver hs
      have hserver := h.server _ (hclosed.targets envelope hmem)
      obtain ⟨hwithin, hop⟩ := hfits.request envelope hmem
      obtain ⟨⟨core₁', _⟩, hreceive', h₁, rfl⟩ :=
        (Server.receive_twin hR hserver.core hwithin hop).exists_ok hreceive
      change Server.receive (C'.core envelope.target) envelope.request = _ at hreceive'
      refine ⟨C'.receive envelope core₁' reply, ?_, h.nodes, fun m hm => ?_, h.requests, ?_,
        h.history⟩
      · rw [step, if_pos (h.requests ▸ hmem), hreceive']
      · exact h.update envelope.target (fun _ => hserver.withCore h₁) hm
      · exact congrArg (· ++ [(envelope, reply)]) h.replies
  | «local» n action =>
      obtain ⟨hn, hav, e, he, rfl⟩ := step_act hs
      have hserver := h.server n hn
      have hav' : C'.Available n action := by
        cases action with
        | answer envelope reply => exact ⟨hserver.task ▸ hav.1, h.replies ▸ hav.2⟩
        | fail envelope =>
            rw [Available, hserver.task]
            exact hav
        | _ => trivial
      have htakes : (C.servers n).Takes action := by
        cases action with
        | answer envelope reply => exact ⟨hav.1, hfits.reply _ hav.2, hfits.recorded n hn⟩
        | _ => trivial
      have hact := Server.act_twin hR hserver (hfits.node n hn) C.history.length htakes
      rw [he] at hact
      generalize hx : (C'.servers n).act C.history.length action = x at hact
      cases hact with | @some _ e' heffect =>
      refine ⟨C'.perform n e', ?_, h.nodes, fun m hm => h.update n (fun _ => heffect.server) hm, ?_,
        h.replies, ?_⟩
      · rw [step, if_pos ⟨h.nodes ▸ hn, hav'⟩, h.history, hx]
        rfl
      · change C'.requests ++ e'.sent = C.requests ++ e.sent
        rw [h.requests, heffect.sent]
      · change C'.history ++ e'.events = C.history ++ e.events
        rw [h.history, heffect.events]

/-- A node comes back alike on both clusters. -/
theorem restart_twin (hR : Simulates R) (h : Twin R C C') {m₀ : μ} {n : ℕ}
    (hs : C.restart m₀ n = some C₁) : ∃ C₁', C'.restart m₀ n = some C₁' ∧ Twin R C₁ C₁' := by
  obtain ⟨hn, core, hnew, rfl⟩ := restart_eq_some hs
  have hserver := h.server n hn
  have hcore : RaftCore.Twin R (C.core n) (C'.core n) := hserver.core
  have hid : (C'.core n).id = (C.core n).id := by rw [hcore.eq]; rfl
  have hpeers : (C'.core n).peers = (C.core n).peers := by rw [hcore.eq]; rfl
  have hthreshold : (C'.core n).snapshotThreshold = (C.core n).snapshotThreshold := by
    rw [hcore.eq]; rfl
  obtain ⟨core', hnew', hloaded⟩ :=
    (new_twin hR hcore.storage hcore.savable.id_le (C.core n).peers m₀).exists_ok hnew
  refine ⟨{ C' with servers := Function.update C'.servers n ⟨core'.setSnapshotThreshold
    (C.core n).snapshotThreshold, .idle, (C.servers n).rounds⟩ }, ?_, h.nodes, fun m hm => ?_,
    h.requests, h.replies, h.history⟩
  · rw [restart, if_pos (h.nodes ▸ hn), hid, hpeers, hnew', hthreshold, hserver.rounds]
  · exact h.update n (fun _ => ⟨hloaded.setSnapshotThreshold _⟩) hm

omit [Storage τ] in
/-- Who comes back has the same peers. -/
theorem Closed.restart (h : C.Closed nodes) {m₀ : μ} {n : ℕ} (hs : C.restart m₀ n = some C₁) :
    C₁.Closed nodes := by
  obtain ⟨-, core, hnew, rfl⟩ := restart_eq_some hs
  have hpeers : core.peers = (C.core n).peers := by
    simp only [RaftCore.new, Except.bind_eq_ok, Except.pure_eq_ok] at hnew
    obtain ⟨term, -, votedFor, -, log, -, snapshot, -, m, -, rfl⟩ := hnew
    rfl
  refine ⟨h.nodes_eq, fun m hm p hp => h.peers m hm p ?_, h.targets⟩
  by_cases hne : m = n
  · subst hne
    simp only [Cluster.core, Function.update_self] at hp
    exact hpeers ▸ hp
  · simpa only [Cluster.core, Function.update_of_ne hne] using hp

/-- The same cluster on other storages, where requests stay among the members. -/
def ClosedTwin (R : σ → τ → Prop) (nodes : List ℕ) (C : Cluster σ μ) (C' : Cluster τ μ) : Prop :=
  C.Closed nodes ∧ Twin R C C'

/-- **Every run does the same on both clusters**, crashes included. -/
theorem exists_run_twin (hR : Simulates R) {m₀ : μ} (h : ClosedTwin R nodes C C')
    {ts : List (Transition (Cluster σ μ) RestartAction)} (hr : Run (stepOrRestart m₀) C ts C₁)
    (hfits : ∀ t ∈ ts, t.source.Fits) :
    ∃ ts' C₁', Run (stepOrRestart m₀) C' ts' C₁' ∧ ClosedTwin R nodes C₁ C₁' ∧
      List.Forall₂ (Transition.Alike (ClosedTwin R nodes)) ts ts' := by
  refine hr.simulate (T := ClosedTwin R nodes)
    (P := fun t : Transition (Cluster σ μ) RestartAction => t.source.Fits) ?_ h hfits
  rintro C action C₁ C' ⟨hclosed, htwin⟩ hs hfits
  cases action with
  | act action =>
      obtain ⟨C₁', hs', htwin'⟩ := step_twin hR htwin hclosed hfits hs
      exact ⟨C₁', hs', hclosed.step hs, htwin'⟩
  | restart n =>
      obtain ⟨C₁', hs', htwin'⟩ := restart_twin hR htwin hs
      exact ⟨C₁', hs', hclosed.restart hs, htwin'⟩

omit [Storage σ] [Storage τ] in
/-- Whether a node strays does not depend on the storages. -/
theorem Twin.strays_iff (h : Twin R C C') {action : RestartAction} (hn : action.node ∈ C.nodes) :
    C'.Strays action ↔ C.Strays action := by
  cases action with
  | restart n => exact Iff.rfl
  | act action =>
      have hserver := h.server _ hn
      have hcore : RaftCore.Twin R (C.core action.node) (C'.core action.node) := hserver.core
      cases action with
      | deliver envelope =>
          simp only [Strays, Diverges, StepsDownInMemory, call, Action.node]
          change RaftCore.Twin R (C.core envelope.target) (C'.core envelope.target) at hcore
          generalize C.core envelope.target = core at hcore ⊢
          generalize C'.core envelope.target = core' at hcore ⊢
          obtain ⟨-, -⟩ := hcore
          cases envelope.request <;> exact Iff.rfl
      | «local» n action =>
          have hcall : (C'.servers n).call action = (C.servers n).call action := hserver.call action
          change RaftCore.Twin R (C.core n) (C'.core n) at hcore
          simp only [Strays, StepsDownInMemory, call, Action.node, hcall]
          refine or_congr ?_ ?_
          · cases action with
            | replicate =>
                simp only [Diverges]
                generalize C.core n = core at hcore ⊢
                generalize C'.core n = core' at hcore ⊢
                obtain ⟨-, -⟩ := hcore
                exact Iff.rfl
            | _ => exact Iff.rfl
          · generalize C.core n = core at hcore ⊢
            generalize C'.core n = core' at hcore ⊢
            obtain ⟨-, -⟩ := hcore
            cases (C.servers n).call action with
            | none => exact Iff.rfl
            | some op => cases op <;> exact Iff.rfl

omit [Storage σ] [Storage τ] [Snapshotable μ] in
/-- Clusters that have just booted are the same, if the first contents of their storages are
related. -/
theorem booted_twin {s : σ} {t : τ} (hst : R s t) (hids : ∀ n ∈ nodes, n ≤ u64Max) (m : μ)
    (threshold : ℕ) :
    ClosedTwin R nodes (booted nodes s m threshold) (booted nodes t m threshold) := by
  refine ⟨⟨rfl, fun n _ p hp => List.mem_of_mem_erase hp, by simp [booted]⟩, rfl,
    fun n hn => ⟨?_⟩, rfl, rfl, rfl⟩
  have hfresh : (fresh n (nodes.erase n) s m).Savable :=
    ⟨hids n hn, ⟨Nat.zero_le _, Nat.zero_le _, Nat.zero_le _, Nat.zero_le _, by simp [fresh]⟩,
      by simp [fresh]⟩
  have htwin : RaftCore.Twin R (fresh n (nodes.erase n) s m) (fresh n (nodes.erase n) t m) :=
    ⟨hst, hfresh⟩
  exact htwin.setSnapshotThreshold threshold

/-! ### Clusters on files -/

/-- A node that acts in a run belongs to the cluster. -/
theorem Closed.node_mem {m₀ : μ} (h : C.Closed nodes) {action : RestartAction}
    (hs : C.stepOrRestart m₀ action = some C₁) : action.node ∈ C.nodes := by
  cases action with
  | restart n => exact (restart_eq_some hs).1
  | act action =>
      cases action with
      | deliver envelope => exact h.targets envelope (step_deliver hs).1
      | «local» n action => exact (step_act hs).1

/-- **State machine safety on files**: what nodes that keep their state in files have committed at an
index is the same everywhere, over runs with snapshots and crashes, as long as no node strays and no
number comes near the end of its range. -/
theorem committed_agree_on_files {formats : Formats} (hf : formats.Lawful)
    (hnodup : nodes.Nodup) (hids : ∀ n ∈ nodes, n ≤ u64Max) {m m₀ : μ} {threshold : ℕ}
    {C' : Cluster (FileStorage formats) μ}
    {ts : List (Transition (Cluster (FileStorage formats) μ) RestartAction)}
    (hr : Run (stepOrRestart m₀) (booted nodes FileStorage.new m threshold) ts C')
    (hfits : ∀ t ∈ ts, t.source.Fits) (hok : ∀ t ∈ ts, ¬ t.source.Strays t.action)
    {t u : Transition (Cluster (FileStorage formats) μ) RestartAction} (ht : t ∈ ts) (hu : u ∈ ts)
    {k n : ℕ} (hk : k ∈ nodes) (hn : n ∈ nodes) {i : ℕ} {x y : LogEntry}
    (hi : i ≤ (t.target.core k).commitIndex) (hi' : i ≤ (u.target.core n).commitIndex)
    (hx : (t.target.core k).getLogEntry i = some x)
    (hy : (u.target.core n).getLogEntry i = some y) : x = y := by
  have hinit : (booted nodes StorageContents.empty m threshold).Initial :=
    booted_initial hnodup threshold rfl rfl rfl rfl
  obtain ⟨ts', C'', hr', -, hall⟩ := exists_run_twin (FileStorage.simulates hf)
    (booted_twin FileStorage.inOrder_new hids m threshold) hr hfits
  have hok' : ∀ t ∈ ts', ¬ t.source.Strays t.action := by
    refine forall_mem_of_alike hall (fun t ht t' halike hP hstrays => hP ?_) hok
    have hnode := halike.source.1.node_mem (hr.step_of_mem ht)
    rw [halike.action] at hstrays
    exact (halike.source.2.strays_iff hnode).1 hstrays
  obtain ⟨A, h, hcom⟩ := run_committed hinit hr' hok'
  -- what a node has committed on the files it has committed on the contents
  have hfiles : ∀ t ∈ ts, ∀ n ∈ nodes, ∃ ℓ,
      CommittedBy (Setting.full _ hinit.nodup).quorums A (t.target.core n).currentTerm ℓ ∧
        Commits (t.target.core n) ℓ := by
    intro t ht n hn
    obtain ⟨t', ht', halike⟩ := exists_alike_of_mem hall ht
    obtain ⟨hclosed, htwin⟩ := halike.target
    have hcore : RaftCore.Twin FileStorage.InOrder (t.target.core n) (t'.target.core n) :=
      (htwin.server n (hclosed.nodes_eq ▸ hn)).core
    have hcommitted := hcom t' ht' n hn
    rw [hcore.eq] at hcommitted
    exact hcommitted
  obtain ⟨ℓ, hℓ, hx'⟩ := hfiles t ht k hk
  obtain ⟨ℓ', hℓ', hy'⟩ := hfiles u hu n hn
  exact commits_agree h hℓ hℓ' hx' hy' hi hi' hx hy

end Cluster

end RaftVibe
