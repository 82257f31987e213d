/-
**Elections over the bare core.**

The core by itself, without the server loop: any node may start an election at any time, send vote
requests built from its state at any time, and answer requests; requests and answers may be
delayed, repeated, lost and reordered.  An answer reaches the candidate that asked.

The reply handler compares the term of an answer with the node's own only from above: an answer
granted in an *older* term counts like a new one.  As long as a candidate gets no such answer,
every vote it counts was cast in its term, and a term has at most one leader.

Main definitions:

* `RaftVibe.Election`, `RaftVibe.Election.step` — the nodes, what is in flight, and the steps;
* `RaftVibe.Election.StaleGrant` — a candidate gets a granted answer of an older term;
* `RaftVibe.Election.Counted` — the invariant, over a record of all votes.

Main results:

* `RaftVibe.Election.step_counted` — one step keeps the invariant;
* `RaftVibe.Election.run_one_leader` — **election safety** over every run.
-/

import Mathlib.Logic.Function.Basic
import RaftVibe.Quorum
import RaftVibe.RaftCoreSpec
import RaftVibe.RaftNode
import RaftVibe.Runs

set_option relaxedAutoImplicit false
set_option autoImplicit false

namespace RaftVibe

open Runs

/-- The nodes, the requests and answers ever sent, and who became leader of which term. -/
structure Election (σ μ : Type) where
  nodes : List ℕ
  cores : ℕ → RaftCore σ μ
  requests : List (ℕ × RequestVoteArgs)
  replies : List (ℕ × ℕ × RequestVoteResult)
  elected : List (ℕ × ℕ)

/-- One step: a method of one node. -/
inductive ElectionAction
  | startElection (node : ℕ)
  | requestVotes (node : ℕ)
  | handleRequestVote (voter : ℕ) (args : RequestVoteArgs)
  | handleRequestVoteResult (voter candidate : ℕ) (result : RequestVoteResult)
deriving DecidableEq, Repr

namespace Election

variable {σ μ : Type} [Storage σ]

/-- Replace the core of a node. -/
def setCore (E : Election σ μ) (n : ℕ) (core : RaftCore σ μ) : Election σ μ :=
  { E with cores := Function.update E.cores n core }

/-- **One step**, if it is enabled and the node does not panic. -/
def step (E : Election σ μ) : ElectionAction → Option (Election σ μ)
  | .startElection n =>
      if n ∈ E.nodes then
        match (E.cores n).startElection with
        | .ok core => some (E.setCore n core)
        | .error _ => none
      else none
  | .requestVotes n =>
      if n ∈ E.nodes then
        some { E with
          requests := E.requests ++ (E.cores n).peers.map (·, (E.cores n).requestVoteArgs) }
      else none
  | .handleRequestVote voter args =>
      if (voter, args) ∈ E.requests then
        match (E.cores voter).handleRequestVote args with
        | .ok (core, result) => some { E.setCore voter core with
            replies := E.replies ++ [(voter, args.candidateId, result)] }
        | .error _ => none
      else none
  | .handleRequestVoteResult voter candidate result =>
      if candidate ∈ E.nodes ∧ (voter, candidate, result) ∈ E.replies then
        match (E.cores candidate).handleRequestVoteResult voter result with
        | .ok (core, true) => some { E.setCore candidate core with
            elected := E.elected ++ [(core.currentTerm, candidate)] }
        | .ok (core, false) => some (E.setCore candidate core)
        | .error _ => none
      else none

/-- The nodes know each other, none of them stands for election, and nothing has been sent. -/
structure Initial (E : Election σ μ) : Prop where
  nodup : E.nodes.Nodup
  id_eq : ∀ n ∈ E.nodes, (E.cores n).id = n
  peers_nodup : ∀ n ∈ E.nodes, (E.cores n).peers.Nodup
  mem_peers : ∀ n ∈ E.nodes, ∀ p, p ∈ (E.cores n).peers ↔ p ∈ E.nodes ∧ p ≠ n
  follower : ∀ n ∈ E.nodes, (E.cores n).state = .follower
  requests : E.requests = []
  replies : E.replies = []
  elected : E.elected = []

/-- A candidate gets a granted answer of a term before its own. -/
def StaleGrant (E : Election σ μ) : ElectionAction → Prop
  | .handleRequestVoteResult _ candidate result =>
      result.voteGranted = true ∧ (E.cores candidate).state = .candidate ∧
        result.term < (E.cores candidate).currentTerm
  | _ => False

instance (E : Election σ μ) (a : ElectionAction) : Decidable (E.StaleGrant a) := by
  cases a <;> unfold StaleGrant <;> infer_instance

/-! ### The invariant -/

/-- The votes a node has cast by term agree with its state. -/
def Agrees (votes : ℕ → Option ℕ) (core : RaftCore σ μ) : Prop :=
  ∀ t c, votes t = some c →
    t ≤ core.currentTerm ∧ (t = core.currentTerm → core.votedFor = some c)

/-- **The invariant**, over the record `V` of the votes of all nodes: an answer that grants a vote,
and a vote counted by a candidate in its term, are in the record, and a leader had a majority. -/
structure Counted (V : ℕ → ℕ → Option ℕ) (E : Election σ μ) : Prop where
  id_eq : ∀ n ∈ E.nodes, (E.cores n).id = n
  peers_length : ∀ n ∈ E.nodes, 1 + (E.cores n).peers.length = E.nodes.toFinset.card
  mem_peers : ∀ n ∈ E.nodes, ∀ p ∈ (E.cores n).peers, p ∈ E.nodes
  requests : ∀ r ∈ E.requests, r.1 ∈ E.nodes
  agrees : ∀ n ∈ E.nodes, Agrees (V n) (E.cores n)
  replies : ∀ v c r, (v, c, r) ∈ E.replies → r.voteGranted = true →
    v ∈ E.nodes ∧ V v r.term = some c
  votes : ∀ n ∈ E.nodes, (E.cores n).state = .candidate → (E.cores n).votesReceived.Nodup ∧
    ∀ v ∈ (E.cores n).votesReceived, v ∈ E.nodes ∧ V v (E.cores n).currentTerm = some n
  elected : ∀ t c, (t, c) ∈ E.elected →
    ∃ Q, (QuorumSystem.majority E.nodes.toFinset).IsQuorum Q ∧ ∀ v ∈ Q, V v t = some c

section Preservation

variable {V : ℕ → ℕ → Option ℕ} {E : Election σ μ} {n : ℕ} {core : RaftCore σ μ}

omit [Storage σ] in
theorem Initial.counted (h : E.Initial) : Counted (fun _ _ => none) E where
  id_eq := h.id_eq
  peers_length n hn := by
    have hset : E.nodes.toFinset = insert n (E.cores n).peers.toFinset := by
      ext p
      simp only [List.mem_toFinset, Finset.mem_insert, h.mem_peers n hn]
      constructor
      · intro hp
        by_cases hpn : p = n
        · exact Or.inl hpn
        · exact Or.inr ⟨hp, hpn⟩
      · rintro (rfl | ⟨hp, -⟩)
        · exact hn
        · exact hp
    have hnot : n ∉ (E.cores n).peers.toFinset := by
      simp [h.mem_peers n hn]
    rw [hset, Finset.card_insert_of_notMem hnot,
      List.toFinset_card_of_nodup (h.peers_nodup n hn), Nat.add_comm]
  mem_peers n hn p hp := ((h.mem_peers n hn p).1 hp).1
  requests r hr := by simp [h.requests] at hr
  agrees n hn t c hc := by simp at hc
  replies v c r hr := by simp [h.replies] at hr
  votes n hn hs := by simp [h.follower n hn] at hs
  elected t c hc := by simp [h.elected] at hc

omit [Storage σ] in
/-- **A step of node `n`**: its votes only grow, and nobody else is touched. -/
theorem Counted.setCore (h : Counted V E) (hn : n ∈ E.nodes) (votes : ℕ → Option ℕ)
    (hmono : ∀ t c, V n t = some c → votes t = some c) (hagrees : Agrees votes core)
    (hid : core.id = (E.cores n).id) (hpeers : core.peers = (E.cores n).peers)
    (hvotes : core.state = .candidate → core.votesReceived.Nodup ∧ ∀ v ∈ core.votesReceived,
      v ∈ E.nodes ∧ Function.update V n votes v core.currentTerm = some n) :
    Counted (Function.update V n votes) (E.setCore n core) := by
  have hV : ∀ {v t c}, V v t = some c → Function.update V n votes v t = some c := by
    intro v t c hc
    by_cases hv : v = n
    · subst hv
      simpa using hmono t c hc
    · simpa [hv] using hc
  refine ⟨?_, ?_, ?_, h.requests, ?_, ?_, ?_, ?_⟩
  · intro m hm
    by_cases hmn : m = n
    · subst hmn
      simp [Election.setCore, hid, h.id_eq m hn]
    · simpa [Election.setCore, hmn] using h.id_eq m hm
  · intro m hm
    by_cases hmn : m = n
    · subst hmn
      simpa [Election.setCore, hpeers] using h.peers_length m hn
    · simpa [Election.setCore, hmn] using h.peers_length m hm
  · intro m hm
    by_cases hmn : m = n
    · subst hmn
      simpa [Election.setCore, hpeers] using h.mem_peers m hn
    · simpa [Election.setCore, hmn] using h.mem_peers m hm
  · intro m hm
    by_cases hmn : m = n
    · subst hmn
      simpa [Election.setCore] using hagrees
    · simpa [Election.setCore, hmn] using h.agrees m hm
  · intro v c r hr hg
    exact ⟨(h.replies v c r hr hg).1, hV (h.replies v c r hr hg).2⟩
  · intro m hm hs
    by_cases hmn : m = n
    · subst hmn
      simpa [Election.setCore] using hvotes (by simpa [Election.setCore] using hs)
    · have hold := h.votes m hm (by simpa [Election.setCore, hmn] using hs)
      simp only [Election.setCore, Function.update_of_ne hmn]
      exact ⟨hold.1, fun v hv => ⟨(hold.2 v hv).1, hV (hold.2 v hv).2⟩⟩
  · intro t c hc
    obtain ⟨Q, hQ, hvQ⟩ := h.elected t c hc
    exact ⟨Q, hQ, fun v hv => hV (hvQ v hv)⟩

omit [Storage σ] in
/-- The same for a step in which `n` casts no vote. -/
theorem Counted.setCore_same (h : Counted V E) (hn : n ∈ E.nodes) (hagrees : Agrees (V n) core)
    (hid : core.id = (E.cores n).id) (hpeers : core.peers = (E.cores n).peers)
    (hvotes : core.state = .candidate → core.votesReceived.Nodup ∧
      ∀ v ∈ core.votesReceived, v ∈ E.nodes ∧ V v core.currentTerm = some n) :
    Counted V (E.setCore n core) := by
  have hV : Function.update V n (V n) = V := Function.update_eq_self n V
  rw [← hV]
  exact h.setCore hn _ (fun _ _ hc => hc) hagrees hid hpeers (by rwa [hV])

/-- Observing a term: in a newer term the node has not voted, and does not stand for election. -/
theorem observeTerm_agrees {votes : ℕ → Option ℕ} {core' : RaftCore σ μ} {t : ℕ}
    (h : Agrees votes core) (ho : core.observeTerm t = .ok core') : Agrees votes core' := by
  rcases RaftCore.observeTerm_ok ho with ⟨-, rfl⟩ | ⟨hlt, s, -, rfl⟩
  · exact h
  · intro u c hc
    have hle := (h u c hc).1
    exact ⟨hle.trans hlt.le, fun heq => absurd heq (hle.trans_lt hlt).ne⟩

/-- A candidate that observes a term and still is one has not moved. -/
theorem observeTerm_candidate {core' : RaftCore σ μ} {t : ℕ} (ho : core.observeTerm t = .ok core')
    (hs : core'.state = .candidate) : core' = core ∧ t ≤ core.currentTerm := by
  rcases RaftCore.observeTerm_ok ho with ⟨hle, rfl⟩ | ⟨hlt, s, -, rfl⟩
  · exact ⟨rfl, hle⟩
  · simp at hs

theorem observeTerm_id_peers {core' : RaftCore σ μ} {t : ℕ}
    (ho : core.observeTerm t = .ok core') :
    core'.id = core.id ∧ core'.peers = core.peers := by
  rcases RaftCore.observeTerm_ok ho with ⟨-, rfl⟩ | ⟨-, s, -, rfl⟩ <;> exact ⟨rfl, rfl⟩

/-- A new election: the node votes for itself in a term in which it has not voted. -/
theorem counted_startElection (h : Counted V E) (hn : n ∈ E.nodes)
    (hs : (E.cores n).startElection = .ok core) : ∃ V', Counted V' (E.setCore n core) := by
  obtain ⟨s, -, rfl⟩ := RaftCore.startElection_ok hs
  have hnone : ∀ t c, V n t = some c → t ≠ (E.cores n).currentTerm + 1 := by
    rintro t c hc rfl
    have := (h.agrees n hn _ c hc).1
    omega
  refine ⟨_, h.setCore hn (Function.update (V n) ((E.cores n).currentTerm + 1) (some n))
    ?_ ?_ rfl rfl ?_⟩
  · intro t c hc
    rwa [Function.update_of_ne (hnone t c hc)]
  · intro t c hc
    by_cases ht : t = (E.cores n).currentTerm + 1
    · subst ht
      obtain rfl : n = c := by simpa using hc
      exact ⟨le_rfl, fun _ => by simp [h.id_eq n hn]⟩
    · rw [Function.update_of_ne ht] at hc
      have hle := (h.agrees n hn t c hc).1
      exact ⟨by simp; omega, fun heq => absurd heq ht⟩
  · intro _
    simp [h.id_eq n hn, hn]

/-- A request handled: a granted vote is free in its term, and the answer is in the record. -/
theorem counted_handleRequestVote (h : Counted V E) (hn : n ∈ E.nodes) {args : RequestVoteArgs}
    {result : RequestVoteResult} (hs : (E.cores n).handleRequestVote args = .ok (core, result)) :
    ∃ V', Counted V' (E.setCore n core) ∧
      (result.voteGranted = true → V' n result.term = some args.candidateId) := by
  have hold := h.votes n hn
  rcases RaftCore.handleRequestVote_ok hs with ⟨-, rfl, rfl⟩ | ⟨core₁, h₁, hterm, hor⟩
  · exact ⟨V, h.setCore_same hn (h.agrees n hn) rfl rfl hold, by simp⟩
  · have hagrees := observeTerm_agrees (h.agrees n hn) h₁
    obtain ⟨hid, hpeers⟩ := observeTerm_id_peers h₁
    rcases hor with ⟨rfl, rfl⟩ | ⟨hfree, -, hset, rfl⟩
    · refine ⟨V, h.setCore_same hn hagrees hid hpeers ?_, by simp⟩
      intro hc
      obtain ⟨rfl, -⟩ := observeTerm_candidate h₁ hc
      exact hold hc
    · obtain ⟨-, rfl⟩ := RaftCore.setVotedFor_ok.1 hset
      have hmono : ∀ t c, V n t = some c →
          Function.update (V n) args.term (some args.candidateId) t = some c := by
        intro t c hc
        by_cases ht : t = args.term
        · subst ht
          have hv := (hagrees _ c hc).2 hterm.symm
          rcases hfree with hf | hf
          · exact absurd (hf.symm.trans hv) (by simp)
          · rw [Function.update_self, ← hf, hv]
        · rwa [Function.update_of_ne ht]
      refine ⟨_, h.setCore hn _ hmono ?_ hid hpeers ?_, by simp⟩
      · intro t c hc
        by_cases ht : t = args.term
        · subst ht
          exact ⟨hterm.ge, fun _ => by simpa using hc⟩
        · rw [Function.update_of_ne ht] at hc
          have := hagrees t c hc
          exact ⟨this.1, fun heq => absurd (heq.trans hterm) ht⟩
      · intro hc
        obtain ⟨heq, -⟩ := observeTerm_candidate h₁ hc
        subst heq
        refine ⟨(hold hc).1, fun v hv => ⟨((hold hc).2 v hv).1, ?_⟩⟩
        have hvote := ((hold hc).2 v hv).2
        by_cases hvn : v = n
        · subst hvn
          simpa using hmono _ _ hvote
        · simpa [hvn] using hvote

/-- An answer handled by the candidate it is for: unless it is a stale grant, a vote it adds was cast
in the candidate's term; a candidate that wins has a majority. -/
theorem counted_handleRequestVoteResult (h : Counted V E) {v : ℕ} (hn : n ∈ E.nodes)
    {result : RequestVoteResult} {won : Bool} (hr : (v, n, result) ∈ E.replies)
    (hstale : ¬ E.StaleGrant (.handleRequestVoteResult v n result))
    (hs : (E.cores n).handleRequestVoteResult v result = .ok (core, won)) :
    Counted V (E.setCore n core) ∧ (won = true →
      ∃ Q, (QuorumSystem.majority E.nodes.toFinset).IsQuorum Q ∧
        ∀ u ∈ Q, V u core.currentTerm = some n) := by
  obtain ⟨core₁, h₁, hor⟩ := RaftCore.handleRequestVoteResult_ok hs
  have hagrees := observeTerm_agrees (h.agrees n hn) h₁
  obtain ⟨hid, hpeers⟩ := observeTerm_id_peers h₁
  rcases hor with ⟨hno, rfl, rfl⟩ | ⟨hc, core₂, h₂, hor⟩
  · exact ⟨h.setCore_same hn hagrees hid hpeers fun hc => absurd hc hno, by simp⟩
  · obtain ⟨rfl, hle⟩ := observeTerm_candidate h₁ hc
    obtain ⟨votes, heq, hvotes⟩ := RaftCore.countVote_eq (E.cores n) v result
    rw [heq] at h₂
    have hold := h.votes n hn hc
    -- all votes counted now were cast for `n` in its term
    have hall : votes.Nodup ∧ ∀ u ∈ votes, u ∈ E.nodes ∧ V u (E.cores n).currentTerm = some n := by
      rcases hvotes with rfl | ⟨hg, hnew, rfl⟩
      · exact hold
      · have hterm : result.term = (E.cores n).currentTerm := by
          rcases hle.eq_or_lt with he | hlt
          · exact he
          · exact absurd ⟨hg, hc, hlt⟩ hstale
        obtain ⟨hv, hVv⟩ := h.replies v n result hr hg
        rw [hterm] at hVv
        refine ⟨List.nodup_append.2 ⟨hold.1, by simp, ?_⟩, ?_⟩
        · intro a ha b hb
          rw [List.mem_singleton.1 hb]
          rintro rfl
          exact hnew ha
        · intro u hu
          rcases List.mem_append.1 hu with hu | hu
          · exact hold.2 u hu
          · rw [List.mem_singleton.1 hu]
            exact ⟨hv, hVv⟩
    rcases hor with ⟨rfl, rfl⟩ | ⟨hmaj, hb, rfl⟩
    · subst h₂
      exact ⟨h.setCore_same hn hagrees rfl rfl fun _ => hall, by simp⟩
    · obtain ⟨s, -, rfl⟩ := RaftCore.becomeLeader_ok hb
      subst h₂
      refine ⟨h.setCore_same hn hagrees rfl rfl fun hs => absurd hs (by simp), fun _ => ?_⟩
      refine ⟨votes.toFinset, ⟨?_, ?_⟩, ?_⟩
      · intro u hu
        exact List.mem_toFinset.2 (hall.2 u (List.mem_toFinset.1 hu)).1
      · rw [List.toFinset_card_of_nodup hall.1, ← h.peers_length n hn]
        exact hmaj
      · intro u hu
        exact (hall.2 u (List.mem_toFinset.1 hu)).2

end Preservation

section Steps

variable {V : ℕ → ℕ → Option ℕ} {E E' : Election σ μ}

/-- **One step keeps the invariant**, unless a candidate gets a stale grant. -/
theorem step_counted (h : Counted V E) {a : ElectionAction} (hstale : ¬ E.StaleGrant a)
    (hs : E.step a = some E') : ∃ V', Counted V' E' := by
  cases a with
  | startElection n =>
      simp only [step] at hs
      split at hs
      · rename_i hn
        split at hs
        · rename_i core hc
          obtain rfl := Option.some.inj hs
          exact counted_startElection h hn hc
        · exact absurd hs (by simp)
      · exact absurd hs (by simp)
  | requestVotes n =>
      simp only [step] at hs
      split at hs
      · rename_i hn
        obtain rfl := Option.some.inj hs
        refine ⟨V, { h with requests := ?_ }⟩
        intro r hr
        rcases List.mem_append.1 hr with hr | hr
        · exact h.requests r hr
        · obtain ⟨p, hp, rfl⟩ := List.mem_map.1 hr
          exact h.mem_peers n hn p hp
      · exact absurd hs (by simp)
  | handleRequestVote voter args =>
      simp only [step] at hs
      split at hs
      · rename_i hr
        have hn : voter ∈ E.nodes := h.requests _ hr
        split at hs
        · rename_i core result hc
          obtain rfl := Option.some.inj hs
          obtain ⟨V', h', hV'⟩ := counted_handleRequestVote h hn hc
          refine ⟨V', { h' with replies := ?_ }⟩
          intro v c r hvr hg
          rcases List.mem_append.1 hvr with hvr | hvr
          · exact h'.replies v c r hvr hg
          · obtain ⟨rfl, rfl, rfl⟩ : v = voter ∧ c = args.candidateId ∧ r = result := by
              simpa using hvr
            exact ⟨hn, hV' hg⟩
        · exact absurd hs (by simp)
      · exact absurd hs (by simp)
  | handleRequestVoteResult voter candidate result =>
      simp only [step] at hs
      split at hs
      · rename_i hr
        split at hs
        · rename_i core hc
          obtain rfl := Option.some.inj hs
          obtain ⟨h', hwon⟩ := counted_handleRequestVoteResult h hr.1 hr.2 hstale hc
          refine ⟨V, { h' with elected := ?_ }⟩
          intro t c hct
          rcases List.mem_append.1 hct with hct | hct
          · exact h'.elected t c hct
          · obtain ⟨rfl, rfl⟩ : t = core.currentTerm ∧ c = candidate := by simpa using hct
            exact hwon rfl
        · rename_i core hc
          obtain rfl := Option.some.inj hs
          exact ⟨V, (counted_handleRequestVoteResult h hr.1 hr.2 hstale hc).1⟩
        · exact absurd hs (by simp)
      · exact absurd hs (by simp)

omit [Storage σ] in
/-- Two majorities meet in a node that voted only once. -/
theorem Counted.unique (h : Counted V E) {t c d : ℕ} (hc : (t, c) ∈ E.elected)
    (hd : (t, d) ∈ E.elected) : c = d := by
  obtain ⟨Q, hQ, hvc⟩ := h.elected t c hc
  obtain ⟨Q', hQ', hvd⟩ := h.elected t d hd
  obtain ⟨v, hv, hv'⟩ := (QuorumSystem.majority E.nodes.toFinset).meet hQ hQ'
  exact Option.some.inj ((hvc v hv).symm.trans (hvd v hv'))

/-- Whoever is leader has been recorded as elected. -/
def LeadersElected (E : Election σ μ) : Prop :=
  ∀ n ∈ E.nodes, (E.cores n).state = .leader → ((E.cores n).currentTerm, n) ∈ E.elected

omit [Storage σ] in
theorem LeadersElected.setCore (h : E.LeadersElected) {n : ℕ} {core : RaftCore σ μ}
    (hl : n ∈ E.nodes → core.state = .leader → (core.currentTerm, n) ∈ E.elected) :
    (E.setCore n core).LeadersElected := by
  intro m hmem hm
  by_cases hmn : m = n
  · subst hmn
    simp only [Election.setCore, Function.update_self] at hm ⊢
    exact hl hmem hm
  · simp only [Election.setCore, Function.update_of_ne hmn] at hm ⊢
    exact h m hmem hm

/-- A leader that observes a term and still is one has not moved. -/
theorem observeTerm_leader {core core' : RaftCore σ μ} {t : ℕ}
    (ho : core.observeTerm t = .ok core') (hs : core'.state = .leader) : core' = core := by
  rcases RaftCore.observeTerm_ok ho with ⟨-, rfl⟩ | ⟨-, s, -, rfl⟩
  · rfl
  · simp at hs

theorem step_leadersElected (h : E.LeadersElected) {a : ElectionAction}
    (hs : E.step a = some E') : E'.LeadersElected := by
  cases a with
  | startElection n =>
      simp only [step] at hs
      split at hs
      · split at hs
        · rename_i core hc
          obtain rfl := Option.some.inj hs
          obtain ⟨s, -, rfl⟩ := RaftCore.startElection_ok hc
          exact h.setCore fun _ hl => absurd hl (by simp)
        · exact absurd hs (by simp)
      · exact absurd hs (by simp)
  | requestVotes n =>
      simp only [step] at hs
      split at hs
      · obtain rfl := Option.some.inj hs
        exact h
      · exact absurd hs (by simp)
  | handleRequestVote voter args =>
      simp only [step] at hs
      split at hs
      · split at hs
        · rename_i core result hc
          obtain rfl := Option.some.inj hs
          refine h.setCore (E := E) ?_
          intro hn hl
          rcases RaftCore.handleRequestVote_ok hc with ⟨-, rfl, -⟩ | ⟨core₁, h₁, -, hor⟩
          · exact h voter hn hl
          · rcases hor with ⟨rfl, -⟩ | ⟨-, -, hset, -⟩
            · obtain rfl := observeTerm_leader h₁ hl
              exact h voter hn hl
            · obtain ⟨-, rfl⟩ := RaftCore.setVotedFor_ok.1 hset
              obtain rfl := observeTerm_leader h₁ hl
              exact h voter hn hl
        · exact absurd hs (by simp)
      · exact absurd hs (by simp)
  | handleRequestVoteResult voter candidate result =>
      simp only [step] at hs
      split at hs
      · split at hs
        · rename_i core hc
          obtain rfl := Option.some.inj hs
          intro m hmem hm
          by_cases hmc : m = candidate
          · subst hmc
            simp [Election.setCore]
          · simp only [Election.setCore, Function.update_of_ne hmc] at hm ⊢
            exact List.mem_append_left _ (h m hmem hm)
        · rename_i core hc
          obtain rfl := Option.some.inj hs
          refine h.setCore fun hn hl => ?_
          obtain ⟨core₁, h₁, ⟨-, rfl, -⟩ | ⟨hcand, core₂, h₂, hor⟩⟩ :=
            RaftCore.handleRequestVoteResult_ok hc
          · obtain rfl := observeTerm_leader h₁ hl
            exact h candidate hn hl
          · rcases hor with ⟨rfl, -⟩ | ⟨-, -, hwon⟩
            · obtain ⟨votes, heq, -⟩ := RaftCore.countVote_eq core₁ voter result
              rw [h₂, heq] at hl
              exact absurd (hcand.symm.trans hl) (by simp)
            · exact absurd hwon (by simp)
        · exact absurd hs (by simp)
      · exact absurd hs (by simp)

/-- **Election safety.**  In every run in which no candidate gets a stale grant, at most one node is
ever elected in a term, and every leader was elected in its term. -/
theorem run_one_leader {ts : List (Transition (Election σ μ) ElectionAction)} (h : E.Initial)
    (hr : Run step E ts E') (hstale : ∀ t ∈ ts, ¬ t.source.StaleGrant t.action) :
    (∀ t c d, (t, c) ∈ E'.elected → (t, d) ∈ E'.elected → c = d) ∧ E'.LeadersElected := by
  have hlead : E.LeadersElected := by
    intro n hn hs
    exact absurd hs (by simp [h.follower n hn])
  obtain ⟨⟨V, hV⟩, hl⟩ := hr.invariant (I := fun E => (∃ V, Counted V E) ∧ E.LeadersElected)
    (P := fun t => ¬ t.source.StaleGrant t.action)
    (fun _ _ _ hi hs hp => ⟨hi.1.elim fun _ hV => step_counted hV hp hs,
      step_leadersElected hi.2 hs⟩) ⟨⟨_, h.counted⟩, hlead⟩ hstale
  exact ⟨fun t c d hc hd => hV.unique hc hd, hl⟩

end Steps

/-- Three nodes that have just been booted. -/
def booted : Election MemoryStorage Recorder where
  nodes := [1, 2, 3]
  cores n := .fresh n ([1, 2, 3].erase n) .new .new
  requests := []
  replies := []
  elected := []

theorem booted_initial : booted.Initial where
  nodup := by decide
  id_eq _ _ := rfl
  peers_nodup := by decide
  mem_peers n _ p := by
    have hnodup : [1, 2, 3].Nodup := by decide
    show p ∈ [1, 2, 3].erase n ↔ p ∈ [1, 2, 3] ∧ p ≠ n
    rw [hnodup.mem_erase_iff, and_comm]
  follower _ _ := rfl
  requests := rfl
  replies := rfl
  elected := rfl

/-- Node 1 stands in term 1, and node 2 votes for it. -/
def firstRound : List ElectionAction :=
  [.startElection 1, .requestVotes 1, .handleRequestVote 2 ⟨1, 1, 0, 0⟩]

/-- Node 3 stands in term 2, and node 2 votes for it. -/
def secondRound : List ElectionAction :=
  [.startElection 3, .startElection 3, .requestVotes 3, .handleRequestVote 2 ⟨2, 3, 0, 0⟩,
    .handleRequestVoteResult 2 3 ⟨2, true⟩]

/-- Node 1 wins term 1, and node 3 wins term 2. -/
theorem run_one_leader_rounds : ∃ (ts : List _) (E : Election MemoryStorage Recorder),
    Run step booted ts E ∧ (1, 1) ∈ E.elected ∧ (2, 3) ∈ E.elected ∧
      ∀ d, (2, d) ∈ E.elected → d = 3 := by
  obtain ⟨ts, E, hr, hP, hQ⟩ := exists_run step booted
    (firstRound ++ [.handleRequestVoteResult 2 1 ⟨1, true⟩] ++ secondRound)
    (P := fun t => ¬ t.source.StaleGrant t.action)
    (Q := fun E => (1, 1) ∈ E.elected ∧ (2, 3) ∈ E.elected) (by decide)
  have hone := (run_one_leader booted_initial hr hP).1
  exact ⟨ts, E, hr, hQ.1, hQ.2, fun d hd => hone 2 d 3 hd hQ.2⟩

/-- **Two leaders in one term**: the vote of term 1 reaches node 1 when it stands in term 2. -/
theorem two_leaders : ∃ (ts : List _) (E : Election MemoryStorage Recorder),
    booted.Initial ∧ Run step booted ts E ∧ (2, 1) ∈ E.elected ∧ (2, 3) ∈ E.elected ∧
      (E.cores 1).state = .leader ∧ (E.cores 3).state = .leader ∧
      (E.cores 1).currentTerm = 2 ∧ (E.cores 3).currentTerm = 2 := by
  obtain ⟨ts, E, hr, -, hQ⟩ := exists_run step booted
    (firstRound ++ [.startElection 1, .handleRequestVoteResult 2 1 ⟨1, true⟩] ++ secondRound)
    (P := fun _ => True)
    (Q := fun E => (2, 1) ∈ E.elected ∧ (2, 3) ∈ E.elected ∧
      (E.cores 1).state = .leader ∧ (E.cores 3).state = .leader ∧
      (E.cores 1).currentTerm = 2 ∧ (E.cores 3).currentTerm = 2) (by decide)
  exact ⟨ts, E, booted_initial, hr, hQ⟩

end Election

end RaftVibe
