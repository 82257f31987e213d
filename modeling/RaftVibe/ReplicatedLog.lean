/-
**An abstract replicated log with elected leaders.**

The protocol in its own terms: nodes move through numbered terms, vote at most once in each, and a
node that a quorum voted for leads its term.  A leader only appends to its log; other nodes take
over prefixes of it.  There are no messages and no roles: a message is a fact that stays true, and
the state remembers all such facts — who voted for whom, who led which term, the log a leader was
elected with and the log it has now, and how much of a leader's log a node has acknowledged.

The step `overwrite` lets a node take over *any* well-formed log, as if somebody spoke for a leader
without being one.  `Step honest` forbids it when `honest` holds.  What survives overwriting is in
`RaftVibe.ReplicatedLogInv`; what needs honesty is in `RaftVibe.ReplicatedLogSafety`.

Main definitions:

* `ReplicatedLog.State`, `ReplicatedLog.Step` — the protocol;
* `ReplicatedLog.Valid` — every prefix of the log belongs to the leader of the term of its last
  entry;
* `ReplicatedLog.merge` — what taking over a log does;
* `ReplicatedLog.Frame` — what a step by one node leaves alone.

Main results:

* `ReplicatedLog.Valid.matching` — **log matching**: logs that agree in the term at an index agree
  up to there.
-/

import Mathlib.Logic.Function.Basic
import Mathlib.Logic.Relation
import RaftVibe.Quorum

set_option relaxedAutoImplicit false
set_option autoImplicit false

namespace ReplicatedLog

/-- What all nodes have done so far. -/
structure State (N E : Type) where
  /-- the term of a node -/
  term : N → ℕ
  /-- the log of a node -/
  log : N → List E
  /-- the node stands for election in its term, with its log -/
  running : N → Prop
  /-- whom a node voted for in a term -/
  vote : N → ℕ → Option N
  /-- who won a term -/
  leader : ℕ → Option N
  /-- the log with which the leader of a term was elected -/
  elog : ℕ → List E
  /-- the log of the leader of a term, at the end of its leadership so far -/
  llog : ℕ → List E
  /-- how long a prefix of the leader's log a node has acknowledged in a term -/
  acked : N → ℕ → ℕ

/-- Nothing has happened yet. -/
def State.init (N E : Type) : State N E where
  term _ := 0
  log _ := []
  running _ := False
  vote _ _ := none
  leader _ := none
  elog _ := []
  llog _ := []
  acked _ _ := 0

section Logs

variable {E : Type} (τ : E → ℕ)

/-- The term of the last entry, `0` for the empty log. -/
def lastTerm (ℓ : List E) : ℕ := (ℓ.getLast?.map τ).getD 0

@[simp] theorem lastTerm_nil : lastTerm τ [] = 0 := rfl

@[simp] theorem lastTerm_append_singleton (p : List E) (e : E) : lastTerm τ (p ++ [e]) = τ e := by
  simp [lastTerm]

/-- `ℓ` is at least as up to date as `ℓ'`. -/
def UpToDate (ℓ ℓ' : List E) : Prop :=
  lastTerm τ ℓ' < lastTerm τ ℓ ∨ (lastTerm τ ℓ = lastTerm τ ℓ' ∧ ℓ'.length ≤ ℓ.length)

open Classical in
/-- Taking over the log `s`: nothing changes if it is there already. -/
noncomputable def merge (ℓ s : List E) : List E := if s <+: ℓ then ℓ else s

theorem merge_eq_left {ℓ s : List E} (h : s <+: ℓ) : merge ℓ s = ℓ := if_pos h

theorem merge_eq_right {ℓ s : List E} (h : ¬ s <+: ℓ) : merge ℓ s = s := if_neg h

/-- A log that is a prefix of what is taken over is replaced by it. -/
theorem merge_eq_of_prefix_right {ℓ s : List E} (h : ℓ <+: s) : merge ℓ s = s := by
  by_cases h' : s <+: ℓ
  · rw [merge_eq_left h', h.eq_of_length (le_antisymm h.length_le h'.length_le)]
  · exact merge_eq_right h'

theorem merge_eq_or (ℓ s : List E) : merge ℓ s = ℓ ∨ merge ℓ s = s := by
  by_cases h : s <+: ℓ
  · exact Or.inl (merge_eq_left h)
  · exact Or.inr (merge_eq_right h)

/-- What was taken over is there. -/
theorem prefix_merge (ℓ s : List E) : s <+: merge ℓ s := by
  by_cases h : s <+: ℓ
  · rwa [merge_eq_left h]
  · rw [merge_eq_right h]

/-- A prefix of the old log that `s` does not contradict survives. -/
theorem prefix_merge_left {p ℓ s L : List E} (hp : p <+: ℓ) (hpL : p <+: L) (hsL : s <+: L) :
    p <+: merge ℓ s := by
  by_cases h : s <+: ℓ
  · rwa [merge_eq_left h]
  · rw [merge_eq_right h]
    rcases List.prefix_or_prefix_of_prefix hpL hsL with h' | h'
    · exact h'
    · exact absurd (h'.trans hp) h

/-- Two prefixes of one list that are equally long are equal. -/
theorem eq_of_prefix_of_length {p q L : List E} (hp : p <+: L) (hq : q <+: L)
    (h : p.length = q.length) : p = q :=
  (List.prefix_of_prefix_length_le hp hq h.le).eq_of_length h

end Logs

/-- **Validity**: every prefix of the log is a prefix of the log of the leader of the term of its
last entry. -/
def Valid {N E : Type} (τ : E → ℕ) (A : State N E) (ℓ : List E) : Prop :=
  ∀ p e, p ++ [e] <+: ℓ → (∃ c, A.leader (τ e) = some c) ∧ p ++ [e] <+: A.llog (τ e)

/-! ### The steps -/

section Steps

variable {N E : Type} [DecidableEq N]

namespace State

/-- Node `v` moves on to term `t`. -/
def advance (A : State N E) (v : N) (t : ℕ) : State N E :=
  { A with
    term := Function.update A.term v t
    running := Function.update A.running v False }

/-- Node `v` stands for election in the next term and votes for itself. -/
def campaign (A : State N E) (v : N) : State N E :=
  { A with
    term := Function.update A.term v (A.term v + 1)
    running := Function.update A.running v True
    vote := Function.update A.vote v (Function.update (A.vote v) (A.term v + 1) (some v)) }

/-- Node `v` votes for `c` in its term. -/
def grant (A : State N E) (v c : N) : State N E :=
  { A with vote := Function.update A.vote v (Function.update (A.vote v) (A.term v) (some c)) }

/-- Node `c` wins its term and appends a first entry. -/
def win (A : State N E) (c : N) (e : E) : State N E :=
  { A with
    running := Function.update A.running c False
    log := Function.update A.log c (A.log c ++ [e])
    leader := Function.update A.leader (A.term c) (some c)
    elog := Function.update A.elog (A.term c) (A.log c)
    llog := Function.update A.llog (A.term c) (A.log c ++ [e])
    acked := Function.update A.acked c
      (Function.update (A.acked c) (A.term c) (A.log c ++ [e]).length) }

/-- The leader `c` of its term appends an entry. -/
def append (A : State N E) (c : N) (e : E) : State N E :=
  { A with
    log := Function.update A.log c (A.log c ++ [e])
    llog := Function.update A.llog (A.term c) (A.log c ++ [e])
    acked := Function.update A.acked c
      (Function.update (A.acked c) (A.term c) (A.log c ++ [e]).length) }

/-- Node `v` takes over the log `s`. -/
noncomputable def overwrite (A : State N E) (v : N) (s : List E) : State N E :=
  { A with
    running := Function.update A.running v False
    log := Function.update A.log v (merge (A.log v) s) }

/-- Node `v` takes over the prefix `s` of the leader's log, and acknowledges it. -/
noncomputable def accept (A : State N E) (v : N) (s : List E) : State N E :=
  { A.overwrite v s with
    acked := Function.update A.acked v
      (Function.update (A.acked v) (A.term v) (max (A.acked v (A.term v)) s.length)) }

section Self

variable (A : State N E) (v c : N) (t : ℕ) (e : E) (s : List E)

@[simp] theorem advance_term_self : (A.advance v t).term v = t := by simp [advance]

@[simp] theorem campaign_term_self : (A.campaign v).term v = A.term v + 1 := by simp [campaign]

@[simp] theorem campaign_vote_self : (A.campaign v).vote v (A.term v + 1) = some v := by
  simp [campaign]

@[simp] theorem campaign_running_self : (A.campaign v).running v := by simp [campaign]

@[simp] theorem grant_vote_self : (A.grant v c).vote v (A.term v) = some c := by simp [grant]

@[simp] theorem win_log_self : (A.win c e).log c = A.log c ++ [e] := by simp [win]

@[simp] theorem win_leader_self : (A.win c e).leader (A.term c) = some c := by simp [win]

@[simp] theorem win_llog_self : (A.win c e).llog (A.term c) = A.log c ++ [e] := by simp [win]

@[simp] theorem win_acked_self :
    (A.win c e).acked c (A.term c) = (A.log c ++ [e]).length := by simp [win]

@[simp] theorem append_log_self : (A.append c e).log c = A.log c ++ [e] := by simp [append]

@[simp] theorem append_llog_self : (A.append c e).llog (A.term c) = A.log c ++ [e] := by
  simp [append]

@[simp] theorem append_acked_self :
    (A.append c e).acked c (A.term c) = (A.log c ++ [e]).length := by simp [append]

@[simp] theorem overwrite_log_self : (A.overwrite v s).log v = merge (A.log v) s := by
  simp [overwrite]

@[simp] theorem accept_log_self : (A.accept v s).log v = merge (A.log v) s := by
  simp [accept, overwrite]

@[simp] theorem accept_acked_self :
    (A.accept v s).acked v (A.term v) = max (A.acked v (A.term v)) s.length := by
  simp [accept]

end Self

section Others

variable {A : State N E} {u v c d : N} {t : ℕ} {e : E} {s : List E}

theorem win_not_running : ¬ (A.win c e).running c := by simp [win]

/-- Who leads after an election was won. -/
theorem win_leader_cases (h : (A.win c e).leader t = some d) :
    (t = A.term c ∧ d = c) ∨ (t ≠ A.term c ∧ A.leader t = some d) := by
  by_cases ht : t = A.term c
  · subst ht
    rw [win_leader_self, Option.some.injEq] at h
    exact Or.inl ⟨rfl, h.symm⟩
  · exact Or.inr ⟨ht, by simpa [win, ht] using h⟩

@[simp] theorem win_elog_self : (A.win c e).elog (A.term c) = A.log c := by simp [win]

theorem win_elog_of_ne (h : t ≠ A.term c) : (A.win c e).elog t = A.elog t := by simp [win, h]

theorem win_llog_of_ne (h : t ≠ A.term c) : (A.win c e).llog t = A.llog t := by simp [win, h]

theorem append_llog_of_ne (h : t ≠ A.term c) : (A.append c e).llog t = A.llog t := by
  simp [append, h]

/-- An acknowledgement is of the node itself and in its term, or was there before. -/
theorem win_acked_of_ne (h : u = c → t ≠ A.term c) : (A.win c e).acked u t = A.acked u t := by
  by_cases hu : u = c
  · subst hu
    simp [win, h rfl]
  · simp [win, hu]

theorem append_acked_of_ne (h : u = c → t ≠ A.term c) :
    (A.append c e).acked u t = A.acked u t := by
  by_cases hu : u = c
  · subst hu
    simp [append, h rfl]
  · simp [append, hu]

theorem overwrite_not_running : ¬ (A.overwrite v s).running v := by simp [overwrite]

theorem accept_not_running : ¬ (A.accept v s).running v := by simp [accept, overwrite]

theorem accept_acked_of_ne (h : u = v → t ≠ A.term v) : (A.accept v s).acked u t = A.acked u t := by
  by_cases hu : u = v
  · subst hu
    simp [accept, h rfl]
  · simp [accept, overwrite, hu]

end Others

end State

/-- **The steps of the protocol.** -/
inductive Step (τ : E → ℕ) (QS : QuorumSystem N) (honest : Prop) : State N E → State N E → Prop
  | advance {A : State N E} (v : N) (t : ℕ) (h : A.term v < t) :
      Step τ QS honest A (A.advance v t)
  | campaign {A : State N E} (v : N) : Step τ QS honest A (A.campaign v)
  | grant {A : State N E} (v c : N) (hv : A.vote v (A.term v) = none) (ht : A.term v ≤ A.term c)
      (hl : A.running c → A.term c = A.term v → UpToDate τ (A.log c) (A.log v)) :
      Step τ QS honest A (A.grant v c)
  | win {A : State N E} (c : N) (e : E) (Q : Finset N) (hr : A.running c)
      (hl : A.leader (A.term c) = none) (hQ : QS.IsQuorum Q)
      (hv : ∀ v ∈ Q, A.vote v (A.term c) = some c) (he : τ e = A.term c) :
      Step τ QS honest A (A.win c e)
  | append {A : State N E} (c : N) (e : E) (hl : A.leader (A.term c) = some c)
      (hlog : A.log c = A.llog (A.term c)) (he : τ e = A.term c) :
      Step τ QS honest A (A.append c e)
  | accept {A : State N E} (v c : N) (s : List E) (hl : A.leader (A.term v) = some c) (hne : c ≠ v)
      (hs : s <+: A.llog (A.term v)) :
      Step τ QS honest A (A.accept v s)
  | overwrite {A : State N E} (v : N) (s : List E) (h : ¬ honest) (hs : Valid τ A s)
      (hle : ∀ e ∈ s, τ e ≤ A.term v) :
      Step τ QS honest A (A.overwrite v s)

/-- Any number of steps. -/
abbrev Steps (τ : E → ℕ) (QS : QuorumSystem N) (honest : Prop) :
    State N E → State N E → Prop :=
  Relation.ReflTransGen (Step τ QS honest)

/-- The states the protocol can reach. -/
abbrev Reachable (τ : E → ℕ) (QS : QuorumSystem N) (honest : Prop) (A : State N E) : Prop :=
  Steps τ QS honest (State.init N E) A

end Steps

/-! ### What a step leaves alone -/

/-- What changes by steps of node `n` alone: the other nodes keep their state, and the facts the
state remembers stay facts. -/
structure Frame {N E : Type} (n : N) (A A' : State N E) : Prop where
  term : ∀ m, m ≠ n → A'.term m = A.term m
  log : ∀ m, m ≠ n → A'.log m = A.log m
  running : ∀ m, m ≠ n → A'.running m = A.running m
  vote : ∀ m, m ≠ n → A'.vote m = A.vote m
  acked : ∀ m, m ≠ n → A'.acked m = A.acked m
  term_le : A.term n ≤ A'.term n
  running_self : A'.running n → A.term n < A'.term n ∨
    (A.running n ∧ A'.term n = A.term n ∧ A'.log n = A.log n)
  vote_some : ∀ {m t c}, A.vote m t = some c → A'.vote m t = some c
  leader_some : ∀ {t c}, A.leader t = some c → A'.leader t = some c
  leader_none : ∀ {t c}, A'.leader t = some c → A.leader t = some c ∨ c = n
  elog : ∀ {t c}, A.leader t = some c → A'.elog t = A.elog t
  llog : ∀ {t c}, A.leader t = some c → A.llog t <+: A'.llog t
  llog_eq : ∀ {t c}, A.leader t = some c → c ≠ n → A'.llog t = A.llog t
  acked_le : ∀ m t, A.acked m t ≤ A'.acked m t

namespace Frame

variable {N E : Type} {n : N} {A A' A'' : State N E}

theorem refl (n : N) (A : State N E) : Frame n A A where
  term _ _ := rfl
  log _ _ := rfl
  running _ _ := rfl
  vote _ _ := rfl
  acked _ _ := rfl
  term_le := le_rfl
  running_self h := Or.inr ⟨h, rfl, rfl⟩
  vote_some h := h
  leader_some h := h
  leader_none h := Or.inl h
  elog _ := rfl
  llog _ := List.prefix_rfl
  llog_eq _ _ := rfl
  acked_le _ _ := le_rfl

theorem trans (h : Frame n A A') (h' : Frame n A' A'') : Frame n A A'' where
  term m hm := (h'.term m hm).trans (h.term m hm)
  log m hm := (h'.log m hm).trans (h.log m hm)
  running m hm := (h'.running m hm).trans (h.running m hm)
  vote m hm := (h'.vote m hm).trans (h.vote m hm)
  acked m hm := (h'.acked m hm).trans (h.acked m hm)
  term_le := h.term_le.trans h'.term_le
  running_self hr := by
    rcases h'.running_self hr with hlt | ⟨hr, ht, hl⟩
    · exact Or.inl (h.term_le.trans_lt hlt)
    · rcases h.running_self hr with hlt | ⟨hr, ht', hl'⟩
      · exact Or.inl (ht ▸ hlt)
      · exact Or.inr ⟨hr, ht.trans ht', hl.trans hl'⟩
  vote_some hv := h'.vote_some (h.vote_some hv)
  leader_some hl := h'.leader_some (h.leader_some hl)
  leader_none hl := (h'.leader_none hl).elim (fun hl => h.leader_none hl) Or.inr
  elog hl := (h'.elog (h.leader_some hl)).trans (h.elog hl)
  llog hl := (h.llog hl).trans (h'.llog (h.leader_some hl))
  llog_eq hl hne := (h'.llog_eq (h.leader_some hl) hne).trans (h.llog_eq hl hne)
  acked_le m t := (h.acked_le m t).trans (h'.acked_le m t)

theorem term_mono (h : Frame n A A') (m : N) : A.term m ≤ A'.term m := by
  by_cases hm : m = n
  · subst hm
    exact h.term_le
  · exact (h.term m hm).ge

end Frame

/-- Validity only rests on facts that stay. -/
theorem Valid.mono {N E : Type} {τ : E → ℕ} {A A' : State N E} {n : N} {ℓ : List E}
    (h : Valid τ A ℓ) (hf : Frame n A A') : Valid τ A' ℓ := by
  intro p e hp
  obtain ⟨⟨c, hc⟩, hp'⟩ := h p e hp
  exact ⟨⟨c, hf.leader_some hc⟩, hp'.trans (hf.llog hc)⟩

namespace Valid

variable {N E : Type} {τ : E → ℕ} {A : State N E} {ℓ s : List E}

theorem nil : Valid τ A [] := by
  intro p e h
  have := h.length_le
  simp at this

theorem shorten (h : Valid τ A ℓ) (hs : s <+: ℓ) : Valid τ A s :=
  fun p e hp => h p e (hp.trans hs)

/-- A valid log can be extended along the log of a leader. -/
theorem append_singleton (h : Valid τ A ℓ) {e : E} {c : N} (hc : A.leader (τ e) = some c)
    (he : ℓ ++ [e] <+: A.llog (τ e)) : Valid τ A (ℓ ++ [e]) := by
  intro p x hp
  rcases List.prefix_concat_iff.1 hp with hp | hp
  · obtain ⟨rfl, hx⟩ := List.append_inj' hp rfl
    obtain rfl : x = e := by simpa using hx
    exact ⟨⟨c, hc⟩, he⟩
  · exact h p x hp

theorem merge (h : Valid τ A ℓ) (hs : Valid τ A s) : Valid τ A (merge ℓ s) := by
  rcases merge_eq_or ℓ s with h' | h' <;> rw [h'] <;> assumption

/-- **Log matching**: two valid logs with entries of the same term at the same index agree up to
that index. -/
theorem matching (h : Valid τ A ℓ) (hs : Valid τ A s) {p q : List E} {x y : E}
    (hp : p ++ [x] <+: ℓ) (hq : q ++ [y] <+: s) (hlen : p.length = q.length) (hτ : τ x = τ y) :
    p ++ [x] = q ++ [y] := by
  have hp' := (h p x hp).2
  have hq' := (hs q y hq).2
  rw [← hτ] at hq'
  exact eq_of_prefix_of_length hp' hq' (by simp [hlen])

/-- A nonempty valid log is a prefix of the log of the leader of its last term. -/
theorem prefix_llog (h : Valid τ A ℓ) (hne : ℓ ≠ []) :
    (∃ c, A.leader (lastTerm τ ℓ) = some c) ∧ ℓ <+: A.llog (lastTerm τ ℓ) := by
  obtain ⟨p, e, rfl⟩ := (List.eq_nil_or_concat' ℓ).resolve_left hne
  rw [lastTerm_append_singleton]
  exact h p e (by simp)

end Valid

/-! ### Frames of the steps -/

section Frames

variable {N E : Type} [DecidableEq N] {A : State N E}

theorem State.frame_advance {v : N} {t : ℕ} (h : A.term v ≤ t) : Frame v A (A.advance v t) := by
  refine { Frame.refl v A with term := ?_, running := ?_, term_le := ?_, running_self := ?_ }
  · intro m hm
    simp [State.advance, hm]
  · intro m hm
    simp [State.advance, hm]
  · simpa [State.advance] using h
  · simp [State.advance]

theorem State.frame_grant {v c : N} (h : A.vote v (A.term v) = none) :
    Frame v A (A.grant v c) := by
  refine { Frame.refl v A with vote := ?_, vote_some := ?_ }
  · intro m hm
    simp [State.grant, hm]
  · intro m t d hd
    by_cases hm : m = v
    · subst hm
      have ht : t ≠ A.term m := by
        rintro rfl
        rw [h] at hd
        exact absurd hd (by simp)
      simpa [State.grant, ht] using hd
    · simpa [State.grant, hm] using hd

theorem State.frame_campaign {v : N} (h : A.vote v (A.term v + 1) = none) :
    Frame v A (A.campaign v) := by
  refine { Frame.refl v A with
    term := ?_, running := ?_, vote := ?_, term_le := ?_, running_self := ?_, vote_some := ?_ }
  · intro m hm
    simp [State.campaign, hm]
  · intro m hm
    simp [State.campaign, hm]
  · intro m hm
    simp [State.campaign, hm]
  · simp [State.campaign]
  · simp [State.campaign]
  · intro m t d hd
    by_cases hm : m = v
    · subst hm
      have ht : t ≠ A.term m + 1 := by
        rintro rfl
        rw [h] at hd
        exact absurd hd (by simp)
      simpa [State.campaign, ht] using hd
    · simpa [State.campaign, hm] using hd

theorem State.frame_overwrite {v : N} {s : List E} : Frame v A (A.overwrite v s) := by
  refine { Frame.refl v A with log := ?_, running := ?_, running_self := ?_ }
  · intro m hm
    simp [State.overwrite, hm]
  · intro m hm
    simp [State.overwrite, hm]
  · simp [State.overwrite]

theorem State.frame_accept {v : N} {s : List E} : Frame v A (A.accept v s) := by
  refine { State.frame_overwrite (A := A) (v := v) (s := s) with acked := ?_, acked_le := ?_ }
  · intro m hm
    simp [State.accept, hm]
  · intro m t
    by_cases hm : m = v
    · subst hm
      by_cases ht : t = A.term m
      · subst ht
        simp [State.accept]
      · simp [State.accept, ht]
    · simp [State.accept, hm]

theorem State.frame_append {c : N} {e : E} (hl : A.leader (A.term c) = some c)
    (hr : ¬ A.running c) (hlog : A.log c = A.llog (A.term c))
    (hack : A.acked c (A.term c) ≤ (A.log c).length) : Frame c A (A.append c e) := by
  refine { Frame.refl c A with
    log := ?_, acked := ?_, running_self := fun h => absurd h hr, llog := ?_, llog_eq := ?_,
    acked_le := ?_ }
  · intro m hm
    simp [State.append, hm]
  · intro m hm
    simp [State.append, hm]
  · intro t d hd
    by_cases ht : t = A.term c
    · subst ht
      simp [State.append, hlog]
    · simp [State.append, ht]
  · intro t d hd hne
    have ht : t ≠ A.term c := by
      rintro rfl
      rw [hl] at hd
      exact hne (by simpa using hd.symm)
    simp [State.append, ht]
  · intro m t
    by_cases hm : m = c
    · subst hm
      by_cases ht : t = A.term m
      · subst ht
        simp [State.append]
        omega
      · simp [State.append, ht]
    · simp [State.append, hm]

theorem State.frame_win {c : N} {e : E} (hl : A.leader (A.term c) = none)
    (hack : A.acked c (A.term c) = 0) : Frame c A (A.win c e) := by
  have hterm : ∀ {t d}, A.leader t = some d → t ≠ A.term c := by
    rintro t d hd rfl
    rw [hl] at hd
    exact absurd hd (by simp)
  refine { Frame.refl c A with
    log := ?_, running := ?_, acked := ?_, running_self := ?_, leader_some := ?_,
    leader_none := ?_, elog := ?_, llog := ?_, llog_eq := ?_, acked_le := ?_ }
  · intro m hm
    simp [State.win, hm]
  · intro m hm
    simp [State.win, hm]
  · intro m hm
    simp [State.win, hm]
  · simp [State.win]
  · intro t d hd
    simpa [State.win, hterm hd] using hd
  · intro t d hd
    by_cases ht : t = A.term c
    · subst ht
      right
      simpa [State.win] using hd.symm
    · left
      simpa [State.win, ht] using hd
  · intro t d hd
    simp [State.win, hterm hd]
  · intro t d hd
    simp [State.win, hterm hd]
  · intro t d hd _
    simp [State.win, hterm hd]
  · intro m t
    by_cases hm : m = c
    · subst hm
      by_cases ht : t = A.term m
      · subst ht
        simp [hack]
      · simp [State.win, ht]
    · simp [State.win, hm]

end Frames

end ReplicatedLog
