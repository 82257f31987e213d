/-
**Safety of the abstract replicated log.**

When nobody overwrites logs, what a quorum has acknowledged in a term stays.  An acknowledged
prefix is in the log of the node that acknowledged it until some later leader, elected without it,
takes it away (`Kept.acked_log`); a node that votes passes this on to the log it votes for
(`Kept.vote_log`), and so to the log of the winner (`Kept.leader_vote`).  Two quorums meet, so by
induction on the term there is no such later leader for a committed prefix.

Only a prefix that ends in an entry of the leader's own term is passed on by a vote: this is where
the commit rule comes from.

Main definitions:

* `ReplicatedLog.Loses` — a leader in between does not have the prefix;
* `ReplicatedLog.Kept` — the invariant;
* `ReplicatedLog.Committed`, `ReplicatedLog.CommittedBy` — an index, and a log, committed by a
  quorum.

Main results:

* `ReplicatedLog.Kept.of_reachable` — the invariant of all reachable states;
* `ReplicatedLog.Kept.leader_completeness` — **leader completeness**: a committed prefix is in the
  log that every later leader is elected with;
* `ReplicatedLog.Kept.committed_comparable` — **state machine safety**: of two committed logs,
  one is a prefix of the other.
-/

import RaftVibe.ReplicatedLogInv

set_option relaxedAutoImplicit false
set_option autoImplicit false

namespace ReplicatedLog

variable {N E : Type} {τ : E → ℕ} {QS : QuorumSystem N} {A A' : State N E}

/-- Some leader of a term strictly between was elected without `p`. -/
def Loses (A : State N E) (t₀ : ℕ) (p : List E) (t₁ : ℕ) : Prop :=
  ∃ t c, t₀ < t ∧ t < t₁ ∧ A.leader t = some c ∧ ¬ p <+: A.elog t

theorem Loses.mono {t₀ t₁ t₂ : ℕ} {p : List E} (h : Loses A t₀ p t₁) (ht : t₁ ≤ t₂) :
    Loses A t₀ p t₂ := by
  obtain ⟨t, c, h₀, h₁, hc, hp⟩ := h
  exact ⟨t, c, h₀, h₁.trans_le ht, hc, hp⟩

theorem Loses.frame {n : N} {t₀ t₁ : ℕ} {p : List E} (h : Loses A t₀ p t₁) (hf : Frame n A A') :
    Loses A' t₀ p t₁ := by
  obtain ⟨t, c, h₀, h₁, hc, hp⟩ := h
  exact ⟨t, c, h₀, h₁, hf.leader_some hc, by rwa [hf.elog hc]⟩

/-- **What nodes keep.**  A prefix `p` of the leader's log of term `t₀` that `v` has acknowledged
is handed on: in the log of `v`, to the candidates `v` votes for, and to the leaders elected with
its vote — unless a leader in between was elected without `p`. -/
structure Kept (QS : QuorumSystem N) (A : State N E) : Prop where
  acked_log : ∀ {v t p}, p <+: A.llog t → p.length ≤ A.acked v t →
    p <+: A.log v ∨ Loses A t p (A.term v + 1)
  vote_log : ∀ {v c t₀ p}, A.running c → A.vote v (A.term c) = some c → t₀ < A.term c →
    (A.elog t₀).length < p.length → p <+: A.llog t₀ → p.length ≤ A.acked v t₀ →
    p <+: A.log c ∨ Loses A t₀ p (A.term c + 1)
  leader_vote : ∀ {t c}, A.leader t = some c → ∃ Q, QS.IsQuorum Q ∧ ∀ v ∈ Q, A.vote v t = some c ∧
    ∀ t₀ p, t₀ < t → (A.elog t₀).length < p.length → p <+: A.llog t₀ → p.length ≤ A.acked v t₀ →
      p <+: A.elog t ∨ Loses A t₀ p t

/-- What was acknowledged before a step is a prefix of the leader's log before the step. -/
theorem Inv.prefix_of_acked (h : Inv τ QS A) {n : N} (hf : Frame n A A') {v : N} {t : ℕ}
    {p : List E} (hp : p <+: A'.llog t) (hle : p.length ≤ A.acked v t) : p <+: A.llog t := by
  rcases Nat.eq_zero_or_pos p.length with h0 | hpos
  · rw [List.length_eq_zero_iff.1 h0]
    exact List.nil_prefix
  · obtain ⟨⟨c, hc⟩, -⟩ := h.acked_leader (hpos.trans_le hle)
    exact List.prefix_of_prefix_length_le hp (hf.llog hc) (hle.trans (h.acked_le hc v))

/-- **Votes carry acknowledged prefixes.**  If the log of `v` has a prefix of the leader's log of
term `t₀` that ends in an entry of that term, then a log at least as up to date has it, too,
unless a leader in between was elected without it. -/
theorem Inv.carry (h : Inv τ QS A) {ℓ ℓ' p : List E} {t₀ T : ℕ} {d : N} (hv : Valid τ A ℓ)
    (hv' : Valid τ A ℓ') (hup : UpToDate τ ℓ ℓ') (hT : ∀ e ∈ ℓ, τ e ≤ T)
    (hd : A.leader t₀ = some d) (hown : (A.elog t₀).length < p.length) (hp : p <+: A.llog t₀)
    (hp' : p <+: ℓ') : p <+: ℓ ∨ Loses A t₀ p (T + 1) := by
  have hne : p ≠ [] := by
    rintro rfl
    simp at hown
  obtain ⟨q, x, rfl⟩ := (List.eq_nil_or_concat' p).resolve_left hne
  have hx : τ x = t₀ := (h.length_elog_lt_iff hd hp).1 hown
  have hlast' : t₀ ≤ lastTerm τ ℓ' := hx ▸ h.le_lastTerm hv' (hp'.subset (by simp))
  have hlast : t₀ ≤ lastTerm τ ℓ := by
    rcases hup with hlt | ⟨heq, -⟩ <;> omega
  have hnil : ℓ ≠ [] := by
    rintro rfl
    have := h.leader_pos hd
    rw [lastTerm_nil] at hlast
    omega
  obtain ⟨⟨c, hc⟩, hpre⟩ := hv.prefix_llog hnil
  have hmem : ∃ y ∈ ℓ, τ y = lastTerm τ ℓ := by
    obtain ⟨r, y, rfl⟩ := (List.eq_nil_or_concat' ℓ).resolve_left hnil
    exact ⟨y, by simp, by simp⟩
  obtain ⟨y, hy, hyτ⟩ := hmem
  rcases hlast.eq_or_lt with heq | hlt
  · -- the logs end in the same term, so the longer one has the shorter one's prefix
    left
    have hlen : ℓ'.length ≤ ℓ.length := by
      rcases hup with hlt | ⟨-, hlen⟩
      · omega
      · exact hlen
    rw [← heq] at hpre
    exact List.prefix_of_prefix_length_le hp hpre (hp'.length_le.trans hlen)
  · by_cases hin : q ++ [x] <+: A.elog (lastTerm τ ℓ)
    · left
      rcases List.prefix_or_prefix_of_prefix (hin.trans (h.elog_prefix hc)) hpre with h' | h'
      · exact h'
      · -- the last entry of `ℓ` is too young to be in the old leader's log
        have := h.llog_le hd y ((h'.trans hp).subset hy)
        omega
    · right
      have := hT y hy
      exact ⟨_, c, hlt, by omega, hc, hin⟩

namespace Kept

theorem init : Kept QS (State.init N E) where
  acked_log hp _ := Or.inl (by simpa [State.init] using hp)
  vote_log hr := by simp [State.init] at hr
  leader_vote hc := by simp [State.init] at hc

variable [DecidableEq N]

theorem advance (k : Kept QS A) {v : N} {t : ℕ} (ht : A.term v < t) :
    Kept QS (A.advance v t) := by
  have hf : Frame v A (A.advance v t) := State.frame_advance ht.le
  refine ⟨?_, ?_, ?_⟩
  · intro u t₀ p hp hle
    rcases k.acked_log hp hle with h | h
    · exact Or.inl h
    · exact Or.inr (Loses.mono h (Nat.succ_le_succ (hf.term_mono u)))
  · intro u c t₀ p hr
    by_cases hc : c = v
    · subst hc
      simp [State.advance] at hr
    · rw [hf.running c hc] at hr
      rw [hf.term c hc]
      exact k.vote_log hr
  · exact fun hc => k.leader_vote hc

theorem campaign (h : Inv τ QS A) (k : Kept QS A) (v : N) : Kept QS (A.campaign v) := by
  have hf : Frame v A (A.campaign v) :=
    State.frame_campaign (h.vote_none (Nat.lt_succ_self _))
  have hterm : (A.campaign v).term v = A.term v + 1 := by simp [State.campaign]
  refine ⟨?_, ?_, ?_⟩
  · intro u t₀ p hp hle
    rcases k.acked_log hp hle with h' | h'
    · exact Or.inl h'
    · exact Or.inr (Loses.mono h' (Nat.succ_le_succ (hf.term_mono u)))
  · intro u c t₀ p hr hv ht hown hp hle
    by_cases hc : c = v
    · subst hc
      rw [hterm] at hv ht ⊢
      have huc : u = c := by
        by_contra huc
        rw [hf.vote u huc] at hv
        have := h.vote_cand hv
        omega
      subst huc
      rcases k.acked_log hp hle with h' | h'
      · exact Or.inl h'
      · exact Or.inr (Loses.mono h' (Nat.le_succ _))
    · rw [hf.running c hc] at hr
      rw [hf.term c hc] at hv ht ⊢
      have hv : A.vote u (A.term c) = some c := by
        by_cases hu : u = v
        · subst hu
          by_cases htc : A.term c = A.term u + 1
          · rw [htc] at hv
            simp only [State.campaign, Function.update_self, Option.some.injEq] at hv
            exact absurd hv.symm hc
          · simpa [State.campaign, htc] using hv
        · rwa [hf.vote u hu] at hv
      exact k.vote_log hr hv ht hown hp hle
  · intro t c hc
    obtain ⟨Q, hQ, hvote⟩ := k.leader_vote hc
    exact ⟨Q, hQ, fun u hu => ⟨hf.vote_some (hvote u hu).1, (hvote u hu).2⟩⟩

theorem grant (h : Inv τ QS A) (k : Kept QS A) {v c : N} (hv : A.vote v (A.term v) = none)
    (hl : A.running c → A.term c = A.term v → UpToDate τ (A.log c) (A.log v)) :
    Kept QS (A.grant v c) := by
  have hf : Frame v A (A.grant v c) := State.frame_grant hv
  refine ⟨fun hp hle => k.acked_log hp hle, ?_, ?_⟩
  · intro u d t₀ p hr hvote ht hown hp hle
    by_cases hnew : u = v ∧ A.term d = A.term v
    · obtain ⟨rfl, htd⟩ := hnew
      have hdc : c = d := by
        have hvote : (A.grant u c).vote u (A.term d) = some d := hvote
        rw [htd] at hvote
        simpa [State.grant] using hvote
      subst hdc
      obtain ⟨⟨b, hb⟩, -⟩ := h.acked_leader ((Nat.zero_le _).trans_lt hown |>.trans_le hle)
      rcases k.acked_log hp hle with h' | h'
      · exact h.carry (h.valid_log c) (h.valid_log u) (hl hr htd) (h.log_le c) hb hown hp h'
      · rw [← htd] at h'
        exact Or.inr h'
    · have hvote : A.vote u (A.term d) = some d := by
        have hvote : (A.grant v c).vote u (A.term d) = some d := hvote
        by_cases hu : u = v
        · subst hu
          have htd : A.term d ≠ A.term u := fun h => hnew ⟨rfl, h⟩
          simpa [State.grant, htd] using hvote
        · rwa [hf.vote u hu] at hvote
      exact k.vote_log hr hvote ht hown hp hle
  · intro t d hd
    obtain ⟨Q, hQ, hvote⟩ := k.leader_vote hd
    exact ⟨Q, hQ, fun u hu => ⟨hf.vote_some (hvote u hu).1, (hvote u hu).2⟩⟩

/-- Steps of a leader `c` of term `T` that only add to its log and to what it has acknowledged
itself: what others acknowledged is untouched, and `c` votes in no later term. -/
theorem of_leader_step (h : Inv τ QS A) (k : Kept QS A) {c : N}
    (hf : Frame c A A') (hterm : A'.term c = A.term c) (hvote : A'.vote = A.vote)
    (hrun : ¬ A'.running c)
    (hacked : ∀ {t}, t ≠ A.term c → A'.acked c t = A.acked c t)
    (hlog : A.log c <+: A'.log c) (hown : A'.llog (A.term c) = A'.log c)
    (hnew : ∀ {d}, A'.leader (A.term c) = some d → A.leader (A.term c) = none →
      ∃ Q, QS.IsQuorum Q ∧ ∀ v ∈ Q, A.vote v (A.term c) = some d ∧
      ∀ t₀ p, t₀ < A.term c → (A.elog t₀).length < p.length → p <+: A.llog t₀ →
        p.length ≤ A.acked v t₀ → p <+: A'.elog (A.term c) ∨ Loses A t₀ p (A.term c))
    (hold : ∀ {t d}, A'.leader t = some d → A.leader t = none → t = A.term c) : Kept QS A' := by
  -- an acknowledgement that a later voter has given is an old one
  have hack : ∀ {u t₀ p}, (A'.elog t₀).length < p.length → p <+: A'.llog t₀ →
      p.length ≤ A'.acked u t₀ → (u = c → t₀ ≠ A.term c) →
      (A.elog t₀).length < p.length ∧ p <+: A.llog t₀ ∧ p.length ≤ A.acked u t₀ := by
    intro u t₀ p hlt hp hle hne
    have hle' : p.length ≤ A.acked u t₀ := by
      by_cases huc : u = c
      · subst huc
        rwa [← hacked (hne rfl)]
      · rwa [hf.acked u huc] at hle
    obtain ⟨⟨b, hb⟩, -⟩ := h.acked_leader ((Nat.zero_le _).trans_lt hlt |>.trans_le hle')
    exact ⟨by rwa [← hf.elog hb], h.prefix_of_acked hf hp hle', hle'⟩
  refine ⟨?_, ?_, ?_⟩
  · intro u t p hp hle
    by_cases hut : u = c ∧ t = A.term c
    · obtain ⟨rfl, rfl⟩ := hut
      left
      rwa [hown] at hp
    · have hle' : p.length ≤ A.acked u t := by
        by_cases huc : u = c
        · subst huc
          rwa [hacked fun h => hut ⟨rfl, h⟩] at hle
        · rwa [hf.acked u huc] at hle
      rcases k.acked_log (h.prefix_of_acked hf hp hle') hle' with hk | hk
      · left
        by_cases huc : u = c
        · subst huc
          exact hk.trans hlog
        · rwa [hf.log u huc]
      · exact Or.inr ((hk.frame hf).mono (Nat.succ_le_succ (hf.term_mono u)))
  · intro u d t₀ p hr hv ht hlt hp hle
    have hdc : d ≠ c := by
      rintro rfl
      exact hrun hr
    rw [hf.running d hdc] at hr
    rw [hf.term d hdc] at hv ht ⊢
    rw [hvote] at hv
    obtain ⟨hlt, hp, hle⟩ := hack hlt hp hle (by
      rintro rfl rfl
      have := h.vote_le hv
      omega)
    rcases k.vote_log hr hv ht hlt hp hle with hk | hk
    · left
      rwa [hf.log d hdc]
    · exact Or.inr (hk.frame hf)
  · intro t d hd
    have hvotes : ∀ {Q : Finset N} {v : N} {ℓ : List E}, v ∈ Q → A.vote v t = some d →
        (∀ t₀ p, t₀ < t → (A.elog t₀).length < p.length → p <+: A.llog t₀ →
          p.length ≤ A.acked v t₀ → p <+: ℓ ∨ Loses A t₀ p t) →
        ∀ t₀ p, t₀ < t → (A'.elog t₀).length < p.length → p <+: A'.llog t₀ →
          p.length ≤ A'.acked v t₀ → p <+: ℓ ∨ Loses A' t₀ p t := by
      intro Q v ℓ _ hv hk t₀ p ht hlt hp hle
      obtain ⟨hlt, hp, hle⟩ := hack hlt hp hle (by
        rintro rfl rfl
        have := h.vote_le hv
        omega)
      exact (hk t₀ p ht hlt hp hle).imp id fun hk => hk.frame hf
    cases hl : A.leader t with
    | none =>
        obtain rfl := hold hd hl
        obtain ⟨Q, hQ, hk⟩ := hnew hd hl
        exact ⟨Q, hQ, fun v hv => ⟨by rw [hvote]; exact (hk v hv).1,
          hvotes hv (hk v hv).1 (hk v hv).2⟩⟩
    | some b =>
        have hbd : b = d := by simpa [hf.leader_some hl] using hd
        subst hbd
        obtain ⟨Q, hQ, hk⟩ := k.leader_vote hl
        rw [hf.elog hl]
        exact ⟨Q, hQ, fun v hv => ⟨by rw [hvote]; exact (hk v hv).1,
          hvotes hv (hk v hv).1 (hk v hv).2⟩⟩

theorem win (h : Inv τ QS A) (k : Kept QS A) {c : N} {e : E} {Q : Finset N} (hr : A.running c)
    (hl : A.leader (A.term c) = none) (hQ : QS.IsQuorum Q)
    (hv : ∀ v ∈ Q, A.vote v (A.term c) = some c) : Kept QS (A.win c e) := by
  have hf : Frame c A (A.win c e) := State.frame_win hl (h.acked_eq_zero hl c)
  refine k.of_leader_step h hf rfl rfl State.win_not_running
    (fun ht => State.win_acked_of_ne fun _ => ht) (by simp) (by simp) ?_ ?_
  · intro d hd _
    obtain rfl : c = d := by simpa using hd
    refine ⟨Q, hQ, fun v hvQ => ⟨hv v hvQ, ?_⟩⟩
    intro t₀ p ht hlt hp hle
    rw [State.win_elog_self]
    refine (k.vote_log hr (hv v hvQ) ht hlt hp hle).imp id ?_
    rintro ⟨t, b, h₀, h₁, hb, hnp⟩
    -- no leader of this term yet, so the loss is in an older one
    have hne : t ≠ A.term c := by
      rintro rfl
      rw [hl] at hb
      exact absurd hb (by simp)
    exact ⟨t, b, h₀, by omega, hb, hnp⟩
  · intro t d hd hnone
    rcases State.win_leader_cases hd with ⟨ht, -⟩ | ⟨-, hd⟩
    · exact ht
    · rw [hnone] at hd
      cases hd

theorem append (h : Inv τ QS A) (k : Kept QS A) {c : N} {e : E}
    (hl : A.leader (A.term c) = some c) (hlog : A.log c = A.llog (A.term c)) :
    Kept QS (A.append c e) := by
  have hf : Frame c A (A.append c e) :=
    State.frame_append hl (fun hr => h.running_leader hr hl) hlog (by rw [hlog]; exact h.acked_le hl c)
  refine k.of_leader_step h hf rfl rfl (fun hr => h.running_leader hr hl)
    (fun ht => State.append_acked_of_ne fun _ => ht) (by simp) (by simp) ?_ ?_
  · intro d _ hnone
    rw [hl] at hnone
    cases hnone
  · intro t d hd hnone
    have hd : A.leader t = some d := hd
    rw [hnone] at hd
    cases hd

/-- A node that takes over a prefix of the leader's log keeps what it has acknowledged, now or
before. -/
theorem accept_self (h : Inv τ QS A) (k : Kept QS A) {v c : N} {s : List E}
    (hl : A.leader (A.term v) = some c) (hs : s <+: A.llog (A.term v)) {t : ℕ} {p : List E}
    (hp : p <+: A.llog t) (hle : p.length ≤ (A.accept v s).acked v t) :
    p <+: merge (A.log v) s ∨ Loses A t p (A.term v + 1) := by
  by_cases hnew : t = A.term v ∧ p.length ≤ s.length
  · obtain ⟨rfl, hlen⟩ := hnew
    exact Or.inl ((List.prefix_of_prefix_length_le hp hs hlen).trans (prefix_merge _ _))
  · have hold : p.length ≤ A.acked v t := by
      by_cases ht : t = A.term v
      · subst ht
        rw [State.accept_acked_self] at hle
        have : ¬ p.length ≤ s.length := fun h => hnew ⟨rfl, h⟩
        omega
      · rwa [State.accept_acked_of_ne fun _ => ht] at hle
    rcases k.acked_log hp hold with hk | hk
    · rcases Nat.eq_zero_or_pos p.length with h0 | hpos
      · rw [List.length_eq_zero_iff.1 h0]
        exact Or.inl List.nil_prefix
      · obtain ⟨-, htle⟩ := h.acked_leader (hpos.trans_le hold)
        rcases htle.eq_or_lt with rfl | hlt
        · exact Or.inl (prefix_merge_left hk hp hs)
        · by_cases hin : p <+: A.elog (A.term v)
          · exact Or.inl (prefix_merge_left hk (hin.trans (h.elog_prefix hl)) hs)
          · exact Or.inr ⟨A.term v, c, hlt, Nat.lt_succ_self _, hl, hin⟩
    · exact Or.inr hk

theorem accept (h : Inv τ QS A) (k : Kept QS A) {v c : N} {s : List E}
    (hl : A.leader (A.term v) = some c) (hs : s <+: A.llog (A.term v)) :
    Kept QS (A.accept v s) := by
  have hf : Frame v A (A.accept v s) := State.frame_accept
  have hrun : ¬ (A.accept v s).running v := State.accept_not_running
  refine ⟨?_, ?_, ?_⟩
  · intro u t p hp hle
    by_cases hu : u = v
    · subst hu
      rw [State.accept_log_self]
      exact accept_self h k hl hs hp hle
    · rw [hf.log u hu]
      rw [State.accept_acked_of_ne fun h => absurd h hu] at hle
      exact k.acked_log hp hle
  · intro u d t₀ p hr hv ht hown hp hle
    have hdv : d ≠ v := by
      rintro rfl
      exact hrun hr
    rw [hf.running d hdv] at hr
    rw [hf.log d hdv]
    have hv : A.vote u (A.term d) = some d := hv
    have ht : t₀ < A.term d := ht
    rw [State.accept_acked_of_ne (by rintro rfl rfl; have := h.vote_le hv; omega)] at hle
    exact k.vote_log hr hv ht hown hp hle
  · intro t d hd
    obtain ⟨Q, hQ, hk⟩ := k.leader_vote hd
    refine ⟨Q, hQ, fun u hu => ⟨(hk u hu).1, ?_⟩⟩
    intro t₀ p ht hown hp hle
    have hv := (hk u hu).1
    rw [State.accept_acked_of_ne (by rintro rfl rfl; have := h.vote_le hv; omega)] at hle
    exact (hk u hu).2 t₀ p ht hown hp hle

/-- **Every honest step preserves what nodes keep.** -/
theorem of_step {honest : Prop} (hh : honest) (h : Inv τ QS A) (k : Kept QS A)
    (hs : Step τ QS honest A A') : Kept QS A' := by
  cases hs with
  | advance v t ht => exact k.advance ht
  | campaign v => exact k.campaign h v
  | grant v c hv _ hl => exact k.grant h hv hl
  | win c e Q hr hl hQ hv _ => exact k.win h hr hl hQ hv
  | append c e hl hlog _ => exact k.append h hl hlog
  | accept v c s hl _ hs => exact k.accept h hl hs
  | overwrite v s hno => exact absurd hh hno

theorem of_reachable {honest : Prop} (hh : honest) (h : Reachable τ QS honest A) : Kept QS A := by
  induction h with
  | refl => exact init
  | tail hr hs ih => exact ih.of_step hh (Inv.of_reachable hr) hs

end Kept

/-! ### Commitment -/

/-- **Index `i` is committed in term `t`**: it holds an entry of that term, and a quorum has
acknowledged it in that term. -/
def Committed (QS : QuorumSystem N) (A : State N E) (t i : ℕ) : Prop :=
  (∃ c, A.leader t = some c) ∧ (A.elog t).length < i ∧ i ≤ (A.llog t).length ∧
    ∃ Q, QS.IsQuorum Q ∧ ∀ v ∈ Q, i ≤ A.acked v t

/-- **The log `ℓ` is committed** by a term up to `T`. -/
def CommittedBy (QS : QuorumSystem N) (A : State N E) (T : ℕ) (ℓ : List E) : Prop :=
  ℓ = [] ∨ ∃ t i, t ≤ T ∧ Committed QS A t i ∧ ℓ <+: (A.llog t).take i

theorem Committed.frame {n : N} {t i : ℕ} (h : Committed QS A t i) (hf : Frame n A A') :
    Committed QS A' t i := by
  obtain ⟨⟨c, hc⟩, h₁, h₂, Q, hQ, hack⟩ := h
  exact ⟨⟨c, hf.leader_some hc⟩, by rwa [hf.elog hc], h₂.trans (hf.llog hc).length_le, Q, hQ,
    fun v hv => (hack v hv).trans (hf.acked_le v t)⟩

/-- The committed prefix itself does not change any more. -/
theorem Committed.take_llog {n : N} {t i : ℕ} (h : Committed QS A t i) (hf : Frame n A A') :
    (A'.llog t).take i = (A.llog t).take i := by
  obtain ⟨⟨c, hc⟩, -, h₂, -⟩ := h
  obtain ⟨r, hr⟩ := hf.llog hc
  rw [← hr, List.take_append_of_le_length h₂]

theorem CommittedBy.frame {n : N} {T : ℕ} {ℓ : List E} (h : CommittedBy QS A T ℓ)
    (hf : Frame n A A') : CommittedBy QS A' T ℓ := by
  rcases h with rfl | ⟨t, i, ht, hc, hℓ⟩
  · exact Or.inl rfl
  · exact Or.inr ⟨t, i, ht, hc.frame hf, by rwa [hc.take_llog hf]⟩

theorem CommittedBy.mono {T T' : ℕ} {ℓ : List E} (h : CommittedBy QS A T ℓ) (hT : T ≤ T') :
    CommittedBy QS A T' ℓ := by
  rcases h with rfl | ⟨t, i, ht, hc, hℓ⟩
  · exact Or.inl rfl
  · exact Or.inr ⟨t, i, ht.trans hT, hc, hℓ⟩

theorem CommittedBy.shorten {T : ℕ} {ℓ p : List E} (h : CommittedBy QS A T ℓ) (hp : p <+: ℓ) :
    CommittedBy QS A T p := by
  rcases h with rfl | ⟨t, i, ht, hc, hℓ⟩
  · exact Or.inl (List.prefix_nil.1 hp)
  · exact Or.inr ⟨t, i, ht, hc, hp.trans hℓ⟩

namespace Kept

/-- **Leader completeness**: a committed prefix is in the log that every later leader is elected
with. -/
theorem leader_completeness (k : Kept QS A) {t₀ i : ℕ} (hc : Committed QS A t₀ i) :
    ∀ {t c}, A.leader t = some c → t₀ < t → (A.llog t₀).take i <+: A.elog t := by
  obtain ⟨-, hown, hlen, Q, hQ, hack⟩ := hc
  have htake : ((A.llog t₀).take i).length = i := by simp [hlen]
  intro t
  induction t using Nat.strong_induction_on with
  | _ t ih =>
      intro c hl ht
      obtain ⟨Q', hQ', hvote⟩ := k.leader_vote hl
      obtain ⟨v, hv, hv'⟩ := QS.meet hQ hQ'
      rcases (hvote v hv').2 t₀ _ ht (by rwa [htake]) (List.take_prefix _ _)
        (by rw [htake]; exact hack v hv) with h | ⟨t', d, h₀, h₁, hd, hno⟩
      · exact h
      · exact absurd (ih t' h₁ hd h₀) hno

/-- A committed log is a prefix of the log of every leader of its term or a later one. -/
theorem committed_prefix_llog (h : Inv τ QS A) (k : Kept QS A) {T : ℕ} {ℓ : List E}
    (hℓ : CommittedBy QS A T ℓ) {t : ℕ} {c : N} (hc : A.leader t = some c) (ht : T ≤ t) :
    ℓ <+: A.llog t := by
  rcases hℓ with rfl | ⟨t₀, i, ht₀, hcom, hpre⟩
  · exact List.nil_prefix
  · rcases (ht₀.trans ht).eq_or_lt with rfl | hlt
    · exact hpre.trans (List.take_prefix _ _)
    · exact (hpre.trans (k.leader_completeness hcom hc hlt)).trans (h.elog_prefix hc)

/-- **State machine safety**: of two committed logs, one is a prefix of the other. -/
theorem committed_comparable (h : Inv τ QS A) (k : Kept QS A) {T T' : ℕ} {ℓ ℓ' : List E}
    (hℓ : CommittedBy QS A T ℓ) (hℓ' : CommittedBy QS A T' ℓ') : ℓ <+: ℓ' ∨ ℓ' <+: ℓ := by
  rcases hℓ with rfl | ⟨t, i, -, hcom, hpre⟩
  · exact Or.inl List.nil_prefix
  rcases hℓ' with rfl | ⟨t', i', -, hcom', hpre'⟩
  · exact Or.inr List.nil_prefix
  obtain ⟨c, hc⟩ := hcom.1
  obtain ⟨c', hc'⟩ := hcom'.1
  rcases le_total t t' with ht | ht
  · have hp : ℓ <+: A.llog t' :=
      k.committed_prefix_llog h (Or.inr ⟨t, i, le_rfl, hcom, hpre⟩) hc' ht
    exact List.prefix_or_prefix_of_prefix hp (hpre'.trans (List.take_prefix _ _))
  · have hp : ℓ' <+: A.llog t :=
      k.committed_prefix_llog h (Or.inr ⟨t', i', le_rfl, hcom', hpre'⟩) hc ht
    exact List.prefix_or_prefix_of_prefix (hpre.trans (List.take_prefix _ _)) hp

end Kept

end ReplicatedLog
