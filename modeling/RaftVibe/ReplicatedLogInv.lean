/-
**The invariant of the abstract replicated log.**

What holds in every reachable state, whether or not nodes may overwrite their logs: a leader was
voted for by a quorum, so a term has one leader, and every log in the system is put together from
prefixes of leaders' logs.

Main definitions:

* `ReplicatedLog.Inv` — the invariant;
* `ReplicatedLog.Moves` — some steps by one node.

Main results:

* `ReplicatedLog.Inv.of_step`, `ReplicatedLog.Inv.of_reachable` — it is preserved by every step and
  holds of every reachable state;
* `ReplicatedLog.Inv.leader_unique` — **election safety**: a quorum only votes for the leader;
* `ReplicatedLog.Inv.le_lastTerm` — terms do not decrease along a log.
-/

import RaftVibe.ReplicatedLog

set_option relaxedAutoImplicit false
set_option autoImplicit false

namespace ReplicatedLog

/-- **The invariant**: votes are cast in terms already reached, leaders were voted for by quorums,
all logs are valid, and the log of a leader is the log it was elected with followed by entries of
its own term. -/
structure Inv {N E : Type} (τ : E → ℕ) (QS : QuorumSystem N) (A : State N E) : Prop where
  vote_le : ∀ {v t c}, A.vote v t = some c → t ≤ A.term v
  vote_cand : ∀ {v t c}, A.vote v t = some c → t ≤ A.term c
  leader_quorum : ∀ {t c}, A.leader t = some c →
    ∃ Q, QS.IsQuorum Q ∧ ∀ v ∈ Q, A.vote v t = some c
  leader_pos : ∀ {t c}, A.leader t = some c → 1 ≤ t
  leader_le : ∀ {t c}, A.leader t = some c → t ≤ A.term c
  running_vote : ∀ {v}, A.running v → A.vote v (A.term v) = some v
  running_pos : ∀ {v}, A.running v → 1 ≤ A.term v
  running_leader : ∀ {v}, A.running v → A.leader (A.term v) ≠ some v
  valid_log : ∀ v, Valid τ A (A.log v)
  valid_llog : ∀ {t c}, A.leader t = some c → Valid τ A (A.llog t)
  log_le : ∀ v, ∀ e ∈ A.log v, τ e ≤ A.term v
  elog_lt : ∀ {t c}, A.leader t = some c → ∀ e ∈ A.elog t, τ e < t
  own : ∀ {t c}, A.leader t = some c →
    ∃ own, A.llog t = A.elog t ++ own ∧ own ≠ [] ∧ ∀ e ∈ own, τ e = t
  acked_leader : ∀ {v t}, 0 < A.acked v t → (∃ c, A.leader t = some c) ∧ t ≤ A.term v
  acked_le : ∀ {t c}, A.leader t = some c → ∀ v, A.acked v t ≤ (A.llog t).length

namespace Inv

variable {N E : Type} {τ : E → ℕ} {QS : QuorumSystem N} {A : State N E}

theorem init : Inv τ QS (State.init N E) where
  vote_le h := by simp [State.init] at h
  vote_cand h := by simp [State.init] at h
  leader_quorum h := by simp [State.init] at h
  leader_pos h := by simp [State.init] at h
  leader_le h := by simp [State.init] at h
  running_vote h := by simp [State.init] at h
  running_pos h := by simp [State.init] at h
  running_leader h := by simp [State.init] at h
  valid_log _ := Valid.nil
  valid_llog h := by simp [State.init] at h
  log_le v e h := by simp [State.init] at h
  elog_lt h := by simp [State.init] at h
  own h := by simp [State.init] at h
  acked_leader h := by simp [State.init] at h
  acked_le h := by simp [State.init] at h

/-- **Election safety**: whoever a quorum voted for in a term is its leader. -/
theorem leader_unique (h : Inv τ QS A) {t : ℕ} {c d : N} (hc : A.leader t = some c)
    {Q : Finset N} (hQ : QS.IsQuorum Q) (hd : ∀ v ∈ Q, A.vote v t = some d) : c = d := by
  obtain ⟨Q', hQ', hc'⟩ := h.leader_quorum hc
  obtain ⟨v, hv, hv'⟩ := QS.meet hQ hQ'
  have := (hc' v hv').symm.trans (hd v hv)
  simpa using this

/-- A vote not yet cast: nobody has voted in a term above its own. -/
theorem vote_none (h : Inv τ QS A) {v : N} {t : ℕ} (ht : A.term v < t) : A.vote v t = none := by
  cases hv : A.vote v t with
  | none => rfl
  | some c => exact absurd (h.vote_le hv) (by omega)

theorem acked_eq_zero (h : Inv τ QS A) {t : ℕ} (hl : A.leader t = none) (v : N) :
    A.acked v t = 0 := by
  by_contra hne
  obtain ⟨⟨c, hc⟩, -⟩ := h.acked_leader (Nat.pos_of_ne_zero hne)
  rw [hl] at hc
  exact absurd hc (by simp)

/-- Entries of the leader's log have its term or an older one. -/
theorem llog_le (h : Inv τ QS A) {t : ℕ} {c : N} (hc : A.leader t = some c) :
    ∀ e ∈ A.llog t, τ e ≤ t := by
  intro e he
  obtain ⟨own, hown, -, hτ⟩ := h.own hc
  rw [hown] at he
  rcases List.mem_append.1 he with he | he
  · exact (h.elog_lt hc e he).le
  · exact (hτ e he).le

theorem elog_prefix (h : Inv τ QS A) {t : ℕ} {c : N} (hc : A.leader t = some c) :
    A.elog t <+: A.llog t := by
  obtain ⟨own, hown, -, -⟩ := h.own hc
  rw [hown]
  exact List.prefix_append _ _

/-- A prefix of the leader's log that is longer than the log it was elected with ends in an entry
of its term, and conversely. -/
theorem length_elog_lt_iff (h : Inv τ QS A) {t : ℕ} {c : N} (hc : A.leader t = some c)
    {p : List E} {e : E} (hp : p ++ [e] <+: A.llog t) :
    (A.elog t).length < (p ++ [e]).length ↔ τ e = t := by
  obtain ⟨own, hown, -, hτ⟩ := h.own hc
  rw [hown] at hp
  constructor
  · intro hlt
    obtain ⟨q, hq⟩ := List.prefix_of_prefix_length_le (List.prefix_append _ _) hp hlt.le
    have hne : q ≠ [] := by
      rintro rfl
      rw [← hq] at hlt
      simp at hlt
    obtain ⟨q', x, rfl⟩ := (List.eq_nil_or_concat' q).resolve_left hne
    have hx : x = e := by
      rw [← List.append_assoc] at hq
      simpa using (List.append_inj' hq rfl).2
    subst hx
    rw [← hq] at hp
    have hp' := (List.prefix_append_right_inj _).1 hp
    exact hτ x (hp'.subset (by simp))
  · intro he
    by_contra hle
    have hpe := List.prefix_of_prefix_length_le hp (List.prefix_append _ _) (not_lt.1 hle)
    have := h.elog_lt hc e (hpe.subset (by simp))
    omega

/-- The terms of a valid log do not decrease. -/
theorem le_lastTerm (h : Inv τ QS A) {ℓ : List E} (hv : Valid τ A ℓ) {e : E} (he : e ∈ ℓ) :
    τ e ≤ lastTerm τ ℓ := by
  have hne : ℓ ≠ [] := List.ne_nil_of_mem he
  obtain ⟨⟨c, hc⟩, hpre⟩ := hv.prefix_llog hne
  exact h.llog_le hc e (hpre.subset he)

section Preservation

/-- Steps that change neither logs nor leaders keep what the invariant says about them. -/
theorem of_same_logs {A' : State N E} (h : Inv τ QS A) {n : N} (hf : Frame n A A')
    (hlog : A'.log = A.log) (hleader : A'.leader = A.leader) (helog : A'.elog = A.elog)
    (hllog : A'.llog = A.llog) (hacked : A'.acked = A.acked)
    (vote_le : ∀ {v t c}, A'.vote v t = some c → t ≤ A'.term v)
    (vote_cand : ∀ {v t c}, A'.vote v t = some c → t ≤ A'.term c)
    (running_vote : ∀ {v}, A'.running v → A'.vote v (A'.term v) = some v)
    (running_pos : ∀ {v}, A'.running v → 1 ≤ A'.term v)
    (running_leader : ∀ {v}, A'.running v → A'.leader (A'.term v) ≠ some v) : Inv τ QS A' where
  vote_le := vote_le
  vote_cand := vote_cand
  leader_quorum hc := by
    rw [hleader] at hc
    obtain ⟨Q, hQ, hv⟩ := h.leader_quorum hc
    exact ⟨Q, hQ, fun v hvQ => hf.vote_some (hv v hvQ)⟩
  leader_pos hc := h.leader_pos (by rwa [hleader] at hc)
  leader_le hc := (h.leader_le (by rwa [hleader] at hc)).trans (hf.term_mono _)
  running_vote := running_vote
  running_pos := running_pos
  running_leader := running_leader
  valid_log v := by
    rw [hlog]
    exact (h.valid_log v).mono hf
  valid_llog hc := by
    rw [hllog]
    exact (h.valid_llog (by rwa [hleader] at hc)).mono hf
  log_le v e he := by
    rw [hlog] at he
    exact (h.log_le v e he).trans (hf.term_mono v)
  elog_lt hc := by
    rw [helog]
    exact h.elog_lt (by rwa [hleader] at hc)
  own hc := by
    rw [helog, hllog]
    exact h.own (by rwa [hleader] at hc)
  acked_leader hpos := by
    rw [hacked] at hpos
    obtain ⟨hc, ht⟩ := h.acked_leader hpos
    exact ⟨by rwa [hleader], ht.trans (hf.term_mono _)⟩
  acked_le hc v := by
    rw [hacked, hllog]
    exact h.acked_le (by rwa [hleader] at hc) v

section Frames

variable {A' : State N E} {n : N}

/-- A node that does not stand for election, and the others that do. -/
theorem of_stopped (h : Inv τ QS A) (hf : Frame n A A') (hn : ¬ A'.running n) {v : N}
    (hv : A'.running v) :
    A'.vote v (A'.term v) = some v ∧ 1 ≤ A'.term v ∧ A'.leader (A'.term v) ≠ some v := by
  have hvn : v ≠ n := by
    rintro rfl
    exact hn hv
  rw [hf.running v hvn] at hv
  rw [hf.term v hvn]
  refine ⟨hf.vote_some (h.running_vote hv), h.running_pos hv, fun hl => ?_⟩
  rcases hf.leader_none hl with hl | hl
  · exact h.running_leader hv hl
  · exact hvn hl

/-- All logs are valid if that of the node is which has moved. -/
theorem valid_log_of_frame (h : Inv τ QS A) (hf : Frame n A A') (hn : Valid τ A' (A'.log n))
    (v : N) : Valid τ A' (A'.log v) := by
  by_cases hv : v = n
  · subst hv
    exact hn
  · rw [hf.log v hv]
    exact (h.valid_log v).mono hf

/-- Nodes have reached the terms of their entries, if the node has which has moved. -/
theorem log_le_of_frame (h : Inv τ QS A) (hf : Frame n A A') (hn : ∀ e ∈ A'.log n, τ e ≤ A'.term n)
    (v : N) : ∀ e ∈ A'.log v, τ e ≤ A'.term v := by
  by_cases hv : v = n
  · subst hv
    exact hn
  · rw [hf.log v hv, hf.term v hv]
    exact h.log_le v

/-- A log that has grown by an entry of the leader's own term. -/
theorem valid_snoc (h : Inv τ QS A) (hf : Frame n A A') {e : E} (he : τ e = A.term n)
    (hl : A'.leader (A.term n) = some n) (hllog : A'.llog (A.term n) = A.log n ++ [e]) :
    Valid τ A' (A.log n ++ [e]) := by
  refine ((h.valid_log n).mono hf).append_singleton (c := n) ?_ ?_
  · rw [he]
    exact hl
  · rw [he, hllog]

theorem le_of_mem_snoc (h : Inv τ QS A) {e : E} (he : τ e = A.term n) :
    ∀ x ∈ A.log n ++ [e], τ x ≤ A.term n := by
  intro x hx
  rcases List.mem_append.1 hx with hx | hx
  · exact h.log_le n x hx
  · rw [List.mem_singleton.1 hx]
    exact he.le

end Frames

variable [DecidableEq N]

theorem advance (h : Inv τ QS A) {v : N} {t : ℕ} (ht : A.term v < t) :
    Inv τ QS (A.advance v t) := by
  have hf : Frame v A (A.advance v t) := State.frame_advance ht.le
  have hstop : ¬ (A.advance v t).running v := by simp [State.advance]
  refine h.of_same_logs hf rfl rfl rfl rfl rfl ?_ ?_ ?_ ?_ ?_
  · exact fun hv => (h.vote_le hv).trans (hf.term_mono _)
  · exact fun hv => (h.vote_cand hv).trans (hf.term_mono _)
  · exact fun hu => (h.of_stopped hf hstop hu).1
  · exact fun hu => (h.of_stopped hf hstop hu).2.1
  · exact fun hu => (h.of_stopped hf hstop hu).2.2

theorem campaign (h : Inv τ QS A) (v : N) : Inv τ QS (A.campaign v) := by
  have hnone : A.vote v (A.term v + 1) = none := h.vote_none (Nat.lt_succ_self _)
  have hf : Frame v A (A.campaign v) := State.frame_campaign hnone
  have hterm : (A.campaign v).term v = A.term v + 1 := by simp [State.campaign]
  have hvote : ∀ {u t c}, (A.campaign v).vote u t = some c →
      A.vote u t = some c ∨ (u = v ∧ t = A.term v + 1 ∧ c = v) := by
    intro u t c hc
    by_cases hu : u = v
    · subst hu
      by_cases ht : t = A.term u + 1
      · subst ht
        right
        simpa [State.campaign, eq_comm] using hc
      · left
        simpa [State.campaign, ht] using hc
    · left
      rwa [hf.vote u hu] at hc
  refine h.of_same_logs hf rfl rfl rfl rfl rfl ?_ ?_ ?_ ?_ ?_
  · intro u t c hc
    rcases hvote hc with hc | ⟨rfl, rfl, -⟩
    · exact (h.vote_le hc).trans (hf.term_mono u)
    · exact hterm.ge
  · intro u t c hc
    rcases hvote hc with hc | ⟨-, rfl, rfl⟩
    · exact (h.vote_cand hc).trans (hf.term_mono c)
    · exact hterm.ge
  · intro u hu
    by_cases huv : u = v
    · subst huv
      simp [State.campaign]
    · rw [hf.term u huv, hf.vote u huv]
      exact h.running_vote (by rwa [hf.running u huv] at hu)
  · intro u hu
    by_cases huv : u = v
    · subst huv
      omega
    · rw [hf.term u huv]
      exact h.running_pos (by rwa [hf.running u huv] at hu)
  · intro u hu
    by_cases huv : u = v
    · subst huv
      intro hl
      have := h.leader_le hl
      omega
    · rw [hf.term u huv]
      exact h.running_leader (by rwa [hf.running u huv] at hu)

theorem grant (h : Inv τ QS A) {v c : N} (hv : A.vote v (A.term v) = none)
    (ht : A.term v ≤ A.term c) : Inv τ QS (A.grant v c) := by
  have hf : Frame v A (A.grant v c) := State.frame_grant hv
  have hvote : ∀ {u t d}, (A.grant v c).vote u t = some d →
      A.vote u t = some d ∨ (u = v ∧ t = A.term v ∧ d = c) := by
    intro u t d hd
    by_cases hu : u = v
    · subst hu
      by_cases htu : t = A.term u
      · subst htu
        right
        simpa [State.grant, eq_comm] using hd
      · left
        simpa [State.grant, htu] using hd
    · left
      rwa [hf.vote u hu] at hd
  refine h.of_same_logs hf rfl rfl rfl rfl rfl ?_ ?_ ?_ h.running_pos h.running_leader
  · intro u t d hd
    rcases hvote hd with hd | ⟨rfl, rfl, -⟩
    · exact h.vote_le hd
    · exact le_rfl
  · intro u t d hd
    rcases hvote hd with hd | ⟨rfl, rfl, rfl⟩
    · exact h.vote_cand hd
    · exact ht
  · exact fun hu => hf.vote_some (h.running_vote hu)

theorem win (h : Inv τ QS A) {c : N} {e : E} {Q : Finset N} (hr : A.running c)
    (hl : A.leader (A.term c) = none) (hQ : QS.IsQuorum Q)
    (hv : ∀ v ∈ Q, A.vote v (A.term c) = some c) (he : τ e = A.term c) :
    Inv τ QS (A.win c e) := by
  have hf : Frame c A (A.win c e) := State.frame_win hl (h.acked_eq_zero hl c)
  have hlc : (A.win c e).leader (A.term c) = some c := State.win_leader_self ..
  have hvalid : Valid τ (A.win c e) (A.log c ++ [e]) :=
    h.valid_snoc hf he hlc (State.win_llog_self ..)
  refine ⟨fun hd => h.vote_le hd, fun hd => h.vote_cand hd, ?_, ?_, ?_,
    fun hu => (h.of_stopped hf State.win_not_running hu).1,
    fun hu => (h.of_stopped hf State.win_not_running hu).2.1,
    fun hu => (h.of_stopped hf State.win_not_running hu).2.2,
    h.valid_log_of_frame hf (by rwa [State.win_log_self]), ?_,
    h.log_le_of_frame hf (by rw [State.win_log_self]; exact h.le_of_mem_snoc he), ?_, ?_, ?_, ?_⟩
  · -- its quorum
    intro t d hd
    rcases State.win_leader_cases hd with ⟨rfl, rfl⟩ | ⟨-, hd⟩
    · exact ⟨Q, hQ, hv⟩
    · exact h.leader_quorum hd
  · intro t d hd
    rcases State.win_leader_cases hd with ⟨rfl, rfl⟩ | ⟨-, hd⟩
    · exact h.running_pos hr
    · exact h.leader_pos hd
  · intro t d hd
    rcases State.win_leader_cases hd with ⟨rfl, rfl⟩ | ⟨-, hd⟩
    · exact le_rfl
    · exact h.leader_le hd
  · -- its log is valid
    intro t d hd
    rcases State.win_leader_cases hd with ⟨rfl, rfl⟩ | ⟨ht, hd⟩
    · rwa [State.win_llog_self]
    · rw [State.win_llog_of_ne ht]
      exact (h.valid_llog hd).mono hf
  · -- it was elected with older entries: one of its term would need a leader of that term already
    intro t d hd x hx
    rcases State.win_leader_cases hd with ⟨rfl, rfl⟩ | ⟨ht, hd⟩
    · rw [State.win_elog_self] at hx
      refine lt_of_le_of_ne (h.log_le d x hx) ?_
      intro hτ
      obtain ⟨p, q, hpq⟩ := List.append_of_mem hx
      obtain ⟨⟨d', hd'⟩, -⟩ := h.valid_log d p x ⟨q, by rw [hpq]; simp⟩
      rw [hτ, hl] at hd'
      cases hd'
    · rw [State.win_elog_of_ne ht] at hx
      exact h.elog_lt hd x hx
  · -- and then has one entry of its own
    intro t d hd
    rcases State.win_leader_cases hd with ⟨rfl, rfl⟩ | ⟨ht, hd⟩
    · exact ⟨[e], by rw [State.win_llog_self, State.win_elog_self], by simp, by simpa using he⟩
    · rw [State.win_llog_of_ne ht, State.win_elog_of_ne ht]
      exact h.own hd
  · -- which it acknowledges itself
    intro u t hpos
    by_cases hut : u = c ∧ t = A.term c
    · obtain ⟨rfl, rfl⟩ := hut
      exact ⟨⟨u, hlc⟩, le_rfl⟩
    · rw [State.win_acked_of_ne fun hu ht => hut ⟨hu, ht⟩] at hpos
      obtain ⟨⟨d, hd⟩, hle⟩ := h.acked_leader hpos
      exact ⟨⟨d, hf.leader_some hd⟩, hle⟩
  · intro t d hd u
    rcases State.win_leader_cases hd with ⟨rfl, rfl⟩ | ⟨ht, hd⟩
    · rw [State.win_llog_self]
      by_cases hud : u = d
      · subst hud
        rw [State.win_acked_self]
      · rw [hf.acked u hud, h.acked_eq_zero hl u]
        exact Nat.zero_le _
    · rw [State.win_acked_of_ne fun _ => ht, State.win_llog_of_ne ht]
      exact h.acked_le hd u

theorem append (h : Inv τ QS A) {c : N} {e : E} (hl : A.leader (A.term c) = some c)
    (hlog : A.log c = A.llog (A.term c)) (he : τ e = A.term c) : Inv τ QS (A.append c e) := by
  have hack : A.acked c (A.term c) ≤ (A.log c).length := by
    rw [hlog]
    exact h.acked_le hl c
  have hf : Frame c A (A.append c e) :=
    State.frame_append hl (fun hr => h.running_leader hr hl) hlog hack
  have hvalid : Valid τ (A.append c e) (A.log c ++ [e]) :=
    h.valid_snoc hf he hl (State.append_llog_self ..)
  refine ⟨h.vote_le, h.vote_cand, h.leader_quorum, h.leader_pos, h.leader_le, h.running_vote,
    h.running_pos, h.running_leader, h.valid_log_of_frame hf (by rwa [State.append_log_self]), ?_,
    h.log_le_of_frame hf (by rw [State.append_log_self]; exact h.le_of_mem_snoc he), h.elog_lt,
    ?_, ?_, ?_⟩
  · -- its log is valid
    intro t d hd
    by_cases ht : t = A.term c
    · subst ht
      rwa [State.append_llog_self]
    · rw [State.append_llog_of_ne ht]
      exact (h.valid_llog hd).mono hf
  · -- and has one more entry of its own
    intro t d hd
    obtain ⟨own, h₁, h₂, h₃⟩ := h.own hd
    by_cases ht : t = A.term c
    · subst ht
      refine ⟨own ++ [e], ?_, by simp, ?_⟩
      · rw [State.append_llog_self, hlog, h₁, List.append_assoc]
        rfl
      · intro x hx
        rcases List.mem_append.1 hx with hx | hx
        · exact h₃ x hx
        · rw [List.mem_singleton.1 hx]
          exact he
    · rw [State.append_llog_of_ne ht]
      exact ⟨own, h₁, h₂, h₃⟩
  · -- which it acknowledges itself
    intro u t hpos
    by_cases hut : u = c ∧ t = A.term c
    · obtain ⟨rfl, rfl⟩ := hut
      exact ⟨⟨u, hl⟩, le_rfl⟩
    · rw [State.append_acked_of_ne fun hu ht => hut ⟨hu, ht⟩] at hpos
      exact h.acked_leader hpos
  · intro t d hd u
    by_cases ht : t = A.term c
    · subst ht
      rw [State.append_llog_self]
      by_cases huc : u = c
      · subst huc
        rw [State.append_acked_self]
      · rw [hf.acked u huc]
        have hle := h.acked_le hd u
        rw [← hlog] at hle
        rw [List.length_append, List.length_singleton]
        omega
    · rw [State.append_acked_of_ne fun _ => ht, State.append_llog_of_ne ht]
      exact h.acked_le hd u

/-- Taking over a valid log with no term above one's own. -/
theorem overwrite (h : Inv τ QS A) {v : N} {s : List E} (hs : Valid τ A s)
    (hle : ∀ e ∈ s, τ e ≤ A.term v) : Inv τ QS (A.overwrite v s) := by
  have hf : Frame v A (A.overwrite v s) := State.frame_overwrite
  refine ⟨h.vote_le, h.vote_cand, h.leader_quorum, h.leader_pos, h.leader_le,
    fun hu => (h.of_stopped hf State.overwrite_not_running hu).1,
    fun hu => (h.of_stopped hf State.overwrite_not_running hu).2.1,
    fun hu => (h.of_stopped hf State.overwrite_not_running hu).2.2,
    h.valid_log_of_frame hf ?_, fun hd => (h.valid_llog hd).mono hf, h.log_le_of_frame hf ?_,
    h.elog_lt, h.own, h.acked_leader, h.acked_le⟩
  · rw [State.overwrite_log_self]
    exact ((h.valid_log v).merge hs).mono hf
  · rw [State.overwrite_log_self]
    intro x hx
    rcases merge_eq_or (A.log v) s with hm | hm
    · rw [hm] at hx
      exact h.log_le v x hx
    · rw [hm] at hx
      exact hle x hx

theorem accept (h : Inv τ QS A) {v c : N} {s : List E} (hl : A.leader (A.term v) = some c)
    (hs : s <+: A.llog (A.term v)) : Inv τ QS (A.accept v s) := by
  have ho : Inv τ QS (A.overwrite v s) :=
    h.overwrite ((h.valid_llog hl).shorten hs) fun e he => h.llog_le hl e (hs.subset he)
  refine ⟨ho.vote_le, ho.vote_cand, ho.leader_quorum, ho.leader_pos, ho.leader_le, ho.running_vote,
    ho.running_pos, ho.running_leader, ho.valid_log, ho.valid_llog, ho.log_le, ho.elog_lt, ho.own,
    ?_, ?_⟩
  · intro u t hpos
    by_cases hut : u = v ∧ t = A.term v
    · obtain ⟨rfl, rfl⟩ := hut
      exact ⟨⟨c, hl⟩, le_rfl⟩
    · rw [State.accept_acked_of_ne fun hu ht => hut ⟨hu, ht⟩] at hpos
      exact h.acked_leader hpos
  · intro t d hd u
    by_cases hut : u = v ∧ t = A.term v
    · obtain ⟨rfl, rfl⟩ := hut
      rw [State.accept_acked_self]
      exact max_le (h.acked_le hl u) hs.length_le
    · rw [State.accept_acked_of_ne fun hu ht => hut ⟨hu, ht⟩]
      exact h.acked_le hd u

end Preservation

/-- **Every step preserves the invariant.** -/
theorem of_step [DecidableEq N] {honest : Prop} {A' : State N E} (h : Inv τ QS A)
    (hs : Step τ QS honest A A') : Inv τ QS A' := by
  cases hs with
  | advance v t ht => exact h.advance ht
  | campaign v => exact h.campaign v
  | grant v c hv ht _ => exact h.grant hv ht
  | win c e Q hr hl hQ hv he => exact h.win hr hl hQ hv he
  | append c e hl hlog he => exact h.append hl hlog he
  | accept v c s hl _ hs => exact h.accept hl hs
  | overwrite v s _ hs hle => exact h.overwrite hs hle

/-- **The invariant holds of every reachable state.** -/
theorem of_reachable [DecidableEq N] {honest : Prop} (h : Reachable τ QS honest A) :
    Inv τ QS A := by
  induction h with
  | refl => exact init
  | tail _ hs ih => exact ih.of_step hs

end Inv

/-! ### Moves of one node -/

/-- Some steps, all of them by node `n`. -/
structure Moves {N E : Type} [DecidableEq N] (τ : E → ℕ) (QS : QuorumSystem N) (honest : Prop)
    (n : N) (A A' : State N E) : Prop where
  steps : Steps τ QS honest A A'
  frame : Frame n A A'

namespace Moves

variable {N E : Type} [DecidableEq N] {τ : E → ℕ} {QS : QuorumSystem N} {honest : Prop}
  {A A' A'' : State N E} {n : N}

theorem refl (n : N) (A : State N E) : Moves τ QS honest n A A := ⟨.refl, Frame.refl n A⟩

theorem trans (h : Moves τ QS honest n A A') (h' : Moves τ QS honest n A' A'') :
    Moves τ QS honest n A A'' :=
  ⟨h.steps.trans h'.steps, h.frame.trans h'.frame⟩

theorem reachable (h : Moves τ QS honest n A A') (hr : Reachable τ QS honest A) :
    Reachable τ QS honest A' :=
  hr.trans h.steps

theorem advance {t : ℕ} (ht : A.term n < t) : Moves τ QS honest n A (A.advance n t) :=
  ⟨.single (.advance n t ht), State.frame_advance ht.le⟩

theorem campaign (h : Inv τ QS A) (n : N) : Moves τ QS honest n A (A.campaign n) :=
  ⟨.single (.campaign n), State.frame_campaign (h.vote_none (Nat.lt_succ_self _))⟩

theorem grant {c : N} (hv : A.vote n (A.term n) = none) (ht : A.term n ≤ A.term c)
    (hl : A.running c → A.term c = A.term n → UpToDate τ (A.log c) (A.log n)) :
    Moves τ QS honest n A (A.grant n c) :=
  ⟨.single (.grant n c hv ht hl), State.frame_grant hv⟩

theorem win (h : Inv τ QS A) {e : E} {Q : Finset N} (hr : A.running n)
    (hl : A.leader (A.term n) = none) (hQ : QS.IsQuorum Q)
    (hv : ∀ v ∈ Q, A.vote v (A.term n) = some n) (he : τ e = A.term n) :
    Moves τ QS honest n A (A.win n e) :=
  ⟨.single (.win n e Q hr hl hQ hv he), State.frame_win hl (h.acked_eq_zero hl n)⟩

theorem append (h : Inv τ QS A) {e : E} (hl : A.leader (A.term n) = some n)
    (hlog : A.log n = A.llog (A.term n)) (he : τ e = A.term n) :
    Moves τ QS honest n A (A.append n e) :=
  ⟨.single (.append n e hl hlog he), State.frame_append hl (fun hr => h.running_leader hr hl) hlog
    (by rw [hlog]; exact h.acked_le hl n)⟩

theorem accept {c : N} {s : List E} (hl : A.leader (A.term n) = some c) (hne : c ≠ n)
    (hs : s <+: A.llog (A.term n)) : Moves τ QS honest n A (A.accept n s) :=
  ⟨.single (.accept n c s hl hne hs), State.frame_accept⟩

theorem overwrite {s : List E} (h : ¬ honest) (hs : Valid τ A s) (hle : ∀ e ∈ s, τ e ≤ A.term n) :
    Moves τ QS honest n A (A.overwrite n s) :=
  ⟨.single (.overwrite n s h hs hle), State.frame_overwrite⟩

end Moves

end ReplicatedLog
