/-
**Runs of a transition system, and what holds along them.**

A system is a partial step function `step : S → A → Option S`: the action `a` is enabled in `s` and
leads to `s'` when `step s a = some s'`.  A run is the list of the transitions it makes, so a
property of a run can speak about any of its transitions and the order in which they come.

Main definitions:

* `Runs.Transition` — a state, an action and the state after it;
* `Runs.Run` — `Run step s ts s'`: the transitions `ts` lead from `s` to `s'`;
* `Runs.trace` — the run that a list of actions makes.

Main results:

* `Runs.Run.invariant` — **the invariant rule**: what holds at the start and is preserved by every
  transition holds at the end;
* `Runs.Run.history` — an invariant may speak about the run so far;
* `Runs.Run.invariant_iff` — the exact form of the rule;
* `Runs.Run.invariant_source` — an invariant holds before every transition;
* `Runs.Run.cut`, `Runs.Run.split` — a run can be cut at any of its transitions;
* `Runs.Run.simulate` — **the simulation rule**: a system that follows every step follows every run;
* `Runs.exists_run`, `Runs.exists_run_of_play` — evaluating a list of actions, or of cues that
  choose the actions on the way, gives a run.
-/

import Mathlib.Data.List.Forall2
import Mathlib.Tactic.Common

set_option relaxedAutoImplicit false
set_option autoImplicit false

namespace Runs

variable {S A : Type}

/-- One step of a run. -/
structure Transition (S A : Type) where
  source : S
  action : A
  target : S

/-- `Run step s ts s'`: the transitions `ts`, in this order, lead from `s` to `s'`. -/
inductive Run (step : S → A → Option S) : S → List (Transition S A) → S → Prop
  | nil (s : S) : Run step s [] s
  | snoc {s s₁ s₂ : S} {ts : List (Transition S A)} (a : A) :
      Run step s ts s₁ → step s₁ a = some s₂ → Run step s (ts ++ [⟨s₁, a, s₂⟩]) s₂

variable {step : S → A → Option S}

theorem Run.single {s s' : S} {a : A} (h : step s a = some s') : Run step s [⟨s, a, s'⟩] s' :=
  (Run.nil s).snoc a h

theorem Run.append {s₀ s₁ s₂ : S} {ts us : List (Transition S A)}
    (h : Run step s₀ ts s₁) (h' : Run step s₁ us s₂) : Run step s₀ (ts ++ us) s₂ := by
  induction h' with
  | nil => simpa using h
  | snoc a _ hs ih =>
      rw [← List.append_assoc]
      exact ih.snoc a hs

/-- The invariant rule for a property that speaks about the run so far. -/
theorem Run.history {J : List (Transition S A) → S → Prop} {P : Transition S A → Prop}
    (hstep : ∀ ts s a s', J ts s → step s a = some s' → P ⟨s, a, s'⟩ → J (ts ++ [⟨s, a, s'⟩]) s')
    {s s' : S} {ts : List (Transition S A)} (hr : Run step s ts s') (hs : J [] s)
    (hP : ∀ t ∈ ts, P t) : J ts s' := by
  induction hr with
  | nil => exact hs
  | snoc a _ h ih =>
      exact hstep _ _ _ _ (ih fun t ht => hP t (List.mem_append_left _ ht)) h
        (hP _ (List.mem_append_right _ (List.mem_singleton_self _)))

/-- **The invariant rule.**  The condition `P` on the transitions of the run may be used in the
step. -/
theorem Run.invariant {I : S → Prop} {P : Transition S A → Prop}
    (hstep : ∀ s a s', I s → step s a = some s' → P ⟨s, a, s'⟩ → I s')
    {s s' : S} {ts : List (Transition S A)} (hr : Run step s ts s') (hs : I s)
    (hP : ∀ t ∈ ts, P t) : I s' :=
  hr.history (J := fun _ => I) (fun _ => hstep) hs hP

/-- The exact form of the invariant rule: if the condition `P` decides whether a step keeps the
invariant, it decides whether the whole run does. -/
theorem Run.invariant_iff {I : S → Prop} {P : Transition S A → Prop}
    (hstep : ∀ s a s', I s → step s a = some s' → (I s' ↔ P ⟨s, a, s'⟩))
    {s s' : S} {ts : List (Transition S A)} (hr : Run step s ts s') (hs : I s) :
    (∀ t ∈ ts, I t.target) ↔ ∀ t ∈ ts, P t := by
  induction hr with
  | nil => simp
  | @snoc s₁ s₂ ts a hr h ih =>
      rw [List.forall_mem_append, List.forall_mem_append, List.forall_mem_singleton,
        List.forall_mem_singleton, ← ih]
      refine and_congr_right fun hts => hstep _ _ _ ?_ h
      exact hr.invariant (fun s a s' hs h hP => (hstep s a s' hs h).2 hP) hs (ih.1 hts)

/-- A run can be cut where its list of transitions is. -/
theorem Run.cut {s s' : S} {us vs : List (Transition S A)} {t : Transition S A}
    (hr : Run step s (us ++ t :: vs) s') :
    Run step s us t.source ∧ step t.source t.action = some t.target ∧ Run step t.target vs s' := by
  generalize hts : us ++ t :: vs = ts at hr
  induction hr generalizing vs with
  | nil => simp at hts
  | @snoc s₁ s₂ ts a hr h ih =>
      rcases List.eq_nil_or_concat' vs with rfl | ⟨vs, x, rfl⟩
      · obtain ⟨rfl, ht⟩ := List.append_inj' hts rfl
        obtain rfl : t = ⟨s₁, a, s₂⟩ := by simpa using ht
        exact ⟨hr, h, Run.nil _⟩
      · rw [← List.cons_append, ← List.append_assoc] at hts
        obtain ⟨hts, hx⟩ := List.append_inj' hts rfl
        obtain ⟨h₁, h₂, h₃⟩ := ih hts
        obtain rfl : x = ⟨s₁, a, s₂⟩ := by simpa using hx
        exact ⟨h₁, h₂, h₃.snoc a h⟩

/-- A run can be cut at each of its transitions. -/
theorem Run.split {s s' : S} {ts : List (Transition S A)} (hr : Run step s ts s')
    {t : Transition S A} (ht : t ∈ ts) :
    ∃ us vs, ts = us ++ t :: vs ∧ Run step s us t.source ∧
      step t.source t.action = some t.target ∧ Run step t.target vs s' := by
  obtain ⟨us, vs, rfl⟩ := List.append_of_mem ht
  exact ⟨us, vs, rfl, hr.cut⟩

/-- Every transition of a run is a step. -/
theorem Run.step_of_mem {s s' : S} {ts : List (Transition S A)} (hr : Run step s ts s')
    {t : Transition S A} (ht : t ∈ ts) : step t.source t.action = some t.target := by
  obtain ⟨_, _, -, -, h, -⟩ := hr.split ht
  exact h

/-- An invariant holds before every transition of the run. -/
theorem Run.invariant_source {I : S → Prop} {P : Transition S A → Prop}
    (hstep : ∀ s a s', I s → step s a = some s' → P ⟨s, a, s'⟩ → I s')
    {s s' : S} {ts : List (Transition S A)} (hr : Run step s ts s') (hs : I s)
    (hP : ∀ t ∈ ts, P t) {t : Transition S A} (ht : t ∈ ts) :
    I t.source ∧ step t.source t.action = some t.target := by
  obtain ⟨us, vs, rfl, h, ht, -⟩ := hr.split ht
  exact ⟨h.invariant hstep hs fun u hu => hP u (List.mem_append_left _ hu), ht⟩

/-! ### Two systems side by side -/

/-- Two transitions by the same action, between related states. -/
structure Transition.Alike {S' : Type} (T : S → S' → Prop) (t : Transition S A)
    (t' : Transition S' A) : Prop where
  source : T t.source t'.source
  action : t'.action = t.action
  target : T t.target t'.target

/-- **The simulation rule.**  If a second system follows every step of the first one by the same
action, it follows every run.  The condition `P` on the transitions of the run may be used in the
step. -/
theorem Run.simulate {S' : Type} {step' : S' → A → Option S'} {T : S → S' → Prop}
    {P : Transition S A → Prop}
    (hstep : ∀ s a s₁ s', T s s' → step s a = some s₁ → P ⟨s, a, s₁⟩ →
      ∃ s₁', step' s' a = some s₁' ∧ T s₁ s₁')
    {s s₁ : S} {s' : S'} {ts : List (Transition S A)} (hr : Run step s ts s₁) (hs : T s s')
    (hP : ∀ t ∈ ts, P t) :
    ∃ ts' s₁', Run step' s' ts' s₁' ∧ T s₁ s₁' ∧ List.Forall₂ (Transition.Alike T) ts ts' := by
  induction hr with
  | nil => exact ⟨[], s', Run.nil s', hs, .nil⟩
  | @snoc s₁ s₂ ts a hr h ih =>
      obtain ⟨hPts, hPt⟩ := List.forall_mem_append.1 hP
      obtain ⟨ts', s₁', hr', h₁, hall⟩ := ih hPts
      obtain ⟨s₂', h', h₂⟩ := hstep s₁ a s₂ s₁' h₁ h (hPt _ (List.mem_singleton_self _))
      refine ⟨ts' ++ [⟨s₁', a, s₂'⟩], s₂', hr'.snoc a h', h₂, ?_⟩
      exact List.rel_append hall (.cons ⟨h₁, rfl, h₂⟩ .nil)

theorem exists_alike_of_mem {S' : Type} {T : S → S' → Prop} {ts : List (Transition S A)}
    {ts' : List (Transition S' A)} (hall : List.Forall₂ (Transition.Alike T) ts ts')
    {t : Transition S A} (ht : t ∈ ts) : ∃ t' ∈ ts', t.Alike T t' := by
  induction hall with
  | nil => cases ht
  | @cons u u' _ _ halike _ ih =>
      rcases List.mem_cons.1 ht with rfl | ht
      · exact ⟨u', List.mem_cons_self, halike⟩
      · obtain ⟨t', ht', h⟩ := ih ht
        exact ⟨t', List.mem_cons_of_mem _ ht', h⟩

/-- What holds of the transitions of one run holds of those of the other, if it carries over. -/
theorem forall_mem_of_alike {S' : Type} {T : S → S' → Prop} {ts : List (Transition S A)}
    {ts' : List (Transition S' A)} (hall : List.Forall₂ (Transition.Alike T) ts ts')
    {P : Transition S A → Prop} {P' : Transition S' A → Prop}
    (hP : ∀ t ∈ ts, ∀ t', t.Alike T t' → P t → P' t') (h : ∀ t ∈ ts, P t) : ∀ t' ∈ ts', P' t' := by
  induction hall with
  | nil => simp
  | cons halike _ ih =>
      obtain ⟨ht, hts⟩ := List.forall_mem_cons.1 h
      obtain ⟨hPt, hPts⟩ := List.forall_mem_cons.1 hP
      exact List.forall_mem_cons.2 ⟨hPt _ halike ht, ih hPts hts⟩

/-! ### Runs of given actions -/

/-- The run that a list of actions makes from a state, and where it ends. -/
def trace (step : S → A → Option S) : S → List A → Option (List (Transition S A) × S)
  | s, [] => some ([], s)
  | s, a :: as =>
      match step s a with
      | none => none
      | some s₁ => (trace step s₁ as).map fun r => (⟨s, a, s₁⟩ :: r.1, r.2)

/-- Evaluating a list of actions gives a run. -/
theorem run_of_trace {s s' : S} {as : List A} {ts : List (Transition S A)}
    (h : trace step s as = some (ts, s')) : Run step s ts s' := by
  induction as generalizing s ts with
  | nil =>
      simp only [trace, Option.some.injEq, Prod.mk.injEq] at h
      obtain ⟨rfl, rfl⟩ := h
      exact Run.nil s
  | cons a as ih =>
      rw [trace] at h
      cases hs : step s a with
      | none => simp [hs] at h
      | some s₁ =>
          simp only [hs, Option.map_eq_some_iff, Prod.mk.injEq, Prod.exists] at h
          obtain ⟨us, s₂, hus, rfl, rfl⟩ := h
          exact (Run.single hs).append (ih hus)

/-- A run of given actions, with conditions on its transitions and on its end that can be checked
by evaluation. -/
theorem exists_run (step : S → A → Option S) (s : S) (as : List A) {P : Transition S A → Prop}
    {Q : S → Prop} (h : ∃ r ∈ trace step s as, (∀ t ∈ r.1, P t) ∧ Q r.2) :
    ∃ ts s', Run step s ts s' ∧ (∀ t ∈ ts, P t) ∧ Q s' := by
  obtain ⟨⟨ts, s'⟩, hr, hP, hQ⟩ := h
  exact ⟨ts, s', run_of_trace hr, hP, hQ⟩

/-- The run that a list of cues makes: each cue chooses an action in the state it meets. -/
def play {B : Type} (step : S → A → Option S) (choose : S → B → Option A) :
    S → List B → Option (List (Transition S A) × S)
  | s, [] => some ([], s)
  | s, b :: bs =>
      match choose s b with
      | none => none
      | some a =>
          match step s a with
          | none => none
          | some s₁ => (play step choose s₁ bs).map fun r => (⟨s, a, s₁⟩ :: r.1, r.2)

theorem run_of_play {B : Type} {choose : S → B → Option A} {s s' : S} {bs : List B}
    {ts : List (Transition S A)} (h : play step choose s bs = some (ts, s')) : Run step s ts s' := by
  induction bs generalizing s ts with
  | nil =>
      simp only [play, Option.some.injEq, Prod.mk.injEq] at h
      obtain ⟨rfl, rfl⟩ := h
      exact Run.nil s
  | cons b bs ih =>
      rw [play] at h
      cases hc : choose s b with
      | none => simp [hc] at h
      | some a =>
          cases hs : step s a with
          | none => simp [hc, hs] at h
          | some s₁ =>
              simp only [hc, hs, Option.map_eq_some_iff, Prod.mk.injEq, Prod.exists] at h
              obtain ⟨us, s₂, hus, rfl, rfl⟩ := h
              exact (Run.single hs).append (ih hus)

/-- A run of given cues, with a condition on the run and its end that can be checked by
evaluation. -/
theorem exists_run_of_play {B : Type} (step : S → A → Option S) (choose : S → B → Option A) (s : S)
    (bs : List B) {P : List (Transition S A) → S → Prop}
    (h : ∃ r ∈ play step choose s bs, P r.1 r.2) : ∃ ts s', Run step s ts s' ∧ P ts s' := by
  obtain ⟨⟨ts, s'⟩, hr, hP⟩ := h
  exact ⟨ts, s', run_of_play hr, hP⟩

end Runs
