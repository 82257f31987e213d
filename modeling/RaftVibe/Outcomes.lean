/-
**What a program that may fail ensures.**

A program of type `Except ε α` returns a value or fails with an error.  `Ensures x Q E` says what
holds in either case, and `Related Q E x y` that two programs end alike; the rules follow the way such
programs are put together.

Main definitions:

* `Outcomes.Ensures` — a postcondition for returning and one for failing;
* `Outcomes.Related` — both programs return, or both fail.

Main results:

* `Outcomes.Ensures.bind`, `Outcomes.Related.bind` — the rules of sequencing.
-/

import Mathlib.Tactic.Common

set_option relaxedAutoImplicit false
set_option autoImplicit false

namespace Outcomes

variable {ε α β : Type}

/-- `x` returns a value that satisfies `Q`, or fails with an error that satisfies `E`. -/
def Ensures (x : Except ε α) (Q : α → Prop) (E : ε → Prop) : Prop :=
  match x with
  | .ok a => Q a
  | .error e => E e

namespace Ensures

variable {x : Except ε α} {Q : α → Prop} {E : ε → Prop}

@[simp] theorem ok_iff {a : α} : Ensures (.ok a : Except ε α) Q E ↔ Q a := Iff.rfl

@[simp] theorem error_iff {e : ε} : Ensures (.error e : Except ε α) Q E ↔ E e := Iff.rfl

@[simp] theorem pure_iff {a : α} : Ensures (pure a : Except ε α) Q E ↔ Q a := Iff.rfl

/-- **Sequencing**: what the first program ensures is what the second may rely on. -/
theorem bind {f : α → Except ε β} {R : β → Prop} (h : Ensures x Q E)
    (hf : ∀ a, Q a → Ensures (f a) R E) : Ensures (x >>= f) R E := by
  cases x with
  | ok a => exact hf a h
  | error e => exact h

theorem of_ok {a : α} (h : Ensures x Q E) (hx : x = .ok a) : Q a := by
  subst hx
  exact h

theorem of_error {e : ε} (h : Ensures x Q E) (hx : x = .error e) : E e := by
  subst hx
  exact h

end Ensures

variable {ε' α' β' : Type}

/-- Both programs return, with values that `Q` relates, or both fail, with errors that `E` relates. -/
def Related (Q : α → α' → Prop) (E : ε → ε' → Prop) : Except ε α → Except ε' α' → Prop
  | .ok a, .ok a' => Q a a'
  | .error e, .error e' => E e e'
  | _, _ => False

namespace Related

variable {x : Except ε α} {x' : Except ε' α'} {Q : α → α' → Prop} {E : ε → ε' → Prop}

/-- **Sequencing**: programs that end alike go on alike, if what follows does. -/
theorem bind {f : α → Except ε β} {f' : α' → Except ε' β'} {P : β → β' → Prop}
    (h : Related Q E x x')
    (hf : ∀ a a', x = .ok a → Q a a' → Related P E (f a) (f' a')) :
    Related P E (x >>= f) (x' >>= f') := by
  match x, x', h with
  | .ok a, .ok a', h => exact hf a a' rfl h
  | .error e, .error e', h => exact h

/-- Both return, or both fail. -/
@[elab_as_elim]
theorem elim {P : Except ε α → Except ε' α' → Prop} (h : Related Q E x x')
    (hok : ∀ a a', Q a a' → P (.ok a) (.ok a')) (herror : ∀ e e', E e e' → P (.error e) (.error e')) :
    P x x' := by
  match x, x', h with
  | .ok a, .ok a', h => exact hok a a' h
  | .error e, .error e', h => exact herror e e' h

/-- If one program returns, so does the other. -/
theorem exists_ok {a : α} (h : Related Q E x x') (hx : x = .ok a) : ∃ a', x' = .ok a' ∧ Q a a' := by
  subst hx
  match x', h with
  | .ok a', h => exact ⟨a', rfl, h⟩

end Related

/-- Two choices on the same condition are related if the branches are. -/
theorem ite_rel {P : α → α' → Prop} {c : Prop} [Decidable c] {a b : α} {a' b' : α'}
    (hpos : c → P a a') (hneg : ¬ c → P b b') :
    P (if c then a else b) (if c then a' else b') := by
  split_ifs with hc
  · exact hpos hc
  · exact hneg hc

end Outcomes
