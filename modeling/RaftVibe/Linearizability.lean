/-
**Linearizability, object by object.**

Operations take time: each has an interval, and some are known to be over when it ends.  A list of
operations respects real time when nobody in it is over before somebody listed earlier starts.  The
objects that the operations work on can be dealt with one at a time: orders of the operations of each
object, all of which respect real time, are the parts of one order that does.

The common order comes from a point in time for each operation: the latest start among the operations
that its own object has up to there.  The point lies within the interval, and never decreases along
an order, so sorting by it, stably, puts the orders together.

Main definitions:

* `Linearizability.Intervals` — when operations start and end;
* `Linearizability.Intervals.Respects` — a list respects real time;
* `Linearizability.Intervals.interleave` — the orders, put together.

Main results:

* `Linearizability.Intervals.interleave_respects` — the result respects real time;
* `Linearizability.Intervals.locality` — **the parts of one order**.
-/

import Mathlib.Data.List.Sort
import Mathlib.Order.WithBot

set_option relaxedAutoImplicit false
set_option autoImplicit false

namespace Linearizability

/-- When each operation starts and ends, and whether it is known to be over then. -/
structure Intervals (ι T : Type) where
  invoke : ι → T
  complete : ι → T
  done : ι → Prop

namespace Intervals

variable {ι κ T : Type} [LinearOrder T] {o : Intervals ι T} {m : WithBot T} {l l' : List ι}
  {x : WithBot T × ι} {orders : List (List ι)}

/-- `a` is over before `b` starts. -/
def Before (o : Intervals ι T) (a b : ι) : Prop := o.done a ∧ o.complete a < o.invoke b

/-- **Real time**: nobody is over before somebody listed earlier starts. -/
def Respects (o : Intervals ι T) (l : List ι) : Prop := l.Pairwise fun a b => ¬ o.Before b a

theorem Respects.sublist (h : o.Respects l) (hs : l'.Sublist l) : o.Respects l' :=
  List.Pairwise.sublist hs h

/-! ### Points in time -/

/-- Each operation of a list with the latest start up to there, and `m`. -/
def stamp (o : Intervals ι T) : WithBot T → List ι → List (WithBot T × ι)
  | _, [] => []
  | m, i :: l => (max m (o.invoke i), i) :: stamp o (max m (o.invoke i)) l

theorem stamp_map_snd (o : Intervals ι T) (m : WithBot T) (l : List ι) :
    (o.stamp m l).map Prod.snd = l := by
  induction l generalizing m with
  | nil => rfl
  | cons i l ih => rw [stamp, List.map_cons, ih]

theorem le_stamp (hx : x ∈ o.stamp m l) : m ≤ x.1 := by
  induction l generalizing m with
  | nil => simp [stamp] at hx
  | cons i l ih =>
      rw [stamp, List.mem_cons] at hx
      rcases hx with rfl | hx
      · exact le_max_left _ _
      · exact (le_max_left _ _).trans (ih hx)

/-- The points never decrease. -/
theorem stamp_pairwise (o : Intervals ι T) (m : WithBot T) (l : List ι) :
    (o.stamp m l).Pairwise fun x y => x.1 ≤ y.1 := by
  induction l generalizing m with
  | nil => exact List.Pairwise.nil
  | cons i l ih => exact List.pairwise_cons.2 ⟨fun y hy => le_stamp hy, ih _⟩

/-- A point is no earlier than the start of its operation. -/
theorem invoke_le_stamp (hx : x ∈ o.stamp m l) : ↑(o.invoke x.2) ≤ x.1 := by
  induction l generalizing m with
  | nil => simp [stamp] at hx
  | cons i l ih =>
      rw [stamp, List.mem_cons] at hx
      rcases hx with rfl | hx
      · exact le_max_right _ _
      · exact ih hx

/-- In an order that respects real time, a point is no later than the end of its operation. -/
theorem stamp_le_complete (hwf : ∀ i ∈ l, o.done i → o.invoke i ≤ o.complete i) (h : o.Respects l)
    (hm : ∀ i ∈ l, o.done i → m ≤ ↑(o.complete i)) (hx : x ∈ o.stamp m l) (hd : o.done x.2) :
    x.1 ≤ ↑(o.complete x.2) := by
  induction l generalizing m with
  | nil => simp [stamp] at hx
  | cons i l ih =>
      obtain ⟨hi, hl⟩ := List.pairwise_cons.1 h
      obtain ⟨hwfi, hwf⟩ := List.forall_mem_cons.1 hwf
      rw [stamp, List.mem_cons] at hx
      rcases hx with rfl | hx
      · exact max_le (hm i (List.mem_cons_self ..) hd) (WithBot.coe_le_coe.2 (hwfi hd))
      · refine ih hwf hl (fun j hj hdj => max_le (hm j (List.mem_cons_of_mem _ hj) hdj) ?_) hx
        -- whoever comes later is not over before `i` starts
        exact WithBot.coe_le_coe.2 (not_lt.1 fun hlt => hi j hj ⟨hdj, hlt⟩)

/-! ### Putting orders together -/

/-- The operations of all the orders, sorted by their points. -/
def interleave (o : Intervals ι T) (orders : List (List ι)) : List ι :=
  ((orders.map (o.stamp ⊥)).flatten.insertionSort fun x y => x.1 ≤ y.1).map Prod.snd

theorem interleave_perm (o : Intervals ι T) (orders : List (List ι)) :
    (o.interleave orders).Perm orders.flatten := by
  refine ((List.perm_insertionSort _ _).map Prod.snd).trans ?_
  rw [List.map_flatten, List.map_map]
  refine List.Perm.of_eq (congrArg List.flatten ?_)
  exact (List.map_congr_left fun l _ => o.stamp_map_snd ⊥ l).trans (List.map_id _)

/-- **The result respects real time**, if every order does. -/
theorem interleave_respects
    (hwf : ∀ l ∈ orders, ∀ i ∈ l, o.done i → o.invoke i ≤ o.complete i)
    (h : ∀ l ∈ orders, o.Respects l) : o.Respects (o.interleave orders) := by
  have : Std.Total fun x y : WithBot T × ι => x.1 ≤ y.1 := ⟨fun x y => le_total x.1 y.1⟩
  have : IsTrans (WithBot T × ι) fun x y => x.1 ≤ y.1 := ⟨fun _ _ _ => le_trans⟩
  rw [Respects, interleave, List.pairwise_map]
  refine List.Pairwise.imp_of_mem ?_
    (List.pairwise_insertionSort (fun x y : WithBot T × ι => x.1 ≤ y.1) _)
  rintro x y hx hy hxy ⟨hd, hlt⟩
  have hmem {z : WithBot T × ι} (hz : z ∈ (orders.map (o.stamp ⊥)).flatten.insertionSort
      fun x y => x.1 ≤ y.1) : ∃ l ∈ orders, z ∈ o.stamp ⊥ l := by
    rw [List.mem_insertionSort, List.mem_flatten] at hz
    obtain ⟨zs, hzs, hz⟩ := hz
    obtain ⟨l, hl, rfl⟩ := List.mem_map.1 hzs
    exact ⟨l, hl, hz⟩
  obtain ⟨l, hl, hx⟩ := hmem hx
  obtain ⟨l', hl', hy⟩ := hmem hy
  have hend := stamp_le_complete (hwf l' hl') (h l' hl') (fun _ _ _ => bot_le) hy hd
  have := (invoke_le_stamp hx).trans (hxy.trans hend)
  exact absurd (WithBot.coe_le_coe.1 this) (not_le.2 hlt)

/-- Each order is kept. -/
theorem sublist_interleave (o : Intervals ι T) (h : l ∈ orders) :
    l.Sublist (o.interleave orders) := by
  rw [← o.stamp_map_snd ⊥ l]
  exact (List.sublist_insertionSort (o.stamp_pairwise ⊥ l)
    (List.sublist_flatten_of_mem (List.mem_map_of_mem h))).map Prod.snd

/-- The part of one object, in the orders one after the other. -/
theorem filter_flatten [DecidableEq κ] (object : ι → κ) {keys : List κ} (hkeys : keys.Nodup)
    {order : κ → List ι} (hobject : ∀ k ∈ keys, ∀ i ∈ order k, object i = k) {k : κ}
    (hk : k ∈ keys) : ((keys.map order).flatten.filter fun i => object i = k) = order k := by
  -- what the other objects have does not count
  have hnone {ks : List κ} (hks : ∀ k' ∈ ks, k' ≠ k ∧ ∀ i ∈ order k', object i = k') :
      ((ks.map order).flatten.filter fun i => object i = k) = [] := by
    rw [List.filter_eq_nil_iff]
    intro i hi
    obtain ⟨_, hl, hi⟩ := List.mem_flatten.1 hi
    obtain ⟨k', hk', rfl⟩ := List.mem_map.1 hl
    obtain ⟨hne, hobj⟩ := hks k' hk'
    simpa [hobj i hi] using hne
  obtain ⟨before, after, rfl⟩ := List.append_of_mem hk
  have hself : ((order k).filter fun i => object i = k) = order k :=
    List.filter_eq_self.2 fun i hi => by simpa using hobject k hk i hi
  obtain ⟨-, hafter, hdisj⟩ := List.nodup_append.1 hkeys
  rw [List.map_append, List.map_cons, List.flatten_append, List.flatten_cons, List.filter_append,
    List.filter_append, hself, hnone, hnone, List.nil_append, List.append_nil]
  · exact fun k' hk' => ⟨fun heq => (List.nodup_cons.1 hafter).1 (heq ▸ hk'),
      hobject k' (List.mem_append_right _ (List.mem_cons_of_mem _ hk'))⟩
  · exact fun k' hk' => ⟨hdisj k' hk' k (List.mem_cons_self ..),
      hobject k' (List.mem_append_left _ hk')⟩

/-- The parts of all the objects are all that there is. -/
theorem flatMap_filter_perm [DecidableEq κ] (object : ι → κ) {keys : List κ} (hkeys : keys.Nodup)
    (hl : ∀ i ∈ l, object i ∈ keys) :
    (keys.flatMap fun k => l.filter fun i => object i = k).Perm l := by
  induction keys generalizing l with
  | nil =>
      cases l with
      | nil => exact List.Perm.refl _
      | cons i l => exact absurd (hl i (List.mem_cons_self ..)) List.not_mem_nil
  | cons k keys ih =>
      obtain ⟨hk, hkeys⟩ := List.nodup_cons.1 hkeys
      rw [List.flatMap_cons]
      refine List.Perm.trans ?_ (List.filter_append_perm (fun i => object i = k) l)
      refine List.Perm.append_left _ ?_
      -- what the other objects have is among the others
      have hrest : (keys.flatMap fun k' => l.filter fun i => object i = k') =
          keys.flatMap fun k' =>
            (l.filter fun i => !decide (object i = k)).filter fun i => object i = k' := by
        refine List.flatMap_congr fun k' hk' => ?_
        rw [List.filter_filter]
        refine List.filter_congr fun i _ => ?_
        by_cases hi : object i = k'
        · have : object i ≠ k := fun heq => hk (heq ▸ hi ▸ hk')
          simp [hi, hi ▸ this]
        · simp [hi]
      rw [hrest]
      refine ih hkeys fun i hi => ?_
      obtain ⟨hi, hne⟩ := List.mem_filter.1 hi
      exact (List.mem_cons.1 (hl i hi)).resolve_left (by simpa using hne)

/-- **Locality**: orders for each object that respect real time are the parts of one order that
does. -/
theorem locality [DecidableEq κ] (object : ι → κ) {keys : List κ} (hkeys : keys.Nodup)
    {order : κ → List ι}
    (hwf : ∀ k ∈ keys, ∀ i ∈ order k, o.done i → o.invoke i ≤ o.complete i)
    (hobject : ∀ k ∈ keys, ∀ i ∈ order k, object i = k) (h : ∀ k ∈ keys, o.Respects (order k)) :
    ∃ l, l.Perm (keys.map order).flatten ∧ o.Respects l ∧
      ∀ k ∈ keys, (l.filter fun i => object i = k) = order k := by
  refine ⟨o.interleave (keys.map order), o.interleave_perm _, interleave_respects ?_ ?_, ?_⟩
  · simpa using hwf
  · simpa using h
  · intro k hk
    have hpart := filter_flatten object hkeys hobject hk
    -- the part is a permutation of the order, and contains it
    have hperm := (o.interleave_perm (keys.map order)).filter fun i => object i = k
    rw [hpart] at hperm
    have hsub := (o.sublist_interleave (List.mem_map_of_mem (f := order) hk)).filter
      fun i => object i = k
    rw [List.filter_eq_self.2 fun i hi => by simpa using hobject k hk i hi] at hsub
    exact (hsub.eq_of_length hperm.length_eq.symm).symm

end Intervals

end Linearizability
