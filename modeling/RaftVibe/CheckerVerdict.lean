/-
**The verdict of the checker is right.**

The checker deals with the keys one at a time, and a history is linearizable exactly when every key
is: by the locality of linearizability in one direction, by taking the parts of the order in the
other.

Main definitions:

* `RaftVibe.LinearizabilityChecker.placed` — the ids that are placed for a key.

Main results:

* `RaftVibe.LinearizabilityChecker.checkKeys_spec` — what the loop over the keys returns;
* `RaftVibe.LinearizabilityChecker.check_isLinearizable_iff` — **the checker is sound and complete**.
-/

import RaftVibe.CheckerKey

set_option relaxedAutoImplicit false
set_option autoImplicit false

namespace RaftVibe

namespace LinearizabilityChecker

open Linearizability

section Verdict

variable {debug : String → String} {h : History} {keys : List String} {key : String}
  {allLinearizations : List ℕ}

/-! ### The operations of a key -/

/-- The operations of a key that succeeded are those of the history. -/
theorem keyOps_eq (h : History) (key : String) :
    keyOps h key = h.successfulOps.filter fun op => op.key = key := by
  rw [keyOps, History.opsForKey, History.successfulOps, List.filter_filter, List.filter_filter]
  refine List.filter_congr fun op _ => ?_
  cases hres : op.result.isError <;> simp [Operation.Succeeded, hres]

theorem indeterminateWrites_eq (h : History) (key : String) :
    indeterminateWrites h key = h.erroredWrites.filter fun op => op.key = key := by
  rw [indeterminateWrites, History.opsForKey, History.erroredWrites, List.filter_filter,
    List.filter_filter]
  refine List.filter_congr fun op _ => ?_
  have hfailed : decide op.Indeterminate = (op.isWrite && op.result.isError) := by
    rw [Bool.eq_iff_iff, decide_eq_true_eq, Bool.and_eq_true]
    exact Iff.rfl
  rw [hfailed, Bool.and_comm]

theorem mem_keyOps {op : Operation} :
    op ∈ keyOps h key ↔ op ∈ h.ops ∧ op.Succeeded ∧ op.key = key := by
  rw [keyOps_eq, List.mem_filter, History.mem_successfulOps, decide_eq_true_eq, and_assoc]

theorem mem_indeterminateWrites {op : Operation} :
    op ∈ indeterminateWrites h key ↔ op ∈ h.ops ∧ op.Indeterminate ∧ op.key = key := by
  rw [indeterminateWrites_eq, List.mem_filter, History.mem_erroredWrites, decide_eq_true_eq,
    and_assoc]

theorem ofKey (hwf : ∀ op ∈ h.ops, op.invokeTs ≤ op.completeTs) (key : String) :
    OfKey key (keyOps h key) (indeterminateWrites h key) where
  key _ hop := (List.mem_append.1 hop).elim (fun hop => (mem_keyOps.1 hop).2.2)
    fun hop => (mem_indeterminateWrites.1 hop).2.2
  succeeded _ hop := (mem_keyOps.1 hop).2.1
  failed _ hop := (mem_indeterminateWrites.1 hop).2.1
  ordered op hop := hwf op <| (List.mem_append.1 hop).elim (fun hop => (mem_keyOps.1 hop).1)
    fun hop => (mem_indeterminateWrites.1 hop).1

/-- The successful operations of all the keys are those of the history. -/
theorem flatMap_keyOps_perm (hkeys : h.Lists keys) :
    (keys.flatMap (keyOps h)).Perm h.successfulOps := by
  rw [List.flatMap_congr fun key _ => keyOps_eq h key]
  exact Intervals.flatMap_filter_perm Operation.key hkeys.nodup fun op hop =>
    hkeys.mem.2 ⟨op, (History.mem_successfulOps.1 hop).1, rfl⟩

/-- And so are the writes that failed. -/
theorem flatMap_indeterminateWrites_perm (hkeys : h.Lists keys) :
    (keys.flatMap (indeterminateWrites h)).Perm h.erroredWrites := by
  rw [List.flatMap_congr fun key _ => indeterminateWrites_eq h key]
  exact Intervals.flatMap_filter_perm Operation.key hkeys.nodup fun op hop =>
    hkeys.mem.2 ⟨op, (History.mem_erroredWrites.1 hop).1, rfl⟩

/-! ### The loop over the keys -/

/-- The ids placed for a key. -/
def placed (debug : String → String) (h : History) (key : String) : List ℕ :=
  (checkSingleKey debug (keyOps h key) (indeterminateWrites h key)).linearization.getD []

/-- A key without operations is one with nothing to place. -/
theorem checkKeys_cons (debug : String → String) (h : History) (key : String) (keys : List String)
    (allLinearizations : List ℕ) :
    ((checkSingleKey debug (keyOps h key) (indeterminateWrites h key)).isLinearizable = true ∧
        checkKeys debug h (key :: keys) allLinearizations =
          checkKeys debug h keys (allLinearizations ++ placed debug h key)) ∨
      ((checkSingleKey debug (keyOps h key) (indeterminateWrites h key)).isLinearizable = false ∧
        (checkKeys debug h (key :: keys) allLinearizations).isLinearizable = false ∧
        (checkKeys debug h (key :: keys) allLinearizations).linearization = none) := by
  rw [checkKeys]
  split
  · rename_i hempty
    have heq : checkSingleKey debug (keyOps h key) (indeterminateWrites h key) =
        .linearizable [] := by rw [checkSingleKey, if_pos hempty]
    refine Or.inl ⟨by rw [heq]; rfl, ?_⟩
    rw [placed, heq]
    simp [CheckResult.linearizable]
  cases hlin : (checkSingleKey debug (keyOps h key) (indeterminateWrites h key)).isLinearizable with
  | true =>
      obtain ⟨lin, heq⟩ := checkSingleKey_isLinearizable_iff.1 hlin
      refine Or.inl ⟨rfl, ?_⟩
      simp [placed, heq, hlin]
  | false => exact Or.inr ⟨rfl, by simp [hlin, CheckResult.notLinearizable]⟩

/-- **What the loop over the keys returns**: a linearization of all the keys, one after the other, if
each has one. -/
theorem checkKeys_spec (debug : String → String) (h : History) (keys : List String)
    (allLinearizations : List ℕ) :
    ((∀ key ∈ keys,
        (checkSingleKey debug (keyOps h key) (indeterminateWrites h key)).isLinearizable = true) ∧
        checkKeys debug h keys allLinearizations =
          .linearizable (allLinearizations ++ keys.flatMap (placed debug h))) ∨
      ((∃ key ∈ keys,
        (checkSingleKey debug (keyOps h key) (indeterminateWrites h key)).isLinearizable = false) ∧
        (checkKeys debug h keys allLinearizations).isLinearizable = false ∧
        (checkKeys debug h keys allLinearizations).linearization = none) := by
  induction keys generalizing allLinearizations with
  | nil => exact Or.inl ⟨by simp, by simp [checkKeys]⟩
  | cons key keys ih =>
      rcases checkKeys_cons debug h key keys allLinearizations with
        ⟨hkey, heq⟩ | ⟨hkey, hfalse, hnone⟩
      · rw [heq]
        rcases ih (allLinearizations ++ placed debug h key) with ⟨hall, heq⟩ | ⟨⟨key', hk, hf⟩, heq⟩
        · refine Or.inl ⟨List.forall_mem_cons.2 ⟨hkey, hall⟩, ?_⟩
          rw [heq, List.flatMap_cons, List.append_assoc]
        · exact Or.inr ⟨⟨key', List.mem_cons_of_mem _ hk, hf⟩, heq⟩
      · exact Or.inr ⟨⟨key, List.mem_cons_self .., hkey⟩, hfalse, hnone⟩

/-- No keys need no special case. -/
theorem check_eq_checkKeys : check debug keys h = checkKeys debug h keys [] := by
  rw [check]
  split
  · rename_i hempty
    rw [List.isEmpty_iff.1 hempty, checkKeys]
  · rfl

theorem check_isLinearizable_iff_forall :
    (check debug keys h).isLinearizable = true ↔ ∀ key ∈ keys,
      (checkSingleKey debug (keyOps h key) (indeterminateWrites h key)).isLinearizable = true := by
  rw [check_eq_checkKeys]
  rcases checkKeys_spec debug h keys [] with
    ⟨hall, heq⟩ | ⟨⟨key, hkey, hf⟩, hfalse, -⟩
  · rw [heq]
    exact iff_of_true rfl hall
  · rw [hfalse]
    refine iff_of_false (by simp) fun hall => ?_
    rw [hall key hkey] at hf
    cases hf

/-! ### From keys to the history -/

/-- **The part of a key** is an order of its operations. -/
theorem orders_of_linearizes {writes order : List Operation} (hw : h.Linearizes writes order)
    (key : String) :
    Orders (keyOps h key) (indeterminateWrites h key) (writes.filter fun op => op.key = key)
      (order.filter fun op => op.key = key) where
  indeterminate := by
    rw [indeterminateWrites_eq]
    exact hw.indeterminate.filter _
  perm := by
    rw [keyOps_eq, ← List.filter_append]
    exact hw.perm.filter _
  realTime := hw.realTime.sublist List.filter_sublist
  reads := replays_iff_filter.1 hw.reads key

section OfOrders

variable {writes order : String → List Operation}

/-- What the orders of the keys have is what an order of the history should. -/
theorem flatMap_order_perm (hkeys : h.Lists keys) (hall : ∀ key ∈ keys,
      Orders (keyOps h key) (indeterminateWrites h key) (writes key) (order key)) :
    ∃ writes' : List Operation, writes'.Sublist h.erroredWrites ∧
      (keys.flatMap order).Perm (h.successfulOps ++ writes') := by
  -- some of the failed writes of each key are some of the failed writes
  obtain ⟨writes', hwrites, hsub⟩ : (keys.flatMap writes).Subperm h.erroredWrites := by
    refine List.Subperm.trans (List.Sublist.subperm ?_)
      (flatMap_indeterminateWrites_perm hkeys).subperm
    exact List.Sublist.flatMap_right _ fun key hkey => (hall key hkey).indeterminate
  refine ⟨writes', hsub, ?_⟩
  calc
    (keys.flatMap order).Perm (keys.flatMap fun key => keyOps h key ++ writes key) :=
      List.Perm.flatMap_left _ fun key hkey => (hall key hkey).perm
    (keys.flatMap fun key => keyOps h key ++ writes key).Perm
      (keys.flatMap (keyOps h) ++ keys.flatMap writes) := (List.flatMap_append_perm ..).symm
    (keys.flatMap (keyOps h) ++ keys.flatMap writes).Perm (h.successfulOps ++ writes') :=
      (flatMap_keyOps_perm hkeys).append hwrites.symm

/-- **Orders for the keys are the parts of a linearization.** -/
theorem linearizes_of_orders (hkeys : h.Lists keys)
    (hwf : ∀ op ∈ h.ops, op.invokeTs ≤ op.completeTs) (hall : ∀ key ∈ keys,
      Orders (keyOps h key) (indeterminateWrites h key) (writes key) (order key)) :
    ∃ writes order, h.Linearizes writes order := by
  obtain ⟨l, hl, hreal, hpart⟩ := Intervals.locality (o := Operation.intervals) Operation.key
    hkeys.nodup
    (fun key hkey op hop _ => (ofKey hwf key).ordered op ((hall key hkey).mem op hop))
    (fun key hkey op hop => (ofKey hwf key).key op ((hall key hkey).mem op hop))
    fun key hkey => (hall key hkey).realTime
  rw [← List.flatMap_def] at hl
  obtain ⟨writes', hsub, hperm⟩ := flatMap_order_perm hkeys hall
  refine ⟨writes', l, hsub, hl.trans hperm, hreal, replays_iff_filter.2 fun key => ?_⟩
  by_cases hkey : key ∈ keys
  · rw [hpart key hkey]
    exact (hall key hkey).reads
  · -- nothing is listed for other keys
    have hnone : ∀ op ∈ l, ¬ op.key = key := by
      intro op hop heq
      rw [(hl.trans hperm).mem_iff] at hop
      refine hkey (hkeys.mem.2 ⟨op, ?_, heq⟩)
      exact (List.mem_append.1 hop).elim (fun hop => (History.mem_successfulOps.1 hop).1)
        fun hop => (History.mem_erroredWrites.1 (hsub.mem hop)).1
    rw [List.filter_eq_nil_iff.2 fun op hop => by simpa using hnone op hop]
    trivial

end OfOrders

/-- **The checker is sound and complete.** -/
theorem check_isLinearizable_iff (hkeys : h.Lists keys)
    (hwf : ∀ op ∈ h.ops, op.invokeTs ≤ op.completeTs) (htyped : ∀ op ∈ h.ops, op.WellTyped) :
    (check debug keys h).isLinearizable = true ↔ ∃ writes order, h.Linearizes writes order := by
  rw [check_isLinearizable_iff_forall]
  constructor
  · intro hall
    have horders (key : String) : ∃ writes order, key ∈ keys →
        Orders (keyOps h key) (indeterminateWrites h key) writes order := by
      by_cases hkey : key ∈ keys
      · obtain ⟨lin, hlin⟩ := checkSingleKey_isLinearizable_iff.1 (hall key hkey)
        obtain ⟨writes, order, horder, -⟩ := checkSingleKey_sound (ofKey hwf key) hlin
        exact ⟨writes, order, fun _ => horder⟩
      · exact ⟨[], [], fun hmem => absurd hmem hkey⟩
    choose writes order horder using horders
    exact linearizes_of_orders hkeys hwf horder
  · rintro ⟨writes, order, hw⟩ key -
    exact checkSingleKey_complete (ofKey hwf key)
      (fun op hop => htyped op (mem_keyOps.1 hop).1) (orders_of_linearizes hw key)

end Verdict

/-- A failed write was read, so it took effect; a write to another key ran alongside. -/
def failedWriteHistory : History :=
  ⟨[⟨1, 0, "x", .write "a", 0, 1, .error "timeout"⟩, ⟨2, 1, "x", .read, 4, 5, .readOk (some "a")⟩,
    ⟨3, 2, "y", .write "b", 2, 3, .writeOk⟩]⟩

theorem failedWriteHistory_linearizes :
    (check (fun s => s) ["y", "x"] failedWriteHistory).isLinearizable = true ∧
      ∃ writes order, failedWriteHistory.Linearizes writes order := by
  have hcheck : (check (fun s => s) ["y", "x"] failedWriteHistory).isLinearizable = true := by
    decide
  exact ⟨hcheck, (check_isLinearizable_iff (h := failedWriteHistory) ⟨by decide, by decide⟩
    (by decide) (by decide)).1 hcheck⟩

end LinearizabilityChecker

end RaftVibe
