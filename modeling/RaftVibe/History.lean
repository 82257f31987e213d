/-
**Histories of concurrent operations**: what `chaos-test/src/history.rs` records, and what it means
for a history to be linearizable.

A history is the list of the operations of a test run on a store of registers, one for each key.  An
operation has the interval in which it took place.  A write that failed is indeterminate: it may have
taken effect at any time after it was invoked, or never.  The test start time, from which the
timestamps are counted, is left out.

Main definitions:

* `RaftVibe.Operation`, `RaftVibe.History` — the data;
* `RaftVibe.Replays` — every read returns the value of the latest preceding write to its key;
* `RaftVibe.History.Linearizes` — **the definition of linearizability**.

Main results:

* `RaftVibe.replays_iff_filter` — replaying a list is replaying it key by key.
-/

import Mathlib.Data.Finset.Dedup
import RaftVibe.Linearizability

set_option relaxedAutoImplicit false
set_option autoImplicit false

namespace RaftVibe

/-- A read or a write of a single register. -/
inductive OpKind
  | read
  | write (value : String)
deriving DecidableEq, Repr

/-- What an operation returned; a read of `none` found no value. -/
inductive OpResult
  | readOk (value : Option String)
  | writeOk
  | error (message : String)
deriving DecidableEq, Repr

/-- `matches!(result, OpResult::Error(_))`. -/
def OpResult.isError : OpResult → Bool
  | error _ => true
  | _ => false

/-- An operation with its interval. -/
structure Operation where
  id : ℕ
  clientId : ℕ
  key : String
  kind : OpKind
  invokeTs : ℕ
  completeTs : ℕ
  result : OpResult
deriving DecidableEq, Repr

namespace Operation

/-- `is_write`. -/
def isWrite (op : Operation) : Bool :=
  match op.kind with
  | .write _ => true
  | .read => false

/-- The operation did not fail. -/
def Succeeded (op : Operation) : Prop := op.result.isError = false

instance (op : Operation) : Decidable op.Succeeded := inferInstanceAs (Decidable (_ = _))

/-- A write that failed. -/
def Indeterminate (op : Operation) : Prop := op.isWrite = true ∧ op.result.isError = true

instance (op : Operation) : Decidable op.Indeterminate := inferInstanceAs (Decidable (_ ∧ _))

theorem Indeterminate.not_succeeded {op : Operation} (h : op.Indeterminate) : ¬ op.Succeeded := by
  rw [Succeeded, h.2]
  exact Bool.noConfusion

/-- A write carries `WriteOk` or `Error`, and a read carries `ReadOk` or `Error`. -/
def WellTyped (op : Operation) : Prop :=
  (match op.kind, op.result with
    | .write _, .readOk _ => false
    | .read, .writeOk => false
    | _, _ => true) = true

instance (op : Operation) : Decidable op.WellTyped := inferInstanceAs (Decidable (_ = _))

end Operation

/-- The operations of a test run, in the order in which they were added. -/
structure History where
  ops : List Operation
deriving DecidableEq, Repr

namespace History

/-- `ops_for_key`. -/
def opsForKey (h : History) (key : String) : List Operation := h.ops.filter fun op => op.key = key

/-- `unique_keys`. -/
def uniqueKeys (h : History) : Finset String := (h.ops.map Operation.key).toFinset

/-- The order in which an iteration over the hash set `unique_keys` lists the keys: any. -/
structure Lists (h : History) (keys : List String) : Prop where
  nodup : keys.Nodup
  keys : keys.toFinset = h.uniqueKeys

theorem Lists.mem {h : History} {keys : List String} (hk : h.Lists keys) {key : String} :
    key ∈ keys ↔ ∃ op ∈ h.ops, op.key = key := by
  rw [← List.mem_toFinset, hk.keys, uniqueKeys, List.mem_toFinset, List.mem_map]

/-- `successful_ops`. -/
def successfulOps (h : History) : List Operation := h.ops.filter fun op => op.Succeeded

/-- The writes that failed. -/
def erroredWrites (h : History) : List Operation := h.ops.filter fun op => op.Indeterminate

variable {h : History} {op : Operation}

theorem mem_successfulOps : op ∈ h.successfulOps ↔ op ∈ h.ops ∧ op.Succeeded := by
  rw [successfulOps, List.mem_filter, decide_eq_true_eq]

theorem mem_erroredWrites : op ∈ h.erroredWrites ↔ op ∈ h.ops ∧ op.Indeterminate := by
  rw [erroredWrites, List.mem_filter, decide_eq_true_eq]

end History

/-! ### Linearizability -/

/-- The intervals of operations; those that succeeded are over when they end. -/
def Operation.intervals : Linearizability.Intervals Operation ℕ where
  invoke := Operation.invokeTs
  complete := Operation.completeTs
  done := Operation.Succeeded

/-- Replaying the operations on a store of registers, every read returns the value found there. -/
def Replays : (String → Option String) → List Operation → Prop
  | _, [] => True
  | store, op :: rest =>
      match op.kind with
      | .write value => Replays (Function.update store op.key (some value)) rest
      | .read => op.result = .readOk (store op.key) ∧ Replays store rest

/-- **A linearization**: one order of all the successful operations and of some of the writes that
failed, which respects real time, and in which every read returns the value of the latest preceding
write to its key, or `none` if there is none. -/
structure History.Linearizes (h : History) (writes order : List Operation) : Prop where
  indeterminate : writes.Sublist h.erroredWrites
  perm : order.Perm (h.successfulOps ++ writes)
  realTime : Operation.intervals.Respects order
  reads : Replays (fun _ => none) order

/-! ### Key by key -/

/-- The store after an operation. -/
def Operation.after (op : Operation) (store : String → Option String) : String → Option String :=
  match op.kind with
  | .write value => Function.update store op.key (some value)
  | .read => store

/-- An operation touches no other register. -/
theorem Operation.after_of_ne {op : Operation} {key : String} (h : key ≠ op.key)
    (store : String → Option String) : op.after store key = store key := by
  unfold after
  cases op.kind with
  | write value => exact Function.update_of_ne h ..
  | read => rfl

/-- What it leaves in its own register depends on nothing else. -/
theorem Operation.after_congr {op : Operation} {store store' : String → Option String}
    (h : store op.key = store' op.key) : op.after store op.key = op.after store' op.key := by
  unfold after
  cases op.kind with
  | write value =>
      simp only
      rw [Function.update_self, Function.update_self]
  | read => exact h

theorem replays_cons {store : String → Option String} {op : Operation} {rest : List Operation} :
    Replays store (op :: rest) ↔
      (op.kind = .read → op.result = .readOk (store op.key)) ∧ Replays (op.after store) rest := by
  rw [Replays, Operation.after]
  cases op.kind with
  | write value => simp
  | read => simp

theorem replays_congr {store store' : String → Option String} {l : List Operation}
    (h : ∀ op ∈ l, store op.key = store' op.key) : Replays store l ↔ Replays store' l := by
  induction l generalizing store store' with
  | nil => exact Iff.rfl
  | cons op rest ih =>
      obtain ⟨hop, hrest⟩ := List.forall_mem_cons.1 h
      rw [replays_cons, replays_cons, hop, ih fun op' hop' => ?_]
      by_cases hkey : op'.key = op.key
      · rw [hkey]
        exact Operation.after_congr hop
      · rw [Operation.after_of_ne hkey, Operation.after_of_ne hkey]
        exact hrest op' hop'

/-- **Replaying a list is replaying it key by key.** -/
theorem replays_iff_filter {store : String → Option String} {l : List Operation} :
    Replays store l ↔ ∀ key, Replays store (l.filter fun op => op.key = key) := by
  induction l generalizing store with
  | nil => simp [Replays]
  | cons op rest ih =>
      have hself : ((op :: rest).filter fun op' => op'.key = op.key) =
          op :: rest.filter fun op' => op'.key = op.key := by
        rw [List.filter_cons_of_pos (by simp)]
      -- the operations on other keys do not see this one
      have hother {key : String} (hkey : op.key ≠ key) :
          Replays store ((op :: rest).filter fun op' => op'.key = key) ↔
            Replays (op.after store) (rest.filter fun op' => op'.key = key) := by
        rw [List.filter_cons_of_neg (by simpa using hkey)]
        refine replays_congr fun op' hop' => ?_
        have hmem : op'.key = key := by simpa using (List.mem_filter.1 hop').2
        rw [hmem, Operation.after_of_ne hkey.symm]
      rw [replays_cons, ih]
      constructor
      · rintro ⟨hread, h⟩ key
        by_cases hkey : op.key = key
        · subst hkey
          rw [hself, replays_cons]
          exact ⟨hread, h op.key⟩
        · exact (hother hkey).2 (h key)
      · intro h
        have hown := h op.key
        rw [hself, replays_cons] at hown
        refine ⟨hown.1, fun key => ?_⟩
        by_cases hkey : op.key = key
        · subst hkey
          exact hown.2
        · exact (hother hkey).1 (h key)

end RaftVibe
