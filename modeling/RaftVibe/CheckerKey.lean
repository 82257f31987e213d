/-
**One key: the search is about linearizations.**

The search works on indices, into the successful operations of the key followed by its failed writes,
with the latter extended to the end of the history.  Here its orders are turned into lists of
operations and back.  A list may hold equal operations, so an order of operations comes from some
order of indices, not from a given one.

The two fast checks are then shown not to matter: what they find has no linearization.

Main definitions:

* `RaftVibe.Orders` — an order of all of some operations and some of some writes.

Main results:

* `RaftVibe.LinearizabilityChecker.checkSingleKey_sound` — **what is returned is the ids of an
  order**;
* `RaftVibe.LinearizabilityChecker.checkSingleKey_complete` — **an order is found if there is one**.
-/

import RaftVibe.CheckerSearch

set_option relaxedAutoImplicit false
set_option autoImplicit false

namespace RaftVibe

/-- **An order of all of `ops`, and of some of the writes `indet`**: it respects real time, and every
read returns the value of the latest preceding write. -/
structure Orders (ops indet writes order : List Operation) : Prop where
  indeterminate : writes.Sublist indet
  perm : order.Perm (ops ++ writes)
  realTime : Operation.intervals.Respects order
  reads : Replays (fun _ => none) order

theorem Orders.mem {ops indet writes order : List Operation} (h : Orders ops indet writes order) :
    ∀ op ∈ order, op ∈ ops ++ indet := by
  intro op hop
  exact (List.mem_append.1 (h.perm.mem_iff.1 hop)).elim (List.mem_append_left _)
    fun hop => List.mem_append_right _ (h.indeterminate.mem hop)

/-- What comes first: earlier invocations, then writes, then the position in a list. -/
def Operation.rank (l : List Operation) (op : Operation) : ℕ ×ₗ Bool ×ₗ ℕ :=
  toLex (op.invokeTs, toLex (!op.isWrite, l.idxOf op))

/-- **The first order**: no other is smaller, comparing them operation by operation. -/
structure FirstOrder (ops indet order : List Operation) : Prop where
  orders : ∃ writes, Orders ops indet writes order
  first : ∀ writes' order', Orders ops indet writes' order' →
    ¬ List.Lex (· < ·) (order'.map (Operation.rank (ops ++ indet)))
      (order.map (Operation.rank (ops ++ indet)))

/-- A write that succeeded carries `WriteOk`. -/
theorem Operation.WellTyped.writeOk {op : Operation} (h : op.WellTyped) (hwrite : op.isWrite = true)
    (hdone : op.Succeeded) : op.result = .writeOk := by
  rw [Operation.isWrite] at hwrite
  rw [Operation.WellTyped] at h
  rw [Operation.Succeeded] at hdone
  cases hkind : op.kind with
  | read => simp [hkind] at hwrite
  | write value =>
      cases hres : op.result with
      | readOk readValue => simp [hkind, hres] at h
      | writeOk => rfl
      | error message => simp [hres, OpResult.isError] at hdone

/-! ### Replaying -/

section Replaying

variable {store : String → Option String} {l l' : List Operation} {op : Operation}
  {key : String}

/-- A read returns what was there, or what an operation of the list wrote. -/
theorem Replays.read_value (h : Replays store l) (hop : op ∈ l) (hread : op.kind = .read) :
    op.result = .readOk (store op.key) ∨
      ∃ op' ∈ l, ∃ value, op'.kind = .write value ∧ op.result = .readOk (some value) := by
  induction l generalizing store with
  | nil => exact absurd hop (List.not_mem_nil)
  | cons first rest ih =>
      cases hkind : first.kind with
      | write value =>
          rw [Replays, hkind] at h
          have hop : op ∈ rest := (List.mem_cons.1 hop).resolve_left fun heq => by
            rw [heq, hkind] at hread
            cases hread
          rcases ih h hop with hres | ⟨op', hop', value', hwrite, hres⟩
          · by_cases hkey : op.key = first.key
            · rw [hkey, Function.update_self] at hres
              exact Or.inr ⟨first, List.mem_cons_self .., value, hkind, hres⟩
            · rw [Function.update_of_ne hkey] at hres
              exact Or.inl hres
          · exact Or.inr ⟨op', List.mem_cons_of_mem _ hop', value', hwrite, hres⟩
      | read =>
          rw [Replays, hkind] at h
          rcases List.mem_cons.1 hop with rfl | hop
          · exact Or.inl h.1
          · rcases ih h.2 hop with hres | ⟨op', hop', hres⟩
            · exact Or.inl hres
            · exact Or.inr ⟨op', List.mem_cons_of_mem _ hop', hres⟩

/-- Once a register has a value, it keeps one. -/
theorem Replays.value_kept (h : Replays store l) (hstore : store key ≠ none) (hop : op ∈ l)
    (hkey : op.key = key) (hread : op.kind = .read) : op.result ≠ .readOk none := by
  rcases h.read_value hop hread with hres | ⟨op', -, value, -, hres⟩
  · rw [hres, hkey]
    simpa using hstore
  · rw [hres]
    simp

/-- Whoever reads after a write finds a value. -/
theorem Replays.after_write (h : Replays store (l ++ op :: l')) {value : String}
    (hwrite : op.kind = .write value) {readOp : Operation} (hop : readOp ∈ l')
    (hkey : readOp.key = op.key) (hread : readOp.kind = .read) :
    readOp.result ≠ .readOk none := by
  induction l generalizing store with
  | nil =>
      rw [List.nil_append, Replays, hwrite] at h
      exact h.value_kept (by simp) hop hkey hread
  | cons first rest ih =>
      rw [List.cons_append, Replays] at h
      cases hkind : first.kind with
      | write value' =>
          rw [hkind] at h
          exact ih h
      | read =>
          rw [hkind] at h
          exact ih h.2

end Replaying

namespace LinearizabilityChecker

open Linearizability

/-! ### The fast checks -/

section FastChecks

variable {ops indet writes order : List Operation} {key : String}

/-- **The first fast check**: what it finds has no order. -/
theorem neverWritten_eq_none (h : Orders ops indet writes order) : neverWritten ops indet = none := by
  rw [neverWritten, List.findSome?_eq_none_iff]
  intro op hop
  split
  · rename_i readValue hread hres
    rw [if_pos]
    have hmem : op ∈ order := h.perm.mem_iff.2 (List.mem_append_left _ hop)
    rcases h.reads.read_value hmem hread with hres' | ⟨op', hop', value, hwrite, hres'⟩
    · obtain rfl : readValue = none := by simpa [hres] using hres'
      exact List.mem_cons_self ..
    · obtain rfl : readValue = some value := by simpa [hres] using hres'
      have hvalue : writtenValue op' = some value := by rw [writtenValue, hwrite]
      refine List.mem_cons_of_mem _ (List.mem_map_of_mem (List.mem_append.2 ?_))
      exact (List.mem_append.1 (h.perm.mem_iff.1 hop')).imp
        (fun hop' => List.mem_filterMap.2 ⟨op', hop', hvalue⟩)
        fun hop' => List.mem_filterMap.2 ⟨op', h.indeterminate.mem hop', hvalue⟩
  · rfl

/-- **The second fast check**: what it finds has no order. -/
theorem staleRead_eq_none (h : Orders ops indet writes order) (hdone : ∀ op ∈ ops, op.Succeeded)
    (hkey : ∀ op ∈ ops, op.key = key) : staleRead ops = none := by
  rw [staleRead, List.findSome?_eq_none_iff]
  intro readOp hreadOp
  split
  · rename_i hread hres
    rw [List.findSome?_eq_none_iff]
    intro writeOp hwriteOp
    split
    · rename_i value hwrite
      rw [if_neg]
      intro hlt
      have hmem {op : Operation} (hop : op ∈ ops) : op ∈ order :=
        h.perm.mem_iff.2 (List.mem_append_left _ hop)
      obtain ⟨before, after, rfl⟩ := List.append_of_mem (hmem hwriteOp)
      -- the write is over before the read starts, so it comes first
      obtain ⟨-, -, hreal⟩ := List.pairwise_append.1 h.realTime
      have hafter : readOp ∈ after := by
        rcases List.mem_append.1 (hmem hreadOp) with hbefore | hself
        · exact absurd ⟨hdone _ hwriteOp, hlt⟩ (hreal _ hbefore _ (List.mem_cons_self ..))
        · refine (List.mem_cons.1 hself).resolve_left fun heq => ?_
          rw [heq, hwrite] at hread
          cases hread
      exact h.reads.after_write hwrite hafter ((hkey _ hreadOp).trans (hkey _ hwriteOp).symm)
        hread hres
    · rfl
  · rfl

end FastChecks

/-! ### Indices and operations -/

/-- An order of the images of a list comes from an order of the list. -/
theorem exists_perm_map {α β : Type} (f : α → β) {l : List α} {m : List β} (h : m.Perm (l.map f)) :
    ∃ l' : List α, l'.Perm l ∧ m = l'.map f := by
  have hcomp : Relation.Comp (fun m l' => m = l'.map f) List.Perm m l := by
    rw [List.eq_map_comp_perm]
    exact h
  obtain ⟨l', heq, hperm⟩ := hcomp
  exact ⟨l', hperm, heq⟩

/-- The indices below `n` are the first `n`. -/
theorem finRange_filter_lt (N n : ℕ) :
    ((List.finRange N).filter fun i => i.val < n) = (List.finRange N).take n := by
  conv_lhs => rw [← List.take_append_drop n (List.finRange N), List.filter_append]
  rw [List.filter_eq_self.2, List.filter_eq_nil_iff.2, List.append_nil]
  · intro i hi
    obtain ⟨k, hk, rfl⟩ := List.mem_iff_getElem.1 hi
    simp
  · intro i hi
    obtain ⟨k, hk, rfl⟩ := List.mem_iff_getElem.1 hi
    simp at hk ⊢
    omega

/-- The other indices are the others. -/
theorem finRange_filter_ge (N n : ℕ) :
    ((List.finRange N).filter fun i => n ≤ i.val) = (List.finRange N).drop n := by
  conv_lhs => rw [← List.take_append_drop n (List.finRange N), List.filter_append]
  rw [List.filter_eq_nil_iff.2, List.filter_eq_self.2, List.nil_append]
  · intro i hi
    obtain ⟨k, hk, rfl⟩ := List.mem_iff_getElem.1 hi
    simp
  · intro i hi
    obtain ⟨k, hk, rfl⟩ := List.mem_iff_getElem.1 hi
    simp at hk ⊢
    omega

section Indices

variable {ops indet writes order : List Operation} {key : String}

/-- All the operations of the search. -/
def allOps (ops indet : List Operation) : List Operation := ops ++ extendIndeterminate ops indet

theorem length_allOps (ops indet : List Operation) :
    (allOps ops indet).length = (ops ++ indet).length := by
  simp [allOps, extendIndeterminate]

/-- The operation of the history at an index. -/
def original (ops indet : List Operation) (i : Fin (allOps ops indet).length) : Operation :=
  (ops ++ indet).get (i.cast (length_allOps ops indet))

theorem val_lt (i : Fin (allOps ops indet).length) : i.val < (ops ++ indet).length :=
  length_allOps ops indet ▸ i.isLt

theorem original_eq (i : Fin (allOps ops indet).length) (h : i.val < (ops ++ indet).length) :
    original ops indet i = (ops ++ indet)[i.val] := rfl

/-- The indices of the operations that succeeded, and those of the writes that failed. -/
def requiredIndices (ops indet : List Operation) : List (Fin (allOps ops indet).length) :=
  (List.finRange (allOps ops indet).length).filter fun i => i.val < ops.length

def optionalIndices (ops indet : List Operation) : List (Fin (allOps ops indet).length) :=
  (List.finRange (allOps ops indet).length).filter fun i => ops.length ≤ i.val

theorem map_original (ops indet : List Operation) :
    (List.finRange (allOps ops indet).length).map (original ops indet) = ops ++ indet := by
  refine List.ext_getElem (by simp [length_allOps]) fun k h₁ h₂ => ?_
  simp [original]

theorem map_requiredIndices (ops indet : List Operation) :
    (requiredIndices ops indet).map (original ops indet) = ops := by
  rw [requiredIndices, finRange_filter_lt, List.map_take, map_original, List.take_left]

theorem map_optionalIndices (ops indet : List Operation) :
    (optionalIndices ops indet).map (original ops indet) = indet := by
  rw [optionalIndices, finRange_filter_ge, List.map_drop, map_original, List.drop_left]

/-- An operation that succeeded is searched as it is. -/
theorem getElem_allOps_of_lt {i : Fin (allOps ops indet).length} (h : i.val < ops.length) :
    (allOps ops indet).get i = original ops indet i := by
  rw [List.get_eq_getElem, original_eq i (val_lt i)]
  simp only [allOps]
  rw [List.getElem_append_left h, List.getElem_append_left h]

/-- The time at which the failed writes are extended to end. -/
def maxTs (ops indet : List Operation) : ℕ :=
  ((ops ++ indet).map Operation.completeTs).max?.getD 0

/-- A failed write is searched as one that succeeded at the end of the history. -/
theorem getElem_allOps_of_ge {i : Fin (allOps ops indet).length} (h : ops.length ≤ i.val) :
    (allOps ops indet).get i =
      { original ops indet i with completeTs := maxTs ops indet, result := .writeOk } := by
  rw [List.get_eq_getElem, original_eq i (val_lt i)]
  simp only [allOps]
  rw [List.getElem_append_right h, List.getElem_append_right h]
  simp [extendIndeterminate, maxTs]

/-- Extending the interval and the result changes nothing else. -/
theorem original_fields (i : Fin (allOps ops indet).length) :
    (original ops indet i).id = ((allOps ops indet).get i).id ∧
      (original ops indet i).kind = ((allOps ops indet).get i).kind ∧
      (original ops indet i).invokeTs = ((allOps ops indet).get i).invokeTs := by
  rcases Nat.lt_or_ge i.val ops.length with h | h
  · rw [getElem_allOps_of_lt h]
    exact ⟨rfl, rfl, rfl⟩
  · rw [getElem_allOps_of_ge h]
    exact ⟨rfl, rfl, rfl⟩

theorem original_mem (i : Fin (allOps ops indet).length) : original ops indet i ∈ ops ++ indet :=
  List.getElem_mem _

theorem original_mem_of_lt {i : Fin (allOps ops indet).length} (h : i.val < ops.length) :
    original ops indet i ∈ ops := by
  rw [original_eq i (val_lt i), List.getElem_append_left h]
  exact List.getElem_mem _

theorem original_mem_of_ge {i : Fin (allOps ops indet).length} (h : ops.length ≤ i.val) :
    original ops indet i ∈ indet := by
  rw [original_eq i (val_lt i), List.getElem_append_right h]
  exact List.getElem_mem _

/-- **The operations of one key**: those that succeeded, and the writes that failed. -/
structure OfKey (key : String) (ops indet : List Operation) : Prop where
  key : ∀ op ∈ ops ++ indet, op.key = key
  succeeded : ∀ op ∈ ops, op.Succeeded
  failed : ∀ op ∈ indet, op.Indeterminate
  ordered : ∀ op ∈ ops ++ indet, op.invokeTs ≤ op.completeTs

/-- What is required is what succeeded. -/
theorem OfKey.isRequired_iff (hk : OfKey key ops indet) (i : Fin (allOps ops indet).length) :
    i.val < ops.length ↔ (original ops indet i).Succeeded := by
  constructor
  · exact fun h => hk.succeeded _ (original_mem_of_lt h)
  · intro hd
    refine not_le.1 fun h => ?_
    have := (hk.failed _ (original_mem_of_ge h)).2
    rw [hd] at this
    cases this

/-- The search sees real time as it is. -/
theorem OfKey.before_iff (hk : OfKey key ops indet) (i j : Fin (allOps ops indet).length) :
    (intervals (allOps ops indet) fun i => i.val < ops.length).Before i j ↔
      Operation.intervals.Before (original ops indet i) (original ops indet j) := by
  simp only [Intervals.Before, intervals, Operation.intervals]
  rw [← hk.isRequired_iff, (original_fields j).2.2]
  refine and_congr_right fun h => ?_
  rw [getElem_allOps_of_lt h]

theorem OfKey.respects_iff (hk : OfKey key ops indet) (π : List (Fin (allOps ops indet).length)) :
    (intervals (allOps ops indet) fun i => i.val < ops.length).Respects π ↔
      Operation.intervals.Respects (π.map (original ops indet)) := by
  rw [Intervals.Respects, Intervals.Respects, List.pairwise_map]
  exact List.Pairwise.iff fun i j => not_congr (hk.before_iff j i)

/-- A write is applied when it succeeded. -/
theorem tryApply_of_write {op : Operation} {model : RegisterModel} {value : String}
    (hkind : op.kind = .write value) :
    tryApply op model = if op.result = .writeOk then (true, ⟨some value⟩) else (false, model) := by
  rw [tryApply, hkind]
  cases op.result <;> rfl

/-- A read is applied when it returned the value of the register. -/
theorem tryApply_of_read {op : Operation} {model : RegisterModel} (hkind : op.kind = .read) :
    tryApply op model = (decide (op.result = .readOk model.value), model) := by
  rw [tryApply, hkind]
  cases op.result with
  | readOk value =>
      by_cases hvalue : model.value = value
      · simp [RegisterModel.checkRead, hvalue]
      · simp [RegisterModel.checkRead, hvalue, Ne.symm hvalue]
  | writeOk => rfl
  | error message => rfl

/-- **The model is the register of the key.** -/
theorem OfKey.accepts_iff (hk : OfKey key ops indet) {store : String → Option String}
    {model : RegisterModel} (hstore : store key = model.value)
    (π : List (Fin (allOps ops indet).length)) :
    Accepts (allOps ops indet) model π ↔
      Replays store (π.map (original ops indet)) ∧
        ∀ i ∈ π, (original ops indet i).isWrite = true →
          ((allOps ops indet).get i).result = .writeOk := by
  induction π generalizing store model with
  | nil => simp [Accepts, Replays]
  | cons i π ih =>
      obtain ⟨-, hkind, -⟩ := original_fields i
      have hkey := hk.key _ (original_mem i)
      rw [Accepts, List.map_cons, Replays, List.forall_mem_cons, Operation.isWrite, hkind, hkey]
      cases hi : ((allOps ops indet).get i).kind with
      | write value =>
          rw [tryApply_of_write hi]
          by_cases hres : ((allOps ops indet).get i).result = .writeOk
          · have hnew : Function.update store key (some value) key =
                (⟨some value⟩ : RegisterModel).value := Function.update_self ..
            rw [if_pos hres, ih hnew]
            constructor
            · rintro ⟨-, h, hall⟩
              exact ⟨h, fun _ => hres, hall⟩
            · rintro ⟨h, -, hall⟩
              exact ⟨rfl, h, hall⟩
          · rw [if_neg hres]
            constructor
            · rintro ⟨hvalid, -⟩
              cases hvalid
            · rintro ⟨-, h, -⟩
              exact absurd (h rfl) hres
      | read =>
          -- a failed operation is a write, so this one is searched as it is
          have hlt : i.val < ops.length := by
            refine not_le.1 fun hge => ?_
            have := (hk.failed _ (original_mem_of_ge hge)).1
            rw [Operation.isWrite, hkind, hi] at this
            cases this
          rw [tryApply_of_read hi, ih hstore, getElem_allOps_of_lt hlt, hstore]
          simp [and_assoc]

theorem OfKey.accepts_new_iff (hk : OfKey key ops indet)
    (π : List (Fin (allOps ops indet).length)) :
    Accepts (allOps ops indet) .new π ↔
      Replays (fun _ => none) (π.map (original ops indet)) ∧
        ∀ i ∈ π, (original ops indet i).isWrite = true →
          ((allOps ops indet).get i).result = .writeOk :=
  hk.accepts_iff rfl π

/-- The indices are listed in order. -/
theorem indices_pairwise (ops indet : List Operation) :
    (requiredIndices ops indet ++ optionalIndices ops indet).Pairwise (·.val < ·.val) := by
  rw [requiredIndices, optionalIndices, finRange_filter_lt, finRange_filter_ge,
    List.take_append_drop]
  exact List.pairwise_lt_finRange _

theorem length_indices (ops indet : List Operation) :
    (requiredIndices ops indet).length + (optionalIndices ops indet).length =
      (allOps ops indet).length := by
  rw [requiredIndices, optionalIndices, finRange_filter_lt, finRange_filter_ge,
    ← List.length_append, List.take_append_drop, List.length_finRange]

/-- The position of an operation is its index. -/
theorem map_rank_original (hnodup : (ops ++ indet).Nodup)
    (π : List (Fin (allOps ops indet).length)) :
    (π.map (original ops indet)).map (Operation.rank (ops ++ indet)) =
      π.map (rank (allOps ops indet)) := by
  rw [List.map_map]
  refine List.map_congr_left fun i _ => ?_
  obtain ⟨-, hkind, hinvoke⟩ := original_fields i
  rw [Function.comp, Operation.rank, rank, hinvoke, Operation.isWrite, Operation.isWrite, hkind,
    original_eq i (val_lt i), hnodup.idxOf_getElem]

/-- At the start, everything is left. -/
theorem OfKey.searching (hk : OfKey key ops indet) :
    Searching (allOps ops indet) (fun i => i.val < ops.length) (requiredIndices ops indet)
      (optionalIndices ops indet) 0 where
  ordered i hi := by
    rw [getElem_allOps_of_lt hi]
    exact hk.ordered _ (original_mem i)
  succeeded i hi := by simpa [requiredIndices] using hi
  failed i hi := by simpa [optionalIndices] using hi
  extended i hi j := by
    have hi : ops.length ≤ i.val := by simpa [optionalIndices] using hi
    rw [getElem_allOps_of_ge hi, ← (original_fields j).2.2]
    refine (hk.ordered _ (original_mem j)).trans ?_
    -- every operation completes by the end of the history
    have hmem : (original ops indet j).completeTs ∈ (ops ++ indet).map Operation.completeTs :=
      List.mem_map_of_mem (original_mem j)
    obtain ⟨t, ht⟩ : ∃ t, ((ops ++ indet).map Operation.completeTs).max? = some t := by
      rw [← Option.isSome_iff_exists, List.isSome_max?_iff]
      exact List.ne_nil_of_mem hmem
    simp only [maxTs, ht, Option.getD_some]
    exact (List.max?_le_iff ht).1 le_rfl _ hmem
  reached _ _ := Nat.zero_le _

/-- **An order of the indices is an order of the operations.** -/
theorem OfKey.orders_of_places (hk : OfKey key ops indet)
    {π : List (Fin (allOps ops indet).length)}
    (hπ : Places (allOps ops indet) (fun i => i.val < ops.length) (requiredIndices ops indet)
      (optionalIndices ops indet) .new π) :
    ∃ writes, Orders ops indet writes (π.map (original ops indet)) := by
  refine ⟨((optionalIndices ops indet).filter fun i => i ∈ π).map (original ops indet), ?_, ?_,
    (hk.respects_iff π).1 hπ.realTime, ((hk.accepts_new_iff π).1 hπ.accepted).1⟩
  · have hsub : ((optionalIndices ops indet).filter fun i => i ∈ π).Sublist
        (optionalIndices ops indet) := List.filter_sublist
    have := hsub.map (original ops indet)
    rwa [map_optionalIndices] at this
  · have hperm : π.Perm
        (requiredIndices ops indet ++ (optionalIndices ops indet).filter fun i => i ∈ π) := by
      refine (List.perm_ext_iff_of_nodup hπ.nodup ?_).2 fun i => ?_
      · refine List.nodup_append.2 ⟨(List.nodup_finRange _).filter _,
          ((List.nodup_finRange _).filter _).filter _, fun i hi j hj => ?_⟩
        rintro rfl
        have hlt := hk.searching.succeeded i hi
        exact hk.searching.failed i (List.mem_filter.1 hj).1 hlt
      · simp only [List.mem_append, List.mem_filter, decide_eq_true_eq]
        constructor
        · exact fun hi => (hπ.within i hi).imp id fun h => ⟨h, hi⟩
        · rintro (hi | ⟨-, hi⟩)
          · exact hπ.covers i hi
          · exact hi
    have := hperm.map (original ops indet)
    rwa [List.map_append, map_requiredIndices] at this

/-- **An order of the operations is an order of the indices**, if the writes that succeeded returned
`WriteOk`. -/
theorem OfKey.places_of_orders (hk : OfKey key ops indet)
    (hwriteOk : ∀ op ∈ ops, op.isWrite = true → op.result = .writeOk)
    (h : Orders ops indet writes order) :
    ∃ π, Places (allOps ops indet) (fun i => i.val < ops.length) (requiredIndices ops indet)
      (optionalIndices ops indet) .new π ∧ order = π.map (original ops indet) := by
  obtain ⟨l, hl, rfl⟩ : ∃ l, List.Sublist l (optionalIndices ops indet) ∧
      writes = l.map (original ops indet) := by
    rw [← List.sublist_map_iff, map_optionalIndices]
    exact h.indeterminate
  have hperm : order.Perm ((requiredIndices ops indet ++ l).map (original ops indet)) := by
    rw [List.map_append, map_requiredIndices]
    exact h.perm
  obtain ⟨π, hπ, rfl⟩ := exists_perm_map (original ops indet) hperm
  refine ⟨π, ⟨?_, fun i hi => ?_, fun i hi => ?_, (hk.respects_iff π).2 h.realTime,
    (hk.accepts_new_iff π).2 ⟨h.reads, fun i _ hwrite => ?_⟩⟩, rfl⟩
  · refine hπ.nodup_iff.2 (List.nodup_append.2 ⟨(List.nodup_finRange _).filter _,
      hl.nodup ((List.nodup_finRange _).filter _), fun i hi j hj => ?_⟩)
    rintro rfl
    have hlt := hk.searching.succeeded i hi
    exact hk.searching.failed i (hl.mem hj) hlt
  · exact hπ.mem_iff.2 (List.mem_append_left _ hi)
  · exact (List.mem_append.1 (hπ.mem_iff.1 hi)).imp id fun hi => hl.mem hi
  · rcases Nat.lt_or_ge i.val ops.length with hlt | hge
    · rw [getElem_allOps_of_lt hlt]
      exact hwriteOk _ (original_mem_of_lt hlt) hwrite
    · rw [getElem_allOps_of_ge hge]

end Indices

/-! ### The verdict -/

section Verdict

variable {debug : String → String} {ops indet writes order : List Operation} {key : String}
  {lin : List ℕ}

/-- A linearization is what makes the verdict positive. -/
theorem checkSingleKey_isLinearizable_iff :
    (checkSingleKey debug ops indet).isLinearizable = true ↔
      ∃ lin, (checkSingleKey debug ops indet).linearization = some lin := by
  rw [checkSingleKey]
  split
  · simp [CheckResult.linearizable]
  split
  · simp [CheckResult.notLinearizable]
  split
  · simp [CheckResult.notLinearizable]
  simp only
  split
  · simp [CheckResult.linearizable]
  · simp [CheckResult.notLinearizable]

/-- **What is returned is the ids of an order of indices**, and of the first one. -/
theorem checkSingleKey_places (hk : OfKey key ops indet)
    (h : (checkSingleKey debug ops indet).linearization = some lin) :
    ∃ π, Places (allOps ops indet) (fun i => i.val < ops.length) (requiredIndices ops indet)
        (optionalIndices ops indet) .new π ∧
      lin = (π.map (original ops indet)).map Operation.id ∧
      ∀ π', Places (allOps ops indet) (fun i => i.val < ops.length) (requiredIndices ops indet)
          (optionalIndices ops indet) .new π' →
        ¬ List.Lex (· < ·) (π'.map (rank (allOps ops indet))) (π.map (rank (allOps ops indet))) := by
  rw [checkSingleKey] at h
  split at h
  · rename_i hempty
    simp only [Bool.and_eq_true, List.isEmpty_iff] at hempty
    obtain ⟨rfl, rfl⟩ := hempty
    obtain rfl : [] = lin := Option.some.inj h
    exact ⟨[], Places.nil rfl, rfl, fun _ _ => List.not_lex_nil⟩
  split at h
  · cases h
  split at h
  · cases h
  simp only at h
  split at h
  · rename_i lin' hsearch
    obtain rfl : lin' = lin := Option.some.inj h
    obtain ⟨π, hπ, rfl, hfirst⟩ := search_sound hk.searching (indices_pairwise ops indet)
      (length_indices ops indet).le hsearch
    refine ⟨π, hπ, ?_, hfirst⟩
    rw [List.nil_append, List.map_map]
    exact List.map_congr_left fun i _ => (original_fields i).1.symm
  · cases h

/-- **What is returned is the ids of an order.** -/
theorem checkSingleKey_sound (hk : OfKey key ops indet)
    (h : (checkSingleKey debug ops indet).linearization = some lin) :
    ∃ writes order, Orders ops indet writes order ∧ lin = order.map Operation.id := by
  obtain ⟨π, hπ, hlin, -⟩ := checkSingleKey_places hk h
  obtain ⟨writes, horder⟩ := hk.orders_of_places hπ
  exact ⟨writes, _, horder, hlin⟩

/-- **An order is found if there is one.** -/
theorem checkSingleKey_complete (hk : OfKey key ops indet) (htyped : ∀ op ∈ ops, op.WellTyped)
    (h : Orders ops indet writes order) :
    (checkSingleKey debug ops indet).isLinearizable = true := by
  obtain ⟨π, hπ, -⟩ := hk.places_of_orders
    (fun op hop hwrite => (htyped op hop).writeOk hwrite (hk.succeeded op hop)) h
  rw [checkSingleKey]
  split
  · rfl
  rw [neverWritten_eq_none h,
    staleRead_eq_none h hk.succeeded fun op hop => hk.key op (List.mem_append_left _ hop)]
  simp only
  have hsearch : (search (allOps ops indet) (allOps ops indet).length (requiredIndices ops indet)
      (optionalIndices ops indet) .new 0 []).1 = true :=
    search_complete hk.searching (indices_pairwise ops indet) hπ (length_indices ops indet).le
  split
  · rfl
  · rename_i hfail
    have hfail : search (allOps ops indet) (allOps ops indet).length (requiredIndices ops indet)
      (optionalIndices ops indet) .new 0 [] = _ := hfail
    rw [hfail] at hsearch
    cases hsearch

/-- **What is returned is the ids of the first order.** -/
theorem checkSingleKey_first (hk : OfKey key ops indet) (hnodup : (ops ++ indet).Nodup)
    (h : (checkSingleKey debug ops indet).linearization = some lin) :
    ∃ order, FirstOrder ops indet order ∧ lin = order.map Operation.id := by
  obtain ⟨π, hπ, hlin, hfirst⟩ := checkSingleKey_places hk h
  refine ⟨_, ⟨hk.orders_of_places hπ, fun writes' order' horder' => ?_⟩, hlin⟩
  -- whatever succeeded was accepted
  have hwriteOk : ∀ op ∈ ops, op.isWrite = true → op.result = .writeOk := by
    intro op hop hwrite
    rw [← map_requiredIndices ops indet] at hop
    obtain ⟨i, hi, rfl⟩ := List.mem_map.1 hop
    rw [← getElem_allOps_of_lt (hk.searching.succeeded i hi)]
    exact ((hk.accepts_new_iff π).1 hπ.accepted).2 i (hπ.covers i hi) hwrite
  obtain ⟨π', hπ', rfl⟩ := hk.places_of_orders hwriteOk horder'
  rw [map_rank_original hnodup, map_rank_original hnodup]
  exact hfirst π' hπ'

end Verdict

end LinearizabilityChecker

end RaftVibe
