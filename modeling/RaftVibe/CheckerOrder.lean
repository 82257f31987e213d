/-
**The order that the checker returns.**

The orders of the keys are returned one after the other.  All that is asked of an order of the whole
history holds of the result, except that real time is respected only within each key.  It is
respected across the keys exactly when their operations follow each other in the order in which the
hash set lists the keys.

Which of the failed writes of a key are in its order is up to the search, which finds the first
order: see `RaftVibe.FirstOrder`.

Main definitions:

* `RaftVibe.History.IsWitness` — a list of ids is an order of the history;
* `RaftVibe.LinearizabilityChecker.InTurn` — the operations of the keys follow each other.

Main results:

* `RaftVibe.FirstOrder.unique` — there is one first order;
* `RaftVibe.LinearizabilityChecker.check_isWitness_iff` — **the order is one of the whole history
  exactly when the keys take turns**.
-/

import RaftVibe.CheckerVerdict

set_option relaxedAutoImplicit false
set_option autoImplicit false

namespace RaftVibe

/-- The operations with the given ids. -/
def History.resolve (h : History) (order : List ℕ) : List Operation :=
  order.filterMap fun id => h.ops.find? fun op => op.id = id

/-- **A witness**: every successful operation is listed once, a failed read never, and a failed write
at most once; real time is respected; and replaying key by key, every read returns what it did. -/
structure History.IsWitness (h : History) (order : List ℕ) : Prop where
  listed : ∀ id ∈ order, ∃ op ∈ h.ops, op.id = id
  successful : ∀ op ∈ h.successfulOps, order.count op.id = 1
  failedReads : ∀ op ∈ h.ops, op.isWrite = false → op.result.isError = true → op.id ∉ order
  failedWrites : ∀ op ∈ h.erroredWrites, order.count op.id ≤ 1
  realTime : ∀ a ∈ h.ops, ∀ b ∈ h.ops, a.id ∈ order → b.id ∈ order →
    Operation.intervals.Before a b → order.idxOf a.id < order.idxOf b.id
  reads : ∀ key, Replays (fun _ => none) ((h.resolve order).filter fun op => op.key = key)

/-! ### The first order -/

/-- The operations of a list are known by their ranks. -/
theorem eq_of_map_rank_eq {l order order' : List Operation} (hmem : ∀ op ∈ order, op ∈ l)
    (hmem' : ∀ op ∈ order', op ∈ l)
    (h : order.map (Operation.rank l) = order'.map (Operation.rank l)) : order = order' := by
  have hget {m : List Operation} (hm : ∀ op ∈ m, op ∈ l) :
      (m.map (Operation.rank l)).map (fun r => l[(ofLex (ofLex r).2).2]?) = m.map some := by
    rw [List.map_map]
    refine List.map_congr_left fun op hop => ?_
    exact List.getElem?_idxOf (hm op hop)
  have := congrArg (List.map fun r => l[(ofLex (ofLex r).2).2]?) h
  rw [hget hmem, hget hmem'] at this
  exact List.map_injective_iff.2 (Option.some_injective _) this

/-- **There is one first order.** -/
theorem FirstOrder.unique {ops indet order order' : List Operation} (h : FirstOrder ops indet order)
    (h' : FirstOrder ops indet order') : order = order' := by
  obtain ⟨writes, horder⟩ := h.orders
  obtain ⟨writes', horder'⟩ := h'.orders
  refine eq_of_map_rank_eq horder.mem horder'.mem ?_
  exact Std.Trichotomous.trichotomous (r := List.Lex (· < ·)) _ _ (h'.first _ _ horder)
    (h.first _ _ horder')

/-! ### Real time, by position -/

theorem respects_iff_idxOf {l : List Operation} (hnodup : (l.map Operation.id).Nodup)
    (hwf : ∀ op ∈ l, op.invokeTs ≤ op.completeTs) :
    Operation.intervals.Respects l ↔ ∀ a ∈ l, ∀ b ∈ l, Operation.intervals.Before a b →
      (l.map Operation.id).idxOf a.id < (l.map Operation.id).idxOf b.id := by
  have hidx (i : ℕ) (hi : i < l.length) : (l.map Operation.id).idxOf l[i].id = i := by
    have := hnodup.idxOf_getElem i (by simpa using hi)
    rwa [List.getElem_map] at this
  rw [Linearizability.Intervals.Respects, List.pairwise_iff_getElem]
  constructor
  · intro h a ha b hb hbefore
    obtain ⟨i, hi, rfl⟩ := List.mem_iff_getElem.1 ha
    obtain ⟨j, hj, rfl⟩ := List.mem_iff_getElem.1 hb
    rw [hidx i hi, hidx j hj]
    rcases Nat.lt_trichotomy i j with hij | rfl | hij
    · exact hij
    · -- nobody is over before it starts
      exact absurd hbefore.2 (not_lt.2 (hwf _ ha))
    · exact absurd hbefore (h j i hj hi hij)
  · intro h i j hi hj hij hbefore
    have := h _ (List.getElem_mem hj) _ (List.getElem_mem hi) hbefore
    rw [hidx i hi, hidx j hj] at this
    omega

namespace LinearizabilityChecker

open Linearizability

/-- **The keys take turns**: no operation of the first order of a key was invoked after a successful
operation of a key listed later is over. -/
def InTurn (h : History) (keys : List String) : Prop :=
  keys.Pairwise fun key key' => ∀ order,
    FirstOrder (keyOps h key) (indeterminateWrites h key) order →
      ∀ b ∈ order, ∀ a ∈ keyOps h key', b.invokeTs ≤ a.completeTs

section Order

variable {debug : String → String} {h : History} {keys : List String} {order : List ℕ}

/-- The ids of a history name its operations. -/
theorem eq_of_id_eq (hids : (h.ops.map Operation.id).Nodup) {op op' : Operation} (hop : op ∈ h.ops)
    (hop' : op' ∈ h.ops) (heq : op.id = op'.id) : op = op' :=
  List.inj_on_of_nodup_map hids hop hop' heq

theorem resolve_map_id (hids : (h.ops.map Operation.id).Nodup) {l : List Operation}
    (hl : ∀ op ∈ l, op ∈ h.ops) : h.resolve (l.map Operation.id) = l := by
  rw [History.resolve, List.filterMap_map]
  refine (List.filterMap_congr fun op hop => ?_).trans List.filterMap_some
  simp only [Function.comp]
  cases hfind : h.ops.find? fun op' => op'.id = op.id with
  | none => simpa using List.find?_eq_none.1 hfind op (hl op hop)
  | some op' =>
      have hid : op'.id = op.id := by simpa using List.find?_some hfind
      rw [eq_of_id_eq hids (List.mem_of_find?_eq_some hfind) (hl op hop) hid]

/-- An operation succeeded or failed, and is there once. -/
theorem successful_append_nodup (hids : (h.ops.map Operation.id).Nodup) :
    (h.successfulOps ++ h.erroredWrites).Nodup := by
  have hnodup : h.ops.Nodup := List.Nodup.of_map _ hids
  refine List.nodup_append.2 ⟨hnodup.filter _, hnodup.filter _, ?_⟩
  rintro op hop op' hop' rfl
  exact (History.mem_erroredWrites.1 hop').2.not_succeeded (History.mem_successfulOps.1 hop).2

/-- What `check` returns is the orders of the keys, one after the other. -/
theorem check_linearization (hids : (h.ops.map Operation.id).Nodup)
    (hwf : ∀ op ∈ h.ops, op.invokeTs ≤ op.completeTs)
    (hcheck : (check debug keys h).linearization = some order) :
    ∃ first : String → List Operation,
      (∀ key ∈ keys, FirstOrder (keyOps h key) (indeterminateWrites h key) (first key)) ∧
        order = (keys.flatMap first).map Operation.id := by
  have hnodup (key : String) : (keyOps h key ++ indeterminateWrites h key).Nodup := by
    rw [keyOps_eq, indeterminateWrites_eq, ← List.filter_append]
    exact (successful_append_nodup hids).filter _
  rw [check_eq_checkKeys] at hcheck
  rcases checkKeys_spec debug h keys [] with ⟨hall, heq⟩ | ⟨-, -, hnone⟩
  · have hfirst (key : String) : ∃ first, key ∈ keys →
        FirstOrder (keyOps h key) (indeterminateWrites h key) first ∧
          placed debug h key = first.map Operation.id := by
      by_cases hkey : key ∈ keys
      · obtain ⟨lin, hlin⟩ := checkSingleKey_isLinearizable_iff.1 (hall key hkey)
        obtain ⟨first, horder, rfl⟩ := checkSingleKey_first (ofKey hwf key) (hnodup key) hlin
        exact ⟨first, fun _ => ⟨horder, by rw [placed, hlin]; rfl⟩⟩
      · exact ⟨[], fun hmem => absurd hmem hkey⟩
    choose first hfirst using hfirst
    refine ⟨first, fun key hkey => (hfirst key hkey).1, ?_⟩
    rw [heq] at hcheck
    obtain rfl : keys.flatMap (placed debug h) = order := Option.some.inj hcheck
    rw [List.map_flatMap]
    exact List.flatMap_congr fun key hkey => (hfirst key hkey).2
  · rw [hnone] at hcheck
    cases hcheck

/-- **Real time is respected across the keys exactly when they take turns.** -/
theorem respects_iff_inTurn {first : String → List Operation}
    (hfirst : ∀ key ∈ keys, FirstOrder (keyOps h key) (indeterminateWrites h key) (first key)) :
    Operation.intervals.Respects (keys.flatMap first) ↔ InTurn h keys := by
  rw [Intervals.Respects, List.pairwise_flatMap, InTurn]
  constructor
  · rintro ⟨-, hcross⟩
    refine List.Pairwise.imp_of_mem ?_ hcross
    intro key key' hkey hkey' h' order horder b hb a ha
    rw [horder.unique (hfirst key hkey)] at hb
    obtain ⟨writes, horder'⟩ := (hfirst key' hkey').orders
    have hmem : a ∈ first key' := horder'.perm.mem_iff.2 (List.mem_append_left _ ha)
    exact not_lt.1 fun hlt => h' b hb a hmem ⟨(mem_keyOps.1 ha).2.1, hlt⟩
  · intro hturn
    refine ⟨fun key hkey => ?_, List.Pairwise.imp_of_mem ?_ hturn⟩
    · obtain ⟨writes, horder⟩ := (hfirst key hkey).orders
      exact horder.realTime
    · rintro key key' hkey hkey' h' b hb a ha ⟨hdone, hlt⟩
      obtain ⟨writes, horder⟩ := (hfirst key' hkey').orders
      -- what is over has succeeded
      have ha : a ∈ keyOps h key' := (List.mem_append.1 (horder.mem a ha)).resolve_right fun ha =>
        (mem_indeterminateWrites.1 ha).2.1.not_succeeded hdone
      exact absurd (h' (first key) (hfirst key hkey) b hb a ha) (not_le.2 hlt)

/-- **A list of the successful operations and of some failed writes**, in which the reads return what
they did, is an order of the history exactly when it respects real time. -/
theorem isWitness_map_id_iff {l writes : List Operation} (hids : (h.ops.map Operation.id).Nodup)
    (hwf : ∀ op ∈ h.ops, op.invokeTs ≤ op.completeTs) (hsub : writes.Sublist h.erroredWrites)
    (hperm : l.Perm (h.successfulOps ++ writes))
    (hreads : ∀ key, Replays (fun _ => none) (l.filter fun op => op.key = key)) :
    h.IsWitness (l.map Operation.id) ↔ Operation.intervals.Respects l := by
  -- what is listed is in the history, and listed once
  have hmem (op : Operation) (hop : op ∈ l) : op ∈ h.successfulOps ++ h.erroredWrites :=
    ((List.Sublist.refl _).append hsub).mem (hperm.mem_iff.1 hop)
  have hops (op : Operation) (hop : op ∈ l) : op ∈ h.ops :=
    (List.mem_append.1 (hmem op hop)).elim (fun hop => (History.mem_successfulOps.1 hop).1)
      fun hop => (History.mem_erroredWrites.1 hop).1
  have hnodup : (l.map Operation.id).Nodup := by
    refine List.Nodup.map_on (fun op hop op' hop' heq =>
      eq_of_id_eq hids (hops op hop) (hops op' hop') heq) (hperm.nodup_iff.2 ?_)
    exact (successful_append_nodup hids).sublist ((List.Sublist.refl _).append hsub)
  have hlisted {op : Operation} (hop : op ∈ h.ops) (hid : op.id ∈ l.map Operation.id) : op ∈ l := by
    obtain ⟨op', hop', heq⟩ := List.mem_map.1 hid
    rwa [← eq_of_id_eq hids (hops op' hop') hop heq]
  rw [respects_iff_idxOf hnodup fun op hop => hwf op (hops op hop)]
  constructor
  · intro hwit a ha b hb hbefore
    exact hwit.realTime a (hops a ha) b (hops b hb) (List.mem_map_of_mem ha)
      (List.mem_map_of_mem hb) hbefore
  · intro hreal
    refine ⟨fun id hid => ?_, fun op hop => ?_, fun op hop hread hfail hid => ?_, fun op _ => ?_,
      fun a ha b hb hida hidb => hreal a (hlisted ha hida) b (hlisted hb hidb), fun key => ?_⟩
    · obtain ⟨op, hop, rfl⟩ := List.mem_map.1 hid
      exact ⟨op, hops op hop, rfl⟩
    · exact List.count_eq_one_of_mem hnodup
        (List.mem_map_of_mem (hperm.mem_iff.2 (List.mem_append_left _ hop)))
    · rcases List.mem_append.1 (hmem op (hlisted hop hid)) with hop | hop
      · have hdone := (History.mem_successfulOps.1 hop).2
        rw [Operation.Succeeded, hfail] at hdone
        cases hdone
      · have hwrite := (History.mem_erroredWrites.1 hop).2.1
        rw [hread] at hwrite
        cases hwrite
    · exact List.nodup_iff_count_le_one.1 hnodup op.id
    · rw [resolve_map_id hids hops]
      exact hreads key

/-- The orders of the keys, one after the other, replay key by key. -/
theorem flatMap_order_reads (hkeys : h.Lists keys) (hwf : ∀ op ∈ h.ops, op.invokeTs ≤ op.completeTs)
    {first writes : String → List Operation}
    (horders : ∀ key ∈ keys, Orders (keyOps h key) (indeterminateWrites h key) (writes key)
      (first key)) (key : String) :
    Replays (fun _ => none) ((keys.flatMap first).filter fun op => op.key = key) := by
  have hkey (k : String) (hk : k ∈ keys) (op : Operation) (hop : op ∈ first k) : op.key = k :=
    (ofKey hwf k).key op ((horders k hk).mem op hop)
  rw [List.flatMap_def]
  by_cases hmem : key ∈ keys
  · rw [Intervals.filter_flatten Operation.key hkeys.nodup hkey hmem]
    exact (horders key hmem).reads
  · rw [List.filter_eq_nil_iff.2 fun op hop => ?_]
    · trivial
    · rw [← List.flatMap_def] at hop
      obtain ⟨k, hk, hop⟩ := List.mem_flatMap.1 hop
      rw [hkey k hk op hop, decide_eq_true_eq]
      rintro rfl
      exact hmem hk

/-- **The order is one of the whole history exactly when the keys take turns.** -/
theorem check_isWitness_iff (hkeys : h.Lists keys) (hids : (h.ops.map Operation.id).Nodup)
    (hwf : ∀ op ∈ h.ops, op.invokeTs ≤ op.completeTs)
    (hcheck : (check debug keys h).linearization = some order) :
    h.IsWitness order ↔ InTurn h keys := by
  obtain ⟨first, hfirst, rfl⟩ := check_linearization hids hwf hcheck
  have horders (key : String) : ∃ writes, key ∈ keys →
      Orders (keyOps h key) (indeterminateWrites h key) writes (first key) := by
    by_cases hkey : key ∈ keys
    · exact (hfirst key hkey).orders.imp fun writes horder _ => horder
    · exact ⟨[], fun hmem => absurd hmem hkey⟩
  choose writes horders using horders
  obtain ⟨writes', hsub, hperm⟩ := flatMap_order_perm hkeys horders
  rw [← respects_iff_inTurn hfirst]
  exact isWitness_map_id_iff hids hwf hsub hperm (flatMap_order_reads hkeys hwf horders)

end Order

theorem failedWriteHistory_isWitness_iff :
    failedWriteHistory.IsWitness [3, 1, 2] ↔ InTurn failedWriteHistory ["y", "x"] := by
  have hcheck : (check (fun s => s) ["y", "x"] failedWriteHistory).linearization =
      some [3, 1, 2] := by decide
  exact check_isWitness_iff ⟨by decide, by decide⟩ (by decide) (by decide) hcheck

/-- The keys do not take turns, in either order: both operations of `x` cannot come before or after
the one of `y`, which took place between them. -/
def betweenHistory : History :=
  ⟨[⟨1, 0, "x", .write "a", 0, 1, .writeOk⟩, ⟨2, 0, "y", .write "b", 2, 3, .writeOk⟩,
    ⟨3, 0, "x", .write "c", 4, 5, .writeOk⟩]⟩

theorem betweenHistory_not_isWitness :
    (check (fun s => s) ["x", "y"] betweenHistory).linearization = some [1, 3, 2] ∧
      ¬ betweenHistory.IsWitness [1, 3, 2] ∧
      (check (fun s => s) ["y", "x"] betweenHistory).linearization = some [2, 1, 3] ∧
      ¬ betweenHistory.IsWitness [2, 1, 3] := by
  refine ⟨by decide, fun h => ?_, by decide, fun h => ?_⟩
  · -- the write to `y` is over before the second one to `x` starts
    have := h.realTime ⟨2, 0, "y", .write "b", 2, 3, .writeOk⟩ (by decide)
      ⟨3, 0, "x", .write "c", 4, 5, .writeOk⟩ (by decide) (by decide) (by decide)
      ⟨rfl, by decide⟩
    exact absurd this (by decide)
  · -- the first write to `x` is over before the one to `y` starts
    have := h.realTime ⟨1, 0, "x", .write "a", 0, 1, .writeOk⟩ (by decide)
      ⟨2, 0, "y", .write "b", 2, 3, .writeOk⟩ (by decide) (by decide) (by decide)
      ⟨rfl, by decide⟩
    exact absurd this (by decide)

end LinearizabilityChecker

end RaftVibe
