/-
**The search finds an order exactly when there is one.**

At each point of the search the operations that are left can be placed, or they cannot: `Places` says
what it means to place them.  The two prunings never matter.  Whoever may come first was invoked
before every required operation that is left completes; and what is left completes after everything
that is placed was invoked, since that was a candidate when it was placed.

Main definitions:

* `RaftVibe.LinearizabilityChecker.Places` — an order of what is left that the model accepts;
* `RaftVibe.LinearizabilityChecker.Searching` — what holds at each point of the search;
* `RaftVibe.LinearizabilityChecker.rank` — which candidates are tried first.

Main results:

* `RaftVibe.LinearizabilityChecker.search_complete` — **if there is an order, the search succeeds**;
* `RaftVibe.LinearizabilityChecker.search_sound` — **what the search returns is an order**, and the
  first one.
-/

import RaftVibe.Checker

set_option relaxedAutoImplicit false
set_option autoImplicit false

namespace RaftVibe

namespace LinearizabilityChecker

open Linearizability

/-! ### Backtracking -/

section Backtracking

variable {α : Type} {f : α → List ℕ → Bool × List ℕ}

/-- Trying fails with every candidate, and leaves the list as it was; or it succeeds with one, and
fails with those before it. -/
theorem tryEach_cases (hf : ∀ c l, (f c l).1 = false → (f c l).2 = l) (cs : List α) (l : List ℕ) :
    (tryEach f cs l = (false, l) ∧ ∀ c ∈ cs, (f c l).1 = false) ∨
      ∃ before c after l', cs = before ++ c :: after ∧ (∀ c' ∈ before, (f c' l).1 = false) ∧
        f c l = (true, l') ∧ tryEach f cs l = (true, l') := by
  induction cs with
  | nil => exact Or.inl ⟨rfl, by simp⟩
  | cons c cs ih =>
      rw [tryEach]
      cases hc : f c l with
      | mk found l' =>
          cases found with
          | true => exact Or.inr ⟨[], c, cs, l', rfl, by simp, hc, rfl⟩
          | false =>
              obtain rfl : l' = l := by simpa [hc] using hf c l
              simp only
              rcases ih with ⟨heq, hall⟩ | ⟨before, c', after, l'', rfl, hall, hf', heq⟩
              · exact Or.inl ⟨heq, List.forall_mem_cons.2 ⟨by rw [hc], hall⟩⟩
              · exact Or.inr ⟨c :: before, c', after, l'', rfl,
                  List.forall_mem_cons.2 ⟨by rw [hc], hall⟩, hf', heq⟩

end Backtracking

section Search

variable {ops : List Operation} {required optional : List (Fin ops.length)} {model : RegisterModel}
  {frontier fuel : ℕ} {linearization linearization' : List ℕ} {done : Fin ops.length → Prop}
  {i : Fin ops.length} {isOptional : Bool} {π : List (Fin ops.length)}

/-- A candidate that fails is taken back. -/
theorem attempt_restores
    {searchOn : List (Fin ops.length) → List (Fin ops.length) → RegisterModel → ℕ → List ℕ →
      Bool × List ℕ}
    (hs : ∀ r o m f l, (searchOn r o m f l).1 = false → (searchOn r o m f l).2 = l)
    (c : Fin ops.length × Bool) (l : List ℕ)
    (h : (attempt ops searchOn required optional model frontier c l).1 = false) :
    (attempt ops searchOn required optional model frontier c l).2 = l := by
  simp only [attempt] at h ⊢
  split
  · rename_i hvalid
    rw [if_pos hvalid] at h
    generalize hr : searchOn _ _ _ _ _ = r at h ⊢
    obtain ⟨found, l'⟩ := r
    cases found with
    | true => simp at h
    | false =>
        have := hs _ _ _ _ _ (by rw [hr])
        rw [hr] at this
        simp only at this ⊢
        rw [this, List.dropLast_concat]
  · rfl

theorem search_restores (fuel : ℕ) (required optional : List (Fin ops.length))
    (model : RegisterModel) (frontier : ℕ) (l : List ℕ)
    (h : (search ops fuel required optional model frontier l).1 = false) :
    (search ops fuel required optional model frontier l).2 = l := by
  induction fuel generalizing required optional model frontier l with
  | zero => rfl
  | succ fuel ih =>
      rw [search] at h ⊢
      split
      · rfl
      · rename_i hne
        rw [if_neg hne] at h
        rcases tryEach_cases (f := attempt ops (search ops fuel) required optional model frontier)
          (fun c l => attempt_restores (fun r o m f l => ih r o m f l) c l)
          ((candidates ops required optional frontier).insertionSort (TriedBefore ops)) l with
          ⟨heq, -⟩ | ⟨-, -, -, l', -, -, -, heq⟩
        · rw [heq]
        · rw [heq] at h
          simp at h

/-! ### Orders -/

/-- The intervals of the operations, by index. -/
def intervals (ops : List Operation) (done : Fin ops.length → Prop) :
    Intervals (Fin ops.length) ℕ where
  invoke i := (ops.get i).invokeTs
  complete i := (ops.get i).completeTs
  done := done

/-- The model accepts the operations, one after the other. -/
def Accepts (ops : List Operation) : RegisterModel → List (Fin ops.length) → Prop
  | _, [] => True
  | model, i :: π =>
      (tryApply (ops.get i) model).1 = true ∧ Accepts ops (tryApply (ops.get i) model).2 π

/-- **An order of what is left**: all the required operations and some of the optional ones, in real
time, and accepted by the model. -/
structure Places (ops : List Operation) (done : Fin ops.length → Prop)
    (required optional : List (Fin ops.length)) (model : RegisterModel)
    (π : List (Fin ops.length)) : Prop where
  nodup : π.Nodup
  covers : ∀ i ∈ required, i ∈ π
  within : ∀ i ∈ π, i ∈ required ∨ i ∈ optional
  realTime : (intervals ops done).Respects π
  accepted : Accepts ops model π

/-- **What holds at each point of the search**: what is required succeeded, what is optional did not;
and what is left completes after everything placed was invoked. -/
structure Searching (ops : List Operation) (done : Fin ops.length → Prop)
    (required optional : List (Fin ops.length)) (frontier : ℕ) : Prop where
  ordered : ∀ i, done i → (ops.get i).invokeTs ≤ (ops.get i).completeTs
  succeeded : ∀ i ∈ required, done i
  failed : ∀ i ∈ optional, ¬ done i
  extended : ∀ i ∈ optional, ∀ j : Fin ops.length, (ops.get j).invokeTs ≤ (ops.get i).completeTs
  reached : ∀ i, i ∈ required ∨ i ∈ optional → frontier ≤ (ops.get i).completeTs

/-- What is left without one operation. -/
def without (i : Fin ops.length) (l : List (Fin ops.length)) : List (Fin ops.length) :=
  l.filter fun j => j ≠ i

theorem mem_without {j : Fin ops.length} {l : List (Fin ops.length)} :
    j ∈ without i l ↔ j ∈ l ∧ j ≠ i := by
  simp [without, List.mem_filter]

theorem without_of_notMem {l : List (Fin ops.length)} (h : i ∉ l) : without i l = l :=
  List.filter_eq_self.2 fun j hj => by simpa using fun heq : j = i => h (heq ▸ hj)

theorem length_without_lt {l : List (Fin ops.length)} (h : i ∈ l) :
    (without i l).length < l.length := by
  refine lt_of_le_of_ne (List.length_filter_le _ _) fun heq => ?_
  have := List.filter_eq_self.1 ((List.filter_sublist).eq_of_length heq) i h
  simp at this

/-- Taking one operation away leaves less to search. -/
theorem length_without_add_le (hi : i ∈ required ∨ i ∈ optional)
    (hfuel : required.length + optional.length ≤ fuel + 1) :
    (without i required).length + (without i optional).length ≤ fuel := by
  have h₁ : (without i required).length ≤ required.length := List.length_filter_le _ _
  have h₂ : (without i optional).length ≤ optional.length := List.length_filter_le _ _
  rcases hi with hi | hi
  · have := length_without_lt hi
    omega
  · have := length_without_lt hi
    omega

theorem without_append_pairwise (h : (required ++ optional).Pairwise (·.val < ·.val)) :
    (without i required ++ without i optional).Pairwise (·.val < ·.val) :=
  h.sublist (List.Sublist.append List.filter_sublist List.filter_sublist)

/-- What may come next, when something is required: it was invoked before all of that completes. -/
theorem mem_candidates (h : Searching ops done required optional frontier)
    (hne : required ≠ []) : (i, isOptional) ∈ candidates ops required optional frontier ↔
      ((isOptional = false ∧ i ∈ required) ∨ (isOptional = true ∧ i ∈ optional)) ∧
        ∀ j ∈ required, (ops.get i).invokeTs ≤ (ops.get j).completeTs := by
  obtain ⟨t, ht⟩ : ∃ t, (required.map fun i => (ops.get i).completeTs).min? = some t := by
    rw [← Option.isSome_iff_exists, List.isSome_min?_iff]
    simpa using hne
  have hmin : (ops.get i).invokeTs ≤ t ↔
      ∀ j ∈ required, (ops.get i).invokeTs ≤ (ops.get j).completeTs := by
    rw [List.le_min?_iff ht]
    simp
  have hcand : (i, isOptional) ∈ candidates ops required optional frontier ↔
      ((isOptional = false ∧ i ∈ required) ∨ (isOptional = true ∧ i ∈ optional)) ∧
        (ops.get i).invokeTs ≤ t ∧ frontier ≤ (ops.get i).completeTs := by
    simp only [candidates, ht, Option.getD_some, List.mem_append, List.mem_map, List.mem_filter,
      Prod.mk.injEq, Bool.and_eq_true, decide_eq_true_eq, ge_iff_le]
    constructor
    · rintro (⟨j, ⟨hj, hle⟩, rfl, rfl⟩ | ⟨j, ⟨hj, hle⟩, rfl, rfl⟩)
      · exact ⟨Or.inl ⟨rfl, hj⟩, hle⟩
      · exact ⟨Or.inr ⟨rfl, hj⟩, hle⟩
    · rintro ⟨⟨rfl, hj⟩ | ⟨rfl, hj⟩, hle⟩
      · exact Or.inl ⟨i, ⟨hj, hle⟩, rfl, rfl⟩
      · exact Or.inr ⟨i, ⟨hj, hle⟩, rfl, rfl⟩
  rw [hcand, hmin]
  constructor
  · rintro ⟨hmem, hle, -⟩
    exact ⟨hmem, hle⟩
  · rintro ⟨hmem, hle⟩
    exact ⟨hmem, hle, h.reached i (hmem.imp And.right And.right)⟩

/-- **An operation that may come next**: it is one of those that are left, it was invoked before
everything that is required completes, and it is valid. -/
structure Eligible (ops : List Operation) (required optional : List (Fin ops.length))
    (model : RegisterModel) (i : Fin ops.length) : Prop where
  listed : i ∈ required ∨ i ∈ optional
  invoked : ∀ j ∈ required, (ops.get i).invokeTs ≤ (ops.get j).completeTs
  valid : (tryApply (ops.get i) model).1 = true

/-- The search of what is left when `i` has been placed. -/
def searchAfter (ops : List Operation) (fuel : ℕ) (required optional : List (Fin ops.length))
    (model : RegisterModel) (frontier : ℕ) (linearization : List ℕ) (i : Fin ops.length) :
    Bool × List ℕ :=
  search ops fuel (without i required) (without i optional) (tryApply (ops.get i) model).2
    (max frontier (ops.get i).invokeTs) (linearization ++ [(ops.get i).id])

/-- Placing a candidate leaves the rest to be searched. -/
theorem Searching.place (h : Searching ops done required optional frontier)
    (hi : Eligible ops required optional model i) :
    Searching ops done (without i required) (without i optional)
      (max frontier (ops.get i).invokeTs) where
  ordered := h.ordered
  succeeded j hj := h.succeeded j (mem_without.1 hj).1
  failed j hj := h.failed j (mem_without.1 hj).1
  extended j hj := h.extended j (mem_without.1 hj).1
  reached j hj := by
    rcases hj with hj | hj
    · obtain ⟨hj, -⟩ := mem_without.1 hj
      exact max_le (h.reached j (Or.inl hj)) (hi.invoked j hj)
    · obtain ⟨hj, -⟩ := mem_without.1 hj
      exact max_le (h.reached j (Or.inr hj)) (h.extended j hj i)

/-- A candidate succeeds if it is valid and the search of the rest succeeds. -/
theorem attempt_eq_true (h : Searching ops done required optional frontier)
    (hi : (isOptional = false ∧ i ∈ required) ∨ (isOptional = true ∧ i ∈ optional)) :
    attempt ops (search ops fuel) required optional model frontier (i, isOptional) linearization =
        (true, linearization') ↔
      (tryApply (ops.get i) model).1 = true ∧
        searchAfter ops fuel required optional model frontier linearization i =
          (true, linearization') := by
  -- taking the operation off one of the lists is taking it off both
  have hreq : (if isOptional = true then required else required.filter fun j => j ≠ i) =
      without i required := by
    rcases hi with ⟨rfl, -⟩ | ⟨rfl, hi⟩
    · rfl
    · exact (without_of_notMem fun hmem => h.failed i hi (h.succeeded i hmem)).symm
  have hopt : (if isOptional = true then optional.filter fun j => j ≠ i else optional) =
      without i optional := by
    rcases hi with ⟨rfl, hi⟩ | ⟨rfl, -⟩
    · exact (without_of_notMem fun hmem => h.failed i hmem (h.succeeded i hi)).symm
    · rfl
  simp only [attempt, hreq, hopt, searchAfter]
  by_cases hvalid : (tryApply (ops.get i) model).1 = true
  · rw [if_pos hvalid]
    generalize search ops fuel _ _ _ _ _ = r
    obtain ⟨found, l⟩ := r
    cases found with
    | true => exact ⟨fun heq => ⟨hvalid, heq⟩, And.right⟩
    | false => exact ⟨fun heq => by simp at heq, fun heq => by simp at heq⟩
  · rw [if_neg hvalid]
    exact ⟨fun heq => by simp at heq, fun heq => absurd heq.1 hvalid⟩

/-! ### Which candidates are tried first -/

/-- Earlier invocations come first, then writes, then the position. -/
def rank (ops : List Operation) (i : Fin ops.length) : ℕ ×ₗ Bool ×ₗ ℕ :=
  toLex ((ops.get i).invokeTs, toLex (!(ops.get i).isWrite, i.val))

theorem rank_injective {i j : Fin ops.length} (h : rank ops i = rank ops j) : i = j := by
  have := congrArg (fun r => (ofLex (ofLex r).2).2) h
  exact Fin.ext this

section Sorting

variable {α : Type} {r s : α → α → Prop} [DecidableRel r] [DecidableRel s] {a : α} {l : List α}

theorem orderedInsert_congr (h : ∀ b ∈ l, (r a b ↔ s a b)) :
    l.orderedInsert r a = l.orderedInsert s a := by
  induction l with
  | nil => rfl
  | cons b l ih =>
      obtain ⟨hb, hl⟩ := List.forall_mem_cons.1 h
      rw [List.orderedInsert_cons, List.orderedInsert_cons, ih hl]
      by_cases hr : r a b
      · rw [if_pos hr, if_pos (hb.1 hr)]
      · rw [if_neg hr, if_neg (mt hb.2 hr)]

/-- Sorting only compares elements with later ones. -/
theorem insertionSort_congr (h : l.Pairwise fun a b => (r a b ↔ s a b)) :
    l.insertionSort r = l.insertionSort s := by
  induction l with
  | nil => rfl
  | cons a l ih =>
      obtain ⟨ha, hl⟩ := List.pairwise_cons.1 h
      rw [List.insertionSort_cons, List.insertionSort_cons, ih hl]
      exact orderedInsert_congr fun b hb => ha b ((List.mem_insertionSort _).1 hb)

end Sorting

/-- The comparison of candidates is that of ranks, for those in the order of their positions. -/
theorem triedBefore_iff_rank {a b : Fin ops.length × Bool} (hab : a.1.val < b.1.val) :
    TriedBefore ops a b ↔ rank ops a.1 ≤ rank ops b.1 := by
  rw [TriedBefore, rank, rank, Prod.Lex.toLex_le_toLex, Prod.Lex.toLex_le_toLex]
  cases (ops.get a.1).isWrite <;> cases (ops.get b.1).isWrite <;> simp [hab.le, le_iff_lt_or_eq]

/-- **The candidates are tried in the order of their ranks.** -/
theorem candidates_sorted (h : (required ++ optional).Pairwise (·.val < ·.val)) :
    ((candidates ops required optional frontier).insertionSort (TriedBefore ops)).Pairwise
      fun a b => rank ops a.1 ≤ rank ops b.1 := by
  have hcand : ((candidates ops required optional frontier).map Prod.fst).Sublist
      (required ++ optional) := by
    simp only [candidates, List.map_append, List.map_map]
    refine List.Sublist.append ?_ ?_
    · exact (List.map_id _).symm ▸ List.filter_sublist
    · exact (List.map_id _).symm ▸ List.filter_sublist
  have hpos := List.pairwise_map.1 (h.sublist hcand)
  rw [insertionSort_congr (s := fun a b => rank ops a.1 ≤ rank ops b.1)
    (hpos.imp fun hab => triedBefore_iff_rank hab)]
  have : Std.Total fun a b : Fin ops.length × Bool => rank ops a.1 ≤ rank ops b.1 :=
    ⟨fun a b => le_total _ _⟩
  have : IsTrans (Fin ops.length × Bool) fun a b => rank ops a.1 ≤ rank ops b.1 :=
    ⟨fun _ _ _ => le_trans⟩
  exact List.pairwise_insertionSort _ _

/-- **The step of the search**: it succeeds with an operation that may come next, and an order of the
rest.  With those that come before it there is none. -/
theorem search_succ_cases (h : Searching ops done required optional frontier)
    (hpos : (required ++ optional).Pairwise (·.val < ·.val)) (hne : required ≠ []) :
    search ops (fuel + 1) required optional model frontier linearization = (false, linearization) ∧
        (∀ i, Eligible ops required optional model i →
          (searchAfter ops fuel required optional model frontier linearization i).1 = false) ∨
      ∃ i l', Eligible ops required optional model i ∧
        searchAfter ops fuel required optional model frontier linearization i = (true, l') ∧
        search ops (fuel + 1) required optional model frontier linearization = (true, l') ∧
        ∀ i', Eligible ops required optional model i' → rank ops i' < rank ops i →
          (searchAfter ops fuel required optional model frontier linearization i').1 = false := by
  rw [search, if_neg (by simpa using hne)]
  -- an operation that may come next is a candidate, with the list it is on
  have hcand {i : Fin ops.length} (hi : Eligible ops required optional model i) : ∃ isOptional,
      (isOptional = false ∧ i ∈ required ∨ isOptional = true ∧ i ∈ optional) ∧
        (i, isOptional) ∈
          (candidates ops required optional frontier).insertionSort (TriedBefore ops) := by
    obtain ⟨isOptional, hi'⟩ : ∃ isOptional,
        (isOptional = false ∧ i ∈ required) ∨ (isOptional = true ∧ i ∈ optional) := by
      rcases hi.listed with hi | hi
      · exact ⟨false, Or.inl ⟨rfl, hi⟩⟩
      · exact ⟨true, Or.inr ⟨rfl, hi⟩⟩
    exact ⟨isOptional, hi', (List.mem_insertionSort _).2 ((mem_candidates h hne).2 ⟨hi', hi.invoked⟩)⟩
  -- had the rest succeeded, the candidate would have
  have hrest {i : Fin ops.length} {isOptional : Bool}
      (hi : isOptional = false ∧ i ∈ required ∨ isOptional = true ∧ i ∈ optional)
      (hvalid : (tryApply (ops.get i) model).1 = true)
      (hfail : (attempt ops (search ops fuel) required optional model frontier (i, isOptional)
        linearization).1 = false) :
      (searchAfter ops fuel required optional model frontier linearization i).1 = false := by
    rw [← Bool.not_eq_true]
    intro htrue
    rw [(attempt_eq_true h hi).2 ⟨hvalid, Prod.ext htrue rfl⟩] at hfail
    cases hfail
  have hsorted : ((candidates ops required optional frontier).insertionSort
      (TriedBefore ops)).Pairwise fun a b => rank ops a.1 ≤ rank ops b.1 := candidates_sorted hpos
  rcases tryEach_cases (f := attempt ops (search ops fuel) required optional model frontier)
    (fun c l => attempt_restores (fun r o m f l => search_restores fuel r o m f l) c l)
    ((candidates ops required optional frontier).insertionSort (TriedBefore ops)) linearization with
    ⟨heq, hall⟩ | ⟨before, ⟨i, isOptional⟩, after, l', hcs, hall, hf, heq⟩
  · refine Or.inl ⟨heq, fun i hi => ?_⟩
    obtain ⟨isOptional, hi', hmem⟩ := hcand hi
    exact hrest hi' hi.valid (hall _ hmem)
  · have hc : (i, isOptional) ∈ candidates ops required optional frontier := by
      rw [← List.mem_insertionSort (TriedBefore ops), hcs]
      exact List.mem_append_right _ (List.mem_cons_self ..)
    obtain ⟨hi, hle⟩ := (mem_candidates h hne).1 hc
    obtain ⟨hvalid, hsearch⟩ := (attempt_eq_true h hi).1 hf
    refine Or.inr ⟨i, l', ⟨hi.imp And.right And.right, hle, hvalid⟩, hsearch, heq,
      fun i' hi' hlt => ?_⟩
    obtain ⟨isOptional', hi'', hmem⟩ := hcand hi'
    refine hrest hi'' hi'.valid (hall _ ?_)
    -- a smaller rank is tried before
    rw [hcs] at hmem hsorted
    refine (List.mem_append.1 hmem).resolve_right fun hmem => ?_
    obtain ⟨-, hsorted, -⟩ := List.pairwise_append.1 hsorted
    rcases List.mem_cons.1 hmem with heq' | hmem
    · rw [(Prod.mk.inj heq').1] at hlt
      exact absurd hlt (lt_irrefl _)
    · exact absurd ((List.pairwise_cons.1 hsorted).1 _ hmem) (not_le.2 hlt)

/-- With nothing required, nothing need be placed. -/
theorem Places.nil (hreq : required = []) : Places ops done required optional model [] :=
  ⟨List.nodup_nil, by simp [hreq], by simp, List.Pairwise.nil, trivial⟩

/-- An operation that may come next comes before an order of the rest. -/
theorem Places.cons (h : Searching ops done required optional frontier)
    (hi : Eligible ops required optional model i)
    (hπ : Places ops done (without i required) (without i optional) (tryApply (ops.get i) model).2 π) :
    Places ops done required optional model (i :: π) := by
  refine ⟨List.nodup_cons.2 ⟨fun hmem => ?_, hπ.nodup⟩, fun j hj => ?_, ?_, ?_,
    hi.valid, hπ.accepted⟩
  · rcases hπ.within i hmem with hmem | hmem <;> exact (mem_without.1 hmem).2 rfl
  · by_cases hij : j = i
    · exact hij ▸ List.mem_cons_self ..
    · exact List.mem_cons_of_mem _ (hπ.covers j (mem_without.2 ⟨hj, hij⟩))
  · refine List.forall_mem_cons.2 ⟨hi.listed, fun j hj => ?_⟩
    exact (hπ.within j hj).imp (fun hj => (mem_without.1 hj).1) fun hj => (mem_without.1 hj).1
  · refine List.pairwise_cons.2 ⟨fun j hj ⟨hd, hlt⟩ => ?_, hπ.realTime⟩
    -- only what is required can be over
    rcases hπ.within j hj with hj | hj
    · exact absurd (hi.invoked j (mem_without.1 hj).1) (Nat.not_le.2 hlt)
    · exact h.failed j (mem_without.1 hj).1 hd

/-- The first operation of an order may come next. -/
theorem Places.head_eligible (h : Searching ops done required optional frontier)
    (hπ : Places ops done required optional model (i :: π)) :
    Eligible ops required optional model i := by
  refine ⟨hπ.within i (List.mem_cons_self ..), fun j hj => ?_, hπ.accepted.1⟩
  rcases List.mem_cons.1 (hπ.covers j hj) with rfl | hjπ
  · exact h.ordered j (h.succeeded j hj)
  · exact not_lt.1 fun hlt =>
      (List.pairwise_cons.1 hπ.realTime).1 j hjπ ⟨h.succeeded j hj, hlt⟩

/-- The others are an order of what is left. -/
theorem Places.tail (hπ : Places ops done required optional model (i :: π)) :
    Places ops done (without i required) (without i optional) (tryApply (ops.get i) model).2 π := by
  obtain ⟨hnot, hnodup⟩ := List.nodup_cons.1 hπ.nodup
  refine ⟨hnodup, fun j hj => ?_, fun j hj => ?_, (List.pairwise_cons.1 hπ.realTime).2,
    hπ.accepted.2⟩
  · obtain ⟨hj, hij⟩ := mem_without.1 hj
    exact (List.mem_cons.1 (hπ.covers j hj)).resolve_left hij
  · have hij : j ≠ i := fun heq => hnot (heq ▸ hj)
    exact (hπ.within j (List.mem_cons_of_mem _ hj)).imp
      (fun hj => mem_without.2 ⟨hj, hij⟩) fun hj => mem_without.2 ⟨hj, hij⟩

/-- **If there is an order, the search succeeds.** -/
theorem search_complete (h : Searching ops done required optional frontier)
    (hpos : (required ++ optional).Pairwise (·.val < ·.val))
    (hπ : Places ops done required optional model π)
    (hfuel : required.length + optional.length ≤ fuel) :
    (search ops fuel required optional model frontier linearization).1 = true := by
  induction fuel generalizing required optional model frontier linearization π with
  | zero =>
      have hreq : required = [] := List.eq_nil_of_length_eq_zero (by omega)
      rw [search, hreq]
      rfl
  | succ fuel ih =>
      by_cases hne : required = []
      · rw [search, if_pos (by simpa using hne)]
      · cases π with
        | nil =>
            obtain ⟨j, hj⟩ := List.exists_mem_of_ne_nil _ hne
            exact absurd (hπ.covers j hj) (by simp)
        | cons i π =>
            have hi := hπ.head_eligible h
            rcases search_succ_cases h hpos hne with ⟨-, hall⟩ | ⟨-, l', -, -, heq, -⟩
            · have hfail := hall i hi
              rw [searchAfter, ih (h.place hi) (without_append_pairwise hpos) hπ.tail
                (length_without_add_le hi.listed hfuel)] at hfail
              cases hfail
            · rw [heq]

/-- **What the search returns is an order** of what is left, and the first one. -/
theorem search_sound (h : Searching ops done required optional frontier)
    (hpos : (required ++ optional).Pairwise (·.val < ·.val))
    (hfuel : required.length + optional.length ≤ fuel)
    (hs : search ops fuel required optional model frontier linearization =
      (true, linearization')) :
    ∃ π, Places ops done required optional model π ∧
      linearization' = linearization ++ π.map (fun i => (ops.get i).id) ∧
      ∀ π', Places ops done required optional model π' →
        ¬ List.Lex (· < ·) (π'.map (rank ops)) (π.map (rank ops)) := by
  induction fuel generalizing required optional model frontier linearization with
  | zero =>
      simp only [search, Prod.mk.injEq, List.isEmpty_iff] at hs
      exact ⟨[], Places.nil hs.1, by simp [hs.2], fun π' _ => List.not_lex_nil⟩
  | succ fuel ih =>
      by_cases hne : required = []
      · rw [search, if_pos (by simpa using hne)] at hs
        exact ⟨[], Places.nil hne, by simpa using (Prod.mk.inj hs).2.symm,
          fun π' _ => List.not_lex_nil⟩
      · rcases search_succ_cases h hpos hne with
          ⟨heq, -⟩ | ⟨i, l', hi, hrest, heq, hfirst⟩
        · rw [heq] at hs
          cases hs
        · obtain rfl : l' = linearization' := by
            rw [heq] at hs
            exact (Prod.mk.inj hs).2
          obtain ⟨π, hπ, rfl, hleast⟩ := ih (h.place hi) (without_append_pairwise hpos)
            (length_without_add_le hi.listed hfuel) hrest
          refine ⟨i :: π, hπ.cons h hi, by simp, fun π' hπ' => ?_⟩
          cases π' with
          | nil =>
              obtain ⟨j, hj⟩ := List.exists_mem_of_ne_nil _ hne
              exact absurd (hπ'.covers j hj) (by simp)
          | cons i' π' =>
              have hi' := hπ'.head_eligible h
              rw [List.map_cons, List.map_cons, List.cons_lex_cons_iff]
              rintro (hlt | ⟨hrank, hlex⟩)
              · -- the search would have succeeded with the other one
                have hfail := hfirst i' hi' hlt
                rw [searchAfter, search_complete (h.place hi') (without_append_pairwise hpos)
                  hπ'.tail (length_without_add_le hi'.listed hfuel)] at hfail
                cases hfail
              · obtain rfl : i' = i := rank_injective hrank
                exact hleast π' hπ'.tail hlex

end Search

end LinearizabilityChecker

end RaftVibe
