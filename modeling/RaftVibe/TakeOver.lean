/-
**Taking over the entries of a request.**

`apply_entries` walks through the entries of an AppendEntries request and compares each with the
entry at its place in the vector.  Here the walk is a function on the vector alone.  On a vector
whose indices continue a snapshot it has a closed form: entries that are there already are passed
over, and from the first missing or conflicting one on the rest of the request replaces the rest of
the vector — provided a conflict is cut off at the right position, which the source gets right only
without a snapshot.

Main definitions:

* `RaftVibe.Indexed` — a list of entries that carry the consecutive indices after `b`;
* `RaftVibe.takeOver` — the walk;
* `RaftVibe.Conflicts` — an entry that disagrees with the vector.

Main results:

* `RaftVibe.takeOver_of_no_conflict`, `RaftVibe.takeOver_of_conflict` — the closed form;
* `RaftVibe.takeOver_getElem?_of_lt` — the walk does not touch the vector below the position its
  first entry is cut at.
-/

import Mathlib.Data.List.Basic
import RaftVibe.Types

set_option relaxedAutoImplicit false
set_option autoImplicit false

namespace RaftVibe

/-- Lists that agree up to an index agree up to every earlier one. -/
theorem take_eq_take_of_le {α : Type} {l l' : List α} {m n : ℕ} (h : l.take n = l'.take n)
    (hle : m ≤ n) : l.take m = l'.take m := by
  have htake := congrArg (List.take m) h
  rwa [List.take_take, List.take_take, Nat.min_eq_left hle] at htake

/-! ### Consecutive indices -/

/-- The entries carry the indices after `b`, in order. -/
def Indexed (b : ℕ) (l : List LogEntry) : Prop := ∀ k e, l[k]? = some e → e.index = b + 1 + k

namespace Indexed

variable {b n : ℕ} {l l' : List LogEntry} {e : LogEntry}

theorem nil : Indexed b [] := by
  intro k e h
  simp at h

theorem cons_iff : Indexed b (e :: l) ↔ e.index = b + 1 ∧ Indexed (b + 1) l := by
  constructor
  · intro h
    refine ⟨h 0 e rfl, ?_⟩
    intro k x hx
    have := h (k + 1) x (by simpa using hx)
    omega
  · rintro ⟨he, h⟩ k x hx
    cases k with
    | zero =>
        obtain rfl : e = x := by simpa using hx
        exact he
    | succ k =>
        have := h k x (by simpa using hx)
        omega

theorem append_iff : Indexed b (l ++ l') ↔ Indexed b l ∧ Indexed (b + l.length) l' := by
  induction l generalizing b with
  | nil => simp [nil]
  | cons e l ih =>
      rw [List.cons_append, cons_iff, cons_iff, ih, and_assoc, List.length_cons, Nat.add_assoc,
        Nat.add_comm 1]

theorem singleton_iff : Indexed b [e] ↔ e.index = b + 1 := by
  simp [cons_iff, nil]

theorem take (h : Indexed b l) (n : ℕ) : Indexed b (l.take n) := by
  rw [← List.take_append_drop n l] at h
  exact (append_iff.1 h).1

theorem drop (h : Indexed b l) (hn : n ≤ l.length) : Indexed (b + n) (l.drop n) := by
  rw [← List.take_append_drop n l, append_iff] at h
  simpa [hn] using h.2

instance decidable : (b : ℕ) → (l : List LogEntry) → Decidable (Indexed b l)
  | _, [] => isTrue nil
  | b, e :: l =>
      haveI := decidable (b + 1) l
      decidable_of_iff (e.index = b + 1 ∧ Indexed (b + 1) l) cons_iff.symm

/-- The members carry indices in the range of the list, and are found at their index. -/
theorem mem (h : Indexed b l) (he : e ∈ l) :
    b < e.index ∧ e.index ≤ b + l.length ∧ l[e.index - b - 1]? = some e := by
  obtain ⟨k, hk⟩ := List.mem_iff_getElem?.1 he
  have hidx := h k e hk
  have hlt : k < l.length := (List.getElem?_eq_some_iff.1 hk).1
  refine ⟨by omega, by omega, ?_⟩
  rw [← hk]
  congr 1
  omega

/-- Keeping the entries above an index drops the rest. -/
theorem filter_gt (h : Indexed b l) (n : ℕ) :
    (l.filter fun e => e.index > n) = l.drop (n - b) := by
  induction l generalizing b with
  | nil => simp
  | cons e l ih =>
      obtain ⟨he, hl⟩ := cons_iff.1 h
      rcases Nat.lt_or_ge n e.index with hlt | hge
      · rw [List.filter_cons_of_pos (by simpa using hlt), ih hl]
        have h₁ : n - (b + 1) = 0 := by omega
        have h₂ : n - b = 0 := by omega
        simp [h₁, h₂]
      · rw [List.filter_cons_of_neg (by simpa using hge), ih hl]
        obtain ⟨k, hk⟩ : ∃ k, n - b = k + 1 := ⟨n - b - 1, by omega⟩
        rw [hk, List.drop_succ_cons]
        congr 1
        omega

/-- Keeping the entries up to an index takes a prefix. -/
theorem filter_le (h : Indexed b l) (n : ℕ) :
    (l.filter fun e => e.index ≤ n) = l.take (n - b) := by
  induction l generalizing b with
  | nil => simp
  | cons e l ih =>
      obtain ⟨he, hl⟩ := cons_iff.1 h
      rcases Nat.lt_or_ge n e.index with hlt | hge
      · rw [List.filter_cons_of_neg (by simpa using hlt), ih hl]
        have h₁ : n - (b + 1) = 0 := by omega
        have h₂ : n - b = 0 := by omega
        simp [h₁, h₂]
      · rw [List.filter_cons_of_pos (by simpa using hge), ih hl]
        obtain ⟨k, hk⟩ : ∃ k, n - b = k + 1 := ⟨n - b - 1, by omega⟩
        rw [hk, List.take_succ_cons]
        congr 2
        omega

/-- Keeping the entries between two indices takes a slice. -/
theorem filter_between (h : Indexed b l) {m : ℕ} (hm : b ≤ m) (n : ℕ) :
    (l.filter fun e => m < e.index ∧ e.index ≤ n) = (l.drop (m - b)).take (n - m) := by
  have hidx : Indexed m (l.drop (m - b)) := by
    rcases Nat.le_total (m - b) l.length with hin | hout
    · have := h.drop hin
      rwa [Nat.add_sub_cancel' hm] at this
    · rw [List.drop_of_length_le hout]
      exact nil
  have hsplit : (l.filter fun e => m < e.index ∧ e.index ≤ n) =
      (l.filter fun e => e.index > m).filter fun e => e.index ≤ n := by
    rw [List.filter_filter]
    refine List.filter_congr fun e _ => ?_
    simp only [gt_iff_lt, Bool.decide_and, Bool.and_comm]
  rw [hsplit, h.filter_gt, hidx.filter_le]

/-- Two slices that meet. -/
theorem filter_between_append (h : Indexed b l) {m k : ℕ} (hm : b ≤ m) (hk : m ≤ k) (hn : k ≤ n) :
    (l.filter fun e => m < e.index ∧ e.index ≤ k) ++
      (l.filter fun e => k < e.index ∧ e.index ≤ n) =
        l.filter fun e => m < e.index ∧ e.index ≤ n := by
  rw [h.filter_between hm, h.filter_between (Nat.le_trans hm hk), h.filter_between hm,
    show n - m = (k - m) + (n - k) by omega, List.take_add, List.drop_drop,
    show m - b + (k - m) = k - b by omega]

end Indexed

/-! ### The walk -/

/-- The vector above a snapshot at `sli` after taking over the entries, one by one. -/
def takeOver (sli : ℕ) : List LogEntry → List LogEntry → List LogEntry
  | log, [] => log
  | log, entry :: rest =>
      if entry.index ≤ sli then takeOver sli log rest
      else
        match log[entry.index - sli - 1]? with
        | some existing =>
            if existing.term ≠ entry.term then
              takeOver sli (log.take (entry.index - 1) ++ [entry]) rest
            else takeOver sli log rest
        | none => takeOver sli (log ++ [entry]) rest

/-- The entry disagrees with the one at its place. -/
def Conflicts (sli : ℕ) (log : List LogEntry) (entry : LogEntry) : Prop :=
  sli < entry.index ∧ ∃ existing ∈ log[entry.index - sli - 1]?, existing.term ≠ entry.term

instance (sli : ℕ) (log : List LogEntry) (entry : LogEntry) :
    Decidable (Conflicts sli log entry) := by
  unfold Conflicts
  infer_instance

section Walk

variable {sli : ℕ} {log entries rest : List LogEntry}

/-- Entries that are there already are passed over. -/
theorem takeOver_append_of_present (h : ∀ e ∈ entries, e.index ≤ sli ∨
      ∃ x, log[e.index - sli - 1]? = some x ∧ x.term = e.term) :
    takeOver sli log (entries ++ rest) = takeOver sli log rest := by
  induction entries with
  | nil => rfl
  | cons e entries ih =>
      rw [List.cons_append, takeOver]
      split
      · exact ih fun x hx => h x (List.mem_cons_of_mem _ hx)
      · rename_i hle
        obtain ⟨x, hx, hterm⟩ := (h e (List.mem_cons_self ..)).resolve_left hle
        simp only [hx, hterm, ne_eq, not_true_eq_false, if_false]
        exact ih fun x hx => h x (List.mem_cons_of_mem _ hx)

/-- Entries that lie beyond the vector are appended, whether or not they continue it. -/
theorem takeOver_of_beyond {b : ℕ} (h : Indexed b rest) (hb : sli + log.length ≤ b) :
    takeOver sli log rest = log ++ rest := by
  induction rest generalizing b log with
  | nil => simp [takeOver]
  | cons e rest ih =>
      obtain ⟨he, hrest⟩ := Indexed.cons_iff.1 h
      have hnone : log[e.index - sli - 1]? = none := by
        rw [List.getElem?_eq_none_iff]
        omega
      rw [takeOver, if_neg (by omega), hnone]
      simp only
      rw [ih hrest (by rw [List.length_append, List.length_singleton]; omega)]
      simp

/-- **Without a conflict** the entries beyond the end of the vector are appended. -/
theorem takeOver_of_no_conflict {b : ℕ} (h : Indexed b entries) (hb : b ≤ sli + log.length)
    (hno : ∀ e ∈ entries, ¬ Conflicts sli log e) :
    takeOver sli log entries = log ++ entries.drop (sli + log.length - b) := by
  rw [← List.take_append_drop (sli + log.length - b) entries]
  rw [takeOver_append_of_present, List.take_append_drop]
  · rcases Nat.lt_or_ge entries.length (sli + log.length - b) with hlt | hge
    · rw [List.drop_of_length_le (Nat.le_of_lt hlt)]
      simp [takeOver]
    · refine takeOver_of_beyond (h.drop hge) ?_
      omega
  · intro e he
    obtain ⟨hlt, hle, -⟩ := (h.take _).mem he
    rcases Nat.lt_or_ge sli e.index with hsli | hsli
    · right
      have hlen := List.length_take_le (sli + log.length - b) entries
      have hpos : e.index - sli - 1 < log.length := by omega
      refine ⟨_, List.getElem?_eq_getElem hpos, ?_⟩
      by_contra hne
      exact hno e (List.mem_of_mem_take he) ⟨hsli, _, List.getElem?_eq_getElem hpos, hne⟩
    · exact Or.inl hsli

/-- Passing over the entries before the first conflict. -/
theorem takeOver_of_first_conflict {b m : ℕ} {e : LogEntry} (h : Indexed b entries)
    (hm : entries[m]? = some e) (hconf : Conflicts sli log e)
    (hfirst : ∀ x ∈ entries.take m, ¬ Conflicts sli log x) :
    takeOver sli log entries =
      takeOver sli (log.take (e.index - 1) ++ [e]) (entries.drop (m + 1)) := by
  obtain ⟨hlt, x, hx, hne⟩ := hconf
  have hx : log[e.index - sli - 1]? = some x := hx
  have hidx := h m e hm
  obtain ⟨hxlt, -⟩ := List.getElem?_eq_some_iff.1 hx
  have hsplit : entries = entries.take m ++ (e :: entries.drop (m + 1)) := by
    obtain ⟨hmlt, hme⟩ := List.getElem?_eq_some_iff.1 hm
    rw [← hme, List.getElem_cons_drop, List.take_append_drop]
  conv_lhs => rw [hsplit]
  rw [takeOver_append_of_present, takeOver, if_neg (by omega), hx]
  · simp only [ne_eq, hne, not_false_eq_true, if_true]
  · intro y hy
    obtain ⟨hylt, hyle, -⟩ := (h.take m).mem hy
    have := List.length_take_le m entries
    rcases Nat.lt_or_ge sli y.index with hsli | hsli
    · right
      have hpos : y.index - sli - 1 < log.length := by omega
      refine ⟨_, List.getElem?_eq_getElem hpos, ?_⟩
      by_contra hne
      exact hfirst y hy ⟨hsli, _, List.getElem?_eq_getElem hpos, hne⟩
    · exact Or.inl hsli

/-- **With a conflict**, and no snapshot, the rest of the request replaces the rest of the
vector. -/
theorem takeOver_of_conflict {b m : ℕ} {e : LogEntry} (h : Indexed b entries)
    (hm : entries[m]? = some e) (hconf : Conflicts 0 log e)
    (hfirst : ∀ x ∈ entries.take m, ¬ Conflicts 0 log x) :
    takeOver 0 log entries = log.take (b + m) ++ entries.drop m := by
  have hidx := h m e hm
  obtain ⟨hmlt, hme⟩ := List.getElem?_eq_some_iff.1 hm
  have hxlt : e.index - 0 - 1 < log.length := by
    obtain ⟨-, x, hx, -⟩ := hconf
    exact (List.getElem?_eq_some_iff.1 hx).1
  rw [takeOver_of_first_conflict h hm hconf hfirst,
    takeOver_of_beyond (h.drop (Nat.succ_le_of_lt hmlt))]
  · rw [← List.getElem_cons_drop hmlt, hme, List.append_assoc, List.singleton_append,
      show e.index - 1 = b + m by omega]
  · simp only [List.length_append, List.length_take, List.length_singleton]
    omega

/-- A position below every cut keeps its entry. -/
theorem takeOver_getElem?_of_lt {p : ℕ} (hp : p < log.length)
    (h : ∀ e ∈ entries, p + 1 < e.index) : (takeOver sli log entries)[p]? = log[p]? := by
  induction entries generalizing log with
  | nil => rfl
  | cons e entries ih =>
      have he := h e (List.mem_cons_self ..)
      have hrest : ∀ x ∈ entries, p + 1 < x.index := fun x hx => h x (List.mem_cons_of_mem _ hx)
      rw [takeOver]
      split
      · exact ih hp hrest
      · split
        · split
          · have hlen : p < (log.take (e.index - 1)).length := by
              rw [List.length_take]
              omega
            rw [ih (by rw [List.length_append]; omega) hrest, List.getElem?_append_left hlen,
              List.getElem?_take_of_lt (by omega)]
          · exact ih hp hrest
        · rw [ih (by rw [List.length_append]; omega) hrest, List.getElem?_append_left hp]

/-- Some member of a list has the property, and then one comes first; or none has. -/
theorem exists_first_or {α : Type} (P : α → Prop) (l : List α) :
    (∀ x ∈ l, ¬ P x) ∨ ∃ m x, l[m]? = some x ∧ P x ∧ ∀ y ∈ l.take m, ¬ P y := by
  induction l with
  | nil => exact Or.inl (by simp)
  | cons x l ih =>
      by_cases hx : P x
      · exact Or.inr ⟨0, x, rfl, hx, by simp⟩
      · rcases ih with hno | ⟨m, y, hm, hy, hfirst⟩
        · exact Or.inl (List.forall_mem_cons.2 ⟨hx, hno⟩)
        · exact Or.inr ⟨m + 1, y, by simpa using hm, hy, by
            rw [List.take_succ_cons]
            exact List.forall_mem_cons.2 ⟨hx, hfirst⟩⟩

/-- Some entry of the request conflicts, or none does. -/
theorem first_conflict_or (sli : ℕ) (log entries : List LogEntry) :
    (∀ e ∈ entries, ¬ Conflicts sli log e) ∨
      ∃ m e, entries[m]? = some e ∧ Conflicts sli log e ∧
        ∀ x ∈ entries.take m, ¬ Conflicts sli log x :=
  exists_first_or (Conflicts sli log) entries

/-- **The indices stay consecutive**, if no conflict has to be cut off above a snapshot. -/
theorem Indexed.takeOver {b : ℕ} (hlog : Indexed sli log) (h : Indexed b entries)
    (hb : b ≤ sli + log.length) (hcut : 0 < sli → ∀ e ∈ entries, ¬ Conflicts sli log e) :
    Indexed sli (takeOver sli log entries) := by
  rcases first_conflict_or sli log entries with hno | ⟨m, e, hm, hconf, hfirst⟩
  · rw [takeOver_of_no_conflict h hb hno, append_iff]
    refine ⟨hlog, ?_⟩
    rcases Nat.lt_or_ge entries.length (sli + log.length - b) with hlt | hge
    · rw [List.drop_of_length_le (Nat.le_of_lt hlt)]
      exact nil
    · have := h.drop hge
      rwa [Nat.add_sub_cancel' hb] at this
  · obtain rfl : sli = 0 := by
      by_contra hne
      exact hcut (Nat.pos_of_ne_zero hne) e (List.mem_of_getElem? hm) hconf
    rw [takeOver_of_conflict h hm hconf hfirst, append_iff]
    refine ⟨hlog.take _, ?_⟩
    obtain ⟨hmlt, -⟩ := List.getElem?_eq_some_iff.1 hm
    obtain ⟨hlt, x, hx, -⟩ := hconf
    obtain ⟨hxlt, -⟩ := List.getElem?_eq_some_iff.1 (show log[e.index - 0 - 1]? = some x from hx)
    have hidx := h m e hm
    have hlen : (log.take (b + m)).length = b + m := by
      rw [List.length_take]
      omega
    rw [hlen, Nat.zero_add]
    exact h.drop (Nat.le_of_lt hmlt)

/-- An index up to which nothing conflicts stays inside the vector. -/
theorem le_takeOver_length {b c : ℕ} (h : Indexed b entries) (hb : b ≤ sli + log.length)
    (hcut : 0 < sli → ∀ e ∈ entries, ¬ Conflicts sli log e) (hc : c ≤ sli + log.length)
    (hkeep : ∀ e ∈ entries, e.index ≤ c → ¬ Conflicts sli log e) :
    c ≤ sli + (takeOver sli log entries).length := by
  rcases first_conflict_or sli log entries with hno | ⟨m, e, hm, hconf, hfirst⟩
  · rw [takeOver_of_no_conflict h hb hno, List.length_append]
    omega
  · have hmem := List.mem_of_getElem? hm
    obtain rfl : sli = 0 := by
      by_contra hne
      exact hcut (Nat.pos_of_ne_zero hne) e hmem hconf
    have hgt : ¬ e.index ≤ c := fun hle => hkeep e hmem hle hconf
    obtain ⟨hmlt, -⟩ := List.getElem?_eq_some_iff.1 hm
    have hidx := h m e hm
    have hxlt : e.index - 0 - 1 < log.length := by
      obtain ⟨-, x, hx, -⟩ := hconf
      exact (List.getElem?_eq_some_iff.1 hx).1
    rw [takeOver_of_conflict h hm hconf hfirst, List.length_append, List.length_take,
      List.length_drop]
    omega

end Walk

/-- What is taken over was in the log or in the request. -/
theorem mem_takeOver {sli : ℕ} {log entries : List LogEntry} {x : LogEntry}
    (h : x ∈ takeOver sli log entries) : x ∈ log ∨ x ∈ entries := by
  induction entries generalizing log with
  | nil => exact Or.inl h
  | cons entry rest ih =>
      have hrest {l : List LogEntry} (hl : ∀ y ∈ l, y ∈ log ∨ y = entry)
          (hx : x ∈ takeOver sli l rest) : x ∈ log ∨ x ∈ entry :: rest := by
        rcases ih hx with hx | hx
        · rcases hl x hx with hx | rfl
          · exact Or.inl hx
          · exact Or.inr (List.mem_cons_self ..)
        · exact Or.inr (List.mem_cons_of_mem _ hx)
      have hgrown {l : List LogEntry} (hl : l ⊆ log) : ∀ y ∈ l ++ [entry], y ∈ log ∨ y = entry := by
        intro y hy
        rcases List.mem_append.1 hy with hy | hy
        · exact Or.inl (hl hy)
        · exact Or.inr (List.mem_singleton.1 hy)
      rw [takeOver] at h
      split at h
      · exact hrest (fun y hy => Or.inl hy) h
      · split at h
        · split at h
          · exact hrest (hgrown (List.take_subset _ _)) h
          · exact hrest (fun y hy => Or.inl hy) h
        · exact hrest (hgrown (List.Subset.refl _)) h

end RaftVibe
