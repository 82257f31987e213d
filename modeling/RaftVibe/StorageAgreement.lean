/-
**The two storages.**

`MemoryStorage` truncates and compacts by position: it takes the entry at index `N` to be at position
`N - 1`.  That is so until a compaction removes entries.  From then on its position is off by what
was removed, which matters unless all the entries go or all of them stay.

Main definitions:

* `RaftVibe.Along` — a property of every call of a sequence, and of the contents before it;
* `RaftVibe.StorageCall.InShape` — the calls that `RaftCore` makes;
* `RaftVibe.StorageCall.ByPosition` — **a cut that is the same by position and by index**.

Main results:

* `RaftVibe.MemoryStorage.apply_log_iff` — one call;
* `RaftVibe.storages_agree_iff` — **the storages agree after every call of a sequence exactly when
  every cut is the same by position and by index**.
-/

import RaftVibe.FileStorageSpec
import RaftVibe.TakeOver

set_option relaxedAutoImplicit false
set_option autoImplicit false

namespace RaftVibe

/-- Every call of a sequence, with the documented contents before it. -/
def Along (P : StorageContents → StorageCall → Prop) : StorageContents → List StorageCall → Prop
  | _, [] => True
  | c, call :: calls => P c call ∧ Along P (call.apply c).2 calls

namespace StorageCall

/-- **The calls of `RaftCore`**: appends keep the indices contiguous, and cuts are at an index up to
the one after the last. -/
def InShape (c : StorageContents) : StorageCall → Prop
  | appendLogEntries entries => ∃ b, Indexed b (c.log ++ entries)
  | truncateLog i => 1 ≤ i ∧ ∀ last ∈ c.log.getLast?, i ≤ last.index + 1
  | compactLog i => 1 ≤ i ∧ ∀ last ∈ c.log.getLast?, i ≤ last.index + 1
  | _ => True

/-- A cut at `i` is the same by position and by index. -/
def CutAgrees (log : List LogEntry) (i : ℕ) : Prop :=
  ∀ first ∈ log.head?, ∀ last ∈ log.getLast?,
    first.index = 1 ∨ i = 1 ∨ i = last.index + 1

/-- **Cuts are the same by position and by index**: there are no entries, or the first one has index
`1`, or everything is on one side. -/
def ByPosition (c : StorageContents) : StorageCall → Prop
  | truncateLog i => CutAgrees c.log i
  | compactLog i => CutAgrees c.log i
  | _ => True

end StorageCall

/-! ### One call -/

section Cuts

variable {log : List LogEntry} {b i : ℕ}

theorem Indexed.head? (h : Indexed b log) (hne : log ≠ []) :
    ∃ first, log.head? = some first ∧ first.index = b + 1 := by
  have hlt : 0 < log.length := List.length_pos_iff.2 hne
  refine ⟨log[0], by rw [List.head?_eq_getElem?, List.getElem?_eq_getElem hlt], ?_⟩
  exact h 0 _ (List.getElem?_eq_getElem hlt)

theorem Indexed.getLast? (h : Indexed b log) (hne : log ≠ []) :
    ∃ last, log.getLast? = some last ∧ last.index = b + log.length := by
  have hlt : log.length - 1 < log.length := by
    have := List.length_pos_iff.2 hne
    omega
  refine ⟨log[log.length - 1], by rw [List.getLast?_eq_getElem?, List.getElem?_eq_getElem hlt], ?_⟩
  rw [h _ _ (List.getElem?_eq_getElem hlt)]
  omega

/-- The condition on a cut, in terms of the index before the first. -/
theorem cutAgrees_iff (h : Indexed b log) (hne : log ≠ []) :
    StorageCall.CutAgrees log i ↔ b = 0 ∨ i = 1 ∨ i = b + log.length + 1 := by
  obtain ⟨first, hfirst, hfirsti⟩ := h.head? hne
  obtain ⟨last, hlast, hlasti⟩ := h.getLast? hne
  simp only [StorageCall.CutAgrees, hfirst, hlast, Option.mem_def, Option.some.injEq,
    forall_eq']
  rw [hfirsti, hlasti]
  omega

/-- Truncating by position takes a prefix. -/
theorem MemoryStorage.truncateLog_log (m : MemoryStorage) (hi : 1 ≤ i) :
    (m.truncateLog i).log = m.log.take (i - 1) := by
  rw [MemoryStorage.truncateLog, if_pos (by omega)]
  simp only
  split
  · rfl
  · rename_i hge
    exact (List.take_of_length_le (not_lt.1 hge)).symm

/-- Compacting by position drops one. -/
theorem MemoryStorage.compactLog_log (m : MemoryStorage) (hi : 1 ≤ i) :
    (m.compactLog i).log = m.log.drop (i - 1) := by
  rw [MemoryStorage.compactLog]
  split
  · simp only
    split
    · rfl
    · rename_i hge
      exact (List.drop_of_length_le (not_lt.1 hge)).symm
  · obtain rfl : i = 1 := by omega
    rfl

/-- Truncating by index takes a prefix. -/
theorem Indexed.filter_lt (h : Indexed b log) (hi : 1 ≤ i) :
    (log.filter fun e => e.index < i) = log.take (i - 1 - b) := by
  rw [← h.filter_le]
  refine List.filter_congr fun e _ => ?_
  rw [decide_eq_decide]
  omega

/-- Compacting by index drops one. -/
theorem Indexed.filter_ge (h : Indexed b log) (hi : 1 ≤ i) :
    (log.filter fun e => i ≤ e.index) = log.drop (i - 1 - b) := by
  rw [← h.filter_gt]
  refine List.filter_congr fun e _ => ?_
  rw [decide_eq_decide]
  omega

/-- **Truncation**: the two prefixes. -/
theorem truncate_agrees_iff (hne : log ≠ []) (hi : 1 ≤ i) (hlast : i ≤ b + log.length + 1) :
    log.take (i - 1) = log.take (i - 1 - b) ↔ b = 0 ∨ i = 1 ∨ i = b + log.length + 1 := by
  have hpos := List.length_pos_iff.2 hne
  rw [List.take_eq_take_iff]
  omega

/-- **Compaction**: what is left after them. -/
theorem compact_agrees_iff (hne : log ≠ []) (hi : 1 ≤ i) (hlast : i ≤ b + log.length + 1) :
    log.drop (i - 1) = log.drop (i - 1 - b) ↔ b = 0 ∨ i = 1 ∨ i = b + log.length + 1 := by
  have hpos := List.length_pos_iff.2 hne
  constructor
  · intro heq
    have := congrArg List.length heq
    rw [List.length_drop, List.length_drop] at this
    omega
  · rintro (rfl | rfl | rfl)
    · rfl
    · simp
    · rw [List.drop_of_length_le (by omega), List.drop_of_length_le (by omega)]

end Cuts

section Calls

variable {m : MemoryStorage} {c : StorageContents} {call : StorageCall}

/-- The calls of `RaftCore` keep the indices contiguous. -/
theorem StorageCall.InShape.indexed (h : call.InShape c) (hlog : ∃ b, Indexed b c.log) :
    ∃ b, Indexed b (call.apply c).2.log := by
  obtain ⟨b, hb⟩ := hlog
  cases call with
  | saveTerm term => exact ⟨b, hb⟩
  | saveVotedFor votedFor => exact ⟨b, hb⟩
  | saveSnapshot snapshot => exact ⟨b, hb⟩
  | appendLogEntries entries => exact h
  | truncateLog i =>
      refine ⟨b, ?_⟩
      change Indexed b (c.log.filter fun e => e.index < i)
      rw [hb.filter_lt h.1]
      exact hb.take _
  | compactLog i =>
      change ∃ b, Indexed b (c.log.filter fun e => i ≤ e.index)
      rw [hb.filter_ge h.1]
      rcases Nat.le_total (i - 1 - b) c.log.length with hin | hout
      · exact ⟨_, hb.drop hin⟩
      · rw [List.drop_of_length_le hout]
        exact ⟨0, Indexed.nil⟩

/-- **One call**: the storages still agree exactly when a cut is the same by position and by
index. -/
theorem MemoryStorage.apply_log_iff (h : call.InShape c) (hlog : ∃ b, Indexed b c.log)
    (heq : m.log = c.log) : (call.apply m).2.log = (call.apply c).2.log ↔ call.ByPosition c := by
  obtain ⟨b, hb⟩ := hlog
  -- an index up to the one after the last
  have hbound {i : ℕ} (hne : c.log ≠ []) (hi : ∀ last ∈ c.log.getLast?, i ≤ last.index + 1) :
      i ≤ b + c.log.length + 1 := by
    obtain ⟨last, hlast, hidx⟩ := hb.getLast? hne
    exact hidx ▸ hi last hlast
  cases call with
  | saveTerm term => exact iff_of_true heq trivial
  | saveVotedFor votedFor => exact iff_of_true heq trivial
  | saveSnapshot snapshot => exact iff_of_true heq trivial
  | appendLogEntries entries => exact iff_of_true (congrArg (· ++ entries) heq) trivial
  | truncateLog i =>
      change (m.truncateLog i).log = (c.log.filter fun e => e.index < i) ↔
        StorageCall.CutAgrees c.log i
      rw [m.truncateLog_log h.1, hb.filter_lt h.1, heq]
      rcases eq_or_ne c.log [] with hnil | hne
      · simp [StorageCall.CutAgrees, hnil]
      · rw [cutAgrees_iff hb hne, truncate_agrees_iff hne h.1 (hbound hne h.2)]
  | compactLog i =>
      change (m.compactLog i).log = (c.log.filter fun e => i ≤ e.index) ↔
        StorageCall.CutAgrees c.log i
      rw [m.compactLog_log h.1, hb.filter_ge h.1, heq]
      rcases eq_or_ne c.log [] with hnil | hne
      · simp [StorageCall.CutAgrees, hnil]
      · rw [cutAgrees_iff hb hne, compact_agrees_iff hne h.1 (hbound hne h.2)]

/-! ### A sequence of calls -/

variable {calls : List StorageCall}

/-- The in-memory storage does what is documented after every call exactly when every cut is the
same by position and by index. -/
theorem MemoryStorage.applyAll_log_iff (hshape : Along StorageCall.InShape c calls)
    (hlog : ∃ b, Indexed b c.log) (heq : m.log = c.log) :
    (∀ n, (applyAll m (calls.take n)).log = (applyAll c (calls.take n)).log) ↔
      Along StorageCall.ByPosition c calls := by
  induction calls generalizing m c with
  | nil => simpa [Along] using heq
  | cons call calls ih =>
      obtain ⟨hcall, hcalls⟩ := hshape
      have hstep := MemoryStorage.apply_log_iff hcall hlog heq
      rw [Along]
      constructor
      · intro h
        have h₁ : (call.apply m).2.log = (call.apply c).2.log := by simpa using h 1
        refine ⟨hstep.1 h₁, (ih hcalls (hcall.indexed hlog) h₁).1 fun n => ?_⟩
        simpa using h (n + 1)
      · rintro ⟨hpos, hrest⟩ n
        cases n with
        | zero => simpa using heq
        | succ n =>
            simpa using (ih hcalls (hcall.indexed hlog) (hstep.2 hpos)).2 hrest n

/-- **The storages agree after every call of a sequence exactly when every cut is the same by
position and by index.**  What they agree on is the documented contents. -/
theorem storages_agree_iff {formats : Formats}
    (hadm : ∀ call ∈ calls, call.Admissible formats)
    (hshape : Along StorageCall.InShape .empty calls) :
    (∀ n, Storage.loadLog (applyAll MemoryStorage.new (calls.take n)) =
          .ok (applyAll StorageContents.empty (calls.take n)).log ∧
        Storage.loadLog (applyAll (FileStorage.new : FileStorage formats) (calls.take n)) =
          .ok (applyAll StorageContents.empty (calls.take n)).log) ↔
      Along StorageCall.ByPosition .empty calls := by
  rw [← MemoryStorage.applyAll_log_iff (m := MemoryStorage.new) hshape ⟨0, Indexed.nil⟩ rfl]
  refine forall_congr' fun n => ?_
  have hfile : Holds (applyAll (FileStorage.new : FileStorage formats) (calls.take n))
      (applyAll .empty (calls.take n)) :=
    (FileStorage.applyAll_holds fun call hcall => hadm call (List.mem_of_mem_take hcall)).1
  constructor
  · exact fun h => Except.ok.inj h.1
  · exact fun h => ⟨congrArg Except.ok h, hfile.2.2.1⟩

end Calls

/-- After a compaction, a truncation in the middle. -/
def truncateAfterCompaction : List StorageCall :=
  [.appendLogEntries [FileStorage.exampleEntry 1, FileStorage.exampleEntry 2,
    FileStorage.exampleEntry 3], .compactLog 2, .truncateLog 3]

theorem truncateAfterCompaction_admissible :
    ∀ call ∈ truncateAfterCompaction, call.Admissible FileStorage.exampleFormats := by
  rw [truncateAfterCompaction]
  simp only [List.forall_mem_cons]
  exact ⟨FileStorage.exampleFormats_writes, trivial, trivial, by simp⟩

theorem truncateAfterCompaction_inShape :
    Along StorageCall.InShape .empty truncateAfterCompaction := by
  refine ⟨⟨0, by decide⟩, ⟨by decide, ?_⟩, ⟨by decide, ?_⟩, trivial⟩
  · intro last hlast
    obtain rfl := Option.some.inj hlast
    decide
  · intro last hlast
    obtain rfl := Option.some.inj hlast
    decide

theorem storages_agree_iff_truncateAfterCompaction :
    (∀ n, Storage.loadLog (applyAll MemoryStorage.new (truncateAfterCompaction.take n)) =
          .ok (applyAll StorageContents.empty (truncateAfterCompaction.take n)).log ∧
        Storage.loadLog (applyAll (FileStorage.new : FileStorage FileStorage.exampleFormats)
          (truncateAfterCompaction.take n)) =
          .ok (applyAll StorageContents.empty (truncateAfterCompaction.take n)).log) ↔
      Along StorageCall.ByPosition .empty truncateAfterCompaction :=
  storages_agree_iff truncateAfterCompaction_admissible truncateAfterCompaction_inShape

/-- Up to the compaction the storages agree, and the file does what is documented. -/
theorem storages_disagree :
    Along StorageCall.InShape .empty truncateAfterCompaction ∧
      Storage.loadLog (applyAll MemoryStorage.new truncateAfterCompaction) =
        .ok [FileStorage.exampleEntry 2, FileStorage.exampleEntry 3] ∧
      Storage.loadLog (applyAll (FileStorage.new : FileStorage FileStorage.exampleFormats)
        truncateAfterCompaction) = .ok [FileStorage.exampleEntry 2] :=
  ⟨truncateAfterCompaction_inShape, rfl,
    (FileStorage.applyAll_holds truncateAfterCompaction_admissible).1.2.2.1⟩

end RaftVibe
