/-
**Torn writes.**

`write_with_checksum` creates the file anew and then writes it, so a crash can leave any part of the
new content.  The checksum does not see all of these parts: an empty file is read as if there were
none, and then the term is `0`, the vote is no vote, and there is no snapshot.

Every other part is an error, or the new value: what is left of the data has either no blank, and
then no checksum, or it is not the whole of what `serde_json` wrote.

Main definitions:

* `RaftVibe.Serde.WritesWhole` — `serde_json` does not read parts of what it writes;
* `RaftVibe.FileStorage.TornWrite` — what a crash leaves of a file with one record;
* `RaftVibe.FileStorage.OldOrNew` — a load that returns the old value, the new value or an error.

Main results:

* `RaftVibe.verifyChecksum_torn` — the data of a torn record is whole, or it is torn at a blank;
* `RaftVibe.FileStorage.readWithChecksum_torn` — **a torn file is read as nothing only if it is
  empty**;
* `RaftVibe.FileStorage.torn_oldOrNew_iff` — when the loads return the old or the new value.
-/

import RaftVibe.FileStorageSpec

set_option relaxedAutoImplicit false
set_option autoImplicit false

namespace RaftVibe

/-- Moreover, no part of what `serde_json` writes is read: it ends where its last brace closes. -/
structure Serde.WritesWhole {α : Type} (serde : Serde α) (a : α) (json : List Char) : Prop
    extends serde.Writes a json where
  part : ∀ part, part <+: json → part ≠ json → ∃ e, serde.fromStr part = .error e

/-- A verified record is split at its last blank. -/
theorem eq_of_verifyChecksum {format place : String} {t d : List Char}
    (h : verifyChecksum format place t = .ok d) : ∃ word, t = d ++ ' ' :: word ∧ ' ' ∉ word := by
  rw [verifyChecksum] at h
  cases hword : Text.rsplitOnce ' ' t with
  | none => simp [hword] at h
  | some p =>
      rw [hword] at h
      simp only at h
      split at h
      · cases h
      · split_ifs at h
        obtain rfl : p.1 = d := Except.ok.inj h
        exact ⟨p.2, Text.eq_of_rsplitOnce hword⟩

/-- The data of a torn record is whole, or it is torn at a blank. -/
theorem verifyChecksum_torn {format place : String} {data t d : List Char}
    (ht : t <+: data ++ ' ' :: checksumText data)
    (hd : verifyChecksum format place t = .ok d) : d = data ∨ ∃ word, d ++ ' ' :: word <+: data := by
  obtain ⟨word, rfl, hword⟩ := eq_of_verifyChecksum hd
  rcases List.prefix_or_prefix_of_prefix ht (List.prefix_append data _) with hpart | ⟨x, hx⟩
  · exact Or.inr ⟨word, hpart⟩
  · rw [← hx, List.prefix_append_right_inj] at ht
    cases x with
    | nil => exact Or.inr ⟨word, by rw [← hx, List.append_nil]⟩
    | cons c y =>
        obtain ⟨rfl, hy⟩ := List.cons_prefix_cons.1 ht
        have hblank : ' ' ∉ y := fun hmem => by
          have := isWhitespace_checksumText (hy.subset hmem)
          exact absurd this (by decide)
        -- both sides are split at the same blank
        have heq := congrArg (Text.rsplitOnce ' ') hx
        rw [Text.rsplitOnce_append hblank, Text.rsplitOnce_append hword] at heq
        exact Or.inl (Prod.mk.inj (Option.some.inj heq)).1.symm

namespace FileStorage

variable {formats : Formats} {s s' : FileStorage formats} {path : String} {data : List Char}

/-- What a crash inside `write_with_checksum` leaves, on the way to `saved`: the file is as it was, or
it has been created anew and some of the content is written. -/
def TornWrite (s saved : FileStorage formats) (path : String) (s' : FileStorage formats) : Prop :=
  s' = s ∨ ∃ written, written <+: (saved.files path).getD [] ∧ s' = s.write path written

/-- The load returns the old value, the new value or an error. -/
def OldOrNew {α : Type} (result : Except StorageError α) (old new : α) : Prop :=
  ∀ a, result = .ok a → a = old ∨ a = new

theorem OldOrNew.error {α : Type} {old new : α} {e : StorageError} :
    OldOrNew (.error e) old new := by
  intro a ha
  cases ha

theorem oldOrNew_ok_iff {α : Type} {a old new : α} :
    OldOrNew (.ok a) old new ↔ a = old ∨ a = new := by
  constructor
  · intro h
    exact h a rfl
  · intro h a' ha
    obtain rfl := Except.ok.inj ha
    exact h

/-- A file with some text has a record. -/
theorem readWithChecksum_of_decode {bytes : List UInt8} {t : List Char}
    (hfile : s.files path = some bytes) (hdecode : Text.decode bytes = some t)
    (ht : Text.trim t ≠ []) :
    s.readWithChecksum path =
      (verifyChecksum "format" ("in " ++ formats.path path) (Text.trim t)).map some := by
  rw [readWithChecksum, hfile]
  simp only [hdecode]
  rw [if_neg (by simpa using ht)]

/-- **A torn file is read as nothing only if it is empty.**  What is read otherwise is an error, the
new data, or a part of it that ends before a blank. -/
theorem readWithChecksum_torn {written : List UInt8} (hfile : s.files path = some written)
    (hwritten : written <+: Text.encode (checksumLine data)) (hne : data ≠ [])
    (hhead : ∀ c ∈ data.head?, Text.isWhitespace c = false) :
    (written = [] ∧ s.readWithChecksum path = .ok none) ∨
      (written ≠ [] ∧ ((∃ e, s.readWithChecksum path = .error e) ∨
        s.readWithChecksum path = .ok (some data) ∨
        ∃ d word, d ++ ' ' :: word <+: data ∧ s.readWithChecksum path = .ok (some d))) := by
  by_cases hempty : written = []
  · subst hempty
    refine Or.inl ⟨rfl, ?_⟩
    rw [readWithChecksum, hfile]
    rfl
  refine Or.inr ⟨hempty, ?_⟩
  cases hdecode : Text.decode written with
  | none => exact Or.inl ⟨invalidUtf8, by rw [readWithChecksum, hfile]; simp only [hdecode]⟩
  | some t =>
      have ht : t <+: checksumLine data := Text.prefix_of_decode hwritten hdecode
      have htne : t ≠ [] := by
        rintro rfl
        exact hempty (Text.encode_decode hdecode).symm
      have hthead : ∀ c ∈ t.head?, Text.isWhitespace c = false := by
        intro c hc
        refine hhead c ?_
        have hline : (checksumLine data).head? = data.head? := by
          rw [checksumLine_eq, List.append_assoc, List.head?_append_of_ne_nil _ hne]
        obtain ⟨rest, hrest⟩ := ht
        rw [← hline, ← hrest, List.head?_append_of_ne_nil _ htne]
        exact hc
      -- trimming takes the end of the line away, if it is there
      have htrim : Text.trim t <+: data ++ ' ' :: checksumText data := by
        rw [checksumLine_eq, List.prefix_concat_iff] at ht
        rcases ht with rfl | ht
        · rw [trim_record data hne hhead (List.forall_mem_singleton.2 rfl)]
        · rw [Text.trim_eq_rdropWhile hthead]
          exact (List.rdropWhile_prefix _ _).trans ht
      rw [readWithChecksum_of_decode hfile hdecode (Text.trim_ne_nil htne hthead)]
      cases hverify : verifyChecksum "format" ("in " ++ formats.path path) (Text.trim t) with
      | error e => exact Or.inl ⟨e, rfl⟩
      | ok d =>
          rcases verifyChecksum_torn htrim hverify with rfl | ⟨word, hword⟩
          · exact Or.inr (Or.inl rfl)
          · exact Or.inr (Or.inr ⟨d, word, hword, rfl⟩)

/-- Data without a blank is not torn at one. -/
theorem not_torn_of_word (hword : ∀ c ∈ data, Text.isWhitespace c = false) (d word : List Char) :
    ¬ d ++ ' ' :: word <+: data := by
  intro h
  have := hword ' ' (h.subset (by simp))
  exact absurd this (by decide)

/-! ### The three files -/

/-- **A torn write is read as the old or the new value**, unless the file is empty and neither of
them is what is read without a file. -/
theorem torn_readAs_iff {α : Type} {default old new : α}
    {parse : List Char → Except StorageError α} (hold : s.readAs path default parse = .ok old)
    (hfile : s.files path ≠ some []) (hnew : parse data = .ok new) (hne : data ≠ [])
    (hhead : ∀ c ∈ data.head?, Text.isWhitespace c = false)
    (hpart : ∀ d word, d ++ ' ' :: word <+: data → ∃ e, parse d = .error e)
    (h : TornWrite s (s.writeWithChecksum path data).2 path s') :
    OldOrNew (s'.readAs path default parse) old new ↔
      (s'.files path = some [] → old = default ∨ new = default) := by
  rcases h with rfl | ⟨written, hwritten, rfl⟩
  · constructor
    · intro _ hempty
      exact absurd hempty hfile
    · intro _
      rw [hold, oldOrNew_ok_iff]
      exact Or.inl rfl
  · have hsaved : (s.writeWithChecksum path data).2.files path =
        some (Text.encode (checksumLine data)) := write_files_self
    rw [hsaved, Option.getD_some] at hwritten
    have hfile' : (s.write path written).files path = some written := write_files_self
    rw [hfile', readAs]
    rcases readWithChecksum_torn hfile' hwritten hne hhead with
      ⟨rfl, hread⟩ | ⟨hempty, ⟨e, hread⟩ | hread | ⟨d, word, hd, hread⟩⟩
    · simp only [hread, oldOrNew_ok_iff, forall_const]
      rw [eq_comm, @eq_comm _ default new]
    · simp [hread, OldOrNew.error, hempty]
    · simp [hread, hnew, oldOrNew_ok_iff, hempty]
    · obtain ⟨e, he⟩ := hpart d word hd
      simp [hread, he, OldOrNew.error, hempty]

/-- A file that was saved is not empty. -/
theorem ne_empty {file : Option (List UInt8)}
    (h : file = none ∨ ∃ data, file = some (Text.encode (checksumLine data))) : file ≠ some [] := by
  rcases h with rfl | ⟨data, rfl⟩
  · simp
  · simpa using Text.encode_ne_nil (by simp [checksumLine_eq] : checksumLine data ≠ [])

/-- **What the loads return after a crash in a save**: the old value, the new value or an error, unless
the file is empty and a value of its own stands for no file. -/
theorem torn_oldOrNew_iff :
    (∀ old new, TermFile (s.files termPath) old → new < 2 ^ 64 →
      TornWrite s (s.saveTerm new).2 termPath s' →
        (OldOrNew s'.loadTerm old new ↔ (s'.files termPath = some [] → old = 0 ∨ new = 0))) ∧
    (∀ old new, VoteFile (s.files votedForPath) old → (∀ id ∈ new, id < 2 ^ 64) →
      TornWrite s (s.saveVotedFor new).2 votedForPath s' →
        (OldOrNew s'.loadVotedFor old new ↔
          (s'.files votedForPath = some [] → old = none ∨ new = none))) ∧
    (∀ old new json, SnapshotFile formats (s.files snapshotPath) old →
      formats.snapshot.WritesWhole new json →
      TornWrite s (s.saveSnapshot new).2 snapshotPath s' →
        (OldOrNew s'.loadSnapshot old (some new) ↔
          (s'.files snapshotPath = some [] → old = none))) := by
  refine ⟨fun old new hold hnew h => ?_, fun old new hold hnew h => ?_,
    fun old new json hold hjson h => ?_⟩
  · -- a number is one word
    have hword := isWhitespace_toDigits new
    refine torn_readAs_iff hold.loadTerm (ne_empty (hold.imp And.left fun hf => ⟨_, hf.1⟩))
      (parseU64_toDigits hnew "term") Nat.toDigits_ne_nil
      (fun c hc => hword c (List.mem_of_mem_head? hc)) (fun d word hd => ?_) h
    exact absurd hd (not_torn_of_word hword d word)
  · have hsave : s.saveVotedFor new = s.writeWithChecksum votedForPath (voteText new) := by
      cases new <;> rfl
    rw [hsave] at h
    have hword := isWhitespace_voteText new
    refine torn_readAs_iff hold.loadVotedFor (ne_empty (hold.imp And.left fun hf => ⟨_, hf.1⟩))
      (parseVote_voteText hnew) (voteText_ne_nil new)
      (fun c hc => hword c (List.mem_of_mem_head? hc)) (fun d word hd => ?_) h
    exact absurd hd (not_torn_of_word hword d word)
  · have hsave : s.saveSnapshot new = s.writeWithChecksum snapshotPath json := by
      rw [saveSnapshot, hjson.toString]
    rw [hsave] at h
    have hfile : s.files snapshotPath ≠ some [] := by
      refine ne_empty (hold.imp And.left fun hkept => ?_)
      obtain ⟨_, json, _, _, hf⟩ := hkept
      exact ⟨json, hf⟩
    have hload : s.readAs snapshotPath none (parseSnapshot formats) = .ok old := hold.loadSnapshot
    have hiff := torn_readAs_iff hload hfile (parseSnapshot_eq hjson.toWrites) hjson.ne_nil
      hjson.head (fun d word hd => ?_) h
    · -- a new snapshot is a snapshot
      rw [loadSnapshot_eq_readAs, hiff]
      simp
    · -- a part of the text is no snapshot
      have hne : d ≠ json := by
        rintro rfl
        have := hd.length_le
        simp at this
      obtain ⟨e, he⟩ := hjson.part d ((List.prefix_append d _).trans hd) hne
      rw [parseSnapshot, he]
      exact ⟨_, rfl⟩

/-- A part of a text is not read, if it is none of the other texts. -/
theorem serdeOf_part {α : Type} [DecidableEq α] {rows : List (α × List Char)} {json : List Char}
    (h : ∀ row ∈ rows, row.2 <+: json → row.2 = json) (part : List Char) (hpart : part <+: json)
    (hne : part ≠ json) : ∃ e, (serdeOf rows).fromStr part = .error e := by
  have hnone : rows.find? (fun row => row.2 = part) = none := by
    rw [List.find?_eq_none]
    intro row hrow heq
    obtain rfl : row.2 = part := by simpa using heq
    exact hne (h row hrow hpart)
  exact ⟨"", by simp only [serdeOf, hnone]⟩

theorem exampleSnapshot_writes :
    ∃ json, exampleFormats.snapshot.WritesWhole exampleSnapshot json :=
  ⟨_, Serde.writes_of_all rfl rfl (by decide), serdeOf_part (by simp)⟩

theorem torn_oldOrNew_iff_torn :
    let s := ((new : FileStorage exampleFormats).saveTerm 1).2
    OldOrNew (s.write termPath (Text.encode "27 ".toList)).loadTerm 1 27 ∧
      OldOrNew (s.write snapshotPath []).loadSnapshot none (some exampleSnapshot) := by
  intro s
  have hterm : TermFile (s.files termPath) 1 := Or.inr ⟨write_files_self, by decide⟩
  have hsnap : SnapshotFile exampleFormats (s.files snapshotPath) none := Or.inl ⟨rfl, rfl⟩
  have hsaved : (s.saveTerm 27).2.files termPath =
      some (Text.encode (checksumLine (Nat.toDigits 10 27))) := write_files_self
  have htorn : TornWrite s (s.saveTerm 27).2 termPath (s.write termPath (Text.encode "27 ".toList)) :=
    Or.inr ⟨_, by rw [hsaved]; decide +kernel, rfl⟩
  obtain ⟨json, hjson⟩ := exampleSnapshot_writes
  constructor
  · refine (torn_oldOrNew_iff.1 1 27 hterm (by decide) htorn).2 fun hempty => ?_
    rw [write_files_self] at hempty
    exact absurd hempty (by decide)
  · exact (torn_oldOrNew_iff.2.2 none exampleSnapshot json hsnap hjson
      (Or.inr ⟨[], List.nil_prefix, rfl⟩)).2 fun _ => rfl

/-- The term is `0` again, or the vote is free again. -/
theorem torn_third_value :
    let s := (((new : FileStorage exampleFormats).saveTerm 1).2.saveVotedFor (some 1)).2
    TornWrite s (s.saveTerm 2).2 termPath (s.write termPath []) ∧
      (s.write termPath []).loadTerm = .ok 0 ∧ ¬ OldOrNew (s.write termPath []).loadTerm 1 2 ∧
      TornWrite s (s.saveVotedFor (some 2)).2 votedForPath (s.write votedForPath []) ∧
      (s.write votedForPath []).loadVotedFor = .ok none ∧
      ¬ OldOrNew (s.write votedForPath []).loadVotedFor (some 1) (some 2) := by
  have hterm (s : FileStorage exampleFormats) : (s.write termPath []).loadTerm = .ok 0 := by
    rw [loadTerm, readWithChecksum, write_files_self]
    rfl
  have hvote (s : FileStorage exampleFormats) :
      (s.write votedForPath []).loadVotedFor = .ok none := by
    rw [loadVotedFor, readWithChecksum, write_files_self]
    rfl
  refine ⟨Or.inr ⟨[], List.nil_prefix, rfl⟩, hterm _, ?_, Or.inr ⟨[], List.nil_prefix, rfl⟩,
    hvote _, ?_⟩
  · rw [hterm, oldOrNew_ok_iff]
    decide
  · rw [hvote, oldOrNew_ok_iff]
    decide

end FileStorage

end RaftVibe
