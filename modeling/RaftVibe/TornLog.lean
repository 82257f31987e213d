/-
**Torn writes of the log.**

`append_log_entries` writes at the end of the log, so a crash can leave any part of the new lines.
Those that are complete are read back.  One that is not has no end of line, so it is the last one; it
is read as the right entry or not at all.  What precedes its last blank is the whole text of the
entry, or a part of it, which `serde_json` does not read, whatever the words of the command look like.

The log is rewritten through a temporary file, which is never read.

Main definitions:

* `RaftVibe.FileStorage.TornAppend`, `RaftVibe.FileStorage.TornRewrite` — what a crash leaves.

Main results:

* `RaftVibe.FileStorage.exists_torn` — where an append is torn;
* `RaftVibe.FileStorage.loadLines_torn` — **a torn line is its entry or an error**;
* `RaftVibe.FileStorage.torn_loadLog` — what the log is after a crash.
-/

import RaftVibe.TornWrites

set_option relaxedAutoImplicit false
set_option autoImplicit false

namespace RaftVibe

namespace FileStorage

variable {formats : Formats} {s s' : FileStorage formats} {log entries : List LogEntry}

/-- What a crash inside `append_log_entries` leaves, on the way to `saved`: the file is as it was, or
some of what is appended is written. -/
def TornAppend (s saved s' : FileStorage formats) : Prop :=
  s' = s ∨ ∃ written, (s.files logPath).getD [] ++ written <+: (saved.files logPath).getD [] ∧
    s' = s.write logPath ((s.files logPath).getD [] ++ written)

/-- What a crash inside `truncate_log` or `compact_log` leaves, on the way to `saved`: some of the new
content is in the temporary file, or the file is renamed. -/
def TornRewrite (s saved s' : FileStorage formats) : Prop :=
  s' = s ∨ s' = saved ∨ ∃ written, written <+: (saved.files logPath).getD [] ∧
    s' = s.write (logPath ++ ".tmp") written

/-- **Where an append is torn**: between two lines, or inside the line of an entry. -/
theorem exists_torn {content : List Char} {written : List UInt8}
    (hentries : ∀ e ∈ entries, ∃ json, formats.entry.WritesWhole e json)
    (hcontent : logContent formats entries = .ok content)
    (hwritten : written <+: Text.encode content) :
    ∃ n whole, logContent formats (entries.take n) = .ok whole ∧
      (written = Text.encode whole ∨ ∃ e json torn, entries[n]? = some e ∧
        formats.entry.WritesWhole e json ∧ torn ≠ [] ∧
        torn <+: Text.encode (json ++ ' ' :: checksumText json) ∧
        written = Text.encode whole ++ torn) := by
  induction entries generalizing content written with
  | nil =>
      obtain rfl : [] = content := Except.ok.inj hcontent
      exact ⟨0, [], rfl, Or.inl (List.prefix_nil.1 hwritten)⟩
  | cons e entries ih =>
      obtain ⟨⟨json, hjson⟩, hes⟩ := List.forall_mem_cons.1 hentries
      obtain ⟨line, content, hline, hrest, rfl⟩ := logContent_cons hcontent
      obtain rfl : checksumLine json = line :=
        Except.ok.inj ((entryLine_eq hjson.toWrites).symm.trans hline)
      rw [Text.encode_append] at hwritten
      rcases List.prefix_or_prefix_of_prefix (List.prefix_append _ _) hwritten with
        ⟨written', rfl⟩ | hpart
      · -- the first line is complete
        rw [List.prefix_append_right_inj] at hwritten
        obtain ⟨n, whole, hwhole, h⟩ := ih hes hrest hwritten
        have htake : logContent formats ((e :: entries).take (n + 1)) =
            .ok (checksumLine json ++ whole) := by
          rw [List.take_succ_cons, logContent, entryLine_eq hjson.toWrites]
          simp only
          rw [hwhole]
          rfl
        refine ⟨n + 1, _, htake, ?_⟩
        rcases h with rfl | ⟨e', json', torn, he', hjson', hne, htorn, rfl⟩
        · exact Or.inl (Text.encode_append ..).symm
        · refine Or.inr ⟨e', json', torn, he', hjson', hne, htorn, ?_⟩
          rw [Text.encode_append, List.append_assoc]
      · rw [checksumLine_eq, Text.encode_append, Text.encode_newline, List.prefix_concat_iff] at hpart
        rcases hpart with rfl | hpart
        · -- it is just complete
          refine ⟨1, checksumLine json, ?_, Or.inl ?_⟩
          · rw [List.take_succ_cons, List.take_zero, logContent, entryLine_eq hjson.toWrites,
              logContent]
            simp [Except.map]
          · rw [checksumLine_eq, ← Text.encode_newline, ← Text.encode_append]
        · refine ⟨0, [], rfl, ?_⟩
          by_cases hne : written = []
          · exact Or.inl hne
          · exact Or.inr ⟨e, json, written, rfl, hjson, hne, hpart, rfl⟩

/-- **A torn line is its entry or an error.**  If it is read, then only its checksum can be torn. -/
theorem loadLines_torn {e : LogEntry} {json : List Char} {torn : List UInt8} {lineNum : ℕ}
    {es : List LogEntry} (hjson : formats.entry.WritesWhole e json) (hne : torn ≠ [])
    (htorn : torn <+: Text.encode (json ++ ' ' :: checksumText json))
    (h : loadLines formats lineNum [torn] = .ok es) :
    es = [e] ∧ ∃ word, torn = Text.encode (json ++ ' ' :: word) := by
  cases hdecode : Text.decode torn with
  | none =>
      rw [loadLines, hdecode] at h
      cases h
  | some t =>
      have ht : t <+: json ++ ' ' :: checksumText json := Text.prefix_of_decode htorn hdecode
      have htne : t ≠ [] := by
        rintro rfl
        exact hne (Text.encode_decode hdecode).symm
      have hhead : ∀ c ∈ t.head?, Text.isWhitespace c = false := by
        intro c hc
        refine hjson.head c ?_
        obtain ⟨rest, hrest⟩ := ht
        have hline := congrArg List.head? hrest
        rw [List.head?_append_of_ne_nil _ htne, List.head?_append_of_ne_nil _ hjson.ne_nil] at hline
        exact hline ▸ hc
      -- it has no end of line to take away
      have hchomp : Text.chomp t = t := Text.chomp_of_notMem fun hmem =>
        newline_notMem_record hjson.toWrites (ht.subset hmem)
      have htrim : Text.trim (Text.chomp t) ≠ [] := by
        rw [hchomp]
        exact Text.trim_ne_nil htne hhead
      obtain ⟨d, e', es', hverify, hentry, hrest, rfl⟩ := exists_of_loadLines hdecode htrim h
      obtain rfl : [] = es' := Except.ok.inj hrest
      rw [hchomp] at hverify
      obtain ⟨word, rfl, -⟩ := eq_of_verifyChecksum hverify
      have hd : d = json := by
        rcases verifyChecksum_torn ht hverify with hd | ⟨word', hword'⟩
        · exact hd
        · -- `serde_json` does not read a part of the text
          have hpart : d ≠ json := by
            rintro rfl
            have := hword'.length_le
            simp at this
          obtain ⟨err, herr⟩ := hjson.part d ((List.prefix_append d _).trans hword') hpart
          rw [herr] at hentry
          cases hentry
      subst hd
      rw [hjson.fromStr] at hentry
      obtain rfl := Except.ok.inj hentry
      exact ⟨rfl, word, (Text.encode_decode hdecode).symm⟩

/-- A log that ends in a part of the line of an entry, without its end. -/
structure TornLine (formats : Formats) (file : Option (List UInt8)) (log : List LogEntry)
    (e : LogEntry) (json : List Char) (torn : List UInt8) : Prop where
  entries : ∀ e ∈ log, ∃ json, formats.entry.Writes e json
  content : ∃ content, logContent formats log = .ok content ∧
    file.getD [] = Text.encode content ++ torn
  whole : formats.entry.WritesWhole e json
  ne_nil : torn ≠ []
  part : torn <+: Text.encode (json ++ ' ' :: checksumText json)

/-- **What a crash in an append leaves**: a log with some of the new entries, and maybe a torn line. -/
theorem TornAppend.exists_log (hlog : LogFile formats (s.files logPath) log)
    (hentries : ∀ e ∈ entries, ∃ json, formats.entry.WritesWhole e json)
    (h : TornAppend s (s.appendLogEntries entries).2 s') :
    ∃ n, LogFile formats (s'.files logPath) (log ++ entries.take n) ∨
      ∃ e json torn, entries[n]? = some e ∧
        TornLine formats (s'.files logPath) (log ++ entries.take n) e json torn := by
  rcases h with rfl | ⟨written, hwritten, rfl⟩
  · refine ⟨0, Or.inl ?_⟩
    rw [List.take_zero, List.append_nil]
    exact hlog
  · have hwrites : ∀ e ∈ entries, ∃ json, formats.entry.Writes e json :=
      fun e he => (hentries e he).imp fun _ hjson => hjson.toWrites
    obtain ⟨hold, content, hcontent, hfile⟩ := hlog
    obtain ⟨content', hcontent'⟩ := exists_logContent hwrites
    have hsaved : (s.appendLogEntries entries).2.files logPath =
        some ((s.files logPath).getD [] ++ Text.encode content') := by
      rw [appendLogEntries, appendLines_eq hcontent']
      exact write_files_self
    rw [hsaved, Option.getD_some, List.prefix_append_right_inj] at hwritten
    obtain ⟨n, whole, hwhole, h⟩ := exists_torn hentries hcontent' hwritten
    have hnew : ∀ e ∈ log ++ entries.take n, ∃ json, formats.entry.Writes e json :=
      List.forall_mem_append.2 ⟨hold, fun e he => hwrites e (List.mem_of_mem_take he)⟩
    have hall := logContent_append hcontent hwhole
    refine ⟨n, ?_⟩
    rw [write_files_self, hfile]
    rcases h with rfl | ⟨e, json, torn, he, hjson, hne, htorn, rfl⟩
    · refine Or.inl ⟨hnew, _, hall, ?_⟩
      rw [Option.getD_some, Text.encode_append]
    · refine Or.inr ⟨e, json, torn, he, hnew, ⟨_, hall, ?_⟩, hjson, hne, htorn⟩
      rw [Option.getD_some, Text.encode_append, List.append_assoc]

/-- A log that is read in spite of a torn line has its entry. -/
theorem TornLine.of_loadLog {e : LogEntry} {json : List Char} {torn : List UInt8}
    {R : List LogEntry} (h : TornLine formats (s.files logPath) log e json torn)
    (hload : s.loadLog = .ok R) :
    R = log ++ [e] ∧ ∃ word, torn = Text.encode (json ++ ' ' :: word) := by
  obtain ⟨content, hcontent, hfile⟩ := h.content
  have hnewline : Text.newline ∉ torn := fun hmem =>
    Text.newline_notMem_encode (newline_notMem_record h.whole.toWrites) (h.part.subset hmem)
  rw [loadLog_eq, hfile, loadLines_logContent h.entries hcontent,
    Text.lines_of_notMem h.ne_nil hnewline] at hload
  cases hes : loadLines formats (1 + log.length) [torn] with
  | error err =>
      rw [hes] at hload
      cases hload
  | ok es =>
      obtain ⟨rfl, hword⟩ := loadLines_torn h.whole h.ne_nil h.part hes
      rw [hes] at hload
      exact ⟨(Except.ok.inj hload).symm, hword⟩

/-- A rewrite that is torn has happened, or it has not. -/
theorem TornRewrite.loadLog {keep : LogEntry → Bool} {R : List LogEntry}
    (h : TornRewrite s (s.rewriteLog keep).2 s') (hlog : LogFile formats (s.files logPath) log)
    (hload : s'.loadLog = .ok R) : R = log ∨ R = log.filter keep := by
  rcases h with rfl | rfl | ⟨written, -, rfl⟩
  · exact Or.inl (Except.ok.inj (hload.symm.trans hlog.loadLog))
  · have hnew := (rewriteLog_of_loadLog hlog.loadLog hlog.1 keep).2
    exact Or.inr (Except.ok.inj (hload.symm.trans hnew.loadLog))
  · -- the temporary file is not read
    have hsame : (s.write (logPath ++ ".tmp") written).loadLog = s.loadLog := by
      rw [loadLog_eq, loadLog_eq, write_files_of_ne (by decide)]
    rw [hsame] at hload
    exact Or.inl (Except.ok.inj (hload.symm.trans hlog.loadLog))

/-- **What the log is after a crash**, if it is read at all. -/
theorem torn_loadLog (hlog : LogFile formats (s.files logPath) log) :
    (∀ entries, (∀ e ∈ entries, ∃ json, formats.entry.WritesWhole e json) →
      ∀ s', TornAppend s (s.appendLogEntries entries).2 s' →
        ∀ R, s'.loadLog = .ok R → ∃ n, R = log ++ entries.take n) ∧
    (∀ fromIndex s', TornRewrite s (s.truncateLog fromIndex).2 s' →
      ∀ R, s'.loadLog = .ok R → R = log ∨ R = log.filter fun e => e.index < fromIndex) ∧
    (∀ beforeIndex s', TornRewrite s (s.compactLog beforeIndex).2 s' →
      ∀ R, s'.loadLog = .ok R → R = log ∨ R = log.filter fun e => beforeIndex ≤ e.index) := by
  refine ⟨fun entries hentries s' h R hload => ?_, fun fromIndex s' h R hload => ?_,
    fun beforeIndex s' h R hload => ?_⟩
  · obtain ⟨n, hlog' | ⟨e, json, torn, he, htorn⟩⟩ := h.exists_log hlog hentries
    · exact ⟨n, Except.ok.inj (hload.symm.trans hlog'.loadLog)⟩
    · obtain ⟨rfl, -⟩ := htorn.of_loadLog hload
      refine ⟨n + 1, ?_⟩
      rw [List.take_add_one, he, List.append_assoc]
      rfl
  · exact h.loadLog hlog hload
  · exact h.loadLog hlog hload

theorem exampleFormats_writesWhole :
    ∀ e ∈ [exampleEntry 1, exampleEntry 2, exampleEntry 3],
      ∃ json, exampleFormats.entry.WritesWhole e json := by
  simp only [List.forall_mem_cons]
  exact ⟨⟨_, Serde.writes_of_all rfl rfl (by decide), serdeOf_part (by decide)⟩,
    ⟨_, Serde.writes_of_all rfl rfl (by decide), serdeOf_part (by decide)⟩,
    ⟨_, Serde.writes_of_all rfl rfl (by decide), serdeOf_part (by decide)⟩, by simp⟩

theorem torn_loadLog_example :
    let s : FileStorage exampleFormats := new
    let entries := [exampleEntry 1, exampleEntry 2, exampleEntry 3]
    let content := ((s.appendLogEntries entries).2.files logPath).getD []
    ∀ k R, (s.write logPath (content.take k)).loadLog = .ok R → ∃ n, R = [] ++ entries.take n := by
  intro s entries content k R hload
  have hlog : LogFile exampleFormats (s.files logPath) [] := ⟨by simp, [], rfl, rfl⟩
  have htorn : TornAppend s (s.appendLogEntries entries).2 (s.write logPath (content.take k)) :=
    Or.inr ⟨content.take k, List.take_prefix k content, rfl⟩
  exact (torn_loadLog hlog).1 entries exampleFormats_writesWhole _ htorn R hload

end FileStorage

end RaftVibe
