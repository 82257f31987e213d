/-
**Lines that are glued together.**

A line of the log whose last byte was never written is read like any other: its checksum is there.
`load_log` does not ask how the file ends, and the next append continues that line.  What it writes
is then behind the blank and the checksum of the line before, so that the two lines are one, which
is neither the one nor the other, and the log is not read any more.

A rewrite mends the file, if it comes before the next append.

Main definitions:

* `RaftVibe.Serde.WritesAlone` — `serde_json` does not read what has more than one value;
* `RaftVibe.FileStorage.EndsAtLine` — the last line has its end;
* `RaftVibe.FileStorage.RewritesFirst` — the log is rewritten before an entry is appended;
* `RaftVibe.FileStorage.Glued` — a log with a line that continues another one.

Main results:

* `RaftVibe.FileStorage.LogFile.applyAll` — what saves make of a log, file by file;
* `RaftVibe.FileStorage.Glued.applyAll_loadLog` — **glued lines stay**, and the log is not read;
* `RaftVibe.FileStorage.reload_iff` — when a log that is read after a crash can be continued.
-/

import RaftVibe.TornLog

set_option relaxedAutoImplicit false
set_option autoImplicit false

namespace RaftVibe

/-- Moreover, nothing but whitespace may follow what `serde_json` reads. -/
structure Serde.WritesAlone {α : Type} (serde : Serde α) (a : α) (json : List Char) : Prop
    extends serde.WritesWhole a json where
  trailing : ∀ rest, (∃ c ∈ rest, Text.isWhitespace c = false) →
    ∃ e, serde.fromStr (json ++ rest) = .error e

namespace FileStorage

variable {formats : Formats} {s s' : FileStorage formats} {c : StorageContents}
  {log entries R : List LogEntry} {call : StorageCall} {calls : List StorageCall}

/-- The last line of a file has its end. -/
def EndsAtLine (file : Option (List UInt8)) : Prop :=
  ∀ b ∈ (file.getD []).getLast?, b = Text.newline

/-- The log is rewritten before an entry is appended. -/
def RewritesFirst : List StorageCall → Prop
  | [] => True
  | .appendLogEntries entries :: calls => entries = [] ∧ RewritesFirst calls
  | .truncateLog _ :: _ => True
  | .compactLog _ :: _ => True
  | .saveTerm _ :: calls => RewritesFirst calls
  | .saveVotedFor _ :: calls => RewritesFirst calls
  | .saveSnapshot _ :: calls => RewritesFirst calls

/-! ### Saves and the file of the log -/

theorem saveSnapshot_log (snapshot : Snapshot) :
    (s.saveSnapshot snapshot).2.files logPath = s.files logPath := by
  rw [saveSnapshot]
  cases formats.snapshot.toString snapshot with
  | error e => rfl
  | ok json => exact write_files_of_ne (by decide)

/-- Only the bytes of the log count. -/
theorem loadLog_congr (h : (s'.files logPath).getD [] = (s.files logPath).getD []) :
    s'.loadLog = s.loadLog := by
  rw [loadLog_eq, loadLog_eq, h]

/-- A save that leaves the log alone. -/
structure LeavesLog (formats : Formats) (call : StorageCall) : Prop where
  file : ∀ s : FileStorage formats,
    ((call.apply s).2.files logPath).getD [] = (s.files logPath).getD []
  contents : ∀ c : StorageContents, (call.apply c).2.log = c.log
  first : ∀ calls, RewritesFirst (call :: calls) ↔ RewritesFirst calls

/-- A save that rewrites the log. -/
structure RewritesLog (formats : Formats) (call : StorageCall) (keep : LogEntry → Bool) : Prop where
  file : ∀ s : FileStorage formats, call.apply s = s.rewriteLog keep
  contents : ∀ c : StorageContents, (call.apply c).2.log = c.log.filter keep
  first : ∀ calls, RewritesFirst (call :: calls)

/-- **What a save does to the log**: nothing, or it appends entries, or it rewrites the log. -/
theorem log_cases (formats : Formats) (call : StorageCall) :
    LeavesLog formats call ∨ (∃ e es, call = .appendLogEntries (e :: es)) ∨
      ∃ keep, RewritesLog formats call keep := by
  cases call with
  | saveTerm term =>
      exact Or.inl ⟨fun s => congrArg (·.getD []) (write_files_of_ne (by decide)), fun _ => rfl,
        fun _ => Iff.rfl⟩
  | saveVotedFor votedFor =>
      exact Or.inl ⟨fun s => congrArg (·.getD []) (write_files_of_ne (by decide)), fun _ => rfl,
        fun _ => Iff.rfl⟩
  | appendLogEntries entries =>
      cases entries with
      | nil =>
          refine Or.inl ⟨fun s => ?_, fun c => List.append_nil _, fun _ => and_iff_right rfl⟩
          have hfile : (s.appendLogEntries []).2.files logPath = some ((s.files logPath).getD []) :=
            write_files_self
          exact congrArg (·.getD []) hfile
      | cons e es => exact Or.inr (Or.inl ⟨e, es, rfl⟩)
  | truncateLog fromIndex =>
      exact Or.inr (Or.inr ⟨_, fun _ => rfl, fun _ => rfl, fun _ => trivial⟩)
  | compactLog beforeIndex =>
      refine Or.inr (Or.inr ⟨_, fun _ => rfl, fun c => ?_, fun _ => trivial⟩)
      rfl
  | saveSnapshot snapshot =>
      exact Or.inl ⟨fun s => congrArg (·.getD []) (saveSnapshot_log snapshot), fun _ => rfl,
        fun _ => Iff.rfl⟩

theorem LogFile.apply (h : LogFile formats (s.files logPath) c.log)
    (hcall : call.Admissible formats) :
    LogFile formats ((call.apply s).2.files logPath) (call.apply c).2.log := by
  rcases log_cases formats call with hcall' | ⟨e, es, rfl⟩ | ⟨keep, hcall'⟩
  · obtain ⟨hlog, content, hcontent, hfile⟩ := h
    rw [hcall'.contents]
    exact ⟨hlog, content, hcontent, (hcall'.file s).trans hfile⟩
  · exact (h.appendLogEntries hcall).2
  · rw [hcall'.contents, hcall'.file]
    exact (rewriteLog_of_loadLog h.loadLog h.1 keep).2

/-- **What saves make of a log.** -/
theorem LogFile.applyAll (h : LogFile formats (s.files logPath) c.log)
    (hcalls : ∀ call ∈ calls, call.Admissible formats) :
    LogFile formats ((RaftVibe.applyAll s calls).files logPath) (RaftVibe.applyAll c calls).log := by
  induction calls generalizing s c with
  | nil => exact h
  | cons call calls ih =>
      obtain ⟨hcall, hcalls⟩ := List.forall_mem_cons.1 hcalls
      exact ih (h.apply hcall) hcalls

/-- A log that is read can be rewritten, whatever its file is. -/
theorem applyAll_loadLog_of_rewritesFirst (hload : s.loadLog = .ok c.log)
    (hlog : ∀ e ∈ c.log, ∃ json, formats.entry.Writes e json) (hfirst : RewritesFirst calls)
    (hcalls : ∀ call ∈ calls, call.Admissible formats) :
    (RaftVibe.applyAll s calls).loadLog = .ok (RaftVibe.applyAll c calls).log := by
  induction calls generalizing s c with
  | nil => exact hload
  | cons call calls ih =>
      obtain ⟨-, hcalls'⟩ := List.forall_mem_cons.1 hcalls
      rw [applyAll_cons, applyAll_cons]
      rcases log_cases formats call with hcall | ⟨e, es, rfl⟩ | ⟨keep, hcall⟩
      · rw [← hcall.contents c] at hload hlog
        exact ih ((loadLog_congr (hcall.file s)).trans hload) hlog ((hcall.first calls).1 hfirst)
          hcalls'
      · exact absurd hfirst.1 (by simp)
      · refine (LogFile.applyAll ?_ hcalls').loadLog
        rw [hcall.contents, hcall.file]
        exact (rewriteLog_of_loadLog hload hlog keep).2

/-! ### Glued lines -/

/-- A log with a line that continues another one. -/
structure Glued (formats : Formats) (file : Option (List UInt8)) (log : List LogEntry)
    (json word json' : List Char) (rest : List UInt8) : Prop where
  entries : ∀ e ∈ log, ∃ json, formats.entry.Writes e json
  whole : ∃ e, formats.entry.WritesAlone e json
  next : ∃ e, formats.entry.Writes e json'
  oneLine : '\n' ∉ word
  content : ∃ content, logContent formats log = .ok content ∧
    file.getD [] = Text.encode content ++
      (Text.encode (json ++ ' ' :: word ++ checksumLine json') ++ rest)

/-- The line is nothing that `serde_json` reads. -/
theorem Glued.loadLog {json word json' : List Char} {rest : List UInt8}
    (h : Glued formats (s.files logPath) log json word json' rest) : s.loadLog ≠ .ok R := by
  intro hload
  obtain ⟨content, hcontent, hfile⟩ := h.content
  obtain ⟨e, hjson⟩ := h.whole
  obtain ⟨e', hjson'⟩ := h.next
  have hline : json ++ ' ' :: word ++ checksumLine json' =
      json ++ ' ' :: word ++ json' ++ ' ' :: checksumText json' ++ ['\n'] := by
    simp [checksumLine_eq]
  have hnewline : '\n' ∉ json ++ ' ' :: word ++ json' ++ ' ' :: checksumText json' := by
    have hleft := newline_notMem_record hjson.toWrites
    have hright := newline_notMem_record hjson'
    have hword := h.oneLine
    simp only [List.mem_append, List.mem_cons, not_or] at hleft hright ⊢
    exact ⟨⟨⟨hleft.1, hleft.2.1, hword⟩, hright.1⟩, hright.2⟩
  rw [loadLog_eq, hfile, loadLines_logContent h.entries hcontent, hline,
    Text.lines_encode hnewline] at hload
  cases hes : loadLines formats (1 + log.length)
      (Text.encode (json ++ ' ' :: word ++ json' ++ ' ' :: checksumText json' ++ ['\n']) ::
        Text.lines rest) with
  | error err =>
      rw [hes] at hload
      cases hload
  | ok es =>
      have htrim : Text.trim (Text.chomp (json ++ ' ' :: word ++ json' ++ ' ' :: checksumText json' ++
          ['\n'])) ≠ [] := by
        rw [chomp_record]
        refine Text.trim_ne_nil (by simp) fun c hc => hjson.head c ?_
        rw [List.append_assoc, List.append_assoc, List.head?_append_of_ne_nil _ hjson.ne_nil] at hc
        exact hc
      obtain ⟨d, e'', es', hverify, hentry, -, -⟩ :=
        exists_of_loadLines (Text.decode_encode _) htrim hes
      rw [chomp_record] at hverify
      obtain ⟨word', hsplit, hword'⟩ := eq_of_verifyChecksum hverify
      -- the last blank is the one before the new checksum
      have hd := congrArg (Text.rsplitOnce ' ') hsplit
      rw [Text.rsplitOnce_append (blank_notMem_checksumText json'), Text.rsplitOnce_append hword'] at hd
      obtain rfl := (Prod.mk.inj (Option.some.inj hd)).1
      have hvalue : ∃ c ∈ ' ' :: word ++ json', Text.isWhitespace c = false := by
        obtain ⟨c, hc⟩ := Option.isSome_iff_exists.1 (List.isSome_head?.2 hjson'.ne_nil)
        exact ⟨c, List.mem_append_right _ (List.mem_of_mem_head? hc), hjson'.head c hc⟩
      obtain ⟨err, herr⟩ := hjson.trailing _ hvalue
      rw [List.append_assoc, herr] at hentry
      cases hentry

/-- **Glued lines stay**, as long as the saves succeed. -/
theorem Glued.applyAll_loadLog {json word json' : List Char} {rest : List UInt8}
    (h : Glued formats (s.files logPath) log json word json' rest)
    (hcalls : ∀ call ∈ calls, call.Admissible formats) (hok : AllOk s calls) :
    (RaftVibe.applyAll s calls).loadLog ≠ .ok R := by
  induction calls generalizing s rest with
  | nil => exact h.loadLog
  | cons call calls ih =>
      obtain ⟨hcall, hcalls'⟩ := List.forall_mem_cons.1 hcalls
      obtain ⟨hok, hoks⟩ := hok
      obtain ⟨content, hcontent, hfile⟩ := h.content
      rcases log_cases formats call with hleaves | ⟨e, es, rfl⟩ | ⟨keep, hrewrites⟩
      · have h' : Glued formats ((call.apply s).2.files logPath) log json word json' rest :=
          { h with content := ⟨content, hcontent, (hleaves.file s).trans hfile⟩ }
        exact ih h' hcalls' hoks
      · obtain ⟨new, hnew⟩ := exists_logContent hcall
        have hfile' : ((s.appendLogEntries (e :: es)).2.files logPath).getD [] =
            (s.files logPath).getD [] ++ Text.encode new := by
          rw [appendLogEntries, appendLines_eq hnew]
          exact congrArg (·.getD []) write_files_self
        have h' : Glued formats ((s.appendLogEntries (e :: es)).2.files logPath) log json word json'
            (rest ++ Text.encode new) :=
          { h with
            content := ⟨content, hcontent, by rw [hfile', hfile]; simp only [List.append_assoc]⟩ }
        exact ih h' hcalls' hoks
      · -- a rewrite would have to read the log
        rw [hrewrites.file, rewriteLog] at hok
        cases hload : s.loadLog with
        | error err =>
            rw [hload] at hok
            cases hok
        | ok R => exact absurd hload h.loadLog

/-- An entry that is appended to a torn line is lost with it. -/
theorem TornLine.applyAll_loadLog {e : LogEntry} {json word : List Char} {torn : List UInt8}
    (h : TornLine formats (s.files logPath) log e json torn)
    (hjson : formats.entry.WritesAlone e json) (htorn : torn = Text.encode (json ++ ' ' :: word))
    (hword : '\n' ∉ word) (hcalls : ∀ call ∈ calls, call.Admissible formats) (hok : AllOk s calls)
    (hfirst : ¬ RewritesFirst calls) : (RaftVibe.applyAll s calls).loadLog ≠ .ok R := by
  induction calls generalizing s with
  | nil => exact absurd trivial hfirst
  | cons call calls ih =>
      obtain ⟨hcall, hcalls'⟩ := List.forall_mem_cons.1 hcalls
      obtain ⟨-, hok⟩ := hok
      obtain ⟨content, hcontent, hfile⟩ := h.content
      rcases log_cases formats call with hleaves | ⟨e', es, rfl⟩ | ⟨keep, hrewrites⟩
      · have h' : TornLine formats ((call.apply s).2.files logPath) log e json torn :=
          { h with content := ⟨content, hcontent, (hleaves.file s).trans hfile⟩ }
        exact ih h' hcalls' hok fun hf => hfirst ((hleaves.first calls).2 hf)
      · obtain ⟨new, hnew⟩ := exists_logContent hcall
        obtain ⟨⟨json', hjson'⟩, -⟩ := List.forall_mem_cons.1 hcall
        obtain ⟨line, new, hline, -, rfl⟩ := logContent_cons hnew
        obtain rfl : checksumLine json' = line :=
          Except.ok.inj ((entryLine_eq hjson').symm.trans hline)
        have hfile' : ((s.appendLogEntries (e' :: es)).2.files logPath).getD [] =
            Text.encode content ++
              (Text.encode (json ++ ' ' :: word ++ checksumLine json') ++ Text.encode new) := by
          rw [appendLogEntries, appendLines_eq hnew]
          refine (congrArg (·.getD []) write_files_self).trans ?_
          rw [hfile, htorn]
          simp only [Text.encode_append, List.append_assoc, Option.getD_some]
        have hglued : Glued formats ((s.appendLogEntries (e' :: es)).2.files logPath) log json word
            json' (Text.encode new) :=
          ⟨h.entries, ⟨e, hjson⟩, ⟨e', hjson'⟩, hword, content, hcontent, hfile'⟩
        exact hglued.applyAll_loadLog hcalls' hok
      · exact absurd (hrewrites.first calls) hfirst

/-! ### After a crash -/

theorem LogFile.endsAtLine {file : Option (List UInt8)} (h : LogFile formats file log) :
    EndsAtLine file := by
  obtain ⟨hentries, content, hcontent, hfile⟩ := h
  rw [EndsAtLine, hfile]
  clear hfile
  induction log generalizing content with
  | nil =>
      obtain rfl : [] = content := Except.ok.inj hcontent
      simp [Text.encode]
  | cons e log ih =>
      obtain ⟨⟨json, hjson⟩, hes⟩ := List.forall_mem_cons.1 hentries
      obtain ⟨line, content, hline, hrest, rfl⟩ := logContent_cons hcontent
      obtain rfl : checksumLine json = line := Except.ok.inj ((entryLine_eq hjson).symm.trans hline)
      intro b hb
      rw [Text.encode_append] at hb
      by_cases hne : Text.encode content = []
      · rw [hne, List.append_nil, checksumLine_eq, Text.encode_append, Text.encode_newline,
          List.getLast?_append_of_ne_nil _ (by simp)] at hb
        exact (Option.some.inj hb).symm
      · rw [List.getLast?_append_of_ne_nil _ hne] at hb
        exact ih hes content hrest b hb

theorem TornLine.not_endsAtLine {file : Option (List UInt8)} {e : LogEntry} {json : List Char}
    {torn : List UInt8} (h : TornLine formats file log e json torn) : ¬ EndsAtLine file := by
  intro hends
  obtain ⟨content, -, hfile⟩ := h.content
  have hlast := List.getLast?_eq_some_getLast h.ne_nil
  have hnewline := hends (torn.getLast h.ne_nil)
    (by rw [hfile, List.getLast?_append_of_ne_nil _ h.ne_nil]; exact hlast)
  have hmem : Text.newline ∈ torn := hnewline ▸ List.getLast_mem h.ne_nil
  exact Text.newline_notMem_encode (newline_notMem_record h.whole.toWrites) (h.part.subset hmem)

/-- **When a log that is read after a crash can be continued.** -/
theorem reload_iff (hlog : LogFile formats (s.files logPath) log)
    (hentries : ∀ e ∈ entries, ∃ json, formats.entry.WritesAlone e json)
    (h : TornAppend s (s.appendLogEntries entries).2 s') (hload : s'.loadLog = .ok R)
    (hcalls : ∀ call ∈ calls, call.Admissible formats) (hok : AllOk s' calls) :
    (RaftVibe.applyAll s' calls).loadLog =
        .ok (RaftVibe.applyAll { StorageContents.empty with log := R } calls).log ↔
      EndsAtLine (s'.files logPath) ∨ RewritesFirst calls := by
  have hwhole : ∀ e ∈ entries, ∃ json, formats.entry.WritesWhole e json :=
    fun e he => (hentries e he).imp fun _ hjson => hjson.toWritesWhole
  obtain ⟨n, hlog' | ⟨e, json, torn, he, htorn⟩⟩ := h.exists_log hlog hwhole
  · -- the new lines are complete
    obtain rfl := Except.ok.inj (hload.symm.trans hlog'.loadLog)
    have hc : LogFile formats (s'.files logPath)
        ({ StorageContents.empty with log := log ++ entries.take n } : StorageContents).log := hlog'
    constructor
    · intro _
      exact Or.inl hlog'.endsAtLine
    · intro _
      exact (hc.applyAll hcalls).loadLog
  · obtain ⟨rfl, word, hword⟩ := htorn.of_loadLog hload
    constructor
    · intro heq
      by_contra hnot
      obtain ⟨-, hfirst⟩ := not_or.1 hnot
      obtain ⟨json', hjson'⟩ := hentries e (List.mem_of_getElem? he)
      obtain rfl : json' = json :=
        Except.ok.inj (hjson'.toString.symm.trans htorn.whole.toString)
      have honeLine : '\n' ∉ word := by
        have hpart : json' ++ ' ' :: word <+: json' ++ ' ' :: checksumText json' :=
          Text.prefix_of_decode (hword ▸ htorn.part) (Text.decode_encode _)
        intro hmem
        have hin : '\n' ∈ json' ++ ' ' :: word := by simp [hmem]
        exact newline_notMem_record hjson'.toWrites (hpart.subset hin)
      exact htorn.applyAll_loadLog hjson' hword honeLine hcalls hok hfirst heq
    · rintro (hends | hfirst)
      · exact absurd hends htorn.not_endsAtLine
      · refine applyAll_loadLog_of_rewritesFirst hload (List.forall_mem_append.2 ⟨htorn.entries, ?_⟩)
          hfirst hcalls
        exact List.forall_mem_singleton.2 ⟨json, htorn.whole.toWrites⟩

/-- Nothing that goes on is read, if it is none of the other texts. -/
theorem serdeOf_trailing {α : Type} [DecidableEq α] {rows : List (α × List Char)}
    {json : List Char} (h : ∀ row ∈ rows, json <+: row.2 → row.2 = json) (rest : List Char)
    (hrest : ∃ c ∈ rest, Text.isWhitespace c = false) :
    ∃ e, (serdeOf rows).fromStr (json ++ rest) = .error e := by
  have hnone : rows.find? (fun row => row.2 = json ++ rest) = none := by
    rw [List.find?_eq_none]
    intro row hrow heq
    have heq : row.2 = json ++ rest := by simpa using heq
    have hsame := h row hrow (heq ▸ List.prefix_append json rest)
    obtain ⟨c, hc, -⟩ := hrest
    rw [heq] at hsame
    have hsame : rest = [] := by simpa using hsame
    rw [hsame] at hc
    exact absurd hc List.not_mem_nil
  exact ⟨"", by simp only [serdeOf, hnone]⟩

theorem exampleFormats_writesAlone :
    ∀ e ∈ [exampleEntry 1, exampleEntry 2, exampleEntry 3],
      ∃ json, exampleFormats.entry.WritesAlone e json := by
  simp only [List.forall_mem_cons]
  exact ⟨⟨_, ⟨Serde.writes_of_all rfl rfl (by decide), serdeOf_part (by decide)⟩,
      serdeOf_trailing (by decide)⟩,
    ⟨_, ⟨Serde.writes_of_all rfl rfl (by decide), serdeOf_part (by decide)⟩,
      serdeOf_trailing (by decide)⟩,
    ⟨_, ⟨Serde.writes_of_all rfl rfl (by decide), serdeOf_part (by decide)⟩,
      serdeOf_trailing (by decide)⟩, by simp⟩

/-- The log of the examples: the crash leaves out the end of the first line. -/
def unendedLog : FileStorage exampleFormats :=
  (new : FileStorage exampleFormats).write logPath
    (((new : FileStorage exampleFormats).appendLogEntries [exampleEntry 1]).2.files logPath
      |>.getD []).dropLast

theorem unendedLog_eq : ∃ json, exampleFormats.entry.WritesAlone (exampleEntry 1) json ∧
    unendedLog = new.write logPath (Text.encode (json ++ ' ' :: checksumText json)) := by
  obtain ⟨json, hjson⟩ := exampleFormats_writesAlone (exampleEntry 1) (by simp)
  have hcontent : logContent exampleFormats [exampleEntry 1] = .ok (checksumLine json ++ []) := by
    rw [logContent, entryLine_eq hjson.toWrites]
    rfl
  refine ⟨json, hjson, ?_⟩
  rw [unendedLog, appendLogEntries, appendLines_eq hcontent, List.append_nil]
  simp only [write_files_self, Option.getD_some]
  have hempty : ((new : FileStorage exampleFormats).files logPath).getD [] = [] := rfl
  rw [hempty, List.nil_append, checksumLine_eq, Text.encode_append, Text.encode_newline,
    List.dropLast_concat]

theorem unendedLog_torn :
    TornAppend new (appendLogEntries new [exampleEntry 1]).2 unendedLog :=
  Or.inr ⟨_, List.dropLast_prefix _, rfl⟩

theorem unendedLog_loadLog : unendedLog.loadLog = .ok [exampleEntry 1] := by
  obtain ⟨json, hjson, hlog⟩ := unendedLog_eq
  have hrecord := newline_notMem_record hjson.toWrites
  have hne : Text.encode (json ++ ' ' :: checksumText json) ≠ [] := Text.encode_ne_nil (by simp)
  rw [loadLog_eq, hlog, write_files_self, Option.getD_some,
    Text.lines_of_notMem hne (Text.newline_notMem_encode hrecord),
    loadLines_cons hjson.toWrites (Text.chomp_of_notMem hrecord)]
  rfl

theorem unendedLog_allOk : AllOk unendedLog [.appendLogEntries [exampleEntry 2]] := by
  obtain ⟨json, hjson⟩ := exampleFormats_writesAlone (exampleEntry 2) (by simp)
  obtain ⟨content, hcontent⟩ :=
    exists_logContent (List.forall_mem_singleton.2 ⟨json, hjson.toWrites⟩)
  refine ⟨?_, trivial⟩
  change (unendedLog.appendLogEntries [exampleEntry 2]).1 = .ok ()
  rw [appendLogEntries, appendLines_eq hcontent]

theorem unendedLog_admissible :
    ∀ call ∈ [StorageCall.appendLogEntries [exampleEntry 2]], call.Admissible exampleFormats := by
  rw [List.forall_mem_singleton]
  intro e he
  exact exampleFormats_writes e (by rw [List.mem_singleton.1 he]; simp)

theorem reload_iff_unended :
    (RaftVibe.applyAll unendedLog [.appendLogEntries [exampleEntry 2]]).loadLog =
        .ok [exampleEntry 1, exampleEntry 2] ↔
      EndsAtLine (unendedLog.files logPath) ∨
        RewritesFirst [.appendLogEntries [exampleEntry 2]] := by
  have hlog : LogFile exampleFormats ((new : FileStorage exampleFormats).files logPath) [] :=
    ⟨by simp, [], rfl, rfl⟩
  exact reload_iff hlog (fun e he => exampleFormats_writesAlone e
      (by rw [List.mem_singleton.1 he]; simp))
    unendedLog_torn unendedLog_loadLog unendedLog_admissible unendedLog_allOk

/-- Both entries are lost, though both are in the file. -/
theorem reload_lost :
    TornAppend new (appendLogEntries new [exampleEntry 1]).2 unendedLog ∧
      unendedLog.loadLog = .ok [exampleEntry 1] ∧
      AllOk unendedLog [.appendLogEntries [exampleEntry 2]] ∧
      ∀ R, (RaftVibe.applyAll unendedLog [.appendLogEntries [exampleEntry 2]]).loadLog ≠ .ok R := by
  refine ⟨unendedLog_torn, unendedLog_loadLog, unendedLog_allOk, fun R => ?_⟩
  obtain ⟨json, hjson, hlog⟩ := unendedLog_eq
  have htorn : TornLine exampleFormats (unendedLog.files logPath) [] (exampleEntry 1) json
      (Text.encode (json ++ ' ' :: checksumText json)) := by
    refine ⟨by simp, ⟨[], rfl, ?_⟩, hjson.toWritesWhole, Text.encode_ne_nil (by simp),
      List.prefix_rfl⟩
    rw [hlog, write_files_self]
    rfl
  exact htorn.applyAll_loadLog hjson rfl (fun hmem =>
    newline_notMem_record hjson.toWrites (by simp [hmem])) unendedLog_admissible unendedLog_allOk
    (by simp [RewritesFirst])

end FileStorage

end RaftVibe
