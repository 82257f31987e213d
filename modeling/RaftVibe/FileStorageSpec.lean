/-
**Files are a storage.**

After any sequence of saves the files hold what the trait documents.  What is written is read back:
the checksum has neither blanks nor line ends, so the last blank of a line is the one before it,
whatever the data.

Of `serde_json` this needs that it reads what it writes, and that what it writes is one line, without
whitespace at its ends.

Main definitions:

* `RaftVibe.Serde.Writes` — what `serde_json` writes for a value;
* `RaftVibe.FileStorage.Represents` — **the files of given contents**.

Main results:

* `RaftVibe.FileStorage.Represents.holds` — the files are read back;
* `RaftVibe.FileStorage.Represents.apply` — every save succeeds, and does what is documented;
* `RaftVibe.FileStorage.applyAll_holds` — **so does every sequence of saves**.
-/

import RaftVibe.FileStorage
import RaftVibe.StorageCalls

set_option relaxedAutoImplicit false
set_option autoImplicit false

namespace RaftVibe

/-- `serde_json` writes `json` for a value: one line, not empty and without control characters, that
neither begins nor ends with whitespace.  It is read back. -/
structure Serde.Writes {α : Type} (serde : Serde α) (a : α) (json : List Char) : Prop where
  toString : serde.toString a = .ok json
  fromStr : serde.fromStr json = .ok a
  ne_nil : json ≠ []
  oneLine : ∀ c ∈ json, 0x20 ≤ c.toNat
  head : ∀ c ∈ json.head?, Text.isWhitespace c = false
  last : ∀ c ∈ json.getLast?, Text.isWhitespace c = false

/-- What is asked of the text can be computed. -/
theorem Serde.writes_of_all {α : Type} {serde : Serde α} {a : α} {json : List Char}
    (htoString : serde.toString a = .ok json) (hfromStr : serde.fromStr json = .ok a)
    (hall : (!json.isEmpty && json.all (fun c => 0x20 ≤ c.toNat) &&
      json.head?.all (fun c => !Text.isWhitespace c) &&
      json.getLast?.all fun c => !Text.isWhitespace c) = true) : serde.Writes a json := by
  simp only [Bool.and_eq_true, Bool.not_eq_true', List.isEmpty_eq_false_iff, List.all_eq_true,
    Option.all_eq_true, decide_eq_true_eq] at hall
  obtain ⟨⟨⟨hne, hline⟩, hhead⟩, hlast⟩ := hall
  exact ⟨htoString, hfromStr, hne, hline, hhead, hlast⟩

/-- A save whose numbers fit in 64 bits, and whose values `serde_json` writes. -/
def StorageCall.Admissible (formats : Formats) : StorageCall → Prop
  | saveTerm term => term < 2 ^ 64
  | saveVotedFor votedFor => ∀ id ∈ votedFor, id < 2 ^ 64
  | appendLogEntries entries => ∀ e ∈ entries, ∃ json, formats.entry.Writes e json
  | truncateLog _ => True
  | compactLog _ => True
  | saveSnapshot snapshot => ∃ json, formats.snapshot.Writes snapshot json

/-! ### Records -/

/-- The checksum of a record, as text. -/
def checksumText (data : List Char) : List Char :=
  Text.paddedHex 8 (crc32 (Text.encode data)).toNat

theorem checksumLine_eq (data : List Char) :
    checksumLine data = data ++ ' ' :: checksumText data ++ ['\n'] := rfl

theorem isWhitespace_checksumText {data : List Char} {c : Char} (h : c ∈ checksumText data) :
    Text.isWhitespace c = false := by
  obtain ⟨d, hd, rfl⟩ := Text.mem_paddedHex h
  exact Text.isWhitespace_digitChar hd

theorem blank_notMem_checksumText (data : List Char) : ' ' ∉ checksumText data := by
  intro hmem
  exact absurd (isWhitespace_checksumText hmem) (by decide)

theorem checksumText_ne_nil (data : List Char) : checksumText data ≠ [] := Text.paddedHex_ne_nil _ _

/-- A record is not only whitespace. -/
theorem trim_record_ne_nil (text data : List Char) :
    Text.trim (text ++ ' ' :: checksumText data) ≠ [] := by
  obtain ⟨c, hc⟩ := List.exists_mem_of_ne_nil _ (checksumText_ne_nil data)
  refine Text.trim_ne_nil_of_mem ?_ (isWhitespace_checksumText hc)
  exact List.mem_append_right _ (List.mem_cons_of_mem _ hc)

/-- A text in front of the checksum of another one is verified by comparing the two checksums. -/
theorem verifyChecksum_eq (format place : String) (data text : List Char) :
    verifyChecksum format place (text ++ ' ' :: checksumText data) =
      if (crc32 (Text.encode data)).toNat ≠ (crc32 (Text.encode text)).toNat then
        .error (.corruption ("checksum mismatch " ++ place ++ ": stored " ++
          String.ofList (checksumText data) ++ ", computed " ++ String.ofList (checksumText text)))
      else .ok text := by
  have hcrc : (crc32 (Text.encode data)).toNat ≤ 2 ^ 32 - 1 := by
    have := (crc32 (Text.encode data)).isLt
    omega
  rw [verifyChecksum, Text.rsplitOnce_append (blank_notMem_checksumText data)]
  simp only
  rw [checksumText, Text.fromStrRadix_paddedHex hcrc]
  rfl

/-- **A record is verified**, whatever its data. -/
theorem verifyChecksum_record (format place : String) (data : List Char) :
    verifyChecksum format place (data ++ ' ' :: checksumText data) = .ok data := by
  rw [verifyChecksum_eq, if_neg (not_not.2 rfl)]

/-- A record with text around it is found. -/
theorem trim_record (data : List Char) {text t : List Char} (hne : text ≠ [])
    (hhead : ∀ c ∈ text.head?, Text.isWhitespace c = false)
    (ht : ∀ c ∈ t, Text.isWhitespace c = true) :
    Text.trim (text ++ ' ' :: checksumText data ++ t) = text ++ ' ' :: checksumText data := by
  refine Text.trim_append (by simp) (fun c hc => ?_) (fun c hc => ?_) ht
  · rw [List.head?_append_of_ne_nil _ hne] at hc
    exact hhead c hc
  · have hsum := checksumText_ne_nil data
    rw [List.getLast?_append_of_ne_nil _ (by simp), List.getLast?_cons_of_ne_nil hsum] at hc
    exact isWhitespace_checksumText (List.mem_of_getLast? hc)

namespace FileStorage

variable {formats : Formats} {s : FileStorage formats} {c : StorageContents} {path : String}
  {data : List Char}

/-- **A file with one record is read back.** -/
theorem readWithChecksum_eq (hfile : s.files path = some (Text.encode (checksumLine data)))
    (hne : data ≠ []) (hhead : ∀ c ∈ data.head?, Text.isWhitespace c = false) :
    s.readWithChecksum path = .ok (some data) := by
  rw [readWithChecksum, hfile]
  simp only [Text.decode_encode]
  rw [checksumLine_eq, trim_record data hne hhead (List.forall_mem_singleton.2 rfl), if_neg (by simp),
    verifyChecksum_record]
  rfl

theorem readWithChecksum_none (hfile : s.files path = none) :
    s.readWithChecksum path = .ok none := by
  rw [readWithChecksum, hfile]

/-! ### Loads of one record -/

/-- A load of one record: what it returns without a file, and how it reads the data. -/
def readAs {α : Type} (s : FileStorage formats) (path : String) (default : α)
    (parse : List Char → Except StorageError α) : Except StorageError α :=
  match s.readWithChecksum path with
  | .error e => .error e
  | .ok none => .ok default
  | .ok (some data) => parse data

/-- How a vote is read. -/
def parseVote (data : List Char) : Except StorageError (Option ℕ) :=
  if data = noVote then .ok none else (parseU64 "voted_for" data).map some

/-- How a snapshot is read. -/
def parseSnapshot (formats : Formats) (json : List Char) : Except StorageError (Option Snapshot) :=
  match formats.snapshot.fromStr json with
  | .ok snapshot => .ok (some snapshot)
  | .error e => .error (.corruption ("invalid snapshot: " ++ e))

theorem loadTerm_eq_readAs : s.loadTerm = s.readAs termPath 0 (parseU64 "term") := rfl

theorem loadVotedFor_eq_readAs : s.loadVotedFor = s.readAs votedForPath none parseVote := rfl

theorem loadSnapshot_eq_readAs :
    s.loadSnapshot = s.readAs snapshotPath none (parseSnapshot formats) := rfl

/-- **A number is read back.** -/
theorem parseU64_toDigits {n : ℕ} (hn : n < 2 ^ 64) (name : String) :
    parseU64 name (Nat.toDigits 10 n) = .ok n := by
  rw [parseU64, Text.fromStrRadix_toDigits (by decide) (by decide) (by omega)]

/-- The record of a number is one word. -/
theorem isWhitespace_toDigits (n : ℕ) : ∀ c ∈ Nat.toDigits 10 n, Text.isWhitespace c = false := by
  intro c hc
  obtain ⟨d, hd, rfl⟩ := Text.mem_toDigits (by decide) hc
  exact Text.isWhitespace_digitChar (by omega)

/-- The record of a vote. -/
def voteText : Option ℕ → List Char
  | some id => Nat.toDigits 10 id
  | none => noVote

theorem voteText_ne_nil (votedFor : Option ℕ) : voteText votedFor ≠ [] := by
  cases votedFor with
  | none => decide
  | some id => exact Nat.toDigits_ne_nil

/-- The record of a vote is one word. -/
theorem isWhitespace_voteText (votedFor : Option ℕ) :
    ∀ c ∈ voteText votedFor, Text.isWhitespace c = false := by
  cases votedFor with
  | none =>
      have hall : ∀ c ∈ ['n', 'o', 'n', 'e'], Text.isWhitespace c = false := by
        simp only [List.forall_mem_cons]
        exact ⟨rfl, rfl, rfl, rfl, by simp⟩
      exact hall
  | some id => exact isWhitespace_toDigits id

/-- A number is not the word for no vote. -/
theorem toDigits_ne_noVote (id : ℕ) : Nat.toDigits 10 id ≠ noVote := by
  intro heq
  have hmem : 'n' ∈ Nat.toDigits 10 id := heq ▸ by decide
  obtain ⟨d, hd, hdigit⟩ := Text.mem_toDigits (by decide) hmem
  have hall : ∀ d < 10, 'n' ≠ Nat.digitChar d := by decide
  exact hall d hd hdigit

/-- **A vote is read back.** -/
theorem parseVote_voteText {votedFor : Option ℕ} (h : ∀ id ∈ votedFor, id < 2 ^ 64) :
    parseVote (voteText votedFor) = .ok votedFor := by
  cases votedFor with
  | none => rfl
  | some id =>
      rw [parseVote, voteText, if_neg (toDigits_ne_noVote id), parseU64_toDigits (h id rfl)]
      rfl

/-- **A snapshot is read back.** -/
theorem parseSnapshot_eq {snapshot : Snapshot} {json : List Char}
    (h : formats.snapshot.Writes snapshot json) :
    parseSnapshot formats json = .ok (some snapshot) := by
  rw [parseSnapshot, h.fromStr]

/-! ### The log -/

/-- A line of the log that is read is the record of an entry. -/
theorem exists_of_loadLines {lineNum : ℕ} {bytes : List UInt8} {rest : List (List UInt8)}
    {line : List Char} {entries : List LogEntry} (hdecode : Text.decode bytes = some line)
    (hline : Text.trim (Text.chomp line) ≠ [])
    (h : loadLines formats lineNum (bytes :: rest) = .ok entries) :
    ∃ json e es, verifyChecksum "log format" ("at line " ++ toString lineNum) (Text.chomp line) =
        .ok json ∧ formats.entry.fromStr json = .ok e ∧
        loadLines formats (lineNum + 1) rest = .ok es ∧ entries = e :: es := by
  rw [loadLines, hdecode] at h
  simp only at h
  rw [if_neg (by simpa using hline)] at h
  cases hverify : verifyChecksum "log format" ("at line " ++ toString lineNum) (Text.chomp line) with
  | error err =>
      rw [hverify] at h
      cases h
  | ok json =>
      rw [hverify] at h
      simp only at h
      cases hentry : formats.entry.fromStr json with
      | error err => simp [hentry] at h
      | ok e =>
          rw [hentry] at h
          cases hrest : loadLines formats (lineNum + 1) rest with
          | error err => simp [hrest, Except.map] at h
          | ok es =>
              rw [hrest] at h
              exact ⟨json, e, es, rfl, hentry, rfl, (Except.ok.inj h).symm⟩

/-- The record of an entry is one line. -/
theorem newline_notMem_record {e : LogEntry} {json : List Char}
    (hjson : formats.entry.Writes e json) : '\n' ∉ json ++ ' ' :: checksumText json := by
  intro hmem
  rcases List.mem_append.1 hmem with hmem | hmem
  · exact absurd (hjson.oneLine _ hmem) (by decide)
  · rcases List.mem_cons.1 hmem with hmem | hmem
    · exact absurd hmem (by decide)
    · exact absurd (isWhitespace_checksumText hmem) (by decide)

/-- A record does not end in a carriage return. -/
theorem chomp_record (data : List Char) (s : List Char) :
    Text.chomp (s ++ ' ' :: checksumText data ++ ['\n']) = s ++ ' ' :: checksumText data := by
  have hsum := checksumText_ne_nil data
  refine Text.chomp_append fun hlast => ?_
  rw [List.getLast?_append_of_ne_nil _ (by simp), List.getLast?_cons_of_ne_nil hsum] at hlast
  have := isWhitespace_checksumText (List.mem_of_getLast? hlast)
  exact absurd this (by decide)

/-- **A line of the log is read back**, also if its end is missing. -/
theorem loadLines_cons {e : LogEntry} {json line : List Char} (hjson : formats.entry.Writes e json)
    (hline : Text.chomp line = json ++ ' ' :: checksumText json) (lineNum : ℕ)
    (rest : List (List UInt8)) :
    loadLines formats lineNum (Text.encode line :: rest) =
      (loadLines formats (lineNum + 1) rest).map (e :: ·) := by
  have htrim := trim_record (t := []) json hjson.ne_nil hjson.head (by simp)
  rw [List.append_nil] at htrim
  rw [loadLines, Text.decode_encode]
  simp only
  rw [hline, htrim, if_neg (by simp), verifyChecksum_record]
  simp only
  rw [hjson.fromStr]

theorem entryLine_eq {e : LogEntry} {json : List Char} (hjson : formats.entry.Writes e json) :
    entryLine formats e = .ok (checksumLine json) := by
  rw [entryLine, hjson.toString]

theorem logContent_cons {e : LogEntry} {entries : List LogEntry} {content : List Char}
    (h : logContent formats (e :: entries) = .ok content) :
    ∃ line rest, entryLine formats e = .ok line ∧ logContent formats entries = .ok rest ∧
      content = line ++ rest := by
  rw [logContent] at h
  cases hline : entryLine formats e with
  | error err => simp [hline] at h
  | ok line =>
      rw [hline] at h
      cases hrest : logContent formats entries with
      | error err => simp [hrest, Except.map] at h
      | ok rest =>
          rw [hrest] at h
          exact ⟨line, rest, rfl, rfl, (Except.ok.inj h).symm⟩

/-- Entries that `serde_json` writes have a text. -/
theorem exists_logContent {entries : List LogEntry}
    (he : ∀ e ∈ entries, ∃ json, formats.entry.Writes e json) :
    ∃ content, logContent formats entries = .ok content := by
  induction entries with
  | nil => exact ⟨[], rfl⟩
  | cons e entries ih =>
      obtain ⟨⟨json, hjson⟩, hes⟩ := List.forall_mem_cons.1 he
      obtain ⟨content, hcontent⟩ := ih hes
      exact ⟨checksumLine json ++ content, by rw [logContent, entryLine_eq hjson, hcontent]; rfl⟩

/-- **The log is read back**, and then what follows it. -/
theorem loadLines_logContent {entries : List LogEntry} {content : List Char}
    (he : ∀ e ∈ entries, ∃ json, formats.entry.Writes e json)
    (hcontent : logContent formats entries = .ok content) (rest : List UInt8) (lineNum : ℕ) :
    loadLines formats lineNum (Text.lines (Text.encode content ++ rest)) =
      (loadLines formats (lineNum + entries.length) (Text.lines rest)).map (entries ++ ·) := by
  induction entries generalizing content lineNum with
  | nil =>
      obtain rfl : [] = content := Except.ok.inj hcontent
      change loadLines formats lineNum (Text.lines rest) = _
      cases loadLines formats lineNum (Text.lines rest) <;> simp [Except.map]
  | cons e entries ih =>
      obtain ⟨⟨json, hjson⟩, hes⟩ := List.forall_mem_cons.1 he
      obtain ⟨line, content, hline, hrest, rfl⟩ := logContent_cons hcontent
      obtain rfl : checksumLine json = line := Except.ok.inj ((entryLine_eq hjson).symm.trans hline)
      rw [Text.encode_append, List.append_assoc, checksumLine_eq,
        Text.lines_encode (newline_notMem_record hjson), loadLines_cons hjson (chomp_record json json),
        ih hes hrest, List.length_cons, Nat.add_right_comm, ← Nat.add_assoc]
      cases loadLines formats (lineNum + entries.length + 1) (Text.lines rest) <;> rfl

theorem logContent_append {entries entries' : List LogEntry} {content content' : List Char}
    (h : logContent formats entries = .ok content)
    (h' : logContent formats entries' = .ok content') :
    logContent formats (entries ++ entries') = .ok (content ++ content') := by
  induction entries generalizing content with
  | nil =>
      obtain rfl : [] = content := Except.ok.inj h
      exact h'
  | cons e entries ih =>
      obtain ⟨line, rest, hline, hrest, rfl⟩ := logContent_cons h
      rw [List.cons_append, logContent, hline]
      simp only
      rw [ih hrest, List.append_assoc]
      rfl

/-- Appending writes what rewriting would. -/
theorem appendLines_eq {entries : List LogEntry} {content : List Char}
    (h : logContent formats entries = .ok content) (bytes : List UInt8) :
    appendLines formats entries bytes = (.ok (), bytes ++ Text.encode content) := by
  induction entries generalizing content bytes with
  | nil =>
      obtain rfl : [] = content := Except.ok.inj h
      simp [appendLines, Text.encode]
  | cons e entries ih =>
      obtain ⟨line, rest, hline, hrest, rfl⟩ := logContent_cons h
      rw [appendLines, hline]
      simp only
      rw [ih hrest, Text.encode_append, List.append_assoc]

/-! ### The contents of the files -/

/-- The file of a term; a term that was never saved is `0`. -/
def TermFile (file : Option (List UInt8)) (term : ℕ) : Prop :=
  (file = none ∧ term = 0) ∨
    (file = some (Text.encode (checksumLine (Nat.toDigits 10 term))) ∧ term < 2 ^ 64)

/-- The file of a vote. -/
def VoteFile (file : Option (List UInt8)) (votedFor : Option ℕ) : Prop :=
  (file = none ∧ votedFor = none) ∨
    (file = some (Text.encode (checksumLine (voteText votedFor))) ∧ ∀ id ∈ votedFor, id < 2 ^ 64)

/-- The file of a snapshot. -/
def SnapshotFile (formats : Formats) (file : Option (List UInt8)) (snapshot : Option Snapshot) :
    Prop :=
  (file = none ∧ snapshot = none) ∨
    ∃ x json, snapshot = some x ∧ formats.snapshot.Writes x json ∧
      file = some (Text.encode (checksumLine json))

/-- The file of a log; there may be none if it is empty. -/
def LogFile (formats : Formats) (file : Option (List UInt8)) (log : List LogEntry) : Prop :=
  (∀ e ∈ log, ∃ json, formats.entry.Writes e json) ∧
    ∃ content, logContent formats log = .ok content ∧ file.getD [] = Text.encode content

/-- **The files of given contents.** -/
structure Represents (s : FileStorage formats) (c : StorageContents) : Prop where
  term : TermFile (s.files termPath) c.term
  votedFor : VoteFile (s.files votedForPath) c.votedFor
  log : LogFile formats (s.files logPath) c.log
  snapshot : SnapshotFile formats (s.files snapshotPath) c.snapshot

theorem represents_new : (new : FileStorage formats).Represents .empty :=
  ⟨Or.inl ⟨rfl, rfl⟩, Or.inl ⟨rfl, rfl⟩, ⟨by simp [StorageContents.empty], [], rfl, rfl⟩,
    Or.inl ⟨rfl, rfl⟩⟩

/-- **A term is read back.** -/
theorem TermFile.loadTerm {term : ℕ} (h : TermFile (s.files termPath) term) :
    s.loadTerm = .ok term := by
  rw [loadTerm_eq_readAs, readAs]
  rcases h with ⟨hfile, rfl⟩ | ⟨hfile, hlt⟩
  · rw [readWithChecksum_none hfile]
  · rw [readWithChecksum_eq hfile Nat.toDigits_ne_nil
      fun c hc => isWhitespace_toDigits term c (List.mem_of_mem_head? hc)]
    exact parseU64_toDigits hlt "term"

/-- **A vote is read back.** -/
theorem VoteFile.loadVotedFor {votedFor : Option ℕ} (h : VoteFile (s.files votedForPath) votedFor) :
    s.loadVotedFor = .ok votedFor := by
  rw [loadVotedFor_eq_readAs, readAs]
  rcases h with ⟨hfile, rfl⟩ | ⟨hfile, hlt⟩
  · rw [readWithChecksum_none hfile]
  · rw [readWithChecksum_eq hfile (voteText_ne_nil votedFor)
      fun c hc => isWhitespace_voteText votedFor c (List.mem_of_mem_head? hc)]
    exact parseVote_voteText hlt

/-- **A snapshot is read back.** -/
theorem SnapshotFile.loadSnapshot {snapshot : Option Snapshot}
    (h : SnapshotFile formats (s.files snapshotPath) snapshot) : s.loadSnapshot = .ok snapshot := by
  rw [loadSnapshot_eq_readAs, readAs]
  rcases h with ⟨hfile, rfl⟩ | ⟨snapshot, json, rfl, hjson, hfile⟩
  · rw [readWithChecksum_none hfile]
  · rw [readWithChecksum_eq hfile hjson.ne_nil hjson.head]
    exact parseSnapshot_eq hjson

theorem loadLog_eq : s.loadLog = loadLines formats 1 (Text.lines ((s.files logPath).getD [])) := by
  rw [FileStorage.loadLog]
  cases s.files logPath <;> rfl

/-- **A log is read back.** -/
theorem LogFile.loadLog {log : List LogEntry} (h : LogFile formats (s.files logPath) log) :
    s.loadLog = .ok log := by
  obtain ⟨hentries, content, hcontent, hfile⟩ := h
  have hload := loadLines_logContent hentries hcontent [] 1
  rw [List.append_nil] at hload
  rw [loadLog_eq, hfile, hload]
  change Except.ok (log ++ []) = Except.ok log
  rw [List.append_nil]

/-- **The files are read back.** -/
theorem Represents.holds (h : s.Represents c) : Holds s c :=
  ⟨h.term.loadTerm, h.votedFor.loadVotedFor, h.log.loadLog, h.snapshot.loadSnapshot⟩

/-! ### Saving -/

theorem write_files_self {bytes : List UInt8} : (s.write path bytes).files path = some bytes :=
  Function.update_self _ _ _

/-- Writing a file leaves the others alone. -/
theorem write_files_of_ne {path' : String} {bytes : List UInt8} (h : path' ≠ path) :
    (s.write path bytes).files path' = s.files path' :=
  Function.update_of_ne h _ _

theorem atomicWrite_files_self {bytes : List UInt8} :
    (s.atomicWrite path bytes).files path = some bytes := by
  rw [atomicWrite, rename, write_files_self]
  exact Function.update_self _ _ _

/-- An atomic write only uses the temporary file. -/
theorem atomicWrite_files_of_ne {path' : String} {bytes : List UInt8} (h : path' ≠ path)
    (htemp : path' ≠ path ++ ".tmp") : (s.atomicWrite path bytes).files path' = s.files path' := by
  rw [atomicWrite, rename]
  simp only
  rw [Function.update_of_ne h, Function.update_of_ne htemp, write_files_of_ne htemp]

theorem Represents.writeTerm (h : s.Represents c) {term : ℕ} (hterm : term < 2 ^ 64) :
    (s.write termPath (Text.encode (checksumLine (Nat.toDigits 10 term)))).Represents
      { c with term } where
  term := Or.inr ⟨write_files_self, hterm⟩
  votedFor := by
    rw [write_files_of_ne (by decide)]
    exact h.votedFor
  log := by
    rw [write_files_of_ne (by decide)]
    exact h.log
  snapshot := by
    rw [write_files_of_ne (by decide)]
    exact h.snapshot

theorem Represents.writeVote (h : s.Represents c) {votedFor : Option ℕ}
    (hvote : ∀ id ∈ votedFor, id < 2 ^ 64) :
    (s.write votedForPath (Text.encode (checksumLine (voteText votedFor)))).Represents
      { c with votedFor } where
  term := by
    rw [write_files_of_ne (by decide)]
    exact h.term
  votedFor := Or.inr ⟨write_files_self, hvote⟩
  log := by
    rw [write_files_of_ne (by decide)]
    exact h.log
  snapshot := by
    rw [write_files_of_ne (by decide)]
    exact h.snapshot

theorem Represents.writeSnapshot (h : s.Represents c) {snapshot : Snapshot} {json : List Char}
    (hjson : formats.snapshot.Writes snapshot json) :
    (s.write snapshotPath (Text.encode (checksumLine json))).Represents
      { c with snapshot := some snapshot } where
  term := by
    rw [write_files_of_ne (by decide)]
    exact h.term
  votedFor := by
    rw [write_files_of_ne (by decide)]
    exact h.votedFor
  log := by
    rw [write_files_of_ne (by decide)]
    exact h.log
  snapshot := Or.inr ⟨snapshot, json, rfl, hjson, write_files_self⟩

/-- Appending keeps the entries that were there. -/
theorem LogFile.appendLogEntries {log entries : List LogEntry}
    (h : LogFile formats (s.files logPath) log)
    (hentries : ∀ e ∈ entries, ∃ json, formats.entry.Writes e json) :
    (s.appendLogEntries entries).1 = .ok () ∧
      LogFile formats ((s.appendLogEntries entries).2.files logPath) (log ++ entries) := by
  obtain ⟨hlog, content, hcontent, hfile⟩ := h
  obtain ⟨content', hcontent'⟩ := exists_logContent hentries
  rw [FileStorage.appendLogEntries, appendLines_eq hcontent']
  refine ⟨rfl, List.forall_mem_append.2 ⟨hlog, hentries⟩, content ++ content',
    logContent_append hcontent hcontent', ?_⟩
  simp only [write_files_self, Option.getD_some]
  rw [hfile, Text.encode_append]

/-- Rewriting the log keeps the entries that it should, whatever the file was. -/
theorem rewriteLog_of_loadLog {log : List LogEntry} (hload : s.loadLog = .ok log)
    (hlog : ∀ e ∈ log, ∃ json, formats.entry.Writes e json) (keep : LogEntry → Bool) :
    (s.rewriteLog keep).1 = .ok () ∧
      LogFile formats ((s.rewriteLog keep).2.files logPath) (log.filter keep) := by
  have hentries : ∀ e ∈ log.filter keep, ∃ json, formats.entry.Writes e json :=
    fun e he => hlog e (List.mem_filter.1 he).1
  obtain ⟨content, hcontent⟩ := exists_logContent hentries
  rw [FileStorage.rewriteLog, hload]
  simp only
  rw [hcontent]
  exact ⟨rfl, hentries, content, hcontent, by rw [atomicWrite_files_self, Option.getD_some]⟩

/-- Appending only writes the log. -/
theorem appendLogEntries_files_of_ne {entries : List LogEntry} (h : path ≠ logPath) :
    (s.appendLogEntries entries).2.files path = s.files path :=
  write_files_of_ne h

/-- Rewriting only writes the log, and the temporary file. -/
theorem rewriteLog_files_of_ne {keep : LogEntry → Bool} (h : path ≠ logPath)
    (htemp : path ≠ logPath ++ ".tmp") : (s.rewriteLog keep).2.files path = s.files path := by
  rw [FileStorage.rewriteLog]
  cases s.loadLog with
  | error e => rfl
  | ok entries =>
      simp only
      cases logContent formats (entries.filter keep) with
      | error e => rfl
      | ok content => exact atomicWrite_files_of_ne h htemp

theorem Represents.appendLogEntries (h : s.Represents c) {entries : List LogEntry}
    (hentries : ∀ e ∈ entries, ∃ json, formats.entry.Writes e json) :
    (s.appendLogEntries entries).1 = .ok () ∧
      (s.appendLogEntries entries).2.Represents { c with log := c.log ++ entries } := by
  obtain ⟨hok, hlog⟩ := h.log.appendLogEntries hentries
  refine ⟨hok, ?_, ?_, hlog, ?_⟩
  · rw [appendLogEntries_files_of_ne (by decide)]
    exact h.term
  · rw [appendLogEntries_files_of_ne (by decide)]
    exact h.votedFor
  · rw [appendLogEntries_files_of_ne (by decide)]
    exact h.snapshot

theorem Represents.rewriteLog (h : s.Represents c) (keep : LogEntry → Bool) :
    (s.rewriteLog keep).1 = .ok () ∧
      (s.rewriteLog keep).2.Represents { c with log := c.log.filter keep } := by
  obtain ⟨hok, hlog⟩ := rewriteLog_of_loadLog h.log.loadLog h.log.1 keep
  refine ⟨hok, ?_, ?_, hlog, ?_⟩
  · rw [rewriteLog_files_of_ne (by decide) (by decide)]
    exact h.term
  · rw [rewriteLog_files_of_ne (by decide) (by decide)]
    exact h.votedFor
  · rw [rewriteLog_files_of_ne (by decide) (by decide)]
    exact h.snapshot

/-- **Every save succeeds, and does what is documented.** -/
theorem Represents.apply (h : s.Represents c) {call : StorageCall}
    (hcall : call.Admissible formats) :
    (call.apply s).1 = .ok () ∧ (call.apply s).2.Represents (call.apply c).2 := by
  cases call with
  | saveTerm term => exact ⟨rfl, h.writeTerm hcall⟩
  | saveVotedFor votedFor =>
      refine ⟨rfl, ?_⟩
      cases votedFor with
      | none => exact h.writeVote hcall
      | some id => exact h.writeVote hcall
  | appendLogEntries entries => exact h.appendLogEntries hcall
  | truncateLog fromIndex => exact h.rewriteLog _
  | compactLog beforeIndex => exact h.rewriteLog _
  | saveSnapshot snapshot =>
      obtain ⟨json, hjson⟩ := hcall
      have heq : s.saveSnapshot snapshot = s.writeWithChecksum snapshotPath json := by
        rw [saveSnapshot, hjson.toString]
      have hsave : (StorageCall.saveSnapshot snapshot).apply s =
          s.writeWithChecksum snapshotPath json := heq
      rw [hsave]
      exact ⟨rfl, h.writeSnapshot hjson⟩

/-- **So does every sequence of saves.** -/
theorem Represents.applyAll (h : s.Represents c) {calls : List StorageCall}
    (hcalls : ∀ call ∈ calls, call.Admissible formats) :
    (RaftVibe.applyAll s calls).Represents (RaftVibe.applyAll c calls) := by
  induction calls generalizing s c with
  | nil => exact h
  | cons call calls ih =>
      obtain ⟨hcall, hcalls⟩ := List.forall_mem_cons.1 hcalls
      exact ih (h.apply hcall).2 hcalls

/-- **The files hold what was saved**: from an empty directory, every call succeeds, and the loads
return what the trait documents. -/
theorem applyAll_holds {calls : List StorageCall}
    (hcalls : ∀ call ∈ calls, call.Admissible formats) :
    Holds (RaftVibe.applyAll (new : FileStorage formats) calls)
        (RaftVibe.applyAll .empty calls) ∧
      ∀ before call after, calls = before ++ call :: after →
        (call.apply (RaftVibe.applyAll (new : FileStorage formats) before)).1 = .ok () := by
  refine ⟨(represents_new.applyAll hcalls).holds, fun before call after heq => ?_⟩
  subst heq
  obtain ⟨hbefore, hrest⟩ := List.forall_mem_append.1 hcalls
  exact ((represents_new.applyAll hbefore).apply (List.forall_mem_cons.1 hrest).1).1

/-- A `serde_json` that only knows some values. -/
def serdeOf {α : Type} [DecidableEq α] (rows : List (α × List Char)) : Serde α where
  toString a :=
    match rows.find? fun row => row.1 = a with
    | some row => .ok row.2
    | none => .error ""
  fromStr json :=
    match rows.find? fun row => row.2 = json with
    | some row => .ok row.1
    | none => .error ""

/-- Three entries; the command of the second one ends in what looks like a checksum. -/
def exampleEntry (index : ℕ) : LogEntry :=
  ⟨1, index, if index = 2 then "SET k=a deadbeef" else "DELETE k"⟩

def exampleSnapshot : Snapshot := ⟨⟨1, 1⟩, [7, 10]⟩

def exampleFormats : Formats where
  entry := serdeOf
    [(exampleEntry 1, "\x7b\"term\":1,\"index\":1,\"command\":\"DELETE k\"\x7d".toList),
      (exampleEntry 2, "\x7b\"term\":1,\"index\":2,\"command\":\"SET k=a deadbeef\"\x7d".toList),
      (exampleEntry 3, "\x7b\"term\":1,\"index\":3,\"command\":\"DELETE k\"\x7d".toList)]
  snapshot := serdeOf
    [(exampleSnapshot, ("\x7b\"metadata\":\x7b\"last_included_index\":1,\"last_included_term\":1\x7d" ++
      ",\"data\":[7,10]\x7d").toList)]
  path := fun path => "\"" ++ path ++ "\""

theorem exampleFormats_writes :
    ∀ e ∈ [exampleEntry 1, exampleEntry 2, exampleEntry 3],
      ∃ json, exampleFormats.entry.Writes e json := by
  simp only [List.forall_mem_cons]
  exact ⟨⟨_, Serde.writes_of_all rfl rfl (by decide)⟩, ⟨_, Serde.writes_of_all rfl rfl (by decide)⟩,
    ⟨_, Serde.writes_of_all rfl rfl (by decide)⟩, by simp⟩

theorem applyAll_holds_example :
    Holds (RaftVibe.applyAll (new : FileStorage exampleFormats)
        [.saveTerm 3, .saveVotedFor (some 2), .appendLogEntries [exampleEntry 1, exampleEntry 2,
          exampleEntry 3], .saveSnapshot exampleSnapshot, .compactLog 2, .saveVotedFor none,
          .truncateLog 3])
      ⟨3, none, [exampleEntry 2], some exampleSnapshot⟩ := by
  have hsnapshot : ∃ json, exampleFormats.snapshot.Writes exampleSnapshot json :=
    ⟨_, Serde.writes_of_all rfl rfl (by decide)⟩
  refine (applyAll_holds ?_).1
  simp only [List.forall_mem_cons]
  refine ⟨?_, ?_, exampleFormats_writes, hsnapshot, trivial, ?_, trivial, by simp⟩
  · exact (by decide : 3 < 2 ^ 64)
  · simp [StorageCall.Admissible]
  · simp [StorageCall.Admissible]

end FileStorage

end RaftVibe
