/-
**Storage in files.**

`storage/file.rs` keeps the state in four files of a directory: each of them is read and written as
text, and every record has a checksum.  The files are modelled down to their bytes, so that what a
crash leaves of them can be said.  Nothing goes wrong with input and output here: a file that is
created, written, renamed or read is there.

`serde_json` is a parameter, as is the text that names a file in an error.

Main definitions:

* `RaftVibe.crc32` — the checksum;
* `RaftVibe.FileStorage` — the directory;
* `RaftVibe.FileStorage.writeWithChecksum`, `readWithChecksum` — a file with one record;
* `RaftVibe.FileStorage.loadLines`, `appendLines` — the log, with a record on each line.
-/

import Mathlib
import RaftVibe.Storage
import RaftVibe.Text

set_option relaxedAutoImplicit false
set_option autoImplicit false

namespace RaftVibe

/-! ### The checksum -/

/-- One bit of the checksum. -/
def crc32Bit (crc : BitVec 32) : BitVec 32 :=
  if crc &&& 1 ≠ 0 then (crc >>> 1) ^^^ 0xEDB88320 else crc >>> 1

/-- One byte: eight bits, the least significant first. -/
def crc32Byte (crc : BitVec 32) (byte : UInt8) : BitVec 32 :=
  crc32Bit^[8] (crc ^^^ byte.toBitVec.setWidth 32)

/-- Simple CRC32 checksum (IEEE polynomial). -/
def crc32 (data : List UInt8) : BitVec 32 := ~~~ data.foldl crc32Byte 0xFFFFFFFF

example : crc32 (Text.encode "123456789".toList) = 0xCBF43926 := by decide +kernel

/-! ### What the files are made of -/

/-- `serde_json::to_string` and `from_str` on a type; an error is its text. -/
structure Serde (α : Type) where
  toString : α → Except String (List Char)
  fromStr : List Char → Except String α

/-- The code elsewhere: `serde_json` on entries and on snapshots, and `{:?}` of the path of a file. -/
structure Formats where
  entry : Serde LogEntry
  snapshot : Serde Snapshot
  path : String → String

/-- The files of the directory. -/
structure FileStorage (formats : Formats) where
  files : String → Option (List UInt8)

/-- `{data} {crc32_hex}\n`. -/
def checksumLine (data : List Char) : List Char :=
  data ++ ' ' :: Text.paddedHex 8 (crc32 (Text.encode data)).toNat ++ ['\n']

/-- The error of a read that finds no text. -/
def invalidUtf8 : StorageError := .io "stream did not contain valid UTF-8"

/-- Take a record apart, `{data} {checksum}`, and verify the checksum.  Errors say which format was
expected, and where. -/
def verifyChecksum (format place : String) (content : List Char) :
    Except StorageError (List Char) :=
  match Text.rsplitOnce ' ' content with
  | none => .error (.corruption ("invalid " ++ format ++ " " ++ place ++ ": missing checksum"))
  | some (data, checksumStr) =>
      match Text.fromStrRadix 16 (2 ^ 32 - 1) checksumStr with
      | .error _ => .error (.corruption ("invalid checksum format " ++ place))
      | .ok storedChecksum =>
          let computedChecksum := (crc32 (Text.encode data)).toNat
          if storedChecksum ≠ computedChecksum then
            .error (.corruption ("checksum mismatch " ++ place ++ ": stored " ++
              String.ofList (Text.paddedHex 8 storedChecksum) ++ ", computed " ++
              String.ofList (Text.paddedHex 8 computedChecksum)))
          else .ok data

/-- `data.parse::<u64>()`, for a field with this name. -/
def parseU64 (name : String) (data : List Char) : Except StorageError ℕ :=
  match Text.fromStrRadix 10 (2 ^ 64 - 1) data with
  | .ok n => .ok n
  | .error e => .error (.corruption ("invalid " ++ name ++ ": " ++ e.display))

namespace FileStorage

variable {formats : Formats}

/-- An empty directory. -/
def new : FileStorage formats := ⟨fun _ => none⟩

def termPath : String := "term"

def votedForPath : String := "voted_for"

def logPath : String := "log"

def snapshotPath : String := "snapshot"

/-- `File::create` and `write_all`. -/
def write (s : FileStorage formats) (path : String) (data : List UInt8) : FileStorage formats :=
  ⟨Function.update s.files path (some data)⟩

/-- `fs::rename`. -/
def rename (s : FileStorage formats) (path path' : String) : FileStorage formats :=
  ⟨Function.update (Function.update s.files path none) path' (s.files path)⟩

/-- Write to a temporary file, and rename it. -/
def atomicWrite (s : FileStorage formats) (path : String) (data : List UInt8) :
    FileStorage formats :=
  let tempPath := path ++ ".tmp"
  (s.write tempPath data).rename tempPath path

/-! ### A file with one record -/

def writeWithChecksum (s : FileStorage formats) (path : String) (data : List Char) :
    SaveResult (FileStorage formats) :=
  (.ok (), s.write path (Text.encode (checksumLine data)))

/-- Read a file and verify its checksum; the data, if there is a file and it is not empty. -/
def readWithChecksum (s : FileStorage formats) (path : String) :
    Except StorageError (Option (List Char)) :=
  match s.files path with
  | none => .ok none
  | some bytes =>
      match Text.decode bytes with
      | none => .error invalidUtf8
      | some content =>
          let content := Text.trim content
          if content.isEmpty then .ok none
          else (verifyChecksum "format" ("in " ++ formats.path path) content).map some

def loadTerm (s : FileStorage formats) : Except StorageError ℕ :=
  match s.readWithChecksum termPath with
  | .error e => .error e
  | .ok none => .ok 0
  | .ok (some data) => parseU64 "term" data

def saveTerm (s : FileStorage formats) (term : ℕ) : SaveResult (FileStorage formats) :=
  s.writeWithChecksum termPath (Nat.toDigits 10 term)

/-- The record of no vote. -/
def noVote : List Char := "none".toList

def loadVotedFor (s : FileStorage formats) : Except StorageError (Option ℕ) :=
  match s.readWithChecksum votedForPath with
  | .error e => .error e
  | .ok none => .ok none
  | .ok (some data) => if data = noVote then .ok none else (parseU64 "voted_for" data).map some

def saveVotedFor (s : FileStorage formats) (votedFor : Option ℕ) :
    SaveResult (FileStorage formats) :=
  let data :=
    match votedFor with
    | some id => Nat.toDigits 10 id
    | none => noVote
  s.writeWithChecksum votedForPath data

def loadSnapshot (s : FileStorage formats) : Except StorageError (Option Snapshot) :=
  match s.readWithChecksum snapshotPath with
  | .error e => .error e
  | .ok none => .ok none
  | .ok (some json) =>
      match formats.snapshot.fromStr json with
      | .ok snapshot => .ok (some snapshot)
      | .error e => .error (.corruption ("invalid snapshot: " ++ e))

def saveSnapshot (s : FileStorage formats) (snapshot : Snapshot) :
    SaveResult (FileStorage formats) :=
  match formats.snapshot.toString snapshot with
  | .error e => (.error (.io ("snapshot serialization error: " ++ e)), s)
  | .ok json => s.writeWithChecksum snapshotPath json

/-! ### The log -/

/-- The loop over the lines of the log; the first one here has this number. -/
def loadLines (formats : Formats) : ℕ → List (List UInt8) → Except StorageError (List LogEntry)
  | _, [] => .ok []
  | lineNum, bytes :: rest =>
      match Text.decode bytes with
      | none => .error invalidUtf8
      | some line =>
          let line := Text.chomp line
          if (Text.trim line).isEmpty then loadLines formats (lineNum + 1) rest
          else
            match verifyChecksum "log format" ("at line " ++ toString lineNum) line with
            | .error e => .error e
            | .ok json =>
                match formats.entry.fromStr json with
                | .error e => .error (.corruption
                    ("invalid log entry at line " ++ toString lineNum ++ ": " ++ e))
                | .ok entry => (loadLines formats (lineNum + 1) rest).map (entry :: ·)

def loadLog (s : FileStorage formats) : Except StorageError (List LogEntry) :=
  match s.files logPath with
  | none => .ok []
  | some bytes => loadLines formats 1 (Text.lines bytes)

/-- The line of an entry. -/
def entryLine (formats : Formats) (entry : LogEntry) : Except StorageError (List Char) :=
  match formats.entry.toString entry with
  | .error e => .error (.io ("serialization error: " ++ e))
  | .ok json => .ok (checksumLine json)

/-- The loop that appends entries to the content of the log; those before a failure are written. -/
def appendLines (formats : Formats) : List LogEntry → List UInt8 → SaveResult (List UInt8)
  | [], content => (.ok (), content)
  | entry :: entries, content =>
      match entryLine formats entry with
      | .error e => (.error e, content)
      | .ok line => appendLines formats entries (content ++ Text.encode line)

def appendLogEntries (s : FileStorage formats) (entries : List LogEntry) :
    SaveResult (FileStorage formats) :=
  let (result, content) := appendLines formats entries ((s.files logPath).getD [])
  (result, s.write logPath content)

/-- The text of entries, one line each. -/
def logContent (formats : Formats) : List LogEntry → Except StorageError (List Char)
  | [] => .ok []
  | entry :: entries =>
      match entryLine formats entry with
      | .error e => .error e
      | .ok line => (logContent formats entries).map (line ++ ·)

/-- Rewrite the log with the entries to keep. -/
def rewriteLog (s : FileStorage formats) (keep : LogEntry → Bool) :
    SaveResult (FileStorage formats) :=
  match s.loadLog with
  | .error e => (.error e, s)
  | .ok entries =>
      match logContent formats (entries.filter keep) with
      | .error e => (.error e, s)
      | .ok content => (.ok (), s.atomicWrite logPath (Text.encode content))

def truncateLog (s : FileStorage formats) (fromIndex : ℕ) : SaveResult (FileStorage formats) :=
  s.rewriteLog fun e => e.index < fromIndex

def compactLog (s : FileStorage formats) (beforeIndex : ℕ) : SaveResult (FileStorage formats) :=
  s.rewriteLog fun e => e.index ≥ beforeIndex

instance : Storage (FileStorage formats) where
  loadTerm := loadTerm
  saveTerm := saveTerm
  loadVotedFor := loadVotedFor
  saveVotedFor := saveVotedFor
  loadLog := loadLog
  appendLogEntries := appendLogEntries
  truncateLog := truncateLog
  compactLog := compactLog
  loadSnapshot := loadSnapshot
  saveSnapshot := saveSnapshot

end FileStorage

end RaftVibe
