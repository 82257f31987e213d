/-
**The records of the files.**

`serde_json` is a parameter of the storage in files.  What is asked of it is that it reads what it
writes, as one line, for every entry and every snapshot whose numbers are `u64`s.  The compact text
that it writes for the two derived types is one that meets this: the fields in the order of the
source, numbers in decimal, the command as a string, the data as an array.

Main definitions:

* `RaftVibe.Formats.Lawful` — **what is asked of `serde_json`**;
* `RaftVibe.jsonFormats` — the compact text.

Main results:

* `RaftVibe.jsonFormats_lawful` — **the compact text is read back**.
-/

import RaftVibe.FileStorageSpec
import RaftVibe.Json

set_option relaxedAutoImplicit false
set_option autoImplicit false

namespace RaftVibe

/-- **`serde_json` reads what it writes**, as one line: every entry and every snapshot whose numbers
are `u64`s. -/
structure Formats.Lawful (formats : Formats) : Prop where
  entry : ∀ entry : LogEntry, entry.Savable → ∃ json, formats.entry.Writes entry json
  snapshot : ∀ snapshot : Snapshot, snapshot.Savable →
    ∃ json, formats.snapshot.Writes snapshot json

namespace LogEntry

/-- An entry as compact JSON. -/
def toJson (entry : LogEntry) : List Char :=
  Json.key '{' "term" ++ (Json.writeNat entry.term ++ (Json.key ',' "index" ++
    (Json.writeNat entry.index ++ (Json.key ',' "command" ++
      (Json.writeString entry.command.toList ++ ['}'])))))

/-- Read an entry. -/
def ofJson (text : List Char) : Option LogEntry := do
  let text ← Json.skip (Json.key '{' "term") text
  let (term, text) ← Json.readNat u64Max text
  let text ← Json.skip (Json.key ',' "index") text
  let (index, text) ← Json.readNat u64Max text
  let text ← Json.skip (Json.key ',' "command") text
  let (command, text) ← Json.readString text
  if text = ['}'] then some ⟨term, index, String.ofList command⟩ else none

/-- **An entry is read back.** -/
theorem ofJson_toJson {entry : LogEntry} (h : entry.Savable) : ofJson entry.toJson = some entry := by
  have hcomma : Char.isDigit ',' = false := by decide
  rw [ofJson, toJson]
  simp only [Json.skip_append, Option.bind_eq_bind, Option.bind_some, Json.readNat_key h.1 hcomma,
    Json.readNat_key h.2 hcomma, Json.readString_append, if_true, String.ofList_toList]

end LogEntry

namespace Snapshot

/-- A snapshot as compact JSON. -/
def toJson (snapshot : Snapshot) : List Char :=
  Json.key '{' "metadata" ++ (Json.key '{' "last_included_index" ++
    (Json.writeNat snapshot.metadata.lastIncludedIndex ++ (Json.key ',' "last_included_term" ++
      (Json.writeNat snapshot.metadata.lastIncludedTerm ++ ('}' :: (Json.key ',' "data" ++
        (Json.writeBytes snapshot.data ++ ['}'])))))))

/-- Read a snapshot. -/
def ofJson (text : List Char) : Option Snapshot := do
  let text ← Json.skip (Json.key '{' "metadata") text
  let text ← Json.skip (Json.key '{' "last_included_index") text
  let (lastIncludedIndex, text) ← Json.readNat u64Max text
  let text ← Json.skip (Json.key ',' "last_included_term") text
  let (lastIncludedTerm, text) ← Json.readNat u64Max text
  let text ← Json.skip ['}'] text
  let text ← Json.skip (Json.key ',' "data") text
  let (data, text) ← Json.readBytes text
  if text = ['}'] then some ⟨⟨lastIncludedIndex, lastIncludedTerm⟩, data⟩ else none

/-- **A snapshot is read back.** -/
theorem ofJson_toJson {snapshot : Snapshot} (h : snapshot.Savable) :
    ofJson snapshot.toJson = some snapshot := by
  have hcomma : Char.isDigit ',' = false := by decide
  have hbrace : Char.isDigit '}' = false := by decide
  rw [ofJson, toJson]
  have hskip (rest : List Char) : Json.skip ['}'] ('}' :: rest) = some rest :=
    Json.skip_append ['}'] rest
  simp only [Json.skip_append, Option.bind_eq_bind, Option.bind_some, Json.readNat_key h.1 hcomma,
    Json.readNat_append h.2 hbrace, hskip, Json.readBytes_append, if_true]

end Snapshot

/-- A format given by a writer, and a reader that may fail. -/
def serdeOfJson {α : Type} (toJson : α → List Char) (ofJson : List Char → Option α) : Serde α where
  toString a := .ok (toJson a)
  fromStr text :=
    match ofJson text with
    | some a => .ok a
    | none => .error "invalid JSON"

/-- **The compact text of entries and snapshots.** -/
def jsonFormats : Formats where
  entry := serdeOfJson LogEntry.toJson LogEntry.ofJson
  snapshot := serdeOfJson Snapshot.toJson Snapshot.ofJson
  path := fun path => "\"" ++ path ++ "\""

theorem LogEntry.printable_toJson {entry : LogEntry} {c : Char} (h : c ∈ entry.toJson) :
    0x20 ≤ c.toNat := by
  simp only [LogEntry.toJson, List.mem_append, List.mem_singleton] at h
  rcases h with h | h | h | h | h | h | rfl
  · exact Json.printable_key (by decide) (by decide) h
  · exact Json.printable_of_isDigit (Json.isDigit_writeNat h)
  · exact Json.printable_key (by decide) (by decide) h
  · exact Json.printable_of_isDigit (Json.isDigit_writeNat h)
  · exact Json.printable_key (by decide) (by decide) h
  · exact Json.printable_writeString h
  · decide

theorem Snapshot.printable_toJson {snapshot : Snapshot} {c : Char} (h : c ∈ snapshot.toJson) :
    0x20 ≤ c.toNat := by
  simp only [Snapshot.toJson, List.mem_append, List.mem_cons, List.not_mem_nil, or_false] at h
  rcases h with h | h | h | h | h | rfl | h | h | rfl
  · exact Json.printable_key (by decide) (by decide) h
  · exact Json.printable_key (by decide) (by decide) h
  · exact Json.printable_of_isDigit (Json.isDigit_writeNat h)
  · exact Json.printable_key (by decide) (by decide) h
  · exact Json.printable_of_isDigit (Json.isDigit_writeNat h)
  · decide
  · exact Json.printable_key (by decide) (by decide) h
  · exact Json.printable_writeBytes h
  · decide

/-- A text in braces that is read back is what is asked for. -/
theorem writes_of_braces {α : Type} {toJson : α → List Char} {ofJson : List Char → Option α} {a : α}
    (hread : ofJson (toJson a) = some a) (hline : ∀ c ∈ toJson a, 0x20 ≤ c.toNat)
    (hhead : (toJson a).head? = some '{') (hlast : (toJson a).getLast? = some '}') :
    (serdeOfJson toJson ofJson).Writes a (toJson a) where
  toString := rfl
  fromStr := by
    simp only [serdeOfJson, hread]
  ne_nil := by
    intro hnil
    rw [hnil] at hhead
    cases hhead
  oneLine := hline
  head := by
    rw [hhead]
    rintro c ⟨⟩
    rfl
  last := by
    rw [hlast]
    rintro c ⟨⟩
    rfl

/-- **The compact text is read back**, whatever the command and the data. -/
theorem jsonFormats_lawful : jsonFormats.Lawful where
  entry entry h := ⟨_, writes_of_braces (LogEntry.ofJson_toJson h)
    (fun _ => LogEntry.printable_toJson) rfl (by simp [LogEntry.toJson])⟩
  snapshot snapshot h := ⟨_, writes_of_braces (Snapshot.ofJson_toJson h)
    (fun _ => Snapshot.printable_toJson) rfl (by simp [Snapshot.toJson, List.getLast?_cons])⟩

end RaftVibe
