/-
**The replicated state machine.**

`RaftCore` owns a `Box<dyn Snapshotable>` (`state_machine/traits.rs`): a machine that validates and
applies commands, and that can be written to bytes and read back.

Main definitions:

* `RaftVibe.StateMachine`, `RaftVibe.Snapshotable` — the two traits;
* `RaftVibe.LawfulSnapshotable` — restoring a snapshot gives back the machine it was taken of;
* `RaftVibe.foldCommands` — applying a list of commands in order;
* `RaftVibe.Recorder` — a small machine whose state is its own snapshot.
-/

import Mathlib.Data.Nat.Notation

set_option relaxedAutoImplicit false
set_option autoImplicit false

namespace RaftVibe

/-- `Ok(output)` for successful commands, `Err(message)` for errors. -/
abbrev ApplyResult := Except String String

/-- The application logic that Raft coordinates. -/
class StateMachine (μ : Type) where
  validate : μ → String → Except String Unit
  apply : μ → String → μ × ApplyResult

/-- A state machine that supports log compaction. -/
class Snapshotable (μ : Type) extends StateMachine μ where
  snapshot : μ → Except String (List UInt8)
  restore : μ → List UInt8 → Except String μ

/-- `restore` inverts `snapshot`, whatever the machine held before. -/
class LawfulSnapshotable (μ : Type) [Snapshotable μ] : Prop where
  restore_snapshot : ∀ {m : μ} {data} (m' : μ), Snapshotable.snapshot m = .ok data →
    Snapshotable.restore m' data = .ok m

/-- The machine after applying the commands in order. -/
def foldCommands {μ : Type} [StateMachine μ] (m : μ) (commands : List String) : μ :=
  commands.foldl (fun m c => (StateMachine.apply m c).1) m

section Fold

variable {μ : Type} [StateMachine μ]

@[simp] theorem foldCommands_nil (m : μ) : foldCommands m [] = m := rfl

@[simp] theorem foldCommands_append (m : μ) (cs ds : List String) :
    foldCommands m (cs ++ ds) = foldCommands (foldCommands m cs) ds :=
  List.foldl_append ..

@[simp] theorem foldCommands_singleton (m : μ) (c : String) :
    foldCommands m [c] = (StateMachine.apply m c).1 := rfl

end Fold

/-! ### A machine that is its own snapshot -/

/-- A machine that records the bytes of the commands it has applied. -/
structure Recorder where
  bytes : List UInt8
deriving DecidableEq, Repr

namespace Recorder

/-- A machine that has applied nothing. -/
def new : Recorder := ⟨[]⟩

instance : Snapshotable Recorder where
  validate _ _ := .ok ()
  apply m command := (⟨m.bytes ++ command.toUTF8.data.toList⟩, .ok "")
  snapshot m := .ok m.bytes
  restore _ data := .ok ⟨data⟩

instance : LawfulSnapshotable Recorder where
  restore_snapshot {m data} m' h := by
    obtain rfl : m.bytes = data := Except.ok.inj h
    rfl

end Recorder

end RaftVibe
