/-
**The linearizability checker** of `chaos-test/src/checker.rs`: the Wing-Gong search on each key.

The search places one operation after the other.  Operations that succeeded must all be placed;
writes that failed are optional, with their intervals extended to the end of the history.  The list
`linearization` collects the ids along the way; it is pushed to before a recursive call and popped
after one that fails, so it is passed in and out.

A hash set lists its members in any order, so `check` takes the keys of the history as a list.  The
texts of errors quote strings as `{:?}` does, which is a parameter.

Main definitions:

* `RaftVibe.LinearizabilityChecker.tryApply`, `candidates`, `search` — the search;
* `RaftVibe.LinearizabilityChecker.checkSingleKey` — two fast checks, then the search;
* `RaftVibe.LinearizabilityChecker.check` — key by key.
-/

import Mathlib
import RaftVibe.History

set_option relaxedAutoImplicit false
set_option autoImplicit false

namespace RaftVibe

/-- Result of linearizability check. -/
structure CheckResult where
  isLinearizable : Bool
  /-- operation ids in valid linearization order (if found) -/
  linearization : Option (List ℕ)
  /-- description if not linearizable -/
  error : Option String
deriving DecidableEq, Repr

namespace CheckResult

def linearizable (order : List ℕ) : CheckResult := ⟨true, some order, none⟩

def notLinearizable (reason : String) : CheckResult := ⟨false, none, some reason⟩

end CheckResult

/-- Single-key register: its current value. -/
structure RegisterModel where
  value : Option String
deriving DecidableEq, Repr

namespace RegisterModel

def new : RegisterModel := ⟨none⟩

def applyWrite (_ : RegisterModel) (value : String) : RegisterModel := ⟨some value⟩

def checkRead (model : RegisterModel) (expected : Option String) : Bool := model.value = expected

end RegisterModel

namespace LinearizabilityChecker

/-- Try to apply an operation to the model: whether it is valid, and the new model. -/
def tryApply (op : Operation) (model : RegisterModel) : Bool × RegisterModel :=
  match op.kind, op.result with
  | .write value, .writeOk => (true, model.applyWrite value)
  | .read, .readOk readValue =>
      if model.checkRead readValue then (true, model) else (false, model)
  | _, _ => (false, model)

/-! ### The search -/

section Search

variable (ops : List Operation)

/-- The operations that may come next, and whether they are optional: those invoked before the
earliest required completion that can still be linearized. -/
def candidates (required optional : List (Fin ops.length)) (frontier : ℕ) :
    List (Fin ops.length × Bool) :=
  let minComplete := (required.map fun i => (ops.get i).completeTs).min?.getD (2 ^ 64 - 1)
  let eligible (i : Fin ops.length) : Bool :=
    (ops.get i).invokeTs ≤ minComplete && (ops.get i).completeTs ≥ frontier
  (required.filter eligible).map (·, false) ++ (optional.filter eligible).map (·, true)

/-- The comparison of the candidates: earlier invocations first, and writes before reads. -/
def TriedBefore (a b : Fin ops.length × Bool) : Prop :=
  (ops.get a.1).invokeTs < (ops.get b.1).invokeTs ∨
    ((ops.get a.1).invokeTs = (ops.get b.1).invokeTs ∧
      ((ops.get b.1).isWrite = true → (ops.get a.1).isWrite = true))

instance : DecidableRel (TriedBefore ops) := fun _ _ => inferInstanceAs (Decidable (_ ∨ _))

/-- Try each candidate, until one leads to success. -/
def tryEach {α : Type} (attempt : α → List ℕ → Bool × List ℕ) :
    List α → List ℕ → Bool × List ℕ
  | [], linearization => (false, linearization)
  | c :: cs, linearization =>
      match attempt c linearization with
      | (true, linearization) => (true, linearization)
      | (false, linearization) => tryEach attempt cs linearization

/-- Try one candidate: if it is valid, place it and search on; if that fails, take it back. -/
def attempt
    (searchOn : List (Fin ops.length) → List (Fin ops.length) → RegisterModel → ℕ → List ℕ →
      Bool × List ℕ)
    (required optional : List (Fin ops.length)) (model : RegisterModel) (frontier : ℕ)
    (candidate : Fin ops.length × Bool) (linearization : List ℕ) : Bool × List ℕ :=
  let (candidateIdx, isOptional) := candidate
  let op := ops.get candidateIdx
  let (isValid, newModel) := tryApply op model
  if isValid then
    let newRequired :=
      if isOptional then required else required.filter fun i => i ≠ candidateIdx
    let newOptional :=
      if isOptional then optional.filter fun i => i ≠ candidateIdx else optional
    let newFrontier := max frontier op.invokeTs
    match searchOn newRequired newOptional newModel newFrontier (linearization ++ [op.id]) with
    | (true, linearization) => (true, linearization)
    | (false, linearization) => (false, linearization.dropLast)
  else (false, linearization)

/-- **The search**, with fuel for the operations that are left. -/
def search : ℕ → List (Fin ops.length) → List (Fin ops.length) → RegisterModel → ℕ → List ℕ →
    Bool × List ℕ
  | 0, required, _, _, _, linearization => (required.isEmpty, linearization)
  | fuel + 1, required, optional, model, frontier, linearization =>
      if required.isEmpty then (true, linearization)
      else
        tryEach (attempt ops (search fuel) required optional model frontier)
          ((candidates ops required optional frontier).insertionSort (TriedBefore ops))
          linearization

end Search

/-! ### One key -/

section Check

variable (debug : String → String)

/-- `{:?}` of an optional value. -/
def debugOption : Option String → String
  | some value => "Some(" ++ debug value ++ ")"
  | none => "None"

/-- The value that an operation writes. -/
def writtenValue (op : Operation) : Option String :=
  match op.kind with
  | .write value => some value
  | .read => none

/-- The first fast check: a read of a value that was never written. -/
def neverWritten (ops indeterminateWrites : List Operation) : Option (Option String) :=
  let writtenValues : List (Option String) :=
    none :: (ops.filterMap writtenValue ++ indeterminateWrites.filterMap writtenValue).map some
  ops.findSome? fun op =>
    match op.kind, op.result with
    | .read, .readOk readValue => if readValue ∈ writtenValues then none else some readValue
    | _, _ => none

/-- The second fast check: a read of the initial state that started after a write completed. -/
def staleRead (ops : List Operation) : Option (ℕ × String × ℕ) :=
  ops.findSome? fun readOp =>
    match readOp.kind, readOp.result with
    | .read, .readOk none => ops.findSome? fun writeOp =>
        match writeOp.kind with
        | .write value =>
            if writeOp.completeTs < readOp.invokeTs then
              some (readOp.invokeTs, value, writeOp.completeTs)
            else none
        | .read => none
    | _, _ => none

/-- The writes that failed, as if they had succeeded at the end of the history. -/
def extendIndeterminate (ops indeterminateWrites : List Operation) : List Operation :=
  let maxTs := ((ops ++ indeterminateWrites).map Operation.completeTs).max?.getD 0
  indeterminateWrites.map fun op => { op with completeTs := maxTs, result := .writeOk }

/-- Check if history is linearizable for a single-key register. -/
def checkSingleKey (ops indeterminateWrites : List Operation) : CheckResult :=
  if ops.isEmpty && indeterminateWrites.isEmpty then .linearizable []
  else
    match neverWritten ops indeterminateWrites with
    | some readValue =>
        .notLinearizable ("Read returned value " ++ debugOption debug readValue ++
          " which was never written")
    | none =>
        match staleRead ops with
        | some (readInvoke, value, writeComplete) =>
            .notLinearizable ("Stale read: Read started at " ++ toString readInvoke ++
              " returned None, but write of " ++ debug value ++ " completed at " ++
              toString writeComplete)
        | none =>
            let allOps := ops ++ extendIndeterminate ops indeterminateWrites
            let required := (List.finRange allOps.length).filter fun i => i.val < ops.length
            let optional := (List.finRange allOps.length).filter fun i => ops.length ≤ i.val
            match search allOps allOps.length required optional .new 0 [] with
            | (true, linearization) => .linearizable linearization
            | (false, _) =>
                .notLinearizable ("No valid linearization found: operations cannot be " ++
                  "ordered to satisfy register semantics")

/-! ### Many keys -/

/-- The operations on a key that succeeded. -/
def keyOps (h : History) (key : String) : List Operation :=
  (h.opsForKey key).filter fun op => !op.result.isError

/-- The writes to a key that failed. -/
def indeterminateWrites (h : History) (key : String) : List Operation :=
  (h.opsForKey key).filter fun op => op.isWrite && op.result.isError

/-- The loop over the keys. -/
def checkKeys (h : History) : List String → List ℕ → CheckResult
  | [], allLinearizations => .linearizable allLinearizations
  | key :: keys, allLinearizations =>
      if (keyOps h key).isEmpty && (indeterminateWrites h key).isEmpty then
        checkKeys h keys allLinearizations
      else
        let result := checkSingleKey debug (keyOps h key) (indeterminateWrites h key)
        if !result.isLinearizable then
          .notLinearizable ("Key '" ++ key ++ "': " ++ result.error.getD "")
        else
          match result.linearization with
          | some lin => checkKeys h keys (allLinearizations ++ lin)
          | none => checkKeys h keys allLinearizations

/-- **Check if a multi-key history is linearizable**, with its keys in the order in which the hash
set lists them. -/
def check (keys : List String) (h : History) : CheckResult :=
  if keys.isEmpty then .linearizable [] else checkKeys debug h keys []

end Check

end LinearizabilityChecker

end RaftVibe
