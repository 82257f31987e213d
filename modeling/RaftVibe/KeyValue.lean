/-
**The key-value store and its HTTP interface.**

`api/client_http.rs` writes a request as the text of a command, and `state_machine/kv.rs` takes the
text apart at its first two blanks.  The value comes last, so it may have blanks.  A key may not: the
path of a request is percent-decoded, and nothing escapes the blanks of a key.  A `SET` of such a key
sets the part before its first blank, and a `DELETE` has three parts and is no command.

Main definitions:

* `RaftVibe.KeyValueStore` — the store, a state machine;
* `RaftVibe.kvSetCommand`, `RaftVibe.kvDeleteCommand` — the commands of the two requests;
* `RaftVibe.SetFaithful`, `RaftVibe.DeleteFaithful` — a request does what it says.

Main results:

* `RaftVibe.KeyValueStore.apply_set_of_blank` — **what is set in place of a key with a blank**;
* `RaftVibe.faithful_iff` — when requests do what they say.
-/

import Mathlib
import RaftVibe.StateMachine
import RaftVibe.Text
import RaftVibe.Types

set_option relaxedAutoImplicit false
set_option autoImplicit false

namespace RaftVibe

/-! ### The store -/

/-- Simple in-memory key-value store. -/
structure KeyValueStore where
  data : String → Option String

/-- `command.splitn(3, ' ')`. -/
def commandParts (command : String) : List String :=
  (Text.splitN ' ' 3 command.toList).map String.ofList

namespace KeyValueStore

def new : KeyValueStore := ⟨fun _ => none⟩

def get (kv : KeyValueStore) (key : String) : Option String := kv.data key

/-- `HashMap::insert`. -/
def insert (kv : KeyValueStore) (key value : String) : KeyValueStore :=
  ⟨Function.update kv.data key (some value)⟩

/-- `HashMap::remove`. -/
def remove (kv : KeyValueStore) (key : String) : KeyValueStore :=
  ⟨Function.update kv.data key none⟩

def unknownCommand (command : String) : String := "unknown command: " ++ command

def validate (_ : KeyValueStore) (command : String) : Except String Unit :=
  if command = noopCommand then .ok ()
  else
    match commandParts command with
    | ["SET", _, _] => .ok ()
    | ["DELETE", _] => .ok ()
    | _ => .error (unknownCommand command)

def apply (kv : KeyValueStore) (command : String) : KeyValueStore × ApplyResult :=
  if command = noopCommand then (kv, .ok "")
  else
    match commandParts command with
    | ["SET", key, value] => (kv.insert key value, .ok "")
    | ["DELETE", key] =>
        (kv.remove key, if (kv.get key).isSome then .ok "" else .error "NOT_FOUND")
    | _ => (kv, .error (unknownCommand command))

instance : StateMachine KeyValueStore where
  validate := validate
  apply := apply

end KeyValueStore

/-! ### The requests -/

/-- The command of `POST /kv/:key`. -/
def kvSetCommand (key value : String) : String := "SET " ++ key ++ " " ++ value

/-- The command of `DELETE /kv/:key`. -/
def kvDeleteCommand (key : String) : String := "DELETE " ++ key

example : (KeyValueStore.new.apply (kvSetCommand "greeting" "hello world")).1.get "greeting" =
    some "hello world" := by decide +kernel

section Parts

variable {key value : String}

theorem commandParts_of_toList {command : String} {s t u : List Char}
    (h : command.toList = s ++ ' ' :: (t ++ ' ' :: u)) (hs : ' ' ∉ s) (ht : ' ' ∉ t) :
    commandParts command = [String.ofList s, String.ofList t, String.ofList u] := by
  rw [commandParts, h, Text.splitN_append hs, Text.splitN_append ht]
  rfl

theorem commandParts_of_notMem {command : String} {s t : List Char}
    (h : command.toList = s ++ ' ' :: t) (hs : ' ' ∉ s) (ht : ' ' ∉ t) :
    commandParts command = [String.ofList s, String.ofList t] := by
  rw [commandParts, h, Text.splitN_append hs, Text.splitN_of_notMem ht]
  rfl

/-- The parts of a `SET` of a key without a blank. -/
theorem commandParts_set (h : ' ' ∉ key.toList) :
    commandParts (kvSetCommand key value) = ["SET", key, value] := by
  have hlist : (kvSetCommand key value).toList =
      ['S', 'E', 'T'] ++ ' ' :: (key.toList ++ ' ' :: value.toList) := by
    simp [kvSetCommand]
  rw [commandParts_of_toList hlist (by decide) h, String.ofList_toList, String.ofList_toList]

/-- A key with a blank is split there. -/
theorem commandParts_set_of_blank {before after : String} (h : ' ' ∉ before.toList) :
    commandParts (kvSetCommand (before ++ " " ++ after) value) =
      ["SET", before, after ++ " " ++ value] := by
  have hsame : kvSetCommand (before ++ " " ++ after) value =
      kvSetCommand before (after ++ " " ++ value) := by
    simp [kvSetCommand, String.append_assoc]
  rw [hsame, commandParts_set h]

theorem commandParts_delete (h : ' ' ∉ key.toList) :
    commandParts (kvDeleteCommand key) = ["DELETE", key] := by
  have hlist : (kvDeleteCommand key).toList =
      ['D', 'E', 'L', 'E', 'T', 'E'] ++ ' ' :: key.toList := by
    simp [kvDeleteCommand]
  rw [commandParts_of_notMem hlist (by decide) h, String.ofList_toList]

theorem commandParts_delete_of_blank {before after : String} (h : ' ' ∉ before.toList) :
    commandParts (kvDeleteCommand (before ++ " " ++ after)) = ["DELETE", before, after] := by
  have hlist : (kvDeleteCommand (before ++ " " ++ after)).toList =
      ['D', 'E', 'L', 'E', 'T', 'E'] ++ ' ' :: (before.toList ++ ' ' :: after.toList) := by
    simp [kvDeleteCommand]
  rw [commandParts_of_toList hlist (by decide) h, String.ofList_toList, String.ofList_toList]

theorem kvSetCommand_ne_noop : kvSetCommand key value ≠ noopCommand := by
  intro h
  have := congrArg String.toList h
  simp [kvSetCommand, noopCommand] at this

theorem kvDeleteCommand_ne_noop : kvDeleteCommand key ≠ noopCommand := by
  intro h
  have := congrArg String.toList h
  simp [kvDeleteCommand, noopCommand] at this

/-- A key with a blank has a first one. -/
theorem exists_first_blank (h : ' ' ∈ key.toList) :
    ∃ before after, key = before ++ " " ++ after ∧ ' ' ∉ before.toList := by
  obtain ⟨s, t, hst, hs⟩ := List.eq_append_cons_of_mem h
  refine ⟨String.ofList s, String.ofList t, ?_, by simpa using hs⟩
  apply String.toList_inj.1
  simp [hst]

end Parts

/-! ### What the requests do -/

namespace KeyValueStore

variable {kv : KeyValueStore} {key key' value : String}

theorem get_insert_self : (kv.insert key value).get key = some value :=
  Function.update_self _ _ _

theorem get_insert_of_ne (h : key' ≠ key) : (kv.insert key value).get key' = kv.get key' :=
  Function.update_of_ne h _ _

theorem get_remove_self : (kv.remove key).get key = none :=
  Function.update_self _ _ _

theorem get_remove_of_ne (h : key' ≠ key) : (kv.remove key).get key' = kv.get key' :=
  Function.update_of_ne h _ _

/-- Removing a key that is not there changes nothing. -/
theorem remove_of_get_none (h : kv.get key = none) : kv.remove key = kv := by
  cases kv with
  | mk data =>
      have hdata : data key = none := h
      rw [remove, ← hdata, Function.update_eq_self]

theorem apply_set (h : ' ' ∉ key.toList) :
    kv.apply (kvSetCommand key value) = (kv.insert key value, .ok "") := by
  rw [apply, if_neg kvSetCommand_ne_noop, commandParts_set h]
  rfl

/-- **What is set in place of a key with a blank**: the part before it. -/
theorem apply_set_of_blank (before after : String) (h : ' ' ∉ before.toList) :
    kv.apply (kvSetCommand (before ++ " " ++ after) value) =
      (kv.insert before (after ++ " " ++ value), .ok "") := by
  rw [apply, if_neg kvSetCommand_ne_noop, commandParts_set_of_blank h]
  rfl

theorem apply_delete (h : ' ' ∉ key.toList) :
    kv.apply (kvDeleteCommand key) =
      (kv.remove key, if (kv.get key).isSome then .ok "" else .error "NOT_FOUND") := by
  rw [apply, if_neg kvDeleteCommand_ne_noop, commandParts_delete h]
  rfl

theorem validate_set : kv.validate (kvSetCommand key value) = .ok () := by
  rw [validate, if_neg kvSetCommand_ne_noop]
  by_cases h : ' ' ∈ key.toList
  · obtain ⟨before, after, rfl, hbefore⟩ := exists_first_blank h
    rw [commandParts_set_of_blank hbefore]
    rfl
  · rw [commandParts_set h]
    rfl

/-- A `DELETE` of a key with a blank is no command. -/
theorem validate_delete_of_blank (h : ' ' ∈ key.toList) :
    kv.validate (kvDeleteCommand key) = .error (unknownCommand (kvDeleteCommand key)) := by
  obtain ⟨before, after, rfl, hbefore⟩ := exists_first_blank h
  rw [validate, if_neg kvDeleteCommand_ne_noop, commandParts_delete_of_blank hbefore]
  rfl

theorem validate_delete (h : ' ' ∉ key.toList) : kv.validate (kvDeleteCommand key) = .ok () := by
  rw [validate, if_neg kvDeleteCommand_ne_noop, commandParts_delete h]
  rfl

end KeyValueStore

/-- A `SET` request is valid, and sets exactly this key to this value. -/
structure SetFaithful (kv : KeyValueStore) (key value : String) : Prop where
  valid : kv.validate (kvSetCommand key value) = .ok ()
  result : ∃ output, (kv.apply (kvSetCommand key value)).2 = .ok output
  sets : (kv.apply (kvSetCommand key value)).1.get key = some value
  others : ∀ key' ≠ key, (kv.apply (kvSetCommand key value)).1.get key' = kv.get key'

/-- A `DELETE` request is valid, and removes exactly this key, or it finds none and changes nothing. -/
structure DeleteFaithful (kv : KeyValueStore) (key : String) : Prop where
  valid : kv.validate (kvDeleteCommand key) = .ok ()
  present : (kv.get key).isSome → (∃ output, (kv.apply (kvDeleteCommand key)).2 = .ok output) ∧
    (kv.apply (kvDeleteCommand key)).1.get key = none ∧
    ∀ key' ≠ key, (kv.apply (kvDeleteCommand key)).1.get key' = kv.get key'
  absent : kv.get key = none → kv.apply (kvDeleteCommand key) = (kv, .error "NOT_FOUND")

section Faithful

variable {kv : KeyValueStore} {key value : String}

theorem setFaithful_of_notMem (h : ' ' ∉ key.toList) : SetFaithful kv key value where
  valid := KeyValueStore.validate_set
  result := ⟨"", by rw [KeyValueStore.apply_set h]⟩
  sets := by
    rw [KeyValueStore.apply_set h]
    exact KeyValueStore.get_insert_self
  others key' hne := by
    rw [KeyValueStore.apply_set h]
    exact KeyValueStore.get_insert_of_ne hne

/-- A `SET` of a key with a blank changes nothing only if it has nothing to change. -/
theorem SetFaithful.of_blank {before after : String} (hbefore : ' ' ∉ before.toList)
    (h : SetFaithful kv (before ++ " " ++ after) value) :
    kv.get (before ++ " " ++ after) = some value ∧
      kv.get before = some (after ++ " " ++ value) := by
  have hne : before ≠ before ++ " " ++ after := by
    intro heq
    rw [heq] at hbefore
    simp at hbefore
  have hvalue := h.sets
  have hothers := h.others before hne
  rw [KeyValueStore.apply_set_of_blank before after hbefore] at hvalue hothers
  rw [KeyValueStore.get_insert_of_ne hne.symm] at hvalue
  rw [KeyValueStore.get_insert_self] at hothers
  exact ⟨hvalue, hothers.symm⟩

theorem deleteFaithful_iff : DeleteFaithful kv key ↔ ' ' ∉ key.toList := by
  constructor
  · intro h hblank
    have hvalid := h.valid
    rw [KeyValueStore.validate_delete_of_blank hblank] at hvalid
    cases hvalid
  · intro h
    refine ⟨KeyValueStore.validate_delete h, fun hsome => ?_, fun hnone => ?_⟩
    · rw [KeyValueStore.apply_delete h, if_pos hsome]
      exact ⟨⟨"", rfl⟩, KeyValueStore.get_remove_self,
        fun _ hne => KeyValueStore.get_remove_of_ne hne⟩
    · rw [KeyValueStore.apply_delete h, hnone, KeyValueStore.remove_of_get_none hnone]
      rfl

/-- **When requests do what they say**: both for a key, and each of them on its own. -/
theorem faithful_iff (key : String) :
    (∀ kv value, (SetFaithful kv key value ∧ DeleteFaithful kv key) ↔ ' ' ∉ key.toList) ∧
      ((∀ kv value, SetFaithful kv key value) ↔ ' ' ∉ key.toList) ∧
      ∀ kv, (DeleteFaithful kv key ↔ ' ' ∉ key.toList) := by
  refine ⟨fun kv value => ⟨fun h => deleteFaithful_iff.1 h.2, fun h => ?_⟩, ⟨fun h hblank => ?_, ?_⟩,
    fun kv => deleteFaithful_iff⟩
  · exact ⟨setFaithful_of_notMem h, deleteFaithful_iff.2 h⟩
  · -- an empty store has something to change
    obtain ⟨before, after, rfl, hbefore⟩ := exists_first_blank hblank
    obtain ⟨hvalue, -⟩ := (h KeyValueStore.new "").of_blank hbefore
    cases hvalue
  · intro h kv value
    exact setFaithful_of_notMem h

/-- The name `Jane Doe` sets `Jane`, and cannot be deleted. -/
theorem blank_unfaithful :
    (KeyValueStore.new.apply (kvSetCommand "Jane Doe" "1")).1.get "Jane Doe" = none ∧
      (KeyValueStore.new.apply (kvSetCommand "Jane Doe" "1")).1.get "Jane" = some "Doe 1" ∧
      ¬ SetFaithful KeyValueStore.new "Jane Doe" "1" ∧
      KeyValueStore.new.validate (kvDeleteCommand "Jane Doe") =
        .error "unknown command: DELETE Jane Doe" ∧
      ¬ DeleteFaithful KeyValueStore.new "Jane Doe" := by
  have hnotMem : ' ' ∉ "Jane".toList := by decide
  have hset : KeyValueStore.new.apply (kvSetCommand "Jane Doe" "1") =
      (KeyValueStore.new.insert "Jane" "Doe 1", .ok "") :=
    KeyValueStore.apply_set_of_blank "Jane" "Doe" hnotMem
  have hget : (KeyValueStore.new.apply (kvSetCommand "Jane Doe" "1")).1.get "Jane Doe" = none := by
    rw [hset]
    exact KeyValueStore.get_insert_of_ne (by decide)
  refine ⟨hget, ?_, fun h => ?_, ?_, fun h => ?_⟩
  · rw [hset]
    exact KeyValueStore.get_insert_self
  · rw [h.sets] at hget
    cases hget
  · exact KeyValueStore.validate_delete_of_blank (by decide)
  · exact deleteFaithful_iff.1 h (by decide)

end Faithful

end RaftVibe
