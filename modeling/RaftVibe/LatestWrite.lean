/-
**A read answers the latest write.**

The list of entries that explains the responses is a list of commands, and what a read is answered is
the store after some of them.  A client does not know these texts.  What it sees is keys and values:
the value that it reads is that of the latest `POST` or `DELETE` of its key that stands before the
place of the read, whoever sent it.  This takes the way back from the texts to the requests, which is
there as long as nobody writes a key with a blank.

Main definitions:

* `RaftVibe.LatestWrite` — a value is that of the latest write;
* `RaftVibe.KvRequest.Writes` — what a request is to write;
* `RaftVibe.Service.Wrote` — what the request of an entry wrote.

Main results:

* `RaftVibe.latestWrite_of_steps` — a value that only writes change is that of the latest one;
* `RaftVibe.Service.Linearizes.writes_or_keeps` — **one entry writes the key or keeps its value**;
* `RaftVibe.Service.run_get_latest` — **a read answers the latest write of its key**.
-/

import RaftVibe.HttpLinearizability

set_option relaxedAutoImplicit false
set_option autoImplicit false

namespace RaftVibe

open Runs

/-! ### The latest write -/

section Latest

variable {V : Type} {Writes : ℕ → V → Prop} {initial : V}

/-- The value after `n` steps is that of the latest write, or the initial one if there is none. -/
def LatestWrite (Writes : ℕ → V → Prop) (initial : V) (n : ℕ) (v : V) : Prop :=
  (v = initial ∧ ∀ k < n, ∀ w, ¬ Writes k w) ∨
    ∃ j < n, Writes j v ∧ ∀ k, j < k → k < n → ∀ w, ¬ Writes k w

theorem LatestWrite.zero : LatestWrite Writes initial 0 initial := by
  left
  exact ⟨rfl, fun k hk => absurd hk (Nat.not_lt_zero k)⟩

/-- A write is the latest one at once. -/
theorem LatestWrite.of_write {n : ℕ} {v : V} (h : Writes n v) :
    LatestWrite Writes initial (n + 1) v := by
  right
  exact ⟨n, Nat.lt_succ_self n, h, fun k hnk hk => by omega⟩

/-- What is no write leaves it the latest one. -/
theorem LatestWrite.keep {n : ℕ} {v : V} (h : LatestWrite Writes initial n v)
    (hno : ∀ w, ¬ Writes n w) : LatestWrite Writes initial (n + 1) v := by
  rcases h with ⟨hv, hnone⟩ | ⟨j, hj, hwrite, hnone⟩
  · left
    refine ⟨hv, fun k hk => ?_⟩
    rcases Nat.lt_succ_iff_lt_or_eq.1 hk with hlt | rfl
    · exact hnone k hlt
    · exact hno
  · right
    refine ⟨j, by omega, hwrite, fun k hjk hk => ?_⟩
    rcases Nat.lt_succ_iff_lt_or_eq.1 hk with hlt | rfl
    · exact hnone k hjk hlt
    · exact hno

/-- A value that only writes change is that of the latest write. -/
theorem latestWrite_of_steps (value : ℕ → V) {n : ℕ}
    (h : ∀ k < n, Writes k (value (k + 1)) ∨ (value (k + 1) = value k ∧ ∀ w, ¬ Writes k w)) :
    LatestWrite Writes (value 0) n (value n) := by
  induction n with
  | zero => exact .zero
  | succ n ih =>
      rcases h n (Nat.lt_succ_self n) with hwrite | ⟨hsame, hno⟩
      · exact .of_write hwrite
      · rw [hsame]
        exact (ih fun k hk => h k (by omega)).keep hno

end Latest

/-! ### What a request writes -/

namespace KvRequest

/-- The request is to give the key this value, or none. -/
def Writes : KvRequest → String → Option String → Prop
  | get _, _, _ => False
  | set key' value', key, value => key' = key ∧ value = some value'
  | delete key', key, value => key' = key ∧ value = none

/-- The request writes no key with a blank. -/
def Plain : KvRequest → Prop
  | get _ => True
  | set key _ => ' ' ∉ key.toList
  | delete key => ' ' ∉ key.toList

instance (request : KvRequest) : Decidable request.Plain := by
  cases request <;> unfold Plain <;> infer_instance

variable {formats : KvFormats} {request : KvRequest} {command : String}

theorem command_ne_noop : request.command ≠ some noopCommand := by
  intro h
  cases request with
  | get key => cases h
  | set key value => exact kvSetCommand_ne_noop (Option.some.inj h)
  | delete key => exact kvDeleteCommand_ne_noop (Option.some.inj h)

/-- **The command of a request writes what the request says**, and keeps the other keys. -/
theorem writes_or_keeps (hplain : request.Plain) (hcommand : request.command = some command)
    (kv : KeyValueStore) (key : String) :
    request.Writes key ((kv.apply command).1.get key) ∨
      ((kv.apply command).1.get key = kv.get key ∧ ∀ value, ¬ request.Writes key value) := by
  cases request with
  | get key' => cases hcommand
  | set key' value' =>
      obtain rfl := Option.some.inj hcommand
      rw [KeyValueStore.apply_set hplain]
      by_cases hkey : key' = key
      · subst hkey
        exact Or.inl ⟨rfl, KeyValueStore.get_insert_self⟩
      · exact Or.inr ⟨KeyValueStore.get_insert_of_ne (Ne.symm hkey), fun _ h => hkey h.1⟩
  | delete key' =>
      obtain rfl := Option.some.inj hcommand
      rw [KeyValueStore.apply_delete hplain]
      by_cases hkey : key' = key
      · subst hkey
        exact Or.inl ⟨rfl, KeyValueStore.get_remove_self⟩
      · exact Or.inr ⟨KeyValueStore.get_remove_of_ne (Ne.symm hkey), fun _ h => hkey h.1⟩

end KvRequest

/-! ### Reads -/

namespace Service

variable {σ : Type} {formats : KvFormats} {sv sv' : Service σ formats} {ℓ : List LogEntry}

/-- The request to which the entry after the first `k` belongs writes the key. -/
def Wrote (sv : Service σ formats) (ℓ : List LogEntry) (key : String) (k : ℕ)
    (value : Option String) : Prop :=
  ∃ x id q, ℓ[k]? = some x ∧ sv.requests id = some q ∧ q.entry = some x ∧
    q.request.Writes key value

/-- The store after the first `k` entries. -/
def storeAfter (formats : KvFormats) (ℓ : List LogEntry) (k : ℕ) : KeyValueStore :=
  (foldCommands (.new : SharedKvStore formats) ((ℓ.map LogEntry.command).take k)).store

theorem storeAfter_succ {k : ℕ} {x : LogEntry} (hx : ℓ[k]? = some x) :
    storeAfter formats ℓ (k + 1) = ((storeAfter formats ℓ k).apply x.command).1 := by
  have hcommand : (ℓ.map LogEntry.command)[k]? = some x.command := by
    rw [List.getElem?_map, hx, Option.map_some]
  unfold storeAfter
  rw [List.take_add_one, hcommand, foldCommands_append]
  rfl

/-- **One entry writes the key or keeps its value.** -/
theorem Linearizes.writes_or_keeps (h : sv.Linearizes ℓ)
    (hplain : ∀ id q, sv.requests id = some q → q.request.Plain) (key : String) {k : ℕ}
    (hk : k < ℓ.length) :
    sv.Wrote ℓ key k ((storeAfter formats ℓ (k + 1)).get key) ∨
      ((storeAfter formats ℓ (k + 1)).get key = (storeAfter formats ℓ k).get key ∧
        ∀ value, ¬ sv.Wrote ℓ key k value) := by
  have hx : ℓ[k]? = some ℓ[k] := List.getElem?_eq_getElem hk
  rw [storeAfter_succ hx]
  rcases (h.entries k ℓ[k] hx).2 with hnoop | ⟨id, q, hq, hentry, honce⟩
  · -- nobody has sent the command of a new leader
    right
    refine ⟨?_, ?_⟩
    · rw [KeyValueStore.apply, if_pos hnoop]
    · rintro value ⟨x, id, q, hx', hq, hentry, -⟩
      obtain rfl := Option.some.inj (hx.symm.trans hx')
      have hcommand := h.commands id q _ hq hentry
      rw [hnoop] at hcommand
      exact KvRequest.command_ne_noop hcommand
  · rcases KvRequest.writes_or_keeps (hplain id q hq) (h.commands id q _ hq hentry)
      (storeAfter formats ℓ k) key with hwrites | ⟨hsame, hno⟩
    · left
      exact ⟨ℓ[k], id, q, hx, hq, hentry, hwrites⟩
    · right
      refine ⟨hsame, ?_⟩
      rintro value ⟨x, id', q', hx', hq', hentry', hwrites⟩
      obtain rfl := Option.some.inj (hx.symm.trans hx')
      obtain rfl := honce id' q' hq' hentry'
      obtain rfl := Option.some.inj (hq.symm.trans hq')
      exact hno value hwrites

/-- What the store holds is the latest write. -/
theorem Linearizes.latestWrite (h : sv.Linearizes ℓ)
    (hplain : ∀ id q, sv.requests id = some q → q.request.Plain) (key : String) {p : ℕ}
    (hp : p ≤ ℓ.length) :
    LatestWrite (sv.Wrote ℓ key) none p ((storeAfter formats ℓ p).get key) :=
  latestWrite_of_steps (fun k => (storeAfter formats ℓ k).get key)
    fun k hk => h.writes_or_keeps hplain key (by omega)

/-- A read that has been answered has the latest write. -/
theorem Linearizes.get_latest (h : sv.Linearizes ℓ)
    (hplain : ∀ id q, sv.requests id = some q → q.request.Plain) {id : ℕ} {q : HttpRequest}
    {key : String} {body : HttpBody} (hq : sv.requests id = some q) (hget : q.request = .get key)
    (hbody : q.stage = .answered (.ok body)) :
    ∃ p time value, q.point = some (p, time) ∧ body = .get ⟨key, value⟩ ∧
      LatestWrite (sv.Wrote ℓ key) none p value := by
  obtain ⟨⟨p, time⟩, hpoint⟩ := Option.isSome_iff_exists.1 (h.answered id q body hq hbody)
  obtain ⟨-, -, hplaced⟩ := h.placed id q p time hq hpoint
  unfold HttpRequest.PlacedAt at hplaced
  rw [hget] at hplaced
  obtain ⟨hp, hstage⟩ := hplaced
  rw [hbody] at hstage
  have hresponse := RequestStage.answered.inj hstage
  exact ⟨p, time, _, hpoint, Except.ok.inj hresponse, h.latestWrite hplain key hp⟩

variable [Storage σ] [formats.Lawful] [LawfulStorage σ] [DurableSnapshots σ]
  {ts : List (Transition (Service σ formats) ServiceAction)}

/-- **A read answers the latest write of its key**, in every run in which nodes compact their logs,
install snapshots, crash and come back, as long as nobody is misled and nobody writes a key with a
blank. -/
theorem run_get_latest (hinit : sv.Initial) (hr : Run step sv ts sv')
    (hok : ∀ t ∈ ts, ¬ t.source.Misleads t.action)
    (hplain : ∀ id q, sv'.requests id = some q → q.request.Plain) :
    ∃ ℓ : List LogEntry, sv'.Linearizes ℓ ∧ ∀ id q key body, sv'.requests id = some q →
      q.request = .get key → q.stage = .answered (.ok body) →
      ∃ p time value, q.point = some (p, time) ∧ body = .get ⟨key, value⟩ ∧
        LatestWrite (sv'.Wrote ℓ key) none p value := by
  obtain ⟨us, H, ℓ, A, hknows⟩ := run_knows hinit hr hok
  refine ⟨ℓ, hknows.linearizes, fun id q key body hq hget hbody => ?_⟩
  exact hknows.linearizes.get_latest hplain hq hget hbody

omit [Storage σ] [formats.Lawful] [LawfulStorage σ] [DurableSnapshots σ] in
/-- The write of one client is the latest one that the other reads. -/
theorem run_get_latest_crashed : ∃ (ts : List _) (sv : Service StorageContents noFormats)
    (ℓ : List LogEntry), Run step threeStores ts sv ∧ sv.Linearizes ℓ ∧
      LatestWrite (sv.Wrote ℓ "x") none 2 (some "1") := by
  obtain ⟨ts, sv, hr, hok, hplain, q, hq, hget, hbody, hpoint⟩ := exists_run_of_play step chooseService
    threeStores setAndGet (P := fun ts sv => (∀ t ∈ ts, ¬ t.source.Misleads t.action) ∧
      (∀ id < sv.count, ∀ q ∈ sv.requests id, q.request.Plain) ∧
      ∃ q ∈ sv.requests 1, q.request = .get "x" ∧
        q.stage = .answered (.ok (.get ⟨"x", some "1"⟩)) ∧ q.point = some (2, 6))
    (by decide +kernel)
  obtain ⟨us, H, ℓ, A, hknows⟩ := run_knows threeStores_initial hr hok
  obtain ⟨ℓ, hℓ, hlatest⟩ := run_get_latest threeStores_initial hr hok fun id q hq => by
    rcases Nat.lt_or_ge id sv.count with hid | hid
    · exact hplain id hid q hq
    · rw [hknows.unused id hid] at hq
      cases hq
  obtain ⟨p, time, value, hpoint', hvalue, hlatest⟩ := hlatest 1 q "x" _ hq hget hbody
  obtain ⟨rfl, -⟩ := Prod.mk.inj (Option.some.inj (hpoint.symm.trans hpoint'))
  obtain rfl := (KvGetResponse.mk.inj (HttpBody.get.inj hvalue)).2
  exact ⟨ts, sv, ℓ, hr, hℓ, hlatest⟩

end Service

end RaftVibe
