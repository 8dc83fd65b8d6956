import Olric.Dmap.Lock

/-!
# Dmap/Protocol — one lock key at its owner, as a step system

The state is what the owner stores at the lock key (absent, or a token with an absolute expiry,
none for `nilTimeout`), a clock, the fine-grained locker, and the clients: acquisitions, one per
token (the tokens `lockKey` draws are fresh), and unlock calls, by call id.  A step is one atomic
action of one party:

* `draw T ttl`: `lockKey` draws the fresh token `T`; `attempt T`: one conditional put of
  `tryLock`, which stores `T` iff the key is absent or expired, and otherwise writes nothing
  (`ErrKeyFound`); `giveUp T`: `tryLock` returns an error.
* `call j T`: `Unlock` of a `LockContext` of `T`; `enter j`: `unlockKey` takes the locker;
  `check j`: its `get` and token comparison; `delete j`: its `deleteKey`, which removes the
  entry; `fail j err`: its `get` or its `deleteKey` fails, changing nothing.
* `tick`: the clock advances; `evict`: an expired entry is removed; `oob v`: another client
  overwrites (`some`) or deletes (`none`) the key out of band.

Readers treat an expired entry as absent (`State.visible`): a conditional put may overwrite it,
and `get` does not return it.  `deleteKey` is not in src; it is atomic here.  An unlock call's
steps return what `unlockKey` of `Dmap/Lock` returns on what its `get` and its `deleteKey` saw
(`step_check_unlockKey`, `step_checked_unlockKey`); over whole runs, a ghost record of what each
call saw, read off the steps, accounts for every call that returned (`Observed.returned_unlockKey`).
-/

namespace Olric.Dmap

/-- A lock token: the 16 random bytes `lockKey` draws, compared with `bytes.Equal`. -/
abbrev Token := List UInt8

/-- What the lock key stores: a token and its absolute expiry, `none` for `nilTimeout`. -/
structure Stored where
  token : Token
  expiry : Option Nat
deriving DecidableEq, Repr

/-- An expiry that has not passed at `clock`. -/
def unexpired : Option Nat → Nat → Bool
  | none, _ => true
  | some x, clock => decide (clock < x)

/-- The expiry a put with TTL `ttl` at `clock` stores: the TTL `nilTimeout = 0` never
expires. -/
def expiryOf (ttl clock : Nat) : Option Nat := if ttl = 0 then none else some (clock + ttl)

/-- Where the acquisition of a token is. -/
inductive Acq where
  /-- the token has not been drawn -/
  | idle
  /-- `tryLock` runs, with this TTL -/
  | trying (ttl : Nat)
  /-- `lockKey` returned a `LockContext`, whose acquisition expires at `expiry` -/
  | granted (expiry : Option Nat)
  /-- an `Unlock` of its `LockContext` returned nil -/
  | released
  /-- `tryLock` returned an error -/
  | failed
deriving DecidableEq, Repr

/-- A `LockContext` of the token has been handed out. -/
def Acq.handedOut : Acq → Bool
  | .granted _ | .released => true
  | _ => false

/-- Where an unlock call is. -/
inductive Phase where
  /-- waiting for the fine-grained locker -/
  | waiting
  /-- holding the locker, before `get` -/
  | locked
  /-- `get` returned `rec`, whose token is the call's; before `deleteKey` -/
  | checked (rec : Stored)
  /-- returned, the locker released -/
  | done (r : Except Error Unit)

/-- The call holds the fine-grained locker. -/
def Phase.holdsLocker : Phase → Bool
  | .locked | .checked _ => true
  | _ => false

/-- An unlock call: the token it presents and where it is. -/
structure Call where
  token : Token
  phase : Phase

/-- The lock key at its owner, and the clients. -/
structure State where
  entry : Option Stored
  clock : Nat
  /-- the call holding the fine-grained locker -/
  locker : Option Nat
  acq : Token → Acq
  calls : Nat → Option Call

/-- An atomic action of one party. -/
inductive Act where
  | draw (T : Token) (ttl : Nat)
  | attempt (T : Token)
  | giveUp (T : Token)
  | call (j : Nat) (T : Token)
  | enter (j : Nat)
  | check (j : Nat)
  | delete (j : Nat)
  | fail (j : Nat) (err : DMapError)
  | tick
  | evict
  | oob (v : Option Stored)
deriving DecidableEq, Repr

namespace State

/-- The entry a reader sees: an expired one counts as absent. -/
def visible (s : State) : Option Stored := s.entry.filter fun rec => unexpired rec.expiry s.clock

/-- Call `j` returns `r` and releases the locker. -/
def finish (s : State) (j : Nat) (T : Token) (r : Except Error Unit) : State :=
  { s with locker := none, calls := Function.update s.calls j (some ⟨T, .done r⟩) }

/-- The conditional put of `T` succeeded. -/
def grant (s : State) (T : Token) (ttl : Nat) : State :=
  { s with entry := some ⟨T, expiryOf ttl s.clock⟩,
           acq := Function.update s.acq T (.granted (expiryOf ttl s.clock)) }

end State

/-- **One step** of the protocol; `none` when the action is not enabled. -/
def step (s : State) : Act → Option State
  | .draw T ttl =>
    if s.acq T = .idle then some { s with acq := Function.update s.acq T (.trying ttl) } else none
  | .attempt T =>
    match s.acq T with
    | .trying ttl => if s.visible = none then some (s.grant T ttl) else some s
    | _ => none
  | .giveUp T =>
    match s.acq T with
    | .trying _ => some { s with acq := Function.update s.acq T .failed }
    | _ => none
  | .call j T =>
    if (s.calls j).isNone && (s.acq T).handedOut then
      some { s with calls := Function.update s.calls j (some ⟨T, .waiting⟩) }
    else none
  | .enter j =>
    match s.calls j, s.locker with
    | some ⟨T, .waiting⟩, none =>
      some { s with locker := some j, calls := Function.update s.calls j (some ⟨T, .locked⟩) }
    | _, _ => none
  | .check j =>
    match s.calls j with
    | some ⟨T, .locked⟩ =>
      match s.visible with
      | some rec =>
        if rec.token = T then
          some { s with calls := Function.update s.calls j (some ⟨T, .checked rec⟩) }
        else some (s.finish j T (.error .noSuchLock))
      | none => some (s.finish j T (.error .noSuchLock))
    | _ => none
  | .delete j =>
    match s.calls j with
    | some ⟨T, .checked _⟩ =>
      some { s.finish j T (.ok ()) with entry := none, acq := Function.update s.acq T .released }
    | _ => none
  | .fail j err =>
    match s.calls j with
    | some ⟨T, .locked⟩ =>
      if err = .keyNotFound then none else some (s.finish j T (.error (.dmap err)))
    | some ⟨T, .checked _⟩ => some (s.finish j T (.error (.unlockFailed err)))
    | _ => none
  | .tick => some { s with clock := s.clock + 1 }
  | .evict =>
    match s.entry with
    | some rec => if unexpired rec.expiry s.clock then none else some { s with entry := none }
    | none => none
  | .oob v => some { s with entry := v }

/-- Nothing stored, nothing drawn, no call. -/
def init : State := ⟨none, 0, none, fun _ => .idle, fun _ => none⟩

/-- The states reachable from `init` by steps the policy `allowed` permits. -/
inductive Reachable (allowed : State → Act → Prop) : State → Prop
  | init : Reachable allowed init
  | step {s s' : State} {a : Act} :
      Reachable allowed s → allowed s a → step s a = some s' → Reachable allowed s'

/-- A run of actions, `none` when one is not enabled. -/
def run : State → List Act → Option State
  | s, [] => some s
  | s, a :: acts => (step s a).bind fun s' => run s' acts

theorem Reachable.run {allowed : State → Act → Prop} {s s' : State} (hr : Reachable allowed s) :
    ∀ {acts : List Act}, (∀ a ∈ acts, ∀ t, allowed t a) → Dmap.run s acts = some s' →
      Reachable allowed s'
  | [], _, h => by cases h; exact hr
  | a :: acts, ha, h => by
    obtain ⟨t, ht, h⟩ := Option.bind_eq_some.mp h
    exact (Reachable.step hr (ha a (List.mem_cons_self _ _) s) ht).run
      (fun b hb => ha b (List.mem_cons_of_mem _ hb)) h

/-- …for a run whose every action a policy permits in any state, as `p` decides. -/
theorem Reachable.run_of_all {allowed : State → Act → Prop} {p : Act → Bool}
    (hp : ∀ t a, p a = true → allowed t a) {s s' : State} (hr : Reachable allowed s)
    {acts : List Act} (hall : acts.all p) (h : Dmap.run s acts = some s') : Reachable allowed s' :=
  hr.run (fun a ha t => hp t a (List.all_eq_true.mp hall a ha)) h

/-! ## Policies -/

/-- The actions of the lock's own parties: no out-of-band write. -/
def Act.isCore : Act → Bool
  | .oob _ => false
  | _ => true

/-- An action of the lock's own parties that draws no token with a TTL. -/
def Act.nilTimeout : Act → Bool
  | .draw _ ttl => ttl == 0
  | a => a.isCore

theorem Act.isCore_of_nilTimeout {a : Act} (h : a.nilTimeout) : a.isCore := by
  cases a <;> simp_all [Act.nilTimeout, Act.isCore]

/-- The lock's own parties. -/
def Core (_ : State) (a : Act) : Prop := a.isCore

/-- The lock's own parties, with every `deleteKey` removing an entry that holds the deleting
call's token. -/
def Fenced (s : State) (a : Act) : Prop :=
  a.isCore ∧ ∀ j, a = .delete j → ∃ c, s.calls j = some c ∧ s.entry.map Stored.token = some c.token

/-- The lock's own parties, every acquisition with `nilTimeout` (`Lock`, not
`LockWithTimeout`). -/
def NilTimeout (_ : State) (a : Act) : Prop := a.nilTimeout

/-- The client of `T` holds a `LockContext` whose acquisition has not expired, and it has not
released it. -/
def Holds (s : State) (T : Token) : Prop := ∃ e, s.acq T = .granted e ∧ unexpired e s.clock = true

/-! ## Expiry -/

/-- An expiry that has not passed has not passed a tick earlier. -/
theorem unexpired_of_succ {e : Option Nat} {clock : Nat} (h : unexpired e (clock + 1) = true) :
    unexpired e clock = true := by
  cases e <;> simp_all [unexpired]; omega

theorem State.entry_of_visible {s : State} {rec : Stored} (h : s.visible = some rec) :
    s.entry = some rec ∧ unexpired rec.expiry s.clock = true :=
  Option.filter_eq_some.mp h

/-- When a reader sees nothing, what is stored has expired. -/
theorem State.expired_of_visible_eq_none {s : State} (h : s.visible = none) {rec : Stored}
    (he : s.entry = some rec) : unexpired rec.expiry s.clock = false := by
  simp only [State.visible, he, Option.filter_eq_none, Option.mem_def, Option.some.injEq,
    forall_eq', reduceCtorEq, false_or] at h
  simpa using h

/-! ## What each step does

One inversion lemma per action: what a step that happened required, and the state it left.
The invariants of `Dmap/Exclusion` are proved from these alone. -/

section Inversion

variable {s s' : State}

theorem step_draw {T : Token} {ttl : Nat} (h : step s (.draw T ttl) = some s') :
    s.acq T = .idle ∧ s' = { s with acq := Function.update s.acq T (.trying ttl) } := by
  simp only [step] at h
  split_ifs at h with hi
  exact ⟨hi, (Option.some.inj h).symm⟩

theorem step_attempt {T : Token} (h : step s (.attempt T) = some s') :
    ∃ ttl, s.acq T = .trying ttl ∧ (s.visible = none ∧ s' = s.grant T ttl ∨ s' = s) := by
  simp only [step] at h
  split at h
  · rename_i ttl hT
    split_ifs at h with hv
    · exact ⟨ttl, hT, .inl ⟨hv, (Option.some.inj h).symm⟩⟩
    · exact ⟨ttl, hT, .inr (Option.some.inj h).symm⟩
  · cases h

theorem step_giveUp {T : Token} (h : step s (.giveUp T) = some s') :
    (∃ ttl, s.acq T = .trying ttl) ∧ s' = { s with acq := Function.update s.acq T .failed } := by
  simp only [step] at h
  split at h
  · exact ⟨⟨_, ‹_›⟩, (Option.some.inj h).symm⟩
  · cases h

theorem step_call {j : Nat} {T : Token} (h : step s (.call j T) = some s') :
    s.calls j = none ∧ (s.acq T).handedOut ∧
      s' = { s with calls := Function.update s.calls j (some ⟨T, .waiting⟩) } := by
  simp only [step] at h
  split_ifs at h with hc
  simp only [Bool.and_eq_true, Option.isNone_iff_eq_none] at hc
  exact ⟨hc.1, hc.2, (Option.some.inj h).symm⟩

theorem step_enter {j : Nat} (h : step s (.enter j) = some s') :
    ∃ T, s.calls j = some ⟨T, .waiting⟩ ∧ s.locker = none ∧
      s' = { s with locker := some j, calls := Function.update s.calls j (some ⟨T, .locked⟩) } := by
  simp only [step] at h
  split at h
  · exact ⟨_, ‹_›, ‹_›, (Option.some.inj h).symm⟩
  · cases h

theorem step_check {j : Nat} (h : step s (.check j) = some s') :
    ∃ T, s.calls j = some ⟨T, .locked⟩ ∧
      ((∃ rec, s.visible = some rec ∧ rec.token = T ∧
          s' = { s with calls := Function.update s.calls j (some ⟨T, .checked rec⟩) }) ∨
        s' = s.finish j T (.error .noSuchLock)) := by
  simp only [step] at h
  split at h
  · rename_i T hj
    refine ⟨T, hj, ?_⟩
    split at h
    · split_ifs at h with ht
      · exact .inl ⟨_, ‹_›, ht, (Option.some.inj h).symm⟩
      · exact .inr (Option.some.inj h).symm
    · exact .inr (Option.some.inj h).symm
  · cases h

theorem step_delete {j : Nat} (h : step s (.delete j) = some s') :
    ∃ T rec, s.calls j = some ⟨T, .checked rec⟩ ∧
      s' = { s.finish j T (.ok ()) with
        entry := none, acq := Function.update s.acq T .released } := by
  simp only [step] at h
  split at h
  · exact ⟨_, _, ‹_›, (Option.some.inj h).symm⟩
  · cases h

theorem step_fail {j : Nat} {err : DMapError} (h : step s (.fail j err) = some s') :
    ∃ c e, s.calls j = some c ∧ c.phase.holdsLocker ∧ s' = s.finish j c.token (.error e) := by
  simp only [step] at h
  split at h
  · split_ifs at h
    exact ⟨⟨_, .locked⟩, _, ‹_›, rfl, (Option.some.inj h).symm⟩
  · exact ⟨⟨_, .checked _⟩, _, ‹_›, rfl, (Option.some.inj h).symm⟩
  · cases h

theorem step_tick (h : step s .tick = some s') : s' = { s with clock := s.clock + 1 } :=
  (Option.some.inj h).symm

theorem step_evict (h : step s .evict = some s') :
    ∃ rec, s.entry = some rec ∧ unexpired rec.expiry s.clock = false ∧
      s' = { s with entry := none } := by
  simp only [step] at h
  split at h
  · split_ifs at h with hu
    exact ⟨_, ‹_›, by simpa using hu, (Option.some.inj h).symm⟩
  · cases h

theorem step_oob {v : Option Stored} (h : step s (.oob v) = some s') : s' = { s with entry := v } :=
  (Option.some.inj h).symm

end Inversion

/-! ## The unlock steps compute `unlockKey`

The steps of an unlock call return what `unlockKey` of `Dmap/Lock` returns, given what the
call's `get` saw and what its `deleteKey` returned, on the values `lockKey` stores: its token's
bytes. -/

/-- What `dm.get` of the lock key returns: the stored token, or `ErrKeyNotFound` when nothing
unexpired is stored. -/
def State.get (s : State) : Except DMapError (List UInt8) :=
  match s.visible with
  | some rec => .ok rec.token
  | none => .error .keyNotFound

/-- `dm.unmarshalValue` on what `lockKey` stores: the token, a byte slice. -/
def tokenValue (b : List UInt8) : Except DMapError Value := .ok (.bytes b)

section Refinement

variable {s s' : State} {j : Nat} {T : Token}

/-- A check either passes, having seen the token, or returns what `unlockKey` returns on what
it saw, whatever the delete would return. -/
theorem step_check_unlockKey (hj : s.calls j = some ⟨T, .locked⟩)
    (h : step s (.check j) = some s') :
    (∃ rec, s'.calls j = some ⟨T, .checked rec⟩ ∧ s.get = .ok T) ∨
      ∃ r, s'.calls j = some ⟨T, .done r⟩ ∧
        ∀ del, unlockKey s.get tokenValue del T = .returned r := by
  simp only [step, hj] at h
  split at h
  · rename_i rec hv
    split_ifs at h with ht
    · cases h
      exact .inl ⟨rec, by simp, by simp [State.get, hv, ht]⟩
    · cases h
      exact .inr ⟨.error .noSuchLock, by simp [State.finish], fun del => by
        simp [unlockKey, State.get, hv, tokenValue, Value.assertBytes, ht]⟩
  · rename_i hv
    cases h
    exact .inr ⟨.error .noSuchLock, by simp [State.finish], fun del => by
      simp [unlockKey, State.get, hv]⟩

/-- A failed `get` returns what `unlockKey` returns on the error. -/
theorem step_fail_locked_unlockKey (hj : s.calls j = some ⟨T, .locked⟩) {err : DMapError}
    (h : step s (.fail j err) = some s') :
    ∃ r, s'.calls j = some ⟨T, .done r⟩ ∧
      ∀ del, unlockKey (.error err) tokenValue del T = .returned r := by
  simp only [step, hj] at h
  split_ifs at h with he
  cases h
  refine ⟨.error (.dmap err), by simp [State.finish], fun del => ?_⟩
  cases err with
  | keyNotFound => exact absurd rfl he
  | _ => rfl

/-- After a check that saw the token, the delete and a failed delete return what `unlockKey`
returns on that `get` and on the delete's result. -/
theorem step_checked_unlockKey {rec : Stored} (hj : s.calls j = some ⟨T, .checked rec⟩) :
    (step s (.delete j) = some s' →
      ∃ r, s'.calls j = some ⟨T, .done r⟩ ∧ unlockKey (.ok T) tokenValue (.ok ()) T = .returned r) ∧
    ∀ err, step s (.fail j err) = some s' →
      ∃ r, s'.calls j = some ⟨T, .done r⟩ ∧
        unlockKey (.ok T) tokenValue (.error err) T = .returned r := by
  refine ⟨fun h => ?_, fun err h => ?_⟩ <;> simp only [step, hj] at h <;> cases h
  · exact ⟨.ok (), by simp [State.finish], by simp [unlockKey, tokenValue, Value.assertBytes]⟩
  · exact ⟨.error (.unlockFailed err), by simp [State.finish],
      by simp [unlockKey, tokenValue, Value.assertBytes]⟩

end Refinement

/-! ## What each unlock call saw

A ghost record beside the state: what each unlock call's `get` returned and what its
`deleteKey` returned.  It is read off the steps alone (`observe`), so every reachable state has
one (`Reachable.observed`), and over every run it accounts for every call: one that returned
returned what `unlockKey` returns on what it saw (`Observed.returned_unlockKey`). -/

/-- What an unlock call saw: what its `get` returned, and what its `deleteKey` returned, `nil`
until it runs. -/
structure Seen where
  get : Except DMapError (List UInt8)
  del : Except DMapError Unit

/-- What a step adds to the record: a check saw `s.get`, a delete returned `nil`, and a failure
is the `get`'s before the check and the `deleteKey`'s after it. -/
def observe (s : State) (seen : Nat → Seen) : Act → Nat → Seen
  | .check j => Function.update seen j ⟨s.get, .ok ()⟩
  | .delete j => Function.update seen j ⟨(seen j).get, .ok ()⟩
  | .fail j err =>
    Function.update seen j
      (match s.calls j with
       | some ⟨_, .checked _⟩ => ⟨(seen j).get, .error err⟩
       | _ => ⟨.error err, .ok ()⟩)
  | _ => seen

/-- The states reachable from `init` by steps `allowed` permits, each with the record of what
its calls saw. -/
inductive Observed (allowed : State → Act → Prop) : State → (Nat → Seen) → Prop
  | init : Observed allowed init fun _ => ⟨.error .keyNotFound, .ok ()⟩
  | step {s s' : State} {seen : Nat → Seen} {a : Act} :
      Observed allowed s seen → allowed s a → step s a = some s' →
      Observed allowed s' (observe s seen a)

section Observed

variable {allowed : State → Act → Prop}

theorem Observed.reachable {s : State} {seen : Nat → Seen} (h : Observed allowed s seen) :
    Reachable allowed s := by
  induction h with
  | init => exact .init
  | step _ ha hs ih => exact .step ih ha hs

theorem Reachable.observed {s : State} (h : Reachable allowed s) :
    ∃ seen, Observed allowed s seen := by
  induction h with
  | init => exact ⟨_, .init⟩
  | step _ ha hs ih =>
    obtain ⟨seen, ho⟩ := ih
    exact ⟨_, .step ho ha hs⟩

end Observed

/-- The unlock call an action moves, if any. -/
def Act.callId : Act → Option Nat
  | .call j _ | .enter j | .check j | .delete j | .fail j _ => some j
  | _ => none

section Frame

variable {s s' : State} {a : Act} {k : Nat}

theorem update_calls_of_ne {calls : Nat → Option Call} {j : Nat} {c : Option Call}
    (hk : some j ≠ some k) : Function.update calls j c k = calls k :=
  Function.update_noteq (fun he => hk (by rw [he])) _ _

/-- **A step moves no call but its own.** -/
theorem step_calls_of_ne (h : step s a = some s') (hk : a.callId ≠ some k) :
    s'.calls k = s.calls k := by
  cases a with
  | draw => obtain ⟨-, rfl⟩ := step_draw h; rfl
  | attempt => obtain ⟨_, -, ⟨-, rfl⟩ | rfl⟩ := step_attempt h <;> rfl
  | giveUp => obtain ⟨-, rfl⟩ := step_giveUp h; rfl
  | call j T => obtain ⟨-, -, rfl⟩ := step_call h; exact update_calls_of_ne hk
  | enter j => obtain ⟨T, -, -, rfl⟩ := step_enter h; exact update_calls_of_ne hk
  | check j =>
    obtain ⟨T, -, ⟨rec, -, -, rfl⟩ | rfl⟩ := step_check h <;> exact update_calls_of_ne hk
  | delete j => obtain ⟨T, rec, -, rfl⟩ := step_delete h; exact update_calls_of_ne hk
  | fail j err => obtain ⟨c, e, -, -, rfl⟩ := step_fail h; exact update_calls_of_ne hk
  | tick => rw [step_tick h]
  | evict => obtain ⟨_, -, -, rfl⟩ := step_evict h; rfl
  | oob => rw [step_oob h]

/-- …and records nothing of another call. -/
theorem observe_of_ne {seen : Nat → Seen} (hk : a.callId ≠ some k) :
    observe s seen a k = seen k := by
  cases a with
  | check j | delete j | fail j =>
    exact Function.update_noteq (fun he => hk (by rw [he]; rfl)) _ _
  | _ => rfl

end Frame

/-- What call `j` saw accounts for where it is: past its check it saw its token, and once it
returned, it returned what `unlockKey` returns on what it saw. -/
def Accounts : Option Call → Seen → Prop
  | some ⟨T, .checked _⟩, o => o.get = .ok T
  | some ⟨T, .done r⟩, o => unlockKey o.get tokenValue o.del T = .returned r
  | _, _ => True

/-- **The step lemma**: a step keeps every call accounted for, its own by what `unlockKey`
returns on what the step saw, every other one untouched. -/
theorem accounts_step {s s' : State} {seen : Nat → Seen} {a : Act}
    (hi : ∀ j, Accounts (s.calls j) (seen j)) (h : step s a = some s') (k : Nat) :
    Accounts (s'.calls k) (observe s seen a k) := by
  by_cases hk : a.callId = some k
  swap
  · rw [step_calls_of_ne h hk, observe_of_ne hk]; exact hi k
  cases a with
  | call j T =>
    cases hk
    obtain ⟨-, -, rfl⟩ := step_call h
    simp [Accounts]
  | enter j =>
    cases hk
    obtain ⟨T, -, -, rfl⟩ := step_enter h
    simp [Accounts]
  | check j =>
    cases hk
    obtain ⟨T, hj, -⟩ := step_check h
    rcases step_check_unlockKey hj h with ⟨rec, hc, hg⟩ | ⟨r, hc, hu⟩
    · simp [hc, observe, Accounts, hg]
    · simp only [hc, observe, Function.update_same, Accounts]
      exact hu _
  | delete j =>
    cases hk
    obtain ⟨T, rec, hj, -⟩ := step_delete h
    obtain ⟨r, hc, hu⟩ := (step_checked_unlockKey hj).1 h
    have hg : (seen k).get = .ok T := by simpa [Accounts, hj] using hi k
    simp only [hc, observe, Function.update_same, Accounts, hg, hu]
  | fail j err =>
    cases hk
    obtain ⟨⟨T, phase⟩, e, hj, hl, -⟩ := step_fail h
    cases phase with
    | locked =>
      obtain ⟨r, hc, hu⟩ := step_fail_locked_unlockKey hj h
      simp only [hc, observe, hj, Function.update_same, Accounts]
      exact hu _
    | checked rec =>
      obtain ⟨r, hc, hu⟩ := (step_checked_unlockKey hj).2 err h
      have hg : (seen k).get = .ok T := by simpa [Accounts, hj] using hi k
      simp only [hc, observe, hj, Function.update_same, Accounts, hg, hu]
    | waiting | done => cases hl
  | _ => cases hk

/-- **The run lemma**: in every reachable state, every unlock call is accounted for. -/
theorem Observed.accounts {allowed : State → Act → Prop} {s : State} {seen : Nat → Seen}
    (h : Observed allowed s seen) : ∀ j, Accounts (s.calls j) (seen j) := by
  induction h with
  | init => intro j; trivial
  | step _ _ hs ih => exact accounts_step ih hs

/-- **Every unlock call that returned returned what `unlockKey` returns** on what its `get` saw
and what its `deleteKey` returned, on every run, under every policy. -/
theorem Observed.returned_unlockKey {allowed : State → Act → Prop} {s : State}
    {seen : Nat → Seen} {j : Nat} {T : Token} {r : Except Error Unit}
    (h : Observed allowed s seen) (hj : s.calls j = some ⟨T, .done r⟩) :
    unlockKey (seen j).get tokenValue (seen j).del T = .returned r := by
  simpa [Accounts, hj] using h.accounts j

/-- `Lock` of `[1]`, then two `Unlock`s of its context: the first deletes the entry and returns
nil, the second finds nothing and returns `ErrNoSuchLock`, each what `unlockKey` returns on
what it saw. -/
theorem returned_unlockKey_twice :
    ∃ s seen, Observed Core s seen ∧
      s.calls 0 = some ⟨[1], .done (.ok ())⟩ ∧
      s.calls 1 = some ⟨[1], .done (.error .noSuchLock)⟩ ∧
      unlockKey (seen 0).get tokenValue (seen 0).del [1] = .returned (.ok ()) ∧
      unlockKey (seen 1).get tokenValue (seen 1).del [1] = .returned (.error .noSuchLock) := by
  have h₁ : Observed Core _ _ := .step (a := .draw [1] 0) .init rfl rfl
  have h₂ : Observed Core _ _ := .step (a := .attempt [1]) h₁ rfl rfl
  have h₃ : Observed Core _ _ := .step (a := .call 0 [1]) h₂ rfl rfl
  have h₄ : Observed Core _ _ := .step (a := .enter 0) h₃ rfl rfl
  have h₅ : Observed Core _ _ := .step (a := .check 0) h₄ rfl rfl
  have h₆ : Observed Core _ _ := .step (a := .delete 0) h₅ rfl rfl
  have h₇ : Observed Core _ _ := .step (a := .call 1 [1]) h₆ rfl rfl
  have h₈ : Observed Core _ _ := .step (a := .enter 1) h₇ rfl rfl
  have h₉ : Observed Core _ _ := .step (a := .check 1) h₈ rfl rfl
  exact ⟨_, _, h₉, rfl, rfl, h₉.returned_unlockKey rfl, h₉.returned_unlockKey rfl⟩

end Olric.Dmap
