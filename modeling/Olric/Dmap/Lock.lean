import Mathlib

/-!
# Dmap/Lock — `tryLock`, `lockKey` and `unlockKey` of `lock.go`

Each function is modelled from what the calls it makes return: the `i`-th `dm.put(e)` of
`tryLock` returns `put i`, and its `select` is woken by `wakes` in turn; `unlockKey` sees what
`dm.get`, `dm.unmarshalValue` and `dm.deleteKey` return.  Their interleaving with other clients
is the protocol of `Dmap/Protocol`.

* `tryLock` returns nil exactly when its last put did and every earlier one found the key;
  `ErrLockNotAcquired` and the server-gone error only after every put found the key; and any
  other put error unchanged, with no put after it.  So `lockKey` hands out a `LockContext` exactly
  when one put of its token succeeded (`lockKey_no_partial_state`).
* `unlockKey` asserts `val.([]byte)` on whatever the serializer decodes from the stored value:
  on every value that is not a byte slice, `nil` included, it panics (`unlockKey_panics`).
-/

namespace Olric.Dmap

/-! ## Errors and values -/

/-- An error of the DMap's `get`, `put` and `deleteKey`, of its serializer and of `rand.Read`,
as the lock code tells them apart: the two sentinels it compares with, and any other. -/
inductive DMapError where
  /-- `ErrKeyFound`: a conditional put found a live entry and wrote nothing -/
  | keyFound
  /-- `ErrKeyNotFound` -/
  | keyNotFound
  | other (msg : String)
deriving DecidableEq, Repr

/-- An error the lock code returns. -/
inductive Error where
  /-- an error of a call it makes, returned unchanged -/
  | dmap (err : DMapError)
  /-- `ErrLockNotAcquired`, "lock not acquired" -/
  | lockNotAcquired
  /-- `ErrNoSuchLock`, "no such lock" -/
  | noSuchLock
  /-- `fmt.Errorf("server is gone")` -/
  | serverGone
  /-- `fmt.Errorf("unlock failed because of delete: %w", err)` -/
  | unlockFailed (err : DMapError)
deriving DecidableEq, Repr

/-- A value the DMap's serializer decodes, by its dynamic Go type. -/
inductive Value where
  | nil
  | bytes (b : List UInt8)
  | string (s : String)
  /-- a value of any other Go type, by the type's name -/
  | other (type : String)
deriving DecidableEq, Repr

/-- The name of the dynamic type, as a failed interface conversion prints it. -/
def Value.typeName : Value → String
  | .nil => "nil"
  | .bytes _ => "[]uint8"
  | .string _ => "string"
  | .other type => type

/-- `val.([]byte)`: the bytes, or the message of the runtime panic. -/
def Value.assertBytes : Value → Except String (List UInt8)
  | .bytes b => .ok b
  | val =>
    .error ("interface conversion: interface \x7b\x7d is " ++ val.typeName ++ ", not []uint8")

/-- How a Go call ends: it returns, or it panics. -/
inductive Outcome (α : Type) where
  | returned (a : α)
  | panicked (msg : String)
deriving DecidableEq, Repr

/-! ## `unlockKey` -/

/-- `unlockKey(key, token)`, from what the calls it makes return: `get` the stored value's
bytes, `unmarshalValue` of them, and `deleteKey`.  The fine-grained locker around it is the
protocol's. -/
def unlockKey (get : Except DMapError (List UInt8))
    (unmarshalValue : List UInt8 → Except DMapError Value) (deleteKey : Except DMapError Unit)
    (token : List UInt8) : Outcome (Except Error Unit) :=
  match get with
  | .error .keyNotFound => .returned (.error .noSuchLock)
  | .error err => .returned (.error (.dmap err))
  | .ok value =>
    match unmarshalValue value with
    | .error err => .returned (.error (.dmap err))
    | .ok val =>
      match val.assertBytes with
      | .error msg => .panicked msg
      | .ok b =>
        if b ≠ token then .returned (.error .noSuchLock)
        else
          match deleteKey with
          | .error err => .returned (.error (.unlockFailed err))
          | .ok () => .returned (.ok ())

/-- **`unlockKey` panics on every stored value that is not a byte slice**, `nil` included, with
the message of the failed conversion. -/
theorem unlockKey_panics (value : List UInt8) (unmarshalValue : List UInt8 → Except DMapError Value)
    (deleteKey : Except DMapError Unit) (token : List UInt8) {val : Value}
    (hv : unmarshalValue value = .ok val) (hb : ∀ b, val ≠ .bytes b) :
    unlockKey (.ok value) unmarshalValue deleteKey token =
      .panicked
        ("interface conversion: interface \x7b\x7d is " ++ val.typeName ++ ", not []uint8") := by
  cases val with
  | bytes b => exact absurd rfl (hb b)
  | _ => simp [unlockKey, hv, Value.assertBytes]

theorem unlockKey_panics_string :
    (fun _ => .ok (.string "x") : List UInt8 → Except DMapError Value) [1] = .ok (.string "x") ∧
    (∀ b, Value.string "x" ≠ .bytes b) ∧
    unlockKey (.ok [1]) (fun _ => .ok (.string "x")) (.ok ()) [1] =
      .panicked "interface conversion: interface \x7b\x7d is string, not []uint8" :=
  ⟨rfl, fun _ => by simp, unlockKey_panics [1] (fun _ => .ok (.string "x")) (.ok ()) [1] rfl
    (fun _ => by simp)⟩

/-! ## `tryLock` and `lockKey` -/

/-- What wakes the retry loop of `tryLock` from its `select`. -/
inductive Wake where
  /-- `timer.C`, the 10 ms poll -/
  | timer
  /-- `ctx.Done()`: the deadline elapsed -/
  | deadline
  /-- `dm.s.ctx.Done()`: the server is shutting down -/
  | shutdown
deriving DecidableEq, Repr

/-- The retry loop of `tryLock`, `i` puts issued so far, woken by `wakes` in turn: what it
returns and how many puts were issued in all; `none` when the wakes run out first. -/
def retry (put : Nat → Except DMapError Unit) : List Wake → Nat → Option (Except Error Unit × Nat)
  | [], _ => none
  | .timer :: wakes, i =>
    match put i with
    | .error .keyFound => retry put wakes (i + 1)
    | .error err => some (.error (.dmap err), i + 1)
    | .ok () => some (.ok (), i + 1)
  | .deadline :: _, i => some (.error .lockNotAcquired, i)
  | .shutdown :: _, i => some (.error .serverGone, i)

/-- `tryLock(e, deadline)`, where the `i`-th `dm.put(e)` returns `put i`. -/
def tryLock (put : Nat → Except DMapError Unit) (wakes : List Wake) :
    Option (Except Error Unit × Nat) :=
  match put 0 with
  | .ok () => some (.ok (), 1)
  | .error .keyFound => retry put wakes 1
  | .error err => some (.error (.dmap err), 1)

/-- A `LockContext`, as far as `Unlock` reads it: the key and the token.  (`name` and `dm`
name the DMap, which the model has one of.) -/
structure LockContext where
  key : String
  token : List UInt8
deriving DecidableEq, Repr

/-- `lockKey(opcode, key, timeout, deadline)`, from what `rand.Read` (the token),
`prepareAndSerialize` and the puts of `tryLock` return. -/
def lockKey (key : String) (randRead : Except DMapError (List UInt8))
    (prepareAndSerialize : Except DMapError Unit) (put : Nat → Except DMapError Unit)
    (wakes : List Wake) : Option (Except Error LockContext × Nat) :=
  match randRead with
  | .error err => some (.error (.dmap err), 0)
  | .ok token =>
    match prepareAndSerialize with
    | .error err => some (.error (.dmap err), 0)
    | .ok () => (tryLock put wakes).map fun p => (p.1.map fun () => ⟨key, token⟩, p.2)

/-- How `tryLock` can end after `n` puts: the puts before the last found the key, and the last
one decides the result. -/
def Ends (put : Nat → Except DMapError Unit) (r : Except Error Unit) (n : Nat) : Prop :=
  0 < n ∧ (∀ i, i + 1 < n → put i = .error .keyFound) ∧
    (r = .ok () ∧ put (n - 1) = .ok () ∨
     (r = .error .lockNotAcquired ∨ r = .error .serverGone) ∧ put (n - 1) = .error .keyFound ∨
     ∃ err, err ≠ .keyFound ∧ r = .error (.dmap err) ∧ put (n - 1) = .error err)

/-- The run lemma of the retry loop: from `i` puts that all found the key, it ends as `Ends`
says. -/
theorem retry_ends {put : Nat → Except DMapError Unit} :
    ∀ {wakes : List Wake} {i : Nat} {r : Except Error Unit} {n : Nat}, 0 < i →
      (∀ k, k < i → put k = .error .keyFound) → retry put wakes i = some (r, n) → Ends put r n
  | [], _, _, _, _, _, h => by simp [retry] at h
  | .timer :: wakes, i, r, n, hi, hk, h => by
    simp only [retry] at h
    split at h
    · rename_i hp
      exact retry_ends (Nat.succ_pos i) (fun k hk' => by
        rcases Nat.lt_succ_iff_lt_or_eq.mp hk' with hk' | rfl
        exacts [hk k hk', hp]) h
    · rename_i err hne hp
      obtain ⟨rfl, rfl⟩ := Prod.mk.inj (Option.some.inj h)
      exact ⟨Nat.succ_pos i, fun k hk' => hk k (by omega), .inr (.inr ⟨err, hne, rfl, hp⟩)⟩
    · rename_i hp
      obtain ⟨rfl, rfl⟩ := Prod.mk.inj (Option.some.inj h)
      exact ⟨Nat.succ_pos i, fun k hk' => hk k (by omega), .inl ⟨rfl, hp⟩⟩
  | .deadline :: _, i, r, n, hi, hk, h => by
    obtain ⟨rfl, rfl⟩ := Prod.mk.inj (Option.some.inj h)
    exact ⟨hi, fun k hk' => hk k (by omega), .inr (.inl ⟨.inl rfl, hk _ (by omega)⟩)⟩
  | .shutdown :: _, i, r, n, hi, hk, h => by
    obtain ⟨rfl, rfl⟩ := Prod.mk.inj (Option.some.inj h)
    exact ⟨hi, fun k hk' => hk k (by omega), .inr (.inl ⟨.inr rfl, hk _ (by omega)⟩)⟩

theorem tryLock_ends {put : Nat → Except DMapError Unit} {wakes : List Wake}
    {r : Except Error Unit} {n : Nat} (h : tryLock put wakes = some (r, n)) : Ends put r n := by
  unfold tryLock at h
  split at h
  · rename_i hp
    obtain ⟨rfl, rfl⟩ := Prod.mk.inj (Option.some.inj h)
    exact ⟨Nat.one_pos, fun i hi => absurd hi (by omega), .inl ⟨rfl, hp⟩⟩
  · rename_i hp
    exact retry_ends Nat.one_pos (fun k hk => by rwa [show k = 0 by omega]) h
  · rename_i err hne hp
    obtain ⟨rfl, rfl⟩ := Prod.mk.inj (Option.some.inj h)
    exact ⟨Nat.one_pos, fun i hi => absurd hi (by omega), .inr (.inr ⟨err, hne, rfl, hp⟩)⟩

/-- The retry loop returns by the time the deadline elapses. -/
theorem retry_returns {put : Nat → Except DMapError Unit} :
    ∀ {wakes : List Wake} {i : Nat}, .deadline ∈ wakes → ∃ r n, retry put wakes i = some (r, n)
  | [], _, h => absurd h (List.not_mem_nil _)
  | .timer :: wakes, i, h => by
    simp only [retry]
    split
    · exact retry_returns (List.mem_of_ne_of_mem (by decide) h)
    · exact ⟨_, _, rfl⟩
    · exact ⟨_, _, rfl⟩
  | .deadline :: _, _, _ => ⟨_, _, rfl⟩
  | .shutdown :: _, _, _ => ⟨_, _, rfl⟩

theorem tryLock_returns {put : Nat → Except DMapError Unit} {wakes : List Wake}
    (h : .deadline ∈ wakes) : ∃ r n, tryLock put wakes = some (r, n) := by
  unfold tryLock
  split
  · exact ⟨_, _, rfl⟩
  · exact retry_returns h
  · exact ⟨_, _, rfl⟩

/-- Of the puts a returning `tryLock` issued, one succeeded exactly when it returned nil; none
did otherwise. -/
theorem Ends.countP_eq_one_iff {put : Nat → Except DMapError Unit} {r : Except Error Unit}
    {n : Nat} (h : Ends put r n) :
    (List.range n).countP (fun i => (put i).toBool) = 1 ↔ r = .ok () := by
  obtain ⟨hn, hk, hr⟩ := h
  obtain ⟨m, rfl⟩ : ∃ m, n = m + 1 := ⟨n - 1, by omega⟩
  have hzero : (List.range m).countP (fun i => (put i).toBool) = 0 :=
    List.countP_eq_zero.mpr fun i hi => by
      rw [hk i (by simpa using hi)]; exact Bool.false_ne_true
  rw [List.range_succ, List.countP_append, hzero, List.countP_singleton, Nat.add_sub_cancel] at *
  rcases hr with ⟨rfl, hp⟩ | ⟨hr, hp⟩ | ⟨err, -, rfl, hp⟩
  · simp [hp, Except.toBool]
  · rcases hr with rfl | rfl <;> simp [hp, Except.toBool]
  · simp [hp, Except.toBool]

/-- When `tryLock` gives up, every put it issued found the key. -/
theorem Ends.keyFound_of_gaveUp {put : Nat → Except DMapError Unit} {r : Except Error Unit}
    {n : Nat} (h : Ends put r n) (hr : r = .error .lockNotAcquired ∨ r = .error .serverGone) :
    ∀ i, i < n → put i = .error .keyFound := by
  obtain ⟨-, hk, hlast⟩ := h
  intro i hi
  rcases Nat.lt_or_ge (i + 1) n with hi' | hi'
  · exact hk i hi'
  · obtain rfl : i = n - 1 := by omega
    rcases hlast with ⟨rfl, -⟩ | ⟨-, hp⟩ | ⟨err, -, rfl, -⟩
    · simp at hr
    · exact hp
    · simp at hr

/-- **The spec lemma of `lockKey`**: it fails before any put, with the error of `rand.Read` or
of `prepareAndSerialize`, or it returns what `tryLock` returns, nil turned into the context of
its key and token. -/
theorem lockKey_eq_some {key : String} {randRead : Except DMapError (List UInt8)}
    {prepareAndSerialize : Except DMapError Unit} {put : Nat → Except DMapError Unit}
    {wakes : List Wake} {r : Except Error LockContext} {n : Nat}
    (h : lockKey key randRead prepareAndSerialize put wakes = some (r, n)) :
    (∃ err, r = .error (.dmap err) ∧ n = 0 ∧
      (randRead = .error err ∨ randRead.toBool ∧ prepareAndSerialize = .error err)) ∨
    ∃ token r', randRead = .ok token ∧ prepareAndSerialize = .ok () ∧
      tryLock put wakes = some (r', n) ∧ r = r'.map fun () => ⟨key, token⟩ := by
  unfold lockKey at h
  split at h
  · obtain ⟨rfl, rfl⟩ := Prod.mk.inj (Option.some.inj h)
    exact .inl ⟨_, rfl, rfl, .inl rfl⟩
  · split at h
    · obtain ⟨rfl, rfl⟩ := Prod.mk.inj (Option.some.inj h)
      exact .inl ⟨_, rfl, rfl, .inr ⟨rfl, rfl⟩⟩
    · obtain ⟨⟨r', n'⟩, ht, hrn⟩ := Option.map_eq_some'.mp h
      obtain ⟨rfl, rfl⟩ := Prod.mk.inj hrn
      exact .inr ⟨_, r', rfl, rfl, ht, rfl⟩

/-- `lockKey` returns by the time its deadline elapses. -/
theorem lockKey_returns {key : String} {randRead : Except DMapError (List UInt8)}
    {prepareAndSerialize : Except DMapError Unit} {put : Nat → Except DMapError Unit}
    {wakes : List Wake} (hd : .deadline ∈ wakes) :
    ∃ r n, lockKey key randRead prepareAndSerialize put wakes = some (r, n) := by
  unfold lockKey
  split
  · exact ⟨_, _, rfl⟩
  · split
    · exact ⟨_, _, rfl⟩
    · obtain ⟨r, n, ht⟩ : ∃ r n, tryLock put wakes = some (r, n) := tryLock_returns hd
      exact ⟨_, _, by rw [ht]; rfl⟩

/-- **An acquire leaves no partial state.**  For every sequence of put results and every way
the `select` is woken: `tryLock` returns by the time its deadline elapses, and when it returns
after `n` puts, the puts before the last found the key and the last one decides, nil when it
succeeded, `ErrLockNotAcquired` or the server-gone error only when it too found the key, and any
other error the last put's, unchanged.  `lockKey` returns by the deadline too, and once the token
and the serialized value are made it ends as `tryLock` does.  So `lockKey` returns a
`LockContext`, of its key and token, exactly when one of its puts succeeded, and an acquire that
fails with `ErrLockNotAcquired` made only puts that found the key, and so wrote nothing. -/
theorem lockKey_no_partial_state (put : Nat → Except DMapError Unit) (wakes : List Wake) :
    (.deadline ∈ wakes → ∃ r n, tryLock put wakes = some (r, n)) ∧
    (∀ r n, tryLock put wakes = some (r, n) → Ends put r n) ∧
    ∀ key randRead prepareAndSerialize,
      (.deadline ∈ wakes →
        ∃ r n, lockKey key randRead prepareAndSerialize put wakes = some (r, n)) ∧
      ∀ r n, lockKey key randRead prepareAndSerialize put wakes = some (r, n) →
        ((∃ ctx, r = .ok ctx) ↔ (List.range n).countP (fun i => (put i).toBool) = 1) ∧
        (∀ ctx, r = .ok ctx → ctx.key = key ∧ randRead = .ok ctx.token) ∧
        (randRead.toBool → prepareAndSerialize = .ok () → Ends put (r.map fun _ => ()) n) ∧
        (r = .error .lockNotAcquired → ∀ i, i < n → put i = .error .keyFound) := by
  refine ⟨tryLock_returns, fun r n => tryLock_ends,
    fun key randRead prepareAndSerialize => ⟨lockKey_returns, fun r n h => ?_⟩⟩
  rcases lockKey_eq_some h with ⟨err, rfl, rfl, hfail⟩ | ⟨token, r', rfl, rfl, ht, rfl⟩
  · refine ⟨by simp, nofun, fun hrand hprep => ?_, nofun⟩
    rcases hfail with rfl | ⟨-, rfl⟩
    exacts [(Bool.false_ne_true hrand).elim, absurd hprep nofun]
  · have hends := tryLock_ends ht
    rw [hends.countP_eq_one_iff]
    cases r' with
    | ok => exact ⟨by simp [Except.map], fun ctx hc => by cases hc; exact ⟨rfl, rfl⟩,
        fun _ _ => hends, nofun⟩
    | error e =>
      refine ⟨by simp [Except.map], nofun, fun _ _ => hends,
        fun hna => hends.keyFound_of_gaveUp (.inl ?_)⟩
      simpa [Except.map] using hna

/-- …as when two puts find the key and the third, after two polls, succeeds: `tryLock` returns
nil after three puts, and `lockKey` the context of its key and token. -/
theorem lockKey_no_partial_state_third_put :
    let put : Nat → Except DMapError Unit := fun i => if i < 2 then .error .keyFound else .ok ()
    tryLock put [.timer, .timer, .deadline] = some (.ok (), 3) ∧
      lockKey "k" (.ok [1]) (.ok ()) put [.timer, .timer, .deadline] =
        some (.ok ⟨"k", [1]⟩, 3) ∧
      Ends put (.ok ()) 3 ∧ (List.range 3).countP (fun i => (put i).toBool) = 1 := by
  intro put
  have htry : tryLock put [.timer, .timer, .deadline] = some (.ok (), 3) := rfl
  have hlock : lockKey "k" (.ok [1]) (.ok ()) put [.timer, .timer, .deadline] =
      some (.ok ⟨"k", [1]⟩, 3) := rfl
  have hl := lockKey_no_partial_state put [.timer, .timer, .deadline]
  exact ⟨htry, hlock, hl.2.1 _ _ htry,
    ((hl.2.2 "k" (.ok [1]) (.ok ())).2 _ _ hlock).1.mp ⟨_, rfl⟩⟩

end Olric.Dmap
