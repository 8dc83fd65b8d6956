import Olric.Kvstore.Fill
import Olric.Kvstore.TaggedCodec

/-!
# Kvstore/Spill — when the loop of `Put` returns

The loop of `Put` and `PutRaw` sizes the table it appends as `2 * Inuse()`, which `newTable`
raises to `minimumSize`, and a spill does not change `Inuse()`: it adds an empty table.  So every
table the loop appends is the same `newTable (2 * Inuse())`, and the loop has two ways out, not
more (`putLoop_spec`): the newest table takes the write, or the first appended table does.  When
neither does, it never returns (`putLoop_eq_none`), appending an empty table on every turn.

For `Put` and `PutRaw` that reads: they return exactly when the frame fits the newest table or
is at most `max(2 * Inuse(), minimumSize)` bytes, and then after appending at most one table
(`putRaw_returns_iff`).  The other way is reachable (`put_never_returns`): a frame longer than
`TableSize = minimumSize` on the fresh engine of `DefaultOptions()`, whose live bytes are `0`.
-/

namespace Olric.Kvstore

open Olric.Storage

namespace KVStore

variable {c : Codec}

/-! ## The two ways out of the loop -/

section Loop

variable {write : Table → Option Table}

/-- **The loop never returns** when neither the newest table nor `newTable (2 * Inuse())` takes
the write: each spill appends that same table again. -/
theorem putLoop_eq_none {kv : KVStore} (hnew : write kv.newest = none)
    (hspill : write (newTable (kv.inuse * 2)) = none) : ∀ n res, putLoop write n kv res = none := by
  intro n
  induction n generalizing kv with
  | zero => intro _; rfl
  | succ n ih =>
    intro res
    rw [putLoop_succ, hnew]
    exact ih (by rwa [spill_newest]) (by rwa [inuse_spill]) _

/-- **The spec lemma of the loop**: when it returns, either the newest table took the write, or
it did not and the one table the loop appended did, with the result `ErrFragmented`. -/
theorem putLoop_spec {n : Nat} {kv kv' : KVStore} {res r : Option Error}
    (hp : putLoop write n kv res = some (kv', r)) :
    (∃ t, write kv.newest = some t ∧ kv' = { kv with newest := t } ∧ r = res) ∨
    (write kv.newest = none ∧ ∃ t, write (newTable (kv.inuse * 2)) = some t ∧
      kv' = { kv.spill with newest := t } ∧ r = some .fragmented) := by
  match n, hp with
  | n + 1, hp =>
    rw [putLoop_succ] at hp
    cases hw : write kv.newest with
    | some t =>
      rw [hw, Option.some.injEq, Prod.mk.injEq] at hp
      exact .inl ⟨t, rfl, hp.1.symm, hp.2.symm⟩
    | none =>
      simp only [hw] at hp
      refine .inr ⟨rfl, ?_⟩
      cases hs : write (newTable (kv.inuse * 2)) with
      | none =>
        have hnone : ∀ n res, putLoop write n kv.spill res = none :=
          putLoop_eq_none (by rwa [spill_newest]) (by rwa [inuse_spill])
        rw [hnone] at hp; cases hp
      | some t =>
        match n, hp with
        | n + 1, hp =>
          rw [putLoop_succ, spill_newest, hs, Option.some.injEq, Prod.mk.injEq] at hp
          exact ⟨t, rfl, hp.1.symm, hp.2.symm⟩

/-- The loop returns, for some fuel, exactly when one of the two tables takes the write; two
turns are then enough. -/
theorem putLoop_returns_iff {kv : KVStore} {res : Option Error} :
    (∃ n r, putLoop write n kv res = some r) ↔
      (write kv.newest).isSome ∨ (write (newTable (kv.inuse * 2))).isSome := by
  constructor
  · rintro ⟨n, ⟨kv', r⟩, hp⟩
    rcases putLoop_spec hp with ⟨t, hw, -⟩ | ⟨-, t, hs, -⟩
    · exact .inl (by rw [hw]; rfl)
    · exact .inr (by rw [hs]; rfl)
  · intro hor
    cases hw : write kv.newest with
    | some t => exact ⟨1, _, by rw [putLoop_succ, hw]⟩
    | none =>
      obtain ⟨t, hs⟩ := Option.isSome_iff_exists.mp (hor.resolve_left (by simp [hw]))
      exact ⟨2, _, by rw [putLoop_succ, hw, putLoop_succ, spill_newest, hs]⟩

end Loop

/-! ## `Put` and `PutRaw` -/

theorem putRaw_newTable_eq_none {size : Nat} {h : UInt64} {raw : List UInt8} :
    (newTable size).putRaw c h raw = none ↔ max size minimumSize < raw.length := by
  simp [Table.putRaw_eq_none]

/-- **When `PutRaw` returns**: for some fuel exactly when `raw` fits the newest table or the
table a spill appends, of `max(2 * Inuse(), minimumSize)` bytes; and whenever it returns it has
appended at most one table.  `Put` is `PutRaw` of the entry's frame (`put_eq_putRaw`). -/
theorem putRaw_returns_iff (kv : KVStore) (h : UInt64) (raw : List UInt8) :
    ((∃ n r, kv.putRaw c n h raw = some r) ↔
      kv.newest.offset + raw.length ≤ kv.newest.allocated ∨
        raw.length ≤ max (kv.inuse * 2) minimumSize) ∧
    ∀ n kv' r, kv.putRaw c n h raw = some (kv', r) → kv'.numTables ≤ kv.numTables + 1 := by
  refine ⟨?_, fun n kv' r hp => ?_⟩
  · rw [show (∃ n r, kv.putRaw c n h raw = some r) ↔ ∃ n r, putLoop _ n kv none = some r from
      Iff.rfl, putLoop_returns_iff, Option.isSome_iff_ne_none, Option.isSome_iff_ne_none,
      Ne, Ne, Table.putRaw_eq_none, putRaw_newTable_eq_none]
    omega
  · rcases putLoop_spec hp with ⟨t, -, rfl, -⟩ | ⟨-, t, -, rfl, -⟩
    · exact Nat.le_succ _
    · exact Nat.le_refl _

/-- **`PutRaw` never returns** when `raw` fits neither the newest table nor the table a spill
appends. -/
theorem putRaw_eq_none_of_too_long {kv : KVStore} {raw : List UInt8}
    (hnew : kv.newest.allocated < kv.newest.offset + raw.length)
    (hL : max (kv.inuse * 2) minimumSize < raw.length) (h : UInt64) (n : Nat) :
    kv.putRaw c n h raw = none :=
  putLoop_eq_none (Table.putRaw_eq_none.mpr hnew) (putRaw_newTable_eq_none.mpr hL) n none

/-- **`Put` can run forever**: on the fresh engine of `DefaultOptions()`, given an entry whose
frame is longer than `TableSize = minimumSize`.  The engine has no live bytes, so every table the
loop appends has `minimumSize` bytes too, and none takes the frame. -/
theorem put_never_returns (e : Entry) (h : UInt64) (hL : minimumSize < (c.encode e).length) :
    ∃ kv, KVStore.new Options.default = .ok kv ∧ ∀ n, kv.put c n h e = none :=
  ⟨_, new_default, putRaw_eq_none_of_too_long (by simpa using hL)
    (by simpa [KVStore.inuse, tables] using hL) h⟩

theorem put_never_returns_tagged :
    minimumSize < (tagged.encode ⟨[], List.replicate 32760 0, 0, 0⟩).length ∧
    ∃ kv, KVStore.new Options.default = .ok kv ∧
      ∀ n, kv.put tagged n 5 ⟨[], List.replicate 32760 0, 0, 0⟩ = none :=
  have hL : minimumSize < (tagged.encode ⟨[], List.replicate 32760 0, 0, 0⟩).length := by
    simp only [tagged, Tagged.encode, List.length_append, Tagged.length_tag, List.length_replicate,
      Tagged.length_beBytes, List.length_nil, minimumSize_eq]
    omega
  ⟨hL, put_never_returns _ 5 hL⟩

end KVStore

end Olric.Kvstore
