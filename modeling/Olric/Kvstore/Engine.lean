import Olric.Kvstore.Table

/-!
# Kvstore/Engine — the table chain of `kvstore.go`

`KVStore` holds a chain of tables.  Writes go to the newest; reads scan newest → oldest and stop
at the first table that holds the hkey.  This module is `kvstore.go` line by line, over the
tables of `Kvstore/Table`:

* `putLoop` is the `for { … }` of `Put` and `PutRaw`: on `errNotEnoughSpace` it appends
  `newTable(kv.Inuse() * 2)` and tries again.  It can run forever, so it takes fuel and returns
  `none` when the fuel runs out.
* `lookup` is the scan shared by `Get`, `GetRaw`, `GetTTL` and `GetKey`; `modify` the scan
  shared by `Delete` and `UpdateTTL`, which stops at the first table that holds the hkey.

The Go slice lists the chain oldest first; here it is `newest :: frozen`, newest first, which
is the order every loop of the file walks it in.  The chain is never empty (Go panics with
"tables cannot be empty" otherwise, and no operation removes a table), so the type says so.
-/

namespace Olric.Kvstore

open Olric.Storage

/-- A `KVStore`: the chain of tables, newest first, and the options it was made with. -/
structure KVStore where
  newest : Table
  frozen : List Table
  options : Options

/-- The memory statistics `Stats()` reports, one field per key of its map. -/
structure Stats where
  allocated : Nat
  inuse : Nat
  garbage : Nat
deriving DecidableEq, Repr

namespace KVStore

variable (c : Codec)

/-- `kv.tables`, newest first. -/
def tables (kv : KVStore) : List Table := kv.newest :: kv.frozen

/-- `New(options)`: one table of `TableSize` bytes. -/
def new (options : Options) : Except Error KVStore := do
  let size ← options.getTableSize
  pure ⟨newTable size, [], options⟩

/-- `Fork()`: a fresh engine with the same options. -/
def fork (kv : KVStore) : Except Error KVStore := new kv.options

/-- `Inuse()`: the live bytes of the whole chain. -/
def inuse (kv : KVStore) : Nat := (kv.tables.map Table.inuse).sum

/-- `Len()`: the number of indexed hkeys, summed over the chain. -/
def len (kv : KVStore) : Nat := (kv.tables.map fun t => t.hkeys.entries.length).sum

/-- `Stats()`. -/
def stats (kv : KVStore) : Stats :=
  ⟨(kv.tables.map Table.allocated).sum, (kv.tables.map Table.inuse).sum,
    (kv.tables.map Table.garbage).sum⟩

/-- `NumTables()`. -/
def numTables (kv : KVStore) : Nat := kv.tables.length

/-- `kv.tables = append(kv.tables, newTable(kv.Inuse() * 2))`, the spill of `Put`, `PutRaw`
and `Delete`. -/
def spill (kv : KVStore) : KVStore :=
  { kv with newest := newTable (kv.inuse * 2), frozen := kv.tables }

/-- The loop of `Put` and `PutRaw`, with `write` the table write of each.  `res` is the Go
variable of the same name: `nil` until a spill sets it to `ErrFragmented`.  `none` when the
fuel runs out before the loop returns. -/
def putLoop (write : Table → Option Table) : Nat → KVStore → Option Error →
    Option (KVStore × Option Error)
  | 0, _, _ => none
  | n + 1, kv, res =>
    match write kv.newest with
    | some t => some ({ kv with newest := t }, res)
    | none => putLoop write n kv.spill (some .fragmented)

/-- `PutRaw(hkey, value)`, run for at most `fuel` iterations of its loop. -/
def putRaw (fuel : Nat) (kv : KVStore) (h : UInt64) (raw : List UInt8) :
    Option (KVStore × Option Error) :=
  putLoop (fun t => t.putRaw c h raw) fuel kv none

/-- `Put(hkey, value)`, run for at most `fuel` iterations of its loop. -/
def put (fuel : Nat) (kv : KVStore) (h : UInt64) (e : Entry) : Option (KVStore × Option Error) :=
  putLoop (fun t => t.put c h e) fuel kv none

/-- What a read returns for what its scan found: the value, or `ErrKeyNotFound`. -/
def found {α : Type} : Option α → Except Error α
  | some a => .ok a
  | none => .error .keyNotFound

/-- The scan of the four reads: the first table, newest first, whose read hits. -/
def lookup {α : Type} (read : Table → Option α) (kv : KVStore) : Except Error α :=
  found (kv.tables.findSome? read)

/-- `GetRaw(hkey)`. -/
def getRaw (kv : KVStore) (h : UInt64) : Except Error (List UInt8) := kv.lookup (·.getRaw c h)

/-- `Get(hkey)`. -/
def get (kv : KVStore) (h : UInt64) : Except Error Entry := kv.lookup (·.get c h)

/-- `GetTTL(hkey)`. -/
def getTTL (kv : KVStore) (h : UInt64) : Except Error (BitVec 64) := kv.lookup (·.getTTL c h)

/-- `GetKey(hkey)`. -/
def getKey (kv : KVStore) (h : UInt64) : Except Error (List UInt8) := kv.lookup (·.getKey c h)

/-- `Check(hkey)`: some table's index holds the hkey. -/
def check (kv : KVStore) (h : UInt64) : Bool := kv.tables.any fun t => (t.hkeys.lookup h).isSome

/-- The scan of `Delete` and `UpdateTTL` over a list of tables: apply `f` to the first one it
applies to (`f` returns `none`, the "previous" signal, elsewhere) and stop there. -/
def modifyFirst (f : Table → Option Table) : List Table → Option (List Table)
  | [] => none
  | t :: ts =>
    match f t with
    | some t' => some (t' :: ts)
    | none => (modifyFirst f ts).map (t :: ·)

/-- …over the chain. -/
def modify (f : Table → Option Table) (kv : KVStore) : Option KVStore :=
  match f kv.newest with
  | some t => some { kv with newest := t }
  | none => (modifyFirst f kv.frozen).map fun ts => { kv with frozen := ts }

/-- `Delete(hkey)`: delete from the first table that holds the hkey.  Then, on a one-table
chain whose garbage has reached `maxGarbageRatio = 0.40` of its slab, spill.  The Go test
`float64(t.allocated)*maxGarbageRatio <= float64(t.garbage)` rounds, and is modelled as
`2 * allocated ≤ 5 * garbage`: the two agree on every slab below `2^51` bytes, where the float
product is within `0.19` of `0.4 * allocated`, which is an integer (and then the product is
exact) or at least `0.2` away from one. -/
def delete (kv : KVStore) (h : UInt64) : KVStore × Option Error :=
  let kv := (kv.modify (·.delete c h)).getD kv
  match kv.frozen with
  | [] => if 2 * kv.newest.allocated ≤ 5 * kv.newest.garbage then (kv.spill, some .fragmented)
    else (kv, none)
  | _ :: _ => (kv, none)

/-- `UpdateTTL(hkey, data)`: rewrite the TTL in the first table that holds the hkey. -/
def updateTTL (kv : KVStore) (h : UInt64) (data : Entry) : KVStore × Option Error :=
  match kv.modify (·.updateTTL c h data) with
  | some kv' => (kv', none)
  | none => (kv, some .keyNotFound)

/-! ## Unfolding lemmas -/

variable {c}

@[simp] theorem tables_newest_frozen (kv : KVStore) : kv.newest :: kv.frozen = kv.tables := rfl

@[simp] theorem spill_tables (kv : KVStore) :
    kv.spill.tables = newTable (kv.inuse * 2) :: kv.tables := rfl

@[simp] theorem spill_newest (kv : KVStore) : kv.spill.newest = newTable (kv.inuse * 2) := rfl

@[simp] theorem spill_frozen (kv : KVStore) : kv.spill.frozen = kv.tables := rfl

@[simp] theorem inuse_spill (kv : KVStore) : kv.spill.inuse = kv.inuse := by
  simp [inuse, newTable]

@[simp] theorem putLoop_zero (write : Table → Option Table) (kv : KVStore) (res : Option Error) :
    putLoop write 0 kv res = none := rfl

theorem putLoop_succ (write : Table → Option Table) (n : Nat) (kv : KVStore)
    (res : Option Error) : putLoop write (n + 1) kv res =
      match write kv.newest with
      | some t => some ({ kv with newest := t }, res)
      | none => putLoop write n kv.spill (some .fragmented) := rfl

/-- `Put` is `PutRaw` of the entry's frame. -/
theorem put_eq_putRaw (fuel : Nat) (kv : KVStore) (h : UInt64) (e : Entry) :
    kv.put c fuel h e = kv.putRaw c fuel h (c.encode e) := rfl

end KVStore

end Olric.Kvstore
