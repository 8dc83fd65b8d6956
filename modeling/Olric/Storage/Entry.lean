import Mathlib

/-!
# Storage/Entry — what the storage package hands the engine

The engine of `kvstore.go` is written against the `storage` package: an `Entry` (key, value,
timestamp, TTL), the two sentinel errors `ErrKeyNotFound` and `ErrFragmented`, and an
`Options` bag of which the engine reads one key, `"TableSize"`.  Only what the engine reads is
modelled.

An `int64` of the entry (its TTL and timestamp) is a `BitVec 64`: the engine never does
arithmetic on them, it stores and returns them.  A Go `string` is a byte sequence, so the key
is `List UInt8`.
-/

namespace Olric.Storage

/-- A `storage.Entry`: the record the engine stores under an hkey. -/
structure Entry where
  key : List UInt8
  value : List UInt8
  timestamp : BitVec 64
  ttl : BitVec 64
deriving DecidableEq, Repr

/-- The entry with its TTL replaced, as `UpdateTTL` leaves it. -/
def Entry.withTTL (e : Entry) (ttl : BitVec 64) : Entry := { e with ttl := ttl }

@[simp] theorem Entry.ttl_withTTL (e : Entry) (ttl : BitVec 64) : (e.withTTL ttl).ttl = ttl := rfl

/-- The errors the engine returns.  The texts of the errors of `storage.Options.Get`, msgpack
and regexp are not in src; each keeps what the code passes on. -/
inductive Error where
  /-- `storage.ErrKeyNotFound` -/
  | keyNotFound
  /-- `storage.ErrFragmented`, the soft signal that a compaction would help -/
  | fragmented
  /-- the error of `options.Get` for a missing key -/
  | options (key : String)
  /-- an error of `msgpack.Unmarshal`, which `Import` returns unchanged -/
  | msgpack (msg : String)
  /-- an error of `regexp.Compile`, which `MatchOnKey` returns unchanged -/
  | regexp (msg : String)
deriving DecidableEq, Repr

/-- A `storage.Options` bag, as far as the engine reads it: the `"TableSize"` key. -/
structure Options where
  tableSize : Option Nat
deriving DecidableEq, Repr

namespace Options

/-- `options.Get("TableSize")`. -/
def getTableSize (o : Options) : Except Error Nat :=
  match o.tableSize with
  | some size => .ok size
  | none => .error (.options "TableSize")

/-- `options.Add("TableSize", size)`. -/
def addTableSize (_ : Options) (size : Nat) : Options := ⟨some size⟩

/-- `DefaultOptions()`: `TableSize` is `minimumSize = 1 << 16`. -/
def default : Options := ⟨some (1 <<< 16)⟩

@[simp] theorem getTableSize_addTableSize (o : Options) (size : Nat) :
    (o.addTableSize size).getTableSize = .ok size := rfl

end Options

end Olric.Storage
