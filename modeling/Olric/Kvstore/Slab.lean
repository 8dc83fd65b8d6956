import Olric.Storage.Entry

/-!
# Kvstore/Slab — entry frames in a table's byte slab

A table is a byte slab `memory[0..allocated]` into which entries are appended as frames.  The
frame layout lives in kvstore's entry code, which is not in src: the spec only says that
"serialization is length-prefixed and self-describing; an entry encodes its own total length
so a table can skip forward during scan".  So the layout is a parameter, `Codec`, carrying
exactly that as its laws: a frame read back from the front of any byte string decodes to its
entry, and declares its own length.

Writes into the slab are Go's `copy(memory[o:], src)`, modelled as `copyAt`; a frame is left
alone by a write that does not overlap it (`take_drop_copyAt_of_disjoint`).
-/

namespace Olric.Kvstore

open Olric.Storage

/-- Modelled from the spec: the serialization of an entry into a table frame (kvstore's entry
code is not in src).  `frameLen` reads the total length a frame declares from its first bytes
and `decode` reads the entry; both look at the frame at the front of the bytes they are given.
`updateTTL` rewrites a frame in place, so a frame's length does not depend on its TTL. -/
structure Codec where
  encode : Entry → List UInt8
  frameLen : List UInt8 → Nat
  decode : List UInt8 → Entry
  frameLen_encode : ∀ e rest, frameLen (encode e ++ rest) = (encode e).length
  decode_encode : ∀ e rest, decode (encode e ++ rest) = e
  length_encode_withTTL : ∀ e t, (encode (e.withTTL t)).length = (encode e).length

/-- Go's `copy(dst, src)`: overwrite `dst` from its front with as much of `src` as fits. -/
def copyFront : List UInt8 → List UInt8 → List UInt8
  | [], _ => []
  | dst, [] => dst
  | _ :: dst, b :: src => b :: copyFront dst src

/-- Go's `copy(dst[o:], src)`: overwrite `dst` from `o` on with as much of `src` as fits.  It
walks the slab only as far as the bytes it writes, so a read of a slab's first bytes evaluates
without the rest. -/
def copyAt : List UInt8 → Nat → List UInt8 → List UInt8
  | [], _, _ => []
  | dst, 0, src => copyFront dst src
  | b :: dst, o + 1, src => b :: copyAt dst o src

theorem copyFront_eq : ∀ dst src : List UInt8,
    copyFront dst src = src.take dst.length ++ dst.drop src.length
  | [], _ => by simp [copyFront]
  | _ :: _, [] => by simp [copyFront]
  | _ :: dst, _ :: src => by simp [copyFront, copyFront_eq dst src]

/-- **The write as the three pieces of the slab it leaves**: the bytes before `o`, as much of
`src` as fits, and the bytes past the write. -/
theorem copyAt_eq : ∀ (dst : List UInt8) (o : Nat) (src : List UInt8),
    copyAt dst o src = dst.take o ++ src.take (dst.length - o) ++ dst.drop (o + src.length)
  | [], _, _ => by simp [copyAt]
  | _ :: _, 0, src => by simp [copyAt, copyFront_eq]
  | b :: dst, o + 1, src => by
    simp only [copyAt, copyAt_eq dst o src, List.take_succ_cons, List.length_cons,
      Nat.add_sub_add_right, show o + 1 + src.length = o + src.length + 1 by omega,
      List.drop_succ_cons, List.cons_append]

@[simp] theorem length_copyAt (dst : List UInt8) (o : Nat) (src : List UInt8) :
    (copyAt dst o src).length = dst.length := by
  simp only [copyAt_eq, List.length_append, List.length_take, List.length_drop]
  omega

/-- A write that fits leaves its bytes at `o`, followed by the old slab. -/
theorem drop_copyAt {dst src : List UInt8} {o : Nat} (h : o + src.length ≤ dst.length) :
    (copyAt dst o src).drop o = src ++ dst.drop (o + src.length) := by
  have hs : src.take (dst.length - o) = src := List.take_of_length_le (by omega)
  rw [copyAt_eq, hs, List.append_assoc, List.drop_append_of_le_length (by simp; omega)]
  simp [show o - min o dst.length = 0 by omega]

/-- A write that fits leaves the slab past its end unchanged. -/
theorem drop_copyAt_of_le {dst src : List UInt8} {o p : Nat} (hfit : o + src.length ≤ dst.length)
    (hp : o + src.length ≤ p) : (copyAt dst o src).drop p = dst.drop p := by
  have hs : src.take (dst.length - o) = src := List.take_of_length_le (by omega)
  have hlen : (dst.take o ++ src).length = o + src.length := by simp; omega
  rw [copyAt_eq, hs, List.drop_append_eq_append_drop, List.drop_eq_nil_of_le (by omega),
    List.nil_append, hlen, List.drop_drop]
  exact congrArg dst.drop (by omega)

/-- **A write leaves every byte range it does not overlap unchanged.** -/
theorem take_drop_copyAt_of_disjoint {dst src : List UInt8} {o o' n : Nat}
    (hfit : o + src.length ≤ dst.length) (hd : o' + n ≤ o ∨ o + src.length ≤ o') :
    ((copyAt dst o src).drop o').take n = (dst.drop o').take n := by
  have hs : src.take (dst.length - o) = src := List.take_of_length_le (by omega)
  rcases hd with hd | hd
  · rw [copyAt_eq, hs, List.append_assoc, List.drop_append_of_le_length (by simp; omega),
      List.take_append_of_le_length (by simp; omega), List.drop_take, List.take_take,
      min_eq_left (by omega)]
  · rw [drop_copyAt_of_le hfit hd]

namespace Codec

variable (c : Codec)

/-- The frame of `e` starts at offset `o` of the slab. -/
def FrameAt (mem : List UInt8) (o : Nat) (e : Entry) : Prop :=
  (mem.drop o).take (c.encode e).length = c.encode e

variable {c}

theorem FrameAt.drop_eq {mem : List UInt8} {o : Nat} {e : Entry} (h : c.FrameAt mem o e) :
    mem.drop o = c.encode e ++ (mem.drop o).drop (c.encode e).length := by
  conv_lhs => rw [← List.take_append_drop (c.encode e).length (mem.drop o), h]

theorem FrameAt.decode_eq {mem : List UInt8} {o : Nat} {e : Entry} (h : c.FrameAt mem o e) :
    c.decode (mem.drop o) = e := by
  rw [h.drop_eq, c.decode_encode]

theorem FrameAt.frameLen_eq {mem : List UInt8} {o : Nat} {e : Entry} (h : c.FrameAt mem o e) :
    c.frameLen (mem.drop o) = (c.encode e).length := by
  rw [h.drop_eq, c.frameLen_encode]

/-- A write of exactly the frame of `e` puts that frame at `o`. -/
theorem frameAt_copyAt {dst : List UInt8} {o : Nat} {e : Entry}
    (h : o + (c.encode e).length ≤ dst.length) : c.FrameAt (copyAt dst o (c.encode e)) o e := by
  simp [FrameAt, drop_copyAt h]

/-- A frame survives a write that does not overlap it. -/
theorem FrameAt.copyAt {dst src : List UInt8} {o o' : Nat} {e : Entry} (h : c.FrameAt dst o' e)
    (hfit : o + src.length ≤ dst.length)
    (hd : o' + (c.encode e).length ≤ o ∨ o + src.length ≤ o') :
    c.FrameAt (Olric.Kvstore.copyAt dst o src) o' e := by
  rw [FrameAt, take_drop_copyAt_of_disjoint hfit hd]
  exact h

end Codec

end Olric.Kvstore
