import Olric.Kvstore.Slab

/-!
# Kvstore/TaggedCodec — a frame layout to run the model on

kvstore's own frame layout is not in src, so the engine is proved for every `Codec`.  To run it
on concrete inputs — the witnesses and counterexamples of the other modules — it needs one:
`tagged` writes the key and the value as tagged byte strings (each byte behind a `1`, then a
closing `0`) and the timestamp and TTL as eight big-endian bytes each.  Every frame declares its
own length, as the spec asks, and the laws are proved once here.
-/

namespace Olric.Kvstore

open Olric.Storage

namespace Tagged

/-- `k` big-endian bytes of `n`. -/
def beBytes : Nat → Nat → List UInt8
  | 0, _ => []
  | k + 1, n => UInt8.ofNat (n / 256 ^ k % 256) :: beBytes k n

/-- The number big-endian bytes spell, read after the digits `acc`. -/
def beValue (acc : Nat) : List UInt8 → Nat
  | [] => acc
  | b :: bs => beValue (acc * 256 + b.toNat) bs

@[simp] theorem length_beBytes (k n : Nat) : (beBytes k n).length = k := by
  induction k <;> simp [beBytes, *]

theorem beValue_beBytes (k n : Nat) :
    ∀ acc, beValue acc (beBytes k n) = acc * 256 ^ k + n % 256 ^ k := by
  induction k with
  | zero => intro acc; simp [beBytes, beValue, Nat.mod_one]
  | succ k ih =>
    intro acc
    have hd : (UInt8.ofNat (n / 256 ^ k % 256)).toNat = n / 256 ^ k % 256 :=
      UInt8.toNat_ofNat_of_lt (Nat.mod_lt _ (by decide))
    rw [beBytes, beValue, hd, ih, Nat.mod_pow_succ]
    ring

/-- A byte string with each byte behind a `1`, closed by a `0`. -/
def tag : List UInt8 → List UInt8
  | [] => [0]
  | b :: bs => 1 :: b :: tag bs

/-- Read a tagged byte string from the front: the bytes, and how many input bytes they took. -/
def untag : List UInt8 → List UInt8 × Nat
  | [] => ([], 0)
  | [_] => ([], 1)
  | t :: b :: rest => if t = 1 then ((b :: (untag rest).1), (untag rest).2 + 2) else ([], 1)

@[simp] theorem length_tag (bs : List UInt8) : (tag bs).length = 2 * bs.length + 1 := by
  induction bs <;> simp [tag, *]; omega

theorem untag_tag (bs rest : List UInt8) : untag (tag bs ++ rest) = (bs, (tag bs).length) := by
  induction bs with
  | nil => cases rest <;> simp [tag, untag]
  | cons b bs ih => simp [tag, untag, ih]

/-- The frame of an entry. -/
def encode (e : Entry) : List UInt8 :=
  tag e.key ++ tag e.value ++ beBytes 8 e.timestamp.toNat ++ beBytes 8 e.ttl.toNat

/-- The length a frame declares: its two tagged strings and the sixteen bytes after them. -/
def frameLen (bs : List UInt8) : Nat :=
  (untag bs).2 + (untag (bs.drop (untag bs).2)).2 + 16

/-- The entry a frame holds. -/
def decode (bs : List UInt8) : Entry :=
  let rest := bs.drop ((untag bs).2 + (untag (bs.drop (untag bs).2)).2)
  ⟨(untag bs).1, (untag (bs.drop (untag bs).2)).1, BitVec.ofNat 64 (beValue 0 (rest.take 8)),
    BitVec.ofNat 64 (beValue 0 ((rest.drop 8).take 8))⟩

theorem ofNat_beValue_beBytes (x : BitVec 64) (rest : List UInt8) :
    BitVec.ofNat 64 (beValue 0 ((beBytes 8 x.toNat ++ rest).take 8)) = x := by
  rw [List.take_append_of_le_length (by simp), List.take_of_length_le (by simp), beValue_beBytes]
  apply BitVec.eq_of_toNat_eq
  simpa using x.isLt

theorem encode_eq (e : Entry) (rest : List UInt8) :
    encode e ++ rest =
      tag e.key ++
        (tag e.value ++ (beBytes 8 e.timestamp.toNat ++ (beBytes 8 e.ttl.toNat ++ rest))) := by
  simp [encode]

end Tagged

/-- The tagged layout, with its laws. -/
def tagged : Codec where
  encode := Tagged.encode
  frameLen := Tagged.frameLen
  decode := Tagged.decode
  frameLen_encode e rest := by
    simp [Tagged.frameLen, Tagged.encode_eq, Tagged.untag_tag, Tagged.encode]
    omega
  decode_encode e rest := by
    simp only [Tagged.decode, Tagged.encode_eq, Tagged.untag_tag, List.drop_left, List.drop_append,
      List.drop_left' (Tagged.length_beBytes 8 _), Tagged.ofNat_beValue_beBytes]
  length_encode_withTTL e t := by simp [Tagged.encode, Entry.withTTL]

end Olric.Kvstore
