import Olric.Kvstore.TaggedCodec

/-!
# Kvstore/Transport — the value `Export` ships, and msgpack

`Export` copies the one table of a chain into a `transport` struct and hands it to
`msgpack.Marshal`; `Import` reads it back with `msgpack.Unmarshal`.  msgpack is a library, not
part of kvstore, so it is a parameter here: a `Msgpack` is any pair of functions with the law
the round trip rests on, that `Unmarshal` inverts `Marshal` on transport values.

To run `Export` and `Import` on concrete engines there is one lawful pair, `Msgpack.tagged`: the
index as its entries, each behind a `1` and closed by a `0`; the memory as a tagged byte string;
each number as a tagged run of that many zero bytes.
-/

namespace Olric.Kvstore

/-- `transport`: what `Export` ships of the one table, in the order of the struct's fields. -/
structure Transport where
  hkeys : AList (fun _ : UInt64 => Nat)
  memory : List UInt8
  offset : Nat
  allocated : Nat
  inuse : Nat
  garbage : Nat

/-- `msgpack.Marshal` and `msgpack.Unmarshal` on transport values, with the law that the second
inverts the first.  `Marshal` of a struct of a map, bytes and integers does not fail, so its
error result is left out. -/
structure Msgpack where
  marshal : Transport → List UInt8
  unmarshal : List UInt8 → Except String Transport
  unmarshal_marshal : ∀ tr, unmarshal (marshal tr) = .ok tr

namespace Msgpack

/-! ## A lawful stand-in -/

/-- A number as a tagged run of that many zero bytes. -/
def natBytes (n : Nat) : List UInt8 := Tagged.tag (List.replicate n 0)

/-- Read a number `natBytes` wrote, and the rest of the input. -/
def readNat (bs : List UInt8) : Nat × List UInt8 :=
  ((Tagged.untag bs).1.length, bs.drop (Tagged.untag bs).2)

theorem readNat_natBytes (n : Nat) (rest : List UInt8) :
    readNat (natBytes n ++ rest) = (n, rest) := by
  simp [readNat, natBytes, Tagged.untag_tag]

/-- An hkey as eight big-endian bytes. -/
def hkeyBytes (h : UInt64) : List UInt8 := Tagged.beBytes 8 h.toNat

/-- Read an hkey `hkeyBytes` wrote, and the rest of the input. -/
def readHKey (bs : List UInt8) : UInt64 × List UInt8 :=
  (UInt64.ofNat (Tagged.beValue 0 (bs.take 8)), bs.drop 8)

theorem readHKey_hkeyBytes (h : UInt64) (rest : List UInt8) :
    readHKey (hkeyBytes h ++ rest) = (h, rest) := by
  have hlt : h.toNat < 256 ^ 8 := h.toNat_lt_size
  simp only [readHKey, hkeyBytes, List.take_left' (Tagged.length_beBytes 8 _),
    List.drop_left' (Tagged.length_beBytes 8 _), Tagged.beValue_beBytes, zero_mul, zero_add,
    Nat.mod_eq_of_lt hlt]
  exact congrArg (·, rest) (UInt64.eq_of_toBitVec_eq
    (BitVec.eq_of_toNat_eq (UInt64.toBitVec_eq_of_lt h.toNat_lt_size)))

/-- The entries of an index, each behind a `1`, closed by a `0`. -/
def entriesBytes : List (Σ _ : UInt64, Nat) → List UInt8
  | [] => [0]
  | ⟨h, o⟩ :: es => 1 :: (hkeyBytes h ++ (natBytes o ++ entriesBytes es))

/-- Read at most `n` entries `entriesBytes` wrote, and the rest of the input. -/
def readEntries : Nat → List UInt8 → List (Σ _ : UInt64, Nat) × List UInt8
  | 0, bs => ([], bs)
  | _ + 1, [] => ([], [])
  | n + 1, b :: bs =>
    if b = 1 then
      ((⟨(readHKey bs).1, (readNat (readHKey bs).2).1⟩ ::
        (readEntries n (readNat (readHKey bs).2).2).1),
       (readEntries n (readNat (readHKey bs).2).2).2)
    else ([], bs)

theorem length_lt_length_entriesBytes : ∀ es : List (Σ _ : UInt64, Nat),
    es.length < (entriesBytes es).length
  | [] => Nat.zero_lt_one
  | ⟨_, _⟩ :: es => by
    have := length_lt_length_entriesBytes es
    simp only [entriesBytes, List.length_cons, List.length_append]
    omega

theorem readEntries_entriesBytes (rest : List UInt8) : ∀ (es : List (Σ _ : UInt64, Nat)) (n : Nat),
    es.length < n → readEntries n (entriesBytes es ++ rest) = (es, rest)
  | [], _ + 1, _ => rfl
  | ⟨h, o⟩ :: es, n + 1, hn => by
    rw [entriesBytes, List.cons_append, readEntries, if_pos rfl]
    simp only [List.append_assoc, readHKey_hkeyBytes, readNat_natBytes,
      readEntries_entriesBytes rest es n (by simpa using hn)]

/-- `Marshal` of the stand-in. -/
def marshalTagged (tr : Transport) : List UInt8 :=
  entriesBytes tr.hkeys.entries ++ (Tagged.tag tr.memory ++ (natBytes tr.offset ++
    (natBytes tr.allocated ++ (natBytes tr.inuse ++ natBytes tr.garbage))))

/-- `Unmarshal` of the stand-in: an error when the entries repeat an hkey. -/
def unmarshalTagged (bs : List UInt8) : Except String Transport :=
  let es := readEntries bs.length bs
  if hn : (es.1.map Sigma.fst).Nodup then
    let memory := Tagged.untag es.2
    let offset := readNat (es.2.drop memory.2)
    let allocated := readNat offset.2
    let inuse := readNat allocated.2
    .ok ⟨⟨es.1, hn⟩, memory.1, offset.1, allocated.1, inuse.1, (readNat inuse.2).1⟩
  else .error "duplicate hkey"

/-- The stand-in, with its law. -/
def tagged : Msgpack where
  marshal := marshalTagged
  unmarshal := unmarshalTagged
  unmarshal_marshal tr := by
    have hes := readEntries_entriesBytes (Tagged.tag tr.memory ++ (natBytes tr.offset ++
      (natBytes tr.allocated ++ (natBytes tr.inuse ++ natBytes tr.garbage)))) tr.hkeys.entries
      (marshalTagged tr).length
      (by simpa [marshalTagged] using Nat.lt_add_right _ (length_lt_length_entriesBytes _))
    have hg : readNat (natBytes tr.garbage) = (tr.garbage, []) := by
      simpa using readNat_natBytes tr.garbage []
    simp only [unmarshalTagged, marshalTagged] at hes ⊢
    simp only [hes, Tagged.untag_tag, List.drop_left, readNat_natBytes, hg]
    exact dif_pos tr.hkeys.nodupKeys

end Msgpack

end Olric.Kvstore
