import Olric.Kvstore.Slab

/-!
# Kvstore/Table — one fixed-capacity table of the chain

kvstore's table code is not in src; every operation here follows §4.A of the spec.  A table is
a slab `memory[0..allocated]`, a write cursor `offset`, the live and reclaimable byte counts
`inuse` and `garbage`, and the index `hkeys` from an hkey to the offset of its frame.  A read
that misses returns `none`: the spec's "previous" signal, which sends the engine on to the
next older table.

`Table.WF` is what every table the engine builds satisfies: each indexed offset starts the frame
of an entry, inside `memory[0..offset)`, and indexed frames do not overlap.  The operations
keep it (`WF.putRaw`, `WF.delete`, `WF.updateTTL`), and under it a table's reads are all
projections of `get` (`getRaw_eq`).
-/

namespace Olric.Kvstore

open Olric.Storage

/-- Modelled from the spec: a table (kvstore's table code is not in src). -/
structure Table where
  hkeys : AList (fun _ : UInt64 => Nat)
  memory : List UInt8
  offset : Nat
  allocated : Nat
  inuse : Nat
  garbage : Nat

/-- `minimumSize = 1 << 16` of `kvstore.go`: the least slab a table gets. -/
def minimumSize : Nat := 1 <<< 16

theorem minimumSize_eq : minimumSize = 65536 := rfl

/-- Modelled from the spec: `newTable(size)`, an empty slab of `max(minimum, size)` zero bytes.
The spec sizes every table the engine appends `max(minimum, 2*engine.inuse())`, and `kvstore.go`
hands `newTable` the bare `kv.Inuse() * 2`, as `New` hands it `TableSize`: the clamp is the
table's. -/
def newTable (size : Nat) : Table :=
  ⟨∅, List.replicate (max size minimumSize) 0, 0, max size minimumSize, 0, 0⟩

@[simp] theorem newTable_hkeys (size : Nat) : (newTable size).hkeys = ∅ := rfl
@[simp] theorem newTable_memory (size : Nat) :
    (newTable size).memory = List.replicate (max size minimumSize) 0 := rfl
@[simp] theorem newTable_offset (size : Nat) : (newTable size).offset = 0 := rfl
@[simp] theorem newTable_allocated (size : Nat) :
    (newTable size).allocated = max size minimumSize := rfl
@[simp] theorem newTable_inuse (size : Nat) : (newTable size).inuse = 0 := rfl
@[simp] theorem newTable_garbage (size : Nat) : (newTable size).garbage = 0 := rfl

namespace Table

variable (c : Codec)

/-- Modelled from the spec: the bookkeeping when the frame of `h` at `o` stops being live —
"remove index entry, increment `garbage` by the entry's length, decrement `inuse`". -/
def retire (t : Table) (h : UInt64) (o : Nat) : Table :=
  let n := c.frameLen (t.memory.drop o)
  { t with hkeys := t.hkeys.erase h, inuse := t.inuse - n, garbage := t.garbage + n }

/-- Modelled from the spec: `delete(hkey)`.  `none` is the "previous" signal: not here. -/
def delete (t : Table) (h : UInt64) : Option Table :=
  (t.hkeys.lookup h).map (t.retire c h)

/-- `put` over an existing key first forgets it: `delete`, or the table itself if `h` is not
here. -/
def forget (t : Table) (h : UInt64) : Table := (t.delete c h).getD t

/-- Append `raw` at the write cursor and index it under `h`. -/
def append (t : Table) (h : UInt64) (raw : List UInt8) : Table :=
  { t with hkeys := t.hkeys.insert h t.offset, memory := copyAt t.memory t.offset raw,
           offset := t.offset + raw.length, inuse := t.inuse + raw.length }

/-- Modelled from the spec: `putRaw(hkey, raw)`.  `none` is `errNotEnoughSpace`, when
`offset + len > allocated`; otherwise a frame already indexed under `h` is retired and `raw`
appended. -/
def putRaw (t : Table) (h : UInt64) (raw : List UInt8) : Option Table :=
  if t.allocated < t.offset + raw.length then none
  else some ((t.forget c h).append h raw)

/-- Modelled from the spec: `put(hkey, entry)` appends the encoded entry. -/
def put (t : Table) (h : UInt64) (e : Entry) : Option Table := t.putRaw c h (c.encode e)

/-- Modelled from the spec: `getRaw(hkey)`, the frame as its own length prefix delimits it. -/
def getRaw (t : Table) (h : UInt64) : Option (List UInt8) :=
  (t.hkeys.lookup h).map fun o => (t.memory.drop o).take (c.frameLen (t.memory.drop o))

/-- Modelled from the spec: `get(hkey)`, the decoded entry. -/
def get (t : Table) (h : UInt64) : Option Entry :=
  (t.hkeys.lookup h).map fun o => c.decode (t.memory.drop o)

/-- Modelled from the spec: `getTTL(hkey)`, a projection of the frame. -/
def getTTL (t : Table) (h : UInt64) : Option (BitVec 64) := (t.get c h).map Entry.ttl

/-- Modelled from the spec: `getKey(hkey)`, a projection of the frame. -/
def getKey (t : Table) (h : UInt64) : Option (List UInt8) := (t.get c h).map Entry.key

/-- Modelled from the spec: `updateTTL(hkey, entry)` rewrites the frame's TTL in place. -/
def updateTTL (t : Table) (h : UInt64) (data : Entry) : Option Table :=
  (t.hkeys.lookup h).map fun o =>
    { t with
      memory := copyAt t.memory o (c.encode ((c.decode (t.memory.drop o)).withTTL data.ttl)) }

/-! ## Unfolding lemmas -/

variable {c}

@[simp] theorem retire_memory (t : Table) (h : UInt64) (o : Nat) :
    (t.retire c h o).memory = t.memory := rfl
@[simp] theorem retire_offset (t : Table) (h : UInt64) (o : Nat) :
    (t.retire c h o).offset = t.offset := rfl
@[simp] theorem retire_allocated (t : Table) (h : UInt64) (o : Nat) :
    (t.retire c h o).allocated = t.allocated := rfl
@[simp] theorem retire_hkeys (t : Table) (h : UInt64) (o : Nat) :
    (t.retire c h o).hkeys = t.hkeys.erase h := rfl

@[simp] theorem append_memory (t : Table) (h : UInt64) (raw : List UInt8) :
    (t.append h raw).memory = copyAt t.memory t.offset raw := rfl
@[simp] theorem append_offset (t : Table) (h : UInt64) (raw : List UInt8) :
    (t.append h raw).offset = t.offset + raw.length := rfl
@[simp] theorem append_allocated (t : Table) (h : UInt64) (raw : List UInt8) :
    (t.append h raw).allocated = t.allocated := rfl
@[simp] theorem append_hkeys (t : Table) (h : UInt64) (raw : List UInt8) :
    (t.append h raw).hkeys = t.hkeys.insert h t.offset := rfl

theorem delete_eq_some {t t' : Table} {h : UInt64} :
    t.delete c h = some t' ↔ ∃ o, t.hkeys.lookup h = some o ∧ t.retire c h o = t' := by
  simp [delete]

theorem delete_eq_none {t : Table} {h : UInt64} :
    t.delete c h = none ↔ t.hkeys.lookup h = none := by
  simp [delete]

@[simp] theorem forget_memory (t : Table) (h : UInt64) : (t.forget c h).memory = t.memory := by
  unfold forget delete; cases t.hkeys.lookup h <;> rfl
@[simp] theorem forget_offset (t : Table) (h : UInt64) : (t.forget c h).offset = t.offset := by
  unfold forget delete; cases t.hkeys.lookup h <;> rfl
@[simp] theorem forget_allocated (t : Table) (h : UInt64) :
    (t.forget c h).allocated = t.allocated := by
  unfold forget delete; cases t.hkeys.lookup h <;> rfl

theorem lookup_forget (t : Table) (h h' : UInt64) :
    (t.forget c h).hkeys.lookup h' = if h' = h then none else t.hkeys.lookup h' := by
  unfold forget delete
  cases hl : t.hkeys.lookup h with
  | none =>
    split_ifs with he
    · subst he; exact hl
    · rfl
  | some o =>
    split_ifs with he
    · subst he; exact AList.lookup_erase _ _
    · exact AList.lookup_erase_ne he

/-- **The spec lemma of `putRaw`**: it fails exactly when the frame does not fit, and otherwise
appends to the table with `h` forgotten. -/
theorem putRaw_eq_some {t t' : Table} {h : UInt64} {raw : List UInt8} :
    t.putRaw c h raw = some t' ↔
      t.offset + raw.length ≤ t.allocated ∧ (t.forget c h).append h raw = t' := by
  unfold putRaw
  split_ifs with hfit
  · simp only [reduceCtorEq, false_iff, not_and]; omega
  · simp only [Option.some.injEq, iff_and_self]; omega

theorem putRaw_eq_none {t : Table} {h : UInt64} {raw : List UInt8} :
    t.putRaw c h raw = none ↔ t.allocated < t.offset + raw.length := by
  unfold putRaw; split_ifs <;> simp [*]

/-! ## Well-formed tables

The invariant every table of a reachable chain satisfies, and the lemmas that say what each
operation does to the reads under it. -/

/-- Every table the engine builds: the slab is `allocated` bytes, the cursor lies inside it,
every indexed offset starts the frame of an entry inside `memory[0..offset)`, and the frames of
two indexed keys do not overlap. -/
structure WF (c : Codec) (t : Table) : Prop where
  length : t.memory.length = t.allocated
  offset_le : t.offset ≤ t.allocated
  frame : ∀ h o, t.hkeys.lookup h = some o →
    ∃ e, c.FrameAt t.memory o e ∧ o + (c.encode e).length ≤ t.offset
  disjoint : ∀ h h' o o', h ≠ h' → t.hkeys.lookup h = some o → t.hkeys.lookup h' = some o' →
    o + c.frameLen (t.memory.drop o) ≤ o' ∨ o' + c.frameLen (t.memory.drop o') ≤ o

theorem wf_newTable (size : Nat) : (newTable size).WF c where
  length := List.length_replicate _ _
  offset_le := Nat.zero_le _
  frame := by simp
  disjoint := by simp

theorem get_of_frameAt {t : Table} {h : UInt64} {o : Nat} {e : Entry}
    (hl : t.hkeys.lookup h = some o) (hf : c.FrameAt t.memory o e) : t.get c h = some e := by
  simp [get, hl, hf.decode_eq]

theorem lookup_retire (t : Table) (h h' : UInt64) (o : Nat) :
    (t.retire c h o).hkeys.lookup h' = if h' = h then none else t.hkeys.lookup h' := by
  split_ifs with he
  · subst he; exact AList.lookup_erase _ _
  · exact AList.lookup_erase_ne he

theorem WF.retire {t : Table} (ht : t.WF c) (h : UInt64) (o : Nat) : (t.retire c h o).WF c where
  length := ht.length
  offset_le := ht.offset_le
  frame h' o' hl := by
    rw [lookup_retire] at hl; split_ifs at hl; exact ht.frame h' o' hl
  disjoint h₁ h₂ o₁ o₂ hne hl₁ hl₂ := by
    rw [lookup_retire] at hl₁ hl₂; split_ifs at hl₁ hl₂; exact ht.disjoint h₁ h₂ o₁ o₂ hne hl₁ hl₂

theorem WF.forget {t : Table} (ht : t.WF c) (h : UInt64) : (t.forget c h).WF c := by
  unfold Table.forget delete
  cases t.hkeys.lookup h with
  | none => exact ht
  | some o => exact ht.retire h o

/-- The frame length read at an indexed offset is the length of its entry's frame. -/
theorem WF.frameLen_eq {t : Table} (ht : t.WF c) {h : UInt64} {o : Nat}
    (hl : t.hkeys.lookup h = some o) :
    ∃ e, c.FrameAt t.memory o e ∧ c.frameLen (t.memory.drop o) = (c.encode e).length ∧
      o + (c.encode e).length ≤ t.offset := by
  obtain ⟨e, hf, hle⟩ := ht.frame h o hl
  exact ⟨e, hf, hf.frameLen_eq, hle⟩

theorem lookup_append (t : Table) (h h' : UInt64) (raw : List UInt8) :
    (t.append h raw).hkeys.lookup h' = if h' = h then some t.offset else t.hkeys.lookup h' := by
  split_ifs with he
  · subst he; exact AList.lookup_insert _
  · exact AList.lookup_insert_ne he

/-- An indexed frame survives a write that fits at or after the cursor. -/
theorem WF.frame_copyAt {t : Table} (ht : t.WF c) {h : UInt64} {o p : Nat} {src : List UInt8}
    (hl : t.hkeys.lookup h = some o) (hp : t.offset ≤ p) (hfit : p + src.length ≤ t.allocated) :
    ∃ e, c.frameLen (t.memory.drop o) = (c.encode e).length ∧
      c.FrameAt (copyAt t.memory p src) o e ∧ o + (c.encode e).length ≤ t.offset := by
  obtain ⟨e, hf, hle⟩ := ht.frame h o hl
  exact ⟨e, hf.frameLen_eq, hf.copyAt (ht.length ▸ hfit) (Or.inl (by omega)), hle⟩

theorem WF.append {t : Table} (ht : t.WF c) {h : UInt64} {e : Entry}
    (hfit : t.offset + (c.encode e).length ≤ t.allocated) :
    (t.append h (c.encode e)).WF c := by
  have hnew : c.FrameAt (copyAt t.memory t.offset (c.encode e)) t.offset e :=
    Codec.frameAt_copyAt (ht.length ▸ hfit)
  refine ⟨by simpa using ht.length, hfit, fun h' o' hl => ?_, fun h₁ h₂ o₁ o₂ hne hl₁ hl₂ => ?_⟩
  · rw [lookup_append] at hl
    split_ifs at hl with he
    · cases hl; exact ⟨e, hnew, by simp⟩
    · obtain ⟨e', -, hf', hle⟩ := ht.frame_copyAt hl le_rfl hfit
      exact ⟨e', hf', by simp; omega⟩
  · simp only [lookup_append, append_memory] at hl₁ hl₂ ⊢
    split_ifs at hl₁ hl₂ with he₁ he₂ he₂
    · exact absurd (he₁.trans he₂.symm) hne
    · cases hl₁
      obtain ⟨e', -, hf', hle⟩ := ht.frame_copyAt hl₂ le_rfl hfit
      rw [hf'.frameLen_eq]; exact Or.inr hle
    · cases hl₂
      obtain ⟨e', -, hf', hle⟩ := ht.frame_copyAt hl₁ le_rfl hfit
      rw [hf'.frameLen_eq]; exact Or.inl hle
    · obtain ⟨_, hlen₁, hf₁, -⟩ := ht.frame_copyAt hl₁ le_rfl hfit
      obtain ⟨_, hlen₂, hf₂, -⟩ := ht.frame_copyAt hl₂ le_rfl hfit
      rw [hf₁.frameLen_eq, hf₂.frameLen_eq, ← hlen₁, ← hlen₂]
      exact ht.disjoint h₁ h₂ o₁ o₂ hne hl₁ hl₂

/-- **`putRaw` of an entry's frame keeps a table well formed.** -/
theorem WF.putRaw {t t' : Table} (ht : t.WF c) {h : UInt64} {e : Entry}
    (hp : t.putRaw c h (c.encode e) = some t') : t'.WF c := by
  obtain ⟨hfit, rfl⟩ := putRaw_eq_some.mp hp
  exact (ht.forget h).append (by simpa using hfit)

theorem WF.delete {t t' : Table} (ht : t.WF c) {h : UInt64} (hd : t.delete c h = some t') :
    t'.WF c := by
  obtain ⟨o, -, rfl⟩ := delete_eq_some.mp hd
  exact ht.retire h o

theorem updateTTL_eq_some {t t' : Table} {h : UInt64} {d : Entry} :
    t.updateTTL c h d = some t' ↔ ∃ o, t.hkeys.lookup h = some o ∧
      { t with memory := copyAt t.memory o (c.encode ((c.decode (t.memory.drop o)).withTTL d.ttl)) }
        = t' := by
  simp [updateTTL]

/-- The frame of another key survives the in-place rewrite of `updateTTL`: indexed frames do
not overlap, and the rewrite keeps its frame's length. -/
theorem WF.frameAt_updateTTL_of_ne {t : Table} (ht : t.WF c) {h h' : UInt64} {o o' : Nat}
    {e' : Entry} (ttl : BitVec 64) (hl : t.hkeys.lookup h = some o)
    (hl' : t.hkeys.lookup h' = some o') (hne : h' ≠ h) (hf' : c.FrameAt t.memory o' e') :
    c.FrameAt (copyAt t.memory o (c.encode ((c.decode (t.memory.drop o)).withTTL ttl))) o' e' := by
  obtain ⟨e, hf, hle⟩ := ht.frame h o hl
  have hd := ht.disjoint h' h o' o hne hl' hl
  rw [hf'.frameLen_eq, hf.frameLen_eq] at hd
  have hlen := c.length_encode_withTTL e ttl
  have := ht.offset_le; have := ht.length
  rw [hf.decode_eq]
  exact hf'.copyAt (by omega) (by omega)

/-- **`updateTTL` keeps a table well formed**: the new frame has the old one's length and the
frames of the other keys survive it. -/
theorem WF.updateTTL {t t' : Table} (ht : t.WF c) {h : UInt64} {d : Entry}
    (hu : t.updateTTL c h d = some t') : t'.WF c := by
  obtain ⟨o, hl, rfl⟩ := updateTTL_eq_some.mp hu
  obtain ⟨e, hf, hle⟩ := ht.frame h o hl
  have hlen := c.length_encode_withTTL e d.ttl
  have hnew : c.FrameAt (copyAt t.memory o (c.encode ((c.decode (t.memory.drop o)).withTTL d.ttl)))
      o (e.withTTL d.ttl) := by
    rw [hf.decode_eq]
    exact Codec.frameAt_copyAt (by have := ht.offset_le; have := ht.length; omega)
  -- every indexed frame is still there, with the length it had
  have keep : ∀ h' o', t.hkeys.lookup h' = some o' → ∃ e', c.frameLen (t.memory.drop o') =
      (c.encode e').length ∧ o' + (c.encode e').length ≤ t.offset ∧ c.FrameAt
        (copyAt t.memory o (c.encode ((c.decode (t.memory.drop o)).withTTL d.ttl))) o' e' := by
    intro h' o' hl'
    by_cases he : h' = h
    · subst he; cases hl.symm.trans hl'
      exact ⟨_, hf.frameLen_eq.trans hlen.symm, hlen ▸ hle, hnew⟩
    · obtain ⟨e', hf', hle'⟩ := ht.frame h' o' hl'
      exact ⟨e', hf'.frameLen_eq, hle', ht.frameAt_updateTTL_of_ne d.ttl hl hl' he hf'⟩
  refine ⟨by simpa using ht.length, ht.offset_le, fun h' o' hl' => ?_,
    fun h₁ h₂ o₁ o₂ hne hl₁ hl₂ => ?_⟩
  · obtain ⟨e', -, hle', hf'⟩ := keep h' o' hl'
    exact ⟨e', hf', hle'⟩
  · obtain ⟨_, hlen₁, -, hf₁⟩ := keep h₁ o₁ hl₁
    obtain ⟨_, hlen₂, -, hf₂⟩ := keep h₂ o₂ hl₂
    dsimp only
    rw [hf₁.frameLen_eq, hf₂.frameLen_eq, ← hlen₁, ← hlen₂]
    exact ht.disjoint h₁ h₂ o₁ o₂ hne hl₁ hl₂

/-! ## What each operation does to the reads -/

@[simp] theorem isSome_get (t : Table) (h : UInt64) :
    (t.get c h).isSome = (t.hkeys.lookup h).isSome := by
  simp [get]

/-- **Read after write**: after `putRaw` of an entry's frame into a slab of its allocated size,
`get` returns that entry, whatever else the slab holds. -/
theorem get_putRaw_self {t t' : Table} (hlen : t.memory.length = t.allocated) {h : UInt64}
    {e : Entry} (hp : t.putRaw c h (c.encode e) = some t') : t'.get c h = some e := by
  obtain ⟨hfit, rfl⟩ := putRaw_eq_some.mp hp
  exact get_of_frameAt (by simp [lookup_append])
    (Codec.frameAt_copyAt (by simpa [hlen] using hfit))

theorem WF.get_putRaw_self {t t' : Table} (ht : t.WF c) {h : UInt64} {e : Entry}
    (hp : t.putRaw c h (c.encode e) = some t') : t'.get c h = some e :=
  Table.get_putRaw_self ht.length hp

/-- **`putRaw` leaves every other key's read unchanged**, whatever bytes it writes. -/
theorem WF.get_putRaw_of_ne {t t' : Table} (ht : t.WF c) {h h' : UInt64} {raw : List UInt8}
    (hp : t.putRaw c h raw = some t') (hne : h' ≠ h) : t'.get c h' = t.get c h' := by
  obtain ⟨hfit, rfl⟩ := putRaw_eq_some.mp hp
  have hl : ((t.forget c h).append h raw).hkeys.lookup h' = t.hkeys.lookup h' := by
    rw [lookup_append, lookup_forget, if_neg hne, if_neg hne]
  cases hl' : t.hkeys.lookup h' with
  | none => simp only [get, hl, hl', Option.map_none']
  | some o' =>
    obtain ⟨e', hf, hle⟩ := ht.frame h' o' hl'
    rw [get_of_frameAt hl' hf,
      get_of_frameAt (hl.trans hl') (by simpa using hf.copyAt (ht.length ▸ hfit) (Or.inl hle))]

theorem get_delete_self {t t' : Table} {h : UInt64} (hd : t.delete c h = some t') :
    t'.get c h = none := by
  obtain ⟨o, -, rfl⟩ := delete_eq_some.mp hd
  simp [get, lookup_retire]

theorem get_delete_of_ne {t t' : Table} {h h' : UInt64} (hd : t.delete c h = some t')
    (hne : h' ≠ h) : t'.get c h' = t.get c h' := by
  obtain ⟨o, -, rfl⟩ := delete_eq_some.mp hd
  simp [get, lookup_retire, hne]

/-- `updateTTL` gives the entry of `h` the new TTL… -/
theorem WF.get_updateTTL_self {t t' : Table} (ht : t.WF c) {h : UInt64} {d : Entry}
    (hu : t.updateTTL c h d = some t') :
    t'.get c h = (t.get c h).map fun e => e.withTTL d.ttl := by
  obtain ⟨o, hl, rfl⟩ := updateTTL_eq_some.mp hu
  obtain ⟨e, hf, hle⟩ := ht.frame h o hl
  have hfit : o + (c.encode (e.withTTL d.ttl)).length ≤ t.memory.length := by
    have := c.length_encode_withTTL e d.ttl; have := ht.offset_le; have := ht.length; omega
  rw [get_of_frameAt hl hf, Option.map_some']
  refine get_of_frameAt (t := { t with memory := _ }) hl ?_
  rw [hf.decode_eq]
  exact Codec.frameAt_copyAt hfit

/-- …and leaves every other key's read unchanged. -/
theorem WF.get_updateTTL_of_ne {t t' : Table} (ht : t.WF c) {h h' : UInt64} {d : Entry}
    (hu : t.updateTTL c h d = some t') (hne : h' ≠ h) : t'.get c h' = t.get c h' := by
  obtain ⟨o, hl, rfl⟩ := updateTTL_eq_some.mp hu
  cases hl' : t.hkeys.lookup h' with
  | none => simp only [get, hl', Option.map_none']
  | some o' =>
    obtain ⟨e', hf', -⟩ := ht.frame h' o' hl'
    rw [get_of_frameAt hl' hf']
    exact get_of_frameAt (t := { t with memory := _ }) hl'
      (ht.frameAt_updateTTL_of_ne d.ttl hl hl' hne hf')

end Table

end Olric.Kvstore
