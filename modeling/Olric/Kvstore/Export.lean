import Olric.Kvstore.Fill
import Olric.Kvstore.Transport

/-!
# Kvstore/Export — `Export`, `Import`, and what survives the round trip

`Export` ships the one table of a one-table chain, with `memory[:offset]` copied into a fresh
buffer of `offset + 1` bytes; `Import` makes a fresh engine whose table has `allocated` bytes,
installs the index and the counters, and copies the shipped bytes into the slab.  So, for every
msgpack whose `Unmarshal` inverts `Marshal`, the round trip gives back the table with every byte
past the cursor set to zero (`import_export`): the index, the cursor, the counters and
`memory[0..offset)` are the original's.  When the original's bytes past the cursor are zero too,
the two tables are equal, and every read, `Len`, `Stats` and every later run of writes agree.

Bytes past the cursor are zero in every engine reachable with `PutRaw` given entry frames
(`Reachable.wf_zeroTail`), and every table holds at least the `minimumSize` bytes that
`Import`'s fresh table keeps (`Reachable.size`).  Raw bytes that are not one frame
break that: `UpdateTTL` re-encodes the entry it decodes from them and can write past the
cursor, which the round trip then drops (`import_export_drops_tail`).
-/

namespace Olric.Kvstore

open Olric.Storage

namespace KVStore

/-- The `transport` value `Export` builds from the table: its fields, and `memory[:offset]`
copied into `make([]byte, offset+1)`. -/
def transport (t : Table) : Transport :=
  ⟨t.hkeys, copyAt (List.replicate (t.offset + 1) 0) 0 (t.memory.take t.offset), t.offset,
    t.allocated, t.inuse, t.garbage⟩

/-- `Export()`: `ErrFragmented` unless the chain has exactly one table. -/
def «export» (m : Msgpack) (kv : KVStore) : Except Error (List UInt8) :=
  match kv.frozen with
  | [] => .ok (m.marshal (transport kv.newest))
  | _ :: _ => .error .fragmented

/-- `Import(data)`: a fresh engine with `TableSize` the shipped `Allocated`, the index, cursor and
counters installed, and the shipped memory copied into the slab. -/
def «import» (m : Msgpack) (kv : KVStore) (data : List UInt8) : Except Error KVStore :=
  match m.unmarshal data with
  | .error err => .error (.msgpack err)
  | .ok tr => do
    let fresh ← new (kv.options.addTableSize tr.allocated)
    let t := fresh.newest
    pure { fresh with
      newest := { t with hkeys := tr.hkeys, offset := tr.offset, inuse := tr.inuse,
                         garbage := tr.garbage, memory := copyAt t.memory 0 tr.memory } }

theorem new_addTableSize (o : Options) (size : Nat) :
    new (o.addTableSize size) = .ok ⟨newTable size, [], o.addTableSize size⟩ := rfl

/-- What `Import` makes of the transport of a table of at least `minimumSize` bytes, which
`newTable` keeps at its size. -/
theorem import_marshal_transport (m : Msgpack) (kv : KVStore) {t : Table}
    (hmin : minimumSize ≤ t.allocated) :
    kv.import m (m.marshal (transport t)) =
      .ok ⟨{ t with memory := copyAt (List.replicate t.allocated 0) 0 (transport t).memory }, [],
        kv.options.addTableSize t.allocated⟩ := by
  have hnew : newTable (transport t).allocated =
      ⟨∅, List.replicate t.allocated 0, 0, t.allocated, 0, 0⟩ := by
    simp only [newTable, transport, max_eq_left hmin]
  simp only [«import», m.unmarshal_marshal, new_addTableSize, hnew]
  rfl

/-- The slab `Import` fills: the shipped prefix, then zeros. -/
theorem copyAt_transport_memory {t : Table} (hoff : t.offset ≤ t.allocated)
    (hlen : t.memory.length = t.allocated) :
    copyAt (List.replicate t.allocated 0) 0 (transport t).memory =
      t.memory.take t.offset ++ List.replicate (t.allocated - t.offset) 0 := by
  have hbuf : (transport t).memory = t.memory.take t.offset ++ [0] := by
    simp [transport, copyAt_eq, hlen, hoff]
  have hX : (t.memory.take t.offset).length = t.offset := by simp [hlen, hoff]
  rw [hbuf]
  simp only [copyAt_eq, List.take_zero, List.nil_append, List.length_replicate, Nat.sub_zero,
    List.length_append, hX, List.length_singleton, Nat.zero_add, List.drop_replicate]
  rcases Nat.lt_or_ge t.offset t.allocated with hlt | hge
  · rw [List.take_of_length_le (by simp [hX]; omega), List.append_assoc,
      show t.allocated - t.offset = t.allocated - (t.offset + 1) + 1 by omega, List.replicate_succ]
    rfl
  · rw [List.take_append_of_le_length (by omega), List.take_of_length_le (by omega),
      show t.allocated - t.offset = 0 by omega, show t.allocated - (t.offset + 1) = 0 by omega]

end KVStore

/-! ## Bytes past the cursor -/

namespace Table

variable {c : Codec}

/-- Every byte of the slab past the write cursor is zero, as in a fresh table. -/
def ZeroTail (t : Table) : Prop := ∀ b ∈ t.memory.drop t.offset, b = 0

instance (t : Table) : Decidable t.ZeroTail := inferInstanceAs (Decidable (∀ b ∈ _, b = 0))

theorem zeroTail_newTable (size : Nat) : (newTable size).ZeroTail := fun _ hb =>
  List.eq_of_mem_replicate (List.mem_of_mem_drop hb)

theorem ZeroTail.retire {t : Table} (ht : t.ZeroTail) (h : UInt64) (o : Nat) :
    (t.retire c h o).ZeroTail := ht

theorem ZeroTail.delete {t t' : Table} (ht : t.ZeroTail) {h : UInt64}
    (hd : t.delete c h = some t') : t'.ZeroTail := by
  obtain ⟨o, -, rfl⟩ := delete_eq_some.mp hd
  exact ht.retire h o

/-- A write at the cursor moves the cursor past itself: any bytes, frame or not, keep the slab
past the cursor zero. -/
theorem ZeroTail.putRaw {t t' : Table} (ht : t.ZeroTail) (hlen : t.memory.length = t.allocated)
    {h : UInt64} {raw : List UInt8} (hp : t.putRaw c h raw = some t') : t'.ZeroTail := by
  obtain ⟨hfit, rfl⟩ := putRaw_eq_some.mp hp
  intro b hb
  simp only [append_memory, forget_memory, append_offset, forget_offset] at hb
  rw [drop_copyAt_of_le (by omega) le_rfl, ← List.drop_drop] at hb
  exact ht b (List.mem_of_mem_drop hb)

/-- `updateTTL` rewrites a frame of a well-formed table in place, before the cursor. -/
theorem ZeroTail.updateTTL {t t' : Table} (ht : t.ZeroTail) (hwf : t.WF c) {h : UInt64}
    {d : Entry} (hu : t.updateTTL c h d = some t') : t'.ZeroTail := by
  obtain ⟨o, hl, rfl⟩ := updateTTL_eq_some.mp hu
  obtain ⟨e, hf, hle⟩ := hwf.frame h o hl
  have := c.length_encode_withTTL e d.ttl
  have := hwf.offset_le; have := hwf.length
  intro b hb
  dsimp only at hb
  rw [hf.decode_eq, drop_copyAt_of_le (by omega) (by omega)] at hb
  exact ht b hb

/-- With the slab past the cursor zero, the slab is its prefix up to the cursor, then zeros. -/
theorem ZeroTail.take_append {t : Table} (ht : t.ZeroTail) (hlen : t.memory.length = t.allocated) :
    t.memory.take t.offset ++ List.replicate (t.allocated - t.offset) 0 = t.memory := by
  have hd : t.memory.drop t.offset = List.replicate (t.allocated - t.offset) 0 :=
    List.eq_replicate_iff.mpr ⟨by simp [hlen], ht⟩
  rw [← hd, List.take_append_drop]

end Table

namespace KVStore

variable {c : Codec}

/-- Every table of every engine reachable with `PutRaw` given entry frames is well formed and
zero past its cursor. -/
theorem Reachable.wf_zeroTail {kv : KVStore} (hr : Reachable c (IsFrame c) kv) :
    kv.Forall fun t => t.WF c ∧ t.ZeroTail :=
  hr.forall (fun n => ⟨Table.wf_newTable n, Table.zeroTail_newTable n⟩)
    (fun _ _ hraw _ _ ht hp => by
      obtain ⟨e, rfl⟩ := hraw.elim id id
      exact ⟨ht.1.putRaw hp, ht.2.putRaw ht.1.length hp⟩)
    (fun _ _ _ ht hd => ⟨ht.1.delete hd, ht.2.delete hd⟩)
    (fun _ _ _ _ ht hu => ⟨ht.1.updateTTL hu, ht.2.updateTTL ht.1 hu⟩)

/-- The round trip of a table that is zero past its cursor gives back the table. -/
theorem import_marshal_transport_of_zeroTail (m : Msgpack) (kv : KVStore) {t : Table}
    (hoff : t.offset ≤ t.allocated) (hlen : t.memory.length = t.allocated)
    (hmin : minimumSize ≤ t.allocated) (hz : t.ZeroTail) :
    kv.import m (m.marshal (transport t)) =
      .ok ⟨t, [], kv.options.addTableSize t.allocated⟩ := by
  rw [import_marshal_transport m kv hmin, copyAt_transport_memory hoff hlen, hz.take_append hlen]

/-! ## Runs of writes

What follows an `Import` is a run of `Put`, `PutRaw`, `Delete` and `UpdateTTL`.  None of them
reads the options, so an engine and the same chain under other options return the same to every
run, and end with the same chain. -/

/-- One write of the engine's API. -/
inductive Op where
  | put (h : UInt64) (e : Entry)
  | putRaw (h : UInt64) (raw : List UInt8)
  | delete (h : UInt64)
  | updateTTL (h : UInt64) (data : Entry)

/-- One write, with `fuel` turns for the loop of `Put`: the engine after it and what it
returned; `none` when the loop ran out of fuel. -/
def Op.apply (c : Codec) (fuel : Nat) : Op → KVStore → Option (KVStore × Option Error)
  | .put h e, kv => kv.put c fuel h e
  | .putRaw h raw, kv => kv.putRaw c fuel h raw
  | .delete h, kv => some (kv.delete c h)
  | .updateTTL h data, kv => some (kv.updateTTL c h data)

/-- A run of writes: what each returned, in order, and the engine after the last. -/
def runOps (c : Codec) (fuel : Nat) : List Op → KVStore → Option (List (Option Error) × KVStore)
  | [], kv => some ([], kv)
  | op :: ops, kv =>
    match op.apply c fuel kv with
    | none => none
    | some (kv', r) => (runOps c fuel ops kv').map fun p => (r :: p.1, p.2)

theorem putLoop_options (write : Table → Option Table) (o : Options) :
    ∀ n kv res, putLoop write n { kv with options := o } res =
      (putLoop write n kv res).map fun p => ({ p.1 with options := o }, p.2)
  | 0, _, _ => rfl
  | n + 1, kv, res => by
    rw [putLoop_succ, putLoop_succ]
    cases write kv.newest with
    | some t => rfl
    | none => exact putLoop_options write o n kv.spill _

theorem modify_options (f : Table → Option Table) (kv : KVStore) (o : Options) :
    ({ kv with options := o } : KVStore).modify f =
      (kv.modify f).map ({ · with options := o }) := by
  unfold KVStore.modify
  cases f kv.newest with
  | some t => rfl
  | none => cases modifyFirst f kv.frozen <;> rfl

theorem delete_options (kv : KVStore) (h : UInt64) (o : Options) :
    ({ kv with options := o } : KVStore).delete c h =
      ({ (kv.delete c h).1 with options := o }, (kv.delete c h).2) := by
  simp only [KVStore.delete, modify_options]
  rw [show ({ kv with options := o } : KVStore) =
      (fun k : KVStore => ({ k with options := o } : KVStore)) kv from rfl, Option.getD_map]
  generalize (kv.modify (·.delete c h)).getD kv = k
  rcases k with ⟨t, _ | _, _⟩
  · by_cases hg : 2 * t.allocated ≤ 5 * t.garbage
    · simp only [if_pos hg]; rfl
    · simp only [if_neg hg]
  · rfl

theorem updateTTL_options (kv : KVStore) (h : UInt64) (d : Entry) (o : Options) :
    ({ kv with options := o } : KVStore).updateTTL c h d =
      ({ (kv.updateTTL c h d).1 with options := o }, (kv.updateTTL c h d).2) := by
  simp only [KVStore.updateTTL, modify_options]
  cases kv.modify (·.updateTTL c h d) <;> rfl

theorem Op.apply_options (op : Op) (fuel : Nat) (kv : KVStore) (o : Options) :
    op.apply c fuel { kv with options := o } =
      (op.apply c fuel kv).map fun p => ({ p.1 with options := o }, p.2) := by
  cases op with
  | put h e => exact putLoop_options _ o fuel kv none
  | putRaw h raw => exact putLoop_options _ o fuel kv none
  | delete h => exact congrArg some (delete_options kv h o)
  | updateTTL h d => exact congrArg some (updateTTL_options kv h d o)

/-- **Every run of writes ignores the options.** -/
theorem runOps_options (fuel : Nat) (o : Options) : ∀ (ops : List Op) (kv : KVStore),
    runOps c fuel ops { kv with options := o } =
      (runOps c fuel ops kv).map fun p => (p.1, { p.2 with options := o })
  | [], _ => rfl
  | op :: ops, kv => by
    simp only [runOps, Op.apply_options]
    cases op.apply c fuel kv with
    | none => rfl
    | some p => simp only [Option.map_some', runOps_options fuel o ops, Option.map_map]; rfl

/-! ## The round trip -/

/-- **The round trip of `Export` and `Import`**: on a one-table engine whose cursor lies inside
its slab of at least `minimumSize` bytes, as every table the program builds has, `Export`
returns bytes, and `Import` of them returns a one-table engine whose index, cursor, counters
and `memory[0..offset)` are the original's and whose slab past the cursor is zero.  When the
original's slab past the cursor is zero too, `Import` returns the original with `TableSize` set
to its size: every read of every hkey, `Len` and `Stats` agree, and every later run of writes
returns the same and ends with the same chain. -/
theorem import_export (m : Msgpack) {kv : KVStore} (hone : kv.frozen = [])
    (hoff : kv.newest.offset ≤ kv.newest.allocated)
    (hlen : kv.newest.memory.length = kv.newest.allocated)
    (hmin : minimumSize ≤ kv.newest.allocated) :
    ∃ b, kv.export m = .ok b ∧ ∃ kv', kv.import m b = .ok kv' ∧ kv'.frozen = [] ∧
      kv'.newest.hkeys = kv.newest.hkeys ∧ kv'.newest.offset = kv.newest.offset ∧
      kv'.newest.allocated = kv.newest.allocated ∧ kv'.newest.inuse = kv.newest.inuse ∧
      kv'.newest.garbage = kv.newest.garbage ∧
      kv'.newest.memory = kv.newest.memory.take kv.newest.offset ++
        List.replicate (kv.newest.allocated - kv.newest.offset) 0 ∧
      (kv.newest.ZeroTail →
        kv' = { kv with options := kv.options.addTableSize kv.newest.allocated } ∧
        (∀ h, SameReads c kv kv' h) ∧ kv'.len = kv.len ∧ kv'.stats = kv.stats ∧
        ∀ fuel ops, runOps c fuel ops kv' =
          (runOps c fuel ops kv).map fun p => (p.1, { p.2 with options := kv'.options })) := by
  obtain ⟨t, fr, o⟩ := kv
  subst hone
  refine ⟨_, rfl, _, import_marshal_transport m _ hmin, rfl, rfl, rfl, rfl, rfl, rfl,
    copyAt_transport_memory hoff hlen, fun hz => ?_⟩
  have hmem : copyAt (List.replicate t.allocated 0) 0 (transport t).memory = t.memory :=
    (copyAt_transport_memory hoff hlen).trans (hz.take_append hlen)
  rw [hmem]
  exact ⟨rfl, fun _ => ⟨rfl, rfl, rfl, rfl, rfl⟩, rfl, rfl,
    fun fuel ops => runOps_options fuel _ ops ⟨t, [], o⟩⟩

/-- After `Put(5, e)` on the engine of `DefaultOptions()`, the slab is zero past the cursor, and
`Import(Export())` returns the engine itself, where `Get(5)` returns `e`. -/
theorem import_export_after_put :
    let kv : KVStore := { (⟨newTable minimumSize, [], .default⟩ : KVStore) with
      newest :=
        ((newTable minimumSize).forget tagged 5).append 5 (tagged.encode ⟨[7], [], 0, 0⟩) }
    kv.frozen = [] ∧ kv.newest.offset ≤ kv.newest.allocated ∧
    kv.newest.memory.length = kv.newest.allocated ∧ minimumSize ≤ kv.newest.allocated ∧
    kv.newest.ZeroTail ∧
    ∃ b, kv.export Msgpack.tagged = .ok b ∧ ∃ kv', kv.import Msgpack.tagged b = .ok kv' ∧
      kv' = { kv with options := kv.options.addTableSize kv.newest.allocated } ∧
      kv'.get tagged 5 = .ok ⟨[7], [], 0, 0⟩ := by
  intro kv
  have hr : Reachable tagged (IsFrame tagged) kv :=
    .put (.new new_default) (put_of_fits 5 _ 0 (by decide))
  have hlen : kv.newest.memory.length = kv.newest.allocated := ((forall_iff kv).mp hr.length).1
  have hz : kv.newest.ZeroTail := ((forall_iff kv).mp hr.wf_zeroTail).1.2
  obtain ⟨b, hb, kv', hi, -, -, -, -, -, -, -, himp⟩ :=
    import_export (c := tagged) Msgpack.tagged rfl (by decide) hlen (by decide)
  obtain ⟨hkv', hreads, -⟩ := himp hz
  exact ⟨rfl, by decide, hlen, by decide, hz, b, hb, kv', hi, hkv', (hreads 5).get.trans rfl⟩

/-- **Bytes past the cursor do not survive the round trip.**  `New(DefaultOptions())`, then
`PutRaw(5, [1])`, whose one byte is not a frame, then `UpdateTTL(5, d)` with TTL 1: the table
has one index entry, at `0`, below the cursor `1`, but `UpdateTTL` re-encoded the entry it
decoded from `[1, 0, …]` over the first bytes of the slab, past the cursor.  For every msgpack,
`Import(Export())` zeroes those bytes, and `GetTTL(5)` returns 0 where the original returns 1. -/
theorem import_export_drops_tail_of_msgpack (m : Msgpack) :
    ∃ kv, Reachable tagged (fun _ => True) kv ∧ kv.frozen = [] ∧
      kv.newest.offset ≤ kv.newest.allocated ∧ kv.newest.memory.length = kv.newest.allocated ∧
      minimumSize ≤ kv.newest.allocated ∧
      (∀ h o, kv.newest.hkeys.lookup h = some o → o < kv.newest.offset) ∧
      ∃ b kv', kv.export m = .ok b ∧ kv.import m b = .ok kv' ∧
        kv'.getTTL tagged 5 = .ok 0 ∧ kv.getTTL tagged 5 = .ok 1 := by
  have hr : Reachable tagged (fun _ => True) _ := .updateTTL (h := 5) (d := ⟨[], [], 0, 1⟩)
    (.putRaw (.new new_default) trivial
      (rfl : (⟨newTable minimumSize, [], .default⟩ : KVStore).putRaw tagged 1 5 [1] = _))
  refine ⟨_, hr, rfl, by decide, ((forall_iff _).mp hr.length).1, by decide, ?_, _, _, rfl,
    import_marshal_transport m _ (by decide), rfl, rfl⟩
  intro h o hl
  change ((∅ : AList fun _ : UInt64 => Nat).insert 5 0).lookup h = some o at hl
  change o < 1
  by_cases he : h = 5
  · rw [he, AList.lookup_insert, Option.some.injEq] at hl
    omega
  · rw [AList.lookup_insert_ne he] at hl
    cases hl

/-- …with the msgpack stand-in of `Transport`. -/
theorem import_export_drops_tail :
    ∃ kv, Reachable tagged (fun _ => True) kv ∧ kv.frozen = [] ∧
      kv.newest.offset ≤ kv.newest.allocated ∧ kv.newest.memory.length = kv.newest.allocated ∧
      minimumSize ≤ kv.newest.allocated ∧
      (∀ h o, kv.newest.hkeys.lookup h = some o → o < kv.newest.offset) ∧
      ∃ b kv', kv.export Msgpack.tagged = .ok b ∧ kv.import Msgpack.tagged b = .ok kv' ∧
        kv'.getTTL tagged 5 = .ok 0 ∧ kv.getTTL tagged 5 = .ok 1 :=
  import_export_drops_tail_of_msgpack Msgpack.tagged

/-- **On every reachable one-table engine the round trip is exact**: with `PutRaw` given entry
frames, `Import(Export())` returns the engine itself, with `TableSize` set to its table's size. -/
theorem import_export_of_reachable (m : Msgpack) {kv : KVStore} (hr : Reachable c (IsFrame c) kv)
    (hone : kv.frozen = []) :
    ∃ b, kv.export m = .ok b ∧
      kv.import m b = .ok { kv with options := kv.options.addTableSize kv.newest.allocated } := by
  obtain ⟨t, fr, o⟩ := kv
  subst hone
  obtain ⟨hwf, hz⟩ := (forall_iff _).mp hr.wf_zeroTail |>.1
  exact ⟨_, rfl, import_marshal_transport_of_zeroTail m _ hwf.offset_le hwf.length
    ((forall_iff _).mp hr.size).1.2 hz⟩

/-- `New(DefaultOptions())`, `Put(5, e)`, `Put(6, e)`, `UpdateTTL(5, d)` with TTL 1: one table,
which the round trip gives back. -/
theorem import_export_of_reachable_after_writes :
    ∃ kv, Reachable tagged (IsFrame tagged) kv ∧ kv.frozen = [] ∧
      kv.getTTL tagged 5 = .ok 1 ∧ kv.get tagged 6 = .ok ⟨[7], [], 0, 0⟩ ∧
      ∃ b, kv.export Msgpack.tagged = .ok b ∧
        kv.import Msgpack.tagged b =
          .ok { kv with options := kv.options.addTableSize kv.newest.allocated } := by
  have hr : Reachable tagged (IsFrame tagged) _ := .updateTTL (h := 5) (d := ⟨[], [], 0, 1⟩)
    (.put (.put (.new new_default) (put_of_fits 5 ⟨[7], [], 0, 0⟩ 0 (by decide)))
      (put_of_fits 6 ⟨[7], [], 0, 0⟩ 0 (by decide)))
  exact ⟨_, hr, rfl, rfl, rfl, import_export_of_reachable (c := tagged) Msgpack.tagged hr rfl⟩

end KVStore

end Olric.Kvstore
