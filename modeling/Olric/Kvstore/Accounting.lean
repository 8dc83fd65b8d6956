import Olric.Kvstore.Delete

/-!
# Kvstore/Accounting — what `inuse`, `garbage` and `Len()` count

A table keeps two counters beside its slab: `inuse`, the live bytes, and `garbage`, the bytes a
`delete` or an overwriting `put` left behind.  `Stats()` sums them over the chain, `Inuse()`
sizes every spill (`newTable(kv.Inuse() * 2)`), and `Delete` compares `garbage` with
`allocated` to decide whether to spill.  So the engine's own decisions rest on what the counters
mean, which is `Table.Counts`: `inuse` is the total length of the frames the index points to
(`live`), and every byte below the cursor is counted once, as live or as garbage.

Every table operation keeps it, given frames and a well-formed table (`Counts.putRaw`,
`Counts.delete`, `Counts.updateTTL`), so it holds of every table of every reachable engine, and
`Stats()` never reports more live and garbage bytes than it has allocated
(`Reachable.stats_inuse_add_garbage`).

`Len()`, documented as the key count, adds up the index sizes instead: it counts every copy of
an hkey, so it exceeds the number of hkeys the chain holds while a stale copy waits in a frozen
table, and equals it on one table (`len_eq_sum_copies`).
-/

namespace Olric.Kvstore

open Olric.Storage

namespace Table

variable {c : Codec}

/-- The lengths of the frames at the offsets of `l`, summed, in the slab `mem`. -/
def frameSum (c : Codec) (mem : List UInt8) (l : List (Σ _ : UInt64, Nat)) : Nat :=
  (l.map fun p => c.frameLen (mem.drop p.2)).sum

/-- The live bytes of a table: the frames its index points to. -/
def live (c : Codec) (t : Table) : Nat := frameSum c t.memory t.hkeys.entries

/-- The counters of a table say what its slab holds: `inuse` is its live bytes, and every byte
below the cursor is live or garbage. -/
structure Counts (c : Codec) (t : Table) : Prop where
  inuse_eq : t.inuse = t.live c
  inuse_add_garbage : t.inuse + t.garbage = t.offset

theorem counts_newTable (size : Nat) : (newTable size).Counts c := ⟨rfl, rfl⟩

/-! ## Sums over the index -/

theorem frameSum_congr {mem mem' : List UInt8} {l : List (Σ _ : UInt64, Nat)}
    (h : ∀ p ∈ l, c.frameLen (mem'.drop p.2) = c.frameLen (mem.drop p.2)) :
    frameSum c mem' l = frameSum c mem l :=
  congrArg List.sum (List.map_congr_left h)

/-- Removing `h` from the index removes its frame from the sum. -/
theorem frameSum_erase (mem : List UInt8) {s : AList (fun _ : UInt64 => Nat)} {h : UInt64}
    {o : Nat} (hl : s.lookup h = some o) :
    frameSum c mem (s.erase h).entries + c.frameLen (mem.drop o) = frameSum c mem s.entries := by
  have hmem : h ∈ s.entries.keys := AList.lookup_isSome.mp (by simp [hl])
  obtain ⟨b, l₁, l₂, -, hs, he⟩ := List.exists_of_kerase hmem
  have hb : b = o := by
    have : b ∈ s.lookup h := AList.mem_lookup_iff.mpr (by rw [hs]; simp)
    rw [hl] at this; exact (Option.mem_some_iff.mp this).symm
  subst hb
  have herase : (s.erase h).entries = s.entries.kerase h := rfl
  rw [frameSum, frameSum, herase, he, hs]
  simp only [List.map_append, List.map_cons, List.sum_append, List.sum_cons]
  omega

/-- A frame at every indexed offset of `t`, of the same length in `mem'` as in the slab. -/
theorem live_congr {t : Table} {mem' : List UInt8}
    (h : ∀ h o, t.hkeys.lookup h = some o →
      c.frameLen (mem'.drop o) = c.frameLen (t.memory.drop o)) :
    frameSum c mem' t.hkeys.entries = t.live c :=
  frameSum_congr fun p hp => h p.1 p.2 (AList.mem_lookup_iff.mpr hp)

/-! ## Each operation keeps the counts -/

theorem Counts.retire {t : Table} (hc : t.Counts c) {h : UInt64} {o : Nat}
    (hl : t.hkeys.lookup h = some o) : (t.retire c h o).Counts c := by
  have hsum := frameSum_erase (c := c) t.memory hl
  have h₁ := hc.inuse_eq
  have h₂ := hc.inuse_add_garbage
  constructor <;> simp only [Table.retire, live] <;> unfold live at h₁ <;> omega

theorem Counts.delete {t t' : Table} (hc : t.Counts c) {h : UInt64}
    (hd : t.delete c h = some t') : t'.Counts c := by
  obtain ⟨o, hl, rfl⟩ := delete_eq_some.mp hd
  exact hc.retire hl

theorem Counts.forget {t : Table} (hc : t.Counts c) (h : UInt64) : (t.forget c h).Counts c := by
  unfold Table.forget
  cases hd : t.delete c h with
  | none => exact hc
  | some t' => exact hc.delete hd

/-- Appending the frame of an entry for an hkey the index does not hold adds its length to the
live bytes and to the cursor. -/
theorem Counts.append {t : Table} (hc : t.Counts c) (ht : t.WF c) {h : UInt64} {e : Entry}
    (hnot : t.hkeys.lookup h = none) (hfit : t.offset + (c.encode e).length ≤ t.allocated) :
    (t.append h (c.encode e)).Counts c := by
  have hold : frameSum c (copyAt t.memory t.offset (c.encode e)) t.hkeys.entries = t.live c :=
    live_congr fun h' o' hl => by
      obtain ⟨e', hlen, hf', -⟩ := ht.frame_copyAt hl le_rfl hfit
      rw [hf'.frameLen_eq, hlen]
  have hnew : c.frameLen ((copyAt t.memory t.offset (c.encode e)).drop t.offset) =
      (c.encode e).length := (Codec.frameAt_copyAt (ht.length ▸ hfit)).frameLen_eq
  have hentries : (t.append h (c.encode e)).hkeys.entries = ⟨h, t.offset⟩ :: t.hkeys.entries :=
    AList.insert_entries_of_neg (AList.lookup_eq_none.mp hnot)
  have h₁ := hc.inuse_eq
  have h₂ := hc.inuse_add_garbage
  constructor
  · simp only [live, hentries, frameSum, List.map_cons, List.sum_cons, append_memory]
      at hold h₁ ⊢
    simp only [Table.append]
    rw [hnew, hold, ← h₁]
    omega
  · simp only [Table.append]
    omega

theorem Counts.putRaw {t t' : Table} (hc : t.Counts c) (ht : t.WF c) {h : UInt64} {e : Entry}
    (hp : t.putRaw c h (c.encode e) = some t') : t'.Counts c := by
  obtain ⟨hfit, rfl⟩ := putRaw_eq_some.mp hp
  have hnot : (t.forget c h).hkeys.lookup h = none := by simp [lookup_forget]
  exact (hc.forget h).append (ht.forget h) hnot (by simpa using hfit)

/-- `updateTTL` rewrites a frame in place with one of the same length, and leaves the others. -/
theorem Counts.updateTTL {t t' : Table} (hc : t.Counts c) (ht : t.WF c) {h : UInt64}
    {d : Entry} (hu : t.updateTTL c h d = some t') : t'.Counts c := by
  obtain ⟨o, hl, rfl⟩ := updateTTL_eq_some.mp hu
  obtain ⟨e, hf, hle⟩ := ht.frame h o hl
  have hlive : frameSum c
      (copyAt t.memory o (c.encode ((c.decode (t.memory.drop o)).withTTL d.ttl)))
      t.hkeys.entries = t.live c := live_congr fun h' o' hl' => by
    by_cases he : h' = h
    · subst he
      cases hl.symm.trans hl'
      have hnew : c.FrameAt
          (copyAt t.memory o (c.encode ((c.decode (t.memory.drop o)).withTTL d.ttl)))
          o (e.withTTL d.ttl) := by
        rw [hf.decode_eq]
        exact Codec.frameAt_copyAt (by
          have := c.length_encode_withTTL e d.ttl; have := ht.offset_le; have := ht.length
          omega)
      rw [hnew.frameLen_eq, hf.frameLen_eq, c.length_encode_withTTL]
    · obtain ⟨e', hf', -⟩ := ht.frame h' o' hl'
      rw [(ht.frameAt_updateTTL_of_ne d.ttl hl hl' he hf').frameLen_eq, hf'.frameLen_eq]
  exact ⟨hc.inuse_eq.trans hlive.symm, hc.inuse_add_garbage⟩

end Table

namespace KVStore

variable {c : Codec}

/-! ## Every reachable engine -/

/-- **Every table of every reachable engine keeps its counters right.** -/
theorem Reachable.counts {kv : KVStore} (hr : Reachable c (IsFrame c) kv) :
    kv.Forall fun t => t.WF c ∧ t.Counts c :=
  hr.forall (fun n => ⟨Table.wf_newTable n, Table.counts_newTable n⟩)
    (fun _ _ hraw _ _ ht hp => by
      obtain ⟨e, rfl⟩ := hraw.elim id id
      exact ⟨ht.1.putRaw hp, ht.2.putRaw ht.1 hp⟩)
    (fun _ _ _ ht hd => ⟨ht.1.delete hd, ht.2.delete hd⟩)
    (fun _ _ _ _ ht hu => ⟨ht.1.updateTTL hu, ht.2.updateTTL ht.1 hu⟩)

/-- **`Stats()` never reports more live and garbage bytes than the chain has allocated**, on
every reachable engine: the two add up to the tables' write cursors.  And `Inuse()`, which
sizes every spill, is the total length of the frames the tables index. -/
theorem Reachable.stats_inuse_add_garbage {kv : KVStore} (hr : Reachable c (IsFrame c) kv) :
    kv.stats.inuse + kv.stats.garbage = (kv.tables.map Table.offset).sum ∧
      (kv.tables.map Table.offset).sum ≤ kv.stats.allocated ∧
      kv.inuse = (kv.tables.map (Table.live c)).sum := by
  have hc := hr.counts
  refine ⟨?_, List.sum_le_sum fun t ht => (hc t ht).1.offset_le,
    congrArg List.sum (List.map_congr_left fun t ht => (hc t ht).2.inuse_eq)⟩
  calc kv.stats.inuse + kv.stats.garbage
      = (kv.tables.map fun t => t.inuse + t.garbage).sum := List.sum_map_add.symm
    _ = (kv.tables.map Table.offset).sum :=
      congrArg List.sum (List.map_congr_left fun t ht => (hc t ht).2.inuse_add_garbage)

/-- `New(DefaultOptions())`, `Put(5, e)`, `Delete(5)`: the frame turns to garbage, far below the
40% of the slab that would spill, and `Stats()` reports its twenty bytes as garbage. -/
theorem Reachable.stats_inuse_add_garbage_deleted :
    let kv := ((⟨(newTable minimumSize).append 5 (tagged.encode ⟨[7], [], 0, 0⟩), [], .default⟩ :
      KVStore).delete tagged 5).1
    Reachable tagged (IsFrame tagged) kv ∧ kv.stats = ⟨65536, 0, 20⟩ ∧
      kv.stats.inuse + kv.stats.garbage ≤ kv.stats.allocated := by
  intro kv
  have hr : Reachable tagged (IsFrame tagged) kv :=
    .delete (.put (.new new_default) (put_of_fits 5 ⟨[7], [], 0, 0⟩ 0 (by decide)))
  obtain ⟨hsum, hle, -⟩ := Reachable.stats_inuse_add_garbage hr
  exact ⟨hr, by decide, hsum ▸ hle⟩

/-! ## What `Len()` counts

`Len()` adds up the sizes of the tables' indexes, so an hkey with a stale copy in a frozen table
is counted once per table that holds it.  The copies `Get` falls back to after a `Delete`
(`copies`) are exactly those index entries. -/

/-- An hkey occurs in the tables' indexes once per copy of it. -/
theorem count_flatMap_keys (h : UInt64) : ∀ ts : List Table,
    (ts.flatMap (·.hkeys.keys)).count h = (ts.filterMap (·.get c h)).length
  | [] => rfl
  | t :: ts => by
    have hk : h ∈ t.hkeys.keys ↔ (t.get c h).isSome := by
      rw [Table.isSome_get, AList.lookup_isSome, AList.mem_keys]
    rw [List.flatMap_cons, List.count_append, count_flatMap_keys h ts,
      List.count_eq_of_nodup t.hkeys.keys_nodup]
    cases hg : t.get c h <;> simp [hg, hk, Nat.add_comm]

theorem len_eq_length_flatMap (kv : KVStore) :
    kv.len = (kv.tables.flatMap (·.hkeys.keys)).length := by
  simp [len, List.length_flatMap, AList.keys, List.keys, Function.comp_def]

theorem check_iff_mem_flatMap (kv : KVStore) (h : UInt64) :
    kv.check h = true ↔ h ∈ kv.tables.flatMap (·.hkeys.keys) := by
  simp only [check, List.any_eq_true, List.mem_flatMap, AList.lookup_isSome, AList.mem_keys]

/-- `Check` finds an hkey exactly when it has a copy. -/
theorem one_le_length_copies {kv : KVStore} {h : UInt64} (hc : kv.check h = true) :
    1 ≤ (kv.copies c h).length := by
  obtain ⟨t, ht, hl⟩ := List.any_eq_true.mp hc
  rw [copies, List.length_filterMap_eq_countP]
  exact List.countP_pos_iff.mpr ⟨t, ht, by simpa using hl⟩

/-- A one-table chain holds at most one copy of an hkey. -/
theorem length_copies_le_one {kv : KVStore} (hone : kv.frozen = []) (h : UInt64) :
    (kv.copies c h).length ≤ 1 := by
  simpa [copies, tables, hone] using List.length_filterMap_le (·.get c h) kv.tables

/-- **`Len()` counts copies, not hkeys**: for any list `l` of the hkeys `Check` finds, each
once, `Len()` is the sum over `l` of how many tables hold each.  So it is at least the number
of hkeys the chain holds, and exactly that number on a one-table chain. -/
theorem len_eq_sum_copies (kv : KVStore) {l : List UInt64} (hl : l.Nodup)
    (hcheck : ∀ h, h ∈ l ↔ kv.check h = true) :
    kv.len = (l.map fun h => (kv.copies c h).length).sum ∧ l.length ≤ kv.len ∧
      (kv.frozen = [] → kv.len = l.length) := by
  have hperm : l.Perm (kv.tables.flatMap (·.hkeys.keys)).dedup :=
    (List.perm_ext_iff_of_nodup hl (List.nodup_dedup _)).mpr fun h => by
      rw [hcheck, List.mem_dedup, check_iff_mem_flatMap]
  have hlen : kv.len = (l.map fun h => (kv.copies c h).length).sum :=
    calc kv.len = (kv.tables.flatMap (·.hkeys.keys)).length := len_eq_length_flatMap kv
      _ = ((kv.tables.flatMap (·.hkeys.keys)).dedup.map
          fun h => (kv.tables.flatMap (·.hkeys.keys)).count h).sum :=
        (List.sum_map_count_dedup_eq_length _).symm
      _ = (l.map fun h => (kv.tables.flatMap (·.hkeys.keys)).count h).sum :=
        ((hperm.map _).sum_eq).symm
      _ = (l.map fun h => (kv.copies c h).length).sum :=
        congrArg List.sum (List.map_congr_left fun h _ => count_flatMap_keys h kv.tables)
  have hone : ∀ h ∈ l, 1 ≤ (kv.copies c h).length := fun h hm =>
    one_le_length_copies ((hcheck h).mp hm)
  refine ⟨hlen, ?_, fun hfz => ?_⟩
  · have := List.length_le_sum_of_one_le _ fun i hi => by
      obtain ⟨h, hm, rfl⟩ := List.mem_map.mp hi
      exact hone h hm
    rwa [List.length_map, ← hlen] at this
  · rw [hlen, List.map_congr_left fun h hm => le_antisymm (length_copies_le_one hfz h) (hone h hm)]
    simp

/-- `Put(5, e)` until the table is full, and once more, which spills (`exists_spilled`): two
tables, each holding a copy of `e` under `5`.  `Check` finds one hkey, and `Len()` counts two. -/
theorem len_eq_sum_copies_two_copies :
    ∃ kv, Reachable tagged (IsFrame tagged) kv ∧
      [(5 : UInt64)].Nodup ∧ (∀ h, h ∈ [5] ↔ kv.check h = true) ∧ kv.len = 2 ∧
      kv.len = ([5].map fun h => (kv.copies tagged h).length).sum ∧ [5].length ≤ kv.len ∧
      (kv.frozen = [] → kv.len = [5].length) := by
  obtain ⟨kv, t, o, hr, htables, hent, -⟩ :=
    exists_spilled (c := tagged) ⟨[7], [], 0, 0⟩ 5 5 (by decide)
  have hkeys : kv.tables.flatMap (·.hkeys.keys) = [5, 5] := by
    rw [htables, List.flatMap_cons, List.flatMap_cons, List.flatMap_nil, AList.keys, AList.keys,
      hent]
    rfl
  have hcheck : ∀ h, h ∈ [5] ↔ kv.check h = true := fun h => by
    rw [check_iff_mem_flatMap, hkeys]; simp
  exact ⟨kv, hr, by decide, hcheck, by rw [len_eq_length_flatMap, hkeys]; rfl,
    len_eq_sum_copies kv (by decide) hcheck⟩

end KVStore

end Olric.Kvstore
