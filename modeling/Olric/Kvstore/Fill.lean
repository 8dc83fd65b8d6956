import Olric.Kvstore.Invariant

/-!
# Kvstore/Fill — driving an engine to a full table

Every table holds at least `minimumSize` bytes, so the chain grows only once a table is full.
What one `PutRaw` does is said once for each way out of its loop: it writes into the newest
table when the bytes fit (`putRaw_of_fits`), and otherwise into the table it appends
(`putRaw_of_spill`).

`Put(h, e)` repeated on a one-table chain overwrites the previous copy each time: the table
keeps one live frame, of `e` under `h`, and the cursor moves one frame on (`OneCopy.put`).  So
every frame, however short, fills a table in enough `Put`s, and some engine reachable from `New`
is a one-table chain whose table no longer takes the frame (`exists_full`): the engine the next
write spills from, into a chain of two tables (`exists_spilled`).
-/

namespace Olric.Kvstore

open Olric.Storage

namespace KVStore

variable {c : Codec}

/-! ## The two ways out of the loop, computed -/

@[simp] theorem forget_newTable (size : Nat) (h : UInt64) :
    (newTable size).forget c h = newTable size := rfl

theorem new_default :
    KVStore.new Options.default = .ok ⟨newTable minimumSize, [], .default⟩ := rfl

/-- `PutRaw` of bytes that fit the newest table writes them there, in one turn. -/
theorem putRaw_of_fits {kv : KVStore} {h : UInt64} {raw : List UInt8} (n : Nat)
    (hfit : kv.newest.offset + raw.length ≤ kv.newest.allocated) :
    kv.putRaw c (n + 1) h raw =
      some ({ kv with newest := (kv.newest.forget c h).append h raw }, none) := by
  rw [putRaw, putLoop_succ, Table.putRaw_eq_some.mpr ⟨hfit, rfl⟩]

/-- …and so does `Put` of an entry whose frame fits. -/
theorem put_of_fits {kv : KVStore} (h : UInt64) (e : Entry) (n : Nat)
    (hfit : kv.newest.offset + (c.encode e).length ≤ kv.newest.allocated) :
    kv.put c (n + 1) h e =
      some ({ kv with newest := (kv.newest.forget c h).append h (c.encode e) }, none) :=
  putRaw_of_fits n hfit

/-- `PutRaw` of bytes that do not fit the newest table but fit the table a spill appends writes
them there, in two turns, and returns `ErrFragmented`. -/
theorem putRaw_of_spill {kv : KVStore} {h : UInt64} {raw : List UInt8} (n : Nat)
    (hfull : kv.newest.allocated < kv.newest.offset + raw.length)
    (hfit : raw.length ≤ max (kv.inuse * 2) minimumSize) :
    kv.putRaw c (n + 2) h raw =
      some ({ kv.spill with newest := (newTable (kv.inuse * 2)).append h raw },
        some .fragmented) := by
  rw [putRaw, putLoop_succ, Table.putRaw_eq_none.mpr hfull, putLoop_succ, spill_newest,
    Table.putRaw_eq_some.mpr ⟨by simpa using hfit, rfl⟩, forget_newTable]

/-- The frame of `e` appended to a fresh table that takes it reads back. -/
theorem get_newTable_append {size : Nat} {h : UInt64} {e : Entry}
    (hfit : (c.encode e).length ≤ max size minimumSize) :
    ((newTable size).append h (c.encode e)).get c h = some e :=
  Table.get_of_frameAt
    (by simp only [Table.append_hkeys, newTable_hkeys, newTable_offset, AList.lookup_insert])
    (Codec.frameAt_copyAt (by simpa using hfit))

/-! ## One copy, overwritten -/

/-- A one-table chain whose index holds `h` alone, at `o`, where the frame of `e` starts: the
table's only live bytes, just below the cursor. -/
structure OneCopy (c : Codec) (e : Entry) (h : UInt64) (kv : KVStore) (o : Nat) : Prop where
  frozen : kv.frozen = []
  entries : kv.newest.hkeys.entries = [⟨h, o⟩]
  frame : c.FrameAt kv.newest.memory o e
  inuse : kv.newest.inuse = (c.encode e).length
  offset : kv.newest.offset = o + (c.encode e).length

theorem OneCopy.lookup {e : Entry} {h : UInt64} {kv : KVStore} {o : Nat}
    (hc : OneCopy c e h kv o) : kv.newest.hkeys.lookup h = some o := by
  simp [AList.lookup, hc.entries]

theorem OneCopy.get {e : Entry} {h : UInt64} {kv : KVStore} {o : Nat}
    (hc : OneCopy c e h kv o) : kv.newest.get c h = some e :=
  Table.get_of_frameAt hc.lookup hc.frame

/-- The first `Put(h, e)` into a fresh table. -/
theorem oneCopy_new (e : Entry) (h : UInt64) (size : Nat)
    (hfit : (c.encode e).length ≤ max size minimumSize) :
    OneCopy c e h { (⟨newTable size, [], ⟨some size⟩⟩ : KVStore) with
      newest := ((newTable size).forget c h).append h (c.encode e) } 0 where
  frozen := rfl
  entries := rfl
  frame := Codec.frameAt_copyAt (by simpa using hfit)
  inuse := by simp [Table.append]
  offset := by simp

/-- **`Put(h, e)` over the one copy of `e`**: the old frame turns to garbage, the new one is
appended one frame on, and the table again holds one copy. -/
theorem OneCopy.put {e : Entry} {h : UInt64} {kv : KVStore} {o : Nat} (hc : OneCopy c e h kv o)
    (hwf : kv.newest.WF c)
    (hfit : kv.newest.offset + (c.encode e).length ≤ kv.newest.allocated) :
    OneCopy c e h { kv with newest := (kv.newest.forget c h).append h (c.encode e) }
      (o + (c.encode e).length) := by
  have hforget : kv.newest.forget c h = kv.newest.retire c h o := by
    simp [Table.forget, Table.delete, hc.lookup]
  have hlen : c.frameLen (kv.newest.memory.drop o) = (c.encode e).length := hc.frame.frameLen_eq
  refine ⟨hc.frozen, ?_, ?_, ?_, ?_⟩
  · simp [hforget, AList.insert_entries, AList.erase, hc.entries, hc.offset]
  · have hfr : c.FrameAt (copyAt kv.newest.memory kv.newest.offset (c.encode e))
        kv.newest.offset e := Codec.frameAt_copyAt (by rw [hwf.length]; exact hfit)
    simpa [hc.offset] using hfr
  · simp [hforget, Table.append, Table.retire, hlen, hc.inuse]
  · simp [hc.offset]

/-- **Some engine reachable from `New` has a full table**: for every frame, a one-table chain
holding `e` alone under `h`, whose table does not take another copy of the frame. -/
theorem exists_full (e : Entry) (h : UInt64) (hL : 0 < (c.encode e).length) :
    ∃ kv o, Reachable c (IsFrame c) kv ∧ OneCopy c e h kv o ∧
      kv.newest.allocated < kv.newest.offset + (c.encode e).length := by
  set L := (c.encode e).length
  set A := max L minimumSize
  have hLA : L ≤ A := le_max_left _ _
  -- `j + 1` puts fit, each one frame past the last
  have hputs : ∀ j, (j + 1) * L ≤ A → ∃ kv, Reachable c (IsFrame c) kv ∧
      OneCopy c e h kv (j * L) ∧ kv.newest.allocated = A := by
    intro j
    induction j with
    | zero =>
      intro _
      refine ⟨_, .put (.new (o := ⟨some L⟩) rfl) (put_of_fits h e 0 (by simp [hLA])), ?_,
        rfl⟩
      simpa using oneCopy_new e h L hLA
    | succ j ih =>
      intro hj
      obtain ⟨kv, hr, hc, hA⟩ := ih (le_trans (Nat.mul_le_mul_right L (by omega)) hj)
      have hfit : kv.newest.offset + L ≤ kv.newest.allocated := by
        rw [hc.offset, hA]
        linarith
      refine ⟨_, .put hr (put_of_fits h e 0 hfit), ?_, by simpa using hA⟩
      rw [Nat.succ_mul]
      exact hc.put ((wf_iff kv).mp hr.wf).1 hfit
  obtain ⟨kv, hr, hc, hA⟩ := hputs (A / L - 1) (by
    rw [Nat.sub_add_cancel (Nat.div_pos hLA hL)]; exact Nat.div_mul_le_self A L)
  refine ⟨kv, _, hr, hc, ?_⟩
  rw [hc.offset, hA, ← Nat.succ_mul, Nat.succ_eq_add_one, Nat.sub_add_cancel (Nat.div_pos hLA hL)]
  exact Nat.lt_div_mul_add hL

/-- The next `Put` of the frame, under any hkey, spills: it appends a table of twice the one
live frame and writes there. -/
theorem OneCopy.put_spills {e : Entry} {h : UInt64} {kv : KVStore} {o : Nat}
    (hc : OneCopy c e h kv o)
    (hfull : kv.newest.allocated < kv.newest.offset + (c.encode e).length) (h' : UInt64)
    (n : Nat) :
    kv.put c (n + 2) h' e = some ({ kv.spill with
      newest := (newTable ((c.encode e).length * 2)).append h' (c.encode e) },
        some .fragmented) := by
  have hinuse : kv.inuse = (c.encode e).length := by
    show (kv.tables.map Table.inuse).sum = _
    rw [tables, hc.frozen]; simp [hc.inuse]
  rw [put_eq_putRaw, putRaw_of_spill n hfull (by rw [hinuse]; omega), hinuse]

/-- **Some engine reachable from `New` has spilled**: a chain of two tables, the newest holding
`e` alone under `h'`, in a table of twice the frame, and the older `e` alone under `h`. -/
theorem exists_spilled (e : Entry) (h h' : UInt64) (hL : 0 < (c.encode e).length) :
    ∃ kv t o, Reachable c (IsFrame c) kv ∧
      kv.tables = [(newTable ((c.encode e).length * 2)).append h' (c.encode e), t] ∧
      t.hkeys.entries = [⟨h, o⟩] ∧ t.get c h = some e := by
  obtain ⟨kv, o, hr, hc, hfull⟩ := exists_full e h hL
  exact ⟨_, kv.newest, o, .put hr (hc.put_spills hfull h' 0),
    by simp only [tables, spill_frozen, hc.frozen], hc.entries, hc.get⟩

end KVStore

end Olric.Kvstore
