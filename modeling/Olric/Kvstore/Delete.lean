import Olric.Kvstore.Fill
import Olric.Kvstore.TaggedCodec

/-!
# Kvstore/Delete — `Delete` removes only the newest copy of an hkey

A `Put` over an hkey the full newest table holds spills: the new entry goes to a fresh table and
the old one stays behind in the frozen table.  So a chain can hold several copies of one hkey,
`copies kv h`, newest first; reads see the first (`content_eq_head_copies`).

`Delete` scans newest → oldest and `break`s after the first table that held the hkey, so it
removes exactly the first copy (`copies_delete`) and leaves every other hkey alone
(`copies_delete_of_ne`).  After it, `Get` returns the next copy: the stale entry the spec says
"must not resurrect" (`delete_resurrects_stale_copy`, reached by `Put(h, e)` until a table is
full, and once more).
-/

namespace Olric.Kvstore

open Olric.Storage

namespace KVStore

variable {c : Codec}

/-- Every copy of `h` in the chain, newest first. -/
def copies (c : Codec) (kv : KVStore) (h : UInt64) : List Entry := kv.tables.filterMap (·.get c h)

theorem content_eq_head_copies (kv : KVStore) (h : UInt64) :
    kv.content c h = (kv.copies c h).head? :=
  (List.filterMap_head? _ _).symm

@[simp] theorem copies_spill (kv : KVStore) (h : UInt64) : kv.spill.copies c h = kv.copies c h := by
  simp [copies, Table.get, newTable]

theorem tables_modify (f : Table → Option Table) (kv : KVStore) :
    ((kv.modify f).getD kv).tables = (modifyFirst f kv.tables).getD kv.tables := by
  unfold modify
  simp only [tables, modifyFirst]
  split
  · rfl
  · cases modifyFirst f kv.frozen <;> rfl

theorem getD_map_cons (t : Table) (ts : List Table) (o : Option (List Table)) :
    (o.map (t :: ·)).getD (t :: ts) = t :: o.getD ts := by
  cases o <;> rfl

/-- The scan of `Delete` over a list of tables drops the first copy of `h`… -/
theorem filterMap_modifyFirst_delete (h : UInt64) : ∀ ts : List Table,
    ((modifyFirst (·.delete c h) ts).getD ts).filterMap (·.get c h) =
      (ts.filterMap (·.get c h)).tail
  | [] => rfl
  | t :: ts => by
    simp only [modifyFirst]
    cases hd : t.delete c h with
    | some t' =>
      obtain ⟨o, hl, -⟩ := Table.delete_eq_some.mp hd
      obtain ⟨e, hg⟩ : ∃ e, t.get c h = some e :=
        ⟨c.decode (t.memory.drop o), by simp [Table.get, hl]⟩
      simp only [Option.getD_some, List.filterMap_cons, Table.get_delete_self hd, hg,
        List.tail_cons]
    | none =>
      have hg : t.get c h = none := by simp [Table.get, Table.delete_eq_none.mp hd]
      simp only [getD_map_cons, List.filterMap_cons, hg]
      exact filterMap_modifyFirst_delete h ts

/-- …and keeps every copy of every other hkey. -/
theorem filterMap_modifyFirst_delete_of_ne {h h' : UInt64} (hne : h' ≠ h) : ∀ ts : List Table,
    ((modifyFirst (·.delete c h) ts).getD ts).filterMap (·.get c h') = ts.filterMap (·.get c h')
  | [] => rfl
  | t :: ts => by
    simp only [modifyFirst]
    cases hd : t.delete c h with
    | some t' => simp [List.filterMap_cons, Table.get_delete_of_ne hd hne]
    | none =>
      simp only [getD_map_cons, List.filterMap_cons]
      rw [filterMap_modifyFirst_delete_of_ne hne ts]

/-- The copies after `Delete`, through its spill. -/
theorem copies_delete_eq (kv : KVStore) (h h' : UInt64) :
    (kv.delete c h).1.copies c h' = ((kv.modify (·.delete c h)).getD kv).copies c h' := by
  simp only [KVStore.delete]
  generalize (kv.modify (·.delete c h)).getD kv = k
  split
  · split
    · exact copies_spill k h'
    · rfl
  · rfl

/-- **`Delete` removes exactly the newest copy of `h`.** -/
theorem copies_delete (kv : KVStore) (h : UInt64) :
    (kv.delete c h).1.copies c h = (kv.copies c h).tail := by
  rw [copies_delete_eq, copies, tables_modify, filterMap_modifyFirst_delete]; rfl

/-- `Delete` leaves every copy of every other hkey. -/
theorem copies_delete_of_ne (kv : KVStore) {h h' : UInt64} (hne : h' ≠ h) :
    (kv.delete c h).1.copies c h' = kv.copies c h' := by
  rw [copies_delete_eq, copies, tables_modify, filterMap_modifyFirst_delete_of_ne hne]; rfl

/-- So after `Delete`, `Get` returns the second-newest copy, if there is one. -/
theorem get_delete_self (kv : KVStore) (h : UInt64) :
    (kv.delete c h).1.get c h = found (kv.copies c h).tail.head? := by
  rw [get_eq_content, content_eq_head_copies, copies_delete]

/-! ## A reachable engine with two copies -/

/-- **Two copies of one entry**: whatever the frame layout, `Put(h, e)` until a table is full
and once more, which spills, leaves a chain of two tables, each holding `e` under `h`. -/
theorem exists_two_copies (e : Entry) (h : UInt64) (hL : 0 < (c.encode e).length) :
    ∃ kv, Reachable c (IsFrame c) kv ∧ kv.copies c h = [e, e] := by
  obtain ⟨kv, t, -, hr, htables, -, hget⟩ := exists_spilled e h h hL
  refine ⟨kv, hr, ?_⟩
  rw [copies, htables, List.filterMap_cons, get_newTable_append (le_max_of_le_left (by omega)),
    List.filterMap_cons, hget]
  rfl

/-- **`Delete` lets a stale copy resurrect**: on the two copies `exists_two_copies` builds,
after `Delete(h)`, `Get(h)` still returns `e`. -/
theorem delete_resurrects_stale_copy (e : Entry) (h : UInt64) (hL : 0 < (c.encode e).length) :
    ∃ kv, Reachable c (IsFrame c) kv ∧ kv.copies c h = [e, e] ∧
      (kv.delete c h).1.get c h = .ok e := by
  obtain ⟨kv, hr, hcopies⟩ := exists_two_copies e h hL
  exact ⟨kv, hr, hcopies, by rw [get_delete_self, hcopies]; rfl⟩

theorem delete_resurrects_stale_copy_tagged :
    0 < (tagged.encode ⟨[7], [], 0, 0⟩).length ∧
    ∃ kv, Reachable tagged (IsFrame tagged) kv ∧
      kv.copies tagged 5 = [⟨[7], [], 0, 0⟩, ⟨[7], [], 0, 0⟩] ∧
      (kv.delete tagged 5).1.get tagged 5 = .ok ⟨[7], [], 0, 0⟩ :=
  ⟨by decide, delete_resurrects_stale_copy _ _ (by decide)⟩

end KVStore

end Olric.Kvstore
