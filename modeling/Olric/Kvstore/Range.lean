import Olric.Kvstore.Delete

/-!
# Kvstore/Range — iteration: `Range` and `MatchOnKey`

Both scan the chain newest first, and each table's index in turn, calling `f` on every hkey and
its entry (`MatchOnKey` only on those whose key the expression matches) until a call returns
false.  They differ in how they stop.  `MatchOnKey` `return`s, so it never calls `f` again
(`matchOnKey_stops`).  `Range` `break`s, which leaves only the loop over one table's index: the
scan goes on with the next table, and `f` is called again after it returned false
(`range_calls_after_false`).  When `f` always returns true, `Range` visits every entry of every
table (`range_of_forall_true`), so it passes `f` every copy of every hkey, the stale copies that
`Get` never returns included, newest first (`range_visits_every_copy`).

Go's map iteration order is unspecified; a table's index is iterated here in the order of its
entries, one of the orders Go may pick.  `f` is a Go closure and may keep state, so it is given
the calls made before it.
-/

namespace Olric.Kvstore

open Olric.Storage

/-- A callback of `Range` and `MatchOnKey`: given the calls made before, an hkey and its
entry, whether to go on. -/
abbrev Callback := List (UInt64 × Entry) → UInt64 → Entry → Bool

namespace Table

variable (c : Codec)

/-- The index of a table with the entry `get` returns for each hkey: what a scan passes to
`f`. -/
def enumerate (t : Table) : List (UInt64 × Entry) :=
  t.hkeys.entries.map fun p => (p.1, c.decode (t.memory.drop p.2))

variable {c}

/-- The pairs of `h` in an index's entries, decoded: the one entry the index holds for `h`. -/
theorem filterMap_entries {l : List (Sigma fun _ : UInt64 => Nat)} (hl : l.NodupKeys)
    (g : Nat → Entry) (h : UInt64) :
    (l.map fun p => (p.1, g p.2)).filterMap (fun p => if p.1 = h then some p.2 else none) =
      ((l.dlookup h).map g).toList := by
  induction l with
  | nil => rfl
  | cons p l ih =>
    obtain ⟨k, o⟩ := p
    obtain ⟨hk, hl⟩ := List.nodupKeys_cons.mp hl
    by_cases hkh : k = h
    · subst hkh
      simp [ih hl, List.dlookup_eq_none.mpr hk]
    · simp [hkh, ih hl, List.dlookup_cons_ne l ⟨k, o⟩ (Ne.symm hkh)]

/-- **The enumeration of a table holds each hkey once**, with the entry `get` returns. -/
theorem filterMap_enumerate (t : Table) (h : UInt64) :
    (t.enumerate c).filterMap (fun p => if p.1 = h then some p.2 else none) = (t.get c h).toList :=
  filterMap_entries t.hkeys.nodupKeys (fun o => c.decode (t.memory.drop o)) h

/-- A table whose index holds `h` alone enumerates the one pair `get` returns. -/
theorem enumerate_of_entries {t : Table} {h : UInt64} {o : Nat} {e : Entry}
    (hent : t.hkeys.entries = [⟨h, o⟩]) (hget : t.get c h = some e) :
    t.enumerate c = [(h, e)] := by
  have hl : t.hkeys.lookup h = some o := by simp [AList.lookup, hent]
  rw [get, hl, Option.map_some', Option.some.injEq] at hget
  simp only [enumerate, hent, List.map_cons, List.map_nil, hget]

end Table

/-! ## The scans -/

/-- The loop of `Range` over one table's pairs: `f` on each in turn, after the calls `calls`,
until a call returns false and the loop `break`s.  All the calls made by then. -/
def scan (f : Callback) : List (UInt64 × Entry) → List (UInt64 × Entry) → List (UInt64 × Entry)
  | [], calls => calls
  | (h, e) :: ps, calls => if f calls h e then scan f ps (calls ++ [(h, e)]) else calls ++ [(h, e)]

/-- The loop of `MatchOnKey` over one table's pairs: a pair whose key `r` does not match is
skipped (`continue`); after a call that returns false `MatchOnKey` returns, so the loop reports
that it stopped.  (`getRawKey`, not in src, reads the key of the frame: the entry's key.) -/
def matchScan (r : List UInt8 → Bool) (f : Callback) :
    List (UInt64 × Entry) → List (UInt64 × Entry) → List (UInt64 × Entry) × Bool
  | [], calls => (calls, false)
  | (h, e) :: ps, calls =>
    if r e.key then
      if f calls h e then matchScan r f ps (calls ++ [(h, e)]) else (calls ++ [(h, e)], true)
    else matchScan r f ps calls

namespace KVStore

variable (c : Codec)

/-- `Range(f)`: the calls it makes, in order.  Every table is scanned, newest first. -/
def range (f : Callback) (kv : KVStore) : List (UInt64 × Entry) :=
  kv.tables.foldl (fun calls t => scan f (t.enumerate c) calls) []

/-- The tables loop of `MatchOnKey`, which ends at the first table whose scan stopped. -/
def matchTables (r : List UInt8 → Bool) (f : Callback) :
    List Table → List (UInt64 × Entry) → List (UInt64 × Entry)
  | [], calls => calls
  | t :: ts, calls =>
    match matchScan r f (t.enumerate c) calls with
    | (calls, true) => calls
    | (calls, false) => matchTables r f ts calls

/-- `MatchOnKey(expr, f)`, with `compile` for `regexp.Compile` and the `Match` of what it
compiles: the error it returns and the calls it makes. -/
def matchOnKey (compile : String → Except String (List UInt8 → Bool)) (expr : String)
    (f : Callback) (kv : KVStore) : Except Error Unit × List (UInt64 × Entry) :=
  match compile expr with
  | .error err => (.error (.regexp err), [])
  | .ok r => (.ok (), matchTables c r f kv.tables [])

end KVStore

/-! ## What the scans do -/

/-- Every call of `calls` returned true, given the calls before it. -/
def Accepted (f : Callback) (calls : List (UInt64 × Entry)) : Prop :=
  ∀ i (hi : i < calls.length), f (calls.take i) calls[i].1 calls[i].2 = true

section Accepted

variable {f : Callback}

theorem Accepted.snoc {calls : List (UInt64 × Entry)} (ha : Accepted f calls) {h : UInt64}
    {e : Entry} (hf : f calls h e = true) : Accepted f (calls ++ [(h, e)]) := by
  intro i hi
  rw [List.length_append, List.length_singleton] at hi
  rcases Nat.lt_or_ge i calls.length with hlt | hge
  · rw [List.take_append_of_le_length hlt.le, List.getElem_append_left hlt]
    exact ha i hlt
  · obtain rfl : i = calls.length := by omega
    simpa using hf

theorem Accepted.dropLast {calls : List (UInt64 × Entry)} (ha : Accepted f calls) :
    Accepted f calls.dropLast := by
  intro i hi
  have hlt : i + 1 < calls.length := by simp at hi; omega
  have htake : calls.dropLast.take i = calls.take i := by
    rw [List.dropLast_eq_take, List.take_take, min_eq_left (by omega)]
  rw [List.getElem_dropLast, htake]
  exact ha i (by omega)

end Accepted

/-- When `f` always returns true, a scan makes every call. -/
theorem scan_of_forall_true {f : Callback} (hf : ∀ calls h e, f calls h e = true) :
    ∀ ps calls, scan f ps calls = calls ++ ps
  | [], calls => (List.append_nil calls).symm
  | (h, e) :: ps, calls => by
    rw [scan, if_pos (hf calls h e), scan_of_forall_true hf ps, List.append_assoc,
      List.singleton_append]

theorem accepted_nil (f : Callback) : Accepted f [] := fun i hi => absurd hi (Nat.not_lt_zero i)

/-- Every call a scan of `MatchOnKey` makes returned true, but for the last one if the scan
stopped; and if it did not stop, that one too. -/
theorem matchScan_accepted {r : List UInt8 → Bool} {f : Callback} :
    ∀ (ps : List (UInt64 × Entry)) {calls : List (UInt64 × Entry)}, Accepted f calls →
      Accepted f (matchScan r f ps calls).1.dropLast ∧
        ((matchScan r f ps calls).2 = false → Accepted f (matchScan r f ps calls).1)
  | [], _, ha => ⟨ha.dropLast, fun _ => ha⟩
  | (h, e) :: ps, calls, ha => by
    simp only [matchScan]
    split_ifs with hr hf
    · exact matchScan_accepted ps (ha.snoc hf)
    · refine ⟨?_, fun hs => absurd hs (by decide)⟩
      simpa using ha
    · exact matchScan_accepted ps ha

namespace KVStore

variable {c : Codec}

theorem foldl_scan_of_forall_true {f : Callback} (hf : ∀ calls h e, f calls h e = true) :
    ∀ (ts : List Table) (calls : List (UInt64 × Entry)),
      ts.foldl (fun calls t => scan f (t.enumerate c) calls) calls =
        calls ++ ts.flatMap (·.enumerate c)
  | [], calls => (List.append_nil calls).symm
  | t :: ts, calls => by
    rw [List.foldl_cons, scan_of_forall_true hf, foldl_scan_of_forall_true hf ts,
      List.flatMap_cons, List.append_assoc]

/-- **When `f` always returns true, `Range` calls it on every entry of every table**, newest
table first. -/
theorem range_of_forall_true {f : Callback} (hf : ∀ calls h e, f calls h e = true)
    (kv : KVStore) : kv.range c f = kv.tables.flatMap (·.enumerate c) :=
  (foldl_scan_of_forall_true hf kv.tables []).trans (List.nil_append _)

/-- Filtered to one hkey, the enumerations of a chain's tables are that hkey's copies. -/
theorem filterMap_flatMap_enumerate (h : UInt64) : ∀ ts : List Table,
    (ts.flatMap (·.enumerate c)).filterMap (fun p => if p.1 = h then some p.2 else none) =
      ts.filterMap (·.get c h)
  | [] => rfl
  | t :: ts => by
    rw [List.flatMap_cons, List.filterMap_append, Table.filterMap_enumerate,
      filterMap_flatMap_enumerate h ts, List.filterMap_cons]
    cases t.get c h <;> rfl

/-- **When `f` always returns true, `Range` shows every copy of every hkey**: the entries it
passes `f` with `h` are the copies of `h` in the chain, newest first, the stale ones that `Get`
never returns included. -/
theorem range_visits_every_copy {f : Callback} (hf : ∀ calls h e, f calls h e = true)
    (kv : KVStore) (h : UInt64) :
    (kv.range c f).filterMap (fun p => if p.1 = h then some p.2 else none) = kv.copies c h := by
  rw [range_of_forall_true hf, filterMap_flatMap_enumerate]; rfl

theorem range_visits_both_copies :
    ∃ kv, Reachable tagged (IsFrame tagged) kv ∧
      (∀ calls h e, (fun _ _ _ => true : Callback) calls h e = true) ∧
      (kv.range tagged fun _ _ _ => true).filterMap
          (fun p => if p.1 = 5 then some p.2 else none) =
        [⟨[7], [], 0, 0⟩, ⟨[7], [], 0, 0⟩] := by
  obtain ⟨kv, hr, hcopies⟩ := exists_two_copies (c := tagged) ⟨[7], [], 0, 0⟩ 5 (by decide)
  exact ⟨kv, hr, fun _ _ _ => rfl,
    (range_visits_every_copy (fun _ _ _ => rfl) kv 5).trans hcopies⟩

/-- **`Range` calls `f` again after it returned false.**  `Put(5, e)` until the table is full,
then `Put(6, e)`, which spills: two tables, one hkey each.  `Range` with an `f` that always
returns false calls it on `6`, `break`s out of the newest table's loop only, and calls it on
`5`. -/
theorem range_calls_after_false :
    ∃ kv, Reachable tagged (IsFrame tagged) kv ∧ kv.numTables = 2 ∧
      kv.range tagged (fun _ _ _ => false) =
        [(6, ⟨[7], [], 0, 0⟩), (5, ⟨[7], [], 0, 0⟩)] := by
  obtain ⟨kv, t, o, hr, htables, hent, hget⟩ :=
    exists_spilled (c := tagged) ⟨[7], [], 0, 0⟩ 5 6 (by decide)
  refine ⟨kv, hr, by rw [numTables, htables]; rfl, ?_⟩
  have hnew : ((newTable ((tagged.encode ⟨[7], [], 0, 0⟩).length * 2)).append 6
      (tagged.encode ⟨[7], [], 0, 0⟩)).enumerate tagged = [(6, ⟨[7], [], 0, 0⟩)] :=
    Table.enumerate_of_entries rfl (get_newTable_append (by decide))
  rw [range, htables, List.foldl_cons, List.foldl_cons, List.foldl_nil, hnew,
    Table.enumerate_of_entries hent hget]
  rfl

theorem matchTables_accepted {r : List UInt8 → Bool} {f : Callback} :
    ∀ (ts : List Table) {calls : List (UInt64 × Entry)}, Accepted f calls →
      Accepted f (matchTables c r f ts calls).dropLast
  | [], _, ha => ha.dropLast
  | t :: ts, calls, ha => by
    have hs := matchScan_accepted (r := r) (t.enumerate c) ha
    simp only [matchTables]
    split
    · rename_i heq; rw [heq] at hs; exact hs.1
    · rename_i heq; rw [heq] at hs; exact matchTables_accepted ts (hs.2 rfl)

/-- **`MatchOnKey` never calls `f` after a call returned false**: every call it makes but the
last returned true. -/
theorem matchOnKey_stops (compile : String → Except String (List UInt8 → Bool)) (expr : String)
    (f : Callback) (kv : KVStore) : Accepted f (kv.matchOnKey c compile expr f).2.dropLast := by
  unfold matchOnKey
  split
  · exact accepted_nil f
  · exact matchTables_accepted _ (accepted_nil f)

end KVStore

end Olric.Kvstore
