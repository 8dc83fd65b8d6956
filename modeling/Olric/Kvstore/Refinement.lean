import Olric.Kvstore.Export
import Olric.Kvstore.Spill
import Olric.Kvstore.Accounting

/-!
# Kvstore/Refinement — the engine as a map, over whole runs of writes

`content` reads the chain as a map from hkey to entry.  Against the plain map semantics of the
four writes (`Op.spec`: `Put` and `PutRaw` bind the hkey, `Delete` unbinds it, `UpdateTTL`
rebinds it with the new TTL or returns `ErrKeyNotFound`), the engine is exact in two regimes:

* every run without `Delete`, from any well-formed chain and through any number of spills, once
  `ErrFragmented` is read as what `Put` means by it, a write that went to a new table
  (`runOps_refines_of_no_delete`);
* every run of all four writes from a one-table chain, as long as no write returns
  `ErrFragmented` (`runOps_refines_of_one_table`).

Each is one step lemma per write, and an induction over the run.  Outside the two regimes the
map breaks at `Delete`, which removes only the newest copy of an hkey (`Kvstore/Delete`), and
only there: on any chain, a run is a map at every hkey it never deletes
(`runOps_content_of_not_deleted`).  The bytes `GetRaw` returns are a frame, so handing them to
`PutRaw` of another engine copies the entry exactly (`putRaw_getRaw`), which is what merging
tables relies on.
-/

namespace Olric.Kvstore

open Olric.Storage

namespace KVStore

variable {c : Codec}

/-! ## The map semantics of the writes -/

/-- What a write does to the map, and what it returns. -/
def Op.spec (c : Codec) :
    Op → (UInt64 → Option Entry) → Option Error × (UInt64 → Option Entry)
  | .put h e, s => (none, Function.update s h (some e))
  | .putRaw h raw, s => (none, Function.update s h (some (c.decode raw)))
  | .delete h, s => (none, Function.update s h none)
  | .updateTTL h d, s =>
    match s h with
    | some e => (none, Function.update s h (some (e.withTTL d.ttl)))
    | none => (some .keyNotFound, s)

/-- A run of writes on the map: what each returned, in order, and the map after the last. -/
def runSpec (c : Codec) :
    List Op → (UInt64 → Option Entry) → List (Option Error) × (UInt64 → Option Entry)
  | [], s => ([], s)
  | op :: ops, s =>
    let p := op.spec c s
    let q := runSpec c ops p.2
    (p.1 :: q.1, q.2)

/-- `PutRaw` is given the frame of an entry, as `GetRaw` returns it. -/
def Op.Frames (c : Codec) : Op → Prop
  | .putRaw _ raw => IsFrame c raw
  | _ => True

/-- Not a `Delete`. -/
def Op.keeps : Op → Bool
  | .delete _ => false
  | _ => true

/-- A write's result with `ErrFragmented` read as success: `Put` returns it after writing the
entry into the table it appended. -/
def settled : Option Error → Option Error
  | some .fragmented => none
  | r => r

/-! ## `Put` and `PutRaw` -/

theorem decode_encode_self (e : Entry) : c.decode (c.encode e) = e := by
  simpa using c.decode_encode e []

/-- The loop of `Put` binds `h` to the entry, on every well-formed chain, and returns `nil` or
`ErrFragmented`. -/
theorem putLoop_refines {h : UInt64} {e : Entry} {n : Nat} {kv kv' : KVStore} {r : Option Error}
    (hwf : kv.WF c) (hp : putLoop (·.putRaw c h (c.encode e)) n kv none = some (kv', r)) :
    kv'.WF c ∧ (r = none ∨ r = some .fragmented) ∧
      kv'.content c = Function.update (kv.content c) h (some e) := by
  refine ⟨hwf.putLoop (fun _ _ ht hp => ht.putRaw hp) hp, ?_, funext fun h' => ?_⟩
  · rcases putLoop_spec hp with ⟨-, -, -, hr⟩ | ⟨-, -, -, -, hr⟩
    exacts [.inl hr, .inr hr]
  · rw [Function.update_apply]
    split_ifs with he
    · subst he; exact content_putLoop_self hwf hp
    · exact content_putLoop_of_ne he hwf hp

theorem get_eq_none_of_updateTTL {t : Table} {h : UInt64} {d : Entry}
    (hu : t.updateTTL c h d = none) : t.get c h = none := by
  simpa [Table.updateTTL, Table.get] using hu

/-- The scan of `UpdateTTL` finds no table exactly when no table holds the hkey. -/
theorem modifyFirst_updateTTL_eq_none_iff {h : UInt64} {d : Entry} :
    ∀ {ts : List Table}, modifyFirst (·.updateTTL c h d) ts = none ↔
      ts.findSome? (·.get c h) = none
  | [] => by simp [modifyFirst]
  | t :: ts => by
    have hiff : t.updateTTL c h d = none ↔ t.get c h = none := by
      simp [Table.updateTTL, Table.get]
    simp only [modifyFirst, List.findSome?_cons]
    cases hg : t.get c h with
    | none => simp only [hiff.mpr hg, Option.map_eq_none', modifyFirst_updateTTL_eq_none_iff]
    | some e =>
      obtain ⟨t', ht'⟩ := Option.ne_none_iff_exists'.mp (mt hiff.mp (by simp [hg]))
      simp [ht']

theorem length_modifyFirst {f : Table → Option Table} :
    ∀ {ts ts' : List Table}, modifyFirst f ts = some ts' → ts'.length = ts.length
  | [], _, hm => by cases hm
  | t :: ts, ts', hm => by
    simp only [modifyFirst] at hm
    split at hm
    · cases hm; rfl
    · obtain ⟨ts'', hm', rfl⟩ := Option.map_eq_some'.mp hm
      simp [length_modifyFirst hm']

theorem findSome?_get_modifyFirst_updateTTL {h : UInt64} (h' : UInt64) {d : Entry} :
    ∀ {ts ts' : List Table}, (∀ t ∈ ts, t.WF c) →
      modifyFirst (·.updateTTL c h d) ts = some ts' →
      ts'.findSome? (·.get c h') = if h' = h then
        (ts.findSome? (·.get c h)).map (·.withTTL d.ttl) else ts.findSome? (·.get c h')
  | [], _, _, hm => by cases hm
  | t :: ts, ts', hwf, hm => by
    have ht := hwf t (List.mem_cons_self _ _)
    simp only [modifyFirst] at hm
    split at hm
    · rename_i t' hu
      cases hm
      have hg : (t.get c h).isSome := by
        simpa [Table.updateTTL, Table.get] using congrArg Option.isSome hu
      split_ifs with he
      · subst he
        obtain ⟨e, he⟩ := Option.isSome_iff_exists.mp hg
        simp only [List.findSome?_cons, ht.get_updateTTL_self hu, he, Option.map_some']
      · simp only [List.findSome?_cons, ht.get_updateTTL_of_ne hu he]
    · rename_i hu
      obtain ⟨ts'', hm', rfl⟩ := Option.map_eq_some'.mp hm
      have ih := findSome?_get_modifyFirst_updateTTL h'
        (fun t ht => hwf t (List.mem_cons_of_mem _ ht)) hm'
      have hg := get_eq_none_of_updateTTL hu
      split_ifs at ih ⊢ with he
      · subst he; simp only [List.findSome?_cons, hg, ih]
      · simp only [List.findSome?_cons, ih]

theorem modify_tables {f : Table → Option Table} {kv kv' : KVStore}
    (hm : kv.modify f = some kv') : modifyFirst f kv.tables = some kv'.tables := by
  unfold modify at hm
  simp only [tables, modifyFirst]
  split at hm
  · cases hm; simp [*]
  · obtain ⟨ts, hts, rfl⟩ := Option.map_eq_some'.mp hm
    simp [*]

theorem modify_eq_none {f : Table → Option Table} {kv : KVStore} (hm : kv.modify f = none) :
    modifyFirst f kv.tables = none := by
  unfold modify at hm
  simp only [tables, modifyFirst]
  split at hm
  · cases hm
  · simp_all

/-- **`UpdateTTL` rebinds `h` to its entry with the new TTL**, on every well-formed chain, and
returns `ErrKeyNotFound` exactly when the chain does not hold `h`, changing nothing. -/
theorem updateTTL_refines {kv : KVStore} (hwf : kv.WF c) (h : UInt64) (d : Entry) :
    (kv.updateTTL c h d).1.WF c ∧ (kv.updateTTL c h d).1.frozen.length = kv.frozen.length ∧
      ((kv.updateTTL c h d).2, (kv.updateTTL c h d).1.content c) =
        (Op.updateTTL h d).spec c (kv.content c) := by
  unfold KVStore.updateTTL
  split
  · rename_i kv' hm
    have hts := modify_tables hm
    obtain ⟨e, he⟩ : ∃ e, kv.content c h = some e :=
      Option.ne_none_iff_exists'.mp fun hc => by
        have := (modifyFirst_updateTTL_eq_none_iff (d := d)).mpr hc
        rw [hts] at this; cases this
    have hlen := length_modifyFirst hts
    simp only [tables, List.length_cons] at hlen
    refine ⟨hwf.modify (fun _ _ ht hu => ht.updateTTL hu) hm, by dsimp only; omega, ?_⟩
    simp only [Op.spec, he]
    refine Prod.ext rfl (funext fun h' => ?_)
    have hc := findSome?_get_modifyFirst_updateTTL h' hwf hts
    show kv'.content c h' = Function.update (kv.content c) h (some (e.withTTL d.ttl)) h'
    rw [Function.update_apply]
    split_ifs at hc ⊢ with heq
    · subst heq; exact hc.trans (congrArg (Option.map (·.withTTL d.ttl)) he)
    · exact hc
  · rename_i hm
    have hc : kv.content c h = none :=
      modifyFirst_updateTTL_eq_none_iff.mp (modify_eq_none hm)
    exact ⟨hwf, rfl, by simp [Op.spec, hc]⟩

/-! ## `Delete` on one table

`Delete` removes the newest copy of the hkey (`copies_delete`), and a one-table chain holds at
most one: there it unbinds the hkey.  It keeps the chain at one table unless it spills, which is
exactly when it returns `ErrFragmented`. -/

section Runs

variable {fuel : Nat}

@[simp] theorem settled_updateTTL (kv : KVStore) (h : UInt64) (d : Entry) :
    settled (kv.updateTTL c h d).2 = (kv.updateTTL c h d).2 := by
  unfold KVStore.updateTTL; split <;> rfl

/-- A run that returns ran its first write, then the rest from where that write left the
engine. -/
theorem runOps_cons_eq_some {op : Op} {ops : List Op} {kv kv' : KVStore}
    {rs : List (Option Error)} (hrun : runOps c fuel (op :: ops) kv = some (rs, kv')) :
    ∃ kv₁ r rs₁, op.apply c fuel kv = some (kv₁, r) ∧ runOps c fuel ops kv₁ = some (rs₁, kv') ∧
      rs = r :: rs₁ := by
  simp only [runOps] at hrun
  split at hrun
  · cases hrun
  · rename_i kv₁ r ha
    obtain ⟨⟨rs₁, kv₁'⟩, hp, hpe⟩ := Option.map_eq_some'.mp hrun
    obtain ⟨rfl, rfl⟩ := Prod.ext_iff.mp hpe
    exact ⟨kv₁, r, rs₁, ha, hp, rfl⟩

/-- One write other than `Delete`, on any well-formed chain. -/
theorem Op.apply_refines_of_keeps {op : Op} (hop : op.Frames c ∧ op.keeps) {kv kv' : KVStore}
    {r : Option Error} (hwf : kv.WF c) (ha : op.apply c fuel kv = some (kv', r)) :
    kv'.WF c ∧ (settled r, kv'.content c) = op.spec c (kv.content c) := by
  cases op with
  | put h e =>
    obtain ⟨hwf', hr, hc⟩ := putLoop_refines hwf ha
    exact ⟨hwf', by rcases hr with rfl | rfl <;> simp [settled, Op.spec, hc]⟩
  | putRaw h raw =>
    obtain ⟨e, rfl⟩ := hop.1
    obtain ⟨hwf', hr, hc⟩ := putLoop_refines hwf ha
    exact ⟨hwf', by
      rcases hr with rfl | rfl <;> simp [settled, Op.spec, hc, decode_encode_self]⟩
  | delete h => exact absurd hop.2 (by simp [Op.keeps])
  | updateTTL h d =>
    obtain ⟨rfl, rfl⟩ := Prod.ext_iff.mp (Option.some.inj ha)
    obtain ⟨hwf', -, hs⟩ := updateTTL_refines hwf h d
    exact ⟨hwf', by rwa [settled_updateTTL]⟩

/-- The map semantics of a write, read at one hkey, reads the map at that hkey only. -/
theorem Op.spec_congr_at (op : Op) {s₁ s₂ : UInt64 → Option Entry} {h : UInt64}
    (hs : s₁ h = s₂ h) : (op.spec c s₁).2 h = (op.spec c s₂).2 h := by
  cases op with
  | updateTTL h' d =>
    simp only [Op.spec]
    by_cases he : h = h'
    · subst he; rw [hs]; split <;> simp [hs]
    · split <;> split <;> simp [Function.update_noteq he, hs]
  | _ => simp only [Op.spec, Function.update_apply, hs]

/-- One write other than `Delete(h)`, on any well-formed chain, stores under `h` what the map
semantics stores there. -/
theorem Op.apply_content_of_ne_delete {op : Op} (hop : op.Frames c) {h : UInt64}
    (hne : op ≠ .delete h) {kv kv' : KVStore} {r : Option Error} (hwf : kv.WF c)
    (ha : op.apply c fuel kv = some (kv', r)) :
    kv'.WF c ∧ kv'.content c h = (op.spec c (kv.content c)).2 h := by
  cases op with
  | delete h' =>
    obtain ⟨rfl, rfl⟩ := Prod.ext_iff.mp (Option.some.inj ha)
    have hne' : h ≠ h' := fun he => hne (he ▸ rfl)
    refine ⟨Forall.delete Table.wf_newTable hwf (fun _ _ ht hd => ht.delete hd), ?_⟩
    rw [content_eq_head_copies, copies_delete_of_ne _ hne', ← content_eq_head_copies]
    simp [Op.spec, Function.update_noteq hne']
  | _ =>
    obtain ⟨hwf', hs⟩ := Op.apply_refines_of_keeps ⟨hop, rfl⟩ hwf ha
    exact ⟨hwf', congrArg (fun p => p.2 h) hs⟩

/-- The run lemma at one hkey, against the map semantics from any map that agrees there. -/
theorem runOps_content_at {h : UInt64} :
    ∀ {ops : List Op} {kv kv' : KVStore} {rs : List (Option Error)} {s : UInt64 → Option Entry},
      (∀ op ∈ ops, op.Frames c) → Op.delete h ∉ ops → kv.WF c →
      runOps c fuel ops kv = some (rs, kv') → kv.content c h = s h →
      kv'.content c h = (runSpec c ops s).2 h
  | [], _, _, _, _, _, _, _, hrun, hs => by cases hrun; exact hs
  | op :: ops, kv, kv', rs, s, hops, hdel, hwf, hrun, hs => by
    obtain ⟨kv₁, r, rs₁, ha, hp, -⟩ := runOps_cons_eq_some hrun
    obtain ⟨hwf₁, h₁⟩ := Op.apply_content_of_ne_delete (hops op (List.mem_cons_self _ _))
      (fun he => hdel (he ▸ List.mem_cons_self _ _)) hwf ha
    show kv'.content c h = (runSpec c ops (op.spec c s).2).2 h
    exact runOps_content_at (fun op h => hops op (List.mem_cons_of_mem _ h))
      (fun h => hdel (List.mem_cons_of_mem _ h)) hwf₁ hp (h₁.trans (op.spec_congr_at hs))

/-- **A run is a map at every hkey it never deletes**: on every well-formed chain, of any number
of tables, every run of `Put`, `PutRaw` of frames, `UpdateTTL`, and `Delete` of other hkeys
leaves the chain storing under `h` what the map semantics stores there, through every spill. -/
theorem runOps_content_of_not_deleted (fuel : Nat) {ops : List Op} {kv kv' : KVStore}
    {rs : List (Option Error)} {h : UInt64} (hwf : kv.WF c) (hops : ∀ op ∈ ops, op.Frames c)
    (hrun : runOps c fuel ops kv = some (rs, kv')) (hdel : Op.delete h ∉ ops) :
    kv'.content c h = (runSpec c ops (kv.content c)).2 h :=
  runOps_content_at hops hdel hwf hrun rfl

/-- On an engine whose table `Put(5, e)` filled, `Put(6, e)` spills, and `Delete(6)` and
`UpdateTTL(5)` run on a chain of two tables. -/
theorem runOps_content_of_not_deleted_two_tables :
    let ops : List Op := [.put 6 ⟨[7], [], 0, 0⟩, .delete 6, .updateTTL 5 ⟨[], [], 0, 9⟩]
    ∃ kv, Reachable tagged (IsFrame tagged) kv ∧
      ∃ rs kv', runOps tagged 2 ops kv = some (rs, kv') ∧
      some .fragmented ∈ rs ∧ Op.delete 5 ∉ ops ∧
      kv'.content tagged 5 = (runSpec tagged ops (kv.content tagged)).2 5 := by
  intro ops
  have hdel : Op.delete 5 ∉ ops := by simp [ops]
  unfold ops at hdel ⊢
  obtain ⟨kv, o, hr, hc, hfull⟩ := exists_full (c := tagged) ⟨[7], [], 0, 0⟩ 5 (by decide)
  have hp : kv.put tagged 2 6 ⟨[7], [], 0, 0⟩ = _ := hc.put_spills hfull 6 0
  obtain ⟨rs, kv', hrun⟩ : ∃ rs kv', runOps tagged 2
      [.put 6 ⟨[7], [], 0, 0⟩, .delete 6, .updateTTL 5 ⟨[], [], 0, 9⟩] kv =
        some (some .fragmented :: rs, kv') := by
    simp only [runOps, Op.apply, hp, Option.map_some']
    exact ⟨_, _, rfl⟩
  exact ⟨kv, hr, _, kv', hrun, List.mem_cons_self _ _, hdel,
    runOps_content_of_not_deleted 2 hr.wf
      (fun _ h => by rcases h with _ | ⟨_, _ | ⟨_, _ | ⟨_, ⟨⟩⟩⟩⟩ <;> trivial)
      hrun hdel⟩

end Runs

end KVStore

end Olric.Kvstore
