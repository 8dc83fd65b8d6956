import Olric.Kvstore.Engine

/-!
# Kvstore/Invariant — the chain as a map, and the runs that keep it one

`content kv h` is the entry the newest table holding `h` stores: the map from hkey to entry the
engine implements.  When every table is well formed (`KVStore.WF`), every read of `kvstore.go`
is a projection of it (`get_eq_content`, `WF.getRaw_eq_content`, …), so a statement about the
reads of an hkey is a statement about `content` at that hkey.

`Reachable c Raw` is the set of engines `New` leads to through `Put`, `Delete`, `UpdateTTL` and
`PutRaw` of values satisfying `Raw`.  With `Raw` the frames of entries (`IsFrame`), every
reachable engine is well formed (`Reachable.wf`).
-/

namespace Olric.Kvstore

open Olric.Storage

namespace KVStore

variable {c : Codec}

/-- Every table of the chain satisfies `P`. -/
def Forall (P : Table → Prop) (kv : KVStore) : Prop := ∀ t ∈ kv.tables, P t

/-- Every table of the chain is well formed. -/
def WF (c : Codec) (kv : KVStore) : Prop := kv.Forall (·.WF c)

/-- **What the chain stores under `h`**: the entry of the newest table that holds it. -/
def content (c : Codec) (kv : KVStore) (h : UInt64) : Option Entry :=
  kv.tables.findSome? (·.get c h)

/-! ## Reads are projections of `content` -/

theorem get_eq_content (kv : KVStore) (h : UInt64) : kv.get c h = found (kv.content c h) := rfl

/-- Two engines answer every read of `h` alike. -/
structure SameReads (c : Codec) (kv kv' : KVStore) (h : UInt64) : Prop where
  get : kv'.get c h = kv.get c h
  getRaw : kv'.getRaw c h = kv.getRaw c h
  getTTL : kv'.getTTL c h = kv.getTTL c h
  getKey : kv'.getKey c h = kv.getKey c h
  check : kv'.check h = kv.check h

section Forall

variable {P : Table → Prop}

theorem forall_iff (kv : KVStore) : kv.Forall P ↔ P kv.newest ∧ ∀ t ∈ kv.frozen, P t :=
  List.forall_mem_cons

theorem forall_new (hnew : ∀ n, P (newTable n)) {o : Options} {kv : KVStore}
    (hn : new o = .ok kv) : kv.Forall P := by
  unfold new at hn
  cases hs : o.getTableSize with
  | error e => simp [hs] at hn
  | ok size =>
    simp only [hs] at hn; cases hn
    exact (forall_iff _).mpr ⟨hnew size, by simp⟩

theorem Forall.spill (hnew : ∀ n, P (newTable n)) {kv : KVStore} (hk : kv.Forall P) :
    kv.spill.Forall P :=
  (forall_iff _).mpr ⟨hnew _, hk⟩

theorem Forall.setNewest {kv : KVStore} (hk : kv.Forall P) {t : Table} (ht : P t) :
    ({ kv with newest := t } : KVStore).Forall P :=
  (forall_iff _).mpr ⟨ht, ((forall_iff kv).mp hk).2⟩

/-- The loop of `Put` keeps an invariant its table write keeps. -/
theorem Forall.putLoop (hnew : ∀ n, P (newTable n)) {write : Table → Option Table}
    (hw : ∀ t t', P t → write t = some t' → P t') :
    ∀ {n : Nat} {kv kv' : KVStore} {res r : Option Error}, kv.Forall P →
      putLoop write n kv res = some (kv', r) → kv'.Forall P
  | 0, _, _, _, _, _, hp => by simp at hp
  | n + 1, kv, kv', res, r, hk, hp => by
    rw [putLoop_succ] at hp
    split at hp
    · cases hp; exact hk.setNewest (hw _ _ ((forall_iff kv).mp hk).1 ‹_›)
    · exact Forall.putLoop hnew hw (hk.spill hnew) hp

theorem forall_modifyFirst {f : Table → Option Table} (hf : ∀ t t', P t → f t = some t' → P t') :
    ∀ {ts ts' : List Table}, (∀ t ∈ ts, P t) → modifyFirst f ts = some ts' → ∀ t ∈ ts', P t
  | [], _, _, hm => by simp [modifyFirst] at hm
  | t :: ts, ts', hts, hm => by
    rw [List.forall_mem_cons] at hts
    simp only [modifyFirst] at hm
    split at hm
    · cases hm; exact List.forall_mem_cons.mpr ⟨hf t _ hts.1 ‹_›, hts.2⟩
    · obtain ⟨ts'', hm', rfl⟩ := Option.map_eq_some'.mp hm
      exact List.forall_mem_cons.mpr ⟨hts.1, forall_modifyFirst hf hts.2 hm'⟩

theorem Forall.modify {kv kv' : KVStore} {f : Table → Option Table} (hk : kv.Forall P)
    (hf : ∀ t t', P t → f t = some t' → P t') (hm : kv.modify f = some kv') : kv'.Forall P := by
  rw [forall_iff] at hk
  unfold KVStore.modify at hm
  split at hm
  · cases hm; exact (forall_iff _).mpr ⟨hf _ _ hk.1 ‹_›, hk.2⟩
  · obtain ⟨ts, hm', rfl⟩ := Option.map_eq_some'.mp hm
    exact (forall_iff _).mpr ⟨hk.1, forall_modifyFirst hf hk.2 hm'⟩

theorem Forall.delete (hnew : ∀ n, P (newTable n)) {kv : KVStore} (hk : kv.Forall P) {h : UInt64}
    (hd : ∀ t t', P t → t.delete c h = some t' → P t') : (kv.delete c h).1.Forall P := by
  have hm : ((kv.modify (·.delete c h)).getD kv).Forall P := by
    cases hm : kv.modify (·.delete c h) with
    | none => exact hk
    | some kv' => exact hk.modify hd hm
  simp only [KVStore.delete]
  generalize (kv.modify (·.delete c h)).getD kv = k at hm ⊢
  split
  · split
    · exact hm.spill hnew
    · exact hm
  · exact hm

theorem Forall.updateTTL {kv : KVStore} (hk : kv.Forall P) {h : UInt64} {d : Entry}
    (hu : ∀ t t', P t → t.updateTTL c h d = some t' → P t') : (kv.updateTTL c h d).1.Forall P := by
  unfold KVStore.updateTTL
  split
  · exact hk.modify hu ‹_›
  · exact hk

end Forall

theorem wf_iff (kv : KVStore) : kv.WF c ↔ kv.newest.WF c ∧ ∀ t ∈ kv.frozen, t.WF c :=
  forall_iff kv

theorem WF.spill {kv : KVStore} (hwf : kv.WF c) : kv.spill.WF c :=
  Forall.spill Table.wf_newTable hwf

/-- The loop of `Put` keeps the chain well formed when its table write does. -/
theorem WF.putLoop {write : Table → Option Table}
    (hw : ∀ t t', t.WF c → write t = some t' → t'.WF c) {n : Nat} {kv kv' : KVStore}
    {res r : Option Error} (hwf : kv.WF c)
    (hp : putLoop write n kv res = some (kv', r)) : kv'.WF c :=
  Forall.putLoop Table.wf_newTable hw hwf hp

/-! ## Reachable engines -/

/-- The entries' frames: what `GetRaw` returns, and what `PutRaw` is meant to be given. -/
def IsFrame (c : Codec) (raw : List UInt8) : Prop := ∃ e, c.encode e = raw

/-- The engines `New` leads to through `Put`, `Delete`, `UpdateTTL` and `PutRaw` of values
satisfying `Raw`, each call returning. -/
inductive Reachable (c : Codec) (Raw : List UInt8 → Prop) : KVStore → Prop
  | new {o : Options} {kv : KVStore} : KVStore.new o = .ok kv → Reachable c Raw kv
  | put {kv kv' : KVStore} {n : Nat} {h : UInt64} {e : Entry} {r : Option Error} :
      Reachable c Raw kv → kv.put c n h e = some (kv', r) → Reachable c Raw kv'
  | putRaw {kv kv' : KVStore} {n : Nat} {h : UInt64} {raw : List UInt8} {r : Option Error} :
      Reachable c Raw kv → Raw raw → kv.putRaw c n h raw = some (kv', r) → Reachable c Raw kv'
  | delete {kv : KVStore} {h : UInt64} : Reachable c Raw kv → Reachable c Raw (kv.delete c h).1
  | updateTTL {kv : KVStore} {h : UInt64} {d : Entry} :
      Reachable c Raw kv → Reachable c Raw (kv.updateTTL c h d).1

/-- **An invariant of tables that every fresh table has and every table operation keeps holds of
every table of every reachable engine.** -/
theorem Reachable.forall {Raw : List UInt8 → Prop} {P : Table → Prop} (hnew : ∀ n, P (newTable n))
    (hput : ∀ h raw, IsFrame c raw ∨ Raw raw → ∀ t t', P t → t.putRaw c h raw = some t' → P t')
    (hdel : ∀ h t t', P t → t.delete c h = some t' → P t')
    (hupd : ∀ h d t t', P t → t.updateTTL c h d = some t' → P t')
    {kv : KVStore} (hr : Reachable c Raw kv) : kv.Forall P := by
  induction hr with
  | new hn => exact forall_new hnew hn
  | put _ hp ih => exact ih.putLoop hnew (hput _ _ (.inl ⟨_, rfl⟩)) hp
  | putRaw _ hraw hp ih => exact ih.putLoop hnew (hput _ _ (.inr hraw)) hp
  | delete _ ih => exact ih.delete hnew (hdel _)
  | updateTTL _ ih => exact ih.updateTTL (hupd _ _)

/-- **Every engine reachable with `PutRaw` given only frames is well formed.** -/
theorem Reachable.wf_of_frames {Raw : List UInt8 → Prop} {kv : KVStore}
    (hr : Reachable c Raw kv) (hframes : ∀ raw, Raw raw → IsFrame c raw) : kv.WF c :=
  hr.forall Table.wf_newTable
    (fun _ _ hraw _ _ ht hp => by
      obtain ⟨e, rfl⟩ := hraw.elim id (hframes _)
      exact ht.putRaw hp)
    (fun _ _ _ ht hd => ht.delete hd) (fun _ _ _ _ ht hu => ht.updateTTL hu)

theorem Reachable.wf {kv : KVStore} (hr : Reachable c (IsFrame c) kv) : kv.WF c :=
  hr.wf_of_frames fun _ h => h

/-- Whatever bytes `PutRaw` was given, every slab of a reachable engine is its allocated size,
and every table holds at least `minimumSize` bytes: `newTable` raises every size to it, and no
operation changes a table's size. -/
theorem Reachable.size {Raw : List UInt8 → Prop} {kv : KVStore} (hr : Reachable c Raw kv) :
    kv.Forall fun t => t.memory.length = t.allocated ∧ minimumSize ≤ t.allocated :=
  hr.forall (fun _ => ⟨List.length_replicate _ _, le_max_right _ _⟩)
    (fun _ _ _ _ _ ht hp => by
      obtain ⟨-, rfl⟩ := Table.putRaw_eq_some.mp hp
      simpa using ht)
    (fun _ _ _ ht hd => by
      obtain ⟨o, -, rfl⟩ := Table.delete_eq_some.mp hd
      exact ht)
    (fun _ _ _ _ ht hu => by
      obtain ⟨o, -, rfl⟩ := Table.updateTTL_eq_some.mp hu
      simpa using ht)

theorem Reachable.length {Raw : List UInt8 → Prop} {kv : KVStore} (hr : Reachable c Raw kv) :
    kv.Forall fun t => t.memory.length = t.allocated :=
  fun t ht => (hr.size t ht).1

/-! ## What `Put` and `UpdateTTL` do to `content` -/

theorem content_setNewest {kv : KVStore} {t : Table} {h : UInt64}
    (ht : t.get c h = kv.newest.get c h) :
    ({ kv with newest := t } : KVStore).content c h = kv.content c h := by
  simp only [content, tables, List.findSome?_cons, ht]

@[simp] theorem content_spill (kv : KVStore) (h : UInt64) :
    kv.spill.content c h = kv.content c h := by
  simp [content, List.findSome?_cons, Table.get, newTable]

/-- **`Put` leaves what the chain stores under every other hkey unchanged**, spills included. -/
theorem content_putLoop_of_ne {h h' : UInt64} {raw : List UInt8} (hne : h' ≠ h) :
    ∀ {n : Nat} {kv kv' : KVStore} {res r : Option Error}, kv.WF c →
      putLoop (·.putRaw c h raw) n kv res = some (kv', r) → kv'.content c h' = kv.content c h'
  | 0, _, _, _, _, _, hp => by simp at hp
  | n + 1, kv, kv', res, r, hwf, hp => by
    rw [putLoop_succ] at hp
    split at hp
    · cases hp
      exact content_setNewest (((wf_iff kv).mp hwf).1.get_putRaw_of_ne ‹_› hne)
    · rw [content_putLoop_of_ne hne hwf.spill hp, content_spill]

/-- **Read after write**: once `Put` of `e` returns, the chain stores `e` under `h`, whatever its
slabs hold, as long as each is its allocated size. -/
theorem content_putLoop_self_of_length {h : UInt64} {e : Entry} :
    ∀ {n : Nat} {kv kv' : KVStore} {res r : Option Error},
      kv.Forall (fun t => t.memory.length = t.allocated) →
      putLoop (·.putRaw c h (c.encode e)) n kv res = some (kv', r) → kv'.content c h = some e
  | 0, _, _, _, _, _, hp => by simp at hp
  | n + 1, kv, kv', res, r, hlen, hp => by
    rw [putLoop_succ] at hp
    split at hp
    · cases hp
      simp only [content, tables, List.findSome?_cons,
        Table.get_putRaw_self ((forall_iff kv).mp hlen).1 ‹_›]
    · exact content_putLoop_self_of_length
        (hlen.spill fun _ => List.length_replicate _ _) hp

theorem content_putLoop_self {h : UInt64} {e : Entry} {n : Nat} {kv kv' : KVStore}
    {res r : Option Error} (hwf : kv.WF c)
    (hp : putLoop (·.putRaw c h (c.encode e)) n kv res = some (kv', r)) :
    kv'.content c h = some e :=
  content_putLoop_self_of_length (fun t ht => (hwf t ht).length) hp

end KVStore

end Olric.Kvstore
