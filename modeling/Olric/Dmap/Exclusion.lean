import Olric.Dmap.Protocol

/-!
# Dmap/Exclusion — what the lock protocol guarantees, and what it does not

Invariants of the step system of `Dmap/Protocol`, each proved for one step from the inversion
lemmas and then for every reachable state:

* the fine-grained locker is held by at most one unlock call (`LockerInv`), and only tokens
  whose `LockContext` was handed out are presented (`HandedInv`);
* without out-of-band writes, an unlock call between its check and its delete compared the
  record still stored, unless that record has expired since (`CheckedInv`), so its delete removes
  its own token or an expired acquisition's successor (`delete_finds_own_token`);
* without out-of-band writes, a token is released by at most one unlock call
  (`release_at_most_once`);
* when every delete removes the deleting call's own token, a holder's token is stored
  (`HolderInv`), so at most one client holds an unexpired lock (`mutual_exclusion`); runs whose
  acquisitions all use `nilTimeout` are such runs (`Reachable.fenced`).

An acquisition with a TTL that expires between an unlock's check and its delete breaks both
fencing and exclusion: the delete removes the next holder's entry
(`delete_removes_other_token`), and a third client acquires (`expiry_race`).
-/

namespace Olric.Dmap

open Function

/-! ## The locker -/

/-- Every call that holds the fine-grained locker is the call the locker names. -/
def LockerInv (s : State) : Prop :=
  ∀ j c, s.calls j = some c → c.phase.holdsLocker → s.locker = some j

/-- Every call presents a token whose `LockContext` was handed out. -/
def HandedInv (s : State) : Prop := ∀ j c, s.calls j = some c → (s.acq c.token).handedOut

section Locker

variable {s s' : State}

/-- Two calls that hold the locker are one. -/
theorem LockerInv.unique (hi : LockerInv s) {j k : Nat} {c d : Call} (hj : s.calls j = some c)
    (hk : s.calls k = some d) (hc : c.phase.holdsLocker) (hd : d.phase.holdsLocker) : j = k :=
  Option.some.inj ((hi j c hj hc).symm.trans (hi k d hk hd))

/-- A call that holds the locker returns and releases it. -/
theorem LockerInv.finish (hi : LockerInv s) {j : Nat} {c : Call} (hj : s.calls j = some c)
    (hc : c.phase.holdsLocker) (T : Token) (r : Except Error Unit) :
    LockerInv (s.finish j T r) := by
  intro k d hk hd
  simp only [State.finish, update_apply, ite_eq_iff] at hk
  rcases hk with ⟨-, ⟨⟩⟩ | ⟨hkj, hk⟩
  · cases hd
  · exact absurd (hi.unique hk hj hd hc) hkj

theorem LockerInv.step (hi : LockerInv s) {a : Act} (h : step s a = some s') : LockerInv s' := by
  cases a with
  | draw => obtain ⟨-, rfl⟩ := step_draw h; exact hi
  | attempt => obtain ⟨_, -, ⟨-, rfl⟩ | rfl⟩ := step_attempt h <;> exact hi
  | giveUp => obtain ⟨-, rfl⟩ := step_giveUp h; exact hi
  | call j T =>
    obtain ⟨-, -, rfl⟩ := step_call h
    intro k d hk hd
    simp only [update_apply, ite_eq_iff] at hk
    rcases hk with ⟨-, ⟨⟩⟩ | ⟨-, hk⟩
    · cases hd
    · exact hi k d hk hd
  | enter j =>
    obtain ⟨T, hj, hl, rfl⟩ := step_enter h
    intro k d hk hd
    simp only [update_apply, ite_eq_iff] at hk
    rcases hk with ⟨rfl, -⟩ | ⟨-, hk⟩
    exacts [rfl, absurd (hi k d hk hd) (by simp [hl])]
  | check j =>
    obtain ⟨T, hj, ⟨rec, -, -, rfl⟩ | rfl⟩ := step_check h
    · intro k d hk hd
      simp only [update_apply, ite_eq_iff] at hk
      rcases hk with ⟨rfl, -⟩ | ⟨-, hk⟩
      exacts [hi k _ hj rfl, hi k d hk hd]
    · exact hi.finish hj rfl T _
  | delete j => obtain ⟨T, rec, hj, rfl⟩ := step_delete h; exact hi.finish hj rfl T _
  | fail j err => obtain ⟨c, e, hj, hc, rfl⟩ := step_fail h; exact hi.finish hj hc _ _
  | tick => rw [step_tick h]; exact hi
  | evict => obtain ⟨_, -, -, rfl⟩ := step_evict h; exact hi
  | oob => rw [step_oob h]; exact hi

/-- A token stays handed out when another's acquisition changes, or its own changes to one
handed out. -/
theorem handedOut_update {acq : Token → Acq} {T T' : Token} {v : Acq} (h : (acq T').handedOut)
    (hv : (acq T).handedOut = false ∨ v.handedOut) : (update acq T v T').handedOut := by
  rw [update_apply]
  split_ifs with he
  · subst he
    exact hv.resolve_left (by simp [h])
  · exact h

/-- A call that presents a token handed out keeps the invariant of the others. -/
theorem HandedInv.update (hi : HandedInv s) {j : Nat} {c : Call}
    (hcalls : update s.calls j (some c) = s'.calls) (ha : s.acq = s'.acq)
    (hc : (s.acq c.token).handedOut) : HandedInv s' := by
  intro k d hk
  rw [← hcalls, update_apply, ite_eq_iff] at hk
  rw [← ha]
  rcases hk with ⟨-, ⟨⟩⟩ | ⟨-, hk⟩
  exacts [hc, hi k d hk]

theorem HandedInv.step (hi : HandedInv s) {a : Act} (h : step s a = some s') : HandedInv s' := by
  cases a with
  | draw T ttl =>
    obtain ⟨hT, rfl⟩ := step_draw h
    exact fun j c hc => handedOut_update (hi j c hc) (.inl (by rw [hT]; rfl))
  | attempt T =>
    obtain ⟨_, -, ⟨-, rfl⟩ | rfl⟩ := step_attempt h
    exacts [fun j c hc => handedOut_update (hi j c hc) (.inr rfl), hi]
  | giveUp T =>
    obtain ⟨⟨ttl, hT⟩, rfl⟩ := step_giveUp h
    exact fun j c hc => handedOut_update (hi j c hc) (.inl (by rw [hT]; rfl))
  | call j T => obtain ⟨-, hT, rfl⟩ := step_call h; exact hi.update rfl rfl hT
  | enter j => obtain ⟨T, hj, -, rfl⟩ := step_enter h; exact hi.update rfl rfl (hi j _ hj :)
  | check j =>
    obtain ⟨T, hj, ⟨rec, -, -, rfl⟩ | rfl⟩ := step_check h <;> exact hi.update rfl rfl (hi j _ hj :)
  | delete j =>
    obtain ⟨T, rec, hj, rfl⟩ := step_delete h
    exact HandedInv.update (s := { s with acq := Function.update s.acq T .released })
      (fun k d hk => handedOut_update (hi k d hk) (.inr rfl)) rfl rfl
      (handedOut_update (hi j _ hj :) (.inr rfl))
  | fail j err => obtain ⟨c, e, hj, -, rfl⟩ := step_fail h; exact hi.update rfl rfl (hi j c hj :)
  | tick => rw [step_tick h]; exact hi
  | evict => obtain ⟨_, -, -, rfl⟩ := step_evict h; exact hi
  | oob => rw [step_oob h]; exact hi

end Locker

/-! ## Between check and delete -/

/-- An unlock call between its check and its delete compared its own token, and the record it
compared is still stored, or has expired since. -/
def CheckedInv (s : State) : Prop :=
  ∀ j T rec, s.calls j = some ⟨T, .checked rec⟩ →
    rec.token = T ∧ (s.entry = some rec ∨ unexpired rec.expiry s.clock = false)

section Checked

variable {s s' : State}

/-- A call that is not checked afterwards keeps the invariant of the others. -/
theorem CheckedInv.update (hi : CheckedInv s) {j : Nat} {c : Call}
    (hc : ∀ rec, c.phase ≠ .checked rec) {s' : State} (he : s'.entry = s.entry)
    (hclock : s'.clock = s.clock) (hcalls : s'.calls = update s.calls j (some c)) :
    CheckedInv s' := by
  intro k T rec hk
  rw [hcalls, update_apply, ite_eq_iff] at hk
  rcases hk with ⟨-, ⟨⟩⟩ | ⟨-, hk⟩
  · exact absurd rfl (hc rec)
  · rw [he, hclock]; exact hi k T rec hk

theorem CheckedInv.step (hl : LockerInv s) (hi : CheckedInv s) {a : Act} (hc : a.isCore)
    (h : step s a = some s') : CheckedInv s' := by
  cases a with
  | draw => obtain ⟨-, rfl⟩ := step_draw h; exact hi
  | attempt T =>
    obtain ⟨_, -, ⟨hv, rfl⟩ | rfl⟩ := step_attempt h
    · intro k T' rec hk
      obtain ⟨ht, he | hx⟩ := hi k T' rec hk
      · exact ⟨ht, .inr (s.expired_of_visible_eq_none hv he)⟩
      · exact ⟨ht, .inr hx⟩
    · exact hi
  | giveUp => obtain ⟨-, rfl⟩ := step_giveUp h; exact hi
  | call j T => obtain ⟨-, -, rfl⟩ := step_call h; exact hi.update (by simp) rfl rfl rfl
  | enter j => obtain ⟨T, -, -, rfl⟩ := step_enter h; exact hi.update (by simp) rfl rfl rfl
  | check j =>
    obtain ⟨T, hj, ⟨rec, hv, ht, rfl⟩ | rfl⟩ := step_check h
    · intro k T' rec' hk
      simp only [update_apply, ite_eq_iff] at hk
      rcases hk with ⟨-, ⟨⟩⟩ | ⟨-, hk⟩
      exacts [⟨ht, .inl (s.entry_of_visible hv).1⟩, hi k T' rec' hk]
    · exact hi.update (by simp) rfl rfl rfl
  | delete j =>
    obtain ⟨T, rec, hj, rfl⟩ := step_delete h
    intro k T' rec' hk
    simp only [State.finish, update_apply, ite_eq_iff] at hk
    rcases hk with ⟨-, ⟨⟩⟩ | ⟨hkj, hk⟩
    exact absurd (hl.unique hk hj rfl rfl) hkj
  | fail j err => obtain ⟨c, e, -, -, rfl⟩ := step_fail h; exact hi.update (by simp) rfl rfl rfl
  | tick =>
    rw [step_tick h]
    intro k T rec hk
    obtain ⟨ht, he | hx⟩ := hi k T rec hk
    · exact ⟨ht, .inl he⟩
    · refine ⟨ht, .inr ?_⟩
      by_contra hu
      exact absurd (unexpired_of_succ (by simpa using hu)) (by simp [hx])
  | evict =>
    obtain ⟨rec', he', hx', rfl⟩ := step_evict h
    intro k T rec hk
    obtain ⟨ht, he | hx⟩ := hi k T rec hk
    · rw [he'] at he; cases he; exact ⟨ht, .inr hx'⟩
    · exact ⟨ht, .inr hx⟩
  | oob => cases hc

end Checked

/-! ## At most one release per token -/

/-- Once an unlock call of `T` has returned nil, it is the only one that has, and `T` is not
being acquired, not stored, and presented by no call between check and delete. -/
def OnceInv (s : State) : Prop :=
  ∀ j T, s.calls j = some ⟨T, .done (.ok ())⟩ →
    (∀ k, s.calls k = some ⟨T, .done (.ok ())⟩ → k = j) ∧ (∀ ttl, s.acq T ≠ .trying ttl) ∧
      s.entry.map Stored.token ≠ some T ∧ ∀ k rec, s.calls k ≠ some ⟨T, .checked rec⟩

section Once

variable {s s' : State}

/-- A call that does not return nil, and is checked afterwards only if its token was not
released, keeps the invariant. -/
theorem OnceInv.update (hi : OnceInv s) {k : Nat} {c : Call} (hok : c.phase ≠ .done (.ok ()))
    (hck : ∀ rec, c.phase = .checked rec → ∀ j, s.calls j ≠ some ⟨c.token, .done (.ok ())⟩)
    (he : s'.entry = s.entry) (ha : s'.acq = s.acq)
    (hcalls : s'.calls = update s.calls k (some c)) : OnceInv s' := by
  have hnk : ∀ j T, s'.calls j = some ⟨T, .done (.ok ())⟩ →
      s.calls j = some ⟨T, .done (.ok ())⟩ := by
    intro j T hj
    rw [hcalls, update_apply, ite_eq_iff] at hj
    rcases hj with ⟨-, ⟨⟩⟩ | ⟨-, hj⟩
    exacts [absurd rfl hok, hj]
  intro j T hj
  obtain ⟨h1, h2, h3, h4⟩ := hi j T (hnk j T hj)
  refine ⟨fun k' hk' => h1 k' (hnk k' T hk'), by rwa [ha], by rwa [he], fun k' rec => ?_⟩
  rw [hcalls, update_apply]
  split_ifs
  · rintro ⟨⟩
    exact hck rec rfl j (hnk j T hj)
  · exact h4 k' rec

theorem OnceInv.step (hl : LockerInv s) (hh : HandedInv s) (hi : OnceInv s) {a : Act}
    (hc : a.isCore) (h : step s a = some s') : OnceInv s' := by
  cases a with
  | draw T' ttl =>
    obtain ⟨hT, rfl⟩ := step_draw h
    intro j T hj
    obtain ⟨h1, h2, h3, h4⟩ := hi j T hj
    refine ⟨h1, fun ttl' => ?_, h3, h4⟩
    simp only [update_apply]
    split_ifs with he
    · have := hh j _ hj; simp only [he, hT] at this; cases this
    · exact h2 ttl'
  | attempt T' =>
    obtain ⟨ttl, hT, ⟨-, rfl⟩ | rfl⟩ := step_attempt h
    · intro j T hj
      obtain ⟨h1, h2, h3, h4⟩ := hi j T hj
      have hne : T ≠ T' := fun he => h2 ttl (he ▸ hT)
      refine ⟨h1, fun ttl' => ?_, by simpa [State.grant] using hne.symm, h4⟩
      simp only [State.grant, update_apply, if_neg hne]
      exact h2 ttl'
    · exact hi
  | giveUp T' =>
    obtain ⟨-, rfl⟩ := step_giveUp h
    intro j T hj
    obtain ⟨h1, h2, h3, h4⟩ := hi j T hj
    refine ⟨h1, fun ttl' => ?_, h3, h4⟩
    simp only [update_apply]
    split_ifs
    · simp
    · exact h2 ttl'
  | call k T' =>
    obtain ⟨-, -, rfl⟩ := step_call h; exact hi.update (by simp) (by simp) rfl rfl rfl
  | enter k =>
    obtain ⟨_, -, -, rfl⟩ := step_enter h; exact hi.update (by simp) (by simp) rfl rfl rfl
  | check k =>
    obtain ⟨T', hk, ⟨rec, hv, ht, rfl⟩ | rfl⟩ := step_check h
    · refine hi.update (by simp) (fun _ _ j hj => (hi j _ hj).2.2.1 ?_) rfl rfl rfl
      rw [(s.entry_of_visible hv).1, ← ht]
      rfl
    · exact hi.update (by simp) (by simp) rfl rfl rfl
  | delete k =>
    obtain ⟨T', rec, hk, rfl⟩ := step_delete h
    have hfresh : ∀ k', s.calls k' ≠ some ⟨T', .done (.ok ())⟩ := fun k' hk' =>
      (hi k' T' hk').2.2.2 k rec hk
    have honly : ∀ k' rec', s.calls k' = some ⟨T', .checked rec'⟩ → k' = k := fun k' rec' hk' =>
      hl.unique hk' hk rfl rfl
    intro j T hj
    simp only [State.finish, update_apply] at hj ⊢
    split_ifs at hj with hjk
    · cases hj
      refine ⟨fun k' hk' => ?_, fun ttl => by simp, by simp, fun k' rec' => ?_⟩
      · split_ifs at hk' with hk'k
        · exact hk'k.trans hjk.symm
        · exact absurd hk' (hfresh k')
      · split_ifs with hk'k
        · simp
        · exact fun hc' => hk'k (honly k' rec' hc')
    · obtain ⟨h1, h2, h3, h4⟩ := hi j T hj
      have hne : T ≠ T' := fun he => h4 k rec (he ▸ hk)
      refine ⟨fun k' hk' => ?_, fun ttl => ?_, by simp, fun k' rec' => ?_⟩
      · split_ifs at hk' with hk'k
        · cases hk'; exact absurd rfl hne
        · exact h1 k' hk'
      · rw [if_neg hne]; exact h2 ttl
      · split_ifs
        · simp
        · exact h4 k' rec'
  | fail k err =>
    obtain ⟨c, e, -, -, rfl⟩ := step_fail h
    exact hi.update (by simp) (by simp) rfl rfl rfl
  | tick => rw [step_tick h]; exact hi
  | evict =>
    obtain ⟨_, -, -, rfl⟩ := step_evict h
    intro j T hj
    obtain ⟨h1, h2, -, h4⟩ := hi j T hj
    exact ⟨h1, h2, by simp, h4⟩
  | oob => cases hc

end Once

/-! ## Every run without out-of-band writes

The four invariants hold together initially and are kept by every action of the lock's own
parties, so they hold on every run of a policy that permits no out-of-band write. -/

/-- The invariants of the lock's own parties. -/
structure CoreInv (s : State) : Prop where
  locker : LockerInv s
  handed : HandedInv s
  checked : CheckedInv s
  once : OnceInv s

theorem coreInv_init : CoreInv init := ⟨nofun, nofun, nofun, nofun⟩

theorem CoreInv.step {s s' : State} (hi : CoreInv s) {a : Act} (hc : a.isCore)
    (h : step s a = some s') : CoreInv s' :=
  ⟨hi.locker.step h, hi.handed.step h, hi.checked.step hi.locker hc h,
    hi.once.step hi.locker hi.handed hc h⟩

theorem Reachable.coreInv {allowed : State → Act → Prop} (hcore : ∀ s a, allowed s a → a.isCore)
    {s : State} (hr : Reachable allowed s) : CoreInv s := by
  induction hr with
  | init => exact coreInv_init
  | step _ ha hs ih => exact ih.step (hcore _ _ ha) hs

/-! ## Holders

A client that holds an unexpired lock has its token stored, as long as no delete removes another
call's token: then two holders would be stored at once. -/

/-- Every client that holds an unexpired lock has its token stored, with its expiry. -/
def HolderInv (s : State) : Prop :=
  ∀ T e, s.acq T = .granted e → unexpired e s.clock = true → s.entry = some ⟨T, e⟩

section Holder

variable {s s' : State}

/-- Two holders are one. -/
theorem HolderInv.unique (hi : HolderInv s) {T T' : Token} (hT : Holds s T) (hT' : Holds s T') :
    T = T' := by
  obtain ⟨e, he, hu⟩ := hT
  obtain ⟨e', he', hu'⟩ := hT'
  have hs : (⟨T, e⟩ : Stored) = ⟨T', e'⟩ :=
    Option.some.inj ((hi T e he hu).symm.trans (hi T' e' he' hu'))
  exact congrArg Stored.token hs

theorem HolderInv.step (hi : HolderInv s) {a : Act} (hf : Fenced s a) (h : step s a = some s') :
    HolderInv s' := by
  cases a with
  | draw T' ttl =>
    obtain ⟨-, rfl⟩ := step_draw h
    intro T e hT hu
    simp only [update_apply] at hT
    split_ifs at hT
    exact hi T e hT hu
  | attempt T' =>
    obtain ⟨ttl, -, ⟨hv, rfl⟩ | rfl⟩ := step_attempt h
    · intro T e hT hu
      simp only [State.grant, update_apply] at hT hu ⊢
      split_ifs at hT with he
      · cases hT; rw [he]
      · have hvis : s.visible = some ⟨T, e⟩ := by simp [State.visible, hi T e hT hu, hu]
        exact absurd (hvis.symm.trans hv) (by simp)
    · exact hi
  | giveUp T' =>
    obtain ⟨-, rfl⟩ := step_giveUp h
    intro T e hT hu
    simp only [update_apply] at hT
    split_ifs at hT
    exact hi T e hT hu
  | call j T' => obtain ⟨-, -, rfl⟩ := step_call h; exact hi
  | enter j => obtain ⟨_, -, -, rfl⟩ := step_enter h; exact hi
  | check j => obtain ⟨_, -, ⟨_, -, -, rfl⟩ | rfl⟩ := step_check h <;> exact hi
  | delete j =>
    obtain ⟨T', rec, hj, rfl⟩ := step_delete h
    obtain ⟨c, hc, htok⟩ := hf.2 j rfl
    rw [hj] at hc
    cases hc
    intro T e hT hu
    simp only [update_apply] at hT
    split_ifs at hT with he
    rw [hi T e hT hu] at htok
    exact absurd (Option.some.inj htok) he
  | fail j err => obtain ⟨_, _, -, -, rfl⟩ := step_fail h; exact hi
  | tick => rw [step_tick h]; exact fun T e hT hu => hi T e hT (unexpired_of_succ hu)
  | evict =>
    obtain ⟨rec, he, hx, rfl⟩ := step_evict h
    intro T e hT hu
    rw [hi T e hT hu] at he
    cases he
    simp [hu] at hx
  | oob => cases hf.1

theorem Reachable.holderInv (hr : Reachable Fenced s) : HolderInv s := by
  induction hr with
  | init => exact nofun
  | step _ hf hs ih => exact ih.step hf hs

end Holder

/-! ## Runs with `nilTimeout`

When no acquisition has a TTL nothing expires, so the record an unlock call compared is still
stored at its delete: such runs are fenced. -/

/-- With `nilTimeout` everywhere, no acquisition tries a TTL, and neither the stored entry nor a
record an unlock call compared has an expiry. -/
structure NilInv (s : State) : Prop where
  trying : ∀ T ttl, s.acq T = .trying ttl → ttl = 0
  entry : ∀ rec, s.entry = some rec → rec.expiry = none
  checked : ∀ j T rec, s.calls j = some ⟨T, .checked rec⟩ → rec.expiry = none

section Nil

variable {s s' : State}

/-- A step that changes one call, to a phase with no expiring record, keeps the invariant. -/
theorem NilInv.update (hi : NilInv s) {j : Nat} {c : Call}
    (hc : ∀ rec, c.phase = .checked rec → rec.expiry = none) (he : s'.entry = s.entry)
    (ha : s'.acq = s.acq) (hcalls : s'.calls = update s.calls j (some c)) : NilInv s' := by
  refine ⟨ha ▸ hi.trying, he ▸ hi.entry, fun k T rec hk => ?_⟩
  rw [hcalls, update_apply, ite_eq_iff] at hk
  rcases hk with ⟨-, ⟨⟩⟩ | ⟨-, hk⟩
  exacts [hc rec rfl, hi.checked k T rec hk]

theorem NilInv.step (hi : NilInv s) {a : Act} (hn : NilTimeout s a) (h : step s a = some s') :
    NilInv s' := by
  cases a with
  | draw T' ttl =>
    obtain ⟨-, rfl⟩ := step_draw h
    refine ⟨fun T ttl' hT => ?_, hi.entry, hi.checked⟩
    simp only [update_apply] at hT
    split_ifs at hT
    · cases hT; exact beq_iff_eq.mp hn
    · exact hi.trying T ttl' hT
  | attempt T' =>
    obtain ⟨ttl, hT', ⟨-, rfl⟩ | rfl⟩ := step_attempt h
    · refine ⟨fun T ttl' hT => ?_, fun rec he => ?_, hi.checked⟩
      · simp only [State.grant, update_apply] at hT
        split_ifs at hT
        exact hi.trying T ttl' hT
      · cases he; simp [expiryOf, hi.trying T' ttl hT']
    · exact hi
  | giveUp T' =>
    obtain ⟨-, rfl⟩ := step_giveUp h
    refine ⟨fun T ttl' hT => ?_, hi.entry, hi.checked⟩
    simp only [update_apply] at hT
    split_ifs at hT
    exact hi.trying T ttl' hT
  | call j T => obtain ⟨-, -, rfl⟩ := step_call h; exact hi.update (by simp) rfl rfl rfl
  | enter j => obtain ⟨_, -, -, rfl⟩ := step_enter h; exact hi.update (by simp) rfl rfl rfl
  | check j =>
    obtain ⟨_, -, ⟨rec, hv, -, rfl⟩ | rfl⟩ := step_check h
    · refine hi.update (fun rec' hr => ?_) rfl rfl rfl
      cases hr
      exact hi.entry rec (s.entry_of_visible hv).1
    · exact hi.update (by simp) rfl rfl rfl
  | delete j =>
    obtain ⟨T', rec, hj, rfl⟩ := step_delete h
    refine ⟨fun T ttl' hT => ?_, nofun,
      (hi.update (by simp) rfl rfl rfl : NilInv (s.finish j T' (.ok ()))).checked⟩
    simp only [update_apply] at hT
    split_ifs at hT
    exact hi.trying T ttl' hT
  | fail j err => obtain ⟨_, _, -, -, rfl⟩ := step_fail h; exact hi.update (by simp) rfl rfl rfl
  | tick => rw [step_tick h]; exact ⟨hi.trying, hi.entry, hi.checked⟩
  | evict =>
    obtain ⟨_, -, -, rfl⟩ := step_evict h
    exact ⟨hi.trying, nofun, hi.checked⟩
  | oob => cases hn

theorem Reachable.nilInv (hr : Reachable NilTimeout s) : NilInv s := by
  induction hr with
  | init => exact ⟨nofun, nofun, nofun⟩
  | step _ hn hs ih => exact ih.step hn hs

/-- With `nilTimeout` everywhere, a delete removes the deleting call's own token. -/
theorem NilInv.fenced (hn : NilInv s) (hc : CheckedInv s) {a : Act} (ha : NilTimeout s a)
    (h : Dmap.step s a = some s') : Fenced s a := by
  refine ⟨Act.isCore_of_nilTimeout ha, ?_⟩
  rintro j rfl
  obtain ⟨T, rec, hj, -⟩ := step_delete h
  obtain ⟨ht, he | hx⟩ := hc j T rec hj
  · exact ⟨_, hj, by rw [he, ← ht]; rfl⟩
  · rw [hn.checked j T rec hj] at hx
    cases hx

/-- Every run with `nilTimeout` everywhere is fenced. -/
theorem Reachable.fenced (hr : Reachable NilTimeout s) : Reachable Fenced s := by
  induction hr with
  | init => exact .init
  | step hr hn hs ih =>
    exact .step ih (hr.nilInv.fenced (hr.coreInv fun _ _ h => Act.isCore_of_nilTimeout h).checked
      hn hs) hs

end Nil

/-! ## What the protocol guarantees

Each guarantee is read off the invariants at a reachable state; the fixed runs after them show
that their hypotheses hold on real runs. -/

/-- **Mutual exclusion** on every run whose deletes each remove the deleting call's own token,
as on every run whose acquisitions all use `nilTimeout`: at most one client holds an unexpired
lock. -/
theorem mutual_exclusion {s : State} (hr : Reachable Fenced s ∨ Reachable NilTimeout s)
    {T T' : Token} (hT : Holds s T) (hT' : Holds s T') : T = T' :=
  (hr.elim id Reachable.fenced).holderInv.unique hT hT'

/-- …and after `Lock` of `[1]`, while `[2]` tries and finds the key, `[1]` is the only holder;
once `[1]` unlocks, `[2]` tries again, acquires, and is the only holder. -/
theorem mutual_exclusion_sole_holder :
    (∃ s, Reachable NilTimeout s ∧ s.acq [2] = .trying 0 ∧ Holds s [1] ∧
      ∀ T, Holds s T → T = [1]) ∧
    ∃ s, Reachable NilTimeout s ∧ s.acq [1] = .released ∧ Holds s [2] ∧
      ∀ T, Holds s T → T = [2] := by
  have hr₁ := (Reachable.init.run_of_all (fun _ _ h => h) (by decide)
    (rfl : run init [.draw [1] 0, .attempt [1], .draw [2] 0, .attempt [2]] = some _) :
      Reachable NilTimeout _)
  have hr₂ := (Reachable.init.run_of_all (fun _ _ h => h) (by decide)
    (rfl : run init [.draw [1] 0, .attempt [1], .draw [2] 0, .attempt [2], .call 0 [1],
      .enter 0, .check 0, .delete 0, .attempt [2]] = some _) : Reachable NilTimeout _)
  exact ⟨⟨_, hr₁, rfl, ⟨none, rfl, rfl⟩,
      fun T hT => mutual_exclusion (.inr hr₁) hT ⟨none, rfl, rfl⟩⟩,
    ⟨_, hr₂, rfl, ⟨none, rfl, rfl⟩, fun T hT => mutual_exclusion (.inr hr₂) hT ⟨none, rfl, rfl⟩⟩⟩

/-- **A delete finds its own token, unless it has expired.**  Without out-of-band writes, when an
unlock call presenting `T` deletes, the record its check compared holds `T` and is still stored,
or has expired since; when every acquisition uses `nilTimeout`, the stored entry holds the
call's token. -/
theorem delete_finds_own_token :
    (∀ s s' j, Reachable Core s → step s (.delete j) = some s' →
      ∃ T rec, s.calls j = some ⟨T, .checked rec⟩ ∧ rec.token = T ∧
        (s.entry = some rec ∨ unexpired rec.expiry s.clock = false)) ∧
    ∀ s s' j, Reachable NilTimeout s → step s (.delete j) = some s' →
      ∃ c, s.calls j = some c ∧ s.entry.map Stored.token = some c.token := by
  refine ⟨fun s s' j hr h => ?_, fun s s' j hr h => ?_⟩
  · obtain ⟨T, rec, hj, -⟩ := step_delete h
    exact ⟨T, rec, hj, (hr.coreInv fun _ _ h => h).checked j T rec hj⟩
  · have hc := (hr.coreInv fun _ _ h => Act.isCore_of_nilTimeout h).checked
    exact (hr.nilInv.fenced hc (a := .delete j) rfl h).2 j rfl

/-- …at the unlock of a `nilTimeout` lock, and at the delete of the expiry race below. -/
theorem delete_finds_own_token_at_unlock :
    (∃ s s', Reachable Core s ∧ step s (.delete 0) = some s' ∧
      ∃ T rec, s.calls 0 = some ⟨T, .checked rec⟩ ∧ rec.token = T ∧
        (s.entry = some rec ∨ unexpired rec.expiry s.clock = false)) ∧
    ∃ s s', Reachable NilTimeout s ∧ step s (.delete 0) = some s' ∧
      ∃ c, s.calls 0 = some c ∧ s.entry.map Stored.token = some c.token := by
  have hc := (Reachable.init.run_of_all (fun _ _ h => h) (by decide)
    (rfl : run init [.draw [1] 2, .attempt [1], .call 0 [1], .enter 0, .check 0, .tick, .tick,
      .draw [2] 0, .attempt [2]] = some _) : Reachable Core _)
  have hn := (Reachable.init.run_of_all (fun _ _ h => h) (by decide)
    (rfl : run init [.draw [1] 0, .attempt [1], .call 0 [1], .enter 0, .check 0] = some _) :
      Reachable NilTimeout _)
  exact ⟨⟨_, _, hc, rfl, delete_finds_own_token.1 _ _ 0 hc rfl⟩,
    ⟨_, _, hn, rfl, delete_finds_own_token.2 _ _ 0 hn rfl⟩⟩

/-- **At most one release per token**, without out-of-band writes: once an unlock call
presenting `T` has returned nil, every other call presenting `T` returns an error. -/
theorem release_at_most_once {s : State} (hr : Reachable Core s) {j : Nat} {T : Token}
    (hj : s.calls j = some ⟨T, .done (.ok ())⟩) {k : Nat} {r : Except Error Unit}
    (hk : s.calls k = some ⟨T, .done r⟩) (hkj : k ≠ j) : ∃ e, r = .error e := by
  cases r with
  | error e => exact ⟨e, rfl⟩
  | ok u => exact absurd (((hr.coreInv fun _ _ h => h).once j T hj).1 k hk) hkj

/-- …as when two calls unlock `[1]` one after the other: the second finds nothing stored. -/
theorem release_at_most_once_second_call :
    ∃ s, Reachable Core s ∧ s.calls 0 = some ⟨[1], .done (.ok ())⟩ ∧
      s.calls 1 = some ⟨[1], .done (.error .noSuchLock)⟩ ∧
      ∃ e, (.error .noSuchLock : Except Error Unit) = .error e := by
  have hr := (Reachable.init.run_of_all (fun _ _ h => h) (by decide)
    (rfl : run init [.draw [1] 0, .attempt [1], .call 0 [1], .call 1 [1], .enter 0, .check 0,
      .delete 0, .enter 1, .check 1] = some _) : Reachable Core _)
  exact ⟨_, hr, rfl, rfl, release_at_most_once (j := 0) (k := 1) hr rfl rfl (by decide)⟩

/-! ## The expiry race

An acquisition with a TTL that expires between an unlock call's check and its delete: the
delete removes the next holder's entry, and a third client acquires. -/

/-- The unlock call `0` of `[1]`, acquired with TTL 2, checks its token; the clock passes the
expiry, and `[2]` is acquired with `nilTimeout`. -/
def expiryRace : List Act :=
  [.draw [1] 2, .attempt [1], .call 0 [1], .enter 0, .check 0, .tick, .tick, .draw [2] 0,
    .attempt [2]]

/-- **Two clients hold the lock.**  After the expiry race, the unlock call of `[1]` deletes
`[2]`'s entry, and `[3]` is acquired: `[2]` and `[3]` both hold `nilTimeout` locks. -/
theorem expiry_race : ∃ s, Reachable Core s ∧ Holds s [2] ∧ Holds s [3] :=
  ⟨_, Reachable.init.run_of_all (fun _ _ h => h) (by decide)
    (rfl : run init (expiryRace ++ [.delete 0, .draw [3] 0, .attempt [3]]) = some _),
    ⟨none, rfl, rfl⟩, ⟨none, rfl, rfl⟩⟩

/-- **A delete removes another client's entry.**  At the end of the expiry race, with no
out-of-band write, the unlock call of `[1]` can delete while `[2]` is stored; and after an
out-of-band put of `[7]` between the check and the delete of an unlock call of `[1]`, it deletes
`[7]`. -/
theorem delete_removes_other_token :
    (∃ s, Reachable Core s ∧ (step s (.delete 0)).isSome ∧
        (s.calls 0).map Call.token = some [1] ∧ s.entry.map Stored.token = some [2]) ∧
      ∃ s, Reachable (fun _ _ => True) s ∧ (step s (.delete 0)).isSome ∧
        (s.calls 0).map Call.token = some [1] ∧ s.entry.map Stored.token = some [7] :=
  ⟨⟨_, Reachable.init.run_of_all (fun _ _ h => h) (by decide)
      (rfl : run init expiryRace = some _), rfl, rfl, rfl⟩,
    ⟨_, Reachable.init.run (fun _ _ _ => trivial)
      (rfl : run init [.draw [1] 0, .attempt [1], .call 0 [1], .enter 0, .check 0,
        .oob (some ⟨[7], none⟩)] = some _), rfl, rfl, rfl⟩⟩

end Olric.Dmap
