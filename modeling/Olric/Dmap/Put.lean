import Olric.Dmap.Lock

/-!
# Dmap/Put — the PUT command handlers, and the `putConfig` they hand to `dm.put`

`putCommandHandler` turns the options of a parsed PUT command into `PutOption`s, applies them
to a zero `putConfig`, and hands that to `dm.put` in a fresh `env`.  What reaches `dm.put` is
the zero config with one option applied, the first the command gives in the order of the
handler's `switch`: `NX`, `XX`, `EX`, `PX`, `EXAT`, `PXAT` (`applyOptions_putOptions`).  So two
things of a command do not reach it:

* a command with a write condition and an expiry (`PUT m k v NX PX 1000`) reaches `dm.put`
  with the condition alone, and `XX` is dropped next to `NX`;
* `PX` and `PXAT` are scaled to nanoseconds by an `int64` multiplication, which is exact just
  while the product fits (`toInt_mul_millisecond_eq_iff`): past `2^63` nanoseconds it wraps,
  to a negative duration at first.

Both are `putCommandHandler_drops_options`; below the bound the scaling is exact
(`putCommandHandler_px_exact`).  `putEntryCommandHandler`, which a backup runs, hands its entry
on with no options at all.  `ParsePutCommand`, `PutOption` and `putConfig` are not in src: the
parsed command has the fields and the Go types the handler reads, and an option sets the field
its name says.  The float arithmetic of `EX` and `EXAT`, which no result here is about, is a
parameter.
-/

namespace Olric.Dmap

/-! ## Commands, options and the `env` -/

/-- `time.Duration`: nanoseconds in an `int64`, read as a signed number through `toInt`. -/
abbrev Duration := BitVec 64

/-- `time.Millisecond`: 10^6 nanoseconds. -/
def millisecond : Duration := 1000000

/-- A Go `float64`, by its IEEE 754 bits. -/
structure Float64 where
  bits : BitVec 64
deriving DecidableEq, Repr

/-- `x != 0`: false for both zeros, true for every other value, NaN included. -/
def Float64.ne0 (x : Float64) : Bool := x.bits.toNat % 2 ^ 63 != 0

/-- Modelled from the spec: the command `protocol.ParsePutCommand` returns (`protocol` is not in
src), with the fields `putCommandHandler` reads, at their Go types: `EX` and `EXAT` seconds as
`float64`, `PX` and `PXAT` milliseconds as `int64`, each `0` when the option is not given. -/
structure PutCommand where
  dmap : String
  key : String
  value : List UInt8
  nx : Bool
  xx : Bool
  ex : Float64
  px : BitVec 64
  exat : Float64
  pxat : BitVec 64
deriving DecidableEq, Repr

/-- Modelled from the spec: `putConfig`, what a put carries beside the entry, one field for each
option: its write condition (`NX`: only if absent, `XX`: only if present) and its expiry.  The
defaults are Go's zero value. -/
structure PutConfig where
  hasNX : Bool := false
  hasXX : Bool := false
  ex : Option Duration := none
  px : Option Duration := none
  exat : Option Duration := none
  pxat : Option Duration := none
deriving DecidableEq, Repr

/-- Modelled from the spec: a `PutOption` sets the field of a `putConfig` its name says. -/
def PutOption := PutConfig → PutConfig

namespace PutOption

/-- `NX()`. -/
def nx : PutOption := fun pc => { pc with hasNX := true }

/-- `XX()`. -/
def xx : PutOption := fun pc => { pc with hasXX := true }

/-- `EX(d)`. -/
def ex (d : Duration) : PutOption := fun pc => { pc with ex := some d }

/-- `PX(d)`. -/
def px (d : Duration) : PutOption := fun pc => { pc with px := some d }

/-- `EXAT(d)`. -/
def exat (d : Duration) : PutOption := fun pc => { pc with exat := some d }

/-- `PXAT(d)`. -/
def pxat (d : Duration) : PutOption := fun pc => { pc with pxat := some d }

end PutOption

/-- `partitions.Kind`: whether a put is on the primary copy or a backup. -/
inductive Kind where
  | primary
  | backup
deriving DecidableEq, Repr

/-- `env`, what `dm.put` is given.  (`fragment`, a pointer the handler leaves nil, is left
out.) -/
structure Env where
  putConfig : PutConfig
  hkey : UInt64
  timestamp : BitVec 64
  dmap : String
  key : String
  value : List UInt8
  timeout : Duration
  kind : Kind
deriving DecidableEq, Repr

/-- `newEnv()`, at the time `now` (`time.Now().UnixNano()`). -/
def newEnv (now : BitVec 64) : Env where
  putConfig := {}
  hkey := 0
  timestamp := now
  dmap := ""
  key := ""
  value := []
  timeout := 0
  kind := .primary

/-! ## The handler -/

/-- What the handler writes on the connection. -/
inductive Reply where
  /-- `protocol.WriteError(conn, err)` -/
  | error (err : DMapError)
  /-- `conn.WriteString(protocol.StatusOK)` -/
  | ok

/-- The `switch` of `putCommandHandler`: the option of its first true case, if one is.
`seconds` is `time.Duration(x * float64(time.Second))`, IEEE rounding and all. -/
def putOptions (seconds : Float64 → Duration) (cmd : PutCommand) : List PutOption :=
  if cmd.nx then [.nx]
  else if cmd.xx then [.xx]
  else if cmd.ex.ne0 then [.ex (seconds cmd.ex)]
  else if cmd.px != 0 then [.px (cmd.px * millisecond)]
  else if cmd.exat.ne0 then [.exat (seconds cmd.exat)]
  else if cmd.pxat != 0 then [.pxat (cmd.pxat * millisecond)]
  else []

/-- `var pc putConfig; for _, opt := range options { opt(&pc) }`. -/
def applyOptions (options : List PutOption) : PutConfig := options.foldl (fun pc opt => opt pc) {}

/-- `putCommandHandler(conn, cmd)`, from what `ParsePutCommand`, `getOrCreateDMap` and `dm.put`
return: the `env` it hands to `dm.put`, when it gets that far, and what it writes back. -/
def putCommandHandler (parsed : Except DMapError PutCommand)
    (getOrCreateDMap : String → Except DMapError Unit) (seconds : Float64 → Duration)
    (now : BitVec 64) (put : Env → Except DMapError Unit) : Option Env × Reply :=
  match parsed with
  | .error err => (none, .error err)
  | .ok cmd =>
    match getOrCreateDMap cmd.dmap with
    | .error err => (none, .error err)
    | .ok () =>
      let e : Env := { newEnv now with
        putConfig := applyOptions (putOptions seconds cmd), dmap := cmd.dmap, key := cmd.key,
        value := cmd.value }
      (some e, match put e with
        | .error err => .error err
        | .ok () => .ok)

/-- Modelled from the spec: the command `protocol.ParsePutEntryCommand` returns, an entry a
partition owner sends to its backups. -/
structure PutEntryCommand where
  dmap : String
  key : String
  value : List UInt8
deriving DecidableEq, Repr

/-- `putEntryCommandHandler(conn, cmd)`, from what `ParsePutEntryCommand`, `getOrCreateDMap`,
`partitions.HKey` and `dm.putOnReplicaFragment` return. -/
def putEntryCommandHandler (parsed : Except DMapError PutEntryCommand)
    (getOrCreateDMap : String → Except DMapError Unit) (hKey : String → String → UInt64)
    (now : BitVec 64) (putOnReplicaFragment : Env → Except DMapError Unit) :
    Option Env × Reply :=
  match parsed with
  | .error err => (none, .error err)
  | .ok cmd =>
    match getOrCreateDMap cmd.dmap with
    | .error err => (none, .error err)
    | .ok () =>
      let e : Env := { newEnv now with
        hkey := hKey cmd.dmap cmd.key, dmap := cmd.dmap, key := cmd.key, value := cmd.value }
      (some e, match putOnReplicaFragment e with
        | .error err => .error err
        | .ok () => .ok)

/-! ## What reaches `dm.put`

The options reach `dm.put` field by field: a field of the `putConfig` is set exactly when its
option is given and no option before it in the `switch` is. -/

section Options

variable (seconds : Float64 → Duration) (cmd : PutCommand)

@[simp] theorem applyOptions_nil : applyOptions [] = {} := rfl

@[simp] theorem applyOptions_singleton (opt : PutOption) : applyOptions [opt] = opt {} := rfl

/-- **The `putConfig` of a command, field by field.** -/
theorem applyOptions_putOptions :
    let pc := applyOptions (putOptions seconds cmd)
    pc.hasNX = cmd.nx ∧ pc.hasXX = (cmd.xx && !cmd.nx) ∧
      pc.ex = (if cmd.ex.ne0 && !(cmd.nx || cmd.xx) then some (seconds cmd.ex) else none) ∧
      pc.px = (if cmd.px != 0 && !(cmd.nx || cmd.xx || cmd.ex.ne0) then
        some (cmd.px * millisecond) else none) ∧
      pc.exat = (if cmd.exat.ne0 && !(cmd.nx || cmd.xx || cmd.ex.ne0 || cmd.px != 0) then
        some (seconds cmd.exat) else none) ∧
      pc.pxat = (if cmd.pxat != 0 &&
          !(cmd.nx || cmd.xx || cmd.ex.ne0 || cmd.px != 0 || cmd.exat.ne0) then
        some (cmd.pxat * millisecond) else none) := by
  unfold putOptions
  by_cases h1 : cmd.nx
  · simp [h1, PutOption.nx]
  by_cases h2 : cmd.xx
  · simp [h1, h2, PutOption.xx]
  by_cases h3 : cmd.ex.ne0
  · simp [h1, h2, h3, PutOption.ex]
  by_cases h4 : cmd.px = 0#64
  case neg => simp [h1, h2, h3, h4, PutOption.px]
  by_cases h5 : cmd.exat.ne0
  · simp [h1, h2, h3, h4, h5, PutOption.exat]
  by_cases h6 : cmd.pxat = 0#64
  case neg => simp [h1, h2, h3, h4, h5, h6, PutOption.pxat]
  simp [h1, h2, h3, h4, h5, h6]

end Options

/-! ## `PX` and `PXAT` in nanoseconds

`time.Duration(p * int64(time.Millisecond))` is an `int64` product: `p * 10^6` reduced into
`[-2^63, 2^63)`.  It is the exact product just while that fits. -/

section Millisecond

theorem toInt_millisecond : millisecond.toInt = 1000000 := rfl

theorem toInt_mul_millisecond (p : Duration) :
    (p * millisecond).toInt = (p.toInt * 1000000).bmod (2 ^ 64) := by
  rw [BitVec.toInt_mul, toInt_millisecond]

/-- An `int64` is below `2^63`. -/
theorem toInt_lt_two_pow (p : Duration) : p.toInt < 2 ^ 63 := by
  have := p.isLt
  rw [BitVec.toInt_eq_toNat_cond]
  split_ifs <;> omega

/-- **The scaling is exact just while the product fits.** -/
theorem toInt_mul_millisecond_eq_iff {p : Duration} (hp : 0 ≤ p.toInt) :
    (p * millisecond).toInt = p.toInt * 1000000 ↔ p.toInt * 1000000 < 2 ^ 63 := by
  have hlt := toInt_lt_two_pow p
  rw [toInt_mul_millisecond, Int.bmod_def]
  simp only [Nat.reducePow, Int.reducePow] at *
  split_ifs <;> omega

/-- Past `2^63` nanoseconds the product is another duration. -/
theorem toInt_mul_millisecond_ne {p : Duration} (h : 2 ^ 63 ≤ p.toInt * 1000000) :
    (p * millisecond).toInt ≠ p.toInt * 1000000 := by
  have := toInt_lt_two_pow (p * millisecond)
  omega

/-- Below `2^63` nanoseconds a positive `p` becomes a positive duration of exactly `p * 10^6`. -/
theorem toInt_mul_millisecond_of_lt {p : Duration} (hp : 0 < p.toInt)
    (hfit : p.toInt * 1000000 < 2 ^ 63) :
    (p * millisecond).toInt = p.toInt * 1000000 ∧ 0 < (p * millisecond).toInt := by
  have hd := (toInt_mul_millisecond_eq_iff (Int.le_of_lt hp)).2 hfit
  exact ⟨hd, by omega⟩

theorem ne_zero_of_toInt_ne_zero {p : Duration} (h : p.toInt ≠ 0) : p ≠ 0#64 := by
  rintro rfl
  simp at h

/-- The first value that wraps, `9223372036855` milliseconds, becomes a negative duration. -/
example : (9223372036855#64 * millisecond).toInt < 0 := by decide

end Millisecond

/-! ## The handler's outcomes -/

section Handler

variable {getOrCreateDMap : String → Except DMapError Unit} (seconds : Float64 → Duration)
  (now : BitVec 64) (put : Env → Except DMapError Unit)

/-- A command that parses, on a dmap that opens, reaches `dm.put` with its dmap, key and
value, the handler's time, on the primary, and the options of the `switch`. -/
theorem putCommandHandler_env {cmd : PutCommand} (hdm : getOrCreateDMap cmd.dmap = .ok ()) :
    ∃ e, (putCommandHandler (.ok cmd) getOrCreateDMap seconds now put).1 = some e ∧
      e.putConfig = applyOptions (putOptions seconds cmd) ∧ e.dmap = cmd.dmap ∧
      e.key = cmd.key ∧ e.value = cmd.value ∧ e.timestamp = now ∧ e.kind = .primary := by
  simp only [putCommandHandler, hdm]
  exact ⟨_, rfl, rfl, rfl, rfl, rfl, rfl, rfl⟩

/-- A request that fails to parse, or names a dmap that does not open, never reaches `dm.put`
and is answered with that error. -/
theorem putCommandHandler_error {parsed : Except DMapError PutCommand} {err : DMapError}
    (h : parsed = .error err ∨
      ∃ cmd, parsed = .ok cmd ∧ getOrCreateDMap cmd.dmap = .error err) :
    putCommandHandler parsed getOrCreateDMap seconds now put = (none, .error err) := by
  rcases h with rfl | ⟨cmd, rfl, hdm⟩
  · rfl
  · simp only [putCommandHandler, hdm]

/-- The handler writes `OK` exactly when it reached `dm.put` and `dm.put` returned nil. -/
theorem putCommandHandler_ok_iff (parsed : Except DMapError PutCommand) :
    (putCommandHandler parsed getOrCreateDMap seconds now put).2 = .ok ↔
      ∃ e, (putCommandHandler parsed getOrCreateDMap seconds now put).1 = some e ∧
        put e = .ok () := by
  unfold putCommandHandler
  split
  · simp
  split
  · simp
  dsimp only
  split <;> simp_all

/-- An entry sent to a backup reaches `dm.putOnReplicaFragment` with its hkey and the zero
`putConfig`: no write condition, no expiry. -/
theorem putEntryCommandHandler_env {hKey : String → String → UInt64}
    {putOnReplicaFragment : Env → Except DMapError Unit} {cmd : PutEntryCommand}
    (hdm : getOrCreateDMap cmd.dmap = .ok ()) :
    ∃ e, (putEntryCommandHandler (.ok cmd) getOrCreateDMap hKey now putOnReplicaFragment).1 =
        some e ∧
      e.putConfig = {} ∧ e.hkey = hKey cmd.dmap cmd.key ∧ e.dmap = cmd.dmap ∧
      e.key = cmd.key ∧ e.value = cmd.value ∧ e.timestamp = now ∧ e.kind = .primary := by
  simp only [putEntryCommandHandler, hdm]
  exact ⟨_, rfl, rfl, rfl, rfl, rfl, rfl, rfl, rfl⟩

end Handler

/-! ## What a command loses on its way to `dm.put` -/

section Drops

variable (getOrCreateDMap : String → Except DMapError Unit) (seconds : Float64 → Duration)
  (now : BitVec 64) (put : Env → Except DMapError Unit) (cmd : PutCommand)

/-- **Two things of a command do not reach `dm.put`.**  A write condition drops every expiry
the command gives, and `NX` drops `XX`; a `PX` or `PXAT` past `2^63` nanoseconds reaches it
as another duration. -/
theorem putCommandHandler_drops_options (hdm : getOrCreateDMap cmd.dmap = .ok ()) :
    ∃ e, (putCommandHandler (.ok cmd) getOrCreateDMap seconds now put).1 = some e ∧
      ((cmd.nx ∨ cmd.xx) → e.putConfig.ex = none ∧ e.putConfig.px = none ∧
        e.putConfig.exat = none ∧ e.putConfig.pxat = none) ∧
      (cmd.nx → e.putConfig.hasXX = false) ∧
      (cmd.nx = false → cmd.xx = false → cmd.ex.ne0 = false →
        2 ^ 63 ≤ cmd.px.toInt * 1000000 →
        e.putConfig.px = some (cmd.px * millisecond) ∧
          (cmd.px * millisecond).toInt ≠ cmd.px.toInt * 1000000) ∧
      (cmd.nx = false → cmd.xx = false → cmd.ex.ne0 = false → cmd.px = 0#64 →
        cmd.exat.ne0 = false → 2 ^ 63 ≤ cmd.pxat.toInt * 1000000 →
        e.putConfig.pxat = some (cmd.pxat * millisecond) ∧
          (cmd.pxat * millisecond).toInt ≠ cmd.pxat.toInt * 1000000) := by
  obtain ⟨e, he, hpc, -⟩ := putCommandHandler_env seconds now put hdm
  obtain ⟨-, hxx, hex, hpx, hexat, hpxat⟩ := applyOptions_putOptions seconds cmd
  rw [← hpc] at hxx hex hpx hexat hpxat
  refine ⟨e, he, ?_, fun h => by simp [hxx, h], fun h1 h2 h3 hp => ?_,
    fun h1 h2 h3 h4 h5 hp => ?_⟩
  · rintro (h | h) <;> simp [h, hex, hpx, hexat, hpxat]
  · have hne := ne_zero_of_toInt_ne_zero (p := cmd.px) (by omega)
    exact ⟨by simp [hpx, h1, h2, h3, hne], toInt_mul_millisecond_ne hp⟩
  · have hne := ne_zero_of_toInt_ne_zero (p := cmd.pxat) (by omega)
    exact ⟨by simp [hpxat, h1, h2, h3, h4, h5, hne], toInt_mul_millisecond_ne hp⟩

theorem putCommandHandler_drops_options_at :
    (∃ e, (putCommandHandler (.ok ⟨"m", "k", [], true, false, ⟨0⟩, 1000, ⟨0⟩, 0⟩)
        (fun _ => .ok ()) (fun _ => 0) 0 (fun _ => .ok ())).1 = some e ∧
      e.putConfig.px = none) ∧
    (∃ e, (putCommandHandler
        (.ok ⟨"m", "k", [], false, false, ⟨0⟩, 9223372036855, ⟨0⟩, 0⟩)
        (fun _ => .ok ()) (fun _ => 0) 0 (fun _ => .ok ())).1 = some e ∧
      e.putConfig.px = some (9223372036855#64 * millisecond) ∧
      (9223372036855#64 * millisecond).toInt < 0) := by
  constructor
  · obtain ⟨e, he, hcond, -⟩ := putCommandHandler_drops_options (fun _ => .ok ())
      (fun _ => 0) 0 (fun _ => .ok ()) ⟨"m", "k", [], true, false, ⟨0⟩, 1000, ⟨0⟩, 0⟩
      rfl
    exact ⟨e, he, (hcond (.inl rfl)).2.1⟩
  · obtain ⟨e, he, -, -, hpx, -⟩ := putCommandHandler_drops_options (fun _ => .ok ())
      (fun _ => 0) 0 (fun _ => .ok ())
      ⟨"m", "k", [], false, false, ⟨0⟩, 9223372036855, ⟨0⟩, 0⟩ rfl
    exact ⟨e, he, (hpx rfl rfl rfl (by decide)).1, by decide⟩

/-- **A `PX` or `PXAT` that fits is exact.**  The first such option of a command reaches
`dm.put` as a positive duration of exactly `p * 10^6` nanoseconds. -/
theorem putCommandHandler_px_exact (hdm : getOrCreateDMap cmd.dmap = .ok ()) :
    ∃ e, (putCommandHandler (.ok cmd) getOrCreateDMap seconds now put).1 = some e ∧
      (cmd.nx = false → cmd.xx = false → cmd.ex.ne0 = false →
        0 < cmd.px.toInt → cmd.px.toInt * 1000000 < 2 ^ 63 →
        ∃ d, e.putConfig.px = some d ∧ d.toInt = cmd.px.toInt * 1000000 ∧ 0 < d.toInt) ∧
      (cmd.nx = false → cmd.xx = false → cmd.ex.ne0 = false → cmd.px = 0#64 →
        cmd.exat.ne0 = false → 0 < cmd.pxat.toInt → cmd.pxat.toInt * 1000000 < 2 ^ 63 →
        ∃ d, e.putConfig.pxat = some d ∧ d.toInt = cmd.pxat.toInt * 1000000 ∧
          0 < d.toInt) := by
  obtain ⟨e, he, hpc, -⟩ := putCommandHandler_env seconds now put hdm
  obtain ⟨-, -, -, hpx, -, hpxat⟩ := applyOptions_putOptions seconds cmd
  rw [← hpc] at hpx hpxat
  refine ⟨e, he, fun h1 h2 h3 hp hfit => ?_, fun h1 h2 h3 h4 h5 hp hfit => ?_⟩
  · have hne := ne_zero_of_toInt_ne_zero (p := cmd.px) (by omega)
    exact ⟨_, by simp [hpx, h1, h2, h3, hne], toInt_mul_millisecond_of_lt hp hfit⟩
  · have hne := ne_zero_of_toInt_ne_zero (p := cmd.pxat) (by omega)
    exact ⟨_, by simp [hpxat, h1, h2, h3, h4, h5, hne], toInt_mul_millisecond_of_lt hp hfit⟩

theorem putCommandHandler_px_exact_at :
    ∃ e, (putCommandHandler (.ok ⟨"m", "k", [], false, false, ⟨0⟩, 1000, ⟨0⟩, 0⟩)
        (fun _ => .ok ()) (fun _ => 0) 0 (fun _ => .ok ())).1 = some e ∧
      ∃ d, e.putConfig.px = some d ∧ d.toInt = 1000000000 := by
  obtain ⟨e, he, hpx, -⟩ := putCommandHandler_px_exact (fun _ => .ok ()) (fun _ => 0) 0
    (fun _ => .ok ()) ⟨"m", "k", [], false, false, ⟨0⟩, 1000, ⟨0⟩, 0⟩ rfl
  obtain ⟨d, hd, hval, -⟩ := hpx rfl rfl rfl (by decide) (by decide)
  exact ⟨e, he, d, hd, hval⟩

end Drops

end Olric.Dmap
