import Mathlib.Order.WithBot
import Mathlib.Data.Nat.Bitwise
import Mathlib.Algebra.Order.Ring.Int

namespace LibDispatch.Time

/-!
# Encoded times

A `dispatch_time_t` packs a clock and a value into 64 bits: wall times are
negated, monotonic times carry the top bit, uptimes are themselves.  The word
`~0` means forever, `~1` the present of the wall clock, and a value of zero on
the other two clocks their present.

`time.c` moves an encoded time by a signed number of nanoseconds.  The module
models the codec and the two constructors, and describes both constructors by
the exact sum they saturate.
-/

/-- The clocks a time can be taken from. -/
inductive Clock where
  | uptime
  | monotonic
  | wall
  deriving DecidableEq, Repr

/-- One reading of each clock, in nanoseconds. -/
structure Clocks where
  uptime : UInt64
  monotonic : UInt64
  wall : UInt64
  deriving DecidableEq, Repr

variable (clocks : Clocks)

/-- `_dispatch_time_now`. -/
def Clocks.now : Clock → UInt64
  | .uptime => clocks.uptime
  | .monotonic => clocks.monotonic
  | .wall => clocks.wall

/-- A `struct timespec`; both members are converted to `uint64_t` when used. -/
structure Timespec where
  sec : Int64
  nsec : Int64
  deriving DecidableEq, Repr

def timeNow : UInt64 := 0

def timeForever : UInt64 := 0xffffffffffffffff

def walltimeNow : UInt64 := 0xfffffffffffffffe

def upOrMonotonicTimeMask : UInt64 := 0x8000000000000000

def walltimeMask : UInt64 := 0x4000000000000000

def timeMaxValue : UInt64 := 0x3fffffffffffffff

def nsecPerSec : UInt64 := 1000000000

/-- `_dispatch_timespec_to_nano`. -/
def timespecToNano (time : Timespec) : UInt64 :=
  time.sec.toUInt64 * nsecPerSec + time.nsec.toUInt64

/-- `_dispatch_time_to_clock_and_value`. -/
def timeToClockAndValue (time : UInt64) : Clock × UInt64 :=
  let (clock, actualValue) :=
    if time.toInt64 < 0 then
      if time &&& walltimeMask ≠ 0 then
        (Clock.wall, if time = walltimeNow then clocks.wall else -time)
      else
        (Clock.monotonic, time &&& ~~~upOrMonotonicTimeMask)
    else
      (Clock.uptime, time)
  (clock, if actualValue > timeMaxValue then timeForever else actualValue)

variable (clock : Clock)

/-- `_dispatch_clock_and_value_to_time`. -/
def clockAndValueToTime (value : UInt64) : UInt64 :=
  if value ≥ timeMaxValue then
    timeForever
  else
    match clock with
    | .wall => -value
    | .uptime => value
    | .monotonic => value ||| upOrMonotonicTimeMask

/--
`dispatch_time`.  The conversion between nanoseconds and host time is the
identity on this platform.
-/
def dispatchTime
    (inval : UInt64)
    (delta : Int64) :
    UInt64 :=
  if inval = timeForever then
    timeForever
  else
    let (clock, value) := timeToClockAndValue clocks inval
    if value = timeForever then
      value
    else if clock = .wall then
      let sum := value + delta.toUInt64
      if delta ≥ 0 then
        if sum.toInt64 ≤ 0 then
          timeForever
        else
          clockAndValueToTime .wall sum
      else
        -- -1 is forever, so an underflow is given the value 2 instead
        clockAndValueToTime .wall (if sum.toInt64 < 1 then 2 else sum)
    else
      let value := if value = timeNow then clocks.now clock else value
      if delta ≥ 0 then
        let sum := value + delta.toUInt64
        if sum.toInt64 ≤ 0 then
          timeForever
        else
          clockAndValueToTime clock sum
      else
        let difference := value - (-delta).toUInt64
        if difference.toInt64 < 1 then
          clockAndValueToTime clock 1
        else
          clockAndValueToTime clock difference

/-- `dispatch_walltime`, with the signed addition wrapping. -/
def dispatchWalltime
    (inval : Option Timespec)
    (delta : Int64) :
    UInt64 :=
  let nsec :=
    match inval with
    | some time => (timespecToNano time).toInt64
    | none => clocks.wall.toInt64
  let nsec := nsec + delta
  if nsec ≤ 1 then
    if delta ≥ 0 then timeForever else (-2 : Int64).toUInt64
  else
    (-nsec).toUInt64

/-! ## Machine integers as numbers -/

theorem toInt_toInt64
    (word : UInt64) :
    word.toInt64.toInt =
      if word.toNat < 2 ^ 63 then (word.toNat : Int)
      else word.toNat - 2 ^ 64 := by
  have converted : word.toInt64.toInt = word.toBitVec.toInt := rfl
  rw [converted, BitVec.toInt_eq_toNat_cond]
  simp only [UInt64.toNat_toBitVec]
  split <;> split <;> omega

theorem toNat_toUInt64
    (number : Int64) :
    (number.toUInt64.toNat : Int) =
      if 0 ≤ number.toInt then number.toInt
      else number.toInt + 2 ^ 64 := by
  have converted : number.toInt = number.toBitVec.toInt := rfl
  have word : number.toUInt64.toNat = number.toBitVec.toNat := rfl
  rw [converted, word, BitVec.toInt_eq_toNat_cond]
  split <;> split <;> omega

variable {time : UInt64}

/-- The bit that tells wall times from monotonic ones, as a range. -/
theorem and_walltimeMask_ne_zero_iff
    (negative : 2 ^ 63 ≤ time.toNat) :
    time &&& walltimeMask ≠ 0 ↔ 2 ^ 63 + 2 ^ 62 ≤ time.toNat := by
  have bounded := time.toNat_lt
  have masked :
      (time &&& walltimeMask).toNat =
        (decide (time.toNat / 2 ^ 62 % 2 = 1)).toNat * 2 ^ 62 := by
    rw [UInt64.toNat_and, ← Nat.testBit_eq_decide_div_mod_eq,
      ← Nat.and_two_pow]
    rfl
  rw [Ne, ← UInt64.toNat_inj, masked]
  by_cases set : time.toNat / 2 ^ 62 % 2 = 1
  · simp only [set, decide_true, Bool.toNat_true]
    constructor
    · intro _
      omega
    · intro _
      decide
  · simp only [set, decide_false, Bool.toNat_false, Nat.zero_mul]
    constructor
    · intro different
      exact absurd rfl different
    · intro _
      omega

theorem toNat_and_not_upOrMonotonicTimeMask
    (time : UInt64) :
    (time &&& ~~~upOrMonotonicTimeMask).toNat = time.toNat % 2 ^ 63 := by
  rw [UInt64.toNat_and]
  change time.toNat &&& (2 ^ 63 - 1) = _
  rw [Nat.and_two_pow_sub_one_eq_mod]

variable {value : UInt64}

theorem toNat_or_upOrMonotonicTimeMask
    (small : value.toNat < 2 ^ 63) :
    (value ||| upOrMonotonicTimeMask).toNat = value.toNat + 2 ^ 63 := by
  rw [UInt64.toNat_or]
  change value.toNat ||| 2 ^ 63 * 1 = _
  rw [Nat.or_comm, ← Nat.two_pow_add_eq_or_of_lt small]
  omega

theorem toNat_neg_of_pos
    (positive : 0 < value.toNat) :
    (-value).toNat = 2 ^ 64 - value.toNat := by
  have bounded := value.toNat_lt
  rw [UInt64.toNat_neg]
  change (2 ^ 64 - value.toNat) % 2 ^ 64 = _
  omega

/-! ## The codec -/

theorem timeToClockAndValue_of_uptime
    (upper : time.toNat < 2 ^ 63) :
    timeToClockAndValue clocks time =
      (.uptime, if time > timeMaxValue then timeForever else time) := by
  have nonnegative : ¬ time.toInt64 < 0 := by
    rw [Int64.lt_iff_toInt_lt, toInt_toInt64, if_pos upper]
    exact Int.not_lt.mpr (Int.natCast_nonneg time.toNat)
  simp only [timeToClockAndValue, if_neg nonnegative]

theorem toInt64_neg_of_le
    (lower : 2 ^ 63 ≤ time.toNat) :
    time.toInt64 < 0 := by
  have bounded := time.toNat_lt
  rw [Int64.lt_iff_toInt_lt, toInt_toInt64, if_neg (Nat.not_lt.mpr lower)]
  change _ < (0 : Int)
  omega

theorem timeToClockAndValue_of_monotonic
    (lower : 2 ^ 63 ≤ time.toNat)
    (upper : time.toNat < 2 ^ 63 + 2 ^ 62) :
    timeToClockAndValue clocks time =
      (.monotonic, time &&& ~~~upOrMonotonicTimeMask) := by
  have unmasked : ¬ time &&& walltimeMask ≠ 0 := by
    rw [and_walltimeMask_ne_zero_iff lower]
    exact Nat.not_le.mpr upper
  have small : ¬ time &&& ~~~upOrMonotonicTimeMask > timeMaxValue := by
    change ¬ timeMaxValue < _
    rw [UInt64.lt_iff_toNat_lt, toNat_and_not_upOrMonotonicTimeMask]
    change ¬ 2 ^ 62 - 1 < _
    omega
  simp only [timeToClockAndValue, if_pos (toInt64_neg_of_le lower),
    if_neg unmasked, if_neg small]

theorem timeToClockAndValue_of_wall
    (lower : 2 ^ 63 + 2 ^ 62 ≤ time.toNat) :
    timeToClockAndValue clocks time =
      (.wall,
        if (if time = walltimeNow then clocks.wall else -time) > timeMaxValue
        then timeForever
        else if time = walltimeNow then clocks.wall else -time) := by
  have negative : 2 ^ 63 ≤ time.toNat := by
    omega
  have masked : time &&& walltimeMask ≠ 0 :=
    (and_walltimeMask_ne_zero_iff negative).mpr lower
  simp only [timeToClockAndValue, if_pos (toInt64_neg_of_le negative),
    if_pos masked]

/-- Values from the greatest one on are encoded as forever. -/
theorem clockAndValueToTime_of_ge
    (large : 2 ^ 62 - 1 ≤ value.toNat) :
    clockAndValueToTime clock value = timeForever := by
  have reached : value ≥ timeMaxValue :=
    UInt64.le_iff_toNat_le.mpr large
  simp only [clockAndValueToTime, if_pos reached]

/-- The word a value below the greatest one is encoded as. -/
theorem toNat_clockAndValueToTime
    (positive : 0 < value.toNat)
    (small : value.toNat < 2 ^ 62 - 1) :
    (clockAndValueToTime clock value).toNat =
      match clock with
      | .uptime => value.toNat
      | .monotonic => value.toNat + 2 ^ 63
      | .wall => 2 ^ 64 - value.toNat := by
  have below : ¬ value ≥ timeMaxValue := by
    change ¬ timeMaxValue ≤ value
    rw [UInt64.le_iff_toNat_le]
    exact Nat.not_le.mpr small
  simp only [clockAndValueToTime, if_neg below]
  cases clock with
  | uptime => rfl
  | monotonic => exact toNat_or_upOrMonotonicTimeMask (by omega)
  | wall => exact toNat_neg_of_pos positive

/--
The decoder reads back what the encoder wrote, except for the wall value 2,
whose word means the present of the wall clock, and for the wall value 1, whose
word means forever.
-/
theorem timeToClockAndValue_clockAndValueToTime
    (positive : 0 < value.toNat)
    (small : value.toNat < 2 ^ 62 - 1)
    (present : clock = .wall → value.toNat ≠ 2) :
    timeToClockAndValue clocks (clockAndValueToTime clock value) =
      (clock, value) := by
  have written := toNat_clockAndValueToTime clock positive small
  cases clock with
  | uptime =>
    have same : clockAndValueToTime .uptime value = value :=
      UInt64.toNat_inj.mp written
    have inRange : ¬ value > timeMaxValue := by
      change ¬ timeMaxValue < value
      rw [UInt64.lt_iff_toNat_lt]
      change ¬ 2 ^ 62 - 1 < value.toNat
      omega
    rw [same, timeToClockAndValue_of_uptime clocks (by omega),
      if_neg inRange]
  | monotonic =>
    simp only at written
    rw [timeToClockAndValue_of_monotonic clocks (by omega) (by omega)]
    congr 1
    rw [← UInt64.toNat_inj, toNat_and_not_upOrMonotonicTimeMask, written]
    omega
  | wall =>
    simp only at written
    have notPresent :
        clockAndValueToTime .wall value ≠ walltimeNow := by
      rw [Ne, ← UInt64.toNat_inj, written]
      change ¬ 2 ^ 64 - value.toNat = 2 ^ 64 - 2
      have different := present rfl
      omega
    have negated : -clockAndValueToTime .wall value = value := by
      rw [← UInt64.toNat_inj, toNat_neg_of_pos (by omega), written]
      omega
    have inRange : ¬ value > timeMaxValue := by
      change ¬ timeMaxValue < value
      rw [UInt64.lt_iff_toNat_lt]
      change ¬ 2 ^ 62 - 1 < value.toNat
      omega
    rw [timeToClockAndValue_of_wall clocks (by omega),
      if_neg notPresent, negated, if_neg inRange]

/-! ## The exact sum -/

/-- The value a time starts from, with the present read from its clock. -/
def origin (time : UInt64) : UInt64 :=
  let (clock, value) := timeToClockAndValue clocks time
  if value = timeNow then clocks.now clock else value

/-- The clock of an encoded time. -/
def clockOf
    (clocks : Clocks)
    (time : UInt64) :
    Clock :=
  (timeToClockAndValue clocks time).1

/-- A clock reads strictly between 2 and the greatest value. -/
structure Clocks.Ordinary
    (clocks : Clocks)
    (clock : Clock) : Prop where
  lower : 2 < (clocks.now clock).toNat
  upper : (clocks.now clock).toNat < 2 ^ 62 - 1

/-- A finite encoded time whose value its clock can hold. -/
structure InRange
    (clocks : Clocks)
    (time : UInt64) : Prop where
  finite : time ≠ timeForever
  held : (timeToClockAndValue clocks time).2 ≠ timeForever
  wallValue :
    clockOf clocks time = .wall → 2 < (timeToClockAndValue clocks time).2

/-- The value that stands for everything before a clock's first instant. -/
def underflow : Clock → UInt64
  | .wall => 2
  | _ => 1

/-- The encoding of an exact sum, saturated at both ends. -/
def saturated (sum : Int) : UInt64 :=
  if sum < 1 then
    clockAndValueToTime clock (underflow clock)
  else
    clockAndValueToTime clock (UInt64.ofNat (min sum.toNat (2 ^ 62 - 1)))

variable {clocks : Clocks}

/-- A decoded value never exceeds the greatest one, unless it is forever. -/
theorem toNat_value_le
    (held : (timeToClockAndValue clocks time).2 ≠ timeForever) :
    (timeToClockAndValue clocks time).2.toNat ≤ 2 ^ 62 - 1 := by
  simp only [timeToClockAndValue] at held ⊢
  generalize (if time.toInt64 < 0 then _ else _ : Clock × UInt64) = decoded
    at held ⊢
  by_cases large : decoded.2 > timeMaxValue
  · rw [if_pos large] at held
    exact absurd rfl held
  · rw [if_neg large]
    change ¬ timeMaxValue < decoded.2 at large
    rw [UInt64.lt_iff_toNat_lt] at large
    exact Nat.not_lt.mp large

theorem origin_pos
    (ordinary : clocks.Ordinary (clockOf clocks time)) :
    0 < (origin clocks time).toNat := by
  simp only [origin]
  split
  · exact Nat.zero_lt_of_lt ordinary.lower
  · next different =>
      refine Nat.pos_of_ne_zero ?_
      intro zero
      exact different (UInt64.toNat_inj.mp zero)

theorem origin_le
    (ordinary : clocks.Ordinary (clockOf clocks time))
    (inRange : InRange clocks time) :
    (origin clocks time).toNat ≤ 2 ^ 62 - 1 := by
  simp only [origin]
  split
  · exact ordinary.upper.le
  · exact toNat_value_le inRange.held

theorem origin_eq_value_of_wall
    (inRange : InRange clocks time)
    (wall : clockOf clocks time = .wall) :
    origin clocks time = (timeToClockAndValue clocks time).2 := by
  have positive := inRange.wallValue wall
  have different : (timeToClockAndValue clocks time).2 ≠ timeNow := by
    intro zero
    rw [zero] at positive
    exact absurd positive (by decide)
  simp only [origin, if_neg different]

theorem two_lt_origin_of_wall
    (inRange : InRange clocks time)
    (wall : clockOf clocks time = .wall) :
    2 < (origin clocks time).toNat := by
  rw [origin_eq_value_of_wall inRange wall]
  exact UInt64.lt_iff_toNat_lt.mp (inRange.wallValue wall)

/-- The machine sum of a value and a delta, as a number. -/
theorem toNat_add_delta
    (held : value.toNat ≤ 2 ^ 62 - 1)
    (delta : Int64) :
    ((value + delta.toUInt64).toNat : Int) =
      if 0 ≤ (value.toNat : Int) + delta.toInt
      then value.toNat + delta.toInt
      else value.toNat + delta.toInt + 2 ^ 64 := by
  have converted := toNat_toUInt64 delta
  have lower := delta.le_toInt
  have upper := delta.toInt_lt
  rw [UInt64.toNat_add]
  split at converted <;> split <;> omega

/-- Taking away a negated delta is adding it. -/
theorem sub_neg_delta
    (value : UInt64)
    (delta : Int64) :
    value - (-delta).toUInt64 = value + delta.toUInt64 := by
  have negated : (-delta).toUInt64 = -delta.toUInt64 := rfl
  rw [negated, UInt64.sub_eq_add_neg, UInt64.neg_neg]

/-- A machine sum seen as a signed number, below its wrap. -/
theorem toInt_add_delta
    (held : value.toNat ≤ 2 ^ 62 - 1)
    (delta : Int64) :
    (value + delta.toUInt64).toInt64.toInt =
      if (value.toNat : Int) + delta.toInt < 2 ^ 63
      then value.toNat + delta.toInt
      else value.toNat + delta.toInt - 2 ^ 64 := by
  have sum := toNat_add_delta held delta
  have lower := delta.le_toInt
  have upper := delta.toInt_lt
  rw [toInt_toInt64]
  split at sum <;> split <;> split <;> omega

variable {delta : Int64}

/-- A sum within a clock's range is encoded as it is. -/
theorem clockAndValueToTime_add_delta
    (held : value.toNat ≤ 2 ^ 62 - 1)
    (positive : 1 ≤ (value.toNat : Int) + delta.toInt) :
    clockAndValueToTime clock (value + delta.toUInt64) =
      saturated clock (value.toNat + delta.toInt) := by
  have sum := toNat_add_delta held delta
  rw [if_pos (by omega)] at sum
  rw [saturated, if_neg (Int.not_lt.mpr positive)]
  by_cases small : (value.toNat : Int) + delta.toInt < 2 ^ 62 - 1
  · congr 1
    rw [← UInt64.toNat_inj, UInt64.toNat_ofNat']
    omega
  · rw [clockAndValueToTime_of_ge clock (by omega)]
    refine (clockAndValueToTime_of_ge clock ?_).symm
    rw [UInt64.toNat_ofNat']
    omega

variable {sum : Int}

theorem saturated_of_ge
    (large : 2 ^ 62 - 1 ≤ sum) :
    saturated clock sum = timeForever := by
  rw [saturated, if_neg (by omega)]
  refine clockAndValueToTime_of_ge clock ?_
  rw [UInt64.toNat_ofNat']
  omega

/-- Moving a value by a nonnegative delta, as both branches of the source do. -/
theorem forward_eq_saturated
    (positive : 0 < value.toNat)
    (held : value.toNat ≤ 2 ^ 62 - 1)
    (forward : 0 ≤ delta.toInt) :
    (if (value + delta.toUInt64).toInt64 ≤ 0 then timeForever
      else clockAndValueToTime clock (value + delta.toUInt64)) =
      saturated clock (value.toNat + delta.toInt) := by
  have seen := toInt_add_delta held delta
  have upper := delta.toInt_lt
  have wrapped :
      (value + delta.toUInt64).toInt64 ≤ 0 ↔
        2 ^ 63 ≤ (value.toNat : Int) + delta.toInt := by
    rw [Int64.le_iff_toInt_le, seen]
    change _ ≤ (0 : Int) ↔ _
    split <;> omega
  by_cases overflow : 2 ^ 63 ≤ (value.toNat : Int) + delta.toInt
  · rw [if_pos (wrapped.mpr overflow), saturated_of_ge clock (by omega)]
  · rw [if_neg (mt wrapped.mp overflow)]
    exact clockAndValueToTime_add_delta clock held (by omega)

/-- Moving a value by a negative delta underflows below one. -/
theorem toInt64_add_delta_lt_one_iff
    (held : value.toNat ≤ 2 ^ 62 - 1)
    (backward : delta.toInt < 0) :
    (value + delta.toUInt64).toInt64 < 1 ↔
      (value.toNat : Int) + delta.toInt < 1 := by
  have seen := toInt_add_delta held delta
  rw [if_pos (by omega)] at seen
  rw [Int64.lt_iff_toInt_lt, seen]
  exact Iff.rfl

theorem delta_nonneg_iff
    (delta : Int64) :
    delta ≥ 0 ↔ 0 ≤ delta.toInt :=
  Int64.le_iff_toInt_le

/-- `dispatch_time` saturates the exact sum of the origin and the delta. -/
theorem dispatchTime_eq_saturated
    (inRange : InRange clocks time)
    (positive : 0 < (origin clocks time).toNat)
    (held : (origin clocks time).toNat ≤ 2 ^ 62 - 1)
    (delta : Int64) :
    dispatchTime clocks time delta =
      saturated (clockOf clocks time)
        ((origin clocks time).toNat + delta.toInt) := by
  rw [dispatchTime, if_neg inRange.finite]
  simp only [if_neg inRange.held]
  split
  case isTrue wall =>
    rw [← origin_eq_value_of_wall inRange wall]
    have onWall : clockOf clocks time = .wall := wall
    rw [onWall]
    split
    case isTrue forward =>
      exact forward_eq_saturated .wall positive held
        ((delta_nonneg_iff delta).mp forward)
    case isFalse backward =>
      have negative : delta.toInt < 0 :=
        Int.not_le.mp (mt (delta_nonneg_iff delta).mpr backward)
      by_cases under : ((origin clocks time).toNat : Int) + delta.toInt < 1
      · rw [if_pos ((toInt64_add_delta_lt_one_iff held negative).mpr under),
          saturated, if_pos under]
        rfl
      · rw [if_neg (mt (toInt64_add_delta_lt_one_iff held negative).mp under)]
        exact clockAndValueToTime_add_delta .wall held (by omega)
  case isFalse other =>
    change (if delta ≥ 0 then
        if (origin clocks time + delta.toUInt64).toInt64 ≤ 0 then timeForever
        else clockAndValueToTime (clockOf clocks time)
          (origin clocks time + delta.toUInt64)
      else
        if (origin clocks time - (-delta).toUInt64).toInt64 < 1 then
          clockAndValueToTime (clockOf clocks time) 1
        else
          clockAndValueToTime (clockOf clocks time)
            (origin clocks time - (-delta).toUInt64)) = _
    rw [sub_neg_delta]
    split
    case isTrue forward =>
      exact forward_eq_saturated (clockOf clocks time) positive held
        ((delta_nonneg_iff delta).mp forward)
    case isFalse backward =>
      have negative : delta.toInt < 0 :=
        Int.not_le.mp (mt (delta_nonneg_iff delta).mpr backward)
      have floor : underflow (clockOf clocks time) = 1 := by
        change clockOf clocks time ≠ .wall at other
        cases onClock : clockOf clocks time with
        | wall => exact absurd onClock other
        | uptime | monotonic => rfl
      by_cases under : ((origin clocks time).toNat : Int) + delta.toInt < 1
      · rw [if_pos ((toInt64_add_delta_lt_one_iff held negative).mpr under),
          saturated, if_pos under, floor]
      · rw [if_neg (mt (toInt64_add_delta_lt_one_iff held negative).mp under)]
        exact clockAndValueToTime_add_delta _ held (by omega)

/-! ## The two wall clock constructors -/

/-- `dispatch_walltime` of the present, by the exact sum. -/
theorem dispatchWalltime_none
    (lower : 2 < clocks.wall.toNat)
    (upper : clocks.wall.toNat < 2 ^ 62 - 1)
    (delta : Int64) :
    ((dispatchWalltime clocks none delta).toNat : Int) =
      if (clocks.wall.toNat : Int) + delta.toInt ≤ 1 then 2 ^ 64 - 2
      else if (clocks.wall.toNat : Int) + delta.toInt < 2 ^ 63 then
        2 ^ 64 - (clocks.wall.toNat + delta.toInt)
      else 2 ^ 64 - 1 := by
  have deltaLower := delta.le_toInt
  have deltaUpper := delta.toInt_lt
  have reading : clocks.wall.toInt64.toInt = clocks.wall.toNat := by
    rw [toInt_toInt64, if_pos (by omega)]
  have sum :
      (clocks.wall.toInt64 + delta).toInt =
        if (clocks.wall.toNat : Int) + delta.toInt < 2 ^ 63
        then clocks.wall.toNat + delta.toInt
        else clocks.wall.toNat + delta.toInt - 2 ^ 64 := by
    rw [Int64.toInt_add, reading, Int.bmod_def]
    split <;> split <;> omega
  have low :
      clocks.wall.toInt64 + delta ≤ 1 ↔
        (clocks.wall.toInt64 + delta).toInt ≤ 1 :=
    Int64.le_iff_toInt_le
  simp only [dispatchWalltime]
  by_cases early : clocks.wall.toInt64 + delta ≤ 1
  · rw [if_pos early]
    rw [low, sum] at early
    by_cases forward : delta ≥ 0
    · rw [if_pos forward]
      rw [delta_nonneg_iff] at forward
      change (2 ^ 64 - 1 : Int) = _
      split_ifs at early ⊢ <;> omega
    · rw [if_neg forward]
      rw [delta_nonneg_iff] at forward
      change (2 ^ 64 - 2 : Int) = _
      split_ifs at early ⊢ <;> omega
  · rw [if_neg early]
    rw [low] at early
    have negated :
        (-(clocks.wall.toInt64 + delta)).toInt =
          -(clocks.wall.toInt64 + delta).toInt := by
      rw [Int64.toInt_neg, Int.bmod_def]
      split <;> omega
    rw [toNat_toUInt64, negated, if_neg (by omega)]
    rw [sum] at early ⊢
    split_ifs at early ⊢ <;> omega

/-- The word a saturated sum of the wall clock is encoded as. -/
theorem toNat_saturated_wall
    (sum : Int) :
    ((saturated .wall sum).toNat : Int) =
      if sum ≤ 0 then 2 ^ 64 - 2
      else if sum < 2 ^ 62 - 1 then 2 ^ 64 - sum
      else 2 ^ 64 - 1 := by
  by_cases under : sum ≤ 0
  · rw [saturated, if_pos (by omega), if_pos under]
    rfl
  · rw [if_neg under]
    by_cases small : sum < 2 ^ 62 - 1
    · have value : (UInt64.ofNat (min sum.toNat (2 ^ 62 - 1))).toNat =
          sum.toNat := by
        rw [UInt64.toNat_ofNat']
        omega
      rw [saturated, if_neg (by omega), if_pos small,
        toNat_clockAndValueToTime .wall (by omega) (by omega), value]
      simp only
      omega
    · rw [if_neg small, saturated_of_ge .wall (by omega)]
      rfl

/-- The present of the wall clock decodes to its reading. -/
theorem timeToClockAndValue_walltimeNow
    (upper : clocks.wall.toNat < 2 ^ 62 - 1) :
    timeToClockAndValue clocks walltimeNow = (.wall, clocks.wall) := by
  have small : ¬ clocks.wall > timeMaxValue := by
    change ¬ timeMaxValue < clocks.wall
    rw [UInt64.lt_iff_toNat_lt]
    change ¬ 2 ^ 62 - 1 < clocks.wall.toNat
    omega
  rw [timeToClockAndValue_of_wall clocks (by decide), if_pos rfl,
    if_neg small]

theorem inRange_walltimeNow
    (lower : 2 < clocks.wall.toNat)
    (upper : clocks.wall.toNat < 2 ^ 62 - 1) :
    InRange clocks walltimeNow := by
  have decoded := timeToClockAndValue_walltimeNow upper
  exact {
    finite := by decide
    held := by
      rw [decoded]
      intro forever
      have reading := congrArg UInt64.toNat forever
      change clocks.wall.toNat = 2 ^ 64 - 1 at reading
      omega
    wallValue := by
      intro _
      rw [decoded]
      exact UInt64.lt_iff_toNat_lt.mpr lower
  }

/-- `dispatch_time` from the present of the wall clock, by the exact sum. -/
theorem dispatchTime_walltimeNow
    (lower : 2 < clocks.wall.toNat)
    (upper : clocks.wall.toNat < 2 ^ 62 - 1)
    (delta : Int64) :
    dispatchTime clocks walltimeNow delta =
      saturated .wall (clocks.wall.toNat + delta.toInt) := by
  have decoded := timeToClockAndValue_walltimeNow upper
  have inRange := inRange_walltimeNow lower upper
  have onWall : clockOf clocks walltimeNow = .wall :=
    congrArg Prod.fst decoded
  have start : origin clocks walltimeNow = clocks.wall := by
    rw [origin_eq_value_of_wall inRange onWall, decoded]
  rw [dispatchTime_eq_saturated inRange, onWall, start]
  · rw [start]
    omega
  · rw [start]
    omega

/--
The two constructors agree unless the sum is the wall value 1, which only
`dispatch_time` encodes as forever, or lies between the greatest encodable value
and the signed overflow, where only `dispatch_time` checks the range.
-/
theorem dispatchTime_eq_dispatchWalltime_iff
    {clocks : Clocks}
    (lower : 2 < clocks.wall.toNat)
    (upper : clocks.wall.toNat < 2 ^ 62 - 1)
    (delta : Int64) :
    dispatchTime clocks walltimeNow delta =
        dispatchWalltime clocks none delta ↔
      (clocks.wall.toNat : Int) + delta.toInt ≠ 1 ∧
        ¬ (2 ^ 62 - 1 ≤ (clocks.wall.toNat : Int) + delta.toInt ∧
          (clocks.wall.toNat : Int) + delta.toInt < 2 ^ 63) := by
  have byTime := toNat_saturated_wall (clocks.wall.toNat + delta.toInt)
  have byWalltime := dispatchWalltime_none lower upper delta
  rw [dispatchTime_walltimeNow lower upper, ← UInt64.toNat_inj,
    ← Int.ofNat_inj]
  rw [byTime, byWalltime]
  split_ifs <;> omega

/-- Clocks that all read 1000 nanoseconds. -/
def thousand : Clocks where
  uptime := 1000
  monotonic := 1000
  wall := 1000

theorem thousand_ordinary :
    thousand.Ordinary clock where
  lower := by cases clock <;> decide
  upper := by cases clock <;> decide

/-- Ten nanoseconds from the present, the constructors agree. -/
theorem thousand_constructors_agree :
    dispatchTime thousand walltimeNow 10 =
      dispatchWalltime thousand none 10 :=
  (dispatchTime_eq_dispatchWalltime_iff
    (by decide) (by decide) 10).mpr (by decide)

/--
One nanosecond after the epoch is forever for `dispatch_time` and the present
for `dispatch_walltime`.
-/
theorem thousand_constructors_differ :
    2 < thousand.wall.toNat ∧
      thousand.wall.toNat < 2 ^ 62 - 1 ∧
      dispatchTime thousand walltimeNow (-999) = timeForever ∧
      dispatchWalltime thousand none (-999) = walltimeNow := by
  decide

/-! ## The denoted instant -/

/-- The instant an encoded time denotes; forever is after every other. -/
def instant
    (clocks : Clocks)
    (time : UInt64) :
    WithTop Nat :=
  if time = timeForever then ⊤ else WithTop.some (origin clocks time).toNat

theorem saturated_wall_eq_forever_iff
    (sum : Int) :
    saturated .wall sum = timeForever ↔ sum = 1 ∨ 2 ^ 62 - 1 ≤ sum := by
  have word := toNat_saturated_wall sum
  have top : (timeForever.toNat : Int) = 2 ^ 64 - 1 := rfl
  rw [← UInt64.toNat_inj, ← Int.ofNat_inj, word, top]
  split_ifs <;> omega

/-- The value a sum within range is encoded from. -/
theorem saturated_eq_clockAndValueToTime
    (positive : 1 ≤ sum)
    (small : sum < 2 ^ 62 - 1) :
    ∃ value : UInt64,
      (value.toNat : Int) = sum ∧
        saturated clock sum = clockAndValueToTime clock value := by
  refine ⟨UInt64.ofNat (min sum.toNat (2 ^ 62 - 1)), ?_, ?_⟩
  · rw [UInt64.toNat_ofNat']
    omega
  · rw [saturated, if_neg (by omega)]

/-- A sum in range, off the wall value 2, decodes to itself. -/
theorem timeToClockAndValue_saturated
    (clocks : Clocks)
    (clock : Clock)
    (positive : 1 ≤ sum)
    (small : sum < 2 ^ 62 - 1)
    (present : clock = .wall → sum ≠ 2) :
    ∃ value : UInt64,
      (value.toNat : Int) = sum ∧
        timeToClockAndValue clocks (saturated clock sum) = (clock, value) := by
  obtain ⟨value, same, encoded⟩ :=
    saturated_eq_clockAndValueToTime clock positive small
  refine ⟨value, same, ?_⟩
  rw [encoded]
  refine timeToClockAndValue_clockAndValueToTime clocks clock
    (by omega) (by omega) ?_
  intro wall
  have different := present wall
  omega

theorem origin_saturated
    (clocks : Clocks)
    (clock : Clock)
    (positive : 1 ≤ sum)
    (small : sum < 2 ^ 62 - 1)
    (present : clock = .wall → sum ≠ 2) :
    (origin clocks (saturated clock sum)).toNat = sum.toNat ∧
      clockOf clocks (saturated clock sum) = clock := by
  obtain ⟨value, same, decoded⟩ :=
    timeToClockAndValue_saturated clocks clock positive small present
  have nonzero : value ≠ timeNow := by
    intro zero
    rw [zero] at same
    change ((0 : Nat) : Int) = sum at same
    omega
  refine ⟨?_, congrArg Prod.fst decoded⟩
  simp only [origin, decoded, if_neg nonzero]
  omega

/-- Sums up to zero, and the sum 2, fall on the word of the present. -/
theorem saturated_wall_of_present
    (low : sum ≤ 0 ∨ sum = 2) :
    saturated .wall sum = walltimeNow := by
  have word := toNat_saturated_wall sum
  have present : (walltimeNow.toNat : Int) = 2 ^ 64 - 2 := rfl
  rw [← UInt64.toNat_inj, ← Int.ofNat_inj, word, present]
  split_ifs <;> omega

/-- The instant of a saturated sum on the wall clock. -/
theorem instant_saturated_wall
    (ordinary : clocks.Ordinary .wall)
    (sum : Int) :
    instant clocks (saturated .wall sum) =
      if sum ≤ 0 ∨ sum = 2 then WithTop.some clocks.wall.toNat
      else if sum = 1 ∨ 2 ^ 62 - 1 ≤ sum then ⊤
      else WithTop.some sum.toNat := by
  by_cases low : sum ≤ 0 ∨ sum = 2
  · have decoded := timeToClockAndValue_walltimeNow (ordinary.upper)
    have positive : clocks.wall ≠ timeNow := by
      intro zero
      have lower : 2 < clocks.wall.toNat := ordinary.lower
      rw [zero] at lower
      exact absurd lower (by decide)
    rw [if_pos low, saturated_wall_of_present low, instant,
      if_neg (by decide)]
    simp only [origin, decoded, if_neg positive]
  · rw [if_neg low]
    by_cases forever : sum = 1 ∨ 2 ^ 62 - 1 ≤ sum
    · rw [if_pos forever, instant,
        if_pos ((saturated_wall_eq_forever_iff sum).mpr forever)]
    · have started := origin_saturated clocks .wall
        (by omega : 1 ≤ sum) (by omega) (fun _ => by omega)
      rw [if_neg forever, instant,
        if_neg (mt (saturated_wall_eq_forever_iff sum).mp forever),
        started.1]

variable {clock : Clock}

theorem saturated_max_one
    (other : clock ≠ .wall)
    (sum : Int) :
    saturated clock sum = saturated clock (max 1 sum) := by
  by_cases under : sum < 1
  · have floor : underflow clock = 1 := by
      cases clock with
      | wall => exact absurd rfl other
      | uptime | monotonic => rfl
    rw [Int.max_eq_left (by omega), saturated, if_pos under, floor,
      saturated, if_neg (by decide)]
    rfl
  · rw [Int.max_eq_right (by omega)]

/-- Off the wall clock, only sums past the greatest value are forever. -/
theorem saturated_eq_forever_iff
    (other : clock ≠ .wall)
    (sum : Int) :
    saturated clock sum = timeForever ↔ 2 ^ 62 - 1 ≤ sum := by
  constructor
  · intro forever
    by_contra small
    rw [saturated_max_one other] at forever
    obtain ⟨value, same, encoded⟩ :=
      saturated_eq_clockAndValueToTime clock
        (by omega : 1 ≤ max 1 sum) (by omega)
    have word :=
      toNat_clockAndValueToTime clock
        (by omega : 0 < value.toNat) (by omega)
    rw [← encoded, forever] at word
    change 2 ^ 64 - 1 = _ at word
    cases clock with
    | wall => exact other rfl
    | uptime | monotonic =>
      simp only at word
      omega
  · intro large
    exact saturated_of_ge clock large

/-- The instant of a saturated sum off the wall clock. -/
theorem instant_saturated
    (clocks : Clocks)
    (other : clock ≠ .wall)
    (sum : Int) :
    instant clocks (saturated clock sum) =
      if 2 ^ 62 - 1 ≤ sum then ⊤
      else WithTop.some (max 1 sum).toNat := by
  by_cases large : 2 ^ 62 - 1 ≤ sum
  · rw [if_pos large, instant,
      if_pos ((saturated_eq_forever_iff other sum).mpr large)]
  · have started := origin_saturated clocks clock
      (by omega : 1 ≤ max 1 sum) (by omega)
      (fun wall => absurd wall other)
    rw [if_neg large, instant,
      if_neg (mt (saturated_eq_forever_iff other sum).mp large),
      saturated_max_one other, started.1]

/-- A saturated sum stays on its clock, or is forever. -/
theorem clockOf_saturated
    (ordinary : clocks.Ordinary clock)
    (sum : Int) :
    saturated clock sum = timeForever ∨
      clockOf clocks (saturated clock sum) = clock := by
  by_cases large : 2 ^ 62 - 1 ≤ sum
  · exact .inl (saturated_of_ge clock large)
  · refine .inr ?_
    by_cases wall : clock = .wall
    · subst wall
      by_cases low : sum ≤ 0 ∨ sum = 2
      · rw [saturated_wall_of_present low, clockOf,
          timeToClockAndValue_walltimeNow (ordinary.upper)]
      · exact (origin_saturated clocks .wall
          (by omega : 1 ≤ sum) (by omega) (fun _ => by omega)).2
    · rw [saturated_max_one wall]
      exact (origin_saturated clocks clock
        (by omega : 1 ≤ max 1 sum) (by omega)
        (fun onWall => absurd onWall wall)).2

/-! ## Moving a time by an increasing delta -/

/-- What moving one time by two deltas in order should do. -/
structure MovesMonotonically
    (clocks : Clocks)
    (time : UInt64)
    (earlier later : Int64) : Prop where
  stays :
    ∀ delta ∈ [earlier, later],
      dispatchTime clocks time delta = timeForever ∨
        clockOf clocks (dispatchTime clocks time delta) = clockOf clocks time
  ordered :
    instant clocks (dispatchTime clocks time earlier) ≤
      instant clocks (dispatchTime clocks time later)
  finite :
    ∀ delta ∈ [earlier, later],
      delta < 0 → dispatchTime clocks time delta ≠ timeForever

/--
The sums on which the special words of the wall clock do not interfere: neither
is 1, and an earlier sum that falls on the present is not followed by a later
one that is in the past.
-/
def ClearOfSpecials (now earlier later : Int) : Prop :=
  earlier ≠ 1 ∧ later ≠ 1 ∧ (3 ≤ earlier ∨ later ≤ 2 ∨ now ≤ later)

instance
    (now earlier later : Int) :
    Decidable (ClearOfSpecials now earlier later) :=
  inferInstanceAs (Decidable (_ ∧ _ ∧ _))

/-- On the wall clock the instants are ordered on sums clear of specials. -/
theorem instant_saturated_wall_le_iff
    (ordinary : clocks.Ordinary .wall)
    {earlier later : Int}
    (increasing : earlier ≤ later)
    (earlierFinite : earlier ≠ 1)
    (laterFinite : later ≠ 1) :
    instant clocks (saturated .wall earlier) ≤
        instant clocks (saturated .wall later) ↔
      3 ≤ earlier ∨ later ≤ 2 ∨ (clocks.wall.toNat : Int) ≤ later := by
  have upper : clocks.wall.toNat < 2 ^ 62 - 1 := ordinary.upper
  rw [instant_saturated_wall ordinary, instant_saturated_wall ordinary]
  split_ifs <;>
    simp only [le_refl, le_top, top_le_iff, WithTop.coe_ne_top,
      WithTop.coe_le_coe, true_iff, false_iff] <;>
    omega

/--
Moving an in-range time by two deltas is monotone exactly when the time is not
on the wall clock or the two sums are clear of the wall clock's special words.
-/
theorem movesMonotonically_iff
    {clocks : Clocks}
    {time : UInt64}
    (ordinary : clocks.Ordinary (clockOf clocks time))
    (inRange : InRange clocks time)
    {earlier later : Int64}
    (increasing : earlier ≤ later) :
    MovesMonotonically clocks time earlier later ↔
      (clockOf clocks time = .wall →
        ClearOfSpecials clocks.wall.toNat
          ((origin clocks time).toNat + earlier.toInt)
          ((origin clocks time).toNat + later.toInt)) := by
  have positive := origin_pos ordinary
  have held := origin_le ordinary inRange
  have moved := dispatchTime_eq_saturated inRange positive held
  rw [Int64.le_iff_toInt_le] at increasing
  constructor
  · intro monotone onWall
    have wallValue := two_lt_origin_of_wall inRange onWall
    have finite : ∀ delta ∈ [earlier, later],
        ((origin clocks time).toNat : Int) + delta.toInt ≠ 1 := by
      intro delta listed one
      have negative : delta < 0 := by
        rw [Int64.lt_iff_toInt_lt]
        change delta.toInt < 0
        omega
      refine monotone.finite delta listed negative ?_
      rw [moved, onWall, one]
      rfl
    have earlierFinite := finite earlier (by simp)
    have laterFinite := finite later (by simp)
    have ordered := monotone.ordered
    rw [onWall] at ordinary
    rw [moved, moved, onWall,
      instant_saturated_wall_le_iff ordinary (by omega) earlierFinite
        laterFinite] at ordered
    exact ⟨earlierFinite, laterFinite, ordered⟩
  · intro clear
    exact {
      stays := by
        intro delta _
        rw [moved]
        exact clockOf_saturated ordinary _
      ordered := by
        rw [moved, moved]
        by_cases onWall : clockOf clocks time = .wall
        · have sums := clear onWall
          rw [onWall] at ordinary
          rw [onWall, instant_saturated_wall_le_iff ordinary (by omega)
            sums.1 sums.2.1]
          exact sums.2.2
        · rw [instant_saturated clocks onWall, instant_saturated clocks onWall]
          split_ifs <;>
            simp only [le_refl, le_top, top_le_iff, WithTop.coe_ne_top,
              WithTop.coe_le_coe] <;>
            omega
      finite := by
        intro delta listed negative
        rw [Int64.lt_iff_toInt_lt] at negative
        change delta.toInt < 0 at negative
        rw [moved]
        by_cases onWall : clockOf clocks time = .wall
        · have sums := clear onWall
          rw [onWall, Ne, saturated_wall_eq_forever_iff]
          rcases List.mem_cons.mp listed with rfl | listed
          · have different := sums.1
            omega
          · rw [List.mem_singleton.mp listed] at negative ⊢
            have different := sums.2.1
            omega
        · rw [Ne, saturated_eq_forever_iff onWall]
          omega
    }

/-- Moving the wall value 500 by one and by two nanoseconds is monotone. -/
theorem thousand_moves_monotonically :
    MovesMonotonically thousand (-500) 1 2 :=
  (movesMonotonically_iff (thousand_ordinary _)
    { finite := by decide, held := by decide, wallValue := by decide }
    (by decide)).mpr (by decide)

/--
Four nanoseconds before the wall value 5 is forever, and three before it is the
present, later than two before it.
-/
theorem thousand_moves_backwards :
    (∀ clock, thousand.Ordinary clock) ∧
      InRange thousand (-5) ∧
      dispatchTime thousand (-5) (-4) = timeForever ∧
      instant thousand (dispatchTime thousand (-5) (-3)) =
        WithTop.some 1000 ∧
      instant thousand (dispatchTime thousand (-5) (-2)) =
        WithTop.some 3 := by
  refine ⟨thousand_ordinary, ?_, by decide, by decide, by decide⟩
  exact { finite := by decide, held := by decide, wallValue := by decide }

end LibDispatch.Time
