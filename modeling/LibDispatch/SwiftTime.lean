import LibDispatch.Time
import Mathlib

namespace LibDispatch.Time

/-!
# Times and intervals of the Swift overlay

`DispatchTime` and `DispatchWallTime` each wrap one encoded time, their raw
value; an interval is a number of units that is clamped to a signed number of
nanoseconds.  The operators move the raw value with `dispatch_time`.  An
operation that traps has no result.

The times that a program can make are those of the constructors and of earlier
arithmetic.  On these the operators are total, ordered and saturating exactly
off three corners: an interval whose negation traps, a sum of one nanosecond,
whose word is forever, and the word of the present, which the comparison takes
for two nanoseconds.
-/

/-! ## Intervals -/

/-- `DispatchTimeInterval`. -/
inductive Interval where
  | seconds (count : Int64)
  | milliseconds (count : Int64)
  | microseconds (count : Int64)
  | nanoseconds (count : Int64)
  | never
  deriving DecidableEq, Repr

/-- `multipliedReportingOverflow`: the product that wraps, and whether it
does. -/
def multipliedReportingOverflow (m1 m2 : Int64) : Int64 × Bool :=
  (m1 * m2,
    decide (m1.toInt * m2.toInt < -2 ^ 63 ∨ 2 ^ 63 ≤ m1.toInt * m2.toInt))

/-- `clampedInt64Product`. -/
def clampedInt64Product (m1 m2 : Int64) : Int64 :=
  let (result, overflow) := multipliedReportingOverflow m1 m2
  if overflow then
    if m1 > 0 then Int64.maxValue else Int64.minValue
  else
    result

/-- `DispatchTimeInterval.rawValue`. -/
def Interval.rawValue : Interval → Int64
  | .seconds count => clampedInt64Product count 1000000000
  | .milliseconds count => clampedInt64Product count 1000000
  | .microseconds count => clampedInt64Product count 1000
  | .nanoseconds count => count
  | .never => Int64.maxValue

/-- The exact number of nanoseconds of an interval. -/
def Interval.duration : Interval → WithTop Int
  | .seconds count => WithTop.some (count.toInt * 1000000000)
  | .milliseconds count => WithTop.some (count.toInt * 1000000)
  | .microseconds count => WithTop.some (count.toInt * 1000)
  | .nanoseconds count => WithTop.some count.toInt
  | .never => ⊤

/-- The negation of Swift, which traps if there is no such number. -/
def negated (number : Int64) : Option Int64 :=
  if number = Int64.minValue then none else some (-number)

/-! ## Operators -/

variable (clocks : Clocks)

/-- `+` of a time and an interval, on the raw values. -/
def plus (time : UInt64) (interval : Interval) : UInt64 :=
  dispatchTime clocks time interval.rawValue

/-- `-` of a time and an interval, on the raw values. -/
def minus
    (time : UInt64)
    (interval : Interval) : Option UInt64 :=
  (negated interval.rawValue).map fun delta => dispatchTime clocks time delta

/-- `<` of `DispatchTime`, on the raw values. -/
def uptimeLess (a b : UInt64) : Option Bool :=
  some (decide (a < b))

/-- `<` of `DispatchWallTime`, on the raw values. -/
def wallLess (a b : UInt64) : Option Bool :=
  if b = timeForever then
    some (decide (a ≠ timeForever))
  else if a = timeForever then
    some false
  else do
    let first ← negated a.toInt64
    let second ← negated b.toInt64
    return decide (first < second)

/-- A `timespec` with less than a second of nanoseconds, from two nanoseconds to
2^32 seconds after the epoch. -/
structure Timespec.Normalized (time : Timespec) : Prop where
  seconds : 0 ≤ time.sec.toInt
  nanoseconds : 0 ≤ time.nsec.toInt ∧ time.nsec.toInt < 1000000000
  lower : 2 ≤ time.sec.toInt * 1000000000 + time.nsec.toInt
  upper : time.sec.toInt * 1000000000 + time.nsec.toInt ≤ 2 ^ 32 * 1000000000

/-- The raw values of the `DispatchTime`s that can be made.  The operators with
a number of seconds move a time by a clamped number of nanoseconds. -/
inductive MadeUptime : UInt64 → Prop where
  | now (clocks : Clocks) : MadeUptime (dispatchTime clocks 0 0)
  | distantFuture : MadeUptime timeForever
  | uptimeNanoseconds
      {nanoseconds : UInt64}
      (lower : 1 ≤ nanoseconds.toNat)
      (upper : nanoseconds.toNat < 2 ^ 62) :
      MadeUptime nanoseconds
  | moved
      {time : UInt64}
      (made : MadeUptime time)
      (clocks : Clocks)
      (delta : Int64) :
      MadeUptime (dispatchTime clocks time delta)

/-- The raw values of the `DispatchWallTime`s that can be made. -/
inductive MadeWall : UInt64 → Prop where
  | now
      {clocks : Clocks}
      (ordinary : clocks.Ordinary .wall) :
      MadeWall (dispatchWalltime clocks none 0)
  | distantFuture : MadeWall timeForever
  | timespec
      {time : Timespec}
      (normalized : time.Normalized)
      (clocks : Clocks) :
      MadeWall (dispatchWalltime clocks (some time) 0)
  | moved
      {time : UInt64}
      (made : MadeWall time)
      {clocks : Clocks}
      (ordinary : clocks.Ordinary .wall)
      (delta : Int64) :
      MadeWall (dispatchTime clocks time delta)

/-! ## Clamped durations -/

/-- The product is clamped to the range of the type. -/
theorem toInt_clampedInt64Product
    (m1 : Int64)
    {m2 : Int64}
    (positive : 0 < m2.toInt) :
    (clampedInt64Product m1 m2).toInt =
      max (-2 ^ 63) (min (m1.toInt * m2.toInt) (2 ^ 63 - 1)) := by
  have most : Int64.maxValue.toInt = 2 ^ 63 - 1 := by decide
  have above : m1 > 0 ↔ 0 < m1.toInt := Int64.lt_iff_toInt_lt
  have overflows : (multipliedReportingOverflow m1 m2).2 = true ↔
      m1.toInt * m2.toInt < -2 ^ 63 ∨ 2 ^ 63 ≤ m1.toInt * m2.toInt :=
    decide_eq_true_iff
  have clamped : clampedInt64Product m1 m2 =
      if (multipliedReportingOverflow m1 m2).2 = true then
        if m1 > 0 then Int64.maxValue else Int64.minValue
      else
        m1 * m2 := rfl
  rw [clamped]
  by_cases overflow :
      m1.toInt * m2.toInt < -2 ^ 63 ∨ 2 ^ 63 ≤ m1.toInt * m2.toInt
  · rw [if_pos (overflows.mpr overflow)]
    by_cases up : 0 < m1.toInt
    · have product := Int.mul_pos up positive
      rw [if_pos (above.mpr up), most]
      omega
    · have product := Int.mul_nonpos_of_nonpos_of_nonneg (Int.not_lt.mp up)
        positive.le
      rw [if_neg (mt above.mp up), Int64.toInt_minValue]
      omega
  · rw [if_neg (mt overflows.mp overflow), Int64.toInt_mul,
      Int.bmod_eq_of_le (by omega) (by omega)]
    omega

/-- The raw value of an interval is its duration, clamped. -/
theorem Interval.toInt_rawValue (interval : Interval) :
    (interval.duration = ⊤ ∧ interval.rawValue.toInt = 2 ^ 63 - 1) ∨
      ∃ exact : Int,
        interval.duration = WithTop.some exact ∧
          interval.rawValue.toInt = max (-2 ^ 63) (min exact (2 ^ 63 - 1)) := by
  cases interval with
  | never => exact .inl ⟨rfl, by decide⟩
  | nanoseconds count =>
    have lower := count.le_toInt
    have upper := count.toInt_lt
    refine .inr ⟨_, rfl, ?_⟩
    rw [Interval.rawValue]
    omega
  | seconds count =>
    exact .inr ⟨_, rfl, toInt_clampedInt64Product count (by decide)⟩
  | milliseconds count =>
    exact .inr ⟨_, rfl, toInt_clampedInt64Product count (by decide)⟩
  | microseconds count =>
    exact .inr ⟨_, rfl, toInt_clampedInt64Product count (by decide)⟩

/-- Longer intervals have greater raw values. -/
theorem Interval.rawValue_le
    {first second : Interval}
    (longer : first.duration ≤ second.duration) :
    first.rawValue.toInt ≤ second.rawValue.toInt := by
  have upper := first.rawValue.toInt_lt
  rcases second.toInt_rawValue with ⟨-, raw⟩ | ⟨exact, duration, raw⟩
  · omega
  · rcases first.toInt_rawValue with ⟨never, -⟩ | ⟨other, otherIs, otherRaw⟩
    · rw [never, duration, top_le_iff] at longer
      exact absurd longer (WithTop.coe_ne_top)
    · rw [otherIs, duration, WithTop.coe_le_coe] at longer
      omega

variable {interval : Interval}

/-- An interval that is too long has the greatest raw value. -/
theorem Interval.rawValue_of_long
    (long : WithTop.some (2 ^ 63 - 1 : Int) < interval.duration) :
    interval.rawValue.toInt = 2 ^ 63 - 1 := by
  rcases interval.toInt_rawValue with ⟨-, raw⟩ | ⟨exact, duration, raw⟩
  · exact raw
  · rw [duration, WithTop.coe_lt_coe] at long
    omega

/-- The interval can be negated: it is longer than the least number. -/
def Interval.Negatable (interval : Interval) : Prop :=
  WithTop.some (-2 ^ 63 : Int) < interval.duration

theorem Interval.negatable_iff (interval : Interval) :
    interval.Negatable ↔ interval.rawValue.toInt ≠ -2 ^ 63 := by
  rw [Interval.Negatable]
  rcases interval.toInt_rawValue with ⟨never, raw⟩ | ⟨exact, duration, raw⟩
  · rw [never, raw]
    exact iff_of_true (WithTop.coe_lt_top _) (by decide)
  · rw [duration, WithTop.coe_lt_coe, raw]
    omega

instance (interval : Interval) : Decidable interval.Negatable :=
  decidable_of_iff _ interval.negatable_iff.symm

/-- The negation of a number that has one. -/
theorem negated_of_ne
    {number : Int64}
    (different : number.toInt ≠ -2 ^ 63) :
    ∃ opposite, negated number = some opposite ∧
      opposite.toInt = -number.toInt := by
  have lower := number.le_toInt
  have upper := number.toInt_lt
  have notLeast : number ≠ Int64.minValue := by
    rintro rfl
    exact different Int64.toInt_minValue
  refine ⟨-number, if_neg notLeast, ?_⟩
  rw [Int64.toInt_neg, Int.bmod_eq_of_le (by omega) (by omega)]

theorem negated_of_eq
    {number : Int64}
    (least : number.toInt = -2 ^ 63) :
    negated number = none := by
  refine if_pos (Int64.toInt_inj.mp ?_)
  rw [least, Int64.toInt_minValue]

/-! ## Raw values of uptimes -/

/-- The raw values of uptimes: forever, or a value of the clock. -/
def IsUptime (word : UInt64) : Prop :=
  word = timeForever ∨ (1 ≤ word.toNat ∧ word.toNat < 2 ^ 62)

variable {word : UInt64}

/-- An uptime is moved from its own value, whatever the clocks read. -/
theorem dispatchTime_of_uptime
    (lower : 1 ≤ word.toNat)
    (upper : word.toNat < 2 ^ 62)
    (clocks : Clocks)
    (delta : Int64) :
    dispatchTime clocks word delta =
      saturated .uptime (word.toNat + delta.toInt) := by
  have inside : ¬ word > timeMaxValue := by
    change ¬ timeMaxValue < word
    rw [UInt64.lt_iff_toNat_lt]
    change ¬ 2 ^ 62 - 1 < word.toNat
    omega
  have decoded : timeToClockAndValue clocks word = (.uptime, word) := by
    rw [timeToClockAndValue_of_uptime clocks (by omega), if_neg inside]
  have nonzero : word ≠ timeNow := by
    rintro rfl
    exact absurd lower (by decide)
  have finite : word ≠ timeForever := by
    rintro rfl
    exact absurd upper (by decide)
  have onUptime : clockOf clocks word = .uptime := congrArg Prod.fst decoded
  have starts : origin clocks word = word := by
    simp only [origin, decoded, if_neg nonzero]
  have inRange : InRange clocks word := {
    finite := finite
    held := by rwa [decoded]
    wallValue := fun onWall => Clock.noConfusion (onUptime.symm.trans onWall) }
  rw [dispatchTime_eq_saturated inRange (by rw [starts]; omega)
    (by rw [starts]; omega), onUptime, starts]

/-- The word of a saturated uptime. -/
theorem toNat_saturated_uptime (sum : Int) :
    ((saturated .uptime sum).toNat : Int) =
      if sum < 2 ^ 62 - 1 then max 1 sum else 2 ^ 64 - 1 := by
  by_cases small : sum < 2 ^ 62 - 1
  · obtain ⟨value, same, encoded⟩ := saturated_eq_clockAndValueToTime .uptime
      (by omega : 1 ≤ max 1 sum) (by omega)
    rw [if_pos small, saturated_max_one (by decide), encoded,
      toNat_clockAndValueToTime .uptime (by omega) (by omega)]
    exact same
  · rw [if_neg small, saturated_of_ge .uptime (by omega)]
    rfl

theorem isUptime_saturated (sum : Int) :
    IsUptime (saturated .uptime sum) := by
  have word := toNat_saturated_uptime sum
  by_cases small : sum < 2 ^ 62 - 1
  · rw [if_pos small] at word
    exact .inr (by omega)
  · exact .inl (saturated_of_ge .uptime (by omega))

/-- The present of the uptime clock, whatever it reads. -/
theorem isUptime_now :
    IsUptime (dispatchTime clocks 0 0) := by
  have decoded : timeToClockAndValue clocks 0 = (.uptime, 0) := by
    rw [timeToClockAndValue_of_uptime clocks (by decide)]
    rfl
  have sum : clocks.uptime + (0 : Int64).toUInt64 = clocks.uptime :=
    UInt64.add_zero _
  have now : dispatchTime clocks 0 0 =
      if clocks.uptime.toInt64 ≤ 0 then timeForever
      else clockAndValueToTime .uptime clocks.uptime := by
    rw [dispatchTime, if_neg (by decide)]
    have zero : (0 : UInt64) = timeNow := rfl
    have still : (0 : Int64) ≥ 0 := by decide
    simp only [decoded]
    rw [if_neg (by decide), if_neg (by decide), if_pos still, if_pos zero]
    simp only [Clocks.now, sum]
  rw [now]
  split
  case isTrue => exact .inl rfl
  case isFalse running =>
    rw [Int64.le_iff_toInt_le, toInt_toInt64] at running
    change ¬ _ ≤ (0 : Int) at running
    have bounded := clocks.uptime.toNat_lt
    have positive : 0 < clocks.uptime.toNat := by
      split_ifs at running <;> omega
    by_cases small : clocks.uptime.toNat < 2 ^ 62 - 1
    · have word := toNat_clockAndValueToTime .uptime positive small
      exact .inr (by simp only at word; omega)
    · exact .inl (clockAndValueToTime_of_ge .uptime (Nat.not_lt.mp small))

theorem MadeUptime.isUptime
    (made : MadeUptime word) :
    IsUptime word := by
  induction made with
  | now clocks => exact isUptime_now clocks
  | distantFuture => exact .inl rfl
  | uptimeNanoseconds lower upper => exact .inr ⟨lower, upper⟩
  | moved made clocks delta inductionHypothesis =>
    rcases inductionHypothesis with rfl | ⟨lower, upper⟩
    · exact .inl (if_pos rfl)
    · rw [dispatchTime_of_uptime lower upper]
      exact isUptime_saturated _

/-! ## Raw values of wall times -/

/-- The raw values of wall times: forever, or a negated value. -/
def IsWall (word : UInt64) : Prop :=
  word = timeForever ∨
    (2 ^ 64 - (2 ^ 62 - 2) ≤ word.toNat ∧ word.toNat ≤ 2 ^ 64 - 2)

/-- The value that a wall time is moved from: the present is read from the
clock. -/
def wallOrigin (word : UInt64) : Nat :=
  if word = walltimeNow then clocks.wall.toNat else 2 ^ 64 - word.toNat

variable {clocks : Clocks}

/-- What is needed of a wall time to move it. -/
theorem wall_inRange
    (ordinary : clocks.Ordinary .wall)
    (lower : 2 ^ 64 - (2 ^ 62 - 2) ≤ word.toNat)
    (upper : word.toNat ≤ 2 ^ 64 - 2) :
    InRange clocks word ∧ clockOf clocks word = .wall ∧
      (origin clocks word).toNat = wallOrigin clocks word := by
  have least : 2 < clocks.wall.toNat := ordinary.lower
  have most : clocks.wall.toNat < 2 ^ 62 - 1 := ordinary.upper
  by_cases present : word = walltimeNow
  · subst present
    have decoded := timeToClockAndValue_walltimeNow most
    have inRange := inRange_walltimeNow least most
    have onWall : clockOf clocks walltimeNow = .wall :=
      congrArg Prod.fst decoded
    refine ⟨inRange, onWall, ?_⟩
    rw [origin_eq_value_of_wall inRange onWall, decoded, wallOrigin,
      if_pos rfl]
  · have notPresent : word.toNat ≠ 2 ^ 64 - 2 :=
      fun same => present (UInt64.toNat_inj.mp same)
    have value := toNat_neg_of_pos (by omega : 0 < word.toNat)
    have inside : ¬ -word > timeMaxValue := by
      change ¬ timeMaxValue < -word
      rw [UInt64.lt_iff_toNat_lt, value]
      change ¬ 2 ^ 62 - 1 < _
      omega
    have decoded : timeToClockAndValue clocks word = (.wall, -word) := by
      rw [timeToClockAndValue_of_wall clocks (by omega), if_neg present,
        if_neg inside]
    have onWall : clockOf clocks word = .wall := congrArg Prod.fst decoded
    have inRange : InRange clocks word := {
      finite := by
        rintro rfl
        exact absurd upper (by decide)
      held := by
        rw [decoded]
        intro forever
        have reading := congrArg UInt64.toNat forever
        rw [value] at reading
        change _ = 2 ^ 64 - 1 at reading
        omega
      wallValue := by
        intro _
        rw [decoded, UInt64.lt_iff_toNat_lt]
        change 2 < (-word).toNat
        omega }
    refine ⟨inRange, onWall, ?_⟩
    rw [origin_eq_value_of_wall inRange onWall, decoded, wallOrigin,
      if_neg present, value]

/-- A wall time is moved by saturating the exact sum. -/
theorem dispatchTime_of_wall
    (ordinary : clocks.Ordinary .wall)
    (lower : 2 ^ 64 - (2 ^ 62 - 2) ≤ word.toNat)
    (upper : word.toNat ≤ 2 ^ 64 - 2)
    (delta : Int64) :
    dispatchTime clocks word delta =
      saturated .wall (wallOrigin clocks word + delta.toInt) := by
  obtain ⟨inRange, onWall, starts⟩ := wall_inRange ordinary lower upper
  rw [← onWall] at ordinary
  rw [dispatchTime_eq_saturated inRange (origin_pos ordinary)
    (origin_le ordinary inRange), onWall, starts]

theorem isWall_saturated (sum : Int) :
    IsWall (saturated .wall sum) := by
  have word := toNat_saturated_wall sum
  by_cases forever : sum = 1 ∨ 2 ^ 62 - 1 ≤ sum
  · exact .inl ((saturated_wall_eq_forever_iff sum).mpr forever)
  · refine .inr ?_
    split_ifs at word <;> omega

/-- A `timespec` is encoded as its nanoseconds, negated. -/
theorem isWall_timespec
    {time : Timespec}
    (normalized : time.Normalized)
    (clocks : Clocks) :
    IsWall (dispatchWalltime clocks (some time) 0) := by
  obtain ⟨seconds, ⟨least, less⟩, lower, upper⟩ := normalized
  have secWord := toNat_toUInt64 time.sec
  have nsecWord := toNat_toUInt64 time.nsec
  rw [if_pos seconds] at secWord
  rw [if_pos least] at nsecWord
  have nano : ((timespecToNano time).toNat : Int) =
      time.sec.toInt * 1000000000 + time.nsec.toInt := by
    have unit : nsecPerSec.toNat = 1000000000 := rfl
    rw [timespecToNano, UInt64.toNat_add, UInt64.toNat_mul, unit]
    omega
  have reading : (timespecToNano time).toInt64.toInt =
      time.sec.toInt * 1000000000 + time.nsec.toInt := by
    rw [toInt_toInt64, if_pos (by omega), nano]
  have kept : (timespecToNano time).toInt64 + 0 =
      (timespecToNano time).toInt64 := Int64.add_zero _
  have late : ¬ (timespecToNano time).toInt64 ≤ 1 := by
    rw [Int64.le_iff_toInt_le, reading]
    change ¬ _ ≤ (1 : Int)
    omega
  have word : ((-(timespecToNano time).toInt64).toUInt64.toNat : Int) =
      2 ^ 64 - (time.sec.toInt * 1000000000 + time.nsec.toInt) := by
    rw [toNat_toUInt64, Int64.toInt_neg, reading,
      Int.bmod_eq_of_le (by omega) (by omega), if_neg (by omega)]
    omega
  refine .inr ?_
  simp only [dispatchWalltime, kept, if_neg late]
  omega

theorem MadeWall.isWall
    (made : MadeWall word) :
    IsWall word := by
  induction made with
  | @now clocks ordinary =>
    have least : 2 < clocks.wall.toNat := ordinary.lower
    have most : clocks.wall.toNat < 2 ^ 62 - 1 := ordinary.upper
    have word := dispatchWalltime_none least most 0
    have none : (0 : Int64).toInt = 0 := rfl
    rw [none] at word
    refine .inr ?_
    split_ifs at word <;> omega
  | distantFuture => exact .inl rfl
  | timespec normalized clocks => exact isWall_timespec normalized clocks
  | moved made ordinary delta inductionHypothesis =>
    rcases inductionHypothesis with rfl | ⟨lower, upper⟩
    · exact .inl (if_pos rfl)
    · rw [dispatchTime_of_wall ordinary lower upper]
      exact isWall_saturated _

/-! ## Comparison of wall times -/

/-- The value that the comparison of wall times reads. -/
def wallValue (word : UInt64) : WithTop Nat :=
  if word = timeForever then ⊤ else WithTop.some (2 ^ 64 - word.toNat)

theorem negated_wall
    (lower : 2 ^ 64 - (2 ^ 62 - 2) ≤ word.toNat)
    (upper : word.toNat ≤ 2 ^ 64 - 2) :
    ∃ opposite, negated word.toInt64 = some opposite ∧
      opposite.toInt = ((2 ^ 64 - word.toNat : Nat) : Int) := by
  have reading : word.toInt64.toInt = word.toNat - 2 ^ 64 := by
    rw [toInt_toInt64, if_neg (by omega)]
  obtain ⟨opposite, negates, value⟩ :=
    @negated_of_ne word.toInt64 (by omega)
  exact ⟨opposite, negates, by omega⟩

/-- The comparison of wall times does not trap and compares their values. -/
theorem wallLess_eq
    {first second : UInt64}
    (isFirst : IsWall first)
    (isSecond : IsWall second) :
    wallLess first second =
      some (decide (wallValue first < wallValue second)) := by
  rw [wallLess, wallValue, wallValue]
  by_cases later : second = timeForever
  · rw [if_pos later, if_pos later]
    by_cases forever : first = timeForever
    · rw [if_pos forever]
      simp [forever]
    · have finite : WithTop.some (2 ^ 64 - first.toNat) < (⊤ : WithTop Nat) :=
        WithTop.coe_lt_top _
      rw [if_neg forever, decide_eq_true finite, decide_eq_true forever]
  · rw [if_neg later, if_neg later]
    by_cases forever : first = timeForever
    · rw [if_pos forever, if_pos forever]
      simp
    · rw [if_neg forever, if_neg forever]
      obtain ⟨lower, upper⟩ := isFirst.resolve_left forever
      obtain ⟨otherLower, otherUpper⟩ := isSecond.resolve_left later
      obtain ⟨opposite, negates, value⟩ := negated_wall lower upper
      obtain ⟨other, otherNegates, otherValue⟩ :=
        negated_wall otherLower otherUpper
      rw [negates, otherNegates]
      have same : opposite < other ↔
          WithTop.some (2 ^ 64 - first.toNat) <
            WithTop.some (2 ^ 64 - second.toNat) := by
        rw [Int64.lt_iff_toInt_lt, value, otherValue, WithTop.coe_lt_coe]
        omega
      exact congrArg some (decide_eq_decide.mpr same)

/-- The value of a saturated sum. -/
theorem wallValue_saturated (sum : Int) :
    wallValue (saturated .wall sum) =
      if sum = 1 ∨ 2 ^ 62 - 1 ≤ sum then ⊤
      else WithTop.some (max 2 sum).toNat := by
  have word := toNat_saturated_wall sum
  by_cases forever : sum = 1 ∨ 2 ^ 62 - 1 ≤ sum
  · rw [wallValue, if_pos ((saturated_wall_eq_forever_iff sum).mpr forever),
      if_pos forever]
  · rw [wallValue,
      if_neg (mt (saturated_wall_eq_forever_iff sum).mp forever),
      if_neg forever]
    congr 1
    split_ifs at word <;> omega

/-- A sum that is taken for forever, before one that is not. -/
def Dips (earlier later : Int) : Prop :=
  earlier = 1 ∧ later ≠ 1 ∧ later < 2 ^ 62 - 1

instance (earlier later : Int) : Decidable (Dips earlier later) :=
  inferInstanceAs (Decidable (_ ∧ _ ∧ _))

theorem wallLess_saturated_iff
    {earlier later : Int}
    (increasing : earlier ≤ later) :
    wallLess (saturated .wall later) (saturated .wall earlier) = some false ↔
      ¬ Dips earlier later := by
  rw [wallLess_eq (isWall_saturated later) (isWall_saturated earlier),
    Option.some_inj, decide_eq_false_iff_not, not_lt, wallValue_saturated,
    wallValue_saturated, Dips]
  split_ifs with forever otherForever otherForever
  · simp only [le_refl, true_iff]
    omega
  · simp only [top_le_iff, WithTop.coe_ne_top, false_iff]
    omega
  · simp only [le_top, true_iff]
    omega
  · rw [WithTop.coe_le_coe]
    omega

/-! ## Total, ordered and saturating arithmetic -/

/-- What adding and subtracting two intervals should do to a time.  The first
interval is applied at one reading of the clocks, the second at another. -/
structure Sound
    (less : UInt64 → UInt64 → Option Bool)
    (clocks otherClocks : Clocks)
    (time : UInt64)
    (interval other : Interval) : Prop where
  total :
    (minus clocks time interval).isSome ∧
      (minus otherClocks time other).isSome
  plusOrdered :
    interval.duration ≤ other.duration →
      less (plus otherClocks time other) (plus clocks time interval) =
        some false
  minusOrdered :
    interval.duration ≤ other.duration →
      ∀ result otherResult,
        minus clocks time interval = some result →
          minus otherClocks time other = some otherResult →
          less result otherResult = some false
  saturates :
    WithTop.some (2 ^ 63 - 1 : Int) < interval.duration →
      plus clocks time interval = timeForever

theorem isSome_minus_iff
    (clocks : Clocks)
    (time : UInt64)
    (interval : Interval) :
    (minus clocks time interval).isSome ↔ interval.Negatable := by
  rw [minus, Option.isSome_map, Interval.negatable_iff]
  by_cases least : interval.rawValue.toInt = -2 ^ 63
  · rw [negated_of_eq least]
    exact iff_of_false (by decide) (fun different => different least)
  · obtain ⟨opposite, negates, -⟩ := negated_of_ne least
    rw [negates]
    exact iff_of_true rfl least

variable {time : UInt64}

/-- What a subtraction returns. -/
theorem minus_eq_some
    {result : UInt64}
    (returns : minus clocks time interval = some result) :
    ∃ delta : Int64,
      delta.toInt = -interval.rawValue.toInt ∧
        result = dispatchTime clocks time delta := by
  obtain ⟨delta, negates, rfl⟩ := Option.map_eq_some_iff.mp returns
  by_cases least : interval.rawValue.toInt = -2 ^ 63
  · rw [negated_of_eq least] at negates
    cases negates
  · obtain ⟨opposite, otherNegates, value⟩ := negated_of_ne least
    rw [otherNegates] at negates
    cases negates
    exact ⟨_, value, rfl⟩

variable {less : UInt64 → UInt64 → Option Bool} {otherClocks : Clocks}

/-- A time that is forever stays so. -/
theorem sound_forever_iff
    (irreflexive : less timeForever timeForever = some false)
    (interval other : Interval) :
    Sound less clocks otherClocks timeForever interval other ↔
      interval.Negatable ∧ other.Negatable := by
  rw [← isSome_minus_iff clocks timeForever, ← isSome_minus_iff otherClocks
    timeForever other]
  refine ⟨fun sound => sound.total, fun total => ?_⟩
  exact
    { total := total
      plusOrdered := fun _ => irreflexive
      minusOrdered := by
        intro _ result otherResult returns otherReturns
        obtain ⟨delta, -, rfl⟩ := minus_eq_some returns
        obtain ⟨otherDelta, -, rfl⟩ := minus_eq_some otherReturns
        exact irreflexive
      saturates := fun _ => rfl }

/-- A time that is moved by saturating sums has ordered sums if it is sound. -/
theorem sound_iff_of_moved
    {clock : Clock}
    {value : Nat}
    (moved :
      ∀ delta, dispatchTime clocks time delta =
        saturated clock (value + delta.toInt))
    (otherMoved :
      ∀ delta, dispatchTime otherClocks time delta =
        saturated clock (value + delta.toInt))
    (interval other : Interval) :
    Sound less clocks otherClocks time interval other ↔
      interval.Negatable ∧ other.Negatable ∧
        (interval.duration ≤ other.duration →
          less (saturated clock (value + other.rawValue.toInt))
              (saturated clock (value + interval.rawValue.toInt)) =
            some false ∧
          less (saturated clock (value - interval.rawValue.toInt))
              (saturated clock (value - other.rawValue.toInt)) =
            some false) := by
  rw [← isSome_minus_iff clocks time, ← isSome_minus_iff otherClocks time]
  constructor
  · intro sound
    refine ⟨sound.total.1, sound.total.2, fun longer => ⟨?_, ?_⟩⟩
    · have plusOrdered := sound.plusOrdered longer
      rw [plus, plus, moved, otherMoved] at plusOrdered
      exact plusOrdered
    · obtain ⟨result, returns⟩ := Option.isSome_iff_exists.mp sound.total.1
      obtain ⟨otherResult, otherReturns⟩ :=
        Option.isSome_iff_exists.mp sound.total.2
      have minusOrdered :=
        sound.minusOrdered longer result otherResult returns otherReturns
      obtain ⟨delta, negated, rfl⟩ := minus_eq_some returns
      obtain ⟨otherDelta, otherNegated, rfl⟩ := minus_eq_some otherReturns
      rw [moved, otherMoved, negated, otherNegated] at minusOrdered
      exact minusOrdered
  · rintro ⟨total, otherTotal, ordered⟩
    exact
      { total := ⟨total, otherTotal⟩
        plusOrdered := by
          intro longer
          rw [plus, plus, moved, otherMoved]
          exact (ordered longer).1
        minusOrdered := by
          intro longer result otherResult returns otherReturns
          obtain ⟨delta, negated, rfl⟩ := minus_eq_some returns
          obtain ⟨otherDelta, otherNegated, rfl⟩ := minus_eq_some otherReturns
          rw [moved, otherMoved, negated, otherNegated]
          exact (ordered longer).2
        saturates := by
          intro long
          rw [plus, moved, Interval.rawValue_of_long long]
          exact saturated_of_ge clock (by omega) }

theorem uptimeLess_saturated
    {earlier later : Int}
    (increasing : earlier ≤ later) :
    uptimeLess (saturated .uptime later) (saturated .uptime earlier) =
      some false := by
  have word := toNat_saturated_uptime earlier
  have otherWord := toNat_saturated_uptime later
  have ordered : ¬ saturated .uptime later < saturated .uptime earlier := by
    rw [UInt64.lt_iff_toNat_lt]
    split_ifs at word otherWord <;> omega
  rw [uptimeLess, decide_eq_false ordered]

/-- For uptimes only the negation of an interval can fail. -/
theorem sound_uptime_iff
    (made : MadeUptime time)
    (clocks otherClocks : Clocks)
    (interval other : Interval) :
    Sound uptimeLess clocks otherClocks time interval other ↔
      interval.Negatable ∧ other.Negatable := by
  rcases made.isUptime with rfl | ⟨lower, upper⟩
  · exact sound_forever_iff rfl interval other
  · rw [sound_iff_of_moved (dispatchTime_of_uptime lower upper clocks)
      (dispatchTime_of_uptime lower upper otherClocks)]
    refine and_congr_right fun _ => and_iff_left fun longer => ?_
    have ordered := Interval.rawValue_le longer
    exact ⟨uptimeLess_saturated (by omega), uptimeLess_saturated (by omega)⟩

/-- No sum that is moved to is taken for forever before one that is not. -/
def ClearOfForever (value : Nat) (interval other : Interval) : Prop :=
  interval.duration ≤ other.duration →
    ¬ Dips (value + interval.rawValue.toInt) (value + other.rawValue.toInt) ∧
      ¬ Dips (value - other.rawValue.toInt) (value - interval.rawValue.toInt)

/-- For wall times a sum of one nanosecond can fail, too. -/
theorem sound_wall_iff
    (made : MadeWall time)
    (ordinary : clocks.Ordinary .wall)
    (otherOrdinary : otherClocks.Ordinary .wall)
    (together : time = walltimeNow → clocks.wall = otherClocks.wall)
    (interval other : Interval) :
    Sound wallLess clocks otherClocks time interval other ↔
      interval.Negatable ∧ other.Negatable ∧
        (time ≠ timeForever →
          ClearOfForever (wallOrigin clocks time) interval other) := by
  rcases made.isWall with rfl | ⟨lower, upper⟩
  · rw [sound_forever_iff rfl]
    simp
  · have finite : time ≠ timeForever := by
      rintro rfl
      exact absurd upper (by decide)
    have sameOrigin : wallOrigin otherClocks time = wallOrigin clocks time := by
      by_cases present : time = walltimeNow
      · rw [wallOrigin, wallOrigin, together present]
      · rw [wallOrigin, wallOrigin, if_neg present, if_neg present]
    have moved := dispatchTime_of_wall ordinary lower upper
    have otherMoved := dispatchTime_of_wall otherOrdinary lower upper
    rw [sameOrigin] at otherMoved
    rw [sound_iff_of_moved moved otherMoved, ClearOfForever,
      imp_iff_right finite]
    refine and_congr_right fun _ => and_congr_right fun _ =>
      forall_congr' fun longer => ?_
    have ordered := Interval.rawValue_le longer
    rw [wallLess_saturated_iff (by omega), wallLess_saturated_iff (by omega)]

/-! ## Comparison and instants -/

/-- The comparison of two wall times is that of the instants they denote. -/
def ComparesInstants (clocks : Clocks) (first second : UInt64) : Prop :=
  wallLess first second =
    some (decide (instant clocks first < instant clocks second))

/-- The present is not between the epoch and another time. -/
def PresentIsEarlier (clocks : Clocks) (first second : UInt64) : Prop :=
  (first = walltimeNow → second ≠ walltimeNow → second ≠ timeForever →
      clocks.wall.toNat < 2 ^ 64 - second.toNat) ∧
    (second = walltimeNow → first ≠ walltimeNow → first ≠ timeForever →
      clocks.wall.toNat ≤ 2 ^ 64 - first.toNat)

theorem instant_of_wall
    (ordinary : clocks.Ordinary .wall)
    (isWall : IsWall word) :
    instant clocks word =
      if word = timeForever then ⊤
      else WithTop.some (wallOrigin clocks word) := by
  rw [instant]
  by_cases forever : word = timeForever
  · rw [if_pos forever, if_pos forever]
  · obtain ⟨lower, upper⟩ := isWall.resolve_left forever
    rw [if_neg forever, if_neg forever,
      (wall_inRange ordinary lower upper).2.2]

theorem comparesInstants_iff
    {first second : UInt64}
    (made : MadeWall first)
    (otherMade : MadeWall second)
    (ordinary : clocks.Ordinary .wall) :
    ComparesInstants clocks first second ↔
      PresentIsEarlier clocks first second := by
  have least : 2 < clocks.wall.toNat := ordinary.lower
  have present : walltimeNow.toNat = 2 ^ 64 - 2 := rfl
  have isNot {word : UInt64} (different : word ≠ walltimeNow) :
      word.toNat ≠ 2 ^ 64 - 2 :=
    fun same => different (UInt64.toNat_inj.mp same)
  rw [ComparesInstants, wallLess_eq made.isWall otherMade.isWall,
    Option.some_inj, decide_eq_decide, instant_of_wall ordinary made.isWall,
    instant_of_wall ordinary otherMade.isWall, wallValue, wallValue,
    PresentIsEarlier]
  by_cases forever : first = timeForever
  · simp [forever, show timeForever ≠ walltimeNow by decide]
  · by_cases otherForever : second = timeForever
    · have finite : WithTop.some (2 ^ 64 - first.toNat) < (⊤ : WithTop Nat) :=
        WithTop.coe_lt_top _
      rw [if_neg forever, if_pos otherForever, if_neg forever,
        if_pos otherForever, iff_true_left finite]
      simp [otherForever, show timeForever ≠ walltimeNow by decide]
    · obtain ⟨lower, upper⟩ := made.isWall.resolve_left forever
      obtain ⟨otherLower, otherUpper⟩ :=
        otherMade.isWall.resolve_left otherForever
      rw [if_neg forever, if_neg otherForever, if_neg forever,
        if_neg otherForever, WithTop.coe_lt_coe, WithTop.coe_lt_coe,
        wallOrigin, wallOrigin]
      by_cases now : first = walltimeNow
      · by_cases otherNow : second = walltimeNow
        · simp [now, otherNow]
        · have apart := isNot otherNow
          rw [if_pos now, if_neg otherNow]
          simp only [now, otherNow, otherForever, present, ne_eq,
            not_true_eq_false, not_false_eq_true, forall_const, false_implies,
            and_true]
          omega
      · by_cases otherNow : second = walltimeNow
        · rw [if_neg now, if_pos otherNow]
          simp only [now, otherNow, forever, present, ne_eq,
            not_true_eq_false, not_false_eq_true, forall_const, false_implies,
            true_and]
          omega
        · rw [if_neg now, if_neg otherNow]
          simp [now, otherNow]

/-! ## The guarantees -/

/--
The arithmetic of the overlay is total, ordered and saturating exactly if both
intervals can be negated and, for wall times, no sum of one nanosecond is taken
for forever; and wall times compare as their instants exactly if the present is
not between the epoch and the other time.
-/
theorem swiftTime_sound_iff
    (interval other : Interval)
    (clocks otherClocks : Clocks) :
    (∀ {time : UInt64}, MadeUptime time →
      (Sound uptimeLess clocks otherClocks time interval other ↔
        interval.Negatable ∧ other.Negatable)) ∧
    (clocks.Ordinary .wall → otherClocks.Ordinary .wall →
      ∀ {time : UInt64}, MadeWall time →
        (time = walltimeNow → clocks.wall = otherClocks.wall) →
        (Sound wallLess clocks otherClocks time interval other ↔
          interval.Negatable ∧ other.Negatable ∧
            (time ≠ timeForever →
              ClearOfForever (wallOrigin clocks time) interval other))) ∧
    (clocks.Ordinary .wall →
      ∀ {first second : UInt64}, MadeWall first → MadeWall second →
        (ComparesInstants clocks first second ↔
          PresentIsEarlier clocks first second)) :=
  ⟨fun made => sound_uptime_iff made clocks otherClocks interval other,
    fun ordinary otherOrdinary _ made together =>
      sound_wall_iff made ordinary otherOrdinary together interval other,
    fun ordinary _ _ made otherMade =>
      comparesInstants_iff made otherMade ordinary⟩

/-- The wall times of small numbers of nanoseconds. -/
theorem madeWall_nanoseconds
    {count : Int64}
    (lower : 2 ≤ count.toInt)
    (upper : count.toInt < 1000000000)
    (clocks : Clocks) :
    MadeWall (dispatchWalltime clocks (some ⟨0, count⟩) 0) := by
  have seconds : (Timespec.mk 0 count).sec.toInt = 0 := rfl
  have nanoseconds : (Timespec.mk 0 count).nsec.toInt = count.toInt := rfl
  have normalized : (Timespec.mk 0 count).Normalized := {
    seconds := by rw [seconds]
    nanoseconds := by
      rw [nanoseconds]
      omega
    lower := by
      rw [seconds, nanoseconds]
      omega
    upper := by
      rw [seconds, nanoseconds]
      omega }
  exact .timespec normalized clocks

/--
Subtracting the least number of nanoseconds traps.  Four nanoseconds before five
is the distant future, later than two before it.  Two nanoseconds after the
epoch is the present, but compares as earlier than three.
-/
theorem swiftTime_corners :
    MadeUptime 1000 ∧
      minus thousand 1000 (.nanoseconds Int64.minValue) = none ∧
      thousand.Ordinary .wall ∧
      MadeWall (dispatchWalltime thousand (some ⟨0, 5⟩) 0) ∧
      dispatchWalltime thousand (some ⟨0, 5⟩) 0 = -5 ∧
      minus thousand (-5) (.nanoseconds 4) = some timeForever ∧
      minus thousand (-5) (.nanoseconds 2) = some (-3) ∧
      wallLess (-3) timeForever = some true ∧
      MadeWall (dispatchWalltime thousand (some ⟨0, 2⟩) 0) ∧
      dispatchWalltime thousand (some ⟨0, 2⟩) 0 = walltimeNow ∧
      wallLess walltimeNow (-3) = some true ∧
      instant thousand (-3) < instant thousand walltimeNow := by
  refine ⟨.uptimeNanoseconds (by decide) (by decide), by decide,
    thousand_ordinary _, madeWall_nanoseconds (by decide) (by decide) thousand,
    by decide, by decide, by decide, by decide,
    madeWall_nanoseconds (by decide) (by decide) thousand, by decide,
    by decide, by decide⟩

/-- The guarantees at an uptime and at a wall time, with seconds and with an
interval that never ends. -/
theorem thousand_swiftTime_sound :
    Sound uptimeLess thousand thousand 1000 (.seconds 1) .never ∧
      Sound wallLess thousand thousand
        (dispatchWalltime thousand (some ⟨0, 500⟩) 0) (.nanoseconds 7)
        (.microseconds 1) ∧
      ComparesInstants thousand
        (dispatchWalltime thousand (some ⟨0, 500⟩) 0)
        (dispatchWalltime thousand (some ⟨0, 700⟩) 0) := by
  have first := @madeWall_nanoseconds 500 (by decide) (by decide)
    thousand
  have second := @madeWall_nanoseconds 700 (by decide) (by decide)
    thousand
  have atUptime := swiftTime_sound_iff (.seconds 1) .never thousand thousand
  have atWall := swiftTime_sound_iff (.nanoseconds 7) (.microseconds 1)
    thousand thousand
  refine ⟨(atUptime.1 (.uptimeNanoseconds (by decide) (by decide))).mpr
      ⟨by decide, by decide⟩,
    (atWall.2.1 (thousand_ordinary _) (thousand_ordinary _) first
      (fun _ => rfl)).mpr
      ⟨by decide, by decide, fun _ _ => by decide⟩,
    (atWall.2.2 (thousand_ordinary _) first second).mpr
      ⟨fun now => absurd now (by decide), fun now => absurd now (by decide)⟩⟩

end LibDispatch.Time
