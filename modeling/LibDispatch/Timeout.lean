import LibDispatch.Time

namespace LibDispatch.Time

/-!
# Timeouts

Two functions of `time.c` tell a waiter how long to wait for an encoded time.
`_dispatch_timeout` decodes the clock and gives the nanoseconds that are left on
it.  `_dispatch_time_nanoseconds_since_epoch`, which POSIX semaphores use, gives
an instant of the wall clock, and takes every negative word for a wall time.
The two agree on wall times and uptimes.  A monotonic time is negative as well,
and they only agree on it by coincidence.
-/

/-- `_dispatch_timeout`. -/
def timeout
    (clocks : Clocks)
    (time : UInt64) :
    UInt64 :=
  if time = timeForever then
    timeForever
  else if time = timeNow then
    0
  else
    let (clock, value) := timeToClockAndValue clocks time
    let now := clocks.now clock
    if now ≥ value then 0 else value - now

/-- `_dispatch_time_nanoseconds_since_epoch`. -/
def timeNanosecondsSinceEpoch
    (clocks : Clocks)
    (time : UInt64) :
    UInt64 :=
  if time = timeForever then
    timeForever
  else if time.toInt64 < 0 then
    (-time.toInt64).toUInt64
  else
    clocks.wall + timeout clocks time

/-! ## Each function on each clock -/

/-- What is left of a value is a truncated difference. -/
theorem toNat_remaining (now value : UInt64) :
    (if now ≥ value then 0 else value - now).toNat =
      value.toNat - now.toNat := by
  by_cases passed : now ≥ value
  · have : value.toNat ≤ now.toNat := UInt64.le_iff_toNat_le.mp passed
    rw [if_pos passed, Nat.sub_eq_zero_of_le this]
    rfl
  · have later : now ≤ value :=
      UInt64.le_of_lt (UInt64.not_le.mp passed)
    rw [if_neg passed, UInt64.toNat_sub_of_le _ _ later]

variable {clocks : Clocks} {time : UInt64}

/-- A decoded time leaves the part of its value that its clock has not passed. -/
theorem toNat_timeout
    {value : UInt64}
    {clock : Clock}
    (finite : time ≠ timeForever)
    (later : time ≠ timeNow)
    (decoded : timeToClockAndValue clocks time = (clock, value)) :
    (timeout clocks time).toNat =
      value.toNat - (clocks.now clock).toNat := by
  simp only [timeout, if_neg finite, if_neg later, decoded]
  exact toNat_remaining (clocks.now clock) value

/-- A negative word is negated. -/
theorem toNat_timeNanosecondsSinceEpoch_of_ge
    (finite : time ≠ timeForever)
    (lower : 2 ^ 63 ≤ time.toNat) :
    (timeNanosecondsSinceEpoch clocks time).toNat = 2 ^ 64 - time.toNat := by
  have negated : (-time.toInt64).toUInt64 = -time := rfl
  rw [timeNanosecondsSinceEpoch, if_neg finite,
    if_pos (toInt64_neg_of_le lower), negated, toNat_neg_of_pos (by omega)]

/-- An uptime is moved to the wall clock. -/
theorem toNat_timeNanosecondsSinceEpoch_of_lt
    (upper : time.toNat < 2 ^ 63) :
    (timeNanosecondsSinceEpoch clocks time).toNat =
      (clocks.wall.toNat + (timeout clocks time).toNat) % 2 ^ 64 := by
  have finite : time ≠ timeForever := by
    rintro rfl
    exact absurd upper (by decide)
  have nonnegative : ¬ time.toInt64 < 0 := by
    rw [Int64.lt_iff_toInt_lt, toInt_toInt64, if_pos upper]
    exact Int.not_lt.mpr (Int.natCast_nonneg time.toNat)
  rw [timeNanosecondsSinceEpoch, if_neg finite, if_neg nonnegative,
    UInt64.toNat_add]

/-- The timeout of an uptime that the clock can hold. -/
theorem toNat_timeout_of_uptime
    (upper : time.toNat < 2 ^ 63)
    (held : (timeToClockAndValue clocks time).2 ≠ timeForever) :
    (timeout clocks time).toNat = time.toNat - clocks.uptime.toNat := by
  have finite : time ≠ timeForever := by
    rintro rfl
    exact absurd upper (by decide)
  by_cases isNow : time = timeNow
  · subst isNow
    have starts : timeNow.toNat = 0 := rfl
    rw [starts, Nat.zero_sub]
    rfl
  · have decoded := timeToClockAndValue_of_uptime clocks upper
    have small : ¬ time > timeMaxValue := by
      intro large
      rw [decoded, if_pos large] at held
      exact held rfl
    rw [if_neg small] at decoded
    exact toNat_timeout finite isNow decoded

/-- The timeout of a monotonic time. -/
theorem toNat_timeout_of_monotonic
    (lower : 2 ^ 63 ≤ time.toNat)
    (upper : time.toNat < 2 ^ 63 + 2 ^ 62) :
    (timeout clocks time).toNat =
      time.toNat - 2 ^ 63 - clocks.monotonic.toNat := by
  have finite : time ≠ timeForever := by
    rintro rfl
    exact absurd upper (by decide)
  have later : time ≠ timeNow := by
    rintro rfl
    exact absurd lower (by decide)
  rw [toNat_timeout finite later
    (timeToClockAndValue_of_monotonic clocks lower upper),
    toNat_and_not_upOrMonotonicTimeMask]
  have reduced : time.toNat % 2 ^ 63 = time.toNat - 2 ^ 63 := by
    omega
  rw [reduced]
  rfl

/-- The timeout of a wall time that the clock can hold. -/
theorem toNat_timeout_of_wall
    (finite : time ≠ timeForever)
    (lower : 2 ^ 63 + 2 ^ 62 ≤ time.toNat)
    (held : (timeToClockAndValue clocks time).2 ≠ timeForever) :
    (timeout clocks time).toNat =
      if time = walltimeNow then 0
      else 2 ^ 64 - time.toNat - clocks.wall.toNat := by
  have later : time ≠ timeNow := by
    rintro rfl
    exact absurd lower (by decide)
  have decoded := timeToClockAndValue_of_wall clocks lower
  generalize isActual :
    (if time = walltimeNow then clocks.wall else -time) = actual at decoded
  have small : ¬ actual > timeMaxValue := by
    intro large
    rw [decoded, if_pos large] at held
    exact held rfl
  rw [if_neg small] at decoded
  rw [toNat_timeout finite later decoded, ← isActual]
  by_cases isNow : time = walltimeNow
  · rw [if_pos isNow, if_pos isNow]
    exact Nat.sub_self clocks.wall.toNat
  · rw [if_neg isNow, if_neg isNow, toNat_neg_of_pos (by omega)]
    rfl

/-! ## Agreement -/

/-- The times on which both functions agree: wall times, uptimes that the wall
clock can express, and the monotonic times that are as far away as their negated
word is from the epoch. -/
def EpochAgrees
    (clocks : Clocks)
    (time : UInt64) :
    Prop :=
  match clockOf clocks time with
  | .wall => time = walltimeNow → 2 ≤ clocks.wall.toNat
  | .uptime =>
    clocks.wall.toNat + (time.toNat - clocks.uptime.toNat) < 2 ^ 64
  | .monotonic =>
    let value := time.toNat - 2 ^ 63
    if value ≤ clocks.monotonic.toNat then
      2 ^ 63 ≤ clocks.wall.toNat + value
    else
      2 ^ 63 + clocks.monotonic.toNat = clocks.wall.toNat + 2 * value

/-- The instant on the wall clock is as far away as the timeout says exactly for
the times of `EpochAgrees`. -/
theorem max_sinceEpoch_eq_add_timeout_iff
    {clocks : Clocks}
    {time : UInt64}
    (finite : time ≠ timeForever)
    (held : (timeToClockAndValue clocks time).2 ≠ timeForever) :
    max (timeNanosecondsSinceEpoch clocks time).toNat clocks.wall.toNat =
        clocks.wall.toNat + (timeout clocks time).toNat ↔
      EpochAgrees clocks time := by
  have wallBound := clocks.wall.toNat_lt
  unfold EpochAgrees clockOf
  rcases Nat.lt_or_ge time.toNat (2 ^ 63) with upper | lower
  · rw [timeToClockAndValue_of_uptime clocks upper,
      toNat_timeNanosecondsSinceEpoch_of_lt upper,
      toNat_timeout_of_uptime upper held]
    dsimp only
    omega
  rw [toNat_timeNanosecondsSinceEpoch_of_ge finite lower]
  rcases Nat.lt_or_ge time.toNat (2 ^ 63 + 2 ^ 62) with upper | above
  · rw [timeToClockAndValue_of_monotonic clocks lower upper,
      toNat_timeout_of_monotonic lower upper]
    dsimp only
    split_ifs with passed
    · omega
    · omega
  · rw [timeToClockAndValue_of_wall clocks above,
      toNat_timeout_of_wall finite above held]
    dsimp only
    by_cases isNow : time = walltimeNow
    · have word : time.toNat = 2 ^ 64 - 2 := congrArg UInt64.toNat isNow
      rw [if_pos isNow, word]
      constructor
      · intro agrees _
        omega
      · intro started
        have := started isNow
        omega
    · rw [if_neg isNow]
      constructor
      · exact fun _ wall => absurd wall isNow
      · intro _
        omega

/-- Ten nanoseconds from now on the uptime clock, both functions agree. -/
theorem thousand_sinceEpoch_agrees :
    max (timeNanosecondsSinceEpoch thousand 1010).toNat
        thousand.wall.toNat =
      thousand.wall.toNat + (timeout thousand 1010).toNat :=
  (max_sinceEpoch_eq_add_timeout_iff (by decide) (by decide)).mpr
    (show 1000 + (1010 - 1000) < 2 ^ 64 by decide)

/-- Ten nanoseconds from now on the monotonic clock is 292 years after the epoch
for one function and a timeout of ten nanoseconds for the other. -/
theorem thousand_sinceEpoch_differs :
    timeToClockAndValue thousand 0x80000000000003f2 =
        (.monotonic, 1010) ∧
      timeNanosecondsSinceEpoch thousand 0x80000000000003f2 =
        0x7ffffffffffffc0e ∧
      timeout thousand 0x80000000000003f2 = 10 ∧
      max (timeNanosecondsSinceEpoch thousand 0x80000000000003f2).toNat
          thousand.wall.toNat ≠
        thousand.wall.toNat + (timeout thousand 0x80000000000003f2).toNat := by
  decide

/-- The timeout of a moved time is what is left of the exact sum when it is
asked for, or forever past the greatest value.  Only the clock of the time is
read, when it is moved and again later. -/
theorem toNat_timeout_dispatchTime
    (ordinary : clocks.Ordinary (clockOf clocks time))
    (inRange : InRange clocks time)
    {delta : Int64}
    {sum : Int}
    (isSum : (origin clocks time).toNat + delta.toInt = sum)
    (clear : 2 < sum)
    (otherClocks : Clocks) :
    (timeout otherClocks (dispatchTime clocks time delta)).toNat =
      if 2 ^ 62 - 1 ≤ sum then timeForever.toNat
      else sum.toNat - (otherClocks.now (clockOf clocks time)).toNat := by
  rw [dispatchTime_eq_saturated inRange (origin_pos ordinary)
    (origin_le ordinary inRange), isSum]
  split_ifs with large
  · rw [saturated_of_ge _ large]
    rfl
  · obtain ⟨value, same, decoded⟩ := timeToClockAndValue_saturated otherClocks
      (clockOf clocks time) (by omega) (Int.not_le.mp large) (by omega)
    -- forever and now decode to 1 and 0
    have small (word : UInt64)
        (tiny : (timeToClockAndValue otherClocks word).2 < 3) :
        saturated (clockOf clocks time) sum ≠ word := by
      rintro rfl
      rw [decoded, UInt64.lt_iff_toNat_lt] at tiny
      change value.toNat < 3 at tiny
      omega
    rw [toNat_timeout (small timeForever (show (1 : UInt64) < 3 by decide))
      (small timeNow (show (0 : UInt64) < 3 by decide)) decoded]
    omega

/-- Five nanoseconds from now, asked for when two of them have passed; the other
clocks have not started. -/
theorem thousand_timeout_now :
    (timeout ⟨1002, 0, 0⟩ (dispatchTime ⟨1000, 0, 0⟩ timeNow 5)).toNat = 3 :=
  toNat_timeout_dispatchTime ⟨by decide, by decide⟩
    ⟨by decide, by decide, by decide⟩ rfl (by decide) ⟨1002, 0, 0⟩

end LibDispatch.Time
