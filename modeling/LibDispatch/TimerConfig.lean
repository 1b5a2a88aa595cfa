import LibDispatch.Time
import LibDispatch.TimerSource

namespace LibDispatch.TimerConfig

/-!
# Configurations of timers

`_dispatch_interval_config_create` of `source.c` turns an interval and a leeway
into a configuration, which the manager applies later.  An interval timer counts
milliseconds or frames of an animation, fires at the multiples of its interval
and takes its leeway in thousandths of it.
-/

open Time (Clock Clocks timeNow timeForever nsecPerSec)
open TimerSource (Timer int64Max uint64Max)

/-- `struct dispatch_timer_config_s`. -/
structure Config where
  clock : Clock
  timer : Timer
  deriving Repr, DecidableEq

/-- The ways in which a call ends the process. -/
inductive Crash where
  | notNowOrForever
  | zeroInterval
  | invalidLeeway
  deriving Repr, DecidableEq

/-- `NSEC_PER_MSEC`. -/
def nsecPerMsec : UInt64 := 1000000

/-- `NSEC_PER_FRAME`. -/
def nsecPerFrame : UInt64 := nsecPerSec / 60

/-- `FOREVER_NSEC`, about a year. -/
def foreverNsec : UInt64 := 31536000000000000

variable (animation : Bool)

/-- What the interval of an interval timer counts. -/
def nsecPerUnit : UInt64 :=
  if animation then nsecPerFrame else nsecPerMsec

/-- The interval in nanoseconds, which is a year at most. -/
def scaledInterval (interval : UInt64) : UInt64 :=
  if interval ≤ foreverNsec / nsecPerUnit animation then
    interval * nsecPerUnit animation
  else
    foreverNsec

/-- `_dispatch_interval_config_create`.  The conversion between nanoseconds and
host time is the identity on this platform. -/
def intervalConfigCreate
    (clocks : Clocks)
    (animation : Bool)
    (start interval leeway : UInt64) :
    Except Crash Config :=
  if start = timeForever then
    .ok ⟨.uptime, int64Max, int64Max, int64Max⟩
  else if start ≠ timeNow then
    .error .notNowOrForever
  else if interval = 0 then
    .error .zeroInterval
  else
    let interval := scaledInterval animation interval
    let start := clocks.uptime + interval
    let start := start - start % interval
    if leeway ≤ 1000 then
      .ok ⟨.uptime, start, start + interval * leeway / 1000, interval⟩
    else if leeway ≠ uint64Max then
      .error .invalidLeeway
    else if animation then
      .ok ⟨.uptime, start, start + nsecPerFrame, interval⟩
    else
      .ok ⟨.uptime, start, start + interval / 2, interval⟩

/-! ## Intervals -/

/-- The interval in nanoseconds as a number. -/
def effectiveInterval (interval : Nat) : Nat :=
  let unit := if animation then 10 ^ 9 / 60 else 10 ^ 6
  if interval ≤ 31536 * 10 ^ 12 / unit then interval * unit
  else 31536 * 10 ^ 12

/-- The product with the unit does not wrap. -/
theorem toNat_scaledInterval (interval : UInt64) :
    (scaledInterval animation interval).toNat =
      effectiveInterval animation interval.toNat := by
  unfold scaledInterval effectiveInterval
  cases animation with
  | false =>
    have unit : (nsecPerUnit false).toNat = 10 ^ 6 := by decide
    have most : (foreverNsec / nsecPerUnit false).toNat =
        31536 * 10 ^ 12 / 10 ^ 6 := by decide
    simp only [UInt64.le_iff_toNat_le, most, Bool.false_eq_true, if_false]
    split_ifs with fits
    · rw [UInt64.toNat_mul, unit, Nat.mod_eq_of_lt (by omega)]
    · rfl
  | true =>
    have unit : (nsecPerUnit true).toNat = 10 ^ 9 / 60 := by decide
    have most : (foreverNsec / nsecPerUnit true).toNat =
        31536 * 10 ^ 12 / (10 ^ 9 / 60) := by decide
    simp only [UInt64.le_iff_toNat_le, most, if_true]
    split_ifs with fits
    · rw [UInt64.toNat_mul, unit, Nat.mod_eq_of_lt (by omega)]
    · rfl

theorem effectiveInterval_pos
    {interval : Nat}
    (positive : 1 ≤ interval) :
    0 < effectiveInterval animation interval := by
  unfold effectiveInterval
  cases animation <;> dsimp only <;> split_ifs <;> omega

theorem effectiveInterval_le (interval : Nat) :
    effectiveInterval animation interval ≤ 31536 * 10 ^ 12 := by
  unfold effectiveInterval
  cases animation <;> dsimp only <;> split_ifs <;> omega

/-! ## Targets and deadlines -/

/-- A timer that fires at the next multiple of its interval, with a leeway in
thousandths of the interval. -/
structure IntervalSound
    (uptime interval leeway : Nat)
    (timer : Timer) : Prop where
  period : timer.interval.toNat = interval
  aligned : interval ∣ timer.target.toNat
  later : uptime < timer.target.toNat
  soon : timer.target.toNat ≤ uptime + interval
  leeway : timer.deadline.toNat = timer.target.toNat + interval * leeway / 1000
  ordered : timer.target ≤ timer.deadline
  bounded : timer.deadline.toNat ≤ timer.target.toNat + interval

variable {interval : UInt64}

/-- The next multiple of the interval after the present. -/
theorem toNat_start
    {uptime : UInt64}
    (early : uptime.toNat < 2 ^ 62)
    (short : interval.toNat ≤ 31536 * 10 ^ 12) :
    (uptime + interval - (uptime + interval) % interval).toNat =
      uptime.toNat + interval.toNat -
        (uptime.toNat + interval.toNat) % interval.toNat := by
  have sum : (uptime + interval).toNat = uptime.toNat + interval.toNat := by
    rw [UInt64.toNat_add, Nat.mod_eq_of_lt (by omega)]
  have rest :
      ((uptime + interval) % interval).toNat =
        (uptime.toNat + interval.toNat) % interval.toNat := by
    rw [UInt64.toNat_mod, sum]
  have below : (uptime + interval) % interval ≤ uptime + interval := by
    rw [UInt64.le_iff_toNat_le, rest, sum]
    exact Nat.mod_le _ _
  rw [UInt64.toNat_sub_of_le _ _ below, sum, rest]

/-- The next multiple of a number is after the present and not too late. -/
theorem nextMultiple_bounds
    (uptime : Nat)
    {interval : Nat}
    (positive : 0 < interval) :
    interval ∣ uptime + interval - (uptime + interval) % interval ∧
    uptime < uptime + interval - (uptime + interval) % interval ∧
    uptime + interval - (uptime + interval) % interval ≤ uptime + interval := by
  have rest := Nat.mod_lt (uptime + interval) positive
  refine ⟨Nat.dvd_sub_mod _, ?_, Nat.sub_le _ _⟩
  omega

/-- The leeway is a thousandth of the wrapped product. -/
theorem toNat_leeway (interval leeway : UInt64) :
    (interval * leeway / 1000).toNat =
      interval.toNat * leeway.toNat % 2 ^ 64 / 1000 := by
  rw [UInt64.toNat_div, UInt64.toNat_mul]
  rfl

/-- A thousandth of a wrapped product is right only when it has not wrapped. -/
theorem mod_div_eq_iff (product : Nat) :
    product % 2 ^ 64 / 1000 = product / 1000 ↔ product < 2 ^ 64 := by
  omega

variable {leeway : UInt64}

/-- The configuration of an interval timer that starts now. -/
theorem intervalConfigCreate_of_now
    (clocks : Clocks)
    (animation : Bool)
    (positive : 1 ≤ interval.toNat)
    (perMille : leeway.toNat ≤ 1000) :
    intervalConfigCreate clocks animation timeNow interval leeway =
      .ok
        ⟨.uptime,
          clocks.uptime + scaledInterval animation interval -
            (clocks.uptime + scaledInterval animation interval) %
              scaledInterval animation interval,
          clocks.uptime + scaledInterval animation interval -
              (clocks.uptime + scaledInterval animation interval) %
                scaledInterval animation interval +
            scaledInterval animation interval * leeway / 1000,
          scaledInterval animation interval⟩ := by
  have nonzero : interval ≠ 0 := by
    rintro rfl
    exact absurd positive (by decide)
  have small : leeway ≤ 1000 := UInt64.le_iff_toNat_le.mpr perMille
  have finite : timeNow ≠ timeForever := by decide
  have isNow : ¬ timeNow ≠ timeNow := fun different => different rfl
  simp only [intervalConfigCreate, if_neg finite, if_neg isNow,
    if_neg nonzero, if_pos small]

/-- An interval timer that starts now fires at the next multiple of its interval
with the leeway asked for exactly when the product of its interval and its leeway
fits 64 bits. -/
theorem intervalConfigCreate_sound_iff
    {clocks : Clocks}
    {animation : Bool}
    {interval leeway : UInt64}
    (positive : 1 ≤ interval.toNat)
    (perMille : leeway.toNat ≤ 1000)
    (early : clocks.uptime.toNat < 2 ^ 62) :
    (∃ config,
      intervalConfigCreate clocks animation timeNow interval leeway =
        .ok config ∧
      config.clock = .uptime ∧
      IntervalSound clocks.uptime.toNat
        (effectiveInterval animation interval.toNat) leeway.toNat
        config.timer) ↔
      effectiveInterval animation interval.toNat * leeway.toNat < 2 ^ 64 := by
  rw [intervalConfigCreate_of_now clocks animation positive perMille]
  have short := effectiveInterval_le animation interval.toNat
  have long := effectiveInterval_pos animation positive
  have scaled := toNat_scaledInterval animation interval
  generalize effectiveInterval animation interval.toNat = effective at *
  generalize scaledInterval animation interval = word at *
  have target := toNat_start early (scaled.trans_le short)
  rw [scaled] at target
  obtain ⟨aligned, later, soon⟩ :=
    nextMultiple_bounds clocks.uptime.toNat long
  have slack := toNat_leeway word leeway
  rw [scaled] at slack
  have wrapped : effective * leeway.toNat % 2 ^ 64 / 1000 < 2 ^ 62 := by
    omega
  generalize isTarget :
    clocks.uptime + word - (clocks.uptime + word) % word = start at *
  have deadline :
      (start + word * leeway / 1000).toNat =
        start.toNat + effective * leeway.toNat % 2 ^ 64 / 1000 := by
    rw [UInt64.toNat_add, slack, Nat.mod_eq_of_lt (by omega)]
  constructor
  · rintro ⟨config, created, -, sound⟩
    obtain rfl := Except.ok.inj created
    have slackOfTimer := sound.leeway
    dsimp only at slackOfTimer
    rw [deadline] at slackOfTimer
    exact (mod_div_eq_iff _).mp (Nat.add_left_cancel slackOfTimer)
  · intro fits
    have noWrap := (mod_div_eq_iff _).mpr fits
    rw [noWrap] at deadline
    have share : effective * leeway.toNat / 1000 ≤ effective := by
      calc effective * leeway.toNat / 1000
          ≤ effective * 1000 / 1000 :=
            Nat.div_le_div_right (Nat.mul_le_mul_left _ perMille)
        _ = effective := Nat.mul_div_cancel _ (by decide)
    refine ⟨_, rfl, rfl, ?_⟩
    exact
      { period := scaled
        aligned := by rw [target]; exact aligned
        later := by rw [target]; exact later
        soon := by rw [target]; exact soon
        leeway := deadline
        ordered := by
          rw [UInt64.le_iff_toNat_le, deadline]
          exact Nat.le_add_right _ _
        bounded := by
          rw [deadline]
          exact Nat.add_le_add_left share _ }

/-- A timer of one second with a leeway of a tenth of it. -/
theorem everySecond_sound :
    ∃ config,
      intervalConfigCreate Time.thousand false timeNow 1000 100 =
        .ok config ∧
      config.clock = .uptime ∧
      IntervalSound Time.thousand.uptime.toNat
        (effectiveInterval false (1000 : UInt64).toNat) (100 : UInt64).toNat
        config.timer :=
  (intervalConfigCreate_sound_iff (by decide) (by decide) (by decide)).mpr
    (by decide)

/-- A timer of 214 days with a leeway of the whole interval gets a leeway of
0.3 milliseconds. -/
theorem longInterval_leewayWraps :
    effectiveInterval false (18446744074 : UInt64).toNat =
        18446744074000000 ∧
      intervalConfigCreate Time.thousand false timeNow 18446744074 1000 =
        .ok
          ⟨.uptime, 18446744074000000, 18446744074000000 + 290448,
            18446744074000000⟩ ∧
      ∀ config,
        intervalConfigCreate Time.thousand false timeNow 18446744074 1000 =
          .ok config →
        ¬ IntervalSound Time.thousand.uptime.toNat
            (effectiveInterval false (18446744074 : UInt64).toNat)
            (1000 : UInt64).toNat config.timer := by
  have created :
      intervalConfigCreate Time.thousand false timeNow 18446744074 1000 =
        .ok
          ⟨.uptime, 18446744074000000, 18446744074000000 + 290448,
            18446744074000000⟩ := by
    decide
  refine ⟨by decide, created, ?_⟩
  intro config isConfig sound
  obtain rfl := Except.ok.inj (created.symm.trans isConfig)
  exact absurd sound.leeway (by decide)

end LibDispatch.TimerConfig
