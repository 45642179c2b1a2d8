import ThyristorController.Lib.Run
import ThyristorController.Drivers.Hwtimer

/-!
# The time of a hardware timer

`rt_hwtimer_read` adds the counter to the periods that the overflow interrupts have counted. The counter wraps by
itself, the interrupt comes later. A read in between finds a counter that has started again and a count of periods that
has not moved on, and its time lies before that of a read behind the wrap. No other read goes back
(`reads_do_not_go_back`).
-/

namespace ThyristorController.Hwtimers

open Transition RatFloat

/-! ## The counter and its interrupt -/

/-- A running timer: `top` is the counter of `ops->start`, `pending` whether an overflow waits for its interrupt. -/
structure CounterState where
  timer : RtHwtimer
  top : Nat
  cnt : Nat
  pending : Bool

inductive CounterAction where
  | tick | interrupt | read
deriving DecidableEq

/-- What `rt_hwtimer_read` returns in a state. -/
def readTime (s : CounterState) : Option RtHwtimerval := (rtHwtimerRead .exact s.timer s.cnt 8).bind (·.2)

/-- The overflow count and the time value are within their types. -/
def counterStep (s : CounterState) : CounterAction → Option CounterState
  | .tick =>
    some (if s.cnt + 1 < s.top then { s with cnt := s.cnt + 1 } else { s with cnt := 0, pending := true })
  | .interrupt =>
    if s.pending = true ∧ s.timer.overflow + 1 < 2 ^ 31 then
      some { s with timer := (rtDeviceHwtimerIsr s.timer).1, pending := false }
    else none
  | .read => if (readTime s).isSome then some s else none

/-- A timer that counts up, started by `rt_hwtimer_write` in a periodic mode, with one period for a cycle. -/
def Started (s : CounterState) : Prop :=
  ∃ timer tv, (0 < timer.freq ∧ timer.info.cntmode = .up ∧ timer.ops.countGet = true) ∧
    timer.mode = .period ∧ rtHwtimerWrite .exact timer tv 8 true = some (s.timer, 8, some ⟨s.top, .period⟩) ∧
    s.timer.reload = 1 ∧ s.cnt = 0 ∧ s.pending = false

def counter : System CounterState CounterAction where
  init := Started
  step := counterStep

abbrev Reads := History CounterState CounterAction

variable {h : Reads} {s s' : CounterState} {a : CounterAction}

/-! ## Times -/

/-- A time value in microseconds. -/
def RtHwtimerval.micros (tv : RtHwtimerval) : Int := tv.sec * 1000000 + tv.usec

/-- The time that the last read returned. -/
def lastRead : Reads → Option RtHwtimerval
  | [] => none
  | (s, .read) :: _ => readTime s
  | (_, .tick) :: h | (_, .interrupt) :: h => lastRead h

/-- The counter at the last read, if no overflow interrupt has been taken since. -/
def countSince : Reads → Option Nat
  | [] => none
  | (s, .read) :: _ => some s.cnt
  | (_, .interrupt) :: _ => none
  | (_, .tick) :: h => countSince h

/-- A read does not return a time before the one of the last read. -/
def NotBack (h : Reads) (s : CounterState) (a : CounterAction) : Prop :=
  a = .read → ∀ tv ∈ readTime s, ∀ earlier ∈ lastRead h, earlier.micros ≤ tv.micros

/-- A read that finds an overflow waiting for its interrupt finds the counter where the last read found it, or above. -/
def NotBehind (h : Reads) (s : CounterState) (a : CounterAction) : Prop :=
  a = .read → s.pending = true → ∀ cnt ∈ countSince h, cnt ≤ s.cnt

/-- The exact time of a state, in seconds. -/
def CounterState.time (s : CounterState) : ℚ := s.timer.overflow * s.timer.periodSec + s.cnt / s.timer.freq

theorem floor_split (t : ℚ) : ⌊t⌋ * 1000000 + ⌊(t - ⌊t⌋) * 1000000⌋ = ⌊t * 1000000⌋ := by
  have hsplit : (t - ⌊t⌋) * 1000000 = t * 1000000 - ((⌊t⌋ * 1000000 : Int) : ℚ) := by
    push_cast
    ring
  rw [hsplit, Int.floor_sub_intCast]
  ring

theorem toInt32_eq {x : ℚ} {n : Int} (hx : 0 ≤ x) (hn : toInt32 x = some n) : n = ⌊x⌋ := by
  unfold toInt32 at hn
  split_ifs at hn
  rw [← ratTrunc_of_nonneg hx]
  exact (Option.some.inj hn).symm

theorem readTime_micros (hup : s.timer.info.cntmode = .up) (hget : s.timer.ops.countGet = true) (htime : 0 ≤ s.time)
    {tv : RtHwtimerval} (htv : readTime s = some tv) : tv.micros = ⌊s.time * 1000000⌋ := by
  simp only [readTime, rtHwtimerRead, hget, hup, Rounding.exact_rnd, Bool.true_eq_false, if_false, reduceCtorEq,
    Option.bind_eq_bind, Option.bind_some, Option.bind_eq_some_iff, Option.some.injEq] at htv
  obtain ⟨read, ⟨sec, hsec, usec, husec, rfl⟩, hread⟩ := htv
  obtain rfl := Option.some.inj hread
  obtain rfl := toInt32_eq htime hsec
  obtain rfl := toInt32_eq (mul_nonneg (sub_nonneg.mpr (Int.floor_le _)) (by norm_num)) husec
  exact floor_split _

/-! ## The count and the counter -/

/-- A started timer counts up to at most a period. -/
structure CounterOk (s : CounterState) : Prop where
  up : s.timer.info.cntmode = .up
  countGet : s.timer.ops.countGet = true
  freq : 0 < s.timer.freq
  overflow : 0 ≤ s.timer.overflow
  period : (s.top : ℚ) ≤ s.timer.periodSec * s.timer.freq
  cnt : s.cnt ≤ s.top

theorem CounterOk.freq_pos (hi : CounterOk s) : (0 : ℚ) < s.timer.freq := by exact_mod_cast hi.freq

theorem counterOk_started (hs : Started s) : CounterOk s := by
  obtain ⟨timer, tv, ⟨hfreq, hup, hget⟩, -, hwrite, -, hcnt, -⟩ := hs
  obtain ⟨hops, hinfo, hsame, hover, hperiod⟩ :=
    @timeoutCalc_period { timer with overflow := 0 } _ _ _ hfreq (rtHwtimerWrite_started hwrite)
  refine ⟨by rw [hinfo, hup], by rw [hops, hget], by rw [hsame]; exact hfreq, hover.ge, hperiod, ?_⟩
  rw [hcnt]
  exact Nat.zero_le _

theorem isr_frame (timer : RtHwtimer) : (rtDeviceHwtimerIsr timer).1.info = timer.info ∧
    (rtDeviceHwtimerIsr timer).1.ops = timer.ops ∧ (rtDeviceHwtimerIsr timer).1.freq = timer.freq ∧
      (rtDeviceHwtimerIsr timer).1.overflow = timer.overflow + 1 ∧
        (rtDeviceHwtimerIsr timer).1.periodSec = timer.periodSec := by
  unfold rtDeviceHwtimerIsr
  dsimp only
  split_ifs <;> exact ⟨rfl, rfl, rfl, rfl, rfl⟩

theorem counterOk_step (hi : CounterOk s) (hstep : counter.step s a = some s') : CounterOk s' := by
  obtain ⟨hup, hget, hfreq, hover, hperiod, hcnt⟩ := id hi
  cases a with
  | tick =>
    obtain rfl := Option.some.inj hstep
    split_ifs with hlt
    · exact ⟨hup, hget, hfreq, hover, hperiod, hlt.le⟩
    · exact ⟨hup, hget, hfreq, hover, hperiod, Nat.zero_le _⟩
  | interrupt =>
    obtain ⟨-, heq⟩ := Option.ite_none_right_eq_some.mp hstep
    obtain rfl := Option.some.inj heq
    obtain ⟨hinfo, hops, hf, ho, hp⟩ := isr_frame s.timer
    exact ⟨by rw [hinfo, hup], by rw [hops, hget], by rw [hf]; exact hfreq, by rw [ho]; omega,
      by rw [hp, hf]; exact hperiod, hcnt⟩
  | read =>
    obtain ⟨-, heq⟩ := Option.ite_none_right_eq_some.mp hstep
    obtain rfl := Option.some.inj heq
    exact hi

theorem counterOk (hrun : counter.Run h s) : CounterOk s :=
  hrun.always (I := fun _ s => CounterOk s) (fun _ hs => counterOk_started hs)
    fun _ _ _ _ _ hi hstep => counterOk_step hi hstep

theorem periodSec_nonneg (hi : CounterOk s) : 0 ≤ s.timer.periodSec := by
  have hle : (0 : ℚ) ≤ s.timer.periodSec * s.timer.freq := (Nat.cast_nonneg s.top).trans hi.period
  exact nonneg_of_mul_nonneg_left hle hi.freq_pos

theorem time_nonneg (hi : CounterOk s) : 0 ≤ s.time := by
  have hover : (0 : ℚ) ≤ s.timer.overflow := by exact_mod_cast hi.overflow
  exact add_nonneg (mul_nonneg hover (periodSec_nonneg hi)) (div_nonneg (Nat.cast_nonneg _) hi.freq_pos.le)

theorem cnt_le_period (hi : CounterOk s) {cnt : Nat} (hcnt : cnt ≤ s.top) :
    (cnt : ℚ) / s.timer.freq ≤ s.timer.periodSec := by
  rw [div_le_iff₀ hi.freq_pos]
  exact le_trans (by exact_mod_cast hcnt) hi.period

/-- The exact time of the last read. -/
def lastTime : Reads → Option ℚ
  | [] => none
  | (s, .read) :: _ => some s.time
  | (_, .tick) :: h | (_, .interrupt) :: h => lastTime h

/-- The last read lies at a counter of this period, or in an earlier period. -/
structure ReadOk (h : Reads) (s : CounterState) : Prop where
  same : ∀ cnt ∈ countSince h, lastTime h = some (s.timer.overflow * s.timer.periodSec + cnt / s.timer.freq) ∧
    cnt ≤ s.top ∧ (s.pending = false → cnt ≤ s.cnt)
  before : countSince h = none → ∀ t ∈ lastTime h, t ≤ s.timer.overflow * s.timer.periodSec
  micros : ∀ tv ∈ lastRead h, ∃ t ∈ lastTime h, tv.micros = ⌊t * 1000000⌋

theorem readOk_step (hok : CounterOk s) (hi : ReadOk h s) (hstep : counter.step s a = some s') :
    ReadOk ((s, a) :: h) s' := by
  obtain ⟨hsame, hbefore, hmicros⟩ := hi
  cases a with
  | tick =>
    obtain rfl := Option.some.inj hstep
    split_ifs with hlt
    · refine ⟨fun cnt hc => ?_, hbefore, hmicros⟩
      obtain ⟨ht, htop, hup⟩ := hsame cnt hc
      exact ⟨ht, htop, fun hp => Nat.le_succ_of_le (hup hp)⟩
    · refine ⟨fun cnt hc => ?_, hbefore, hmicros⟩
      obtain ⟨ht, htop, -⟩ := hsame cnt hc
      exact ⟨ht, htop, nofun⟩
  | interrupt =>
    obtain ⟨-, heq⟩ := Option.ite_none_right_eq_some.mp hstep
    obtain rfl := Option.some.inj heq
    obtain ⟨-, -, -, hover, hperiod⟩ := isr_frame s.timer
    refine ⟨nofun, fun _ t ht => ?_, hmicros⟩
    dsimp only
    rw [hover, hperiod]
    push_cast
    -- the last read lies in the period that ends here, or before
    cases hc : countSince h with
    | some cnt =>
      obtain ⟨htime, htop, -⟩ := hsame cnt hc
      obtain rfl : _ = t := Option.some.inj (htime.symm.trans ht)
      linarith [cnt_le_period hok htop]
    | none => linarith [hbefore hc t ht, periodSec_nonneg hok]
  | read =>
    obtain ⟨-, heq⟩ := Option.ite_none_right_eq_some.mp hstep
    obtain rfl := Option.some.inj heq
    refine ⟨?_, nofun, ?_⟩
    · rintro cnt ⟨rfl⟩
      exact ⟨rfl, hok.cnt, fun _ => le_refl _⟩
    · exact fun tv htv => ⟨s.time, rfl, readTime_micros hok.up hok.countGet (time_nonneg hok) htv⟩

theorem readOk (hrun : counter.Run h s) : ReadOk h s := by
  refine hrun.always (I := ReadOk) ?_ ?_
  · exact fun s _ => ⟨nofun, fun _ => nofun, nofun⟩
  · exact fun h s a s' hr hi hstep => readOk_step (counterOk hr) hi hstep

/-- If no read finds an overflow waiting for its interrupt with the counter below the last read, no read goes back. -/
theorem reads_do_not_go_back (hrun : counter.Run h s) (hreads : Throughout NotBehind h) : Throughout NotBack h := by
  refine hrun.throughout (I := fun h s => CounterOk s ∧ ReadOk h s) (G := NotBehind) ?_ ?_ hreads
  · exact fun h s hr _ => ⟨counterOk hr, readOk hr⟩
  · intro h s a s' hr hi hbehind _ hread tv htv earlier hearlier
    obtain ⟨hok, hsame, hbefore, hmicros⟩ := hi
    have hpos := hok.freq_pos
    have hlast : ∀ t ∈ lastTime h, t ≤ s.time := by
      intro t ht
      cases hc : countSince h with
      | some cnt =>
        obtain ⟨htime, -, hup⟩ := hsame cnt hc
        obtain rfl : _ = t := Option.some.inj (htime.symm.trans ht)
        have hle : cnt ≤ s.cnt := by
          cases hp : s.pending with
          | true => exact hbehind hread hp cnt hc
          | false => exact hup hp
        have hdiv : (cnt : ℚ) / s.timer.freq ≤ s.cnt / s.timer.freq :=
          (div_le_div_iff_of_pos_right hpos).mpr (by exact_mod_cast hle)
        exact add_le_add_right hdiv _
      | none =>
        have hnonneg : (0 : ℚ) ≤ s.cnt / s.timer.freq := div_nonneg (Nat.cast_nonneg _) hpos.le
        exact (hbefore hc t ht).trans (le_add_of_nonneg_right hnonneg)
    obtain ⟨t, ht, hearlier'⟩ := hmicros earlier hearlier
    rw [hearlier', readTime_micros hok.up hok.countGet (time_nonneg hok) htv]
    exact Int.floor_le_floor (mul_le_mul_of_nonneg_right (hlast t ht) (by norm_num))

/-! ## Runs -/

instance (h : Reads) (s : CounterState) (a : CounterAction) : Decidable (NotBack h s a) :=
  inferInstanceAs (Decidable (a = .read → ∀ tv ∈ readTime s, ∀ earlier ∈ lastRead h, earlier.micros ≤ tv.micros))

instance (h : Reads) (s : CounterState) (a : CounterAction) : Decidable (NotBehind h s a) :=
  inferInstanceAs (Decidable (a = .read → s.pending = true → ∀ cnt ∈ countSince h, cnt ≤ s.cnt))

/-- A timer at 1 MHz that has been started for three ticks. -/
def threeTicks : CounterState where
  timer := { boardTimer 1000000 with periodSec := 3 / 1000000, cycles := 1, reload := 1, mode := .period }
  top := 3
  cnt := 0
  pending := false

theorem started_threeTicks : Started threeTicks := by
  have hticks : tvSeconds .exact ⟨0, 3⟩ * ((1000000 : Int) : ℚ) = 3 := by norm_num [tvSeconds]
  have hcycles : cyclesFor 3 1000000 0xFFFF = some (some 1) :=
    FirstRise.search_exact 2147483646 none (by norm_num [Fits]) zero_lt_one (by norm_num [leftOver])
  have hcalc := @timeoutCalc_exact { boardTimer 1000000 with mode := .period } ⟨0, 3⟩ 3 (by decide) (by decide)
    hticks (by norm_num)
  have hsplit : timeoutCalc .exact { boardTimer 1000000 with mode := .period } ⟨0, 3⟩ = some (threeTicks.timer, 3) := by
    have hjoin : (cyclesFor 3 (boardTimer 1000000).freq (boardTimer 1000000).info.maxcnt).join = some 1 :=
      Option.join_eq_some_iff.mpr hcycles
    rw [hcalc, hjoin]
    norm_num [threeTicks, boardTimer]
    rfl
  refine ⟨{ boardTimer 1000000 with mode := .period }, ⟨0, 3⟩, by decide, rfl, ?_, rfl, rfl, rfl⟩
  have hsplit' : timeoutCalc .exact { boardTimer 1000000 with mode := .period, overflow := 0 } ⟨0, 3⟩ =
      some (threeTicks.timer, 3) := hsplit
  have hops : ¬ ((boardTimer 1000000).ops.start = false ∨ (boardTimer 1000000).ops.stop = false) := by decide
  rw [rtHwtimerWrite, if_neg hops, if_neg (by decide)]
  dsimp only
  rw [hsplit']
  rfl

/-- A read before a wrap and a read behind its interrupt. -/
theorem reads_do_not_go_back_run : ∃ h s, counter.Run h s ∧ lastRead h = some ⟨0, 3⟩ ∧ Throughout NotBack h := by
  obtain ⟨h, s, hrun, hreads, hlast⟩ := counter.exists_run started_threeTicks
    [.tick, .tick, .read, .tick, .interrupt, .read]
    (fun h _ => Throughout NotBehind h ∧ lastRead h = some ⟨0, 3⟩) (by decide +kernel)
  exact ⟨h, s, hrun, hlast, reads_do_not_go_back hrun hreads⟩

/-- A read between a wrap and its interrupt. -/
theorem read_goes_back : ∃ h s, counter.Run h s ∧ ¬ Throughout NotBack h :=
  counter.exists_run started_threeTicks [.tick, .tick, .read, .tick, .read] (fun h _ => ¬ Throughout NotBack h)
    (by decide +kernel)

end ThyristorController.Hwtimers
