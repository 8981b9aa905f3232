import Mathlib.Tactic.Common
import PolandOS.Lib.Fuel

/-! # The clock

`kernel/drivers/rtc.c`. `rtc_read` reads the registers twice and compares, but it waits for
the end of an update before each of the two: `double_read_disagrees` says that the two never
agree.
-/

namespace PolandOS.Rtc

open Fuel

/-! ## The device -/

/-- `RTC_REG_SECONDS`. -/
def rtcRegSeconds : UInt8 := 0x00

/-- `RTC_REG_MINUTES`. -/
def rtcRegMinutes : UInt8 := 0x02

/-- `RTC_REG_HOURS`. -/
def rtcRegHours : UInt8 := 0x04

/-- `RTC_REG_DAY`. -/
def rtcRegDay : UInt8 := 0x07

/-- `RTC_REG_MONTH`. -/
def rtcRegMonth : UInt8 := 0x08

/-- `RTC_REG_YEAR`. -/
def rtcRegYear : UInt8 := 0x09

/-- `RTC_REG_STATUS_A`. -/
def rtcRegStatusA : UInt8 := 0x0A

/-- `RTC_REG_STATUS_B`. -/
def rtcRegStatusB : UInt8 := 0x0B

/-- `RTC_UIP`, update in progress. -/
def rtcUip : UInt8 := 0x80

/-- `RTC_SB_24H`. -/
def rtcSb24h : UInt8 := 0x02

/-- `RTC_SB_BINARY`. -/
def rtcSbBinary : UInt8 := 0x04

/-- The digits of a number below a hundred. -/
def toBcd (n : Nat) : UInt8 := (n / 10 * 16 + n % 10).toUInt8

/-- A running clock, at each access that is made to it: the update bit, the seconds that were
on the clock at the first one, the status registers, and the date as it goes with the
seconds. The bit is raised again and again, and lowered again. -/
structure Clock where
  uip : Nat → Bool
  start : Nat
  statusA : UInt8
  statusB : UInt8
  date : UInt8 → Nat → UInt8
  raised : ∀ t, ∃ u ≥ t, uip u = true
  lowered : ∀ t, ∃ u ≥ t, uip u = false

/-- The updates that have been completed: the bit has been lowered so often. -/
def Clock.updates (c : Clock) : Nat → Nat
  | 0 => 0
  | t + 1 => c.updates t + if c.uip t = true ∧ c.uip (t + 1) = false then 1 else 0

/-- Each completed update is a second. -/
def Clock.seconds (c : Clock) (t : Nat) : Nat := c.start + c.updates t

/-- A number below sixty in the format of the clock. -/
def Clock.encode (c : Clock) (n : Nat) : UInt8 :=
  if c.statusB &&& rtcSbBinary != 0 then n.toUInt8 else toBcd n

/-- A register at an access. -/
def Clock.register (c : Clock) (reg : UInt8) (t : Nat) : UInt8 :=
  if reg = rtcRegSeconds then c.encode (c.seconds t % 60)
  else if reg = rtcRegStatusA then
    if c.uip t then c.statusA ||| rtcUip else c.statusA &&& ~~~rtcUip
  else if reg = rtcRegStatusB then c.statusB
  else c.date reg (c.seconds t)

/-! ## Reading -/

/-- `cmos_read`: what is read, and the number of the next access. -/
def cmosRead (c : Clock) (reg : UInt8) (t : Nat) : UInt8 × Nat := (c.register reg t, t + 1)

/-- `rtc_update_in_progress`. -/
def rtcUpdateInProgress (c : Clock) (t : Nat) : Bool × Nat :=
  let (sta, t) := cmosRead c rtcRegStatusA t
  (sta &&& rtcUip != 0, t)

/-- The two loops of `rtc_wait_ready`: the bit is polled until it has this value. -/
def waitUntil (c : Clock) (set : Bool) : Nat → Nat → Option Nat
  | 0, _ => none
  | fuel + 1, t =>
    let (busy, t) := rtcUpdateInProgress c t
    if busy = set then some t else waitUntil c set fuel t

/-- `rtc_wait_ready`. -/
def rtcWaitReady (c : Clock) (fuel t : Nat) : Option Nat :=
  (waitUntil c true fuel t).bind fun t => waitUntil c false fuel t

/-- `RTCTime`. -/
structure RTCTime where
  seconds : UInt8
  minutes : UInt8
  hours : UInt8
  day : UInt8
  month : UInt8
  year : UInt16
deriving DecidableEq, Repr

/-- `rtc_read_regs`. -/
def rtcReadRegs (c : Clock) (t : Nat) : RTCTime × Nat :=
  let (seconds, t) := cmosRead c rtcRegSeconds t
  let (minutes, t) := cmosRead c rtcRegMinutes t
  let (hours, t) := cmosRead c rtcRegHours t
  let (day, t) := cmosRead c rtcRegDay t
  let (month, t) := cmosRead c rtcRegMonth t
  let (year, t) := cmosRead c rtcRegYear t
  (⟨seconds, minutes, hours, day, month, year.toUInt16⟩, t)

/-- The body of the loop of `rtc_read`: both snapshots. -/
def readTwice (c : Clock) (fuel t : Nat) : Option (RTCTime × RTCTime × Nat) :=
  (rtcWaitReady c fuel t).bind fun t =>
    let (t1, t) := rtcReadRegs c t
    (rtcWaitReady c fuel t).bind fun t =>
      let (t2, t) := rtcReadRegs c t
      some (t1, t2, t)

/-- The loop of `rtc_read`. -/
def readLoop (c : Clock) : Nat → Nat → Option (RTCTime × RTCTime × Nat)
  | 0, _ => none
  | fuel + 1, t =>
    (readTwice c fuel t).bind fun (t1, t2, t) =>
      if t1.seconds ≠ t2.seconds ∨ t1.minutes ≠ t2.minutes ∨ t1.hours ≠ t2.hours ∨
          t1.day ≠ t2.day ∨ t1.month ≠ t2.month ∨ t1.year ≠ t2.year then readLoop c fuel t
      else some (t1, t2, t)

/-- `bcd_to_bin`. -/
def bcdToBin (bcd : UInt8) : UInt8 := (bcd >>> 4) * 10 + (bcd &&& 0x0F)

/-- The hours of a day from those of a half, where `pm` says which. -/
def fullHours (pm : Bool) (hours : UInt8) : UInt8 :=
  if pm && hours != 12 then hours + 12 else if !pm && hours == 12 then 0 else hours

/-- What `rtc_read` makes of a snapshot. -/
def convert (sb : UInt8) (t1 : RTCTime) : RTCTime :=
  let is_binary := sb &&& rtcSbBinary != 0
  let is_24h := sb &&& rtcSb24h != 0
  let t1 :=
    if !is_binary then
      let pm := !is_24h && t1.hours &&& 0x80 != 0
      { seconds := bcdToBin t1.seconds
        minutes := bcdToBin t1.minutes
        hours := fullHours pm (bcdToBin (t1.hours &&& 0x7F))
        day := bcdToBin t1.day
        month := bcdToBin t1.month
        year := (bcdToBin t1.year.toUInt8).toUInt16 }
    else if !is_24h then
      { t1 with hours := fullHours (t1.hours &&& 0x80 != 0) (t1.hours &&& 0x7F) }
    else t1
  { t1 with year := t1.year + if t1.year < 100 then 2000 else 0 }

/-- `rtc_read`. -/
def rtcRead (c : Clock) (fuel t : Nat) : Option RTCTime :=
  (readLoop c fuel t).map fun (t1, _, t) => convert (cmosRead c rtcRegStatusB t).1 t1

/-! ## Waiting -/

variable {c : Clock} {b : Bool} {fuel t t' u p : Nat}

/-- The bit as it is read from status A. -/
theorem statusA_set (a : UInt8) : (a ||| rtcUip) &&& rtcUip = rtcUip := by
  apply UInt8.toBitVec_inj.mp
  ext i
  simp only [UInt8.toBitVec_and, UInt8.toBitVec_or, BitVec.getElem_and, BitVec.getElem_or]
  grind

theorem statusA_clear (a : UInt8) : a &&& ~~~rtcUip &&& rtcUip = 0 := by
  rw [UInt8.and_assoc, UInt8.not_and_self, UInt8.and_zero]

theorem rtcUpdateInProgress_eq (c : Clock) (t : Nat) :
    rtcUpdateInProgress c t = (c.uip t, t + 1) := by
  have hreg : c.register rtcRegStatusA t =
      if c.uip t then c.statusA ||| rtcUip else c.statusA &&& ~~~rtcUip := rfl
  simp only [rtcUpdateInProgress, cmosRead, hreg]
  cases c.uip t with
  | true =>
      rw [if_pos rfl, statusA_set]
      rfl
  | false =>
      rw [if_neg Bool.false_ne_true, statusA_clear]
      rfl

theorem waitUntil_succ : waitUntil c b (fuel + 1) t =
    if c.uip t = b then some (t + 1) else waitUntil c b fuel (t + 1) := by
  rw [waitUntil, rtcUpdateInProgress_eq]

/-- The poll ends behind the first access that finds the bit as it should be. -/
theorem waitUntil_eq_some (h : waitUntil c b fuel t = some t') :
    ∃ p ≥ t, t' = p + 1 ∧ c.uip p = b ∧ ∀ s, t ≤ s → s < p → c.uip s = !b := by
  induction fuel generalizing t with
  | zero => cases h
  | succ fuel ih =>
      rw [waitUntil_succ] at h
      split at h
      next hbit =>
        cases h
        exact ⟨t, le_refl t, rfl, hbit, fun s hle hlt => absurd hle (not_le.mpr hlt)⟩
      next hbit =>
        rcases ih h with ⟨p, hp, rfl, hpbit, hbefore⟩
        refine ⟨p, Nat.le_of_succ_le hp, rfl, hpbit, fun s hle hlt => ?_⟩
        rcases Nat.eq_or_lt_of_le hle with rfl | hlt'
        · exact Bool.eq_not.mpr hbit
        · exact hbefore s hlt' hlt

/-- On a running clock it ends. -/
theorem settles_waitUntil (h : ∃ u ≥ t, c.uip u = b) :
    ∃ t', Settles (fun fuel => waitUntil c b fuel t) (some t') := by
  rcases h with ⟨u, hu, hbit⟩
  obtain ⟨n, rfl⟩ := Nat.exists_eq_add_of_le hu
  clear hu
  induction n generalizing t with
  | zero =>
      refine ⟨t + 1, Settles.of_succ (.of_eq fun fuel => ?_)⟩
      rw [waitUntil_succ]
      exact if_pos hbit
  | succ n ih =>
      by_cases hnow : c.uip t = b
      · refine ⟨t + 1, Settles.of_succ (.of_eq fun fuel => ?_)⟩
        rw [waitUntil_succ, if_pos hnow]
      · have hbit' : c.uip (t + 1 + n) = b := by rwa [Nat.add_right_comm, Nat.add_assoc]
        rcases ih hbit' with ⟨t', ht'⟩
        refine ⟨t', Settles.of_succ (ht'.congr fun fuel => ?_)⟩
        rw [waitUntil_succ, if_neg hnow]

theorem settles_rtcWaitReady (c : Clock) (t : Nat) :
    ∃ t', Settles (fun fuel => rtcWaitReady c fuel t) (some t') := by
  rcases settles_waitUntil (c.raised t) with ⟨t₁, h₁⟩
  rcases settles_waitUntil (c.lowered t₁) with ⟨t₂, h₂⟩
  exact ⟨t₂, h₁.bind h₂⟩

/-! ## Updates -/

theorem updates_of_clear (h : c.uip t = false) : c.updates (t + 1) = c.updates t := by
  simp [Clock.updates, h]

theorem updates_of_set (h : c.uip (t + 1) = true) :
    c.updates (t + 1) = c.updates t := by
  simp [Clock.updates, h]

theorem updates_completed (h : c.uip t = true) (h' : c.uip (t + 1) = false) :
    c.updates (t + 1) = c.updates t + 1 := by
  simp [Clock.updates, h, h']

/-- At most one update is completed from an access to the next. -/
theorem updates_add (c : Clock) (t n : Nat) :
    c.updates t ≤ c.updates (t + n) ∧ c.updates (t + n) ≤ c.updates t + n := by
  induction n with
  | zero => exact ⟨le_refl _, le_refl _⟩
  | succ n ih =>
      rw [← Nat.add_assoc, Clock.updates]
      split <;> omega

/-- None is completed while the bit stays as it is. -/
theorem updates_of_steady (hsteady : ∀ s, t ≤ s → s ≤ p → c.uip s = b) (hle : t ≤ p) :
    c.updates p = c.updates t := by
  induction p, hle using Nat.le_induction with
  | base => rfl
  | succ p hle ih =>
      rw [← ih fun s hs hsp => hsteady s hs (Nat.le_succ_of_le hsp)]
      cases b with
      | false => exact updates_of_clear (hsteady p hle (Nat.le_succ p))
      | true => exact updates_of_set (hsteady (p + 1) (Nat.le_succ_of_le hle) (le_refl _))

/-- `rtc_wait_ready` waits until one more update is completed. -/
theorem updates_rtcWaitReady (h : rtcWaitReady c fuel t = some t') :
    c.updates t' = c.updates t + 1 := by
  rcases Option.bind_eq_some_iff.mp h with ⟨t₁, hset, hclear⟩
  rcases waitUntil_eq_some hset with ⟨p, hp, rfl, hpset, hbefore⟩
  rcases waitUntil_eq_some hclear with ⟨q, hq, rfl, hqclear, hbetween⟩
  -- up to `p` the bit is clear, and from there on it is set until `q`
  have hpupdates : c.updates p = c.updates t := by
    rcases Nat.eq_or_lt_of_le hp with rfl | hlt
    · rfl
    · obtain ⟨r, rfl⟩ := Nat.exists_eq_add_of_le' (Nat.one_le_of_lt hlt)
      rw [updates_of_clear (hbefore r (Nat.le_of_lt_succ hlt) (Nat.lt_succ_self r))]
      exact updates_of_steady (fun s hs hsr => hbefore s hs (Nat.lt_succ_of_le hsr))
        (Nat.le_of_lt_succ hlt)
  obtain ⟨r, rfl⟩ := Nat.exists_eq_add_of_le' (Nat.one_le_of_lt hq)
  have hset' : ∀ s, p ≤ s → s ≤ r → c.uip s = true := by
    intro s hs hsr
    rcases Nat.eq_or_lt_of_le hs with rfl | hlt
    · exact hpset
    · exact hbetween s hlt (Nat.lt_succ_of_le hsr)
  have hpr : p ≤ r := Nat.le_of_succ_le_succ hq
  rw [updates_of_clear hqclear, updates_completed (hset' r hpr (le_refl r)) hqclear,
    updates_of_steady hset' hpr, hpupdates]

/-! ## The two snapshots -/

theorem seconds_rtcReadRegs (c : Clock) (t : Nat) :
    (rtcReadRegs c t).1.seconds = c.encode (c.seconds t % 60) := rfl

/-- The snapshots are six accesses each, and there is a wait between them. -/
theorem readTwice_eq_some {t1 t2 : RTCTime} (h : readTwice c fuel t = some (t1, t2, t')) :
    ∃ s s', rtcWaitReady c fuel (s + 6) = some s' ∧ t1 = (rtcReadRegs c s).1 ∧
      t2 = (rtcReadRegs c s').1 := by
  rcases Option.bind_eq_some_iff.mp h with ⟨s, -, hsecond⟩
  rcases Option.bind_eq_some_iff.mp hsecond with ⟨s', hready, hsnapshots⟩
  have hpair := Option.some.inj hsnapshots
  exact ⟨s, s', hready, (congrArg Prod.fst hpair).symm,
    (congrArg (fun r => r.2.1) hpair).symm⟩

theorem encode_inj {m n : Nat} (hm : m < 60) (hn : n < 60) (h : c.encode m = c.encode n) :
    m = n := by
  unfold Clock.encode at h
  split at h
  · have hnat : m % 256 = n % 256 := congrArg UInt8.toNat h
    omega
  · have hnat : (m / 10 * 16 + m % 10) % 256 = (n / 10 * 16 + n % 10) % 256 :=
      congrArg UInt8.toNat h
    omega

/-- At least one update is completed between the snapshots, and not sixty. -/
theorem seconds_readTwice {t1 t2 : RTCTime} (h : readTwice c fuel t = some (t1, t2, t')) :
    t1.seconds ≠ t2.seconds := by
  rcases readTwice_eq_some h with ⟨s, s', hready, rfl, rfl⟩
  have hwait := updates_rtcWaitReady hready
  rw [seconds_rtcReadRegs, seconds_rtcReadRegs]
  intro heq
  have hmod := encode_inj (Nat.mod_lt _ (by decide)) (Nat.mod_lt _ (by decide)) heq
  have hsnapshot := updates_add c s 6
  unfold Clock.seconds at hmod
  omega

theorem settles_readTwice (c : Clock) (t : Nat) :
    ∃ r, Settles (fun fuel => readTwice c fuel t) (some r) := by
  rcases settles_rtcWaitReady c t with ⟨t₁, h₁⟩
  rcases settles_rtcWaitReady c (rtcReadRegs c t₁).2 with ⟨t₂, h₂⟩
  exact ⟨_, h₁.bind (h₂.bind (.of_eq fun _ => rfl))⟩

theorem readLoop_eq_none (c : Clock) (fuel t : Nat) : readLoop c fuel t = none := by
  induction fuel generalizing t with
  | zero => rfl
  | succ fuel ih =>
      rw [readLoop]
      cases htwice : readTwice c fuel t with
      | none => rfl
      | some r =>
          rcases r with ⟨t1, t2, t'⟩
          have hne := seconds_readTwice htwice
          rw [Option.bind_some]
          simp only [hne, ne_eq, not_false_eq_true, true_or, if_true]
          exact ih t'

/-- Wherever `rtc_read` is in its loop, the next two snapshots are taken and differ; the loop
does not end. -/
theorem double_read_disagrees (c : Clock) (t : Nat) :
    (∃ t1 t2 t', Settles (fun fuel => readTwice c fuel t) (some (t1, t2, t')) ∧
      t1.seconds ≠ t2.seconds) ∧
      ∀ fuel, readLoop c fuel t = none ∧ rtcRead c fuel t = none := by
  constructor
  · rcases settles_readTwice c t with ⟨⟨t1, t2, t'⟩, hsettles⟩
    obtain ⟨fuel, htwice⟩ := hsettles.exists
    exact ⟨t1, t2, t', hsettles, seconds_readTwice htwice⟩
  · intro fuel
    have hloop := readLoop_eq_none c fuel t
    exact ⟨hloop, by rw [rtcRead, hloop, Option.map_none]⟩

/-- A clock with one access in ten during an update. -/
def tenth : Clock where
  uip t := t % 10 == 9
  start := 0
  statusA := 0x26
  statusB := rtcSb24h
  date _ now := toBcd (now / 60 % 60)
  raised t := ⟨10 * t + 9, by omega, by simp⟩
  lowered t := ⟨10 * t, by omega, by simp⟩

/-- On a running clock `rtc_read` need not return. -/
theorem double_read_spins : ¬∀ (c : Clock) (t : Nat),
    ∃ t1 t2 t', Settles (fun fuel => readLoop c fuel t) (some (t1, t2, t')) ∧ t1 = t2 := by
  intro h
  rcases h tenth 0 with ⟨t1, t2, t', hsettles, -⟩
  obtain ⟨fuel, hloop⟩ := hsettles.exists
  exact Option.some_ne_none _ (hloop.symm.trans (readLoop_eq_none tenth fuel 0))

end PolandOS.Rtc
