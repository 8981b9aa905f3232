import PolandOS.Drivers.Rtc

/-! # The formats of the clock

Status B says whether the registers hold BCD or binary numbers, and whether the hours are
those of a day or of half a day. `decode_inverts_iff`: `rtc_read` gives back the date and
the time that the registers hold, but for noon on a BCD clock with 24 hours.
-/

namespace PolandOS.Rtc

/-- A date and a time of this century. -/
structure DateTime where
  year : Nat
  month : Nat
  day : Nat
  hour : Nat
  minute : Nat
  second : Nat
  year_mem : 2000 ≤ year ∧ year ≤ 2099
  month_mem : 1 ≤ month ∧ month ≤ 12
  day_mem : 1 ≤ day ∧ day ≤ 31
  hour_lt : hour < 24
  minute_lt : minute < 60
  second_lt : second < 60

/-- Status B announces binary numbers. -/
def isBinary (sb : UInt8) : Bool := sb &&& rtcSbBinary != 0

/-- Status B announces 24 hours. -/
def is24h (sb : UInt8) : Bool := sb &&& rtcSb24h != 0

/-- A number in a register. -/
def encodeNumber (binary : Bool) (n : Nat) : UInt8 := if binary then n.toUInt8 else toBcd n

/-- The hours. Half a day has 12, 1, 2, .. and 11 o'clock, and the highest bit is that of the
second half. -/
def encodeHours (binary full : Bool) (n : Nat) : UInt8 :=
  if full then encodeNumber binary n
  else encodeNumber binary (if n % 12 = 0 then 12 else n % 12) ||| if 12 ≤ n then 0x80 else 0

/-- The registers hold the date and the time in the format that status B announces: a
snapshot of them. -/
def DateTime.registers (sb : UInt8) (t : DateTime) : RTCTime where
  seconds := encodeNumber (isBinary sb) t.second
  minutes := encodeNumber (isBinary sb) t.minute
  hours := encodeHours (isBinary sb) (is24h sb) t.hour
  day := encodeNumber (isBinary sb) t.day
  month := encodeNumber (isBinary sb) t.month
  year := (encodeNumber (isBinary sb) (t.year - 2000)).toUInt16

/-- What `rtc_read` is to return. -/
def DateTime.rtcTime (t : DateTime) : RTCTime where
  seconds := t.second.toUInt8
  minutes := t.minute.toUInt8
  hours := t.hour.toUInt8
  day := t.day.toUInt8
  month := t.month.toUInt8
  year := t.year.toUInt16

/-! ## Register by register -/

/-- What `rtc_read` makes of a number other than the hours. -/
def decodeNumber (binary : Bool) (r : UInt8) : UInt8 := if binary then r else bcdToBin r

/-- What it makes of the hours. -/
def decodeHours (binary full : Bool) (r : UInt8) : UInt8 :=
  if !binary then fullHours (!full && r &&& 0x80 != 0) (bcdToBin (r &&& 0x7F))
  else if !full then fullHours (r &&& 0x80 != 0) (r &&& 0x7F)
  else r

theorem bcdToBin_toBcd {n : Nat} (h : n < 100) : bcdToBin (toBcd n) = n.toUInt8 := by
  have hall : ∀ n < 100, bcdToBin (toBcd n) = n.toUInt8 := by decide
  exact hall n h

theorem decodeNumber_encodeNumber (binary : Bool) {n : Nat} (h : n < 100) :
    decodeNumber binary (encodeNumber binary n) = n.toUInt8 := by
  cases binary with
  | true => rfl
  | false => exact bcdToBin_toBcd h

/-- The hours at noon are not those of half a day on a clock with 24 hours; but the case of
the BCD numbers does not ask. -/
theorem decodeHours_encodeHours_iff (binary full : Bool) {n : Nat} (h : n < 24) :
    decodeHours binary full (encodeHours binary full n) = n.toUInt8 ↔
      ¬(binary = false ∧ full = true ∧ n = 12) := by
  have hall : ∀ n < 24, ∀ binary full,
      decodeHours binary full (encodeHours binary full n) = n.toUInt8 ↔
        ¬(binary = false ∧ full = true ∧ n = 12) := by decide
  exact hall n h binary full

/-- The years that are not written in full. -/
theorem fullYear {n : Nat} (h : n < 100) :
    (n.toUInt8.toUInt16 + if n.toUInt8.toUInt16 < 100 then 2000 else 0) =
      (2000 + n).toUInt16 := by
  have hall : ∀ n < 100, (n.toUInt8.toUInt16 + if n.toUInt8.toUInt16 < 100 then 2000 else 0) =
      (2000 + n).toUInt16 := by decide
  exact hall n h

theorem convert_eq (sb : UInt8) (r : RTCTime) : convert sb r =
    let year := if isBinary sb then r.year else (bcdToBin r.year.toUInt8).toUInt16
    { seconds := decodeNumber (isBinary sb) r.seconds
      minutes := decodeNumber (isBinary sb) r.minutes
      hours := decodeHours (isBinary sb) (is24h sb) r.hours
      day := decodeNumber (isBinary sb) r.day
      month := decodeNumber (isBinary sb) r.month
      year := year + if year < 100 then 2000 else 0 } := by
  unfold convert isBinary is24h decodeNumber decodeHours
  generalize (sb &&& rtcSbBinary != 0) = binary
  generalize (sb &&& rtcSb24h != 0) = full
  cases binary with
  | false => rfl
  | true => cases full <;> rfl

theorem year_convert (sb : UInt8) (t : DateTime) :
    (convert sb (t.registers sb)).year = t.rtcTime.year := by
  have hyear := t.year_mem
  have hlt : t.year - 2000 < 100 := by omega
  have hdecode : (if isBinary sb then (t.registers sb).year
      else (bcdToBin (t.registers sb).year.toUInt8).toUInt16) = (t.year - 2000).toUInt8.toUInt16 := by
    unfold DateTime.registers
    cases isBinary sb with
    | true => rfl
    | false =>
        simp only [encodeNumber, Bool.false_eq_true, if_false, UInt8.toUInt8_toUInt16,
          bcdToBin_toBcd hlt]
  have hfull : 2000 + (t.year - 2000) = t.year := by omega
  rw [convert_eq]
  dsimp only
  rw [hdecode, fullYear hlt, hfull]
  rfl

/-- Where two equal snapshots have been taken of registers that hold a date and a time,
`rtc_read` returns this date and time exactly if it is not noon on a clock with BCD numbers
and 24 hours. -/
theorem decode_inverts_iff (sb : UInt8) (t : DateTime) :
    convert sb (t.registers sb) = t.rtcTime ↔
      ¬(isBinary sb = false ∧ is24h sb = true ∧ t.hour = 12) := by
  rw [← decodeHours_encodeHours_iff _ _ t.hour_lt]
  have hyear := year_convert sb t
  constructor
  · intro h
    rw [convert_eq] at h
    exact congrArg RTCTime.hours h
  · intro h
    have hday := t.day_mem
    have hmonth := t.month_mem
    have hminute := t.minute_lt
    have hsecond := t.second_lt
    rw [convert_eq] at hyear ⊢
    unfold DateTime.registers DateTime.rtcTime at hyear ⊢
    simp only [RTCTime.mk.injEq] at hyear ⊢
    exact ⟨decodeNumber_encodeNumber _ (by omega), decodeNumber_encodeNumber _ (by omega), h,
      decodeNumber_encodeNumber _ (by omega), decodeNumber_encodeNumber _ (by omega), hyear⟩

/-- Noon of a day in May. -/
def noon : DateTime := ⟨2024, 5, 17, 12, 30, 0, by decide, by decide, by decide, by decide,
  by decide, by decide⟩

/-- On a clock with BCD numbers and 24 hours it is read as half past midnight. -/
theorem noon_read_as_midnight :
    convert rtcSb24h (noon.registers rtcSb24h) ≠ noon.rtcTime ∧
      (convert rtcSb24h (noon.registers rtcSb24h)).hours = 0 := by
  decide

end PolandOS.Rtc
