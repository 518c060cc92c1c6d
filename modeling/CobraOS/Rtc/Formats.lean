import CobraOS.Base.Bcd
import CobraOS.Rtc.Model

/-!
# The formats of the clock

Two bits of status register `B` say how the chip counts: bit 1 is set for 24 hours and clear for 12
hours with a bit for the afternoon, and bit 2 is set for binary numbers and clear for packed decimal
ones.  A century register is packed decimal in every format, and reads `0` or `0xFF` where there is
none (`Encodes`).

The driver reads bit 1 the other way round and does not read bit 2, so it gives the moment back
exactly for `Readable` moments (`rtc_read_iff`).
-/

namespace CobraOS.Rtc

open Base

/-- The days of a month. -/
def daysIn (month year : Nat) : Nat :=
  if month = 2 then (if year % 4 = 0 ∧ (year % 100 ≠ 0 ∨ year % 400 = 0) then 29 else 28)
  else if month = 4 ∨ month = 6 ∨ month = 9 ∨ month = 11 then 30
  else 31

/-- A date and time from 1980 to 2079. -/
structure Moment where
  second : Nat
  minute : Nat
  hour : Nat
  day : Nat
  month : Nat
  year : Nat
  second_lt : second < 60
  minute_lt : minute < 60
  hour_lt : hour < 24
  day_pos : 1 ≤ day
  day_le : day ≤ daysIn month year
  month_pos : 1 ≤ month
  month_le : month ≤ 12
  year_ge : 1980 ≤ year
  year_le : year ≤ 2079

def Moment.datetime (t : Moment) : Datetime where
  second := UInt8.ofNat t.second
  minute := UInt8.ofNat t.minute
  hour := UInt8.ofNat t.hour
  day := UInt8.ofNat t.day
  month := UInt8.ofNat t.month
  year := UInt16.ofNat t.year

/-- How the chip counts. -/
structure Mode where
  hours24 : Bool
  binary : Bool

/-- A number of two digits. -/
def Mode.byte (mode : Mode) (v : Nat) : UInt8 :=
  UInt8.ofNat (if mode.binary then v else repack 10 16 v)

/-- The hour on a clock face. -/
def faceHour (hour : Nat) : Nat := if hour % 12 = 0 then 12 else hour % 12

def Mode.hourByte (mode : Mode) (hour : Nat) : UInt8 :=
  if mode.hours24 then mode.byte hour
  else mode.byte (faceHour hour) ||| (if 12 ≤ hour then 0x80 else 0)

/-- The century register, or what is read where there is none. -/
inductive Century
  | bcd
  | zero
  | ones

def Century.byte (century : Century) (year : Nat) : UInt8 :=
  match century with
  | .bcd => UInt8.ofNat (repack 10 16 (year / 100))
  | .zero => 0x00
  | .ones => 0xFF

/-- **The registers hold a moment.** -/
structure Encodes (cmos : UInt8 → UInt8) (mode : Mode) (century : Century) (t : Moment) : Prop where
  second : cmos 0x00 = mode.byte t.second
  minute : cmos 0x02 = mode.byte t.minute
  hour : cmos 0x04 = mode.hourByte t.hour
  day : cmos 0x07 = mode.byte t.day
  month : cmos 0x08 = mode.byte t.month
  year : cmos 0x09 = mode.byte (t.year % 100)
  hours24 : cmos 0x0B &&& 0x02 ≠ 0 ↔ mode.hours24
  binary : cmos 0x0B &&& 0x04 ≠ 0 ↔ mode.binary
  century : cmos 0x32 = century.byte t.year

/-- The moments that the driver gives back: with 24 hours the hour is not twelve, with 12 hours it
is from one to twelve, and binary numbers have one digit in base sixteen. -/
def Readable (mode : Mode) (t : Moment) : Prop :=
  (if mode.hours24 then t.hour ≠ 12 else 1 ≤ t.hour ∧ t.hour ≤ 12) ∧
    (mode.binary → t.second < 16 ∧ t.minute < 16 ∧ t.hour < 16 ∧ t.day < 16 ∧ t.year % 100 < 16)

/-! ### Numbers of two digits -/

section

variable {mode : Mode} {v : Nat}

theorem toNat_bcdToBin (x : UInt8) : (bcdToBin x).toNat = repack 16 10 x.toNat := by
  have hlt := x.toNat_lt
  have hlow : (x &&& 0x0F).toNat = x.toNat % 16 := Nat.and_two_pow_sub_one_eq_mod x.toNat 4
  have hhigh : ((x &&& 0xF0) >>> 4).toNat = x.toNat / 16 := by
    have hshift : ((x &&& 0xF0) >>> 4).toNat = (x.toNat &&& 240) >>> 4 := rfl
    have hdigit : (x.toNat >>> 4) &&& 15 = (x.toNat >>> 4) % 16 :=
      Nat.and_two_pow_sub_one_eq_mod _ 4
    rw [hshift, Nat.shiftRight_and_distrib, show 240 >>> 4 = 15 from rfl, hdigit,
      Nat.shiftRight_eq_div_pow]
    omega
  unfold bcdToBin repack
  rw [UInt8.toNat_add, UInt8.toNat_mul, hlow, hhigh, show (10 : UInt8).toNat = 10 from rfl]
  omega

theorem toNat_bcdToBin_byte (mode : Mode) (hv : v < 100) :
    (bcdToBin (mode.byte v)).toNat = if mode.binary then repack 16 10 v else v := by
  rw [toNat_bcdToBin, Mode.byte]
  by_cases hbinary : mode.binary
  · rw [if_pos hbinary, if_pos hbinary, UInt8.toNat_ofNat_of_lt' (hv.trans (by decide))]
  · have hpacked : repack 10 16 v < 256 := by
      unfold repack
      omega
    rw [if_neg hbinary, if_neg hbinary, UInt8.toNat_ofNat_of_lt' hpacked,
      repack_repack (by decide) (by decide)]

theorem unpacked_eq :
    (if mode.binary then repack 16 10 v else v) = v ↔ (mode.binary → v < 16) := by
  by_cases hbinary : mode.binary
  · rw [if_pos hbinary, repack_eq_self (by decide)]
    exact ⟨fun h _ => h, fun h => h hbinary⟩
  · rw [if_neg hbinary]
    exact ⟨fun _ h => absurd h hbinary, fun _ => rfl⟩

/-- **A number is read as it is** unless it is binary and has two digits in base sixteen. -/
theorem bcdToBin_byte (mode : Mode) (hv : v < 100) :
    bcdToBin (mode.byte v) = UInt8.ofNat v ↔ (mode.binary → v < 16) := by
  rw [← UInt8.toNat_inj, toNat_bcdToBin_byte mode hv,
    UInt8.toNat_ofNat_of_lt' (hv.trans (by decide))]
  exact unpacked_eq

end

/-! ### Hours and years -/

/-- **The hours of a day**, in the four formats. -/
theorem readHour_iff {statusB : UInt8} {mode : Mode} (h24 : statusB &&& 0x02 ≠ 0 ↔ mode.hours24)
    {hour : Nat} (hh : hour < 24) : readHour statusB (mode.hourByte hour) = UInt8.ofNat hour ↔
      (if mode.hours24 then hour ≠ 12 else 1 ≤ hour ∧ hour ≤ 12) ∧ (mode.binary → hour < 16) := by
  obtain ⟨hours24, binary⟩ := mode
  unfold readHour
  cases hours24 with
  | true =>
    rw [if_pos (h24.mpr rfl)]
    clear h24
    revert hour
    cases binary <;> decide
  | false =>
    rw [if_neg (fun hset => Bool.false_ne_true (h24.mp hset))]
    clear h24
    revert hour
    cases binary <;> decide

theorem readYear_century {raw : UInt8} {year : Nat} (hge : 1980 ≤ year) (hle : year ≤ 2079) :
    (readYear raw (Century.bcd.byte year)).toNat = (bcdToBin raw).toNat + year / 100 * 100 := by
  have hbyte : Century.bcd.byte year = Mode.byte ⟨false, false⟩ (year / 100) := rfl
  have hcentury : (bcdToBin (Century.bcd.byte year)).toNat = year / 100 :=
    hbyte ▸ toNat_bcdToBin_byte ⟨false, false⟩ (by omega)
  have hpresent : Century.bcd.byte year ≠ 0xFF ∧ Century.bcd.byte year ≠ 0x00 := by
    obtain h | h : year / 100 = 19 ∨ year / 100 = 20 := by omega
    all_goals
      rw [hbyte, h]
      decide
  have hlt := (bcdToBin raw).toNat_lt
  unfold readYear
  rw [if_pos hpresent, UInt16.toNat_add, UInt16.toNat_mul, UInt8.toNat_toUInt16,
    UInt8.toNat_toUInt16, hcentury, show (100 : UInt16).toNat = 100 from rfl]
  omega

theorem readYear_absent {raw c : UInt8} (h : c = 0x00 ∨ c = 0xFF) :
    (readYear raw c).toNat =
      (bcdToBin raw).toNat + if (bcdToBin raw).toNat < 80 then 2000 else 1900 := by
  have habsent : ¬ (c ≠ 0xFF ∧ c ≠ 0x00) := by
    obtain rfl | rfl := h <;> decide
  have hadd : ∀ k : UInt16, k.toNat ≤ 2000 →
      ((bcdToBin raw).toUInt16 + k).toNat = (bcdToBin raw).toNat + k.toNat := by
    intro k hk
    have hlt := (bcdToBin raw).toNat_lt
    rw [UInt16.toNat_add, UInt8.toNat_toUInt16]
    omega
  have hcond : (bcdToBin raw).toUInt16 < 80 ↔ (bcdToBin raw).toNat < 80 := by
    rw [UInt16.lt_iff_toNat_lt, UInt8.toNat_toUInt16]
    rfl
  unfold readYear
  rw [if_neg habsent]
  by_cases hearly : (bcdToBin raw).toNat < 80
  · rw [if_pos (hcond.mpr hearly), if_pos hearly, hadd _ (by decide)]
    rfl
  · rw [if_neg (fun h => hearly (hcond.mp h)), if_neg hearly, hadd _ (by decide)]
    rfl

/-- **The years**: a year is read right if its last two digits are. -/
theorem readYear_iff (mode : Mode) (century : Century) {year : Nat} (hge : 1980 ≤ year)
    (hle : year ≤ 2079) :
    readYear (mode.byte (year % 100)) (century.byte year) = UInt16.ofNat year ↔
      (mode.binary → year % 100 < 16) := by
  have hv : year % 100 < 100 := Nat.mod_lt _ (by decide)
  have hdigits := toNat_bcdToBin_byte mode hv
  have hbound : (bcdToBin (mode.byte (year % 100))).toNat < 100 := by
    have hle := repack_le (a := 10) (b := 16) (by decide) (year % 100)
    rw [hdigits]
    split <;> omega
  rw [← unpacked_eq, ← hdigits, ← UInt16.toNat_inj,
    UInt16.toNat_ofNat_of_lt' (show year < 65536 by omega)]
  cases century with
  | bcd =>
    rw [readYear_century hge hle]
    omega
  | zero =>
    rw [readYear_absent (c := Century.zero.byte year) (Or.inl rfl)]
    split <;> omega
  | ones =>
    rw [readYear_absent (c := Century.ones.byte year) (Or.inr rfl)]
    split <;> omega

theorem cmosWaitReady_eq {polls : List UInt8} (h : ∃ statusA ∈ polls, statusA &&& 0x80 = 0) :
    cmosWaitReady polls = some () := by
  induction polls with
  | nil => obtain ⟨_, hmem, -⟩ := h; cases hmem
  | cons statusA polls ih =>
    rw [cmosWaitReady]
    by_cases hready : statusA &&& 0x80 = 0
    · rw [if_neg (not_not.mpr hready)]
    · obtain ⟨a, hmem, ha⟩ := h
      obtain rfl | hmem := List.mem_cons.mp hmem
      · exact absurd ha hready
      · rw [if_pos hready]
        exact ih ⟨a, hmem, ha⟩

theorem daysIn_le (month year : Nat) : daysIn month year ≤ 31 := by
  unfold daysIn
  split
  · split <;> omega
  · split <;> omega

theorem rtcReadDatetime_eq {polls : List UInt8} {cmos : UInt8 → UInt8} {mode : Mode}
    {century : Century} {t : Moment} (hready : ∃ statusA ∈ polls, statusA &&& 0x80 = 0)
    (h : Encodes cmos mode century t) :
    rtcReadDatetime polls cmos = some {
      second := bcdToBin (mode.byte t.second)
      minute := bcdToBin (mode.byte t.minute)
      hour := readHour (cmos 0x0B) (mode.hourByte t.hour)
      day := bcdToBin (mode.byte t.day)
      month := bcdToBin (mode.byte t.month)
      year := readYear (mode.byte (t.year % 100)) (century.byte t.year) } := by
  unfold rtcReadDatetime
  rw [cmosWaitReady_eq hready, ← h.second, ← h.minute, ← h.hour, ← h.day, ← h.month, ← h.year,
    ← h.century]
  rfl

/-- **The driver gives back the moment** in the registers exactly when it is readable. -/
theorem rtc_read_iff {polls : List UInt8} {cmos : UInt8 → UInt8} {mode : Mode} {century : Century}
    {t : Moment} (hready : ∃ statusA ∈ polls, statusA &&& 0x80 = 0)
    (h : Encodes cmos mode century t) :
    rtcReadDatetime polls cmos = some t.datetime ↔ Readable mode t := by
  have hsecond := bcdToBin_byte (v := t.second) mode (t.second_lt.trans (by decide))
  have hminute := bcdToBin_byte (v := t.minute) mode (t.minute_lt.trans (by decide))
  have hhour := readHour_iff h.hours24 t.hour_lt
  have hday := bcdToBin_byte (v := t.day) mode (by
    have hle := t.day_le.trans (daysIn_le t.month t.year)
    omega)
  have hmonth := bcdToBin_byte (v := t.month) mode (t.month_le.trans_lt (by decide))
  have hyear := readYear_iff mode century t.year_ge t.year_le
  have hlow : t.month < 16 := t.month_le.trans_lt (by decide)
  rw [rtcReadDatetime_eq hready h, Option.some.injEq, Moment.datetime, Datetime.mk.injEq, hsecond,
    hminute, hhour, hday, hmonth, hyear, Readable]
  constructor
  · rintro ⟨hs, hm, ⟨hface, hh⟩, hd, -, hy⟩
    exact ⟨hface, fun hb => ⟨hs hb, hm hb, hh hb, hd hb, hy hb⟩⟩
  · rintro ⟨hface, hall⟩
    refine ⟨fun hb => (hall hb).1, fun hb => (hall hb).2.1, ⟨hface, fun hb => (hall hb).2.2.1⟩,
      fun hb => (hall hb).2.2.2.1, fun _ => hlow, fun hb => (hall hb).2.2.2.2⟩

/-- A chip with 24 hours and packed decimal numbers, on 17 May 2024. -/
def chip (hourRaw : UInt8) (reg : UInt8) : UInt8 :=
  if reg = 0x00 then 0x15 else if reg = 0x02 then 0x30 else if reg = 0x04 then hourRaw
  else if reg = 0x07 then 0x17 else if reg = 0x08 then 0x05 else if reg = 0x09 then 0x24
  else if reg = 0x0B then 0x02 else if reg = 0x32 then 0x20 else 0

/-- The moment on that chip. -/
def sample (hour : Nat) (hh : hour < 24) : Moment where
  second := 15
  minute := 30
  hour := hour
  day := 17
  month := 5
  year := 2024
  second_lt := by decide
  minute_lt := by decide
  hour_lt := hh
  day_pos := by decide
  day_le := by decide
  month_pos := by decide
  month_le := by decide
  year_ge := by decide
  year_le := by decide

theorem encodes_sample {hour : Nat} (hh : hour < 24) :
    Encodes (chip (Mode.hourByte ⟨true, false⟩ hour)) ⟨true, false⟩ .bcd (sample hour hh) where
  second := show 0x15 = Mode.byte ⟨true, false⟩ 15 by decide
  minute := show 0x30 = Mode.byte ⟨true, false⟩ 30 by decide
  hour := rfl
  day := show 0x17 = Mode.byte ⟨true, false⟩ 17 by decide
  month := show 0x05 = Mode.byte ⟨true, false⟩ 5 by decide
  year := show 0x24 = Mode.byte ⟨true, false⟩ (2024 % 100) by decide
  hours24 := show (0x02 : UInt8) &&& 0x02 ≠ 0 ↔ true by decide
  binary := show (0x02 : UInt8) &&& 0x04 ≠ 0 ↔ false by decide
  century := show 0x20 = Century.bcd.byte 2024 by decide

/-- Half past nine is read, after one busy poll. -/
theorem rtc_read_iff_morning : rtcReadDatetime [0xA6, 0x26] (chip (Mode.hourByte ⟨true, false⟩ 9)) =
    some (sample 9 (by decide)).datetime :=
  (rtc_read_iff ⟨0x26, by decide, by decide⟩ (encodes_sample (by decide))).mpr
    ⟨by decide, fun hbinary => absurd hbinary (by decide)⟩

/-- **At noon the driver reads midnight**, on a chip with 24 hours. -/
theorem rtc_noon : Encodes (chip 0x12) ⟨true, false⟩ .bcd (sample 12 (by decide)) ∧
    rtcReadDatetime [0x26] (chip 0x12) = some { (sample 12 (by decide)).datetime with hour := 0 } ∧
    rtcReadDatetime [0x26] (chip 0x12) ≠ some (sample 12 (by decide)).datetime :=
  ⟨encodes_sample (show 12 < 24 by decide), by decide, by decide⟩

end CobraOS.Rtc
