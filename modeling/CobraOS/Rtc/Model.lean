import Mathlib.Tactic

/-!
# The real-time clock, `arch/x86/drivers/cmos/rtc.c`

The registers of the chip are a function from their numbers.  Only register `A`, with the flag that
the chip is updating the others, changes while the driver waits: the values that it has at one read
after another are a list, and there is no result while the flag has not been clear.
-/

namespace CobraOS.Rtc

/-- `struct rtc_datetime` -/
structure Datetime where
  second : UInt8
  minute : UInt8
  hour : UInt8
  day : UInt8
  month : UInt8
  year : UInt16
  deriving DecidableEq

/-- The top bit of the number turns off the non-maskable interrupt. -/
def cmosRead (cmos : UInt8 → UInt8) (reg : UInt8) : UInt8 := cmos (reg &&& 0x7F)

/-- `while (cmos_is_updating())` -/
def cmosWaitReady : List UInt8 → Option Unit
  | [] => none
  | statusA :: polls => if statusA &&& 0x80 ≠ 0 then cmosWaitReady polls else some ()

def bcdToBin (bcd : UInt8) : UInt8 := ((bcd &&& 0xF0) >>> 4) * 10 + (bcd &&& 0x0F)

/-- The hour, from status register `B` and the register of the hour. -/
def readHour (statusB hourRaw : UInt8) : UInt8 :=
  if statusB &&& 0x02 ≠ 0 then
    let pm := hourRaw &&& 0x80
    let hour12 := bcdToBin (hourRaw &&& 0x7F)
    if pm ≠ 0 then (if hour12 = 12 then 12 else hour12 + 12)
      else (if hour12 = 12 then 0 else hour12)
  else bcdToBin (hourRaw &&& 0x3F)

/-- The year, from the registers of the year and of the century. -/
def readYear (yearRaw centuryRaw : UInt8) : UInt16 :=
  let year := (bcdToBin yearRaw).toUInt16
  if centuryRaw ≠ 0xFF ∧ centuryRaw ≠ 0x00 then year + (bcdToBin centuryRaw).toUInt16 * 100
  else if year < 80 then year + 2000
  else year + 1900

def rtcReadDatetime (polls : List UInt8) (cmos : UInt8 → UInt8) : Option Datetime := do
  cmosWaitReady polls
  let secondRaw := cmosRead cmos 0x00
  let minuteRaw := cmosRead cmos 0x02
  let hourRaw := cmosRead cmos 0x04
  let dayRaw := cmosRead cmos 0x07
  let monthRaw := cmosRead cmos 0x08
  let yearRaw := cmosRead cmos 0x09
  let statusB := cmosRead cmos 0x0B
  let centuryRaw := cmosRead cmos 0x32
  some {
    second := bcdToBin secondRaw
    minute := bcdToBin minuteRaw
    hour := readHour statusB hourRaw
    day := bcdToBin dayRaw
    month := bcdToBin monthRaw
    year := readYear yearRaw centuryRaw }

end CobraOS.Rtc
