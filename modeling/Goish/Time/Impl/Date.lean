import Mathlib.Algebra.Group.Int.Defs
import Mathlib.Algebra.Group.Nat.Defs

/-! The times of `time::time`: their dates, their weeks, their order and the arithmetic with durations. -/

namespace Time

def wrap (x : Int) : Int :=
  x.bmod (2 ^ 64)

structure Location where
  name : List UInt8
  offset : Int
  isLocal : Bool
  deriving DecidableEq, Repr

end Time

structure Time where
  sec : Int
  nsec : Int
  mono : Int
  loc : Time.Location
  deriving DecidableEq, Repr

namespace Time

structure Civil where
  year : Int
  month : Int
  day : Int
  hour : Int
  min : Int
  sec : Int
  deriving DecidableEq, Repr

def Location.utc : Location :=
  { name := [85, 84, 67], offset := 0, isLocal := false }

def Location.local : Location :=
  { name := [85, 84, 67], offset := 0, isLocal := true }

def unixToInternal : Int :=
  (1969 * 365 + 1969 / 4 - 1969 / 100 + 1969 / 400) * 86400

def internalToUnix : Int :=
  -unixToInternal

def daysFromCivil (year month day : Int) : Int :=
  let y := if month ≤ 2 then year - 1 else year
  let era := (if y ≥ 0 then y else y - 399).tdiv 400
  let yoe := y - era * 400
  let mp := if month > 2 then month - 3 else month + 9
  let doy := (153 * mp + 2).tdiv 5 + day - 1
  let doe := yoe * 365 + yoe.tdiv 4 - yoe.tdiv 100 + doy
  era * 146097 + doe - 719468

def civilFromUnix (sec : Int) : Civil :=
  let days := sec / 86400
  let secs := sec % 86400
  let hh := secs.tdiv 3600
  let mm := (secs.tmod 3600).tdiv 60
  let ss := secs.tmod 60
  let z := days + 719468
  let era := (if z ≥ 0 then z else z - 146096).tdiv 146097
  let doe := z - era * 146097
  let yoe := (doe - doe.tdiv 1460 + doe.tdiv 36524 - doe.tdiv 146096).tdiv 365
  let y := yoe + era * 400
  let doy := doe - (365 * yoe + yoe.tdiv 4 - yoe.tdiv 100)
  let mp := (5 * doy + 2).tdiv 153
  let d := doy - (153 * mp + 2).tdiv 5 + 1
  let m := if mp < 10 then mp + 3 else mp - 9
  let y := if m ≤ 2 then y + 1 else y
  { year := y, month := m, day := d, hour := hh, min := mm, sec := ss }

def unix (sec nsec : Int) : Time :=
  let extraSec := nsec / 1000000000
  let finalNsec := nsec % 1000000000
  { sec := wrap (wrap (sec + extraSec) + unixToInternal), nsec := finalNsec, mono := 0, loc := .local }

def unixSec (t : Time) : Int :=
  t.sec + internalToUnix

def locSec (t : Time) : Int :=
  t.unixSec + t.loc.offset

def inLoc (t : Time) (loc : Location) : Time :=
  { t with loc := loc, mono := 0 }

def civil (t : Time) : Civil :=
  civilFromUnix t.locSec

def date (year month day hour min sec nsec : Int) (loc : Location) : Time :=
  let days := daysFromCivil year month day
  let totalSec := wrap (wrap (wrap (wrap (days * 86400) + wrap (hour * 3600)) + wrap (min * 60)) + sec)
  let t := unix (wrap (totalSec - loc.offset)) nsec
  t.inLoc loc

def addDate (t : Time) (years months days : Int) : Time :=
  let c := t.civil
  date (c.year + years) (c.month + months) (c.day + days) c.hour c.min c.sec t.nsec .utc

def maxDuration : Int := 2 ^ 63 - 1

def minDuration : Int := -2 ^ 63

def subMono (t u : Int) : Int :=
  let d := wrap (t - u)
  if d < 0 ∧ t > u then maxDuration else if d > 0 ∧ t < u then minDuration else d

def before (t u : Time) : Bool :=
  t.sec < u.sec || t.sec == u.sec && t.nsec < u.nsec

def after (t u : Time) : Bool :=
  t.sec > u.sec || t.sec == u.sec && t.nsec > u.nsec

def equal (t u : Time) : Bool :=
  t.sec == u.sec && t.nsec == u.nsec

def compare (t u : Time) : Int :=
  if t.mono ≠ 0 ∧ u.mono ≠ 0 then
    if t.mono < u.mono then -1 else if t.mono > u.mono then 1 else 0
  else if t.sec < u.sec then
    -1
  else if t.sec > u.sec then
    1
  else if t.nsec < u.nsec then
    -1
  else if t.nsec > u.nsec then
    1
  else
    0

def add (t : Time) (d : Int) : Time :=
  let totalNsec := wrap (t.nsec + d)
  { t with
    sec := wrap (t.sec + totalNsec / 1000000000)
    nsec := totalNsec % 1000000000
    mono := if t.mono ≠ 0 then wrap (t.mono + d) else 0 }

def sub (t u : Time) : Int :=
  if t.mono ≠ 0 ∧ u.mono ≠ 0 then
    subMono t.mono u.mono
  else
    let d := wrap (wrap (wrap (t.sec - u.sec) * 1000000000) + wrap (t.nsec - u.nsec))
    if (u.add d).equal t then d else if t.before u then minDuration else maxDuration

def unixNano (t : Time) : Int :=
  wrap (wrap (t.unixSec * 1000000000) + t.nsec)

def truncate (t : Time) (d : Int) : Time :=
  let t := { t with mono := 0 }
  if d ≤ 0 then
    t
  else
    let r := t.unixNano % d
    t.add (-r)

def round (t : Time) (d : Int) : Time :=
  let t := { t with mono := 0 }
  if d ≤ 0 then
    t
  else
    let r := t.unixNano % d
    if wrap (r * 2) < d then t.add (-r) else t.add (d - r)

def lessThanHalf (x y : Int) : Bool :=
  (x % 2 ^ 64 + x % 2 ^ 64) % 2 ^ 64 < y % 2 ^ 64

def Duration.round (x m : Int) : Int :=
  if m ≤ 0 then
    x
  else
    let r := x.tmod m
    if x < 0 then
      let r := -r
      if lessThanHalf r m then
        x + r
      else
        let d1 := wrap (wrap (x - m) + r)
        if d1 < x then d1 else minDuration
    else if lessThanHalf r m then
      x - r
    else
      let d1 := wrap (wrap (x + m) - r)
      if d1 > x then d1 else maxDuration

def isLeap (year : Int) : Bool :=
  -- `year & mask` is the remainder, as the mask is a row of ones.
  let mask := if year.tmod 25 ≠ 0 then 3 else 0xf
  year % (mask + 1) = 0

def daysIn (m year : Int) : Int :=
  if m = 2 then
    if isLeap year then 29 else 28
  else
    30 + (m + m / 8) % 2

def weekday (t : Time) : Int :=
  (t.locSec / 86400 + 4) % 7

def yearDay (t : Time) : Int :=
  t.locSec / 86400 - daysFromCivil t.civil.year 1 1 + 1

def isoWeek (t : Time) : Int × Int :=
  let days := t.locSec / 86400
  let thuDays := days + (3 - (days + 3) % 7)
  let thuYear := (civilFromUnix (thuDays * 86400)).year
  let yday := thuDays - daysFromCivil thuYear 1 1 + 1
  (thuYear, (yday - 1).tdiv 7 + 1)

end Time
