/-
# `Convd.Datetime` — dates and times as text

`cstr_datetime_print`, `cstr_parse_timestamp` and `cstr_timestamp_to_datetime` of `cstrbuf.h`,
with the functions they call:

    2019-12-22 12:36:59.065+08:00      also E08:00
    2019-12-22 12:36:59W08:00          also -08:00
    2019-12-22

The parser looks for the zone, cuts it off, trims the rest, takes off quotes, and goes by the
length of what is left.  It cuts the text up as it reads it.  `mktime` and `localtime_r` are
parameters.
-/
import Convd.Trim
import Convd.Lib.Decimal

namespace Convd

open CString Block Decimal

/-! ## Types -/

/-- `cstr_datetime_t` -/
structure CstrDatetime where
  year : Int
  month : Int
  day : Int
  hour : Int
  minute : Int
  second : Int
  millisecond : Int
  timezone : Int
  deriving DecidableEq, Repr

/-- `struct tm`, as far as it is used. -/
structure Tm where
  tmYear : Int
  tmMon : Int
  tmMday : Int
  tmHour : Int
  tmMin : Int
  tmSec : Int
  deriving DecidableEq, Repr

/-- `TM_YEAR_IS_LEAP` -/
def tmYearIsLeap (year : Int) : Bool :=
  if year % 4 ≠ 0 then false else if year % 100 ≠ 0 then true else year % 400 = 0

/-- `time_is_valid` -/
def timeIsValid (year mon day hour min sec : Int) : Bool :=
  if year < 1900 ∨ year > 9999 ∨ mon ≤ 0 ∨ mon > 12 ∨ day ≤ 0 ∨ day > 31 ∨ hour < 0 ∨ hour > 24 ∨
      min < 0 ∨ min > 59 ∨ sec < 0 ∨ sec > 60 then false
  else if mon ∈ [1, 3, 5, 7, 8, 10, 12] then true
  else if mon ∈ [4, 6, 9, 11] then day < 31
  else if day > 29 then false else if day < 29 then true else tmYearIsLeap year

/-! ## Printing -/

/-- `snprintf_chkd_V1(b + p, bufsize, …)` of a text, and what it returns. -/
def snprintfChkdV1At (b : Block) (p bufsize : Nat) (text : List UInt8) : Option (Int × Block) :=
  if bufsize = 0 then (put b (p - 1) 0).map (-1, ·)
  else (putAll b p (text.take (bufsize - 1) ++ [0])).map
    (((min text.length (bufsize - 1) : Nat) : Int), ·)

/-- `"%04d-%02d-%02d"` -/
def dateText (year mon day : Int) : List UInt8 :=
  fmtInt 4 year ++ 45 :: (fmtInt 2 mon ++ 45 :: fmtInt 2 day)

/-- `"%02d:%02d:%02d"` -/
def clockText (hour min sec : Int) : List UInt8 :=
  fmtInt 2 hour ++ 58 :: (fmtInt 2 min ++ 58 :: fmtInt 2 sec)

/-- `".%03d"` -/
def msecText (msec : Int) : List UInt8 := 46 :: fmtInt 3 msec

/-- `"W%02d:%02d"` or `"+%02d:%02d"` -/
def zoneText (timezone : Int) : List UInt8 :=
  if timezone < 0 then 87 :: (fmtInt 2 (-timezone / 100) ++ 58 :: fmtInt 2 (-timezone % 100))
  else 43 :: (fmtInt 2 (timezone / 100) ++ 58 :: fmtInt 2 (timezone % 100))

def cstrDatetimeSizeMax : Nat := 30

/-- A field that is printed at `pos`, if it is there. -/
def printField (given : Bool) (out : Block) (pos : Int) (text : List UInt8) :
    Option (Int × Block) :=
  if given then snprintfChkdV1At out pos.toNat (cstrDatetimeSizeMax - pos).toNat text
  else some (0, out)

/-- The blank between the date and the time of day. -/
def printBlank (hour : Int) (out : Block) (dlen : Int) : Option (Int × Block) :=
  if hour ≠ -1 ∧ dlen ≠ 0 then (put out dlen.toNat 32).map (dlen + 1, ·) else some (dlen, out)

/-- `cstr_datetime_print` -/
def cstrDatetimePrint (dt : CstrDatetime) (outfmt : Block) : Option Block := do
  let out ← put outfmt 0 0
  let (dlen, out) ← printField (dt.year != -1) out 0 (dateText dt.year dt.month dt.day)
  let (dlen, out) ← printBlank dt.hour out dlen
  let (tlen, out) ← printField (dt.hour != -1) out dlen (clockText dt.hour dt.minute dt.second)
  let (mlen, out) ← printField (dt.millisecond != -1) out (dlen + tlen) (msecText dt.millisecond)
  let (_, out) ← printField (dt.timezone != -1) out (dlen + tlen + mlen) (zoneText dt.timezone)
  some out

/-! ## The zone -/

/-- `f₁(p[0]) && f₂(p[1]) && …` -/
def allAt (b : Block) : Nat → List (UInt8 → Bool) → Option Bool
  | _, [] => some true
  | p, f :: fs => do
      let c ← b[p]?
      if f c then allAt b (p + 1) fs else some false

/-- `tz[3] == ':' || tz[3] == '.'` -/
def isColon (c : UInt8) : Bool := c == 58 || c == 46

/-- `cstr_parse_timezone` -/
def cstrParseTimezone (b : Block) (tz : Nat) : Option Int := do
  let c ← b[tz]?
  let sign : Int := if c = 43 ∨ c = 69 then 1 else if c = 45 ∨ c = 87 then -1 else 0
  if sign = 0 then some (-1)
  else if ← allAt b (tz + 1) [isdigit, isdigit, isColon, isdigit, isdigit, (· == 0)] then
    let h := atoi ((b.drop (tz + 1)).take 2)
    let m := atoi ((b.drop (tz + 4)).take 2)
    if h > 23 then some (-1) else if m > 59 then some (-1) else some ((h * 100 + m) * sign)
  else some (-1)

/-- Where the zone is looked for: at the first `+`, `E` or `W`, or at the last `-`. -/
def findZone (b : Block) (timestr : Nat) : Option (Option Nat) := do
  match ← strchr b timestr 43 with
  | some tz => some (some tz)
  | none => match ← strchr b timestr 69 with
    | some tz => some (some tz)
    | none => match ← strchr b timestr 87 with
      | some tz => some (some tz)
      | none => match ← strrchr b timestr 45 with
        | none => some none
        | some tz =>
            -- -08:00 or -08.00
            if ← allAt b (tz + 1) [(· != 0), (· != 0), isColon] then some (some tz)
            else some none

/-! ## The parser -/

/-- Why it stops: at an access outside the object, or by `return (-1)`. -/
inductive Stop where
  | fault
  | reject
  deriving DecidableEq, Repr

abbrev Run := Except Stop

def orFault {α : Type} : Option α → Run α
  | some a => .ok a
  | none => .error .fault

/-- What is between the first and the last quote, or all of it: `str` and `len`. -/
def unquote (b : Block) (str : Nat) : Run (Nat × Int × Block) := do
  let a ← orFault (strchr b str 39)
  let z ← orFault (strrchr b str 39)
  match a, z with
  | some a, some z =>
      let b ← orFault (put b a 0)
      let b ← orFault (put b z 0)
      -- (int)(b - a) + 1, of the pointers that have moved inwards
      .ok (a + 1, Int.bmod ((z : Int) - 1 - (a + 1)) (2 ^ 32) + 1, b)
  | none, none =>
      let len ← orFault (cstrLengthAt b str 30)
      .ok (str, len, b)
  | _, _ => .error .reject

/-- The first and the last `sep`, which must be the only ones of `xx-yy-zz`. -/
def findSeps (b : Block) (str : Nat) (sep : UInt8) (n : Nat) : Run (Nat × Nat) := do
  let a ← orFault (strchr b str sep)
  let z ← orFault (strrchr b str sep)
  match a, z with
  | some a, some z => if a = str + n ∧ z = a + 3 then .ok (a, z) else .error .reject
  | _, _ => .error .reject

/-- `{'0', …, '\0'}` -/
def zeros (n : Nat) : Block := List.replicate n 48 ++ [0]

/-- `snprintf_chkd_V1(dst, sizeof(dst), "%.*s", n, src)`, of an array of `n` and a NUL. -/
def copyField (n : Nat) (b : Block) (src : Nat) : Option Block := do
  let k ← strnlen b src n
  let (_, dst) ← snprintfChkdV1At (zeros n) 0 (n + 1) ((b.drop src).take k)
  some dst

/-- The three arrays, of the part at `str` and the parts behind `a` and `z`. -/
def copyParts (b : Block) (str a z n : Nat) : Option (Block × Block × Block) := do
  let x ← copyField n b str
  let y ← copyField 2 b (a + 1)
  let w ← copyField 2 b (z + 1)
  some (x, y, w)

/-- `msec`, as many of its three characters as there are. -/
def copyMsec (b : Block) (dot : Nat) : Option Block := do
  let c₀ ← b[dot]?
  if c₀ = 0 then some [48, 48, 48, 0]
  else
    let c₁ ← b[dot + 1]?
    if c₁ = 0 then some [c₀, 48, 48, 0]
    else
      let c₂ ← b[dot + 2]?
      if c₂ = 0 then some [c₀, c₁, 48, 0] else some [c₀, c₁, c₂, 0]

/-- `Year` to `msec`, and `HMS` and `MMM`. -/
structure TimeFields where
  year : Block
  mon : Block
  day : Block
  hour : Block
  min : Block
  sec : Block
  msec : Block
  hms : Bool
  mmm : Bool
  deriving DecidableEq, Repr

/-- `Year`, `Mon` and `Day`, and what is left of the text. -/
def parseDate (b : Block) (str : Nat) : Run ((Block × Block × Block) × Block) := do
  let (a, z) ← findSeps b str 45 4
  let b ← orFault (put b a 0)
  let b ← orFault (put b z 0)
  let date ← orFault (copyParts b str a z 4)
  .ok (date, b)

/-- `hour`, `min` and `sec`. -/
def parseClock (b : Block) (hms : Nat) : Run (Block × Block × Block) := do
  let (a, z) ← findSeps b hms 58 2
  let b ← orFault (put b a 0)
  let b ← orFault (put b z 0)
  orFault (copyParts b hms a z 2)

/-- `hour`, `min`, `sec` and `msec`: the dot is looked for before anything is cut. -/
def parseClockMsec (b : Block) (hms : Nat) : Run ((Block × Block × Block) × Block) := do
  let (a, z) ← findSeps b hms 58 2
  match ← orFault (strchr b z 46) with
  | none => .error .reject
  | some dot =>
      if dot ≠ z + 3 then .error .reject
      else
        let b ← orFault (put b a 0)
        let b ← orFault (put b z 0)
        let b ← orFault (put b dot 0)
        let clock ← orFault (copyParts b hms a z 2)
        let msec ← orFault (copyMsec b (dot + 1))
        .ok (clock, msec)

/-- The blank at 10, cut off: where `hms` begins. -/
def cutBlank (b : Block) (str : Nat) : Run (Nat × Block) := do
  match ← orFault (strchr b str 32) with
  | none => .error .reject
  | some a =>
      if a ≠ str + 10 then .error .reject
      else
        let b ← orFault (put b a 0)
        .ok (a + 1, b)

/-- The three layouts; `YMD` is set in each of them. -/
def parseLayout (b : Block) (str : Nat) (len : Int) : Run TimeFields :=
  if len = 10 then do
    let ((year, mon, day), _) ← parseDate b str
    .ok ⟨year, mon, day, zeros 2, zeros 2, zeros 2, zeros 3, false, false⟩
  else if len = 19 then do
    let (hms, b) ← cutBlank b str
    let ((year, mon, day), b) ← parseDate b str
    let (hour, min, sec) ← parseClock b hms
    .ok ⟨year, mon, day, hour, min, sec, zeros 3, true, false⟩
  else if len = 23 then do
    let (hms, b) ← cutBlank b str
    let ((year, mon, day), b) ← parseDate b str
    let ((hour, min, sec), msec) ← parseClockMsec b hms
    .ok ⟨year, mon, day, hour, min, sec, msec, true, true⟩
  else .error .reject

/-- The zone, read and cut off; -1 when there is none. -/
def cutZone (b : Block) (timestr : Nat) : Run (Int × Block) := do
  match ← orFault (findZone b timestr) with
  | none => .ok (-1, b)
  | some tz =>
      let timezone ← orFault (cstrParseTimezone b tz)
      if timezone = -1 then .error .reject
      else
        let b ← orFault (put b tz 0)
        .ok (timezone, b)

/-- `cstr_parse_timestamp`, as far as the arrays are filled. -/
def parseFields (b : Block) (timestr : Nat) : Run (Int × TimeFields) := do
  let (timezone, b) ← cutZone b timestr
  let (str, b) ← orFault (cstrLRtrimWhitespace b timestr)
  let (str, len, b) ← unquote b str
  let fields ← parseLayout b str len
  .ok (timezone, fields)

/-- `cstr_isdigit` -/
def cstrIsdigit (str : Block) : Nat → Option Bool
  | 0 => some true
  | len + 1 => do
      let c ← str[len]?
      if ! isdigit c then some false else cstrIsdigit str len

/-- `cstr_isdigit(…) && …` -/
def allDigits : List (Block × Nat) → Option Bool
  | [] => some true
  | (str, len) :: l => do if ← cstrIsdigit str len then allDigits l else some false

/-- `atoi` of the string an array holds. -/
def atoiOf (str : Block) : Option Int := (cstrAt str 0).map atoi

/-- A write through `outdt`. -/
def writeOut (outdt : Option CstrDatetime) (f : CstrDatetime → CstrDatetime) :
    Option (Option CstrDatetime) := outdt.map fun dt => some (f dt)

/-- What follows when all are digits: `tm` is what `t` was set to. -/
def storeStamp (mktime : Tm → Int64) (timezone : Int) (hms mmm : Bool)
    (year mon day hour min sec msec : Int) (outdt : Option CstrDatetime) :
    Option (UInt64 × Option CstrDatetime) :=
  if ! timeIsValid year mon day hour min sec then some (-1, outdt)
  else
    let tsec := (mktime ⟨year - 1900, mon - 1, day, hour, min, sec⟩).toUInt64
    if tsec = -1 then some (-1, outdt)
    else do
      let outdt := outdt.map fun _ => ⟨year, mon, day, hour, min, sec, msec, timezone⟩
      let outdt ←
        if ! hms then writeOut outdt fun dt => { dt with hour := -1, minute := 0, second := 0 }
        else some outdt
      let outdt ←
        if ! mmm then writeOut outdt fun dt => { dt with millisecond := -1 } else some outdt
      some (tsec * 1000 + UInt64.ofInt msec, outdt)

/-- `cstr_parse_timestamp`: what it returns, and `*outdt`, if there is one. -/
def cstrParseTimestamp (mktime : Tm → Int64) (b : Block) (timestr : Nat)
    (outdt : Option CstrDatetime) : Option (UInt64 × Option CstrDatetime) :=
  match parseFields b timestr with
  | .error .fault => none
  | .error .reject => some (-1, outdt)
  | .ok (timezone, f) => do
      let digits ← allDigits
        [(f.year, 4), (f.mon, 2), (f.day, 2), (f.hour, 2), (f.min, 2), (f.sec, 2), (f.msec, 3)]
      if digits then
        storeStamp mktime timezone f.hms f.mmm (← atoiOf f.year) (← atoiOf f.mon) (← atoiOf f.day)
          (← atoiOf f.hour) (← atoiOf f.min) (← atoiOf f.sec) (← atoiOf f.msec) outdt
      else some (-1, outdt)

/-! ## Milliseconds -/

/-- What `strtoull` is given: the string itself, or a copy of `slen` characters. -/
def numberText (b : Block) (str slen : Nat) : Option (List UInt8) := do
  let whole ← if slen = toSizeT (-1) then some true else (b[str + slen]?).map (· == 0)
  if whole then cstrAt b str
  else if str + slen ≤ b.length then some (cstr ((b.drop str).take slen))
  else none

/-- `cstr_to_ub8(10, str, slen, outval)`: what it returns, and `*outval`. -/
def cstrToUb8 (b : Block) (str slen : Nat) : Option (Int × UInt64) :=
  if slen = 0 then some (0, 0)
  else do
    let r := strtoull (← numberText b str slen)
    if r.val = 0 ∧ r.atStart then some (-1, r.val)
    else if r.errno then some (-1, r.val)
    else some (1, r.val)

/-- What `cstr_timestamp_to_datetime` reads: the result of `cstr_to_ub8`, and `stamp`. -/
def readStamp (b : Block) (stampms : Nat) (mslen : Int) : Option (Int × UInt64) := do
  let mslen ← if mslen = -1 then cstrLengthAt b stampms 20 else some mslen
  cstrToUb8 b stampms (toSizeT mslen)

/-- `cstr_timestamp_to_datetime`: the array `timestr`, or null. -/
def cstrTimestampToDatetime (localtime : Int64 → Option Tm) (b : Block) (stampms : Nat)
    (mslen : Int) (timestr : Block) : Option (Option Block) := do
  let (ret, stamp) ← readStamp b stampms mslen
  if ret = 0 then some none
  else
    let msec : Int := (stamp % 1000).toNat
    match localtime (stamp / 1000).toInt64 with
    | none => some none
    | some t =>
        let year := t.tmYear + 1900
        let mon := t.tmMon + 1
        if ! timeIsValid year mon t.tmMday t.tmHour t.tmMin t.tmSec then some none
        else
          let text := dateText year mon t.tmMday ++ 32 :: clockText t.tmHour t.tmMin t.tmSec
          let (_, out) ←
            if msec ≠ 0 then snprintfChkdV1At timestr 0 24 (text ++ msecText msec)
            else snprintfChkdV1At timestr 0 20 text
          some (some out)

end Convd
