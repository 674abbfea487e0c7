import Sbase.Http.HeaderMap
import Sbase.Lib.Calendar
import Sbase.Lib.Scanf

/-! Dates in texts: `str2time` and `GMTstrdate`.

The numbers of a text are taken as they are, and its weekday as it is: an `int` and `wday` have room for
them. -/
namespace Sbase

open Calendar Scanf

/-- `struct tm` -/
structure Tm where
  year : ℤ
  mon : ℤ
  mday : ℤ
  hour : ℤ
  min : ℤ
  sec : ℤ
  wday : ℤ
  isdst : ℤ
  deriving DecidableEq, Repr

def Tm.zero : Tm := ⟨0,0,0,0,0,0,0,0⟩

/-! ### The time functions of the C library -/

/-- The broken-down time of `t` in GMT, unless its year is too large for an `int`. -/
def gmtime (t : ℤ) : Option Tm :=
  let d := t/86400
  let s := t%86400
  let year := yearOf d - 1900
  if -2^31 ≤ year ∧ year < 2^31 then
    some ⟨year,(monthDay d).1,(monthDay d).2+1,s/3600,s%3600/60,s%60,(d+4)%7,0⟩
  else none

/-- The seconds from the epoch to a clock in GMT that shows `tm`, whose fields may be out of range. -/
def timegm (tm : Tm) : ℤ :=
  let d := firstDay (tm.year+1900+tm.mon/12) (tm.mon%12).toNat + tm.mday-1
  ((d*24+tm.hour)*60+tm.min)*60+tm.sec

/-- A local time zone: the seconds by which its clocks are ahead of GMT in standard time and in daylight
saving time, and which of the two is in force, each when the clock shows the given time. -/
structure Zone where
  std : ℤ → ℤ
  dst : ℤ → ℤ
  summer : ℤ → Bool

/-- The time at which a local clock shows `tm`: in standard time where `tm_isdst` is 0. -/
def mktime (zone : Zone) (tm : Tm) : ℤ :=
  let shown := timegm tm
  if tm.isdst = 0 then shown - zone.std shown
  else if 0 < tm.isdst ∨ zone.summer shown then shown - zone.dst shown
  else shown - zone.std shown

/-! ### From texts -/

def wdays : List String := ["Sun","Mon","Tue","Wed","Thu","Fri","Sat"]

def ymonths : List String := ["Jan","Feb","Mar","Apr","May","Jun","Jul","Aug","Sep","Oct","Nov","Dec"]

/-- The locals that `sscanf` stores into. -/
structure DateScan where
  tp : Tm
  wday : List UInt8
  month : List UInt8

abbrev DateFormat := List (Directive DateScan)

def tmYear (width : Option ℕ) : Directive DateScan := .int width fun n s => { s with tp := { s.tp with year := n } }
def tmMon (width : Option ℕ) : Directive DateScan := .int width fun n s => { s with tp := { s.tp with mon := n } }
def tmMday (width : Option ℕ) : Directive DateScan := .int width fun n s => { s with tp := { s.tp with mday := n } }
def tmHour (width : Option ℕ) : Directive DateScan := .int width fun n s => { s with tp := { s.tp with hour := n } }
def tmMin (width : Option ℕ) : Directive DateScan := .int width fun n s => { s with tp := { s.tp with min := n } }
def tmSec (width : Option ℕ) : Directive DateScan := .int width fun n s => { s with tp := { s.tp with sec := n } }
def strWday : Directive DateScan := .str (some 3) fun w s => { s with wday := w }
def strMonth : Directive DateScan := .str (some 3) fun w s => { s with month := w }

/-- `%[A-Z a-z]` into `wday` -/
def setWday : Directive DateScan :=
  .set (fun c => 65 ≤ c ∧ c ≤ 90 ∨ c = 32 ∨ 97 ≤ c ∧ c ≤ 122) fun w s => { s with wday := w }

/-- `%d:%d` with a width -/
def hourMin (width : Option ℕ) : DateFormat := [tmHour width,.byte 58,tmMin width]

/-- `%d:%d:%d` with a width -/
def hourMinSec (width : Option ℕ) : DateFormat := hourMin width ++ [.byte 58,tmSec width]

/-- `%d-%d-%d ` -/
def dashedDate : DateFormat := [tmYear none,.byte 45,tmMon none,.byte 45,tmMday none,.blank]

/-- `%d年%d月%d` -/
def hanDate : DateFormat :=
  [tmYear none,.byte 0xe5,.byte 0xb9,.byte 0xb4,tmMon none,.byte 0xe6,.byte 0x9c,.byte 0x88,tmMday none]

/-- `日 ` -/
def hanDay : DateFormat := [.byte 0xe6,.byte 0x97,.byte 0xa5,.blank]

/-- ` GMT` -/
def gmtMark : DateFormat := [.blank,.byte 71,.byte 77,.byte 84]

/-- The formats with numbers only, and how many of them there are. -/
def numericFormats : List (DateFormat × ℕ) :=
  [(dashedDate ++ hourMinSec none,6),(dashedDate ++ hourMin none,5),
   (hanDate ++ hanDay ++ hourMinSec none,6),(hanDate ++ hanDay ++ hourMin none,5),
   (hanDate ++ [.blank] ++ hourMinSec none,6),(hanDate ++ [.blank] ++ hourMin none,5)]

/-- `%3s, %2d %3s %4d %2d:%2d:%2d GMT` -/
def rfc1123 : DateFormat :=
  [strWday,.byte 44,.blank,tmMday (some 2),.blank,strMonth,.blank,tmYear (some 4),.blank] ++
    hourMinSec (some 2) ++ gmtMark

/-- `%3s, %2d-%3s-%4d %2d:%2d:%2d GMT` -/
def rfc1036 : DateFormat :=
  [strWday,.byte 44,.blank,tmMday (some 2),.byte 45,strMonth,.byte 45,tmYear (some 4),.blank] ++
    hourMinSec (some 2) ++ gmtMark

/-- `%[A-Z a-z], %2d-%3s-%2d %2d:%2d:%2d GMT` -/
def rfc850 : DateFormat :=
  [setWday,.byte 44,.blank,tmMday (some 2),.byte 45,strMonth,.byte 45,tmYear (some 2),.blank] ++
    hourMinSec (some 2) ++ gmtMark

/-- `%3s %3s %d %2d:%2d:%2d %4d` -/
def asctimeFormat : DateFormat :=
  [strWday,.blank,strMonth,.blank,tmMday none,.blank] ++ hourMinSec (some 2) ++ [.blank,tmYear (some 4)]

/-- The formats with names. -/
def namedFormats : List (DateFormat × ℕ) := [(rfc1123,7),(rfc1036,7),(rfc850,7),(asctimeFormat,7)]

/-- Formats are tried up to the first that makes all its conversions; those before leave what they stored. -/
def scanAny (datestr : List UInt8) : List (DateFormat × ℕ) → DateScan → DateScan × Bool
  | [],s => (s,false)
  | (fmt,n)::fmts,s =>
    if (sscanf fmt datestr s).2 = n then ((sscanf fmt datestr s).1,true)
    else scanAny datestr fmts (sscanf fmt datestr s).1

/-- The first name that agrees with a text in three letters. -/
def nameIndex (names : List String) (w : List UInt8) : Option ℕ :=
  names.findIdx? fun name => (w.take 3).map lower = (ascii name).map lower

/-- The year in the form of `tm_year`. -/
def fixYear (tp : Tm) : Tm :=
  if tp.year > 1900 then { tp with year := tp.year-1900 }
  else if tp.year < 10 then { tp with year := tp.year+100 }
  else tp

/-- The indices of the names go into `tp` where both are found. -/
def setNames (s : DateScan) : Tm :=
  match nameIndex wdays s.wday,nameIndex ymonths s.month with
  | some day,some mon => { s.tp with mon := mon,wday := day }
  | _,_ => s.tp

def str2time (zone : Zone) (datestr : List UInt8) : ℤ :=
  let s := scanAny datestr numericFormats ⟨.zero,[],[]⟩
  if s.2 then mktime zone (fixYear { s.1.tp with mon := s.1.tp.mon-1 })
  else
    let s := scanAny datestr namedFormats s.1
    if s.2 then mktime zone (fixYear (setNames s.1)) else 0

/-! ### To texts -/

/-- `%s, %02d %s %d %02d:%02d:%02d GMT` -/
def printDate (tp : Tm) : List UInt8 :=
  ascii (wdays.getD tp.wday.toNat "") ++ 44::32::(printInt 2 tp.mday ++
    32::(ascii (ymonths.getD tp.mon.toNat "") ++ 32::(printInt 1 (1900+tp.year) ++
      32::(printInt 2 tp.hour ++ 58::(printInt 2 tp.min ++ 58::(printInt 2 tp.sec ++ ascii " GMT"))))))

/-- The text for `times`, or for the time `now` of the call where `times` is not positive. -/
def gmtStrdate (times now : ℤ) : List UInt8 :=
  ((gmtime (if times > 0 then times else now)).map printDate).getD []

end Sbase
