import Sbase.Utils.Stime

/-! `str2time` takes a text of `GMTstrdate` for a local time. -/
namespace Sbase

open Calendar Scanf

variable {zone : Zone} {t now : ℤ} {tp : Tm} {s rest : List UInt8} {x : DateScan}

/-! ### Broken-down time -/

/-- What `gmtime` makes of a time with a year of four digits. -/
theorem gmtime_eq (ht : 0 < t) (hyear : yearOf (t/86400) ≤ 9999) :
    gmtime t = some ⟨yearOf (t/86400)-1900,(monthDay (t/86400)).1,(monthDay (t/86400)).2+1,
      t%86400/3600,t%86400%3600/60,t%86400%60,(t/86400+4)%7,0⟩ := by
  have hge := yearOf_ge (d := t/86400) (by omega)
  rw [gmtime,if_pos ⟨by omega,by omega⟩]

theorem timegm_gmtime (h : gmtime t = some tp) : timegm tp = t := by
  obtain ⟨hday,hmon,-⟩ := monthDay_spec (t/86400)
  rw [gmtime] at h
  split_ifs at h
  cases h
  have hdiv : ((monthDay (t/86400)).1 : ℤ)/12 = 0 := by omega
  have hmod : (((monthDay (t/86400)).1 : ℤ)%12).toNat = (monthDay (t/86400)).1 := by omega
  have hyear : yearOf (t/86400)-1900+1900 = yearOf (t/86400) := by omega
  simp only [timegm,hdiv,hmod,hyear,add_zero]
  omega

/-! ### Names -/

theorem wdays_names : ∀ i < 7, (ascii (wdays.getD i "")).length = 3 ∧
    (∀ c ∈ ascii (wdays.getD i ""), isSpace c = false ∧ isDecimal c = false ∧ c ≠ 43 ∧ c ≠ 45) ∧
    nameIndex wdays (ascii (wdays.getD i "")) = some i := by decide +kernel

theorem ymonths_names : ∀ i < 12, (ascii (ymonths.getD i "")).length = 3 ∧
    (∀ c ∈ ascii (ymonths.getD i ""), isSpace c = false) ∧
    nameIndex ymonths (ascii (ymonths.getD i "")) = some i := by decide +kernel

/-! ### Scanning -/

/-- A date as `GMTstrdate` prints it. -/
def dateText (wday month : List UInt8) (mday year hour min sec : ℕ) : List UInt8 :=
  wday ++ 44::32::(padded 2 mday ++ 32::(month ++ 32::(padded 4 year ++
    32::(padded 2 hour ++ 58::(padded 2 min ++ 58::(padded 2 sec ++ ascii " GMT"))))))

section

variable {wday month : List UInt8} {mday year hour min sec : ℕ}

/-- The formats with numbers store nothing of a text that starts with a letter. -/
theorem scanAny_numeric {c : UInt8} (hspace : isSpace c = false) (hdec : isDecimal c = false)
    (hsign : c ≠ 43 ∧ c ≠ 45) : scanAny (c::s) numericFormats x = (x,false) := by
  have hfails : ∀ fmt : DateFormat, sscanf (tmYear none::fmt) (c::s) x = (x,0) := fun fmt =>
    sscanf_int_fails hspace hdec hsign none _
  simp [numericFormats,dashedDate,hanDate,scanAny,hfails]

theorem sscanf_gmtMark : sscanf gmtMark s x = (x,0) := by
  simp [gmtMark,sscanf]

theorem sscanf_rfc1123 (hw : wday.length = 3) (hws : ∀ c ∈ wday, isSpace c = false) (hm : month.length = 3)
    (hms : ∀ c ∈ month, isSpace c = false) (hmday : mday < 10^2) (hyear : year < 10^4)
    (hhour : hour < 10^2) (hmin : min < 10^2) (hsec : sec < 10^2) :
    sscanf rfc1123 (dateText wday month mday year hour min sec) x =
      (⟨{ x.tp with year := year,mday := mday,hour := hour,min := min,sec := sec },wday,month⟩,7) := by
  have hsp : isSpace 32 = true := rfl
  simp only [rfc1123,hourMinSec,hourMin,List.cons_append,List.nil_append,dateText,strWday,tmMday,strMonth,
    tmYear,tmHour,tmMin,tmSec]
  rw [sscanf_str hw hws (by decide),sscanf_byte,sscanf_blank_int,sscanf_int_space hsp,
    sscanf_int (by decide) hmday,sscanf_blank_str,sscanf_str_space hsp,sscanf_str hm hms (by decide),
    sscanf_blank_int,sscanf_int_space hsp,sscanf_int (by decide) hyear,sscanf_blank_int,sscanf_int_space hsp,
    sscanf_int (by decide) hhour,sscanf_byte,sscanf_int (by decide) hmin,sscanf_byte,
    sscanf_int (by decide) hsec,sscanf_gmtMark]

/-- The names are found again and the year is counted from 1900. -/
theorem str2time_dateText {i m : ℕ} (hi : i < 7) (hm : m < 12) (hmday : mday < 10^2) (hyear : year < 10^4)
    (hlow : 1900 < year) (hhour : hour < 10^2) (hmin : min < 10^2) (hsec : sec < 10^2) :
    str2time zone (dateText (ascii (wdays.getD i "")) (ascii (ymonths.getD m "")) mday year hour min sec) =
      mktime zone ⟨(year : ℤ)-1900,m,mday,hour,min,sec,i,0⟩ := by
  obtain ⟨hwlen,hws,hwi⟩ := wdays_names i hi
  obtain ⟨hmlen,hms,hmi⟩ := ymonths_names m hm
  obtain ⟨c,w,hcw⟩ := List.exists_cons_of_length_pos (l := ascii (wdays.getD i "")) (by omega)
  obtain ⟨hspace,hdec,hsign⟩ := hws c (by rw [hcw]; exact List.mem_cons_self)
  have hnumeric : scanAny (dateText (ascii (wdays.getD i "")) (ascii (ymonths.getD m "")) mday year hour
      min sec) numericFormats ⟨.zero,[],[]⟩ = (⟨.zero,[],[]⟩,false) := by
    rw [dateText,hcw,List.cons_append]
    exact scanAny_numeric hspace hdec hsign
  have hnamed : scanAny (dateText (ascii (wdays.getD i "")) (ascii (ymonths.getD m "")) mday year hour
      min sec) namedFormats ⟨.zero,[],[]⟩ =
      (⟨⟨year,0,mday,hour,min,sec,0,0⟩,ascii (wdays.getD i ""),ascii (ymonths.getD m "")⟩,true) := by
    rw [namedFormats,scanAny,sscanf_rfc1123 hwlen (fun c hc => (hws c hc).1) hmlen hms hmday hyear hhour
      hmin hsec,if_pos rfl]
    rfl
  have hfix : fixYear ⟨year,m,mday,hour,min,sec,i,0⟩ = ⟨(year : ℤ)-1900,m,mday,hour,min,sec,i,0⟩ :=
    if_pos (by change (1900 : ℤ) < year; omega)
  rw [str2time]
  simp only [hnumeric,hnamed,setNames,hwi,hmi,hfix,if_true]
  rfl

end

/-! ### Printing -/

theorem printInt_natCast (width n : ℕ) : printInt width n = padded width n :=
  if_neg (by omega)

theorem gmtStrdate_eq (ht : 0 < t) (hyear : yearOf (t/86400) ≤ 9999) :
    gmtStrdate t now = dateText (ascii (wdays.getD ((t/86400+4)%7).toNat ""))
      (ascii (ymonths.getD (monthDay (t/86400)).1 "")) ((monthDay (t/86400)).2+1) (yearOf (t/86400)).toNat
      (t%86400/3600).toNat (t%86400%3600/60).toNat (t%86400%60).toNat := by
  have hge := yearOf_ge (d := t/86400) (by omega)
  have hprint : ∀ {width : ℕ} {n : ℤ}, 0 ≤ n → printInt width n = padded width n.toNat := by
    intro width n hn
    rw [← printInt_natCast,Int.toNat_of_nonneg hn]
  have hyr : printInt 1 (1900+(yearOf (t/86400)-1900)) = padded 4 (yearOf (t/86400)).toNat := by
    rw [hprint (by omega),show 1900+(yearOf (t/86400)-1900) = yearOf (t/86400) by omega]
    exact padded_eq (k := 3) (by omega) (by decide)
  have hmday : printInt 2 (((monthDay (t/86400)).2 : ℤ)+1) = padded 2 ((monthDay (t/86400)).2+1) := by
    rw [hprint (by omega)]
    rfl
  rw [gmtStrdate,if_pos ht,gmtime_eq ht hyear,Option.map_some,Option.getD_some,printDate]
  simp only [hyr,hmday,hprint (show 0 ≤ t%86400/3600 by omega),
    hprint (show 0 ≤ t%86400%3600/60 by omega),hprint (show 0 ≤ t%86400%60 by omega),Int.toNat_natCast]
  rfl

/-- The text of a time is read as the time at which the local clock shows it in standard time. -/
theorem str2time_gmtStrdate (ht : 0 < t) (hyear : yearOf (t/86400) ≤ 9999) :
    str2time zone (gmtStrdate t now) = t - zone.std t := by
  have hge := yearOf_ge (d := t/86400) (by omega)
  obtain ⟨-,hmon,hmday⟩ := monthDay_spec (t/86400)
  have hread := timegm_gmtime (gmtime_eq ht hyear)
  rw [gmtStrdate_eq ht hyear,str2time_dateText (by omega) hmon (by omega) (by omega) (by omega) (by omega)
    (by omega) (by omega)]
  have hcast : ∀ {n : ℤ}, 0 ≤ n → (n.toNat : ℤ) = n := Int.toNat_of_nonneg
  rw [hcast (show 0 ≤ yearOf (t/86400) by omega),hcast (show 0 ≤ t%86400/3600 by omega),
    hcast (show 0 ≤ t%86400%3600/60 by omega),hcast (show 0 ≤ t%86400%60 by omega),
    hcast (show 0 ≤ (t/86400+4)%7 by omega),Nat.cast_succ,mktime,if_pos rfl,hread]

end Sbase
