import Sbase.Http.HeaderField
import Sbase.Utils.StimeRoundTrip

/-! The answer of `xhttpd_packet_handler` to a client that has a copy of the file. -/
namespace Sbase

open Calendar Memory

def HEAD_REQ_IF_MODIFIED_SINCE : ℕ := 24

/-- What is answered for a file that is found. -/
inductive FileAnswer
  | noContent
  | notModified
  | content (lastModified : List UInt8)
  deriving DecidableEq

/-- The answer for a file of a size and modification time, at the time `now`. -/
def fileAnswer (zone : Zone) (req : HttpReq) (size mtime now : ℤ) : FileAnswer :=
  let n := req.headers HEAD_REQ_IF_MODIFIED_SINCE
  if size = 0 then .noContent
  else if 0 < n ∧ str2time zone (cstr req.hlines n (HTTP_HEADER_MAX-n)) = mtime then .notModified
  else .content (ascii "Last-Modified:" ++ gmtStrdate mtime now ++ [13,10])

/-- The text is the value of the header `If-Modified-Since`. -/
structure Echoes (req : HttpReq) (text : List UInt8) : Prop where
  named : 0 < req.headers HEAD_REQ_IF_MODIFIED_SINCE
  value : HoldsString req.hlines (req.headers HEAD_REQ_IF_MODIFIED_SINCE) text
  inside : req.headers HEAD_REQ_IF_MODIFIED_SINCE + text.length < HTTP_HEADER_MAX

variable {zone : Zone} {req : HttpReq} {text : List UInt8} {t now size mtime : ℤ}

theorem Echoes.cstr_eq (h : Echoes req text) (hzero : 0 ∉ text) :
    cstr req.hlines (req.headers HEAD_REQ_IF_MODIFIED_SINCE)
      (HTTP_HEADER_MAX - req.headers HEAD_REQ_IF_MODIFIED_SINCE) = text := by
  have hin := h.inside
  rw [cstr_eq_takeWhile _ _ text.length _ h.value.2 (by omega),h.value.1,List.takeWhile_eq_self_iff]
  intro c hc
  rw [decide_eq_true_eq]
  rintro rfl
  exact hzero hc

theorem zero_notMem_gmtStrdate (ht : 0 < t) (hyear : yearOf (t/86400) ≤ 9999) : 0 ∉ gmtStrdate t now := by
  have hwday : ∀ i < 7, 0 ∉ ascii (wdays.getD i "") := by decide +kernel
  have hmonth : ∀ m < 12, 0 ∉ ascii (ymonths.getD m "") := by decide +kernel
  have hpadded : ∀ width n, 0 ∉ Scanf.padded width n := fun width n h =>
    absurd (Scanf.padded_decimal width n 0 h) (by decide)
  have hmark : 0 ∉ ascii " GMT" := by decide +kernel
  have hday := hwday ((t/86400+4)%7).toNat (by omega)
  have hmon := hmonth _ (monthDay_spec (t/86400)).2.1
  rw [gmtStrdate_eq ht hyear]
  generalize ascii (wdays.getD _ "") = wday at hday ⊢
  generalize ascii (ymonths.getD _ "") = month at hmon ⊢
  simp [dateText,hday,hmon,hpadded,hmark]

theorem fileAnswer_echo (h : Echoes req (gmtStrdate t now)) (ht : 0 < t) (hyear : yearOf (t/86400) ≤ 9999)
    (hsize : size ≠ 0) (later : ℤ) :
    fileAnswer zone req size mtime later = .notModified ↔ t - zone.std t = mtime := by
  have hvalue : str2time zone (cstr req.hlines (req.headers HEAD_REQ_IF_MODIFIED_SINCE)
      (HTTP_HEADER_MAX - req.headers HEAD_REQ_IF_MODIFIED_SINCE)) = t - zone.std t := by
    rw [h.cstr_eq (zero_notMem_gmtStrdate ht hyear),str2time_gmtStrdate ht hyear]
  rw [fileAnswer]
  simp only [if_neg hsize,hvalue,h.named,true_and]
  by_cases hm : t - zone.std t = mtime
  · simp [hm]
  · simp [hm]

/-- A date comes back from its text if and only if the standard time of the zone is GMT at that date; and
then a client that echoes it is told that a file is not modified exactly if its time is the same. -/
theorem stime_round_trip_iff (zone : Zone) (t now : ℤ) (ht : 0 < t) (hyear : yearOf (t/86400) ≤ 9999) :
    (str2time zone (gmtStrdate t now) = t ↔ zone.std t = 0) ∧
      ∀ req size later, Echoes req (gmtStrdate t now) → size ≠ 0 →
        ((∀ mtime, fileAnswer zone req size mtime later = .notModified ↔ mtime = t) ↔ zone.std t = 0) := by
  refine ⟨?_,fun req size later hecho hsize => ?_⟩
  · rw [str2time_gmtStrdate ht hyear]
    omega
  · simp only [fileAnswer_echo hecho ht hyear hsize]
    constructor
    · intro hall
      have hsame := (hall t).mpr rfl
      omega
    · intro hstd mtime
      omega

/-- The zone of London: standard time is GMT, also while the clocks are ahead of it. -/
def london : Zone := ⟨fun _ => 0,fun _ => 3600,fun shown => 1246406400 ≤ shown ∧ shown < 1256432400⟩

/-- A request whose only header is `If-Modified-Since`. -/
def echoRequest (text : List UInt8) : HttpReq :=
  { HttpReq.zero with
    headers := fun h => if h = HEAD_REQ_IF_MODIFIED_SINCE then 1 else 0
    hlines := Function.update (write (fun _ => 0) 1 text) (1 + text.length) 0 }

theorem echoRequest_echoes (hlen : 1 + text.length < HTTP_HEADER_MAX) : Echoes (echoRequest text) text :=
  ⟨Nat.one_pos,holdsString_write _ 1 text,hlen⟩

/-- A date of the summer. -/
theorem stime_round_trip_london : str2time london (gmtStrdate 1247000000 0) = 1247000000 ∧
    ∀ mtime, fileAnswer london (echoRequest (gmtStrdate 1247000000 0)) 5 mtime 0 = .notModified ↔
      mtime = 1247000000 := by
  obtain ⟨hback,hecho⟩ := stime_round_trip_iff london 1247000000 0 (by decide) (by decide)
  have hlen : 1 + (gmtStrdate 1247000000 0).length < HTTP_HEADER_MAX := by decide +kernel
  exact ⟨hback.mpr rfl,(hecho _ 5 0 (echoRequest_echoes hlen) (by decide)).mpr rfl⟩

/-- Eight hours east of London. -/
def shanghai : Zone := ⟨fun _ => 28800,fun _ => 28800,fun _ => false⟩

theorem stime_shanghai : gmtStrdate 1245033792 0 = ascii "Mon, 15 Jun 2009 02:43:12 GMT" ∧
    str2time shanghai (gmtStrdate 1245033792 0) = 1245004992 := by decide +kernel

end Sbase
