import Sbase.Http.Argv

/-! The table of arguments over successive calls of `http_argv_parse`.

A call begins in the entry behind those that count. An argument whose value fills the line does not count
and leaves its entry to the next call, which takes over the offset of the value. -/
namespace Sbase
open Memory

/-- A key and a value lie below a bound. -/
def Within (bound : ℕ) (kv : HttpKV) : Prop := kv.k + kv.nk ≤ bound ∧ kv.v + kv.nv ≤ bound

/-- The places in the line where arguments end that are read from `pp` on, and last the place where the
reading stops. `begun` tells whether the value of the first one has begun. -/
def argvStops : List UInt8 → ℕ → Bool → List ℕ
  | [], pp, _ => [pp]
  | c::s, pp, begun =>
    if c = 13 ∨ c = 10 ∨ c = 32 ∨ ¬ pp < HTTP_ARGV_LINE_MAX then [pp]
    else if c = 61 ∧ begun = false then argvStops s (pp + 1) true
    else if c = 38 ∧ begun = true then pp::argvStops s (pp + 1) false
    else
      match escapeAt c s with
      | some _ => argvStops (s.drop 2) (pp + 1) begun
      | none => argvStops s (pp + 1) begun
termination_by s => s.length

/-- The offset that an argument left behind, or zero. -/
def HttpReq.argvLeft (req : HttpReq) : ℕ := (req.argvs req.nargvs).v

/-- The arguments of a call fit in the table, and none ends below an offset that was left behind. -/
def ArgvFits (p : List UInt8) (req : HttpReq) : Prop :=
  let stops := argvStops p req.argvStart (decide (req.argvLeft ≠ 0))
  p = [] ∨ req.nargvs + stops.length ≤ HTTP_ARGVS_MAX ∧ ∀ q ∈ stops, req.argvLeft ≤ q

theorem argvStops_ge {s : List UInt8} {pp q : ℕ} {begun : Bool} (hq : q ∈ argvStops s pp begun) :
    pp ≤ q := by
  induction s, pp, begun using argvStops.induct with
  | case1 pp begun =>
    rw [argvStops,List.mem_singleton] at hq
    exact hq.ge
  | case2 c s pp begun hstop =>
    rw [argvStops,if_pos hstop,List.mem_singleton] at hq
    exact hq.ge
  | case3 c s pp begun hgo hequals ih =>
    rw [argvStops,if_neg hgo,if_pos hequals] at hq
    exact (Nat.le_succ pp).trans (ih hq)
  | case4 c s pp begun hgo hequals hand ih =>
    rw [argvStops,if_neg hgo,if_neg hequals,if_pos hand,List.mem_cons] at hq
    rcases hq with rfl | hq
    · exact le_rfl
    · exact (Nat.le_succ pp).trans (ih hq)
  | case5 c s pp begun hgo hequals hand b hb ih =>
    rw [argvStops,if_neg hgo,if_neg hequals,if_neg hand,hb] at hq
    exact (Nat.le_succ pp).trans (ih hq)
  | case6 c s pp begun hgo hequals hand hnone ih =>
    rw [argvStops,if_neg hgo,if_neg hequals,if_neg hand,hnone] at hq
    exact (Nat.le_succ pp).trans (ih hq)

theorem argvStops_pos (s : List UInt8) (pp : ℕ) (begun : Bool) : 0 < (argvStops s pp begun).length := by
  induction s, pp, begun using argvStops.induct with
  | case1 pp begun => simp [argvStops]
  | case2 c s pp begun hstop =>
    rw [argvStops,if_pos hstop]
    exact Nat.one_pos
  | case3 c s pp begun hgo hequals ih => rwa [argvStops,if_neg hgo,if_pos hequals]
  | case4 c s pp begun hgo hequals hand ih =>
    rw [argvStops,if_neg hgo,if_neg hequals,if_pos hand]
    exact Nat.succ_pos _
  | case5 c s pp begun hgo hequals hand b hb ih =>
    rwa [argvStops,if_neg hgo,if_neg hequals,if_neg hand,hb]
  | case6 c s pp begun hgo hequals hand hnone ih =>
    rwa [argvStops,if_neg hgo,if_neg hequals,if_neg hand,hnone]

/-! ### The entry in progress -/

namespace ArgvState

/-- The value of the entry in progress has begun. -/
def begun (st : ArgvState) : Bool := decide (st.argv.v ≠ 0)

theorem argv_startValue (st : ArgvState) : st.startValue.argv =
    { st.argv with nk := ushortSub st.pp st.argv.k, v := ushort (st.pp + 1) } := by
  simp only [startValue,argv_setArgv,argv_put]
  rfl

theorem argv_startKey (st : ArgvState) : st.startKey.argv = { st.argv with k := ushort st.pp, v := 0 } :=
  argv_setArgv st _

/-- What every round of the loop keeps, from the record of the call on. The value of the entry in progress
may still lie above the place that is reached. -/
structure Sound (req : HttpReq) (st : ArgvState) : Prop where
  slot : st.a < HTTP_ARGVS_MAX
  nargvs : st.req.nargvs = st.a
  unused : ∀ i > st.a, (st.req.argvs i).v = 0
  key : st.argv.k = st.req.nline
  nline : st.req.nline ≠ 0 ∧ st.req.nline ≤ st.pp
  keyLength : st.argv.v ≠ 0 → st.argv.k + st.argv.nk ≤ HTTP_ARGV_LINE_MAX
  value : st.argv.v ≤ HTTP_ARGV_LINE_MAX
  pp : st.pp ≤ HTTP_ARGV_LINE_MAX
  argvs : ∀ i ≥ HTTP_ARGVS_MAX, st.req.argvs i = req.argvs i
  line : ∀ i ≥ HTTP_ARGV_LINE_MAX, st.req.line i = req.line i

namespace Sound

variable {req : HttpReq} {st : ArgvState}

theorem key_ne (h : Sound req st) : st.argv.k ≠ 0 := by
  rw [h.key]
  exact h.nline.1

theorem put (h : Sound req st) (hpp : st.pp < HTTP_ARGV_LINE_MAX) (b : UInt8) : Sound req (st.put b) where
  slot := h.slot
  nargvs := h.nargvs
  unused := h.unused
  key := h.key
  nline := ⟨h.nline.1,h.nline.2.trans (Nat.le_succ _)⟩
  keyLength := h.keyLength
  value := h.value
  pp := hpp
  argvs := h.argvs
  line i hi := (Function.update_of_ne (show i ≠ st.pp by omega) _ _).trans (h.line i hi)

/-- A change of the entry in progress. -/
theorem setArgv (h : Sound req st) (kv : HttpKV) (hk : kv.k = st.argv.k)
    (hlen : kv.v ≠ 0 → kv.k + kv.nk ≤ HTTP_ARGV_LINE_MAX) (hv : kv.v ≤ HTTP_ARGV_LINE_MAX) :
    Sound req (st.setArgv kv) where
  slot := h.slot
  nargvs := h.nargvs
  unused i hi := by
    have hi' : st.a < i := hi
    change (Function.update st.req.argvs st.a kv i).v = 0
    rw [Function.update_of_ne hi'.ne']
    exact h.unused i hi
  key := by
    rw [argv_setArgv,hk]
    exact h.key
  nline := h.nline
  keyLength := by
    rw [argv_setArgv]
    exact hlen
  value := by
    rw [argv_setArgv]
    exact hv
  pp := h.pp
  argvs i hi := by
    have hslot := h.slot
    change Function.update st.req.argvs st.a kv i = _
    rw [Function.update_of_ne (by omega)]
    exact h.argvs i hi
  line := h.line

theorem startValue (h : Sound req st) (hpp : st.pp < HTTP_ARGV_LINE_MAX) (hv : st.argv.v = 0) :
    Sound req st.startValue ∧ st.startValue.argv.v = st.pp + 1 := by
  have hmax : HTTP_ARGV_LINE_MAX < 65536 := by decide
  have hkey : st.argv.k ≤ st.pp := by
    rw [h.key]
    exact h.nline.2
  have hnk : st.argv.k + ushortSub st.pp st.argv.k = st.pp := by
    rw [ushortSub_of_le hkey (by omega)]
    omega
  have hplace : ushort (st.pp + 1) = st.pp + 1 := ushort_of_lt (by omega)
  have hname := h.setArgv { st.argv with nk := ushortSub st.pp st.argv.k } rfl
    (fun hv' => absurd hv hv') h.value
  refine ⟨(hname.put hpp 0).setArgv _ rfl (fun _ => ?_) ?_,?_⟩
  · rw [argv_put,argv_setArgv]
    dsimp only
    omega
  · change ushort (st.pp + 1) ≤ _
    rw [hplace]
    exact hpp
  · rw [argv_startValue]
    exact hplace

/-- When an argument counts, its entry holds the length up to its end, and the next one is unused. -/
theorem endValue (h : Sound req st) (hpp : st.pp < HTTP_ARGV_LINE_MAX) :
    st.endValue.req.nargvs = st.a + 1 ∧
      st.endValue.req.argvs st.a = { st.argv with nv := ushortSub st.pp st.argv.v } ∧
      (∀ i < st.a, st.endValue.req.argvs i = st.req.argvs i) ∧
      (∀ i > st.a, (st.endValue.req.argvs i).v = 0) ∧
      (∀ i ≥ HTTP_ARGVS_MAX, st.endValue.req.argvs i = req.argvs i) ∧
      (∀ i ≥ HTTP_ARGV_LINE_MAX, st.endValue.req.line i = req.line i) := by
  have hset := (h.setArgv { st.argv with nv := ushortSub st.pp st.argv.v } rfl h.keyLength
    h.value).put hpp 0
  exact ⟨congrArg (· + 1) h.nargvs,Function.update_self _ _ _,fun i hi => Function.update_of_ne hi.ne _ _,
    hset.unused,hset.argvs,hset.line⟩

/-- The entry of an argument that counts is right exactly when its value does not end below its start. -/
theorem within_iff (h : Sound req st) (hv : st.argv.v ≠ 0) (hpp : st.pp < HTTP_ARGV_LINE_MAX) :
    Within HTTP_ARGV_LINE_MAX (st.endValue.req.argvs st.a) ↔ st.argv.v ≤ st.pp := by
  have hmax : HTTP_ARGV_LINE_MAX < 65536 := by decide
  have hvalue := h.value
  rw [(h.endValue hpp).2.1,Within]
  dsimp only
  rcases Nat.lt_or_ge st.pp st.argv.v with hgt | hle
  · rw [ushortSub_of_gt hgt (by omega)]
    omega
  · rw [ushortSub_of_le hle (by omega)]
    have hkey := h.keyLength hv
    omega

theorem startKey (h : Sound req st) (hpp : st.pp < HTTP_ARGV_LINE_MAX)
    (hslot : st.a + 1 < HTTP_ARGVS_MAX) :
    Sound req st.endValue.startKey ∧ st.endValue.startKey.argv.v = 0 ∧
      ∀ i ≤ st.a, st.endValue.startKey.req.argvs i = st.endValue.req.argvs i := by
  have hmax : HTTP_ARGV_LINE_MAX < 65536 := by decide
  obtain ⟨hcount,-,-,hunused,hargvs,hline⟩ := h.endValue hpp
  have hplace : ushort (st.pp + 1) = st.pp + 1 := ushort_of_lt (by omega)
  have hvalue : st.endValue.startKey.argv.v = 0 := by rw [argv_startKey]
  have hother : ∀ i, i ≠ st.a + 1 → st.endValue.startKey.req.argvs i = st.endValue.req.argvs i :=
    fun i hi => Function.update_of_ne hi _ _
  refine ⟨⟨hslot,hcount,fun i hi => ?_,?_,⟨Nat.succ_ne_zero _,le_rfl⟩,
    fun hne => absurd hvalue hne,by rw [hvalue]; exact Nat.zero_le _,hpp,fun i hi => ?_,hline⟩,hvalue,
    fun i hi => hother i (by omega)⟩
  · have hi' : st.a + 1 < i := hi
    rw [hother i hi'.ne']
    exact hunused i (by omega)
  · rw [argv_startKey]
    exact hplace
  · rw [hother i (by omega)]
    exact hargvs i hi

/-! ### The loop -/

/-- A round of the loop stores a byte, begins a value, or ends an argument. -/
theorem round (h : Sound req st) {c : UInt8} {s : List UInt8}
    (hgo : ¬ (c = 13 ∨ c = 10 ∨ c = 32 ∨ ¬ st.pp < HTTP_ARGV_LINE_MAX)) :
    (∃ b s', s'.length ≤ s.length ∧ httpArgvLoop HTTP_ARGVS_MAX (c::s) st = httpArgvLoop HTTP_ARGVS_MAX s' (st.put b) ∧
      argvStops (c::s) st.pp st.begun = argvStops s' (st.pp + 1) st.begun) ∨
    (st.argv.v = 0 ∧ httpArgvLoop HTTP_ARGVS_MAX (c::s) st = httpArgvLoop HTTP_ARGVS_MAX s st.startValue ∧
      argvStops (c::s) st.pp st.begun = argvStops s (st.pp + 1) true) ∨
    (st.argv.v ≠ 0 ∧ httpArgvLoop HTTP_ARGVS_MAX (c::s) st =
        (if st.a + 1 < HTTP_ARGVS_MAX then httpArgvLoop HTTP_ARGVS_MAX s st.endValue.startKey else none) ∧
      argvStops (c::s) st.pp st.begun = st.pp::argvStops s (st.pp + 1) false) := by
  have hslot : st.a < HTTP_ARGVS_MAX + 1 := Nat.lt_succ_of_lt h.slot
  have hk := h.key_ne
  have hnot : st.begun = false ↔ st.argv.v = 0 := by simp [begun]
  have hyes : st.begun = true ↔ st.argv.v ≠ 0 := by simp [begun]
  rw [httpArgvLoop,if_neg (by tauto),argvStops,if_neg hgo]
  simp only [hnot,hyes]
  by_cases hplus : c = 43
  · subst hplus
    have hesc : escapeAt 43 s = none := by
      rcases s with _ | ⟨x,_ | ⟨y,s⟩⟩
      · rfl
      · rfl
      · rfl
    rw [if_pos rfl,if_neg (by simp),if_neg (by simp),hesc]
    exact .inl ⟨32,s,le_rfl,rfl,rfl⟩
  rw [if_neg hplus]
  by_cases hequals : c = 61 ∧ st.argv.v = 0
  · rw [if_pos ⟨hequals.1,hk,hequals.2⟩,if_pos hequals]
    exact .inr (.inl ⟨hequals.2,rfl,rfl⟩)
  rw [if_neg (by tauto),if_neg hequals]
  by_cases hand : c = 38 ∧ st.argv.v ≠ 0
  · rw [if_pos ⟨hand.1,hk,hand.2⟩,if_pos hand]
    exact .inr (.inr ⟨hand.2,rfl,rfl⟩)
  rw [if_neg (by tauto),if_neg hand]
  cases hesc : escapeAt c s with
  | some b => exact .inl ⟨b,s.drop 2,(List.drop_sublist 2 s).length_le,rfl,rfl⟩
  | none =>
    have hkeep : st.keep c = st.put c := if_pos (.inl hk)
    exact .inl ⟨c,s,le_rfl,by rw [← hkeep],rfl⟩

/-- What the loop leaves: the entries before its own, and those it counts, of which only the first can
be wrong. -/
structure Read (req : HttpReq) (st st' : ArgvState) (stops : List ℕ) : Prop where
  sound : Sound req st'
  le : st.a ≤ st'.a
  before : ∀ i < st.a, st'.req.argvs i = st.req.argvs i
  right : (∀ q ∈ stops, st.argv.v ≤ q) → st'.argv.v ≤ st'.pp ∧
    ∀ i, st.a ≤ i → i < st'.a → Within HTTP_ARGV_LINE_MAX (st'.req.argvs i)
  wrong : (∃ q ∈ stops, q < st.argv.v) → st'.a = st.a ∧ st'.pp < st'.argv.v ∨
    st.a < st'.a ∧ ¬ Within HTTP_ARGV_LINE_MAX (st'.req.argvs st.a)

/-- The loop ends where it is. -/
theorem Read.stop (h : Sound req st) : Read req st st [st.pp] where
  sound := h
  le := le_rfl
  before _ _ := rfl
  right hq := ⟨hq _ (List.mem_singleton_self _),fun i hlow hhigh => absurd hhigh (not_lt.2 hlow)⟩
  wrong := by
    rintro ⟨q,hq,hlt⟩
    rw [List.mem_singleton] at hq
    subst hq
    exact .inl ⟨rfl,hlt⟩

/-- A round in the same entry, before the rest of the loop. -/
theorem Read.same {st1 st' : ArgvState} {stops : List ℕ} (h : Read req st1 st' stops)
    (ha : st1.a = st.a) (hargvs : ∀ i < st.a, st1.req.argvs i = st.req.argvs i)
    (hright : (∀ q ∈ stops, st.argv.v ≤ q) → ∀ q ∈ stops, st1.argv.v ≤ q)
    (hwrong : (∃ q ∈ stops, q < st.argv.v) → ∃ q ∈ stops, q < st1.argv.v) : Read req st st' stops where
  sound := h.sound
  le := ha ▸ h.le
  before i hi := (h.before i (ha ▸ hi)).trans (hargvs i hi)
  right hq := ha ▸ h.right (hright hq)
  wrong hq := ha ▸ h.wrong (hwrong hq)

/-- An argument that counts, before the rest of the loop. -/
theorem Read.next {st' : ArgvState} {stops : List ℕ} (h : Sound req st) (hv : st.argv.v ≠ 0)
    (hpp : st.pp < HTTP_ARGV_LINE_MAX) (hslot : st.a + 1 < HTTP_ARGVS_MAX) (hstops : ∀ q ∈ stops, st.pp ≤ q)
    (hread : Read req st.endValue.startKey st' stops) : Read req st st' (st.pp::stops) where
  sound := hread.sound
  le := (Nat.le_succ _).trans hread.le
  before i hi := by
    obtain ⟨-,-,hkeep⟩ := h.startKey hpp hslot
    rw [hread.before i (Nat.lt_succ_of_lt hi),hkeep i hi.le]
    exact (h.endValue hpp).2.2.1 i hi
  right hq := by
    obtain ⟨-,hzero,hkeep⟩ := h.startKey hpp hslot
    obtain ⟨hfinal,hrecorded⟩ := hread.right fun q _ => by
      rw [hzero]
      exact Nat.zero_le q
    refine ⟨hfinal,fun i hlow hhigh => ?_⟩
    rcases Nat.lt_or_ge st.a i with hi | hi
    · exact hrecorded i hi hhigh
    · have heq : i = st.a := Nat.le_antisymm hi hlow
      subst heq
      rw [hread.before st.a (Nat.lt_succ_self _),hkeep st.a le_rfl]
      exact (h.within_iff hv hpp).2 (hq st.pp (List.mem_cons_self ..))
  wrong := by
    rintro ⟨q,hq,hlt⟩
    obtain ⟨-,-,hkeep⟩ := h.startKey hpp hslot
    have hbelow : st.pp < st.argv.v := by
      rcases List.mem_cons.1 hq with rfl | hq
      · exact hlt
      · exact (hstops q hq).trans_lt hlt
    refine .inr ⟨hread.le,?_⟩
    rw [hread.before st.a (Nat.lt_succ_self _),hkeep st.a le_rfl,h.within_iff hv hpp]
    exact not_le.2 hbelow

theorem loop (h : Sound req st) (s : List UInt8) :
    ((httpArgvLoop HTTP_ARGVS_MAX s st).isSome ↔ st.a + (argvStops s st.pp st.begun).length ≤ HTTP_ARGVS_MAX) ∧
      ∀ st' s', httpArgvLoop HTTP_ARGVS_MAX s st = some (st',s') → Read req st st' (argvStops s st.pp st.begun) := by
  induction hn : s.length using Nat.strong_induction_on generalizing s st with
  | _ n ih =>
    have hslot := h.slot
    have hend : ∀ {s}, httpArgvLoop HTTP_ARGVS_MAX s st = some (st,s) → argvStops s st.pp st.begun = [st.pp] →
        ((httpArgvLoop HTTP_ARGVS_MAX s st).isSome ↔ st.a + (argvStops s st.pp st.begun).length ≤ HTTP_ARGVS_MAX) ∧
          ∀ st' s', httpArgvLoop HTTP_ARGVS_MAX s st = some (st',s') → Read req st st' (argvStops s st.pp st.begun) := by
      intro s hloop hstops
      rw [hloop,hstops]
      refine ⟨iff_of_true rfl hslot,fun st' s' heq => ?_⟩
      cases heq
      exact .stop h
    cases s with
    | nil => exact hend (by rw [httpArgvLoop]) (by rw [argvStops])
    | cons c s =>
      rw [List.length_cons] at hn
      by_cases hstop : c = 13 ∨ c = 10 ∨ c = 32 ∨ ¬ st.pp < HTTP_ARGV_LINE_MAX
      · exact hend (by rw [httpArgvLoop,if_pos (by tauto)]) (by rw [argvStops,if_pos hstop])
      have hpp : st.pp < HTTP_ARGV_LINE_MAX := by tauto
      rcases h.round hstop with ⟨b,s1,hs1,hloop,hstops⟩ | ⟨hv,hloop,hstops⟩ | ⟨hv,hloop,hstops⟩
      · rw [hloop,hstops]
        obtain ⟨hsome,hread⟩ := ih s1.length (by omega) (h.put hpp b) s1 rfl
        refine ⟨hsome,fun st' s' heq => ?_⟩
        exact (hread st' s' heq).same rfl (fun _ _ => rfl) id id
      · rw [hloop,hstops]
        obtain ⟨hsound,hvalue⟩ := h.startValue hpp hv
        have hbegun : st.startValue.begun = true := by
          rw [begun,hvalue]
          exact decide_eq_true (Nat.succ_ne_zero _)
        obtain ⟨hsome,hread⟩ := ih s.length (by omega) hsound s rfl
        rw [hbegun] at hsome hread
        refine ⟨hsome,fun st' s' heq => ?_⟩
        refine (hread st' s' heq).same rfl (fun i hi => ?_) (fun _ q hq => ?_) ?_
        · simp only [ArgvState.startValue,ArgvState.setArgv,ArgvState.put,Function.update_of_ne hi.ne]
        · rw [hvalue]
          exact argvStops_ge hq
        · rintro ⟨q,-,hlt⟩
          rw [hv] at hlt
          exact absurd hlt (Nat.not_lt_zero q)
      · rw [hloop,hstops,List.length_cons]
        by_cases hroom : st.a + 1 < HTTP_ARGVS_MAX
        · rw [if_pos hroom]
          obtain ⟨hsound,hvalue,-⟩ := h.startKey hpp hroom
          have hbegun : st.endValue.startKey.begun = false := by
            rw [begun,hvalue]
            rfl
          obtain ⟨hsome,hread⟩ := ih s.length (by omega) hsound s rfl
          rw [hbegun] at hsome hread
          have ha : st.endValue.startKey.a = st.a + 1 := rfl
          have hplace : st.endValue.startKey.pp = st.pp + 1 := rfl
          rw [ha,hplace] at hsome
          rw [hplace] at hread
          refine ⟨by rw [hsome]; omega,fun st' s' heq => ?_⟩
          exact .next h hv hpp hroom (fun q hq => (Nat.le_succ _).trans (argvStops_ge hq))
            (hread st' s' heq)
        · rw [if_neg hroom]
          have hpos := argvStops_pos s (st.pp + 1) false
          refine ⟨iff_of_false (by simp) (by omega),fun st' s' heq => ?_⟩
          cases heq

end Sound
end ArgvState

/-! ### A call -/

/-- What the calls keep of a record: the entries behind those that count are unused, but for a value that
filled the line. -/
structure ArgvReady (req : HttpReq) : Prop where
  nargvs : req.nargvs ≤ HTTP_ARGVS_MAX
  unused : ∀ i > req.nargvs, (req.argvs i).v = 0
  keyLength : req.argvLeft ≠ 0 → req.argvStart + (req.argvs req.nargvs).nk ≤ HTTP_ARGV_LINE_MAX
  left : req.argvLeft ≤ HTTP_ARGV_LINE_MAX
  nline : req.nline ≤ HTTP_ARGV_LINE_MAX

/-- A call changes no entries that count, and nothing outside of the table and the line. -/
structure ArgvCall (req req' : HttpReq) : Prop where
  ready : ArgvReady req'
  le : req.nargvs ≤ req'.nargvs
  before : ∀ i < req.nargvs, req'.argvs i = req.argvs i
  argvs : ∀ i ≥ HTTP_ARGVS_MAX, req'.argvs i = req.argvs i
  line : ∀ i ≥ HTTP_ARGV_LINE_MAX, req'.line i = req.line i

theorem ArgvReady.zero : ArgvReady HttpReq.zero where
  nargvs := Nat.zero_le _
  unused _ _ := rfl
  keyLength h := absurd rfl h
  left := Nat.zero_le _
  nline := Nat.zero_le _

theorem HttpReq.argvStart_ne (req : HttpReq) : req.argvStart ≠ 0 := by
  unfold HttpReq.argvStart
  split_ifs with h
  · exact Nat.one_ne_zero
  · exact h

/-- The state in which a call begins. -/
def HttpReq.argvState (req : HttpReq) : ArgvState :=
  ArgvState.setArgv ⟨{ req with nline := req.argvStart },req.nargvs,req.argvStart⟩
    { req.argvs req.nargvs with k := ushort req.argvStart }

theorem httpArgvParse_begin {p : List UInt8} (hp : p ≠ []) (req : HttpReq) :
    httpArgvParse p req = if req.nargvs < HTTP_ARGVS_MAX then
      (httpArgvLoop HTTP_ARGVS_MAX p req.argvState).map fun r => ((httpArgvFinish r.1).req,p.length - r.2.length)
      else none := by
  have hreq : (if req.nline = 0 then { req with nline := 1 } else req) =
      { req with nline := req.argvStart } := by
    unfold HttpReq.argvStart
    split_ifs
    · rfl
    · rfl
  unfold httpArgvParse httpArgvParseIn
  rw [if_neg hp,hreq]
  rfl

theorem ArgvReady.sound {req : HttpReq} (h : ArgvReady req) (hslot : req.nargvs < HTTP_ARGVS_MAX) :
    ArgvState.Sound req req.argvState := by
  have hmax : 1 ≤ HTTP_ARGV_LINE_MAX ∧ HTTP_ARGV_LINE_MAX < 65536 := by decide
  have hnline := h.nline
  have hstart : req.argvStart ≤ HTTP_ARGV_LINE_MAX := by
    unfold HttpReq.argvStart
    split_ifs
    · exact hmax.1
    · exact hnline
  have hplace : ushort req.argvStart = req.argvStart := ushort_of_lt (by omega)
  have hargv : req.argvState.argv = { req.argvs req.nargvs with k := req.argvStart } := by
    rw [HttpReq.argvState,ArgvState.argv_setArgv,hplace]
  have hother : ∀ i, i ≠ req.nargvs → req.argvState.req.argvs i = req.argvs i :=
    fun i hi => Function.update_of_ne hi _ _
  refine ⟨hslot,rfl,fun i hi => ?_,by rw [hargv]; rfl,⟨req.argvStart_ne,le_rfl⟩,?_,?_,hstart,
    fun i hi => hother i (by omega),fun _ _ => rfl⟩
  · rw [hother i (Nat.ne_of_gt hi)]
    exact h.unused i hi
  · rw [hargv]
    exact h.keyLength
  · rw [hargv]
    exact h.left

/-- What is left behind when the loop is over. -/
theorem ArgvState.Sound.finish {req : HttpReq} {st : ArgvState} (h : ArgvState.Sound req st) :
    ArgvReady (httpArgvFinish st).req ∧ st.a ≤ (httpArgvFinish st).req.nargvs ∧
      (∀ i < st.a, (httpArgvFinish st).req.argvs i = st.req.argvs i) ∧
      (∀ i ≥ HTTP_ARGVS_MAX, (httpArgvFinish st).req.argvs i = req.argvs i) ∧
      (∀ i ≥ HTTP_ARGV_LINE_MAX, (httpArgvFinish st).req.line i = req.line i) ∧
      (st.argv.v ≤ st.pp → ∀ i, st.a ≤ i → i < (httpArgvFinish st).req.nargvs →
        Within HTTP_ARGV_LINE_MAX ((httpArgvFinish st).req.argvs i)) ∧
      (st.pp < st.argv.v → st.a < (httpArgvFinish st).req.nargvs ∧
        ¬ Within HTTP_ARGV_LINE_MAX ((httpArgvFinish st).req.argvs st.a)) := by
  have hslot := h.slot
  have hvalue := h.value
  have hopen : ∀ {st : ArgvState}, ArgvState.Sound req st → ArgvReady st.req := by
    intro st h
    have hleft : st.req.argvLeft = st.argv.v := by
      rw [HttpReq.argvLeft,h.nargvs]
      rfl
    have hstart : st.req.argvStart = st.argv.k := by rw [HttpReq.argvStart,if_neg h.nline.1,h.key]
    refine ⟨h.nargvs.le.trans h.slot.le,fun i hi => h.unused i (h.nargvs ▸ hi),?_,hleft ▸ h.value,
      h.nline.2.trans h.pp⟩
    rw [hleft,hstart,h.nargvs]
    exact h.keyLength
  unfold httpArgvFinish
  split_ifs with hcount hpp
  · obtain ⟨hnargvs,-,hbefore,hunused,hargvs,hline⟩ := h.endValue hpp
    have hleft : st.endValue.req.argvLeft = 0 := by
      rw [HttpReq.argvLeft,hnargvs]
      exact hunused _ (Nat.lt_succ_self _)
    refine ⟨⟨by rw [hnargvs]; exact hslot,fun i hi => hunused i (by omega),fun hne => absurd hleft hne,
      by rw [hleft]; exact Nat.zero_le _,hpp⟩,by rw [hnargvs]; exact Nat.le_succ _,hbefore,hargvs,hline,?_,?_⟩
    · intro hle i hlow hhigh
      have heq : i = st.a := by omega
      subst heq
      exact (h.within_iff hcount.2.2 hpp).2 hle
    · intro hgt
      rw [hnargvs,h.within_iff hcount.2.2 hpp]
      exact ⟨Nat.lt_succ_self _,not_le.2 hgt⟩
  · have hset := h.setArgv { st.argv with nv := ushortSub st.pp st.argv.v } rfl h.keyLength
      h.value
    refine ⟨hopen hset,hset.nargvs.ge,fun i hi => Function.update_of_ne hi.ne _ _,hset.argvs,hset.line,
      fun _ i hlow hhigh => ?_,fun hgt => by omega⟩
    have hnargvs := hset.nargvs
    change (st.setArgv _).req.nargvs = st.a at hnargvs
    omega
  · have hnargvs := h.nargvs
    refine ⟨hopen h,hnargvs.ge,fun _ _ => rfl,h.argvs,h.line,fun _ i hlow hhigh => by omega,
      fun hgt => ?_⟩
    exact absurd ⟨Nat.lt_succ_of_lt hslot,h.key_ne,by omega⟩ hcount

/-- A call uses entries of the table alone exactly when its arguments fit behind those that count; the new
ones then lie in the line exactly when none ends below an offset that was left behind. -/
theorem httpArgvParse_table {p : List UInt8} (hp : p ≠ []) {req : HttpReq} (h : ArgvReady req) :
    ((httpArgvParse p req).isSome ↔ req.nargvs +
        (argvStops p req.argvStart (decide (req.argvLeft ≠ 0))).length ≤ HTTP_ARGVS_MAX) ∧
      ∀ req' n, httpArgvParse p req = some (req',n) → ArgvCall req req' ∧
        ((∀ i, req.nargvs ≤ i → i < req'.nargvs → Within HTTP_ARGV_LINE_MAX (req'.argvs i)) ↔
          ∀ q ∈ argvStops p req.argvStart (decide (req.argvLeft ≠ 0)), req.argvLeft ≤ q) := by
  have hpos := argvStops_pos p req.argvStart (decide (req.argvLeft ≠ 0))
  rw [httpArgvParse_begin hp]
  by_cases hslot : req.nargvs < HTTP_ARGVS_MAX
  · have hv : req.argvState.argv.v = req.argvLeft := by
      rw [HttpReq.argvState,ArgvState.argv_setArgv]
      rfl
    have hbegun : req.argvState.begun = decide (req.argvLeft ≠ 0) := by rw [ArgvState.begun,hv]
    obtain ⟨hsome,hread⟩ := (h.sound hslot).loop p
    have ha : req.argvState.a = req.nargvs := rfl
    have hplace : req.argvState.pp = req.argvStart := rfl
    rw [hbegun,ha,hplace] at hsome
    rw [hbegun,hplace] at hread
    rw [if_pos hslot]
    refine ⟨by rw [Option.isSome_map]; exact hsome,fun req' n heq => ?_⟩
    obtain ⟨⟨st,s⟩,hloop,hst⟩ := Option.map_eq_some_iff.1 heq
    cases hst
    have hst := hread st s hloop
    obtain ⟨hready,hle,hbefore,hargvs,hline,hright,hwrong⟩ := hst.sound.finish
    have hlow := hst.le
    rw [ha] at hlow
    have hkept : ∀ i < req.nargvs, (httpArgvFinish st).req.argvs i = req.argvs i := by
      intro i hi
      rw [hbefore i (hi.trans_le hlow),hst.before i hi]
      exact Function.update_of_ne hi.ne _ _
    refine ⟨⟨hready,hlow.trans hle,hkept,hargvs,hline⟩,?_,?_⟩
    · intro hall
      by_contra hno
      push Not at hno
      obtain ⟨q,hq,hlt⟩ := hno
      rcases hst.wrong ⟨q,hq,by rw [hv]; exact hlt⟩ with ⟨heq,hgt⟩ | ⟨hlt,hnot⟩
      · obtain ⟨hcount,hnot⟩ := hwrong hgt
        exact hnot (hall st.a hlow hcount)
      · rw [ha] at hlt hnot
        rw [← hbefore _ hlt] at hnot
        exact hnot (hall _ le_rfl (hlt.trans_le hle))
    · intro hall
      obtain ⟨hfinal,hrecorded⟩ := hst.right fun q hq => by
        rw [hv]
        exact hall q hq
      intro i hi hhigh
      rcases Nat.lt_or_ge i st.a with hlt | hge
      · rw [hbefore i hlt]
        exact hrecorded i hi hlt
      · exact hright hfinal i hge hhigh
  · rw [if_neg hslot]
    refine ⟨iff_of_false (by simp) (by omega),fun req' n heq => ?_⟩
    cases heq

end Sbase
