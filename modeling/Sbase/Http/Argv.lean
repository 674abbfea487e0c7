import Sbase.Http.Request

/-! `http_argv_parse` and the round trip of query strings.

The parser decodes into `line`, where keys and values follow one another, each ended by a zero.
An argument in progress is told apart by its offsets: its value is being read once `v` is set. -/
namespace Sbase
open Memory

/-- The parser at a byte: the argument in progress, the place of the next decoded byte, and the
record. -/
structure ArgvState where
  req : HttpReq
  a : ℕ
  pp : ℕ

namespace ArgvState

def argv (st : ArgvState) : HttpKV := st.req.argvs st.a

def setArgv (st : ArgvState) (kv : HttpKV) : ArgvState :=
  { st with req := { st.req with argvs := Function.update st.req.argvs st.a kv } }

/-- `*pp++ = b` -/
def put (st : ArgvState) (b : UInt8) : ArgvState :=
  { st with req := { st.req with line := Function.update st.req.line st.pp b }, pp := st.pp+1 }

/-- A byte outside of any argument is passed over. -/
def keep (st : ArgvState) (b : UInt8) : ArgvState :=
  if st.argv.k ≠ 0 ∨ st.argv.v ≠ 0 then st.put b else st

/-- At a `=`: the key ends and the value begins. -/
def startValue (st : ArgvState) : ArgvState :=
  let st := st.setArgv { st.argv with nk := ushortSub st.pp st.argv.k }
  let st := st.put 0
  st.setArgv { st.argv with v := ushort st.pp }

/-- The value ends and the argument counts. -/
def endValue (st : ArgvState) : ArgvState :=
  let st := st.setArgv { st.argv with nv := ushortSub st.pp st.argv.v }
  let st := st.put 0
  { st with req := { st.req with nline := st.pp, nargvs := st.req.nargvs+1 }, a := st.a+1 }

/-- At a `&`, the next key begins. -/
def startKey (st : ArgvState) : ArgvState :=
  st.setArgv { st.argv with k := ushort st.pp, v := 0 }

end ArgvState

/-- The loop of `http_argv_parse` over the bytes left, with the bytes it does not reach; `none`
where it would use an argument past the first `room` ones. The tests of `pp` against its bound inside
the branches repeat that of the loop. -/
def httpArgvLoop (room : ℕ) : List UInt8 → ArgvState → Option (ArgvState × List UInt8)
  | [], st => some (st, [])
  | c::s, st =>
    if c = 13 ∨ c = 10 ∨ c = 32 ∨ ¬ st.a < HTTP_ARGVS_MAX+1 ∨ ¬ st.pp < HTTP_ARGV_LINE_MAX then
      some (st, c::s)
    else if c = 43 then httpArgvLoop room s (st.put 32)
    else if c = 61 ∧ st.argv.k ≠ 0 ∧ st.argv.v = 0 then httpArgvLoop room s st.startValue
    else if c = 38 ∧ st.argv.k ≠ 0 ∧ st.argv.v ≠ 0 then
      if st.a+1 < room then httpArgvLoop room s st.endValue.startKey else none
    else
      match escapeAt c s with
      | some b => httpArgvLoop room (s.drop 2) (st.put b)
      | none => httpArgvLoop room s (st.keep c)
termination_by s => s.length

/-- The argument in progress at the end of the bytes is closed if its value has begun. -/
def httpArgvFinish (st : ArgvState) : ArgvState :=
  if st.a < HTTP_ARGVS_MAX+1 ∧ st.argv.k ≠ 0 ∧ st.argv.v ≠ 0 then
    if st.pp < HTTP_ARGV_LINE_MAX then st.endValue
    else st.setArgv { st.argv with nv := ushortSub st.pp st.argv.v }
  else st

/-- `http_argv_parse` on the bytes from `p` to `end`, with the first `room` arguments: the record and the
number of bytes read. -/
def httpArgvParseIn (room : ℕ) (p : List UInt8) (req : HttpReq) : Option (HttpReq × ℕ) :=
  if p = [] then some (req, 0)
  else if req.nargvs < room then
    let req := if req.nline = 0 then { req with nline := 1 } else req
    let st : ArgvState := ⟨req, req.nargvs, req.nline⟩
    let st := st.setArgv { st.argv with k := ushort req.nline }
    (httpArgvLoop room p st).map fun r => ((httpArgvFinish r.1).req, p.length - r.2.length)
  else none

/-- `http_argv_parse` within its table. -/
def httpArgvParse (p : List UInt8) (req : HttpReq) : Option (HttpReq × ℕ) :=
  httpArgvParseIn HTTP_ARGVS_MAX p req

/-! ### The encoding -/

/-- How a byte may be written: letters and digits stand for themselves, a space may be a `+`, and
`%` with two digits stands for any byte. -/
inductive EncodesByte : UInt8 → List UInt8 → Prop
  | plain {c : UInt8} (h : isAlnum c = true) : EncodesByte c [c]
  | plus : EncodesByte 32 [43]
  | escape {c h l : UInt8} (hh : hex2ch h = some (c.toNat / 16))
      (hl : hex2ch l = some (c.toNat % 16)) : EncodesByte c [37,h,l]

inductive Encodes : List UInt8 → List UInt8 → Prop
  | nil : Encodes [] []
  | cons {c : UInt8} {cs e es : List UInt8} (head : EncodesByte c e) (tail : Encodes cs es) :
      Encodes (c::cs) (e ++ es)

/-- The pairs joined as `k=v` with `&` between them. -/
inductive EncodesPairs : List (List UInt8 × List UInt8) → List UInt8 → Prop
  | nil : EncodesPairs [] []
  | last {k v ek ev : List UInt8} (hk : Encodes k ek) (hv : Encodes v ev) :
      EncodesPairs [(k,v)] (ek ++ 61::ev)
  | cons {k v ek ev : List UInt8} {kv : List UInt8 × List UInt8}
      {kvs : List (List UInt8 × List UInt8)} {es : List UInt8} (hk : Encodes k ek)
      (hv : Encodes v ev) (tail : EncodesPairs (kv::kvs) es) :
      EncodesPairs ((k,v)::kv::kvs) (ek ++ 61::(ev ++ 38::es))

/-- The room that pairs take in the argument line. -/
def argvRoom (kvs : List (List UInt8 × List UInt8)) : ℕ :=
  (kvs.map fun kv => kv.1.length + 1 + (kv.2.length + 1)).sum

/-- The record holds the pairs: their number, and each one's bytes at its offsets. -/
def HttpReq.Holds (req : HttpReq) (kvs : List (List UInt8 × List UInt8)) : Prop :=
  req.nargvs = kvs.length ∧ ∀ i (hi : i < kvs.length),
    (req.argvs i).nk = kvs[i].1.length ∧ (req.argvs i).nv = kvs[i].2.length ∧
    read req.line (req.argvs i).k (req.argvs i).nk = kvs[i].1 ∧
    read req.line (req.argvs i).v (req.argvs i).nv = kvs[i].2

/-! ### One argument -/

namespace ArgvState

@[simp] theorem argv_put (st : ArgvState) (b : UInt8) : (st.put b).argv = st.argv := rfl
@[simp] theorem argv_setArgv (st : ArgvState) (kv : HttpKV) : (st.setArgv kv).argv = kv := by
  simp [argv, setArgv]

/-- The state after some decoded bytes. -/
def putAll (st : ArgvState) (bs : List UInt8) : ArgvState :=
  { st with req := { st.req with line := write st.req.line st.pp bs }, pp := st.pp + bs.length }

theorem putAll_cons (st : ArgvState) (b : UInt8) (bs : List UInt8) :
    st.putAll (b::bs) = (st.put b).putAll bs := by
  simp only [putAll, put, write_cons, List.length_cons]
  congr 1
  omega

/-- The state behind the bytes of a key and its value. -/
def readPair (st : ArgvState) (k v : List UInt8) : ArgvState := (st.putAll k).startValue.putAll v

theorem startValue_a (st : ArgvState) : st.startValue.a = st.a := by
  simp only [startValue, setArgv, put]

theorem startValue_pp (st : ArgvState) : st.startValue.pp = st.pp+1 := by
  simp only [startValue, setArgv, put]

theorem readPair_a (st : ArgvState) (k v : List UInt8) : (st.readPair k v).a = st.a := by
  simp only [readPair, putAll, startValue_a]

theorem readPair_pp (st : ArgvState) (k v : List UInt8) :
    (st.readPair k v).pp = st.pp + k.length + 1 + v.length := by
  simp only [readPair, putAll, startValue_pp]

@[simp] theorem argv_putAll (st : ArgvState) (bs : List UInt8) : (st.putAll bs).argv = st.argv :=
  rfl

theorem putAll_nil (st : ArgvState) : st.putAll [] = st := by
  simp [putAll]

end ArgvState

/-- A byte that is neither a separator nor part of an escape. -/
theorem isAlnum_plain {c : UInt8} (h : isAlnum c = true) :
    ¬ (c = 13 ∨ c = 10 ∨ c = 32) ∧ c ≠ 43 ∧ c ≠ 61 ∧ c ≠ 38 ∧ c ≠ 37 := by
  refine ⟨?_, ?_, ?_, ?_, ?_⟩
  · rintro (rfl | rfl | rfl) <;> cases h
  all_goals
    rintro rfl
    cases h

/-- Within an argument, an encoded byte is decoded. -/
theorem httpArgvLoop_byte {c : UInt8} {e : List UInt8} (he : EncodesByte c e) (rest : List UInt8)
    (st : ArgvState) (ha : st.a < HTTP_ARGVS_MAX) (hk : st.argv.k ≠ 0)
    (hpp : st.pp < HTTP_ARGV_LINE_MAX) :
    httpArgvLoop HTTP_ARGVS_MAX (e ++ rest) st = httpArgvLoop HTTP_ARGVS_MAX rest (st.put c) := by
  have hin : st.a < HTTP_ARGVS_MAX+1 := Nat.lt_succ_of_lt ha
  cases he with
  | plain h =>
    obtain ⟨hstop, h43, h61, h38, h37⟩ := isAlnum_plain h
    have hkeep : st.keep c = st.put c := if_pos (.inl hk)
    rw [List.singleton_append, httpArgvLoop, if_neg (by tauto), if_neg h43, if_neg (by tauto),
      if_neg (by tauto)]
    have hesc : escapeAt c rest = none := by
      rcases rest with _ | ⟨h, _ | ⟨l, rest⟩⟩
      · rfl
      · rfl
      · exact if_neg h37
    rw [hesc, hkeep]
  | plus =>
    rw [List.singleton_append, httpArgvLoop, if_neg (by simp [hin, hpp]), if_pos rfl]
  | @escape _ h l hh hl =>
    have hesc : escapeAt 37 (h::l::rest) = some c := by
      simp only [escapeAt, unescape, if_pos, hh, hl, ofNat_hex]
    simp only [List.cons_append, List.nil_append]
    rw [httpArgvLoop, if_neg (by simp [hin, hpp]), if_neg (by decide), if_neg (by simp),
      if_neg (by simp), hesc]
    rfl

theorem httpArgvLoop_bytes {cs es : List UInt8} (he : Encodes cs es) (rest : List UInt8)
    (st : ArgvState) (ha : st.a < HTTP_ARGVS_MAX) (hk : st.argv.k ≠ 0)
    (hpp : st.pp + cs.length ≤ HTTP_ARGV_LINE_MAX) :
    httpArgvLoop HTTP_ARGVS_MAX (es ++ rest) st = httpArgvLoop HTTP_ARGVS_MAX rest (st.putAll cs) := by
  induction he generalizing st with
  | nil => rw [List.nil_append, ArgvState.putAll_nil]
  | @cons c cs e es head tail ih =>
    rw [List.length_cons] at hpp
    rw [List.append_assoc, httpArgvLoop_byte head _ st ha hk (by omega),
      ih (st.put c) ha hk (show st.pp + 1 + cs.length ≤ _ by omega), ArgvState.putAll_cons]

/-- The state after a whole argument. -/
theorem ArgvState.pair_eq (st : ArgvState) (k v : List UInt8) (hk : st.argv.k = st.pp)
    (hroom : st.pp + (k.length + 1 + (v.length + 1)) ≤ HTTP_ARGV_LINE_MAX) :
    (st.readPair k v).endValue =
      ⟨{ st.req with
          line := write st.req.line st.pp (k ++ 0::(v ++ [0]))
          argvs := Function.update st.req.argvs st.a
            ⟨k.length, v.length, st.pp, st.pp + k.length + 1⟩
          nline := st.pp + (k.length + 1 + (v.length + 1))
          nargvs := st.req.nargvs+1 },
        st.a+1, st.pp + (k.length + 1 + (v.length + 1))⟩ := by
  have hlt : HTTP_ARGV_LINE_MAX < 65536 := by decide
  have hline : Function.update (write (Function.update (write st.req.line st.pp k)
      (st.pp + k.length) 0) (st.pp + k.length + 1) v) (st.pp + k.length + 1 + v.length) 0
        = write st.req.line st.pp (k ++ 0::(v ++ [0])) := by
    rw [← write_singleton, ← write_singleton, write_write_append, write_write_append,
      show st.pp + k.length + 1 = st.pp + (k ++ [0]).length by simp [Nat.add_assoc],
      write_write_append]
    simp
  have hk' : (st.req.argvs st.a).k = st.pp := hk
  have hnk : ushortSub (st.pp + k.length) st.pp = k.length := by
    rw [ushortSub_of_le (by omega) (by omega), Nat.add_sub_cancel_left]
  have hv : ushort (st.pp + k.length + 1) = st.pp + k.length + 1 := ushort_of_lt (by omega)
  have hnv : ushortSub (st.pp + k.length + 1 + v.length) (st.pp + k.length + 1) = v.length := by
    rw [ushortSub_of_le (by omega) (by omega), Nat.add_sub_cancel_left]
  have hpp : st.pp + k.length + 1 + v.length + 1 = st.pp + (k.length + 1 + (v.length + 1)) := by
    omega
  simp only [readPair, endValue, startValue, putAll, put, setArgv, argv, Function.update_self,
    Function.update_idem, hk', hnk, hv, hnv, hline, hpp]

/-! ### A list of arguments -/

/-- The pair lies in the line below `used`, where the entry says. -/
structure ArgAt (line : Mem) (kv : HttpKV) (pair : List UInt8 × List UInt8) (used : ℕ) : Prop where
  nk_eq : kv.nk = pair.1.length
  nv_eq : kv.nv = pair.2.length
  k_le : kv.k + kv.nk ≤ used
  v_le : kv.v + kv.nv ≤ used
  key_eq : read line kv.k kv.nk = pair.1
  value_eq : read line kv.v kv.nv = pair.2

/-- The arguments parsed so far fill the line up to `used`, and the next entries are unused. -/
structure Built (req : HttpReq) (done : List (List UInt8 × List UInt8)) (used : ℕ) : Prop where
  nargvs_eq : req.nargvs = done.length
  args : ∀ i (hi : i < done.length), ArgAt req.line (req.argvs i) done[i] used
  unused : ∀ i, done.length ≤ i → (req.argvs i).v = 0

theorem ArgAt.write {line : Mem} {kv : HttpKV} {pair : List UInt8 × List UInt8} {used used' : ℕ}
    (h : ArgAt line kv pair used) (hle : used ≤ used') (bs : List UInt8) :
    ArgAt (write line used bs) kv pair used' where
  nk_eq := h.nk_eq
  nv_eq := h.nv_eq
  k_le := h.k_le.trans hle
  v_le := h.v_le.trans hle
  key_eq := by rw [read_write_before line bs h.k_le, h.key_eq]
  value_eq := by rw [read_write_before line bs h.v_le, h.value_eq]

/-- A key and a value behind one another, each with its terminator. -/
theorem argAt_write (line : Mem) (start : ℕ) (k v : List UInt8) :
    ArgAt (write line start (k ++ 0::(v ++ [0]))) ⟨k.length, v.length, start, start + k.length + 1⟩
      (k, v) (start + (k.length + 1 + (v.length + 1))) where
  nk_eq := rfl
  nv_eq := rfl
  k_le := by simp only; omega
  v_le := by simp only; omega
  key_eq := read_write_take line start k _
  value_eq := by
    have hw : write line start (k ++ 0::(v ++ [0])) =
        write (write line start (k ++ [0])) (start + (k ++ [0]).length) (v ++ [0]) := by
      rw [write_write_append]
      simp
    simp only [hw]
    rw [show start + k.length + 1 = start + (k ++ [0]).length by simp [Nat.add_assoc]]
    exact read_write_take _ _ v _

/-- Closing an argument adds its pair. -/
theorem Built.pair {st : ArgvState} {done : List (List UInt8 × List UInt8)}
    (h : Built st.req done st.pp) (ha : st.a = done.length) (k v : List UInt8)
    (hk : st.argv.k = st.pp)
    (hroom : st.pp + (k.length + 1 + (v.length + 1)) ≤ HTTP_ARGV_LINE_MAX) :
    Built (st.readPair k v).endValue.req (done ++ [(k,v)])
      (st.pp + (k.length + 1 + (v.length + 1))) := by
  rw [ArgvState.pair_eq st k v hk hroom]
  refine ⟨by simp [h.nargvs_eq], fun i hi => ?_, fun i hi => ?_⟩
  · rw [List.length_append, List.length_singleton] at hi
    by_cases hlast : i = done.length
    · subst hlast
      simp only [ha, Function.update_self, List.getElem_concat_length]
      exact argAt_write st.req.line st.pp k v
    · have hlt : i < done.length := by omega
      simp only [ha, Function.update_of_ne hlast, List.getElem_append_left hlt]
      exact (h.args i hlt).write (by omega) _
  · rw [List.length_append, List.length_singleton] at hi
    simp only [ha, Function.update_of_ne (show i ≠ done.length by omega)]
    exact h.unused i (by omega)

/-- The bytes of one argument, up to what follows its value. -/
theorem httpArgvLoop_pair {k v ek ev : List UInt8} (hek : Encodes k ek) (hev : Encodes v ev)
    (rest : List UInt8) (st : ArgvState) (ha : st.a < HTTP_ARGVS_MAX) (hk : st.argv.k = st.pp)
    (hpos : 0 < st.pp) (hv : st.argv.v = 0)
    (hroom : st.pp + (k.length + 1 + (v.length + 1)) ≤ HTTP_ARGV_LINE_MAX) :
    httpArgvLoop HTTP_ARGVS_MAX (ek ++ 61::(ev ++ rest)) st =
      httpArgvLoop HTTP_ARGVS_MAX rest (st.readPair k v) := by
  have hk0 : st.argv.k ≠ 0 := by omega
  have hin : (st.putAll k).a < HTTP_ARGVS_MAX+1 := Nat.lt_succ_of_lt ha
  have hpp : (st.putAll k).pp < HTTP_ARGV_LINE_MAX := by
    change st.pp + k.length < _
    omega
  have hsep : (st.putAll k).argv.k ≠ 0 ∧ (st.putAll k).argv.v = 0 := ⟨hk0, hv⟩
  have hk1 : (st.putAll k).startValue.argv.k ≠ 0 := by
    simpa [ArgvState.startValue] using hk0
  have hvalue := httpArgvLoop_bytes hev rest (st.putAll k).startValue ha hk1
    (show st.pp + k.length + 1 + v.length ≤ _ by omega)
  rw [httpArgvLoop_bytes hek _ st ha hk0 (by omega), httpArgvLoop,
    if_neg (by simp [hin, hpp]), if_neg (by decide), if_pos ⟨rfl, hsep⟩, hvalue]
  rfl

/-- In a value, the offsets of key and value are set. -/
theorem ArgvState.inValue (st : ArgvState) (k v : List UInt8) (hk : st.argv.k = st.pp)
    (hpos : 0 < st.pp) (hroom : st.pp + k.length + 1 < 65536) :
    (st.readPair k v).argv.k ≠ 0 ∧
      (st.readPair k v).argv.v ≠ 0 := by
  have hv : ushort (st.pp + k.length + 1) ≠ 0 := by
    rw [ushort_of_lt hroom]
    omega
  constructor
  · change (st.putAll k).startValue.argv.k ≠ 0
    simp only [startValue, argv_setArgv, argv_put]
    change st.argv.k ≠ 0
    omega
  · change (st.putAll k).startValue.argv.v ≠ 0
    simp only [startValue, argv_setArgv]
    exact hv

/-- A `&` behind a value begins the next key. -/
theorem httpArgvLoop_next (es : List UInt8) (st : ArgvState) (ha : st.a+1 < HTTP_ARGVS_MAX)
    (hpp : st.pp < HTTP_ARGV_LINE_MAX) (hin : st.argv.k ≠ 0 ∧ st.argv.v ≠ 0) :
    httpArgvLoop HTTP_ARGVS_MAX (38::es) st = httpArgvLoop HTTP_ARGVS_MAX es st.endValue.startKey := by
  have hlt : st.a < HTTP_ARGVS_MAX+1 := by omega
  rw [httpArgvLoop, if_neg (by simp [hlt, hpp]), if_neg (by decide), if_neg (by simp),
    if_pos ⟨rfl, hin⟩, if_pos ha]

/-- At the end a value in progress is closed. -/
theorem httpArgvFinish_value (st : ArgvState) (ha : st.a < HTTP_ARGVS_MAX)
    (hpp : st.pp < HTTP_ARGV_LINE_MAX) (hin : st.argv.k ≠ 0 ∧ st.argv.v ≠ 0) :
    httpArgvFinish st = st.endValue := by
  unfold httpArgvFinish
  rw [if_pos ⟨Nat.lt_succ_of_lt ha, hin⟩, if_pos hpp]

theorem Built.startKey {st : ArgvState} {done : List (List UInt8 × List UInt8)} {used : ℕ}
    (h : Built st.req done used) (ha : st.a = done.length) : Built st.startKey.req done used where
  nargvs_eq := h.nargvs_eq
  args i hi := by
    have hne : i ≠ st.a := by omega
    simpa [ArgvState.startKey, ArgvState.setArgv, hne] using h.args i hi
  unused i hi := by
    by_cases hi' : i = st.a
    · subst hi'
      simp [ArgvState.startKey, ArgvState.setArgv]
    · simpa [ArgvState.startKey, ArgvState.setArgv, hi'] using h.unused i hi

theorem httpArgvLoop_pairs {kvs : List (List UInt8 × List UInt8)} {es : List UInt8}
    (he : EncodesPairs kvs es) (hne : kvs ≠ []) (st : ArgvState)
    (done : List (List UInt8 × List UInt8)) (hb : Built st.req done st.pp)
    (ha : st.a = done.length) (hk : st.argv.k = st.pp) (hpos : 0 < st.pp) (hv : st.argv.v = 0)
    (hcount : done.length + kvs.length ≤ HTTP_ARGVS_MAX)
    (hroom : st.pp + argvRoom kvs ≤ HTTP_ARGV_LINE_MAX) :
    ∃ st', httpArgvLoop HTTP_ARGVS_MAX es st = some (st', []) ∧
      Built (httpArgvFinish st').req (done ++ kvs) (st.pp + argvRoom kvs) ∧
      (httpArgvFinish st').req.nline = st.pp + argvRoom kvs := by
  have hmax : HTTP_ARGV_LINE_MAX < 65536 := by decide
  induction he generalizing st done with
  | nil => exact absurd rfl hne
  | @last k v ek ev hek hev =>
    have hr : argvRoom [(k,v)] = k.length + 1 + (v.length + 1) := by simp [argvRoom]
    rw [hr] at hroom ⊢
    rw [List.length_singleton] at hcount
    have hloop := httpArgvLoop_pair hek hev [] st (by omega) hk hpos hv hroom
    rw [List.append_nil, httpArgvLoop] at hloop
    have hfin := httpArgvFinish_value (st.readPair k v)
      (by rw [ArgvState.readPair_a]; omega) (by rw [ArgvState.readPair_pp]; omega)
      (st.inValue k v hk hpos (by omega))
    refine ⟨_, hloop, ?_, ?_⟩
    · rw [hfin]
      exact hb.pair ha k v hk hroom
    · rw [hfin, ArgvState.pair_eq st k v hk hroom]
  | @cons k v ek ev kv kvs es hek hev tail ih =>
    have hr : argvRoom ((k,v)::kv::kvs) =
        k.length + 1 + (v.length + 1) + argvRoom (kv::kvs) := by simp [argvRoom]
    have hassoc : done ++ (k,v)::kv::kvs = done ++ [(k,v)] ++ kv::kvs := by simp
    rw [hr, hassoc]
    rw [hr] at hroom
    simp only [List.length_cons] at hcount
    have hloop := httpArgvLoop_pair hek hev (38::es) st (by omega) hk hpos hv (by omega)
    have hnext := httpArgvLoop_next es (st.readPair k v)
      (by rw [ArgvState.readPair_a]; omega) (by rw [ArgvState.readPair_pp]; omega)
      (st.inValue k v hk hpos (by omega))
    have hb' := hb.pair ha k v hk (by omega)
    have hpair := ArgvState.pair_eq st k v hk (by omega)
    rw [hnext] at hloop
    generalize (st.readPair k v).endValue = st1 at hloop hb' hpair
    have hpp : st1.pp = st.pp + (k.length + 1 + (v.length + 1)) := by rw [hpair]
    have ha1 : st1.a = (done ++ [(k,v)]).length := by rw [hpair]; simp [ha]
    have hkpp : st1.startKey.pp = st1.pp := rfl
    have hkey : st1.startKey.argv.k = st1.startKey.pp := by
      rw [hkpp, ArgvState.startKey, ArgvState.argv_setArgv]
      exact ushort_of_lt (by omega)
    rw [← hpp] at hb'
    obtain ⟨st', hl, hb2, hn⟩ := ih (List.cons_ne_nil _ _) st1.startKey (done ++ [(k,v)])
      (hb'.startKey ha1) ha1 hkey (show 0 < st1.pp by omega) (by simp [ArgvState.startKey])
      (by simp; omega) (by rw [hkpp]; omega)
    have hused : st1.startKey.pp + argvRoom (kv::kvs) =
        st.pp + (k.length + 1 + (v.length + 1) + argvRoom (kv::kvs)) := by
      rw [hkpp]
      omega
    rw [hused] at hb2 hn
    exact ⟨st', hloop.trans hl, hb2, hn⟩

/-- Where the next key goes. -/
def HttpReq.argvStart (req : HttpReq) : ℕ := if req.nline = 0 then 1 else req.nline

/-- The first key of a call begins like any other. -/
theorem httpArgvParse_eq {es : List UInt8} (hes : es ≠ []) {req : HttpReq}
    (hn : req.nargvs < HTTP_ARGVS_MAX) (hv : (req.argvs req.nargvs).v = 0) :
    httpArgvParse es req =
      (httpArgvLoop HTTP_ARGVS_MAX es (ArgvState.startKey
        ⟨{ req with nline := req.argvStart }, req.nargvs, req.argvStart⟩)).map
        fun r => ((httpArgvFinish r.1).req, es.length - r.2.length) := by
  have hreq : (if req.nline = 0 then { req with nline := 1 } else req) =
      { req with nline := req.argvStart } := by
    unfold HttpReq.argvStart
    split_ifs <;> rfl
  unfold httpArgvParse httpArgvParseIn
  rw [if_neg hes, if_pos hn, hreq]
  simp only [ArgvState.startKey, ArgvState.argv, ← hv]

/-- A call of the parser appends its pairs to those of earlier calls. -/
theorem httpArgvParse_appends {kvs done : List (List UInt8 × List UInt8)} {es : List UInt8}
    (he : EncodesPairs kvs es) (req : HttpReq) (hb : Built req done req.argvStart)
    (hcount : done.length + kvs.length ≤ HTTP_ARGVS_MAX)
    (hroom : req.argvStart + argvRoom kvs ≤ HTTP_ARGV_LINE_MAX) :
    ∃ req', httpArgvParse es req = some (req', es.length) ∧
      Built req' (done ++ kvs) req'.argvStart ∧
      req'.argvStart = req.argvStart + argvRoom kvs := by
  by_cases hne : kvs = []
  · subst hne
    cases he
    exact ⟨req, rfl, by rwa [List.append_nil], rfl⟩
  have hes : es ≠ [] := by
    cases he with
    | nil => exact absurd rfl hne
    | last hk hv => simp
    | cons hk hv tail => simp
  have hlen : 0 < kvs.length := List.length_pos_iff.mpr hne
  have hpos : 0 < req.argvStart := by
    unfold HttpReq.argvStart
    split_ifs <;> omega
  have hmax : HTTP_ARGV_LINE_MAX < 65536 := by decide
  have ha : req.nargvs = done.length := hb.nargvs_eq
  have hparse := httpArgvParse_eq hes (by omega) (hb.unused req.nargvs ha.ge)
  let st : ArgvState := ⟨{ req with nline := req.argvStart }, req.nargvs, req.argvStart⟩
  have hst : Built st.req done st.pp := ⟨hb.nargvs_eq, hb.args, hb.unused⟩
  have hkey : st.startKey.argv.k = st.pp := by
    rw [ArgvState.startKey, ArgvState.argv_setArgv]
    exact ushort_of_lt (show req.argvStart < 65536 by omega)
  obtain ⟨st', hloop, hbuilt, hnline⟩ := httpArgvLoop_pairs he hne st.startKey done
    (hst.startKey ha) ha hkey hpos (by simp [ArgvState.startKey]) hcount hroom
  have hstart : (httpArgvFinish st').req.argvStart = req.argvStart + argvRoom kvs := by
    rw [HttpReq.argvStart, hnline]
    apply if_neg
    change req.argvStart + _ ≠ 0
    omega
  refine ⟨(httpArgvFinish st').req, ?_, by rwa [hstart], hstart⟩
  rw [hparse, hloop]
  rfl

theorem Built.holds {req : HttpReq} {done : List (List UInt8 × List UInt8)} {used : ℕ}
    (h : Built req done used) : req.Holds done :=
  ⟨h.nargvs_eq, fun i hi => ⟨(h.args i hi).nk_eq, (h.args i hi).nv_eq, (h.args i hi).key_eq,
    (h.args i hi).value_eq⟩⟩

theorem HttpReq.zero_built : Built HttpReq.zero [] HttpReq.zero.argvStart :=
  ⟨rfl, fun _ hi => absurd hi (Nat.not_lt_zero _), fun _ _ => rfl⟩

theorem argvRoom_append (kvs kvs' : List (List UInt8 × List UInt8)) :
    argvRoom (kvs ++ kvs') = argvRoom kvs + argvRoom kvs' := by
  simp [argvRoom]

/-- The round trip of query strings: encoded pairs are read back byte for byte, and those of a
second call are appended to those of the first. -/
theorem http_argv_round_trip (kvs kvs' : List (List UInt8 × List UInt8)) (es es' : List UInt8)
    (he : EncodesPairs kvs es) (he' : EncodesPairs kvs' es')
    (hcount : (kvs ++ kvs').length ≤ HTTP_ARGVS_MAX)
    (hroom : 1 + argvRoom (kvs ++ kvs') ≤ HTTP_ARGV_LINE_MAX) :
    ∃ req req', httpArgvParse es HttpReq.zero = some (req, es.length) ∧ req.Holds kvs ∧
      httpArgvParse es' req = some (req', es'.length) ∧ req'.Holds (kvs ++ kvs') := by
  rw [List.length_append] at hcount
  rw [argvRoom_append] at hroom
  have hzero : HttpReq.zero.argvStart = 1 := rfl
  obtain ⟨req, hp, hb, hs⟩ := httpArgvParse_appends he HttpReq.zero HttpReq.zero_built
    (by simp; omega) (by omega)
  rw [List.nil_append] at hb
  obtain ⟨req', hp', hb', -⟩ := httpArgvParse_appends he' req hb hcount (by omega)
  exact ⟨req, req', hp, hb.holds, hp', hb'.holds⟩

/-- The query string `a=%26&=` followed by the form body `b=+`. -/
theorem http_argv_round_trip_form :
    ∃ req req', httpArgvParse [97,61,37,50,54,38,61] HttpReq.zero = some (req, 7) ∧
      req.Holds [([97],[38]),([],[])] ∧
      httpArgvParse [98,61,43] req = some (req', 3) ∧
      req'.Holds [([97],[38]),([],[]),([98],[32])] := by
  have ha : Encodes [97] [97] := .cons (.plain rfl) .nil
  have hb : Encodes [98] [98] := .cons (.plain rfl) .nil
  have hamp : Encodes [38] [37,50,54] := .cons (.escape rfl rfl) .nil
  have hspace : Encodes [32] [43] := .cons .plus .nil
  exact http_argv_round_trip [([97],[38]),([],[])] [([98],[32])] [97,61,37,50,54,38,61] [98,61,43]
    (.cons ha hamp (.last .nil .nil)) (.last hb hspace) (by decide) (by decide)

/-! ### What the parser leaves alone -/

/-- A record that differs from another one in its arguments and their text alone. -/
def SameButArgs (req req' : HttpReq) : Prop :=
  req' = { req with nargvs := req'.nargvs, nline := req'.nline, argvs := req'.argvs,
                    line := req'.line }

theorem SameButArgs.trans {a b c : HttpReq} (h : SameButArgs a b) (k : SameButArgs b c) :
    SameButArgs a c := by
  rw [SameButArgs,k,h]

theorem ArgvState.keep_same (st : ArgvState) (b : UInt8) : SameButArgs st.req (st.keep b).req := by
  unfold ArgvState.keep
  split_ifs
  · rfl
  · rfl

/-- The loop stops at a byte, or goes on behind it or the escape that it begins. -/
theorem httpArgvLoop_step {room : ℕ} {c : UInt8} {s : List UInt8} {st : ArgvState} {r : ArgvState × List UInt8}
    (h : httpArgvLoop room (c::s) st = some r) :
    r = (st,c::s) ∨ c ≠ 32 ∧ ∃ st' s', SameButArgs st.req st'.req ∧
      (s' = s ∨ (escapeAt c s).isSome ∧ s' = s.drop 2) ∧ httpArgvLoop room s' st' = some r := by
  rw [httpArgvLoop] at h
  by_cases hstop : c = 13 ∨ c = 10 ∨ c = 32 ∨ ¬ st.a < HTTP_ARGVS_MAX + 1 ∨
      ¬ st.pp < HTTP_ARGV_LINE_MAX
  · rw [if_pos hstop] at h
    cases h
    exact .inl rfl
  rw [if_neg hstop] at h
  refine .inr ⟨fun hc => hstop (.inr (.inr (.inl hc))),?_⟩
  split_ifs at h with hplus hequals hand hroom
  · exact ⟨st.put 32,s,rfl,.inl rfl,h⟩
  · exact ⟨st.startValue,s,rfl,.inl rfl,h⟩
  · exact ⟨st.endValue.startKey,s,rfl,.inl rfl,h⟩
  · cases hesc : escapeAt c s with
    | some b =>
      rw [hesc] at h
      exact ⟨st.put b,s.drop 2,rfl,.inr ⟨rfl,rfl⟩,h⟩
    | none =>
      rw [hesc] at h
      exact ⟨_,s,st.keep_same c,.inl rfl,h⟩

theorem httpArgvLoop_same (s : List UInt8) {room : ℕ} {s' : List UInt8} {st st' : ArgvState}
    (h : httpArgvLoop room s st = some (st',s')) : SameButArgs st.req st'.req := by
  induction hn : s.length using Nat.strong_induction_on generalizing s st with
  | _ n ih =>
    cases s with
    | nil =>
      rw [httpArgvLoop] at h
      cases h
      rfl
    | cons c s =>
      rw [List.length_cons] at hn
      rcases httpArgvLoop_step h with heq | ⟨-,st1,s1,hsame,hs1,hrest⟩
      · cases heq
        rfl
      · have hlen : s1.length ≤ s.length := by
          rcases hs1 with rfl | ⟨-,rfl⟩
          · exact le_rfl
          · exact (List.drop_sublist 2 s).length_le
        exact hsame.trans (ih _ (by omega) s1 hrest rfl)

theorem httpArgvFinish_same (st : ArgvState) : SameButArgs st.req (httpArgvFinish st).req := by
  unfold httpArgvFinish
  split_ifs
  · rfl
  · rfl
  · rfl

theorem httpArgvParse_same {room : ℕ} {p : List UInt8} {req req' : HttpReq} {n : ℕ}
    (h : httpArgvParseIn room p req = some (req',n)) : SameButArgs req req' := by
  unfold httpArgvParseIn at h
  split_ifs at h
  · cases h
    rfl
  all_goals
    obtain ⟨⟨st,s⟩,hloop,hst⟩ := Option.map_eq_some_iff.1 h
    cases hst
    exact (httpArgvLoop_same p hloop).trans (httpArgvFinish_same st)

end Sbase
