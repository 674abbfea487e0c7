import Mathlib.Data.UInt
import Sbase.Lib.Memory
import Sbase.Lib.FuelLoop

/-! The queries that `evdns_make_query` writes, and the replies that `evdns_parse_reply` reads. -/
namespace Sbase

open Memory FuelLoop

def OFF_MASK : UInt8 := 0xc0
def MAXCDNAME : ℕ := 255
def HFIXEDSZ : ℕ := 12
def QFIXEDSZ : ℕ := 4
def RRFIXEDSZ : ℕ := 10
def TYPE_ANAME : ℕ := 1
def TYPE_CNAME : ℕ := 5
def TYPE_PTR : ℕ := 12
def DNS_NAME_MAX : ℕ := 256
def DNS_MAX_NUM : ℕ := 32

/-! ### The query -/

/-- `(unsigned char)(v & 0xff)` -/
def lowByte (v : ℤ) : UInt8 := UInt8.ofNat (v % 256).toNat

/-- `DNS__SET16BIT(p, v)` -/
def dnsSet16bit (buf : Block UInt8) (p : ℕ) (v : ℤ) : Block UInt8 :=
  Function.update (Function.update buf p (lowByte (v >>> (8 : ℕ)))) (p+1) (lowByte v)

/-- `DNS_HEADER_SET_OPCODE(h, v)` -/
def dnsHeaderSetOpcode (buf : Block UInt8) (h : ℕ) (v : UInt8) : Block UInt8 :=
  Function.update buf (h+2) (buf (h+2) ||| (v &&& 0xf) <<< 3)

/-- `DNS_HEADER_SET_RD(h, v)` -/
def dnsHeaderSetRd (buf : Block UInt8) (h : ℕ) (v : UInt8) : Block UInt8 :=
  Function.update buf (h+2) (buf (h+2) ||| (v &&& 0x1))

/-- The length that the first loop of `evdns_make_query` counts. -/
def queryNameLen (domain : List UInt8) : ℕ :=
  -- For the empty domain `*(p-1)` is the byte before the string, which is taken not to be a dot.
  domain.countP (· ≠ 92) + (if domain.getLast? ≠ some 46 then 1 else 0) + 1

/-- The inner loop: copy the text up to the next dot to `q`, leaving the backslashes out. -/
def copyText : List UInt8 → ℕ → ℕ → Block UInt8 → List UInt8 × ℕ × ℕ × Block UInt8
  | [],q,len,buf => ([],q,len,buf)
  | c::p,q,len,buf =>
    if c = 46 then (c::p,q,len,buf)
    else if c = 92 then copyText p q len buf
    else copyText p (q+1) (len+1) (Function.update buf q c)

theorem copyText_length (p : List UInt8) (q len : ℕ) (buf : Block UInt8) :
    (copyText p q len buf).1.length ≤ p.length := by
  induction p generalizing q len buf with
  | nil => simp [copyText]
  | cons c p ih =>
    rw [copyText]
    split_ifs
    · simp
    · exact (ih q len buf).trans (by simp)
    · exact (ih (q+1) (len+1) _).trans (by simp)

/-- The outer loop writes one label after another; the byte in front of a label is its length. -/
def writeName (p : List UInt8) (q : ℕ) (buf : Block UInt8) : ℕ × Block UInt8 :=
  let r := copyText p (q+1) 0 buf
  let labelled := Function.update r.2.2.2 q (UInt8.ofNat r.2.2.1)
  if h : r.1.tail = [] then (r.2.1,labelled) else writeName r.1.tail r.2.1 labelled
termination_by p.length
decreasing_by
  have hle : r.1.length ≤ p.length := copyText_length p (q+1) 0 buf
  have hpos : 0 < r.1.tail.length := List.length_pos_of_ne_nil h
  change r.1.tail.length < p.length
  rw [List.length_tail] at hpos ⊢
  omega

/-- The new contents of `buf` and the returned value. -/
def evdnsMakeQuery (domain : Option (List UInt8)) (dnsclass type : ℤ) (id : ℕ) (rd : ℤ)
    (buf : Block UInt8) : Block UInt8 × ℤ :=
  match domain with
  | none => (buf,0)
  | some name =>
    let len := queryNameLen name
    if len > MAXCDNAME then (buf,-1)
    else
      let buflen := len + HFIXEDSZ + QFIXEDSZ
      let buf := write buf 0 (List.replicate buflen 0)
      let buf := dnsSet16bit buf 0 id
      let buf := dnsHeaderSetOpcode buf 0 0
      let buf := dnsHeaderSetRd buf 0 (if rd ≠ 0 then 1 else 0)
      let buf := dnsSet16bit buf 4 1
      let name := if name = [46] then [] else name
      let (q,buf) := writeName name HFIXEDSZ buf
      let buf := Function.update buf q 0
      let buf := dnsSet16bit buf (q+1) type
      let buf := dnsSet16bit buf (q+3) dnsclass
      (buf,buflen)

/-! ### The reply -/

/-- Why a run of the parser is not one: the fuel ran out, or an access was outside its memory. -/
inductive DnsFault
  | fuel
  | read
  | write
  deriving DecidableEq, Repr

/-- The result of a lookup; `aliases` is the source's `alias`. -/
structure HostEnt where
  qid : ℕ
  name : Block UInt8
  nalias : ℕ
  aliases : ℕ → Block UInt8
  naddrs : ℕ
  addrs : ℕ → UInt32

/-- The byte at offset `p` of the reply. -/
def fetch (buf : List UInt8) (p : ℕ) : Except DnsFault UInt8 :=
  match buf[p]? with
  | some c => .ok c
  | none => .error .read

/-- Write to offset `q` of a string of `room` bytes. -/
def put (room : ℕ) (name : Block UInt8) (q : ℕ) (c : UInt8) : Except DnsFault (Block UInt8) :=
  if q < room then .ok (Function.update name q c) else .error .write

/-- `DNS__16BIT(p)` -/
def dns16bit (buf : List UInt8) (p : ℕ) : Except DnsFault ℕ := do
  let hi ← fetch buf p
  let lo ← fetch buf (p+1)
  return hi.toNat <<< 8 ||| lo.toNat

/-- `DNS__32BIT(p)`, as the bit pattern of the `int`. -/
def dns32bit (buf : List UInt8) (p : ℕ) : Except DnsFault ℕ := do
  let hi ← dns16bit buf p
  let lo ← dns16bit buf (p+2)
  return hi <<< 16 ||| lo

/-- `*((int *)p)` on a little-endian machine. -/
def loadInt (buf : List UInt8) (p : ℕ) : Except DnsFault UInt32 := do
  let a ← fetch buf p
  let b ← fetch buf (p+1)
  let c ← fetch buf (p+2)
  let d ← fetch buf (p+3)
  return a.toUInt32 ||| b.toUInt32 <<< 8 ||| c.toUInt32 <<< 16 ||| d.toUInt32 <<< 24

/-- The locals of `evdns_expand_name`; `flag` is set once `ret` has a value. -/
structure Expand where
  p : ℕ
  q : ℕ
  ret : Option ℕ
  name : Block UInt8

/-- `while(n-- > 0){*q++ = *p++;}` -/
def copyLabel (buf : List UInt8) (room : ℕ) : ℕ → Expand → Except DnsFault Expand
  | 0,s => .ok s
  | n+1,s => do
    let c ← fetch buf s.p
    let name ← put room s.name s.q c
    copyLabel buf room n { s with p := s.p+1,q := s.q+1,name := name }

/-- The offset of a compression pointer. -/
def pointerOffset (c d : UInt8) : ℕ := (c &&& ~~~OFF_MASK).toNat <<< 8 ||| d.toNat

/-- One round of the loop of `evdns_expand_name`. -/
def expandBody (buf : List UInt8) (room : ℕ) (s : Expand) : Except DnsFault (Expand ⊕ Expand) :=
  match buf[s.p]? with
  | none => .ok (.inr s)
  | some c =>
    if c = 0 then .ok (.inr s)
    else if OFF_MASK ≤ c then do
      let d ← fetch buf (s.p+1)
      .ok (.inl { s with ret := s.ret <|> some (s.p+2),p := pointerOffset c d })
    else do
      let s ← copyLabel buf room c.toNat { s with p := s.p+1 }
      let name ← put room s.name s.q 46
      .ok (.inl { s with q := s.q+1,name := name })

/-- The returned pointer and the string, which has `room` bytes. -/
def evdnsExpandName (fuel : ℕ) (buf : List UInt8) (room ptr : ℕ) (name : Block UInt8) :
    Except DnsFault (ℕ × Block UInt8) := do
  let s ← run .fuel (expandBody buf room) fuel ⟨ptr,0,none,name⟩
  let ret := s.ret.getD (s.p+1)
  let name ← put room s.name s.q 0
  if 0 < s.q ∧ name (s.q-1) = 46 then return (ret,Function.update name (s.q-1) 0)
  else return (ret,name)

/-- The fields of a message header. -/
structure DnsHeader where
  qid : ℕ
  qr : UInt8
  opcode : UInt8
  aa : UInt8
  tc : UInt8
  rd : UInt8
  ra : UInt8
  rcode : UInt8
  qdcount : ℕ
  ancount : ℕ
  nscount : ℕ
  arcount : ℕ
  deriving DecidableEq, Repr

/-- The `DNS_HEADER_*` macros, in the order of `evdns_parse_reply`. -/
def dnsHeader (buf : List UInt8) : Except DnsFault DnsHeader := do
  let qid ← dns16bit buf 0
  let h2 ← fetch buf 2
  let h3 ← fetch buf 3
  let qdcount ← dns16bit buf 4
  let ancount ← dns16bit buf 6
  let nscount ← dns16bit buf 8
  let arcount ← dns16bit buf 10
  return {
    qid := qid
    qr := h2 >>> 7 &&& 0x1
    opcode := h2 >>> 3 &&& 0xf
    aa := h2 >>> 2 &&& 0x1
    tc := h2 >>> 1 &&& 0x1
    rd := h2 &&& 0x1
    ra := h3 >>> 7 &&& 0x1
    rcode := h3 &&& 0xf
    qdcount := qdcount
    ancount := ancount
    nscount := nscount
    arcount := arcount }

/-- The questions: each leaves its name in `hostent->name`. -/
def parseQuestions (fuel : ℕ) (buf : List UInt8) : ℕ → ℕ → HostEnt → Except DnsFault (ℕ × HostEnt)
  | 0,p,h => .ok (p,h)
  | n+1,p,h => do
    let (p,name) ← evdnsExpandName fuel buf DNS_NAME_MAX p h.name
    let _type ← dns16bit buf p
    let _dnsclass ← dns16bit buf (p+2)
    parseQuestions fuel buf n (p+QFIXEDSZ) { h with name := name }

/-- The bytes of the entry `hostent->alias[i]`; there are none behind the last entry. -/
def aliasRoom (i : ℕ) : ℕ := if i < DNS_MAX_NUM then DNS_NAME_MAX else 0

/-- Expand a name into `hostent->alias[hostent->nalias++]`. -/
def expandAlias (fuel : ℕ) (buf : List UInt8) (p : ℕ) (h : HostEnt) :
    Except DnsFault (ℕ × HostEnt) := do
  let (p,name) ← evdnsExpandName fuel buf (aliasRoom h.nalias) p (h.aliases h.nalias)
  return (p,{ h with nalias := h.nalias+1,aliases := Function.update h.aliases h.nalias name })

/-- What an answer of type `type` does with its data at `p`. -/
def parseData (fuel : ℕ) (buf : List UInt8) (type p : ℕ) (h : HostEnt) : Except DnsFault HostEnt :=
  if type = TYPE_ANAME then do
    let addr ← loadInt buf p
    if h.naddrs < DNS_MAX_NUM then
      .ok { h with naddrs := h.naddrs+1,addrs := Function.update h.addrs h.naddrs addr }
    else .error .write
  else if type = TYPE_CNAME then do
    let (_,h) ← expandAlias fuel buf p h
    return h
  else if type = TYPE_PTR then do
    let (_,h) ← expandAlias fuel buf p h
    return h
  else .ok h

/-- The answers. -/
def parseAnswers (fuel : ℕ) (buf : List UInt8) : ℕ → ℕ → HostEnt → Except DnsFault HostEnt
  | 0,_,h => .ok h
  | n+1,p,h => do
    let (p,h) ← expandAlias fuel buf p h
    let type ← dns16bit buf p
    let _dnsclass ← dns16bit buf (p+2)
    let _ttl ← dns32bit buf (p+4)
    let rrlen ← dns16bit buf (p+8)
    let h ← parseData fuel buf type (p+RRFIXEDSZ) h
    parseAnswers fuel buf n (p+RRFIXEDSZ+rrlen) h

/-- The reply `buf`, of `nbuf` bytes. -/
def evdnsParseReply (fuel : ℕ) (buf : List UInt8) (h : HostEnt) : Except DnsFault (HostEnt × ℤ) :=
  if buf.length > HFIXEDSZ then do
    let h := { h with naddrs := 0,nalias := 0 }
    let header ← dnsHeader buf
    let h := { h with qid := header.qid }
    let (p,h) ← parseQuestions fuel buf header.qdcount HFIXEDSZ h
    let h ← parseAnswers fuel buf header.ancount p h
    return (h,0)
  else .ok (h,-1)

end Sbase
