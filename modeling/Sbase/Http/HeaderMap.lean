import Sbase.Http.Request
import Sbase.Utils.MtrieMap

/-! The tables of `utils/http.h` and the trie that `http_headers_map_init` builds from them.

The three tables share one trie, in which every entry stands under its number in its own table. -/
namespace Sbase

def HTTP_HEADER_NUM : ℕ := 54
def HEAD_REQ_AUTHORIZATION : ℤ := 7
def HEAD_REQ_COOKIE : ℤ := 47

/-- `HTTP_ELEMENT`, as far as the trie is built from it. -/
structure HttpElement where
  elen : ℕ
  e : String

def httpHeaders : List HttpElement :=
  [⟨7,"Accept:"⟩, ⟨15,"Accept-Charset:"⟩, ⟨16,"Accept-Encoding:"⟩, ⟨16,"Accept-Language:"⟩,
   ⟨14,"Accept-Ranges:"⟩, ⟨4,"Age:"⟩, ⟨6,"Allow:"⟩, ⟨14,"Authorization:"⟩, ⟨14,"Cache-Control:"⟩,
   ⟨11,"Connection:"⟩, ⟨17,"Content-Encoding:"⟩, ⟨17,"Content-Language:"⟩, ⟨15,"Content-Length:"⟩,
   ⟨17,"Content-Location:"⟩, ⟨12,"Content-MD5:"⟩, ⟨14,"Content-Range:"⟩, ⟨13,"Content-Type:"⟩,
   ⟨5,"Date:"⟩, ⟨5,"ETag:"⟩, ⟨7,"Expect:"⟩, ⟨8,"Expires:"⟩, ⟨5,"From:"⟩, ⟨5,"Host:"⟩,
   ⟨9,"If-Match:"⟩, ⟨18,"If-Modified-Since:"⟩, ⟨14,"If-None-Match:"⟩, ⟨9,"If-Range:"⟩,
   ⟨20,"If-Unmodified-Since:"⟩, ⟨14,"Last-Modified:"⟩, ⟨9,"Location:"⟩, ⟨13,"Max-Forwards:"⟩,
   ⟨7,"Pragma:"⟩, ⟨19,"Proxy-Authenticate:"⟩, ⟨20,"Proxy-Authorization:"⟩, ⟨6,"Range:"⟩,
   ⟨8,"Referer:"⟩, ⟨12,"Retry-After:"⟩, ⟨7,"Server:"⟩, ⟨3,"TE:"⟩, ⟨8,"Trailer:"⟩,
   ⟨18,"Transfer-Encoding:"⟩, ⟨8,"Upgrade:"⟩, ⟨11,"User-Agent:"⟩, ⟨5,"Vary:"⟩, ⟨4,"Via:"⟩,
   ⟨8,"Warning:"⟩, ⟨17,"WWW-Authenticate:"⟩, ⟨7,"Cookie:"⟩, ⟨11,"Set-Cookie:"⟩, ⟨7,"UserID:"⟩,
   ⟨5,"UUID:"⟩, ⟨11,"Raw-Length:"⟩, ⟨10,"Task-Type:"⟩, ⟨16,"Download-Length:"⟩]

def httpMethods : List HttpElement :=
  [⟨7,"OPTIONS"⟩, ⟨3,"GET"⟩, ⟨4,"HEAD"⟩, ⟨4,"POST"⟩, ⟨3,"PUT"⟩, ⟨6,"DELETE"⟩, ⟨5,"TRACE"⟩,
   ⟨7,"CONNECT"⟩, ⟨4,"TASK"⟩, ⟨8,"DOWNLOAD"⟩, ⟨7,"EXTRACT"⟩]

def responseStatus : List HttpElement :=
  [⟨3,"100"⟩, ⟨3,"101"⟩, ⟨3,"200"⟩, ⟨3,"201"⟩, ⟨3,"202"⟩, ⟨3,"203"⟩, ⟨3,"204"⟩, ⟨3,"205"⟩,
   ⟨3,"206"⟩, ⟨3,"300"⟩, ⟨3,"301"⟩, ⟨3,"302"⟩, ⟨3,"303"⟩, ⟨3,"304"⟩, ⟨3,"305"⟩, ⟨3,"307"⟩,
   ⟨3,"400"⟩, ⟨3,"401"⟩, ⟨3,"402"⟩, ⟨3,"403"⟩, ⟨3,"404"⟩, ⟨3,"405"⟩, ⟨3,"406"⟩, ⟨3,"407"⟩,
   ⟨3,"408"⟩, ⟨3,"409"⟩, ⟨3,"410"⟩, ⟨3,"411"⟩, ⟨3,"412"⟩, ⟨3,"413"⟩, ⟨3,"414"⟩, ⟨3,"415"⟩,
   ⟨3,"416"⟩, ⟨3,"417"⟩, ⟨3,"500"⟩, ⟨3,"501"⟩, ⟨3,"502"⟩, ⟨3,"503"⟩, ⟨3,"504"⟩, ⟨3,"505"⟩]

/-- A letter in lower case: `c - ('A' - 'a')` from `A` to `Z`. -/
def lower (c : UInt8) : UInt8 := if 65 ≤ c ∧ c ≤ 90 then c + 32 else c

/-- The bytes of an ASCII text. -/
def ascii (s : String) : List UInt8 := s.toList.map fun c => UInt8.ofNat c.toNat

/-- The keys of a table, each with its number from 1 on. -/
def elementKeys (f : UInt8 → UInt8) (table : List HttpElement) : List (List UInt8 × ℤ) :=
  (table.map fun x => ((ascii x.e).map f).take x.elen).zipIdx 1 |>.map fun kv => (kv.1,(kv.2 : ℤ))

/-- A loop of `http_headers_map_init`. -/
def addElements (t : Mtrie) (keys : List (List UInt8 × ℤ)) : Mtrie :=
  keys.foldl (fun t kv => (mtrieAdd t kv.1 kv.2).1) t

/-- `http_headers_map_init` -/
def httpHeadersMapInit : Mtrie :=
  let t := addElements mtrieInit (elementKeys lower httpHeaders)
  let t := addElements t (elementKeys lower httpMethods)
  addElements t (elementKeys id responseStatus)

/-- The name of a header in lower case, with its colon. -/
def headerKey (h : ℕ) : List UInt8 := ((httpHeaders[h]?.map fun x => ascii x.e).getD []).map lower

/-! ### The map that the trie stands for -/

/-- Distinct keys that a trie does not have yet. -/
theorem Mapped.addElements {t : Mtrie} {a : KeyMap} (h : Mapped t a)
    (keys : List (List UInt8 × ℤ)) (hproper : ∀ kv ∈ keys, kv.1 ≠ [] ∧ kv.2 ≠ 0)
    (hnew : ∀ kv ∈ keys, a.value kv.1 = 0) (hdist : (keys.map Prod.fst).Nodup) :
    Mapped (addElements t keys) ⟨fun key => (keys.lookup key).getD (a.value key),a.id⟩ := by
  induction keys generalizing t a with
  | nil => exact h
  | cons kv keys ih =>
    obtain ⟨key,data⟩ := kv
    rw [List.map_cons,List.nodup_cons] at hdist
    have hkeys : ∀ kv ∈ keys, kv.1 ≠ key := by
      intro kv hkv heq
      exact hdist.1 (List.mem_map.2 ⟨kv,hkv,heq⟩)
    have hleaf : ¬ (MapOp.add key data).MeetsLeaf t := by
      rintro ⟨c,hsought,-⟩
      cases hsought
    have hadd : (MapOp.add key data).Proper := hproper (key,data) (by simp)
    have hserve := (h.serve hadd hleaf).2
    rw [MapOp.serve,if_pos (hnew (key,data) (by simp))] at hserve
    have hrest := ih hserve (fun kv hkv => hproper kv (by simp [hkv])) (fun kv hkv => ?_) hdist.2
    · have hvalue : (fun k => (((key,data)::keys).lookup k).getD (a.value k)) =
          fun k => (keys.lookup k).getD (Function.update a.value key data k) := by
        funext k
        by_cases hk : k = key
        · have hnone : keys.lookup key = none := by
            rw [List.lookup_eq_none_iff]
            intro kv hkv
            exact bne_iff_ne.2 (hkeys kv hkv).symm
          rw [hk,hnone,List.lookup_cons,beq_self_eq_true,Function.update_self]
          rfl
        · rw [List.lookup_cons,beq_false_of_ne hk,Function.update_of_ne hk]
      rw [hvalue]
      exact hrest
    · simp only [Function.update_of_ne (hkeys kv hkv)]
      exact hnew kv (by simp [hkv])

/-- All the keys of the trie. -/
def httpKeys : List (List UInt8 × ℤ) :=
  elementKeys lower httpHeaders ++ elementKeys lower httpMethods ++ elementKeys id responseStatus

theorem addElements_append (t : Mtrie) (keys keys' : List (List UInt8 × ℤ)) :
    addElements t (keys ++ keys') = addElements (addElements t keys) keys' :=
  List.foldl_append

/-- What is checked of the keys, in one evaluation of the tables: that no two are the same is checked on
numbers, which are compared faster than lists of bytes. -/
theorem httpKeys_checked : (∀ kv ∈ httpKeys, (2 ≤ kv.1.length ∧ kv.1.length < HTTP_HEAD_MAX) ∧
    (0 < kv.2 ∧ kv.2 ≤ HTTP_HEADER_NUM) ∧ 58 ∉ kv.1.dropLast ∧ 13 ∉ kv.1) ∧
    ((httpKeys.map Prod.fst).map fun key => key.foldl (fun n c => 256*n+c.toNat) 0).Nodup := by
  decide +kernel

/-- Every key has a few bytes, with a colon at the end if at all and no CR, and a number of the tables. -/
theorem httpKeys_shape : ∀ kv ∈ httpKeys, (2 ≤ kv.1.length ∧ kv.1.length < HTTP_HEAD_MAX) ∧
    (0 < kv.2 ∧ kv.2 ≤ HTTP_HEADER_NUM) ∧ 58 ∉ kv.1.dropLast ∧ 13 ∉ kv.1 := httpKeys_checked.1

theorem httpKeys_proper : ∀ kv ∈ httpKeys, kv.1 ≠ [] ∧ kv.2 ≠ 0 := by
  intro kv hkv
  obtain ⟨⟨hlong,-⟩,⟨hpos,-⟩,-⟩ := httpKeys_shape kv hkv
  refine ⟨?_,hpos.ne'⟩
  intro hnil
  rw [hnil] at hlong
  exact absurd hlong (by decide)

theorem httpKeys_distinct : (httpKeys.map Prod.fst).Nodup := httpKeys_checked.2.of_map

theorem httpHeadersMapInit_mapped :
    Mapped httpHeadersMapInit ⟨fun key => (httpKeys.lookup key).getD 0,0⟩ := by
  have h := mtrieInit_mapped.addElements httpKeys httpKeys_proper (fun _ _ => rfl) httpKeys_distinct
  rwa [httpKeys,addElements_append,addElements_append] at h

/-- What `mtrie_get` finds in the trie, for any bytes. -/
theorem mtrieGet_httpHeadersMapInit (key : List UInt8) :
    mtrieGet httpHeadersMapInit key = (httpKeys.lookup key).getD 0 := by
  by_cases hkey : key = []
  · have hnone : httpKeys.lookup [] = none := by
      rw [List.lookup_eq_none_iff]
      intro kv hkv
      exact bne_iff_ne.2 (httpKeys_proper kv hkv).1.symm
    rw [hkey,hnone,mtrieGet]
    rfl
  · apply httpHeadersMapInit_mapped.get hkey
    rintro ⟨c,-,-,hdata⟩
    apply hdata
    have hroot := httpHeadersMapInit_mapped.stores.ends (BlockTree.At.root c)
    have hnone : httpKeys.lookup [c] = none := by
      rw [List.lookup_eq_none_iff]
      intro kv hkv
      apply bne_iff_ne.2
      intro heq
      have hlong := (httpKeys_shape kv hkv).1.1
      rw [← heq,List.length_singleton] at hlong
      omega
    rw [hroot]
    simp only [hnone]
    rfl

/-! ### Entries of the tables -/

theorem mem_elementKeys {f : UInt8 → UInt8} {table : List HttpElement} {word : List UInt8} {n : ℤ} :
    (word,n) ∈ elementKeys f table ↔
      0 < n ∧ (table.map fun x => ((ascii x.e).map f).take x.elen)[(n - 1).toNat]? = some word := by
  rw [elementKeys,List.mem_map]
  constructor
  · rintro ⟨⟨w,k⟩,hmem,heq⟩
    obtain ⟨rfl,rfl⟩ := Prod.mk.inj heq
    obtain ⟨hle,hget⟩ := List.mk_mem_zipIdx_iff_le_and_getElem?_sub.1 hmem
    refine ⟨by omega,?_⟩
    rw [show ((k : ℤ) - 1).toNat = k - 1 by omega]
    exact hget
  · rintro ⟨hpos,hget⟩
    refine ⟨(word,n.toNat),List.mk_mem_zipIdx_iff_le_and_getElem?_sub.2 ⟨by omega,?_⟩,?_⟩
    · rw [show n.toNat - 1 = (n - 1).toNat by omega]
      exact hget
    · rw [Prod.mk.injEq]
      exact ⟨rfl,by dsimp only; omega⟩

theorem lookup_of_mem {keys : List (List UInt8 × ℤ)} (hdist : (keys.map Prod.fst).Nodup)
    {word : List UInt8} {n : ℤ} (hmem : (word,n) ∈ keys) : keys.lookup word = some n := by
  obtain ⟨l,k,rfl⟩ := List.append_of_mem hmem
  rw [List.lookup_eq_some_iff]
  refine ⟨l,k,rfl,fun kv hkv => bne_iff_ne.2 ?_⟩
  rw [List.map_append,List.nodup_append] at hdist
  exact (hdist.2.2 _ (List.mem_map_of_mem hkv) _ (by simp)).symm

/-- An entry of the tables is found under its number. -/
theorem mtrieGet_mem {word : List UInt8} {n : ℤ} (hmem : (word,n) ∈ httpKeys) :
    mtrieGet httpHeadersMapInit word = n := by
  rw [mtrieGet_httpHeadersMapInit,lookup_of_mem httpKeys_distinct hmem]
  rfl

theorem mtrieGet_notMem {word : List UInt8} (hno : ∀ n, (word,n) ∉ httpKeys) :
    mtrieGet httpHeadersMapInit word = 0 := by
  have hnone : httpKeys.lookup word = none := by
    rw [List.lookup_eq_none_iff]
    intro kv hkv
    apply bne_iff_ne.2
    rintro rfl
    exact hno kv.2 hkv
  rw [mtrieGet_httpHeadersMapInit,hnone]
  rfl

/-- The names of headers have no blanks, and are entered whole. -/
theorem httpHeaders_plain : ∀ x ∈ httpHeaders, (ascii x.e).length ≤ x.elen ∧
    32 ∉ (ascii x.e).map lower ∧ ((ascii x.e).map lower).getLast? = some 58 := by decide +kernel

theorem headerKey_eq {h : ℕ} (hh : h < HTTP_HEADER_NUM) :
    ∃ x ∈ httpHeaders, httpHeaders[h]? = some x ∧ headerKey h = (ascii x.e).map lower := by
  have hlt : h < httpHeaders.length := hh
  have hget : httpHeaders[h]? = some httpHeaders[h] := List.getElem?_eq_getElem hlt
  refine ⟨_,List.getElem_mem _,hget,?_⟩
  rw [headerKey,hget]
  rfl

theorem headerKey_plain (h : ℕ) (hh : h < HTTP_HEADER_NUM) :
    32 ∉ headerKey h ∧ (headerKey h).getLast? = some 58 := by
  obtain ⟨x,hx,-,hkey⟩ := headerKey_eq hh
  rw [hkey]
  exact (httpHeaders_plain x hx).2

theorem headerKey_mem {h : ℕ} (hh : h < HTTP_HEADER_NUM) : (headerKey h,(h : ℤ) + 1) ∈ httpKeys := by
  obtain ⟨x,hx,hget,hkey⟩ := headerKey_eq hh
  refine List.mem_append_left _ (List.mem_append_left _ (mem_elementKeys.2 ⟨by omega,?_⟩))
  have hlen := (httpHeaders_plain x hx).1
  rw [show ((h : ℤ) + 1 - 1).toNat = h by omega,List.getElem?_map,hget,hkey,Option.map_some,
    List.take_of_length_le (by rwa [List.length_map])]

theorem headerKey_short (h : ℕ) (hh : h < HTTP_HEADER_NUM) : (headerKey h).length < HTTP_HEAD_MAX :=
  (httpKeys_shape _ (headerKey_mem hh)).1.2

/-- Entries found in the trie have a number of the tables. -/
theorem mtrieGet_lt (key : List UInt8) : mtrieGet httpHeadersMapInit key ≤ HTTP_HEADER_NUM := by
  rw [mtrieGet_httpHeadersMapInit]
  cases hlook : httpKeys.lookup key with
  | none => decide
  | some n =>
    obtain ⟨l,k,hmem,-⟩ := List.lookup_eq_some_iff.1 hlook
    have hshape := httpKeys_shape (key,n) (by simp [hmem])
    exact hshape.2.1.2

/-- The key of a header is found under its number. -/
theorem mtrieGet_headerKey {h : ℕ} (hh : h < HTTP_HEADER_NUM) :
    mtrieGet httpHeadersMapInit (headerKey h) - 1 = h := by
  rw [mtrieGet_mem (headerKey_mem hh)]
  omega

/-- Where more follows a colon, no key is found. -/
theorem mtrieGet_colon {key : List UInt8} (hkey : 58 ∈ key.dropLast) :
    mtrieGet httpHeadersMapInit key = 0 :=
  mtrieGet_notMem fun n hn => (httpKeys_shape (key,n) hn).2.2.1 hkey

/-- At the end of a line, no key is found. -/
theorem mtrieGet_cr {key : List UInt8} (hkey : 13 ∈ key) : mtrieGet httpHeadersMapInit key = 0 :=
  mtrieGet_notMem fun n hn => (httpKeys_shape (key,n) hn).2.2.2 hkey

end Sbase
