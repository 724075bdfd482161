import Qcg.Engine.Confirmation
import Qcg.Policy.HttpUrl

/-!
# The details of an HTTP operation

What an approval of an HTTP request is bound to: the method and salted digests of the headers,
the canonical URL and, unless the method only reads, the body and the sensitive query values.
Header names are folded to lower case, but in the order of the unfolded names.
-/

namespace Qcg

open Json (Value Members)
open Encoding

structure HttpRequest where
  method : String
  headers : BTreeMap String
  body : Option (List UInt8)
  sensitive : BTreeMap String
  url : String

def saltedBindingDigest (sha256 : Sha256) (domain salt : String) (bytes : List UInt8) : String :=
  sha256.hex (utf8 domain ++ [0] ++ utf8 salt ++ [0] ++ bytes)

def toAsciiLowercase (s : String) : String :=
  String.ofList (s.toList.map Char.toLower)

/-- Each name and each value with a zero byte after it. -/
def pairsBytes (pairs : List (String × String)) : List UInt8 :=
  pairs.flatMap fun pair => utf8 pair.1 ++ [0] ++ (utf8 pair.2 ++ [0])

def foldedHeaders (headers : BTreeMap String) : List (String × String) :=
  headers.toList.map fun header => (toAsciiLowercase header.1, header.2)

def headersSha256 (sha256 : Sha256) (headers : BTreeMap String) (salt : String) : String :=
  saltedBindingDigest sha256 "http-headers-v1" salt (pairsBytes (foldedHeaders headers))

def isSafeMethod (method : String) : Bool :=
  method = "GET" || method = "HEAD"

def optionalText (text : Option String) : Value :=
  text.elim .null .str

def httpOperationDetails (sha256 : Sha256) (method : String) (headers : BTreeMap String)
    (body : Option (List UInt8)) (sensitiveQuery : BTreeMap String) (salt : String) :
    Option Value :=
  if isSafeMethod method then none
  else
    let sensitiveSha256 :=
      saltedBindingDigest sha256 "http-sensitive-v1" salt (pairsBytes sensitiveQuery.toList)
    let bodySha256 := body.map (saltedBindingDigest sha256 "http-body-v1" salt)
    some (.obj (Members.ofList [("method", .str method),
      ("headers_sha256", .str (headersSha256 sha256 headers salt)),
      ("body_sha256", optionalText bodySha256),
      ("sensitive_query_sha256",
        optionalText (if sensitiveQuery.isEmpty then none else some sensitiveSha256))]))

def urlSha256 (sha256 : Sha256) (salt url : String) : String :=
  saltedBindingDigest sha256 "http-url-v1" salt (utf8 (Policy.canonicalHttpUrl url))

def safeHttpDetails (sha256 : Sha256) (method : String) (headers : BTreeMap String)
    (salt url : String) : Option Value :=
  some (.obj (Members.ofList [("method", .str method),
    ("headers_sha256", .str (headersSha256 sha256 headers salt)),
    ("url_sha256", .str (urlSha256 sha256 salt url)), ("safe_read", .bool true)]))

def httpDetailsWithUrl (sha256 : Sha256) (salt : String) (request : HttpRequest) : Option Value :=
  if isSafeMethod request.method then
    safeHttpDetails sha256 request.method request.headers salt request.url
  else do
    let details ← httpOperationDetails sha256 request.method request.headers request.body
      request.sensitive salt
    match details with
    | .obj members =>
      some (.obj (Members.insert members "url_sha256" (.str (urlSha256 sha256 salt request.url))))
    | details => some details

def NulFree (pairs : List (String × String)) : Prop :=
  ∀ pair ∈ pairs, '\x00' ∉ pair.1.toList ∧ '\x00' ∉ pair.2.toList

instance (pairs : List (String × String)) : Decidable (NulFree pairs) :=
  inferInstanceAs (Decidable (∀ pair ∈ pairs, _))

structure HttpRequest.NulFree (request : HttpRequest) : Prop where
  headers : Qcg.NulFree request.headers.toList
  sensitive : Qcg.NulFree request.sensitive.toList

theorem saltedBindingDigest_inj {sha256 : Sha256} (hcollision : Function.Injective sha256.hex)
    {domain salt : String} {bytes bytes' : List UInt8} :
    saltedBindingDigest sha256 domain salt bytes = saltedBindingDigest sha256 domain salt bytes' ↔
      bytes = bytes' := by
  constructor
  · intro h
    exact List.append_cancel_left (hcollision h)
  · rintro rfl
    rfl

theorem delimited_nulTerminated :
    Delimited (fun text : String => '\x00' ∉ text.toList) fun text => utf8 text ++ [0] :=
  delimited_of_terminator (fun _ => zero_notMem_utf8) fun _ _ _ _ h => utf8_injective h

theorem pairsBytes_inj {l r : List (String × String)} (hl : NulFree l) (hr : NulFree r) :
    pairsBytes l = pairsBytes r ↔ l = r := by
  constructor
  · intro h
    have hpairs := delimited_nulTerminated.pair fun _ _ => delimited_nulTerminated
    exact hpairs.flatMap_inj (by simp) hl hr h
  · rintro rfl
    rfl

theorem toLower_ne_nul {c : Char} (h : c ≠ '\x00') : c.toLower ≠ '\x00' := by
  unfold Char.toLower
  split
  · next hupper =>
    intro heq
    have hval : c.val + ('a'.val - 'A'.val) = 0 := congrArg Char.val heq
    have hle : c.val.toNat ≤ 90 := hupper.2
    have hnat := congrArg UInt32.toNat hval
    rw [UInt32.toNat_add, show ('a'.val - 'A'.val).toNat = 32 from rfl, UInt32.toNat_zero] at hnat
    omega
  · exact h

theorem nul_notMem_toAsciiLowercase {s : String} (h : '\x00' ∉ s.toList) :
    '\x00' ∉ (toAsciiLowercase s).toList := by
  rw [toAsciiLowercase, String.toList_ofList, List.mem_map]
  rintro ⟨c, hc, hlower⟩
  apply toLower_ne_nul _ hlower
  rintro rfl
  exact h hc

variable {headers : BTreeMap String}

theorem nulFree_foldedHeaders (h : NulFree headers.toList) : NulFree (foldedHeaders headers) := by
  intro pair hpair
  obtain ⟨header, hheader, rfl⟩ := List.mem_map.mp hpair
  exact ⟨nul_notMem_toAsciiLowercase (h header hheader).1, (h header hheader).2⟩

theorem toList_injective {l r : BTreeMap String} (h : l.toList = r.toList) : l = r := by
  rw [← BTreeMap.extend_empty_toList l, h, BTreeMap.extend_empty_toList]

section

variable {sha256 : Sha256} {salt : String} {request request' : HttpRequest}

def detail (sha256 : Sha256) (salt : String) (request : HttpRequest) (key : String) :
    Option Value :=
  (httpDetailsWithUrl sha256 salt request).bind (·.get key)

theorem httpDetailsWithUrl_safe (h : isSafeMethod request.method = true) :
    httpDetailsWithUrl sha256 salt request = some (.obj (Members.ofList
      [("method", .str request.method),
        ("headers_sha256", .str (headersSha256 sha256 request.headers salt)),
        ("url_sha256", .str (urlSha256 sha256 salt request.url)), ("safe_read", .bool true)])) := by
  rw [httpDetailsWithUrl, if_pos h, safeHttpDetails]

theorem httpDetailsWithUrl_mutating (h : isSafeMethod request.method = false) :
    httpDetailsWithUrl sha256 salt request = some (.obj (Members.insert (Members.ofList
      [("method", .str request.method),
        ("headers_sha256", .str (headersSha256 sha256 request.headers salt)),
        ("body_sha256", optionalText
          (request.body.map (saltedBindingDigest sha256 "http-body-v1" salt))),
        ("sensitive_query_sha256", optionalText (if request.sensitive.isEmpty then none
          else some (saltedBindingDigest sha256 "http-sensitive-v1" salt
            (pairsBytes request.sensitive.toList))))])
      "url_sha256" (.str (urlSha256 sha256 salt request.url)))) := by
  rw [httpDetailsWithUrl, if_neg (by simp [h]), httpOperationDetails, if_neg (by simp [h])]
  rfl

theorem detail_common :
    detail sha256 salt request "method" = some (.str request.method) ∧
      detail sha256 salt request "headers_sha256" =
        some (.str (headersSha256 sha256 request.headers salt)) ∧
      detail sha256 salt request "url_sha256" =
        some (.str (urlSha256 sha256 salt request.url)) := by
  cases h : isSafeMethod request.method with
  | true =>
    simp only [detail, httpDetailsWithUrl_safe h, Option.bind_some, Value.get_obj]
    simp [Members.get_ofList, Members.get_cons]
  | false =>
    simp only [detail, httpDetailsWithUrl_mutating h, Option.bind_some, Value.get_obj]
    simp [Members.get_insert, Members.get_ofList, Members.get_cons]

theorem detail_content (h : isSafeMethod request.method = false) :
    detail sha256 salt request "body_sha256" = some (optionalText
        (request.body.map (saltedBindingDigest sha256 "http-body-v1" salt))) ∧
      detail sha256 salt request "sensitive_query_sha256" = some (optionalText
        (if request.sensitive.isEmpty then none
          else some (saltedBindingDigest sha256 "http-sensitive-v1" salt
            (pairsBytes request.sensitive.toList)))) := by
  simp only [detail, httpDetailsWithUrl_mutating h, Option.bind_some, Value.get_obj]
  simp [Members.get_insert, Members.get_ofList, Members.get_cons]

theorem optionalText_inj {l r : Option String} : optionalText l = optionalText r ↔ l = r := by
  cases l <;> cases r <;> simp [optionalText]

section

variable (hcollision : Function.Injective sha256.hex)

include hcollision

theorem headersSha256_inj {headers' : BTreeMap String} (h : NulFree headers.toList)
    (h' : NulFree headers'.toList) :
    headersSha256 sha256 headers salt = headersSha256 sha256 headers' salt ↔
      foldedHeaders headers = foldedHeaders headers' := by
  rw [headersSha256, headersSha256, saltedBindingDigest_inj hcollision,
    pairsBytes_inj (nulFree_foldedHeaders h) (nulFree_foldedHeaders h')]

theorem urlSha256_inj {url url' : String} :
    urlSha256 sha256 salt url = urlSha256 sha256 salt url' ↔
      (Policy.urlParts url).Same (Policy.urlParts url') := by
  rw [urlSha256, urlSha256, saltedBindingDigest_inj hcollision, utf8_injective.eq_iff,
    Policy.canonicalHttpUrl_eq_iff]

theorem bodySha256_inj
    {body body' : Option (List UInt8)} :
    body.map (saltedBindingDigest sha256 "http-body-v1" salt) =
      body'.map (saltedBindingDigest sha256 "http-body-v1" salt) ↔ body = body' := by
  apply (Option.map_injective _).eq_iff
  intro l r h
  exact (saltedBindingDigest_inj hcollision).mp h

theorem sensitiveSha256_inj
    {sensitive sensitive' : BTreeMap String} (h : NulFree sensitive.toList)
    (h' : NulFree sensitive'.toList) :
    ((if sensitive.isEmpty then none else some (saltedBindingDigest sha256 "http-sensitive-v1"
        salt (pairsBytes sensitive.toList))) =
      if sensitive'.isEmpty then none else some (saltedBindingDigest sha256 "http-sensitive-v1"
        salt (pairsBytes sensitive'.toList))) ↔ sensitive = sensitive' := by
  constructor
  · intro heq
    cases hempty : sensitive.isEmpty with
    | true =>
      cases hempty' : sensitive'.isEmpty with
      | true =>
        rw [Std.ExtTreeMap.isEmpty_iff] at hempty hempty'
        rw [hempty, hempty']
      | false => simp [hempty, hempty'] at heq
    | false =>
      cases hempty' : sensitive'.isEmpty with
      | true => simp [hempty, hempty'] at heq
      | false =>
        simp only [hempty, hempty', Bool.false_eq_true, if_false, Option.some.injEq,
          saltedBindingDigest_inj hcollision, pairsBytes_inj h h'] at heq
        exact toList_injective heq
  · rintro rfl
    rfl

theorem httpDetailsWithUrl_eq_iff
    (h : request.NulFree) (h' : request'.NulFree) :
    httpDetailsWithUrl sha256 salt request = httpDetailsWithUrl sha256 salt request' ↔
      request.method = request'.method ∧
        foldedHeaders request.headers = foldedHeaders request'.headers ∧
        (Policy.urlParts request.url).Same (Policy.urlParts request'.url) ∧
        (isSafeMethod request.method = false →
          request.body = request'.body ∧ request.sensitive = request'.sensitive) := by
  constructor
  · intro heq
    have hdetail : ∀ key, detail sha256 salt request key = detail sha256 salt request' key := by
      intro key
      rw [detail, detail, heq]
    obtain ⟨hmethod, hheaders, hurl⟩ := @detail_common sha256 salt request
    obtain ⟨hmethod', hheaders', hurl'⟩ := @detail_common sha256 salt request'
    have hsame : request.method = request'.method := by
      have hfield := hdetail "method"
      rw [hmethod, hmethod'] at hfield
      simpa using hfield
    refine ⟨hsame, ?_, ?_, ?_⟩
    · rw [← headersSha256_inj hcollision h.headers h'.headers]
      have hfield := hdetail "headers_sha256"
      rw [hheaders, hheaders'] at hfield
      simpa using hfield
    · rw [← urlSha256_inj hcollision]
      have hfield := hdetail "url_sha256"
      rw [hurl, hurl'] at hfield
      simpa using hfield
    · intro hunsafe
      obtain ⟨hbody, hsensitive⟩ := @detail_content sha256 salt request hunsafe
      obtain ⟨hbody', hsensitive'⟩ := @detail_content sha256 salt request' (hsame ▸ hunsafe)
      constructor
      · rw [← bodySha256_inj hcollision]
        have hfield := hdetail "body_sha256"
        rw [hbody, hbody', Option.some.injEq, optionalText_inj] at hfield
        exact hfield
      · rw [← sensitiveSha256_inj hcollision h.sensitive h'.sensitive]
        have hfield := hdetail "sensitive_query_sha256"
        rw [hsensitive, hsensitive', Option.some.injEq, optionalText_inj] at hfield
        exact hfield
  · rintro ⟨hmethod, hheaders, hurl, hcontent⟩
    have hheadersSha : headersSha256 sha256 request.headers salt =
        headersSha256 sha256 request'.headers salt :=
      (headersSha256_inj hcollision h.headers h'.headers).mpr hheaders
    have hurlSha : urlSha256 sha256 salt request.url = urlSha256 sha256 salt request'.url :=
      (urlSha256_inj hcollision).mpr hurl
    cases hsafe : isSafeMethod request.method with
    | true =>
      rw [httpDetailsWithUrl_safe hsafe, httpDetailsWithUrl_safe (hmethod ▸ hsafe), hmethod,
        hheadersSha, hurlSha]
    | false =>
      obtain ⟨hbody, hsensitive⟩ := hcontent hsafe
      rw [httpDetailsWithUrl_mutating hsafe, httpDetailsWithUrl_mutating (hmethod ▸ hsafe), hmethod,
        hheadersSha, hurlSha, hbody, hsensitive]

end

/-- Requests that stand for the same operation: the order of headers and of query pieces does
not count, and neither does the case of header names. -/
structure HttpRequest.Matches (request request' : HttpRequest) : Prop where
  method : request.method = request'.method
  headers : (foldedHeaders request.headers).Perm (foldedHeaders request'.headers)
  url : (Policy.urlParts request.url).Same (Policy.urlParts request'.url)
  content : isSafeMethod request.method = false →
    request.body = request'.body ∧ request.sensitive = request'.sensitive

/-- The details tell requests apart exactly as matching does, if matching requests list their
folded headers in the same order. -/
theorem details_eq_iff_matches_iff (hcollision : Function.Injective sha256.hex)
    (h : request.NulFree) (h' : request'.NulFree) :
    (httpDetailsWithUrl sha256 salt request = httpDetailsWithUrl sha256 salt request' ↔
        request.Matches request') ↔
      (request.Matches request' →
        foldedHeaders request.headers = foldedHeaders request'.headers) := by
  rw [httpDetailsWithUrl_eq_iff hcollision h h']
  constructor
  · intro hiff hmatches
    exact (hiff.mpr hmatches).2.1
  · intro horder
    constructor
    · rintro ⟨hmethod, hheaders, hurl, hcontent⟩
      exact ⟨hmethod, hheaders ▸ .refl _, hurl, hcontent⟩
    · intro hmatches
      exact ⟨hmatches.method, horder hmatches, hmatches.url, hmatches.content⟩

def postRequest (headers : List (String × String)) (url : String) : HttpRequest where
  method := "POST"
  headers := BTreeMap.extend ∅ headers
  body := some [1]
  sensitive := ∅
  url := url

/-- The same headers with other capitals: the map lists them in the other order, and an approval
of one request does not answer for the other. -/
theorem details_ne_of_capitals :
    (postRequest [("A", "1"), ("b", "2")] "http://h/p?x;y").Matches
        (postRequest [("a", "1"), ("B", "2")] "http://h/p?y&x") ∧
      httpDetailsWithUrl spelledSha256 "run"
          (postRequest [("A", "1"), ("b", "2")] "http://h/p?x;y") ≠
        httpDetailsWithUrl spelledSha256 "run"
          (postRequest [("a", "1"), ("B", "2")] "http://h/p?y&x") := by
  refine ⟨⟨rfl, by decide +kernel, ?_, fun _ => ⟨rfl, rfl⟩⟩, by decide +kernel⟩
  exact Policy.canonicalHttpUrl_eq_iff.mp (by decide +kernel)

/-- Capitals that leave the order alone, and another order of the query. -/
theorem details_eq_iff_matches_iff_post :
    httpDetailsWithUrl spelledSha256 "run"
        (postRequest [("A", "1"), ("B", "2")] "http://h/p?x;y") =
      httpDetailsWithUrl spelledSha256 "run"
        (postRequest [("a", "1"), ("b", "2")] "http://h/p?y&x") ∧
      (postRequest [("A", "1"), ("B", "2")] "http://h/p?x;y").Matches
        (postRequest [("a", "1"), ("b", "2")] "http://h/p?y&x") := by
  have heq : httpDetailsWithUrl spelledSha256 "run"
        (postRequest [("A", "1"), ("B", "2")] "http://h/p?x;y") =
      httpDetailsWithUrl spelledSha256 "run"
        (postRequest [("a", "1"), ("b", "2")] "http://h/p?y&x") := by
    decide +kernel
  have hiff := (@details_eq_iff_matches_iff spelledSha256 "run"
    (postRequest [("A", "1"), ("B", "2")] "http://h/p?x;y")
    (postRequest [("a", "1"), ("b", "2")] "http://h/p?y&x") spelled_injective
    ⟨by decide +kernel, by decide +kernel⟩ ⟨by decide +kernel, by decide +kernel⟩).mpr
    fun _ => by decide +kernel
  exact ⟨heq, hiff.mp heq⟩

end

end Qcg
