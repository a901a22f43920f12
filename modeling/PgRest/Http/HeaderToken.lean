import PgRest.Bytes

/-! Known header names. `pgrest_http_header_find_token` looks a name up by its length, its last byte and
a comparison of the bytes before it; the entries it returns are in a table, and macros name them by their
place there. -/
namespace PgRest.Http

/-- `pgrest_http_header_token_t`. No entry has a handler, and every `offset` is 0. -/
structure HeaderTokenEntry where
  elem : Bytes
  index : Nat
  drop : Bool
  reject : Bool
  copy : Bool
deriving DecidableEq, Repr

/-- `pgrest_header_tokens` -/
def headerTokens : List HeaderTokenEntry := [
  ⟨ascii ":authority", 1, false, false, false⟩,
  ⟨ascii ":method", 2, false, false, false⟩,
  ⟨ascii ":path", 4, false, false, false⟩,
  ⟨ascii ":scheme", 6, false, false, false⟩,
  ⟨ascii ":status", 8, false, false, false⟩,
  ⟨ascii "accept", 19, false, false, true⟩,
  ⟨ascii "accept-charset", 15, false, false, true⟩,
  ⟨ascii "accept-encoding", 16, false, false, true⟩,
  ⟨ascii "accept-language", 17, false, false, true⟩,
  ⟨ascii "accept-ranges", 18, false, false, false⟩,
  ⟨ascii "access-control-allow-origin", 20, false, false, false⟩,
  ⟨ascii "age", 21, false, false, false⟩,
  ⟨ascii "allow", 22, false, false, false⟩,
  ⟨ascii "authorization", 23, false, false, false⟩,
  ⟨ascii "cache-control", 24, false, false, false⟩,
  ⟨ascii "cache-digest", 0, false, false, false⟩,
  ⟨ascii "connection", 0, true, true, false⟩,
  ⟨ascii "content-disposition", 25, false, false, false⟩,
  ⟨ascii "content-encoding", 26, false, false, false⟩,
  ⟨ascii "content-language", 27, false, false, false⟩,
  ⟨ascii "content-length", 28, false, false, false⟩,
  ⟨ascii "content-location", 29, false, false, false⟩,
  ⟨ascii "content-range", 30, false, false, false⟩,
  ⟨ascii "content-type", 31, false, false, false⟩,
  ⟨ascii "cookie", 32, false, false, false⟩,
  ⟨ascii "date", 33, true, false, false⟩,
  ⟨ascii "etag", 34, false, false, false⟩,
  ⟨ascii "expect", 35, false, false, false⟩,
  ⟨ascii "expires", 36, false, false, false⟩,
  ⟨ascii "from", 37, false, false, false⟩,
  ⟨ascii "host", 38, false, true, false⟩,
  ⟨ascii "http2-settings", 0, true, true, false⟩,
  ⟨ascii "if-match", 39, false, false, false⟩,
  ⟨ascii "if-modified-since", 40, false, false, false⟩,
  ⟨ascii "if-none-match", 41, false, false, false⟩,
  ⟨ascii "if-range", 42, false, false, false⟩,
  ⟨ascii "if-unmodified-since", 43, false, false, false⟩,
  ⟨ascii "keep-alive", 0, true, false, false⟩,
  ⟨ascii "last-modified", 44, false, false, false⟩,
  ⟨ascii "link", 45, false, false, false⟩,
  ⟨ascii "location", 46, false, false, false⟩,
  ⟨ascii "max-forwards", 47, false, false, false⟩,
  ⟨ascii "proxy-authenticate", 48, true, false, false⟩,
  ⟨ascii "proxy-authorization", 49, true, false, false⟩,
  ⟨ascii "range", 50, false, false, false⟩,
  ⟨ascii "referer", 51, false, false, false⟩,
  ⟨ascii "refresh", 52, false, false, false⟩,
  ⟨ascii "retry-after", 53, false, false, false⟩,
  ⟨ascii "server", 54, true, false, false⟩,
  ⟨ascii "set-cookie", 55, false, false, false⟩,
  ⟨ascii "strict-transport-security", 56, false, false, false⟩,
  ⟨ascii "te", 0, true, true, false⟩,
  ⟨ascii "transfer-encoding", 57, true, true, false⟩,
  ⟨ascii "upgrade", 0, true, true, false⟩,
  ⟨ascii "user-agent", 58, false, false, true⟩,
  ⟨ascii "vary", 59, false, false, false⟩,
  ⟨ascii "via", 60, false, false, false⟩,
  ⟨ascii "www-authenticate", 61, false, false, false⟩,
  ⟨ascii "x-compress-hint", 0, false, false, false⟩,
  ⟨ascii "x-forwarded-for", 0, false, false, false⟩,
  ⟨ascii "x-reproxy-url", 0, false, false, false⟩,
  ⟨ascii "x-traffic", 0, false, false, false⟩]

/-- The macros `PGREST_HEADER_TOKEN_...` -/
inductive HeaderToken where
  | authority | method | path | scheme | status | accept | acceptCharset | acceptEncoding | acceptLanguage
  | acceptRanges | accessControlAllowOrigin | age | allow | authorization | cacheControl | cacheDigest
  | connection | contentDisposition | contentEncoding | contentLanguage | contentLength | contentLocation
  | contentRange | contentType | cookie | date | etag | expect | expires | from' | host | http2Settings
  | ifMatch | ifModifiedSince | ifNoneMatch | ifRange | ifUnmodifiedSince | keepAlive | lastModified | link
  | location | maxForwards | proxyAuthenticate | proxyAuthorization | range | referer | refresh | retryAfter
  | server | setCookie | strictTransportSecurity | te | transferEncoding | upgrade | userAgent | vary | via
  | wwwAuthenticate | xCompressHint | xForwardedFor | xReproxyUrl | xTraffic
deriving DecidableEq, Repr

/-- The place in `pgrest_header_tokens` that a macro stands for. -/
def HeaderToken.offset : HeaderToken → Nat
  | .authority => 0 | .method => 1 | .path => 2 | .scheme => 3 | .status => 4 | .accept => 5
  | .acceptCharset => 6 | .acceptEncoding => 7 | .acceptLanguage => 8 | .acceptRanges => 9
  | .accessControlAllowOrigin => 10 | .age => 11 | .allow => 12 | .authorization => 13 | .cacheControl => 14
  | .cacheDigest => 15 | .connection => 16 | .contentDisposition => 17 | .contentEncoding => 18
  | .contentLanguage => 19 | .contentLength => 20 | .contentLocation => 21 | .contentRange => 22
  | .contentType => 23 | .cookie => 24 | .date => 25 | .etag => 26 | .expect => 27 | .expires => 28
  | .from' => 29 | .host => 30 | .http2Settings => 31 | .ifMatch => 32 | .ifModifiedSince => 33
  | .ifNoneMatch => 34 | .ifRange => 35 | .ifUnmodifiedSince => 36 | .keepAlive => 37 | .lastModified => 38
  | .link => 39 | .location => 40 | .maxForwards => 41 | .proxyAuthenticate => 42 | .proxyAuthorization => 43
  | .range => 44 | .referer => 45 | .refresh => 46 | .retryAfter => 47 | .server => 48 | .setCookie => 49
  | .strictTransportSecurity => 50 | .te => 51 | .transferEncoding => 52 | .upgrade => 53 | .userAgent => 54
  | .vary => 55 | .via => 56 | .wwwAuthenticate => 57 | .xCompressHint => 58 | .xForwardedFor => 59
  | .xReproxyUrl => 60 | .xTraffic => 61

/-- What follows `PGREST_HEADER_TOKEN_` in the name of a macro. -/
def HeaderToken.name : HeaderToken → String
  | .authority => "AUTHORITY" | .method => "METHOD" | .path => "PATH" | .scheme => "SCHEME"
  | .status => "STATUS" | .accept => "ACCEPT" | .acceptCharset => "ACCEPT_CHARSET"
  | .acceptEncoding => "ACCEPT_ENCODING" | .acceptLanguage => "ACCEPT_LANGUAGE"
  | .acceptRanges => "ACCEPT_RANGES" | .accessControlAllowOrigin => "ACCESS_CONTROL_ALLOW_ORIGIN"
  | .age => "AGE" | .allow => "ALLOW" | .authorization => "AUTHORIZATION" | .cacheControl => "CACHE_CONTROL"
  | .cacheDigest => "CACHE_DIGEST" | .connection => "CONNECTION"
  | .contentDisposition => "CONTENT_DISPOSITION" | .contentEncoding => "CONTENT_ENCODING"
  | .contentLanguage => "CONTENT_LANGUAGE" | .contentLength => "CONTENT_LENGTH"
  | .contentLocation => "CONTENT_LOCATION" | .contentRange => "CONTENT_RANGE"
  | .contentType => "CONTENT_TYPE" | .cookie => "COOKIE" | .date => "DATE" | .etag => "ETAG"
  | .expect => "EXPECT" | .expires => "EXPIRES" | .from' => "FROM" | .host => "HOST"
  | .http2Settings => "HTTP2_SETTINGS" | .ifMatch => "IF_MATCH" | .ifModifiedSince => "IF_MODIFIED_SINCE"
  | .ifNoneMatch => "IF_NONE_MATCH" | .ifRange => "IF_RANGE" | .ifUnmodifiedSince => "IF_UNMODIFIED_SINCE"
  | .keepAlive => "KEEP_ALIVE" | .lastModified => "LAST_MODIFIED" | .link => "LINK" | .location => "LOCATION"
  | .maxForwards => "MAX_FORWARDS" | .proxyAuthenticate => "PROXY_AUTHENTICATE"
  | .proxyAuthorization => "PROXY_AUTHORIZATION" | .range => "RANGE" | .referer => "REFERER"
  | .refresh => "REFRESH" | .retryAfter => "RETRY_AFTER" | .server => "SERVER" | .setCookie => "SET_COOKIE"
  | .strictTransportSecurity => "STRICT_TRANSPORT_SECURITY" | .te => "TE"
  | .transferEncoding => "TRANSFER_ENCODING" | .upgrade => "UPGRADE" | .userAgent => "USER_AGENT"
  | .vary => "VARY" | .via => "VIA" | .wwwAuthenticate => "WWW_AUTHENTICATE"
  | .xCompressHint => "X_COMPRESS_HINT" | .xForwardedFor => "X_FORWARDED_FOR"
  | .xReproxyUrl => "X_REPROXY_URL" | .xTraffic => "X_TRAFFIC"

/-- The switch over the length, each case with the place of the byte that the switch inside is over, the
cases of this byte, and the comparisons there: text, number of bytes, and what is returned. -/
def lengthCases : List (Nat × Nat × List (Char × List (String × Nat × HeaderToken))) := [
  (2, 1, [
    ('e', [("t", 1, .te)])]),
  (3, 2, [
    ('a', [("vi", 2, .via)]),
    ('e', [("ag", 2, .age)])]),
  (4, 3, [
    ('e', [("dat", 3, .date)]),
    ('g', [("eta", 3, .etag)]),
    ('k', [("lin", 3, .link)]),
    ('m', [("fro", 3, .from')]),
    ('t', [("hos", 3, .host)]),
    ('y', [("var", 3, .vary)])]),
  (5, 4, [
    ('e', [("rang", 4, .range)]),
    ('h', [(":pat", 4, .path)]),
    ('w', [("allo", 4, .allow)])]),
  (6, 5, [
    ('e', [("cooki", 5, .cookie)]),
    ('r', [("serve", 5, .server)]),
    ('t', [("accep", 5, .accept), ("expec", 5, .expect)])]),
  (7, 6, [
    ('d', [(":metho", 6, .method)]),
    ('e', [(":schem", 6, .scheme), ("upgrad", 6, .upgrade)]),
    ('h', [("refres", 6, .refresh)]),
    ('r', [("refere", 6, .referer)]),
    ('s', [(":statu", 6, .status), ("expire", 6, .expires)])]),
  (8, 7, [
    ('e', [("if-rang", 7, .ifRange)]),
    ('h', [("if-matc", 7, .ifMatch)]),
    ('n', [("locatio", 7, .location)])]),
  (9, 8, [
    ('c', [("x-traffi", 8, .xTraffic)])]),
  (10, 9, [
    ('e', [("keep-aliv", 9, .keepAlive), ("set-cooki", 9, .setCookie)]),
    ('n', [("connectio", 9, .connection)]),
    ('t', [("user-agen", 9, .userAgent)]),
    ('y', [(":authorit", 9, .authority)])]),
  (11, 10, [
    ('r', [("retry-afte", 10, .retryAfter)])]),
  (12, 11, [
    ('e', [("content-typ", 11, .contentType)]),
    ('s', [("max-forward", 11, .maxForwards)]),
    ('t', [("cache-diges", 11, .cacheDigest)])]),
  (13, 12, [
    ('d', [("last-modifie", 12, .lastModified)]),
    ('e', [("content-rang", 12, .contentRange)]),
    ('h', [("if-none-matc", 12, .ifNoneMatch)]),
    ('l', [("cache-contro", 12, .cacheControl), ("x-reproxy-ur", 12, .xReproxyUrl)]),
    ('n', [("authorizatio", 12, .authorization)]),
    ('s', [("accept-range", 12, .acceptRanges)])]),
  (14, 13, [
    ('h', [("content-lengt", 13, .contentLength)]),
    ('s', [("http2-setting", 13, .http2Settings)]),
    ('t', [("accept-charse", 13, .acceptCharset)])]),
  (15, 14, [
    ('e', [("accept-languag", 14, .acceptLanguage)]),
    ('g', [("accept-encodin", 14, .acceptEncoding)]),
    ('r', [("x-forwarded-fo", 14, .xForwardedFor)]),
    ('t', [("x-compress-hin", 14, .xCompressHint)])]),
  (16, 15, [
    ('e', [("content-languag", 15, .contentLanguage), ("www-authenticat", 15, .wwwAuthenticate)]),
    ('g', [("content-encodin", 15, .contentEncoding)]),
    ('n', [("content-locatio", 15, .contentLocation)])]),
  (17, 16, [
    ('e', [("if-modified-sinc", 16, .ifModifiedSince)]),
    ('g', [("transfer-encodin", 16, .transferEncoding)])]),
  (18, 17, [
    ('e', [("proxy-authenticat", 17, .proxyAuthenticate)])]),
  (19, 18, [
    ('e', [("if-unmodified-sinc", 18, .ifUnmodifiedSince)]),
    ('n', [("content-dispositio", 18, .contentDisposition), ("proxy-authorizatio", 18, .proxyAuthorization)])]),
  (25, 24, [
    ('y', [("strict-transport-securit", 24, .strictTransportSecurity)])]),
  (27, 26, [
    ('n', [("access-control-allow-origi", 26, .accessControlAllowOrigin)])])]

/-- `memcmp(s, t, n) == 0`, `none` where `s` or `t` has fewer bytes. -/
def memcmp (s t : Bytes) (n : Nat) : Option Bool :=
  if s.length < n ∨ t.length < n then none else some (s.take n == t.take n)

/-- The comparisons of one case, one after the other. -/
def compareAll (name : Bytes) : List (String × Nat × HeaderToken) → Option (Option Nat)
  | [] => some none
  | (text, n, token) :: rest =>
    (memcmp name (ascii text ++ [0]) n).bind fun same =>
      if same then some (some token.offset) else compareAll name rest

/-- `pgrest_http_header_find_token`: the place of the entry, or `none` for NULL. Where a byte beyond the
name is read there is no result. -/
def findToken (name : Bytes) : Option (Option Nat) :=
  match lengthCases.find? fun l => l.1 == name.length with
  | none => some none
  | some (_, i, lasts) =>
    name[i]?.bind fun c =>
      match lasts.find? fun l => l.1.toNat.toUInt8 == c with
      | none => some none
      | some (_, tests) => compareAll name tests

/-- The name of a header as macros have it: capitals, underscores for hyphens, and no colon in front. -/
def macroName (elem : Bytes) : Bytes :=
  (if elem.head? = some colon then elem.tail else elem).map fun c =>
    if 97 ≤ c ∧ c ≤ 122 then c - 32 else if c = 45 then 95 else c

/-- The lookup, the table and the macros agree. -/
structure TokensAgree : Prop where
  count : headerTokens.length = 62
  lookup : ∀ name, findToken name = some (headerTokens.findIdx? fun e => e.elem == name)
  own : ∀ (k : Nat) e, headerTokens[k]? = some e → findToken e.elem = some (some k)
  named : ∀ t : HeaderToken, (headerTokens[t.offset]?).map (fun e => macroName e.elem) = some (ascii t.name)

/-! ### What is found -/

/-- A comparison covers the bytes in front of the last one, and its entry has the text and this byte. -/
theorem lengthCases_covers : ∀ l ∈ lengthCases, l.2.1 + 1 = l.1 ∧ ∀ b ∈ l.2.2, ∀ t ∈ b.2,
    (ascii t.1).length = l.2.1 ∧ t.2.1 = l.2.1 ∧
      (headerTokens[t.2.2.offset]?).map HeaderTokenEntry.elem = some (ascii t.1 ++ [b.1.toNat.toUInt8]) := by
  decide +kernel

theorem findToken_elem : ∀ k (h : k < headerTokens.length), findToken headerTokens[k].elem = some (some k) := by
  decide +kernel

theorem macros_named (t : HeaderToken) :
    (headerTokens[t.offset]?).map (fun e => macroName e.elem) = some (ascii t.name) := by
  cases t <;> rfl

/-- The comparisons stay within the name, and one that holds says what its first bytes are. -/
theorem compareAll_spec {name : Bytes} {n : Nat} (hn : n ≤ name.length) {tests : List (String × Nat × HeaderToken)}
    (hlen : ∀ t ∈ tests, (ascii t.1).length = n ∧ t.2.1 = n) :
    ∃ r, compareAll name tests = some r ∧
      ∀ k ∈ r, ∃ t ∈ tests, t.2.2.offset = k ∧ name.take n = ascii t.1 := by
  induction tests with
  | nil => exact ⟨none, rfl, by simp⟩
  | cons t tests ih =>
    obtain ⟨text, m, token⟩ := t
    obtain ⟨htext, hm⟩ := hlen _ (List.mem_cons_self ..)
    dsimp only at htext hm
    subst hm
    have hcmp : memcmp name (ascii text ++ [0]) m = some (name.take m == ascii text) := by
      rw [memcmp, if_neg (by rw [List.length_append]; omega), ← htext, List.take_left]
    rw [compareAll, hcmp, Option.bind_some]
    split
    · next hsame =>
      refine ⟨_, rfl, fun k hk => ⟨_, List.mem_cons_self .., Option.some.inj hk, beq_iff_eq.mp hsame⟩⟩
    · obtain ⟨r, hr, hfound⟩ := ih fun t ht => hlen t (List.mem_cons_of_mem _ ht)
      refine ⟨r, hr, fun k hk => ?_⟩
      obtain ⟨t, ht, hoffset, htake⟩ := hfound k hk
      exact ⟨t, List.mem_cons_of_mem _ ht, hoffset, htake⟩

/-- No byte beyond the name is read, and an entry that is returned has the name. -/
theorem findToken_sound (name : Bytes) : ∃ r, findToken name = some r ∧
    ∀ k ∈ r, (headerTokens[k]?).map HeaderTokenEntry.elem = some name := by
  cases hcase : lengthCases.find? fun l => l.1 == name.length with
  | none =>
    refine ⟨none, ?_, by simp⟩
    simp only [findToken, hcase]
  | some l =>
    obtain ⟨len, i, lasts⟩ := l
    have hlen := List.find?_some hcase
    simp only [beq_iff_eq] at hlen
    obtain ⟨hi, htests⟩ := lengthCases_covers _ (List.mem_of_find?_eq_some hcase)
    dsimp only at hi htests
    have hlast : i < name.length := by omega
    have hget := List.getElem?_eq_getElem hlast
    have hsplit : name.take i ++ [name[i]] = name := by
      rw [List.take_append_getElem hlast, List.take_of_length_le (by omega)]
    cases hbyte : lasts.find? fun l => l.1.toNat.toUInt8 == name[i] with
    | none =>
      refine ⟨none, ?_, by simp⟩
      simp only [findToken, hcase, hget, Option.bind_some, hbyte]
    | some b =>
      have hb := List.find?_some hbyte
      simp only [beq_iff_eq] at hb
      have hleaf := htests b (List.mem_of_find?_eq_some hbyte)
      obtain ⟨r, hr, hfound⟩ := compareAll_spec (Nat.le_of_lt hlast) fun t ht =>
        ⟨(hleaf t ht).1, (hleaf t ht).2.1⟩
      refine ⟨r, ?_, fun k hk => ?_⟩
      · simp only [findToken, hcase, hget, Option.bind_some, hbyte]
        exact hr
      · obtain ⟨t, ht, rfl, htake⟩ := hfound k hk
        rw [(hleaf t ht).2.2, hb, ← htake, hsplit]

/-- **Header names are looked up as in the table**, and no byte beyond the name is read. -/
theorem tokens_agree : TokensAgree where
  count := rfl
  lookup name := by
    obtain ⟨r, hr, hsound⟩ := findToken_sound name
    rw [hr]
    cases hidx : headerTokens.findIdx? fun e => e.elem == name with
    | some k =>
      obtain ⟨hk, helem, -⟩ := List.findIdx?_eq_some_iff_getElem.mp hidx
      rw [← hr, ← beq_iff_eq.mp helem]
      exact findToken_elem k hk
    | none =>
      cases r with
      | none => rfl
      | some k =>
        obtain ⟨e, he, hname⟩ := Option.map_eq_some_iff.mp (hsound k rfl)
        have hne := List.findIdx?_eq_none_iff.mp hidx e (List.mem_of_getElem? he)
        rw [hname, beq_self_eq_true] at hne
        cases hne
  own k e he := by
    obtain ⟨hk, rfl⟩ := List.getElem?_eq_some_iff.mp he
    exact findToken_elem k hk
  named := macros_named

end PgRest.Http
