import HotCache.Proofs.RequestLine

/-! What Nginx takes out of the request of the client: whether the getfile module serves it, under which key
the download runs, and what the server is asked for. -/

namespace HotCache

open CStr

section Key

/-- `lp` ends as `getfile_support_type` wants it. -/
def EndsInType (lp : Bytes) : Prop := ∃ t ∈ supportTypes, t <:+ lp

instance (lp : Bytes) : Decidable (EndsInType lp) := inferInstanceAs (Decidable (∃ t ∈ supportTypes, t <:+ lp))

theorem suffix_of_notMem {t a b : Bytes} {c : UInt8} (h : t <:+ a ++ c :: b) (hc : c ∉ t) : t <:+ b := by
  rcases List.suffix_or_suffix_of_suffix h (List.suffix_append a (c :: b)) with h | h
  · rcases List.suffix_cons_iff.mp h with rfl | h
    · exact absurd List.mem_cons_self hc
    · exact h
  · exact absurd (h.subset List.mem_cons_self) hc

theorem supportTypes_spec {t : Bytes} (ht : t ∈ supportTypes) :
    ch '/' ∉ t ∧ ch '=' ∉ t ∧ ¬ t <:+ [] ∧ ¬ t <:+ [ch '.'] ∧ ¬ t <:+ [ch '.', ch '.'] := by
  have hall : ∀ t ∈ supportTypes,
      ch '/' ∉ t ∧ ch '=' ∉ t ∧ ¬ t <:+ [] ∧ ¬ t <:+ [ch '.'] ∧ ¬ t <:+ [ch '.', ch '.'] := by
    decide +kernel
  exact hall t ht

/-- Only the end of the path decides about the type of the arguments. -/
theorem endsInType_of_supportType {line before lp : Bytes}
    (h : getfileSupportType line (before ++ (bytes "localpath=" ++ lp)) = true) : EndsInType lp := by
  unfold getfileSupportType at h
  obtain ⟨t, ht, htail⟩ := List.any_eq_true.mp h
  have hsuffix := List.drop_suffix
    ((line ++ (before ++ (bytes "localpath=" ++ lp))).length - t.length) (line ++ (before ++ (bytes "localpath=" ++ lp)))
  rw [of_decide_eq_true htail] at hsuffix
  have hassoc : line ++ (before ++ (bytes "localpath=" ++ lp)) = (line ++ before ++ bytes "localpath") ++ ch '=' :: lp := by
    simp [show bytes "localpath=" = bytes "localpath" ++ [ch '='] by decide]
  rw [hassoc] at hsuffix
  exact ⟨t, ht, suffix_of_notMem hsuffix (supportTypes_spec ht).2.1⟩

theorem supportType_getfileArgs (before url : Bytes) {lp : Bytes} (h : EndsInType lp) :
    getfileSupportType before (getfileArgs url lp) = true := by
  obtain ⟨t, ht, l, rfl⟩ := h
  unfold getfileSupportType
  rw [List.any_eq_true]
  refine ⟨t, ht, decide_eq_true ?_⟩
  have hassoc : before ++ getfileArgs url (l ++ t) = (before ++ getfileArgs url l) ++ t := by
    simp [getfileArgs]
  rw [hassoc]
  exact List.drop_left' (by simp only [List.length_append]; omega)

/-- The url and the local path of a request that Nginx reads in full, that the getfile module serves, and
whose first `localpath=` is the one of the client. -/
structure Keyed (url lp : Bytes) : Prop extends Sendable url lp where
  key : ¬ bytes "localpath=" <:+: url
  type : EndsInType lp
  long : 10 ≤ url.length + lp.length

instance (url lp : Bytes) : Decidable (Keyed url lp) :=
  decidable_of_iff ((url ++ lp).all (fun c => !breakByte c) = true ∧ ¬ bytes " H" <:+: url ∧
      ¬ bytes " H" <:+: lp ∧ lp.getLast? ≠ some (ch ' ') ∧ ¬ bytes "localpath=" <:+: url ∧ EndsInType lp ∧
      10 ≤ url.length + lp.length) (by
    have hall : (url ++ lp).all (fun c => !breakByte c) = true ↔
        ∀ c ∈ url ++ lp, c ≠ 0 ∧ c ≠ CR ∧ c ≠ LF ∧ c ≠ ch '#' := by
      simp only [List.all_eq_true, Bool.not_eq_true', breakByte_eq_false]
    rw [hall]
    exact ⟨fun ⟨h1, h2, h3, h4, h5, h6, h7⟩ => ⟨⟨h1, h2, h3, h4⟩, h5, h6, h7⟩,
      fun h => ⟨h.breaks, h.urlProtocol, h.pathProtocol, h.pathEnd, h.key, h.type, h.long⟩⟩)

def argsIn (url lp rest : Bytes) : NgxStr := ⟨getfileArgs url lp ++ rest, (getfileArgs url lp).length⟩

theorem argsIn_text (url lp rest : Bytes) : (argsIn url lp rest).text = getfileArgs url lp := List.take_left

variable {ip url lp req : Bytes} {len : ℕ} {pieces : List Bytes} {args : NgxStr} {up : GetfileUpstream}

theorem receive_some (h : ngxReceive pieces = some (args, up)) :
    ∃ r pos before, ngxHttpProcessRequestLine pieces = .done r pos ∧
      ngxHttpProcessRequestUri pieces.flatten r = .plain (bytes "/getfile") args ∧
      FILE_URL_LEN_MIN ≤ args.len ∧ getfileSupportType before args.text = true := by
  unfold ngxReceive at h
  split at h
  next r pos hdone =>
    split at h
    next uri args' huri =>
      split_ifs at h with hloc
      obtain ⟨up', hup, heq⟩ := Option.map_eq_some_iff.mp h
      obtain ⟨rfl, rfl⟩ := Prod.mk.inj heq
      unfold ngxHttpGetfileHandler at hup
      split_ifs at hup with hlen htype
      exact ⟨r, pos, _, hdone, hloc ▸ huri, not_lt.mp hlen, by simpa using htype⟩
    · cases h
  · cases h

theorem receive_sendable (hbuild : scNgxBuildGet ip url lp len = some req) (hpieces : pieces.flatten = req)
    (hsend : Sendable url lp) :
    ∃ rest, ngxReceive pieces =
      (ngxHttpGetfileHandler (bytes "GET /getfile?") (argsIn url lp rest)).map (argsIn url lp rest, ·) := by
  obtain ⟨rfl, -⟩ := scNgxBuildGet_eq_some hbuild
  obtain ⟨r, pos, hdone, -, -, hstart, huri⟩ := request_read hpieces ((plainArgs_getfileArgs url lp).mpr hsend)
    (getfileArgs_ne_nil url lp)
  refine ⟨bytes " HTTP/1.1\r\n" ++ (bytes "Host: " ++ ip ++ bytes "\r\nConnection: close\r\n\r\n"), ?_⟩
  unfold ngxReceive
  rw [hdone]
  dsimp only
  rw [huri]
  dsimp only
  rw [if_pos rfl, hstart]
  have hbefore : pieces.flatten.take ((some 13).getD 0) = bytes "GET /getfile?" := by
    rw [hpieces, List.append_assoc, List.append_assoc]
    exact List.take_left' rfl
  rw [hbefore]
  rfl

theorem receive_text (hbuild : scNgxBuildGet ip url lp len = some req) (hpieces : pieces.flatten = req)
    (hsend : Sendable url lp) (h : ngxReceive pieces = some (args, up)) : args.text = getfileArgs url lp := by
  obtain ⟨rest, heq⟩ := receive_sendable hbuild hpieces hsend
  rw [heq] at h
  obtain ⟨up', -, hargs⟩ := Option.map_eq_some_iff.mp h
  obtain ⟨rfl, -⟩ := Prod.mk.inj hargs
  exact argsIn_text ..

/-- Whatever the request, the arguments that Nginx reads are a first part of those that the client meant. -/
theorem receive_begins (hbuild : scNgxBuildGet ip url lp len = some req) (hpieces : pieces.flatten = req)
    (h : ngxReceive pieces = some (args, up)) : args.text <+: getfileArgs url lp := by
  by_cases hsend : Sendable url lp
  · rw [receive_text hbuild hpieces hsend h]
  · obtain ⟨rfl, -⟩ := scNgxBuildGet_eq_some hbuild
    obtain ⟨r, pos, -, hdone, huri, -⟩ := receive_some h
    have hlost := request_lost hpieces (fun hplain => hsend ((plainArgs_getfileArgs url lp).mp hplain)) hdone
    rw [hpieces, List.append_assoc, List.append_assoc] at huri
    exact (lost_args hlost huri).1

/-- The key of a download stands at the end of the arguments. -/
theorem downloadKey_some {key : Bytes} (h : downloadKey url lp = some key) :
    ∃ req args up before, scNgxRequest url lp = some req ∧ ngxReceive [req] = some (args, up) ∧
      args.text = before ++ (bytes "localpath=" ++ key) ∧
      strstr args.text (bytes "localpath=") = some (bytes "localpath=" ++ key) := by
  unfold downloadKey at h
  split at h
  next args up hreceive =>
    obtain ⟨req, hreq, hreceive⟩ := Option.bind_eq_some_iff.mp hreceive
    split_ifs at h with hsome
    obtain ⟨s, hs⟩ := Option.isSome_iff_exists.mp hsome
    obtain ⟨before, htext, ⟨k, rfl⟩, -⟩ := strstr_split hs
    have hk := argsLocalpath_eq hs
    obtain rfl : k = key := Option.some.inj (hk.symm.trans h)
    exact ⟨req, args, up, before, hreq, hreceive, htext, hs⟩
  · cases h

/-- Nginx runs no download under a path that the getfile module does not serve. -/
theorem downloadKey_ending {key : Bytes} (h : downloadKey url lp = some key) : EndsInType key := by
  obtain ⟨req, args, up, before, -, hreceive, htext, -⟩ := downloadKey_some h
  obtain ⟨r, pos, line, -, -, -, htype⟩ := receive_some hreceive
  rw [htext] at htype
  exact endsInType_of_supportType htype

theorem endsInType_ne_nil (h : EndsInType lp) : lp ≠ [] := by
  rintro rfl
  obtain ⟨t, ht, hsuffix⟩ := h
  exact (supportTypes_spec ht).2.2.1 hsuffix

/-- A key that Nginx finds behind the url is a first part of the local path. -/
theorem key_begins {key : Bytes} (hkey : ¬ bytes "localpath=" <:+: url) (hbegins : args.text <+: getfileArgs url lp)
    (htext : strstr args.text (bytes "localpath=") = some (bytes "localpath=" ++ key)) : key <+: lp := by
  obtain ⟨more, hmore⟩ := hbegins
  have hargs : strstr (getfileArgs url lp ++ []) (bytes "localpath=") = some (bytes "localpath=" ++ lp ++ []) :=
    strstr_getfileArgs [] hkey
  rw [List.append_nil, ← hmore, strstr_extend htext more, List.append_nil, List.append_assoc] at hargs
  exact ⟨more, List.append_cancel_left (Option.some.inj hargs)⟩

theorem copyUrl_suffix (url : Bytes) : scResCopyUrl url true <:+ url := by
  simp only [scResCopyUrl, if_true]
  split_ifs
  · exact List.drop_suffix _ _
  · exact List.suffix_rfl

theorem downloadKey_begins {key : Bytes} (h : downloadKey url lp = some key) (hkey : ¬ bytes "localpath=" <:+: url) :
    key <+: lp := by
  obtain ⟨req, args, up, before, hreq, hreceive, -, htext⟩ := downloadKey_some h
  have hurl : ¬ bytes "localpath=" <:+: scResCopyUrl url true := fun hin => hkey (hin.trans (copyUrl_suffix url).isInfix)
  exact key_begins hurl (receive_begins hreq (by simp) hreceive) htext

/-- The getfile module takes a request of that length and ending. -/
theorem receive_accepted (hbuild : scNgxBuildGet ip url lp len = some req) (hpieces : pieces.flatten = req)
    (hsend : Sendable url lp) (htype : EndsInType lp) (hlong : 10 ≤ url.length + lp.length) :
    ∃ rest up, ngxReceive pieces = some (argsIn url lp rest, up) ∧
      ngxHttpGetfileHandler (bytes "GET /getfile?") (argsIn url lp rest) = some up := by
  obtain ⟨rest, hreceive⟩ := receive_sendable hbuild hpieces hsend
  have hlen : ¬ (argsIn url lp rest).len < FILE_URL_LEN_MIN := by
    simp only [argsIn, getfileArgs_length, FILE_URL_LEN_MIN]
    omega
  have hsupport : getfileSupportType (bytes "GET /getfile?") (argsIn url lp rest).text = true := by
    rw [argsIn_text]
    exact supportType_getfileArgs _ url htype
  obtain ⟨up, hup⟩ : ∃ up, ngxHttpGetfileHandler (bytes "GET /getfile?") (argsIn url lp rest) = some up := by
    rw [ngxHttpGetfileHandler, if_neg hlen, hsupport]
    exact ⟨_, rfl⟩
  rw [hup] at hreceive
  exact ⟨rest, up, hreceive, hup⟩

/-- The download of such a request runs under its local path. -/
theorem receive_keyed (hbuild : scNgxBuildGet ip url lp len = some req) (hpieces : pieces.flatten = req)
    (h : Keyed url lp) : ∃ rest up, ngxReceive pieces = some (argsIn url lp rest, up) ∧
      ngxHttpGetfileHandler (bytes "GET /getfile?") (argsIn url lp rest) = some up ∧
      argsLocalpath (argsIn url lp rest) = some lp := by
  obtain ⟨rest, up, hreceive, hup⟩ := receive_accepted hbuild hpieces h.toSendable h.type h.long
  exact ⟨rest, up, hreceive, hup, argsLocalpath_getfileArgs rest h.key⟩

theorem downloadKey_keyed (hreq : (scNgxRequest url lp).isSome) (h : Keyed (scResCopyUrl url true) lp) :
    downloadKey url lp = some lp := by
  obtain ⟨req, hreq⟩ := Option.isSome_iff_exists.mp hreq
  have hbuild : scNgxBuildGet SC_NGX_DEFAULT_IP_ADDR (scResCopyUrl url true) lp BUFFER_LEN = some req := hreq
  obtain ⟨rest, up, hreceive, -, hkey⟩ := receive_keyed hbuild (show [req].flatten = req by simp) h
  have hsome : (strstr (argsIn (scResCopyUrl url true) lp rest).text (bytes "localpath=")).isSome = true := by
    have hstr : strstr (getfileArgs (scResCopyUrl url true) lp ++ []) (bytes "localpath=") =
        some (bytes "localpath=" ++ lp ++ []) := strstr_getfileArgs [] h.key
    rw [List.append_nil] at hstr
    rw [argsIn_text, hstr]
    rfl
  unfold downloadKey
  rw [hreq, Option.bind_some, hreceive]
  dsimp only
  rw [if_pos hsome, hkey]

end Key

/-! The request Nginx sends upstream. -/

/-- `req` is a request to `host` whose target starts with `part`. -/
def RequestsFrom (req host part : Bytes) : Prop :=
  ∃ target, req = bytes "GET " ++ target ++ bytes " HTTP/1.0\r\nHost: " ++ host ++ backendTail ∧ part <+: target

theorem queryLine_expand (uri host : Bytes) :
    expand backendQueryLine [uri, host] =
      bytes "GET " ++ uri ++ bytes " HTTP/1.0\r\nHost: " ++ host ++ backendTail := by
  have h : bytes "GET %s HTTP/1.0\r\nHost: %V" =
      bytes "GET " ++ (bytes "%s" ++ (bytes " HTTP/1.0\r\nHost: " ++ bytes "%V")) := by decide +kernel
  have htail : ch '%' ∉ backendTail := by
    simp only [backendTail, List.mem_append, not_or]
    decide +kernel
  rw [backendQueryLine, h, List.append_assoc, List.append_assoc, List.append_assoc,
    expand_append (by decide), expand_s, expand_append (by decide), expand_V, expand_text htail]
  simp only [List.append_assoc]

theorem createRequest_eq (args : NgxStr) :
    getfileUpstreamCreateRequest args =
      bytes "GET " ++ getfileGetRealUriFromUri args ++ bytes " HTTP/1.0\r\nHost: " ++
        getfileGetHostFromUri args ++ backendTail := by
  rw [getfileUpstreamCreateRequest, queryLine_expand]
  refine List.take_of_length_le (le_of_eq ?_)
  have hpattern : (bytes "GET %s HTTP/1.0\r\nHost: %V").length = 25 := by decide +kernel
  have hget : (bytes "GET ").length = 4 := rfl
  have hhost : (bytes " HTTP/1.0\r\nHost: ").length = 17 := rfl
  simp only [backendQueryLine, List.length_append, hpattern, hget, hhost]
  omega

theorem requestsFrom_createRequest (args : NgxStr) (part : Bytes) :
    RequestsFrom (getfileUpstreamCreateRequest args) (getfileGetHostFromUri args) part ↔
      part <+: getfileGetRealUriFromUri args := by
  rw [createRequest_eq]
  refine ⟨fun ⟨target, he, hp⟩ => ?_, fun hp => ⟨_, rfl, hp⟩⟩
  have h1 := List.append_cancel_right (List.append_cancel_right (List.append_cancel_right he))
  rwa [List.append_cancel_left h1]

/-- The real uri keeps the whole path of the url exactly when it leaves room for the terminator. -/
theorem realUri_prefix_iff {url lp : Bytes} {args : NgxStr} (htext : args.text = getfileArgs url lp)
    (hslash : ch '/' ∈ url) :
    url.dropWhile (· ≠ ch '/') <+: getfileGetRealUriFromUri args ↔
      (url.dropWhile (· ≠ ch '/')).length < BUFLEN_L := by
  simp only [getfileGetRealUriFromUri, htext]
  rw [getfileArgs, dropWhile_append_of_mem hslash (by simp)]
  set part := url.dropWhile (· ≠ ch '/')
  generalize (if ch '?' ∈ url then ch '&' else ch '?') :: (bytes "localpath=" ++ lp) = tail
  simp only [List.length_take, BUFLEN_L]
  split_ifs with hshort
  · rw [List.take_of_length_le (by omega)]
    rw [List.length_append] at hshort
    exact ⟨fun _ => by omega, fun _ => List.prefix_append _ _⟩
  · rw [List.take_take]
    refine ⟨fun hp => ?_, fun hl => ?_⟩
    · have := hp.length_le
      rw [List.length_take] at this
      omega
    · rw [List.prefix_take_iff]
      exact ⟨List.prefix_append _ _, by omega⟩

theorem Sendable.readAs {ip url lp req : Bytes} {len : ℕ} {pieces : List Bytes} (hsend : Sendable url lp)
    (hbuild : scNgxBuildGet ip url lp len = some req) (hpieces : pieces.flatten = req) :
    ReadAs pieces (getfileArgs url lp) :=
  (readAs_iff (hpieces.trans (scNgxBuildGet_eq_some hbuild).1) (getfileArgs_ne_nil url lp)).mpr
    ((plainArgs_getfileArgs url lp).mpr hsend)

def longRealUrl : Bytes := bytes "118.123.211.11/sohu/ts/" ++ List.replicate 520 (ch 'z')

def sohuMp4Path : Bytes := bytes "220_181_61_212/ipad_file=_109_193_XKUNcCADy8eM9ypkrIfhU4.mp4"

end HotCache
