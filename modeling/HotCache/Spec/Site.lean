import HotCache.Spec.Getfile

/-! What the client reads out of requests and server responses (`net_util.c`, `sohu_lib.c`,
`yk_lib.c` and the origin url generators of `sc_sohu.c` and `sc_youku.c`). -/

namespace HotCache

open CStr

def MAX_HOST_NAME_LEN : ℕ := 32

/-- The string that a buffer holds: its bytes before the first NUL. -/
def cstr (buf : Bytes) : Bytes := buf.takeWhile (· ≠ 0)

def isDigit (c : UInt8) : Bool := ch '0' ≤ c && c ≤ ch '9'

def isAlnum (c : UInt8) : Bool :=
  isDigit c || (ch 'a' ≤ c && c ≤ ch 'z') || (ch 'A' ≤ c && c ≤ ch 'Z')

/-- The states of `http_parse_status_line`. -/
inductive Sw
  | start | h | ht | htt | http | firstMajorDigit | majorDigit | firstMinorDigit | minorDigit
  | status | spaceAfterStatus | statusText | almostDone
  deriving DecidableEq, Repr

/-- The loop of `http_parse_status_line`; `none` where the source returns -1. -/
def statusLineLoop : Sw → ℕ → ℕ → Bytes → Option ℕ
  | _, _, _, [] => none
  | sw, status, digits, c :: s =>
    match sw with
    | .start => if c = ch 'H' then statusLineLoop .h status digits s else none
    | .h => if c = ch 'T' then statusLineLoop .ht status digits s else none
    | .ht => if c = ch 'T' then statusLineLoop .htt status digits s else none
    | .htt => if c = ch 'P' then statusLineLoop .http status digits s else none
    | .http => if c = ch '/' then statusLineLoop .firstMajorDigit status digits s else none
    | .firstMajorDigit =>
      if c < ch '1' ∨ ch '9' < c then none else statusLineLoop .majorDigit status digits s
    | .majorDigit =>
      if c = ch '.' then statusLineLoop .firstMinorDigit status digits s
      else if !isDigit c then none
      else statusLineLoop .majorDigit status digits s
    | .firstMinorDigit => if !isDigit c then none else statusLineLoop .minorDigit status digits s
    | .minorDigit =>
      if c = ch ' ' then statusLineLoop .status status digits s
      else if !isDigit c then none
      else statusLineLoop .minorDigit status digits s
    | .status =>
      if c = ch ' ' then statusLineLoop .status status digits s
      else if !isDigit c then none
      else statusLineLoop (if digits + 1 = 3 then .spaceAfterStatus else .status)
        (status * 10 + (c.toNat - (ch '0').toNat)) (digits + 1) s
    | .spaceAfterStatus =>
      if c = ch ' ' ∨ c = ch '.' then statusLineLoop .statusText status digits s
      else if c = ch '\r' then statusLineLoop .almostDone status digits s
      else if c = ch '\n' then some status
      else none
    | .statusText =>
      if c = ch '\r' then statusLineLoop .almostDone status digits s
      else if c = ch '\n' then some status
      else statusLineLoop .statusText status digits s
    | .almostDone => if c = ch '\n' then some status else none

def httpParseStatusLine (buf : Bytes) : Option ℕ := statusLineLoop .start 0 0 buf

def SOHU_REQUEST_PATTERN_LEN : ℕ := 345

/-- `sohu_http_session` as far as the url decides it: the host must end at a `/` and fit its buffer,
and the request must fit `BUFFER_LEN`. The rest, the response included, is `answer`. -/
def sohuHttpSession (url : Bytes) (answer : Option Bytes) : Option Bytes :=
  let host := url.takeWhile (· ≠ ch '/')
  if host.length = url.length ∨ MAX_HOST_NAME_LEN ≤ host.length then none
  else if BUFFER_LEN ≤ host.length + (url.length - host.length) + SOHU_REQUEST_PATTERN_LEN - 3 then none
  else answer

def sohuIsM3u8Url (url : Bytes) : Bool :=
  match strstr url (bytes "sohu.com") with
  | none => false
  | some cur => (strstr cur (bytes ".m3u8")).isSome

/-- `sohu_parse_m3u8_response`: the cursor it returns, and `file_url`, which was zeroed before. -/
def sohuParseM3u8Response (curr : Bytes) : Option Bytes × Bytes :=
  match strstr curr HTTP_URL_PREFIX with
  | none => (none, [])
  | some curr =>
    let curr := curr.drop HTTP_URL_PRE_LEN
    match strstr curr (bytes "file=") with
    | none => (none, [])
    | some p =>
      let len := curr.length - (p.dropWhile (· ≠ ch '&')).length
      (strstr curr (bytes "#EXT-X-DISCONTINUITY"), if HTTP_URL_MAX_LEN ≤ len then [] else curr.take len)

/-- The `file_url`s that the loop of `sc_get_sohu_video_m3u8` goes through, in order. Each round
moves the cursor, so the length of the response is enough fuel. -/
def sohuFileUrls : ℕ → Bytes → List Bytes
  | 0, _ => []
  | fuel + 1, curr =>
    match sohuParseM3u8Response curr with
    | (none, fileUrl) => [fileUrl]
    | (some curr, fileUrl) => fileUrl :: sohuFileUrls fuel curr

/-- The loop of `sc_get_sohu_video_m3u8` with its cursor: the urls given to `sc_res_info_add_ctnt`, or
`none` when the fuel runs out. -/
def sohuM3u8Loop : ℕ → Option Bytes → Option (List Bytes)
  | _, none => some []
  | 0, some _ => none
  | fuel + 1, some curr =>
    (sohuM3u8Loop fuel (sohuParseM3u8Response curr).1).map ((sohuParseM3u8Response curr).2 :: ·)

/-- `sohu_parse_file_url_response`. With fewer than 4 bytes after `http://` the source writes its
terminator outside the string. -/
def sohuParseFileUrlResponse (response : Bytes) : Option Bytes :=
  match strstr response (bytes "Location:") with
  | none => none
  | some p =>
    match strstr p HTTP_URL_PREFIX with
    | none => none
    | some p =>
      let p := p.drop HTTP_URL_PRE_LEN
      if HTTP_URL_MAX_LEN ≤ p.length then none
      else some (if p.length < 4 then p else p.take (p.length - 4))

def ykIsTraditionUrl (url : Bytes) : Bool :=
  match strstr url (bytes "v.youku.com") with
  | none => false
  | some cur => (strstr cur (bytes "/id_")).isSome

def ykOriginTags : List Bytes :=
  [bytes "v_show/id_", bytes "&video_id=", bytes "&id=", bytes "&vid=", bytes "&local_vid="]

/-- `sc_yk_gen_origin_url`: the first tag that is followed by exactly 13 letters and digits. -/
def scYkGenOriginUrl (reqUrl : Bytes) : Option Bytes :=
  ykOriginTags.findSome? fun tag =>
    match strstr reqUrl tag with
    | none => none
    | some start =>
      let buf := (start.drop tag.length).takeWhile isAlnum
      if buf.length = 13 then some (expand (bytes "v.youku.com/v_show/id_%s.html") [buf]) else none

def scSohuGenOriginUrl (reqUrl : Bytes) : Option Bytes :=
  let tag1 := bytes "hot.vrs.sohu.com/ipad"
  let tag2 := bytes "my.tv.sohu.com/ipad/"
  let generate (start tag pattern : Bytes) : Option Bytes :=
    if (strstr start (bytes ".m3u8")).isNone then none
    else some (expand pattern [(start.drop tag.length).takeWhile (· ≠ ch '?')])
  match strstr reqUrl tag1 with
  | some start => generate start tag1 (bytes "hot.vrs.sohu.com/ipad%s")
  | none =>
    match strstr reqUrl tag2 with
    | some start => generate start tag2 (bytes "my.tv.sohu.com/ipad/%s")
    | none => none

def scResGenOriginUrl (reqUrl : Bytes) : Option Bytes :=
  if scUrlIsYk reqUrl then scYkGenOriginUrl reqUrl
  else if scUrlIsSohu reqUrl then scSohuGenOriginUrl reqUrl
  else none

end HotCache
