import HotCache.Lib.Buffer
import HotCache.Spec.Site

/-! The functions that fill a buffer of their caller without being told what it holds, down to the bytes
they write: `sc_res_copy_url` and `sohu_parse_file_url_response` for a url, the two encoders of a url
into a local path, the host of the two http sessions, and `yk_parse_flvpath`. An `int` holds the length
of every response that its buffer can hold. -/

namespace HotCache

open CStr Buffer

/-- The two copy loops of `sc_res_copy_url`, which differ in where they stop before the terminator. -/
def copyLoop (stop : UInt8 → Bool) (url : Buf) (p : ℤ) : Bytes → Buf × ℤ
  | [] => (url, p)
  | q :: qs => if stop q then (url, p) else copyLoop stop (url.put p q) (p + 1) qs

/-- `sc_res_copy_url`: the buffer afterwards, and whether the overflow was logged. -/
def scResCopyUrlInto (url : Buf) (oUrl : Bytes) (len : ℕ) (withPara : Bool) : Buf × Bool :=
  let start := if startsWith oUrl HTTP_URL_PREFIX then oUrl.drop HTTP_URL_PRE_LEN else oUrl
  let (url, p) :=
    if withPara then copyLoop (fun _ => false) url 0 start
    else copyLoop (fun q => q = ch '?') url 0 start
  (url, len < p)

def sohuParseFileUrlResponseInto (response : Bytes) (realUrl : Buf) : ℤ × Buf :=
  match strstr response (bytes "Location:") with
  | none => (-1, realUrl)
  | some p =>
    match strstr p HTTP_URL_PREFIX with
    | none => (-1, realUrl)
    | some p =>
      let p := p.drop HTTP_URL_PRE_LEN
      let len : ℤ := p.length
      if (HTTP_URL_MAX_LEN : ℤ) ≤ len then (-1, realUrl)
      else (0, (realUrl.putAll 0 (p ++ [0])).put (len - 4) 0)

def defaultLoopInto (localPath : Buf) (q : ℤ) : Bool → Bytes → Buf × ℤ
  | _, [] => (localPath, q)
  | first, p :: s =>
    if p = ch '?' then (localPath, q)
    else if first ∧ p = ch '.' then defaultLoopInto (localPath.put q (ch '_')) (q + 1) first s
    else if p = ch '/' then
      if first then defaultLoopInto (localPath.put q p) (q + 1) false s
      else defaultLoopInto (localPath.put q (ch '_')) (q + 1) first s
    else defaultLoopInto (localPath.put q p) (q + 1) first s

def scResUrlToLocalPathDefaultInto (url : Bytes) (localPath : Buf) (len : ℕ) : ℤ × Buf :=
  if len ≤ url.length then (-1, localPath)
  else
    let (localPath, q) := defaultLoopInto localPath 0 true url
    (0, localPath.put q 0)

def sohuLoopInto (localPath : Buf) (q : ℤ) : Bool → Bytes → Buf × ℤ
  | _, [] => (localPath, q)
  | first, p :: s =>
    if first ∧ p = ch '.' then sohuLoopInto (localPath.put q (ch '_')) (q + 1) first s
    else if p = ch '/' then
      if first then sohuLoopInto (localPath.put q p) (q + 1) false s
      else sohuLoopInto (localPath.put q (ch '_')) (q + 1) first s
    else if p = ch '?' then sohuLoopInto (localPath.put q (ch '_')) (q + 1) first s
    else sohuLoopInto (localPath.put q p) (q + 1) first s

def scSohuFileUrlToLocalPathInto (fileUrl : Bytes) (localPath : Buf) (len : ℕ) : ℤ × Buf :=
  if !scUrlIsSohuFileUrl fileUrl then (-1, localPath)
  else if len ≤ fileUrl.length then (-1, localPath)
  else
    let (localPath, q) := sohuLoopInto localPath 0 true fileUrl
    (0, localPath.put q 0)

/-- `yk_http_session` up to its host: `uri_start`, or `none` where it returns -1, and `host`. -/
def ykHttpSessionHost (url : Bytes) (host : Buf) : Option Bytes × Buf :=
  let rest := if startsWith url HTTP_URL_PREFIX then url.drop HTTP_URL_PRE_LEN else url
  let host := host.putAll 0 (List.replicate MAX_HOST_NAME_LEN 0)
  let (host, i) := copyLoop (fun c => c = ch '/') host 0 rest
  if i = rest.length then (none, host) else (some (rest.drop i.toNat), host.put i 0)

def sohuHttpSessionHost (url : Bytes) (host : Buf) : Option Bytes × Buf :=
  let host := host.putAll 0 (List.replicate MAX_HOST_NAME_LEN 0)
  let (host, i) := copyLoop (fun c => c = ch '/') host 0 url
  if i = url.length ∨ (MAX_HOST_NAME_LEN : ℤ) ≤ i then (none, host)
  else (some (url.drop i.toNat), host.put i 0)

def flvpathTag1 : Bytes := bytes "Location: http://"
def flvpathTag2 : Bytes := bytes "server\":\"http://"

def flvpathStop1 (c : UInt8) : Bool := c = ch '\r' || c = ch '\n'
def flvpathStop2 (c : UInt8) : Bool := c = ch '"' || c = ch ','

/-- `yk_parse_flvpath`: its result, and `real_url`. The size is looked at behind the loops. -/
def ykParseFlvpathInto (data : Bytes) (realUrl : Buf) : ℤ × Buf :=
  let realUrl := realUrl.putAll 0 (List.replicate HTTP_URL_MAX_LEN 0)
  let copied :=
    match strstr data flvpathTag1 with
    | some p => some (copyLoop flvpathStop1 realUrl 0 (p.drop flvpathTag1.length))
    | none =>
      match strstr data flvpathTag2 with
      | some p => some (copyLoop flvpathStop2 realUrl 0 (p.drop flvpathTag2.length))
      | none => none
  match copied with
  | none => (-1, realUrl)
  | some (realUrl, q) => (if (HTTP_URL_MAX_LEN : ℤ) ≤ q then -1 else 0, realUrl)

end HotCache
