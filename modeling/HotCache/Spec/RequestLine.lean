import HotCache.Lib.Scanner
import HotCache.Spec.Handler
import HotCache.Spec.Upstream

/-! How Nginx reads the request of the client: the request line (`ngx_http_parse_request_line`), as often
as bytes arrive (`ngx_http_process_request_line`), the uri and its arguments
(`ngx_http_process_request_uri`) and the getfile module (`ngx_http_getfile_handler`). -/

namespace HotCache

open CStr Scanner

def CR : UInt8 := ch '\r'
def LF : UInt8 := ch '\n'

/-- `usual`, without `NGX_WIN32`. -/
def usualTable : List ℕ :=
  [0xffffdbfe, 0x7fff37d6, 0xffffffff, 0xffffffff, 0xffffffff, 0xffffffff, 0xffffffff, 0xffffffff]

def usual (c : UInt8) : Bool := (usualTable.getD (c.toNat >>> 5) 0).testBit (c.toNat &&& 0x1f)

inductive LineState
  | start | method | spacesBeforeUri | schema | schemaSlash | schemaSlashSlash | hostStart | host | hostEnd
  | hostIpLiteral | port | hostHttp09 | afterSlashInUri | checkUri | checkUriHttp09 | uri | http09 | httpH
  | httpHT | httpHTT | httpHTTP | firstMajorDigit | majorDigit | firstMinorDigit | minorDigit
  | spacesAfterDigit | almostDone
  deriving DecidableEq, Repr

inductive Method
  | unknown | get | head | post | put | delete | mkcol | copy | move | options | propfind | proppatch | lock
  | unlock | patch | trace
  deriving DecidableEq, Repr

inductive LineError
  | invalidMethod | invalidRequest | invalid09Method
  deriving DecidableEq, Repr

/-- The fields of `ngx_http_request_t` that the parser of the request line sets; a pointer is a position
in the buffer. -/
structure RequestLine where
  state : LineState := .start
  requestStart : ℕ := 0
  methodEnd : Option ℕ := none
  method : Method := .unknown
  schemaStart : Option ℕ := none
  schemaEnd : ℕ := 0
  hostStart : Option ℕ := none
  hostEnd : Option ℕ := none
  portEnd : Option ℕ := none
  uriStart : ℕ := 0
  uriEnd : ℕ := 0
  uriExt : Option ℕ := none
  argsStart : Option ℕ := none
  httpProtocol : Option ℕ := none
  complexUri : Bool := false
  quotedUri : Bool := false
  plusInUri : Bool := false
  spaceInUri : Bool := false
  httpMajor : ℕ := 0
  httpMinor : ℕ := 0
  httpVersion : ℕ := 1000
  requestEnd : Option ℕ := none
  deriving DecidableEq, Repr

def methodTable : List (Bytes × Method) :=
  [(bytes "GET", .get), (bytes "PUT", .put), (bytes "POST", .post), (bytes "COPY", .copy), (bytes "MOVE", .move),
    (bytes "LOCK", .lock), (bytes "HEAD", .head), (bytes "MKCOL", .mkcol), (bytes "PATCH", .patch),
    (bytes "TRACE", .trace), (bytes "DELETE", .delete), (bytes "UNLOCK", .unlock), (bytes "OPTIONS", .options),
    (bytes "PROPFIND", .propfind), (bytes "PROPPATCH", .proppatch)]

def methodOf (name : Bytes) (old : Method) : Method := (methodTable.lookup name).getD old

abbrev LineStep := Scanner.Step RequestLine LineError

/-- A byte of a method: `(ch < 'A' || ch > 'Z') && ch != '_'` is refused. -/
def methodByte (c : UInt8) : Bool := (ch 'A' ≤ c && c ≤ ch 'Z') || c = ch '_'

def letterByte (c : UInt8) : Bool := ch 'a' ≤ (c ||| 0x20) && (c ||| 0x20) ≤ ch 'z'

def digitByte (c : UInt8) : Bool := ch '0' ≤ c && c ≤ ch '9'

def lineDone (r : RequestLine) (p : ℕ) : LineStep :=
  let r := { r with
    requestEnd := some (r.requestEnd.getD p), httpVersion := r.httpMajor * 1000 + r.httpMinor, state := .start }
  if r.httpVersion = 9 ∧ r.method ≠ .get then .fail .invalid09Method else .done r

/-- `case sw_host_end`, to which `sw_host` falls through. -/
def swHostEnd (r : RequestLine) (p : ℕ) (c : UInt8) : LineStep :=
  let r := { r with hostEnd := some p }
  if c = ch ':' then .next { r with state := .port }
  else if c = ch '/' then .next { r with uriStart := p, state := .afterSlashInUri }
  else if c = ch ' ' then
    .next { r with uriStart := r.schemaEnd + 1, uriEnd := r.schemaEnd + 2, state := .hostHttp09 }
  else .fail .invalidRequest

/-- `case sw_host`, to which `sw_host_start` falls through. -/
def swHost (r : RequestLine) (p : ℕ) (c : UInt8) : LineStep :=
  if letterByte c then .next r
  else if digitByte c ∨ c = ch '.' ∨ c = ch '-' then .next r
  else swHostEnd r p c

/-- The bytes that `sw_host_ip_literal` lets pass besides digits and letters. -/
def ipLiteralBytes : Bytes := bytes ":-._~!$&'()*+,;="

/-- The line break that ends a line without a protocol, in four of the states. -/
def line09 (r : RequestLine) (p : ℕ) (c : UInt8) : LineStep :=
  let r := { r with httpMinor := 9 }
  if c = CR then .next { r with state := .almostDone } else lineDone r p

/-- `case sw_check_uri`, which `sw_check_uri_http_09` goes back to. -/
def swCheckUri (r : RequestLine) (p : ℕ) (c : UInt8) : LineStep :=
  if usual c then .next r
  else if c = ch '/' then .next { r with uriExt := none, state := .afterSlashInUri }
  else if c = ch '.' then .next { r with uriExt := some (p + 1) }
  else if c = ch ' ' then .next { r with uriEnd := p, state := .checkUriHttp09 }
  else if c = CR ∨ c = LF then line09 { r with uriEnd := p } p c
  else if c = ch '%' then .next { r with quotedUri := true, state := .uri }
  else if c = ch '?' then .next { r with argsStart := some (p + 1), state := .uri }
  else if c = ch '#' then .next { r with complexUri := true, state := .uri }
  else if c = ch '+' then .next { r with plusInUri := true }
  else if c = 0 then .fail .invalidRequest
  else .next r

/-- `case sw_uri`, which `sw_http_09` goes back to. -/
def swUri (r : RequestLine) (p : ℕ) (c : UInt8) : LineStep :=
  if usual c then .next r
  else if c = ch ' ' then .next { r with uriEnd := p, state := .http09 }
  else if c = CR ∨ c = LF then line09 { r with uriEnd := p } p c
  else if c = ch '#' then .next { r with complexUri := true }
  else if c = 0 then .fail .invalidRequest
  else .next r

/-- The spaces behind a uri, up to the protocol; `back` is what the state does with any other byte. -/
def swHttp09 (back : LineStep) (r : RequestLine) (p : ℕ) (c : UInt8) : LineStep :=
  if c = ch ' ' then .next r
  else if c = CR ∨ c = LF then line09 r p c
  else if c = ch 'H' then .next { r with httpProtocol := some p, state := .httpH }
  else back

def swExpect (c want : UInt8) (r : RequestLine) (state : LineState) : LineStep :=
  if c = want then .next { r with state := state } else .fail .invalidRequest

def lineStep (buf : Bytes) (p : ℕ) (c : UInt8) (r : RequestLine) : LineStep :=
  match r.state with
  | .start =>
    let r := { r with requestStart := p }
    if c = CR ∨ c = LF then .next r
    else if !methodByte c then .fail .invalidMethod
    else .next { r with state := .method }
  | .method =>
    if c = ch ' ' then
      .next { r with
        methodEnd := some (p - 1)
        method := methodOf ((buf.drop r.requestStart).take (p - r.requestStart)) r.method
        state := .spacesBeforeUri }
    else if !methodByte c then .fail .invalidMethod
    else .next r
  | .spacesBeforeUri =>
    if c = ch '/' then .next { r with uriStart := p, state := .afterSlashInUri }
    else if letterByte c then .next { r with schemaStart := some p, state := .schema }
    else if c = ch ' ' then .next r
    else .fail .invalidRequest
  | .schema =>
    if letterByte c then .next r
    else if c = ch ':' then .next { r with schemaEnd := p, state := .schemaSlash }
    else .fail .invalidRequest
  | .schemaSlash => swExpect c (ch '/') r .schemaSlashSlash
  | .schemaSlashSlash => swExpect c (ch '/') r .hostStart
  | .hostStart =>
    let r := { r with hostStart := some p }
    if c = ch '[' then .next { r with state := .hostIpLiteral } else swHost { r with state := .host } p c
  | .host => swHost r p c
  | .hostEnd => swHostEnd r p c
  | .hostIpLiteral =>
    if digitByte c then .next r
    else if letterByte c then .next r
    else if c = ch ']' then .next { r with state := .hostEnd }
    else if c ∈ ipLiteralBytes then .next r
    else .fail .invalidRequest
  | .port =>
    if digitByte c then .next r
    else if c = ch '/' then .next { r with portEnd := some p, uriStart := p, state := .afterSlashInUri }
    else if c = ch ' ' then
      .next { r with
        portEnd := some p, uriStart := r.schemaEnd + 1, uriEnd := r.schemaEnd + 2, state := .hostHttp09 }
    else .fail .invalidRequest
  | .hostHttp09 => swHttp09 (.fail .invalidRequest) r p c
  | .afterSlashInUri =>
    if usual c then .next { r with state := .checkUri }
    else if c = ch ' ' then .next { r with uriEnd := p, state := .checkUriHttp09 }
    else if c = CR ∨ c = LF then line09 { r with uriEnd := p } p c
    else if c = ch '.' then .next { r with complexUri := true, state := .uri }
    else if c = ch '%' then .next { r with quotedUri := true, state := .uri }
    else if c = ch '/' then .next { r with complexUri := true, state := .uri }
    else if c = ch '?' then .next { r with argsStart := some (p + 1), state := .uri }
    else if c = ch '#' then .next { r with complexUri := true, state := .uri }
    else if c = ch '+' then .next { r with plusInUri := true }
    else if c = 0 then .fail .invalidRequest
    else .next { r with state := .checkUri }
  | .checkUri => swCheckUri r p c
  | .checkUriHttp09 => swHttp09 (swCheckUri { r with spaceInUri := true, state := .checkUri } p c) r p c
  | .uri => swUri r p c
  | .http09 => swHttp09 (swUri { r with spaceInUri := true, state := .uri } p c) r p c
  | .httpH => swExpect c (ch 'T') r .httpHT
  | .httpHT => swExpect c (ch 'T') r .httpHTT
  | .httpHTT => swExpect c (ch 'P') r .httpHTTP
  | .httpHTTP => swExpect c (ch '/') r .firstMajorDigit
  | .firstMajorDigit =>
    if c < ch '1' ∨ ch '9' < c then .fail .invalidRequest
    else .next { r with httpMajor := c.toNat - 48, state := .majorDigit }
  | .majorDigit =>
    if c = ch '.' then .next { r with state := .firstMinorDigit }
    else if !digitByte c then .fail .invalidRequest
    else .next { r with httpMajor := (r.httpMajor * 10 + c.toNat - 48) % 2 ^ 16 }
  | .firstMinorDigit =>
    if !digitByte c then .fail .invalidRequest
    else .next { r with httpMinor := c.toNat - 48, state := .minorDigit }
  | .minorDigit =>
    if c = CR then .next { r with state := .almostDone }
    else if c = LF then lineDone r p
    else if c = ch ' ' then .next { r with state := .spacesAfterDigit }
    else if !digitByte c then .fail .invalidRequest
    else .next { r with httpMinor := (r.httpMinor * 10 + c.toNat - 48) % 2 ^ 16 }
  | .spacesAfterDigit =>
    if c = ch ' ' then .next r
    else if c = CR then .next { r with state := .almostDone }
    else if c = LF then lineDone r p
    else .fail .invalidRequest
  | .almostDone =>
    let r := { r with requestEnd := some (p - 1) }
    if c = LF then lineDone r p else .fail .invalidRequest

abbrev LineResult := Scanner.Result RequestLine LineError

/-- `ngx_http_parse_request_line` on the buffer `buf`, from `b->pos` on. -/
def ngxHttpParseRequestLine (buf : Bytes) (pos : ℕ) (r : RequestLine) : LineResult :=
  scan lineStep buf (buf.drop pos) pos r

/-- The loop of `ngx_http_process_request_line`: it parses again whenever `recv` has returned a piece. The
buffer is large enough for what the client sends. -/
def ngxHttpProcessRequestLine (pieces : List Bytes) : LineResult := feed lineStep pieces [] 0 {}

/-- What `ngx_http_process_request_uri` sets: `r->uri` and `r->args`; or it hands the uri to
`ngx_http_parse_complex_uri`. -/
inductive RequestUri
  | plain (uri : Bytes) (args : NgxStr)
  | complex

/-- `ngx_http_process_request_uri`; `buf` is all that has arrived. -/
def ngxHttpProcessRequestUri (buf : Bytes) (r : RequestLine) : RequestUri :=
  let uriLen := match r.argsStart with
    | some args => args - 1 - r.uriStart
    | none => r.uriEnd - r.uriStart
  let args : NgxStr := match r.argsStart with
    | some args => if args < r.uriEnd then ⟨buf.drop args, r.uriEnd - args⟩ else ⟨[], 0⟩
    | none => ⟨[], 0⟩
  if r.complexUri ∨ r.quotedUri then .complex else .plain ((buf.drop r.uriStart).take uriLen) args

def FILE_URL_LEN_MIN : ℕ := 21

/-- The upstream that `ngx_http_getfile_handler` sets up. `sockaddr` is the address that it takes from the
host itself; otherwise the host is resolved. -/
structure GetfileUpstream where
  headerOnly : Bool
  getfile : Bool
  host : Bytes
  sockaddr : Option Bytes
  port : ℕ := 80
  request : Bytes

/-- `ngx_http_getfile_handler`, with the request that `ngx_http_upstream_init` makes it create; `before` is
the buffer in front of the arguments. -/
def ngxHttpGetfileHandler (before : Bytes) (args : NgxStr) : Option GetfileUpstream :=
  if args.len < FILE_URL_LEN_MIN then none
  else if !getfileSupportType before args.text then none
  else
    let host := getfileGetHostFromUri args
    some {
      headerOnly := true
      getfile := true
      host := host
      sockaddr := if (getfileHostIsIpAddr host).1 then some host else none
      request := getfileUpstreamCreateRequest args }

/-- What `sc_ngx_download` writes to Nginx. -/
def scNgxRequest (url lp : Bytes) : Option Bytes :=
  scNgxBuildGet SC_NGX_DEFAULT_IP_ADDR (if startsWith url HTTP_URL_PREFIX then url.drop HTTP_URL_PRE_LEN else url)
    lp BUFFER_LEN

/-- From the bytes that arrive to the upstream of the getfile module, for a request to its location. What
goes to `ngx_http_parse_complex_uri` is not followed. -/
def ngxReceive (pieces : List Bytes) : Option (NgxStr × GetfileUpstream) :=
  match ngxHttpProcessRequestLine pieces with
  | .done r _ =>
    match ngxHttpProcessRequestUri pieces.flatten r with
    | .plain uri args =>
      if uri = bytes "/getfile" then
        (ngxHttpGetfileHandler (pieces.flatten.take (r.argsStart.getD 0)) args).map (args, ·)
      else none
    | .complex => none
  | _ => none

/-- The key under which Nginx runs the download that the client asks for: what follows the first `localpath=`
of the arguments, if the getfile module takes the request. Where the parser has cut the arguments in front of
the key, Nginx reads it past their end; what it does then is not followed. -/
def downloadKey (url localPath : Bytes) : Option Bytes :=
  match (scNgxRequest url localPath).bind fun req => ngxReceive [req] with
  | some (args, _) => if (strstr args.text (bytes "localpath=")).isSome then argsLocalpath args else none
  | none => none

/-- The request once the upstream has answered with the header of a 200 response: its body is going to be
stored below `root`. -/
def GetfileUpstream.respond (up : GetfileUpstream) (args : NgxStr) (root : Bytes) (contentLengthN : ℤ)
    (rl : ResList) : Request where
  args := args
  uri := bytes "/getfile"
  root := root
  getfile := up.getfile
  statusN := NGX_HTTP_OK
  contentLengthN := contentLengthN
  rl := rl

end HotCache
