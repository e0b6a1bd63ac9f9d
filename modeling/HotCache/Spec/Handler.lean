import HotCache.Lib.Buffer
import HotCache.Lib.Cursor
import HotCache.Spec.Getfile

/-! What `ngx_http_getfile_module.c` checks of a request before it takes it, and the memory to which
`ngx_http_map_uri_to_path` writes the path of the stored file. -/

namespace HotCache

open CStr Buffer

def IP_ADDR_LEN_MAX : ℕ := 15
def IP_ADDR_LEN_MIN : ℕ := 7

def supportTypes : List Bytes :=
  [bytes "flv", bytes "mp4", bytes "gif", bytes "png", bytes "jpg", bytes "zip", bytes "ico", bytes "html",
    bytes "mov"]

/-- `getfile_support_type`: the bytes at the end of the arguments. `before` is what stands in front of
them in the request buffer, which is read too when the arguments are shorter than an ending. -/
def getfileSupportType (before args : Bytes) : Bool :=
  supportTypes.any fun t => (before ++ args).drop ((before ++ args).length - t.length) = t

/-- The test of the digits in `asc`, at a dot and at the end. The terminator is written first, so `atoi`
stays in the four bytes. -/
def ascNumber (digits : ℕ) (asc : Buf) : Bool × Buf :=
  if digits > 3 ∨ digits < 1 then (false, asc)
  else
    let asc := asc.put digits 0
    match atoi (asc.read 4) with
    | none => (false, asc)
    | some num => (!(num < 0 || num > 255), asc)

/-- The loop of `getfile_host_is_ip_addr`: `dot_cnt` and `digits` at its end, or `none` where it
returns 0; and `asc`. -/
def ipAddrLoop : Bytes → ℕ → ℕ → Buf → Option (ℕ × ℕ) × Buf
  | [], dotCnt, digits, asc => (some (dotCnt, digits), asc)
  | c :: host, dotCnt, digits, asc =>
    if c = ch '.' then
      match ascNumber digits asc with
      | (false, asc) => (none, asc)
      | (true, asc) =>
        let asc := asc.putAll 0 [0, 0, 0, 0]
        if dotCnt + 1 > 3 then (none, asc) else ipAddrLoop host (dotCnt + 1) 0 asc
    else if !digit c then (none, asc)
    else ipAddrLoop host dotCnt (digits + 1) (asc.put digits c)

def getfileHostIsIpAddr (host : Bytes) : Bool × Buf :=
  let asc : Buf := ⟨fun _ => 0, []⟩
  if host.length > IP_ADDR_LEN_MAX ∨ host.length < IP_ADDR_LEN_MIN then (false, asc)
  else
    match ipAddrLoop host 0 0 asc with
    | (none, asc) => (false, asc)
    | (some (dotCnt, digits), asc) => if dotCnt ≠ 3 then (false, asc) else ascNumber digits asc

/-- The loop of `ngx_cpystrn(dst, src, n)`, with `n - 1` bytes to go. -/
def cpystrnLoop : ℕ → Bytes → ℤ → Buf → Buf
  | n + 1, c :: src, dst, b => if c = 0 then b.put dst 0 else cpystrnLoop n src (dst + 1) (b.put dst c)
  | _, _, dst, b => b.put dst 0

def ngxCpystrnInto (b : Buf) (dst : ℤ) (src : Bytes) (n : ℕ) : Buf :=
  if n = 0 then b else cpystrnLoop (n - 1) src dst b

/-- `ngx_http_map_uri_to_path` with `clcf->root_lengths == NULL`: `path->len`, which is what it allocates,
and `path->data`. It returns NULL for an alias in a location that was rewritten. -/
def ngxHttpMapUriToPathInto (root uri : Bytes) (aliasLen : ℕ) (validLocation getfile : Bool)
    (args : NgxStr) (reserved : ℕ) (data : Buf) : Option (ℕ × Buf) :=
  if aliasLen ≠ 0 ∧ !validLocation then none
  else
    let pathLen := root.length + reserved + uri.length - aliasLen + 1
    let data := data.putAll 0 root
    let defaultWay := ngxCpystrnInto data root.length (uri.drop aliasLen) (uri.length - aliasLen + 1)
    if getfile then
      match strstr args.data (bytes "localpath=") with
      | none => some (pathLen, defaultWay)
      | some p =>
        let len := args.len - (args.data.length - p.length + 10)
        some (pathLen, ngxCpystrnInto (data.put root.length (ch '/')) (root.length + 1) (p.drop 10) (len + 1))
    else some (pathLen, defaultWay)

end HotCache
