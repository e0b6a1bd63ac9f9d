import HotCache.Spec.Url

/-! A download request on its way from the snooping client (`sc_ngx.c`) to Nginx
(`ngx_http_getfile_module.c`, `ngx_http_upstream.c`, `ngx_http_core_module.c`): how the client
writes it and how each reader takes it apart again. -/

namespace HotCache

open CStr

def BUFFER_LEN : ℕ := 1024
def BUFLEN : ℕ := 64
def BUFLEN_L : ℕ := 512
def SC_NGX_DEFAULT_IP_ADDR : Bytes := bytes "127.0.0.1"

def scNgxGetPattern : Bytes :=
  bytes "GET /getfile?%s%s HTTP/1.1\r\nHost: %s\r\nConnection: close\r\n\r\n"

def para1 : Bytes := bytes "&localpath=%s"
def para2 : Bytes := bytes "?localpath=%s"

/-- `sc_ngx_build_get`; the result is the text written to `buf`, whose size is `len`. -/
def scNgxBuildGet (ip uri localPath : Bytes) (len : ℕ) : Option Bytes :=
  let paraLen := para1.length - 2
  if SC_RES_LOCAL_PATH_MAX_LEN - paraLen ≤ localPath.length then none
  else
    let lp := if ch '?' ∈ uri then expand para1 [localPath] else expand para2 [localPath]
    if len ≤ scNgxGetPattern.length + ip.length + uri.length + lp.length - 6 then none
    else some (expand scNgxGetPattern [uri, lp, ip])

/-- An `ngx_str_t` inside the request buffer: `data` runs to the end of the buffer, and only
the first `len` bytes belong to the string. -/
structure NgxStr where
  data : Bytes
  len : ℕ

def NgxStr.text (a : NgxStr) : Bytes := a.data.take a.len

/-- The loop of `getfile_get_host_from_uri`, with `BUFLEN - 1 - i` left to copy. It looks only
at `r->args.data`, not at its length. -/
def hostLoop : ℕ → Bytes → Bytes
  | n + 1, cp :: s => if cp = ch '/' then [] else cp :: hostLoop n s
  | _, _ => []

def getfileGetHostFromUri (args : NgxStr) : Bytes := hostLoop (BUFLEN - 1) args.data

/-- `getfile_get_real_uri_from_uri`: from the first `/` of the arguments on, into a buffer of
`BUFLEN_L` bytes. A longer text is cut to `BUFLEN_L - 1` bytes. -/
def getfileGetRealUriFromUri (args : NgxStr) : Bytes :=
  let ru := (args.text.dropWhile (· ≠ ch '/')).take BUFLEN_L
  if ru.length < BUFLEN_L then ru else ru.take (BUFLEN_L - 1)

def backendTail : Bytes :=
  bytes "\r\nUser-Agent: Mozilla/5.0 (Windows NT 6.1; WOW64) " ++ (bytes "AppleWebKit/537.36 (KHTML, like Gecko) " ++
    (bytes "Chrome/32.0.1700.107 Safari/537.36" ++ bytes "\r\nConnection: close\r\n\r\n"))

def backendQueryLine : Bytes := bytes "GET %s HTTP/1.0\r\nHost: %V" ++ backendTail

/-- `getfile_upstream_create_request`: `ngx_snprintf` writes at most `queryLineLen` bytes. -/
def getfileUpstreamCreateRequest (args : NgxStr) : Bytes :=
  let host := getfileGetHostFromUri args
  let realUri := getfileGetRealUriFromUri args
  let queryLineLen := backendQueryLine.length + realUri.length - 2 + host.length - 2
  (expand backendQueryLine [realUri, host]).take queryLineLen

/-- The scan key of `ngx_http_upstream_process_request` and `ngx_http_upstream_finalize_request`:
what follows the first `localpath=`, up to the end of the arguments. -/
def argsLocalpath (args : NgxStr) : Option Bytes :=
  (strstr args.data (bytes "localpath=")).map fun start =>
    (start.drop 10).take (args.len - (args.data.length - start.length + 10))

/-- `ngx_cpystrn(dst, src, n)`: at most `n - 1` bytes of the string `src`. -/
def ngxCpystrn (src : Bytes) (n : ℕ) : Bytes := src.take (n - 1)

/-- `ngx_http_map_uri_to_path` with `clcf->root_lengths == NULL`: the string it leaves in
`path->data`. -/
def ngxHttpMapUriToPath (root uri : Bytes) (aliasLen : ℕ) (getfile : Bool) (args : NgxStr) : Bytes :=
  let defaultWay := root ++ ngxCpystrn (uri.drop aliasLen) (uri.length - aliasLen + 1)
  if getfile then
    match strstr args.data (bytes "localpath=") with
    | none => defaultWay
    | some p =>
      let len := args.len - (args.data.length - p.length + 10)
      root ++ ch '/' :: ngxCpystrn (p.drop 10) (len + 1)
  else defaultWay

end HotCache
