import HotCache.Lib.Buffer
import HotCache.Spec.Client

/-! `sc_yk_trans_vid_to_std_path` down to its buffer, which it fills with `strcat` and `strncpy` and never
terminates behind the directory itself. -/

namespace HotCache

open CStr Buffer

def scYkTransVidToStdPathInto (vidPath : Bytes) (stdPath : Buf) (pathLen : ℕ) : ℤ × Buf :=
  if !scYkIsLocalPathPureVid vidPath then (-1, stdPath)
  else if pathLen ≤ vidPath.length + youkuTag.length then (-1, stdPath)
  else
    let rooted := (strstr vidPath SC_NGX_ROOT_PATH).isSome
    let uri := uriStart vidPath
    let stdPath := if rooted then stdPath.strcat pathLen SC_NGX_ROOT_PATH else stdPath
    let p : ℕ := if rooted then SC_NGX_ROOT_PATH_LEN else 0
    -- `strchr` finds the slash that the first test has found
    let vid := (uri.dropWhile (· ≠ ch '/')).drop 1
    let stdPath := stdPath.strncpy p uri (uri.length - vid.length)
    let stdPath := stdPath.strcat pathLen youkuTag
    (0, stdPath.strcat pathLen vid)

/-- The name of a file as `sc_ld_file_process` passes it to `sc_res_recover_url_from_local_path`. -/
def stripRoot (fpath : Bytes) : Bytes :=
  if startsWith fpath SC_NGX_ROOT_PATH then fpath.drop SC_NGX_ROOT_PATH_LEN else fpath

end HotCache
