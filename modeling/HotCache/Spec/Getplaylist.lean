import HotCache.Lib.Buffer
import HotCache.Lib.Cursor
import HotCache.Spec.Site

/-! From a Youku request to the url of its playlist (`sc_yk_gen_origin_url` of `sc_youku.c`, with the
buffer it writes to, and `yk_getplaylist.c`). `yk_getplaylist.c` works on the block of the url, its
terminator and what stands behind it included; `none` stands for leaving a block. -/

namespace HotCache

open CStr Buffer

def YK_MAX_NAME_LEN : ℕ := 32

/-- The loop over the tags of `sc_yk_gen_origin_url`. A run of another length than 13 jumps back to
`again`, which is the `continue` of the loop. -/
def ykOriginLoop (reqUrl : Bytes) (originUrl : Buf) : List Bytes → ℤ × Buf
  | [] => (-1, originUrl)
  | tag :: tags =>
    match strstr reqUrl tag with
    | none => ykOriginLoop reqUrl originUrl tags
    | some start =>
      let start := start.drop tag.length
      let len := (start.takeWhile isAlnum).length
      if len ≠ 13 then ykOriginLoop reqUrl originUrl tags
      else (0, originUrl.putAll 0 (expand (bytes "v.youku.com/v_show/id_%s.html") [start.take len] ++ [0]))

def scYkGenOriginUrlInto (reqUrl : Bytes) (originUrl : Buf) : ℤ × Buf :=
  ykOriginLoop reqUrl originUrl ykOriginTags

def identifyYkVideoUrl (purl : Bytes) : Option Bool := do
  return (← find (bytes "v.youku.com/v_show") purl) == some purl

def YK_URL_PRE_LEN : ℕ := 22

/-- `get_yk_video_name`: its result, `name` and `folderId`, both arrays of `YK_MAX_NAME_LEN` bytes. The
copy loop stops at a dot, not at the terminator. -/
def getYkVideoName (purl : Bytes) : Option (ℕ × Bytes × Bytes) := do
  match ← find (bytes "v.youku.com/v_show/id_") purl with
  | none => return (0, [], [])
  | some nameIdx =>
    let nameIdx ← advance YK_URL_PRE_LEN nameIdx
    let (name, nameIdx) ← copyWhile (· ≠ ch '.') YK_MAX_NAME_LEN nameIdx
    if YK_MAX_NAME_LEN ≤ name.length then none
    if YK_URL_PRE_LEN + name.length + 5 = (cstr purl).length then return (1, name, [])
    else
      let folderIdx ← advance 8 nameIdx
      let (folderId, _) ← copyAll (fun c => c ≠ 0 && c ≠ ch '&') folderIdx
      if YK_MAX_NAME_LEN ≤ folderId.length then none
      return (2, name, folderId)

/-- `request_playlist` on what `yk_url_to_playlist` passes: no password, no `pf`, no Tudou player. -/
def requestPlaylist (videoId : Bytes) (fid : Option Bytes) (ran : ℕ) : Bytes :=
  bytes "v.youku.com" ++ bytes "/player/getPlayList" ++ bytes "/VideoIDS/" ++ videoId ++
    bytes "/timezone/" ++ bytes "+08" ++ bytes "/version/" ++ bytes "5" ++ bytes "/source/" ++ bytes "video" ++
    (match fid with
      | none => []
      | some fid => bytes "/Type/" ++ bytes "Folder" ++ bytes "/Fid/" ++ fid ++ bytes "/Pt/" ++ bytes "0" ++
          bytes "/Ob/" ++ bytes "1") ++
    bytes "?password=" ++ bytes "&n=" ++ decimal 3 ++ bytes "&ran=" ++ decimal ran ++
    bytes "&ctype=" ++ bytes "10" ++ bytes "&ev=" ++ decimal 1

/-- `yk_url_to_playlist`; the inner `none` is its `false`, and `rand` the value of `rand()`. -/
def ykUrlToPlaylist (url : Bytes) (rand : ℕ) : Option (Option Bytes) := do
  if !(← identifyYkVideoUrl url) then return none
  match ← getYkVideoName url with
  | (0, _, _) => return none
  | (ret, name, folderId) =>
    return some (requestPlaylist (cstr name) (if ret = 2 then some (cstr folderId) else none) (rand % 10000))

end HotCache
