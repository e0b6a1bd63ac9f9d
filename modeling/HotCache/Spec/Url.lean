import HotCache.Lib.CString

/-! Urls and local paths (`common.h`, `sc_resource.c`, `sc_sohu.c`, `sc_youku.c`): the site
tests, the url copy, the mime suffix, the two url-to-path encoders and the decoder the
loader uses. A fallible function returns `none` where the source returns -1. -/

namespace HotCache

open CStr

def HTTP_URL_PREFIX : Bytes := bytes "http://"
def HTTP_URL_PRE_LEN : ℕ := 7
def HTTP_URL_MAX_LEN : ℕ := 600
def SC_RES_LOCAL_PATH_MAX_LEN : ℕ := 256

/-- `sc_res_mime_t`; a zeroed record reads as `html`. -/
inductive Mime
  | html | m3u8 | flv | mp4 | notCare | max
  deriving DecidableEq, Repr

/-- `sc_res_mime_type_obtain`. A 3-byte string makes the source read one byte before it for
the 4-byte suffixes; no url that passes `scResInfoPermitAdding` is that short. -/
def scResMimeTypeObtain (str : Bytes) (careType : Bool) : Mime :=
  if !careType then .notCare
  else if str.length < 3 then .max
  else if str.drop (str.length - 3) = bytes "flv" then .flv
  else if str.drop (str.length - 3) = bytes "mp4" then .mp4
  else if str.drop (str.length - 4) = bytes "html" then .html
  else if str.drop (str.length - 4) = bytes "m3u8" then .m3u8
  else .max

/-- `sc_res_copy_url` into a zeroed buffer that is long enough. -/
def scResCopyUrl (oUrl : Bytes) (withPara : Bool) : Bytes :=
  let start := if startsWith oUrl HTTP_URL_PREFIX then oUrl.drop HTTP_URL_PRE_LEN else oUrl
  if withPara then start else start.takeWhile (· ≠ ch '?')

def scUrlIsYk (url : Bytes) : Bool := (strstr url (bytes "youku")).isSome
def scUrlIsSohu (url : Bytes) : Bool := (strstr url (bytes "sohu")).isSome
def scUrlIsSohuFileUrl (url : Bytes) : Bool := (strstr url (bytes "?file=/")).isSome

def scResInfoPermitAdding (url : Bytes) : Bool :=
  scUrlIsYk url || scUrlIsSohu url || scUrlIsSohuFileUrl url

/-- The copy loop of `sc_res_url_to_local_path_default`; the flag is `first_slash`. -/
def defaultLoop : Bool → Bytes → Bytes
  | _, [] => []
  | first, p :: s =>
    if p = ch '?' then []
    else if first ∧ p = ch '.' then ch '_' :: defaultLoop first s
    else if p = ch '/' then
      if first then p :: defaultLoop false s else ch '_' :: defaultLoop first s
    else p :: defaultLoop first s

/-- `sc_res_url_to_local_path_default`; `len` is the size of the path buffer. -/
def scResUrlToLocalPathDefault (url : Bytes) (len : ℕ) : Option Bytes :=
  if len ≤ url.length then none else some (defaultLoop true url)

def scYkUrlToLocalPath (url : Bytes) (len : ℕ) : Option Bytes := scResUrlToLocalPathDefault url len

/-- The copy loop of `sc_sohu_file_url_to_local_path`. It keeps the query and turns `?` into `_`. -/
def sohuLoop : Bool → Bytes → Bytes
  | _, [] => []
  | first, p :: s =>
    if first ∧ p = ch '.' then ch '_' :: sohuLoop first s
    else if p = ch '/' then
      if first then p :: sohuLoop false s else ch '_' :: sohuLoop first s
    else if p = ch '?' then ch '_' :: sohuLoop first s
    else p :: sohuLoop first s

def scSohuFileUrlToLocalPath (url : Bytes) (len : ℕ) : Option Bytes :=
  if !scUrlIsSohuFileUrl url then none
  else if len ≤ url.length then none
  else some (sohuLoop true url)

/-- The copy loop of `sc_res_recover_url_from_local_path`; the flag is `meet_slash`. -/
def recoverLoop : Bool → Bytes → Bytes
  | _, [] => []
  | meet, p :: s =>
    if p = ch '/' then ch '/' :: recoverLoop true s
    else if p = ch '_' then (if !meet then ch '.' else ch '/') :: recoverLoop meet s
    else p :: recoverLoop meet s

def sohuFileTag : Bytes := bytes "ipad/file=/"

/-- The last step of the decoder: `sohu_tag_p[4] = '?'` at the first tag, if there is one. -/
def fixSohuTag (url : Bytes) : Bytes :=
  match strstr url sohuFileTag with
  | none => url
  | some p => url.take (url.length - p.length) ++ p.set 4 (ch '?')

def scResRecoverUrlFromLocalPath (lp : Bytes) : Option Bytes :=
  if HTTP_URL_MAX_LEN ≤ lp.length then none else some (fixSohuTag (recoverLoop false lp))

end HotCache
