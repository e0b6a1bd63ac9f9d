import HotCache.Spec.RequestLine
import HotCache.Spec.Site

/-! The snooping client and Nginx as one system (`sc_snooping.c`, `sc_youku.c`, `sc_sohu.c`,
`sc_ngx.c`, `sc_localdata.c` and the process pass of `sc_resource.c`). The state is the shared
list, the two loaded-file controllers and the keys of the getfile downloads that Nginx is running;
what the network answers is an argument. The log is not part of the program: it records the calls
that the properties speak about. -/

namespace HotCache

open CStr

def SC_REDIRECT_KEY_WORD : Bytes := bytes "Location: http://20.0.0.99:8080"
def SC_NGX_ROOT_PATH : Bytes := bytes "/usr/local/hot-cache/"
def SC_NGX_ROOT_PATH_LEN : ℕ := 21
def YOUKU_WEBSITE_URL : Bytes := bytes "www.youku.com"
def SOHU_WEBSITE_URL : Bytes := bytes "www.sohu.com"

def setIFail (f : Flag) : Flag := { f with iFail := true }
def unsetIFail (f : Flag) : Flag := { f with iFail := false }
def unsetDFail (f : Flag) : Flag := { f with dFail := false }
def setNotify (f : Flag) : Flag := { f with notify := true }

/-- What `sc_ngx_download` meets: a socket call fails, or `recv` returns the bytes of `buffer`. In
both cases Nginx may have started the download (`started`). -/
inductive NgxAnswer
  | failed (started : Bool)
  | reply (buffer : Bytes) (started : Bool)

/-- The answers to the calls made for one content record: the Sohu server on the file url
(`none` when the session fails), Nginx, and the Snooping module on an ADD or DELETE. -/
structure Answer where
  session : Option Bytes
  ngx : NgxAnswer
  snooping : Bool

/-- A call of `sc_res_info_add_ctnt`: the list it is made on, and what it is given. -/
structure Addition where
  rl : ResList
  mgmt : MgmtIdx
  url : Bytes
  delOk : Bool

/-- What the log records: the calls of `sc_res_info_add_normal` (for a DOWN request), `sc_res_info_add_ctnt`,
`sc_snooping_do_add`, `sc_ngx_download`, `sc_sohu_download` and of the two hand-over functions, with what
decides about them; the content slots that are taken; and the downloads that end. -/
inductive Ev
  | addNormal (rl : ResList) (url : Bytes)
  | addCtnt (x : Addition)
  | get (c : CtntIdx)
  | add (c : CtntIdx) (stored ok : Bool)
  | ngxDownload (url localPath : Bytes) (ret : HcResult)
  | sohuDownload (rl : ResList) (ctrlLd : Option MgmtIdx) (c : CtntIdx) (session : Option Bytes)
  | handleCached (rl : ResList) (ctrlLd : Option MgmtIdx) (parsed : CtntIdx)
  | finish (r : Request) (evs : List PipeEvent) (running : List Bytes) (lp : Bytes)

structure World where
  rl : ResList
  running : List Bytes := []
  youkuCtrlLd : Option MgmtIdx := none
  sohuCtrlLd : Option MgmtIdx := none
  log : List Ev := []

def World.setFlag (w : World) (c : CtntIdx) (f : Flag → Flag) : World := { w with rl := w.rl.setFlag c f }

def World.logged (w : World) (e : Ev) : World := { w with log := w.log ++ [e] }

section Download

/-- `sc_ngx_download`: its result (-1 is `errExotic`), and whether Nginx is now downloading. -/
def scNgxDownload (ans : NgxAnswer) (url localPath : Bytes) : HcResult × Bool :=
  match scNgxRequest url localPath with
  | none => (.errExotic, false)
  | some _ =>
    match ans with
    | .failed started => (.errExotic, started)
    | .reply buffer started =>
      match httpParseStatusLine buffer with
      | none => (.errExotic, started)
      | some status =>
        if status = 200 then (.success, true)
        else if status = 302 ∧ (strstr (cstr buffer) SC_REDIRECT_KEY_WORD).isSome then (.errExists, started)
        else (.errExotic, started)

/-- `sc_ngx_download` in the system: Nginx may start a download, under the key that it reads. -/
def World.ngxDownload (w : World) (ans : NgxAnswer) (url localPath : Bytes) : HcResult × World :=
  let r := scNgxDownload ans url localPath
  let started := if r.2 then (downloadKey url localPath).toList else []
  (r.1, World.logged { w with running := started ++ w.running } (.ngxDownload url localPath r.1))

/-- How the callers end: `if (ret != 0) sc_res_flag_set_i_fail(...)`. `sc_sohu_download` tests `ret
< 0`, which is the same: every error code is negative. -/
def orIFail (c : CtntIdx) (r : HcResult × World) : HcResult × World :=
  if r.1 ≠ .success then (r.1, r.2.setFlag c setIFail) else r

variable [Layout]

/-- `sc_yk_handle_cached` and `sc_sohu_handle_cached`, on the controller of their site. -/
def handleCachedBy (ctrlLd : Option MgmtIdx) (rl : ResList) (parsed : CtntIdx) : HcResult × ResList :=
  match ctrlLd with
  | none => (.errInternal, rl)
  | some ctrlLd => scResInfoHandleCached rl ctrlLd parsed

def World.handleCached (w : World) (ctrlLd : Option MgmtIdx) (parsed : CtntIdx) : HcResult × World :=
  let r := handleCachedBy ctrlLd w.rl parsed
  (r.1, World.logged { w with rl := r.2 } (.handleCached w.rl ctrlLd parsed))

def scYoukuDownload (w : World) (parsed : CtntIdx) (ans : Answer) : HcResult × World :=
  let r := w.ngxDownload ans.ngx (w.rl.ctnt parsed).url (w.rl.ctnt parsed).localpath
  orIFail parsed (if r.1 = .errExists then r.2.handleCached r.2.youkuCtrlLd parsed else r)

/-- Where `sc_sohu_download` stands before it calls Nginx: it has returned -1, it has returned
because the resource is cached, or it goes on with `real_url`. -/
inductive SohuStage
  | exit (w : World)
  | cached (w : World)
  | download (w : World) (realUrl : Bytes)

def sohuRealUrl (w : World) (response : Bytes) : SohuStage :=
  match sohuParseFileUrlResponse response with
  | none => .exit w
  | some realUrl => .download w realUrl

def sohuStage (w : World) (parsed : CtntIdx) (session : Option Bytes) : SohuStage :=
  match sohuHttpSession (w.rl.ctnt parsed).url session with
  | none => .exit w
  | some response =>
    match httpParseStatusLine response with
    | none => .exit w
    | some status =>
      if status = 301 then sohuRealUrl w response
      else if status = 302 ∧ (strstr response SC_REDIRECT_KEY_WORD).isSome then
        match w.handleCached w.sohuCtrlLd parsed with
        | (.success, w) => .cached w
        | (_, w) => sohuRealUrl w response
      else .exit w

def scSohuDownload (w : World) (parsed : CtntIdx) (ans : Answer) : HcResult × World :=
  let w := w.logged (.sohuDownload w.rl w.sohuCtrlLd parsed ans.session)
  match sohuStage w parsed ans.session with
  | .exit w => (.errExotic, w)
  | .cached w => (.success, w)
  | .download w realUrl => orIFail parsed (w.ngxDownload ans.ngx realUrl (w.rl.ctnt parsed).localpath)

def scResRetryDownload (w : World) (c : CtntIdx) (ans : Answer) : HcResult × World :=
  let ctnt := w.rl.ctnt c
  if !scResInfoIsCtnt ctnt.toResInfo then (.errExotic, w)
  else match ctnt.site with
    | .sohu => scSohuDownload w c ans
    | .youku => scYoukuDownload w c ans
    | .max => orIFail c (w.ngxDownload ans.ngx ctnt.url ctnt.localpath)

end Download

section Notify

/-- `sc_res_notify_ri_url`; `ok` says that `sc_snooping_do_add` returned 0. -/
def scResNotifyRiUrl (w : World) (c : CtntIdx) (ok : Bool) : Bool × World :=
  let ri := (w.rl.ctnt c).toResInfo
  if !scResInfoIsCtnt ri then (false, w)
  else if !ri.flag.stored || ri.flag.notify then (false, w)
  else
    let w := w.logged (.add c ri.flag.stored ok)
    if !ok then (false, w) else (true, w.setFlag c setNotify)

/-- `sc_yk_add_ctnt_url`; `sc_yk_add_symlink` returns before it does anything. -/
def scYkAddCtntUrl (w : World) (c : CtntIdx) (ok : Bool) : Bool × World :=
  if (w.rl.ctnt c).site ≠ .youku then (false, w) else scResNotifyRiUrl w c ok

def scResAddCtntUrl (w : World) (c : CtntIdx) (ok : Bool) : Bool × World :=
  if (w.rl.ctnt c).site = .youku then scYkAddCtntUrl w c ok else scResNotifyRiUrl w c ok

end Notify

section Process

variable [Layout]

/-- The body of the loop of `sc_res_list_process_ctnt` for one record: the errors it counts. -/
def processCtnt (w : World) (c : CtntIdx) (ans : Answer) : ℕ × World :=
  let ri := (w.rl.ctnt c).toResInfo
  if ri.url = [] then (1, w)
  else if !ri.flag.stored then
    if ri.flag.iFail then
      match scResRetryDownload w c ans with
      | (.success, w) => (0, w.setFlag c unsetIFail)
      | (_, w) => (1, w)
    else if ri.flag.dFail then
      match scResRetryDownload (w.setFlag c unsetDFail) c ans with
      | (.success, w) => (0, w)
      | (_, w) => (1, w)
    else (0, w)
  else if !ri.flag.notify then
    match scResAddCtntUrl w c ans.snooping with
    | (true, w) => (0, w)
    | (false, w) => (1, w)
  else (0, w)

/-- A pass under way: the records visited so far, and the errors counted. -/
structure Pass where
  w : World
  visited : ℕ := 0
  err : ℕ := 0

/-- The loop of `sc_res_list_process_ctnt`; `none` when the fuel runs out. -/
def processCtntLoop (ans : ℕ → CtntIdx → Answer) : ℕ → Pass → Option CtntIdx → Option Pass
  | _, p, none => some p
  | 0, _, some _ => none
  | fuel + 1, p, some curr =>
    let (err, w) := processCtnt p.w curr (ans p.visited curr)
    processCtntLoop ans fuel ⟨w, p.visited + 1, p.err + err⟩ (w.rl.ctnt curr).siblings

def scResListProcessCtnt (ans : ℕ → CtntIdx → Answer) (fuel : ℕ) (p : Pass) (mgmt : MgmtIdx) : Option Pass :=
  processCtntLoop ans fuel p (p.w.rl.mgmt mgmt).child

/-- `sc_res_list_process_mgmt`, which `sc_res_list_process_func` calls. -/
def scResListProcessMgmt (ans : ℕ → CtntIdx → Answer) (fuel : ℕ) (p : Pass) : Option Pass :=
  (List.finRange SC_RES_INFO_NUM_MAX_MGMT).foldlM
    (fun p i =>
      if SC_RES_INFO_NUM_MAX_MGMT ≤ (p.w.rl.mgmt i).id then some p else scResListProcessCtnt ans fuel p i) p

end Process

section Requests

variable [Layout]

inductive Status
  | ok | defaultError
  deriving DecidableEq, Repr

def World.addCtnt (w : World) (mgmt : MgmtIdx) (url : Bytes) (delOk : Bool) : Option CtntIdx × World :=
  let w := w.logged (.addCtnt ⟨w.rl, mgmt, url, delOk⟩)
  match scResInfoAddCtnt w.rl mgmt url delOk with
  | (none, rl) => (none, { w with rl := rl })
  | (some c, rl) => (some c, World.logged { w with rl := rl } (.get c))

def scSnoopingDoDown (w : World) (url : Bytes) (ans : Answer) : Status × World :=
  match scResInfoFindMgmt w.rl url with
  | some _ => (.ok, w)
  | none =>
    let w := w.logged (.addNormal w.rl url)
    match scResInfoAddNormal w.rl url with
    | (none, rl) => (.defaultError, { w with rl := rl })
    | (some normal, rl) =>
      match World.addCtnt { w with rl := rl } normal (rl.mgmt normal).url ans.snooping with
      | (none, w) => (.defaultError, w)
      | (some c, w) =>
        (.ok, (orIFail c (w.ngxDownload ans.ngx (w.rl.ctnt c).url (w.rl.ctnt c).localpath)).2)

/-- What the servers make of one segment in `sc_get_yk_video_tradition`: `yk_seg_to_flvpath` fails
and the loop goes on, a later step fails and the function returns, or `real_url` is found. -/
inductive YkSeg
  | skip
  | stop
  | url (realUrl : Bytes)

def ykSegLoop (origin : MgmtIdx) (ans : ℕ → Answer) : ℕ → World → List YkSeg → World
  | _, w, [] => w
  | j, w, .skip :: segs => ykSegLoop origin ans (j + 1) w segs
  | _, w, .stop :: _ => w
  | j, w, .url realUrl :: segs =>
    match w.addCtnt origin realUrl (ans j).snooping with
    | (none, w) => ykSegLoop origin ans (j + 1) w segs
    | (some parsed, w) => ykSegLoop origin ans (j + 1) (scYoukuDownload w parsed (ans j)).2 segs

def sohuFileLoop (origin : MgmtIdx) (ans : ℕ → Answer) : ℕ → World → List Bytes → World
  | _, w, [] => w
  | j, w, fileUrl :: urls =>
    match w.addCtnt origin fileUrl (ans j).snooping with
    | (none, w) => sohuFileLoop origin ans (j + 1) w urls
    | (some parsed, w) => sohuFileLoop origin ans (j + 1) (scSohuDownload w parsed (ans j)).2 urls

/-- The answers to a PARSE request: the segments of the Youku playlist (`none` when a step before
them fails), the Sohu playlist, and the answers for each segment. -/
structure ParseAnswer where
  youku : Option (List YkSeg)
  m3u8 : Option Bytes
  segment : ℕ → Answer

def scGetYkVideo (w : World) (origin : MgmtIdx) (ans : ParseAnswer) : World :=
  if !ykIsTraditionUrl (w.rl.mgmt origin).url then w
  else match ans.youku with
    | none => w
    | some segs => ykSegLoop origin ans.segment 0 w segs

def scGetSohuVideo (w : World) (origin : MgmtIdx) (ans : ParseAnswer) : World :=
  let url := (w.rl.mgmt origin).url
  if !sohuIsM3u8Url url then w
  else match sohuHttpSession (scResCopyUrl url false) ans.m3u8 with
    | none => w
    | some response =>
      if httpParseStatusLine response ≠ some 200 then w
      else sohuFileLoop origin ans.segment 0 w (sohuFileUrls (response.length + 1) response)

def scSnoopingDoParse (w : World) (reqUrl : Bytes) (ans : ParseAnswer) : Status × World :=
  match scResGenOriginUrl reqUrl with
  | none => (.ok, w)
  | some originUrl =>
    match scResInfoFindMgmt w.rl originUrl with
    | some _ => (.ok, w)
    | none =>
      match scResInfoAddOrigin w.rl originUrl with
      | (none, rl) => (.defaultError, { w with rl := rl })
      | (some origin, rl) =>
        let w := { w with rl := rl }
        match (rl.mgmt origin).site with
        | .youku => (.ok, scGetYkVideo w origin ans)
        | .sohu => (.ok, scGetSohuVideo w origin ans)
        | .max => (.ok, w)

end Requests

section Loader

/-- `sc_yk_is_local_path`; advertisements are left out. -/
def scYkIsLocalPath (lp : Bytes) : Bool :=
  (strstr lp (bytes "youku_")).isSome && (strstr lp (bytes "valf")).isNone && (strstr lp (bytes "ad_api_")).isNone

def scSohuIsLocalPath (lp : Bytes) : Bool := (strstr lp (bytes "_file=_")).isSome

/-- `uri_start`: the source skips the length of the root even when the root is found further on. -/
def uriStart (lp : Bytes) : Bytes :=
  if (strstr lp SC_NGX_ROOT_PATH).isSome then lp.drop SC_NGX_ROOT_PATH_LEN else lp

def scYkIsLocalPathPureVid (lp : Bytes) : Bool :=
  let uri := uriStart lp
  if uri.length < 70 + 8 then false
  else if ch '/' ∉ uri then false
  else (uri.rtakeWhile (· ≠ ch '/')).length = 70 && uri.count (ch '/') = 1

def youkuTag : Bytes := bytes "youku_67731242A093F822806A633329_"

/-- `sc_yk_trans_vid_to_std_path`, into a zeroed buffer. -/
def scYkTransVidToStdPath (vidPath : Bytes) (pathLen : ℕ) : Option Bytes :=
  if !scYkIsLocalPathPureVid vidPath then none
  else if pathLen ≤ vidPath.length + youkuTag.length then none
  else
    let root := if (strstr vidPath SC_NGX_ROOT_PATH).isSome then SC_NGX_ROOT_PATH else []
    let uri := uriStart vidPath
    let vid := (uri.dropWhile (· ≠ ch '/')).drop 1
    some (root ++ uri.take (uri.length - vid.length) ++ youkuTag ++ vid)

/-- `sc_ld_is_duplicate_file`: a loaded record has the part of `fpath` after its last `_` in its
url. -/
def scLdIsDuplicateFile (rl : ResList) (ctrlLd : Option MgmtIdx) (fpath : Bytes) : Bool :=
  match ctrlLd with
  | none => false
  | some ctrlLd =>
    if !scYkIsLocalPath fpath && !scSohuIsLocalPath fpath && !scYkIsLocalPathPureVid fpath then false
    else if ch '_' ∉ fpath then false
    else
      (findLoaded rl (fpath.rtakeWhile (· ≠ ch '_')) (SC_RES_INFO_NUM_MAX_CTNT + 1) none
        (rl.mgmt ctrlLd).child).isSome

/-- What the file system answers to a rename, and the Snooping module to a DELETE. -/
structure LoadAnswer where
  rename : Bool
  del : Bool

variable [Layout]

/-- The second half of `sc_ld_file_process`. A duplicate file is removed and adds no record. -/
def ldAddFile (w : World) (ctrlLd : Option MgmtIdx) (fpath : Bytes) (del : Bool) : World :=
  if scLdIsDuplicateFile w.rl ctrlLd fpath then w
  else
    let localPath := if startsWith fpath SC_NGX_ROOT_PATH then fpath.drop SC_NGX_ROOT_PATH_LEN else fpath
    match scResRecoverUrlFromLocalPath localPath, ctrlLd with
    | some url, some ctrlLd => (w.addCtnt ctrlLd url del).2
    | _, _ => w

def scLdFileProcess (w : World) (fpath : Bytes) (ans : LoadAnswer) : World :=
  if scYkIsLocalPath fpath then ldAddFile w w.youkuCtrlLd fpath ans.del
  else if scYkIsLocalPathPureVid fpath then
    match scYkTransVidToStdPath fpath SC_RES_LOCAL_PATH_MAX_LEN with
    | none => w
    | some ykStdFpath => if !ans.rename then w else ldAddFile w w.youkuCtrlLd ykStdFpath ans.del
  else if scSohuIsLocalPath fpath then ldAddFile w w.sohuCtrlLd fpath ans.del
  else w

/-- `sc_res_list_alloc_and_init` and the first part of `sc_ld_init_and_load`, before the walk over
the files. -/
def scLdInit : World :=
  match scResInfoAddCtrlLd scResListAllocAndInit YOUKU_WEBSITE_URL with
  | (none, rl) => { rl := rl }
  | (some youku, rl) =>
    match scResInfoAddCtrlLd rl SOHU_WEBSITE_URL with
    | (none, rl) => { rl := rl, youkuCtrlLd := some youku }
    | (some sohu, rl) => { rl := rl, youkuCtrlLd := some youku, sohuCtrlLd := some sohu }

end Loader

end HotCache
