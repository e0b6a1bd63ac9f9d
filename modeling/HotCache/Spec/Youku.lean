import HotCache.Spec.Buffers
import HotCache.Spec.Datagram
import HotCache.Spec.Getplaylist
import HotCache.Spec.Playlist
import HotCache.Spec.Service

/-! From an origin url to the urls of its video files (`yk_lib.c`, `yk_getflvpath.c` and
`sc_get_yk_video_tradition`), with the requests that the client sends and the bytes that the servers send
back. `none` stands for undefined behaviour, which a read behind the terminator of a response counts as. -/

namespace HotCache

open CStr

section Session

def ykRequestPattern : Bytes := bytes ("GET %s HTTP/1.0\r\nHost: %s\r\nConnection: close\r\n" ++
  "User-Agent: Mozilla/5.0 (Windows NT 6.1; WOW64) AppleWebKit/537.36 (KHTML, like Gecko) " ++
  "Chrome/33.0.1750.117 Safari/537.36\r\nAccept: */*\r\nReferer: http://%s\r\nAccept-Encoding:\r\n" ++
  "Accept-Language: en-US,en;q=0.8,zh-CN;q=0.6,zh;q=0.4\r\n\r\n")

def ykBuildRequest (host uri referer : Bytes) : Option Bytes :=
  if BUFFER_LEN ≤ host.length + uri.length + referer.length + ykRequestPattern.length - 6 then none
  else some (expand ykRequestPattern [uri, host, referer])

def RESP_BUF_LEN : ℕ := 2 ^ 15

/-- What a host sends back to a request until it closes the connection; nothing when a call of the
session fails. -/
abbrev Net := Bytes → Bytes → Bytes

/-- `yk_http_session` into a buffer of `respLen` bytes: the string in it afterwards, or `none` inside
where it returns -1. A host of `MAX_HOST_NAME_LEN` bytes fills its array and the terminator falls behind
it. A response that fills its buffer without a NUL is no string, and every caller reads one. -/
def ykHttpSession (net : Net) (url referer : Bytes) (respLen : ℕ) : Option (Option Bytes) :=
  if respLen < BUFFER_LEN then some none
  else
    let rest := if startsWith url HTTP_URL_PREFIX then url.drop HTTP_URL_PRE_LEN else url
    let host := rest.takeWhile (· ≠ ch '/')
    if MAX_HOST_NAME_LEN < host.length then none
    else if host.length = rest.length then some none
    else if host.length = MAX_HOST_NAME_LEN then none
    else
      match ykBuildRequest host (rest.drop host.length) referer with
      | none => some none
      | some request =>
        let response := (net host request).take respLen
        if response = [] then some none
        else if response.length = respLen ∧ 0 ∉ response then none
        else some (some (cstr response))

end Session

section Flvpath

structure PlayListData where
  sid : Bytes
  fileType : Bytes
  drm : Bool
  key1 : Bytes
  key2 : Bytes

structure VideoSegData where
  fileId : Bytes
  key : Bytes

def VIDEO_SEG_KEY_LEN : ℕ := 25

/-- `%x` of a number that is not negative. -/
def hexLower (n : ℕ) : Bytes := (Nat.toDigits 16 n).map ch

/-- `yk_get_fileurl`: what it appends to `out_url`. The jump time is formatted and then not appended. -/
def ykGetFileurl (num : ℕ) (playList : PlayListData) (segData : VideoSegData) (useJumptime : Bool)
    (_jumpTime : ℤ) : Option Bytes :=
  let loc7 := hexLower num
  if 3 ≤ loc7.length then none
  else
    let loc7 := if loc7.length = 1 then ch '0' :: loc7 else loc7
    if 4 ≤ playList.fileType.length then none
    else
      let loc8 :=
        if playList.fileType = bytes "hd2" ∨ playList.fileType = bytes "hd3" then VIDEO_FLV_SUFFIX
        else playList.fileType
      let loc8 := if playList.drm then bytes "f4v" else loc8
      some (bytes "f.youku.com/player/getFlvPath" ++ bytes "/sid/" ++ playList.sid ++ bytes "_" ++ loc7 ++
        bytes "/st/" ++ loc8 ++ bytes "/fileid/" ++ segData.fileId ++
        (if useJumptime then
          if playList.drm then bytes "?K=" else bytes "?start=" ++ bytes "&K="
        else bytes "?K=") ++
        (if segData.key = [] then playList.key2 ++ playList.key1 else segData.key))

/-- `yk_seg_to_flvpath`: `fp_url`, or `none` inside where it returns -1. The streams are the blocks that
the pointer of a segment may lead to. -/
def ykSegToFlvpath (streams : List StreamInfo) (seg : SegmentInfo) : Option (Option Bytes) :=
  match seg.stream with
  | none => some none
  | some i => do
    let strm ← streams[i]?
    let (ok, fileids) ← ykGetFileid (cstr strm.streamfileids) (seg.no % 2 ^ 32).toNat strm.seed.toNat
    if !ok then return none
    if VIDEO_SEG_KEY_LEN ≤ (cstr seg.k).length then none
    return some (← ykGetFileurl 0
      { sid := bytes "00", fileType := strm.type.take 3, drm := false, key1 := [], key2 := [] }
      { fileId := fileids, key := cstr seg.k } false 0)

/-- `yk_parse_flvpath` into a buffer of `HTTP_URL_MAX_LEN` bytes: `real_url`, or `none` inside where it
returns -1. -/
def ykParseFlvpath (data : Bytes) : Option (Option Bytes) :=
  let copied : Option Bytes :=
    match strstr data flvpathTag1 with
    | some p => some ((p.drop flvpathTag1.length).takeWhile (!flvpathStop1 ·))
    | none => (strstr data flvpathTag2).map fun p => (p.drop flvpathTag2.length).takeWhile (!flvpathStop2 ·)
  match copied with
  | none => some none
  | some realUrl =>
    if HTTP_URL_MAX_LEN < realUrl.length then none
    else if HTTP_URL_MAX_LEN = realUrl.length then some none
    else some (some realUrl)

end Flvpath

section Video

/-- What one PARSE request meets: the sessions with the video site in their order, the value of
`rand()`, what stands in `yk_url` behind the copied url, the Sohu playlist, and the answers of Nginx and
of the Snooping module for each segment. -/
structure NetAnswer where
  net : ℕ → Net
  rand : ℕ
  behind : Bytes
  m3u8 : Option Bytes
  segment : ℕ → Answer

def ykSegRealUrl (streams : List StreamInfo) (ykUrl : Bytes) (net : Net) (seg : SegmentInfo) : Option YkSeg := do
  match ← ykSegToFlvpath streams seg with
  | none => return .skip
  | some fpUrl =>
    match ← ykHttpSession net fpUrl ykUrl RESP_BUF_LEN with
    | none => return .stop
    | some response =>
      match httpParseStatusLine response with
      | none => return .stop
      | some status =>
        if status = 200 ∨ status = 302 then
          match ← ykParseFlvpath response with
          | none => return .stop
          | some realUrl => return .url realUrl
        else return .stop

variable [Layout]

/-- The segment loop of `sc_get_yk_video_tradition`, from segment `j` on: `err`, and the state. -/
def ykVideoLoop (origin : MgmtIdx) (streams : List StreamInfo) (ykUrl : Bytes) (ans : NetAnswer) :
    ℕ → World → List SegmentInfo → Option (ℤ × World)
  | _, w, [] => some (0, w)
  | j, w, seg :: segs => do
    match ← ykSegRealUrl streams ykUrl (ans.net (j + 1)) seg with
    | .skip => ykVideoLoop origin streams ykUrl ans (j + 1) w segs
    | .stop => return (-1, w)
    | .url realUrl =>
      match w.addCtnt origin realUrl (ans.segment j).snooping with
      | (none, w) => ykVideoLoop origin streams ykUrl ans (j + 1) w segs
      | (some parsed, w) =>
        ykVideoLoop origin streams ykUrl ans (j + 1) (scYoukuDownload w parsed (ans.segment j)).2 segs

def StreamInfo.segments (strm : StreamInfo) : List SegmentInfo :=
  (strm.segs.takeWhile Option.isSome).filterMap id

/-- Step 1 of `sc_get_yk_video_tradition`: the streams of the playlist and the one whose segments are
downloaded, or `none` inside where `err` is -1. `ykUrl` is the block of `yk_url`. -/
def ykPlaylistStreams (ykUrl : Bytes) (rand : ℕ) (net : Net) : Option (Option (List StreamInfo × StreamInfo)) := do
  match ← ykUrlToPlaylist ykUrl rand with
  | none => return none
  | some plUrl =>
    if 0 ∉ ykUrl then none
    match ← ykHttpSession net plUrl (cstr ykUrl) RESP_BUF_LEN with
    | none => return none
    | some response =>
      if httpParseStatusLine response ≠ some 200 then return none
      let (ret, streams) ← ykParsePlaylist response []
      if ret ≠ 0 then return none
      let downloadIndex := scGetYkDownloadVideoType streams
      if downloadIndexRejected downloadIndex then return none
      if downloadIndex < 0 then none
      return some (streams, ← streams[downloadIndex.toNat]?)

def scGetYkVideoTradition (w : World) (origin : MgmtIdx) (ans : NetAnswer) : Option (ℤ × World) := do
  let ykUrl := scResCopyUrl (w.rl.mgmt origin).url false ++ ans.behind
  match ← ykPlaylistStreams ykUrl ans.rand (ans.net 0) with
  | none => return (-1, w)
  | some (streams, strm) => ykVideoLoop origin streams (cstr ykUrl) ans 0 w strm.segments

def scGetYkVideoNet (w : World) (origin : MgmtIdx) (ans : NetAnswer) : Option (ℤ × World) :=
  if ykIsTraditionUrl (w.rl.mgmt origin).url then scGetYkVideoTradition w origin ans else some (-1, w)

def scSnoopingDoParseNet (w : World) (reqUrl : Bytes) (ans : NetAnswer) : Option (Status × World) :=
  match scResGenOriginUrl reqUrl with
  | none => some (.ok, w)
  | some originUrl =>
    match scResInfoFindMgmt w.rl originUrl with
    | some _ => some (.ok, w)
    | none =>
      match scResInfoAddOrigin w.rl originUrl with
      | (none, rl) => some (.defaultError, { w with rl := rl })
      | (some origin, rl) =>
        let w := { w with rl := rl }
        match (rl.mgmt origin).site with
        | .youku => (scGetYkVideoNet w origin ans).map fun r => (.ok, r.2)
        | .sohu => some (.ok, scGetSohuVideo w origin ⟨none, ans.m3u8, ans.segment⟩)
        | .max => some (.ok, w)

def scSnoopingServeNet (w : World) (dgram beyond : Bytes) (parseAns : NetAnswer) (downAns : Answer) :
    Option World :=
  match scSnoopingCheck dgram with
  | some (.parse, urlData) => (scSnoopingDoParseNet w (reqUrl urlData beyond) parseAns).map Prod.snd
  | some (.down, urlData) => some (scSnoopingDoDown w (reqUrl urlData beyond) downAns).2
  | none => some w

inductive NetRequest : World → World → Prop
  | serve (w w' dgram beyond parseAns downAns)
      (h : scSnoopingServeNet w dgram beyond parseAns downAns = some w') : NetRequest w w'

def NetStep : World → World → Prop := ProgramStep NetRequest

def NetServed (w : World) : Prop := Relation.ReflTransGen NetStep scLdInit w

end Video

end HotCache
