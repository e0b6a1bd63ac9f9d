import HotCache.Spec.Fileid

/-! The playlist parser (`yk_routine.c`). It walks over the block of a response with fixed offsets;
`none` stands for a read or a write outside of a block, or through NULL. Memory allocations
succeed. -/

namespace HotCache

open CStr

def SEED_STRING_LEN : ℕ := 8
def STREAM_TYPE_TOTAL : ℕ := 4
def STREAM_SEGS_MAX : ℕ := 64
def SEG_INFO_LEN : ℕ := 256
def SEGMENT_K_LEN : ℕ := 32
def SEGMENT_K2_LEN : ℕ := 32
def VALUE_LEN : ℕ := 16

/-- `yk_segment_info_t`. `stream` is an index into the table of streams; `k` and `k2` are the bytes
that have been written, the rest of these arrays is zero. -/
structure SegmentInfo where
  stream : Option ℕ := none
  no : ℤ
  size : ℤ
  seconds : ℤ
  k : Bytes
  k2 : Bytes
  deriving DecidableEq, Repr

/-- `yk_stream_info_t`, with a list of `STREAM_SEGS_MAX` pointers. -/
structure StreamInfo where
  type : Bytes
  streamfileids : Bytes
  seed : ℤ := 0
  segs : List (Option SegmentInfo) := List.replicate STREAM_SEGS_MAX none
  deriving DecidableEq, Repr

/-- `cur = strstr(cur, t) + k`; the source does not test for NULL. -/
def seek (t : Bytes) (k : ℕ) (cur : Bytes) : Option Bytes := do
  let cur ← (← find t cur)
  advance k cur

def unquoted (c : UInt8) : Bool := c ≠ ch '"'

/-- The loops of `yk_create_segment_info` that copy a value to the zeroed `val`, and its `atoi`. -/
def readValue (cur : Bytes) : Option (ℤ × Bytes) := do
  let (val, cur) ← copyWhile unquoted VALUE_LEN cur
  return (← atoi (val ++ List.replicate (VALUE_LEN - val.length) 0), cur)

def ykCreateSegmentInfo (info : Bytes) : Option SegmentInfo := do
  let cur ← seek (bytes "no") 5 info
  let (no, cur) ← readValue cur
  let cur ← seek (bytes "size") 7 cur
  let (size, cur) ← readValue cur
  let cur ← seek (bytes "seconds") 9 cur
  let cur := if cur.head? = some (ch '"') then cur.tail else cur
  let (seconds, cur) ← readValue cur
  let cur ← seek (bytes "k") 4 cur
  let (k, cur) ← copyWhile unquoted SEGMENT_K_LEN cur
  let cur ← seek (bytes "k2") 5 cur
  let (k2, _) ← copyWhile unquoted SEGMENT_K2_LEN cur
  return { no := no, size := size, seconds := seconds, k := k, k2 := k2 }

def ykFindStreamInfo (streams : List StreamInfo) (type : Bytes) : Option ℕ :=
  streams.findIdx? (·.type = type)

/-- `yk_parse_pl_seed`: the cursor and `ss`, or NULL. -/
def ykParsePlSeed (cur : Bytes) : Option (Option (Bytes × Bytes)) := do
  match ← find (bytes "seed") cur with
  | none => return none
  | some ret =>
    let ret ← advance 6 ret
    let (seed, ret) ← copyAll (fun c => c ≠ ch ',' && digit c) ret
    if SEED_STRING_LEN ≤ seed.length then none
    return some (ret, seed)

/-- The types in the order in which both loops test for them. -/
def ykTypes : List Bytes := [bytes "hd2", bytes "mp4", bytes "hd3", bytes "flv"]

/-- The loop of `yk_parse_pl_streamfileids`: the cursor or NULL, and the table. Each round moves the
cursor, so the length of the response is enough fuel. -/
def streamfileidsLoop : ℕ → Bytes → List StreamInfo → Option (Option Bytes × List StreamInfo)
  | 0, _, _ => none
  | fuel + 1, ret, streams => do
    match ← ykTypes.findM? (matchesAt · ret) with
    | some type =>
      let (ids, ret) ← copyAll unquoted (← advance 6 ret)
      if STREAM_FILE_IDS_LEN ≤ ids.length ∨ STREAM_TYPE_TOTAL ≤ streams.length then none
      streamfileidsLoop fuel (← advance 3 ret) (streams ++ [{ type := type, streamfileids := ids }])
    | none =>
      -- on an error the table is destroyed
      if ← matchesAt (bytes "\"se") ret then return (some (ret.drop 1), streams)
      else return (none, [])

/-- `yk_parse_pl_streamfileids`, on an empty table. -/
def ykParsePlStreamfileids (cur : Bytes) : Option (Option Bytes × List StreamInfo) := do
  match ← find (bytes "streamfileids") cur with
  | none => return (none, [])
  | some ret => streamfileidsLoop cur.length (← advance 17 ret) []

/-- The loop of `yk_parse_pl_segs_do`; `stop` is what is left after `end`. -/
def segsDoLoop (i stop : ℕ) : ℕ → Bytes → ℕ → StreamInfo → Option (Option Bytes × StreamInfo)
  | 0, _, _, _ => none
  | fuel + 1, ret, segCnt, stream =>
    if ret.length ≤ stop then return (some (← advance 2 ret), stream)
    else do
      let (info, ret) ← copyWhile (· ≠ ch '\x7d') SEG_INFO_LEN ret
      let seg ← ykCreateSegmentInfo (info ++ List.replicate (SEG_INFO_LEN - info.length) 0)
      let seg := { seg with stream := some i }
      let stream := { stream with segs := stream.segs.set segCnt (some seg) }
      if STREAM_SEGS_MAX ≤ segCnt + 1 then return (none, stream)
      segsDoLoop i stop fuel (← advance 2 ret) (segCnt + 1) stream

/-- `yk_parse_pl_segs_do` on the stream with index `i`. Without a `]` the loop is not entered. -/
def ykParsePlSegsDo (cur : Bytes) (i : ℕ) (stream : StreamInfo) :
    Option (Option Bytes × StreamInfo) := do
  let ret ← advance 6 cur
  match ← find (bytes "]") ret with
  | none => return (some (← advance 2 ret), stream)
  | some stop => segsDoLoop i stop.length (ret.length + 1) ret 0 stream

def segsLoop : ℕ → Bytes → List StreamInfo → Option (Option Bytes × List StreamInfo)
  | 0, _, _ => none
  | fuel + 1, ret, streams => do
    match ← ykTypes.findM? (matchesAt · ret) with
    | some type =>
      match ykFindStreamInfo streams type with
      | none => return (none, [])
      | some i =>
        match ← ykParsePlSegsDo ret i (← streams[i]?) with
        | (none, _) => return (none, [])
        | (some ret, stream) => segsLoop fuel ret (streams.set i stream)
    | none =>
      if ← matchesAt (bytes "\"st") ret then return (some (ret.drop 1), streams)
      else return (none, [])

/-- `yk_parse_pl_segs`. Without `segs` in the response the table is not destroyed. -/
def ykParsePlSegs (cur : Bytes) (streams : List StreamInfo) :
    Option (Option Bytes × List StreamInfo) := do
  match ← find (bytes "segs") cur with
  | none => return (none, streams)
  | some ret => segsLoop cur.length (← advance 8 ret) streams

/-- `yk_parse_playlist`: the return value and the table, of which the list holds the pointers before
the first NULL. Without `seed` in the response `atoi` runs over an uninitialised `ss`, and its
result is not used. The loop that sets the seeds looks at `streams[4]` before it tests the index,
which has no effect. -/
def ykParsePlaylist (data : Bytes) (streams : List StreamInfo) : Option (ℤ × List StreamInfo) := do
  if streams ≠ [] then return (-1, streams)
  match ← ykParsePlSeed (data ++ [0]) with
  | none => return (-1, streams)
  | some (cur, ss) =>
    let seed ← atoi (ss ++ [0])
    match ← ykParsePlStreamfileids cur with
    | (none, streams) => return (-1, streams)
    | (some cur, streams) =>
      match ← ykParsePlSegs cur (streams.map fun s => { s with seed := seed }) with
      | (none, streams) => return (-1, streams)
      | (some _, streams) => return (0, streams)

def VIDEO_FLV_SUFFIX : Bytes := bytes "flv"
def VIDEO_MP4_SUFFIX : Bytes := bytes "mp4"

/-- The loop of `sc_get_yk_download_video_type`: the last `flv` before the first `mp4`, or that. -/
def downloadTypeLoop : ℕ → ℤ → List StreamInfo → ℤ
  | _, ret, [] => ret
  | i, ret, s :: streams =>
    if STREAM_TYPE_TOTAL ≤ i then ret
    else
      let ret := if startsWith s.type VIDEO_FLV_SUFFIX then (i : ℤ) else ret
      if startsWith s.type VIDEO_MP4_SUFFIX then i else downloadTypeLoop (i + 1) ret streams

def scGetYkDownloadVideoType (streams : List StreamInfo) : ℤ := downloadTypeLoop 0 (-1) streams

def downloadIndexRejected (i : ℤ) : Bool := i < 0 && (STREAM_TYPE_TOTAL : ℤ) ≤ i

end HotCache
