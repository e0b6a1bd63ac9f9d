import HotCache.Lib.Cursor

/-! The time seek of the FLV module (`ngx_http_flv_module.c`) and its handler. Positions are indices into
`meta_data`; `none` stands for a read outside of it and `some none` for `NGX_ERROR`. The machine is
little endian with words of 64 bits. -/

namespace HotCache

open CStr

def FLV_METADATA_READ_LEN : ℕ := 2 ^ 14

def ngxHttpFlvIsScriptTag (val : UInt8) : Bool := val = 0x12
def ngxHttpFlvIsVideoTag (val : UInt8) : Bool := val = 0x09
def ngxHttpFlvIsAudioTag (val : UInt8) : Bool := val = 0x08

def zerosAt (buf : Bytes) (i : ℕ) : ℕ → Option Bool
  | 0 => some true
  | k + 1 => do if (← buf[i]?) = 0 then zerosAt buf (i + 1) k else return false

/-- The body of the loop: the size of the data of a tag that starts at `i`. -/
def flvTagAt (buf : Bytes) (bufSize i : ℕ) : Option (Option ℕ) := do
  let val ← buf[i]?
  if ngxHttpFlvIsScriptTag val || ngxHttpFlvIsAudioTag val || ngxHttpFlvIsVideoTag val then
    if ← zerosAt buf (i + 8) 3 then
      let tagStartPos := bigEndian (← slice (i + 1) 3 buf)
      if i + tagStartPos ≤ bufSize ∧ 0 < tagStartPos then
        -- below 11 the subtraction wraps around, and no size is equal to that
        let tagEndPos := (bigEndian (← slice (i + tagStartPos + 12) 3 buf) : ℤ) - 11
        return if tagStartPos = tagEndPos then some tagStartPos else none
      else return none
    else return none
  else return none

def findTagLoop (buf : Bytes) (bufSize : ℕ) : ℕ → ℕ → Option (Option (ℕ × ℕ))
  | 0, _ => some none
  | k + 1, i => do
    match ← flvTagAt buf bufSize i with
    | some tagStartPos => return some (i, tagStartPos + 11)
    | none => findTagLoop buf bufSize k (i + 1)

/-- `ngx_http_flv_kf_find_tag_pos`: `tag_index` and `tag_size`. -/
def ngxHttpFlvKfFindTagPos (buf : Bytes) (bufSize : ℕ) : Option (Option (ℕ × ℕ)) :=
  findTagLoop buf bufSize bufSize 0

def findKeyframesLoop (buf : Bytes) : ℕ → ℕ → Option (Option ℕ)
  | 0, _ => some none
  | k + 1, i => do
    if (← buf[i]?) = ch 'k' then
      match ← find (bytes "keyframes") (buf.drop i) with
      | some kf => return some (buf.length - kf.length)
      | none => findKeyframesLoop buf k (i + 1)
    else findKeyframesLoop buf k (i + 1)

/-- The conversion of the eight bytes of a big endian `double` to `off_t`. -/
abbrev ToOff := Bytes → ℤ

/-- The loop over the times, with `k` of them left: the index at which it ends. -/
def timesLoop (toOff : ToOff) (buf : Bytes) (start : ℤ) : ℕ → ℕ → ℕ → Option ℕ
  | 0, i, _ => some i
  | k + 1, i, p => do
    let dd ← slice (p + 1) 8 buf
    if start < toOff dd then return i else timesLoop toOff buf start k (i + 1) (p + 9)

/-- `ngx_http_flv_kf_compute_offset`: `offset` and `pre_kf2_size2`. -/
def ngxHttpFlvKfComputeOffset (toOff : ToOff) (buf : Bytes) (bufSize : ℕ) (start : ℤ) :
    Option (Option (ℤ × ℤ)) := do
  match ← ngxHttpFlvKfFindTagPos buf bufSize with
  | none => return none
  | some (tagIndex, _) =>
    if !ngxHttpFlvIsScriptTag (← buf[tagIndex]?) then return none
    else
      match ← findKeyframesLoop buf (bufSize - (tagIndex + 1)) (tagIndex + 1) with
      | none => return none
      | some kf =>
        -- the source loads a whole word from the four bytes, and `be32toh` drops the rest of it
        let keyframeTotal := bigEndian (← slice (kf + 26) 4 buf)
        let fposStart := kf + 30
        let i ← timesLoop toOff buf start keyframeTotal 0 (fposStart + 9 * keyframeTotal + 12)
        let startKfNum := if i = 0 then 0 else i - 1
        let offset ← slice (fposStart + 9 * startKfNum + 1) 8 buf
        let preKf2Size2 ← slice (fposStart + 9 * 1 + 1) 8 buf
        return some (toOff offset, toOff preKf2Size2)

/-- `meta_data` after `data` has been read into it. -/
def metaData (data : Bytes) : Bytes := data ++ List.replicate (FLV_METADATA_READ_LEN - data.length) 0

/-- `ngx_http_flv_time_to_offset` on a file that can be read. -/
def ngxHttpFlvTimeToOffset (toOff : ToOff) (file : Bytes) (start : ℤ) : Option (Option (ℤ × ℤ)) :=
  let data := file.take FLV_METADATA_READ_LEN
  ngxHttpFlvKfComputeOffset toOff (metaData data) data.length start

def atoofLoop (value : ℤ) : Bytes → Option ℤ
  | [] => some value
  | c :: line => if digit c then atoofLoop (Int.bmod (value * 10 + (c.toNat - 48)) (2 ^ 64)) line else none

def ngxAtoof (line : Bytes) : Option ℤ :=
  if line = [] then none
  else
    match atoofLoop 0 line with
    | none => none
    | some value => if value < 0 then none else some value

def ngxFlvHeader : Bytes := bytes "FLV" ++ [1, 5, 0, 0, 0, 9, 0, 0, 0, 0]

/-- A buffer of the chain: a piece of memory, or a part of the file. -/
inductive FlvBuf
  | memory (data : Bytes)
  | file (filePos fileLast : ℤ)
  deriving DecidableEq

structure FlvResponse where
  contentLengthN : ℤ
  out : List FlvBuf
  deriving DecidableEq

/-- The part of `ngx_http_flv_handler` behind the opening of the file, for a request for its body when no
allocation fails. `value` is the argument `start`, `readable` says whether `ngx_read_file` succeeds,
and `size` is `of.size`; the sums of sizes of files do not overflow. -/
def ngxHttpFlvHandler (toOff : ToOff) (file : Bytes) (readable : Bool) (size : ℕ) (value : Option Bytes) :
    Option FlvResponse :=
  let len : ℤ := size
  let start : ℤ :=
    match value.bind ngxAtoof with
    | none => 0
    | some start => if len ≤ start then 0 else start
  if start = 0 then some ⟨len, [.file 0 len]⟩
  else do
    let ret ← if readable then ngxHttpFlvTimeToOffset toOff file start else some none
    match ret with
    | none => some ⟨ngxFlvHeader.length + len - start, [.memory ngxFlvHeader, .file start len]⟩
    | some (offset, preKf2Size) =>
      let first := if preKf2Size ≠ 0 then .file 0 preKf2Size else .memory ngxFlvHeader
      some ⟨len - offset + preKf2Size, [first, .file offset len]⟩

end HotCache
