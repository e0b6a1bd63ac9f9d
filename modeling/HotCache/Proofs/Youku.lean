import HotCache.Proofs.Copies
import HotCache.Proofs.Datagram
import HotCache.Proofs.Fileid
import HotCache.Proofs.Origin
import HotCache.Proofs.Playlist
import HotCache.Proofs.Service
import HotCache.Proofs.Streams
import HotCache.Spec.Youku

/-! The download of a Youku video from end to end. Whatever the servers send, a PARSE request does what
the client makes of some list of real urls; and when they answer the requests for the playlist and for
its segments, the list is that of the real urls in the order of the segments. -/

namespace HotCache

open CStr Buffer

section Refinement

variable [L : Layout]

/-- What the client makes of the servers for the segments from `j` on, up to the first failure. -/
def ykSegReplies (streams : List StreamInfo) (ykUrl : Bytes) (net : ℕ → Net) :
    ℕ → List SegmentInfo → Option (List YkSeg)
  | _, [] => some []
  | j, seg :: segs => do
    match ← ykSegRealUrl streams ykUrl (net (j + 1)) seg with
    | .stop => return [.stop]
    | reply => return reply :: (← ykSegReplies streams ykUrl net (j + 1) segs)

theorem ykVideoLoop_eq (origin : MgmtIdx) (streams : List StreamInfo) (ykUrl : Bytes) (ans : NetAnswer) (j : ℕ)
    (w : World) (segs : List SegmentInfo) :
    (ykVideoLoop origin streams ykUrl ans j w segs).map Prod.snd =
      (ykSegReplies streams ykUrl ans.net j segs).map (ykSegLoop origin ans.segment j w) := by
  induction segs generalizing j w with
  | nil => rfl
  | cons seg segs ih =>
    rw [ykVideoLoop, ykSegReplies]
    cases hreply : ykSegRealUrl streams ykUrl (ans.net (j + 1)) seg with
    | none => rfl
    | some reply =>
      simp only [Option.bind_eq_bind, Option.bind_some]
      cases reply with
      | skip =>
        dsimp only
        rw [ih (j + 1) w]
        cases ykSegReplies streams ykUrl ans.net (j + 1) segs <;> rfl
      | stop => rfl
      | url realUrl =>
        dsimp only
        cases hadd : w.addCtnt origin realUrl (ans.segment j).snooping with
        | mk parsed w₁ =>
          cases parsed with
          | none =>
            dsimp only
            rw [ih (j + 1) w₁]
            cases ykSegReplies streams ykUrl ans.net (j + 1) segs with
            | none => rfl
            | some l => simp [ykSegLoop, hadd]
          | some parsed =>
            dsimp only
            rw [ih (j + 1) _]
            cases ykSegReplies streams ykUrl ans.net (j + 1) segs with
            | none => rfl
            | some l => simp [ykSegLoop, hadd]

variable {w w' : World}

/-- The client with the servers does what it does on a list of segments. -/
theorem getYkVideoNet_refines {origin : MgmtIdx} {ans : NetAnswer} {err : ℤ}
    (h : scGetYkVideoNet w origin ans = some (err, w')) :
    ∃ segs, w' = scGetYkVideo w origin ⟨segs, ans.m3u8, ans.segment⟩ := by
  unfold scGetYkVideoNet at h
  unfold scGetYkVideo
  by_cases htrad : ykIsTraditionUrl (w.rl.mgmt origin).url = true
  · rw [if_pos htrad, scGetYkVideoTradition] at h
    simp only [htrad, Bool.not_true, Bool.false_eq_true, if_false]
    obtain ⟨found, -, h⟩ := Option.bind_eq_some_iff.mp h
    cases found with
    | none =>
      obtain ⟨-, rfl⟩ := Prod.mk.inj (Option.some.inj h)
      exact ⟨none, rfl⟩
    | some found =>
      obtain ⟨streams, strm⟩ := found
      dsimp only at h
      have hloop := ykVideoLoop_eq origin streams
        (cstr (scResCopyUrl (w.rl.mgmt origin).url false ++ ans.behind)) ans 0 w strm.segments
      rw [h, Option.map_some] at hloop
      obtain ⟨segs, -, hsegs⟩ := Option.map_eq_some_iff.mp hloop.symm
      exact ⟨some segs, hsegs.symm⟩
  · rw [if_neg htrad] at h
    obtain ⟨-, rfl⟩ := Prod.mk.inj (Option.some.inj h)
    exact ⟨none, by simp [htrad]⟩

theorem doParseNet_refines {reqUrl : Bytes} {ans : NetAnswer} {status : Status}
    (h : scSnoopingDoParseNet w reqUrl ans = some (status, w')) :
    ∃ segs, (status, w') = scSnoopingDoParse w reqUrl ⟨segs, ans.m3u8, ans.segment⟩ := by
  unfold scSnoopingDoParseNet at h
  unfold scSnoopingDoParse
  cases hgen : scResGenOriginUrl reqUrl with
  | none =>
    rw [hgen] at h
    exact ⟨none, (Option.some.inj h).symm⟩
  | some originUrl =>
    rw [hgen] at h
    dsimp only at h ⊢
    cases hfind : scResInfoFindMgmt w.rl originUrl with
    | some m =>
      rw [hfind] at h
      exact ⟨none, (Option.some.inj h).symm⟩
    | none =>
      rw [hfind] at h
      dsimp only at h ⊢
      cases hadd : scResInfoAddOrigin w.rl originUrl with
      | mk origin rl =>
        rw [hadd] at h
        cases origin with
        | none => exact ⟨none, (Option.some.inj h).symm⟩
        | some origin =>
          dsimp only at h ⊢
          cases hsite : (rl.mgmt origin).site with
          | youku =>
            rw [hsite] at h
            obtain ⟨⟨err, w₁⟩, hvideo, heq⟩ := Option.map_eq_some_iff.mp h
            obtain ⟨segs, hsegs⟩ := getYkVideoNet_refines hvideo
            exact ⟨segs, by rw [← heq, ← hsegs]⟩
          | sohu =>
            rw [hsite] at h
            exact ⟨none, (Option.some.inj h).symm⟩
          | max =>
            rw [hsite] at h
            exact ⟨none, (Option.some.inj h).symm⟩

theorem NetRequest.serves (h : NetRequest w w') : ServesTo w w' := by
  cases h with
  | serve dgram beyond parseAns downAns h =>
    unfold scSnoopingServeNet at h
    split at h
    next urlData _ =>
      obtain ⟨⟨status, w₁⟩, hparse, rfl⟩ := Option.map_eq_some_iff.mp h
      obtain ⟨segs, hsegs⟩ := doParseNet_refines hparse
      have hw : w₁ = (scSnoopingDoParse w (reqUrl urlData beyond) ⟨segs, parseAns.m3u8, parseAns.segment⟩).2 :=
        congrArg Prod.snd hsegs
      rw [hw]
      exact .single (SpRequest.serve (.parse w _ _))
    next urlData _ =>
      rw [← Option.some.inj h]
      exact .single (SpRequest.serve (.down w _ downAns))
    next =>
      rw [← Option.some.inj h]
      exact .refl

theorem NetStep.serves (h : NetStep w w') : ServesTo w w' := by
  cases h with
  | request hreq => exact hreq.serves
  | own hown => exact .single hown.serve

/-- Whatever datagrams arrive and whatever the servers send, a state that the program reaches without
undefined behaviour is one that it reaches on requests and real urls. -/
theorem net_run_refines (h : NetServed w) : Served w := by
  induction h with
  | refl => exact .refl
  | tail _ hstep ih => exact ih.servesTo hstep.serves

end Refinement

section Session

def ykRequest (url referer : Bytes) : Bytes :=
  expand ykRequestPattern [url.drop (hostPart url).length, hostPart url, referer]

/-- The host of `url` sends `response` back, which is a string shorter than the buffer. -/
structure Answers (net : Net) (url referer response : Bytes) : Prop where
  sent : net (hostPart url) (ykRequest url referer) = response
  pos : response ≠ []
  string : 0 ∉ response
  short : response.length < RESP_BUF_LEN

variable {net : Net} {url referer response : Bytes}

theorem ykRequestPattern_length : ykRequestPattern.length = 276 := by decide +kernel

theorem ykHttpSession_answers (hpre : startsWith url HTTP_URL_PREFIX = false) (hslash : ch '/' ∈ url)
    (hhost : (hostPart url).length < MAX_HOST_NAME_LEN) (hfits : url.length + referer.length ≤ 700)
    (h : Answers net url referer response) :
    ykHttpSession net url referer RESP_BUF_LEN = some (some response) := by
  have hlen : (hostPart url).length ≤ url.length := (List.takeWhile_prefix _).length_le
  have hne : (hostPart url).length ≠ url.length := fun heq => (hostPart_length_eq_iff url).mp heq hslash
  have hbuild : ykBuildRequest (hostPart url) (url.drop (hostPart url).length) referer =
      some (ykRequest url referer) := by
    rw [ykBuildRequest, if_neg]
    · rfl
    · rw [ykRequestPattern_length, List.length_drop, BUFFER_LEN]
      omega
  have htake : response.take RESP_BUF_LEN = response := List.take_of_length_le h.short.le
  have hpart : url.takeWhile (· ≠ ch '/') = hostPart url := rfl
  unfold ykHttpSession
  rw [if_neg (by decide)]
  simp only [hpre, Bool.false_eq_true, if_false, hpart]
  rw [if_neg hhost.not_gt, if_neg hne, if_neg hhost.ne, hbuild]
  dsimp only
  rw [h.sent, htake, if_neg h.pos, if_neg fun hfull => h.short.ne hfull.1, cstr_eq_self h.string]

theorem hostPart_append {host uri : Bytes} (h : ch '/' ∉ host) : hostPart (host ++ ch '/' :: uri) = host := by
  rw [hostPart, List.takeWhile_append_of_pos (ne_of_notMem h)]
  simp

theorem ykHttpSession_host {host uri : Bytes} (hhost : host = bytes "v.youku.com" ∨ host = bytes "f.youku.com")
    (hfits : uri.length + referer.length ≤ 680)
    (h : Answers net (host ++ ch '/' :: uri) referer response) :
    ykHttpSession net (host ++ ch '/' :: uri) referer RESP_BUF_LEN = some (some response) := by
  have hnoslash : ch '/' ∉ host := by rcases hhost with rfl | rfl <;> decide
  have hlen : host.length = 11 := by rcases hhost with rfl | rfl <;> decide
  refine ykHttpSession_answers ?_ (by simp) ?_ ?_ h
  · rcases hhost with rfl | rfl <;> rfl
  · rw [hostPart_append hnoslash, hlen]
    decide
  · rw [List.length_append, List.length_cons, hlen]
    omega

end Session

section Flvpath

def segmentFileid (f : Bytes) (no : ℕ) : Bytes :=
  (f.set 8 (upperHexDigit (no / 16))).set 9 (upperHexDigit (no % 16))

def flvpathUrl (t : YkType) (f : Bytes) (s : Segment) : Bytes :=
  bytes "f.youku.com/player/getFlvPath/sid/00_00/st/" ++ (t.name ++ (bytes "/fileid/" ++
    (segmentFileid f (digitsValue s.no) ++ (bytes "?K=" ++ s.k))))

theorem getFileurl_segment {t : YkType} (ht : t = .mp4 ∨ t = .flv) (f : Bytes) (s : Segment) :
    ykGetFileurl 0 { sid := bytes "00", fileType := t.name, drm := false, key1 := [], key2 := [] }
      { fileId := segmentFileid f (digitsValue s.no), key := s.k } false 0 = some (flvpathUrl t f s) := by
  have hname : t.name.length < 4 ∧ ¬ (t.name = bytes "hd2" ∨ t.name = bytes "hd3") := by
    rcases ht with rfl | rfl <;> decide
  have hnum : hexLower 0 = bytes "0" := by decide
  have hhead : bytes "f.youku.com/player/getFlvPath/sid/00_00/st/" = bytes "f.youku.com/player/getFlvPath" ++
      (bytes "/sid/" ++ (bytes "00" ++ (bytes "_" ++ (bytes "00" ++ bytes "/st/")))) := by decide
  have hkey : (if s.k = [] then ([] : Bytes) ++ [] else s.k) = s.k := by
    split_ifs with hk
    · exact hk.symm
    · rfl
  unfold ykGetFileurl flvpathUrl
  simp only [hnum]
  rw [if_neg (by decide), if_neg hname.1.not_ge, if_neg hname.2, hhead, hkey]
  simp only [Bool.false_eq_true, if_false, List.append_assoc]
  rfl

theorem segmentFileid_length (f : Bytes) (no : ℕ) : (segmentFileid f no).length = f.length := by
  simp [segmentFileid]

variable {seed : ℕ} {sigma f : Bytes}

theorem getFileid_segment (hseed : seed ≤ 9999999) (hsigma : ranom8T seed = some sigma)
    (hlen : f.length = YK_FILEID_LEN) (hf : ∀ c ∈ f, c ∈ sigma) {no : ℕ} (hno : no ≤ 255) :
    ykGetFileid (encodeFileid sigma f) no seed = some (true, segmentFileid f no) := by
  obtain ⟨sigma', hsigma', hperm⟩ := ranom8T_perm hseed
  obtain rfl := Option.some.inj (hsigma.symm.trans hsigma')
  have h68 : sigma.length = 68 := hperm.length_eq.trans (by decide)
  obtain ⟨hshort, hpad⟩ := hexUpper_padded hno
  have hnul : 0 ∉ segmentFileid f no := by
    intro h0
    rcases List.mem_or_eq_of_mem_set h0 with h0 | h0
    · rcases List.mem_or_eq_of_mem_set h0 with h0 | h0
      · exact absurd (hperm.subset (hf 0 h0)) (by decide)
      · exact upperHexDigit_ne_zero (by omega) h0.symm
    · exact upperHexDigit_ne_zero (by omega) h0.symm
  simp only [ykGetFileid, hsigma, cgFun_encodeFileid (by omega) hlen hf, Option.bind_eq_bind, Option.bind_some,
    if_neg hshort.not_ge, hpad, List.getD_cons_zero, List.getD_cons_succ]
  rw [← segmentFileid, cstr_eq_self hnul, segmentFileid_length, hlen, if_neg (lt_irrefl _)]
  rfl

theorem encodeFileid_noNul (sigma f : Bytes) : 0 ∉ encodeFileid sigma f := by
  intro h0
  obtain ⟨c, -, hc⟩ := List.mem_flatMap.mp h0
  rcases List.mem_append.mp hc with hc | hc
  · exact absurd (digit_of_mem_decimal hc) (by decide)
  · exact absurd (List.mem_singleton.mp hc) (by decide)

theorem segToFlvpath_segment (hseed : seed ≤ 9999999) (hsigma : ranom8T seed = some sigma)
    (hlen : f.length = YK_FILEID_LEN) (hf : ∀ c ∈ f, c ∈ sigma) {t : YkType} (ht : t = .mp4 ∨ t = .flv)
    {streams : List StreamInfo} {i : ℕ} {strm : StreamInfo} (hi : streams[i]? = some strm)
    (htype : strm.type = t.name) (hids : strm.streamfileids = encodeFileid sigma f) (hs : strm.seed = seed)
    {s : Segment} (hno : digitsValue s.no ≤ 255) (hk : s.k.length < VIDEO_SEG_KEY_LEN) (hnul : 0 ∉ s.k) :
    ykSegToFlvpath streams (s.info i) = some (some (flvpathUrl t f s)) := by
  have hno' : ((digitsValue s.no : ℤ) % 2 ^ 32).toNat = digitsValue s.no := by omega
  have hname : t.name.take 3 = t.name := by cases t <;> rfl
  unfold ykSegToFlvpath Segment.info
  simp only [hi, Option.bind_eq_bind, Option.bind_some, hids, cstr_eq_self (encodeFileid_noNul sigma f), hno', hs,
    Int.toNat_natCast, getFileid_segment hseed hsigma hlen hf hno, cstr_eq_self hnul, if_neg hk.not_ge, htype,
    hname, getFileurl_segment ht]
  rfl

end Flvpath

section Choice

/-- The stream that is downloaded: the one of type `mp4`, or else the one of type `flv`. -/
def Downloaded (types : List YkType) (t : YkType) : Prop := t = .mp4 ∨ t = .flv ∧ .mp4 ∉ types

theorem startsWith_name (t u : YkType) : startsWith t.name u.name = decide (t = u) := by
  cases t <;> cases u <;> decide

theorem downloadTypeLoop_types {types : List YkType} {t : YkType} (hnd : types.Nodup) (ht : Downloaded types t) :
    ∀ {streams : List StreamInfo} {i j : ℕ} {ret : ℤ}, streams.map (·.type) = types.map YkType.name →
      types[j]? = some t → i + types.length ≤ STREAM_TYPE_TOTAL →
      downloadTypeLoop i ret streams = (i + j : ℕ) := by
  induction types with
  | nil => exact fun _ hj _ => nomatch hj
  | cons u types ih =>
    intro streams i j ret hmap hj hroom
    cases streams with
    | nil => cases hmap
    | cons s streams =>
      obtain ⟨hs, htail⟩ := List.cons.inj hmap
      simp only [List.length_cons] at hroom
      have hflv : VIDEO_FLV_SUFFIX = YkType.name .flv := rfl
      have hmp4 : VIDEO_MP4_SUFFIX = YkType.name .mp4 := rfl
      rw [downloadTypeLoop, if_neg (by omega)]
      simp only [hs, hflv, hmp4, startsWith_name, decide_eq_true_eq]
      cases j with
      | zero =>
        obtain rfl := Option.some.inj hj
        rcases ht with rfl | ⟨rfl, hno⟩
        · rw [if_pos rfl, Nat.add_zero]
        · -- the last `flv`: no other stream is downloadable
          rw [if_neg (by decide), if_pos rfl, Nat.add_zero]
          have hlen : i + 1 + streams.length ≤ STREAM_TYPE_TOTAL := by
            have := congrArg List.length htail
            simp only [List.length_map] at this
            omega
          rcases downloadTypeLoop_spec streams (i + 1) i hlen with ⟨-, heq⟩ | ⟨⟨s', hs', hd⟩, -⟩
          · exact heq
          · have hmem : s'.type ∈ types.map YkType.name := htail ▸ List.mem_map_of_mem hs'
            obtain ⟨v, hv, hname⟩ := List.mem_map.mp hmem
            unfold Downloadable at hd
            rw [← hname, hflv, hmp4, startsWith_name, startsWith_name, decide_eq_true_eq, decide_eq_true_eq] at hd
            rcases hd with rfl | rfl
            · exact absurd hv (List.nodup_cons.mp hnd).1
            · exact absurd (List.mem_cons_of_mem _ hv) hno
      | succ j =>
        have hmem : t ∈ types := List.mem_of_getElem? hj
        have hne : u ≠ .mp4 := by
          rintro rfl
          rcases ht with rfl | ⟨-, hno⟩
          · exact (List.nodup_cons.mp hnd).1 hmem
          · exact hno (by simp)
        have hrest : Downloaded types t := by
          rcases ht with rfl | ⟨rfl, hno⟩
          · exact .inl rfl
          · exact .inr ⟨rfl, fun hin => hno (List.mem_cons_of_mem _ hin)⟩
        rw [if_neg hne, ih (List.nodup_cons.mp hnd).2 hrest htail hj (by omega)]
        push_cast
        ring

theorem streamTable_types (seed : ℤ) (streams : List (YkType × Bytes)) (segs : List (YkType × List Segment)) :
    (streamTable seed streams segs).map (·.type) = (streams.map Prod.fst).map YkType.name := by
  refine List.ext_getElem? fun i => ?_
  simp only [streamTable, List.getElem?_map, List.getElem?_mapIdx]
  cases streams[i]? <;> rfl

end Choice

section Video

def playlistUrl (id : Bytes) (ran : ℕ) : Bytes :=
  bytes "v.youku.com/player/getPlayList/VideoIDS/" ++ id ++
    bytes "/timezone/+08/version/5/source/video?password=&n=3&ran=" ++ decimal ran ++ bytes "&ctype=10&ev=1"

/-- The servers have the video `id`: its playlist `p` lists the stream `t` with the encoded id `f`, and
the url `realUrl j` for segment `j` of it. The copied origin url ends where it was copied to. -/
structure Online (id : Bytes) (p : Playlist) (t : YkType) (f : Bytes) (realUrl : ℕ → Bytes) (ans : NetAnswer) :
    Prop where
  id_length : id.length = 13
  id_alnum : ∀ c ∈ id, isAlnum c = true
  ends : ans.behind.head? = some 0
  playlist : Answers (ans.net 0) (playlistUrl id (ans.rand % 10000)) (ykOriginUrl id) p.text
  ok : httpParseStatusLine p.text = some 200
  wf : p.WellFormed
  few : ∀ e ∈ p.segs, e.2.length < STREAM_SEGS_MAX
  stream : ∃ sigma, ranom8T (digitsValue p.seed) = some sigma ∧ (t, encodeFileid sigma f) ∈ p.streams ∧
    ∀ c ∈ f, c ∈ sigma
  fileid : f.length = YK_FILEID_LEN
  type : Downloaded (p.streams.map Prod.fst) t
  segment : ∀ j s, (segsOf p.segs t)[j]? = some s → s.k.length < VIDEO_SEG_KEY_LEN ∧ digitsValue s.no ≤ 255 ∧
    ∃ response, Answers (ans.net (j + 1)) (flvpathUrl t f s) (ykOriginUrl id) response ∧
      (httpParseStatusLine response = some 200 ∨ httpParseStatusLine response = some 302) ∧
      flvpathText response = some (realUrl j) ∧ (realUrl j).length < HTTP_URL_MAX_LEN

variable {id : Bytes} {p : Playlist} {t : YkType} {f : Bytes} {realUrl : ℕ → Bytes} {ans : NetAnswer}

theorem ykParseFlvpath_text (data : Bytes) : ykParseFlvpath data =
    match flvpathText data with
    | none => some none
    | some text =>
      if HTTP_URL_MAX_LEN < text.length then none
      else if HTTP_URL_MAX_LEN = text.length then some none
      else some (some text) := by
  rfl

theorem ykOriginUrl_length (h : id.length = 13) : (ykOriginUrl id).length = 40 := by
  rw [ykOriginUrl, List.length_append, List.length_append, h]
  decide

theorem Online.block (h : Online id p t f realUrl ans) :
    ∃ behind, scResCopyUrl (ykOriginUrl id) false ++ ans.behind = ykOriginUrl id ++ 0 :: behind := by
  obtain ⟨behind, hb⟩ := List.head?_eq_some_iff.mp h.ends
  have hnoq : ∀ c ∈ ykOriginUrl id, decide (c ≠ ch '?') = true := by
    apply ne_of_notMem
    simp only [ykOriginUrl, List.mem_append, not_or]
    refine ⟨by decide, fun hc => ?_, by decide⟩
    exact isAlnum_ne (h.id_alnum _ hc) (by decide) rfl
  refine ⟨behind, ?_⟩
  rw [hb, scResCopyUrl, show startsWith (ykOriginUrl id) HTTP_URL_PREFIX = false from rfl]
  simp only [Bool.false_eq_true, if_false]
  rw [List.takeWhile_eq_self_iff.mpr hnoq]

theorem Online.seed_le (h : Online id p t f realUrl ans) : digitsValue p.seed ≤ 9999999 := by
  have hle : 10 ^ p.seed.length ≤ 10 ^ 7 := Nat.pow_le_pow_right (by decide) h.wf.seed.short
  have := digitsValue_lt h.wf.seed.digits
  omega

theorem parsePlaylist_table (h : p.WellFormed) (hcnt : ∀ e ∈ p.segs, e.2.length < STREAM_SEGS_MAX) :
    ykParsePlaylist p.text [] = some (0, p.table) := by
  have hseed : atoi (p.seed ++ [0]) = some (digitsValue p.seed : ℤ) := by
    refine atoi_digits h.seed.pos h.seed.digits (by decide) ?_
    have hle : 10 ^ p.seed.length ≤ 10 ^ 7 := Nat.pow_le_pow_right (by decide) h.seed.short
    have := digitsValue_lt h.seed.digits
    omega
  have hle : ∀ e ∈ p.segs, e.2.length ≤ 63 := fun e he => Nat.le_of_lt_succ (hcnt e he)
  simp only [ykParsePlaylist, ykParsePlSeed_text h, hseed, ykParsePlStreamfileids_text h, streamTable_nil,
    ykParsePlSegs_text h hle, Option.bind_eq_bind, Option.bind_some]
  rfl

theorem Online.chosen (h : Online id p t f realUrl ans) :
    ∃ i sigma, ranom8T (digitsValue p.seed) = some sigma ∧ (∀ c ∈ f, c ∈ sigma) ∧
      p.table[i]? = some (streamRecord (digitsValue p.seed) p.segs i (t, encodeFileid sigma f)) ∧
      scGetYkDownloadVideoType p.table = i := by
  obtain ⟨sigma, hsigma, hmem, hf⟩ := h.stream
  obtain ⟨i, hi⟩ := List.mem_iff_getElem?.mp hmem
  refine ⟨i, sigma, hsigma, hf, ?_, ?_⟩
  · simp [Playlist.table, streamTable, hi]
  · have hroom : 0 + (p.streams.map Prod.fst).length ≤ STREAM_TYPE_TOTAL := by
      simpa [STREAM_TYPE_TOTAL] using h.wf.streams.2.1
    have hloop : downloadTypeLoop 0 (-1) (streamTable (digitsValue p.seed) p.streams p.segs) = (0 + i : ℕ) :=
      downloadTypeLoop_types h.wf.streams.2.2 h.type (streamTable_types _ _ _) (by simp [hi]) hroom
    rw [scGetYkDownloadVideoType, Playlist.table, hloop, Nat.zero_add]

theorem Online.playlistStreams (h : Online id p t f realUrl ans) (behind : Bytes) :
    ∃ i sigma, ranom8T (digitsValue p.seed) = some sigma ∧ (∀ c ∈ f, c ∈ sigma) ∧
      p.table[i]? = some (streamRecord (digitsValue p.seed) p.segs i (t, encodeFileid sigma f)) ∧
      ykPlaylistStreams (ykOriginUrl id ++ 0 :: behind) ans.rand (ans.net 0) =
        some (some (p.table, streamRecord (digitsValue p.seed) p.segs i (t, encodeFileid sigma f))) := by
  obtain ⟨i, sigma, hsigma, hf, hi, hchosen⟩ := h.chosen
  refine ⟨i, sigma, hsigma, hf, hi, ?_⟩
  have hurl : ∃ uri, playlistUrl id (ans.rand % 10000) = bytes "v.youku.com" ++ ch '/' :: uri ∧
      uri.length ≤ 150 := by
    refine ⟨bytes "player/getPlayList/VideoIDS/" ++ id ++
      bytes "/timezone/+08/version/5/source/video?password=&n=3&ran=" ++ decimal (ans.rand % 10000) ++
      bytes "&ctype=10&ev=1", ?_, ?_⟩
    · simp only [playlistUrl, List.append_assoc]
      rfl
    · have hran : (decimal (ans.rand % 10000)).length ≤ 4 :=
        decimal_length_le (by decide) (Nat.mod_lt _ (by decide))
      have hlit : (bytes "player/getPlayList/VideoIDS/").length = 28 ∧
          (bytes "/timezone/+08/version/5/source/video?password=&n=3&ran=").length = 55 ∧
          (bytes "&ctype=10&ev=1").length = 14 := by decide +kernel
      simp only [List.length_append, h.id_length, hlit]
      omega
  obtain ⟨uri, huri, hshort⟩ := hurl
  have hsession := ykHttpSession_host (.inl rfl) (by rw [ykOriginUrl_length h.id_length]; omega) (huri ▸ h.playlist)
  have hmem : (0 : UInt8) ∈ ykOriginUrl id ++ 0 :: behind := by simp
  unfold ykPlaylistStreams
  rw [ykOriginUrl_playlist h.id_length h.id_alnum, ← playlistUrl]
  simp only [Option.bind_eq_bind, Option.bind_some, hmem, not_true_eq_false, if_false,
    cstr_terminated (ykOriginUrl_noNul h.id_alnum), huri, hsession, h.ok, ne_eq,
    parsePlaylist_table h.wf h.few, hchosen, downloadIndexRejected_eq, Bool.false_eq_true, Int.toNat_natCast, hi]
  rw [if_neg (by omega)]
  rfl

theorem segment_key_noNul (h : p.WellFormed) {s : Segment} {e : YkType × List Segment} (he : e ∈ p.segs)
    (hs : s ∈ e.2) : 0 ∉ s.k := by
  intro h0
  refine h.nul_parts.2.2 (mem_commaSep (List.mem_map_of_mem he) ?_)
  have hseg : 0 ∈ commaSep (e.2.map Segment.text) :=
    mem_commaSep (List.mem_map_of_mem hs) (by simp [Segment.text, h0])
  simp [segsText, hseg]

theorem mem_segsOf {segs : List (YkType × List Segment)} {s : Segment} (h : s ∈ segsOf segs t) :
    ∃ e ∈ segs, s ∈ e.2 := by
  unfold segsOf at h
  cases hl : segs.lookup t with
  | none => rw [hl] at h; cases h
  | some l =>
    rw [hl] at h
    obtain ⟨l₁, l₂, heq, -⟩ := List.lookup_eq_some_iff.mp hl
    exact ⟨(t, l), by rw [heq]; simp, h⟩

theorem segments_segsTable {l : List SegmentInfo} {strm : StreamInfo} (h : strm.segs = segsTable l) :
    strm.segments = l := by
  have htake : (segsTable l).takeWhile Option.isSome = l.map some := by
    unfold segsTable
    rw [List.takeWhile_append_of_pos (by simp)]
    cases STREAM_SEGS_MAX - l.length <;> simp [List.replicate_succ]
  simp only [StreamInfo.segments, h, htake, List.filterMap_map]
  exact List.filterMap_some

theorem segReplies_urls {streams : List StreamInfo} {ykUrl : Bytes} {net : ℕ → Net} {segs : List SegmentInfo} {j : ℕ}
    (h : ∀ i seg, segs[i]? = some seg →
      ykSegRealUrl streams ykUrl (net (j + i + 1)) seg = some (.url (realUrl (j + i)))) :
    ykSegReplies streams ykUrl net j segs = some ((List.range segs.length).map fun i => .url (realUrl (j + i))) := by
  induction segs generalizing j with
  | nil => rfl
  | cons seg segs ih =>
    have hseg := h 0 seg rfl
    have hrest := ih (j := j + 1) fun i seg' hi => by
      have := h (i + 1) seg' hi
      rwa [show j + (i + 1) = j + 1 + i by omega] at this
    rw [Nat.add_zero] at hseg
    rw [ykSegReplies, hseg]
    simp only [Option.bind_eq_bind, Option.bind_some, hrest]
    rw [List.length_cons, List.range_succ_eq_map, List.map_cons, List.map_map]
    have hshift : (fun i => YkSeg.url (realUrl (j + 1 + i))) = (fun i => YkSeg.url (realUrl (j + i))) ∘ Nat.succ := by
      funext i
      rw [Function.comp_apply, show j + 1 + i = j + i.succ by omega]
    rw [hshift]
    rfl

theorem Online.segRealUrl (h : Online id p t f realUrl ans) {i : ℕ} {sigma : Bytes}
    (hsigma : ranom8T (digitsValue p.seed) = some sigma) (hf : ∀ c ∈ f, c ∈ sigma)
    (hi : p.table[i]? = some (streamRecord (digitsValue p.seed) p.segs i (t, encodeFileid sigma f)))
    {j : ℕ} {s : Segment} (hs : (segsOf p.segs t)[j]? = some s) :
    ykSegRealUrl p.table (ykOriginUrl id) (ans.net (j + 1)) (s.info i) = some (.url (realUrl j)) := by
  obtain ⟨hk, hno, response, hanswer, hstatus, htext, hlen⟩ := h.segment j s hs
  obtain ⟨e, he, hse⟩ := mem_segsOf (List.mem_of_getElem? hs)
  have ht : t = .mp4 ∨ t = .flv := h.type.imp (fun heq => heq) And.left
  have hfp := segToFlvpath_segment h.seed_le hsigma h.fileid hf ht hi rfl rfl rfl hno hk
    (segment_key_noNul h.wf he hse)
  obtain ⟨uri, huri, hshort⟩ : ∃ uri, flvpathUrl t f s = bytes "f.youku.com" ++ ch '/' :: uri ∧ uri.length ≤ 150 := by
    refine ⟨bytes "player/getFlvPath/sid/00_00/st/" ++ (t.name ++ (bytes "/fileid/" ++
      (segmentFileid f (digitsValue s.no) ++ (bytes "?K=" ++ s.k)))), rfl, ?_⟩
    have hlit : (bytes "player/getFlvPath/sid/00_00/st/").length = 31 ∧ (bytes "/fileid/").length = 8 ∧
        (bytes "?K=").length = 3 := by decide
    have h66 := h.fileid
    rw [YK_FILEID_LEN] at h66
    rw [VIDEO_SEG_KEY_LEN] at hk
    simp only [List.length_append, segmentFileid_length, t.name_length, hlit]
    omega
  have hsession := ykHttpSession_host (.inr rfl) (by rw [ykOriginUrl_length h.id_length]; omega) (huri ▸ hanswer)
  have hreal : ykParseFlvpath response = some (some (realUrl j)) := by
    rw [ykParseFlvpath_text, htext]
    dsimp only
    rw [if_neg hlen.not_gt, if_neg hlen.ne']
  unfold ykSegRealUrl
  simp only [hfp, Option.bind_eq_bind, Option.bind_some, huri, hsession]
  rcases hstatus with hstatus | hstatus
  · simp [hstatus, hreal]
  · simp [hstatus, hreal]

variable [L : Layout]

theorem addMgmt_url {gen : Gen} {careType : Bool} {rl rl' : ResList} {url : Bytes} {m : MgmtIdx}
    (h : scResInfoAddMgmt gen careType rl url = (some m, rl')) : (rl'.mgmt m).url = scResCopyUrl url true := by
  unfold scResInfoAddMgmt at h
  split_ifs at h
  · cases h
  · cases h
  split at h
  · cases h
  · dsimp only at h
    split at h
    · cases h
    · obtain ⟨heq, rfl⟩ := Prod.mk.inj h
      obtain rfl := Option.some.inj heq
      simp

def videoUrls (realUrl : ℕ → Bytes) (n : ℕ) : List YkSeg := (List.range n).map fun j => .url (realUrl j)

theorem Online.getYkVideo (h : Online id p t f realUrl ans) {w : World} {origin : MgmtIdx}
    (horigin : (w.rl.mgmt origin).url = ykOriginUrl id) :
    (scGetYkVideoNet w origin ans).map Prod.snd =
      some (ykSegLoop origin ans.segment 0 w (videoUrls realUrl (segsOf p.segs t).length)) := by
  obtain ⟨behind, hblock⟩ := h.block
  obtain ⟨i, sigma, hsigma, hf, hi, hstreams⟩ := h.playlistStreams behind
  have hsegs : (streamRecord (digitsValue p.seed) p.segs i (t, encodeFileid sigma f)).segments =
      (segsOf p.segs t).map (Segment.info i) := segments_segsTable rfl
  have hreplies : ykSegReplies p.table (ykOriginUrl id) ans.net 0 ((segsOf p.segs t).map (Segment.info i)) =
      some ((List.range ((segsOf p.segs t).map (Segment.info i)).length).map fun j => .url (realUrl (0 + j))) := by
    refine segReplies_urls fun j seg hj => ?_
    rw [List.getElem?_map, Option.map_eq_some_iff] at hj
    obtain ⟨s, hs, rfl⟩ := hj
    rw [Nat.zero_add]
    exact h.segRealUrl hsigma hf hi hs
  rw [scGetYkVideoNet, horigin, if_pos (ykOriginUrl_canonical h.id_length h.id_alnum).tradition,
    scGetYkVideoTradition, horigin]
  simp only [hblock, hstreams, Option.bind_eq_bind, Option.bind_some, hsegs,
    cstr_terminated (ykOriginUrl_noNul h.id_alnum)]
  rw [ykVideoLoop_eq, hreplies]
  simp [videoUrls]

/-- A PARSE request for a video that the servers have adds and downloads its real urls, in the order of
the segments, in every state of the client. -/
theorem parse_fetches_video {w : World} {reqUrl : Bytes} (hreq : scResGenOriginUrl reqUrl = some (ykOriginUrl id))
    (h : Online id p t f realUrl ans) :
    scSnoopingDoParseNet w reqUrl ans = some (scSnoopingDoParse w reqUrl
      ⟨some (videoUrls realUrl (segsOf p.segs t).length), ans.m3u8, ans.segment⟩) := by
  unfold scSnoopingDoParseNet scSnoopingDoParse
  rw [hreq]
  dsimp only
  cases hfind : scResInfoFindMgmt w.rl (ykOriginUrl id) with
  | some m => rfl
  | none =>
    dsimp only
    cases hadd : scResInfoAddOrigin w.rl (ykOriginUrl id) with
    | mk origin rl =>
      cases origin with
      | none => rfl
      | some origin =>
        have horigin : (rl.mgmt origin).url = ykOriginUrl id := addMgmt_url hadd
        dsimp only
        cases hsite : (rl.mgmt origin).site with
        | youku =>
          have hvideo := h.getYkVideo (w := { w with rl := rl }) horigin
          obtain ⟨⟨err, w₁⟩, hnet, hw⟩ := Option.map_eq_some_iff.mp hvideo
          have htrad : ykIsTraditionUrl (rl.mgmt origin).url = true := by
            rw [horigin]
            exact (ykOriginUrl_canonical h.id_length h.id_alnum).tradition
          dsimp only at hw ⊢
          rw [hnet, Option.map_some, scGetYkVideo, hw]
          simp [htrad]
        | sohu => simp [scGetSohuVideo]
        | max => rfl

end Video

section Sample

def sampleIds : Bytes :=
  bytes ("40*32*40*40*40*12*40*17*40*40*44*12*31*2*64*49*44*44*45*2*40*45*40*40*64*45*1*18*32*12*48*12*" ++
    "40*12*32*2*18*12*39*48*44*44*49*39*44*31*64*48*39*54*48*32*54*39*1*2*2*49*2*35*44*31*64*1*48*54*")

def sampleFileid : Bytes := bytes "030002010052F96855C90C006CBE32420239E2-4558-5F64-A43A-B998975F6B4A"

def sampleSegment : Segment := ⟨bytes "0", bytes "4096", bytes "196", bytes "a1", bytes "b1", true⟩

def sampleVideo : Playlist where
  pre := bytes "HTTP/1.0 200 OK\r\n\r\n\x7b\"data\":\x7b"
  seed := bytes "1599"
  mid := bytes "\"vid\":\"1\",\""
  streams := [(.flv, sampleIds)]
  segs := [(.flv, [sampleSegment])]
  rest := bytes "reamsizes"

theorem sampleVideo_wellFormed : sampleVideo.WellFormed where
  pre := by decide
  seed := .of_all (by decide) (by decide) (by decide)
  mid := by decide
  quote := by decide
  streams := by decide
  ids := by decide +kernel
  segs := ⟨by simp [sampleVideo], by decide, by decide⟩
  listed := by
    intro e he
    obtain rfl := List.mem_singleton.mp he
    decide
  segments := by
    intro e he
    obtain rfl := List.mem_singleton.mp he
    refine ⟨by simp, fun s hs => ?_⟩
    obtain rfl := List.mem_singleton.mp hs
    exact
      { no := .of_all (by decide) (by decide) (by decide)
        size := .of_all (by decide) (by decide) (by decide)
        seconds := .of_all (by decide) (by decide) (by decide)
        k := ⟨by decide, by decide, by decide, by decide⟩
        k2 := ⟨by decide, by decide, by decide, by decide⟩
        short := by decide }
  nul := by decide +kernel

def sampleRedirect : Bytes := bytes "HTTP/1.0 302 Found\r\nLocation: http://k.youku.com/v/1.flv\r\n\r\n"

def sampleAnswer : NetAnswer where
  net
    | 0, _, _ => sampleVideo.text
    | _ + 1, _, _ => sampleRedirect
  rand := 7
  behind := [0]
  m3u8 := none
  segment _ := ⟨none, .failed false, true⟩

theorem sampleVideo_online :
    Online (bytes "XNjgzMjc0MjY4") sampleVideo .flv sampleFileid (fun _ => bytes "k.youku.com/v/1.flv") sampleAnswer where
  id_length := by decide +kernel
  id_alnum := by decide +kernel
  ends := rfl
  playlist := ⟨rfl, by decide +kernel, by decide +kernel, by decide +kernel⟩
  ok := by decide +kernel
  wf := sampleVideo_wellFormed
  few := by
    intro e he
    obtain rfl := List.mem_singleton.mp he
    decide
  stream := ⟨(ranom8T 1599).getD [], by decide +kernel, by decide +kernel, by decide +kernel⟩
  fileid := by decide
  type := .inr ⟨rfl, by decide⟩
  segment := by
    intro j s hs
    have hs' : [sampleSegment][j]? = some s := hs
    obtain rfl := List.mem_singleton.mp (List.mem_of_getElem? hs')
    exact ⟨by decide, by decide, sampleRedirect, ⟨rfl, by decide, by decide +kernel, by decide +kernel⟩,
      .inr (by decide +kernel), by decide +kernel, by decide +kernel⟩

/-- A request for the video in the initial state. -/
theorem parse_fetches_video_sample :
    @scSnoopingDoParseNet sampleLayout (@scLdInit sampleLayout) (bytes "www.youku.com/v_show/id_XNjgzMjc0MjY4.html")
      sampleAnswer =
    some (@scSnoopingDoParse sampleLayout (@scLdInit sampleLayout)
      (bytes "www.youku.com/v_show/id_XNjgzMjc0MjY4.html")
      ⟨some [.url (bytes "k.youku.com/v/1.flv")], sampleAnswer.m3u8, sampleAnswer.segment⟩) := by
  have hreq : scResGenOriginUrl (bytes "www.youku.com/v_show/id_XNjgzMjc0MjY4.html") =
      some (ykOriginUrl (bytes "XNjgzMjc0MjY4")) := by decide +kernel
  have hurls : videoUrls (fun _ => bytes "k.youku.com/v/1.flv") (segsOf sampleVideo.segs .flv).length =
      [.url (bytes "k.youku.com/v/1.flv")] := rfl
  have h := @parse_fetches_video _ _ _ _ _ _ sampleLayout (@scLdInit sampleLayout) _ hreq sampleVideo_online
  rwa [hurls] at h

def sampleServed : World :=
  (@scSnoopingServeNet sampleLayout (@scLdInit sampleLayout)
    (datagram HTTP_SP2C_ACTION_PARSE (bytes "www.youku.com/v_show/id_XNjgzMjc0MjY4.html" ++ List.replicate 560 0)) []
    sampleAnswer ⟨none, .failed false, true⟩).getD (@scLdInit sampleLayout)

theorem net_run_refines_sample : @Served sampleLayout sampleServed ∧ sampleServed.rl.ctntCnt = 1 := by
  have heval : (@scSnoopingServeNet sampleLayout (@scLdInit sampleLayout)
      (datagram HTTP_SP2C_ACTION_PARSE (bytes "www.youku.com/v_show/id_XNjgzMjc0MjY4.html" ++ List.replicate 560 0)) []
      sampleAnswer ⟨none, .failed false, true⟩).map (·.rl.ctntCnt) = some 1 := by decide +kernel
  obtain ⟨w, hw, hcnt⟩ := Option.map_eq_some_iff.mp heval
  have hserved : sampleServed = w := by rw [sampleServed, hw]; rfl
  refine ⟨@net_run_refines sampleLayout _ (.single ?_), hserved ▸ hcnt⟩
  rw [hserved]
  exact @ProgramStep.request sampleLayout _ _ _ (@NetRequest.serve sampleLayout _ _ _ _ _ _ hw)

end Sample

end HotCache
