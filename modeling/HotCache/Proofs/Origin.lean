import HotCache.Proofs.Datagram
import HotCache.Spec.Getplaylist

/-! The canonical urls of requests. A Youku request becomes the page of its video id, which every later
recogniser of the client reads the same way. A Sohu request becomes the url of its playlist up to the
query, whether or not the suffix that was looked for stands before the query. -/

namespace HotCache

open CStr Buffer

section Youku

/-- The first occurrence of `tag` in `url` is followed by `id`, a maximal run of letters and digits,
13 of them. -/
def FollowedById (url tag id : Bytes) : Prop :=
  ∃ pre rest, url = pre ++ (tag ++ (id ++ rest)) ∧ (∀ k < pre.length, ¬ OccursAt url tag k) ∧
    id.length = 13 ∧ (∀ c ∈ id, isAlnum c = true) ∧ ∀ c ∈ rest.head?, isAlnum c = false

def ykOriginUrl (id : Bytes) : Bytes := bytes "v.youku.com/v_show/id_" ++ (id ++ bytes ".html")

theorem ykOriginUrl_expand (id : Bytes) :
    expand (bytes "v.youku.com/v_show/id_%s.html") [id] = ykOriginUrl id := by
  rfl

theorem takeWhile_run {p : UInt8 → Bool} {id rest : Bytes} (hid : ∀ c ∈ id, p c = true)
    (hrest : ∀ c ∈ rest.head?, p c = false) : (id ++ rest).takeWhile p = id := by
  rw [List.takeWhile_append_of_pos hid]
  cases rest with
  | nil => simp
  | cons c rest =>
    have hc : p c = false := hrest c (by simp)
    simp [hc]

theorem followedById_iff (url tag id : Bytes) : FollowedById url tag id ↔
    ∃ start, strstr url tag = some start ∧ (start.drop tag.length).takeWhile isAlnum = id ∧ id.length = 13 := by
  constructor
  · rintro ⟨pre, rest, heq, hfirst, hlen, hid, hrest⟩
    refine ⟨tag ++ (id ++ rest), ?_, ?_, hlen⟩
    · rw [heq] at hfirst ⊢
      exact strstr_append (List.prefix_append _ _) hfirst
    · rw [List.drop_left]
      exact takeWhile_run hid hrest
  · rintro ⟨start, hs, hrun, hlen⟩
    obtain ⟨pre, heq, ⟨r, rfl⟩, hfirst⟩ := strstr_split hs
    rw [List.drop_left] at hrun
    refine ⟨pre, r.dropWhile isAlnum, ?_, hfirst, hlen, ?_, ?_⟩
    · rw [← hrun, List.takeWhile_append_dropWhile, heq]
    · rw [← hrun]
      exact fun c hc => List.mem_takeWhile_imp hc
    · intro c hc
      have := List.head?_dropWhile_not isAlnum r
      rw [Option.mem_def.mp hc] at this
      simpa using this

section Loop

variable {url tag id : Bytes} {tags : List Bytes} (origin : Buf)

theorem ykOriginLoop_found (h : FollowedById url tag id) :
    ykOriginLoop url origin (tag :: tags) = (0, origin.putAll 0 (ykOriginUrl id ++ [0])) := by
  obtain ⟨start, hs, rfl, hlen⟩ := (followedById_iff url tag id).mp h
  have htake := List.prefix_iff_eq_take.mp (List.takeWhile_prefix (l := start.drop tag.length) isAlnum)
  rw [hlen] at htake
  simp only [ykOriginLoop, hs, hlen, ne_eq, not_true_eq_false, if_false, ykOriginUrl_expand]
  rw [← htake]

/-- A tag that is missing, or followed by a run of another length, is passed over. -/
theorem ykOriginLoop_skip (h : ∀ id, ¬ FollowedById url tag id) :
    ykOriginLoop url origin (tag :: tags) = ykOriginLoop url origin tags := by
  cases hs : strstr url tag with
  | none => rw [ykOriginLoop, hs]
  | some start =>
    have hlen : ((start.drop tag.length).takeWhile isAlnum).length ≠ 13 := fun hlen =>
      h _ ((followedById_iff url tag _).mpr ⟨start, hs, rfl, hlen⟩)
    simp only [ykOriginLoop, hs, hlen, ne_eq, not_false_eq_true, if_true]

theorem ykOriginLoop_none (h : ∀ tag ∈ tags, ∀ id, ¬ FollowedById url tag id) :
    ykOriginLoop url origin tags = (-1, origin) := by
  induction tags with
  | nil => rfl
  | cons tag tags ih =>
    obtain ⟨hno, hrest⟩ := List.forall_mem_cons.mp h
    rw [ykOriginLoop_skip origin hno]
    exact ih hrest

theorem ykOriginLoop_first {tags₁ tags₂ : List Bytes} (hbefore : ∀ t ∈ tags₁, ∀ id, ¬ FollowedById url t id)
    (h : FollowedById url tag id) : ykOriginLoop url origin (tags₁ ++ tag :: tags₂) =
      (0, origin.putAll 0 (ykOriginUrl id ++ [0])) := by
  induction tags₁ with
  | nil => exact ykOriginLoop_found origin h
  | cons t tags₁ ih =>
    obtain ⟨hno, hrest⟩ := List.forall_mem_cons.mp hbefore
    rw [List.cons_append, ykOriginLoop_skip origin hno]
    exact ih hrest

theorem ykOriginLoop_eq_zero :
    (ykOriginLoop url origin tags).1 = 0 ↔ ∃ tag ∈ tags, ∃ id, FollowedById url tag id := by
  induction tags with
  | nil => simp [ykOriginLoop]
  | cons tag tags ih =>
    by_cases h : ∃ id, FollowedById url tag id
    · obtain ⟨id, hid⟩ := h
      rw [ykOriginLoop_found origin hid]
      exact ⟨fun _ => ⟨tag, by simp, id, hid⟩, fun _ => rfl⟩
    · rw [ykOriginLoop_skip origin (not_exists.mp h), ih]
      simp [h]

end Loop

/-- What the rest of the client makes of the origin url `o` of the video `id`. -/
structure Canonical (o id : Bytes) : Prop where
  fixed : ∀ origin, (scYkGenOriginUrlInto o origin).1 = 0 ∧ (scYkGenOriginUrlInto o origin).2.Holds o
  isYk : scUrlIsYk o = true
  tradition : ykIsTraditionUrl o = true
  name : ∀ behind, getYkVideoName (o ++ 0 :: behind) = some (1, id, [])
  playlist : ∀ behind rand, ykUrlToPlaylist (o ++ 0 :: behind) rand = some (some
    (bytes "v.youku.com/player/getPlayList/VideoIDS/" ++ id ++
      bytes "/timezone/+08/version/5/source/video?password=&n=3&ran=" ++ decimal (rand % 10000) ++
      bytes "&ctype=10&ev=1"))

variable {id : Bytes}

theorem ykOriginUrl_followed (hlen : id.length = 13) (hid : ∀ c ∈ id, isAlnum c = true) :
    FollowedById (ykOriginUrl id) (bytes "v_show/id_") id := by
  have heq : ykOriginUrl id = bytes "v.youku.com/" ++ (bytes "v_show/id_" ++ (id ++ bytes ".html")) := by
    rw [ykOriginUrl, ← List.append_assoc (bytes "v.youku.com/")]
    rfl
  have hs : strstr (ykOriginUrl id) (bytes "v_show/id_") = some (bytes "v_show/id_" ++ (id ++ bytes ".html")) := by
    rw [heq]
    exact strstr_unbordered (by decide) (by decide)
  refine (followedById_iff _ _ _).mpr ⟨_, hs, ?_, hlen⟩
  rw [List.drop_left]
  apply takeWhile_run hid
  intro c hc
  obtain rfl : ch '.' = c := Option.some.inj hc
  rfl

theorem isAlnum_ne {c d : UInt8} (h : isAlnum c = true) (hd : isAlnum d = false) : c ≠ d := by
  rintro rfl
  rw [h] at hd
  cases hd

theorem ykOriginUrl_noNul (hid : ∀ c ∈ id, isAlnum c = true) : 0 ∉ ykOriginUrl id := by
  have h0 : 0 ∉ id := fun h => isAlnum_ne (hid 0 h) (by decide) rfl
  simp only [ykOriginUrl, List.mem_append, not_or]
  exact ⟨by decide, h0, by decide⟩

theorem cstr_terminated {s : Bytes} (h : 0 ∉ s) (behind : Bytes) : cstr (s ++ 0 :: behind) = s :=
  takeWhile_run (fun c hc => by simpa using fun h0 : c = 0 => h (h0 ▸ hc)) (by simp)

theorem ykOriginUrl_name (hlen : id.length = 13) (hid : ∀ c ∈ id, isAlnum c = true) (behind : Bytes) :
    getYkVideoName (ykOriginUrl id ++ 0 :: behind) = some (1, id, []) := by
  have hfind : find (bytes "v.youku.com/v_show/id_") (ykOriginUrl id ++ 0 :: behind) =
      some (some (ykOriginUrl id ++ 0 :: behind)) := by
    refine find_prefix ?_ (by simp)
    rw [ykOriginUrl, List.append_assoc]
    exact List.prefix_append _ _
  have hadv : advance YK_URL_PRE_LEN (ykOriginUrl id ++ 0 :: behind) =
      some (id ++ ch '.' :: (bytes "html" ++ 0 :: behind)) := by
    rw [ykOriginUrl, List.append_assoc, advance_append (by decide), List.append_assoc]
    rfl
  have hcopy : copyWhile (· ≠ ch '.') YK_MAX_NAME_LEN (id ++ ch '.' :: (bytes "html" ++ 0 :: behind)) =
      some (id, ch '.' :: (bytes "html" ++ 0 :: behind)) := by
    refine copyWhile_append (fun c hc => ?_) (by rw [hlen]; decide) (by decide)
    simpa using isAlnum_ne (hid c hc) (by decide)
  have hstrlen : YK_URL_PRE_LEN + id.length + 5 = (cstr (ykOriginUrl id ++ 0 :: behind)).length := by
    rw [cstr_terminated (ykOriginUrl_noNul hid), ykOriginUrl, List.length_append, List.length_append]
    rw [show (bytes "v.youku.com/v_show/id_").length = YK_URL_PRE_LEN by decide,
      show (bytes ".html").length = 5 by decide]
    omega
  unfold getYkVideoName
  rw [hfind]
  simp only [Option.bind_eq_bind, Option.bind_some, hadv, hcopy, hlen]
  rw [← hstrlen, hlen]
  rfl

theorem requestPlaylist_eq (videoId : Bytes) (ran : ℕ) : requestPlaylist videoId none ran =
    bytes "v.youku.com/player/getPlayList/VideoIDS/" ++ videoId ++
      bytes "/timezone/+08/version/5/source/video?password=&n=3&ran=" ++ decimal ran ++ bytes "&ctype=10&ev=1" := by
  have hhead : bytes "v.youku.com/player/getPlayList/VideoIDS/" =
      bytes "v.youku.com" ++ (bytes "/player/getPlayList" ++ bytes "/VideoIDS/") := by decide
  have hmid : bytes "/timezone/+08/version/5/source/video?password=&n=3&ran=" =
      bytes "/timezone/" ++ (bytes "+08" ++ (bytes "/version/" ++ (bytes "5" ++ (bytes "/source/" ++
      (bytes "video" ++ (bytes "?password=" ++ (bytes "&n=" ++ (decimal 3 ++ bytes "&ran=")))))))) := by
    decide +kernel
  have htail : bytes "&ctype=10&ev=1" = bytes "&ctype=" ++ (bytes "10" ++ (bytes "&ev=" ++ decimal 1)) := by
    decide +kernel
  unfold requestPlaylist
  simp only [hhead, hmid, htail, List.append_assoc, List.nil_append]

theorem ykOriginUrl_playlist (hlen : id.length = 13) (hid : ∀ c ∈ id, isAlnum c = true) (behind : Bytes)
    (rand : ℕ) : ykUrlToPlaylist (ykOriginUrl id ++ 0 :: behind) rand = some (some
      (bytes "v.youku.com/player/getPlayList/VideoIDS/" ++ id ++
        bytes "/timezone/+08/version/5/source/video?password=&n=3&ran=" ++ decimal (rand % 10000) ++
        bytes "&ctype=10&ev=1")) := by
  have hident : identifyYkVideoUrl (ykOriginUrl id ++ 0 :: behind) = some true := by
    have hfind : find (bytes "v.youku.com/v_show") (ykOriginUrl id ++ 0 :: behind) =
        some (some (ykOriginUrl id ++ 0 :: behind)) := by
      refine find_prefix ?_ (by simp)
      rw [ykOriginUrl, List.append_assoc]
      exact (by decide : bytes "v.youku.com/v_show" <+: bytes "v.youku.com/v_show/id_").trans (List.prefix_append _ _)
    simp [identifyYkVideoUrl, hfind]
  have hcstr : cstr id = id := List.takeWhile_eq_self_iff.mpr fun c hc => by
    simpa using isAlnum_ne (hid c hc) (by decide)
  unfold ykUrlToPlaylist
  rw [hident, ykOriginUrl_name hlen hid]
  simp only [Option.bind_eq_bind, Option.bind_some, hcstr, Bool.not_true, Bool.false_eq_true, if_false,
    OfNat.one_ne_ofNat, requestPlaylist_eq, Option.pure_def]

theorem ykOriginUrl_canonical (hlen : id.length = 13) (hid : ∀ c ∈ id, isAlnum c = true) :
    Canonical (ykOriginUrl id) id where
  fixed origin := by
    have htags : ykOriginTags = bytes "v_show/id_" :: ykOriginTags.tail := rfl
    rw [scYkGenOriginUrlInto, htags, ykOriginLoop_found origin (ykOriginUrl_followed hlen hid)]
    refine ⟨rfl, ?_⟩
    dsimp only
    exact putAll_holds origin (ykOriginUrl id)
  isYk := by
    have hyouku : bytes "youku" <:+: bytes "v.youku.com/v_show/id_" := by decide
    rw [scUrlIsYk, strstr_isSome, ykOriginUrl]
    exact hyouku.trans (List.prefix_append _ _).isInfix
  tradition := by
    have hhost : strstr (ykOriginUrl id) (bytes "v.youku.com") = some (ykOriginUrl id) := by
      have hpre : bytes "v.youku.com" <+: ykOriginUrl id := by
        rw [ykOriginUrl]
        exact (by decide : bytes "v.youku.com" <+: bytes "v.youku.com/v_show/id_").trans (List.prefix_append _ _)
      exact strstr_append (p := []) hpre fun k hk => absurd hk (Nat.not_lt_zero k)
    have hid_ : bytes "/id_" <:+: bytes "v.youku.com/v_show/id_" := by decide
    rw [ykIsTraditionUrl, hhost]
    simp only
    rw [strstr_isSome, ykOriginUrl]
    exact hid_.trans (List.prefix_append _ _).isInfix
  name := ykOriginUrl_name hlen hid
  playlist := ykOriginUrl_playlist hlen hid

/-- Youku requests are canonicalised: a request has an origin url exactly when some tag is followed by
an id, the first such tag decides, `origin_url` is otherwise left alone, and the origin url means the
same id to everything that reads it. -/
theorem youku_requests_canonical (url : Bytes) (origin : Buf) :
    ((scYkGenOriginUrlInto url origin).1 = 0 ↔ ∃ tag ∈ ykOriginTags, ∃ id, FollowedById url tag id) ∧
    (∀ tags₁ tag tags₂ id, ykOriginTags = tags₁ ++ tag :: tags₂ →
      (∀ t ∈ tags₁, ∀ id, ¬ FollowedById url t id) → FollowedById url tag id →
      (scYkGenOriginUrlInto url origin).1 = 0 ∧
        (scYkGenOriginUrlInto url origin).2.Holds (bytes "v.youku.com/v_show/id_" ++ (id ++ bytes ".html")) ∧
        Canonical (bytes "v.youku.com/v_show/id_" ++ (id ++ bytes ".html")) id) ∧
    ((scYkGenOriginUrlInto url origin).1 ≠ 0 → scYkGenOriginUrlInto url origin = (-1, origin)) := by
  refine ⟨ykOriginLoop_eq_zero origin, fun tags₁ tag tags₂ id htags hbefore hid => ?_, fun hfail => ?_⟩
  · have hfirst : ykOriginLoop url origin (tags₁ ++ tag :: tags₂) =
        (0, origin.putAll 0 (ykOriginUrl id ++ [0])) :=
      ykOriginLoop_first origin hbefore hid
    rw [← htags] at hfirst
    obtain ⟨-, -, -, -, hlen, halnum, -⟩ := hid
    rw [scYkGenOriginUrlInto, hfirst]
    dsimp only
    exact ⟨rfl, putAll_holds origin (ykOriginUrl id), ykOriginUrl_canonical hlen halnum⟩
  · refine ykOriginLoop_none origin fun tag htag id hid => hfail ?_
    exact (ykOriginLoop_eq_zero origin).mpr ⟨tag, htag, id, hid⟩

example : (scYkGenOriginUrlInto (bytes "v.youku.com/x?a=1&id=XNjgzMjc0MjY4&vid=2") ⟨fun _ => 0, []⟩).1 = 0 := by
  decide +kernel

theorem ykGenOriginUrl_refines (url : Bytes) (origin : Buf) :
    scYkGenOriginUrlInto url origin =
      match scYkGenOriginUrl url with
      | none => (-1, origin)
      | some o => (0, origin.putAll 0 (o ++ [0])) := by
  unfold scYkGenOriginUrlInto scYkGenOriginUrl
  induction ykOriginTags with
  | nil => rfl
  | cons tag tags ih =>
    rw [List.findSome?_cons]
    by_cases h : ∃ id, FollowedById url tag id
    · obtain ⟨id, hid⟩ := h
      rw [ykOriginLoop_found origin hid]
      obtain ⟨start, hs, rfl, hlen⟩ := (followedById_iff url tag id).mp hid
      simp only [hs, hlen, if_true, ykOriginUrl_expand]
    · rw [ykOriginLoop_skip origin (not_exists.mp h), ih]
      cases hs : strstr url tag with
      | none => rfl
      | some start =>
        have hlen : ((start.drop tag.length).takeWhile isAlnum).length ≠ 13 := fun hlen =>
          h ⟨_, (followedById_iff url tag _).mpr ⟨start, hs, rfl, hlen⟩⟩
        simp only [hlen, if_false]

end Youku

section Sohu

def sohuStart (reqUrl : Bytes) : Option Bytes :=
  match strstr reqUrl (bytes "hot.vrs.sohu.com/ipad") with
  | some start => some start
  | none => strstr reqUrl (bytes "my.tv.sohu.com/ipad/")

structure Playable (o : Bytes) : Prop where
  noQuery : ch '?' ∉ o
  accepted : sohuIsM3u8Url o = true
  fixed : scSohuGenOriginUrl o = some o

/-- `.m3u8`, if the request has it behind its tag, stands before the query. -/
def SuffixBeforeQuery (reqUrl : Bytes) : Prop :=
  ∀ start, sohuStart reqUrl = some start → bytes ".m3u8" <:+: start →
    bytes ".m3u8" <:+: start.takeWhile (· ≠ ch '?')

/-- What the proofs need of the two tags: `sohu.com` stands inside, and neither a query nor the suffix
begins there. -/
structure SohuTag (tag : Bytes) : Prop where
  noQuery : ch '?' ∉ tag
  noSuffix : ∀ k < tag.length, ∃ j < (bytes ".m3u8").length, k + j < tag.length ∧
    tag[k + j]? ≠ (bytes ".m3u8")[j]?
  host : ∃ a b, tag = a ++ (bytes "sohu.com" ++ b) ∧ ¬ bytes "sohu.com" <:+: a

theorem sohuTag_hot : SohuTag (bytes "hot.vrs.sohu.com/ipad") :=
  ⟨by decide, by decide, bytes "hot.vrs.", bytes "/ipad", by decide, by decide⟩

theorem sohuTag_my : SohuTag (bytes "my.tv.sohu.com/ipad/") :=
  ⟨by decide, by decide, bytes "my.tv.", bytes "/ipad/", by decide, by decide⟩

variable {reqUrl o start tag rest : Bytes}

theorem takeWhile_tag (ht : SohuTag tag) (rest : Bytes) :
    (tag ++ rest).takeWhile (· ≠ ch '?') = tag ++ rest.takeWhile (· ≠ ch '?') :=
  List.takeWhile_append_of_pos (ne_of_notMem ht.noQuery)

/-- `sohu_is_m3u8_url` looks for the suffix from `sohu.com` on, which is the same as anywhere. -/
theorem isM3u8Url_tag (ht : SohuTag tag) (rest : Bytes) :
    sohuIsM3u8Url (tag ++ rest) = true ↔ bytes ".m3u8" <:+: tag ++ rest := by
  obtain ⟨a, b, htag, ha⟩ := ht.host
  have hcur : strstr (tag ++ rest) (bytes "sohu.com") = some (bytes "sohu.com" ++ (b ++ rest)) := by
    rw [htag, List.append_assoc, List.append_assoc]
    exact strstr_unbordered (by decide) ha
  have hsuf : bytes "sohu.com" ++ (b ++ rest) <:+ tag ++ rest := ⟨a, by rw [htag]; simp⟩
  rw [sohuIsM3u8Url, hcur]
  simp only
  rw [strstr_isSome]
  refine ⟨fun h => h.trans hsuf.isInfix, fun h => ?_⟩
  have hrest := (infix_append_of_clash ht.noSuffix).mp h
  exact hrest.trans ⟨bytes "sohu.com" ++ b, [], by simp⟩

/-- The tag that the request starts with from `start` on. -/
theorem sohuStart_cases (h : sohuStart reqUrl = some start) :
    start <:+ reqUrl ∧ (bytes "hot.vrs.sohu.com/ipad" <+: start ∨
      (¬ bytes "hot.vrs.sohu.com/ipad" <:+: reqUrl ∧ bytes "my.tv.sohu.com/ipad/" <+: start)) := by
  unfold sohuStart at h
  cases hs : strstr reqUrl (bytes "hot.vrs.sohu.com/ipad") with
  | some s =>
    rw [hs] at h
    obtain rfl := Option.some.inj h
    exact ⟨strstr_suffix hs, .inl (strstr_starts hs)⟩
  | none =>
    rw [hs] at h
    exact ⟨strstr_suffix h, .inr ⟨strstr_eq_none.mp hs, strstr_starts h⟩⟩

theorem sohuStart_tag (h : sohuStart reqUrl = some start) : ∃ tag rest, SohuTag tag ∧ start = tag ++ rest := by
  obtain ⟨-, ⟨rest, rfl⟩ | ⟨-, rest, rfl⟩⟩ := sohuStart_cases h
  · exact ⟨_, rest, sohuTag_hot, rfl⟩
  · exact ⟨_, rest, sohuTag_my, rfl⟩

/-- The origin url is the request from its tag to its query. -/
theorem sohuGenOriginUrl_iff : scSohuGenOriginUrl reqUrl = some o ↔
    ∃ start, sohuStart reqUrl = some start ∧ bytes ".m3u8" <:+: start ∧ o = start.takeWhile (· ≠ ch '?') := by
  have hcopy {tag : Bytes} (ht : SohuTag tag) {start : Bytes} (hs : tag <+: start) :
      ((if (strstr start (bytes ".m3u8")).isNone then none
        else some (tag, (start.drop tag.length).takeWhile (· ≠ ch '?'))).map fun p => p.1 ++ p.2) = some o ↔
        bytes ".m3u8" <:+: start ∧ o = start.takeWhile (· ≠ ch '?') := by
    obtain ⟨rest, rfl⟩ := hs
    rw [List.drop_left, takeWhile_tag ht]
    by_cases hin : bytes ".m3u8" <:+: tag ++ rest
    · have hsome : (strstr (tag ++ rest) (bytes ".m3u8")).isNone = false := by
        rw [Option.isNone_eq_false_iff]
        exact strstr_isSome.mpr hin
      simp [hsome, hin, eq_comm]
    · have hnone : (strstr (tag ++ rest) (bytes ".m3u8")).isNone = true := by
        rw [Option.isNone_iff_eq_none]
        exact strstr_eq_none.mpr hin
      simp [hnone, hin]
  rw [sohuGenOriginUrl_eq]
  unfold sohuOriginBuf sohuStart
  cases hs : strstr reqUrl (bytes "hot.vrs.sohu.com/ipad") with
  | some start => simpa using hcopy sohuTag_hot (strstr_starts hs)
  | none =>
    cases hs' : strstr reqUrl (bytes "my.tv.sohu.com/ipad/") with
    | some start => simpa using hcopy sohuTag_my (strstr_starts hs')
    | none => simp

/-- A url that begins with its tag, as the request did, starts there. -/
theorem sohuStart_self (h : sohuStart reqUrl = some start) (hpre : o <+: start) (hlen : ∀ tag, SohuTag tag →
    tag <+: start → tag <+: o) : sohuStart o = some o := by
  have hself {t : Bytes} (ht : t <+: o) : strstr o t = some o :=
    strstr_append (p := []) ht fun k hk => absurd hk (Nat.not_lt_zero k)
  obtain ⟨hsuf, hhot | ⟨hno, hmy⟩⟩ := sohuStart_cases h
  · rw [sohuStart, hself (hlen _ sohuTag_hot hhot)]
  · have hnone : strstr o (bytes "hot.vrs.sohu.com/ipad") = none :=
      strstr_eq_none.mpr fun hin => hno (hin.trans (hpre.isInfix.trans hsuf.isInfix))
    rw [sohuStart, hnone]
    exact hself (hlen _ sohuTag_my hmy)

/-- Nothing but the suffix can be lost on the way to the origin url. -/
theorem playable_iff (h : sohuStart reqUrl = some start) (ho : o = start.takeWhile (· ≠ ch '?')) :
    Playable o ↔ bytes ".m3u8" <:+: o := by
  obtain ⟨tag, rest, ht, rfl⟩ := sohuStart_tag h
  have hself : sohuStart o = some o := by
    refine sohuStart_self h (ho ▸ List.takeWhile_prefix _) fun t hst hpre => ?_
    obtain ⟨r, hr⟩ := hpre
    rw [ho, ← hr, takeWhile_tag hst]
    exact List.prefix_append _ _
  have hnoq : ∀ c ∈ o, decide (c ≠ ch '?') = true := by
    rw [ho]
    exact fun c hc => List.mem_takeWhile_imp (p := (· ≠ ch '?')) hc
  have hwhole : o.takeWhile (· ≠ ch '?') = o := List.takeWhile_eq_self_iff.mpr hnoq
  rw [takeWhile_tag ht] at ho
  constructor
  · intro hp
    have := hp.accepted
    rwa [ho, isM3u8Url_tag ht, ← ho] at this
  · intro hin
    refine ⟨fun hq => by simpa using hnoq _ hq, ?_, ?_⟩
    · rw [ho, isM3u8Url_tag ht, ← ho]
      exact hin
    · exact sohuGenOriginUrl_iff.mpr ⟨o, hself, hin, hwhole.symm⟩

/-- Every origin url of the request can be worked with exactly when the suffix, looked for anywhere
behind the tag, stands before the query. -/
theorem sohu_origin_playable_iff (reqUrl : Bytes) :
    (∀ o, scSohuGenOriginUrl reqUrl = some o → Playable o) ↔ SuffixBeforeQuery reqUrl := by
  constructor
  · intro hall start hs hin
    have hgen := sohuGenOriginUrl_iff.mpr ⟨start, hs, hin, rfl⟩
    exact (playable_iff hs rfl).mp (hall _ hgen)
  · intro hbefore o hgen
    obtain ⟨start, hs, hin, ho⟩ := sohuGenOriginUrl_iff.mp hgen
    exact (playable_iff hs ho).mpr (ho ▸ hbefore start hs hin)

/-- The suffix stands in the query: the origin url is not a playlist. -/
theorem sohu_origin_not_playable :
    scSohuGenOriginUrl (bytes "hot.vrs.sohu.com/ipad1?x=.m3u8") = some (bytes "hot.vrs.sohu.com/ipad1") ∧
    ¬ Playable (bytes "hot.vrs.sohu.com/ipad1") := by
  refine ⟨by decide +kernel, fun hp => ?_⟩
  have := hp.accepted
  revert this
  decide +kernel

end Sohu

end HotCache
