import HotCache.Spec.Datagram
import HotCache.Spec.Service

/-! How long the strings are that a datagram makes the handlers work on. `sc_snooping_serve` tests
`url_len` and the handlers go by the terminator, so what counts is whether `url_data` has one. -/

namespace HotCache

open CStr

theorem serve_step [Layout] (w : World) (dgram beyond : Bytes) (parseAns : ParseAnswer) (downAns : Answer) :
    scSnoopingServe w dgram beyond parseAns downAns = w ∨
    ServeStep w (scSnoopingServe w dgram beyond parseAns downAns) := by
  unfold scSnoopingServe
  split
  · exact .inr (.request _ _ (.parse w _ parseAns))
  · exact .inr (.request _ _ (.down w _ downAns))
  · exact .inl rfl

theorem ykGenOriginUrl_eq (url : Bytes) : scYkGenOriginUrl url =
    (ykOriginBuf url).map fun buf => bytes "v.youku.com/v_show/id_" ++ (buf ++ bytes ".html") := by
  unfold scYkGenOriginUrl ykOriginBuf
  rw [List.map_findSome?]
  congr 1
  funext tag
  rw [Function.comp_apply]
  cases strstr url tag with
  | none => rfl
  | some start =>
    dsimp only
    split_ifs
    · rfl
    · rfl

theorem sohuGenOriginUrl_eq (url : Bytes) :
    scSohuGenOriginUrl url = (sohuOriginBuf url).map fun p => p.1 ++ p.2 := by
  unfold scSohuGenOriginUrl sohuOriginBuf
  have hpat1 (x : Bytes) : expand (bytes "hot.vrs.sohu.com/ipad%s") [x] =
      bytes "hot.vrs.sohu.com/ipad" ++ x := by
    rw [show bytes "hot.vrs.sohu.com/ipad%s" = bytes "hot.vrs.sohu.com/ipad" ++ (bytes "%s" ++ []) from rfl,
      expand_append (by decide), expand_s, show expand [] [] = [] from rfl, List.append_nil]
  have hpat2 (x : Bytes) : expand (bytes "my.tv.sohu.com/ipad/%s") [x] =
      bytes "my.tv.sohu.com/ipad/" ++ x := by
    rw [show bytes "my.tv.sohu.com/ipad/%s" = bytes "my.tv.sohu.com/ipad/" ++ (bytes "%s" ++ []) from rfl,
      expand_append (by decide), expand_s, show expand [] [] = [] from rfl, List.append_nil]
  simp only [hpat1, hpat2]
  cases strstr url (bytes "hot.vrs.sohu.com/ipad") with
  | some start =>
    dsimp only
    split_ifs
    · rfl
    · rfl
  | none =>
    cases strstr url (bytes "my.tv.sohu.com/ipad/") with
    | some start =>
      dsimp only
      split_ifs
      · rfl
      · rfl
    | none => rfl

theorem ykOriginBuf_length {url buf : Bytes} (h : ykOriginBuf url = some buf) : buf.length = 13 := by
  obtain ⟨tag, -, htag⟩ := List.exists_of_findSome?_eq_some h
  split at htag
  next => cases htag
  next start _ =>
    dsimp only at htag
    split_ifs at htag with hlen
    cases htag
    exact hlen

theorem sohuOriginBuf_length {url tag buf : Bytes} (h : sohuOriginBuf url = some (tag, buf)) :
    tag.length + buf.length ≤ url.length := by
  have hcopy {start tag' : Bytes} (hs : strstr url tag' = some start)
      (hc : (if (strstr start (bytes ".m3u8")).isNone then none
        else some (tag', (start.drop tag'.length).takeWhile (· ≠ ch '?'))) = some (tag, buf)) :
      tag.length + buf.length ≤ url.length := by
    split_ifs at hc
    obtain ⟨rfl, rfl⟩ := Prod.mk.inj (Option.some.inj hc)
    have h1 := (strstr_suffix hs).length_le
    have h2 := (strstr_starts hs).length_le
    have h3 := (List.takeWhile_prefix (· ≠ ch '?') (l := start.drop tag'.length)).length_le
    rw [List.length_drop] at h3
    omega
  unfold sohuOriginBuf at h
  split at h
  next start hs => exact hcopy hs h
  next =>
    split at h
    next start hs => exact hcopy hs h
    next => cases h

theorem sohuOriginBuf_tag {url tag buf : Bytes} (h : sohuOriginBuf url = some (tag, buf)) :
    tag = bytes "hot.vrs.sohu.com/ipad" ∨ tag = bytes "my.tv.sohu.com/ipad/" := by
  unfold sohuOriginBuf at h
  dsimp only at h
  split at h
  · split_ifs at h
    exact .inl (Prod.mk.inj (Option.some.inj h)).1.symm
  · split at h
    · split_ifs at h
      exact .inr (Prod.mk.inj (Option.some.inj h)).1.symm
    · cases h

/-- A string ends within its first `k` bytes exactly when one of them is the terminator. -/
theorem cstr_length_lt_iff (s : Bytes) (k : ℕ) : (0 ∈ s ∧ (cstr s).length < k) ↔ 0 ∈ s.take k := by
  induction s generalizing k with
  | nil => simp [cstr]
  | cons a s ih =>
    cases k with
    | zero => simp
    | succ k =>
      rw [List.take_succ_cons, List.mem_cons, List.mem_cons, ← ih k]
      by_cases ha : a = 0
      · simp [cstr, ha]
      · simp [cstr, ha, Ne.symm ha]

theorem cstr_append {s : Bytes} (h : 0 ∈ s) (t : Bytes) : cstr (s ++ t) = cstr s := by
  induction s with
  | nil => simp at h
  | cons a s ih =>
    by_cases ha : a = 0
    · simp [cstr, ha]
    · have hs : 0 ∈ s := by simpa [Ne.symm ha] using h
      simpa [cstr, ha] using ih hs

/-- The strings that a handler works on for a request at `urlData` stay in their buffers. -/
structure LengthDiscipline (urlData beyond : Bytes) : Prop where
  ends : 0 ∈ urlData
  short : (reqUrl urlData beyond).length < HTTP_URL_MAX_LEN
  ykBuf : ∀ buf, ykOriginBuf (reqUrl urlData beyond) = some buf → buf.length < 16
  yk : ∀ origin, scYkGenOriginUrl (reqUrl urlData beyond) = some origin →
    origin.length < HTTP_URL_MAX_LEN
  sohuBuf : ∀ p, sohuOriginBuf (reqUrl urlData beyond) = some p → p.2.length < HTTP_URL_MAX_LEN
  sohu : ∀ origin, scSohuGenOriginUrl (reqUrl urlData beyond) = some origin →
    origin.length < HTTP_URL_MAX_LEN

theorem lengthDiscipline_iff (urlData beyond : Bytes) :
    LengthDiscipline urlData beyond ↔ 0 ∈ urlData.take HTTP_SP_URL_LEN_MAX := by
  rw [← cstr_length_lt_iff]
  constructor
  · intro h
    have hshort := h.short
    rw [reqUrl, cstr_append h.ends] at hshort
    exact ⟨h.ends, hshort⟩
  · rintro ⟨hends, hlen⟩
    have hurl : (reqUrl urlData beyond).length < 600 := by rwa [reqUrl, cstr_append hends]
    refine ⟨hends, hurl, fun buf hb => ?_, fun origin ho => ?_, fun p hp => ?_, fun origin ho => ?_⟩
    · rw [ykOriginBuf_length hb]
      decide
    · rw [ykGenOriginUrl_eq, Option.map_eq_some_iff] at ho
      obtain ⟨buf, hb, rfl⟩ := ho
      rw [List.length_append, List.length_append, ykOriginBuf_length hb]
      decide
    · have := sohuOriginBuf_length hp
      simp only [HTTP_URL_MAX_LEN]
      omega
    · rw [sohuGenOriginUrl_eq, Option.map_eq_some_iff] at ho
      obtain ⟨p, hp, rfl⟩ := ho
      have := sohuOriginBuf_length hp
      rw [List.length_append]
      simp only [HTTP_URL_MAX_LEN]
      omega

/-- An accepted datagram fills `url_data`, so the handlers see its own bytes there. -/
theorem check_urlData {dgram urlData : Bytes} {action : Sp2cAction}
    (h : scSnoopingCheck dgram = some (action, urlData)) :
    urlData.take HTTP_SP_URL_LEN_MAX = (dgram.drop SP2C_URL_DATA_OFFSET).take HTTP_SP_URL_LEN_MAX := by
  have hdata : SP2C_REQ_PKT_SIZE ≤ (dgram.take SC_SNOOPING_SND_RCV_BUF_LEN).length ∧
      urlData = (recvBuf dgram).drop SP2C_URL_DATA_OFFSET := by
    unfold scSnoopingCheck at h
    dsimp only at h
    split_ifs at h with hlen
    · exact ⟨not_lt.mp hlen, by simpa using (Prod.mk.inj (Option.some.inj h)).2.symm⟩
    · exact ⟨not_lt.mp hlen, by simpa using (Prod.mk.inj (Option.some.inj h)).2.symm⟩
  obtain ⟨hlen, rfl⟩ := hdata
  have h10 : 10 ≤ (dgram.take SC_SNOOPING_SND_RCV_BUF_LEN).length := le_trans (by decide) hlen
  have h600 : 600 ≤ ((dgram.take SC_SNOOPING_SND_RCV_BUF_LEN).drop 10).length := by
    rw [List.length_drop]
    simp only [SP2C_REQ_PKT_SIZE] at hlen
    omega
  simp only [recvBuf, SP2C_URL_DATA_OFFSET, HTTP_SP_URL_LEN_MAX]
  rw [List.drop_append_of_le_length h10, List.take_append_of_le_length h600, List.drop_take,
    List.take_take]
  rfl

/-- For every datagram that `sc_snooping_serve` passes on, and whatever lies in memory after the
receive buffer, the strings of the handlers stay in their buffers exactly when one of the 600
bytes of `url_data` is NUL. -/
theorem length_discipline_iff (dgram beyond urlData : Bytes) (action : Sp2cAction)
    (h : scSnoopingCheck dgram = some (action, urlData)) :
    LengthDiscipline urlData beyond ↔
      0 ∈ (dgram.drop SP2C_URL_DATA_OFFSET).take HTTP_SP_URL_LEN_MAX := by
  rw [lengthDiscipline_iff, check_urlData h]

def datagram (a : UInt8) (urlData : Bytes) : Bytes := [0, 0, 0, 0, a, 0, 0, 0, 0, 0] ++ urlData

theorem length_discipline_down :
    LengthDiscipline (bytes "f.youku.com/a.flv" ++ List.replicate 997 0) (bytes "more") := by
  refine (length_discipline_iff (datagram HTTP_SP2C_ACTION_DOWN
    (bytes "f.youku.com/a.flv" ++ List.replicate 585 0)) _ _ .down ?_).mpr ?_
  · decide +kernel
  · decide +kernel

/-- `url_data` of a PARSE request for a Sohu playlist, without a terminator in the whole receive
buffer. -/
def unterminated : Bytes := bytes "hot.vrs.sohu.com/ipad.m3u8" ++ List.replicate 988 (ch 'a')

/-- The url goes on after the receive buffer, and its copy does not fit `buf`. -/
theorem length_discipline_broken :
    scSnoopingCheck (datagram HTTP_SP2C_ACTION_PARSE unterminated) = some (.parse, unterminated) ∧
    ¬ LengthDiscipline unterminated [0] ∧
    (∃ p, sohuOriginBuf (reqUrl unterminated [0]) = some p ∧ HTTP_URL_MAX_LEN ≤ p.2.length) := by
  refine ⟨by decide +kernel, ?_, ?_⟩
  · rw [lengthDiscipline_iff]
    decide +kernel
  · refine ⟨(bytes "hot.vrs.sohu.com/ipad", bytes ".m3u8" ++ List.replicate 988 (ch 'a')), ?_⟩
    decide +kernel

/-- `sc_res_copy_url` changes no url that a PARSE request generates. -/
theorem genOriginUrl_copy {reqUrl originUrl : Bytes} (h : scResGenOriginUrl reqUrl = some originUrl) :
    scResCopyUrl originUrl true = originUrl := by
  have hno : startsWith originUrl HTTP_URL_PREFIX = false := by
    unfold scResGenOriginUrl at h
    split_ifs at h
    · rw [ykGenOriginUrl_eq, Option.map_eq_some_iff] at h
      obtain ⟨buf, -, rfl⟩ := h
      rfl
    · rw [sohuGenOriginUrl_eq, Option.map_eq_some_iff] at h
      obtain ⟨⟨tag, buf⟩, hp, rfl⟩ := h
      rcases sohuOriginBuf_tag hp with rfl | rfl
      · rfl
      · rfl
  simp [scResCopyUrl, hno]

end HotCache
