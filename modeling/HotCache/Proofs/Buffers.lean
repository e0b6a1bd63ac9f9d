import HotCache.Spec.Buffers
import Mathlib.Data.List.TakeWhile

/-! What the url buffers hold after `sc_res_copy_url` and `sohu_parse_file_url_response`, and where
these functions write. The first relies on the buffer for its terminator; the second takes the whole
rest of the response and cuts off four bytes. -/

namespace HotCache

open CStr Buffer

section CopyUrl

theorem copyLoop_eq (stop : UInt8 → Bool) (url : Buf) (p : ℤ) (qs : Bytes) :
    copyLoop stop url p qs =
      (url.putAll p (qs.takeWhile (!stop ·)), p + (qs.takeWhile (!stop ·)).length) := by
  induction qs generalizing url p with
  | nil => simp [copyLoop, Buf.putAll]
  | cons q qs ih =>
    rw [copyLoop]
    cases hq : stop q with
    | true => simp [hq, Buf.putAll]
    | false =>
      simp only [Bool.false_eq_true, if_false, ih, List.takeWhile_cons, hq, Bool.not_false, if_true,
        Buf.putAll, List.length_cons]
      push_cast
      rw [show p + 1 + ((qs.takeWhile (!stop ·)).length : ℤ) = p + ((qs.takeWhile (!stop ·)).length + 1) by ring]

theorem copyUrlInto_eq (url : Buf) (oUrl : Bytes) (len : ℕ) (withPara : Bool) :
    (scResCopyUrlInto url oUrl len withPara).1 = url.putAll 0 (scResCopyUrl oUrl withPara) := by
  unfold scResCopyUrlInto scResCopyUrl
  cases withPara with
  | true =>
    simp only [copyLoop_eq, if_true, Bool.not_false]
    rw [List.takeWhile_eq_self_iff.mpr fun _ _ => rfl]
  | false => simp [copyLoop_eq]

/-- For a url shorter than the buffer the result is a string, whatever the buffer held; for a longer
one nothing is written behind the buffer. -/
def ProducesString (content : ℤ → UInt8) (oUrl : Bytes) (len : ℕ) (withPara : Bool) : Prop :=
  ((scResCopyUrl oUrl withPara).length < len →
    (scResCopyUrlInto ⟨content, []⟩ oUrl len withPara).1.Holds (scResCopyUrl oUrl withPara)) ∧
  (len ≤ (scResCopyUrl oUrl withPara).length →
    ∀ i ∈ (scResCopyUrlInto ⟨content, []⟩ oUrl len withPara).1.written, i < len)

theorem putAll_holds_iff (b : Buf) (s : Bytes) : (b.putAll 0 s).Holds s ↔ b.byte s.length = 0 := by
  have hend : (b.putAll 0 s).byte s.length = b.byte s.length := putAll_outside (by simp)
  constructor
  · rintro ⟨-, hnul⟩
    rwa [hend] at hnul
  · intro hnul
    refine ⟨fun k hk => putAll_getElem? ?_, by rwa [hend]⟩
    rw [List.getElem?_eq_getElem hk]
    rfl

/-- The copy is a string exactly when the buffer already has a terminator behind it, and stays in the
buffer exactly when it fits without one. -/
theorem copy_url_string_iff (content : ℤ → UInt8) (oUrl : Bytes) (len : ℕ) (withPara : Bool) :
    ProducesString content oUrl len withPara ↔ (scResCopyUrl oUrl withPara).length ≤ len ∧
      ((scResCopyUrl oUrl withPara).length < len → content (scResCopyUrl oUrl withPara).length = 0) := by
  unfold ProducesString
  rw [copyUrlInto_eq, putAll_holds_iff]
  generalize scResCopyUrl oUrl withPara = s
  constructor
  · rintro ⟨hnul, hin⟩
    refine ⟨?_, hnul⟩
    by_contra hlong
    have hlast := hin (by omega) len (mem_putAll_written.mpr (.inr (by omega)))
    exact lt_irrefl _ hlast
  · rintro ⟨hfits, hnul⟩
    refine ⟨hnul, fun _ i hi => ?_⟩
    rcases mem_putAll_written.mp hi with hi | hi
    · cases hi
    · omega

/-- A stack buffer full of `x`, as `sc_get_sohu_video_m3u8` may pass it. -/
theorem copy_url_unterminated :
    ¬ ProducesString (fun _ => ch 'x') (bytes "hot.vrs.sohu.com/ipad1.m3u8?plat=0") HTTP_URL_MAX_LEN false := by
  rintro ⟨hstring, -⟩
  have hnul := (hstring (by decide +kernel)).2
  revert hnul
  decide +kernel

end CopyUrl

section Redirect

def crlf : Bytes := bytes "\r\n"

def headerLines (ls : List Bytes) : Bytes := ls.flatMap (· ++ crlf)

/-- A response whose first `Location:` is the header `Location: http://` with `target`. -/
structure RedirectResponse where
  statusLine : Bytes
  before : List Bytes
  target : Bytes
  after : List Bytes
  body : Bytes
  no_nul : ∀ l ∈ statusLine :: target :: body :: (before ++ after), 0 ∉ l
  lines : ∀ l ∈ statusLine :: (before ++ after), ch '\r' ∉ l ∧ ch '\n' ∉ l
  headers : ∀ l ∈ before ++ after, l ≠ []
  first : ¬ bytes "Location:" <:+: headerLines (statusLine :: before)
  target_ne : target ≠ []
  target_line : ch '\r' ∉ target ∧ ch '\n' ∉ target
  target_short : target.length < HTTP_URL_MAX_LEN

variable (r : RedirectResponse)

/-- What follows the target: the end of its line, the other headers, the blank line and the body. -/
def RedirectResponse.rest : Bytes := crlf ++ headerLines r.after ++ crlf ++ r.body

def RedirectResponse.text : Bytes :=
  headerLines (r.statusLine :: r.before) ++ (bytes "Location: http://" ++ (r.target ++ r.rest))

/-- The text behind the first `http://` after the first `Location:`. -/
def locationTail (response : Bytes) : Option Bytes :=
  (strstr response (bytes "Location:")).bind fun p => (strstr p HTTP_URL_PREFIX).map (·.drop HTTP_URL_PRE_LEN)

theorem fileUrlResponseInto_eq (response : Bytes) (b : Buf) :
    sohuParseFileUrlResponseInto response b =
      match locationTail response with
      | none => (-1, b)
      | some p =>
        if HTTP_URL_MAX_LEN ≤ p.length then (-1, b)
        else (0, (b.putAll 0 (p ++ [0])).put (p.length - 4) 0) := by
  unfold sohuParseFileUrlResponseInto locationTail
  cases strstr response (bytes "Location:") with
  | none => rfl
  | some p =>
    simp only [Option.bind_some]
    cases strstr p HTTP_URL_PREFIX with
    | none => rfl
    | some p =>
      simp only [Option.map_some, Nat.cast_le]

theorem locationTail_redirect : locationTail r.text = some (r.target ++ r.rest) := by
  have htag : bytes "Location: http://" = bytes "Location:" ++ (bytes " " ++ HTTP_URL_PREFIX) := by decide
  have htext : r.text = headerLines (r.statusLine :: r.before) ++
      (bytes "Location:" ++ (bytes " " ++ HTTP_URL_PREFIX ++ (r.target ++ r.rest))) := by
    rw [RedirectResponse.text, htag, List.append_assoc]
  have hhttp : strstr (bytes "Location:" ++ (bytes " " ++ HTTP_URL_PREFIX ++ (r.target ++ r.rest))) HTTP_URL_PREFIX =
      some (HTTP_URL_PREFIX ++ (r.target ++ r.rest)) := by
    rw [List.append_assoc, ← List.append_assoc (bytes "Location:")]
    exact strstr_unbordered (by decide) (by decide)
  rw [locationTail, htext, strstr_unbordered (by decide) r.first, Option.bind_some, hhttp]
  rfl

def Extracts (content : ℤ → UInt8) : Prop :=
  (sohuParseFileUrlResponseInto r.text ⟨content, []⟩).1 = 0 ∧
    (sohuParseFileUrlResponseInto r.text ⟨content, []⟩).2.Holds r.target

theorem headerLines_length_eq_zero {ls : List Bytes} : (headerLines ls).length = 0 ↔ ls = [] := by
  cases ls with
  | nil => simp [headerLines]
  | cons l ls => simp [headerLines, crlf, bytes]

theorem rest_length : r.rest.length = (headerLines r.after).length + r.body.length + 4 := by
  have hcrlf : crlf.length = 2 := by decide
  simp only [RedirectResponse.rest, List.length_append, hcrlf]
  omega

/-- The cut is right only when nothing follows the header. -/
theorem extracts_iff (content : ℤ → UInt8) :
    Extracts r content ↔ r.after = [] ∧ r.body = [] ∧ r.target.length + 4 < HTTP_URL_MAX_LEN := by
  have hlen : (r.target ++ r.rest).length = r.target.length + (headerLines r.after).length + r.body.length + 4 := by
    rw [List.length_append, rest_length]
    omega
  unfold Extracts
  rw [fileUrlResponseInto_eq, locationTail_redirect]
  simp only
  rw [← headerLines_length_eq_zero, ← List.length_eq_zero_iff]
  split_ifs with hlong
  · refine ⟨fun h => ?_, fun h => ?_⟩
    · exact absurd h.1 (show (-1 : ℤ) ≠ 0 by decide)
    · omega
  · simp only [true_and]
    constructor
    · rintro ⟨-, hnul⟩
      -- behind the target stands its CR, unless the cut falls there
      have hcut : (r.target.length : ℤ) = (r.target ++ r.rest).length - 4 := by
        by_contra hne
        have hcr : (r.target ++ r.rest ++ [0])[r.target.length]? = some (ch '\r') := by
          rw [List.append_assoc, List.getElem?_append_right le_rfl, Nat.sub_self]
          rfl
        rw [put_other hne, putAll_getElem? hcr] at hnul
        revert hnul
        decide
      omega
    · rintro ⟨hafter, hbody, -⟩
      have hcut : ((r.target ++ r.rest).length : ℤ) - 4 = r.target.length := by omega
      rw [hcut]
      refine ⟨fun k hk => ?_, put_self _ _ _⟩
      rw [put_other (by omega)]
      refine putAll_getElem? ?_
      rw [List.append_assoc, List.getElem?_append_left hk, List.getElem?_eq_getElem hk]
      rfl

/-- The terminator is written four bytes before the end of the tail, which has to be that long. -/
theorem writes_inside_iff (response : Bytes) (content : ℤ → UInt8) :
    (sohuParseFileUrlResponseInto response ⟨content, []⟩).2.Inside HTTP_URL_MAX_LEN ↔
      ∀ p, locationTail response = some p → 4 ≤ p.length := by
  rw [fileUrlResponseInto_eq]
  cases locationTail response with
  | none =>
    refine ⟨fun _ p hp => ?_, fun _ i hi => ?_⟩
    · cases hp
    · cases hi
  | some p =>
    simp only [Option.some.injEq, forall_eq']
    split_ifs with hlong
    · refine ⟨fun _ => ?_, fun _ i hi => ?_⟩
      · exact le_trans (by decide) hlong
      · cases hi
    · constructor
      · intro hin
        have := (hin (p.length - 4) (List.mem_cons_self ..)).1
        omega
      · intro hlen i hi
        rcases List.mem_cons.mp hi with rfl | hi
        · omega
        · rcases mem_putAll_written.mp hi with hi | hi
          · cases hi
          · simp only [List.length_append, List.length_singleton] at hi
            omega

/-- After the copy and the cut the buffer holds the tail without its last four bytes; a shorter tail
stays whole. -/
theorem cut_holds (b : Buf) (p : Bytes) :
    ((b.putAll 0 (p ++ [0])).put (p.length - 4) 0).Holds (if p.length < 4 then p else p.take (p.length - 4)) := by
  have hcopy : ∀ k : ℕ, k < p.length → (k : ℤ) ≠ p.length - 4 → ∀ x, p[k]? = some x →
      ((b.putAll 0 (p ++ [0])).put (p.length - 4) 0).byte k = x := by
    intro k hk hne x hx
    rw [put_other hne]
    exact putAll_getElem? (by rw [List.getElem?_append_left hk, hx])
  split_ifs with hshort
  · refine ⟨fun k hk => hcopy k hk (by omega) _ (List.getElem?_eq_getElem hk), ?_⟩
    rw [put_other (by omega)]
    exact putAll_getElem? (by rw [List.getElem?_append_right le_rfl, Nat.sub_self]; rfl)
  · have hlen : (p.take (p.length - 4)).length = p.length - 4 := by simp
    refine ⟨fun k hk => ?_, ?_⟩
    · rw [hlen] at hk
      refine hcopy k (by omega) (by omega) _ ?_
      rw [List.getElem?_eq_getElem (by omega)]
      simp
    · rw [hlen, show ((p.length - 4 : ℕ) : ℤ) = p.length - 4 by omega]
      exact put_self _ _ _

/-- The client's view of the function, which has the url as a value, agrees with its buffer. -/
theorem fileUrlResponse_refines (response : Bytes) (b : Buf) :
    match sohuParseFileUrlResponse response with
    | none => sohuParseFileUrlResponseInto response b = (-1, b)
    | some realUrl => (sohuParseFileUrlResponseInto response b).1 = 0 ∧
        (sohuParseFileUrlResponseInto response b).2.Holds realUrl := by
  rw [fileUrlResponseInto_eq]
  unfold sohuParseFileUrlResponse locationTail
  cases strstr response (bytes "Location:") with
  | none => rfl
  | some p =>
    simp only [Option.bind_some]
    cases strstr p HTTP_URL_PREFIX with
    | none => rfl
    | some p =>
      simp only [Option.map_some]
      generalize p.drop HTTP_URL_PRE_LEN = q
      by_cases hlong : HTTP_URL_MAX_LEN ≤ q.length
      · simp only [hlong, if_true]
      · simp only [hlong, if_false]
        exact ⟨trivial, cut_holds b q⟩

/-- For every redirect, the target is extracted exactly when its header ends the response and leaves
room for the four bytes that are cut; and for every response, the function stays in `real_url`
exactly when the tail that it copies, if there is one, has four bytes to cut. -/
theorem redirect_extraction_exact (response : Bytes) (content : ℤ → UInt8) :
    (Extracts r content ↔ r.after = [] ∧ r.body = [] ∧ r.target.length + 4 < HTTP_URL_MAX_LEN) ∧
    ((sohuParseFileUrlResponseInto response ⟨content, []⟩).2.Inside HTTP_URL_MAX_LEN ↔
      ∀ p, locationTail response = some p → 4 ≤ p.length) :=
  ⟨extracts_iff r content, writes_inside_iff response content⟩

def followedByHeader : RedirectResponse where
  statusLine := bytes "HTTP/1.1 301 Moved"
  before := []
  target := bytes "1.2.3.4/a.mp4"
  after := [bytes "Content-Length: 0"]
  body := []
  no_nul := by decide
  lines := by decide
  headers := by decide
  first := by decide
  target_ne := by decide
  target_line := by decide
  target_short := by decide

/-- The header that follows ends up in `real_url`; and a response that breaks off after one byte of
the target gets its terminator three bytes before the buffer. -/
theorem redirect_extraction_broken :
    ¬ Extracts followedByHeader (fun _ => 0) ∧
    ¬ (sohuParseFileUrlResponseInto (bytes "HTTP/1.1 301 Moved\r\nLocation: http://1") ⟨fun _ => 0, []⟩).2.Inside
      HTTP_URL_MAX_LEN := by
  refine ⟨fun h => ?_, fun h => ?_⟩
  · have hnul := h.2.2
    revert hnul
    decide +kernel
  · have hin := h (-3) (by decide +kernel)
    omega

end Redirect

end HotCache
