import HotCache.Proofs.Buffers

/-! The copies that end at a delimiter chosen by a server. None of the loops looks at the size of its
buffer while it writes; the test that follows, where there is one, keeps the function from going on
but not from having written. -/

namespace HotCache

open CStr Buffer

def urlRest (url : Bytes) : Bytes :=
  if startsWith url HTTP_URL_PREFIX then url.drop HTTP_URL_PRE_LEN else url

def hostPart (url : Bytes) : Bytes := url.takeWhile (· ≠ ch '/')

/-- `host` is kept, and a host that does not fit makes the session return -1. -/
def HostChecked (session : Option Bytes × Buf) (part : Bytes) : Prop :=
  session.2.Inside MAX_HOST_NAME_LEN ∧ (MAX_HOST_NAME_LEN ≤ part.length → session.1 = none)

section Host

variable {b : Buf} {s : Bytes} {n : ℕ}

theorem zeroed_inside (content : ℤ → UInt8) (n : ℕ) :
    ((⟨content, []⟩ : Buf).putAll 0 (List.replicate n 0)).Inside n :=
  Buf.Inside.putAll (fun _ hi => absurd hi List.not_mem_nil) le_rfl (by simp)

theorem zeroed_putAll_inside (content : ℤ → UInt8) (s : Bytes) (n : ℕ) :
    (((⟨content, []⟩ : Buf).putAll 0 (List.replicate n 0)).putAll 0 s).Inside n ↔ s.length ≤ n := by
  constructor
  · intro h
    by_contra hlong
    have hout := h n (mem_putAll_written.mpr (.inr ⟨by omega, by omega⟩))
    omega
  · intro h
    exact (zeroed_inside content n).putAll le_rfl (by omega)

theorem hostPart_length_eq_iff (url : Bytes) : (hostPart url).length = url.length ↔ ch '/' ∉ url := by
  constructor
  · intro hlen hslash
    have hself : hostPart url = url := (List.takeWhile_prefix _).eq_of_length hlen
    have hne := List.takeWhile_eq_self_iff.mp hself (ch '/') hslash
    simp at hne
  · intro hslash
    rw [hostPart, List.takeWhile_eq_self_iff.mpr (ne_of_notMem hslash)]

theorem copyLoop_host (host : Buf) (url : Bytes) :
    copyLoop (fun c => c = ch '/') host 0 url = (host.putAll 0 (hostPart url), ((hostPart url).length : ℤ)) := by
  rw [copyLoop_eq, zero_add]
  simp [hostPart]

theorem zeroed_put_inside (content : ℤ → UInt8) (s : Bytes) (n : ℕ) :
    ((((⟨content, []⟩ : Buf).putAll 0 (List.replicate n 0)).putAll 0 s).put s.length 0).Inside n ↔
      s.length < n := by
  have hput : (((⟨content, []⟩ : Buf).putAll 0 (List.replicate n 0)).putAll 0 s).put s.length 0 =
      ((⟨content, []⟩ : Buf).putAll 0 (List.replicate n 0)).putAll 0 (s ++ [0]) := by
    rw [putAll_append, zero_add]
    rfl
  rw [hput, zeroed_putAll_inside, List.length_append, List.length_singleton, Nat.lt_iff_add_one_le]

/-- `yk_http_session` never looks at the size. -/
theorem yk_host_checked_iff (content : ℤ → UInt8) (url : Bytes) :
    HostChecked (ykHttpSessionHost url ⟨content, []⟩) (hostPart (urlRest url)) ↔
      (hostPart (urlRest url)).length < MAX_HOST_NAME_LEN ∨
        (hostPart (urlRest url)).length = MAX_HOST_NAME_LEN ∧ ch '/' ∉ urlRest url := by
  unfold HostChecked ykHttpSessionHost
  rw [← urlRest]
  simp only [copyLoop_host]
  by_cases hslash : ch '/' ∈ urlRest url
  · have hne : ¬ ((hostPart (urlRest url)).length : ℤ) = (urlRest url).length := by
      rw [Nat.cast_inj, hostPart_length_eq_iff]
      exact not_not_intro hslash
    rw [if_neg hne, zeroed_put_inside]
    simp [hslash]
  · have heq : ((hostPart (urlRest url)).length : ℤ) = (urlRest url).length := by
      rw [Nat.cast_inj, hostPart_length_eq_iff]
      exact hslash
    rw [if_pos heq, zeroed_putAll_inside]
    simp [hslash]
    omega

/-- `sohu_http_session` looks at it when the host is written. -/
theorem sohu_host_checked_iff (content : ℤ → UInt8) (url : Bytes) :
    HostChecked (sohuHttpSessionHost url ⟨content, []⟩) (hostPart url) ↔
      (hostPart url).length ≤ MAX_HOST_NAME_LEN := by
  unfold HostChecked sohuHttpSessionHost
  simp only [copyLoop_host]
  split_ifs with hstop
  · rw [zeroed_putAll_inside]
    simp
  · rw [zeroed_put_inside]
    omega

end Host

section Flvpath

/-- The text behind the tag that is chosen, up to its delimiter. -/
def flvpathText (data : Bytes) : Option Bytes :=
  match strstr data flvpathTag1 with
  | some p => some ((p.drop flvpathTag1.length).takeWhile (!flvpathStop1 ·))
  | none => (strstr data flvpathTag2).map fun p => (p.drop flvpathTag2.length).takeWhile (!flvpathStop2 ·)

/-- `real_url` is kept, the result is 0 exactly when there is a text and it is short enough, and the text
is then in `real_url`. -/
def FlvpathChecked (content : ℤ → UInt8) (data : Bytes) : Prop :=
  (ykParseFlvpathInto data ⟨content, []⟩).2.Inside HTTP_URL_MAX_LEN ∧
  ((ykParseFlvpathInto data ⟨content, []⟩).1 = 0 ↔
    ∃ text, flvpathText data = some text ∧ text.length < HTTP_URL_MAX_LEN) ∧
  ∀ text, flvpathText data = some text → text.length < HTTP_URL_MAX_LEN →
    (ykParseFlvpathInto data ⟨content, []⟩).2.Holds text

theorem parseFlvpath_eq (content : ℤ → UInt8) (data : Bytes) :
    ykParseFlvpathInto data ⟨content, []⟩ =
      match flvpathText data with
      | none => (-1, (⟨content, []⟩ : Buf).putAll 0 (List.replicate HTTP_URL_MAX_LEN 0))
      | some text => (if HTTP_URL_MAX_LEN ≤ text.length then -1 else 0,
          ((⟨content, []⟩ : Buf).putAll 0 (List.replicate HTTP_URL_MAX_LEN 0)).putAll 0 text) := by
  unfold ykParseFlvpathInto flvpathText
  cases h1 : strstr data flvpathTag1 with
  | some p => simp only [copyLoop_eq, zero_add, Nat.cast_le]
  | none =>
    cases h2 : strstr data flvpathTag2 with
    | some p => simp only [copyLoop_eq, zero_add, Nat.cast_le, Option.map_some]
    | none => rfl

/-- The zeros of `memset` terminate a text that is shorter than the buffer. -/
theorem zeroed_holds (content : ℤ → UInt8) {s : Bytes} {n : ℕ} (h : s.length < n) :
    (((⟨content, []⟩ : Buf).putAll 0 (List.replicate n 0)).putAll 0 s).Holds s := by
  rw [putAll_holds_iff]
  exact putAll_getElem? (by simp [h])

theorem flvpath_checked_iff (content : ℤ → UInt8) (data : Bytes) :
    FlvpathChecked content data ↔ ∀ text, flvpathText data = some text → text.length ≤ HTTP_URL_MAX_LEN := by
  have hparse := parseFlvpath_eq content data
  unfold FlvpathChecked
  cases htext : flvpathText data with
  | none =>
    rw [htext] at hparse
    simp only [hparse]
    refine iff_of_true ⟨zeroed_inside content HTTP_URL_MAX_LEN, iff_of_false (by decide) ?_, ?_⟩ ?_
    · rintro ⟨text, h, -⟩
      cases h
    · intro text h
      cases h
    · intro text h
      cases h
  | some t =>
    rw [htext] at hparse
    simp only [hparse]
    constructor
    · rintro ⟨hin, -⟩ text h
      obtain rfl := Option.some.inj h
      exact (zeroed_putAll_inside content t HTTP_URL_MAX_LEN).mp hin
    · intro h
      refine ⟨(zeroed_putAll_inside content t HTTP_URL_MAX_LEN).mpr (h t rfl), ?_, ?_⟩
      · split_ifs with hlong
        · refine iff_of_false (by decide) ?_
          rintro ⟨text, heq, hshort⟩
          obtain rfl := Option.some.inj heq
          omega
        · exact iff_of_true rfl ⟨t, rfl, by omega⟩
      · intro text heq hshort
        obtain rfl := Option.some.inj heq
        exact zeroed_holds content hshort

end Flvpath

/-- Each of the three copies is checked exactly when its text fits without the check: a host of fewer
than 32 bytes (or of 32, where the session fails before it writes the terminator), and a location of at
most 600. -/
theorem copies_checked_iff (content : ℤ → UInt8) (url data : Bytes) :
    (HostChecked (ykHttpSessionHost url ⟨content, []⟩) (hostPart (urlRest url)) ∧
      HostChecked (sohuHttpSessionHost url ⟨content, []⟩) (hostPart url) ∧ FlvpathChecked content data) ↔
    ((hostPart (urlRest url)).length < MAX_HOST_NAME_LEN ∨
        (hostPart (urlRest url)).length = MAX_HOST_NAME_LEN ∧ ch '/' ∉ urlRest url) ∧
      (hostPart url).length ≤ MAX_HOST_NAME_LEN ∧
      ∀ text, flvpathText data = some text → text.length ≤ HTTP_URL_MAX_LEN :=
  and_congr (yk_host_checked_iff content url)
    (and_congr (sohu_host_checked_iff content url) (flvpath_checked_iff content data))

/-- A host name of 40 letters, and a location of 700. -/
theorem copies_not_checked :
    ¬ (HostChecked (ykHttpSessionHost (List.replicate 40 (ch 'h') ++ bytes "/v") ⟨fun _ => 0, []⟩)
        (hostPart (urlRest (List.replicate 40 (ch 'h') ++ bytes "/v"))) ∧
      HostChecked (sohuHttpSessionHost (List.replicate 40 (ch 'h') ++ bytes "/v") ⟨fun _ => 0, []⟩)
        (hostPart (List.replicate 40 (ch 'h') ++ bytes "/v")) ∧
      FlvpathChecked (fun _ => 0) (flvpathTag1 ++ List.replicate 700 (ch 'u'))) := by
  rintro ⟨⟨-, hreturns⟩, -⟩
  have hnone := hreturns (by decide +kernel)
  exact absurd hnone (by decide +kernel)

end HotCache
