import HotCache.Spec.UrlCode

/-! `url_encode` and `url_decode` against the encoding they are about. The decoder takes the letters of
an escape for digits, and the encoder looks for room only where it writes an escape, so each of the
two keeps its promise on a class of inputs that is stated here. -/

namespace HotCache

open CStr Buffer

def Escaped (c : UInt8) : Prop := isAlnum c = false ∧ c ≠ ch ' '

instance (c : UInt8) : Decidable (Escaped c) := inferInstanceAs (Decidable (_ ∧ _))

def encodeByte (c : UInt8) : Bytes := if Escaped c then escape c else if c = ch ' ' then [ch '+'] else [c]

def encoding (str : Bytes) : Bytes := str.flatMap encodeByte

@[simp] theorem encoding_nil : encoding [] = [] := rfl

@[simp] theorem encoding_cons (c : UInt8) (str : Bytes) : encoding (c :: str) = encodeByte c ++ encoding str := rfl

theorem encodeByte_escaped {c : UInt8} (hc : Escaped c) : encodeByte c = escape c := if_pos hc

theorem encodeByte_length_plain {c : UInt8} (hc : ¬ Escaped c) : (encodeByte c).length = 1 := by
  unfold encodeByte
  split_ifs <;> rfl

theorem encodeByte_length_escaped {c : UInt8} (hc : Escaped c) : (encodeByte c).length = 3 := by
  rw [encodeByte_escaped hc]
  rfl

theorem encodeByte_length_pos (c : UInt8) : 0 < (encodeByte c).length := by
  by_cases hc : Escaped c
  · rw [encodeByte_length_escaped hc]; decide
  · rw [encodeByte_length_plain hc]; decide

theorem isAlnum_of_plain {c : UInt8} (hc : ¬ Escaped c) (hspace : c ≠ ch ' ') : isAlnum c = true := by
  by_contra halnum
  exact hc ⟨by simpa using halnum, hspace⟩

theorem encoding_length_le (str : Bytes) : (encoding str).length ≤ 3 * str.length := by
  induction str with
  | nil => simp
  | cons c str ih =>
    have hc : (encodeByte c).length ≤ 3 := by
      by_cases hc : Escaped c
      · rw [encodeByte_length_escaped hc]
      · rw [encodeByte_length_plain hc]; decide
    simp only [encoding_cons, List.length_append, List.length_cons]
    omega

section Encode

variable {resultSize j : ℕ} {c : UInt8} {str : Bytes} {result : Buf}

theorem urlEncodeLoop_plain (hc : ¬ Escaped c) (hj : j < resultSize) :
    urlEncodeLoop resultSize (c :: str) j result =
      urlEncodeLoop resultSize str (j + 1) (result.putAll j (encodeByte c)) := by
  rw [urlEncodeLoop, if_pos hj, encodeByte, if_neg hc]
  by_cases hspace : c = ch ' '
  · rw [if_neg (by rw [hspace]; decide), if_pos hspace, if_pos hspace]
    rfl
  · rw [if_pos (isAlnum_of_plain hc hspace), if_neg hspace]
    rfl

theorem urlEncodeLoop_escaped (hc : Escaped c) (hj : j + 3 < resultSize) :
    urlEncodeLoop resultSize (c :: str) j result =
      urlEncodeLoop resultSize str (j + 3) (result.putAll j (encodeByte c ++ [0])) := by
  rw [urlEncodeLoop, if_pos (by omega), if_neg (by simp [hc.1]), if_neg hc.2, if_pos hj,
    encodeByte_escaped hc]

theorem urlEncodeLoop_no_room (hc : Escaped c) (hj : ¬ j + 3 < resultSize) (hin : j < resultSize) :
    urlEncodeLoop resultSize (c :: str) j result = (none, result) := by
  rw [urlEncodeLoop, if_pos hin, if_neg (by simp [hc.1]), if_neg hc.2, if_neg hj]

/-- With room for everything the loop writes the complete encoding. -/
theorem urlEncodeLoop_complete (str : Bytes) (result : Buf) (hroom : j + (encoding str).length < resultSize) :
    ∃ r, urlEncodeLoop resultSize str j result = (some (j + (encoding str).length), r) ∧
      r.read (j + (encoding str).length) = result.read j ++ encoding str := by
  induction str generalizing j result with
  | nil => exact ⟨result, rfl, by simp⟩
  | cons c str ih =>
    have hpos := encodeByte_length_pos c
    simp only [encoding_cons, List.length_append] at hroom ⊢
    by_cases hc : Escaped c
    · have hlen := encodeByte_length_escaped hc
      rw [urlEncodeLoop_escaped hc (by omega), hlen, ← Nat.add_assoc]
      obtain ⟨r, hr, hread⟩ := ih (result.putAll j (encodeByte c ++ [0])) (j := j + 3) (by omega)
      refine ⟨r, hr, ?_⟩
      -- the terminator of `sprintf` stands behind what is read
      have hfirst : (result.putAll j (encodeByte c ++ [0])).read (j + 3) = result.read j ++ encodeByte c := by
        rw [putAll_append, read_putAll_before (by rw [hlen]; push_cast; omega), ← hlen, read_putAll]
      rw [hread, hfirst, List.append_assoc]
    · have hlen := encodeByte_length_plain hc
      rw [urlEncodeLoop_plain hc (by omega), hlen, ← Nat.add_assoc]
      obtain ⟨r, hr, hread⟩ := ih (result.putAll j (encodeByte c)) (j := j + 1) (by omega)
      refine ⟨r, hr, ?_⟩
      have hfirst := read_putAll result j (encodeByte c)
      rw [hlen] at hfirst
      rw [hread, hfirst, List.append_assoc]

/-- A plain byte of the string fills the buffer to its last index. -/
def FillsAt (resultSize j : ℕ) (str : Bytes) : Prop :=
  ∃ p c, p ++ [c] <+: str ∧ j + (encoding (p ++ [c])).length = resultSize ∧ ¬ Escaped c

theorem fillsAt_cons : FillsAt resultSize j (c :: str) ↔
    (¬ Escaped c ∧ j + 1 = resultSize) ∨ FillsAt resultSize (j + (encodeByte c).length) str := by
  constructor
  · rintro ⟨p, c', hp, hlen, hplain⟩
    cases p with
    | nil =>
      obtain ⟨rfl, -⟩ := List.cons_prefix_cons.mp hp
      refine .inl ⟨hplain, ?_⟩
      simpa [encodeByte_length_plain hplain] using hlen
    | cons a p =>
      obtain ⟨rfl, hrest⟩ := List.cons_prefix_cons.mp hp
      refine .inr ⟨p, c', hrest, ?_, hplain⟩
      rw [← hlen, List.cons_append, encoding_cons, List.length_append, Nat.add_assoc]
  · rintro (⟨hplain, hlen⟩ | ⟨p, c', hp, hlen, hplain⟩)
    · refine ⟨[], c, by simp, ?_, hplain⟩
      simpa [encodeByte_length_plain hplain] using hlen
    · refine ⟨c :: p, c', by simpa using hp, ?_, hplain⟩
      rw [← hlen, List.cons_append, encoding_cons, List.length_append, Nat.add_assoc]

theorem encoding_length_pos (p : Bytes) (c : UInt8) : 0 < (encoding (p ++ [c])).length := by
  have hpos := encodeByte_length_pos c
  simp only [encoding, List.flatMap_append, List.length_append, List.flatMap_singleton]
  omega

theorem not_fillsAt_of_le (hj : resultSize ≤ j) : ¬ FillsAt resultSize j str := by
  rintro ⟨p, c, -, hlen, -⟩
  have hpos := encoding_length_pos p c
  omega

/-- The loop, started with room left: it writes inside of the buffer, and it stops at its end exactly
when a plain byte fills it; otherwise it fails or has encoded everything. -/
theorem urlEncodeLoop_spec (str : Bytes) (hj : j < resultSize) (hin : result.Inside resultSize) :
    (urlEncodeLoop resultSize str j result).2.Inside resultSize ∧
    (FillsAt resultSize j str → (urlEncodeLoop resultSize str j result).1 = some resultSize) ∧
    (¬ FillsAt resultSize j str → (urlEncodeLoop resultSize str j result).1 = none ∨
      j + (encoding str).length < resultSize ∧
        (urlEncodeLoop resultSize str j result).1 = some (j + (encoding str).length)) := by
  induction str generalizing j result with
  | nil =>
    refine ⟨hin, ?_, fun _ => .inr ⟨by simpa using hj, rfl⟩⟩
    rintro ⟨p, c, hp, -⟩
    simp at hp
  | cons c str ih =>
    rw [fillsAt_cons, encoding_cons, List.length_append, ← Nat.add_assoc]
    by_cases hc : Escaped c
    · simp only [hc, not_true_eq_false, false_and, false_or]
      rw [encodeByte_length_escaped hc]
      by_cases hroom : j + 3 < resultSize
      · rw [urlEncodeLoop_escaped hc hroom]
        refine ih hroom (hin.putAll (by omega) ?_)
        rw [List.length_append, encodeByte_length_escaped hc, List.length_singleton]
        omega
      · rw [urlEncodeLoop_no_room hc hroom hj]
        refine ⟨hin, fun hfills => ?_, fun _ => .inl rfl⟩
        exact absurd hfills (not_fillsAt_of_le (by omega))
    · simp only [hc, not_false_eq_true, true_and]
      rw [encodeByte_length_plain hc, urlEncodeLoop_plain hc hj]
      have hin' : (result.putAll j (encodeByte c)).Inside resultSize := by
        refine hin.putAll (by omega) ?_
        rw [encodeByte_length_plain hc]
        omega
      by_cases hlast : j + 1 = resultSize
      · -- the loop ends here, whatever is left of the string
        have hstop : urlEncodeLoop resultSize str (j + 1) (result.putAll j (encodeByte c)) =
            (some resultSize, result.putAll j (encodeByte c)) := by
          cases str with
          | nil => rw [urlEncodeLoop, hlast]
          | cons c' str => rw [urlEncodeLoop, if_neg (by omega), hlast]
        rw [hstop]
        exact ⟨hin', fun _ => rfl, fun hnot => absurd (.inl hlast) hnot⟩
      · simp only [hlast, false_or]
        exact ih (by omega) hin'

end Encode

/-- `url_encode` stays in its buffer, and returns 0 or the length of the complete encoding. -/
def CompleteOrFails (content : ℤ → UInt8) (str : Bytes) (resultSize : ℕ) : Prop :=
  (urlEncode str ⟨content, []⟩ resultSize).2.Inside resultSize ∧
  ((urlEncode str ⟨content, []⟩ resultSize).1 = 0 ∨
    (urlEncode str ⟨content, []⟩ resultSize).1 = (encoding str).length)

/-- The encoder is safe and complete exactly when no plain byte or space ends at the last byte of the
buffer: there it writes its terminator behind the buffer, and drops the rest of the string. -/
theorem url_encode_complete_iff (content : ℤ → UInt8) (str : Bytes) (resultSize : ℕ) (hstr : str ≠ [])
    (hsize : 1 ≤ resultSize) :
    CompleteOrFails content str resultSize ↔
      ∀ p c, p ++ [c] <+: str → (encoding (p ++ [c])).length = resultSize → Escaped c := by
  have hcond : (∀ p c, p ++ [c] <+: str → (encoding (p ++ [c])).length = resultSize → Escaped c) ↔
      ¬ FillsAt resultSize 0 str := by
    unfold FillsAt
    push Not
    simp
  rw [hcond]
  obtain ⟨hin, hfills, hnot⟩ := urlEncodeLoop_spec str (show 0 < resultSize by omega)
    (show (⟨content, []⟩ : Buf).Inside resultSize from fun i hi => absurd hi List.not_mem_nil)
  unfold CompleteOrFails urlEncode
  rw [if_neg (by simp [hstr]; omega)]
  rcases hloop : urlEncodeLoop resultSize str 0 ⟨content, []⟩ with ⟨o, r⟩
  rw [hloop] at hin hfills hnot
  constructor
  · rintro ⟨hinside, -⟩ hfill
    obtain rfl := hfills hfill
    have hlast := (hinside resultSize (by simp [Buf.put])).2
    exact lt_irrefl _ hlast
  · intro hfill
    rcases hnot hfill with rfl | ⟨hlt, rfl⟩
    · exact ⟨hin, .inl rfl⟩
    · refine ⟨?_, .inr (by simp)⟩
      intro i hi
      rcases List.mem_cons.mp hi with rfl | hi
      · omega
      · exact hin i hi

theorem url_encode_complete_five :
    CompleteOrFails (fun _ => 0) (bytes "a/b") 6 ↔ ∀ p c, p ++ [c] <+: bytes "a/b" →
      (encoding (p ++ [c])).length = 6 → Escaped c :=
  url_encode_complete_iff _ _ 6 (by decide) (by decide)

/-- 40 digits into the 20 bytes of a buffer: 20 is returned, and the terminator is written at 20. -/
theorem url_encode_truncates : ¬ CompleteOrFails (fun _ => 0) (List.replicate 40 (ch '7')) 20 := by
  rintro ⟨-, hret | hret⟩
  · exact absurd hret (by decide +kernel)
  · exact absurd hret (by decide +kernel)

section Decode

variable {resultSize j : ℕ} {c : UInt8} {str : Bytes} {result : Buf}

def decodeByte (c : UInt8) : UInt8 :=
  if Escaped c then (hexDigit (c.toNat / 16) - ch '0') <<< 4 ||| (hexDigit (c.toNat % 16) - ch '0') else c

/-- Both hexadecimal digits of the byte are decimal. -/
def DecimalDigits (c : UInt8) : Prop := c.toNat / 16 < 10 ∧ c.toNat % 16 < 10

instance (c : UInt8) : Decidable (DecimalDigits c) := inferInstanceAs (Decidable (_ ∧ _))

/-- `'0'` is taken off the letters too, which leaves 17 to 22 of them. -/
theorem decodeByte_eq_iff (c : UInt8) : decodeByte c = c ↔ ¬ Escaped c ∨ DecimalDigits c := by
  have hall : ∀ n : Fin 256, decodeByte (UInt8.ofNat n) = UInt8.ofNat n ↔
      ¬ Escaped (UInt8.ofNat n) ∨ DecimalDigits (UInt8.ofNat n) := by
    decide +kernel
  have hc := hall ⟨c.toNat, c.toNat_lt⟩
  simpa using hc

theorem hexDigit_sub_ne {n : ℕ} (hn : n < 16) : hexDigit n - ch '0' ≠ ch '0' := by
  have hall : ∀ n : Fin 16, hexDigit n - ch '0' ≠ ch '0' := by decide +kernel
  exact hall ⟨n, hn⟩

theorem urlDecodeLoop_plus (hj : j < resultSize) :
    urlDecodeLoop resultSize (ch '+' :: str) j result =
      urlDecodeLoop resultSize str (j + 1) (result.put j (ch ' ')) := by
  rcases str with _ | ⟨c1, _ | ⟨c2, str⟩⟩ <;> simp only [urlDecodeLoop, hj, if_true]

theorem urlDecodeLoop_other (hplus : c ≠ ch '+') (hpercent : c ≠ ch '%') (hj : j < resultSize) :
    urlDecodeLoop resultSize (c :: str) j result =
      urlDecodeLoop resultSize str (j + 1) (result.put j c) := by
  rcases str with _ | ⟨c1, _ | ⟨c2, str⟩⟩ <;>
    simp only [urlDecodeLoop, hj, hplus, hpercent, if_true, if_false]

theorem urlDecodeLoop_encodeByte (hj : j < resultSize) :
    urlDecodeLoop resultSize (encodeByte c ++ str) j result =
      urlDecodeLoop resultSize str (j + 1) (result.put j (decodeByte c)) := by
  by_cases hc : Escaped c
  · have hlt := c.toNat_lt
    have hne1 := hexDigit_sub_ne (show c.toNat / 16 < 16 by omega)
    have hne2 := hexDigit_sub_ne (show c.toNat % 16 < 16 by omega)
    rw [encodeByte_escaped hc, decodeByte, if_pos hc]
    simp only [escape, List.cons_append, List.nil_append, urlDecodeLoop]
    rw [if_pos hj, if_neg (by decide), if_pos trivial, if_pos ⟨hne1, hne2⟩]
  · rw [encodeByte, if_neg hc, decodeByte, if_neg hc]
    by_cases hspace : c = ch ' '
    · rw [if_pos hspace, List.singleton_append, urlDecodeLoop_plus hj, hspace]
    · have halnum := isAlnum_of_plain hc hspace
      have hplus : c ≠ ch '+' := by
        rintro rfl
        exact absurd halnum (by decide)
      have hpercent : c ≠ ch '%' := by
        rintro rfl
        exact absurd halnum (by decide)
      rw [if_neg hspace, List.singleton_append, urlDecodeLoop_other hplus hpercent hj]

theorem urlDecodeLoop_encoding (str : Bytes) (result : Buf) (hroom : j + str.length ≤ resultSize) :
    ∃ r, urlDecodeLoop resultSize (encoding str) j result = (j + str.length, r) ∧
      r.read (j + str.length) = result.read j ++ str.map decodeByte := by
  induction str generalizing j result with
  | nil => exact ⟨result, rfl, by simp⟩
  | cons c str ih =>
    rw [List.length_cons] at hroom ⊢
    rw [encoding_cons, urlDecodeLoop_encodeByte (by omega)]
    obtain ⟨r, hr, hread⟩ := ih (result.put j (decodeByte c)) (j := j + 1) (by omega)
    rw [show j + 1 + str.length = j + (str.length + 1) by omega] at hr hread
    refine ⟨r, hr, ?_⟩
    rw [hread, read_put, List.map_cons, List.append_assoc, List.singleton_append]

end Decode

theorem urlEncode_room (content : ℤ → UInt8) {s : Bytes} {n : ℕ} (hs : s ≠ []) (hn : 3 * s.length < n) :
    (urlEncode s ⟨content, []⟩ n).1 = (encoding s).length ∧
      (urlEncode s ⟨content, []⟩ n).2.read (encoding s).length = encoding s := by
  have hle := encoding_length_le s
  obtain ⟨r, hr, hread⟩ := urlEncodeLoop_complete s ⟨content, []⟩
    (show 0 + (encoding s).length < n by omega)
  rw [Nat.zero_add] at hr hread
  unfold urlEncode
  rw [if_neg (by simp [hs]; omega), hr]
  refine ⟨rfl, ?_⟩
  rw [read_congr (c := r) fun k hk => put_other (by omega), hread]
  rfl

/-- The decoder, given what the encoder wrote, returns the length of the string and leaves it in its
buffer. -/
def Undone (content content' : ℤ → UInt8) (s : Bytes) (m n : ℕ) : Prop :=
  let encoded := urlEncode s ⟨content, []⟩ m
  let decoded := urlDecode (encoded.2.read encoded.1) ⟨content', []⟩ n
  decoded.1 = s.length ∧ decoded.2.Holds s

/-- The string comes back exactly when none of its escapes has a letter. -/
theorem url_decode_encode_iff (content content' : ℤ → UInt8) (s : Bytes) (m n : ℕ) (hs : s ≠ [])
    (hm : 3 * s.length < m) (hn : 3 * s.length < n) :
    Undone content content' s m n ↔ ∀ c ∈ s, ¬ Escaped c ∨ DecimalDigits c := by
  obtain ⟨hlen, hread⟩ := urlEncode_room content hs hm
  obtain ⟨r, hr, hdecoded⟩ := urlDecodeLoop_encoding s ⟨content', []⟩
    (show 0 + s.length ≤ n by omega)
  have hencoded : encoding s ≠ [] := by
    cases s with
    | nil => exact absurd rfl hs
    | cons c s =>
      have hpos := encodeByte_length_pos c
      intro h
      rw [encoding_cons, List.append_eq_nil_iff] at h
      rw [h.1] at hpos
      exact absurd hpos (by decide)
  rw [Nat.zero_add] at hr hdecoded
  have hbytes : (r.put s.length 0).read s.length = s.map decodeByte := by
    rw [read_congr (c := r) fun k hk => put_other (by omega), hdecoded]
    rfl
  have hmap : s.map decodeByte = s ↔ ∀ c ∈ s, decodeByte c = c := by
    simpa using List.map_inj_left (l := s) (f := decodeByte) (g := id)
  unfold Undone
  simp only [hlen, hread, urlDecode]
  rw [if_neg (by simp [hencoded]; omega), hr]
  simp only [true_and, holds_iff_read, put_self, and_true, hbytes, hmap, decodeByte_eq_iff]

theorem url_decode_encode_space :
    Undone (fun _ => 0) (fun _ => 0) (bytes "a b") 10 10 ↔
      ∀ c ∈ bytes "a b", ¬ Escaped c ∨ DecimalDigits c :=
  url_decode_encode_iff _ _ _ 10 10 (by decide) (by decide) (by decide)

theorem url_decode_slash : ¬ Undone (fun _ => 0) (fun _ => 0) (bytes "/") 4 4 := by
  rintro ⟨-, hbytes, -⟩
  have hfirst := hbytes 0 (by decide)
  exact absurd hfirst (by decide +kernel)

end HotCache
