import HotCache.Spec.NetUtil
import HotCache.Spec.UrlCode

/-! Unescaping in place. The write cursor never passes the read cursor, so what is still unread is the
rest of the encoded text at every round; the induction is on that text. -/

namespace HotCache

open CStr Buffer

/-- `d` is the digit of `n` in one of the two cases. -/
def HexDigitOf (n : ℕ) (d : UInt8) : Prop := d = hexDigit n ∨ d = hexDigit n + (if n < 10 then 0 else 32)

/-- The text is `s` with some of its bytes written as `\u00` and two digits. -/
inductive JsonEncodes : Bytes → Bytes → Prop
  | nil : JsonEncodes [] []
  | plain (c : UInt8) {s enc : Bytes} : JsonEncodes s enc → JsonEncodes (c :: s) (c :: enc)
  | escaped (c : UInt8) {hi lo : UInt8} {s enc : Bytes} : HexDigitOf (c.toNat / 16) hi →
      HexDigitOf (c.toNat % 16) lo → JsonEncodes s enc →
      JsonEncodes (c :: s) (ch '\\' :: ch 'u' :: ch '0' :: ch '0' :: hi :: lo :: enc)

theorem hexValue_digit {n : ℕ} {d : UInt8} (hn : n < 16) (hd : HexDigitOf n d) : hexValue d = some n := by
  have hall : ∀ n : Fin 16, hexValue (hexDigit n) = some n.val ∧
      hexValue (hexDigit n + (if n.val < 10 then 0 else 32)) = some n.val := by
    decide +kernel
  rcases hd with rfl | rfl
  · exact (hall ⟨n, hn⟩).1
  · exact (hall ⟨n, hn⟩).2

theorem hexValue_some {d : UInt8} {n : ℕ} (h : hexValue d = some n) :
    space d = false ∧ d ≠ ch '-' ∧ d ≠ ch '+' ∧ d ≠ 0 := by
  have hall : ∀ k : Fin 256, hexValue (UInt8.ofNat k) = none ∨
      (space (UInt8.ofNat k) = false ∧ UInt8.ofNat k ≠ ch '-' ∧ UInt8.ofNat k ≠ ch '+' ∧
        UInt8.ofNat k ≠ 0) := by
    decide +kernel
  have hd := hall ⟨d.toNat, d.toNat_lt⟩
  simp only [UInt8.ofNat_toNat] at hd
  rcases hd with hd | hd
  · rw [hd] at h
    cases h
  · exact hd

theorem strtol16_two {hi lo : UInt8} {m n : ℕ} (hhi : hexValue hi = some m) (hlo : hexValue lo = some n) :
    strtol16 (cstr [hi, lo]) = (m * 16 + n : ℕ) := by
  obtain ⟨hspace, hminus, hplus, hnul⟩ := hexValue_some hhi
  obtain ⟨-, -, -, hnul'⟩ := hexValue_some hlo
  simp [strtol16, cstr, hnul, hnul', hspace, hminus, hplus, hexDigitsValue, hhi, hlo]

theorem strtol16_escaped {c hi lo : UInt8} (hhi : HexDigitOf (c.toNat / 16) hi)
    (hlo : HexDigitOf (c.toNat % 16) lo) : UInt8.ofInt (strtol16 (cstr [hi, lo])) = c := by
  have hlt := c.toNat_lt
  rw [strtol16_two (hexValue_digit (by omega) hhi) (hexValue_digit (by omega) hlo),
    show c.toNat / 16 * 16 + c.toNat % 16 = c.toNat by omega]
  have hmod : ((c.toNat : ℤ) % 2 ^ 8).toNat = c.toNat := by omega
  rw [UInt8.ofInt, hmod, UInt8.ofNat_toNat]

/-- The loop, with the encoding of `s` unread: it writes `s` behind what it has written. -/
theorem jsonToAsciiLoop_encoded {s enc : Bytes} (henc : JsonEncodes s enc) (hnul : (0 : UInt8) ∉ s)
    (hslash : ch '\\' ∉ s) {fin p q : ℕ} {buf : Buf} (hq : q ≤ p) (hfin : p + enc.length = fin)
    (hunread : buf.At p (enc ++ [0])) :
    ∃ r, jsonToAsciiLoop fin p q buf = (q + s.length, r) ∧ r.read (q + s.length) = buf.read q ++ s := by
  induction henc generalizing p q buf with
  | nil =>
    have hend : buf.byte p = 0 := (at_cons.mp hunread).1
    refine ⟨buf, ?_, by simp⟩
    rw [jsonToAsciiLoop, if_neg (by simp [hend])]
    rfl
  | @plain c s enc henc ih =>
    obtain ⟨hc, hrest⟩ := at_cons.mp hunread
    simp only [List.mem_cons, not_or] at hnul hslash
    simp only [List.length_cons] at hfin
    rw [jsonToAsciiLoop, if_pos ⟨by rw [hc]; exact Ne.symm hnul.1, by omega⟩, hc,
      if_neg (Ne.symm hslash.1)]
    obtain ⟨r, hr, hread⟩ := @ih hnul.2 hslash.2 (p + 1) (q + 1) (buf.put q c)
      (by omega) (by omega) (hrest.put (by omega))
    rw [List.length_cons, ← Nat.add_assoc, Nat.add_right_comm]
    refine ⟨r, hr, ?_⟩
    rw [hread, read_put, List.append_assoc, List.singleton_append]
  | @escaped c hi lo s enc hhi hlo henc ih =>
    simp only [List.mem_cons, not_or] at hnul hslash
    obtain ⟨hbackslash, hunread⟩ := at_cons.mp hunread
    obtain ⟨-, hunread⟩ := at_cons.mp hunread
    obtain ⟨-, hunread⟩ := at_cons.mp hunread
    obtain ⟨-, hunread⟩ := at_cons.mp hunread
    obtain ⟨hfirst, hunread⟩ := at_cons.mp hunread
    obtain ⟨hsecond, hrest⟩ := at_cons.mp hunread
    have hlen : p + (enc.length + 6) = fin := hfin
    rw [jsonToAsciiLoop, if_pos ⟨by rw [hbackslash]; decide, by omega⟩, if_pos hbackslash]
    have htemp : cstr [buf.byte (p + 4 : ℕ), buf.byte (p + 5 : ℕ)] = cstr [hi, lo] := by
      rw [← hfirst, ← hsecond]
      push_cast
      ring_nf
    have hbehind : buf.At (p + 6 : ℕ) (enc ++ [0]) := by
      rw [show ((p + 6 : ℕ) : ℤ) = p + 1 + 1 + 1 + 1 + 1 + 1 by push_cast; ring]
      exact hrest
    obtain ⟨r, hr, hread⟩ := @ih hnul.2 hslash.2 (p + 6) (q + 1) (buf.put q c)
      (by omega) (by omega) (hbehind.put (by omega))
    simp only [htemp, strtol16_escaped hhi hlo]
    rw [List.length_cons, ← Nat.add_assoc, Nat.add_right_comm]
    refine ⟨r, hr, ?_⟩
    rw [hread, read_put, List.append_assoc, List.singleton_append]

theorem JsonEncodes.ne_nil {s enc : Bytes} (henc : JsonEncodes s enc) (hs : s ≠ []) : enc.length ≠ 0 := by
  cases henc with
  | nil => exact absurd rfl hs
  | plain c _ => simp
  | escaped c _ _ _ => simp

/-- Whatever bytes are escaped, in whatever case, the string comes out of its own buffer. -/
theorem json_to_ascii_in_place {s enc : Bytes} {buf : Buf} (hs : s ≠ []) (hnul : (0 : UInt8) ∉ s)
    (hslash : ch '\\' ∉ s) (henc : JsonEncodes s enc) (hbuf : buf.Holds enc) :
    (utilJsonToAsciiString buf enc.length).1 = 0 ∧ (utilJsonToAsciiString buf enc.length).2.Holds s := by
  obtain ⟨r, hr, hread⟩ := jsonToAsciiLoop_encoded henc hnul hslash (le_refl 0) (Nat.zero_add _)
    (by simpa using hbuf.at_zero)
  rw [Nat.zero_add] at hr hread
  unfold utilJsonToAsciiString
  rw [if_neg (henc.ne_nil hs), hr]
  refine ⟨rfl, holds_iff_read.mpr ⟨?_, put_self ..⟩⟩
  rw [read_congr (c := r) fun k hk => put_other (by omega), hread]
  rfl

/-- `k.` with its dot escaped. -/
theorem json_to_ascii_dot :
    (utilJsonToAsciiString ((⟨fun _ => 0, []⟩ : Buf).putAll 0 (bytes "k\\u002e")) 7).1 = 0 ∧
      (utilJsonToAsciiString ((⟨fun _ => 0, []⟩ : Buf).putAll 0 (bytes "k\\u002e")) 7).2.Holds (bytes "k.") := by
  have henc : JsonEncodes (bytes "k.") (bytes "k\\u002e") :=
    .plain _ (.escaped (ch '.') (.inl (by decide)) (.inr (by decide)) .nil)
  refine json_to_ascii_in_place (by decide) (by decide) (by decide) henc ?_
  refine holds_iff_read.mpr ⟨?_, ?_⟩
  · exact read_putAll _ 0 _
  · exact putAll_outside (.inr (by decide))

end HotCache
