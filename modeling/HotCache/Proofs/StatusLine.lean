import HotCache.Spec.Site

/-! The language of `http_parse_status_line`. Each state of the machine reads one piece of the
line, so each gets one lemma that splits the input into that piece and what the next state
reads. -/

namespace HotCache

open CStr

def digitVal (c : UInt8) : ℕ := c.toNat - (ch '0').toNat

/-- What may follow the three digits of the status. -/
inductive LineEnd : Bytes → Prop
  | lf : LineEnd [ch '\n']
  | crlf : LineEnd [ch '\r', ch '\n']
  | textLf {c : UInt8} {t : Bytes} (hc : c = ch ' ' ∨ c = ch '.')
      (ht : ∀ b ∈ t, b ≠ ch '\r' ∧ b ≠ ch '\n') : LineEnd (c :: (t ++ [ch '\n']))
  | textCrlf {c : UInt8} {t : Bytes} (hc : c = ch ' ' ∨ c = ch '.')
      (ht : ∀ b ∈ t, b ≠ ch '\r' ∧ b ≠ ch '\n') : LineEnd (c :: (t ++ [ch '\r', ch '\n']))

/-- The three digits of the status, with spaces before each, and the end of the line. -/
inductive StatusCode : Bytes → ℕ → Prop
  | mk {s1 s2 s3 e : Bytes} {d1 d2 d3 : UInt8}
      (hs1 : ∀ b ∈ s1, b = ch ' ') (hd1 : isDigit d1) (hs2 : ∀ b ∈ s2, b = ch ' ') (hd2 : isDigit d2)
      (hs3 : ∀ b ∈ s3, b = ch ' ') (hd3 : isDigit d3) (he : LineEnd e) :
      StatusCode (s1 ++ d1 :: (s2 ++ d2 :: (s3 ++ d3 :: e)))
        (100 * digitVal d1 + 10 * digitVal d2 + digitVal d3)

inductive StatusLine : Bytes → ℕ → Prop
  | mk {major minor code : Bytes} {m : UInt8} {status : ℕ} (hm : ch '1' ≤ m ∧ m ≤ ch '9')
      (hmajor : ∀ b ∈ major, isDigit b) (hne : minor ≠ []) (hminor : ∀ b ∈ minor, isDigit b)
      (hcode : StatusCode code status) :
      StatusLine (bytes "HTTP/" ++ m :: (major ++ ch '.' :: (minor ++ ch ' ' :: code))) status

section States

variable {n : ℕ} (st d : ℕ) (s : Bytes)

/-- A state that accepts the one byte `a`. -/
theorem literal_iff {f g : Bytes → Option ℕ} {a : UInt8} (hnil : f [] = none)
    (hcons : ∀ c s, f (c :: s) = if c = a then g s else none) (s : Bytes) :
    f s = some n ↔ ∃ r, s = a :: r ∧ g r = some n := by
  rw [expect_iff (p := (· = a)) (g := fun _ => g) hnil (by simpa using hcons)]
  simp

theorem start_iff : statusLineLoop .start st d s = some n ↔
    ∃ r, s = bytes "HTTP/" ++ r ∧ statusLineLoop .firstMajorDigit st d r = some n := by
  rw [literal_iff (g := statusLineLoop .h st d) rfl fun _ _ => rfl]
  simp only [literal_iff (g := statusLineLoop .ht st d) (f := statusLineLoop .h st d) rfl fun _ _ => rfl,
    literal_iff (g := statusLineLoop .htt st d) (f := statusLineLoop .ht st d) rfl fun _ _ => rfl,
    literal_iff (g := statusLineLoop .http st d) (f := statusLineLoop .htt st d) rfl fun _ _ => rfl,
    literal_iff (g := statusLineLoop .firstMajorDigit st d) (f := statusLineLoop .http st d) rfl
      fun _ _ => rfl]
  constructor
  · rintro ⟨_, rfl, _, rfl, _, rfl, _, rfl, r, rfl, h⟩
    exact ⟨r, rfl, h⟩
  · rintro ⟨r, rfl, h⟩
    exact ⟨_, rfl, _, rfl, _, rfl, _, rfl, r, rfl, h⟩

theorem firstMajorDigit_iff : statusLineLoop .firstMajorDigit st d s = some n ↔
    ∃ m r, s = m :: r ∧ (ch '1' ≤ m ∧ m ≤ ch '9') ∧ statusLineLoop .majorDigit st d r = some n := by
  rw [expect_iff (p := fun m => ch '1' ≤ m ∧ m ≤ ch '9')
    (g := fun _ => statusLineLoop .majorDigit st d) rfl]
  · simp
  · intro c s
    rw [statusLineLoop, ← ite_not]
    simp

theorem digits_iff {f g : Bytes → Option ℕ} {a : UInt8} (ha : isDigit a = false) (hnil : f [] = none)
    (hcons : ∀ c s, f (c :: s) = if c = a then g s else if !isDigit c then none else f s) (s : Bytes) :
    f s = some n ↔ ∃ t r, s = t ++ a :: r ∧ (∀ b ∈ t, isDigit b = true) ∧ g r = some n := by
  have hskip : ∀ c s, f (c :: s) = if isDigit c then f s else if c = a then g s else none := by
    intro c s
    rw [hcons]
    by_cases hc : c = a
    · subst hc
      simp [ha]
    · cases isDigit c <;> simp [hc]
  rw [skip_iff hnil hskip]
  constructor
  · rintro ⟨t, c, r, rfl, ht, -, hg⟩
    split_ifs at hg with hc
    exact ⟨t, r, by rw [hc], ht, hg⟩
  · rintro ⟨t, r, rfl, ht, hg⟩
    exact ⟨t, a, r, rfl, ht, ha, by simpa using hg⟩

theorem majorDigit_iff : statusLineLoop .majorDigit st d s = some n ↔
    ∃ major r, s = major ++ ch '.' :: r ∧ (∀ b ∈ major, isDigit b = true) ∧
      statusLineLoop .firstMinorDigit st d r = some n :=
  digits_iff (by decide) rfl (fun _ _ => rfl) s

theorem firstMinorDigit_iff : statusLineLoop .firstMinorDigit st d s = some n ↔
    ∃ minor r, s = minor ++ ch ' ' :: r ∧ minor ≠ [] ∧ (∀ b ∈ minor, isDigit b = true) ∧
      statusLineLoop .status st d r = some n := by
  have hminor : ∀ s, statusLineLoop .minorDigit st d s = some n ↔ ∃ t r, s = t ++ ch ' ' :: r ∧
      (∀ b ∈ t, isDigit b = true) ∧ statusLineLoop .status st d r = some n :=
    digits_iff (by decide) rfl fun _ _ => rfl
  rw [expect_iff (p := isDigit) (g := fun _ => statusLineLoop .minorDigit st d) rfl]
  · simp only [hminor]
    constructor
    · rintro ⟨c, _, rfl, hc, t, r, rfl, ht, h⟩
      exact ⟨c :: t, r, rfl, List.cons_ne_nil c t, List.forall_mem_cons.mpr ⟨hc, ht⟩, h⟩
    · rintro ⟨minor, r, rfl, hne, hminor, h⟩
      obtain ⟨c, t, rfl⟩ := List.exists_cons_of_ne_nil hne
      obtain ⟨hc, ht⟩ := List.forall_mem_cons.mp hminor
      exact ⟨c, _, rfl, hc, t, r, rfl, ht, h⟩
  · intro c s
    rw [statusLineLoop]
    cases isDigit c <;> rfl

theorem status_iff : statusLineLoop .status st d s = some n ↔
    ∃ sp c r, s = sp ++ c :: r ∧ (∀ b ∈ sp, b = ch ' ') ∧ isDigit c = true ∧
      statusLineLoop (if d + 1 = 3 then .spaceAfterStatus else .status) (st * 10 + digitVal c) (d + 1) r =
        some n := by
  rw [skip_iff (p := (· = ch ' ')) (g := fun c r => if isDigit c then
    statusLineLoop (if d + 1 = 3 then .spaceAfterStatus else .status) (st * 10 + digitVal c) (d + 1) r
    else none) rfl]
  · simp only [decide_eq_true_eq, decide_eq_false_iff_not, Option.ite_none_right_eq_some]
    constructor
    · rintro ⟨sp, c, r, rfl, hsp, -, hc, h⟩
      exact ⟨sp, c, r, rfl, hsp, hc, h⟩
    · rintro ⟨sp, c, r, rfl, hsp, hc, h⟩
      refine ⟨sp, c, r, rfl, hsp, ?_, hc, h⟩
      rintro rfl
      exact absurd hc (by decide)
  · intro c s
    rw [statusLineLoop]
    cases isDigit c <;> simp [digitVal]

theorem almostDone_iff : statusLineLoop .almostDone st d s = some n ↔
    ∃ r, s = ch '\n' :: r ∧ some st = some n :=
  literal_iff (g := fun _ => some st) rfl (fun _ _ => rfl) s

theorem statusText_iff : statusLineLoop .statusText st d s = some n ↔
    ∃ t e r, s = t ++ e ++ r ∧ (∀ b ∈ t, b ≠ ch '\r' ∧ b ≠ ch '\n') ∧
      (e = [ch '\n'] ∨ e = [ch '\r', ch '\n']) ∧ st = n := by
  rw [skip_iff (p := fun c => c ≠ ch '\r' ∧ c ≠ ch '\n') (g := fun c r =>
    if c = ch '\r' then statusLineLoop .almostDone st d r else some st) rfl]
  · constructor
    · rintro ⟨t, c, r, rfl, ht, hc, h⟩
      have ht' : ∀ b ∈ t, b ≠ ch '\r' ∧ b ≠ ch '\n' := fun b hb => of_decide_eq_true (ht b hb)
      split_ifs at h with hcr
      · subst hcr
        obtain ⟨r, rfl, hst⟩ := (almostDone_iff st d r).mp h
        exact ⟨t, _, r, by simp, ht', .inr rfl, Option.some.inj hst⟩
      · have hlf : c = ch '\n' := by simpa [hcr] using hc
        subst hlf
        exact ⟨t, _, r, by simp, ht', .inl rfl, Option.some.inj h⟩
    · rintro ⟨t, e, r, rfl, ht, rfl | rfl, rfl⟩
      · exact ⟨t, ch '\n', r, by simp, by simpa using ht, rfl, rfl⟩
      · refine ⟨t, ch '\r', ch '\n' :: r, by simp, by simpa using ht, rfl, ?_⟩
        exact (almostDone_iff st d _).mpr ⟨r, rfl, rfl⟩
  · intro c s
    rw [statusLineLoop]
    by_cases hcr : c = ch '\r'
    · simp [hcr]
    · by_cases hlf : c = ch '\n' <;> simp [hcr, hlf]

theorem spaceAfterStatus_iff : statusLineLoop .spaceAfterStatus st d s = some n ↔
    ∃ e r, s = e ++ r ∧ LineEnd e ∧ st = n := by
  constructor
  · intro h
    cases s with
    | nil => exact absurd h (by simp [statusLineLoop])
    | cons c s =>
      simp only [statusLineLoop] at h
      split_ifs at h with hsep hcr hlf
      · obtain ⟨t, e, r, rfl, ht, he, rfl⟩ := (statusText_iff st d s).mp h
        rcases he with rfl | rfl
        · exact ⟨_, r, by simp, .textLf hsep ht, rfl⟩
        · exact ⟨_, r, by simp, .textCrlf hsep ht, rfl⟩
      · obtain ⟨r, rfl, hst⟩ := (almostDone_iff st d s).mp h
        exact ⟨_, r, by simp [hcr], .crlf, Option.some.inj hst⟩
      · exact ⟨_, s, by simp [hlf], .lf, Option.some.inj h⟩
  · rintro ⟨e, r, rfl, he, rfl⟩
    cases he with
    | lf => rfl
    | crlf => rfl
    | textLf hc ht =>
      rw [List.cons_append, statusLineLoop]
      simp only [hc, if_true]
      exact (statusText_iff st d _).mpr ⟨_, _, r, rfl, ht, .inl rfl, rfl⟩
    | textCrlf hc ht =>
      rw [List.cons_append, statusLineLoop]
      simp only [hc, if_true]
      exact (statusText_iff st d _).mpr ⟨_, _, r, rfl, ht, .inr rfl, rfl⟩

end States

/-- The state `status` at its entry reads three digits and the line end. -/
theorem statusCode_iff (s : Bytes) (n : ℕ) : statusLineLoop .status 0 0 s = some n ↔
    ∃ code r, s = code ++ r ∧ StatusCode code n := by
  have hval (d1 d2 d3 : UInt8) : ((0 * 10 + digitVal d1) * 10 + digitVal d2) * 10 + digitVal d3 =
      100 * digitVal d1 + 10 * digitVal d2 + digitVal d3 := by ring
  constructor
  · intro h
    obtain ⟨s1, d1, r1, rfl, hs1, hd1, h⟩ := (status_iff _ _ _).mp h
    obtain ⟨s2, d2, r2, rfl, hs2, hd2, h⟩ := (status_iff _ _ _).mp h
    obtain ⟨s3, d3, r3, rfl, hs3, hd3, h⟩ := (status_iff _ _ _).mp h
    obtain ⟨e, r, rfl, he, rfl⟩ := (spaceAfterStatus_iff _ _ _).mp h
    rw [hval]
    exact ⟨_, r, by simp, .mk hs1 hd1 hs2 hd2 hs3 hd3 he⟩
  · rintro ⟨_, r, rfl, hcode⟩
    cases hcode with
    | @mk s1 s2 s3 e d1 d2 d3 hs1 hd1 hs2 hd2 hs3 hd3 he =>
      rw [← hval]
      refine (status_iff _ _ _).mpr ⟨s1, d1, s2 ++ d2 :: (s3 ++ d3 :: e) ++ r, by simp, hs1, hd1, ?_⟩
      refine (status_iff _ _ _).mpr ⟨s2, d2, s3 ++ d3 :: e ++ r, by simp, hs2, hd2, ?_⟩
      refine (status_iff _ _ _).mpr ⟨s3, d3, e ++ r, by simp, hs3, hd3, ?_⟩
      exact (spaceAfterStatus_iff _ _ _).mpr ⟨e, r, rfl, he, rfl⟩

/-- The machine accepts a buffer exactly when a status line stands at its start. -/
theorem statusLine_iff (s : Bytes) (n : ℕ) : httpParseStatusLine s = some n ↔
    ∃ line r, s = line ++ r ∧ StatusLine line n := by
  unfold httpParseStatusLine
  constructor
  · intro h
    obtain ⟨s, rfl, h⟩ := (start_iff _ _ _).mp h
    obtain ⟨m, s, rfl, hm, h⟩ := (firstMajorDigit_iff _ _ _).mp h
    obtain ⟨major, s, rfl, hmajor, h⟩ := (majorDigit_iff _ _ _).mp h
    obtain ⟨minor, s, rfl, hne, hminor, h⟩ := (firstMinorDigit_iff _ _ _).mp h
    obtain ⟨code, r, rfl, hcode⟩ := (statusCode_iff s n).mp h
    exact ⟨_, r, by simp, .mk hm hmajor hne hminor hcode⟩
  · rintro ⟨_, r, rfl, hline⟩
    cases hline with
    | @mk major minor code m _ hm hmajor hne hminor hcode =>
      refine (start_iff _ _ _).mpr ⟨_, List.append_assoc _ _ r, ?_⟩
      refine (firstMajorDigit_iff _ _ _).mpr ⟨m, _, List.cons_append, hm, ?_⟩
      refine (majorDigit_iff _ _ _).mpr ⟨major, _, List.append_assoc _ _ r, hmajor, ?_⟩
      refine (firstMinorDigit_iff _ _ _).mpr ⟨minor, _, List.append_assoc _ _ r, hne, hminor, ?_⟩
      exact (statusCode_iff _ n).mpr ⟨code, r, rfl, hcode⟩

/-- `http_parse_status_line` accepts exactly the buffers that start with a status line and reports
its status; what follows the line does not matter. -/
theorem httpParseStatusLine_grammar (buf : Bytes) (len : ℕ) :
    (∀ status, httpParseStatusLine (buf.take len) = some status ↔
      ∃ line, line <+: buf.take len ∧ StatusLine line status) ∧
    (httpParseStatusLine (buf.take len) = none ↔
      ¬ ∃ line status, line <+: buf.take len ∧ StatusLine line status) ∧
    ∀ status more, httpParseStatusLine (buf.take len) = some status →
      httpParseStatusLine (buf.take len ++ more) = some status := by
  have hiff (s : Bytes) (n : ℕ) : httpParseStatusLine s = some n ↔
      ∃ line, line <+: s ∧ StatusLine line n := by
    rw [statusLine_iff]
    constructor
    · rintro ⟨line, r, rfl, h⟩
      exact ⟨line, List.prefix_append line r, h⟩
    · rintro ⟨line, ⟨r, rfl⟩, h⟩
      exact ⟨line, r, rfl, h⟩
  refine ⟨hiff _, ?_, ?_⟩
  · rw [Option.eq_none_iff_forall_ne_some, ← not_exists, exists_comm]
    simp only [hiff]
  · intro status more h
    obtain ⟨line, hpre, hline⟩ := (hiff _ _).mp h
    exact (hiff _ _).mpr ⟨line, hpre.trans (List.prefix_append _ more), hline⟩

end HotCache
