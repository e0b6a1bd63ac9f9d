import HotCache.Proofs.LocalPath

/-! Which urls share a local path. Both encoders rewrite byte by byte, and the first `/` of the
path shows where the mode changed, so two urls of one path change mode at the same byte and
can be compared position by position. -/

namespace HotCache

open CStr

def beforeQuery (u : Bytes) : Bytes := u.takeWhile (· ≠ ch '?')

/-- `u` and `v` are equal except where both have one of the bytes `host`, up to the first `/`,
or one of the bytes `path`, after it. -/
def Confusable (host path u v : Bytes) : Prop :=
  u.length = v.length ∧ ∀ (i : ℕ) (hu : i < u.length) (hv : i < v.length), u[i] = v[i] ∨
    if ch '/' ∈ u.take i then u[i] ∈ path ∧ v[i] ∈ path else u[i] ∈ host ∧ v[i] ∈ host

instance (host path u v : Bytes) : Decidable (Confusable host path u v) :=
  inferInstanceAs (Decidable (_ ∧ _))

def sohuByte (first : Bool) (p : UInt8) : UInt8 := if p = ch '?' then ch '_' else encByte first p

def encode (enc : Bool → UInt8 → UInt8) : Bool → Bytes → Bytes
  | _, [] => []
  | first, p :: s => enc first p :: encode enc (nextFirst first p) s

theorem defaultLoop_eq_encode (first : Bool) (u : Bytes) :
    defaultLoop first u = encode encByte first (beforeQuery u) := by
  unfold beforeQuery
  induction u generalizing first with
  | nil => rfl
  | cons p s ih =>
    rw [defaultLoop_cons]
    split_ifs with hp
    · simp [hp, encode]
    · simp [hp, encode, ih]

theorem sohuLoop_eq_encode (first : Bool) (u : Bytes) :
    sohuLoop first u = encode sohuByte first u := by
  induction u generalizing first with
  | nil => rfl
  | cons p s ih => rw [sohuLoop_cons, encode, ih, sohuByte]

/-- The bytes that an encoder writes as `_` in a mode. -/
def merged (host path : Bytes) (first : Bool) : Bytes := if first then host else path

/-- An encoder merges exactly the bytes of `host` and of `path`, and shows the first `/`. -/
structure Merges (enc : Bool → UInt8 → UInt8) (host path : Bytes) : Prop where
  eq_iff : ∀ first a b, enc first a = enc first b ↔
    a = b ∨ a ∈ merged host path first ∧ b ∈ merged host path first
  slash : ch '/' ∉ host

/-- A map that sends the bytes of `M` to one of them and keeps the others. -/
theorem collapse_eq_iff {M : Bytes} {s : UInt8} (hs : s ∈ M) (a b : UInt8) :
    (if a ∈ M then s else a) = (if b ∈ M then s else b) ↔ a = b ∨ a ∈ M ∧ b ∈ M := by
  by_cases ha : a ∈ M
  · by_cases hb : b ∈ M
    · simp [ha, hb]
    · rw [if_pos ha, if_neg hb]
      constructor
      · rintro rfl
        exact absurd hs hb
      · rintro (rfl | ⟨-, hb'⟩)
        · exact absurd ha hb
        · exact absurd hb' hb
  · by_cases hb : b ∈ M
    · rw [if_neg ha, if_pos hb]
      constructor
      · rintro rfl
        exact absurd hs ha
      · rintro (rfl | ⟨ha', -⟩)
        · exact absurd hb ha
        · exact absurd ha' ha
    · simp [ha, hb]

/-- An encoder that writes `_` for the bytes of a mode, `_` among them, merges these bytes. -/
theorem Merges.of_collapse {enc : Bool → UInt8 → UInt8} {host path : Bytes}
    (henc : ∀ first p, enc first p = if p ∈ merged host path first then ch '_' else p)
    (hmem : ∀ first, ch '_' ∈ merged host path first) (hslash : ch '/' ∉ host) :
    Merges enc host path := by
  refine ⟨fun first a b => ?_, hslash⟩
  rw [henc, henc]
  exact collapse_eq_iff (hmem first) a b

/-- The byte that a mode of the encoders rewrites. -/
def dotOrSlash (first : Bool) : UInt8 := if first then ch '.' else ch '/'

theorem encByte_eq (first : Bool) (p : UInt8) :
    encByte first p = if p = dotOrSlash first ∨ p = ch '_' then ch '_' else p := by
  have hiff : (first = true ∧ p = ch '.' ∨ ¬ first = true ∧ p = ch '/') ↔ p = dotOrSlash first := by
    cases first <;> simp [dotOrSlash]
  unfold encByte
  rw [if_congr hiff rfl rfl]
  by_cases hp : p = ch '_'
  · simp [hp]
  · simp [hp]

theorem encByte_merges : Merges encByte (bytes "._") (bytes "/_") := by
  refine .of_collapse (fun first p => ?_) (by decide) (by decide)
  have hm : p ∈ merged (bytes "._") (bytes "/_") first ↔ p = dotOrSlash first ∨ p = ch '_' := by
    cases first <;> exact List.mem_pair
  rw [encByte_eq, if_congr hm rfl rfl]

theorem sohuByte_merges : Merges sohuByte (bytes "._?") (bytes "/_?") := by
  refine .of_collapse (fun first p => ?_) (by decide) (by decide)
  have hm : p ∈ merged (bytes "._?") (bytes "/_?") first ↔
      (p = dotOrSlash first ∨ p = ch '_') ∨ p = ch '?' := by
    have htriple : ∀ x y z : UInt8, p ∈ [x, y, z] ↔ (p = x ∨ p = y) ∨ p = z := by simp [or_assoc]
    cases first <;> exact htriple _ _ _
  rw [sohuByte, encByte_eq, if_congr hm rfl rfl]
  by_cases hq : p = ch '?'
  · simp [hq]
  · simp [hq]

section Merge

variable {enc : Bool → UInt8 → UInt8} {host path : Bytes}

/-- Bytes with one image leave the same mode. -/
theorem Merges.nextFirst_eq (hm : Merges enc host path) {first : Bool} {a b : UInt8}
    (h : enc first a = enc first b) : nextFirst first a = nextFirst first b := by
  cases first with
  | false => rfl
  | true =>
    rcases (hm.eq_iff true a b).mp h with rfl | ⟨ha, hb⟩
    · rfl
    · have hne {c : UInt8} (hc : c ∈ host) : c ≠ ch '/' := fun he => hm.slash (he ▸ hc)
      simp [nextFirst, hne ha, hne hb]

/-- Two urls have one encoding when they are equal up to merged bytes at every position. -/
theorem Merges.encode_eq_iff (hm : Merges enc host path) (first : Bool) (u v : Bytes) :
    encode enc first u = encode enc first v ↔ u.length = v.length ∧
      ∀ (i : ℕ) (hu : i < u.length) (hv : i < v.length),
        u[i] = v[i] ∨ u[i] ∈ merged host path (first && ch '/' ∉ u.take i) ∧
          v[i] ∈ merged host path (first && ch '/' ∉ u.take i) := by
  induction u generalizing first v with
  | nil =>
    cases v with
    | nil => simp [encode]
    | cons b v => simp [encode]
  | cons a u ih =>
    cases v with
    | nil => simp [encode]
    | cons b v =>
      have hmode (i : ℕ) : (first && decide (ch '/' ∉ (a :: u).take (i + 1))) =
          (nextFirst first a && decide (ch '/' ∉ u.take i)) := by
        simp [nextFirst, Bool.and_assoc, eq_comm]
      rw [encode, encode, List.cons_eq_cons]
      constructor
      · rintro ⟨hab, htail⟩
        rw [← hm.nextFirst_eq hab, ih] at htail
        refine ⟨by simpa using htail.1, fun i hu hv => ?_⟩
        cases i with
        | zero => simpa using (hm.eq_iff first a b).mp hab
        | succ i =>
          rw [hmode]
          exact htail.2 i (Nat.lt_of_succ_lt_succ hu) (Nat.lt_of_succ_lt_succ hv)
      · rintro ⟨hlen, hpos⟩
        have hab : enc first a = enc first b :=
          (hm.eq_iff first a b).mpr (by simpa using hpos 0 (Nat.succ_pos _) (Nat.succ_pos _))
        refine ⟨hab, ?_⟩
        rw [← hm.nextFirst_eq hab, ih]
        refine ⟨by simpa using hlen, fun i hu hv => ?_⟩
        rw [← hmode]
        exact hpos (i + 1) (Nat.succ_lt_succ hu) (Nat.succ_lt_succ hv)

theorem Merges.confusable_iff (hm : Merges enc host path) (u v : Bytes) :
    encode enc true u = encode enc true v ↔ Confusable host path u v := by
  rw [hm.encode_eq_iff, Confusable]
  refine and_congr_right fun _ => forall₃_congr fun i hu hv => or_congr_right ?_
  by_cases hs : ch '/' ∈ u.take i <;> simp [hs, merged]

end Merge

/-- Two urls get one default path exactly when the parts before their queries are confusable. -/
theorem default_eq_iff {u v : Bytes} (hu : u.length < SC_RES_LOCAL_PATH_MAX_LEN)
    (hv : v.length < SC_RES_LOCAL_PATH_MAX_LEN) :
    scResUrlToLocalPathDefault u SC_RES_LOCAL_PATH_MAX_LEN =
        scResUrlToLocalPathDefault v SC_RES_LOCAL_PATH_MAX_LEN ↔
      Confusable (bytes "._") (bytes "/_") (beforeQuery u) (beforeQuery v) := by
  rw [default_eq_some.mpr ⟨hu, rfl⟩, default_eq_some.mpr ⟨hv, rfl⟩, Option.some.injEq,
    defaultLoop_eq_encode, defaultLoop_eq_encode, encByte_merges.confusable_iff]

theorem sohu_eq_iff {u v : Bytes} (hu : u.length < SC_RES_LOCAL_PATH_MAX_LEN)
    (hv : v.length < SC_RES_LOCAL_PATH_MAX_LEN) (hfu : bytes "?file=/" <:+: u)
    (hfv : bytes "?file=/" <:+: v) :
    scSohuFileUrlToLocalPath u SC_RES_LOCAL_PATH_MAX_LEN =
        scSohuFileUrlToLocalPath v SC_RES_LOCAL_PATH_MAX_LEN ↔
      Confusable (bytes "._?") (bytes "/_?") u v := by
  rw [sohu_eq_some.mpr ⟨hfu, hu, rfl⟩, sohu_eq_some.mpr ⟨hfv, hv, rfl⟩, Option.some.injEq,
    sohuLoop_eq_encode, sohuLoop_eq_encode, sohuByte_merges.confusable_iff]

/-- No two different resources share a file, for the urls `u` and `v`. -/
def SeparateFiles (u v : Bytes) : Prop :=
  (∀ lp, scResUrlToLocalPathDefault u SC_RES_LOCAL_PATH_MAX_LEN = some lp →
    scResUrlToLocalPathDefault v SC_RES_LOCAL_PATH_MAX_LEN = some lp → beforeQuery u = beforeQuery v) ∧
  ∀ lp, scSohuFileUrlToLocalPath u SC_RES_LOCAL_PATH_MAX_LEN = some lp →
    scSohuFileUrlToLocalPath v SC_RES_LOCAL_PATH_MAX_LEN = some lp → u = v

/-- Two urls keep separate files unless they differ only in bytes that an encoder merges. -/
theorem separate_files_iff (u v : Bytes) (hu : u.length < SC_RES_LOCAL_PATH_MAX_LEN)
    (hv : v.length < SC_RES_LOCAL_PATH_MAX_LEN) :
    SeparateFiles u v ↔
      (Confusable (bytes "._") (bytes "/_") (beforeQuery u) (beforeQuery v) →
        beforeQuery u = beforeQuery v) ∧
      (bytes "?file=/" <:+: u ∧ bytes "?file=/" <:+: v ∧ Confusable (bytes "._?") (bytes "/_?") u v →
        u = v) := by
  refine and_congr ?_ ?_
  · rw [← default_eq_iff hu hv, default_eq_some.mpr ⟨hu, rfl⟩, default_eq_some.mpr ⟨hv, rfl⟩]
    constructor
    · exact fun h heq => h _ rfl heq.symm
    · exact fun h lp h1 h2 => h (h1.trans h2.symm)
  · constructor
    · rintro h ⟨hfu, hfv, hc⟩
      have heq := (sohu_eq_iff hu hv hfu hfv).mpr hc
      have hsome := sohu_eq_some.mpr ⟨hfu, hu, rfl⟩
      exact h _ hsome (heq.symm.trans hsome)
    · intro h lp h1 h2
      obtain ⟨hfu, -, -⟩ := sohu_eq_some.mp h1
      obtain ⟨hfv, -, -⟩ := sohu_eq_some.mp h2
      exact h ⟨hfu, hfv, (sohu_eq_iff hu hv hfu hfv).mp (h1.trans h2.symm)⟩

/-- Two flv files of one host, in one directory, keep separate files. -/
theorem separate_files_flv :
    SeparateFiles (bytes "f.youku.com/v/1.flv?a") (bytes "f.youku.com/v/2.flv?b") :=
  (separate_files_iff _ _ (by decide) (by decide)).mpr ⟨by decide +kernel, by decide +kernel⟩

/-- A directory and a file name with `_` in its place share a file, under either encoder. -/
theorem shared_file :
    ¬ SeparateFiles (bytes "f.youku.com/a/b.flv") (bytes "f.youku.com/a_b.flv") ∧
    ¬ SeparateFiles (bytes "220.181.61.212/ipad?file=/1/b.mp4")
      (bytes "220.181.61.212/ipad?file=/1_b.mp4") := by
  refine ⟨fun h => ?_, fun h => ?_⟩
  · exact absurd (h.1 (bytes "f_youku_com/a_b.flv") (by decide +kernel) (by decide +kernel))
      (by decide +kernel)
  · exact absurd (h.2 (bytes "220_181_61_212/ipad_file=_1_b.mp4") (by decide +kernel) (by decide +kernel))
      (by decide +kernel)

end HotCache
