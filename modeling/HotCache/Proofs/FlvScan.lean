import HotCache.Proofs.Flv

/-! Where the scan for the keyframe table reads. `meta_data` has a fixed size, but the positions that are
read depend on sizes and counts of the file; the conditions under which all of them lie in the block
are stated on the bytes of the file here, stage by stage. -/

namespace HotCache

open CStr

section Tags

variable {buf : Bytes} {n i : ℕ}

/-- The bytes from `i` on up to the first that is not 0, `k` at most, lie in the block. -/
def ZerosInside (buf : Bytes) (i k : ℕ) : Prop :=
  ∀ j < k, (∀ l < j, buf[i + l]? = some 0) → i + j < buf.length

theorem zerosInside_succ {k : ℕ} :
    ZerosInside buf i (k + 1) ↔ i < buf.length ∧ (buf[i]? = some 0 → ZerosInside buf (i + 1) k) := by
  constructor
  · intro h
    refine ⟨by simpa using h 0 (by omega) (by simp), fun hi j hj hzeros => ?_⟩
    have hinside := h (j + 1) (by omega) fun l hl => ?_
    · omega
    · cases l with
      | zero => exact hi
      | succ l =>
        have hl' := hzeros l (by omega)
        rwa [show i + 1 + l = i + (l + 1) by omega] at hl'
  · rintro ⟨hlt, hrest⟩ j hj hzeros
    cases j with
    | zero => exact hlt
    | succ j =>
      have hinside := hrest (hzeros 0 (by omega)) j (by omega) fun l hl => ?_
      · omega
      · have hl' := hzeros (l + 1) (by omega)
        rwa [show i + (l + 1) = i + 1 + l by omega] at hl'

theorem zerosAt_eq_none_iff {k : ℕ} : zerosAt buf i k = none ↔ ¬ ZerosInside buf i k := by
  induction k generalizing i with
  | zero => exact iff_of_false (by simp [zerosAt]) (not_not_intro fun j hj => absurd hj (Nat.not_lt_zero j))
  | succ k ih =>
    rw [zerosInside_succ, zerosAt]
    rcases Nat.lt_or_ge i buf.length with hi | hi
    · rw [List.getElem?_eq_getElem hi]
      simp only [Option.bind_eq_bind, Option.bind_some, Option.some.injEq, hi, true_and]
      split_ifs with hzero
      · simp [hzero, ih]
      · simp [hzero]
    · rw [List.getElem?_eq_none hi]
      exact iff_of_true rfl fun h => by omega

theorem zerosInside_of_some {k : ℕ} {b : Bool} (h : zerosAt buf i k = some b) : ZerosInside buf i k := by
  by_contra hout
  rw [zerosAt_eq_none_iff.mpr hout] at h
  cases h

theorem zerosAt_eq_true_iff {k : ℕ} : zerosAt buf i k = some true ↔ ∀ j < k, buf[i + j]? = some 0 := by
  induction k generalizing i with
  | zero => exact iff_of_true rfl fun j hj => absurd hj (Nat.not_lt_zero j)
  | succ k ih =>
    rw [zerosAt]
    constructor
    · intro h j hj
      rcases hb : buf[i]? with _ | c
      · rw [hb] at h
        cases h
      · rw [hb] at h
        simp only [Option.bind_eq_bind, Option.bind_some] at h
        split_ifs at h with hzero
        · cases j with
          | zero => rw [Nat.add_zero, hb, hzero]
          | succ j =>
            have hj' := ih.mp h j (by omega)
            rwa [show i + 1 + j = i + (j + 1) by omega] at hj'
        · cases h
    · intro h
      have hb : buf[i]? = some 0 := h 0 (by omega)
      rw [hb]
      simp only [Option.bind_eq_bind, Option.bind_some, if_true]
      refine ih.mpr fun j hj => ?_
      rw [show i + 1 + j = i + (j + 1) by omega]
      exact h (j + 1) (by omega)

/-- A tag at `i` with `s` bytes of data: its stream id is 0, it starts in the `n` bytes read, and the size
behind it agrees. -/
structure TagAt (buf : Bytes) (n i s : ℕ) : Prop where
  byte : ∃ c, buf[i]? = some c ∧ isFlvTag c = true
  stream : ∀ j < 3, buf[i + 8 + j]? = some 0
  size : ∃ m, slice (i + 1) 3 buf = some m ∧ bigEndian m = s
  pos : 0 < s
  fits : i + s ≤ n
  behind : ∃ m, slice (i + s + 12) 3 buf = some m ∧ bigEndian m = s + 11

/-- What the loop looks at from `i` lies in the block: the stream id, if there is a tag byte, and the size
behind the data, if the stream id is 0 and the size in front is possible. -/
structure LookInside (buf : Bytes) (n i : ℕ) : Prop where
  byte : i < buf.length
  stream : ∀ c, buf[i]? = some c → isFlvTag c = true → ZerosInside buf (i + 8) 3
  behind : ∀ c, buf[i]? = some c → isFlvTag c = true → (∀ j < 3, buf[i + 8 + j]? = some 0) →
    ∀ m, slice (i + 1) 3 buf = some m → 0 < bigEndian m → i + bigEndian m ≤ n →
      i + bigEndian m + 15 ≤ buf.length

/-- The body of the loop behind a tag byte and a stream id of 0. -/
theorem flvTagAt_stream {c : UInt8} {m : Bytes} (hc : buf[i]? = some c) (htag : isFlvTag c = true)
    (hzeros : zerosAt buf (i + 8) 3 = some true) (hm : slice (i + 1) 3 buf = some m) :
    flvTagAt buf n i =
      if i + bigEndian m ≤ n ∧ 0 < bigEndian m then
        (slice (i + bigEndian m + 12) 3 buf).map fun m' =>
          if bigEndian m' = bigEndian m + 11 then some (bigEndian m) else none
      else some none := by
  rw [isFlvTag] at htag
  simp only [flvTagAt, hc, Option.bind_eq_bind, Option.bind_some, htag, if_true, hzeros, hm]
  split_ifs with hsize
  · cases slice (i + bigEndian m + 12) 3 buf with
    | none => rfl
    | some m' =>
      have heq : ((bigEndian m : ℤ) = (bigEndian m' : ℤ) - 11) ↔ bigEndian m' = bigEndian m + 11 := by omega
      simp only [Option.bind_some, Option.map_some, heq]
      rfl
  · rfl

/-- Behind a tag byte the stream id is looked at first. -/
theorem flvTagAt_zeros {c : UInt8} (hc : buf[i]? = some c) (htag : isFlvTag c = true) :
    (zerosAt buf (i + 8) 3 = none → flvTagAt buf n i = none) ∧
    (zerosAt buf (i + 8) 3 = some false → flvTagAt buf n i = some none) := by
  rw [isFlvTag] at htag
  constructor
  · intro hzeros
    simp only [flvTagAt, hc, Option.bind_eq_bind, Option.bind_some, htag, if_true, hzeros]
    rfl
  · intro hzeros
    simp only [flvTagAt, hc, Option.bind_eq_bind, Option.bind_some, htag, if_true, hzeros]
    rfl

theorem slice_of_zeros (h : ∀ j < 3, buf[i + 8 + j]? = some 0) : ∃ m, slice (i + 1) 3 buf = some m := by
  have hlast := (List.getElem?_eq_some_iff.mp (h 2 (by omega))).1
  exact slice_isSome (by omega)

theorem lookInside_other {c : UInt8} (hc : buf[i]? = some c) (htag : isFlvTag c = false) :
    LookInside buf n i := by
  have hno : ∀ d, buf[i]? = some d → isFlvTag d = true → False := by
    intro d hd hdtag
    obtain rfl := Option.some.inj (hc.symm.trans hd)
    rw [htag] at hdtag
    cases hdtag
  exact ⟨(List.getElem?_eq_some_iff.mp hc).1, fun d hd ht => absurd ht (hno d hd),
    fun d hd ht => absurd ht (hno d hd)⟩

/-- Behind a tag byte and a stream id of 0 only the size behind the data is left to look at. -/
theorem lookInside_stream_iff {c : UInt8} {m : Bytes} (hc : buf[i]? = some c) (htag : isFlvTag c = true)
    (hzeros : zerosAt buf (i + 8) 3 = some true) (hm : slice (i + 1) 3 buf = some m) :
    LookInside buf n i ↔ (i + bigEndian m ≤ n ∧ 0 < bigEndian m → i + bigEndian m + 15 ≤ buf.length) := by
  refine ⟨fun h hsize => ?_, fun h => ⟨(List.getElem?_eq_some_iff.mp hc).1, ?_, ?_⟩⟩
  · exact h.behind c hc htag (zerosAt_eq_true_iff.mp hzeros) m hm hsize.2 hsize.1
  · exact fun _ _ _ => zerosInside_of_some hzeros
  · intro _ _ _ _ m' hm' hpos hle
    obtain rfl := Option.some.inj (hm.symm.trans hm')
    exact h ⟨hle, hpos⟩

theorem flvTagAt_eq_none_iff : flvTagAt buf n i = none ↔ ¬ LookInside buf n i := by
  rcases hc : buf[i]? with _ | c
  · refine iff_of_true (by rw [flvTagAt, hc]; rfl) fun h => ?_
    have hout := List.getElem?_eq_none_iff.mp hc
    have hin := h.byte
    omega
  cases htag : isFlvTag c with
  | false =>
    rw [flvTagAt_other hc htag]
    exact iff_of_false (by simp) (not_not_intro (lookInside_other hc htag))
  | true =>
    obtain ⟨hnone, hfalse⟩ := flvTagAt_zeros (n := n) hc htag
    rcases hzeros : zerosAt buf (i + 8) 3 with _ | _ | _
    · rw [hnone hzeros]
      exact iff_of_true rfl fun h => zerosAt_eq_none_iff.mp hzeros (h.stream c hc htag)
    · rw [hfalse hzeros]
      have hi := (List.getElem?_eq_some_iff.mp hc).1
      have hinside := zerosInside_of_some hzeros
      refine iff_of_false (by simp) (not_not_intro ⟨hi, fun _ _ _ => hinside, fun _ _ _ hall => ?_⟩)
      rw [zerosAt_eq_true_iff.mpr hall] at hzeros
      cases hzeros
    · obtain ⟨m, hm⟩ := slice_of_zeros (zerosAt_eq_true_iff.mp hzeros)
      rw [flvTagAt_stream hc htag hzeros hm, lookInside_stream_iff hc htag hzeros hm]
      split_ifs with hsize
      · rw [Option.map_eq_none_iff, slice_eq_none_iff]
        refine ⟨fun hout h => ?_, fun h => ?_⟩
        · have hin := h hsize
          omega
        · by_contra hin
          exact h fun _ => by omega
      · exact iff_of_false (by simp) (not_not_intro fun h => absurd h hsize)

theorem flvTagAt_eq_tag_iff {s : ℕ} : flvTagAt buf n i = some (some s) ↔ TagAt buf n i s := by
  constructor
  · intro h
    rcases hc : buf[i]? with _ | c
    · rw [flvTagAt, hc] at h
      cases h
    cases htag : isFlvTag c with
    | false =>
      rw [flvTagAt_other hc htag] at h
      cases h
    | true =>
      obtain ⟨hnone, hfalse⟩ := flvTagAt_zeros (n := n) hc htag
      rcases hzeros : zerosAt buf (i + 8) 3 with _ | _ | _
      · rw [hnone hzeros] at h
        cases h
      · rw [hfalse hzeros] at h
        cases h
      · have hall := zerosAt_eq_true_iff.mp hzeros
        obtain ⟨m, hm⟩ := slice_of_zeros hall
        rw [flvTagAt_stream hc htag hzeros hm] at h
        split_ifs at h with hsize
        · obtain ⟨m', hm', heq⟩ := Option.map_eq_some_iff.mp h
          split_ifs at heq with hend
          obtain rfl := Option.some.inj heq
          exact ⟨⟨c, hc, htag⟩, hall, ⟨m, hm, rfl⟩, hsize.2, hsize.1, ⟨m', hm', hend⟩⟩
        · cases h
  · intro h
    obtain ⟨c, hc, htag⟩ := h.byte
    obtain ⟨m, hm, rfl⟩ := h.size
    obtain ⟨m', hm', hend⟩ := h.behind
    rw [flvTagAt_stream hc htag (zerosAt_eq_true_iff.mpr h.stream) hm, if_pos ⟨h.fits, h.pos⟩, hm',
      Option.map_some, if_pos hend]

/-- The loop passes over the places without a tag; the first other one decides it. -/
theorem findTagLoop_cases (buf : Bytes) (n k i : ℕ) :
    ((∀ l < k, flvTagAt buf n (i + l) = some none) ∧ findTagLoop buf n k i = some none) ∨
    ∃ j < k, (∀ l < j, flvTagAt buf n (i + l) = some none) ∧
      (flvTagAt buf n (i + j) = none ∧ findTagLoop buf n k i = none ∨
        ∃ s, flvTagAt buf n (i + j) = some (some s) ∧
          findTagLoop buf n k i = some (some (i + j, s + 11))) := by
  induction k generalizing i with
  | zero => exact .inl ⟨fun l hl => absurd hl (Nat.not_lt_zero l), rfl⟩
  | succ k ih =>
    have hnil : ∀ l < 0, flvTagAt buf n (i + l) = some none := fun l hl => absurd hl (Nat.not_lt_zero l)
    rcases htag : flvTagAt buf n i with _ | _ | s
    · refine .inr ⟨0, by omega, hnil, .inl ⟨htag, ?_⟩⟩
      rw [findTagLoop, htag]
      rfl
    · have hstep : findTagLoop buf n (k + 1) i = findTagLoop buf n k (i + 1) := by
        rw [findTagLoop, htag]
        rfl
      have hbefore : ∀ j, (∀ l < j, flvTagAt buf n (i + 1 + l) = some none) →
          ∀ l < j + 1, flvTagAt buf n (i + l) = some none := by
        intro j hj l hl
        cases l with
        | zero => exact htag
        | succ l =>
          rw [show i + (l + 1) = i + 1 + l by omega]
          exact hj l (by omega)
      rw [hstep]
      rcases ih (i + 1) with ⟨hall, hloop⟩ | ⟨j, hj, hall, hfirst⟩
      · exact .inl ⟨hbefore k hall, hloop⟩
      · refine .inr ⟨j + 1, by omega, hbefore j hall, ?_⟩
        rwa [show i + (j + 1) = i + 1 + j by omega]
    · refine .inr ⟨0, by omega, hnil, .inr ⟨s, htag, ?_⟩⟩
      rw [findTagLoop, htag]
      rfl

def ScanInside (buf : Bytes) (n : ℕ) : Prop :=
  ∀ i < n, (∀ j < i, ∀ s, ¬ TagAt buf n j s) → LookInside buf n i

structure FirstTag (buf : Bytes) (n t s : ℕ) : Prop where
  lt : t < n
  tag : TagAt buf n t s
  first : ∀ j < t, ∀ s, ¬ TagAt buf n j s

theorem FirstTag.unique {t s t' s' : ℕ} (h : FirstTag buf n t s) (h' : FirstTag buf n t' s') :
    t = t' ∧ s = s' := by
  have ht : t = t' := by
    rcases lt_trichotomy t t' with hlt | heq | hlt
    · exact absurd h.tag (h'.first t hlt s)
    · exact heq
    · exact absurd h'.tag (h.first t' hlt s')
  subst ht
  obtain ⟨m, hm, rfl⟩ := h.tag.size
  obtain ⟨m', hm', rfl⟩ := h'.tag.size
  rw [Option.some.inj (hm.symm.trans hm')]
  exact ⟨rfl, rfl⟩

theorem lookInside_of_some {o : Option ℕ} (h : flvTagAt buf n i = some o) : LookInside buf n i := by
  by_contra hout
  rw [flvTagAt_eq_none_iff.mpr hout] at h
  cases h

theorem not_tagAt (h : flvTagAt buf n i = some none) (s : ℕ) : ¬ TagAt buf n i s := by
  intro htag
  rw [flvTagAt_eq_tag_iff.mpr htag] at h
  cases h

/-- The three outcomes of the scan. -/
theorem findTagPos_cases (buf : Bytes) (n : ℕ) :
    (ScanInside buf n ∧ (∀ t s, ¬ FirstTag buf n t s) ∧ ngxHttpFlvKfFindTagPos buf n = some none) ∨
    (∃ t s, ScanInside buf n ∧ FirstTag buf n t s ∧ ngxHttpFlvKfFindTagPos buf n = some (some (t, s + 11))) ∨
    (¬ ScanInside buf n ∧ ngxHttpFlvKfFindTagPos buf n = none) := by
  have hcases := findTagLoop_cases buf n n 0
  simp only [Nat.zero_add] at hcases
  rcases hcases with ⟨hall, hloop⟩ | ⟨j, hj, hall, ⟨hout, hloop⟩ | ⟨s, htag, hloop⟩⟩
  · refine .inl ⟨fun i hi _ => lookInside_of_some (hall i hi), fun t s hfirst => ?_, hloop⟩
    exact not_tagAt (hall t hfirst.lt) s hfirst.tag
  · refine .inr (.inr ⟨fun hscan => ?_, hloop⟩)
    exact flvTagAt_eq_none_iff.mp hout (hscan j hj fun l hl s => not_tagAt (hall l hl) s)
  · have hfirst : FirstTag buf n j s :=
      ⟨hj, flvTagAt_eq_tag_iff.mp htag, fun l hl s => not_tagAt (hall l hl) s⟩
    refine .inr (.inl ⟨j, s, fun i hi hbefore => ?_, hfirst, hloop⟩)
    rcases lt_trichotomy i j with hlt | rfl | hgt
    · exact lookInside_of_some (hall i hlt)
    · exact lookInside_of_some htag
    · exact absurd hfirst.tag (hbefore j hgt s)

end Tags

section Keyframes

variable {buf : Bytes} {n t : ℕ}

structure Keyframes (buf : Bytes) (t kf : ℕ) : Prop where
  lt : t < kf
  occurs : OccursAt buf (bytes "keyframes") kf
  first : ∀ j, t < j → j < kf → ¬ OccursAt buf (bytes "keyframes") j

/-- `strstr` is stopped in the block: by `keyframes`, or behind every `k` by a NUL. -/
def KeyframesInside (buf : Bytes) (n t : ℕ) : Prop :=
  (∃ kf, Keyframes buf t kf) ∨ ∀ j, t < j → j < n → buf[j]? = some (ch 'k') → 0 ∈ buf.drop j

theorem Keyframes.unique {kf kf' : ℕ} (h : Keyframes buf t kf) (h' : Keyframes buf t kf') : kf = kf' := by
  rcases lt_trichotomy kf kf' with hlt | heq | hlt
  · exact absurd h.occurs (h'.first kf h.lt hlt)
  · exact heq
  · exact absurd h'.occurs (h.first kf' h'.lt hlt)

/-- A NUL follows every `k` between `i` and `stop`. -/
def NulBehind (buf : Bytes) (i stop : ℕ) : Prop :=
  ∀ j, i ≤ j → j < stop → buf[j]? = some (ch 'k') → 0 ∈ buf.drop j

theorem nulBehind_succ {i stop : ℕ} (hi : i < stop) :
    NulBehind buf i stop ↔ (buf[i]? = some (ch 'k') → 0 ∈ buf.drop i) ∧ NulBehind buf (i + 1) stop := by
  refine ⟨fun h => ⟨h i le_rfl hi, fun j hj => h j (by omega)⟩, fun h j hj hstop => ?_⟩
  rcases Nat.eq_or_lt_of_le hj with rfl | hlt
  · exact h.1
  · exact h.2 j hlt hstop

/-- Without the text every `k` is looked at, and `strstr` leaves the block at one that no NUL follows. -/
theorem findKeyframesLoop_absent (buf : Bytes) {k i : ℕ} (hk : i + k ≤ buf.length)
    (habsent : ∀ j, i ≤ j → ¬ OccursAt buf (bytes "keyframes") j) :
    NulBehind buf i (i + k) ∧ findKeyframesLoop buf k i = some none ∨
    ¬ NulBehind buf i (i + k) ∧ findKeyframesLoop buf k i = none := by
  induction k generalizing i with
  | zero => exact .inl ⟨fun j hj hj' => by omega, rfl⟩
  | succ k ih =>
    have hi : i < buf.length := by omega
    have hrest := ih (i := i + 1) (by omega) fun j hj => habsent j (by omega)
    rw [show i + 1 + k = i + (k + 1) by omega] at hrest
    rw [nulBehind_succ (show i < i + (k + 1) by omega), findKeyframesLoop, List.getElem?_eq_getElem hi]
    simp only [Option.bind_eq_bind, Option.bind_some, Option.some.injEq]
    split_ifs with hc
    · have hfind : find (bytes "keyframes") (buf.drop i) = if 0 ∈ buf.drop i then some none else none := by
        apply find_of_not_infix
        rintro ⟨a, b, hab⟩
        refine habsent (i + a.length) (by omega) ⟨b, ?_⟩
        rw [← List.drop_drop, ← hab, List.append_assoc, List.drop_left]
      rw [hfind]
      split_ifs with hnul
      · simpa [hc, hnul] using hrest
      · exact .inr ⟨fun h => hnul (h.1 hc), rfl⟩
    · simpa [hc] using hrest

/-- The three outcomes of the search, in a block that has only zeros behind the `n` bytes read. -/
theorem findKeyframes_cases (hn : n ≤ buf.length) (hpad : ∀ j c, n ≤ j → buf[j]? = some c → c = 0)
    (ht : t < n) :
    (KeyframesInside buf n t ∧ (∀ kf, ¬ Keyframes buf t kf) ∧
      findKeyframesLoop buf (n - (t + 1)) (t + 1) = some none) ∨
    (∃ kf, Keyframes buf t kf ∧ findKeyframesLoop buf (n - (t + 1)) (t + 1) = some (some kf)) ∨
    (¬ KeyframesInside buf n t ∧ findKeyframesLoop buf (n - (t + 1)) (t + 1) = none) := by
  classical
  by_cases hex : ∃ j, t < j ∧ OccursAt buf (bytes "keyframes") j
  · obtain ⟨hlt, hocc⟩ := Nat.find_spec hex
    have hfirst : ∀ j, t < j → j < Nat.find hex → ¬ OccursAt buf (bytes "keyframes") j :=
      fun j hj hlt' hocc' => Nat.find_min hex hlt' ⟨hj, hocc'⟩
    generalize Nat.find hex = kf at hlt hocc hfirst
    have hk : buf[kf]? = some (ch 'k') := by
      obtain ⟨r, hr⟩ := hocc
      rw [← List.head?_drop, ← hr]
      rfl
    have hkn : kf < n := by
      by_contra hge
      exact absurd (hpad kf _ (by omega) hk) (by decide)
    have hlen : (buf.take kf).length = kf := List.length_take_of_le (by omega)
    have hloop := findKeyframesLoop_first (a := buf.take kf) (i := t + 1) (k := n - (t + 1)) hocc
    rw [List.take_append_drop, hlen] at hloop
    exact .inr (.inl ⟨kf, ⟨hlt, hocc, hfirst⟩, hloop (fun j hj hj' => hfirst j hj hj') (by omega) (by omega)⟩)
  · have hnone : ∀ kf, ¬ Keyframes buf t kf := fun kf h => hex ⟨kf, h.lt, h.occurs⟩
    have hrange : t + 1 + (n - (t + 1)) = n := by omega
    have hcases := findKeyframesLoop_absent buf (i := t + 1) (k := n - (t + 1)) (by omega)
      fun j hj hocc => hex ⟨j, hj, hocc⟩
    rw [hrange] at hcases
    rcases hcases with ⟨hall, hloop⟩ | ⟨hnot, hloop⟩
    · exact .inl ⟨.inr hall, hnone, hloop⟩
    · refine .inr (.inr ⟨?_, hloop⟩)
      rintro (⟨kf, hkf⟩ | hall)
      · exact hnone kf hkf
      · exact hnot hall

end Keyframes

section Table

variable {toOff : ToOff} {buf : Bytes} {start : ℤ} {n kf : ℕ}

def TimesInside (toOff : ToOff) (buf : Bytes) (start : ℤ) (p total : ℕ) : Prop :=
  ∀ i < total, (∀ j < i, ∀ dd, slice (p + 9 * j + 1) 8 buf = some dd → toOff dd ≤ start) →
    p + 9 * i + 9 ≤ buf.length

/-- `i` times are not after `start`, and the next one is. -/
structure Passed (toOff : ToOff) (buf : Bytes) (start : ℤ) (p total i : ℕ) : Prop where
  le : i ≤ total
  before : ∀ j < i, ∃ dd, slice (p + 9 * j + 1) 8 buf = some dd ∧ toOff dd ≤ start
  after : i < total → ∃ dd, slice (p + 9 * i + 1) 8 buf = some dd ∧ start < toOff dd

theorem slot_succ (p j : ℕ) : p + 9 * (j + 1) + 1 = p + 9 + 9 * j + 1 := by ring

theorem timesInside_succ {p k : ℕ} {dd : Bytes} (hdd : slice (p + 1) 8 buf = some dd) :
    TimesInside toOff buf start p (k + 1) ↔ (toOff dd ≤ start → TimesInside toOff buf start (p + 9) k) := by
  have hlen : p + 9 ≤ buf.length := by
    by_contra hout
    rw [slice_eq_none_iff.mpr (by omega)] at hdd
    cases hdd
  refine ⟨fun h hearly j hj hbefore => ?_, fun h j hj hbefore => ?_⟩
  · have hslot := h (j + 1) (by omega) fun l hl d hd => ?_
    · omega
    · cases l with
      | zero =>
        obtain rfl := Option.some.inj (hdd.symm.trans hd)
        exact hearly
      | succ l =>
        rw [slot_succ] at hd
        exact hbefore l (by omega) d hd
  · cases j with
    | zero => exact hlen
    | succ j =>
      have hslot := h (hbefore 0 (by omega) dd hdd) j (by omega) fun l hl d hd => ?_
      · omega
      · rw [← slot_succ] at hd
        exact hbefore (l + 1) (by omega) d hd

theorem not_timesInside {p k : ℕ} (hdd : slice (p + 1) 8 buf = none) :
    ¬ TimesInside toOff buf start p (k + 1) := by
  intro h
  have hslot := h 0 (by omega) fun j hj => absurd hj (Nat.not_lt_zero j)
  have hout := slice_eq_none_iff.mp hdd
  omega

theorem Passed.succ {p k m : ℕ} {dd : Bytes} (hdd : slice (p + 1) 8 buf = some dd) (hearly : toOff dd ≤ start)
    (h : Passed toOff buf start (p + 9) k m) : Passed toOff buf start p (k + 1) (m + 1) where
  le := Nat.succ_le_succ h.le
  before := by
    intro j hj
    cases j with
    | zero => exact ⟨dd, hdd, hearly⟩
    | succ j =>
      rw [slot_succ]
      exact h.before j (by omega)
  after := by
    intro hlt
    rw [slot_succ]
    exact h.after (by omega)

theorem timesLoop_cases (toOff : ToOff) (buf : Bytes) (start : ℤ) (k i p : ℕ) :
    (TimesInside toOff buf start p k ∧ ∃ m, Passed toOff buf start p k m ∧
      timesLoop toOff buf start k i p = some (i + m)) ∨
    (¬ TimesInside toOff buf start p k ∧ timesLoop toOff buf start k i p = none) := by
  induction k generalizing i p with
  | zero =>
    refine .inl ⟨fun i hi => absurd hi (Nat.not_lt_zero i), 0, ⟨le_rfl, ?_, fun h => by omega⟩, rfl⟩
    exact fun j hj => absurd hj (Nat.not_lt_zero j)
  | succ k ih =>
    rcases hdd : slice (p + 1) 8 buf with _ | dd
    · exact .inr ⟨not_timesInside hdd, by rw [timesLoop, hdd]; rfl⟩
    rw [timesInside_succ hdd, timesLoop, hdd]
    simp only [Option.bind_eq_bind, Option.bind_some]
    split_ifs with hlate
    · refine .inl ⟨fun hearly => absurd hlate (not_lt.mpr hearly), 0, ⟨by omega, ?_, ?_⟩, rfl⟩
      · exact fun j hj => absurd hj (Nat.not_lt_zero j)
      · exact fun _ => ⟨dd, hdd, hlate⟩
    · have hearly := not_lt.mp hlate
      rcases ih (i + 1) (p + 9) with ⟨hin, m, hm, hloop⟩ | ⟨hnot, hloop⟩
      · refine .inl ⟨fun _ => hin, m + 1, hm.succ hdd hearly, ?_⟩
        rw [hloop, show i + 1 + m = i + (m + 1) by omega]
      · exact .inr ⟨fun h => hnot (h hearly), hloop⟩

def TableInside (toOff : ToOff) (buf : Bytes) (start : ℤ) (kf : ℕ) : Prop :=
  kf + 48 ≤ buf.length ∧ ∀ m, slice (kf + 26) 4 buf = some m →
    TimesInside toOff buf start (kf + 30 + 9 * bigEndian m + 12) (bigEndian m)

/-- The table sends `start` to `offset`: the position of the last keyframe that is not after it, or of the
first one; and its second position is `pre`. -/
def TableSeeks (toOff : ToOff) (buf : Bytes) (start : ℤ) (kf : ℕ) (offset pre : ℤ) : Prop :=
  ∃ m i o q, slice (kf + 26) 4 buf = some m ∧
    Passed toOff buf start (kf + 30 + 9 * bigEndian m + 12) (bigEndian m) i ∧
    slice (kf + 30 + 9 * (i - 1) + 1) 8 buf = some o ∧ toOff o = offset ∧
    slice (kf + 40) 8 buf = some q ∧ toOff q = pre

theorem Passed.unique {p total i i' : ℕ} (h : Passed toOff buf start p total i)
    (h' : Passed toOff buf start p total i') : i = i' := by
  have hle : ∀ {a b}, Passed toOff buf start p total a → Passed toOff buf start p total b → ¬ a < b := by
    intro a b ha hb hlt
    obtain ⟨dd, hdd, hearly⟩ := hb.before a hlt
    obtain ⟨dd', hdd', hlate⟩ := ha.after (by have := hb.le; omega)
    obtain rfl := Option.some.inj (hdd.symm.trans hdd')
    omega
  have h1 := hle h h'
  have h2 := hle h' h
  omega

theorem TableSeeks.unique {offset pre offset' pre' : ℤ} (h : TableSeeks toOff buf start kf offset pre)
    (h' : TableSeeks toOff buf start kf offset' pre') : offset = offset' ∧ pre = pre' := by
  obtain ⟨m, i, o, q, hm, hi, ho, rfl, hq, rfl⟩ := h
  obtain ⟨m', i', o', q', hm', hi', ho', rfl, hq', rfl⟩ := h'
  obtain rfl := Option.some.inj (hm.symm.trans hm')
  obtain rfl := hi.unique hi'
  obtain rfl := Option.some.inj (ho.symm.trans ho')
  obtain rfl := Option.some.inj (hq.symm.trans hq')
  exact ⟨rfl, rfl⟩

/-- `ngx_http_flv_kf_compute_offset` behind `kf_ptr`. -/
def seekTable (toOff : ToOff) (buf : Bytes) (start : ℤ) (kf : ℕ) : Option (Option (ℤ × ℤ)) := do
  let total := bigEndian (← slice (kf + 26) 4 buf)
  let i ← timesLoop toOff buf start total 0 (kf + 30 + 9 * total + 12)
  let offset ← slice (kf + 30 + 9 * (i - 1) + 1) 8 buf
  let pre ← slice (kf + 40) 8 buf
  return some (toOff offset, toOff pre)

theorem seekTable_cases (toOff : ToOff) (buf : Bytes) (start : ℤ) (kf : ℕ) :
    (TableInside toOff buf start kf ∧ ∃ offset pre, TableSeeks toOff buf start kf offset pre ∧
      seekTable toOff buf start kf = some (some (offset, pre))) ∨
    (¬ TableInside toOff buf start kf ∧ seekTable toOff buf start kf = none) := by
  unfold seekTable
  rcases hm : slice (kf + 26) 4 buf with _ | m
  · refine .inr ⟨fun h => ?_, rfl⟩
    have hout := slice_eq_none_iff.mp hm
    have hin := h.1
    omega
  simp only [Option.bind_eq_bind, Option.bind_some]
  rcases timesLoop_cases toOff buf start (bigEndian m) 0 (kf + 30 + 9 * bigEndian m + 12) with
    ⟨hin, i, hi, hloop⟩ | ⟨hnot, hloop⟩
  · rw [hloop, Nat.zero_add]
    simp only [Option.bind_some]
    by_cases hlen : kf + 48 ≤ buf.length
    · -- the positions stand in front of the times, of which the first one was read if there is any
      have hpos : kf + 30 + 9 * (i - 1) + 1 + 8 ≤ buf.length := by
        have hle := hi.le
        rcases Nat.eq_zero_or_pos (bigEndian m) with hzero | hpos
        · omega
        · have hfirst := hin 0 hpos fun j hj => absurd hj (Nat.not_lt_zero j)
          omega
      obtain ⟨o, ho⟩ := slice_isSome hpos
      obtain ⟨q, hq⟩ := slice_isSome (show kf + 40 + 8 ≤ buf.length by omega)
      refine .inl ⟨⟨hlen, fun m' hm' => ?_⟩, _, _, ⟨m, i, o, q, hm, hi, ho, rfl, hq, rfl⟩, ?_⟩
      · obtain rfl := Option.some.inj (hm.symm.trans hm')
        exact hin
      · rw [ho, hq]
        rfl
    · refine .inr ⟨fun h => hlen h.1, ?_⟩
      rw [slice_eq_none_iff.mpr (show buf.length < kf + 40 + 8 by omega)]
      cases slice (kf + 30 + 9 * (i - 1) + 1) 8 buf <;> rfl
  · refine .inr ⟨fun h => hnot (h.2 m hm), ?_⟩
    rw [hloop]
    rfl

end Table

section Seek

variable {toOff : ToOff} {buf : Bytes} {start : ℤ} {n : ℕ}

def SeekInside (toOff : ToOff) (buf : Bytes) (n : ℕ) (start : ℤ) : Prop :=
  ScanInside buf n ∧ ∀ t s, FirstTag buf n t s → buf[t]? = some 0x12 →
    KeyframesInside buf n t ∧ ∀ kf, Keyframes buf t kf → TableInside toOff buf start kf

/-- The first tag is a script tag with a keyframe table that sends `start` to `offset`. -/
def SeeksTo (toOff : ToOff) (buf : Bytes) (n : ℕ) (start offset pre : ℤ) : Prop :=
  ∃ t s kf, FirstTag buf n t s ∧ buf[t]? = some 0x12 ∧ Keyframes buf t kf ∧
    TableSeeks toOff buf start kf offset pre

theorem SeeksTo.unique {offset pre offset' pre' : ℤ} (h : SeeksTo toOff buf n start offset pre)
    (h' : SeeksTo toOff buf n start offset' pre') : offset = offset' ∧ pre = pre' := by
  obtain ⟨t, s, kf, htag, -, hkf, htable⟩ := h
  obtain ⟨t', s', kf', htag', -, hkf', htable'⟩ := h'
  obtain ⟨rfl, -⟩ := htag.unique htag'
  obtain rfl := hkf.unique hkf'
  exact htable.unique htable'

theorem computeOffset_script (toOff : ToOff) (start : ℤ) {t m : ℕ}
    (hpos : ngxHttpFlvKfFindTagPos buf n = some (some (t, m))) (hscript : buf[t]? = some 0x12) :
    ngxHttpFlvKfComputeOffset toOff buf n start =
      (findKeyframesLoop buf (n - (t + 1)) (t + 1)).bind fun kf? =>
        kf?.elim (some none) (seekTable toOff buf start) := by
  have hfirst : ∀ i : ℕ, (if i = 0 then 0 else i - 1) = i - 1 := by
    intro i
    split_ifs <;> omega
  have htag : ngxHttpFlvIsScriptTag 0x12 = true := rfl
  simp only [ngxHttpFlvKfComputeOffset, hpos, hscript, Option.bind_eq_bind, Option.bind_some, htag,
    Bool.not_true, Bool.false_eq_true, if_false, hfirst]
  congr 1
  funext kf?
  cases kf? with
  | none => rfl
  | some kf => rfl

theorem computeOffset_other {t m : ℕ} {c : UInt8} (hpos : ngxHttpFlvKfFindTagPos buf n = some (some (t, m)))
    (hc : buf[t]? = some c) (hscript : c ≠ 0x12) :
    ngxHttpFlvKfComputeOffset toOff buf n start = some none := by
  have htag : ngxHttpFlvIsScriptTag c = false := by simp [ngxHttpFlvIsScriptTag, hscript]
  simp only [ngxHttpFlvKfComputeOffset, hpos, hc, Option.bind_eq_bind, Option.bind_some, htag,
    Bool.not_false, if_true]
  rfl

/-- The three outcomes of `ngx_http_flv_kf_compute_offset`. -/
theorem computeOffset_cases (hn : n ≤ buf.length) (hpad : ∀ j c, n ≤ j → buf[j]? = some c → c = 0) :
    (SeekInside toOff buf n start ∧ (∀ offset pre, ¬ SeeksTo toOff buf n start offset pre) ∧
      ngxHttpFlvKfComputeOffset toOff buf n start = some none) ∨
    (∃ offset pre, SeekInside toOff buf n start ∧ SeeksTo toOff buf n start offset pre ∧
      ngxHttpFlvKfComputeOffset toOff buf n start = some (some (offset, pre))) ∨
    (¬ SeekInside toOff buf n start ∧ ngxHttpFlvKfComputeOffset toOff buf n start = none) := by
  rcases findTagPos_cases buf n with ⟨hscan, hno, hpos⟩ | ⟨t, s, hscan, hfirst, hpos⟩ | ⟨hnot, hpos⟩
  · refine .inl ⟨⟨hscan, fun t s h => absurd h (hno t s)⟩, ?_, ?_⟩
    · rintro offset pre ⟨t, s, -, h, -⟩
      exact hno t s h
    · rw [ngxHttpFlvKfComputeOffset, hpos]
      rfl
  · obtain ⟨c, hc, -⟩ := hfirst.tag.byte
    by_cases hscript : c = 0x12
    · subst hscript
      have hstage := computeOffset_script toOff start hpos hc
      have hinside : SeekInside toOff buf n start ↔
          KeyframesInside buf n t ∧ ∀ kf, Keyframes buf t kf → TableInside toOff buf start kf := by
        refine ⟨fun h => h.2 t s hfirst hc, fun h => ⟨hscan, fun t' s' hfirst' _ => ?_⟩⟩
        obtain ⟨rfl, -⟩ := hfirst.unique hfirst'
        exact h
      rcases findKeyframes_cases hn hpad hfirst.lt with ⟨hkf, hno, hloop⟩ | ⟨kf, hkf, hloop⟩ | ⟨hnot, hloop⟩
      · rw [hloop] at hstage
        refine .inl ⟨hinside.mpr ⟨hkf, fun kf h => absurd h (hno kf)⟩, ?_, hstage⟩
        rintro offset pre ⟨t', s', kf, hfirst', -, hkf', -⟩
        obtain ⟨rfl, -⟩ := hfirst.unique hfirst'
        exact hno kf hkf'
      · rw [hloop] at hstage
        rcases seekTable_cases toOff buf start kf with ⟨hin, offset, pre, hseeks, htable⟩ | ⟨hnot, htable⟩
        · refine .inr (.inl ⟨offset, pre, hinside.mpr ⟨.inl ⟨kf, hkf⟩, fun kf' hkf' => ?_⟩,
            ⟨t, s, kf, hfirst, hc, hkf, hseeks⟩, hstage.trans htable⟩)
          obtain rfl := hkf.unique hkf'
          exact hin
        · exact .inr (.inr ⟨fun h => hnot ((hinside.mp h).2 kf hkf), hstage.trans htable⟩)
      · rw [hloop] at hstage
        exact .inr (.inr ⟨fun h => hnot (hinside.mp h).1, hstage⟩)
    · have hother : ∀ t' s', FirstTag buf n t' s' → buf[t']? ≠ some 0x12 := by
        intro t' s' hfirst' hc'
        obtain ⟨rfl, -⟩ := hfirst.unique hfirst'
        exact hscript (Option.some.inj (hc.symm.trans hc'))
      refine .inl ⟨⟨hscan, fun t' s' h hc' => absurd hc' (hother t' s' h)⟩, ?_,
        computeOffset_other hpos hc hscript⟩
      rintro offset pre ⟨t', s', -, hfirst', hc', -⟩
      exact hother t' s' hfirst' hc'
  · refine .inr (.inr ⟨fun h => hnot h.1, ?_⟩)
    rw [ngxHttpFlvKfComputeOffset, hpos]
    rfl

theorem metaData_length {data : Bytes} (h : data.length ≤ FLV_METADATA_READ_LEN) :
    (metaData data).length = FLV_METADATA_READ_LEN := by
  rw [metaData, List.length_append, List.length_replicate]
  omega

theorem metaData_pad (data : Bytes) (j : ℕ) (c : UInt8) (hj : data.length ≤ j)
    (hc : (metaData data)[j]? = some c) : c = 0 := by
  rw [metaData, List.getElem?_append_right hj] at hc
  exact List.eq_of_mem_replicate (List.mem_of_getElem? hc)

def readData (file : Bytes) : Bytes := file.take FLV_METADATA_READ_LEN

theorem timeToOffset_cases (toOff : ToOff) (file : Bytes) (start : ℤ) :
    (SeekInside toOff (metaData (readData file)) (readData file).length start ∧
      (∀ offset pre, ¬ SeeksTo toOff (metaData (readData file)) (readData file).length start offset pre) ∧
      ngxHttpFlvTimeToOffset toOff file start = some none) ∨
    (∃ offset pre, SeekInside toOff (metaData (readData file)) (readData file).length start ∧
      SeeksTo toOff (metaData (readData file)) (readData file).length start offset pre ∧
      ngxHttpFlvTimeToOffset toOff file start = some (some (offset, pre))) ∨
    (¬ SeekInside toOff (metaData (readData file)) (readData file).length start ∧
      ngxHttpFlvTimeToOffset toOff file start = none) := by
  have hle : (readData file).length ≤ FLV_METADATA_READ_LEN := List.length_take_le _ _
  exact computeOffset_cases (by rw [metaData_length hle]; exact hle) (metaData_pad (readData file))

end Seek

/-- The scan of a file stays in `meta_data` exactly when the places it looks at do: behind a tag byte, the
stream id and the size behind the data, at every place before the first tag; if that is a script tag,
`strstr` from every `k`; and the table of keyframes up to the last time that is read. -/
theorem flv_scan_inside_iff (toOff : ToOff) (file : Bytes) (start : ℤ) :
    (ngxHttpFlvTimeToOffset toOff file start).isSome = true ↔
      SeekInside toOff (metaData (readData file)) (readData file).length start := by
  rcases timeToOffset_cases toOff file start with ⟨hin, -, h⟩ | ⟨offset, pre, hin, -, h⟩ | ⟨hnot, h⟩
  · exact iff_of_true (by rw [h]; rfl) hin
  · exact iff_of_true (by rw [h]; rfl) hin
  · exact iff_of_false (by rw [h]; simp) hnot

/-- A script tag that announces `2 ^ 32 - 1` keyframes. -/
def hugeTable : Bytes :=
  bytes "FLV" ++ [1, 5, 0, 0, 0, 9, 0, 0, 0, 0] ++ ([0x12, 0, 0, 30, 0, 0, 0, 0, 0, 0, 0] ++
    (ScriptData.label ++ ([0xFF, 0xFF, 0xFF, 0xFF] ++ [0, 0, 0, 41])))

theorem flv_scan_leaves : ¬ (ngxHttpFlvTimeToOffset sampleToOff hugeTable 5).isSome = true := by
  decide +kernel

end HotCache
