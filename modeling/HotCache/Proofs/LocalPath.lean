import HotCache.Spec.Url

/-! The url codec. The encoders are lossy and the decoder guesses, so there are two
results: encoding what the decoder returns gives the stored path back, and the exact urls
the decoder recovers. The loops are first read byte by byte (`encByte`, `decByte`, with the
mode `first` that ends at the first `/`); the one byte that the tag fix-up overwrites is
treated last. -/

namespace HotCache

open CStr

/-- What both encoders do to a byte other than `?`. -/
def encByte (first : Bool) (p : UInt8) : UInt8 :=
  if first ∧ p = ch '.' ∨ ¬ first ∧ p = ch '/' then ch '_' else p

def decByte (first : Bool) (p : UInt8) : UInt8 :=
  if p = ch '_' then (if first then ch '.' else ch '/') else p

def nextFirst (first : Bool) (p : UInt8) : Bool := first && p ≠ ch '/'

theorem defaultLoop_cons (first : Bool) (p : UInt8) (s : Bytes) :
    defaultLoop first (p :: s) =
      if p = ch '?' then [] else encByte first p :: defaultLoop (nextFirst first p) s := by
  cases first <;> simp only [defaultLoop, encByte, nextFirst] <;> split_ifs <;> simp_all +decide

theorem sohuLoop_cons (first : Bool) (p : UInt8) (s : Bytes) :
    sohuLoop first (p :: s) =
      (if p = ch '?' then ch '_' else encByte first p) :: sohuLoop (nextFirst first p) s := by
  cases first <;> simp only [sohuLoop, encByte, nextFirst] <;> split_ifs <;> simp_all +decide

theorem recoverLoop_cons (first : Bool) (p : UInt8) (s : Bytes) :
    recoverLoop (!first) (p :: s) = decByte first p :: recoverLoop (!nextFirst first p) s := by
  cases first <;> simp only [recoverLoop, decByte, nextFirst] <;> split_ifs <;> simp_all +decide

/-! Byte facts. -/

theorem nextFirst_encByte (first : Bool) (p : UInt8) :
    nextFirst first (encByte first p) = nextFirst first p := by
  cases first <;> simp only [encByte, nextFirst] <;> split_ifs <;> simp_all +decide

theorem nextFirst_decByte (first : Bool) (p : UInt8) :
    nextFirst first (decByte first p) = nextFirst first p := by
  cases first <;> simp only [decByte, nextFirst] <;> split_ifs <;> simp_all +decide

theorem encByte_decByte (first : Bool) (p : UInt8) :
    encByte first (decByte first (encByte first p)) = encByte first p := by
  cases first <;> simp only [encByte, decByte] <;> split_ifs <;> simp_all +decide

theorem decByte_encByte (first : Bool) (p : UInt8) :
    decByte first (encByte first p) = p ↔ p ≠ ch '_' := by
  cases first <;> simp only [encByte, decByte] <;> split_ifs <;> simp_all +decide

theorem decByte_ne (first : Bool) (p : UInt8) : decByte first p ≠ ch '_' := by
  cases first <;> simp only [decByte] <;> split_ifs <;> simp_all +decide

theorem decByte_encByte_eq_query (first : Bool) (p : UInt8) :
    decByte first (encByte first p) = ch '?' ↔ p = ch '?' := by
  cases first <;> simp only [encByte, decByte] <;> split_ifs <;> simp_all +decide

/-! The loops. -/

theorem defaultLoop_length_le (first : Bool) (u : Bytes) :
    (defaultLoop first u).length ≤ u.length := by
  induction u generalizing first with
  | nil => simp [defaultLoop]
  | cons p s ih =>
    have h := ih (nextFirst first p)
    rw [defaultLoop_cons]
    split_ifs <;> simp only [List.length_cons, List.length_nil] <;> omega

/-- The default encoder drops the query, so the path is shorter than the url. -/
theorem defaultLoop_query (a b : Bytes) (first : Bool) :
    (defaultLoop first (a ++ ch '?' :: b)).length < (a ++ ch '?' :: b).length := by
  induction a generalizing first with
  | nil => simp [defaultLoop_cons]
  | cons p a ih =>
    have h := ih (nextFirst first p)
    rw [List.cons_append, defaultLoop_cons]
    split_ifs <;> simp only [List.length_cons, List.length_nil] <;> omega

@[simp] theorem sohuLoop_length (first : Bool) (u : Bytes) :
    (sohuLoop first u).length = u.length := by
  induction u generalizing first with
  | nil => rfl
  | cons p s ih => simp [sohuLoop_cons, ih]

@[simp] theorem recoverLoop_length (meet : Bool) (lp : Bytes) :
    (recoverLoop meet lp).length = lp.length := by
  induction lp generalizing meet with
  | nil => rfl
  | cons p s ih =>
    rw [← Bool.not_not meet, recoverLoop_cons]
    simp [ih]

@[simp] theorem fixSohuTag_length (u : Bytes) : (fixSohuTag u).length = u.length := by
  unfold fixSohuTag
  cases h : strstr u sohuFileTag with
  | none => rfl
  | some p =>
    have := (strstr_suffix h).length_le
    simp only [List.length_append, List.length_take, List.length_set]
    omega

/-- Encoding undoes the decoding of an encoded path, in either mode. -/
theorem defaultLoop_recover (first : Bool) (u : Bytes) :
    defaultLoop first (recoverLoop (!first) (defaultLoop first u)) = defaultLoop first u := by
  induction u generalizing first with
  | nil => rfl
  | cons p s ih =>
    rw [defaultLoop_cons]
    split_ifs with hp
    · rfl
    · have hq : decByte first (encByte first p) ≠ ch '?' := (decByte_encByte_eq_query first p).not.mpr hp
      rw [recoverLoop_cons, defaultLoop_cons, if_neg hq, nextFirst_decByte, nextFirst_encByte,
        encByte_decByte, ih]

theorem recoverLoop_defaultLoop (first : Bool) (u : Bytes) :
    recoverLoop (!first) (defaultLoop first u) = u ↔ ch '_' ∉ u ∧ ch '?' ∉ u := by
  induction u generalizing first with
  | nil => simp [defaultLoop, recoverLoop]
  | cons p s ih =>
    rw [defaultLoop_cons]
    split_ifs with hp
    · simp [recoverLoop, hp]
    · rw [recoverLoop_cons, nextFirst_encByte, List.cons.injEq, decByte_encByte, ih]
      simp only [List.mem_cons, not_or, ne_comm (a := p), ne_eq]
      have hp' : ¬ ch '?' = p := fun he => hp he.symm
      tauto

/-- The url the decoder returns for a Sohu path, before the tag fix-up. -/
def sohuDecoded (first : Bool) (u : Bytes) : Bytes := recoverLoop (!first) (sohuLoop first u)

theorem sohuDecoded_cons (first : Bool) (p : UInt8) (s : Bytes) :
    sohuDecoded first (p :: s) =
      decByte first (if p = ch '?' then ch '_' else encByte first p) :: sohuDecoded (nextFirst first p) s := by
  unfold sohuDecoded
  rw [sohuLoop_cons, recoverLoop_cons]
  congr 3
  split_ifs with hp
  · subst hp; cases first <;> rfl
  · rw [nextFirst_encByte]

@[simp] theorem sohuDecoded_length (first : Bool) (u : Bytes) :
    (sohuDecoded first u).length = u.length := by
  simp [sohuDecoded]

theorem sohuDecoded_append (first : Bool) (p r : Bytes) :
    sohuDecoded first (p ++ r) = sohuDecoded first p ++ sohuDecoded (first && ch '/' ∉ p) r := by
  induction p generalizing first with
  | nil => simp [sohuDecoded, sohuLoop, recoverLoop]
  | cons a p ih =>
    rw [List.cons_append, sohuDecoded_cons, sohuDecoded_cons, ih, List.cons_append]
    simp [nextFirst, Bool.and_assoc, eq_comm]

theorem sohuLoop_sohuDecoded (first : Bool) (u : Bytes) :
    sohuLoop first (sohuDecoded first u) = sohuLoop first u := by
  induction u generalizing first with
  | nil => rfl
  | cons p s ih =>
    rw [sohuDecoded_cons, sohuLoop_cons, sohuLoop_cons, nextFirst_decByte]
    by_cases hp : p = ch '?'
    · subst hp
      have hm : nextFirst first (ch '_') = nextFirst first (ch '?') := by cases first <;> rfl
      simp only [if_true, hm, ih]
      cases first <;> simp +decide [encByte]
    · have hq : decByte first (encByte first p) ≠ ch '?' := (decByte_encByte_eq_query first p).not.mpr hp
      simp only [if_neg hp, if_neg hq, nextFirst_encByte, encByte_decByte, ih]

theorem query_notMem_sohuDecoded (first : Bool) (u : Bytes) : ch '?' ∉ sohuDecoded first u := by
  induction u generalizing first with
  | nil => simp [sohuDecoded, sohuLoop, recoverLoop]
  | cons p s ih =>
    rw [sohuDecoded_cons, List.mem_cons, not_or]
    refine ⟨?_, ih _⟩
    split_ifs with hp
    · cases first <;> decide
    · exact fun he => hp ((decByte_encByte_eq_query first p).mp he.symm)

theorem underscore_notMem_sohuDecoded (first : Bool) (u : Bytes) :
    ch '_' ∉ sohuDecoded first u := by
  induction u generalizing first with
  | nil => simp [sohuDecoded, sohuLoop, recoverLoop]
  | cons p s ih =>
    rw [sohuDecoded_cons, List.mem_cons, not_or]
    exact ⟨(decByte_ne first _).symm, ih _⟩

theorem sohuDecoded_eq_self (first : Bool) {u : Bytes} (h1 : ch '_' ∉ u) (h2 : ch '?' ∉ u) :
    sohuDecoded first u = u := by
  induction u generalizing first with
  | nil => rfl
  | cons p s ih =>
    simp only [List.mem_cons, not_or] at h1 h2
    rw [sohuDecoded_cons, ih _ h1.2 h2.2, if_neg (ne_comm.mp h2.1), (decByte_encByte first p).mpr (ne_comm.mp h1.1)]

theorem sohuLoop_append (first : Bool) (p r : Bytes) :
    sohuLoop first (p ++ r) = sohuLoop first p ++ sohuLoop (first && ch '/' ∉ p) r := by
  induction p generalizing first with
  | nil => simp [sohuLoop]
  | cons a p ih =>
    rw [List.cons_append, sohuLoop_cons, sohuLoop_cons, ih, List.cons_append]
    simp [nextFirst, Bool.and_assoc, eq_comm]

/-- Overwriting a later `/` by `?` does not change the Sohu path. -/
theorem sohuLoop_set_query {p r : Bytes} (hp : ch '/' ∈ p) (hr : sohuFileTag <+: r) :
    sohuLoop true (p ++ r.set 4 (ch '?')) = sohuLoop true (p ++ r) := by
  obtain ⟨b, rfl⟩ := hr
  rw [sohuLoop_append true p, sohuLoop_append true p]
  simp only [hp, not_true_eq_false, decide_false, Bool.and_false]
  rfl

theorem fixSohuTag_of_absent {u : Bytes} (h : ¬ sohuFileTag <:+: u) : fixSohuTag u = u := by
  rw [fixSohuTag, strstr_eq_none.mpr h]

theorem fixSohuTag_of_strstr {p r : Bytes} (h : strstr (p ++ r) sohuFileTag = some r) :
    fixSohuTag (p ++ r) = p ++ r.set 4 (ch '?') := by
  simp [fixSohuTag, h]

theorem recover_of_length_lt {lp : Bytes} (h : lp.length < SC_RES_LOCAL_PATH_MAX_LEN) :
    scResRecoverUrlFromLocalPath lp = some (fixSohuTag (recoverLoop false lp)) := by
  have : ¬ HTTP_URL_MAX_LEN ≤ lp.length := by
    simp only [SC_RES_LOCAL_PATH_MAX_LEN, HTTP_URL_MAX_LEN] at *
    omega
  simp [scResRecoverUrlFromLocalPath, this]

theorem default_eq_some {u lp : Bytes} {len : ℕ} :
    scResUrlToLocalPathDefault u len = some lp ↔ u.length < len ∧ defaultLoop true u = lp := by
  simp [scResUrlToLocalPathDefault]

theorem sohu_eq_some {u lp : Bytes} {len : ℕ} :
    scSohuFileUrlToLocalPath u len = some lp ↔
      bytes "?file=/" <:+: u ∧ u.length < len ∧ sohuLoop true u = lp := by
  rw [scSohuFileUrlToLocalPath, ← strstr_isSome]
  change _ ↔ scUrlIsSohuFileUrl u = true ∧ _
  cases scUrlIsSohuFileUrl u <;> simp

/-- The default encoder undoes the decoding of its paths, when no tag is decoded. -/
theorem default_recovered {u lp : Bytes} (hD : scResUrlToLocalPathDefault u SC_RES_LOCAL_PATH_MAX_LEN = some lp)
    (htag : ¬ sohuFileTag <:+: recoverLoop false lp) :
    ∃ v, scResRecoverUrlFromLocalPath lp = some v ∧
      scResUrlToLocalPathDefault v SC_RES_LOCAL_PATH_MAX_LEN = some lp := by
  obtain ⟨hlen, rfl⟩ := default_eq_some.mp hD
  have hlp := (defaultLoop_length_le true u).trans_lt hlen
  refine ⟨_, recover_of_length_lt hlp, default_eq_some.mpr ⟨by simpa using hlp, ?_⟩⟩
  rw [fixSohuTag_of_absent htag]
  exact defaultLoop_recover true u

theorem sohu_recovered {u lp : Bytes} (hS : scSohuFileUrlToLocalPath u SC_RES_LOCAL_PATH_MAX_LEN = some lp)
    (htag : ∃ pre post, recoverLoop false lp = pre ++ post ∧
      strstr (recoverLoop false lp) sohuFileTag = some post ∧ ch '/' ∈ pre) :
    ∃ v, scResRecoverUrlFromLocalPath lp = some v ∧
      scSohuFileUrlToLocalPath v SC_RES_LOCAL_PATH_MAX_LEN = some lp := by
  obtain ⟨-, hlen, rfl⟩ := sohu_eq_some.mp hS
  obtain ⟨pre, post, hsplit, hstr, hslash⟩ := htag
  have hlp : (sohuLoop true u).length < SC_RES_LOCAL_PATH_MAX_LEN := by simpa using hlen
  have hpost := strstr_starts hstr
  refine ⟨_, recover_of_length_lt hlp, sohu_eq_some.mpr ⟨?_, by simpa using hlp, ?_⟩⟩
  · rw [hsplit] at hstr ⊢
    rw [fixSohuTag_of_strstr hstr]
    obtain ⟨b, rfl⟩ := hpost
    exact ⟨pre ++ bytes "ipad", b, by rw [List.append_assoc, List.append_assoc]; rfl⟩
  · have hdec : sohuLoop true (pre ++ post) = sohuLoop true u := by
      rw [← hsplit]; exact sohuLoop_sohuDecoded true u
    rw [hsplit] at hstr ⊢
    rw [fixSohuTag_of_strstr hstr, sohuLoop_set_query hslash hpost, hdec]

/-- A path with such a tag has the mark by which the loader knows Sohu files. -/
theorem sohu_marked {u lp : Bytes} (hS : scSohuFileUrlToLocalPath u SC_RES_LOCAL_PATH_MAX_LEN = some lp)
    (htag : ∃ pre post, recoverLoop false lp = pre ++ post ∧
      strstr (recoverLoop false lp) sohuFileTag = some post ∧ ch '/' ∈ pre) : bytes "_file=_" <:+: lp := by
  obtain ⟨-, -, rfl⟩ := sohu_eq_some.mp hS
  obtain ⟨pre, post, hsplit, hstr, hslash⟩ := htag
  obtain ⟨b, rfl⟩ := strstr_starts hstr
  have hdec : sohuLoop true (pre ++ (sohuFileTag ++ b)) = sohuLoop true u := by
    rw [← hsplit]; exact sohuLoop_sohuDecoded true u
  rw [← hdec, sohuLoop_append]
  simp only [hslash, not_true_eq_false, decide_false, Bool.and_false]
  rw [sohuLoop_append]
  refine ⟨sohuLoop true pre ++ bytes "ipad", sohuLoop (false && ch '/' ∉ sohuFileTag) b, ?_⟩
  rw [List.append_assoc, List.append_assoc, ← List.append_assoc (bytes "ipad")]
  rfl

theorem encByte_kept {first : Bool} {p a : UInt8} (ha : a ≠ ch '_') (h : encByte first p = a) : p = a := by
  unfold encByte at h
  split_ifs at h
  · exact absurd h.symm ha
  · exact h

theorem prefix_of_defaultLoop {t u : Bytes} {first : Bool} (ht : ch '_' ∉ t) (h : t <+: defaultLoop first u) :
    t <+: u := by
  induction t generalizing u first with
  | nil => exact List.nil_prefix
  | cons a t ih =>
    simp only [List.mem_cons, not_or] at ht
    cases u with
    | nil => exact absurd h (by simp [defaultLoop])
    | cons p u =>
      rw [defaultLoop_cons] at h
      split_ifs at h
      · exact absurd h (by simp)
      · obtain ⟨hp, hrest⟩ := List.cons_prefix_cons.mp h
        rw [encByte_kept (ne_comm.mp ht.1) hp.symm]
        exact (List.prefix_cons_inj a).mpr (ih ht.2 hrest)

/-- Text without `_` in a path was in its url. -/
theorem infix_of_defaultLoop {t u : Bytes} {first : Bool} (ht : ch '_' ∉ t) (h : t <:+: defaultLoop first u) :
    t <:+: u := by
  induction u generalizing first with
  | nil => exact h
  | cons p u ih =>
    by_cases hpre : t <+: defaultLoop first (p :: u)
    · exact (prefix_of_defaultLoop ht hpre).isInfix
    · rw [defaultLoop_cons] at h hpre
      split_ifs at h hpre
      · exact absurd (List.infix_nil.mp h ▸ List.nil_prefix) hpre
      · rcases List.infix_cons_iff.mp h with h | h
        · exact absurd h hpre
        · exact (ih h).trans (List.suffix_cons p u).isInfix

/-- A url with one query that sits in a Sohu tag: `a ipad ? file=/ b`. -/
theorem tag_set_query (a b : Bytes) :
    a ++ (sohuFileTag ++ b).set 4 (ch '?') = (a ++ bytes "ipad") ++ ch '?' :: (bytes "file=/" ++ b) := by
  rw [List.append_assoc]; rfl

/-- The fix-up changes the byte at one index only. -/
theorem getElem?_append_set {a r : Bytes} {c : UInt8} {i k : ℕ} (hne : i ≠ a.length + k) :
    (a ++ r.set k c)[i]? = (a ++ r)[i]? := by
  rcases lt_or_ge i a.length with hi | hi
  · rw [List.getElem?_append_left hi, List.getElem?_append_left hi]
  · rw [List.getElem?_append_right hi, List.getElem?_append_right hi,
      List.getElem?_set_ne (by omega)]

theorem getElem?_append_set_self {a r : Bytes} {c : UInt8} {k : ℕ} (hk : k < r.length) :
    (a ++ r.set k c)[a.length + k]? = some c := by
  rw [List.getElem?_append_right (by omega)]
  simp [hk]

/-- Putting `?` into a tag creates no new tag. -/
theorem occursAt_of_set_query {a r : Bytes} {k : ℕ} (hr : 4 < r.length)
    (h : OccursAt (a ++ r.set 4 (ch '?')) sohuFileTag k) : OccursAt (a ++ r) sohuFileTag k := by
  rw [occursAt_iff] at h ⊢
  intro j hj
  rw [← h j hj]
  by_cases hkj : k + j = a.length + 4
  · -- the tag would have a `?` at offset `j`
    have hq := h j hj
    rw [hkj, getElem?_append_set_self hr] at hq
    exact absurd (List.mem_of_getElem? hq.symm) (by decide)
  · exact (getElem?_append_set hkj).symm

/-- Before its own tag, the decoded url has only the tags that the url with `?` has: a tag that
reached into the overwritten byte would put `l` where `ipad` has `p`. -/
theorem occursAt_set_query_of {a b : Bytes} {k : ℕ} (hk : k < a.length)
    (h : OccursAt (a ++ (sohuFileTag ++ b)) sohuFileTag k) :
    OccursAt (a ++ (sohuFileTag ++ b).set 4 (ch '?')) sohuFileTag k := by
  have hread : ∀ i < 11, (a ++ (sohuFileTag ++ b))[a.length + i]? = sohuFileTag[i]? := by
    intro i hi
    rw [List.getElem?_append_right (by omega), Nat.add_sub_cancel_left, List.getElem?_append_left hi]
  rw [occursAt_iff] at h ⊢
  intro j hj
  rw [← h j hj]
  by_cases hkj : k + j = a.length + 4
  · exfalso
    have hj11 : j < 11 := hj
    have h4 := h j hj
    rw [hkj, hread 4 (by omega)] at h4
    have hjten : j = 10 := by
      have hj4 : 4 < j := by omega
      interval_cases j <;> first | rfl | exact absurd h4 (by decide)
    subst hjten
    have h7 := h 7 (by decide)
    rw [show k + 7 = a.length + 1 by omega, hread 1 (by omega)] at h7
    exact absurd h7 (by decide)
  · exact getElem?_append_set hkj

def SohuRecoverable (u : Bytes) : Prop :=
  ch '_' ∉ u ∧ ∃ pre post, u = pre ++ ch '?' :: post ∧ ch '?' ∉ pre ∧ ch '?' ∉ post ∧ ch '/' ∈ pre ∧
    bytes "ipad" <:+ pre ∧ bytes "file=/" <+: post ∧
    ∀ k, k + 4 < pre.length → ¬ OccursAt u sohuFileTag k

theorem sohuRecoverable_of_fix {u : Bytes} (hq : ch '?' ∈ u)
    (h : fixSohuTag (sohuDecoded true u) = u) : SohuRecoverable u := by
  have hnq := query_notMem_sohuDecoded true u
  have hn_ := underscore_notMem_sohuDecoded true u
  have hsome : sohuFileTag <:+: sohuDecoded true u := by
    by_contra hno
    rw [fixSohuTag_of_absent hno] at h
    exact hnq (h.symm ▸ hq)
  obtain ⟨r, hr⟩ := Option.isSome_iff_exists.mp (strstr_isSome.mpr hsome)
  obtain ⟨a, hsplit, ⟨b, rfl⟩, hfirst⟩ := strstr_split hr
  rw [hsplit] at hr h hnq hn_
  rw [fixSohuTag_of_strstr hr] at h
  have hu := h.symm.trans (tag_set_query a b)
  have ha : ch '?' ∉ a ∧ ch '?' ∉ b := by simp_all
  have ha' : ch '_' ∉ a ∧ ch '_' ∉ b := by simp_all
  refine ⟨?_, a ++ bytes "ipad", bytes "file=/" ++ b, hu, ?_, ?_, ?_, ⟨a, rfl⟩, ⟨b, rfl⟩, ?_⟩
  · rw [hu]; simp +decide [ha']
  · simp +decide [ha]
  · simp +decide [ha]
  · -- before the first `/` the decoder writes `.` for the query, and the tag has `/` there
    by_contra hslash
    have hdec := congrArg (fun s => s[a.length + 4]?) hsplit
    rw [hu, sohuDecoded_append] at hdec
    simp only [hslash, not_false_eq_true, decide_true, Bool.and_true] at hdec
    rw [sohuDecoded_cons, List.getElem?_append_right (by simp; rfl),
      List.getElem?_append_right (by omega)] at hdec
    simp only [sohuDecoded_length, List.length_append, show (bytes "ipad").length = 4 from rfl,
      Nat.sub_self, if_true, List.getElem?_cons_zero, Nat.add_sub_cancel_left] at hdec
    exact absurd (Option.some.inj hdec) (by decide)
  · intro k hk hocc
    rw [List.length_append, show (bytes "ipad").length = 4 from rfl] at hk
    rw [← h] at hocc
    have hlen : 4 < (sohuFileTag ++ b).length := by
      rw [List.length_append, show sohuFileTag.length = 11 from rfl]; omega
    exact hfirst k (by omega) (hsplit ▸ occursAt_of_set_query hlen hocc)

theorem fix_of_sohuRecoverable {u : Bytes} (h : SohuRecoverable u) :
    fixSohuTag (sohuDecoded true u) = u := by
  obtain ⟨hn_, pre, post, rfl, hqpre, hqpost, hslash, ⟨a, rfl⟩, ⟨b, rfl⟩, hfirst⟩ := h
  have hpre_ : ch '_' ∉ a ++ bytes "ipad" := fun hm => hn_ (List.mem_append_left _ hm)
  have hpost_ : ch '_' ∉ bytes "file=/" ++ b :=
    fun hm => hn_ (List.mem_append_right _ (List.mem_cons_of_mem _ hm))
  have hdec : sohuDecoded true ((a ++ bytes "ipad") ++ ch '?' :: (bytes "file=/" ++ b)) =
      a ++ (sohuFileTag ++ b) := by
    rw [sohuDecoded_append, sohuDecoded_eq_self true hpre_ hqpre]
    simp only [hslash, not_true_eq_false, decide_false, Bool.and_false]
    rw [sohuDecoded_cons, show nextFirst false (ch '?') = false from rfl,
      sohuDecoded_eq_self false hpost_ hqpost, List.append_assoc]
    rfl
  have hstr : strstr (a ++ (sohuFileTag ++ b)) sohuFileTag = some (sohuFileTag ++ b) := by
    refine strstr_append ⟨b, rfl⟩ fun k hk hocc => ?_
    have := occursAt_set_query_of hk hocc
    rw [tag_set_query] at this
    refine hfirst k ?_ this
    rw [List.length_append, show (bytes "ipad").length = 4 from rfl]
    omega
  rw [hdec, fixSohuTag_of_strstr hstr, tag_set_query]

/-- Exactly which urls survive encoding and recovery. -/
theorem recover_domain (u : Bytes) (hlen : u.length < SC_RES_LOCAL_PATH_MAX_LEN) :
    ((scResUrlToLocalPathDefault u SC_RES_LOCAL_PATH_MAX_LEN).bind scResRecoverUrlFromLocalPath = some u ↔
      ch '_' ∉ u ∧ ch '?' ∉ u ∧ ¬ sohuFileTag <:+: u) ∧
    (scSohuFileUrlToLocalPath u SC_RES_LOCAL_PATH_MAX_LEN ≠ none →
      ((scSohuFileUrlToLocalPath u SC_RES_LOCAL_PATH_MAX_LEN).bind scResRecoverUrlFromLocalPath = some u ↔
        SohuRecoverable u)) := by
  refine ⟨?_, fun hS => ?_⟩
  · have hlp := (defaultLoop_length_le true u).trans_lt hlen
    rw [default_eq_some.mpr ⟨hlen, rfl⟩, Option.bind_some, recover_of_length_lt hlp, Option.some.injEq]
    have hiff := recoverLoop_defaultLoop true u
    rw [Bool.not_true] at hiff
    by_cases htag : sohuFileTag <:+: recoverLoop false (defaultLoop true u)
    · -- the fix-up writes a `?`, which the encoder would have cut off
      obtain ⟨r, hr⟩ := Option.isSome_iff_exists.mp (strstr_isSome.mpr htag)
      obtain ⟨a, hsplit, ⟨b, rfl⟩, -⟩ := strstr_split hr
      refine ⟨fun he => ?_, fun ⟨h1, h2, h3⟩ => absurd (hiff.mpr ⟨h1, h2⟩ ▸ htag) h3⟩
      exfalso
      have hl := congrArg List.length he
      rw [fixSohuTag_length, recoverLoop_length] at hl
      rw [hsplit] at hr he
      rw [fixSohuTag_of_strstr hr, tag_set_query] at he
      have hcut := defaultLoop_query (a ++ bytes "ipad") (bytes "file=/" ++ b) true
      rw [← he] at hl
      omega
    · rw [fixSohuTag_of_absent htag, hiff]
      refine ⟨fun ⟨h1, h2⟩ => ⟨h1, h2, ?_⟩, fun ⟨h1, h2, _⟩ => ⟨h1, h2⟩⟩
      rwa [hiff.mpr ⟨h1, h2⟩] at htag
  · obtain ⟨lp, hlp⟩ := Option.ne_none_iff_exists'.mp hS
    obtain ⟨hfile, -, rfl⟩ := sohu_eq_some.mp hlp
    rw [hlp, Option.bind_some, recover_of_length_lt (by simpa using hlen), Option.some.injEq]
    have hq : ch '?' ∈ u := hfile.subset (by decide)
    exact ⟨sohuRecoverable_of_fix hq, fix_of_sohuRecoverable⟩

theorem recover_domain_flv :
    (scResUrlToLocalPathDefault (bytes "101.226.245.141/youku/657F/0300.flv") SC_RES_LOCAL_PATH_MAX_LEN).bind
      scResRecoverUrlFromLocalPath = some (bytes "101.226.245.141/youku/657F/0300.flv") :=
  (recover_domain _ (by decide +kernel)).1.mpr ⟨by decide +kernel, by decide +kernel, by decide +kernel⟩

end HotCache
