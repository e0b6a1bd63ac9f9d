import HotCache.Spec.Fileid
import Mathlib.Data.List.TakeWhile

/-! `yk_get_fileid` undoes the encoding of file ids by positions in the shuffled alphabet. The
shuffle takes one character out of the alphabet in each round, so its output is a permutation. -/

namespace HotCache

open CStr

/-- The file id as the server sends it: the positions of its characters, a `*` after each. -/
def encodeFileid (sigma f : Bytes) : Bytes :=
  f.flatMap fun c => decimal (sigma.idxOf c) ++ [ch '*']

def upperHexDigit (d : ℕ) : UInt8 := (bytes "0123456789ABCDEF").getD d 0

/-- The seeds that seven digits can spell do not overflow. -/
theorem zf_spec {dt : ℕ} (h : dt ≤ 9999999) :
    ∃ dt' : ℕ, zf dt = some (dt', (dt' : ℚ) / 65536) ∧ dt' < 65536 := by
  refine ⟨(dt * 211 + 30031) % 65536, ?_, Nat.mod_lt _ (by decide)⟩
  rw [zf, if_neg (by unfold INT_MAX; omega)]

/-- The index is a rounded down quotient. -/
theorem index_eq (dt n : ℕ) : ⌊(dt : ℚ) / 65536 * n⌋.toNat = dt * n / 65536 := by
  have hq : (dt : ℚ) / 65536 * n = ((dt * n : ℕ) : ℚ) / ((65536 : ℕ) : ℚ) := by
    push_cast
    ring
  rw [hq, Rat.floor_natCast_div_natCast]
  rfl

theorem index_lt {dt n : ℕ} (h : dt < 65536) (hn : 0 < n) : dt * n / 65536 < n := by
  rw [Nat.div_lt_iff_lt_mul (by decide), Nat.mul_comm n]
  exact Nat.mul_lt_mul_of_pos_right h hn

theorem ranom8TRound_spec {seed : ℕ} {loc2 : Bytes} (h : seed ≤ 9999999) (hne : loc2 ≠ []) :
    ∃ c seed' loc2', ranom8TRound seed loc2 = some (c, seed', loc2') ∧ seed' ≤ 9999999 ∧
      (c :: loc2').Perm loc2 := by
  obtain ⟨dt, hzf, hdt⟩ := zf_spec h
  have hlt := index_lt hdt (List.length_pos_iff.mpr hne)
  refine ⟨loc2[dt * loc2.length / 65536], dt, _, ?_, by omega,
    (List.perm_cons_erase (List.getElem_mem hlt)).symm⟩
  simp only [ranom8TRound, hzf, Option.bind_eq_bind, Option.bind_some, index_eq,
    List.getElem?_eq_getElem hlt]
  rfl

theorem ranom8TLoop_perm {n seed : ℕ} {loc2 : Bytes} (h : seed ≤ 9999999) (hn : loc2.length = n) :
    ∃ out, ranom8TLoop n seed loc2 = some out ∧ out.Perm loc2 := by
  induction n generalizing seed loc2 with
  | zero =>
    obtain rfl := List.length_eq_zero_iff.mp hn
    exact ⟨[], rfl, .refl _⟩
  | succ n ih =>
    obtain ⟨c, seed', loc2', hround, hseed, hperm⟩ :=
      ranom8TRound_spec h (List.ne_nil_of_length_eq_add_one hn)
    obtain ⟨out, hloop, hout⟩ := ih hseed (by simpa [hn] using hperm.length_eq)
    refine ⟨c :: out, ?_, (hout.cons c).trans hperm⟩
    simp only [ranom8TLoop, hround, hloop, Option.bind_eq_bind, Option.bind_some]
    rfl

theorem ranom8T_perm {seed : ℕ} (h : seed ≤ 9999999) :
    ∃ sigma, ranom8T seed = some sigma ∧ sigma.Perm ykAlphabet :=
  ranom8TLoop_perm h rfl

section Encoding

variable {sigma f : Bytes}

theorem encodeFileid_length (hsigma : sigma.length ≤ 100) (hf : ∀ c ∈ f, c ∈ sigma) :
    (encodeFileid sigma f).length ≤ 3 * f.length := by
  induction f with
  | nil => simp [encodeFileid]
  | cons c f ih =>
    have hidx : sigma.idxOf c < 10 ^ 2 :=
      (List.idxOf_lt_length_of_mem (hf c (by simp))).trans_le hsigma
    have hlen := decimal_length_le (by decide) hidx
    have hrest := ih fun x hx => hf x (by simp [hx])
    simp only [encodeFileid, List.flatMap_cons, List.length_append, List.length_cons,
      List.length_nil] at hrest ⊢
    omega

theorem encodeFileid_tokens :
    tokens (ch '*') (encodeFileid sigma f) = f.map fun c => decimal (sigma.idxOf c) := by
  have heq : encodeFileid sigma f =
      (f.map fun c => decimal (sigma.idxOf c)).flatMap (· ++ [ch '*']) := by
    rw [encodeFileid, List.flatMap_map]
  rw [heq]
  refine tokens_flatMap fun t ht => ?_
  obtain ⟨c, -, rfl⟩ := List.mem_map.mp ht
  exact ⟨decimal_ne_nil _, fun hmem => absurd (digit_of_mem_decimal hmem) (by decide)⟩

theorem cgFun_encodeFileid (hsigma : sigma.length ≤ 100) (hlen : f.length = YK_FILEID_LEN)
    (hf : ∀ c ∈ f, c ∈ sigma) : cgFun (encodeFileid sigma f) sigma = some f := by
  have hlt : ∀ c ∈ f, sigma.idxOf c < sigma.length :=
    fun c hc => List.idxOf_lt_length_of_mem (hf c hc)
  have hbuf := encodeFileid_length hsigma hf
  have hidx : (f.map fun c => decimal (sigma.idxOf c)).mapM (fun t => atoi (t ++ [0])) =
      some (f.map fun c => (sigma.idxOf c : ℤ)) := by
    rw [List.mapM_map]
    refine mapM_eq_map fun c hc => atoi_decimal ?_
    have := hlt c hc
    omega
  have hback : (f.map fun c => (sigma.idxOf c : ℤ)).mapM
      (fun i => if i < 0 then none else sigma[i.toNat]?) = some f := by
    rw [List.mapM_map]
    refine (mapM_eq_map (g := id) fun c hc => ?_).trans (by simp)
    rw [Function.comp_apply, if_neg (Int.natCast_nonneg _).not_gt, Int.toNat_natCast,
      List.getElem?_eq_getElem (hlt c hc)]
    simp
  have hnil : f ≠ [] := by
    rintro rfl
    exact absurd hlen (by decide)
  unfold cgFun
  rw [if_neg (by unfold STREAM_FILE_IDS_LEN; unfold YK_FILEID_LEN at hlen; omega)]
  simp only [encodeFileid_tokens, hidx, Option.bind_eq_bind, List.map_eq_nil_iff, hnil,
    List.length_map, hlen, lt_irrefl, or_self, if_false, Option.bind_some, Nat.sub_self,
    List.replicate_zero, List.append_nil, hback]

end Encoding

theorem hexUpper_byte {v : ℕ} (h : v ≤ 255) :
    hexUpper v =
      if v < 16 then [upperHexDigit v] else [upperHexDigit (v / 16), upperHexDigit (v % 16)] := by
  have hdigit : ∀ d < 16, ch (Nat.digitChar d).toUpper = upperHexDigit d := by decide
  unfold hexUpper
  split_ifs with hv
  · simp [Nat.toDigits_of_lt_base hv, hdigit v hv]
  · have hhigh : v / 16 < 16 := by omega
    rw [Nat.toDigits_of_base_le (by decide) (by omega), Nat.toDigits_of_lt_base hhigh]
    simp [hdigit (v / 16) hhigh, hdigit (v % 16) (by omega)]

theorem hexUpper_padded {v : ℕ} (h : v ≤ 255) :
    (hexUpper v).length < 3 ∧
    (if (hexUpper v).length = 1 then ch '0' :: hexUpper v else hexUpper v) =
      [upperHexDigit (v / 16), upperHexDigit (v % 16)] := by
  rw [hexUpper_byte h]
  by_cases hv : v < 16
  · simp only [if_pos hv, Nat.div_eq_of_lt hv, Nat.mod_eq_of_lt hv]
    exact ⟨by simp, rfl⟩
  · simp [if_neg hv]

theorem upperHexDigit_ne_zero {d : ℕ} (h : d < 16) : upperHexDigit d ≠ 0 := by
  revert d
  decide

theorem cstr_eq_self {s : Bytes} (h : 0 ∉ s) : cstr s = s :=
  List.takeWhile_eq_self_iff.mpr (ne_of_notMem h)

/-- The decoder undoes the encoding for every seed of the server. -/
theorem ykGetFileid_decodes (seed : ℕ) (hseed : seed ≤ 9999999) :
    ∃ sigma, ranom8T seed = some sigma ∧ sigma.length = 68 ∧ sigma.Perm ykAlphabet ∧
      ∀ f : Bytes, f.length = YK_FILEID_LEN → (∀ c ∈ f, c ∈ sigma) → ∀ v ≤ 255,
        ykGetFileid (encodeFileid sigma f) v seed =
          some (true, (f.set 8 (upperHexDigit (v / 16))).set 9 (upperHexDigit (v % 16))) := by
  obtain ⟨sigma, hsigma, hperm⟩ := ranom8T_perm hseed
  have h68 : sigma.length = 68 := hperm.length_eq.trans (by decide)
  refine ⟨sigma, hsigma, h68, hperm, fun f hlen hf v hv => ?_⟩
  obtain ⟨hshort, hpad⟩ := hexUpper_padded hv
  have hnul : 0 ∉ (f.set 8 (upperHexDigit (v / 16))).set 9 (upperHexDigit (v % 16)) := by
    intro h0
    rcases List.mem_or_eq_of_mem_set h0 with h0 | h0
    · rcases List.mem_or_eq_of_mem_set h0 with h0 | h0
      · exact absurd (hperm.subset (hf 0 h0)) (by decide)
      · exact upperHexDigit_ne_zero (by omega) h0.symm
    · exact upperHexDigit_ne_zero (by omega) h0.symm
  simp only [ykGetFileid, hsigma, cgFun_encodeFileid (by omega) hlen hf, Option.bind_eq_bind,
    Option.bind_some, if_neg hshort.not_ge, hpad]
  simp only [List.getD_cons_zero, List.getD_cons_succ, cstr_eq_self hnul, List.length_set, hlen,
    lt_irrefl, if_false]
  rfl

/-- The id of the source's test data, as segment 10. -/
theorem ykGetFileid_decodes_1599 :
    ∃ sigma, ranom8T 1599 = some sigma ∧
      ykGetFileid (encodeFileid sigma
        (bytes "030002010052F96855C90C006CBE32420239E2-4558-5F64-A43A-B998975F6B4A")) 10 1599 =
      some (true, bytes "030002010A52F96855C90C006CBE32420239E2-4558-5F64-A43A-B998975F6B4A") := by
  obtain ⟨sigma, hsigma, -, hperm, hdec⟩ := ykGetFileid_decodes 1599 (by decide)
  have hmem : ∀ c ∈ bytes "030002010052F96855C90C006CBE32420239E2-4558-5F64-A43A-B998975F6B4A",
      c ∈ ykAlphabet := by decide +kernel
  have hset : ((bytes "030002010052F96855C90C006CBE32420239E2-4558-5F64-A43A-B998975F6B4A").set 8
        (upperHexDigit (10 / 16))).set 9 (upperHexDigit (10 % 16)) =
      bytes "030002010A52F96855C90C006CBE32420239E2-4558-5F64-A43A-B998975F6B4A" := by decide
  refine ⟨sigma, hsigma, ?_⟩
  rw [hdec _ (by decide) (fun c hc => hperm.symm.subset (hmem c hc)) 10 (by decide), hset]

end HotCache
