import HotCache.Spec.Shuffle
import HotCache.Proofs.Fileid

/-! The shuffle of `ranom8T` on its own buffers. What stands in `output_str` and what is left in `_loc2_`
are a permutation of the alphabet after every round, so each key occurs once, and `del_key_in_str`
takes out the character at the index that was drawn. -/

namespace HotCache

open CStr Buffer Double

section Numbers

theorem zfDouble_eq (dt : ℕ) : zfDouble dt = zf dt := by
  unfold zfDouble zf
  split_ifs
  · rfl
  · have hlt : (dt * 211 + 30031) % 65536 < 65536 := Nat.mod_lt _ (by decide)
    generalize (dt * 211 + 30031) % 65536 = d at hlt
    have hsize : toDouble 65536 = 2 ^ 16 := by
      have h := toDouble_natCast (n := 65536) (by decide)
      norm_num at h ⊢
      exact h
    have hscale : (65536 : ℚ) = 2 ^ 16 := by norm_num
    dsimp only
    rw [toDouble_natCast (by omega), hsize, toDouble_div 16 (by omega) (by decide), hscale]

theorem scaled_exact {dt n : ℕ} (hdt : dt < 65536) (hn : n < 2 ^ 37) :
    truncate (toDouble ((dt : ℚ) / 65536 * toDouble n)) = (dt * n / 65536 : ℕ) := by
  have hprod : dt * n < 2 ^ 53 := by
    calc dt * n < 65536 * 2 ^ 37 := Nat.mul_lt_mul'' hdt hn
      _ = 2 ^ 53 := by norm_num
  have hq : (dt : ℚ) / 65536 * n = ((dt * n : ℕ) : ℚ) / 2 ^ 16 := by
    push_cast
    ring
  have hnonneg : (0 : ℚ) ≤ (dt : ℚ) / 65536 * n := by positivity
  rw [toDouble_natCast (by omega), hq, toDouble_div 16 hprod (by decide), ← hq, truncate_of_nonneg hnonneg]
  have hfloor := index_eq dt n
  have hfloor_nonneg := Int.floor_nonneg.mpr hnonneg
  omega

end Numbers

section DelKey

variable {b : Buf} {s t : Bytes} {key : UInt8} {i k n : ℕ}

/-- The first loop stops at the first `key`, or at the terminator. -/
theorem delKeyFind_eq (hat : b.At i (t ++ [0])) (hk : t.length < k) (hnul : (0 : UInt8) ∉ t) :
    delKeyFind b key k i = some (i + t.idxOf key) := by
  induction t generalizing i k with
  | nil =>
    obtain ⟨k, rfl⟩ := Nat.exists_eq_succ_of_ne_zero (Nat.ne_of_gt hk)
    have hend : b.byte i = 0 := (at_cons.mp hat).1
    rw [delKeyFind, if_neg (by simp [hend])]
    rfl
  | cons x t ih =>
    obtain ⟨k, rfl⟩ := Nat.exists_eq_succ_of_ne_zero (Nat.ne_of_gt ((Nat.zero_le _).trans_lt hk))
    obtain ⟨hx, hrest⟩ := at_cons.mp hat
    simp only [List.mem_cons, not_or] at hnul
    rw [delKeyFind, hx]
    by_cases hkey : x = key
    · rw [if_neg (by simp [hkey]), hkey, List.idxOf_cons_self, Nat.add_zero]
    · rw [if_pos ⟨hkey, Ne.symm hnul.1⟩, List.idxOf_cons_ne _ hkey]
      have hnext := ih (i := i + 1) (k := k) hrest (by simpa using hk) hnul.2
      rw [hnext]
      congr 1
      omega

/-- The second loop copies each byte over the one in front of it, up to the terminator. -/
theorem delKeyShift_eq (hat : b.At i (t ++ [0])) (hk : t.length < k) (hnul : (0 : UInt8) ∉ t) :
    ∃ r, delKeyShift k i b = some (i + t.length, r) ∧
      r.read (i + t.length) = b.read i ++ (t ++ [0]).tail ∧
      (b.Inside n → i + t.length ≤ n → r.Inside n) := by
  induction t generalizing b i k with
  | nil =>
    obtain ⟨k, rfl⟩ := Nat.exists_eq_succ_of_ne_zero (Nat.ne_of_gt hk)
    have hend : b.byte i = 0 := (at_cons.mp hat).1
    refine ⟨b, ?_, by simp, fun hin _ => hin⟩
    rw [delKeyShift, if_neg (by simp [hend])]
    rfl
  | cons x t ih =>
    obtain ⟨k, rfl⟩ := Nat.exists_eq_succ_of_ne_zero (Nat.ne_of_gt ((Nat.zero_le _).trans_lt hk))
    obtain ⟨hx, hrest⟩ := at_cons.mp hat
    simp only [List.mem_cons, not_or] at hnul
    have hnext : b.byte (i + 1) :: (t ++ [0]).tail = t ++ [0] := by
      cases t with
      | nil => rw [(at_cons.mp hrest).1]; rfl
      | cons y t => rw [(at_cons.mp hrest).1]; rfl
    have hbehind := hrest.put (x := b.byte (i + 1)) (show (i : ℤ) < i + 1 by omega)
    obtain ⟨r, hr, hread, hin⟩ := ih (i := i + 1) (k := k) hbehind (by simpa using hk) hnul.2
    have hsum : i + (x :: t).length = i + 1 + t.length := by
      rw [List.length_cons]
      omega
    rw [delKeyShift, hx, if_pos (Ne.symm hnul.1), hr, hsum]
    refine ⟨r, rfl, ?_, fun hinside hle => ?_⟩
    · rw [hread, read_put, List.append_assoc, List.singleton_append, hnext]
      rfl
    · have hput : (b.put i (b.byte (i + 1))).Inside n :=
        hinside.putAll (s := [b.byte (i + 1)]) (by omega) (by simp; omega)
      exact hin hput hle

/-- `del_key_in_str` in its buffer. -/
theorem delKeyInStrInto_holds (key : UInt8) (h : b.Holds s) (hnul : (0 : UInt8) ∉ s) (hn : s.length < n) :
    ∃ r, delKeyInStrInto n b key = some r ∧ r.Holds (delKeyInStr s key) ∧ (b.Inside n → r.Inside n) := by
  have hidx : s.idxOf key ≤ s.length := List.idxOf_le_length
  have hfind : delKeyFind b key n 0 = some (s.idxOf key) := by
    rw [delKeyFind_eq (by simpa using h.at_zero) hn hnul, Nat.zero_add]
  have hat : b.At (s.idxOf key) (s.drop (s.idxOf key) ++ [0]) := by
    have hdrop := h.at_zero.drop (s.idxOf key)
    rwa [zero_add, List.drop_append_of_le_length hidx] at hdrop
  obtain ⟨r, hr, hread, hin⟩ := delKeyShift_eq (n := n) (k := n - s.idxOf key) hat
    (by rw [List.length_drop]; omega) fun hmem => hnul (List.mem_of_mem_drop hmem)
  have hlast : s.idxOf key + (s.drop (s.idxOf key)).length = s.length := by
    rw [List.length_drop]
    omega
  rw [hlast] at hr hread hin
  refine ⟨r.put s.length 0, by simp [delKeyInStrInto, hfind, hr], ?_, fun hinside => ?_⟩
  · obtain ⟨u, hu⟩ : ∃ u, (s.drop (s.idxOf key) ++ [0]).tail ++ [0] = s.drop (s.idxOf key + 1) ++ 0 :: u := by
      rw [← List.tail_drop]
      cases s.drop (s.idxOf key) with
      | nil => exact ⟨[], rfl⟩
      | cons x t => exact ⟨[0], by simp⟩
    refine holds_of_read (n := s.length + 1) (t := u) ?_
    rw [read_put, hread, h.read_take hidx, List.append_assoc, hu, ← List.append_assoc,
      ← List.eraseIdx_eq_take_drop_succ, List.eraseIdx_idxOf_eq_erase, delKeyInStr]
  · exact (hin hinside (by omega)).putAll (s := [0]) (by omega) (by simp; omega)

end DelKey

/-- In a string without repetitions the key stands only at its index. -/
theorem delKeyInStr_getElem {rest : Bytes} {i : ℕ} (hnodup : rest.Nodup) (hlt : i < rest.length) :
    delKeyInStr rest rest[i] = rest.eraseIdx i := by
  rw [delKeyInStr, List.erase_eq_eraseIdx_of_idxOf (hnodup.idxOf_getElem i hlt)]

/-- After a number of rounds `out` stands in `output_str`, and `rest` is left in `_loc2_`. -/
structure Shuffling (seed : ℕ) (s : Ranom8T) (out rest : Bytes) : Prop where
  seed_le : s.seed ≤ 9999999
  left : s.loc2.Holds rest
  loc5 : s.loc5 = out.length
  written : s.outputStr.read out.length = out
  perm : (out ++ rest).Perm ykAlphabet
  loc2_inside : s.loc2.Inside LOC2_LEN
  output_inside : s.outputStr.Inside PROCESSED_STR_LEN
  refines : ranom8T seed = (ranom8TLoop rest.length s.seed rest).map (out ++ ·)

/-- A round from `s` to `s'` with `rest` left: nothing overflows, the index is the rounded down quotient and
in the string, and the character at the index goes from `_loc2_` to `output_str`. -/
structure Draws (s s' : Ranom8T) (rest : Bytes) : Prop where
  left : s.loc2.Holds rest
  strlen : s.loc2.strlen LOC2_LEN = rest.length
  product : s.seed * 211 + 30031 ≤ INT_MAX
  seed : s'.seed = (s.seed * 211 + 30031) % 65536
  loc7 : s.loc7 = some (s'.seed, ((s'.seed * rest.length / 65536 : ℕ) : ℤ))
  lt : s'.seed * rest.length / 65536 < rest.length
  removed : s'.loc2.Holds (rest.eraseIdx (s'.seed * rest.length / 65536))
  moved : ∀ c, rest[s'.seed * rest.length / 65536]? = some c → s'.outputStr = s.outputStr.put s.loc5 c

theorem zf_value {dt : ℕ} (h : dt * 211 + 30031 ≤ INT_MAX) :
    zf dt = some ((dt * 211 + 30031) % 65536, (((dt * 211 + 30031) % 65536 : ℕ) : ℚ) / 65536) := by
  rw [zf, if_neg (not_lt.mpr h)]

theorem ykAlphabet_length : ykAlphabet.length = 68 := by decide

section Rounds

variable {seed : ℕ} {s : Ranom8T} {out rest : Bytes}

theorem Shuffling.lengths (h : Shuffling seed s out rest) : out.length + rest.length = 68 := by
  rw [← List.length_append, h.perm.length_eq, ykAlphabet_length]

theorem Shuffling.nul (h : Shuffling seed s out rest) : (0 : UInt8) ∉ rest := fun hmem =>
  absurd (h.perm.subset (List.mem_append_right out hmem)) (by decide)

theorem Shuffling.nodup (h : Shuffling seed s out rest) : rest.Nodup := by
  have hall : ykAlphabet.Nodup := by decide +kernel
  exact (List.nodup_append.mp (h.perm.nodup_iff.mpr hall)).2.1

/-- The loop over lists, a round further. -/
theorem ranom8TLoop_round {dt seed' : ℕ} {c : UInt8} {rest' : Bytes}
    (hround : ranom8TRound dt rest = some (c, seed', rest')) (hlen : rest.length = rest'.length + 1) :
    (ranom8TLoop rest.length dt rest).map (out ++ ·) =
      (ranom8TLoop rest'.length seed' rest').map (out ++ [c] ++ ·) := by
  rw [hlen, ranom8TLoop, hround]
  simp only [Option.bind_eq_bind, Option.bind_some]
  cases ranom8TLoop rest'.length seed' rest' with
  | none => rfl
  | some l =>
    have happend : out ++ c :: l = out ++ [c] ++ l := List.append_cons ..
    exact congrArg some happend

/-- A round on lists takes the character at the rounded down quotient. -/
theorem ranom8TRound_draw {dt d i : ℕ} (hzf : zf dt = some (d, (d : ℚ) / 65536))
    (hi : d * rest.length / 65536 = i) (hlt : i < rest.length) (hnodup : rest.Nodup) :
    ranom8TRound dt rest = some (rest[i], d, rest.eraseIdx i) := by
  simp only [ranom8TRound, hzf, Option.bind_eq_bind, Option.bind_some, index_eq, hi,
    List.getElem?_eq_getElem hlt, delKeyInStr_getElem hnodup hlt]
  rfl

/-- The index is computed without rounding. -/
theorem Ranom8T.loc7_eq {d i : ℕ} (hzf : zf s.seed = some (d, (d : ℚ) / 65536)) (hd : d < 65536)
    (hstrlen : s.loc2.strlen LOC2_LEN = rest.length) (hlen : rest.length < 2 ^ 37)
    (hi : d * rest.length / 65536 = i) : s.loc7 = some (d, (i : ℤ)) := by
  simp only [Ranom8T.loc7, zfDouble_eq, hzf, hstrlen, Option.bind_eq_bind, Option.bind_some,
    scaled_exact hd hlen, hi]
  rfl

/-- The round on the buffers: the character goes to `output_str`, and out of `_loc2_`. -/
theorem Shuffling.round_eq (h : Shuffling seed s out rest) {d i : ℕ} (hloc7 : s.loc7 = some (d, (i : ℤ)))
    (hlt : i < rest.length) (hroom : rest.length < LOC2_LEN) :
    ∃ r, s.round = some ⟨d, r, s.loc5 + 1, s.outputStr.put s.loc5 rest[i]⟩ ∧ r.Holds (rest.eraseIdx i) ∧
      r.Inside LOC2_LEN := by
  have hbyte : s.loc2.byte i = rest[i] := h.left.1 i hlt
  obtain ⟨r, hr, hholds, hinside⟩ := delKeyInStrInto_holds rest[i] h.left h.nul hroom
  rw [delKeyInStr_getElem h.nodup hlt] at hholds
  refine ⟨r, ?_, hholds, hinside h.loc2_inside⟩
  simp only [Ranom8T.round, hloc7, hbyte, hr, Option.bind_eq_bind, Option.bind_some]
  rfl

/-- A round draws a character, and the next state is again on the way. -/
theorem Shuffling.round (h : Shuffling seed s out rest) (hne : rest ≠ []) :
    ∃ s' c, s.round = some s' ∧ Draws s s' rest ∧
      Shuffling seed s' (out ++ [c]) (rest.eraseIdx (s'.seed * rest.length / 65536)) := by
  have hlengths := h.lengths
  have hseed := h.seed_le
  have hproduct : s.seed * 211 + 30031 ≤ INT_MAX := by
    unfold INT_MAX
    omega
  have hroom : rest.length < LOC2_LEN := by
    unfold LOC2_LEN YK_FILEID_LEN
    omega
  have hstrlen := h.left.strlen h.nul hroom
  have hzf := zf_value hproduct
  have hdt : (s.seed * 211 + 30031) % 65536 < 65536 := Nat.mod_lt _ (by decide)
  generalize hd : (s.seed * 211 + 30031) % 65536 = d at hzf hdt
  have hlt := index_lt hdt (List.length_pos_iff.mpr hne)
  obtain ⟨i, hi⟩ : ∃ i, d * rest.length / 65536 = i := ⟨_, rfl⟩
  rw [hi] at hlt
  have hloc7 := Ranom8T.loc7_eq hzf hdt hstrlen (by omega) hi
  have hlist := ranom8TRound_draw hzf hi hlt h.nodup
  have hrest : rest.length = (rest.eraseIdx i).length + 1 := by
    rw [List.length_eraseIdx_of_lt hlt]
    omega
  obtain ⟨r, hround, hholds, hinside⟩ := h.round_eq hloc7 hlt hroom
  refine ⟨_, rest[i], hround, ?_, ?_⟩
  · refine ⟨h.left, hstrlen, hproduct, hd.symm, ?_, ?_, ?_, ?_⟩ <;> simp only [hi]
    · exact hloc7
    · exact hlt
    · exact hholds
    · intro c hc
      rw [List.getElem?_eq_getElem hlt] at hc
      rw [Option.some.inj hc]
  · simp only [hi]
    exact
      { seed_le := by
          change d ≤ 9999999
          omega
        left := hholds
        loc5 := by rw [h.loc5, List.length_append, List.length_singleton]
        written := by
          rw [List.length_append, List.length_singleton, h.loc5, read_put, h.written]
        perm := by
          rw [List.append_assoc, List.singleton_append]
          exact ((List.getElem_cons_eraseIdx_perm hlt).append_left out).trans h.perm
        loc2_inside := hinside
        output_inside := by
          apply h.output_inside.putAll (s := [rest[i]]) (by omega)
          have hloc5 := h.loc5
          have hlen : PROCESSED_STR_LEN = 68 := rfl
          rw [List.length_singleton]
          omega
        refines := h.refines.trans (ranom8TLoop_round hlist hrest) }

theorem Shuffling.ne_nil (h : Shuffling seed s out rest) (hlt : out.length < 68) : rest ≠ [] := by
  have hlengths := h.lengths
  rintro rfl
  rw [List.length_nil] at hlengths
  omega

/-- The letters and the other characters fill the zeroed buffer up to its last byte. -/
theorem ranom8TStart_shuffling (hseed : seed ≤ 9999999) (content content' : ℤ → UInt8) :
    Shuffling seed (ranom8TStart seed ⟨content, []⟩ ⟨content', []⟩) [] ykAlphabet := by
  have hempty : ∀ (content : ℤ → UInt8) (n : ℕ), (⟨content, []⟩ : Buf).Inside n := fun _ _ _ hi =>
    absurd hi List.not_mem_nil
  have hzero : ((⟨content, []⟩ : Buf).putAll 0 (List.replicate LOC2_LEN 0)).Holds [] := by
    refine ⟨fun k hk => absurd hk (Nat.not_lt_zero k), ?_⟩
    exact putAll_getElem? (by decide)
  have hzeroed := (hempty content LOC2_LEN).putAll (s := List.replicate LOC2_LEN 0) le_rfl (by decide)
  obtain ⟨hletters, hletters_in⟩ := hzero.strcat_inside
    (t := bytes "abcdefghijklmnopqrstuvwxyzABCDEFGHIJKLMNOPQRSTUVWXYZ") hzeroed List.not_mem_nil (by decide)
  obtain ⟨hwhole, hwhole_in⟩ := hletters.strcat_inside (t := bytes "/\\:._-1234567890") hletters_in
    (by decide) (by decide)
  exact
    { seed_le := hseed
      left := hwhole
      loc5 := rfl
      written := rfl
      perm := .refl _
      loc2_inside := hwhole_in
      output_inside := hempty content' _
      refines := by
        simp only [List.nil_append, Option.map_id_fun', id_eq]
        rfl }

theorem rounds_shuffling (h : Shuffling seed s [] ykAlphabet) {k : ℕ} (hk : k ≤ 68) :
    ∃ s' out rest, s.rounds k = some s' ∧ out.length = k ∧ Shuffling seed s' out rest := by
  induction k with
  | zero => exact ⟨s, [], ykAlphabet, rfl, rfl, h⟩
  | succ k ih =>
    obtain ⟨s', out, rest, hs', hout, hrest⟩ := ih (by omega)
    obtain ⟨s'', c, hround, -, hnext⟩ := hrest.round (hrest.ne_nil (by omega))
    refine ⟨s'', _, _, ?_, ?_, hnext⟩
    · simp only [Ranom8T.rounds, hs', Option.bind_eq_bind, Option.bind_some, hround]
    · rw [List.length_append, List.length_singleton, hout]

end Rounds

/-- For every seed of seven digits, each of the 68 rounds draws a character: `zf` does not overflow, the index
is exact and in what is left, and just the character at it is removed. What the rounds write into
`output_str` is a permutation of the alphabet, whatever the two buffers held. -/
theorem ranom8T_shuffles (seed : ℕ) (content content' : ℤ → UInt8) (hseed : seed ≤ 9999999) :
    (ranom8TStart seed ⟨content, []⟩ ⟨content', []⟩).loc2.strlen LOC2_LEN = 68 ∧
    (∀ k < 68, ∃ s s' rest, (ranom8TStart seed ⟨content, []⟩ ⟨content', []⟩).rounds k = some s ∧
      s.round = some s' ∧ rest.length = 68 - k ∧ Draws s s' rest) ∧
    ∃ r, ranom8TInto seed ⟨content, []⟩ ⟨content', []⟩ = some r ∧ r.Inside PROCESSED_STR_LEN ∧
      (r.read 68).Perm ykAlphabet ∧ ranom8T seed = some (r.read 68) := by
  have hstart := ranom8TStart_shuffling hseed content content'
  have hroom : ykAlphabet.length < LOC2_LEN := by
    rw [ykAlphabet_length]
    decide
  have hstrlen := hstart.left.strlen hstart.nul hroom
  rw [ykAlphabet_length] at hstrlen
  refine ⟨hstrlen, fun k hk => ?_, ?_⟩
  · obtain ⟨s, out, rest, hs, hout, h⟩ := rounds_shuffling hstart (Nat.le_of_lt hk)
    have hlengths := h.lengths
    obtain ⟨s', -, hround, hdraws, -⟩ := h.round (h.ne_nil (by omega))
    exact ⟨s, s', rest, hs, hround, by omega, hdraws⟩
  · obtain ⟨s, out, rest, hs, hout, h⟩ := rounds_shuffling hstart le_rfl
    have hlengths := h.lengths
    obtain rfl : rest = [] := List.length_eq_zero_iff.mp (by omega)
    have hread := h.written
    rw [hout] at hread
    have hperm := h.perm
    rw [List.append_nil] at hperm
    refine ⟨s.outputStr, ?_, h.output_inside, ?_, ?_⟩
    · simp only [ranom8TInto, hstrlen, hs, Option.map_some]
    · rwa [hread]
    · rw [h.refines, hread]
      simp [ranom8TLoop]

theorem ranom8T_shuffles_1599 :
    (∃ s s' rest, (ranom8TStart 1599 ⟨fun _ => 0, []⟩ ⟨fun _ => 0, []⟩).rounds 67 = some s ∧
      s.round = some s' ∧ rest.length = 1 ∧ Draws s s' rest) ∧
    ∃ r, ranom8TInto 1599 ⟨fun _ => 0, []⟩ ⟨fun _ => 0, []⟩ = some r ∧ r.Inside PROCESSED_STR_LEN ∧
      (r.read 68).Perm ykAlphabet ∧ ranom8T 1599 = some (r.read 68) := by
  obtain ⟨-, hrounds, hout⟩ := ranom8T_shuffles 1599 (fun _ => 0) (fun _ => 0) (by decide)
  exact ⟨hrounds 67 (by decide), hout⟩

end HotCache
