import HotCache.Lib.CString

/-! Reading and copying through a pointer. A cursor is what is left of its block, the terminator
included, and `none` stands for a read outside of the block. -/

namespace CStr

section Definitions

def advance (k : ℕ) (m : Bytes) : Option Bytes := if k ≤ m.length then some (m.drop k) else none

/-- `strstr`; the inner `none` is its NULL. -/
def find (t : Bytes) : Bytes → Option (Option Bytes)
  | [] => none
  | c :: m =>
    if startsWith (c :: m) t then some (some (c :: m)) else if c = 0 then some none else find t m

/-- `memcmp(m, t, strlen(t)) == 0`. -/
def matchesAt (t m : Bytes) : Option Bool :=
  if m.length < t.length then none else some (startsWith m t)

/-- `for (i = 0; p(*m) && i < n; m++, i++) v[i] = *m`: the copied bytes and the cursor. -/
def copyWhile (p : UInt8 → Bool) : ℕ → Bytes → Option (Bytes × Bytes)
  | _, [] => none
  | n, c :: m =>
    if !p c then some ([], c :: m)
    else
      match n with
      | 0 => some ([], c :: m)
      | n + 1 => (copyWhile p n m).map fun r => (c :: r.1, r.2)

/-- The same without the bound. -/
def copyAll (p : UInt8 → Bool) (m : Bytes) : Option (Bytes × Bytes) := copyWhile p m.length m

/-- `memcpy(v, m + i, k)`. -/
def slice (i k : ℕ) (m : Bytes) : Option Bytes := if i + k ≤ m.length then some ((m.drop i).take k) else none

def bigEndian (m : Bytes) : ℕ := m.foldl (fun v c => v * 2 ^ 8 + c.toNat) 0

def digit (c : UInt8) : Bool := ch '0' ≤ c && c ≤ ch '9'

def space (c : UInt8) : Bool := c = ch ' ' || (9 ≤ c && c ≤ 13)

def digitsValue (ds : Bytes) : ℕ := ds.foldl (fun v c => v * 10 + (c.toNat - (ch '0').toNat)) 0

/-- The cast of `strtol`'s result to `int`. -/
def toInt (v : ℤ) : ℤ := Int.bmod (max (-2 ^ 63) (min v (2 ^ 63 - 1))) (2 ^ 32)

def atoi (m : Bytes) : Option ℤ := do
  let (_, m) ← copyAll space m
  let neg := m.head? = some (ch '-')
  let m := if neg ∨ m.head? = some (ch '+') then m.tail else m
  let (ds, _) ← copyAll digit m
  return toInt (if neg then -digitsValue ds else digitsValue ds)

/-- `strtok` with one delimiter, called until it returns NULL. -/
def tokens (delim : UInt8) (s : Bytes) : List Bytes := (s.splitOn delim).filter (· ≠ [])

/-- `%d` of a number that is not negative. -/
def decimal (n : ℕ) : Bytes := (Nat.toDigits 10 n).map ch

end Definitions

theorem advance_append {a m : Bytes} {k : ℕ} (h : a.length = k) : advance k (a ++ m) = some m := by
  subst h
  simp [advance]

theorem advance_eq_some_iff {k : ℕ} {m r : Bytes} :
    advance k m = some r ↔ ∃ a, a.length = k ∧ m = a ++ r := by
  constructor
  · intro h
    unfold advance at h
    split_ifs at h with hk
    refine ⟨m.take k, List.length_take_of_le hk, ?_⟩
    rw [← Option.some.inj h, List.take_append_drop]
  · rintro ⟨a, ha, rfl⟩
    exact advance_append ha

/-- The first occurrence is found unless the text ends before it. -/
theorem find_first_or_null {a r t : Bytes} (hr : t <+: r) (hne : r ≠ [])
    (hfirst : ∀ k < a.length, ¬ OccursAt (a ++ r) t k) :
    find t (a ++ r) = some (if 0 ∈ a then none else some r) := by
  induction a with
  | nil =>
    cases r with
    | nil => exact absurd rfl hne
    | cons c r => simp [find, startsWith_iff, hr]
  | cons c a ih =>
    have h0 : ¬ t <+: c :: (a ++ r) := by simpa [OccursAt] using hfirst 0 (by simp)
    have hs : ∀ k < a.length, ¬ OccursAt (a ++ r) t k := by
      intro k hk
      simpa [OccursAt] using hfirst (k + 1) (by simpa using hk)
    rw [List.cons_append, find, if_neg (by rwa [startsWith_iff]), ih hs]
    by_cases hc : c = 0
    · simp [hc]
    · simp [hc, Ne.symm hc]

theorem find_append {a r t : Bytes} (ha : 0 ∉ a) (hr : t <+: r) (hne : r ≠ [])
    (hfirst : ∀ k < a.length, ¬ OccursAt (a ++ r) t k) : find t (a ++ r) = some (some r) := by
  rw [find_first_or_null hr hne hfirst, if_neg ha]

theorem find_prefix {t m : Bytes} (h : t <+: m) (hne : m ≠ []) : find t m = some (some m) :=
  find_append List.not_mem_nil h hne fun k hk => absurd hk (Nat.not_lt_zero k)

/-- Text without the first byte of the searched string is skipped. -/
theorem find_skip {a r t : Bytes} {c : UInt8} (hc : t.head? = some c) (ha : 0 ∉ a) (hca : c ∉ a) :
    find t (a ++ (t ++ r)) = some (some (t ++ r)) := by
  obtain ⟨t, rfl⟩ := List.head?_eq_some_iff.mp hc
  refine find_append ha (List.prefix_append _ _) (by simp) fun k hk hocc => hca ?_
  obtain ⟨x, hx⟩ := hocc
  have hget : (a ++ (c :: t ++ r))[k]? = some c := by
    rw [← List.head?_drop, ← hx]
    rfl
  rw [List.getElem?_append_left hk] at hget
  exact List.mem_of_getElem? hget

/-- Text without the searched string, up to a separator that is not in it, is skipped. -/
theorem find_separated {a r t : Bytes} {s : UInt8} (ha : 0 ∉ a) (hs : s ≠ 0) (hst : s ∉ t)
    (hne : t ≠ []) (hin : ¬ t <:+: a) : find t (a ++ s :: (t ++ r)) = some (some (t ++ r)) := by
  have heq : a ++ s :: (t ++ r) = (a ++ [s]) ++ (t ++ r) := by simp
  rw [heq]
  refine find_append (by simp [ha, hs.symm]) (List.prefix_append _ _) (by simp [hne]) ?_
  intro k hk hocc
  -- an occurrence before the separator is inside the text or takes the separator in
  have hka : k ≤ a.length := by simpa [Nat.lt_succ_iff] using hk
  rw [← heq, OccursAt, List.drop_append_of_le_length hka] at hocc
  by_cases hlen : t.length ≤ (a.drop k).length
  · have hpre := List.prefix_of_prefix_length_le hocc (List.prefix_append _ _) hlen
    exact hin (hpre.isInfix.trans (List.drop_suffix k a).isInfix)
  · obtain ⟨x, hx⟩ := hocc
    apply hst
    have hget : (t ++ x)[(a.drop k).length]? = some s := by
      rw [hx, List.getElem?_append_right le_rfl]
      simp
    rw [List.getElem?_append_left (by omega)] at hget
    exact List.mem_of_getElem? hget

def FirstAt (t m r : Bytes) : Prop :=
  ∃ a, m = a ++ r ∧ 0 ∉ a ∧ t <+: r ∧ ∀ k < a.length, ¬ OccursAt m t k

def Absent (t m : Bytes) : Prop :=
  ∃ a r, m = a ++ 0 :: r ∧ 0 ∉ a ∧ ∀ k ≤ a.length, ¬ OccursAt m t k

theorem find_first_iff {t m r : Bytes} (ht : t ≠ []) : find t m = some (some r) ↔ FirstAt t m r := by
  constructor
  · intro h
    induction m with
    | nil => cases h
    | cons c m ih =>
      rw [find] at h
      split_ifs at h with hs hc
      · obtain rfl := Option.some.inj (Option.some.inj h)
        exact ⟨[], rfl, List.not_mem_nil, (startsWith_iff _ _).mp hs, fun k hk => absurd hk (Nat.not_lt_zero k)⟩
      · cases h
      · obtain ⟨a, rfl, ha, hr, hfirst⟩ := ih h
        refine ⟨c :: a, rfl, by simp [ha, Ne.symm hc], hr, fun k hk => ?_⟩
        cases k with
        | zero => simpa [OccursAt, ← startsWith_iff] using hs
        | succ k => exact fun hocc => hfirst k (by simpa using hk) (by simpa [OccursAt] using hocc)
  · rintro ⟨a, rfl, ha, hr, hfirst⟩
    refine find_append ha hr ?_ hfirst
    rintro rfl
    exact ht (List.prefix_nil.mp hr)

theorem find_absent_iff {t m : Bytes} : find t m = some none ↔ Absent t m := by
  constructor
  · intro h
    induction m with
    | nil => cases h
    | cons c m ih =>
      rw [find] at h
      split_ifs at h with hs hc
      · cases h
      · subst hc
        refine ⟨[], m, rfl, List.not_mem_nil, fun k hk => ?_⟩
        obtain rfl : k = 0 := by simpa using hk
        simpa [OccursAt, ← startsWith_iff] using hs
      · obtain ⟨a, r, rfl, ha, hno⟩ := ih h
        refine ⟨c :: a, r, rfl, by simp [ha, Ne.symm hc], fun k hk => ?_⟩
        cases k with
        | zero => simpa [OccursAt, ← startsWith_iff] using hs
        | succ k => exact fun hocc => hno k (by simpa using hk) (by simpa [OccursAt] using hocc)
  · rintro ⟨a, r, rfl, ha, hno⟩
    induction a with
    | nil =>
      have h0 : ¬ startsWith (0 :: r) t = true := by simpa [OccursAt, ← startsWith_iff] using hno 0 le_rfl
      simp [find, h0]
    | cons c a ih =>
      have h0 : ¬ startsWith (c :: (a ++ 0 :: r)) t = true := by
        simpa [OccursAt, ← startsWith_iff] using hno 0 (Nat.zero_le _)
      have hc : c ≠ 0 := by
        rintro rfl
        exact ha (by simp)
      rw [List.cons_append, find, if_neg h0, if_neg hc]
      refine ih (fun h => ha (by simp [h])) fun k hk hocc => ?_
      exact hno (k + 1) (by simpa using hk) (by simpa [OccursAt] using hocc)

theorem matchesAt_append (t m : Bytes) : matchesAt t (t ++ m) = some true := by
  simp [matchesAt, startsWith_iff]

/-- Patterns of one length: the text has to be that long, and the first that it starts with is found. -/
theorem findM_matchesAt {l : List Bytes} {n : ℕ} {m : Bytes} (hl : l ≠ []) (hn : ∀ t ∈ l, t.length = n) :
    l.findM? (matchesAt · m) = if m.length < n then none else some (l.find? (startsWith m ·)) := by
  split_ifs with hm
  · obtain ⟨t, l, rfl⟩ := List.exists_cons_of_ne_nil hl
    have ht := hn t (by simp)
    have hnone : matchesAt t m = none := if_pos (ht ▸ hm)
    rw [List.findM?, hnone]
    rfl
  · clear hl
    induction l with
    | nil => rfl
    | cons t l ih =>
      have ht := hn t (by simp)
      have hsome : matchesAt t m = some (startsWith m t) := if_neg (ht ▸ hm)
      rw [List.findM?, hsome, ih fun t ht => hn t (by simp [ht]), List.find?]
      cases startsWith m t <;> rfl

theorem copyWhile_append {p : UInt8 → Bool} {n : ℕ} {a m : Bytes} {c : UInt8}
    (ha : ∀ x ∈ a, p x = true) (hn : a.length ≤ n) (hc : p c = false) :
    copyWhile p n (a ++ c :: m) = some (a, c :: m) := by
  induction a generalizing n with
  | nil => cases n <;> simp [copyWhile, hc]
  | cons x a ih =>
    cases n with
    | zero => simp at hn
    | succ n =>
      have hx : p x = true := ha x (by simp)
      have hrec := ih (fun y hy => ha y (by simp [hy])) (by simpa using hn)
      simp only [List.cons_append, copyWhile, hx, hrec]
      rfl

theorem copyAll_append {p : UInt8 → Bool} {a m : Bytes} {c : UInt8} (ha : ∀ x ∈ a, p x = true)
    (hc : p c = false) : copyAll p (a ++ c :: m) = some (a, c :: m) :=
  copyWhile_append ha (by simp) hc

theorem copyWhile_eq_some_iff {p : UInt8 → Bool} {n : ℕ} {m v r : Bytes} :
    copyWhile p n m = some (v, r) ↔
      m = v ++ r ∧ (∀ x ∈ v, p x = true) ∧
      ∃ c, r.head? = some c ∧ (v.length ≤ n ∧ p c = false ∨ v.length = n) := by
  induction m generalizing n v with
  | nil =>
    simp only [copyWhile, reduceCtorEq, false_iff]
    rintro ⟨hm, -, c, hc, -⟩
    obtain ⟨-, rfl⟩ := List.append_eq_nil_iff.mp hm.symm
    cases hc
  | cons x m ih =>
    constructor
    · intro h
      rw [copyWhile.eq_def] at h
      simp only [Bool.not_eq_true'] at h
      split_ifs at h with hx
      · obtain ⟨rfl, rfl⟩ := Prod.mk.inj (Option.some.inj h)
        exact ⟨rfl, by simp, x, rfl, .inl ⟨Nat.zero_le _, hx⟩⟩
      · cases n with
        | zero =>
          obtain ⟨rfl, rfl⟩ := Prod.mk.inj (Option.some.inj h)
          exact ⟨rfl, by simp, x, rfl, .inr rfl⟩
        | succ n =>
          obtain ⟨⟨v', r'⟩, hrec, heq⟩ := Option.map_eq_some_iff.mp h
          obtain ⟨rfl, rfl⟩ := Prod.mk.inj heq
          obtain ⟨rfl, hv, c, hc, hstop⟩ := ih.mp hrec
          refine ⟨rfl, List.forall_mem_cons.mpr ⟨by simpa using hx, hv⟩, c, hc, ?_⟩
          simpa using hstop
    · rintro ⟨hm, hv, c, hc, hstop⟩
      cases v with
      | nil =>
        obtain rfl : x :: m = r := hm
        obtain rfl : x = c := Option.some.inj hc
        rcases hstop with ⟨-, hx⟩ | hn
        · cases n <;> simp [copyWhile, hx]
        · obtain rfl : n = 0 := hn.symm
          simp [copyWhile]
      | cons y v =>
        obtain ⟨rfl, rfl⟩ := List.cons.inj hm
        have hx : p x = true := hv x (by simp)
        cases n with
        | zero => simp at hstop
        | succ n =>
          have hrec : copyWhile p n (v ++ r) = some (v, r) :=
            ih.mpr ⟨rfl, fun y hy => hv y (by simp [hy]), c, hc, by simpa using hstop⟩
          rw [copyWhile]
          simp [hx, hrec]

theorem copyAll_eq_some_iff {p : UInt8 → Bool} {m v r : Bytes} :
    copyAll p m = some (v, r) ↔ m = v ++ r ∧ (∀ x ∈ v, p x = true) ∧ ∃ c, r.head? = some c ∧ p c = false := by
  rw [copyAll, copyWhile_eq_some_iff]
  constructor
  · rintro ⟨rfl, hv, c, hc, ⟨-, hp⟩ | hlen⟩
    · exact ⟨rfl, hv, c, hc, hp⟩
    · obtain rfl : r = [] := by simpa using hlen
      cases hc
  · rintro ⟨rfl, hv, c, hc, hp⟩
    exact ⟨rfl, hv, c, hc, .inl ⟨by simp, hp⟩⟩

theorem copyAll_eq_none_iff {p : UInt8 → Bool} {m : Bytes} : copyAll p m = none ↔ ∀ x ∈ m, p x = true := by
  constructor
  · intro h
    by_contra hex
    -- up to the first byte that stops the loop
    have hsplit := List.takeWhile_append_dropWhile (p := p) (l := m)
    cases hd : m.dropWhile p with
    | nil =>
      rw [hd, List.append_nil] at hsplit
      exact hex (hsplit ▸ List.all_eq_true.mp List.all_takeWhile)
    | cons c r =>
      rw [hd] at hsplit
      have hc : p c = false := by
        simpa [hd] using List.head?_dropWhile_not p m
      rw [← hsplit, copyAll_append (List.all_eq_true.mp List.all_takeWhile) hc] at h
      cases h
  · intro hall
    rw [Option.eq_none_iff_forall_ne_some]
    rintro ⟨v, r⟩ h
    obtain ⟨rfl, -, c, hc, hp⟩ := copyAll_eq_some_iff.mp h
    rw [hall c (List.mem_append_right _ (List.mem_of_head? hc))] at hp
    cases hp

theorem slice_append {a v r : Bytes} {i k : ℕ} (hi : a.length = i) (hk : v.length = k) :
    slice i k (a ++ (v ++ r)) = some v := by
  subst hi hk
  simp [slice]

theorem slice_eq_none_iff {i k : ℕ} {m : Bytes} : slice i k m = none ↔ m.length < i + k := by
  unfold slice
  split_ifs with h
  · exact iff_of_false (by simp) (by omega)
  · exact iff_of_true rfl (by omega)

theorem slice_isSome {i k : ℕ} {m : Bytes} (h : i + k ≤ m.length) : ∃ v, slice i k m = some v :=
  ⟨_, if_pos h⟩

/-- A text without the searched string: the search ends at its first NUL, or leaves the block. -/
theorem find_of_not_infix {t m : Bytes} (h : ¬ t <:+: m) : find t m = if 0 ∈ m then some none else none := by
  induction m with
  | nil => rfl
  | cons c m ih =>
    have hs : ¬ startsWith (c :: m) t = true := fun hs => h ((startsWith_iff _ _).mp hs).isInfix
    have hm : ¬ t <:+: m := fun hm => h (hm.trans (List.suffix_cons c m).isInfix)
    rw [find, if_neg hs, ih hm]
    by_cases hc : c = 0
    · simp [hc]
    · simp [hc, Ne.symm hc]

theorem digitsValue_append (ds : Bytes) (c : UInt8) :
    digitsValue (ds ++ [c]) = digitsValue ds * 10 + (c.toNat - (ch '0').toNat) := by
  simp [digitsValue]

theorem digitsValue_lt {ds : Bytes} (h : ∀ c ∈ ds, digit c = true) :
    digitsValue ds < 10 ^ ds.length := by
  induction ds using List.reverseRecOn with
  | nil => simp [digitsValue]
  | append_singleton ds c ih =>
    have hv := ih fun x hx => h x (by simp [hx])
    have hc : c.toNat - (ch '0').toNat ≤ 9 := by
      have hd := h c (by simp)
      simp only [digit, Bool.and_eq_true, decide_eq_true_eq, UInt8.le_iff_toNat_le] at hd
      have h9 : (ch '9').toNat = (ch '0').toNat + 9 := by decide
      omega
    rw [digitsValue_append, List.length_append, List.length_singleton, pow_succ]
    omega

theorem space_of_digit {c : UInt8} (h : digit c = true) : space c = false := by
  simp only [digit, Bool.and_eq_true, decide_eq_true_eq] at h
  have h32 : c ≠ ch ' ' := by
    rintro rfl
    exact absurd h.1 (by decide)
  have h13 : ¬ c ≤ 13 := fun hc => absurd (UInt8.le_trans h.1 hc) (by decide)
  simp [space, h32, h13]

/-- The number that the digits at a cursor spell. -/
theorem atoi_digits {ds m : Bytes} {c : UInt8} (hne : ds ≠ []) (hds : ∀ x ∈ ds, digit x = true)
    (hc : digit c = false) (hlt : digitsValue ds < 2 ^ 31) :
    atoi (ds ++ c :: m) = some (digitsValue ds : ℤ) := by
  obtain ⟨d, ds, rfl⟩ := List.exists_cons_of_ne_nil hne
  have hd : digit d = true := hds d (by simp)
  have hspace : copyAll space (d :: (ds ++ c :: m)) = some ([], d :: (ds ++ c :: m)) :=
    copyAll_append (a := []) (by simp) (space_of_digit hd)
  have hdigits : copyAll digit (d :: (ds ++ c :: m)) = some (d :: ds, c :: m) :=
    copyAll_append hds hc
  have hminus : d ≠ ch '-' := by
    rintro rfl
    exact absurd hd (by decide)
  have hplus : d ≠ ch '+' := by
    rintro rfl
    exact absurd hd (by decide)
  have hint : toInt (digitsValue (d :: ds)) = digitsValue (d :: ds) := by
    generalize digitsValue (d :: ds) = v at hlt
    rw [toInt, min_eq_left (by omega), max_eq_right (by omega)]
    exact Int.bmod_eq_of_le (by omega) (by omega)
  simp [atoi, hspace, hdigits, hminus, hplus, hint]

/-- Nothing but a numeral: `atoi` reads all of it and goes on. -/
def Numeral (m : Bytes) : Prop :=
  ∃ a s d, m = a ++ s ++ d ∧ (∀ c ∈ a, space c = true) ∧ s ∈ [[], [ch '-'], [ch '+']] ∧ ∀ c ∈ d, digit c = true

theorem atoi_eq_none_iff {m : Bytes} : atoi m = none ↔ Numeral m := by
  constructor
  · intro h
    unfold atoi at h
    cases hs : copyAll space m with
    | none => exact ⟨m, [], [], by simp, copyAll_eq_none_iff.mp hs, by simp, by simp⟩
    | some r =>
      obtain ⟨a, r⟩ := r
      obtain ⟨rfl, ha, c, hc, -⟩ := copyAll_eq_some_iff.mp hs
      obtain ⟨r, rfl⟩ := List.head?_eq_some_iff.mp hc
      simp only [hs, Option.bind_eq_bind, Option.bind_some, List.head?_cons, Option.some.injEq,
        List.tail_cons] at h
      by_cases hsign : c = ch '-' ∨ c = ch '+'
      · rw [if_pos hsign] at h
        cases hd : copyAll digit r with
        | none => exact ⟨a, [c], r, by simp, ha, by simpa using hsign, copyAll_eq_none_iff.mp hd⟩
        | some x =>
          rw [hd] at h
          cases h
      · rw [if_neg hsign] at h
        cases hd : copyAll digit (c :: r) with
        | none => exact ⟨a, [], c :: r, by simp, ha, by simp, copyAll_eq_none_iff.mp hd⟩
        | some x =>
          rw [hd] at h
          cases h
  · rintro ⟨a, s, d, rfl, ha, hs, hd⟩
    have hnone := copyAll_eq_none_iff.mpr hd
    unfold atoi
    simp only [List.mem_cons, List.not_mem_nil, or_false] at hs
    rcases hs with rfl | rfl | rfl
    · cases d with
      | nil =>
        have hall : copyAll space (a ++ [] ++ []) = none := copyAll_eq_none_iff.mpr (by simpa using ha)
        rw [hall]
        rfl
      | cons x d =>
        have hx : digit x = true := hd x (by simp)
        have hspace : copyAll space (a ++ x :: d) = some (a, x :: d) := copyAll_append ha (space_of_digit hx)
        have hminus : x ≠ ch '-' := by
          rintro rfl
          exact absurd hx (by decide)
        have hplus : x ≠ ch '+' := by
          rintro rfl
          exact absurd hx (by decide)
        simp [hspace, hminus, hplus, hnone]
    · have hspace : copyAll space (a ++ ch '-' :: d) = some (a, ch '-' :: d) := copyAll_append ha (by decide)
      simp [hspace, hnone]
    · have hspace : copyAll space (a ++ ch '+' :: d) = some (a, ch '+' :: d) := copyAll_append ha (by decide)
      simp [hspace, hnone]

theorem Numeral.zero_notMem {m : Bytes} (h : Numeral m) : 0 ∉ m := by
  obtain ⟨a, s, d, rfl, ha, hs, hd⟩ := h
  simp only [List.mem_append, not_or]
  refine ⟨⟨fun h0 => ?_, fun h0 => ?_⟩, fun h0 => ?_⟩
  · exact absurd (ha 0 h0) (by decide)
  · exact absurd h0 ((by decide : ∀ s ∈ [[], [ch '-'], [ch '+']], (0 : UInt8) ∉ s) s hs)
  · exact absurd (hd 0 h0) (by decide)

/-- `strtok` finds the tokens that a delimiter follows each. -/
theorem tokens_flatMap {delim : UInt8} {l : List Bytes} (h : ∀ t ∈ l, t ≠ [] ∧ delim ∉ t) :
    tokens delim (l.flatMap (· ++ [delim])) = l := by
  induction l with
  | nil => rfl
  | cons t l ih =>
    obtain ⟨hne, hnot⟩ := h t (by simp)
    have hsingle : t.splitOnP (· == delim) = [t] := by
      refine List.splitOnP_eq_singleton fun x hx => ?_
      simp only [beq_eq_false_iff_ne]
      rintro rfl
      exact hnot hx
    have ih' := ih fun t' ht' => h t' (by simp [ht'])
    unfold tokens List.splitOn at ih' ⊢
    rw [List.flatMap_cons, List.append_assoc, List.singleton_append,
      List.splitOnP_append_cons t _ (by simp), hsingle, List.singleton_append,
      List.filter_cons_of_pos (by simpa using hne), ih']

theorem ch_digitChar {d : ℕ} (h : d < 10) : ch d.digitChar = UInt8.ofNat (48 + d) := by
  interval_cases d <;> rfl

theorem decimal_eq (n : ℕ) :
    decimal n = (if n < 10 then [] else decimal (n / 10)) ++ [UInt8.ofNat (48 + n % 10)] := by
  have hd := ch_digitChar (Nat.mod_lt n (by decide : 10 > 0))
  unfold decimal
  rw [Nat.toDigits_eq_if (by decide)]
  split_ifs with hn
  · rw [Nat.mod_eq_of_lt hn] at hd ⊢
    simp [hd]
  · simp [hd]

theorem decimal_ne_nil (n : ℕ) : decimal n ≠ [] := by
  rw [decimal_eq]
  simp

theorem digit_of_mem_decimal {n : ℕ} {c : UInt8} (h : c ∈ decimal n) : digit c = true := by
  induction n using Nat.strong_induction_on with
  | _ n ih =>
    rw [decimal_eq, List.mem_append] at h
    rcases h with h | h
    · split_ifs at h with hn
      · cases h
      · exact ih (n / 10) (by omega) h
    · rw [List.mem_singleton.mp h]
      have hlt : n % 10 < 10 := Nat.mod_lt _ (by decide)
      interval_cases n % 10 <;> decide

theorem digitsValue_decimal (n : ℕ) : digitsValue (decimal n) = n := by
  induction n using Nat.strong_induction_on with
  | _ n ih =>
    have hlast : (UInt8.ofNat (48 + n % 10)).toNat - (ch '0').toNat = n % 10 := by
      have hlt : n % 10 < 10 := Nat.mod_lt _ (by decide)
      interval_cases n % 10 <;> decide
    rw [decimal_eq, digitsValue_append, hlast]
    split_ifs with hn
    · simp [digitsValue, Nat.mod_eq_of_lt hn]
    · rw [ih (n / 10) (by omega)]
      omega

theorem decimal_length_le {n k : ℕ} (hk : 0 < k) (h : n < 10 ^ k) : (decimal n).length ≤ k := by
  rw [decimal, List.length_map]
  exact (Nat.length_toDigits_le_iff (by decide) hk).mpr h

theorem atoi_decimal {n : ℕ} (h : n < 2 ^ 31) : atoi (decimal n ++ [0]) = some (n : ℤ) := by
  have hval := digitsValue_decimal n
  rw [atoi_digits (decimal_ne_nil n) (fun _ => digit_of_mem_decimal) (by decide) (by omega), hval]

theorem mapM_eq_map {α β : Type*} {f : α → Option β} {g : α → β} {l : List α}
    (h : ∀ x ∈ l, f x = some (g x)) : l.mapM f = some (l.map g) := by
  induction l with
  | nil => rfl
  | cons x l ih => simp [h x (by simp), ih fun y hy => h y (by simp [hy])]

end CStr
