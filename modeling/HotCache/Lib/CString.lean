import Mathlib.Data.List.Infix
import Mathlib.Tactic

/-! Byte strings with the search functions of `string.h`. A string is the list of its
bytes before the terminator; a pointer into a string is the suffix it points at, so
`strstr` returns a suffix. -/

namespace CStr

abbrev Bytes := List UInt8

def ch (c : Char) : UInt8 := UInt8.ofNat c.toNat

/-- The bytes of an ASCII literal. -/
def bytes (s : String) : Bytes := s.toList.map ch

/-- `strstr(s, t)`: the suffix of `s` at the first occurrence of `t`. -/
def strstr : Bytes → Bytes → Option Bytes
  | [], t => if t.isPrefixOf [] then some [] else none
  | a :: s, t => if t.isPrefixOf (a :: s) then some (a :: s) else strstr s t

/-- `strncmp(s, t, strlen(t)) == 0`. -/
def startsWith (s t : Bytes) : Bool := t.isPrefixOf s

/-- `sprintf` with string arguments: each `%s` (or nginx's `%V`) takes the next argument. -/
def expand : Bytes → List Bytes → Bytes
  | a :: b :: fmt, args =>
    if a = ch '%' ∧ (b = ch 's' ∨ b = ch 'V') then
      match args with
      | x :: args => x ++ expand fmt args
      | [] => expand fmt []
    else a :: expand (b :: fmt) args
  | fmt, _ => fmt

/-- `t` occurs in `s` at offset `k`. -/
def OccursAt (s t : Bytes) (k : ℕ) : Prop := t <+: s.drop k

instance (s t : Bytes) (k : ℕ) : Decidable (OccursAt s t k) := inferInstanceAs (Decidable (t <+: s.drop k))

/-- The test of the loops that stop at a byte. -/
theorem ne_of_notMem {c : UInt8} {s : Bytes} (h : c ∉ s) : ∀ x ∈ s, decide (x ≠ c) = true := by
  intro x hx
  apply decide_eq_true
  rintro rfl
  exact h hx

theorem startsWith_iff (s t : Bytes) : startsWith s t = true ↔ t <+: s := by
  simp [startsWith]

theorem expand_append {p : Bytes} (hp : ch '%' ∉ p) (fmt : Bytes) (args : List Bytes) :
    expand (p ++ fmt) args = p ++ expand fmt args := by
  induction p with
  | nil => rfl
  | cons a p ih =>
    simp only [List.mem_cons, not_or] at hp
    have ha : ¬ (a = ch '%') := fun h => hp.1 h.symm
    rw [List.cons_append, List.cons_append, ← ih hp.2]
    cases h : p ++ fmt with
    | nil => rfl
    | cons b t => simp [expand, ha]

@[simp] theorem expand_s (x fmt : Bytes) (args : List Bytes) :
    expand (bytes "%s" ++ fmt) (x :: args) = x ++ expand fmt args := rfl

@[simp] theorem expand_V (x fmt : Bytes) (args : List Bytes) :
    expand (bytes "%V" ++ fmt) (x :: args) = x ++ expand fmt args := rfl

theorem expand_text {p : Bytes} (hp : ch '%' ∉ p) (args : List Bytes) : expand p args = p := by
  have h := expand_append hp [] args
  rwa [List.append_nil, show expand [] args = [] by cases args <;> rfl, List.append_nil] at h

theorem strstr_suffix {s t r : Bytes} (h : strstr s t = some r) : r <:+ s := by
  induction s with
  | nil =>
    simp only [strstr] at h
    split_ifs at h
    simp_all
  | cons a s ih =>
    simp only [strstr] at h
    split_ifs at h with hp
    · simp_all
    · exact (ih h).trans (List.suffix_cons a s)

theorem strstr_starts {s t r : Bytes} (h : strstr s t = some r) : t <+: r := by
  induction s with
  | nil =>
    simp only [strstr] at h
    split_ifs at h with hp
    simp_all
  | cons a s ih =>
    simp only [strstr] at h
    split_ifs at h with hp
    · obtain rfl := Option.some.inj h
      exact List.isPrefixOf_iff_prefix.mp hp
    · exact ih h

theorem strstr_eq_none {s t : Bytes} : strstr s t = none ↔ ¬ t <:+: s := by
  induction s with
  | nil =>
    simp only [strstr, ite_eq_right_iff, List.isPrefixOf_iff_prefix, List.prefix_nil, List.infix_nil]
    simp
  | cons a s ih =>
    rw [List.infix_cons_iff, ← List.isPrefixOf_iff_prefix, strstr]
    split_ifs with hp
    · simp [hp]
    · simp [hp, ih]

theorem strstr_isSome {s t : Bytes} : (strstr s t).isSome ↔ t <:+: s := by
  rw [Option.isSome_iff_ne_none, ne_eq, strstr_eq_none, not_not]

/-- No occurrence starts before the one `strstr` reports. -/
theorem strstr_first {s t r : Bytes} (h : strstr s t = some r) :
    ∀ k, k + r.length < s.length → ¬ OccursAt s t k := by
  induction s with
  | nil => intro k hk; simp at hk
  | cons a s ih =>
    intro k hk
    simp only [strstr] at h
    split_ifs at h with hp
    · obtain rfl := Option.some.inj h
      omega
    · cases k with
      | zero => simpa [OccursAt, List.isPrefixOf_iff_prefix] using hp
      | succ k =>
        have hr : k + r.length < s.length := by
          simp only [List.length_cons] at hk; omega
        simpa [OccursAt] using ih h k hr

/-- The first occurrence is where `strstr` points. -/
theorem strstr_append {p r t : Bytes} (ht : t <+: r)
    (hfirst : ∀ k < p.length, ¬ OccursAt (p ++ r) t k) : strstr (p ++ r) t = some r := by
  induction p with
  | nil =>
    cases r with
    | nil => simp_all [strstr]
    | cons a r => simp [strstr, List.isPrefixOf_iff_prefix, ht]
  | cons a p ih =>
    have h0 : ¬ t <+: a :: (p ++ r) := by simpa [OccursAt] using hfirst 0 (by simp)
    have hs : ∀ k < p.length, ¬ OccursAt (p ++ r) t k := by
      intro k hk
      simpa [OccursAt] using hfirst (k + 1) (by simpa using hk)
    simp [strstr, List.isPrefixOf_iff_prefix, h0, ih hs]

theorem strstr_split {s t r : Bytes} (h : strstr s t = some r) :
    ∃ p, s = p ++ r ∧ t <+: r ∧ ∀ k < p.length, ¬ OccursAt s t k := by
  obtain ⟨p, rfl⟩ := strstr_suffix h
  refine ⟨p, rfl, strstr_starts h, fun k hk => strstr_first h k ?_⟩
  simp only [List.length_append]; omega

theorem strstr_extend {s t r : Bytes} (h : strstr s t = some r) (q : Bytes) :
    strstr (s ++ q) t = some (r ++ q) := by
  obtain ⟨p, rfl, ht, hfirst⟩ := strstr_split h
  rw [List.append_assoc]
  refine strstr_append (ht.trans (List.prefix_append r q)) fun k hk hocc => hfirst k hk ?_
  unfold OccursAt at hocc ⊢
  rw [← List.append_assoc, List.drop_append_of_le_length (by simp only [List.length_append]; omega)] at hocc
  refine List.prefix_of_prefix_length_le hocc (List.prefix_append _ _) ?_
  have := ht.length_le
  simp only [List.length_drop, List.length_append]
  omega

/-- No proper end of `t` is a beginning of it: two occurrences never overlap. -/
def Unbordered (t : Bytes) : Prop := ∀ k < t.length, 0 < k → ¬ t.drop k <+: t

instance (t : Bytes) : Decidable (Unbordered t) := Nat.decidableBallLT _ _

/-- An unbordered pattern that does not occur in `a` is found right behind `a`. -/
theorem strstr_unbordered {a r t : Bytes} (hu : Unbordered t) (hin : ¬ t <:+: a) :
    strstr (a ++ (t ++ r)) t = some (t ++ r) := by
  refine strstr_append (List.prefix_append t r) fun k hk hocc => ?_
  rw [OccursAt, List.drop_append_of_le_length hk.le] at hocc
  obtain ⟨x, hx⟩ := hocc
  rcases List.append_eq_append_iff.mp hx with ⟨u, hu', -⟩ | ⟨u, hu', hr⟩
  · -- the occurrence ends in `a`
    have hpre : t <+: a.drop k := ⟨u, hu'.symm⟩
    exact hin (hpre.isInfix.trans (List.drop_suffix k a).isInfix)
  · -- or it runs into the one behind `a`
    have hlen : t.length = a.length - k + u.length := by
      rw [hu', List.length_append, List.length_drop]
    by_cases hnil : u = []
    · rw [hnil, List.append_nil] at hu'
      exact hin (hu' ▸ (List.drop_suffix k a).isInfix)
    have hpos := List.length_pos_iff.mpr hnil
    refine hu (a.length - k) (by omega) (by omega) ?_
    have hdrop : t.drop (a.length - k) = u := by
      rw [hu', ← List.length_drop, List.drop_left]
    rw [hdrop]
    refine List.prefix_of_prefix_length_le ⟨x, hr.symm⟩ (List.prefix_append t r) (by omega)

theorem OccursAt.occurs {s t : Bytes} {k : ℕ} (h : OccursAt s t k) : t <:+: s :=
  h.isInfix.trans (List.drop_suffix k s).isInfix

/-- An occurrence that ends before the text that is appended. -/
theorem OccursAt.of_append {s r t : Bytes} {k : ℕ} (h : OccursAt (s ++ r) t k) (hk : k + t.length ≤ s.length) :
    OccursAt s t k := by
  rw [OccursAt, List.drop_append_of_le_length (by omega)] at h
  refine List.prefix_of_prefix_length_le h (List.prefix_append _ _) ?_
  rw [List.length_drop]
  omega

theorem occursAt_iff {s t : Bytes} {k : ℕ} :
    OccursAt s t k ↔ ∀ j < t.length, s[k + j]? = t[j]? := by
  unfold OccursAt
  rw [List.prefix_iff_getElem?]
  refine forall₂_congr fun j hj => ?_
  rw [List.getElem?_drop, List.getElem?_eq_getElem hj]

/-- Where every position of `a` clashes with `t` inside `a`, an occurrence lies behind `a`. -/
theorem infix_append_of_clash {a r t : Bytes}
    (h : ∀ k < a.length, ∃ j < t.length, k + j < a.length ∧ a[k + j]? ≠ t[j]?) :
    t <:+: a ++ r ↔ t <:+: r := by
  refine ⟨fun ⟨p, q, hpq⟩ => ?_, fun hr => hr.trans (List.suffix_append a r).isInfix⟩
  have hocc : OccursAt (a ++ r) t p.length := by
    rw [OccursAt, ← hpq, List.append_assoc, List.drop_left]
    exact List.prefix_append t q
  by_cases hk : p.length < a.length
  · obtain ⟨j, hj, hlt, hne⟩ := h p.length hk
    have := occursAt_iff.mp hocc j hj
    rw [List.getElem?_append_left hlt] at this
    exact absurd this hne
  · rw [OccursAt, List.drop_append, List.drop_eq_nil_of_le (not_lt.mp hk), List.nil_append] at hocc
    exact hocc.isInfix.trans (List.drop_suffix _ r).isInfix

/-- A pattern without the byte `c` does not reach across it. -/
theorem not_infix_separated {a b t : Bytes} {c : UInt8} (hc : c ∉ t) (ha : ¬ t <:+: a) (hb : ¬ t <:+: b) :
    ¬ t <:+: a ++ c :: b := by
  rintro ⟨p, q, hpq⟩
  rw [List.append_assoc] at hpq
  rcases List.append_eq_append_iff.mp hpq with ⟨u, rfl, hu⟩ | ⟨u, hp, hu⟩
  · -- the occurrence starts in `a`
    rcases List.append_eq_append_iff.mp hu with ⟨v, rfl, -⟩ | ⟨v, rfl, hv⟩
    · exact ha ⟨p, v, by simp⟩
    · cases v with
      | nil => exact ha ⟨p, [], by simp⟩
      | cons d v =>
        obtain ⟨rfl, -⟩ := List.cons.inj (show c :: b = d :: (v ++ q) from hv)
        exact hc (by simp)
  · cases u with
    | nil =>
      -- it would have to start at `c`
      cases t with
      | nil => exact ha ⟨[], a, by simp⟩
      | cons d t =>
        obtain ⟨rfl, -⟩ := List.cons.inj (show c :: b = d :: (t ++ q) from hu)
        exact hc (by simp)
    | cons d u =>
      obtain ⟨-, hb'⟩ := List.cons.inj (show c :: b = d :: (u ++ (t ++ q)) from hu)
      exact hb ⟨u, q, by rw [hb']; simp⟩

/-- A step that reads one byte of a class and hands over to `g`. -/
theorem expect_iff {α : Type*} {f : Bytes → Option α} {g : UInt8 → Bytes → Option α}
    {p : UInt8 → Bool} (hnil : f [] = none)
    (hcons : ∀ c s, f (c :: s) = if p c then g c s else none) (s : Bytes) (n : α) :
    f s = some n ↔ ∃ c r, s = c :: r ∧ p c = true ∧ g c r = some n := by
  cases s with
  | nil => simp [hnil]
  | cons a s =>
    rw [hcons]
    simp

/-- A loop that skips the bytes of a class and then hands over to `g`. -/
theorem skip_iff {α : Type*} {f : Bytes → Option α} {g : UInt8 → Bytes → Option α} {p : UInt8 → Bool}
    (hnil : f [] = none) (hcons : ∀ c s, f (c :: s) = if p c then f s else g c s) (s : Bytes) (n : α) :
    f s = some n ↔ ∃ t c r, s = t ++ c :: r ∧ (∀ b ∈ t, p b = true) ∧ p c = false ∧ g c r = some n := by
  induction s with
  | nil => simp [hnil]
  | cons a s ih =>
    rw [hcons]
    constructor
    · intro h
      cases hp : p a with
      | true =>
        rw [if_pos hp, ih] at h
        obtain ⟨t, c, r, rfl, ht, hc, hg⟩ := h
        exact ⟨a :: t, c, r, rfl, List.forall_mem_cons.mpr ⟨hp, ht⟩, hc, hg⟩
      | false =>
        rw [if_neg (by simp [hp])] at h
        exact ⟨[], a, s, rfl, List.forall_mem_nil _, hp, h⟩
    · rintro ⟨t, c, r, hs, ht, hc, hg⟩
      cases t with
      | nil =>
        obtain ⟨rfl, rfl⟩ := List.cons_eq_cons.mp hs
        rwa [if_neg (by simp [hc])]
      | cons b t =>
        obtain ⟨rfl, rfl⟩ := List.cons_eq_cons.mp hs
        obtain ⟨hb, ht⟩ := List.forall_mem_cons.mp ht
        rw [if_pos hb, ih]
        exact ⟨t, c, r, rfl, ht, hc, hg⟩

end CStr
