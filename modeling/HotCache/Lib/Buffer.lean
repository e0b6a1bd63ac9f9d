import HotCache.Lib.CString
import Mathlib.Tactic

/-! A destination buffer: the bytes around its start, by index, and a record of the indices that have
been written. An index may lie outside the buffer; the writes decide whether the code stayed in. -/

namespace Buffer

open CStr

structure Buf where
  byte : ℤ → UInt8
  written : List ℤ := []

def Buf.put (b : Buf) (i : ℤ) (x : UInt8) : Buf := ⟨Function.update b.byte i x, i :: b.written⟩

/-- Writes the bytes of `s` one after another, from index `i` on. -/
def Buf.putAll (b : Buf) (i : ℤ) : Bytes → Buf
  | [] => b
  | x :: s => (b.put i x).putAll (i + 1) s

/-- The buffer holds the string `s` and its terminator. -/
def Buf.Holds (b : Buf) (s : Bytes) : Prop :=
  (∀ k (h : k < s.length), b.byte k = s.get ⟨k, h⟩) ∧ b.byte s.length = 0

/-- Everything written so far lies in a buffer of `n` bytes. -/
def Buf.Inside (b : Buf) (n : ℕ) : Prop := ∀ i ∈ b.written, 0 ≤ i ∧ i < n

/-- The bytes of `t` stand in the buffer from index `i` on. -/
def Buf.At (b : Buf) (i : ℤ) (t : Bytes) : Prop := ∀ (k : ℕ) (x : UInt8), t[k]? = some x → b.byte (i + k) = x

def Buf.read (b : Buf) (n : ℕ) : Bytes := (List.range n).map fun k : ℕ => b.byte k

def Buf.strlen (b : Buf) (n : ℕ) : ℕ := ((b.read n).takeWhile (· ≠ 0)).length

def Buf.strcat (b : Buf) (n : ℕ) (s : Bytes) : Buf := b.putAll (b.strlen n) (s ++ [0])

/-- `strncpy(b + i, s, k)`: a longer string is cut without a terminator, a shorter one is padded. -/
def Buf.strncpy (b : Buf) (i : ℤ) (s : Bytes) (k : ℕ) : Buf :=
  b.putAll i (s.take k ++ List.replicate (k - s.length) 0)

variable {b : Buf} {i j : ℤ} {s : Bytes}

@[simp] theorem put_self (b : Buf) (i : ℤ) (x : UInt8) : (b.put i x).byte i = x := Function.update_self ..

theorem put_other {x : UInt8} (h : j ≠ i) : (b.put i x).byte j = b.byte j := Function.update_of_ne h _ _

theorem putAll_outside (h : j < i ∨ i + s.length ≤ j) : (b.putAll i s).byte j = b.byte j := by
  induction s generalizing b i with
  | nil => rfl
  | cons x s ih =>
    simp only [List.length_cons] at h
    push_cast at h
    rw [Buf.putAll, ih (by omega)]
    exact put_other (by omega)

theorem putAll_inside {k : ℕ} (hk : k < s.length) : (b.putAll i s).byte (i + k) = s.get ⟨k, hk⟩ := by
  induction s generalizing b i k with
  | nil => simp at hk
  | cons x s ih =>
    rw [Buf.putAll]
    cases k with
    | zero =>
      rw [putAll_outside (by simp)]
      simp
    | succ k =>
      have := ih (b := b.put i x) (i := i + 1) (k := k) (by simpa using hk)
      rw [Nat.cast_succ, show i + ((k : ℤ) + 1) = i + 1 + k by ring, this]
      rfl

theorem putAll_getElem? {k : ℕ} {x : UInt8} (h : s[k]? = some x) : (b.putAll 0 s).byte k = x := by
  obtain ⟨hk, rfl⟩ := List.getElem?_eq_some_iff.mp h
  have := putAll_inside (b := b) (i := 0) hk
  rwa [zero_add] at this

theorem mem_putAll_written : j ∈ (b.putAll i s).written ↔ j ∈ b.written ∨ (i ≤ j ∧ j < i + s.length) := by
  induction s generalizing b i with
  | nil =>
    simp only [Buf.putAll, List.length_nil, Nat.cast_zero, add_zero]
    constructor
    · exact .inl
    · rintro (hj | hj)
      · exact hj
      · omega
  | cons x s ih =>
    rw [Buf.putAll, ih]
    simp only [Buf.put, List.mem_cons, List.length_cons]
    push_cast
    constructor
    · rintro ((rfl | hj) | hj)
      · right; omega
      · exact .inl hj
      · right; omega
    · rintro (hj | hj)
      · exact .inl (.inr hj)
      · by_cases hi : j = i
        · exact .inl (.inl hi)
        · right; omega

theorem Buf.Inside.putAll {n : ℕ} (hin : b.Inside n) (hfrom : 0 ≤ i) (hto : i + s.length ≤ n) :
    (b.putAll i s).Inside n := by
  intro j hj
  rcases mem_putAll_written.mp hj with hj | hj
  · exact hin j hj
  · omega

theorem read_succ (b : Buf) (n : ℕ) : b.read (n + 1) = b.read n ++ [b.byte n] := by
  simp [Buf.read, List.range_succ]

@[simp] theorem read_length (b : Buf) (n : ℕ) : (b.read n).length = n := by simp [Buf.read]

theorem read_extend (b : Buf) {m n : ℕ} (h : m ≤ n) : ∃ t, b.read n = b.read m ++ t := by
  obtain ⟨d, rfl⟩ := Nat.exists_eq_add_of_le h
  exact ⟨_, by rw [Buf.read, List.range_add, List.map_append]; rfl⟩

theorem read_congr {b c : Buf} {n : ℕ} (h : ∀ k : ℕ, k < n → b.byte k = c.byte k) : b.read n = c.read n := by
  refine List.map_congr_left fun k hk => h k ?_
  exact List.mem_range.mp hk

theorem putAll_append (b : Buf) (i : ℤ) (s t : Bytes) :
    b.putAll i (s ++ t) = (b.putAll i s).putAll (i + s.length) t := by
  induction s generalizing b i with
  | nil => simp [Buf.putAll]
  | cons x s ih =>
    rw [List.cons_append, Buf.putAll, Buf.putAll, ih, List.length_cons]
    push_cast
    rw [add_assoc, add_comm 1 (s.length : ℤ)]

/-- What is written behind the first `n` bytes does not change them. -/
theorem read_putAll_before {n : ℕ} (h : (n : ℤ) ≤ i) : (b.putAll i s).read n = b.read n :=
  read_congr fun k hk => putAll_outside (by omega)

theorem read_put (b : Buf) (n : ℕ) (x : UInt8) : (b.put n x).read (n + 1) = b.read n ++ [x] := by
  have hbefore : (b.put n x).read n = b.read n := read_congr fun k hk => put_other (by omega)
  rw [read_succ, put_self, hbefore]

theorem read_putAll (b : Buf) (n : ℕ) (s : Bytes) : (b.putAll n s).read (n + s.length) = b.read n ++ s := by
  induction s generalizing b n with
  | nil => simp [Buf.putAll]
  | cons x s ih =>
    have hrest := ih (b.put n x) (n + 1)
    rw [read_put, Nat.add_assoc, Nat.add_comm 1] at hrest
    push_cast at hrest
    rw [Buf.putAll, List.length_cons, hrest]
    simp

theorem holds_iff_read {b : Buf} : b.Holds s ↔ b.read s.length = s ∧ b.byte s.length = 0 := by
  have hbytes : b.read s.length = s ↔ ∀ k (h : k < s.length), b.byte k = s.get ⟨k, h⟩ := by
    constructor
    · intro h k hk
      have hget : (b.read s.length)[k]? = s[k]? := by rw [h]
      simpa [Buf.read, hk] using hget
    · intro h
      refine List.ext_get (by simp) fun k _ hk => ?_
      simpa [Buf.read] using h k hk
  rw [hbytes, Buf.Holds]

theorem putAll_holds (b : Buf) (s : Bytes) : (b.putAll 0 (s ++ [0])).Holds s := by
  have hread := read_putAll b 0 s
  have hend : (b.putAll 0 (s ++ [0])).byte s.length = 0 := putAll_getElem? (by simp)
  rw [Nat.zero_add] at hread
  refine holds_iff_read.mpr ⟨?_, hend⟩
  rw [putAll_append, read_putAll_before (by simp)]
  exact hread

/-- A buffer holds one string, if strings have no NUL. -/
theorem holds_length_unique {b : Buf} {s t : Bytes} (hs : b.Holds s) (ht : b.Holds t) (hs0 : (0 : UInt8) ∉ s)
    (ht0 : (0 : UInt8) ∉ t) : s.length = t.length := by
  rcases lt_trichotomy s.length t.length with hlt | heq | hlt
  · refine absurd ?_ ht0
    rw [← hs.2, ht.1 _ hlt]
    exact List.get_mem ..
  · exact heq
  · refine absurd ?_ hs0
    rw [← ht.2, hs.1 _ hlt]
    exact List.get_mem ..

/-- Bytes written behind a text, with a terminator behind them that was there before. -/
theorem putAll_read_holds {t : Bytes} (hread : b.read s.length = s) (hend : b.byte (s.length + t.length) = 0) :
    (b.putAll s.length t).Holds (s ++ t) := by
  refine holds_iff_read.mpr ⟨?_, ?_⟩
  · rw [List.length_append, read_putAll, hread]
  · rw [List.length_append, putAll_outside (by right; push_cast; omega)]
    push_cast
    exact hend

theorem Buf.Holds.strlen {n : ℕ} (h : b.Holds s) (hs : (0 : UInt8) ∉ s) (hn : s.length < n) :
    b.strlen n = s.length := by
  obtain ⟨t, ht⟩ := read_extend b (show s.length + 1 ≤ n from hn)
  obtain ⟨hread, hend⟩ := holds_iff_read.mp h
  rw [Buf.strlen, ht, read_succ, hread, hend, List.append_assoc,
    List.takeWhile_append_of_pos (ne_of_notMem hs)]
  simp

theorem Buf.Holds.strcat {t : Bytes} {n : ℕ} (h : b.Holds s) (hs : (0 : UInt8) ∉ s) (hn : s.length < n) :
    (b.strcat n t).Holds (s ++ t) := by
  have hread := (holds_iff_read.mp h).1
  rw [Buf.strcat, h.strlen hs hn, putAll_append]
  refine holds_iff_read.mpr ⟨?_, ?_⟩
  · rw [List.length_append, read_putAll_before (by push_cast; omega), read_putAll, hread]
  · rw [List.length_append]
    push_cast
    exact put_self ..

/-- `strcat` into a buffer that has room for both strings. -/
theorem Buf.Holds.strcat_inside {t : Bytes} {n : ℕ} (h : b.Holds s) (hin : b.Inside n) (hs : (0 : UInt8) ∉ s)
    (hroom : s.length + t.length < n) : (b.strcat n t).Holds (s ++ t) ∧ (b.strcat n t).Inside n := by
  have hlt : s.length < n := by omega
  refine ⟨h.strcat hs hlt, ?_⟩
  rw [Buf.strcat, h.strlen hs hlt]
  apply hin.putAll (by omega)
  rw [List.length_append, List.length_singleton]
  omega

theorem at_cons {b : Buf} {x : UInt8} : b.At i (x :: s) ↔ b.byte i = x ∧ b.At (i + 1) s := by
  constructor
  · intro h
    refine ⟨by simpa using h 0 x rfl, fun k y hk => ?_⟩
    have hy := h (k + 1) y (by simpa using hk)
    rwa [Nat.cast_succ, add_comm (k : ℤ), ← add_assoc] at hy
  · rintro ⟨hx, hs⟩ k y hk
    cases k with
    | zero =>
      obtain rfl : x = y := by simpa using hk
      simpa using hx
    | succ k =>
      have hy := hs k y (by simpa using hk)
      rwa [add_assoc, add_comm 1 (k : ℤ), ← Nat.cast_succ] at hy

theorem Buf.At.put {x : UInt8} (h : b.At i s) (hj : j < i) : (b.put j x).At i s := by
  intro k y hk
  rw [put_other (by omega)]
  exact h k y hk

theorem Buf.Holds.at_zero (h : b.Holds s) : b.At 0 (s ++ [0]) := by
  intro k y hk
  rw [zero_add]
  rcases lt_trichotomy k s.length with hlt | rfl | hgt
  · rw [List.getElem?_append_left hlt, List.getElem?_eq_getElem hlt] at hk
    rw [h.1 k hlt]
    exact Option.some.inj hk
  · rw [List.getElem?_concat_length] at hk
    rw [h.2]
    exact Option.some.inj hk
  · rw [List.getElem?_eq_none (by simpa using hgt)] at hk
    cases hk

theorem Buf.At.drop (h : b.At i s) (k : ℕ) : b.At (i + k) (s.drop k) := by
  intro m x hm
  rw [List.getElem?_drop] at hm
  have hx := h (k + m) x hm
  rwa [Nat.cast_add, ← add_assoc] at hx

theorem Buf.Holds.read_take (h : b.Holds s) {k : ℕ} (hk : k ≤ s.length) : b.read k = s.take k := by
  obtain ⟨t, ht⟩ := read_extend b hk
  rw [(holds_iff_read.mp h).1] at ht
  rw [ht, List.take_append_of_le_length (by simp), List.take_of_length_le (by simp)]

theorem holds_of_read {b : Buf} {n : ℕ} {t : Bytes} (h : b.read n = s ++ 0 :: t) : b.Holds s := by
  have hn : n = s.length + 1 + t.length := by
    have hlen := congrArg List.length h
    simp only [read_length, List.length_append, List.length_cons] at hlen
    omega
  obtain ⟨u, hu⟩ := read_extend b (show s.length + 1 ≤ n by omega)
  rw [h, read_succ, List.append_cons] at hu
  have hfront := List.append_inj_left hu (by simp)
  obtain ⟨hread, hend⟩ := List.append_inj' hfront rfl
  exact holds_iff_read.mpr ⟨hread.symm, (List.cons.inj hend).1.symm⟩

end Buffer
