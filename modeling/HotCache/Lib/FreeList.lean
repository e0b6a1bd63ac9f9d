import Mathlib.Data.Fintype.Card
import Mathlib.Data.List.Nodup
import Mathlib.Tactic

/-! A free list threaded through an array of slots. Each slot has one word (`link`) that
holds the address of the next free slot while the slot is free, and the slot's own index
while it is in use. The two readings cannot be confused because the array lies above
every index. -/

namespace FreeList

/-- `(void *) -1` on a 64-bit machine. -/
def invalidPtr : ℕ := 2 ^ 64 - 1

/-- `n` slots of `size` bytes from address `base` on, above every slot index and below
`invalidPtr`. -/
structure SlotArray (n : ℕ) where
  base : ℕ
  size : ℕ
  size_pos : 0 < size
  index_le_base : n ≤ base
  fits : base + n * size ≤ invalidPtr

variable {n : ℕ} (A : SlotArray n)

def SlotArray.addr (i : Fin n) : ℕ := A.base + i * A.size

def SlotArray.indexOf (p : ℕ) : ℕ := (p - A.base) / A.size

def SlotArray.slotAt (p : ℕ) : Option (Fin n) :=
  if h : A.indexOf p < n then
    if A.addr ⟨A.indexOf p, h⟩ = p then some ⟨A.indexOf p, h⟩ else none
  else none

@[simp] theorem indexOf_addr (i : Fin n) : A.indexOf (A.addr i) = i := by
  simp [SlotArray.indexOf, SlotArray.addr, Nat.mul_div_cancel _ A.size_pos]

@[simp] theorem slotAt_addr (i : Fin n) : A.slotAt (A.addr i) = some i := by
  simp [SlotArray.slotAt]

theorem index_lt_addr (i j : Fin n) : (i : ℕ) < A.addr j := by
  have h := A.index_le_base
  have := i.isLt
  unfold SlotArray.addr
  omega

theorem addr_lt_invalid (i : Fin n) : A.addr i < invalidPtr := by
  have h := A.fits
  have hi : (i + 1) * A.size ≤ n * A.size := Nat.mul_le_mul_right _ i.isLt
  have := A.size_pos
  unfold SlotArray.addr
  rw [Nat.add_mul, Nat.one_mul] at hi
  omega

theorem index_lt_invalid (A : SlotArray n) (i : Fin n) : (i : ℕ) < invalidPtr :=
  (index_lt_addr A i i).trans (addr_lt_invalid A i)

/-- `Chain A link p l`: following `link` from the pointer `p` visits exactly the slots `l`
and then meets `invalidPtr`. -/
def Chain (link : Fin n → ℕ) : ℕ → List (Fin n) → Prop
  | p, [] => p = invalidPtr
  | p, i :: l => p = A.addr i ∧ Chain link (link i) l

variable {A}

theorem Chain.congr {link link' : Fin n → ℕ} {p : ℕ} {l : List (Fin n)} (h : Chain A link p l)
    (he : ∀ i ∈ l, link' i = link i) : Chain A link' p l := by
  induction l generalizing p with
  | nil => exact h
  | cons i l ih =>
    refine ⟨h.1, ?_⟩
    rw [he i (by simp)]
    exact ih h.2 fun j hj => he j (by simp [hj])

variable (A)

/-- The pool invariant: `free` heads a duplicate-free chain `l`, `cnt` slots are not on
it, and those are the slots whose word is their own index. -/
structure Valid (link : Fin n → ℕ) (free cnt : ℕ) (l : List (Fin n)) : Prop where
  chain : Chain A link free l
  nodup : l.Nodup
  count : cnt + l.length = n
  used : ∀ i, link i = i ↔ i ∉ l

variable {A} {link link' : Fin n → ℕ} {free cnt : ℕ} {l : List (Fin n)}

theorem Valid.congr (h : Valid A link free cnt l) (he : ∀ i, link' i = link i) :
    Valid A link' free cnt l :=
  ⟨h.chain.congr fun i _ => he i, h.nodup, h.count, fun i => by rw [he i]; exact h.used i⟩

/-- The word of a free slot is an address or `invalidPtr`, so it is above every index. -/
theorem Valid.index_lt_link (h : Valid A link free cnt l) {i : Fin n} (hi : i ∈ l) (j : Fin n) :
    (j : ℕ) < link i := by
  obtain ⟨l₁, l₂, rfl⟩ := List.append_of_mem hi
  have hc := h.chain
  clear h hi
  induction l₁ generalizing free with
  | nil =>
    cases l₂ with
    | nil =>
      rw [show link i = invalidPtr from hc.2]
      exact index_lt_invalid A j
    | cons k l₂ =>
      rw [hc.2.1]
      exact index_lt_addr A j k
  | cons k l₁ ih => exact ih hc.2

theorem Valid.lt_iff (h : Valid A link free cnt l) (i : Fin n) : n ≤ link i ↔ i ∈ l := by
  constructor
  · intro hle
    by_contra hi
    have := (h.used i).mpr hi
    have := i.isLt
    omega
  · intro hi
    have := h.index_lt_link hi ⟨n - 1, by have := i.isLt; omega⟩
    simp only at this
    omega

theorem Valid.free_eq_invalid (h : Valid A link free cnt l) : free = invalidPtr ↔ l = [] := by
  cases l with
  | nil => exact ⟨fun _ => rfl, fun _ => h.chain⟩
  | cons i l =>
    have := addr_lt_invalid A i
    have hf := h.chain.1
    constructor
    · intro he; omega
    · intro he; cases he

theorem Valid.slotAt_free {i : Fin n} (h : Valid A link free cnt (i :: l)) :
    A.slotAt free = some i ∧ A.indexOf free = i ∧ free ≠ invalidPtr := by
  have hf := h.chain.1
  have := addr_lt_invalid A i
  refine ⟨by simp [hf], by simp [hf], by omega⟩

/-- The slots below `k`, the last one first. -/
def below (n : ℕ) : (k : ℕ) → k ≤ n → List (Fin n)
  | 0, _ => []
  | k + 1, h => ⟨k, h⟩ :: below n k (by omega)

theorem mem_below {k : ℕ} (hk : k ≤ n) (i : Fin n) : i ∈ below n k hk ↔ (i : ℕ) < k := by
  induction k with
  | zero => simp [below]
  | succ k ih =>
    rw [below, List.mem_cons, ih (by omega), Fin.ext_iff]
    simp only
    omega

theorem length_below {k : ℕ} (hk : k ≤ n) : (below n k hk).length = k := by
  induction k with
  | zero => rfl
  | succ k ih => rw [below, List.length_cons, ih]

theorem nodup_below {k : ℕ} (hk : k ≤ n) : (below n k hk).Nodup := by
  induction k with
  | zero => exact List.nodup_nil
  | succ k ih =>
    refine List.nodup_cons.mpr ⟨?_, ih _⟩
    rw [mem_below]
    exact Nat.lt_irrefl k

/-- All slots are free when each one links to the slot before it. -/
theorem Valid.init (hn : 0 < n)
    (hlink : ∀ i, link i = if _h : (i : ℕ) = 0 then invalidPtr else A.addr ⟨i - 1, by omega⟩) :
    Valid A link (A.addr ⟨n - 1, by omega⟩) 0 (below n n le_rfl) := by
  have hchain : ∀ (k : ℕ) (hk : k + 1 ≤ n), Chain A link (A.addr ⟨k, hk⟩) (below n (k + 1) hk) := by
    intro k
    induction k with
    | zero =>
      intro hk
      refine ⟨rfl, ?_⟩
      show link ⟨0, hk⟩ = invalidPtr
      simp [hlink]
    | succ k ih =>
      intro hk
      refine ⟨rfl, ?_⟩
      rw [hlink]
      exact ih (by omega)
  obtain ⟨k, rfl⟩ : ∃ k, n = k + 1 := ⟨n - 1, by omega⟩
  refine ⟨hchain k le_rfl, nodup_below _, by rw [length_below]; omega, fun i => ?_⟩
  have hmem : i ∈ below (k + 1) (k + 1) le_rfl := by
    rw [mem_below]
    exact i.isLt
  simp only [hmem, not_true_eq_false, iff_false]
  rw [hlink]
  split
  · exact (index_lt_invalid A i).ne'
  · exact (index_lt_addr A i _).ne'

theorem Valid.pop {i : Fin n} (h : Valid A link free cnt (i :: l)) :
    Valid A (Function.update link i i) (link i) (cnt + 1) l := by
  have hnd := List.nodup_cons.mp h.nodup
  have hne : ∀ j ∈ l, Function.update link i (i : ℕ) j = link j := by
    intro j hj
    have hji : j ≠ i := by rintro rfl; exact hnd.1 hj
    exact Function.update_of_ne hji _ _
  refine ⟨h.chain.2.congr hne, hnd.2, ?_, fun j => ?_⟩
  · have := h.count
    simp only [List.length_cons] at this
    omega
  · by_cases hj : j = i
    · subst hj; simp [hnd.1]
    · rw [Function.update_of_ne hj, h.used j]
      simp [hj]

theorem Valid.push {i : Fin n} (h : Valid A link free cnt l) (hi : i ∉ l) :
    0 < cnt ∧ Valid A (Function.update link i free) (A.addr i) (cnt - 1) (i :: l) := by
  have hnd : (i :: l).Nodup := List.nodup_cons.mpr ⟨hi, h.nodup⟩
  have hlen : (i :: l).length ≤ n := by
    simpa using hnd.length_le_card
  have hc := h.count
  simp only [List.length_cons] at hlen
  refine ⟨by omega, ⟨⟨rfl, ?_⟩, hnd, ?_, fun j => ?_⟩⟩
  · rw [Function.update_self]
    refine h.chain.congr fun j hj => ?_
    have hji : j ≠ i := by rintro rfl; exact hi hj
    exact Function.update_of_ne hji _ _
  · simp only [List.length_cons]
    omega
  · by_cases hj : j = i
    · subst hj
      -- the pushed slot's word is now a pointer, never its index
      simp only [Function.update_self, List.mem_cons, true_or, not_true_eq_false, iff_false]
      cases l with
      | nil =>
        rw [show free = invalidPtr from h.chain]
        exact (index_lt_invalid A j).ne'
      | cons k l =>
        rw [h.chain.1]
        exact (index_lt_addr A j k).ne'
    · rw [Function.update_of_ne hj, h.used j]
      simp [hj]

end FreeList
