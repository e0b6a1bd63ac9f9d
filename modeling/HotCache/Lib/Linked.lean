import Mathlib.Data.List.Nodup
import Mathlib.Tactic

/-! Singly linked lists as a predicate on the `next` map: what the list is, that writes
elsewhere leave it alone, and what pushing a head or unlinking an element does. -/

namespace Linked

variable {α : Type} {next next' : α → Option α}

/-- `IsList next p l`: following `next` from `p` visits exactly `l` and ends in `none`. -/
def IsList (next : α → Option α) : Option α → List α → Prop
  | p, [] => p = none
  | p, a :: l => p = some a ∧ IsList next (next a) l

@[simp] theorem isList_nil {p : Option α} : IsList next p [] ↔ p = none := Iff.rfl

@[simp] theorem isList_cons {p : Option α} {a : α} {l : List α} :
    IsList next p (a :: l) ↔ p = some a ∧ IsList next (next a) l := Iff.rfl

theorem IsList.congr {p : Option α} {l : List α} (h : IsList next p l)
    (he : ∀ a ∈ l, next' a = next a) : IsList next' p l := by
  induction l generalizing p with
  | nil => exact h
  | cons a l ih =>
    refine ⟨h.1, ?_⟩
    rw [he a (by simp)]
    exact ih h.2 fun b hb => he b (by simp [hb])

theorem IsList.unique {p : Option α} {l l' : List α} (h : IsList next p l)
    (h' : IsList next p l') : l = l' := by
  induction l generalizing p l' with
  | nil =>
    cases l' with
    | nil => rfl
    | cons b l' => rw [isList_nil.mp h] at h'; exact absurd h'.1 (by simp)
  | cons a l ih =>
    cases l' with
    | nil => rw [isList_nil.mp h'] at h; exact absurd h.1 (by simp)
    | cons b l' =>
      obtain rfl : a = b := Option.some.inj (h.1.symm.trans h'.1)
      rw [ih h.2 h'.2]

theorem IsList.suffix {p : Option α} {l₁ l₂ : List α} {a : α} (h : IsList next p (l₁ ++ a :: l₂)) :
    IsList next (next a) l₂ := by
  induction l₁ generalizing p with
  | nil => exact h.2
  | cons c l₁ ih => exact ih h.2

/-- The elements met by following `next` from `p`, `n` of them at most. -/
def follow (next : α → Option α) : ℕ → Option α → List α
  | 0, _ => []
  | _ + 1, none => []
  | n + 1, some a => a :: follow next n (next a)

theorem IsList.follow_eq {p : Option α} {l : List α} (h : IsList next p l) {n : ℕ} (hn : l.length ≤ n) :
    follow next n p = l := by
  induction l generalizing p n with
  | nil =>
    rw [isList_nil.mp h]
    cases n with
    | zero => rfl
    | succ n => rfl
  | cons a l ih =>
    obtain ⟨rfl, htail⟩ := h
    cases n with
    | zero => simp at hn
    | succ n =>
      rw [follow, ih htail]
      simp only [List.length_cons] at hn
      omega

variable [DecidableEq α]

/-- Redirecting the predecessor of `b` past `b` removes `b` and nothing else. -/
theorem IsList.unlink {p : Option α} {l₁ l₂ : List α} {a b : α}
    (h : IsList next p (l₁ ++ a :: b :: l₂)) (hnd : (l₁ ++ a :: b :: l₂).Nodup) :
    IsList (Function.update next a (next b)) p (l₁ ++ a :: l₂) := by
  induction l₁ generalizing p with
  | nil =>
    have ha : a ∉ l₂ := by simp_all
    refine ⟨h.1, ?_⟩
    rw [Function.update_self]
    refine h.2.2.congr fun c hc => ?_
    have hca : c ≠ a := by rintro rfl; exact ha hc
    exact Function.update_of_ne hca _ _
  | cons c l₁ ih =>
    have hca : c ≠ a := by rintro rfl; simp at hnd
    refine ⟨h.1, ?_⟩
    rw [Function.update_of_ne hca]
    exact ih h.2 (List.nodup_cons.mp hnd).2

end Linked
