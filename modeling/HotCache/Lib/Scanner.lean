import Mathlib.Tactic

/-! Scanners that stop at the end of what has arrived and go on with the next piece. A step sees the
buffer received so far, its position in it, the byte there and the state. -/

namespace Scanner

inductive Step (σ ε : Type*)
  | next (s : σ)
  | done (s : σ)
  | fail (e : ε)

/-- How a scan ends: at the end of the buffer, at the position where it is done, or with an error. -/
inductive Result (σ ε : Type*)
  | again (s : σ) (p : ℕ)
  | done (s : σ) (p : ℕ)
  | fail (e : ε)

def Step.Keeps {σ ε : Type*} (P Q : σ → Prop) : Step σ ε → Prop
  | .next s => P s
  | .done s => Q s
  | .fail _ => True

def Result.Ends {σ ε : Type*} (Q : σ → Prop) (r : Result σ ε) : Prop := ∀ s p, r = .done s p → Q s

variable {α σ ε : Type*}

/-- The loop over the bytes of `buf` from position `p` on. -/
def scan (step : List α → ℕ → α → σ → Step σ ε) (buf : List α) : List α → ℕ → σ → Result σ ε
  | [], p, s => .again s p
  | x :: xs, p, s =>
    match step buf p x s with
    | .next s => scan step buf xs (p + 1) s
    | .done s => .done s p
    | .fail e => .fail e

/-- The reader calls the scanner again whenever a piece has been appended to the buffer. -/
def feed (step : List α → ℕ → α → σ → Step σ ε) : List (List α) → List α → ℕ → σ → Result σ ε
  | [], _, p, s => .again s p
  | piece :: pieces, buf, p, s =>
    match scan step (buf ++ piece) ((buf ++ piece).drop p) p s with
    | .again s p => feed step pieces (buf ++ piece) p s
    | .done s p => .done s p
    | .fail e => .fail e

variable {step : List α → ℕ → α → σ → Step σ ε} {buf xs ys : List α} {p : ℕ} {s : σ}

theorem scan_next {x : α} {s' : σ} (h : step buf p x s = .next s') :
    scan step buf (x :: xs) p s = scan step buf xs (p + 1) s' := by
  rw [scan, h]

theorem scan_append : scan step buf (xs ++ ys) p s =
    match scan step buf xs p s with
    | .again s p => scan step buf ys p s
    | .done s p => .done s p
    | .fail e => .fail e := by
  induction xs generalizing p s with
  | nil => rfl
  | cons x xs ih =>
    rw [List.cons_append, scan, scan]
    cases step buf p x s with
    | next s => exact ih
    | done s => rfl
    | fail e => rfl

theorem scan_append_again {s' : σ} {q : ℕ} (h : scan step buf xs p s = .again s' q) :
    scan step buf (xs ++ ys) p s = scan step buf ys q s' := by
  rw [scan_append, h]

theorem scan_again_pos {s' : σ} {q : ℕ} (h : scan step buf xs p s = .again s' q) : q = p + xs.length := by
  induction xs generalizing p s with
  | nil =>
    rw [scan] at h
    cases h
    rfl
  | cons x xs ih =>
    rw [scan] at h
    cases hstep : step buf p x s with
    | next s =>
      rw [hstep] at h
      rw [ih h, List.length_cons]
      omega
    | done s =>
      rw [hstep] at h
      cases h
    | fail e =>
      rw [hstep] at h
      cases h

theorem Step.Keeps.mono {P Q P' Q' : σ → Prop} {r : Step σ ε} (h : r.Keeps P Q) (hp : ∀ s, P s → P' s)
    (hq : ∀ s, Q s → Q' s) : r.Keeps P' Q' := by
  cases r with
  | next s => exact hp s h
  | done s => exact hq s h
  | fail e => trivial

theorem Step.Keeps.ite {P Q : σ → Prop} {c : Prop} [Decidable c] {a b : Step σ ε} (ha : a.Keeps P Q)
    (hb : b.Keeps P Q) : (if c then a else b).Keeps P Q := by
  split_ifs
  · exact ha
  · exact hb

/-- What every step keeps, the scan keeps. -/
theorem scan_ends {P Q : σ → Prop} (hstep : ∀ p x s, P s → (step buf p x s).Keeps P Q) (hs : P s) :
    (scan step buf xs p s).Ends Q := by
  induction xs generalizing p s with
  | nil =>
    intro s' q h
    cases h
  | cons x xs ih =>
    have hx := hstep p x s hs
    rw [scan]
    cases hres : step buf p x s with
    | next s' =>
      rw [hres] at hx
      exact ih hx
    | done s' =>
      rw [hres] at hx
      intro s'' q h
      cases h
      exact hx
    | fail e =>
      intro s'' q h
      cases h

theorem scan_cons_ends {P Q : σ → Prop} {x : α} (hstep : ∀ p x s, P s → (step buf p x s).Keeps P Q)
    (hx : (step buf p x s).Keeps P Q) : (scan step buf (x :: xs) p s).Ends Q := by
  rw [scan]
  cases hres : step buf p x s with
  | next s' =>
    rw [hres] at hx
    exact scan_ends hstep hx
  | done s' =>
    rw [hres] at hx
    intro s'' q h
    cases h
    exact hx
  | fail e =>
    intro s'' q h
    cases h

/-- A step reads of the buffer only what stands up to its position. -/
def LooksBack (step : List α → ℕ → α → σ → Step σ ε) : Prop :=
  ∀ buf more p x s, p < buf.length → step (buf ++ more) p x s = step buf p x s

theorem scan_extend (h : LooksBack step) (more : List α) (hp : p + xs.length ≤ buf.length) :
    scan step (buf ++ more) xs p s = scan step buf xs p s := by
  induction xs generalizing p s with
  | nil => rfl
  | cons x xs ih =>
    rw [List.length_cons] at hp
    rw [scan, scan, h buf more p x s (by omega)]
    cases step buf p x s with
    | next s => exact ih (by omega)
    | done s => rfl
    | fail e => rfl

/-- In whatever pieces the bytes arrive, the result is that of one scan over all of them. -/
theorem feed_eq (h : LooksBack step) (pieces : List (List α)) :
    feed step pieces buf buf.length s =
      scan step (buf ++ pieces.flatten) pieces.flatten buf.length s := by
  induction pieces generalizing buf s with
  | nil => rfl
  | cons piece pieces ih =>
    have hfirst : scan step (buf ++ (piece :: pieces).flatten) piece buf.length s =
        scan step (buf ++ piece) piece buf.length s := by
      rw [List.flatten_cons, ← List.append_assoc]
      exact scan_extend h _ (by rw [List.length_append])
    rw [feed, List.drop_left, List.flatten_cons, scan_append, ← List.flatten_cons, hfirst]
    cases hres : scan step (buf ++ piece) piece buf.length s with
    | again s' q =>
      have hq : q = (buf ++ piece).length := by rw [scan_again_pos hres, List.length_append]
      dsimp only
      rw [hq, ih, List.flatten_cons, List.append_assoc]
    | done s' q => rfl
    | fail e => rfl

end Scanner
