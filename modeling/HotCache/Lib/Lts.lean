import Mathlib.Logic.Relation
import Mathlib.Tactic

/-! Labelled transition systems, and their runs under a condition on each step. -/

namespace Lts

structure System (σ α : Type*) where
  init : σ
  step : σ → α → σ → Prop

/-- The states of the runs in which every step `a`, taken in a state `s`, meets `C s a`. -/
inductive System.Run {σ α : Type*} (S : System σ α) (C : σ → α → Prop) : σ → Prop
  | init : S.Run C S.init
  | step {s s' : σ} {a : α} (h : S.Run C s) (hs : S.step s a s') (hC : C s a) : S.Run C s'

namespace System.Run

variable {σ α : Type*} {S : System σ α} {C : σ → α → Prop} {s : σ}

/-- What holds at the start and is kept by the steps that meet `C` holds along the runs. -/
theorem invariant {I : σ → Prop} (h : S.Run C s) (hinit : I S.init)
    (hstep : ∀ s a s', S.Run C s → I s → S.step s a s' → C s a → I s') : I s := by
  induction h with
  | init => exact hinit
  | step h hs hC ih => exact hstep _ _ _ h ih hs hC

theorem reachable (h : S.Run C s) :
    Relation.ReflTransGen (fun s s' => ∃ a, S.step s a s') S.init s := by
  induction h with
  | init => exact .refl
  | step _ hs _ ih => exact ih.tail ⟨_, hs⟩

end System.Run

/-- The states reached by the steps with the labels of a list, in order. -/
inductive System.Trace {σ α : Type*} (S : System σ α) : List α → σ → Prop
  | nil : S.Trace [] S.init
  | snoc {l : List α} {s s' : σ} {a : α} (h : S.Trace l s) (hs : S.step s a s') : S.Trace (l ++ [a]) s'

structure Simulates {σ τ α : Type*} (S : System σ α) (T : System τ α) (R : σ → τ → Prop) : Prop where
  init : R S.init T.init
  step : ∀ {s t a s'}, R s t → S.step s a s' → ∃ t', T.step t a t' ∧ R s' t'

theorem Simulates.trace {σ τ α : Type*} {S : System σ α} {T : System τ α} {R : σ → τ → Prop}
    (h : Simulates S T R) {l : List α} {s : σ} (hs : S.Trace l s) : ∃ t, T.Trace l t ∧ R s t := by
  induction hs with
  | nil => exact ⟨T.init, .nil, h.init⟩
  | snoc _ hstep ih =>
    obtain ⟨t, ht, hr⟩ := ih
    obtain ⟨t', ht', hr'⟩ := h.step hr hstep
    exact ⟨t', ht.snoc ht', hr'⟩

end Lts
