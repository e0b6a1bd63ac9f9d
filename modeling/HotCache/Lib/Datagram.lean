import Mathlib.Logic.Relation
import Mathlib.Tactic

/-! A server that answers requests over a network which loses, repeats and reorders what is in flight,
in both directions. A request whose answer stays true while the server goes on may be repeated at any
time. -/

namespace Datagram

/-- A server: what it does on its own, and the rounds in which it takes a request. -/
structure Service (σ κ ρ : Type*) where
  init : σ
  own : σ → σ → Prop
  serves : σ → κ → Option ρ → σ → Prop

/-- The server with what is in flight; `answered` is the history of the answers given. -/
structure Net (σ κ ρ : Type*) where
  state : σ
  requests : List κ := []
  replies : List ρ := []
  answered : List (κ × ρ) := []

namespace Service

variable {σ κ ρ : Type*}

inductive Step (S : Service σ κ ρ) : Net σ κ ρ → Net σ κ ρ → Prop
  | send (n : Net σ κ ρ) (q : κ) : S.Step n { n with requests := q :: n.requests }
  | transport (n : Net σ κ ρ) (qs : List κ) (rs : List ρ) (hq : qs ⊆ n.requests) (hr : rs ⊆ n.replies) :
      S.Step n { n with requests := qs, replies := rs }
  | serve (n : Net σ κ ρ) (q : κ) (r : Option ρ) (s : σ) (hq : q ∈ n.requests) (h : S.serves n.state q r s) :
      S.Step n ⟨s, n.requests, r.toList ++ n.replies, r.toList.map (q, ·) ++ n.answered⟩
  | own (n : Net σ κ ρ) (s : σ) (h : S.own n.state s) : S.Step n { n with state := s }

def Reachable (S : Service σ κ ρ) (n : Net σ κ ρ) : Prop := Relation.ReflTransGen S.Step { state := S.init } n

/-- What the server keeps, it keeps on any network. -/
structure Keeps (S : Service σ κ ρ) (I : σ → Prop) : Prop where
  init : I S.init
  own : ∀ s s', I s → S.own s s' → I s'
  serves : ∀ s q r s', I s → S.serves s q r s' → I s'

variable {S : Service σ κ ρ} {n n' : Net σ κ ρ} {I : σ → Prop}

theorem Keeps.step (h : S.Keeps I) (hi : I n.state) (hs : S.Step n n') : I n'.state := by
  cases hs with
  | send q => exact hi
  | transport qs rs hq hr => exact hi
  | serve q r s hq hserve => exact h.serves _ q r s hi hserve
  | own s hown => exact h.own _ s hi hown

theorem Keeps.reachable (h : S.Keeps I) (hn : S.Reachable n) : I n.state := by
  induction hn with
  | refl => exact h.init
  | tail _ hs ih => exact h.step ih hs

theorem mem_answered (q : κ) (r : ρ) (l : List (κ × ρ)) : (q, r) ∈ (some r).toList.map (q, ·) ++ l := by simp

/-- No reply is made up by the network. -/
theorem Reachable.replies_answered (hn : S.Reachable n) : ∀ r ∈ n.replies, ∃ q, (q, r) ∈ n.answered := by
  induction hn with
  | refl => exact fun r hr => absurd hr List.not_mem_nil
  | tail _ hs ih =>
    cases hs with
    | send q => exact ih
    | transport qs rs hq hr => exact fun r hmem => ih r (hr hmem)
    | serve q r s hq hserve =>
      intro r' hr'
      rcases List.mem_append.mp hr' with hnew | hold
      · exact ⟨q, List.mem_append_left _ (List.mem_map_of_mem hnew)⟩
      · obtain ⟨q', hq'⟩ := ih r' hold
        exact ⟨q', List.mem_append_right _ hq'⟩
    | own s hown => exact ih

/-- A fact that an answer establishes and that every step of the server keeps holds of all answers
that have been given, however long ago. -/
theorem Reachable.answered_holds {P : κ → ρ → σ → Prop} (hn : S.Reachable n) (hI : S.Keeps I)
    (hans : ∀ s q r s', I s → S.serves s q (some r) s' → P q r s')
    (hserves : ∀ q r s q' r' s', I s → P q r s → S.serves s q' r' s' → P q r s')
    (hown : ∀ q r s s', I s → P q r s → S.own s s' → P q r s') :
    ∀ q r, (q, r) ∈ n.answered → P q r n.state := by
  induction hn with
  | refl => exact fun q r hmem => absurd hmem List.not_mem_nil
  | @tail n₁ n₂ hpre hs ih =>
    have hi := hI.reachable hpre
    cases hs with
    | send q => exact ih
    | transport qs rs hq hr => exact ih
    | serve q r s hq hserve =>
      intro q' r' hmem
      rcases List.mem_append.mp hmem with hnew | hold
      · obtain ⟨r₀, hr₀, heq⟩ := List.mem_map.mp hnew
        obtain ⟨rfl, rfl⟩ := Prod.mk.inj heq
        obtain rfl := Option.mem_toList.mp hr₀
        exact hans _ q r₀ s hi hserve
      · exact hserves q' r' _ q r s hi (ih q' r' hold) hserve
    | own s hstep => exact fun q r hmem => hown q r _ s hi (ih q r hmem) hstep

end Service

end Datagram
