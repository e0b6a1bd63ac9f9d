import Mathlib.Data.Set.Basic
import Mathlib.Logic.Relation

/-! A table that another party keeps for its owner. The owner asks for keys to be added and deleted, each
time waiting for the result; the network may deliver a request again at any later time, or never. -/

namespace Remote

/-- The party that keeps the table. It adds and deletes nothing unasked, and a key whose addition it has
granted is in the table. -/
structure Keeper (ρ κ : Type*) where
  adds : ρ → κ → Prop
  deletes : ρ → κ → Prop
  handles : Set κ → ρ → Set κ → Bool → Prop
  added : ∀ {t t' : Set κ} {q : ρ} {g : Bool} {k : κ}, handles t q t' g → k ∈ t' → k ∈ t ∨ adds q k
  deleted : ∀ {t t' : Set κ} {q : ρ} {g : Bool} {k : κ}, handles t q t' g → k ∈ t → k ∈ t' ∨ deletes q k
  granted : ∀ {t t' : Set κ} {q : ρ} {k : κ}, handles t q t' true → adds q k → k ∈ t'

/-- The owner of the table. A step may make one call, with the result that it sees. -/
structure Owner (σ ρ : Type*) where
  init : σ
  step : σ → Option (ρ × Bool) → σ → Prop

structure Net (σ ρ κ : Type*) where
  state : σ
  sent : List ρ := []
  table : Set κ

variable {σ ρ κ : Type*}

/-- A call that succeeds has been handled and granted in between. The request of any call may be handled
at any later time, any number of times. -/
inductive Step (O : Owner σ ρ) (K : Keeper ρ κ) : Net σ ρ κ → Net σ ρ κ → Prop
  | quiet (n : Net σ ρ κ) (s : σ) (h : O.step n.state none s) : Step O K n { n with state := s }
  | succeeds (n : Net σ ρ κ) (q : ρ) (s : σ) (t : Set κ) (h : O.step n.state (some (q, true)) s)
      (hk : K.handles n.table q t true) : Step O K n ⟨s, q :: n.sent, t⟩
  | fails (n : Net σ ρ κ) (q : ρ) (s : σ) (h : O.step n.state (some (q, false)) s) :
      Step O K n ⟨s, q :: n.sent, n.table⟩
  | late (n : Net σ ρ κ) (q : ρ) (g : Bool) (t : Set κ) (hq : q ∈ n.sent) (hk : K.handles n.table q t g) :
      Step O K n { n with table := t }

/-- The runs that begin with the table `t₀`, left over from earlier. -/
def Reachable (O : Owner σ ρ) (K : Keeper ρ κ) (t₀ : Set κ) (n : Net σ ρ κ) : Prop :=
  Relation.ReflTransGen (Step O K) ⟨O.init, [], t₀⟩ n

structure Owner.Keeps (O : Owner σ ρ) (I : σ → Prop) : Prop where
  init : I O.init
  step : ∀ {s s' : σ} {x : Option (ρ × Bool)}, I s → O.step s x s' → I s'

variable {O : Owner σ ρ} {K : Keeper ρ κ} {t₀ : Set κ} {n : Net σ ρ κ} {I : σ → Prop}

theorem Owner.Keeps.reachable (hI : O.Keeps I) (hn : Reachable O K t₀ n) : I n.state := by
  induction hn with
  | refl => exact hI.init
  | tail _ hs ih =>
    cases hs with
    | quiet s h => exact hI.step ih h
    | succeeds q s t h hk => exact hI.step ih h
    | fails q s h => exact hI.step ih h
    | late q g t hq hk => exact ih

/-- What the owner makes sure of before it asks for a key, and never gives up, holds of every key in the
table that was not left over. -/
theorem Reachable.table_backed {P : κ → σ → Prop} (hn : Reachable O K t₀ n) (hI : O.Keeps I)
    (hcall : ∀ s s' q g k, I s → O.step s (some (q, g)) s' → K.adds q k → P k s')
    (hkeep : ∀ s s' x k, I s → O.step s x s' → P k s → P k s') :
    ∀ k ∈ n.table, k ∈ t₀ ∨ P k n.state := by
  have hboth : (∀ q ∈ n.sent, ∀ k, K.adds q k → P k n.state) ∧ ∀ k ∈ n.table, k ∈ t₀ ∨ P k n.state := by
    induction hn with
    | refl => exact ⟨fun q hq => absurd hq List.not_mem_nil, fun k hk => .inl hk⟩
    | @tail n₁ n₂ hpre hs ih =>
      obtain ⟨hsent, htable⟩ := ih
      have hi := hI.reachable hpre
      have hcarry {x : Option (ρ × Bool)} {s : σ} (h : O.step n₁.state x s) :
          (∀ q ∈ n₁.sent, ∀ k, K.adds q k → P k s) ∧ ∀ k ∈ n₁.table, k ∈ t₀ ∨ P k s :=
        ⟨fun q hq k hk => hkeep _ _ _ k hi h (hsent q hq k hk),
          fun k hk => (htable k hk).imp_right (hkeep _ _ _ k hi h)⟩
      have hnew {q : ρ} {g : Bool} {s : σ} (h : O.step n₁.state (some (q, g)) s) :
          ∀ q' ∈ q :: n₁.sent, ∀ k, K.adds q' k → P k s := by
        intro q' hq' k hk
        rcases List.mem_cons.mp hq' with rfl | hq'
        · exact hcall _ _ _ g k hi h hk
        · exact (hcarry h).1 q' hq' k hk
      cases hs with
      | quiet s h => exact hcarry h
      | succeeds q s t h hk =>
        refine ⟨hnew h, fun k hmem => ?_⟩
        rcases K.added hk hmem with hold | hadd
        · exact (hcarry h).2 k hold
        · exact .inr (hcall _ _ _ true k hi h hadd)
      | fails q s h => exact ⟨hnew h, (hcarry h).2⟩
      | late q g t hq hk =>
        refine ⟨hsent, fun k hmem => ?_⟩
        rcases K.added hk hmem with hold | hadd
        · exact htable k hold
        · exact .inr (hsent q hq k hadd)
  exact hboth.2

/-- A key that the owner counts as added, because a call for it has succeeded, is in the table unless its
deletion has been asked for. -/
theorem Reachable.counted_in_table {G : κ → σ → Prop} (hn : Reachable O K t₀ n) (hI : O.Keeps I)
    (hinit : ∀ k, ¬ G k O.init)
    (hback : ∀ s s' x k, I s → O.step s x s' → G k s' → G k s ∨ ∃ q, x = some (q, true) ∧ K.adds q k) :
    ∀ k, G k n.state → k ∈ n.table ∨ ∃ q ∈ n.sent, K.deletes q k := by
  induction hn with
  | refl => exact fun k hk => absurd hk (hinit k)
  | @tail n₁ n₂ hpre hs ih =>
    have hi := hI.reachable hpre
    intro k hg
    cases hs with
    | quiet s h =>
      rcases hback _ _ _ k hi h hg with hold | ⟨q, hx, -⟩
      · exact ih k hold
      · cases hx
    | succeeds q s t h hk =>
      rcases hback _ _ _ k hi h hg with hold | ⟨q', hx, hadd⟩
      · rcases ih k hold with hmem | ⟨q', hq', hdel⟩
        · exact (K.deleted hk hmem).imp_right fun hdel => ⟨q, List.mem_cons_self, hdel⟩
        · exact .inr ⟨q', List.mem_cons_of_mem _ hq', hdel⟩
      · obtain ⟨rfl, -⟩ := Prod.mk.inj (Option.some.inj hx)
        exact .inl (K.granted hk hadd)
    | fails q s h =>
      rcases hback _ _ _ k hi h hg with hold | ⟨q', hx, -⟩
      · exact (ih k hold).imp_right fun ⟨q', hq', hdel⟩ => ⟨q', List.mem_cons_of_mem _ hq', hdel⟩
      · cases hx
    | late q g t hq hk =>
      rcases ih k hg with hmem | hdel
      · exact (K.deleted hk hmem).imp_right fun hdel => ⟨q, hq, hdel⟩
      · exact .inr hdel

end Remote
