import Mathlib.Data.Fintype.Card
import Mathlib.Data.List.Nodup
import Mathlib.Tactic

/-! Forests of height one: roots and leaves under names of their own, every leaf below one root, the
leaves of a root in the order in which they were grafted, the last one first. -/

/-- The invariant is part of the data, so that every operation has to keep it. -/
@[ext]
structure Forest (ι κ ρ ν : Type*) where
  root : ι → Option ρ
  leaf : κ → Option ν
  kids : ι → List κ
  nodup : ∀ i, (kids i).Nodup
  rooted : ∀ i k, k ∈ kids i → (root i).isSome
  owned : ∀ k, (leaf k).isSome ↔ ∃ i, k ∈ kids i
  unique : ∀ i j k, k ∈ kids i → k ∈ kids j → i = j

namespace Forest

variable {ι κ ρ ν : Type*}

def empty : Forest ι κ ρ ν where
  root _ := none
  leaf _ := none
  kids _ := []
  nodup _ := List.nodup_nil
  rooted _ _ h := nomatch h
  owned _ := by simp
  unique _ _ _ h := nomatch h

theorem not_mem_kids (F : Forest ι κ ρ ν) {k : κ} (h : F.leaf k = none) (i : ι) : k ∉ F.kids i := by
  intro hk
  have hsome := (F.owned k).mpr ⟨i, hk⟩
  rw [h] at hsome
  cases hsome

/-- The names of the roots in use are counted, and so are those of the leaves. -/
def rootCount [Fintype ι] (F : Forest ι κ ρ ν) : ℕ := (Finset.univ.filter fun i => (F.root i).isSome).card
def leafCount [Fintype κ] (F : Forest ι κ ρ ν) : ℕ := (Finset.univ.filter fun k => (F.leaf k).isSome).card

@[simp] theorem rootCount_empty [Fintype ι] : (empty : Forest ι κ ρ ν).rootCount = 0 := by
  simp [rootCount, empty]

@[simp] theorem leafCount_empty [Fintype κ] : (empty : Forest ι κ ρ ν).leafCount = 0 := by
  simp [leafCount, empty]

section Operations

variable [DecidableEq ι] [DecidableEq κ]

def plant (F : Forest ι κ ρ ν) (i : ι) (r : ρ) : Forest ι κ ρ ν where
  root := Function.update F.root i (some r)
  leaf := F.leaf
  kids := F.kids
  nodup := F.nodup
  rooted j k hk := by
    by_cases hj : j = i
    · subst hj
      rw [Function.update_self]
      rfl
    · rw [Function.update_of_ne hj]
      exact F.rooted j k hk
  owned := F.owned
  unique := F.unique

def graft (F : Forest ι κ ρ ν) (i : ι) (k : κ) (v : ν) (hi : (F.root i).isSome) (hk : F.leaf k = none) :
    Forest ι κ ρ ν where
  root := F.root
  leaf := Function.update F.leaf k (some v)
  kids := Function.update F.kids i (k :: F.kids i)
  nodup j := by
    by_cases hj : j = i
    · subst hj
      rw [Function.update_self]
      exact List.nodup_cons.mpr ⟨F.not_mem_kids hk j, F.nodup j⟩
    · rw [Function.update_of_ne hj]
      exact F.nodup j
  rooted j l hl := by
    by_cases hj : j = i
    · subst hj
      exact hi
    · rw [Function.update_of_ne hj] at hl
      exact F.rooted j l hl
  owned l := by
    by_cases hl : l = k
    · subst hl
      refine ⟨fun _ => ⟨i, ?_⟩, fun _ => ?_⟩
      · rw [Function.update_self]
        exact List.mem_cons_self
      · rw [Function.update_self]
        rfl
    · rw [Function.update_of_ne hl, F.owned l]
      refine exists_congr fun j => ?_
      by_cases hj : j = i
      · subst hj
        rw [Function.update_self, List.mem_cons, or_iff_right hl]
      · rw [Function.update_of_ne hj]
  unique a b l ha hb := by
    by_cases hl : l = k
    · subst hl
      have hown : ∀ j, l ∈ Function.update F.kids i (l :: F.kids i) j → j = i := by
        intro j hj
        by_contra hne
        rw [Function.update_of_ne hne] at hj
        exact F.not_mem_kids hk j hj
      rw [hown a ha, hown b hb]
    · have hown : ∀ j, l ∈ Function.update F.kids i (k :: F.kids i) j → l ∈ F.kids j := by
        intro j hj
        by_cases hji : j = i
        · subst hji
          rw [Function.update_self, List.mem_cons, or_iff_right hl] at hj
          exact hj
        · rwa [Function.update_of_ne hji] at hj
      exact F.unique a b l (hown a ha) (hown b hb)

/-- A change of what a leaf holds; of a name that is not in use nothing changes. -/
def modify (F : Forest ι κ ρ ν) (k : κ) (f : ν → ν) : Forest ι κ ρ ν where
  root := F.root
  leaf := Function.update F.leaf k ((F.leaf k).map f)
  kids := F.kids
  nodup := F.nodup
  rooted := F.rooted
  owned l := by
    rw [← F.owned l]
    by_cases hl : l = k
    · subst hl
      rw [Function.update_self, Option.isSome_map]
    · rw [Function.update_of_ne hl]
  unique := F.unique

def prune (F : Forest ι κ ρ ν) (k : κ) : Forest ι κ ρ ν where
  root := F.root
  leaf := Function.update F.leaf k none
  kids j := (F.kids j).erase k
  nodup j := (F.nodup j).erase k
  rooted j l hl := F.rooted j l (List.mem_of_mem_erase hl)
  owned l := by
    by_cases hl : l = k
    · subst hl
      have hgone : ¬ ∃ j, l ∈ (F.kids j).erase l := fun ⟨j, hj⟩ => (F.nodup j).not_mem_erase hj
      rw [Function.update_self]
      simp only [Option.isSome_none, Bool.false_eq_true, hgone]
    · rw [Function.update_of_ne hl, F.owned l]
      exact exists_congr fun j => (List.mem_erase_of_ne hl).symm
  unique a b l ha hb := F.unique a b l (List.mem_of_mem_erase ha) (List.mem_of_mem_erase hb)

variable {F : Forest ι κ ρ ν} {i j : ι} {k : κ}

section Fields

variable (r : ρ) (v : ν) (f : ν → ν) (hi : (F.root i).isSome) (hk : F.leaf k = none)

omit [DecidableEq κ] in
@[simp] theorem plant_root : (F.plant i r).root = Function.update F.root i (some r) := rfl
omit [DecidableEq κ] in
@[simp] theorem plant_leaf : (F.plant i r).leaf = F.leaf := rfl
omit [DecidableEq κ] in
@[simp] theorem plant_kids : (F.plant i r).kids = F.kids := rfl
@[simp] theorem graft_root : (F.graft i k v hi hk).root = F.root := rfl
@[simp] theorem graft_leaf : (F.graft i k v hi hk).leaf = Function.update F.leaf k (some v) := rfl
@[simp] theorem graft_kids : (F.graft i k v hi hk).kids = Function.update F.kids i (k :: F.kids i) := rfl
omit [DecidableEq ι] in
@[simp] theorem modify_root : (F.modify k f).root = F.root := rfl
omit [DecidableEq ι] in
@[simp] theorem modify_leaf : (F.modify k f).leaf = Function.update F.leaf k ((F.leaf k).map f) := rfl
omit [DecidableEq ι] in
@[simp] theorem modify_kids : (F.modify k f).kids = F.kids := rfl
omit [DecidableEq ι] in
@[simp] theorem prune_root : (F.prune k).root = F.root := rfl
omit [DecidableEq ι] in
@[simp] theorem prune_leaf : (F.prune k).leaf = Function.update F.leaf k none := rfl
omit [DecidableEq ι] in
@[simp] theorem prune_kids : (F.prune k).kids j = (F.kids j).erase k := rfl

end Fields

theorem card_filter_update {α β : Type*} [Fintype α] [DecidableEq α] (f : α → Option β) (a : α) (o : Option β) :
    (Finset.univ.filter fun x => (Function.update f a o x).isSome).card + (f a).toList.length =
      (Finset.univ.filter fun x => (f x).isSome).card + o.toList.length := by
  have hrest : ∀ o' : Option β, (Finset.univ.filter fun x => (Function.update f a o' x).isSome).card =
      ((Finset.univ.erase a).filter fun x => (f x).isSome).card + o'.toList.length := by
    intro o'
    have herase : (Finset.univ.erase a).filter (fun x => (Function.update f a o' x).isSome) =
        (Finset.univ.erase a).filter fun x => (f x).isSome := by
      refine Finset.filter_congr fun x hx => ?_
      rw [Function.update_of_ne (Finset.ne_of_mem_erase hx)]
    rw [← Finset.insert_erase (Finset.mem_univ a), Finset.filter_insert, Function.update_self,
      Finset.erase_insert (Finset.notMem_erase a _), herase]
    cases o' with
    | none => simp
    | some y => simp [Finset.card_insert_of_notMem]
  have hself := hrest (f a)
  rw [Function.update_eq_self] at hself
  rw [hrest o, hself]
  omega

omit [DecidableEq κ] in
@[simp] theorem leafCount_plant [Fintype κ] (r : ρ) : (F.plant i r).leafCount = F.leafCount := rfl
@[simp] theorem rootCount_graft [Fintype ι] (hi : (F.root i).isSome) (hk : F.leaf k = none) (v : ν) :
    (F.graft i k v hi hk).rootCount = F.rootCount := rfl
omit [DecidableEq ι] in
@[simp] theorem rootCount_modify [Fintype ι] (f : ν → ν) : (F.modify k f).rootCount = F.rootCount := rfl
omit [DecidableEq ι] in
@[simp] theorem rootCount_prune [Fintype ι] : (F.prune k).rootCount = F.rootCount := rfl

omit [DecidableEq κ] in
theorem rootCount_plant [Fintype ι] (h : F.root i = none) (r : ρ) : (F.plant i r).rootCount = F.rootCount + 1 := by
  have hcard := card_filter_update F.root i (some r)
  rw [h] at hcard
  exact hcard

theorem leafCount_graft [Fintype κ] (hi : (F.root i).isSome) (hk : F.leaf k = none) (v : ν) :
    (F.graft i k v hi hk).leafCount = F.leafCount + 1 := by
  have hcard := card_filter_update F.leaf k (some v)
  rw [hk] at hcard
  exact hcard

omit [DecidableEq ι] in
theorem leafCount_modify [Fintype κ] (f : ν → ν) : (F.modify k f).leafCount = F.leafCount := by
  have hcard := card_filter_update F.leaf k ((F.leaf k).map f)
  rw [Option.toList_map, List.length_map] at hcard
  exact Nat.add_right_cancel hcard

omit [DecidableEq ι] in
theorem leafCount_prune [Fintype κ] (hk : (F.leaf k).isSome) : (F.prune k).leafCount + 1 = F.leafCount := by
  obtain ⟨v, hv⟩ := Option.isSome_iff_exists.mp hk
  have hcard := card_filter_update F.leaf k none
  rw [hv] at hcard
  exact hcard

end Operations

end Forest
