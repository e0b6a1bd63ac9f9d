import Mathlib.Tactic

/-! Lexical normalisation of a path: it is taken apart at its separators, and a stack of components
resolves `.`, `..` and repeated separators. -/

namespace LexPath

variable {α : Type*} [DecidableEq α]

def push (dot : α) (stack : List (List α)) (c : List α) : List (List α) :=
  if c = [] ∨ c = [dot] then stack
  else if c = [dot, dot] then stack.dropLast
  else stack ++ [c]

/-- The components that are left of a path, the outermost first. -/
def normalise (sep dot : α) (path : List α) : List (List α) := (path.splitOn sep).foldl (push dot) []

/-- The path names something below the root, and not the root itself. -/
def StrictlyInside (sep dot : α) (root path : List α) : Prop :=
  ∃ rest, rest ≠ [] ∧ normalise sep dot path = normalise sep dot root ++ rest

variable {sep dot : α} {root path : List α}

theorem normalise_append (root path : List α) :
    normalise sep dot (root ++ sep :: path) = (path.splitOn sep).foldl (push dot) (normalise sep dot root) := by
  rw [normalise, List.splitOn_append_cons_self, List.foldl_append]
  rfl

/-- Components other than `.` and `..` only add to the stack. -/
theorem foldl_push {cs : List (List α)} (h : ∀ c ∈ cs, c ≠ [dot] ∧ c ≠ [dot, dot]) (stack : List (List α)) :
    cs.foldl (push dot) stack = stack ++ cs.filter (· ≠ []) := by
  induction cs generalizing stack with
  | nil => simp
  | cons c cs ih =>
    obtain ⟨hdot, hdots⟩ := h c List.mem_cons_self
    rw [List.foldl_cons, ih (fun d hd => h d (List.mem_cons_of_mem _ hd))]
    by_cases hc : c = []
    · simp [push, hc]
    · simp [push, hc, hdot, hdots]

/-- The components below the starting point that a relative path leads to; `none` when it climbs above that. -/
def descend (dot : α) : List (List α) → List (List α) → Option (List (List α))
  | stack, [] => some stack
  | stack, c :: cs => if c = [dot, dot] ∧ stack = [] then none else descend dot (push dot stack c) cs

/-- The path leads below where it starts, and never above. -/
def Descends (sep dot : α) (path : List α) : Prop :=
  (descend dot [] (path.splitOn sep)).any (· ≠ []) = true

instance (sep dot : α) (path : List α) : Decidable (Descends sep dot path) := inferInstanceAs (Decidable (_ = true))

theorem push_append {stack : List (List α)} {c : List α} (h : ¬ (c = [dot, dot] ∧ stack = [])) (base : List (List α)) :
    push dot (base ++ stack) c = base ++ push dot stack c := by
  unfold push
  split_ifs with hnone hup
  · rfl
  · exact List.dropLast_append_of_ne_nil fun hnil => h ⟨hup, hnil⟩
  · exact List.append_assoc ..

theorem foldl_push_descend {cs stack rest : List (List α)} (h : descend dot stack cs = some rest)
    (base : List (List α)) : cs.foldl (push dot) (base ++ stack) = base ++ rest := by
  induction cs generalizing stack with
  | nil => rw [List.foldl_nil, Option.some.inj h]
  | cons c cs ih =>
    rw [descend] at h
    split_ifs at h with hup
    rw [List.foldl_cons, push_append hup]
    exact ih h

theorem notMem_push {x c : List α} {stack : List (List α)} (hs : x ∉ stack) (hc : x ≠ c) : x ∉ push dot stack c := by
  unfold push
  split_ifs
  · exact hs
  · exact fun hx => hs (List.mem_of_mem_dropLast hx)
  · rw [List.mem_append, List.mem_singleton, not_or]
    exact ⟨hs, hc⟩

theorem notMem_foldl_push {x : List α} {cs stack : List (List α)} (hs : x ∉ stack) (hcs : x ∉ cs) :
    x ∉ cs.foldl (push dot) stack := by
  induction cs generalizing stack with
  | nil => exact hs
  | cons c cs ih =>
    rw [List.mem_cons, not_or] at hcs
    exact ih (notMem_push hs hcs.1) hcs.2

/-- A path that climbs loses the component that it starts in. -/
theorem foldl_push_climbs {x : List α} {cs stack : List (List α)} (h : descend dot stack cs = none) (hs : x ∉ stack)
    (hcs : x ∉ cs) : x ∉ cs.foldl (push dot) ([x] ++ stack) := by
  induction cs generalizing stack with
  | nil => cases h
  | cons c cs ih =>
    rw [List.mem_cons, not_or] at hcs
    rw [descend] at h
    rw [List.foldl_cons]
    by_cases hup : c = [dot, dot] ∧ stack = []
    · obtain ⟨rfl, rfl⟩ := hup
      have hpop : push dot ([x] ++ []) [dot, dot] = [] := by simp [push]
      rw [hpop]
      exact notMem_foldl_push List.not_mem_nil hcs.2
    · rw [if_neg hup] at h
      rw [push_append hup]
      exact ih h (notMem_push hs hcs.1) hcs.2

theorem Descends.inside (h : Descends sep dot path) (root : List α) :
    StrictlyInside sep dot root (root ++ sep :: path) := by
  unfold Descends at h
  cases hd : descend dot [] (path.splitOn sep) with
  | none =>
    rw [hd] at h
    cases h
  | some rest =>
    rw [hd] at h
    have hfold := foldl_push_descend hd (normalise sep dot root)
    rw [List.append_nil] at hfold
    refine ⟨rest, by simpa using h, ?_⟩
    rw [normalise_append, hfold]

/-- A relative path stays inside whatever root it is put behind exactly when it descends. -/
theorem descends_iff {a : α} (hsep : a ≠ sep) (hdot : a ≠ dot) :
    (∀ root, StrictlyInside sep dot root (root ++ sep :: path)) ↔ Descends sep dot path := by
  refine ⟨fun h => ?_, Descends.inside⟩
  -- a root of one component, longer than any of the path
  set n := ((path.splitOn sep).map List.length).sum + 1 with hn
  set x := List.replicate n a with hx
  have hlong : ∀ c ∈ path.splitOn sep, c.length < n := fun c hc =>
    Nat.lt_succ_of_le (List.le_sum_of_mem (List.mem_map_of_mem hc))
  have hxs : x ∉ path.splitOn sep := fun hmem => by
    have := hlong x hmem
    rw [hx, List.length_replicate] at this
    omega
  have hmem : ∀ b ∈ x, b = a := fun b hb => List.eq_of_mem_replicate hb
  have hroot : normalise sep dot x = [x] := by
    have hsplit : x.splitOn sep = [x] := List.splitOn_eq_singleton fun hin => hsep (hmem _ hin).symm
    have hne : x ≠ [] := by
      rw [hx]
      simp [hn]
    have hplain : x ≠ [dot] ∧ x ≠ [dot, dot] := by
      constructor
      · intro he
        exact hdot (hmem dot (by rw [he]; exact List.mem_cons_self)).symm
      · intro he
        exact hdot (hmem dot (by rw [he]; exact List.mem_cons_self)).symm
    simp [normalise, hsplit, push, hne, hplain]
  obtain ⟨rest, hne, heq⟩ := h x
  rw [normalise_append, hroot] at heq
  cases hd : descend dot [] (path.splitOn sep) with
  | none =>
    have hclimb := foldl_push_climbs (x := x) hd List.not_mem_nil hxs
    rw [List.append_nil, heq] at hclimb
    exact absurd (List.mem_append_left _ List.mem_cons_self) hclimb
  | some rest' =>
    have hfold := foldl_push_descend hd [x]
    rw [List.append_nil, heq] at hfold
    rw [Descends, hd, ← List.append_cancel_left hfold]
    simpa using hne

theorem strictlyInside_append (h : ∀ c ∈ path.splitOn sep, c ≠ [dot] ∧ c ≠ [dot, dot])
    (hne : ∃ c ∈ path.splitOn sep, c ≠ []) : StrictlyInside sep dot root (root ++ sep :: path) := by
  obtain ⟨c, hc, hc'⟩ := hne
  refine ⟨(path.splitOn sep).filter (· ≠ []), ?_, ?_⟩
  · exact List.ne_nil_of_mem (List.mem_filter.mpr ⟨hc, by simpa using hc'⟩)
  · rw [normalise_append, foldl_push h]

end LexPath
