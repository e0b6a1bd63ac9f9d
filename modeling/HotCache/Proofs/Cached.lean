import HotCache.Proofs.Atomic

/-! Which loaded record `sc_res_info_handle_cached` pairs with a parsed one. The search compares the
file name of the parsed url with the whole url of each child by `strstr`, so a record of another
name is taken over when it stands early enough and its url happens to contain that name. -/

namespace HotCache

open CStr Linked

def fileName (url : Bytes) : Option Bytes :=
  if ch '/' ∈ url then some (url.rtakeWhile (· ≠ ch '/')) else none

theorem fileName_suffix {url vid : Bytes} (h : fileName url = some vid) : vid <:+ url := by
  unfold fileName at h
  split_ifs at h with hslash
  rw [← Option.some.inj h]
  exact List.rtakeWhile_suffix _ _

/-- A child of `ctrlLd` whose url contains the file name of `parsed`, but whose own file name is
another, stands behind a child of that file name. -/
def NamesakeFirst (rl : ResList) (ctrlLd : MgmtIdx) (parsed : CtntIdx) : Prop :=
  ∀ vid, fileName (rl.ctnt parsed).url = some vid → ∀ l₁ c l₂,
    IsList (fun c => (rl.ctnt c).siblings) (rl.mgmt ctrlLd).child (l₁ ++ c :: l₂) →
    vid <:+: (rl.ctnt c).url → fileName (rl.ctnt c).url ≠ some vid →
    ∃ d ∈ l₁, fileName (rl.ctnt d).url = some vid

section Pool

variable [L : Layout]

/-- If the call succeeds, the record that it takes over, the one whose slot it frees, has the file
name of `parsed`. -/
def PairsSameResource (rl : ResList) (ctrlLd : MgmtIdx) (parsed : CtntIdx) : Prop :=
  (scResInfoHandleCached rl ctrlLd parsed).1 = .success → ∀ ld, rl.LiveCtnt ld →
    ¬ (scResInfoHandleCached rl ctrlLd parsed).2.LiveCtnt ld →
    fileName (rl.ctnt ld).url = fileName (rl.ctnt parsed).url

variable {rl : ResList} {g : Shape}

/-- The record taken over is the first child that contains the file name. -/
theorem handleCached_first (h : Rep rl g) {ctrlLd : MgmtIdx} {parsed : CtntIdx}
    (hlive : rl.LiveCtnt parsed) (hok : (scResInfoHandleCached rl ctrlLd parsed).1 = .success) :
    ∃ vid ld l₁ l₂, fileName (rl.ctnt parsed).url = some vid ∧ g.kids ctrlLd = l₁ ++ ld :: l₂ ∧
      vid <:+: (rl.ctnt ld).url ∧ (∀ c ∈ l₁, ¬ vid <:+: (rl.ctnt c).url) ∧
      ∀ c, (scResInfoHandleCached rl ctrlLd parsed).2.LiveCtnt c ↔ rl.LiveCtnt c ∧ c ≠ ld := by
  unfold scResInfoHandleCached at hok ⊢
  by_cases hslash : ch '/' ∉ (rl.ctnt parsed).url
  · simp [hslash] at hok
  simp only [hslash, if_false] at hok ⊢
  split at hok
  next => cases hok
  next pre ld hfind =>
    obtain ⟨l₁, l₂, hk, hpre, hmatch, hbefore⟩ := h.findLoaded_kids hfind
    have hd : Rep (scResInfoDupCtnt rl ld parsed) g := h.dupCtnt hlive
    obtain ⟨hr, heq⟩ := removeLoaded_spec hd hk hpre
    obtain ⟨-, hrep⟩ := hd.putLoaded hk hr
    refine ⟨_, ld, l₁, l₂, if_pos (not_not.mp hslash), hk, strstr_isSome.mp hmatch, ?_, fun c => ?_⟩
    · intro c hc
      exact strstr_eq_none.mp (hbefore c hc)
    · simp only [heq]
      rw [hrep.liveCtnt_iff, h.liveCtnt_iff]
      simp [and_comm]

theorem handleCached_succeeds (h : Rep rl g) {ctrlLd : MgmtIdx} {parsed c : CtntIdx} {vid : Bytes}
    (hlive : rl.LiveCtnt parsed) (hvid : fileName (rl.ctnt parsed).url = some vid)
    (hc : c ∈ g.kids ctrlLd) (hin : vid <:+: (rl.ctnt c).url) :
    (scResInfoHandleCached rl ctrlLd parsed).1 = .success := by
  unfold fileName at hvid
  split_ifs at hvid with hslash
  by_contra hfail
  rcases handleCached_failed h hlive hfail with hno | hnone
  · exact hno hslash
  · obtain ⟨hlivec, hpar⟩ := (h.memKids ctrlLd c).mp hc
    have := hnone c hlivec hpar
    rw [Option.some.inj hvid] at this
    exact strstr_eq_none.mp this hin

/-- The pairing is right exactly when no child of another name comes before the namesakes. -/
theorem handle_cached_same_resource (h : Rep rl g) {ctrlLd : MgmtIdx} {parsed : CtntIdx}
    (hlive : rl.LiveCtnt parsed) :
    PairsSameResource rl ctrlLd parsed ↔ NamesakeFirst rl ctrlLd parsed := by
  constructor
  · intro hp vid hvid l₁ c l₂ hl hin hne
    have hk : g.kids ctrlLd = l₁ ++ c :: l₂ := (h.child ctrlLd).unique hl
    have hok := handleCached_succeeds h hlive hvid (by simp [hk] : c ∈ g.kids ctrlLd) hin
    obtain ⟨vid', ld, k₁, k₂, hvid', hk', hin', hbefore, hfreed⟩ := handleCached_first h hlive hok
    obtain rfl : vid' = vid := Option.some.inj (hvid'.symm.trans hvid)
    obtain ⟨hld, -⟩ := (h.memKids ctrlLd ld).mp (by simp [hk'])
    have hname : fileName (rl.ctnt ld).url = some vid' := by
      rw [← hvid]
      exact hp hok ld hld fun hl' => ((hfreed ld).mp hl').2 rfl
    -- `c` comes behind `ld`, the first child with the name in its url
    rcases List.append_eq_append_iff.mp (hk.symm.trans hk') with ⟨m, rfl, hm⟩ | ⟨m, rfl, hm⟩
    · cases m with
      | nil =>
        obtain ⟨rfl, -⟩ := List.cons.inj (show c :: l₂ = ld :: k₂ from hm)
        exact absurd hname hne
      | cons a m =>
        obtain ⟨rfl, -⟩ := List.cons.inj (show c :: l₂ = a :: (m ++ ld :: k₂) from hm)
        exact absurd hin (hbefore c (by simp))
    · cases m with
      | nil =>
        obtain ⟨rfl, -⟩ := List.cons.inj (show ld :: k₂ = c :: l₂ from hm)
        exact absurd hname hne
      | cons a m =>
        obtain ⟨rfl, -⟩ := List.cons.inj (show ld :: k₂ = a :: (m ++ c :: l₂) from hm)
        exact ⟨ld, by simp, hname⟩
  · intro hn hok ld hld hfreed
    obtain ⟨vid, ld', l₁, l₂, hvid, hk, hin, hbefore, hlives⟩ := handleCached_first h hlive hok
    obtain rfl : ld = ld' := by
      by_contra hne
      exact hfreed ((hlives ld).mpr ⟨hld, hne⟩)
    rw [hvid]
    by_contra hne
    have hl := h.child ctrlLd
    rw [hk] at hl
    obtain ⟨d, hd, hdv⟩ := hn vid hvid l₁ ld l₂ hl hin hne
    exact hbefore d hd (fileName_suffix hdv).isInfix

end Pool

theorem handle_cached_same_resource_loaded : @PairsSameResource sampleLayout loadedAndNormal 1023 4094 := by
  obtain ⟨g, hg⟩ := @reachable_rep sampleLayout _ loadedAndNormal_reachable
  refine (@handle_cached_same_resource sampleLayout _ g hg 1023 4094 (by decide +kernel)).mpr ?_
  intro vid hvid l₁ c l₂ hl hin hne
  have hone : IsList (fun c => (loadedAndNormal.ctnt c).siblings) (loadedAndNormal.mgmt 1023).child [4095] := by
    refine ⟨by decide +kernel, isList_nil.mpr ?_⟩
    decide +kernel
  have hmem : c ∈ [(4095 : CtntIdx)] := by
    rw [hone.unique hl]
    simp
  have hname : fileName (loadedAndNormal.ctnt 4095).url = fileName (loadedAndNormal.ctnt 4094).url := by
    decide +kernel
  rw [List.mem_singleton.mp hmem, hname] at hne
  exact absurd hvid hne

theorem ctrlLd_slot_lt : 1023 < SC_RES_INFO_NUM_MAX_MGMT := by decide

theorem normal_slot_lt : 1022 < SC_RES_INFO_NUM_MAX_MGMT := by decide

/-- A controller with the loaded file `21.flv` (slot 4095), and a content `1.flv` to download
(slot 4094). -/
def nameInName : ResList :=
  let rl := (@scResInfoAddCtrlLd sampleLayout (@scResListAllocAndInit sampleLayout) (bytes "www.youku.com")).2
  let rl := (@scResInfoAddCtnt sampleLayout rl ⟨1023, ctrlLd_slot_lt⟩ (bytes "k.youku.com/v/21.flv") true).2
  let rl := (@scResInfoAddNormal sampleLayout rl (bytes "f.youku.com/1.flv")).2
  (@scResInfoAddCtnt sampleLayout rl ⟨1022, normal_slot_lt⟩ (bytes "f.youku.com/1.flv") true).2

/-- `1.flv` is declared stored with the local file of `21.flv`. -/
theorem handle_cached_pairs_other_name :
    @PoolReachable sampleLayout nameInName ∧ nameInName.LiveCtnt 4094 ∧
      ¬ @PairsSameResource sampleLayout nameInName 1023 4094 ∧
      ((@scResInfoHandleCached sampleLayout nameInName 1023 4094).2.ctnt 4094).flag.stored = true ∧
      ((@scResInfoHandleCached sampleLayout nameInName 1023 4094).2.ctnt 4094).localpath =
        (nameInName.ctnt 4095).localpath := by
  refine ⟨?_, by decide +kernel, fun hp => ?_, by decide +kernel, by decide +kernel⟩
  · refine ((Relation.ReflTransGen.single
      (@PoolStep.addCtrlLd sampleLayout _ (bytes "www.youku.com"))).tail
      (@PoolStep.addCtnt sampleLayout _ _ (bytes "k.youku.com/v/21.flv") true ?_)).tail
      (@PoolStep.addNormal sampleLayout _ (bytes "f.youku.com/1.flv")) |>.tail
      (@PoolStep.addCtnt sampleLayout _ _ (bytes "f.youku.com/1.flv") true ?_)
    · decide +kernel
    · decide +kernel
  · have hname := hp (by decide +kernel) 4095 (by decide +kernel) (by decide +kernel)
    revert hname
    decide +kernel

end HotCache
