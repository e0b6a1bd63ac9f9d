import HotCache.Lib.Lts
import HotCache.Proofs.Pool

/-! The operations of the resource list that happen as a whole or not at all: an addition that
fails, and the hand-over of a loaded record. -/

namespace HotCache

open CStr FreeList Linked Lts

inductive PoolOp
  | addNormal (url : Bytes)
  | addOrigin (url : Bytes)
  | addCtrlLd (url : Bytes)
  | addCtnt (m : MgmtIdx) (url : Bytes) (delOk : Bool)
  | handleCached (ctrlLd : MgmtIdx) (parsed : CtntIdx)
  | flag (c : CtntIdx) (f : Flag → Flag)

def FlagsInUse (rl : ResList) : PoolOp → Prop
  | .flag c _ => rl.LiveCtnt c
  | _ => True

/-- Every free slot is all zero except its link. -/
structure FreeZeroed (rl : ResList) : Prop where
  mgmt : ∀ m, ¬ rl.LiveMgmt m → rl.mgmt m = { id := (rl.mgmt m).id }
  ctnt : ∀ c, ¬ rl.LiveCtnt c → rl.ctnt c = { id := (rl.ctnt c).id }

def FreeUnflagged (rl : ResList) : Prop := ∀ c, ¬ rl.LiveCtnt c → (rl.ctnt c).flag = {}

def UndoneIn {α : Type} (rl : ResList) (r : Option α × ResList) : Prop :=
  r.1 = none → r.2 = rl ∧ FreeZeroed r.2

theorem setFlag_clear {rl : ResList} {c : CtntIdx} (h : (rl.ctnt c).flag = {}) :
    (rl.setFlag c fun _ => {}) = rl := by
  unfold ResList.setFlag ResList.setCtnt
  rw [← h]
  simp

theorem Precedes.getLast?_eq {pre : Option CtntIdx} {l : List CtntIdx} (h : Precedes pre l) :
    l.getLast? = pre := by
  rcases h with ⟨rfl, rfl⟩ | ⟨a, l₀, rfl, rfl⟩
  · rfl
  · simp

theorem unlinked_ctnt (rl : ResList) (m : MgmtIdx) (pre : Option CtntIdx) (ld c : CtntIdx) :
    (unlinked rl m pre ld).ctnt c =
      if pre = some c then { rl.ctnt c with siblings := (rl.ctnt ld).siblings } else rl.ctnt c := by
  cases pre with
  | none => rfl
  | some a =>
    by_cases hc : c = a
    · subst hc
      simp [unlinked]
    · simp [unlinked, Function.update_of_ne hc, Ne.symm hc]

/-- The search loop gives up only when no child matches: the fuel covers the longest list. -/
theorem findLoaded_none {rl : ResList} {vid : Bytes} {fuel : ℕ} {p pre : Option CtntIdx} {l : List CtntIdx}
    (hl : IsList (fun c => (rl.ctnt c).siblings) p l) (hfuel : l.length < fuel)
    (hfind : findLoaded rl vid fuel pre p = none) : ∀ c ∈ l, strstr (rl.ctnt c).url vid = none := by
  induction fuel generalizing p pre l with
  | zero => omega
  | succ fuel ih =>
    cases l with
    | nil => exact List.forall_mem_nil _
    | cons a l =>
      obtain ⟨rfl, htail⟩ := hl
      rw [findLoaded] at hfind
      split at hfind
      next => cases hfind
      next hno =>
        refine List.forall_mem_cons.mpr ⟨by simpa using hno, ih htail ?_ hfind⟩
        simp only [List.length_cons] at hfuel
        omega

section Pool

variable [L : Layout]

/-- The pool as a labelled system: `PoolStep` with the operation as the label. -/
def poolSystem : System ResList PoolOp where
  init := scResListAllocAndInit
  step rl op rl' :=
    match op with
    | .addNormal url => rl' = (scResInfoAddNormal rl url).2
    | .addOrigin url => rl' = (scResInfoAddOrigin rl url).2
    | .addCtrlLd url => rl' = (scResInfoAddCtrlLd rl url).2
    | .addCtnt m url delOk => rl.LiveMgmt m ∧ rl' = (scResInfoAddCtnt rl m url delOk).2
    | .handleCached ctrlLd parsed => rl.LiveMgmt ctrlLd ∧ rl.LiveCtnt parsed ∧
        (rl.ctnt parsed).parent ≠ some ctrlLd ∧ rl' = (scResInfoHandleCached rl ctrlLd parsed).2
    | .flag c f => rl' = rl.setFlag c f

theorem poolSystem_step {rl rl' : ResList} {op : PoolOp} (h : poolSystem.step rl op rl') :
    PoolStep rl rl' := by
  cases op with
  | addNormal url => exact h ▸ .addNormal rl url
  | addOrigin url => exact h ▸ .addOrigin rl url
  | addCtrlLd url => exact h ▸ .addCtrlLd rl url
  | addCtnt m url delOk => exact h.2 ▸ .addCtnt rl m url delOk h.1
  | handleCached ctrlLd parsed =>
    obtain ⟨hm, hc, hne, rfl⟩ := h
    exact .handleCached rl ctrlLd parsed hm hc hne
  | flag c f => exact h ▸ .flag rl c f

theorem poolRun_reachable {C : ResList → PoolOp → Prop} {rl : ResList} (h : poolSystem.Run C rl) :
    PoolReachable rl := by
  refine Relation.ReflTransGen.mono (fun _ _ hs => ?_) _ _ h.reachable
  obtain ⟨op, hop⟩ := hs
  exact poolSystem_step hop

section Additions

variable {rl : ResList} {g : Shape}

theorem Rep.freeZeroed_iff (h : Rep rl g) : FreeZeroed rl ↔ FreeUnflagged rl := by
  constructor
  · intro hz c hc
    rw [hz.ctnt c hc]
  · intro hf
    constructor
    · intro m hm
      apply h.freeMgmt m
      rwa [h.liveMgmt_iff, not_not] at hm
    · intro c hc
      have hmem : c ∈ g.freeC := by rwa [h.liveCtnt_iff, not_not] at hc
      have hz := h.freeCtnt c hmem
      rwa [hf c hc] at hz

theorem addMgmt_undone (h : Rep rl g) (hf : FreeUnflagged rl) {gen : Gen} (hgen : gen ≠ .content)
    (careType : Bool) (url : Bytes) : UndoneIn rl (scResInfoAddMgmt gen careType rl url) := by
  intro hnone
  rcases addMgmt_cases h careType url hgen with heq | ⟨m, l, site, -, heq⟩
  · rw [heq]
    exact ⟨rfl, h.freeZeroed_iff.mpr hf⟩
  · rw [heq] at hnone
    cases hnone

theorem addCtnt_undone (h : Rep rl g) (hf : FreeUnflagged rl) (m : MgmtIdx) (url : Bytes)
    (delOk : Bool) : UndoneIn rl (scResInfoAddCtnt rl m url delOk) := by
  intro hnone
  have hz := h.freeZeroed_iff.mpr hf
  rcases addCtnt_cases h m url delOk with heq | ⟨c, l, hc, heq⟩ | ⟨c, l, lp, -, -, heq⟩
  · rw [heq]
    exact ⟨rfl, hz⟩
  · have hdead : ¬ rl.LiveCtnt c := by simp [h.liveCtnt_iff, hc]
    rw [heq]
    simp only [setFlag_clear (hf c hdead)]
    exact ⟨trivial, hz⟩
  · rw [heq] at hnone
    cases hnone

/-- Every failing addition to `rl` leaves it untouched. -/
structure FailuresUndone (rl : ResList) : Prop where
  normal : ∀ url, UndoneIn rl (scResInfoAddNormal rl url)
  origin : ∀ url, UndoneIn rl (scResInfoAddOrigin rl url)
  ctrlLd : ∀ url, UndoneIn rl (scResInfoAddCtrlLd rl url)
  ctnt : ∀ m url delOk, UndoneIn rl (scResInfoAddCtnt rl m url delOk)

theorem failuresUndone_iff (h : Rep rl g) : FailuresUndone rl ↔ FreeUnflagged rl := by
  constructor
  · intro hu
    -- a url of no site is refused before the pool is touched
    obtain ⟨-, hz⟩ := hu.normal [] rfl
    exact h.freeZeroed_iff.mp hz
  · intro hf
    exact ⟨addMgmt_undone h hf (by decide) true, addMgmt_undone h hf (by decide) true,
      addMgmt_undone h hf (by decide) false, addCtnt_undone h hf⟩

/-- An operation that flags only slots in use leaves no flag on a free slot. -/
theorem freeUnflagged_step (h : Rep rl g) (hf : FreeUnflagged rl) {op : PoolOp} {rl' : ResList}
    (hs : poolSystem.step rl op rl') (hop : FlagsInUse rl op) : FreeUnflagged rl' := by
  have hadd {gen : Gen} (careType : Bool) (url : Bytes) (hgen : gen ≠ .content) :
      FreeUnflagged (scResInfoAddMgmt gen careType rl url).2 := by
    intro c hc
    obtain ⟨hctnt, -, -⟩ := addMgmt_spec h careType url hgen
    rw [ResList.LiveCtnt, hctnt] at hc
    rw [hctnt]
    exact hf c hc
  cases op with
  | addNormal url => exact hs ▸ hadd true url (by decide)
  | addOrigin url => exact hs ▸ hadd true url (by decide)
  | addCtrlLd url => exact hs ▸ hadd false url (by decide)
  | addCtnt m url delOk =>
    obtain ⟨-, rfl⟩ := hs
    rcases addCtnt_cases h m url delOk with heq | ⟨i, l, hi, heq⟩ | ⟨i, l, lp, -, -, heq⟩
    · rw [heq]
      exact hf
    · have hdead : ¬ rl.LiveCtnt i := by simp [h.liveCtnt_iff, hi]
      rw [heq]
      simp only [setFlag_clear (hf i hdead)]
      exact hf
    · rw [heq]
      intro c hc
      by_cases hci : c = i
      · subst hci
        exact absurd (by simp [ResList.LiveCtnt, ctntAdded_self, newCtnt]) hc
      · rw [ctntAdded_liveCtnt hci] at hc
        rw [ctntAdded_other hci]
        exact hf c hc
  | handleCached ctrlLd parsed =>
    obtain ⟨-, hlive, -, rfl⟩ := hs
    rcases handleCached_handedOver h ctrlLd hlive with heq | ⟨ld, rl', heq, hho⟩
    · rw [heq]
      exact hf
    · rw [heq]
      intro c hc
      by_cases hcl : c = ld
      · subst hcl
        exact hho.freedFlag
      · have hkeep := hho.ctnt c hcl
        by_cases hcp : c = parsed
        · -- `parsed` stays in use
          subst hcp
          refine absurd ?_ hc
          rw [ResList.LiveCtnt, hkeep]
          simp only [scResInfoDupCtnt, setCtnt_ctnt, Function.update_self]
          exact hlive
        · simp only [scResInfoDupCtnt, setCtnt_ctnt, Function.update_of_ne hcp] at hkeep
          rw [ResList.LiveCtnt, hkeep] at hc
          rw [hkeep]
          exact hf c hc
  | flag i f =>
    subst hs
    intro c hc
    rw [setFlag_live] at hc
    have hci : c ≠ i := by
      rintro rfl
      exact hc hop
    rw [setFlag_other f hci]
    exact hf c hc

theorem freeUnflagged_run (h : poolSystem.Run FlagsInUse rl) : FreeUnflagged rl := by
  refine h.invariant (fun c _ => rfl) fun s op s' hrun hf hs hop => ?_
  obtain ⟨g, hg⟩ := reachable_rep (poolRun_reachable hrun)
  exact freeUnflagged_step hg hf hs hop

end Additions

section HandOver

variable {rl : ResList} {g : Shape}

/-- Everything that a hand-over of `ld` to `parsed` changes; `l₁` and `l₂` are the children of
`ctrlLd` before and after `ld`. -/
structure ExactHandOver (rl rl' : ResList) (ctrlLd : MgmtIdx) (parsed ld : CtntIdx)
    (l₁ l₂ : List CtntIdx) : Prop where
  before : IsList (fun c => (rl.ctnt c).siblings) (rl.mgmt ctrlLd).child (l₁ ++ ld :: l₂)
  nodup : (l₁ ++ ld :: l₂).Nodup
  after : IsList (fun c => (rl'.ctnt c).siblings) (rl'.mgmt ctrlLd).child (l₁ ++ l₂)
  childCnt : (rl'.mgmt ctrlLd).childCnt + 1 = (rl.mgmt ctrlLd).childCnt
  ctntCnt : rl'.ctntCnt + 1 = rl.ctntCnt
  -- the slot of `ld` is zeroed and heads the free list
  wasLive : rl.LiveCtnt ld
  freed : rl'.ctnt ld = { id := rl.ctntFree }
  ctntFree : rl'.ctntFree = L.ctnt.addr ld
  taken : rl'.ctnt parsed = { rl.ctnt parsed with
    url := (rl.ctnt ld).url
    localpath := (rl.ctnt ld).localpath
    flag := { (rl.ctnt parsed).flag with
      stored := (rl.ctnt parsed).flag.stored || (rl.ctnt ld).flag.stored
      notify := (rl.ctnt parsed).flag.notify || (rl.ctnt ld).flag.notify } }
  -- the record before `ld` is linked past it
  ctnt : ∀ c, c ≠ ld → c ≠ parsed → rl'.ctnt c = if l₁.getLast? = some c then
    { rl.ctnt c with siblings := (rl.ctnt ld).siblings } else rl.ctnt c
  ctrl : rl'.mgmt ctrlLd = { rl.mgmt ctrlLd with
    child := (rl'.mgmt ctrlLd).child, childCnt := (rl'.mgmt ctrlLd).childCnt }
  mgmt : ∀ i, i ≠ ctrlLd → rl'.mgmt i = rl.mgmt i
  mgmtFree : rl'.mgmtFree = rl.mgmtFree
  mgmtCnt : rl'.mgmtCnt = rl.mgmtCnt

/-- The search of `sc_res_info_handle_cached` fails only without a `/` in the url of `parsed`, or
without a child of `ctrlLd` whose url contains what follows the last one. -/
theorem handleCached_failed (h : Rep rl g) {ctrlLd : MgmtIdx} {parsed : CtntIdx}
    (hlive : rl.LiveCtnt parsed) (hfail : (scResInfoHandleCached rl ctrlLd parsed).1 ≠ .success) :
    ch '/' ∉ (rl.ctnt parsed).url ∨ ∀ c, rl.LiveCtnt c → (rl.ctnt c).parent = some ctrlLd →
      strstr (rl.ctnt c).url ((rl.ctnt parsed).url.rtakeWhile (· ≠ ch '/')) = none := by
  by_cases hslash : ch '/' ∉ (rl.ctnt parsed).url
  · exact .inl hslash
  right
  simp only [scResInfoHandleCached, hslash, if_false] at hfail
  split at hfail
  next hfind =>
    intro c hc hpar
    exact findLoaded_none (h.child ctrlLd) (h.kids_length ctrlLd) hfind c
      ((h.memKids ctrlLd c).mpr ⟨hc, hpar⟩)
  next pre ld hfind =>
    obtain ⟨l₁, l₂, hk, hpre, -⟩ := h.findLoaded_kids hfind
    rw [(removeLoaded_spec (h.dupCtnt hlive) hk hpre).2] at hfail
    exact absurd rfl hfail

/-- `sc_res_info_remove_loaded` gets past its four error exits for every record that the search of
`sc_res_info_handle_cached` can hand it. -/
theorem removeLoaded_succeeds (h : Rep rl g) {ctrlLd : MgmtIdx} {parsed ld : CtntIdx}
    {pre : Option CtntIdx} {vid : Bytes} {fuel : ℕ} (hlive : rl.LiveCtnt parsed)
    (hfind : findLoaded rl vid fuel none (rl.mgmt ctrlLd).child = some (pre, ld)) :
    (scResInfoRemoveLoaded (scResInfoDupCtnt rl ld parsed) pre ld).1 = .success := by
  obtain ⟨l₁, l₂, hk, hpre, -⟩ := h.findLoaded_kids hfind
  rw [(removeLoaded_spec (h.dupCtnt hlive) hk hpre).2]

theorem handleCached_exact (h : Rep rl g) {ctrlLd : MgmtIdx} {parsed : CtntIdx}
    (hlive : rl.LiveCtnt parsed) (hne : (rl.ctnt parsed).parent ≠ some ctrlLd) :
    ((scResInfoHandleCached rl ctrlLd parsed).1 ≠ .success ∧
      (scResInfoHandleCached rl ctrlLd parsed).2 = rl) ∨
    ((scResInfoHandleCached rl ctrlLd parsed).1 = .success ∧
      ∃ ld l₁ l₂, ExactHandOver rl (scResInfoHandleCached rl ctrlLd parsed).2 ctrlLd parsed ld l₁ l₂) := by
  rcases handleCached_cases h ctrlLd hlive with heq | ⟨pre, ld, l₁, l₂, hk, hpre, hr, heq⟩
  · rw [heq]
    exact .inl ⟨by simp, rfl⟩
  right
  have hd : Rep (scResInfoDupCtnt rl ld parsed) g := h.dupCtnt hlive
  obtain ⟨hput, hrep⟩ := hd.putLoaded hk hr
  have hkids : ∀ c ∈ g.kids ctrlLd, c ≠ parsed := by
    rintro c hc rfl
    exact hne ((h.memKids ctrlLd c).mp hc).2
  have hld : ld ∈ g.kids ctrlLd := by simp [hk]
  have hldp : ld ≠ parsed := hkids ld hld
  have hprep : pre ≠ some parsed := by
    rintro rfl
    refine hkids parsed ?_ rfl
    have := List.mem_of_getLast? (Precedes.getLast?_eq hpre)
    simp [hk, this]
  have hdup : ∀ c, c ≠ parsed → (scResInfoDupCtnt rl ld parsed).ctnt c = rl.ctnt c := fun c hc =>
    Function.update_of_ne hc _ _
  have hpos : 0 < rl.ctntCnt := (h.ctnt.push ((h.liveCtnt_iff ld).mp ((h.memKids _ _).mp hld).1)).1
  rw [heq, hput]
  refine ⟨rfl, ld, l₁, l₂, ?_⟩
  exact
    { before := hk ▸ h.child ctrlLd
      nodup := hk ▸ h.nodup ctrlLd
      after := by
        have := hrep.child ctrlLd
        simp only [Function.update_self] at this
        rwa [hput] at this
      childCnt := by
        have hcnt := h.childCnt ctrlLd
        rw [hk] at hcnt
        simp only [hr.childCnt, hcnt, List.length_append, List.length_cons]
        omega
      ctntCnt := Nat.sub_add_cancel hpos
      wasLive := ((h.memKids _ _).mp hld).1
      freed := by simp only [Function.update_self]; rfl
      ctntFree := rfl
      taken := by
        simp only [Function.update_of_ne hldp.symm, unlinked_ctnt, if_neg hprep]
        simp only [scResInfoDupCtnt, setCtnt_ctnt, Function.update_self]
      ctnt := by
        intro c hcl hcp
        simp only [Function.update_of_ne hcl, unlinked_ctnt, hdup c hcp, hdup ld hldp,
          Precedes.getLast?_eq hpre]
      ctrl := hr.mgmt ctrlLd
      mgmt := fun i hi => hr.other i hi
      mgmtFree := hr.mgmtFree
      mgmtCnt := hr.mgmtCnt }

/-- In every state of the pool, `sc_res_info_handle_cached` on a live record that is not a child of
`ctrlLd` leaves the whole list alone, or hands over exactly one child; once the search has found
a child, nothing fails any more. -/
theorem handle_cached_atomic (h : PoolReachable rl) (ctrlLd : MgmtIdx) (parsed : CtntIdx)
    (hlive : rl.LiveCtnt parsed) (hne : (rl.ctnt parsed).parent ≠ some ctrlLd) :
    (((scResInfoHandleCached rl ctrlLd parsed).1 ≠ .success ∧
        (scResInfoHandleCached rl ctrlLd parsed).2 = rl ∧
        (ch '/' ∉ (rl.ctnt parsed).url ∨ ∀ c, rl.LiveCtnt c → (rl.ctnt c).parent = some ctrlLd →
          strstr (rl.ctnt c).url ((rl.ctnt parsed).url.rtakeWhile (· ≠ ch '/')) = none)) ∨
      ((scResInfoHandleCached rl ctrlLd parsed).1 = .success ∧ ∃ ld l₁ l₂,
        ExactHandOver rl (scResInfoHandleCached rl ctrlLd parsed).2 ctrlLd parsed ld l₁ l₂)) ∧
    ∀ vid fuel pre ld, findLoaded rl vid fuel none (rl.mgmt ctrlLd).child = some (pre, ld) →
      (scResInfoRemoveLoaded (scResInfoDupCtnt rl ld parsed) pre ld).1 = .success := by
  obtain ⟨g, hg⟩ := reachable_rep h
  refine ⟨?_, fun vid fuel pre ld hfind => removeLoaded_succeeds hg hlive hfind⟩
  rcases handleCached_exact hg hlive hne with ⟨hfail, heq⟩ | hok
  · exact .inl ⟨hfail, heq, handleCached_failed hg hlive hfail⟩
  · exact .inr hok

end HandOver

end Pool

/-- A controller with one loaded record (slot 4095), and a normal record with a content (slot 4094)
whose url ends in the name of the loaded file. -/
def loadedAndNormal : ResList :=
  let rl := (@scResInfoAddCtrlLd sampleLayout (@scResListAllocAndInit sampleLayout) (bytes "www.youku.com")).2
  let rl := (@scResInfoAddCtnt sampleLayout rl ⟨1023, by decide⟩ (bytes "k.youku.com/v/1.flv") true).2
  let rl := (@scResInfoAddNormal sampleLayout rl (bytes "f.youku.com/1.flv")).2
  (@scResInfoAddCtnt sampleLayout rl ⟨1022, by decide⟩ (bytes "f.youku.com/1.flv") true).2

theorem loadedAndNormal_reachable : @PoolReachable sampleLayout loadedAndNormal := by
  refine ((Relation.ReflTransGen.single
    (@PoolStep.addCtrlLd sampleLayout _ (bytes "www.youku.com"))).tail
    (@PoolStep.addCtnt sampleLayout _ _ (bytes "k.youku.com/v/1.flv") true ?_)).tail
    (@PoolStep.addNormal sampleLayout _ (bytes "f.youku.com/1.flv")) |>.tail
    (@PoolStep.addCtnt sampleLayout _ _ (bytes "f.youku.com/1.flv") true ?_)
  · decide +kernel
  · decide +kernel

theorem handle_cached_atomic_loaded :
    ∃ ld l₁ l₂, @ExactHandOver sampleLayout loadedAndNormal
      (@scResInfoHandleCached sampleLayout loadedAndNormal 1023 4094).2 1023 4094 ld l₁ l₂ := by
  have hstate : loadedAndNormal.LiveCtnt 4094 ∧ (loadedAndNormal.ctnt 4094).parent ≠ some 1023 ∧
      (@scResInfoHandleCached sampleLayout loadedAndNormal 1023 4094).1 = .success := by
    decide +kernel
  obtain ⟨hlive, hne, hok⟩ := hstate
  rcases (@handle_cached_atomic sampleLayout _ loadedAndNormal_reachable 1023 4094 hlive hne).1 with hfail | hdone
  · exact absurd hok hfail.1
  · exact hdone.2

end HotCache
