import HotCache.Proofs.Atomic
import HotCache.Spec.Forest

/-! The resource list refines the forest: `forestOf` reads the forest off the records in use, and every
operation on the list, with the result it returns, is one that the forest may make. What holds of the
runs of the forest therefore holds of the list. -/

namespace HotCache

open CStr FreeList Linked Lts

inductive OpResult
  | mgmt (o : Option MgmtIdx)
  | ctnt (o : Option CtntIdx)
  | handed (r : HcResult)
  | done
  deriving DecidableEq

inductive ForestStep : ResForest → PoolOp × OpResult → ResForest → Prop
  | addNormal {F F' : ResForest} {url : Bytes} {o : Option MgmtIdx} (h : AddRoot F .normal true url o F') :
      ForestStep F (.addNormal url, .mgmt o) F'
  | addOrigin {F F' : ResForest} {url : Bytes} {o : Option MgmtIdx} (h : AddRoot F .origin true url o F') :
      ForestStep F (.addOrigin url, .mgmt o) F'
  | addCtrlLd {F F' : ResForest} {url : Bytes} {o : Option MgmtIdx} (h : AddRoot F .ctrlLd false url o F') :
      ForestStep F (.addCtrlLd url, .mgmt o) F'
  | addCtnt {F F' : ResForest} {m : MgmtIdx} {url : Bytes} {delOk : Bool} {o : Option CtntIdx}
      (h : AddLeaf F m url delOk o F') : ForestStep F (.addCtnt m url delOk, .ctnt o) F'
  | handleCached {F F' : ResForest} {ctrlLd : MgmtIdx} {parsed : CtntIdx} {r : HcResult}
      (h : TakeOver F ctrlLd parsed r F') : ForestStep F (.handleCached ctrlLd parsed, .handed r) F'
  | flag {F : ResForest} {c : CtntIdx} {f : Flag → Flag} :
      ForestStep F (.flag c f, .done) (F.modify c fun v => { v with flag := f v.flag })

def forestSystem : System ResForest (PoolOp × OpResult) where
  init := .empty
  step := ForestStep

/-- The additions that succeeded, and the records that were handed over. -/
def rootsAdded (l : List (PoolOp × OpResult)) : ℕ := l.countP fun a => a.2 matches .mgmt (some _)
def leavesAdded (l : List (PoolOp × OpResult)) : ℕ := l.countP fun a => a.2 matches .ctnt (some _)
def leavesHanded (l : List (PoolOp × OpResult)) : ℕ := l.countP fun a => a.2 matches .handed .success

section Counts

variable {F F' : ResForest} {gen : Gen} {careType delOk : Bool} {url : Bytes} {m : MgmtIdx} {c : CtntIdx}

theorem AddRoot.counts {o : Option MgmtIdx} (h : AddRoot F gen careType url o F') :
    F'.rootCount = F.rootCount + o.toList.length ∧ F'.leafCount = F.leafCount := by
  cases h with
  | added m site hfit hm => exact ⟨Forest.rootCount_plant hm _, Forest.leafCount_plant _⟩
  | refused hno => simp

theorem AddLeaf.counts {o : Option CtntIdx} (h : AddLeaf F m url delOk o F') :
    F'.rootCount = F.rootCount ∧ F'.leafCount = F.leafCount + o.toList.length := by
  cases h with
  | added r c lp hr hfit hc => exact ⟨Forest.rootCount_graft _ hc _, Forest.leafCount_graft _ hc _⟩
  | refused r hr hno => simp

theorem TakeOver.counts {r : HcResult} (h : TakeOver F m c r F') :
    F'.rootCount = F.rootCount ∧ F'.leafCount + (if r = .success then 1 else 0) = F.leafCount := by
  cases h with
  | done v ld k hv hslash hk hld =>
    have hsome : ((F.modify c ld.takeOver).leaf k).isSome := by
      rw [Forest.owned]
      exact (F.owned k).mp (Option.isSome_of_eq_some hld)
    rw [if_pos rfl, Forest.leafCount_prune hsome]
    exact ⟨by simp, Forest.leafCount_modify _⟩
  | failed v hv hno => simp

/-- One step adds at most one record, or hands over one. -/
theorem ForestStep.counts {a : PoolOp × OpResult} (h : ForestStep F a F') :
    F'.rootCount = F.rootCount + rootsAdded [a] ∧
      F'.leafCount + leavesHanded [a] = F.leafCount + leavesAdded [a] := by
  cases h with
  | @addNormal _ _ o h | @addOrigin _ _ o h | @addCtrlLd _ _ o h =>
    obtain ⟨hroot, hleaf⟩ := h.counts
    rw [hroot, hleaf]
    cases o with
    | none => simp [rootsAdded, leavesAdded, leavesHanded]
    | some m => simp [rootsAdded, leavesAdded, leavesHanded]
  | @addCtnt _ _ _ _ o h =>
    obtain ⟨hroot, hleaf⟩ := h.counts
    rw [hroot, hleaf]
    cases o with
    | none => simp [rootsAdded, leavesAdded, leavesHanded]
    | some m => simp [rootsAdded, leavesAdded, leavesHanded]
  | @handleCached _ _ _ r h =>
    obtain ⟨hroot, hleaf⟩ := h.counts
    rw [hroot, ← hleaf]
    cases r with
    | _ => simp [rootsAdded, leavesAdded, leavesHanded]
  | flag => simp [rootsAdded, leavesAdded, leavesHanded, Forest.leafCount_modify]

/-- The records in use after a run of the forest are those added, less those handed over. -/
theorem forestTrace_counts {l : List (PoolOp × OpResult)} (h : forestSystem.Trace l F) :
    F.rootCount = rootsAdded l ∧ F.leafCount + leavesHanded l = leavesAdded l := by
  induction h with
  | nil => simp [forestSystem, rootsAdded, leavesAdded, leavesHanded]
  | snoc _ hs ih =>
    obtain ⟨hroot, hleaf⟩ := ForestStep.counts hs
    obtain ⟨ihroot, ihleaf⟩ := ih
    simp only [rootsAdded, leavesAdded, leavesHanded, List.countP_append] at *
    omega

end Counts

section View

def Mgmt.root (x : Mgmt) : Root := ⟨x.gen, x.site, x.mime, x.url⟩
def Ctnt.leaf (x : Ctnt) : Leaf := ⟨x.url, x.site, x.mime, x.flag, x.localpath⟩

/-- What the forest says of a slot, and the children by following `siblings`. -/
def rootOf (rl : ResList) (m : MgmtIdx) : Option Root := if rl.LiveMgmt m then some (rl.mgmt m).root else none
def leafOf (rl : ResList) (c : CtntIdx) : Option Leaf := if rl.LiveCtnt c then some (rl.ctnt c).leaf else none

def kidsOf (rl : ResList) (m : MgmtIdx) : List CtntIdx :=
  follow (fun c => (rl.ctnt c).siblings) SC_RES_INFO_NUM_MAX_CTNT (rl.mgmt m).child

variable {rl rl' : ResList} {m : MgmtIdx} {c : CtntIdx}

theorem rootOf_congr (h : rl'.mgmt m = { rl.mgmt m with
    childCnt := (rl'.mgmt m).childCnt, child := (rl'.mgmt m).child }) : rootOf rl' m = rootOf rl m := by
  have hid : rl'.LiveMgmt m ↔ rl.LiveMgmt m := by
    unfold ResList.LiveMgmt
    rw [h]
  simp only [rootOf, hid]
  rw [h]
  rfl

theorem leafOf_congr (h : rl'.ctnt c = { rl.ctnt c with siblings := (rl'.ctnt c).siblings }) :
    leafOf rl' c = leafOf rl c := by
  have hid : rl'.LiveCtnt c ↔ rl.LiveCtnt c := by
    unfold ResList.LiveCtnt
    rw [h]
  simp only [leafOf, hid]
  rw [h]
  rfl

theorem leafOf_live (h : rl.LiveCtnt c) : leafOf rl c = some (rl.ctnt c).leaf := if_pos h

theorem leafOf_free (h : ¬ rl.LiveCtnt c) : leafOf rl c = none := if_neg h

theorem rootOf_live (h : rl.LiveMgmt m) : rootOf rl m = some (rl.mgmt m).root := if_pos h

theorem rootOf_free (h : ¬ rl.LiveMgmt m) : rootOf rl m = none := if_neg h

theorem isSome_rootOf : (rootOf rl m).isSome ↔ rl.LiveMgmt m := by
  unfold rootOf
  split_ifs with h <;> simp [h]

theorem isSome_leafOf : (leafOf rl c).isSome ↔ rl.LiveCtnt c := by
  unfold leafOf
  split_ifs with h <;> simp [h]

end View

section Refinement

variable [L : Layout] {rl rl' : ResList} {g : Shape} {m : MgmtIdx} {c : CtntIdx}

theorem Rep.kidsOf_eq (h : Rep rl g) (m : MgmtIdx) : kidsOf rl m = g.kids m := by
  refine (h.child m).follow_eq ?_
  have hcard := (h.nodup m).length_le_card
  rwa [Fintype.card_fin] at hcard

def Rep.forest (h : Rep rl g) : ResForest where
  root := rootOf rl
  leaf := leafOf rl
  kids := kidsOf rl
  nodup m := by
    rw [h.kidsOf_eq]
    exact h.nodup m
  rooted m c hc := by
    rw [h.kidsOf_eq] at hc
    exact isSome_rootOf.mpr (h.liveMgmt_of_kid hc)
  owned c := by
    rw [isSome_leafOf]
    constructor
    · intro hc
      obtain ⟨m, -, hpar⟩ := h.parent c hc
      refine ⟨m, ?_⟩
      rw [h.kidsOf_eq]
      exact (h.memKids m c).mpr ⟨hc, hpar⟩
    · rintro ⟨m, hm⟩
      rw [h.kidsOf_eq] at hm
      exact ((h.memKids m c).mp hm).1
  unique i j c hi hj := by
    rw [h.kidsOf_eq] at hi hj
    exact h.kids_disjoint hi hj

@[simp] theorem Rep.forest_root (h : Rep rl g) : h.forest.root = rootOf rl := rfl
@[simp] theorem Rep.forest_leaf (h : Rep rl g) : h.forest.leaf = leafOf rl := rfl
theorem Rep.forest_kids (h : Rep rl g) : h.forest.kids = g.kids := funext h.kidsOf_eq

theorem Rep.rootCount (h : Rep rl g) : h.forest.rootCount = rl.mgmtCnt := by
  have hset : (Finset.univ.filter fun m => (rootOf rl m).isSome) = g.freeM.toFinsetᶜ := by
    ext m
    simp [isSome_rootOf, h.liveMgmt_iff]
  have hcard := Finset.card_compl g.freeM.toFinset
  have hcnt := h.mgmt.count
  rw [List.toFinset_card_of_nodup h.mgmt.nodup, Fintype.card_fin] at hcard
  rw [Forest.rootCount, Rep.forest, hset, hcard]
  omega

theorem Rep.leafCount (h : Rep rl g) : h.forest.leafCount = rl.ctntCnt := by
  have hset : (Finset.univ.filter fun c => (leafOf rl c).isSome) = g.freeC.toFinsetᶜ := by
    ext c
    simp [isSome_leafOf, h.liveCtnt_iff]
  have hcard := Finset.card_compl g.freeC.toFinset
  have hcnt := h.ctnt.count
  rw [List.toFinset_card_of_nodup h.ctnt.nodup, Fintype.card_fin] at hcard
  rw [Forest.leafCount, Rep.forest, hset, hcard]
  omega

/-- The forest of a list that differs only in what no record in use has. -/
theorem Rep.forest_congr {g' : Shape} (h : Rep rl g) (h' : Rep rl' g') (hroot : ∀ m, rootOf rl' m = rootOf rl m)
    (hleaf : ∀ c, leafOf rl' c = leafOf rl c) (hkids : ∀ m, g'.kids m = g.kids m) : h'.forest = h.forest := by
  refine Forest.ext (funext hroot) (funext hleaf) ?_
  rw [h'.forest_kids, h.forest_kids]
  exact funext hkids

theorem Rep.addRoot (h : Rep rl g) {gen : Gen} (hgen : gen ≠ .content) (careType : Bool) (url : Bytes) :
    ∃ g', ∃ h' : Rep (scResInfoAddMgmt gen careType rl url).2 g',
      AddRoot h.forest gen careType url (scResInfoAddMgmt gen careType rl url).1 h'.forest := by
  have hsite : ∀ site, scResInfoMarkSite { gen := gen, url := scResCopyUrl url true } = some site ↔
      urlSite (scResCopyUrl url true) = some site := fun site => by rw [markSite_eq hgen]
  by_cases hfit : ∃ site, RootFits h.forest gen url site
  · obtain ⟨site, hfit⟩ := hfit
    have hroom := hfit.room
    have hcnt := h.mgmt.count
    rw [h.rootCount] at hroom
    cases hf : g.freeM with
    | nil =>
      rw [hf, List.length_nil] at hcnt
      omega
    | cons m l =>
      have hadd : scResInfoAddMgmt gen careType rl url = _ :=
        addMgmt_some h hgen hfit.permit hfit.length hf ((hsite site).mp hfit.site)
      have h' := h.mgmtAdded hf hgen careType url site
      have hdead : ¬ rl.LiveMgmt m := by simp [h.liveMgmt_iff, hf]
      rw [hadd]
      refine ⟨_, h', ?_⟩
      have hforest : h'.forest = h.forest.plant m ⟨gen, site, scResMimeTypeObtain url careType, scResCopyUrl url true⟩ := by
        refine Forest.ext (funext fun i => ?_) rfl ?_
        · rw [Forest.plant_root, h'.forest_root, h.forest_root]
          by_cases hi : i = m
          · subst hi
            rw [Function.update_self, rootOf_live (by rw [ResList.LiveMgmt, mgmtAdded_self]), mgmtAdded_self]
            rfl
          · rw [Function.update_of_ne hi]
            exact rootOf_congr (by rw [mgmtAdded_other hi])
        · rw [Forest.plant_kids, h'.forest_kids, h.forest_kids]
      rw [hforest]
      exact .added m site hfit (rootOf_free hdead)
  · have hno : scResInfoAddMgmt gen careType rl url = (none, rl) := by
      apply addMgmt_none h hgen
      by_contra hall
      simp only [not_or, Bool.not_eq_false, not_le] at hall
      obtain ⟨hp, hlen, hf, hs⟩ := hall
      obtain ⟨site, hs⟩ := Option.ne_none_iff_exists'.mp hs
      refine hfit ⟨site, hp, hlen, ?_, (hsite site).mpr hs⟩
      have hcnt := h.mgmt.count
      have hpos := List.length_pos_of_ne_nil hf
      rw [h.rootCount]
      omega
    rw [hno]
    exact ⟨g, h, .refused fun site hs => hfit ⟨site, hs⟩⟩

theorem Rep.flagFree (h : Rep rl g) (hc : ¬ rl.LiveCtnt c) (f : Flag → Flag) :
    (h.setFlag c f).forest = h.forest := by
  refine h.forest_congr _ (fun _ => rfl) (fun i => ?_) fun _ => rfl
  by_cases hi : i = c
  · subst hi
    rw [leafOf_free hc, leafOf_free fun hl => hc ((setFlag_live i i f).mp hl)]
  · exact leafOf_congr (by rw [setFlag_other f hi])

theorem Rep.setFlag_forest (h : Rep rl g) (c : CtntIdx) (f : Flag → Flag) :
    (h.setFlag c f).forest = h.forest.modify c fun v => { v with flag := f v.flag } := by
  refine Forest.ext rfl (funext fun i => ?_) ?_
  · rw [Forest.modify_leaf, Rep.forest_leaf, h.forest_leaf]
    by_cases hi : i = c
    · subst hi
      rw [Function.update_self]
      by_cases hl : rl.LiveCtnt i
      · rw [leafOf_live hl, leafOf_live ((setFlag_live i i f).mpr hl), setFlag_self]
        rfl
      · rw [leafOf_free hl, leafOf_free fun hl' => hl ((setFlag_live i i f).mp hl')]
        rfl
    · rw [Function.update_of_ne hi]
      exact leafOf_congr (by rw [setFlag_other f hi])
  · rw [Forest.modify_kids, Rep.forest_kids, h.forest_kids]

theorem Rep.addLeaf (h : Rep rl g) (hm : rl.LiveMgmt m) (url : Bytes) (delOk : Bool) :
    ∃ g', ∃ h' : Rep (scResInfoAddCtnt rl m url delOk).2 g',
      AddLeaf h.forest m url delOk (scResInfoAddCtnt rl m url delOk).1 h'.forest := by
  have hroot : h.forest.root m = some (rl.mgmt m).root := rootOf_live hm
  have hpath : ∀ i, scResInfoGenCtntLocalPath (newCtnt rl m i url) =
      scResInfoGenCtntLocalPath { url := scResCopyUrl url true, site := (rl.mgmt m).root.site } :=
    fun i => genLocalPath_congr rfl rfl
  by_cases hfit : ∃ lp, LeafFits h.forest (rl.mgmt m).root url delOk lp
  · obtain ⟨lp, hfit⟩ := hfit
    have hroom := hfit.room
    have hcnt := h.ctnt.count
    rw [h.leafCount] at hroom
    have hacc : ¬ RejectsCtnt rl m url delOk := by
      rintro (hno | hno | ⟨hgen, hno⟩)
      · rw [hfit.permit] at hno
        cases hno
      · exact absurd hfit.length (not_lt.mpr hno)
      · rw [hfit.del hgen] at hno
        cases hno
    cases hf : g.freeC with
    | nil =>
      rw [hf, List.length_nil] at hcnt
      omega
    | cons i l =>
      have hadd := addCtnt_cons h hacc hf
      rw [hpath i, hfit.localpath] at hadd
      have h' := h.ctntAdded hf hm url lp
      have hfree : h.forest.leaf i = none := leafOf_free (by simp [h.liveCtnt_iff, hf])
      rw [hadd]
      refine ⟨_, h', ?_⟩
      have hforest : h'.forest = h.forest.graft m i (newLeaf (rl.mgmt m).root url lp)
          (Option.isSome_of_eq_some hroot) hfree := by
        refine Forest.ext (funext fun j => ?_) (funext fun j => ?_) ?_
        · obtain ⟨child, childCnt, heq⟩ := ctntAdded_mgmt rl m i url lp j
          exact rootOf_congr (by rw [heq])
        · rw [Forest.graft_leaf, h'.forest_leaf, h.forest_leaf]
          by_cases hj : j = i
          · subst hj
            rw [Function.update_self, leafOf_live (by rw [ResList.LiveCtnt, ctntAdded_self]; rfl), ctntAdded_self]
            rfl
          · rw [Function.update_of_ne hj]
            exact leafOf_congr (by rw [ctntAdded_other hj])
        · rw [Forest.graft_kids, h'.forest_kids, h.forest_kids]
      rw [hforest]
      exact .added _ i lp hroot hfit hfree
  · have hno := fun lp hs => hfit ⟨lp, hs⟩
    by_cases hrej : RejectsCtnt rl m url delOk ∨ g.freeC = []
    · rw [addCtnt_rejected h hrej]
      exact ⟨g, h, .refused _ hroot hno⟩
    · obtain ⟨hacc, hf⟩ := not_or.mp hrej
      obtain ⟨i, l, hf⟩ := List.exists_cons_of_ne_nil hf
      have hdead : ¬ rl.LiveCtnt i := by simp [h.liveCtnt_iff, hf]
      have hadd := addCtnt_cons h hacc hf
      rw [hpath i] at hadd
      cases hlp : scResInfoGenCtntLocalPath { url := scResCopyUrl url true, site := (rl.mgmt m).root.site } with
      | none =>
        rw [hlp] at hadd
        rw [hadd]
        refine ⟨g, h.setFlag i fun _ => {}, ?_⟩
        rw [h.flagFree hdead]
        exact .refused _ hroot hno
      | some lp =>
        simp only [RejectsCtnt, not_or, not_and, Bool.not_eq_false, not_le] at hacc
        refine absurd ⟨hacc.1, hacc.2.1, hacc.2.2, ?_, hlp⟩ (hno lp)
        have hcnt := h.ctnt.count
        rw [hf, List.length_cons] at hcnt
        rw [h.leafCount]
        omega

/-- The search of `sc_res_info_handle_cached` picks the leaf that the forest names. -/
theorem Rep.loadedFor_eq (h : Rep rl g) (m : MgmtIdx) (url : Bytes) :
    (findLoaded rl (url.rtakeWhile (· ≠ ch '/')) (SC_RES_INFO_NUM_MAX_CTNT + 1) none (rl.mgmt m).child).map Prod.snd =
      loadedFor h.forest m url := by
  have hmatch : ∀ k ∈ g.kids m, ((leafOf rl k).any fun v => (strstr v.url (url.rtakeWhile (· ≠ ch '/'))).isSome) =
      (strstr (rl.ctnt k).url (url.rtakeWhile (· ≠ ch '/'))).isSome := by
    intro k hk
    rw [leafOf_live ((h.memKids m k).mp hk).1, Option.any_some]
    rfl
  unfold loadedFor
  rw [h.forest_kids, h.forest_leaf]
  cases hfind : findLoaded rl (url.rtakeWhile (· ≠ ch '/')) (SC_RES_INFO_NUM_MAX_CTNT + 1) none (rl.mgmt m).child with
  | none =>
    have hnone := findLoaded_none (h.child m) (h.kids_length m) hfind
    refine (List.find?_eq_none.mpr fun k hk => ?_).symm
    rw [hmatch k hk, hnone k hk]
    simp
  | some r =>
    obtain ⟨pre, ld⟩ := r
    obtain ⟨l₁, l₂, hk, -, hld, hbefore⟩ := h.findLoaded_kids hfind
    refine (List.find?_eq_some_iff_append.mpr ⟨?_, l₁, l₂, hk, fun k hkl => ?_⟩).symm
    · rw [hmatch ld (by simp [hk])]
      exact hld
    · rw [hmatch k (by simp [hk, hkl]), hbefore k hkl]
      simp

/-- The list after the hand-over of the record that the search has found. -/
theorem Rep.handedOver_found (h : Rep rl g) {ctrlLd : MgmtIdx} {parsed ld : CtntIdx} {pre : Option CtntIdx}
    (hlive : rl.LiveCtnt parsed) (hslash : ch '/' ∈ (rl.ctnt parsed).url)
    (hfind : findLoaded rl ((rl.ctnt parsed).url.rtakeWhile (· ≠ ch '/')) (SC_RES_INFO_NUM_MAX_CTNT + 1) none
      (rl.mgmt ctrlLd).child = some (pre, ld)) :
    ∃ rl' l₁ l₂, scResInfoHandleCached rl ctrlLd parsed = (.success, rl') ∧ g.kids ctrlLd = l₁ ++ ld :: l₂ ∧
      Rep rl' { g with freeC := ld :: g.freeC, kids := Function.update g.kids ctrlLd (l₁ ++ l₂) } ∧
      HandedOver rl rl' ctrlLd parsed ld := by
  obtain ⟨l₁, l₂, hk, hpre, -⟩ := h.findLoaded_kids hfind
  obtain ⟨hr, heq⟩ := removeLoaded_spec (h.dupCtnt hlive) hk hpre
  obtain ⟨hput, hrep⟩ := (h.dupCtnt hlive).putLoaded hk hr
  obtain ⟨hlivel, hpar⟩ := (h.memKids ctrlLd ld).mp (by simp [hk])
  refine ⟨_, l₁, l₂, ?_, hk, hrep, hlivel, hpar, ?_, ?_, fun c hc => ?_, fun i => ?_⟩
  · unfold scResInfoHandleCached
    simp only [hslash, not_true_eq_false, if_false, hfind]
    exact heq
  · rw [hrep.liveCtnt_iff]
    simp
  · rw [hput]
    simp
  · rw [hput]
    simp only [Function.update_of_ne hc]
    exact hr.ctnt c
  · rw [hput]
    exact hr.mgmt i

theorem Rep.takeOver (h : Rep rl g) (ctrlLd : MgmtIdx) {parsed : CtntIdx} (hlive : rl.LiveCtnt parsed)
    (hne : (rl.ctnt parsed).parent ≠ some ctrlLd) :
    ∃ g', ∃ h' : Rep (scResInfoHandleCached rl ctrlLd parsed).2 g',
      TakeOver h.forest ctrlLd parsed (scResInfoHandleCached rl ctrlLd parsed).1 h'.forest := by
  have hleaf := leafOf_live hlive
  have hpick := h.loadedFor_eq ctrlLd (rl.ctnt parsed).url
  by_cases hslash : ch '/' ∈ (rl.ctnt parsed).url
  case neg =>
    have hno : scResInfoHandleCached rl ctrlLd parsed = (.errInternal, rl) := by
      simp [scResInfoHandleCached, hslash]
    rw [hno]
    exact ⟨g, h, .failed _ hleaf fun hs => absurd hs hslash⟩
  cases hfind : findLoaded rl ((rl.ctnt parsed).url.rtakeWhile (· ≠ ch '/')) (SC_RES_INFO_NUM_MAX_CTNT + 1) none
      (rl.mgmt ctrlLd).child with
  | none =>
    rw [hfind] at hpick
    have hno : scResInfoHandleCached rl ctrlLd parsed = (.errInternal, rl) := by
      simp only [scResInfoHandleCached, hslash, not_true_eq_false, if_false, hfind]
    rw [hno]
    exact ⟨g, h, .failed _ hleaf fun _ => hpick.symm⟩
  | some r =>
    obtain ⟨pre, ld⟩ := r
    rw [hfind] at hpick
    obtain ⟨rl', l₁, l₂, heq, hk, h', ho⟩ := h.handedOver_found hlive hslash hfind
    have hld := leafOf_live ho.live
    have hpl : parsed ≠ ld := by
      rintro rfl
      exact hne ho.parent
    rw [heq]
    refine ⟨_, h', ?_⟩
    have hforest : h'.forest = (h.forest.modify parsed (rl.ctnt ld).leaf.takeOver).prune ld := by
      refine Forest.ext (funext fun i => rootOf_congr (ho.mgmt i)) (funext fun i => ?_) (funext fun i => ?_)
      · rw [Forest.prune_leaf, Forest.modify_leaf, h'.forest_leaf, h.forest_leaf]
        by_cases hil : i = ld
        · subst hil
          rw [Function.update_self]
          exact leafOf_free ho.freed
        rw [Function.update_of_ne hil]
        by_cases hip : i = parsed
        · subst hip
          have hself := ho.parsed hpl
          have hlive' : rl'.LiveCtnt i := by
            rw [ResList.LiveCtnt, hself]
            exact hlive
          rw [Function.update_self, hleaf, leafOf_live hlive', hself]
          rfl
        · rw [Function.update_of_ne hip]
          refine leafOf_congr ?_
          rw [ho.ctnt i hil]
          simp only [scResInfoDupCtnt, setCtnt_ctnt, Function.update_of_ne hip]
      · rw [Forest.prune_kids, Forest.modify_kids, h'.forest_kids, h.forest_kids]
        have hnd := h.nodup ctrlLd
        dsimp only
        by_cases hi : i = ctrlLd
        · subst hi
          rw [hk] at hnd
          have hbefore : ld ∉ l₁ := fun hmem => (List.nodup_append.mp hnd).2.2 ld hmem ld (by simp) rfl
          rw [Function.update_self, hk, List.erase_append_right _ hbefore, List.erase_cons_head]
        · have hother : ld ∉ g.kids i := fun hmem => hi (h.kids_disjoint hmem (by simp [hk]))
          rw [Function.update_of_ne hi, List.erase_of_not_mem hother]
    rw [hforest]
    exact .done _ _ ld hleaf hslash hpick.symm hld

def poolOp (rl : ResList) : PoolOp → OpResult × ResList
  | .addNormal url => (scResInfoAddNormal rl url).map .mgmt id
  | .addOrigin url => (scResInfoAddOrigin rl url).map .mgmt id
  | .addCtrlLd url => (scResInfoAddCtrlLd rl url).map .mgmt id
  | .addCtnt m url delOk => (scResInfoAddCtnt rl m url delOk).map .ctnt id
  | .handleCached ctrlLd parsed => (scResInfoHandleCached rl ctrlLd parsed).map .handed id
  | .flag c f => (.done, rl.setFlag c f)

/-- What the callers see to: records handed in are in use, and no child of a controller is handed over
to another. -/
def Admissible (rl : ResList) : PoolOp → Prop
  | .addCtnt m _ _ => rl.LiveMgmt m
  | .handleCached ctrlLd parsed =>
    rl.LiveMgmt ctrlLd ∧ rl.LiveCtnt parsed ∧ (rl.ctnt parsed).parent ≠ some ctrlLd
  | _ => True

def poolTraces : System ResList (PoolOp × OpResult) where
  init := scResListAllocAndInit
  step rl a rl' := Admissible rl a.1 ∧ poolOp rl a.1 = (a.2, rl')

/-- One operation on the list is one step of the forest, with the same result. -/
theorem Rep.forestStep (h : Rep rl g) {op : PoolOp} (hadm : Admissible rl op) :
    ∃ g', ∃ h' : Rep (poolOp rl op).2 g', ForestStep h.forest (op, (poolOp rl op).1) h'.forest := by
  cases op with
  | addNormal url =>
    obtain ⟨g', h', hadd⟩ := h.addRoot (by decide : Gen.normal ≠ .content) true url
    exact ⟨g', h', .addNormal hadd⟩
  | addOrigin url =>
    obtain ⟨g', h', hadd⟩ := h.addRoot (by decide : Gen.origin ≠ .content) true url
    exact ⟨g', h', .addOrigin hadd⟩
  | addCtrlLd url =>
    obtain ⟨g', h', hadd⟩ := h.addRoot (by decide : Gen.ctrlLd ≠ .content) false url
    exact ⟨g', h', .addCtrlLd hadd⟩
  | addCtnt m url delOk =>
    obtain ⟨g', h', hadd⟩ := h.addLeaf hadm url delOk
    exact ⟨g', h', .addCtnt hadd⟩
  | handleCached ctrlLd parsed =>
    obtain ⟨g', h', htake⟩ := h.takeOver ctrlLd hadm.2.1 hadm.2.2
    exact ⟨g', h', .handleCached htake⟩
  | flag c f =>
    have hflag : ForestStep h.forest (.flag c f, .done) (h.setFlag c f).forest := by
      rw [h.setFlag_forest c f]
      exact .flag
    exact ⟨g, h.setFlag c f, hflag⟩

def StandsForList (rl : ResList) (F : ResForest) : Prop := ∃ g, ∃ h : Rep rl g, F = h.forest

theorem pool_simulates : Simulates poolTraces forestSystem StandsForList where
  init := by
    refine ⟨_, init_rep, Forest.ext (funext fun m => ?_) (funext fun c => ?_) ?_⟩
    · refine (rootOf_free fun hm => ?_).symm
      exact (init_rep.liveMgmt_iff m).mp hm ((mem_below le_rfl m).mpr m.isLt)
    · refine (leafOf_free fun hc => ?_).symm
      exact (init_rep.liveCtnt_iff c).mp hc ((mem_below le_rfl c).mpr c.isLt)
    · exact init_rep.forest_kids.symm
  step := by
    rintro rl F ⟨op, r⟩ rl' ⟨g, h, rfl⟩ ⟨hadm, hop⟩
    obtain ⟨g', h', hstep⟩ := h.forestStep hadm
    have hr : (poolOp rl op).1 = r := congrArg Prod.fst hop
    have hrl : (poolOp rl op).2 = rl' := congrArg Prod.snd hop
    subst hr hrl
    exact ⟨h'.forest, hstep, g', h', rfl⟩

/-- Every sequence of operations on the resource list, with the results that they return, is one of the
forest, and leaves the forest that the records in use spell out. The counters of the list are the
additions that have succeeded, less the records handed over. -/
theorem pool_refines_forest {l : List (PoolOp × OpResult)} (h : poolTraces.Trace l rl) :
    ∃ F, forestSystem.Trace l F ∧ F.root = rootOf rl ∧ F.leaf = leafOf rl ∧ F.kids = kidsOf rl ∧
      rl.mgmtCnt = rootsAdded l ∧ rl.ctntCnt + leavesHanded l = leavesAdded l := by
  obtain ⟨F, hF, g, hg, rfl⟩ := pool_simulates.trace h
  obtain ⟨hroot, hleaf⟩ := forestTrace_counts hF
  rw [hg.rootCount] at hroot
  rw [hg.leafCount] at hleaf
  exact ⟨hg.forest, hF, rfl, rfl, rfl, hroot, hleaf⟩

end Refinement

theorem controller_slot_lt : 1023 < SC_RES_INFO_NUM_MAX_MGMT := by decide

theorem source_slot_lt : 1022 < SC_RES_INFO_NUM_MAX_MGMT := by decide

theorem parsed_slot_lt : 4094 < SC_RES_INFO_NUM_MAX_CTNT := by decide

def handOverOps : List PoolOp :=
  [.addCtrlLd (bytes "www.youku.com"), .addCtnt ⟨1023, controller_slot_lt⟩ (bytes "k.youku.com/v/1.flv") true,
    .addNormal (bytes "f.youku.com/1.flv"), .addCtnt ⟨1022, source_slot_lt⟩ (bytes "f.youku.com/1.flv") true,
    .handleCached ⟨1023, controller_slot_lt⟩ ⟨4094, parsed_slot_lt⟩]

instance (rl : ResList) (op : PoolOp) : Decidable (Admissible rl op) := by
  cases op with
  | addCtnt m url delOk => exact inferInstanceAs (Decidable (rl.LiveMgmt m))
  | handleCached ctrlLd parsed =>
    exact inferInstanceAs (Decidable (rl.LiveMgmt ctrlLd ∧ rl.LiveCtnt parsed ∧ _ ≠ _))
  | _ => exact inferInstanceAs (Decidable True)

def runPool [Layout] (rl : ResList) : List PoolOp → List (PoolOp × OpResult) × ResList
  | [] => ([], rl)
  | op :: ops =>
    if Admissible rl op then
      ((op, (poolOp rl op).1) :: (runPool (poolOp rl op).2 ops).1, (runPool (poolOp rl op).2 ops).2)
    else ([], rl)

theorem runPool_trace [Layout] {l : List (PoolOp × OpResult)} {rl : ResList} (h : poolTraces.Trace l rl)
    (ops : List PoolOp) : poolTraces.Trace (l ++ (runPool rl ops).1) (runPool rl ops).2 := by
  induction ops generalizing l rl with
  | nil => simpa [runPool] using h
  | cons op ops ih =>
    rw [runPool]
    split_ifs with hadm
    · have hone : poolTraces.Trace (l ++ [(op, (poolOp rl op).1)]) (poolOp rl op).2 := h.snoc ⟨hadm, rfl⟩
      have hrest := ih hone
      rwa [List.append_assoc, List.singleton_append] at hrest
    · simpa using h

/-- Two records of each kind are added, and one is handed over. -/
theorem pool_refines_forest_hand_over :
    ∃ F, forestSystem.Trace (@runPool sampleLayout (@scResListAllocAndInit sampleLayout) handOverOps).1 F ∧
      F.root = rootOf (@runPool sampleLayout (@scResListAllocAndInit sampleLayout) handOverOps).2 ∧
      rootsAdded (@runPool sampleLayout (@scResListAllocAndInit sampleLayout) handOverOps).1 = 2 ∧
      leavesAdded (@runPool sampleLayout (@scResListAllocAndInit sampleLayout) handOverOps).1 = 2 ∧
      leavesHanded (@runPool sampleLayout (@scResListAllocAndInit sampleLayout) handOverOps).1 = 1 := by
  have htrace := @runPool_trace sampleLayout [] _ .nil handOverOps
  obtain ⟨F, hF, hroot, -⟩ := @pool_refines_forest sampleLayout _ _ htrace
  exact ⟨F, hF, hroot, by decide +kernel, by decide +kernel, by decide +kernel⟩

end HotCache
