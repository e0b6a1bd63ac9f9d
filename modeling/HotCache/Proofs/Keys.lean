import HotCache.Proofs.Down
import HotCache.Proofs.Service

/-! Which keys of the resource list stay unique: the local paths of the content records and the urls
of the management records. A move adds at most one record, and a hand-over moves a path from one record to
another; all else leaves the keys alone. The log holds the additions that were asked for, and each property
asks something of these. -/

namespace HotCache

open CStr FreeList

/-- Each live record of `rl'` has the path of a live record of `rl`, and no two of them the path of
the same one. -/
def PathsFrom (rl rl' : ResList) : Prop :=
  ∃ f : CtntIdx → CtntIdx,
    (∀ c, rl'.LiveCtnt c → rl.LiveCtnt (f c) ∧ (rl'.ctnt c).localpath = (rl.ctnt (f c)).localpath) ∧
    ∀ c c', rl'.LiveCtnt c → rl'.LiveCtnt c' → f c = f c' → c = c'

def SameMgmt (rl rl' : ResList) : Prop :=
  ∀ m, (rl'.mgmt m).id = (rl.mgmt m).id ∧ (rl'.mgmt m).url = (rl.mgmt m).url

def UniquePaths (rl : ResList) : Prop :=
  ∀ c c', rl.LiveCtnt c → rl.LiveCtnt c' → (rl.ctnt c).localpath = (rl.ctnt c').localpath → c = c'

def UniqueUrls (rl : ResList) : Prop :=
  ∀ m m', rl.LiveMgmt m → rl.LiveMgmt m' → (rl.mgmt m).url = (rl.mgmt m').url → m = m'

section Relations

variable {rl rl' : ResList}

theorem PathsFrom.unique (h : PathsFrom rl rl') (hu : UniquePaths rl) : UniquePaths rl' := by
  obtain ⟨f, hf, hfi⟩ := h
  intro c c' hc hc' he
  obtain ⟨hfc, hlp⟩ := hf c hc
  obtain ⟨hfc', hlp'⟩ := hf c' hc'
  exact hfi c c' hc hc' (hu _ _ hfc hfc' (hlp.symm.trans (he.trans hlp')))

theorem PathsFrom.of_ctnt (h : rl'.ctnt = rl.ctnt) : PathsFrom rl rl' := by
  refine ⟨id, fun c hc => ?_, fun _ _ _ _ h => h⟩
  rw [ResList.LiveCtnt, h] at hc
  rw [h]
  exact ⟨hc, rfl⟩

theorem SameMgmt.of_mgmt (h : rl'.mgmt = rl.mgmt) : SameMgmt rl rl' := fun m => by rw [h]; exact ⟨rfl, rfl⟩

theorem SameMgmt.live_iff (h : SameMgmt rl rl') (m : MgmtIdx) : rl'.LiveMgmt m ↔ rl.LiveMgmt m := by
  unfold ResList.LiveMgmt
  rw [(h m).1]

theorem SameMgmt.unique (h : SameMgmt rl rl') (hu : UniqueUrls rl) : UniqueUrls rl' := by
  intro m m' hm hm' he
  rw [(h m).2, (h m').2] at he
  exact hu m m' ((h.live_iff m).mp hm) ((h.live_iff m').mp hm') he

theorem SameMgmt.unique_iff (h : SameMgmt rl rl') : UniqueUrls rl' ↔ UniqueUrls rl :=
  ⟨fun hu => SameMgmt.unique (fun m => ⟨(h m).1.symm, (h m).2.symm⟩) hu, h.unique⟩

theorem mgmtAdded_uniqueUrls {m : MgmtIdx} {gen : Gen} {careType : Bool} {url : Bytes} {site : Site}
    (hm : ¬ rl.LiveMgmt m) (hu : UniqueUrls rl) :
    UniqueUrls (mgmtAdded rl m gen careType url site) ↔
      ∀ i, rl.LiveMgmt i → (rl.mgmt i).url ≠ scResCopyUrl url true := by
  have hself : (mgmtAdded rl m gen careType url site).LiveMgmt m ∧
      ((mgmtAdded rl m gen careType url site).mgmt m).url = scResCopyUrl url true := by
    rw [ResList.LiveMgmt, mgmtAdded_self]
    exact ⟨rfl, rfl⟩
  have hne : ∀ i, rl.LiveMgmt i → i ≠ m := by
    rintro i hi rfl
    exact hm hi
  constructor
  · intro hu' i hi he
    refine hne i hi (hu' i m ?_ hself.1 ?_)
    · exact (mgmtAdded_liveMgmt (hne i hi)).mpr hi
    · rw [mgmtAdded_other (hne i hi), he, hself.2]
  · intro hfresh i j hi hj hij
    have hold : ∀ k, k ≠ m → (mgmtAdded rl m gen careType url site).LiveMgmt k → rl.LiveMgmt k :=
      fun k hk => (mgmtAdded_liveMgmt hk).mp
    by_cases him : i = m
    · by_cases hjm : j = m
      · rw [him, hjm]
      · rw [him, hself.2, mgmtAdded_other hjm] at hij
        exact absurd hij.symm (hfresh j (hold j hjm hj))
    · by_cases hjm : j = m
      · rw [hjm, hself.2, mgmtAdded_other him] at hij
        exact absurd hij (hfresh i (hold i him hi))
      · rw [mgmtAdded_other him, mgmtAdded_other hjm] at hij
        exact hu i j (hold i him hi) (hold j hjm hj) hij

theorem setFlag_paths (rl : ResList) (c : CtntIdx) (f : Flag → Flag) : PathsFrom rl (rl.setFlag c f) := by
  refine ⟨id, fun i hi => ⟨(setFlag_live c i f).mp hi, ?_⟩, fun _ _ _ _ h => h⟩
  by_cases hic : i = c
  · subst hic
    rw [setFlag_self, id]
  · rw [setFlag_other f hic, id]

end Relations

def Addition.path (x : Addition) : Option Bytes :=
  scResInfoGenCtntLocalPath { url := scResCopyUrl x.url true, site := (x.rl.mgmt x.mgmt).site }

/-- The call gets through, and a live record has the path already. -/
def Addition.Collides (x : Addition) : Prop :=
  ¬ RejectsCtnt x.rl x.mgmt x.url x.delOk ∧ x.rl.ctntFree ≠ invalidPtr ∧
    ∃ c, x.rl.LiveCtnt c ∧ x.path = some (x.rl.ctnt c).localpath

section Moves

variable [L : Layout] {w w' : World} {m : MgmtIdx} {url : Bytes} {delOk : Bool}

/-- A hand-over moves the path of the loaded record to the record that takes its place. -/
theorem handOver_paths {rl : ResList} {g : Shape} (h : Rep rl g) (m : MgmtIdx) {c : CtntIdx}
    (hlive : rl.LiveCtnt c) :
    PathsFrom rl (scResInfoHandleCached rl m c).2 ∧ SameMgmt rl (scResInfoHandleCached rl m c).2 := by
  rcases handleCached_handedOver h m hlive with heq | ⟨ld, rl', heq, ho⟩
  · rw [heq]
    exact ⟨.of_ctnt rfl, .of_mgmt rfl⟩
  rw [heq]
  have hother : ∀ i, i ≠ ld → i ≠ c → (rl'.ctnt i).id = (rl.ctnt i).id ∧
      (rl'.ctnt i).localpath = (rl.ctnt i).localpath := by
    intro i hil hic
    rw [ho.ctnt i hil]
    simp [scResInfoDupCtnt, Function.update_of_ne hic]
  have hne : ∀ i, rl'.LiveCtnt i → i ≠ ld := by
    rintro i hi rfl
    exact ho.freed hi
  refine ⟨⟨fun i => if i = c then ld else i, fun i hi => ?_, fun i j hi hj hij => ?_⟩, fun i => ?_⟩
  · dsimp only
    by_cases hic : i = c
    · subst hic
      rw [if_pos rfl, ho.ctnt i (hne i hi)]
      simp only [scResInfoDupCtnt, setCtnt_ctnt, Function.update_self]
      exact ⟨ho.live, trivial⟩
    · obtain ⟨hid, hlp⟩ := hother i (hne i hi) hic
      rw [if_neg hic]
      exact ⟨hid.symm.trans hi, hlp⟩
  · dsimp only at hij
    split_ifs at hij with hic hjc hjc
    · rw [hic, hjc]
    · exact absurd hij.symm (hne j hj)
    · exact absurd hij (hne i hi)
    · exact hij
  · rw [ho.mgmt i]
    exact ⟨rfl, rfl⟩

omit L in
theorem notify_paths (w : World) (c : CtntIdx) (ok : Bool) :
    PathsFrom w.rl (scResNotifyRiUrl w c ok).2.rl ∧ SameMgmt w.rl (scResNotifyRiUrl w c ok).2.rl := by
  rcases notify_cases w c ok with heq | ⟨-, -, heq⟩
  · rw [heq]
    exact ⟨.of_ctnt rfl, .of_mgmt rfl⟩
  · rw [heq]
    cases ok
    · exact ⟨.of_ctnt rfl, .of_mgmt rfl⟩
    · exact ⟨setFlag_paths w.rl c setNotify, .of_mgmt rfl⟩

theorem addCtnt_sameMgmt (h : Good w) (m : MgmtIdx) (url : Bytes) (delOk : Bool) :
    SameMgmt w.rl (w.addCtnt m url delOk).2.rl := by
  obtain ⟨g, hg⟩ := h.rep
  rcases w.addCtnt_cases hg m url delOk with ⟨-, heq⟩ | ⟨c, l, -, -, heq⟩ | ⟨c, l, lp, -, -, -, heq⟩
  · rw [heq]
    exact .of_mgmt rfl
  · rw [heq]
    exact .of_mgmt rfl
  · rw [heq]
    intro i
    obtain ⟨child, childCnt, hmgmt⟩ := ctntAdded_mgmt w.rl m c url lp i
    simp [World.logged, hmgmt]

/-- An addition keeps the paths unique unless it takes one that is there. -/
theorem addCtnt_uniquePaths (h : Good w) (hx : ¬ (⟨w.rl, m, url, delOk⟩ : Addition).Collides)
    (hu : UniquePaths w.rl) : UniquePaths (w.addCtnt m url delOk).2.rl := by
  obtain ⟨g, hg⟩ := h.rep
  rcases w.addCtnt_cases hg m url delOk with ⟨-, heq⟩ | ⟨c, l, hf, -, heq⟩ | ⟨c, l, lp, hf, hlp, hadd, heq⟩
  · rw [heq]
    exact hu
  · rw [heq]
    exact (setFlag_paths w.rl c fun _ => {}).unique hu
  have hacc : ¬ RejectsCtnt w.rl m url delOk := by
    intro hrej
    rw [addCtnt_rejected hg (.inl hrej)] at hadd
    cases hadd
  have hself : ((ctntAdded w.rl m c url lp).ctnt c).localpath = lp := by rw [ctntAdded_self]
  -- the new path is the path of no record that was live before
  have hfresh : ∀ k, w.rl.LiveCtnt k → (w.rl.ctnt k).localpath ≠ lp := by
    rintro k hk rfl
    refine hx ⟨hacc, fun he => ?_, k, hk, hlp⟩
    have hnil := hg.ctnt.free_eq_invalid.mp he
    simp [hnil] at hf
  have hold : ∀ k, k ≠ c → (ctntAdded w.rl m c url lp).LiveCtnt k → w.rl.LiveCtnt k :=
    fun k hk => (ctntAdded_liveCtnt hk).mp
  rw [heq]
  intro i j hi hj hij
  simp only [World.logged] at hi hj hij
  by_cases hic : i = c
  · by_cases hjc : j = c
    · rw [hic, hjc]
    · rw [hic, hself, ctntAdded_other hjc] at hij
      exact absurd hij.symm (hfresh j (hold j hjc hj))
  · by_cases hjc : j = c
    · rw [hjc, hself, ctntAdded_other hic] at hij
      exact absurd hij (hfresh i (hold i hic hi))
    · rw [ctntAdded_other hic, ctntAdded_other hjc] at hij
      exact hu i j (hold i hic hi) (hold j hjc hj) hij

theorem Move.uniquePaths (h : Good w) (hm : Move w w') (hlog : ∀ x, Ev.addCtnt x ∈ w'.log → ¬ x.Collides)
    (hu : UniquePaths w.rl) : UniquePaths w'.rl := by
  obtain ⟨g, hg⟩ := h.rep
  cases hm with
  | addMgmt gen url hask => exact (PathsFrom.of_ctnt (addMgmt_spec hg true url hask.ne.1).1).unique hu
  | addCtnt m url delOk hm => exact addCtnt_uniquePaths h (hlog _ (addCtnt_logged w m url delOk)) hu
  | ngxDownload ans url lp => exact hu
  | flag c f hc hf => exact (setFlag_paths w.rl c f).unique hu
  | notify c ok hc => exact (notify_paths w c ok).1.unique hu
  | handleCached ctrlLd parsed hctrl hlive hne => exact (handOver_paths hg ctrlLd hlive).1.unique hu
  | logged e he => exact hu
  | finish r evs lp => exact hu

theorem Moves.uniquePaths (h : Good w) (hm : Moves w w') (hlog : ∀ x, Ev.addCtnt x ∈ w'.log → ¬ x.Collides)
    (hu : UniquePaths w.rl) : UniquePaths w'.rl := by
  induction hm with
  | refl => exact hu
  | tail hpre hmove ih =>
    have hlog' := fun x hx => hlog x (hmove.controllers.2.2.subset hx)
    exact hmove.uniquePaths (h.moves hpre) hlog (ih hlog')

/-- In every run in which no addition takes the path of a live record, the live content records
have different local paths after every step. -/
theorem unique_local_paths (h : Reachable w) (hlog : ∀ x, Ev.addCtnt x ∈ w.log → ¬ x.Collides) :
    UniquePaths w.rl := by
  refine h.moves.uniquePaths ldInit_blank.sound.toGood hlog fun c _ hc => ?_
  exact absurd hc (ldInit_blank.ctnt c).1

/-- No record stored in the list has the url that a DOWN request for `url` is about to store. -/
def DownKeyFresh (rl : ResList) (url : Bytes) : Prop :=
  (∀ m, (rl.mgmt m).url ≠ url) → NormalAdmitted rl url → ∀ m, rl.LiveMgmt m → (rl.mgmt m).url ≠ scResCopyUrl url true

omit L in
theorem downKeyFresh_plain (rl : ResList) {url : Bytes} (h : startsWith url HTTP_URL_PREFIX = false) :
    DownKeyFresh rl url := by
  have hcopy : scResCopyUrl url true = url := by simp [scResCopyUrl, h]
  intro hnew _ m _
  rw [hcopy]
  exact hnew m

/-- A new normal record keeps the urls unique exactly when its key is fresh. -/
theorem addNormal_uniqueUrls_iff {rl : ResList} {g : Shape} (h : Rep rl g) (hnew : scResInfoFindMgmt rl url = none)
    (hu : UniqueUrls rl) : UniqueUrls (scResInfoAddNormal rl url).2 ↔ DownKeyFresh rl url := by
  by_cases hn : NormalAdmitted rl url
  case neg =>
    rw [addNormal_refused h hn]
    exact iff_of_true hu fun _ hn' => absurd hn' hn
  obtain ⟨m, l, site, hf, -, heq⟩ := addNormal_admitted h hn
  have hdead : ¬ rl.LiveMgmt m := by simp [h.liveMgmt_iff, hf]
  rw [heq]
  dsimp only
  rw [mgmtAdded_uniqueUrls hdead hu]
  exact ⟨fun hfresh _ _ => hfresh, fun hfresh => hfresh (findMgmt_none.mp hnew) hn⟩

theorem addOrigin_uniqueUrls {rl : ResList} {g : Shape} (h : Rep rl g) (hnew : scResInfoFindMgmt rl url = none)
    (hcopy : scResCopyUrl url true = url) (hu : UniqueUrls rl) : UniqueUrls (scResInfoAddOrigin rl url).2 := by
  unfold scResInfoAddOrigin
  rcases addMgmt_cases h true url (by decide : Gen.origin ≠ .content) with heq | ⟨m, l, site, hf, heq⟩
  · rw [heq]
    exact hu
  · have hdead : ¬ rl.LiveMgmt m := by simp [h.liveMgmt_iff, hf]
    rw [heq]
    refine (mgmtAdded_uniqueUrls hdead hu).mpr fun i _ => ?_
    rw [hcopy]
    exact findMgmt_none.mp hnew i

theorem Move.uniqueUrls (h : Good w) (hm : Move w w')
    (hlog : ∀ rl url, Ev.addNormal rl url ∈ w'.log → DownKeyFresh rl url) (hu : UniqueUrls w.rl) :
    UniqueUrls w'.rl := by
  obtain ⟨g, hg⟩ := h.rep
  cases hm with
  | addMgmt gen url hask =>
    cases hask with
    | normal hnew hlogged => exact (addNormal_uniqueUrls_iff hg hnew hu).mpr (hlog _ _ hlogged)
    | origin hnew hcopy => exact addOrigin_uniqueUrls hg hnew hcopy hu
  | addCtnt m url delOk hm => exact (addCtnt_sameMgmt h m url delOk).unique hu
  | ngxDownload ans url lp => exact hu
  | flag c f hc hf => exact hu
  | notify c ok hc => exact (notify_paths w c ok).2.unique hu
  | handleCached ctrlLd parsed hctrl hlive hne => exact (handOver_paths hg ctrlLd hlive).2.unique hu
  | logged e he => exact hu
  | finish r evs lp => exact hu

theorem Moves.uniqueUrls (h : Good w) (hm : Moves w w')
    (hlog : ∀ rl url, Ev.addNormal rl url ∈ w'.log → DownKeyFresh rl url) (hu : UniqueUrls w.rl) :
    UniqueUrls w'.rl := by
  induction hm with
  | refl => exact hu
  | tail hpre hmove ih =>
    have hlog' := fun rl url hx => hlog rl url (hmove.controllers.2.2.subset hx)
    exact hmove.uniqueUrls (h.moves hpre) hlog (ih hlog')

/-- A DOWN request keeps the urls unique exactly when its key is fresh. -/
theorem doDown_uniqueUrls_iff (h : Good w) (hu : UniqueUrls w.rl) (url : Bytes) (ans : Answer) :
    UniqueUrls (scSnoopingDoDown w url ans).2.rl ↔ DownKeyFresh w.rl url := by
  obtain ⟨g, hg⟩ := h.rep
  cases hfind : scResInfoFindMgmt w.rl url with
  | some m =>
    rw [doDown_known hfind]
    refine iff_of_true hu fun hnew => ?_
    rw [findMgmt_none.mpr hnew] at hfind
    cases hfind
  | none =>
    rw [← addNormal_uniqueUrls_iff hg hfind hu]
    suffices hsame : SameMgmt (scResInfoAddNormal w.rl url).2 (scSnoopingDoDown w url ans).2.rl from hsame.unique_iff
    have hg₁ : Good { w.logged (.addNormal w.rl url) with rl := (scResInfoAddNormal w.rl url).2 } :=
      (h.logged (e := .addNormal w.rl url) trivial).move
        (.addMgmt _ .normal url (.normal hfind (by simp [World.logged])))
    unfold scSnoopingDoDown
    rw [hfind]
    obtain ⟨⟨o, rl⟩, hr⟩ : ∃ r, scResInfoAddNormal w.rl url = r := ⟨_, rfl⟩
    have hlogged : scResInfoAddNormal (w.logged (.addNormal w.rl url)).rl url = (o, rl) := hr
    dsimp only
    rw [hr] at hg₁ ⊢
    rw [hlogged]
    cases o with
    | none => exact .of_mgmt rfl
    | some normal =>
      have hadd := addCtnt_sameMgmt hg₁ normal (rl.mgmt normal).url ans.snooping
      dsimp only at hadd ⊢
      split
      next w₁ heq =>
        rw [heq] at hadd
        exact hadd
      next c w₁ heq =>
        rw [heq] at hadd
        unfold orIFail
        dsimp only
        split_ifs
        · exact hadd
        · exact hadd

theorem ldInit_uniqueUrls : UniqueUrls scLdInit.rl := by
  obtain ⟨g, hg⟩ : ∃ g, Rep scResListAllocAndInit g := ⟨_, init_rep⟩
  have hdead : ∀ m, ¬ scResListAllocAndInit.LiveMgmt m := by
    intro m hm
    exact (init_rep.liveMgmt_iff m).mp hm ((mem_below _ m).mpr m.isLt)
  have hu : UniqueUrls scResListAllocAndInit := fun m _ hm => absurd hm (hdead m)
  unfold scLdInit
  rcases addMgmt_cases hg false YOUKU_WEBSITE_URL (by decide : Gen.ctrlLd ≠ .content) with
    heq | ⟨m, l, site, hf, heq⟩
  · rw [scResInfoAddCtrlLd, heq]
    exact hu
  have hg₁ := hg.mgmtAdded hf (by decide : Gen.ctrlLd ≠ .content) false YOUKU_WEBSITE_URL site
  have hu₁ : UniqueUrls (mgmtAdded scResListAllocAndInit m .ctrlLd false YOUKU_WEBSITE_URL site) :=
    (mgmtAdded_uniqueUrls (hdead m) hu).mpr fun i hi => absurd hi (hdead i)
  rw [scResInfoAddCtrlLd, heq]
  dsimp only
  rcases addMgmt_cases hg₁ false SOHU_WEBSITE_URL (by decide : Gen.ctrlLd ≠ .content) with
    heq₂ | ⟨m₂, l₂, site₂, hf₂, heq₂⟩
  · rw [heq₂]
    exact hu₁
  · obtain rfl : l = m₂ :: l₂ := hf₂
    have hdead₂ := (hg₁.liveMgmt_iff m₂).not.mpr (by simp)
    rw [heq₂]
    refine (mgmtAdded_uniqueUrls hdead₂ hu₁).mpr fun i hi he => ?_
    by_cases him : i = m
    · subst him
      simp only [mgmtAdded_self] at he
      exact absurd he (by decide)
    · exact hdead i ((mgmtAdded_liveMgmt him).mp hi)

/-- In every run in which no DOWN request is about to store the url of a live record, the live
management records have different urls after every step; and from there on, a DOWN request keeps
them different exactly when its key is fresh. -/
theorem unique_mgmt_urls (h : Reachable w) (hlog : ∀ rl url, Ev.addNormal rl url ∈ w.log → DownKeyFresh rl url) :
    UniqueUrls w.rl ∧ ∀ url ans,
      UniqueUrls (scSnoopingDoDown w url ans).2.rl ↔ DownKeyFresh w.rl url := by
  have hu : UniqueUrls w.rl := h.moves.uniqueUrls ldInit_blank.sound.toGood hlog ldInit_uniqueUrls
  exact ⟨hu, doDown_uniqueUrls_iff h.sound.toGood hu⟩

end Moves

def downTwice (url₁ url₂ : Bytes) : World :=
  (@scSnoopingDoDown sampleLayout (firstDown url₁).2 url₂ ⟨none, .failed false, true⟩).2

theorem firstDown_reachable (url : Bytes) : @Reachable sampleLayout (firstDown url).2 :=
  .single (SpRequest.step (@SpRequest.down sampleLayout _ url _))

theorem downTwice_reachable (url₁ url₂ : Bytes) : @Reachable sampleLayout (downTwice url₁ url₂) :=
  (firstDown_reachable url₁).tail (SpRequest.step (@SpRequest.down sampleLayout _ url₂ _))

/-- An addition to a list without content records. -/
def Ev.firstAdded : Ev → Bool
  | .addCtnt x => (List.finRange SC_RES_INFO_NUM_MAX_CTNT).all fun c => !decide (x.rl.LiveCtnt c)
  | _ => true

theorem unique_local_paths_first_down :
    (firstDown (bytes "f.youku.com/a.flv")).2.rl.LiveCtnt 4095 ∧
    UniquePaths (firstDown (bytes "f.youku.com/a.flv")).2.rl := by
  have hempty : (firstDown (bytes "f.youku.com/a.flv")).2.log.all Ev.firstAdded = true := by
    decide +kernel
  refine ⟨by decide +kernel, @unique_local_paths sampleLayout _ (firstDown_reachable _) fun x hx => ?_⟩
  rintro ⟨-, -, c, hc, -⟩
  have hdead := List.all_eq_true.mp (List.all_eq_true.mp hempty _ hx) c (List.mem_finRange c)
  simp [hc] at hdead

/-- Two urls that differ in the query only get two records with one path. -/
theorem local_path_shared :
    @Reachable sampleLayout (downTwice (bytes "f.youku.com/a.flv?1") (bytes "f.youku.com/a.flv?2")) ∧
    ¬ UniquePaths (downTwice (bytes "f.youku.com/a.flv?1") (bytes "f.youku.com/a.flv?2")).rl := by
  refine ⟨downTwice_reachable _ _, fun hu => ?_⟩
  obtain ⟨h₁, h₂, heq⟩ :
      (downTwice (bytes "f.youku.com/a.flv?1") (bytes "f.youku.com/a.flv?2")).rl.LiveCtnt 4095 ∧
      (downTwice (bytes "f.youku.com/a.flv?1") (bytes "f.youku.com/a.flv?2")).rl.LiveCtnt 4094 ∧
      ((downTwice (bytes "f.youku.com/a.flv?1") (bytes "f.youku.com/a.flv?2")).rl.ctnt 4095).localpath =
        ((downTwice (bytes "f.youku.com/a.flv?1") (bytes "f.youku.com/a.flv?2")).rl.ctnt 4094).localpath := by
    decide +kernel
  exact absurd (hu 4095 4094 h₁ h₂ heq) (by decide)

/-- A DOWN request without the scheme. -/
theorem unique_mgmt_urls_first_down :
    (firstDown (bytes "f.youku.com/a.flv")).2.rl.LiveMgmt 1021 ∧
    UniqueUrls (firstDown (bytes "f.youku.com/a.flv")).2.rl := by
  have hplain : (firstDown (bytes "f.youku.com/a.flv")).2.log.all (fun e => match e with
      | .addNormal _ url => !startsWith url HTTP_URL_PREFIX
      | _ => true) = true := by
    decide +kernel
  refine ⟨by decide +kernel, (@unique_mgmt_urls sampleLayout _ (firstDown_reachable _) fun rl url hx => ?_).1⟩
  exact downKeyFresh_plain rl (by simpa using List.all_eq_true.mp hplain _ hx)

/-- With the scheme, the same request made twice adds two records: the list stores the url without
it and is searched with it. -/
theorem mgmt_url_shared :
    @Reachable sampleLayout (downTwice (bytes "http://f.youku.com/a.flv") (bytes "http://f.youku.com/a.flv")) ∧
    ¬ UniqueUrls (downTwice (bytes "http://f.youku.com/a.flv") (bytes "http://f.youku.com/a.flv")).rl := by
  refine ⟨downTwice_reachable _ _, fun hu => ?_⟩
  obtain ⟨h₁, h₂, heq⟩ :
      (downTwice (bytes "http://f.youku.com/a.flv") (bytes "http://f.youku.com/a.flv")).rl.LiveMgmt 1021 ∧
      (downTwice (bytes "http://f.youku.com/a.flv") (bytes "http://f.youku.com/a.flv")).rl.LiveMgmt 1020 ∧
      ((downTwice (bytes "http://f.youku.com/a.flv") (bytes "http://f.youku.com/a.flv")).rl.mgmt 1021).url =
        ((downTwice (bytes "http://f.youku.com/a.flv") (bytes "http://f.youku.com/a.flv")).rl.mgmt 1020).url := by
    decide +kernel
  exact absurd (hu 1021 1020 h₁ h₂ heq) (by decide)

end HotCache
