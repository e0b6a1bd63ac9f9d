import HotCache.Proofs.Run

/-! When a DOWN request that is answered with an error leaves the resource list alone. The handler
adds a normal record and then a content record below it, and does not take the first back when the
second fails. -/

namespace HotCache

open CStr FreeList

variable {rl : ResList} {url : Bytes}

/-- `sc_res_info_add_normal` accepts the url: a known site, short enough, and a free slot. -/
def NormalAdmitted (rl : ResList) (url : Bytes) : Prop :=
  scResInfoPermitAdding url = true ∧ url.length < HTTP_URL_MAX_LEN ∧ rl.mgmtFree ≠ invalidPtr ∧
    (urlSite (scResCopyUrl url true)).isSome = true

/-- `sc_res_info_add_ctnt` accepts the url of the new normal record: a free slot, a url that fits
the path buffer, and for Sohu a file url. -/
def CtntAdmitted (rl : ResList) (url : Bytes) : Prop :=
  rl.ctntFree ≠ invalidPtr ∧
    (scResCopyUrl (scResCopyUrl url true) true).length < SC_RES_LOCAL_PATH_MAX_LEN ∧
    (scUrlIsYk (scResCopyUrl url true) = true ∨ scUrlIsSohuFileUrl (scResCopyUrl (scResCopyUrl url true) true) = true)

theorem findMgmt_none : scResInfoFindMgmt rl url = none ↔ ∀ m, (rl.mgmt m).url ≠ url := by
  simp [scResInfoFindMgmt]

theorem copyUrl_length (url : Bytes) : (scResCopyUrl url true).length ≤ url.length := by
  simp only [scResCopyUrl, if_true]
  split_ifs
  · exact List.length_drop.le.trans (Nat.sub_le ..)
  · exact le_rfl

theorem permit_of_site {site : Site} (h : urlSite url = some site) :
    scResInfoPermitAdding url = true := by
  unfold urlSite at h
  unfold scResInfoPermitAdding
  split_ifs at h with hyk hso
  · simp [hyk]
  · simp [hso]

/-- The local path of a record whose site was read off `url`. -/
theorem genLocalPath_isSome {site : Site} (ctnt : Ctnt) (h : urlSite url = some site)
    (hsite : ctnt.site = site) :
    (scResInfoGenCtntLocalPath ctnt).isSome = true ↔
      ctnt.url.length < SC_RES_LOCAL_PATH_MAX_LEN ∧
        (scUrlIsYk url = true ∨ scUrlIsSohuFileUrl ctnt.url = true) := by
  unfold urlSite at h
  unfold scResInfoGenCtntLocalPath
  split_ifs at h with hyk hso
  · obtain rfl := Option.some.inj h
    simp [hsite, scYkUrlToLocalPath, scResUrlToLocalPathDefault, hyk]
  · obtain rfl := Option.some.inj h
    simp only [hsite, scSohuFileUrlToLocalPath, hyk]
    by_cases hfile : scUrlIsSohuFileUrl ctnt.url = true <;> simp [hfile]

section Down

variable [L : Layout] {g : Shape}

theorem addNormal_refused (h : Rep rl g) (hno : ¬ NormalAdmitted rl url) :
    scResInfoAddNormal rl url = (none, rl) := by
  refine addMgmt_none h (by decide) ?_
  by_contra hc
  simp only [not_or, Bool.not_eq_false, not_le, ← Option.isSome_iff_ne_none] at hc
  exact hno ⟨hc.1, hc.2.1, fun hf => hc.2.2.1 (h.mgmt.free_eq_invalid.mp hf), hc.2.2.2⟩

theorem addNormal_admitted (h : Rep rl g) (hok : NormalAdmitted rl url) :
    ∃ m l site, g.freeM = m :: l ∧ urlSite (scResCopyUrl url true) = some site ∧
      scResInfoAddNormal rl url = (some m, mgmtAdded rl m .normal true url site) := by
  obtain ⟨hp, hlen, hfree, hsite⟩ := hok
  obtain ⟨site, hsite⟩ := Option.isSome_iff_exists.mp hsite
  cases hf : g.freeM with
  | nil => exact absurd (h.mgmt.free_eq_invalid.mpr hf) hfree
  | cons m l => exact ⟨m, l, site, rfl, hsite, addMgmt_some h (by decide) hp hlen hf hsite⟩

theorem addCtnt_below_normal (h : Rep rl g) {m : MgmtIdx} {l : List MgmtIdx} {site : Site}
    (hf : g.freeM = m :: l)
    (hlen : url.length < HTTP_URL_MAX_LEN) (hsite : urlSite (scResCopyUrl url true) = some site)
    (delOk : Bool) :
    (scResInfoAddCtnt (mgmtAdded rl m .normal true url site) m (scResCopyUrl url true) delOk).1.isSome = true ↔
      CtntAdmitted rl url := by
  have hrep := h.mgmtAdded hf (by decide : Gen.normal ≠ .content) true url site
  have hm : (mgmtAdded rl m .normal true url site).mgmt m =
      { id := m, gen := .normal, url := scResCopyUrl url true, site := site, mime := scResMimeTypeObtain url true } :=
    Function.update_self ..
  have hacc : ¬ RejectsCtnt (mgmtAdded rl m .normal true url site) m (scResCopyUrl url true) delOk := by
    have := copyUrl_length url
    rintro (hp | hl | ⟨hgen, -⟩)
    · rw [permit_of_site hsite] at hp
      cases hp
    · omega
    · rw [hm] at hgen
      cases hgen
  unfold CtntAdmitted
  cases hc : g.freeC with
  | nil =>
    rw [addCtnt_rejected hrep (.inr hc)]
    simp [h.ctnt.free_eq_invalid.mpr hc]
  | cons c lc =>
    have hfree : rl.ctntFree ≠ invalidPtr := fun he => by simp [h.ctnt.free_eq_invalid.mp he] at hc
    have hpath := genLocalPath_isSome (newCtnt (mgmtAdded rl m .normal true url site) m c (scResCopyUrl url true)) hsite
      (by simp only [newCtnt, hm])
    simp only [newCtnt] at hpath
    rw [addCtnt_cons hrep hacc hc]
    split
    next hlp =>
      simp only [newCtnt] at hlp
      rw [hlp] at hpath
      simp only [Option.isSome_none, Bool.false_eq_true, false_iff] at hpath ⊢
      exact fun hall => hpath hall.2
    next lp hlp =>
      simp only [newCtnt] at hlp
      rw [hlp] at hpath
      simp only [Option.isSome_some, true_iff] at hpath ⊢
      exact ⟨hfree, hpath⟩

/-- An error leaves the list as it was, and the request can be repeated with the same result. -/
def AllOrNothing (w : World) (url : Bytes) (ans : Answer) : Prop :=
  (scSnoopingDoDown w url ans).1 = .defaultError →
    (scSnoopingDoDown w url ans).2.rl = w.rl ∧
    ∀ ans', (scSnoopingDoDown (scSnoopingDoDown w url ans).2 url ans').1 = (scSnoopingDoDown w url ans').1

theorem doDown_known {w : World} {m : MgmtIdx} (hfind : scResInfoFindMgmt w.rl url = some m) (ans : Answer) :
    scSnoopingDoDown w url ans = (.ok, w) := by
  unfold scSnoopingDoDown
  split
  · rfl
  next hnone =>
    rw [hfind] at hnone
    cases hnone

theorem doDown_refused {w : World} (h : Rep w.rl g) (hfind : scResInfoFindMgmt w.rl url = none)
    (hn : ¬ NormalAdmitted w.rl url) (ans : Answer) :
    scSnoopingDoDown w url ans = (.defaultError, w.logged (.addNormal w.rl url)) := by
  have hadd : scResInfoAddNormal (w.logged (.addNormal w.rl url)).rl url = (none, w.rl) := addNormal_refused h hn
  unfold scSnoopingDoDown
  rw [hfind]
  dsimp only
  rw [hadd]
  rfl

/-- The handler answers OK, or refuses without a trace, or leaves a normal record behind. -/
theorem doDown_cases {w : World} (h : Rep w.rl g) (url : Bytes) (ans : Answer) :
    ((scSnoopingDoDown w url ans).1 = .ok ∧
      ((∀ m, (w.rl.mgmt m).url ≠ url) → NormalAdmitted w.rl url → CtntAdmitted w.rl url)) ∨
    (scSnoopingDoDown w url ans = (.defaultError, w.logged (.addNormal w.rl url)) ∧
      scResInfoFindMgmt w.rl url = none ∧ ¬ NormalAdmitted w.rl url) ∨
    ((scSnoopingDoDown w url ans).1 = .defaultError ∧
      (scSnoopingDoDown w url ans).2.rl.mgmtCnt = w.rl.mgmtCnt + 1 ∧
      (∀ m, (w.rl.mgmt m).url ≠ url) ∧ NormalAdmitted w.rl url ∧ ¬ CtntAdmitted w.rl url) := by
  cases hfind : scResInfoFindMgmt w.rl url with
  | some m =>
    refine .inl ⟨congrArg Prod.fst (doDown_known hfind ans), fun hnone => ?_⟩
    rw [findMgmt_none.mpr hnone] at hfind
    cases hfind
  | none =>
    by_cases hn : NormalAdmitted w.rl url
    case neg => exact .inr (.inl ⟨doDown_refused h hfind hn ans, rfl, hn⟩)
    unfold scSnoopingDoDown
    rw [hfind]
    dsimp only
    obtain ⟨m, l, site, hf, hsite, heq⟩ := addNormal_admitted h hn
    have hurl : ((mgmtAdded w.rl m .normal true url site).mgmt m).url = scResCopyUrl url true := by
      rw [mgmtAdded_self]
    have hadd := addCtnt_below_normal h hf hn.2.1 hsite ans.snooping
    have hcnt := addCtnt_mgmtCnt (h.mgmtAdded hf (by decide : Gen.normal ≠ .content) true url site) m
      (scResCopyUrl url true) ans.snooping
    have heq' : scResInfoAddNormal (w.logged (.addNormal w.rl url)).rl url =
        (some m, mgmtAdded w.rl m .normal true url site) := heq
    rw [heq']
    simp only [World.addCtnt, World.logged, hurl]
    generalize scResInfoAddCtnt (mgmtAdded w.rl m .normal true url site) m (scResCopyUrl url true)
      ans.snooping = r at hadd hcnt
    obtain ⟨o, rl'⟩ := r
    by_cases hc : CtntAdmitted w.rl url
    · obtain ⟨c, rfl⟩ := Option.isSome_iff_exists.mp (hadd.mpr hc)
      exact .inl ⟨rfl, fun _ _ => hc⟩
    · obtain rfl := Option.not_isSome_iff_eq_none.mp (hc ∘ hadd.mp)
      exact .inr (.inr ⟨rfl, hcnt, findMgmt_none.mp hfind, hn, hc⟩)

/-- For every state of the pool and every DOWN request: an error leaves the list as it was exactly
when the url is known already, or the first addition is refused, or the second would succeed. -/
theorem down_all_or_nothing_iff {w : World} (h : PoolReachable w.rl) (url : Bytes) (ans : Answer) :
    AllOrNothing w url ans ↔
      ((∀ m, (w.rl.mgmt m).url ≠ url) → NormalAdmitted w.rl url → CtntAdmitted w.rl url) := by
  obtain ⟨g, hg⟩ := reachable_rep h
  unfold AllOrNothing
  rcases doDown_cases hg url ans with ⟨hok, hcond⟩ | ⟨heq, hfind, hn⟩ | ⟨herr, hcnt, hnew, hn, hc⟩
  · refine iff_of_true (fun herr => ?_) hcond
    rw [hok] at herr
    cases herr
  · refine iff_of_true (fun _ => ?_) fun _ hn' => absurd hn' hn
    rw [heq]
    refine ⟨rfl, fun ans' => ?_⟩
    rw [doDown_refused hg hfind hn ans', doDown_refused (w := w.logged _) hg hfind hn ans']
  · refine iff_of_false (fun hall => ?_) fun hcond => hc (hcond hnew hn)
    obtain ⟨hsame, -⟩ := hall herr
    rw [hsame] at hcnt
    omega

end Down

def firstDown (url : Bytes) : Status × World :=
  @scSnoopingDoDown sampleLayout (@scLdInit sampleLayout) url ⟨none, .failed false, true⟩

/-- A url of an unknown site is refused and changes nothing. -/
theorem down_unknown_site :
    (firstDown (bytes "www.example.com/a.flv")).1 = .defaultError ∧
    @AllOrNothing sampleLayout (@scLdInit sampleLayout) (bytes "www.example.com/a.flv")
      ⟨none, .failed false, true⟩ := by
  have hpool : @PoolReachable sampleLayout (@scLdInit sampleLayout).rl :=
    @Blank.pool sampleLayout _ (@ldInit_blank sampleLayout)
  refine ⟨by decide +kernel, (@down_all_or_nothing_iff sampleLayout _ hpool _ _).mpr fun _ hn => absurd hn.1 ?_⟩
  decide +kernel

/-- A Sohu url that is not a file url leaves a normal record behind; asked again, the client answers
OK without a content record. -/
theorem down_leaves_record :
    @Reachable sampleLayout (@scLdInit sampleLayout) ∧
    (firstDown (bytes "www.sohu.com/a.flv")).1 = .defaultError ∧
    (firstDown (bytes "www.sohu.com/a.flv")).2.rl.ctntCnt = 0 ∧
    (@scSnoopingDoDown sampleLayout (firstDown (bytes "www.sohu.com/a.flv")).2 (bytes "www.sohu.com/a.flv")
      ⟨none, .failed false, true⟩).1 = .ok ∧
    ¬ @AllOrNothing sampleLayout (@scLdInit sampleLayout) (bytes "www.sohu.com/a.flv")
      ⟨none, .failed false, true⟩ := by
  have herr : (firstDown (bytes "www.sohu.com/a.flv")).1 = .defaultError := by decide +kernel
  refine ⟨.refl, herr, by decide +kernel, by decide +kernel, fun hall => ?_⟩
  unfold AllOrNothing at hall
  rw [← firstDown] at hall
  have hsame := congrArg ResList.mgmtCnt (hall herr).1
  have hcnt : (firstDown (bytes "www.sohu.com/a.flv")).2.rl.mgmtCnt ≠ (@scLdInit sampleLayout).rl.mgmtCnt := by
    decide +kernel
  exact hcnt hsame

end HotCache
