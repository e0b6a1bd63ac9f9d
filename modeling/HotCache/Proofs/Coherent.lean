import HotCache.Proofs.CacheRoot
import HotCache.Proofs.Service

/-! The records of the running program agree with each other: a content record is of the site of its
parent, and its local path is what the encoder of that site makes of its url, also after it has taken
over a loaded record. So a file that Nginx is asked to write lies under its root, unless the url of the
request itself names another one. -/

namespace HotCache

open CStr LexPath

theorem genLocalPath_some {ctnt : Ctnt} {lp : Bytes} (h : scResInfoGenCtntLocalPath ctnt = some lp) :
    ctnt.url.length < SC_RES_LOCAL_PATH_MAX_LEN ∧
      ∃ u, u.length ≤ ctnt.url.length ∧ lp = sohuLoop true u := by
  have hdefault : ∀ {url : Bytes}, scResUrlToLocalPathDefault url SC_RES_LOCAL_PATH_MAX_LEN = some lp →
      url.length < SC_RES_LOCAL_PATH_MAX_LEN ∧ ∃ u, u.length ≤ url.length ∧ lp = sohuLoop true u := by
    intro url hurl
    unfold scResUrlToLocalPathDefault at hurl
    split_ifs at hurl with hlen
    refine ⟨by omega, url.takeWhile (· ≠ ch '?'), (List.takeWhile_prefix _).length_le, ?_⟩
    rw [← Option.some.inj hurl, defaultLoop_eq_sohuLoop]
  unfold scResInfoGenCtntLocalPath at h
  cases hsite : ctnt.site with
  | youku => exact hdefault (by simpa [hsite, scYkUrlToLocalPath] using h)
  | max => exact hdefault (by simpa [hsite] using h)
  | sohu =>
    simp only [hsite, scSohuFileUrlToLocalPath] at h
    split_ifs at h with hfile hlen
    exact ⟨by omega, ctnt.url, le_rfl, (Option.some.inj h).symm⟩

structure CachePath (lp : Bytes) : Prop where
  length : lp.length < SC_RES_LOCAL_PATH_MAX_LEN
  query : ch '?' ∉ lp
  slash : lp.count (ch '/') ≤ 1
  dot : ch '.' ∉ lp.takeWhile (· ≠ ch '/')

theorem genLocalPath_cachePath {ctnt : Ctnt} {lp : Bytes} (h : scResInfoGenCtntLocalPath ctnt = some lp) :
    CachePath lp := by
  obtain ⟨hlen, u, hu, rfl⟩ := genLocalPath_some h
  obtain ⟨hslash, hdot⟩ := sohuLoop_slash u
  have hloop : (sohuLoop true u).length = u.length := by simp
  exact ⟨by omega, query_notMem_sohuLoop true u, hslash, hdot⟩

theorem CachePath.of_prefix {lp key : Bytes} (h : CachePath lp) (hkey : key <+: lp) : CachePath key where
  length := hkey.length_le.trans_lt h.length
  query := fun hin => h.query (hkey.subset hin)
  slash := (hkey.count_le _).trans h.slash
  dot := fun hin => h.dot ((IsPrefix.takeWhile hkey _).subset hin)

theorem CachePath.inside {lp : Bytes} (h : CachePath lp) (hends : EndsInType lp) (root : Bytes) :
    StrictlyInside (ch '/') (ch '.') root (root ++ ch '/' :: lp) :=
  inside_of_ending h.slash h.dot hends root

section Coherent

variable [L : Layout]

structure Coherent (w : World) : Prop where
  ctrl : ∀ site m, w.siteCtrlLd site = some m → (w.rl.mgmt m).site = site
  mgmt : ∀ m, w.rl.LiveMgmt m → urlSite (w.rl.mgmt m).url = some (w.rl.mgmt m).site
  ctnt : ∀ c m, w.rl.LiveCtnt c → (w.rl.ctnt c).parent = some m →
    (w.rl.ctnt c).site = (w.rl.mgmt m).site ∧
      scResInfoGenCtntLocalPath (w.rl.ctnt c) = some (w.rl.ctnt c).localpath

variable {w w' : World} {c : CtntIdx} {m : MgmtIdx}

theorem addMgmt_site {rl : ResList} {g : Shape} (h : Rep rl g) {gen : Gen} (careType : Bool) (url : Bytes)
    (hgen : gen ≠ .content) :
    scResInfoAddMgmt gen careType rl url = (none, rl) ∨
    ∃ m l site, g.freeM = m :: l ∧ urlSite (scResCopyUrl url true) = some site ∧
      scResInfoAddMgmt gen careType rl url = (some m, mgmtAdded rl m gen careType url site) := by
  rcases addMgmt_cases h careType url hgen with heq | ⟨m, l, site, hf, heq⟩
  · exact .inl heq
  · refine .inr ⟨m, l, site, hf, ?_, heq⟩
    cases hsite : urlSite (scResCopyUrl url true) with
    | none =>
      rw [addMgmt_none h hgen (.inr (.inr (.inr hsite)))] at heq
      cases heq
    | some site' =>
      by_contra hne
      have hp : scResInfoPermitAdding url = true := by
        by_contra hp
        rw [addMgmt_none h hgen (.inl (by simpa using hp))] at heq
        cases heq
      have hlen : url.length < HTTP_URL_MAX_LEN := by
        by_contra hlen
        rw [addMgmt_none h hgen (.inr (.inl (by omega)))] at heq
        cases heq
      rw [addMgmt_some h hgen hp hlen hf hsite] at heq
      have hself := congrArg (fun r : Option MgmtIdx × ResList => (r.2.mgmt m).site) heq
      simp only [mgmtAdded_self] at hself
      exact hne (by rw [hself])

/-- A move keeps the agreement when it does so for the content records, seen against the management
records before it, and for what it adds. -/
theorem Coherent.of_move (h : Coherent w) (hg : Good w) (hm : Move w w')
    (hnew : ∀ m, w'.rl.LiveMgmt m → ¬ w.rl.LiveMgmt m → urlSite (w'.rl.mgmt m).url = some (w'.rl.mgmt m).site)
    (hctnt : ∀ c m, w'.rl.LiveCtnt c → (w'.rl.ctnt c).parent = some m → w.rl.LiveMgmt m ∧
      (w'.rl.ctnt c).site = (w.rl.mgmt m).site ∧
        scResInfoGenCtntLocalPath (w'.rl.ctnt c) = some (w'.rl.ctnt c).localpath) : Coherent w' := by
  obtain ⟨hyk, hso, -⟩ := hm.controllers
  have hinfo : ∀ {m}, w.rl.LiveMgmt m → (w'.rl.mgmt m).toResInfo = (w.rl.mgmt m).toResInfo := hm.mgmtInfo hg
  refine ⟨fun site m hs => ?_, fun m hl => ?_, fun c m hc hpar => ?_⟩
  · have hs' : w.siteCtrlLd site = some m := by
      rw [← hs]
      cases site with
      | youku => exact hyk.symm
      | sohu => exact hso.symm
      | max => rfl
    have hlive := (hg.ctrl m (w.controller_of_site hs')).1
    exact (congrArg ResInfo.site (hinfo hlive)).trans (h.ctrl site m hs')
  · by_cases hold : w.rl.LiveMgmt m
    · have hurl := congrArg ResInfo.url (hinfo hold)
      have hsite := congrArg ResInfo.site (hinfo hold)
      rw [hurl, hsite]
      exact h.mgmt m hold
    · exact hnew m hl hold
  · obtain ⟨hlive, hsite, hlp⟩ := hctnt c m hc hpar
    exact ⟨hsite.trans (congrArg ResInfo.site (hinfo hlive)).symm, hlp⟩

theorem Coherent.agrees (h : Coherent w) (hg : Good w) (hc : w.rl.LiveCtnt c) (hpar : (w.rl.ctnt c).parent = some m) :
    w.rl.LiveMgmt m ∧ (w.rl.ctnt c).site = (w.rl.mgmt m).site ∧
      scResInfoGenCtntLocalPath (w.rl.ctnt c) = some (w.rl.ctnt c).localpath := by
  obtain ⟨g, hrep⟩ := hg.rep
  obtain ⟨i, hlive, hi⟩ := hrep.parent c hc
  obtain rfl : i = m := Option.some.inj (hi.symm.trans hpar)
  exact ⟨hlive, h.ctnt c i hc hpar⟩

theorem Coherent.setFlag (h : Coherent w) (hg : Good w) {i : CtntIdx} {f : Flag → Flag}
    (hm : Move w (w.setFlag i f)) : Coherent (w.setFlag i f) := by
  refine h.of_move hg hm (fun m hl hn => absurd hl hn) (fun c m hc hpar => ?_)
  have hlive := (setFlag_live i c f).mp hc
  have hold := (setFlag_parent i c f).symm.trans hpar
  obtain ⟨hmlive, hsite, hlp⟩ := h.agrees hg hlive hold
  by_cases hci : c = i
  · subst hci
    simp only [World.setFlag, setFlag_self]
    exact ⟨hmlive, hsite, (genLocalPath_congr rfl rfl).trans hlp⟩
  · simp only [World.setFlag, setFlag_other f hci]
    exact ⟨hmlive, hsite, hlp⟩

theorem Coherent.addCtnt (h : Coherent w) (hg : Good w) {m : MgmtIdx} (hm : w.rl.LiveMgmt m) (url : Bytes)
    (delOk : Bool) : Coherent (w.addCtnt m url delOk).2 := by
  have hmove : Move w (w.addCtnt m url delOk).2 := .addCtnt w m url delOk hm
  obtain ⟨g, hrep⟩ := hg.rep
  rcases w.addCtnt_cases hrep m url delOk with ⟨-, heq⟩ | ⟨i, l, hf, -, heq⟩ | ⟨i, l, lp, -, hlp, -, heq⟩
  · rw [heq] at hmove ⊢
    exact h.of_move hg hmove (fun j hl hn => absurd hl hn) (fun c j => h.agrees hg)
  · rw [heq] at hmove ⊢
    have hdead : ¬ w.rl.LiveCtnt i := by simp [hrep.liveCtnt_iff, hf]
    refine h.of_move hg hmove (fun j hl hn => absurd hl hn) (fun c j hc hpar => ?_)
    have hlive := (setFlag_live i c fun _ => {}).mp hc
    have hci : c ≠ i := by
      rintro rfl
      exact hdead hlive
    simp only [World.logged, setFlag_other _ hci] at hpar ⊢
    exact h.agrees hg hlive hpar
  · rw [heq] at hmove ⊢
    refine h.of_move hg hmove (fun j hl hn => ?_) (fun c j hc hpar => ?_)
    · refine absurd ?_ hn
      simp only [World.logged, ResList.LiveMgmt, (ctntAdded_id_gen j).1] at hl
      exact hl
    · by_cases hci : c = i
      · subst hci
        simp only [World.logged, ctntAdded_self] at hpar ⊢
        obtain rfl : m = j := Option.some.inj hpar
        exact ⟨hm, rfl, (genLocalPath_congr rfl rfl).trans hlp⟩
      · simp only [World.logged, ctntAdded_liveCtnt hci, ctntAdded_other hci] at hc hpar ⊢
        exact h.agrees hg hc hpar

theorem Coherent.addMgmt (h : Coherent w) (hg : Good w) {gen : Gen} {url : Bytes} (hgen : gen ≠ .content)
    (hm : Move w { w with rl := (scResInfoAddMgmt gen true w.rl url).2 }) :
    Coherent { w with rl := (scResInfoAddMgmt gen true w.rl url).2 } := by
  obtain ⟨g, hrep⟩ := hg.rep
  rcases addMgmt_site hrep true url hgen with heq | ⟨i, l, site, hf, hsite, heq⟩
  · rw [heq]
    exact h
  · rw [heq] at hm ⊢
    refine h.of_move hg hm (fun j hl hn => ?_) (fun c j hc hpar => h.agrees hg hc hpar)
    by_cases hji : j = i
    · subst hji
      simp only [mgmtAdded_self]
      exact hsite
    · exact absurd ((mgmtAdded_liveMgmt hji).mp hl) hn

/-- A hand-over copies the url and the path of a loaded record of the same site. -/
theorem Coherent.handOver (h : Coherent w) (hg : Good w) {ctrlLd : MgmtIdx} {parsed : CtntIdx}
    (hctrl : w.siteCtrlLd (w.rl.ctnt parsed).site = some ctrlLd) (hlive : w.rl.LiveCtnt parsed)
    (hne : (w.rl.ctnt parsed).parent ≠ some ctrlLd)
    (hm : Move w (w.handleCached (some ctrlLd) parsed).2) : Coherent (w.handleCached (some ctrlLd) parsed).2 := by
  obtain ⟨g, hrep⟩ := hg.rep
  simp only [World.handleCached, handleCachedBy, World.logged] at hm ⊢
  rcases handleCached_handedOver hrep ctrlLd hlive with heq | ⟨ld, rl', heq, ho⟩
  · rw [heq] at hm ⊢
    exact h.of_move hg hm (fun j hl hn => absurd hl hn) (fun c j => h.agrees hg)
  rw [heq] at hm ⊢
  refine h.of_move hg hm (fun j hl hn => ?_) (fun c j hc hpar => ?_)
  · have hid : (rl'.mgmt j).id = (w.rl.mgmt j).id := by rw [ho.mgmt j]
    exact absurd (hid.symm.trans hl) hn
  · by_cases hcp : c = parsed
    · subst hcp
      have hcl : c ≠ ld := by
        rintro rfl
        exact hne ho.parent
      have hself := ho.parsed hcl
      have hold : (w.rl.ctnt c).parent = some j := (congrArg Ctnt.parent hself).symm.trans hpar
      obtain ⟨hjlive, hsite, -⟩ := h.agrees hg hlive hold
      obtain ⟨-, hldsite, hldlp⟩ := h.agrees hg ho.live ho.parent
      have hsame : (w.rl.ctnt ld).site = (w.rl.ctnt c).site := hldsite.trans (h.ctrl _ ctrlLd hctrl)
      dsimp only
      rw [hself]
      refine ⟨hjlive, hsite, Eq.trans ?_ hldlp⟩
      exact genLocalPath_congr hsame.symm rfl
    · have hsame := ho.other hc hcp
      have hcl : w.rl.LiveCtnt c := (congrArg (fun x : Ctnt => x.id) hsame).symm.trans hc
      have hold : (w.rl.ctnt c).parent = some j := (congrArg Ctnt.parent hsame).symm.trans hpar
      obtain ⟨hjlive, hsite, hlp⟩ := h.agrees hg hcl hold
      dsimp only
      rw [hsame]
      exact ⟨hjlive, hsite, (genLocalPath_congr rfl rfl).trans hlp⟩

theorem Coherent.op (h : Coherent w) (hg : Good w) (hop : Op w w') : Coherent w' := by
  have hm := hop.move
  cases hop with
  | addCtnt i url delOk hi => exact h.addCtnt hg hi url delOk
  | notify i ok hi =>
    rcases notify_cases w i ok with heq | ⟨-, -, heq⟩
    · rw [heq]
      exact h
    · rw [heq] at hm ⊢
      cases ok with
      | false => exact h.of_move hg hm (fun m hl hn => absurd hl hn) (fun c m => h.agrees hg)
      | true =>
        refine h.of_move hg hm (fun m hl hn => absurd hl hn) (fun c m hc hpar => ?_)
        have hlive := (setFlag_live i c setNotify).mp hc
        have hold := (setFlag_parent i c setNotify).symm.trans hpar
        obtain ⟨hmlive, hsite, hlp⟩ := h.agrees hg hlive hold
        by_cases hci : c = i
        · subst hci
          simp only [if_true, World.setFlag, World.logged, setFlag_self]
          exact ⟨hmlive, hsite, (genLocalPath_congr rfl rfl).trans hlp⟩
        · simp only [if_true, World.setFlag, World.logged, setFlag_other setNotify hci]
          exact ⟨hmlive, hsite, hlp⟩
  | mute _ hmute =>
    cases hmute with
    | addMgmt gen url hask => exact h.addMgmt hg hask.ne.1 hm
    | ngxDownload i ans url hi => exact h.of_move hg hm (fun m hl hn => absurd hl hn) (fun c m => h.agrees hg)
    | flag i f hi hf => exact h.setFlag hg hm
    | handOver ctrlLd parsed hctrl hlive hst hne => exact h.handOver hg hctrl hlive hne hm
    | logged e he => exact h.of_move hg hm (fun m hl hn => absurd hl hn) (fun c m => h.agrees hg)
    | finish r evs lp => exact h.of_move hg hm (fun m hl hn => absurd hl hn) (fun c m => h.agrees hg)

/-- What the client has asked Nginx for, and what Nginx is downloading. -/
structure Requested (w : World) : Prop where
  paths : ∀ url lp ret, Ev.ngxDownload url lp ret ∈ w.log → CachePath lp
  keys : ∀ key ∈ w.running, ∃ url lp ret, Ev.ngxDownload url lp ret ∈ w.log ∧ downloadKey url lp = some key

omit L in
theorem Requested.logged (h : Requested w) (hrun : ∀ key ∈ w'.running, key ∈ w.running) {l : List Ev}
    (hlog : w'.log = w.log ++ l) (hl : ∀ e ∈ l, ∀ url lp ret, e ≠ .ngxDownload url lp ret) : Requested w' := by
  refine ⟨fun url lp ret hin => ?_, fun key hkey => ?_⟩
  · rw [hlog] at hin
    rcases List.mem_append.mp hin with hin | hin
    · exact h.paths url lp ret hin
    · exact absurd rfl (hl _ hin url lp ret)
  · obtain ⟨url, lp, ret, hin, hkey⟩ := h.keys key (hrun key hkey)
    exact ⟨url, lp, ret, hlog ▸ List.mem_append_left l hin, hkey⟩

omit L in
theorem Requested.ngxDownload (h : Requested w) (ans : NgxAnswer) (url : Bytes) {lp : Bytes} (hlp : CachePath lp) :
    Requested (w.ngxDownload ans url lp).2 := by
  refine ⟨fun url' lp' ret hin => ?_, fun key hkey => ?_⟩
  · rcases List.mem_append.mp hin with hin | hin
    · exact h.paths url' lp' ret hin
    · obtain ⟨-, rfl, -⟩ := Ev.ngxDownload.inj (List.mem_singleton.mp hin)
      exact hlp
  · rcases List.mem_append.mp hkey with hkey | hkey
    · refine ⟨url, lp, _, List.mem_append_right w.log (List.mem_singleton_self _), ?_⟩
      split_ifs at hkey
      · exact Option.mem_toList.mp hkey
      · cases hkey
    · obtain ⟨url', lp', ret, hin, hkey⟩ := h.keys key hkey
      exact ⟨url', lp', ret, List.mem_append_left _ hin, hkey⟩

theorem Requested.op (h : Requested w) (hco : Coherent w) (hg : Good w) (hop : Op w w') : Requested w' := by
  cases hop with
  | addCtnt i url delOk hi =>
    obtain ⟨g, hrep⟩ := hg.rep
    rcases w.addCtnt_cases hrep i url delOk with ⟨-, heq⟩ | ⟨c, l, -, -, heq⟩ | ⟨c, l, lp, -, -, -, heq⟩
    · rw [heq]
      exact h.logged (fun _ => id) rfl (by simp)
    · rw [heq]
      exact h.logged (fun _ => id) rfl (by simp)
    · rw [heq]
      exact h.logged (fun _ => id) (List.append_assoc ..) (by simp)
  | notify i ok hi =>
    rcases notify_cases w i ok with heq | ⟨-, -, heq⟩
    · rw [heq]
      exact h
    · rw [heq]
      cases ok with
      | false => exact h.logged (fun _ => id) rfl (by simp)
      | true => exact h.logged (fun _ => id) rfl (by simp)
  | mute _ hmute =>
    cases hmute with
    | addMgmt gen url hask => exact ⟨h.paths, h.keys⟩
    | ngxDownload i ans url hi =>
      obtain ⟨g, hrep⟩ := hg.rep
      obtain ⟨m, -, hpar⟩ := hrep.parent i hi
      exact h.ngxDownload ans url (genLocalPath_cachePath (hco.agrees hg hi hpar).2.2)
    | flag i f hi hf => exact ⟨h.paths, h.keys⟩
    | handOver ctrlLd parsed hctrl hlive hst hne => exact h.logged (fun _ => id) rfl (by simp)
    | logged e he =>
      refine h.logged (fun _ => id) rfl fun e' he' => ?_
      rintro url lp ret rfl
      rw [← List.mem_singleton.mp he'] at he
      exact he
    | finish r evs lp => exact h.logged (fun _ => List.mem_of_mem_erase) rfl (by simp)

def SitesAgree (rl : ResList) : Prop :=
  ∀ m, rl.LiveMgmt m → urlSite (rl.mgmt m).url = some (rl.mgmt m).site

theorem addCtrlLd_sites {rl : ResList} (hpool : PoolReachable rl) (h : SitesAgree rl) {url : Bytes} {site : Site}
    (hsite : urlSite (scResCopyUrl url true) = some site) :
    SitesAgree (scResInfoAddCtrlLd rl url).2 ∧
      ∀ m, (scResInfoAddCtrlLd rl url).1 = some m → ((scResInfoAddCtrlLd rl url).2.mgmt m).site = site := by
  obtain ⟨g, hrep⟩ := reachable_rep hpool
  unfold scResInfoAddCtrlLd
  rcases addMgmt_site hrep false url (by decide : Gen.ctrlLd ≠ .content) with heq | ⟨i, l, s, -, hs, heq⟩
  · rw [heq]
    exact ⟨h, fun m hm => by cases hm⟩
  · rw [heq]
    obtain rfl : site = s := Option.some.inj (hsite.symm.trans hs)
    refine ⟨fun m hm => ?_, fun m hm => ?_⟩
    · by_cases hmi : m = i
      · subst hmi
        simp only [mgmtAdded_self]
        exact hs
      · rw [mgmtAdded_other hmi]
        exact h m ((mgmtAdded_liveMgmt hmi).mp hm)
    · obtain rfl : i = m := Option.some.inj hm
      simp only [mgmtAdded_self]

theorem init_sites : SitesAgree scResListAllocAndInit := by
  intro m hm
  exact absurd ((FreeList.mem_below _ m).mpr m.isLt) ((init_rep.liveMgmt_iff m).mp hm)

theorem ldInit_coherent : Coherent scLdInit := by
  have hblank := ldInit_blank
  have hyk : urlSite (scResCopyUrl YOUKU_WEBSITE_URL true) = some .youku := by decide +kernel
  have hso : urlSite (scResCopyUrl SOHU_WEBSITE_URL true) = some .sohu := by decide +kernel
  have hctnt : ∀ c m, scLdInit.rl.LiveCtnt c → (scLdInit.rl.ctnt c).parent = some m →
      (scLdInit.rl.ctnt c).site = (scLdInit.rl.mgmt m).site ∧
        scResInfoGenCtntLocalPath (scLdInit.rl.ctnt c) = some (scLdInit.rl.ctnt c).localpath :=
    fun c _ hc => absurd hc (hblank.ctnt c).1
  suffices h : (∀ site m, scLdInit.siteCtrlLd site = some m → (scLdInit.rl.mgmt m).site = site) ∧
      SitesAgree scLdInit.rl from
    ⟨h.1, h.2, hctnt⟩
  clear hctnt hblank
  obtain ⟨hs₁, hnew₁⟩ := addCtrlLd_sites .refl init_sites hyk
  have hpool₁ : PoolReachable (scResInfoAddCtrlLd scResListAllocAndInit YOUKU_WEBSITE_URL).2 :=
    .single (.addCtrlLd _ _)
  unfold scLdInit
  split
  next rl heq =>
    rw [heq] at hs₁
    refine ⟨fun site m hs => ?_, hs₁⟩
    cases site <;> cases hs
  next youku rl heq =>
    rw [heq] at hs₁ hnew₁ hpool₁
    obtain ⟨hs₂, hnew₂⟩ := addCtrlLd_sites hpool₁ hs₁ hso
    obtain ⟨g, hrep⟩ := reachable_rep hpool₁
    have hlive : rl.LiveMgmt youku := by
      have hspec := addMgmt_spec init_rep false YOUKU_WEBSITE_URL (by decide : Gen.ctrlLd ≠ .content)
      have hnew := hspec.2.2 youku (congrArg Prod.fst heq)
      rw [show (scResInfoAddMgmt .ctrlLd false scResListAllocAndInit YOUKU_WEBSITE_URL).2 = rl from
        congrArg Prod.snd heq] at hnew
      exact hnew.1
    have hkept : (scResInfoAddCtrlLd rl SOHU_WEBSITE_URL).2.mgmt youku = rl.mgmt youku :=
      (addMgmt_spec hrep false SOHU_WEBSITE_URL (by decide : Gen.ctrlLd ≠ .content)).2.1 youku hlive
    have hyouku : ((scResInfoAddCtrlLd rl SOHU_WEBSITE_URL).2.mgmt youku).site = .youku := by
      rw [hkept]
      exact hnew₁ youku rfl
    split
    next rl₂ heq₂ =>
      rw [heq₂] at hs₂ hyouku
      refine ⟨fun site m hs => ?_, hs₂⟩
      cases site with
      | youku =>
        obtain rfl : youku = m := Option.some.inj hs
        exact hyouku
      | sohu => cases hs
      | max => cases hs
    next sohu rl₂ heq₂ =>
      rw [heq₂] at hs₂ hnew₂ hyouku
      refine ⟨fun site m hs => ?_, hs₂⟩
      cases site with
      | youku =>
        obtain rfl : youku = m := Option.some.inj hs
        exact hyouku
      | sohu =>
        obtain rfl : sohu = m := Option.some.inj hs
        exact hnew₂ sohu rfl
      | max => cases hs

theorem ServesTo.coherent (hg : Good w) (h : Coherent w ∧ Requested w) (hs : ServesTo w w') :
    Coherent w' ∧ Requested w' :=
  Ops.keeps (R := fun _ w₁ => Coherent w₁ ∧ Requested w₁) hg h
    (fun _ _ hg₁ h₁ hop => ⟨h₁.1.op hg₁ hop, h₁.2.op h₁.1 hg₁ hop⟩) (hs.ops hg)

theorem ldInit_requested : Requested scLdInit := by
  constructor
  · intro url lp ret hin
    rw [ldInit_blank.log] at hin
    cases hin
  · intro key hkey
    rw [ldInit_blank.running] at hkey
    cases hkey

theorem Served.coherent (h : Served w) : Coherent w ∧ Requested w :=
  ServesTo.coherent ldInit_blank.sound.toGood ⟨ldInit_coherent, ldInit_requested⟩ h

end Coherent

/-- The url of a request that Nginx is asked with has no `localpath=`. -/
def Ev.plainUrl : Ev → Bool
  | .ngxDownload url _ _ => !decide (bytes "localpath=" <:+: url)
  | _ => true

end HotCache
