import HotCache.Proofs.Run

/-! The steps of the running program in terms of operations. An operation is a move with the
circumstances in which the program makes it: a hand-over goes from the controller of the record's own
site to a record that is not stored, and Nginx is asked for the local path of a live record. What holds
of every operation is derived from this list. -/

namespace HotCache

open CStr Linked FreeList

/-- The controller that `sc_yk_handle_cached` or `sc_sohu_handle_cached` looks up. -/
def World.siteCtrlLd (w : World) : Site → Option MgmtIdx
  | .youku => w.youkuCtrlLd
  | .sohu => w.sohuCtrlLd
  | .max => none

section Ops

variable [L : Layout]

/-- The operations that make no call to the Snooping module. -/
inductive MuteOp : World → World → Prop
  | addMgmt (w : World) (gen : Gen) (url : Bytes) (h : Asked w url gen) :
      MuteOp w { w with rl := (scResInfoAddMgmt gen true w.rl url).2 }
  | ngxDownload (w : World) (c : CtntIdx) (ans : NgxAnswer) (url : Bytes) (hc : w.rl.LiveCtnt c) :
      MuteOp w (w.ngxDownload ans url (w.rl.ctnt c).localpath).2
  | flag (w : World) (c : CtntIdx) (f : Flag → Flag) (hc : w.rl.LiveCtnt c)
      (hf : ∀ x, (x.stored = true → (f x).stored = true) ∧ (f x).notify = x.notify) : MuteOp w (w.setFlag c f)
  | handOver (w : World) (ctrlLd : MgmtIdx) (parsed : CtntIdx)
      (hctrl : w.siteCtrlLd (w.rl.ctnt parsed).site = some ctrlLd) (hlive : w.rl.LiveCtnt parsed)
      (hst : (w.rl.ctnt parsed).flag.stored = false) (hne : (w.rl.ctnt parsed).parent ≠ some ctrlLd) :
      MuteOp w (w.handleCached (some ctrlLd) parsed).2
  | logged (w : World) (e : Ev) (he : e.Noted w) : MuteOp w (w.logged e)
  | finish (w : World) (r : Request) (evs : List PipeEvent) (lp : Bytes) :
      MuteOp w (World.logged { w with running := w.running.erase lp } (.finish r evs w.running lp))

inductive Op : World → World → Prop
  | mute (w w' : World) (h : MuteOp w w') : Op w w'
  | addCtnt (w : World) (m : MgmtIdx) (url : Bytes) (delOk : Bool) (hm : w.rl.LiveMgmt m) :
      Op w (w.addCtnt m url delOk).2
  | notify (w : World) (c : CtntIdx) (ok : Bool) (hc : w.rl.LiveCtnt c) : Op w (scResNotifyRiUrl w c ok).2

def Ops : World → World → Prop := Relation.ReflTransGen Op

variable {w w' w'' : World} {c : CtntIdx} {m : MgmtIdx}

omit L in
theorem World.controller_of_site {site : Site} (h : w.siteCtrlLd site = some m) : w.Controller m := by
  cases site with
  | youku => exact .inl h
  | sohu => exact .inr h
  | max => cases h

theorem MuteOp.move (h : MuteOp w w') : Move w w' := by
  cases h with
  | addMgmt gen url hask => exact .addMgmt w gen url hask
  | ngxDownload c ans url hc => exact .ngxDownload w ans url _
  | flag c f hc hf => exact .flag w c f hc hf
  | handOver ctrlLd parsed hctrl hlive hst hne =>
    exact .handleCached w ctrlLd parsed (w.controller_of_site hctrl) hlive hne
  | logged e he => exact .logged w e he
  | finish r evs lp => exact .finish w r evs lp

theorem Op.move (h : Op w w') : Move w w' := by
  cases h with
  | mute _ hm => exact hm.move
  | addCtnt m url delOk hm => exact .addCtnt w m url delOk hm
  | notify c ok hc => exact .notify w c ok hc

theorem MuteOp.ops (h : MuteOp w w') : Ops w w' := .single (.mute w w' h)

theorem Ops.moves (h : Ops w w') : Moves w w' := Relation.ReflTransGen.mono (fun _ _ => Op.move) _ _ h

theorem Ops.trans (h₁ : Ops w w') (h₂ : Ops w' w'') : Ops w w'' := Relation.ReflTransGen.trans h₁ h₂

theorem Ops.good (h : Good w) (ho : Ops w w') : Good w' := h.moves ho.moves

/-- What every operation keeps from one state to the next, runs of operations keep. -/
theorem Ops.keeps {R : World → World → Prop} (h : Good w) (hrefl : R w w)
    (hstep : ∀ w₁ w₂, Good w₁ → R w w₁ → Op w₁ w₂ → R w w₂) (ho : Ops w w') : R w w' := by
  induction ho with
  | refl => exact hrefl
  | tail hpre hop ih => exact hstep _ _ (Ops.good h hpre) ih hop

/-- The common part of a management record in use never changes. -/
theorem Move.mgmtInfo (h : Good w) (hm : Move w w') (hl : w.rl.LiveMgmt m) :
    (w'.rl.mgmt m).toResInfo = (w.rl.mgmt m).toResInfo := by
  obtain ⟨g, hg⟩ := h.rep
  cases hm with
  | addMgmt gen url hask =>
    have hold := (addMgmt_spec hg true url hask.ne.1).2.1 m hl
    exact congrArg Mgmt.toResInfo hold
  | addCtnt i url delOk hi =>
    rcases w.addCtnt_cases hg i url delOk with ⟨-, heq⟩ | ⟨c, l, -, -, heq⟩ | ⟨c, l, lp, -, -, -, heq⟩
    · rw [heq]
      rfl
    · rw [heq]
      rfl
    · rw [heq]
      obtain ⟨child, childCnt, hmgmt⟩ := ctntAdded_mgmt w.rl i c url lp m
      simp only [World.logged, hmgmt]
  | ngxDownload ans url lp => rfl
  | flag c f hc hf => rfl
  | notify c ok hc =>
    rcases notify_cases w c ok with heq | ⟨-, -, heq⟩
    · rw [heq]
    · rw [heq]
      cases ok
      · rfl
      · rfl
  | handleCached ctrlLd parsed hctrl hlive hne =>
    simp only [World.handleCached, handleCachedBy, World.logged]
    rcases handleCached_handedOver hg ctrlLd hlive with heq | ⟨ld, rl', heq, ho⟩
    · rw [heq]
    · rw [heq]
      simp only
      rw [ho.mgmt m]
  | logged e he => rfl
  | finish r evs lp => rfl

theorem Moves.mgmtInfo (h : Good w) (hm : Moves w w') (hl : w.rl.LiveMgmt m) :
    (w'.rl.mgmt m).toResInfo = (w.rl.mgmt m).toResInfo := by
  induction hm with
  | refl => rfl
  | tail hpre hmove ih => exact (hmove.mgmtInfo (h.moves hpre) (Moves.liveMgmt h hpre hl).1).trans ih

end Ops

section Downloads

variable [L : Layout] {w w' : World} {c : CtntIdx} {m : MgmtIdx}

/-- A record whose download is attempted while it is not stored. -/
structure Pending (w : World) (c : CtntIdx) : Prop extends Target w c where
  unstored : (w.rl.ctnt c).flag.stored = false

theorem orIFail_ops {r : HcResult × World} (h : Ops w r.2) (hc : r.2.rl.LiveCtnt c) : Ops w (orIFail c r).2 := by
  unfold orIFail
  split_ifs
  · exact h.trans (MuteOp.flag r.2 c setIFail hc setIFail_keeps).ops
  · exact h

theorem handleCached_ops (hp : Pending w c) {ctrlLd : Option MgmtIdx}
    (hctrl : ctrlLd = w.siteCtrlLd (w.rl.ctnt c).site) : Ops w (w.handleCached ctrlLd c).2 := by
  cases ctrlLd with
  | none => exact (MuteOp.logged w (.handleCached w.rl none c) trivial).ops
  | some m =>
    have hm : w.Controller m := w.controller_of_site hctrl.symm
    exact (MuteOp.handOver w m c hctrl.symm hp.live hp.unstored (hp.parent m hm)).ops

theorem ngxDownload_ops (hc : w.rl.LiveCtnt c) (ans : NgxAnswer) (url : Bytes) :
    Ops w (orIFail c (w.ngxDownload ans url (w.rl.ctnt c).localpath)).2 :=
  orIFail_ops (MuteOp.ngxDownload w c ans url hc).ops hc

theorem Pending.started (hp : Pending w c) (ans : NgxAnswer) (url lp : Bytes) :
    Pending (w.ngxDownload ans url lp).2 c where
  toTarget := hp.toTarget.touched (touches_ngxDownload hp.live ans url lp)
  unstored := hp.unstored

theorem youkuDownload_ops (h : Good w) (hp : Pending w c) (hsite : (w.rl.ctnt c).site = .youku) (ans : Answer) :
    Ops w (scYoukuDownload w c ans).2 := by
  have hn := (MuteOp.ngxDownload w c ans.ngx (w.rl.ctnt c).url hp.live).ops
  have hp' := hp.started ans.ngx (w.rl.ctnt c).url (w.rl.ctnt c).localpath
  unfold scYoukuDownload
  dsimp only
  split_ifs
  · have hctrl : w.youkuCtrlLd = w.siteCtrlLd (w.rl.ctnt c).site := by rw [hsite]; rfl
    have htouched := (handleCached_spec (hn.good h) hp'.toTarget (.inl rfl)).1
    exact orIFail_ops (hn.trans (handleCached_ops hp' hctrl)) htouched.live
  · exact orIFail_ops hn hp'.live

theorem sohuStage_ops (h : Good w) (hp : Pending w c) (hsite : (w.rl.ctnt c).site = .sohu) (session : Option Bytes) :
    Ops w (sohuStage w c session).world ∧ (sohuStage w c session).world.rl.LiveCtnt c := by
  have hctrl : w.sohuCtrlLd = w.siteCtrlLd (w.rl.ctnt c).site := by rw [hsite]; rfl
  rcases sohuStage_world w c session with heq | heq
  · rw [heq]
    exact ⟨.refl, hp.live⟩
  · rw [heq]
    exact ⟨handleCached_ops hp hctrl, (handleCached_spec h hp.toTarget (.inr rfl)).1.live⟩

theorem sohuDownload_ops (h : Good w) (hp : Pending w c) (hsite : (w.rl.ctnt c).site = .sohu) (ans : Answer) :
    Ops w (scSohuDownload w c ans).2 := by
  have hlog : Ops w (w.sohuCalled c ans.session) := (MuteOp.logged w (.sohuDownload ..) trivial).ops
  have hp' : Pending (w.sohuCalled c ans.session) c :=
    ⟨hp.toTarget.touched (touches_sohuCalled hp.live ans.session), hp.unstored⟩
  obtain ⟨hstage, hlive⟩ := sohuStage_ops (hlog.good h) hp' hsite ans.session
  rw [scSohuDownload_eq]
  cases hst : sohuStage (w.sohuCalled c ans.session) c ans.session with
  | exit w' =>
    rw [hst] at hstage
    exact hlog.trans hstage
  | cached w' =>
    rw [hst] at hstage
    exact hlog.trans hstage
  | download w' realUrl =>
    rw [hst] at hstage hlive
    exact hlog.trans (hstage.trans (ngxDownload_ops hlive ans.ngx realUrl))

theorem retryDownload_ops (h : Good w) (hp : Pending w c) (ans : Answer) :
    Ops w (scResRetryDownload w c ans).2 := by
  unfold scResRetryDownload
  dsimp only
  split_ifs
  · exact .refl
  · split
    next hsite => exact sohuDownload_ops h hp hsite ans
    next hsite => exact youkuDownload_ops h hp hsite ans
    next => exact ngxDownload_ops hp.live ans.ngx _

theorem addCtntUrl_ops (hc : w.rl.LiveCtnt c) (ok : Bool) : Ops w (scResAddCtntUrl w c ok).2 := by
  have hn : Ops w (scResNotifyRiUrl w c ok).2 := .single (.notify w c ok hc)
  unfold scResAddCtntUrl scYkAddCtntUrl
  split_ifs
  · exact .refl
  · exact hn
  · exact hn

theorem processCtnt_ops (h : Good w) (c : CtntIdx) (ans : Answer) : Ops w (processCtnt w c ans).2 := by
  unfold processCtnt
  by_cases hurl : (w.rl.ctnt c).url = []
  · simp only [hurl, if_true]
    exact .refl
  have hlive := h.live_of_url hurl
  simp only [hurl, if_false]
  cases hst : (w.rl.ctnt c).flag.stored with
  | false =>
    have hp : Pending w c := ⟨h.target_of_unstored hlive hst, hst⟩
    simp only [Bool.not_false, if_true]
    split_ifs
    · have hops := retryDownload_ops h hp ans
      have hlive' := (retryDownload_handled h hp.toTarget ans).touches.live
      generalize scResRetryDownload w c ans = r at hops hlive'
      obtain ⟨ret, w'⟩ := r
      cases ret with
      | success => exact hops.trans (MuteOp.flag w' c unsetIFail hlive' unsetIFail_keeps).ops
      | _ => exact hops
    · have hclear : Ops w (w.setFlag c unsetDFail) := (MuteOp.flag w c unsetDFail hlive unsetDFail_keeps).ops
      have hp' : Pending (w.setFlag c unsetDFail) c := by
        refine ⟨hp.toTarget.touched (touches_setFlag hlive unsetDFail_keeps), ?_⟩
        simp only [World.setFlag, setFlag_self, unsetDFail, hst]
      have hops := hclear.trans (retryDownload_ops (hclear.good h) hp' ans)
      generalize scResRetryDownload (w.setFlag c unsetDFail) c ans = r at hops
      obtain ⟨ret, w'⟩ := r
      cases ret with
      | _ => exact hops
    · exact .refl
  | true =>
    simp only [Bool.not_true, Bool.false_eq_true, if_false]
    split_ifs
    · have hops := addCtntUrl_ops hlive ans.snooping
      generalize scResAddCtntUrl w c ans.snooping = r at hops
      obtain ⟨ok, w'⟩ := r
      cases ok with
      | _ => exact hops
    · exact .refl

/-- What a pass keeps is made of operations. -/
theorem processCtnt_keeps_ops (w₀ : World) : ∀ w₁ c a, Good w₁ ∧ Ops w₀ w₁ →
    Good (processCtnt w₁ c a).2 ∧ Ops w₀ (processCtnt w₁ c a).2 := by
  intro w₁ c a hw
  have hops := processCtnt_ops hw.1 c a
  exact ⟨hops.good hw.1, hw.2.trans hops⟩

theorem processCtntLoop_ops {ans : ℕ → CtntIdx → Answer} {fuel : ℕ} {p p' : Pass} {curr : Option CtntIdx}
    (h : Good p.w) (hrun : processCtntLoop ans fuel p curr = some p') : Ops p.w p'.w :=
  (processCtntLoop_keeps (I := fun w₁ => Good w₁ ∧ Ops p.w w₁) (processCtnt_keeps_ops p.w) ⟨h, .refl⟩ hrun).2

theorem processMgmt_ops {ans : ℕ → CtntIdx → Answer} {fuel : ℕ} {p p' : Pass} (h : Good p.w)
    (hrun : scResListProcessMgmt ans fuel p = some p') : Ops p.w p'.w :=
  (processMgmt_keeps (I := fun w₁ => Good w₁ ∧ Ops p.w w₁) (processCtnt_keeps_ops p.w) ⟨h, .refl⟩ hrun).2

end Downloads

section Requests

variable [L : Layout] {w w₁ : World} {c : CtntIdx} {m : MgmtIdx} {url : Bytes} {delOk : Bool} {site : Site}

/-- A record of the given site whose children are downloaded. -/
structure Source (w : World) (m : MgmtIdx) (site : Site) : Prop extends Origin w m where
  site : (w.rl.mgmt m).site = site

theorem Source.kept (hs : Source w m site) (h : Good w) (ho : Ops w w₁) : Source w₁ m site where
  toOrigin := hs.toOrigin.moved h ho.moves
  site := (congrArg ResInfo.site (Moves.mgmtInfo h ho.moves hs.live)).trans hs.site

theorem addCtnt_ops {o : Option CtntIdx} (hm : w.rl.LiveMgmt m) (heq : w.addCtnt m url delOk = (o, w₁)) : Ops w w₁ := by
  have hop : Op w (w.addCtnt m url delOk).2 := .addCtnt w m url delOk hm
  rw [heq] at hop
  exact .single hop

/-- A record that has just been added below `m` is pending, and of the site of `m`. -/
theorem addCtnt_pending (h : Good w) (hs : Source w m site) (heq : w.addCtnt m url delOk = (some c, w₁)) :
    Pending w₁ c ∧ (w₁.rl.ctnt c).site = site := by
  obtain ⟨-, -, -, ht⟩ := segment_target h hs.toOrigin heq
  obtain ⟨g, hg⟩ := h.rep
  rcases w.addCtnt_cases hg m url delOk with ⟨-, hadd⟩ | ⟨i, l, -, -, hadd⟩ | ⟨i, l, lp, -, -, -, hadd⟩
  · rw [hadd] at heq
    cases heq
  · rw [hadd] at heq
    cases heq
  · rw [hadd] at heq
    obtain ⟨hc, rfl⟩ := Prod.mk.inj heq
    obtain rfl : i = c := Option.some.inj hc
    refine ⟨⟨ht, ?_⟩, ?_⟩
    · simp only [World.logged, ctntAdded_self, newCtnt, decide_eq_false_iff_not]
      exact hs.gen
    · simp only [World.logged, ctntAdded_self, newCtnt]
      exact hs.site

theorem added_ops {w₂ : World} (h : Good w) (hs : Source w m site)
    (heq : w.addCtnt m url delOk = (some c, w₁))
    (hdl : Good w₁ → Pending w₁ c → (w₁.rl.ctnt c).site = site → Ops w₁ w₂) : Ops w w₂ := by
  have hadd := addCtnt_ops hs.live heq
  obtain ⟨hp, hsite⟩ := addCtnt_pending h hs heq
  exact hadd.trans (hdl (hadd.good h) hp hsite)

theorem ykSegLoop_ops (ans : ℕ → Answer) (segs : List YkSeg) (j : ℕ) (h : Good w) (hs : Source w m .youku) :
    Ops w (ykSegLoop m ans j w segs) := by
  induction segs generalizing j w with
  | nil => exact .refl
  | cons seg segs ih =>
    cases seg with
    | skip => exact ih (j + 1) h hs
    | stop => exact .refl
    | url realUrl =>
      rw [ykSegLoop]
      split
      next w₁ heq =>
        have hadd := addCtnt_ops hs.live heq
        exact hadd.trans (ih (j + 1) (hadd.good h) (hs.kept h hadd))
      next parsed w₁ heq =>
        have hseg := added_ops h hs heq fun hg hp hsite => youkuDownload_ops hg hp hsite (ans j)
        exact hseg.trans (ih (j + 1) (hseg.good h) (hs.kept h hseg))

theorem sohuFileLoop_ops (ans : ℕ → Answer) (urls : List Bytes) (j : ℕ) (h : Good w) (hs : Source w m .sohu) :
    Ops w (sohuFileLoop m ans j w urls) := by
  induction urls generalizing j w with
  | nil => exact .refl
  | cons url urls ih =>
    rw [sohuFileLoop]
    split
    next w₁ heq =>
      have hadd := addCtnt_ops hs.live heq
      exact hadd.trans (ih (j + 1) (hadd.good h) (hs.kept h hadd))
    next parsed w₁ heq =>
      have hseg := added_ops h hs heq fun hg hp hsite => sohuDownload_ops hg hp hsite (ans j)
      exact hseg.trans (ih (j + 1) (hseg.good h) (hs.kept h hseg))

theorem addMgmt_ops {gen : Gen} {rl : ResList} {o : Option MgmtIdx} (h : Good w)
    (hask : Asked w url gen) (heq : scResInfoAddMgmt gen true w.rl url = (o, rl)) :
    Ops w { w with rl := rl } ∧ ∀ m, o = some m → Source { w with rl := rl } m (rl.mgmt m).site := by
  have hop : Ops w { w with rl := (scResInfoAddMgmt gen true w.rl url).2 } := (MuteOp.addMgmt w gen url hask).ops
  obtain ⟨g, hg⟩ := h.rep
  obtain ⟨-, -, hnew⟩ := addMgmt_spec hg true url hask.ne.1
  rw [heq] at hop hnew
  refine ⟨hop, fun m hm => ⟨⟨(hnew m hm).1, ?_⟩, rfl⟩⟩
  simp only
  rw [(hnew m hm).2]
  exact hask.ne.2

theorem doDown_ops (h : Good w) (url : Bytes) (ans : Answer) : Ops w (scSnoopingDoDown w url ans).2 := by
  unfold scSnoopingDoDown
  split
  · exact .refl
  next hnew =>
  have hlog : Ops w (w.logged (.addNormal w.rl url)) := (MuteOp.logged w (.addNormal w.rl url) rfl).ops
  dsimp only
  cases heq : scResInfoAddNormal (w.logged (.addNormal w.rl url)).rl url with
  | mk o rl =>
    obtain ⟨hadd, hsrc⟩ := addMgmt_ops (hlog.good h) (.normal hnew (by simp [World.logged])) heq
    have hops := hlog.trans hadd
    cases o with
    | none => exact hops
    | some normal =>
      dsimp only
      split
      next w₂ heq₂ => exact hops.trans (addCtnt_ops (hsrc normal rfl).live heq₂)
      next c w₂ heq₂ =>
        exact hops.trans (added_ops (hops.good h) (hsrc normal rfl) heq₂ fun _ hp _ =>
          ngxDownload_ops hp.live ans.ngx _)

theorem ykVideo_ops (ans : ParseAnswer) (h : Good w) (hs : Source w m .youku) : Ops w (scGetYkVideo w m ans) := by
  unfold scGetYkVideo
  split_ifs
  · exact .refl
  · split
    · exact .refl
    · exact ykSegLoop_ops _ _ 0 h hs

theorem sohuVideo_ops (ans : ParseAnswer) (h : Good w) (hs : Source w m .sohu) : Ops w (scGetSohuVideo w m ans) := by
  unfold scGetSohuVideo
  dsimp only
  split_ifs
  · exact .refl
  · split
    · exact .refl
    · split_ifs
      · exact .refl
      · exact sohuFileLoop_ops _ _ 0 h hs

theorem doParse_ops (h : Good w) (reqUrl : Bytes) (ans : ParseAnswer) : Ops w (scSnoopingDoParse w reqUrl ans).2 := by
  unfold scSnoopingDoParse
  split
  · exact .refl
  next originUrl hurl =>
  split
  · exact .refl
  next hnew =>
  cases heq : scResInfoAddOrigin w.rl originUrl with
  | mk o rl =>
    obtain ⟨hops, hsrc⟩ := addMgmt_ops h (.origin hnew (genOriginUrl_copy hurl)) heq
    cases o with
    | none => exact hops
    | some origin =>
      have hs := hsrc origin rfl
      dsimp only
      split
      next hsite =>
        rw [hsite] at hs
        exact hops.trans (ykVideo_ops ans (hops.good h) hs)
      next hsite =>
        rw [hsite] at hs
        exact hops.trans (sohuVideo_ops ans (hops.good h) hs)
      · exact hops

theorem ldAddFile_ops (h : Good w) {ctrlLd : Option MgmtIdx}
    (hctrl : ctrlLd = w.youkuCtrlLd ∨ ctrlLd = w.sohuCtrlLd) (fpath : Bytes) (del : Bool) :
    Ops w (ldAddFile w ctrlLd fpath del) := by
  unfold ldAddFile
  by_cases hdup : scLdIsDuplicateFile w.rl ctrlLd fpath = true
  · rw [if_pos hdup]
    exact .refl
  · rw [if_neg hdup]
    dsimp only
    generalize (if startsWith fpath SC_NGX_ROOT_PATH then fpath.drop SC_NGX_ROOT_PATH_LEN else fpath) = localPath
    cases scResRecoverUrlFromLocalPath localPath with
    | none => exact .refl
    | some url =>
      cases ctrlLd with
      | none => exact .refl
      | some m => exact .single (.addCtnt w m url del (h.ctrl m (hctrl.imp Eq.symm Eq.symm)).1)

theorem fileProcess_ops (h : Good w) (fpath : Bytes) (ans : LoadAnswer) : Ops w (scLdFileProcess w fpath ans) := by
  unfold scLdFileProcess
  by_cases hyk : scYkIsLocalPath fpath = true
  · rw [if_pos hyk]
    exact ldAddFile_ops h (.inl rfl) fpath ans.del
  rw [if_neg hyk]
  by_cases hvid : scYkIsLocalPathPureVid fpath = true
  · rw [if_pos hvid]
    split
    · exact .refl
    · by_cases hren : ans.rename = true
      · rw [if_neg (by simp [hren])]
        exact ldAddFile_ops h (.inl rfl) _ ans.del
      · rw [if_pos (by simp [hren])]
        exact .refl
  rw [if_neg hvid]
  split_ifs
  · exact ldAddFile_ops h (.inr rfl) fpath ans.del
  · exact .refl

theorem markLocalpath_ops (h : Good w) {lp : Bytes} (hlp : lp ≠ []) {set : Flag → Flag} (hset : Adds set) :
    Ops w { w with rl := markLocalpath set w.rl lp } := by
  unfold markLocalpath
  split
  next c hscan => exact (MuteOp.flag w c set (scan_live h hlp hscan) fun x => ⟨hset.stored x, hset.notify x⟩).ops
  · exact .refl

theorem finish_ops {ans : StoreAnswer} {r : Request} {lp : Bytes} {evs : List PipeEvent} (h : Good w)
    (hr : Receiving r lp) (hrl : r.rl = w.rl) (hlp : lp ∈ w.running)
    (hfin : (runUpstream ans r evs).connected = false) :
    Ops w (World.logged { w with rl := (runUpstream ans r evs).rl, running := w.running.erase lp }
      (.finish r evs w.running lp)) := by
  have hne := endsInType_ne_nil (h.keys lp hlp)
  have hmark : Ops w { w with rl := (runUpstream ans r evs).rl } := by
    rw [(run_finished ans hr evs hfin).rl, hrl]
    split_ifs
    · exact markLocalpath_ops h hne setStored_adds
    · exact markLocalpath_ops h hne setDFail_adds
    · exact .refl
  exact hmark.trans (MuteOp.finish _ r evs lp).ops

theorem OwnStep.ops (h : Good w) (hs : OwnStep w w₁) : Ops w w₁ := by
  cases hs with
  | processFunc ans fuel p hrun => exact processMgmt_ops h hrun
  | load fpath ans => exact fileProcess_ops h fpath ans
  | finish ans r evs lp hr hrl hlp hfin => exact finish_ops h hr hrl hlp hfin

/-- Every step of the program is made of operations. -/
theorem ServeStep.ops (h : Good w) (hs : ServeStep w w₁) : Ops w w₁ := by
  cases hs with
  | request hreq =>
    cases hreq with
    | parse reqUrl ans => exact doParse_ops h reqUrl ans
    | down url ans => exact doDown_ops h url ans
  | own hown => exact hown.ops h

/-- Every step of the system is made of moves. -/
theorem Step.moves (h : Good w) (hs : Step w w₁) : Moves w w₁ := by
  cases hs with
  | serve _ hserve => exact (hserve.ops h).moves
  | processCtnt ans fuel mgmt p hm hrun => exact (processCtntLoop_ops h hrun).moves
  | handleCached ctrlLd parsed hctrl hlive hne => exact .single (.handleCached w ctrlLd parsed hctrl hlive hne)

theorem Reachable.moves (h : Reachable w) : Moves scLdInit w := by
  induction h with
  | refl => exact .refl
  | tail hpre hstep ih => exact Relation.ReflTransGen.trans ih (hstep.moves (Reachable.sound hpre).toGood)

theorem ServesTo.ops (h : Good w) (hs : ServesTo w w₁) : Ops w w₁ := by
  induction hs with
  | refl => exact .refl
  | tail _ hstep ih => exact ih.trans (hstep.ops (ih.good h))

theorem Served.reachable (h : Served w) : Reachable w :=
  Relation.ReflTransGen.mono (fun w w' => Step.serve w w') _ _ h

theorem Served.good (h : Served w) : Good w := h.reachable.sound.toGood

theorem Served.servesTo (h : Served w) (hs : ServesTo w w₁) : Served w₁ := Relation.ReflTransGen.trans h hs

end Requests

end HotCache
