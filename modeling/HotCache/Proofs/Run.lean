import HotCache.Proofs.Client
import HotCache.Proofs.Datagram
import HotCache.Spec.Service

/-! Runs of the system. A record that is not stored must carry a failure flag or have its download
running; the steps keep this as long as the log holds only safe entries. -/

namespace HotCache

open CStr FreeList

/-- The record is stored, or the process pass will retry it, or Nginx is downloading its file. -/
def Tracked (w : World) (c : CtntIdx) : Prop :=
  (w.rl.ctnt c).flag.stored = true ∨ (w.rl.ctnt c).flag.iFail = true ∨ (w.rl.ctnt c).flag.dFail = true ∨
    (w.rl.ctnt c).localpath ∈ w.running

def Covered (w : World) : Prop := ∀ c, w.rl.LiveCtnt c → Tracked w c

theorem Tracked.congr {w w' : World} {c : CtntIdx} (h : Tracked w c)
    (hflag : (w'.rl.ctnt c).flag = (w.rl.ctnt c).flag)
    (hlp : (w'.rl.ctnt c).localpath = (w.rl.ctnt c).localpath)
    (hrun : w.running ⊆ w'.running) : Tracked w' c := by
  unfold Tracked at h ⊢
  rw [hflag, hlp]
  rcases h with h | h | h | h
  · exact .inl h
  · exact .inr (.inl h)
  · exact .inr (.inr (.inl h))
  · exact .inr (.inr (.inr (hrun h)))

section Safe

variable [L : Layout]

structure Sound (w : World) : Prop extends Good w where
  covered : LogSafe w → Covered w

variable {w w' : World} {c : CtntIdx}

/-- A function that touches one record keeps the system sound if it leaves that record tracked. -/
theorem Sound.kept (h : Sound w) (hk : OthersKept w w' c)
    (hc : LogSafe w' → w'.rl.LiveCtnt c → Tracked w' c) : Sound w' where
  toGood := h.toGood.moves hk.moves
  covered := fun hsafe i hi => by
    by_cases hic : i = c
    · subst hic
      exact hc hsafe hi
    · obtain ⟨hlive, hflag, hlp⟩ := hk.other i hic hi
      exact (h.covered (hsafe.of_moves hk.moves) i hlive).congr hflag hlp hk.running

theorem Sound.sameCtnt (h : Sound w) (hm : Moves w w') (hctnt : w'.rl.ctnt = w.rl.ctnt)
    (hrun : w'.running = w.running) : Sound w' where
  toGood := h.toGood.moves hm
  covered := fun hsafe i hi => by
    have hlive : w.rl.LiveCtnt i := by
      unfold ResList.LiveCtnt at hi ⊢
      rwa [hctnt] at hi
    refine (h.covered (hsafe.of_moves hm) i hlive).congr ?_ ?_ ?_
    · rw [hctnt]
    · rw [hctnt]
    · rw [hrun]
      exact List.Subset.refl _

theorem Attempted.tracked {ret : HcResult} (h : Attempted w w' c ret) (hsafe : LogSafe w') : Tracked w' c := by
  by_cases hret : ret = .success
  · rcases h.held hsafe hret with hst | hrun
    · exact .inl hst
    · exact .inr (.inr (.inr hrun))
  · exact .inr (.inl (h.failed hret))

theorem sohuStage_answered {session : Option Bytes} (h : sohuAnswered w.rl w.sohuCtrlLd c session = true)
    (w' : World) : sohuStage w c session ≠ .exit w' := by
  unfold sohuAnswered at h
  unfold sohuStage
  cases hsess : sohuHttpSession (w.rl.ctnt c).url session with
  | none => simp [hsess] at h
  | some response =>
    have hreal : ∀ w₁, (sohuParseFileUrlResponse response).isSome = true → sohuRealUrl w₁ response ≠ .exit w' := by
      intro w₁ hr
      obtain ⟨realUrl, hr⟩ := Option.isSome_iff_exists.mp hr
      simp [sohuRealUrl, hr]
    cases hline : httpParseStatusLine response with
    | none => simp [hsess, hline] at h
    | some status =>
      simp only [hsess, hline, Bool.or_eq_true, Bool.and_eq_true, beq_iff_eq] at h ⊢
      split_ifs with h301 h302
      · rcases h with ⟨⟨h302, -⟩, -⟩ | ⟨-, hr⟩
        · omega
        · exact hreal w hr
      · have hret : (w.handleCached w.sohuCtrlLd c).1 = (handleCachedBy w.sohuCtrlLd w.rl c).1 := rfl
        rw [← hret] at h
        generalize w.handleCached w.sohuCtrlLd c = r at h ⊢
        obtain ⟨ret, w₁⟩ := r
        cases ret with
        | success => simp
        | _ =>
          rcases h with ⟨-, hok⟩ | ⟨-, hr⟩
          · cases hok
          · exact hreal w₁ hr
      · rcases h with ⟨hcache, -⟩ | ⟨h301' | hcache, -⟩
        · exact absurd hcache h302
        · exact absurd h301' h301
        · exact absurd hcache h302

/-- After a call of a download routine the record is tracked, if the log is safe. -/
structure Handled (w w' : World) (c : CtntIdx) : Prop where
  touches : Touches w w' c
  tracked : LogSafe w' → Tracked w' c

theorem Attempted.handled {ret : HcResult} (h : Attempted w w' c ret) : Handled w w' c :=
  ⟨h.touches, h.tracked⟩

/-- An early exit of `sc_sohu_download` is handled too: a safe log admits it only under I_FAIL. -/
theorem exit_handled (ht : Target w c) {session : Option Bytes}
    (hst : sohuStage (w.sohuCalled c session) c session = .exit w') (hrl : w'.rl = w.rl)
    (htc : Touches (w.sohuCalled c session) w' c) : Handled w w' c := by
  refine ⟨(touches_sohuCalled ht.live session).trans htc, fun hsafe => ?_⟩
  have he : Ev.Safe (.sohuDownload w.rl w.sohuCtrlLd c session) := (hsafe.of_moves htc.moves).last
  rcases he with hfail | hans
  · rw [Tracked, hrl]
    exact .inr (.inl hfail)
  · exact absurd hst (sohuStage_answered (w := w.sohuCalled c session) hans w')

theorem sohuDownload_handled (h : Good w) (ht : Target w c) (ans : Answer) :
    Handled w (scSohuDownload w c ans).2 c := by
  rcases sohuDownload_cases h ht ans with ⟨w', hst, hrl, htc, heq⟩ | hatt
  · rw [heq]
    exact exit_handled ht hst hrl htc
  · exact hatt.handled

theorem retryDownload_handled (h : Good w) (ht : Target w c) (ans : Answer) :
    Handled w (scResRetryDownload w c ans).2 c := by
  rcases retryDownload_cases h ht ans with ⟨w', hst, hrl, htc, heq⟩ | hatt
  · rw [heq]
    exact exit_handled ht hst hrl htc
  · exact hatt.handled

theorem Sound.handled (h : Sound w) (hh : Handled w w' c) : Sound w' :=
  h.kept hh.touches.toOthersKept fun hsafe _ => hh.tracked hsafe

end Safe

section Steps

variable [L : Layout] {w w' : World} {c : CtntIdx}

/-- The I_FAIL branch of the process pass: the flag is cleared only after a retry that succeeded. -/
theorem retryIFail_sound (h : Sound w) (ht : Target w c) (ans : Answer) :
    Sound (match scResRetryDownload w c ans with
      | (.success, w) => ((0 : ℕ), w.setFlag c unsetIFail)
      | (_, w) => (1, w)).2 := by
  have hh := retryDownload_handled h.toGood ht ans
  have hcases := retryDownload_cases h.toGood ht ans
  generalize scResRetryDownload w c ans = r at hh hcases
  obtain ⟨ret, w'⟩ := r
  by_cases hret : ret = .success
  · subst hret
    rcases hcases with ⟨w₁, -, -, -, heq⟩ | hatt
    · cases heq
    · have hclear := touches_setFlag hh.touches.live unsetIFail_keeps
      refine h.handled ⟨hh.touches.trans hclear, fun hsafe => ?_⟩
      unfold Tracked
      simp only [World.setFlag, setFlag_self]
      rcases hatt.held (hsafe.of_moves hclear.moves) rfl with hst | hrun
      · exact .inl hst
      · exact .inr (.inr (.inr hrun))
  · cases ret with
    | success => exact absurd rfl hret
    | _ => exact h.handled hh

/-- The D_FAIL branch: the flag is cleared first. -/
theorem retryDFail_sound (h : Sound w) (ht : Target w c) (ans : Answer) :
    Sound (match scResRetryDownload (w.setFlag c unsetDFail) c ans with
      | (.success, w) => ((0 : ℕ), w)
      | (_, w) => (1, w)).2 := by
  have hclear := touches_setFlag ht.live unsetDFail_keeps
  have hh := retryDownload_handled (h.toGood.moves hclear.moves) (ht.touched hclear) ans
  have hh' : Handled w (scResRetryDownload (w.setFlag c unsetDFail) c ans).2 c :=
    ⟨hclear.trans hh.touches, hh.tracked⟩
  generalize scResRetryDownload (w.setFlag c unsetDFail) c ans = r at hh'
  obtain ⟨ret, w'⟩ := r
  cases ret with
  | _ => exact h.handled hh'

theorem notifyRiUrl_sound (h : Sound w) (hc : w.rl.LiveCtnt c) (ok : Bool) :
    Sound (scResNotifyRiUrl w c ok).2 := by
  have hmove : Moves w (scResNotifyRiUrl w c ok).2 := .single (.notify w c ok hc)
  rcases notify_cases w c ok with heq | ⟨hst, -, heq⟩
  · rw [heq]
    exact h
  · rw [heq] at hmove ⊢
    cases ok with
    | false => exact h.sameCtnt hmove rfl rfl
    | true =>
      refine h.kept (c := c) ⟨hmove, fun i hi hlive => ?_, List.Subset.refl _⟩ fun _ _ => .inl ?_
      · refine ⟨(setFlag_live c i _).mp hlive, ?_, ?_⟩ <;>
          simp only [if_true, World.setFlag, World.logged, setFlag_other _ hi]
      · simp only [if_true, World.setFlag, World.logged, setFlag_self, setNotify, hst]

theorem addCtntUrl_sound (h : Sound w) (hc : w.rl.LiveCtnt c) (ok : Bool) :
    Sound (scResAddCtntUrl w c ok).2 := by
  unfold scResAddCtntUrl scYkAddCtntUrl
  split_ifs
  · exact h
  · exact notifyRiUrl_sound h hc ok
  · exact notifyRiUrl_sound h hc ok

/-- A slot with a url is in use. -/
theorem Good.live_of_url (h : Good w) (hurl : (w.rl.ctnt c).url ≠ []) : w.rl.LiveCtnt c := by
  obtain ⟨g, hg⟩ := h.rep
  rw [hg.liveCtnt_iff]
  intro hfree
  rw [hg.freeCtnt c hfree] at hurl
  exact hurl rfl

theorem processCtnt_sound (h : Sound w) (c : CtntIdx) (ans : Answer) :
    Sound (processCtnt w c ans).2 := by
  unfold processCtnt
  by_cases hurl : (w.rl.ctnt c).url = []
  · simp only [hurl, if_true]
    exact h
  have hlive := h.toGood.live_of_url hurl
  simp only [hurl, if_false]
  cases hst : (w.rl.ctnt c).flag.stored with
  | false =>
    have ht := h.toGood.target_of_unstored hlive hst
    simp only [Bool.not_false, if_true]
    split_ifs
    · exact retryIFail_sound h ht ans
    · exact retryDFail_sound h ht ans
    · exact h
  | true =>
    simp only [Bool.not_true, Bool.false_eq_true, if_false]
    split_ifs
    · have := addCtntUrl_sound h hlive ans.snooping
      generalize scResAddCtntUrl w c ans.snooping = r at this
      obtain ⟨ok, w'⟩ := r
      cases ok <;> exact this
    · exact h

/-- What a call of `sc_res_list_process_ctnt`'s body keeps, the loop keeps. -/
theorem processCtntLoop_keeps {I : World → Prop} {ans : ℕ → CtntIdx → Answer} {fuel : ℕ} {p p' : Pass}
    {curr : Option CtntIdx} (hstep : ∀ w c a, I w → I (processCtnt w c a).2) (h : I p.w)
    (hrun : processCtntLoop ans fuel p curr = some p') : I p'.w := by
  induction fuel generalizing p curr with
  | zero =>
    cases curr with
    | none =>
      obtain rfl := Option.some.inj hrun
      exact h
    | some c => cases hrun
  | succ fuel ih =>
    cases curr with
    | none =>
      obtain rfl := Option.some.inj hrun
      exact h
    | some c =>
      rw [processCtntLoop] at hrun
      exact ih (hstep p.w c _ h) hrun

theorem processMgmt_keeps {I : World → Prop} {ans : ℕ → CtntIdx → Answer} {fuel : ℕ} {p p' : Pass}
    (hstep : ∀ w c a, I w → I (processCtnt w c a).2) (h : I p.w)
    (hrun : scResListProcessMgmt ans fuel p = some p') : I p'.w := by
  unfold scResListProcessMgmt at hrun
  generalize List.finRange SC_RES_INFO_NUM_MAX_MGMT = l at hrun
  induction l generalizing p with
  | nil =>
    obtain rfl := Option.some.inj hrun
    exact h
  | cons i l ih =>
    rw [List.foldlM_cons] at hrun
    obtain ⟨p₁, hp₁, hrest⟩ := Option.bind_eq_some_iff.mp hrun
    apply ih _ hrest
    split_ifs at hp₁
    · obtain rfl := Option.some.inj hp₁
      exact h
    · exact processCtntLoop_keeps hstep h hp₁

theorem processCtntLoop_sound {ans : ℕ → CtntIdx → Answer} {fuel : ℕ} {p p' : Pass}
    {curr : Option CtntIdx}
    (h : Sound p.w) (hrun : processCtntLoop ans fuel p curr = some p') : Sound p'.w :=
  processCtntLoop_keeps (fun _ c a hw => processCtnt_sound hw c a) h hrun

theorem processMgmt_sound {ans : ℕ → CtntIdx → Answer} {fuel : ℕ} {p p' : Pass} (h : Sound p.w)
    (hrun : scResListProcessMgmt ans fuel p = some p') : Sound p'.w :=
  processMgmt_keeps (fun _ c a hw => processCtnt_sound hw c a) h hrun

theorem Sound.addCtnt_none (h : Sound w) {m : MgmtIdx} {url : Bytes} {delOk : Bool}
    (hm : w.rl.LiveMgmt m)
    (hc : (w.addCtnt m url delOk).1 = none) : Sound (w.addCtnt m url delOk).2 := by
  have hmove : Moves w (w.addCtnt m url delOk).2 := .single (.addCtnt w m url delOk hm)
  rcases HotCache.addCtnt_none h.toGood hm hc with ⟨hrl, hrun⟩ | ⟨c, hk, hdead⟩
  · exact h.sameCtnt hmove (by rw [hrl]) hrun
  · exact h.kept hk fun _ hlive => absurd hlive hdead

/-- A record whose children are downloaded: what a PARSE or DOWN request has just added. -/
structure Origin (w : World) (m : MgmtIdx) : Prop where
  live : w.rl.LiveMgmt m
  gen : (w.rl.mgmt m).gen ≠ .ctrlLd

theorem Origin.moved {m : MgmtIdx} (ho : Origin w m) (h : Good w) (hm : Moves w w') :
    Origin w' m := by
  obtain ⟨hlive, hgen⟩ := hm.liveMgmt h ho.live
  exact ⟨hlive, by rw [hgen]; exact ho.gen⟩

variable {m : MgmtIdx} {url : Bytes} {delOk : Bool} {w₁ w₂ : World}

theorem segment_refused (h : Sound w) (ho : Origin w m) (heq : w.addCtnt m url delOk = (none, w₁)) :
    Sound w₁ ∧ Origin w₁ m := by
  have hmove : Moves w (w.addCtnt m url delOk).2 := .single (.addCtnt w m url delOk ho.live)
  have h₁ := h.addCtnt_none ho.live (congrArg Prod.fst heq)
  rw [heq] at h₁ hmove
  exact ⟨h₁, ho.moved h.toGood hmove⟩

theorem segment_target (h : Good w) (ho : Origin w m) (heq : w.addCtnt m url delOk = (some c, w₁)) :
    OthersKept w w₁ c ∧ Good w₁ ∧ Origin w₁ m ∧ Target w₁ c := by
  obtain ⟨hk, hlive, hpar⟩ := addCtnt_some h ho.live (congrArg Prod.fst heq)
  rw [heq] at hk hlive hpar
  have hg := h.moves hk.moves
  have ho₁ := ho.moved h hk.moves
  exact ⟨hk, hg, ho₁, hg.target hlive hpar ho₁.gen⟩

theorem segment_added (h : Sound w) (ho : Origin w m) (heq : w.addCtnt m url delOk = (some c, w₁))
    (hdl : Good w₁ → Target w₁ c → Handled w₁ w₂ c) : Sound w₂ ∧ Origin w₂ m := by
  obtain ⟨hk, hg, ho₁, ht⟩ := segment_target h.toGood ho heq
  have hh := hdl hg ht
  refine ⟨h.kept (hk.trans hh.touches.toOthersKept) fun hsafe _ => hh.tracked hsafe, ?_⟩
  exact ho₁.moved hg hh.touches.moves

theorem ykSegLoop_sound (ans : ℕ → Answer) (segs : List YkSeg) (j : ℕ) (h : Sound w)
    (ho : Origin w m) :
    Sound (ykSegLoop m ans j w segs) := by
  induction segs generalizing j w with
  | nil => exact h
  | cons seg segs ih =>
    cases seg with
    | skip => exact ih (j + 1) h ho
    | stop => exact h
    | url realUrl =>
      rw [ykSegLoop]
      split
      next w₁ heq =>
        obtain ⟨h₁, ho₁⟩ := segment_refused h ho heq
        exact ih (j + 1) h₁ ho₁
      next parsed w₁ heq =>
        obtain ⟨h₂, ho₂⟩ := segment_added h ho heq fun hg ht => (youkuDownload_attempted hg ht (ans j)).handled
        exact ih (j + 1) h₂ ho₂

theorem sohuFileLoop_sound (ans : ℕ → Answer) (urls : List Bytes) (j : ℕ) (h : Sound w)
    (ho : Origin w m) :
    Sound (sohuFileLoop m ans j w urls) := by
  induction urls generalizing j w with
  | nil => exact h
  | cons url urls ih =>
    rw [sohuFileLoop]
    split
    next w₁ heq =>
      obtain ⟨h₁, ho₁⟩ := segment_refused h ho heq
      exact ih (j + 1) h₁ ho₁
    next parsed w₁ heq =>
      obtain ⟨h₂, ho₂⟩ := segment_added h ho heq fun hg ht => sohuDownload_handled hg ht (ans j)
      exact ih (j + 1) h₂ ho₂

/-- A management record that is no controller is added, which leaves the content records alone. -/
theorem addMgmt_sound {gen : Gen} {rl : ResList} {o : Option MgmtIdx} (h : Sound w)
    (hgen : gen ≠ .content) (hctrl : gen ≠ .ctrlLd)
    (heq : scResInfoAddMgmt gen true w.rl url = (o, rl)) (hmove : Moves w { w with rl := rl }) :
    Sound { w with rl := rl } ∧ ∀ m, o = some m → Origin { w with rl := rl } m := by
  obtain ⟨g, hg⟩ := h.rep
  obtain ⟨hctnt, -, hnew⟩ := addMgmt_spec hg true url hgen
  rw [heq] at hctnt hnew
  refine ⟨h.sameCtnt hmove hctnt rfl, fun m hm => ?_⟩
  obtain ⟨hlive, hgen'⟩ := hnew m hm
  exact ⟨hlive, fun he => hctrl (hgen'.symm.trans he)⟩

theorem doDown_sound (h : Sound w) (url : Bytes) (ans : Answer) :
    Sound (scSnoopingDoDown w url ans).2 := by
  unfold scSnoopingDoDown
  split
  · exact h
  next hnew =>
  have hlog : Sound (w.logged (.addNormal w.rl url)) := h.sameCtnt (.single (.logged w _ rfl)) rfl rfl
  have hmove : Moves (w.logged (.addNormal w.rl url))
      { w.logged (.addNormal w.rl url) with rl := (scResInfoAddNormal w.rl url).2 } :=
    .single (.addMgmt _ .normal url (.normal hnew (by simp [World.logged])))
  dsimp only
  cases heq : scResInfoAddNormal w.rl url with
  | mk o rl =>
    have heq' : scResInfoAddNormal (w.logged (.addNormal w.rl url)).rl url = (o, rl) := heq
    rw [heq] at hmove
    obtain ⟨h₁, ho⟩ := addMgmt_sound hlog (by decide : Gen.normal ≠ .content) (by decide) heq' hmove
    rw [heq']
    cases o with
    | none => exact h₁
    | some normal =>
      dsimp only
      split
      next w₂ heq₂ => exact (segment_refused h₁ (ho normal rfl) heq₂).1
      next c w₂ heq₂ =>
        exact (segment_added h₁ (ho normal rfl) heq₂ fun _ ht =>
          (ngxDownload_attempted ht.live ans.ngx (w₂.rl.ctnt c).url).handled).1

theorem doParse_sound (h : Sound w) (reqUrl : Bytes) (ans : ParseAnswer) :
    Sound (scSnoopingDoParse w reqUrl ans).2 := by
  unfold scSnoopingDoParse
  split
  · exact h
  next originUrl hurl =>
  split
  · exact h
  next hnew =>
  have hmove : Moves w { w with rl := (scResInfoAddOrigin w.rl originUrl).2 } :=
    .single (.addMgmt w .origin originUrl (.origin hnew (genOriginUrl_copy hurl)))
  cases heq : scResInfoAddOrigin w.rl originUrl with
  | mk o rl =>
    rw [heq] at hmove
    obtain ⟨h₁, ho⟩ := addMgmt_sound h (by decide : Gen.origin ≠ .content) (by decide) heq hmove
    cases o with
    | none => exact h₁
    | some origin =>
      dsimp only
      split
      · unfold scGetYkVideo
        split_ifs
        · exact h₁
        · split
          · exact h₁
          · exact ykSegLoop_sound _ _ 0 h₁ (ho origin rfl)
      · unfold scGetSohuVideo
        dsimp only
        split_ifs
        · exact h₁
        · split
          · exact h₁
          · split_ifs
            · exact h₁
            · exact sohuFileLoop_sound _ _ 0 h₁ (ho origin rfl)
      · exact h₁

/-- A file is added under a controller: the new record is stored. -/
theorem addLoaded_sound (h : Sound w) {m : MgmtIdx} (hm : w.Controller m) (url : Bytes)
    (del : Bool) :
    Sound (w.addCtnt m url del).2 := by
  obtain ⟨hlive, hgen⟩ := h.ctrl m hm
  cases hc : (w.addCtnt m url del).1 with
  | none => exact h.addCtnt_none hlive hc
  | some c =>
    obtain ⟨hk, hlive', hpar⟩ := addCtnt_some h.toGood hlive hc
    refine h.kept hk fun _ _ => .inl ?_
    refine (h.toGood.moves hk.moves).loaded c m hlive' hpar ?_
    rw [(hk.moves.liveMgmt h.toGood hlive).2]
    exact hgen

theorem ldAddFile_sound (h : Sound w) {ctrlLd : Option MgmtIdx}
    (hctrl : ctrlLd = w.youkuCtrlLd ∨ ctrlLd = w.sohuCtrlLd)
    (fpath : Bytes) (del : Bool) : Sound (ldAddFile w ctrlLd fpath del) := by
  unfold ldAddFile
  by_cases hdup : scLdIsDuplicateFile w.rl ctrlLd fpath = true
  · rw [if_pos hdup]
    exact h
  · rw [if_neg hdup]
    dsimp only
    generalize (if startsWith fpath SC_NGX_ROOT_PATH then fpath.drop SC_NGX_ROOT_PATH_LEN else fpath) = localPath
    cases scResRecoverUrlFromLocalPath localPath with
    | none => exact h
    | some url =>
      cases ctrlLd with
      | none => exact h
      | some m => exact addLoaded_sound h (hctrl.imp Eq.symm Eq.symm) url del

theorem fileProcess_sound (h : Sound w) (fpath : Bytes) (ans : LoadAnswer) :
    Sound (scLdFileProcess w fpath ans) := by
  unfold scLdFileProcess
  by_cases hyk : scYkIsLocalPath fpath = true
  · rw [if_pos hyk]
    exact ldAddFile_sound h (.inl rfl) fpath ans.del
  rw [if_neg hyk]
  by_cases hvid : scYkIsLocalPathPureVid fpath = true
  · rw [if_pos hvid]
    split
    · exact h
    · by_cases hren : ans.rename = true
      · rw [if_neg (by simp [hren])]
        exact ldAddFile_sound h (.inl rfl) _ ans.del
      · rw [if_pos (by simp [hren])]
        exact h
  rw [if_neg hvid]
  split_ifs
  · exact ldAddFile_sound h (.inr rfl) fpath ans.del
  · exact h

theorem handleCached_sound (h : Sound w) {m : MgmtIdx} (hm : w.Controller m)
    (hlive : w.rl.LiveCtnt c) (hpar : (w.rl.ctnt c).parent ≠ some m) :
    Sound (w.handleCached (some m) c).2 := by
  obtain ⟨ht, hok, hfail⟩ := handOver_spec h.toGood hm hlive hpar
  by_cases hret : (w.handleCached (some m) c).1 = .success
  · exact h.handled ⟨ht, fun _ => .inl (hok hret)⟩
  · exact h.sameCtnt ht.moves (by rw [hfail hret]) rfl

end Steps

section Finish

variable {w : World} {ans : StoreAnswer} {r : Request} {lp : Bytes} {evs : List PipeEvent}

/-- A flag write that only adds flags. -/
structure Adds (set : Flag → Flag) : Prop where
  stored : ∀ x, x.stored = true → (set x).stored = true
  iFail : ∀ x, x.iFail = true → (set x).iFail = true
  dFail : ∀ x, x.dFail = true → (set x).dFail = true
  notify : ∀ x, (set x).notify = x.notify

theorem setStored_adds : Adds setStored := ⟨fun _ _ => rfl, fun _ => id, fun _ => id, fun _ => rfl⟩
theorem setDFail_adds : Adds setDFail := ⟨fun _ => id, fun _ => id, fun _ _ => rfl, fun _ => rfl⟩

/-- The list after the end of a download: one slot may have been written to. -/
structure Marked (rl rl' : ResList) : Prop where
  live : ∀ c, rl'.LiveCtnt c → rl.LiveCtnt c
  localpath : ∀ c, (rl'.ctnt c).localpath = (rl.ctnt c).localpath
  stored : ∀ c, (rl.ctnt c).flag.stored = true → (rl'.ctnt c).flag.stored = true
  iFail : ∀ c, (rl.ctnt c).flag.iFail = true → (rl'.ctnt c).flag.iFail = true
  dFail : ∀ c, (rl.ctnt c).flag.dFail = true → (rl'.ctnt c).flag.dFail = true

theorem Marked.refl (rl : ResList) : Marked rl rl :=
  ⟨fun _ => id, fun _ => rfl, fun _ => id, fun _ => id, fun _ => id⟩

theorem setFlag_marked (rl : ResList) (c : CtntIdx) {set : Flag → Flag} (hset : Adds set) :
    Marked rl (rl.setFlag c set) := by
  refine ⟨fun i => (setFlag_live c i set).mp, fun i => ?_, fun i hi => ?_, fun i hi => ?_, fun i hi => ?_⟩
  · by_cases hic : i = c
    · subst hic
      rw [setFlag_self]
    · rw [setFlag_other set hic]
  all_goals
    rw [setFlag_flag]
    split_ifs
  · exact hset.stored _ hi
  · exact hi
  · exact hset.iFail _ hi
  · exact hi
  · exact hset.dFail _ hi
  · exact hi

/-- A record that waits for the download and is the first match gets a flag. -/
theorem finish_marks {c : CtntIdx} (hr : Receiving r lp)
    (hfin : (runUpstream ans r evs).connected = false) (hfirst : FirstMatch r.rl lp c)
    (hst : (r.rl.ctnt c).flag.stored = false)
    (hbody : bodyComplete r.contentLengthN r.pipe.tempFile evs = true ∨ bodyWritten r.pipe.tempFile evs = true) :
    ((runUpstream ans r evs).rl.ctnt c).flag.stored = true ∨
    ((runUpstream ans r evs).rl.ctnt c).flag.dFail = true := by
  rw [(run_finished ans hr evs hfin).rl]
  split_ifs with hcomplete hwritten
  · rw [markLocalpath_first setStored hfirst hst]
    exact .inl rfl
  · rw [markLocalpath_first setDFail hfirst hst]
    exact .inr rfl
  · rcases hbody with hbody | hbody
    · exact absurd hbody hcomplete
    · exact absurd hbody hwritten

variable [L : Layout]

/-- A slot that the scan for a path finds is in use: a free one has no path. -/
theorem scan_live (h : Good w) (hlp : lp ≠ []) {c : CtntIdx} (hscan : scanLocalpath w.rl lp = .marked c) :
    w.rl.LiveCtnt c := by
  obtain ⟨g, hg⟩ := h.rep
  have hfirst : FirstMatch w.rl lp c := by
    rcases scan_cases w.rl lp with ⟨hnone, -⟩ | ⟨i, hi, hmarked⟩
    · rw [hnone] at hscan
      cases hscan
    · rw [hmarked] at hscan
      split at hscan
      · cases hscan
      · cases hscan
        exact hi
  rw [hg.liveCtnt_iff]
  intro hfree
  have hprefix := hfirst.1
  rw [hg.freeCtnt c hfree] at hprefix
  exact hlp (List.prefix_nil.mp hprefix)

theorem markLocalpath_moves (h : Good w) (hlp : lp ≠ []) {set : Flag → Flag} (hset : Adds set) :
    Moves w { w with rl := markLocalpath set w.rl lp } ∧
      Marked w.rl (markLocalpath set w.rl lp) := by
  unfold markLocalpath
  split
  next c hscan =>
    have hmove : Move w (w.setFlag c set) :=
      .flag w c set (scan_live h hlp hscan) fun x => ⟨hset.stored x, hset.notify x⟩
    exact ⟨.single hmove, setFlag_marked w.rl c hset⟩
  next => exact ⟨.refl, .refl _⟩

/-- What the end of a download does to the system. -/
theorem finish_moves (h : Good w) (hr : Receiving r lp) (hrl : r.rl = w.rl) (hlp : lp ∈ w.running)
    (hfin : (runUpstream ans r evs).connected = false) :
    Moves w { w with rl := (runUpstream ans r evs).rl } ∧
      Marked w.rl (runUpstream ans r evs).rl := by
  have hne := endsInType_ne_nil (h.keys lp hlp)
  rw [(run_finished ans hr evs hfin).rl, hrl]
  split_ifs
  · exact markLocalpath_moves h hne setStored_adds
  · exact markLocalpath_moves h hne setDFail_adds
  · exact ⟨.refl, .refl _⟩

theorem finish_sound (h : Sound w) (hr : Receiving r lp) (hrl : r.rl = w.rl) (hlp : lp ∈ w.running)
    (hfin : (runUpstream ans r evs).connected = false) :
    Sound (World.logged { w with rl := (runUpstream ans r evs).rl, running := w.running.erase lp }
      (.finish r evs w.running lp)) := by
  obtain ⟨hmark, hm⟩ := finish_moves h.toGood hr hrl hlp hfin
  have hmoves := hmark.tail (.finish _ r evs lp)
  refine ⟨h.toGood.moves hmoves, fun hsafe c hlive' => ?_⟩
  have hlive := hm.live c hlive'
  have he : Ev.Safe (.finish r evs w.running lp) := hsafe _ (by simp [World.logged])
  have htr := h.covered (hsafe.of_moves hmoves) c hlive
  unfold Tracked at htr ⊢
  simp only [World.logged]
  by_cases hst : (w.rl.ctnt c).flag.stored = true
  · exact .inl (hm.stored c hst)
  by_cases hif : (w.rl.ctnt c).flag.iFail = true
  · exact .inr (.inl (hm.iFail c hif))
  by_cases hdf : (w.rl.ctnt c).flag.dFail = true
  · exact .inr (.inr (.inl (hm.dFail c hdf)))
  have hrun : (w.rl.ctnt c).localpath ∈ w.running := by tauto
  rw [hm.localpath c]
  by_cases hlp : (w.rl.ctnt c).localpath = lp
  · -- the record was waiting for this very download
    rw [← hrl] at hlive hlp hst hif hdf
    rcases he c hlive hlp (by simpa using hst) (by simpa using hif) (by simpa using hdf) with hother | ⟨hbody, hnone⟩
    · rw [← hrl, hlp]
      exact .inr (.inr (.inr hother))
    · rcases finish_marks hr hfin ⟨by rw [hlp], hnone⟩ (by simpa using hst) hbody with hs | hd
      · exact .inl hs
      · exact .inr (.inr (.inl hd))
  · exact .inr (.inr (.inr ((List.mem_erase_of_ne hlp).mpr hrun)))

end Finish

section Reachable

variable [L : Layout] {w w' : World}

structure Blank (w : World) : Prop where
  pool : PoolReachable w.rl
  ctrl : ∀ m, w.Controller m → w.rl.LiveMgmt m ∧ (w.rl.mgmt m).gen = .ctrlLd
  running : w.running = []
  ctnt : ∀ c, ¬ w.rl.LiveCtnt c ∧ (w.rl.ctnt c).flag = {}
  log : w.log = []

theorem Blank.sound (h : Blank w) : Sound w where
  pool := h.pool
  ctrl := h.ctrl
  keys := fun lp hlp => by simp [h.running] at hlp
  loaded := fun c _ hlive => absurd hlive (h.ctnt c).1
  notify := fun c hn => by simp [(h.ctnt c).2] at hn
  addStored := fun c s ok hmem => by simp [h.log] at hmem
  once := fun pre c s post heq => by simp [h.log] at heq
  fresh := fun c hlive => absurd hlive (h.ctnt c).1
  covered := fun _ c hlive => absurd hlive (h.ctnt c).1

/-- A controller is added to a world without content records, and then known to the client. -/
theorem Blank.addCtrlLd (h : Blank w) (url : Bytes) (hrl : w'.rl = (scResInfoAddCtrlLd w.rl url).2)
    (hrun : w'.running = []) (hlog : w'.log = [])
    (hctrl : ∀ m, w'.Controller m → w.Controller m ∨ (scResInfoAddCtrlLd w.rl url).1 = some m) :
    Blank w' := by
  obtain ⟨g, hg⟩ := reachable_rep h.pool
  obtain ⟨hctnt, hold, hnew⟩ := addMgmt_spec hg false url (by decide : Gen.ctrlLd ≠ .content)
  refine ⟨?_, fun m hm => ?_, hrun, fun c => ?_, hlog⟩
  · rw [hrl]
    exact h.pool.tail (.addCtrlLd w.rl url)
  · rw [hrl]
    rcases hctrl m hm with hm | hm
    · obtain ⟨hlive, hgen⟩ := h.ctrl m hm
      have hsame : (scResInfoAddCtrlLd w.rl url).2.mgmt m = w.rl.mgmt m := hold m hlive
      simp only [ResList.LiveMgmt, hsame]
      exact ⟨hlive, hgen⟩
    · exact hnew m hm
  · have hsame : (scResInfoAddCtrlLd w.rl url).2.ctnt c = w.rl.ctnt c := congrFun hctnt c
    rw [hrl]
    simp only [ResList.LiveCtnt, hsame]
    exact h.ctnt c

theorem init_blank : Blank { rl := scResListAllocAndInit } where
  pool := .refl
  ctrl := fun m hm => by simp [World.Controller] at hm
  running := rfl
  ctnt := fun c => by
    have hfree : c ∈ below SC_RES_INFO_NUM_MAX_CTNT _ le_rfl := (mem_below _ c).mpr c.isLt
    exact ⟨fun hlive => (init_rep.liveCtnt_iff c).mp hlive hfree, rfl⟩
  log := rfl

theorem ldInit_blank : Blank scLdInit := by
  unfold scLdInit
  have h₀ := init_blank
  split
  next rl heq =>
    refine h₀.addCtrlLd YOUKU_WEBSITE_URL ?_ rfl rfl fun m hm => ?_
    · rw [heq]
    · simp [World.Controller] at hm
  next youku rl heq =>
    have h₁ : Blank { rl := rl, youkuCtrlLd := some youku } := by
      refine h₀.addCtrlLd YOUKU_WEBSITE_URL ?_ rfl rfl fun m hm => .inr ?_
      · rw [heq]
      · rw [heq]
        simpa [World.Controller] using hm
    split
    next rl₂ heq₂ =>
      refine h₁.addCtrlLd SOHU_WEBSITE_URL ?_ rfl rfl fun m hm => .inl ?_
      · rw [heq₂]
      · simpa [World.Controller] using hm
    next sohu rl₂ heq₂ =>
      refine h₁.addCtrlLd SOHU_WEBSITE_URL ?_ rfl rfl fun m hm => ?_
      · rw [heq₂]
      · rw [heq₂]
        simpa [World.Controller] using hm

theorem OwnStep.sound (h : Sound w) (hs : OwnStep w w') : Sound w' := by
  cases hs with
  | processFunc ans fuel p hrun => exact processMgmt_sound h hrun
  | load fpath ans => exact fileProcess_sound h fpath ans
  | finish ans r evs lp hr hrl hlp hfin => exact finish_sound h hr hrl hlp hfin

theorem ServeStep.sound (h : Sound w) (hs : ServeStep w w') : Sound w' := by
  cases hs with
  | request hreq =>
    cases hreq with
    | parse reqUrl ans => exact doParse_sound h reqUrl ans
    | down url ans => exact doDown_sound h url ans
  | own hown => exact hown.sound h

theorem Step.sound (h : Sound w) (hs : Step w w') : Sound w' := by
  cases hs with
  | serve _ hserve => exact hserve.sound h
  | processCtnt ans fuel mgmt p hm hrun => exact processCtntLoop_sound h hrun
  | handleCached ctrlLd parsed hctrl hlive hne => exact handleCached_sound h hctrl hlive hne

theorem Reachable.sound (h : Reachable w) : Sound w := by
  induction h with
  | refl => exact ldInit_blank.sound
  | tail _ hs ih => exact hs.sound ih

/-- In every reachable state, a live record with NOTIFY has STORED; every ADD call was made for a
record that was STORED at that moment; and between two ADD calls for a slot that returned 0 the slot
was taken anew. -/
theorem redirect_safety (h : Reachable w) :
    (∀ c, w.rl.LiveCtnt c → (w.rl.ctnt c).flag.notify = true → (w.rl.ctnt c).flag.stored = true) ∧
    (∀ c stored ok, Ev.add c stored ok ∈ w.log → stored = true) ∧
    ∀ c s s' l₁ l₂ l₃, w.log = l₁ ++ .add c s true :: (l₂ ++ .add c s' true :: l₃) →
      Ev.get c ∈ l₂ := by
  have hs := h.sound
  refine ⟨fun c _ => hs.notify c, hs.addStored, fun c s s' l₁ l₂ l₃ hlog => ?_⟩
  by_contra hget
  have hfalse : notified (l₁ ++ .add c s true :: l₂) c = false := hs.once _ c s' l₃ (by rw [hlog]; simp)
  rw [notified_of_no_get l₁ l₂ hget] at hfalse
  cases hfalse

/-- In every run whose calls are all safe, after every step, each live record is stored, has I_FAIL
or D_FAIL, or has a download of its local path running in Nginx. -/
theorem no_download_lost (h : Reachable w) (hsafe : LogSafe w) : Covered w := h.sound.covered hsafe

/-- A test for safe entries. The end of a download passes if `c` is the only record with its path
and the scan of Nginx meets `c` first. -/
def Ev.safeFor (c : CtntIdx) : Ev → Bool
  | .sohuDownload rl ctrlLd c session => (rl.ctnt c).flag.iFail || sohuAnswered rl ctrlLd c session
  | .ngxDownload url lp ret => ret != .success || Keyed (scResCopyUrl url true) lp
  | .finish r evs _ lp =>
    (bodyComplete r.contentLengthN r.pipe.tempFile evs || bodyWritten r.pipe.tempFile evs) &&
      (List.finRange SC_RES_INFO_NUM_MAX_CTNT).all fun j =>
        (c ≤ j || !lp.isPrefixOf (r.rl.ctnt j).localpath) && (j == c || (r.rl.ctnt j).localpath != lp)
  | _ => true

theorem Ev.safe_of_safeFor {c : CtntIdx} {e : Ev} (h : e.safeFor c = true) : e.Safe := by
  cases e with
  | sohuDownload rl ctrlLd i session => simpa [Ev.Safe, Ev.safeFor] using h
  | ngxDownload url lp ret =>
    intro hret
    simpa [Ev.safeFor, hret] using h
  | finish r evs running lp =>
    simp only [Ev.safeFor, Bool.and_eq_true, Bool.or_eq_true] at h
    obtain ⟨hbody, hall⟩ := h
    intro i _ hlp _ _ _
    have honly := List.all_eq_true.mp hall i (List.mem_finRange i)
    simp only [hlp, bne_self_eq_false, Bool.or_false, Bool.and_eq_true, beq_iff_eq] at honly
    rw [honly.2]
    refine .inr ⟨hbody, noneBefore_of_all (List.all_eq_true.mpr fun j hj => ?_)⟩
    exact (Bool.and_eq_true_iff.mp (List.all_eq_true.mp hall j hj)).1
  | _ => trivial

end Reachable

theorem OwnStep.serve {L : Layout} {w w' : World} (h : @OwnStep L w w') : @ServeStep L w w' :=
  @ProgramStep.own L _ w w' h

theorem SpRequest.serve {L : Layout} {w w' : World} (h : @SpRequest L w w') : @ServeStep L w w' :=
  @ProgramStep.request L _ w w' h

theorem OwnStep.step {L : Layout} {w w' : World} (h : @OwnStep L w w') : @Step L w w' :=
  @Step.serve L w w' (OwnStep.serve h)

theorem SpRequest.step {L : Layout} {w w' : World} (h : @SpRequest L w w') : @Step L w w' :=
  @Step.serve L w w' (SpRequest.serve h)

section Examples

def oneLoaded : World :=
  @scLdFileProcess sampleLayout (@scLdInit sampleLayout)
    (bytes "/usr/local/hot-cache/f_youku_com/youku_67731242A093F822806A633329_a.flv") ⟨true, true⟩

def announcePass : Option Pass :=
  @scResListProcessMgmt sampleLayout (fun _ _ => ⟨none, .failed false, true⟩) 1 { w := oneLoaded }

def announced : World := (announcePass.map Pass.w).getD oneLoaded

theorem announced_reachable : @Reachable sampleLayout announced := by
  have hload : @Reachable sampleLayout oneLoaded := .single (OwnStep.step (@OwnStep.load sampleLayout _ _ _))
  have hsome : announcePass.isSome = true := by decide +kernel
  obtain ⟨p, hp⟩ := Option.isSome_iff_exists.mp hsome
  rw [announced, hp]
  exact hload.tail (OwnStep.step (@OwnStep.processFunc sampleLayout _ _ 1 p hp))

theorem redirect_safety_announced :
    announced.rl.LiveCtnt 4095 ∧ (announced.rl.ctnt 4095).flag.notify = true ∧
    (announced.rl.ctnt 4095).flag.stored = true ∧
    ∀ c stored ok, Ev.add c stored ok ∈ announced.log → stored = true := by
  obtain ⟨hstored, hadd, -⟩ := @redirect_safety sampleLayout _ announced_reachable
  obtain ⟨hlive, hnotify⟩ : announced.rl.LiveCtnt 4095 ∧ (announced.rl.ctnt 4095).flag.notify = true := by
    decide +kernel
  exact ⟨hlive, hnotify, hstored 4095 hlive hnotify, hadd⟩

def parseOne (segment : Answer) : World :=
  (@scSnoopingDoParse sampleLayout (@scLdInit sampleLayout) (bytes "hot.vrs.sohu.com/ipad7.m3u8")
    ⟨none, some (bytes "HTTP/1.1 200 OK\r\n\r\n#EXTM3U\nhttp://220.181.61.212/ipad?file=/1/2/a.mp4&start=0\n"),
      fun _ => segment⟩).2

theorem parseOne_reachable (segment : Answer) : @Reachable sampleLayout (parseOne segment) :=
  .single (SpRequest.step (@SpRequest.parse sampleLayout _ _ _))

def segmentAnswered : Answer :=
  ⟨some (bytes "HTTP/1.1 301 Moved\r\nLocation: http://1.2.3.4/a.mp4\r\n\r\n"),
    .reply (bytes "HTTP/1.1 200 OK\r\n\r\n") true, true⟩

def segmentPath : Bytes := bytes "220_181_61_212/ipad_file=_1_2_a.mp4"
def segmentRequest : Request := getfileRequest (parseOne segmentAnswered).rl segmentPath 3
def twoBytes : List PipeEvent := [.pipe (some 2) true false false (-1)]

def brokenOff : World :=
  World.logged { parseOne segmentAnswered with
    rl := (runUpstream ⟨true, true, true⟩ segmentRequest twoBytes).rl
    running := (parseOne segmentAnswered).running.erase segmentPath }
    (.finish segmentRequest twoBytes (parseOne segmentAnswered).running segmentPath)

theorem brokenOff_reachable : @Reachable sampleLayout brokenOff := by
  have hr : Receiving segmentRequest segmentPath :=
    ⟨⟨rfl, rfl, by decide +kernel, rfl, by decide +kernel, rfl⟩, rfl, rfl, rfl⟩
  have hrl : segmentRequest.rl = (parseOne segmentAnswered).rl := getfileRequest_rl ..
  obtain ⟨hlp, hfin⟩ : segmentPath ∈ (parseOne segmentAnswered).running ∧
      (runUpstream ⟨true, true, true⟩ segmentRequest twoBytes).connected = false := by
    decide +kernel
  exact (parseOne_reachable segmentAnswered).tail
    (OwnStep.step (@OwnStep.finish sampleLayout _ ⟨true, true, true⟩ segmentRequest twoBytes segmentPath hr hrl hlp
      hfin))

theorem no_download_lost_broken_off :
    brokenOff.rl.LiveCtnt 4095 ∧ brokenOff.running = [] ∧ Covered brokenOff := by
  obtain ⟨hlive, hrun, hall⟩ : brokenOff.rl.LiveCtnt 4095 ∧ brokenOff.running = [] ∧
      brokenOff.log.all (@Ev.safeFor sampleLayout 4095) = true := by
    decide +kernel
  refine ⟨hlive, hrun, @no_download_lost sampleLayout _ brokenOff_reachable fun e he => ?_⟩
  exact @Ev.safe_of_safeFor sampleLayout 4095 e (List.all_eq_true.mp hall e he)

/-- The session for the segment fails: the record stays without a flag, and nobody downloads its
file. -/
theorem download_lost :
    @Reachable sampleLayout (parseOne ⟨none, .failed false, true⟩) ∧
    (parseOne ⟨none, .failed false, true⟩).rl.LiveCtnt 4095 ∧
    ((parseOne ⟨none, .failed false, true⟩).rl.ctnt 4095).flag = {} ∧
    (parseOne ⟨none, .failed false, true⟩).running = [] ∧
    ¬ Covered (parseOne ⟨none, .failed false, true⟩) := by
  obtain ⟨hlive, hflag, hrun⟩ : (parseOne ⟨none, .failed false, true⟩).rl.LiveCtnt 4095 ∧
      ((parseOne ⟨none, .failed false, true⟩).rl.ctnt 4095).flag = {} ∧
      (parseOne ⟨none, .failed false, true⟩).running = [] := by
    decide +kernel
  refine ⟨parseOne_reachable _, hlive, hflag, hrun, fun hcov => ?_⟩
  have htr := hcov 4095 hlive
  rw [Tracked, hflag, hrun] at htr
  simp at htr

end Examples

end HotCache
