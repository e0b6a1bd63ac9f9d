import HotCache.Proofs.Receive
import HotCache.Proofs.System

/-! What the functions of the client do to the system, in terms of moves: the download attempts, the
process pass, the requests and the loader. The log tells whether one of the calls can have lost a record. -/

namespace HotCache

open CStr

theorem setIFail_keeps (x : Flag) :
    (x.stored = true → (setIFail x).stored = true) ∧ (setIFail x).notify = x.notify := ⟨id, rfl⟩

theorem unsetIFail_keeps (x : Flag) :
    (x.stored = true → (unsetIFail x).stored = true) ∧ (unsetIFail x).notify = x.notify := ⟨id, rfl⟩

theorem unsetDFail_keeps (x : Flag) :
    (x.stored = true → (unsetDFail x).stored = true) ∧ (unsetDFail x).notify = x.notify := ⟨id, rfl⟩

theorem scNgxDownload_success {ans : NgxAnswer} {url lp : Bytes}
    (h : (scNgxDownload ans url lp).1 = .success) :
    (scNgxRequest url lp).isSome ∧ (scNgxDownload ans url lp).2 = true := by
  unfold scNgxDownload at h ⊢
  split at h
  · cases h
  next req hreq =>
    rw [hreq]
    refine ⟨rfl, ?_⟩
    cases ans with
    | failed started => cases h
    | reply buffer started =>
      dsimp only at h ⊢
      split at h
      · cases h
      · split_ifs at h ⊢ with h200
        · rfl

section Safe

variable [L : Layout]

/-- `sc_sohu_download` gets past its early exits: the session succeeds and the status line parses; a
302 to the cache finds the loaded record, or the response is a redirect with a usable `real_url`. -/
def sohuAnswered (rl : ResList) (ctrlLd : Option MgmtIdx) (c : CtntIdx) (session : Option Bytes) : Bool :=
  match sohuHttpSession (rl.ctnt c).url session with
  | none => false
  | some response =>
    match httpParseStatusLine response with
    | none => false
    | some status =>
      let toCache := status == 302 && (strstr response SC_REDIRECT_KEY_WORD).isSome
      (toCache && (handleCachedBy ctrlLd rl c).1 == .success) ||
        ((status == 301 || toCache) && (sohuParseFileUrlResponse response).isSome)

/-- A call that cannot lose a record. A Sohu download is answered, or made for a record that has
I_FAIL. A download that Nginx answers with 200 runs under the path of its record. When a download of `lp`
ends, each record that waits for it has another download of `lp` running, or gets its flag. -/
def Ev.Safe : Ev → Prop
  | .sohuDownload rl ctrlLd c session => (rl.ctnt c).flag.iFail = true ∨ sohuAnswered rl ctrlLd c session = true
  | .ngxDownload url lp ret => ret = .success → Keyed (scResCopyUrl url true) lp
  | .finish r evs running lp => ∀ c, r.rl.LiveCtnt c → (r.rl.ctnt c).localpath = lp →
      (r.rl.ctnt c).flag.stored = false → (r.rl.ctnt c).flag.iFail = false → (r.rl.ctnt c).flag.dFail = false →
      lp ∈ running.erase lp ∨
      ((bodyComplete r.contentLengthN r.pipe.tempFile evs = true ∨ bodyWritten r.pipe.tempFile evs = true) ∧
        NoneBefore r.rl lp c)
  | _ => True

def LogSafe (w : World) : Prop := ∀ e ∈ w.log, e.Safe

theorem LogSafe.of_moves {w w' : World} (h : LogSafe w') (hm : Moves w w') : LogSafe w :=
  fun e he => h e (hm.controllers.2.2.subset he)

theorem LogSafe.last {w : World} {e : Ev} (h : LogSafe (w.logged e)) : e.Safe := h e (by simp [World.logged])

end Safe

section Functions

variable [L : Layout] {w w' w'' : World} {c : CtntIdx}

/-- A live record that is not a child of a controller: what the download routines are called for. -/
structure Target (w : World) (c : CtntIdx) : Prop where
  live : w.rl.LiveCtnt c
  parent : ∀ m, w.Controller m → (w.rl.ctnt c).parent ≠ some m

/-- Moves that leave every live record other than `c` as it is. -/
structure OthersKept (w w' : World) (c : CtntIdx) : Prop where
  moves : Moves w w'
  other : ∀ i, i ≠ c → w'.rl.LiveCtnt i → w.rl.LiveCtnt i ∧ (w'.rl.ctnt i).flag = (w.rl.ctnt i).flag ∧
    (w'.rl.ctnt i).localpath = (w.rl.ctnt i).localpath
  running : w.running ⊆ w'.running

theorem OthersKept.trans (h₁ : OthersKept w w' c) (h₂ : OthersKept w' w'' c) :
    OthersKept w w'' c where
  moves := Relation.ReflTransGen.trans h₁.moves h₂.moves
  other := fun i hi hlive => by
    obtain ⟨hlive', hflag', hlp'⟩ := h₂.other i hi hlive
    obtain ⟨hlive, hflag, hlp⟩ := h₁.other i hi hlive'
    exact ⟨hlive, hflag'.trans hflag, hlp'.trans hlp⟩
  running := List.Subset.trans h₁.running h₂.running

/-- Such moves with `c` live and under the same parent. -/
structure Touches (w w' : World) (c : CtntIdx) : Prop extends OthersKept w w' c where
  live : w'.rl.LiveCtnt c
  parent : (w'.rl.ctnt c).parent = (w.rl.ctnt c).parent

theorem Touches.refl (hc : w.rl.LiveCtnt c) : Touches w w c :=
  ⟨⟨.refl, fun _ _ hi => ⟨hi, rfl, rfl⟩, List.Subset.refl _⟩, hc, rfl⟩

theorem Touches.trans (h₁ : Touches w w' c) (h₂ : Touches w' w'' c) : Touches w w'' c :=
  ⟨h₁.toOthersKept.trans h₂.toOthersKept, h₂.live, h₂.parent.trans h₁.parent⟩

theorem Target.touched (h : Target w c) (ht : Touches w w' c) : Target w' c :=
  ⟨ht.live, fun m hm => by rw [ht.parent]; exact h.parent m ((ht.moves.controller_iff m).mp hm)⟩

theorem touches_ngxDownload (hc : w.rl.LiveCtnt c) (ans : NgxAnswer) (url lp : Bytes) :
    Touches w (w.ngxDownload ans url lp).2 c :=
  ⟨⟨.single (.ngxDownload w ans url lp), fun _ _ hi => ⟨hi, rfl, rfl⟩, List.subset_append_right _ _⟩, hc, rfl⟩

theorem touches_logged (hc : w.rl.LiveCtnt c) {e : Ev} (he : e.Noted w) : Touches w (w.logged e) c :=
  ⟨⟨.single (.logged w e he), fun _ _ hi => ⟨hi, rfl, rfl⟩, List.Subset.refl _⟩, hc, rfl⟩

theorem touches_setFlag (hc : w.rl.LiveCtnt c) {f : Flag → Flag}
    (hf : ∀ x, (x.stored = true → (f x).stored = true) ∧ (f x).notify = x.notify) :
    Touches w (w.setFlag c f) c where
  moves := .single (.flag w c f hc hf)
  live := (setFlag_live c c f).mpr hc
  parent := setFlag_parent c c f
  other := fun i hi hlive => by
    refine ⟨(setFlag_live c i f).mp hlive, ?_, ?_⟩ <;> simp only [World.setFlag, setFlag_other f hi]
  running := List.Subset.refl _

/-- A hand-over attempt fails without a trace in the list, or makes the record stored. -/
theorem handOver_spec (h : Good w) {m : MgmtIdx} (hm : w.Controller m) (hlive : w.rl.LiveCtnt c)
    (hpar : (w.rl.ctnt c).parent ≠ some m) :
    Touches w (w.handleCached (some m) c).2 c ∧
    ((w.handleCached (some m) c).1 = .success → ((w.handleCached (some m) c).2.rl.ctnt c).flag.stored = true) ∧
    ((w.handleCached (some m) c).1 ≠ .success → (w.handleCached (some m) c).2.rl = w.rl) := by
  have hmove : Moves w (w.handleCached (some m) c).2 := .single (.handleCached w m c hm hlive hpar)
  obtain ⟨g, hg⟩ := h.rep
  simp only [World.handleCached, handleCachedBy] at hmove ⊢
  rcases handleCached_handedOver hg m hlive with heq | ⟨ld, rl', heq, ho⟩
  · rw [heq]
    refine ⟨touches_logged hlive (e := .handleCached w.rl (some m) c) trivial, ?_, fun _ => rfl⟩
    intro hs
    cases hs
  rw [heq] at hmove ⊢
  have hne : c ≠ ld := by rintro rfl; exact hpar ho.parent
  have hld : (w.rl.ctnt ld).flag.stored = true := h.loaded ld m ho.live ho.parent (h.ctrl m hm).2
  refine ⟨⟨⟨hmove, fun i hi hli => ?_, List.Subset.refl _⟩, ?_, ?_⟩, fun _ => ?_, fun hs => absurd rfl hs⟩
  · have hil : i ≠ ld := by rintro rfl; exact ho.freed hli
    simp only [World.logged, ResList.LiveCtnt] at hli ⊢
    rw [ho.ctnt i hil] at hli ⊢
    simp only [scResInfoDupCtnt, setCtnt_ctnt, Function.update_of_ne hi] at hli ⊢
    exact ⟨hli, trivial, trivial⟩
  · simp only [World.logged, ResList.LiveCtnt]
    rw [ho.ctnt c hne]
    exact (dupCtnt_links ..).1.trans hlive
  · simp only [World.logged]
    rw [ho.ctnt c hne]
    exact (dupCtnt_links ..).2
  · simp only [World.logged]
    rw [ho.ctnt c hne]
    simp only [dupCtnt_flag, if_pos, hld, Bool.or_true]

theorem handleCached_spec (h : Good w) (ht : Target w c) {ctrlLd : Option MgmtIdx}
    (hctrl : ctrlLd = w.youkuCtrlLd ∨ ctrlLd = w.sohuCtrlLd) :
    Touches w (w.handleCached ctrlLd c).2 c ∧
    ((w.handleCached ctrlLd c).1 = .success → ((w.handleCached ctrlLd c).2.rl.ctnt c).flag.stored = true) ∧
    ((w.handleCached ctrlLd c).1 ≠ .success → (w.handleCached ctrlLd c).2.rl = w.rl) := by
  cases ctrlLd with
  | none =>
    refine ⟨touches_logged ht.live (e := .handleCached w.rl none c) trivial, ?_, fun _ => rfl⟩
    intro hs
    cases hs
  | some m =>
    have hm : w.Controller m := hctrl.imp Eq.symm Eq.symm
    exact handOver_spec h hm ht.live (ht.parent m hm)

/-- A download attempt for `c` has ended with `ret`: on success the record is stored or Nginx is at
it, and otherwise it carries I_FAIL. -/
structure Attempted (w w' : World) (c : CtntIdx) (ret : HcResult) : Prop where
  touches : Touches w w' c
  held : LogSafe w' → ret = .success →
    (w'.rl.ctnt c).flag.stored = true ∨ (w'.rl.ctnt c).localpath ∈ w'.running
  failed : ret ≠ .success → (w'.rl.ctnt c).flag.iFail = true

/-- A failure is recorded on top of what the attempt has done so far. -/
theorem orIFail_attempted {r : HcResult × World} (h : Touches w r.2 c)
    (hheld : LogSafe r.2 → r.1 = .success →
      (r.2.rl.ctnt c).flag.stored = true ∨ (r.2.rl.ctnt c).localpath ∈ r.2.running) :
    Attempted w (orIFail c r).2 c (orIFail c r).1 := by
  unfold orIFail
  by_cases hret : r.1 = .success
  · rw [if_neg (by simp [hret])]
    exact ⟨h, hheld, fun hne => absurd hret hne⟩
  · rw [if_pos hret]
    refine ⟨h.trans (touches_setFlag h.live setIFail_keeps), fun _ hs => absurd hs hret, fun _ => ?_⟩
    simp only [World.setFlag, setFlag_self, setIFail]

/-- A download that Nginx has accepted runs under the path it was asked for. -/
theorem ngxDownload_running (ans : NgxAnswer) (url lp : Bytes) (hsafe : LogSafe (w.ngxDownload ans url lp).2)
    (hs : (w.ngxDownload ans url lp).1 = .success) : lp ∈ (w.ngxDownload ans url lp).2.running := by
  obtain ⟨hreq, hstarted⟩ := scNgxDownload_success hs
  have hkeyed : Keyed (scResCopyUrl url true) lp := hsafe.last hs
  simp only [World.ngxDownload, World.logged, hstarted, if_true, downloadKey_keyed hreq hkeyed, Option.toList_some]
  exact List.mem_append_left _ List.mem_cons_self

theorem ngxDownload_attempted (hc : w.rl.LiveCtnt c) (ans : NgxAnswer) (url : Bytes) :
    Attempted w (orIFail c (w.ngxDownload ans url (w.rl.ctnt c).localpath)).2 c
      (orIFail c (w.ngxDownload ans url (w.rl.ctnt c).localpath)).1 :=
  orIFail_attempted (touches_ngxDownload hc ans url _) fun hsafe hs => .inr (ngxDownload_running ans url _ hsafe hs)

theorem youkuDownload_attempted (h : Good w) (ht : Target w c) (ans : Answer) :
    Attempted w (scYoukuDownload w c ans).2 c (scYoukuDownload w c ans).1 := by
  have hts := touches_ngxDownload ht.live ans.ngx (w.rl.ctnt c).url (w.rl.ctnt c).localpath
  have hrun : LogSafe (w.ngxDownload ans.ngx (w.rl.ctnt c).url (w.rl.ctnt c).localpath).2 → _ :=
    ngxDownload_running ans.ngx (w.rl.ctnt c).url (w.rl.ctnt c).localpath
  have hrl : (w.ngxDownload ans.ngx (w.rl.ctnt c).url (w.rl.ctnt c).localpath).2.rl = w.rl := rfl
  unfold scYoukuDownload
  generalize w.ngxDownload ans.ngx (w.rl.ctnt c).url (w.rl.ctnt c).localpath = r at hts hrun hrl
  by_cases hex : r.1 = .errExists
  · simp only [hex, if_true]
    obtain ⟨htc, hst, -⟩ := handleCached_spec (h.moves hts.moves) (ht.touched hts) (.inl rfl)
    exact orIFail_attempted (hts.trans htc) fun _ hs => .inl (hst hs)
  · simp only [hex, if_false]
    refine orIFail_attempted hts fun hsafe hs => .inr ?_
    rw [hrl]
    exact hrun hsafe hs

theorem sohuStage_cases (h : Good w) (ht : Target w c) (session : Option Bytes) :
    (∃ w', sohuStage w c session = .exit w' ∧ Touches w w' c ∧ w'.rl = w.rl) ∨
    (∃ w' realUrl, sohuStage w c session = .download w' realUrl ∧ Touches w w' c ∧ w'.rl = w.rl) ∨
    ∃ w', sohuStage w c session = .cached w' ∧ (w.handleCached w.sohuCtrlLd c) = (.success, w') := by
  have hreal : ∀ {w'} response, Touches w w' c → w'.rl = w.rl →
      (∃ w'', sohuRealUrl w' response = .exit w'' ∧ Touches w w'' c ∧ w''.rl = w.rl) ∨
      ∃ w'' realUrl, sohuRealUrl w' response = .download w'' realUrl ∧ Touches w w'' c ∧ w''.rl = w.rl := by
    intro w' response htc hrl
    unfold sohuRealUrl
    cases sohuParseFileUrlResponse response with
    | none => exact .inl ⟨w', rfl, htc, hrl⟩
    | some realUrl => exact .inr ⟨w', realUrl, rfl, htc, hrl⟩
  have hsame : Touches w w c := .refl ht.live
  unfold sohuStage
  cases sohuHttpSession (w.rl.ctnt c).url session with
  | none => exact .inl ⟨w, rfl, hsame, rfl⟩
  | some response =>
    simp only
    cases httpParseStatusLine response with
    | none => exact .inl ⟨w, rfl, hsame, rfl⟩
    | some status =>
      simp only
      split_ifs
      · exact (hreal response hsame rfl).imp_right Or.inl
      · obtain ⟨htc, -, hfail⟩ := handleCached_spec h ht (.inr rfl)
        generalize w.handleCached w.sohuCtrlLd c = r at htc hfail
        obtain ⟨ret, w'⟩ := r
        by_cases hret : ret = .success
        · subst hret
          exact .inr (.inr ⟨w', rfl, rfl⟩)
        · cases ret with
          | success => exact absurd rfl hret
          | _ => exact (hreal response htc (hfail hret)).imp_right Or.inl
      · exact .inl ⟨w, rfl, hsame, rfl⟩

def SohuStage.world : SohuStage → World
  | .exit w => w
  | .cached w => w
  | .download w _ => w

/-- The first part of `sc_sohu_download` does nothing but try one hand-over. -/
theorem sohuStage_world (w : World) (c : CtntIdx) (session : Option Bytes) :
    (sohuStage w c session).world = w ∨ (sohuStage w c session).world = (w.handleCached w.sohuCtrlLd c).2 := by
  have hreal : ∀ w' response, (sohuRealUrl w' response).world = w' := by
    intro w' response
    unfold sohuRealUrl
    cases sohuParseFileUrlResponse response with
    | none => rfl
    | some realUrl => rfl
  unfold sohuStage
  cases sohuHttpSession (w.rl.ctnt c).url session with
  | none => exact .inl rfl
  | some response =>
    simp only
    cases httpParseStatusLine response with
    | none => exact .inl rfl
    | some status =>
      simp only
      split_ifs
      · exact .inl (hreal w response)
      · generalize w.handleCached w.sohuCtrlLd c = r
        obtain ⟨ret, w'⟩ := r
        cases ret with
        | success => exact .inr rfl
        | _ => exact .inr (hreal w' response)
      · exact .inl rfl

def World.sohuCalled (w : World) (c : CtntIdx) (session : Option Bytes) : World :=
  w.logged (.sohuDownload w.rl w.sohuCtrlLd c session)

theorem touches_sohuCalled (hc : w.rl.LiveCtnt c) (session : Option Bytes) :
    Touches w (w.sohuCalled c session) c := touches_logged hc trivial

theorem scSohuDownload_eq (w : World) (c : CtntIdx) (ans : Answer) :
    scSohuDownload w c ans = match sohuStage (w.sohuCalled c ans.session) c ans.session with
      | .exit w => (.errExotic, w)
      | .cached w => (.success, w)
      | .download w realUrl => orIFail c (w.ngxDownload ans.ngx realUrl (w.rl.ctnt c).localpath) := rfl

/-- `sc_sohu_download` takes one of its early exits, or makes a proper attempt. -/
theorem sohuDownload_cases (h : Good w) (ht : Target w c) (ans : Answer) :
    (∃ w', sohuStage (w.sohuCalled c ans.session) c ans.session = .exit w' ∧ w'.rl = w.rl ∧
      Touches (w.sohuCalled c ans.session) w' c ∧ scSohuDownload w c ans = (.errExotic, w')) ∨
    Attempted w (scSohuDownload w c ans).2 c (scSohuDownload w c ans).1 := by
  have hlog := touches_sohuCalled ht.live ans.session
  have ht' := ht.touched hlog
  have hg' := h.moves hlog.moves
  rw [scSohuDownload_eq]
  rcases sohuStage_cases hg' ht' ans.session with ⟨w', hst, htc, hrl⟩ | ⟨w', realUrl, hst, htc, -⟩ | ⟨w', hst, hok⟩
  · rw [hst]
    exact .inl ⟨w', rfl, hrl, htc, rfl⟩
  · rw [hst]
    have hn := ngxDownload_attempted htc.live ans.ngx realUrl
    exact .inr ⟨(hlog.trans htc).trans hn.touches, hn.held, hn.failed⟩
  · obtain ⟨htc, hstored, -⟩ := handleCached_spec hg' ht' (.inr rfl)
    rw [hok] at htc hstored
    rw [hst]
    exact .inr ⟨hlog.trans htc, fun _ _ => .inl (hstored rfl), fun hne => absurd rfl hne⟩

theorem retryDownload_cases (h : Good w) (ht : Target w c) (ans : Answer) :
    (∃ w', sohuStage (w.sohuCalled c ans.session) c ans.session = .exit w' ∧ w'.rl = w.rl ∧
      Touches (w.sohuCalled c ans.session) w' c ∧ scResRetryDownload w c ans = (.errExotic, w')) ∨
    Attempted w (scResRetryDownload w c ans).2 c (scResRetryDownload w c ans).1 := by
  obtain ⟨g, hg⟩ := h.rep
  have hct : scResInfoIsCtnt (w.rl.ctnt c).toResInfo = true := by simp [scResInfoIsCtnt, hg.genCtnt c]
  unfold scResRetryDownload
  simp only [hct, Bool.not_true, Bool.false_eq_true, if_false]
  split
  · exact sohuDownload_cases h ht ans
  · exact .inr (youkuDownload_attempted h ht ans)
  · exact .inr (ngxDownload_attempted ht.live ans.ngx _)

/-- A successful addition leaves the other records alone; the new one is live and under `m`. -/
theorem addCtnt_some (h : Good w) {m : MgmtIdx} (hm : w.rl.LiveMgmt m) {url : Bytes} {delOk : Bool}
    {c : CtntIdx} (hc : (w.addCtnt m url delOk).1 = some c) :
    OthersKept w (w.addCtnt m url delOk).2 c ∧ (w.addCtnt m url delOk).2.rl.LiveCtnt c ∧
    ((w.addCtnt m url delOk).2.rl.ctnt c).parent = some m := by
  have hmove : Moves w (w.addCtnt m url delOk).2 := .single (.addCtnt w m url delOk hm)
  obtain ⟨g, hg⟩ := h.rep
  rcases w.addCtnt_cases hg m url delOk with ⟨-, heq⟩ | ⟨i, l, -, -, heq⟩ | ⟨i, l, lp, -, -, -, heq⟩
  · rw [heq] at hc
    cases hc
  · rw [heq] at hc
    cases hc
  · rw [heq] at hc hmove ⊢
    obtain rfl : i = c := Option.some.inj hc
    refine ⟨⟨hmove, fun j hj hlive => ?_, List.Subset.refl _⟩, ?_, ?_⟩
    · simp only [World.logged, ctntAdded_liveCtnt hj, ctntAdded_other hj] at hlive ⊢
      exact ⟨hlive, trivial, trivial⟩
    · simp only [World.logged, ResList.LiveCtnt, ctntAdded_self, newCtnt]
    · simp only [World.logged, ctntAdded_self]

/-- A failed addition writes at most to a free slot. -/
theorem addCtnt_none (h : Good w) {m : MgmtIdx} {url : Bytes} {delOk : Bool} (hm : w.rl.LiveMgmt m)
    (hc : (w.addCtnt m url delOk).1 = none) :
    ((w.addCtnt m url delOk).2.rl = w.rl ∧ (w.addCtnt m url delOk).2.running = w.running) ∨
    ∃ c, OthersKept w (w.addCtnt m url delOk).2 c ∧ ¬ (w.addCtnt m url delOk).2.rl.LiveCtnt c := by
  have hmove : Moves w (w.addCtnt m url delOk).2 := .single (.addCtnt w m url delOk hm)
  obtain ⟨g, hg⟩ := h.rep
  rcases w.addCtnt_cases hg m url delOk with ⟨-, heq⟩ | ⟨i, l, hf, -, heq⟩ | ⟨i, l, lp, -, -, -, heq⟩
  · rw [heq]
    exact .inl ⟨rfl, rfl⟩
  · rw [heq] at hmove ⊢
    have hdead : ¬ w.rl.LiveCtnt i := by simp [hg.liveCtnt_iff, hf]
    refine .inr ⟨i, ⟨hmove, fun j hj hlive => ?_, List.Subset.refl _⟩, fun hlive => ?_⟩
    · refine ⟨(setFlag_live i j fun _ => {}).mp hlive, ?_, ?_⟩ <;> simp only [World.logged, setFlag_other _ hj]
    · exact hdead ((setFlag_live i i fun _ => {}).mp hlive)
  · rw [heq] at hc
    cases hc

theorem Good.target (h : Good w) {m : MgmtIdx} (hlive : w.rl.LiveCtnt c)
    (hpar : (w.rl.ctnt c).parent = some m)
    (hgen : (w.rl.mgmt m).gen ≠ .ctrlLd) : Target w c :=
  ⟨hlive, fun i hi heq => hgen (by rw [Option.some.inj (hpar.symm.trans heq)]; exact (h.ctrl i hi).2)⟩

theorem Good.target_of_unstored (h : Good w) (hlive : w.rl.LiveCtnt c)
    (hst : (w.rl.ctnt c).flag.stored = false) :
    Target w c :=
  ⟨hlive, fun i hi heq => by simpa [hst] using h.loaded c i hlive heq (h.ctrl i hi).2⟩

end Functions

end HotCache
