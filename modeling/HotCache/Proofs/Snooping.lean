import HotCache.Proofs.Datagram
import HotCache.Proofs.Keys
import HotCache.Proofs.Youku
import HotCache.Spec.Snooping

/-! Requests over a network that loses, repeats and reorders datagrams. A request that has been answered
with OK is registered, and a registered resource stays registered; so its repetitions are answered
alike and change nothing, at any later time. -/

namespace HotCache

open CStr FreeList

section Bytes

variable {buf dgram urlData beyond : Bytes}

theorem getD_set_ne {i j : ℕ} (h : i ≠ j) (a : UInt8) : (buf.set i a).getD j 0 = buf.getD j 0 := by
  simp [List.getD_eq_getElem?_getD, List.getElem?_set_ne h]

theorem swapUrlLen_set (a : UInt8) :
    (swapUrlLen buf).set SP2C_ACTION_OFFSET a = swapUrlLen (buf.set SP2C_ACTION_OFFSET a) := by
  unfold swapUrlLen
  rw [getD_set_ne (by decide), getD_set_ne (by decide), List.set_comm (buf.getD SP2C_URL_LEN_OFFSET 0) a (by decide),
    List.set_comm _ a (by decide)]

theorem swapUrlLen_swapUrlLen (h : SP2C_URL_DATA_OFFSET ≤ buf.length) : swapUrlLen (swapUrlLen buf) = buf := by
  have h8 : 8 < buf.length := lt_of_lt_of_le (by decide) h
  have h9 : 9 < buf.length := lt_of_lt_of_le (by decide) h
  refine List.ext_getElem? fun i => ?_
  simp only [swapUrlLen, SP2C_URL_LEN_OFFSET, List.getD_eq_getElem?_getD, List.getElem?_set, List.length_set, h8, h9,
    List.getElem?_eq_getElem, if_true]
  by_cases hi9 : i = 9
  · subst hi9
    simp [h9]
  · by_cases hi8 : i = 8
    · subst hi8
      simp [h8]
    · simp [Ne.symm hi9, Ne.symm hi8]

/-- What the checks of `sc_snooping_serve` say. -/
theorem check_some {action : Sp2cAction} (h : scSnoopingCheck dgram = some (action, urlData)) :
    SP2C_REQ_PKT_SIZE ≤ (dgram.take SC_SNOOPING_SND_RCV_BUF_LEN).length ∧
      urlData = (recvBuf dgram).drop SP2C_URL_DATA_OFFSET ∧
      (action = .down → dgram.getD SP2C_ACTION_OFFSET 0 = HTTP_SP2C_ACTION_DOWN) := by
  have hact : SP2C_REQ_PKT_SIZE ≤ (dgram.take SC_SNOOPING_SND_RCV_BUF_LEN).length →
      (recvBuf dgram).getD SP2C_ACTION_OFFSET 0 = dgram.getD SP2C_ACTION_OFFSET 0 := by
    intro hlen
    have h4 : 4 < (dgram.take SC_SNOOPING_SND_RCV_BUF_LEN).length := lt_of_lt_of_le (by decide) hlen
    simp only [recvBuf, SP2C_ACTION_OFFSET, List.getD_eq_getElem?_getD]
    rw [List.getElem?_append_left h4, List.getElem?_take_of_lt (by decide)]
  unfold scSnoopingCheck at h
  dsimp only at h
  split_ifs at h with hlen hurl hparse hdown
  · obtain ⟨rfl, rfl⟩ := Prod.mk.inj (Option.some.inj h)
    exact ⟨not_lt.mp hlen, rfl, fun hd => by cases hd⟩
  · obtain ⟨rfl, rfl⟩ := Prod.mk.inj (Option.some.inj h)
    exact ⟨not_lt.mp hlen, rfl, fun _ => (hact (not_lt.mp hlen)).symm.trans hdown⟩

theorem respToSp_eq {action : Sp2cAction} (h : scSnoopingCheck dgram = some (action, urlData)) (status : Status) :
    (scSnoopingRespToSp (swapUrlLen (recvBuf dgram)) status).1 = spReply dgram status := by
  obtain ⟨hlen, -⟩ := check_some h
  have hbuf : SP2C_URL_DATA_OFFSET ≤ ((recvBuf dgram).set SP2C_ACTION_OFFSET status.code).length := by
    rw [List.length_set]
    simp only [recvBuf, List.length_append]
    exact le_trans (by decide) (le_trans hlen (Nat.le_add_right _ _))
  have htake : (recvBuf dgram).take SP2C_RES_PKT_SIZE = dgram.take SP2C_RES_PKT_SIZE := by
    simp only [recvBuf]
    rw [List.take_append_of_le_length (show SP2C_RES_PKT_SIZE ≤ _ from hlen), List.take_take]
    rfl
  have h4 : SP2C_ACTION_OFFSET < (dgram.take SP2C_RES_PKT_SIZE).length := by
    rw [List.length_take] at hlen ⊢
    simp only [SP2C_REQ_PKT_SIZE, SC_SNOOPING_SND_RCV_BUF_LEN] at hlen
    simp only [SP2C_ACTION_OFFSET, SP2C_RES_PKT_SIZE]
    omega
  simp only [scSnoopingRespToSp]
  rw [swapUrlLen_set, swapUrlLen_swapUrlLen hbuf, List.take_set, htake, List.set_eq_take_append_cons_drop, if_pos h4,
    List.take_take, List.drop_take]
  rfl

theorem reqUrl_eq {action : Sp2cAction} (h : scSnoopingCheck dgram = some (action, urlData))
    (hends : 0 ∈ (dgram.drop SP2C_URL_DATA_OFFSET).take HTTP_SP_URL_LEN_MAX) (beyond : Bytes) :
    reqUrl urlData beyond = cstr (dgram.drop SP2C_URL_DATA_OFFSET) := by
  have hurl := check_urlData h
  have hcut : ∀ s : Bytes, s.take HTTP_SP_URL_LEN_MAX = (dgram.drop SP2C_URL_DATA_OFFSET).take HTTP_SP_URL_LEN_MAX →
      cstr s = cstr ((dgram.drop SP2C_URL_DATA_OFFSET).take HTTP_SP_URL_LEN_MAX) := by
    intro s hs
    rw [← List.take_append_drop HTTP_SP_URL_LEN_MAX s, hs]
    exact cstr_append hends _
  have hmem : 0 ∈ urlData := by
    rw [← hurl] at hends
    exact List.mem_of_mem_take hends
  rw [reqUrl, cstr_append hmem, hcut urlData hurl, hcut _ rfl]

end Bytes

section Registered

variable [L : Layout] {w w' : World} {url : Bytes}

def Registered (w : World) (url : Bytes) : Prop := ∃ m, w.rl.LiveMgmt m ∧ (w.rl.mgmt m).url = url

theorem Registered.moves (h : Registered w url) (hg : Good w) (hm : Moves w w') : Registered w' url := by
  obtain ⟨m, hlive, rfl⟩ := h
  exact ⟨m, (hm.liveMgmt hg hlive).1, congrArg ResInfo.url (Moves.mgmtInfo hg hm hlive)⟩

omit L in
theorem Registered.found (h : Registered w url) : ∃ m, scResInfoFindMgmt w.rl url = some m := by
  obtain ⟨m, -, hm⟩ := h
  refine Option.ne_none_iff_exists'.mp fun hnone => ?_
  exact findMgmt_none.mp hnone m hm

/-- A slot that is not in use has no url. -/
theorem registered_of_found (hg : Good w) {m : MgmtIdx} (hurl : url ≠ []) (h : scResInfoFindMgmt w.rl url = some m) :
    Registered w url := by
  obtain ⟨g, hrep⟩ := hg.rep
  have hm : (w.rl.mgmt m).url = url := by simpa using List.find?_some h
  refine ⟨m, ?_, hm⟩
  rw [hrep.liveMgmt_iff]
  intro hfree
  rw [hrep.freeMgmt m hfree] at hm
  exact hurl hm.symm

omit L in
theorem genOriginUrl_ne_nil {reqUrl originUrl : Bytes} (h : scResGenOriginUrl reqUrl = some originUrl) :
    originUrl ≠ [] := by
  unfold scResGenOriginUrl at h
  split_ifs at h
  · rw [ykGenOriginUrl_eq, Option.map_eq_some_iff] at h
    obtain ⟨buf, -, rfl⟩ := h
    exact List.append_ne_nil_of_left_ne_nil (by decide) _
  · rw [sohuGenOriginUrl_eq, Option.map_eq_some_iff] at h
    obtain ⟨⟨tag, buf⟩, hp, rfl⟩ := h
    rcases sohuOriginBuf_tag hp with rfl | rfl
    · simp [bytes]
    · simp [bytes]

theorem registered_of_added (hg : Good w) {gen : Gen} (hask : Asked w url gen) {m : MgmtIdx} {rl : ResList}
    (hcopy : scResCopyUrl url true = url) (heq : scResInfoAddMgmt gen true w.rl url = (some m, rl)) :
    Registered { w with rl := rl } url := by
  obtain ⟨-, hsrc⟩ := addMgmt_ops hg hask heq
  exact ⟨m, (hsrc m rfl).live, (addMgmt_url heq).trans hcopy⟩

def World.normalAsked (w : World) (url : Bytes) : World := w.logged (.addNormal w.rl url)

theorem normalAsked_spec (h : Good w) (hnew : scResInfoFindMgmt w.rl url = none) :
    Good (w.normalAsked url) ∧ Asked (w.normalAsked url) url .normal :=
  ⟨h.logged trivial, .normal hnew (by simp [World.normalAsked, World.logged])⟩

/-- `sc_snooping_do_down` finds the url, or fails to add it, or goes on from where it is added. -/
theorem doDown_registers (h : Good w) (url : Bytes) (ans : Answer) :
    (∃ m, scResInfoFindMgmt w.rl url = some m ∧ scSnoopingDoDown w url ans = (.ok, w)) ∨
    (scSnoopingDoDown w url ans).1 = .defaultError ∨
    ∃ normal rl, scResInfoFindMgmt w.rl url = none ∧ scResInfoAddNormal w.rl url = (some normal, rl) ∧
      Ops { w.normalAsked url with rl := rl } (scSnoopingDoDown w url ans).2 := by
  unfold scSnoopingDoDown
  split
  next m hfind => exact .inl ⟨m, hfind, rfl⟩
  next hnew =>
    right
    obtain ⟨hg, hask⟩ := normalAsked_spec h hnew
    dsimp only
    cases heq : scResInfoAddNormal (w.logged (.addNormal w.rl url)).rl url with
    | mk o rl =>
      obtain ⟨hops, hsrc⟩ := addMgmt_ops hg hask heq
      cases o with
      | none => exact .inl rfl
      | some normal =>
        refine .inr ⟨normal, rl, hnew, heq, ?_⟩
        dsimp only
        split
        next w₂ heq₂ => exact addCtnt_ops (hsrc normal rfl).live heq₂
        next c w₂ heq₂ =>
          exact added_ops (hops.good hg) (hsrc normal rfl) heq₂ fun _ hp _ => ngxDownload_ops hp.live ans.ngx _

theorem doParse_registers (h : Good w) (reqUrl : Bytes) (ans : ParseAnswer) :
    (scResGenOriginUrl reqUrl = none ∧ scSnoopingDoParse w reqUrl ans = (.ok, w)) ∨
    ∃ originUrl, scResGenOriginUrl reqUrl = some originUrl ∧
      ((∃ m, scResInfoFindMgmt w.rl originUrl = some m ∧ scSnoopingDoParse w reqUrl ans = (.ok, w)) ∨
      (scSnoopingDoParse w reqUrl ans).1 = .defaultError ∨
      ∃ origin rl, scResInfoFindMgmt w.rl originUrl = none ∧ scResInfoAddOrigin w.rl originUrl = (some origin, rl) ∧
        Ops { w with rl := rl } (scSnoopingDoParse w reqUrl ans).2) := by
  unfold scSnoopingDoParse
  cases hgen : scResGenOriginUrl reqUrl with
  | none => exact .inl ⟨rfl, rfl⟩
  | some originUrl =>
    refine .inr ⟨originUrl, rfl, ?_⟩
    dsimp only
    cases hfind : scResInfoFindMgmt w.rl originUrl with
    | some m => exact .inl ⟨m, rfl, rfl⟩
    | none =>
      right
      cases heq : scResInfoAddOrigin w.rl originUrl with
      | mk o rl =>
        obtain ⟨hops, hsrc⟩ := addMgmt_ops h (.origin hfind (genOriginUrl_copy hgen)) heq
        cases o with
        | none => exact .inl rfl
        | some origin =>
          have hs := hsrc origin rfl
          refine .inr ⟨origin, rl, rfl, rfl, ?_⟩
          dsimp only
          split
          next hsite =>
            rw [hsite] at hs
            exact ykVideo_ops ans (hops.good h) hs
          next hsite =>
            rw [hsite] at hs
            exact sohuVideo_ops ans (hops.good h) hs
          · exact .refl

theorem doDown_ok (h : Good w) {ans : Answer} (hurl : url ≠ []) (hcopy : scResCopyUrl url true = url)
    (hok : (scSnoopingDoDown w url ans).1 = .ok) : Registered (scSnoopingDoDown w url ans).2 url := by
  rcases doDown_registers h url ans with ⟨m, hfind, heq⟩ | herr | ⟨normal, rl, hnew, heq, hops⟩
  · rw [heq]
    exact registered_of_found h hurl hfind
  · rw [hok] at herr
    cases herr
  · obtain ⟨hg, hask⟩ := normalAsked_spec h hnew
    exact (registered_of_added hg hask hcopy heq).moves ((addMgmt_ops hg hask heq).1.good hg) hops.moves

theorem doParse_ok (h : Good w) {reqUrl originUrl : Bytes} {ans : ParseAnswer}
    (hgen : scResGenOriginUrl reqUrl = some originUrl) (hok : (scSnoopingDoParse w reqUrl ans).1 = .ok) :
    Registered (scSnoopingDoParse w reqUrl ans).2 originUrl := by
  rcases doParse_registers h reqUrl ans with ⟨hnone, -⟩ | ⟨url, hurl, hcases⟩
  · rw [hgen] at hnone
    cases hnone
  · obtain rfl : originUrl = url := Option.some.inj (hgen.symm.trans hurl)
    rcases hcases with ⟨m, hfind, heq⟩ | herr | ⟨origin, rl, hnew, heq, hops⟩
    · rw [heq]
      exact registered_of_found h (genOriginUrl_ne_nil hgen) hfind
    · rw [hok] at herr
      cases herr
    · have hask : Asked w originUrl .origin := .origin hnew (genOriginUrl_copy hgen)
      have hg := (addMgmt_ops h hask heq).1.good h
      exact (registered_of_added h hask (genOriginUrl_copy hgen) heq).moves hg hops.moves

theorem doDown_again {ans : Answer} (h : Registered w url) : scSnoopingDoDown w url ans = (.ok, w) := by
  obtain ⟨m, hm⟩ := h.found
  unfold scSnoopingDoDown
  rw [hm]

theorem doParse_again {reqUrl : Bytes} {ans : ParseAnswer}
    (h : ∀ originUrl, scResGenOriginUrl reqUrl = some originUrl → Registered w originUrl) :
    scSnoopingDoParse w reqUrl ans = (.ok, w) := by
  unfold scSnoopingDoParse
  cases hgen : scResGenOriginUrl reqUrl with
  | none => rfl
  | some originUrl =>
    obtain ⟨m, hm⟩ := (h originUrl hgen).found
    dsimp only
    rw [hm]

/-- What a datagram asks for is registered. -/
def Known (w : World) (dgram : Bytes) : Prop :=
  ∃ action urlData, scSnoopingCheck dgram = some (action, urlData) ∧
    match action with
    | .parse => ∀ originUrl, scResGenOriginUrl (cstr (dgram.drop SP2C_URL_DATA_OFFSET)) = some originUrl →
        Registered w originUrl
    | .down => Registered w (cstr (dgram.drop SP2C_URL_DATA_OFFSET))

theorem Known.moves {dgram : Bytes} (h : Known w dgram) (hg : Good w) (hm : Moves w w') : Known w' dgram := by
  obtain ⟨action, urlData, hcheck, hknown⟩ := h
  refine ⟨action, urlData, hcheck, ?_⟩
  cases action with
  | parse => exact fun originUrl hgen => (hknown originUrl hgen).moves hg hm
  | down => exact hknown.moves hg hm

/-- A datagram for something registered is answered with OK, and changes nothing. -/
theorem Known.again {dgram : Bytes} (h : Known w dgram)
    (hends : 0 ∈ (dgram.drop SP2C_URL_DATA_OFFSET).take HTTP_SP_URL_LEN_MAX) (beyond : Bytes) (parseAns : ParseAnswer)
    (downAns : Answer) : scSnoopingServeReply w dgram beyond parseAns downAns = (some (spReply dgram .ok), w) := by
  obtain ⟨action, urlData, hcheck, hknown⟩ := h
  have hurl := reqUrl_eq hcheck hends beyond
  have hresp := respToSp_eq hcheck .ok
  unfold scSnoopingServeReply
  rw [hcheck]
  cases action with
  | parse =>
    dsimp only
    rw [hurl, doParse_again hknown]
    dsimp only
    rw [hresp]
  | down =>
    dsimp only
    rw [hurl, doDown_again hknown]
    dsimp only
    rw [hresp]

/-- Every reply is the echo of its request, and one that says OK is true. -/
theorem serveReply_spec {dgram beyond reply : Bytes} {parseAns : ParseAnswer} {downAns : Answer} (h : Good w)
    (hserve : scSnoopingServeReply w dgram beyond parseAns downAns = (some reply, w')) :
    ∃ status, reply = spReply dgram status ∧ (status = .ok → Recognised dgram → Known w' dgram) := by
  unfold scSnoopingServeReply at hserve
  cases hcheck : scSnoopingCheck dgram with
  | none =>
    rw [hcheck] at hserve
    cases hserve
  | some p =>
    obtain ⟨action, urlData⟩ := p
    rw [hcheck] at hserve
    cases action with
    | parse =>
      dsimp only at hserve
      cases hdo : scSnoopingDoParse w (reqUrl urlData beyond) parseAns with
      | mk status w₁ =>
        rw [hdo] at hserve
        obtain ⟨hreply, rfl⟩ := Prod.mk.inj hserve
        rw [respToSp_eq hcheck] at hreply
        refine ⟨status, (Option.some.inj hreply).symm, fun hok hrec => ⟨.parse, urlData, hcheck, fun url hgen => ?_⟩⟩
        rw [reqUrl_eq hcheck hrec.1 beyond] at hdo
        have hdone : (scSnoopingDoParse w (cstr (dgram.drop SP2C_URL_DATA_OFFSET)) parseAns).1 = .ok := by
          rw [hdo]
          exact hok
        have hreg := doParse_ok h hgen hdone
        rwa [hdo] at hreg
    | down =>
      dsimp only at hserve
      cases hdo : scSnoopingDoDown w (reqUrl urlData beyond) downAns with
      | mk status w₁ =>
        rw [hdo] at hserve
        obtain ⟨hreply, rfl⟩ := Prod.mk.inj hserve
        rw [respToSp_eq hcheck] at hreply
        refine ⟨status, (Option.some.inj hreply).symm, fun hok hrec => ⟨.down, urlData, hcheck, ?_⟩⟩
        obtain ⟨hne, hno⟩ := hrec.2 ((check_some hcheck).2.2 rfl)
        rw [reqUrl_eq hcheck hrec.1 beyond] at hdo
        have hdone : (scSnoopingDoDown w (cstr (dgram.drop SP2C_URL_DATA_OFFSET)) downAns).1 = .ok := by
          rw [hdo]
          exact hok
        have hreg := doDown_ok h hne (by simp [scResCopyUrl, hno]) hdone
        rwa [hdo] at hreg

end Registered

section Network

variable [L : Layout] {w w' : World}

/-- The reply is beside the round. -/
theorem serveReply_snd (w : World) (dgram beyond : Bytes) (parseAns : ParseAnswer) (downAns : Answer) :
    (scSnoopingServeReply w dgram beyond parseAns downAns).2 = scSnoopingServe w dgram beyond parseAns downAns := by
  unfold scSnoopingServeReply scSnoopingServe
  cases scSnoopingCheck dgram with
  | none => rfl
  | some r =>
    obtain ⟨action, urlData⟩ := r
    cases action with
    | parse => rfl
    | down => dsimp only

theorem serveReply_servesTo {dgram beyond : Bytes} {parseAns : ParseAnswer} {downAns : Answer} {reply : Option Bytes}
    (h : scSnoopingServeReply w dgram beyond parseAns downAns = (reply, w')) : ServesTo w w' := by
  have hw : scSnoopingServe w dgram beyond parseAns downAns = w' := by rw [← serveReply_snd, h]
  rcases serve_step w dgram beyond parseAns downAns with heq | hstep
  · rw [← hw, heq]
    exact .refl
  · rw [← hw]
    exact .single hstep

theorem snoopingService_keeps : snoopingService.Keeps Served where
  init := .refl
  own _ _ h hs := h.tail hs.serve
  serves w dgram reply w' h hs := by
    obtain ⟨beyond, parseAns, downAns, hserve⟩ := hs
    exact h.servesTo (serveReply_servesTo hserve)

omit L in
theorem spReply_inj {dgram : Bytes} {a b : Status} (h : spReply dgram a = spReply dgram b) : a = b := by
  unfold spReply at h
  have hcode := (List.cons.inj (List.append_cancel_left h)).1
  cases a with
  | ok => cases b with
    | ok => rfl
    | defaultError => exact absurd hcode (by decide)
  | defaultError => cases b with
    | ok => exact absurd hcode (by decide)
    | defaultError => rfl

/-- Over any network that loses, repeats and reorders requests and replies, and whatever else the program
does in between: every reply is the echo of a request that was answered, and a request that has once
been answered with OK is answered with OK again at any later time, and then changes nothing. -/
theorem answers_stay_true {n : Datagram.Net World Bytes Bytes} (h : snoopingService.Reachable n) :
    Served n.state ∧
    (∀ reply ∈ n.replies, ∃ dgram status, (dgram, reply) ∈ n.answered ∧ reply = spReply dgram status) ∧
    ∀ dgram, (dgram, spReply dgram .ok) ∈ n.answered → Recognised dgram → ∀ beyond parseAns downAns,
      scSnoopingServeReply n.state dgram beyond parseAns downAns = (some (spReply dgram .ok), n.state) := by
  have hP : ∀ dgram reply, (dgram, reply) ∈ n.answered →
      ∃ status, reply = spReply dgram status ∧ (status = .ok → Recognised dgram → Known n.state dgram) := by
    refine h.answered_holds (P := fun dgram reply w => ∃ status, reply = spReply dgram status ∧
      (status = .ok → Recognised dgram → Known w dgram)) snoopingService_keeps ?_ ?_ ?_
    · rintro w dgram reply w' hw ⟨beyond, parseAns, downAns, hserve⟩
      exact serveReply_spec hw.good hserve
    · rintro dgram reply w dgram' reply' w' hw ⟨status, heq, hknown⟩ ⟨beyond, parseAns, downAns, hserve⟩
      have hops := (serveReply_servesTo hserve).ops hw.good
      exact ⟨status, heq, fun hok hrec => (hknown hok hrec).moves hw.good hops.moves⟩
    · rintro dgram reply w w' hw ⟨status, heq, hknown⟩ hown
      have hops := hown.serve.ops hw.good
      exact ⟨status, heq, fun hok hrec => (hknown hok hrec).moves hw.good hops.moves⟩
  refine ⟨snoopingService_keeps.reachable h, fun reply hreply => ?_, fun dgram hans hrec beyond parseAns downAns => ?_⟩
  · obtain ⟨dgram, hans⟩ := h.replies_answered reply hreply
    obtain ⟨status, heq, -⟩ := hP dgram reply hans
    exact ⟨dgram, status, hans, heq⟩
  · obtain ⟨status, heq, hknown⟩ := hP dgram _ hans
    exact (hknown (spReply_inj heq).symm hrec).again hrec.1 beyond parseAns downAns

end Network

def downRequest : Bytes := datagram HTTP_SP2C_ACTION_DOWN (bytes "f.youku.com/a.flv" ++ List.replicate 585 0)

def unreachable : Answer := ⟨none, .failed false, true⟩

def downServed : Option Bytes × World :=
  @scSnoopingServeReply sampleLayout (@scLdInit sampleLayout) downRequest [] ⟨none, none, fun _ => unreachable⟩
    unreachable

/-- The request arrives, is answered, and arrives again. -/
theorem answers_stay_true_down :
    (downServed.2.rl.ctnt 4095).flag.iFail = true ∧ ∀ beyond parseAns downAns,
      @scSnoopingServeReply sampleLayout downServed.2 downRequest beyond parseAns downAns =
        (some (spReply downRequest .ok), downServed.2) := by
  have hreply : downServed.1 = some (spReply downRequest .ok) := by decide +kernel
  have hserve : downServed = (some (spReply downRequest .ok), downServed.2) := by rw [← hreply]
  have hserves : (@snoopingService sampleLayout).serves (@scLdInit sampleLayout) downRequest
      (some (spReply downRequest .ok)) downServed.2 := by
    refine ⟨[], ⟨none, none, fun _ => unreachable⟩, unreachable, ?_⟩
    rw [← hserve, downServed]
  have hsent : (@snoopingService sampleLayout).Reachable ⟨@scLdInit sampleLayout, [downRequest], [], []⟩ :=
    .single (.send { state := @scLdInit sampleLayout } downRequest)
  have hin : downRequest ∈ [downRequest] := List.mem_singleton_self _
  have hstep := Datagram.Service.Step.serve (S := @snoopingService sampleLayout)
    ⟨@scLdInit sampleLayout, [downRequest], [], []⟩ downRequest _ _ hin hserves
  have hserved : (@snoopingService sampleLayout).Reachable _ := hsent.tail hstep
  have hrec : Recognised downRequest := by
    refine ⟨?_, fun _ => ?_⟩
    · decide +kernel
    · decide +kernel
  obtain ⟨-, -, hagain⟩ := @answers_stay_true sampleLayout _ hserved
  dsimp only at hagain
  have hans := Datagram.Service.mem_answered downRequest (spReply downRequest .ok) []
  have hfinal := hagain downRequest hans hrec
  refine ⟨?_, hfinal⟩
  decide +kernel

end HotCache
