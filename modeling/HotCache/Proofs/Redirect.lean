import HotCache.Lib.Remote
import HotCache.Proofs.Carried
import HotCache.Proofs.Origin
import HotCache.Spec.Redirect

/-! The redirections of the Snooping module and the cached records. What the module redirects is cached, and
what the program holds for announced is redirected, over a network that loses, delays and repeats. -/

namespace HotCache

open CStr Remote

section Packets

theorem cstr_zeros (s : Bytes) (n : ℕ) : cstr (s ++ List.replicate n 0) = cstr s := by
  by_cases h : 0 ∈ s
  · exact cstr_append h _
  · cases n with
    | zero => rw [List.replicate_zero, List.append_nil]
    | succ n =>
      rw [List.replicate_succ, cstr_terminated h]
      exact (List.takeWhile_eq_self_iff.mpr (ne_of_notMem h)).symm

variable (act : UInt8) (sid : ℕ) (url : Bytes)

theorem pkt_action : (scC2spReqPkt act sid url).getD SP2C_ACTION_OFFSET 0 = act := rfl

theorem pkt_url : c2spUrl (scC2spReqPkt act sid url) = redirectUrl url := by
  have hdrop (copy : Bytes) (zeros : ℕ) : ((u32Bytes sid ++ [act, 0, 0, 0] ++
      [UInt8.ofNat (url.length / 2 ^ 8), UInt8.ofNat url.length] ++ copy ++ List.replicate zeros 0).take
        C2SP_REQ_PKT_SIZE).drop SP2C_URL_DATA_OFFSET = (copy ++ List.replicate zeros 0).take 602 := by
    rw [List.drop_take, List.append_assoc, List.drop_left' (show _ = SP2C_URL_DATA_OFFSET from rfl)]
    rfl
  rw [c2spUrl, scC2spReqPkt, hdrop, List.take_take, List.take_append, List.take_replicate, cstr_zeros]
  rfl

/-- A url of a record, which is shorter than `usr_data`, is sent in full. -/
theorem redirectUrl_eq {url : Bytes} (h0 : 0 ∉ url) (hlen : url.length < HTTP_SP_URL_LEN_MAX)
    (hpre : startsWith url HTTP_URL_PREFIX = false) : redirectUrl url = url := by
  have hcopy : scResCopyUrl url true = url := by simp [scResCopyUrl, hpre]
  rw [redirectUrl, hcopy, List.take_of_length_le hlen.le]
  exact List.takeWhile_eq_self_iff.mpr (ne_of_notMem h0)

theorem initiateAction_pkt {act : UInt8} {sid : ℕ} {url : Bytes} {ans : SnoopAnswer} {pkt : Bytes}
    (h : (scSnoopingInitiateAction act sid url ans).1 = some pkt) : pkt = scC2spReqPkt act sid url := by
  unfold scSnoopingInitiateAction at h
  split_ifs at h
  cases ans with
  | noSocket => cases h
  | sendFailed => cases h
  | recvFailed => exact (Option.some.inj h).symm
  | reply dgram => exact (Option.some.inj h).symm

theorem initiateAction_sent {act : UInt8} {sid : ℕ} {url : Bytes} {ans : SnoopAnswer}
    (h : (scSnoopingInitiateAction act sid url ans).2 = true) :
    (scSnoopingInitiateAction act sid url ans).1 = some (scC2spReqPkt act sid url) := by
  unfold scSnoopingInitiateAction at h ⊢
  split_ifs at h ⊢
  cases ans with
  | noSocket => cases h
  | sendFailed => cases h
  | recvFailed => cases h
  | reply dgram => rfl

end Packets

section Calls

variable [L : Layout]

/-- The call that a function has made: the request that was sent, and the result. -/
def callOf (r : Option Bytes × Bool) : Option (Bytes × Bool) := r.1.map (·, r.2)

/-- `sc_res_notify_ri_url` calls `sc_snooping_do_add` with the id of the record. -/
def notifyCall (w : World) (c : CtntIdx) (ans : SnoopAnswer) : Option (Bytes × Bool) :=
  let ri := (w.rl.ctnt c).toResInfo
  if scResInfoIsCtnt ri && ri.flag.stored && !ri.flag.notify then callOf (scSnoopingDoAdd c ri.url ans) else none

/-- `sc_res_info_add_ctnt` calls `sc_snooping_do_del` for a record of a controller. -/
def addCtntCall (w : World) (m : MgmtIdx) (url : Bytes) (ans : SnoopAnswer) : Option (Bytes × Bool) :=
  if scResInfoPermitAdding url && decide (url.length < HTTP_URL_MAX_LEN) && decide ((w.rl.mgmt m).gen = .ctrlLd)
  then callOf (scSnoopingDoDel NO_SESSION url ans) else none

/-- An operation of the program with the call that it makes to the Snooping module. -/
inductive CallStep : World → Option (Bytes × Bool) → World → Prop
  | mute (w w' : World) (h : MuteOp w w') : CallStep w none w'
  | addCtnt (w : World) (m : MgmtIdx) (url : Bytes) (ans : SnoopAnswer) (hm : w.rl.LiveMgmt m) :
      CallStep w (addCtntCall w m url ans) (w.addCtnt m url (scSnoopingDoDel NO_SESSION url ans).2).2
  | notify (w : World) (c : CtntIdx) (ans : SnoopAnswer) (hc : w.rl.LiveCtnt c) :
      CallStep w (notifyCall w c ans) (scResNotifyRiUrl w c (scSnoopingDoAdd c (w.rl.ctnt c).url ans).2).2
  | advertise (w : World) (url : Bytes) (ans : SnoopAnswer) (h : url ∈ scInitAdvertisement) :
      CallStep w (callOf (scSnoopingDoAdd NO_SESSION url ans)) w

/-- The program as the owner of the redirections. -/
def redirectOwner : Owner World Bytes where
  init := scLdInit
  step := CallStep

variable {w w' : World} {c : CtntIdx} {m : MgmtIdx}

theorem CallStep.op {x : Option (Bytes × Bool)} (h : CallStep w x w') : Op w w' ∨ w' = w := by
  cases h with
  | mute _ hm => exact .inl (.mute w w' hm)
  | addCtnt m url ans hm => exact .inl (.addCtnt w m url _ hm)
  | notify c ans hc => exact .inl (.notify w c _ hc)
  | advertise url ans h => exact .inr rfl

omit L in
/-- Both results of a call can come about. -/
theorem initiateAction_result {act : UInt8} (hact : act = HTTP_C2SP_ACTION_ADD ∨ act = HTTP_C2SP_ACTION_DELETE)
    (sid : ℕ) (url : Bytes) (ok : Bool) : ∃ ans, (scSnoopingInitiateAction act sid url ans).2 = ok := by
  have hguard : ¬ (act ≠ HTTP_C2SP_ACTION_ADD ∧ act ≠ HTTP_C2SP_ACTION_DELETE) := by tauto
  cases ok with
  | false => exact ⟨.noSocket, by rw [scSnoopingInitiateAction, if_neg hguard]⟩
  | true =>
    refine ⟨.reply (u32Bytes sid ++ [0]), ?_⟩
    have hbuf : ∃ zeros, recvBuf (u32Bytes sid ++ [0]) = u32Bytes sid ++ ([0] ++ zeros) := ⟨_, rfl⟩
    obtain ⟨zeros, hbuf⟩ := hbuf
    rw [scSnoopingInitiateAction, if_neg hguard]
    have hsid : (u32Bytes sid ++ ([0] ++ zeros)).take 4 = u32Bytes sid := rfl
    have hstatus : (u32Bytes sid ++ ([0] ++ zeros)).getD SP2C_ACTION_OFFSET 0 = HTTP_SP_STATUS_OK := rfl
    simp only [hbuf, hsid, hstatus, decide_true, Bool.and_self]

/-- Every operation of the program is one of the owner. -/
theorem Op.call (h : Op w w') : ∃ x, CallStep w x w' := by
  cases h with
  | mute _ hm => exact ⟨none, .mute w w' hm⟩
  | addCtnt m url delOk hm =>
    obtain ⟨ans, hans⟩ := initiateAction_result (.inr rfl) NO_SESSION url delOk
    have hstep := CallStep.addCtnt w m url ans hm
    rw [scSnoopingDoDel, hans] at hstep
    exact ⟨_, hstep⟩
  | notify c ok hc =>
    obtain ⟨ans, hans⟩ := initiateAction_result (.inl rfl) c (w.rl.ctnt c).url ok
    have hstep := CallStep.notify w c ans hc
    rw [scSnoopingDoAdd, hans] at hstep
    exact ⟨_, hstep⟩

/-- Every run of the program is a run of the owner. -/
theorem Served.calls (h : Served w) : Relation.ReflTransGen (fun w w' => ∃ x, redirectOwner.step w x w') scLdInit w := by
  have hinit : Served scLdInit := .refl
  exact Relation.ReflTransGen.mono (fun _ _ => Op.call) _ _ (ServesTo.ops hinit.good h)

/-- A url that is in a cached record, as it stands in a request, or is one of the advertisements. -/
def Backed (url : Bytes) (w : World) : Prop :=
  url ∈ scInitAdvertisement.map redirectUrl ∨ ∃ c, CachedIn w c ∧ redirectUrl (w.rl.ctnt c).url = url

def Announced (url : Bytes) (w : World) : Prop :=
  ∃ c, w.rl.LiveCtnt c ∧ (w.rl.ctnt c).flag.notify = true ∧ redirectUrl (w.rl.ctnt c).url = url

theorem Backed.call {x : Option (Bytes × Bool)} {url : Bytes} (h : Backed url w) (hg : Good w) (hco : Coherent w)
    (hs : CallStep w x w') : Backed url w' := by
  rcases hs.op with hop | rfl
  · rcases h with h | ⟨c, hc, rfl⟩
    · exact .inl h
    · obtain ⟨f, hf⟩ := hop.carries hg hco
      have hstands := hf.stands c hc
      exact .inr ⟨f c, hstands.cached, by rw [hstands.url]⟩
  · exact h

omit L in
theorem callOf_eq_some {r : Option Bytes × Bool} {q : Bytes} {g : Bool} (h : callOf r = some (q, g)) :
    r.1 = some q ∧ r.2 = g := by
  rcases r with ⟨_ | pkt, ok⟩
  · cases h
  · obtain ⟨rfl, rfl⟩ := Prod.mk.inj (Option.some.inj h)
    exact ⟨rfl, rfl⟩

/-- What the program asks for is backed when it asks. -/
theorem CallStep.asks {q : Bytes} {g : Bool} {url : Bytes} (hs : CallStep w (some (q, g)) w')
    (hask : C2spAsks HTTP_C2SP_ACTION_ADD q url) : Backed url w := by
  generalize hx : some (q, g) = x at hs
  cases hs with
  | mute _ hm => cases hx
  | addCtnt m url' ans hm =>
    unfold addCtntCall at hx
    split_ifs at hx
    rw [initiateAction_pkt (callOf_eq_some hx.symm).1] at hask
    exact absurd hask.1 (by rw [pkt_action]; decide)
  | notify c ans hc =>
    unfold notifyCall at hx
    dsimp only at hx
    split_ifs at hx with hguard
    simp only [Bool.and_eq_true] at hguard
    rw [initiateAction_pkt (callOf_eq_some hx.symm).1] at hask
    exact .inr ⟨c, ⟨hc, hguard.1.2⟩, by rw [← hask.2, pkt_url]⟩
  | advertise url' ans h =>
    rw [initiateAction_pkt (callOf_eq_some hx.symm).1] at hask
    exact .inl (List.mem_map.mpr ⟨url', h, by rw [← hask.2, pkt_url]⟩)

omit L in
/-- Every record announced after a step stands for one that was before it. -/
theorem announced_back {url : Bytes} (h : ∀ c, w'.rl.LiveCtnt c → (w'.rl.ctnt c).flag.notify = true →
    ∃ i, w.rl.LiveCtnt i ∧ (w.rl.ctnt i).flag.notify = true ∧ (w.rl.ctnt i).url = (w'.rl.ctnt c).url)
    (ha : Announced url w') : Announced url w := by
  obtain ⟨c, hlive, hn, rfl⟩ := ha
  obtain ⟨i, hlive', hn', hurl⟩ := h c hlive hn
  exact ⟨i, hlive', hn', by rw [hurl]⟩

omit L in
theorem announced_of_ctnt {url : Bytes} (h : w'.rl.ctnt = w.rl.ctnt) (ha : Announced url w') : Announced url w :=
  announced_back (fun c hlive hn => by
    rw [ResList.LiveCtnt, h] at hlive
    rw [h] at hn ⊢
    exact ⟨c, hlive, hn, rfl⟩) ha

theorem handOver_announced (hg : Good w) {ctrlLd : MgmtIdx} {parsed : CtntIdx} (hlive : w.rl.LiveCtnt parsed)
    (hst : (w.rl.ctnt parsed).flag.stored = false) (hne : (w.rl.ctnt parsed).parent ≠ some ctrlLd) {url : Bytes}
    (ha : Announced url (w.handleCached (some ctrlLd) parsed).2) : Announced url w := by
  obtain ⟨g, hrep⟩ := hg.rep
  simp only [World.handleCached, handleCachedBy, World.logged] at ha
  rcases handleCached_handedOver hrep ctrlLd hlive with heq | ⟨ld, rl', heq, ho⟩
  · rw [heq] at ha
    exact announced_of_ctnt rfl ha
  rw [heq] at ha
  refine announced_back (fun c hl hn => ?_) ha
  by_cases hc : c = parsed
  · have hpl : parsed ≠ ld := by
      rintro rfl
      exact hne ho.parent
    have hself := ho.parsed hpl
    have hfresh : (w.rl.ctnt parsed).flag.notify = false := by
      by_contra hn'
      have := hg.notify parsed (by simpa using hn')
      rw [hst] at this
      cases this
    rw [hc] at hn ⊢
    rw [hself] at hn
    refine ⟨ld, ho.live, by simpa [hfresh] using hn, ?_⟩
    dsimp only
    rw [hself]
  · have hother := ho.other hl hc
    have hid : (rl'.ctnt c).id = (w.rl.ctnt c).id := by rw [hother]
    have hflag : (rl'.ctnt c).flag = (w.rl.ctnt c).flag := by rw [hother]
    refine ⟨c, hid.symm.trans hl, hflag ▸ hn, ?_⟩
    dsimp only
    rw [hother]

/-- A record held for announced was so before with this url, or its ADD has just been granted. -/
theorem MuteOp.announced (h : MuteOp w w') (hg : Good w) {url : Bytes} (ha : Announced url w') :
    Announced url w := by
  cases h with
  | addMgmt gen url' hask =>
    obtain ⟨g, hrep⟩ := hg.rep
    exact announced_of_ctnt (addMgmt_spec hrep true url' hask.ne.1).1 ha
  | ngxDownload c ans url' hc => exact announced_of_ctnt rfl ha
  | flag c f hc hf =>
    refine announced_back (fun i hl hn => ⟨i, (setFlag_live c i f).mp hl, ?_, ?_⟩) ha
    · by_cases hic : i = c
      · subst hic
        simp only [World.setFlag, setFlag_self] at hn
        exact (hf _).2.symm.trans hn
      · simpa only [World.setFlag, setFlag_other f hic] using hn
    · by_cases hic : i = c
      · subst hic
        simp only [World.setFlag, setFlag_self]
      · simp only [World.setFlag, setFlag_other f hic]
  | handOver ctrlLd parsed hctrl hlive hst hne => exact handOver_announced hg hlive hst hne ha
  | logged e he => exact announced_of_ctnt rfl ha
  | finish r evs lp => exact announced_of_ctnt rfl ha

theorem addCtnt_announced (hg : Good w) (m : MgmtIdx) (url' : Bytes) (delOk : Bool) {url : Bytes}
    (ha : Announced url (w.addCtnt m url' delOk).2) : Announced url w := by
  obtain ⟨g, hrep⟩ := hg.rep
  rcases w.addCtnt_cases hrep m url' delOk with ⟨-, heq⟩ | ⟨i, l, -, -, heq⟩ | ⟨i, l, lp, -, -, -, heq⟩
  · rw [heq] at ha
    exact announced_of_ctnt rfl ha
  · rw [heq] at ha
    refine announced_back (fun c hl hn => ?_) ha
    by_cases hci : c = i
    · subst hci
      simp only [World.logged, setFlag_self] at hn
      cases hn
    · refine ⟨c, (setFlag_live i c fun _ => {}).mp hl, ?_, ?_⟩
      · simpa only [World.logged, setFlag_other _ hci] using hn
      · simp only [World.logged, setFlag_other _ hci]
  · rw [heq] at ha
    refine announced_back (fun c hl hn => ?_) ha
    by_cases hci : c = i
    · subst hci
      simp only [World.logged, ctntAdded_self] at hn
      cases hn
    · refine ⟨c, (ctntAdded_liveCtnt hci).mp hl, ?_, ?_⟩
      · simpa only [World.logged, ctntAdded_other hci] using hn
      · simp only [World.logged, ctntAdded_other hci]

omit L in
theorem notify_eq (w : World) (c : CtntIdx) (ok : Bool) : scResNotifyRiUrl w c ok =
    if scResInfoIsCtnt (w.rl.ctnt c).toResInfo && (w.rl.ctnt c).flag.stored && !(w.rl.ctnt c).flag.notify then
      if ok then (true, (w.logged (.add c (w.rl.ctnt c).flag.stored true)).setFlag c setNotify)
      else (false, w.logged (.add c (w.rl.ctnt c).flag.stored false))
    else (false, w) := by
  unfold scResNotifyRiUrl
  cases hct : scResInfoIsCtnt (w.rl.ctnt c).toResInfo <;> cases hst : (w.rl.ctnt c).flag.stored <;>
    cases hno : (w.rl.ctnt c).flag.notify <;> cases ok <;> simp [hct, hst, hno]

theorem CallStep.announced {x : Option (Bytes × Bool)} (hs : CallStep w x w') (hg : Good w) {url : Bytes}
    (ha : Announced url w') :
    Announced url w ∨ ∃ q, x = some (q, true) ∧ C2spAsks HTTP_C2SP_ACTION_ADD q url := by
  cases hs with
  | mute _ hm => exact .inl (hm.announced hg ha)
  | addCtnt m url' ans hm => exact .inl (addCtnt_announced hg m url' _ ha)
  | notify c ans hc =>
    rw [notify_eq] at ha
    split_ifs at ha with hguard hok
    · obtain ⟨i, hl, hn, rfl⟩ := ha
      have hl' : w.rl.LiveCtnt i := (setFlag_live c i setNotify).mp hl
      by_cases hic : i = c
      · subst hic
        refine .inr ⟨_, ?_, pkt_action _ i (w.rl.ctnt i).url, ?_⟩
        · have hsent := initiateAction_sent hok
          rw [notifyCall, if_pos hguard, callOf, hok, scSnoopingDoAdd, hsent]
          rfl
        · rw [pkt_url]
          simp only [World.setFlag, World.logged, setFlag_self]
      · simp only [World.setFlag, World.logged, setFlag_other setNotify hic] at hn ⊢
        exact .inl ⟨i, hl', hn, rfl⟩
    · exact .inl ha
    · exact .inl ha
  | advertise url' ans h => exact .inl ha

theorem redirectOwner_keeps : redirectOwner.Keeps fun w => Good w ∧ Coherent w where
  init := by
    have hinit : Served scLdInit := .refl
    exact ⟨hinit.good, hinit.coherent.1⟩
  step := by
    rintro w w' x ⟨hg, hco⟩ hs
    rcases CallStep.op hs with hop | rfl
    · exact ⟨Ops.good hg (.single hop), hco.op hg hop⟩
    · exact ⟨hg, hco⟩

/-- The program and the Snooping module, over a network that may lose a call or its reply, deliver a request
late and deliver it again. The module is any that adds on an ADD and deletes on a DELETE only, and grants no
ADD without adding. What it redirects was left over, is an advertisement, or is cached; and every record
held for announced is redirected, unless its DELETE has been sent. -/
theorem redirects_backed (K : Keeper Bytes Bytes) (hadds : ∀ q u, K.adds q u ↔ C2spAsks HTTP_C2SP_ACTION_ADD q u)
    (hdeletes : ∀ q u, K.deletes q u ↔ C2spAsks HTTP_C2SP_ACTION_DELETE q u) (t₀ : Set Bytes)
    {n : Net World Bytes Bytes} (hn : Remote.Reachable redirectOwner K t₀ n) :
    (∀ u ∈ n.table, u ∈ t₀ ∨ u ∈ scInitAdvertisement.map redirectUrl ∨
      ∃ c, CachedIn n.state c ∧ redirectUrl (n.state.rl.ctnt c).url = u) ∧
    ∀ c, n.state.rl.LiveCtnt c → (n.state.rl.ctnt c).flag.notify = true →
      redirectUrl (n.state.rl.ctnt c).url ∈ n.table ∨
        ∃ q ∈ n.sent, C2spAsks HTTP_C2SP_ACTION_DELETE q (redirectUrl (n.state.rl.ctnt c).url) := by
  have hblank : ∀ c, ¬ scLdInit.rl.LiveCtnt c := fun c => (ldInit_blank.ctnt c).1
  have htable := hn.table_backed (P := Backed) redirectOwner_keeps
    (fun w w' q g u hi hs hask =>
      (CallStep.asks hs ((hadds q u).mp hask)).call hi.1 hi.2 hs)
    (fun w w' x u hi hs hb => hb.call hi.1 hi.2 hs)
  have hcounted := hn.counted_in_table (G := Announced) redirectOwner_keeps
    (fun u hu => hblank _ hu.choose_spec.1)
    (fun w w' x u hi hs ha => (CallStep.announced hs hi.1 ha).imp_right fun ⟨q, hx, hask⟩ =>
      ⟨q, hx, (hadds q u).mpr hask⟩)
  refine ⟨htable, fun c hl hnot => ?_⟩
  exact (hcounted _ ⟨c, hl, hnot, rfl⟩).imp_right fun ⟨q, hq, hdel⟩ => ⟨q, hq, (hdeletes q _).mp hdel⟩

end Calls

def grantingModule : Keeper Bytes Bytes where
  adds := C2spAsks HTTP_C2SP_ACTION_ADD
  deletes := C2spAsks HTTP_C2SP_ACTION_DELETE
  handles t q t' _ := t' = {u | (u ∈ t ∨ C2spAsks HTTP_C2SP_ACTION_ADD q u) ∧ ¬ C2spAsks HTTP_C2SP_ACTION_DELETE q u}
  added := by
    rintro t _ q g u rfl hu
    exact hu.1
  deleted := by
    rintro t _ q g u rfl hu
    by_cases hdel : C2spAsks HTTP_C2SP_ACTION_DELETE q u
    · exact .inr hdel
    · exact .inl ⟨.inl hu, hdel⟩
  granted := by
    rintro t _ q u rfl hadd
    refine ⟨.inr hadd, fun hdel => ?_⟩
    exact absurd (hadd.1.symm.trans hdel.1) (by decide)

def flvUrl : Bytes := bytes "f.youku.com/v/1.flv"

theorem flv_normal_lt : 1021 < SC_RES_INFO_NUM_MAX_MGMT := by decide

theorem flv_ctnt_lt : 4095 < SC_RES_INFO_NUM_MAX_CTNT := by decide

def flvNormal : MgmtIdx := ⟨1021, flv_normal_lt⟩

def flvCtnt : CtntIdx := ⟨4095, flv_ctnt_lt⟩

def flvAsked : World := (@scLdInit sampleLayout).logged (.addNormal (@scLdInit sampleLayout).rl flvUrl)

def flvAdded : World :=
  { flvAsked with rl := (@scResInfoAddMgmt sampleLayout .normal true flvAsked.rl flvUrl).2 }

def flvStored : World :=
  ((@World.addCtnt sampleLayout flvAdded flvNormal flvUrl false).2).setFlag flvCtnt setStored

def flvGranted : SnoopAnswer := .reply (u32Bytes flvCtnt ++ [HTTP_SP_STATUS_OK])

def flvAnnounced : World := (scResNotifyRiUrl flvStored flvCtnt (scSnoopingDoAdd flvCtnt flvUrl flvGranted).2).2

/-- The ADD of the record is granted, and the redirection of its url begins. -/
theorem redirects_backed_flv : ∃ n, Remote.Reachable (@redirectOwner sampleLayout) grantingModule ∅ n ∧
    n.state = flvAnnounced ∧ flvUrl ∈ n.table := by
  have hurl : (flvStored.rl.ctnt flvCtnt).url = flvUrl := by decide +kernel
  have hasked : @CallStep sampleLayout (@scLdInit sampleLayout) none flvAsked :=
    @CallStep.mute sampleLayout _ _ (@MuteOp.logged sampleLayout _ _ rfl)
  have hnew : scResInfoFindMgmt flvAsked.rl flvUrl = none := by decide +kernel
  have hadded : @CallStep sampleLayout flvAsked none flvAdded :=
    @CallStep.mute sampleLayout _ _ (@MuteOp.addMgmt sampleLayout _ .normal flvUrl (.normal hnew List.mem_cons_self))
  have hcall : addCtntCall flvAdded flvNormal flvUrl .noSocket = none := if_neg (by decide +kernel)
  have hrecord : @CallStep sampleLayout flvAdded none (@World.addCtnt sampleLayout flvAdded flvNormal flvUrl false).2 :=
    hcall ▸ @CallStep.addCtnt sampleLayout flvAdded flvNormal flvUrl .noSocket (by decide +kernel)
  have hlive : (@World.addCtnt sampleLayout flvAdded flvNormal flvUrl false).2.rl.LiveCtnt flvCtnt := by
    decide +kernel
  have hstored : @CallStep sampleLayout (@World.addCtnt sampleLayout flvAdded flvNormal flvUrl false).2 none flvStored :=
    @CallStep.mute sampleLayout _ _ (@MuteOp.flag sampleLayout _ flvCtnt setStored hlive
      fun x => ⟨fun _ => rfl, rfl⟩)
  have hgrant : notifyCall flvStored flvCtnt flvGranted =
      some (scC2spReqPkt HTTP_C2SP_ACTION_ADD flvCtnt flvUrl, true) := by
    rw [notifyCall, if_pos (by decide +kernel), hurl]
    rfl
  have hnotify := @CallStep.notify sampleLayout flvStored flvCtnt flvGranted (by decide +kernel)
  rw [hgrant, hurl] at hnotify
  have hrun : Remote.Reachable (@redirectOwner sampleLayout) grantingModule ∅ ⟨flvStored, [], ∅⟩ :=
    (((Relation.ReflTransGen.single (Remote.Step.quiet ⟨_, [], ∅⟩ flvAsked hasked)).tail
      (Remote.Step.quiet ⟨_, [], ∅⟩ flvAdded hadded)).tail (Remote.Step.quiet ⟨_, [], ∅⟩ _ hrecord)).tail
      (Remote.Step.quiet ⟨_, [], ∅⟩ flvStored hstored)
  have hlast := hrun.tail (Remote.Step.succeeds (K := grantingModule) ⟨flvStored, [], ∅⟩ _ flvAnnounced _ hnotify rfl)
  refine ⟨_, hlast, rfl, ?_⟩
  have hredirect : redirectUrl (flvAnnounced.rl.ctnt flvCtnt).url = flvUrl := by decide +kernel
  have hbacked := (@redirects_backed sampleLayout grantingModule (fun _ _ => .rfl) (fun _ _ => .rfl) ∅ _ hlast).2 flvCtnt
    (by decide +kernel) (by decide +kernel)
  rw [hredirect] at hbacked
  refine hbacked.resolve_right ?_
  rintro ⟨q, hq, hdel⟩
  rw [List.mem_singleton.mp hq] at hdel
  exact absurd hdel.1 (by rw [pkt_action]; decide)

end HotCache
