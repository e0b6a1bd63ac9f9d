import HotCache.Proofs.Coherent
import HotCache.Proofs.Pass
import Mathlib.Data.Set.Function

/-! Nothing that is cached gets lost while the program runs. A record that is stored stays as it is, or,
if it was found by the loader, hands its url, its file and its flags over to another record. Which
record that is, is a function from the cached records before a run to those after it. -/

namespace HotCache

open CStr

section Carried

variable [L : Layout]

def CachedIn (w : World) (c : CtntIdx) : Prop := w.rl.LiveCtnt c ∧ (w.rl.ctnt c).flag.stored = true

structure StandsFor (w w' : World) (c c' : CtntIdx) : Prop where
  cached : CachedIn w' c'
  url : (w'.rl.ctnt c').url = (w.rl.ctnt c).url
  localpath : (w'.rl.ctnt c').localpath = (w.rl.ctnt c).localpath
  site : (w'.rl.ctnt c').site = (w.rl.ctnt c).site
  notify : (w.rl.ctnt c).flag.notify = true → (w'.rl.ctnt c').flag.notify = true

/-- `f` finds the cached records of `w` again in `w'`; those of no controller stay where they are. -/
structure Carries (w w' : World) (f : CtntIdx → CtntIdx) : Prop where
  injOn : Set.InjOn f {c | CachedIn w c}
  stands : ∀ c, CachedIn w c → StandsFor w w' c (f c)
  settled : ∀ c, CachedIn w c → Target w c → f c = c ∧ (w'.rl.ctnt c).parent = (w.rl.ctnt c).parent

variable {w w' w'' : World} {c : CtntIdx} {f f' : CtntIdx → CtntIdx}

omit L in
theorem StandsFor.refl (h : CachedIn w c) : StandsFor w w c c := ⟨h, rfl, rfl, rfl, id⟩

omit L in
theorem StandsFor.trans {c' c'' : CtntIdx} (h : StandsFor w w' c c') (h' : StandsFor w' w'' c' c'') :
    StandsFor w w'' c c'' where
  cached := h'.cached
  url := h'.url.trans h.url
  localpath := h'.localpath.trans h.localpath
  site := h'.site.trans h.site
  notify hn := h'.notify (h.notify hn)

omit L in
theorem Carries.refl (w : World) : Carries w w id :=
  ⟨fun _ _ _ _ h => h, fun _ hc => .refl hc, fun _ _ _ => ⟨rfl, rfl⟩⟩

theorem Carries.trans (hm : Moves w w') (h : Carries w w' f) (h' : Carries w' w'' f') :
    Carries w w'' (f' ∘ f) where
  injOn := by
    intro c hc d hd heq
    exact h.injOn hc hd (h'.injOn (h.stands c hc).cached (h.stands d hd).cached heq)
  stands c hc := (h.stands c hc).trans (h'.stands _ (h.stands c hc).cached)
  settled c hc ht := by
    obtain ⟨hfc, hpar⟩ := h.settled c hc ht
    have hcached := (h.stands c hc).cached
    rw [hfc] at hcached
    have ht' : Target w' c := ⟨hcached.1, fun m hm' => by
      rw [hpar]
      exact ht.parent m ((hm.controller_iff m).mp hm')⟩
    obtain ⟨hfc', hpar'⟩ := h'.settled c hcached ht'
    refine ⟨?_, hpar'.trans hpar⟩
    rw [Function.comp_apply, hfc, hfc']

omit L in
/-- An operation that leaves every cached record where it is. -/
theorem carries_in_place (h : ∀ c, CachedIn w c → StandsFor w w' c c ∧
    (w'.rl.ctnt c).parent = (w.rl.ctnt c).parent) : Carries w w' id :=
  ⟨fun _ _ _ _ heq => heq, fun c hc => (h c hc).1, fun c hc _ => ⟨rfl, (h c hc).2⟩⟩

omit L in
theorem standsFor_of_eq (hc : CachedIn w c) (heq : w'.rl.ctnt c = w.rl.ctnt c) :
    StandsFor w w' c c ∧ (w'.rl.ctnt c).parent = (w.rl.ctnt c).parent := by
  obtain ⟨hlive, hst⟩ := hc
  refine ⟨⟨⟨?_, ?_⟩, ?_, ?_, ?_, ?_⟩, ?_⟩
  · rw [ResList.LiveCtnt, heq]
    exact hlive
  · rw [heq]
    exact hst
  all_goals rw [heq]
  exact id

omit L in
theorem standsFor_of_flag {x : Flag} (hc : CachedIn w c) (heq : w'.rl.ctnt c = { w.rl.ctnt c with flag := x })
    (hst : x.stored = true) (hn : (w.rl.ctnt c).flag.notify = true → x.notify = true) :
    StandsFor w w' c c ∧ (w'.rl.ctnt c).parent = (w.rl.ctnt c).parent := by
  refine ⟨⟨⟨?_, ?_⟩, ?_, ?_, ?_, ?_⟩, ?_⟩
  · rw [ResList.LiveCtnt, heq]
    exact hc.1
  · rw [heq]
    exact hst
  all_goals rw [heq]
  exact hn

omit L in
theorem setFlag_carries (i : CtntIdx) {g : Flag → Flag}
    (hg : ∀ x, (x.stored = true → (g x).stored = true) ∧ (x.notify = true → (g x).notify = true)) :
    Carries w (w.setFlag i g) id := by
  refine carries_in_place fun c hc => ?_
  by_cases hci : c = i
  · subst hci
    exact standsFor_of_flag hc (setFlag_self c g) ((hg _).1 hc.2) (hg _).2
  · exact standsFor_of_eq hc (setFlag_other g hci)

theorem addCtnt_carries (h : Good w) (m : MgmtIdx) (url : Bytes) (delOk : Bool) :
    Carries w (w.addCtnt m url delOk).2 id := by
  obtain ⟨g, hg⟩ := h.rep
  have hused : ∀ {i : CtntIdx} {l : List CtntIdx} {c : CtntIdx}, g.freeC = i :: l → CachedIn w c → c ≠ i := by
    rintro i l c hf hc rfl
    exact (hg.liveCtnt_iff c).mp hc.1 (by simp [hf])
  rcases w.addCtnt_cases hg m url delOk with ⟨-, heq⟩ | ⟨i, l, hf, -, heq⟩ | ⟨i, l, lp, hf, -, -, heq⟩
  · rw [heq]
    exact carries_in_place fun c hc => standsFor_of_eq hc rfl
  · rw [heq]
    refine carries_in_place fun c hc => standsFor_of_eq hc ?_
    dsimp only [World.logged]
    rw [setFlag_other _ (hused hf hc)]
  · rw [heq]
    refine carries_in_place fun c hc => standsFor_of_eq hc ?_
    dsimp only [World.logged]
    rw [ctntAdded_other (hused hf hc)]

/-- A hand-over moves what the loaded record has to the record that takes over, which had nothing. -/
theorem handOver_carries (h : Good w) (hco : Coherent w) {ctrlLd : MgmtIdx} {parsed : CtntIdx}
    (hctrl : w.siteCtrlLd (w.rl.ctnt parsed).site = some ctrlLd) (hlive : w.rl.LiveCtnt parsed)
    (hst : (w.rl.ctnt parsed).flag.stored = false) (hne : (w.rl.ctnt parsed).parent ≠ some ctrlLd)
    (hw' : w'.rl = (scResInfoHandleCached w.rl ctrlLd parsed).2) : ∃ f, Carries w w' f := by
  obtain ⟨g, hg⟩ := h.rep
  rcases handleCached_handedOver hg ctrlLd hlive with heq | ⟨ld, rl', heq, ho⟩
  · rw [heq] at hw'
    exact ⟨id, carries_in_place fun c hc => standsFor_of_eq hc (by rw [hw'])⟩
  rw [heq] at hw'
  obtain rfl : w'.rl = rl' := hw'
  have hpl : parsed ≠ ld := by
    rintro rfl
    exact hne ho.parent
  have hnot : ∀ {c}, CachedIn w c → c ≠ parsed := by
    rintro c hc rfl
    rw [hc.2] at hst
    cases hst
  have hself := ho.parsed hpl
  have hother : ∀ c, CachedIn w c → c ≠ ld → StandsFor w w' c c ∧
      (w'.rl.ctnt c).parent = (w.rl.ctnt c).parent := by
    intro c hc hcl
    have hsame : w'.rl.ctnt c = { w.rl.ctnt c with siblings := (w'.rl.ctnt c).siblings } := by
      rw [ho.ctnt c hcl]
      simp only [scResInfoDupCtnt, setCtnt_ctnt, Function.update_of_ne (hnot hc)]
    have hid : (w'.rl.ctnt c).id = (w.rl.ctnt c).id := by rw [hsame]
    have hflag : (w'.rl.ctnt c).flag = (w.rl.ctnt c).flag := by rw [hsame]
    have hurl : (w'.rl.ctnt c).url = (w.rl.ctnt c).url := by rw [hsame]
    have hlp : (w'.rl.ctnt c).localpath = (w.rl.ctnt c).localpath := by rw [hsame]
    have hsite : (w'.rl.ctnt c).site = (w.rl.ctnt c).site := by rw [hsame]
    refine ⟨⟨⟨hid.trans hc.1, ?_⟩, hurl, hlp, hsite, ?_⟩, by rw [hsame]⟩
    · exact (congrArg Flag.stored hflag).trans hc.2
    · exact fun hn => (congrArg Flag.notify hflag).trans hn
  refine ⟨fun c => if c = ld then parsed else c, ?_, fun c hc => ?_, fun c hc ht => ?_⟩
  · intro c hc d hd hcd
    dsimp only at hcd
    split_ifs at hcd with hcl hdl hdl
    · rw [hcl, hdl]
    · exact absurd hcd.symm (hnot hd)
    · exact absurd hcd (hnot hc)
    · exact hcd
  · by_cases hcl : c = ld
    · subst hcl
      rw [if_pos rfl]
      obtain ⟨hldsite, -⟩ := hco.ctnt c ctrlLd hc.1 ho.parent
      have hid : (w'.rl.ctnt parsed).id = (w.rl.ctnt parsed).id := by rw [hself]
      have hurl : (w'.rl.ctnt parsed).url = (w.rl.ctnt c).url := by rw [hself]
      have hlp : (w'.rl.ctnt parsed).localpath = (w.rl.ctnt c).localpath := by rw [hself]
      have hsite : (w'.rl.ctnt parsed).site = (w.rl.ctnt parsed).site := by rw [hself]
      have hstored : (w'.rl.ctnt parsed).flag.stored = true := by
        rw [hself]
        simp [hc.2]
      have hnotify : (w.rl.ctnt c).flag.notify = true → (w'.rl.ctnt parsed).flag.notify = true := by
        intro hn
        rw [hself]
        simp [hn]
      refine ⟨⟨hid.trans hlive, hstored⟩, hurl, hlp, ?_, hnotify⟩
      calc (w'.rl.ctnt parsed).site = (w.rl.ctnt parsed).site := hsite
        _ = (w.rl.mgmt ctrlLd).site := (hco.ctrl _ ctrlLd hctrl).symm
        _ = (w.rl.ctnt c).site := hldsite.symm
    · rw [if_neg hcl]
      exact (hother c hc hcl).1
  · have hcl : c ≠ ld := by
      rintro rfl
      exact ht.parent ctrlLd (w.controller_of_site hctrl) ho.parent
    rw [if_neg hcl]
    exact ⟨rfl, (hother c hc hcl).2⟩

theorem Op.carries (h : Good w) (hco : Coherent w) (hop : Op w w') : ∃ f, Carries w w' f := by
  cases hop with
  | addCtnt m url delOk hm => exact ⟨id, addCtnt_carries h m url delOk⟩
  | notify i ok hi =>
    rcases notify_cases w i ok with heq | ⟨-, -, heq⟩
    · rw [heq]
      exact ⟨id, .refl w⟩
    · rw [heq]
      cases ok with
      | false => exact ⟨id, carries_in_place fun c hc => standsFor_of_eq hc rfl⟩
      | true =>
        have hflag : Carries (w.logged (.add i true true)) _ id :=
          setFlag_carries i (g := setNotify) fun x => ⟨id, fun _ => rfl⟩
        exact ⟨id, carries_in_place fun c hc => ⟨⟨(hflag.stands c hc).cached, (hflag.stands c hc).url,
          (hflag.stands c hc).localpath, (hflag.stands c hc).site, (hflag.stands c hc).notify⟩,
          setFlag_parent i c setNotify⟩⟩
  | mute _ hmute =>
    cases hmute with
    | addMgmt gen url hask =>
      obtain ⟨g, hg⟩ := h.rep
      have hctnt := (addMgmt_spec hg true url hask.ne.1).1
      exact ⟨id, carries_in_place fun c hc => standsFor_of_eq hc (congrFun hctnt c)⟩
    | ngxDownload i ans url hi => exact ⟨id, carries_in_place fun c hc => standsFor_of_eq hc rfl⟩
    | flag i g hi hg => exact ⟨id, setFlag_carries i fun x => ⟨(hg x).1, fun hn => (hg x).2.trans hn⟩⟩
    | handOver ctrlLd parsed hctrl hlive hst hne => exact handOver_carries h hco hctrl hlive hst hne rfl
    | logged e he => exact ⟨id, carries_in_place fun c hc => standsFor_of_eq hc rfl⟩
    | finish r evs lp => exact ⟨id, carries_in_place fun c hc => standsFor_of_eq hc rfl⟩

/-- From any state of the running program on, whatever requests, answers, passes and downloads follow:
the cached records are found again, each in a record of its own with the same url, file and site, and
announced if it was. A cached record of no controller is still the same record below the same parent. -/
theorem cached_never_forgotten (h : Served w) (hs : ServesTo w w') : ∃ f, Carries w w' f := by
  have hkept : Coherent w' ∧ Moves w w' ∧ ∃ f, Carries w w' f := by
    refine Ops.keeps (R := fun w w₁ => Coherent w₁ ∧ Moves w w₁ ∧ ∃ f, Carries w w₁ f) h.good
      ⟨h.coherent.1, .refl, id, .refl w⟩ (fun w₁ w₂ hg₁ hr hop => ?_) (hs.ops h.good)
    obtain ⟨hco, hm, f, hf⟩ := hr
    obtain ⟨f', hf'⟩ := hop.carries hg₁ hco
    exact ⟨hco.op hg₁ hop, hm.tail hop.move, f' ∘ f, hf.trans hm hf'⟩
  exact hkept.2.2

end Carried

/-- A pass hands the loaded record over and frees it: its file is found again in another record. -/
theorem cached_never_forgotten_hand_over :
    CachedIn oneLoaded 4095 ∧ ∃ w', @ServesTo sampleLayout oneLoaded w' ∧ ¬ w'.rl.LiveCtnt 4095 ∧
      ∃ c, c ≠ 4095 ∧ StandsFor oneLoaded w' 4095 c := by
  have hcached : CachedIn oneLoaded 4095 := by
    refine ⟨?_, ?_⟩
    · decide +kernel
    · decide +kernel
  have hserved : @Served sampleLayout oneLoaded := .single (OwnStep.serve (@OwnStep.load sampleLayout _ _ _))
  have hfreed : (@scResListProcessMgmt sampleLayout (fun _ _ => redirectedToCache) SC_RES_INFO_NUM_MAX_CTNT
      { w := waitingForCached }).any (fun p => !decide (p.w.rl.LiveCtnt 4095)) = true := by
    decide +kernel
  obtain ⟨p, hp, hlive⟩ := (Option.any_eq_true ..).mp hfreed
  have hfree : ¬ p.w.rl.LiveCtnt 4095 := by simpa using hlive
  have hdown : @ServesTo sampleLayout oneLoaded waitingForCached :=
    .single (SpRequest.serve (@SpRequest.down sampleLayout _ _ _))
  have hpass : @ServesTo sampleLayout oneLoaded p.w :=
    hdown.tail (OwnStep.serve (@OwnStep.processFunc sampleLayout _ _ _ p hp))
  obtain ⟨f, hf⟩ := @cached_never_forgotten sampleLayout _ _ hserved hpass
  have hstands := hf.stands 4095 hcached
  refine ⟨hcached, p.w, hpass, hfree, f 4095, fun heq => hfree ?_, hstands⟩
  rw [← heq]
  exact hstands.cached.1

end HotCache
