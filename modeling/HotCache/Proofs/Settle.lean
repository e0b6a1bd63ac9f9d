import HotCache.Proofs.Coherent
import HotCache.Proofs.Pass

/-! What a process pass that counts no error has achieved. Such a pass has announced every record that
was stored before it, and has retried every download that had failed; two of them in a row leave
nothing to do, and then a further pass makes no call at all. -/

namespace HotCache

open CStr FreeList Linked

/-- The prefix that `sc_res_copy_url` takes off hides no occurrence of a pattern that starts with a
byte of its own. -/
theorem infix_drop {a : UInt8} {t p s : Bytes} (ha : a ∉ p) (h : a :: t <:+: p ++ s) : a :: t <:+: s := by
  obtain ⟨l₁, l₂, heq⟩ := h
  rw [List.append_assoc] at heq
  rcases List.append_eq_append_iff.mp heq with ⟨u, rfl, hu⟩ | ⟨u, rfl, rfl⟩
  · cases u with
    | nil => exact ⟨[], l₂, hu⟩
    | cons b u =>
      obtain rfl : a = b := (List.cons.inj hu).1
      exact absurd (by simp) ha
  · exact ⟨u, l₂, by simp⟩

theorem permit_copyUrl {url : Bytes} (h : scResInfoPermitAdding url = true) :
    scResInfoPermitAdding (scResCopyUrl url true) = true := by
  simp only [scResCopyUrl, if_true]
  split_ifs with hpre
  · obtain ⟨s, rfl⟩ := List.isPrefixOf_iff_prefix.mp hpre
    have hdrop : (HTTP_URL_PREFIX ++ s).drop HTTP_URL_PRE_LEN = s := List.drop_left' rfl
    rw [hdrop]
    simp only [scResInfoPermitAdding, scUrlIsYk, scUrlIsSohu, scUrlIsSohuFileUrl, Bool.or_eq_true,
      strstr_isSome] at h ⊢
    refine h.imp (Or.imp (fun h => ?_) fun h => ?_) fun h => ?_
    · exact infix_drop (by decide) h
    · exact infix_drop (by decide) h
    · exact infix_drop (by decide) h
  · exact h

theorem ne_nil_of_permit {url : Bytes} (h : scResInfoPermitAdding url = true) : url ≠ [] := by
  rintro rfl
  exact absurd h (by decide)

section Permitted

variable [L : Layout] {w w' : World} {c : CtntIdx} {m : MgmtIdx}

def Permitted (w : World) : Prop := ∀ c, w.rl.LiveCtnt c → scResInfoPermitAdding (w.rl.ctnt c).url = true

omit L in
theorem Permitted.setFlag (h : Permitted w) (i : CtntIdx) (f : Flag → Flag) : Permitted (w.setFlag i f) := by
  intro c hc
  have hlive : w.rl.LiveCtnt c := (setFlag_live i c f).mp hc
  by_cases hci : c = i
  · subst hci
    simp only [World.setFlag, setFlag_self]
    exact h c hlive
  · simp only [World.setFlag, setFlag_other f hci]
    exact h c hlive

theorem Permitted.addCtnt (h : Permitted w) (hg : Good w) (m : MgmtIdx) (url : Bytes) (delOk : Bool) :
    Permitted (w.addCtnt m url delOk).2 := by
  obtain ⟨g, hrep⟩ := hg.rep
  rcases w.addCtnt_cases hrep m url delOk with ⟨-, heq⟩ | ⟨i, l, -, -, heq⟩ | ⟨i, l, lp, -, -, hadd, heq⟩
  · rw [heq]
    exact h
  · rw [heq]
    exact h.setFlag i fun _ => {}
  · have hpermit : scResInfoPermitAdding url = true := by
      by_contra hno
      rw [addCtnt_rejected hrep (.inl (.inl (by simpa using hno)))] at hadd
      cases hadd
    rw [heq]
    intro c hc
    simp only [World.logged] at hc ⊢
    by_cases hci : c = i
    · subst hci
      rw [ctntAdded_self]
      exact permit_copyUrl hpermit
    · simp only [ResList.LiveCtnt, ctntAdded_other hci] at hc ⊢
      exact h c hc

theorem Permitted.handOver (h : Permitted w) (hg : Good w) {ctrlLd : MgmtIdx} {parsed : CtntIdx}
    (hlive : w.rl.LiveCtnt parsed) (hne : (w.rl.ctnt parsed).parent ≠ some ctrlLd) :
    Permitted (w.handleCached (some ctrlLd) parsed).2 := by
  obtain ⟨g, hrep⟩ := hg.rep
  simp only [World.handleCached, handleCachedBy, World.logged]
  rcases handleCached_handedOver hrep ctrlLd hlive with heq | ⟨ld, rl', heq, ho⟩
  · rw [heq]
    exact h
  · rw [heq]
    intro c hc
    by_cases hcp : c = parsed
    · subst hcp
      have hcl : c ≠ ld := by
        rintro rfl
        exact hne ho.parent
      have hurl : (rl'.ctnt c).url = (w.rl.ctnt ld).url := by rw [ho.parsed hcl]
      rw [hurl]
      exact h ld ho.live
    · have hurl : (rl'.ctnt c).url = (w.rl.ctnt c).url := by rw [ho.other hc hcp]
      have hid : (rl'.ctnt c).id = (w.rl.ctnt c).id := by rw [ho.other hc hcp]
      rw [hurl]
      exact h c (hid.symm.trans hc)

theorem Permitted.op (h : Permitted w) (hg : Good w) (hop : Op w w') : Permitted w' := by
  cases hop with
  | addCtnt m url delOk hm => exact h.addCtnt hg m url delOk
  | notify c ok hc =>
    rcases notify_cases w c ok with heq | ⟨-, -, heq⟩
    · rw [heq]
      exact h
    · rw [heq]
      cases ok with
      | false => exact h
      | true =>
        have hlog : Permitted (w.logged (.add c true true)) := h
        exact hlog.setFlag c setNotify
  | mute _ hmute =>
    cases hmute with
    | addMgmt gen url hask =>
      obtain ⟨g, hrep⟩ := hg.rep
      have hctnt := (addMgmt_spec hrep true url hask.ne.1).1
      intro c hc
      simp only [ResList.LiveCtnt, hctnt] at hc ⊢
      exact h c hc
    | ngxDownload c ans url hc => exact h
    | flag c f hc hf => exact h.setFlag c f
    | handOver ctrlLd parsed hctrl hlive hst hne => exact h.handOver hg hlive hne
    | logged e he => exact h
    | finish r evs lp => exact h

theorem Ops.permitted (hg : Good w) (h : Permitted w) (ho : Ops w w') : Permitted w' :=
  Ops.keeps (R := fun _ w₁ => Permitted w₁) hg h (fun _ _ hg₁ h₁ hop => h₁.op hg₁ hop) ho

theorem Served.permitted (h : Served w) : Permitted w := by
  have hblank := ldInit_blank
  exact Ops.permitted hblank.sound.toGood (fun c hc => absurd hc (hblank.ctnt c).1)
    (ServesTo.ops hblank.sound.toGood h)

end Permitted

/-- What a visit without an error makes of the flags of a record; `loaded` says that what it may take
over has been announced. -/
structure SettledFlag (loaded : Prop) (f f' : Flag) : Prop where
  announced : f.stored = true → f'.stored = true ∧ f'.notify = true
  iFail : f.stored = false → f'.iFail = false
  dFail : f.stored = false → f.iFail = false → f'.dFail = false
  handed : loaded → f.stored = false → f'.stored = true → f'.notify = true

theorem SettledFlag.mono {a b : Prop} {f f' : Flag} (h : SettledFlag a f f') (hab : b → a) : SettledFlag b f f' :=
  ⟨h.announced, h.iFail, h.dFail, fun hb => h.handed (hab hb)⟩

section Visit

variable [L : Layout] {w w' : World} {c : CtntIdx} {m : MgmtIdx}

/-- The Snooping module knows every loaded record. -/
def LoadedAnnounced (rl : ResList) : Prop :=
  ∀ c m, rl.LiveCtnt c → (rl.ctnt c).parent = some m → (rl.mgmt m).gen = .ctrlLd →
    (rl.ctnt c).flag.notify = true

omit L in
theorem LoadedAnnounced.setFlag {rl : ResList} (h : LoadedAnnounced rl) (c : CtntIdx) {f : Flag → Flag}
    (hf : ∀ x, (f x).notify = x.notify) : LoadedAnnounced (rl.setFlag c f) := by
  intro i m hi hpar hgen
  rw [setFlag_flag]
  have hn := h i m ((setFlag_live c i f).mp hi) ((setFlag_parent c i f).symm.trans hpar) hgen
  split_ifs with hic
  · rw [hf]
    exact hn
  · exact hn

/-- What an attempt that does not fail may do to the flags of `c`: a hand-over. -/
structure FlagsKept (rl rl' : ResList) (c : CtntIdx) : Prop where
  iFail : (rl'.ctnt c).flag.iFail = (rl.ctnt c).flag.iFail
  dFail : (rl'.ctnt c).flag.dFail = (rl.ctnt c).flag.dFail
  handed : LoadedAnnounced rl → (rl.ctnt c).flag.stored = false → (rl'.ctnt c).flag.stored = true →
    (rl'.ctnt c).flag.notify = true

omit L in
theorem FlagsKept.refl (rl : ResList) (c : CtntIdx) : FlagsKept rl rl c :=
  ⟨rfl, rfl, fun _ hst hst' => absurd (hst.symm.trans hst') Bool.false_ne_true⟩

theorem handleCached_flags (h : Good w) (ht : Target w c) {ctrlLd : Option MgmtIdx}
    (hctrl : ctrlLd = w.youkuCtrlLd ∨ ctrlLd = w.sohuCtrlLd) :
    FlagsKept w.rl (w.handleCached ctrlLd c).2.rl c := by
  cases ctrlLd with
  | none => exact .refl w.rl c
  | some m =>
    have hm : w.Controller m := hctrl.imp Eq.symm Eq.symm
    obtain ⟨g, hg⟩ := h.rep
    simp only [World.handleCached, handleCachedBy, World.logged]
    rcases handleCached_handedOver hg m ht.live with heq | ⟨ld, rl', heq, ho⟩
    · rw [heq]
      exact .refl w.rl c
    · have hne : c ≠ ld := by
        rintro rfl
        exact ht.parent m hm ho.parent
      have hflag : (rl'.ctnt c).flag = { (w.rl.ctnt c).flag with
          stored := (w.rl.ctnt c).flag.stored || (w.rl.ctnt ld).flag.stored
          notify := (w.rl.ctnt c).flag.notify || (w.rl.ctnt ld).flag.notify } := by
        rw [ho.parsed hne]
      rw [heq]
      refine ⟨?_, ?_, fun hld _ _ => ?_⟩
      · simp only [hflag]
      · simp only [hflag]
      · simp only [hflag, hld ld m ho.live ho.parent (h.ctrl m hm).2, Bool.or_true]

omit L in
theorem orIFail_success {r : HcResult × World} (h : (orIFail c r).1 = .success) :
    r.1 = .success ∧ orIFail c r = r := by
  unfold orIFail at h ⊢
  split_ifs at h ⊢ with hret
  · exact absurd h hret
  · exact ⟨not_not.mp hret, rfl⟩

/-- A download attempt that succeeds sets neither failure flag. -/
theorem youkuDownload_flags (h : Good w) (ht : Target w c) {ans : Answer}
    (hret : (scYoukuDownload w c ans).1 = .success) : FlagsKept w.rl (scYoukuDownload w c ans).2.rl c := by
  have hts := touches_ngxDownload ht.live ans.ngx (w.rl.ctnt c).url (w.rl.ctnt c).localpath
  have hrl : (w.ngxDownload ans.ngx (w.rl.ctnt c).url (w.rl.ctnt c).localpath).2.rl = w.rl := rfl
  unfold scYoukuDownload at hret ⊢
  rw [(orIFail_success hret).2]
  generalize w.ngxDownload ans.ngx (w.rl.ctnt c).url (w.rl.ctnt c).localpath = r at hts hrl
  by_cases hex : r.1 = .errExists
  · rw [if_pos hex, ← hrl]
    exact handleCached_flags (h.moves hts.moves) (ht.touched hts) (.inl rfl)
  · rw [if_neg hex, hrl]
    exact .refl _ c

theorem sohuDownload_flags (h : Good w) (ht : Target w c) {ans : Answer}
    (hret : (scSohuDownload w c ans).1 = .success) : FlagsKept w.rl (scSohuDownload w c ans).2.rl c := by
  have hlog := touches_sohuCalled ht.live ans.session
  have ht' := ht.touched hlog
  have hg' := h.moves hlog.moves
  have hkeep : FlagsKept w.rl ((w.sohuCalled c ans.session).handleCached w.sohuCtrlLd c).2.rl c :=
    handleCached_flags hg' ht' (.inr rfl)
  rw [scSohuDownload_eq] at hret ⊢
  rcases sohuStage_cases hg' ht' ans.session with ⟨w', hst, -, -⟩ | ⟨w', realUrl, hst, -, hrl⟩ | ⟨w', hst, hok⟩
  · rw [hst] at hret
    cases hret
  · rw [hst] at hret ⊢
    dsimp only at hret ⊢
    rw [(orIFail_success hret).2]
    have hsame : w'.rl = w.rl := hrl
    simp only [World.ngxDownload, World.logged, hsame]
    exact .refl _ c
  · rw [hst]
    have hw' : w' = ((w.sohuCalled c ans.session).handleCached w.sohuCtrlLd c).2 := (congrArg Prod.snd hok).symm
    rw [hw']
    exact hkeep

theorem retryDownload_flags (h : Good w) (ht : Target w c) {ans : Answer}
    (hret : (scResRetryDownload w c ans).1 = .success) : FlagsKept w.rl (scResRetryDownload w c ans).2.rl c := by
  unfold scResRetryDownload at hret ⊢
  dsimp only at hret ⊢
  split_ifs at hret ⊢
  cases hsite : (w.rl.ctnt c).site with
  | sohu =>
    rw [hsite] at hret
    exact sohuDownload_flags h ht hret
  | youku =>
    rw [hsite] at hret
    exact youkuDownload_flags h ht hret
  | max =>
    rw [hsite] at hret
    dsimp only at hret ⊢
    rw [(orIFail_success hret).2]
    exact .refl _ c

/-- A visit: the record stays where it is, the others are left alone. -/
structure Visited (w : World) (c : CtntIdx) (r : ℕ × World) : Prop where
  touches : Touches w r.2 c
  notify : (w.rl.ctnt c).flag.notify = true → (r.2.rl.ctnt c).flag.notify = true
  settled : r.1 = 0 → SettledFlag (LoadedAnnounced w.rl) (w.rl.ctnt c).flag (r.2.rl.ctnt c).flag

theorem retryIFail_visited (h : Good w) (ht : Target w c) (hst : (w.rl.ctnt c).flag.stored = false)
    (hf : (w.rl.ctnt c).flag.iFail = true) (ans : Answer) :
    Visited w c (match scResRetryDownload w c ans with
      | (.success, w) => ((0 : ℕ), w.setFlag c unsetIFail)
      | (_, w) => (1, w)) := by
  have hno : (w.rl.ctnt c).flag.notify ≠ true := fun hn => by simp [h.notify c hn] at hst
  have hts := (retryDownload_handled h ht ans).touches
  have hkeep : (scResRetryDownload w c ans).1 = .success → FlagsKept w.rl (scResRetryDownload w c ans).2.rl c :=
    retryDownload_flags h ht
  generalize scResRetryDownload w c ans = r at hts hkeep
  obtain ⟨ret, w'⟩ := r
  cases ret with
  | success =>
    refine ⟨hts.trans (touches_setFlag hts.live unsetIFail_keeps), fun hn => absurd hn hno, fun _ => ?_⟩
    simp only [World.setFlag, setFlag_self]
    refine ⟨fun hs => ?_, fun _ => rfl, fun _ hi => ?_, (hkeep rfl).handed⟩
    · simp [hst] at hs
    · simp [hf] at hi
  | _ => exact ⟨hts, fun hn => absurd hn hno, fun h0 => absurd h0 Nat.one_ne_zero⟩

theorem retryDFail_visited (h : Good w) (ht : Target w c) (hst : (w.rl.ctnt c).flag.stored = false)
    (hi : (w.rl.ctnt c).flag.iFail = false) (ans : Answer) :
    Visited w c (match scResRetryDownload (w.setFlag c unsetDFail) c ans with
      | (.success, w) => ((0 : ℕ), w)
      | (_, w) => (1, w)) := by
  have hno : (w.rl.ctnt c).flag.notify ≠ true := fun hn => by simp [h.notify c hn] at hst
  have hclear := touches_setFlag ht.live unsetDFail_keeps
  have h' := h.moves hclear.moves
  have ht' := ht.touched hclear
  have hts := hclear.trans (retryDownload_handled h' ht' ans).touches
  have hkeep : (scResRetryDownload (w.setFlag c unsetDFail) c ans).1 = .success → FlagsKept
      (w.setFlag c unsetDFail).rl (scResRetryDownload (w.setFlag c unsetDFail) c ans).2.rl c :=
    retryDownload_flags h' ht'
  generalize scResRetryDownload (w.setFlag c unsetDFail) c ans = r at hts hkeep
  obtain ⟨ret, w'⟩ := r
  cases ret with
  | success =>
    obtain ⟨hki, hkd, hhand⟩ := hkeep rfl
    simp only [World.setFlag, setFlag_self] at hki hkd hhand
    refine ⟨hts, fun hn => absurd hn hno, fun _ => ⟨fun hs => ?_, fun _ => hki.trans hi, fun _ _ => hkd, ?_⟩⟩
    · simp [hst] at hs
    · exact fun hld => hhand (hld.setFlag c fun x => (unsetDFail_keeps x).2)
  | _ => exact ⟨hts, fun hn => absurd hn hno, fun h0 => absurd h0 Nat.one_ne_zero⟩

theorem addCtntUrl_touches (hc : w.rl.LiveCtnt c) (ok : Bool) :
    Touches w (scResAddCtntUrl w c ok).2 c ∧
      ((scResAddCtntUrl w c ok).1 = true →
        ((scResAddCtntUrl w c ok).2.rl.ctnt c).flag.stored = true ∧
          ((scResAddCtntUrl w c ok).2.rl.ctnt c).flag.notify = true) := by
  have hmove : Moves w (scResNotifyRiUrl w c ok).2 := .single (.notify w c ok hc)
  have hn : Touches w (scResNotifyRiUrl w c ok).2 c ∧
      ((scResNotifyRiUrl w c ok).1 = true →
        ((scResNotifyRiUrl w c ok).2.rl.ctnt c).flag.stored = true ∧
          ((scResNotifyRiUrl w c ok).2.rl.ctnt c).flag.notify = true) := by
    rcases notify_cases w c ok with heq | ⟨hst, -, heq⟩
    · rw [heq]
      exact ⟨.refl hc, fun h => absurd h Bool.false_ne_true⟩
    · rw [heq] at hmove ⊢
      cases ok with
      | false =>
        refine ⟨⟨⟨hmove, fun _ _ hi => ⟨hi, rfl, rfl⟩, List.Subset.refl _⟩, hc, rfl⟩, fun h => ?_⟩
        exact absurd h Bool.false_ne_true
      | true =>
        refine ⟨⟨⟨hmove, fun i hi hlive => ?_, List.Subset.refl _⟩, ?_, ?_⟩, fun _ => ?_⟩
        · refine ⟨(setFlag_live c i _).mp hlive, ?_, ?_⟩ <;>
            simp only [if_true, World.setFlag, World.logged, setFlag_other _ hi]
        · exact (setFlag_live c c _).mpr hc
        · exact setFlag_parent c c _
        · simp only [if_true, World.setFlag, World.logged, setFlag_self, setNotify, hst, and_self]
  unfold scResAddCtntUrl scYkAddCtntUrl
  split_ifs
  · exact ⟨.refl hc, fun h => by simp at h⟩
  · exact hn
  · exact hn

theorem Visited.none (hc : w.rl.LiveCtnt c)
    (hs : SettledFlag (LoadedAnnounced w.rl) (w.rl.ctnt c).flag (w.rl.ctnt c).flag) : Visited w c (0, w) :=
  ⟨.refl hc, id, fun _ => hs⟩

theorem processCtnt_visited (h : Good w) (hc : w.rl.LiveCtnt c) (ans : Answer) :
    Visited w c (processCtnt w c ans) := by
  unfold processCtnt
  by_cases hurl : (w.rl.ctnt c).url = []
  · simp only [hurl, if_true]
    exact ⟨.refl hc, id, fun h0 => absurd h0 Nat.one_ne_zero⟩
  simp only [hurl, if_false]
  cases hst : (w.rl.ctnt c).flag.stored with
  | false =>
    have ht := h.target_of_unstored hc hst
    simp only [Bool.not_false, if_true]
    split_ifs with hi hd
    · exact retryIFail_visited h ht hst hi ans
    · exact retryDFail_visited h ht hst (by simpa using hi) ans
    · refine .none hc ⟨fun hs => ?_, fun _ => by simpa using hi, fun _ _ => by simpa using hd, fun _ hs hs' => ?_⟩
      · simp [hst] at hs
      · simp [hs] at hs'
  | true =>
    simp only [Bool.not_true, Bool.false_eq_true, if_false]
    split_ifs with hn
    · have hadd := addCtntUrl_touches hc ans.snooping
      generalize scResAddCtntUrl w c ans.snooping = r at hadd
      obtain ⟨ok, w'⟩ := r
      obtain ⟨hts, hset⟩ := hadd
      have hno : (w.rl.ctnt c).flag.notify ≠ true := by simpa using hn
      cases ok with
      | false => exact ⟨hts, fun hn => absurd hn hno, fun h0 => absurd h0 Nat.one_ne_zero⟩
      | true =>
        refine ⟨hts, fun hn => absurd hn hno, fun _ => ⟨fun _ => hset rfl, fun hs => ?_, fun hs => ?_, fun _ hs => ?_⟩⟩
        all_goals simp [hst] at hs
    · refine .none hc ⟨fun _ => ⟨hst, by simpa using hn⟩, fun hs => ?_, fun hs => ?_, fun _ hs => ?_⟩
      all_goals simp [hst] at hs

end Visit

section Passes

variable [L : Layout] {w w' : World} {c : CtntIdx} {m : MgmtIdx} {p p₁ p₂ : Pass} {g g₁ g₂ : Shape}
  {ans : ℕ → CtntIdx → Answer} {fuel : ℕ}

/-- Part of a pass, which visits the records of `l` that are still in use: without an error they are
settled, and the others keep their flags. -/
structure PassPart (p p' : Pass) (g g' : Shape) (l : List CtntIdx) : Prop where
  moves : Moves p.w p'.w
  rep : Rep p'.w.rl g'
  thins : ∀ i, (g'.kids i).Sublist (g.kids i)
  err : p.err ≤ p'.err
  notify : ∀ c, p'.w.rl.LiveCtnt c → (p.w.rl.ctnt c).flag.notify = true → (p'.w.rl.ctnt c).flag.notify = true
  settled : p'.err = p.err → ∀ c ∈ l, p'.w.rl.LiveCtnt c →
    SettledFlag (LoadedAnnounced p.w.rl) (p.w.rl.ctnt c).flag (p'.w.rl.ctnt c).flag
  others : ∀ c, c ∉ l → p'.w.rl.LiveCtnt c → (p'.w.rl.ctnt c).flag = (p.w.rl.ctnt c).flag

/-- A record that is in use hangs in the list where it hung before. -/
theorem Rep.mem_thinner {rl rl' : ResList} {g' : Shape} (hg : Rep rl g) (hg' : Rep rl' g')
    (hthin : ∀ i, (g'.kids i).Sublist (g.kids i)) (hc : c ∈ g.kids m) (hlive : rl'.LiveCtnt c) : c ∈ g'.kids m := by
  obtain ⟨i, -, hpar⟩ := hg'.parent c hlive
  have hi := (hg'.memKids i c).mpr ⟨hlive, hpar⟩
  have hpar₀ := ((hg.memKids i c).mp ((hthin i).subset hi)).2
  rw [((hg.memKids m c).mp hc).2] at hpar₀
  rwa [Option.some.inj hpar₀]

/-- A loaded record after part of a pass was one before. -/
theorem PassPart.loadedBefore {l : List CtntIdx} (h : PassPart p p₁ g g₁ l) (hgood : Good p.w) (hg : Rep p.w.rl g)
    (hlive : p₁.w.rl.LiveCtnt c) (hpar : (p₁.w.rl.ctnt c).parent = some m) (hgen : (p₁.w.rl.mgmt m).gen = .ctrlLd) :
    p.w.rl.LiveCtnt c ∧ (p.w.rl.ctnt c).parent = some m ∧ (p.w.rl.mgmt m).gen = .ctrlLd := by
  obtain ⟨hlive₀, hpar₀⟩ := (hg.memKids m c).mp ((h.thins m).subset ((h.rep.memKids m c).mpr ⟨hlive, hpar⟩))
  obtain ⟨i, hi, hpar'⟩ := hg.parent c hlive₀
  obtain rfl : m = i := Option.some.inj (hpar₀.symm.trans hpar')
  exact ⟨hlive₀, hpar₀, (congrArg ResInfo.gen (Moves.mgmtInfo hgood h.moves hi)).symm.trans hgen⟩

theorem PassPart.loaded {l : List CtntIdx} (h : PassPart p p₁ g g₁ l) (hgood : Good p.w) (hg : Rep p.w.rl g)
    (hld : LoadedAnnounced p.w.rl) : LoadedAnnounced p₁.w.rl := by
  intro c m hlive hpar hgen
  obtain ⟨hlive₀, hpar₀, hgen₀⟩ := h.loadedBefore hgood hg hlive hpar hgen
  exact h.notify c hlive (hld c m hlive₀ hpar₀ hgen₀)

theorem PassPart.refl (hg : Rep p.w.rl g) : PassPart p p g g [] :=
  ⟨.refl, hg, fun _ => List.Sublist.refl _, le_rfl, fun _ _ => id, fun _ _ hc => absurd hc List.not_mem_nil,
    fun _ _ _ => rfl⟩

theorem PassPart.trans {l₁ l₂ : List CtntIdx} (h : Good p.w) (hg : Rep p.w.rl g) (h₁ : PassPart p p₁ g g₁ l₁)
    (h₂ : PassPart p₁ p₂ g₁ g₂ l₂) (hd : l₁.Disjoint l₂) : PassPart p p₂ g g₂ (l₁ ++ l₂) where
  moves := Relation.ReflTransGen.trans h₁.moves h₂.moves
  rep := h₂.rep
  thins i := (h₂.thins i).trans (h₁.thins i)
  err := h₁.err.trans h₂.err
  notify c hlive hn := h₂.notify c hlive (h₁.notify c (h₁.rep.live_of_thinner h₂.rep h₂.thins hlive) hn)
  settled he c hc hlive := by
    have he₁ := h₁.err
    have he₂ := h₂.err
    have hlive₁ := h₁.rep.live_of_thinner h₂.rep h₂.thins hlive
    rcases List.mem_append.mp hc with hc | hc
    · rw [h₂.others c (fun hc₂ => hd hc hc₂) hlive]
      exact h₁.settled (by omega) c hc hlive₁
    · rw [← h₁.others c (fun hc₁ => hd hc₁ hc) hlive₁]
      exact (h₂.settled (by omega) c hc hlive).mono (h₁.loaded h hg)
  others c hc hlive := by
    have hlive₁ := h₁.rep.live_of_thinner h₂.rep h₂.thins hlive
    rw [List.mem_append, not_or] at hc
    exact (h₂.others c hc.2 hlive).trans (h₁.others c hc.1 hlive₁)

/-- The records that have gone on the way need not be visited. -/
theorem PassPart.widen {l l' : List CtntIdx} (h : PassPart p p₁ g g₁ l') (hsub : l' ⊆ l)
    (hrest : ∀ c ∈ l, p₁.w.rl.LiveCtnt c → c ∈ l') : PassPart p p₁ g g₁ l :=
  { h with
    settled := fun he c hc hlive => h.settled he c (hrest c hc hlive) hlive
    others := fun c hc hlive => h.others c (fun hc' => hc (hsub hc')) hlive }

theorem part_round (h : Good p.w) (hg : Rep p.w.rl g) (hc : c ∈ g.kids m) (a : Answer) :
    ∃ g', g'.kids m = g.kids m ∧
      PassPart p ⟨(processCtnt p.w c a).2, p.visited + 1, p.err + (processCtnt p.w c a).1⟩ g g' [c] := by
  obtain ⟨g', P, hu, hP⟩ := processCtnt_round h hg hc a
  have hv := processCtnt_visited h ((hg.memKids m c).mp hc).1 a
  have hother : ∀ i, i ∉ [c] → (processCtnt p.w c a).2.rl.LiveCtnt i →
      ((processCtnt p.w c a).2.rl.ctnt i).flag = (p.w.rl.ctnt i).flag := by
    intro i hi hlive
    exact (hv.touches.other i (fun hic => hi (List.mem_singleton.mpr hic)) hlive).2.1
  refine ⟨g', hu.kept m hP, hv.touches.moves, hu.rep, hu.thins, Nat.le_add_right _ _, fun i hlive hn => ?_,
    fun he i hi _ => ?_, hother⟩
  · by_cases hi : i ∈ [c]
    · obtain rfl := List.mem_singleton.mp hi
      exact hv.notify hn
    · rw [hother i hi hlive]
      exact hn
  · obtain rfl := List.mem_singleton.mp hi
    exact hv.settled (by simpa using he)

theorem processCtntLoop_part {curr : Option CtntIdx} {l₀ l : List CtntIdx} (h : Good p.w)
    (hg : Rep p.w.rl g) (hk : g.kids m = l₀ ++ l)
    (hl : IsList (fun c => (p.w.rl.ctnt c).siblings) curr l)
    (hrun : processCtntLoop ans fuel p curr = some p₁) : ∃ g₁, PassPart p p₁ g g₁ l := by
  induction l generalizing p g curr l₀ fuel with
  | nil =>
    rw [isList_nil.mp hl, processCtntLoop] at hrun
    obtain rfl := Option.some.inj hrun
    exact ⟨g, .refl hg⟩
  | cons c l ih =>
    obtain ⟨rfl, -⟩ := hl
    cases fuel with
    | zero => cases hrun
    | succ fuel =>
      rw [processCtntLoop] at hrun
      obtain ⟨g', hk', h₁⟩ := part_round h hg (by simp [hk] : c ∈ g.kids m) (ans p.visited c)
      have hkids : g'.kids m = (l₀ ++ [c]) ++ l := by rw [hk', hk]; simp
      have hrest := h₁.rep.child m
      rw [hk', hk] at hrest
      obtain ⟨g₁, h₂⟩ := ih (h.moves h₁.moves) h₁.rep hkids hrest.suffix hrun
      have hnodup := hg.nodup m
      rw [hk] at hnodup
      have hc : c ∉ l := (List.nodup_cons.mp hnodup.of_append_right).1
      exact ⟨g₁, h₁.trans h hg h₂ (List.singleton_disjoint.mpr hc)⟩

/-- The slots that the pass skips have no children. -/
theorem Rep.kids_of_id {rl : ResList} (hg : Rep rl g) (hid : SC_RES_INFO_NUM_MAX_MGMT ≤ (rl.mgmt m).id) :
    g.kids m = [] := by
  refine List.eq_nil_iff_forall_not_mem.mpr fun c hc => ?_
  obtain ⟨hlive, hpar⟩ := (hg.memKids m c).mp hc
  obtain ⟨i, hi, hpar'⟩ := hg.parent c hlive
  obtain rfl : m = i := Option.some.inj (hpar.symm.trans hpar')
  have := m.isLt
  unfold ResList.LiveMgmt at hi
  omega

theorem processMgmts_part (is : List MgmtIdx) (hnd : is.Nodup) (h : Good p.w) (hg : Rep p.w.rl g)
    (hrun : is.foldlM (fun (p : Pass) i =>
      if SC_RES_INFO_NUM_MAX_MGMT ≤ (p.w.rl.mgmt i).id then some p else scResListProcessCtnt ans fuel p i) p =
        some p₂) :
    ∃ g₂, PassPart p p₂ g g₂ (is.flatMap g.kids) := by
  induction is generalizing p g with
  | nil =>
    obtain rfl := Option.some.inj hrun
    exact ⟨g, .refl hg⟩
  | cons i is ih =>
    obtain ⟨hi, hnd⟩ := List.nodup_cons.mp hnd
    rw [List.foldlM_cons] at hrun
    obtain ⟨p₁, hone, hrest⟩ := Option.bind_eq_some_iff.mp hrun
    have hfirst : ∃ g₁, PassPart p p₁ g g₁ (g.kids i) := by
      split_ifs at hone with hid
      · obtain rfl := Option.some.inj hone
        rw [hg.kids_of_id hid]
        exact ⟨g, .refl hg⟩
      · exact processCtntLoop_part h hg (List.nil_append _).symm (hg.child i) hone
    obtain ⟨g₁, h₁⟩ := hfirst
    obtain ⟨g₂, h₂⟩ := ih hnd (h.moves h₁.moves) h₁.rep hrest
    refine ⟨g₂, h₁.trans h hg (h₂.widen ?_ fun c hc hlive => ?_) ?_⟩
    · intro c hc
      obtain ⟨j, hj, hcj⟩ := List.mem_flatMap.mp hc
      exact List.mem_flatMap.mpr ⟨j, hj, (h₁.thins j).subset hcj⟩
    · obtain ⟨j, hj, hcj⟩ := List.mem_flatMap.mp hc
      have hlive₁ := h₁.rep.live_of_thinner h₂.rep h₂.thins hlive
      exact List.mem_flatMap.mpr ⟨j, hj, hg.mem_thinner h₁.rep h₁.thins hcj hlive₁⟩
    · intro c hc hc'
      obtain ⟨j, hj, hcj⟩ := List.mem_flatMap.mp hc'
      have hpar := ((hg.memKids i c).mp hc).2
      rw [((hg.memKids j c).mp hcj).2] at hpar
      obtain rfl := Option.some.inj hpar
      exact hi hj

theorem processMgmt_live (h : Good w) (hrun : scResListProcessMgmt ans fuel { w := w } = some p)
    (hc : p.w.rl.LiveCtnt c) : w.rl.LiveCtnt c := by
  obtain ⟨g, hg⟩ := h.rep
  unfold scResListProcessMgmt at hrun
  obtain ⟨g', hp⟩ := processMgmts_part (p := { w := w }) _ (List.nodup_finRange _) h hg hrun
  exact hg.live_of_thinner hp.rep hp.thins hc

/-- A pass that counts no error has settled every record that is still in use, and announced every
loaded one. -/
theorem processMgmt_settled (h : Good w) (hrun : scResListProcessMgmt ans fuel { w := w } = some p)
    (herr : p.err = 0) :
    (∀ c, p.w.rl.LiveCtnt c → SettledFlag (LoadedAnnounced w.rl) (w.rl.ctnt c).flag (p.w.rl.ctnt c).flag) ∧
      LoadedAnnounced p.w.rl := by
  obtain ⟨g, hg⟩ := h.rep
  unfold scResListProcessMgmt at hrun
  obtain ⟨g', hp⟩ := processMgmts_part (p := { w := w }) _ (List.nodup_finRange _) h hg hrun
  have hset : ∀ c, p.w.rl.LiveCtnt c → SettledFlag (LoadedAnnounced w.rl) (w.rl.ctnt c).flag (p.w.rl.ctnt c).flag := by
    intro c hc
    have hlive : w.rl.LiveCtnt c := hg.live_of_thinner hp.rep hp.thins hc
    obtain ⟨m, -, hpar⟩ := hg.parent c hlive
    have hmem := (hg.memKids m c).mpr ⟨hlive, hpar⟩
    have hin : c ∈ (List.finRange SC_RES_INFO_NUM_MAX_MGMT).flatMap g.kids :=
      List.mem_flatMap.mpr ⟨m, List.mem_finRange m, hmem⟩
    exact hp.settled herr c hin hc
  refine ⟨hset, fun c m hlive hpar hgen => ?_⟩
  obtain ⟨hlive₀, hpar₀, hgen₀⟩ := hp.loadedBefore h hg hlive hpar hgen
  exact ((hset c hlive).announced (h.loaded c m hlive₀ hpar₀ hgen₀)).2

/-- Nothing is left to do for a record with these flags. -/
structure AtRest (f : Flag) : Prop where
  announced : f.stored = true → f.notify = true
  iFail : f.stored = false → f.iFail = false
  dFail : f.stored = false → f.dFail = false

omit L in
theorem SettledFlag.atRest {a : Prop} {f f₁ f₂ : Flag} (h₁ : SettledFlag a f f₁) (h₂ : SettledFlag True f₁ f₂) :
    AtRest f₂ := by
  have hback : ∀ {a : Prop} {f f' : Flag}, SettledFlag a f f' → f'.stored = false → f.stored = false := by
    intro a f f' hs hst
    by_contra hne
    rw [(hs.announced (by simpa using hne)).1] at hst
    cases hst
  refine ⟨fun hst => ?_, fun hst => ?_, fun hst => ?_⟩
  · cases hst₁ : f₁.stored with
    | true => exact (h₂.announced hst₁).2
    | false => exact h₂.handed trivial hst₁ hst
  · exact h₂.iFail (hback h₂ hst)
  · have hst₁ := hback h₂ hst
    exact h₂.dFail hst₁ (h₁.iFail (hback h₁ hst₁))

def Quiescent (w : World) : Prop := ∀ c, w.rl.LiveCtnt c → AtRest (w.rl.ctnt c).flag

theorem processCtnt_atRest (hurl : (w.rl.ctnt c).url ≠ []) (hq : AtRest (w.rl.ctnt c).flag) (ans : Answer) :
    processCtnt w c ans = (0, w) := by
  unfold processCtnt
  rw [if_neg hurl]
  cases hst : (w.rl.ctnt c).flag.stored with
  | false => simp [hq.iFail hst, hq.dFail hst]
  | true => simp [hq.announced hst]

/-- A traversal in which no record needs anything. -/
theorem processCtntLoop_idle {curr : Option CtntIdx} {l : List CtntIdx}
    (hidle : ∀ c ∈ l, ∀ a, processCtnt p.w c a = (0, p.w))
    (hl : IsList (fun c => (p.w.rl.ctnt c).siblings) curr l)
    (hrun : processCtntLoop ans fuel p curr = some p₁) : p₁.w = p.w ∧ p₁.err = p.err := by
  induction l generalizing p curr fuel with
  | nil =>
    rw [isList_nil.mp hl, processCtntLoop] at hrun
    obtain rfl := Option.some.inj hrun
    exact ⟨rfl, rfl⟩
  | cons c l ih =>
    obtain ⟨rfl, htail⟩ := hl
    cases fuel with
    | zero => cases hrun
    | succ fuel =>
      rw [processCtntLoop, hidle c List.mem_cons_self] at hrun
      have hrest : ∀ i ∈ l, ∀ a, processCtnt p.w i a = (0, p.w) := fun i hi => hidle i (List.mem_cons_of_mem c hi)
      obtain ⟨hw, herr⟩ := ih (p := ⟨p.w, p.visited + 1, p.err + 0⟩) hrest htail hrun
      exact ⟨hw, herr⟩

theorem processMgmt_idle (hg : Rep w.rl g) (hidle : ∀ c, w.rl.LiveCtnt c → ∀ a, processCtnt w c a = (0, w))
    (hrun : scResListProcessMgmt ans fuel { w := w } = some p) : p.w = w ∧ p.err = 0 := by
  have hall : ∀ (is : List MgmtIdx) (p₀ : Pass), p₀.w = w → p₀.err = 0 →
      is.foldlM (fun (p : Pass) i => if SC_RES_INFO_NUM_MAX_MGMT ≤ (p.w.rl.mgmt i).id then some p
        else scResListProcessCtnt ans fuel p i) p₀ = some p → p.w = w ∧ p.err = 0 := by
    intro is
    induction is with
    | nil =>
      intro p₀ hw herr hfold
      obtain rfl := Option.some.inj hfold
      exact ⟨hw, herr⟩
    | cons i is ih =>
      intro p₀ hw herr hfold
      rw [List.foldlM_cons] at hfold
      obtain ⟨p₁, hone, hrest⟩ := Option.bind_eq_some_iff.mp hfold
      split_ifs at hone
      · obtain rfl := Option.some.inj hone
        exact ih p₀ hw herr hrest
      · subst hw
        have hkids : ∀ c ∈ g.kids i, ∀ a, processCtnt p₀.w c a = (0, p₀.w) :=
          fun c hc => hidle c ((hg.memKids i c).mp hc).1
        obtain ⟨hw₁, herr₁⟩ := processCtntLoop_idle hkids (hg.child i) hone
        exact ih p₁ hw₁ (herr₁.trans herr) hrest
  unfold scResListProcessMgmt at hrun
  exact hall _ { w := w } rfl rfl hrun

def CleanPass (w w' : World) : Prop :=
  ∃ ans fuel p, scResListProcessMgmt ans fuel { w := w } = some p ∧ p.err = 0 ∧ p.w = w'

theorem CleanPass.servesTo (h : CleanPass w w') : ServesTo w w' := by
  obtain ⟨ans, fuel, p, hrun, -, rfl⟩ := h
  exact .single (OwnStep.serve (.processFunc w ans fuel p hrun))

/-- Two passes without an error, whatever they did, leave nothing to do: what is cached is announced, and
of what is not no failure is recorded; if no call has lost a record, its download is running. Every
further pass comes to an end, makes no call and changes nothing, until something else happens. -/
theorem clean_passes_converge {w₁ w₂ : World} (h : Served w) (h₁ : CleanPass w w₁) (h₂ : CleanPass w₁ w₂) :
    Quiescent w₂ ∧
    (LogSafe w₂ → ∀ c, w₂.rl.LiveCtnt c →
      ((w₂.rl.ctnt c).flag.stored = true ∧ (w₂.rl.ctnt c).flag.notify = true) ∨
        (w₂.rl.ctnt c).localpath ∈ w₂.running) ∧
    ∀ ans fuel, SC_RES_INFO_NUM_MAX_CTNT ≤ fuel →
      ∃ p, scResListProcessMgmt ans fuel { w := w₂ } = some p ∧ p.w = w₂ ∧ p.err = 0 := by
  have hs₁ := h.servesTo h₁.servesTo
  have hs₂ := hs₁.servesTo h₂.servesTo
  obtain ⟨ans₁, fuel₁, p₁, hrun₁, herr₁, rfl⟩ := h₁
  obtain ⟨ans₂, fuel₂, p₂, hrun₂, herr₂, rfl⟩ := h₂
  obtain ⟨hset₁, hld⟩ := processMgmt_settled h.good hrun₁ herr₁
  obtain ⟨hset₂, -⟩ := processMgmt_settled hs₁.good hrun₂ herr₂
  obtain ⟨g₁, hg₁⟩ := hs₁.good.rep
  obtain ⟨g₂, hg₂⟩ := hs₂.good.rep
  have hlive₁ : ∀ c, p₂.w.rl.LiveCtnt c → p₁.w.rl.LiveCtnt c := fun c hc => processMgmt_live hs₁.good hrun₂ hc
  have hquiet : Quiescent p₂.w := by
    intro c hc
    exact (hset₁ c (hlive₁ c hc)).atRest ((hset₂ c hc).mono fun _ => hld)
  refine ⟨hquiet, fun hsafe c hc => ?_, fun ans fuel hfuel => ?_⟩
  · rcases no_download_lost hs₂.reachable hsafe c hc with hst | hi | hd | hrun
    · exact .inl ⟨hst, (hquiet c hc).announced hst⟩
    · cases hst : (p₂.w.rl.ctnt c).flag.stored with
      | true => exact .inl ⟨rfl, (hquiet c hc).announced hst⟩
      | false => simp [(hquiet c hc).iFail hst] at hi
    · cases hst : (p₂.w.rl.ctnt c).flag.stored with
      | true => exact .inl ⟨rfl, (hquiet c hc).announced hst⟩
      | false => simp [(hquiet c hc).dFail hst] at hd
    · exact .inr hrun
  · obtain ⟨-, p, t, hrun, -⟩ := process_pass_safe hs₂.reachable ans
    have hrun := (hrun fuel hfuel).1
    have hidle : ∀ c, p₂.w.rl.LiveCtnt c → ∀ a, processCtnt p₂.w c a = (0, p₂.w) := by
      intro c hc a
      exact processCtnt_atRest (ne_nil_of_permit (hs₂.permitted c hc)) (hquiet c hc) a
    exact ⟨p, hrun, processMgmt_idle hg₂ hidle hrun⟩

end Passes

def cachedPass (w : World) : Option Pass :=
  @scResListProcessMgmt sampleLayout (fun _ _ => redirectedToCache) 2 { w := w }

/-- The first pass hands the loaded record over before it has been announced, so that one pass is not
enough; the second announces it. -/
theorem clean_passes_converge_hand_over :
    ∃ w₁ w₂, @CleanPass sampleLayout waitingForCached w₁ ∧ ¬ Quiescent w₁ ∧ @CleanPass sampleLayout w₁ w₂ ∧
      Quiescent w₂ := by
  have hload : @ServesTo sampleLayout (@scLdInit sampleLayout) oneLoaded :=
    .single (OwnStep.serve (@OwnStep.load sampleLayout _ _ _))
  have hserved : @Served sampleLayout waitingForCached :=
    hload.tail (SpRequest.serve (@SpRequest.down sampleLayout _ _ _))
  have hrun : (cachedPass waitingForCached).any (fun p₁ => p₁.err == 0 && decide (p₁.w.rl.LiveCtnt 4094) &&
      (p₁.w.rl.ctnt 4094).flag == { stored := true } && (cachedPass p₁.w).any fun p₂ => p₂.err == 0) = true := by
    decide +kernel
  obtain ⟨p₁, h₁, hrun⟩ := (Option.any_eq_true _ _).mp hrun
  simp only [Bool.and_eq_true, beq_iff_eq, decide_eq_true_eq] at hrun
  obtain ⟨⟨⟨herr₁, hlive⟩, hflag⟩, hrun⟩ := hrun
  obtain ⟨p₂, h₂, herr₂⟩ := (Option.any_eq_true _ _).mp hrun
  have hc₁ : @CleanPass sampleLayout waitingForCached p₁.w := ⟨_, _, p₁, h₁, herr₁, rfl⟩
  have hc₂ : @CleanPass sampleLayout p₁.w p₂.w := ⟨_, _, p₂, h₂, by simpa using herr₂, rfl⟩
  refine ⟨p₁.w, p₂.w, hc₁, fun hq => ?_, hc₂, (@clean_passes_converge sampleLayout _ _ _ hserved hc₁ hc₂).1⟩
  have hann := (hq 4094 hlive).announced
  rw [hflag] at hann
  exact absurd (hann rfl) Bool.false_ne_true

end HotCache
