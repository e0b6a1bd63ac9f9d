import HotCache.Proofs.Service
import HotCache.Spec.Pass

/-! The process pass follows the child lists while its own calls unlink records. Such a call comes
only from a record that is not stored, and unlinks only a child of a controller; the children of the
controllers are all stored. So the list being traversed never changes under the traversal, and the
other lists only lose records. -/

namespace HotCache

open CStr FreeList Linked

def CtrlLdStored (rl : ResList) : Prop :=
  ∀ c m, rl.LiveCtnt c → (rl.ctnt c).parent = some m → (rl.mgmt m).gen = .ctrlLd →
    (rl.ctnt c).flag.stored = true

theorem searchReads_isList {rl : ResList} {vid : Bytes} {fuel : ℕ} {p : Option CtntIdx} {l : List CtntIdx}
    (hl : IsList (fun c => (rl.ctnt c).siblings) p l) (hfuel : l.length ≤ fuel) :
    ∃ reads, searchReads rl vid fuel p = some reads ∧ reads <+: l := by
  induction fuel generalizing p l with
  | zero =>
    obtain rfl : l = [] := List.length_eq_zero_iff.mp (by omega)
    rw [isList_nil.mp hl]
    exact ⟨[], rfl, List.prefix_refl _⟩
  | succ fuel ih =>
    cases l with
    | nil =>
      rw [isList_nil.mp hl]
      exact ⟨[], rfl, List.prefix_refl _⟩
    | cons a l =>
      obtain ⟨rfl, htail⟩ := hl
      rw [searchReads]
      split_ifs
      · exact ⟨[a], rfl, ⟨l, rfl⟩⟩
      · obtain ⟨reads, heq, hpre⟩ := ih htail (by simpa using hfuel)
        refine ⟨a :: reads, by rw [heq]; rfl, ?_⟩
        exact (List.prefix_cons_inj a).mpr hpre

theorem logReads_append {l l' : List Ev} {reads reads' : List SiblingRead} (h : logReads l = some reads)
    (h' : logReads l' = some reads') : logReads (l ++ l') = some (reads ++ reads') := by
  unfold logReads at h h' ⊢
  obtain ⟨a, ha, rfl⟩ := Option.map_eq_some_iff.mp h
  obtain ⟨b, hb, rfl⟩ := Option.map_eq_some_iff.mp h'
  rw [List.mapM_append, ha, hb]
  simp

theorem logReads_singleton {e : Ev} {reads : List SiblingRead} (h : e.reads = some reads) :
    logReads [e] = some reads := by
  simp [logReads, h]

section Links

variable [L : Layout]

/-- A record in use afterwards was in use before, if no list has grown. -/
theorem Rep.live_of_thinner {rl rl' : ResList} {g g' : Shape} {c : CtntIdx} (hg : Rep rl g) (hg' : Rep rl' g')
    (hthin : ∀ i, (g'.kids i).Sublist (g.kids i)) (hc : rl'.LiveCtnt c) : rl.LiveCtnt c := by
  obtain ⟨m, -, hpar⟩ := hg'.parent c hc
  have hmem := (hthin m).subset ((hg'.memKids m c).mpr ⟨hc, hpar⟩)
  exact ((hg.memKids m c).mp hmem).1

/-- The lists only lose records, and only those of the management records `P` do; and the hand-overs that are
logged on the way read slots in use, which have been so from the start. -/
structure Unlinks (P : MgmtIdx → Prop) (w w' : World) (g g' : Shape) : Prop where
  rep : Rep w'.rl g'
  kept : ∀ i, ¬ P i → g'.kids i = g.kids i
  thins : ∀ i, (g'.kids i).Sublist (g.kids i)
  log : ∃ l reads, w'.log = w.log ++ l ∧ logReads l = some reads ∧
    ∀ r ∈ reads, r.rl.LiveCtnt r.slot ∧ w.rl.LiveCtnt r.slot

variable {P : MgmtIdx → Prop} {w w' w'' : World} {g g' g'' : Shape} {c : CtntIdx} {ctrlLd : Option MgmtIdx}

theorem Unlinks.quiet (hrep : Rep w'.rl g) (hlog : w'.log = w.log) : Unlinks P w w' g g :=
  ⟨hrep, fun _ _ => rfl, fun _ => .refl _, [], [], by rw [hlog, List.append_nil], rfl, List.forall_mem_nil _⟩

theorem Unlinks.logged (hrep : Rep w.rl g) {e : Ev} (he : e.reads = some []) : Unlinks P w (w.logged e) g g :=
  ⟨hrep, fun _ _ => rfl, fun _ => .refl _, [e], [], rfl, logReads_singleton he, List.forall_mem_nil _⟩

theorem Unlinks.trans (hg : Rep w.rl g) (h₁ : Unlinks P w w' g g') (h₂ : Unlinks P w' w'' g' g'') :
    Unlinks P w w'' g g'' where
  rep := h₂.rep
  kept := fun i hi => (h₂.kept i hi).trans (h₁.kept i hi)
  thins := fun i => (h₂.thins i).trans (h₁.thins i)
  log := by
    obtain ⟨l₁, reads₁, hl₁, hr₁, hlive₁⟩ := h₁.log
    obtain ⟨l₂, reads₂, hl₂, hr₂, hlive₂⟩ := h₂.log
    refine ⟨l₁ ++ l₂, reads₁ ++ reads₂, by rw [hl₂, hl₁, List.append_assoc], logReads_append hr₁ hr₂, fun r hr => ?_⟩
    rcases List.mem_append.mp hr with hr | hr
    · exact hlive₁ r hr
    · obtain ⟨hlive, hstart⟩ := hlive₂ r hr
      exact ⟨hlive, hg.live_of_thinner h₁.rep h₁.thins hstart⟩

theorem setFlag_unlinks (hg : Rep w.rl g) (c : CtntIdx) (f : Flag → Flag) : Unlinks P w (w.setFlag c f) g g :=
  .quiet (hg.setFlag c f) rfl

theorem ngxDownload_unlinks (hg : Rep w.rl g) (ans : NgxAnswer) (url lp : Bytes) :
    Unlinks P w (w.ngxDownload ans url lp).2 g g :=
  ⟨hg, fun _ _ => rfl, fun _ => .refl _, [_], [], rfl, logReads_singleton rfl, List.forall_mem_nil _⟩

theorem orIFail_unlinks {r : HcResult × World} (hg : Rep w.rl g) (h : Unlinks P w r.2 g g') (c : CtntIdx) :
    Unlinks P w (orIFail c r).2 g g' := by
  unfold orIFail
  split_ifs
  · exact h.trans hg (setFlag_unlinks h.rep c setIFail)
  · exact h

/-- The search of a round reads only children of its controller, and comes to an end. -/
theorem handleCachedReads_live {rl : ResList} (hg : Rep rl g) (ctrlLd : Option MgmtIdx) (c : CtntIdx) :
    ∃ reads, handleCachedReads rl ctrlLd c = some reads ∧ ∀ i ∈ reads, rl.LiveCtnt i := by
  unfold handleCachedReads
  cases ctrlLd with
  | none => exact ⟨[], rfl, List.forall_mem_nil _⟩
  | some m =>
    simp only
    split_ifs
    · obtain ⟨reads, heq, hpre⟩ := searchReads_isList (hg.child m) (hg.kids_length m).le
      refine ⟨reads, heq, fun i hi => ?_⟩
      exact ((hg.memKids m i).mp (hpre.subset hi)).1
    · exact ⟨[], rfl, List.forall_mem_nil _⟩

/-- A hand-over takes at most one record out of the list that it searches. -/
theorem handleCached_unlinks (hg : Rep w.rl g) (hlive : w.rl.LiveCtnt c) (hctrl : ∀ m, ctrlLd = some m → P m) :
    ∃ g', Unlinks P w (w.handleCached ctrlLd c).2 g g' := by
  obtain ⟨reads, hreads, hall⟩ := handleCachedReads_live hg ctrlLd c
  have hlog : ∃ l reads, (w.handleCached ctrlLd c).2.log = w.log ++ l ∧ logReads l = some reads ∧
      ∀ r ∈ reads, r.rl.LiveCtnt r.slot ∧ w.rl.LiveCtnt r.slot := by
    refine ⟨[.handleCached w.rl ctrlLd c], reads.map (⟨w.rl, ·⟩), rfl, ?_, fun r hr => ?_⟩
    · refine logReads_singleton ?_
      rw [Ev.reads, hreads]
      rfl
    · obtain ⟨i, hi, rfl⟩ := List.mem_map.mp hr
      exact ⟨hall i hi, hall i hi⟩
  cases ctrlLd with
  | none => exact ⟨g, hg, fun _ _ => rfl, fun _ => .refl _, hlog⟩
  | some m =>
    rcases handleCached_cases hg m hlive with heq | ⟨pre, ld, l₁, l₂, hk, -, hr, heq⟩
    · refine ⟨g, ?_, fun _ _ => rfl, fun _ => .refl _, hlog⟩
      simp only [World.handleCached, handleCachedBy, World.logged, heq]
      exact hg
    · refine ⟨{ g with freeC := ld :: g.freeC, kids := Function.update g.kids m (l₁ ++ l₂) }, ?_, fun i hi => ?_,
        fun i => ?_, hlog⟩
      · simp only [World.handleCached, handleCachedBy, World.logged, heq]
        exact ((hg.dupCtnt hlive).putLoaded hk hr).2
      · have him : i ≠ m := by
          rintro rfl
          exact hi (hctrl i rfl)
        exact Function.update_of_ne him _ _
      · by_cases him : i = m
        · subst him
          simp only [Function.update_self, hk]
          exact (List.Sublist.refl l₁).append (List.sublist_cons_self ld l₂)
        · simp only [Function.update_of_ne him]
          exact List.Sublist.refl _

theorem youkuDownload_unlinks (hg : Rep w.rl g) (hlive : w.rl.LiveCtnt c) (hctrl : ∀ m, w.Controller m → P m)
    (ans : Answer) : ∃ g', Unlinks P w (scYoukuDownload w c ans).2 g g' := by
  have hn := ngxDownload_unlinks (P := P) hg ans.ngx (w.rl.ctnt c).url (w.rl.ctnt c).localpath
  unfold scYoukuDownload
  dsimp only
  split_ifs
  · have hyouku : ∀ m, w.youkuCtrlLd = some m → P m := fun m hm => hctrl m (.inl hm)
    obtain ⟨g', hh⟩ := handleCached_unlinks hn.rep hlive hyouku
    exact ⟨g', orIFail_unlinks hg (hn.trans hg hh) c⟩
  · exact ⟨g, orIFail_unlinks hg hn c⟩

theorem sohuDownload_unlinks (hg : Rep w.rl g) (hlive : w.rl.LiveCtnt c) (hctrl : ∀ m, w.Controller m → P m)
    (ans : Answer) : ∃ g', Unlinks P w (scSohuDownload w c ans).2 g g' := by
  have hcalled : Unlinks P w (w.sohuCalled c ans.session) g g := .logged hg rfl
  obtain ⟨g', hstage⟩ : ∃ g', Unlinks P w (sohuStage (w.sohuCalled c ans.session) c ans.session).world g g' := by
    rcases sohuStage_world (w.sohuCalled c ans.session) c ans.session with heq | heq
    · rw [heq]
      exact ⟨g, hcalled⟩
    · rw [heq]
      have hsohu : ∀ m, w.sohuCtrlLd = some m → P m := fun m hm => hctrl m (.inr hm)
      obtain ⟨g', hh⟩ := handleCached_unlinks hcalled.rep hlive hsohu
      exact ⟨g', hcalled.trans hg hh⟩
  rw [scSohuDownload_eq]
  refine ⟨g', ?_⟩
  cases hst : sohuStage (w.sohuCalled c ans.session) c ans.session with
  | exit w' =>
    rw [hst] at hstage
    exact hstage
  | cached w' =>
    rw [hst] at hstage
    exact hstage
  | download w' realUrl =>
    rw [hst] at hstage
    exact orIFail_unlinks hg (hstage.trans hg (ngxDownload_unlinks hstage.rep ans.ngx realUrl _)) c

theorem retryDownload_unlinks (hg : Rep w.rl g) (hlive : w.rl.LiveCtnt c) (hctrl : ∀ m, w.Controller m → P m)
    (ans : Answer) : ∃ g', Unlinks P w (scResRetryDownload w c ans).2 g g' := by
  unfold scResRetryDownload
  dsimp only
  split_ifs
  · exact ⟨g, .quiet hg rfl⟩
  · split
    · exact sohuDownload_unlinks hg hlive hctrl ans
    · exact youkuDownload_unlinks hg hlive hctrl ans
    · exact ⟨g, orIFail_unlinks hg (ngxDownload_unlinks hg ans.ngx _ _) c⟩

/-- A stored record is at most announced. -/
theorem addCtntUrl_unlinks (hg : Rep w.rl g) (c : CtntIdx) (ok : Bool) :
    Unlinks P w (scResAddCtntUrl w c ok).2 g g := by
  have hn : Unlinks P w (scResNotifyRiUrl w c ok).2 g g := by
    rcases notify_cases w c ok with heq | ⟨-, -, heq⟩
    · rw [heq]
      exact .quiet hg rfl
    · have hadd (ok : Bool) : Unlinks P w (w.logged (.add c true ok)) g g := .logged hg rfl
      rw [heq]
      cases ok with
      | false => exact hadd false
      | true => exact (hadd true).trans hg (setFlag_unlinks (hadd true).rep c setNotify)
  unfold scResAddCtntUrl scYkAddCtntUrl
  split_ifs
  · exact .quiet hg rfl
  · exact hn
  · exact hn

/-- One round of the loop for a record that is not stored. -/
theorem processCtnt_unlinks (hg : Rep w.rl g) (hlive : w.rl.LiveCtnt c) (ans : Answer) :
    ∃ g', Unlinks w.Controller w (processCtnt w c ans).2 g g' := by
  unfold processCtnt
  simp only
  split_ifs
  · exact ⟨g, .quiet hg rfl⟩
  · obtain ⟨g', hr⟩ := retryDownload_unlinks (P := w.Controller) hg hlive (fun _ => id) ans
    generalize scResRetryDownload w c ans = r at hr
    obtain ⟨ret, w'⟩ := r
    cases ret with
    | success => exact ⟨g', hr.trans hg (setFlag_unlinks hr.rep c unsetIFail)⟩
    | _ => exact ⟨g', hr⟩
  · have hclear := setFlag_unlinks (P := w.Controller) hg c unsetDFail
    have hlive' : (w.setFlag c unsetDFail).rl.LiveCtnt c := (setFlag_live c c unsetDFail).mpr hlive
    obtain ⟨g', hr⟩ := retryDownload_unlinks (P := w.Controller) hclear.rep hlive' (fun _ => id) ans
    have hr' := hclear.trans hg hr
    generalize scResRetryDownload (w.setFlag c unsetDFail) c ans = r at hr'
    obtain ⟨ret, w'⟩ := r
    cases ret with
    | _ => exact ⟨g', hr'⟩
  · exact ⟨g, .quiet hg rfl⟩
  · have hn := addCtntUrl_unlinks (P := w.Controller) hg c ans.snooping
    generalize scResAddCtntUrl w c ans.snooping = r at hn
    obtain ⟨ok, w'⟩ := r
    cases ok with
    | _ => exact ⟨g, hn⟩
  · exact ⟨g, .quiet hg rfl⟩

theorem processCtnt_stored (hg : Rep w.rl g) (hst : (w.rl.ctnt c).flag.stored = true) (ans : Answer) :
    Unlinks P w (processCtnt w c ans).2 g g := by
  unfold processCtnt
  simp only [hst, Bool.not_true, Bool.false_eq_true, if_false]
  split_ifs
  · exact .quiet hg rfl
  · have hn := addCtntUrl_unlinks (P := P) hg c ans.snooping
    generalize scResAddCtntUrl w c ans.snooping = r at hn
    obtain ⟨ok, w'⟩ := r
    cases ok with
    | _ => exact hn
  · exact .quiet hg rfl

/-- A round for a child of `m` leaves the list of `m` alone: if `m` is a controller, its children are
stored and nothing is unlinked. -/
theorem processCtnt_round (h : Good w) (hg : Rep w.rl g) {m : MgmtIdx} (hc : c ∈ g.kids m) (ans : Answer) :
    ∃ g' P, Unlinks P w (processCtnt w c ans).2 g g' ∧ ¬ P m := by
  obtain ⟨hlive, hpar⟩ := (hg.memKids m c).mp hc
  by_cases hm : w.Controller m
  · have hst := h.loaded c m hlive hpar (h.ctrl m hm).2
    exact ⟨g, fun _ => False, processCtnt_stored hg hst ans, id⟩
  · obtain ⟨g', hr⟩ := processCtnt_unlinks hg hlive ans
    exact ⟨g', _, hr, hm⟩

/-- What part of a pass, over lists that together are `l`, does: the records examined are among `l`,
in order, and every slot whose `siblings` is read is in use at that moment and has been from the
start. -/
structure Traversed (p p' : Pass) (t t' : Trace) (g g' : Shape) (l : List CtntIdx) : Prop where
  sound : Sound p'.w
  rep : Rep p'.w.rl g'
  thins : ∀ i, (g'.kids i).Sublist (g.kids i)
  examined : ∃ l', t'.examined = t.examined ++ l' ∧ l'.Sublist l
  reads : ∀ r ∈ t'.reads, r ∈ t.reads ∨ (r.rl.LiveCtnt r.slot ∧ p.w.rl.LiveCtnt r.slot)

variable {p p₁ p₂ : Pass} {t t₁ t₂ : Trace} {g₁ g₂ : Shape} {ans : ℕ → CtntIdx → Answer} {m : MgmtIdx}

theorem Traversed.refl (h : Sound p.w) (hg : Rep p.w.rl g) : Traversed p p t t g g [] :=
  ⟨h, hg, fun _ => List.Sublist.refl _, ⟨[], by simp, List.Sublist.refl _⟩, fun _ hr => .inl hr⟩

theorem Traversed.trans {l₁ l₂ : List CtntIdx} (hg : Rep p.w.rl g) (h₁ : Traversed p p₁ t t₁ g g₁ l₁)
    (h₂ : Traversed p₁ p₂ t₁ t₂ g₁ g₂ l₂) : Traversed p p₂ t t₂ g g₂ (l₁ ++ l₂) where
  sound := h₂.sound
  rep := h₂.rep
  thins := fun i => (h₂.thins i).trans (h₁.thins i)
  examined := by
    obtain ⟨k₁, he₁, hk₁⟩ := h₁.examined
    obtain ⟨k₂, he₂, hk₂⟩ := h₂.examined
    exact ⟨k₁ ++ k₂, by rw [he₂, he₁, List.append_assoc], hk₁.append hk₂⟩
  reads := fun r hr => by
    rcases h₂.reads r hr with hr | ⟨hlive, hstart⟩
    · exact h₁.reads r hr
    · exact .inr ⟨hlive, hg.live_of_thinner h₁.rep h₁.thins hstart⟩

variable (ans) (t)

theorem traversed_round (h : Sound p.w) (hg : Rep p.w.rl g) (hc : c ∈ g.kids m) :
    ∃ searched g',
      logReads ((processCtnt p.w c (ans p.visited c)).2.log.drop p.w.log.length) = some searched ∧
      g'.kids m = g.kids m ∧
      Traversed p
        ⟨(processCtnt p.w c (ans p.visited c)).2, p.visited + 1, p.err + (processCtnt p.w c (ans p.visited c)).1⟩
        t ⟨t.examined ++ [c],
          t.reads ++ searched ++ [⟨(processCtnt p.w c (ans p.visited c)).2.rl, c⟩]⟩
        g g' [c] := by
  obtain ⟨g', P, hu, hP⟩ := processCtnt_round h.toGood hg hc (ans p.visited c)
  obtain ⟨l, searched, hl, hreads, hlives⟩ := hu.log
  have hk := hu.kept m hP
  have hlive := ((hg.memKids m c).mp hc).1
  have hdrop : (processCtnt p.w c (ans p.visited c)).2.log.drop p.w.log.length = l := by
    rw [hl, List.drop_left]
  refine ⟨searched, g', hdrop ▸ hreads, hk, processCtnt_sound h c _, hu.rep, hu.thins, ⟨[c], rfl, .refl _⟩, ?_⟩
  intro r hr
  simp only [List.mem_append, List.mem_singleton] at hr
  rcases hr with (hr | hr) | rfl
  · exact .inl hr
  · exact .inr (hlives r hr)
  · -- `c` is still a child of `m` when its own link is read
    rw [← hk] at hc
    exact .inr ⟨((hu.rep.memKids m c).mp hc).1, hlive⟩

/-- The traversal of the children of `m`, from `curr` on: the fuel that covers the list is enough. -/
theorem tracedCtntLoop_spec {curr : Option CtntIdx} {l₀ l : List CtntIdx} (h : Sound p.w)
    (hg : Rep p.w.rl g) (hk : g.kids m = l₀ ++ l)
    (hl : IsList (fun c => (p.w.rl.ctnt c).siblings) curr l) :
    ∃ p' t' g', (∀ fuel, l.length ≤ fuel → tracedCtntLoop ans fuel (p, t) curr = some (p', t')) ∧
      Traversed p p' t t' g g' l := by
  induction l generalizing p t g curr l₀ with
  | nil =>
    rw [isList_nil.mp hl]
    refine ⟨p, t, g, fun fuel _ => ?_, .refl h hg⟩
    rw [tracedCtntLoop]
  | cons c l ih =>
    obtain ⟨rfl, -⟩ := hl
    obtain ⟨searched, g₁, hreads, hk₁, h₁⟩ :=
      traversed_round t ans h hg (by simp [hk] : c ∈ g.kids m)
    have hkids : g₁.kids m = (l₀ ++ [c]) ++ l := by rw [hk₁, hk]; simp
    have hrest := h₁.rep.child m
    rw [hk₁, hk] at hrest
    obtain ⟨p', t', g', hrun, h₂⟩ := ih _ h₁.sound h₁.rep hkids hrest.suffix
    refine ⟨p', t', g', fun fuel hfuel => ?_, h₁.trans hg h₂⟩
    cases fuel with
    | zero => simp at hfuel
    | succ fuel =>
      rw [tracedCtntLoop]
      dsimp only
      rw [hreads]
      exact hrun fuel (by simpa using hfuel)

theorem tracedMgmts_spec (is : List MgmtIdx) (h : Sound p.w) (hg : Rep p.w.rl g) :
    ∃ p' t' g', (∀ fuel, SC_RES_INFO_NUM_MAX_CTNT ≤ fuel → is.foldlM (fun (pt : Pass × Trace) i =>
        if SC_RES_INFO_NUM_MAX_MGMT ≤ (pt.1.w.rl.mgmt i).id then some pt
        else tracedCtntLoop ans fuel pt (pt.1.w.rl.mgmt i).child) (p, t) = some (p', t')) ∧
      Traversed p p' t t' g g' (is.flatMap g.kids) := by
  induction is generalizing p t g with
  | nil => exact ⟨p, t, g, fun _ _ => rfl, .refl h hg⟩
  | cons i is ih =>
    have hone : ∃ p₁ t₁ g₁, (∀ fuel, SC_RES_INFO_NUM_MAX_CTNT ≤ fuel →
        (if SC_RES_INFO_NUM_MAX_MGMT ≤ (p.w.rl.mgmt i).id then some (p, t)
        else tracedCtntLoop ans fuel (p, t) (p.w.rl.mgmt i).child) = some (p₁, t₁)) ∧
        Traversed p p₁ t t₁ g g₁ (g.kids i) := by
      split_ifs
      · have hr : Traversed p p t t g g [] := .refl h hg
        exact ⟨p, t, g, fun _ _ => rfl, hr.sound, hr.rep, hr.thins, ⟨[], by simp, List.nil_sublist _⟩, hr.reads⟩
      · have hlen := hg.kids_length i
        obtain ⟨p₁, t₁, g₁, hrun, h₁⟩ := tracedCtntLoop_spec t ans h hg
          (List.nil_append _).symm (hg.child i)
        exact ⟨p₁, t₁, g₁, fun fuel hfuel => hrun fuel (by omega), h₁⟩
    obtain ⟨p₁, t₁, g₁, hrun₁, h₁⟩ := hone
    obtain ⟨p', t', g', hrun₂, h₂⟩ := ih t₁ h₁.sound h₁.rep
    refine ⟨p', t', g', fun fuel hfuel => ?_, ?_⟩
    · rw [List.foldlM_cons]
      simp only [hrun₁ fuel hfuel]
      exact hrun₂ fuel hfuel
    · have h₃ := h₁.trans hg h₂
      obtain ⟨l', hl', hsub⟩ := h₃.examined
      refine ⟨h₃.sound, h₃.rep, h₃.thins, ⟨l', hl', hsub.trans ?_⟩, h₃.reads⟩
      rw [List.flatMap_cons]
      -- the lists visited later have only lost records since
      exact (List.Sublist.refl _).append (List.Sublist.flatMap_right is fun j _ => h₁.thins j)

variable {ans} {t}

theorem Rep.kids_flatMap_nodup {rl : ResList} (hg : Rep rl g) :
    ((List.finRange SC_RES_INFO_NUM_MAX_MGMT).flatMap g.kids).Nodup := by
  rw [List.nodup_flatMap]
  refine ⟨fun i _ => hg.nodup i, (List.nodup_finRange _).imp fun {i j} hij => ?_⟩
  intro c hci hcj
  have hi := ((hg.memKids i c).mp hci).2
  rw [((hg.memKids j c).mp hcj).2] at hi
  exact hij (Option.some.inj hi).symm

/-- The trace is beside the pass: without it, the pass is the one of the system. -/
theorem tracedCtntLoop_fst (fuel : ℕ) (pt : Pass × Trace) (curr : Option CtntIdx) {pt' : Pass × Trace}
    (h : tracedCtntLoop ans fuel pt curr = some pt') : processCtntLoop ans fuel pt.1 curr = some pt'.1 := by
  induction fuel generalizing pt curr with
  | zero =>
    cases curr with
    | none =>
      rw [tracedCtntLoop] at h
      rw [processCtntLoop, Option.some.inj h]
    | some c => cases h
  | succ fuel ih =>
    cases curr with
    | none =>
      rw [tracedCtntLoop] at h
      rw [processCtntLoop, Option.some.inj h]
    | some c =>
      rw [tracedCtntLoop] at h
      obtain ⟨searched, -, h⟩ := Option.bind_eq_some_iff.mp h
      exact ih _ _ h

theorem tracedProcessMgmt_fst {fuel : ℕ} {pt pt' : Pass × Trace}
    (h : tracedProcessMgmt ans fuel pt = some pt') :
    scResListProcessMgmt ans fuel pt.1 = some pt'.1 := by
  unfold tracedProcessMgmt at h
  unfold scResListProcessMgmt
  generalize List.finRange SC_RES_INFO_NUM_MAX_MGMT = is at h
  induction is generalizing pt with
  | nil => rw [List.foldlM_nil] at h ⊢; exact congrArg _ (congrArg _ (Option.some.inj h))
  | cons i is ih =>
    rw [List.foldlM_cons] at h ⊢
    obtain ⟨pt₁, hone, hrest⟩ := Option.bind_eq_some_iff.mp h
    refine Option.bind_eq_some_iff.mpr ⟨pt₁.1, ?_, ih hrest⟩
    split_ifs at hone ⊢
    · exact congrArg _ (congrArg _ (Option.some.inj hone))
    · exact tracedCtntLoop_fst fuel pt _ hone

theorem Reachable.ctrlLdStored (h : Reachable w) : CtrlLdStored w.rl := h.sound.toGood.loaded

/-- One call of `sc_res_list_process_func` in a reachable state, whatever the network answers: it comes
to an end, examines no record twice, reads `siblings` only of slots in use, none of them taken
during the pass, and leaves the children of the controllers stored, as it found them. -/
theorem process_pass_safe (h : Reachable w) (ans : ℕ → CtntIdx → Answer) :
    CtrlLdStored w.rl ∧ ∃ p t, (∀ fuel, SC_RES_INFO_NUM_MAX_CTNT ≤ fuel →
        scResListProcessMgmt ans fuel { w := w } = some p ∧
        tracedProcessMgmt ans fuel ({ w := w }, {}) = some (p, t)) ∧
      t.examined.Nodup ∧ (∀ r ∈ t.reads, r.rl.LiveCtnt r.slot ∧ w.rl.LiveCtnt r.slot) ∧
      CtrlLdStored p.w.rl := by
  obtain ⟨g, hg⟩ := h.sound.toGood.rep
  obtain ⟨p, t, g', hrun, ht⟩ := tracedMgmts_spec (p := { w := w }) {} ans
    (List.finRange SC_RES_INFO_NUM_MAX_MGMT) h.sound hg
  have htraced : ∀ fuel, SC_RES_INFO_NUM_MAX_CTNT ≤ fuel →
      tracedProcessMgmt ans fuel ({ w := w }, {}) = some (p, t) := by
    intro fuel hfuel
    unfold tracedProcessMgmt
    exact hrun fuel hfuel
  refine ⟨h.ctrlLdStored, p, t, fun fuel hfuel => ?_, ?_, fun r hr => ?_, ht.sound.toGood.loaded⟩
  · have huntraced := tracedProcessMgmt_fst (htraced fuel hfuel)
    exact ⟨huntraced, htraced fuel hfuel⟩
  · obtain ⟨l', hl', hsub⟩ := ht.examined
    rw [hl']
    exact hg.kids_flatMap_nodup.sublist hsub
  · rcases ht.reads r hr with hr | hlive
    · cases hr
    · exact hlive

end Links

/-- A file has been loaded (slot 4095), and a DOWN request for it (slot 4094) did not reach Nginx. -/
def waitingForCached : World :=
  (@scSnoopingDoDown sampleLayout oneLoaded (bytes "f.youku.com/a.flv") ⟨none, .failed false, true⟩).2

def redirectedToCache : Answer :=
  ⟨none, .reply (bytes "HTTP/1.1 302 Found\r\nLocation: http://20.0.0.99:8080/a.flv\r\n\r\n") false, true⟩

theorem process_pass_safe_hand_over :
    waitingForCached.rl.LiveCtnt 4095 ∧ ∃ p t, (∀ fuel, SC_RES_INFO_NUM_MAX_CTNT ≤ fuel →
        @scResListProcessMgmt sampleLayout (fun _ _ => redirectedToCache) fuel { w := waitingForCached } = some p ∧
        @tracedProcessMgmt sampleLayout (fun _ _ => redirectedToCache) fuel ({ w := waitingForCached }, {}) =
          some (p, t)) ∧
      ¬ p.w.rl.LiveCtnt 4095 ∧ t.examined.Nodup ∧
      ∀ r ∈ t.reads, r.rl.LiveCtnt r.slot ∧ waitingForCached.rl.LiveCtnt r.slot := by
  have hload : @Reachable sampleLayout oneLoaded := .single (OwnStep.step (@OwnStep.load sampleLayout _ _ _))
  have hreach : @Reachable sampleLayout waitingForCached :=
    hload.tail (SpRequest.step (@SpRequest.down sampleLayout _ _ _))
  obtain ⟨-, p, t, hrun, hnodup, hreads, -⟩ :=
    @process_pass_safe sampleLayout _ hreach fun _ _ => redirectedToCache
  refine ⟨by decide +kernel, p, t, hrun, ?_, hnodup, hreads⟩
  have hfreed : (@scResListProcessMgmt sampleLayout (fun _ _ => redirectedToCache) SC_RES_INFO_NUM_MAX_CTNT
      { w := waitingForCached }).all (fun p => !decide (p.w.rl.LiveCtnt 4095)) = true := by
    decide +kernel
  rw [(hrun _ le_rfl).1] at hfreed
  simpa using hfreed

end HotCache
