import HotCache.Proofs.Receive
import HotCache.Proofs.Upstream
import HotCache.Spec.Client

/-! Every step of the system is a sequence of a few kinds of moves. `Good` collects what each move
keeps: the pool invariant, the two controllers, the keys of the downloads, the flags and the log of ADD
calls. -/

namespace HotCache

open CStr

/-- A successful ADD for slot `c` has been logged since the slot was last taken. -/
def notified (log : List Ev) (c : CtntIdx) : Bool :=
  log.foldl (fun b e =>
    match e with
    | .get i => if i = c then false else b
    | .add i _ true => if i = c then true else b
    | _ => b) false

def Ev.Neutral : Ev → Prop
  | .get _ => False
  | .add .. => False
  | _ => True

/-- A call on the list of `w` that is logged apart from what it does. -/
def Ev.Noted (w : World) : Ev → Prop
  | .addNormal rl _ => rl = w.rl
  | .handleCached .. => True
  | .sohuDownload .. => True
  | _ => False

theorem Ev.Noted.neutral {w : World} {e : Ev} (h : e.Noted w) : e.Neutral := by
  cases e with
  | get | add => cases h
  | _ => trivial

theorem notified_append (log : List Ev) (e : Ev) (c : CtntIdx) :
    notified (log ++ [e]) c =
      match e with
      | .get i => if i = c then false else notified log c
      | .add i _ true => if i = c then true else notified log c
      | _ => notified log c := by
  simp only [notified, List.foldl_append, List.foldl_cons, List.foldl_nil]

theorem notified_neutral (log : List Ev) {e : Ev} (he : e.Neutral) (c : CtntIdx) :
    notified (log ++ [e]) c = notified log c := by
  rw [notified_append]
  cases e with
  | get | add => cases he
  | _ => rfl

theorem notified_of_no_get {c : CtntIdx} {s : Bool} (l₁ l₂ : List Ev) (h : Ev.get c ∉ l₂) :
    notified (l₁ ++ .add c s true :: l₂) c = true := by
  induction l₂ using List.reverseRecOn with
  | nil => rw [notified_append]; simp
  | append_singleton l e ih =>
    simp only [List.mem_append, List.mem_singleton, not_or] at h
    have := ih h.1
    rw [← List.cons_append, ← List.append_assoc, notified_append]
    cases e with
    | get i =>
      have hi : i ≠ c := by rintro rfl; exact h.2 rfl
      simp [hi, this]
    | add i stored ok => cases ok <;> simp [this]
    | _ => exact this

theorem addStored_append {log : List Ev} (h : ∀ c s ok, Ev.add c s ok ∈ log → s = true) {e : Ev}
    (he : ∀ c s ok, e = .add c s ok → s = true) :
    ∀ c s ok, Ev.add c s ok ∈ log ++ [e] → s = true := by
  intro c s ok hmem
  rcases List.mem_append.mp hmem with hmem | hmem
  · exact h c s ok hmem
  · exact he c s ok (List.mem_singleton.mp hmem).symm

theorem once_append {log : List Ev}
    (h : ∀ pre c s post, log = pre ++ .add c s true :: post → notified pre c = false)
    {e : Ev} (he : ∀ c s, e = .add c s true → notified log c = false) :
    ∀ pre c s post, log ++ [e] = pre ++ .add c s true :: post → notified pre c = false := by
  intro pre c s post heq
  rcases List.eq_nil_or_concat post with rfl | ⟨post, x, rfl⟩
  · obtain ⟨rfl, hlast⟩ := List.append_inj' heq rfl
    exact he c s (List.singleton_inj.mp hlast)
  · rw [List.concat_eq_append, ← List.cons_append, ← List.append_assoc] at heq
    exact h pre c s post (List.append_inj' heq rfl).1

/-- `sc_res_notify_ri_url` does nothing, or makes one ADD call for a stored record that has not been
announced. -/
theorem notify_cases (w : World) (c : CtntIdx) (ok : Bool) :
    scResNotifyRiUrl w c ok = (false, w) ∨
    ((w.rl.ctnt c).flag.stored = true ∧ (w.rl.ctnt c).flag.notify = false ∧
      scResNotifyRiUrl w c ok = if ok then (true, (w.logged (.add c true true)).setFlag c setNotify)
        else (false, w.logged (.add c true false))) := by
  unfold scResNotifyRiUrl
  by_cases hct : scResInfoIsCtnt (w.rl.ctnt c).toResInfo = true
  case neg => exact .inl (by simp [hct])
  by_cases hst : (w.rl.ctnt c).flag.stored = true
  case neg => exact .inl (by simp [hct, hst])
  by_cases hno : (w.rl.ctnt c).flag.notify = true
  case pos => exact .inl (by simp [hct, hno])
  refine .inr ⟨hst, by simpa using hno, ?_⟩
  cases ok <;> simp [hct, hst, hno]

/-- The flags that a record has after `ld` has been copied over `parsed`. -/
theorem dupCtnt_flag (rl : ResList) (ld parsed c : CtntIdx) :
    ((scResInfoDupCtnt rl ld parsed).ctnt c).flag =
      if c = parsed then { (rl.ctnt c).flag with
        stored := (rl.ctnt c).flag.stored || (rl.ctnt ld).flag.stored
        notify := (rl.ctnt c).flag.notify || (rl.ctnt ld).flag.notify }
      else (rl.ctnt c).flag := by
  unfold scResInfoDupCtnt
  by_cases hc : c = parsed
  · subst hc; simp
  · simp [hc]

theorem dupCtnt_links (rl : ResList) (ld parsed c : CtntIdx) :
    ((scResInfoDupCtnt rl ld parsed).ctnt c).id = (rl.ctnt c).id ∧
    ((scResInfoDupCtnt rl ld parsed).ctnt c).parent = (rl.ctnt c).parent := by
  unfold scResInfoDupCtnt
  by_cases hc : c = parsed
  · subst hc; simp
  · simp [Function.update_of_ne hc]

/-- A request asks for a management record: no record has its url, and a DOWN request has been logged or the
url is one that `sc_res_gen_origin_url` makes. -/
inductive Asked (w : World) (url : Bytes) : Gen → Prop
  | normal (hnew : scResInfoFindMgmt w.rl url = none) (hlog : Ev.addNormal w.rl url ∈ w.log) : Asked w url .normal
  | origin (hnew : scResInfoFindMgmt w.rl url = none) (hcopy : scResCopyUrl url true = url) : Asked w url .origin

theorem Asked.gen {w : World} {url : Bytes} {gen : Gen} (h : Asked w url gen) : gen = .normal ∨ gen = .origin := by
  cases h with
  | normal => exact .inl rfl
  | origin => exact .inr rfl

theorem Asked.ne {w : World} {url : Bytes} {gen : Gen} (h : Asked w url gen) : gen ≠ .content ∧ gen ≠ .ctrlLd := by
  rcases h.gen with rfl | rfl <;> decide

section Moves

variable [L : Layout]

def World.Controller (w : World) (m : MgmtIdx) : Prop := w.youkuCtrlLd = some m ∨ w.sohuCtrlLd = some m

/-- The moves that the steps of the system are made of. -/
inductive Move : World → World → Prop
  | addMgmt (w : World) (gen : Gen) (url : Bytes) (h : Asked w url gen) :
      Move w { w with rl := (scResInfoAddMgmt gen true w.rl url).2 }
  | addCtnt (w : World) (m : MgmtIdx) (url : Bytes) (delOk : Bool) (hm : w.rl.LiveMgmt m) :
      Move w (w.addCtnt m url delOk).2
  | ngxDownload (w : World) (ans : NgxAnswer) (url lp : Bytes) : Move w (w.ngxDownload ans url lp).2
  | flag (w : World) (c : CtntIdx) (f : Flag → Flag) (hc : w.rl.LiveCtnt c)
      (hf : ∀ x, (x.stored = true → (f x).stored = true) ∧ (f x).notify = x.notify) : Move w (w.setFlag c f)
  | notify (w : World) (c : CtntIdx) (ok : Bool) (hc : w.rl.LiveCtnt c) : Move w (scResNotifyRiUrl w c ok).2
  | handleCached (w : World) (ctrlLd : MgmtIdx) (parsed : CtntIdx) (hctrl : w.Controller ctrlLd)
      (hlive : w.rl.LiveCtnt parsed) (hne : (w.rl.ctnt parsed).parent ≠ some ctrlLd) :
      Move w (w.handleCached (some ctrlLd) parsed).2
  | logged (w : World) (e : Ev) (he : e.Noted w) : Move w (w.logged e)
  | finish (w : World) (r : Request) (evs : List PipeEvent) (lp : Bytes) :
      Move w (World.logged { w with running := w.running.erase lp } (.finish r evs w.running lp))

theorem World.addCtnt_of_none {w : World} {m : MgmtIdx} {url : Bytes} {delOk : Bool} {rl : ResList}
    (h : scResInfoAddCtnt w.rl m url delOk = (none, rl)) :
    w.addCtnt m url delOk = (none, World.logged { w with rl := rl } (.addCtnt ⟨w.rl, m, url, delOk⟩)) := by
  have hlogged : scResInfoAddCtnt (w.logged (.addCtnt ⟨w.rl, m, url, delOk⟩)).rl m url delOk = (none, rl) := h
  unfold World.addCtnt
  dsimp only
  rw [hlogged]
  rfl

theorem World.addCtnt_of_some {w : World} {m : MgmtIdx} {url : Bytes} {delOk : Bool} {c : CtntIdx} {rl : ResList}
    (h : scResInfoAddCtnt w.rl m url delOk = (some c, rl)) :
    w.addCtnt m url delOk =
      (some c, World.logged (World.logged { w with rl := rl } (.addCtnt ⟨w.rl, m, url, delOk⟩)) (.get c)) := by
  have hlogged : scResInfoAddCtnt (w.logged (.addCtnt ⟨w.rl, m, url, delOk⟩)).rl m url delOk = (some c, rl) := h
  unfold World.addCtnt
  dsimp only
  rw [hlogged]
  rfl

/-- `World.addCtnt` in its three cases: refused, failed after a slot was taken, and successful. -/
theorem World.addCtnt_cases (w : World) {g : Shape} (h : Rep w.rl g) (m : MgmtIdx) (url : Bytes) (delOk : Bool) :
    (scResInfoAddCtnt w.rl m url delOk = (none, w.rl) ∧
      w.addCtnt m url delOk = (none, w.logged (.addCtnt ⟨w.rl, m, url, delOk⟩))) ∨
    (∃ c l, g.freeC = c :: l ∧ scResInfoAddCtnt w.rl m url delOk = (none, w.rl.setFlag c fun _ => {}) ∧
      w.addCtnt m url delOk = (none,
        World.logged { w with rl := w.rl.setFlag c fun _ => {} } (.addCtnt ⟨w.rl, m, url, delOk⟩))) ∨
    ∃ c l lp, g.freeC = c :: l ∧ scResInfoGenCtntLocalPath (newCtnt w.rl m c url) = some lp ∧
      scResInfoAddCtnt w.rl m url delOk = (some c, ctntAdded w.rl m c url lp) ∧
      w.addCtnt m url delOk = (some c, World.logged (World.logged { w with rl := ctntAdded w.rl m c url lp }
        (.addCtnt ⟨w.rl, m, url, delOk⟩)) (.get c)) := by
  rcases HotCache.addCtnt_cases h m url delOk with heq | ⟨c, l, hf, heq⟩ | ⟨c, l, lp, hf, hlp, heq⟩
  · exact .inl ⟨heq, addCtnt_of_none heq⟩
  · exact .inr (.inl ⟨c, l, hf, heq, addCtnt_of_none heq⟩)
  · exact .inr (.inr ⟨c, l, lp, hf, hlp, heq, addCtnt_of_some heq⟩)

theorem World.addCtnt_rl (w : World) (m : MgmtIdx) (url : Bytes) (delOk : Bool) :
    (w.addCtnt m url delOk).2.rl = (scResInfoAddCtnt w.rl m url delOk).2 := by
  cases heq : scResInfoAddCtnt w.rl m url delOk with
  | mk o rl =>
    cases o with
    | none =>
      rw [addCtnt_of_none heq]
      rfl
    | some c =>
      rw [addCtnt_of_some heq]
      rfl

/-- The call is logged, and behind it the slot if one has been taken. -/
theorem World.addCtnt_log (w : World) (m : MgmtIdx) (url : Bytes) (delOk : Bool) :
    (w.addCtnt m url delOk).2.log = w.log ++ [.addCtnt ⟨w.rl, m, url, delOk⟩] ∨
    ∃ c, (w.addCtnt m url delOk).2.log = w.log ++ [.addCtnt ⟨w.rl, m, url, delOk⟩, .get c] := by
  cases heq : scResInfoAddCtnt w.rl m url delOk with
  | mk o rl =>
    cases o with
    | none =>
      rw [addCtnt_of_none heq]
      exact .inl rfl
    | some c =>
      rw [addCtnt_of_some heq]
      exact .inr ⟨c, List.append_assoc w.log [_] [_]⟩

theorem addCtnt_logged (w : World) (m : MgmtIdx) (url : Bytes) (delOk : Bool) :
    Ev.addCtnt ⟨w.rl, m, url, delOk⟩ ∈ (w.addCtnt m url delOk).2.log := by
  rcases w.addCtnt_log m url delOk with heq | ⟨c, heq⟩
  · simp [heq]
  · simp [heq]

def Moves : World → World → Prop := Relation.ReflTransGen Move

/-- What holds of the system at all times. -/
structure Good (w : World) : Prop where
  pool : PoolReachable w.rl
  ctrl : ∀ m, w.Controller m → w.rl.LiveMgmt m ∧ (w.rl.mgmt m).gen = .ctrlLd
  keys : ∀ lp ∈ w.running, EndsInType lp
  loaded : ∀ c m, w.rl.LiveCtnt c → (w.rl.ctnt c).parent = some m → (w.rl.mgmt m).gen = .ctrlLd →
    (w.rl.ctnt c).flag.stored = true
  notify : ∀ c, (w.rl.ctnt c).flag.notify = true → (w.rl.ctnt c).flag.stored = true
  addStored : ∀ c s ok, Ev.add c s ok ∈ w.log → s = true
  once : ∀ pre c s post, w.log = pre ++ .add c s true :: post → notified pre c = false
  fresh : ∀ c, w.rl.LiveCtnt c → (w.rl.ctnt c).flag.notify = false → notified w.log c = false

variable {w w' : World}

theorem Good.rep (h : Good w) : ∃ g, Rep w.rl g := reachable_rep h.pool

theorem Good.withRunning (h : Good w) {running : List Bytes} (hkeys : ∀ lp ∈ running, EndsInType lp) :
    Good { w with running := running } :=
  ⟨h.pool, h.ctrl, hkeys, h.loaded, h.notify, h.addStored, h.once, h.fresh⟩

theorem Good.logged (h : Good w) {e : Ev} (he : e.Neutral) : Good (w.logged e) where
  pool := h.pool
  ctrl := h.ctrl
  keys := h.keys
  loaded := h.loaded
  notify := h.notify
  addStored := addStored_append h.addStored fun c s ok heq => by
    rw [heq] at he
    cases he
  once := once_append h.once fun c s heq => by
    rw [heq] at he
    cases he
  fresh := fun c hlive hn => by
    simp only [World.logged, notified_neutral w.log he]
    exact h.fresh c hlive hn

theorem Good.setFlag (h : Good w) (c : CtntIdx) {f : Flag → Flag}
    (hf : ∀ x, (x.stored = true → (f x).stored = true) ∧ (f x).notify = x.notify) :
    Good (w.setFlag c f) := by
  have hst : ∀ i, (w.rl.ctnt i).flag.stored = true → ((w.rl.setFlag c f).ctnt i).flag.stored = true := by
    intro i hi
    rw [setFlag_flag]
    split_ifs
    · exact (hf _).1 hi
    · exact hi
  have hno : ∀ i, ((w.rl.setFlag c f).ctnt i).flag.notify = (w.rl.ctnt i).flag.notify := by
    intro i
    rw [setFlag_flag]
    split_ifs
    · exact (hf _).2
    · rfl
  exact
    { pool := h.pool.tail (.flag w.rl c f)
      ctrl := h.ctrl
      keys := h.keys
      loaded := fun i m hlive hpar hgen =>
        hst i (h.loaded i m ((setFlag_live ..).mp hlive) ((setFlag_parent ..).symm.trans hpar) hgen)
      notify := fun i hi => hst i (h.notify i ((hno i).symm.trans hi))
      addStored := h.addStored
      once := h.once
      fresh := fun i hlive hi => h.fresh i ((setFlag_live ..).mp hlive) ((hno i).symm.trans hi) }

theorem Good.addMgmt (h : Good w) {gen : Gen} (careType : Bool) (url : Bytes)
    (hgen : gen ≠ .content)
    (hctrl : gen ≠ .ctrlLd) (hpool : PoolReachable (scResInfoAddMgmt gen careType w.rl url).2) :
    Good { w with rl := (scResInfoAddMgmt gen careType w.rl url).2 } := by
  obtain ⟨g, hg⟩ := h.rep
  rcases addMgmt_cases hg careType url hgen with heq | ⟨m, l, site, hf, heq⟩
  · rw [heq]
    exact h
  rw [heq] at hpool ⊢
  have hdead : ¬ w.rl.LiveMgmt m := by simp [hg.liveMgmt_iff, hf]
  exact
    { pool := hpool
      ctrl := fun i hi => by
        obtain ⟨hlive, hg⟩ := h.ctrl i hi
        have him : i ≠ m := by rintro rfl; exact hdead hlive
        simp only [ResList.LiveMgmt, mgmtAdded_other him]
        exact ⟨hlive, hg⟩
      keys := h.keys
      loaded := fun c i hlive hpar hgi => by
        have him : i ≠ m := by
          rintro rfl
          simp only [mgmtAdded_self] at hgi
          exact hctrl hgi
        simp only [mgmtAdded_other him] at hgi
        exact h.loaded c i hlive hpar hgi
      notify := h.notify
      addStored := h.addStored
      once := h.once
      fresh := h.fresh }

theorem Good.clearFree (h : Good w) {c : CtntIdx} (hc : ¬ w.rl.LiveCtnt c)
    (hpool : PoolReachable (w.rl.setFlag c fun _ => {})) :
    Good { w with rl := w.rl.setFlag c fun _ => {} } where
  pool := hpool
  ctrl := h.ctrl
  keys := h.keys
  loaded := fun i m hlive hpar hgen => by
    have hi : i ≠ c := by rintro rfl; exact hc ((setFlag_live i i fun _ => {}).mp hlive)
    simp only [ResList.LiveCtnt, setFlag_other _ hi] at hlive hpar ⊢
    exact h.loaded i m hlive hpar hgen
  notify := fun i hi => by
    by_cases hic : i = c
    · subst hic; simp at hi
    · simp only [setFlag_other _ hic] at hi ⊢
      exact h.notify i hi
  addStored := h.addStored
  once := h.once
  fresh := fun i hlive hi => by
    have hic : i ≠ c := by rintro rfl; exact hc ((setFlag_live i i fun _ => {}).mp hlive)
    simp only [ResList.LiveCtnt, setFlag_other _ hic] at hlive hi
    exact h.fresh i hlive hi

theorem Good.addCtnt (h : Good w) {m : MgmtIdx} (hm : w.rl.LiveMgmt m) (url : Bytes)
    (delOk : Bool) :
    Good (w.addCtnt m url delOk).2 := by
  obtain ⟨g, hg⟩ := h.rep
  have hpool := h.pool.tail (.addCtnt w.rl m url delOk hm)
  have h' : Good (w.logged (.addCtnt ⟨w.rl, m, url, delOk⟩)) := h.logged trivial
  rcases w.addCtnt_cases hg m url delOk with ⟨-, heq⟩ | ⟨c, l, hf, hadd, heq⟩ | ⟨c, l, lp, hf, -, hadd, heq⟩
  · rw [heq]
    exact h'
  · rw [hadd] at hpool
    rw [heq]
    have hdead : ¬ w.rl.LiveCtnt c := by simp [hg.liveCtnt_iff, hf]
    exact h'.clearFree hdead hpool
  · rw [hadd] at hpool
    rw [heq]
    have hdead : ¬ w.rl.LiveCtnt c := by simp [hg.liveCtnt_iff, hf]
    exact
      { pool := hpool
        ctrl := fun i hi => by
          simp only [World.logged, ResList.LiveMgmt, (ctntAdded_id_gen i).1, (ctntAdded_id_gen i).2]
          exact h.ctrl i hi
        keys := h.keys
        loaded := fun i j hlive hpar hgj => by
          simp only [World.logged, (ctntAdded_id_gen j).2] at hlive hpar hgj ⊢
          by_cases hi : i = c
          · subst hi
            rw [ctntAdded_self] at hpar ⊢
            obtain rfl := Option.some.inj hpar
            simpa [newCtnt] using hgj
          · simp only [ResList.LiveCtnt, ctntAdded_other hi] at hlive hpar ⊢
            exact h.loaded i j hlive hpar hgj
        notify := fun i hi => by
          simp only [World.logged] at hi ⊢
          by_cases hic : i = c
          · subst hic
            simp [ctntAdded_self, newCtnt] at hi
          · rw [ctntAdded_other hic] at hi ⊢
            exact h.notify i hi
        addStored := addStored_append h'.addStored fun i s ok he => by cases he
        once := once_append h'.once fun i s he => by cases he
        fresh := fun i hlive hi => by
          simp only [World.logged, notified_append]
          by_cases hic : i = c
          · subst hic; simp
          · simp only [World.logged, ResList.LiveCtnt, ctntAdded_other hic] at hlive hi
            rw [if_neg (Ne.symm hic)]
            exact h.fresh i hlive hi }

theorem Good.notifyRiUrl (h : Good w) {c : CtntIdx} (hc : w.rl.LiveCtnt c) (ok : Bool) :
    Good (scResNotifyRiUrl w c ok).2 := by
  rcases notify_cases w c ok with heq | ⟨hst, hno, heq⟩
  · rw [heq]
    exact h
  have hadd : ∀ i s (b : Bool), Ev.add c true ok = .add i s b → s = true := by
    intro i s b he
    cases he
    rfl
  cases ok with
  | false =>
    rw [heq]
    exact
      { pool := h.pool
        ctrl := h.ctrl
        keys := h.keys
        loaded := h.loaded
        notify := h.notify
        addStored := addStored_append h.addStored hadd
        once := once_append h.once fun i s he => by cases he
        fresh := fun i hlive hi => by
          simp only [if_neg Bool.false_ne_true, World.logged, notified_append]
          exact h.fresh i hlive hi }
  | true =>
    rw [heq]
    have hfree : notified w.log c = false := h.fresh c hc hno
    exact
      { pool := h.pool.tail (.flag w.rl c setNotify)
        ctrl := h.ctrl
        keys := h.keys
        loaded := fun i m hlive hpar hgen => by
          have := h.loaded i m ((setFlag_live c i _).mp hlive) ((setFlag_parent c i _).symm.trans hpar) hgen
          simp only [if_pos, World.setFlag, World.logged, setFlag_flag]
          split_ifs <;> exact this
        notify := fun i hi => by
          simp only [if_pos, World.setFlag, World.logged, setFlag_flag] at hi ⊢
          by_cases hic : i = c
          · subst hic; simpa [setNotify] using hst
          · simp only [if_neg hic] at hi ⊢
            exact h.notify i hi
        addStored := addStored_append h.addStored hadd
        once := once_append h.once fun i s he => by
          cases he
          exact hfree
        fresh := fun i hlive hi => by
          simp only [if_pos, World.setFlag, World.logged, setFlag_flag, notified_append] at hi ⊢
          by_cases hic : i = c
          · subst hic; simp [setNotify] at hi
          · simp only [if_neg hic, if_neg (Ne.symm hic)] at hi ⊢
            exact h.fresh i ((setFlag_live c i _).mp hlive) hi }

theorem Good.handOver (h : Good w) {ctrlLd : MgmtIdx} {parsed : CtntIdx}
    (hctrl : w.Controller ctrlLd)
    (hlive : w.rl.LiveCtnt parsed) (hne : (w.rl.ctnt parsed).parent ≠ some ctrlLd) :
    Good { w with rl := (scResInfoHandleCached w.rl ctrlLd parsed).2 } := by
  obtain ⟨g, hg⟩ := h.rep
  have hpool := h.pool.tail (.handleCached w.rl ctrlLd parsed (h.ctrl ctrlLd hctrl).1 hlive hne)
  rcases handleCached_handedOver hg ctrlLd hlive with heq | ⟨ld, rl', heq, ho⟩
  · rw [heq]
    exact h
  rw [heq] at hpool ⊢
  have hflag : ∀ c, c ≠ ld → (rl'.ctnt c).flag = ((scResInfoDupCtnt w.rl ld parsed).ctnt c).flag := by
    intro c hc
    rw [ho.ctnt c hc]
  have hlinks : ∀ c, c ≠ ld → (rl'.ctnt c).id = (w.rl.ctnt c).id ∧ (rl'.ctnt c).parent = (w.rl.ctnt c).parent := by
    intro c hc
    rw [ho.ctnt c hc]
    exact dupCtnt_links ..
  have hst : ∀ c, c ≠ ld → (w.rl.ctnt c).flag.stored = true → (rl'.ctnt c).flag.stored = true := by
    intro c hc hs
    rw [hflag c hc, dupCtnt_flag]
    split_ifs <;> simp [hs]
  exact
    { pool := hpool
      ctrl := fun i hi => by
        have := h.ctrl i hi
        simp only [ResList.LiveMgmt]
        rw [ho.mgmt i]
        exact this
      keys := h.keys
      loaded := fun c m hcl hpar hgen => by
        have hc : c ≠ ld := by rintro rfl; exact ho.freed hcl
        have hgen' : (w.rl.mgmt m).gen = .ctrlLd := by
          rw [ho.mgmt m] at hgen
          exact hgen
        refine hst c hc (h.loaded c m ?_ ?_ hgen')
        · exact (hlinks c hc).1.symm.trans hcl
        · exact (hlinks c hc).2.symm.trans hpar
      notify := fun c hn => by
        by_cases hc : c = ld
        · subst hc
          simp [ho.freedFlag] at hn
        · simp only [hflag c hc, dupCtnt_flag] at hn ⊢
          split_ifs at hn ⊢
          · simp only [Bool.or_eq_true] at hn ⊢
            exact hn.imp (h.notify c) (h.notify ld)
          · exact h.notify c hn
      addStored := h.addStored
      once := h.once
      fresh := fun c hcl hn => by
        have hc : c ≠ ld := by rintro rfl; exact ho.freed hcl
        refine h.fresh c ((hlinks c hc).1.symm.trans hcl) ?_
        simp only [hflag c hc, dupCtnt_flag] at hn
        split_ifs at hn
        · simp only [Bool.or_eq_false_iff] at hn
          exact hn.1
        · exact hn }

theorem Good.move (h : Good w) (hm : Move w w') : Good w' := by
  cases hm with
  | addMgmt gen url hask =>
    refine h.addMgmt true url hask.ne.1 hask.ne.2 ?_
    rcases hask.gen with rfl | rfl
    · exact h.pool.tail (.addNormal w.rl url)
    · exact h.pool.tail (.addOrigin w.rl url)
  | addCtnt m url delOk hm => exact h.addCtnt hm url delOk
  | ngxDownload ans url lp =>
    have h' : Good { w with running := (w.ngxDownload ans url lp).2.running } := h.withRunning fun key hkey => by
      simp only [World.ngxDownload, World.logged] at hkey
      rcases List.mem_append.mp hkey with hkey | hkey
      · split_ifs at hkey
        · exact downloadKey_ending (Option.mem_toList.mp hkey)
        · cases hkey
      · exact h.keys key hkey
    exact h'.logged (e := .ngxDownload url lp (scNgxDownload ans url lp).1) trivial
  | flag c f hc hf => exact h.setFlag c hf
  | notify c ok hc => exact h.notifyRiUrl hc ok
  | handleCached ctrlLd parsed hctrl hlive hne =>
    exact (h.handOver hctrl hlive hne).logged (e := .handleCached w.rl (some ctrlLd) parsed) trivial
  | logged e he => exact h.logged he.neutral
  | finish r evs lp =>
    have h' : Good { w with running := w.running.erase lp } :=
      h.withRunning fun key hkey => h.keys key (List.mem_of_mem_erase hkey)
    exact h'.logged trivial

theorem Good.moves (h : Good w) (hm : Moves w w') : Good w' := by
  induction hm with
  | refl => exact h
  | tail _ hmove ih => exact ih.move hmove

theorem Move.controllers (hm : Move w w') :
    w'.youkuCtrlLd = w.youkuCtrlLd ∧ w'.sohuCtrlLd = w.sohuCtrlLd ∧ w.log <+: w'.log := by
  cases hm with
  | addMgmt gen url hask => exact ⟨rfl, rfl, List.prefix_rfl⟩
  | addCtnt m url delOk hm =>
    unfold World.addCtnt
    dsimp only
    split
    · exact ⟨rfl, rfl, List.prefix_append _ _⟩
    · exact ⟨rfl, rfl, (List.prefix_append _ _).trans (List.prefix_append _ _)⟩
  | ngxDownload ans url lp => exact ⟨rfl, rfl, List.prefix_append _ _⟩
  | flag c f hc hf => exact ⟨rfl, rfl, List.prefix_rfl⟩
  | notify c ok hc =>
    rcases notify_cases w c ok with heq | ⟨-, -, heq⟩
    · rw [heq]
      exact ⟨rfl, rfl, List.prefix_rfl⟩
    · rw [heq]
      cases ok
      · exact ⟨rfl, rfl, List.prefix_append _ _⟩
      · exact ⟨rfl, rfl, List.prefix_append _ _⟩
  | handleCached ctrlLd parsed hctrl hlive hne => exact ⟨rfl, rfl, List.prefix_append _ _⟩
  | logged e he => exact ⟨rfl, rfl, List.prefix_append _ _⟩
  | finish r evs lp => exact ⟨rfl, rfl, List.prefix_append _ _⟩

theorem Moves.controllers (hm : Moves w w') :
    w'.youkuCtrlLd = w.youkuCtrlLd ∧ w'.sohuCtrlLd = w.sohuCtrlLd ∧ w.log <+: w'.log := by
  induction hm with
  | refl => exact ⟨rfl, rfl, List.prefix_rfl⟩
  | tail _ hmove ih =>
    obtain ⟨hyk, hso, hlog⟩ := hmove.controllers
    exact ⟨hyk.trans ih.1, hso.trans ih.2.1, ih.2.2.trans hlog⟩

theorem Moves.controller_iff (hm : Moves w w') (m : MgmtIdx) :
    w'.Controller m ↔ w.Controller m := by
  unfold World.Controller
  rw [hm.controllers.1, hm.controllers.2.1]

/-- A management record in use stays in use, and keeps its `gen`. -/
theorem Move.liveMgmt (h : Good w) (hm : Move w w') {m : MgmtIdx} (hl : w.rl.LiveMgmt m) :
    w'.rl.LiveMgmt m ∧ (w'.rl.mgmt m).gen = (w.rl.mgmt m).gen := by
  obtain ⟨g, hg⟩ := h.rep
  cases hm with
  | addMgmt gen url hask =>
    simp only [ResList.LiveMgmt, (addMgmt_spec hg true url hask.ne.1).2.1 m hl]
    exact ⟨hl, trivial⟩
  | addCtnt i url delOk hi =>
    rcases w.addCtnt_cases hg i url delOk with ⟨-, heq⟩ | ⟨c, l, -, -, heq⟩ | ⟨c, l, lp, -, -, -, heq⟩
    · rw [heq]
      exact ⟨hl, rfl⟩
    · rw [heq]
      exact ⟨hl, rfl⟩
    · rw [heq]
      obtain ⟨child, childCnt, hmgmt⟩ := ctntAdded_mgmt w.rl i c url lp m
      simp only [World.logged, ResList.LiveMgmt, hmgmt]
      exact ⟨hl, trivial⟩
  | ngxDownload ans url lp => exact ⟨hl, rfl⟩
  | flag c f hc hf => exact ⟨hl, rfl⟩
  | notify c ok hc =>
    rcases notify_cases w c ok with heq | ⟨-, -, heq⟩
    · rw [heq]
      exact ⟨hl, rfl⟩
    · rw [heq]
      cases ok
      · exact ⟨hl, rfl⟩
      · exact ⟨hl, rfl⟩
  | handleCached ctrlLd parsed hctrl hlive hne =>
    simp only [World.handleCached, handleCachedBy, World.logged, ResList.LiveMgmt]
    rcases handleCached_handedOver hg ctrlLd hlive with heq | ⟨ld, rl', heq, ho⟩
    · rw [heq]
      exact ⟨hl, rfl⟩
    · rw [heq]
      simp only
      rw [ho.mgmt m]
      exact ⟨hl, rfl⟩
  | logged e he => exact ⟨hl, rfl⟩
  | finish r evs lp => exact ⟨hl, rfl⟩

theorem Moves.liveMgmt (h : Good w) (hm : Moves w w') {m : MgmtIdx} (hl : w.rl.LiveMgmt m) :
    w'.rl.LiveMgmt m ∧ (w'.rl.mgmt m).gen = (w.rl.mgmt m).gen := by
  induction hm with
  | refl => exact ⟨hl, rfl⟩
  | tail hpre hmove ih =>
    obtain ⟨hl', hgen'⟩ := hmove.liveMgmt (h.moves hpre) ih.1
    exact ⟨hl', hgen'.trans ih.2⟩

end Moves

end HotCache
