import HotCache.Spec.Resource

/-! The representation invariant of the resource list. `Rep rl g` says that the pointers of
`rl` spell out the lists of `g`; each operation has one lemma that says what it returns on a
represented list, and one that says which lists the result spells out. -/

namespace HotCache

open CStr FreeList Linked

section Setters

variable {rl : ResList}

@[simp] theorem setMgmt_mgmt (m : MgmtIdx) (x : Mgmt) :
    (rl.setMgmt m x).mgmt = Function.update rl.mgmt m x := rfl
@[simp] theorem setMgmt_ctnt (m : MgmtIdx) (x : Mgmt) : (rl.setMgmt m x).ctnt = rl.ctnt := rfl
@[simp] theorem setMgmt_mgmtFree (m : MgmtIdx) (x : Mgmt) :
    (rl.setMgmt m x).mgmtFree = rl.mgmtFree := rfl
@[simp] theorem setMgmt_mgmtCnt (m : MgmtIdx) (x : Mgmt) :
    (rl.setMgmt m x).mgmtCnt = rl.mgmtCnt := rfl
@[simp] theorem setMgmt_ctntFree (m : MgmtIdx) (x : Mgmt) :
    (rl.setMgmt m x).ctntFree = rl.ctntFree := rfl
@[simp] theorem setMgmt_ctntCnt (m : MgmtIdx) (x : Mgmt) :
    (rl.setMgmt m x).ctntCnt = rl.ctntCnt := rfl
@[simp] theorem setCtnt_mgmt (c : CtntIdx) (x : Ctnt) : (rl.setCtnt c x).mgmt = rl.mgmt := rfl
@[simp] theorem setCtnt_ctnt (c : CtntIdx) (x : Ctnt) :
    (rl.setCtnt c x).ctnt = Function.update rl.ctnt c x := rfl
@[simp] theorem setCtnt_mgmtFree (c : CtntIdx) (x : Ctnt) :
    (rl.setCtnt c x).mgmtFree = rl.mgmtFree := rfl
@[simp] theorem setCtnt_mgmtCnt (c : CtntIdx) (x : Ctnt) :
    (rl.setCtnt c x).mgmtCnt = rl.mgmtCnt := rfl
@[simp] theorem setCtnt_ctntFree (c : CtntIdx) (x : Ctnt) :
    (rl.setCtnt c x).ctntFree = rl.ctntFree := rfl
@[simp] theorem setCtnt_ctntCnt (c : CtntIdx) (x : Ctnt) :
    (rl.setCtnt c x).ctntCnt = rl.ctntCnt := rfl

theorem setFlag_other {c i : CtntIdx} (f : Flag → Flag) (h : i ≠ c) :
    (rl.setFlag c f).ctnt i = rl.ctnt i :=
  Function.update_of_ne h _ _

@[simp] theorem setFlag_self (c : CtntIdx) (f : Flag → Flag) :
    (rl.setFlag c f).ctnt c = { rl.ctnt c with flag := f (rl.ctnt c).flag } := Function.update_self ..

theorem setFlag_live (c i : CtntIdx) (f : Flag → Flag) :
    (rl.setFlag c f).LiveCtnt i ↔ rl.LiveCtnt i := by
  unfold ResList.LiveCtnt
  by_cases hi : i = c
  · subst hi; rw [setFlag_self]
  · rw [setFlag_other f hi]

theorem setFlag_parent (c i : CtntIdx) (f : Flag → Flag) :
    ((rl.setFlag c f).ctnt i).parent = (rl.ctnt i).parent := by
  by_cases hi : i = c
  · subst hi; rw [setFlag_self]
  · rw [setFlag_other f hi]

theorem setFlag_flag (c i : CtntIdx) (f : Flag → Flag) :
    ((rl.setFlag c f).ctnt i).flag = if i = c then f (rl.ctnt i).flag else (rl.ctnt i).flag := by
  by_cases hi : i = c
  · subst hi; rw [setFlag_self, if_pos rfl]
  · rw [setFlag_other f hi, if_neg hi]

end Setters

/-- The lists behind the pointers of a resource list. -/
structure Shape where
  freeM : List MgmtIdx
  freeC : List CtntIdx
  kids : MgmtIdx → List CtntIdx

/-- The site that `scResInfoMarkSite` reads off a url. -/
def urlSite (url : Bytes) : Option Site :=
  if scUrlIsYk url then some .youku else if scUrlIsSohu url then some .sohu else none

theorem isMgmt_of_gen {ri : ResInfo} (h : ri.gen ≠ .content) : scResInfoIsMgmt ri = true := by
  unfold scResInfoIsMgmt
  cases hg : ri.gen <;> simp_all

theorem markSite_eq {ri : ResInfo} (h : ri.gen ≠ .content) :
    scResInfoMarkSite ri = urlSite ri.url := by
  simp only [scResInfoMarkSite, isMgmt_of_gen h, Bool.not_true, Bool.false_eq_true, if_false, urlSite]

theorem genLocalPath_congr {x y : Ctnt} (hsite : x.site = y.site) (hurl : x.url = y.url) :
    scResInfoGenCtntLocalPath x = scResInfoGenCtntLocalPath y := by
  unfold scResInfoGenCtntLocalPath
  rw [hsite, hurl]

/-- The predecessor that the search loop hands over with the element after `l₁`. -/
def Precedes (pre : Option CtntIdx) (l₁ : List CtntIdx) : Prop :=
  (pre = none ∧ l₁ = []) ∨ ∃ a l₀, pre = some a ∧ l₁ = l₀ ++ [a]

theorem findLoaded_split {rl : ResList} {vid : Bytes} {fuel : ℕ} {p pre pre' : Option CtntIdx}
    {ld : CtntIdx}
    {l₀ l : List CtntIdx} (hl : IsList (fun c => (rl.ctnt c).siblings) p l) (hpre : Precedes pre l₀)
    (hfind : findLoaded rl vid fuel pre p = some (pre', ld)) :
    ∃ l₁ l₂, l = l₁ ++ ld :: l₂ ∧ Precedes pre' (l₀ ++ l₁) ∧
      (strstr (rl.ctnt ld).url vid).isSome ∧ ∀ c ∈ l₁, strstr (rl.ctnt c).url vid = none := by
  induction fuel generalizing p pre l₀ l with
  | zero => simp [findLoaded] at hfind
  | succ fuel ih =>
    cases l with
    | nil =>
      rw [isList_nil.mp hl] at hfind
      simp [findLoaded] at hfind
    | cons a l =>
      obtain ⟨rfl, htail⟩ := hl
      rw [findLoaded] at hfind
      split at hfind
      next hmatch =>
        obtain ⟨rfl, rfl⟩ := Prod.mk.inj (Option.some.inj hfind)
        exact ⟨[], l, rfl, by simpa using hpre, hmatch, List.forall_mem_nil _⟩
      next hno =>
        obtain ⟨l₁, l₂, rfl, hpre', hmatch, hbefore⟩ :=
          ih htail (.inr ⟨a, l₀, rfl, rfl⟩ : Precedes (some a) (l₀ ++ [a])) hfind
        refine ⟨a :: l₁, l₂, rfl, ?_, hmatch, ?_⟩
        · simpa using hpre'
        · exact List.forall_mem_cons.mpr ⟨by simpa using hno, hbefore⟩

section Pool

variable [L : Layout]

structure Rep (rl : ResList) (g : Shape) : Prop where
  mgmt : Valid L.mgmt (fun i => (rl.mgmt i).id) rl.mgmtFree rl.mgmtCnt g.freeM
  ctnt : Valid L.ctnt (fun i => (rl.ctnt i).id) rl.ctntFree rl.ctntCnt g.freeC
  child : ∀ m, IsList (fun c => (rl.ctnt c).siblings) (rl.mgmt m).child (g.kids m)
  nodup : ∀ m, (g.kids m).Nodup
  childCnt : ∀ m, (rl.mgmt m).childCnt = (g.kids m).length
  memKids : ∀ m c, c ∈ g.kids m ↔ rl.LiveCtnt c ∧ (rl.ctnt c).parent = some m
  parent : ∀ c, rl.LiveCtnt c → ∃ m, rl.LiveMgmt m ∧ (rl.ctnt c).parent = some m
  genMgmt : ∀ m, rl.LiveMgmt m → (rl.mgmt m).gen ≠ .content
  genCtnt : ∀ c, (rl.ctnt c).gen = .content
  -- a free slot is zeroed, except that Nginx may have written its flags
  freeMgmt : ∀ m ∈ g.freeM, rl.mgmt m = { id := (rl.mgmt m).id }
  freeCtnt : ∀ c ∈ g.freeC, rl.ctnt c = { id := (rl.ctnt c).id, flag := (rl.ctnt c).flag }

variable {rl : ResList} {g : Shape}

theorem Rep.liveMgmt_iff (h : Rep rl g) (m : MgmtIdx) : rl.LiveMgmt m ↔ m ∉ g.freeM := h.mgmt.used m
theorem Rep.liveCtnt_iff (h : Rep rl g) (c : CtntIdx) : rl.LiveCtnt c ↔ c ∉ g.freeC := h.ctnt.used c

theorem Rep.kids_length (h : Rep rl g) (m : MgmtIdx) :
    (g.kids m).length < SC_RES_INFO_NUM_MAX_CTNT + 1 := by
  have := (h.nodup m).length_le_card
  rw [Fintype.card_fin] at this
  omega

/-- The search from the first child of `m` finds the first match among the children. -/
theorem Rep.findLoaded_kids (h : Rep rl g) {m : MgmtIdx} {vid : Bytes} {fuel : ℕ} {pre : Option CtntIdx}
    {ld : CtntIdx} (hfind : findLoaded rl vid fuel none (rl.mgmt m).child = some (pre, ld)) :
    ∃ l₁ l₂, g.kids m = l₁ ++ ld :: l₂ ∧ Precedes pre l₁ ∧
      (strstr (rl.ctnt ld).url vid).isSome ∧ ∀ c ∈ l₁, strstr (rl.ctnt c).url vid = none := by
  obtain ⟨l₁, l₂, hk, hpre, hmatch, hbefore⟩ :=
    findLoaded_split (h.child m) (.inl ⟨rfl, rfl⟩ : Precedes none []) hfind
  exact ⟨l₁, l₂, hk, hpre, hmatch, hbefore⟩

theorem init_rep :
    Rep scResListAllocAndInit ⟨below _ _ le_rfl, below _ _ le_rfl, fun _ => []⟩ := by
  have hm : Valid L.mgmt (fun i => (scResListAllocAndInit.mgmt i).id) scResListAllocAndInit.mgmtFree 0
      (below _ _ le_rfl) := Valid.init (by decide) fun _ => rfl
  have hc : Valid L.ctnt (fun i => (scResListAllocAndInit.ctnt i).id) scResListAllocAndInit.ctntFree 0
      (below _ _ le_rfl) := Valid.init (by decide) fun _ => rfl
  have hdead : ∀ c, ¬ scResListAllocAndInit.LiveCtnt c := by
    intro c hlive
    exact (hc.used c).mp hlive ((mem_below le_rfl c).mpr c.isLt)
  have hdeadM : ∀ m, ¬ scResListAllocAndInit.LiveMgmt m := by
    intro m hlive
    exact (hm.used m).mp hlive ((mem_below le_rfl m).mpr m.isLt)
  exact
    { mgmt := hm
      ctnt := hc
      child := fun _ => rfl
      nodup := fun _ => List.nodup_nil
      childCnt := fun _ => rfl
      memKids := fun m c => by simp [hdead c]
      parent := fun c hlive => absurd hlive (hdead c)
      genMgmt := fun m hlive => absurd hlive (hdeadM m)
      genCtnt := fun _ => rfl
      freeMgmt := fun _ _ => rfl
      freeCtnt := fun _ _ => rfl }

/-- A write to one content slot that keeps its links, and on a free slot changes only the flags. -/
theorem Rep.setCtnt (h : Rep rl g) {c : CtntIdx} {x : Ctnt} (hid : x.id = (rl.ctnt c).id)
    (hsib : x.siblings = (rl.ctnt c).siblings) (hpar : x.parent = (rl.ctnt c).parent)
    (hgen : x.gen = .content) (hfree : c ∈ g.freeC → x = { id := x.id, flag := x.flag }) :
    Rep (rl.setCtnt c x) g := by
  have hid' : ∀ i, (Function.update rl.ctnt c x i).id = (rl.ctnt i).id := by
    intro i
    by_cases hi : i = c
    · subst hi; simpa using hid
    · rw [Function.update_of_ne hi]
  have hsib' : ∀ i, (Function.update rl.ctnt c x i).siblings = (rl.ctnt i).siblings := by
    intro i
    by_cases hi : i = c
    · subst hi; simpa using hsib
    · rw [Function.update_of_ne hi]
  have hpar' : ∀ i, (Function.update rl.ctnt c x i).parent = (rl.ctnt i).parent := by
    intro i
    by_cases hi : i = c
    · subst hi; simpa using hpar
    · rw [Function.update_of_ne hi]
  have hlive : ∀ i, (rl.setCtnt c x).LiveCtnt i ↔ rl.LiveCtnt i := by
    intro i
    unfold ResList.LiveCtnt
    rw [setCtnt_ctnt, hid']
  exact
    { mgmt := h.mgmt
      ctnt := h.ctnt.congr hid'
      child := fun m => (h.child m).congr fun i _ => hsib' i
      nodup := h.nodup
      childCnt := h.childCnt
      memKids := fun m i => by rw [hlive, setCtnt_ctnt, hpar']; exact h.memKids m i
      parent := fun i hi => by rw [setCtnt_ctnt, hpar']; exact h.parent i ((hlive i).mp hi)
      genMgmt := h.genMgmt
      genCtnt := fun i => by
        by_cases hi : i = c
        · subst hi; simpa using hgen
        · rw [setCtnt_ctnt, Function.update_of_ne hi]; exact h.genCtnt i
      freeMgmt := h.freeMgmt
      freeCtnt := fun i hi => by
        by_cases hic : i = c
        · subst hic; simpa using hfree hi
        · rw [setCtnt_ctnt, Function.update_of_ne hic]; exact h.freeCtnt i hi }

theorem Rep.setFlag (h : Rep rl g) (c : CtntIdx) (f : Flag → Flag) : Rep (rl.setFlag c f) g := by
  refine h.setCtnt rfl rfl rfl (h.genCtnt c) fun hc => ?_
  rw [h.freeCtnt c hc]

def mgmtAdded (rl : ResList) (m : MgmtIdx) (gen : Gen) (careType : Bool) (url : Bytes) (site : Site) : ResList :=
  { rl with
    mgmtFree := (rl.mgmt m).id
    mgmtCnt := rl.mgmtCnt + 1
    mgmt := Function.update rl.mgmt m
      { id := m, gen := gen, url := scResCopyUrl url true, site := site, mime := scResMimeTypeObtain url careType } }

section Added

omit L

variable {m : MgmtIdx} {gen : Gen} {careType : Bool} {url : Bytes} {site : Site}

theorem mgmtAdded_self : (mgmtAdded rl m gen careType url site).mgmt m =
    { id := m, gen := gen, url := scResCopyUrl url true, site := site,
      mime := scResMimeTypeObtain url careType } :=
  Function.update_self ..

theorem mgmtAdded_other {i : MgmtIdx} (hi : i ≠ m) :
    (mgmtAdded rl m gen careType url site).mgmt i = rl.mgmt i :=
  Function.update_of_ne hi _ _

theorem mgmtAdded_liveMgmt {i : MgmtIdx} (hi : i ≠ m) :
    (mgmtAdded rl m gen careType url site).LiveMgmt i ↔ rl.LiveMgmt i := by
  rw [ResList.LiveMgmt, mgmtAdded_other hi, ResList.LiveMgmt]

end Added

theorem getMgmt_nil (h : Rep rl g) (hf : g.freeM = []) : scResInfoGetMgmt rl = none := by
  rw [scResInfoGetMgmt, if_pos (h.mgmt.free_eq_invalid.mpr hf)]

theorem getMgmt_cons (h : Rep rl g) {m : MgmtIdx} {l : List MgmtIdx} (hf : g.freeM = m :: l) :
    scResInfoGetMgmt rl = some (m, { rl with
      mgmtFree := (rl.mgmt m).id
      mgmtCnt := rl.mgmtCnt + 1
      mgmt := Function.update rl.mgmt m { id := m } }) := by
  have hv := h.mgmt
  rw [hf] at hv
  obtain ⟨hslot, hidx, hne⟩ := hv.slotAt_free
  simp only [scResInfoGetMgmt, hne, if_false, hslot, hidx]

theorem putMgmt_undo (h : Rep rl g) {m : MgmtIdx} {l : List MgmtIdx} (hf : g.freeM = m :: l)
    {x : Mgmt} (hgen : x.gen ≠ .content) :
    scResInfoPut { rl with
      mgmtFree := (rl.mgmt m).id
      mgmtCnt := rl.mgmtCnt + 1
      mgmt := Function.update rl.mgmt m x } (.mgmt m) = rl := by
  have hchain := h.mgmt.chain
  rw [hf] at hchain
  have hzero := h.freeMgmt m (by simp [hf])
  simp only [scResInfoPut, Function.update_self, isMgmt_of_gen hgen, if_true,
    Nat.add_eq_zero_iff, one_ne_zero, and_false, if_false, Function.update_idem, Nat.add_sub_cancel]
  rw [← hzero, Function.update_eq_self, ← hchain.1]

theorem addMgmt_none (h : Rep rl g) {gen : Gen} {careType : Bool} {url : Bytes}
    (hgen : gen ≠ .content)
    (hno : scResInfoPermitAdding url = false ∨ HTTP_URL_MAX_LEN ≤ url.length ∨ g.freeM = [] ∨
      urlSite (scResCopyUrl url true) = none) :
    scResInfoAddMgmt gen careType rl url = (none, rl) := by
  unfold scResInfoAddMgmt
  by_cases hp : scResInfoPermitAdding url = true
  case neg => simp [hp]
  by_cases hlen : HTTP_URL_MAX_LEN ≤ url.length
  case pos => simp [hlen]
  rw [if_neg (by simp [hp]), if_neg hlen, scResInfoGetMgmtGen]
  cases hf : g.freeM with
  | nil => simp [getMgmt_nil h hf]
  | cons m l =>
    have hsite : urlSite (scResCopyUrl url true) = none := by simpa [hp, hlen, hf] using hno
    rw [getMgmt_cons h hf, Option.map_some]
    simp only [setMgmt_mgmt, Function.update_self]
    rw [markSite_eq hgen, hsite]
    simp only [ResList.setMgmt, Function.update_idem, scResInfoDel]
    rw [putMgmt_undo h hf (by exact hgen)]

theorem addMgmt_some (h : Rep rl g) {gen : Gen} {careType : Bool} {url : Bytes} {m : MgmtIdx}
    {l : List MgmtIdx} {site : Site} (hgen : gen ≠ .content) (hp : scResInfoPermitAdding url = true)
    (hlen : url.length < HTTP_URL_MAX_LEN) (hf : g.freeM = m :: l)
    (hsite : urlSite (scResCopyUrl url true) = some site) :
    scResInfoAddMgmt gen careType rl url = (some m, mgmtAdded rl m gen careType url site) := by
  unfold scResInfoAddMgmt
  rw [if_neg (by simp [hp]), if_neg (by omega), scResInfoGetMgmtGen, getMgmt_cons h hf, Option.map_some]
  simp only [setMgmt_mgmt, Function.update_self]
  rw [markSite_eq hgen, hsite]
  simp only [ResList.setMgmt, Function.update_idem, mgmtAdded]

/-- An addition to the management array changes nothing, or takes the first free slot. -/
theorem addMgmt_cases (h : Rep rl g) {gen : Gen} (careType : Bool) (url : Bytes)
    (hgen : gen ≠ .content) :
    scResInfoAddMgmt gen careType rl url = (none, rl) ∨
    ∃ m l site, g.freeM = m :: l ∧
      scResInfoAddMgmt gen careType rl url = (some m, mgmtAdded rl m gen careType url site) := by
  by_cases hp : scResInfoPermitAdding url = true
  case neg => exact .inl (addMgmt_none h hgen (by simp [hp]))
  by_cases hlen : HTTP_URL_MAX_LEN ≤ url.length
  case pos => exact .inl (addMgmt_none h hgen (by simp [hlen]))
  cases hf : g.freeM with
  | nil => exact .inl (addMgmt_none h hgen (by simp [hf]))
  | cons m l =>
    cases hsite : urlSite (scResCopyUrl url true) with
    | none => exact .inl (addMgmt_none h hgen (by simp [hsite]))
    | some site => exact .inr ⟨m, l, site, rfl, addMgmt_some h hgen hp (by omega) hf hsite⟩

theorem addMgmt_spec (h : Rep rl g) {gen : Gen} (careType : Bool) (url : Bytes)
    (hgen : gen ≠ .content) :
    (scResInfoAddMgmt gen careType rl url).2.ctnt = rl.ctnt ∧
    (∀ i, rl.LiveMgmt i → (scResInfoAddMgmt gen careType rl url).2.mgmt i = rl.mgmt i) ∧
    ∀ m, (scResInfoAddMgmt gen careType rl url).1 = some m →
      (scResInfoAddMgmt gen careType rl url).2.LiveMgmt m ∧
      ((scResInfoAddMgmt gen careType rl url).2.mgmt m).gen = gen := by
  rcases addMgmt_cases h careType url hgen with heq | ⟨j, l, site, hf, heq⟩
  · rw [heq]
    exact ⟨rfl, fun _ _ => rfl, fun m hm => by cases hm⟩
  · rw [heq]
    refine ⟨rfl, fun i hi => ?_, fun m hm => ?_⟩
    · have hij : i ≠ j := by
        rintro rfl
        exact (h.liveMgmt_iff i).mp hi (by simp [hf])
      exact mgmtAdded_other hij
    · obtain rfl := Option.some.inj hm
      rw [ResList.LiveMgmt, mgmtAdded_self]
      exact ⟨rfl, rfl⟩

theorem Rep.mgmtAdded (h : Rep rl g) {m : MgmtIdx} {l : List MgmtIdx} (hf : g.freeM = m :: l)
    {gen : Gen} (hgen : gen ≠ .content) (careType : Bool) (url : Bytes) (site : Site) :
    Rep (mgmtAdded rl m gen careType url site) { g with freeM := l } := by
  have hv := h.mgmt
  rw [hf] at hv
  have hnd := List.nodup_cons.mp hv.nodup
  have hzero := h.freeMgmt m (by simp [hf])
  have hdead : ¬ rl.LiveMgmt m := by simp [h.liveMgmt_iff, hf]
  have hkids : g.kids m = [] := by
    have := h.childCnt m
    rw [hzero] at this
    exact List.length_eq_zero_iff.mp this.symm
  exact
    { mgmt := by
        refine hv.pop.congr fun i => ?_
        by_cases hi : i = m
        · subst hi; simp [mgmtAdded_self]
        · simp [mgmtAdded_other hi, Function.update_of_ne hi]
      ctnt := h.ctnt
      child := fun i => by
        by_cases hi : i = m
        · subst hi; simp [mgmtAdded_self, hkids]
        · rw [mgmtAdded_other hi]; exact h.child i
      nodup := h.nodup
      childCnt := fun i => by
        by_cases hi : i = m
        · subst hi; simp [mgmtAdded_self, hkids]
        · rw [mgmtAdded_other hi]; exact h.childCnt i
      memKids := h.memKids
      parent := fun c hc => by
        obtain ⟨i, hi, hpar⟩ := h.parent c hc
        have him : i ≠ m := by rintro rfl; exact hdead hi
        exact ⟨i, (mgmtAdded_liveMgmt him).mpr hi, hpar⟩
      genMgmt := fun i hi => by
        by_cases him : i = m
        · subst him; rw [mgmtAdded_self]; exact hgen
        · rw [mgmtAdded_other him]; exact h.genMgmt i ((mgmtAdded_liveMgmt him).mp hi)
      genCtnt := h.genCtnt
      freeMgmt := fun i hi => by
        have him : i ≠ m := by rintro rfl; exact hnd.1 hi
        rw [mgmtAdded_other him]
        exact h.freeMgmt i (by simp [hf, hi])
      freeCtnt := h.freeCtnt }

/-- The record that `scResInfoAddCtnt` fills in before it generates the local path. -/
def newCtnt (rl : ResList) (m : MgmtIdx) (c : CtntIdx) (url : Bytes) : Ctnt :=
  { id := c
    url := scResCopyUrl url true
    site := (rl.mgmt m).site
    mime := scResMimeTypeObtain url true
    flag := { stored := decide ((rl.mgmt m).gen = .ctrlLd) } }

def ctntAdded (rl : ResList) (m : MgmtIdx) (c : CtntIdx) (url lp : Bytes) : ResList :=
  { rl with
    ctntFree := (rl.ctnt c).id
    ctntCnt := rl.ctntCnt + 1
    ctnt := Function.update rl.ctnt c { newCtnt rl m c url with
      localpath := lp, siblings := (rl.mgmt m).child, parent := some m }
    mgmt := Function.update rl.mgmt m { rl.mgmt m with
      child := some c, childCnt := (rl.mgmt m).childCnt + 1 } }

section Added

omit L

variable {m : MgmtIdx} {c : CtntIdx} {url lp : Bytes}

theorem ctntAdded_self : (ctntAdded rl m c url lp).ctnt c = { newCtnt rl m c url with
    localpath := lp, siblings := (rl.mgmt m).child, parent := some m } :=
  Function.update_self ..

theorem ctntAdded_other {i : CtntIdx} (hi : i ≠ c) : (ctntAdded rl m c url lp).ctnt i = rl.ctnt i :=
  Function.update_of_ne hi _ _

theorem ctntAdded_liveCtnt {i : CtntIdx} (hi : i ≠ c) :
    (ctntAdded rl m c url lp).LiveCtnt i ↔ rl.LiveCtnt i := by
  rw [ResList.LiveCtnt, ctntAdded_other hi, ResList.LiveCtnt]

/-- In the management array only the children change. -/
theorem ctntAdded_mgmt (rl : ResList) (m : MgmtIdx) (c : CtntIdx) (url lp : Bytes) (i : MgmtIdx) :
    ∃ child childCnt,
      (ctntAdded rl m c url lp).mgmt i = { rl.mgmt i with child := child, childCnt := childCnt } := by
  by_cases hi : i = m
  · subst hi
    exact ⟨_, _, Function.update_self ..⟩
  · exact ⟨(rl.mgmt i).child, (rl.mgmt i).childCnt, Function.update_of_ne hi _ _⟩

theorem ctntAdded_id_gen (i : MgmtIdx) :
    ((ctntAdded rl m c url lp).mgmt i).id = (rl.mgmt i).id ∧
      ((ctntAdded rl m c url lp).mgmt i).gen = (rl.mgmt i).gen := by
  obtain ⟨child, childCnt, heq⟩ := ctntAdded_mgmt rl m c url lp i
  rw [heq]
  exact ⟨rfl, rfl⟩

end Added

theorem getCtnt_nil (h : Rep rl g) (hf : g.freeC = []) : scResInfoGetCtnt rl = none := by
  rw [scResInfoGetCtnt, if_pos (h.ctnt.free_eq_invalid.mpr hf)]

theorem getCtnt_cons (h : Rep rl g) {c : CtntIdx} {l : List CtntIdx} (hf : g.freeC = c :: l) :
    scResInfoGetCtnt rl = some (c, { rl with
      ctntFree := (rl.ctnt c).id
      ctntCnt := rl.ctntCnt + 1
      ctnt := Function.update rl.ctnt c { id := c } }) := by
  have hv := h.ctnt
  rw [hf] at hv
  obtain ⟨hslot, hidx, hne⟩ := hv.slotAt_free
  simp only [scResInfoGetCtnt, hne, if_false, hslot, hidx]

/-- Putting back the slot that was just taken only clears the flags of that slot. -/
theorem putCtnt_undo (h : Rep rl g) {c : CtntIdx} {l : List CtntIdx} (hf : g.freeC = c :: l)
    {x : Ctnt} (hgen : x.gen = .content) :
    scResInfoPut { rl with
      ctntFree := (rl.ctnt c).id
      ctntCnt := rl.ctntCnt + 1
      ctnt := Function.update rl.ctnt c x } (.ctnt c) = rl.setFlag c fun _ => {} := by
  have hchain := h.ctnt.chain
  rw [hf] at hchain
  have hzero := h.freeCtnt c (by simp [hf])
  have hct : scResInfoIsCtnt x.toResInfo = true := by simp [scResInfoIsCtnt, hgen]
  simp only [scResInfoPut, Function.update_self, hct, if_true, Nat.add_eq_zero_iff, one_ne_zero, and_false,
    if_false, Function.update_idem, Nat.add_sub_cancel, ← hchain.1]
  rw [ResList.setFlag, ResList.setCtnt, hzero]

/-- The tests that `scResInfoAddCtnt` makes before it touches the pool. -/
def RejectsCtnt (rl : ResList) (m : MgmtIdx) (url : Bytes) (delOk : Bool) : Prop :=
  scResInfoPermitAdding url = false ∨ HTTP_URL_MAX_LEN ≤ url.length ∨
    ((rl.mgmt m).gen = .ctrlLd ∧ delOk = false)

theorem addCtnt_rejected (h : Rep rl g) {m : MgmtIdx} {url : Bytes} {delOk : Bool}
    (hno : RejectsCtnt rl m url delOk ∨ g.freeC = []) :
    scResInfoAddCtnt rl m url delOk = (none, rl) := by
  unfold scResInfoAddCtnt
  unfold RejectsCtnt at hno
  by_cases hp : scResInfoPermitAdding url = true
  case neg => simp [hp]
  by_cases hlen : HTTP_URL_MAX_LEN ≤ url.length
  case pos => simp [hlen]
  by_cases hdel : (rl.mgmt m).gen = .ctrlLd ∧ delOk = false
  case pos => simp [hdel]
  have hf : g.freeC = [] := by simpa [hp, hlen, hdel] using hno
  rw [if_neg (by simp [hp]), if_neg hlen, if_neg hdel, getCtnt_nil h hf]

/-- The body of `scResInfoAddCtnt` once a slot has been taken. -/
theorem addCtnt_cons (h : Rep rl g) {m : MgmtIdx} {url : Bytes} {delOk : Bool} {c : CtntIdx}
    {l : List CtntIdx} (hacc : ¬ RejectsCtnt rl m url delOk) (hf : g.freeC = c :: l) :
    scResInfoAddCtnt rl m url delOk =
      match scResInfoGenCtntLocalPath (newCtnt rl m c url) with
      | none => (none, rl.setFlag c fun _ => {})
      | some lp => (some c, ctntAdded rl m c url lp) := by
  simp only [RejectsCtnt, not_or, Bool.not_eq_false] at hacc
  obtain ⟨hp, hlen, hdel⟩ := hacc
  have hflag : (if (rl.mgmt m).gen = .ctrlLd then { stored := true } else {} : Flag) =
      { stored := decide ((rl.mgmt m).gen = .ctrlLd) } := by
    by_cases hg : (rl.mgmt m).gen = .ctrlLd <;> simp [hg]
  -- with no child yet, `siblings` keeps NULL, which is what `child` is
  have hsib : (if (rl.mgmt m).childCnt = 0 then none else (rl.mgmt m).child) = (rl.mgmt m).child := by
    by_cases h0 : (rl.mgmt m).childCnt = 0
    · have hk := h.child m
      rw [List.length_eq_zero_iff.mp ((h.childCnt m).symm.trans h0)] at hk
      rw [if_pos h0, isList_nil.mp hk]
    · rw [if_neg h0]
  unfold scResInfoAddCtnt
  rw [if_neg (by simp [hp]), if_neg hlen, if_neg hdel, getCtnt_cons h hf]
  simp only [Function.update_self, hflag]
  rw [← newCtnt]
  cases hlp : scResInfoGenCtntLocalPath (newCtnt rl m c url) with
  | none =>
    simp only [ResList.setCtnt, Function.update_idem, scResInfoDel]
    rw [putCtnt_undo h hf rfl]
  | some lp => simp only [ResList.setCtnt, ResList.setMgmt, Function.update_idem, ctntAdded, newCtnt, hsib]

/-- An addition to the content array changes nothing, or clears the flags of a free slot, or takes
the first free slot. -/
theorem addCtnt_cases (h : Rep rl g) (m : MgmtIdx) (url : Bytes) (delOk : Bool) :
    scResInfoAddCtnt rl m url delOk = (none, rl) ∨
    (∃ c l, g.freeC = c :: l ∧ scResInfoAddCtnt rl m url delOk = (none, rl.setFlag c fun _ => {})) ∨
    ∃ c l lp, g.freeC = c :: l ∧ scResInfoGenCtntLocalPath (newCtnt rl m c url) = some lp ∧
      scResInfoAddCtnt rl m url delOk = (some c, ctntAdded rl m c url lp) := by
  by_cases hrej : RejectsCtnt rl m url delOk
  case pos => exact .inl (addCtnt_rejected h (.inl hrej))
  cases hf : g.freeC with
  | nil => exact .inl (addCtnt_rejected h (.inr hf))
  | cons c l =>
    have heq := addCtnt_cons h hrej hf
    cases hlp : scResInfoGenCtntLocalPath (newCtnt rl m c url) with
    | none =>
      rw [hlp] at heq
      exact .inr (.inl ⟨c, l, rfl, heq⟩)
    | some lp =>
      rw [hlp] at heq
      exact .inr (.inr ⟨c, l, lp, rfl, hlp, heq⟩)

/-- An addition to the content array takes no management slot. -/
theorem addCtnt_mgmtCnt (h : Rep rl g) (m : MgmtIdx) (url : Bytes) (delOk : Bool) :
    (scResInfoAddCtnt rl m url delOk).2.mgmtCnt = rl.mgmtCnt := by
  rcases addCtnt_cases h m url delOk with heq | ⟨c, l, -, heq⟩ | ⟨c, l, lp, -, -, heq⟩
  · rw [heq]
  · rw [heq]
    rfl
  · rw [heq]
    rfl

theorem Rep.ctntAdded (h : Rep rl g) {c : CtntIdx} {l : List CtntIdx} (hf : g.freeC = c :: l)
    {m : MgmtIdx} (hm : rl.LiveMgmt m) (url lp : Bytes) :
    Rep (ctntAdded rl m c url lp)
      { g with freeC := l, kids := Function.update g.kids m (c :: g.kids m) } := by
  have hv := h.ctnt
  rw [hf] at hv
  have hnd := List.nodup_cons.mp hv.nodup
  have hdead : ¬ rl.LiveCtnt c := by simp [h.liveCtnt_iff, hf]
  have hnot : ∀ i, c ∉ g.kids i := fun i hc => hdead ((h.memKids i c).mp hc).1
  have hliveM : ∀ i, (HotCache.ctntAdded rl m c url lp).LiveMgmt i ↔ rl.LiveMgmt i := by
    intro i
    rw [ResList.LiveMgmt, (ctntAdded_id_gen i).1, ResList.LiveMgmt]
  have hlist : ∀ i, IsList (fun j => ((HotCache.ctntAdded rl m c url lp).ctnt j).siblings) (rl.mgmt i).child
      (g.kids i) := by
    intro i
    refine (h.child i).congr fun j hj => ?_
    have hjc : j ≠ c := by rintro rfl; exact hnot i hj
    rw [ctntAdded_other hjc]
  exact
    { mgmt := h.mgmt.congr fun i => (ctntAdded_id_gen i).1
      ctnt := by
        refine hv.pop.congr fun i => ?_
        by_cases hi : i = c
        · subst hi; simp [ctntAdded_self, newCtnt]
        · simp [ctntAdded_other hi, Function.update_of_ne hi]
      child := fun i => by
        by_cases hi : i = m
        · subst hi
          simpa [HotCache.ctntAdded] using hlist i
        · simpa [HotCache.ctntAdded, Function.update_of_ne hi] using hlist i
      nodup := fun i => by
        by_cases hi : i = m
        · subst hi; simpa using ⟨hnot i, h.nodup i⟩
        · simpa [Function.update_of_ne hi] using h.nodup i
      childCnt := fun i => by
        by_cases hi : i = m
        · subst hi; simp [HotCache.ctntAdded, h.childCnt i]
        · simpa [HotCache.ctntAdded, Function.update_of_ne hi] using h.childCnt i
      memKids := fun i j => by
        by_cases hj : j = c
        · subst hj
          have hnew : (HotCache.ctntAdded rl m j url lp).LiveCtnt j := by
            simp [ResList.LiveCtnt, ctntAdded_self, newCtnt]
          rw [ctntAdded_self]
          by_cases hi : i = m
          · subst hi; simp [hnew]
          · simp [Function.update_of_ne hi, hnot i, Ne.symm hi]
        · rw [ctntAdded_liveCtnt hj, ctntAdded_other hj, ← h.memKids i j]
          by_cases hi : i = m
          · subst hi; simp [hj]
          · simp [Function.update_of_ne hi]
      parent := fun j hj => by
        by_cases hjc : j = c
        · subst hjc
          exact ⟨m, (hliveM m).mpr hm, by rw [ctntAdded_self]⟩
        · obtain ⟨i, hi, hpar⟩ := h.parent j ((ctntAdded_liveCtnt hjc).mp hj)
          exact ⟨i, (hliveM i).mpr hi, by rw [ctntAdded_other hjc]; exact hpar⟩
      genMgmt := fun i hi => by
        rw [(ctntAdded_id_gen i).2]
        exact h.genMgmt i ((hliveM i).mp hi)
      genCtnt := fun j => by
        by_cases hjc : j = c
        · subst hjc; simp [ctntAdded_self, newCtnt]
        · rw [ctntAdded_other hjc]; exact h.genCtnt j
      freeMgmt := fun i hi => by
        have him : i ≠ m := by rintro rfl; exact (h.liveMgmt_iff i).mp hm hi
        simpa [HotCache.ctntAdded, Function.update_of_ne him] using h.freeMgmt i hi
      freeCtnt := fun j hj => by
        have hjc : j ≠ c := by rintro rfl; exact hnd.1 hj
        rw [ctntAdded_other hjc]
        exact h.freeCtnt j (by simp [hf, hj]) }

/-- `rl'` differs from `rl` only in the child list of `m`, which is now `l`. -/
structure Relinked (rl rl' : ResList) (g : Shape) (m : MgmtIdx) (l : List CtntIdx) : Prop where
  mgmtFree : rl'.mgmtFree = rl.mgmtFree
  mgmtCnt : rl'.mgmtCnt = rl.mgmtCnt
  ctntFree : rl'.ctntFree = rl.ctntFree
  ctntCnt : rl'.ctntCnt = rl.ctntCnt
  mgmt : ∀ i, rl'.mgmt i = { rl.mgmt i with childCnt := (rl'.mgmt i).childCnt, child := (rl'.mgmt i).child }
  ctnt : ∀ c, rl'.ctnt c = { rl.ctnt c with siblings := (rl'.ctnt c).siblings }
  childCnt : (rl'.mgmt m).childCnt = l.length
  child : IsList (fun c => (rl'.ctnt c).siblings) (rl'.mgmt m).child l
  other : ∀ i, i ≠ m → rl'.mgmt i = rl.mgmt i
  siblings : ∀ c, c ∉ g.kids m → (rl'.ctnt c).siblings = (rl.ctnt c).siblings

def unlinked (rl : ResList) (m : MgmtIdx) (pre : Option CtntIdx) (ld : CtntIdx) : ResList :=
  match pre with
  | none => rl.setMgmt m { rl.mgmt m with
      child := (rl.ctnt ld).siblings, childCnt := (rl.mgmt m).childCnt - 1 }
  | some a => (rl.setCtnt a { rl.ctnt a with siblings := (rl.ctnt ld).siblings }).setMgmt m
      { rl.mgmt m with childCnt := (rl.mgmt m).childCnt - 1 }

theorem removeLoaded_spec (h : Rep rl g) {m : MgmtIdx} {ld : CtntIdx} {pre : Option CtntIdx}
    {l₁ l₂ : List CtntIdx} (hk : g.kids m = l₁ ++ ld :: l₂) (hpre : Precedes pre l₁) :
    Relinked rl (unlinked rl m pre ld) g m (l₁ ++ l₂) ∧
      scResInfoRemoveLoaded rl pre ld = (.success, scResInfoPut (unlinked rl m pre ld) (.ctnt ld)) := by
  have hpar : (rl.ctnt ld).parent = some m := ((h.memKids m ld).mp (by simp [hk])).2
  have hcnt := h.childCnt m
  have hlist := h.child m
  have hnd := h.nodup m
  rw [hk] at hcnt hlist hnd
  simp only [List.length_append, List.length_cons] at hcnt
  rcases hpre with ⟨rfl, rfl⟩ | ⟨a, l₀, rfl, rfl⟩
  · constructor
    · unfold unlinked
      refine ⟨rfl, rfl, rfl, rfl, fun i => ?_, fun _ => rfl, ?_, ?_, fun i hi => ?_, fun _ _ => rfl⟩
      · by_cases hi : i = m
        · subst hi; simp
        · simp [Function.update_of_ne hi]
      · simp only [setMgmt_mgmt, Function.update_self, List.nil_append]
        simp only [List.length_nil] at hcnt
        omega
      · simpa using hlist.2
      · simp [Function.update_of_ne hi]
    · have hchild : (rl.mgmt m).child = some ld := hlist.1
      simp only [List.length_nil] at hcnt
      simp only [scResInfoRemoveLoaded, hpar, hchild, ne_eq, not_true_eq_false, if_false, scResInfoDel]
      rw [if_neg (by omega)]
      rfl
  · simp only [List.append_assoc, List.singleton_append] at hlist hnd
    simp only [List.length_append, List.length_singleton] at hcnt
    constructor
    · unfold unlinked
      refine ⟨rfl, rfl, rfl, rfl, fun i => ?_, fun c => ?_, ?_, ?_, fun i hi => ?_, fun c hc => ?_⟩
      · by_cases hi : i = m
        · subst hi; simp
        · simp [Function.update_of_ne hi]
      · by_cases hc : c = a
        · subst hc; simp
        · simp [Function.update_of_ne hc]
      · simp only [setMgmt_mgmt, Function.update_self, List.length_append, List.length_singleton]
        omega
      · simp only [setMgmt_mgmt, Function.update_self, List.append_assoc, List.singleton_append]
        refine (hlist.unlink hnd).congr fun c _ => ?_
        by_cases hc : c = a
        · subst hc; simp
        · simp [Function.update_of_ne hc]
      · simp [Function.update_of_ne hi]
      · have hca : c ≠ a := by rintro rfl; simp [hk] at hc
        simp [Function.update_of_ne hca]
    · simp only [scResInfoRemoveLoaded, hpar, scResInfoDel]
      rw [if_neg (by omega)]
      rfl

omit L in
theorem Relinked.ctntId {rl' : ResList} {m : MgmtIdx} {l : List CtntIdx} (hr : Relinked rl rl' g m l)
    (c : CtntIdx) : (rl'.ctnt c).id = (rl.ctnt c).id := by
  rw [hr.ctnt c]

omit L in
theorem Relinked.mgmtId {rl' : ResList} {m : MgmtIdx} {l : List CtntIdx} (hr : Relinked rl rl' g m l)
    (i : MgmtIdx) : (rl'.mgmt i).id = (rl.mgmt i).id := by
  rw [hr.mgmt i]

theorem Rep.kids_disjoint (h : Rep rl g) {i m : MgmtIdx} {c : CtntIdx} (hi : c ∈ g.kids i) (hm : c ∈ g.kids m) :
    i = m :=
  Option.some.inj (((h.memKids i c).mp hi).2.symm.trans ((h.memKids m c).mp hm).2)

theorem Rep.liveMgmt_of_kid (h : Rep rl g) {m : MgmtIdx} {c : CtntIdx} (hc : c ∈ g.kids m) : rl.LiveMgmt m := by
  obtain ⟨hlive, hpar⟩ := (h.memKids m c).mp hc
  obtain ⟨i, hi, hp⟩ := h.parent c hlive
  rw [hpar] at hp
  obtain rfl := Option.some.inj hp
  exact hi

def freed (rl rl' : ResList) (ld : CtntIdx) : ResList :=
  { rl' with
    ctnt := Function.update rl'.ctnt ld { id := rl.ctntFree }
    ctntFree := L.ctnt.addr ld
    ctntCnt := rl.ctntCnt - 1 }

section Freed

variable {rl' : ResList} {m : MgmtIdx} {ld : CtntIdx}

@[simp] theorem freed_self : (freed rl rl' ld).ctnt ld = { id := rl.ctntFree } := Function.update_self ..

theorem freed_other {c : CtntIdx} (hc : c ≠ ld) : (freed rl rl' ld).ctnt c = rl'.ctnt c :=
  Function.update_of_ne hc _ _

theorem Relinked.put_eq {l : List CtntIdx} (h : Rep rl g) (hlive : rl.LiveCtnt ld) (hr : Relinked rl rl' g m l) :
    scResInfoPut rl' (.ctnt ld) = freed rl rl' ld := by
  obtain ⟨hpos, -⟩ := h.ctnt.push ((h.liveCtnt_iff ld).mp hlive)
  have hgen : scResInfoIsCtnt (rl'.ctnt ld).toResInfo = true := by
    rw [hr.ctnt ld]
    simp [scResInfoIsCtnt, h.genCtnt ld]
  simp only [scResInfoPut, hgen, if_true, hr.ctntCnt, hr.ctntFree]
  rw [if_neg (by omega)]
  rfl

variable {l₁ l₂ : List CtntIdx}

theorem Rep.kids_unlinked (h : Rep rl g) (hk : g.kids m = l₁ ++ ld :: l₂) :
    (∀ i, ld ∉ Function.update g.kids m (l₁ ++ l₂) i) ∧ (l₁ ++ l₂).Nodup := by
  have hnd := h.nodup m
  rw [hk] at hnd
  obtain ⟨hnot, hnd'⟩ := List.nodup_cons.mp (List.nodup_middle.mp hnd)
  refine ⟨fun i => ?_, hnd'⟩
  by_cases hi : i = m
  · subst hi
    rwa [Function.update_self]
  · rw [Function.update_of_ne hi]
    exact fun hmem => hi (h.kids_disjoint hmem (by simp [hk]))

/-- The child lists after the change, while `ld` is still in use. -/
theorem Relinked.child_all (h : Rep rl g) (hr : Relinked rl rl' g m (l₁ ++ l₂)) (i : MgmtIdx) :
    IsList (fun c => (rl'.ctnt c).siblings) (rl'.mgmt i).child (Function.update g.kids m (l₁ ++ l₂) i) := by
  by_cases hi : i = m
  · subst hi
    rw [Function.update_self]
    exact hr.child
  · rw [Function.update_of_ne hi, hr.other i hi]
    refine (h.child i).congr fun c hc => ?_
    exact hr.siblings c fun hcm => hi (h.kids_disjoint hc hcm)

theorem Rep.freed (h : Rep rl g) (hk : g.kids m = l₁ ++ ld :: l₂) (hr : Relinked rl rl' g m (l₁ ++ l₂)) :
    Rep (freed rl rl' ld)
      { g with freeC := ld :: g.freeC, kids := Function.update g.kids m (l₁ ++ l₂) } := by
  have hmem : ld ∈ g.kids m := by simp [hk]
  obtain ⟨-, hpush⟩ := h.ctnt.push ((h.liveCtnt_iff ld).mp ((h.memKids m ld).mp hmem).1)
  obtain ⟨hnot, hnd⟩ := h.kids_unlinked hk
  have hdead : rl.ctntFree ≠ ld := by
    have := (hpush.used ld).not.mpr (by simp)
    simpa using this
  have hlive : ∀ c, c ≠ ld → ((HotCache.freed rl rl' ld).LiveCtnt c ↔ rl.LiveCtnt c) := by
    intro c hc
    simp only [ResList.LiveCtnt, freed_other hc, hr.ctntId]
  have hpar : ∀ c, c ≠ ld → ((HotCache.freed rl rl' ld).ctnt c).parent = (rl.ctnt c).parent := by
    intro c hc
    rw [freed_other hc, hr.ctnt c]
  exact
    { mgmt := by
        have := h.mgmt.congr hr.mgmtId
        rw [← hr.mgmtFree, ← hr.mgmtCnt] at this
        exact this
      ctnt := by
        refine hpush.congr fun c => ?_
        by_cases hc : c = ld
        · subst hc; simp
        · simp [freed_other hc, Function.update_of_ne hc, hr.ctntId]
      child := fun i => by
        refine (hr.child_all h i).congr fun c hc => ?_
        have hne : c ≠ ld := by rintro rfl; exact hnot i hc
        rw [freed_other hne]
      nodup := fun i => by
        dsimp only
        by_cases hi : i = m
        · subst hi; rw [Function.update_self]; exact hnd
        · rw [Function.update_of_ne hi]; exact h.nodup i
      childCnt := fun i => by
        dsimp only [HotCache.freed]
        by_cases hi : i = m
        · subst hi; rw [Function.update_self]; exact hr.childCnt
        · rw [Function.update_of_ne hi, hr.other i hi]; exact h.childCnt i
      memKids := fun i c => by
        by_cases hc : c = ld
        · subst hc
          simp [hnot i, ResList.LiveCtnt, hdead]
        · rw [hlive c hc, hpar c hc, ← h.memKids i c]
          dsimp only
          by_cases hi : i = m
          · subst hi; rw [Function.update_self, hk]; simp [hc]
          · rw [Function.update_of_ne hi]
      parent := fun c hcl => by
        by_cases hc : c = ld
        · subst hc
          rw [ResList.LiveCtnt, freed_self] at hcl
          exact absurd hcl hdead
        · obtain ⟨i, hi, hp⟩ := h.parent c ((hlive c hc).mp hcl)
          exact ⟨i, (hr.mgmtId i).trans hi, (hpar c hc).trans hp⟩
      genMgmt := fun i hi => by
        have := h.genMgmt i ((hr.mgmtId i).symm.trans hi)
        change (rl'.mgmt i).gen ≠ .content
        rw [hr.mgmt i]
        exact this
      genCtnt := fun c => by
        by_cases hc : c = ld
        · subst hc; simp
        · rw [freed_other hc, hr.ctnt c]
          exact h.genCtnt c
      freeMgmt := fun i hi => by
        have him : i ≠ m := by
          rintro rfl
          exact (h.liveMgmt_iff _).mp (h.liveMgmt_of_kid hmem) hi
        change rl'.mgmt i = { id := (rl'.mgmt i).id }
        rw [hr.other i him]
        exact h.freeMgmt i hi
      freeCtnt := fun c hcf => by
        by_cases hc : c = ld
        · subst hc; simp
        · have hcf' : c ∈ g.freeC := by simpa [hc] using hcf
          have hkid : c ∉ g.kids m := fun hkid => (h.liveCtnt_iff c).mp ((h.memKids m c).mp hkid).1 hcf'
          have hz := h.freeCtnt c hcf'
          rw [freed_other hc, hr.ctnt c, hr.siblings c hkid]
          exact hz }

end Freed

/-- Putting back the record that has been taken off the child list of `m`. -/
theorem Rep.putLoaded {rl' : ResList} (h : Rep rl g) {m : MgmtIdx} {ld : CtntIdx}
    {l₁ l₂ : List CtntIdx} (hk : g.kids m = l₁ ++ ld :: l₂) (hr : Relinked rl rl' g m (l₁ ++ l₂)) :
    scResInfoPut rl' (.ctnt ld) = { rl' with
      ctnt := Function.update rl'.ctnt ld { id := rl.ctntFree }
      ctntFree := L.ctnt.addr ld
      ctntCnt := rl.ctntCnt - 1 } ∧
    Rep (scResInfoPut rl' (.ctnt ld))
      { g with freeC := ld :: g.freeC, kids := Function.update g.kids m (l₁ ++ l₂) } := by
  have hput : scResInfoPut rl' (.ctnt ld) = HotCache.freed rl rl' ld :=
    hr.put_eq h ((h.memKids m ld).mp (by simp [hk])).1
  refine ⟨hput, ?_⟩
  rw [hput]
  exact h.freed hk hr

theorem Rep.dupCtnt (h : Rep rl g) {from_ to_ : CtntIdx} (hto : rl.LiveCtnt to_) :
    Rep (scResInfoDupCtnt rl from_ to_) g := by
  refine h.setCtnt rfl rfl rfl (h.genCtnt to_) fun hfree => ?_
  exact absurd hfree ((h.liveCtnt_iff to_).mp hto)

/-- `sc_res_info_handle_cached` changes nothing, or copies one child of `ctrlLd` over `parsed` and
puts that child back. -/
theorem handleCached_cases (h : Rep rl g) (ctrlLd : MgmtIdx) {parsed : CtntIdx}
    (hlive : rl.LiveCtnt parsed) :
    scResInfoHandleCached rl ctrlLd parsed = (.errInternal, rl) ∨
    ∃ pre ld l₁ l₂, g.kids ctrlLd = l₁ ++ ld :: l₂ ∧ Precedes pre l₁ ∧
      Relinked (scResInfoDupCtnt rl ld parsed) (unlinked (scResInfoDupCtnt rl ld parsed) ctrlLd pre ld) g
        ctrlLd (l₁ ++ l₂) ∧
      scResInfoHandleCached rl ctrlLd parsed =
        (.success, scResInfoPut (unlinked (scResInfoDupCtnt rl ld parsed) ctrlLd pre ld) (.ctnt ld)) := by
  unfold scResInfoHandleCached
  by_cases hslash : ch '/' ∉ (rl.ctnt parsed).url
  case pos => exact .inl (by simp [hslash])
  simp only [hslash, if_false]
  split
  next => exact .inl rfl
  next pre ld hfind =>
    obtain ⟨l₁, l₂, hk, hpre, -⟩ := h.findLoaded_kids hfind
    obtain ⟨hr, heq⟩ := removeLoaded_spec (h.dupCtnt hlive) hk hpre
    exact .inr ⟨pre, ld, l₁, l₂, hk, hpre, hr, heq⟩

/-- What a hand-over changes: `ld` is freed, `parsed` gets its url, path and flags, and the rest
keeps all but its links. -/
structure HandedOver (rl rl' : ResList) (ctrlLd : MgmtIdx) (parsed ld : CtntIdx) : Prop where
  live : rl.LiveCtnt ld
  parent : (rl.ctnt ld).parent = some ctrlLd
  freed : ¬ rl'.LiveCtnt ld
  freedFlag : (rl'.ctnt ld).flag = {}
  ctnt : ∀ c, c ≠ ld → rl'.ctnt c = { (scResInfoDupCtnt rl ld parsed).ctnt c with siblings := (rl'.ctnt c).siblings }
  mgmt : ∀ i, rl'.mgmt i = { rl.mgmt i with childCnt := (rl'.mgmt i).childCnt, child := (rl'.mgmt i).child }

omit L in
theorem HandedOver.other {rl' : ResList} {ctrlLd : MgmtIdx} {parsed ld c : CtntIdx}
    (ho : HandedOver rl rl' ctrlLd parsed ld) (hlive : rl'.LiveCtnt c) (hc : c ≠ parsed) :
    rl'.ctnt c = { rl.ctnt c with siblings := (rl'.ctnt c).siblings } := by
  have hne : c ≠ ld := by
    rintro rfl
    exact ho.freed hlive
  rw [ho.ctnt c hne]
  simp only [scResInfoDupCtnt, setCtnt_ctnt, Function.update_of_ne hc]

omit L in
theorem HandedOver.parsed {rl' : ResList} {ctrlLd : MgmtIdx} {parsed ld : CtntIdx}
    (ho : HandedOver rl rl' ctrlLd parsed ld) (hne : parsed ≠ ld) :
    rl'.ctnt parsed = { rl.ctnt parsed with
      url := (rl.ctnt ld).url
      localpath := (rl.ctnt ld).localpath
      flag := { (rl.ctnt parsed).flag with
        stored := (rl.ctnt parsed).flag.stored || (rl.ctnt ld).flag.stored
        notify := (rl.ctnt parsed).flag.notify || (rl.ctnt ld).flag.notify }
      siblings := (rl'.ctnt parsed).siblings } := by
  rw [ho.ctnt parsed hne]
  simp only [scResInfoDupCtnt, setCtnt_ctnt, Function.update_self]

theorem handleCached_handedOver (h : Rep rl g) (ctrlLd : MgmtIdx) {parsed : CtntIdx}
    (hlive : rl.LiveCtnt parsed) :
    scResInfoHandleCached rl ctrlLd parsed = (.errInternal, rl) ∨
    ∃ ld rl', scResInfoHandleCached rl ctrlLd parsed = (.success, rl') ∧
      HandedOver rl rl' ctrlLd parsed ld := by
  rcases handleCached_cases h ctrlLd hlive with heq | ⟨pre, ld, l₁, l₂, hk, -, hr, heq⟩
  · exact .inl heq
  obtain ⟨hlivel, hpar⟩ := (h.memKids ctrlLd ld).mp (by simp [hk])
  obtain ⟨hput, hrep⟩ := (h.dupCtnt hlive).putLoaded hk hr
  refine .inr ⟨ld, _, heq, hlivel, hpar, ?_, ?_, fun c hc => ?_, fun i => ?_⟩
  · rw [hrep.liveCtnt_iff]
    simp
  · rw [hput]
    simp
  · rw [hput]
    simp only [Function.update_of_ne hc]
    exact hr.ctnt c
  · rw [hput]
    exact hr.mgmt i

theorem poolStep_rep {rl' : ResList} (h : Rep rl g) (hs : PoolStep rl rl') : ∃ g', Rep rl' g' := by
  have hadd : ∀ {gen : Gen} (careType : Bool) (url : Bytes), gen ≠ .content →
      ∃ g', Rep (scResInfoAddMgmt gen careType rl url).2 g' := by
    intro gen careType url hgen
    rcases addMgmt_cases h careType url hgen with heq | ⟨m, l, site, hf, heq⟩
    · exact ⟨g, by rw [heq]; exact h⟩
    · exact ⟨_, by rw [heq]; exact h.mgmtAdded hf hgen careType url site⟩
  cases hs with
  | addNormal url => exact hadd true url (by decide)
  | addOrigin url => exact hadd true url (by decide)
  | addCtrlLd url => exact hadd false url (by decide)
  | addCtnt m url delOk hm =>
    rcases addCtnt_cases h m url delOk with heq | ⟨c, l, -, heq⟩ | ⟨c, l, lp, hf, -, heq⟩
    · exact ⟨g, by rw [heq]; exact h⟩
    · exact ⟨g, by rw [heq]; exact h.setFlag c fun _ => {}⟩
    · exact ⟨_, by rw [heq]; exact h.ctntAdded hf hm url lp⟩
  | handleCached ctrlLd parsed _ hlive _ =>
    rcases handleCached_cases h ctrlLd hlive with heq | ⟨pre, ld, l₁, l₂, hk, -, hr, heq⟩
    · exact ⟨g, by rw [heq]; exact h⟩
    · exact ⟨_, by rw [heq]; exact ((h.dupCtnt hlive).putLoaded hk hr).2⟩
  | flag c f => exact ⟨g, h.setFlag c f⟩

theorem reachable_rep (h : PoolReachable rl) : ∃ g, Rep rl g := by
  induction h with
  | refl => exact ⟨_, init_rep⟩
  | tail _ hs ih =>
    obtain ⟨g, hg⟩ := ih
    exact poolStep_rep hg hs

/-- In every state of the pool: both free chains end in `INVALID_PTR`, visit no slot twice and make
up the counters; the slots off a chain are those whose `id` is their index, which is what the
`id` test of `sc_res_list_process_mgmt` decides; and the children of a live management record are
exactly the live content records whose parent it is, each once, `child_cnt` of them. -/
theorem pool_invariant (h : PoolReachable rl) :
    ∃ (freeM : List MgmtIdx) (freeC : List CtntIdx),
      Chain L.mgmt (fun i => (rl.mgmt i).id) rl.mgmtFree freeM ∧ freeM.Nodup ∧
      Chain L.ctnt (fun i => (rl.ctnt i).id) rl.ctntFree freeC ∧ freeC.Nodup ∧
      rl.mgmtCnt + freeM.length = SC_RES_INFO_NUM_MAX_MGMT ∧
      rl.ctntCnt + freeC.length = SC_RES_INFO_NUM_MAX_CTNT ∧
      (∀ m, m ∉ freeM ↔ rl.LiveMgmt m) ∧ (∀ c, c ∉ freeC ↔ rl.LiveCtnt c) ∧
      (∀ m, SC_RES_INFO_NUM_MAX_MGMT ≤ (rl.mgmt m).id ↔ m ∈ freeM) ∧
      (∀ m, rl.LiveMgmt m → ∃ kids : List CtntIdx,
        IsList (fun c => (rl.ctnt c).siblings) (rl.mgmt m).child kids ∧ kids.Nodup ∧
        (rl.mgmt m).childCnt = kids.length ∧
        ∀ c, c ∈ kids ↔ rl.LiveCtnt c ∧ (rl.ctnt c).parent = some m) ∧
      (∀ c, rl.LiveCtnt c → ∃ m, rl.LiveMgmt m ∧ (rl.ctnt c).parent = some m) := by
  obtain ⟨g, hg⟩ := reachable_rep h
  refine ⟨g.freeM, g.freeC, hg.mgmt.chain, hg.mgmt.nodup, hg.ctnt.chain, hg.ctnt.nodup, hg.mgmt.count,
    hg.ctnt.count, fun m => (hg.liveMgmt_iff m).symm, fun c => (hg.liveCtnt_iff c).symm, hg.mgmt.lt_iff, ?_, hg.parent⟩
  intro m _
  exact ⟨g.kids m, hg.child m, hg.nodup m, hg.childCnt m, hg.memKids m⟩

end Pool

def onePair : ResList :=
  (@scResInfoAddCtnt sampleLayout (@scResInfoAddNormal sampleLayout (@scResListAllocAndInit sampleLayout)
    (bytes "f.youku.com/a.flv")).2 1023 (bytes "f.youku.com/a.flv") true).2

theorem pool_invariant_one_pair :
    onePair.ctntCnt = 1 ∧ onePair.LiveMgmt 1023 ∧ onePair.LiveCtnt 4095 ∧
    ∃ freeC : List CtntIdx, Chain sampleLayout.ctnt (fun i => (onePair.ctnt i).id) onePair.ctntFree freeC ∧
      freeC.Nodup ∧ onePair.ctntCnt + freeC.length = SC_RES_INFO_NUM_MAX_CTNT ∧
      ∀ c, c ∉ freeC ↔ onePair.LiveCtnt c := by
  have hreach : @PoolReachable sampleLayout onePair := by
    refine (Relation.ReflTransGen.single (@PoolStep.addNormal sampleLayout _ (bytes "f.youku.com/a.flv"))).tail
      (@PoolStep.addCtnt sampleLayout _ 1023 (bytes "f.youku.com/a.flv") true ?_)
    decide +kernel
  obtain ⟨_, freeC, _, _, hchain, hnd, _, hcnt, _, hlive, _⟩ := @pool_invariant sampleLayout _ hreach
  exact ⟨by decide +kernel, by decide +kernel, by decide +kernel, freeC, hchain, hnd, hcnt, hlive⟩

end HotCache
