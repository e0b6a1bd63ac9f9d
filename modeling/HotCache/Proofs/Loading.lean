import HotCache.Proofs.Coherent
import HotCache.Proofs.Keys
import HotCache.Spec.Loading

/-! When the loader removes a file. The test for a duplicate looks for the end of the file name in
the urls of the loaded records, so it takes a file for a duplicate of itself when it meets it
again, and of any other file whose url happens to contain that end. -/

namespace HotCache

open CStr Lts

/-- Both names have a `_`, and the same part after the last one. -/
def SameTail (g f : Bytes) : Prop :=
  ch '_' ∈ g ∧ ch '_' ∈ f ∧ g.rtakeWhile (· ≠ ch '_') = f.rtakeWhile (· ≠ ch '_')

/-- If the call removes its file, a different file with the same tail exists and has been loaded
under the same controller. -/
def RemovesOnlyCopies [Layout] (d : Disk) (fpath : Bytes) (ans : FileAnswer) : Prop :=
  ∀ ctrlLd f files, ldSelect d fpath ans.rename = some (ctrlLd, f, files) →
    f ∉ (diskProcess d fpath ans).files →
    ∃ m g, ctrlLd = some m ∧ (m, g) ∈ d.loaded ∧ g ∈ files ∧ g ≠ f ∧ SameTail g f

/-- The file that the call is about has not been loaded yet, and the tail of its name occurs only in
the urls of those loaded files that have the same tail. -/
def NewFile (d : Disk) (call : Bytes × FileAnswer) : Prop :=
  ∀ ctrlLd f files, ldSelect d call.1 call.2.rename = some (ctrlLd, f, files) →
    (∀ m, (m, f) ∉ d.loaded) ∧
    ∀ m g url, (m, g) ∈ d.loaded → ldUrl g = some url →
      f.rtakeWhile (· ≠ ch '_') <:+: scResCopyUrl url true → SameTail g f

theorem rtakeWhile_append_cons {s : UInt8} {a b : Bytes} (hb : s ∉ b) :
    (a ++ s :: b).rtakeWhile (· ≠ s) = b := by
  have hrev : s ∉ b.reverse := fun h => hb (List.mem_reverse.mp h)
  rw [List.rtakeWhile, List.reverse_append, List.reverse_cons, List.append_assoc,
    List.takeWhile_append_of_pos (ne_of_notMem hrev)]
  simp

/-- The parts of a pure vid path. -/
theorem pureVid_split {lp : Bytes} (h : scYkIsLocalPathPureVid lp = true) :
    ∃ a vid, uriStart lp = a ++ ch '/' :: vid ∧ ch '/' ∉ a ∧ ch '/' ∉ vid ∧ vid.length = 70 := by
  unfold scYkIsLocalPathPureVid at h
  dsimp only at h
  split_ifs at h with hlen hslash
  simp only [Bool.and_eq_true, decide_eq_true_eq] at h
  obtain ⟨hvid, hcount⟩ := h
  obtain ⟨a, vid, huri, ha⟩ := List.eq_append_cons_of_mem hslash
  have hnot : ch '/' ∉ vid := by
    rw [huri, List.count_append, List.count_cons_self, List.count_eq_zero_of_not_mem ha] at hcount
    exact List.count_eq_zero.mp (by omega)
  rw [huri, rtakeWhile_append_cons hnot] at hvid
  exact ⟨a, vid, huri, ha, hnot, hvid⟩

/-- A path whose last component does not have 70 characters is no pure vid path. -/
theorem not_pureVid {lp a b : Bytes} (h : uriStart lp = a ++ ch '/' :: b) (hb : ch '/' ∉ b)
    (hlen : b.length ≠ 70) : scYkIsLocalPathPureVid lp = false := by
  unfold scYkIsLocalPathPureVid
  dsimp only
  rw [h, rtakeWhile_append_cons hb]
  split_ifs <;> simp [hlen]

/-- The two scans for the slash take the uri apart. -/
theorem vid_parts {uri a vid : Bytes} (huri : uri = a ++ ch '/' :: vid) (ha : ch '/' ∉ a) :
    (uri.dropWhile (· ≠ ch '/')).drop 1 = vid ∧ uri.take (uri.length - vid.length) = a ++ [ch '/'] := by
  constructor
  · rw [huri, List.dropWhile_append_of_pos (ne_of_notMem ha)]
    simp
  · rw [huri, List.append_cons, List.length_append, Nat.add_sub_cancel, List.take_left']
    rfl

/-- One slash is too few for the root. -/
theorem root_absent {a t : Bytes} (ha : ch '/' ∉ a) (ht : ch '/' ∉ t) :
    ¬ SC_NGX_ROOT_PATH <:+: a ++ ch '/' :: t := by
  intro hin
  have hle := hin.sublist.count_le (ch '/')
  have hfour : SC_NGX_ROOT_PATH.count (ch '/') = 4 := by decide
  rw [List.count_append, List.count_cons_self, List.count_eq_zero_of_not_mem ha,
    List.count_eq_zero_of_not_mem ht, hfour] at hle
  omega

theorem trans_not_pureVid {fpath std : Bytes} {n : ℕ}
    (h : scYkTransVidToStdPath fpath n = some std) : scYkIsLocalPathPureVid std = false := by
  unfold scYkTransVidToStdPath at h
  split at h
  · cases h
  rename_i hpure
  split at h
  · cases h
  obtain ⟨a, vid, huri, ha, hvid, h70⟩ := pureVid_split (by simpa using hpure)
  obtain ⟨hdrop, htake⟩ := vid_parts huri ha
  simp only [hdrop, Option.some.injEq] at h
  have htag : ch '/' ∉ youkuTag := by decide
  have hb : ch '/' ∉ youkuTag ++ vid := by simp [htag, hvid]
  have hlong : (youkuTag ++ vid).length ≠ 70 := by
    have htl : youkuTag.length = 33 := by decide
    rw [List.length_append]
    omega
  rw [htake] at h
  refine not_pureVid (a := a) (b := youkuTag ++ vid) ?_ hb hlong
  subst h
  unfold uriStart
  by_cases hroot : (strstr fpath SC_NGX_ROOT_PATH).isSome = true
  · have hstd : SC_NGX_ROOT_PATH <:+: SC_NGX_ROOT_PATH ++ (a ++ [ch '/']) ++ youkuTag ++ vid := by
      rw [List.append_assoc, List.append_assoc]
      exact (List.prefix_append _ _).isInfix
    have hlen : SC_NGX_ROOT_PATH.length = SC_NGX_ROOT_PATH_LEN := by decide
    rw [if_pos hroot, if_pos (strstr_isSome.mpr hstd), List.append_assoc, List.append_assoc,
      List.drop_left' hlen]
    simp
  · have hstd : ¬ SC_NGX_ROOT_PATH <:+: [] ++ (a ++ [ch '/']) ++ youkuTag ++ vid := by
      simpa using root_absent ha hb
    rw [if_neg hroot, if_neg fun hs => hstd (strstr_isSome.mp hs)]
    simp

def Settled (f : Bytes) : Prop := scYkIsLocalPath f = true ∨ scYkIsLocalPathPureVid f = false

/-- The file exists under the name that is tested, and no settled file has gone. -/
theorem ldSelect_spec {d : Disk} {fpath f : Bytes} {rename : Bool} {ctrlLd : Option MgmtIdx}
    {files : Finset Bytes} (hf : fpath ∈ d.files)
    (h : ldSelect d fpath rename = some (ctrlLd, f, files)) :
    Settled f ∧ f ∈ files ∧ ∀ g ∈ d.files, Settled g → g ∈ files := by
  unfold ldSelect at h
  by_cases hyk : scYkIsLocalPath fpath = true
  · rw [if_pos hyk] at h
    cases h
    exact ⟨.inl hyk, hf, fun _ hg _ => hg⟩
  rw [if_neg hyk] at h
  by_cases hvid : scYkIsLocalPathPureVid fpath = true
  · rw [if_pos hvid] at h
    cases hstd : scYkTransVidToStdPath fpath SC_RES_LOCAL_PATH_MAX_LEN with
    | none =>
      rw [hstd] at h
      cases h
    | some std =>
      rw [hstd] at h
      dsimp only at h
      split_ifs at h
      cases h
      refine ⟨.inr (trans_not_pureVid hstd), Finset.mem_insert_self _ _, fun g hg hset => ?_⟩
      refine Finset.mem_insert_of_mem (Finset.mem_erase.mpr ⟨?_, hg⟩)
      rintro rfl
      rcases hset with hset | hset
      · exact hyk hset
      · rw [hvid] at hset
        cases hset
  rw [if_neg hvid] at h
  split_ifs at h
  cases h
  exact ⟨.inr (by simpa using hvid), hf, fun _ hg _ => hg⟩

section Walk

variable [L : Layout] {d : Disk} {fpath f : Bytes} {ctrlLd : Option MgmtIdx}

theorem ldFinish_world (d : Disk) (ctrlLd : Option MgmtIdx) (f : Bytes) (ans : FileAnswer) :
    (ldFinish d ctrlLd f ans).w = ldAddFile d.w ctrlLd f ans.del := by
  unfold ldFinish ldAddFile
  by_cases hdup : scLdIsDuplicateFile d.w.rl ctrlLd f = true
  · rw [if_pos hdup, if_pos hdup]
  · rw [if_neg hdup, if_neg hdup]
    dsimp only
    rw [← ldUrl]
    cases ldUrl f with
    | none => rfl
    | some url =>
      cases ctrlLd with
      | none => rfl
      | some m =>
        dsimp only
        rcases hadd : d.w.addCtnt m url ans.del with ⟨_ | c, w⟩ <;> rfl

theorem diskProcess_world (d : Disk) (fpath : Bytes) (ans : FileAnswer) :
    (diskProcess d fpath ans).w = scLdFileProcess d.w fpath ans.toLoadAnswer := by
  unfold diskProcess ldSelect scLdFileProcess
  by_cases hyk : scYkIsLocalPath fpath = true
  · rw [if_pos hyk, if_pos hyk]
    exact ldFinish_world _ _ _ ans
  rw [if_neg hyk, if_neg hyk]
  by_cases hvid : scYkIsLocalPathPureVid fpath = true
  · rw [if_pos hvid, if_pos hvid]
    cases scYkTransVidToStdPath fpath SC_RES_LOCAL_PATH_MAX_LEN with
    | none => rfl
    | some std =>
      dsimp only
      by_cases hren : (!ans.rename) = true
      · rw [if_pos hren, if_pos hren]
      · rw [if_neg hren, if_neg hren]
        exact ldFinish_world _ _ _ ans
  rw [if_neg hvid, if_neg hvid]
  by_cases hsohu : scSohuIsLocalPath fpath = true
  · rw [if_pos hsohu, if_pos hsohu]
    exact ldFinish_world _ _ _ ans
  · rw [if_neg hsohu, if_neg hsohu]

/-- The record that makes a file a duplicate. -/
theorem duplicate_record {rl : ResList} {g : Shape} (h : Rep rl g)
    (hdup : scLdIsDuplicateFile rl ctrlLd f = true) :
    ∃ m c, ctrlLd = some m ∧ rl.LiveCtnt c ∧ (rl.ctnt c).parent = some m ∧
      f.rtakeWhile (· ≠ ch '_') <:+: (rl.ctnt c).url := by
  cases ctrlLd with
  | none => cases hdup
  | some m =>
    simp only [scLdIsDuplicateFile] at hdup
    split_ifs at hdup
    obtain ⟨⟨pre, ld⟩, hfind⟩ := Option.isSome_iff_exists.mp hdup
    obtain ⟨l₁, l₂, hl, -, hmatch, -⟩ := h.findLoaded_kids hfind
    obtain ⟨hlive, hpar⟩ := (h.memKids m ld).mp (by rw [hl]; simp)
    exact ⟨m, ld, rfl, hlive, hpar, strstr_isSome.mp hmatch⟩

theorem addCtnt_record {w : World} (h : Good w) {m : MgmtIdx} {url : Bytes} {delOk : Bool}
    {c : CtntIdx} (hc : (w.addCtnt m url delOk).2.rl.LiveCtnt c) :
    (w.rl.LiveCtnt c ∧ ((w.addCtnt m url delOk).2.rl.ctnt c).parent = (w.rl.ctnt c).parent ∧
      ((w.addCtnt m url delOk).2.rl.ctnt c).url = (w.rl.ctnt c).url) ∨
    ((w.addCtnt m url delOk).1 = some c ∧
      ((w.addCtnt m url delOk).2.rl.ctnt c).parent = some m ∧
      ((w.addCtnt m url delOk).2.rl.ctnt c).url = scResCopyUrl url true) := by
  obtain ⟨g, hg⟩ := h.rep
  rcases w.addCtnt_cases hg m url delOk with ⟨-, heq⟩ | ⟨c', l, -, -, heq⟩ | ⟨c', l, lp, -, -, -, heq⟩
  · rw [heq] at hc ⊢
    exact .inl ⟨hc, rfl, rfl⟩
  · rw [heq] at hc ⊢
    dsimp only [World.logged] at hc ⊢
    refine .inl ⟨(setFlag_live c' c _).mp hc, setFlag_parent c' c _, ?_⟩
    by_cases hcc : c = c'
    · subst hcc
      simp [ResList.setFlag, ResList.setCtnt]
    · rw [setFlag_other _ hcc]
  · rw [heq] at hc ⊢
    dsimp only [World.logged] at hc ⊢
    by_cases hcc : c = c'
    · subst hcc
      right
      simp [ctntAdded_self, newCtnt]
    · left
      rw [ctntAdded_other hcc]
      exact ⟨(ctntAdded_liveCtnt hcc).mp hc, rfl, rfl⟩

/-- What the walk keeps: the loaded files are still there under the names they were loaded with, and
each record has the url of a loaded file. -/
structure Walked (d : Disk) : Prop where
  sound : Sound d.w
  settled : ∀ m g, (m, g) ∈ d.loaded → g ∈ d.files ∧ Settled g
  record : ∀ c m, d.w.rl.LiveCtnt c → (d.w.rl.ctnt c).parent = some m →
    ∃ g url, (m, g) ∈ d.loaded ∧ ldUrl g = some url ∧ (d.w.rl.ctnt c).url = scResCopyUrl url true

theorem init_walked (files : Finset Bytes) : Walked (diskSystem files).init where
  sound := ldInit_blank.sound
  settled := fun m g hg => by cases hg
  record := fun c _ hc => absurd hc (ldInit_blank.ctnt c).1

theorem diskProcess_some {ans : FileAnswer} {files : Finset Bytes}
    (h : ldSelect d fpath ans.rename = some (ctrlLd, f, files)) :
    diskProcess d fpath ans = ldFinish { d with files := files } ctrlLd f ans := by
  simp only [diskProcess, h]

theorem ldFinish_files (hdup : scLdIsDuplicateFile d.w.rl ctrlLd f = false) (ans : FileAnswer) :
    (ldFinish d ctrlLd f ans).files = d.files := by
  unfold ldFinish
  rw [hdup, if_neg Bool.false_ne_true]
  split
  · split <;> rfl
  · rfl

theorem Walked.removesOnlyCopies (h : Walked d) {ans : FileAnswer} (hf : fpath ∈ d.files)
    (hnew : NewFile d (fpath, ans)) : RemovesOnlyCopies d fpath ans := by
  intro ctrlLd f files hsel hgone
  obtain ⟨-, hmem, hkeep⟩ := ldSelect_spec hf hsel
  obtain ⟨hfresh, htail⟩ := hnew ctrlLd f files hsel
  have hdup : scLdIsDuplicateFile d.w.rl ctrlLd f = true := by
    by_contra hn
    rw [diskProcess_some hsel, ldFinish_files (by simpa using hn)] at hgone
    exact hgone hmem
  obtain ⟨g, hg⟩ := h.sound.rep
  obtain ⟨m, c, rfl, hlive, hpar, hin⟩ := duplicate_record hg hdup
  obtain ⟨g, url, hload, hurl, hc⟩ := h.record c m hlive hpar
  rw [hc] at hin
  obtain ⟨hex, hset⟩ := h.settled m g hload
  refine ⟨m, g, rfl, hload, hkeep g hex hset, ?_, htail m g url hload hurl hin⟩
  rintro rfl
  exact hfresh m hload

/-- Where the records come from after the addition of one more. -/
theorem Walked.record_addCtnt (h : Walked d) {m j : MgmtIdx} {url : Bytes} {delOk : Bool}
    {c : CtntIdx} (hc : (d.w.addCtnt m url delOk).2.rl.LiveCtnt c)
    (hpar : ((d.w.addCtnt m url delOk).2.rl.ctnt c).parent = some j) :
    (∃ g url', (j, g) ∈ d.loaded ∧ ldUrl g = some url' ∧
      ((d.w.addCtnt m url delOk).2.rl.ctnt c).url = scResCopyUrl url' true) ∨
    ((d.w.addCtnt m url delOk).1 = some c ∧ j = m ∧
      ((d.w.addCtnt m url delOk).2.rl.ctnt c).url = scResCopyUrl url true) := by
  rcases addCtnt_record h.sound.toGood hc with ⟨hlive, hp, hu⟩ | ⟨hnew, hp, hu⟩
  · obtain ⟨g, url', hg, hurl', heq⟩ := h.record c j hlive (hp ▸ hpar)
    exact .inl ⟨g, url', hg, hurl', hu.trans heq⟩
  · exact .inr ⟨hnew, Option.some.inj (hpar.symm.trans hp), hu⟩

/-- The second part of the call keeps the invariant. -/
theorem Walked.ldFinish (h : Walked d) (hset : Settled f) (hf : f ∈ d.files)
    (hfresh : ∀ m, (m, f) ∉ d.loaded) {ans : FileAnswer}
    (hsound : Sound (ldFinish d ctrlLd f ans).w) : Walked (ldFinish d ctrlLd f ans) := by
  unfold HotCache.ldFinish at hsound ⊢
  by_cases hdup : scLdIsDuplicateFile d.w.rl ctrlLd f = true
  · -- a removed file is none of the loaded ones
    rw [if_pos hdup]
    refine ⟨h.sound, fun m g hg => ⟨?_, (h.settled m g hg).2⟩, h.record⟩
    have hgf : g ≠ f := by
      rintro rfl
      exact hfresh m hg
    dsimp only
    split_ifs
    · exact Finset.mem_erase.mpr ⟨hgf, (h.settled m g hg).1⟩
    · exact (h.settled m g hg).1
  rw [if_neg hdup] at hsound ⊢
  cases hurl : ldUrl f with
  | none => exact h
  | some url =>
    cases ctrlLd with
    | none => exact h
    | some m =>
      simp only [hurl] at hsound
      have hrec := fun i j => @Walked.record_addCtnt _ d h m j url ans.del i
      rcases hadd : d.w.addCtnt m url ans.del with ⟨_ | c, w⟩
      · simp only [hadd] at hsound hrec ⊢
        refine ⟨hsound, h.settled, fun i j hi hj => ?_⟩
        rcases hrec i j hi hj with hold | ⟨hc, -⟩
        · exact hold
        · cases hc
      · simp only [hadd] at hsound hrec ⊢
        refine ⟨hsound, fun j g hg => ?_, fun i j hi hj => ?_⟩
        · rcases List.mem_cons.mp hg with heq | hg
          · cases heq
            exact ⟨hf, hset⟩
          · exact h.settled j g hg
        · rcases hrec i j hi hj with ⟨g, url', hg, hold⟩ | ⟨-, rfl, hu⟩
          · exact ⟨g, url', List.mem_cons_of_mem _ hg, hold⟩
          · exact ⟨f, url, List.mem_cons_self, hurl, hu⟩

theorem Walked.step (h : Walked d) {ans : FileAnswer} (hf : fpath ∈ d.files)
    (hnew : NewFile d (fpath, ans)) : Walked (diskProcess d fpath ans) := by
  have hsound : Sound (diskProcess d fpath ans).w := by
    rw [diskProcess_world]
    exact fileProcess_sound h.sound fpath ans.toLoadAnswer
  cases hsel : ldSelect d fpath ans.rename with
  | none =>
    have heq : diskProcess d fpath ans = d := by simp only [diskProcess, hsel]
    rw [heq]
    exact h
  | some r =>
    obtain ⟨ctrlLd, f, files⟩ := r
    obtain ⟨hset, hmem, hkeep⟩ := ldSelect_spec hf hsel
    rw [diskProcess_some hsel] at hsound ⊢
    have hd : Walked { d with files := files } :=
      ⟨h.sound, fun m g hg => ⟨hkeep g (h.settled m g hg).1 (h.settled m g hg).2,
        (h.settled m g hg).2⟩, h.record⟩
    exact hd.ldFinish hset hmem (hnew ctrlLd f files hsel).1 hsound

/-- The property that the loader has as long as every call is about a new file. -/
theorem loader_removes_copies {files : Finset Bytes} {ans : FileAnswer}
    (h : (diskSystem files).Run NewFile d) (hf : fpath ∈ d.files) (hnew : NewFile d (fpath, ans)) :
    RemovesOnlyCopies d fpath ans := by
  have hw : Walked d := by
    refine h.invariant (init_walked files) ?_
    rintro d ⟨fpath, ans⟩ d' - hw ⟨hf, rfl⟩ hnew
    exact hw.step hf hnew
  exact hw.removesOnlyCopies hf hnew

end Walk

def allOk : FileAnswer := { rename := true, del := true, remove := true }

def hostA : Bytes := SC_NGX_ROOT_PATH ++ bytes "1_1_1_1/youku_A_x1.flv"

def hostB : Bytes := SC_NGX_ROOT_PATH ++ bytes "2_2_2_2/youku_B_x1.flv"

def afterA : Disk :=
  @diskProcess sampleLayout (@diskSystem sampleLayout {hostA, hostB}).init hostA allOk

/-- The second file is removed, and it is a copy. -/
theorem loader_removes_copies_two_hosts :
    hostB ∈ afterA.files ∧ hostB ∉ (@diskProcess sampleLayout afterA hostB allOk).files ∧
    @RemovesOnlyCopies sampleLayout afterA hostB allOk := by
  have hloaded : afterA.loaded = [(1023, hostA)] := by decide +kernel
  have hsel : ldSelect afterA hostB true = some (some 1023, hostB, {hostA, hostB}) := by
    decide +kernel
  refine ⟨by decide +kernel, by decide +kernel,
    @loader_removes_copies sampleLayout afterA hostB {hostA, hostB} allOk ?_ (by decide +kernel) ?_⟩
  · refine .step (a := (hostA, allOk)) .init ⟨by decide, rfl⟩ fun _ _ _ _ => ⟨fun m hm => ?_, ?_⟩
    · cases hm
    · intro m g url hg
      cases hg
  · intro ctrlLd f files h
    cases hsel.symm.trans h
    rw [hloaded]
    refine ⟨fun m hm => ?_, fun m g url hg _ _ => ?_⟩
    · simp only [List.mem_singleton, Prod.mk.injEq] at hm
      exact absurd hm.2 (by decide)
    · obtain ⟨rfl, rfl⟩ := Prod.mk.inj (List.mem_singleton.mp hg)
      unfold SameTail
      decide

def pureVidFile : Bytes := SC_NGX_ROOT_PATH ++ bytes "1_1_1_1/" ++ List.replicate 70 (ch 'x')

def renamedFile : Bytes :=
  SC_NGX_ROOT_PATH ++ bytes "1_1_1_1/" ++ youkuTag ++ List.replicate 70 (ch 'x')

def afterRename : Disk :=
  @diskProcess sampleLayout (@diskSystem sampleLayout {pureVidFile}).init pureVidFile allOk

/-- The walk meets the file again under its new name, takes it for a duplicate of itself and removes
it. -/
theorem only_copy_removed :
    (@diskSystem sampleLayout {pureVidFile}).Run (fun _ _ => True) afterRename ∧
    renamedFile ∈ afterRename.files ∧
    (@diskProcess sampleLayout afterRename renamedFile allOk).files = ∅ ∧
    ¬ @RemovesOnlyCopies sampleLayout afterRename renamedFile allOk := by
  have hfiles : (@diskProcess sampleLayout afterRename renamedFile allOk).files = ∅ := by
    decide +kernel
  refine ⟨.step (a := (pureVidFile, allOk)) .init ⟨by decide, rfl⟩ trivial, by decide +kernel,
    hfiles, fun h => ?_⟩
  have hloaded : afterRename.loaded = [(1023, renamedFile)] := by decide +kernel
  obtain ⟨m, g, -, hg, -, hne, -⟩ :=
    h (some 1023) renamedFile {renamedFile} (by decide +kernel) (by simp [hfiles])
  rw [hloaded] at hg
  exact hne (Prod.mk.inj (List.mem_singleton.mp hg)).2

/-! What the loader makes of a file that was stored before a restart. -/

section Restart

/-- Where Nginx stores the file of a local path. -/
def storedFile (lp : Bytes) : Bytes := SC_NGX_ROOT_PATH ++ lp

theorem infix_storedFile {t lp : Bytes} (hslash : ch '/' ∉ t) (hroot : ¬ t <:+: bytes "/usr/local/hot-cache") :
    t <:+: storedFile lp ↔ t <:+: lp := by
  refine ⟨fun h => ?_, fun h => h.trans (List.suffix_append SC_NGX_ROOT_PATH lp).isInfix⟩
  by_contra hlp
  exact not_infix_separated hslash hroot hlp h

theorem isLocalPath_storedFile (lp : Bytes) :
    scYkIsLocalPath (storedFile lp) = scYkIsLocalPath lp ∧ scSohuIsLocalPath (storedFile lp) = scSohuIsLocalPath lp := by
  have hsome {t : Bytes} (hslash : ch '/' ∉ t) (hroot : ¬ t <:+: bytes "/usr/local/hot-cache") :
      (strstr (storedFile lp) t).isSome = (strstr lp t).isSome := by
    rw [Bool.eq_iff_iff, strstr_isSome, strstr_isSome, infix_storedFile hslash hroot]
  have hnone {t : Bytes} (hslash : ch '/' ∉ t) (hroot : ¬ t <:+: bytes "/usr/local/hot-cache") :
      (strstr (storedFile lp) t).isNone = (strstr lp t).isNone := by
    rw [← Option.not_isSome, ← Option.not_isSome, hsome hslash hroot]
  constructor
  · unfold scYkIsLocalPath
    rw [hsome (by decide) (by decide), hnone (by decide) (by decide), hnone (by decide) (by decide)]
  · unfold scSohuIsLocalPath
    rw [hsome (by decide) (by decide)]

variable [L : Layout] {w : World} {m : MgmtIdx} {lp v : Bytes} {ans : LoadAnswer}

/-- Nothing keeps `sc_ld_file_process` from adding a record below `m`: no loaded record counts as a duplicate, a
slot is free, and the Snooping module answers the DELETE. -/
structure Admits (w : World) (m : MgmtIdx) (fpath : Bytes) (ans : LoadAnswer) : Prop where
  fresh : scLdIsDuplicateFile w.rl (some m) fpath = false
  free : (scResInfoGetCtnt w.rl).isSome = true
  del : ans.del = true

/-- A record for `url` has come below `m`, with the file of `lp`. -/
structure Loaded (w w' : World) (m : MgmtIdx) (url lp : Bytes) (c : CtntIdx) : Prop where
  new : ¬ w.rl.LiveCtnt c
  live : w'.rl.LiveCtnt c
  parent : (w'.rl.ctnt c).parent = some m
  stored : (w'.rl.ctnt c).flag.stored = true
  url : (w'.rl.ctnt c).url = url
  localpath : (w'.rl.ctnt c).localpath = lp

theorem ldAddFile_loads (h : Good w) (hm : w.Controller m) (hurl : scResRecoverUrlFromLocalPath lp = some v)
    (hpermit : scResInfoPermitAdding v = true) (hlen : v.length < HTTP_URL_MAX_LEN) (hcopy : scResCopyUrl v true = v)
    (hgen : ∀ x : Ctnt, x.site = (w.rl.mgmt m).site → x.url = v → scResInfoGenCtntLocalPath x = some lp)
    (hadm : Admits w m (storedFile lp) ans) :
    ∃ c, Loaded w (ldAddFile w (some m) (storedFile lp) ans.del) m v lp c := by
  obtain ⟨g, hg⟩ := h.rep
  have hctrl := (h.ctrl m hm).2
  have hdrop : (if startsWith (storedFile lp) SC_NGX_ROOT_PATH then (storedFile lp).drop SC_NGX_ROOT_PATH_LEN
      else storedFile lp) = lp := by
    have hroot : startsWith (storedFile lp) SC_NGX_ROOT_PATH = true :=
      (startsWith_iff _ _).mpr (List.prefix_append SC_NGX_ROOT_PATH lp)
    rw [if_pos hroot]
    exact List.drop_left' rfl
  have hadd : ldAddFile w (some m) (storedFile lp) ans.del = (w.addCtnt m v ans.del).2 := by
    unfold ldAddFile
    rw [hadm.fresh, if_neg Bool.false_ne_true, hdrop]
    dsimp only
    rw [hurl]
  have hacc : ¬ RejectsCtnt w.rl m v ans.del := by
    simp [RejectsCtnt, hpermit, not_le.mpr hlen, hadm.del]
  cases hf : g.freeC with
  | nil =>
    have hfree := hadm.free
    rw [getCtnt_nil hg hf] at hfree
    cases hfree
  | cons c l =>
    have heq := addCtnt_cons hg hacc hf
    rw [hgen (newCtnt w.rl m c v) rfl hcopy] at heq
    rcases w.addCtnt_cases hg m v ans.del with ⟨hno, -⟩ | ⟨i, l', -, hno, -⟩ | ⟨i, l', lp', hf', -, hdone, hworld⟩
    · rw [heq] at hno
      cases hno
    · rw [heq] at hno
      cases hno
    · obtain rfl : c = i := (List.cons.inj (hf.symm.trans hf')).1
      refine ⟨c, ?_⟩
      rw [hadd, hworld]
      rw [heq] at hdone
      have hrl := congrArg Prod.snd hdone
      dsimp only at hrl
      have hdead : ¬ w.rl.LiveCtnt c := by simp [hg.liveCtnt_iff, hf]
      simp only [World.logged, ← hrl]
      refine ⟨hdead, ?_, ?_, ?_, ?_, ?_⟩ <;>
        simp [ResList.LiveCtnt, ctntAdded_self, newCtnt, hctrl, hcopy]

omit L in
theorem copyUrl_encoded {e : Bool → Bytes → Bytes} (he : ∀ s, bytes "http:/_" <+: e true (HTTP_URL_PREFIX ++ s))
    (hv : e true v = lp) (hplain : ¬ bytes "http:/_" <+: lp) : scResCopyUrl v true = v := by
  have hpre : ¬ startsWith v HTTP_URL_PREFIX = true := by
    intro h
    obtain ⟨s, rfl⟩ := (startsWith_iff _ _).mp h
    exact hplain (hv ▸ he s)
  simp only [scResCopyUrl, if_true, if_neg hpre]

/-- Encoding the url that the loader recovers from a path gives that path. And a file that was stored under the
path is loaded as a record with the path: one of the default encoder when the loader knows it for a Youku file,
one of the Sohu encoder when it does not. -/
theorem local_path_restart (u : Bytes) :
    (∀ lp, scResUrlToLocalPathDefault u SC_RES_LOCAL_PATH_MAX_LEN = some lp →
      ¬ sohuFileTag <:+: recoverLoop false lp →
      ∃ v, scResRecoverUrlFromLocalPath lp = some v ∧
        scResUrlToLocalPathDefault v SC_RES_LOCAL_PATH_MAX_LEN = some lp ∧
        ∀ w m ans, Served w → w.youkuCtrlLd = some m → scYkIsLocalPath lp = true →
          ¬ bytes "http:/_" <+: lp → Admits w m (storedFile lp) ans →
          ∃ c, Loaded w (scLdFileProcess w (storedFile lp) ans) m v lp c) ∧
    (∀ lp, scSohuFileUrlToLocalPath u SC_RES_LOCAL_PATH_MAX_LEN = some lp →
      (∃ pre post, recoverLoop false lp = pre ++ post ∧
        strstr (recoverLoop false lp) sohuFileTag = some post ∧ ch '/' ∈ pre) →
      ∃ v, scResRecoverUrlFromLocalPath lp = some v ∧
        scSohuFileUrlToLocalPath v SC_RES_LOCAL_PATH_MAX_LEN = some lp ∧
        ∀ w m ans, Served w → w.sohuCtrlLd = some m → scYkIsLocalPath lp = false →
          scYkIsLocalPathPureVid (storedFile lp) = false → ¬ bytes "http:/_" <+: lp →
          Admits w m (storedFile lp) ans → ∃ c, Loaded w (scLdFileProcess w (storedFile lp) ans) m v lp c) := by
  refine ⟨fun lp hD htag => ?_, fun lp hS htag => ?_⟩
  · obtain ⟨v, hurl, hv⟩ := default_recovered hD htag
    obtain ⟨hlen, hloop⟩ := default_eq_some.mp hv
    refine ⟨v, hurl, hv, fun w m ans hw hm hyk hplain hadm => ?_⟩
    have hsite := hw.coherent.1.ctrl .youku m hm
    have hpermit : scResInfoPermitAdding v = true := by
      simp only [scYkIsLocalPath, Bool.and_eq_true, strstr_isSome] at hyk
      have hname : bytes "youku" <:+: bytes "youku_" := ⟨[], bytes "_", rfl⟩
      have hin := infix_of_defaultLoop (by decide) (hloop ▸ hname.trans hyk.1.1)
      simp [scResInfoPermitAdding, scUrlIsYk, strstr_isSome.mpr hin]
    unfold scLdFileProcess
    rw [if_pos ((isLocalPath_storedFile lp).1.trans hyk), hm]
    refine ldAddFile_loads hw.good (.inl hm) hurl hpermit (hlen.trans (by decide))
      (copyUrl_encoded (fun s => ⟨defaultLoop false s, rfl⟩) hloop hplain) (fun x hx hxu => ?_) hadm
    simp only [scResInfoGenCtntLocalPath, hx, hsite, hxu]
    exact hv
  · obtain ⟨v, hurl, hv⟩ := sohu_recovered hS htag
    obtain ⟨hfile, hlen, hloop⟩ := sohu_eq_some.mp hv
    refine ⟨v, hurl, hv, fun w m ans hw hm hyk hvid hplain hadm => ?_⟩
    have hsite := hw.coherent.1.ctrl .sohu m hm
    have hpermit : scResInfoPermitAdding v = true := by
      simp [scResInfoPermitAdding, scUrlIsSohuFileUrl, strstr_isSome.mpr hfile]
    have hmarked : scSohuIsLocalPath lp = true := strstr_isSome.mpr (sohu_marked hS htag)
    unfold scLdFileProcess
    rw [if_neg (by simp [(isLocalPath_storedFile lp).1, hyk]), if_neg (by simp [hvid]),
      if_pos ((isLocalPath_storedFile lp).2.trans hmarked), hm]
    refine ldAddFile_loads hw.good (.inr hm) hurl hpermit (hlen.trans (by decide))
      (copyUrl_encoded (fun s => ⟨sohuLoop false s, rfl⟩) hloop hplain) (fun x hx hxu => ?_) hadm
    simp only [scResInfoGenCtntLocalPath, hx, hsite, hxu]
    exact hv

end Restart

def fileUrlPath : Bytes := bytes "220_181_61_212/ipad_file=_109_193_XKUNcCADy8eM9ypkrIfhU4.mp4"

/-- The path of the file url in the comment of `sc_sohu.c`, when the client starts. -/
theorem local_path_restart_file_url : ∃ v m c, scResRecoverUrlFromLocalPath fileUrlPath = some v ∧
    scSohuFileUrlToLocalPath v SC_RES_LOCAL_PATH_MAX_LEN = some fileUrlPath ∧
    Loaded (@scLdInit sampleLayout) (@scLdFileProcess sampleLayout (@scLdInit sampleLayout) (storedFile fileUrlPath)
      ⟨true, true⟩) m v fileUrlPath c := by
  have htag : ∃ pre post, recoverLoop false fileUrlPath = pre ++ post ∧
      strstr (recoverLoop false fileUrlPath) sohuFileTag = some post ∧ ch '/' ∈ pre :=
    ⟨bytes "220.181.61.212/", bytes "ipad/file=/109/193/XKUNcCADy8eM9ypkrIfhU4.mp4", by decide +kernel,
      by decide +kernel, by decide +kernel⟩
  obtain ⟨v, hurl, hv, hload⟩ :=
    (@local_path_restart sampleLayout (bytes "220.181.61.212/ipad?file=/109/193/XKUNcCADy8eM9ypkrIfhU4.mp4")).2
      fileUrlPath (by decide +kernel) htag
  have hctrl : (@scLdInit sampleLayout).sohuCtrlLd = some 1022 := by decide +kernel
  have hadm : @Admits sampleLayout (@scLdInit sampleLayout) 1022 (storedFile fileUrlPath) ⟨true, true⟩ :=
    @Admits.mk sampleLayout _ _ _ _ (by decide +kernel) (by decide +kernel) rfl
  obtain ⟨c, hc⟩ := hload (@scLdInit sampleLayout) 1022 ⟨true, true⟩ .refl hctrl (by decide +kernel) (by decide +kernel)
    (by decide +kernel) hadm
  exact ⟨v, 1022, c, hurl, hv, hc⟩

/-- A path that the loader knows for no site's, and a Sohu path that it takes for a Youku path. -/
def unknownPath : Bytes := bytes "1_2_3_4/xyouku.flv"

def mistakenPath : Bytes := bytes "220_181_61_212/ipad_file=_youku_b.mp4"

def mistakenLoaded : World :=
  @scLdFileProcess sampleLayout (@scLdInit sampleLayout) (storedFile mistakenPath) ⟨true, true⟩

/-- The loader makes no record of the first file, and of the second one with another path. -/
theorem stored_paths_not_loaded :
    (scResUrlToLocalPathDefault (bytes "1.2.3.4/xyouku.flv") SC_RES_LOCAL_PATH_MAX_LEN = some unknownPath ∧
      ¬ sohuFileTag <:+: recoverLoop false unknownPath ∧
      ∀ w ans, @scLdFileProcess sampleLayout w (storedFile unknownPath) ans = w) ∧
    scSohuFileUrlToLocalPath (bytes "220.181.61.212/ipad?file=/youku_b.mp4") SC_RES_LOCAL_PATH_MAX_LEN =
      some mistakenPath ∧
    (∃ pre post, recoverLoop false mistakenPath = pre ++ post ∧
      strstr (recoverLoop false mistakenPath) sohuFileTag = some post ∧ ch '/' ∈ pre) ∧
    mistakenLoaded.rl.LiveCtnt 4095 ∧
    ∀ c, mistakenLoaded.rl.LiveCtnt c → (mistakenLoaded.rl.ctnt c).localpath = bytes "220_181_61_212/ipad" := by
  refine ⟨⟨by decide +kernel, by decide +kernel, fun w ans => ?_⟩, by decide +kernel, ?_, by decide +kernel, ?_⟩
  · have hyk : scYkIsLocalPath (storedFile unknownPath) = false := by decide +kernel
    have hvid : scYkIsLocalPathPureVid (storedFile unknownPath) = false := by decide +kernel
    have hsohu : scSohuIsLocalPath (storedFile unknownPath) = false := by decide +kernel
    simp only [scLdFileProcess, hyk, hvid, hsohu, Bool.false_eq_true, if_false]
  · exact ⟨bytes "220.181.61.212/", bytes "ipad/file=/youku/b.mp4", by decide +kernel, by decide +kernel,
      by decide +kernel⟩
  · have hall : (List.finRange SC_RES_INFO_NUM_MAX_CTNT).all (fun c => !decide (mistakenLoaded.rl.LiveCtnt c) ||
        (mistakenLoaded.rl.ctnt c).localpath == bytes "220_181_61_212/ipad") = true := by
      decide +kernel
    intro c hc
    simpa [hc] using List.all_eq_true.mp hall c (List.mem_finRange c)

end HotCache
