import HotCache.Proofs.Loading
import HotCache.Proofs.LocalPath
import HotCache.Spec.Rename

/-! Renaming a pure vid file. The recogniser, the rewriter, the classifier and the url recovery each find
the root, the slash and the vid by a scan of their own; here they are shown to agree on the parts of the
path. -/

namespace HotCache

open CStr Buffer

def stdPath (root dir vid : Bytes) : Bytes := root ++ (dir ++ ch '/' :: (youkuTag ++ vid))

theorem rooted_parts {vidPath dir vid : Bytes}
    (hroot : SC_NGX_ROOT_PATH <+: vidPath ∨ ¬ SC_NGX_ROOT_PATH <:+: vidPath)
    (huri : uriStart vidPath = dir ++ ch '/' :: vid) :
    (strstr vidPath SC_NGX_ROOT_PATH).isSome = true ∧ vidPath = SC_NGX_ROOT_PATH ++ (dir ++ ch '/' :: vid) ∨
    (strstr vidPath SC_NGX_ROOT_PATH).isSome = false ∧ vidPath = [] ++ (dir ++ ch '/' :: vid) ∧
      ¬ SC_NGX_ROOT_PATH <:+: vidPath := by
  have hlen : SC_NGX_ROOT_PATH.length = SC_NGX_ROOT_PATH_LEN := by decide
  unfold uriStart at huri
  rcases hroot with hroot | hroot
  · have hsome := strstr_isSome.mpr hroot.isInfix
    obtain ⟨uri, rfl⟩ := hroot
    rw [if_pos hsome, List.drop_left' hlen] at huri
    exact .inl ⟨hsome, by rw [huri]⟩
  · have hnone : (strstr vidPath SC_NGX_ROOT_PATH).isSome = false := by
      rw [Bool.eq_false_iff]
      exact fun h => hroot (strstr_isSome.mp h)
    rw [if_neg (by simp [hnone])] at huri
    exact .inr ⟨hnone, huri, hroot⟩

section Fill

variable {vidPath root dir vid : Bytes} {pathLen : ℕ} {content : ℤ → UInt8}

theorem strcat_zeroed {t : Bytes} (hzero : ∀ k : ℕ, k < pathLen → content k = 0) (hlen : t.length < pathLen) :
    ((⟨content, []⟩ : Buf).strcat pathLen t).read t.length = t ∧
    ∀ k : ℕ, t.length ≤ k → k < pathLen → ((⟨content, []⟩ : Buf).strcat pathLen t).byte k = 0 := by
  have hempty : (⟨content, []⟩ : Buf).Holds [] := ⟨fun k hk => absurd hk (by simp), hzero 0 (by omega)⟩
  have hstart : (⟨content, []⟩ : Buf).strlen pathLen = 0 := hempty.strlen List.not_mem_nil (by simp; omega)
  obtain ⟨hread, hend⟩ := holds_iff_read.mp (putAll_holds ⟨content, []⟩ t)
  rw [Buf.strcat, hstart]
  refine ⟨hread, fun k hk hk' => ?_⟩
  rcases Nat.eq_or_lt_of_le hk with rfl | hlt
  · exact hend
  · rw [putAll_outside (.inr (by simp; omega))]
    exact hzero k hk'

/-- The directory is copied behind the root without a terminator; the buffer has one there. -/
theorem copied_holds {b : Buf} (hread : b.read root.length = root)
    (hzero : ∀ k : ℕ, root.length ≤ k → k < pathLen → b.byte k = 0)
    (hlen : root.length + (dir.length + 1) < pathLen) {uri : Bytes} (huri : uri = dir ++ ch '/' :: vid)
    (hdir : ch '/' ∉ dir) :
    (b.strncpy root.length uri (uri.length - vid.length)).Holds (root ++ (dir ++ [ch '/'])) := by
  have htake := (vid_parts huri hdir).2
  have hpad : uri.length - vid.length - uri.length = 0 := by omega
  rw [Buf.strncpy, htake, hpad, List.replicate_zero, List.append_nil]
  apply putAll_read_holds hread
  have hend := hzero (root.length + (dir.length + 1)) (by omega) hlen
  simpa using hend

/-- The parts of the new name, one behind the other. -/
theorem transInto_holds (hnul : (0 : UInt8) ∉ vidPath) (hpure : scYkIsLocalPathPureVid vidPath = true)
    (hlen : vidPath.length + 33 < pathLen) (hzero : ∀ k : ℕ, k < pathLen → content k = 0)
    (hdir : ch '/' ∉ dir) (huri : uriStart vidPath = dir ++ ch '/' :: vid)
    (hpath : vidPath = root ++ (dir ++ ch '/' :: vid))
    (hroot : (strstr vidPath SC_NGX_ROOT_PATH).isSome = true ∧ root = SC_NGX_ROOT_PATH ∨
      (strstr vidPath SC_NGX_ROOT_PATH).isSome = false ∧ root = []) :
    (scYkTransVidToStdPathInto vidPath ⟨content, []⟩ pathLen).1 = 0 ∧
    (scYkTransVidToStdPathInto vidPath ⟨content, []⟩ pathLen).2.Holds (stdPath root dir vid) := by
  have hvid := (vid_parts huri hdir).1
  have htag : youkuTag.length = 33 := by decide
  have hpathLen : vidPath.length = root.length + (dir.length + (vid.length + 1)) := by
    rw [hpath]
    simp
  have hnul' : (0 : UInt8) ∉ root ++ (dir ++ [ch '/']) ∧ (0 : UInt8) ∉ youkuTag := by
    refine ⟨fun h => hnul ?_, by decide⟩
    rw [hpath]
    simp only [List.mem_append, List.mem_cons] at h ⊢
    tauto
  -- the buffer in front of the copy: the root, and zeros behind it
  obtain ⟨b, hb, hread, hrest⟩ : ∃ b : Buf, (if (strstr vidPath SC_NGX_ROOT_PATH).isSome then
        (⟨content, []⟩ : Buf).strcat pathLen SC_NGX_ROOT_PATH else ⟨content, []⟩) = b ∧
      b.read root.length = root ∧ ∀ k : ℕ, root.length ≤ k → k < pathLen → b.byte k = 0 := by
    rcases hroot with ⟨hsome, rfl⟩ | ⟨hnone, rfl⟩
    · exact ⟨_, if_pos hsome, strcat_zeroed hzero (by omega)⟩
    · exact ⟨_, if_neg (by simp [hnone]), rfl, fun k _ hk => hzero k hk⟩
  have hp : (if (strstr vidPath SC_NGX_ROOT_PATH).isSome then SC_NGX_ROOT_PATH_LEN else 0) = root.length := by
    rcases hroot with ⟨hsome, rfl⟩ | ⟨hnone, rfl⟩
    · rw [if_pos hsome]
      decide
    · simp [hnone]
  unfold scYkTransVidToStdPathInto
  rw [if_neg (by simp [hpure]), if_neg (by omega)]
  refine ⟨rfl, ?_⟩
  simp only [hb, hp, hvid]
  have hcopied := copied_holds hread hrest (by omega) huri hdir
  have htagged := hcopied.strcat (t := youkuTag) (n := pathLen) hnul'.1 (by simp; omega)
  have hwhole := htagged.strcat (t := vid) (n := pathLen)
    (by simp only [List.mem_append, not_or] at hnul' ⊢; tauto) (by simp; omega)
  simpa [stdPath] using hwhole

end Fill

section Recover

theorem recoverLoop_true_append (x y : Bytes) :
    recoverLoop true (x ++ y) = recoverLoop true x ++ recoverLoop true y := by
  induction x with
  | nil => rfl
  | cons p x ih =>
    simp only [List.cons_append, recoverLoop]
    split_ifs <;> simp [ih]

/-- The directory has no slash, so the decoder stays in its first mode. -/
theorem recoverLoop_dir {dir : Bytes} (hdir : ch '/' ∉ dir) (y : Bytes) :
    recoverLoop false (dir ++ y) = recoverLoop false dir ++ recoverLoop false y ∧
      ch '/' ∉ recoverLoop false dir := by
  induction dir with
  | nil => exact ⟨rfl, List.not_mem_nil⟩
  | cons p dir ih =>
    simp only [List.mem_cons, not_or] at hdir
    obtain ⟨happend, hslash⟩ := ih hdir.2
    have hstep : ∀ t, recoverLoop false (p :: t) = decByte true p :: recoverLoop false t := by
      intro t
      have hmode : nextFirst true p = true := by simp [nextFirst, Ne.symm hdir.1]
      have hcons := recoverLoop_cons true p t
      rwa [hmode] at hcons
    have hbyte : ch '/' ≠ decByte true p := by
      unfold decByte
      split_ifs with _ hfirst
      · decide
      · exact absurd rfl hfirst
      · exact hdir.1
    rw [List.cons_append, hstep, hstep, happend, List.mem_cons, not_or]
    exact ⟨rfl, hbyte, hslash⟩

theorem recoverLoop_true_eq_self {v : Bytes} (hv : ch '_' ∉ v) : recoverLoop true v = v := by
  induction v with
  | nil => rfl
  | cons p v ih =>
    simp only [List.mem_cons, not_or] at hv
    simp only [recoverLoop, if_neg (Ne.symm hv.1), ih hv.2]
    split_ifs with hp
    · rw [hp]
    · rfl

def recoveredTag : Bytes := bytes "/youku/67731242A093F822806A633329/"

theorem recoverLoop_std {dir vid : Bytes} (hdir : ch '/' ∉ dir) (hvid : ch '_' ∉ vid) :
    recoverLoop false (dir ++ ch '/' :: (youkuTag ++ vid)) = recoverLoop false dir ++ (recoveredTag ++ vid) := by
  have htag : ch '/' :: recoverLoop true youkuTag = recoveredTag := by decide +kernel
  rw [(recoverLoop_dir hdir _).1, recoverLoop, if_pos rfl, recoverLoop_true_append, recoverLoop_true_eq_self hvid,
    ← htag]
  rfl

theorem recoveredTag_slash : ∀ m < 34, recoveredTag[m]? = some (ch '/') → m = 0 ∨ m = 6 ∨ m = 33 := by
  decide +kernel

/-- The slashes of a recovered url are those around the two parts of the tag, so `ipad/file=/` is not in
it. -/
theorem sohuFileTag_absent {d vid : Bytes} (hd : ch '/' ∉ d) (hvid : ch '/' ∉ vid) :
    ¬ sohuFileTag <:+: d ++ (recoveredTag ++ vid) := by
  have hlen : recoveredTag.length = 34 := by decide
  have hbehind : ∀ m, 34 ≤ m → (recoveredTag ++ vid)[m]? ≠ some (ch '/') := by
    intro m hm h
    rw [List.getElem?_append_right (by omega)] at h
    exact hvid (List.mem_of_getElem? h)
  rintro ⟨x, y, hxy⟩
  have hat : ∀ j < 11, (d ++ (recoveredTag ++ vid))[x.length + j]? = sohuFileTag[j]? := by
    intro j hj
    rw [← hxy, List.append_assoc, List.getElem?_append_right (by omega), Nat.add_sub_cancel_left,
      List.getElem?_append_left (show j < 11 from hj)]
  have hslash := hat 4 (by omega)
  have hletter := hat 5 (by omega)
  have hlast := hat 10 (by omega)
  rcases Nat.lt_or_ge (x.length + 4) d.length with hlt | hge
  · rw [List.getElem?_append_left hlt] at hslash
    exact hd (List.mem_of_getElem? hslash)
  · obtain ⟨m, hm⟩ := Nat.exists_eq_add_of_le hge
    rw [hm, List.getElem?_append_right (by omega), Nat.add_sub_cancel_left] at hslash
    rw [show x.length + 5 = d.length + (m + 1) by omega, List.getElem?_append_right (by omega),
      Nat.add_sub_cancel_left] at hletter
    rw [show x.length + 10 = d.length + (m + 6) by omega, List.getElem?_append_right (by omega),
      Nat.add_sub_cancel_left] at hlast
    rcases Nat.lt_or_ge m 34 with hm34 | hm34
    · rw [List.getElem?_append_left (by omega)] at hslash
      rcases recoveredTag_slash m hm34 hslash with rfl | rfl | rfl
      · rw [List.getElem?_append_left (by omega)] at hletter
        exact absurd hletter (by decide +kernel)
      · rw [List.getElem?_append_left (by omega)] at hletter
        exact absurd hletter (by decide +kernel)
      · exact hbehind 39 (by omega) hlast
    · exact hbehind m hm34 hslash

/-- The root-stripped path is recovered to a url that ends in the tag and the vid. -/
def Recovers (std vid : Bytes) : Prop :=
  ∃ url, scResRecoverUrlFromLocalPath (stripRoot std) = some url ∧ recoveredTag ++ vid <:+ url

theorem recovers_std {dir vid : Bytes} (hdir : ch '/' ∉ dir) (hslash : ch '/' ∉ vid) (hvid : ch '_' ∉ vid)
    {std : Bytes} (hstrip : stripRoot std = dir ++ ch '/' :: (youkuTag ++ vid))
    (hlen : (stripRoot std).length < HTTP_URL_MAX_LEN) : Recovers std vid := by
  unfold Recovers scResRecoverUrlFromLocalPath
  rw [if_neg (by omega), hstrip, recoverLoop_std hdir hvid,
    fixSohuTag_of_absent (sohuFileTag_absent (recoverLoop_dir hdir []).2 hslash)]
  exact ⟨_, rfl, List.suffix_append _ _⟩

end Recover

/-- The rename of a pure vid path, whose parts are the optional root, the directory and the vid. -/
structure Renamed (vidPath : Bytes) (content : ℤ → UInt8) (pathLen : ℕ) (root dir vid : Bytes) : Prop where
  rooted : root = SC_NGX_ROOT_PATH ∨ root = [] ∧ ¬ SC_NGX_ROOT_PATH <:+: vidPath
  parts : vidPath = root ++ (dir ++ ch '/' :: vid)
  vid_length : vid.length = 70
  returns : (scYkTransVidToStdPathInto vidPath ⟨content, []⟩ pathLen).1 = 0
  holds : (scYkTransVidToStdPathInto vidPath ⟨content, []⟩ pathLen).2.Holds (stdPath root dir vid)
  fits : (stdPath root dir vid).length < pathLen
  notPure : scYkIsLocalPathPureVid (stdPath root dir vid) = false
  youku : ¬ bytes "valf" <:+: stdPath root dir vid → ¬ bytes "ad_api_" <:+: stdPath root dir vid →
    scYkIsLocalPath (stdPath root dir vid) = true

section Parts

variable {vidPath root dir vid : Bytes}

theorem stdPath_length (hpath : vidPath = root ++ (dir ++ ch '/' :: vid)) :
    (stdPath root dir vid).length = vidPath.length + 33 := by
  have htag : youkuTag.length = 33 := by decide
  rw [hpath, stdPath]
  simp only [List.length_append, List.length_cons, htag]
  omega

/-- The rewriter of the first model, on the parts. -/
theorem trans_parts {pathLen : ℕ} (hpure : scYkIsLocalPathPureVid vidPath = true)
    (hlen : vidPath.length + 33 < pathLen) (hdir : ch '/' ∉ dir)
    (huri : uriStart vidPath = dir ++ ch '/' :: vid)
    (hroot : (strstr vidPath SC_NGX_ROOT_PATH).isSome = true ∧ root = SC_NGX_ROOT_PATH ∨
      (strstr vidPath SC_NGX_ROOT_PATH).isSome = false ∧ root = []) :
    scYkTransVidToStdPath vidPath pathLen = some (stdPath root dir vid) := by
  obtain ⟨hvid, htake⟩ := vid_parts huri hdir
  have htag : youkuTag.length = 33 := by decide
  have hprefix : (if (strstr vidPath SC_NGX_ROOT_PATH).isSome then SC_NGX_ROOT_PATH else []) = root := by
    rcases hroot with ⟨hsome, rfl⟩ | ⟨hnone, rfl⟩
    · exact if_pos hsome
    · exact if_neg (by simp [hnone])
  unfold scYkTransVidToStdPath
  rw [if_neg (by simp [hpure]), if_neg (by omega)]
  simp only [hvid, htake, hprefix, stdPath]
  simp

theorem stripRoot_std (hdir : ch '/' ∉ dir) (hslash : ch '/' ∉ vid)
    (hroot : root = SC_NGX_ROOT_PATH ∨ root = []) :
    stripRoot (stdPath root dir vid) = dir ++ ch '/' :: (youkuTag ++ vid) := by
  have hlen : SC_NGX_ROOT_PATH.length = SC_NGX_ROOT_PATH_LEN := by decide
  have htail : ch '/' ∉ youkuTag ++ vid := by
    rw [List.mem_append, not_or]
    exact ⟨by decide, hslash⟩
  unfold stripRoot stdPath
  rcases hroot with rfl | rfl
  · rw [if_pos ((startsWith_iff _ _).mpr (List.prefix_append _ _)), List.drop_left' hlen]
  · rw [List.nil_append, if_neg]
    intro h
    exact root_absent hdir htail ((startsWith_iff _ _).mp h).isInfix

theorem youkuTag_classified (habsent : ¬ bytes "valf" <:+: stdPath root dir vid)
    (habsent' : ¬ bytes "ad_api_" <:+: stdPath root dir vid) : scYkIsLocalPath (stdPath root dir vid) = true := by
  have hyouku : bytes "youku_" <:+: stdPath root dir vid := by
    have htag : bytes "youku_" <:+: youkuTag := ⟨[], bytes "67731242A093F822806A633329_", by decide +kernel⟩
    refine htag.trans ⟨root ++ (dir ++ [ch '/']), vid, ?_⟩
    simp [stdPath]
  unfold scYkIsLocalPath
  rw [strstr_isSome.mpr hyouku, strstr_eq_none.mpr habsent, strstr_eq_none.mpr habsent']
  rfl

end Parts

/-- Every pure vid path gets its standard name, and the url is recovered from a name that is short enough
for a url. -/
theorem vid_renamed (vidPath : Bytes) (content : ℤ → UInt8) (pathLen : ℕ) (hnul : (0 : UInt8) ∉ vidPath)
    (hroot : SC_NGX_ROOT_PATH <+: vidPath ∨ ¬ SC_NGX_ROOT_PATH <:+: vidPath)
    (hpure : scYkIsLocalPathPureVid vidPath = true) (hlen : vidPath.length + 33 < pathLen)
    (hzero : ∀ k : ℕ, k < pathLen → content k = 0) :
    ∃ root dir vid, Renamed vidPath content pathLen root dir vid ∧
      (ch '_' ∉ vid → (stripRoot (stdPath root dir vid)).length < HTTP_URL_MAX_LEN →
        Recovers (stdPath root dir vid) vid) := by
  obtain ⟨dir, vid, huri, hdir, hslash, h70⟩ := pureVid_split hpure
  obtain ⟨root, hpath, hfound, hrooted⟩ : ∃ root, vidPath = root ++ (dir ++ ch '/' :: vid) ∧
      ((strstr vidPath SC_NGX_ROOT_PATH).isSome = true ∧ root = SC_NGX_ROOT_PATH ∨
        (strstr vidPath SC_NGX_ROOT_PATH).isSome = false ∧ root = []) ∧
      (root = SC_NGX_ROOT_PATH ∨ root = [] ∧ ¬ SC_NGX_ROOT_PATH <:+: vidPath) := by
    rcases rooted_parts hroot huri with ⟨hsome, hpath⟩ | ⟨hnone, hpath, habsent⟩
    · exact ⟨_, hpath, .inl ⟨hsome, rfl⟩, .inl rfl⟩
    · exact ⟨_, hpath, .inr ⟨hnone, rfl⟩, .inr ⟨rfl, habsent⟩⟩
  obtain ⟨hreturns, hholds⟩ := transInto_holds hnul hpure hlen hzero hdir huri hpath hfound
  refine ⟨root, dir, vid, ⟨hrooted, hpath, h70, hreturns, hholds, ?_, ?_, youkuTag_classified⟩, ?_⟩
  · rw [stdPath_length hpath]
    exact hlen
  · exact trans_not_pureVid (trans_parts hpure hlen hdir huri hfound)
  · intro hvid hshort
    exact recovers_std hdir hslash hvid (stripRoot_std hdir hslash (hrooted.imp_right And.left)) hshort

theorem vid_renamed_sample :
    ∃ root dir vid, Renamed pureVidFile (fun _ => 0) SC_RES_LOCAL_PATH_MAX_LEN root dir vid ∧
      (ch '_' ∉ vid → (stripRoot (stdPath root dir vid)).length < HTTP_URL_MAX_LEN →
        Recovers (stdPath root dir vid) vid) :=
  vid_renamed pureVidFile (fun _ => 0) SC_RES_LOCAL_PATH_MAX_LEN (by decide +kernel)
    (.inl ⟨bytes "1_1_1_1/" ++ List.replicate 70 (ch 'x'), by decide +kernel⟩) (by decide +kernel)
    (by decide +kernel) (fun _ _ => rfl)

def longVidFile : Bytes := List.replicate 600 (ch 'a') ++ ch '/' :: List.replicate 70 (ch 'x')

theorem notMem_longVidFile {c : UInt8} (ha : c ≠ ch 'a') (hx : c ≠ ch 'x') (hs : c ≠ ch '/') :
    c ∉ longVidFile := by
  simp only [longVidFile, List.mem_append, List.mem_cons, List.mem_replicate]
  tauto

theorem recover_long {std : Bytes} (h : HTTP_URL_MAX_LEN + SC_NGX_ROOT_PATH_LEN ≤ std.length) (vid : Bytes) :
    ¬ Recovers std vid := by
  have hlong : HTTP_URL_MAX_LEN ≤ (stripRoot std).length := by
    unfold stripRoot
    split_ifs
    · rw [List.length_drop]
      omega
    · omega
  rintro ⟨url, hurl, -⟩
  rw [scResRecoverUrlFromLocalPath, if_pos hlong] at hurl
  cases hurl

theorem vid_not_recovered :
    (0 : UInt8) ∉ longVidFile ∧ ¬ SC_NGX_ROOT_PATH <:+: longVidFile ∧
    scYkIsLocalPathPureVid longVidFile = true ∧ longVidFile.length + 33 < 1000 ∧
    ¬ ∃ root dir vid, Renamed longVidFile (fun _ => 0) 1000 root dir vid ∧
      (ch '_' ∉ vid → ¬ bytes "ipad_file=_" <:+: stdPath root dir vid → Recovers (stdPath root dir vid) vid) := by
  refine ⟨notMem_longVidFile (by decide) (by decide) (by decide), ?_, by decide +kernel, by decide +kernel, ?_⟩
  · exact root_absent (fun h => absurd (List.eq_of_mem_replicate h) (by decide))
      (fun h => absurd (List.eq_of_mem_replicate h) (by decide))
  · rintro ⟨root, dir, vid, hrenamed, hrecovers⟩
    have hmem : ∀ c, c ∉ longVidFile → c ∉ root ∧ c ∉ dir ∧ c ∉ vid := by
      intro c hc
      rw [hrenamed.parts] at hc
      simp only [List.mem_append, List.mem_cons, not_or] at hc
      tauto
    refine recover_long ?_ vid (hrecovers ?_ ?_)
    · rw [stdPath_length hrenamed.parts]
      decide +kernel
    · exact (hmem _ (notMem_longVidFile (by decide) (by decide) (by decide))).2.2
    · intro htag
      obtain ⟨hr, hd, hv⟩ := hmem (ch '=') (notMem_longVidFile (by decide) (by decide) (by decide))
      have hmem' : ch '=' ∈ stdPath root dir vid := htag.subset (by decide)
      have hyouku : ch '=' ∉ youkuTag := by decide
      have hslash : ch '=' ≠ ch '/' := by decide
      simp only [stdPath, List.mem_append, List.mem_cons] at hmem'
      tauto

end HotCache
