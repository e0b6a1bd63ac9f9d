import HotCache.Lib.LexPath
import HotCache.Proofs.LocalPath
import HotCache.Proofs.Receive
import HotCache.Spec.Buffers
import Mathlib.Data.List.TakeWhile

/-! Which files Nginx stores under its root. A local path has at most one `/`, no `.` in front of it, and
behind it a name that ends in one of the endings the getfile module asks for, so lexical normalisation
cannot leave the root. Both encoders run the same loop; the default one on the url without its query. But
Nginx takes the path of the file from behind the first `localpath=` of the arguments, and the url stands in
front of the one that the client adds. -/

namespace HotCache

open CStr Buffer LexPath

section Loops

theorem defaultLoopInto_eq (b : Buf) (q : ℤ) (first : Bool) (url : Bytes) :
    defaultLoopInto b q first url =
      (b.putAll q (defaultLoop first url), q + (defaultLoop first url).length) := by
  induction url generalizing b q first with
  | nil => simp [defaultLoopInto, defaultLoop, Buf.putAll]
  | cons p s ih =>
    rw [defaultLoopInto, defaultLoop]
    split_ifs <;> simp [ih, Buf.putAll, add_assoc, add_comm (1 : ℤ)]

theorem sohuLoopInto_eq (b : Buf) (q : ℤ) (first : Bool) (url : Bytes) :
    sohuLoopInto b q first url = (b.putAll q (sohuLoop first url), q + (sohuLoop first url).length) := by
  induction url generalizing b q first with
  | nil => simp [sohuLoopInto, sohuLoop, Buf.putAll]
  | cons p s ih =>
    rw [sohuLoopInto, sohuLoop]
    split_ifs <;> simp [ih, Buf.putAll, add_assoc, add_comm (1 : ℤ)]

theorem putAll_put_holds (b : Buf) (s : Bytes) : ((b.putAll 0 s).put (0 + s.length) 0).Holds s := by
  have hput : (b.putAll 0 s).put (0 + s.length) 0 = b.putAll 0 (s ++ [0]) := by
    rw [putAll_append]
    rfl
  rw [hput]
  exact putAll_holds b s

theorem defaultLoop_eq_sohuLoop (first : Bool) (url : Bytes) :
    defaultLoop first url = sohuLoop first (url.takeWhile (· ≠ ch '?')) := by
  induction url generalizing first with
  | nil => rfl
  | cons p s ih =>
    rw [defaultLoop_cons]
    split_ifs with hp
    · simp [hp, sohuLoop]
    · simp [hp, sohuLoop_cons, ih]

/-- The bytes that the loop can write, in each mode. -/
theorem sohuByte_ne (first : Bool) (p : UInt8) :
    (if p = ch '?' then ch '_' else encByte first p) ≠ ch '?' ∧
    (first = false → (if p = ch '?' then ch '_' else encByte first p) ≠ ch '/') ∧
    (first = true → (if p = ch '?' then ch '_' else encByte first p) ≠ ch '.') ∧
    (p ≠ 0 → (if p = ch '?' then ch '_' else encByte first p) ≠ 0) := by
  cases first <;> simp only [encByte] <;> split_ifs <;> simp_all +decide

theorem query_notMem_sohuLoop (first : Bool) (url : Bytes) : ch '?' ∉ sohuLoop first url := by
  induction url generalizing first with
  | nil => simp [sohuLoop]
  | cons p s ih =>
    rw [sohuLoop_cons, List.mem_cons, not_or]
    exact ⟨(sohuByte_ne first p).1.symm, ih _⟩

theorem nul_notMem_sohuLoop (first : Bool) {url : Bytes} (hnul : (0 : UInt8) ∉ url) :
    (0 : UInt8) ∉ sohuLoop first url := by
  induction url generalizing first with
  | nil => simp [sohuLoop]
  | cons p s ih =>
    simp only [List.mem_cons, not_or] at hnul
    rw [sohuLoop_cons, List.mem_cons, not_or]
    exact ⟨((sohuByte_ne first p).2.2.2 (Ne.symm hnul.1)).symm, ih _ hnul.2⟩

theorem slash_notMem_sohuLoop (url : Bytes) : ch '/' ∉ sohuLoop false url := by
  induction url with
  | nil => simp [sohuLoop]
  | cons p s ih =>
    rw [sohuLoop_cons, List.mem_cons, not_or]
    exact ⟨((sohuByte_ne false p).2.1 rfl).symm, ih⟩

/-- The first slash of the url stays one, and the loop is in its second mode behind it. -/
theorem sohuLoop_slash (url : Bytes) :
    (sohuLoop true url).count (ch '/') ≤ 1 ∧ ch '.' ∉ (sohuLoop true url).takeWhile (· ≠ ch '/') := by
  induction url with
  | nil => simp [sohuLoop]
  | cons p s ih =>
    rw [sohuLoop_cons]
    by_cases hp : p = ch '/'
    · subst hp
      have hrest : (sohuLoop (nextFirst true (ch '/')) s).count (ch '/') = 0 :=
        List.count_eq_zero.mpr (slash_notMem_sohuLoop s)
      have hbyte : (if ch '/' = ch '?' then ch '_' else encByte true (ch '/')) = ch '/' := by decide
      rw [hbyte, List.count_cons_self, hrest]
      simp
    · have hmode : nextFirst true p = true := by simp [nextFirst, hp]
      have hslash : (if p = ch '?' then ch '_' else encByte true p) ≠ ch '/' := by
        simp only [encByte]
        split_ifs <;> simp_all +decide
      rw [hmode, List.count_cons_of_ne hslash, List.takeWhile_cons_of_pos (by simpa using hslash),
        List.mem_cons, not_or]
      exact ⟨ih.1, ((sohuByte_ne true p).2.2.1 rfl).symm, ih.2⟩

end Loops

section Components

theorem dotless_component {c : Bytes} (h : ch '.' ∉ c) : c ≠ [ch '.'] ∧ c ≠ [ch '.', ch '.'] := by
  constructor
  · rintro rfl
    exact h List.mem_cons_self
  · rintro rfl
    exact h List.mem_cons_self

/-- A path with one slash at most, no dot in front of it and an ending behind it goes down. -/
theorem inside_of_ending {lp : Bytes} (hslash : lp.count (ch '/') ≤ 1)
    (hdot : ch '.' ∉ lp.takeWhile (· ≠ ch '/')) (hends : EndsInType lp) (root : Bytes) :
    StrictlyInside (ch '/') (ch '.') root (root ++ ch '/' :: lp) := by
  obtain ⟨t, ht, hsuffix⟩ := hends
  obtain ⟨hslash', -, hnil, hone, htwo⟩ := supportTypes_spec ht
  by_cases hmem : ch '/' ∈ lp
  · obtain ⟨a, b, rfl, ha⟩ := List.eq_append_cons_of_mem hmem
    have hb : ch '/' ∉ b := by
      rw [List.count_append, List.count_cons_self] at hslash
      exact List.count_eq_zero.mp (by omega)
    have htb := suffix_of_notMem hsuffix hslash'
    have hdot' : ch '.' ∉ a := by
      rwa [List.takeWhile_append_of_pos (ne_of_notMem ha), List.takeWhile_cons_of_neg (by simp),
        List.append_nil] at hdot
    have hsplit : (a ++ ch '/' :: b).splitOn (ch '/') = [a, b] := by
      rw [List.splitOn_append_cons_self_of_not_mem ha, List.splitOn_eq_singleton hb]
    refine strictlyInside_append ?_ ⟨b, by simp [hsplit], ?_⟩
    · intro c hc
      rw [hsplit, List.mem_cons, List.mem_singleton] at hc
      rcases hc with rfl | rfl
      · exact dotless_component hdot'
      · exact ⟨fun h => hone (h ▸ htb), fun h => htwo (h ▸ htb)⟩
    · rintro rfl
      exact hnil htb
  · have hdot' : ch '.' ∉ lp := by
      rwa [List.takeWhile_eq_self_iff.mpr (ne_of_notMem hmem)] at hdot
    have hsplit : lp.splitOn (ch '/') = [lp] := List.splitOn_eq_singleton hmem
    refine strictlyInside_append ?_ ⟨lp, by simp [hsplit], ?_⟩
    · intro c hc
      rw [hsplit, List.mem_singleton] at hc
      subst hc
      exact dotless_component hdot'
    · rintro rfl
      exact hnil hsuffix

theorem IsPrefix.takeWhile {a b : Bytes} (h : a <+: b) (p : UInt8 → Bool) : a.takeWhile p <+: b.takeWhile p := by
  obtain ⟨t, rfl⟩ := h
  rw [List.takeWhile_append]
  split_ifs with hall
  · rw [(List.takeWhile_prefix p).eq_of_length hall]
    exact List.prefix_append _ _
  · exact List.prefix_rfl

end Components

section Requests

/-- A request for `src` under the local path `lp`, in any pieces, that the getfile module has taken. -/
def Taken (src lp : Bytes) (args : NgxStr) (up : GetfileUpstream) : Prop :=
  ∃ ip len req pieces, scNgxBuildGet ip src lp len = some req ∧ pieces.flatten = req ∧
    ngxReceive pieces = some (args, up)

/-- The file that such a request is stored in lies strictly below the root, whatever the root. -/
def FileInside (args : NgxStr) (up : GetfileUpstream) : Prop :=
  ∀ root uri aliasLen, StrictlyInside (ch '/') (ch '.') root (ngxHttpMapUriToPath root uri aliasLen up.getfile args)

/-- What follows the first `localpath=` of the arguments that the client writes. -/
def requestKey (src lp : Bytes) : Bytes := ((strstr (getfileArgs src lp) (bytes "localpath=")).getD []).drop 10

variable {src lp : Bytes} {args : NgxStr} {up : GetfileUpstream}

theorem receive_getfile {pieces : List Bytes} (h : ngxReceive pieces = some (args, up)) : up.getfile = true := by
  obtain ⟨before, hup⟩ : ∃ before, ngxHttpGetfileHandler before args = some up := by
    unfold ngxReceive at h
    split at h
    · split at h
      · split_ifs at h
        obtain ⟨up', hup, heq⟩ := Option.map_eq_some_iff.mp h
        obtain ⟨rfl, rfl⟩ := Prod.mk.inj heq
        exact ⟨_, hup⟩
      · cases h
    · cases h
  unfold ngxHttpGetfileHandler at hup
  split_ifs at hup
  rw [← Option.some.inj hup]

theorem fileInside_iff {key : Bytes} (hfile : up.getfile = true) (hkey : argsLocalpath args = some key) :
    FileInside args up ↔ ∀ root, StrictlyInside (ch '/') (ch '.') root (root ++ ch '/' :: key) := by
  unfold FileInside
  simp only [hfile, mapUriToPath_localpath _ _ _ hkey]
  exact ⟨fun h root => h root [] 0, fun h root _ _ => h root⟩

/-- What is stored under a first part of a path of the client lies below the root. -/
theorem Taken.inside (h : Taken src lp args up) (hkey : ¬ bytes "localpath=" <:+: src)
    (hargs : bytes "localpath=" <:+: args.text) (hslash : lp.count (ch '/') ≤ 1)
    (hdot : ch '.' ∉ lp.takeWhile (· ≠ ch '/')) : FileInside args up := by
  obtain ⟨ip, len, req, pieces, hbuild, hpieces, hreceive⟩ := h
  obtain ⟨s, hs⟩ := Option.isSome_iff_exists.mp (strstr_isSome.mpr hargs)
  obtain ⟨before, htext, ⟨key, rfl⟩, -⟩ := strstr_split hs
  have hbegins : key <+: lp := key_begins hkey (receive_begins hbuild hpieces hreceive) hs
  have hends : EndsInType key := by
    obtain ⟨-, -, line, -, -, -, htype⟩ := receive_some hreceive
    rw [htext] at htype
    exact endsInType_of_supportType htype
  rw [fileInside_iff (receive_getfile hreceive) (argsLocalpath_eq hs)]
  refine inside_of_ending ((hbegins.count_le _).trans hslash) (fun hin => hdot ?_) hends
  exact (IsPrefix.takeWhile hbegins _).subset hin

theorem Taken.text (h : Taken src lp args up) (hsend : Sendable src lp) : args.text = getfileArgs src lp := by
  obtain ⟨ip, len, req, pieces, hbuild, hpieces, hreceive⟩ := h
  exact receive_text hbuild hpieces hsend hreceive

theorem key_infix_getfileArgs (src lp : Bytes) : bytes "localpath=" <:+: getfileArgs src lp :=
  ⟨src ++ [if ch '?' ∈ src then ch '&' else ch '?'], lp, by simp [getfileArgs]⟩

/-- The file of a request that Nginx reads in full is the one that its key names. -/
theorem Taken.descends_iff (h : Taken src lp args up) (hsend : Sendable src lp) :
    FileInside args up ↔ Descends (ch '/') (ch '.') (requestKey src lp) := by
  have hargs := h.text hsend
  obtain ⟨ip, len, req, pieces, hbuild, hpieces, hreceive⟩ := h
  obtain ⟨s, hs⟩ := Option.isSome_iff_exists.mp (strstr_isSome.mpr (key_infix_getfileArgs src lp))
  obtain ⟨before, -, ⟨key, rfl⟩, -⟩ := strstr_split hs
  have hkey : requestKey src lp = key := by
    rw [requestKey, hs, Option.getD_some]
    exact List.drop_left' (by decide)
  rw [fileInside_iff (receive_getfile hreceive) (argsLocalpath_eq (hargs ▸ hs)), hkey]
  exact LexPath.descends_iff (a := ch 'a') (by decide) (by decide)

end Requests

/-- What is said of a local path `lp` that was made of `url`. -/
structure Confined (url lp : Bytes) : Prop where
  string : (0 : UInt8) ∉ lp
  length_le : lp.length ≤ url.length
  query : ch '?' ∉ lp
  slash : lp.count (ch '/') ≤ 1
  dot : ch '.' ∉ lp.takeWhile (· ≠ ch '/')
  inside : EndsInType lp → ∀ root, StrictlyInside (ch '/') (ch '.') root (root ++ ch '/' :: lp)
  plain : ∀ src args up, Taken src lp args up → ¬ bytes "localpath=" <:+: src → bytes "localpath=" <:+: args.text →
    FileInside args up
  stored_iff : ∀ src args up, Taken src lp args up → Sendable src lp →
    (FileInside args up ↔ (bytes "localpath=" <:+: src → Descends (ch '/') (ch '.') (requestKey src lp)))

theorem confined_sohuLoop {url u : Bytes} (hnul : (0 : UInt8) ∉ u) (hlen : u.length ≤ url.length) :
    Confined url (sohuLoop true u) := by
  obtain ⟨hslash, hdot⟩ := sohuLoop_slash u
  refine ⟨nul_notMem_sohuLoop true hnul, by simpa using hlen, query_notMem_sohuLoop true u, hslash, hdot,
    inside_of_ending hslash hdot, ?_, ?_⟩
  · intro src args up htaken hkey hargs
    exact htaken.inside hkey hargs hslash hdot
  · intro src args up htaken hsend
    rw [htaken.descends_iff hsend]
    refine ⟨fun h _ => h, fun h => ?_⟩
    by_cases hkey : bytes "localpath=" <:+: src
    · exact h hkey
    · rw [← htaken.descends_iff hsend]
      refine htaken.inside hkey ?_ hslash hdot
      rw [htaken.text hsend]
      exact key_infix_getfileArgs ..

def climbingUrl : Bytes := bytes "f.youku.com/v/1.flv?localpath=../../../tmp/x.flv"

end HotCache
