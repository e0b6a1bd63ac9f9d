import HotCache.Proofs.Client

/-! The segments of a Sohu playlist. One call of `sohu_parse_m3u8_response` takes the url out of one
group and leaves the cursor at the tag that ends it; the next call starts there and finds nothing
before the url of the next group. -/

namespace HotCache

open CStr

def discontinuity : Bytes := bytes "#EXT-X-DISCONTINUITY"

section Cursor

variable {curr next fileUrl : Bytes}

theorem parseM3u8_progress (h : sohuParseM3u8Response curr = (some next, fileUrl)) :
    next <:+ curr ∧ next.length < curr.length := by
  unfold sohuParseM3u8Response at h
  cases hs : strstr curr HTTP_URL_PREFIX with
  | none =>
    rw [hs] at h
    cases h
  | some p =>
    rw [hs] at h
    simp only at h
    cases hf : strstr (p.drop HTTP_URL_PRE_LEN) (bytes "file=") with
    | none =>
      rw [hf] at h
      cases h
    | some q =>
      rw [hf] at h
      simp only at h
      have htag := strstr_suffix (Prod.mk.inj h).1
      have hdrop : p.drop HTTP_URL_PRE_LEN <:+ p := List.drop_suffix _ _
      refine ⟨htag.trans (hdrop.trans (strstr_suffix hs)), ?_⟩
      have h1 := htag.length_le
      have h2 := (strstr_starts hs).length_le
      have h3 := (strstr_suffix hs).length_le
      rw [show HTTP_URL_PREFIX.length = 7 by decide] at h2
      rw [List.length_drop, HTTP_URL_PRE_LEN] at h1
      omega

/-- Each round moves the cursor, so as much fuel as there is text gives the result. -/
theorem m3u8Loop_ends (n : ℕ) (hn : curr.length ≤ n) :
    ∃ urls, ∀ fuel, n < fuel → sohuM3u8Loop fuel (some curr) = some urls := by
  induction n generalizing curr with
  | zero =>
    obtain rfl := List.length_eq_zero_iff.mp (Nat.le_zero.mp hn)
    refine ⟨[[]], fun fuel hfuel => ?_⟩
    obtain ⟨fuel, rfl⟩ := Nat.exists_eq_add_one.mpr hfuel
    have hp : sohuParseM3u8Response [] = (none, []) := by decide
    rw [sohuM3u8Loop, hp, sohuM3u8Loop]
    rfl
  | succ n ih =>
    cases hp : sohuParseM3u8Response curr with
    | mk next fileUrl =>
      have hrest : ∃ urls, ∀ fuel, n < fuel → sohuM3u8Loop fuel next = some urls := by
        cases next with
        | none => exact ⟨[], fun fuel _ => by rw [sohuM3u8Loop]⟩
        | some next =>
          have := (parseM3u8_progress hp).2
          exact ih (by omega)
      obtain ⟨urls, hurls⟩ := hrest
      refine ⟨fileUrl :: urls, fun fuel hfuel => ?_⟩
      obtain ⟨fuel, rfl⟩ := Nat.exists_eq_add_one.mpr (Nat.zero_lt_of_lt hfuel)
      rw [sohuM3u8Loop, hp]
      simp only [hurls fuel (by omega), Option.map_some]

/-- The list of urls that the client works through is the one of the loop. -/
theorem m3u8Loop_fileUrls (fuel : ℕ) (h : curr.length < fuel) :
    sohuM3u8Loop fuel (some curr) = some (sohuFileUrls fuel curr) := by
  induction fuel generalizing curr with
  | zero => omega
  | succ fuel ih =>
    rw [sohuM3u8Loop, sohuFileUrls]
    cases hp : sohuParseM3u8Response curr with
    | mk next fileUrl =>
      cases next with
      | none => simp [sohuM3u8Loop]
      | some next =>
        have := (parseM3u8_progress hp).2
        simp only [ih (by omega : next.length < fuel), Option.map_some]

end Cursor

section Groups

/-- One group of a playlist, up to the tag that ends it. -/
structure M3u8Group where
  pre : Bytes
  a : Bytes
  b : Bytes
  rest : Bytes
  pre_http : ¬ HTTP_URL_PREFIX <:+: pre
  pre_tag : ¬ discontinuity <:+: pre
  file_last : ∀ k, OccursAt (a ++ bytes "file=") (bytes "file=") k → k = a.length
  b_line : ch '&' ∉ b
  url_tag : ¬ discontinuity <:+: a ++ bytes "file=" ++ b
  rest_tag : ¬ discontinuity <:+: rest
  short : (a ++ bytes "file=" ++ b).length < HTTP_URL_MAX_LEN

def M3u8Group.url (g : M3u8Group) : Bytes := g.a ++ bytes "file=" ++ g.b

def M3u8Group.text (g : M3u8Group) : Bytes := g.pre ++ (HTTP_URL_PREFIX ++ (g.url ++ ch '&' :: g.rest))

variable (g : M3u8Group)

theorem group_noTag : ¬ discontinuity <:+: g.url ++ ch '&' :: g.rest :=
  not_infix_separated (by decide) g.url_tag g.rest_tag

theorem group_url_ne : g.url ≠ [] := by
  simp [M3u8Group.url, bytes]

theorem group_file (tail : Bytes) : strstr (g.url ++ ch '&' :: tail) (bytes "file=") =
    some (bytes "file=" ++ (g.b ++ ch '&' :: tail)) := by
  rw [M3u8Group.url, List.append_assoc, List.append_assoc]
  refine strstr_unbordered (by decide) fun hin => ?_
  obtain ⟨p, q, hpq⟩ := hin
  have hocc : OccursAt (g.a ++ bytes "file=") (bytes "file=") p.length := by
    rw [OccursAt, ← hpq]
    simp only [List.append_assoc, List.drop_left]
    exact List.prefix_append _ _
  have hlen := congrArg List.length hpq
  have hp := g.file_last _ hocc
  simp only [List.length_append, show (bytes "file=").length = 5 by decide] at hlen
  omega

/-- The call finds the url of the group, and the tag that ends it. `lead` is the tag that the cursor
stands at. -/
theorem parse_group {lead : Bytes} (hlead : lead = [] ∨ lead = discontinuity) (tail : Bytes) :
    sohuParseM3u8Response (lead ++ (g.text ++ tail)) =
      (strstr (g.url ++ ch '&' :: (g.rest ++ tail)) discontinuity, g.url) := by
  have hpre : ¬ HTTP_URL_PREFIX <:+: lead ++ g.pre := by
    rcases hlead with rfl | rfl
    · exact g.pre_http
    · rw [infix_append_of_clash (by decide)]
      exact g.pre_http
  have hcurr : strstr (lead ++ (g.text ++ tail)) HTTP_URL_PREFIX =
      some (HTTP_URL_PREFIX ++ (g.url ++ ch '&' :: (g.rest ++ tail))) := by
    have heq : lead ++ (g.text ++ tail) =
        (lead ++ g.pre) ++ (HTTP_URL_PREFIX ++ (g.url ++ ch '&' :: (g.rest ++ tail))) := by
      simp [M3u8Group.text]
    rw [heq]
    exact strstr_unbordered (by decide) hpre
  have hdrop : (HTTP_URL_PREFIX ++ (g.url ++ ch '&' :: (g.rest ++ tail))).drop HTTP_URL_PRE_LEN =
      g.url ++ ch '&' :: (g.rest ++ tail) := List.drop_left' (by decide)
  have hstop : (bytes "file=" ++ (g.b ++ ch '&' :: (g.rest ++ tail))).dropWhile (· ≠ ch '&') =
      ch '&' :: (g.rest ++ tail) := by
    have hb : ch '&' ∉ bytes "file=" ++ g.b := by
      simp only [List.mem_append, not_or]
      exact ⟨by decide, g.b_line⟩
    rw [← List.append_assoc, List.dropWhile_append_of_pos (ne_of_notMem hb)]
    simp
  have hlen : (g.url ++ ch '&' :: (g.rest ++ tail)).length - (ch '&' :: (g.rest ++ tail)).length = g.url.length := by
    simp
  unfold sohuParseM3u8Response
  rw [hcurr]
  simp only [hdrop, group_file, hstop, hlen]
  have hshort : ¬ HTTP_URL_MAX_LEN ≤ g.url.length := not_le.mpr g.short
  rw [if_neg hshort, List.take_left]
  rfl

theorem group_ended (more : Bytes) :
    strstr (g.url ++ ch '&' :: (g.rest ++ (discontinuity ++ more))) discontinuity =
    some (discontinuity ++ more) := by
  have heq : g.url ++ ch '&' :: (g.rest ++ (discontinuity ++ more)) =
      (g.url ++ ch '&' :: g.rest) ++ (discontinuity ++ more) := by simp
  rw [heq]
  exact strstr_unbordered (by decide) (group_noTag g)

/-- The groups of a playlist; only the last one may lack its tag. -/
def playlistText (gs : List M3u8Group) (last : M3u8Group) (tagged : Bool) : Bytes :=
  gs.flatMap (fun g => g.text ++ discontinuity) ++ (last.text ++ if tagged then discontinuity else [])

/-- The loop from the start of a group on, or from the tag before it. The invariant is the position of
the cursor: what has been read ends in `lead`. -/
theorem m3u8Loop_groups (gs : List M3u8Group) (last : M3u8Group) (tagged : Bool) {lead : Bytes}
    (hlead : lead = [] ∨ lead = discontinuity) {fuel : ℕ}
    (hfuel : (lead ++ playlistText gs last tagged).length < fuel) :
    sohuM3u8Loop fuel (some (lead ++ playlistText gs last tagged)) =
      some (gs.map M3u8Group.url ++ last.url :: if tagged then [[]] else []) := by
  obtain ⟨fuel, rfl⟩ := Nat.exists_eq_add_one.mpr (Nat.zero_lt_of_lt hfuel)
  induction gs generalizing lead fuel with
  | nil =>
    rw [playlistText, List.flatMap_nil, List.nil_append] at hfuel ⊢
    rw [sohuM3u8Loop, parse_group last hlead]
    cases tagged with
    | false =>
      have hnone : strstr (last.url ++ ch '&' :: (last.rest ++ [])) discontinuity = none := by
        rw [List.append_nil]
        exact strstr_eq_none.mpr (group_noTag last)
      simp only [Bool.false_eq_true, if_false, hnone, sohuM3u8Loop, Option.map_some, List.map_nil, List.nil_append]
    | true =>
      have hsome := group_ended last []
      rw [List.append_nil] at hsome
      have hend : sohuParseM3u8Response discontinuity = (none, []) := by decide
      have hpos : 0 < fuel := by
        simp only [if_true, List.length_append, show discontinuity.length = 20 by decide] at hfuel
        omega
      obtain ⟨fuel, rfl⟩ := Nat.exists_eq_add_one.mpr hpos
      simp only [if_true, hsome, sohuM3u8Loop, hend, Option.map_some, List.map_nil, List.nil_append]
  | cons g gs ih =>
    have heq : lead ++ playlistText (g :: gs) last tagged =
        lead ++ (g.text ++ (discontinuity ++ playlistText gs last tagged)) := by
      simp [playlistText]
    rw [heq] at hfuel ⊢
    have hpos : 0 < g.text.length := by simp [M3u8Group.text]
    simp only [List.length_append] at hfuel
    obtain ⟨fuel, rfl⟩ := Nat.exists_eq_add_one.mpr (by omega : 0 < fuel)
    rw [sohuM3u8Loop, parse_group g hlead, group_ended]
    simp only
    rw [ih (.inr rfl) fuel (by simp only [List.length_append]; omega)]
    simp

theorem urls_filter (gs : List M3u8Group) (last : M3u8Group) (tagged : Bool) :
    (gs.map M3u8Group.url ++ last.url :: if tagged then [[]] else []).filter (· ≠ []) =
      (gs ++ [last]).map M3u8Group.url := by
  have hgs : (gs.map M3u8Group.url).filter (· ≠ []) = gs.map M3u8Group.url := by
    refine List.filter_eq_self.mpr fun u hu => ?_
    obtain ⟨g, -, rfl⟩ := List.mem_map.mp hu
    simpa using group_url_ne g
  rw [List.filter_append, hgs, List.filter_cons_of_pos (by simpa using group_url_ne last)]
  cases tagged with
  | false => simp
  | true => simp

section Calls

def addedUrls (log : List Ev) : List Bytes :=
  log.filterMap fun
    | .addCtnt x => some x.url
    | _ => none

theorem addedUrls_append (l l' : List Ev) : addedUrls (l ++ l') = addedUrls l ++ addedUrls l' :=
  List.filterMap_append

theorem orIFail_log (c : CtntIdx) (r : HcResult × World) : (orIFail c r).2.log = r.2.log := by
  unfold orIFail
  split_ifs
  · rfl
  · rfl

variable [L : Layout]

/-- A download adds no record. -/
theorem sohuDownload_log (w : World) (c : CtntIdx) (ans : Answer) :
    ∃ l, (scSohuDownload w c ans).2.log = w.log ++ l ∧ addedUrls l = [] := by
  have hstage : ∃ l, (sohuStage (w.sohuCalled c ans.session) c ans.session).world.log = w.log ++ l ∧
      addedUrls l = [] := by
    rcases sohuStage_world (w.sohuCalled c ans.session) c ans.session with heq | heq
    · rw [heq]
      exact ⟨[_], rfl, rfl⟩
    · rw [heq]
      exact ⟨[_, _], List.append_assoc w.log [_] [_], rfl⟩
  obtain ⟨l, hl, hnone⟩ := hstage
  rw [scSohuDownload_eq]
  cases hst : sohuStage (w.sohuCalled c ans.session) c ans.session with
  | exit w' =>
    rw [hst] at hl
    exact ⟨l, hl, hnone⟩
  | cached w' =>
    rw [hst] at hl
    exact ⟨l, hl, hnone⟩
  | download w' realUrl =>
    rw [hst] at hl
    have hlog : w'.log = w.log ++ l := hl
    obtain ⟨ret, hcall⟩ : ∃ ret, (w'.ngxDownload ans.ngx realUrl (w'.rl.ctnt c).localpath).2.log =
        w'.log ++ [.ngxDownload realUrl (w'.rl.ctnt c).localpath ret] := ⟨_, rfl⟩
    refine ⟨l ++ [.ngxDownload realUrl (w'.rl.ctnt c).localpath ret], ?_, ?_⟩
    · dsimp only
      rw [orIFail_log, hcall, hlog, List.append_assoc]
    · rw [addedUrls_append, hnone]
      rfl

/-- The loop calls `sc_res_info_add_ctnt` once for each url, in order. -/
theorem sohuFileLoop_log (origin : MgmtIdx) (ans : ℕ → Answer) (urls : List Bytes) (j : ℕ) (w : World) :
    ∃ l, (sohuFileLoop origin ans j w urls).log = w.log ++ l ∧ addedUrls l = urls := by
  induction urls generalizing j w with
  | nil => exact ⟨[], (List.append_nil _).symm, rfl⟩
  | cons url urls ih =>
    have hadd : ∃ l, (w.addCtnt origin url (ans j).snooping).2.log = w.log ++ l ∧ addedUrls l = [url] := by
      rcases w.addCtnt_log origin url (ans j).snooping with hlog | ⟨c, hlog⟩
      · exact ⟨_, hlog, rfl⟩
      · exact ⟨_, hlog, rfl⟩
    obtain ⟨l₁, hl₁, hone⟩ := hadd
    rw [sohuFileLoop]
    split
    next w₁ heq =>
      rw [heq] at hl₁
      obtain ⟨l₂, hl₂, hrest⟩ := ih (j + 1) w₁
      exact ⟨l₁ ++ l₂, by rw [hl₂, hl₁, List.append_assoc], by rw [addedUrls_append, hone, hrest]; rfl⟩
    next parsed w₁ heq =>
      rw [heq] at hl₁
      obtain ⟨l₂, hl₂, hnone⟩ := sohuDownload_log w₁ parsed (ans j)
      obtain ⟨l₃, hl₃, hrest⟩ := ih (j + 1) (scSohuDownload w₁ parsed (ans j)).2
      refine ⟨l₁ ++ (l₂ ++ l₃), ?_, ?_⟩
      · rw [hl₃, hl₂, hl₁, List.append_assoc, List.append_assoc]
      · rw [addedUrls_append, addedUrls_append, hone, hnone, hrest]
        rfl

theorem sohuFileLoop_added (origin : MgmtIdx) (ans : ℕ → Answer) (urls : List Bytes) (w : World) :
    addedUrls ((sohuFileLoop origin ans 0 w urls).log.drop w.log.length) = urls := by
  obtain ⟨l, hl, hurls⟩ := sohuFileLoop_log origin ans urls 0 w
  rw [hl, List.drop_left, hurls]

/-- The cursor always moves on, so the loop ends on every response; and on a response made of groups it
calls `sc_res_info_add_ctnt` with the url of each group, in order and once, and with no other url that is
not empty. -/
theorem m3u8_segments_found :
    (∀ curr next fileUrl, sohuParseM3u8Response curr = (some next, fileUrl) →
      next <:+ curr ∧ next.length < curr.length) ∧
    (∀ response : Bytes, ∃ urls, ∀ fuel, response.length < fuel →
      sohuM3u8Loop fuel (some response) = some urls ∧ sohuFileUrls fuel response = urls) ∧
    (∀ (gs : List M3u8Group) (last : M3u8Group) (tagged : Bool) (fuel : ℕ),
      (playlistText gs last tagged).length < fuel →
      ∃ urls, sohuM3u8Loop fuel (some (playlistText gs last tagged)) = some urls ∧
        urls.filter (· ≠ []) = (gs ++ [last]).map M3u8Group.url ∧
        ∀ origin ans w, addedUrls ((sohuFileLoop origin ans 0 w
          (sohuFileUrls fuel (playlistText gs last tagged))).log.drop w.log.length) = urls) := by
  refine ⟨fun curr next fileUrl h => parseM3u8_progress h, fun response => ?_, ?_⟩
  · obtain ⟨urls, hurls⟩ := m3u8Loop_ends response.length (le_refl response.length)
    refine ⟨urls, fun fuel hfuel => ⟨hurls fuel hfuel, ?_⟩⟩
    have hlist := m3u8Loop_fileUrls fuel hfuel
    rw [hurls fuel hfuel] at hlist
    exact (Option.some.inj hlist).symm
  · intro gs last tagged fuel hfuel
    have hloop := m3u8Loop_groups gs last tagged (.inl rfl) hfuel
    have hlist : sohuFileUrls fuel (playlistText gs last tagged) = _ :=
      Option.some.inj ((m3u8Loop_fileUrls fuel hfuel).symm.trans hloop)
    refine ⟨_, hloop, urls_filter gs last tagged, fun origin ans w => ?_⟩
    rw [sohuFileLoop_added, hlist]

end Calls

def oneFile : M3u8Group where
  pre := bytes "#EXTINF:9\n"
  a := bytes "1.2.3.4/?"
  b := bytes "/1.mp4"
  rest := bytes "x=1\n"
  pre_http := by decide +kernel
  pre_tag := by decide +kernel
  file_last := by
    intro k hocc
    have hk : k ≤ 9 := by
      have hlen := hocc.length_le
      rw [List.length_drop, show (bytes "1.2.3.4/?" ++ bytes "file=").length = 14 by decide] at hlen
      have hfile : (bytes "file=").length = 5 := by decide
      omega
    have hall : ∀ k ≤ 9, OccursAt (bytes "1.2.3.4/?" ++ bytes "file=") (bytes "file=") k → k = 9 := by
      decide +kernel
    exact hall k hk hocc
  b_line := by decide +kernel
  url_tag := by decide +kernel
  rest_tag := by decide +kernel
  short := by decide +kernel

theorem m3u8_segments_found_twice :
    ∃ urls, sohuM3u8Loop 200 (some (playlistText [oneFile] oneFile true)) = some urls ∧
      urls.filter (· ≠ []) = [oneFile.url, oneFile.url] := by
  obtain ⟨urls, hloop, hurls, -⟩ :=
    (@m3u8_segments_found sampleLayout).2.2 [oneFile] oneFile true 200 (by decide +kernel)
  exact ⟨urls, hloop, hurls⟩

end Groups

end HotCache
