import HotCache.Spec.Getfile

/-! The request round trip between the client and Nginx. `getfileArgs` is the one text both
sides agree on; every reader is evaluated on it, followed by any rest of the request buffer. -/

namespace HotCache

open CStr

/-- `uri`, the separator the client picks, and the `localpath` parameter. -/
def getfileArgs (uri lp : Bytes) : Bytes :=
  uri ++ (if ch '?' ∈ uri then ch '&' else ch '?') :: (bytes "localpath=" ++ lp)

theorem para_expand (uri lp : Bytes) :
    (if ch '?' ∈ uri then expand para1 [lp] else expand para2 [lp]) =
      (if ch '?' ∈ uri then ch '&' else ch '?') :: (bytes "localpath=" ++ lp) := by
  have h1 : para1 = (ch '&' :: bytes "localpath=") ++ (bytes "%s" ++ []) := by decide +kernel
  have h2 : para2 = (ch '?' :: bytes "localpath=") ++ (bytes "%s" ++ []) := by decide +kernel
  split_ifs
  · rw [h1, expand_append (by decide), expand_s]
    simp [expand]
  · rw [h2, expand_append (by decide), expand_s]
    simp [expand]

theorem getPattern_expand (uri lp ip : Bytes) :
    expand scNgxGetPattern [uri, lp, ip] =
      bytes "GET /getfile?" ++ (uri ++ lp) ++ bytes " HTTP/1.1\r\n" ++
        (bytes "Host: " ++ ip ++ bytes "\r\nConnection: close\r\n\r\n") := by
  have h : scNgxGetPattern = bytes "GET /getfile?" ++ (bytes "%s" ++ (bytes "%s" ++
      (bytes " HTTP/1.1\r\nHost: " ++ (bytes "%s" ++ bytes "\r\nConnection: close\r\n\r\n")))) := by
    decide +kernel
  have hs : bytes " HTTP/1.1\r\nHost: " = bytes " HTTP/1.1\r\n" ++ bytes "Host: " := by decide +kernel
  rw [h, expand_append (by decide), expand_s, expand_s, expand_append (by decide), expand_s,
    expand_text (by decide), hs]
  simp only [List.append_assoc]

theorem scNgxBuildGet_eq_some {ip uri lp req : Bytes} {len : ℕ}
    (h : scNgxBuildGet ip uri lp len = some req) :
    req = bytes "GET /getfile?" ++ getfileArgs uri lp ++ bytes " HTTP/1.1\r\n" ++
      (bytes "Host: " ++ ip ++ bytes "\r\nConnection: close\r\n\r\n") ∧ req.length < len := by
  unfold scNgxBuildGet at h
  simp only [para_expand] at h
  rw [getfileArgs]
  generalize (if ch '?' ∈ uri then ch '&' else ch '?') = sep at h ⊢
  split_ifs at h with h1 h2
  obtain rfl := Option.some.inj h
  rw [getPattern_expand]
  refine ⟨rfl, ?_⟩
  rw [not_le] at h2
  refine lt_of_le_of_lt (le_of_eq ?_) h2
  simp only [List.length_append, List.length_cons]
  rw [show scNgxGetPattern.length = 59 from rfl, show (bytes "GET /getfile?").length = 13 from rfl,
    show (bytes " HTTP/1.1\r\n").length = 11 from rfl, show (bytes "Host: ").length = 6 from rfl,
    show (bytes "\r\nConnection: close\r\n\r\n").length = 23 from rfl]
  omega

theorem takeWhile_append_of_mem {p : UInt8 → Bool} {s t : Bytes} {c : UInt8} (hc : c ∈ s)
    (hp : p c = false) :
    (s ++ t).takeWhile p = s.takeWhile p := by
  induction s with
  | nil => simp at hc
  | cons a s ih =>
    cases ha : p a with
    | false => simp [ha]
    | true =>
      have hcs : c ∈ s := by
        rcases List.mem_cons.mp hc with rfl | h
        · rw [hp] at ha; cases ha
        · exact h
      simp [ha, ih hcs]

theorem dropWhile_append_of_mem {p : UInt8 → Bool} {s t : Bytes} {c : UInt8} (hc : c ∈ s)
    (hp : p c = false) :
    (s ++ t).dropWhile p = s.dropWhile p ++ t := by
  have h := List.takeWhile_append_dropWhile (p := p) (l := s ++ t)
  rw [takeWhile_append_of_mem hc hp] at h
  have h' := List.takeWhile_append_dropWhile (p := p) (l := s)
  conv_rhs at h => rw [← h', List.append_assoc]
  exact List.append_cancel_left h

theorem hostLoop_eq (n : ℕ) (s : Bytes) : hostLoop n s = (s.takeWhile (· ≠ ch '/')).take n := by
  induction s generalizing n with
  | nil => cases n <;> rfl
  | cons a s ih =>
    cases n with
    | zero => simp [hostLoop]
    | succ n => by_cases h : a = ch '/' <;> simp [hostLoop, h, ih]

/-- The first `localpath=` of the buffer is the one the client wrote: one that began inside
`uri` would have to run over the separator. -/
theorem strstr_getfileArgs {uri lp : Bytes} (rest : Bytes) (h : ¬ bytes "localpath=" <:+: uri) :
    strstr (getfileArgs uri lp ++ rest)
      (bytes "localpath=") = some (bytes "localpath=" ++ lp ++ rest) := by
  set sep := if ch '?' ∈ uri then ch '&' else ch '?' with hsep
  have hs : getfileArgs uri lp ++ rest = (uri ++ [sep]) ++ (bytes "localpath=" ++ lp ++ rest) := by
    simp [getfileArgs, hsep]
  rw [hs]
  refine strstr_append ⟨lp ++ rest, by simp⟩ fun k hk hocc => ?_
  rw [List.length_append, List.length_singleton] at hk
  have hsepne : sep ∉ bytes "localpath=" := by
    rw [hsep]; split_ifs <;> decide
  rcases le_or_gt (k + 10) uri.length with hle | hgt
  · -- wholly inside `uri`
    apply h
    rw [occursAt_iff] at hocc
    refine OccursAt.occurs (k := k) (occursAt_iff.mpr fun j hj => ?_)
    have hj10 : j < 10 := hj
    rw [← hocc j hj, List.append_assoc, List.getElem?_append_left (by omega)]
  · -- over the separator, at offset `uri.length - k` of the needle
    rw [occursAt_iff] at hocc
    have hj := hocc (uri.length - k) (by rw [show (bytes "localpath=").length = 10 from rfl]; omega)
    rw [show k + (uri.length - k) = uri.length by omega, List.append_assoc,
      List.getElem?_append_right le_rfl, Nat.sub_self] at hj
    exact hsepne (List.mem_of_getElem? hj.symm)

theorem getfileArgs_length (uri lp : Bytes) :
    (getfileArgs uri lp).length = uri.length + 11 + lp.length := by
  simp only [getfileArgs, List.length_append, List.length_cons, show (bytes "localpath=").length = 10 from rfl]
  omega

theorem localpath_drop (lp rest : Bytes) :
    (bytes "localpath=" ++ lp ++ rest).drop 10 = lp ++ rest := by
  rw [List.append_assoc]; rfl

/-- The length arithmetic of the readers counts exactly the bytes of `lp`. -/
theorem localpath_len (uri lp rest : Bytes) :
    (getfileArgs uri lp).length - ((getfileArgs uri lp ++ rest).length -
      (bytes "localpath=" ++ lp ++ rest).length + 10) = lp.length := by
  simp only [List.length_append, getfileArgs_length, show (bytes "localpath=").length = 10 from rfl]
  omega

/-- The arguments hold `localpath=`, and `lp` is what follows the first one. -/
theorem argsLocalpath_eq {args : NgxStr} {lp : Bytes}
    (h : strstr args.text (bytes "localpath=") = some (bytes "localpath=" ++ lp)) :
    argsLocalpath args = some lp := by
  have hdata := strstr_extend h (args.data.drop args.len)
  rw [NgxStr.text, List.take_append_drop] at hdata
  have hlen := congrArg List.length (strstr_split h).choose_spec.1
  simp only [NgxStr.text, List.length_take, List.length_append] at hlen
  have htag : (bytes "localpath=").length = 10 := rfl
  rw [argsLocalpath, hdata]
  simp only [Option.map_some, Option.some.injEq]
  rw [List.append_assoc, List.drop_left' htag]
  simp only [List.length_append, List.length_drop, htag] at hlen ⊢
  by_cases hle : args.len ≤ args.data.length
  · rw [List.take_append_of_le_length (by omega), List.take_of_length_le (by omega)]
  · rw [List.drop_of_length_le (by omega), List.append_nil, List.take_of_length_le (by omega)]

theorem mapUriToPath_localpath (root uri : Bytes) (aliasLen : ℕ) {args : NgxStr} {lp : Bytes}
    (h : argsLocalpath args = some lp) :
    ngxHttpMapUriToPath root uri aliasLen true args = root ++ ch '/' :: lp := by
  unfold argsLocalpath at h
  rw [ngxHttpMapUriToPath, if_pos rfl]
  cases hstr : strstr args.data (bytes "localpath=") with
  | none => simp [hstr] at h
  | some p =>
    rw [hstr, Option.map_some, Option.some.injEq] at h
    simp only [ngxCpystrn, Nat.add_sub_cancel, h]

theorem argsLocalpath_getfileArgs {uri lp : Bytes} (rest : Bytes)
    (h : ¬ bytes "localpath=" <:+: uri) :
    argsLocalpath ⟨getfileArgs uri lp ++ rest, (getfileArgs uri lp).length⟩ = some lp := by
  rw [argsLocalpath, strstr_getfileArgs rest h, Option.map_some, localpath_len, localpath_drop,
    List.take_left]

theorem host_getfileArgs {uri lp : Bytes} (rest : Bytes) (len : ℕ) (hslash : ch '/' ∈ uri)
    (hhost : (uri.takeWhile (· ≠ ch '/')).length ≤ 63) :
    getfileGetHostFromUri ⟨getfileArgs uri lp ++ rest, len⟩ = uri.takeWhile (· ≠ ch '/') := by
  rw [getfileGetHostFromUri, hostLoop_eq, getfileArgs, List.append_assoc,
    takeWhile_append_of_mem hslash (by simp)]
  exact List.take_of_length_le hhost

/-- What the client writes, Nginx reads: the request line carries arguments `A` that start
with `uri`, from which the getfile module takes the host before the first `/`, and the
upstream code and the path mapping take `lp`. -/
theorem getfile_round_trip (ip uri lp req : Bytes) (len : ℕ)
    (hfree : ∀ c ∈ uri ++ lp, c ≠ 0 ∧ c ≠ ch ' ' ∧ c ≠ ch '\r' ∧ c ≠ ch '\n' ∧ c ≠ ch '#')
    (hslash : ch '/' ∈ uri)
    (hhost : 1 ≤ (uri.takeWhile (· ≠ ch '/')).length ∧ (uri.takeWhile (· ≠ ch '/')).length ≤ 63)
    (hkey : ¬ bytes "localpath=" <:+: uri)
    (hbuild : scNgxBuildGet ip uri lp len = some req) :
    req.length < len ∧
    ∃ A rest, req = bytes "GET /getfile?" ++ A ++ bytes " HTTP/1.1\r\n" ++ rest ∧
      (∀ c ∈ A, c ≠ 0 ∧ c ≠ ch ' ' ∧ c ≠ ch '\r' ∧ c ≠ ch '\n' ∧ c ≠ ch '#') ∧
      uri <+: A ∧
      getfileGetHostFromUri ⟨A ++ bytes " HTTP/1.1\r\n" ++ rest, A.length⟩ = uri.takeWhile (· ≠ ch '/') ∧
      argsLocalpath ⟨A ++ bytes " HTTP/1.1\r\n" ++ rest, A.length⟩ = some lp ∧
      ∀ root ruri aliasLen, ngxHttpMapUriToPath root ruri aliasLen true
        ⟨A ++ bytes " HTTP/1.1\r\n" ++ rest, A.length⟩ = root ++ ch '/' :: lp := by
  obtain ⟨hreq, hlen⟩ := scNgxBuildGet_eq_some hbuild
  refine ⟨hlen, getfileArgs uri lp, _, hreq, ?_, List.prefix_append _ _, ?_, ?_, fun root ruri aliasLen => ?_⟩
  · intro c hc
    have hsep : ∀ c ∈ (if ch '?' ∈ uri then ch '&' else ch '?') :: bytes "localpath=",
        c ≠ 0 ∧ c ≠ ch ' ' ∧ c ≠ ch '\r' ∧ c ≠ ch '\n' ∧ c ≠ ch '#' := by
      split_ifs <;> decide +kernel
    simp only [getfileArgs, List.mem_append, List.mem_cons] at hc hsep hfree
    rcases hc with h | h | h | h
    · exact hfree c (Or.inl h)
    · exact hsep c (Or.inl h)
    · exact hsep c (Or.inr h)
    · exact hfree c (Or.inr h)
  · rw [List.append_assoc]
    exact host_getfileArgs _ _ hslash hhost.2
  · rw [List.append_assoc]
    exact argsLocalpath_getfileArgs _ hkey
  · rw [List.append_assoc]
    exact mapUriToPath_localpath root ruri aliasLen (argsLocalpath_getfileArgs _ hkey)

/-- A download of `youku/x.flv` from `1.2.3.4`. -/
theorem getfile_round_trip_flv :
    ∃ A rest, scNgxBuildGet SC_NGX_DEFAULT_IP_ADDR (bytes "1.2.3.4/youku/x.flv")
      (bytes "1_2_3_4/youku_x.flv") BUFFER_LEN =
        some (bytes "GET /getfile?" ++ A ++ bytes " HTTP/1.1\r\n" ++ rest) ∧
      argsLocalpath ⟨A ++ bytes " HTTP/1.1\r\n" ++ rest, A.length⟩ = some (bytes "1_2_3_4/youku_x.flv") := by
  obtain ⟨-, A, rest, hreq, -, -, -, hlp, -⟩ := getfile_round_trip SC_NGX_DEFAULT_IP_ADDR (bytes "1.2.3.4/youku/x.flv")
    (bytes "1_2_3_4/youku_x.flv") _ BUFFER_LEN (by decide +kernel) (by decide +kernel) (by decide +kernel)
    (by decide +kernel) rfl
  exact ⟨A, rest, by rw [← hreq]; rfl, hlp⟩

end HotCache
