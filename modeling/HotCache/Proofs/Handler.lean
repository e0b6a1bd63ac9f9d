import HotCache.Spec.Handler

/-! The memory of two functions of the getfile side. `ngx_http_map_uri_to_path` allocates for the uri
and writes the local path; `getfile_host_is_ip_addr` collects digits in four bytes and counts them only
at the next dot. -/

namespace HotCache

open CStr Buffer

section StoredPath

/-- The arguments end with `localpath=` and `lp`, and this is the first `localpath=` in the buffer. -/
structure EndsInLocalpath (args : NgxStr) (before lp behind : Bytes) : Prop where
  data : args.data = before ++ (bytes "localpath=" ++ (lp ++ behind))
  len : args.len = before.length + 10 + lp.length
  first : strstr args.data (bytes "localpath=") = some (bytes "localpath=" ++ (lp ++ behind))

/-- The length arithmetic of `ngx_http_map_uri_to_path` counts the bytes of `lp`. -/
theorem EndsInLocalpath.count {args : NgxStr} {before lp behind : Bytes}
    (h : EndsInLocalpath args before lp behind) :
    args.len - (args.data.length - (bytes "localpath=" ++ (lp ++ behind)).length + 10) = lp.length := by
  rw [h.data, h.len, List.length_append]
  omega

theorem cpystrnLoop_eq {n : ℕ} {src : Bytes} (hnul : (0 : UInt8) ∉ src.take n) (dst : ℤ) (b : Buf) :
    cpystrnLoop n src dst b = b.putAll dst (src.take n ++ [0]) := by
  induction n generalizing src dst b with
  | zero => rfl
  | succ n ih =>
    cases src with
    | nil => rfl
    | cons c src =>
      rw [List.take_succ_cons, List.mem_cons, not_or] at hnul
      rw [cpystrnLoop, if_neg (Ne.symm hnul.1), ih hnul.2]
      rfl

theorem mapUriToPathInto_eq {args : NgxStr} {before lp behind : Bytes}
    (hargs : EndsInLocalpath args before lp behind) (hlp : (0 : UInt8) ∉ lp) {aliasLen : ℕ}
    {validLocation : Bool} (hloc : aliasLen = 0 ∨ validLocation = true) (root uri : Bytes) (reserved : ℕ)
    (data : Buf) :
    ngxHttpMapUriToPathInto root uri aliasLen validLocation true args reserved data =
      some (root.length + reserved + uri.length - aliasLen + 1,
        data.putAll 0 (root ++ ch '/' :: lp ++ [0])) := by
  have hcopy : ((lp ++ behind).take lp.length) = lp := List.take_left
  have hdrop : (bytes "localpath=" ++ (lp ++ behind)).drop 10 = lp ++ behind := List.drop_left' (by decide)
  have hwhole : data.putAll 0 (root ++ ch '/' :: lp ++ [0]) =
      ((data.putAll 0 root).put root.length (ch '/')).putAll (root.length + 1) (lp ++ [0]) := by
    rw [List.append_assoc, putAll_append, zero_add]
    rfl
  unfold ngxHttpMapUriToPathInto
  rw [if_neg (by rcases hloc with h | h <;> simp [h])]
  simp only [if_true, hargs.first, hargs.count, hdrop, ngxCpystrnInto, Nat.add_sub_cancel]
  rw [if_neg (by omega), cpystrnLoop_eq (by rwa [hcopy]), hcopy, hwhole]

/-- What is written stays in the allocation, and its length less one is that of the string, as
`ngx_http_upstream_store` takes it. -/
def StoredPathFits (root uri : Bytes) (aliasLen : ℕ) (validLocation : Bool) (args : NgxStr)
    (content : ℤ → UInt8) : Prop :=
  ∃ pathLen data s, ngxHttpMapUriToPathInto root uri aliasLen validLocation true args 0 ⟨content, []⟩ =
    some (pathLen, data) ∧ data.Inside pathLen ∧ data.Holds s ∧ (0 : UInt8) ∉ s ∧ pathLen - 1 = s.length

/-- The path fits exactly when the local path and its slash are as long as the uri without the alias. -/
theorem stored_path_fits_iff (root uri : Bytes) (aliasLen : ℕ) (validLocation : Bool) (args : NgxStr)
    (before lp behind : Bytes) (content : ℤ → UInt8) (hargs : EndsInLocalpath args before lp behind)
    (hroot : (0 : UInt8) ∉ root) (hlp : (0 : UInt8) ∉ lp) (halias : aliasLen ≤ uri.length)
    (hloc : aliasLen = 0 ∨ validLocation = true) :
    StoredPathFits root uri aliasLen validLocation args content ↔ lp.length + 1 = uri.length - aliasLen := by
  have hmap := mapUriToPathInto_eq hargs hlp hloc root uri 0 ⟨content, []⟩
  have hholds := putAll_holds ⟨content, []⟩ (root ++ ch '/' :: lp)
  have hstring : (0 : UInt8) ∉ root ++ ch '/' :: lp := by
    simp only [List.mem_append, List.mem_cons, not_or]
    exact ⟨hroot, by decide, hlp⟩
  have hlen : (root ++ ch '/' :: lp).length = root.length + (lp.length + 1) := by simp
  constructor
  · rintro ⟨pathLen, data, s, heq, -, hs, hs0, hcount⟩
    rw [hmap] at heq
    obtain ⟨rfl, rfl⟩ := Prod.mk.inj (Option.some.inj heq)
    have := holds_length_unique hs hholds hs0 hstring
    omega
  · intro hfits
    refine ⟨_, _, _, hmap, ?_, hholds, hstring, by omega⟩
    refine Buf.Inside.putAll (fun i hi => absurd hi List.not_mem_nil) le_rfl ?_
    rw [List.length_append, hlen]
    push_cast
    simp only [List.length_singleton]
    omega

def requestArgs (url lp : Bytes) : NgxStr :=
  ⟨url ++ (ch '?' :: (bytes "localpath=" ++ (lp ++ bytes " HTTP/1.1"))), url.length + 11 + lp.length⟩

theorem stored_path_fits_seven :
    StoredPathFits (bytes "/usr/local/hot-cache") (bytes "/getfile") 0 true
      (requestArgs (bytes "f.tv/1.flv") (bytes "f/1.flv")) (fun _ => 0) :=
  (stored_path_fits_iff _ _ 0 true _ (bytes "f.tv/1.flv?") (bytes "f/1.flv") (bytes " HTTP/1.1") _
    ⟨by decide +kernel, by decide +kernel, by decide +kernel⟩ (by decide +kernel) (by decide +kernel)
    (by decide +kernel) (.inl rfl)).mpr (by decide +kernel)

/-- The local path is longer than `/getfile`, for which the memory was allocated. -/
theorem stored_path_overflows :
    ¬ StoredPathFits (bytes "/usr/local/hot-cache") (bytes "/getfile") 0 true
      (requestArgs (bytes "f.youku.com/v/1.flv") (bytes "f_youku_com/v_1.flv")) (fun _ => 0) := by
  rintro ⟨pathLen, data, s, heq, hin, -⟩
  have hargs : EndsInLocalpath (requestArgs (bytes "f.youku.com/v/1.flv") (bytes "f_youku_com/v_1.flv"))
      (bytes "f.youku.com/v/1.flv?") (bytes "f_youku_com/v_1.flv") (bytes " HTTP/1.1") :=
    ⟨by decide +kernel, by decide +kernel, by decide +kernel⟩
  rw [mapUriToPathInto_eq hargs (by decide +kernel) (.inl rfl)] at heq
  obtain ⟨rfl, rfl⟩ := Prod.mk.inj (Option.some.inj heq)
  have hlast := hin 40 (mem_putAll_written.mpr (.inr (by decide +kernel)))
  exact absurd hlast.2 (by decide +kernel)

end StoredPath

section IpAddr

structure Octet (s : Bytes) : Prop where
  one : 1 ≤ s.length
  three : s.length ≤ 3
  digits : ∀ c ∈ s, digit c = true
  value : digitsValue s ≤ 255

def DottedQuad (host : Bytes) : Prop :=
  ∃ a b c d, Octet a ∧ Octet b ∧ Octet c ∧ Octet d ∧
    host = a ++ ch '.' :: (b ++ ch '.' :: (c ++ ch '.' :: d))

/-- Five digits in a row behind at most `k` numbers with their dots. -/
inductive LongRun : ℕ → Bytes → Prop
  | here {k : ℕ} {run rest : Bytes} : run.length = 5 → (∀ c ∈ run, digit c = true) → LongRun k (run ++ rest)
  | later {k : ℕ} {a rest : Bytes} : Octet a → LongRun k rest → LongRun (k + 1) (a ++ ch '.' :: rest)

def Dotted : ℕ → Bytes → Prop
  | 0, t => Octet t
  | k + 1, t => ∃ a rest, Octet a ∧ t = a ++ ch '.' :: rest ∧ Dotted k rest

theorem dottedQuad_iff {host : Bytes} : DottedQuad host ↔ Dotted 3 host := by
  constructor
  · rintro ⟨a, b, c, d, ha, hb, hc, hd, rfl⟩
    exact ⟨a, _, ha, rfl, b, _, hb, rfl, c, _, hc, rfl, hd⟩
  · rintro ⟨a, _, ha, rfl, b, _, hb, rfl, c, d, hc, rfl, hd⟩
    exact ⟨a, b, c, d, ha, hb, hc, hd, rfl⟩

/-- Texts are taken apart at their first byte that is no digit. -/
theorem digits_split {a cur r rest : Bytes} {c d : UInt8} (ha : ∀ x ∈ a, digit x = true)
    (hcur : ∀ x ∈ cur, digit x = true) (hc : digit c = false) (hd : digit d = false)
    (h : a ++ c :: r = cur ++ d :: rest) : a = cur ∧ c = d ∧ r = rest := by
  have hleft : (a ++ c :: r).takeWhile digit = a := by
    rw [List.takeWhile_append_of_pos ha, List.takeWhile_cons_of_neg (by simp [hc]), List.append_nil]
  have hright : (cur ++ d :: rest).takeWhile digit = cur := by
    rw [List.takeWhile_append_of_pos hcur, List.takeWhile_cons_of_neg (by simp [hd]), List.append_nil]
  have hsame : a = cur := by rw [← hleft, h, hright]
  subst hsame
  simpa using h

theorem dot_not_digit : digit (ch '.') = false := by decide

variable {cur rest : Bytes} {k : ℕ}

theorem dotted_dot (hcur : ∀ x ∈ cur, digit x = true) :
    Dotted k (cur ++ ch '.' :: rest) ↔ ∃ j, k = j + 1 ∧ Octet cur ∧ Dotted j rest := by
  constructor
  · intro h
    cases k with
    | zero =>
      have hdot := Octet.digits h (ch '.') (by simp)
      exact absurd hdot (by decide)
    | succ k =>
      obtain ⟨a, r, ha, heq, hr⟩ := h
      obtain ⟨rfl, -, rfl⟩ := digits_split ha.digits hcur dot_not_digit dot_not_digit heq.symm
      exact ⟨k, rfl, ha, hr⟩
  · rintro ⟨j, rfl, hcur', hr⟩
    exact ⟨cur, rest, hcur', rfl, hr⟩

theorem dotted_bytes {t : Bytes} (h : Dotted k t) : ∀ c ∈ t, digit c = true ∨ c = ch '.' := by
  induction k generalizing t with
  | zero => exact fun c hc => .inl (h.digits c hc)
  | succ k ih =>
    obtain ⟨a, r, ha, rfl, hr⟩ := h
    intro c hc
    rcases List.mem_append.mp hc with hc | hc
    · exact .inl (ha.digits c hc)
    · rcases List.mem_cons.mp hc with rfl | hc
      · exact .inr rfl
      · exact ih hr c hc

theorem not_dotted_digits (hcur : ∀ x ∈ cur, digit x = true) : ¬ Dotted (k + 1) cur := by
  rintro ⟨a, r, -, rfl, -⟩
  have hdot := hcur (ch '.') (by simp)
  exact absurd hdot (by decide)

/-- Behind fewer than five digits the run can only come later, after a dot. -/
theorem longRun_stop {c : UInt8} (hcur : ∀ x ∈ cur, digit x = true) (hlen : cur.length ≤ 4)
    (hc : digit c = false) (h : LongRun k (cur ++ c :: rest)) :
    c = ch '.' ∧ Octet cur ∧ ∃ j, k = j + 1 ∧ LongRun j rest := by
  generalize ht : cur ++ c :: rest = t at h
  cases h with
  | @here _ run r hrun hdigits =>
    have hget : (run ++ r)[cur.length]? = some c := by simp [← ht]
    rw [List.getElem?_append_left (by omega)] at hget
    have hdigit := hdigits c (List.mem_of_getElem? hget)
    rw [hc] at hdigit
    cases hdigit
  | @later j a r ha hr =>
    obtain ⟨rfl, rfl, rfl⟩ := digits_split hcur ha.digits hc dot_not_digit ht
    exact ⟨rfl, ha, j, rfl, hr⟩

theorem not_longRun_digits (hcur : ∀ x ∈ cur, digit x = true) (hlen : cur.length ≤ 4) : ¬ LongRun k cur := by
  intro h
  cases h with
  | here hrun _ =>
    rw [List.length_append] at hlen
    omega
  | later _ _ =>
    have hdot := hcur (ch '.') (by simp)
    exact absurd hdot (by decide)

/-- The digits of the current number stand in `asc`. -/
structure Collected (cur : Bytes) (asc : Buf) : Prop where
  digits : ∀ x ∈ cur, digit x = true
  read : asc.read cur.length = cur

theorem Collected.put {asc : Buf} {c : UInt8} (h : Collected cur asc) (hc : digit c = true) :
    Collected (cur ++ [c]) (asc.put cur.length c) := by
  refine ⟨?_, ?_⟩
  · intro x hx
    rcases List.mem_append.mp hx with hx | hx
    · exact h.digits x hx
    · rw [List.mem_singleton.mp hx, hc]
  · rw [List.length_append, List.length_singleton, read_put, h.read]

/-- At a dot and at the end the number is taken exactly when it is an octet. -/
theorem ascNumber_fst {asc : Buf} (h : Collected cur asc) :
    (ascNumber cur.length asc).1 = true ↔ Octet cur := by
  unfold ascNumber
  split_ifs with hcount
  · refine iff_of_false not_false fun hoctet => ?_
    have hone := hoctet.one
    have hthree := hoctet.three
    omega
  · have hlt := digitsValue_lt h.digits
    have hpow : 10 ^ cur.length ≤ 10 ^ 3 := Nat.pow_le_pow_right (by decide) (by omega)
    have hne : cur ≠ [] := by
      rintro rfl
      simp at hcount
    obtain ⟨behind, hread⟩ : ∃ behind, (asc.put cur.length 0).read 4 = cur ++ 0 :: behind := by
      obtain ⟨t, ht⟩ := read_extend (asc.put cur.length 0) (show cur.length + 1 ≤ 4 by omega)
      exact ⟨t, by rw [ht, read_put, h.read, List.append_assoc, List.singleton_append]⟩
    simp only [hread, atoi_digits hne h.digits (show digit 0 = false by decide) (by omega)]
    simp only [Bool.not_eq_true', Bool.or_eq_false_iff, decide_eq_false_iff_not]
    constructor
    · rintro ⟨-, hvalue⟩
      exact ⟨by omega, by omega, h.digits, by omega⟩
    · intro hoctet
      have hvalue := hoctet.value
      omega

theorem ascNumber_inside (digits : ℕ) {asc : Buf} (hin : asc.Inside 4) :
    (ascNumber digits asc).2.Inside 4 := by
  unfold ascNumber
  split_ifs with hcount
  · exact hin
  · have hput : (asc.put digits 0).Inside 4 := hin.putAll (s := [0]) (by omega) (by simp; omega)
    dsimp only
    split <;> exact hput

/-- What `getfile_host_is_ip_addr` does behind its loop. -/
def ipAddrEnd : Option (ℕ × ℕ) × Buf → Bool × Buf
  | (none, asc) => (false, asc)
  | (some (dotCnt, digits), asc) => if dotCnt ≠ 3 then (false, asc) else ascNumber digits asc

theorem ipAddrLoop_dot {asc : Buf} (hcur : Collected cur asc) (dotCnt : ℕ) (host : Bytes) :
    (¬ Octet cur ∧ ipAddrLoop (ch '.' :: host) dotCnt cur.length asc = (none, (ascNumber cur.length asc).2)) ∨
    (Octet cur ∧ ipAddrLoop (ch '.' :: host) dotCnt cur.length asc =
      if dotCnt + 1 > 3 then (none, (ascNumber cur.length asc).2.putAll 0 [0, 0, 0, 0])
      else ipAddrLoop host (dotCnt + 1) 0 ((ascNumber cur.length asc).2.putAll 0 [0, 0, 0, 0])) := by
  have hfst := ascNumber_fst hcur
  rcases hnum : ascNumber cur.length asc with ⟨ok, asc'⟩
  rw [hnum] at hfst
  rw [ipAddrLoop, if_pos rfl, hnum]
  cases ok with
  | false => exact .inl ⟨fun h => absurd (hfst.mpr h) (by simp), rfl⟩
  | true => exact .inr ⟨hfst.mp rfl, rfl⟩

theorem ipAddrLoop_digit {asc : Buf} {c : UInt8} (hc : digit c = true) (dotCnt digits : ℕ) (host : Bytes) :
    ipAddrLoop (c :: host) dotCnt digits asc = ipAddrLoop host dotCnt (digits + 1) (asc.put digits c) := by
  rw [ipAddrLoop, if_neg, if_neg (by simp [hc])]
  rintro rfl
  exact absurd hc (by decide)

theorem ipAddrLoop_other {asc : Buf} {c : UInt8} (hdot : c ≠ ch '.') (hc : digit c = false)
    (dotCnt digits : ℕ) (host : Bytes) : ipAddrLoop (c :: host) dotCnt digits asc = (none, asc) := by
  rw [ipAddrLoop, if_neg hdot, if_pos (by simp [hc])]

theorem collected_nil (asc : Buf) : Collected [] asc := ⟨fun _ hx => absurd hx List.not_mem_nil, rfl⟩

/-- The rest of the host is accepted when it completes the current number and has the numbers that are
still missing. -/
theorem ipAddrLoop_accepts (host : Bytes) {dotCnt : ℕ} {asc : Buf} (hdots : dotCnt ≤ 3)
    (hcur : Collected cur asc) :
    (ipAddrEnd (ipAddrLoop host dotCnt cur.length asc)).1 = true ↔ Dotted (3 - dotCnt) (cur ++ host) := by
  induction host generalizing dotCnt cur asc with
  | nil =>
    rw [List.append_nil, ipAddrLoop, ipAddrEnd]
    by_cases hthree : dotCnt = 3
    · subst hthree
      rw [if_neg (by simp), ascNumber_fst hcur]
      rfl
    · obtain ⟨k, hk⟩ : ∃ k, 3 - dotCnt = k + 1 := ⟨2 - dotCnt, by omega⟩
      rw [if_pos hthree, hk]
      exact iff_of_false Bool.false_ne_true (not_dotted_digits hcur.digits)
  | cons c host ih =>
    by_cases hdigit : digit c = true
    · rw [ipAddrLoop_digit hdigit]
      have hnext := ih hdots (hcur.put hdigit)
      rwa [List.length_append, List.length_singleton, List.append_assoc, List.singleton_append] at hnext
    · rw [Bool.not_eq_true] at hdigit
      by_cases hdot : c = ch '.'
      · subst hdot
        rw [dotted_dot hcur.digits]
        rcases ipAddrLoop_dot hcur dotCnt host with ⟨hoctet, heq⟩ | ⟨hoctet, heq⟩
        · rw [heq]
          apply iff_of_false Bool.false_ne_true
          rintro ⟨-, -, h, -⟩
          exact hoctet h
        · rw [heq]
          split_ifs with hfour
          · apply iff_of_false Bool.false_ne_true
            rintro ⟨j, hj, -⟩
            omega
          · have hnext := ih (show dotCnt + 1 ≤ 3 by omega)
              (collected_nil ((ascNumber cur.length asc).2.putAll 0 [0, 0, 0, 0]))
            refine hnext.trans ⟨fun h => ⟨3 - (dotCnt + 1), by omega, hoctet, h⟩, ?_⟩
            rintro ⟨j, hj, -, h⟩
            rwa [List.nil_append, show 3 - (dotCnt + 1) = j by omega]
      · rw [ipAddrLoop_other hdot hdigit]
        refine iff_of_false Bool.false_ne_true fun hdotted => ?_
        rcases dotted_bytes hdotted c (by simp) with h | h
        · rw [hdigit] at h
          cases h
        · exact hdot h

theorem ascNumber_written (digits : ℕ) {asc : Buf} {i : ℤ} (hi : i ∈ asc.written) :
    i ∈ (ascNumber digits asc).2.written := by
  unfold ascNumber
  split_ifs
  · exact hi
  · dsimp only
    split <;> exact List.mem_cons_of_mem _ hi

theorem ipAddrLoop_written (host : Bytes) (dotCnt digits : ℕ) (asc : Buf) {i : ℤ} (hi : i ∈ asc.written) :
    i ∈ (ipAddrLoop host dotCnt digits asc).2.written := by
  induction host generalizing dotCnt digits asc with
  | nil => exact hi
  | cons c host ih =>
    rw [ipAddrLoop]
    by_cases hdot : c = ch '.'
    · rw [if_pos hdot]
      have hi' := ascNumber_written digits hi
      rcases hnum : ascNumber digits asc with ⟨_ | _, asc'⟩
      · rwa [hnum] at hi'
      · rw [hnum] at hi'
        have hzeroed : i ∈ (asc'.putAll 0 [0, 0, 0, 0]).written := mem_putAll_written.mpr (.inl hi')
        dsimp only
        split_ifs
        · exact hzeroed
        · exact ih _ _ _ hzeroed
    · rw [if_neg hdot]
      split_ifs
      · exact hi
      · exact ih _ _ (asc.put digits c) (List.mem_cons_of_mem _ hi)

/-- The loop leaves the four bytes exactly when it gets to a fifth digit. -/
theorem ipAddrLoop_inside (host : Bytes) {dotCnt : ℕ} {asc : Buf} (hdots : dotCnt ≤ 3)
    (hcur : Collected cur asc) (hlen : cur.length ≤ 4) (hin : asc.Inside 4) :
    (ipAddrLoop host dotCnt cur.length asc).2.Inside 4 ↔ ¬ LongRun (3 - dotCnt) (cur ++ host) := by
  induction host generalizing dotCnt cur asc with
  | nil =>
    rw [List.append_nil]
    exact iff_of_true hin (not_longRun_digits hcur.digits hlen)
  | cons c host ih =>
    by_cases hdigit : digit c = true
    · rw [ipAddrLoop_digit hdigit]
      by_cases hfour : cur.length = 4
      · -- the fifth digit of the run
        refine iff_of_false (fun hinside => ?_) (not_not_intro ?_)
        · have hout := hinside 4 (ipAddrLoop_written _ _ _ _ (by simp [Buf.put, hfour]))
          exact absurd hout.2 (by decide)
        · have hrun : LongRun (3 - dotCnt) ((cur ++ [c]) ++ host) :=
            .here (by simp [hfour]) (hcur.put hdigit).digits
          rwa [List.append_assoc, List.singleton_append] at hrun
      · have hput : (asc.put cur.length c).Inside 4 := hin.putAll (s := [c]) (by omega) (by simp; omega)
        have hnext := ih hdots (hcur.put hdigit) (by simp; omega) hput
        rwa [List.length_append, List.length_singleton, List.append_assoc, List.singleton_append] at hnext
    · rw [Bool.not_eq_true] at hdigit
      by_cases hdot : c = ch '.'
      · subst hdot
        have hnumber := ascNumber_inside cur.length hin
        have hzeroed : ((ascNumber cur.length asc).2.putAll 0 [0, 0, 0, 0]).Inside 4 :=
          hnumber.putAll le_rfl (by simp)
        rcases ipAddrLoop_dot hcur dotCnt host with ⟨hoctet, heq⟩ | ⟨hoctet, heq⟩
        · rw [heq]
          refine iff_of_true hnumber fun hrun => ?_
          obtain ⟨-, h, -⟩ := longRun_stop hcur.digits hlen dot_not_digit hrun
          exact hoctet h
        · rw [heq]
          split_ifs with hfour
          · refine iff_of_true hzeroed fun hrun => ?_
            obtain ⟨-, -, j, hj, -⟩ := longRun_stop hcur.digits hlen dot_not_digit hrun
            omega
          · have hnext := ih (show dotCnt + 1 ≤ 3 by omega) (collected_nil _) (by simp) hzeroed
            refine hnext.trans (not_congr ⟨fun h => ?_, fun h => ?_⟩)
            · rw [show 3 - dotCnt = 3 - (dotCnt + 1) + 1 by omega]
              exact LongRun.later hoctet h
            · obtain ⟨-, -, j, hj, hrun⟩ := longRun_stop hcur.digits hlen dot_not_digit h
              rwa [List.nil_append, show 3 - (dotCnt + 1) = j by omega]
      · rw [ipAddrLoop_other hdot hdigit]
        refine iff_of_true hin fun hrun => ?_
        exact hdot (longRun_stop hcur.digits hlen hdigit hrun).1

theorem ipAddrEnd_inside (r : Option (ℕ × ℕ) × Buf) : (ipAddrEnd r).2.Inside 4 ↔ r.2.Inside 4 := by
  rcases r with ⟨_ | ⟨dotCnt, digits⟩, asc⟩
  · rfl
  · rw [ipAddrEnd]
    split_ifs
    · rfl
    · exact ⟨fun h i hi => h i (ascNumber_written digits hi), ascNumber_inside digits⟩

theorem DottedQuad.length {host : Bytes} (h : DottedQuad host) : 7 ≤ host.length ∧ host.length ≤ 15 := by
  obtain ⟨a, b, c, d, ha, hb, hc, hd, rfl⟩ := h
  have ha1 := ha.one
  have hb1 := hb.one
  have hc1 := hc.one
  have hd1 := hd.one
  have ha3 := ha.three
  have hb3 := hb.three
  have hc3 := hc.three
  have hd3 := hd.three
  simp only [List.length_append, List.length_cons]
  omega

theorem hostIsIpAddr_eq {host : Bytes} (hmin : IP_ADDR_LEN_MIN ≤ host.length)
    (hmax : host.length ≤ IP_ADDR_LEN_MAX) :
    getfileHostIsIpAddr host = ipAddrEnd (ipAddrLoop host 0 0 ⟨fun _ => 0, []⟩) := by
  unfold getfileHostIsIpAddr
  rw [if_neg (by omega)]
  rcases ipAddrLoop host 0 0 ⟨fun _ => 0, []⟩ with ⟨_ | ⟨dotCnt, digits⟩, asc⟩ <;> rfl

/-- The scratch buffer is kept, and exactly the dotted quads are accepted. -/
def RecognisesQuad (host : Bytes) : Prop :=
  (getfileHostIsIpAddr host).2.Inside 4 ∧ ((getfileHostIsIpAddr host).1 = true ↔ DottedQuad host)

/-- Exactly the dotted quads are accepted, and the scratch buffer is kept unless the host has the length
of an address and five digits in a row where the loop gets to. -/
theorem ip_addr_recognised_iff (host : Bytes) :
    RecognisesQuad host ↔
      ¬ (IP_ADDR_LEN_MIN ≤ host.length ∧ host.length ≤ IP_ADDR_LEN_MAX ∧ LongRun 3 host) := by
  have hempty : (⟨fun _ => 0, []⟩ : Buf).Inside 4 := fun i hi => absurd hi List.not_mem_nil
  by_cases hlen : IP_ADDR_LEN_MIN ≤ host.length ∧ host.length ≤ IP_ADDR_LEN_MAX
  · obtain ⟨hmin, hmax⟩ := hlen
    have haccepts := ipAddrLoop_accepts host (Nat.zero_le 3) (collected_nil ⟨fun _ => 0, []⟩)
    have hinside := ipAddrLoop_inside host (Nat.zero_le 3) (collected_nil ⟨fun _ => 0, []⟩) (Nat.zero_le 4)
      hempty
    rw [RecognisesQuad, hostIsIpAddr_eq hmin hmax, ipAddrEnd_inside, dottedQuad_iff]
    refine ⟨fun h hrun => hinside.mp h.1 hrun.2.2, fun h => ⟨?_, haccepts⟩⟩
    exact hinside.mpr fun hrun => h ⟨hmin, hmax, hrun⟩
  · have hrejects : getfileHostIsIpAddr host = (false, ⟨fun _ => 0, []⟩) := if_pos (by omega)
    rw [RecognisesQuad, hrejects]
    refine iff_of_true ⟨hempty, iff_of_false Bool.false_ne_true fun h => hlen h.length⟩ ?_
    rintro ⟨hmin, hmax, -⟩
    exact hlen ⟨hmin, hmax⟩

/-- The fifth digit goes to `asc[4]`. -/
theorem ip_addr_five_digits : ¬ RecognisesQuad (bytes "12345.7") := by
  rintro ⟨hin, -⟩
  have hfifth := hin 4 (by decide +kernel)
  exact absurd hfifth.2 (by decide)

end IpAddr

end HotCache
