import HotCache.Proofs.Getfile
import HotCache.Spec.RequestLine

/-! What Nginx makes of the request that the client writes. The arguments are read in two states, inside a
word and behind a space; a `#` and a protocol that begins too early decide for good. -/

namespace HotCache

open CStr Scanner

section Args

/-- The bytes that end the arguments or make Nginx refuse them. -/
def breakByte (c : UInt8) : Bool := c = 0 || c = CR || c = LF || c = ch '#'

/-- Arguments that the parser takes as they stand. -/
structure PlainArgs (A : Bytes) : Prop where
  breaks : ∀ c ∈ A, breakByte c = false
  protocol : ¬ bytes " H" <:+: A
  last : A.getLast? ≠ some (ch ' ')

/-- The same along the states of the parser; the flag says that a space has just been read. -/
def plainFrom : Bool → Bytes → Bool
  | sp, [] => !sp
  | sp, c :: A =>
    if c = ch ' ' then plainFrom true A
    else if breakByte c then false
    else if sp ∧ c = ch 'H' then false
    else plainFrom false A

theorem plainArgs_nil : PlainArgs [] := ⟨by simp, by simp [bytes], by simp⟩

theorem plainArgs_cons {c : UInt8} {A : Bytes} (hc : c ≠ ch ' ') (hb : breakByte c = false) :
    PlainArgs (c :: A) ↔ PlainArgs A := by
  have hocc : bytes " H" <:+: c :: A ↔ bytes " H" <:+: A := by
    rw [List.infix_cons_iff]
    refine ⟨fun h => h.resolve_left fun hp => hc ?_, .inr⟩
    obtain ⟨t, ht⟩ := hp
    exact (List.cons.inj ht).1.symm
  have hlast : (c :: A).getLast? = some (ch ' ') ↔ A.getLast? = some (ch ' ') := by
    cases A with
    | nil => simpa using hc
    | cons d A => rw [List.getLast?_cons_cons]
  constructor
  · intro h
    exact ⟨fun x hx => h.breaks x (List.mem_cons_of_mem _ hx), fun hi => h.protocol (hocc.mpr hi),
      fun hl => h.last (hlast.mpr hl)⟩
  · intro h
    refine ⟨fun x hx => ?_, fun hi => h.protocol (hocc.mp hi), fun hl => h.last (hlast.mp hl)⟩
    rcases List.mem_cons.mp hx with rfl | hx
    · exact hb
    · exact h.breaks x hx

theorem plainArgs_space_cons {c : UInt8} {A : Bytes} (hc : c ≠ ch 'H') :
    PlainArgs (ch ' ' :: c :: A) ↔ PlainArgs (c :: A) := by
  have hocc : bytes " H" <:+: ch ' ' :: c :: A ↔ bytes " H" <:+: c :: A := by
    rw [List.infix_cons_iff]
    refine ⟨fun h => h.resolve_left fun hp => hc ?_, .inr⟩
    obtain ⟨t, ht⟩ := hp
    exact (List.cons.inj (List.cons.inj ht).2).1.symm
  constructor
  · intro h
    exact ⟨fun x hx => h.breaks x (List.mem_cons_of_mem _ hx), fun hi => h.protocol (hocc.mpr hi),
      fun hl => h.last (by rw [List.getLast?_cons_cons]; exact hl)⟩
  · intro h
    refine ⟨fun x hx => ?_, fun hi => h.protocol (hocc.mp hi), ?_⟩
    · rcases List.mem_cons.mp hx with rfl | hx
      · decide
      · exact h.breaks x hx
    · rw [List.getLast?_cons_cons]
      exact h.last

theorem not_plainArgs_break {c : UInt8} {A : Bytes} (hb : breakByte c = true) (hc : c ∈ A) : ¬ PlainArgs A := by
  intro h
  have := h.breaks c hc
  rw [hb] at this
  cases this

theorem plainFrom_iff (sp : Bool) (A : Bytes) :
    plainFrom sp A = true ↔ PlainArgs (if sp = true then ch ' ' :: A else A) := by
  induction A generalizing sp with
  | nil =>
    cases sp with
    | false => exact iff_of_true rfl plainArgs_nil
    | true =>
      refine iff_of_false (by simp [plainFrom]) fun h => h.last ?_
      rfl
  | cons c A ih =>
    rw [plainFrom]
    by_cases hspace : c = ch ' '
    · rw [if_pos hspace, ih true, if_pos rfl, hspace]
      cases sp with
      | false => rfl
      | true => exact (plainArgs_space_cons (by decide)).symm
    rw [if_neg hspace]
    by_cases hb : breakByte c = true
    · rw [if_pos hb]
      cases sp with
      | false => exact iff_of_false (by simp) (not_plainArgs_break hb (by simp))
      | true => exact iff_of_false (by simp) (not_plainArgs_break hb (by simp))
    rw [if_neg hb]
    have hcons : PlainArgs (c :: A) ↔ plainFrom false A = true := by
      rw [plainArgs_cons hspace (by simpa using hb), ih false]
      rfl
    cases sp with
    | false => exact hcons.symm
    | true =>
      by_cases hH : c = ch 'H'
      · rw [if_pos ⟨rfl, hH⟩, if_pos rfl, hH]
        exact iff_of_false (by simp) fun h => h.protocol (List.prefix_append _ A).isInfix
      · rw [if_neg (fun h => hH h.2), if_pos rfl, plainArgs_space_cons hH]
        exact hcons.symm

end Args

section Parser

variable {buf A : Bytes} {r : RequestLine} {p : ℕ} {c : UInt8} {sp : Bool}

/-- The state inside a word of the arguments or behind a space. -/
def argsState (sp : Bool) : LineState := if sp = true then .http09 else .uri

theorem swUri_space : swUri r p (ch ' ') = .next { r with uriEnd := p, state := .http09 } := rfl

theorem swUri_line (hc : c = CR ∨ c = LF) : swUri r p c = line09 { r with uriEnd := p } p c := by
  rcases hc with rfl | rfl <;> rfl

theorem swUri_plain (hs : c ≠ ch ' ') (hb : breakByte c = false) : swUri r p c = .next r := by
  simp only [breakByte, Bool.or_eq_false_iff, decide_eq_false_iff_not] at hb
  unfold swUri
  split_ifs with h1 h2 h3 h4
  · rfl
  · exact absurd (h2.elim hb.1.1.2 hb.1.2) not_false
  · exact absurd h3 hb.2
  · exact absurd h4 hb.1.1.1
  · rfl

theorem lineStep_uri (hr : r.state = .uri) : lineStep buf p c r = swUri r p c := by
  simp only [lineStep, hr]

theorem lineStep_http09 (hr : r.state = .http09) :
    lineStep buf p c r = swHttp09 (swUri { r with spaceInUri := true, state := .uri } p c) r p c := by
  simp only [lineStep, hr]

theorem set_state {state : LineState} (hr : r.state = state) : { r with state := state } = r := by
  rw [← hr]

theorem lineStep_space (hr : r.state = argsState sp) :
    lineStep buf p (ch ' ') r = .next { r with uriEnd := if sp = true then r.uriEnd else p, state := .http09 } := by
  cases sp with
  | false => rw [lineStep_uri hr, swUri_space, if_neg (by decide)]
  | true =>
    rw [lineStep_http09 hr, swHttp09, if_pos rfl, if_pos rfl]
    exact congrArg _ (set_state hr).symm

theorem lineStep_word (hr : r.state = argsState sp) (hs : c ≠ ch ' ') (hb : breakByte c = false)
    (hH : ¬ (sp = true ∧ c = ch 'H')) :
    lineStep buf p c r = .next { r with spaceInUri := r.spaceInUri || sp, state := .uri } := by
  cases sp with
  | false =>
    rw [lineStep_uri hr, swUri_plain hs hb, Bool.or_false]
    exact congrArg _ (set_state hr).symm
  | true =>
    have hb' := hb
    simp only [breakByte, Bool.or_eq_false_iff, decide_eq_false_iff_not] at hb'
    have hline : ¬ (c = CR ∨ c = LF) := by
      rintro (h | h)
      · exact hb'.1.1.2 h
      · exact hb'.1.2 h
    rw [lineStep_http09 hr, swHttp09, if_neg hs, if_neg hline, if_neg (fun h => hH ⟨rfl, h⟩), swUri_plain hs hb,
      Bool.or_true]

/-- The parser goes through plain arguments and changes only the end of the uri. -/
theorem args_scanned (buf : Bytes) (hr : r.state = argsState sp) (h : plainFrom sp A = true) :
    ∃ e b, scan lineStep buf A p r =
      .again { r with uriEnd := e, spaceInUri := b, state := .uri } (p + A.length) := by
  induction A generalizing sp r p with
  | nil =>
    cases sp with
    | false =>
      have hset : { r with state := LineState.uri } = r := set_state (show r.state = .uri from hr)
      exact ⟨r.uriEnd, r.spaceInUri, by rw [scan, List.length_nil, Nat.add_zero, hset]⟩
    | true => simp [plainFrom] at h
  | cons c A ih =>
    have hlen : p + (c :: A).length = p + 1 + A.length := by
      rw [List.length_cons]
      omega
    rw [hlen]
    rw [plainFrom] at h
    split_ifs at h with hs hb hH
    · rw [hs, scan_next (lineStep_space hr)]
      exact ih (show LineState.http09 = argsState true from rfl) h
    · rw [scan_next (lineStep_word hr hs (by simpa using hb) hH)]
      exact ih (show LineState.uri = argsState false from rfl) h

def atArgs : RequestLine :=
  { methodEnd := some 2, method := .get, uriStart := 4, argsStart := some 13, state := .uri }

theorem head_scanned (rest : Bytes) :
    scan lineStep (bytes "GET /getfile?" ++ rest) (bytes "GET /getfile?") 0 {} = .again atArgs 13 := by
  have hmethod : scan lineStep (bytes "GET /getfile?" ++ rest) (bytes "GET ") 0 {} =
      .again { methodEnd := some 2, method := .get, state := .spacesBeforeUri } 4 := rfl
  have huri : scan lineStep (bytes "GET /getfile?" ++ rest) (bytes "/getfile?") 4
      { methodEnd := some 2, method := .get, state := .spacesBeforeUri } = .again atArgs 13 := rfl
  have hsplit : bytes "GET /getfile?" = bytes "GET " ++ bytes "/getfile?" := rfl
  rw [← huri, ← scan_append_again hmethod, ← hsplit]

theorem lineStep_end (hr : r.state = .almostDone) (hv : r.httpMajor * 1000 + r.httpMinor ≠ 9) :
    lineStep buf p LF r = .done { r with
      requestEnd := some (p - 1), httpVersion := r.httpMajor * 1000 + r.httpMinor, state := .start } := by
  simp only [lineStep, hr, if_pos, lineDone, Option.getD_some]
  rw [if_neg (fun h => hv h.1)]

theorem tail_scanned (hr : r.state = .uri) (rest : Bytes) :
    scan lineStep buf (bytes " HTTP/1.1\r\n" ++ rest) p r =
      .done { r with
        uriEnd := p, httpProtocol := some (p + 1), httpMajor := 1, httpMinor := 1, httpVersion := 1001
        requestEnd := some (p + 9), state := .start } (p + 10) := by
  have hline : scan lineStep buf (bytes " HTTP/1.1\r") p r = .again { r with
      uriEnd := p, httpProtocol := some (p + 1), httpMajor := 1, httpMinor := 1, state := .almostDone } (p + 10) := by
    obtain ⟨⟩ := r
    subst hr
    rfl
  have hsplit : bytes " HTTP/1.1\r\n" ++ rest = bytes " HTTP/1.1\r" ++ (LF :: rest) := rfl
  rw [hsplit, scan_append_again hline, scan, lineStep_end rfl (by dsimp only; decide)]
  simp

/-- What the parser has found when it takes the arguments as they stand. -/
theorem plain_parsed (h : PlainArgs A) (rest : Bytes) :
    ∃ b, scan lineStep (bytes "GET /getfile?" ++ A ++ bytes " HTTP/1.1\r\n" ++ rest)
        (bytes "GET /getfile?" ++ A ++ bytes " HTTP/1.1\r\n" ++ rest) 0 {} =
      .done { atArgs with
        uriEnd := 13 + A.length, spaceInUri := b, httpProtocol := some (13 + A.length + 1), httpMajor := 1
        httpMinor := 1, httpVersion := 1001, requestEnd := some (13 + A.length + 9), state := .start }
        (13 + A.length + 10) := by
  obtain ⟨e, b, hargs⟩ := args_scanned (r := atArgs) (p := 13)
    (bytes "GET /getfile?" ++ (A ++ (bytes " HTTP/1.1\r\n" ++ rest)))
    (show LineState.uri = argsState false from rfl) ((plainFrom_iff false A).mpr h)
  refine ⟨b, ?_⟩
  rw [List.append_assoc, List.append_assoc, scan_append_again (head_scanned _), scan_append_again hargs,
    tail_scanned rfl]

theorem lineDone_keeps {P Q : RequestLine → Prop}
    (h : Q { r with
      requestEnd := some (r.requestEnd.getD p), httpVersion := r.httpMajor * 1000 + r.httpMinor, state := .start }) :
    (lineDone r p).Keeps P Q := by
  unfold lineDone
  dsimp only
  split_ifs
  · trivial
  · exact h

/-- Nothing takes back that the uri is complex. -/
abbrev IsComplex (r : RequestLine) : Prop := r.complexUri = true

theorem line09_complex (h : IsComplex r) : (line09 r p c).Keeps IsComplex IsComplex := by
  unfold line09
  dsimp only
  split_ifs
  · exact h
  · exact lineDone_keeps h

theorem swHostEnd_complex (h : IsComplex r) : (swHostEnd r p c).Keeps IsComplex IsComplex := by
  unfold swHostEnd
  dsimp only
  split_ifs <;> first | exact h | trivial

theorem swHost_complex (h : IsComplex r) : (swHost r p c).Keeps IsComplex IsComplex := by
  unfold swHost
  split_ifs
  · exact h
  · exact h
  · exact swHostEnd_complex h

theorem swCheckUri_complex (h : IsComplex r) : (swCheckUri r p c).Keeps IsComplex IsComplex := by
  unfold swCheckUri
  split_ifs <;> first | exact h | trivial | exact line09_complex h

theorem swUri_complex (h : IsComplex r) : (swUri r p c).Keeps IsComplex IsComplex := by
  unfold swUri
  split_ifs <;> first | exact h | trivial | exact line09_complex h

theorem swHttp09_complex {back : LineStep} (h : IsComplex r) (hback : back.Keeps IsComplex IsComplex) :
    (swHttp09 back r p c).Keeps IsComplex IsComplex := by
  unfold swHttp09
  split_ifs
  · exact h
  · exact line09_complex h
  · exact h
  · exact hback

theorem swExpect_keeps {P Q : RequestLine → Prop} {want : UInt8} {state : LineState}
    (h : P { r with state := state }) : (swExpect c want r state).Keeps P Q := by
  unfold swExpect
  split_ifs
  · exact h
  · trivial

theorem lineStep_complex (h : IsComplex r) : (lineStep buf p c r).Keeps IsComplex IsComplex := by
  unfold lineStep
  cases r.state with
  | schemaSlash | schemaSlashSlash | httpH | httpHT | httpHTT | httpHTTP => exact swExpect_keeps h
  | host => exact swHost_complex h
  | hostStart =>
    dsimp only
    split_ifs
    · exact h
    · exact swHost_complex h
  | hostEnd => exact swHostEnd_complex h
  | hostHttp09 => exact swHttp09_complex h trivial
  | checkUri => exact swCheckUri_complex h
  | checkUriHttp09 => exact swHttp09_complex h (swCheckUri_complex h)
  | uri => exact swUri_complex h
  | http09 => exact swHttp09_complex h (swUri_complex h)
  | afterSlashInUri => repeat' first | exact line09_complex h | apply Step.Keeps.ite | exact h | trivial
  | _ => repeat' first | exact lineDone_keeps h | apply Step.Keeps.ite | exact h | trivial

/-- The states behind the uri that do not lead back to it. -/
def behindUri : LineState → Bool
  | .httpH | .httpHT | .httpHTT | .httpHTTP | .firstMajorDigit | .majorDigit | .firstMinorDigit | .minorDigit
  | .spacesAfterDigit | .almostDone => true
  | _ => false

variable {a n : ℕ}

/-- The arguments begin at `a` and end before `n`. -/
def EndsBefore (a n : ℕ) (r : RequestLine) : Prop := r.argsStart = some a ∧ r.uriEnd < n

/-- The parser will not take the arguments from `a` to `n` as they stand. -/
def Decided (a n : ℕ) (r : RequestLine) : Prop :=
  IsComplex r ∨ (EndsBefore a n r ∧ behindUri r.state = true)

def Lost (a n : ℕ) (r : RequestLine) : Prop := IsComplex r ∨ EndsBefore a n r

theorem lineStep_behind (h : EndsBefore a n r) (hs : behindUri r.state = true) :
    (lineStep buf p c r).Keeps (Decided a n) (Lost a n) := by
  unfold lineStep
  cases hstate : r.state with
  | httpH | httpHT | httpHTT | httpHTTP => exact swExpect_keeps (.inr ⟨h, rfl⟩)
  | firstMajorDigit | majorDigit | firstMinorDigit | minorDigit | spacesAfterDigit | almostDone =>
    repeat' first
      | exact lineDone_keeps (.inr h) | apply Step.Keeps.ite | exact .inr ⟨h, rfl⟩ | exact .inr ⟨h, hs⟩ | trivial
  | _ =>
    rw [hstate] at hs
    cases hs

theorem lineStep_decided (p : ℕ) (c : UInt8) (r : RequestLine) (h : Decided a n r) :
    (lineStep buf p c r).Keeps (Decided a n) (Lost a n) := by
  rcases h with h | ⟨h, hs⟩
  · exact (lineStep_complex h).mono (fun _ => .inl) fun _ => .inl
  · exact lineStep_behind h hs

theorem line09_decided (h : EndsBefore a n r) : (line09 r p c).Keeps (Decided a n) (Lost a n) := by
  unfold line09
  dsimp only
  split_ifs
  · exact .inr ⟨h, rfl⟩
  · exact lineDone_keeps (.inr h)

theorem lineStep_break (hr : r.state = argsState sp) (ha : r.argsStart = some a)
    (hend : sp = true → r.uriEnd < p) (hb : breakByte c = true) (hn : p < n) :
    (lineStep buf p c r).Keeps (Decided a n) (Lost a n) := by
  have huri (r : RequestLine) (ha : r.argsStart = some a) : (swUri r p c).Keeps (Decided a n) (Lost a n) := by
    simp only [breakByte, Bool.or_eq_true, decide_eq_true_eq] at hb
    rcases hb with ((rfl | rfl) | rfl) | rfl
    · exact trivial
    · rw [swUri_line (.inl rfl)]
      exact line09_decided ⟨ha, hn⟩
    · rw [swUri_line (.inr rfl)]
      exact line09_decided ⟨ha, hn⟩
    · exact .inl rfl
  cases sp with
  | false =>
    rw [lineStep_uri hr]
    exact huri r ha
  | true =>
    have hbefore : EndsBefore a n r := ⟨ha, (hend rfl).trans hn⟩
    rw [lineStep_http09 hr]
    unfold swHttp09
    split_ifs with h1 h2 h3
    · exact absurd (h1 ▸ hb) (by decide)
    · exact line09_decided hbefore
    · exact .inr ⟨hbefore, rfl⟩
    · exact huri _ ha

theorem lineStep_protocol (hr : r.state = .http09) (h : EndsBefore a n r) :
    (lineStep buf p (ch 'H') r).Keeps (Decided a n) (Lost a n) := by
  rw [lineStep_http09 hr]
  exact .inr ⟨h, rfl⟩

theorem args_refused {rest : Bytes} (hr : r.state = argsState sp) (ha : r.argsStart = some a)
    (hend : sp = true → r.uriEnd < p) (h : plainFrom sp A = false) :
    (scan lineStep buf (A ++ (bytes " H" ++ rest)) p r).Ends (Lost a (p + A.length)) := by
  induction A generalizing sp r p with
  | nil =>
    cases sp with
    | false => simp [plainFrom] at h
    | true =>
      have hsplit : [] ++ (bytes " H" ++ rest) = ch ' ' :: ch 'H' :: rest := rfl
      rw [hsplit, scan_next (lineStep_space hr), if_pos rfl]
      exact scan_cons_ends lineStep_decided (lineStep_protocol rfl ⟨ha, hend rfl⟩)
  | cons c A ih =>
    have hlen : p + (c :: A).length = p + 1 + A.length := by
      rw [List.length_cons]
      omega
    rw [hlen, List.cons_append]
    rw [plainFrom] at h
    split_ifs at h with hs hb hH
    · rw [hs, scan_next (lineStep_space hr)]
      refine ih (show LineState.http09 = argsState true from rfl) ha (fun _ => ?_) h
      dsimp only
      split_ifs with hsp
      · exact (hend hsp).trans (Nat.lt_succ_self p)
      · exact Nat.lt_succ_self p
    · exact scan_cons_ends lineStep_decided (lineStep_break hr ha hend hb (by omega))
    · obtain ⟨rfl, rfl⟩ := hH
      exact scan_cons_ends lineStep_decided (lineStep_protocol hr ⟨ha, (hend rfl).trans (by omega)⟩)
    · rw [scan_next (lineStep_word hr hs (by simpa using hb) hH)]
      exact ih (show LineState.uri = argsState false from rfl) ha (by simp) h

theorem methodText_extend (buf more : Bytes) {i p : ℕ} (hp : p < buf.length) :
    ((buf ++ more).drop i).take (p - i) = (buf.drop i).take (p - i) := by
  rcases le_total i buf.length with hi | hi
  · rw [List.drop_append_of_le_length hi, List.take_append_of_le_length]
    rw [List.length_drop]
    omega
  · rw [show p - i = 0 by omega, List.take_zero, List.take_zero]

theorem lineStep_looksBack : LooksBack lineStep := by
  intro buf more p c r hp
  unfold lineStep
  rw [methodText_extend buf more hp]

theorem processRequestLine_eq (pieces : List Bytes) :
    ngxHttpProcessRequestLine pieces = scan lineStep pieces.flatten pieces.flatten 0 {} :=
  feed_eq lineStep_looksBack pieces

end Parser

section Request

/-- Nginx has read the request as a GET for `/getfile` with the arguments `args`. -/
def ReadsArgs (pieces : List Bytes) (args : NgxStr) : Prop :=
  ∃ r pos, ngxHttpProcessRequestLine pieces = .done r pos ∧ r.method = .get ∧ r.httpVersion = 1001 ∧
    ngxHttpProcessRequestUri pieces.flatten r = .plain (bytes "/getfile") args

/-- The same with the text `A`, which stands in the buffer with what follows it. -/
def ReadAs (pieces : List Bytes) (A : Bytes) : Prop := ∃ args, ReadsArgs pieces args ∧ args.text = A

/-- A url and a local path that the request line can carry. -/
structure Sendable (url lp : Bytes) : Prop where
  breaks : ∀ c ∈ url ++ lp, c ≠ 0 ∧ c ≠ CR ∧ c ≠ LF ∧ c ≠ ch '#'
  urlProtocol : ¬ bytes " H" <:+: url
  pathProtocol : ¬ bytes " H" <:+: lp
  pathEnd : lp.getLast? ≠ some (ch ' ')

theorem breakByte_eq_false {c : UInt8} :
    breakByte c = false ↔ c ≠ 0 ∧ c ≠ CR ∧ c ≠ LF ∧ c ≠ ch '#' := by
  simp only [breakByte, Bool.or_eq_false_iff, decide_eq_false_iff_not]
  tauto

theorem plainArgs_getfileArgs (url lp : Bytes) : PlainArgs (getfileArgs url lp) ↔ Sendable url lp := by
  have hkey : ∀ c ∈ (if ch '?' ∈ url then ch '&' else ch '?') :: bytes "localpath=",
      breakByte c = false ∧ c ≠ ch ' ' := by
    split_ifs <;> decide +kernel
  have hargs : getfileArgs url lp =
      url ++ (((if ch '?' ∈ url then ch '&' else ch '?') :: bytes "localpath=") ++ lp) := by
    rw [getfileArgs, List.cons_append]
  have hlast : (getfileArgs url lp).getLast? = some (ch ' ') ↔ lp.getLast? = some (ch ' ') := by
    have hequal : ((if ch '?' ∈ url then ch '&' else ch '?') :: bytes "localpath=").getLast? = some (ch '=') := by
      split_ifs <;> rfl
    rw [hargs, List.getLast?_append, List.getLast?_append, hequal]
    cases lp.getLast? with
    | none => simp [show ch '=' ≠ ch ' ' by decide]
    | some x => rfl
  constructor
  · intro h
    refine ⟨fun c hc => breakByte_eq_false.mp (h.breaks c ?_), fun hi => h.protocol ?_, fun hi => h.protocol ?_,
      fun hl => h.last (hlast.mpr hl)⟩
    · rw [hargs]
      rcases List.mem_append.mp hc with hc | hc
      · exact List.mem_append_left _ hc
      · exact List.mem_append_right _ (List.mem_append_right _ hc)
    · rw [hargs]
      exact hi.trans (List.prefix_append _ _).isInfix
    · rw [hargs, ← List.append_assoc]
      exact hi.trans (List.suffix_append _ _).isInfix
  · intro h
    refine ⟨fun c hc => ?_, ?_, fun hl => h.pathEnd (hlast.mp hl)⟩
    · rw [hargs] at hc
      rcases List.mem_append.mp hc with hc | hc
      · exact breakByte_eq_false.mpr (h.breaks c (List.mem_append_left _ hc))
      · rcases List.mem_append.mp hc with hc | hc
        · exact (hkey c hc).1
        · exact breakByte_eq_false.mpr (h.breaks c (List.mem_append_right _ hc))
    · have hpath : ¬ bytes " H" <:+: bytes "localpath" ++ ch '=' :: lp :=
        not_infix_separated (by decide) (by decide +kernel) h.pathProtocol
      rw [getfileArgs]
      refine not_infix_separated ?_ h.urlProtocol hpath
      split_ifs <;> decide

theorem processRequestUri_plain (A rest : Bytes) {r : RequestLine} (huri : r.uriStart = 4)
    (hargs : r.argsStart = some 13) (hend : r.uriEnd = 13 + A.length) (hc : r.complexUri = false)
    (hq : r.quotedUri = false) :
    ngxHttpProcessRequestUri (bytes "GET /getfile?" ++ A ++ rest) r =
      .plain (bytes "/getfile") (if A = [] then ⟨[], 0⟩ else ⟨A ++ rest, A.length⟩) := by
  have hdrop : (bytes "GET /getfile?" ++ A ++ rest).drop 13 = A ++ rest := by
    rw [List.append_assoc]
    exact List.drop_left' rfl
  have htake : ((bytes "GET /getfile?" ++ A ++ rest).drop 4).take 8 = bytes "/getfile" := rfl
  simp only [ngxHttpProcessRequestUri, huri, hargs, hend, hc, hq, hdrop, Bool.false_eq_true, or_self, if_false]
  rw [htake]
  cases A with
  | nil => rfl
  | cons c A => simp

/-- Arguments that the parser has lost are part of `A`, and not all of it. -/
theorem lost_args {A rest uri : Bytes} {r : RequestLine} {args : NgxStr} (h : Lost 13 (13 + A.length) r)
    (huri : ngxHttpProcessRequestUri (bytes "GET /getfile?" ++ (A ++ rest)) r = .plain uri args) :
    args.text <+: A ∧ (args.text = A → A = []) := by
  unfold ngxHttpProcessRequestUri at huri
  rcases h with h | ⟨hstart, hend⟩
  · rw [IsComplex] at h
    simp [h] at huri
  · simp only [hstart] at huri
    split_ifs at huri with hplain hpos
    · obtain ⟨-, rfl⟩ := RequestUri.plain.inj huri
      have hdrop : (bytes "GET /getfile?" ++ (A ++ rest)).drop 13 = A ++ rest := List.drop_left' rfl
      have hle : r.uriEnd - 13 < A.length := by omega
      simp only [NgxStr.text, hdrop]
      rw [List.take_append_of_le_length hle.le]
      refine ⟨List.take_prefix _ _, fun htext => ?_⟩
      have hlen := congrArg List.length htext
      rw [List.length_take] at hlen
      omega
    · obtain ⟨-, rfl⟩ := RequestUri.plain.inj huri
      exact ⟨List.nil_prefix, fun htext => htext.symm⟩

/-- A request with other arguments than plain ones is refused, or part of them is lost. -/
theorem request_lost {pieces : List Bytes} {A rest : Bytes} {r : RequestLine} {pos : ℕ}
    (hpieces : pieces.flatten = bytes "GET /getfile?" ++ A ++ bytes " HTTP/1.1\r\n" ++ rest)
    (hplain : ¬ PlainArgs A) (hdone : ngxHttpProcessRequestLine pieces = .done r pos) :
    Lost 13 (13 + A.length) r := by
  have hfrom : plainFrom false A = false := by
    by_contra h
    exact hplain ((plainFrom_iff false A).mp (by simpa using h))
  have hsplit : bytes "GET /getfile?" ++ A ++ bytes " HTTP/1.1\r\n" ++ rest =
      bytes "GET /getfile?" ++ (A ++ (bytes " H" ++ (bytes "TTP/1.1\r\n" ++ rest))) := by
    have htail : bytes " HTTP/1.1\r\n" = bytes " H" ++ bytes "TTP/1.1\r\n" := rfl
    rw [htail]
    simp only [List.append_assoc]
  rw [processRequestLine_eq, hpieces, hsplit, scan_append_again (head_scanned _)] at hdone
  exact args_refused (r := atArgs) (p := 13) (show LineState.uri = argsState false from rfl) rfl (by simp)
    hfrom r pos hdone

/-- A request with plain arguments is taken as it stands. -/
theorem request_read {pieces : List Bytes} {A rest : Bytes}
    (hpieces : pieces.flatten = bytes "GET /getfile?" ++ A ++ bytes " HTTP/1.1\r\n" ++ rest)
    (hplain : PlainArgs A) (hne : A ≠ []) :
    ∃ r pos, ngxHttpProcessRequestLine pieces = .done r pos ∧ r.method = .get ∧ r.httpVersion = 1001 ∧
      r.argsStart = some 13 ∧ ngxHttpProcessRequestUri pieces.flatten r =
        .plain (bytes "/getfile") ⟨A ++ (bytes " HTTP/1.1\r\n" ++ rest), A.length⟩ := by
  obtain ⟨b, hscan⟩ := plain_parsed hplain rest
  have huri := processRequestUri_plain A (bytes " HTTP/1.1\r\n" ++ rest) (r := { atArgs with
    uriEnd := 13 + A.length, spaceInUri := b, httpProtocol := some (13 + A.length + 1), httpMajor := 1
    httpMinor := 1, httpVersion := 1001, requestEnd := some (13 + A.length + 9), state := .start })
    rfl rfl rfl rfl rfl
  rw [← List.append_assoc, if_neg hne] at huri
  rw [processRequestLine_eq, hpieces]
  exact ⟨_, _, hscan, rfl, rfl, rfl, huri⟩

/-- In whatever pieces the request arrives, Nginx reads it as it was meant exactly when the arguments are
plain. -/
theorem readAs_iff {pieces : List Bytes} {A rest : Bytes}
    (hpieces : pieces.flatten = bytes "GET /getfile?" ++ A ++ bytes " HTTP/1.1\r\n" ++ rest) (hne : A ≠ []) :
    ReadAs pieces A ↔ PlainArgs A := by
  constructor
  · rintro ⟨args, ⟨r, pos, hdone, -, -, huri⟩, htext⟩
    by_contra hplain
    rw [hpieces, List.append_assoc, List.append_assoc] at huri
    exact hne ((lost_args (request_lost hpieces hplain hdone) huri).2 htext)
  · intro hplain
    obtain ⟨r, pos, hdone, hmethod, hversion, -, huri⟩ := request_read hpieces hplain hne
    exact ⟨_, ⟨r, pos, hdone, hmethod, hversion, huri⟩, List.take_left⟩

theorem getfileArgs_ne_nil (url lp : Bytes) : getfileArgs url lp ≠ [] := by
  rw [getfileArgs]
  exact List.append_ne_nil_of_right_ne_nil _ (List.cons_ne_nil _ _)

/-- The request of the client arrives in any pieces. Nginx reads out of it the url and the local path that
the client has put in exactly when neither has a byte that ends the line or the uri, or a space before an
`H`, and the path does not end in a space. -/
theorem request_read_iff (ip url lp req : Bytes) (len : ℕ) (pieces : List Bytes)
    (hbuild : scNgxBuildGet ip url lp len = some req) (hpieces : pieces.flatten = req) :
    ReadAs pieces (getfileArgs url lp) ↔ Sendable url lp := by
  rw [← plainArgs_getfileArgs]
  exact readAs_iff (hpieces.trans (scNgxBuildGet_eq_some hbuild).1) (getfileArgs_ne_nil url lp)

/-- A url with a space in it is read as it stands; with ` H` in it Nginx sees the protocol too early. -/
theorem request_read_spaces :
    (∃ req, scNgxBuildGet SC_NGX_DEFAULT_IP_ADDR (bytes "f.youku.com/a b.flv") (bytes "f_youku_com/a b.flv")
        BUFFER_LEN = some req ∧
      ReadAs [req.take 20, req.drop 20]
        (getfileArgs (bytes "f.youku.com/a b.flv") (bytes "f_youku_com/a b.flv"))) ∧
    ∃ req, scNgxBuildGet SC_NGX_DEFAULT_IP_ADDR (bytes "f.youku.com/a HD.flv") (bytes "f_youku_com/a HD.flv")
        BUFFER_LEN = some req ∧
      ¬ ReadAs [req] (getfileArgs (bytes "f.youku.com/a HD.flv") (bytes "f_youku_com/a HD.flv")) := by
  refine ⟨⟨_, rfl, ?_⟩, _, rfl, ?_⟩
  · refine (request_read_iff SC_NGX_DEFAULT_IP_ADDR _ _ _ BUFFER_LEN _ rfl (by simp)).mpr ⟨?_, ?_, ?_, ?_⟩
    · decide +kernel
    · decide +kernel
    · decide +kernel
    · decide +kernel
  · intro h
    have hsend := (request_read_iff SC_NGX_DEFAULT_IP_ADDR _ _ _ BUFFER_LEN _ rfl (by simp)).mp h
    exact hsend.urlProtocol (by decide +kernel)

end Request

end HotCache
