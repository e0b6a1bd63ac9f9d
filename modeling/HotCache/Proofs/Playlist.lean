import HotCache.Proofs.Survive

/-! The playlist parser reads every well-formed response back. The grammar of the responses is a
structure with the parts that the parser has to find; each loop of the parser is followed over the
text of its list. -/

namespace HotCache

open CStr

inductive YkType
  | flv | mp4 | hd2 | hd3
  deriving DecidableEq, Repr

def YkType.name : YkType → Bytes
  | .flv => bytes "flv"
  | .mp4 => bytes "mp4"
  | .hd2 => bytes "hd2"
  | .hd3 => bytes "hd3"

/-- A segment of the response; `quoted` says whether its seconds stand in quotes. -/
structure Segment where
  no : Bytes
  size : Bytes
  seconds : Bytes
  k : Bytes
  k2 : Bytes
  quoted : Bool

structure Playlist where
  pre : Bytes
  seed : Bytes
  mid : Bytes
  streams : List (YkType × Bytes)
  segs : List (YkType × List Segment)
  rest : Bytes

section Text

def commaSep (l : List Bytes) : Bytes := (bytes ",").intercalate l

def Segment.secondsText (s : Segment) : Bytes :=
  if s.quoted then bytes "\"" ++ s.seconds ++ bytes "\"" else s.seconds

def Segment.text (s : Segment) : Bytes :=
  bytes "\x7b\"no\":\"" ++ s.no ++ bytes "\",\"size\":\"" ++ s.size ++ bytes "\",\"seconds\":" ++
    s.secondsText ++ bytes ",\"k\":\"" ++ s.k ++ bytes "\",\"k2\":\"" ++ s.k2 ++ bytes "\"\x7d"

def streamText (e : YkType × Bytes) : Bytes :=
  bytes "\"" ++ e.1.name ++ bytes "\":\"" ++ e.2 ++ bytes "\""

def segsText (e : YkType × List Segment) : Bytes :=
  bytes "\"" ++ e.1.name ++ bytes "\":[" ++ commaSep (e.2.map Segment.text) ++ bytes "]"

def Playlist.text (p : Playlist) : Bytes :=
  p.pre ++ bytes "\"seed\":" ++ p.seed ++ bytes "," ++
    p.mid ++ bytes "streamfileids\":\x7b" ++ commaSep (p.streams.map streamText) ++
    bytes "\x7d,\"segs\":\x7b" ++ commaSep (p.segs.map segsText) ++ bytes "\x7d,\"st" ++ p.rest

end Text

section WellFormed

structure Number (n : ℕ) (ds : Bytes) : Prop where
  pos : ds ≠ []
  short : ds.length ≤ n
  digits : ∀ c ∈ ds, digit c = true

structure Key (k : Bytes) : Prop where
  short : k.length ≤ 31
  quote : ch '"' ∉ k
  brace : ch '\x7d' ∉ k
  bracket : ch ']' ∉ k

structure Segment.WellFormed (s : Segment) : Prop where
  no : Number 9 s.no
  size : Number 9 s.size
  seconds : Number 9 s.seconds
  k : Key s.k
  k2 : Key s.k2
  short : s.text.length < SEG_INFO_LEN

structure Playlist.WellFormed (p : Playlist) : Prop where
  pre : ¬ bytes "seed" <:+: p.pre
  seed : Number 7 p.seed
  mid : ¬ bytes "streamfileids" <:+: p.mid
  quote : p.mid.getLast? = some (ch '"')
  streams : p.streams ≠ [] ∧ p.streams.length ≤ 4 ∧ (p.streams.map Prod.fst).Nodup
  ids : ∀ e ∈ p.streams, e.2.length < STREAM_FILE_IDS_LEN ∧ ch '"' ∉ e.2
  segs : p.segs ≠ [] ∧ p.segs.length ≤ 4 ∧ (p.segs.map Prod.fst).Nodup
  listed : ∀ e ∈ p.segs, e.1 ∈ p.streams.map Prod.fst
  segments : ∀ e ∈ p.segs, e.2 ≠ [] ∧ ∀ s ∈ e.2, s.WellFormed
  -- the response is a string
  nul : 0 ∉ p.text

end WellFormed

section Table

def Segment.info (i : ℕ) (s : Segment) : SegmentInfo where
  stream := some i
  no := digitsValue s.no
  size := digitsValue s.size
  seconds := digitsValue s.seconds
  k := s.k
  k2 := s.k2

def segsTable (l : List SegmentInfo) : List (Option SegmentInfo) :=
  l.map some ++ List.replicate (STREAM_SEGS_MAX - l.length) none

def segsOf (segs : List (YkType × List Segment)) (t : YkType) : List Segment :=
  (segs.lookup t).getD []

def streamRecord (seed : ℤ) (segs : List (YkType × List Segment)) (i : ℕ) (e : YkType × Bytes) :
    StreamInfo where
  type := e.1.name
  streamfileids := e.2
  seed := seed
  segs := segsTable ((segsOf segs e.1).map (Segment.info i))

/-- The streams in the order of the response, with the segments listed in `segs`. -/
def streamTable (seed : ℤ) (streams : List (YkType × Bytes)) (segs : List (YkType × List Segment)) :
    List StreamInfo :=
  streams.mapIdx (streamRecord seed segs)

def Playlist.table (p : Playlist) : List StreamInfo :=
  streamTable (digitsValue p.seed) p.streams p.segs

end Table

section Segments

theorem seek_skip {a t gap r : Bytes} {c : UInt8} {k : ℕ} (hc : t.head? = some c) (ha : 0 ∉ a)
    (hca : c ∉ a) (hk : (t ++ gap).length = k) : seek t k (a ++ (t ++ (gap ++ r))) = some r := by
  simp only [seek, find_skip hc ha hca, Option.bind_eq_bind, Option.bind_some]
  rw [← List.append_assoc]
  exact advance_append hk

theorem copyField {n : ℕ} {v r : Bytes} (hv : ch '"' ∉ v) (hn : v.length ≤ n) :
    copyWhile unquoted n (v ++ ch '"' :: r) = some (v, ch '"' :: r) :=
  copyWhile_append (ne_of_notMem hv) hn (by decide)

theorem Number.quote {n : ℕ} {ds : Bytes} (h : Number n ds) : ch '"' ∉ ds :=
  fun hq => absurd (h.digits _ hq) (by decide)

/-- A number before a quote, with or without a comma between them. -/
theorem readValue_number {ds x r : Bytes} (h : Number 9 ds) (hx : x = [] ∨ x = [ch ',']) :
    readValue (ds ++ x ++ ch '"' :: r) = some ((digitsValue ds : ℤ), ch '"' :: r) := by
  have hlt : digitsValue ds < 2 ^ 31 := by
    have hle : 10 ^ ds.length ≤ 10 ^ 9 := Nat.pow_le_pow_right (by decide) h.short
    have := digitsValue_lt h.digits
    omega
  have hquote : ch '"' ∉ ds ++ x := by
    rcases hx with rfl | rfl
    · simpa using h.quote
    · simp only [List.mem_append, List.mem_singleton, not_or]
      exact ⟨h.quote, by decide⟩
  have hlen : (ds ++ x).length ≤ 10 := by
    have := h.short
    rcases hx with rfl | rfl <;> simp only [List.length_append, List.length_nil,
      List.length_singleton] <;> omega
  have hatoi : atoi (ds ++ x ++ List.replicate (VALUE_LEN - (ds ++ x).length) 0) =
      some (digitsValue ds : ℤ) := by
    obtain ⟨n, hn⟩ : ∃ n, VALUE_LEN - (ds ++ x).length = n + 1 :=
      Nat.exists_eq_add_one.mpr (by unfold VALUE_LEN; omega)
    rw [hn, List.replicate_succ, List.append_assoc]
    rcases hx with rfl | rfl
    · exact atoi_digits h.pos h.digits (by decide) hlt
    · exact atoi_digits h.pos h.digits (by decide) hlt
  have hcopy := copyField (r := r) hquote (hlen.trans (by decide : 10 ≤ VALUE_LEN))
  simp only [readValue, hcopy, hatoi, Option.bind_eq_bind, Option.bind_some]
  rfl

theorem readValue_quoted {ds r : Bytes} (h : Number 9 ds) :
    readValue (ds ++ ch '"' :: r) = some ((digitsValue ds : ℤ), ch '"' :: r) := by
  simpa using readValue_number (r := r) h (.inl rfl)

/-- A field of a segment after the first, from the comma on. -/
def fieldText (name gap v r : Bytes) : Bytes := bytes ",\"" ++ (name ++ (gap ++ (v ++ r)))

theorem seek_field {name gap v r : Bytes} {c : UInt8} {k : ℕ} (hc : name.head? = some c)
    (hne : c ∉ bytes "\",\"") (hk : (name ++ gap).length = k) :
    seek name k (ch '"' :: fieldText name gap v r) = some (v ++ r) :=
  seek_skip (a := bytes "\",\"") hc (by decide) hne hk

/-- A segment up to its last quote, as the parser takes it apart. -/
def Segment.fields (s : Segment) (r : Bytes) : Bytes :=
  bytes "\x7b\"" ++ (bytes "no" ++ (bytes "\":\"" ++ (s.no ++ (ch '"' ::
    fieldText (bytes "size") (bytes "\":\"") s.size (ch '"' ::
      fieldText (bytes "seconds") (bytes "\":") s.secondsText
        (fieldText (bytes "k") (bytes "\":\"") s.k (ch '"' ::
          fieldText (bytes "k2") (bytes "\":\"") s.k2 (ch '"' :: r))))))))

theorem Segment.fields_append (s : Segment) (r r' : Bytes) :
    s.fields (r ++ r') = s.fields r ++ r' := by
  simp [Segment.fields, fieldText]

theorem Segment.text_eq (s : Segment) : s.text = s.fields [] ++ [ch '\x7d'] := by
  rw [← Segment.fields_append]
  simp [Segment.text, Segment.fields, fieldText, bytes]

theorem Segment.WellFormed.notMem_fields {s : Segment} (h : s.WellFormed) {c : UInt8}
    (hc : c = ch '\x7d' ∨ c = ch ']') : c ∉ s.fields [] := by
  have hdigits : ∀ ds, Number 9 ds → c ∉ ds := by
    intro ds hds hmem
    have := hds.digits c hmem
    rcases hc with rfl | rfl <;> exact absurd this (by decide)
  have hk : ∀ k, Key k → c ∉ k := by
    intro k hk
    rcases hc with rfl | rfl
    · exact hk.brace
    · exact hk.bracket
  have hsec : c ∉ s.secondsText := by
    have hsec := hdigits _ h.seconds
    have hq : c ∉ bytes "\"" := by rcases hc with rfl | rfl <;> decide
    unfold Segment.secondsText
    split_ifs
    · simp [hq, hsec]
    · exact hsec
  have hlit : c ∉ bytes "\x7b\"" ∧ c ∉ bytes "no" ∧ c ∉ bytes "\":\"" ∧ c ∉ bytes ",\"" ∧
      c ∉ bytes "size" ∧ c ∉ bytes "seconds" ∧ c ∉ bytes "\":" ∧ c ∉ bytes "k" ∧ c ∉ bytes "k2" ∧
      c ≠ ch '"' := by
    rcases hc with rfl | rfl <;> decide
  simp [Segment.fields, fieldText, hlit, hdigits _ h.no, hdigits _ h.size, hsec, hk _ h.k,
    hk _ h.k2]

theorem readSeconds {s : Segment} (h : Number 9 s.seconds) (r : Bytes) :
    ∃ a, 0 ∉ a ∧ ch 'k' ∉ a ∧
      readValue (if (s.secondsText ++ (bytes ",\"" ++ r)).head? = some (ch '"')
        then (s.secondsText ++ (bytes ",\"" ++ r)).tail else s.secondsText ++ (bytes ",\"" ++ r)) =
        some ((digitsValue s.seconds : ℤ), a ++ r) := by
  unfold Segment.secondsText
  by_cases hq : s.quoted = true
  · refine ⟨bytes "\",\"", by decide, by decide, ?_⟩
    rw [if_pos hq]
    have hval := readValue_number (r := bytes ",\"" ++ r) h (.inl rfl)
    simpa [bytes] using hval
  · refine ⟨bytes "\"", by decide, by decide, ?_⟩
    rw [if_neg hq]
    have hval := readValue_number (r := r) h (.inr rfl)
    obtain ⟨d, ds, hd⟩ := List.exists_cons_of_ne_nil h.pos
    have hne : d ≠ ch '"' := by
      rintro rfl
      exact h.quote (by rw [hd]; simp)
    simpa [bytes, hd, hne] using hval

theorem ykCreateSegmentInfo_fields {s : Segment} (h : s.WellFormed) (r : Bytes) :
    ykCreateSegmentInfo (s.fields r) =
      some { no := digitsValue s.no, size := digitsValue s.size, seconds := digitsValue s.seconds,
             k := s.k, k2 := s.k2 } := by
  have hno : ∀ x, seek (bytes "no") 5 (bytes "\x7b\"" ++ (bytes "no" ++ (bytes "\":\"" ++ x))) =
      some x := fun x => seek_skip (c := ch 'n') rfl (by decide) (by decide) rfl
  have hsize : ∀ v x, seek (bytes "size") 7
      (ch '"' :: fieldText (bytes "size") (bytes "\":\"") v x) = some (v ++ x) :=
    fun v x => seek_field (c := ch 's') rfl (by decide) rfl
  have hseconds : ∀ v x, seek (bytes "seconds") 9
      (ch '"' :: fieldText (bytes "seconds") (bytes "\":") v x) = some (v ++ x) :=
    fun v x => seek_field (c := ch 's') rfl (by decide) rfl
  have hk2 : ∀ v x, seek (bytes "k2") 5 (ch '"' :: fieldText (bytes "k2") (bytes "\":\"") v x) =
      some (v ++ x) := fun v x => seek_field (c := ch 'k') rfl (by decide) rfl
  unfold ykCreateSegmentInfo Segment.fields
  simp only [hno, readValue_quoted h.no, hsize, readValue_quoted h.size, hseconds,
    Option.bind_eq_bind, Option.bind_some]
  -- the seconds end at a quote that stands before the next field or in it
  obtain ⟨a, ha, hka, hsec⟩ := readSeconds h.seconds (bytes "k" ++ (bytes "\":\"" ++
    (s.k ++ (ch '"' :: fieldText (bytes "k2") (bytes "\":\"") s.k2 (ch '"' :: r)))))
  have hk : ∀ x, seek (bytes "k") 4 (a ++ (bytes "k" ++ (bytes "\":\"" ++ x))) = some x :=
    fun x => seek_skip (c := ch 'k') rfl ha hka rfl
  have hk_short : s.k.length ≤ SEGMENT_K_LEN := h.k.short.trans (by decide)
  have hk2_short : s.k2.length ≤ SEGMENT_K2_LEN := h.k2.short.trans (by decide)
  rw [fieldText, hsec]
  simp only [hk, Option.bind_some, copyField h.k.quote hk_short, hk2, copyField h.k2.quote hk2_short]
  rfl

theorem segsTable_set {done : List SegmentInfo} (h : done.length < STREAM_SEGS_MAX)
    (x : SegmentInfo) :
    (segsTable done).set done.length (some x) = segsTable (done ++ [x]) := by
  obtain ⟨n, hn⟩ : ∃ n, STREAM_SEGS_MAX - done.length = n + 1 :=
    Nat.exists_eq_add_one.mpr (by omega)
  have hlen : STREAM_SEGS_MAX - (done ++ [x]).length = n := by
    rw [List.length_append, List.length_singleton]
    omega
  unfold segsTable
  rw [hn, hlen, List.set_append_right _ _ (by simp), List.replicate_succ]
  simp

theorem segsDoLoop_round {i stop fuel n : ℕ} {s : Segment} {x : UInt8} {r : Bytes}
    {stream : StreamInfo} (h : s.WellFormed) (hstop : stop < (s.text ++ x :: r).length)
    (hn : n + 1 < STREAM_SEGS_MAX) :
    segsDoLoop i stop (fuel + 1) (s.text ++ x :: r) n stream =
      segsDoLoop i stop fuel r (n + 1)
        { stream with segs := stream.segs.set n (some (s.info i)) } := by
  have hlen := h.short
  rw [s.text_eq, List.append_assoc, List.singleton_append] at hstop ⊢
  rw [s.text_eq, List.length_append, List.length_singleton] at hlen
  have hcopy : copyWhile (· ≠ ch '\x7d') SEG_INFO_LEN (s.fields [] ++ ch '\x7d' :: x :: r) =
      some (s.fields [], ch '\x7d' :: x :: r) :=
    copyWhile_append (ne_of_notMem (h.notMem_fields (.inl rfl))) (by omega) (by decide)
  have hcreate := ykCreateSegmentInfo_fields h
    (List.replicate (SEG_INFO_LEN - (s.fields []).length) 0)
  rw [← List.nil_append (List.replicate _ _), Segment.fields_append] at hcreate
  have hadv : advance 2 (ch '\x7d' :: x :: r) = some r := advance_append (a := [_, _]) rfl
  rw [segsDoLoop, if_neg (by omega)]
  simp only [hcopy, hcreate, hadv, Option.bind_eq_bind, Option.bind_some]
  rw [if_neg (by omega)]
  rfl

theorem commaSep_cons {b : Bytes} {l : List Bytes} (h : l ≠ []) :
    commaSep (b :: l) = b ++ ch ',' :: commaSep l := by
  unfold commaSep
  rw [List.intercalate_cons_of_ne_nil h, List.append_assoc]
  rfl

/-- The loop reads a list of segments and leaves the cursor two bytes after the bracket. -/
theorem segsDoLoop_segments {i fuel : ℕ} {l : List Segment} {r : Bytes} {done : List SegmentInfo}
    {stream : StreamInfo} (hne : l ≠ []) (hwf : ∀ s ∈ l, s.WellFormed)
    (hcnt : done.length + l.length < STREAM_SEGS_MAX) (hfuel : l.length < fuel)
    (hsegs : stream.segs = segsTable done) :
    segsDoLoop i (r.length + 1) fuel (commaSep (l.map Segment.text) ++ ch ']' :: r) done.length
        stream =
      (advance 2 r).map fun ret =>
        (some ret, { stream with segs := segsTable (done ++ l.map (Segment.info i)) }) := by
  induction l generalizing fuel done stream with
  | nil => exact absurd rfl hne
  | cons s l ih =>
    obtain ⟨fuel, rfl⟩ : ∃ n, fuel = n + 1 := Nat.exists_eq_add_one.mpr (by omega)
    simp only [List.length_cons] at hcnt hfuel
    have hset : stream.segs.set done.length (some (s.info i)) = segsTable (done ++ [s.info i]) := by
      rw [hsegs]
      exact segsTable_set (by omega) _
    have hs := hwf s (by simp)
    have hstop : ∀ x r', r.length ≤ r'.length → r.length + 1 < (s.text ++ x :: r').length := by
      intro x r' hle
      rw [s.text_eq]
      simp only [List.length_append, List.length_cons]
      omega
    by_cases hl : l = []
    · -- after the last segment the cursor is past the bracket
      subst hl
      obtain ⟨fuel, rfl⟩ : ∃ n, fuel = n + 1 := Nat.exists_eq_add_one.mpr (by simpa using hfuel)
      have hone : commaSep ([s].map Segment.text) = s.text := by simp [commaSep]
      rw [hone, segsDoLoop_round hs (hstop _ _ le_rfl) (by omega), hset, segsDoLoop,
        if_pos (by omega)]
      cases advance 2 r <;> rfl
    · rw [List.map_cons, commaSep_cons (by simpa using hl), List.append_assoc, List.cons_append,
        segsDoLoop_round hs (hstop _ _ (by simp; omega)) (by omega), hset]
      have hdone : done.length + 1 = (done ++ [s.info i]).length := by simp
      rw [hdone, ih hl (fun x hx => hwf x (by simp [hx])) (by simp; omega) (by omega) rfl]
      simp

theorem mem_commaSep {c : UInt8} {b : Bytes} {l : List Bytes} (hb : b ∈ l) (hc : c ∈ b) :
    c ∈ commaSep l := by
  induction l with
  | nil => cases hb
  | cons b' l ih =>
    by_cases hl : l = []
    · subst hl
      obtain rfl := List.mem_singleton.mp hb
      simpa [commaSep] using hc
    · rw [commaSep_cons hl]
      rcases List.mem_cons.mp hb with rfl | hb
      · simp [hc]
      · simp [ih hb]

theorem notMem_commaSep {c : UInt8} {l : List Bytes} (hne : c ≠ ch ',') (h : ∀ b ∈ l, c ∉ b) :
    c ∉ commaSep l := by
  induction l with
  | nil => simp [commaSep]
  | cons b l ih =>
    by_cases hl : l = []
    · subst hl
      simpa [commaSep] using h b (by simp)
    · rw [commaSep_cons hl]
      simp [hne, h b (by simp), ih fun b' hb' => h b' (by simp [hb'])]

theorem length_le_commaSep {l : List Bytes} (h : ∀ b ∈ l, b ≠ []) :
    l.length ≤ (commaSep l).length := by
  induction l with
  | nil => simp
  | cons b l ih =>
    have hb := List.length_pos_iff.mpr (h b (by simp))
    by_cases hl : l = []
    · subst hl
      simpa [commaSep, Nat.one_le_iff_ne_zero] using h b (by simp)
    · have hrest := ih fun b' hb' => h b' (by simp [hb'])
      rw [commaSep_cons hl]
      simp only [List.length_append, List.length_cons]
      omega

theorem Segment.text_ne_nil (s : Segment) : s.text ≠ [] := by
  rw [s.text_eq]
  simp

def segsEntry (e : YkType × List Segment) : Bytes :=
  e.1.name ++ (bytes "\":[" ++ (commaSep (e.2.map Segment.text) ++ bytes "]"))

theorem YkType.name_length (t : YkType) : t.name.length = 3 := by
  cases t <;> rfl

/-- `yk_parse_pl_segs_do` reads an entry and the two bytes after it. -/
theorem ykParsePlSegsDo_entry {e : YkType × List Segment} {i : ℕ} {sep r : Bytes}
    {stream : StreamInfo} (hne : e.2 ≠ []) (hwf : ∀ s ∈ e.2, s.WellFormed)
    (hcnt : e.2.length < STREAM_SEGS_MAX)
    (hnul : 0 ∉ commaSep (e.2.map Segment.text)) (hsep : sep.length = 2)
    (hsegs : stream.segs = segsTable []) :
    ykParsePlSegsDo (segsEntry e ++ (sep ++ r)) i stream =
      some (some r, { stream with segs := segsTable (e.2.map (Segment.info i)) }) := by
  have hadv : advance 6 (segsEntry e ++ (sep ++ r)) =
      some (commaSep (e.2.map Segment.text) ++ (bytes "]" ++ (sep ++ r))) := by
    have heq : segsEntry e ++ (sep ++ r) = (e.1.name ++ bytes "\":[") ++
        (commaSep (e.2.map Segment.text) ++ (bytes "]" ++ (sep ++ r))) := by
      simp [segsEntry]
    rw [heq]
    apply advance_append
    rw [List.length_append, e.1.name_length]
    rfl
  have hbracket : ch ']' ∉ commaSep (e.2.map Segment.text) := by
    refine notMem_commaSep (by decide) fun b hb => ?_
    obtain ⟨s, hs, rfl⟩ := List.mem_map.mp hb
    have := (hwf s hs).notMem_fields (.inr rfl)
    rw [s.text_eq, List.mem_append, List.mem_singleton, not_or]
    exact ⟨this, by decide⟩
  have hfuel : e.2.length ≤ (commaSep (e.2.map Segment.text)).length := by
    have := length_le_commaSep (l := e.2.map Segment.text) fun b hb => by
      obtain ⟨s, -, rfl⟩ := List.mem_map.mp hb
      exact s.text_ne_nil
    simpa using this
  have hfind := find_skip (r := sep ++ r) (t := bytes "]") rfl hnul hbracket
  simp only [ykParsePlSegsDo, hadv, hfind, Option.bind_eq_bind, Option.bind_some]
  have hfuel' : e.2.length <
      (commaSep (e.2.map Segment.text) ++ (bytes "]" ++ (sep ++ r))).length + 1 := by
    rw [List.length_append]
    omega
  refine (segsDoLoop_segments (r := sep ++ r) hne hwf ?_ hfuel' hsegs).trans ?_
  · rw [List.length_nil]
    omega
  · rw [advance_append hsep]
    rfl

end Segments

section Lists

theorem ykTypes_name (t : YkType) (m : Bytes) :
    ykTypes.findM? (matchesAt · (t.name ++ m)) = some (some t.name) := by
  refine typeAt_some_iff.mpr ⟨?_, List.prefix_append _ _⟩
  cases t <;> decide

variable {α : Type}

/-- The text of a list of entries after its first quote: `entry` is an entry without its first
quote, and `stop` stands after the brace and the comma at the end. -/
def listText (entry : α → Bytes) (stop : Bytes) : List α → Bytes
  | [] => stop
  | e :: l => entry e ++ ((if l = [] then bytes "\x7d," else bytes ",\"") ++ listText entry stop l)

theorem commaSep_eq_listText (entry : α → Bytes) {l : List α} (h : l ≠ []) (stop : Bytes) :
    commaSep (l.map fun e => ch '"' :: entry e) ++ (bytes "\x7d," ++ stop) =
      ch '"' :: listText entry stop l := by
  induction l with
  | nil => exact absurd rfl h
  | cons e l ih =>
    by_cases hl : l = []
    · subst hl
      simp [commaSep, listText]
    · rw [List.map_cons, commaSep_cons (by simpa using hl), listText, if_neg hl]
      simp only [List.cons_append, List.append_assoc, ih hl]
      rfl

def streamEntry (e : YkType × Bytes) : Bytes :=
  e.1.name ++ (bytes "\":\"" ++ (e.2 ++ bytes "\""))

theorem streamText_eq : streamText = fun e => ch '"' :: streamEntry e := by
  funext e
  simp [streamText, streamEntry, bytes]

theorem segsText_eq : segsText = fun e => ch '"' :: segsEntry e := by
  funext e
  simp [segsText, segsEntry, bytes]

theorem streamfileidsLoop_round {fuel : ℕ} {e : YkType × Bytes} {sep r : Bytes}
    {streams : List StreamInfo} (hlen : e.2.length < STREAM_FILE_IDS_LEN) (hquote : ch '"' ∉ e.2)
    (hsep : sep.length = 2) (hcnt : streams.length < STREAM_TYPE_TOTAL) :
    streamfileidsLoop (fuel + 1) (streamEntry e ++ (sep ++ r)) streams =
      streamfileidsLoop fuel r (streams ++ [{ type := e.1.name, streamfileids := e.2 }]) := by
  have htype : ykTypes.findM? (matchesAt · (streamEntry e ++ (sep ++ r))) =
      some (some e.1.name) := by
    rw [streamEntry, List.append_assoc]
    exact ykTypes_name _ _
  have hadv : advance 6 (streamEntry e ++ (sep ++ r)) = some (e.2 ++ ch '"' :: (sep ++ r)) := by
    have heq : streamEntry e ++ (sep ++ r) =
        (e.1.name ++ bytes "\":\"") ++ (e.2 ++ ch '"' :: (sep ++ r)) := by
      simp [streamEntry, bytes]
    rw [heq]
    apply advance_append
    rw [List.length_append, e.1.name_length]
    rfl
  have hcopy : copyAll unquoted (e.2 ++ ch '"' :: (sep ++ r)) = some (e.2, ch '"' :: (sep ++ r)) :=
    copyField hquote (by simp)
  have hnext : advance 3 (ch '"' :: (sep ++ r)) = some r := by
    rw [← List.cons_append]
    exact advance_append (by simp [hsep])
  simp only [streamfileidsLoop, htype, hadv, hcopy, hnext, Option.bind_eq_bind, Option.bind_some]
  rw [if_neg (by omega)]

theorem streamfileidsLoop_streams {fuel : ℕ} {l : List (YkType × Bytes)} {r : Bytes}
    {done : List StreamInfo} (hids : ∀ e ∈ l, e.2.length < STREAM_FILE_IDS_LEN ∧ ch '"' ∉ e.2)
    (hcnt : done.length + l.length ≤ STREAM_TYPE_TOTAL) (hfuel : l.length < fuel) :
    streamfileidsLoop fuel (listText streamEntry (bytes "\"se" ++ r) l) done =
      some (some (bytes "se" ++ r),
        done ++ l.map fun e => { type := e.1.name, streamfileids := e.2 }) := by
  induction l generalizing fuel done with
  | nil =>
    obtain ⟨fuel, rfl⟩ : ∃ n, fuel = n + 1 := Nat.exists_eq_add_one.mpr (by omega)
    have hend := ykTypes_end (e := bytes "\"se") rfl (by decide) r
    simp only [listText, streamfileidsLoop, hend, matchesAt_append, Option.bind_eq_bind,
      Option.bind_some, List.map_nil, List.append_nil]
    rfl
  | cons e l ih =>
    obtain ⟨fuel, rfl⟩ : ∃ n, fuel = n + 1 := Nat.exists_eq_add_one.mpr (by omega)
    obtain ⟨hlen, hquote⟩ := hids e (by simp)
    simp only [List.length_cons] at hcnt hfuel
    rw [listText, streamfileidsLoop_round hlen hquote (by split_ifs <;> rfl) (by omega),
      ih (fun x hx => hids x (by simp [hx])) (by simp; omega) (by omega)]
    simp

theorem YkType.name_injective : Function.Injective YkType.name := by
  intro t t' h
  cases t <;> cases t' <;> first | rfl | exact absurd h (by decide)

theorem segsOf_cons (e : YkType × List Segment) (l : List (YkType × List Segment)) (t : YkType) :
    segsOf (e :: l) t = if t = e.1 then e.2 else segsOf l t := by
  obtain ⟨u, segs⟩ := e
  by_cases h : t = u
  · simp [segsOf, h]
  · simp [segsOf, List.lookup_cons, h, beq_eq_false_iff_ne.mpr h]

theorem segsOf_append {done : List (YkType × List Segment)} {e : YkType × List Segment} (t : YkType)
    (h : e.1 ∉ done.map Prod.fst) :
    segsOf (done ++ [e]) t = if t = e.1 then e.2 else segsOf done t := by
  induction done with
  | nil => exact segsOf_cons e [] t
  | cons x done ih =>
    simp only [List.map_cons, List.mem_cons, not_or] at h
    rw [List.cons_append, segsOf_cons, segsOf_cons, ih h.2]
    split_ifs with hx he he
    · exact absurd (he.symm.trans hx) h.1
    all_goals rfl

theorem segsOf_notMem {l : List (YkType × List Segment)} {t : YkType} (h : t ∉ l.map Prod.fst) :
    segsOf l t = [] := by
  induction l with
  | nil => rfl
  | cons x l ih =>
    simp only [List.map_cons, List.mem_cons, not_or] at h
    rw [segsOf_cons, if_neg h.1, ih h.2]

variable {streams : List (YkType × Bytes)}

theorem ykFindStreamInfo_listed (seed : ℤ) (segs : List (YkType × List Segment)) {t : YkType}
    (ht : t ∈ streams.map Prod.fst) :
    ∃ i e, streams[i]? = some e ∧ e.1 = t ∧
      ykFindStreamInfo (streamTable seed streams segs) t.name = some i := by
  obtain ⟨e, he, rfl⟩ := List.mem_map.mp ht
  have hsome : (streams.findIdx? (·.1 = e.1)).isSome = true := by
    rw [List.findIdx?_isSome, List.any_eq_true]
    exact ⟨e, he, by simp⟩
  obtain ⟨i, hi⟩ := Option.isSome_iff_exists.mp hsome
  obtain ⟨hlt, hie, hfirst⟩ := List.findIdx?_eq_some_iff_getElem.mp hi
  refine ⟨i, streams[i], List.getElem?_eq_getElem hlt, by simpa using hie, ?_⟩
  rw [ykFindStreamInfo, List.findIdx?_eq_some_iff_getElem]
  refine ⟨by simpa [streamTable] using hlt, ?_, fun j hj => ?_⟩
  · simpa [streamTable, streamRecord] using congrArg YkType.name (of_decide_eq_true hie)
  · have hne := hfirst j hj
    simp only [decide_eq_true_eq, streamTable, streamRecord, List.getElem_mapIdx] at hne ⊢
    exact fun heq => hne (YkType.name_injective heq)

theorem streamTable_set {seed : ℤ} {done : List (YkType × List Segment)} {e : YkType × List Segment}
    {i : ℕ} {x : YkType × Bytes} (hnd : (streams.map Prod.fst).Nodup) (hx : streams[i]? = some x)
    (hxe : x.1 = e.1) (hnew : e.1 ∉ done.map Prod.fst) :
    (streamTable seed streams done).set i
        { streamRecord seed done i x with segs := segsTable (e.2.map (Segment.info i)) } =
      streamTable seed streams (done ++ [e]) := by
  have hget : ∀ segs j,
      (streamTable seed streams segs)[j]? = streams[j]?.map (streamRecord seed segs j) :=
    fun segs j => List.getElem?_mapIdx
  refine List.ext_getElem? fun j => ?_
  by_cases hij : i = j
  · subst hij
    have hlt : i < (streamTable seed streams done).length := by
      simpa [streamTable] using (List.getElem?_eq_some_iff.mp hx).1
    rw [List.getElem?_set_self hlt, hget, hx]
    simp [streamRecord, segsOf_append _ hnew, hxe]
  · rw [List.getElem?_set_ne hij, hget, hget]
    cases hy : streams[j]? with
    | none => rfl
    | some y =>
      -- the types are distinct, so another stream has another type
      have hne : y.1 ≠ e.1 := by
        intro hye
        have hlt : i < (streams.map Prod.fst).length := by
          simpa using (List.getElem?_eq_some_iff.mp hx).1
        exact hij ((List.getElem?_inj hlt hnd).mp (by simp [hx, hy, hxe, hye]))
      simp [streamRecord, segsOf_append _ hnew, hne]

theorem segsLoop_round {seed : ℤ} {done : List (YkType × List Segment)} {e : YkType × List Segment}
    {fuel : ℕ} {sep r : Bytes} (hnd : (streams.map Prod.fst).Nodup)
    (hlisted : e.1 ∈ streams.map Prod.fst) (hnew : e.1 ∉ done.map Prod.fst) (hne : e.2 ≠ [])
    (hwf : ∀ s ∈ e.2, s.WellFormed) (hcnt : e.2.length < STREAM_SEGS_MAX)
    (hnul : 0 ∉ commaSep (e.2.map Segment.text)) (hsep : sep.length = 2) :
    segsLoop (fuel + 1) (segsEntry e ++ (sep ++ r)) (streamTable seed streams done) =
      segsLoop fuel r (streamTable seed streams (done ++ [e])) := by
  obtain ⟨i, x, hx, hxe, hfind⟩ := ykFindStreamInfo_listed seed done hlisted
  have hrecord : (streamTable seed streams done)[i]? = some (streamRecord seed done i x) := by
    simp [streamTable, hx]
  have hempty : (streamRecord seed done i x).segs = segsTable [] := by
    simp [streamRecord, hxe, segsOf_notMem hnew]
  have htype : ykTypes.findM? (matchesAt · (segsEntry e ++ (sep ++ r))) = some (some e.1.name) := by
    rw [segsEntry, List.append_assoc]
    exact ykTypes_name _ _
  have hdo := ykParsePlSegsDo_entry (r := r) (i := i) hne hwf hcnt hnul hsep hempty
  simp only [segsLoop, htype, hfind, hrecord, hdo, Option.bind_eq_bind, Option.bind_some,
    streamTable_set hnd hx hxe hnew]

theorem segsLoop_segs {seed : ℤ} {done l : List (YkType × List Segment)} {fuel : ℕ} {r : Bytes}
    (hnd : (streams.map Prod.fst).Nodup) (hlisted : ∀ e ∈ l, e.1 ∈ streams.map Prod.fst)
    (hnew : ((done ++ l).map Prod.fst).Nodup)
    (hwf : ∀ e ∈ l, e.2 ≠ [] ∧ ∀ s ∈ e.2, s.WellFormed)
    (hcnt : ∀ e ∈ l, e.2.length < STREAM_SEGS_MAX)
    (hnul : ∀ e ∈ l, 0 ∉ commaSep (e.2.map Segment.text)) (hfuel : l.length < fuel) :
    segsLoop fuel (listText segsEntry (bytes "\"st" ++ r) l) (streamTable seed streams done) =
      some (some (bytes "st" ++ r), streamTable seed streams (done ++ l)) := by
  induction l generalizing fuel done with
  | nil =>
    obtain ⟨fuel, rfl⟩ : ∃ n, fuel = n + 1 := Nat.exists_eq_add_one.mpr (by omega)
    have hend := ykTypes_end (e := bytes "\"st") rfl (by decide) r
    simp only [listText, segsLoop, hend, matchesAt_append, Option.bind_eq_bind, Option.bind_some,
      List.append_nil]
    rfl
  | cons e l ih =>
    obtain ⟨fuel, rfl⟩ : ∃ n, fuel = n + 1 := Nat.exists_eq_add_one.mpr (by omega)
    obtain ⟨hne, hsegs⟩ := hwf e (by simp)
    have hfresh : e.1 ∉ done.map Prod.fst := by
      rw [List.map_append, List.nodup_append] at hnew
      exact fun hmem => hnew.2.2 _ hmem _ (by simp) rfl
    simp only [List.length_cons] at hfuel
    rw [listText, segsLoop_round hnd (hlisted e (by simp)) hfresh hne hsegs (hcnt e (by simp))
        (hnul e (by simp)) (by split_ifs <;> rfl),
      ih (fun y hy => hlisted y (by simp [hy])) (by simpa using hnew)
        (fun y hy => hwf y (by simp [hy])) (fun y hy => hcnt y (by simp [hy]))
        (fun y hy => hnul y (by simp [hy])) (by omega)]
    simp

end Lists

def Playlist.afterSeed (p : Playlist) : Bytes :=
  ch ',' :: (p.mid ++ (bytes "streamfileids\":\x7b\"" ++
    listText streamEntry (bytes "\"segs\":\x7b\"" ++
      listText segsEntry (bytes "\"st" ++ (p.rest ++ [0])) p.segs) p.streams))

theorem Playlist.text_eq (p : Playlist) (hstreams : p.streams ≠ []) (hsegs : p.segs ≠ []) :
    p.text ++ [0] =
      p.pre ++ ch '"' :: (bytes "seed" ++ (bytes "\":" ++ (p.seed ++ p.afterSeed))) := by
  have hseed : bytes "\"seed\":" = ch '"' :: (bytes "seed" ++ bytes "\":") := rfl
  have hsegs' : bytes "\x7d,\"segs\":\x7b" = bytes "\x7d," ++ bytes "\"segs\":\x7b" := rfl
  have hst : bytes "\x7d,\"st" = bytes "\x7d," ++ bytes "\"st" := rfl
  simp only [Playlist.text, streamText_eq, segsText_eq, hseed, hsegs', hst, List.append_assoc,
    List.cons_append]
  rw [commaSep_eq_listText segsEntry hsegs, commaSep_eq_listText streamEntry hstreams]
  rfl

theorem Playlist.WellFormed.nul_parts {p : Playlist} (h : p.WellFormed) :
    0 ∉ p.pre ∧ 0 ∉ p.mid ∧ 0 ∉ commaSep (p.segs.map segsText) := by
  have hnul := h.nul
  simp only [Playlist.text, List.mem_append, not_or] at hnul
  tauto

theorem ykParsePlSeed_text {p : Playlist} (h : p.WellFormed) :
    ykParsePlSeed (p.text ++ [0]) = some (some (p.afterSeed, p.seed)) := by
  have hfind := find_separated (r := bytes "\":" ++ (p.seed ++ p.afterSeed)) h.nul_parts.1
    (by decide : ch '"' ≠ 0) (by decide) (by decide) h.pre
  have hadv : advance 6 (bytes "seed" ++ (bytes "\":" ++ (p.seed ++ p.afterSeed))) =
      some (p.seed ++ p.afterSeed) := by
    rw [← List.append_assoc]
    exact advance_append rfl
  have hcopy : copyAll (fun c => c ≠ ch ',' && digit c) (p.seed ++ p.afterSeed) =
      some (p.seed, p.afterSeed) := by
    refine copyAll_append (fun c hc => ?_) (by decide)
    have hd := h.seed.digits c hc
    have hne : c ≠ ch ',' := by
      rintro rfl
      exact absurd hd (by decide)
    simp [hne, hd]
  have hshort := h.seed.short
  rw [p.text_eq h.streams.1 h.segs.1]
  simp only [ykParsePlSeed, hfind, hadv, hcopy, Option.bind_eq_bind, Option.bind_some]
  rw [if_neg (by unfold SEED_STRING_LEN; omega)]
  rfl

theorem ykParsePlStreamfileids_text {p : Playlist} (h : p.WellFormed) :
    ykParsePlStreamfileids p.afterSeed =
      some (some (bytes "segs\":\x7b\"" ++
          listText segsEntry (bytes "\"st" ++ (p.rest ++ [0])) p.segs),
        p.streams.map fun e => { type := e.1.name, streamfileids := e.2 }) := by
  obtain ⟨mid, hmid⟩ := List.getLast?_eq_some_iff.mp h.quote
  have hnul : 0 ∉ ch ',' :: mid := by
    have hp := h.nul_parts.2.1
    rw [hmid] at hp
    simp only [List.mem_append, not_or] at hp
    exact List.not_mem_cons_of_ne_of_not_mem (by decide) hp.1
  have hin : ¬ bytes "streamfileids" <:+: ch ',' :: mid := by
    rw [List.infix_cons_iff, not_or]
    refine ⟨?_, fun hmem => h.mid ?_⟩
    · rintro ⟨x, hx⟩
      have hhead : some (ch 's') = some (ch ',') := congrArg List.head? hx
      exact absurd hhead (by decide)
    · rw [hmid]
      exact hmem.trans (List.prefix_append _ _).isInfix
  generalize hrest : listText segsEntry (bytes "\"st" ++ (p.rest ++ [0])) p.segs = rest
  have hafter : p.afterSeed = ch ',' :: mid ++ ch '"' :: (bytes "streamfileids" ++
      (bytes "\":\x7b\"" ++
        listText streamEntry (bytes "\"se" ++ (bytes "gs\":\x7b\"" ++ rest)) p.streams)) := by
    rw [Playlist.afterSeed, hmid, hrest, List.append_assoc]
    rfl
  have hfind := find_separated (r := bytes "\":\x7b\"" ++
    listText streamEntry (bytes "\"se" ++ (bytes "gs\":\x7b\"" ++ rest)) p.streams) hnul
    (by decide : ch '"' ≠ 0) (by decide) (by decide) hin
  have hadv : ∀ x, advance 17 (bytes "streamfileids" ++ (bytes "\":\x7b\"" ++ x)) = some x := by
    intro x
    rw [← List.append_assoc]
    exact advance_append rfl
  have hfuel : p.streams.length < p.afterSeed.length := by
    have hle := h.streams.2.1
    have h13 : (bytes "streamfileids").length = 13 := by decide
    simp only [hafter, List.length_append, List.length_cons, h13]
    omega
  have hloop := streamfileidsLoop_streams (r := bytes "gs\":\x7b\"" ++ rest) h.ids
    (by simpa [STREAM_TYPE_TOTAL] using h.streams.2.1 :
      ([] : List StreamInfo).length + _ ≤ STREAM_TYPE_TOTAL) hfuel
  rw [List.nil_append] at hloop
  unfold ykParsePlStreamfileids
  rw [hafter] at hloop ⊢
  simp only [hfind, hadv, hloop, Option.bind_eq_bind, Option.bind_some]
  rfl

theorem ykParsePlSegs_text {p : Playlist} (h : p.WellFormed) (hcnt : ∀ e ∈ p.segs, e.2.length ≤ 63)
    (seed : ℤ) :
    ykParsePlSegs (bytes "segs\":\x7b\"" ++
          listText segsEntry (bytes "\"st" ++ (p.rest ++ [0])) p.segs)
        (streamTable seed p.streams []) =
      some (some (bytes "st" ++ (p.rest ++ [0])), streamTable seed p.streams p.segs) := by
  generalize htext : listText segsEntry (bytes "\"st" ++ (p.rest ++ [0])) p.segs = text
  have hfind : find (bytes "segs") (bytes "segs\":\x7b\"" ++ text) =
      some (some (bytes "segs\":\x7b\"" ++ text)) :=
    find_skip (a := []) (r := bytes "\":\x7b\"" ++ text) (c := ch 's') rfl (by simp) (by simp)
  have hadv : advance 8 (bytes "segs\":\x7b\"" ++ text) = some text := advance_append rfl
  have hnul : ∀ e ∈ p.segs, 0 ∉ commaSep (e.2.map Segment.text) := by
    intro e he h0
    refine h.nul_parts.2.2 (mem_commaSep (List.mem_map_of_mem he) ?_)
    simp [segsText, h0]
  have hfuel : p.segs.length < (bytes "segs\":\x7b\"" ++ text).length := by
    have hle := h.segs.2.1
    have h8 : (bytes "segs\":\x7b\"").length = 8 := by decide
    rw [List.length_append, h8]
    omega
  have hnew : (([] ++ p.segs).map Prod.fst).Nodup := h.segs.2.2
  have hloop := @segsLoop_segs p.streams seed _ _ _ (p.rest ++ [0]) h.streams.2.2 h.listed hnew
    h.segments (fun e he => Nat.lt_succ_of_le (hcnt e he)) hnul hfuel
  rw [htext] at hloop
  simp only [ykParsePlSegs, hfind, hadv, Option.bind_eq_bind, Option.bind_some]
  exact hloop

theorem streamTable_nil (seed : ℤ) (streams : List (YkType × Bytes)) :
    (streams.map fun e => ({ type := e.1.name, streamfileids := e.2 } : StreamInfo)).map
        (fun s => { s with seed := seed }) = streamTable seed streams [] := by
  refine List.ext_getElem? fun i => ?_
  simp only [streamTable, List.getElem?_map, List.getElem?_mapIdx]
  cases streams[i]? with
  | none => rfl
  | some e => rfl

/-- Every well-formed response with at most 63 segments for each type is read back. -/
theorem ykParsePlaylist_text (p : Playlist) (h : p.WellFormed)
    (hcnt : ∀ e ∈ p.segs, e.2.length ≤ 63) :
    ykParsePlaylist p.text [] = some (0, p.table) := by
  have hseed : atoi (p.seed ++ [0]) = some (digitsValue p.seed : ℤ) := by
    refine atoi_digits h.seed.pos h.seed.digits (by decide) ?_
    have hle : 10 ^ p.seed.length ≤ 10 ^ 7 := Nat.pow_le_pow_right (by decide) h.seed.short
    have := digitsValue_lt h.seed.digits
    omega
  simp only [ykParsePlaylist, ykParsePlSeed_text h, hseed, ykParsePlStreamfileids_text h,
    streamTable_nil, ykParsePlSegs_text h hcnt, Option.bind_eq_bind, Option.bind_some]
  rfl

theorem Number.of_all {n : ℕ} {ds : Bytes} (hpos : ds ≠ []) (hshort : ds.length ≤ n)
    (hall : ds.all digit = true) : Number n ds :=
  ⟨hpos, hshort, List.all_eq_true.mp hall⟩

/-- Two streams, the second with a segment in each of the two formats. -/
def samplePlaylist : Playlist where
  pre := bytes "\x7b\"data\":\x7b"
  seed := bytes "1599"
  mid := bytes "\"vid\":\"1\",\""
  streams := [(.hd2, bytes "40*32*"), (.flv, bytes "12*17*")]
  segs :=
    [(.flv, [⟨bytes "0", bytes "4096", bytes "196", bytes "a1", bytes "b1", true⟩,
      ⟨bytes "1", bytes "512", bytes "41", bytes "k2", bytes "", false⟩])]
  rest := bytes "reamsizes"

theorem samplePlaylist_wellFormed : samplePlaylist.WellFormed where
  pre := by decide
  seed := .of_all (by decide) (by decide) (by decide)
  mid := by decide
  quote := by decide
  streams := by decide
  ids := by decide
  segs := ⟨by simp [samplePlaylist], by decide, by decide⟩
  listed := by
    intro e he
    obtain rfl := List.mem_singleton.mp he
    decide
  segments := by
    intro e he
    obtain rfl := List.mem_singleton.mp he
    refine ⟨by simp, fun s hs => ?_⟩
    rcases List.mem_pair.mp hs with rfl | rfl
    all_goals
      exact
        { no := .of_all (by decide) (by decide) (by decide)
          size := .of_all (by decide) (by decide) (by decide)
          seconds := .of_all (by decide) (by decide) (by decide)
          k := ⟨by decide, by decide, by decide, by decide⟩
          k2 := ⟨by decide, by decide, by decide, by decide⟩
          short := by decide }
  nul := by decide

theorem ykParsePlaylist_text_sample :
    ykParsePlaylist samplePlaylist.text [] = some (0, samplePlaylist.table) ∧
    samplePlaylist.table.map (fun s => (s.type, s.seed, s.segs.count none)) =
      [(bytes "hd2", 1599, 64), (bytes "flv", 1599, 62)] := by
  refine ⟨ykParsePlaylist_text samplePlaylist samplePlaylist_wellFormed ?_, by decide +kernel⟩
  intro e he
  obtain rfl := List.mem_singleton.mp he
  decide

end HotCache
