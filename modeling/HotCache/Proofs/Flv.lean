import Mathlib.Tactic.Ring
import HotCache.Spec.Flv

/-! The time seek on a file that starts with a script tag: the scan passes over the bytes of the file
header, and the offsets lead to the entries of the keyframe table. -/

namespace HotCache

open CStr

section Table

/-- A type byte and a `double`. -/
structure FlvEntry where
  type : UInt8
  value : Bytes
  value_length : value.length = 8

def entriesText (l : List FlvEntry) : Bytes := l.flatMap fun e => e.type :: e.value

structure Keyframe where
  position : FlvEntry
  time : FlvEntry

/-- The data of the script tag. `total` and `timesTotal` are the bytes of the counts; only the first of
them is read. -/
structure ScriptData where
  before : Bytes
  total : Bytes
  frames : List Keyframe
  timesTotal : Bytes
  after : Bytes
  total_length : total.length = 4
  total_value : bigEndian total = frames.length
  two_le : 2 ≤ frames.length
  timesTotal_length : timesTotal.length = 4

namespace ScriptData

variable (d : ScriptData)

def positions : List FlvEntry := d.frames.map (·.position)
def times : List FlvEntry := d.frames.map (·.time)

def label : Bytes := bytes "keyframes" ++ ([3, 0, 0x0D] ++ (bytes "filepositions" ++ [0x0A]))

def timesLabel : Bytes := [0, 5] ++ (bytes "times" ++ ([0x0A] ++ d.timesTotal))

def table (r : Bytes) : Bytes :=
  label ++ (d.total ++ (entriesText d.positions ++ (d.timesLabel ++ (entriesText d.times ++ (d.after ++ r)))))

def text : Bytes := d.before ++ d.table []

end ScriptData

theorem entriesText_length (l : List FlvEntry) : (entriesText l).length = 9 * l.length := by
  induction l with
  | nil => rfl
  | cons e l ih =>
    simp only [entriesText, List.flatMap_cons, List.length_append, List.length_cons, e.value_length] at ih ⊢
    omega

theorem slice_entry {l : List FlvEntry} {a r : Bytes} {i p : ℕ} {e : FlvEntry} (he : l[i]? = some e)
    (hp : a.length + 9 * i + 1 = p) : slice p 8 (a ++ (entriesText l ++ r)) = some e.value := by
  induction l generalizing a i with
  | nil => cases he
  | cons x l ih =>
    cases i with
    | zero =>
      obtain rfl : x = e := Option.some.inj he
      have heq : a ++ (entriesText (x :: l) ++ r) = (a ++ [x.type]) ++ (x.value ++ (entriesText l ++ r)) := by
        simp [entriesText]
      rw [heq]
      exact slice_append (by simpa using hp) x.value_length
    | succ i =>
      have heq : a ++ (entriesText (x :: l) ++ r) = (a ++ x.type :: x.value) ++ (entriesText l ++ r) := by
        simp [entriesText]
      rw [heq]
      apply ih he
      simp only [List.length_append, List.length_cons, x.value_length]
      omega

/-- The loop ends at the first time behind `start`, or behind the last one. -/
theorem timesLoop_entries (toOff : ToOff) (start : ℤ) (l : List FlvEntry) (a r : Bytes) (i : ℕ) :
    timesLoop toOff (a ++ (entriesText l ++ r)) start l.length i a.length =
      some (i + l.findIdx fun e => start < toOff e.value) := by
  induction l generalizing a i with
  | nil => rfl
  | cons e l ih =>
    have hslice : slice (a.length + 1) 8 (a ++ (entriesText (e :: l) ++ r)) = some e.value :=
      slice_entry (i := 0) rfl rfl
    rw [List.length_cons, timesLoop, hslice]
    simp only [Option.bind_eq_bind, Option.bind_some, List.findIdx_cons]
    by_cases hstart : start < toOff e.value
    · simp [hstart]
    · have heq : a ++ (entriesText (e :: l) ++ r) = (a ++ e.type :: e.value) ++ (entriesText l ++ r) := by
        simp [entriesText]
      have hlen : a.length + 9 = (a ++ e.type :: e.value).length := by
        simp [e.value_length]
      rw [if_neg hstart, heq, hlen, ih]
      simp only [hstart, decide_false, cond_false]
      congr 1
      omega

end Table

section Scan

theorem zerosAt_some {buf : Bytes} {i k : ℕ} (h : i + k ≤ buf.length) : ∃ b, zerosAt buf i k = some b := by
  induction k generalizing i with
  | zero => exact ⟨true, rfl⟩
  | succ k ih =>
    rw [zerosAt, List.getElem?_eq_getElem (by omega)]
    simp only [Option.bind_eq_bind, Option.bind_some]
    split_ifs
    · exact ih (by omega)
    · exact ⟨false, rfl⟩

theorem zerosAt_zeros (a r : Bytes) (k : ℕ) :
    zerosAt (a ++ (List.replicate k 0 ++ r)) a.length k = some true := by
  induction k generalizing a with
  | zero => rfl
  | succ k ih =>
    have heq : a ++ (List.replicate (k + 1) 0 ++ r) = (a ++ [0]) ++ (List.replicate k 0 ++ r) := by
      simp [List.replicate_succ]
    have hhead : (a ++ (List.replicate (k + 1) 0 ++ r))[a.length]? = some 0 := by
      simp [List.replicate_succ]
    have hrest := ih (a ++ [0])
    rw [← heq, List.length_append, List.length_singleton] at hrest
    rw [zerosAt, hhead]
    exact hrest

def isFlvTag (c : UInt8) : Bool := ngxHttpFlvIsScriptTag c || ngxHttpFlvIsAudioTag c || ngxHttpFlvIsVideoTag c

theorem flvTagAt_other {buf : Bytes} {n i : ℕ} {c : UInt8} (hc : buf[i]? = some c) (htag : isFlvTag c = false) :
    flvTagAt buf n i = some none := by
  rw [isFlvTag] at htag
  rw [flvTagAt, hc]
  simp only [Option.bind_eq_bind, Option.bind_some, htag, Bool.false_eq_true, if_false]
  rfl

theorem flvTagAt_empty {buf : Bytes} {n i : ℕ} (hlen : i + 11 ≤ buf.length)
    (hsize : slice (i + 1) 3 buf = some [0, 0, 0]) : flvTagAt buf n i = some none := by
  obtain ⟨b, hb⟩ := zerosAt_some (i := i + 8) (k := 3) hlen
  have hzero : bigEndian [0, 0, 0] = 0 := rfl
  rw [flvTagAt, List.getElem?_eq_getElem (by omega)]
  simp only [Option.bind_eq_bind, Option.bind_some, hb, hsize, hzero, lt_self_iff_false, and_false, if_false]
  split_ifs <;> rfl

theorem flvTagAt_script {buf : Bytes} {n i size : ℕ} {s t : Bytes} (hc : buf[i]? = some 0x12)
    (hzeros : zerosAt buf (i + 8) 3 = some true) (hs : slice (i + 1) 3 buf = some s)
    (hsize : bigEndian s = size) (ht : slice (i + size + 12) 3 buf = some t)
    (hend : bigEndian t = size + 11) (hpos : 0 < size) (hn : i + size ≤ n) :
    flvTagAt buf n i = some (some size) := by
  have heq : (size : ℤ) = ((size + 11 : ℕ) : ℤ) - 11 := by omega
  have hscript : ngxHttpFlvIsScriptTag 0x12 = true := rfl
  simp only [flvTagAt, hc, Option.bind_eq_bind, Option.bind_some, hscript, Bool.true_or, if_true, hzeros,
    hs, hsize, if_pos (And.intro hn hpos), ht, hend, if_pos heq]
  rfl

theorem findTagLoop_skip {buf : Bytes} {bufSize i d : ℕ} (k : ℕ)
    (h : ∀ j < d, flvTagAt buf bufSize (i + j) = some none) :
    findTagLoop buf bufSize (k + d) i = findTagLoop buf bufSize k (i + d) := by
  induction d generalizing i with
  | zero => rfl
  | succ d ih =>
    have h0 : flvTagAt buf bufSize i = some none := h 0 (Nat.succ_pos d)
    have hs : ∀ j < d, flvTagAt buf bufSize (i + 1 + j) = some none := by
      intro j hj
      rw [Nat.add_assoc, Nat.add_comm 1 j]
      exact h (j + 1) (Nat.succ_lt_succ hj)
    rw [← Nat.add_assoc, findTagLoop, h0]
    simp only [Option.bind_eq_bind, Option.bind_some]
    rw [ih hs]
    congr 1
    omega

/-- A `k` before the first `keyframes` finds it too, or nothing when a NUL is between them. -/
theorem findKeyframesLoop_first {a r : Bytes} (hr : bytes "keyframes" <+: r) {k i : ℕ}
    (hfirst : ∀ j, i ≤ j → j < a.length → ¬ OccursAt (a ++ r) (bytes "keyframes") j) (hi : i ≤ a.length)
    (hk : a.length < i + k) : findKeyframesLoop (a ++ r) k i = some (some a.length) := by
  have hne : r ≠ [] := by
    rintro rfl
    exact absurd (List.prefix_nil.mp hr) (by decide)
  induction k generalizing i with
  | zero => omega
  | succ k ih =>
    have hfind : find (bytes "keyframes") ((a ++ r).drop i) = some (if 0 ∈ a.drop i then none else some r) := by
      rw [List.drop_append_of_le_length hi]
      refine find_first_or_null hr hne fun j hj hocc => ?_
      rw [List.length_drop] at hj
      refine hfirst (i + j) (Nat.le_add_right i j) (by omega) ?_
      rwa [OccursAt, ← List.drop_drop, List.drop_append_of_le_length hi]
    rw [findKeyframesLoop]
    rcases hi.lt_or_eq with hlt | rfl
    · have hrest : findKeyframesLoop (a ++ r) k (i + 1) = some (some a.length) :=
        ih (fun j hj => hfirst j (by omega)) hlt (by omega)
      rw [List.getElem?_append_left hlt, List.getElem?_eq_getElem hlt]
      simp only [Option.bind_eq_bind, Option.bind_some, hfind]
      split_ifs
      · exact hrest
      · simp
      · exact hrest
    · have hk : (a ++ r)[a.length]? = some (ch 'k') := by
        obtain ⟨r', rfl⟩ := hr
        rw [List.getElem?_append_right le_rfl, Nat.sub_self]
        rfl
      simp only [Option.bind_eq_bind, hk, Option.bind_some, if_true, hfind, List.drop_length,
        List.not_mem_nil, if_false]
      simp

end Scan

section Files

/-- A file that starts with the FLV header and a script tag. `size`, `timestamp` and `prevTagSize` are the
bytes of these fields, `rest` is what was read behind the tag. -/
structure FlvFile where
  flags : UInt8
  size : Bytes
  timestamp : Bytes
  script : ScriptData
  prevTagSize : Bytes
  rest : Bytes
  flags_mem : flags ∈ [1, 4, 5]
  size_length : size.length = 3
  size_value : bigEndian size = script.text.length
  timestamp_length : timestamp.length = 4
  prevTagSize_length : prevTagSize.length = 4
  prevTagSize_value : bigEndian prevTagSize = script.text.length + 11
  first_keyframes : ∀ k < 11 + script.before.length,
    ¬ OccursAt (0x12 :: (size ++ (timestamp ++ ([0, 0, 0] ++ script.text)))) (bytes "keyframes") k
  fits : 28 + script.text.length + rest.length ≤ FLV_METADATA_READ_LEN

namespace FlvFile

variable (f : FlvFile)

def header : Bytes := bytes "FLV" ++ [1, f.flags, 0, 0, 0, 9, 0, 0, 0, 0]

def tagHeader : Bytes := 0x12 :: (f.size ++ (f.timestamp ++ [0, 0, 0]))

def withRest (r : Bytes) : Bytes := f.header ++ (f.tagHeader ++ (f.script.text ++ (f.prevTagSize ++ r)))

def text : Bytes := f.withRest f.rest

theorem header_length : f.header.length = 13 := rfl

theorem tagHeader_length : f.tagHeader.length = 11 := by
  simp [tagHeader, f.size_length, f.timestamp_length]

theorem text_length : f.text.length = 28 + f.script.text.length + f.rest.length := by
  simp only [text, withRest, List.length_append, f.header_length, f.tagHeader_length, f.prevTagSize_length]
  omega

theorem metaData_text :
    metaData f.text = f.withRest (f.rest ++ List.replicate (FLV_METADATA_READ_LEN - f.text.length) 0) := by
  simp only [metaData, text, withRest, List.append_assoc]

variable (r : Bytes)

/-- The header has one byte that looks like a tag: the 9, which is the length of the header. The size that
would follow it is zero. -/
theorem tagAt_header {i : ℕ} (hi : i < 13) (n : ℕ) : flvTagAt (f.withRest r) n i = some none := by
  by_cases h8 : i = 8
  · subst h8
    refine flvTagAt_empty ?_ ?_
    · simp only [withRest, List.length_append, f.header_length, f.tagHeader_length]
      omega
    · have heq : f.withRest r = (bytes "FLV" ++ [1, f.flags, 0, 0, 0, 9]) ++
          ([0, 0, 0] ++ (0 :: (f.tagHeader ++ (f.script.text ++ (f.prevTagSize ++ r))))) := by
        simp [withRest, header]
      rw [heq]
      exact slice_append rfl rfl
  · have hbyte : ∃ c, f.header[i]? = some c ∧ isFlvTag c = false := by
      have hall : ∀ c ∈ [1, 4, 5], ∀ i < 13, i ≠ 8 →
          ((bytes "FLV" ++ [1, c, 0, 0, 0, 9, 0, 0, 0, 0])[i]?.map isFlvTag) = some false := by
        decide +kernel
      exact Option.map_eq_some_iff.mp (hall f.flags f.flags_mem i hi h8)
    obtain ⟨c, hc, htag⟩ := hbyte
    refine flvTagAt_other ?_ htag
    rwa [withRest, List.getElem?_append_left (by rw [f.header_length]; exact hi)]

theorem bigEndian_four (p a b c : UInt8) : bigEndian [p, a, b, c] = p.toNat * 2 ^ 24 + bigEndian [a, b, c] := by
  simp only [bigEndian, List.foldl_cons, List.foldl_nil]
  ring

theorem prevTagSize_low :
    ∃ p t, f.prevTagSize = p :: t ∧ t.length = 3 ∧ bigEndian t = f.script.text.length + 11 := by
  obtain ⟨p, a, b, c, hp⟩ := List.length_eq_four.mp f.prevTagSize_length
  refine ⟨p, [a, b, c], hp, rfl, ?_⟩
  have hvalue := f.prevTagSize_value
  have hlt : f.script.text.length < 2 ^ 14 := by
    have hfits := f.fits
    rw [FLV_METADATA_READ_LEN] at hfits
    omega
  rw [hp, bigEndian_four] at hvalue
  omega

theorem script_pos : 0 < f.script.text.length := by
  simp only [ScriptData.text, ScriptData.table, ScriptData.label, List.length_append]
  have : (bytes "keyframes").length = 9 := rfl
  omega

theorem tag_byte : (f.withRest r)[13]? = some 0x12 := by
  rw [withRest, List.getElem?_append_right (by rw [f.header_length])]
  rfl

theorem tagAt_tag {n : ℕ} (hn : 13 + f.script.text.length ≤ n) :
    flvTagAt (f.withRest r) n 13 = some (some f.script.text.length) := by
  obtain ⟨p, t, hp, ht, hvalue⟩ := f.prevTagSize_low
  refine flvTagAt_script (f.tag_byte r) ?_ ?_ f.size_value ?_ hvalue f.script_pos hn
  · have heq : f.withRest r = (f.header ++ 0x12 :: (f.size ++ f.timestamp)) ++
        (List.replicate 3 0 ++ (f.script.text ++ (f.prevTagSize ++ r))) := by
      simp [withRest, tagHeader]
    have hlen : (f.header ++ 0x12 :: (f.size ++ f.timestamp)).length = 13 + 8 := by
      simp [f.header_length, f.size_length, f.timestamp_length]
    rw [heq, ← hlen]
    exact zerosAt_zeros _ _ _
  · have heq : f.withRest r = (f.header ++ [0x12]) ++
        (f.size ++ (f.timestamp ++ ([0, 0, 0] ++ (f.script.text ++ (f.prevTagSize ++ r))))) := by
      simp [withRest, tagHeader]
    rw [heq]
    exact slice_append (by simp [f.header_length]) f.size_length
  · have heq : f.withRest r = (f.header ++ (f.tagHeader ++ (f.script.text ++ [p]))) ++ (t ++ r) := by
      simp [withRest, hp]
    rw [heq]
    refine slice_append ?_ ht
    simp only [List.length_append, List.length_singleton, f.header_length, f.tagHeader_length]
    omega

theorem findTagPos_eq {n : ℕ} (hn : 13 + f.script.text.length ≤ n) :
    ngxHttpFlvKfFindTagPos (f.withRest r) n = some (some (13, f.script.text.length + 11)) := by
  obtain ⟨k, rfl⟩ : ∃ k, n = k + 1 + 13 := ⟨n - 14, by have := f.script_pos; omega⟩
  rw [ngxHttpFlvKfFindTagPos, findTagLoop_skip (k + 1) fun j hj => ?_]
  · rw [findTagLoop, f.tagAt_tag r hn]
    rfl
  · rw [Nat.zero_add]
    exact f.tagAt_header r hj _

def lead : Bytes := f.header ++ (f.tagHeader ++ f.script.before)

theorem lead_length : f.lead.length = 24 + f.script.before.length := by
  simp only [lead, List.length_append, f.header_length, f.tagHeader_length]
  omega

theorem withRest_eq : f.withRest r = f.lead ++ f.script.table (f.prevTagSize ++ r) := by
  simp [withRest, lead, ScriptData.text, ScriptData.table]

theorem findKeyframes_eq {n : ℕ} (hn : f.lead.length < n) :
    findKeyframesLoop (f.withRest r) (n - 14) 14 = some (some f.lead.length) := by
  rw [withRest_eq]
  refine findKeyframesLoop_first ?_ ?_ ?_ ?_
  · exact ⟨_, by rw [ScriptData.table, ScriptData.label, List.append_assoc]⟩
  · intro j hj hlt hocc
    rw [lead_length] at hlt
    refine f.first_keyframes (j - 13) (by omega) ?_
    rw [← withRest_eq, withRest, ← List.append_assoc f.tagHeader] at hocc
    -- the tag starts at 13, and the table behind `before` is longer than `keyframes`
    have htag : OccursAt ((f.tagHeader ++ f.script.text) ++ (f.prevTagSize ++ r)) (bytes "keyframes")
        (j - 13) := by
      rw [OccursAt, List.drop_append, List.drop_eq_nil_of_le (by rw [f.header_length]; omega), List.nil_append,
        f.header_length] at hocc
      exact hocc
    have hroom : j - 13 + (bytes "keyframes").length ≤ (f.tagHeader ++ f.script.text).length := by
      have hkey : (bytes "keyframes").length = 9 := rfl
      simp only [List.length_append, f.tagHeader_length, ScriptData.text, ScriptData.table, ScriptData.label, hkey]
      omega
    simpa [tagHeader] using htag.of_append hroom
  · rw [lead_length]
    omega
  · rw [lead_length] at hn ⊢
    omega

end FlvFile

namespace ScriptData

variable (d : ScriptData)

theorem label_length : label.length = 26 := rfl

theorem timesLabel_length : d.timesLabel.length = 12 := by
  simp only [timesLabel, List.length_append, d.timesTotal_length]
  rfl

theorem slice_total (a r : Bytes) : slice (a.length + 26) 4 (a ++ d.table r) = some d.total := by
  rw [table, ← List.append_assoc]
  exact slice_append (by rw [List.length_append, label_length]) d.total_length

theorem slice_position (a r : Bytes) {i p : ℕ} {e : FlvEntry} (he : d.positions[i]? = some e)
    (hp : a.length + 30 + 9 * i + 1 = p) : slice p 8 (a ++ d.table r) = some e.value := by
  have heq : a ++ d.table r = (a ++ (label ++ d.total)) ++
      (entriesText d.positions ++ (d.timesLabel ++ (entriesText d.times ++ (d.after ++ r)))) := by
    simp [table]
  rw [heq]
  apply slice_entry he
  simp only [List.length_append, label_length, d.total_length]
  omega

theorem timesLoop_table (toOff : ToOff) (start : ℤ) (a r : Bytes) :
    timesLoop toOff (a ++ d.table r) start d.frames.length 0 (a.length + 30 + 9 * d.frames.length + 12) =
      some (d.times.findIdx fun e => start < toOff e.value) := by
  have heq : a ++ d.table r = (a ++ (label ++ (d.total ++ (entriesText d.positions ++ d.timesLabel)))) ++
      (entriesText d.times ++ (d.after ++ r)) := by
    simp [table]
  have hlen : a.length + 30 + 9 * d.frames.length + 12 =
      (a ++ (label ++ (d.total ++ (entriesText d.positions ++ d.timesLabel)))).length := by
    simp only [List.length_append, label_length, d.total_length, entriesText_length, d.timesLabel_length, positions,
      List.length_map]
    omega
  have hcount : d.frames.length = d.times.length := by rw [times, List.length_map]
  rw [heq, hlen, hcount, timesLoop_entries, Nat.zero_add]

end ScriptData

namespace FlvFile

variable (f : FlvFile) (r : Bytes)

theorem computeOffset_eq (toOff : ToOff) {n j : ℕ} {start : ℤ} {k second : Keyframe}
    (hn : 24 + f.script.text.length ≤ n)
    (hj : (f.script.times.findIdx fun e => start < toOff e.value) = j) (hk : f.script.frames[j - 1]? = some k)
    (hsecond : f.script.frames[1]? = some second) :
    ngxHttpFlvKfComputeOffset toOff (f.withRest r) n start =
      some (some (toOff k.position.value, toOff second.position.value)) := by
  have hlead : f.lead.length < n := by
    have hlt : 26 ≤ (f.script.table []).length := by
      simp only [ScriptData.table, List.length_append, ScriptData.label_length]
      omega
    simp only [ScriptData.text, List.length_append] at hn
    rw [f.lead_length]
    omega
  have hpos : f.script.positions[j - 1]? = some k.position := by
    rw [ScriptData.positions, List.getElem?_map, hk]
    rfl
  have hpos2 : f.script.positions[1]? = some second.position := by
    rw [ScriptData.positions, List.getElem?_map, hsecond]
    rfl
  have hnum : (if j = 0 then 0 else j - 1) = j - 1 := by
    split_ifs with h
    · rw [h]
    · rfl
  have htotal := f.script.slice_total f.lead (f.prevTagSize ++ r)
  have htimes := f.script.timesLoop_table toOff start f.lead (f.prevTagSize ++ r)
  have hoffset := f.script.slice_position f.lead (f.prevTagSize ++ r) hpos rfl
  have hpre := f.script.slice_position f.lead (f.prevTagSize ++ r) hpos2 rfl
  rw [← withRest_eq] at htotal htimes hoffset hpre
  have hscript : ngxHttpFlvIsScriptTag 0x12 = true := rfl
  rw [ngxHttpFlvKfComputeOffset, f.findTagPos_eq r (by omega)]
  simp only [Option.bind_eq_bind, Option.bind_some, f.tag_byte, hscript, Bool.not_true,
    Bool.false_eq_true, if_false, f.findKeyframes_eq r hlead, htotal, f.script.total_value, htimes, hj, hnum, hoffset, hpre]
  rfl

end FlvFile

/-- The seek finds the script tag behind the file header, and leads to the last keyframe that is not behind
`start`, or to the first one when all of them are. -/
theorem flv_seek_keyframe (toOff : ToOff) (f : FlvFile) (start : ℤ) :
    ngxHttpFlvKfFindTagPos (metaData f.text) f.text.length = some (some (13, f.script.text.length + 11)) ∧
    ∃ k second : Keyframe,
      f.script.frames[(f.script.frames.findIdx fun k => start < toOff k.time.value) - 1]? = some k ∧
      f.script.frames[1]? = some second ∧
      ngxHttpFlvKfComputeOffset toOff (metaData f.text) f.text.length start =
        some (some (toOff k.position.value, toOff second.position.value)) := by
  have htext := f.text_length
  rw [f.metaData_text]
  refine ⟨f.findTagPos_eq _ (by omega), ?_⟩
  have htwo := f.script.two_le
  have htimes : (f.script.times.findIdx fun e => decide (start < toOff e.value)) =
      f.script.frames.findIdx fun k => decide (start < toOff k.time.value) := by
    rw [ScriptData.times, List.findIdx_map]
    rfl
  have hle : (f.script.frames.findIdx fun k => decide (start < toOff k.time.value)) ≤ f.script.frames.length :=
    List.findIdx_le_length
  obtain ⟨k, hk⟩ : ∃ k, f.script.frames[(f.script.frames.findIdx fun k =>
      decide (start < toOff k.time.value)) - 1]? = some k :=
    ⟨_, List.getElem?_eq_getElem (by omega)⟩
  obtain ⟨second, hsecond⟩ : ∃ k, f.script.frames[1]? = some k := ⟨_, List.getElem?_eq_getElem (by omega)⟩
  exact ⟨k, second, hk, hsecond, f.computeOffset_eq _ toOff (by omega) htimes hk hsecond⟩

def double (a b : UInt8) : Bytes := [a, b, 0, 0, 0, 0, 0, 0]

def sampleToOff : ToOff := fun m =>
  if m = double 0x40 0x14 then 5 else if m = double 0x40 0x59 then 100 else if m = double 0x40 0x69 then 200 else 0

def twoKeyframes : FlvFile where
  flags := 5
  size := [0, 0, 80]
  timestamp := [0, 0, 0, 0]
  script :=
    { before := bytes "k" ++ [0]
      total := [0, 0, 0, 2]
      frames :=
        [⟨⟨0, double 0x40 0x59, rfl⟩, ⟨0, double 0 0, rfl⟩⟩,
          ⟨⟨0, double 0x40 0x69, rfl⟩, ⟨0, double 0x40 0x14, rfl⟩⟩]
      timesTotal := [0, 0, 0, 2]
      after := []
      total_length := rfl
      total_value := rfl
      two_le := by decide
      timesTotal_length := rfl }
  prevTagSize := [0, 0, 0, 91]
  rest := []
  flags_mem := by decide
  size_length := rfl
  size_value := by decide +kernel
  timestamp_length := rfl
  prevTagSize_length := rfl
  prevTagSize_value := by decide +kernel
  first_keyframes := by decide +kernel
  fits := by decide +kernel

theorem flv_seek_keyframe_three :
    ngxHttpFlvKfComputeOffset sampleToOff (metaData twoKeyframes.text) twoKeyframes.text.length 3 =
      some (some (100, 200)) := by
  obtain ⟨-, k, second, hk, hsecond, h⟩ := flv_seek_keyframe sampleToOff twoKeyframes 3
  rw [h]
  obtain rfl := Option.some.inj hk
  obtain rfl := Option.some.inj hsecond
  rfl

end Files

end HotCache
