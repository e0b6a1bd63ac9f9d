import HotCache.Proofs.FlvScan

/-! The length that the FLV handler announces and the buffers that it sends. The two agree when nothing is
looked up and when the lookup fails; when it succeeds, the positions of the keyframe table decide. -/

namespace HotCache

open CStr

def FlvBuf.length : FlvBuf → ℤ
  | .memory data => data.length
  | .file filePos fileLast => fileLast - filePos

def FlvBuf.InFile (size : ℕ) : FlvBuf → Prop
  | .memory _ => True
  | .file filePos fileLast => 0 ≤ filePos ∧ filePos ≤ fileLast ∧ fileLast ≤ size

/-- The length is that of the buffers, and they are in the file. -/
structure FlvResponse.LengthSent (size : ℕ) (r : FlvResponse) : Prop where
  length : r.contentLengthN = (r.out.map FlvBuf.length).sum
  inFile : ∀ b ∈ r.out, b.InFile size

/-- The argument asks for a seek to `start`. -/
structure SeekArg (size : ℕ) (value : Option Bytes) (start : ℤ) : Prop where
  arg : value.bind ngxAtoof = some start
  ne_zero : start ≠ 0
  lt : start < size

def seekResponse (size : ℕ) (start : ℤ) : Option (ℤ × ℤ) → FlvResponse
  | none => ⟨ngxFlvHeader.length + size - start, [.memory ngxFlvHeader, .file start size]⟩
  | some (offset, preKf2Size) =>
    ⟨size - offset + preKf2Size,
      [if preKf2Size ≠ 0 then .file 0 preKf2Size else .memory ngxFlvHeader, .file offset size]⟩

section Handler

variable {toOff : ToOff} {file : Bytes} {readable : Bool} {size : ℕ} {value : Option Bytes} {start : ℤ}

theorem ngxAtoof_nonneg {line : Bytes} {v : ℤ} (h : ngxAtoof line = some v) : 0 ≤ v := by
  unfold ngxAtoof at h
  split_ifs at h
  split at h
  · cases h
  · split_ifs at h with hneg
    obtain rfl := Option.some.inj h
    omega

theorem SeekArg.pos (h : SeekArg size value start) : 0 < start := by
  obtain ⟨line, -, hline⟩ := Option.bind_eq_some_iff.mp h.arg
  have hnonneg := ngxAtoof_nonneg hline
  have hne := h.ne_zero
  omega

theorem flvHandler_whole (h : ∀ start, ¬ SeekArg size value start) :
    ngxHttpFlvHandler toOff file readable size value = some ⟨size, [.file 0 size]⟩ := by
  unfold ngxHttpFlvHandler
  rcases hv : value.bind ngxAtoof with _ | start
  · rfl
  · have hzero : (if (size : ℤ) ≤ start then 0 else start) = 0 := by
      split_ifs with hle
      · rfl
      · by_contra hne
        exact h start ⟨hv, hne, by omega⟩
    simp only [hzero, if_true]

theorem flvHandler_seek (h : SeekArg size value start) :
    ngxHttpFlvHandler toOff file readable size value =
      (if readable then ngxHttpFlvTimeToOffset toOff file start else some none).map
        (seekResponse size start) := by
  have hlt := h.lt
  have hstart : (if (size : ℤ) ≤ start then 0 else start) = start := if_neg (by omega)
  unfold ngxHttpFlvHandler
  simp only [h.arg, hstart, if_neg h.ne_zero, Option.bind_eq_bind]
  cases readable with
  | false => rfl
  | true =>
    rw [if_pos rfl, if_pos rfl]
    rcases ngxHttpFlvTimeToOffset toOff file start with _ | _ | ⟨offset, pre⟩
    · rfl
    · rfl
    · rfl

theorem lengthSent_whole : FlvResponse.LengthSent size ⟨size, [.file 0 size]⟩ where
  length := by simp [FlvBuf.length]
  inFile b hb := by
    rw [List.mem_singleton.mp hb]
    exact ⟨le_rfl, by omega, le_rfl⟩

theorem lengthSent_bytes (h : SeekArg size value start) : (seekResponse size start none).LengthSent size where
  length := by
    simp only [seekResponse, List.map_cons, List.map_nil, List.sum_cons, List.sum_nil, FlvBuf.length]
    ring
  inFile b hb := by
    have hpos := h.pos
    have hlt := h.lt
    simp only [seekResponse, List.mem_cons, List.not_mem_nil, or_false] at hb
    rcases hb with rfl | rfl
    · trivial
    · exact ⟨by omega, by omega, le_rfl⟩

/-- The length counts the beginning of the file and never the header. -/
theorem lengthSent_found_iff {offset pre : ℤ} :
    (seekResponse size start (some (offset, pre))).LengthSent size ↔
      (0 ≤ offset ∧ offset ≤ size) ∧ 0 < pre ∧ pre ≤ size := by
  rcases eq_or_ne pre 0 with rfl | hpre
  · refine iff_of_false (fun h => ?_) fun h => by omega
    have hlen := h.length
    have hheader : ngxFlvHeader.length = 13 := rfl
    simp only [seekResponse, ne_eq, not_true_eq_false, if_false, List.map_cons, List.map_nil, List.sum_cons,
      List.sum_nil, FlvBuf.length, hheader] at hlen
    omega
  · simp only [seekResponse, if_pos hpre]
    constructor
    · intro h
      have hfirst := h.inFile (.file 0 pre) List.mem_cons_self
      have hsecond := h.inFile (.file offset size) (List.mem_cons_of_mem _ List.mem_cons_self)
      exact ⟨⟨hsecond.1, hsecond.2.1⟩, lt_of_le_of_ne hfirst.2.1 hpre.symm, hfirst.2.2⟩
    · rintro ⟨⟨hoffset, hoffset'⟩, hpos, hpre'⟩
      refine ⟨?_, fun b hb => ?_⟩
      · simp only [List.map_cons, List.map_nil, List.sum_cons, List.sum_nil, FlvBuf.length]
        ring
      · simp only [List.mem_cons, List.not_mem_nil, or_false] at hb
        rcases hb with rfl | rfl
        · exact ⟨le_rfl, by omega, hpre'⟩
        · exact ⟨hoffset, hoffset', le_rfl⟩

end Handler

/-- The handler ends with an answer of the length that it announces. -/
def AnswersInLength (toOff : ToOff) (file : Bytes) (readable : Bool) (size : ℕ) (value : Option Bytes) :
    Prop :=
  ∃ r, ngxHttpFlvHandler toOff file readable size value = some r ∧ r.LengthSent size

/-- The length is right unless there is a seek in a file that can be read, and then exactly when the lookup
stays in its block and both positions that it takes from the table, if there is one, are positions of
the file, the second of them not 0. -/
theorem flv_length_sent_iff (toOff : ToOff) (file : Bytes) (readable : Bool) (size : ℕ)
    (value : Option Bytes) :
    AnswersInLength toOff file readable size value ↔
      ∀ start, SeekArg size value start → readable = true →
        SeekInside toOff (metaData (readData file)) (readData file).length start ∧
        ∀ offset pre, SeeksTo toOff (metaData (readData file)) (readData file).length start offset pre →
          (0 ≤ offset ∧ offset ≤ size) ∧ 0 < pre ∧ pre ≤ size := by
  by_cases hseek : ∃ start, SeekArg size value start
  · obtain ⟨start, hstart⟩ := hseek
    have honly : ∀ start', SeekArg size value start' → start = start' := fun start' h' =>
      Option.some.inj (hstart.arg.symm.trans h'.arg)
    unfold AnswersInLength
    rw [flvHandler_seek hstart]
    cases readable with
    | false => exact iff_of_true ⟨_, rfl, lengthSent_bytes hstart⟩ fun _ _ h => by cases h
    | true =>
      rw [if_pos rfl]
      rcases timeToOffset_cases toOff file start with
        ⟨hin, hno, h⟩ | ⟨offset, pre, hin, hseeks, h⟩ | ⟨hnot, h⟩
      · rw [h]
        refine iff_of_true ⟨_, rfl, lengthSent_bytes hstart⟩ fun start' h' _ => ?_
        obtain rfl := honly start' h'
        exact ⟨hin, fun offset pre hseeks => absurd hseeks (hno offset pre)⟩
      · rw [h]
        constructor
        · rintro ⟨r, hr, hlen⟩ start' h' -
          obtain rfl := Option.some.inj hr
          obtain rfl := honly start' h'
          refine ⟨hin, fun offset' pre' hseeks' => ?_⟩
          obtain ⟨rfl, rfl⟩ := hseeks.unique hseeks'
          exact lengthSent_found_iff.mp hlen
        · intro hall
          exact ⟨_, rfl, lengthSent_found_iff.mpr ((hall start hstart rfl).2 offset pre hseeks)⟩
      · rw [h]
        refine iff_of_false ?_ fun hall => hnot (hall start hstart rfl).1
        rintro ⟨r, hr, -⟩
        cases hr
  · have hno : ∀ start, ¬ SeekArg size value start := fun start h => hseek ⟨start, h⟩
    exact iff_of_true ⟨_, flvHandler_whole hno, lengthSent_whole⟩ fun start h => absurd h (hno start)

/-- A script tag with a single keyframe, at the beginning of the video. Its second position is read from the
label of the times, and that is nearly 0 as a `double`. -/
def oneKeyframe : Bytes :=
  bytes "FLV" ++ [1, 5, 0, 0, 0, 9, 0, 0, 0, 0] ++ ([0x12, 0, 0, 60, 0, 0, 0, 0, 0, 0, 0] ++
    (ScriptData.label ++ ([0, 0, 0, 1] ++ ((0 :: double 0x40 0x59) ++ ([0, 5] ++ (bytes "times" ++
      ([0x0A, 0, 0, 0, 1] ++ ((0 :: double 0 0) ++ ([0, 0, 0, 71] ++ List.replicate 212 0)))))))))

theorem flv_header_not_counted :
    ¬ AnswersInLength sampleToOff oneKeyframe true oneKeyframe.length (some (bytes "5")) := by
  rintro ⟨r, hr, h⟩
  have hanswer : ngxHttpFlvHandler sampleToOff oneKeyframe true oneKeyframe.length (some (bytes "5")) =
      some ⟨200, [.memory ngxFlvHeader, .file 100 300]⟩ := by
    decide +kernel
  rw [hanswer] at hr
  obtain rfl := Option.some.inj hr
  have hlen := h.length
  simp [FlvBuf.length, ngxFlvHeader, bytes] at hlen

end HotCache
