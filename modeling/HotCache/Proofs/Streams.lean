import HotCache.Proofs.Survive

/-! The table of streams that the playlist parser leaves behind, and the stream that
`sc_get_yk_video_tradition` picks from it. -/

namespace HotCache

open CStr

section Table

variable {types : List Bytes} {streams : List StreamInfo}

/-- The types that the response lists behind `streamfileids`. -/
def ListedTypes (data : Bytes) (types : List Bytes) : Prop :=
  ∃ m ss r r₁ r₂, (FieldAt (bytes "seed") 6 (data ++ [0]) m ∧ SeedText m ss r) ∧
    FieldAt (bytes "streamfileids") 17 r r₁ ∧ Fileids [] r₁ (some (types, r₂))

/-- After a success the table has one stream for each type of the list, in its order. -/
theorem listedTypes_iff {data : Bytes} (h : ykParsePlaylist data [] = some (0, streams)) :
    ListedTypes data types ↔ types = streams.map (·.type) := by
  unfold ykParsePlaylist at h
  simp only [ne_eq, not_true_eq_false, if_false] at h
  obtain ⟨seed, hseed, h⟩ := Option.bind_eq_some_iff.mp h
  cases seed with
  | none => cases h
  | some seed =>
    obtain ⟨r, ss⟩ := seed
    obtain ⟨v, -, h⟩ := Option.bind_eq_some_iff.mp h
    obtain ⟨⟨cur, table⟩, hids, h⟩ := Option.bind_eq_some_iff.mp h
    cases cur with
    | none => cases h
    | some cur =>
      obtain ⟨⟨cur', table'⟩, hsegs, h⟩ := Option.bind_eq_some_iff.mp h
      cases cur' with
      | none => cases h
      | some cur' =>
        obtain ⟨-, rfl⟩ := Prod.mk.inj (Option.some.inj h)
        have htypes : table'.map (·.type) = table.map (·.type) := by
          rcases parsePlSegs_some hsegs with ⟨-, hcur, -⟩ | ⟨r, -, -, heq⟩
          · cases hcur
          · rw [heq, if_neg (Option.some_ne_none cur'), map_type_seed]
        rw [htypes]
        constructor
        · rintro ⟨m, ss', r', r₁, r₂, ⟨hm, hss⟩, hr, hfileids⟩
          -- the response determines what was read
          have hseed' := parsePlSeed_of_text hm hss
          rw [hseed] at hseed'
          obtain ⟨rfl, rfl⟩ := Prod.mk.inj (Option.some.inj (Option.some.inj hseed'))
          obtain ⟨cur'', table'', hids', hout⟩ := parsePlStreamfileids_of_text hr hfileids
          rw [hids] at hids'
          obtain ⟨rfl, rfl⟩ := Prod.mk.inj (Option.some.inj hids')
          exact (Prod.mk.inj (Option.some.inj hout)).1
        · rintro rfl
          rcases parsePlSeed_some hseed with ⟨-, hnone⟩ | ⟨m, ss', r', hm, hss, heq⟩
          · cases hnone
          · obtain ⟨rfl, rfl⟩ := Prod.mk.inj (Option.some.inj heq)
            rcases parsePlStreamfileids_some hids with ⟨-, hnone, -⟩ | ⟨r₁, hr, hfileids, -⟩
            · cases hnone
            · exact ⟨m, ss, r, r₁, cur, ⟨hm, hss⟩, hr, hfileids⟩

/-- No more types than the table has room for, all of them known. -/
theorem Fileids.listed_types {m : Bytes} {out : Option (List Bytes × Bytes)} (h : Fileids types m out)
    (hlen : types.length ≤ STREAM_TYPE_TOTAL) (hknown : ∀ t ∈ types, t ∈ ykTypes) :
    ∀ types' r, out = some (types', r) → types'.length ≤ STREAM_TYPE_TOTAL ∧ ∀ t ∈ types', t ∈ ykTypes := by
  induction h with
  | stop =>
    intro types' r heq
    obtain ⟨rfl, -⟩ := Prod.mk.inj (Option.some.inj heq)
    exact ⟨hlen, hknown⟩
  | other => exact fun _ _ heq => nomatch heq
  | listed ht hpre ha hq hids hroom hb hhead hr ih =>
    refine ih (by simpa using hroom) fun t' ht' => ?_
    rcases List.mem_append.mp ht' with hold | hnew
    · exact hknown t' hold
    · rw [List.mem_singleton.mp hnew]
      exact ht

theorem ListedTypes.known {data : Bytes} (h : ListedTypes data types) :
    types.length ≤ STREAM_TYPE_TOTAL ∧ ∀ t ∈ types, t ∈ ykTypes := by
  obtain ⟨_, _, _, _, r₂, _, _, hfileids⟩ := h
  exact hfileids.listed_types (Nat.zero_le _) (by simp) types r₂ rfl

end Table

section Download

/-- The two types that `sc_get_yk_download_video_type` looks for. -/
def Downloadable (s : StreamInfo) : Prop :=
  startsWith s.type VIDEO_FLV_SUFFIX = true ∨ startsWith s.type VIDEO_MP4_SUFFIX = true

/-- The index is rejected, or the pointer that it selects is one of the table. -/
def IndexUsable (streams : List StreamInfo) : Prop :=
  downloadIndexRejected (scGetYkDownloadVideoType streams) = true ∨
  ∃ i : ℕ, scGetYkDownloadVideoType streams = i ∧ i < STREAM_TYPE_TOTAL ∧ (streams[i]?).isSome = true

/-- The loop keeps `ret` when it finds nothing, and otherwise returns an index of the table. -/
theorem downloadTypeLoop_spec (streams : List StreamInfo) (i : ℕ) (ret : ℤ)
    (hlen : i + streams.length ≤ STREAM_TYPE_TOTAL) :
    ((∀ s ∈ streams, ¬ Downloadable s) ∧ downloadTypeLoop i ret streams = ret) ∨
    ((∃ s ∈ streams, Downloadable s) ∧ ∃ j < streams.length, downloadTypeLoop i ret streams = (i + j : ℕ)) := by
  induction streams generalizing i ret with
  | nil => exact .inl ⟨by simp, rfl⟩
  | cons s streams ih =>
    simp only [List.length_cons] at hlen ⊢
    have hi : ¬ STREAM_TYPE_TOTAL ≤ i := by omega
    rw [downloadTypeLoop, if_neg hi]
    simp only
    by_cases hmp4 : startsWith s.type VIDEO_MP4_SUFFIX = true
    · rw [if_pos hmp4]
      exact .inr ⟨⟨s, by simp, .inr hmp4⟩, 0, by omega, rfl⟩
    · rw [if_neg hmp4]
      rcases ih (i + 1) (if startsWith s.type VIDEO_FLV_SUFFIX then (i : ℤ) else ret) (by omega) with
        ⟨hnone, heq⟩ | ⟨⟨s', hs', hd⟩, j, hj, heq⟩
      · rw [heq]
        by_cases hflv : startsWith s.type VIDEO_FLV_SUFFIX = true
        · rw [if_pos hflv]
          exact .inr ⟨⟨s, by simp, .inl hflv⟩, 0, by omega, rfl⟩
        · rw [if_neg hflv]
          refine .inl ⟨List.forall_mem_cons.mpr ⟨?_, hnone⟩, rfl⟩
          rintro (h | h)
          · exact hflv h
          · exact hmp4 h
      · rw [heq]
        exact .inr ⟨⟨s', by simp [hs'], hd⟩, j + 1, by omega, by push_cast; ring⟩

/-- The range test never rejects anything: no number is negative and at least four. -/
theorem downloadIndexRejected_eq (i : ℤ) : downloadIndexRejected i = false := by
  have htotal : (0 : ℤ) ≤ STREAM_TYPE_TOTAL := Int.natCast_nonneg _
  simp only [downloadIndexRejected, Bool.and_eq_false_iff, decide_eq_false_iff_not]
  omega

theorem downloadable_iff {s : StreamInfo} (h : s.type ∈ ykTypes) :
    Downloadable s ↔ s.type = VIDEO_FLV_SUFFIX ∨ s.type = VIDEO_MP4_SUFFIX := by
  have heq : ∀ t : Bytes, t.length = 3 → (startsWith s.type t = true ↔ s.type = t) := by
    intro t ht
    rw [startsWith_iff]
    constructor
    · intro hpre
      exact (hpre.eq_of_length (ht.trans (type_length h).symm)).symm
    · intro heq
      rw [heq]
  rw [Downloadable, heq VIDEO_FLV_SUFFIX rfl, heq VIDEO_MP4_SUFFIX rfl]

/-- The condition on the text, read off the table. -/
theorem listed_downloadable_iff {data : Bytes} {streams : List StreamInfo}
    (h : ykParsePlaylist data [] = some (0, streams)) :
    (∃ types, ListedTypes data types ∧ (VIDEO_FLV_SUFFIX ∈ types ∨ VIDEO_MP4_SUFFIX ∈ types)) ↔
      ∃ s ∈ streams, Downloadable s := by
  have hlisted : ListedTypes data (streams.map (·.type)) := (listedTypes_iff h).mpr rfl
  have hknown : ∀ s ∈ streams, s.type ∈ ykTypes := fun s hs => hlisted.known.2 _ (List.mem_map_of_mem hs)
  constructor
  · rintro ⟨types, ht, hmem⟩
    obtain rfl := (listedTypes_iff h).mp ht
    rcases hmem with hmem | hmem
    · obtain ⟨s, hs, hflv⟩ := List.mem_map.mp hmem
      exact ⟨s, hs, (downloadable_iff (hknown s hs)).mpr (.inl hflv)⟩
    · obtain ⟨s, hs, hmp4⟩ := List.mem_map.mp hmem
      exact ⟨s, hs, (downloadable_iff (hknown s hs)).mpr (.inr hmp4)⟩
  · rintro ⟨s, hs, hd⟩
    have hmem : s.type ∈ streams.map (·.type) := List.mem_map_of_mem hs
    refine ⟨_, hlisted, ?_⟩
    rcases (downloadable_iff (hknown s hs)).mp hd with heq | heq
    · exact .inl (heq ▸ hmem)
    · exact .inr (heq ▸ hmem)

/-- After a successful parse the selected pointer is usable exactly when the response lists a stream of one
of the two types that the client downloads. -/
theorem download_index_usable_iff {data : Bytes} {streams : List StreamInfo}
    (h : ykParsePlaylist data [] = some (0, streams)) :
    IndexUsable streams ↔
      ∃ types, ListedTypes data types ∧ (VIDEO_FLV_SUFFIX ∈ types ∨ VIDEO_MP4_SUFFIX ∈ types) := by
  have hlen := ((listedTypes_iff h).mpr rfl).known.1
  rw [List.length_map] at hlen
  rw [listed_downloadable_iff h]
  unfold IndexUsable
  rw [downloadIndexRejected_eq]
  rcases downloadTypeLoop_spec streams 0 (-1) (by omega) with ⟨hnone, heq⟩ | ⟨hex, j, hj, heq⟩
  · constructor
    · rintro (hf | ⟨i, hi, -, -⟩)
      · cases hf
      · rw [scGetYkDownloadVideoType, heq] at hi
        omega
    · rintro ⟨s, hs, hd⟩
      exact absurd hd (hnone s hs)
  · refine ⟨fun _ => hex, fun _ => .inr ⟨j, ?_, by omega, ?_⟩⟩
    · rw [scGetYkDownloadVideoType, heq, Nat.zero_add]
    · simpa using hj

def oneStream (t : String) : Bytes :=
  bytes "\"seed\":1234,\"streamfileids\":\x7b\"" ++ bytes t ++
    bytes "\":\"11*22*33*\"\x7d,\"segs\":\x7b\"" ++ bytes t ++
    bytes "\":[\x7b\"no\":\"0\",\"size\":\"9\",\"seconds\":\"7\",\"k\":\"ab\",\"k2\":\"cd\"\x7d]\x7d,\"streamsizes\""

def oneTable (t : String) : List StreamInfo := ((ykParsePlaylist (oneStream t) []).map Prod.snd).getD []

theorem download_index_usable_mp4 :
    ykParsePlaylist (oneStream "mp4") [] = some (0, oneTable "mp4") ∧ IndexUsable (oneTable "mp4") := by
  have h : ykParsePlaylist (oneStream "mp4") [] = some (0, oneTable "mp4") := by decide +kernel
  have hmp4 : VIDEO_MP4_SUFFIX ∈ (oneTable "mp4").map (·.type) := by decide +kernel
  exact ⟨h, (download_index_usable_iff h).mpr ⟨_, (listedTypes_iff h).mpr rfl, .inr hmp4⟩⟩

/-- A playlist with only an `hd2` stream parses, and the client takes `streams[-1]`. -/
theorem download_index_negative :
    ykParsePlaylist (oneStream "hd2") [] = some (0, oneTable "hd2") ∧
    scGetYkDownloadVideoType (oneTable "hd2") = -1 ∧ ¬ IndexUsable (oneTable "hd2") := by
  have h : ykParsePlaylist (oneStream "hd2") [] = some (0, oneTable "hd2") ∧
      scGetYkDownloadVideoType (oneTable "hd2") = -1 := by decide +kernel
  refine ⟨h.1, h.2, ?_⟩
  rintro (hr | ⟨i, hi, -, -⟩)
  · rw [downloadIndexRejected_eq] at hr
    cases hr
  · rw [h.2] at hi
    omega

end Download

end HotCache
