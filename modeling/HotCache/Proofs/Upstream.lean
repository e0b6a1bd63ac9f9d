import HotCache.Proofs.Getfile
import HotCache.Proofs.Pool
import HotCache.Spec.Handler
import HotCache.Spec.Upstream

/-! Which record a finished getfile download marks, and with which flag. -/

namespace HotCache

open CStr

section Scan

variable {rl : ResList} {lp : Bytes}

/-- No slot before `c` has a path that starts with `lp`. -/
def NoneBefore (rl : ResList) (lp : Bytes) (c : CtntIdx) : Prop :=
  ∀ j < c, ¬ lp <+: (rl.ctnt j).localpath

/-- `c` is the first slot whose path starts with `lp`. -/
def FirstMatch (rl : ResList) (lp : Bytes) (c : CtntIdx) : Prop :=
  lp <+: (rl.ctnt c).localpath ∧ NoneBefore rl lp c

theorem noneBefore_of_all {c : CtntIdx}
    (h : ((List.finRange SC_RES_INFO_NUM_MAX_CTNT).all fun j => c ≤ j || !lp.isPrefixOf (rl.ctnt j).localpath) = true) :
    NoneBefore rl lp c := by
  intro j hj hpre
  have hb := List.all_eq_true.mp h j (List.mem_finRange j)
  rw [List.isPrefixOf_iff_prefix.mpr hpre, Bool.not_true, Bool.or_false] at hb
  exact absurd hj (not_lt.mpr (of_decide_eq_true hb))

theorem FirstMatch.le {c j : CtntIdx} (h : FirstMatch rl lp c) (hj : lp <+: (rl.ctnt j).localpath) :
    c ≤ j := by
  by_contra hlt
  exact h.2 j (not_le.mp hlt) hj

theorem find_match_iff (c : CtntIdx) :
    ((List.finRange SC_RES_INFO_NUM_MAX_CTNT).find? fun i =>
      ngxHttpUpstreamScResMatchLocalpath (rl.ctnt i) lp) = some c ↔ FirstMatch rl lp c := by
  rw [← Fin.find?_eq_find?_finRange, Fin.find?_eq_some_iff, FirstMatch, NoneBefore]
  simp only [ngxHttpUpstreamScResMatchLocalpath, startsWith_iff, ← Bool.not_eq_true]

/-- A scan finds nothing, or ends at the first match. -/
theorem scan_cases (rl : ResList) (lp : Bytes) :
    (scanLocalpath rl lp = .notFound ∧ ∀ i, ¬ lp <+: (rl.ctnt i).localpath) ∨
    ∃ c, FirstMatch rl lp c ∧
      scanLocalpath rl lp = if (rl.ctnt c).flag.stored then .reStore c else .marked c := by
  unfold scanLocalpath
  split
  next hfind =>
    refine .inl ⟨rfl, fun i hi => ?_⟩
    have := List.find?_eq_none.mp hfind i (List.mem_finRange i)
    rw [ngxHttpUpstreamScResMatchLocalpath, startsWith_iff] at this
    exact this hi
  next c hfind => exact .inr ⟨c, (find_match_iff c).mp hfind, rfl⟩

theorem scan_firstMatch {c : CtntIdx} (h : FirstMatch rl lp c) :
    scanLocalpath rl lp = if (rl.ctnt c).flag.stored then .reStore c else .marked c := by
  unfold scanLocalpath
  rw [(find_match_iff c).mpr h]

/-- The scan with flag write `set` does what it is for: it writes only to a slot in use whose path
is `lp`, and if a slot has the path `lp`, then such a slot is written to or reported as stored. -/
def MarksRight (set : Flag → Flag) (r : Request) (lp : Bytes) : Prop :=
  (∀ c, scanLocalpath r.rl lp = .marked c → r.rl.LiveCtnt c ∧ (r.rl.ctnt c).localpath = lp) ∧
  (∀ c, scanLocalpath r.rl lp ≠ .marked c → (markRequest set r).rl.ctnt c = r.rl.ctnt c) ∧
  ((∃ c, (r.rl.ctnt c).localpath = lp) →
    ∃ c, (r.rl.ctnt c).localpath = lp ∧
      ((scanLocalpath r.rl lp = .marked c ∧ ((markRequest set r).rl.ctnt c).flag = set (r.rl.ctnt c).flag) ∨
        scanLocalpath r.rl lp = .reStore c))

/-- No slot that only starts with `lp`, and no free slot, comes before the slot that is meant. -/
def PathsSeparated (rl : ResList) (lp : Bytes) : Prop :=
  ((∃ c, (rl.ctnt c).localpath = lp) → ∀ i, lp <+: (rl.ctnt i).localpath →
    ∃ j ≤ i, (rl.ctnt j).localpath = lp ∧ (rl.LiveCtnt j ∨ (rl.ctnt j).flag.stored = true)) ∧
  ((¬ ∃ c, (rl.ctnt c).localpath = lp) → ∀ i, lp <+: (rl.ctnt i).localpath →
    ∃ j ≤ i, lp <+: (rl.ctnt j).localpath ∧ (rl.ctnt j).flag.stored = true)

theorem markRequest_rl {r : Request} (hget : r.getfile = true)
    (hargs : argsLocalpath r.args = some lp)
    (set : Flag → Flag) : (markRequest set r).rl = markLocalpath set r.rl lp := by
  simp only [markRequest, hargs, hget, if_true]

theorem markLocalpath_other (set : Flag → Flag) {c : CtntIdx}
    (h : scanLocalpath rl lp ≠ .marked c) :
    (markLocalpath set rl lp).ctnt c = rl.ctnt c := by
  unfold markLocalpath
  split
  next i hi =>
    have hci : c ≠ i := by rintro rfl; exact h hi
    exact setFlag_other set hci
  next => rfl

theorem markLocalpath_marked (set : Flag → Flag) {c : CtntIdx}
    (h : scanLocalpath rl lp = .marked c) :
    markLocalpath set rl lp = rl.setFlag c set := by
  unfold markLocalpath
  rw [h]

/-- For every list and every getfile request, the scan marks the right record exactly when the
paths in the list are separated from the requested one. -/
theorem marks_right_iff (set : Flag → Flag) (r : Request) (lp : Bytes) (hget : r.getfile = true)
    (hargs : strstr r.args.text (bytes "localpath=") = some (bytes "localpath=" ++ lp)) :
    MarksRight set r lp ↔ PathsSeparated r.rl lp := by
  have hrl := markRequest_rl hget (argsLocalpath_eq hargs) set
  have hother : ∀ c, scanLocalpath r.rl lp ≠ .marked c → (markRequest set r).rl.ctnt c = r.rl.ctnt c := by
    intro c hc
    rw [hrl]
    exact markLocalpath_other set hc
  unfold MarksRight PathsSeparated
  rcases scan_cases r.rl lp with ⟨hscan, hnone⟩ | ⟨c, hfirst, hscan⟩
  · -- nothing starts with `lp`, so nothing is written and no slot has the path
    have hno : ¬ ∃ c, (r.rl.ctnt c).localpath = lp := by
      rintro ⟨c, hc⟩
      exact hnone c (by rw [hc])
    simp only [hno, hnone, hscan, false_implies, implies_true, not_false_eq_true, and_true]
    exact ⟨fun _ => trivial, fun _ => ⟨by simp, fun c => by simpa [hscan] using hother c⟩⟩
  · have heq : ∀ j, scanLocalpath r.rl lp = .marked j ∨ scanLocalpath r.rl lp = .reStore j → j = c := by
      intro j hj
      rw [hscan] at hj
      split at hj <;> simp_all
    constructor
    · rintro ⟨honly, -, hmeant⟩
      have hstored : (r.rl.ctnt c).flag.stored = true ∨ (r.rl.LiveCtnt c ∧ (r.rl.ctnt c).localpath = lp) := by
        by_cases hst : (r.rl.ctnt c).flag.stored = true
        · exact .inl hst
        · rw [if_neg hst] at hscan
          exact .inr (honly c hscan)
      refine ⟨fun hex i hi => ?_, fun hno i hi => ⟨c, hfirst.le hi, hfirst.1, ?_⟩⟩
      · obtain ⟨j, hj, hmark⟩ := hmeant hex
        obtain rfl := heq j (hmark.imp_left And.left)
        exact ⟨j, hfirst.le hi, hj, hstored.symm.imp_left And.left⟩
      · exact hstored.resolve_right fun h => hno ⟨c, h.2⟩
    · rintro ⟨hsep, hnone⟩
      -- the slot that the condition names is not after the first match, so it is the first match
      have hc : (∃ i, (r.rl.ctnt i).localpath = lp) →
          (r.rl.ctnt c).localpath = lp ∧ (r.rl.LiveCtnt c ∨ (r.rl.ctnt c).flag.stored = true) := by
        intro hex
        obtain ⟨j, hjc, hj, hgood⟩ := hsep hex c hfirst.1
        obtain rfl : j = c := le_antisymm hjc (hfirst.le (by rw [hj]))
        exact ⟨hj, hgood⟩
      refine ⟨fun j hj => ?_, hother, fun hex => ⟨c, (hc hex).1, ?_⟩⟩
      · obtain rfl := heq j (.inl hj)
        have hst : ¬ (r.rl.ctnt j).flag.stored = true := by
          intro hst
          simp [hst, hj] at hscan
        by_cases hex : ∃ i, (r.rl.ctnt i).localpath = lp
        · exact ⟨(hc hex).2.resolve_right hst, (hc hex).1⟩
        · obtain ⟨i, hij, hi, hist⟩ := hnone hex j hfirst.1
          obtain rfl : i = j := le_antisymm hij (hfirst.le hi)
          exact absurd hist hst
      · by_cases hst : (r.rl.ctnt c).flag.stored = true
        · exact .inr (by rw [hscan, if_pos hst])
        · have hmark : scanLocalpath r.rl lp = .marked c := by rw [hscan, if_neg hst]
          refine .inl ⟨hmark, ?_⟩
          rw [hrl, markLocalpath_marked set hmark, setFlag_self]

end Scan

def twoDowns (url₁ url₂ : Bytes) : ResList :=
  let add (rl : ResList) (url : Bytes) : ResList :=
    match @scResInfoAddNormal sampleLayout rl url with
    | (some m, rl) => (@scResInfoAddCtnt sampleLayout rl m url true).2
    | (none, rl) => rl
  add (add (@scResListAllocAndInit sampleLayout) url₁) url₂

/-- The getfile request of `f.youku.com/v/1.flv` for `lp`, with the header of a 200 response already sent.
`getfile` is what `ngx_http_getfile_handler` makes of it. -/
def getfileRequest (rl : ResList) (lp : Bytes) (contentLengthN : ℤ) : Request :=
  let args := getfileArgs (bytes "f.youku.com/v/1.flv") lp
  { args := ⟨args ++ bytes " HTTP/1.1", args.length⟩
    uri := bytes "/getfile"
    root := bytes "/usr/local/nginx/html"
    getfile := getfileSupportType (bytes "GET /getfile?") args
    statusN := NGX_HTTP_OK
    contentLengthN := contentLengthN
    rl := rl }

theorem getfileRequest_rl (rl : ResList) (lp : Bytes) (n : ℤ) :
    (getfileRequest rl lp n).rl = rl := rfl

/-- In the other order of additions the shorter path comes first in the array. -/
theorem marks_right_shorter_first :
    MarksRight setDFail (getfileRequest (twoDowns (bytes "f.youku.com/v/1.flv.flv") (bytes "f.youku.com/v/1.flv"))
      (bytes "f_youku_com/v_1.flv") 3) (bytes "f_youku_com/v_1.flv") := by
  refine (marks_right_iff setDFail _ _ (by decide +kernel) (by decide +kernel)).mpr
    ⟨fun _ i hi => ⟨4094, ?_, ?_, .inl ?_⟩, fun hno => ?_⟩
  · by_contra hlt
    exact noneBefore_of_all (by decide +kernel) i (not_le.mp hlt) hi
  · decide +kernel
  · decide +kernel
  · exact absurd ⟨4094, by decide +kernel⟩ hno

/-- The end of the download of `v_1.flv` marks `v_1.flv.flv`, which was added later and has a lower slot. -/
theorem marks_longer_path :
    (getfileRequest (twoDowns (bytes "f.youku.com/v/1.flv") (bytes "f.youku.com/v/1.flv.flv"))
      (bytes "f_youku_com/v_1.flv") 3).getfile = true ∧
    ¬ MarksRight setStored (getfileRequest (twoDowns (bytes "f.youku.com/v/1.flv") (bytes "f.youku.com/v/1.flv.flv"))
      (bytes "f_youku_com/v_1.flv") 3) (bytes "f_youku_com/v_1.flv") := by
  refine ⟨by decide +kernel, ?_⟩
  rintro ⟨honly, -, -⟩
  have h := (honly 4094 (by decide +kernel)).2
  revert h
  decide +kernel

section Download

variable {ans : StoreAnswer} {r : Request} {lp : Bytes}

def PipeEvent.written : PipeEvent → Option ℕ
  | .timedout => none
  | .pipe written .. => written
  | .abort written => written

def PipeEvent.ends : PipeEvent → Bool
  | .pipe _ eof done error _ => eof || done || error
  | _ => true

def PipeEvent.over : PipeEvent → Bool
  | .pipe _ eof done _ length => done || (eof && length == -1)
  | _ => false

/-- The body that the events deliver on top of `tf` is complete: the response is over, with as many
bytes as announced. -/
def bodyComplete (contentLengthN : ℤ) : TempFile → List PipeEvent → Bool
  | _, [] => false
  | tf, e :: evs =>
    if e.ends then e.over && (contentLengthN == -1 || contentLengthN == (tf.write e.written).offset)
    else bodyComplete contentLengthN (tf.write e.written) evs

def bodyWritten : TempFile → List PipeEvent → Bool
  | tf, [] => tf.opened
  | tf, e :: evs =>
    if e.ends then (tf.write e.written).opened else bodyWritten (tf.write e.written) evs

/-- `ngx_http_upstream_store` gets through to the rename, and the rename succeeds. -/
def StoreAnswer.succeeds (ans : StoreAnswer) (opened : Bool) : Bool :=
  (opened || (ans.pcalloc && ans.createTempFile)) && ans.extRenameFile

/-- What the request has become once it is finalized. -/
structure Finished (ans : StoreAnswer) (r r' : Request) (lp : Bytes) (complete opened : Bool) : Prop where
  rl : r'.rl =
    if complete then markLocalpath setStored r.rl lp
    else if opened then markLocalpath setDFail r.rl lp else r.rl
  stored : r'.stored = if complete && ans.succeeds opened then some (r.root ++ ch '/' :: lp) else none

theorem store_rl (ans : StoreAnswer) (r : Request) :
    (ngxHttpUpstreamStore ans r).rl = r.rl ∧ (ngxHttpUpstreamStore ans r).args = r.args ∧
    (ngxHttpUpstreamStore ans r).getfile = r.getfile := by
  unfold ngxHttpUpstreamStore
  split_ifs <;> simp

theorem store_stored (h : Download r lp) :
    (ngxHttpUpstreamStore ans r).stored =
      if ans.succeeds r.pipe.tempFile.opened then some (r.root ++ ch '/' :: lp) else none := by
  have hpath := mapUriToPath_localpath r.root r.uri 0 h.args
  unfold ngxHttpUpstreamStore StoreAnswer.succeeds
  split_ifs <;> simp_all [h.fresh, h.getfile]

theorem markRequest_stored (set : Flag → Flag) (r : Request) :
    (markRequest set r).stored = r.stored := by
  unfold markRequest
  split
  · split_ifs <;> rfl
  · rfl

theorem finalize_finished (ans : StoreAnswer) (h : Download r lp) :
    Finished ans r (ngxHttpUpstreamFinalizeRequest r) lp false r.pipe.tempFile.opened := by
  unfold ngxHttpUpstreamFinalizeRequest
  by_cases ho : r.pipe.tempFile.opened = true
  · rw [if_pos ⟨h.store, ho⟩]
    constructor
    · simp only [ho, if_true, Bool.false_eq_true, if_false]
      exact markRequest_rl (r := { r with connected := false }) h.getfile h.args setDFail
    · rw [markRequest_stored]
      exact h.fresh
  · rw [if_neg fun hc => ho hc.2]
    constructor
    · simp [ho]
    · exact h.fresh

theorem finalize_connected (r : Request) :
    (ngxHttpUpstreamFinalizeRequest r).connected = false := by
  have hmark : ∀ (set : Flag → Flag) (r : Request), (markRequest set r).connected = r.connected := by
    intro set r
    unfold markRequest
    split
    · split_ifs <;> rfl
    · rfl
  simp only [ngxHttpUpstreamFinalizeRequest]
  split_ifs
  · rw [hmark]
  · rfl

def Pipe.complete (p : Pipe) (contentLengthN : ℤ) : Bool :=
  (p.upstreamDone || (p.upstreamEof && p.length == -1)) &&
    (contentLengthN == -1 || contentLengthN == p.tempFile.offset)

theorem processRequest_ended (ans : StoreAnswer) (h : Download r lp)
    (hend : r.pipe.upstreamDone = true ∨ r.pipe.upstreamEof = true ∨ r.pipe.upstreamError = true) :
    Finished ans r (ngxHttpUpstreamProcessRequest ans r) lp (r.pipe.complete r.contentLengthN)
      r.pipe.tempFile.opened ∧ (ngxHttpUpstreamProcessRequest ans r).connected = false := by
  unfold ngxHttpUpstreamProcessRequest
  simp only [h.connected, Bool.not_true, Bool.false_eq_true, if_false, if_pos hend]
  refine ⟨?_, finalize_connected _⟩
  by_cases hc : r.pipe.complete r.contentLengthN = true
  · -- stored, and `u->store` cleared: the finalization leaves the list alone
    have htest : r.store = true ∧ (r.pipe.upstreamEof = true ∨ r.pipe.upstreamDone = true) ∧
        r.statusN = NGX_HTTP_OK ∧ (r.pipe.upstreamDone = true ∨ r.pipe.length = -1) ∧
        (r.contentLengthN = -1 ∨ r.contentLengthN = r.pipe.tempFile.offset) := by
      refine ⟨h.store, ?_, h.status, ?_⟩ <;> simp_all [Pipe.complete] <;> tauto
    obtain ⟨hrl, hargs, hget⟩ := store_rl ans r
    rw [if_pos htest, ngxHttpUpstreamFinalizeRequest, if_neg (by simp)]
    constructor
    · simp only [hc, if_true]
      rw [markRequest_rl (hget.trans h.getfile) (by rw [hargs]; exact h.args), hrl]
    · simp only [hc, Bool.true_and, markRequest_stored]
      exact store_stored h
  · have htest : ¬ (r.store = true ∧ (r.pipe.upstreamEof = true ∨ r.pipe.upstreamDone = true) ∧
        r.statusN = NGX_HTTP_OK ∧ (r.pipe.upstreamDone = true ∨ r.pipe.length = -1) ∧
        (r.contentLengthN = -1 ∨ r.contentLengthN = r.pipe.tempFile.offset)) := by
      rintro ⟨-, h1, -, h2, h3⟩
      simp [Pipe.complete] at hc
      tauto
    rw [if_neg htest, Bool.eq_false_iff.mpr hc]
    exact finalize_finished ans h

theorem processUpstream_ends (ans : StoreAnswer) (h : Receiving r lp) {e : PipeEvent}
    (he : e.ends = true) :
    Finished ans r (ngxHttpUpstreamProcessUpstream ans r e) lp
      (e.over && (r.contentLengthN == -1 || r.contentLengthN == (r.pipe.tempFile.write e.written).offset))
      (r.pipe.tempFile.write e.written).opened ∧
    (ngxHttpUpstreamProcessUpstream ans r e).connected = false := by
  unfold ngxHttpUpstreamProcessUpstream
  rw [if_neg (by simp [h.connected])]
  have hd : ∀ p : Pipe, Download { r with pipe := p } lp := fun p =>
    ⟨h.connected, h.store, h.getfile, h.status, h.args, h.fresh⟩
  cases e with
  | timedout =>
    obtain ⟨hf, hc⟩ := processRequest_ended ans (hd { r.pipe with upstreamError := true }) (.inr (.inr rfl))
    have hno : ({ r.pipe with upstreamError := true } : Pipe).complete r.contentLengthN = false := by
      simp [Pipe.complete, h.eof, h.done]
    rw [hno] at hf
    exact ⟨⟨hf.rl, hf.stored⟩, hc⟩
  | pipe written eof done error length =>
    obtain ⟨hf, hc⟩ := processRequest_ended ans (hd { r.pipe with
        upstreamEof := eof, upstreamDone := done, upstreamError := error, length := length,
        tempFile := r.pipe.tempFile.write written })
      (by simp only [PipeEvent.ends, Bool.or_eq_true] at he; tauto)
    exact ⟨⟨hf.rl, hf.stored⟩, hc⟩
  | abort written =>
    have hf := finalize_finished ans (hd { r.pipe with tempFile := r.pipe.tempFile.write written })
    exact ⟨⟨hf.rl, hf.stored⟩, finalize_connected _⟩

/-- An event that does not end the response only moves the temporary file on. -/
theorem processUpstream_goes_on (ans : StoreAnswer) (h : Receiving r lp) {e : PipeEvent}
    (he : e.ends = false) :
    ∃ p : Pipe, p.tempFile = r.pipe.tempFile.write e.written ∧
      ngxHttpUpstreamProcessUpstream ans r e = { r with pipe := p } ∧
        Receiving { r with pipe := p } lp := by
  cases e with
  | timedout => simp [PipeEvent.ends] at he
  | abort written => simp [PipeEvent.ends] at he
  | pipe written eof done error length =>
    simp only [PipeEvent.ends, Bool.or_eq_false_iff] at he
    obtain ⟨⟨rfl, rfl⟩, rfl⟩ := he
    refine ⟨{ r.pipe with
      upstreamEof := false, upstreamDone := false, upstreamError := false, length := length,
      tempFile := r.pipe.tempFile.write written }, rfl, ?_, ?_⟩
    · simp [ngxHttpUpstreamProcessUpstream, ngxHttpUpstreamProcessRequest, h.connected, h.store]
    · exact ⟨⟨h.connected, h.store, h.getfile, h.status, h.args, h.fresh⟩, rfl, rfl, rfl⟩

theorem run_disconnected (ans : StoreAnswer) (h : r.connected = false) (evs : List PipeEvent) :
    runUpstream ans r evs = r := by
  induction evs with
  | nil => rfl
  | cons e evs ih =>
    have hstep : ngxHttpUpstreamProcessUpstream ans r e = r := by simp [ngxHttpUpstreamProcessUpstream, h]
    rw [runUpstream, List.foldl_cons, hstep]
    exact ih

/-- The state of a request once a run of events has finalized it. -/
theorem run_finished (ans : StoreAnswer) (h : Receiving r lp) (evs : List PipeEvent)
    (hfin : (runUpstream ans r evs).connected = false) :
    Finished ans r (runUpstream ans r evs) lp (bodyComplete r.contentLengthN r.pipe.tempFile evs)
      (bodyWritten r.pipe.tempFile evs) := by
  induction evs generalizing r with
  | nil =>
    have := h.connected
    simp [runUpstream, this] at hfin
  | cons e evs ih =>
    have hrun : runUpstream ans r (e :: evs) = runUpstream ans (ngxHttpUpstreamProcessUpstream ans r e) evs := rfl
    rw [hrun] at hfin ⊢
    rw [bodyComplete, bodyWritten]
    by_cases he : e.ends = true
    · obtain ⟨hf, hc⟩ := processUpstream_ends ans h he
      rw [run_disconnected ans hc, if_pos he, if_pos he]
      exact hf
    · obtain ⟨p, hp, hstep, hrec⟩ := processUpstream_goes_on ans h (by simpa using he)
      rw [hstep] at hfin ⊢
      rw [if_neg he, if_neg he, ← hp]
      have hf := ih hrec hfin
      exact ⟨hf.rl, hf.stored⟩

theorem markLocalpath_first (set : Flag → Flag) {rl : ResList} {c : CtntIdx}
    (h : FirstMatch rl lp c) (hst : (rl.ctnt c).flag.stored = false) :
    ((markLocalpath set rl lp).ctnt c).flag = set (rl.ctnt c).flag := by
  have hmark : scanLocalpath rl lp = .marked c := by rw [scan_firstMatch h, if_neg (by simp [hst])]
  rw [markLocalpath_marked set hmark, setFlag_self]

theorem markLocalpath_not_first (set : Flag → Flag) {rl : ResList} {c : CtntIdx}
    (h : ¬ FirstMatch rl lp c) :
    (markLocalpath set rl lp).ctnt c = rl.ctnt c := by
  refine markLocalpath_other set fun hmark => h ?_
  rcases scan_cases rl lp with ⟨hscan, -⟩ | ⟨i, hi, hscan⟩
  · simp [hscan] at hmark
  · rw [hmark] at hscan
    split at hscan
    · cases hscan
    · cases hscan
      exact hi

/-- What the record should show after the download: STORED if the body is complete and the file is
in place, and D_FAIL otherwise. -/
def OutcomeShown (r r' : Request) (c : CtntIdx) (lp : Bytes) (complete : Bool) : Prop :=
  ((r'.rl.ctnt c).flag.stored = true ↔ complete = true ∧ r'.stored = some (r.root ++ ch '/' :: lp)) ∧
  (¬ (complete = true ∧ r'.stored = some (r.root ++ ch '/' :: lp)) → (r'.rl.ctnt c).flag.dFail = true)

/-- For every download and every sequence of pipe events that ends it, the record shows the outcome
exactly when: after a complete body, the file got into place and the scan meets the record first;
after an incomplete one, a part of the body had reached the temporary file and the scan meets the
record first. A D_FAIL that was there before also counts for a failure that marks nothing. -/
theorem outcome_shown_iff (ans : StoreAnswer) (h : Receiving r lp) (evs : List PipeEvent)
    (hfin : (runUpstream ans r evs).connected = false) {c : CtntIdx}
    (hpath : (r.rl.ctnt c).localpath = lp)
    (hst : (r.rl.ctnt c).flag.stored = false) :
    OutcomeShown r (runUpstream ans r evs) c lp (bodyComplete r.contentLengthN r.pipe.tempFile evs) ↔
      if bodyComplete r.contentLengthN r.pipe.tempFile evs = true then
        (ans.succeeds (bodyWritten r.pipe.tempFile evs) = true ∧ NoneBefore r.rl lp c) ∨
        (ans.succeeds (bodyWritten r.pipe.tempFile evs) = false ∧ ¬ NoneBefore r.rl lp c ∧
          (r.rl.ctnt c).flag.dFail = true)
      else
        (bodyWritten r.pipe.tempFile evs = true ∧ NoneBefore r.rl lp c) ∨
        (r.rl.ctnt c).flag.dFail = true := by
  have hf := run_finished ans h evs hfin
  unfold OutcomeShown
  rw [hf.rl, hf.stored]
  generalize bodyComplete r.contentLengthN r.pipe.tempFile evs = complete
  generalize bodyWritten r.pipe.tempFile evs = written
  generalize ans.succeeds written = ok
  by_cases hfirst : NoneBefore r.rl lp c
  · have hm : FirstMatch r.rl lp c := ⟨by rw [hpath], hfirst⟩
    have h1 := markLocalpath_first setStored hm hst
    have h2 := markLocalpath_first setDFail hm hst
    cases complete <;> cases written <;> cases ok <;> simp [h1, h2, hst, hfirst, setStored, setDFail]
  · have hm : ¬ FirstMatch r.rl lp c := fun hm => hfirst hm.2
    have h1 := markLocalpath_not_first setStored hm
    have h2 := markLocalpath_not_first setDFail hm
    cases complete <;> cases written <;> cases ok <;> simp [h1, h2, hst, hfirst]

end Download

/-- The one record of `onePair`, its body of three bytes received in two pieces, and all steps of
the store granted. -/
theorem outcome_shown_stored :
    OutcomeShown (getfileRequest onePair (bytes "f_youku_com/a.flv") 3)
      (runUpstream ⟨true, true, true⟩ (getfileRequest onePair (bytes "f_youku_com/a.flv") 3)
        [.pipe (some 2) false false false (-1), .pipe (some 1) true false false (-1)])
      4095 (bytes "f_youku_com/a.flv")
      (bodyComplete 3 {} [.pipe (some 2) false false false (-1), .pipe (some 1) true false false (-1)]) := by
  refine (outcome_shown_iff ⟨true, true, true⟩ (r := getfileRequest onePair (bytes "f_youku_com/a.flv") 3)
    ⟨⟨rfl, rfl, by decide +kernel, rfl, by decide +kernel, rfl⟩, rfl, rfl, rfl⟩
    [.pipe (some 2) false false false (-1), .pipe (some 1) true false false (-1)] (by decide +kernel)
    (by decide +kernel) (by decide +kernel)).mpr ?_
  rw [if_pos (by decide +kernel)]
  exact .inl ⟨by decide +kernel, noneBefore_of_all (by decide +kernel)⟩

/-- The upstream times out before the first byte of the body: no flag is set. The rename fails after
a complete body: the record is marked STORED without a file. -/
theorem outcome_not_shown :
    (onePair.LiveCtnt 4095 ∧ (onePair.ctnt 4095).localpath = bytes "f_youku_com/a.flv") ∧
    ¬ OutcomeShown (getfileRequest onePair (bytes "f_youku_com/a.flv") 3)
      (runUpstream ⟨true, true, true⟩ (getfileRequest onePair (bytes "f_youku_com/a.flv") 3) [.timedout])
      4095 (bytes "f_youku_com/a.flv") (bodyComplete 3 {} [.timedout]) ∧
    ¬ OutcomeShown (getfileRequest onePair (bytes "f_youku_com/a.flv") 3)
      (runUpstream ⟨true, true, false⟩ (getfileRequest onePair (bytes "f_youku_com/a.flv") 3)
        [.pipe (some 3) true false false (-1)])
      4095 (bytes "f_youku_com/a.flv")
        (bodyComplete 3 {} [.pipe (some 3) true false false (-1)]) := by
  unfold OutcomeShown
  decide +kernel

end HotCache
