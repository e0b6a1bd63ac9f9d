import HotCache.Spec.Client

/-! The process pass with a trace beside it: the records that `sc_res_list_process_ctnt` examines, and
every read of a `siblings` field, with the list as it is at that moment. Besides the traversal
itself, the search of `sc_res_info_handle_cached` and `sc_res_info_remove_loaded` read that field. -/

namespace HotCache

open CStr

structure SiblingRead where
  rl : ResList
  slot : CtntIdx

structure Trace where
  examined : List CtntIdx := []
  reads : List SiblingRead := []

/-- The slots whose `siblings` a call of `sc_res_info_handle_cached` reads: those passed over by the
search loop, and the match, whose field `sc_res_info_remove_loaded` reads. `none` when the fuel runs
out. -/
def searchReads (rl : ResList) (vid : Bytes) : ℕ → Option CtntIdx → Option (List CtntIdx)
  | _, none => some []
  | 0, some _ => none
  | fuel + 1, some ld =>
    if (strstr (rl.ctnt ld).url vid).isSome then some [ld]
    else (searchReads rl vid fuel (rl.ctnt ld).siblings).map (ld :: ·)

def handleCachedReads (rl : ResList) (ctrlLd : Option MgmtIdx) (parsed : CtntIdx) : Option (List CtntIdx) :=
  match ctrlLd with
  | none => some []
  | some ctrlLd =>
    let url := (rl.ctnt parsed).url
    if ch '/' ∉ url then some []
    else searchReads rl (url.rtakeWhile (· ≠ ch '/')) (SC_RES_INFO_NUM_MAX_CTNT + 1) (rl.mgmt ctrlLd).child

/-- The reads of the hand-overs on a stretch of the log, each of the list that it is made on. -/
def Ev.reads : Ev → Option (List SiblingRead)
  | .handleCached rl ctrlLd parsed => (handleCachedReads rl ctrlLd parsed).map (·.map (⟨rl, ·⟩))
  | _ => some []

def logReads (log : List Ev) : Option (List SiblingRead) := (log.mapM Ev.reads).map List.flatten

section Process

variable [Layout]

def tracedCtntLoop (ans : ℕ → CtntIdx → Answer) : ℕ → Pass × Trace → Option CtntIdx → Option (Pass × Trace)
  | _, pt, none => some pt
  | 0, _, some _ => none
  | fuel + 1, (p, t), some curr => do
    let (err, w) := processCtnt p.w curr (ans p.visited curr)
    let searched ← logReads (w.log.drop p.w.log.length)
    let reads := t.reads ++ searched ++ [⟨w.rl, curr⟩]
    tracedCtntLoop ans fuel (⟨w, p.visited + 1, p.err + err⟩, ⟨t.examined ++ [curr], reads⟩)
      (w.rl.ctnt curr).siblings

def tracedProcessMgmt (ans : ℕ → CtntIdx → Answer) (fuel : ℕ) (pt : Pass × Trace) : Option (Pass × Trace) :=
  (List.finRange SC_RES_INFO_NUM_MAX_MGMT).foldlM
    (fun pt i =>
      if SC_RES_INFO_NUM_MAX_MGMT ≤ (pt.1.w.rl.mgmt i).id then some pt
      else tracedCtntLoop ans fuel pt (pt.1.w.rl.mgmt i).child) pt

end Process

end HotCache
