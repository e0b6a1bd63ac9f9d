import HotCache.Lib.FreeList
import HotCache.Lib.Linked
import HotCache.Spec.Url
import Mathlib.Data.List.DropRight

/-! The shared resource list (`sc_resource.h`, `sc_resource.c`): two arrays of records, each
with a free list threaded through the `id` word, and the child list of every management
record threaded through `siblings`. `child`, `siblings` and `parent` are slot references;
`id`, `mgmt_free` and `ctnt_free` are machine words, because the source casts between
addresses and indices there. -/

namespace HotCache

open CStr FreeList

abbrev SC_RES_INFO_NUM_MAX_MGMT : ℕ := 1024
abbrev SC_RES_INFO_NUM_MAX_CTNT : ℕ := 4096

abbrev MgmtIdx := Fin SC_RES_INFO_NUM_MAX_MGMT
abbrev CtntIdx := Fin SC_RES_INFO_NUM_MAX_CTNT

class Layout where
  mgmt : SlotArray SC_RES_INFO_NUM_MAX_MGMT
  ctnt : SlotArray SC_RES_INFO_NUM_MAX_CTNT

/-- The segment attached at `0x7f0000000000`, with the record sizes of a 64-bit build. -/
@[reducible]
def sampleLayout : Layout where
  mgmt := ⟨0x7f0000000008, 704, by decide, by decide, by decide⟩
  ctnt := ⟨0x7f00000b0018, 904, by decide, by decide, by decide⟩

inductive HcResult
  | success | errExotic | errResources | errInvalid | errInternal | errNotfound | errExists | errConflict
  deriving DecidableEq, Repr

/-- `sc_res_gen_t`; a zeroed record reads as `content`. -/
inductive Gen
  | content | origin | normal | ctrlLd
  deriving DecidableEq, Repr

/-- `sc_res_site_t`; a zeroed record reads as `youku`. -/
inductive Site
  | youku | sohu | max
  deriving DecidableEq, Repr

/-- The four bits of `flag` that the source uses. -/
structure Flag where
  stored : Bool := false
  dFail : Bool := false
  iFail : Bool := false
  notify : Bool := false
  deriving DecidableEq, Repr

/-- `sc_res_info_t`, the common part; the defaults are the zeroed record. -/
structure ResInfo where
  id : ℕ := 0
  flag : Flag := {}
  gen : Gen := .content
  site : Site := .youku
  mime : Mime := .html
  url : Bytes := []
  deriving DecidableEq, Repr

structure Mgmt extends ResInfo where
  childCnt : ℕ := 0
  child : Option CtntIdx := none
  deriving DecidableEq, Repr

structure Ctnt extends ResInfo where
  parent : Option MgmtIdx := none
  siblings : Option CtntIdx := none
  localpath : Bytes := []
  deriving DecidableEq, Repr

@[ext]
structure ResList where
  mgmtCnt : ℕ
  mgmt : MgmtIdx → Mgmt
  mgmtFree : ℕ
  ctntCnt : ℕ
  ctnt : CtntIdx → Ctnt
  ctntFree : ℕ

def ResList.setMgmt (rl : ResList) (m : MgmtIdx) (x : Mgmt) : ResList :=
  { rl with mgmt := Function.update rl.mgmt m x }

def ResList.setCtnt (rl : ResList) (c : CtntIdx) (x : Ctnt) : ResList :=
  { rl with ctnt := Function.update rl.ctnt c x }

/-- An update of the flags of slot `c`, by the client or by Nginx. -/
def ResList.setFlag (rl : ResList) (c : CtntIdx) (f : Flag → Flag) : ResList :=
  rl.setCtnt c { rl.ctnt c with flag := f (rl.ctnt c).flag }

/-- A slot is in use when its `id` is its own index. -/
def ResList.LiveMgmt (rl : ResList) (m : MgmtIdx) : Prop := (rl.mgmt m).id = m
def ResList.LiveCtnt (rl : ResList) (c : CtntIdx) : Prop := (rl.ctnt c).id = c

instance (rl : ResList) (m : MgmtIdx) : Decidable (rl.LiveMgmt m) := inferInstanceAs (Decidable (_ = _))
instance (rl : ResList) (c : CtntIdx) : Decidable (rl.LiveCtnt c) := inferInstanceAs (Decidable (_ = _))

def scResInfoIsMgmt (ri : ResInfo) : Bool := ri.gen = .origin || ri.gen = .ctrlLd || ri.gen = .normal
def scResInfoIsCtnt (ri : ResInfo) : Bool := ri.gen = .content

section Operations

variable [L : Layout]

/-- `sc_res_list_alloc_and_init`: zeroed memory, each free list linked from the last slot down. -/
def scResListAllocAndInit : ResList where
  mgmtCnt := 0
  mgmt i := { id := if _h : (i : ℕ) = 0 then invalidPtr else L.mgmt.addr ⟨i - 1, by omega⟩ }
  mgmtFree := L.mgmt.addr ⟨SC_RES_INFO_NUM_MAX_MGMT - 1, by decide⟩
  ctntCnt := 0
  ctnt i := { id := if _h : (i : ℕ) = 0 then invalidPtr else L.ctnt.addr ⟨i - 1, by omega⟩ }
  ctntFree := L.ctnt.addr ⟨SC_RES_INFO_NUM_MAX_CTNT - 1, by decide⟩

/-- `sc_res_info_get_mgmt`. A `mgmt_free` that is neither `INVALID_PTR` nor a slot address would
be a wild read; it is given the same result as an empty list. -/
def scResInfoGetMgmt (rl : ResList) : Option (MgmtIdx × ResList) :=
  if rl.mgmtFree = invalidPtr then none
  else match L.mgmt.slotAt rl.mgmtFree with
    | none => none
    | some m => some (m, { rl with
        mgmtFree := (rl.mgmt m).id
        mgmtCnt := rl.mgmtCnt + 1
        mgmt := Function.update rl.mgmt m { id := L.mgmt.indexOf rl.mgmtFree } })

/-- `sc_res_info_get_mgmt_origin`, `_normal` and `_ctrl_ld` set their own `gen`. -/
def scResInfoGetMgmtGen (gen : Gen) (rl : ResList) : Option (MgmtIdx × ResList) :=
  (scResInfoGetMgmt rl).map fun (m, rl) => (m, rl.setMgmt m { rl.mgmt m with gen := gen })

def scResInfoGetMgmtOrigin := scResInfoGetMgmtGen .origin
def scResInfoGetMgmtNormal := scResInfoGetMgmtGen .normal
def scResInfoGetMgmtCtrlLd := scResInfoGetMgmtGen .ctrlLd

def scResInfoGetCtnt (rl : ResList) : Option (CtntIdx × ResList) :=
  if rl.ctntFree = invalidPtr then none
  else match L.ctnt.slotAt rl.ctntFree with
    | none => none
    | some c => some (c, { rl with
        ctntFree := (rl.ctnt c).id
        ctntCnt := rl.ctntCnt + 1
        ctnt := Function.update rl.ctnt c { id := L.ctnt.indexOf rl.ctntFree, gen := .content } })

/-- A `sc_res_info_t *` points into one of the two arrays. -/
inductive Ri
  | mgmt (m : MgmtIdx)
  | ctnt (c : CtntIdx)

/-- `sc_res_info_put`. The source picks the array by `gen`; a record whose `gen` belongs to the
other array would be a wild write, and here is left alone. -/
def scResInfoPut (rl : ResList) : Ri → ResList
  | .mgmt m =>
    if scResInfoIsMgmt (rl.mgmt m).toResInfo then
      if rl.mgmtCnt = 0 then rl
      else { rl with
        mgmt := Function.update rl.mgmt m { id := rl.mgmtFree }
        mgmtFree := L.mgmt.addr m
        mgmtCnt := rl.mgmtCnt - 1 }
    else rl
  | .ctnt c =>
    if scResInfoIsCtnt (rl.ctnt c).toResInfo then
      if rl.ctntCnt = 0 then rl
      else { rl with
        ctnt := Function.update rl.ctnt c { id := rl.ctntFree }
        ctntFree := L.ctnt.addr c
        ctntCnt := rl.ctntCnt - 1 }
    else rl

/-- `sc_res_info_del`: `sc_res_info_del_mgmt` and `sc_res_info_del_ctnt` only log before the put. -/
def scResInfoDel (rl : ResList) (ri : Ri) : ResList := scResInfoPut rl ri

/-- `sc_res_info_mark_site`: the site it stores. -/
def scResInfoMarkSite (ri : ResInfo) : Option Site :=
  if !scResInfoIsMgmt ri then none
  else if scUrlIsYk ri.url then some .youku
  else if scUrlIsSohu ri.url then some .sohu
  else none

/-- The common body of `sc_res_info_add_normal`, `_origin` and `_ctrl_ld`; `careType` is the flag
given to `sc_res_mime_type_obtain`. -/
def scResInfoAddMgmt (gen : Gen) (careType : Bool) (rl : ResList) (url : Bytes) : Option MgmtIdx × ResList :=
  if !scResInfoPermitAdding url then (none, rl)
  else if HTTP_URL_MAX_LEN ≤ url.length then (none, rl)
  else match scResInfoGetMgmtGen gen rl with
    | none => (none, rl)
    | some (m, rl) =>
      let rl := rl.setMgmt m { rl.mgmt m with url := scResCopyUrl url true }
      match scResInfoMarkSite (rl.mgmt m).toResInfo with
      | none => (none, scResInfoDel rl (.mgmt m))
      | some site =>
        (some m, rl.setMgmt m { rl.mgmt m with site := site, mime := scResMimeTypeObtain url careType })

def scResInfoAddNormal := scResInfoAddMgmt .normal true
def scResInfoAddOrigin := scResInfoAddMgmt .origin true
def scResInfoAddCtrlLd := scResInfoAddMgmt .ctrlLd false

def scResInfoGenCtntLocalPath (ctnt : Ctnt) : Option Bytes :=
  match ctnt.site with
  | .youku => scYkUrlToLocalPath ctnt.url SC_RES_LOCAL_PATH_MAX_LEN
  | .sohu => scSohuFileUrlToLocalPath ctnt.url SC_RES_LOCAL_PATH_MAX_LEN
  | .max => scResUrlToLocalPathDefault ctnt.url SC_RES_LOCAL_PATH_MAX_LEN

/-- `sc_res_info_add_ctnt`; `delOk` says that `sc_snooping_do_del` returned 0. -/
def scResInfoAddCtnt (rl : ResList) (mgmt : MgmtIdx) (url : Bytes) (delOk : Bool) : Option CtntIdx × ResList :=
  if !scResInfoPermitAdding url then (none, rl)
  else if HTTP_URL_MAX_LEN ≤ url.length then (none, rl)
  else if (rl.mgmt mgmt).gen = .ctrlLd ∧ delOk = false then (none, rl)
  else match scResInfoGetCtnt rl with
    | none => (none, rl)
    | some (c, rl) =>
      let ctnt : Ctnt := { rl.ctnt c with
        url := scResCopyUrl url true
        site := (rl.mgmt mgmt).site
        mime := scResMimeTypeObtain url true
        flag := if (rl.mgmt mgmt).gen = .ctrlLd then { (rl.ctnt c).flag with stored := true } else (rl.ctnt c).flag }
      match scResInfoGenCtntLocalPath ctnt with
      | none => (none, scResInfoDel (rl.setCtnt c ctnt) (.ctnt c))
      | some lp =>
        -- the first child keeps the NULL that `memset` left in `siblings`
        let siblings := if (rl.mgmt mgmt).childCnt = 0 then ctnt.siblings else (rl.mgmt mgmt).child
        let rl := rl.setCtnt c { ctnt with localpath := lp, siblings := siblings, parent := some mgmt }
        (some c, rl.setMgmt mgmt { rl.mgmt mgmt with
          child := some c, childCnt := (rl.mgmt mgmt).childCnt + 1 })

def scResInfoDupCtnt (rl : ResList) (from_ to_ : CtntIdx) : ResList :=
  let f := rl.ctnt from_
  let t := rl.ctnt to_
  rl.setCtnt to_ { t with
    url := f.url
    localpath := f.localpath
    flag := { t.flag with
      stored := t.flag.stored || f.flag.stored
      notify := t.flag.notify || f.flag.notify } }

def scResInfoRemoveLoaded (rl : ResList) (pre : Option CtntIdx) (ld : CtntIdx) : HcResult × ResList :=
  match (rl.ctnt ld).parent with
  | none => (.errInternal, rl)
  | some ctrl =>
    match pre with
    | none =>
      if (rl.mgmt ctrl).child ≠ some ld then (.errInternal, rl)
      else if (rl.mgmt ctrl).childCnt = 0 then (.errInternal, rl)
      else
        let rl := rl.setMgmt ctrl { rl.mgmt ctrl with
          child := (rl.ctnt ld).siblings, childCnt := (rl.mgmt ctrl).childCnt - 1 }
        (.success, scResInfoDel rl (.ctnt ld))
    | some pre =>
      if (rl.mgmt ctrl).childCnt < 2 then (.errInternal, rl)
      else
        let rl := rl.setCtnt pre { rl.ctnt pre with siblings := (rl.ctnt ld).siblings }
        let rl := rl.setMgmt ctrl { rl.mgmt ctrl with childCnt := (rl.mgmt ctrl).childCnt - 1 }
        (.success, scResInfoDel rl (.ctnt ld))

/-- The search loop of `sc_res_info_handle_cached`, from `ld` with predecessor `pre`: the first
child whose url contains `vid`. The fuel bounds the number of records looked at. -/
def findLoaded (rl : ResList) (vid : Bytes) : ℕ → Option CtntIdx → Option CtntIdx → Option (Option CtntIdx × CtntIdx)
  | 0, _, _ => none
  | _ + 1, _, none => none
  | fuel + 1, pre, some ld =>
    if (strstr (rl.ctnt ld).url vid).isSome then some (pre, ld)
    else findLoaded rl vid fuel (some ld) (rl.ctnt ld).siblings

/-- `sc_res_info_handle_cached`. `vid` is the url after its last `/`. -/
def scResInfoHandleCached (rl : ResList) (ctrlLd : MgmtIdx) (parsed : CtntIdx) : HcResult × ResList :=
  let url := (rl.ctnt parsed).url
  if ch '/' ∉ url then (.errInternal, rl)
  else
    let vid := url.rtakeWhile (· ≠ ch '/')
    match findLoaded rl vid (SC_RES_INFO_NUM_MAX_CTNT + 1) none (rl.mgmt ctrlLd).child with
    | none => (.errInternal, rl)
    | some (pre, ld) => scResInfoRemoveLoaded (scResInfoDupCtnt rl ld parsed) pre ld

/-- `sc_res_info_find_mgmt`: the first slot, free or not, with this url. -/
def scResInfoFindMgmt (rl : ResList) (url : Bytes) : Option MgmtIdx :=
  (List.finRange SC_RES_INFO_NUM_MAX_MGMT).find? fun i => (rl.mgmt i).url = url

/-- One operation on the pool: an addition (with any url, any live parent and any answer of the
Snooping module), a hand-over of a loaded record to a live record that is not a child of
`ctrlLd`, or an update of the flags of a slot. -/
inductive PoolStep : ResList → ResList → Prop
  | addNormal (rl url) : PoolStep rl (scResInfoAddNormal rl url).2
  | addOrigin (rl url) : PoolStep rl (scResInfoAddOrigin rl url).2
  | addCtrlLd (rl url) : PoolStep rl (scResInfoAddCtrlLd rl url).2
  | addCtnt (rl m url delOk) (hm : rl.LiveMgmt m) : PoolStep rl (scResInfoAddCtnt rl m url delOk).2
  | handleCached (rl ctrlLd parsed) (hm : rl.LiveMgmt ctrlLd) (hc : rl.LiveCtnt parsed)
      (hne : (rl.ctnt parsed).parent ≠ some ctrlLd) : PoolStep rl (scResInfoHandleCached rl ctrlLd parsed).2
  | flag (rl c f) : PoolStep rl (rl.setFlag c f)

def PoolReachable (rl : ResList) : Prop := Relation.ReflTransGen PoolStep scResListAllocAndInit rl

end Operations

end HotCache
