import HotCache.Lib.Forest
import HotCache.Spec.Resource

/-! What the resource list is for, without slots, addresses, links and counters: a forest of at most
1024 management records over at most 4096 content records, and what each function of `sc_resource.c`
may do to it. A new record gets some name that is not in use. -/

namespace HotCache

open CStr

structure Root where
  gen : Gen
  site : Site
  mime : Mime
  url : Bytes
  deriving DecidableEq, Repr

structure Leaf where
  url : Bytes
  site : Site
  mime : Mime
  flag : Flag
  localpath : Bytes
  deriving DecidableEq, Repr

abbrev ResForest := Forest MgmtIdx CtntIdx Root Leaf

structure RootFits (F : ResForest) (gen : Gen) (url : Bytes) (site : Site) : Prop where
  permit : scResInfoPermitAdding url = true
  length : url.length < HTTP_URL_MAX_LEN
  room : F.rootCount < SC_RES_INFO_NUM_MAX_MGMT
  site : scResInfoMarkSite { gen := gen, url := scResCopyUrl url true } = some site

inductive AddRoot (F : ResForest) (gen : Gen) (careType : Bool) (url : Bytes) : Option MgmtIdx → ResForest → Prop
  | added (m : MgmtIdx) (site : Site) (hfit : RootFits F gen url site) (hm : F.root m = none) :
      AddRoot F gen careType url (some m)
        (F.plant m ⟨gen, site, scResMimeTypeObtain url careType, scResCopyUrl url true⟩)
  | refused (hno : ∀ site, ¬ RootFits F gen url site) : AddRoot F gen careType url none F

/-- The urls for which a content record is added below `r`; a controller needs the Snooping module to
forget the url first. -/
structure LeafFits (F : ResForest) (r : Root) (url : Bytes) (delOk : Bool) (lp : Bytes) : Prop where
  permit : scResInfoPermitAdding url = true
  length : url.length < HTTP_URL_MAX_LEN
  del : r.gen = .ctrlLd → delOk = true
  room : F.leafCount < SC_RES_INFO_NUM_MAX_CTNT
  localpath : scResInfoGenCtntLocalPath { url := scResCopyUrl url true, site := r.site } = some lp

/-- Below a controller, a record stands for a file that exists. -/
def newLeaf (r : Root) (url lp : Bytes) : Leaf where
  url := scResCopyUrl url true
  site := r.site
  mime := scResMimeTypeObtain url true
  flag := { stored := decide (r.gen = .ctrlLd) }
  localpath := lp

inductive AddLeaf (F : ResForest) (m : MgmtIdx) (url : Bytes) (delOk : Bool) : Option CtntIdx → ResForest → Prop
  | added (r : Root) (c : CtntIdx) (lp : Bytes) (hr : F.root m = some r) (hfit : LeafFits F r url delOk lp)
      (hc : F.leaf c = none) :
      AddLeaf F m url delOk (some c) (F.graft m c (newLeaf r url lp) (Option.isSome_of_eq_some hr) hc)
  | refused (r : Root) (hr : F.root m = some r) (hno : ∀ lp, ¬ LeafFits F r url delOk lp) :
      AddLeaf F m url delOk none F

/-- What `v` holds after it has taken over from `ld`. -/
def Leaf.takeOver (ld v : Leaf) : Leaf :=
  { v with
    url := ld.url
    localpath := ld.localpath
    flag := { v.flag with
      stored := v.flag.stored || ld.flag.stored
      notify := v.flag.notify || ld.flag.notify } }

def loadedFor (F : ResForest) (m : MgmtIdx) (url : Bytes) : Option CtntIdx :=
  (F.kids m).find? fun k => (F.leaf k).any fun v => (strstr v.url (url.rtakeWhile (· ≠ ch '/'))).isSome

inductive TakeOver (F : ResForest) (m : MgmtIdx) (c : CtntIdx) : HcResult → ResForest → Prop
  | done (v ld : Leaf) (k : CtntIdx) (hv : F.leaf c = some v) (hslash : ch '/' ∈ v.url)
      (hk : loadedFor F m v.url = some k) (hld : F.leaf k = some ld) :
      TakeOver F m c .success ((F.modify c ld.takeOver).prune k)
  | failed (v : Leaf) (hv : F.leaf c = some v) (hno : ch '/' ∈ v.url → loadedFor F m v.url = none) :
      TakeOver F m c .errInternal F

end HotCache
