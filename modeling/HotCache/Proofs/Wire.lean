import HotCache.Proofs.Handler
import HotCache.Proofs.Run

/-! A download on its way through both programs: the bytes that `sc_ngx_download` writes, what Nginx makes
of them, the request that it sends upstream, and what the end of the body leaves in the shared list. -/

namespace HotCache

open CStr Scanner

/-- A url and a local path that Nginx reads as the client writes them: no byte of them ends or spoils the request
line, the url has no `localpath=` of its own, and the path has an ending that the getfile module serves. The
host and the part of the url behind it fit the buffers of that module. -/
structure Deliverable (url lp : Bytes) : Prop extends Keyed url lp where
  slash : ch '/' ∈ url
  host : (url.takeWhile (· ≠ ch '/')).length ≤ 63
  part : (url.dropWhile (· ≠ ch '/')).length ≤ 511

/-- Nginx asks the host of `url` for the rest of it, at its address if it is one, and the body goes to `lp`. -/
structure Fetches (url lp : Bytes) (args : NgxStr) (up : GetfileUpstream) : Prop where
  host : up.host = url.takeWhile (· ≠ ch '/')
  addressed : DottedQuad up.host → up.sockaddr = some up.host
  resolved : ¬ DottedQuad up.host → up.sockaddr = none
  request : RequestsFrom up.request up.host (url.dropWhile (· ≠ ch '/'))
  receiving : ∀ root n rl, Receiving (up.respond args root n rl) lp

theorem hostIsIpAddr_iff (host : Bytes) : (getfileHostIsIpAddr host).1 = true ↔ DottedQuad host := by
  by_cases hlen : IP_ADDR_LEN_MIN ≤ host.length ∧ host.length ≤ IP_ADDR_LEN_MAX
  · rw [hostIsIpAddr_eq hlen.1 hlen.2, dottedQuad_iff]
    exact ipAddrLoop_accepts host (Nat.zero_le 3) (collected_nil ⟨fun _ => 0, []⟩)
  · have hrejects : getfileHostIsIpAddr host = (false, ⟨fun _ => 0, []⟩) := if_pos (by omega)
    rw [hrejects]
    exact iff_of_false Bool.false_ne_true fun h => hlen h.length

variable {ip url lp req : Bytes} {len : ℕ} {pieces : List Bytes}

theorem receive_deliverable (hbuild : scNgxBuildGet ip url lp len = some req) (hpieces : pieces.flatten = req)
    (h : Deliverable url lp) : ∃ args up, ngxReceive pieces = some (args, up) ∧ Fetches url lp args up := by
  obtain ⟨rest, up, hreceive, hup, hpath⟩ := receive_keyed hbuild hpieces h.toKeyed
  have hhost : getfileGetHostFromUri (argsIn url lp rest) = url.takeWhile (· ≠ ch '/') :=
    host_getfileArgs rest _ h.slash h.host
  have hpart : url.dropWhile (· ≠ ch '/') <+: getfileGetRealUriFromUri (argsIn url lp rest) :=
    (realUri_prefix_iff (argsIn_text url lp rest) h.slash).mpr (Nat.lt_succ_of_le h.part)
  unfold ngxHttpGetfileHandler at hup
  split_ifs at hup
  obtain rfl := Option.some.inj hup
  refine ⟨_, _, hreceive, hhost, fun hquad => ?_, fun hquad => ?_, ?_, fun root n rl => ?_⟩
  · exact if_pos ((hostIsIpAddr_iff _).mpr hquad)
  · exact if_neg fun hip => hquad ((hostIsIpAddr_iff _).mp hip)
  · exact (requestsFrom_createRequest _ _).mpr hpart
  · exact ⟨⟨rfl, rfl, rfl, rfl, hpath, rfl⟩, rfl, rfl, rfl⟩

section System

variable [L : Layout] {w : World} {c : CtntIdx}

/-- What the end of a download leaves in the shared list: STORED after a complete body, D_FAIL after a part of
one, on the record and on no other. -/
def markedBy (rl : ResList) (c : CtntIdx) (complete written : Bool) : ResList :=
  if complete then rl.setFlag c setStored else if written then rl.setFlag c setDFail else rl

end System

theorem markedBy_stored (rl : ResList) (c : CtntIdx) {complete : Bool} (h : complete = true) (written : Bool) :
    ((markedBy rl c complete written).ctnt c).flag.stored = true := by
  rw [markedBy, if_pos h, setFlag_self]
  rfl

theorem run_single {ans : StoreAnswer} {r : Request} {e : PipeEvent} (h : Receiving r lp) (he : e.ends = true) :
    (runUpstream ans r [e]).connected = false := (processUpstream_ends ans h he).2

def downStarted : World :=
  (@scSnoopingDoDown sampleLayout (@scLdInit sampleLayout) (bytes "f.youku.com/v/1.flv") ⟨none, .failed true, true⟩).2

end HotCache
