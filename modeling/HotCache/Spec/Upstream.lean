import HotCache.Spec.Getfile
import HotCache.Spec.Resource

/-! The Nginx side of a getfile download (`ngx_http_upstream.c`), from the moment the response
header has been sent: the pipe events, the store of the temporary file, and the two scans of
the shared list that set STORED or D_FAIL. The shared list is attached, and neither the cache
of Nginx nor `store_lengths` is configured, as in the getfile module. -/

namespace HotCache

open CStr

def NGX_HTTP_OK : ℕ := 200

/-- `ngx_http_upstream_sc_res_match_localpath`: `ngx_strncmp` with the length of the key. -/
def ngxHttpUpstreamScResMatchLocalpath (active : Ctnt) (localPath : Bytes) : Bool :=
  startsWith active.localpath localPath

/-- What one scan of the slots did: it set the flag of a slot, it logged that the slot is already
stored, or it logged that there is none. -/
inductive Scan
  | marked (c : CtntIdx)
  | reStore (c : CtntIdx)
  | notFound
  deriving DecidableEq, Repr

/-- The scan of `ngx_http_upstream_process_request` and `ngx_http_upstream_finalize_request`: the
first slot that matches, whether it is in use or not. -/
def scanLocalpath (rl : ResList) (localPath : Bytes) : Scan :=
  match (List.finRange SC_RES_INFO_NUM_MAX_CTNT).find? fun i =>
      ngxHttpUpstreamScResMatchLocalpath (rl.ctnt i) localPath with
  | none => .notFound
  | some c => if (rl.ctnt c).flag.stored then .reStore c else .marked c

def setStored (f : Flag) : Flag := { f with stored := true }
def setDFail (f : Flag) : Flag := { f with dFail := true }

/-- The scan together with its write; `set` is `sc_res_flag_set_stored` or `sc_res_flag_set_d_fail`.
-/
def markLocalpath (set : Flag → Flag) (rl : ResList) (localPath : Bytes) : ResList :=
  match scanLocalpath rl localPath with
  | .marked c => rl.setFlag c set
  | _ => rl

structure TempFile where
  opened : Bool := false
  offset : ℕ := 0
  deriving DecidableEq, Repr

/-- The fields of `ngx_event_pipe_t` that decide the outcome. -/
structure Pipe where
  upstreamEof : Bool := false
  upstreamDone : Bool := false
  upstreamError : Bool := false
  downstreamError : Bool := false
  length : ℤ := -1
  tempFile : TempFile := {}

/-- The request and its upstream. `connected` is `u->peer.connection != NULL`, and `stored` is the
path that the temporary file has been renamed to. -/
structure Request where
  args : NgxStr
  uri : Bytes
  root : Bytes
  getfile : Bool := true
  connected : Bool := true
  store : Bool := true
  statusN : ℕ
  contentLengthN : ℤ
  pipe : Pipe := {}
  rl : ResList
  stored : Option Bytes := none

/-- What the system answers inside `ngx_http_upstream_store`. -/
structure StoreAnswer where
  pcalloc : Bool
  createTempFile : Bool
  extRenameFile : Bool

/-- `ngx_http_upstream_store`. A response without a body gets an empty file first. -/
def ngxHttpUpstreamStore (ans : StoreAnswer) (r : Request) : Request :=
  let rename (r : Request) : Request :=
    if ans.extRenameFile then { r with stored := some (ngxHttpMapUriToPath r.root r.uri 0 r.getfile r.args) } else r
  if r.pipe.tempFile.opened then rename r
  else if !ans.pcalloc then r
  else if !ans.createTempFile then r
  else rename { r with pipe := { r.pipe with tempFile := { opened := true } } }

/-- The block that the two functions share: find `localpath=` in the arguments, then scan. -/
def markRequest (set : Flag → Flag) (r : Request) : Request :=
  match argsLocalpath r.args with
  | some localPath => if r.getfile then { r with rl := markLocalpath set r.rl localPath } else r
  | none => r

/-- `ngx_http_upstream_finalize_request`, as far as the shared list goes. -/
def ngxHttpUpstreamFinalizeRequest (r : Request) : Request :=
  let r := { r with connected := false }
  if r.store ∧ r.pipe.tempFile.opened then markRequest setDFail r else r

def ngxHttpUpstreamProcessRequest (ans : StoreAnswer) (r : Request) : Request :=
  let p := r.pipe
  if !r.connected then r
  else
    let r :=
      if r.store ∧ (p.upstreamEof ∨ p.upstreamDone) ∧ r.statusN = NGX_HTTP_OK ∧
          (p.upstreamDone ∨ p.length = -1) ∧
          (r.contentLengthN = -1 ∨ r.contentLengthN = p.tempFile.offset) then
        { markRequest setStored (ngxHttpUpstreamStore ans r) with store := false }
      else r
    if p.upstreamDone ∨ p.upstreamEof ∨ p.upstreamError then ngxHttpUpstreamFinalizeRequest r
    else if p.downstreamError ∧ !r.store then ngxHttpUpstreamFinalizeRequest r
    else r

/-- What happens to the pipe: the read timer of the upstream fires; or `ngx_event_pipe` writes
to the temporary file (`written`, which opens it) and returns with the three ends set or not;
or it returns `NGX_ABORT`. -/
inductive PipeEvent
  | timedout
  | pipe (written : Option ℕ) (eof done error : Bool) (length : ℤ)
  | abort (written : Option ℕ)

def TempFile.write (tf : TempFile) : Option ℕ → TempFile
  | none => tf
  | some n => { opened := true, offset := tf.offset + n }

/-- `ngx_http_upstream_process_upstream`, and `ngx_http_upstream_process_downstream`, which treats
the same results of `ngx_event_pipe` alike. No event is delivered once the connection is gone. -/
def ngxHttpUpstreamProcessUpstream (ans : StoreAnswer) (r : Request) (e : PipeEvent) : Request :=
  if !r.connected then r
  else match e with
    | .timedout => ngxHttpUpstreamProcessRequest ans { r with pipe := { r.pipe with upstreamError := true } }
    | .pipe written eof done error length =>
      ngxHttpUpstreamProcessRequest ans { r with pipe := { r.pipe with
        upstreamEof := eof, upstreamDone := done, upstreamError := error, length := length,
        tempFile := r.pipe.tempFile.write written } }
    | .abort written =>
      ngxHttpUpstreamFinalizeRequest { r with pipe := { r.pipe with
        tempFile := r.pipe.tempFile.write written } }

def runUpstream (ans : StoreAnswer) (r : Request) (evs : List PipeEvent) : Request :=
  evs.foldl (ngxHttpUpstreamProcessUpstream ans) r

/-- A getfile request for `lp` with a 200 response that is not stored yet. -/
structure Download (r : Request) (lp : Bytes) : Prop where
  connected : r.connected = true
  store : r.store = true
  getfile : r.getfile = true
  status : r.statusN = NGX_HTTP_OK
  args : argsLocalpath r.args = some lp
  fresh : r.stored = none

/-- The pipe of the request is still open. -/
structure Receiving (r : Request) (lp : Bytes) : Prop extends Download r lp where
  eof : r.pipe.upstreamEof = false
  done : r.pipe.upstreamDone = false
  error : r.pipe.upstreamError = false

end HotCache
