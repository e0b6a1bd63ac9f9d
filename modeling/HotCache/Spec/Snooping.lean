import HotCache.Lib.Datagram
import HotCache.Spec.Datagram
import HotCache.Spec.Service

/-! The exchange with the Snooping module over UDP (`sc_snooping.c`): what `sc_snooping_resp_to_sp` makes
of the receive buffer, a round of `sc_snooping_serve` with its reply, and the program as a server behind
a network. The byte order of the host is little-endian. -/

namespace HotCache

open CStr

/-- `HTTP_SP_STATUS_OK` and `HTTP_SP_STATUS_DEFAULT_ERROR`; `sc_snooping_resp_to_sp` refuses any other code. -/
def Status.code : Status → UInt8
  | .ok => 0
  | .defaultError => 1

/-- `sizeof(http_sp2c_res_pkt_t)`: its fields lie where those of `http_sp2c_req_pkt_t` do, with `status`
in the place of `sp2c_action`. -/
def SP2C_RES_PKT_SIZE : ℕ := 612

/-- `url_len = ntohs(url_len)`, or `htons`: the two bytes change places. -/
def swapUrlLen (buf : Bytes) : Bytes :=
  (buf.set SP2C_URL_LEN_OFFSET (buf.getD (SP2C_URL_LEN_OFFSET + 1) 0)).set (SP2C_URL_LEN_OFFSET + 1)
    (buf.getD SP2C_URL_LEN_OFFSET 0)

/-- `sc_snooping_resp_to_sp`: the datagram it sends, and the buffer afterwards. -/
def scSnoopingRespToSp (req : Bytes) (status : Status) : Bytes × Bytes :=
  let old := req.getD SP2C_ACTION_OFFSET 0
  let resp := swapUrlLen (req.set SP2C_ACTION_OFFSET status.code)
  (resp.take SP2C_RES_PKT_SIZE, (swapUrlLen resp).set SP2C_ACTION_OFFSET old)

section Serve

variable [Layout]

/-- One round of `sc_snooping_serve`: the reply it sends, if any. -/
def scSnoopingServeReply (w : World) (dgram beyond : Bytes) (parseAns : ParseAnswer) (downAns : Answer) :
    Option Bytes × World :=
  let buf := swapUrlLen (recvBuf dgram)
  match scSnoopingCheck dgram with
  | some (.parse, urlData) =>
    let (status, w) := scSnoopingDoParse w (reqUrl urlData beyond) parseAns
    (some (scSnoopingRespToSp buf status).1, w)
  | some (.down, urlData) =>
    let (status, w) := scSnoopingDoDown w (reqUrl urlData beyond) downAns
    (some (scSnoopingRespToSp buf status).1, w)
  | none => (none, w)

def snoopingService : Datagram.Service World Bytes Bytes where
  init := scLdInit
  own := OwnStep
  serves w dgram reply w' :=
    ∃ beyond parseAns downAns, scSnoopingServeReply w dgram beyond parseAns downAns = (reply, w')

end Serve

/-- What the reply to a datagram is for: the request comes back, with the status in the place of the
action. -/
def spReply (dgram : Bytes) (status : Status) : Bytes :=
  dgram.take SP2C_ACTION_OFFSET ++ status.code ::
    (dgram.drop (SP2C_ACTION_OFFSET + 1)).take (SP2C_RES_PKT_SIZE - SP2C_ACTION_OFFSET - 1)

/-- The request names its resource in the way in which it is looked up later: `url_data` holds a string,
and that of a DOWN request is not empty and has no `http://` in front. -/
def Recognised (dgram : Bytes) : Prop :=
  0 ∈ (dgram.drop SP2C_URL_DATA_OFFSET).take HTTP_SP_URL_LEN_MAX ∧
    (dgram.getD SP2C_ACTION_OFFSET 0 = HTTP_SP2C_ACTION_DOWN →
      cstr (dgram.drop SP2C_URL_DATA_OFFSET) ≠ [] ∧
        startsWith (cstr (dgram.drop SP2C_URL_DATA_OFFSET)) HTTP_URL_PREFIX = false)

end HotCache
