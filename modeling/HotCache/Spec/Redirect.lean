import HotCache.Spec.Datagram

/-! The calls to the Snooping module (`sc_snooping_initiate_action`, `http-snooping.h`), which redirects
clients to the urls that it has been told to ADD, until they are told to be DELETEd. The byte order of the
host is little-endian. -/

namespace HotCache

open CStr

def HTTP_C2SP_ACTION_ADD : UInt8 := 3
def HTTP_C2SP_ACTION_DELETE : UInt8 := 4

def HTTP_SP_STATUS_OK : UInt8 := 0

/-- `http_c2sp_req_pkt_t` has the fields of `http_sp2c_req_pkt_t` at the same offsets. -/
def C2SP_REQ_PKT_SIZE : ℕ := SP2C_REQ_PKT_SIZE

def u32Bytes (n : ℕ) : Bytes :=
  [UInt8.ofNat n, UInt8.ofNat (n / 2 ^ 8), UInt8.ofNat (n / 2 ^ 16), UInt8.ofNat (n / 2 ^ 24)]

def NO_SESSION : ℕ := 2 ^ 32 - 1

/-- The request of `sc_snooping_initiate_action`, in a zeroed buffer. `url_len` is the length of the url as
it was given, `usr_data` its copy without `http://`. -/
def scC2spReqPkt (act : UInt8) (sid : ℕ) (url : Bytes) : Bytes :=
  let head := u32Bytes sid ++ [act, 0, 0, 0] ++ [UInt8.ofNat (url.length / 2 ^ 8), UInt8.ofNat url.length]
  (head ++ scResCopyUrl url true ++ List.replicate SC_SNOOPING_SND_RCV_BUF_LEN 0).take C2SP_REQ_PKT_SIZE

/-- What the socket calls of `sc_snooping_initiate_action` meet. -/
inductive SnoopAnswer
  | noSocket
  | sendFailed
  | recvFailed
  | reply (dgram : Bytes)

/-- `sc_snooping_initiate_action`: the request it has sent, if any, and whether it returns 0. The length of
the reply is not looked at. -/
def scSnoopingInitiateAction (act : UInt8) (sid : ℕ) (url : Bytes) (ans : SnoopAnswer) : Option Bytes × Bool :=
  if act ≠ HTTP_C2SP_ACTION_ADD ∧ act ≠ HTTP_C2SP_ACTION_DELETE then (none, false)
  else match ans with
    | .noSocket => (none, false)
    | .sendFailed => (none, false)
    | .recvFailed => (some (scC2spReqPkt act sid url), false)
    | .reply dgram =>
      let buf := recvBuf dgram
      (some (scC2spReqPkt act sid url),
        buf.take 4 = u32Bytes sid && buf.getD SP2C_ACTION_OFFSET 0 = HTTP_SP_STATUS_OK)

def scSnoopingDoAdd (sid : ℕ) (url : Bytes) (ans : SnoopAnswer) : Option Bytes × Bool :=
  scSnoopingInitiateAction HTTP_C2SP_ACTION_ADD sid url ans

def scSnoopingDoDel (sid : ℕ) (url : Bytes) (ans : SnoopAnswer) : Option Bytes × Bool :=
  scSnoopingInitiateAction HTTP_C2SP_ACTION_DELETE sid url ans

/-- The urls that `sc_init_advertisement` adds. -/
def scInitAdvertisement : List Bytes :=
  [bytes "ad.api.3g.youku.com/adv", bytes "valf.atm.youku.com/vf", bytes "m.aty.sohu.com/m"]

def c2spUrl (pkt : Bytes) : Bytes := cstr ((pkt.drop SP2C_URL_DATA_OFFSET).take HTTP_SP_URL_LEN_MAX)

/-- The request asks for the redirection of `url`, or for the end of it. -/
def C2spAsks (act : UInt8) (pkt url : Bytes) : Prop := pkt.getD SP2C_ACTION_OFFSET 0 = act ∧ c2spUrl pkt = url

def redirectUrl (url : Bytes) : Bytes := cstr ((scResCopyUrl url true).take HTTP_SP_URL_LEN_MAX)

end HotCache
