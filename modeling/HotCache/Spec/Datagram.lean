import HotCache.Spec.Client

/-! A datagram of the Snooping module on its way to the request handlers (`sc_snooping_serve`,
`http-snooping.h`). The handlers get a pointer into the receive buffer and read a string there,
so the memory after the buffer is an argument. -/

namespace HotCache

open CStr

def SC_SNOOPING_SND_RCV_BUF_LEN : ℕ := 1024
def HTTP_SP_URL_LEN_MAX : ℕ := 600
def HTTP_SP2C_ACTION_PARSE : UInt8 := 1
def HTTP_SP2C_ACTION_DOWN : UInt8 := 2

/-- The offsets in `http_sp2c_req_pkt_t`, and its size: 610 bytes and the padding that the
alignment of `session_id` asks for. -/
def SP2C_ACTION_OFFSET : ℕ := 4
def SP2C_URL_LEN_OFFSET : ℕ := 8
def SP2C_URL_DATA_OFFSET : ℕ := 10
def SP2C_REQ_PKT_SIZE : ℕ := 612

inductive Sp2cAction
  | parse | down
  deriving DecidableEq, Repr

def recvBuf (dgram : Bytes) : Bytes :=
  let received := dgram.take SC_SNOOPING_SND_RCV_BUF_LEN
  received ++ List.replicate (SC_SNOOPING_SND_RCV_BUF_LEN - received.length) 0

def urlLen (buf : Bytes) : ℕ :=
  256 * (buf.getD SP2C_URL_LEN_OFFSET 0).toNat + (buf.getD (SP2C_URL_LEN_OFFSET + 1) 0).toNat

/-- The checks of `sc_snooping_serve` on one datagram: the handler, and the buffer from `url_data`
on. -/
def scSnoopingCheck (dgram : Bytes) : Option (Sp2cAction × Bytes) :=
  let buf := recvBuf dgram
  let nrecv := (dgram.take SC_SNOOPING_SND_RCV_BUF_LEN).length
  if nrecv < SP2C_REQ_PKT_SIZE then none
  else if HTTP_URL_MAX_LEN ≤ urlLen buf then none
  else if buf.getD SP2C_ACTION_OFFSET 0 = HTTP_SP2C_ACTION_PARSE then some (.parse, buf.drop SP2C_URL_DATA_OFFSET)
  else if buf.getD SP2C_ACTION_OFFSET 0 = HTTP_SP2C_ACTION_DOWN then some (.down, buf.drop SP2C_URL_DATA_OFFSET)
  else none

/-- The string that a handler reads at `url_data`; `beyond` is the memory after the buffer. -/
def reqUrl (urlData beyond : Bytes) : Bytes := cstr (urlData ++ beyond)

def scSnoopingServe [Layout] (w : World) (dgram beyond : Bytes) (parseAns : ParseAnswer) (downAns : Answer) :
    World :=
  match scSnoopingCheck dgram with
  | some (.parse, urlData) => (scSnoopingDoParse w (reqUrl urlData beyond) parseAns).2
  | some (.down, urlData) => (scSnoopingDoDown w (reqUrl urlData beyond) downAns).2
  | none => w

/-- `buf` of `sc_yk_gen_origin_url`, which has 16 bytes. -/
def ykOriginBuf (reqUrl : Bytes) : Option Bytes :=
  ykOriginTags.findSome? fun tag =>
    match strstr reqUrl tag with
    | none => none
    | some start =>
      let buf := (start.drop tag.length).takeWhile isAlnum
      if buf.length = 13 then some buf else none

/-- The tag that `sc_sohu_gen_origin_url` finds and what it copies to its `buf`, which has
`HTTP_URL_MAX_LEN` bytes. -/
def sohuOriginBuf (reqUrl : Bytes) : Option (Bytes × Bytes) :=
  let copy (start tag : Bytes) : Option (Bytes × Bytes) :=
    if (strstr start (bytes ".m3u8")).isNone then none
    else some (tag, (start.drop tag.length).takeWhile (· ≠ ch '?'))
  match strstr reqUrl (bytes "hot.vrs.sohu.com/ipad") with
  | some start => copy start (bytes "hot.vrs.sohu.com/ipad")
  | none =>
    match strstr reqUrl (bytes "my.tv.sohu.com/ipad/") with
    | some start => copy start (bytes "my.tv.sohu.com/ipad/")
    | none => none

end HotCache
