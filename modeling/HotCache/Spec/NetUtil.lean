import HotCache.Lib.Buffer
import HotCache.Lib.Cursor
import HotCache.Spec.Site

/-! `util_json_to_ascii_string`, which rewrites a response in its own buffer. The cursors `p` and `q` are
indices into the buffer, so a read behind a write sees what was written. -/

namespace HotCache

open CStr Buffer

def hexValue (c : UInt8) : Option ℕ :=
  if isDigit c then some (c.toNat - 48)
  else if ch 'a' ≤ c && c ≤ ch 'f' then some (c.toNat - 87)
  else if ch 'A' ≤ c && c ≤ ch 'F' then some (c.toNat - 55)
  else none

def hexDigitsValue (acc : ℕ) : Bytes → ℕ
  | [] => acc
  | c :: s =>
    match hexValue c with
    | some d => hexDigitsValue (acc * 16 + d) s
    | none => acc

/-- `strtol(s, NULL, 16)`, for numbers that a `long` holds: white space, a sign and `0x` may stand
before the digits. -/
def strtol16 (s : Bytes) : ℤ :=
  let s := s.dropWhile space
  let negative := s.head? = some (ch '-')
  let s := if negative ∨ s.head? = some (ch '+') then s.tail else s
  let s :=
    match s with
    | a :: x :: d :: r =>
      if a = ch '0' ∧ (x = ch 'x' ∨ x = ch 'X') ∧ (hexValue d).isSome then d :: r else s
    | s => s
  if negative then -hexDigitsValue 0 s else hexDigitsValue 0 s

/-- The loop of `util_json_to_ascii_string`: where the write cursor ends, and the buffer. At a backslash
the read cursor goes four bytes on, two digits are read there, and it leaves them behind. -/
def jsonToAsciiLoop (fin p q : ℕ) (buf : Buf) : ℕ × Buf :=
  if buf.byte p ≠ 0 ∧ p < fin then
    if buf.byte p = ch '\\' then
      let temp := cstr [buf.byte (p + 4 : ℕ), buf.byte (p + 5 : ℕ)]
      jsonToAsciiLoop fin (p + 6) (q + 1) (buf.put q (UInt8.ofInt (strtol16 temp)))
    else jsonToAsciiLoop fin (p + 1) (q + 1) (buf.put q (buf.byte p))
  else (q, buf)
termination_by fin - p

def utilJsonToAsciiString (buf : Buf) (len : ℕ) : ℤ × Buf :=
  if len = 0 then (-1, buf)
  else
    let (q, buf) := jsonToAsciiLoop len 0 0 buf
    (0, buf.put q 0)

end HotCache
