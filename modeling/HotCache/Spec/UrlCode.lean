import HotCache.Lib.Buffer
import HotCache.Spec.Site

/-! `url_encode` and `url_decode` of the playlist client, down to the bytes they write. `str` is the
list of its `strSize` bytes, any of which may be 0; the result buffer is told apart from its size, so
that a write behind it can be seen. An `int` holds every index. -/

namespace HotCache

open CStr Buffer

def hexDigit (n : ℕ) : UInt8 := if n < 10 then ch '0' + UInt8.ofNat n else ch 'A' + UInt8.ofNat (n - 10)

def escape (c : UInt8) : Bytes := [ch '%', hexDigit (c.toNat / 16), hexDigit (c.toNat % 16)]

/-- The loop of `url_encode`; `none` where it returns 0. A `char` from 128 on is negative and in none of
the three ranges. -/
def urlEncodeLoop (resultSize : ℕ) : Bytes → ℕ → Buf → Option ℕ × Buf
  | [], j, result => (some j, result)
  | c :: str, j, result =>
    if j < resultSize then
      if isAlnum c then urlEncodeLoop resultSize str (j + 1) (result.put j c)
      else if c = ch ' ' then urlEncodeLoop resultSize str (j + 1) (result.put j (ch '+'))
      else if j + 3 < resultSize then
        urlEncodeLoop resultSize str (j + 3) (result.putAll j (escape c ++ [0]))
      else (none, result)
    else (some j, result)

def urlEncode (str : Bytes) (result : Buf) (resultSize : ℕ) : ℕ × Buf :=
  if str = [] ∨ resultSize = 0 then (0, result)
  else
    match urlEncodeLoop resultSize str 0 result with
    | (none, result) => (0, result)
    | (some j, result) => (j, result.put j 0)

/-- The loop of `url_decode`. The two digits are taken as `char`s less `'0'`, and compared with `'0'`
after that; where the escape is not taken the `%` falls through to the default. -/
def urlDecodeLoop (resultSize : ℕ) : Bytes → ℕ → Buf → ℕ × Buf
  | [], j, result => (j, result)
  | c :: str, j, result =>
    if j < resultSize then
      if c = ch '+' then urlDecodeLoop resultSize str (j + 1) (result.put j (ch ' '))
      else if c = ch '%' then
        match str with
        | c1 :: c2 :: rest =>
          if c1 - ch '0' ≠ ch '0' ∧ c2 - ch '0' ≠ ch '0' then
            urlDecodeLoop resultSize rest (j + 1) (result.put j ((c1 - ch '0') <<< 4 ||| (c2 - ch '0')))
          else urlDecodeLoop resultSize (c1 :: c2 :: rest) (j + 1) (result.put j c)
        | str => urlDecodeLoop resultSize str (j + 1) (result.put j c)
      else urlDecodeLoop resultSize str (j + 1) (result.put j c)
    else (j, result)

def urlDecode (str : Bytes) (result : Buf) (resultSize : ℕ) : ℕ × Buf :=
  if str = [] ∨ resultSize = 0 then (0, result)
  else
    let (j, result) := urlDecodeLoop resultSize str 0 result
    (j, result.put j 0)

end HotCache
