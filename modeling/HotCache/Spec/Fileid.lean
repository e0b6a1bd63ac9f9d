import HotCache.Lib.Cursor
import HotCache.Spec.Site

/-! The decoding of Youku file ids (`yk_getfileid.c`). `none` stands for undefined behaviour: a read
or a write outside of a buffer, or an overflow of `int`. -/

namespace HotCache

open CStr

def YK_FILEID_LEN : ℕ := 66
def STREAM_FILE_IDS_LEN : ℕ := 256
def INT_MAX : ℕ := 2 ^ 31 - 1

/-- `zf`: the new `*dt`, and the result. The result and its product with a length below 2^37 are
multiples of 2^-16 that a `double` holds exactly. -/
def zf (dt : ℕ) : Option (ℕ × ℚ) :=
  if INT_MAX < dt * 211 + 30031 then none
  else
    let dt := (dt * 211 + 30031) % 65536
    some (dt, dt / 65536)

/-- `del_key_in_str`: the first `key` goes, if there is one. -/
def delKeyInStr (input : Bytes) (key : UInt8) : Bytes := input.erase key

def ykAlphabet : Bytes :=
  bytes "abcdefghijklmnopqrstuvwxyzABCDEFGHIJKLMNOPQRSTUVWXYZ" ++ bytes "/\\:._-1234567890"

/-- One round of the loop of `ranom8T`: the character it writes, the seed and what is left of
`_loc2_`. -/
def ranom8TRound (seed : ℕ) (loc2 : Bytes) : Option (UInt8 × ℕ × Bytes) := do
  let (seed, ret) ← zf seed
  let c ← loc2[⌊ret * loc2.length⌋.toNat]?
  return (c, seed, delKeyInStr loc2 c)

def ranom8TLoop : ℕ → ℕ → Bytes → Option Bytes
  | 0, _, _ => some []
  | n + 1, seed, loc2 => do
    let (c, seed, loc2) ← ranom8TRound seed loc2
    return c :: (← ranom8TLoop n seed loc2)

/-- `ranom8T`: the bytes that it writes to `output_str`. -/
def ranom8T (seed : ℕ) : Option Bytes := ranom8TLoop ykAlphabet.length seed ykAlphabet

/-- `cg_fun`. The index table is zeroed, so missing indices are 0; with no token at all `atoi` is
called on NULL. -/
def cgFun (streamfileids processedStr : Bytes) : Option Bytes :=
  if STREAM_FILE_IDS_LEN ≤ streamfileids.length then none
  else do
    let toks := tokens (ch '*') streamfileids
    if toks = [] ∨ YK_FILEID_LEN < toks.length then none
    let loc2 ← toks.mapM fun t => atoi (t ++ [0])
    (loc2 ++ List.replicate (YK_FILEID_LEN - loc2.length) (0 : ℤ)).mapM fun i =>
      if i < 0 then none else processedStr[i.toNat]?

/-- `%X` of a number that is not negative. -/
def hexUpper (n : ℕ) : Bytes := (Nat.toDigits 16 n).map fun c => ch c.toUpper

/-- `yk_get_fileid`: the return value and what it writes to `fileids`. -/
def ykGetFileid (streamfileids : Bytes) (videoNum seed : ℕ) : Option (Bool × Bytes) := do
  let processedStr ← ranom8T seed
  let outputStr ← cgFun streamfileids processedStr
  let vnumStr := hexUpper videoNum
  if 3 ≤ vnumStr.length then none
  let vnumStr := if vnumStr.length = 1 then ch '0' :: vnumStr else vnumStr
  let outputStr := cstr ((outputStr.set 8 (vnumStr.getD 0 0)).set 9 (vnumStr.getD 1 0))
  return if YK_FILEID_LEN < outputStr.length then (false, []) else (true, outputStr)

end HotCache
