import HotCache.Lib.Buffer
import HotCache.Lib.Double
import HotCache.Spec.Fileid

/-! `ranom8T` down to its buffers and its `double`s. `none` stands for an overflow of `int` and for a loop
that reads behind the `n` bytes of its buffer. -/

namespace HotCache

open CStr Buffer Double

/-- The sizes of `_loc2_` and of `processed_str`, the buffer that the caller passes as `output_str`. -/
def LOC2_LEN : ℕ := YK_FILEID_LEN + 3
def PROCESSED_STR_LEN : ℕ := YK_FILEID_LEN + 2

/-- `zf`: the new `*dt`, and the result. -/
def zfDouble (dt : ℕ) : Option (ℕ × ℚ) :=
  if INT_MAX < dt * 211 + 30031 then none
  else
    let dt := (dt * 211 + 30031) % 65536
    let ret := toDouble dt
    some (dt, toDouble (ret / toDouble 65536))

/-- The first loop of `del_key_in_str`, with `k` bytes of the buffer left. -/
def delKeyFind (input : Buf) (key : UInt8) : ℕ → ℕ → Option ℕ
  | 0, _ => none
  | k + 1, i => if input.byte i ≠ key ∧ input.byte i ≠ 0 then delKeyFind input key k (i + 1) else some i

def delKeyShift : ℕ → ℕ → Buf → Option (ℕ × Buf)
  | 0, _, _ => none
  | k + 1, i, input =>
    if input.byte i ≠ 0 then delKeyShift k (i + 1) (input.put i (input.byte (i + 1))) else some (i, input)

/-- `del_key_in_str`, in a buffer of `n` bytes. -/
def delKeyInStrInto (n : ℕ) (input : Buf) (key : UInt8) : Option Buf := do
  let i ← delKeyFind input key n 0
  let (i, input) ← delKeyShift (n - i) i input
  return input.put i 0

/-- The variables of `ranom8T` in its loop. -/
structure Ranom8T where
  seed : ℕ
  loc2 : Buf
  loc5 : ℕ
  outputStr : Buf

def Ranom8T.loc7 (s : Ranom8T) : Option (ℕ × ℤ) := do
  let (seed, ret) ← zfDouble s.seed
  return (seed, truncate (toDouble (ret * toDouble (s.loc2.strlen LOC2_LEN))))

def Ranom8T.round (s : Ranom8T) : Option Ranom8T := do
  let (seed, loc7) ← s.loc7
  let outputStr := s.outputStr.put s.loc5 (s.loc2.byte loc7)
  let loc2 ← delKeyInStrInto LOC2_LEN s.loc2 (s.loc2.byte loc7)
  return ⟨seed, loc2, s.loc5 + 1, outputStr⟩

def Ranom8T.rounds (s : Ranom8T) : ℕ → Option Ranom8T
  | 0 => some s
  | k + 1 => do (← s.rounds k).round

def ranom8TStart (seed : ℕ) (loc2 outputStr : Buf) : Ranom8T :=
  let loc2 := loc2.putAll 0 (List.replicate LOC2_LEN 0)
  let loc2 := loc2.strcat LOC2_LEN (bytes "abcdefghijklmnopqrstuvwxyzABCDEFGHIJKLMNOPQRSTUVWXYZ")
  let loc2 := loc2.strcat LOC2_LEN (bytes "/\\:._-1234567890")
  ⟨seed, loc2, 0, outputStr⟩

/-- `ranom8T`: `output_str` behind its loop, in which `_loc5_` counts the rounds up to `_loc4_`. -/
def ranom8TInto (seed : ℕ) (loc2 outputStr : Buf) : Option Buf :=
  let s := ranom8TStart seed loc2 outputStr
  let loc4 := s.loc2.strlen LOC2_LEN
  (s.rounds loc4).map Ranom8T.outputStr

end HotCache
