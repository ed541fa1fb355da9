import TileStream.LittleEndian
import TileStream.Word
/-!
# The parameter block

An invocation of a layer is described by thirteen 32-bit words: the tensor addresses in the slow tier,
those in the mid tier (with a second staging buffer that the schedule does not use), the base of the
scratchpad, whether the slow tier is real external memory, and the multipliers and shift of the
fixed-point arithmetic. `Params.ofWords` and `Params.toWords` are the two directions of the codec.
-/

namespace TileStream

/-- A decoded parameter block. -/
structure Params where
  slowInput : UInt32
  slowOutput : UInt32
  slowWeights : UInt32
  midInput : UInt32
  midInputSecondary : UInt32
  midOutput : UInt32
  midWeights : UInt32
  /-- Where the scratchpad begins in the local tier. -/
  localBase : UInt32
  /-- The slow tier is external memory, not another name of the mid tier. -/
  slowIsExternal : Bool
  outMult : UInt32
  inMult1 : UInt32
  inMult2 : UInt32
  outShift : UInt32
  deriving DecidableEq, Repr, Inhabited

/-- Why a parameter block was refused. -/
inductive ParamsError where
  | tooShort (expected got : Nat)
  | unaligned (bytes : Nat)
  | shiftOutOfRange (shift : UInt32)
  deriving DecidableEq, Repr

def ParamsError.message : ParamsError → String
  | .tooShort expected got => s!"parameter block has {got} words, expected {expected}"
  | .unaligned bytes => s!"parameter block byte length {bytes} is not a multiple of 4"
  | .shiftOutOfRange shift => s!"output shift {shift.toNat} out of range (must be < 32)"

namespace Params

/-- The number of words in a parameter block. -/
def wordCount : Nat := 13

/-- The block that thirteen words describe, whatever the shift. -/
def ofFields (w : Vector UInt32 wordCount) : Params where
  slowInput := w[0]
  slowOutput := w[1]
  slowWeights := w[2]
  midInput := w[3]
  midInputSecondary := w[4]
  midOutput := w[5]
  midWeights := w[6]
  localBase := w[7]
  slowIsExternal := w[8] != 0
  outMult := w[9]
  inMult1 := w[10]
  inMult2 := w[11]
  outShift := w[12]

/-- Read a block from words. Words past the thirteenth are ignored; the shift has to be below 32. -/
def ofWords (words : List UInt32) : Except ParamsError Params :=
  match words with
  | w0 :: w1 :: w2 :: w3 :: w4 :: w5 :: w6 :: w7 :: w8 :: w9 :: w10 :: w11 :: w12 :: _ =>
    if 32 ≤ w12 then
      .error (.shiftOutOfRange w12)
    else
      .ok (ofFields #v[w0, w1, w2, w3, w4, w5, w6, w7, w8, w9, w10, w11, w12])
  | _ => .error (.tooShort wordCount words.length)

/-- Read a block from bytes, four for each word, least significant first. -/
def ofBytes (bytes : List UInt8) : Except ParamsError Params :=
  if bytes.length % 4 ≠ 0 then
    .error (.unaligned bytes.length)
  else
    ofWords (LittleEndian.words bytes)

/-- Write a block as its thirteen words; the flag becomes one or zero. -/
def toWords (p : Params) : List UInt32 :=
  [p.slowInput, p.slowOutput, p.slowWeights, p.midInput, p.midInputSecondary, p.midOutput,
   p.midWeights, p.localBase, if p.slowIsExternal then 1 else 0, p.outMult, p.inMult1, p.inMult2,
   p.outShift]

end Params

/-- The part of the fixed-point arithmetic that is the same for every channel. -/
structure Requant where
  outMult : UInt32
  outShift : UInt32
  deriving DecidableEq, Repr, Inhabited

/-- The layer-wide part of the fixed-point arithmetic. -/
def Params.requant (p : Params) : Requant := ⟨p.outMult, p.outShift⟩

end TileStream
