import WireCodec.Ieee754
import WireCodec.Word

/-!
# The narrowest form of a number

Numbers whose form is left to the writer are stored as narrowly as their value allows. An integer
takes the least width that holds it, as a signed number if it can. A float that is an integer to the
eye is stored as one, a float of few decimal places in 32 bits, and all others in full.
-/

set_option autoImplicit false

namespace WireCodec

def IntFormat.narrowest (v : Int) : IntFormat :=
  let w := (Width.all.find? fun w => w.minSigned ≤ v && v ≤ w.maxUnsigned).getD .b64
  if v ≤ w.maxSigned then .twosComplement w else .unsigned w

inductive FloatForm where
  | integer (v : Int64)
  | single (pattern : UInt32)
  | double (pattern : UInt64)
  deriving DecidableEq

namespace FloatForm

open Ieee754

/-- The greatest fraction, itself excluded, that counts as none: the float nearest to one in a
thousand millions. -/
def tolerance : BinaryFraction := ⟨4835703278458517, 82⟩

/-- The least fraction, itself excluded, that counts as a whole: one less the tolerance, rounded to
a float. -/
def nearlyOne : BinaryFraction := ⟨9007199245733793, 53⟩

/-- The greatest number that is stored in 32 bits because its fraction is nearly a whole. -/
def singleLimit : Nat := 16777215

def fractionVanishes (x : Datum) : Bool :=
  match x.fraction? with
  | some d => d.lt tolerance
  | none => false

def fractionFills (x : Datum) : Bool :=
  match x.fraction? with
  | some d => nearlyOne.lt d
  | none => false

/-- The form of a float: an integer if it is near one, 32 bits if a thousand times it is, else all
64 bits. -/
def narrowest (pattern : UInt64) : FloatForm :=
  let x := binary64.decode pattern.toNat
  if fractionVanishes x || fractionFills x then .integer x.toInt64
  else
    let y := binary64.decode (binary64.round (x.scale 1000))
    if fractionVanishes y || (fractionFills y && x.atMost singleLimit) then
      .single (UInt32.ofNat (convert binary64 binary32 pattern.toNat))
    else .double pattern

end FloatForm

end WireCodec
