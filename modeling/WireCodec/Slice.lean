import WireCodec.Order
import WireCodec.Width

/-!
# Integers in slices

Reading an integer from the first bytes of a slice and storing one there, at the seven fixed widths
above one byte and at a width given as a number. A store leaves the rest of the slice as it was. A
width outside 1 to 8 and a slice that is too short are the caller's faults; the width is looked at
first.
-/

set_option autoImplicit false

namespace WireCodec

namespace Bytes

/-- The first `n` bytes, all of which have to be there. -/
def leading (b : Bytes) (n : Nat) : Except Misuse Bytes :=
  if n ≤ b.length then .ok (b.take n) else .error .shortSlice

/-- The slice `b` with `patch` over its first bytes; it has to be long enough. -/
def stamp (b patch : Bytes) : Except Misuse Bytes :=
  if patch.length ≤ b.length then .ok (b.overlay 0 patch) else .error .shortSlice

end Bytes

namespace Order

def getU16 (o : Order) (b : Bytes) : Except Misuse UInt16 :=
  (b.leading 2).map fun d => UInt16.ofNat (o.value d)

def getU24 (o : Order) (b : Bytes) : Except Misuse UInt32 :=
  (b.leading 3).map fun d => UInt32.ofNat (o.value d)

def getU32 (o : Order) (b : Bytes) : Except Misuse UInt32 :=
  (b.leading 4).map fun d => UInt32.ofNat (o.value d)

def getU40 (o : Order) (b : Bytes) : Except Misuse UInt64 :=
  (b.leading 5).map fun d => UInt64.ofNat (o.value d)

def getU48 (o : Order) (b : Bytes) : Except Misuse UInt64 :=
  (b.leading 6).map fun d => UInt64.ofNat (o.value d)

def getU56 (o : Order) (b : Bytes) : Except Misuse UInt64 :=
  (b.leading 7).map fun d => UInt64.ofNat (o.value d)

def getU64 (o : Order) (b : Bytes) : Except Misuse UInt64 :=
  (b.leading 8).map fun d => UInt64.ofNat (o.value d)

def getUInt (o : Order) (b : Bytes) (width : Nat) : Except Misuse UInt64 := do
  let w ← Width.ofBytes width
  let d ← b.leading w.bytes
  pure (UInt64.ofNat (o.value d))

def putU16 (o : Order) (b : Bytes) (v : UInt16) : Except Misuse Bytes :=
  b.stamp (o.digits 2 v.toNat)

def putU24 (o : Order) (b : Bytes) (v : UInt32) : Except Misuse Bytes :=
  b.stamp (o.digits 3 v.toNat)

def putU32 (o : Order) (b : Bytes) (v : UInt32) : Except Misuse Bytes :=
  b.stamp (o.digits 4 v.toNat)

def putU40 (o : Order) (b : Bytes) (v : UInt64) : Except Misuse Bytes :=
  b.stamp (o.digits 5 v.toNat)

def putU48 (o : Order) (b : Bytes) (v : UInt64) : Except Misuse Bytes :=
  b.stamp (o.digits 6 v.toNat)

def putU56 (o : Order) (b : Bytes) (v : UInt64) : Except Misuse Bytes :=
  b.stamp (o.digits 7 v.toNat)

def putU64 (o : Order) (b : Bytes) (v : UInt64) : Except Misuse Bytes :=
  b.stamp (o.digits 8 v.toNat)

def putUInt (o : Order) (b : Bytes) (width : Nat) (v : UInt64) : Except Misuse Bytes := do
  let w ← Width.ofBytes width
  b.stamp (o.digits w.bytes v.toNat)

end Order

end WireCodec
