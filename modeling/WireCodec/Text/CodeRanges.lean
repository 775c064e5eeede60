/-!
# Sets of code points

A property of characters is kept as the closed ranges of the code points that have it.
-/

set_option autoImplicit false

namespace WireCodec

/-- Closed ranges of code points, each given by its first and its last one. -/
abbrev CodeRanges := List (Nat × Nat)

namespace CodeRanges

def holds (rs : CodeRanges) (c : Char) : Bool :=
  rs.any fun r => r.1 ≤ c.toNat && c.toNat ≤ r.2

end CodeRanges

end WireCodec
