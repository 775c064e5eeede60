import WireCodec.Text.Extender
import WireCodec.Text.Invisible

/-!
# Quoted texts

A text in diagnostics stands in double quotes. What could be mistaken there is escaped: quotes,
backslashes, and every character that cannot be seen by itself. All the rest of Unicode stands as it
is.
-/

set_option autoImplicit false

namespace WireCodec

namespace Quoted

def letter? : Char → Option Char
  | '"' => some '"'
  | '\\' => some '\\'
  | '\n' => some 'n'
  | '\r' => some 'r'
  | '\t' => some 't'
  | '\x00' => some '0'
  | _ => none

/-- Whether a character can be seen, and by itself: it has a mark, and not one on the character
before it. -/
def standsAlone (c : Char) : Bool := !CodeRanges.invisible.holds c && !CodeRanges.extenders.holds c

/-- One character between the quotes: itself, a letter behind a backslash, or its code point in base
16. -/
def encodeChar (c : Char) : List Char :=
  match letter? c with
  | some l => ['\\', l]
  | none =>
    if standsAlone c then [c] else ['\\', 'u', '\x7b'] ++ Nat.toDigits 16 c.toNat ++ ['\x7d']

end Quoted

def quoted (s : String) : String :=
  "\"" ++ String.ofList (s.toList.flatMap Quoted.encodeChar) ++ "\""

end WireCodec
