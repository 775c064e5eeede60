/-!
# Byte strings

Every buffer, payload and encoding of this library is a plain list of bytes. `overlay` is the one
way in which a buffer of fixed length changes: a run of bytes replaces what stood at an offset.
-/

set_option autoImplicit false

namespace WireCodec

abbrev Bytes := List UInt8

namespace Bytes

/-- The bytes of `b` with `patch` in place of those from `offset` on; the length stays if `patch`
ends inside `b`. -/
def overlay (b : Bytes) (offset : Nat) (patch : Bytes) : Bytes :=
  b.take offset ++ (patch ++ b.drop (offset + patch.length))

theorem length_overlay (b : Bytes) (offset : Nat) (patch : Bytes)
    (h : offset + patch.length ≤ b.length) :
    (b.overlay offset patch).length = b.length := by
  simp only [overlay, List.length_append, List.length_take, List.length_drop]
  omega

theorem take_overlay (b : Bytes) (offset : Nat) (patch : Bytes) (h : offset ≤ b.length) :
    (b.overlay offset patch).take (offset + patch.length) = b.take offset ++ patch := by
  have front : (b.take offset ++ patch).length = offset + patch.length := by
    rw [List.length_append, List.length_take, Nat.min_eq_left h]
  rw [overlay, ← List.append_assoc, ← front, List.take_left]

theorem drop_overlay (b : Bytes) (offset : Nat) (patch : Bytes) (n : Nat) (h : offset ≤ b.length) :
    (b.overlay offset patch).drop (offset + patch.length + n) =
      b.drop (offset + patch.length + n) := by
  have front : (b.take offset ++ patch).length = offset + patch.length := by
    rw [List.length_append, List.length_take, Nat.min_eq_left h]
  rw [overlay, ← List.append_assoc, ← List.drop_drop, ← front, List.drop_left, front,
    List.drop_drop]

theorem overlay_append (x b c : Bytes) (offset : Nat) (h : offset + b.length ≤ x.length) :
    (x.overlay offset b).overlay (offset + b.length) c = x.overlay offset (b ++ c) := by
  have start : offset ≤ x.length := Nat.le_of_add_right_le h
  have front := x.take_overlay offset b start
  have rest := x.drop_overlay offset b c.length start
  rw [overlay, front, rest, overlay, List.length_append, List.append_assoc, List.append_assoc,
    Nat.add_assoc]

theorem overlay_nil (b : Bytes) (offset : Nat) : b.overlay offset [] = b := by
  rw [overlay, List.length_nil, Nat.add_zero, List.nil_append, List.take_append_drop]

theorem overlay_zero (b patch : Bytes) : b.overlay 0 patch = patch ++ b.drop patch.length := by
  rw [overlay, List.take_zero, List.nil_append, Nat.zero_add]

end Bytes

end WireCodec
