import Mathlib.Data.Fintype.Prod
/-!
# Shared data types

The types of structs.h and the constants that several files of the server
repeat. Coordinates are C ints that meet only comparisons with 0 and 20 and
one addition whose sum is used as an index; a sum that overflows is off the
board like the unbounded sum, so they are `Int` here.
-/

namespace Snuffin

/-- `MAX_PLAYERS`, the same in game.c and childServer.h. -/
abbrev maxPlayers : Nat := 4

instance : @NeZero Nat Zero.ofOfNat0 maxPlayers := ⟨Nat.succ_ne_zero 3⟩

/-- A position in `clients` and in the arrays of `GameBoard`. -/
abbrev Slot := Fin maxPlayers

abbrev Bytes := List UInt8

structure Point where
  x : Int
  y : Int
  deriving DecidableEq, Repr

instance : Add Point := ⟨fun p q => ⟨p.x + q.x, p.y + q.y⟩⟩

@[simp] theorem Point.add_x (p q : Point) : (p + q).x = p.x + q.x := rfl

@[simp] theorem Point.add_y (p q : Point) : (p + q).y = p.y + q.y := rfl

end Snuffin
