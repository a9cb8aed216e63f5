import Snuffin.Structs
import Mathlib.Data.Fintype.Card
/-!
# The board and the snakes (game.c)

`GameBoard` is the struct of game.h. An access off the 20x20 arrays has no
meaning in C, so the model says what it may do: a read gives any byte (the
argument `off`), a write changes nothing that is modelled. Every access is
listed, so that theorems can say which ones happen.
-/

namespace Snuffin.Game

abbrev boardWidth : Nat := 20
abbrev boardHeight : Nat := 20

/-- An index pair `[y][x]` of `bB` and `gB`. -/
abbrev Cell := Fin boardHeight × Fin boardWidth

def tailChar : UInt8 := 45

/-- What `gB` holds in a cell of slot `i`: `pNum` in `loadSnake`, `i + 1` in
`updateBoard`. -/
def slotMark (i : Slot) : UInt8 := UInt8.ofNat (i.val + 1)

structure GameBoard where
  bB : Cell → UInt8
  gB : Cell → UInt8
  pDef : Slot → Int
  pDir : Slot → Point
  pPos : Slot → Point

def outOfBoard (pPos : Point) : Bool :=
  pPos.x < 0 || pPos.x ≥ boardWidth || pPos.y < 0 || pPos.y ≥ boardHeight

/-- The cell that the indices `[p.y][p.x]` name, when they are in range. -/
def cellAt (p : Point) : Option Cell :=
  if h : 0 ≤ p.y ∧ p.y < boardHeight ∧ 0 ≤ p.x ∧ p.x < boardWidth then
    some (⟨p.y.toNat, by omega⟩, ⟨p.x.toNat, by omega⟩)
  else none

namespace GameBoard

/-- The cell the snake of slot `i` enters in its next move. -/
def next (b : GameBoard) (i : Slot) : Point := b.pPos i + b.pDir i

/-- `bB[p.y][p.x]`, where `off` is what a read off the board gives. -/
def readB (b : GameBoard) (off : UInt8) (p : Point) : UInt8 :=
  match cellAt p with
  | some c => b.bB c
  | none => off

def markCell (b : GameBoard) (c : Cell) (m : UInt8) : GameBoard :=
  { b with bB := Function.update b.bB c tailChar, gB := Function.update b.gB c m }

/-- `bB[p.y][p.x] = TAIL_CHAR; gB[p.y][p.x] = mark`. A write off the arrays
hits other memory and is dropped here; `ChildServer.strayMachine` lets a server
that makes one do anything. -/
def mark (b : GameBoard) (p : Point) (m : UInt8) : GameBoard :=
  match cellAt p with
  | some c => b.markCell c m
  | none => b

end GameBoard

/-! ## Setting up a game -/

def initBoard (b : GameBoard) : GameBoard :=
  { b with bB := fun _ => 0, gB := fun _ => 0, pDef := fun _ => -1 }

/-- The do-while loop of `loadSnake`: `p` is `(px, py)`, and `none` means that
`fuel` rounds were not enough. -/
def loadLoop (start fin pDir : Point) (m : UInt8) : Nat → Point → GameBoard → Option GameBoard
  | 0, _, _ => none
  | fuel + 1, p, b =>
    let p := p + pDir
    let b := b.mark (start + p) m
    if start.x + p.x ≠ fin.x ∨ start.y + p.y ≠ fin.y then loadLoop start fin pDir m fuel p b else some b

/-- The direction `loadSnake` chooses. -/
def loadDir (start fin : Point) : Point :=
  if start.x = fin.x then
    if start.y < fin.y then ⟨0, 1⟩ else ⟨0, -1⟩
  else if start.y = fin.y then
    if start.x < fin.x then ⟨1, 0⟩ else ⟨-1, 0⟩
  else ⟨0, 0⟩

def loadSnake (fuel : Nat) (start fin : Point) (i : Slot) (b : GameBoard) : Option GameBoard :=
  (loadLoop start fin (loadDir start fin) (slotMark i) fuel ⟨0, 0⟩ b).map fun b =>
    { b with
      pPos := Function.update b.pPos i fin
      pDir := Function.update b.pDir i (loadDir start fin)
      pDef := Function.update b.pDef i 0 }

/-- `loadSnakeNumber(i + 1, b)`. -/
def loadSnakeNumber (fuel : Nat) (i : Slot) (b : GameBoard) : Option GameBoard :=
  match i with
  | 3 => loadSnake fuel ⟨boardWidth / 2, boardHeight - 1⟩ ⟨boardWidth / 2, boardHeight - 5⟩ 3 b
  | 2 => loadSnake fuel ⟨boardWidth / 2, 1⟩ ⟨boardWidth / 2, 5⟩ 2 b
  | 1 => loadSnake fuel ⟨1, boardHeight / 2⟩ ⟨5, boardHeight / 2⟩ 1 b
  | 0 => loadSnake fuel ⟨boardWidth - 1, boardHeight / 2⟩ ⟨boardWidth - 5, boardHeight / 2⟩ 0 b

def updateMovementDirection (nPlayer : Slot) (p : Point) (b : GameBoard) : GameBoard :=
  { b with pDir := Function.update b.pDir nPlayer p }

/-! ## One tick -/

inductive Grid where
  | bB
  | gB
  deriving DecidableEq, Repr

inductive Mode where
  | read
  | write
  deriving DecidableEq, Repr

/-- One access to `bB` or `gB` at the indices `[pos.y][pos.x]`. -/
structure Access where
  grid : Grid
  mode : Mode
  pos : Point
  deriving DecidableEq, Repr

/-- The loop of `updateBoard` under way: the board, the slots `playerLost` was
called for and the accesses made, both oldest first. -/
structure Tick where
  board : GameBoard
  lost : List Slot
  touched : List Access

namespace Tick

/-- The branch that ends a snake. -/
def lose (t : Tick) (i : Slot) : Tick where
  board := { t.board with pDef := Function.update t.board.pDef i 1 }
  lost := t.lost ++ [i]
  touched := t.touched ++ [⟨.bB, .read, t.board.next i⟩]

/-- The branch that moves a snake. -/
def advance (t : Tick) (i : Slot) : Tick where
  board :=
    { t.board.mark (t.board.next i) (slotMark i) with
      pPos := Function.update t.board.pPos i (t.board.next i) }
  lost := t.lost
  touched := t.touched ++
    [⟨.bB, .read, t.board.next i⟩, ⟨.bB, .write, t.board.next i⟩, ⟨.gB, .write, t.board.next i⟩]

end Tick

/-- The body of the loop of `updateBoard`. -/
def turn (off : UInt8) (t : Tick) (i : Slot) : Tick :=
  if t.board.pDef i ≠ -1 ∧ t.board.pDef i = 0 then
    if t.board.readB off (t.board.next i) = tailChar ∨ outOfBoard (t.board.pPos i) then t.lose i
    else t.advance i
  else t

/-- The turns of the slots in `l`; `off i` is what slot `i` would read off the
board. -/
def turns (off : Slot → UInt8) (l : List Slot) (t : Tick) : Tick :=
  l.foldl (fun t i => turn (off i) t i) t

def updateBoard (off : Slot → UInt8) (b : GameBoard) : Tick :=
  turns off (List.finRange maxPlayers) ⟨b, [], []⟩

/-! ## Cells -/

theorem slotMark_inj {i j : Slot} : slotMark i = slotMark j ↔ i = j := by
  revert i j; decide

theorem slotMark_ne_zero (i : Slot) : slotMark i ≠ 0 := by
  revert i; decide

theorem cellAt_eq_none {p : Point} : cellAt p = none ↔ outOfBoard p = true := by
  simp only [cellAt, outOfBoard, dite_eq_right_iff, reduceCtorEq, Bool.or_eq_true, decide_eq_true_eq]
  constructor
  · intro h; by_contra hc; exact h (by omega)
  · intro h hc; omega

theorem cellAt_isSome {p : Point} : (cellAt p).isSome = true ↔ outOfBoard p = false := by
  rw [← Option.ne_none_iff_isSome, Ne, cellAt_eq_none, Bool.not_eq_true]

/-! ## What a turn does -/

theorem turn_dead {off : UInt8} {t : Tick} {i : Slot} (h : t.board.pDef i ≠ 0) : turn off t i = t := by
  simp [turn, h]

/-- What a turn does, in three cases. -/
theorem turn_cases (off : UInt8) (t : Tick) (i : Slot) :
    -- The slot has no snake, or a lost one.
    (t.board.pDef i ≠ 0 ∧ turn off t i = t) ∨
    -- The snake is lost.
    (t.board.pDef i = 0 ∧ (t.board.readB off (t.board.next i) = tailChar ∨ outOfBoard (t.board.pPos i) = true) ∧
      turn off t i = t.lose i) ∨
    -- The snake moves.
    (t.board.pDef i = 0 ∧ t.board.readB off (t.board.next i) ≠ tailChar ∧ outOfBoard (t.board.pPos i) = false ∧
      turn off t i = t.advance i) := by
  by_cases hi : t.board.pDef i = 0
  · by_cases hl : t.board.readB off (t.board.next i) = tailChar ∨ outOfBoard (t.board.pPos i) = true
    · exact .inr (.inl ⟨hi, hl, by simp [turn, hi, hl]⟩)
    · rw [not_or, Bool.not_eq_true] at hl
      exact .inr (.inr ⟨hi, hl.1, hl.2, by simp [turn, hi, hl.1, hl.2]⟩)
  · exact .inl ⟨hi, turn_dead hi⟩

@[simp] theorem mark_pDef (b : GameBoard) (p : Point) (m : UInt8) : (b.mark p m).pDef = b.pDef := by
  unfold GameBoard.mark; split <;> rfl

@[simp] theorem mark_pDir (b : GameBoard) (p : Point) (m : UInt8) : (b.mark p m).pDir = b.pDir := by
  unfold GameBoard.mark; split <;> rfl

@[simp] theorem mark_pPos (b : GameBoard) (p : Point) (m : UInt8) : (b.mark p m).pPos = b.pPos := by
  unfold GameBoard.mark; split <;> rfl

/-- A turn leaves the directions alone. -/
theorem turn_pDir (off : UInt8) (t : Tick) (i : Slot) : (turn off t i).board.pDir = t.board.pDir := by
  rcases turn_cases off t i with ⟨-, h⟩ | ⟨-, -, h⟩ | ⟨-, -, -, h⟩ <;> rw [h] <;> simp [Tick.lose, Tick.advance]

/-- A turn leaves the other slots alone. -/
theorem turn_other (off : UInt8) (t : Tick) {i j : Slot} (hj : j ≠ i) :
    (turn off t i).board.pDef j = t.board.pDef j ∧ (turn off t i).board.pPos j = t.board.pPos j ∧
      (turn off t i).board.next j = t.board.next j := by
  have hd := turn_pDir off t i
  have h : (turn off t i).board.pDef j = t.board.pDef j ∧ (turn off t i).board.pPos j = t.board.pPos j := by
    rcases turn_cases off t i with ⟨-, h⟩ | ⟨-, -, h⟩ | ⟨-, -, -, h⟩ <;> rw [h] <;>
      simp [Tick.lose, Tick.advance, hj]
  exact ⟨h.1, h.2, by simp only [GameBoard.next, h.2, hd]⟩

@[simp] theorem turns_nil (off : Slot → UInt8) (t : Tick) : turns off [] t = t := rfl

@[simp] theorem turns_cons (off : Slot → UInt8) (i : Slot) (l : List Slot) (t : Tick) :
    turns off (i :: l) t = turns off l (turn (off i) t i) := rfl

/-- The turns of other slots leave a slot alone. -/
theorem turns_other (off : Slot → UInt8) (l : List Slot) (t : Tick) {j : Slot} (hj : j ∉ l) :
    (turns off l t).board.pDef j = t.board.pDef j ∧ (turns off l t).board.pPos j = t.board.pPos j ∧
      (turns off l t).board.next j = t.board.next j := by
  induction l generalizing t with
  | nil => simp
  | cons i l ih =>
    simp only [List.mem_cons, not_or] at hj
    obtain ⟨h1, h2, h3⟩ := ih (turn (off i) t i) hj.2
    obtain ⟨g1, g2, g3⟩ := turn_other (off i) t hj.1
    exact ⟨h1.trans g1, h2.trans g2, h3.trans g3⟩

end Snuffin.Game
