import Snuffin.Game
import Snuffin.Lib.Machine
import Mathlib.Data.Fintype.Card
import Mathlib.Tactic.FinCases
/-!
# Whole games on the board

A game loads the snakes of some slots and then goes on with received
directions and ticks, in any order. `Owned` ties the two grids, the heads, the
flags and the history together; one turn keeps it when the snake's next cell
is on the board, and from there a tick and a whole game keep it.
-/
open Lib

namespace Snuffin.Game

/-! ## The machine -/

/-- A game under way. `moved i` counts the ticks in which snake `i` moved. -/
structure Play where
  board : GameBoard
  moved : Slot → Nat

inductive Event where
  | direction (nPlayer : Slot) (p : Point)
  | tick (off : Slot → UInt8)

def loadAll (fuel : Nat) (S : List Slot) (b : GameBoard) : Option GameBoard :=
  S.foldlM (fun b i => loadSnakeNumber fuel i b) b

/-- `moved` after a step from `b` to `b'`. -/
def stepMoved (moved : Slot → Nat) (b b' : GameBoard) : Slot → Nat :=
  fun i => if b'.pPos i ≠ b.pPos i then moved i + 1 else moved i

def afterTick (off : Slot → UInt8) (s : Play) : Play :=
  ⟨(updateBoard off s.board).board, stepMoved s.moved s.board (updateBoard off s.board).board⟩

/-- Games with the snakes of the slots in `S`. -/
def gameMachine (S : List Slot) : Machine Play Event where
  init s := (∃ fuel b, loadAll fuel S (initBoard b) = some s.board) ∧ s.moved = fun _ => 0
  step s e s' :=
    match e with
    | .direction n p => n ∈ S ∧ s' = { s with board := updateMovementDirection n p s.board }
    | .tick off => s' = afterTick off s

/-- The next cell of every alive snake is on the board. -/
def NextOnBoard (b : GameBoard) : Prop := ∀ i, b.pDef i = 0 → (cellAt (b.next i)).isSome = true

instance (b : GameBoard) : Decidable (NextOnBoard b) := by unfold NextOnBoard; infer_instance

/-- The steps of a game in which no snake is about to leave the board. -/
def TicksOnBoard (s : Play) : Event → Prop
  | .direction _ _ => True
  | .tick _ => NextOnBoard s.board

/-! ## Who owns which cell -/

def owned (b : GameBoard) (i : Slot) : Finset Cell := Finset.univ.filter fun c => b.gB c = slotMark i

/-- The grids, the heads, the flags and the move counts agree. -/
structure Owned (S : List Slot) (moved : Slot → Nat) (b : GameBoard) : Prop where
  tail_iff : ∀ c, b.bB c = tailChar ↔ b.gB c ≠ 0
  owner : ∀ c, b.gB c ≠ 0 → ∃ i ∈ S, b.gB c = slotMark i
  head : ∀ i ∈ S, ∃ c, cellAt (b.pPos i) = some c ∧ b.gB c = slotMark i
  size : ∀ i ∈ S, (owned b i).card = 4 + moved i
  absent : ∀ i, b.pDef i = -1 ↔ i ∉ S
  flags : ∀ i ∈ S, b.pDef i = 0 ∨ b.pDef i = 1

/-- Nothing marked is cleared or given away, and a flag changes from 0 to 1
only. -/
structure Grown (b b' : GameBoard) : Prop where
  marked : ∀ c, b.gB c ≠ 0 → b'.bB c = b.bB c ∧ b'.gB c = b.gB c
  flags : ∀ i, b'.pDef i = b.pDef i ∨ (b.pDef i = 0 ∧ b'.pDef i = 1)

theorem Grown.refl (b : GameBoard) : Grown b b := ⟨fun _ _ => ⟨rfl, rfl⟩, fun _ => .inl rfl⟩

theorem Grown.trans {a b c : GameBoard} (h : Grown a b) (g : Grown b c) : Grown a c where
  marked x hx := by
    obtain ⟨h1, h2⟩ := h.marked x hx
    obtain ⟨g1, g2⟩ := g.marked x (by rw [h2]; exact hx)
    exact ⟨g1.trans h1, g2.trans h2⟩
  flags i := by
    rcases h.flags i with h1 | ⟨h1, h2⟩ <;> rcases g.flags i with g1 | ⟨g1, g2⟩
    · exact .inl (g1.trans h1)
    · exact .inr ⟨h1 ▸ g1, g2⟩
    · exact .inr ⟨h1, g1.trans h2⟩
    · rw [h2] at g1; cases g1

/-! ## Loading -/

/-- The cells the loop of `loadSnake` marks for a slot, the head last. -/
def body : Slot → List Cell
  | 0 => [(10, 18), (10, 17), (10, 16), (10, 15)]
  | 1 => [(10, 2), (10, 3), (10, 4), (10, 5)]
  | 2 => [(2, 10), (3, 10), (4, 10), (5, 10)]
  | 3 => [(18, 10), (17, 10), (16, 10), (15, 10)]

def headOf : Slot → Point
  | 0 => ⟨15, 10⟩
  | 1 => ⟨5, 10⟩
  | 2 => ⟨10, 5⟩
  | 3 => ⟨10, 15⟩

def dirOf : Slot → Point
  | 0 => ⟨-1, 0⟩
  | 1 => ⟨1, 0⟩
  | 2 => ⟨0, 1⟩
  | 3 => ⟨0, -1⟩

theorem body_disjoint : ∀ i j, ∀ c ∈ body i, c ∈ body j → i = j := by decide +kernel

theorem body_head : ∀ i, ∃ c ∈ body i, cellAt (headOf i) = some c := by decide

theorem body_card : ∀ i, (body i).toFinset.card = 4 := by decide

def GameBoard.markCells (b : GameBoard) (l : List Cell) (m : UInt8) : GameBoard :=
  l.foldl (fun b c => b.markCell c m) b

/-- `b` with the snake of slot `i` loaded. -/
def GameBoard.loaded (b : GameBoard) (i : Slot) : GameBoard :=
  { b.markCells (body i) (slotMark i) with
    pPos := Function.update b.pPos i (headOf i)
    pDir := Function.update b.pDir i (dirOf i)
    pDef := Function.update b.pDef i 0 }

/-- The loop of `loadSnake` lands on the end point in its fourth round. -/
theorem loadSnakeNumber_eq (fuel : Nat) (i : Slot) (b : GameBoard) :
    loadSnakeNumber fuel i b = if 4 ≤ fuel then some (b.loaded i) else none := by
  rcases fuel with _ | _ | _ | _ | fuel <;> fin_cases i <;> rfl

theorem markCells_at (b : GameBoard) (l : List Cell) (m : UInt8) (c : Cell) :
    (b.markCells l m).bB c = (if c ∈ l then tailChar else b.bB c) ∧
      (b.markCells l m).gB c = if c ∈ l then m else b.gB c := by
  induction l generalizing b with
  | nil => simp [GameBoard.markCells]
  | cons d l ih =>
    have h := ih (b.markCell d m)
    simp only [GameBoard.markCells, List.foldl_cons] at h ⊢
    rw [h.1, h.2]
    by_cases hl : c ∈ l
    · simp [hl]
    · by_cases hd : c = d <;> simp [hl, hd, GameBoard.markCell]

/-- The board holds freshly loaded snakes of the slots in `L`. -/
structure Loaded (L : List Slot) (b : GameBoard) : Prop where
  tail_iff : ∀ c, b.bB c = tailChar ↔ b.gB c ≠ 0
  owner : ∀ c, b.gB c ≠ 0 → ∃ i ∈ L, b.gB c = slotMark i
  cells : ∀ c i, b.gB c = slotMark i ↔ i ∈ L ∧ c ∈ body i
  head : ∀ i ∈ L, b.pPos i = headOf i
  pDef : ∀ i, b.pDef i = if i ∈ L then 0 else -1

theorem loaded_initBoard (b : GameBoard) : Loaded [] (initBoard b) where
  tail_iff c := by simp [initBoard, tailChar]
  owner c h := absurd rfl h
  cells c i := by simp [initBoard, (slotMark_ne_zero i).symm]
  head i h := absurd h (by simp)
  pDef i := by simp [initBoard]

/-- Loading one more snake marks its four cells. -/
theorem Loaded.snoc {L : List Slot} {b : GameBoard} (h : Loaded L b) (i : Slot) :
    Loaded (L ++ [i]) (b.loaded i) := by
  have hg : ∀ c, (b.loaded i).gB c = if c ∈ body i then slotMark i else b.gB c :=
    fun c => (markCells_at b (body i) (slotMark i) c).2
  have hb : ∀ c, (b.loaded i).bB c = if c ∈ body i then tailChar else b.bB c :=
    fun c => (markCells_at b (body i) (slotMark i) c).1
  refine ⟨fun c => ?_, fun c hc => ?_, fun c j => ?_, fun j hj => ?_, fun j => ?_⟩
  · rw [hg, hb]
    by_cases hc : c ∈ body i
    · simp [hc, slotMark_ne_zero]
    · simpa [hc] using h.tail_iff c
  · rw [hg] at hc ⊢
    by_cases hi : c ∈ body i
    · exact ⟨i, by simp, by simp [hi]⟩
    · rw [if_neg hi] at hc ⊢
      obtain ⟨j, hj, e⟩ := h.owner c hc
      exact ⟨j, List.mem_append_left _ hj, e⟩
  · rw [hg]
    by_cases hi : c ∈ body i
    · rw [if_pos hi, slotMark_inj]
      constructor
      · rintro rfl; exact ⟨by simp, hi⟩
      · rintro ⟨-, hj⟩; exact body_disjoint i j c hi hj
    · rw [if_neg hi, h.cells]
      simp only [List.mem_append, List.mem_singleton]
      constructor
      · rintro ⟨h1, h2⟩; exact ⟨.inl h1, h2⟩
      · rintro ⟨h1 | rfl, h2⟩
        · exact ⟨h1, h2⟩
        · exact absurd h2 hi
  · by_cases hji : j = i
    · subst hji; simp [GameBoard.loaded]
    · simp only [List.mem_append, List.mem_singleton, hji, or_false] at hj
      simpa [GameBoard.loaded, hji] using h.head j hj
  · by_cases hji : j = i
    · subst hji; simp [GameBoard.loaded]
    · simpa [GameBoard.loaded, hji] using h.pDef j

theorem loaded_loadAll {fuel : Nat} {S L : List Slot} {b b' : GameBoard} (h : Loaded L b)
    (hl : loadAll fuel S b = some b') : Loaded (L ++ S) b' := by
  induction S generalizing L b with
  | nil =>
    simp only [loadAll, List.foldlM_nil, Option.pure_def, Option.some.injEq] at hl
    simpa [← hl] using h
  | cons i S ih =>
    have e : loadAll fuel (i :: S) b = (loadSnakeNumber fuel i b).bind (loadAll fuel S) := rfl
    rw [e, loadSnakeNumber_eq] at hl
    split at hl
    · simpa using ih (h.snoc i) hl
    · simp at hl

theorem Loaded.owned {S : List Slot} {b : GameBoard} (h : Loaded S b) : Owned S (fun _ => 0) b where
  tail_iff := h.tail_iff
  owner := h.owner
  head i hi := by
    obtain ⟨c, hc, e⟩ := body_head i
    exact ⟨c, by rw [h.head i hi, e], (h.cells c i).2 ⟨hi, hc⟩⟩
  size i hi := by
    have e : Game.owned b i = (body i).toFinset := by
      ext c; simp [Game.owned, h.cells, hi]
    rw [e, body_card]
  absent i := by by_cases hi : i ∈ S <;> simp [h.pDef, hi]
  flags i hi := .inl (by simp [h.pDef, hi])

/-! ## One turn -/

theorem stepMoved_same {moved : Slot → Nat} {b b' : GameBoard} (h : b'.pPos = b.pPos) :
    stepMoved moved b b' = moved := by
  funext j; simp [stepMoved, h]

theorem readB_of_cellAt {b : GameBoard} {p : Point} {c : Cell} (off : UInt8) (h : cellAt p = some c) :
    b.readB off p = b.bB c := by
  simp [GameBoard.readB, h]

theorem mark_of_cellAt {b : GameBoard} {p : Point} {c : Cell} (m : UInt8) (h : cellAt p = some c) :
    b.mark p m = b.markCell c m := by
  simp [GameBoard.mark, h]

/-- Losing changes one flag, from 0 to 1. -/
theorem Owned.lose {S : List Slot} {moved : Slot → Nat} {t : Tick} {i : Slot} (h : Owned S moved t.board)
    (hi : t.board.pDef i = 0) : Owned S moved (t.lose i).board ∧ Grown t.board (t.lose i).board := by
  have hS : i ∈ S := by
    by_contra hn; rw [(h.absent i).2 hn] at hi; cases hi
  refine ⟨⟨h.tail_iff, h.owner, h.head, h.size, fun j => ?_, fun j hj => ?_⟩, fun _ _ => ⟨rfl, rfl⟩, fun j => ?_⟩ <;>
    by_cases hj : j = i
  · subst hj; simp [Tick.lose, hS]
  · simpa [Tick.lose, hj] using h.absent j
  · subst hj; simp [Tick.lose]
  · simpa [Tick.lose, hj] using h.flags j ‹_›
  · subst hj; simp [Tick.lose, hi]
  · simp [Tick.lose, hj]

section Advance
variable {t : Tick} {i : Slot} {c : Cell}

theorem advance_grids (hc : cellAt (t.board.next i) = some c) :
    (t.advance i).board.gB = Function.update t.board.gB c (slotMark i) ∧
      (t.advance i).board.bB = Function.update t.board.bB c tailChar := by
  simp [Tick.advance, mark_of_cellAt _ hc, GameBoard.markCell]

/-- The cell that is marked goes to the snake that moves. -/
theorem owned_advance (hc : cellAt (t.board.next i) = some c) (hzero : t.board.gB c = 0) (j : Slot) :
    owned (t.advance i).board j = if j = i then insert c (owned t.board j) else owned t.board j := by
  obtain ⟨hg, -⟩ := advance_grids hc
  ext d
  by_cases hji : j = i <;> by_cases hdc : d = c
  · simp [owned, hg, hji, hdc]
  · simp [owned, hg, hji, hdc]
  · simp [owned, hg, hji, hdc, hzero, slotMark_inj, (slotMark_ne_zero j).symm, Ne.symm hji]
  · simp [owned, hg, hji, hdc]

/-- The head's cell is marked and the next one is not, so the head moves. -/
theorem Owned.next_ne {S : List Slot} {moved : Slot → Nat} (h : Owned S moved t.board) (hS : i ∈ S)
    (hc : cellAt (t.board.next i) = some c) (hzero : t.board.gB c = 0) : t.board.next i ≠ t.board.pPos i := by
  obtain ⟨d, hd, hm⟩ := h.head i hS
  intro e
  rw [e, hd] at hc
  rw [← Option.some.inj hc, hm] at hzero
  exact slotMark_ne_zero i hzero

/-- Moving to a free cell marks that cell and no other. -/
theorem Owned.advance {S : List Slot} {moved : Slot → Nat} (h : Owned S moved t.board) (hi : t.board.pDef i = 0)
    (hc : cellAt (t.board.next i) = some c) (hfree : t.board.bB c ≠ tailChar) :
    Owned S (stepMoved moved t.board (t.advance i).board) (t.advance i).board ∧
      Grown t.board (t.advance i).board := by
  have hS : i ∈ S := by
    by_contra hn; rw [(h.absent i).2 hn] at hi; cases hi
  have hzero : t.board.gB c = 0 := by
    by_contra hn; exact hfree ((h.tail_iff c).2 hn)
  have hne := h.next_ne hS hc hzero
  obtain ⟨hg, hb⟩ := advance_grids hc
  have hd : (t.advance i).board.pDef = t.board.pDef := by simp [Tick.advance]
  have hp : (t.advance i).board.pPos = Function.update t.board.pPos i (t.board.next i) := rfl
  refine ⟨⟨fun d => ?_, fun d hd' => ?_, fun j hj => ?_, fun j hj => ?_, by rw [hd]; exact h.absent,
    by rw [hd]; exact h.flags⟩, fun d hd' => ?_, fun j => .inl (by rw [hd])⟩
  · rw [hg, hb]
    by_cases hdc : d = c
    · subst hdc; simp [slotMark_ne_zero]
    · simpa [hdc] using h.tail_iff d
  · rw [hg] at hd' ⊢
    by_cases hdc : d = c
    · subst hdc; exact ⟨i, hS, by simp⟩
    · simp only [Function.update_of_ne hdc] at hd' ⊢
      exact h.owner d hd'
  · rw [hg, hp]
    by_cases hji : j = i
    · subst hji; exact ⟨c, by simpa using hc, by simp⟩
    · obtain ⟨d, hd', hm⟩ := h.head j hj
      have hdc : d ≠ c := by rintro rfl; rw [hzero] at hm; exact slotMark_ne_zero j hm.symm
      exact ⟨d, by simpa [hji] using hd', by simpa [hdc] using hm⟩
  · have hsize := h.size j hj
    have howned := owned_advance hc hzero j
    by_cases hji : j = i
    · subst hji
      rw [howned, if_pos rfl, Finset.card_insert_of_notMem (by simp [owned, hzero, (slotMark_ne_zero j).symm]), hsize]
      simp [stepMoved, hp, hne]
      omega
    · rw [howned, if_neg hji, hsize]
      simp [stepMoved, hp, hji]
  · have hdc : d ≠ c := by rintro rfl; exact hd' hzero
    rw [hg, hb]
    exact ⟨by simp [hdc], by simp [hdc]⟩

end Advance

/-- A turn keeps `Owned` when the snake's next cell is on the board. -/
theorem Owned.turn {S : List Slot} {moved : Slot → Nat} {t : Tick} {i : Slot} (h : Owned S moved t.board)
    (off : UInt8) (hon : t.board.pDef i = 0 → (cellAt (t.board.next i)).isSome = true) :
    Owned S (stepMoved moved t.board (turn off t i).board) (turn off t i).board ∧
      Grown t.board (turn off t i).board := by
  rcases turn_cases off t i with ⟨-, e⟩ | ⟨hi, -, e⟩ | ⟨hi, hr, -, e⟩ <;> rw [e]
  · rw [stepMoved_same rfl]; exact ⟨h, .refl _⟩
  · have hp : (t.lose i).board.pPos = t.board.pPos := rfl
    rw [stepMoved_same hp]
    exact h.lose hi
  · obtain ⟨c, hc⟩ := Option.isSome_iff_exists.1 (hon hi)
    rw [readB_of_cellAt _ hc] at hr
    exact h.advance hi hc hr

/-! ## A tick and a whole game -/

theorem stepMoved_trans {moved : Slot → Nat} {a b c : GameBoard}
    (h : ∀ i, b.pPos i = a.pPos i ∨ c.pPos i = b.pPos i) :
    stepMoved (stepMoved moved a b) b c = stepMoved moved a c := by
  funext i
  rcases h i with h | h <;> simp [stepMoved, h]

theorem Owned.turns {S : List Slot} (off : Slot → UInt8) {l : List Slot} (hn : l.Nodup) {moved : Slot → Nat}
    {t : Tick} (h : Owned S moved t.board)
    (hon : ∀ i ∈ l, t.board.pDef i = 0 → (cellAt (t.board.next i)).isSome = true) :
    Owned S (stepMoved moved t.board (turns off l t).board) (turns off l t).board ∧
      Grown t.board (turns off l t).board := by
  induction l generalizing moved t with
  | nil => rw [turns_nil, stepMoved_same rfl]; exact ⟨h, .refl _⟩
  | cons i l ih =>
    simp only [List.nodup_cons] at hn
    obtain ⟨h1, g1⟩ := h.turn (off i) (hon i (by simp))
    obtain ⟨h2, g2⟩ := ih hn.2 h1 fun j hj => by
      obtain ⟨e1, -, e3⟩ := turn_other (off i) t (i := i) (j := j) (by rintro rfl; exact hn.1 hj)
      rw [e1, e3]; exact hon j (by simp [hj])
    rw [stepMoved_trans] at h2
    · exact ⟨h2, g1.trans g2⟩
    · intro j
      by_cases hj : j = i
      · subst hj; exact .inr (turns_other off l _ hn.1).2.1
      · exact .inl (turn_other (off i) t hj).2.1

theorem Owned.tick {S : List Slot} {s : Play} (h : Owned S s.moved s.board) (off : Slot → UInt8)
    (hon : NextOnBoard s.board) :
    Owned S (afterTick off s).moved (afterTick off s).board ∧ Grown s.board (afterTick off s).board :=
  Owned.turns off (List.nodup_finRange _) (t := ⟨s.board, [], []⟩) h fun i _ => hon i

/-- A received direction changes neither grid, head nor flag. -/
theorem Owned.direction {S : List Slot} {moved : Slot → Nat} {b : GameBoard} (h : Owned S moved b) (n : Slot)
    (p : Point) : Owned S moved (updateMovementDirection n p b) :=
  ⟨h.tail_iff, h.owner, h.head, h.size, h.absent, h.flags⟩

theorem owned_step {S : List Slot} {s s' : Play} {e : Event} (h : Owned S s.moved s.board)
    (hok : TicksOnBoard s e) (hs : (gameMachine S).step s e s') :
    Owned S s'.moved s'.board ∧ Grown s.board s'.board := by
  cases e with
  | direction n p =>
    obtain ⟨-, rfl⟩ := hs
    exact ⟨h.direction n p, fun _ _ => ⟨rfl, rfl⟩, fun _ => .inl rfl⟩
  | tick off =>
    simp only [gameMachine] at hs
    subst hs
    exact h.tick off hok

theorem owned_init {S : List Slot} {s : Play} (h : (gameMachine S).init s) : Owned S s.moved s.board := by
  obtain ⟨⟨fuel, b, hb⟩, hm⟩ := h
  rw [hm]
  exact (loaded_loadAll (loaded_initBoard b) hb).owned

theorem owned_reaches {S : List Slot} {s : Play} (h : (gameMachine S).ReachesBy TicksOnBoard s) :
    Owned S s.moved s.board :=
  h.inv (I := fun s => Owned S s.moved s.board) (fun _ => owned_init) fun _ _ _ hi hok hs => (owned_step hi hok hs).1

/-- In a game whose ticks so far found every alive snake's next cell on the
board, every marked cell belongs to one of the loaded snakes for good, every
snake has its head on a cell of its own and four cells plus one for each tick
it moved in, and the flags are -1 outside `S` and change from 0 to 1 only. -/
theorem snakes_keep_their_cells {S : List Slot} {s : Play} (h : (gameMachine S).ReachesBy TicksOnBoard s) :
    Owned S s.moved s.board ∧
      ∀ s', (gameMachine S).StepsBy TicksOnBoard s s' → Grown s.board s'.board := by
  refine ⟨owned_reaches h, fun s' hs => ?_⟩
  induction hs with
  | refl => exact .refl _
  | tail hst hok ht ih => exact ih.trans (owned_step (owned_reaches (hst.reachesBy h)) hok ht).2

/-- A fresh `GameBoard`; `initBoard` leaves its heads and directions unset. -/
def blank : GameBoard := ⟨fun _ => 0, fun _ => 0, fun _ => 0, fun _ => ⟨0, 0⟩, fun _ => ⟨0, 0⟩⟩

/-- The start of a game of slots 0 and 1. -/
def opening : Play := ⟨((initBoard blank).loaded 0).loaded 1, fun _ => 0⟩

theorem opening_init : (gameMachine [0, 1]).init opening := ⟨⟨4, blank, rfl⟩, rfl⟩

/-- After one tick both snakes have five cells. -/
theorem snakes_keep_their_cells_opening :
    Owned [0, 1] (afterTick (fun _ => 0) opening).moved (afterTick (fun _ => 0) opening).board ∧
      ∀ s', (gameMachine [0, 1]).StepsBy TicksOnBoard (afterTick (fun _ => 0) opening) s' →
        Grown (afterTick (fun _ => 0) opening).board s'.board :=
  have hok : TicksOnBoard opening (.tick fun _ => 0) := (by decide : NextOnBoard opening.board)
  snakes_keep_their_cells (.step (.init opening_init) hok rfl)

end Snuffin.Game
