import Snuffin.GameRuns
/-!
# The collision rule

`TurnRule` is the rule of the game for one snake at its turn. `updateBoard`
tests the head of the snake, not the cell it is about to enter, so a tick
follows the rule exactly when no alive snake is about to leave the board.
-/
open Lib

namespace Snuffin.Game

/-! ## The rule -/

/-- The next cell of snake `i` is off the board or already marked. -/
def Blocked (b : GameBoard) (i : Slot) : Prop := ∀ c, cellAt (b.next i) = some c → b.bB c = tailChar

/-- The rule for slot `i`: a blocked snake is lost, with no cell and no head
changed; any other alive snake marks its next cell and moves its head there. -/
structure TurnRule (i : Slot) (t t' : Tick) : Prop where
  dead : t.board.pDef i ≠ 0 → t'.board = t.board ∧ t'.lost = t.lost
  blocked : t.board.pDef i = 0 → Blocked t.board i →
    t'.board = { t.board with pDef := Function.update t.board.pDef i 1 } ∧ t'.lost = t.lost ++ [i]
  free : t.board.pDef i = 0 → ¬Blocked t.board i →
    ∃ c, cellAt (t.board.next i) = some c ∧ t'.lost = t.lost ∧
      t'.board =
        { t.board with
          bB := Function.update t.board.bB c tailChar
          gB := Function.update t.board.gB c (slotMark i)
          pPos := Function.update t.board.pPos i (t.board.next i) }

/-- `updateBoard` after the turns of the first `k` slots. -/
def after (off : Slot → UInt8) (b : GameBoard) (k : Nat) : Tick :=
  turns off ((List.finRange maxPlayers).take k) ⟨b, [], []⟩

/-- A tick follows the rule in every turn and touches no index off the board. -/
structure TickCorrect (off : Slot → UInt8) (b : GameBoard) : Prop where
  rule : ∀ i : Slot, TurnRule i (after off b i) (after off b (i + 1))
  inside : ∀ a ∈ (updateBoard off b).touched, (cellAt a.pos).isSome = true

/-! ## What a tick touches -/

theorem touched_turn (off : UInt8) (t : Tick) (i : Slot) {a : Access} (ha : a ∈ t.touched) :
    a ∈ (turn off t i).touched := by
  rcases turn_cases off t i with ⟨-, e⟩ | ⟨-, -, e⟩ | ⟨-, -, -, e⟩ <;> rw [e]
  · exact ha
  · exact List.mem_append_left _ ha
  · exact List.mem_append_left _ ha

theorem touched_turns (off : Slot → UInt8) (l : List Slot) (t : Tick) {a : Access} (ha : a ∈ t.touched) :
    a ∈ (turns off l t).touched := by
  induction l generalizing t with
  | nil => exact ha
  | cons i l ih => exact ih _ (touched_turn _ t i ha)

/-- Every alive snake reads its next cell. -/
theorem reads_next (off : Slot → UInt8) {l : List Slot} (hn : l.Nodup) (t : Tick) {i : Slot} (hl : i ∈ l)
    (hi : t.board.pDef i = 0) : ⟨.bB, .read, t.board.next i⟩ ∈ (turns off l t).touched := by
  induction l generalizing t with
  | nil => simp at hl
  | cons j l ih =>
    simp only [List.nodup_cons] at hn
    rw [turns_cons]
    by_cases hij : i = j
    · subst hij
      apply touched_turns
      rcases turn_cases (off i) t i with ⟨h, -⟩ | ⟨-, -, e⟩ | ⟨-, -, -, e⟩
      · exact absurd hi h
      · rw [e]; simp [Tick.lose]
      · rw [e]; simp [Tick.advance]
    · obtain ⟨h1, -, h3⟩ := turn_other (off j) t hij
      rw [← h3]
      exact ih hn.2 _ ((List.mem_cons.1 hl).resolve_left hij) (h1.trans hi)

/-- A turn whose next cell is on the board touches nothing else. -/
theorem turn_inside (off : UInt8) (t : Tick) (i : Slot)
    (hon : t.board.pDef i = 0 → (cellAt (t.board.next i)).isSome = true)
    (ht : ∀ a ∈ t.touched, (cellAt a.pos).isSome = true) :
    ∀ a ∈ (turn off t i).touched, (cellAt a.pos).isSome = true := by
  intro a ha
  rcases turn_cases off t i with ⟨-, e⟩ | ⟨hi, -, e⟩ | ⟨hi, -, -, e⟩ <;> rw [e] at ha
  · exact ht a ha
  · rcases List.mem_append.1 ha with ha | ha
    · exact ht a ha
    · rw [List.mem_singleton.1 ha]; exact hon hi
  · rcases List.mem_append.1 ha with ha | ha
    · exact ht a ha
    · have hp : a.pos = t.board.next i := by
        simp only [List.mem_cons, List.not_mem_nil, or_false] at ha
        rcases ha with rfl | rfl | rfl <;> rfl
      rw [hp]; exact hon hi

theorem turns_inside (off : Slot → UInt8) {l : List Slot} (hn : l.Nodup) (t : Tick)
    (hon : ∀ i ∈ l, t.board.pDef i = 0 → (cellAt (t.board.next i)).isSome = true)
    (ht : ∀ a ∈ t.touched, (cellAt a.pos).isSome = true) :
    ∀ a ∈ (turns off l t).touched, (cellAt a.pos).isSome = true := by
  induction l generalizing t with
  | nil => exact ht
  | cons i l ih =>
    simp only [List.nodup_cons] at hn
    rw [turns_cons]
    refine ih hn.2 _ (fun j hj => ?_) (turn_inside _ t i (hon i (by simp)) ht)
    obtain ⟨h1, -, h3⟩ := turn_other (off i) t (i := i) (j := j) (by rintro rfl; exact hn.1 hj)
    rw [h1, h3]
    exact hon j (by simp [hj])

/-! ## A turn on the board follows the rule -/

theorem turn_rule (off : UInt8) (t : Tick) (i : Slot) (hpos : t.board.pDef i = 0 → outOfBoard (t.board.pPos i) = false)
    (hon : t.board.pDef i = 0 → (cellAt (t.board.next i)).isSome = true) : TurnRule i t (turn off t i) := by
  refine ⟨fun h => ?_, fun h hb => ?_, fun h hb => ?_⟩
  · rw [turn_dead h]; exact ⟨rfl, rfl⟩
  · obtain ⟨c, hc⟩ := Option.isSome_iff_exists.1 (hon h)
    have hr : t.board.readB off (t.board.next i) = tailChar := by
      rw [readB_of_cellAt _ hc]; exact hb c hc
    rcases turn_cases off t i with ⟨h', -⟩ | ⟨-, -, e⟩ | ⟨-, h', -⟩
    · exact absurd h h'
    · rw [e]; exact ⟨rfl, rfl⟩
    · exact absurd hr h'
  · obtain ⟨c, hc⟩ := Option.isSome_iff_exists.1 (hon h)
    have hr : t.board.readB off (t.board.next i) ≠ tailChar := by
      rw [readB_of_cellAt _ hc]
      intro e
      refine hb fun d hd => ?_
      rw [hc] at hd
      rw [← Option.some.inj hd]; exact e
    rcases turn_cases off t i with ⟨h', -⟩ | ⟨-, h', -⟩ | ⟨-, -, -, e⟩
    · exact absurd h h'
    · rw [hpos h] at h'; simp [hr] at h'
    · rw [e]
      exact ⟨c, hc, rfl, by simp [Tick.advance, mark_of_cellAt _ hc, GameBoard.markCell]⟩

theorem after_succ (off : Slot → UInt8) (b : GameBoard) (i : Slot) :
    after off b (i + 1) = turn (off i) (after off b i) i := by
  have e : (List.finRange maxPlayers).take (i + 1) = (List.finRange maxPlayers).take i ++ [i] := by
    rw [List.take_add_one]; simp
  simp [after, turns, e]

/-- Before its turn, a slot is as it was at the start of the tick. -/
theorem after_own (off : Slot → UInt8) (b : GameBoard) (i : Slot) :
    (after off b i).board.pDef i = b.pDef i ∧ (after off b i).board.pPos i = b.pPos i ∧
      (after off b i).board.next i = b.next i := by
  refine turns_other off _ ⟨b, [], []⟩ ?_
  revert i; decide

/-- A tick from a board on which every alive snake has its head and its next
cell on the board is correct. -/
theorem tick_correct (off : Slot → UInt8) {b : GameBoard} (hpos : ∀ i, b.pDef i = 0 → outOfBoard (b.pPos i) = false)
    (hon : NextOnBoard b) : TickCorrect off b where
  rule i := by
    obtain ⟨h1, h2, h3⟩ := after_own off b i
    rw [after_succ]
    exact turn_rule _ _ i (by rw [h1, h2]; exact hpos i) (by rw [h1, h3]; exact hon i)
  inside := turns_inside off (List.nodup_finRange _) _ (fun i _ => hon i) (by simp)

theorem next_of_correct {off : Slot → UInt8} {b : GameBoard} (h : TickCorrect off b) : NextOnBoard b :=
  fun i hi => h.inside _ (reads_next off (List.nodup_finRange _) ⟨b, [], []⟩ (List.mem_finRange i) hi)

/-! ## Whole games -/

/-- The heads of a game that kept to the board are on it. -/
theorem Owned.heads {S : List Slot} {moved : Slot → Nat} {b : GameBoard} (h : Owned S moved b) (i : Slot)
    (hi : b.pDef i = 0) : outOfBoard (b.pPos i) = false := by
  have hS : i ∈ S := by
    by_contra hn; rw [(h.absent i).2 hn] at hi; cases hi
  obtain ⟨c, hc, -⟩ := h.head i hS
  rw [← cellAt_isSome, hc]; rfl

/-- The tick of a step, if it is one, is correct. -/
def CorrectAt (s : Play) : Event → Prop
  | .direction _ _ => True
  | .tick off => TickCorrect off s.board

/-- Every tick of a game follows the rule if and only if in every tick the
next cell of every alive snake is on the board. -/
theorem ticks_correct_iff {S : List Slot} {s₀ s : Play} {tr : List (Play × Event)} (h0 : (gameMachine S).init s₀)
    (h : (gameMachine S).Run s₀ tr s) :
    (∀ e ∈ tr, CorrectAt e.1 e.2) ↔ ∀ e ∈ tr, TicksOnBoard e.1 e.2 := by
  constructor
  · rintro hc ⟨t, e⟩ he
    cases e with
    | direction n p => trivial
    | tick off => exact next_of_correct (hc _ he)
  · rintro hon ⟨t, e⟩ he
    cases e with
    | direction n p => trivial
    | tick off =>
      have hr := (h.reachesBy h0 hon).2 _ he
      exact tick_correct off (owned_reaches hr).heads (hon _ he)

/-- One tick of the opening keeps to the board and to the rule. -/
theorem ticks_correct_iff_opening :
    (∀ e ∈ [(opening, Event.tick fun _ => 0)], CorrectAt e.1 e.2) ↔
      ∀ e ∈ [(opening, Event.tick fun _ => 0)], TicksOnBoard e.1 e.2 :=
  ticks_correct_iff opening_init (.snoc .nil rfl)

/-- Slot 0 of the opening after the direction (10, 0): its head is at (15, 10),
so its next cell (25, 10) is off the board. -/
def offBoard : Play := { opening with board := updateMovementDirection 0 ⟨10, 0⟩ opening.board }

/-- The next tick reads and writes at column 25 and moves the head there. -/
theorem off_board_tick : ¬∀ (S : List Slot) (s₀ s : Play) (tr : List (Play × Event)), (gameMachine S).init s₀ →
    (gameMachine S).Run s₀ tr s → ∀ e ∈ tr, CorrectAt e.1 e.2 := by
  intro h
  have hrun : (gameMachine [0, 1]).Run opening
      ([] ++ [(opening, .direction 0 ⟨10, 0⟩)] ++ [(offBoard, .tick fun _ => 0)]) (afterTick (fun _ => 0) offBoard) :=
    .snoc (.snoc .nil ⟨by simp, rfl⟩) rfl
  have hc : TickCorrect (fun _ => 0) offBoard.board := h _ _ _ _ opening_init hrun (offBoard, .tick fun _ => 0) (by simp)
  have hn : ¬NextOnBoard offBoard.board := by decide
  exact hn (next_of_correct hc)

end Snuffin.Game
