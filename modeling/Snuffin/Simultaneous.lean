import Snuffin.GameRules
import Mathlib.Data.List.TakeWhile
/-!
# A tick as one move

`updateBoard` gives the slots their turns one after another, on a board that
the earlier turns have marked. `simultaneous` is the rule without an order:
who loses is read off the board as it was before the tick, and all the other
alive snakes move at once. `Doomed` says who loses when snakes may be off the
board.
-/

namespace Snuffin.Game

/-! ## The rule -/

/-- The next cell of snake `i` is already marked, or it is the next cell of an
alive snake in `first`. -/
def Taken (b : GameBoard) (first : List Slot) (i : Slot) : Prop :=
  (∃ c, cellAt (b.next i) = some c ∧ b.bB c = tailChar) ∨ ∃ j ∈ first, b.pDef j = 0 ∧ b.next j = b.next i

instance (b : GameBoard) (first : List Slot) (i : Slot) : Decidable (Taken b first i) :=
  inferInstanceAs (Decidable (_ ∨ _))

/-- The slots with a lower number. -/
def lower (i : Slot) : List Slot := (List.finRange maxPlayers).filter fun j => j < i

def losers (b : GameBoard) : List Slot :=
  (List.finRange maxPlayers).filter fun i => b.pDef i = 0 ∧ Taken b (lower i) i

def movers (b : GameBoard) : List Slot :=
  (List.finRange maxPlayers).filter fun i => b.pDef i = 0 ∧ ¬Taken b (lower i) i

/-- The snakes in `lost` end and those in `moved` enter their next cells, all
at once. -/
def GameBoard.settle (b : GameBoard) (lost moved : List Slot) : GameBoard where
  bB c := if moved.any fun i => cellAt (b.next i) = some c then tailChar else b.bB c
  gB c := (moved.find? fun i => cellAt (b.next i) = some c).elim (b.gB c) slotMark
  pDef i := if lost.contains i then 1 else b.pDef i
  pDir := b.pDir
  pPos i := if moved.contains i then b.next i else b.pPos i

def simultaneous (b : GameBoard) : GameBoard := b.settle (losers b) (movers b)

/-- No two alive snakes are about to enter one cell. -/
def NextDistinct (b : GameBoard) : Prop :=
  ∀ i j, b.pDef i = 0 → b.pDef j = 0 → b.next i = b.next j → i = j

/-! ## The turns in any order -/

/-- Who loses when the slots take their turns in the order of `l`. -/
def losersIn (b : GameBoard) (l : List Slot) : List Slot :=
  l.filter fun i => b.pDef i = 0 ∧ Taken b (l.takeWhile (· ≠ i)) i

/-- Who moves when the slots take their turns in the order of `l`. -/
def moversIn (b : GameBoard) (l : List Slot) : List Slot :=
  l.filter fun i => b.pDef i = 0 ∧ ¬Taken b (l.takeWhile (· ≠ i)) i

theorem takeWhile_snoc_mem {l : List Slot} {i j : Slot} (hj : j ∈ l) :
    (l ++ [i]).takeWhile (· ≠ j) = l.takeWhile (· ≠ j) := by
  induction l with
  | nil => simp at hj
  | cons k l ih =>
    by_cases hk : k = j
    · simp [hk]
    · have hl : j ∈ l := (List.mem_cons.1 hj).resolve_left (Ne.symm hk)
      simpa [List.takeWhile_cons, hk] using ih hl

theorem takeWhile_snoc_self {l : List Slot} {i : Slot} (hi : i ∉ l) : (l ++ [i]).takeWhile (· ≠ i) = l := by
  rw [List.takeWhile_append_of_pos]
  · simp
  · intro j hj; simpa using fun e : j = i => hi (e ▸ hj)

theorem losersIn_snoc (b : GameBoard) {l : List Slot} {i : Slot} (hi : i ∉ l) :
    losersIn b (l ++ [i]) = losersIn b l ++ if b.pDef i = 0 ∧ Taken b l i then [i] else [] := by
  rw [losersIn, List.filter_append, losersIn]
  congr 1
  · exact List.filter_congr fun j hj => by rw [takeWhile_snoc_mem hj]
  · rw [List.filter_cons, takeWhile_snoc_self hi]; simp

theorem moversIn_snoc (b : GameBoard) {l : List Slot} {i : Slot} (hi : i ∉ l) :
    moversIn b (l ++ [i]) = moversIn b l ++ if b.pDef i = 0 ∧ ¬Taken b l i then [i] else [] := by
  rw [moversIn, List.filter_append, moversIn]
  congr 1
  · exact List.filter_congr fun j hj => by rw [takeWhile_snoc_mem hj]
  · rw [List.filter_cons, takeWhile_snoc_self hi]; simp

/-! ## Which cells are marked -/

/-- Snake `i` is alive and on the board, and `c` is its next cell. -/
def Enters (b : GameBoard) (i : Slot) (c : Cell) : Prop :=
  b.pDef i = 0 ∧ outOfBoard (b.pPos i) = false ∧ cellAt (b.next i) = some c

/-- After the turn of a snake the cell it was to enter is marked, whether it
moved there or not, and no other cell is new. -/
theorem tail_turn (off : UInt8) (t : Tick) (i : Slot) (c : Cell) :
    (turn off t i).board.bB c = tailChar ↔ t.board.bB c = tailChar ∨ Enters t.board i c := by
  rcases turn_cases off t i with ⟨hi, e⟩ | ⟨hi, hl, e⟩ | ⟨hi, -, hon, e⟩ <;> rw [e]
  · simp [Enters, hi]
  · -- A snake that is lost on the board has found the cell marked.
    have hmarked : Enters t.board i c → t.board.bB c = tailChar := by
      rintro ⟨-, hon, hc⟩
      rw [readB_of_cellAt off hc, hon] at hl
      simpa using hl
    exact ⟨.inl, fun h => h.elim id hmarked⟩
  · cases hc : cellAt (t.board.next i) with
    | none => simp [Tick.advance, GameBoard.mark, Enters, hc]
    | some d =>
      rw [(advance_grids hc).2]
      by_cases hd : c = d
      · subst hd
        rw [Function.update_self]
        exact iff_of_true rfl (.inr ⟨hi, hon, hc⟩)
      · rw [Function.update_of_ne hd]
        have hne : ¬Enters t.board i c := by
          rintro ⟨-, -, hc'⟩
          rw [hc, Option.some.injEq] at hc'
          exact hd hc'.symm
        exact ⟨.inl, fun h => h.resolve_right hne⟩

theorem tail_turns (off : Slot → UInt8) {l : List Slot} (hn : l.Nodup) (t : Tick) (c : Cell) :
    (turns off l t).board.bB c = tailChar ↔ t.board.bB c = tailChar ∨ ∃ j ∈ l, Enters t.board j c := by
  induction l generalizing t with
  | nil => simp
  | cons i l ih =>
    rw [List.nodup_cons] at hn
    rw [turns_cons, ih hn.2, tail_turn, or_assoc, List.exists_mem_cons_iff]
    apply or_congr_right
    apply or_congr_right
    apply exists_congr
    intro j
    apply and_congr_right
    intro hj
    obtain ⟨h1, h2, h3⟩ := turn_other (off i) t (i := i) (j := j) fun e => hn.1 (e ▸ hj)
    rw [Enters, Enters, h1, h2, h3]

/-! ## The turns are one move -/

theorem cellAt_inj {p q : Point} {c : Cell} (hp : cellAt p = some c) (hq : cellAt q = some c) : p = q := by
  obtain ⟨px, py⟩ := p
  obtain ⟨qx, qy⟩ := q
  simp only [cellAt] at hp hq
  split at hp <;> split at hq <;> try contradiction
  rw [← hq] at hp
  simp only [Option.some.injEq, Prod.mk.injEq, Fin.mk.injEq] at hp
  simp only [Point.mk.injEq]
  omega

theorem settle_lose (b : GameBoard) (L M : List Slot) (i : Slot) :
    { b.settle L M with pDef := Function.update (b.settle L M).pDef i 1 } = b.settle (L ++ [i]) M := by
  simp only [GameBoard.settle, GameBoard.mk.injEq, true_and, and_true]
  funext j
  by_cases hj : j = i <;> simp [hj]

theorem settle_move (b : GameBoard) (L M : List Slot) {i : Slot} {c : Cell} (hc : cellAt (b.next i) = some c)
    (hfree : ∀ j ∈ M, cellAt (b.next j) ≠ some c) :
    { (b.settle L M).markCell c (slotMark i) with pPos := Function.update (b.settle L M).pPos i (b.next i) } =
      b.settle L (M ++ [i]) := by
  simp only [GameBoard.settle, GameBoard.markCell, GameBoard.mk.injEq, true_and]
  refine ⟨?_, ?_, ?_⟩
  · funext d
    by_cases hd : d = c
    · subst hd; simp [hc]
    · have hne : cellAt (b.next i) ≠ some d := by rw [hc]; simpa using Ne.symm hd
      simp [hd, hne]
  · funext d
    by_cases hd : d = c
    · subst hd
      have hM : (M.find? fun j => cellAt (b.next j) = some d) = none := by
        rw [List.find?_eq_none]; intro j hj; simpa using hfree j hj
      rw [List.find?_append, hM]
      simp [hc]
    · have hne : cellAt (b.next i) ≠ some d := by rw [hc]; simpa using Ne.symm hd
      rw [List.find?_append]
      simp [hd, hne]
  · funext j
    by_cases hj : j = i <;> simp [hj]

/-- The turns of the slots in any order end as one move. -/
theorem turns_settle (off : Slot → UInt8) {b : GameBoard} (hpos : ∀ i, b.pDef i = 0 → outOfBoard (b.pPos i) = false)
    (hon : NextOnBoard b) {l : List Slot} (hn : l.Nodup) :
    (turns off l ⟨b, [], []⟩).board = b.settle (losersIn b l) (moversIn b l) ∧
      (turns off l ⟨b, [], []⟩).lost = losersIn b l := by
  induction l using List.reverseRecOn with
  | nil => exact ⟨by simp [GameBoard.settle, losersIn, moversIn], rfl⟩
  | append_singleton l i ih =>
    have hi : i ∉ l := by
      intro h
      exact (List.nodup_append.1 hn).2.2 i h i (by simp) rfl
    have hnl : l.Nodup := (List.nodup_append.1 hn).1
    obtain ⟨hb, hl⟩ := ih hnl
    obtain ⟨h1, h2, h3⟩ := turns_other off l ⟨b, [], []⟩ hi
    have hsnoc : turns off (l ++ [i]) ⟨b, [], []⟩ = turn (off i) (turns off l ⟨b, [], []⟩) i := by simp [turns]
    have htail := tail_turns off hnl ⟨b, [], []⟩
    rw [hsnoc]
    generalize ht : turns off l ⟨b, [], []⟩ = t at hb hl h1 h2 h3 htail ⊢
    -- What slot `i` reads is whether its next cell is taken by now.
    have hread : b.pDef i = 0 → ∀ c, cellAt (b.next i) = some c → (t.board.bB c = tailChar ↔ Taken b l i) := by
      intro h0 c hc
      rw [htail c]
      constructor
      · rintro (h | ⟨j, hj, hj0, -, hjc⟩)
        · exact .inl ⟨c, hc, h⟩
        · exact .inr ⟨j, hj, hj0, cellAt_inj hjc hc⟩
      · rintro (⟨d, hd, h⟩ | ⟨j, hj, hj0, hjc⟩)
        · rw [hc] at hd; rw [Option.some.inj hd]; exact .inl h
        · exact .inr ⟨j, hj, hj0, hpos j hj0, by rw [← hc]; exact congrArg cellAt hjc⟩
    rw [losersIn_snoc b hi, moversIn_snoc b hi]
    rcases turn_cases (off i) t i with ⟨h0, e⟩ | ⟨h0, hlost, e⟩ | ⟨h0, hfree, -, e⟩
    · rw [h1] at h0
      rw [e, if_neg (fun h => h0 h.1), if_neg (fun h => h0 h.1)]
      simpa using ⟨hb, hl⟩
    · rw [h1] at h0
      obtain ⟨c, hc⟩ := Option.isSome_iff_exists.1 (hon i h0)
      have htaken : Taken b l i := by
        rw [h2, h3, readB_of_cellAt _ hc, hpos i h0] at hlost
        exact (hread h0 c hc).1 (by simpa using hlost)
      rw [e, if_pos ⟨h0, htaken⟩, if_neg (fun h => h.2 htaken), List.append_nil]
      exact ⟨by rw [Tick.lose, hb]; exact settle_lose b _ _ i, by rw [Tick.lose, hl]⟩
    · rw [h1] at h0
      obtain ⟨c, hc⟩ := Option.isSome_iff_exists.1 (hon i h0)
      have htaken : ¬Taken b l i := by
        rw [h3, readB_of_cellAt _ hc] at hfree
        exact fun h => hfree ((hread h0 c hc).2 h)
      rw [e, if_neg (fun h => htaken h.2), if_pos ⟨h0, htaken⟩, List.append_nil]
      refine ⟨?_, hl⟩
      simp only [Tick.advance, h3, mark_of_cellAt _ hc]
      rw [hb]
      apply settle_move b _ _ hc
      intro j hj hjc
      obtain ⟨hjl, hj0⟩ := List.mem_filter.1 hj
      exact htaken (.inr ⟨j, hjl, (of_decide_eq_true hj0).1, cellAt_inj hjc hc⟩)

/-- The slots before `i` in the order of `updateBoard` are those below it. -/
theorem mem_takeWhile_finRange : ∀ i j : Slot,
    j ∈ (List.finRange maxPlayers).takeWhile (· ≠ i) ↔ j ∈ lower i := by decide

theorem taken_congr {b : GameBoard} {l l' : List Slot} {i : Slot} (h : ∀ j, j ∈ l ↔ j ∈ l') :
    Taken b l i ↔ Taken b l' i := by
  simp only [Taken, h]

theorem losersIn_finRange (b : GameBoard) : losersIn b (List.finRange maxPlayers) = losers b :=
  List.filter_congr fun i _ => decide_eq_decide.2 (and_congr_right fun _ => taken_congr (mem_takeWhile_finRange i))

theorem moversIn_finRange (b : GameBoard) : moversIn b (List.finRange maxPlayers) = movers b :=
  List.filter_congr fun i _ => decide_eq_decide.2
    (and_congr_right fun _ => not_congr (taken_congr (mem_takeWhile_finRange i)))

/-! ## The order of the turns -/

/-- When no two snakes are about to enter one cell, nobody has to wait for the
turn of another. -/
theorem taken_of_distinct {b : GameBoard} (hd : NextDistinct b) (l : List Slot) {i : Slot} (hi : b.pDef i = 0) :
    Taken b (l.takeWhile (· ≠ i)) i ↔ Taken b [] i := by
  constructor
  · rintro (h | ⟨j, hj, hj0, e⟩)
    · exact .inl h
    · have hne : j ≠ i := by simpa using List.mem_takeWhile_imp hj
      exact absurd (hd j i hj0 hi e) hne
  · rintro (h | ⟨j, hj, -⟩)
    · exact .inl h
    · simp at hj

theorem losersIn_perm {b : GameBoard} (hd : NextDistinct b) {l l' : List Slot} (h : l.Perm l') :
    (losersIn b l).Perm (losersIn b l') := by
  have e : ∀ l, losersIn b l = l.filter fun i => b.pDef i = 0 ∧ Taken b [] i := fun l =>
    List.filter_congr fun i _ => decide_eq_decide.2 (and_congr_right fun hi => taken_of_distinct hd l hi)
  rw [e, e]
  exact h.filter _

theorem moversIn_perm {b : GameBoard} (hd : NextDistinct b) {l l' : List Slot} (h : l.Perm l') :
    (moversIn b l).Perm (moversIn b l') := by
  have e : ∀ l, moversIn b l = l.filter fun i => b.pDef i = 0 ∧ ¬Taken b [] i := fun l =>
    List.filter_congr fun i _ => decide_eq_decide.2
      (and_congr_right fun hi => not_congr (taken_of_distinct hd l hi))
  rw [e, e]
  exact h.filter _

/-- A move does not depend on the order of the slots in it. -/
theorem settle_perm {b : GameBoard} (hd : NextDistinct b) {L L' M M' : List Slot} (hL : L.Perm L') (hM : M.Perm M')
    (hM0 : ∀ i ∈ M, b.pDef i = 0) : b.settle L M = b.settle L' M' := by
  simp only [GameBoard.settle, GameBoard.mk.injEq, hL.contains_eq, hM.contains_eq, hM.any_eq, true_and,
    and_true]
  funext c
  congr 1
  -- At most one of the moving snakes enters `c`.
  have hone : ∀ i ∈ M, ∀ j ∈ M, cellAt (b.next i) = some c → cellAt (b.next j) = some c → i = j :=
    fun i hi j hj hic hjc => hd i j (hM0 i hi) (hM0 j hj) (cellAt_inj hic hjc)
  cases h : M'.find? fun i => cellAt (b.next i) = some c with
  | none =>
    rw [List.find?_eq_none] at h ⊢
    intro i hi; exact h i (hM.mem_iff.1 hi)
  | some j =>
    have hj := List.find?_some h
    have hjM : j ∈ M := hM.mem_iff.2 (List.mem_of_find?_eq_some h)
    cases h' : M.find? fun i => cellAt (b.next i) = some c with
    | none => exact absurd hj (List.find?_eq_none.1 h' j hjM)
    | some i =>
      have hi := List.find?_some h'
      rw [hone i (List.mem_of_find?_eq_some h') j hjM (by simpa using hi) (by simpa using hj)]

/-- When every alive snake has its head and its next cell on the board,
`updateBoard` is the simultaneous rule; and when the next cells are distinct,
every order of the slots gives the same board, heads and losers. -/
theorem updateBoard_simultaneous (off : Slot → UInt8) {b : GameBoard}
    (hpos : ∀ i, b.pDef i = 0 → outOfBoard (b.pPos i) = false) (hon : NextOnBoard b) :
    (updateBoard off b).board = simultaneous b ∧ (updateBoard off b).lost = losers b ∧
      (NextDistinct b → ∀ l : List Slot, l.Perm (List.finRange maxPlayers) →
        (turns off l ⟨b, [], []⟩).board = (updateBoard off b).board ∧
          (turns off l ⟨b, [], []⟩).lost.Perm (updateBoard off b).lost) := by
  have hu := turns_settle off hpos hon (List.nodup_finRange maxPlayers)
  refine ⟨?_, ?_, ?_⟩
  · rw [updateBoard, hu.1, losersIn_finRange, moversIn_finRange]; rfl
  · rw [updateBoard, hu.2, losersIn_finRange]
  · intro hd l hl
    have ht := turns_settle off hpos hon (hl.nodup_iff.2 (List.nodup_finRange maxPlayers))
    rw [updateBoard, ht.1, ht.2, hu.1, hu.2]
    have hM0 : ∀ i ∈ moversIn b l, b.pDef i = 0 := by
      intro i hi
      exact (of_decide_eq_true (List.mem_filter.1 hi).2).1
    exact ⟨settle_perm hd (losersIn_perm hd hl) (moversIn_perm hd hl) hM0, losersIn_perm hd hl⟩

/-- In the opening the snakes move towards each other into distinct cells, so
slot 1 may as well be the first to move. -/
theorem updateBoard_simultaneous_opening :
    (updateBoard (fun _ => 0) opening.board).board = simultaneous opening.board ∧
      (turns (fun _ => 0) [3, 2, 1, 0] ⟨opening.board, [], []⟩).board = simultaneous opening.board := by
  obtain ⟨hb, -, hall⟩ := updateBoard_simultaneous (fun _ => 0) (b := opening.board) (by decide) (by decide)
  exact ⟨hb, (hall (by unfold NextDistinct; decide) [3, 2, 1, 0] (by decide)).1.trans hb⟩

/-! ## Which snakes a tick loses, on the board or off it -/

/-- What comes next for snake `i` is marked, or will be when its turn comes. -/
def Hits (off : Slot → UInt8) (b : GameBoard) (i : Slot) : Prop :=
  match cellAt (b.next i) with
  | none => off i = tailChar
  | some c => b.bB c = tailChar ∨ ∃ j < i, Enters b j c

/-- Snake `i` is alive, and off the board or about to hit something. -/
def Doomed (off : Slot → UInt8) (b : GameBoard) (i : Slot) : Prop :=
  b.pDef i = 0 ∧ (outOfBoard (b.pPos i) = true ∨ Hits off b i)

theorem mem_lost_turn (off : UInt8) (t : Tick) (i j : Slot) :
    j ∈ (turn off t i).lost ↔ j ∈ t.lost ∨ j = i ∧ t.board.pDef i = 0 ∧
      (outOfBoard (t.board.pPos i) = true ∨ t.board.readB off (t.board.next i) = tailChar) := by
  rcases turn_cases off t i with ⟨hi, e⟩ | ⟨hi, hl, e⟩ | ⟨hi, hr, ho, e⟩ <;> rw [e]
  · simp [hi]
  · simp [Tick.lose, hi, hl.symm]
  · simp [Tick.advance, hr, ho]

theorem lost_turns_other (off : Slot → UInt8) {l : List Slot} (t : Tick) {j : Slot} (hj : j ∉ l) :
    j ∈ (turns off l t).lost ↔ j ∈ t.lost := by
  induction l generalizing t with
  | nil => rfl
  | cons i l ih =>
    rw [List.mem_cons, not_or] at hj
    rw [turns_cons, ih _ hj.2, mem_lost_turn]
    simp [hj.1]

theorem take_finRange (i : Slot) :
    List.finRange maxPlayers = (List.finRange maxPlayers).take i ++ i :: (List.finRange maxPlayers).drop (i + 1) := by
  have h : (List.finRange maxPlayers)[i.val]? = some i := by simp
  obtain ⟨hlt, hi⟩ := List.getElem?_eq_some_iff.1 h
  conv_lhs => rw [← List.take_append_drop i.val (List.finRange maxPlayers)]
  rw [List.drop_eq_getElem_cons hlt, hi]

theorem mem_take_finRange : ∀ i j : Slot, j ∈ (List.finRange maxPlayers).take i ↔ j < i := by decide

/-- A tick loses the doomed snakes. -/
theorem mem_lost_updateBoard (off : Slot → UInt8) (b : GameBoard) (i : Slot) :
    i ∈ (updateBoard off b).lost ↔ Doomed off b i := by
  have hnodup : (List.finRange maxPlayers).Nodup := List.nodup_finRange _
  have hlater : i ∉ (List.finRange maxPlayers).drop (i + 1) := by
    rw [take_finRange i, List.nodup_append] at hnodup
    exact (List.nodup_cons.1 hnodup.2.1).1
  have hearlier : i ∉ (List.finRange maxPlayers).take i := by simp [mem_take_finRange]
  have hsplit : updateBoard off b =
      turns off ((List.finRange maxPlayers).drop (i + 1)) (turn (off i) (after off b i) i) := by
    conv_lhs => rw [updateBoard, take_finRange i, turns, List.foldl_append, List.foldl_cons]
    rfl
  obtain ⟨hdef, hpos, hnext⟩ := after_own off b i
  have hread : (after off b i).board.readB (off i) (b.next i) = tailChar ↔ Hits off b i := by
    unfold Hits
    cases hc : cellAt (b.next i) with
    | none => rw [GameBoard.readB, hc]
    | some c =>
      rw [readB_of_cellAt _ hc, after, tail_turns off (hnodup.sublist (List.take_sublist _ _))]
      simp [mem_take_finRange]
  rw [hsplit, lost_turns_other off _ hlater, mem_lost_turn, hdef, hpos, hnext, hread, after,
    lost_turns_other off _ hearlier]
  simp [Doomed]

end Snuffin.Game
