import Snuffin.GameRuns
import Snuffin.ChildServer
import Mathlib.Algebra.BigOperators.Fin
import Mathlib.Algebra.Order.BigOperators.Group.Finset
/-!
# The loop of a game (initGame)

`initGame` loads a snake for every client in the table and then ticks until
`isgameOver`. The rank of a board is its free cells, plus two for each alive
snake on the board and one for each alive snake off it. Every alive snake
takes at least one off it in every tick, so the loop ends.
-/
open Lib Snuffin.Game

namespace Snuffin.ChildServer

/-! ## The code -/

/-- `initGame` up to its loop: a snake for every client in the table. -/
def setup (fuel : Nat) (b : GameBoard) (s : Server) : Option Server :=
  (loadAll fuel (occupied s.clients) (initBoard b)).map fun b => { s with gameBoard := some b }

/-- What `sendBoard` sends to every client. -/
def boardNotices (t : Table) (b : GameBoard) : List Effect :=
  forClients t fun _ c => some (.send .board c.con (.board b.gB))

/-- The calls `playerLost(i)` for the slots in `l`, in order. -/
def playersLost (l : List Slot) (s : Server) : Option Server := l.foldlM (fun s i => playerLost i s) s

/-- One round of the loop: `updateBoard`, with its calls of `playerLost`, and
`sendBoard`. -/
def tick (off : Slot → UInt8) (s : Server) : Option Server :=
  s.gameBoard.bind fun b =>
    (playersLost (updateBoard off b).lost s).map fun s =>
      { s.emit (boardNotices s.clients (updateBoard off b).board) with
        gameBoard := some (updateBoard off b).board }

/-- The slots counted in `lost`. -/
def looseSlots (t : Table) : List Slot := (occupied t).filter fun i => (t i).any fun c => c.state = .loose

/-- `lost >= total - 1`, on C ints. -/
def isgameOver (t : Table) : Bool := ((looseSlots t).length : Int) ≥ (occupied t).length - 1

/-- What happens before a tick and in it: the directions received, and what a
read off the board gives. -/
structure Input where
  directions : List (Slot × Point)
  off : Slot → UInt8

def receive (l : List (Slot × Point)) (s : Server) : Server :=
  { s with gameBoard := s.gameBoard.map fun b => l.foldl (fun b d => updateMovementDirection d.1 d.2 b) b }

/-- The loop of `initGame`: how many rounds it took, and the server after it. -/
def gameLoop (inputs : Nat → Input) (fuel : Nat) (s : Server) : Option (Nat × Server) :=
  doWhile (fun k s => tick (inputs k).off (receive (inputs k).directions s)) (fun s => isgameOver s.clients) fuel 0 s

/-- What the loop after the game does for a client. -/
def resultOf (c : Client) : List Effect :=
  if c.state ≠ .loose then [.setHighscore c.name (c.score.map (· + 10)), .send .result c.con (.boolean true)]
  else [.setHighscore c.name (c.score.map (· - 10)), .send .result c.con (.boolean false)]

/-- `initGame` after its game loop. -/
def sendResults (s : Server) : Server :=
  s.emit ((occupied s.clients).flatMap fun i => (s.clients i).elim [] resultOf)

/-! ## Who is still in -/

/-- The slots whose client is not LOOSE. -/
def inSlots (t : Table) : List Slot := (occupied t).filter fun i => (t i).any fun c => c.state ≠ .loose

theorem mem_inSlots {t : Table} {i : Slot} : i ∈ inSlots t ↔ ∃ c, t i = some c ∧ c.state ≠ .loose := by
  simp only [inSlots, List.mem_filter, mem_occupied]
  constructor
  · rintro ⟨⟨c, hc⟩, h⟩; exact ⟨c, hc, by simpa [hc] using h⟩
  · rintro ⟨c, hc, h⟩; exact ⟨⟨c, hc⟩, by simpa [hc] using h⟩

theorem nodup_occupied (t : Table) : (occupied t).Nodup := (List.nodup_finRange _).filter _

theorem nodup_inSlots (t : Table) : (inSlots t).Nodup := (nodup_occupied t).filter _

/-- The game is over when at most one client is not LOOSE. -/
theorem isgameOver_iff (t : Table) : isgameOver t = true ↔ (inSlots t).length ≤ 1 := by
  have h : (looseSlots t).length + (inSlots t).length = (occupied t).length := by
    rw [looseSlots, inSlots, ← List.countP_eq_length_filter, ← List.countP_eq_length_filter,
      List.length_eq_countP_add_countP (fun i => (t i).any fun c => c.state = .loose)]
    congr 1
    refine List.countP_congr fun i hi => ?_
    obtain ⟨c, hc⟩ := mem_occupied.1 hi
    simp [hc]
  simp only [isgameOver, decide_eq_true_eq, ge_iff_le]
  omega

/-! ## The rank of a board -/

def freeCells (b : GameBoard) : Finset Cell := Finset.univ.filter fun c => b.bB c ≠ tailChar

/-- What an alive snake adds to the rank: two on the board, one off it. -/
def weight (b : GameBoard) (i : Slot) : Nat :=
  if b.pDef i = 0 then if outOfBoard (b.pPos i) then 1 else 2 else 0

def rank (b : GameBoard) : Nat := (freeCells b).card + ∑ i, weight b i

def alive (b : GameBoard) (l : List Slot) : List Slot := l.filter fun i => b.pDef i = 0

theorem sum_except {n : Nat} {f g : Fin n → Nat} {i : Fin n} (h : ∀ j, j ≠ i → g j = f j) :
    ∑ j, g j + f i = ∑ j, f j + g i := by
  rw [← Finset.add_sum_erase _ f (Finset.mem_univ i), ← Finset.add_sum_erase _ g (Finset.mem_univ i)]
  have e : ∑ j ∈ Finset.univ.erase i, g j = ∑ j ∈ Finset.univ.erase i, f j :=
    Finset.sum_congr rfl fun j hj => h j (Finset.ne_of_mem_erase hj)
  omega

/-- Only the slot at turn changes its weight. -/
theorem weights_turn (off : UInt8) (t : Tick) (i : Slot) :
    ∑ j, weight (turn off t i).board j + weight t.board i =
      ∑ j, weight t.board j + weight (turn off t i).board i := by
  refine sum_except fun j hj => ?_
  obtain ⟨h1, h2, -⟩ := turn_other off t hj
  simp [weight, h1, h2]

/-- Marking a free cell takes one off the free cells. -/
theorem freeCells_markCell {b : GameBoard} {c : Cell} (m : UInt8) (h : b.bB c ≠ tailChar) :
    (freeCells (b.markCell c m)).card + 1 = (freeCells b).card := by
  have e : freeCells (b.markCell c m) = (freeCells b).erase c := by
    ext d
    simp only [freeCells, Finset.mem_filter, Finset.mem_univ, true_and, Finset.mem_erase]
    by_cases hd : d = c <;> simp [GameBoard.markCell, hd]
  rw [e]
  exact Finset.card_erase_add_one (by simp [freeCells, h])

/-- An alive snake takes at least one off the rank in its turn. -/
theorem rank_turn (off : UInt8) (t : Tick) (i : Slot) :
    rank (turn off t i).board + (alive t.board [i]).length ≤ rank t.board := by
  have hw := weights_turn off t i
  rcases turn_cases off t i with ⟨hi, e⟩ | ⟨hi, -, e⟩ | ⟨hi, hr, ho, e⟩
  · simp [e, alive, hi]
  · have h0 : weight (turn off t i).board i = 0 := by simp [e, weight, Tick.lose]
    have h1 : 1 ≤ weight t.board i := by simp only [weight, if_pos hi]; split <;> omega
    have hf : freeCells (turn off t i).board = freeCells t.board := by rw [e]; rfl
    simp only [rank, hf, alive, List.filter_cons, hi, decide_true, if_true, List.filter_nil, List.length_singleton]
    omega
  · have h2 : weight t.board i = 2 := by simp [weight, hi, ho]
    have ha : (alive t.board [i]).length = 1 := by simp [alive, hi]
    have hp : (turn off t i).board.pPos i = t.board.next i := by simp [e, Tick.advance]
    have hd : (turn off t i).board.pDef i = 0 := by simp [e, Tick.advance, hi]
    cases hc : cellAt (t.board.next i) with
    | none =>
      -- The snake leaves the board: no cell is marked, and it weighs one less.
      have hw' : weight (turn off t i).board i = 1 := by simp [weight, hp, hd, cellAt_eq_none.1 hc]
      have hf : freeCells (turn off t i).board = freeCells t.board := by
        simp [e, Tick.advance, freeCells, GameBoard.mark, hc]
      simp only [rank, hf, ha]
      omega
    | some c =>
      have hw' : weight (turn off t i).board i = 2 := by
        simp [weight, hp, hd, cellAt_isSome.1 (show (cellAt (t.board.next i)).isSome = true by simp [hc])]
      have hf := freeCells_markCell (slotMark i) (by rwa [readB_of_cellAt _ hc] at hr)
      have hf' : freeCells (turn off t i).board = freeCells (t.board.markCell c (slotMark i)) := by
        simp [e, Tick.advance, freeCells, mark_of_cellAt _ hc]
      simp only [rank, hf', ha]
      omega

theorem rank_turns (off : Slot → UInt8) {l : List Slot} (hn : l.Nodup) (t : Tick) :
    rank (turns off l t).board + (alive t.board l).length ≤ rank t.board := by
  induction l generalizing t with
  | nil => simp [alive]
  | cons i l ih =>
    simp only [List.nodup_cons] at hn
    have h1 := rank_turn (off i) t i
    have h2 := ih hn.2 (turn (off i) t i)
    have e : alive (turn (off i) t i).board l = alive t.board l := by
      refine List.filter_congr fun j hj => ?_
      rw [(turn_other (off i) t (i := i) (j := j) (by rintro rfl; exact hn.1 hj)).1]
    have hsplit : (alive t.board (i :: l)).length = (alive t.board [i]).length + (alive t.board l).length := by
      simp only [alive, List.filter_cons, List.filter_nil]
      split <;> simp [Nat.add_comm]
    rw [turns_cons]
    rw [e] at h2
    omega

/-- A tick takes at least one off the rank for each alive snake. -/
theorem rank_updateBoard (off : Slot → UInt8) (b : GameBoard) :
    rank (updateBoard off b).board + (alive b (List.finRange maxPlayers)).length ≤ rank b :=
  rank_turns off (List.nodup_finRange _) ⟨b, [], []⟩

/-- `k` freshly loaded snakes have marked `4 * k` cells and weigh `2 * k`. -/
theorem rank_loaded {S : List Slot} {b : GameBoard} (hn : S.Nodup) (h : Loaded S b) :
    rank b + 2 * S.length ≤ 400 := by
  have ho := h.owned
  have hS : S.toFinset.card = S.length := List.toFinset_card_of_nodup hn
  -- The snakes' cells are disjoint and none of them is free.
  have hmarked : (S.toFinset.biUnion (owned b)).card = 4 * S.length := by
    rw [Finset.card_biUnion, Finset.sum_congr rfl (g := fun _ => 4)]
    · simp [hS, Nat.mul_comm]
    · intro i hi; simpa using ho.size i (List.mem_toFinset.1 hi)
    · intro i _ j _ hij
      refine Finset.disjoint_left.2 fun c hc hc' => hij ?_
      simp only [owned, Finset.mem_filter, Finset.mem_univ, true_and] at hc hc'
      exact slotMark_inj.1 (hc.symm.trans hc')
  have hdisj : Disjoint (freeCells b) (S.toFinset.biUnion (owned b)) := by
    refine Finset.disjoint_left.2 fun c hc hc' => ?_
    obtain ⟨i, -, hi⟩ := Finset.mem_biUnion.1 hc'
    simp only [owned, freeCells, Finset.mem_filter, Finset.mem_univ, true_and] at hi hc
    exact hc ((ho.tail_iff c).2 (by rw [hi]; exact slotMark_ne_zero i))
  have hcells : (freeCells b).card + 4 * S.length ≤ 400 := by
    rw [← hmarked, ← Finset.card_union_of_disjoint hdisj]
    exact (Finset.card_le_univ _).trans (by simp [Fintype.card_prod, boardHeight, boardWidth])
  have hweight : ∑ i, weight b i ≤ 2 * S.length := by
    calc ∑ i, weight b i ≤ ∑ i, if i ∈ S.toFinset then 2 else 0 := by
          refine Finset.sum_le_sum fun i _ => ?_
          by_cases hi : i ∈ S
          · simp only [weight, List.mem_toFinset, hi, if_true]; split <;> [split; skip] <;> omega
          · simp [weight, h.pDef, hi]
      _ = 2 * S.length := by rw [Finset.sum_ite_mem, Finset.univ_inter, Finset.sum_const, hS, smul_eq_mul, Nat.mul_comm]
  simp only [rank]
  omega

/-! ## The table during a game -/

/-- The first call finds a client and makes it LOOSE. -/
theorem playersLost_first {i : Slot} {l : List Slot} {s s' : Server} : playersLost (i :: l) s = some s' ↔
    ∃ c, s.clients i = some c ∧ playersLost l (s.setClient i { c with state := .loose }) = some s' := by
  have e : playersLost (i :: l) s = (playerLost i s).bind (playersLost l) := rfl
  rw [e]
  constructor
  · intro h
    obtain ⟨u, hu, hl⟩ := Option.bind_eq_some_iff.1 h
    obtain ⟨c, hc, rfl⟩ := Option.map_eq_some_iff.1 hu
    exact ⟨c, hc, hl⟩
  · rintro ⟨c, hc, hl⟩
    exact Option.bind_eq_some_iff.2 ⟨_, Option.map_eq_some_iff.2 ⟨c, hc, rfl⟩, hl⟩

/-- `playerLost` for occupied slots makes them LOOSE and does nothing else. -/
theorem playersLost_spec (l : List Slot) (s : Server) (h : ∀ i ∈ l, ∃ c, s.clients i = some c) :
    ∃ s', playersLost l s = some s' ∧ s'.gameBoard = s.gameBoard ∧ s'.startGame = s.startGame ∧ s'.out = s.out ∧
      ∀ i, s'.clients i = if i ∈ l then (s.clients i).map fun c => { c with state := .loose } else s.clients i := by
  induction l generalizing s with
  | nil => exact ⟨s, rfl, rfl, rfl, rfl, by simp⟩
  | cons i l ih =>
    obtain ⟨c, hc⟩ := h i (by simp)
    obtain ⟨s', hs', hb, hg, ho, ht⟩ := ih (s.setClient i { c with state := .loose }) fun j hj => by
      by_cases hji : j = i
      · subst hji; exact ⟨{ c with state := .loose }, by simp⟩
      · simpa [hji] using h j (by simp [hj])
    refine ⟨s', playersLost_first.2 ⟨c, hc, hs'⟩, hb, hg, ho, fun j => ?_⟩
    rw [ht j]
    by_cases hji : j = i
    · subst hji; by_cases hjl : j ∈ l <;> simp [hjl, hc]
    · by_cases hjl : j ∈ l <;> simp [hjl, hji]

/-- A tick under way either leaves a slot's flag and its listing alone, or sets
the flag from 0 to 1 and lists the slot. -/
def LostStep (j : Slot) (t t' : Tick) : Prop :=
  (t'.board.pDef j = t.board.pDef j ∧ (j ∈ t'.lost ↔ j ∈ t.lost)) ∨
    (t.board.pDef j = 0 ∧ t'.board.pDef j = 1 ∧ j ∈ t'.lost)

theorem lost_turn (off : UInt8) (t : Tick) (i j : Slot) : LostStep j t (turn off t i) := by
  rcases turn_cases off t i with ⟨-, e⟩ | ⟨hi, -, e⟩ | ⟨-, -, -, e⟩
  · exact .inl (by simp [e])
  · by_cases hj : j = i
    · subst hj; exact .inr ⟨hi, by simp [e, Tick.lose], by simp [e, Tick.lose]⟩
    · exact .inl (by simp [e, Tick.lose, hj])
  · exact .inl (by simp [e, Tick.advance])

theorem lost_turns (off : Slot → UInt8) (l : List Slot) (t : Tick) (j : Slot) : LostStep j t (turns off l t) := by
  induction l generalizing t with
  | nil => exact .inl ⟨rfl, Iff.rfl⟩
  | cons i l ih =>
    rw [turns_cons]
    have h1 := lost_turn (off i) t i j
    have h2 := ih (turn (off i) t i)
    unfold LostStep at h1 h2 ⊢
    grind

/-- What a tick does to a flag: it lists the slots it sets from 0 to 1. -/
theorem lost_updateBoard (off : Slot → UInt8) (b : GameBoard) (j : Slot) :
    (j ∉ (updateBoard off b).lost ∧ (updateBoard off b).board.pDef j = b.pDef j) ∨
      (j ∈ (updateBoard off b).lost ∧ b.pDef j = 0 ∧ (updateBoard off b).board.pDef j = 1) := by
  rcases lost_turns off (List.finRange maxPlayers) ⟨b, [], []⟩ j with ⟨h, hl⟩ | ⟨h, h', hl⟩
  · exact .inl ⟨fun hj => by simpa using hl.1 hj, h⟩
  · exact .inr ⟨hl, h, h'⟩

/-- What holds of table and board in every round: a slot of the board has a
client or none, and its flag is up once the client is LOOSE. -/
structure InGame (t : Table) (b : GameBoard) : Prop where
  flag : ∀ i c, t i = some c → b.pDef i = 0 ∨ b.pDef i = 1 ∧ c.state = .loose
  client : ∀ i, b.pDef i = 0 → ∃ c, t i = some c

/-- A client that is not LOOSE has an alive snake. -/
theorem InGame.alive {t : Table} {b : GameBoard} (h : InGame t b) {i : Slot} (hi : i ∈ inSlots t) : b.pDef i = 0 := by
  obtain ⟨c, hc, hs⟩ := mem_inSlots.1 hi
  rcases h.flag i c hc with h0 | ⟨-, hl⟩
  · exact h0
  · exact absurd hl hs

/-- A tick of a game does not fail, keeps who is in the table, and takes one
off the rank for each alive snake. -/
theorem InGame.tick {s : Server} {b : GameBoard} (h : InGame s.clients b) (hb : s.gameBoard = some b)
    (off : Slot → UInt8) :
    ∃ s' b', tick off s = some s' ∧ s'.gameBoard = some b' ∧ InGame s'.clients b' ∧ s'.startGame = s.startGame ∧
      (∀ i, (s'.clients i).map Client.con = (s.clients i).map Client.con) ∧
      rank b' + (ChildServer.alive b (List.finRange maxPlayers)).length ≤ rank b := by
  have hocc : ∀ i ∈ (updateBoard off b).lost, ∃ c, s.clients i = some c := by
    intro i hi
    rcases lost_updateBoard off b i with ⟨hn, -⟩ | ⟨-, h0, -⟩
    · exact absurd hi hn
    · exact h.client i h0
  obtain ⟨s', hs', -, hg, -, ht⟩ := playersLost_spec _ s hocc
  refine ⟨{ s'.emit (boardNotices s'.clients (updateBoard off b).board) with
      gameBoard := some (updateBoard off b).board }, _, ?_, rfl, ⟨?_, ?_⟩, hg, fun i => ?_, rank_updateBoard off b⟩
  · rw [ChildServer.tick, hb, Option.bind_some, hs']; rfl
  · intro i c hc
    simp only [emit_clients, ht i] at hc
    rcases lost_updateBoard off b i with ⟨hn, e⟩ | ⟨hl, -, e⟩
    · rw [if_neg hn] at hc; rw [e]; exact h.flag i c hc
    · rw [if_pos hl] at hc
      obtain ⟨d, -, rfl⟩ := Option.map_eq_some_iff.1 hc
      exact .inr ⟨e, rfl⟩
  · intro i hi
    simp only [emit_clients, ht i]
    rcases lost_updateBoard off b i with ⟨hn, e⟩ | ⟨-, -, e⟩
    · rw [if_neg hn]; exact h.client i (by rwa [e] at hi)
    · rw [e] at hi; exact absurd hi (by decide)
  · simp only [emit_clients, ht i]
    split <;> simp [Option.map_map, Function.comp_def]

/-! ## The loop ends -/

@[simp] theorem receive_clients (l : List (Slot × Point)) (s : Server) : (receive l s).clients = s.clients := rfl

/-- Directions are all that is received. -/
theorem receive_board (l : List (Slot × Point)) {s : Server} {b : GameBoard} (hb : s.gameBoard = some b) :
    ∃ pDir, (receive l s).gameBoard = some { b with pDir := pDir } := by
  have h : ∀ b : GameBoard, ∃ pDir,
      l.foldl (fun b d => updateMovementDirection d.1 d.2 b) b = { b with pDir := pDir } := by
    induction l with
    | nil => exact fun b => ⟨b.pDir, rfl⟩
    | cons d l ih => exact fun b => ih (updateMovementDirection d.1 d.2 b)
  obtain ⟨pDir, e⟩ := h b
  exact ⟨pDir, by rw [receive, hb, Option.map_some, e]⟩

/-- At least two clients still in are at least two alive snakes. -/
theorem InGame.two_alive {t : Table} {b : GameBoard} (h : InGame t b) (hi : isgameOver t = false) :
    2 ≤ (ChildServer.alive b (List.finRange maxPlayers)).length := by
  have hlen : ¬ (inSlots t).length ≤ 1 := by rw [← isgameOver_iff, hi]; decide
  have hsub : inSlots t ⊆ ChildServer.alive b (List.finRange maxPlayers) := by
    intro i hi
    exact List.mem_filter.2 ⟨List.mem_finRange i, by simpa using h.alive hi⟩
  have hle := ((nodup_inSlots t).subperm hsub).length_le
  omega

theorem loadAll_isSome (S : List Slot) (b : GameBoard) : ∃ b', loadAll 4 S b = some b' := by
  induction S generalizing b with
  | nil => exact ⟨b, rfl⟩
  | cons i S ih =>
    obtain ⟨b', hb'⟩ := ih (b.loaded i)
    have e : loadAll 4 (i :: S) b = (loadSnakeNumber 4 i b).bind (loadAll 4 S) := rfl
    exact ⟨b', by rw [e, loadSnakeNumber_eq, if_pos (Nat.le_refl 4), Option.bind_some, hb']⟩

/-- The board that `initGame` sets up has an alive snake for each client in
the table and for nobody else. -/
theorem setup_spec (garbage : GameBoard) (s : Server) :
    ∃ b, setup 4 garbage s = some { s with gameBoard := some b } ∧ Loaded (occupied s.clients) b ∧
      InGame s.clients b := by
  obtain ⟨b, hb⟩ := loadAll_isSome (occupied s.clients) (initBoard garbage)
  have hl : Loaded (occupied s.clients) b := by simpa using loaded_loadAll (loaded_initBoard garbage) hb
  refine ⟨b, by rw [setup, hb]; rfl, hl, ⟨fun i c hc => .inl ?_, fun i hi => ?_⟩⟩
  · rw [hl.pDef, if_pos (mem_occupied.2 ⟨c, hc⟩)]
  · rw [hl.pDef] at hi
    split at hi
    · exact mem_occupied.1 ‹_›
    · exact absurd hi (by decide)

/-- What holds at the head of the loop: the game is on and two snakes are
alive. -/
def Going (s : Server) : Prop :=
  ∃ b, s.gameBoard = some b ∧ InGame s.clients b ∧ 2 ≤ (alive b (List.finRange maxPlayers)).length

/-- A round that does not end the game takes two off the rank. -/
theorem Going.round {s : Server} (h : Going s) (i : Input) :
    ∃ s', tick i.off (receive i.directions s) = some s' ∧
      (isgameOver s'.clients = false →
        Going s' ∧ (s'.gameBoard.elim 0 rank) + 2 ≤ s.gameBoard.elim 0 rank) := by
  obtain ⟨b, hb, hin, h2⟩ := h
  obtain ⟨pDir, hr⟩ := receive_board i.directions hb
  have hin' : InGame (receive i.directions s).clients { b with pDir := pDir } := ⟨hin.flag, hin.client⟩
  obtain ⟨s', b', ht, hb', hin'', -, -, hrank⟩ := hin'.tick hr i.off
  -- Directions change neither the rank nor who is alive.
  have hle : rank b' + (alive b (List.finRange maxPlayers)).length ≤ rank b := hrank
  refine ⟨s', ht, fun hover => ⟨⟨b', hb', hin'', hin''.two_alive hover⟩, ?_⟩⟩
  rw [hb', hb, Option.elim_some, Option.elim_some]
  omega

/-- `initGame` with at least two clients in the table leaves its loop after at
most 200 rounds, whatever the stack held, what directions arrive and what the
reads off the board give. -/
theorem game_ends (s : Server) (garbage : GameBoard) (inputs : Nat → Input) (h2 : 2 ≤ (occupied s.clients).length) :
    ∃ s₀ n s', setup 4 garbage s = some s₀ ∧ gameLoop inputs 200 s₀ = some (n, s') ∧ n ≤ 200 ∧
      isgameOver s'.clients = true := by
  obtain ⟨b, hs, hl, hin⟩ := setup_spec garbage s
  have hrank := rank_loaded (nodup_occupied s.clients) hl
  have halive : alive b (List.finRange maxPlayers) = occupied s.clients := by
    refine List.filter_congr fun i _ => ?_
    rw [hl.pDef]
    by_cases hi : i ∈ occupied s.clients
    · obtain ⟨c, hc⟩ := mem_occupied.1 hi; simp [hi, hc]
    · have hn : s.clients i = none := by simpa [occupied] using hi
      simp [hi, hn]
  obtain ⟨n, s', hloop, hn, hover⟩ := doWhile_ends Going (fun s => s.gameBoard.elim 0 rank) 2
    (fun k s hs => hs.round (inputs k)) 200 0 { s with gameBoard := some b } ⟨b, rfl, hin, by rw [halive]; exact h2⟩
    (by rw [Option.elim_some]; omega)
  exact ⟨_, n, s', hs, hloop, by omega, hover⟩

/-- Two clients that log in and play. -/
def duel : Server where
  clients := fun i => if i.val < 2 then some ⟨some [97], .playing, .movement, some 0, i.val⟩ else none
  startGame := true
  gameBoard := none
  out := []

theorem game_ends_duel : ∃ s₀ n s', setup 4 blank duel = some s₀ ∧
    gameLoop (fun _ => ⟨[], fun _ => 0⟩) 200 s₀ = some (n, s') ∧ n ≤ 200 ∧ isgameOver s'.clients = true :=
  game_ends duel blank _ (by decide)

end Snuffin.ChildServer
