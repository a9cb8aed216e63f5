import Snuffin.Dispatch
/-!
# The game as a player sees it (client.c)

`startGame` draws every board that it reads until a BOOLEAN ends its loop.
What `printBoard` prints is read back: a picture shows one board only.
-/
open Lib Snuffin.ComWrapper Snuffin.Marshalling
open Snuffin.Db (bytes)

namespace Snuffin.Client

/-! ## The code -/

def printPlayerColor (pNum : UInt8) : Bytes :=
  match pNum with
  | 1 => bytes "\x1b[31;41maa\x1b[0m"
  | 2 => bytes "\x1b[32;42mvv\x1b[0m"
  | 3 => bytes "\x1b[34;44mcc\x1b[0m"
  | 4 => bytes "\x1b[35;45mdd\x1b[0m"
  | _ => bytes "  "

/-- `BORDER_COLOR "__" COLOR_RESET`, for `j = 0, .., last`. -/
def border (last : Int32) : Bytes :=
  (List.range (last.toInt + 1).toNat).flatMap (fun _ => bytes "\x1b[37;47m__\x1b[0m") ++ bytes "\n"

/-- `BORDER_COLOR "|" COLOR_RESET`. -/
def wall : Bytes := bytes "\x1b[37;47m|\x1b[0m"

/-- The cell `board[i][j]` of a row. -/
def printCell (b : Board) (i j : Nat) : Bytes := (if j = 0 then wall else []) ++ printPlayerColor (b.board i j)

def printRow (b : Board) (i : Nat) : Bytes :=
  (if i = 0 then border b.columns else []) ++ ((List.range b.width).flatMap (printCell b i) ++ (wall ++ bytes "\n"))

/-- `printBoard`, on the screen that `system("clear")` has cleared. The lower
border is as long as the board is high. -/
def printBoard (b : Board) : Bytes :=
  bytes "SNUFFIN " ++ (decimal b.rows.toInt ++ 32 :: (decimal b.columns.toInt ++ 10 ::
    ((List.range b.height).flatMap (printRow b) ++ border b.rows)))

/-- The variables of `startGame`, of which `type` and `won` have no value at
first, and what `printBoard` has printed, oldest first. -/
structure Playing where
  type : Option Nat
  won : Option Int32
  playingGame : Bool
  drawn : List Bytes

def Playing.start : Playing := ⟨none, none, true, []⟩

/-- The body of the loop on a message with its NUL. It is `none` when
`unmarshalling` is, when `type` has no value, or when it is the type of an
earlier message and there is no struct. -/
def playRound (data : Bytes) (l : Locals) (s : Playing) : Option Playing :=
  (unmarshalling data l).bind fun rta =>
    ((rta.map Value.type).or s.type).bind fun type =>
      let s := { s with type := some type }
      if type = BOARD.toNat - 48 then
        match rta with
        | some (.board b) => some { s with drawn := s.drawn ++ [printBoard b] }
        | _ => none
      else if type = BOOLEAN.toNat - 48 then
        match rta with
        | some (.boolean value) => some { s with won := some value, playingGame := false }
        | _ => none
      else some s

/-- `startGame` on the messages that `readData` hands out; `loc k` are the
arrays of `unmarshalling` when `k` messages follow. With no more messages it
waits. -/
def startGame (loc : Nat → Locals) : List Bytes → Playing → Option Playing
  | [], s => some s
  | m :: ms, s => if s.playingGame then (playRound (m ++ [0]) (loc ms.length) s).bind (startGame loc ms) else some s

/-! ## Pictures -/

/-- The cells that are printed are the board's. -/
theorem printBoard_congr {s b : Board} (h : SameBoard s b) : printBoard b = printBoard s := by
  obtain ⟨hr, hc, hcells⟩ := h
  have hheight : b.height = s.height := by rw [Board.height, hr, Board.height]
  have hwidth : b.width = s.width := by rw [Board.width, hc, Board.width]
  have hrow : ∀ i ∈ List.range s.height, printRow b i = printRow s i := by
    intro i hi
    have hcell : ∀ j ∈ List.range s.width, printCell b i j = printCell s i j := by
      intro j hj
      have hi' : i < s.rows.toInt.toNat := List.mem_range.1 hi
      have hj' : j < s.columns.toInt.toNat := List.mem_range.1 hj
      rw [printCell, hcells i j (by omega) (by omega), printCell]
    rw [printRow, hwidth, hc, List.flatMap_congr hcell, printRow]
  rw [printBoard, hr, hc, hheight, List.flatMap_congr hrow, printBoard]

/-- What stands for the cells of the free and of the four players. -/
def colors : List Bytes := (List.range 5).map fun k => printPlayerColor (UInt8.ofNat k)

theorem color_mem (pNum : UInt8) : printPlayerColor pNum ∈ colors := by
  unfold printPlayerColor
  split <;> decide

theorem colors_apart : ∀ a ∈ colors, ∀ b ∈ colors, a <+: b → a = b := by decide

theorem color_inj : ∀ k k' : Fin 5, printPlayerColor (UInt8.ofNat k) = printPlayerColor (UInt8.ofNat k') → k = k' := by
  decide

/-- Players and free cells look different. -/
theorem player_of_color {x y : UInt8} (hx : x.toNat < 5) (hy : y.toNat < 5) (h : printPlayerColor x = printPlayerColor y) :
    x = y := by
  have hk := color_inj ⟨x.toNat, hx⟩ ⟨y.toNat, hy⟩ (by simpa using h)
  exact UInt8.toNat_inj.1 (Fin.mk.inj hk)

theorem cell_told {s b : Board} {i j : Nat} (u v : Bytes) (h : printCell b i j ++ u = printCell s i j ++ v) :
    printCell b i j = printCell s i j ∧ u = v := by
  unfold printCell at h ⊢
  rw [List.append_assoc, List.append_assoc] at h
  obtain ⟨hc, huv⟩ := code_inj colors_apart (color_mem _) (color_mem _) (List.append_cancel_left h)
  exact ⟨by rw [hc], huv⟩

theorem row_told {s b : Board} (hc : b.columns = s.columns) {i : Nat} (u v : Bytes)
    (h : printRow b i ++ u = printRow s i ++ v) : printRow b i = printRow s i ∧ u = v := by
  have hw : b.width = s.width := by rw [Board.width, hc, Board.width]
  unfold printRow at h ⊢
  rw [hc, hw] at h ⊢
  simp only [List.append_assoc] at h
  obtain ⟨hcells, huv⟩ := flatMap_inj (fun _ _ => cell_told) (List.append_cancel_left h)
  rw [List.flatMap_congr hcells]
  exact ⟨rfl, List.append_cancel_left (List.append_cancel_left huv)⟩

/-- Every cell is free or a player's. -/
def Marked (b : Board) : Prop := ∀ i < b.height, ∀ j < b.width, (b.board i j).toNat < 5

/-- Two boards with the same picture are the same board. -/
theorem picture_tells {s b : Board} (hs : Marked s) (hb : Marked b) (h : printBoard b = printBoard s) : SameBoard s b := by
  have hdec : ∀ (x : UInt8) (v : Int), isDigit x = false → x ≠ 45 → x ∉ decimal v := by
    intro x v hx h45 hm
    rcases mem_decimal hm with he | hd
    · exact h45 he
    · rw [hx] at hd
      cases hd
  unfold printBoard at h
  obtain ⟨hrows, h⟩ := sep_left_inj (hdec 32 _ rfl (by decide)) (hdec 32 _ rfl (by decide)) (List.append_cancel_left h)
  obtain ⟨hcols, h⟩ := sep_left_inj (hdec 10 _ rfl (by decide)) (hdec 10 _ rfl (by decide)) h
  have hr : b.rows = s.rows := decimal_toInt_inj hrows
  have hc : b.columns = s.columns := decimal_toInt_inj hcols
  have hheight : b.height = s.height := by rw [Board.height, hr, Board.height]
  have hwidth : b.width = s.width := by rw [Board.width, hc, Board.width]
  rw [hheight] at h
  obtain ⟨hrow, -⟩ := flatMap_inj (fun _ _ => row_told hc) h
  refine ⟨hr, hc, fun i j hi hj => ?_⟩
  have hi' : i < s.height := by unfold Board.height; omega
  have hj' : j < s.width := by unfold Board.width; omega
  have hline := hrow i (List.mem_range.2 hi')
  unfold printRow at hline
  rw [hc, hwidth] at hline
  have hcells := (flatMap_inj (fun _ _ => cell_told) (List.append_cancel_left hline)).1 j (List.mem_range.2 hj')
  unfold printCell at hcells
  refine player_of_color (hb i (hheight ▸ hi') j (hwidth ▸ hj')) (hs i hi' j hj') ?_
  exact List.append_cancel_left hcells

/-- Two free cells and the first player's. -/
theorem picture_tells_row :
    SameBoard ⟨fun _ j => if j = 2 then 1 else 0, 1, 3⟩ ⟨fun i j => if i = 0 ∧ j = 2 then 1 else 0, 1, 3⟩ := by
  apply picture_tells
  · intro i _ j _
    dsimp only
    split <;> decide
  · intro i _ j _
    dsimp only
    split <;> decide
  · rfl

/-! ## The loop -/

/-- What the loop does with a struct that is carried. -/
def Playing.hear (s : Playing) : Struc → Playing
  | .board b _ => { s with type := some 5, drawn := s.drawn ++ [printBoard b] }
  | .text (.boolean value) => { s with type := some 4, won := some value, playingGame := false }
  | .text m => { s with type := some (m.kind.toNat - 48) }

theorem playRound_carried {x : Struc} (h : x.Carried) {l : Locals} (hl : l.Zeroed) (s : Playing) :
    playRound (x.body ++ [0]) l s = some (s.hear x) := by
  obtain ⟨v, hv, hsame⟩ := h.read_back hl
  unfold playRound
  rw [hv]
  cases x with
  | text m =>
    cases m with
    | string =>
      cases v with
      | string => rfl
      | _ => exact hsame.elim
    | player =>
      cases v with
      | player => rfl
      | _ => exact hsame.elim
    | point =>
      cases v with
      | point => rfl
      | _ => exact hsame.elim
    | serverId =>
      cases v with
      | serverId => rfl
      | _ => exact hsame.elim
    | boolean value =>
      cases v with
      | boolean value' =>
        obtain rfl : value' = value := hsame
        rfl
      | _ => exact hsame.elim
  | board b heap =>
    cases v with
    | board b' => exact congrArg (fun d => some { s with type := some 5, drawn := s.drawn ++ [d] }) (printBoard_congr hsame)
    | _ => exact hsame.elim

/-- It is a BOOLEAN. -/
def Ending (x : Struc) : Prop := ∃ value, x = .text (.boolean value)

/-- What is drawn for some structs. -/
def pictures (xs : List Struc) : List Bytes := xs.filterMap fun
  | .board b _ => some (printBoard b)
  | .text _ => none

/-- Without a BOOLEAN the loop goes on. -/
theorem startGame_draws {loc : Nat → Locals} (hloc : ∀ k, (loc k).Zeroed) {xs : List Struc} (h : ∀ x ∈ xs, x.Carried)
    (hb : ∀ x ∈ xs, ¬Ending x) (ms : List Bytes) {s : Playing} (hs : s.playingGame = true) :
    ∃ s', startGame loc (xs.map Struc.body ++ ms) s = startGame loc ms s' ∧ s'.playingGame = true ∧
      s'.drawn = s.drawn ++ pictures xs := by
  induction xs generalizing s with
  | nil => exact ⟨s, rfl, hs, (List.append_nil _).symm⟩
  | cons x xs ih =>
    rw [List.forall_mem_cons] at h hb
    have hplay : (s.hear x).playingGame = true ∧ (s.hear x).drawn = s.drawn ++ pictures [x] := by
      cases x with
      | board b heap => exact ⟨hs, rfl⟩
      | text m =>
        cases m with
        | boolean value => exact absurd ⟨value, rfl⟩ hb.1
        | _ => exact ⟨hs, (List.append_nil _).symm⟩
    obtain ⟨s', he, hs', hd⟩ := ih h.2 hb.2 hplay.1
    refine ⟨s', ?_, hs', ?_⟩
    · rw [List.map_cons, List.cons_append, startGame, if_pos hs, playRound_carried h.1 (hloc _), Option.bind_some, he]
    · rw [hd, hplay.2, List.append_assoc, pictures, pictures, ← List.filterMap_append]
      rfl

/-- The first BOOLEAN ends it. -/
theorem startGame_ends {loc : Nat → Locals} (hloc : ∀ k, (loc k).Zeroed) {xs : List Struc} (h : ∀ x ∈ xs, x.Carried)
    (hb : ∀ x ∈ xs, ¬Ending x) {value : Int32} (hv : value = 0 ∨ value = 1) :
    ∃ s', startGame loc ((xs ++ [Struc.text (.boolean value)]).map Struc.body) .start = some s' ∧ s'.playingGame = false ∧
      s'.won = some value ∧ s'.drawn = pictures xs := by
  obtain ⟨s, he, hs, hd⟩ := startGame_draws hloc h hb [(Struc.text (.boolean value)).body] (s := .start) rfl
  refine ⟨s.hear (.text (.boolean value)), ?_, rfl, rfl, hd⟩
  have hcarried : (Struc.text (.boolean value)).Carried := hv
  rw [List.map_append]
  refine he.trans ?_
  rw [startGame, if_pos hs, playRound_carried hcarried (hloc _), Option.bind_some]
  rfl

end Snuffin.Client
