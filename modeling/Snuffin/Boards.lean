import Snuffin.RoundTrips
/-!
# Boards that are read back

`marshBoard` writes cell (i, j) at `j + i*rows` of `d2`, an array with one
byte for each cell, and hands `d2` to `strcat` as a string. The two loops are
one loop over the cells in row-major order (`marshCells_eq`), in which the
place of a cell is right when the board is square or has one row.
-/
open Lib Snuffin.ComWrapper

namespace Snuffin.Marshalling

/-! ## Two loops as one -/

theorem foldlM_congr {α β : Type} {f g : β → α → Option β} {l : List α} (h : ∀ d, ∀ x ∈ l, f d x = g d x) (d : β) :
    l.foldlM f d = l.foldlM g d := by
  induction l generalizing d with
  | nil => rfl
  | cons x l ih =>
    rw [List.foldlM_cons, List.foldlM_cons, h d x (by simp)]
    exact congrArg _ (funext fun d' => ih (fun e y hy => h e y (by simp [hy])) d')

/-- The loop over rows and columns visits the numbers below `R * C`. -/
theorem foldlM_rows {β : Type} (f : β → Nat → Nat → Option β) (R C : Nat) (d : β) :
    (List.range R).foldlM (fun d i => (List.range C).foldlM (fun d j => f d i j) d) d =
      (List.range (R * C)).foldlM (fun d n => f d (n / C) (n % C)) d := by
  induction R with
  | zero => simp
  | succ R ih =>
    rw [Nat.add_one_mul, List.range_succ, List.range_add, List.foldlM_append, List.foldlM_append, ih]
    refine congrArg _ (funext fun d => ?_)
    rw [List.foldlM_map, List.foldlM_cons]
    have hrow : (List.range C).foldlM (fun d j => f d R j) d =
        (List.range C).foldlM (fun d j => f d ((R * C + j) / C) ((R * C + j) % C)) d := by
      refine foldlM_congr (fun d j hj => ?_) d
      have hj' := List.mem_range.1 hj
      rw [Nat.mul_comm R C, Nat.mul_add_div (by omega), Nat.mul_add_mod, Nat.div_eq_of_lt hj', Nat.mod_eq_of_lt hj',
        Nat.add_zero]
    rw [hrow]
    exact bind_pure _

/-! ## The loop over the cells -/

/-- How many rows and columns the loops run through. -/
def Board.height (s : Board) : Nat := s.rows.toInt.toNat

def Board.width (s : Board) : Nat := s.columns.toInt.toNat

/-- The place of the `n`th cell in `d2`. -/
def Board.place (s : Board) (n : Nat) : Nat := n % s.width + n / s.width * s.height

/-- The byte for the `n`th cell in row-major order. -/
def Board.cell (s : Board) (n : Nat) : UInt8 := s.board (n / s.width) (n % s.width) + 48

/-- The cells in row-major order. -/
def Board.cells (s : Board) : Bytes := (List.range (s.height * s.width)).map s.cell

/-- It has cells, its sides are printed in four places at most, and no cell is
printed as a NUL. -/
structure Board.Proper (s : Board) : Prop where
  rows : 1 ≤ s.rows.toInt
  columns : 1 ≤ s.columns.toInt
  places : (decimal s.rows.toInt).length ≤ 4 ∧ (decimal s.columns.toInt).length ≤ 4
  printed : ∀ i j : Nat, (i : Int) < s.rows.toInt → (j : Int) < s.columns.toInt → s.board i j + 48 ≠ 0

def marshNth (s : Board) (d2 : Bytes) (n : Nat) : Option Bytes := marshCell s d2 (n / s.width) (n % s.width)

theorem marshCells_eq (s : Board) (d2 : Bytes) :
    marshCells s d2 = (List.range (s.height * s.width)).foldlM (marshNth s) d2 :=
  foldlM_rows (fun d2 i j => marshCell s d2 i j) s.height s.width d2

theorem length_cells (s : Board) : s.cells.length = s.height * s.width := by
  rw [Board.cells, List.length_map, List.length_range]

section Cells
variable {s : Board} (h : s.Proper)
include h

theorem height_eq : s.rows.toInt = s.height := (Int.toNat_of_nonneg (by have := h.rows; omega)).symm

theorem width_eq : s.columns.toInt = s.width := (Int.toNat_of_nonneg (by have := h.columns; omega)).symm

theorem sides : 0 < s.height ∧ 0 < s.width ∧ s.height < 10000 ∧ s.width < 10000 := by
  have hr := height_eq h
  have hc := width_eq h
  have hplaces := h.places
  rw [hr, hc, length_decimal_le (by decide), length_decimal_le (by decide)] at hplaces
  have := h.rows
  have := h.columns
  omega

theorem cell_ne_zero {n : Nat} (hn : n < s.height * s.width) : s.cell n ≠ 0 := by
  have hs := sides h
  have hr := height_eq h
  have hc := width_eq h
  have hdiv := (Nat.div_lt_iff_lt_mul hs.2.1).2 hn
  have hmod := Nat.mod_lt n hs.2.1
  exact h.printed _ _ (by omega) (by omega)

theorem cells_nul : (0 : UInt8) ∉ s.cells := by
  intro h0
  obtain ⟨n, hn, h0⟩ := List.mem_map.1 h0
  exact cell_ne_zero h (List.mem_range.1 hn) h0

/-- The products of the sides are ints. -/
theorem marshNth_eq {n : Nat} (hn : n < s.height * s.width) (d2 : Bytes) :
    marshNth s d2 n = if s.place n < d2.length then some (d2.set (s.place n) (s.cell n)) else none := by
  have hs := sides h
  have hdiv := (Nat.div_lt_iff_lt_mul hs.2.1).2 hn
  have hmod := Nat.mod_lt n hs.2.1
  have hmul : n / s.width * s.height ≤ 9999 * 9999 := Nat.mul_le_mul (by omega) (by omega)
  have hk : int (((n / s.width : Nat) : Int) * s.rows.toInt) = some ((n / s.width * s.height : Nat) : Int) := by
    rw [height_eq h, ← Nat.cast_mul]
    exact int_eq (by unfold intMin; omega) (by unfold intMax; omega)
  have hp : int (((n % s.width : Nat) : Int) + ((n / s.width * s.height : Nat) : Int)) = some (s.place n : Int) := by
    rw [← Nat.cast_add]
    exact int_eq (by unfold intMin; omega) (by unfold intMax; omega)
  rw [marshNth, marshCell, hk, Option.bind_some, hp, Option.bind_some, Int.toNat_natCast]
  simp only [Int.ofNat_lt]
  rfl

/-- When the loop stays inside `d2`, all places are in `d2`, and only they are
written. -/
theorem marshNth_some {l : List Nat} {d2 d2' : Bytes} (hl : ∀ n ∈ l, n < s.height * s.width)
    (hd : l.foldlM (marshNth s) d2 = some d2') :
    d2'.length = d2.length ∧ (∀ n ∈ l, s.place n < d2.length) ∧
      ∀ k, (∀ n ∈ l, s.place n ≠ k) → d2'[k]? = d2[k]? := by
  induction l generalizing d2 with
  | nil =>
    obtain rfl := Option.some.inj hd
    simp
  | cons n l ih =>
    rw [List.foldlM_cons, marshNth_eq h (hl n (by simp))] at hd
    obtain ⟨d, hn, hd⟩ := Option.bind_eq_some_iff.1 hd
    obtain ⟨hlt, hn⟩ := Option.ite_none_right_eq_some.1 hn
    obtain rfl := Option.some.inj hn
    obtain ⟨hlen, hall, hrest⟩ := ih (fun m hm => hl m (by simp [hm])) hd
    rw [List.length_set] at hlen hall
    refine ⟨hlen, fun m hm => ?_, fun k hk => ?_⟩
    · rcases List.mem_cons.1 hm with rfl | hm
      · exact hlt
      · exact hall m hm
    · rw [hrest k fun m hm => hk m (by simp [hm]), List.getElem?_set_ne (hk n (by simp))]

/-- Cells whose places are their numbers are written one behind the other. -/
theorem marshNth_range {m k : Nat} (hm : m ≤ s.height * s.width) (hk : m ≤ k) (hp : ∀ n < m, s.place n = n) :
    (List.range m).foldlM (marshNth s) (List.replicate k 0) =
      some ((List.range m).map s.cell ++ List.replicate (k - m) 0) := by
  induction m with
  | zero => rfl
  | succ m ih =>
    obtain ⟨z, hz⟩ : ∃ z, k - m = z + 1 := ⟨k - m - 1, by omega⟩
    rw [List.range_succ, List.foldlM_append, ih (by omega) (by omega) fun n hn => hp n (by omega)]
    show [m].foldlM (marshNth s) _ = _
    rw [List.foldlM_cons, marshNth_eq h (by omega), hp m (by omega), if_pos (by simp; omega), hz]
    show some _ = some _
    rw [List.set_append_right _ _ (by simp), List.length_map, List.length_range, Nat.sub_self, List.replicate_succ,
      List.set_cons_zero, List.map_append, List.map_singleton, List.append_assoc, List.singleton_append,
      show k - (m + 1) = z by omega]

/-- The last place is the last byte of `d2` exactly when the board has one row
or is square. -/
theorem place_last (hin : ∀ n < s.height * s.width, s.place n < s.height * s.width)
    (hlast : ∃ n < s.height * s.width, s.place n + 1 = s.height * s.width) : s.height = 1 ∨ s.height = s.width := by
  have hs := sides h
  obtain ⟨r, hr⟩ : ∃ r, s.height = r + 1 := ⟨s.height - 1, by omega⟩
  have hle : ∀ n < s.height * s.width, s.place n + 1 ≤ s.width + r * s.height := by
    intro n hn
    have hdiv := (Nat.div_lt_iff_lt_mul hs.2.1).2 hn
    have hmod := Nat.mod_lt n hs.2.1
    have hmul : n / s.width * s.height ≤ r * s.height := Nat.mul_le_mul_right _ (by omega)
    unfold Board.place
    omega
  obtain ⟨n, hn, hlast⟩ := hlast
  have hn' := hle n hn
  have hbottom : r * s.width + (s.width - 1) < s.height * s.width := by
    rw [hr, Nat.add_mul, Nat.one_mul]
    omega
  have hb := hin _ hbottom
  have hplace : s.place (r * s.width + (s.width - 1)) = s.width - 1 + r * s.height := by
    unfold Board.place
    rw [Nat.mul_comm r s.width, Nat.mul_add_mod, Nat.mul_add_div hs.2.1, Nat.mod_eq_of_lt (by omega),
      Nat.div_eq_of_lt (by omega), Nat.add_zero]
  rw [hplace] at hb
  have heq : r * s.width = r * s.height := by
    have hmul : s.height * s.width = r * s.width + s.width := by rw [hr, Nat.add_mul, Nat.one_mul]
    omega
  rcases Nat.eq_zero_or_pos r with h0 | h0
  · exact .inl (by omega)
  · exact .inr (Nat.eq_of_mul_eq_mul_left h0 heq).symm

theorem place_eq (hsq : s.height = 1 ∨ s.height = s.width) {n : Nat} (hn : n < s.height * s.width) : s.place n = n := by
  have hs := sides h
  unfold Board.place
  rcases hsq with h1 | h1
  · rw [h1, Nat.one_mul] at hn
    rw [Nat.mod_eq_of_lt hn, Nat.div_eq_of_lt hn, Nat.zero_mul, Nat.add_zero]
  · rw [h1, Nat.mul_comm]
    exact Nat.mod_add_div n s.width

end Cells

/-! ## What is sent -/

/-- `strcat` finds the end of the string `d2` inside `d2`. -/
def CatInside (s : Board) : Prop := ∃ d2, marshCells s (List.replicate (s.height * s.width) 0) = some d2 ∧ (0 : UInt8) ∈ d2

/-- The header, the cells in row-major order and one NUL. -/
def BoardSent (s : Board) (heap : Bytes) (sd : StreamData) : Prop :=
  marshBoard s heap = some sd ∧ sd.data = boardText s ++ s.cells ++ [0] ∧ sd.size = sd.data.length

theorem marshBoard_eq {s : Board} (h : s.Proper) (heap : Bytes) :
    ∃ d1, cstr d1 = boardText s ∧ d1.length = (boardText s).length + s.height * s.width + 1 ∧
      marshBoard s heap = (marshCells s (List.replicate (s.height * s.width) 0)).bind fun d2 =>
        (strcat d1 d2 heap).map fun d1' => ⟨d1', ((d1.length : Nat) : Int)⟩ := by
  have hs := sides h
  have hr := height_eq h
  have hc := width_eq h
  have hlr := h.places.1
  have hlc := h.places.2
  have hmul : s.height * s.width ≤ 9999 * 9999 := Nat.mul_le_mul (by omega) (by omega)
  have hlen : (boardText s).length = 3 + (decimal s.rows.toInt).length + (decimal s.columns.toInt).length := by
    simp only [boardText_eq, List.length_cons, List.length_append, List.length_nil]
    omega
  refine ⟨boardText s ++ 0 :: (List.replicate ((boardText s).length + s.height * s.width + 1) 0).drop
    ((boardText s).length + 1), cstr_append (boardText_nul s) _, ?_, ?_⟩
  · simp only [List.length_append, List.length_cons, List.length_drop, List.length_replicate]
    omega
  · have h2 : int (s.rows.toInt * s.columns.toInt) = some ((s.height * s.width : Nat) : Int) := by
      rw [hr, hc, ← Nat.cast_mul]
      exact int_eq (by unfold intMin; omega) (by unfold intMax; omega)
    have hsize : int (1 + 1 + 1 + 1 + (decimal s.rows.toInt).length + (decimal s.columns.toInt).length +
        ((s.height * s.width : Nat) : Int)) = some (((boardText s).length + s.height * s.width + 1 : Nat) : Int) := by
      rw [int_eq (by unfold intMin; omega) (by unfold intMax; omega)]
      congr 1
      omega
    have hcalloc : ∀ n : Nat, calloc n = some (List.replicate n 0) := fun n => by
      rw [calloc, if_pos (by omega), Int.toNat_natCast]
    have hprint : sprintf (List.replicate ((boardText s).length + s.height * s.width + 1) 0) (boardText s) =
        some (boardText s ++ 0 :: (List.replicate ((boardText s).length + s.height * s.width + 1) 0).drop
          ((boardText s).length + 1)) := if_pos (by rw [List.length_replicate]; omega)
    unfold marshBoard
    rw [numPlaces_int, Option.bind_some, numPlaces_int, Option.bind_some, h2, Option.bind_some, hsize,
      Option.bind_some, hcalloc, Option.bind_some, hcalloc, Option.bind_some, hprint, Option.bind_some]
    simp only [List.length_append, List.length_cons, List.length_drop, List.length_replicate]
    congr 1
    funext d2
    congr 1
    funext d1'
    congr 2
    omega

theorem cstr_append_of_mem {d : Bytes} (h : (0 : UInt8) ∈ d) (heap : Bytes) : (cstr (d ++ heap)).length < d.length := by
  obtain ⟨a, b, rfl, ha⟩ := List.eq_append_cons_of_mem h
  rw [List.append_assoc, List.cons_append, cstr_append ha, List.length_append, List.length_cons]
  omega

/-- What a board that is sent well says about `d2`: it is full, and behind it
there is a NUL. -/
theorem sent_full {s : Board} (h : s.Proper) {heap : Bytes} {sd : StreamData} (hsd : BoardSent s heap sd) :
    ∃ d2, marshCells s (List.replicate (s.height * s.width) 0) = some d2 ∧ (0 : UInt8) ∉ d2 ∧ cstr heap = [] := by
  obtain ⟨hm, hdata, -⟩ := hsd
  obtain ⟨d1, hd1, -, heq⟩ := marshBoard_eq h heap
  rw [heq] at hm
  obtain ⟨d2, hd2, hm⟩ := Option.bind_eq_some_iff.1 hm
  obtain ⟨d, hcat, rfl⟩ := Option.map_eq_some_iff.1 hm
  obtain ⟨-, hcat⟩ := Option.ite_none_right_eq_some.1 hcat
  obtain rfl := Option.some.inj hcat
  dsimp only at hdata
  rw [hd1, List.append_assoc, List.append_assoc] at hdata
  -- What `strcat` appended is the cells.
  obtain ⟨hcells, -⟩ := sep_left_inj (cstr_nul _) (cells_nul h) (List.append_cancel_left hdata)
  have hlen := congrArg List.length hcells
  rw [length_cells] at hlen
  rw [marshCells_eq] at hd2
  have hd2len := (marshNth_some h (fun n hn => List.mem_range.1 hn) hd2).1
  rw [List.length_replicate] at hd2len
  have hfull : (0 : UInt8) ∉ d2 := fun h0 => by
    have := cstr_append_of_mem h0 heap
    omega
  rw [cstr_append_of_not_mem hfull, List.length_append] at hlen
  exact ⟨d2, by rw [marshCells_eq]; exact hd2, hfull, List.length_eq_zero_iff.1 (by omega)⟩

/-- A full `d2` has been written up to its last byte. -/
theorem shape_of_full {s : Board} (h : s.Proper) {d2 : Bytes}
    (hd2 : marshCells s (List.replicate (s.height * s.width) 0) = some d2) (hfull : (0 : UInt8) ∉ d2) :
    s.height = 1 ∨ s.height = s.width := by
  have hs := sides h
  have hpos := Nat.mul_pos hs.1 hs.2.1
  rw [marshCells_eq] at hd2
  obtain ⟨hlen, hin, hrest⟩ := marshNth_some h (fun n hn => List.mem_range.1 hn) hd2
  rw [List.length_replicate] at hlen hin
  refine place_last h (fun n hn => hin n (List.mem_range.2 hn)) ?_
  by_contra hnone
  have hlast := hrest (s.height * s.width - 1) fun n hn he =>
    hnone ⟨n, List.mem_range.1 hn, by have := hin n hn; omega⟩
  rw [List.getElem?_replicate, if_pos (by omega)] at hlast
  exact hfull (List.mem_of_getElem? hlast)

theorem sent_of_shape {s : Board} (h : s.Proper) {heap : Bytes} (hheap : cstr heap = [])
    (hshape : s.height = 1 ∨ s.height = s.width) : ∃ sd, BoardSent s heap sd := by
  obtain ⟨d1, hd1, hlen, heq⟩ := marshBoard_eq h heap
  have hcells : marshCells s (List.replicate (s.height * s.width) 0) = some s.cells := by
    rw [marshCells_eq, marshNth_range h (Nat.le_refl _) (Nat.le_refl _) fun n hn => place_eq h hshape hn, Nat.sub_self,
      List.replicate_zero, List.append_nil]
    rfl
  have hcstr : cstr (s.cells ++ heap) = s.cells := by
    rw [cstr_append_of_not_mem (cells_nul h), hheap, List.append_nil]
  have hcat : strcat d1 s.cells heap = some (boardText s ++ s.cells ++ [0]) := by
    have hroom : (boardText s).length + s.cells.length < d1.length := by rw [length_cells, hlen]; omega
    have hend : d1.drop ((boardText s).length + s.cells.length + 1) = [] := by
      apply List.drop_eq_nil_of_le
      rw [hlen, length_cells]
    simp only [strcat, hd1, hcstr, if_pos hroom, hend]
  refine ⟨_, by rw [heq, hcells, Option.bind_some, hcat, Option.map_some], rfl, ?_⟩
  simp only [List.length_append, List.length_singleton, length_cells, hlen]

/-! ## What is read -/

/-- The cells of two boards of the same shape. -/
def SameBoard (s b : Board) : Prop :=
  b.rows = s.rows ∧ b.columns = s.columns ∧
    ∀ i j : Nat, (i : Int) < s.rows.toInt → (j : Int) < s.columns.toInt → b.board i j = s.board i j

theorem writeCell_eq (board : Nat → Nat → UInt8) (k j : Nat) (x : UInt8) (row col : Nat) :
    writeCell board k j x row col = if row = k ∧ col = j then x else board row col := by
  unfold writeCell
  by_cases hk : row = k
  · subst hk
    by_cases hj : col = j
    · subst hj; simp
    · simp [hj]
  · simp [hk]

/-- A cell is told by its number. -/
theorem AtCell.eq {c cont k j q t : Int} (h : AtCell c cont k j q t) (row : Int) {col : Int} (h0 : 0 ≤ col) (hcol : col < c) :
    c * row + col = cont ↔ row = q ∧ col = t := by
  have hc := h.cont
  have ht := h.column
  constructor
  · intro he
    have hrow : row = q := by
      rcases Int.lt_trichotomy row q with hlt | heq | hgt
      · have hle := Int.mul_le_mul_of_nonneg_left (show row + 1 ≤ q by omega) (show 0 ≤ c by omega)
        rw [Int.mul_add, Int.mul_one] at hle
        omega
      · exact heq
      · have hle := Int.mul_le_mul_of_nonneg_left (show q + 1 ≤ row by omega) (show 0 ≤ c by omega)
        rw [Int.mul_add, Int.mul_one] at hle
        omega
    subst hrow
    exact ⟨rfl, by omega⟩
  · rintro ⟨rfl, rfl⟩
    exact hc.symm

/-- Cell number `cont` and those after it come from the message, the others
stay. -/
theorem fillBoard_cell {f c : Int} {cells : Bytes} (hn : (0 : UInt8) ∉ cells) {cont k j q t : Int}
    (h : AtCell c cont k j q t) {board board' : Nat → Nat → UInt8}
    (hf : fillBoard f c (cells ++ [0]) cont k j board = some board') (row : Nat) {col : Nat} (hcol : (col : Int) < c) :
    board' row col =
      if cont ≤ c * row + col then ((cells[(c * row + col - cont).toNat]?).map (· - 48)).getD (board row col)
      else board row col := by
  induction cells generalizing cont k j q t board with
  | nil =>
    obtain rfl : board = board' := by simpa [fillBoard] using hf
    simp
  | cons x cells ih =>
    have hx : x ≠ 0 := by rintro rfl; exact hn (by simp)
    have hct := h.column
    have hq := h.row
    obtain ⟨q', t', h'⟩ := h.next
    rw [List.cons_append, fillBoard, if_neg hx, if_neg (by omega), h.place] at hf
    obtain ⟨-, hf⟩ := Option.ite_none_right_eq_some.1 hf
    have hrest := ih (fun hm => hn (List.mem_cons_of_mem _ hm)) h' hf
    have hiff := h.eq (row : Int) (Int.natCast_nonneg col) hcol
    have hother : c * row + col ≠ cont → writeCell board q.toNat t.toNat (x - 48) row col = board row col := fun hne => by
      rw [writeCell_eq, if_neg fun he => hne (hiff.2 ⟨by omega, by omega⟩)]
    rw [hrest]
    rcases Int.lt_trichotomy (c * row + col) cont with hlt | heq | hgt
    · rw [if_neg (by omega), if_neg (by omega), hother (by omega)]
    · obtain ⟨hrow, hcol'⟩ := hiff.1 heq
      rw [if_neg (by omega), if_pos (by omega), writeCell_eq, if_pos ⟨by omega, by omega⟩, heq, Int.sub_self]
      rfl
    · obtain ⟨m, hm⟩ : ∃ m : Nat, c * row + col - cont = ((m + 1 : Nat) : Int) :=
        ⟨(c * row + col - cont - 1).toNat, by omega⟩
      have hm' : c * row + col - (cont + 1) = (m : Int) := by omega
      rw [if_pos (by omega), if_pos (by omega), hother (by omega), hm, hm', Int.toNat_natCast, Int.toNat_natCast,
        List.getElem?_cons_succ]

theorem read_sent {s : Board} (h : s.Proper) {l : Locals} (hl : l.Zeroed) :
    ∃ b, unmarshBoard (boardText s ++ s.cells ++ [0]) l = some (some b) ∧ SameBoard s b := by
  have hs := sides h
  have hr := height_eq h
  have hc := width_eq h
  have hlr := h.places.1
  have hlc := h.places.2
  have htext : boardText s ++ s.cells ++ [0] =
      BOARD :: (decimal s.rows.toInt ++ SEP :: (decimal s.columns.toInt ++ SEP :: s.cells) ++ [0]) := by
    simp [boardText_eq]
  have hnul : (0 : UInt8) ∉ decimal s.rows.toInt ++ SEP :: (decimal s.columns.toInt ++ SEP :: s.cells) := by
    simp [decimal_nul, cells_nul h]
  have hf : Int32.ofInt (strtol (l.num.over (decimal s.rows.toInt))) = s.rows := by
    rw [number_over hl.num hlr, Int32.ofInt_toInt]
  have hc' : Int32.ofInt (strtol (l.num2.over (decimal s.columns.toInt))) = s.columns := by
    rw [number_over hl.num2 hlc, Int32.ofInt_toInt]
  have hfits : s.cells = [] ∨ 0 < s.columns.toInt ∧ (s.cells.length : Int) ≤ s.rows.toInt * s.columns.toInt := by
    refine .inr ⟨by omega, ?_⟩
    rw [length_cells, hr, hc, Nat.cast_mul]
  obtain ⟨board, hboard⟩ := Option.isSome_iff_exists.1 ((fillBoard_start (cells_nul h) fun _ _ => 0).2 hfits)
  refine ⟨⟨board, s.rows, s.columns⟩, ?_, rfl, rfl, fun i j hi hj => ?_⟩
  · rw [htext]
    refine (unmarshBoard_eq_some hnul l _).2 ⟨_, _, s.cells, sep_decimal _, sep_decimal _, rfl, by omega, by omega,
      board, ?_, ?_⟩
    · rw [hf, hc']
    · rw [hf, hc']
      exact hboard
  · have h0 : AtCell s.columns.toInt 0 (-1) 0 0 0 :=
      ⟨by omega, by omega, by omega, fun _ => by omega, fun hne => absurd rfl hne⟩
    have hcell := fillBoard_cell (cells_nul h) h0 hboard i hj
    rw [hc] at hcell hj
    rw [hr] at hi
    have hi' : i < s.height := by omega
    have hj' : j < s.width := by omega
    have hlt : s.width * i + j < s.height * s.width := by
      have := Nat.mul_le_mul_left s.width (show i + 1 ≤ s.height by omega)
      rw [Nat.mul_add, Nat.mul_one, Nat.mul_comm s.width s.height] at this
      omega
    have hnum : ((s.width : Int) * i + j - 0).toNat = s.width * i + j := by
      rw [Int.sub_zero, ← Nat.cast_mul, ← Nat.cast_add, Int.toNat_natCast]
    have hat : s.cells[s.width * i + j]? = some (s.board i j + 48) := by
      rw [Board.cells, List.getElem?_map, List.getElem?_range hlt, Option.map_some, Board.cell, Nat.mul_add_div (by omega),
        Nat.mul_add_mod, Nat.div_eq_of_lt hj', Nat.mod_eq_of_lt hj', Nat.add_zero]
    have hpos : (0 : Int) ≤ (s.width : Int) * i + j := by
      rw [← Nat.cast_mul]
      omega
    rw [if_pos hpos, hnum, hat, Option.map_some, Option.getD_some] at hcell
    exact hcell.trans (UInt8.add_sub_cancel _ _)

/-- The board is sent and read back. -/
def BoardReadBack (s : Board) (heap : Bytes) (l : Locals) : Prop :=
  ∃ sd b, BoardSent s heap sd ∧ unmarshBoard sd.data l = some (some b) ∧ SameBoard s b

/-- No board is read back without a byte behind `d2` being read. If that byte
is a NUL, the boards that are read back are those of one row and the square
ones, and if not, there are none. -/
theorem board_read_back {s : Board} (h : s.Proper) (heap : Bytes) {l : Locals} (hl : l.Zeroed) :
    ¬(CatInside s ∧ BoardReadBack s heap l) ∧
      (BoardReadBack s heap l ↔ cstr heap = [] ∧ (s.rows.toInt = 1 ∨ s.rows = s.columns)) := by
  have hr := height_eq h
  have hc := width_eq h
  have hshape : s.rows.toInt = 1 ∨ s.rows = s.columns ↔ s.height = 1 ∨ s.height = s.width := by
    rw [← Int32.toInt_inj, hr, hc]
    omega
  rw [hshape]
  refine ⟨?_, ?_, ?_⟩
  · rintro ⟨⟨d2, hd2, h0⟩, sd, -, hsd, -⟩
    obtain ⟨d2', hd2', hfull, -⟩ := sent_full h hsd
    obtain rfl := Option.some.inj (hd2.symm.trans hd2')
    exact hfull h0
  · rintro ⟨sd, -, hsd, -⟩
    obtain ⟨d2, hd2, hfull, hheap⟩ := sent_full h hsd
    exact ⟨hheap, shape_of_full h hd2 hfull⟩
  · rintro ⟨hheap, hsq⟩
    obtain ⟨sd, hsd⟩ := sent_of_shape h hheap hsq
    obtain ⟨b, hb, hsame⟩ := read_sent h hl
    exact ⟨sd, b, hsd, by rw [hsd.2.1]; exact hb, hsame⟩

/-- Two rows of two cells. -/
theorem board_read_back_square : ¬(CatInside ⟨fun _ _ => 1, 2, 2⟩ ∧ BoardReadBack ⟨fun _ _ => 1, 2, 2⟩ [0] cleared) ∧
    (BoardReadBack ⟨fun _ _ => 1, 2, 2⟩ [0] cleared ↔ cstr [0] = [] ∧ ((2 : Int32).toInt = 1 ∨ (2 : Int32) = 2)) :=
  board_read_back ⟨by decide, by decide, by decide, fun _ _ _ _ => show (1 : UInt8) + 48 ≠ 0 by decide⟩ [0] zeroed_cleared

/-- Two rows of three cells, 1 to 6: the third cell is overwritten by the
fourth. Three rows of two: the last cell is written behind `d2`. And a square
board runs over `d1` when there is an 'x' behind `d2`. -/
theorem board_not_read_back :
    (marshBoard ⟨fun i j => UInt8.ofNat (3 * i + j + 1), 2, 3⟩ [0]).map StreamData.data =
      some [53, 50, 35, 51, 35, 49, 50, 52, 53, 54, 0, 0] ∧
    (marshBoard ⟨fun _ _ => 1, 3, 2⟩ [0]).map StreamData.data = none ∧
    (marshBoard ⟨fun _ _ => 1, 2, 2⟩ [120, 0]).map StreamData.data = none ∧
    ¬∀ (s : Board) (heap : Bytes) (l : Locals), s.Proper → l.Zeroed → CatInside s ∧ BoardReadBack s heap l := by
  refine ⟨rfl, rfl, rfl, fun h => ?_⟩
  have hproper : Board.Proper ⟨fun _ _ => 1, 3, 2⟩ :=
    ⟨by decide, by decide, by decide, fun _ _ _ _ => show (1 : UInt8) + 48 ≠ 0 by decide⟩
  obtain ⟨-, sd, -, ⟨hsent, -, -⟩, -⟩ := h ⟨fun _ _ => 1, 3, 2⟩ [0] cleared hproper zeroed_cleared
  have hnone : marshBoard ⟨fun _ _ => 1, 3, 2⟩ [0] = none := rfl
  cases hnone.symm.trans hsent

end Snuffin.Marshalling
