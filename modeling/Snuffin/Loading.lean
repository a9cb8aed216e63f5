import Snuffin.Directions
import Snuffin.Simultaneous
/-!
# Where loadSnake draws

The loop of `loadSnake` stops when it stands on the end point and nowhere else.
`loadPoints` is that loop with only the points it writes to; the points are
`stride`s from the start, and the first that is the end is as many as the two
points are apart.
-/

namespace Snuffin.Game

/-! ## The points of the loop -/

/-- The points the loop of `loadSnake` writes to, on the board or off it. -/
def loadPoints (start fin pDir : Point) : Nat → Point → Option (List Point)
  | 0, _ => none
  | fuel + 1, p =>
    let p := p + pDir
    if start.x + p.x ≠ fin.x ∨ start.y + p.y ≠ fin.y then (loadPoints start fin pDir fuel p).map ((start + p) :: ·)
    else some [start + p]

/-- The loop does nothing but mark them. -/
theorem loadLoop_eq (start fin pDir : Point) (m : UInt8) (fuel : Nat) (p : Point) (b : GameBoard) :
    loadLoop start fin pDir m fuel p b =
      (loadPoints start fin pDir fuel p).map fun l => l.foldl (fun b q => b.mark q m) b := by
  induction fuel generalizing p b with
  | zero => rfl
  | succ fuel ih =>
    rw [loadLoop, loadPoints]
    split
    · rw [ih, Option.map_map]
      rfl
    · rfl

/-- `k` steps from `p`. -/
def stride (p d : Point) (k : Nat) : Point := ⟨p.x + k * d.x, p.y + k * d.y⟩

@[simp] theorem stride_x (p d : Point) (k : Nat) : (stride p d k).x = p.x + k * d.x := rfl

@[simp] theorem stride_y (p d : Point) (k : Nat) : (stride p d k).y = p.y + k * d.y := rfl

theorem stride_succ (p d : Point) (k : Nat) : stride p d (k + 1) = stride (p + d) d k := by
  have hx : p.x + (k + 1 : Nat) * d.x = p.x + d.x + k * d.x := by
    rw [Nat.cast_add, Nat.cast_one, add_mul, one_mul]; omega
  have hy : p.y + (k + 1 : Nat) * d.y = p.y + d.y + k * d.y := by
    rw [Nat.cast_add, Nat.cast_one, add_mul, one_mul]; omega
  exact congrArg₂ Point.mk hx hy

theorem stride_zero (p d : Point) : stride p d 0 = p := by
  simp [stride]

theorem add_stride (start p d : Point) : start + (p + d) = stride (start + p) d 1 := by
  rw [stride_succ, stride_zero]
  exact congrArg₂ Point.mk (Int.add_assoc ..).symm (Int.add_assoc ..).symm

/-- With a unit direction no two strides from a point end in one place. -/
theorem stride_inj {p d : Point} (hd : IsUnit d) {j k : Nat} (hx : (stride p d j).x = (stride p d k).x)
    (hy : (stride p d j).y = (stride p d k).y) : j = k := by
  rw [stride_x, stride_x] at hx
  rw [stride_y, stride_y] at hy
  rcases hd with rfl | rfl | rfl | rfl
  · simp only at hy; omega
  · simp only at hy; omega
  · simp only at hx; omega
  · simp only at hx; omega

/-- The loop stops in the round whose stride ends in the end point. -/
theorem loadPoints_eq (start : Point) {d : Point} (hd : IsUnit d) {n fuel : Nat} {p : Point} (hfuel : n < fuel) :
    loadPoints start (stride (start + p) d (n + 1)) d fuel p =
      some ((List.range (n + 1)).map fun k => stride (start + p) d (k + 1)) := by
  induction n generalizing fuel p with
  | zero =>
    obtain ⟨fuel, rfl⟩ : ∃ f, fuel = f + 1 := ⟨fuel - 1, by omega⟩
    rw [loadPoints, ← add_stride]
    rw [if_neg (by simp)]
    rw [add_stride]
    rfl
  | succ n ih =>
    obtain ⟨fuel, rfl⟩ : ∃ f, fuel = f + 1 := ⟨fuel - 1, by omega⟩
    have hstart : start + p + d = start + (p + d) := by rw [add_stride, stride_succ, stride_zero]
    have hnot : start.x + (p + d).x ≠ (stride (start + p) d (n + 2)).x ∨
        start.y + (p + d).y ≠ (stride (start + p) d (n + 2)).y := by
      by_contra hc
      rw [not_or, not_not, not_not] at hc
      have h1 := add_stride start p d
      have := stride_inj (p := start + p) hd (j := 1) (k := n + 2) ((congrArg Point.x h1).symm.trans hc.1)
        ((congrArg Point.y h1).symm.trans hc.2)
      omega
    have hrange : (List.range (n + 2)).map (fun k => stride (start + p) d (k + 1)) =
        (start + (p + d)) :: (List.range (n + 1)).map fun k => stride (start + (p + d)) d (k + 1) := by
      rw [List.range_succ_eq_map, List.map_cons, List.map_map]
      refine congrArg₂ List.cons (add_stride start p d).symm (List.map_congr_left fun k _ => ?_)
      rw [Function.comp_apply, Nat.succ_eq_add_one, stride_succ (start + p) d (k + 1), hstart]
    rw [loadPoints, if_pos hnot, hrange, stride_succ, hstart, ih (by omega), Option.map_some]

/-! ## The segment -/

/-- `r` stands between `p` and `q`, which share a row or a column, or is one of
them. -/
def OnSegment (p q r : Point) : Prop :=
  min p.x q.x ≤ r.x ∧ r.x ≤ max p.x q.x ∧ min p.y q.y ≤ r.y ∧ r.y ≤ max p.y q.y

instance (p q r : Point) : Decidable (OnSegment p q r) := inferInstanceAs (Decidable (_ ∧ _))

/-- The point whose indices name a cell. -/
def pointOf (c : Cell) : Point := ⟨c.2.val, c.1.val⟩

theorem cellAt_pointOf (c : Cell) : cellAt (pointOf c) = some c := by
  obtain ⟨⟨y, hy⟩, ⟨x, hx⟩⟩ := c
  exact dif_pos ⟨by simp [pointOf], by simp [pointOf, hy], by simp [pointOf], by simp [pointOf, hx]⟩

/-- A segment stays on the board with its ends. -/
theorem OnSegment.onBoard {p q r : Point} (h : OnSegment p q r) (hp : outOfBoard p = false) (hq : outOfBoard q = false) :
    outOfBoard r = false := by
  simp only [outOfBoard, Bool.or_eq_false_iff, decide_eq_false_iff_not] at hp hq ⊢
  unfold OnSegment at h
  omega

/-- The direction `loadSnake` chooses between two points in a row or a column. -/
theorem loadDir_cases {start fin : Point} (hne : start ≠ fin) (ha : start.x = fin.x ∨ start.y = fin.y) :
    (start.x = fin.x ∧ start.y < fin.y ∧ loadDir start fin = ⟨0, 1⟩) ∨
    (start.x = fin.x ∧ fin.y < start.y ∧ loadDir start fin = ⟨0, -1⟩) ∨
    (start.x < fin.x ∧ start.y = fin.y ∧ loadDir start fin = ⟨1, 0⟩) ∨
    (fin.x < start.x ∧ start.y = fin.y ∧ loadDir start fin = ⟨-1, 0⟩) := by
  unfold loadDir
  by_cases hx : start.x = fin.x
  · have hy : start.y ≠ fin.y := fun hy => hne (congrArg₂ Point.mk hx hy)
    rw [if_pos hx]
    by_cases hlt : start.y < fin.y
    · exact .inl ⟨hx, hlt, if_pos hlt⟩
    · exact .inr (.inl ⟨hx, by omega, if_neg hlt⟩)
  · have hy := ha.resolve_left hx
    rw [if_neg hx, if_pos hy]
    by_cases hlt : start.x < fin.x
    · exact .inr (.inr (.inl ⟨hlt, hy, if_pos hlt⟩))
    · exact .inr (.inr (.inr ⟨by omega, hy, if_neg hlt⟩))

section Aligned
variable {start fin : Point} (hne : start ≠ fin) (ha : start.x = fin.x ∨ start.y = fin.y)
include hne ha

theorem isUnit_loadDir : IsUnit (loadDir start fin) := by
  rcases loadDir_cases hne ha with ⟨-, -, h⟩ | ⟨-, -, h⟩ | ⟨-, -, h⟩ | ⟨-, -, h⟩
  · exact .inl h
  · exact .inr (.inl h)
  · exact .inr (.inr (.inl h))
  · exact .inr (.inr (.inr h))

theorem loadDir_eq_sign : loadDir start fin = ⟨(fin.x - start.x).sign, (fin.y - start.y).sign⟩ := by
  rcases loadDir_cases hne ha with ⟨hx, hy, h⟩ | ⟨hx, hy, h⟩ | ⟨hx, hy, h⟩ | ⟨hx, hy, h⟩
  · rw [h, hx, Int.sub_self, Int.sign_zero, Int.sign_eq_one_of_pos (by omega)]
  · rw [h, hx, Int.sub_self, Int.sign_zero, Int.sign_eq_neg_one_of_neg (by omega)]
  · rw [h, hy, Int.sub_self, Int.sign_zero, Int.sign_eq_one_of_pos (by omega)]
  · rw [h, hy, Int.sub_self, Int.sign_zero, Int.sign_eq_neg_one_of_neg (by omega)]

/-- It leads to the end point. -/
theorem stride_loadDir : ∃ n, fin = stride start (loadDir start fin) (n + 1) := by
  refine ⟨(fin.x - start.x).natAbs + (fin.y - start.y).natAbs - 1, ?_⟩
  apply congrArg₂ Point.mk
  · rcases loadDir_cases hne ha with ⟨hx, hy, h⟩ | ⟨hx, hy, h⟩ | ⟨hx, hy, h⟩ | ⟨hx, hy, h⟩ <;>
      simp only [h] <;> omega
  · rcases loadDir_cases hne ha with ⟨hx, hy, h⟩ | ⟨hx, hy, h⟩ | ⟨hx, hy, h⟩ | ⟨hx, hy, h⟩ <;>
      simp only [h] <;> omega

end Aligned

/-- The strides end on all of the segment but its start. -/
theorem mem_strides {start d q : Point} (hd : IsUnit d) {n : Nat} :
    q ∈ ((List.range (n + 1)).map fun k => stride start d (k + 1)) ↔
      OnSegment start (stride start d (n + 1)) q ∧ q ≠ start := by
  obtain ⟨sx, sy⟩ := start
  obtain ⟨qx, qy⟩ := q
  rw [List.mem_map]
  simp only [List.mem_range, stride, OnSegment, ne_eq, Point.mk.injEq, not_and]
  constructor
  · rintro ⟨k, hk, rfl, rfl⟩
    rcases hd with rfl | rfl | rfl | rfl
    · simp only; omega
    · simp only; omega
    · simp only; omega
    · simp only; omega
  · rintro ⟨hseg, hq⟩
    refine ⟨(qx - sx).natAbs + (qy - sy).natAbs - 1, ?_⟩
    rcases hd with rfl | rfl | rfl | rfl
    · simp only at hseg ⊢; omega
    · simp only at hseg ⊢; omega
    · simp only at hseg ⊢; omega
    · simp only at hseg ⊢; omega

/-! ## The snake -/

/-- Marking points of the board. -/
theorem foldl_mark {l : List Point} (hl : ∀ p ∈ l, outOfBoard p = false) (m : UInt8) (b : GameBoard) :
    l.foldl (fun b q => b.mark q m) b = b.markCells (l.filterMap cellAt) m := by
  induction l generalizing b with
  | nil => rfl
  | cons p l ih =>
    obtain ⟨c, hc⟩ := Option.isSome_iff_exists.1 (cellAt_isSome.2 (hl p List.mem_cons_self))
    rw [List.foldl_cons, mark_of_cellAt m hc, List.filterMap_cons_some hc, ih fun q hq => hl q (List.mem_cons_of_mem _ hq)]
    rfl

theorem mem_filterMap_cellAt {l : List Point} {c : Cell} : c ∈ l.filterMap cellAt ↔ pointOf c ∈ l := by
  rw [List.mem_filterMap]
  constructor
  · rintro ⟨p, hp, hc⟩
    rwa [cellAt_inj (cellAt_pointOf c) hc]
  · intro hp
    exact ⟨pointOf c, hp, cellAt_pointOf c⟩

theorem markCells_slots (l : List Cell) (m : UInt8) (b : GameBoard) :
    (b.markCells l m).pPos = b.pPos ∧ (b.markCells l m).pDir = b.pDir ∧ (b.markCells l m).pDef = b.pDef := by
  induction l generalizing b with
  | nil => exact ⟨rfl, rfl, rfl⟩
  | cons c l ih => exact ih (b.markCell c m)

/-- Between two points of the board in one row or column `loadSnake` ends: it
writes to the segment without its start and nowhere else, and the snake it
leaves is alive, stands on the end and looks away from the start. -/
theorem loadSnake_segment {start fin : Point} (hstart : outOfBoard start = false) (hfin : outOfBoard fin = false)
    (hne : start ≠ fin) (ha : start.x = fin.x ∨ start.y = fin.y) (i : Slot) (b : GameBoard) :
    ∃ rounds points b',
      (∀ fuel ≥ rounds, loadPoints start fin (loadDir start fin) fuel ⟨0, 0⟩ = some points ∧
        loadSnake fuel start fin i b = some b') ∧
      (∀ p, p ∈ points ↔ OnSegment start fin p ∧ p ≠ start) ∧ (∀ p ∈ points, outOfBoard p = false) ∧
      (∀ c, b'.bB c = (if OnSegment start fin (pointOf c) ∧ pointOf c ≠ start then tailChar else b.bB c) ∧
        b'.gB c = if OnSegment start fin (pointOf c) ∧ pointOf c ≠ start then slotMark i else b.gB c) ∧
      b'.pPos = Function.update b.pPos i fin ∧
      b'.pDir = Function.update b.pDir i ⟨(fin.x - start.x).sign, (fin.y - start.y).sign⟩ ∧
      b'.pDef = Function.update b.pDef i 0 := by
  have hunit := isUnit_loadDir hne ha
  obtain ⟨n, hn⟩ := stride_loadDir hne ha
  have h0 : start + ⟨0, 0⟩ = start := congrArg₂ Point.mk (Int.add_zero _) (Int.add_zero _)
  have hpoints : ∀ fuel ≥ n + 1, loadPoints start fin (loadDir start fin) fuel ⟨0, 0⟩ =
      some ((List.range (n + 1)).map fun k => stride start (loadDir start fin) (k + 1)) := by
    intro fuel hf
    have h := loadPoints_eq start (p := ⟨0, 0⟩) hunit hf
    rwa [h0, ← hn] at h
  have hmem : ∀ p, p ∈ ((List.range (n + 1)).map fun k => stride start (loadDir start fin) (k + 1)) ↔
      OnSegment start fin p ∧ p ≠ start := by
    intro p
    rw [mem_strides hunit, ← hn]
  have hon : ∀ p ∈ ((List.range (n + 1)).map fun k => stride start (loadDir start fin) (k + 1)),
      outOfBoard p = false := fun p hp => ((hmem p).1 hp).1.onBoard hstart hfin
  generalize (List.range (n + 1)).map (fun k => stride start (loadDir start fin) (k + 1)) = points at hpoints hmem hon
  obtain ⟨hpos, hdir, hdef⟩ := markCells_slots (points.filterMap cellAt) (slotMark i) b
  refine ⟨n + 1, points,
    { b.markCells (points.filterMap cellAt) (slotMark i) with
      pPos := Function.update b.pPos i fin
      pDir := Function.update b.pDir i (loadDir start fin)
      pDef := Function.update b.pDef i 0 }, fun fuel hf => ⟨hpoints fuel hf, ?_⟩, hmem, hon, fun c => ?_, rfl, ?_, rfl⟩
  · rw [loadSnake, loadLoop_eq, hpoints fuel hf, Option.map_some, Option.map_some, foldl_mark hon, hpos, hdir, hdef]
  · obtain ⟨hb, hg⟩ := markCells_at b (points.filterMap cellAt) (slotMark i) c
    simp only [mem_filterMap_cellAt, hmem] at hb hg
    exact ⟨hb, hg⟩
  · rw [← loadDir_eq_sign hne ha]

/-- The snake of the first slot, from (19, 10) to (15, 10). -/
theorem loadSnake_segment_first : ∃ rounds points b',
    (∀ fuel ≥ rounds, loadPoints ⟨19, 10⟩ ⟨15, 10⟩ (loadDir ⟨19, 10⟩ ⟨15, 10⟩) fuel ⟨0, 0⟩ = some points ∧
      loadSnake fuel ⟨19, 10⟩ ⟨15, 10⟩ 0 blank = some b') ∧
    (∀ p, p ∈ points ↔ OnSegment ⟨19, 10⟩ ⟨15, 10⟩ p ∧ p ≠ ⟨19, 10⟩) := by
  have hstart : outOfBoard ⟨19, 10⟩ = false := rfl
  have hfin : outOfBoard ⟨15, 10⟩ = false := rfl
  obtain ⟨rounds, points, b', h, hmem, -⟩ := loadSnake_segment hstart hfin (by decide) (.inr rfl) 0 blank
  exact ⟨rounds, points, b', h, hmem⟩

end Snuffin.Game
