import Snuffin.GameStart
import Snuffin.Wire
/-!
# The directions of the snakes

`loadSnake` starts every snake along a row or a column. After that its
direction is whatever point its client has sent last: neither `unmarshPoint`
nor `updateMovementDirection` looks at the numbers. A snake that leaves the
board writes its mark into what lies around `bB`, the `pDir` of the first snake
among it, so the runs here stay on the board.
-/
open Lib Snuffin.Game Snuffin.Marshalling

namespace Snuffin.Game

/-- Up, down, left or right. -/
def IsUnit (p : Point) : Prop := p = ⟨0, 1⟩ ∨ p = ⟨0, -1⟩ ∨ p = ⟨1, 0⟩ ∨ p = ⟨-1, 0⟩

instance (p : Point) : Decidable (IsUnit p) := inferInstanceAs (Decidable (_ ∨ _ ∨ _ ∨ _))

/-- The points are neighbours in a row or in a column. -/
def Adjacent (p q : Point) : Prop := (q.x - p.x).natAbs + (q.y - p.y).natAbs = 1

/-- Every snake on the board is alive or lost with a unit direction, and the
cell it would enter is a neighbour of its head. -/
def Orthogonal (b : GameBoard) : Prop := ∀ i, b.pDef i ≠ -1 → IsUnit (b.pDir i) ∧ Adjacent (b.pPos i) (b.next i)

theorem IsUnit.adjacent {d : Point} (h : IsUnit d) (p : Point) : Adjacent p (p + d) := by
  unfold Adjacent
  rw [Point.add_x, Point.add_y]
  rcases h with rfl | rfl | rfl | rfl
  · simp only; omega
  · simp only; omega
  · simp only; omega
  · simp only; omega

theorem orthogonal_iff {b : GameBoard} : Orthogonal b ↔ ∀ i, b.pDef i ≠ -1 → IsUnit (b.pDir i) :=
  forall₂_congr fun i _ => ⟨fun h => h.1, fun h => ⟨h, h.adjacent (b.pPos i)⟩⟩

theorem isUnit_dirOf : ∀ i, IsUnit (dirOf i) := by decide

/-! ## What keeps them so -/

theorem turns_pDir (off : Slot → UInt8) (l : List Slot) (t : Tick) : (turns off l t).board.pDir = t.board.pDir := by
  induction l generalizing t with
  | nil => rfl
  | cons i l ih => rw [turns_cons, ih, turn_pDir]

theorem Orthogonal.loaded {b : GameBoard} (h : Orthogonal b) (n : Slot) : Orthogonal (b.loaded n) := by
  rw [orthogonal_iff] at h ⊢
  intro i hi
  by_cases hin : i = n
  · subst hin
    rw [show (b.loaded i).pDir i = dirOf i by simp [GameBoard.loaded]]
    exact isUnit_dirOf i
  · rw [show (b.loaded n).pDef i = b.pDef i by simp [GameBoard.loaded, hin]] at hi
    rw [show (b.loaded n).pDir i = b.pDir i by simp [GameBoard.loaded, hin]]
    exact h i hi

theorem Orthogonal.tick {b : GameBoard} (h : Orthogonal b) (off : Slot → UInt8) : Orthogonal (updateBoard off b).board := by
  rw [orthogonal_iff] at h ⊢
  intro i hi
  rw [updateBoard, turns_pDir]
  exact h i ((ChildServer.pDef_updateBoard off b i).1 hi)

/-- A direction keeps them so when it is a unit, or its snake is not loaded. -/
theorem Orthogonal.turn_iff {b : GameBoard} (h : Orthogonal b) (n : Slot) (p : Point) :
    Orthogonal (updateMovementDirection n p b) ↔ (b.pDef n ≠ -1 → IsUnit p) := by
  rw [orthogonal_iff] at h ⊢
  constructor
  · intro hall hn
    have hp := hall n hn
    rwa [show (updateMovementDirection n p b).pDir n = p by simp [updateMovementDirection]] at hp
  · intro hp i hi
    by_cases hin : i = n
    · subst hin
      rw [show (updateMovementDirection i p b).pDir i = p by simp [updateMovementDirection]]
      exact hp hi
    · rw [show (updateMovementDirection n p b).pDir i = b.pDir i by simp [updateMovementDirection, hin]]
      exact h i hi

end Snuffin.Game

namespace Snuffin.ChildServer

section Runs
variable {M : Type} {cd : Codec M}

/-- The board of a server, if it has one, is orthogonal. -/
def Steady (s : Round) : Prop := ∀ b, s.server.gameBoard = some b → Orthogonal b

/-- A point that is resolved for a client in MOVEMENT whose snake is loaded is
up, down, left or right. -/
def SteersUnit (cd : Codec M) (s : Round) : RoundAct M → Prop
  | .request n _ _ true d => ∀ c b p, s.server.clients n = some c → c.expecting = .movement →
      s.server.gameBoard = some b → b.pDef n ≠ -1 → cd.unmarshPoint d = some p → IsUnit p
  | _ => True

/-- A point steers the snake of its client. -/
theorem resolve_steers {db : Db} {junk : Bytes} {d : M} {n : Slot} {s s' : Server} {c : Client} {p : Point}
    (h : resolveRequest cd db junk true d n s = some s') (hc : s.clients n = some c) (he : c.expecting = .movement)
    (hp : cd.unmarshPoint d = some p) : s'.gameBoard = s.gameBoard.map (updateMovementDirection n p) := by
  rw [resolve_movement hc he] at h
  obtain rfl := Option.some.inj h
  rw [movement, hp]

/-- A step from a steady server is one to a steady server exactly when it meets
the condition. -/
theorem steady_step {s s' : Round} {a : RoundAct M} (h : Steady s) (hs : roundStep cd s a = some s') :
    Steady s' ↔ SteersUnit cd s a := by
  have hcases := round_cases hs
  cases a with
  | accept n =>
    obtain ⟨-, rfl⟩ := hcases
    exact iff_of_true h trivial
  | request n db junk res d =>
    obtain ⟨sv, hr, rfl⟩ := hcases
    constructor
    · intro h'
      cases res with
      | false => trivial
      | true =>
        intro c b p hc he hb hn hp
        have hb' := resolve_steers hr hc he hp
        dsimp only at hb'
        rw [hb, Option.map_some] at hb'
        exact ((h b hb).turn_iff n p).1 (h' _ hb') hn
    · intro hok b' hb'
      rcases resolve_board hr with hsame | ⟨c, p, hc, rfl, he, hp, hmap⟩
      · exact h b' (hsame.symm.trans hb')
      · rw [show sv.gameBoard = some b' from hb'] at hmap
        obtain ⟨b, hb, rfl⟩ := Option.map_eq_some_iff.1 hmap.symm
        exact ((h b hb).turn_iff n p).2 fun hn => hok c b p hc he hb hn hp
  | initBoard garbage =>
    obtain ⟨-, -, rfl⟩ := hcases
    refine iff_of_true (fun b hb => ?_) trivial
    obtain rfl := Option.some.inj hb
    exact fun i hi => absurd rfl hi
  | loadSnake n =>
    obtain ⟨-, ⟨-, rfl⟩ | ⟨c, b, -, hb, rfl⟩⟩ := hcases
    · exact iff_of_true h trivial
    · refine iff_of_true (fun b' hb' => ?_) trivial
      obtain rfl := Option.some.inj hb'
      exact (h b hb).loaded n
  | loaded =>
    obtain ⟨-, rfl⟩ := hcases
    exact iff_of_true h trivial
  | tick off =>
    obtain ⟨-, b, sv, hb, -, rfl⟩ := hcases
    refine iff_of_true (fun b' hb' => ?_) trivial
    obtain rfl := Option.some.inj hb'
    exact (h b hb).tick off

/-- In every run whose steps are defined the snakes go up, down, left or right,
one cell at a time, in every state exactly when all the points that steer a
loaded snake say so. -/
theorem steady_iff {tr : List (Round × RoundAct M)} {s : Round} (h : (strayMachine cd).Run Round.start tr s)
    (hdef : ∀ e ∈ tr, Defined cd e.1 e.2) :
    ((∀ e ∈ tr, Steady e.1) ∧ Steady s) ↔ ∀ e ∈ tr, SteersUnit cd e.1 e.2 := by
  apply (h.defined hdef).all_iff (P := Steady)
  · intro b hb
    cases hb
  · intro _ _ _ _ _ ht hs
    exact steady_step ht hs

end Runs

/-- The first of two players turns down once the snakes are loaded, and both
move on. -/
theorem steady_iff_turn : ∃ tr s, (strayMachine steering).Run Round.start tr s ∧ tr.length = 16 ∧
    (∀ e ∈ tr, Defined steering e.1 e.2) ∧
    (((∀ e ∈ tr, Steady e.1) ∧ Steady s) ↔ ∀ e ∈ tr, SteersUnit steering e.1 e.2) := by
  obtain ⟨tr, s, hr, hl, hdef⟩ : ∃ tr s, (roundMachine steering).Run Round.start tr s ∧ tr.length = 16 ∧
      ∀ e ∈ tr, Defined steering e.1 e.2 :=
    ⟨_, _, Machine.run_of_trace
      (l := twoReady ++ loadSnakes ++ [.request 0 trusting [] true [97], .tick fun _ => 0]) rfl, rfl, of_decide_eq_true rfl⟩
  exact ⟨tr, s, hr.undefined, hl, hdef, steady_iff hr.undefined hdef⟩

/-- Messages of the clients in some slots, in order. -/
def tells (l : List (Slot × Arrival)) : List (RoundAct Arrival) := l.map fun e => .request e.1 trusting [] (received e.2) e.2

def aName : Arrival := arrive [51, 49, 35, 97] (by decide)

def aTrue : Arrival := arrive [52, 49] (by decide)

/-- The point "155#48", which is (7, 0). -/
def aLeap : Arrival := arrive [49, 53, 53, 35, 52, 56] (by decide)

/-- Two clients log in and start a game, and the first sends (7, 0). -/
def leaping : List (RoundAct Arrival) :=
  [.accept 0, .accept 1] ++ tells [(0, aName), (0, aName), (1, aName), (1, aName), (0, aTrue), (1, aTrue)] ++
    .initBoard blank :: (List.finRange maxPlayers).map .loadSnake ++ [.loaded] ++ tells [(0, aLeap)]

/-- All its steps are defined, and the snake is to go seven cells at once. -/
theorem snake_leaps : ¬∀ s, (strayMachine (wireCodec inert)).ReachesBy (Defined (wireCodec inert)) s → Steady s := by
  intro h
  obtain ⟨s, hr, b, hb, hdef, hdir⟩ : ∃ s, (roundMachine (wireCodec inert)).ReachesBy (Defined (wireCodec inert)) s ∧
      ∃ b, s.server.gameBoard = some b ∧ b.pDef 0 = 0 ∧ b.pDir 0 = ⟨7, 0⟩ :=
    ⟨_, Machine.reachesBy_of_runActs (l := leaping) (.init rfl) rfl, _, rfl, rfl, rfl⟩
  have hu := (h s hr.undefined b hb 0 (by rw [hdef]; decide)).1
  rw [hdir] at hu
  exact absurd hu (by decide)

end Snuffin.ChildServer
