import Snuffin.Loading
import Snuffin.Lib.Trails
/-!
# Snakes as trails

What a game is for its players: each draws a trail on the board, and who would
run into a trail is lost. `Traces` says that a board shows the trails of such a
game, and as long as the snakes stay on the board every step of the server
keeps it, whoever connects, sends and leaves.
-/
open Lib Snuffin.Game

namespace Snuffin.Game

/-! ## Boards and trails -/

/-- The cell `c` is next to `d`, in its row or its column. -/
def Beside (c d : Cell) : Prop := Adjacent (pointOf d) (pointOf c)

instance (c d : Cell) : Decidable (Beside c d) := inferInstanceAs (Decidable (_ = 1))

/-- The order of the turns in `updateBoard`. -/
abbrev slots : List Slot := List.finRange maxPlayers

/-- The games of trails with the slots as players. -/
abbrev trailGame : Machine (Trails Slot Cell) (Trails.Act Slot Cell) := Trails.machine Beside slots

/-- The grids show the trails. -/
structure Painted (b : GameBoard) (T : Trails Slot Cell) : Prop where
  mark : ∀ c i, b.gB c = slotMark i ↔ c ∈ T.trail i
  tail : ∀ c, b.bB c = tailChar ↔ ∃ i, c ∈ T.trail i
  owner : ∀ c, b.gB c ≠ 0 → ∃ i, c ∈ T.trail i

/-- The board shows the game of trails: the heads are the ends of the trails. -/
structure Traces (b : GameBoard) (T : Trails Slot Cell) : Prop extends Painted b T where
  head : ∀ i c, (T.trail i).head? = some c → b.pPos i = pointOf c
  alive : ∀ i, b.pDef i = 0 ↔ T.alive i
  absent : ∀ i, b.pDef i = -1 ↔ T.trail i = []

def corner : Cell := ⟨⟨0, Nat.zero_lt_succ 19⟩, ⟨0, Nat.zero_lt_succ 19⟩⟩

/-- The cell that snake `i` goes for, on the board. -/
def target (b : GameBoard) (i : Slot) : Cell := (cellAt (b.next i)).getD corner

theorem cellAt_eq_some {p : Point} {c : Cell} : cellAt p = some c ↔ p = pointOf c := by
  constructor
  · intro h
    exact cellAt_inj h (cellAt_pointOf c)
  · rintro rfl
    exact cellAt_pointOf c

theorem target_eq {b : GameBoard} {i : Slot} {c : Cell} (h : cellAt (b.next i) = some c) : target b i = c := by
  rw [target, h, Option.getD_some]

/-- A trail that is not empty has a head, and the snake's head is there. -/
theorem Traces.exists_head {b : GameBoard} {T : Trails Slot Cell} (h : Traces b T) {i : Slot} (hi : T.trail i ≠ []) :
    ∃ c, (T.trail i).head? = some c ∧ cellAt (b.pPos i) = some c := by
  obtain ⟨c, hc⟩ := Option.isSome_iff_exists.1 (List.isSome_head?.2 hi)
  exact ⟨c, hc, cellAt_eq_some.2 (h.head i c hc)⟩

theorem Traces.trail_ne_nil {b : GameBoard} {T : Trails Slot Cell} (h : Traces b T) {i : Slot} (hi : b.pDef i = 0) :
    T.trail i ≠ [] := by
  intro he
  rw [← h.absent i, hi] at he
  cases he

/-- A board with the same grids, heads and flags shows the same trails. -/
theorem Traces.congr {b b' : GameBoard} {T : Trails Slot Cell} (h : Traces b T) (hb : b'.bB = b.bB) (hg : b'.gB = b.gB)
    (hp : b'.pPos = b.pPos) (hd : b'.pDef = b.pDef) : Traces b' T where
  mark := hg ▸ h.mark
  tail := hb ▸ h.tail
  owner := hg ▸ h.owner
  head := hp ▸ h.head
  alive := hd ▸ h.alive
  absent := hd ▸ h.absent

theorem traces_initBoard (b : GameBoard) : Traces (initBoard b) .empty where
  mark c i := by simp [initBoard, Trails.empty, (slotMark_ne_zero i).symm]
  tail c := by simp [initBoard, Trails.empty, tailChar]
  owner c h := absurd rfl h
  head i c h := by simp [Trails.empty] at h
  alive i := by simp [initBoard, Trails.empty]
  absent i := by simp [initBoard, Trails.empty]

/-- Cells that a board marks for a snake are new cells of its trail. -/
theorem Painted.extend {b b' : GameBoard} {T : Trails Slot Cell} (h : Painted b T) {i : Slot} {l : List Cell}
    {hl : l.Nodup} {hf : ∀ c ∈ l, T.Free c} (hg : ∀ c, b'.gB c = if c ∈ l then slotMark i else b.gB c)
    (hb : ∀ c, b'.bB c = if c ∈ l then tailChar else b.bB c) : Painted b' (T.extend i l hl hf) := by
  refine ⟨fun c j => ?_, fun c => ?_, fun c hc => ?_⟩
  · rw [hg, Trails.mem_extend]
    by_cases hc : c ∈ l
    · rw [if_pos hc, slotMark_inj, or_iff_left (hf c hc j), eq_comm, and_iff_left hc]
    · rw [if_neg hc, h.mark, or_iff_right fun hand => hc hand.2]
  · rw [hb]
    by_cases hc : c ∈ l
    · rw [if_pos hc]
      exact iff_of_true rfl ⟨i, Trails.mem_extend.2 (.inl ⟨rfl, hc⟩)⟩
    · rw [if_neg hc, h.tail]
      apply exists_congr
      intro j
      rw [Trails.mem_extend, or_iff_right fun hand => hc hand.2]
  · rw [hg] at hc
    by_cases hcl : c ∈ l
    · exact ⟨i, Trails.mem_extend.2 (.inl ⟨rfl, hcl⟩)⟩
    · rw [if_neg hcl] at hc
      obtain ⟨j, hj⟩ := h.owner c hc
      exact ⟨j, Trails.mem_extend.2 (.inr hj)⟩

/-! ## A tick -/

theorem Traces.lose {t : Tick} {T : Trails Slot Cell} (h : Traces t.board T) {i : Slot} (hd : t.board.pDef i = 0) :
    Traces (t.lose i).board (T.lose i) := by
  refine ⟨⟨h.mark, h.tail, h.owner⟩, h.head, fun j => ?_, fun j => ?_⟩
  · by_cases hj : j = i
    · subst hj; simp [Tick.lose, Trails.lose]
    · simpa [Tick.lose, Trails.lose, hj] using h.alive j
  · by_cases hj : j = i
    · subst hj; simpa [Tick.lose, Trails.lose] using h.trail_ne_nil hd
    · simpa [Tick.lose, Trails.lose, hj] using h.absent j

theorem Traces.advance {t : Tick} {T : Trails Slot Cell} (h : Traces t.board T) {i : Slot} (hd : t.board.pDef i = 0)
    {c : Cell} (hc : cellAt (t.board.next i) = some c) (hl : [c].Nodup) (hf : ∀ d ∈ [c], T.Free d) :
    Traces (t.advance i).board (T.extend i [c] hl hf) := by
  obtain ⟨hg, hb⟩ := advance_grids hc
  have hpos : (t.advance i).board.pPos = Function.update t.board.pPos i (t.board.next i) := rfl
  have hdef : (t.advance i).board.pDef = t.board.pDef := by simp [Tick.advance]
  refine ⟨h.toPainted.extend (fun d => ?_) (fun d => ?_), fun j d hj => ?_, fun j => ?_, fun j => ?_⟩
  · rw [hg, Function.update_apply]
    simp
  · rw [hb, Function.update_apply]
    simp
  · rw [hpos]
    by_cases hji : j = i
    · subst hji
      obtain rfl : c = d := by simpa [Trails.extend] using hj
      rw [Function.update_self]
      exact cellAt_eq_some.1 hc
    · rw [Function.update_of_ne hji]
      exact h.head j d (by simpa [Trails.extend, hji] using hj)
  · rw [hdef]
    exact h.alive j
  · rw [hdef]
    by_cases hji : j = i
    · subst hji
      rw [hd]
      simp [Trails.extend]
    · simpa [Trails.extend, hji] using h.absent j

/-- A turn on the board is a turn in the game of trails. -/
theorem Traces.turn {t : Tick} {T : Trails Slot Cell} (h : Traces t.board T) (off : UInt8) {i : Slot} {c : Cell}
    (hc : t.board.pDef i = 0 → cellAt (t.board.next i) = some c) : Traces (turn off t i).board (T.turn i c) := by
  rcases turn_cases off t i with ⟨hd, e⟩ | ⟨hd, hl, e⟩ | ⟨hd, hr, -, e⟩ <;> rw [e]
  · rw [Trails.turn_out (mt (h.alive i).2 hd)]
    exact h
  · obtain ⟨d, -, hhead⟩ := h.exists_head (h.trail_ne_nil hd)
    have hin : outOfBoard (t.board.pPos i) = false := by rw [← cellAt_isSome, hhead]; rfl
    rw [readB_of_cellAt _ (hc hd), hin, h.tail] at hl
    obtain ⟨j, hj⟩ := hl.resolve_right Bool.false_ne_true
    rw [Trails.turn_lost ((h.alive i).1 hd) fun hf => hf j hj]
    exact h.lose hd
  · rw [readB_of_cellAt _ (hc hd), Ne, h.tail] at hr
    have hfree : T.Free c := fun j hj => hr ⟨j, hj⟩
    rw [Trails.turn_enters ((h.alive i).1 hd) hfree]
    exact h.advance hd (hc hd) _ _

theorem Traces.turns {t : Tick} {T : Trails Slot Cell} (h : Traces t.board T) (off : Slot → UInt8) {l : List Slot}
    (hn : l.Nodup) {cell : Slot → Cell} (hc : ∀ i ∈ l, t.board.pDef i = 0 → cellAt (t.board.next i) = some (cell i)) :
    Traces (turns off l t).board (T.round cell l) := by
  induction l generalizing t T with
  | nil => exact h
  | cons i l ih =>
    rw [List.nodup_cons] at hn
    rw [turns_cons, Trails.round_cons]
    apply ih (h.turn (off i) (hc i List.mem_cons_self)) hn.2
    intro j hj
    obtain ⟨hd, -, hnext⟩ := turn_other (off i) t (show j ≠ i by rintro rfl; exact hn.1 hj)
    rw [hd, hnext]
    exact hc j (List.mem_cons_of_mem _ hj)

/-- A tick with all next cells on the board is a round of the game of trails. -/
theorem Traces.tick {b : GameBoard} {T : Trails Slot Cell} (h : Traces b T) (off : Slot → UInt8) (hon : NextOnBoard b) :
    Traces (updateBoard off b).board (T.round (target b) slots) := by
  apply Traces.turns (t := ⟨b, [], []⟩) h off (List.nodup_finRange _)
  intro i _ hd
  obtain ⟨c, hc⟩ := Option.isSome_iff_exists.1 (hon i hd)
  rw [target_eq hc]
  exact hc

/-! ## Loading -/

theorem nodup_body : ∀ i, (body i).reverse.Nodup := by decide

theorem isChain_body : ∀ i, (body i).reverse.IsChain Beside := by decide

theorem head_body : ∀ i, (body i).reverse.head?.map pointOf = some (headOf i) := by decide

/-- A snake that is loaded joins the game of trails. -/
theorem Traces.loaded {b : GameBoard} {T : Trails Slot Cell} (h : Traces b T) {n : Slot} (hn : T.trail n = [])
    (hf : ∀ c ∈ (body n).reverse, T.Free c) : Traces (b.loaded n) (T.join n (body n).reverse (nodup_body n) hf) := by
  have hgrid := fun c => markCells_at b (body n) (slotMark n) c
  have hpaint : Painted (b.loaded n) (T.extend n (body n).reverse (nodup_body n) hf) :=
    h.toPainted.extend (fun c => (hgrid c).2.trans (by simp only [List.mem_reverse]))
      fun c => (hgrid c).1.trans (by simp only [List.mem_reverse])
  refine ⟨⟨hpaint.mark, hpaint.tail, hpaint.owner⟩, fun j c hj => ?_, fun j => ?_, fun j => ?_⟩
  · by_cases hjn : j = n
    · subst hjn
      have hhead : (body j).reverse.head? = some c := by simpa [Trails.join, Trails.extend, hn] using hj
      rw [show (b.loaded j).pPos j = headOf j by simp [GameBoard.loaded]]
      have hpoint := head_body j
      rw [hhead, Option.map_some, Option.some.injEq] at hpoint
      exact hpoint.symm
    · rw [show (b.loaded n).pPos j = b.pPos j by simp [GameBoard.loaded, hjn]]
      exact h.head j c (by simpa [Trails.join, Trails.extend, hjn] using hj)
  · by_cases hjn : j = n
    · subst hjn; simp [GameBoard.loaded, Trails.join]
    · simpa [GameBoard.loaded, Trails.join, hjn] using h.alive j
  · by_cases hjn : j = n
    · subst hjn
      have hbody : body j ≠ [] := by
        intro he
        have hcard := body_card j
        rw [he] at hcard
        cases hcard
      simp [GameBoard.loaded, Trails.join, Trails.extend, hbody]
    · simpa [GameBoard.loaded, Trails.join, Trails.extend, hjn] using h.absent j

end Snuffin.Game

namespace Snuffin.ChildServer

section Runs
variable {M : Type} {cd : Codec M}

/-! ## The server -/

/-- The snakes are steered up, down, left and right, and stay on the board. -/
def Rides (cd : Codec M) (s : Round) (a : RoundAct M) : Prop := SteersUnit cd s a ∧ StaysOn s a

/-- The same of a step of the server in C, in which every point finds the snake
of its client. -/
def Tame (cd : Codec M) (s : Round) (a : RoundAct M) : Prop := SteersUnit cd s a ∧ Defined cd s a

theorem Tame.rides {s : Round} {a : RoundAct M} (h : Tame cd s a) : Rides cd s a := ⟨h.1, h.2.1⟩

/-- Runs of the server in C that are tame are runs of the model. -/
theorem rides_reaches {s : Round} (h : (strayMachine cd).ReachesBy (Tame cd) s) : (roundMachine cd).ReachesBy (Rides cd) s :=
  (h.defined fun _ _ ha => ha.2).mono fun _ _ => Tame.rides

/-- The server shows a game of trails: no trails before `initGame` has a board,
and then those on it. Each trail begins with the cells of `loadSnake`, and is
no longer until all snakes are loaded. -/
structure Shows (s : Round) (T : Trails Slot Cell) : Prop where
  empty : s.phase = .lobby → T = .empty
  board : s.phase ≠ .lobby → ∃ b, s.server.gameBoard = some b ∧ Traces b T
  body : ∀ i, T.trail i ≠ [] → (body i).reverse <:+ T.trail i
  loading : ∀ k, s.phase = .loading k → ∀ i, T.trail i ≠ [] → T.trail i = (Game.body i).reverse

theorem steady_reaches {s : Round} (h : (roundMachine cd).ReachesBy (Rides cd) s) : Steady s := by
  apply h.inv (I := Steady)
  · intro s hs b hb
    rw [show s = Round.start from hs] at hb
    cases hb
  · intro _ _ _ hi hok hs
    exact (steady_step hi hs).2 hok.1

/-- The slot whose snake is loaded next has no trail. -/
theorem trail_next {s : Round} {n : Slot} (hb : BoardInv s) (hp : s.phase = .loading n.val) {b : GameBoard}
    (hbs : s.server.gameBoard = some b) {T : Trails Slot Cell} (h : Traces b T) : T.trail n = [] := by
  rw [← h.absent n]
  obtain ⟨b', hb', hi⟩ := hb.board (by simp [hp])
  obtain rfl := Option.some.inj (hbs.symm.trans hb')
  by_contra hn
  obtain ⟨con, hcon⟩ := (hi n).1 hn
  have hlt := hb.passed _ hcon
  rw [hp] at hlt
  exact Nat.lt_irrefl _ hlt

/-- Steered up, down, left or right, a snake goes for a cell next to its head. -/
theorem target_beside {b : GameBoard} {T : Trails Slot Cell} (h : Traces b T) (ho : Orthogonal b) (hon : NextOnBoard b)
    {i : Slot} {c : Cell} (ha : T.alive i) (hc : (T.trail i).head? = some c) : Beside (target b i) c := by
  have hd := (h.alive i).2 ha
  obtain ⟨d, hnext⟩ := Option.isSome_iff_exists.1 (hon i hd)
  have hadj := (ho i (by rw [hd]; decide)).2
  rw [h.head i c hc, cellAt_eq_some.1 hnext] at hadj
  rw [target_eq hnext]
  exact hadj

/-- A snake that is loaded has its own cells only, and its player joins. -/
theorem shows_loadSnake {s : Round} {n : Slot} {b : GameBoard} {T : Trails Slot Cell} (hinv : BoardInv s)
    (hp : s.phase = .loading n.val) (hb : s.server.gameBoard = some b) (h : Shows s T) (ht : Traces b T) :
    ∃ T', trailGame.step T (.join n (body n).reverse) T' ∧ Traces (b.loaded n) T' ∧
      ∀ i, T'.trail i ≠ [] → T'.trail i = (body i).reverse := by
  have hn := trail_next hinv hp hb ht
  have hf : ∀ c ∈ (body n).reverse, T.Free c := by
    intro c hc j hj
    have hbody := h.loading _ hp j (List.ne_nil_of_mem hj)
    rw [hbody, List.mem_reverse] at hj
    obtain rfl := body_disjoint j n c hj (List.mem_reverse.1 hc)
    rw [hn] at hbody
    exact absurd (List.reverse_eq_nil_iff.1 hbody.symm) (List.ne_nil_of_mem hj)
  refine ⟨_, ⟨hn, isChain_body n, nodup_body n, hf, rfl⟩, ht.loaded hn hf, ?_⟩
  intro i hi
  by_cases hin : i = n
  · subst hin
    simp [Trails.join, Trails.extend, hn]
  · simp only [Trails.join, Trails.extend, Function.update_of_ne hin] at hi ⊢
    exact h.loading _ hp i hi

/-- Loading a snake lets its player join, a tick is a round, and the game of
trails has nothing to do with the other steps. -/
theorem shows_step {s s' : Round} {a : RoundAct M} {T : Trails Slot Cell} (hinv : BoardInv s) (hst : Steady s)
    (h : Shows s T) (hok : StaysOn s a) (hs : roundStep cd s a = some s') : ∃ T', Shows s' T' ∧ match a with
      | .loadSnake n => T' = T ∨ trailGame.step T (.join n (body n).reverse) T'
      | .tick _ => ∃ b, s.server.gameBoard = some b ∧ trailGame.step T (.round (target b)) T'
      | _ => T' = T := by
  have hcases := round_cases hs
  cases a with
  | accept n =>
    obtain ⟨-, rfl⟩ := hcases
    exact ⟨T, ⟨h.empty, h.board, h.body, h.loading⟩, rfl⟩
  | request n db junk res d =>
    obtain ⟨sv, hr, rfl⟩ := hcases
    refine ⟨T, ⟨h.empty, fun hp => ?_, h.body, h.loading⟩, rfl⟩
    obtain ⟨b, hb, ht⟩ := h.board hp
    rcases resolve_board hr with hsame | ⟨c, p, -, -, -, -, hmap⟩
    · exact ⟨b, hsame.trans hb, ht⟩
    · -- A direction changes nothing that the trails show.
      dsimp only at hmap
      rw [hb, Option.map_some] at hmap
      exact ⟨_, hmap, ht.congr rfl rfl rfl rfl⟩
  | initBoard garbage =>
    obtain ⟨hp, -, rfl⟩ := hcases
    obtain rfl := h.empty hp
    exact ⟨.empty, ⟨fun _ => rfl, fun _ => ⟨_, rfl, traces_initBoard garbage⟩, h.body, fun _ _ i hi => absurd rfl hi⟩, rfl⟩
  | loadSnake n =>
    obtain ⟨hp, hcases⟩ := hcases
    obtain ⟨b, hb, ht⟩ := h.board (by simp [hp])
    obtain ⟨-, rfl⟩ | ⟨c, b', -, hb', rfl⟩ := hcases
    · exact ⟨T, ⟨fun hl => (by cases hl), fun _ => ⟨b, hb, ht⟩, h.body, fun _ _ => h.loading _ hp⟩, .inl rfl⟩
    · obtain rfl := Option.some.inj (hb.symm.trans hb')
      obtain ⟨T', hT', ht', hload⟩ := shows_loadSnake hinv hp hb h ht
      refine ⟨T', ⟨fun hl => (by cases hl), fun _ => ⟨_, rfl, ht'⟩, fun i hi => ?_, fun _ _ => hload⟩, .inr hT'⟩
      rw [hload i hi]
  | loaded =>
    obtain ⟨hp, rfl⟩ := hcases
    exact ⟨T, ⟨fun hl => (by cases hl), fun _ => h.board (by simp [hp]), h.body, fun _ hl => (by cases hl)⟩, rfl⟩
  | tick off =>
    obtain ⟨hp, b', sv, hb', -, rfl⟩ := hcases
    obtain ⟨b, hb, ht⟩ := h.board (by simp [hp])
    obtain rfl := Option.some.inj (hb.symm.trans hb')
    have hon := hok b hb
    have hbeside : ∀ i c, T.alive i → (T.trail i).head? = some c → Beside (target b i) c :=
      fun i c => target_beside ht (hst b hb) hon
    have ht' := ht.tick off hon
    refine ⟨_, ⟨fun hl => ?_, fun _ => ⟨_, rfl, ht'⟩, fun i hi => ?_, fun k hl => ?_⟩, b, hb, hbeside, rfl⟩
    · dsimp only at hl
      split at hl <;> cases hl
    · rw [Ne, ← ht'.absent i, ← Ne, pDef_updateBoard, Ne, ht.absent i] at hi
      exact (h.body i hi).trans (T.suffix_round (target b) slots i)
    · dsimp only at hl
      split at hl <;> cases hl

theorem shows_start : Shows Round.start .empty where
  empty _ := rfl
  board hp := absurd rfl hp
  body _ hi := absurd rfl hi
  loading _ _ _ hi := absurd rfl hi

theorem shows_inv {s : Round} (h : (roundMachine cd).ReachesBy (Rides cd) s) : ∃ T, trailGame.Reaches T ∧ Shows s T := by
  induction h with
  | init hs =>
    rw [show _ = Round.start from hs]
    exact ⟨.empty, .init rfl, shows_start⟩
  | @step s a s' h hok hs ih =>
    obtain ⟨T, hT, hshow⟩ := ih
    obtain ⟨T', hshow', hgame⟩ := shows_step (board_inv h) (steady_reaches h) hshow hok.2 hs
    refine ⟨T', ?_, hshow'⟩
    cases a with
    | loadSnake n =>
      rcases hgame with rfl | hjoin
      · exact hT
      · exact hT.next _ hjoin
    | tick off =>
      obtain ⟨b, -, hround⟩ := hgame
      exact hT.next _ hround
    | _ =>
      rw [show T' = T from hgame]
      exact hT

end Runs

/-- Every message is a name, TRUE and a step to the right. -/
def eastward : Codec Bytes := ⟨some, fun _ => some true, fun _ => some ⟨1, 0⟩⟩

theorem rides_eastward (s : Round) (a : RoundAct Bytes) (h : StaysOn s a) : Rides eastward s a := by
  refine ⟨?_, h⟩
  cases a with
  | request n db junk res d =>
    cases res with
    | false => trivial
    | true =>
      intro _ _ p _ _ _ _ hp
      rw [← Option.some.inj hp]
      decide
  | _ => trivial

theorem tame_eastward (s : Round) (a : RoundAct Bytes) (h : Defined eastward s a) : Tame eastward s a :=
  ⟨(rides_eastward s a h.1).1, h⟩

section Runs
variable {M : Type} {cd : Codec M}

/-- Between two ticks the board changes in its directions only. -/
theorem between_ticks {s t : Round} (h : (roundMachine cd).StepsBy (fun _ a => ∀ off, a ≠ .tick off) s t)
    (hp : s.phase = .running ∨ s.phase = .over) {b : GameBoard} (hb : s.server.gameBoard = some b) :
    t.phase = s.phase ∧ ∃ b', t.server.gameBoard = some b' ∧ b'.bB = b.bB ∧ b'.gB = b.gB ∧ b'.pPos = b.pPos ∧
      b'.pDef = b.pDef := by
  induction h with
  | refl => exact ⟨rfl, b, hb, rfl, rfl, rfl, rfl⟩
  | @tail t a u _ hok hs ih =>
    obtain ⟨hph, b', hb', h1, h2, h3, h4⟩ := ih
    have hcases := round_cases hs
    cases a with
    | accept n =>
      obtain ⟨-, rfl⟩ := hcases
      exact ⟨hph, b', hb', h1, h2, h3, h4⟩
    | request n db junk res d =>
      obtain ⟨sv, hr, rfl⟩ := hcases
      refine ⟨hph, ?_⟩
      rcases resolve_board hr with hsame | ⟨c, p, -, -, -, -, hmap⟩
      · exact ⟨b', hsame.trans hb', h1, h2, h3, h4⟩
      · dsimp only at hmap
        rw [hb', Option.map_some] at hmap
        exact ⟨_, hmap, h1, h2, h3, h4⟩
    | initBoard garbage =>
      rw [hph] at hcases
      rcases hp with hp | hp <;> simp [hp] at hcases
    | loadSnake n =>
      rw [hph] at hcases
      rcases hp with hp | hp <;> simp [hp] at hcases
    | loaded =>
      rw [hph] at hcases
      rcases hp with hp | hp <;> simp [hp] at hcases
    | tick off => exact absurd rfl (hok off)

/-- Pointing back from where a snake has just moved to is pointing at where it
came from. -/
theorem back_at_old (p d : Point) : p + d + ⟨-d.x, -d.y⟩ = p := by
  obtain ⟨x, y⟩ := p
  show Point.mk (x + d.x + -d.x) (y + d.y + -d.y) = _
  rw [Point.mk.injEq]
  omega

theorem turned_back {b b₂ : GameBoard} {T : Trails Slot Cell} (h : Traces b T) {off : Slot → UInt8} (off' : Slot → UInt8)
    (hon : NextOnBoard b) (hon' : NextOnBoard b₂) {i : Slot} (halive : (updateBoard off b).board.pDef i = 0)
    (h₂ : Traces b₂ (T.round (target b) slots)) (hpos : b₂.pPos i = (updateBoard off b).board.pPos i)
    (hback : b₂.pDir i = ⟨-(b.pDir i).x, -(b.pDir i).y⟩) :
    i ∈ (updateBoard off' b₂).lost ∧ (updateBoard off' b₂).board.pDef i = 1 ∧
      (updateBoard off' b₂).board.pPos i = b₂.pPos i := by
  have h₁ := h.tick off hon
  obtain ⟨htrail, ha⟩ := Trails.round_enters (List.mem_finRange i) (List.nodup_finRange _) ((h₁.alive i).1 halive)
  have hd := (h.alive i).2 ha
  obtain ⟨c, hc, hcell⟩ := h.exists_head (h.trail_ne_nil hd)
  obtain ⟨d, hnext⟩ := Option.isSome_iff_exists.1 (hon i hd)
  -- The snake would enter the cell it left.
  have hold : b₂.next i = b.pPos i := by
    rw [GameBoard.next, hpos, h₁.head i d (by rw [htrail, target_eq hnext, List.head?_cons]), ← cellAt_eq_some.1 hnext,
      hback, GameBoard.next, back_at_old]
  have hmarked : target b₂ i ∈ (T.round (target b) slots).trail i := by
    rw [target_eq (hold ▸ hcell)]
    exact (T.suffix_round (target b) slots i).mem (List.mem_of_head? hc)
  have h₃ := h₂.tick off' hon'
  obtain ⟨hsame, hout⟩ := Trails.round_lost (List.mem_finRange i) (List.nodup_finRange _) hmarked
  have hd₂ : b₂.pDef i = 0 := (h₂.alive i).2 ((h₁.alive i).1 halive)
  rcases lost_updateBoard off' b₂ i with ⟨-, hdef⟩ | ⟨hlost, -, hdef⟩
  · exact absurd ((h₃.alive i).1 (hdef.trans hd₂)) hout
  · refine ⟨hlost, hdef, ?_⟩
    have hhead : ((T.round (target b) slots).trail i).head? = some d := by rw [htrail, target_eq hnext, List.head?_cons]
    rw [h₂.head i d hhead, h₃.head i d (by rw [hsame, hhead])]

/-- A snake that moved in a tick and has the opposite direction at the next one
is lost there, on the cell it had reached, whatever else was received in
between. -/
theorem turning_back_loses {s₀ s₁ s₂ s₃ : Round} {off off' : Slot → UInt8}
    (h : (strayMachine cd).ReachesBy (Tame cd) s₀) (hon : StaysOn s₀ (.tick (M := M) off))
    (h₁ : (strayMachine cd).step s₀ (.tick off) s₁)
    (h₂ : (strayMachine cd).StepsBy (fun s a => Defined cd s a ∧ ∀ off, a ≠ .tick off) s₁ s₂)
    (hon' : StaysOn s₂ (.tick (M := M) off')) (h₃ : (strayMachine cd).step s₂ (.tick off') s₃) {b₀ b₁ b₂ : GameBoard}
    (hb₀ : s₀.server.gameBoard = some b₀) (hb₁ : s₁.server.gameBoard = some b₁) (hb₂ : s₂.server.gameBoard = some b₂)
    {i : Slot} (halive : b₁.pDef i = 0) (hback : b₂.pDir i = ⟨-(b₀.pDir i).x, -(b₀.pDir i).y⟩) :
    ∃ b₃ c, s₃.server.gameBoard = some b₃ ∧ b₃.pDef i = 1 ∧ b₃.pPos i = b₁.pPos i ∧ s₃.server.clients i = some c ∧
      c.state = .loose := by
  have h₁ : roundStep cd s₀ (.tick off) = some s₁ := h₁ ⟨hon, trivial⟩
  have h₂ := (h₂.defined fun _ _ ha => ha.1).mono fun _ _ ha => ha.2
  have h₃ : roundStep cd s₂ (.tick off') = some s₃ := h₃ ⟨hon', trivial⟩
  obtain ⟨hp₀, b, sv, hb, -, rfl⟩ := round_cases h₁
  obtain rfl := Option.some.inj (hb.symm.trans hb₀)
  obtain rfl := Option.some.inj hb₁
  obtain ⟨T, -, hshow⟩ := shows_inv (rides_reaches h)
  obtain ⟨b', hb', ht⟩ := hshow.board (by simp [hp₀])
  obtain rfl := Option.some.inj (hb.symm.trans hb')
  have hphase : (if isgameOver sv.clients then Phase.over else Phase.running) = .running ∨
      (if isgameOver sv.clients then Phase.over else Phase.running) = .over := by
    split
    · exact .inr rfl
    · exact .inl rfl
  obtain ⟨-, b', hb', hsame, hsame', hpos, hdef⟩ := between_ticks h₂ hphase rfl
  obtain rfl := Option.some.inj (hb'.symm.trans hb₂)
  have ht₂ := (ht.tick off (hon b hb)).congr hsame hsame' hpos hdef
  obtain ⟨hlost, hone, hstay⟩ := turned_back ht off' (hon b hb) (hon' b' hb') halive ht₂ (congrFun hpos i) hback
  obtain ⟨-, b'', sv', hb'', hl, rfl⟩ := round_cases h₃
  obtain rfl := Option.some.inj (hb'.symm.trans hb'')
  obtain ⟨hocc, hstate⟩ := playersLost_some hl
  obtain ⟨c, hc⟩ := hocc i hlost
  refine ⟨_, { c with state := .loose }, rfl, hone, hstay.trans (congrFun hpos i), ?_, rfl⟩
  exact (hstate i).trans (by rw [if_pos hlost, hc, Option.map_some])

end Runs

/-- The first of the two players moves left and then asks for the right. -/
theorem turning_back_loses_two : ∃ s₀ s₁ s₂ s₃, (strayMachine eastward).ReachesBy (Tame eastward) s₀ ∧
    roundStep eastward s₀ (.tick fun _ => 0) = some s₁ ∧ roundStep eastward s₁ (.request 0 trusting [] true []) = some s₂ ∧
    roundStep eastward s₂ (.tick fun _ => 0) = some s₃ ∧
    ∃ b₁ b₃ c, s₁.server.gameBoard = some b₁ ∧ s₃.server.gameBoard = some b₃ ∧ b₃.pDef 0 = 1 ∧
      b₃.pPos 0 = b₁.pPos 0 ∧ s₃.server.clients 0 = some c ∧ c.state = .loose := by
  obtain ⟨s₀, s₁, s₂, s₃, hr, h₁, h₂, h₃, hon, hdef, hon', b₀, b₁, b₂, hb₀, hb₁, hb₂, halive, hback⟩ : ∃ s₀ s₁ s₂ s₃,
      (roundMachine eastward).ReachesBy (Defined eastward) s₀ ∧
      roundStep eastward s₀ (.tick fun _ => 0) = some s₁ ∧
      roundStep eastward s₁ (.request 0 trusting [] true []) = some s₂ ∧
      roundStep eastward s₂ (.tick fun _ => 0) = some s₃ ∧
      StaysOn s₀ (.tick (M := Bytes) fun _ => 0) ∧ Defined eastward s₁ (.request 0 trusting [] true []) ∧
      StaysOn s₂ (.tick (M := Bytes) fun _ => 0) ∧
      ∃ b₀ b₁ b₂, s₀.server.gameBoard = some b₀ ∧ s₁.server.gameBoard = some b₁ ∧ s₂.server.gameBoard = some b₂ ∧
        b₁.pDef 0 = 0 ∧ b₂.pDir 0 = ⟨-(b₀.pDir 0).x, -(b₀.pDir 0).y⟩ :=
    ⟨_, _, _, _, Machine.reachesBy_of_runActs (l := twoReady ++ loadSnakes) (.init rfl) rfl, rfl, rfl, rfl,
      of_decide_eq_true rfl, of_decide_eq_true rfl, of_decide_eq_true rfl, _, _, _, rfl, rfl, rfl, rfl, rfl⟩
  have hreach : (strayMachine eastward).ReachesBy (Tame eastward) s₀ := (hr.mono tame_eastward).undefined
  obtain ⟨b₃, c, hlost⟩ := turning_back_loses hreach hon (fun _ => h₁) (.tail .refl ⟨hdef, by simp⟩ fun _ => h₂) hon'
    (fun _ => h₃) hb₀ hb₁ hb₂ halive hback
  exact ⟨s₀, s₁, s₂, s₃, hreach, h₁, h₂, h₃, b₁, b₃, c, hb₁, hlost⟩

end Snuffin.ChildServer
