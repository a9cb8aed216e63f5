import Snuffin.Playing
import Snuffin.Presses
/-!
# From the arrow keys to the snake

One player of a game, the connection that its messages take, and the server
with all its other clients. Whatever happens in between, the snake goes where
the last arrow key that has arrived points to.
-/
open Lib Snuffin.Game Snuffin.Client
open Snuffin.Marshalling (Message Locals)

namespace Snuffin.ChildServer

/-! ## The player and the server -/

/-- What `listenToPress` marshals. -/
def message : Client.Sent → Message
  | .boolean value => .boolean (if value then 1 else 0)
  | .point p => .point ⟨Int32.ofInt p.x, Int32.ofInt p.y⟩

/-- A message of the player when the server reads it. -/
def arrival (x : Client.Sent) (l : Locals) : Arrival := ⟨⟨(message x).text, (message x).text_nul⟩, l⟩

/-- The server, the player and what the player has sent and the server has not
taken, oldest first. -/
structure Steered where
  round : Round
  player : Presses
  wire : List Client.Sent

/-- A step of the server that is no message of the player, a step of the
player, and the server taking the player's next message; its arrays are
zero-filled. -/
inductive SteerAct where
  | server (a : RoundAct Arrival)
  | player (a : PressAct)
  | deliver (db : Db) (junk : Bytes) (l : Locals) (zeroed : l.Zeroed)

/-- The slot whose connection is read. -/
def RoundAct.reads {M : Type} : RoundAct M → Option Slot
  | .request n _ _ _ _ => some n
  | _ => none

def steerStep (wild : Codec Arrival) (n : Slot) (s : Steered) : SteerAct → Option Steered
  | .server a =>
    if a.reads = some n then none else (roundStep (wireCodec wild) s.round a).map fun r => { s with round := r }
  | .player a =>
    (pressStep s.player a).map fun p => { s with player := p, wire := s.wire ++ p.sent.drop s.player.sent.length }
  | .deliver db junk l _ =>
    match s.wire with
    | [] => none
    | x :: xs =>
      (roundStep (wireCodec wild) s.round (.request n db junk (received (arrival x l)) (arrival x l))).map fun r =>
        { s with round := r, wire := xs }

/-- What the server does in the step is defined. -/
def SteerDefined (wild : Codec Arrival) (n : Slot) (s : Steered) : SteerAct → Prop
  | .server a => Defined (wireCodec wild) s.round a
  | .player _ => True
  | .deliver db junk l _ => ∀ x ∈ s.wire.head?,
      Defined (wireCodec wild) s.round (.request n db junk (received (arrival x l)) (arrival x l))

instance (wild : Codec Arrival) (n : Slot) (s : Steered) : ∀ a : SteerAct, Decidable (SteerDefined wild n s a)
  | .server _ => inferInstanceAs (Decidable (Defined ..))
  | .player _ => .isTrue trivial
  | .deliver .. => Option.decidableForallMem _

/-- The steps from a game on whose board there is the snake of slot `n`, which
the player sits in; the server has taken none of the player's points. -/
def steerMachine (wild : Codec Arrival) (n : Slot) (s₀ : Steered) : Machine Steered SteerAct :=
  .ofFun s₀ (steerStep wild n)

/-- The same with the server in C. -/
def straySteerMachine (wild : Codec Arrival) (n : Slot) (s₀ : Steered) : Machine Steered SteerAct :=
  (steerMachine wild n s₀).undefinedUnless (SteerDefined wild n)

/-- The player is on the roster, and has been told that the game starts. -/
structure Seated (n : Slot) (con : Nat) (r : Round) : Prop where
  slot : cons r.server.clients n = some con
  listed : (n, con) ∈ r.roster
  moved : con ∈ r.moved

/-! ## The player -/

theorem points_append (l l' : List Client.Sent) : points (l ++ l') = points l ++ points l' := List.filterMap_append

/-- What the keys of the game have made of `p` and `aux`. -/
structure Turning (s : Presses) : Prop where
  p : s.p = s.aux
  aux : s.aux = (points s.sent).getLastD ⟨0, 0⟩
  arrows : (s.played.filterMap direction).getLast? = (points s.sent).getLast?
  unit : ∀ p ∈ points s.sent, IsUnit p

theorem Turning.play {s : Presses} (h : Turning s) (pressed : UInt8) : Turning (s.play pressed) := by
  rcases play_cases h.p pressed with ⟨hold, hplay⟩ | ⟨d, hd, -, hplay⟩
  · rw [hplay]
    refine ⟨h.p, h.aux, ?_, h.unit⟩
    dsimp only
    rw [directions_snoc]
    cases hd : direction pressed with
    | none =>
      rw [Option.toList_none, List.append_nil]
      exact h.arrows
    | some d =>
      rw [Option.toList_some, List.getLast?_concat]
      exact (getLast?_of_getLastD (isUnit_direction hd) (h.aux.symm.trans (hold d hd))).symm
  · rw [hplay]
    refine ⟨rfl, ?_, ?_, ?_⟩
    · rw [points_point, List.getLastD_concat]
    · dsimp only
      rw [directions_snoc, hd, Option.toList_some, List.getLast?_concat, points_point, List.getLast?_concat]
    · rw [points_point]
      intro p hp
      rcases List.mem_append.1 hp with hp | hp
      · exact h.unit p hp
      · rw [List.mem_singleton.1 hp]
        exact isUnit_direction hd

/-- A step of the player only adds to what is sent. -/
theorem turning_step {s s' : Presses} {a : PressAct} (h : Turning s) (hs : pressStep s a = some s') :
    Turning s' ∧ s'.sent = s.sent ++ s'.sent.drop s.sent.length := by
  have hcases := press_cases hs
  cases a with
  | clear =>
    obtain rfl : s' = { s with cleared := true, ready := false } := hcases
    exact ⟨⟨h.p, h.aux, h.arrows, h.unit⟩, by simp⟩
  | gameStarts =>
    obtain rfl : s' = { s with gameStart := true } := hcases
    exact ⟨⟨h.p, h.aux, h.arrows, h.unit⟩, by simp⟩
  | key pressed =>
    obtain ⟨-, ⟨-, rfl⟩ | ⟨-, rfl⟩⟩ := hcases
    · refine ⟨h.play pressed, ?_⟩
      rcases play_cases h.p pressed with ⟨-, hplay⟩ | ⟨d, -, -, hplay⟩
      · rw [hplay]
        simp
      · rw [hplay]
        simp
    · exact ⟨⟨h.p, h.aux, h.arrows, h.unit⟩, by simp⟩
  | test =>
    obtain ⟨pressed, -, rfl⟩ := hcases
    exact ⟨⟨h.p, h.aux, h.arrows, h.unit⟩, by simp⟩
  | send =>
    obtain ⟨value, -, rfl⟩ := hcases
    refine ⟨⟨h.p, ?_, ?_, ?_⟩, by simp⟩
    · rw [points_boolean]
      exact h.aux
    · rw [points_boolean]
      exact h.arrows
    · rw [points_boolean]
      exact h.unit
  | set =>
    obtain ⟨value, -, rfl⟩ := hcases
    exact ⟨⟨h.p, h.aux, h.arrows, h.unit⟩, by simp⟩

theorem turning {s : Presses} (h : pressMachine.Reaches s) : Turning s := by
  apply h.inv (I := Turning)
  · intro s hs
    rw [show s = Presses.start from hs]
    exact ⟨rfl, rfl, rfl, fun p hp => absurd hp List.not_mem_nil⟩
  · intro _ _ _ hi _ hs
    exact (turning_step hi hs).1

/-! ## The messages -/

variable {wild : Codec Arrival}

theorem unmarshPoint_of {d : Arrival} {q : Marshalling.Point}
    (h : Marshalling.unmarshPoint (d.text.val ++ [0]) d.locals = some (some q)) :
    (wireCodec wild).unmarshPoint d = some ⟨q.x.toInt, q.y.toInt⟩ := by
  simp only [wireCodec, h, Option.map_some]

/-- A unit vector arrives as it was sent. -/
theorem arrives_point {p : Point} (hp : IsUnit p) {l : Locals} (hl : l.Zeroed) :
    (wireCodec wild).unmarshPoint (arrival (.point p) l) = some p := by
  have hcarried : (Marshalling.Struc.text (message (.point p))).Carried := by
    rcases hp with rfl | rfl | rfl | rfl <;> exact ⟨by decide, by decide, by decide⟩
  have hvalue : (⟨(Int32.ofInt p.x).toInt, (Int32.ofInt p.y).toInt⟩ : Point) = p := by
    rcases hp with rfl | rfl | rfl | rfl <;> rfl
  have hread := @unmarshPoint_of wild (arrival (.point p) l) _ (Marshalling.unmarsh_pointText hl hcarried)
  exact hread.trans (congrArg some hvalue)

/-- A BOOLEAN is no point. -/
theorem arrives_boolean (value : Bool) (l : Locals) :
    (wireCodec wild).unmarshPoint (arrival (.boolean value) l) = none := by
  apply refuses_point
  rintro ⟨r, hr⟩
  cases value with
  | false => cases hr
  | true => cases hr

theorem received_arrival (x : Client.Sent) (l : Locals) : received (arrival x l) = true := by
  unfold received arrival
  apply decide_eq_true
  cases x with
  | boolean value =>
    cases value with
    | false => exact Nat.lt_add_one 1
    | true => exact Nat.lt_add_one 1
  | point p =>
    simp only [message, Message.text, Marshalling.pointText_eq, List.length_cons, List.length_append]
    omega

/-! ## The server -/

section Server
variable {M : Type} {cd : Codec M} {n : Slot} {con : Nat} {r r' : Round}

/-- The direction of snake `n`. -/
def heading (r : Round) (n : Slot) : Option Point := r.server.gameBoard.map fun b => b.pDir n

/-- What is not read from the player does not move it and does not steer its
snake. -/
theorem Seated.step {a : RoundAct M} (hr : (roundMachine cd).Reaches r) (h : Seated n con r) (ha : a.reads ≠ some n)
    (hs : roundStep cd r a = some r') : Seated n con r' ∧ heading r' n = heading r n := by
  have hmoved : con ∈ r'.moved := (round_grows hs).2 h.moved
  have hpassed : r.phase.passed n := (board_inv hr).passed _ h.listed
  have hcases := round_cases hs
  cases a with
  | accept m =>
    obtain ⟨hm, rfl⟩ := hcases
    refine ⟨⟨?_, h.listed, hmoved⟩, rfl⟩
    have hnm : n ≠ m := by
      rintro rfl
      have hslot := h.slot
      rw [cons, hm] at hslot
      cases hslot
    rw [cons, setClient_clients, Function.update_of_ne hnm]
    exact h.slot
  | request m db junk res d =>
    have hnm : n ≠ m := by
      rintro rfl
      exact ha rfl
    obtain ⟨sv, hreq, rfl⟩ := hcases
    refine ⟨⟨?_, h.listed, hmoved⟩, ?_⟩
    · cases res with
      | false =>
        obtain ⟨c, -, rfl⟩ := resolve_closed hreq
        rw [cons, disconnect]
        dsimp only [emit_clients]
        rw [Function.update_of_ne hnm]
        exact h.slot
      | true =>
        obtain ⟨c, hc, es, b, hres, -, -⟩ := resolve_cases hreq
        rw [hres.cons hc]
        exact h.slot
    · rcases resolve_board hreq with he | ⟨c, p, -, -, -, -, he⟩
      · exact congrArg (Option.map fun b : GameBoard => b.pDir n) he
      · unfold heading
        rw [he, Option.map_map]
        congr 1
        funext b
        simp [updateMovementDirection, hnm]
  | initBoard garbage =>
    obtain ⟨hp, -, rfl⟩ := hcases
    rw [hp] at hpassed
    exact hpassed.elim
  | loadSnake m =>
    obtain ⟨hp, ⟨-, rfl⟩ | ⟨c, b, -, hb, rfl⟩⟩ := hcases
    · exact ⟨⟨h.slot, h.listed, hmoved⟩, rfl⟩
    · refine ⟨⟨h.slot, List.mem_append_left _ h.listed, hmoved⟩, ?_⟩
      have hnm : n ≠ m := by
        rintro rfl
        rw [hp] at hpassed
        exact Nat.lt_irrefl _ hpassed
      simp [heading, hb, GameBoard.loaded, hnm]
  | loaded =>
    obtain ⟨-, rfl⟩ := hcases
    exact ⟨⟨h.slot, h.listed, hmoved⟩, rfl⟩
  | tick off =>
    obtain ⟨-, b, sv, hb, hl, rfl⟩ := hcases
    refine ⟨⟨?_, h.listed, hmoved⟩, ?_⟩
    · rw [show cons (ticked (updateBoard off b).board sv).clients = cons r.server.clients from (playersLost_cons hl).1]
      exact h.slot
    · unfold heading
      rw [hb, Option.map_some, ticked, Option.map_some, updateBoard, turns_pDir]

/-- A message of the player that is no point changes nothing, and a point
steers its snake. -/
theorem Seated.message {db : Db} {junk : Bytes} {d : M} (hr : (roundMachine cd).Reaches r) (h : Seated n con r)
    (hs : roundStep cd r (.request n db junk true d) = some r') :
    Seated n con r' ∧ heading r' n = match cd.unmarshPoint d with
      | none => heading r n
      | some p => (heading r n).map fun _ => p := by
  have hmoved : con ∈ r'.moved := (round_grows hs).2 h.moved
  obtain ⟨sv, hreq, rfl⟩ := round_cases hs
  obtain ⟨c, hc, rfl⟩ := cons_eq_some.1 h.slot
  have he := ((inPlay hr).plays n c hc h.moved).1
  have hslot : cons sv.clients n = some c.con := by
    obtain ⟨c', hc', es, b, hres, -, -⟩ := resolve_cases hreq
    rw [hres.cons hc']
    exact h.slot
  refine ⟨⟨hslot, h.listed, hmoved⟩, ?_⟩
  cases hp : cd.unmarshPoint d with
  | none =>
    rw [resolve_movement (s := { r.server with out := [] }) hc he] at hreq
    obtain rfl := Option.some.inj hreq
    simp only [movement, hp]
    rfl
  | some p =>
    have hboard := resolve_steers hreq hc he hp
    unfold heading
    dsimp only at hboard ⊢
    rw [hboard, Option.map_map, Option.map_map]
    congr 1
    funext b
    simp [updateMovementDirection]

end Server

/-! ## Every run -/

/-- The server has taken the points that are no longer under way, and the
snake goes where the last of them points to. -/
structure OnCourse (wild : Codec Arrival) (n : Slot) (con : Nat) (d₀ : Point) (s : Steered) : Prop where
  reaches : (roundMachine (wireCodec wild)).Reaches s.round
  seated : Seated n con s.round
  turning : Turning s.player
  heading : ∃ taken, points s.player.sent = taken ++ points s.wire ∧ heading s.round n = some (taken.getLastD d₀)

theorem onCourse_step {n : Slot} {con : Nat} {d₀ : Point} {s s' : Steered} {a : SteerAct} (h : OnCourse wild n con d₀ s)
    (hs : steerStep wild n s a = some s') : OnCourse wild n con d₀ s' := by
  obtain ⟨taken, hsent, hhead⟩ := h.heading
  cases a with
  | server a =>
    obtain ⟨ha, hs⟩ := Option.ite_none_left_eq_some.1 hs
    obtain ⟨r, hr, rfl⟩ := Option.map_eq_some_iff.1 hs
    obtain ⟨hseat, hsame⟩ := h.seated.step h.reaches ha hr
    exact ⟨h.reaches.next a hr, hseat, h.turning, taken, hsent, hsame.trans hhead⟩
  | player a =>
    obtain ⟨p, hp, rfl⟩ := Option.map_eq_some_iff.1 hs
    obtain ⟨hturn, hadd⟩ := turning_step h.turning hp
    refine ⟨h.reaches, h.seated, hturn, taken, ?_, hhead⟩
    have hpoints := congrArg points hadd
    rw [points_append, hsent, List.append_assoc, ← points_append] at hpoints
    exact hpoints
  | deliver db junk l hl =>
    cases hw : s.wire with
    | nil =>
      simp only [steerStep, hw] at hs
      cases hs
    | cons x xs =>
      simp only [steerStep, hw, received_arrival] at hs
      obtain ⟨r, hr, rfl⟩ := Option.map_eq_some_iff.1 hs
      obtain ⟨hseat, hnext⟩ := h.seated.message h.reaches hr
      rw [hw] at hsent
      cases x with
      | boolean value =>
        rw [arrives_boolean] at hnext
        exact ⟨h.reaches.next _ hr, hseat, h.turning, taken, hsent, hnext.trans hhead⟩
      | point p =>
        have hunit : IsUnit p := by
          apply h.turning.unit
          rw [hsent]
          exact List.mem_append_right _ List.mem_cons_self
        rw [arrives_point hunit hl] at hnext
        refine ⟨h.reaches.next _ hr, hseat, h.turning, taken ++ [p], ?_, ?_⟩
        · rw [List.append_assoc]
          exact hsent
        · rw [List.getLastD_concat, hnext, hhead]
          rfl

/-- From the moment a player has its snake, and whatever the other clients do,
while what the server does is defined: the points that it has taken are the
first that the player has sent, the snake's direction is the last of them, and
once they have all arrived it is that of the last arrow key of the game. -/
theorem arrow_keys_steer {n : Slot} {con : Nat} {s₀ s : Steered}
    (hr : (strayMachine (wireCodec wild)).ReachesBy (Defined (wireCodec wild)) s₀.round)
    (hseat : Seated n con s₀.round) (hp : pressMachine.Reaches s₀.player) (hw : points s₀.player.sent = points s₀.wire)
    {b₀ : GameBoard} (hb : s₀.round.server.gameBoard = some b₀)
    (h : (straySteerMachine wild n s₀).ReachesBy (SteerDefined wild n) s) :
    ∃ b taken, s.round.server.gameBoard = some b ∧ points s.player.sent = taken ++ points s.wire ∧
      b.pDir n = taken.getLastD (b₀.pDir n) ∧
      (points s.wire = [] → b.pDir n = ((s.player.played.filterMap direction).getLast?).getD (b₀.pDir n)) := by
  have hcourse : OnCourse wild n con (b₀.pDir n) s := by
    apply (h.defined fun _ _ => id).inv (I := OnCourse wild n con (b₀.pDir n))
    · intro s hs
      rw [show s = s₀ from hs]
      exact ⟨reaches_of_defined hr, hseat, turning hp, [], hw, by simp [heading, hb]⟩
    · intro _ _ _ hi _ hs
      exact onCourse_step hi hs
  obtain ⟨taken, hsent, hhead⟩ := hcourse.heading
  obtain ⟨b, hbs, hdir⟩ := Option.map_eq_some_iff.1 hhead
  refine ⟨b, taken, hbs, hsent, hdir, fun hnone => ?_⟩
  rw [hnone, List.append_nil] at hsent
  rw [hdir, hcourse.turning.arrows, hsent, List.getLastD_eq_getLast?]

/-- Two clients log in and a game is loaded. -/
def loadedGame : List (RoundAct Arrival) :=
  [.accept 0, .accept 1] ++ tells [(0, aName), (0, aName), (1, aName), (1, aName), (0, aTrue), (1, aTrue)] ++
    .initBoard blank :: (List.finRange maxPlayers).map .loadSnake ++ [.loaded]

/-- The first player turns left and then up; between the two messages there is
a tick. -/
def leftAndUp : List SteerAct :=
  [.player .clear, .player .gameStarts, .player (.key leftArrow), .player (.key upArrow),
    .deliver trusting [] Marshalling.cleared Marshalling.zeroed_cleared, .server (.tick fun _ => 0),
    .deliver trusting [] Marshalling.cleared Marshalling.zeroed_cleared]

theorem arrow_keys_steer_up : ∃ r s b, (straySteerMachine inert 0 ⟨r, .start, []⟩).ReachesBy (SteerDefined inert 0) s ∧
    s.player.played = [leftArrow, upArrow] ∧ s.round.server.gameBoard = some b ∧ b.pDir 0 = ⟨0, -1⟩ := by
  obtain ⟨r, hr, hslot, hlisted, hmoved, b₀, hb, s, hs, hwire, hplayed⟩ : ∃ r,
      (roundMachine (wireCodec inert)).ReachesBy (Defined (wireCodec inert)) r ∧
      cons r.server.clients 0 = some 0 ∧ (0, 0) ∈ r.roster ∧ 0 ∈ r.moved ∧ ∃ b₀, r.server.gameBoard = some b₀ ∧
      ∃ s, (steerMachine inert 0 ⟨r, .start, []⟩).ReachesBy (SteerDefined inert 0) s ∧ s.wire = [] ∧
      s.player.played = [leftArrow, upArrow] :=
    ⟨_, Machine.reachesBy_of_runActs (l := loadedGame) (.init rfl) rfl, rfl, of_decide_eq_true rfl, of_decide_eq_true rfl,
      _, rfl, _, Machine.reachesBy_of_runActs (l := leftAndUp) (.init rfl) rfl, rfl, rfl⟩
  obtain ⟨b, taken, hbs, -, -, hlast⟩ :=
    @arrow_keys_steer inert 0 0 ⟨r, .start, []⟩ s hr.undefined ⟨hslot, hlisted, hmoved⟩ (.init rfl) rfl b₀ hb hs.undefined
  refine ⟨r, s, b, hs.undefined, hplayed, hbs, ?_⟩
  rw [hlast (by rw [hwire]; rfl), hplayed]
  rfl

end Snuffin.ChildServer
