import Snuffin.RoundBoard
import Snuffin.Simultaneous
/-!
# Players who leave a game

`disconnect` empties a slot and leaves its snake on the board, where it moves
on until `updateBoard` calls `playerLost` for the empty slot. `Doomed` says on
the board before a tick which snakes the tick loses. The buffer that `initGame`
frees at the end is set by the first client its last loop finds. All this is so
while the ticks stay on the board: off it they may overwrite `pDef`, `pDir` or
`pPos`, and then it is not said whom `playerLost` is called for.
-/
open Lib Snuffin.Game

namespace Snuffin.ChildServer

/-! ## The buffer that is freed -/

/-- One round of the loop at the end of `initGame`, with the buffer `sd`. -/
def closeSlot (t : Table) (p : Option Msg × Server) (i : Slot) : Option Msg × Server :=
  match t i with
  | none => p
  | some c => (some (.boolean (c.state ≠ .loose)), p.2.emit (resultOf c))

/-- That loop, and the buffer that is freed after it: `none` is an unset
pointer. -/
def closeGame (s : Server) : Option Msg × Server := (List.finRange maxPlayers).foldl (closeSlot s.clients) (none, s)

theorem closeSlots (t : Table) (l : List Slot) (p : Option Msg × Server) :
    (l.foldl (closeSlot t) p).2 = p.2.emit ((l.filter fun i => (t i).isSome).flatMap fun i => (t i).elim [] resultOf) ∧
      ((l.foldl (closeSlot t) p).1.isSome = true ↔ p.1.isSome = true ∨ ∃ i ∈ l, ∃ c, t i = some c) := by
  induction l generalizing p with
  | nil => simp [Server.emit]
  | cons i l ih =>
    obtain ⟨h1, h2⟩ := ih (closeSlot t p i)
    rw [List.foldl_cons, h1, h2]
    cases hi : t i with
    | none => simp [closeSlot, hi]
    | some c => simp [closeSlot, hi, Server.emit]

/-- It sends the results. -/
theorem closeGame_server (s : Server) : (closeGame s).2 = sendResults s := (closeSlots s.clients _ (none, s)).1

/-- It sets the buffer when there is a client. -/
theorem closeGame_buffer (s : Server) : (closeGame s).1.isSome = true ↔ ∃ i c, s.clients i = some c := by
  rw [closeGame, (closeSlots s.clients _ (none, s)).2]
  simp

/-! ## Who owns a lost snake -/

/-- The owner of a snake, as the roster has it, is still in its slot. -/
def Present (t : Table) (e : Slot × Nat) : Prop := cons t e.1 = some e.2

/-- A tick makes no access off the arrays of the board, which might overwrite
flags and pointers, and calls `playerLost` for clients in their own slots only. -/
def TickSafe (off : Slot → UInt8) (s : Round) : Prop :=
  ∃ b sv, s.server.gameBoard = some b ∧ (∀ a ∈ (updateBoard off b).touched, (cellAt a.pos).isSome = true) ∧
    tick off s.server = some sv ∧
    ∀ i ∈ (updateBoard off b).lost, ∃ con, (i, con) ∈ s.roster ∧ Present s.server.clients (i, con)

/-- Every doomed snake has its owner in its slot. -/
def DoomedPresent (off : Slot → UInt8) (s : Round) : Prop :=
  ∀ b ∈ s.server.gameBoard, ∀ e ∈ s.roster, Doomed off b e.1 → Present s.server.clients e

theorem roster_unique {s : Round} (h : BoardInv s) {i : Slot} {con con' : Nat} (h1 : (i, con) ∈ s.roster)
    (h2 : (i, con') ∈ s.roster) : con = con' :=
  congrArg Prod.snd (List.inj_on_of_nodup_map h.slots h1 h2 rfl)

/-- In every run whose steps are defined, the next tick of a running game is
safe exactly when it stays on the board and no doomed snake has lost its owner,
and the buffer freed at the end is set exactly when somebody is still
connected. -/
theorem tick_safe_iff {M : Type} {cd : Codec M} {s : Round} (h : (strayMachine cd).ReachesBy (Defined cd) s) :
    (s.phase = .running → ∀ off, TickSafe off s ↔ StaysOn s (RoundAct.tick (M := M) off) ∧ DoomedPresent off s) ∧
      (s.phase = .over → ((closeGame s.server).1.isSome = true ↔ ∃ n c, s.server.clients n = some c)) := by
  have hinv := board_inv (reaches_of_defined h)
  refine ⟨fun hp off => ?_, fun _ => closeGame_buffer s.server⟩
  obtain ⟨b, hb, hi⟩ := hinv.board (by simp [hp])
  have hon : StaysOn s (RoundAct.tick (M := M) off) ↔ NextOnBoard b := by
    simp only [StaysOn, hb, Option.mem_some, forall_eq']
  rw [hon, nextOnBoard_iff off]
  constructor
  · rintro ⟨b', sv, hb', hin, -, hsafe⟩
    rw [hb, Option.some.injEq] at hb'
    subst hb'
    refine ⟨hin, fun b'' hb'' e he hd => ?_⟩
    rw [Option.mem_def, hb, Option.some.injEq] at hb''
    subst hb''
    obtain ⟨con, hcon, hpres⟩ := hsafe e.1 ((mem_lost_updateBoard off b e.1).2 hd)
    rwa [roster_unique hinv hcon he] at hpres
  · rintro ⟨hin, hall⟩
    have howner : ∀ i ∈ (updateBoard off b).lost, ∃ con, (i, con) ∈ s.roster ∧ Present s.server.clients (i, con) := by
      intro i hlost
      have hd := (mem_lost_updateBoard off b i).1 hlost
      obtain ⟨con, hcon⟩ := (hi i).1 (by rw [hd.1]; decide)
      exact ⟨con, hcon, hall b hb _ hcon hd⟩
    have hocc : ∀ i ∈ (updateBoard off b).lost, ∃ c, s.server.clients i = some c := by
      intro i hlost
      obtain ⟨con, -, hpres⟩ := howner i hlost
      obtain ⟨c, hc, -⟩ := cons_eq_some.1 hpres
      exact ⟨c, hc⟩
    obtain ⟨sv, hsv, -⟩ := playersLost_spec _ s.server hocc
    have ht : tick off s.server = some (ticked (updateBoard off b).board sv) := by
      rw [tick, hb, Option.bind_some, hsv]
      rfl
    exact ⟨b, _, hb, hin, ht, howner⟩

/-- A codec that takes every message for the point (1, 0). -/
def reversing : Codec Bytes := ⟨some, fun _ => some true, fun _ => some ⟨1, 0⟩⟩

/-- The first of two players turns its snake around and stays. -/
theorem tick_safe_iff_stays : ∃ s, (strayMachine reversing).ReachesBy (Defined reversing) s ∧ s.phase = .running ∧
    (∀ off, StaysOn s (.tick (M := Bytes) off)) ∧
    (s.phase = .running → ∀ off, TickSafe off s ↔ StaysOn s (.tick (M := Bytes) off) ∧ DoomedPresent off s) ∧
    (s.phase = .over → ((closeGame s.server).1.isSome = true ↔ ∃ n c, s.server.clients n = some c)) := by
  obtain ⟨s, hr, hp, hon⟩ : ∃ s, (roundMachine reversing).ReachesBy (Defined reversing) s ∧ s.phase = .running ∧
      ∀ off, StaysOn s (.tick (M := Bytes) off) :=
    ⟨_, Machine.reachesBy_of_runActs
      (l := twoReady ++ loadSnakes ++ [.tick fun _ => 0, .request 0 trusting [] true [97]]) (.init rfl) rfl,
      rfl, fun _ => of_decide_eq_true rfl⟩
  exact ⟨s, hr.undefined, hp, hon, tick_safe_iff hr.undefined⟩

/-- The first player leaves after turning its snake around: the next tick
calls `playerLost` for its empty slot. And when both have left, nothing has set
the buffer. -/
theorem tick_on_empty_slot :
    (¬∀ s, (strayMachine reversing).ReachesBy (Defined reversing) s → s.phase = .running → ∀ off, TickSafe off s) ∧
      ¬∀ s, (strayMachine reversing).ReachesBy (Defined reversing) s → s.phase = .over →
        (closeGame s.server).1.isSome = true := by
  constructor
  · intro h
    obtain ⟨s, hr, hp, ht⟩ : ∃ s, (roundMachine reversing).ReachesBy (Defined reversing) s ∧ s.phase = .running ∧
        tick (fun _ => 0) s.server = none :=
      ⟨_, Machine.reachesBy_of_runActs
        (l := twoReady ++ loadSnakes ++ [.request 0 trusting [] true [97], .request 0 trusting [] false []]) (.init rfl) rfl,
        rfl, rfl⟩
    obtain ⟨b, sv, -, -, hsv, -⟩ := h s hr.undefined hp fun _ => 0
    rw [ht] at hsv
    cases hsv
  · intro h
    obtain ⟨s, hr, hp, hb⟩ : ∃ s, (roundMachine reversing).ReachesBy (Defined reversing) s ∧ s.phase = .over ∧
        (closeGame s.server).1 = none :=
      ⟨_, Machine.reachesBy_of_runActs
        (l := twoReady ++ loadSnakes ++ [.request 0 trusting [] false [], .request 1 trusting [] false [], .tick fun _ => 0])
        (.init rfl) rfl, rfl, rfl⟩
    have hset := h s hr.undefined hp
    rw [hb] at hset
    cases hset

end Snuffin.ChildServer
