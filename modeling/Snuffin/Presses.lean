import Snuffin.Directions
import Mathlib.Data.List.Chain
/-!
# The keys of a player (client.c)

`prepareLobby` creates the thread of `listenToPress` and then sets `ready` to
FALSE, while that thread already reads keys. In the lobby a key makes a BOOLEAN
or nothing, and after `gameStart` a change of direction makes a Point. What one
thread does between two accesses to `ready` and `gameStart` is one step, and
the steps of the two threads may come in any order.
-/
open Lib Snuffin.Game

namespace Snuffin.Client

/-! ## The code -/

def enter : UInt8 := 10
def upArrow : UInt8 := 65
def downArrow : UInt8 := 66
def rightArrow : UInt8 := 67
def leftArrow : UInt8 := 68

/-- `'X'` or `'x'`. -/
def isX (pressed : UInt8) : Prop := pressed = 88 ∨ pressed = 120

instance (pressed : UInt8) : Decidable (isX pressed) := inferInstanceAs (Decidable (_ ∨ _))

inductive Sent where
  | boolean (value : Bool)
  | point (p : Point)
  deriving DecidableEq, Repr

/-- Where the thread of `listenToPress` is: it waits for a key, has read one
while `gameStart` was FALSE, is about to send a value, has sent it and is about
to put it in `ready`, or has ended the program. -/
inductive KeyThread where
  | waiting
  | reading (pressed : UInt8)
  | sending (value : Bool)
  | setting (value : Bool)
  | exited
  deriving DecidableEq, Repr

/-- The two threads. `cleared` is when `prepareLobby` has set `ready` to FALSE
and is in its loop; `sent` is what `listenToPress` has sent and `played` the
keys it has read since it found `gameStart` TRUE, both oldest first. -/
structure Presses where
  cleared : Bool
  ready : Bool
  gameStart : Bool
  thread : KeyThread
  p : Point
  aux : Point
  sent : List Sent
  played : List UInt8

/-- The thread of `listenToPress` has been created. -/
def Presses.start : Presses := ⟨false, false, false, .waiting, ⟨0, 0⟩, ⟨0, 0⟩, [], []⟩

/-- What a key makes of `ready` in the lobby. -/
def lobbyKey (pressed : UInt8) (ready : Bool) : KeyThread :=
  if pressed = enter ∧ ready = false then .sending true
  else if isX pressed ∧ ready = true then .sending false
  else if isX pressed ∧ ready = false then .exited
  else .waiting

/-- The point an arrow key sets. -/
def direction (pressed : UInt8) : Option Point :=
  if pressed = downArrow then some ⟨0, 1⟩
  else if pressed = upArrow then some ⟨0, -1⟩
  else if pressed = leftArrow then some ⟨-1, 0⟩
  else if pressed = rightArrow then some ⟨1, 0⟩
  else none

/-- A key in the game. Only this thread uses `p` and `aux`. -/
def Presses.play (s : Presses) (pressed : UInt8) : Presses :=
  let p := (direction pressed).getD s.p
  let s := { s with p, played := s.played ++ [pressed] }
  if s.aux.x ≠ p.x ∨ s.aux.y ≠ p.y then
    if p.x ≠ 0 ∨ p.y ≠ 0 then { s with aux := p, sent := s.sent ++ [.point p] } else { s with aux := p }
  else s

/-- `clear` is `ready = FALSE` in `prepareLobby` and `gameStarts` its
`gameStart = TRUE`; the others are the steps of `listenToPress`. -/
inductive PressAct where
  | clear
  | gameStarts
  | key (pressed : UInt8)
  | test
  | send
  | set
  deriving DecidableEq, Repr

/-- No thread outlives the program. -/
def pressStep (s : Presses) : PressAct → Option Presses
  | .clear => if s.thread ≠ .exited ∧ s.cleared = false then some { s with cleared := true, ready := false } else none
  | .gameStarts =>
    if s.thread ≠ .exited ∧ s.cleared = true ∧ s.gameStart = false then some { s with gameStart := true } else none
  | .key pressed =>
    match s.thread with
    | .waiting => some (if s.gameStart then s.play pressed else { s with thread := .reading pressed })
    | _ => none
  | .test =>
    match s.thread with
    | .reading pressed => some { s with thread := lobbyKey pressed s.ready }
    | _ => none
  | .send =>
    match s.thread with
    | .sending value => some { s with sent := s.sent ++ [.boolean value], thread := .setting value }
    | _ => none
  | .set =>
    match s.thread with
    | .setting value => some { s with ready := value, thread := .waiting }
    | _ => none

def pressMachine : Machine Presses PressAct := .ofFun Presses.start pressStep

/-! ## What is sent -/

def booleans (l : List Sent) : List Bool := l.filterMap fun
  | .boolean value => some value
  | .point _ => none

def points (l : List Sent) : List Point := l.filterMap fun
  | .boolean _ => none
  | .point p => some p

@[simp] theorem booleans_nil : booleans [] = [] := rfl

@[simp] theorem points_nil : points [] = [] := rfl

@[simp] theorem booleans_boolean (l : List Sent) (value : Bool) :
    booleans (l ++ [.boolean value]) = booleans l ++ [value] := by
  simp [booleans]

@[simp] theorem booleans_point (l : List Sent) (p : Point) : booleans (l ++ [.point p]) = booleans l := by
  simp [booleans]

@[simp] theorem points_boolean (l : List Sent) (value : Bool) : points (l ++ [.boolean value]) = points l := by
  simp [points]

@[simp] theorem points_point (l : List Sent) (p : Point) : points (l ++ [.point p]) = points l ++ [p] := by
  simp [points]

/-- The thread is between two keys, or has ended the program. -/
def KeyThread.settled : KeyThread → Prop
  | .waiting | .reading _ | .exited => True
  | .sending _ | .setting _ => False

/-- The BOOLEANs alternate from TRUE on and `ready` is the last one; the Points
come after them, are units, each another than the one before, and the last is
the direction of the last arrow. -/
structure Orderly (s : Presses) : Prop where
  alternate : (false :: booleans s.sent).IsChain (· ≠ ·)
  ready : s.thread.settled → s.ready = (booleans s.sent).getLastD false
  first : s.sent = (booleans s.sent).map .boolean ++ (points s.sent).map .point
  unit : ∀ p ∈ points s.sent, IsUnit p
  turns : (points s.sent).IsChain (· ≠ ·)
  arrow : ∀ d, (s.played.filterMap direction).getLast? = some d → (points s.sent).getLast? = some d

/-- The thread has a key of the lobby. -/
def KeyThread.inLobby : KeyThread → Prop
  | .reading _ | .sending _ | .setting _ => True
  | .waiting | .exited => False

/-- What holds while a key is dealt with. -/
structure Underway (s : Presses) : Prop where
  lobby : s.gameStart = false ∨ s.thread.inLobby → s.played = []
  p : s.p = s.aux
  aux : s.aux = (points s.sent).getLastD ⟨0, 0⟩
  arrows : (s.played.filterMap direction).getLast? = (points s.sent).getLast?
  sending : ∀ value, s.thread = .sending value → (booleans s.sent).getLastD false = !value
  setting : ∀ value, s.thread = .setting value → (booleans s.sent).getLastD false = value

/-- `prepareLobby` takes nothing back: no BOOLEAN that says TRUE has come
before its `ready = FALSE`. -/
def ClearsUnready (s : Presses) : PressAct → Prop
  | .clear => s.thread.settled → s.ready = false
  | _ => True

theorem isChain_snoc {α : Type} {R : α → α → Prop} {a x : α} {l : List α} (h : (a :: l).IsChain R)
    (hx : R (l.getLastD a) x) : (a :: (l ++ [x])).IsChain R := by
  refine (List.cons_append ..) ▸ h.append (List.isChain_singleton x) fun y hy z hz => ?_
  rw [List.getLast?_cons, ← List.getLastD_eq_getLast?] at hy
  obtain rfl := Option.some.inj hy
  obtain rfl := Option.some.inj hz
  exact hx

theorem isUnit_direction {pressed : UInt8} {d : Point} (h : direction pressed = some d) : IsUnit d := by
  unfold direction at h
  split at h
  · cases h; exact .inl rfl
  · split at h
    · cases h; exact .inr (.inl rfl)
    · split at h
      · cases h; exact .inr (.inr (.inr rfl))
      · split at h
        · cases h; exact .inr (.inr (.inl rfl))
        · cases h

/-! ## What keeps it so -/

theorem underway_start : Underway Presses.start where
  lobby _ := rfl
  p := rfl
  aux := rfl
  arrows := rfl
  sending value h := by cases h
  setting value h := by cases h

theorem orderly_start : Orderly Presses.start where
  alternate := List.isChain_singleton _
  ready _ := rfl
  first := rfl
  unit p hp := by cases hp
  turns := List.isChain_nil
  arrow d hd := by cases hd

/-- With no key of the game there is no point. -/
theorem Underway.no_points {s : Presses} (h : Underway s) (hplayed : s.played = []) : points s.sent = [] := by
  have harrows := h.arrows
  rw [hplayed] at harrows
  exact List.getLast?_eq_none_iff.1 harrows.symm

/-- A key of the game sends nothing, or a direction that is not the last. -/
theorem play_cases {s : Presses} (hp : s.p = s.aux) (pressed : UInt8) :
    ((∀ d, direction pressed = some d → s.aux = d) ∧ s.play pressed = { s with played := s.played ++ [pressed] }) ∨
    ∃ d, direction pressed = some d ∧ s.aux ≠ d ∧
      s.play pressed = { s with p := d, aux := d, sent := s.sent ++ [.point d], played := s.played ++ [pressed] } := by
  unfold Presses.play
  cases hd : direction pressed with
  | none => exact .inl ⟨fun d h => (by cases h), by simp [hp]⟩
  | some d =>
    by_cases haux : s.aux = d
    · refine .inl ⟨fun e he => haux.trans (Option.some.inj he), ?_⟩
      have hpd := hp.trans haux
      subst hpd
      simp [haux]
    · refine .inr ⟨d, rfl, haux, ?_⟩
      have hne : s.aux.x ≠ d.x ∨ s.aux.y ≠ d.y := by
        by_contra hc
        rw [not_or, not_not, not_not] at hc
        exact haux (congrArg₂ Point.mk hc.1 hc.2)
      have hmove : d.x ≠ 0 ∨ d.y ≠ 0 := by
        rcases isUnit_direction hd with rfl | rfl | rfl | rfl <;> simp
      dsimp only [Option.getD_some]
      rw [if_pos hne, if_pos hmove]

theorem directions_snoc (l : List UInt8) (pressed : UInt8) :
    (l ++ [pressed]).filterMap direction = l.filterMap direction ++ (direction pressed).toList := by
  rw [List.filterMap_append]
  cases hd : direction pressed with
  | none => simp [hd]
  | some d => simp [hd]

/-- The last Point, where there is one. -/
theorem getLast?_of_getLastD {l : List Point} {d : Point} (hd : IsUnit d) (h : l.getLastD ⟨0, 0⟩ = d) :
    l.getLast? = some d := by
  rw [List.getLastD_eq_getLast?] at h
  cases hl : l.getLast? with
  | none =>
    rw [hl, Option.getD_none] at h
    subst h
    exact absurd hd (by decide)
  | some e =>
    rw [hl, Option.getD_some] at h
    rw [h]

/-- A key of the game. -/
theorem play_keeps {s : Presses} (h : Orderly s) (hu : Underway s) (hwait : s.thread = .waiting) (hgame : s.gameStart = true)
    (pressed : UInt8) : Underway (s.play pressed) ∧ Orderly (s.play pressed) := by
  have hready := h.ready
  have hgo : ¬(s.gameStart = false ∨ s.thread.inLobby) := by
    rw [hgame, hwait]
    exact fun hc => hc.elim Bool.noConfusion id
  rcases play_cases hu.p pressed with ⟨hold, hplay⟩ | ⟨d, hd, hne, hplay⟩
  · have harrows : ((s.played ++ [pressed]).filterMap direction).getLast? = (points s.sent).getLast? := by
      rw [directions_snoc]
      cases hd : direction pressed with
      | none =>
        rw [Option.toList_none, List.append_nil]
        exact hu.arrows
      | some d =>
        rw [Option.toList_some, List.getLast?_concat]
        exact (getLast?_of_getLastD (isUnit_direction hd) (hu.aux.symm.trans (hold d hd))).symm
    rw [hplay]
    exact ⟨⟨fun hc => absurd hc hgo, hu.p, hu.aux, harrows, hu.sending, hu.setting⟩,
      h.alternate, hready, h.first, h.unit, h.turns, fun d hd => harrows.symm.trans hd⟩
  · have harrows : ((s.played ++ [pressed]).filterMap direction).getLast? = (points (s.sent ++ [.point d])).getLast? := by
      rw [directions_snoc, hd, Option.toList_some, List.getLast?_concat, points_point, List.getLast?_concat]
    rw [hplay]
    refine ⟨⟨fun hc => absurd hc hgo, rfl, ?_, harrows, ?_, ?_⟩, ?_, ?_, ?_, ?_, ?_, fun e he => harrows.symm.trans he⟩
    · rw [points_point, List.getLastD_concat]
    · rw [booleans_point]
      exact hu.sending
    · rw [booleans_point]
      exact hu.setting
    · rw [booleans_point]
      exact h.alternate
    · rw [booleans_point]
      exact hready
    · rw [booleans_point, points_point, List.map_append, ← List.append_assoc, ← h.first]
      rfl
    · rw [points_point]
      intro p hp
      rcases List.mem_append.1 hp with hp | hp
      · exact h.unit p hp
      · rw [List.mem_singleton.1 hp]
        exact isUnit_direction hd
    · rw [points_point]
      apply h.turns.append (List.isChain_singleton d)
      intro p hp q hq
      obtain rfl := Option.some.inj hq
      rw [hu.aux, List.getLastD_eq_getLast?, hp, Option.getD_some] at hne
      exact hne

/-- It sends what `ready` is not. -/
theorem lobbyKey_cases (pressed : UInt8) (ready : Bool) :
    lobbyKey pressed ready = .sending (!ready) ∨ lobbyKey pressed ready = .exited ∨ lobbyKey pressed ready = .waiting := by
  unfold lobbyKey
  split
  · rename_i h
    exact .inl (by rw [h.2]; rfl)
  · split
    · rename_i h
      exact .inl (by rw [h.2]; rfl)
    · split
      · exact .inr (.inl rfl)
      · exact .inr (.inr rfl)

/-- Putting `ready` to FALSE keeps it so when it was, or will be set. -/
theorem clear_keeps {s : Presses} (h : Orderly s) (hu : Underway s) :
    Underway { s with cleared := true, ready := false } ∧
      (Orderly { s with cleared := true, ready := false } ↔ (s.thread.settled → s.ready = false)) := by
  refine ⟨⟨hu.lobby, hu.p, hu.aux, hu.arrows, hu.sending, hu.setting⟩, fun h' hset => ?_, fun hok => ?_⟩
  · rw [h.ready hset]
    exact (h'.ready hset).symm
  · exact ⟨h.alternate, fun hset => (hok hset).symm.trans (h.ready hset), h.first, h.unit, h.turns, h.arrow⟩

/-- A key that finds `gameStart` FALSE. -/
theorem key_keeps {s : Presses} (h : Orderly s) (hu : Underway s) (hwait : s.thread = .waiting) (hgame : s.gameStart = false)
    (pressed : UInt8) : Underway { s with thread := .reading pressed } ∧ Orderly { s with thread := .reading pressed } := by
  have hplayed := hu.lobby (.inl hgame)
  have hready : s.ready = (booleans s.sent).getLastD false := by
    apply h.ready
    rw [hwait]
    trivial
  refine ⟨⟨fun _ => hplayed, hu.p, hu.aux, hu.arrows, fun value hv => ?_, fun value hv => ?_⟩,
    h.alternate, fun _ => hready, h.first, h.unit, h.turns, h.arrow⟩
  · cases hv
  · cases hv

/-- The thread of a key of the lobby goes on. -/
theorem test_keeps {s : Presses} {pressed : UInt8} (h : Orderly s) (hu : Underway s) (hread : s.thread = .reading pressed) :
    Underway { s with thread := lobbyKey pressed s.ready } ∧ Orderly { s with thread := lobbyKey pressed s.ready } := by
  have hplayed : s.played = [] := by
    apply hu.lobby
    rw [hread]
    exact .inr trivial
  have hready : s.ready = (booleans s.sent).getLastD false := by
    apply h.ready
    rw [hread]
    trivial
  refine ⟨⟨fun _ => hplayed, hu.p, hu.aux, hu.arrows, fun value hv => ?_, fun value hv => ?_⟩,
    h.alternate, fun _ => hready, h.first, h.unit, h.turns, h.arrow⟩
  · rcases lobbyKey_cases pressed s.ready with hk | hk | hk
    · rw [show lobbyKey pressed s.ready = .sending value from hv] at hk
      obtain rfl := KeyThread.sending.inj hk
      rw [Bool.not_not, hready]
    · exact KeyThread.noConfusion (hk.symm.trans hv)
    · exact KeyThread.noConfusion (hk.symm.trans hv)
  · rcases lobbyKey_cases pressed s.ready with hk | hk | hk
    · exact KeyThread.noConfusion (hk.symm.trans hv)
    · exact KeyThread.noConfusion (hk.symm.trans hv)
    · exact KeyThread.noConfusion (hk.symm.trans hv)

theorem send_keeps {s : Presses} {value : Bool} (h : Orderly s) (hu : Underway s) (hsend : s.thread = .sending value) :
    Underway { s with sent := s.sent ++ [.boolean value], thread := .setting value } ∧
      Orderly { s with sent := s.sent ++ [.boolean value], thread := .setting value } := by
  have hplayed : s.played = [] := by
    apply hu.lobby
    rw [hsend]
    exact .inr trivial
  have hpoints := hu.no_points hplayed
  have hlast := hu.sending value hsend
  refine ⟨⟨fun _ => hplayed, hu.p, ?_, ?_, fun v hv => ?_, fun v hv => ?_⟩, ?_, fun hset => ?_, ?_, ?_, ?_, ?_⟩
  · rw [points_boolean]
    exact hu.aux
  · rw [points_boolean]
    exact hu.arrows
  · cases hv
  · obtain rfl := KeyThread.setting.inj hv
    rw [booleans_boolean, List.getLastD_concat]
  · rw [booleans_boolean]
    apply isChain_snoc h.alternate
    rw [hlast]
    exact Bool.not_ne_self value
  · cases hset
  · have hfirst := h.first
    rw [hpoints, List.map_nil, List.append_nil] at hfirst
    rw [booleans_boolean, points_boolean, hpoints, List.map_append, ← hfirst, List.map_nil, List.append_nil]
    rfl
  · rw [points_boolean]
    exact h.unit
  · rw [points_boolean]
    exact h.turns
  · rw [points_boolean]
    exact h.arrow

theorem set_keeps {s : Presses} {value : Bool} (h : Orderly s) (hu : Underway s) (hset : s.thread = .setting value) :
    Underway { s with ready := value, thread := .waiting } ∧ Orderly { s with ready := value, thread := .waiting } := by
  have hplayed : s.played = [] := by
    apply hu.lobby
    rw [hset]
    exact .inr trivial
  refine ⟨⟨fun _ => hplayed, hu.p, hu.aux, hu.arrows, fun v hv => ?_, fun v hv => ?_⟩,
    h.alternate, fun _ => (hu.setting value hset).symm, h.first, h.unit, h.turns, h.arrow⟩
  · cases hv
  · cases hv

/-! ## Every run -/

/-- What a step can do. -/
theorem press_cases {s s' : Presses} {a : PressAct} (h : pressStep s a = some s') :
    match a with
    | .clear => s' = { s with cleared := true, ready := false }
    | .gameStarts => s' = { s with gameStart := true }
    | .key pressed => s.thread = .waiting ∧
        (s.gameStart = true ∧ s' = s.play pressed ∨ s.gameStart = false ∧ s' = { s with thread := .reading pressed })
    | .test => ∃ pressed, s.thread = .reading pressed ∧ s' = { s with thread := lobbyKey pressed s.ready }
    | .send => ∃ value, s.thread = .sending value ∧
        s' = { s with sent := s.sent ++ [.boolean value], thread := .setting value }
    | .set => ∃ value, s.thread = .setting value ∧ s' = { s with ready := value, thread := .waiting } := by
  cases a with
  | clear => exact (Option.some.inj (Option.ite_none_right_eq_some.1 h).2).symm
  | gameStarts => exact (Option.some.inj (Option.ite_none_right_eq_some.1 h).2).symm
  | key pressed =>
    simp only [pressStep] at h
    split at h
    · rename_i hth
      refine ⟨hth, ?_⟩
      cases hgame : s.gameStart with
      | true =>
        rw [hgame, if_pos rfl] at h
        exact .inl ⟨rfl, (Option.some.inj h).symm⟩
      | false =>
        rw [hgame, if_neg Bool.false_ne_true] at h
        exact .inr ⟨rfl, (Option.some.inj h).symm⟩
    · cases h
  | test =>
    simp only [pressStep] at h
    split at h
    · exact ⟨_, ‹_›, (Option.some.inj h).symm⟩
    · cases h
  | send =>
    simp only [pressStep] at h
    split at h
    · exact ⟨_, ‹_›, (Option.some.inj h).symm⟩
    · cases h
  | set =>
    simp only [pressStep] at h
    split at h
    · exact ⟨_, ‹_›, (Option.some.inj h).symm⟩
    · cases h

/-- One step. -/
theorem pressStep_keeps {s s' : Presses} {a : PressAct} (h : Orderly s) (hu : Underway s) (hs : pressStep s a = some s') :
    Underway s' ∧ (Orderly s' ↔ ClearsUnready s a) := by
  have hcases := press_cases hs
  cases a with
  | clear =>
    obtain rfl : s' = { s with cleared := true, ready := false } := hcases
    exact clear_keeps h hu
  | gameStarts =>
    obtain rfl : s' = { s with gameStart := true } := hcases
    refine ⟨⟨fun hc => hu.lobby (.inr ?_), hu.p, hu.aux, hu.arrows, hu.sending, hu.setting⟩, iff_of_true ?_ trivial⟩
    · exact hc.resolve_left Bool.noConfusion
    · exact ⟨h.alternate, h.ready, h.first, h.unit, h.turns, h.arrow⟩
  | key pressed =>
    obtain ⟨hth, ⟨hgame, rfl⟩ | ⟨hgame, rfl⟩⟩ := hcases
    · obtain ⟨hu', h'⟩ := play_keeps h hu hth hgame pressed
      exact ⟨hu', iff_of_true h' trivial⟩
    · obtain ⟨hu', h'⟩ := key_keeps h hu hth hgame pressed
      exact ⟨hu', iff_of_true h' trivial⟩
  | test =>
    obtain ⟨pressed, hth, rfl⟩ := hcases
    obtain ⟨hu', h'⟩ := test_keeps h hu hth
    exact ⟨hu', iff_of_true h' trivial⟩
  | send =>
    obtain ⟨value, hth, rfl⟩ := hcases
    obtain ⟨hu', h'⟩ := send_keeps h hu hth
    exact ⟨hu', iff_of_true h' trivial⟩
  | set =>
    obtain ⟨value, hth, rfl⟩ := hcases
    obtain ⟨hu', h'⟩ := set_keeps h hu hth
    exact ⟨hu', iff_of_true h' trivial⟩

/-- In every run of the two threads, what is sent is orderly in every state
exactly when `ready = FALSE` finds `ready` FALSE or a value on its way. -/
theorem orderly_iff {tr : List (Presses × PressAct)} {s : Presses} (h : pressMachine.Run Presses.start tr s) :
    ((∀ e ∈ tr, Orderly e.1) ∧ Orderly s) ↔ ∀ e ∈ tr, ClearsUnready e.1 e.2 := by
  apply h.all_iff_of orderly_start underway_start
  intro t a u ht hut hs
  exact pressStep_keeps ht hut hs

/-- A player gets ready, and turns left and up when the game has started. -/
theorem orderly_iff_played : ∃ tr s, pressMachine.Run Presses.start tr s ∧
    s.sent = [.boolean true, .point ⟨-1, 0⟩, .point ⟨0, -1⟩] ∧
    (((∀ e ∈ tr, Orderly e.1) ∧ Orderly s) ↔ ∀ e ∈ tr, ClearsUnready e.1 e.2) := by
  obtain ⟨tr, s, hr, hsent⟩ : ∃ tr s, pressMachine.Run Presses.start tr s ∧
      s.sent = [.boolean true, .point ⟨-1, 0⟩, .point ⟨0, -1⟩] :=
    ⟨_, _, Machine.run_of_trace
      (l := [.clear, .key enter, .test, .send, .set, .gameStarts, .key leftArrow, .key leftArrow, .key upArrow]) rfl, rfl⟩
  exact ⟨tr, s, hr, hsent, orderly_iff hr⟩

/-- A key before `ready = FALSE` is forgotten, and the next one says TRUE again. -/
theorem ready_twice : ¬∀ s, pressMachine.Reaches s → Orderly s := by
  intro h
  obtain ⟨s, hr, hsent⟩ : ∃ s, pressMachine.Reaches s ∧ s.sent = [.boolean true, .boolean true] :=
    ⟨_, Machine.reachesBy_of_runActs
      (l := [.key enter, .test, .send, .set, .clear, .key enter, .test, .send]) (.init rfl) rfl, rfl⟩
  have halt := (h s hr).alternate
  rw [hsent] at halt
  exact absurd halt (by decide)

end Snuffin.Client
