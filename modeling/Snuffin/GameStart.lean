import Snuffin.RoundBoard
/-!
# The start of a game

`checkGameStart` runs after a TRUE and nowhere else, so a lobby in which all
are ready has started its game exactly as long as nobody's leaving is what
makes all ready. And a started game takes directions at once, while the board
is set up later and snake by snake.
-/
open Lib Snuffin.Game

namespace Snuffin.ChildServer

/-! ## All ready -/

/-- `checkGameStart` looks at the states only. -/
theorem allReady_congr {t t' : Table} (h : ∀ i, (t i).map Client.state = (t' i).map Client.state) :
    allReady t = allReady t' := by
  have hocc : occupied t = occupied t' := by
    apply List.filter_congr
    intro i _
    have hi := congrArg Option.isSome (h i)
    rwa [Option.isSome_map, Option.isSome_map] at hi
  have hstate : ∀ i, ((t i).any fun c => c.state = .readyPlay) = (t' i).any fun c => c.state = .readyPlay := by
    intro i
    have hi := congrArg (fun o => o.any fun st => decide (st = State.readyPlay)) (h i)
    simpa [Option.any_map, Function.comp_def] using hi
  unfold allReady
  rw [hocc]
  simp only [hstate]

/-- One client that is not READY_PLAY is enough. -/
theorem not_allReady {t : Table} {n : Slot} {c : Client} (hn : t n = some c) (hs : c.state ≠ .readyPlay) :
    allReady t = false := by
  apply Bool.eq_false_iff.2
  intro h
  exact hs ((allReady_iff.1 h).1 n c hn)

/-- A client leaves before the start only when fewer than two stay or one of
those who stay is not READY_PLAY. -/
def LeavesUnready {M : Type} (s : Round) : RoundAct M → Prop
  | .request n _ _ false _ => s.server.startGame = true ∨ allReady (Function.update s.server.clients n none) = false
  | _ => True

instance {M : Type} (s : Round) : ∀ a : RoundAct M, Decidable (LeavesUnready s a)
  | .request n _ _ false _ =>
    inferInstanceAs (Decidable (s.server.startGame = true ∨ allReady (Function.update s.server.clients n none) = false))
  | .request _ _ _ true _ | .accept _ | .initBoard _ | .loadSnake _ | .loaded | .tick _ => .isTrue trivial

/-- A lobby that waits has somebody who is not ready, or fewer than two
clients; a started game has been told to its clients. -/
structure StartInv (s : Round) : Prop where
  waits : s.server.startGame = false → allReady s.server.clients = false
  told : s.server.startGame = true → s.moved ≠ []

/-- A message that does not start the game leaves somebody unready. -/
theorem Resolved.unready {M : Type} {cd : Codec M} {db : Db} {d : M} {n : Slot} {c : Client} {t t' : Table}
    {es : List Effect} (hc : t n = some c) (h : Resolved cd db d n c t t' es false) (ht : allReady t = false) :
    allReady t' = false := by
  have hself : ∀ c' : Client, Function.update t n (some c') n = some c' := fun c' => Function.update_self n _ t
  cases h with
  | kept => exact ht
  | named =>
    rw [← ht]
    apply allReady_congr
    intro i
    by_cases hi : i = n
    · subst hi; rw [Function.update_self, hc]; rfl
    · rw [Function.update_of_ne hi]
  | refused => exact ht
  | rejected => exact ht
  | admitted _ _ hu _ =>
    subst hu
    exact not_allReady (hself _) (by simp [Client.toLobby])
  | toggled st _ _ hst hu hall =>
    subst hu
    rcases hst with rfl | rfl
    · exact hall rfl
    · exact not_allReady (hself _) (by simp)

/-- A message that starts the game finds at least two clients to tell. -/
theorem Resolved.tells {M : Type} {cd : Codec M} {db : Db} {d : M} {n : Slot} {c : Client} {t t' : Table}
    {es : List Effect} (h : Resolved cd db d n c t t' es true) : ChildServer.started es ≠ [] := by
  have hmoves : ∀ m con, ChildServer.cons t' m = some con → con ∈ ChildServer.started es := fun _ _ => h.moves
  cases h with
  | started u _ _ hall =>
    obtain ⟨-, h2⟩ := allReady_iff.1 hall
    have hne : occupied u ≠ [] := by
      intro h0
      rw [h0] at h2
      simp at h2
    obtain ⟨i, hi⟩ := List.exists_mem_of_ne_nil _ hne
    obtain ⟨ci, hci⟩ := mem_occupied.1 hi
    apply List.ne_nil_of_mem
    exact hmoves i ci.con (cons_eq_some.2 ⟨ci.start, by rw [hci]; rfl, rfl⟩)

theorem start_step {M : Type} {cd : Codec M} {s s' : Round} {a : RoundAct M} (hb : BoardInv s) (h : StartInv s)
    (hok : LeavesUnready s a) (hs : roundStep cd s a = some s') : StartInv s' := by
  have hcases := round_cases hs
  cases a with
  | accept n =>
    obtain ⟨-, rfl⟩ := hcases
    exact ⟨fun _ => not_allReady (Function.update_self n _ _) (by simp [newClient]), h.told⟩
  | request n db junk res d =>
    obtain ⟨sv, hr, rfl⟩ := hcases
    cases res with
    | false =>
      obtain ⟨c, -, rfl⟩ := resolve_closed hr
      refine ⟨fun hg => ?_, fun hg => List.append_ne_nil_of_left_ne_nil (h.told hg) _⟩
      exact hok.resolve_left (by rw [show s.server.startGame = false from hg]; decide)
    | true =>
      obtain ⟨c, hc, es, b, hres, hout, hg⟩ := resolve_cases hr
      dsimp only at hc hres hout hg
      rw [List.nil_append] at hout
      cases b with
      | false =>
        rw [Bool.false_or] at hg
        refine ⟨fun hf => hres.unready hc (h.waits (hg ▸ hf)), fun ht => ?_⟩
        exact List.append_ne_nil_of_left_ne_nil (h.told (hg ▸ ht)) _
      | true =>
        refine ⟨fun hf => ?_, fun _ => List.append_ne_nil_of_right_ne_nil _ ?_⟩
        · rw [hg] at hf
          cases hf
        · rw [hout]
          exact hres.tells
  | initBoard garbage =>
    obtain ⟨-, hg, rfl⟩ := hcases
    exact ⟨h.waits, h.told⟩
  | loadSnake n =>
    obtain ⟨-, ⟨-, rfl⟩ | ⟨c, b, -, -, rfl⟩⟩ := hcases
    · exact ⟨h.waits, h.told⟩
    · exact ⟨h.waits, h.told⟩
  | loaded =>
    obtain ⟨-, rfl⟩ := hcases
    exact ⟨h.waits, h.told⟩
  | tick off =>
    obtain ⟨hp, b, sv, -, hl, rfl⟩ := hcases
    have hg := (playersLost_cons hl).2
    have hst := hb.started (by simp [hp])
    refine ⟨fun hf => ?_, fun _ => h.told hst⟩
    rw [show sv.startGame = false from hf, hst] at hg
    cases hg

theorem start_inv {M : Type} {cd : Codec M} {s : Round} (h : (roundMachine cd).ReachesBy LeavesUnready s) : StartInv s := by
  have hboth : BoardInv s ∧ StartInv s := by
    apply h.inv (I := fun s => BoardInv s ∧ StartInv s)
    · intro s hs
      refine ⟨board_inv (.init hs : (roundMachine cd).Reaches s), ?_⟩
      rw [hs]
      exact ⟨fun _ => rfl, fun h => Bool.noConfusion h⟩
    · intro _ _ _ hi hok hs
      exact ⟨board_step hi.1 hs, start_step hi.1 hi.2 hok hs⟩
  exact hboth.2

/-- In every run in which no leaving makes all ready, a lobby with at least
two clients, all READY_PLAY, has started its game and told its clients. -/
theorem all_ready_started {M : Type} {cd : Codec M} {s : Round} (h : (roundMachine cd).ReachesBy LeavesUnready s)
    (h2 : 2 ≤ (occupied s.server.clients).length)
    (hall : ∀ n c, s.server.clients n = some c → c.state = .readyPlay) : s.server.startGame = true ∧ s.moved ≠ [] := by
  have hinv := start_inv h
  have hready : allReady s.server.clients = true := allReady_iff.2 ⟨hall, h2⟩
  have hg : s.server.startGame = true := by
    by_contra hf
    rw [hinv.waits (by simpa using hf)] at hready
    cases hready
  exact ⟨hg, hinv.told hg⟩

/-- Messages of the clients in some slots, in order. -/
def sends (l : List Slot) : List (RoundAct Bytes) := l.map fun n => .request n trusting [] true [97]

/-- The client in slot `n` leaves. -/
def leaves (n : Slot) : RoundAct Bytes := .request n trusting [] false []

/-- Two clients who come after the start are ready, and the two players
leave. -/
theorem all_ready_started_again : ∃ s : Round, (∀ n c, s.server.clients n = some c → c.state = .readyPlay) ∧
    (occupied s.server.clients).length = 2 ∧ s.server.startGame = true ∧ s.moved ≠ [] := by
  obtain ⟨s, hr, hall, hlen⟩ : ∃ s, (roundMachine eagerCodec).ReachesBy LeavesUnready s ∧
      allReady s.server.clients = true ∧ (occupied s.server.clients).length = 2 :=
    ⟨_, Machine.reachesBy_of_runActs
      (l := twoReady ++ [.accept 2, .accept 3] ++ sends [2, 2, 3, 3, 2, 3] ++ [leaves 0, leaves 1]) (.init rfl) rfl,
      rfl, rfl⟩
  obtain ⟨h1, h2⟩ := allReady_iff.1 hall
  exact ⟨s, h1, hlen, all_ready_started hr h2 h1⟩

/-- Of three clients two are ready, and the third leaves while it logs in: all
are ready and nothing starts. -/
theorem ready_without_game : ¬∀ s, (roundMachine eagerCodec).Reaches s → 2 ≤ (occupied s.server.clients).length →
    (∀ n c, s.server.clients n = some c → c.state = .readyPlay) → s.server.startGame = true ∧ s.moved ≠ [] := by
  intro h
  obtain ⟨s, hr, hall, hg⟩ : ∃ s, (roundMachine eagerCodec).Reaches s ∧ allReady s.server.clients = true ∧
      s.server.startGame = false :=
    ⟨_, Machine.reachesBy_of_runActs
      (l := [.accept 0, .accept 1, .accept 2] ++ sends [0, 0, 1, 1, 0, 1] ++ [leaves 2]) (.init rfl) rfl, rfl, rfl⟩
  obtain ⟨h1, h2⟩ := allReady_iff.1 hall
  have hstarted := (h s hr h2 h1).1
  rw [hg] at hstarted
  cases hstarted

/-! ## Directions before the snake -/

instance : ∀ (p : Phase) (n : Slot), Decidable (p.passed n)
  | .lobby, _ => .isFalse id
  | .loading k, n => inferInstanceAs (Decidable (n.val < k))
  | .running, _ | .over, _ => .isTrue trivial

/-- A point is resolved only when the loop of `initGame` has passed its slot,
and a TRUE that makes all ready again after the start finds no client in a slot
that was passed while it was empty. -/
def MovesLoaded {M : Type} (cd : Codec M) (s : Round) : RoundAct M → Prop
  | .request n _ _ true d => ∀ c ∈ s.server.clients n,
    (c.expecting = .movement → (cd.unmarshPoint d).isSome = true → s.phase.passed n) ∧
      (s.server.startGame = true → c.expecting = .readyToPlay → cd.unmarshBoolean d = some true →
        allReady (Function.update s.server.clients n (some { c with state := .readyPlay })) = true →
        ∀ m ∈ occupied s.server.clients, s.phase.passed m → m ∈ s.roster.map Prod.fst)
  | _ => True

instance {M : Type} (cd : Codec M) (s : Round) : ∀ a : RoundAct M, Decidable (MovesLoaded cd s a)
  | .request n _ _ true d => by
    unfold MovesLoaded
    infer_instance
  | .request _ _ _ false _ | .accept _ | .initBoard _ | .loadSnake _ | .loaded | .tick _ => .isTrue trivial

/-- A slot in MOVEMENT is one of a started game, with its snake on the roster
once `initGame` has passed it. -/
def MoveInv (s : Round) : Prop :=
  ∀ n c, s.server.clients n = some c → c.expecting = .movement →
    s.server.startGame = true ∧ (s.phase.passed n → ∃ con, (n, con) ∈ s.roster)

/-- Only the start puts a slot into MOVEMENT. -/
theorem Resolved.movement {M : Type} {cd : Codec M} {db : Db} {d : M} {n m : Slot} {c c' : Client} {t t' : Table}
    {es : List Effect} (h : Resolved cd db d n c t t' es false) (hm : t' m = some c') (he : c'.expecting = .movement) :
    t m = some c' := by
  -- A slot that is written does not expect MOVEMENT.
  have hupdate : ∀ u : Client, u.expecting ≠ .movement → Function.update t n (some u) m = some c' → t m = some c' := by
    intro u hu hm
    by_cases hmn : m = n
    · subst hmn
      rw [Function.update_self, Option.some.injEq] at hm
      exact absurd (hm ▸ he) hu
    · rwa [Function.update_of_ne hmn] at hm
  cases h with
  | kept => exact hm
  | named _ e _ _ _ _ hne _ =>
    refine hupdate _ ?_ hm
    rcases hne with rfl | rfl <;> simp
  | refused => exact hm
  | rejected => exact hm
  | admitted _ _ ht _ =>
    subst ht
    exact hupdate _ (by simp [Client.toLobby]) hm
  | toggled _ _ hr _ ht _ =>
    subst ht
    exact hupdate _ (by simp [hr]) hm

/-- A start comes with a TRUE that makes all ready. -/
theorem Resolved.start_told {M : Type} {cd : Codec M} {db : Db} {d : M} {n : Slot} {c : Client} {t t' : Table}
    {es : List Effect} (h : Resolved cd db d n c t t' es true) : c.expecting = .readyToPlay ∧
      allReady (Function.update t n (some { c with state := .readyPlay })) = true ∧
      ∃ con, .send .start con (.boolean true) ∈ es := by
  have htell := h.tells
  cases h with
  | started u he hu hall =>
    subst hu
    refine ⟨he, hall, ?_⟩
    obtain ⟨con, hcon⟩ := List.exists_mem_of_ne_nil _ htell
    obtain ⟨e, he, hsome⟩ := List.mem_filterMap.1 hcon
    rcases List.mem_append.1 he with he | he
    · obtain ⟨i, ci, -, hi⟩ := mem_forClients.1 he
      obtain ⟨-, hi⟩ := Option.ite_none_right_eq_some.1 hi
      rw [← Option.some.inj hi] at hsome
      cases hsome
    · obtain ⟨i, ci, -, hi⟩ := mem_forClients.1 he
      rw [← Option.some.inj hi] at he
      exact ⟨ci.con, List.mem_append_right _ he⟩

theorem move_request {M : Type} {cd : Codec M} {s : Round} (hb : BoardInv s) (h : MoveInv s) {db : Db} {junk : Bytes}
    {res : Bool} {d : M} {n : Slot} (hok : MovesLoaded cd s (.request n db junk res d)) {sv : Server}
    (hr : resolveRequest cd db junk res d n { s.server with out := [] } = some sv) :
    MoveInv { s with server := sv, moved := s.moved ++ started sv.out } := by
  intro m c' hm he
  cases res with
  | false =>
    obtain ⟨c, -, rfl⟩ := resolve_closed hr
    by_cases hmn : m = n
    · subst hmn
      simp [disconnect] at hm
    · rw [show (disconnect n c { s.server with out := [] }).clients m = s.server.clients m by
        simp [disconnect, hmn]] at hm
      exact h m c' hm he
  | true =>
    obtain ⟨c, hc, es, b, hres, hout, hg⟩ := resolve_cases hr
    dsimp only at hc hres hout hg
    cases b with
    | false =>
      rw [Bool.false_or] at hg
      rw [hg]
      exact h m c' (hres.movement hm he) he
    | true =>
      obtain ⟨hready, hall, con, hstart⟩ := hres.start_told
      have htrue : cd.unmarshBoolean d = some true := by
        apply effects_of_resolve hr rfl (.send .start con (.boolean true))
        rw [hout]
        exact hstart
      have hocc : m ∈ occupied s.server.clients := by
        have hcon : cons sv.clients m = some c'.con := cons_eq_some.2 ⟨c', hm, rfl⟩
        rw [hres.cons hc] at hcon
        obtain ⟨c₀, h₀, -⟩ := cons_eq_some.1 hcon
        exact mem_occupied.2 ⟨c₀, h₀⟩
      refine ⟨hg, fun hp => ?_⟩
      by_cases hst : s.server.startGame = true
      · obtain ⟨e, he, rfl⟩ := List.mem_map.1 ((hok c hc).2 hst hready htrue hall m hocc hp)
        exact ⟨e.2, he⟩
      · -- The first start: `initGame` is still in the lobby.
        have hlobby : s.phase = .lobby := by
          by_contra hl
          exact hst (hb.started hl)
        rw [hlobby] at hp
        exact hp.elim

/-- A tick makes clients LOOSE and nothing else. -/
theorem expecting_of_playersLost {l : List Slot} {s sv : Server} (h : playersLost l s = some sv) {m : Slot} {c' : Client}
    (hm : sv.clients m = some c') : ∃ c, s.clients m = some c ∧ c.expecting = c'.expecting := by
  have hsv := (playersLost_some h).2 m
  rw [hm] at hsv
  split at hsv
  · obtain ⟨c, hc, rfl⟩ := Option.map_eq_some_iff.1 hsv.symm
    exact ⟨c, hc, rfl⟩
  · exact ⟨c', hsv.symm, rfl⟩

theorem move_step {M : Type} {cd : Codec M} {s s' : Round} {a : RoundAct M} (hb : BoardInv s) (h : MoveInv s)
    (hok : MovesLoaded cd s a) (hs : roundStep cd s a = some s') : MoveInv s' := by
  have hcases := round_cases hs
  cases a with
  | accept n =>
    obtain ⟨-, rfl⟩ := hcases
    intro m c' hm he
    by_cases hmn : m = n
    · subst hmn
      rw [setClient_clients, Function.update_self, Option.some.injEq] at hm
      rw [← hm] at he
      cases he
    · rw [setClient_clients, Function.update_of_ne hmn] at hm
      exact h m c' hm he
  | request n db junk res d =>
    obtain ⟨sv, hr, rfl⟩ := hcases
    exact move_request hb h hok hr
  | initBoard garbage =>
    obtain ⟨-, hg, rfl⟩ := hcases
    exact fun m c' hm he => ⟨hg, fun hp => absurd hp (Nat.not_lt_zero _)⟩
  | loadSnake n =>
    obtain ⟨hp, ⟨hn, rfl⟩ | ⟨c, b, hc, -, rfl⟩⟩ := hcases
    · intro m c' hm he
      obtain ⟨hg, hl⟩ := h m c' hm he
      have hmn : m ≠ n := by
        rintro rfl
        rw [hn] at hm
        cases hm
      exact ⟨hg, fun hlt => hl (Phase.passed_of_next hp hmn hlt)⟩
    · intro m c' hm he
      obtain ⟨hg, hl⟩ := h m c' hm he
      refine ⟨hg, fun hlt => ?_⟩
      by_cases hmn : m = n
      · subst hmn
        exact ⟨c.con, List.mem_append_right _ (by simp)⟩
      · obtain ⟨con, hcon⟩ := hl (Phase.passed_of_next hp hmn hlt)
        exact ⟨con, List.mem_append_left _ hcon⟩
  | loaded =>
    obtain ⟨hp, rfl⟩ := hcases
    intro m c' hm he
    obtain ⟨hg, hl⟩ := h m c' hm he
    rw [hp] at hl
    exact ⟨hg, fun _ => hl m.isLt⟩
  | tick off =>
    obtain ⟨hp, b, sv, -, hlost, rfl⟩ := hcases
    intro m c' hm he
    refine ⟨(playersLost_cons hlost).2.trans (hb.started (by simp [hp])), fun _ => ?_⟩
    obtain ⟨c, hc, hec⟩ := expecting_of_playersLost hlost hm
    apply (h m c hc (hec.trans he)).2
    rw [hp]
    trivial

theorem move_inv {M : Type} {cd : Codec M} {s : Round} (h : (roundMachine cd).ReachesBy (MovesLoaded cd) s) :
    MoveInv s := by
  have hboth : BoardInv s ∧ MoveInv s := by
    apply h.inv (I := fun s => BoardInv s ∧ MoveInv s)
    · intro s hs
      refine ⟨board_inv (.init hs : (roundMachine cd).Reaches s), ?_⟩
      rw [hs]
      intro _ _ hn
      cases hn
    · intro _ _ _ hi hok hs
      exact ⟨board_step hi.1 hs, move_step hi.1 hi.2 hok hs⟩
  exact hboth.2

/-- While points come only once the loop of `initGame` has passed their slot,
and no later start finds a slot that was empty then, every direction is taken
on a board that has the snake of its slot. -/
theorem movement_after_load {M : Type} {cd : Codec M} {s s' : Round}
    (h : (roundMachine cd).ReachesBy (MovesLoaded cd) s) {n m : Slot} {db : Db} {junk : Bytes} {res : Bool} {d : M}
    {p : Point} (hok : MovesLoaded cd s (.request n db junk res d))
    (hs : (roundMachine cd).step s (.request n db junk res d) s')
    (hm : .updateMovementDirection m p ∈ s'.server.out) : ∃ b, s.server.gameBoard = some b ∧ b.pDef m ≠ -1 := by
  obtain ⟨sv, hr, rfl⟩ := round_cases hs
  obtain ⟨rfl, rfl, hp, c, hc, he⟩ := effects_of_resolve hr rfl _ hm
  have hpassed : s.phase.passed m := (hok c hc).1 he (by rw [hp]; rfl)
  obtain ⟨con, hcon⟩ := (move_inv h m c hc he).2 hpassed
  have hl : s.phase ≠ .lobby := by
    intro hl
    rw [hl] at hpassed
    exact hpassed
  obtain ⟨b, hb, hi⟩ := (board_inv h).board hl
  exact ⟨b, hb, (hi m).2 ⟨con, hcon⟩⟩

/-- A codec that also takes every message for the point (0, 1). -/
def steering : Codec Bytes := ⟨some, fun _ => some true, fun _ => some ⟨0, 1⟩⟩

/-- The first of two players turns down once the snakes are loaded. -/
theorem movement_after_load_turn : ∃ s s', (roundMachine steering).ReachesBy (MovesLoaded steering) s ∧
    (roundMachine steering).step s (.request 0 trusting [] true [97]) s' ∧
    .updateMovementDirection 0 ⟨0, 1⟩ ∈ s'.server.out ∧ ∃ b, s.server.gameBoard = some b ∧ b.pDef 0 ≠ -1 := by
  obtain ⟨s, hr, hok, s', hs, hm⟩ : ∃ s, (roundMachine steering).ReachesBy (MovesLoaded steering) s ∧
      MovesLoaded steering s (.request 0 trusting [] true [97]) ∧
      ∃ s', (roundMachine steering).step s (.request 0 trusting [] true [97]) s' ∧
        .updateMovementDirection 0 ⟨0, 1⟩ ∈ s'.server.out :=
    ⟨_, Machine.reachesBy_of_runActs (l := twoReady ++ loadSnakes) (.init rfl) rfl, of_decide_eq_true rfl, _, rfl,
      List.mem_singleton_self _⟩
  exact ⟨s, s', hr, hs, hm, movement_after_load hr hok hs hm⟩

/-- The first player turns down as soon as the game has started: there is no
board yet. -/
theorem movement_without_board : ¬∀ s s' n m db junk res d p, (roundMachine steering).Reaches s →
    (roundMachine steering).step s (.request n db junk res d) s' → .updateMovementDirection m p ∈ s'.server.out →
    ∃ b, s.server.gameBoard = some b ∧ b.pDef m ≠ -1 := by
  intro h
  obtain ⟨s, hr, hb, s', hs, hm⟩ : ∃ s, (roundMachine steering).Reaches s ∧ s.server.gameBoard = none ∧
      ∃ s', (roundMachine steering).step s (.request 0 trusting [] true [97]) s' ∧
        .updateMovementDirection 0 ⟨0, 1⟩ ∈ s'.server.out :=
    ⟨_, Machine.reachesBy_of_runActs (l := twoReady) (.init rfl) rfl, rfl, _, rfl, List.mem_singleton_self _⟩
  obtain ⟨b, hb', -⟩ := h s s' 0 0 trusting [] true [97] ⟨0, 1⟩ hr hs hm
  rw [hb] at hb'
  cases hb'

end Snuffin.ChildServer
