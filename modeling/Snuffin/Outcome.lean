import Snuffin.RoundBoard
/-!
# How a game ends

Deaths happen on the board, in `pDef`, and the results are read off the client
table, where `playerLost` has set LOOSE. While nobody comes or goes the two
records say the same after every tick, and the last tick decides who is sent
TRUE.
-/
open Lib Snuffin.Game

namespace Snuffin.ChildServer

/-! ## The records -/

/-- The snakes that are lost on the board are those of the LOOSE clients. -/
def Agrees (s : Server) : Prop :=
  ∃ b, s.gameBoard = some b ∧ ∀ i, b.pDef i = 1 ↔ ∃ c, s.clients i = some c ∧ c.state = .loose

/-- One round of the loop of `initGame`: the directions that have come, and a
tick. -/
def gameRound (inputs : Nat → Input) (k : Nat) (s : Server) : Option Server :=
  tick (inputs k).off (receive (inputs k).directions s)

/-- The connections that are sent TRUE as their result. -/
def winners (es : List Effect) : List Nat :=
  es.filterMap fun | .send .result con (.boolean true) => some con | _ => none

/-- At least two snakes are alive on the board, and the tick loses them all. -/
def AllDie (off : Slot → UInt8) (s : Server) : Prop :=
  ∃ b, s.gameBoard = some b ∧ 2 ≤ (alive b (List.finRange maxPlayers)).length ∧
    ∀ i, b.pDef i = 0 → i ∈ (updateBoard off b).lost

/-- Every client has a snake, alive or LOOSE, and no empty slot has one. -/
structure Matched (t : Table) (b : GameBoard) : Prop where
  client : ∀ i c, t i = some c → b.pDef i = 0 ∧ c.state ≠ .loose ∨ b.pDef i = 1 ∧ c.state = .loose
  empty : ∀ i, t i = none → b.pDef i = -1

theorem Matched.agrees {s : Server} {b : GameBoard} (h : Matched s.clients b) (hb : s.gameBoard = some b) : Agrees s := by
  refine ⟨b, hb, fun i => ⟨?_, ?_⟩⟩
  · intro h1
    cases hi : s.clients i with
    | none =>
      rw [h.empty i hi] at h1
      exact absurd h1 (by decide)
    | some c =>
      rcases h.client i c hi with ⟨h0, -⟩ | ⟨-, hl⟩
      · rw [h0] at h1
        exact absurd h1 (by decide)
      · exact ⟨c, rfl, hl⟩
  · rintro ⟨c, hc, hl⟩
    rcases h.client i c hc with ⟨-, hn⟩ | ⟨h1, -⟩
    · exact absurd hl hn
    · exact h1

theorem Matched.inGame {t : Table} {b : GameBoard} (h : Matched t b) : InGame t b where
  flag i c hc := (h.client i c hc).imp And.left id
  client i h0 := by
    cases hi : t i with
    | none =>
      rw [h.empty i hi] at h0
      exact absurd h0 (by decide)
    | some c => exact ⟨c, rfl⟩

/-- The alive snakes are those of the clients still in. -/
theorem Matched.alive_iff {t : Table} {b : GameBoard} (h : Matched t b) (i : Slot) : b.pDef i = 0 ↔ i ∈ inSlots t := by
  constructor
  · intro h0
    obtain ⟨c, hc⟩ := h.inGame.client i h0
    rcases h.client i c hc with ⟨-, hn⟩ | ⟨h1, -⟩
    · exact mem_inSlots.2 ⟨c, hc, hn⟩
    · rw [h0] at h1
      exact absurd h1 (by decide)
  · exact h.inGame.alive

/-! ## One round -/

/-- A tick keeps the records matched, and makes LOOSE whom it loses. -/
theorem Matched.tick {s : Server} {b : GameBoard} (h : Matched s.clients b) (hb : s.gameBoard = some b)
    (off : Slot → UInt8) :
    ∃ s', ChildServer.tick off s = some s' ∧ s'.gameBoard = some (updateBoard off b).board ∧
      Matched s'.clients (updateBoard off b).board := by
  obtain ⟨s', -, ht, -⟩ := h.inGame.tick hb off
  obtain ⟨b', sv, hb', hl, rfl⟩ := tick_eq_some ht
  obtain rfl : b' = b := Option.some.inj (hb'.symm.trans hb)
  have hsv := (playersLost_some hl).2
  refine ⟨_, ht, rfl, ⟨fun i c hc => ?_, fun i hi => ?_⟩⟩
  · have hi : sv.clients i = some c := hc
    rw [hsv i] at hi
    rcases lost_updateBoard off b' i with ⟨hn, e⟩ | ⟨hin, -, e⟩
    · rw [if_neg hn] at hi
      rw [e]
      exact h.client i c hi
    · rw [if_pos hin] at hi
      obtain ⟨d, -, rfl⟩ := Option.map_eq_some_iff.1 hi
      exact .inr ⟨e, rfl⟩
  · have hi : sv.clients i = none := hi
    rw [hsv i] at hi
    rcases lost_updateBoard off b' i with ⟨hn, e⟩ | ⟨hin, h0, -⟩
    · rw [if_neg hn] at hi
      rw [e]
      exact h.empty i hi
    · obtain ⟨c, hc⟩ := h.inGame.client i h0
      rw [if_pos hin, hc] at hi
      cases hi

/-- There is a board and the records match. -/
def Even (s : Server) : Prop := ∃ b, s.gameBoard = some b ∧ Matched s.clients b

theorem Even.agrees {s : Server} (h : Even s) : Agrees s := by
  obtain ⟨b, hb, hm⟩ := h
  exact hm.agrees hb

/-- Directions change no record. -/
theorem Even.receive {s : Server} (h : Even s) (l : List (Slot × Point)) : Even (receive l s) := by
  obtain ⟨b, hb, hm⟩ := h
  obtain ⟨pDir, hr⟩ := receive_board l hb
  exact ⟨_, hr, hm.client, hm.empty⟩

theorem Even.round {inputs : Nat → Input} (k : Nat) {s : Server} (h : Even s) :
    ∃ s', gameRound inputs k s = some s' ∧ Even s' := by
  obtain ⟨b, hb, hm⟩ := h.receive (inputs k).directions
  obtain ⟨s', ht, hb', hm'⟩ := hm.tick hb (inputs k).off
  exact ⟨s', ht, _, hb', hm'⟩

/-- A tick after which nobody is in has lost all the snakes. -/
theorem Matched.all_die {s s' : Server} {b : GameBoard} (h : Matched s.clients b) (hb : s.gameBoard = some b)
    {off : Slot → UInt8} (ht : ChildServer.tick off s = some s') (hout : inSlots s'.clients = []) :
    ∀ i, b.pDef i = 0 → i ∈ (updateBoard off b).lost := by
  intro i h0
  obtain ⟨u, hu, -, hm⟩ := h.tick hb off
  obtain rfl : u = s' := Option.some.inj (hu.symm.trans ht)
  rcases lost_updateBoard off b i with ⟨-, e⟩ | ⟨hin, -⟩
  · rw [← e, hm.alive_iff, hout] at h0
    cases h0
  · exact hin

/-! ## The results -/

theorem winners_resultOf (c : Client) : winners (resultOf c) = if c.state = .loose then [] else [c.con] := by
  unfold resultOf
  by_cases h : c.state = .loose <;> simp [h, winners]

/-- TRUE goes to the clients that are still in, and to nobody else. -/
theorem winners_sendResults (s : Server) :
    winners (sendResults { s with out := [] }).out =
      (inSlots s.clients).flatMap fun i => (s.clients i).elim [] fun c => [c.con] := by
  have hslots : ∀ l : List Slot, (∀ i ∈ l, ∃ c, s.clients i = some c) →
      winners (l.flatMap fun i => (s.clients i).elim [] resultOf) =
        (l.filter fun i => (s.clients i).any fun c => c.state ≠ .loose).flatMap
          fun i => (s.clients i).elim [] fun c => [c.con] := by
    intro l
    induction l with
    | nil => intro _; rfl
    | cons i l ih =>
      intro hl
      obtain ⟨c, hc⟩ := hl i (by simp)
      have ih := ih fun j hj => hl j (by simp [hj])
      have happ : ∀ es es' : List Effect, winners (es ++ es') = winners es ++ winners es' := fun _ _ =>
        List.filterMap_append
      rw [List.flatMap_cons, happ, ih, hc, Option.elim_some, winners_resultOf, List.filter_cons]
      by_cases h : c.state = .loose <;> simp [hc, h]
  exact hslots (occupied s.clients) fun i hi => mem_occupied.1 hi

theorem winners_length (s : Server) :
    (winners (sendResults { s with out := [] }).out).length = (inSlots s.clients).length := by
  rw [winners_sendResults, List.length_flatMap]
  have hone : ∀ i ∈ inSlots s.clients, ((s.clients i).elim [] fun c => [c.con]).length = 1 := by
    intro i hi
    obtain ⟨c, hc, -⟩ := mem_inSlots.1 hi
    rw [hc]
    rfl
  rw [List.map_congr_left hone]
  simp

/-! ## From the lobby to the end -/

/-- A request makes nobody LOOSE. -/
theorem Client.Next.not_loose {c c' : Client} (h : c.Next c') (hs : c.state ≠ .loose) : c'.state ≠ .loose := by
  cases h with
  | kept => exact hs
  | named => exact hs
  | admitted => simp [Client.toLobby]
  | toggled st hst => exact hst
  | started => simp [Client.start]

/-- In the lobby nobody is LOOSE. -/
theorem lobby_not_loose {M : Type} {cd : Codec M} {s : Round} (h : (roundMachine cd).Reaches s)
    (hp : s.phase = .lobby) : ∀ n c, s.server.clients n = some c → c.state ≠ .loose := by
  revert hp
  refine h.inv (I := fun s => s.phase = .lobby → ∀ n c, s.server.clients n = some c → c.state ≠ .loose) ?_ ?_
  · rintro _ rfl - n c hc
    cases hc
  · intro s a s' hi _ hs hp m c' hm
    have hcases := round_cases hs
    -- A step that ends in the lobby starts there, and is no tick.
    have hlobby : s.phase = .lobby ∧ ¬∃ off, a = .tick off := by
      cases a with
      | accept n =>
        obtain ⟨-, rfl⟩ := hcases
        exact ⟨hp, nofun⟩
      | request n db junk res d =>
        obtain ⟨sv, -, rfl⟩ := hcases
        exact ⟨hp, nofun⟩
      | initBoard garbage => exact ⟨hcases.1, nofun⟩
      | loadSnake n =>
        obtain ⟨-, ⟨-, rfl⟩ | ⟨c, b, -, -, rfl⟩⟩ := hcases
        · cases hp
        · cases hp
      | loaded =>
        obtain ⟨-, rfl⟩ := hcases
        cases hp
      | tick off =>
        obtain ⟨-, b, sv, -, -, rfl⟩ := hcases
        dsimp only at hp
        split at hp <;> cases hp
    rcases round_next hs hm with ⟨c, hc, hn | ⟨htick, -⟩⟩ | rfl
    · exact hn.not_loose (hi hlobby.1 m c hc)
    · exact absurd htick hlobby.2
    · simp [newClient]

/-- A game that starts when nobody is LOOSE starts with matching records. -/
theorem setup_matched (garbage : GameBoard) {s : Server} (hl : ∀ n c, s.clients n = some c → c.state ≠ .loose) :
    ∃ b, setup 4 garbage s = some { s with gameBoard := some b } ∧ Matched s.clients b := by
  obtain ⟨b, hs, hload, -⟩ := setup_spec garbage s
  refine ⟨b, hs, ⟨fun i c hc => .inl ⟨?_, hl i c hc⟩, fun i hi => ?_⟩⟩
  · rw [hload.pDef, if_pos (mem_occupied.2 ⟨c, hc⟩)]
  · rw [hload.pDef, if_neg]
    intro hocc
    obtain ⟨c, hc⟩ := mem_occupied.1 hocc
    rw [hi] at hc
    cases hc

/-- A game that at least two players start and nobody joins or leaves comes to
an end. After every tick the lost snakes are those of the LOOSE clients; at
most one client is sent TRUE; and when nobody is, the last tick lost all of at
least two alive snakes. -/
theorem game_outcome {M : Type} {cd : Codec M} {r : Round} (h : (roundMachine cd).Reaches r) (hp : r.phase = .lobby)
    (h2 : 2 ≤ (occupied r.server.clients).length) (garbage : GameBoard) (inputs : Nat → Input) :
    ∃ s₀ m t s', setup 4 garbage r.server = some s₀ ∧ gameLoop inputs 200 s₀ = some (m + 1, s') ∧
      rounds (gameRound inputs) m s₀ = some t ∧ gameRound inputs m t = some s' ∧
      (∀ k, ∃ sk, rounds (gameRound inputs) k s₀ = some sk ∧ Agrees sk) ∧
      (winners (sendResults { s' with out := [] }).out).length ≤ 1 ∧
      (winners (sendResults { s' with out := [] }).out = [] →
        AllDie (inputs m).off (receive (inputs m).directions t)) := by
  obtain ⟨b₀, hs, hm₀⟩ := setup_matched garbage (lobby_not_loose h hp)
  obtain ⟨s₀, n, s', hs₀, hloop, -, -⟩ := game_ends r.server garbage inputs h2
  obtain rfl : { r.server with gameBoard := some b₀ } = s₀ := Option.some.inj (hs.symm.trans hs₀)
  have hloop' : doWhile (gameRound inputs) (fun s => isgameOver s.clients) 200 0 { r.server with gameBoard := some b₀ } =
      some (n, s') := hloop
  obtain ⟨m, t, rfl, -, ht, hgo, hlast, hover⟩ := rounds_of_doWhile rfl hloop'
  have heven : ∀ k, ∃ sk, rounds (gameRound inputs) k { r.server with gameBoard := some b₀ } = some sk ∧ Even sk :=
    fun k => rounds_inv (fun k s hs => hs.round k) k ⟨b₀, rfl, hm₀⟩
  refine ⟨_, m, t, s', hs, hloop, ht, hlast, fun k => ?_, ?_, fun hnone => ?_⟩
  · obtain ⟨sk, hk, hek⟩ := heven k
    exact ⟨sk, hk, hek.agrees⟩
  · rw [winners_length]
    exact (isgameOver_iff s'.clients).1 hover
  · obtain ⟨u, hu, heu⟩ := heven m
    obtain rfl : u = t := Option.some.inj (hu.symm.trans ht)
    obtain ⟨b, hb, hm⟩ := heu.receive (inputs m).directions
    have hin : inSlots s'.clients = [] := by
      rw [← List.length_eq_zero_iff, ← winners_length, hnone]
      rfl
    refine ⟨b, hb, ?_, hm.all_die hb hlast hin⟩
    -- Two were in before the tick: at the start of the game, or because the loop went on.
    rcases hgo with rfl | hgo
    · obtain rfl : { r.server with gameBoard := some b₀ } = u := Option.some.inj ht
      have hsub : occupied r.server.clients ⊆ alive b (List.finRange maxPlayers) := by
        intro i hi
        obtain ⟨c, hc⟩ := mem_occupied.1 hi
        have h0 : b.pDef i = 0 := hm.inGame.alive (mem_inSlots.2 ⟨c, hc, lobby_not_loose h hp i c hc⟩)
        exact List.mem_filter.2 ⟨List.mem_finRange i, by simpa using h0⟩
      exact h2.trans ((nodup_occupied r.server.clients).subperm hsub).length_le
    · exact hm.inGame.two_alive hgo

/-- Two players start a game and send no directions. -/
theorem game_outcome_two : ∃ s₀ m t s', gameLoop (fun _ => ⟨[], fun _ => 0⟩) 200 s₀ = some (m + 1, s') ∧
    rounds (gameRound fun _ => ⟨[], fun _ => 0⟩) m s₀ = some t ∧ Agrees s' ∧
    (winners (sendResults { s' with out := [] }).out).length ≤ 1 := by
  obtain ⟨r, hr, hp, h2⟩ : ∃ r, (roundMachine eagerCodec).Reaches r ∧ r.phase = .lobby ∧
      2 ≤ (occupied r.server.clients).length :=
    ⟨_, Machine.reachesBy_of_runActs (l := twoReady) (.init rfl) rfl, rfl, Nat.le_refl 2⟩
  obtain ⟨s₀, m, t, s', -, hloop, ht, hlast, hag, hone, -⟩ := game_outcome hr hp h2 blank fun _ => ⟨[], fun _ => 0⟩
  obtain ⟨u, hu, ha⟩ := hag (m + 1)
  rw [rounds, ht, Option.bind_some, hlast, Option.some.injEq] at hu
  exact ⟨s₀, m, t, s', hloop, ht, hu ▸ ha, hone⟩

end Snuffin.ChildServer
