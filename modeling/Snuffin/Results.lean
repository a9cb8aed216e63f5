import Snuffin.Departures
/-!
# The results of a game

The loop at the end of `initGame` takes whoever is in a slot for a player, and
its `state` for the outcome. That is right when everybody accepted after the
start has left by then, which is a condition on the whole run.
-/
open Lib Snuffin.Game

namespace Snuffin.ChildServer

variable {M : Type} {cd : Codec M}

/-! ## Who came late -/

/-- The connections accepted after the start. -/
def late (tr : List (Round × RoundAct M)) : List Nat :=
  tr.filterMap fun e => match e.2 with
    | .accept _ => if e.1.server.startGame then some e.1.nextCon else none
    | _ => none

theorem late_append (tr tr' : List (Round × RoundAct M)) : late (tr ++ tr') = late tr ++ late tr' :=
  List.filterMap_append

/-- Snake `n` has been lost. -/
def LostFlag (s : Server) (n : Slot) : Prop := ∃ b, s.gameBoard = some b ∧ b.pDef n = 1

theorem lostFlag_congr {s s' : Server} (h : s'.gameBoard.map GameBoard.pDef = s.gameBoard.map GameBoard.pDef) (n : Slot) :
    LostFlag s' n ↔ LostFlag s n := by
  have hflag : ∀ u : Server, LostFlag u n ↔ ∃ f, u.gameBoard.map GameBoard.pDef = some f ∧ f n = 1 := by
    intro u
    simp [LostFlag]
  rw [hflag, hflag, h]

/-- A client of the game that has started: it was told so, it is LOOSE when its
snake is lost, and it is on the roster once `initGame` has passed its slot. -/
structure Plays (s : Round) (n : Slot) (c : Client) : Prop where
  expecting : c.expecting = .movement
  state : c.state ≠ .readyPlay
  moved : c.con ∈ s.moved
  lost : c.state = .loose ↔ LostFlag s.server n
  listed : s.phase.passed n → (n, c.con) ∈ s.roster

theorem Plays.keep {s s' : Round} {n : Slot} {c : Client} (h : Plays s n c) (hm : s.moved ⊆ s'.moved)
    (hb : s'.server.gameBoard.map GameBoard.pDef = s.server.gameBoard.map GameBoard.pDef)
    (hl : s'.phase.passed n → s.phase.passed n) (hr : s.roster ⊆ s'.roster) : Plays s' n c where
  expecting := h.expecting
  state := h.state
  moved := hm h.moved
  lost := h.lost.trans (lostFlag_congr hb n).symm
  listed hp := hr (h.listed (hl hp))

/-- In a started game everybody plays who did not come late. -/
structure PlayInv (tr : List (Round × RoundAct M)) (s : Round) : Prop where
  board : s.phase = .lobby → s.server.gameBoard = none
  plays : s.server.startGame = true → ∀ n c, s.server.clients n = some c → c.con ∉ late tr → Plays s n c

/-- What a message of another client, or one that is decoded in MOVEMENT, does
to a client of the game: nothing. -/
theorem Resolved.playing {db : Db} {d : M} {n m : Slot} {c c' : Client} {t t' : Table} {es : List Effect} {b : Bool}
    (hc : t n = some c) (h : Resolved cd db d n c t t' es b) (hm : t' m = some c')
    (hp : ∀ c₀, t m = some c₀ → c₀.con = c'.con → c₀.expecting = .movement ∧ c₀.state ≠ .readyPlay) : t m = some c' := by
  -- The slot that is written held the client that sent the message.
  have hself : ∀ u : Client, Function.update t n (some u) m = some c' → u.con = c.con → c.expecting ≠ .movement →
      t m = some c' := by
    intro u hm hu he
    by_cases hmn : m = n
    · subst hmn
      rw [Function.update_self, Option.some.injEq] at hm
      exact absurd (hp c hc (by rw [← hm, hu])).1 he
    · rwa [Function.update_of_ne hmn] at hm
  cases h with
  | kept => exact hm
  | named _ _ _ _ _ he _ _ => exact hself _ hm rfl (by simp [he])
  | refused => exact hm
  | rejected => exact hm
  | admitted _ _ ht ha =>
    subst ht
    refine hself _ hm rfl ?_
    rcases ha with ⟨he, -⟩ | ⟨he, -⟩ <;> simp [he]
  | toggled _ _ he _ ht _ =>
    subst ht
    exact hself _ hm rfl (by simp [he])
  | started u he ht hall =>
    obtain ⟨c₀, h₀, rfl⟩ := Option.map_eq_some_iff.1 hm
    have hready := (allReady_iff.1 hall).1 m c₀ h₀
    rw [ht] at h₀
    by_cases hmn : m = n
    · subst hmn
      rw [Function.update_self, Option.some.injEq] at h₀
      have hmv := (hp c hc (by rw [← h₀]; rfl)).1
      rw [he] at hmv
      cases hmv
    · rw [Function.update_of_ne hmn] at h₀
      exact absurd hready (hp c₀ h₀ rfl).2

/-- When the game starts, everybody plays. -/
theorem Resolved.starts {db : Db} {d : M} {n : Slot} {c : Client} {t t' : Table} {es : List Effect}
    (h : Resolved cd db d n c t t' es true) (s' : Round) (ht : s'.server.clients = t') (hb : s'.server.gameBoard = none)
    (hp : s'.phase = .lobby) (hmoved : ChildServer.started es ⊆ s'.moved) :
    ∀ m c', s'.server.clients m = some c' → Plays s' m c' := by
  intro m c' hm
  rw [ht] at hm
  have hcon : c'.con ∈ s'.moved := hmoved (h.moves (cons_eq_some.2 ⟨c', hm, rfl⟩))
  cases h with
  | started u =>
    obtain ⟨c₀, -, rfl⟩ := Option.map_eq_some_iff.1 hm
    refine ⟨rfl, by simp [Client.start], hcon, ?_, fun hpass => ?_⟩
    · simp [Client.start, LostFlag, hb]
    · rw [hp] at hpass
      exact hpass.elim

/-- Who is not late after a step was not late before it. -/
theorem not_late {tr tr' : List (Round × RoundAct M)} {con : Nat} (h : con ∉ late (tr ++ tr')) : con ∉ late tr := by
  intro hl
  apply h
  rw [late_append]
  exact List.mem_append_left _ hl

theorem play_accept {tr : List (Round × RoundAct M)} {s : Round} (h : PlayInv tr s) (n : Slot) :
    PlayInv (tr ++ [(s, .accept n)])
      { s with server := s.server.setClient n (newClient s.nextCon), nextCon := s.nextCon + 1 } := by
  refine ⟨h.board, fun hg m c hm hnot => ?_⟩
  have hmn : m ≠ n := by
    rintro rfl
    rw [setClient_clients, Function.update_self, Option.some.injEq] at hm
    apply hnot
    rw [late_append, ← hm]
    have hst : s.server.startGame = true := hg
    simp [late, hst, newClient]
  rw [setClient_clients, Function.update_of_ne hmn] at hm
  exact (h.plays hg m c hm (not_late hnot)).keep (List.Subset.refl _) rfl id (List.Subset.refl _)

theorem play_request {tr : List (Round × RoundAct M)} {s : Round} (hb : BoardInv s) (h : PlayInv tr s) {db : Db}
    {junk : Bytes} {res : Bool} {d : M} {n : Slot} {sv : Server}
    (hr : resolveRequest cd db junk res d n { s.server with out := [] } = some sv) :
    PlayInv (tr ++ [(s, .request n db junk res d)]) { s with server := sv, moved := s.moved ++ started sv.out } := by
  have hdef := resolve_pDef hr
  dsimp only at hdef
  have hboard : s.phase = .lobby → sv.gameBoard = none := by
    intro hp
    rw [h.board hp] at hdef
    exact Option.map_eq_none_iff.1 hdef
  refine ⟨hboard, fun hg m c' hm hnot => ?_⟩
  have hkeep : s.server.startGame = true → s.server.clients m = some c' →
      Plays { s with server := sv, moved := s.moved ++ started sv.out } m c' := by
    intro hst hm'
    exact (h.plays hst m c' hm' (not_late hnot)).keep (List.subset_append_left _ _) hdef id (List.Subset.refl _)
  cases res with
  | false =>
    obtain ⟨c, -, rfl⟩ := resolve_closed hr
    apply hkeep hg
    by_cases hmn : m = n
    · subst hmn
      simp [disconnect] at hm
    · simpa [disconnect, hmn] using hm
  | true =>
    obtain ⟨c, hc, es, b, hres, hout, hg'⟩ := resolve_cases hr
    dsimp only at hc hres hout hg'
    rw [List.nil_append] at hout
    by_cases hst : s.server.startGame = true
    · apply hkeep hst
      apply hres.playing hc hm
      intro c₀ h₀ hcon
      have hp := h.plays hst m c₀ h₀ (hcon ▸ not_late hnot)
      exact ⟨hp.expecting, hp.state⟩
    · -- The game starts: `initGame` is still in the lobby.
      have hlobby : s.phase = .lobby := by
        by_contra hp
        exact hst (hb.started hp)
      have hbt : b = true := by
        rw [show sv.startGame = true from hg] at hg'
        simpa [hst] using hg'
      subst hbt
      refine hres.starts { s with server := sv, moved := s.moved ++ started sv.out } rfl (hboard hlobby) hlobby ?_ m c' hm
      rw [hout]
      exact List.subset_append_right _ _

theorem play_initBoard {tr : List (Round × RoundAct M)} {s : Round} (h : PlayInv tr s) (hp : s.phase = .lobby)
    (hg : s.server.startGame = true) (garbage : GameBoard) :
    PlayInv (tr ++ [(s, .initBoard garbage)])
      { s with server := { s.server with gameBoard := some (Game.initBoard garbage) }, phase := .loading 0 } := by
  refine ⟨fun hp' => (by cases hp'), fun _ m c hm hnot => ?_⟩
  have hplays := h.plays hg m c hm (not_late hnot)
  refine ⟨hplays.expecting, hplays.state, hplays.moved, ?_, fun hpass => absurd hpass (Nat.not_lt_zero _)⟩
  -- There was no board, and the new one has no snake.
  rw [hplays.lost]
  apply iff_of_false
  · rintro ⟨b, hb, -⟩
    rw [h.board hp] at hb
    cases hb
  · rintro ⟨b, hb, hone⟩
    rw [← Option.some.inj hb] at hone
    cases hone

/-- A slot that has not been passed has no snake yet. -/
theorem lostFlag_loaded {s : Round} {n : Slot} (hb : BoardInv s) (hp : s.phase = .loading n.val) {b : GameBoard}
    (hb' : s.server.gameBoard = some b) (m : Slot) :
    LostFlag { s.server with gameBoard := some (b.loaded n) } m ↔ LostFlag s.server m := by
  have hflag : LostFlag s.server m ↔ b.pDef m = 1 := by simp [LostFlag, hb']
  have hnew : LostFlag { s.server with gameBoard := some (b.loaded n) } m ↔ (b.loaded n).pDef m = 1 := by simp [LostFlag]
  have hdef : (b.loaded n).pDef = Function.update b.pDef n 0 := rfl
  rw [hflag, hnew, hdef]
  by_cases hmn : m = n
  · subst hmn
    obtain ⟨b', hb'', hi⟩ := hb.board (by simp [hp])
    rw [hb', Option.some.injEq] at hb''
    subst hb''
    have hnone : ¬∃ con, (m, con) ∈ s.roster := by
      rintro ⟨con, hcon⟩
      have hlt := hb.passed _ hcon
      rw [hp] at hlt
      exact Nat.lt_irrefl _ hlt
    have hneg : b.pDef m = -1 := by
      by_contra hne
      exact hnone ((hi m).1 hne)
    rw [hneg, Function.update_self]
    decide
  · rw [Function.update_of_ne hmn]

theorem play_loadSnake {tr : List (Round × RoundAct M)} {s s' : Round} {n : Slot} (hb : BoardInv s) (h : PlayInv tr s)
    (hp : s.phase = .loading n.val)
    (hs : (s.server.clients n = none ∧ s' = { s with phase := .loading (n.val + 1) }) ∨
      ∃ c b, s.server.clients n = some c ∧ s.server.gameBoard = some b ∧
        s' = { s with
          server := { s.server with gameBoard := some (b.loaded n) }
          phase := .loading (n.val + 1)
          roster := s.roster ++ [(n, c.con)] }) : PlayInv (tr ++ [(s, .loadSnake n)]) s' := by
  have hg := hb.started (by simp [hp])
  obtain ⟨hn, rfl⟩ | ⟨c₀, b, hc₀, hb', rfl⟩ := hs
  · refine ⟨fun hp' => (by cases hp'), fun _ m c hm hnot => ?_⟩
    have hmn : m ≠ n := by
      rintro rfl
      rw [hn] at hm
      cases hm
    exact (h.plays hg m c hm (not_late hnot)).keep (List.Subset.refl _) rfl (Phase.passed_of_next hp hmn) (List.Subset.refl _)
  · refine ⟨fun hp' => (by cases hp'), fun _ m c hm hnot => ?_⟩
    have hplays := h.plays hg m c hm (not_late hnot)
    refine ⟨hplays.expecting, hplays.state, hplays.moved, hplays.lost.trans (lostFlag_loaded hb hp hb' m).symm,
      fun hlt => ?_⟩
    by_cases hmn : m = n
    · subst hmn
      rw [Option.some.inj (hm.symm.trans hc₀)]
      exact List.mem_append_right _ (List.mem_singleton_self _)
    · exact List.mem_append_left _ (hplays.listed (Phase.passed_of_next hp hmn hlt))

theorem play_tick {tr : List (Round × RoundAct M)} {s : Round} {off : Slot → UInt8} (hb : BoardInv s) (h : PlayInv tr s)
    (hp : s.phase = .running) {b : GameBoard} {sv : Server} (hb' : s.server.gameBoard = some b)
    (hlost : playersLost (updateBoard off b).lost s.server = some sv) :
    PlayInv (tr ++ [(s, .tick off)])
      { s with
        server := ticked (updateBoard off b).board sv
        phase := if isgameOver sv.clients then .over else .running } := by
  have hg := hb.started (by simp [hp])
  have hover : (if isgameOver sv.clients then Phase.over else Phase.running) ≠ .lobby := by split <;> simp
  refine ⟨fun hp' => absurd hp' hover, fun _ m c' hm hnot => ?_⟩
  have hsv := (playersLost_some hlost).2 m
  rw [show sv.clients m = some c' from hm] at hsv
  have hflag : LostFlag (ticked (updateBoard off b).board sv) m ↔ (updateBoard off b).board.pDef m = 1 := by
    simp [LostFlag, ticked]
  have hpass : s.phase.passed m := by
    rw [hp]
    trivial
  rcases lost_updateBoard off b m with ⟨hn, hdef⟩ | ⟨hl, -, hdef⟩
  · rw [if_neg hn] at hsv
    have hplays := h.plays hg m c' hsv.symm (not_late hnot)
    refine ⟨hplays.expecting, hplays.state, hplays.moved, hplays.lost.trans ?_, fun _ => hplays.listed hpass⟩
    rw [hflag, hdef]
    simp [LostFlag, hb']
  · rw [if_pos hl] at hsv
    obtain ⟨c, hc, rfl⟩ := Option.map_eq_some_iff.1 hsv.symm
    have hplays := h.plays hg m c hc (not_late hnot)
    refine ⟨hplays.expecting, by simp, hplays.moved, ?_, fun _ => hplays.listed hpass⟩
    rw [hflag, hdef]
    simp

theorem play_step {tr : List (Round × RoundAct M)} {s s' : Round} {a : RoundAct M} (hb : BoardInv s)
    (h : PlayInv tr s) (hs : roundStep cd s a = some s') : PlayInv (tr ++ [(s, a)]) s' := by
  have hcases := round_cases hs
  cases a with
  | accept n =>
    obtain ⟨-, rfl⟩ := hcases
    exact play_accept h n
  | request n db junk res d =>
    obtain ⟨sv, hr, rfl⟩ := hcases
    exact play_request hb h hr
  | initBoard garbage =>
    obtain ⟨hp, hg, rfl⟩ := hcases
    exact play_initBoard h hp hg garbage
  | loadSnake n => exact play_loadSnake hb h hcases.1 hcases.2
  | loaded =>
    obtain ⟨hp, rfl⟩ := hcases
    have hg := hb.started (by simp [hp])
    refine ⟨fun hp' => (by cases hp'), fun _ m c hm hnot => ?_⟩
    refine (h.plays hg m c hm (not_late hnot)).keep (List.Subset.refl _) rfl (fun _ => ?_) (List.Subset.refl _)
    rw [hp]
    exact m.isLt
  | tick off =>
    obtain ⟨hp, b, sv, hb', hlost, rfl⟩ := hcases
    exact play_tick hb h hp hb' hlost

theorem play_inv {tr : List (Round × RoundAct M)} {s : Round} (h : (roundMachine cd).Run Round.start tr s) :
    BoardInv s ∧ TableInv s ∧ PlayInv tr s := by
  have hreach : (roundMachine cd).Reaches s := (h.reachesBy rfl fun _ _ => trivial).1
  refine ⟨board_inv hreach, table_inv hreach, ?_⟩
  induction h with
  | nil => exact ⟨fun _ => rfl, fun hg => by cases hg⟩
  | snoc hrun hs ih =>
    have hbefore : (roundMachine cd).Reaches _ := (hrun.reachesBy rfl fun _ _ => trivial).1
    exact play_step (board_inv hbefore) (ih hbefore) hs

/-! ## What the last loop sends -/

/-- What the player of a roster entry must get: its score goes up and it is
told TRUE if its snake was never lost, and down and FALSE otherwise. -/
def award (s : Round) (e : Slot × Nat) : List Effect :=
  match s.server.clients e.1, s.server.gameBoard with
  | some c, some b =>
    if c.con ≠ e.2 then []
    else if b.pDef e.1 = 1 then [.setHighscore c.name (c.score.map (· - 10)), .send .result e.2 (.boolean false)]
    else [.setHighscore c.name (c.score.map (· + 10)), .send .result e.2 (.boolean true)]
  | _, _ => []

/-- Every player who is still there gets its award once, and nobody else gets
anything. -/
structure Rewarded (s : Round) : Prop where
  sent : (sendResults { s.server with out := [] }).out.Perm (s.roster.flatMap (award s))
  slots : (s.roster.map Prod.fst).Nodup
  apart : ∀ m n con, cons s.server.clients m = some con → cons s.server.clients n = some con → m = n
  players : ∀ n c, s.server.clients n = some c →
    (n, c.con) ∈ s.roster ∧ c.con ∈ s.moved ∧ ∃ name score, c.name = some name ∧ c.score = some score

/-- Everybody accepted after the start has left. -/
def LateGone (tr : List (Round × RoundAct M)) (t : Table) : Prop := ∀ con ∈ late tr, ∀ n, cons t n ≠ some con

/-- With everybody in the table on the roster, the occupied slots are those of
the roster's entries that are still there. -/
theorem occupied_perm {roster : List (Slot × Nat)} {t : Table} (hn : (roster.map Prod.fst).Nodup)
    (hl : ∀ n c, t n = some c → (n, c.con) ∈ roster) :
    (occupied t).Perm ((roster.filter fun e => cons t e.1 = some e.2).map Prod.fst) := by
  have hn' : ((roster.filter fun e => cons t e.1 = some e.2).map Prod.fst).Nodup :=
    hn.sublist (List.filter_sublist.map _)
  apply (List.perm_ext_iff_of_nodup (nodup_occupied t) hn').2
  intro n
  rw [mem_occupied]
  constructor
  · rintro ⟨c, hc⟩
    refine List.mem_map.2 ⟨(n, c.con), List.mem_filter.2 ⟨hl n c hc, ?_⟩, rfl⟩
    exact decide_eq_true (cons_eq_some.2 ⟨c, hc, rfl⟩)
  · intro hm
    obtain ⟨e, he, rfl⟩ := List.mem_map.1 hm
    obtain ⟨c, hc, -⟩ := cons_eq_some.1 (of_decide_eq_true (List.mem_filter.1 he).2)
    exact ⟨c, hc⟩

/-- The award of an entry that is still there, and of one that is not. -/
theorem award_eq {s : Round} {b : GameBoard} (hb : s.server.gameBoard = some b) (e : Slot × Nat)
    (hstate : ∀ c, s.server.clients e.1 = some c → c.con = e.2 → (c.state = .loose ↔ b.pDef e.1 = 1)) :
    award s e = if cons s.server.clients e.1 = some e.2 then (s.server.clients e.1).elim [] resultOf else [] := by
  unfold award
  cases hc : s.server.clients e.1 with
  | none => simp [cons, hc]
  | some c =>
    rw [hb]
    dsimp only
    by_cases hcon : c.con = e.2
    · have hs := hstate c hc hcon
      by_cases hl : c.state = .loose
      · simp [cons, hc, hcon, resultOf, hl, hs.1 hl]
      · simp [cons, hc, hcon, resultOf, hl, mt hs.2 hl]
    · simp [cons, hc, hcon]

theorem flatMap_filter {α β : Type} (p : α → Bool) (f : α → List β) (l : List α) :
    (l.filter p).flatMap f = l.flatMap fun a => if p a then f a else [] := by
  induction l with
  | nil => rfl
  | cons a l ih =>
    rw [List.filter_cons, List.flatMap_cons, ← ih]
    cases p a <;> simp

/-- When everybody who came late has left at the end of the loop of
`initGame`, every player who is still there gets its result, and nobody
else. -/
theorem results_once {tr : List (Round × RoundAct M)} {s : Round} (h : (roundMachine cd).Run Round.start tr s)
    (hover : s.phase = .over) (hlate : LateGone tr s.server.clients) : Rewarded s := by
  obtain ⟨hboard, htable, hplay⟩ := play_inv h
  have hg : s.server.startGame = true := hboard.started (by simp [hover])
  obtain ⟨b, hb, -⟩ := hboard.board (by simp [hover])
  have hplays : ∀ n c, s.server.clients n = some c → Plays s n c := by
    intro n c hc
    exact hplay.plays hg n c hc fun hl => hlate c.con hl n (cons_eq_some.2 ⟨c, hc, rfl⟩)
  have hlisted : ∀ n c, s.server.clients n = some c → (n, c.con) ∈ s.roster := by
    intro n c hc
    apply (hplays n c hc).listed
    rw [hover]
    trivial
  refine ⟨?_, hboard.slots, htable.apart, fun n c hc => ⟨hlisted n c hc, (hplays n c hc).moved, ?_⟩⟩
  · have hstate : ∀ e : Slot × Nat, ∀ c, s.server.clients e.1 = some c → c.con = e.2 →
        (c.state = .loose ↔ b.pDef e.1 = 1) := by
      intro e c hc _
      rw [(hplays e.1 c hc).lost]
      simp [LostFlag, hb]
    have hout : (sendResults { s.server with out := [] }).out =
        (occupied s.server.clients).flatMap fun i => (s.server.clients i).elim [] resultOf := rfl
    have hawards : s.roster.flatMap (award s) =
        ((s.roster.filter fun e => cons s.server.clients e.1 = some e.2).map Prod.fst).flatMap
          fun i => (s.server.clients i).elim [] resultOf := by
      rw [List.flatMap_map, flatMap_filter]
      congr 1
      funext e
      simpa using award_eq hb e (hstate e)
    rw [hout, hawards]
    exact (occupied_perm hboard.slots hlisted).flatMap_right _
  · exact (htable.known n c hc).past (by rw [(hplays n c hc).expecting]; decide)

/-- Somebody comes after the start and leaves, then the first of the two
players leaves and the second one has won. -/
def latecomer : List (RoundAct Bytes) :=
  twoReady ++ loadSnakes ++ [.accept 2, .request 2 trusting [] false [], .request 0 trusting [] false [], .tick fun _ => 0]

theorem results_once_latecomer : ∃ tr s, (roundMachine eagerCodec).Run Round.start tr s ∧ s.phase = .over ∧
    late tr ≠ [] ∧ s.roster = [(0, 0), (1, 1)] ∧ LateGone tr s.server.clients ∧ Rewarded s := by
  obtain ⟨r, hr, hover, hl, hroster, hgone⟩ : ∃ r, Machine.trace (roundStep eagerCodec) Round.start latecomer = some r ∧
      r.2.phase = .over ∧ late r.1 = [2] ∧ r.2.roster = [(0, 0), (1, 1)] ∧ ∀ n, cons r.2.server.clients n ≠ some 2 :=
    ⟨_, rfl, rfl, rfl, rfl, of_decide_eq_true rfl⟩
  have hrun : (roundMachine eagerCodec).Run Round.start r.1 r.2 := Machine.run_of_trace hr
  have hlate : LateGone r.1 r.2.server.clients := by
    intro con hcon
    rw [hl, List.mem_singleton] at hcon
    exact hcon ▸ hgone
  exact ⟨r.1, r.2, hrun, hover, by simp [hl], hroster, hlate, results_once hrun hover hlate⟩

/-- Both players leave, and a client that has only connected gets a result. -/
theorem result_of_stranger : ¬∀ tr s, (roundMachine eagerCodec).Run Round.start tr s → s.phase = .over → Rewarded s := by
  intro h
  obtain ⟨r, hr, hover, h0, h1, hroster, hout⟩ : ∃ r, Machine.trace (roundStep eagerCodec) Round.start
      (twoReady ++ loadSnakes ++ [.accept 2, .request 0 trusting [] false [], .request 1 trusting [] false [],
        .tick fun _ => 0]) = some r ∧ r.2.phase = .over ∧ r.2.server.clients 0 = none ∧ r.2.server.clients 1 = none ∧
      r.2.roster = [(0, 0), (1, 1)] ∧ (sendResults { r.2.server with out := [] }).out =
        [.setHighscore none none, .send .result 2 (.boolean true)] :=
    ⟨_, rfl, rfl, rfl, rfl, rfl, rfl⟩
  -- Neither player is there, so nothing should be sent.
  have hnone : r.2.roster.flatMap (award r.2) = [] := by
    rw [hroster]
    simp [award, h0, h1]
  have hsent := (h _ _ (Machine.run_of_trace hr) hover).sent
  rw [hnone, hout] at hsent
  exact absurd hsent.eq_nil (List.cons_ne_nil _ _)

end Snuffin.ChildServer
