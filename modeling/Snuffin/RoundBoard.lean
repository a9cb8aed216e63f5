import Snuffin.GameRules
import Snuffin.Rounds
/-!
# The board and the roster

`round_cases` sums up what each step of a round does. From it follows what
holds in every run: once `initGame` has passed the lobby there is a board, and
the slots that have a snake on it are those of the roster. What the game does
is defined while it stays on the arrays of the board and follows no pointer
that is not set; `strayMachine` may do anything from there on.
-/
open Lib Snuffin.Game

namespace Snuffin.ChildServer

/-! ## What a step does -/

/-- The server after the calls of `playerLost` in a tick. -/
def ticked (b : GameBoard) (sv : Server) : Server :=
  { sv.emit (boardNotices sv.clients b) with gameBoard := some b }

theorem tick_eq_some {off : Slot → UInt8} {s s' : Server} (h : tick off s = some s') :
    ∃ b sv, s.gameBoard = some b ∧ playersLost (updateBoard off b).lost s = some sv ∧
      s' = ticked (updateBoard off b).board sv := by
  obtain ⟨b, hb, h⟩ := Option.bind_eq_some_iff.1 h
  obtain ⟨sv, hl, rfl⟩ := Option.map_eq_some_iff.1 h
  exact ⟨b, sv, hb, hl, rfl⟩

/-- What each step of a round does. -/
theorem round_cases {M : Type} {cd : Codec M} {s s' : Round} {a : RoundAct M} (h : roundStep cd s a = some s') :
    match a with
    | .accept n => s.server.clients n = none ∧
        s' = { s with server := s.server.setClient n (newClient s.nextCon), nextCon := s.nextCon + 1 }
    | .request n db junk res d => ∃ sv, resolveRequest cd db junk res d n { s.server with out := [] } = some sv ∧
        s' = { s with server := sv, moved := s.moved ++ started sv.out }
    | .initBoard garbage => s.phase = .lobby ∧ s.server.startGame = true ∧
        s' = { s with server := { s.server with gameBoard := some (Game.initBoard garbage) }, phase := .loading 0 }
    | .loadSnake n => s.phase = .loading n.val ∧
        ((s.server.clients n = none ∧ s' = { s with phase := .loading (n.val + 1) }) ∨
          ∃ c b, s.server.clients n = some c ∧ s.server.gameBoard = some b ∧
            s' = { s with
              server := { s.server with gameBoard := some (b.loaded n) }
              phase := .loading (n.val + 1)
              roster := s.roster ++ [(n, c.con)] })
    | .loaded => s.phase = .loading maxPlayers ∧ s' = { s with phase := .running }
    | .tick off => s.phase = .running ∧ ∃ b sv, s.server.gameBoard = some b ∧
        playersLost (updateBoard off b).lost s.server = some sv ∧
        s' = { s with
          server := ticked (updateBoard off b).board sv
          phase := if isgameOver sv.clients then .over else .running } := by
  cases a with
  | accept n =>
    obtain ⟨hn, hs⟩ := Option.ite_none_right_eq_some.1 h
    exact ⟨hn, (Option.some.inj hs).symm⟩
  | request n db junk res d =>
    obtain ⟨sv, hr, rfl⟩ := Option.map_eq_some_iff.1 h
    exact ⟨sv, hr, rfl⟩
  | initBoard garbage =>
    obtain ⟨⟨hp, hg⟩, hs⟩ := Option.ite_none_right_eq_some.1 h
    exact ⟨hp, hg, (Option.some.inj hs).symm⟩
  | loadSnake n =>
    obtain ⟨hp, hs⟩ := Option.ite_none_right_eq_some.1 h
    refine ⟨hp, ?_⟩
    unfold loadSlot at hs
    split at hs
    · exact .inl ⟨‹_›, (Option.some.inj hs).symm⟩
    · rename_i c hc
      obtain ⟨b', hb', rfl⟩ := Option.map_eq_some_iff.1 hs
      obtain ⟨b, hb, hload⟩ := Option.bind_eq_some_iff.1 hb'
      rw [loadSnakeNumber_eq, if_pos (Nat.le_refl 4)] at hload
      obtain rfl := Option.some.inj hload
      exact .inr ⟨c, b, hc, hb, rfl⟩
  | loaded =>
    obtain ⟨hp, hs⟩ := Option.ite_none_right_eq_some.1 h
    exact ⟨hp, (Option.some.inj hs).symm⟩
  | tick off =>
    obtain ⟨hp, hs⟩ := Option.ite_none_right_eq_some.1 h
    obtain ⟨sv, ht, rfl⟩ := Option.map_eq_some_iff.1 hs
    obtain ⟨b, sv, hb, hl, rfl⟩ := tick_eq_some ht
    exact ⟨hp, b, sv, hb, hl, rfl⟩

/-! ## Messages and the board -/

/-- A request leaves the board alone, or is a point of a client in MOVEMENT,
which becomes its direction. -/
theorem resolve_board {M : Type} {cd : Codec M} {db : Db} {junk : Bytes} {res : Bool} {d : M} {n : Slot} {s s' : Server}
    (h : resolveRequest cd db junk res d n s = some s') :
    s'.gameBoard = s.gameBoard ∨ ∃ c p, s.clients n = some c ∧ res = true ∧ c.expecting = .movement ∧
      cd.unmarshPoint d = some p ∧ s'.gameBoard = s.gameBoard.map (updateMovementDirection n p) := by
  obtain ⟨c, hc⟩ := client_of_resolve h
  cases res with
  | false =>
    rw [resolve_left hc] at h
    obtain rfl := Option.some.inj h
    exact .inl rfl
  | true =>
    cases he : c.expecting with
    | user =>
      rw [resolve_user hc he] at h
      obtain rfl := Option.some.inj h
      left
      unfold validateUser
      split <;> [rfl; (dsimp only; split <;> rfl)]
    | password =>
      left
      by_cases ha : db.validPassword c.name ((cd.unmarshString d).getD junk) ≠ 0
      · rw [resolve_accepted hc he rfl ha] at h
        obtain rfl := Option.some.inj h
        rfl
      · rw [resolve_refused hc he rfl ha] at h
        obtain rfl := Option.some.inj h
        rfl
    | newPassword =>
      rw [resolve_newPassword hc he] at h
      obtain rfl := Option.some.inj h
      left
      unfold newPassword
      split <;> [rfl; (dsimp only; split <;> rfl)]
    | readyToPlay =>
      rw [resolve_ready hc he] at h
      obtain rfl := Option.some.inj h
      left
      unfold readyToPlay
      split
      · rfl
      · dsimp only [checkGameStart]
        split <;> rfl
      · rfl
    | movement =>
      rw [resolve_movement hc he] at h
      obtain rfl := Option.some.inj h
      unfold movement
      split
      · exact .inl rfl
      · rename_i p hp
        exact .inr ⟨c, p, hc, rfl, he, hp, rfl⟩

/-- A message changes no flag of the board. -/
theorem resolve_pDef {M : Type} {cd : Codec M} {db : Db} {junk : Bytes} {res : Bool} {d : M} {n : Slot} {s s' : Server}
    (h : resolveRequest cd db junk res d n s = some s') :
    s'.gameBoard.map GameBoard.pDef = s.gameBoard.map GameBoard.pDef := by
  rcases resolve_board h with hb | ⟨c, p, -, -, -, -, hb⟩
  · rw [hb]
  · rw [hb, Option.map_map]
    rfl

/-- What must be so for a request to have an effect: a direction comes from a
point of a client in MOVEMENT, a start from a TRUE, and no request gives a
result. -/
def Explained {M : Type} (cd : Codec M) (res : Bool) (d : M) (n : Slot) (t : Table) : Effect → Prop
  | .updateMovementDirection m p =>
    m = n ∧ res = true ∧ cd.unmarshPoint d = some p ∧ ∃ c, t n = some c ∧ c.expecting = .movement
  | .send .start _ _ => cd.unmarshBoolean d = some true
  | .send .result _ _ | .setHighscore _ _ => False
  | _ => True

section Explained
variable {M : Type} {cd : Codec M} {res : Bool} {d : M} {n : Slot} {t : Table}

theorem explained_forClients {u : Table} {f : Slot → Client → Option Effect}
    (hf : ∀ i c e, f i c = some e → Explained cd res d n t e) : ∀ e ∈ forClients u f, Explained cd res d n t e := by
  intro e he
  obtain ⟨i, c, -, hi⟩ := mem_forClients.1 he
  exact hf i c e hi

theorem explained_new (u : Table) (m : Slot) (c : Client) : ∀ e ∈ newPlayerNotices u m c, Explained cd res d n t e := by
  apply explained_forClients
  intro i ci e he
  obtain ⟨-, he⟩ := Option.ite_none_right_eq_some.1 he
  rw [← Option.some.inj he]
  trivial

theorem explained_existing (u : Table) (c : Client) : ∀ e ∈ existingPlayersNotices u c, Explained cd res d n t e := by
  apply explained_forClients
  intro i ci e he
  rw [← Option.some.inj he]
  trivial

theorem explained_leave (u : Table) (m : Slot) : ∀ e ∈ leaveNotices u m, Explained cd res d n t e := by
  apply explained_forClients
  intro i ci e he
  obtain ⟨-, he⟩ := Option.ite_none_right_eq_some.1 he
  rw [← Option.some.inj he]
  trivial

theorem explained_start (u : Table) (h : cd.unmarshBoolean d = some true) :
    ∀ e ∈ startNotices u, Explained cd res d n t e := by
  apply explained_forClients
  intro i ci e he
  rw [← Option.some.inj he]
  exact h

/-- Every effect of a request is explained. -/
theorem effects_of_resolve {db : Db} {junk : Bytes} {s s' : Server} (h : resolveRequest cd db junk res d n s = some s')
    (hs : s.out = []) : ∀ e ∈ s'.out, Explained cd res d n s.clients e := by
  obtain ⟨c, hc⟩ := client_of_resolve h
  cases res with
  | false =>
    rw [resolve_left hc] at h
    obtain rfl := Option.some.inj h
    simp only [disconnect, emit_out, hs, List.nil_append, List.forall_mem_append, List.forall_mem_singleton]
    exact ⟨explained_leave _ _, trivial⟩
  | true =>
    cases he : c.expecting with
    | user =>
      rw [resolve_user hc he] at h
      obtain rfl := Option.some.inj h
      unfold validateUser
      split
      · simp [hs]
      · dsimp only
        split <;> simp [hs, Explained]
    | password =>
      by_cases ha : db.validPassword c.name ((cd.unmarshString d).getD junk) ≠ 0
      · rw [resolve_accepted hc he rfl ha] at h
        obtain rfl := Option.some.inj h
        simp only [notifyNewPlayer, notifyExistingPlayers, emit_out, setClient_out, hs, List.nil_append,
          List.forall_mem_append, List.forall_mem_singleton]
        exact ⟨⟨⟨trivial, trivial⟩, explained_new _ _ _⟩, explained_existing _ _⟩
      · rw [resolve_refused hc he rfl ha] at h
        obtain rfl := Option.some.inj h
        simp [hs, Explained]
    | newPassword =>
      rw [resolve_newPassword hc he] at h
      obtain rfl := Option.some.inj h
      unfold newPassword
      split
      · simp [hs]
      · dsimp only
        split <;>
          · simp only [notifyNewPlayer, notifyExistingPlayers, emit_out, setClient_out, hs, List.nil_append,
              List.forall_mem_append, List.forall_mem_singleton]
            exact ⟨⟨⟨trivial, trivial⟩, explained_new _ _ _⟩, explained_existing _ _⟩
    | readyToPlay =>
      rw [resolve_ready hc he] at h
      obtain rfl := Option.some.inj h
      unfold readyToPlay
      split
      · simp [hs]
      · rename_i hb
        dsimp only [checkGameStart]
        split
        · simp only [notifyNewPlayer, sendGameStart, emit_out, setClient_out, hs, List.nil_append, List.forall_mem_append]
          exact ⟨explained_new _ _ _, explained_start _ hb⟩
        · simp only [notifyNewPlayer, emit_out, setClient_out, hs, List.nil_append]
          exact explained_new _ _ _
      · simp only [notifyNewPlayer, emit_out, setClient_out, hs, List.nil_append]
        exact explained_new _ _ _
    | movement =>
      rw [resolve_movement hc he] at h
      obtain rfl := Option.some.inj h
      unfold movement
      split
      · simp [hs]
      · rename_i q hq
        simp only [emit_out, hs, List.nil_append, List.forall_mem_singleton]
        exact ⟨rfl, rfl, hq, c, hc, he⟩

end Explained

/-! ## The invariant of every run -/

/-- Past the lobby the game was started and there is a board; the slots with a
snake on it are those of the roster, which the loop of `initGame` has passed. -/
structure BoardInv (s : Round) : Prop where
  started : s.phase ≠ .lobby → s.server.startGame = true
  board : s.phase ≠ .lobby → ∃ b, s.server.gameBoard = some b ∧ ∀ i, b.pDef i ≠ -1 ↔ ∃ con, (i, con) ∈ s.roster
  passed : ∀ e ∈ s.roster, s.phase.passed e.1
  slots : (s.roster.map Prod.fst).Nodup

/-- Calls of `playerLost` that all find a client make these clients LOOSE. -/
theorem playersLost_some {l : List Slot} {s s' : Server} (h : playersLost l s = some s') :
    (∀ i ∈ l, ∃ c, s.clients i = some c) ∧
      ∀ i, s'.clients i = if i ∈ l then (s.clients i).map fun c => { c with state := .loose } else s.clients i := by
  have hocc : ∀ i ∈ l, ∃ c, s.clients i = some c := by
    induction l generalizing s with
    | nil => simp
    | cons i l ih =>
      obtain ⟨c, hc, hl⟩ := playersLost_first.1 h
      intro j hj
      by_cases hji : j = i
      · exact ⟨c, hji ▸ hc⟩
      · obtain ⟨cj, hcj⟩ := ih hl j ((List.mem_cons.1 hj).resolve_left hji)
        exact ⟨cj, by rwa [setClient_clients, Function.update_of_ne hji] at hcj⟩
  obtain ⟨u, hu, -, -, -, ht⟩ := playersLost_spec l s hocc
  rw [h, Option.some.injEq] at hu
  exact ⟨hocc, hu ▸ ht⟩

/-- A message ends no game. -/
theorem resolve_startGame {M : Type} {cd : Codec M} {db : Db} {junk : Bytes} {res : Bool} {d : M} {n : Slot}
    {s s' : Server} (h : resolveRequest cd db junk res d n s = some s') (hg : s.startGame = true) : s'.startGame = true := by
  cases res with
  | false =>
    obtain ⟨c, -, rfl⟩ := resolve_closed h
    exact hg
  | true =>
    obtain ⟨c, -, es, b, -, -, hs⟩ := resolve_cases h
    rw [hs, hg, Bool.or_true]

/-- A tick gives no slot a snake and takes none away. -/
theorem pDef_updateBoard (off : Slot → UInt8) (b : GameBoard) (i : Slot) :
    (updateBoard off b).board.pDef i ≠ -1 ↔ b.pDef i ≠ -1 := by
  rcases lost_updateBoard off b i with ⟨-, he⟩ | ⟨-, h0, h1⟩
  · rw [he]
  · rw [h0, h1]
    decide

theorem board_step {M : Type} {cd : Codec M} {s s' : Round} {a : RoundAct M} (h : BoardInv s)
    (hs : roundStep cd s a = some s') : BoardInv s' := by
  have hcases := round_cases hs
  cases a with
  | accept n =>
    obtain ⟨-, rfl⟩ := hcases
    exact ⟨h.started, h.board, h.passed, h.slots⟩
  | request n db junk res d =>
    obtain ⟨sv, hr, rfl⟩ := hcases
    have hg := resolve_startGame hr
    have hb := resolve_pDef hr
    dsimp only at hg hb
    refine ⟨fun hp => hg (h.started hp), fun hp => ?_, h.passed, h.slots⟩
    obtain ⟨b, hs, hi⟩ := h.board hp
    rw [hs] at hb
    obtain ⟨b', hb', he⟩ := Option.map_eq_some_iff.1 hb
    exact ⟨b', hb', fun i => by rw [he]; exact hi i⟩
  | initBoard garbage =>
    obtain ⟨hp, hg, rfl⟩ := hcases
    have hnone : ∀ e, e ∉ s.roster := by
      intro e he
      have := h.passed e he
      rw [hp] at this
      exact this
    refine ⟨fun _ => hg, fun _ => ⟨_, rfl, fun i => ?_⟩, fun e he => absurd he (hnone e), h.slots⟩
    exact iff_of_false (fun hne => hne rfl) fun ⟨con, hm⟩ => hnone _ hm
  | loadSnake n =>
    obtain ⟨hp, hcases⟩ := hcases
    have hl : s.phase ≠ .lobby := by simp [hp]
    have hpassed : ∀ e ∈ s.roster, e.1.val < n.val := by
      intro e he
      have := h.passed e he
      rw [hp] at this
      exact this
    obtain ⟨-, rfl⟩ | ⟨c, b, -, hb, rfl⟩ := hcases
    · refine ⟨fun _ => h.started hl, fun _ => h.board hl, fun e he => ?_, h.slots⟩
      exact Nat.lt_succ_of_lt (hpassed e he)
    · obtain ⟨b', hb', hi⟩ := h.board hl
      rw [hb, Option.some.injEq] at hb'
      subst hb'
      refine ⟨fun _ => h.started hl, fun _ => ⟨_, rfl, fun i => ?_⟩, fun e he => ?_, ?_⟩
      · have hdef : (b.loaded n).pDef = Function.update b.pDef n 0 := rfl
        by_cases hin : i = n
        · subst hin
          rw [hdef, Function.update_self]
          exact iff_of_true (by decide) ⟨c.con, List.mem_append_right _ (by simp)⟩
        · rw [hdef, Function.update_of_ne hin, hi i]
          simp [hin]
      · rcases List.mem_append.1 he with he | he
        · exact Nat.lt_succ_of_lt (hpassed e he)
        · rw [List.mem_singleton.1 he]
          exact Nat.lt_succ_self _
      · rw [List.map_append, List.nodup_append]
        refine ⟨h.slots, by simp, fun x hx y hy => ?_⟩
        obtain ⟨e, he, rfl⟩ := List.mem_map.1 hx
        rw [List.mem_singleton.1 hy]
        exact Fin.ne_of_lt (hpassed e he)
  | loaded =>
    obtain ⟨hp, rfl⟩ := hcases
    have hl : s.phase ≠ .lobby := by simp [hp]
    exact ⟨fun _ => h.started hl, fun _ => h.board hl, fun _ _ => trivial, h.slots⟩
  | tick off =>
    obtain ⟨hp, b, sv, hb, hlost, rfl⟩ := hcases
    have hl : s.phase ≠ .lobby := by simp [hp]
    obtain ⟨b', hb', hi⟩ := h.board hl
    rw [hb, Option.some.injEq] at hb'
    subst hb'
    refine ⟨fun _ => ?_, fun _ => ⟨_, rfl, fun i => ?_⟩, fun e _ => ?_, h.slots⟩
    · exact (playersLost_cons hlost).2.trans (h.started hl)
    · rw [pDef_updateBoard]
      exact hi i
    · show (if isgameOver sv.clients then Phase.over else Phase.running).passed e.1
      split <;> trivial

theorem board_inv {M : Type} {cd : Codec M} {ok : Round → RoundAct M → Prop} {s : Round}
    (h : (roundMachine cd).ReachesBy ok s) : BoardInv s := by
  apply h.inv (I := BoardInv)
  · intro s hs
    rw [hs]
    exact ⟨fun h => absurd rfl h, fun h => absurd rfl h, by simp [Round.start], by simp [Round.start]⟩
  · intro _ _ _ hi _ hs
    exact board_step hi hs

/-! ## What becomes of a client -/

/-- What a request makes of a client that stays. -/
inductive Client.Next (c : Client) : Client → Prop
  | kept : c.Next c
  | named (name : Bytes) (e : Expecting) (score : Int) : e ≠ .user →
      c.Next { c with expecting := e, score := some score, name := some name }
  | admitted : c.Next c.toLobby
  | toggled (st : State) : st ≠ .loose → c.Next { c with state := st }
  | started : c.Next c.start

theorem Resolved.next {M : Type} {cd : Codec M} {db : Db} {d : M} {n m : Slot} {c c' : Client} {t t' : Table}
    {es : List Effect} {b : Bool} (h : Resolved cd db d n c t t' es b) (hc : t n = some c) (hm : t' m = some c') :
    ∃ c₀, t m = some c₀ ∧ c₀.Next c' := by
  have hupdate : ∀ u : Client, c.Next u → ∀ m c', Function.update t n (some u) m = some c' →
      ∃ c₀, t m = some c₀ ∧ c₀.Next c' := by
    intro u hu m c' hm
    by_cases hmn : m = n
    · subst hmn
      rw [Function.update_self, Option.some.injEq] at hm
      exact ⟨c, hc, hm ▸ hu⟩
    · rw [Function.update_of_ne hmn] at hm
      exact ⟨c', hm, .kept⟩
  cases h with
  | kept => exact ⟨c', hm, .kept⟩
  | named name e score _ _ _ he _ =>
    apply hupdate _ (.named name e score _) m c' hm
    rcases he with rfl | rfl <;> simp
  | refused => exact ⟨c', hm, .kept⟩
  | rejected => exact ⟨c', hm, .kept⟩
  | admitted _ _ ht _ =>
    subst ht
    exact hupdate _ .admitted m c' hm
  | toggled st _ _ hst ht _ =>
    subst ht
    apply hupdate _ (.toggled st _) m c' hm
    rcases hst with rfl | rfl <;> simp
  | started u _ hu _ =>
    obtain ⟨c₁, h₁, rfl⟩ := Option.map_eq_some_iff.1 hm
    subst hu
    -- The start forgets which state it found.
    by_cases hmn : m = n
    · subst hmn
      rw [Function.update_self, Option.some.injEq] at h₁
      subst h₁
      exact ⟨c, hc, .started⟩
    · rw [Function.update_of_ne hmn] at h₁
      exact ⟨c₁, h₁, .started⟩

/-- A client after a step is one that was there before it, or has just been
accepted. -/
theorem round_next {M : Type} {cd : Codec M} {s s' : Round} {a : RoundAct M} (h : roundStep cd s a = some s') {m : Slot}
    {c' : Client} (hm : s'.server.clients m = some c') :
    (∃ c, s.server.clients m = some c ∧ (c.Next c' ∨ (∃ off, a = .tick off) ∧ c' = { c with state := .loose })) ∨
      c' = newClient s.nextCon := by
  have hcases := round_cases h
  cases a with
  | accept n =>
    obtain ⟨-, rfl⟩ := hcases
    by_cases hmn : m = n
    · subst hmn
      rw [setClient_clients, Function.update_self, Option.some.injEq] at hm
      exact .inr hm.symm
    · rw [setClient_clients, Function.update_of_ne hmn] at hm
      exact .inl ⟨c', hm, .inl .kept⟩
  | request n db junk res d =>
    obtain ⟨sv, hr, rfl⟩ := hcases
    left
    cases res with
    | false =>
      obtain ⟨c, -, rfl⟩ := resolve_closed hr
      by_cases hmn : m = n
      · subst hmn
        simp [disconnect] at hm
      · exact ⟨c', by simpa [disconnect, hmn] using hm, .inl .kept⟩
    | true =>
      obtain ⟨c, hc, es, b, hres, -, -⟩ := resolve_cases hr
      obtain ⟨c₀, h₀, hn⟩ := hres.next hc hm
      exact ⟨c₀, h₀, .inl hn⟩
  | initBoard garbage =>
    obtain ⟨-, -, rfl⟩ := hcases
    exact .inl ⟨c', hm, .inl .kept⟩
  | loadSnake n =>
    obtain ⟨-, ⟨-, rfl⟩ | ⟨c, b, -, -, rfl⟩⟩ := hcases
    · exact .inl ⟨c', hm, .inl .kept⟩
    · exact .inl ⟨c', hm, .inl .kept⟩
  | loaded =>
    obtain ⟨-, rfl⟩ := hcases
    exact .inl ⟨c', hm, .inl .kept⟩
  | tick off =>
    obtain ⟨-, b, sv, -, hl, rfl⟩ := hcases
    have hsv := (playersLost_some hl).2 m
    rw [show sv.clients m = some c' from hm] at hsv
    left
    split at hsv
    · obtain ⟨c, hc, rfl⟩ := Option.map_eq_some_iff.1 hsv.symm
      exact ⟨c, hc, .inr ⟨⟨off, rfl⟩, rfl⟩⟩
    · exact ⟨c', hsv.symm, .inl .kept⟩

/-! ## The table in every run -/

section Table
variable {M : Type} {cd : Codec M}

/-- A client past USER has a name and a score. -/
structure Client.Known (c : Client) : Prop where
  past : c.expecting ≠ .user → ∃ name score, c.name = some name ∧ c.score = some score
  ready : c.state = .readyPlay → c.expecting ≠ .user

/-- What holds of the clients of a table holds of them with one more. -/
theorem forall_update {P : Client → Prop} {t : Table} {n : Slot} {u : Client} (h : ∀ m c, t m = some c → P c) (hu : P u) :
    ∀ m c, Function.update t n (some u) m = some c → P c := by
  intro m c hm
  by_cases hmn : m = n
  · subst hmn
    rw [Function.update_self, Option.some.injEq] at hm
    exact hm ▸ hu
  · rw [Function.update_of_ne hmn] at hm
    exact h m c hm

/-- Clients are known as far as their sessions go, and each connection has one
slot. -/
structure TableInv (s : Round) : Prop where
  known : ∀ n c, s.server.clients n = some c → c.Known
  below : ∀ n con, cons s.server.clients n = some con → con < s.nextCon
  apart : ∀ m n con, cons s.server.clients m = some con → cons s.server.clients n = some con → m = n

theorem known_new (con : Nat) : (newClient con).Known := ⟨fun h => absurd rfl h, fun h => by cases h⟩

theorem Resolved.known {db : Db} {d : M} {n : Slot} {c : Client} {t t' : Table} {es : List Effect} {b : Bool}
    (hc : t n = some c) (h : Resolved cd db d n c t t' es b) (hk : ∀ m c', t m = some c' → c'.Known) :
    ∀ m c', t' m = some c' → c'.Known := by
  have hn := hk n c hc
  have hupdate : ∀ u : Client, u.Known → ∀ m c', Function.update t n (some u) m = some c' → c'.Known :=
    fun u => forall_update hk
  cases h with
  | kept => exact hk
  | named name e score _ _ _ he _ =>
    apply hupdate
    refine ⟨fun _ => ⟨name, score, rfl, rfl⟩, fun _ => ?_⟩
    rcases he with rfl | rfl <;> simp
  | refused => exact hk
  | rejected => exact hk
  | admitted asked _ ht ha =>
    subst ht
    apply hupdate
    refine ⟨fun _ => hn.past ?_, fun h => by cases h⟩
    rcases ha with ⟨he, -⟩ | ⟨he, -⟩ <;> simp [he]
  | toggled st _ he _ ht _ =>
    subst ht
    apply hupdate
    exact ⟨fun _ => hn.past (by simp [he]), fun _ => by simp [he]⟩
  | started u he ht hall =>
    have hu : ∀ m c', u m = some c' → c'.Known := by
      rw [ht]
      apply hupdate
      exact ⟨fun _ => hn.past (by simp [he]), fun _ => by simp [he]⟩
    intro m c' hm
    obtain ⟨c₀, h₀, rfl⟩ := Option.map_eq_some_iff.1 hm
    have hready := (allReady_iff.1 hall).1 m c₀ h₀
    exact ⟨fun _ => (hu m c₀ h₀).past ((hu m c₀ h₀).ready hready), fun h => by cases h⟩

/-- Steps that connect nobody keep the connections apart. -/
theorem TableInv.keep {s s' : Round} (h : TableInv s) (hk : ∀ n c, s'.server.clients n = some c → c.Known)
    (hn : s'.nextCon = s.nextCon)
    (hc : ∀ n con, cons s'.server.clients n = some con → cons s.server.clients n = some con) : TableInv s' where
  known := hk
  below n con hcon := hn ▸ h.below n con (hc n con hcon)
  apart m n con hm hn := h.apart m n con (hc m con hm) (hc n con hn)

theorem table_step {s s' : Round} {a : RoundAct M} (h : TableInv s) (hs : roundStep cd s a = some s') : TableInv s' := by
  have hcases := round_cases hs
  cases a with
  | accept n =>
    obtain ⟨hn, rfl⟩ := hcases
    have hold : ∀ m c, m ≠ n → (s.server.setClient n (newClient s.nextCon)).clients m = some c →
        s.server.clients m = some c := by
      intro m c hmn hm
      rwa [setClient_clients, Function.update_of_ne hmn] at hm
    have hcon : ∀ m con, cons (s.server.setClient n (newClient s.nextCon)).clients m = some con →
        m = n ∧ con = s.nextCon ∨ m ≠ n ∧ con < s.nextCon ∧ cons s.server.clients m = some con := by
      intro m con hm
      obtain ⟨c, hc, rfl⟩ := cons_eq_some.1 hm
      by_cases hmn : m = n
      · subst hmn
        rw [setClient_clients, Function.update_self, Option.some.injEq] at hc
        exact .inl ⟨rfl, by rw [← hc]; rfl⟩
      · have hm' := cons_eq_some.2 ⟨c, hold m c hmn hc, rfl⟩
        exact .inr ⟨hmn, h.below m c.con hm', hm'⟩
    refine ⟨fun m c hm => ?_, fun m con hm => ?_, fun m m' con hm hm' => ?_⟩
    · exact forall_update h.known (known_new s.nextCon) m c hm
    · rcases hcon m con hm with ⟨-, rfl⟩ | ⟨-, hlt, -⟩
      · exact Nat.lt_succ_self _
      · exact Nat.lt_succ_of_lt hlt
    · rcases hcon m con hm with ⟨hmn, he⟩ | ⟨-, hlt, ho⟩ <;> rcases hcon m' con hm' with ⟨hmn', he'⟩ | ⟨-, hlt', ho'⟩
      · exact hmn.trans hmn'.symm
      · omega
      · omega
      · exact h.apart m m' con ho ho'
  | request n db junk res d =>
    obtain ⟨sv, hr, rfl⟩ := hcases
    cases res with
    | false =>
      obtain ⟨c, -, rfl⟩ := resolve_closed hr
      refine h.keep (fun m c' hm => ?_) rfl fun m con hm => disconnect_cons (s := { s.server with out := [] }) hm
      by_cases hmn : m = n
      · subst hmn
        simp [disconnect] at hm
      · apply h.known m c'
        simpa [disconnect, hmn] using hm
    | true =>
      obtain ⟨c, hc, es, b, hres, -, -⟩ := resolve_cases hr
      refine h.keep (hres.known hc h.known) rfl fun m con hm => ?_
      rwa [hres.cons hc] at hm
  | initBoard garbage =>
    obtain ⟨-, -, rfl⟩ := hcases
    exact h.keep h.known rfl fun _ _ hm => hm
  | loadSnake n =>
    obtain ⟨-, ⟨-, rfl⟩ | ⟨c, b, -, -, rfl⟩⟩ := hcases
    · exact h.keep h.known rfl fun _ _ hm => hm
    · exact h.keep h.known rfl fun _ _ hm => hm
  | loaded =>
    obtain ⟨-, rfl⟩ := hcases
    exact h.keep h.known rfl fun _ _ hm => hm
  | tick off =>
    obtain ⟨-, b, sv, -, hl, rfl⟩ := hcases
    refine h.keep (fun m c' hm => ?_) rfl fun m con hm => ?_
    · have hsv := (playersLost_some hl).2 m
      rw [show sv.clients m = some c' from hm] at hsv
      split at hsv
      · obtain ⟨c, hc, rfl⟩ := Option.map_eq_some_iff.1 hsv.symm
        exact ⟨(h.known m c hc).past, fun hst => by cases hst⟩
      · exact h.known m c' hsv.symm
    · rw [← (playersLost_cons hl).1]
      exact hm

theorem table_inv {ok : Round → RoundAct M → Prop} {s : Round} (h : (roundMachine cd).ReachesBy ok s) : TableInv s := by
  apply h.inv (I := TableInv)
  · intro s hs
    rw [hs]
    exact ⟨fun _ _ hn => (by cases hn), fun _ _ hn => (by cases hn), fun _ _ _ hn => (by cases hn)⟩
  · intro _ _ _ hi _ hs
    exact table_step hi hs

end Table

/-! ## What is defined -/

/-- In a tick, every snake that is in the game has its next cell on the board. -/
def StaysOn {M : Type} (s : Round) : RoundAct M → Prop
  | .tick _ => ∀ b ∈ s.server.gameBoard, NextOnBoard b
  | _ => True

instance {M : Type} (s : Round) : ∀ a : RoundAct M, Decidable (StaysOn s a)
  | .tick _ => inferInstanceAs (Decidable (∀ b ∈ s.server.gameBoard, NextOnBoard b))
  | .accept _ | .request .. | .initBoard _ | .loadSnake _ | .loaded => .isTrue trivial

/-- A point that is resolved finds the snake whose direction it is: `gameBoard`
and `pDir[n]` are set. -/
def FindsSnake {M : Type} (cd : Codec M) (s : Round) : RoundAct M → Prop
  | .request n _ _ true d => ∀ c ∈ s.server.clients n, c.expecting = .movement → (cd.unmarshPoint d).isSome = true →
      ∃ b ∈ s.server.gameBoard, b.pDef n ≠ -1
  | _ => True

instance {M : Type} (cd : Codec M) (s : Round) : ∀ a : RoundAct M, Decidable (FindsSnake cd s a)
  | .request n _ _ true d => by
    unfold FindsSnake
    infer_instance
  | .request _ _ _ false _ | .accept _ | .initBoard _ | .loadSnake _ | .loaded | .tick _ => .isTrue trivial

/-- The step stays on the arrays of the board and follows no unset pointer to
its snakes. -/
def Defined {M : Type} (cd : Codec M) (s : Round) (a : RoundAct M) : Prop := StaysOn s a ∧ FindsSnake cd s a

instance {M : Type} (cd : Codec M) (s : Round) (a : RoundAct M) : Decidable (Defined cd s a) :=
  inferInstanceAs (Decidable (_ ∧ _))

/-- The server in C. A write off the arrays of the board, or through a pointer
that is not set, may change anything. -/
def strayMachine {M : Type} (cd : Codec M) : Machine Round (RoundAct M) := (roundMachine cd).undefinedUnless (Defined cd)

/-- Its defined runs are those of the model. -/
theorem reaches_of_defined {M : Type} {cd : Codec M} {s : Round} (h : (strayMachine cd).ReachesBy (Defined cd) s) :
    (roundMachine cd).Reaches s :=
  (h.defined fun _ _ => id).mono fun _ _ _ => trivial

/-- A tick has its next cells on the board exactly when it makes no access off
the arrays. -/
theorem nextOnBoard_iff (off : Slot → UInt8) (b : GameBoard) :
    NextOnBoard b ↔ ∀ a ∈ (updateBoard off b).touched, (cellAt a.pos).isSome = true := by
  have hnodup : (List.finRange maxPlayers).Nodup := List.nodup_finRange _
  constructor
  · intro h
    exact turns_inside off hnodup ⟨b, [], []⟩ (fun i _ => h i) (by simp)
  · intro h i hi
    exact h _ (reads_next off hnodup ⟨b, [], []⟩ (List.mem_finRange i) hi)

end Snuffin.ChildServer
