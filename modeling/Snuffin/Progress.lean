import Snuffin.Playing
/-!
# Sessions and games go forward

A connection keeps its slot, its session never goes back, and the name and
score that it plays with stay those of its login. In a server that accepts
nobody during a game and stays on its board the ticks are bounded, whatever its
clients send and whoever leaves: from its second tick on a game has two alive
snakes, and each of them takes one off the rank of the board.
-/
open Lib Snuffin.Game

namespace Snuffin.ChildServer

variable {M : Type} {cd : Codec M}

/-! ## Sessions -/

/-- How far a session has come. -/
def Expecting.stage : Expecting → Nat
  | .user => 0
  | .password | .newPassword => 1
  | .readyToPlay => 2
  | .movement => 3

/-- `c'` is what may become of a client `c` that stays. -/
structure Client.Later (c c' : Client) : Prop where
  con : c'.con = c.con
  stage : c.expecting.stage ≤ c'.expecting.stage
  named : c.expecting ≠ .user → c'.name = c.name ∧ c'.score = c.score

theorem Client.Later.refl (c : Client) : c.Later c := ⟨rfl, Nat.le_refl _, fun _ => ⟨rfl, rfl⟩⟩

theorem Client.Later.trans {c₁ c₂ c₃ : Client} (h : c₁.Later c₂) (h' : c₂.Later c₃) : c₁.Later c₃ where
  con := h'.con.trans h.con
  stage := h.stage.trans h'.stage
  named hu := by
    -- Who has left USER is not in USER later.
    have hu' : c₂.expecting ≠ .user := by
      intro he
      have hle := h.stage
      rw [he] at hle
      cases hc : c₁.expecting with
      | user => exact hu hc
      | _ => simp [hc, Expecting.stage] at hle
    exact ⟨(h'.named hu').1.trans (h.named hu).1, (h'.named hu').2.trans (h.named hu).2⟩

theorem Client.Later.lose (c : Client) : c.Later { c with state := .loose } := ⟨rfl, Nat.le_refl _, fun _ => ⟨rfl, rfl⟩⟩

/-- The start takes a session to its end. -/
theorem Client.Later.start (c : Client) : c.Later c.start := by
  refine ⟨rfl, ?_, fun _ => ⟨rfl, rfl⟩⟩
  cases he : c.expecting <;> simp [Expecting.stage, Client.start]

/-- What a message of anybody makes of a client that stays, with what it was. -/
inductive Client.Becomes (c : Client) : Client → Prop
  | kept : c.Becomes c
  | named (name : Bytes) (e : Expecting) (score : Int) : c.expecting = .user → e = .password ∨ e = .newPassword →
      c.Becomes { c with expecting := e, score := some score, name := some name }
  | admitted : c.expecting = .password ∨ c.expecting = .newPassword → c.Becomes c.toLobby
  | toggled (st : State) : c.expecting = .readyToPlay → c.Becomes { c with state := st }
  | started : c.expecting = .readyToPlay ∨ c.state = .readyPlay → c.Becomes c.start

theorem Client.Becomes.later {c c' : Client} (h : c.Becomes c') : c.Later c' := by
  cases h with
  | kept => exact .refl c
  | named name e score hu he =>
    refine ⟨rfl, ?_, fun hne => absurd hu hne⟩
    rw [hu]
    exact Nat.zero_le _
  | admitted he =>
    refine ⟨rfl, ?_, fun _ => ⟨rfl, rfl⟩⟩
    rcases he with he | he
    · rw [he]
      exact Nat.le_succ 1
    · rw [he]
      exact Nat.le_succ 1
  | toggled => exact ⟨rfl, Nat.le_refl _, fun _ => ⟨rfl, rfl⟩⟩
  | started => exact .start c

theorem Resolved.becomes {db : Db} {d : M} {n m : Slot} {c c' : Client} {t t' : Table} {es : List Effect} {b : Bool}
    (hc : t n = some c) (h : Resolved cd db d n c t t' es b) (hm : t' m = some c') :
    ∃ c₀, t m = some c₀ ∧ c₀.Becomes c' := by
  have hupdate : ∀ u : Client, c.Becomes u → ∀ m c', Function.update t n (some u) m = some c' →
      ∃ c₀, t m = some c₀ ∧ c₀.Becomes c' := by
    intro u hu m c' hm
    by_cases hmn : m = n
    · subst hmn
      rw [Function.update_self, Option.some.injEq] at hm
      exact ⟨c, hc, hm ▸ hu⟩
    · rw [Function.update_of_ne hmn] at hm
      exact ⟨c', hm, .kept⟩
  cases h with
  | kept | refused | rejected => exact ⟨c', hm, .kept⟩
  | named name e score _ _ hu he _ => exact hupdate _ (.named name e score hu he) m c' hm
  | admitted _ _ ht ha =>
    subst ht
    exact hupdate _ (.admitted (ha.imp And.left And.left)) m c' hm
  | toggled st _ he _ ht _ =>
    subst ht
    exact hupdate _ (.toggled st he) m c' hm
  | started u he hu hall =>
    obtain ⟨c₁, h₁, rfl⟩ := Option.map_eq_some_iff.1 hm
    have hready := (allReady_iff.1 hall).1 m c₁ h₁
    rw [hu] at h₁
    by_cases hmn : m = n
    · subst hmn
      rw [Function.update_self, Option.some.injEq] at h₁
      subst h₁
      exact ⟨c, hc, .started (.inl he)⟩
    · rw [Function.update_of_ne hmn] at h₁
      exact ⟨c₁, h₁, .started (.inr hready)⟩

/-- A client after a step is what a message made of one before it, or was lost
in a tick, or is new. -/
theorem becomes_step {s s' : Round} {a : RoundAct M} (hs : roundStep cd s a = some s') {m : Slot} {c' : Client}
    (hm : s'.server.clients m = some c') :
    (∃ c, s.server.clients m = some c ∧ (c.Becomes c' ∨ (∃ off, a = .tick off) ∧ c' = { c with state := .loose })) ∨
      c' = newClient s.nextCon := by
  have hcases := round_cases hs
  cases a with
  | request n db junk res d =>
    obtain ⟨sv, hr, rfl⟩ := hcases
    left
    cases res with
    | false =>
      obtain ⟨c, -, rfl⟩ := resolve_closed hr
      by_cases hmn : m = n
      · subst hmn
        simp [disconnect] at hm
      · exact ⟨c', by simpa [disconnect, hmn] using hm, .inl .kept⟩
    | true =>
      obtain ⟨c, hc, es, b, hres, -, -⟩ := resolve_cases hr
      obtain ⟨c₀, h₀, hb⟩ := hres.becomes hc hm
      exact ⟨c₀, h₀, .inl hb⟩
  | accept n =>
    obtain ⟨-, rfl⟩ := hcases
    by_cases hmn : m = n
    · subst hmn
      rw [setClient_clients, Function.update_self, Option.some.injEq] at hm
      exact .inr hm.symm
    · rw [setClient_clients, Function.update_of_ne hmn] at hm
      exact .inl ⟨c', hm, .inl .kept⟩
  | tick off =>
    obtain ⟨-, b, sv, -, hl, rfl⟩ := hcases
    have hsv := (playersLost_some hl).2 m
    rw [show sv.clients m = some c' from hm] at hsv
    left
    split at hsv
    · obtain ⟨c, hc, rfl⟩ := Option.map_eq_some_iff.1 hsv.symm
      exact ⟨c, hc, .inr ⟨⟨off, rfl⟩, rfl⟩⟩
    · exact ⟨c', hsv.symm, .inl .kept⟩
  | initBoard garbage =>
    obtain ⟨-, -, rfl⟩ := hcases
    exact .inl ⟨c', hm, .inl .kept⟩
  | loadSnake n =>
    obtain ⟨-, ⟨-, rfl⟩ | ⟨c, b, -, -, rfl⟩⟩ := hcases
    · exact .inl ⟨c', hm, .inl .kept⟩
    · exact .inl ⟨c', hm, .inl .kept⟩
  | loaded =>
    obtain ⟨-, rfl⟩ := hcases
    exact .inl ⟨c', hm, .inl .kept⟩

/-- A client after a step is a later one of one before it, or new. -/
theorem later_step {s s' : Round} {a : RoundAct M} (hs : roundStep cd s a = some s') {m : Slot} {c' : Client}
    (hm : s'.server.clients m = some c') : (∃ c, s.server.clients m = some c ∧ c.Later c') ∨ c'.con = s.nextCon := by
  rcases becomes_step hs hm with ⟨c, hc, hb | ⟨-, rfl⟩⟩ | rfl
  · exact .inl ⟨c, hc, hb.later⟩
  · exact .inl ⟨c, hc, .lose c⟩
  · exact .inr rfl

/-- What a run makes of a connection that was there before it: it sits in the
same slot, its session has not gone back, and past USER its name and score are
the same. -/
theorem sessions_go_forward {s t : Round} {tr : List (Round × RoundAct M)} (hs : (roundMachine cd).Reaches s)
    (h : (roundMachine cd).Run s tr t) {m n : Slot} {c c' : Client} (hc : s.server.clients n = some c)
    (hc' : t.server.clients m = some c') (hcon : c'.con = c.con) :
    m = n ∧ c.expecting.stage ≤ c'.expecting.stage ∧ (c.expecting ≠ .user → c'.name = c.name ∧ c'.score = c.score) := by
  have hbelow : c.con < s.nextCon := (table_inv hs).below n c.con (cons_eq_some.2 ⟨c, hc, rfl⟩)
  have hlater : m = n ∧ c.Later c' := by
    induction h generalizing m c' with
    | nil =>
      obtain rfl := (table_inv hs).apart m n c.con (cons_eq_some.2 ⟨c', hc', hcon⟩) (cons_eq_some.2 ⟨c, hc, rfl⟩)
      obtain rfl := Option.some.inj (hc.symm.trans hc')
      exact ⟨rfl, .refl c⟩
    | @snoc tr t a u hrun ht ih =>
      rcases later_step ht hc' with ⟨c₁, hc₁, hl⟩ | hnew
      · obtain ⟨rfl, hl'⟩ := ih hc₁ (hl.con.symm.trans hcon)
        exact ⟨rfl, hl'.trans hl⟩
      · have hle := (run_grows hrun).1
        omega
  exact ⟨hlater.1, hlater.2.stage, hlater.2.named⟩

/-- The first of two clients is past USER, and plays in the end. -/
theorem sessions_go_forward_two : ∃ s t tr, (roundMachine eagerCodec).Reaches s ∧ (roundMachine eagerCodec).Run s tr t ∧
    ∃ c c', s.server.clients 0 = some c ∧ c.expecting = .password ∧ t.server.clients 0 = some c' ∧
      c'.expecting = .movement ∧ c'.name = c.name ∧ c'.score = c.score := by
  obtain ⟨s, hs, r, hr, c, c', hc, hc', he, he', hcon⟩ : ∃ s, (roundMachine eagerCodec).Reaches s ∧
      ∃ r, Machine.trace (roundStep eagerCodec) s (twoReady.drop 3) = some r ∧
      ∃ c c', s.server.clients 0 = some c ∧ r.2.server.clients 0 = some c' ∧ c.expecting = .password ∧
        c'.expecting = .movement ∧ c'.con = c.con :=
    ⟨_, Machine.reachesBy_of_runActs (l := twoReady.take 3) (.init rfl) rfl, _, rfl, _, _, rfl, rfl, rfl, rfl, rfl⟩
  have hrun : (roundMachine eagerCodec).Run s r.1 r.2 := Machine.run_of_trace hr
  obtain ⟨hname, hscore⟩ := (sessions_go_forward hs hrun hc hc' hcon).2.2 (by rw [he]; decide)
  exact ⟨s, r.2, r.1, hs, hrun, c, c', hc, he, hc', he', hname, hscore⟩

/-! ## Ticks -/

theorem tickBoards_append (tr tr' : List (Round × RoundAct M)) :
    tickBoards (tr ++ tr') = tickBoards tr ++ tickBoards tr' :=
  List.filterMap_append

/-! ## Flags -/

/-- A slot has no snake, an alive one or a lost one. -/
def Flagged (b : GameBoard) : Prop := ∀ i, b.pDef i = -1 ∨ b.pDef i = 0 ∨ b.pDef i = 1

theorem Flagged.tick {b : GameBoard} (h : Flagged b) (off : Slot → UInt8) : Flagged (updateBoard off b).board := by
  intro i
  rcases lost_updateBoard off b i with ⟨-, he⟩ | ⟨-, -, he⟩
  · rw [he]
    exact h i
  · exact .inr (.inr he)

theorem flagged_loaded {L : List Slot} {b : GameBoard} (h : Loaded L b) : Flagged b := by
  intro i
  rw [h.pDef]
  split
  · exact .inr (.inl rfl)
  · exact .inl rfl

/-- No tick brings a snake back. -/
theorem alive_tick (off : Slot → UInt8) (b : GameBoard) :
    (alive (updateBoard off b).board (List.finRange maxPlayers)).length ≤ (alive b (List.finRange maxPlayers)).length := by
  apply List.Sublist.length_le
  apply List.monotone_filter_right
  intro i hi
  rw [decide_eq_true_eq] at hi ⊢
  rcases lost_updateBoard off b i with ⟨-, he⟩ | ⟨-, h0, -⟩
  · rw [← he, hi]
  · exact h0

/-- While the game goes on, whoever is not LOOSE has an alive snake. -/
theorem two_alive {tr : List (Round × RoundAct M)} {s : Round} (hboard : BoardInv s) (hplay : PlayInv tr s)
    (hlate : late tr = []) (hp : s.phase = .running) {b : GameBoard} (hb : s.server.gameBoard = some b) (hf : Flagged b)
    (hgo : isgameOver s.server.clients = false) : 2 ≤ (alive b (List.finRange maxPlayers)).length := by
  have hlen : ¬(inSlots s.server.clients).length ≤ 1 := by
    rw [← isgameOver_iff, hgo]
    decide
  have hsub : inSlots s.server.clients ⊆ alive b (List.finRange maxPlayers) := by
    intro i hi
    obtain ⟨c, hc, hst⟩ := mem_inSlots.1 hi
    have hplays := hplay.plays (hboard.started (by simp [hp])) i c hc (by simp [hlate])
    have hlisted := hplays.listed (by rw [hp]; trivial)
    obtain ⟨b', hb', hroster⟩ := hboard.board (by simp [hp])
    obtain rfl := Option.some.inj (hb.symm.trans hb')
    refine List.mem_filter.2 ⟨List.mem_finRange i, decide_eq_true ?_⟩
    rcases hf i with hnone | halive | hlost
    · exact absurd hnone ((hroster i).2 ⟨c.con, hlisted⟩)
    · exact halive
    · exact absurd (hplays.lost.2 ⟨b, hb, hlost⟩) hst
  have hle := ((nodup_inSlots s.server.clients).subperm hsub).length_le
  omega

/-! ## The budget of a run -/

/-- What a run has left: in the lobby and while the snakes are loaded there
was no tick, and from then on every tick is paid for by the rank. -/
structure Budget (tr : List (Round × RoundAct M)) (s : Round) : Prop where
  early : s.phase ≠ .over → late tr = []
  before : s.phase ≠ .running → s.phase ≠ .over → tickBoards tr = []
  loading : ∀ k, s.phase = .loading k → ∃ b, s.server.gameBoard = some b ∧ Loaded (s.roster.map Prod.fst) b
  running : s.phase = .running → ∃ b, s.server.gameBoard = some b ∧ Flagged b ∧
    2 * (tickBoards tr).length + rank b ≤ 400 ∧ (tickBoards tr = [] ∨ 2 ≤ (alive b (List.finRange maxPlayers)).length)
  ticks : (tickBoards tr).length ≤ 200

/-- A step that is no tick and keeps the phase, the roster and the board but
for directions costs nothing. -/
theorem Budget.keep {tr : List (Round × RoundAct M)} {s s' : Round} {a : RoundAct M} (h : Budget tr s)
    (hl : s'.phase ≠ .over → late [(s, a)] = []) (ht : tickBoards [(s, a)] = []) (hp : s'.phase = s.phase)
    (hr : s'.roster = s.roster)
    (hb : s'.server.gameBoard = s.server.gameBoard ∨
      ∃ n p, s'.server.gameBoard = s.server.gameBoard.map (updateMovementDirection n p)) : Budget (tr ++ [(s, a)]) s' := by
  have htr : tickBoards (tr ++ [(s, a)]) = tickBoards tr := by rw [tickBoards_append, ht, List.append_nil]
  refine ⟨fun ho => ?_, fun h1 h2 => ?_, fun k hk => ?_, fun hrun => ?_, ?_⟩
  · rw [late_append, h.early (hp ▸ ho), hl ho]
    rfl
  · rw [htr]
    exact h.before (hp ▸ h1) (hp ▸ h2)
  · obtain ⟨b, hbs, hload⟩ := h.loading k (hp ▸ hk)
    rw [hr]
    rcases hb with hb | ⟨n, p, hb⟩
    · exact ⟨b, hb.trans hbs, hload⟩
    · rw [hbs] at hb
      exact ⟨_, hb, ⟨hload.tail_iff, hload.owner, hload.cells, hload.head, hload.pDef⟩⟩
  · rw [htr]
    obtain ⟨b, hbs, hf, hrank, halive⟩ := h.running (hp ▸ hrun)
    rcases hb with hb | ⟨n, p, hb⟩
    · exact ⟨b, hb.trans hbs, hf, hrank, halive⟩
    · rw [hbs] at hb
      exact ⟨_, hb, hf, hrank, halive⟩
  · rw [htr]
    exact h.ticks

/-- A step of `initGame` before its loop costs nothing. -/
theorem Budget.setup {tr : List (Round × RoundAct M)} {s s' : Round} {a : RoundAct M} (h : Budget tr s)
    (hl : late [(s, a)] = []) (ht : tickBoards [(s, a)] = []) (hp : s.phase ≠ .running ∧ s.phase ≠ .over)
    (hload : ∀ k, s'.phase = .loading k → ∃ b, s'.server.gameBoard = some b ∧ Loaded (s'.roster.map Prod.fst) b)
    (hrun : s'.phase = .running → ∃ b, s'.server.gameBoard = some b ∧ Flagged b ∧ rank b ≤ 400) :
    Budget (tr ++ [(s, a)]) s' := by
  have hno : tickBoards (tr ++ [(s, a)]) = [] := by rw [tickBoards_append, h.before hp.1 hp.2, ht, List.append_nil]
  have hearly : late (tr ++ [(s, a)]) = [] := by rw [late_append, h.early hp.2, hl, List.append_nil]
  refine ⟨fun _ => hearly, fun _ _ => hno, hload, fun hr => ?_, ?_⟩
  · obtain ⟨b, hb, hf, hrank⟩ := hrun hr
    refine ⟨b, hb, hf, ?_, .inl hno⟩
    rw [hno, List.length_nil]
    omega
  · rw [hno]
    exact Nat.zero_le _

/-- A tick with two alive snakes is paid for; the first one ends the game when
there are fewer. -/
theorem Budget.tick {tr : List (Round × RoundAct M)} {s : Round} (h : Budget tr s) (hp : s.phase = .running)
    {off : Slot → UInt8} {b : GameBoard} (hb : s.server.gameBoard = some b) {s' : Round}
    (hb' : s'.server.gameBoard = some (updateBoard off b).board) (hover : s'.phase = .over ∨ s'.phase = .running)
    (htwo : s'.phase = .running → 2 ≤ (alive (updateBoard off b).board (List.finRange maxPlayers)).length) :
    Budget (tr ++ [(s, .tick off)]) s' := by
  obtain ⟨b', hbs, hf, hrank, halive⟩ := h.running hp
  obtain rfl := Option.some.inj (hb.symm.trans hbs)
  have hlen : (tickBoards (tr ++ [(s, RoundAct.tick (M := M) off)])).length = (tickBoards tr).length + 1 := by
    rw [tickBoards_append]
    simp [tickBoards, hb]
  have hdrop := rank_updateBoard off b
  have hmono := alive_tick off b
  refine ⟨fun _ => ?_, fun h1 h2 => ?_, fun k hk => ?_, fun hrun => ?_, ?_⟩
  · rw [late_append, h.early (by simp [hp])]
    rfl
  · rcases hover with hover | hover
    · exact absurd hover h2
    · exact absurd hover h1
  · rw [hk] at hover
    simp at hover
  · have h2 := htwo hrun
    refine ⟨_, hb', hf.tick off, ?_, .inr h2⟩
    rw [hlen]
    omega
  · rw [hlen]
    rcases halive with hnone | h2
    · rw [hnone]
      exact Nat.succ_le_succ (Nat.zero_le 199)
    · omega

theorem budget_step {tr : List (Round × RoundAct M)} {s s' : Round} {a : RoundAct M}
    (hinv : BoardInv s) (hinv' : BoardInv s' ∧ PlayInv (tr ++ [(s, a)]) s') (h : Budget tr s) (hok : AcceptsOutside s a)
    (hs : roundStep cd s a = some s') : Budget (tr ++ [(s, a)]) s' := by
  have hcases := round_cases hs
  cases a with
  | accept n =>
    obtain ⟨-, rfl⟩ := hcases
    refine h.keep (fun ho => ?_) rfl rfl rfl (.inl rfl)
    rcases hok with hg | hover
    · simp [late, hg]
    · exact absurd hover ho
  | request n db junk res d =>
    obtain ⟨sv, hr, rfl⟩ := hcases
    refine h.keep (fun _ => rfl) rfl rfl rfl ?_
    rcases resolve_board hr with he | ⟨c, p, -, -, -, -, he⟩
    · exact .inl he
    · exact .inr ⟨n, p, he⟩
  | initBoard garbage =>
    obtain ⟨hp, -, rfl⟩ := hcases
    have hnone : s.roster = [] := by
      apply List.eq_nil_iff_forall_not_mem.2
      intro e he
      have hpassed := hinv.passed e he
      rw [hp] at hpassed
      exact hpassed
    refine h.setup rfl rfl (by simp [hp]) (fun _ _ => ⟨_, rfl, ?_⟩) fun hrun => by cases hrun
    rw [hnone]
    exact loaded_initBoard garbage
  | loadSnake n =>
    obtain ⟨hp, hcases⟩ := hcases
    obtain ⟨b, hbs, hload⟩ := h.loading n.val hp
    obtain ⟨-, rfl⟩ | ⟨c, b', -, hb', rfl⟩ := hcases
    · exact h.setup rfl rfl (by simp [hp]) (fun _ _ => ⟨b, hbs, hload⟩) fun hrun => by cases hrun
    · obtain rfl := Option.some.inj (hbs.symm.trans hb')
      refine h.setup rfl rfl (by simp [hp]) (fun _ _ => ⟨_, rfl, ?_⟩) fun hrun => by cases hrun
      rw [List.map_append]
      exact hload.snoc n
  | loaded =>
    obtain ⟨hp, rfl⟩ := hcases
    obtain ⟨b, hbs, hload⟩ := h.loading maxPlayers hp
    have hrank := rank_loaded hinv.slots hload
    exact h.setup rfl rfl (by simp [hp]) (fun k hk => by cases hk) fun _ => ⟨b, hbs, flagged_loaded hload, by omega⟩
  | tick off =>
    obtain ⟨hp, b, sv, hb, hl, rfl⟩ := hcases
    have hphase : (if isgameOver sv.clients then Phase.over else Phase.running) = .over ∨
        (if isgameOver sv.clients then Phase.over else Phase.running) = .running := by
      split
      · exact .inl rfl
      · exact .inr rfl
    refine h.tick hp hb rfl hphase fun hrun => ?_
    obtain ⟨b', hbs, hf, -⟩ := h.running hp
    obtain rfl := Option.some.inj (hb.symm.trans hbs)
    have hgo : isgameOver sv.clients = false := by
      cases hg : isgameOver sv.clients with
      | false => rfl
      | true => simp [hg] at hrun
    have hearly : late (tr ++ [(s, RoundAct.tick (M := M) off)]) = [] := by
      rw [late_append, h.early (by simp [hp])]
      rfl
    exact two_alive hinv'.1 hinv'.2 hearly hrun rfl (hf.tick off) hgo

/-- No game goes on forever: in a run whose steps are defined and in which
nobody is accepted from the start to the end of the game there are at most 200
ticks, whatever the clients send and whoever leaves. -/
theorem ticks_bounded {tr : List (Round × RoundAct M)} {s : Round} (h : (strayMachine cd).Run Round.start tr s)
    (hdef : ∀ e ∈ tr, Defined cd e.1 e.2) (hok : ∀ e ∈ tr, AcceptsOutside e.1 e.2) : (tickBoards tr).length ≤ 200 := by
  have hrun := h.defined hdef
  clear h hdef
  have hbudget : Budget tr s := by
    induction hrun with
    | nil => exact ⟨fun _ => rfl, fun _ _ => rfl, fun k hk => (by cases hk), fun hrun => (by cases hrun), Nat.zero_le _⟩
    | @snoc tr t a u hrun hs ih =>
      rw [List.forall_mem_append, List.forall_mem_singleton] at hok
      obtain ⟨hb, -, hp⟩ := play_inv (hrun.snoc hs)
      exact budget_step (play_inv hrun).1 ⟨hb, hp⟩ (ih hok.1) hok.2 hs
  exact hbudget.ticks

/-- A player leaves before the first tick, which is the last. -/
theorem ticks_bounded_left : ∃ tr s, (strayMachine eagerCodec).Run Round.start tr s ∧ s.phase = .over ∧
    (tickBoards tr).length = 1 ∧ (tickBoards tr).length ≤ 200 := by
  obtain ⟨r, hr, hover, hticks, hdef, hok⟩ : ∃ r,
      Machine.trace (roundStep eagerCodec) Round.start (twoReady ++ loadSnakes ++ [leaves 1, .tick fun _ => 0]) = some r ∧
      r.2.phase = .over ∧ (tickBoards r.1).length = 1 ∧ (∀ e ∈ r.1, Defined eagerCodec e.1 e.2) ∧
      ∀ e ∈ r.1, AcceptsOutside e.1 e.2 :=
    ⟨_, rfl, rfl, rfl, of_decide_eq_true rfl, of_decide_eq_true rfl⟩
  have hrun : (roundMachine eagerCodec).Run Round.start r.1 r.2 := Machine.run_of_trace hr
  exact ⟨r.1, r.2, hrun.undefined, hover, hticks, ticks_bounded hrun.undefined hdef hok⟩

end Snuffin.ChildServer
