import Snuffin.GameLoop
import Snuffin.Session
/-!
# A game among connections, logins and departures

The child server from its first connection to the end of its game. The accept
thread, the requests and the steps of `initGame` interleave, and two histories
are kept that the code does not keep: the connections that `sendGameStart`
moved to PLAYING, and the roster, the clients whose snakes were loaded.
-/
open Lib Snuffin.Game

namespace Snuffin.ChildServer

/-! ## The machine -/

/-- Where the main thread is: in `lobby`, at slot `k` of the loop of
`initGame` that loads the snakes, in its game loop, or past it. -/
inductive Phase where
  | lobby
  | loading (k : Nat)
  | running
  | over
  deriving DecidableEq, Repr

structure Round where
  server : Server
  phase : Phase
  nextCon : Nat
  moved : List Nat
  roster : List (Slot × Nat)

inductive RoundAct (M : Type) where
  | accept (n : Slot)
  | request (n : Slot) (db : Db) (junk : Bytes) (res : Bool) (d : M)
  | initBoard (garbage : GameBoard)
  | loadSnake (n : Slot)
  | loaded
  | tick (off : Slot → UInt8)

/-- The connections that some effects moved to PLAYING. -/
def started (es : List Effect) : List Nat :=
  es.filterMap fun | .send .start con _ => some con | _ => none

/-- What loading the snake of slot `n` does when the slot is read. -/
def loadSlot (n : Slot) (s : Round) : Option Round :=
  match s.server.clients n with
  | none => some { s with phase := .loading (n.val + 1) }
  | some c =>
    (s.server.gameBoard.bind (loadSnakeNumber 4 n)).map fun b =>
      { s with
        server := { s.server with gameBoard := some b }
        phase := .loading (n.val + 1)
        roster := s.roster ++ [(n, c.con)] }

/-- One step; `none` when it cannot be taken, or ends in a NULL dereference. -/
def roundStep {M : Type} (cd : Codec M) (s : Round) : RoundAct M → Option Round
  | .accept n =>
    if s.server.clients n = none then
      some { s with server := s.server.setClient n (newClient s.nextCon), nextCon := s.nextCon + 1 }
    else none
  | .request n db junk res d =>
    (resolveRequest cd db junk res d n { s.server with out := [] }).map fun sv =>
      { s with server := sv, moved := s.moved ++ started sv.out }
  | .initBoard garbage =>
    if s.phase = .lobby ∧ s.server.startGame = true then
      some { s with server := { s.server with gameBoard := some (Game.initBoard garbage) }, phase := .loading 0 }
    else none
  | .loadSnake n => if s.phase = .loading n.val then loadSlot n s else none
  | .loaded => if s.phase = .loading maxPlayers then some { s with phase := .running } else none
  | .tick off =>
    if s.phase = .running then
      (tick off s.server).map fun sv => { s with server := sv, phase := if isgameOver sv.clients then .over else .running }
    else none

/-- A server before its first client. -/
def Round.start : Round := ⟨⟨fun _ => none, false, none, []⟩, .lobby, 0, [], []⟩

/-- The server from there up to the end of its game. -/
def roundMachine {M : Type} (cd : Codec M) : Machine Round (RoundAct M) := .ofFun Round.start (roundStep cd)

/-- The roster clients that are still connected and not LOOSE. -/
def stillIn (roster : List (Slot × Nat)) (t : Table) : List (Slot × Nat) :=
  roster.filter fun e => (t e.1).any fun c => c.con = e.2 ∧ c.state ≠ .loose

/-- No client is accepted from the start of the game to its end. -/
def AcceptsOutside {M : Type} (s : Round) : RoundAct M → Prop
  | .accept _ => s.server.startGame = false ∨ s.phase = .over
  | _ => True

instance {M : Type} (s : Round) : ∀ a : RoundAct M, Decidable (AcceptsOutside s a)
  | .accept _ => inferInstanceAs (Decidable (s.server.startGame = false ∨ s.phase = .over))
  | .request .. | .initBoard _ | .loadSnake _ | .loaded | .tick _ => .isTrue trivial

/-! ## Who is connected where -/

/-- The connections of the slots. -/
def cons (t : Table) (n : Slot) : Option Nat := (t n).map Client.con

theorem cons_eq_some {t : Table} {n : Slot} {con : Nat} : cons t n = some con ↔ ∃ c, t n = some c ∧ c.con = con :=
  Option.map_eq_some_iff

theorem cons_update_same {t : Table} {n : Slot} {c c' : Client} (hc : t n = some c) (h : c'.con = c.con) :
    cons (Function.update t n (some c')) = cons t := by
  funext m
  by_cases hm : m = n
  · subst hm; simp [cons, hc, h]
  · simp [cons, hm]

/-- A client that is written over its slot, with its name, brings no new name. -/
theorem update_same_name {t : Table} {n : Slot} {c c' : Client} (hc : t n = some c) (h : c'.name = c.name) {i : Slot}
    {ci : Client} (hi : Function.update t n (some c') i = some ci) : ∃ c₀, t i = some c₀ ∧ c₀.name = ci.name := by
  by_cases hin : i = n
  · subst hin
    rw [Function.update_self, Option.some.injEq] at hi
    exact ⟨c, hc, by rw [← hi, h]⟩
  · rw [Function.update_of_ne hin] at hi
    exact ⟨ci, hi, rfl⟩

/-- A message changes no connection. -/
theorem Resolved.cons {M : Type} {cd : Codec M} {db : Db} {d : M} {n : Slot} {c : Client} {t t' : Table}
    {es : List Effect} {b : Bool} (hc : t n = some c) (h : Resolved cd db d n c t t' es b) :
    ChildServer.cons t' = ChildServer.cons t := by
  cases h with
  | kept => rfl
  | named => exact cons_update_same hc rfl
  | refused => rfl
  | rejected => rfl
  | admitted _ _ ht _ => subst ht; exact cons_update_same hc rfl
  | toggled _ _ _ _ ht _ => subst ht; exact cons_update_same hc rfl
  | started u _ ht _ =>
    have e : ChildServer.cons (fun i => (u i).map Client.start) = ChildServer.cons u := by
      funext m; simp [ChildServer.cons, Option.map_map, Function.comp_def, Client.start]
    rw [e, ht]; exact cons_update_same hc rfl

/-- When the game starts, every connection in the table is moved to PLAYING. -/
theorem Resolved.moves {M : Type} {cd : Codec M} {db : Db} {d : M} {n : Slot} {c : Client} {t t' : Table}
    {es : List Effect} (h : Resolved cd db d n c t t' es true) {m : Slot} {con : Nat}
    (hm : ChildServer.cons t' m = some con) : con ∈ ChildServer.started es := by
  cases h with
  | started u _ _ _ =>
    obtain ⟨c', hc', rfl⟩ := cons_eq_some.1 hm
    obtain ⟨c₀, h₀, rfl⟩ := Option.map_eq_some_iff.1 hc'
    have hin : Effect.send .start c₀.con (.boolean true) ∈ startNotices u := mem_forClients.2 ⟨m, c₀, h₀, rfl⟩
    exact List.mem_filterMap.2 ⟨_, List.mem_append_right _ hin, rfl⟩

theorem playersLost_cons {l : List Slot} {s s' : Server} (h : playersLost l s = some s') :
    cons s'.clients = cons s.clients ∧ s'.startGame = s.startGame := by
  induction l generalizing s with
  | nil => cases h; exact ⟨rfl, rfl⟩
  | cons i l ih =>
    obtain ⟨c, hc, hl⟩ := playersLost_first.1 h
    obtain ⟨h1, h2⟩ := ih hl
    exact ⟨h1.trans (cons_update_same hc rfl), h2⟩

/-- A tick changes no connection. -/
theorem tick_cons {off : Slot → UInt8} {s s' : Server} (h : tick off s = some s') :
    cons s'.clients = cons s.clients ∧ s'.startGame = s.startGame := by
  obtain ⟨b, -, h⟩ := Option.bind_eq_some_iff.1 h
  obtain ⟨u, hu, rfl⟩ := Option.map_eq_some_iff.1 h
  exact ⟨(playersLost_cons hu).1, (playersLost_cons hu).2⟩

theorem disconnect_cons {n m : Slot} {c : Client} {s : Server} {con : Nat}
    (h : cons (disconnect n c s).clients m = some con) : cons s.clients m = some con := by
  by_cases hm : m = n
  · subst hm; simp [cons, disconnect] at h
  · simpa [cons, disconnect, hm] using h

/-! ## The invariant -/

/-- The slots whose snakes initGame has passed. -/
def Phase.passed : Phase → Slot → Prop
  | .lobby, _ => False
  | .loading k, n => n < k
  | _, _ => True

/-- What is passed when the next slot has been, but for that slot, was passed
before. -/
theorem Phase.passed_of_next {ph : Phase} {n m : Slot} (hp : ph = .loading n.val) (hmn : m ≠ n) (hlt : m.val < n.val + 1) :
    ph.passed m := by
  rw [hp]
  exact Nat.lt_of_le_of_ne (Nat.le_of_lt_succ hlt) (Fin.val_ne_of_ne hmn)

/-- From the start to the end of the game, everybody connected was moved to
PLAYING, and whoever sits in a slot that was passed is in the roster. -/
structure RoundInv (s : Round) : Prop where
  lobby : s.server.startGame = false → s.phase = .lobby
  moved : s.server.startGame = true → s.phase ≠ .over → ∀ n con, cons s.server.clients n = some con → con ∈ s.moved
  roster : ∀ e ∈ s.roster, e.2 ∈ s.moved ∧ s.phase.passed e.1
  slots : (s.roster.map Prod.fst).Nodup
  listed : s.phase ≠ .over → ∀ n con, s.phase.passed n → cons s.server.clients n = some con → (n, con) ∈ s.roster

/-- Steps that connect nobody, keep the start and only add to `moved` keep the
invariant. -/
theorem RoundInv.keep {s : Round} (h : RoundInv s) {sv : Server} {es : List Nat}
    (hg : sv.startGame = s.server.startGame)
    (hc : ∀ n con, cons sv.clients n = some con → cons s.server.clients n = some con) :
    RoundInv { s with server := sv, moved := s.moved ++ es } where
  lobby hs := h.lobby (hg ▸ hs)
  moved hs ho n con hn := List.mem_append_left _ (h.moved (hg ▸ hs) ho n con (hc n con hn))
  roster e he := ⟨List.mem_append_left _ (h.roster e he).1, (h.roster e he).2⟩
  slots := h.slots
  listed ho n con hp hn := h.listed ho n con hp (hc n con hn)

theorem RoundInv.accept {s : Round} (h : RoundInv s) (hs : s.server.startGame = false ∨ s.phase = .over) (n : Slot) :
    RoundInv { s with server := s.server.setClient n (newClient s.nextCon), nextCon := s.nextCon + 1 } where
  lobby := h.lobby
  moved ht ho := by
    rcases hs with hs | hs
    · exact absurd (hs.symm.trans ht) Bool.false_ne_true
    · exact absurd hs ho
  roster := h.roster
  slots := h.slots
  listed ho m con hp _ := by
    rcases hs with hs | hs
    · rw [h.lobby hs] at hp; exact hp.elim
    · exact absurd hs ho

theorem RoundInv.request {M : Type} {cd : Codec M} {db : Db} {junk : Bytes} {res : Bool} {d : M} {n : Slot}
    {s : Round} {sv : Server} (h : RoundInv s)
    (hr : resolveRequest cd db junk res d n { s.server with out := [] } = some sv) :
    RoundInv { s with server := sv, moved := s.moved ++ started sv.out } := by
  cases res with
  | false =>
    obtain ⟨c, -, rfl⟩ := resolve_closed hr
    exact h.keep rfl fun m con hm => disconnect_cons (s := { s.server with out := [] }) hm
  | true =>
    obtain ⟨c, hc, es, b, hres, hout, hg⟩ := resolve_cases hr
    have hcons := hres.cons hc
    cases b with
    | false => exact h.keep hg fun m con hm => by rwa [hcons] at hm
    | true =>
      rw [List.nil_append] at hout
      refine ⟨fun hs => by simp [hg] at hs, fun _ _ m con hm => ?_, fun e he => ?_, h.slots, fun ho m con hp hm => ?_⟩
      · rw [hout]; exact List.mem_append_right _ (hres.moves hm)
      · exact ⟨List.mem_append_left _ (h.roster e he).1, (h.roster e he).2⟩
      · exact h.listed ho m con hp (by rwa [hcons] at hm)

theorem RoundInv.started_of {s : Round} (h : RoundInv s) (hp : s.phase ≠ .lobby) : s.server.startGame = true := by
  cases hs : s.server.startGame with
  | true => rfl
  | false => exact absurd (h.lobby hs) hp

theorem RoundInv.loadSlot {s s' : Round} {n : Slot} (h : RoundInv s) (hp : s.phase = .loading n.val)
    (hl : ChildServer.loadSlot n s = some s') : RoundInv s' := by
  have hg := h.started_of (by simp [hp])
  have ho : s.phase ≠ .over := by simp [hp]
  have hroster : ∀ e ∈ s.roster, e.2 ∈ s.moved ∧ e.1.val < n.val := fun e he => by
    have := h.roster e he; rwa [hp] at this
  have hlisted : ∀ m con, m.val < n.val → cons s.server.clients m = some con → (m, con) ∈ s.roster :=
    fun m con hm => h.listed ho m con (by rw [hp]; exact hm)
  unfold ChildServer.loadSlot at hl
  split at hl
  · rename_i hn
    rw [← Option.some.inj hl]
    refine ⟨fun hs => by simp [hg] at hs, fun _ _ => h.moved hg ho, fun e he => ?_, h.slots, fun _ m con hm hc => ?_⟩
    · obtain ⟨h1, h2⟩ := hroster e he; exact ⟨h1, Nat.lt_succ_of_lt h2⟩
    · refine hlisted m con ?_ hc
      have hne : m ≠ n := by rintro rfl; simp [cons, hn] at hc
      have hv := Fin.val_ne_of_ne hne
      simp only [Phase.passed] at hm
      omega
  · rename_i c hn
    obtain ⟨b, -, rfl⟩ := Option.map_eq_some_iff.1 hl
    refine ⟨fun hs => by simp [hg] at hs, fun _ _ => h.moved hg ho, fun e he => ?_, ?_, fun _ m con hm hc => ?_⟩
    · rcases List.mem_append.1 he with he | he
      · obtain ⟨h1, h2⟩ := hroster e he; exact ⟨h1, Nat.lt_succ_of_lt h2⟩
      · rw [List.mem_singleton.1 he]
        exact ⟨h.moved hg ho n c.con (cons_eq_some.2 ⟨c, hn, rfl⟩), Nat.lt_succ_self _⟩
    · rw [List.map_append, List.nodup_append]
      refine ⟨h.slots, by simp, fun a ha b hb => ?_⟩
      obtain ⟨e, he, rfl⟩ := List.mem_map.1 ha
      rw [List.mem_singleton.1 hb]
      exact Fin.ne_of_lt (hroster e he).2
    · by_cases hmn : m = n
      · subst hmn
        obtain ⟨c', hc', rfl⟩ := cons_eq_some.1 hc
        rw [hn] at hc'
        rw [Option.some.inj hc']; exact List.mem_append_right _ (by simp)
      · have hv := Fin.val_ne_of_ne hmn
        simp only [Phase.passed] at hm
        exact List.mem_append_left _ (hlisted m con (by omega) hc)

theorem RoundInv.tick {s : Round} {sv : Server} {off : Slot → UInt8} (h : RoundInv s) (hp : s.phase = .running)
    (ht : ChildServer.tick off s.server = some sv) (p : Phase) (hpp : p = .running ∨ p = .over) :
    RoundInv { s with server := sv, phase := p } := by
  obtain ⟨hc, hg⟩ := tick_cons ht
  have hs := h.started_of (by simp [hp])
  have hpass : ∀ n, p.passed n ↔ s.phase.passed n := fun n => by
    rcases hpp with rfl | rfl <;> simp [hp, Phase.passed]
  have ho : s.phase ≠ .over := by simp [hp]
  refine ⟨fun hs' => by simp [hg, hs] at hs', fun _ _ n con hn => ?_, fun e he => ?_, h.slots,
    fun _ n con hn hcon => ?_⟩
  · exact h.moved hs ho n con (by rwa [hc] at hn)
  · exact ⟨(h.roster e he).1, (hpass e.1).2 (h.roster e he).2⟩
  · exact h.listed ho n con ((hpass n).1 hn) (by rwa [hc] at hcon)

theorem round_step {M : Type} {cd : Codec M} {s s' : Round} {a : RoundAct M} (h : RoundInv s)
    (hok : AcceptsOutside s a) (hs : roundStep cd s a = some s') : RoundInv s' := by
  cases a with
  | accept n =>
    obtain ⟨-, hs⟩ := Option.ite_none_right_eq_some.1 hs
    rw [← Option.some.inj hs]
    exact h.accept hok n
  | request n db junk res d =>
    obtain ⟨sv, hr, rfl⟩ := Option.map_eq_some_iff.1 hs
    exact h.request hr
  | initBoard garbage =>
    obtain ⟨⟨hp, hg⟩, hs⟩ := Option.ite_none_right_eq_some.1 hs
    rw [← Option.some.inj hs]
    have ho : s.phase ≠ .over := by simp [hp]
    refine ⟨fun hs => by simp [hg] at hs, fun _ _ => h.moved hg ho, fun e he => ?_, h.slots, fun _ n con hn => ?_⟩
    · have := (h.roster e he).2; rw [hp] at this; exact this.elim
    · exact absurd hn (Nat.not_lt_zero _)
  | loadSnake n =>
    obtain ⟨hp, hl⟩ := Option.ite_none_right_eq_some.1 hs
    exact h.loadSlot hp hl
  | loaded =>
    obtain ⟨hp, hs⟩ := Option.ite_none_right_eq_some.1 hs
    rw [← Option.some.inj hs]
    have hg := h.started_of (by simp [hp])
    have ho : s.phase ≠ .over := by simp [hp]
    refine ⟨fun hs => by simp [hg] at hs, fun _ _ => h.moved hg ho, fun e he => ⟨(h.roster e he).1, trivial⟩, h.slots,
      fun _ n con _ => h.listed ho n con ?_⟩
    rw [hp]; exact n.isLt
  | tick off =>
    obtain ⟨hp, hs⟩ := Option.ite_none_right_eq_some.1 hs
    obtain ⟨sv, ht, rfl⟩ := Option.map_eq_some_iff.1 hs
    exact h.tick hp ht _ (by split <;> simp)

theorem round_inv {M : Type} {cd : Codec M} {s : Round} (h : (roundMachine cd).ReachesBy AcceptsOutside s) :
    RoundInv s :=
  h.inv (I := RoundInv)
    (fun s hs => by
      rw [hs]
      exact ⟨fun _ => rfl, fun h => Bool.noConfusion h, by simp [Round.start], by simp [Round.start], fun _ _ _ h => h.elim⟩)
    fun _ _ _ hi hok hs => round_step hi hok hs

/-! ## The end of the game -/

/-- With everybody connected in the roster, the roster clients still in sit in
the slots that are still in. -/
theorem stillIn_length {roster : List (Slot × Nat)} {t : Table} (hn : (roster.map Prod.fst).Nodup)
    (hl : ∀ n con, cons t n = some con → (n, con) ∈ roster) : (stillIn roster t).length = (inSlots t).length := by
  rw [← List.length_map (Prod.fst : Slot × Nat → Slot)]
  have hn' : ((stillIn roster t).map Prod.fst).Nodup := hn.sublist (List.filter_sublist.map _)
  refine ((List.perm_ext_iff_of_nodup hn' (nodup_inSlots _)).2 fun n => ?_).length_eq
  rw [mem_inSlots]
  constructor
  · intro hm
    obtain ⟨e, he, rfl⟩ := List.mem_map.1 hm
    obtain ⟨-, he⟩ := List.mem_filter.1 he
    obtain ⟨c, hc, hin⟩ := (Option.any_eq_true _ _).1 he
    exact ⟨c, hc, (of_decide_eq_true hin).2⟩
  · rintro ⟨c, hc, hs⟩
    refine List.mem_map.2 ⟨(n, c.con), List.mem_filter.2 ⟨?_, by simp [hc, hs]⟩, rfl⟩
    exact hl n c.con (cons_eq_some.2 ⟨c, hc, rfl⟩)

/-- While nobody is accepted from the start of the game to its end, everybody
whose snake is loaded had been moved to PLAYING, and after every tick the game
is over exactly when at most one of them is still connected and not LOOSE. -/
theorem over_when_one_of_roster {M : Type} {cd : Codec M} {s : Round}
    (h : (roundMachine cd).ReachesBy AcceptsOutside s) :
    (∀ e ∈ s.roster, e.2 ∈ s.moved) ∧
      ∀ off s', (roundMachine cd).step s (.tick off) s' →
        (isgameOver s'.server.clients = true ↔ (stillIn s'.roster s'.server.clients).length ≤ 1) := by
  have hi := round_inv h
  refine ⟨fun e he => (hi.roster e he).1, fun off s' hs => ?_⟩
  obtain ⟨hp, hs⟩ := Option.ite_none_right_eq_some.1 hs
  obtain ⟨sv, ht, rfl⟩ := Option.map_eq_some_iff.1 hs
  have hl : ∀ n con, cons sv.clients n = some con → (n, con) ∈ s.roster := by
    intro n con hc
    rw [(tick_cons ht).1] at hc
    exact hi.listed (by simp [hp]) n con (by rw [hp]; trivial) hc
  rw [stillIn_length hi.slots hl]
  exact isgameOver_iff sv.clients

/-- A codec that takes every message for a string and for TRUE. -/
def eagerCodec : Codec Bytes := ⟨some, fun _ => some true, fun _ => none⟩

/-- Two clients connect, log in and say that they are ready, which starts the
game. -/
def twoReady : List (RoundAct Bytes) :=
  [.accept 0, .accept 1] ++ [0, 0, 1, 1, 0, 1].map fun n => .request n trusting [] true [97]

/-- The snakes are loaded. -/
def loadSnakes : List (RoundAct Bytes) := .initBoard blank :: (List.finRange maxPlayers).map .loadSnake ++ [.loaded]

/-- `initGame` loads the two players' snakes, and the game goes on after a
tick. -/
theorem over_when_one_of_roster_two : ∃ s s', (roundMachine eagerCodec).ReachesBy AcceptsOutside s ∧
    s.roster = [(0, 0), (1, 1)] ∧ (∀ e ∈ s.roster, e.2 ∈ s.moved) ∧
    (roundMachine eagerCodec).step s (.tick fun _ => 0) s' ∧
    (isgameOver s'.server.clients = true ↔ (stillIn s'.roster s'.server.clients).length ≤ 1) := by
  have hr : (roundMachine eagerCodec).ReachesBy AcceptsOutside _ :=
    Machine.reachesBy_of_runActs (l := twoReady ++ loadSnakes) (.init rfl) rfl
  exact ⟨_, _, hr, rfl, (over_when_one_of_roster hr).1, rfl, (over_when_one_of_roster hr).2 _ _ rfl⟩

/-- A third client who connects after the start gets a snake without having
been moved to PLAYING, and one who connects while the game runs keeps it from
ending when one of the two players has left. -/
theorem late_comers :
    (∃ s, (roundMachine eagerCodec).Reaches s ∧ s.roster = [(0, 0), (1, 1), (2, 2)] ∧ ¬∀ e ∈ s.roster, e.2 ∈ s.moved) ∧
      ∃ s s', (roundMachine eagerCodec).Reaches s ∧ (roundMachine eagerCodec).step s (.tick fun _ => 0) s' ∧
        ¬(isgameOver s'.server.clients = true ↔ (stillIn s'.roster s'.server.clients).length ≤ 1) := by
  have h1 : (roundMachine eagerCodec).Reaches _ :=
    Machine.reachesBy_of_runActs (l := twoReady ++ .accept 2 :: loadSnakes) (.init rfl) rfl
  have h2 : (roundMachine eagerCodec).Reaches _ :=
    Machine.reachesBy_of_runActs
      (l := twoReady ++ loadSnakes ++ [.accept 2, .request 1 trusting [] false []]) (.init rfl) rfl
  refine ⟨⟨_, h1, rfl, by decide⟩, _, _, h2, rfl, by decide⟩

end Snuffin.ChildServer
