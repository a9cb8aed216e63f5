import Snuffin.Login
import Snuffin.RoundBoard
import Snuffin.Lib.CString
/-!
# The lobby from both sides (prepareLobby)

A client in `prepareLobby` keeps the table `players`, which it builds from the
messages it reads: PLAYER for an arrival or a change of ready, STRING for a
departure. `View` is what that table will be once the client has read all that
is under way to it.
-/
open Lib Snuffin.Game

namespace Snuffin.ChildServer

/-! ## The client -/

/-- What a client sends up to the start of the game: a name or a password, or
whether it is ready. -/
inductive Said where
  | string (s : Bytes)
  | boolean (value : Bool)

/-- Messages arrive as they were sent. With their bytes and the decoders the
lobby is `wireMachine`. -/
def lobbyCodec : Codec Said where
  unmarshString := fun | .string s => some s | .boolean _ => none
  unmarshBoolean := fun | .boolean b => some b | .string _ => none
  unmarshPoint := fun _ => none

/-- `players`, with `none` for NULL. -/
abbrev Players := Slot → Option Player

/-- The loop of `belongs`, and of `changeReady`: the first player of a name. -/
def belongs (players : Players) (name : Option Bytes) : Option Slot :=
  (List.finRange maxPlayers).find? fun i => (players i).any fun q => q.name = name

def setReady (players : Players) (i : Slot) (ready : Bool) : Players :=
  Function.update players i ((players i).map fun q => { q with ready := ready })

def changeReady (myName : Bytes) (state : Bool) (players : Players) : Players :=
  match belongs players (some myName) with
  | none => players
  | some i => setReady players i state

/-- The PLAYER branch of `prepareLobby`. -/
def addPlayer (player : Player) (players : Players) : Players :=
  match belongs players player.name with
  | none => Function.update players player.num (some player)
  | some aux => setReady players aux player.ready

/-- The loop of `playerLeft`. No index is set when no player has the number. -/
def leavingIndex (leaving : Int) (players : Players) : Option Slot :=
  (List.finRange maxPlayers).foldl
    (fun index i => if (players i).any fun q => (q.num.val : Int) = leaving then some i else index) none

/-- `none` is the use of an unset index. -/
def playerLeft (leaving : Int) (players : Players) : Option Players :=
  (leavingIndex leaving players).map fun index => Function.update players index none

/-- What `prepareLobby` does with a message that is read as it was sent; on its
bytes it is `Room.read`. Every STRING that the server sends holds the number of
a slot. -/
def absorb (players : Players) : Msg → Option Players
  | .player p => some (addPlayer p players)
  | .string s => playerLeft (strtol s) players
  | .boolean _ | .board _ => some players

/-- The variables of a client. -/
structure Room where
  myName : Bytes
  players : Players
  ready : Bool
  gameStart : Bool

def Room.new : Room := ⟨[], fun _ => none, false, false⟩

/-- One round of the loop of `prepareLobby`. -/
def Room.hear (r : Room) (m : Msg) : Option Room :=
  (absorb r.players m).map fun t =>
    { r with players := t, gameStart := match m with | .boolean _ => true | _ => r.gameStart }

/-! ## The machine -/

inductive Key where
  | enter
  | x
  deriving DecidableEq, Repr

/-- A child server in its lobby and its clients. `told` lists, for each
connection, the connections that were announced to it. -/
structure Lobby where
  world : World Said
  rooms : Nat → Room
  told : Nat → List Nat

inductive LobbyAct where
  | connect
  | type (k : Nat) (text : Bytes)
  | read (k : Nat)
  | hear (k : Nat)
  | press (k : Nat) (pressed : Key)
  | leave (k : Nat)
  | accept (n : Slot)
  | request (n : Slot) (db : Db) (junk : Bytes)
  | closed (n : Slot) (db : Db) (junk : Bytes) (d : Said)

/-- The connections that the server announces to connection `k`. -/
def announced (sv : Server) (k : Nat) : List Nat :=
  sv.out.filterMap fun
    | .send _ con (.player p) => if con = k then cons sv.clients p.num else none
    | _ => none

def Lobby.client (L : Lobby) (a : LoginAct Said) : Option Lobby :=
  (loginStep lobbyCodec L.world a).map fun w => { L with world := w }

/-- The lobby ends with the start of the game. -/
def Lobby.server (L : Lobby) (a : LoginAct Said) : Option Lobby :=
  if L.world.round.server.startGame then none
  else
    (loginStep lobbyCodec L.world a).map fun w =>
      { L with world := w, told := fun k => L.told k ++ announced w.round.server k }

/-- `listenToPress` after ENTER or X: what is sent, and the client's own
entry. -/
def Lobby.toggle (L : Lobby) (k : Nat) (state : Bool) : Option Lobby :=
  (L.client (.send k (.boolean state))).map fun L' =>
    let r := L.rooms k
    { L' with rooms := Function.update L.rooms k { r with ready := state, players := changeReady r.myName state r.players } }

def lobbyStep (L : Lobby) : LobbyAct → Option Lobby
  | .connect => L.client .connect
  | .type k text =>
    -- `getInformation` keeps the name as its own.
    if (L.world.peers k).pc = .sendName then
      (L.client (.send k (.string text))).map fun L' =>
        { L' with rooms := Function.update L.rooms k { L.rooms k with myName := text } }
    else if (L.world.peers k).pc = .returned then none
    else L.client (.send k (.string text))
  | .read k => L.client (.read k)
  | .hear k =>
    match (L.world.peers k).toClient with
    | [] => none
    | x :: xs =>
      if (L.world.peers k).pc = .returned ∧ (L.rooms k).gameStart = false then
        ((L.rooms k).hear x.msg).map fun r =>
          { L with
            world := { L.world with peers := Function.update L.world.peers k { L.world.peers k with toClient := xs } }
            rooms := Function.update L.rooms k r }
      else none
  | .press k pressed =>
    if (L.world.peers k).pc = .returned ∧ (L.rooms k).gameStart = false then
      match pressed, (L.rooms k).ready with
      | .enter, false => L.toggle k true
      | .enter, true => some L
      | .x, true => L.toggle k false
      | .x, false => L.client (.leave k)
    else none
  | .leave k => L.client (.leave k)
  | .accept n => L.server (.accept n)
  | .request n db junk => L.server (.request n db junk)
  | .closed n db junk d => L.server (.closed n db junk d)

def Lobby.start : Lobby := ⟨World.start, fun _ => Room.new, fun _ => []⟩

def lobbyMachine : Machine Lobby LobbyAct := .ofFun Lobby.start lobbyStep

/-! ## The table of a client -/

theorem belongs_eq_some {players : Players} {name : Option Bytes} {i : Slot} (h : belongs players name = some i) :
    ∃ q, players i = some q ∧ q.name = name := by
  have hany := List.find?_some (p := fun i : Slot => (players i).any fun q : Player => decide (q.name = name)) h
  obtain ⟨q, hq, hn⟩ := (Option.any_eq_true _ _).1 hany
  exact ⟨q, hq, of_decide_eq_true hn⟩

theorem belongs_eq_none {players : Players} {name : Option Bytes} :
    belongs players name = none ↔ ∀ i q, players i = some q → q.name ≠ name := by
  unfold belongs
  rw [List.find?_eq_none]
  constructor
  · intro h i q hq hn
    exact h i (List.mem_finRange i) (by simp [hq, hn])
  · intro h i _ hi
    obtain ⟨q, hq, hn⟩ := (Option.any_eq_true _ _).1 hi
    exact h i q hq (of_decide_eq_true hn)

theorem belongs_of_unique {players : Players} {i : Slot} {q : Player} (hq : players i = some q)
    (hu : ∀ j q', players j = some q' → q'.name = q.name → j = i) : belongs players q.name = some i := by
  cases h : belongs players q.name with
  | none => exact absurd rfl (belongs_eq_none.1 h i q hq)
  | some j =>
    obtain ⟨q', hq', hn⟩ := belongs_eq_some h
    rw [hu j q' hq' hn]

theorem leavingIndex_spec (leaving : Int) (players : Players) (l : List Slot) (index : Option Slot) :
    let last := l.foldl
      (fun index i => if (players i).any fun q => (q.num.val : Int) = leaving then some i else index) index
    (last = index ∧ ∀ i ∈ l, ∀ q, players i = some q → (q.num.val : Int) ≠ leaving) ∨
      ∃ i q, last = some i ∧ players i = some q ∧ (q.num.val : Int) = leaving := by
  induction l generalizing index with
  | nil => exact .inl ⟨rfl, by simp⟩
  | cons i l ih =>
    rw [List.foldl_cons]
    by_cases hi : ((players i).any fun q => (q.num.val : Int) = leaving) = true
    · rw [if_pos hi]
      obtain ⟨q, hq, hn⟩ := (Option.any_eq_true _ _).1 hi
      rcases ih (some i) with ⟨hlast, -⟩ | h
      · exact .inr ⟨i, q, hlast, hq, of_decide_eq_true hn⟩
      · exact .inr h
    · rw [if_neg hi]
      rcases ih index with ⟨hlast, hl⟩ | h
      · refine .inl ⟨hlast, fun j hj q hq => ?_⟩
        rcases List.mem_cons.1 hj with rfl | hj
        · intro hn
          exact hi (by simp [hq, hn])
        · exact hl j hj q hq
      · exact .inr h

/-- Every player is stored under its number. -/
def Numbered (players : Players) : Prop := ∀ i q, players i = some q → q.num = i

/-- A leave notice for a slot of the table removes its entry. -/
theorem playerLeft_eq {players : Players} (hnum : Numbered players) {n : Slot} {q : Player} (hq : players n = some q) :
    playerLeft n.val players = some (Function.update players n none) := by
  unfold playerLeft leavingIndex
  rcases leavingIndex_spec n.val players (List.finRange maxPlayers) none with ⟨-, hno⟩ | ⟨i, q', hlast, hq', hn⟩
  · exact absurd (by rw [hnum n q hq]) (hno n (List.mem_finRange n) q hq)
  · rw [hlast]
    have hi : i = n := by
      rw [← hnum i q' hq']
      exact Fin.ext (by exact_mod_cast hn)
    rw [hi]
    rfl

/-- What a leave notice removes. -/
theorem playerLeft_eq_some {players t : Players} (hnum : Numbered players) {leaving : Int}
    (h : playerLeft leaving players = some t) :
    ∃ n q, leaving = n.val ∧ players n = some q ∧ q.num = n ∧ t = Function.update players n none := by
  obtain ⟨index, hindex, rfl⟩ := Option.map_eq_some_iff.1 h
  unfold leavingIndex at hindex
  rcases leavingIndex_spec leaving players (List.finRange maxPlayers) none with ⟨hlast, -⟩ | ⟨i, q, hlast, hq, hn⟩
  · rw [hindex] at hlast
    cases hlast
  · rw [hindex, Option.some.injEq] at hlast
    subst hlast
    have hi := hnum index q hq
    exact ⟨index, q, by rw [← hn, hi], hq, hi, rfl⟩

theorem Numbered.update {players : Players} (h : Numbered players) (i : Slot) {o : Option Player}
    (ho : ∀ q, o = some q → q.num = i) : Numbered (Function.update players i o) := by
  intro j q hq
  by_cases hj : j = i
  · subst hj
    rw [Function.update_self] at hq
    exact ho q hq
  · rw [Function.update_of_ne hj] at hq
    exact h j q hq

theorem Numbered.setReady {players : Players} (h : Numbered players) (i : Slot) (b : Bool) :
    Numbered (setReady players i b) := by
  apply h.update
  intro q hq
  obtain ⟨q₀, h₀, rfl⟩ := Option.map_eq_some_iff.1 hq
  exact h i q₀ h₀

theorem Numbered.absorb {players t : Players} (h : Numbered players) {m : Msg} (ht : absorb players m = some t) :
    Numbered t := by
  cases m with
  | player p =>
    rw [← Option.some.inj ht]
    unfold addPlayer
    cases belongs players p.name with
    | none => exact h.update p.num fun q hq => by rw [← Option.some.inj hq]
    | some i => exact h.setReady i p.ready
  | string s =>
    obtain ⟨n, -, -, -, -, rfl⟩ := playerLeft_eq_some h ht
    exact h.update n fun q hq => by cases hq
  | boolean | board => exact Option.some.inj ht ▸ h

theorem Numbered.changeReady {players : Players} (h : Numbered players) (myName : Bytes) (b : Bool) :
    Numbered (changeReady myName b players) := by
  unfold ChildServer.changeReady
  cases belongs players (some myName) with
  | none => exact h
  | some i => exact h.setReady i b

theorem strtol_slotText : ∀ n : Slot, strtol (slotText n) = n.val := by decide

theorem absorb_leave {players : Players} (n : Slot) : absorb players (.string (slotText n)) = playerLeft n.val players := by
  have hs : absorb players (.string (slotText n)) = playerLeft (strtol (slotText n)) players := rfl
  rw [hs, strtol_slotText]

/-! ## What a client will know -/

/-- The table of the client in slot `m` once it has read everything: entries
of connected clients with their names, and one for everybody who is past
LOGGING or was announced. If `strict` it has nobody who is LOGGING, and who is
ready in it is so at the server. -/
structure View (strict : Prop) (t : Table) (told : List Nat) (m : Slot) (players : Players) : Prop where
  num : Numbered players
  entry : ∀ i q, players i = some q → ∃ c name, t i = some c ∧ c.name = some name ∧ q.name = some name
  names : ∀ i j q q', players i = some q → players j = some q' → q.name = q'.name → i = j
  covers : ∀ i c, t i = some c → c.state ≠ .logging ∨ c.con ∈ told → ∃ q, players i = some q
  past : strict → ∀ i q c, players i = some q → t i = some c → c.state ≠ .logging
  ready : strict → ∀ i q c, i ≠ m → players i = some q → t i = some c → c.state ≠ .playing →
    (q.ready = true ↔ c.state = .readyPlay)

section View
variable {strict : Prop} {t : Table} {told : List Nat} {m : Slot} {players : Players}

/-- Clients past LOGGING have different names. -/
theorem View.apart (h : View strict t told m players) {i j : Slot} {ci cj : Client} (hi : t i = some ci) (hj : t j = some cj)
    (hsi : ci.state ≠ .logging) (hsj : cj.state ≠ .logging) (hne : i ≠ j) : ci.name ≠ cj.name := by
  intro he
  have hentry : ∀ {l : Slot} {c : Client}, t l = some c → c.state ≠ .logging → ∃ q, players l = some q ∧ q.name = c.name := by
    intro l c hl hs
    obtain ⟨q, hq⟩ := h.covers l c hl (.inl hs)
    obtain ⟨c', name, hc', hcn, hqn⟩ := h.entry l q hq
    rw [Option.some.inj (hl.symm.trans hc')]
    exact ⟨q, hq, hqn.trans hcn.symm⟩
  obtain ⟨q, hq, hqn⟩ := hentry hi hsi
  obtain ⟨q', hq', hqn'⟩ := hentry hj hsj
  exact hne (h.names i j q q' hq hq' (by rw [hqn, hqn', he]))

/-- A client that has just been accepted was announced to nobody. -/
theorem View.accept (h : View strict t told m players) {n : Slot} {con : Nat} (hn : t n = none) (hcon : con ∉ told) :
    View strict (Function.update t n (some (newClient con))) told m players := by
  have hne : ∀ i q, players i = some q → i ≠ n := by
    rintro i q hq rfl
    obtain ⟨c, -, hc, -⟩ := h.entry i q hq
    rw [hn] at hc
    cases hc
  refine ⟨h.num, fun i q hq => ?_, h.names, fun i c hc hs => ?_, fun hstrict i q c hq hc => ?_,
    fun hstrict i q c him hq hc => ?_⟩
  · rw [Function.update_of_ne (hne i q hq)]
    exact h.entry i q hq
  · by_cases hi : i = n
    · subst hi
      rw [Function.update_self, Option.some.injEq] at hc
      subst hc
      rcases hs with hs | hs
      · exact absurd rfl hs
      · exact absurd hs hcon
    · rw [Function.update_of_ne hi] at hc
      exact h.covers i c hc hs
  · rw [Function.update_of_ne (hne i q hq)] at hc
    exact h.past hstrict i q c hq hc
  · rw [Function.update_of_ne (hne i q hq)] at hc
    exact h.ready hstrict i q c him hq hc

/-- The entry of a slot goes with its client. -/
theorem View.leave (h : View strict t told m players) (n : Slot) :
    View strict (Function.update t n none) told m (Function.update players n none) := by
  have hp : ∀ i q, Function.update players n none i = some q → i ≠ n ∧ players i = some q := by
    intro i q hq
    by_cases hi : i = n
    · subst hi
      rw [Function.update_self] at hq
      cases hq
    · exact ⟨hi, by rwa [Function.update_of_ne hi] at hq⟩
  have ht : ∀ i c, Function.update t n none i = some c → i ≠ n ∧ t i = some c := by
    intro i c hc
    by_cases hi : i = n
    · subst hi
      rw [Function.update_self] at hc
      cases hc
    · exact ⟨hi, by rwa [Function.update_of_ne hi] at hc⟩
  refine ⟨fun i q hq => h.num i q (hp i q hq).2, fun i q hq => ?_, fun i j q q' hq hq' => ?_, fun i c hc hs => ?_,
    fun hstrict i q c hq hc => ?_, fun hstrict i q c him hq hc => ?_⟩
  · obtain ⟨hi, hq⟩ := hp i q hq
    rw [Function.update_of_ne hi]
    exact h.entry i q hq
  · exact h.names i j q q' (hp i q hq).2 (hp j q' hq').2
  · obtain ⟨hi, hc⟩ := ht i c hc
    rw [Function.update_of_ne hi]
    exact h.covers i c hc hs
  · exact h.past hstrict i q c (hp i q hq).2 (ht i c hc).2
  · exact h.ready hstrict i q c him (hp i q hq).2 (ht i c hc).2

/-- The notice about the client in slot `n` sets its entry and no other. -/
theorem View.addPlayer_eq (h : View strict t told m players) {n : Slot} {c : Client} {name : Bytes} (hc : t n = some c)
    (hname : c.name = some name) (hother : players n = none → ∀ i ci, i ≠ n → t i = some ci → ci.name ≠ some name)
    (p : Player) (hp : p.name = some name) (hnum : p.num = n) :
    ∃ q, addPlayer p players = Function.update players n (some q) ∧ q.name = some name ∧ q.num = n ∧ q.ready = p.ready := by
  unfold addPlayer
  cases hn : players n with
  | none =>
    have hb : belongs players p.name = none := by
      rw [belongs_eq_none, hp]
      intro i q hq hqn
      obtain ⟨ci, name', hci, hcn, hqn'⟩ := h.entry i q hq
      have hi : i ≠ n := by
        rintro rfl
        rw [hn] at hq
        cases hq
      apply hother hn i ci hi hci
      rw [hcn, ← hqn', hqn]
    rw [hb]
    exact ⟨p, by rw [hnum], hp, hnum, rfl⟩
  | some q =>
    obtain ⟨c', name', hc', hcn, hqn⟩ := h.entry n q hn
    have hq : q.name = some name := by
      rw [hqn, ← hcn, ← hname, Option.some.inj (hc'.symm.trans hc)]
    have hb : belongs players p.name = some n := by
      rw [hp, ← hq]
      exact belongs_of_unique hn fun j q' hq' he => h.names j n q' q hq' hn he
    rw [hb]
    exact ⟨{ q with ready := p.ready }, by simp [setReady, hn], hq, h.num n q hn, rfl⟩

/-- It announces that client. -/
theorem View.notice (h : View strict t told m players) {n : Slot} {c c' : Client} {name : Bytes} (hc : t n = some c)
    (hname : c.name = some name) (hname' : c'.name = some name)
    (hother : players n = none → ∀ i ci, i ≠ n → t i = some ci → ci.name ≠ some name)
    (hcon : ∀ i ci, t i = some ci → ci.con = c'.con → i = n) (hpast : strict → c'.state ≠ .logging) :
    View strict (Function.update t n (some c')) (told ++ [c'.con]) m (addPlayer (createPlayerStruct c' n) players) := by
  obtain ⟨q₀, he, hqn, hqnum, hqr⟩ := h.addPlayer_eq hc hname hother (createPlayerStruct c' n) hname' rfl
  rw [he]
  have hp : ∀ i q, Function.update players n (some q₀) i = some q →
      i = n ∧ q = q₀ ∨ i ≠ n ∧ players i = some q := by
    intro i q hq
    by_cases hi : i = n
    · subst hi
      rw [Function.update_self, Option.some.injEq] at hq
      exact .inl ⟨rfl, hq.symm⟩
    · exact .inr ⟨hi, by rwa [Function.update_of_ne hi] at hq⟩
  -- No other entry has the name.
  have hfree : ∀ i q, i ≠ n → players i = some q → q.name ≠ some name := by
    intro i q hi hq hqn'
    obtain ⟨ci, name', hci, hcn, hqn''⟩ := h.entry i q hq
    cases hn : players n with
    | none => exact hother hn i ci hi hci (by rw [hcn, ← hqn'', hqn'])
    | some q' =>
      obtain ⟨c₁, name₁, hc₁, hcn₁, hqn₁⟩ := h.entry n q' hn
      apply hi
      apply h.names i n q q' hq hn
      rw [hqn', hqn₁, ← hcn₁, Option.some.inj (hc₁.symm.trans hc), hname]
  refine ⟨fun i q hq => ?_, fun i q hq => ?_, fun i j q q' hq hq' hqq => ?_, fun i ci hci hs => ?_,
    fun hstrict i q ci hq hci => ?_, fun hstrict i q ci him hq hci hplay => ?_⟩
  · rcases hp i q hq with ⟨rfl, rfl⟩ | ⟨-, hq⟩
    · exact hqnum
    · exact h.num i q hq
  · rcases hp i q hq with ⟨rfl, rfl⟩ | ⟨hi, hq⟩
    · exact ⟨c', name, Function.update_self .., hname', hqn⟩
    · rw [Function.update_of_ne hi]
      exact h.entry i q hq
  · rcases hp i q hq with ⟨hi, hqi⟩ | ⟨hi, hqi⟩ <;> rcases hp j q' hq' with ⟨hj, hqj⟩ | ⟨hj, hqj⟩
    · exact hi.trans hj.symm
    · exact absurd (by rw [← hqq, hqi, hqn]) (hfree j q' hj hqj)
    · exact absurd (by rw [hqq, hqj, hqn]) (hfree i q hi hqi)
    · exact h.names i j q q' hqi hqj hqq
  · by_cases hi : i = n
    · subst hi
      exact ⟨q₀, Function.update_self ..⟩
    · rw [Function.update_of_ne hi] at hci ⊢
      apply h.covers i ci hci
      rcases hs with hs | hs
      · exact .inl hs
      · rcases List.mem_append.1 hs with hs | hs
        · exact .inr hs
        · exact absurd (hcon i ci hci (List.mem_singleton.1 hs)) hi
  · rcases hp i q hq with ⟨rfl, rfl⟩ | ⟨hi, hq⟩
    · rw [Function.update_self, Option.some.injEq] at hci
      exact hci ▸ hpast hstrict
    · rw [Function.update_of_ne hi] at hci
      exact h.past hstrict i q ci hq hci
  · rcases hp i q hq with ⟨rfl, rfl⟩ | ⟨hi, hq⟩
    · rw [Function.update_self, Option.some.injEq] at hci
      rw [hqr, ← hci]
      simp [createPlayerStruct]
    · rw [Function.update_of_ne hi] at hci
      exact h.ready hstrict i q ci him hq hci hplay

/-- A toggle of the client itself, or of nobody. -/
theorem View.own (h : View strict t told m players) {c c' : Client} (hc : t m = some c) (hname : c'.name = c.name)
    (hs : c'.state ≠ .logging) (hs' : c.state ≠ .logging) :
    View strict (Function.update t m (some c')) told m players where
  num := h.num
  names := h.names
  entry i q hq := by
    obtain ⟨ci, name, hci, hcn, hqn⟩ := h.entry i q hq
    by_cases hi : i = m
    · subst hi
      exact ⟨c', name, Function.update_self .., by rw [hname, ← hcn, Option.some.inj (hci.symm.trans hc)], hqn⟩
    · exact ⟨ci, name, by rwa [Function.update_of_ne hi], hcn, hqn⟩
  covers i ci hci hst := by
    by_cases hi : i = m
    · exact hi ▸ h.covers m c hc (.inl hs')
    · rw [Function.update_of_ne hi] at hci
      exact h.covers i ci hci hst
  past hstrict i q ci hq hci := by
    by_cases hi : i = m
    · subst hi
      rw [Function.update_self, Option.some.injEq] at hci
      exact hci ▸ hs
    · rw [Function.update_of_ne hi] at hci
      exact h.past hstrict i q ci hq hci
  ready hstrict i q ci hi hq hci := by
    rw [Function.update_of_ne hi] at hci
    exact h.ready hstrict i q ci hi hq hci

/-- The start moves everybody to PLAYING. -/
theorem View.start (h : View strict t told m players) (hs : ∀ i c, t i = some c → c.state ≠ .logging) :
    View strict (fun i => (t i).map Client.start) told m players where
  num := h.num
  names := h.names
  entry i q hq := by
    obtain ⟨c, name, hc, hcn, hqn⟩ := h.entry i q hq
    exact ⟨c.start, name, by rw [hc]; rfl, hcn, hqn⟩
  covers i c hc _ := by
    obtain ⟨c₀, h₀, -⟩ := Option.map_eq_some_iff.1 hc
    exact h.covers i c₀ h₀ (.inl (hs i c₀ h₀))
  past _ i q c _ hc := by
    obtain ⟨c₀, -, rfl⟩ := Option.map_eq_some_iff.1 hc
    simp [Client.start]
  ready _ i q c _ _ hc hplay := by
    obtain ⟨c₀, -, rfl⟩ := Option.map_eq_some_iff.1 hc
    exact absurd rfl hplay

/-- A client chooses its name. It has had no entry. -/
theorem View.named (h : View strict t told m players) {n : Slot} {c c' : Client} (hc : t n = some c)
    (hname : c.name = none) (hcon : c'.con = c.con) (hs : c'.state = c.state) :
    View strict (Function.update t n (some c')) told m players := by
  have hne : ∀ i q, players i = some q → i ≠ n := by
    rintro i q hq rfl
    obtain ⟨c₀, name, hc₀, hn, -⟩ := h.entry i q hq
    rw [Option.some.inj (hc₀.symm.trans hc), hname] at hn
    cases hn
  refine ⟨h.num, fun i q hq => ?_, h.names, fun i ci hci hst => ?_, fun hstrict i q ci hq hci => ?_,
    fun hstrict i q ci him hq hci => ?_⟩
  · rw [Function.update_of_ne (hne i q hq)]
    exact h.entry i q hq
  · by_cases hi : i = n
    · subst hi
      rw [Function.update_self, Option.some.injEq] at hci
      subst hci
      exact h.covers i c hc (by rwa [hcon, hs] at hst)
    · rw [Function.update_of_ne hi] at hci
      exact h.covers i ci hci hst
  · rw [Function.update_of_ne (hne i q hq)] at hci
    exact h.past hstrict i q ci hq hci
  · rw [Function.update_of_ne (hne i q hq)] at hci
    exact h.ready hstrict i q ci him hq hci

end View

/-! ## Ready flags -/

/-- An entry without its ready flag. -/
def Player.unready (q : Player) : Player := { q with ready := false }

/-- The tables are the same but for the ready flags of the slots in `S`. -/
def Alike (S : Set Slot) (players players' : Players) : Prop :=
  ∀ i, (players i).map Player.unready = (players' i).map Player.unready ∧ (i ∉ S → players i = players' i)

section Alike
variable {S : Set Slot} {players players' : Players}

theorem Alike.entry (h : Alike S players players') {i : Slot} {q' : Player} (hq' : players' i = some q') :
    ∃ q, players i = some q ∧ q.name = q'.name ∧ q.num = q'.num := by
  have hi := (h i).1
  rw [hq', Option.map_some] at hi
  obtain ⟨q, hq, he⟩ := Option.map_eq_some_iff.1 hi
  have hname : q.unready.name = q'.unready.name := by rw [he]
  have hnum : q.unready.num = q'.unready.num := by rw [he]
  exact ⟨q, hq, hname, hnum⟩

theorem Alike.symm (h : Alike S players players') : Alike S players' players :=
  fun i => ⟨(h i).1.symm, fun hi => ((h i).2 hi).symm⟩

/-- A test that does not look at the flag. -/
theorem Alike.any (h : Alike S players players') (f : Player → Bool) (hf : ∀ q, f q.unready = f q) (i : Slot) :
    (players i).any f = (players' i).any f := by
  have hany : ∀ o : Option Player, (o.map Player.unready).any f = o.any f := by
    intro o
    cases o with
    | none => rfl
    | some q => exact hf q
  rw [← hany (players i), (h i).1, hany]

theorem Alike.belongs (h : Alike S players players') (name : Option Bytes) :
    ChildServer.belongs players name = ChildServer.belongs players' name := by
  unfold ChildServer.belongs
  congr 1
  funext i
  exact h.any _ (fun _ => rfl) i

theorem Alike.leavingIndex (h : Alike S players players') (leaving : Int) :
    ChildServer.leavingIndex leaving players = ChildServer.leavingIndex leaving players' := by
  unfold ChildServer.leavingIndex
  congr 1
  funext index i
  rw [h.any (fun q => (q.num.val : Int) = leaving) (fun _ => rfl) i]

theorem Alike.update (h : Alike S players players') (i : Slot) (o : Option Player) :
    Alike S (Function.update players i o) (Function.update players' i o) := by
  intro j
  by_cases hj : j = i
  · subst hj
    simp
  · simpa only [Function.update_of_ne hj] using h j

theorem Alike.setReady (h : Alike S players players') (i : Slot) (b : Bool) :
    Alike S (ChildServer.setReady players i b) (ChildServer.setReady players' i b) := by
  have hsame : (players i).map (fun q => { q with ready := b }) = (players' i).map fun q => { q with ready := b } := by
    have hmap : ∀ o : Option Player,
        (o.map Player.unready).map (fun q => { q with ready := b }) = o.map fun q => { q with ready := b } := by
      intro o
      cases o <;> rfl
    rw [← hmap (players i), (h i).1, hmap]
  unfold ChildServer.setReady
  rw [hsame]
  exact h.update i _

/-- Messages are absorbed alike. -/
theorem Alike.absorb (h : Alike S players players') (m : Msg) {t : Players} (ht : ChildServer.absorb players m = some t) :
    ∃ t', ChildServer.absorb players' m = some t' ∧ Alike S t t' := by
  cases m with
  | player p =>
    refine ⟨_, rfl, ?_⟩
    rw [← Option.some.inj ht]
    unfold addPlayer
    rw [h.belongs]
    cases ChildServer.belongs players' p.name with
    | none => exact h.update _ _
    | some i => exact h.setReady _ _
  | string s =>
    obtain ⟨i, hi, rfl⟩ := Option.map_eq_some_iff.1 ht
    rw [h.leavingIndex] at hi
    exact ⟨_, Option.map_eq_some_iff.2 ⟨i, hi, rfl⟩, h.update _ _⟩
  | boolean b =>
    rw [← Option.some.inj ht]
    exact ⟨_, rfl, h⟩
  | board gB =>
    rw [← Option.some.inj ht]
    exact ⟨_, rfl, h⟩

theorem alike_setReady (players : Players) (i : Slot) (b : Bool) : Alike {i} players (setReady players i b) := by
  intro j
  unfold setReady
  by_cases hj : j = i
  · subst hj
    rw [Function.update_self, Option.map_map]
    exact ⟨rfl, fun h => absurd rfl h⟩
  · rw [Function.update_of_ne hj]
    exact ⟨rfl, fun _ => rfl⟩

/-- The flags of other clients count only for `strict`. -/
theorem View.alike {strict : Prop} {t : Table} {told : List Nat} {m : Slot} (h : View strict t told m players)
    (ha : Alike S players players') (hS : strict → S ⊆ {m}) : View strict t told m players' where
  num i q' hq' := by
    obtain ⟨q, hq, -, hn⟩ := ha.entry hq'
    exact hn ▸ h.num i q hq
  entry i q' hq' := by
    obtain ⟨q, hq, hn, -⟩ := ha.entry hq'
    exact hn ▸ h.entry i q hq
  names i j q' r' hq' hr' he := by
    obtain ⟨q, hq, hn, -⟩ := ha.entry hq'
    obtain ⟨r, hr, hn', -⟩ := ha.entry hr'
    exact h.names i j q r hq hr (by rw [hn, hn', he])
  covers i c hc hs := by
    obtain ⟨q, hq⟩ := h.covers i c hc hs
    obtain ⟨q', hq', -, -⟩ := ha.symm.entry hq
    exact ⟨q', hq'⟩
  past hstrict i q' c hq' hc := by
    obtain ⟨q, hq, -, -⟩ := ha.entry hq'
    exact h.past hstrict i q c hq hc
  ready hstrict i q' c hi hq' hc hplay := by
    have hsame := (ha i).2 fun hS' => hi (hS hstrict hS')
    exact h.ready hstrict i q' c hi (hsame.trans hq') hc hplay

end Alike

/-! ## All that is under way -/

def absorbAll (players : Players) (q : List Packet) : Option Players := q.foldlM (fun t x => absorb t x.msg) players

@[simp] theorem absorbAll_nil (players : Players) : absorbAll players [] = some players := rfl

@[simp] theorem absorbAll_cons (players : Players) (x : Packet) (q : List Packet) :
    absorbAll players (x :: q) = (absorb players x.msg).bind fun t => absorbAll t q := rfl

theorem absorbAll_append (players : Players) (q q' : List Packet) :
    absorbAll players (q ++ q') = (absorbAll players q).bind fun t => absorbAll t q' := by
  unfold absorbAll
  rw [List.foldlM_append]
  rfl

theorem Alike.absorbAll {S : Set Slot} {players players' : Players} (h : Alike S players players') (q : List Packet)
    {t : Players} (ht : ChildServer.absorbAll players q = some t) :
    ∃ t', ChildServer.absorbAll players' q = some t' ∧ Alike S t t' := by
  induction q generalizing players players' with
  | nil =>
    rw [absorbAll_nil, Option.some.injEq] at ht
    exact ⟨players', rfl, ht ▸ h⟩
  | cons x q ih =>
    rw [absorbAll_cons] at ht
    obtain ⟨u, hu, ht⟩ := Option.bind_eq_some_iff.1 ht
    obtain ⟨u', hu', ha⟩ := h.absorb x.msg hu
    obtain ⟨t', ht', ha'⟩ := ih ha ht
    exact ⟨t', by rw [absorbAll_cons, hu', Option.bind_some, ht'], ha'⟩

end Snuffin.ChildServer
