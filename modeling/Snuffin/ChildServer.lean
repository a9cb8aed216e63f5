import Snuffin.Game
/-!
# The lobby server (childServer.c)

The client table, and what one request, one departure, one lost snake and one
accepted connection do to it. What a function sends, asks the database and
frees is listed in `out`, oldest first. Memory that the code reads before it
is set is an `Option`, empty until then.
-/
open Snuffin.Game

namespace Snuffin.ChildServer

inductive State where
  | logging
  | waiting
  | readyPlay
  | playing
  | loose
  deriving DecidableEq, Repr

inductive Expecting where
  | user
  | newPassword
  | password
  | movement
  | readyToPlay
  deriving DecidableEq, Repr

/-- `Client`; a connection is known by its number. -/
structure Client where
  name : Option Bytes
  state : State
  expecting : Expecting
  score : Option Int
  con : Nat
  deriving DecidableEq, Repr

/-- `clients`, with `none` for NULL. -/
abbrev Table := Slot → Option Client

structure Player where
  name : Option Bytes
  num : Slot
  score : Option Int
  ready : Bool
  deriving DecidableEq, Repr

/-- What the server marshals and sends. -/
inductive Msg where
  | string (s : Bytes)
  | boolean (value : Bool)
  | player (p : Player)
  | board (gB : Cell → UInt8)

/-- The place a message is sent from: the answer to a login message, the
notices of `notifyNewPlayer` and `notifyExistingPlayers`, the leave notice of
`disconnect`, `sendGameStart`, `sendBoard` and the result at the end. -/
inductive Why where
  | reply
  | notice
  | leave
  | start
  | board
  | result
  deriving DecidableEq, Repr

/-- What a function does besides changing the table. A database call comes
with its answer. -/
inductive Effect where
  | send (why : Why) (con : Nat) (m : Msg)
  | existUser (name : Bytes) (answer : Int)
  | getHighScore (name : Bytes) (answer : Int)
  | validPassword (name : Option Bytes) (password : Bytes) (answer : Int)
  | createUser (name : Option Bytes) (password : Bytes) (answer : Int)
  | setHighscore (name : Option Bytes) (score : Option Int)
  | updateMovementDirection (n : Slot) (p : Point)
  | freeName (name : Option Bytes)

structure Server where
  clients : Table
  startGame : Bool
  gameBoard : Option GameBoard
  out : List Effect

/-- The decoders that `resolveRequest` uses, on messages of type `M`. `none`
is the return value 0, which leaves the destination as it was. -/
structure Codec (M : Type) where
  unmarshString : M → Option Bytes
  unmarshBoolean : M → Option Bool
  unmarshPoint : M → Option Point

/-- The answers the database gives while one request is resolved. -/
structure Db where
  existUser : Bytes → Int
  getHighScore : Bytes → Int
  validPassword : Option Bytes → Bytes → Int
  createUser : Option Bytes → Bytes → Int

namespace Server

def emit (s : Server) (es : List Effect) : Server := { s with out := s.out ++ es }

def setClient (s : Server) (n : Slot) (c : Client) : Server :=
  { s with clients := Function.update s.clients n (some c) }

end Server

/-- The messages a loop over the table sends: `f i c` for each client `c`. -/
def forClients (t : Table) (f : Slot → Client → Option Effect) : List Effect :=
  (List.finRange maxPlayers).filterMap fun i => (t i).bind (f i)

/-- `CreatePlayerStruct`. -/
def createPlayerStruct (c : Client) (number : Slot) : Player :=
  ⟨c.name, number, c.score, c.state = .readyPlay⟩

/-- `clients[i] != c` compares pointers, and `c` is `clients[nPlayer]`. -/
def newPlayerNotices (t : Table) (nPlayer : Slot) (c : Client) : List Effect :=
  forClients t fun i ci =>
    if ci.state ≠ .logging ∧ i ≠ nPlayer then
      some (.send .notice ci.con (.player (createPlayerStruct c nPlayer)))
    else none

def notifyNewPlayer (nPlayer : Slot) (c : Client) (s : Server) : Server :=
  s.emit (newPlayerNotices s.clients nPlayer c)

def existingPlayersNotices (t : Table) (c : Client) : List Effect :=
  forClients t fun i ci => some (.send .notice c.con (.player (createPlayerStruct ci i)))

def notifyExistingPlayers (c : Client) (s : Server) : Server :=
  s.emit (existingPlayersNotices s.clients c)

/-- `sprintf(aux, "%d", nClient)` for a slot number. -/
def slotText (n : Slot) : Bytes := [48 + UInt8.ofNat n.val]

def leaveNotices (t : Table) (nClient : Slot) : List Effect :=
  forClients t fun i ci =>
    if i ≠ nClient then some (.send .leave ci.con (.string (slotText nClient))) else none

def disconnect (nClient : Slot) (c : Client) (s : Server) : Server :=
  let s := s.emit (leaveNotices s.clients nClient ++ [.freeName c.name])
  { s with clients := Function.update s.clients nClient none }

/-- The client `sendGameStart` makes of a client. -/
def Client.start (c : Client) : Client := { c with state := .playing, expecting := .movement }

def startNotices (t : Table) : List Effect :=
  forClients t fun _ ci => some (.send .start ci.con (.boolean true))

def sendGameStart (s : Server) : Server :=
  let s := s.emit (startNotices s.clients)
  { s with clients := fun i => (s.clients i).map Client.start }

/-- The slots that hold a client. -/
def occupied (t : Table) : List Slot := (List.finRange maxPlayers).filter fun i => (t i).isSome

/-- The counts of `checkGameStart`: at least two clients, all READY_PLAY. -/
def allReady (t : Table) : Bool :=
  ((occupied t).all fun i => (t i).any fun c => c.state = .readyPlay) && 1 < (occupied t).length

def checkGameStart (s : Server) : Server :=
  if allReady s.clients then sendGameStart { s with startGame := true } else s

def validateUser {M : Type} (cd : Codec M) (db : Db) (d : M) (nClient : Slot) (c : Client) (s : Server) : Server :=
  match cd.unmarshString d with
  | none => s
  | some name =>
    let e := db.existUser name
    let s := s.emit [.existUser name e]
    if e ≠ 0 then
      let score := db.getHighScore name
      let s := s.emit [.getHighScore name score]
      let s := s.emit [.send .reply c.con (.boolean true)]
      s.setClient nClient { c with expecting := .password, score := some score, name := some name }
    else
      let s := s.emit [.send .reply c.con (.boolean false)]
      s.setClient nClient { c with expecting := .newPassword, score := some 0, name := some name }

/-- The client `validatePassword` and the registration make of a client. -/
def Client.toLobby (c : Client) : Client := { c with expecting := .readyToPlay, state := .waiting }

/-- The result of `unmarshString` is not looked at: when it is 0 the password
is what the fresh buffer happened to hold, `junk`. -/
def validatePassword {M : Type} (cd : Codec M) (db : Db) (junk : Bytes) (d : M) (nClient : Slot) (c : Client)
    (s : Server) : Bool × Server :=
  let password := (cd.unmarshString d).getD junk
  let ans := db.validPassword c.name password
  let s := s.emit [.validPassword c.name password ans]
  if ans ≠ 0 then
    (true, (s.setClient nClient c.toLobby).emit [.send .reply c.con (.boolean true)])
  else (false, s.emit [.send .reply c.con (.boolean false)])

/-- The NEWPASSWORD branch of `resolveRequest`: the two notices are sent
whatever the database answers. -/
def newPassword {M : Type} (cd : Codec M) (db : Db) (d : M) (nClient : Slot) (c : Client) (s : Server) : Server :=
  match cd.unmarshString d with
  | none => s
  | some password =>
    let ans := db.createUser c.name password
    let s := s.emit [.createUser c.name password ans]
    if ans = 0 then
      let s := (s.setClient nClient c.toLobby).emit [.send .reply c.con (.boolean true)]
      notifyExistingPlayers c.toLobby (notifyNewPlayer nClient c.toLobby s)
    else
      let s := s.emit [.send .reply c.con (.boolean false)]
      notifyExistingPlayers c (notifyNewPlayer nClient c s)

/-- The READY_TO_PLAY branch of `resolveRequest`. -/
def readyToPlay {M : Type} (cd : Codec M) (d : M) (nClient : Slot) (c : Client) (s : Server) : Server :=
  match cd.unmarshBoolean d with
  | none => s
  | some true =>
    let c := { c with state := .readyPlay }
    checkGameStart (notifyNewPlayer nClient c (s.setClient nClient c))
  | some false =>
    let c := { c with state := .waiting }
    notifyNewPlayer nClient c (s.setClient nClient c)

/-- The MOVEMENT branch of `resolveRequest`. The call is listed, so that a
call before `gameBoard` is set shows. -/
def movement {M : Type} (cd : Codec M) (d : M) (nClient : Slot) (s : Server) : Server :=
  match cd.unmarshPoint d with
  | none => s
  | some p =>
    { s.emit [.updateMovementDirection nClient p] with
      gameBoard := s.gameBoard.map (updateMovementDirection nClient p) }

/-- `resolveRequest(nClient)` when `readData` returned `res` and the message
`d`. It dereferences `clients[nClient]`, so it is `none` on an empty slot. -/
def resolveRequest {M : Type} (cd : Codec M) (db : Db) (junk : Bytes) (res : Bool) (d : M) (nClient : Slot)
    (s : Server) : Option Server :=
  match s.clients nClient with
  | none => none
  | some c =>
    if res = false then some (disconnect nClient c s)
    else
      match c.expecting with
      | .user => some (validateUser cd db d nClient c s)
      | .password =>
        match validatePassword cd db junk d nClient c s with
        | (true, s) => some (notifyExistingPlayers c.toLobby (notifyNewPlayer nClient c.toLobby s))
        | (false, s) => some s
      | .newPassword => some (newPassword cd db d nClient c s)
      | .readyToPlay => some (readyToPlay cd d nClient c s)
      | .movement => some (movement cd d nClient s)

/-- `playerLost` dereferences `clients[nPlayer]` too. -/
def playerLost (nPlayer : Slot) (s : Server) : Option Server :=
  (s.clients nPlayer).map fun c => s.setClient nPlayer { c with state := .loose }

/-- The client `listenNewClients` makes for connection `con`. -/
def newClient (con : Nat) : Client := ⟨none, .logging, .user, none, con⟩

/-! ## What each function leaves alone -/

@[simp] theorem emit_clients (s : Server) (es : List Effect) : (s.emit es).clients = s.clients := rfl
@[simp] theorem emit_startGame (s : Server) (es : List Effect) : (s.emit es).startGame = s.startGame := rfl
@[simp] theorem emit_gameBoard (s : Server) (es : List Effect) : (s.emit es).gameBoard = s.gameBoard := rfl
@[simp] theorem emit_out (s : Server) (es : List Effect) : (s.emit es).out = s.out ++ es := rfl

@[simp] theorem setClient_clients (s : Server) (n : Slot) (c : Client) :
    (s.setClient n c).clients = Function.update s.clients n (some c) := rfl
@[simp] theorem setClient_startGame (s : Server) (n : Slot) (c : Client) :
    (s.setClient n c).startGame = s.startGame := rfl
@[simp] theorem setClient_gameBoard (s : Server) (n : Slot) (c : Client) :
    (s.setClient n c).gameBoard = s.gameBoard := rfl
@[simp] theorem setClient_out (s : Server) (n : Slot) (c : Client) : (s.setClient n c).out = s.out := rfl

/-! ## The branches of resolveRequest -/

section Branches
variable {M : Type} {cd : Codec M} {db : Db} {junk : Bytes} {d : M} {n : Slot} {s : Server} {c : Client}

theorem client_of_resolve {res : Bool} {s' : Server} (h : resolveRequest cd db junk res d n s = some s') :
    ∃ c, s.clients n = some c := by
  cases hc : s.clients n with
  | none =>
    rw [resolveRequest, hc] at h
    cases h
  | some c => exact ⟨c, rfl⟩

theorem resolve_left (hc : s.clients n = some c) :
    resolveRequest cd db junk false d n s = some (disconnect n c s) := by
  rw [resolveRequest, hc]
  rfl

theorem resolve_user (hc : s.clients n = some c) (he : c.expecting = .user) :
    resolveRequest cd db junk true d n s = some (validateUser cd db d n c s) := by
  unfold resolveRequest
  rw [hc]
  dsimp only
  rw [he]
  rfl

theorem resolve_newPassword (hc : s.clients n = some c) (he : c.expecting = .newPassword) :
    resolveRequest cd db junk true d n s = some (newPassword cd db d n c s) := by
  unfold resolveRequest
  rw [hc]
  dsimp only
  rw [he]
  rfl

theorem resolve_ready (hc : s.clients n = some c) (he : c.expecting = .readyToPlay) :
    resolveRequest cd db junk true d n s = some (readyToPlay cd d n c s) := by
  unfold resolveRequest
  rw [hc]
  dsimp only
  rw [he]
  rfl

theorem resolve_movement (hc : s.clients n = some c) (he : c.expecting = .movement) :
    resolveRequest cd db junk true d n s = some (movement cd d n s) := by
  unfold resolveRequest
  rw [hc]
  dsimp only
  rw [he]
  rfl

/-- A password that the database accepts. -/
theorem resolve_accepted (hc : s.clients n = some c) (he : c.expecting = .password) {p : Bytes}
    (hp : (cd.unmarshString d).getD junk = p) (ha : db.validPassword c.name p ≠ 0) :
    resolveRequest cd db junk true d n s = some (notifyExistingPlayers c.toLobby (notifyNewPlayer n c.toLobby
      (((s.emit [.validPassword c.name p (db.validPassword c.name p)]).setClient n c.toLobby).emit
        [.send .reply c.con (.boolean true)]))) := by
  unfold resolveRequest validatePassword
  rw [hc]
  dsimp only
  rw [he, if_neg (by simp)]
  dsimp only
  rw [hp, if_pos ha]

theorem resolve_refused (hc : s.clients n = some c) (he : c.expecting = .password) {p : Bytes}
    (hp : (cd.unmarshString d).getD junk = p) (ha : ¬db.validPassword c.name p ≠ 0) :
    resolveRequest cd db junk true d n s =
      some ((s.emit [.validPassword c.name p (db.validPassword c.name p)]).emit [.send .reply c.con (.boolean false)]) := by
  unfold resolveRequest validatePassword
  rw [hc]
  dsimp only
  rw [he, if_neg (by simp)]
  dsimp only
  rw [hp, if_neg ha]

end Branches

/-! ## Tables -/

theorem mem_forClients {t : Table} {f : Slot → Client → Option Effect} {e : Effect} :
    e ∈ forClients t f ↔ ∃ i c, t i = some c ∧ f i c = some e := by
  simp [forClients, Option.bind_eq_some_iff]

theorem mem_occupied {t : Table} {i : Slot} : i ∈ occupied t ↔ ∃ c, t i = some c := by
  simp [occupied, Option.isSome_iff_exists]

theorem allReady_iff {t : Table} :
    allReady t = true ↔ (∀ i c, t i = some c → c.state = .readyPlay) ∧ 2 ≤ (occupied t).length := by
  simp only [allReady, Bool.and_eq_true, List.all_eq_true, mem_occupied, decide_eq_true_eq, Nat.lt_iff_add_one_le]
  refine and_congr_left fun _ => ⟨fun h i c hc => ?_, fun h i ⟨c, hc⟩ => ?_⟩
  · simpa [hc] using h i ⟨c, hc⟩
  · simpa [hc] using h i c hc

end Snuffin.ChildServer
