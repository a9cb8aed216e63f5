import Snuffin.Rounds
/-!
# The login from both sides (getInformation)

A client sends its name and its passwords and takes the next message it reads
for the answer to the last of them. The child server answers each of them with
one BOOLEAN, but also writes to every slot when somebody leaves, in every tick
and at the end of a game. `Exchange` is the state of one login: which of the
two sides moves next, and what is under way between them.
-/
open Lib Snuffin.Game

namespace Snuffin.ChildServer

/-! ## The client -/

/-- Where a client is in `getInformation`: at one of its three `sendData` or
three `readData` calls, before or after them. `gone` is a closed connection. -/
inductive Pc where
  | absent
  | sendName
  | readBelongs
  | sendPassword
  | readBelongs2
  | sendAgain
  | readWPass
  | returned
  | gone
  deriving DecidableEq, Repr

/-- Where `sendData` leads. After `getInformation` a client sends as it likes. -/
def Pc.send : Pc → Option Pc
  | .sendName => some .readBelongs
  | .sendPassword => some .readBelongs2
  | .sendAgain => some .readWPass
  | .returned => some .returned
  | _ => none

/-- Where `readData` leads, with the value `unmarshBoolean` leaves behind.
`belongs` only decides which text is printed. -/
def Pc.read (value : Bool) : Pc → Option Pc
  | .readBelongs => some .sendPassword
  | .readBelongs2 => some (if value then .returned else .sendAgain)
  | .readWPass => some (if value then .returned else .sendAgain)
  | _ => none

/-- `unmarshBoolean` on a variable that holds 0. -/
def unmarshBoolean : Msg → Bool
  | .boolean b => b
  | _ => false

/-- A message on its way to a client: why it was sent, and how many messages
of the client the server had taken when it sent it. -/
structure Packet where
  why : Why
  taken : Nat
  msg : Msg

/-- A client and its connection. -/
structure Peer (M : Type) where
  pc : Pc
  toServer : List M
  toClient : List Packet
  sent : Nat
  taken : Nat

/-- A message that a client read in `getInformation` after it had sent `sent`
messages. -/
structure Read where
  con : Nat
  sent : Nat
  packet : Packet

/-- A child server and its clients, numbered in the order of their
connections. `admitted` are those whose own password got their slot to
WAITING; `ended` is set when the server's process is. -/
structure World (M : Type) where
  round : Round
  connected : Nat
  peers : Nat → Peer M
  ended : Bool
  admitted : List Nat
  reads : List Read

inductive LoginAct (M : Type) where
  | connect
  | send (k : Nat) (d : M)
  | read (k : Nat)
  | leave (k : Nat)
  | accept (n : Slot)
  | request (n : Slot) (db : Db) (junk : Bytes)
  | closed (n : Slot) (db : Db) (junk : Bytes) (d : M)
  | initBoard (garbage : GameBoard)
  | loadSnake (n : Slot)
  | loaded
  | tick (off : Slot → UInt8)
  | finish

variable {M : Type}

def Peer.new (pc : Pc) : Peer M := ⟨pc, [], [], 0, 0⟩

/-- What some effects send on connection `k`. -/
def mail (es : List Effect) (k taken : Nat) : List Packet :=
  es.filterMap fun
    | .send why con m => if con = k then some ⟨why, taken, m⟩ else none
    | _ => none

def Peer.deliver (p : Peer M) (es : List Effect) (k : Nat) : Peer M :=
  { p with toClient := p.toClient ++ mail es k p.taken }

/-- The connections whose password the server has just accepted. -/
def newlyAdmitted (t t' : Table) (n : Slot) : List Nat :=
  match t n, t' n with
  | some c, some c' =>
    if (c.expecting = .password ∨ c.expecting = .newPassword) ∧ c'.state = .waiting then [c.con] else []
  | _, _ => []

/-- A step of the server, with everything it sends on its way. -/
def World.serve (cd : Codec M) (w : World M) (a : RoundAct M) : Option (World M) :=
  if w.ended then none
  else
    (roundStep cd { w.round with server := { w.round.server with out := [] } } a).map fun r =>
      { w with round := r, peers := fun k => (w.peers k).deliver r.server.out k }

/-- The server takes the next message of slot `n`. Every encoder writes more
than one byte, so `readData` does not take the message for a closed
connection. -/
def World.take (cd : Codec M) (w : World M) (n : Slot) (db : Db) (junk : Bytes) : Option (World M) :=
  match w.round.server.clients n with
  | none => none
  | some c =>
    match (w.peers c.con).toServer with
    | [] => none
    | d :: ds =>
      let p := { w.peers c.con with toServer := ds, taken := (w.peers c.con).taken + 1 }
      (World.serve cd { w with peers := Function.update w.peers c.con p } (.request n db junk true d)).map fun w' =>
        { w' with admitted := w.admitted ++ newlyAdmitted w.round.server.clients w'.round.server.clients n }

def loginStep (cd : Codec M) (w : World M) : LoginAct M → Option (World M)
  | .connect =>
    if w.ended then none
    else some { w with connected := w.connected + 1, peers := Function.update w.peers w.connected (.new .sendName) }
  | .send k d =>
    (w.peers k).pc.send.map fun pc =>
      let p := { w.peers k with pc := pc, toServer := (w.peers k).toServer ++ [d], sent := (w.peers k).sent + 1 }
      { w with peers := Function.update w.peers k p }
  | .read k =>
    -- With nothing to read, `readData` blocks, or faults once the server has ended.
    match (w.peers k).toClient with
    | [] => none
    | x :: xs =>
      ((w.peers k).pc.read (unmarshBoolean x.msg)).map fun pc =>
        { w with
          peers := Function.update w.peers k { w.peers k with pc := pc, toClient := xs }
          reads := w.reads ++ [⟨k, (w.peers k).sent, x⟩] }
  | .leave k =>
    if (w.peers k).pc = .absent then none
    else some { w with peers := Function.update w.peers k { w.peers k with pc := .gone } }
  | .accept n => if w.round.nextCon < w.connected then w.serve cd (.accept n) else none
  | .request n db junk => w.take cd n db junk
  | .closed n db junk d =>
    if (w.round.server.clients n).any fun c => (w.peers c.con).pc = .gone ∧ (w.peers c.con).toServer.isEmpty then
      w.serve cd (.request n db junk false d)
    else none
  | .initBoard garbage => w.serve cd (.initBoard garbage)
  | .loadSnake n => w.serve cd (.loadSnake n)
  | .loaded => w.serve cd .loaded
  | .tick off => w.serve cd (.tick off)
  | .finish =>
    if w.ended = false ∧ w.round.phase = .over then
      let sv := sendResults { w.round.server with out := [] }
      some { w with
        round := { w.round with server := sv }
        peers := fun k => (w.peers k).deliver sv.out k
        ended := true }
    else none

/-- Before the first connection. -/
def World.start : World M := ⟨Round.start, 0, fun _ => .new .absent, false, [], []⟩

def loginMachine (cd : Codec M) : Machine (World M) (LoginAct M) := .ofFun World.start (loginStep cd)

/-! ## When the replies stay in step -/

def Expecting.login (e : Expecting) : Bool := e = .user || e = .password || e = .newPassword

/-- Slot `n` is in its login phase, and its client has not left. -/
def InLogin (w : World M) (n : Slot) : Bool :=
  (w.round.server.clients n).any fun c => c.expecting.login && (w.peers c.con).pc ≠ .gone

/-- The next message of slot `n` is the password of a new user, and the user
cannot be created. -/
def CreateFails (cd : Codec M) (db : Db) (w : World M) (n : Slot) : Bool :=
  (w.round.server.clients n).any fun c => c.expecting = .newPassword && (w.peers c.con).pc ≠ .gone &&
    (w.peers c.con).toServer.head?.any fun d => (cd.unmarshString d).any fun p => db.createUser c.name p ≠ 0

/-- Nobody else is in its login phase when a client is found to have left, and
nobody at all in a tick and at the end of a game; and no user fails to be
created while its client is there. -/
def Undisturbed (cd : Codec M) (w : World M) : LoginAct M → Prop
  | .closed n _ _ _ => ∀ m, m ≠ n → InLogin w m = false
  | .request n db _ => CreateFails cd db w n = false
  | .tick _ => ∀ m, InLogin w m = false
  | .finish => ∀ m, InLogin w m = false
  | _ => True

instance (cd : Codec M) (w : World M) : ∀ a : LoginAct M, Decidable (Undisturbed cd w a)
  | .closed n _ _ _ => inferInstanceAs (Decidable (∀ m, m ≠ n → InLogin w m = false))
  | .request n db _ => inferInstanceAs (Decidable (CreateFails cd db w n = false))
  | .tick _ | .finish => inferInstanceAs (Decidable (∀ m, InLogin w m = false))
  | .connect | .send .. | .read _ | .leave _ | .accept _ | .initBoard _ | .loadSnake _ | .loaded => .isTrue trivial

/-! ## One login -/

/-- The state of the login of a client whose slot expects `e`: nothing sent
yet, a message under way, its reply under way, or the reply TRUE to the right
password. A client that is not accepted yet counts as `user`. -/
inductive Exchange (p : Peer M) (e : Expecting) : Prop
  | unnamed : e = .user → p.pc = .sendName → p.toServer = [] → p.toClient = [] → p.taken = p.sent → Exchange p e
  | named : e = .user → p.pc = .readBelongs → p.toServer.length ≤ 1 → p.taken + p.toServer.length = p.sent →
      p.toClient = [] → Exchange p e
  | silent : e = .password ∨ e = .newPassword → p.pc = .sendPassword ∨ p.pc = .sendAgain → p.toServer = [] →
      p.toClient = [] → p.taken = p.sent → Exchange p e
  | asked : e = .password ∨ e = .newPassword → p.pc = .readBelongs2 ∨ p.pc = .readWPass → p.toServer.length ≤ 1 →
      p.taken + p.toServer.length = p.sent → p.toClient = [] → Exchange p e
  | answered (b : Bool) : e = .password ∨ e = .newPassword →
      p.pc = .readBelongs ∨ b = false ∧ (p.pc = .readBelongs2 ∨ p.pc = .readWPass) → p.toServer = [] →
      p.toClient = [⟨.reply, p.sent, .boolean b⟩] → p.taken = p.sent → Exchange p e
  | accepted (rest : List Packet) : e.login = false → p.pc = .readBelongs2 ∨ p.pc = .readWPass → p.toServer = [] →
      p.toClient = ⟨.reply, p.sent, .boolean true⟩ :: rest → p.taken = p.sent → Exchange p e

/-! ## Mail -/

@[simp] theorem mail_nil (k taken : Nat) : mail [] k taken = [] := rfl

@[simp] theorem mail_append (es es' : List Effect) (k taken : Nat) :
    mail (es ++ es') k taken = mail es k taken ++ mail es' k taken := by
  simp [mail]

theorem mail_to_self (why : Why) (m : Msg) (es : List Effect) (k taken : Nat) :
    mail (.send why k m :: es) k taken = ⟨why, taken, m⟩ :: mail es k taken := by
  simp [mail]

theorem mail_eq_nil {es : List Effect} {k taken : Nat} (h : ∀ why m, .send why k m ∉ es) : mail es k taken = [] := by
  refine List.filterMap_eq_nil_iff.2 fun e he => ?_
  cases e with
  | send why con m =>
    have hne : con ≠ k := by rintro rfl; exact h why m he
    exact if_neg hne
  | _ => rfl

theorem to_newPlayer {t : Table} {n : Slot} {c : Client} {why : Why} {con : Nat} {m : Msg}
    (h : .send why con m ∈ newPlayerNotices t n c) :
    ∃ i c', i ≠ n ∧ t i = some c' ∧ c'.con = con ∧ c'.state ≠ .logging := by
  obtain ⟨i, c', hc', hf⟩ := mem_forClients.1 h
  obtain ⟨⟨hl, hn⟩, he⟩ := Option.ite_none_right_eq_some.1 hf
  cases he
  exact ⟨i, c', hn, hc', rfl, hl⟩

theorem to_existingPlayers {t : Table} {c : Client} {why : Why} {con : Nat} {m : Msg}
    (h : .send why con m ∈ existingPlayersNotices t c) : con = c.con := by
  obtain ⟨i, c', -, he⟩ := mem_forClients.1 h
  cases he; rfl

/-- Whoever gets something while a request is resolved has sent the request or
is past LOGGING. -/
theorem Resolved.sends {cd : Codec M} {db : Db} {d : M} {n : Slot} {c : Client} {t t' : Table} {es : List Effect}
    {b : Bool} (h : Resolved cd db d n c t t' es b) {why : Why} {con : Nat} {m : Msg} (hm : .send why con m ∈ es) :
    con = c.con ∨ ∃ i c', t i = some c' ∧ c'.con = con ∧ c'.state ≠ .logging := by
  -- A notice goes to another slot, which the request leaves alone.
  have hnotice : ∀ c₁ c₂, .send why con m ∈ newPlayerNotices (Function.update t n (some c₁)) n c₂ →
      ∃ i c', t i = some c' ∧ c'.con = con ∧ c'.state ≠ .logging := by
    intro c₁ c₂ hm
    obtain ⟨i, c', hi, hc', hcon, hl⟩ := to_newPlayer hm
    rw [Function.update_of_ne hi] at hc'
    exact ⟨i, c', hc', hcon, hl⟩
  cases h with
  | kept _ hes =>
    rcases hes with rfl | ⟨p, rfl, -⟩ <;> simp at hm
  | named _ _ _ _ _ _ _ hno =>
    rcases List.mem_append.1 hm with hm | hm
    · exact absurd hm (hno why con m)
    · simp only [List.mem_singleton, Effect.send.injEq] at hm
      exact .inl hm.2.1
  | refused =>
    simp only [List.mem_cons, reduceCtorEq, false_or, Effect.send.injEq, List.not_mem_nil, or_false] at hm
    exact .inl hm.2.1
  | rejected =>
    simp only [List.mem_cons, reduceCtorEq, false_or, Effect.send.injEq, List.mem_append] at hm
    rcases hm with hm | hm | hm
    · exact .inl hm.2.1
    · obtain ⟨i, c', -, h⟩ := to_newPlayer hm; exact .inr ⟨i, c', h⟩
    · exact .inl (to_existingPlayers hm)
  | admitted _ _ ht ha =>
    subst ht
    have hask : ¬ .send why con m = ‹Effect› := by
      rintro rfl
      rcases ha with ⟨-, p, ans, he, -⟩ | ⟨-, p, he⟩ <;> cases he
    simp only [List.mem_cons, hask, false_or, Effect.send.injEq, List.mem_append] at hm
    rcases hm with hm | hm | hm
    · exact .inl hm.2.1
    · exact .inr (hnotice _ _ hm)
    · exact .inl (to_existingPlayers hm)
  | toggled _ _ _ _ ht _ => subst ht; exact .inr (hnotice _ _ hm)
  | started u _ ht hall =>
    rcases List.mem_append.1 hm with hm | hm
    · subst ht; exact .inr (hnotice _ _ hm)
    · obtain ⟨i, c', hc', he⟩ := mem_forClients.1 hm
      cases he
      by_cases hi : i = n
      · subst hi
        rw [ht, Function.update_self] at hc'
        rw [← Option.some.inj hc']; exact .inl rfl
      · have hr := (allReady_iff.1 hall).1 i c' hc'
        rw [ht, Function.update_of_ne hi] at hc'
        exact .inr ⟨i, c', hc', rfl, by simp [hr]⟩

/-- What a message does to the other slots: nothing to one that is LOGGING,
and one that is past its login stays past it. -/
theorem Resolved.other {cd : Codec M} {db : Db} {d : M} {n : Slot} {c : Client} {t t' : Table} {es : List Effect}
    {b : Bool} (h : Resolved cd db d n c t t' es b) {m : Slot} (hm : m ≠ n) {c' : Client} (hc' : t m = some c') :
    (c'.state = .logging → t' m = some c') ∧
      ∃ c'', t' m = some c'' ∧ c''.con = c'.con ∧ (c'.expecting.login = false → c''.expecting.login = false) := by
  have hsame : ∀ c₁, Function.update t n (some c₁) m = some c' := fun c₁ => by rw [Function.update_of_ne hm, hc']
  have hdone : ∀ u : Table, u m = some c' → (c'.state = .logging → u m = some c') ∧
      ∃ c'', u m = some c'' ∧ c''.con = c'.con ∧ (c'.expecting.login = false → c''.expecting.login = false) :=
    fun u hu => ⟨fun _ => hu, c', hu, rfl, id⟩
  cases h with
  | kept => exact hdone t hc'
  | named => exact hdone _ (hsame _)
  | refused => exact hdone t hc'
  | rejected => exact hdone t hc'
  | admitted _ _ ht _ => subst ht; exact hdone _ (hsame _)
  | toggled _ _ _ _ ht _ => subst ht; exact hdone _ (hsame _)
  | started u _ ht hall =>
    have hu : u m = some c' := by rw [ht]; exact hsame _
    have hr := (allReady_iff.1 hall).1 m c' hu
    exact ⟨fun hl => by simp [hr] at hl, c'.start, by simp [hu], rfl, fun _ => rfl⟩

/-! ## The state of a login -/

def Pc.login : Pc → Bool
  | .absent | .returned | .gone => false
  | _ => true

/-- An exchange goes on when nothing is sent to a client in its login, and
whatever is sent to one that is past it. -/
theorem Exchange.deliver {p : Peer M} {e e' : Expecting} (h : Exchange p e) {es : List Effect} {k : Nat}
    (hlog : e.login = true → mail es k p.taken = [] ∧ e' = e) (hpast : e.login = false → e'.login = false) :
    Exchange (p.deliver es k) e' := by
  cases hl : e.login with
  | true =>
    obtain ⟨hm, rfl⟩ := hlog hl
    have hp : p.deliver es k = p := by simp [Peer.deliver, hm]
    rwa [hp]
  | false =>
    cases h with
    | unnamed he => subst he; simp [Expecting.login] at hl
    | named he => subst he; simp [Expecting.login] at hl
    | silent he => rcases he with rfl | rfl <;> simp [Expecting.login] at hl
    | asked he => rcases he with rfl | rfl <;> simp [Expecting.login] at hl
    | answered _ he => rcases he with rfl | rfl <;> simp [Expecting.login] at hl
    | accepted rest _ hpc hs hcl ht =>
      refine .accepted (rest ++ mail es k p.taken) (hpast hl) hpc hs ?_ ht
      simp [Peer.deliver, hcl]

/-- The client of connection `k` is in its login, on its way to a slot or in
one, and the server's side of it agrees. -/
def Settled (t : Table) (nextCon : Nat) (ad : List Nat) (k : Nat) (p : Peer M) : Prop :=
  p.pc.login = true →
    nextCon ≤ k ∧ Exchange p .user ∨
      ∃ n c, t n = some c ∧ c.con = k ∧ Exchange p c.expecting ∧
        (c.expecting.login = true → c.state = .logging) ∧ (c.expecting.login = false → k ∈ ad)

/-- What a step of the server has to leave alone for the clients it does not
answer. -/
theorem Settled.deliver {t t' : Table} {nextCon : Nat} {ad ad' : List Nat} {k : Nat} {p : Peer M}
    (h : Settled t nextCon ad k p) {es : List Effect} (hwait : nextCon ≤ k → mail es k p.taken = [])
    (hlog : ∀ n c, t n = some c → c.con = k → p.pc.login = true → c.expecting.login = true → c.state = .logging →
      mail es k p.taken = [] ∧ t' n = some c)
    (hpast : ∀ n c, t n = some c → c.con = k → p.pc.login = true → c.expecting.login = false →
      ∃ c', t' n = some c' ∧ c'.con = k ∧ c'.expecting.login = false)
    (had : ad ⊆ ad') : Settled t' nextCon ad' k (p.deliver es k) := by
  intro hpc
  rcases h hpc with ⟨hk, hx⟩ | ⟨n, c, hc, hcon, hx, hl, hp⟩
  · exact .inl ⟨hk, hx.deliver (fun _ => ⟨hwait hk, rfl⟩) id⟩
  · cases hlogin : c.expecting.login with
    | true =>
      obtain ⟨hm, ht⟩ := hlog n c hc hcon hpc hlogin (hl hlogin)
      exact .inr ⟨n, c, ht, hcon, hx.deliver (fun _ => ⟨hm, rfl⟩) id, hl, fun hf => had (hp hf)⟩
    | false =>
      obtain ⟨c', ht, hcon', hf⟩ := hpast n c hc hcon hpc hlogin
      refine .inr ⟨n, c', ht, hcon', hx.deliver (fun hl' => ?_) fun _ => hf, fun hl' => ?_, fun _ => had (hp hlogin)⟩
      · exact absurd (hlogin.symm.trans hl') Bool.false_ne_true
      · exact absurd (hf.symm.trans hl') Bool.false_ne_true

/-- A client in its login has at most one message under way. -/
theorem Exchange.one {p : Peer M} {e : Expecting} (h : Exchange p e) {d : M} {ds : List M} (hq : p.toServer = d :: ds) :
    ds = [] ∧ p.taken + 1 = p.sent ∧ p.toClient = [] ∧
      (e = .user ∧ p.pc = .readBelongs ∨
        (e = .password ∨ e = .newPassword) ∧ (p.pc = .readBelongs2 ∨ p.pc = .readWPass)) := by
  have hone : p.toServer.length ≤ 1 → p.taken + p.toServer.length = p.sent → ds = [] ∧ p.taken + 1 = p.sent := by
    rw [hq, List.length_cons]
    intro hlen hsum
    have hds : ds.length = 0 := by omega
    exact ⟨List.length_eq_zero_iff.1 hds, by omega⟩
  cases h with
  | unnamed _ _ hs => simp [hq] at hs
  | named he hpc hlen hsum hcl => exact ⟨(hone hlen hsum).1, (hone hlen hsum).2, hcl, .inl ⟨he, hpc⟩⟩
  | silent _ _ hs => simp [hq] at hs
  | asked he hpc hlen hsum hcl => exact ⟨(hone hlen hsum).1, (hone hlen hsum).2, hcl, .inr ⟨he, hpc⟩⟩
  | answered _ _ _ hs => simp [hq] at hs
  | accepted _ _ _ hs => simp [hq] at hs

/-- The client whose message is resolved gets its reply, or nothing when the
message cannot be decoded; with the reply TRUE to a password its slot is
WAITING. -/
theorem Exchange.resolve {cd : Codec M} {db : Db} {d : M} {ds : List M} {n : Slot} {c : Client} {t t' : Table}
    {es : List Effect} {b : Bool} {p : Peer M} (hx : Exchange p c.expecting) (hq : p.toServer = d :: ds)
    (hc : t n = some c) (hr : Resolved cd db d n c t t' es b)
    (hcreate : ∀ q, c.expecting = .newPassword → cd.unmarshString d = some q → db.createUser c.name q = 0) :
    ∃ c', t' n = some c' ∧ c'.con = c.con ∧
      Exchange (Peer.deliver { p with toServer := ds, taken := p.taken + 1 } es c.con) c'.expecting ∧
      (c'.expecting.login = true → c'.state = c.state) ∧
      (c'.expecting.login = false → c.con ∈ newlyAdmitted t t' n) := by
  obtain ⟨rfl, htaken, hcl, hpc⟩ := hx.one hq
  have hlogin : c.expecting.login = true := by rcases hpc with ⟨he, -⟩ | ⟨he | he, -⟩ <;> simp [Expecting.login, he]
  cases hr with
  | kept _ hes =>
    rcases hes with rfl | ⟨_, -, he⟩
    · refine ⟨c, hc, rfl, ?_, fun _ => rfl, fun hf => absurd (hf.symm.trans hlogin) Bool.false_ne_true⟩
      rcases hpc with ⟨he, hpc⟩ | ⟨he, hpc⟩
      · exact .named he hpc (Nat.zero_le _) htaken (by simp [Peer.deliver, hcl])
      · exact .asked he hpc (Nat.zero_le _) htaken (by simp [Peer.deliver, hcl])
    · simp [Expecting.login, he] at hlogin
  | named name e score es' b hu he hno =>
    refine ⟨_, Function.update_self .., rfl, ?_, fun _ => rfl, fun hf => ?_⟩
    · rcases hpc with ⟨-, hpc⟩ | ⟨he', -⟩
      · refine .answered b he (.inl hpc) rfl ?_ htaken
        have hes : mail es' c.con (p.taken + 1) = [] := mail_eq_nil fun why m => hno why c.con m
        simp [Peer.deliver, hcl, hes, mail_to_self, ← htaken]
      · rcases he' with he' | he' <;> simp [hu] at he'
    · rcases he with rfl | rfl <;> simp [Expecting.login] at hf
  | refused q ans he =>
    refine ⟨c, hc, rfl, ?_, fun _ => rfl, fun hf => absurd (hf.symm.trans hlogin) Bool.false_ne_true⟩
    rcases hpc with ⟨he', -⟩ | ⟨he', hpc⟩
    · simp [he] at he'
    · refine .answered false he' (.inr ⟨rfl, hpc⟩) rfl ?_ htaken
      simp [Peer.deliver, hcl, ← htaken, mail]
  | rejected q he hd hans => exact absurd (hcreate q he hd) hans
  | admitted asked u hu ha =>
    have hpass : c.expecting = .password ∨ c.expecting = .newPassword := by
      rcases ha with ⟨he, -⟩ | ⟨he, -⟩ <;> simp [he]
    have hu' : t' n = some c.toLobby := by rw [hu, Function.update_self]
    refine ⟨c.toLobby, hu', rfl, ?_, fun hf => by simp [Expecting.login, Client.toLobby] at hf, fun _ => ?_⟩
    · rcases hpc with ⟨he', -⟩ | ⟨-, hpc⟩
      · rcases hpass with he | he <;> simp [he] at he'
      · refine .accepted (mail (newPlayerNotices t' n c.toLobby ++ existingPlayersNotices t' c.toLobby) c.con (p.taken + 1))
          rfl hpc rfl ?_ htaken
        rcases ha with ⟨-, q, ans, rfl, -⟩ | ⟨-, q, rfl⟩ <;> simp [Peer.deliver, hcl, ← htaken, mail]
    · have hw : c.toLobby.state = .waiting := rfl
      simp [newlyAdmitted, hc, hu', hpass, hw]
  | toggled _ _ he => simp [Expecting.login, he] at hlogin
  | started _ he => simp [Expecting.login, he] at hlogin

/-! ## The steps of a client -/

/-- Sending a name or a password. -/
theorem Exchange.send {p : Peer M} {e : Expecting} (h : Exchange p e) {pc : Pc} (hpc : p.pc.send = some pc) (d : M) :
    Exchange { p with pc := pc, toServer := p.toServer ++ [d], sent := p.sent + 1 } e := by
  cases h with
  | unnamed he hp hs hcl ht =>
    rw [hp] at hpc
    cases hpc
    exact .named he rfl (by simp [hs]) (by simp [hs, ht]) hcl
  | silent he hp hs hcl ht =>
    have hpc' : pc = .readBelongs2 ∨ pc = .readWPass := by
      rcases hp with hp | hp <;> rw [hp] at hpc <;> cases hpc
      · exact .inl rfl
      · exact .inr rfl
    exact .asked he hpc' (by simp [hs]) (by simp [hs, ht]) hcl
  | named _ hp => rw [hp] at hpc; cases hpc
  | asked _ hp => rcases hp with hp | hp <;> rw [hp] at hpc <;> cases hpc
  | answered _ _ hp => rcases hp with hp | ⟨-, hp | hp⟩ <;> rw [hp] at hpc <;> cases hpc
  | accepted _ _ hp => rcases hp with hp | hp <;> rw [hp] at hpc <;> cases hpc

/-- What is read is the reply to the last message; after TRUE to a password
the client returns and its slot is past the login, and otherwise it goes on. -/
theorem Exchange.read {p : Peer M} {e : Expecting} (h : Exchange p e) {x : Packet} {xs : List Packet}
    (hq : p.toClient = x :: xs) {pc : Pc} (hpc : p.pc.read (unmarshBoolean x.msg) = some pc) :
    (x.why = .reply ∧ x.taken = p.sent ∧ ∃ b, x.msg = .boolean b) ∧
      (pc.login = true → Exchange { p with pc := pc, toClient := xs } e) ∧
      (pc.login = false → pc = .returned ∧ e.login = false) := by
  cases h with
  | unnamed _ _ _ hcl => simp [hq] at hcl
  | named _ _ _ _ hcl => simp [hq] at hcl
  | silent _ _ _ hcl => simp [hq] at hcl
  | asked _ _ _ _ hcl => simp [hq] at hcl
  | answered b he hp hs hcl ht =>
    rw [hq, List.cons.injEq] at hcl
    obtain ⟨rfl, rfl⟩ := hcl
    have hpc' : pc = .sendPassword ∨ pc = .sendAgain := by
      rcases hp with hp | ⟨rfl, hp | hp⟩ <;> rw [hp] at hpc
      · exact .inl (Option.some.inj hpc).symm
      · exact .inr (Option.some.inj hpc).symm
      · exact .inr (Option.some.inj hpc).symm
    refine ⟨⟨rfl, rfl, b, rfl⟩, fun _ => ?_, fun hf => ?_⟩
    · exact .silent he hpc' hs rfl ht
    · rcases hpc' with rfl | rfl <;> simp [Pc.login] at hf
  | accepted rest he hp hs hcl ht =>
    rw [hq, List.cons.injEq] at hcl
    obtain ⟨rfl, rfl⟩ := hcl
    have hret : pc = .returned := by rcases hp with hp | hp <;> rw [hp] at hpc <;> cases hpc <;> rfl
    subst hret
    exact ⟨⟨rfl, rfl, true, rfl⟩, fun hf => by simp [Pc.login] at hf, fun _ => ⟨rfl, he⟩⟩

/-! ## The invariant -/

/-- The message read is the BOOLEAN that the server sent in reply to the
message the client had sent last. -/
def Read.Answers (r : Read) : Prop :=
  r.packet.why = .reply ∧ r.packet.taken = r.sent ∧ ∃ b, r.packet.msg = .boolean b

structure LoginInv (w : World M) : Prop where
  below : w.round.nextCon ≤ w.connected
  absent : ∀ k, w.connected ≤ k → (w.peers k).pc = .absent
  cons_lt : ∀ n k, cons w.round.server.clients n = some k → k < w.round.nextCon
  cons_inj : ∀ n m k, cons w.round.server.clients n = some k → cons w.round.server.clients m = some k → n = m
  settled : ∀ k, Settled w.round.server.clients w.round.nextCon w.admitted k (w.peers k)
  returned : ∀ k, (w.peers k).pc = .returned → k ∈ w.admitted
  reads : ∀ r ∈ w.reads, r.Answers

/-- A step of the server keeps the invariant when it keeps every login in
order. -/
theorem LoginInv.server {w : World M} (h : LoginInv w) {r : Round} {peers : Nat → Peer M} {ended : Bool}
    {ad : List Nat} (hnext : r.nextCon = w.round.nextCon)
    (hcons : ∀ n k, cons r.server.clients n = some k → cons w.round.server.clients n = some k)
    (hpc : ∀ k, (peers k).pc = (w.peers k).pc) (had : w.admitted ⊆ ad)
    (hset : ∀ k, Settled r.server.clients w.round.nextCon ad k (peers k)) :
    LoginInv { w with round := r, peers := peers, ended := ended, admitted := ad } where
  below := hnext ▸ h.below
  absent k hk := (hpc k).trans (h.absent k hk)
  cons_lt n k hk := hnext ▸ h.cons_lt n k (hcons n k hk)
  cons_inj n m k hn hm := h.cons_inj n m k (hcons n k hn) (hcons m k hm)
  settled := hnext ▸ hset
  returned k hk := had (h.returned k ((hpc k).symm.trans hk))
  reads := h.reads

/-- So does a step of a client. -/
theorem LoginInv.client {w : World M} (h : LoginInv w) {k : Nat} (hk : (w.peers k).pc ≠ .absent) {p : Peer M}
    {reads : List Read} (hset : Settled w.round.server.clients w.round.nextCon w.admitted k p)
    (hret : p.pc = .returned → k ∈ w.admitted) (hreads : ∀ r ∈ reads, r.Answers) :
    LoginInv { w with peers := Function.update w.peers k p, reads := reads } where
  below := h.below
  absent := (Function.forall_update_iff w.peers fun j q => w.connected ≤ j → q.pc = .absent).2
    ⟨fun hj => absurd (h.absent k hj) hk, fun j _ => h.absent j⟩
  cons_lt := h.cons_lt
  cons_inj := h.cons_inj
  settled := (Function.forall_update_iff w.peers _).2 ⟨hset, fun j _ => h.settled j⟩
  returned := (Function.forall_update_iff w.peers fun j q => q.pc = .returned → j ∈ w.admitted).2
    ⟨hret, fun j _ => h.returned j⟩
  reads := hreads

theorem Pc.send_login {pc pc' : Pc} (h : pc.send = some pc') :
    pc ≠ .absent ∧ (pc.login = false → pc = .returned ∧ pc' = .returned) ∧ (pc' = .returned → pc = .returned) := by
  cases pc <;> cases h <;> simp [Pc.login]

theorem Pc.read_login {pc pc' : Pc} {v : Bool} (h : pc.read v = some pc') : pc.login = true := by
  cases pc <;> first | rfl | cases h

theorem inLogin_of {w : World M} {n : Slot} {c : Client} (hc : w.round.server.clients n = some c)
    (he : c.expecting.login = true) (hp : (w.peers c.con).pc.login = true) : InLogin w n = true := by
  have hg : (w.peers c.con).pc ≠ .gone := by
    intro hg; simp [hg, Pc.login] at hp
  simp [InLogin, hc, he, hg]

theorem login_connect {w : World M} (h : LoginInv w) :
    LoginInv { w with
      connected := w.connected + 1, peers := Function.update w.peers w.connected (.new .sendName) } where
  below := Nat.le_succ_of_le h.below
  absent := (Function.forall_update_iff w.peers fun j q => w.connected + 1 ≤ j → q.pc = .absent).2
    ⟨fun hj => by omega, fun j _ hj => h.absent j (by omega)⟩
  cons_lt := h.cons_lt
  cons_inj := h.cons_inj
  settled := (Function.forall_update_iff w.peers _).2
    ⟨fun _ => .inl ⟨h.below, .unnamed rfl rfl rfl rfl rfl⟩, fun j _ => h.settled j⟩
  returned := (Function.forall_update_iff w.peers fun j q => q.pc = .returned → j ∈ w.admitted).2
    ⟨fun hr => (by cases hr), fun j _ => h.returned j⟩
  reads := h.reads

theorem login_send {w : World M} (h : LoginInv w) {k : Nat} {pc : Pc} (hpc : (w.peers k).pc.send = some pc) (d : M) :
    LoginInv { w with
      peers := Function.update w.peers k
        { w.peers k with pc := pc, toServer := (w.peers k).toServer ++ [d], sent := (w.peers k).sent + 1 } } := by
  obtain ⟨habs, hfree, hret⟩ := Pc.send_login hpc
  refine h.client habs (fun hp => ?_) (fun hp => h.returned k (hret hp)) h.reads
  have hp' : (w.peers k).pc.login = true := by
    cases hl : (w.peers k).pc.login with
    | true => rfl
    | false => rw [show pc = .returned from (hfree hl).2] at hp; cases hp
  rcases h.settled k hp' with ⟨hk, hx⟩ | ⟨n, c, hc, hcon, hx, hl, ha⟩
  · exact .inl ⟨hk, hx.send hpc d⟩
  · exact .inr ⟨n, c, hc, hcon, hx.send hpc d, hl, ha⟩

theorem login_read {w : World M} (h : LoginInv w) {k : Nat} {x : Packet} {xs : List Packet}
    (hq : (w.peers k).toClient = x :: xs) {pc : Pc} (hpc : (w.peers k).pc.read (unmarshBoolean x.msg) = some pc) :
    LoginInv { w with
      peers := Function.update w.peers k { w.peers k with pc := pc, toClient := xs }
      reads := w.reads ++ [⟨k, (w.peers k).sent, x⟩] } := by
  have hp := Pc.read_login hpc
  have habs : (w.peers k).pc ≠ .absent := by intro ha; simp [ha, Pc.login] at hp
  have hreads : ∀ {e}, Exchange (w.peers k) e → ∀ r ∈ w.reads ++ [⟨k, (w.peers k).sent, x⟩], r.Answers := by
    intro e hx r hr
    rcases List.mem_append.1 hr with hr | hr
    · exact h.reads r hr
    · rw [List.mem_singleton.1 hr]; exact (hx.read hq hpc).1
  rcases h.settled k hp with ⟨hk, hx⟩ | ⟨n, c, hc, hcon, hx, hl, ha⟩
  · refine h.client habs (fun hp' => .inl ⟨hk, (hx.read hq hpc).2.1 hp'⟩) (fun hr => ?_) (hreads hx)
    have hf := ((hx.read hq hpc).2.2 (by rw [show pc = .returned from hr]; rfl)).2
    simp [Expecting.login] at hf
  · refine h.client habs (fun hp' => .inr ⟨n, c, hc, hcon, (hx.read hq hpc).2.1 hp', hl, ha⟩) (fun hr => ?_) (hreads hx)
    exact ha ((hx.read hq hpc).2.2 (by rw [show pc = .returned from hr]; rfl)).2

/-! ## The steps of the server -/

@[simp] theorem deliver_nil (p : Peer M) (k : Nat) : p.deliver [] k = p := by simp [Peer.deliver]

/-- `World.serve` is a step of the round, and its mail. -/
theorem serve_cases {cd : Codec M} {w w' : World M} {a : RoundAct M} (h : w.serve cd a = some w') :
    ∃ r, roundStep cd { w.round with server := { w.round.server with out := [] } } a = some r ∧
      w' = { w with round := r, peers := fun k => (w.peers k).deliver r.server.out k } := by
  unfold World.serve at h
  split at h
  · cases h
  · obtain ⟨r, hr, rfl⟩ := Option.map_eq_some_iff.1 h
    exact ⟨r, hr, rfl⟩

/-- A step that sends nothing and leaves the table alone. -/
theorem login_silent {w : World M} (h : LoginInv w) {r : Round} (hn : r.nextCon = w.round.nextCon)
    (hc : r.server.clients = w.round.server.clients) (ho : r.server.out = []) :
    LoginInv { w with round := r, peers := fun k => (w.peers k).deliver r.server.out k } :=
  h.server hn (fun n k hk => by rwa [hc] at hk) (fun _ => rfl) (List.Subset.refl _) fun k => by
    rw [ho, deliver_nil, hc]; exact h.settled k

/-- What some effects send goes to slots of the table, so it does not reach a
client who is not accepted yet. -/
theorem mail_waiting {w : World M} (h : LoginInv w) {t : Table} {es : List Effect} {k taken : Nat}
    (hk : w.round.nextCon ≤ k) (hcons : ∀ n k, cons t n = some k → cons w.round.server.clients n = some k)
    (hes : ∀ why con m, .send why con m ∈ es → ∃ n, cons t n = some con) : mail es k taken = [] := by
  refine mail_eq_nil fun why m hm => ?_
  obtain ⟨n, hn⟩ := hes why k m hm
  have hlt := h.cons_lt n k (hcons n k hn)
  omega

theorem login_accept {cd : Codec M} {w w' : World M} (h : LoginInv w) {n : Slot} (hlt : w.round.nextCon < w.connected)
    (hs : w.serve cd (.accept n) = some w') : LoginInv w' := by
  obtain ⟨r, hr, rfl⟩ := serve_cases hs
  obtain ⟨hn, hr⟩ := Option.ite_none_right_eq_some.1 hr
  cases hr
  have hcons : ∀ m k, cons (Function.update w.round.server.clients n (some (newClient w.round.nextCon))) m = some k →
      m = n ∧ k = w.round.nextCon ∨ m ≠ n ∧ cons w.round.server.clients m = some k := by
    intro m k hm
    by_cases hmn : m = n
    · subst hmn
      simp only [cons, Function.update_self, Option.map_some, Option.some.injEq] at hm
      exact .inl ⟨rfl, hm.symm⟩
    · exact .inr ⟨hmn, by simpa [cons, hmn] using hm⟩
  refine ⟨hlt, h.absent, fun m k hm => ?_, fun m m' k hm hm' => ?_, fun k => ?_, h.returned, h.reads⟩
  · rcases hcons m k hm with ⟨-, rfl⟩ | ⟨-, hm⟩
    · exact Nat.lt_succ_self _
    · exact Nat.lt_succ_of_lt (h.cons_lt m k hm)
  · rcases hcons m k hm with ⟨hmn, hk⟩ | ⟨-, ho⟩ <;> rcases hcons m' k hm' with ⟨hmn', hk'⟩ | ⟨-, ho'⟩
    · exact hmn.trans hmn'.symm
    · have := h.cons_lt m' k ho'; omega
    · have := h.cons_lt m k ho; omega
    · exact h.cons_inj m m' k ho ho'
  · dsimp only [setClient_out]
    rw [deliver_nil]
    intro hpc
    rcases h.settled k hpc with ⟨hk, hx⟩ | ⟨m, c, hc, hcon, hx, hl, ha⟩
    · rcases Nat.eq_or_lt_of_le hk with rfl | hk
      · exact .inr ⟨n, newClient w.round.nextCon, Function.update_self .., rfl, hx, fun _ => rfl,
          fun hf => by simp [newClient, Expecting.login] at hf⟩
      · exact .inl ⟨hk, hx⟩
    · refine .inr ⟨m, c, ?_, hcon, hx, hl, ha⟩
      have hmn : m ≠ n := by rintro rfl; rw [hn] at hc; cases hc
      rw [setClient_clients, Function.update_of_ne hmn]; exact hc

/-- A connection sits in one slot. -/
theorem LoginInv.same_slot {w : World M} (h : LoginInv w) {m n : Slot} {c c' : Client}
    (hm : w.round.server.clients m = some c') (hn : w.round.server.clients n = some c) (hcon : c'.con = c.con) :
    m = n ∧ c' = c := by
  have hmn := h.cons_inj m n c.con (cons_eq_some.2 ⟨c', hm, hcon⟩) (cons_eq_some.2 ⟨c, hn, rfl⟩)
  subst hmn
  exact ⟨rfl, Option.some.inj (hm.symm.trans hn)⟩

section Request
variable {cd : Codec M} {db : Db} {d : M} {n : Slot} {c : Client} {w : World M} {t' : Table} {es : List Effect} {b : Bool}

/-- The login of the client that sent the message goes on. -/
theorem LoginInv.sender {ds : List M} (h : LoginInv w) (hc : w.round.server.clients n = some c)
    (hq : (w.peers c.con).toServer = d :: ds) (hok : CreateFails cd db w n = false)
    (hres : Resolved cd db d n c w.round.server.clients t' es b) :
    Settled t' w.round.nextCon (w.admitted ++ newlyAdmitted w.round.server.clients t' n) c.con
      (Peer.deliver { w.peers c.con with toServer := ds, taken := (w.peers c.con).taken + 1 } es c.con) := by
  intro hpc
  rcases h.settled c.con hpc with ⟨hle, -⟩ | ⟨m, c', hm, hcc, hx, hl, -⟩
  · have := h.cons_lt n c.con (cons_eq_some.2 ⟨c, hc, rfl⟩)
    omega
  · obtain ⟨rfl, rfl⟩ := h.same_slot hm hc hcc
    have hlog : c'.expecting.login = true := by
      obtain ⟨-, -, -, hpc⟩ := hx.one hq
      rcases hpc with ⟨he, -⟩ | ⟨he | he, -⟩ <;> simp [he, Expecting.login]
    have hcreate : ∀ q, c'.expecting = .newPassword → cd.unmarshString d = some q → db.createUser c'.name q = 0 := by
      intro q he hd
      have hg : (w.peers c'.con).pc ≠ .gone := by
        intro hg
        simp [Peer.deliver, hg, Pc.login] at hpc
      simpa [CreateFails, hc, he, hg, hq, hd] using hok
    obtain ⟨c'', ht, hcc', hx', hst, had⟩ := hx.resolve hq hc hres hcreate
    exact .inr ⟨m, c'', ht, hcc', hx', fun hl' => (hst hl').trans (hl hlog), fun hl' => List.mem_append_right _ (had hl')⟩

/-- So does the login of everybody else, who gets nothing. -/
theorem LoginInv.bystander {k : Nat} (h : LoginInv w) (hc : w.round.server.clients n = some c) (hk : k ≠ c.con)
    (hres : Resolved cd db d n c w.round.server.clients t' es b) (ad : List Nat) :
    Settled t' w.round.nextCon (w.admitted ++ ad) k ((w.peers k).deliver es k) := by
  have hne : ∀ m c', w.round.server.clients m = some c' → c'.con = k → m ≠ n := by
    rintro m c' hm rfl rfl
    exact hk (congrArg Client.con (Option.some.inj (hm.symm.trans hc)))
  refine (h.settled k).deliver (fun hle => ?_) (fun m c' hm hcc _ _ hst => ⟨?_, ?_⟩)
    (fun m c' hm hcc _ hl => ?_) (List.subset_append_left _ _)
  · apply mail_waiting h hle (fun _ _ h => h)
    intro why con msg hmem
    rcases hres.sends hmem with rfl | ⟨i, c', hi, rfl, -⟩
    · exact ⟨n, cons_eq_some.2 ⟨c, hc, rfl⟩⟩
    · exact ⟨i, cons_eq_some.2 ⟨c', hi, rfl⟩⟩
  · apply mail_eq_nil
    intro why msg hmem
    rcases hres.sends hmem with rfl | ⟨i, c'', hi, hcc', hst'⟩
    · exact hk rfl
    · obtain ⟨-, rfl⟩ := h.same_slot hi hm (hcc'.trans hcc.symm)
      exact hst' hst
  · exact (hres.other (hne m c' hm hcc) hm).1 hst
  · obtain ⟨-, c'', h1, h2, h3⟩ := hres.other (hne m c' hm hcc) hm
    exact ⟨c'', h1, h2.trans hcc, h3 hl⟩

end Request

/-- The server takes the next message of a slot and resolves it. -/
theorem take_cases {cd : Codec M} {w w' : World M} {n : Slot} {db : Db} {junk : Bytes} (h : w.take cd n db junk = some w') :
    ∃ c d ds sv, w.round.server.clients n = some c ∧ (w.peers c.con).toServer = d :: ds ∧
      resolveRequest cd db junk true d n { w.round.server with out := [] } = some sv ∧
      w' = { w with
        round := { w.round with server := sv, moved := w.round.moved ++ started sv.out }
        peers := fun k =>
          (Function.update w.peers c.con { w.peers c.con with toServer := ds, taken := (w.peers c.con).taken + 1 } k).deliver
            sv.out k
        admitted := w.admitted ++ newlyAdmitted w.round.server.clients sv.clients n } := by
  unfold World.take at h
  split at h
  · cases h
  rename_i c hc
  split at h
  · cases h
  rename_i d ds hq
  obtain ⟨w₁, hw, rfl⟩ := Option.map_eq_some_iff.1 h
  obtain ⟨r, hr, rfl⟩ := serve_cases hw
  obtain ⟨sv, hreq, rfl⟩ := Option.map_eq_some_iff.1 hr
  exact ⟨c, d, ds, sv, hc, hq, hreq, rfl⟩

/-- A message is answered, and the logins of the others go on. -/
theorem login_request {cd : Codec M} {w w' : World M} (h : LoginInv w) {n : Slot} {db : Db} {junk : Bytes}
    (hok : CreateFails cd db w n = false) (hs : w.take cd n db junk = some w') : LoginInv w' := by
  obtain ⟨c, d, ds, sv, hc, hq, hreq, rfl⟩ := take_cases hs
  obtain ⟨es, b, hres, hout, -⟩ := resolves_of_client hreq hc
  have hout : sv.out = es := hout
  have hcons := hres.cons hc
  refine h.server rfl (fun m k hk => by rwa [hcons] at hk) (fun k => ?_) (List.subset_append_left _ _) fun k => ?_
  · by_cases hk : k = c.con
    · subst hk; simp [Peer.deliver]
    · simp [Peer.deliver, hk]
  · dsimp only
    rw [hout]
    by_cases hk : k = c.con
    · subst hk
      rw [Function.update_self]
      exact h.sender hc hq hok hres
    · rw [Function.update_of_ne hk]
      exact h.bystander hc hk hres _

/-- A client has left, and nobody else is in its login. -/
theorem login_closed {cd : Codec M} {w w' : World M} (h : LoginInv w) {n : Slot} {db : Db} {junk : Bytes} {d : M}
    (hgone : (w.round.server.clients n).any fun c => (w.peers c.con).pc = .gone ∧ (w.peers c.con).toServer.isEmpty)
    (hok : ∀ m, m ≠ n → InLogin w m = false) (hs : w.serve cd (.request n db junk false d) = some w') :
    LoginInv w' := by
  obtain ⟨r, hr, rfl⟩ := serve_cases hs
  obtain ⟨sv, hreq, rfl⟩ := Option.map_eq_some_iff.1 hr
  obtain ⟨c, hc, rfl⟩ := resolve_closed hreq
  have hcn : w.round.server.clients n = some c := hc
  have hleft : (w.peers c.con).pc = .gone := by
    rw [hcn, Option.any_some] at hgone
    exact (of_decide_eq_true hgone).1
  -- Whoever is in its login sits in another slot.
  have hne : ∀ m c', w.round.server.clients m = some c' → (w.peers c'.con).pc.login = true → m ≠ n := by
    rintro m c' hm hp rfl
    rw [Option.some.inj (hm.symm.trans hcn), hleft] at hp
    cases hp
  refine h.server rfl (fun m k hm => disconnect_cons (c := c) hm) (fun _ => rfl) (List.Subset.refl _) fun k =>
    (h.settled k).deliver (fun hle => ?_) (fun m c' hm hcc hp hl _ => ?_) (fun m c' hm hcc hp hl => ?_)
      (List.Subset.refl _)
  · refine mail_waiting h hle (fun _ _ h => h) fun why con msg hmem => ?_
    simp only [disconnect, emit_out, List.nil_append, List.mem_append, List.mem_singleton, reduceCtorEq, or_false] at hmem
    obtain ⟨i, c', hi, he⟩ := mem_forClients.1 hmem
    obtain ⟨-, he⟩ := Option.ite_none_right_eq_some.1 he
    cases he
    exact ⟨i, cons_eq_some.2 ⟨c', hi, rfl⟩⟩
  · subst hcc
    exact absurd (inLogin_of hm hl hp) (by simp [hok m (hne m c' hm hp)])
  · subst hcc
    exact ⟨c', by simp [disconnect, hne m c' hm hp, hm], rfl, hl⟩

/-- `playerLost` changes states only. -/
theorem playersLost_states {l : List Slot} {s s' : Server} (h : playersLost l s = some s') :
    s'.out = s.out ∧ ∀ n c, s.clients n = some c → ∃ st, s'.clients n = some { c with state := st } := by
  induction l generalizing s with
  | nil => cases h; exact ⟨rfl, fun n c hc => ⟨c.state, hc⟩⟩
  | cons i l ih =>
    obtain ⟨c, hc, hl⟩ := playersLost_first.1 h
    obtain ⟨ho, hst⟩ := ih hl
    refine ⟨ho, fun n c' hc' => ?_⟩
    by_cases hn : n = i
    · subst hn
      rw [← Option.some.inj (hc.symm.trans hc')]
      exact hst n { c with state := .loose } (Function.update_self ..)
    · exact hst n c' (by rw [setClient_clients, Function.update_of_ne hn]; exact hc')

/-- A tick with nobody in its login. -/
theorem login_tick {cd : Codec M} {w w' : World M} (h : LoginInv w) {off : Slot → UInt8}
    (hok : ∀ m, InLogin w m = false) (hs : w.serve cd (.tick off) = some w') : LoginInv w' := by
  obtain ⟨r, hr, rfl⟩ := serve_cases hs
  obtain ⟨-, hr⟩ := Option.ite_none_right_eq_some.1 hr
  obtain ⟨sv, ht, rfl⟩ := Option.map_eq_some_iff.1 hr
  have hcons := (tick_cons ht).1
  obtain ⟨b, -, ht⟩ := Option.bind_eq_some_iff.1 ht
  obtain ⟨u, hu, rfl⟩ := Option.map_eq_some_iff.1 ht
  obtain ⟨ho, hst⟩ := playersLost_states hu
  refine h.server rfl (fun m k hm => by rwa [hcons] at hm) (fun _ => rfl) (List.Subset.refl _) fun k =>
    (h.settled k).deliver (fun hle => ?_) (fun m c hm hcc hp hl _ => ?_) (fun m c hm hcc _ hl => ?_)
      (List.Subset.refl _)
  · refine mail_waiting h hle (t := u.clients) (fun m k hm => by rw [← hcons]; exact hm) fun why con msg hmem => ?_
    simp only [emit_out, ho, List.nil_append] at hmem
    obtain ⟨i, c', hi, he⟩ := mem_forClients.1 hmem
    cases he
    exact ⟨i, cons_eq_some.2 ⟨c', hi, rfl⟩⟩
  · subst hcc
    exact absurd (inLogin_of hm hl hp) (by simp [hok m])
  · obtain ⟨st, hm'⟩ := hst m c hm
    exact ⟨_, hm', hcc, hl⟩

/-- The end of the game with nobody in its login. -/
theorem login_finish {w : World M} (h : LoginInv w) (hok : ∀ m, InLogin w m = false) :
    LoginInv { w with
      round := { w.round with server := sendResults { w.round.server with out := [] } }
      peers := fun k => (w.peers k).deliver (sendResults { w.round.server with out := [] }).out k
      ended := true } := by
  refine h.server rfl (fun m k hm => hm) (fun _ => rfl) (List.Subset.refl _) fun k =>
    (h.settled k).deliver (fun hle => ?_) (fun m c hm hcc hp hl _ => ?_) (fun m c hm hcc _ hl => ⟨c, hm, hcc, hl⟩)
      (List.Subset.refl _)
  · refine mail_waiting h hle (fun _ _ h => h) fun why con msg hmem => ?_
    simp only [sendResults, emit_out, List.nil_append, List.mem_flatMap, mem_occupied] at hmem
    obtain ⟨i, ⟨c, hc⟩, hres⟩ := hmem
    rw [hc, Option.elim_some, resultOf] at hres
    have hcon : con = c.con := by
      split at hres <;>
        simp only [List.mem_cons, reduceCtorEq, false_or, Effect.send.injEq, List.not_mem_nil, or_false] at hres <;>
        exact hres.2.1
    exact ⟨i, cons_eq_some.2 ⟨c, hc, hcon.symm⟩⟩
  · subst hcc
    exact absurd (inLogin_of hm hl hp) (by simp [hok m])

/-! ## The run -/

theorem login_step {cd : Codec M} {w w' : World M} {a : LoginAct M} (h : LoginInv w) (hok : Undisturbed cd w a)
    (hs : loginStep cd w a = some w') : LoginInv w' := by
  cases a with
  | connect =>
    simp only [loginStep] at hs
    split at hs
    · cases hs
    · rw [← Option.some.inj hs]; exact login_connect h
  | send k d =>
    obtain ⟨pc, hpc, rfl⟩ := Option.map_eq_some_iff.1 hs
    exact login_send h hpc d
  | read k =>
    simp only [loginStep] at hs
    split at hs
    · cases hs
    · rename_i x xs hq
      obtain ⟨pc, hpc, rfl⟩ := Option.map_eq_some_iff.1 hs
      exact login_read h hq hpc
  | leave k =>
    simp only [loginStep] at hs
    split at hs
    · cases hs
    · rename_i habs
      rw [← Option.some.inj hs]
      exact h.client habs (fun hp => by simp [Pc.login] at hp) (fun hr => by simp at hr) h.reads
  | accept n =>
    obtain ⟨hlt, hs⟩ := Option.ite_none_right_eq_some.1 hs
    exact login_accept h hlt hs
  | request n db junk => exact login_request h hok hs
  | closed n db junk d =>
    obtain ⟨hg, hs⟩ := Option.ite_none_right_eq_some.1 hs
    exact login_closed h hg hok hs
  | initBoard garbage =>
    obtain ⟨r, hr, rfl⟩ := serve_cases hs
    obtain ⟨-, hr⟩ := Option.ite_none_right_eq_some.1 hr
    cases hr
    exact login_silent h rfl rfl rfl
  | loadSnake n =>
    obtain ⟨r, hr, rfl⟩ := serve_cases hs
    obtain ⟨-, hr⟩ := Option.ite_none_right_eq_some.1 hr
    unfold loadSlot at hr
    split at hr
    · cases hr; exact login_silent h rfl rfl rfl
    · obtain ⟨b, -, rfl⟩ := Option.map_eq_some_iff.1 hr; exact login_silent h rfl rfl rfl
  | loaded =>
    obtain ⟨r, hr, rfl⟩ := serve_cases hs
    obtain ⟨-, hr⟩ := Option.ite_none_right_eq_some.1 hr
    cases hr
    exact login_silent h rfl rfl rfl
  | tick off => exact login_tick h hok hs
  | finish =>
    obtain ⟨-, hs⟩ := Option.ite_none_right_eq_some.1 hs
    cases hs
    exact login_finish h hok

theorem login_start : LoginInv (World.start : World M) where
  below := Nat.le_refl _
  absent _ _ := rfl
  cons_lt _ _ h := by cases h
  cons_inj _ _ _ h := by cases h
  settled _ hp := by cases hp
  returned _ hp := by cases hp
  reads _ hr := by cases hr

/-- While nobody's login is disturbed, a client returns from `getInformation`
only after its own password got its slot to WAITING, and every message it
reads there is the BOOLEAN reply to the message it sent last. -/
theorem replies_in_step {cd : Codec M} {w : World M} (h : (loginMachine cd).ReachesBy (Undisturbed cd) w) :
    (∀ k, (w.peers k).pc = .returned → k ∈ w.admitted) ∧ ∀ r ∈ w.reads, r.Answers := by
  have hi : LoginInv w :=
    h.inv (I := LoginInv) (fun w hw => by rw [hw]; exact login_start) fun _ _ _ hi hok hs => login_step hi hok hs
  exact ⟨hi.returned, hi.reads⟩

/-- Two clients connect, and the first one sends its name. -/
def twoConnect : List (LoginAct Bytes) := [.connect, .accept 0, .connect, .accept 1, .send 0 [97]]

/-- The first one logs in: the replies TRUE to its name and to its password. -/
theorem replies_in_step_login : ∃ w, (loginMachine eagerCodec).ReachesBy (Undisturbed eagerCodec) w ∧
    (w.peers 0).pc = .returned ∧ w.reads.length = 2 ∧
    (∀ k, (w.peers k).pc = .returned → k ∈ w.admitted) ∧ ∀ r ∈ w.reads, r.Answers := by
  have hr : (loginMachine eagerCodec).ReachesBy (Undisturbed eagerCodec) _ :=
    Machine.reachesBy_of_runActs
      (l := twoConnect ++ [.request 0 trusting [], .read 0, .send 0 [98], .request 0 trusting [], .read 0]) (.init rfl) rfl
  exact ⟨_, hr, rfl, rfl, replies_in_step hr⟩

/-- The second one leaves before the first one's name is answered: the first
one reads the leave notice for the answer. -/
theorem leave_notice_read_as_reply : ∃ w, (loginMachine eagerCodec).Reaches w ∧ ¬∀ r ∈ w.reads, r.Answers := by
  have hr : (loginMachine eagerCodec).Reaches _ :=
    Machine.reachesBy_of_runActs (l := twoConnect ++ [.leave 1, .closed 1 trusting [] [], .read 0]) (.init rfl) rfl
  refine ⟨_, hr, fun h => ?_⟩
  have h0 := (h ⟨0, 1, ⟨.leave, 0, .string [49]⟩⟩ (by exact List.mem_singleton.2 rfl)).1
  cases h0

end Snuffin.ChildServer
