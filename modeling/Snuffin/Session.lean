import Snuffin.ChildServer
import Snuffin.Lib.Machine
/-!
# Who may be in the lobby and in the game

A session is two fields, `state` and `expecting`, written by six functions.
`SlotOk` links them to what the database has answered about the slot's name
since its connection was accepted. `resolve_cases` sums up `resolveRequest`,
and the step lemma is a case analysis over it.
-/
open Lib Snuffin.Game

namespace Snuffin.ChildServer

/-! ## What a request does -/

/-- What a message of client `c` in slot `n` does: the table after it, its
effects in order, and whether it starts the game. -/
inductive Resolved {M : Type} (cd : Codec M) (db : Db) (d : M) (n : Slot) (c : Client) (t : Table) :
    Table → List Effect → Bool → Prop
  /-- The message cannot be decoded, or is a direction. -/
  | kept (es : List Effect) : (es = [] ∨ ∃ p, es = [.updateMovementDirection n p] ∧ c.expecting = .movement) →
      Resolved cd db d n c t t es false
  /-- A name is stored, and a password comes next. -/
  | named (name : Bytes) (e : Expecting) (score : Int) (es : List Effect) (b : Bool) : c.expecting = .user →
      (e = .password ∨ e = .newPassword) → (∀ why con m, .send why con m ∉ es) →
      Resolved cd db d n c t
        (Function.update t n (some { c with expecting := e, score := some score, name := some name }))
        (es ++ [.send .reply c.con (.boolean b)]) false
  /-- The password is wrong. -/
  | refused (password : Bytes) (ans : Int) : c.expecting = .password →
      Resolved cd db d n c t t
        [.validPassword c.name password ans, .send .reply c.con (.boolean false)] false
  /-- The user cannot be created. The notices go out all the same. -/
  | rejected (password : Bytes) : c.expecting = .newPassword → cd.unmarshString d = some password →
      db.createUser c.name password ≠ 0 →
      Resolved cd db d n c t t
        (.createUser c.name password (db.createUser c.name password) :: .send .reply c.con (.boolean false) ::
          (newPlayerNotices t n c ++ existingPlayersNotices t c)) false
  /-- The password is right, or the user is created. -/
  | admitted (asked : Effect) (t' : Table) : t' = Function.update t n (some c.toLobby) →
      (c.expecting = .password ∧ (∃ p ans, asked = .validPassword c.name p ans ∧ ans ≠ 0) ∨
        c.expecting = .newPassword ∧ ∃ p, asked = .createUser c.name p 0) →
      Resolved cd db d n c t t'
        (asked :: .send .reply c.con (.boolean true) ::
          (newPlayerNotices t' n c.toLobby ++ existingPlayersNotices t' c.toLobby)) false
  /-- The player is ready, or no longer, and the game does not start. -/
  | toggled (st : State) (t' : Table) : c.expecting = .readyToPlay → (st = .readyPlay ∨ st = .waiting) →
      t' = Function.update t n (some { c with state := st }) → (st = .readyPlay → allReady t' = false) →
      Resolved cd db d n c t t' (newPlayerNotices t' n { c with state := st }) false
  /-- The last player is ready and the game starts. -/
  | started (t' : Table) : c.expecting = .readyToPlay →
      t' = Function.update t n (some { c with state := .readyPlay }) → allReady t' = true →
      Resolved cd db d n c t (fun i => (t' i).map Client.start)
        (newPlayerNotices t' n { c with state := .readyPlay } ++ startNotices t') true

/-- `s'` is `s` after one of these. -/
def Resolves {M : Type} (cd : Codec M) (db : Db) (d : M) (n : Slot) (c : Client) (s s' : Server) : Prop :=
  ∃ es b, Resolved cd db d n c s.clients s'.clients es b ∧ s'.out = s.out ++ es ∧ s'.startGame = (b || s.startGame)

section Branches
variable {M : Type} (cd : Codec M) (db : Db) (d : M) (n : Slot) (c : Client) (s : Server)

theorem resolves_kept : Resolves cd db d n c s s :=
  ⟨[], false, .kept _ (.inl rfl), by simp, rfl⟩

theorem validateUser_resolves (he : c.expecting = .user) : Resolves cd db d n c s (validateUser cd db d n c s) := by
  unfold validateUser
  split
  · exact resolves_kept cd db d n c s
  · rename_i name _
    dsimp only
    split
    · exact ⟨_, _, .named name .password _ [.existUser name (db.existUser name), .getHighScore name (db.getHighScore name)]
        true he (.inl rfl) (by simp), by simp, rfl⟩
    · exact ⟨_, _, .named name .newPassword _ [.existUser name (db.existUser name)] false he (.inr rfl) (by simp),
        by simp, rfl⟩

theorem newPassword_resolves (he : c.expecting = .newPassword) :
    Resolves cd db d n c s (newPassword cd db d n c s) := by
  unfold newPassword
  split
  · exact resolves_kept cd db d n c s
  · rename_i p hp
    dsimp only
    split
    · rename_i ha
      exact ⟨_, _, .admitted (.createUser c.name p 0) _ rfl (.inr ⟨he, p, rfl⟩),
        by simp [notifyNewPlayer, notifyExistingPlayers, ha], rfl⟩
    · exact ⟨_, _, .rejected p he hp ‹_›, by simp [notifyNewPlayer, notifyExistingPlayers], rfl⟩

theorem readyToPlay_resolves (he : c.expecting = .readyToPlay) :
    Resolves cd db d n c s (readyToPlay cd d n c s) := by
  unfold readyToPlay
  split
  · exact resolves_kept cd db d n c s
  · dsimp only [checkGameStart]
    split
    · rename_i ha
      exact ⟨_, _, .started _ he rfl ha, by simp [notifyNewPlayer, sendGameStart], rfl⟩
    · rename_i ha
      exact ⟨_, _, .toggled .readyPlay _ he (.inl rfl) rfl (fun _ => by simpa using ha), by simp [notifyNewPlayer], rfl⟩
  · exact ⟨_, _, .toggled .waiting _ he (.inr rfl) rfl (by simp), by simp [notifyNewPlayer], rfl⟩

theorem movement_resolves (he : c.expecting = .movement) : Resolves cd db d n c s (movement cd d n s) := by
  unfold movement
  split
  · exact resolves_kept cd db d n c s
  · rename_i p _
    exact ⟨_, _, .kept _ (.inr ⟨p, rfl, he⟩), by simp, rfl⟩

end Branches

/-- A closed connection empties the slot. -/
theorem resolve_closed {M : Type} {cd : Codec M} {db : Db} {junk : Bytes} {d : M} {n : Slot} {s s' : Server}
    (h : resolveRequest cd db junk false d n s = some s') :
    ∃ c, s.clients n = some c ∧ s' = disconnect n c s := by
  obtain ⟨c, hc⟩ := client_of_resolve h
  rw [resolve_left hc, Option.some.injEq] at h
  exact ⟨c, hc, h.symm⟩

/-- A message does one of the things `Resolved` lists. -/
theorem resolve_cases {M : Type} {cd : Codec M} {db : Db} {junk : Bytes} {d : M} {n : Slot} {s s' : Server}
    (h : resolveRequest cd db junk true d n s = some s') :
    ∃ c, s.clients n = some c ∧ Resolves cd db d n c s s' := by
  obtain ⟨c, hc⟩ := client_of_resolve h
  refine ⟨c, hc, ?_⟩
  cases he : c.expecting with
  | user =>
    rw [resolve_user hc he, Option.some.injEq] at h
    rw [← h]
    exact validateUser_resolves cd db d n c s he
  | password =>
    by_cases ha : db.validPassword c.name ((cd.unmarshString d).getD junk) ≠ 0
    · rw [resolve_accepted hc he rfl ha, Option.some.injEq] at h
      subst h
      exact ⟨_, _, .admitted (.validPassword c.name _ _) _ rfl (.inl ⟨he, _, _, rfl, ha⟩),
        by simp [notifyNewPlayer, notifyExistingPlayers]; rfl, rfl⟩
    · rw [resolve_refused hc he rfl ha, Option.some.injEq] at h
      subst h
      exact ⟨_, _, .refused _ _ he, by simp; exact ⟨rfl, rfl⟩, rfl⟩
  | newPassword =>
    rw [resolve_newPassword hc he, Option.some.injEq] at h
    rw [← h]
    exact newPassword_resolves cd db d n c s he
  | readyToPlay =>
    rw [resolve_ready hc he, Option.some.injEq] at h
    rw [← h]
    exact readyToPlay_resolves cd db d n c s he
  | movement =>
    rw [resolve_movement hc he, Option.some.injEq] at h
    rw [← h]
    exact movement_resolves cd db d n c s he

theorem resolves_of_client {M : Type} {cd : Codec M} {db : Db} {junk : Bytes} {d : M} {n : Slot} {s s' : Server} {c : Client}
    (h : resolveRequest cd db junk true d n s = some s') (hc : s.clients n = some c) : Resolves cd db d n c s s' := by
  obtain ⟨c', hc', hr⟩ := resolve_cases h
  rwa [Option.some.inj (hc.symm.trans hc')]

/-! ## Sessions -/

/-- A child server, with what the database has answered to the requests of
each slot since the slot's connection was accepted. -/
structure Session where
  server : Server
  answers : Slot → List Effect

inductive SessionAct (M : Type) where
  | accept (n : Slot) (con : Nat)
  | request (n : Slot) (db : Db) (junk : Bytes) (res : Bool) (d : M)
  | disconnect (n : Slot)
  | playerLost (n : Slot)

/-- A child server under any accepted connections, requests, departures and
lost snakes. -/
def sessionMachine {M : Type} (cd : Codec M) : Machine Session (SessionAct M) where
  init s := s.server.clients = fun _ => none
  step s a s' :=
    match a with
    | .accept n con => s' = ⟨s.server.setClient n (newClient con), Function.update s.answers n []⟩
    | .request n db junk res d =>
      ∃ sv, resolveRequest cd db junk res d n { s.server with out := [] } = some sv ∧
        s' = ⟨sv, Function.update s.answers n (s.answers n ++ sv.out)⟩
    | .disconnect n => ∃ c, s.server.clients n = some c ∧ s' = ⟨disconnect n c s.server, s.answers⟩
    | .playerLost n => ∃ sv, playerLost n s.server = some sv ∧ s' = ⟨sv, s.answers⟩

/-- The database has answered for `name` that the password is right (C takes
every answer but 0 for that) or that the user was created. -/
def Accepted (name : Bytes) (log : List Effect) : Prop :=
  (∃ p ans, .validPassword (some name) p ans ∈ log ∧ ans ≠ 0) ∨ ∃ p, .createUser (some name) p 0 ∈ log

theorem Accepted.mono {name : Bytes} {log : List Effect} (es : List Effect) (h : Accepted name log) :
    Accepted name (log ++ es) := by
  rcases h with ⟨p, ans, h, ha⟩ | ⟨p, h⟩
  · exact .inl ⟨p, ans, List.mem_append_left _ h, ha⟩
  · exact .inr ⟨p, List.mem_append_left _ h⟩

/-- The session of a client and the answers of its slot agree. -/
structure SlotOk (c : Client) (log : List Effect) : Prop where
  named : c.expecting ≠ .user → ∃ name, c.name = some name
  past : c.expecting = .readyToPlay ∨ c.expecting = .movement → ∃ name, c.name = some name ∧ Accepted name log
  login : c.expecting = .user ∨ c.expecting = .password ∨ c.expecting = .newPassword →
    c.state = .logging ∨ c.state = .loose

def SessionInv (s : Session) : Prop := ∀ n c, s.server.clients n = some c → SlotOk c (s.answers n)

/-! ## One lemma per change of a slot -/

theorem slotOk_new (con : Nat) : SlotOk (newClient con) [] :=
  ⟨by simp [newClient], by simp [newClient], by simp [newClient]⟩

theorem SlotOk.mono {c : Client} {log : List Effect} (h : SlotOk c log) (es : List Effect) : SlotOk c (log ++ es) where
  named := h.named
  past hp := by
    obtain ⟨name, hn, ha⟩ := h.past hp
    exact ⟨name, hn, ha.mono es⟩
  login := h.login

/-- A slot that is past the login stays so, whatever its state. -/
theorem SlotOk.past_state {c : Client} {log : List Effect} (h : SlotOk c log)
    (he : c.expecting = .readyToPlay ∨ c.expecting = .movement) (st : State) : SlotOk { c with state := st } log where
  named := h.named
  past := h.past
  login hl := by rcases he with he | he <;> simp [he] at hl

theorem SlotOk.lost {c : Client} {log : List Effect} (h : SlotOk c log) : SlotOk { c with state := .loose } log where
  named := h.named
  past := h.past
  login _ := .inr rfl

/-- A slot in WAITING, READY_PLAY or PLAYING is past the login. -/
theorem SlotOk.past_of_state {c : Client} {log : List Effect} (h : SlotOk c log)
    (hs : c.state = .waiting ∨ c.state = .readyPlay ∨ c.state = .playing) :
    c.expecting = .readyToPlay ∨ c.expecting = .movement := by
  have hl : c.state ≠ .logging ∧ c.state ≠ .loose := by rcases hs with hs | hs | hs <;> simp [hs]
  have hn : ¬(c.expecting = .user ∨ c.expecting = .password ∨ c.expecting = .newPassword) :=
    fun he => (h.login he).elim hl.1 hl.2
  cases he : c.expecting <;> simp [he] at hn ⊢

theorem SlotOk.named_next {c : Client} {log : List Effect} (h : SlotOk c log) (hu : c.expecting = .user)
    {name : Bytes} {e : Expecting} (score : Int) (he : e = .password ∨ e = .newPassword) :
    SlotOk { c with expecting := e, score := some score, name := some name } log where
  named _ := ⟨name, rfl⟩
  past hp := by rcases he with rfl | rfl <;> simp at hp
  login _ := h.login (.inl hu)

theorem SlotOk.toLobby {c : Client} {log : List Effect} (h : SlotOk c log) {asked : Effect}
    (ha : c.expecting = .password ∧ (∃ p ans, asked = .validPassword c.name p ans ∧ ans ≠ 0) ∨
      c.expecting = .newPassword ∧ ∃ p, asked = .createUser c.name p 0) (es : List Effect) :
    SlotOk c.toLobby (log ++ asked :: es) := by
  obtain ⟨name, hn⟩ := h.named (by rcases ha with ⟨he, -⟩ | ⟨he, -⟩ <;> simp [he])
  have hacc : Accepted name (log ++ asked :: es) := by
    rcases ha with ⟨-, p, ans, rfl, h0⟩ | ⟨-, p, rfl⟩
    · exact .inl ⟨p, ans, by simp [hn], h0⟩
    · exact .inr ⟨p, by simp [hn]⟩
  exact ⟨fun _ => ⟨name, hn⟩, fun _ => ⟨name, hn, hacc⟩, by simp [Client.toLobby]⟩

theorem SlotOk.start {c : Client} {log : List Effect} (h : SlotOk c log)
    (he : c.expecting = .readyToPlay ∨ c.expecting = .movement) : SlotOk c.start log where
  named _ := h.named (by rcases he with he | he <;> simp [he])
  past _ := h.past he
  login := by simp [Client.start]

/-! ## The step and the run -/

/-- Replacing one client by one that is fine keeps the invariant. -/
theorem sessionInv_update {t : Table} {answers : Slot → List Effect} {n : Slot} {c : Client} {log : List Effect}
    (h : ∀ m c, t m = some c → SlotOk c (answers m)) (hc : SlotOk c log) :
    ∀ m c', Function.update t n (some c) m = some c' → SlotOk c' (Function.update answers n log m) := by
  intro m c' hm
  by_cases hmn : m = n
  · subst hmn
    simp only [Function.update_self, Option.some.injEq] at hm ⊢
    exact hm ▸ hc
  · simp only [Function.update_of_ne hmn] at hm ⊢
    exact h m c' hm

theorem sessionInv_message {M : Type} {cd : Codec M} {db : Db} {d : M} {n : Slot} {c : Client} {t t' : Table}
    {answers : Slot → List Effect} {es : List Effect} {b : Bool} (hc : t n = some c)
    (h : ∀ m c, t m = some c → SlotOk c (answers m)) (hr : Resolved cd db d n c t t' es b) :
    ∀ m c', t' m = some c' → SlotOk c' (Function.update answers n (answers n ++ es) m) := by
  have hn := h n c hc
  -- More answers do no harm to the slot they belong to.
  have hkeep : ∀ m c', t m = some c' → SlotOk c' (Function.update answers n (answers n ++ es) m) := by
    intro m c' hm
    by_cases hmn : m = n
    · subst hmn; simpa using (h m c' hm).mono es
    · simpa [hmn] using h m c' hm
  cases hr with
  | kept => exact hkeep
  | named name e score es b hu he _ => exact sessionInv_update h ((hn.named_next hu score he).mono _)
  | refused => exact hkeep
  | rejected => exact hkeep
  | admitted asked _ ht ha => subst ht; exact sessionInv_update h (hn.toLobby ha _)
  | toggled st _ he _ ht _ => subst ht; exact sessionInv_update h ((hn.past_state (.inl he) st).mono _)
  | started u he ht hall =>
    have hu := sessionInv_update (n := n) h
      ((hn.past_state (.inl he) .readyPlay).mono (newPlayerNotices u n { c with state := .readyPlay } ++ startNotices u))
    rw [← ht] at hu
    intro m c' hm
    obtain ⟨c₀, h₀, rfl⟩ := Option.map_eq_some_iff.1 hm
    have hm' := hu m c₀ h₀
    -- Only READY_PLAY slots are started, and those are past the login.
    exact hm'.start (hm'.past_of_state (.inr (.inl ((allReady_iff.1 hall).1 m c₀ h₀))))

theorem sessionInv_remove {t : Table} {answers : Slot → List Effect} (n : Slot) (f : Slot → List Effect)
    (hf : ∀ m, m ≠ n → f m = answers m) (h : ∀ m c, t m = some c → SlotOk c (answers m)) :
    ∀ m c', Function.update t n none m = some c' → SlotOk c' (f m) := by
  intro m c' hm
  by_cases hmn : m = n
  · subst hmn; simp at hm
  · rw [Function.update_of_ne hmn] at hm
    rw [hf m hmn]; exact h m c' hm

theorem session_step {M : Type} {cd : Codec M} {s s' : Session} {a : SessionAct M} (h : SessionInv s)
    (hs : (sessionMachine cd).step s a s') : SessionInv s' := by
  cases a with
  | accept n con =>
    simp only [sessionMachine] at hs
    subst hs
    exact sessionInv_update h (slotOk_new con)
  | request n db junk res d =>
    obtain ⟨sv, hr, rfl⟩ := hs
    cases res with
    | false =>
      obtain ⟨c, -, rfl⟩ := resolve_closed hr
      exact sessionInv_remove n _ (fun m hm => by simp [hm]) h
    | true =>
      obtain ⟨c, hc, es, b, hres, hout, -⟩ := resolve_cases hr
      rw [List.nil_append] at hout
      simp only [SessionInv, hout]
      exact sessionInv_message hc h hres
  | disconnect n =>
    obtain ⟨c, -, rfl⟩ := hs
    exact sessionInv_remove n _ (fun _ _ => rfl) h
  | playerLost n =>
    obtain ⟨sv, hp, rfl⟩ := hs
    obtain ⟨c, hc, rfl⟩ := Option.map_eq_some_iff.1 hp
    have hu := sessionInv_update (n := n) h (h n c hc).lost
    rwa [Function.update_eq_self] at hu

theorem session_inv {M : Type} {cd : Codec M} {s : Session} (h : (sessionMachine cd).Reaches s) : SessionInv s :=
  h.inv (fun s hs n c hc => by rw [show s.server.clients n = none from congrFun hs n] at hc; cases hc)
    fun _ _ _ hi _ hs => session_step hi hs

/-- Whoever is in WAITING, READY_PLAY or PLAYING, or is expected to send
READY_TO_PLAY or MOVEMENT, has an answer of the database for the name now in
its slot, given since its connection was accepted: the password is right, or
the user was created. -/
theorem admitted_by_database {M : Type} {cd : Codec M} {s : Session} (h : (sessionMachine cd).Reaches s) {n : Slot}
    {c : Client} (hc : s.server.clients n = some c)
    (hs : c.state = .waiting ∨ c.state = .readyPlay ∨ c.state = .playing ∨
      c.expecting = .readyToPlay ∨ c.expecting = .movement) :
    ∃ name, c.name = some name ∧ Accepted name (s.answers n) := by
  have hi := session_inv h n c hc
  rcases hs with hs | hs | hs | hs
  · exact hi.past (hi.past_of_state (.inl hs))
  · exact hi.past (hi.past_of_state (.inr (.inl hs)))
  · exact hi.past (hi.past_of_state (.inr (.inr hs)))
  · exact hi.past hs

/-- A codec that takes every message for a string. -/
def textCodec : Codec Bytes := ⟨some, fun _ => none, fun _ => none⟩

/-- A database that knows every user and takes every password. -/
def trusting : Db := ⟨fun _ => 1, fun _ => 0, fun _ _ => 1, fun _ _ => 1⟩

/-- A login: accepted in slot 0, the name "a", a password. -/
theorem admitted_by_database_login : ∃ s c, (sessionMachine textCodec).Reaches s ∧ s.server.clients 0 = some c ∧
    c.state = .waiting ∧ ∃ name, c.name = some name ∧ Accepted name (s.answers 0) := by
  have h0 : (sessionMachine textCodec).Reaches ⟨⟨fun _ => none, false, none, []⟩, fun _ => []⟩ := .init rfl
  have h1 := h0.next (.accept 0 7) rfl
  have h2 := h1.next (.request 0 trusting [] true [97]) ⟨_, rfl, rfl⟩
  have h3 := h2.next (.request 0 trusting [] true [98]) ⟨_, rfl, rfl⟩
  exact ⟨_, _, h3, rfl, rfl, admitted_by_database h3 rfl (.inl rfl)⟩

end Snuffin.ChildServer
