import Snuffin.GameStart
import Snuffin.Wire
/-!
# What a request leaves alone

A request is about one slot. The one step in which it writes the others is the
start of the game, after the TRUE that makes all ready. A message that its
decoder refuses changes nothing at all, unless a password is expected: there
the caller does not look at what the decoder returned.
-/
open Lib Snuffin.Game Snuffin.Marshalling

namespace Snuffin.ChildServer

/-! ## The start -/

/-- The table with the client of slot `n` recorded as READY_PLAY. -/
def recorded (t : Table) (n : Slot) : Table :=
  Function.update t n ((t n).map fun c => { c with state := .readyPlay })

/-- Slot `n` expects READY_TO_PLAY, the message is TRUE, and with it at least
two slots are occupied and all are READY_PLAY. -/
structure Starts {M : Type} (cd : Codec M) (res : Bool) (d : M) (n : Slot) (t : Table) : Prop where
  received : res = true
  expecting : ∃ c, t n = some c ∧ c.expecting = .readyToPlay
  message : cd.unmarshBoolean d = some true
  ready : ∀ i c, recorded t n i = some c → c.state = .readyPlay
  two : 2 ≤ (occupied (recorded t n)).length

/-- The messages of `sendGameStart`. -/
def isStart : Effect → Bool
  | .send .start _ _ => true
  | _ => false

/-- Nothing on the board changes but the direction of slot `n`. -/
def OnlyTurns (n : Slot) (o o' : Option GameBoard) : Prop :=
  o' = o ∨ ∃ p, o' = o.map fun b => { b with pDir := Function.update b.pDir n p }

section Request
variable {M : Type} {cd : Codec M} {db : Db} {junk : Bytes} {res : Bool} {d : M} {n : Slot} {s s' : Server}

theorem recorded_eq {t : Table} {c : Client} (hc : t n = some c) :
    recorded t n = Function.update t n (some { c with state := .readyPlay }) := by
  rw [recorded, hc, Option.map_some]

theorem starts_new (t : Table) (m : Slot) (c : Client) : ∀ e ∈ newPlayerNotices t m c, isStart e = false := by
  intro e he
  obtain ⟨i, ci, -, hi⟩ := mem_forClients.1 he
  obtain ⟨-, hi⟩ := Option.ite_none_right_eq_some.1 hi
  rw [← Option.some.inj hi]
  rfl

theorem starts_existing (t : Table) (c : Client) : ∀ e ∈ existingPlayersNotices t c, isStart e = false := by
  intro e he
  obtain ⟨i, ci, -, hi⟩ := mem_forClients.1 he
  rw [← Option.some.inj hi]
  rfl

theorem starts_leave (t : Table) (c : Client) : ∀ e ∈ leaveNotices t n ++ [.freeName c.name], isStart e = false := by
  intro e he
  rcases List.mem_append.1 he with he | he
  · obtain ⟨i, ci, -, hi⟩ := mem_forClients.1 he
    obtain ⟨-, hi⟩ := Option.ite_none_right_eq_some.1 hi
    rw [← Option.some.inj hi]
    rfl
  · rw [List.mem_singleton.1 he]
    rfl

/-- A message that does not start the game writes its own slot only, and sends
no start message. -/
theorem Resolved.own {c : Client} {t t' : Table} {es : List Effect} (h : Resolved cd db d n c t t' es false) :
    (∀ m, m ≠ n → t' m = t m) ∧ ∀ e ∈ es, isStart e = false := by
  have hupdate : ∀ u m, m ≠ n → Function.update t n u m = t m := fun u m hm => Function.update_of_ne hm u t
  cases h with
  | kept _ hes =>
    refine ⟨fun _ _ => rfl, ?_⟩
    rcases hes with rfl | ⟨p, rfl, -⟩
    · simp
    · simp [isStart]
  | named name e score es b hu he hsend =>
    refine ⟨hupdate _, fun e he => ?_⟩
    rcases List.mem_append.1 he with he | he
    · cases e with
      | send why con m => exact absurd he (hsend why con m)
      | _ => rfl
    · rw [List.mem_singleton.1 he]
      rfl
  | refused => exact ⟨fun _ _ => rfl, by simp [isStart]⟩
  | rejected =>
    refine ⟨fun _ _ => rfl, ?_⟩
    simp only [List.forall_mem_cons, List.forall_mem_append]
    exact ⟨rfl, rfl, starts_new t n c, starts_existing t c⟩
  | admitted asked t' ht hasked =>
    subst ht
    refine ⟨hupdate _, ?_⟩
    simp only [List.forall_mem_cons, List.forall_mem_append]
    refine ⟨?_, rfl, starts_new _ _ _, starts_existing _ _⟩
    rcases hasked with ⟨-, p, ans, rfl, -⟩ | ⟨-, p, rfl⟩
    · rfl
    · rfl
  | toggled st t' _ _ ht _ =>
    subst ht
    exact ⟨hupdate _, starts_new _ _ _⟩

theorem resolve_isSome (cd : Codec M) (db : Db) (junk : Bytes) (res : Bool) (d : M) {c : Client} (hc : s.clients n = some c) :
    ∃ s', resolveRequest cd db junk res d n s = some s' := by
  cases res with
  | false => exact ⟨_, resolve_left hc⟩
  | true =>
    cases he : c.expecting with
    | user => exact ⟨_, resolve_user hc he⟩
    | password =>
      by_cases ha : db.validPassword c.name ((cd.unmarshString d).getD junk) ≠ 0
      · exact ⟨_, resolve_accepted hc he rfl ha⟩
      · exact ⟨_, resolve_refused hc he rfl ha⟩
    | newPassword => exact ⟨_, resolve_newPassword hc he⟩
    | readyToPlay => exact ⟨_, resolve_ready hc he⟩
    | movement => exact ⟨_, resolve_movement hc he⟩

/-- A message that starts the game is a TRUE that makes all ready. -/
theorem starts_of_resolved {c : Client} {es : List Effect} (hr : resolveRequest cd db junk true d n s = some s')
    (hc : s.clients n = some c) (h : Resolved cd db d n c s.clients s'.clients es true)
    (hout : s'.out = s.out ++ es) : Starts cd true d n s.clients := by
  obtain ⟨hready, hall, con, hcon⟩ := h.start_told
  rw [← recorded_eq hc] at hall
  obtain ⟨h1, h2⟩ := allReady_iff.1 hall
  refine ⟨rfl, ⟨c, hc, hready⟩, ?_, h1, h2⟩
  rw [resolve_ready hc hready, Option.some.injEq] at hr
  cases hb : cd.unmarshBoolean d with
  | none =>
    simp only [readyToPlay, hb] at hr
    rw [← hr, List.self_eq_append_right] at hout
    rw [hout] at hcon
    cases hcon
  | some v =>
    cases v with
    | true => rfl
    | false =>
      simp only [readyToPlay, hb] at hr
      rw [← hr, notifyNewPlayer, emit_out, setClient_out, List.append_cancel_left_eq] at hout
      rw [← hout] at hcon
      cases starts_new _ _ _ _ hcon

/-- What the start does. -/
theorem resolve_starts (h : Starts cd res d n s.clients) {c : Client} (hc : s.clients n = some c) :
    resolveRequest cd db junk res d n s = some
      { s with
        clients := fun i => (recorded s.clients n i).map Client.start
        startGame := true
        out := s.out ++ (newPlayerNotices (recorded s.clients n) n { c with state := .readyPlay } ++
          startNotices (recorded s.clients n)) } := by
  obtain ⟨c', hc', he⟩ := h.expecting
  obtain rfl : c' = c := Option.some.inj (hc'.symm.trans hc)
  obtain rfl := h.received
  have hall : allReady (recorded s.clients n) = true := allReady_iff.2 ⟨h.ready, h.two⟩
  rw [recorded_eq hc] at hall ⊢
  rw [resolve_ready hc he, readyToPlay, h.message]
  dsimp only
  rw [checkGameStart, notifyNewPlayer, emit_clients, setClient_clients, if_pos hall, sendGameStart]
  simp [Server.emit, Server.setClient]

/-- A request changes its own slot only and, on the board, its own direction
only; it starts no game and sends no start message. A closed connection empties
its slot. The exception is the TRUE that makes all of at least two ready, which
starts the game and moves all from READY_PLAY to PLAYING. -/
theorem request_keeps (cd : Codec M) (db : Db) (junk : Bytes) (res : Bool) (d : M) {n : Slot} {s : Server} {c : Client}
    (hc : s.clients n = some c) :
    ∃ s' es, resolveRequest cd db junk res d n s = some s' ∧ s'.out = s.out ++ es ∧
      (¬Starts cd res d n s.clients → (∀ m, m ≠ n → s'.clients m = s.clients m) ∧
        OnlyTurns n s.gameBoard s'.gameBoard ∧ s'.startGame = s.startGame ∧ ∀ e ∈ es, isStart e = false) ∧
      (res = false → s'.clients n = none ∧ s'.gameBoard = s.gameBoard) ∧
      (Starts cd res d n s.clients → s'.startGame = true ∧ s'.gameBoard = s.gameBoard ∧
        (∀ i, s'.clients i = (recorded s.clients n i).map fun c => { c with state := .playing, expecting := .movement }) ∧
        ∀ i c, s'.clients i = some c → .send .start c.con (.boolean true) ∈ es) := by
  by_cases hst : Starts cd res d n s.clients
  · refine ⟨_, _, resolve_starts hst hc, rfl, fun hn => absurd hst hn, fun hf => ?_, fun _ => ?_⟩
    · rw [hst.received] at hf
      cases hf
    · refine ⟨rfl, rfl, fun _ => rfl, fun i c' hi => ?_⟩
      obtain ⟨ci, hci, rfl⟩ := Option.map_eq_some_iff.1 hi
      exact List.mem_append_right _ (mem_forClients.2 ⟨i, ci, hci, rfl⟩)
  · obtain ⟨s', hs'⟩ := resolve_isSome cd db junk res d hc
    have hboard : OnlyTurns n s.gameBoard s'.gameBoard := by
      rcases resolve_board hs' with hb | ⟨-, p, -, -, -, -, hb⟩
      · exact .inl hb
      · exact .inr ⟨p, hb⟩
    cases res with
    | false =>
      obtain ⟨c', -, rfl⟩ := resolve_closed hs'
      refine ⟨_, _, hs', rfl, fun _ => ⟨fun m hm => ?_, hboard, rfl, starts_leave _ _⟩, fun _ => ⟨?_, rfl⟩,
        fun hs => absurd hs hst⟩
      · exact Function.update_of_ne hm _ _
      · exact Function.update_self _ _ _
    | true =>
      obtain ⟨es, b, hres, hout, hg⟩ := resolves_of_client hs' hc
      cases b with
      | true => exact absurd (starts_of_resolved hs' hc hres hout) hst
      | false =>
        obtain ⟨hother, hes⟩ := hres.own
        exact ⟨s', es, hs', hout, fun _ => ⟨hother, hboard, by rw [hg, Bool.false_or], hes⟩, nofun,
          fun hs => absurd hs hst⟩

end Request

/-! ## Messages of another kind -/

/-- What asks the database or sends to a client. -/
def Effect.loud : Effect → Bool
  | .updateMovementDirection _ _ | .freeName _ => false
  | _ => true

/-- All slots and the board are as before, and nothing was asked or sent. -/
structure Ignored (s s' : Server) : Prop where
  clients : s'.clients = s.clients
  board : s'.gameBoard = s.gameBoard
  quiet : ∃ es, s'.out = s.out ++ es ∧ ∀ e ∈ es, e.loud = false

theorem Ignored.refl (s : Server) : Ignored s s := ⟨rfl, rfl, [], (List.append_nil _).symm, by simp⟩

section Refused
variable {M : Type} {cd : Codec M} {db : Db} {junk : Bytes} {d : M} {n : Slot} {s s' : Server} {c : Client}

/-- A slot that expects a password asks the database whatever the message is. -/
theorem password_asks (hr : resolveRequest cd db junk true d n s = some s') (hc : s.clients n = some c)
    (he : c.expecting = .password) : ∃ p ans, .validPassword c.name p ans ∈ s'.out.drop s.out.length := by
  by_cases ha : db.validPassword c.name ((cd.unmarshString d).getD junk) ≠ 0
  · rw [resolve_accepted hc he rfl ha] at hr
    obtain rfl := Option.some.inj hr
    exact ⟨_, _, by simp [notifyNewPlayer, notifyExistingPlayers]; exact .inl ⟨rfl, rfl⟩⟩
  · rw [resolve_refused hc he rfl ha] at hr
    obtain rfl := Option.some.inj hr
    exact ⟨_, _, by simp; exact ⟨rfl, rfl⟩⟩

/-- Every other slot drops a message that its decoder refuses. -/
theorem refused_dropped (hc : s.clients n = some c) (he : c.expecting ≠ .password)
    (hs : c.expecting.decoder = .string → cd.unmarshString d = none)
    (hb : c.expecting.decoder = .boolean → cd.unmarshBoolean d = none)
    (hp : c.expecting.decoder = .point → cd.unmarshPoint d = none) :
    resolveRequest cd db junk true d n s = some s := by
  cases hx : c.expecting with
  | user => rw [resolve_user hc hx, validateUser, hs (by rw [hx]; rfl)]
  | newPassword => rw [resolve_newPassword hc hx, newPassword, hs (by rw [hx]; rfl)]
  | password => exact absurd hx he
  | readyToPlay => rw [resolve_ready hc hx, readyToPlay, hb (by rw [hx]; rfl)]
  | movement => rw [resolve_movement hc hx, movement, hp (by rw [hx]; rfl)]

end Refused

/-- A message that does not begin as its slot expects is dropped exactly when it
has two bytes or more and the slot does not expect a password. -/
theorem ignored_iff (wild : Codec Arrival) (db : Db) (junk : Bytes) {n : Slot} {s : Server} {c : Client} {d : Arrival}
    (hc : s.clients n = some c) (hd : ¬Addressed d.text.val c.expecting.decoder) :
    (∃ s', resolveRequest (wireCodec wild) db junk (received d) d n s = some s' ∧ Ignored s s') ↔
      2 ≤ d.text.val.length ∧ c.expecting ≠ .password := by
  constructor
  · rintro ⟨s', hr, hi⟩
    have hlen : received d = true := by
      by_contra hf
      -- The client is taken for gone.
      rw [Bool.not_eq_true] at hf
      rw [hf] at hr
      obtain ⟨c', -, rfl⟩ := resolve_closed hr
      have hn := congrFun hi.clients n
      simp [disconnect, hc] at hn
    refine ⟨of_decide_eq_true hlen, fun he => ?_⟩
    rw [hlen] at hr
    obtain ⟨p, ans, hmem⟩ := password_asks hr hc he
    obtain ⟨es, hout, hquiet⟩ := hi.quiet
    rw [hout, List.drop_left] at hmem
    cases hquiet _ hmem
  · rintro ⟨h2, he⟩
    have hlen : received d = true := decide_eq_true h2
    refine ⟨s, ?_, .refl s⟩
    rw [hlen]
    exact refused_dropped hc he (fun hk => refuses_string (hk ▸ hd)) (fun hk => refuses_boolean (hk ▸ hd))
      fun hk => refuses_point (hk ▸ hd)

/-- The point "149#49". -/
def strayPoint : Arrival := arrive [49, 52, 57, 35, 52, 57] (by decide)

/-- It comes from a client that has just connected. -/
theorem ignored_iff_point :
    ∃ s', resolveRequest (wireCodec inert) trusting [] (received strayPoint) strayPoint 0
        (Round.start.server.setClient 0 (newClient 0)) = some s' ∧
      Ignored (Round.start.server.setClient 0 (newClient 0)) s' := by
  have hd : ¬Addressed strayPoint.text.val (newClient 0).expecting.decoder := by
    rintro ⟨r, h⟩
    exact absurd (List.cons.inj h).1 (by decide)
  exact (ignored_iff inert trusting [] rfl hd).2 ⟨by decide, by decide⟩

/-- The boolean "41" where a password is expected: the database is asked for
whatever the fresh buffer holds. -/
theorem junk_for_password : ¬∀ (s : Round) n c d db junk, (roundMachine (wireCodec inert)).Reaches s →
    s.server.clients n = some c → d.text.val ≠ [] → ¬Addressed d.text.val c.expecting.decoder →
    ∃ s', resolveRequest (wireCodec inert) db junk (received d) d n s.server = some s' ∧ Ignored s.server s' := by
  intro h
  obtain ⟨s, hr, c, hc, he⟩ : ∃ s, (roundMachine (wireCodec inert)).Reaches s ∧
      ∃ c, s.server.clients 0 = some c ∧ c.expecting = .password :=
    ⟨_, Machine.reachesBy_of_runActs
      (l := [.accept 0, .request 0 trusting [] true (arrive [51, 49, 35, 97] (by decide))]) (.init rfl) rfl, _, rfl, rfl⟩
  have hd : ¬Addressed [52, 49] c.expecting.decoder := by
    rw [he]
    rintro ⟨r, hr⟩
    exact absurd (List.cons.inj hr).1 (by decide)
  obtain ⟨s', hs', hi⟩ := h s 0 c (arrive [52, 49] (by decide)) trusting [115] hr hc (by simp [arrive]) hd
  obtain ⟨p, ans, hmem⟩ := password_asks hs' hc he
  obtain ⟨es, hout, hquiet⟩ := hi.quiet
  rw [hout, List.drop_left] at hmem
  cases hquiet _ hmem

end Snuffin.ChildServer
