import Snuffin.Progress
/-!
# The conversation of a connection

What the server sends on a connection, from the accept to the end of the game,
follows a protocol in which only BOOLEANs count: one answers the name, FALSE
or TRUE a password, TRUE starts the game and the last one is the result. The
client reads in the same stages, but while it logs in it takes whatever comes
for an answer.
-/
open Lib Snuffin.Game

namespace Snuffin.ChildServer

variable {M : Type} {cd : Codec M}

/-! ## The protocol -/

/-- What comes next on a connection: the answer to the name, to a password,
the start of the game, the result, or nothing that counts. -/
inductive Dialogue where
  | name
  | password
  | lobby
  | game
  | ended
  deriving DecidableEq, Repr

/-- What may be said at each stage, and where it leads. Notices and boards may
come at any time. -/
def Dialogue.say : Dialogue → Msg → Option Dialogue
  | .name, .boolean _ => some .password
  | .password, .boolean right => some (if right then .lobby else .password)
  | .lobby, .boolean true => some .game
  | .lobby, .boolean false => none
  | .game, .boolean _ => some .ended
  | .ended, .boolean _ => none
  | d, _ => some d

/-- The stage of a client of the server. -/
def Expecting.dialogue : Expecting → Dialogue
  | .user => .name
  | .password | .newPassword => .password
  | .readyToPlay => .lobby
  | .movement => .game

theorem say_silent {m : Msg} (h : ∀ b, m ≠ .boolean b) (d : Dialogue) : d.say m = some d := by
  cases m with
  | boolean b => exact absurd rfl (h b)
  | _ => cases d <;> rfl

theorem says_silent {l : List Msg} (h : ∀ m ∈ l, ∀ b, m ≠ .boolean b) (d : Dialogue) :
    l.foldlM Dialogue.say d = some d := by
  induction l with
  | nil => rfl
  | cons m l ih =>
    rw [List.forall_mem_cons] at h
    rw [List.foldlM_cons, say_silent h.1]
    exact ih h.2

theorem Notice.silent {m : Msg} (h : Notice m) (b : Bool) : m ≠ .boolean b := by
  rintro rfl
  exact h

/-! ## What a message is answered -/

theorem sentTo_append (con : Nat) (es es' : List Effect) : sentTo con (es ++ es') = sentTo con es ++ sentTo con es' := by
  rw [sentTo, mail_append, List.map_append]
  rfl

theorem sentTo_self (con : Nat) (why : Why) (m : Msg) (es : List Effect) :
    sentTo con (.send why con m :: es) = m :: sentTo con es := by
  rw [sentTo, mail_to_self]
  rfl

theorem sentTo_asked {e : Effect} (h : ∀ why k m, e ≠ .send why k m) (con : Nat) (es : List Effect) :
    sentTo con (e :: es) = sentTo con es := by
  cases e with
  | send why k m => exact absurd rfl (h why k m)
  | _ => rfl

theorem sentTo_eq_nil {con : Nat} {es : List Effect} (h : ∀ why m, .send why con m ∉ es) : sentTo con es = [] := by
  rw [sentTo, mail_eq_nil h]
  rfl

theorem says_notices {con : Nat} {es : List Effect} (h : ∀ why m, .send why con m ∈ es → Notice m) (d : Dialogue) :
    (sentTo con es).foldlM Dialogue.say d = some d := by
  apply says_silent
  intro m hm
  obtain ⟨why, hsend⟩ := mem_sentTo.1 hm
  exact (h why m hsend).silent

/-- Notices about players count for nothing. -/
theorem says_players {con : Nat} {t t' : Table} {n : Slot} {c c' : Client} (d : Dialogue) :
    (sentTo con (newPlayerNotices t n c ++ existingPlayersNotices t' c')).foldlM Dialogue.say d = some d := by
  apply says_notices
  intro why m hsend
  rcases List.mem_append.1 hsend with hsend | hsend
  · exact notice_of_new hsend
  · exact notice_of_existing hsend

theorem asked_password {c : Client} {asked : Effect}
    (h : c.expecting = .password ∧ (∃ p ans, asked = .validPassword c.name p ans ∧ ans ≠ 0) ∨
      c.expecting = .newPassword ∧ ∃ p, asked = .createUser c.name p 0) :
    c.expecting.dialogue = .password ∧ ∀ why k m, asked ≠ .send why k m := by
  rcases h with ⟨hp, p, ans, rfl, -⟩ | ⟨hp, p, rfl⟩
  · exact ⟨by rw [hp]; rfl, by simp⟩
  · exact ⟨by rw [hp]; rfl, by simp⟩

/-- A message takes its sender one stage further, or leaves it where it is, as
the answer says. -/
theorem Resolved.says_sender {db : Db} {d : M} {n : Slot} {c c' : Client} {t t' : Table} {es : List Effect}
    (h : Resolved cd db d n c t t' es false) (hc : t n = some c) (hc' : t' n = some c') :
    (sentTo c.con es).foldlM Dialogue.say c.expecting.dialogue = some c'.expecting.dialogue := by
  have hsame : t' n = t n → c' = c := by
    intro he
    rw [he, hc] at hc'
    exact (Option.some.inj hc').symm
  have hset : ∀ u : Client, t' = Function.update t n (some u) → c' = u := by
    intro u he
    rw [he, Function.update_self] at hc'
    exact (Option.some.inj hc').symm
  cases h with
  | kept _ hes =>
    obtain rfl := hsame rfl
    rcases hes with rfl | ⟨p, rfl, -⟩
    · rfl
    · rfl
  | named name e score es b hu he hnone =>
    obtain rfl := hset _ rfl
    rw [sentTo_append, sentTo_eq_nil fun why m => hnone why c.con m, sentTo_self, hu]
    rcases he with rfl | rfl
    · rfl
    · rfl
  | refused p ans hp =>
    obtain rfl := hsame rfl
    rw [sentTo_asked (by simp), sentTo_self, hp]
    rfl
  | rejected p hp =>
    obtain rfl := hsame rfl
    rw [sentTo_asked (by simp), sentTo_self, List.foldlM_cons, hp]
    exact says_players _
  | admitted asked _ ht hasked =>
    obtain rfl := hset _ ht
    obtain ⟨hstage, hasked⟩ := asked_password hasked
    rw [sentTo_asked hasked, sentTo_self, List.foldlM_cons, hstage]
    exact says_players _
  | toggled st _ he _ ht _ =>
    obtain rfl := hset _ ht
    exact says_notices (fun why m hsend => notice_of_new hsend) _

/-- Whoever is ready for the game has been let in. -/
def ReadyLetIn (t : Table) : Prop := ∀ n c, t n = some c → c.state = .readyPlay → c.expecting = .readyToPlay

/-- What a message says to anybody goes with what it makes of them. -/
theorem Resolved.says {db : Db} {d : M} {n m : Slot} {c cm cm' : Client} {t t' : Table} {es : List Effect} {b : Bool}
    (h : Resolved cd db d n c t t' es b) (ha : Apart t) (hready : ReadyLetIn t) (hc : t n = some c) (hm : t m = some cm)
    (hm' : t' m = some cm') :
    (sentTo cm.con es).foldlM Dialogue.say cm.expecting.dialogue = some cm'.expecting.dialogue := by
  cases b with
  | false =>
    by_cases hmn : m = n
    · subst hmn
      obtain rfl := Option.some.inj (hc.symm.trans hm)
      exact h.says_sender hc hm'
    · obtain rfl := Option.some.inj (((h.own.1 m hmn).trans hm).symm.trans hm')
      apply says_notices
      intro why msg hsend
      exact h.notices (fun hcon => absurd (Apart.slot ha hc m cm hm hcon) hmn) hsend
  | true =>
    have hstage : cm.expecting = .readyToPlay := by
      obtain ⟨hr, hall⟩ := h.all_ready hm
      by_cases hmn : m = n
      · subst hmn
        rw [← Option.some.inj (hc.symm.trans hm)]
        exact hr
      · exact hready m cm hm (hall hmn)
    cases h with
    | started u hr hu hall =>
      obtain ⟨c₁, h₁, rfl⟩ := Option.map_eq_some_iff.1 hm'
      have hau : Apart u := hu ▸ ha.update hc { c with state := .readyPlay } rfl
      have hcon : c₁.con = cm.con := by
        have hcons : ChildServer.cons u = ChildServer.cons t := by
          rw [hu]
          exact cons_update_same hc rfl
        have hslot := congrFun hcons m
        rw [ChildServer.cons, ChildServer.cons, h₁, hm] at hslot
        exact Option.some.inj hslot
      have hstart : sentTo cm.con (startNotices u) = [.boolean true] := by
        rw [sentTo, ← hcon, mail_start hau h₁]
        rfl
      rw [sentTo_append, hstart, List.foldlM_append, hstage]
      have hnotices : (sentTo cm.con (newPlayerNotices u n { c with state := .readyPlay })).foldlM Dialogue.say .lobby =
          some .lobby :=
        says_notices (fun why msg hsend => notice_of_new hsend) _
      exact (congrArg (· >>= _) hnotices).trans rfl

/-! ## The steps of a run -/

theorem readyLetIn {ok : Round → RoundAct M → Prop} {s : Round} (h : (roundMachine cd).ReachesBy ok s) :
    ReadyLetIn s.server.clients := by
  apply h.inv (I := fun s => ReadyLetIn s.server.clients)
  · intro s hs n c hc
    rw [hs] at hc
    cases hc
  · intro s a s' hi _ hs n c' hc' hst
    rcases becomes_step hs hc' with ⟨c, hc, hb | ⟨-, rfl⟩⟩ | rfl
    · have hin := hi n c hc
      cases hb with
      | kept => exact hin hst
      | named _ _ _ hu _ =>
        have hr := hin hst
        rw [hu] at hr
        cases hr
      | admitted => rfl
      | toggled _ he => exact he
      | started => cases hst
    · cases hst
    · cases hst

/-- What a step says to a client goes with what it makes of it. -/
theorem says_step {s s' : Round} {a : RoundAct M} (ht : TableInv s) (hready : ReadyLetIn s.server.clients)
    (hs : roundStep cd s a = some s') {m : Slot} {c c' : Client} (hm : s.server.clients m = some c)
    (hm' : s'.server.clients m = some c') :
    (sentTo c.con (effects cd s a)).foldlM Dialogue.say c.expecting.dialogue = some c'.expecting.dialogue := by
  have hquiet : sentTo c.con (effects cd s a) = [] → c' = c →
      (sentTo c.con (effects cd s a)).foldlM Dialogue.say c.expecting.dialogue = some c'.expecting.dialogue := by
    rintro hnil rfl
    rw [hnil]
    rfl
  have hcases := round_cases hs
  cases a with
  | request n db junk res d =>
    obtain ⟨sv, hr, rfl⟩ := hcases
    rw [effects, hr, Option.map_some, Option.getD_some]
    cases res with
    | false =>
      obtain ⟨c₀, -, rfl⟩ := resolve_closed hr
      have hmn : m ≠ n := by
        rintro rfl
        simp [disconnect] at hm'
      have hsame : c' = c := by
        simp only [disconnect, emit_clients, Function.update_of_ne hmn] at hm'
        exact Option.some.inj (hm'.symm.trans hm)
      rw [hsame]
      exact says_notices (fun why msg hsend => notice_of_leave (disconnect_sends hsend)) _
    | true =>
      obtain ⟨c₀, hc₀, es, b, hres, hout, -⟩ := resolve_cases hr
      rw [hout]
      exact hres.says ht.apart hready hc₀ hm hm'
  | tick off =>
    obtain ⟨-, b, sv, hb, hl, rfl⟩ := hcases
    have hsent : sentTo c.con (effects cd s (.tick off)) = [.board (updateBoard off b).board.gB] :=
      sentTo_tick hb hl ht.apart (cons_eq_some.2 ⟨c, hm, rfl⟩)
    have hsame : c'.expecting = c.expecting := by
      have hsv := (playersLost_some hl).2 m
      rw [show sv.clients m = some c' from hm', hm] at hsv
      split at hsv
      · rw [Option.some.inj hsv]
      · rw [Option.some.inj hsv]
    rw [hsent, hsame]
    exact says_silent (by simp) _
  | accept n =>
    obtain ⟨hn, rfl⟩ := hcases
    have hmn : m ≠ n := by
      rintro rfl
      rw [hm] at hn
      cases hn
    rw [setClient_clients, Function.update_of_ne hmn] at hm'
    exact hquiet rfl (Option.some.inj (hm'.symm.trans hm))
  | initBoard garbage =>
    obtain ⟨-, -, rfl⟩ := hcases
    exact hquiet rfl (Option.some.inj (hm'.symm.trans hm))
  | loadSnake n =>
    obtain ⟨-, ⟨-, rfl⟩ | ⟨c₀, b, -, -, rfl⟩⟩ := hcases
    · exact hquiet rfl (Option.some.inj (hm'.symm.trans hm))
    · exact hquiet rfl (Option.some.inj (hm'.symm.trans hm))
  | loaded =>
    obtain ⟨-, rfl⟩ := hcases
    exact hquiet rfl (Option.some.inj (hm'.symm.trans hm))

/-- A step sends nothing on a connection that has not been accepted. -/
theorem sentTo_unaccepted {s s' : Round} {a : RoundAct M} (ht : TableInv s) (hs : roundStep cd s a = some s') {con : Nat}
    (hcon : s.nextCon ≤ con) : sentTo con (effects cd s a) = [] := by
  have hbelow : ∀ (n : Slot) (c : Client), s.server.clients n = some c → c.con ≠ con := by
    intro n c hc
    exact Nat.ne_of_lt (Nat.lt_of_lt_of_le (ht.below n c.con (cons_eq_some.2 ⟨c, hc, rfl⟩)) hcon)
  have hcases := round_cases hs
  apply sentTo_eq_nil
  intro why msg hsend
  cases a with
  | request n db junk res d =>
    obtain ⟨sv, hr, rfl⟩ := hcases
    rw [effects, hr, Option.map_some, Option.getD_some] at hsend
    cases res with
    | false =>
      obtain ⟨c, -, rfl⟩ := resolve_closed hr
      obtain ⟨i, ci, hci, hi⟩ := mem_forClients.1 (disconnect_sends hsend)
      obtain ⟨-, hi⟩ := Option.ite_none_right_eq_some.1 hi
      cases hi
      exact hbelow i ci hci rfl
    | true =>
      obtain ⟨c, hc, es, b, hres, hout, -⟩ := resolve_cases hr
      rw [hout] at hsend
      rcases hres.sends hsend with rfl | ⟨i, ci, hci, rfl, -⟩
      · exact hbelow n c hc rfl
      · exact hbelow i ci hci rfl
  | tick off =>
    obtain ⟨-, b, sv, hb, hl, rfl⟩ := hcases
    rw [effects, effects_tick hb hl] at hsend
    obtain ⟨i, ci, hci, hi⟩ := mem_forClients.1 hsend
    cases hi
    have hcons : cons s.server.clients i = some ci.con := by
      rw [← (playersLost_cons hl).1]
      exact cons_eq_some.2 ⟨ci, hci, rfl⟩
    obtain ⟨c, hc, hcc⟩ := cons_eq_some.1 hcons
    exact hbelow i c hc hcc
  | accept | initBoard | loadSnake | loaded => cases hsend

theorem inbox_snoc (con : Nat) (tr : List (Round × RoundAct M)) (s : Round) (a : RoundAct M) :
    inbox cd con (tr ++ [(s, a)]) = inbox cd con tr ++ sentTo con (effects cd s a) := by
  rw [inbox, List.flatMap_append, List.flatMap_singleton]
  rfl

theorem inbox_unaccepted {t : Round} {tr : List (Round × RoundAct M)} (h : (roundMachine cd).Run Round.start tr t)
    {con : Nat} (hcon : t.nextCon ≤ con) : inbox cd con tr = [] := by
  induction h with
  | nil => rfl
  | snoc hrun hs ih =>
    have hbefore := (round_grows hs).1.trans hcon
    rw [inbox_snoc, ih hbefore, sentTo_unaccepted (table_inv (hrun.reaches rfl).1) hs hbefore]
    rfl

/-! ## Whole conversations -/

/-- What a connection has been sent since it was accepted follows the protocol,
and has come to the stage of its client. Once the game is over, the result
ends it. -/
theorem conversation_kept {t : Round} {tr : List (Round × RoundAct M)} (h : (roundMachine cd).Run Round.start tr t)
    {n : Slot} {c : Client} (hc : t.server.clients n = some c) :
    (inbox cd c.con tr).foldlM Dialogue.say .name = some c.expecting.dialogue ∧
      (c.expecting = .movement →
        (inbox cd c.con tr ++ sentTo c.con (sendResults { t.server with out := [] }).out).foldlM Dialogue.say .name =
          some .ended) := by
  have hstage : (inbox cd c.con tr).foldlM Dialogue.say .name = some c.expecting.dialogue := by
    induction h generalizing c with
    | nil => cases hc
    | @snoc tr s a t hrun hs ih =>
      have hreach := (hrun.reaches rfl).1
      have ht := table_inv hreach
      rw [inbox_snoc, List.foldlM_append]
      have hold : ∀ c₀ : Client, s.server.clients n = some c₀ → c₀.con = c.con →
          (inbox cd c.con tr).foldlM Dialogue.say .name >>=
            (fun d => (sentTo c.con (effects cd s a)).foldlM Dialogue.say d) = some c.expecting.dialogue := by
        intro c₀ h₀ hcon
        rw [← hcon, ih h₀]
        exact says_step ht (readyLetIn hreach) hs h₀ hc
      rcases becomes_step hs hc with ⟨c₀, h₀, hb | ⟨-, rfl⟩⟩ | rfl
      · exact hold c₀ h₀ hb.later.con.symm
      · exact hold c₀ h₀ rfl
      · have hcon : (newClient s.nextCon).con = s.nextCon := rfl
        rw [hcon, inbox_unaccepted hrun (Nat.le_refl _), sentTo_unaccepted ht hs (Nat.le_refl _)]
        rfl
  refine ⟨hstage, fun he => ?_⟩
  rw [List.foldlM_append, hstage, sentTo_results (table_inv (h.reaches rfl).1).apart hc, he]
  rfl

/-- Two clients log in and are ready; then the game could end. -/
theorem conversation_kept_two : ∃ t tr c, (roundMachine eagerCodec).Run Round.start tr t ∧ t.server.clients 0 = some c ∧
    (inbox eagerCodec c.con tr).length = 7 ∧
    (inbox eagerCodec c.con tr ++ sentTo c.con (sendResults { t.server with out := [] }).out).foldlM Dialogue.say .name =
      some .ended := by
  obtain ⟨r, hr, c, hc, he, hlen⟩ : ∃ r, Machine.trace (roundStep eagerCodec) Round.start twoReady = some r ∧
      ∃ c, r.2.server.clients 0 = some c ∧ c.expecting = .movement ∧ (inbox eagerCodec c.con r.1).length = 7 :=
    ⟨_, rfl, _, rfl, rfl, rfl⟩
  have hrun : (roundMachine eagerCodec).Run Round.start r.1 r.2 := Machine.run_of_trace hr
  exact ⟨r.2, r.1, c, hrun, hc, hlen, (conversation_kept hrun hc).2 he⟩

/-! ## The reader -/

/-- Where a client is that reads: at a `readData` of `getInformation`, in the
loops of `prepareLobby`, with its variables, and of `startGame`, or past them
with `won`. -/
inductive Reader where
  | login (pc : Pc)
  | lobby (room : Room)
  | game
  | ended (won : Bool)

/-- What the next message makes of it. In `getInformation` any message is taken
for an answer, and the next one is asked for before it is read. `none` is the
use of an unset index in `playerLeft`. -/
def Reader.hear : Reader → Msg → Option Reader
  | .login pc, m =>
    match pc.read (unmarshBoolean m) with
    | none => some (.login pc)
    | some .returned => some (.lobby Room.new)
    | some pc => some (.login (pc.send.getD pc))
  | .lobby room, m => (room.hear m).map fun room => if room.gameStart then .game else .lobby room
  | .game, .boolean value => some (.ended value)
  | r, _ => some r

/-- It reads some messages, from the answer to its name on. -/
def reading (l : List Msg) : Option Reader := l.foldlM Reader.hear (.login .readBelongs)

/-- Every leave notice that is read in `prepareLobby` finds its entry. -/
def Finds (l : List Msg) : Prop :=
  ∀ pre s post room, l = pre ++ .string s :: post → reading pre = some (.lobby room) →
    (playerLeft (strtol s) room.players).isSome = true

theorem reading_snoc (l : List Msg) (m : Msg) : reading (l ++ [m]) = (reading l).bind fun r => r.hear m := by
  unfold reading
  rw [List.foldlM_append]
  cases l.foldlM Reader.hear (.login .readBelongs) with
  | none => rfl
  | some r => simp

/-- Nothing else stops the reader. -/
theorem hear_none {r : Reader} {m : Msg} (h : r.hear m = none) :
    ∃ room s, r = .lobby room ∧ m = .string s ∧ playerLeft (strtol s) room.players = none := by
  cases r with
  | login pc =>
    simp only [Reader.hear] at h
    split at h
    · cases h
    · cases h
    · cases h
  | lobby room =>
    have hroom := Option.map_eq_none_iff.1 (Option.map_eq_none_iff.1 h)
    cases m with
    | string s => exact ⟨room, s, rfl, rfl, hroom⟩
    | player | boolean | board => cases hroom
  | game => cases m <;> cases h
  | ended => cases h

theorem finds_iff {l : List Msg} : Finds l ↔ ∃ r, reading l = some r := by
  constructor
  · intro h
    induction l using List.reverseRecOn with
    | nil => exact ⟨_, rfl⟩
    | append_singleton l m ih =>
      obtain ⟨r, hr⟩ := ih fun pre s post room hl => h pre s (post ++ [m]) room (by rw [hl, List.append_assoc]; rfl)
      cases hm : r.hear m with
      | some r' => exact ⟨r', by rw [reading_snoc, hr, Option.bind_some, hm]⟩
      | none =>
        obtain ⟨room, s, rfl, rfl, hleft⟩ := hear_none hm
        have hfound := h l s [] room rfl hr
        rw [hleft] at hfound
        cases hfound
  · rintro ⟨r, hr⟩ pre s post room rfl hpre
    unfold reading at hr hpre
    rw [List.foldlM_append, hpre, Option.bind_eq_bind, Option.bind_some, List.foldlM_cons] at hr
    obtain ⟨r', hr', -⟩ := Option.bind_eq_some_iff.1 hr
    obtain ⟨room', hroom, -⟩ := Option.map_eq_some_iff.1 hr'
    obtain ⟨t, ht, -⟩ := Option.map_eq_some_iff.1 hroom
    exact Option.isSome_iff_exists.2 ⟨t, ht⟩

/-- The reader is at a stage of the protocol. -/
def Reader.At : Reader → Dialogue → Prop
  | .login pc, d => pc = .readBelongs ∧ d = .name ∨ (pc = .readBelongs2 ∨ pc = .readWPass) ∧ d = .password
  | .lobby room, d => d = .lobby ∧ room.gameStart = false
  | .game, d => d = .game
  | .ended _, d => d = .ended

/-- While connection `con` logs in, nobody else leaves, no tick is made, and no
user that it names fails to be created. -/
def Calm (cd : Codec M) (con : Nat) (s : Round) (a : RoundAct M) : Prop :=
  ∀ m c, s.server.clients m = some c → c.con = con → c.expecting.login = true → match a with
    | .request n db _ res d => (m ≠ n → res = true) ∧
      (m = n → c.expecting = .newPassword → ∀ p, cd.unmarshString d = some p → db.createUser c.name p = 0)
    | .tick _ => False
    | _ => True

instance (cd : Codec M) (con : Nat) (s : Round) : ∀ a : RoundAct M, Decidable (Calm cd con s a)
  | .request n db _ res d => inferInstanceAs (Decidable (∀ m, ∀ c ∈ s.server.clients m, c.con = con → c.expecting.login = true →
      (m ≠ n → res = true) ∧
      (m = n → c.expecting = .newPassword → ∀ p ∈ cd.unmarshString d, db.createUser c.name p = 0)))
  | .tick _ => inferInstanceAs (Decidable (∀ m, ∀ c ∈ s.server.clients m, c.con = con → c.expecting.login = true → False))
  | .accept _ | .initBoard _ | .loadSnake _ | .loaded => .isTrue fun _ _ _ _ _ => trivial

/-- Only a BOOLEAN ends `prepareLobby`. -/
theorem hear_gameStart {room room' : Room} {m : Msg} (h : room.hear m = some room') (hm : ∀ b, m ≠ .boolean b) :
    room'.gameStart = room.gameStart := by
  obtain ⟨t, -, rfl⟩ := Option.map_eq_some_iff.1 h
  cases m with
  | boolean b => exact absurd rfl (hm b)
  | _ => rfl

/-- Past the login the reader goes along with every message. -/
theorem hears_on {l : List Msg} {r r' : Reader} {d d' : Dialogue} (hr : r.At d) (hd : d ≠ .name ∧ d ≠ .password)
    (h : l.foldlM Dialogue.say d = some d') (hread : l.foldlM Reader.hear r = some r') : r'.At d' := by
  induction l generalizing r d with
  | nil => exact Option.some.inj h ▸ Option.some.inj hread ▸ hr
  | cons m l ih =>
    rw [List.foldlM_cons] at h hread
    obtain ⟨d₁, hd₁, h⟩ := Option.bind_eq_some_iff.1 h
    obtain ⟨r₁, hr₁, hread⟩ := Option.bind_eq_some_iff.1 hread
    have hnext : r₁.At d₁ ∧ d₁ ≠ .name ∧ d₁ ≠ .password := by
      cases r with
      | login pc =>
        rcases hr with ⟨-, rfl⟩ | ⟨-, rfl⟩
        · exact absurd rfl hd.1
        · exact absurd rfl hd.2
      | lobby room =>
        obtain ⟨rfl, hg⟩ := hr
        by_cases hm : ∃ b, m = .boolean b
        · obtain ⟨b, rfl⟩ := hm
          obtain rfl := Option.some.inj hr₁
          cases b with
          | false => cases hd₁
          | true =>
            obtain rfl := Option.some.inj hd₁
            exact ⟨rfl, by simp⟩
        · have hm : ∀ b, m ≠ .boolean b := fun b hb => hm ⟨b, hb⟩
          rw [say_silent hm, Option.some.injEq] at hd₁
          subst hd₁
          obtain ⟨room', hroom, rfl⟩ := Option.map_eq_some_iff.1 hr₁
          have hg' := (hear_gameStart hroom hm).trans hg
          rw [if_neg (by rw [hg']; exact Bool.false_ne_true)]
          exact ⟨⟨rfl, hg'⟩, by simp⟩
      | game =>
        obtain rfl : d = .game := hr
        cases m with
        | boolean b =>
          obtain rfl := Option.some.inj hd₁
          obtain rfl := Option.some.inj hr₁
          exact ⟨rfl, by simp⟩
        | _ =>
          obtain rfl := Option.some.inj hd₁
          obtain rfl := Option.some.inj hr₁
          exact ⟨rfl, by simp⟩
      | ended won =>
        obtain rfl : d = .ended := hr
        cases m with
        | boolean b => cases hd₁
        | _ =>
          obtain rfl := Option.some.inj hd₁
          obtain rfl := Option.some.inj hr₁
          exact ⟨rfl, by simp⟩
    exact ih hnext.1 hnext.2 h hread

/-- In the login it goes along with an answer, and with what follows when that
lets it in. -/
theorem hears_answer {l : List Msg} {r r' : Reader} {d d' : Dialogue} (hr : r.At d) (hd : d = .name ∨ d = .password)
    (hl : l = [] ∨ ∃ b l', l = .boolean b :: l' ∧ (l' = [] ∨ b = true ∧ d = .password))
    (h : l.foldlM Dialogue.say d = some d') (hread : l.foldlM Reader.hear r = some r') : r'.At d' := by
  rcases hl with rfl | ⟨b, l', rfl, hl'⟩
  · exact Option.some.inj h ▸ Option.some.inj hread ▸ hr
  · obtain ⟨pc, rfl⟩ : ∃ pc, r = .login pc := by
      cases r with
      | login pc => exact ⟨pc, rfl⟩
      | lobby room =>
        obtain ⟨rfl, -⟩ := hr
        simp at hd
      | _ =>
        obtain rfl : d = _ := hr
        simp at hd
    rcases hr with ⟨rfl, rfl⟩ | ⟨hpc, rfl⟩
    · obtain rfl : l' = [] := hl'.resolve_right fun hno => by cases hno.2
      obtain rfl := Option.some.inj h
      obtain rfl := Option.some.inj hread
      exact .inr ⟨.inl rfl, rfl⟩
    · have hanswer : ∀ right, (Reader.login pc).hear (.boolean right) =
          some (if right then .lobby Room.new else .login .readWPass) := by
        rintro (right | right)
        · rcases hpc with rfl | rfl <;> rfl
        · rcases hpc with rfl | rfl <;> rfl
      rw [List.foldlM_cons, hanswer] at hread
      cases b with
      | true => exact hears_on (r := .lobby Room.new) (d := .lobby) ⟨rfl, rfl⟩ (by simp) h hread
      | false =>
        obtain rfl : l' = [] := hl'.resolve_right fun hno => by cases hno.1
        obtain rfl := Option.some.inj h
        obtain rfl := Option.some.inj hread
        exact .inr ⟨.inr rfl, rfl⟩

theorem login_iff {e : Expecting} : e.login = true ↔ e.dialogue = .name ∨ e.dialogue = .password := by
  cases e <;> simp [Expecting.login, Expecting.dialogue]

/-- Whoever logs in on connection `con` is LOGGING. -/
def StillLogging (con : Nat) (t : Table) : Prop := ∀ m c, t m = some c → c.con = con → c.expecting.login = true → c.state = .logging

theorem stillLogging_step {con : Nat} {s s' : Round} {a : RoundAct M} (h : StillLogging con s.server.clients)
    (hcalm : Calm cd con s a) (hs : roundStep cd s a = some s') : StillLogging con s'.server.clients := by
  intro m c' hm' hcon he
  rcases becomes_step hs hm' with ⟨c, hm, hb | ⟨⟨off, rfl⟩, rfl⟩⟩ | rfl
  · have hc := h m c hm (hb.later.con.symm.trans hcon)
    cases hb with
    | kept => exact hc he
    | named _ _ _ hu _ => exact hc (by rw [hu]; rfl)
    | admitted => cases he
    | toggled _ hr =>
      rw [hr] at he
      cases he
    | started => cases he
  · exact (hcalm m c hm hcon he).elim
  · rfl

/-- A message of the login gets nothing or an answer, unless a user cannot be
created. -/
theorem Resolved.answers {db : Db} {d : M} {n : Slot} {c : Client} {t t' : Table} {es : List Effect} {b : Bool}
    (h : Resolved cd db d n c t t' es b) (he : c.expecting.login = true)
    (hcreate : c.expecting = .newPassword → ∀ p, cd.unmarshString d = some p → db.createUser c.name p = 0) :
    sentTo c.con es = [] ∨ ∃ b l', sentTo c.con es = .boolean b :: l' ∧
      (l' = [] ∨ b = true ∧ c.expecting.dialogue = .password) := by
  cases h with
  | kept _ hes =>
    rcases hes with rfl | ⟨p, rfl, -⟩
    · exact .inl rfl
    · exact .inl rfl
  | named name e score es b _ _ hnone =>
    rw [sentTo_append, sentTo_eq_nil fun why m => hnone why c.con m, sentTo_self]
    exact .inr ⟨b, [], rfl, .inl rfl⟩
  | refused p ans _ =>
    rw [sentTo_asked (by simp), sentTo_self]
    exact .inr ⟨false, [], rfl, .inl rfl⟩
  | rejected p hp hdec hno => exact absurd (hcreate hp p hdec) hno
  | admitted asked _ _ hasked =>
    obtain ⟨hstage, hasked⟩ := asked_password hasked
    rw [sentTo_asked hasked, sentTo_self]
    exact .inr ⟨true, _, rfl, .inr ⟨rfl, hstage⟩⟩
  | toggled _ _ hr | started _ hr =>
    rw [hr] at he
    cases he

/-- While a client logs in, a calm step sends it nothing or an answer. -/
theorem calm_answer {s s' : Round} {a : RoundAct M} (ht : TableInv s) (hs : roundStep cd s a = some s') {m : Slot}
    {c c' : Client} (hm : s.server.clients m = some c) (hm' : s'.server.clients m = some c')
    (he : c.expecting.login = true) (hst : c.state = .logging) (hcalm : Calm cd c.con s a) :
    sentTo c.con (effects cd s a) = [] ∨ ∃ b l', sentTo c.con (effects cd s a) = .boolean b :: l' ∧
      (l' = [] ∨ b = true ∧ c.expecting.dialogue = .password) := by
  have hcases := round_cases hs
  have hquiet := hcalm m c hm rfl he
  cases a with
  | request n db junk res d =>
    obtain ⟨sv, hr, rfl⟩ := hcases
    rw [effects, hr, Option.map_some, Option.getD_some]
    obtain ⟨hstay, hcreate⟩ := hquiet
    have hres : res = true := by
      by_cases hmn : m = n
      · subst hmn
        cases res with
        | true => rfl
        | false =>
          obtain ⟨c₀, -, rfl⟩ := resolve_closed hr
          simp [disconnect] at hm'
      · exact hstay hmn
    subst hres
    obtain ⟨c₀, hc₀, es, b, hres, hout, -⟩ := resolve_cases hr
    have hout : sv.out = es := hout
    rw [hout]
    by_cases hmn : m = n
    · subst hmn
      obtain rfl := Option.some.inj (hc₀.symm.trans hm)
      exact hres.answers he (hcreate rfl)
    · left
      apply sentTo_eq_nil
      intro why msg hsend
      rcases hres.sends hsend with hcon | ⟨i, ci, hci, hcon, hlog⟩
      · exact hmn (Apart.slot ht.apart hc₀ m c hm hcon)
      · obtain rfl := Apart.slot ht.apart hm i ci hci hcon
        obtain rfl := Option.some.inj (hm.symm.trans hci)
        exact hlog hst
  | tick => exact hquiet.elim
  | accept | initBoard | loadSnake | loaded => exact .inl rfl

theorem reader_run {con : Nat} {t : Round} {tr : List (Round × RoundAct M)}
    (h : (roundMachine cd).Run Round.start tr t) (hcalm : ∀ e ∈ tr, Calm cd con e.1 e.2) :
    StillLogging con t.server.clients ∧ ∀ n c r, t.server.clients n = some c → c.con = con →
      reading (inbox cd con tr) = some r → r.At c.expecting.dialogue := by
  induction h with
  | nil => exact ⟨fun _ _ hc => (by cases hc), fun _ _ _ hc => (by cases hc)⟩
  | @snoc tr s a t hrun hs ih =>
    obtain ⟨hstill, hat⟩ := ih fun e he => hcalm e (List.mem_append_left _ he)
    have hstep : Calm cd con s a := hcalm (s, a) (List.mem_append_right _ (List.mem_singleton_self _))
    refine ⟨stillLogging_step hstill hstep hs, fun n c r hc hcon hread => ?_⟩
    have hreach := (hrun.reaches rfl).1
    have ht := table_inv hreach
    unfold reading at hread hat
    rw [inbox_snoc, List.foldlM_append] at hread
    obtain ⟨r₀, hread₀, hread⟩ := Option.bind_eq_some_iff.1 hread
    have hold : ∀ c₀ : Client, s.server.clients n = some c₀ → c₀.con = con → r.At c.expecting.dialogue := by
      rintro c₀ h₀ rfl
      have hsays := says_step ht (readyLetIn hreach) hs h₀ hc
      have hat₀ := hat n c₀ r₀ h₀ rfl hread₀
      by_cases he : c₀.expecting.login = true
      · exact hears_answer hat₀ (login_iff.1 he) (calm_answer ht hs h₀ hc he (hstill n c₀ h₀ rfl he) hstep) hsays hread
      · exact hears_on hat₀ (not_or.1 fun hno => he (login_iff.2 hno)) hsays hread
    rcases becomes_step hs hc with ⟨c₀, h₀, hb | ⟨-, rfl⟩⟩ | rfl
    · exact hold c₀ h₀ (hb.later.con.symm.trans hcon)
    · exact hold c₀ h₀ hcon
    · obtain rfl : s.nextCon = con := hcon
      rw [inbox_unaccepted hrun (Nat.le_refl _)] at hread₀
      rw [sentTo_unaccepted ht hs (Nat.le_refl _)] at hread
      obtain rfl := Option.some.inj hread₀
      obtain rfl := Option.some.inj hread
      exact .inl ⟨rfl, rfl⟩

/-- A client that reads what it is sent is in `getInformation`, `prepareLobby`
and `startGame` just when the server has its client there, unless somebody
leaves, a tick is made or its creation fails while it logs in, and provided
that it finds who leaves in its table. Once the game is over it has its
result. -/
theorem reader_keeps_up {t : Round} {tr : List (Round × RoundAct M)} (h : (roundMachine cd).Run Round.start tr t)
    {n : Slot} {c : Client} (hc : t.server.clients n = some c) (hcalm : ∀ e ∈ tr, Calm cd c.con e.1 e.2)
    (hfinds : Finds (inbox cd c.con tr)) :
    ∃ r, reading (inbox cd c.con tr) = some r ∧ r.At c.expecting.dialogue ∧
      (c.expecting = .movement →
        reading (inbox cd c.con tr ++ sentTo c.con (sendResults { t.server with out := [] }).out) =
          some (.ended (c.state ≠ .loose))) := by
  obtain ⟨r, hread⟩ := finds_iff.1 hfinds
  have hat := (reader_run h hcalm).2 n c r hc rfl hread
  refine ⟨r, hread, hat, fun he => ?_⟩
  rw [he] at hat
  have hgame : r = .game := by
    cases r with
    | game => rfl
    | login pc =>
      rcases hat with ⟨-, hno⟩ | ⟨-, hno⟩
      · cases hno
      · cases hno
    | lobby room => cases hat.1
    | ended => cases hat
  rw [sentTo_results (table_inv (h.reaches rfl).1).apart hc, reading_snoc, hread, hgame]
  rfl

/-- The first of the two clients gets a board and then the result. -/
theorem reader_keeps_up_two : ∃ t tr c, (roundMachine eagerCodec).Run Round.start tr t ∧ t.phase = .over ∧
    t.server.clients 0 = some c ∧
    reading (inbox eagerCodec c.con tr ++ sentTo c.con (sendResults { t.server with out := [] }).out) =
      some (.ended true) := by
  obtain ⟨r, hr, hover, hcalm, c, hc, hcon, he, hst, hread⟩ : ∃ r,
      Machine.trace (roundStep eagerCodec) Round.start (twoReady ++ loadSnakes ++ [leaves 1, .tick fun _ => 0]) = some r ∧
      r.2.phase = .over ∧ (∀ e ∈ r.1, Calm eagerCodec 0 e.1 e.2) ∧
      ∃ c, r.2.server.clients 0 = some c ∧ c.con = 0 ∧ c.expecting = .movement ∧ c.state ≠ .loose ∧
        ∃ r', reading (inbox eagerCodec 0 r.1) = some r' :=
    ⟨_, rfl, rfl, of_decide_eq_true rfl, _, rfl, rfl, rfl, of_decide_eq_true rfl, _, rfl⟩
  have hrun : (roundMachine eagerCodec).Run Round.start r.1 r.2 := Machine.run_of_trace hr
  rw [← hcon] at hcalm hread
  obtain ⟨-, -, -, hresult⟩ := reader_keeps_up hrun hc hcalm (finds_iff.2 hread)
  exact ⟨r.2, r.1, c, hrun, hover, hc, by rw [hresult he, decide_eq_true hst]⟩

end Snuffin.ChildServer
