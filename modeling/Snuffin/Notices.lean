import Snuffin.Replica
import Snuffin.Playing
import Snuffin.Handling
import Snuffin.Typing
/-!
# The lobby in bytes

The machine of the lobby with its messages as they are on the connections:
what the server takes goes through `resolveRequest` and its buffers, and what
`prepareLobby` reads through `unmarshalling`, with the arrays of that call.
While every access stays inside and every player is read back (`Clean`), each
step is one of `lobbyStep`, so what was shown of runs of that machine holds of
these.
-/
open Lib Snuffin.Game Snuffin.ComWrapper
open Snuffin.Db (CString)
open Snuffin.Client (maxWord)

namespace Snuffin.ChildServer

/-! ## The code -/

/-- What `marshalling` is called with for a name, a password or a toggle. -/
def Said.message : Said → Marshalling.Message
  | .string s => .string (Marshalling.cstring s)
  | .boolean value => .boolean (if value then 1 else 0)

/-- The struct of a player whose name and score are set. -/
def Player.struct (p : Player) : Option Marshalling.Player :=
  p.name.bind fun name => p.score.map fun score =>
    ⟨Marshalling.cstring name, Int32.ofInt p.num.val, Int32.ofInt score, if p.ready then 1 else 0⟩

/-- What it is called with for a message of the lobby, where no boards are
sent. -/
def Msg.message : Msg → Option Marshalling.Message
  | .string s => some (.string (Marshalling.cstring s))
  | .boolean value => some (.boolean (if value then 1 else 0))
  | .player p => p.struct.map .player
  | .board _ => none

/-- The bytes of a message on its connection. -/
def Msg.bytes (m : Msg) : Option Bytes :=
  (m.message.bind Marshalling.marshalling).map fun sd => sd.data.take sd.size.toNat

/-- The PLAYER branch of `prepareLobby` on the struct that was decoded. `none`
is an index outside `players`. -/
def addRead (player : Marshalling.Player) (players : Players) : Option Players :=
  match belongs players (some player.name.val) with
  | none =>
    if h : 0 ≤ player.num.toInt ∧ player.num.toInt.toNat < maxPlayers then
      let pos : Slot := ⟨player.num.toInt.toNat, h.2⟩
      some (Function.update players pos (some ⟨some player.name.val, pos, some player.score.toInt, player.ready ≠ 0⟩))
    else none
  | some aux => some (setReady players aux (player.ready ≠ 0))

/-- One round of the loop of `prepareLobby` on a message with its NUL. With
NULL for the struct, `type` is what it was in the round before. -/
def Room.read (r : Room) (data : Bytes) (l : Marshalling.Locals) : Option Room :=
  (Marshalling.unmarshalling data l).bind fun
    | none => none
    | some (.player player) => (addRead player r.players).map fun t => { r with players := t }
    | some (.string s) => (playerLeft (strtol s.val) r.players).map fun t => { r with players := t }
    | some (.boolean _) => some { r with gameStart := true }
    | some _ => some r

/-- The server takes the next message of slot `n`, with its memory. -/
def World.takeBytes (w : World Said) (n : Slot) (db : Db) (m : Checked.Fresh) : Option (World Said) :=
  if w.ended then none
  else
    match w.round.server.clients n with
    | none => none
    | some c =>
      match (w.peers c.con).toServer with
      | [] => none
      | d :: ds =>
        (Checked.resolve db m ⟨d.message.text ++ [0], d.message.text.length⟩ n c { w.round.server with out := [] }).map
          fun sv => { w with
            round := { w.round with server := sv, moved := w.round.moved ++ started sv.out }
            peers := fun k =>
              (Function.update w.peers c.con { w.peers c.con with toServer := ds, taken := (w.peers c.con).taken + 1 } k).deliver
                sv.out k
            admitted := w.admitted ++ newlyAdmitted w.round.server.clients sv.clients n }

inductive WireAct where
  | connect
  | type (k : Nat) (text : CString)
  | read (k : Nat)
  | hear (k : Nat) (l : Marshalling.Locals)
  | press (k : Nat) (pressed : Key)
  | leave (k : Nat)
  | accept (n : Slot)
  | request (n : Slot) (db : Db) (m : Checked.Fresh)
  | closed (n : Slot)

/-- What the buffer of `validatePassword` holds when its message has no
string. -/
def junkOf (L : Lobby) (n : Slot) (m : Checked.Fresh) : Bytes :=
  ((L.world.round.server.clients n).bind fun c => (L.world.peers c.con).toServer.head?.bind fun d =>
    Checked.freshString d.message.text.length m.password).getD []

/-- The step of `lobbyStep`. -/
def erase (L : Lobby) : WireAct → LobbyAct
  | .connect => .connect
  | .type k text => .type k text.val
  | .read k => .read k
  | .hear k _ => .hear k
  | .press k pressed => .press k pressed
  | .leave k => .leave k
  | .accept n => .accept n
  | .request n db m => .request n db (junkOf L n m)
  | .closed n => .closed n trusting [] (.string [])

/-- `getInformation` reads nothing but BOOLEANs out of its messages, for which
no array is used. -/
def wireStep (L : Lobby) : WireAct → Option Lobby
  | .type k text => if text.val.length < maxWord then lobbyStep L (.type k text.val) else none
  | .hear k l =>
    match (L.world.peers k).toClient with
    | [] => none
    | x :: xs =>
      if (L.world.peers k).pc = .returned ∧ (L.rooms k).gameStart = false then
        (x.msg.bytes.bind fun data => (L.rooms k).read data l).map fun r =>
          { L with
            world := { L.world with peers := Function.update L.world.peers k { L.world.peers k with toClient := xs } }
            rooms := Function.update L.rooms k r }
      else none
  | .request n db m =>
    if L.world.round.server.startGame then none
    else
      (L.world.takeBytes n db m).map fun w =>
        { L with world := w, told := fun k => L.told k ++ announced w.round.server k }
  | .closed n =>
    if (L.world.round.server.clients n).any fun c => (Checked.disconnect n c L.world.round.server).isSome then
      lobbyStep L (erase L (.closed n))
    else none
  | a => lobbyStep L (erase L a)

def wireMachine : Machine Lobby WireAct := .ofFun Lobby.start wireStep

/-! ## When all is as it was sent -/

/-- What was sent of a player is what is read. -/
def ReadBack (p : Player) (l : Marshalling.Locals) : Prop :=
  ∃ q ∈ p.struct, p.name = some q.name.val ∧ p.score = some q.score.toInt ∧ q.EndsIn l ∧ q.name.val.length < maxWord

def Legible (l : Marshalling.Locals) : Msg → Prop
  | .player p => ReadBack p l
  | .string _ | .boolean _ | .board _ => True

/-- A typed text fits its buffer, a message to the server is harmless, who is
found to have left has a name, and a player is read back. -/
def Clean (L : Lobby) : WireAct → Prop
  | .type _ text => text.val.length < maxWord
  | .hear k l => ∀ x ∈ (L.world.peers k).toClient.head?, Legible l x.msg
  | .request n db m => ∀ c ∈ L.world.round.server.clients n, ∀ d ∈ (L.world.peers c.con).toServer.head?,
    Checked.Harmless db m d.message.text n c L.world.round.server
  | .closed n => ∀ c ∈ L.world.round.server.clients n, c.name ≠ none
  | _ => True

section Decide

instance (p : Player) (l : Marshalling.Locals) : Decidable (ReadBack p l) := by
  unfold ReadBack
  infer_instance

instance (l : Marshalling.Locals) : ∀ m, Decidable (Legible l m)
  | .player p => inferInstanceAs (Decidable (ReadBack p l))
  | .string _ | .boolean _ | .board _ => .isTrue trivial

instance (L : Lobby) : ∀ a, Decidable (Clean L a)
  | .type .. | .hear .. | .request .. | .closed .. => by
    unfold Clean
    infer_instance
  | .connect | .read _ | .press .. | .leave _ | .accept _ => .isTrue trivial

end Decide

/-! ## Texts -/

/-- A string that was typed has no NUL and fits its buffer. -/
def Said.Short : Said → Prop
  | .string s => (0 : UInt8) ∉ s ∧ s.length < maxWord
  | .boolean _ => True

theorem cstring_val {s : Bytes} (h : (0 : UInt8) ∉ s) : (Marshalling.cstring s).val = s := cstr_eq_self.2 h

theorem length_said {d : Said} (h : d.Short) : 1 < d.message.text.length ∧ d.message.text.length < bufferSize := by
  have hbuf : bufferSize = 1024 := rfl
  cases d with
  | string s =>
    have hlen : s.length < 20 := h.2
    have hplaces : (decimal s.length).length ≤ 2 := (Marshalling.length_decimal_le (Nat.succ_pos 1)).2 (by omega)
    have htext := Marshalling.length_stringText (Marshalling.cstring s)
    rw [cstring_val h.1] at htext
    simp only [Said.message, Marshalling.Message.text]
    omega
  | boolean value =>
    cases value <;> exact ⟨by decide, by decide⟩

/-- The decoders read what was said, whatever their arrays hold. -/
theorem wire_said {d : Said} (h : d.Short) (l : Marshalling.Locals) :
    (wireCodec inert).unmarshString ⟨⟨d.message.text, d.message.text_nul⟩, l⟩ = lobbyCodec.unmarshString d ∧
      (wireCodec inert).unmarshBoolean ⟨⟨d.message.text, d.message.text_nul⟩, l⟩ = lobbyCodec.unmarshBoolean d ∧
      (wireCodec inert).unmarshPoint ⟨⟨d.message.text, d.message.text_nul⟩, l⟩ = lobbyCodec.unmarshPoint d := by
  cases d with
  | string s =>
    have hlen : s.length < 20 := h.2
    have hval := cstring_val h.1
    have hplaces : (decimal (Marshalling.cstring s).val.length).length ≤ 5 := by
      rw [hval]
      exact (Marshalling.length_decimal_le (Nat.succ_pos 4)).2 (by omega)
    have hread : Marshalling.unmarshString ((Said.string s).message.text ++ [0]) l = some (some (Marshalling.cstring s)) :=
      Marshalling.unmarsh_stringText hplaces l
    refine ⟨?_, refuses_boolean ?_, refuses_point ?_⟩
    · simp only [wireCodec, hread, Option.map_some, hval, lobbyCodec]
    · rintro ⟨x, rest, hr, -⟩
      cases hr
    · rintro ⟨r, hr⟩
      cases hr
  | boolean value =>
    refine ⟨refuses_string ?_, ?_, refuses_point ?_⟩
    · rintro ⟨r, hr⟩
      cases value <;> cases hr
    · cases value <;> rfl
    · rintro ⟨r, hr⟩
      cases value <;> cases hr

/-- A request depends on its message by what the decoders give. -/
theorem resolveRequest_congr {M N : Type} {cd : Codec M} {cd' : Codec N} {d : M} {d' : N}
    (hs : cd.unmarshString d = cd'.unmarshString d') (hb : cd.unmarshBoolean d = cd'.unmarshBoolean d')
    (hp : cd.unmarshPoint d = cd'.unmarshPoint d') (db : Db) (junk : Bytes) (res : Bool) (n : Slot) (s : Server) :
    resolveRequest cd db junk res d n s = resolveRequest cd' db junk res d' n s := by
  unfold resolveRequest validateUser validatePassword newPassword readyToPlay movement
  rw [hs, hb, hp]

/-! ## What the server takes -/

/-- A harmless message is resolved as it was said. -/
theorem resolve_said {db : Db} {m : Checked.Fresh} {d : Said} (hd : d.Short) {n : Slot} {c : Client} {s : Server}
    (hc : s.clients n = some c) (hh : Checked.Harmless db m d.message.text n c s) :
    Checked.resolve db m ⟨d.message.text ++ [0], d.message.text.length⟩ n c s =
      resolveRequest lobbyCodec db ((Checked.freshString d.message.text.length m.password).getD []) true d n s := by
  obtain ⟨htwo, hlen⟩ := length_said hd
  have htext : cstr (d.message.text ++ [0]) = d.message.text := cstr_append d.message.text_nul []
  have harrival : Checked.arrival m ⟨d.message.text ++ [0], d.message.text.length⟩ =
      ⟨⟨d.message.text, d.message.text_nul⟩, m.locals⟩ := congrArg (Arrival.mk · m.locals) (Subtype.ext htext)
  obtain ⟨hs, hb, hp⟩ := wire_said hd m.locals
  obtain ⟨s', -, hs', -⟩ := request_keeps lobbyCodec db ((Checked.freshString d.message.text.length m.password).getD []) true d hc
  rw [hs']
  apply (Checked.resolve_eq_some (by rw [htext]) (by rwa [htext]) (by rwa [htext]) hc).2
  rw [htext, harrival, resolveRequest_congr hs hb hp]
  exact ⟨hh, hs'⟩

/-- What the server sends in its lobby. -/
def Lobbying (m : Msg) : Prop := Notice m ∨ ∃ b, m = .boolean b

/-- What the two sides have still to read. -/
structure Texts (p : Peer Said) : Prop where
  said : ∀ d ∈ p.toServer, d.Short
  told : ∀ x ∈ p.toClient, Lobbying x.msg

theorem takeBytes_eq {w : World Said} (h : ∀ k, Texts (w.peers k)) {n : Slot} {db : Db} {m : Checked.Fresh}
    (hh : ∀ c ∈ w.round.server.clients n, ∀ d ∈ (w.peers c.con).toServer.head?,
      Checked.Harmless db m d.message.text n c w.round.server) :
    w.takeBytes n db m = w.take lobbyCodec n db (((w.round.server.clients n).bind fun c =>
      (w.peers c.con).toServer.head?.bind fun d => Checked.freshString d.message.text.length m.password).getD []) := by
  unfold World.takeBytes World.take World.serve roundStep
  cases hc : w.round.server.clients n with
  | none => exact ite_self none
  | some c =>
    dsimp only [Option.bind_some]
    cases hq : (w.peers c.con).toServer with
    | nil => exact ite_self none
    | cons d ds =>
      have hd : d.Short := (h c.con).said d (by rw [hq]; exact List.mem_cons_self)
      have hres := resolve_said hd (s := { w.round.server with out := [] }) hc (hh c hc d (by rw [hq]; rfl))
      dsimp only [List.head?_cons, Option.bind_some]
      rw [hres]
      split
      · rfl
      · rw [Option.map_map, Option.map_map]
        rfl

/-! ## What a client reads -/

theorem bytes_of_fits {m : Msg} {x : Marshalling.Message} (hm : m.message = some x) (hx : x.Fits) :
    m.bytes = some (x.text ++ [0]) := by
  unfold Msg.bytes
  rw [hm, Option.bind_some, hx.marshalling, Option.map_some, Marshalling.Message.sent hx.marshalling]

theorem slotText_short (n : Slot) : (Marshalling.cstring (slotText n)).val = slotText n ∧
    (Marshalling.cstring (slotText n)).val.length < sizeofPointer := by
  revert n
  decide

/-- The number of a slot arrives. -/
theorem unmarshalling_leave (n : Slot) (l : Marshalling.Locals) :
    ∃ data v, (Msg.string (slotText n)).bytes = some data ∧
      Marshalling.unmarshalling data l = some (some (.string v)) ∧ v.val = slotText n := by
  obtain ⟨hval, hlen⟩ := slotText_short n
  have hcarried : (Marshalling.Struc.text (.string (Marshalling.cstring (slotText n)))).Carried := hlen
  exact ⟨_, _, bytes_of_fits rfl hcarried.fits, Marshalling.unmarshalling_string hlen l, hval⟩

theorem toInt_slot : ∀ n : Slot, (Int32.ofInt n.val).toInt = n.val := by decide

/-- A player that is read back is added as it was sent. -/
theorem addRead_eq {p : Player} {q : Marshalling.Player} (hq : p.struct = some q) (hname : p.name = some q.name.val)
    (hscore : p.score = some q.score.toInt) (players : Players) : addRead q players = some (addPlayer p players) := by
  obtain ⟨name, -, hq⟩ := Option.bind_eq_some_iff.1 hq
  obtain ⟨score, -, hq⟩ := Option.map_eq_some_iff.1 hq
  have hnum : q.num.toInt = p.num.val := by
    rw [← hq]
    exact toInt_slot p.num
  have hready : decide (q.ready ≠ 0) = p.ready := by
    rw [← hq]
    cases p.ready <;> rfl
  have hsent : (⟨some q.name.val, p.num, some q.score.toInt, decide (q.ready ≠ 0)⟩ : Player) = p := by
    rw [hready, ← hname, ← hscore]
  unfold addRead addPlayer
  rw [hname]
  cases belongs players (some q.name.val) with
  | none =>
    have hroom : 0 ≤ q.num.toInt ∧ q.num.toInt.toNat < maxPlayers := by
      have hlt := p.num.isLt
      omega
    have hpos : (⟨q.num.toInt.toNat, hroom.2⟩ : Slot) = p.num := Fin.ext (show q.num.toInt.toNat = p.num.val by omega)
    dsimp only
    rw [dif_pos hroom, hpos, hsent]
  | some aux =>
    dsimp only
    rw [hready]

/-- What a client reads in `prepareLobby` is what was sent. -/
theorem read_eq {m : Msg} (hm : Lobbying m) {l : Marshalling.Locals} (hl : Legible l m) (r : Room) :
    (m.bytes.bind fun data => r.read data l) = r.hear m := by
  obtain hm | ⟨b, rfl⟩ := hm
  · cases m with
    | string s =>
      obtain ⟨n, rfl⟩ := hm
      obtain ⟨data, v, hdata, hread, hv⟩ := unmarshalling_leave n l
      unfold Room.read Room.hear absorb
      rw [hdata, Option.bind_some, hread, Option.bind_some]
      dsimp only
      rw [hv]
    | player p =>
      obtain ⟨q, hq, hname, hscore, hends, hlen⟩ := hl
      have hmessage : (Msg.player p).message = some (.player q) := congrArg (Option.map _) hq
      have hread : Marshalling.unmarshalling ((Marshalling.Message.player q).text ++ [0]) l = some (some (.player q)) :=
        Marshalling.unmarshalling_player hends hlen
      unfold Room.read Room.hear absorb
      rw [bytes_of_fits hmessage (Marshalling.player_fits hlen), Option.bind_some, hread, Option.bind_some]
      dsimp only
      rw [addRead_eq hq hname hscore]
    | boolean | board => exact hm.elim
  · rw [bytes_of_fits rfl (Marshalling.boolean_fits _), Option.bind_some]
    cases b <;> rfl

/-! ## The steps -/

/-- A clean step is one of the lobby. -/
theorem wireStep_eq {L : Lobby} (h : ∀ k, Texts (L.world.peers k)) {a : WireAct} (ha : Clean L a) :
    wireStep L a = lobbyStep L (erase L a) := by
  cases a with
  | type k text => exact if_pos ha
  | hear k l =>
    unfold wireStep erase lobbyStep
    dsimp only
    cases hq : (L.world.peers k).toClient with
    | nil => rfl
    | cons x xs =>
      dsimp only
      rw [read_eq ((h k).told x (by rw [hq]; exact List.mem_cons_self)) (ha x (by rw [hq]; rfl))]
  | request n db m =>
    unfold wireStep erase lobbyStep Lobby.server loginStep junkOf
    dsimp only
    rw [takeBytes_eq h ha]
  | closed n =>
    cases hc : L.world.round.server.clients n with
    | none =>
      have hlobby : lobbyStep L (erase L (.closed n)) = none := by
        unfold erase lobbyStep Lobby.server loginStep
        dsimp only
        rw [hc, Option.any_none, if_neg Bool.false_ne_true]
        exact ite_self none
      rw [hlobby]
      apply if_neg
      rw [hc]
      exact Bool.false_ne_true
    | some c =>
      obtain ⟨name, hname⟩ := Option.ne_none_iff_exists'.1 (ha c hc)
      apply if_pos
      rw [hc, Option.any_some, Checked.disconnect, hname]
      rfl
  | connect | read | press | leave | accept => rfl

/-! ## What is under way -/

/-- A request sends notices and BOOLEANs. -/
theorem Resolved.lobbying {M : Type} {cd : Codec M} {db : Db} {d : M} {n : Slot} {c : Client} {t t' : Table}
    {es : List Effect} {b : Bool} (h : Resolved cd db d n c t t' es b) {why : Why} {con : Nat} {msg : Msg}
    (hm : .send why con msg ∈ es) : Lobbying msg := by
  have hreply : ∀ {v : Bool}, Effect.send why con msg = .send .reply c.con (.boolean v) → Lobbying msg := by
    intro v he
    cases he
    exact .inr ⟨v, rfl⟩
  have hnotices : ∀ {u : Table} {cn : Client}, .send why con msg ∈ newPlayerNotices u n cn ++ existingPlayersNotices u cn →
      Lobbying msg := by
    intro u cn hm
    exact .inl ((List.mem_append.1 hm).elim notice_of_new notice_of_existing)
  cases h with
  | kept _ hes =>
    rcases hes with rfl | ⟨p, rfl, -⟩
    · cases hm
    · cases List.mem_singleton.1 hm
  | named _ _ _ _ _ _ _ hno =>
    rcases List.mem_append.1 hm with hm | hm
    · exact absurd hm (hno why con msg)
    · exact hreply (List.mem_singleton.1 hm)
  | refused =>
    simp only [List.mem_cons, reduceCtorEq, false_or, List.not_mem_nil, or_false] at hm
    exact hreply hm
  | rejected =>
    rw [List.mem_cons, List.mem_cons] at hm
    rcases hm with hm | hm | hm
    · cases hm
    · exact hreply hm
    · exact hnotices hm
  | admitted asked _ _ hasked =>
    rw [List.mem_cons, List.mem_cons] at hm
    rcases hm with rfl | hm | hm
    · rcases hasked with ⟨-, p, ans, he, -⟩ | ⟨-, p, he⟩
      · cases he
      · cases he
    · exact hreply hm
    · exact hnotices hm
  | toggled => exact .inl (notice_of_new hm)
  | started u =>
    rcases List.mem_append.1 hm with hm | hm
    · exact .inl (notice_of_new hm)
    · obtain ⟨i, ci, -, he⟩ := mem_forClients.1 hm
      cases he
      exact .inr ⟨true, rfl⟩

theorem Texts.deliver {p : Peer Said} (h : Texts p) {es : List Effect}
    (hes : ∀ why con msg, .send why con msg ∈ es → Lobbying msg) (k : Nat) : Texts (p.deliver es k) := by
  refine ⟨h.said, fun x hx => ?_⟩
  rcases List.mem_append.1 hx with hx | hx
  · exact h.told x hx
  · obtain ⟨e, he, hx⟩ := List.mem_filterMap.1 hx
    cases e with
    | send why con msg =>
      obtain ⟨-, hx⟩ := Option.ite_none_right_eq_some.1 hx
      cases hx
      exact hes why con msg he
    | _ => cases hx

theorem texts_update {peers : Nat → Peer Said} (h : ∀ k, Texts (peers k)) {k : Nat} {p : Peer Said} (hp : Texts p) :
    ∀ j, Texts (Function.update peers k p j) := by
  intro j
  by_cases hj : j = k
  · subst hj
    rwa [Function.update_self]
  · rw [Function.update_of_ne hj]
    exact h j

theorem texts_send {L L' : Lobby} (h : ∀ k, Texts (L.world.peers k)) {k : Nat} {d : Said} (hd : d.Short)
    (hs : L.client (.send k d) = some L') : ∀ j, Texts (L'.world.peers j) := by
  obtain ⟨w, hw, rfl⟩ := Lobby.client_cases hs
  obtain ⟨pc, -, rfl⟩ := Option.map_eq_some_iff.1 hw
  refine texts_update h ⟨fun x hx => ?_, (h k).told⟩
  rcases List.mem_append.1 hx with hx | hx
  · exact (h k).said x hx
  · rw [List.mem_singleton.1 hx]
    exact hd

theorem texts_leave {L L' : Lobby} (h : ∀ k, Texts (L.world.peers k)) {k : Nat} (hs : L.client (.leave k) = some L') :
    ∀ j, Texts (L'.world.peers j) := by
  obtain ⟨w, hw, rfl⟩ := Lobby.client_cases hs
  obtain ⟨-, hw⟩ := Option.ite_none_left_eq_some.1 hw
  cases hw
  exact texts_update h ⟨(h k).said, (h k).told⟩

theorem texts_press {L L' : Lobby} (h : ∀ k, Texts (L.world.peers k)) {k : Nat} {pressed : Key}
    (hs : lobbyStep L (.press k pressed) = some L') : ∀ j, Texts (L'.world.peers j) := by
  have htoggle : ∀ b, L.toggle k b = some L' → ∀ j, Texts (L'.world.peers j) := by
    intro b ht
    obtain ⟨L₁, hc, rfl⟩ := Option.map_eq_some_iff.1 ht
    have hsent := texts_send h (d := .boolean b) trivial hc
    exact hsent
  obtain ⟨-, hs⟩ := Option.ite_none_right_eq_some.1 hs
  cases pressed with
  | enter =>
    cases hr : (L.rooms k).ready with
    | false =>
      rw [hr] at hs
      exact htoggle true hs
    | true =>
      rw [hr] at hs
      rwa [← Option.some.inj hs]
  | x =>
    cases hr : (L.rooms k).ready with
    | true =>
      rw [hr] at hs
      exact htoggle false hs
    | false =>
      rw [hr] at hs
      exact texts_leave h hs

theorem texts_server {L L' : Lobby} (h : ∀ k, Texts (L.world.peers k)) {a : LoginAct Said}
    (ha : (∃ n, a = .accept n) ∨ (∃ n db junk, a = .request n db junk) ∨ ∃ n db junk d, a = .closed n db junk d)
    (hs : L.server a = some L') : ∀ k, Texts (L'.world.peers k) := by
  obtain ⟨-, w, hw, rfl⟩ := Lobby.server_cases hs
  obtain ⟨n, rfl⟩ | ⟨n, db, junk, rfl⟩ | ⟨n, db, junk, d, rfl⟩ := ha
  · obtain ⟨-, hw⟩ := Option.ite_none_right_eq_some.1 hw
    obtain ⟨r, hr, rfl⟩ := serve_cases hw
    obtain ⟨-, hr⟩ := Option.ite_none_right_eq_some.1 hr
    cases hr
    exact fun k => (h k).deliver (fun _ _ _ hm => absurd hm List.not_mem_nil) k
  · obtain ⟨c, d, ds, sv, hc, hq, hreq, rfl⟩ := take_cases hw
    obtain ⟨es, b, hres, hout, -⟩ := resolves_of_client hreq hc
    have hout : sv.out = es := hout
    dsimp only
    rw [hout]
    have htaken : Texts { L.world.peers c.con with toServer := ds, taken := (L.world.peers c.con).taken + 1 } :=
      ⟨fun x hx => (h c.con).said x (by rw [hq]; exact List.mem_cons_of_mem _ hx), (h c.con).told⟩
    exact fun k => (texts_update h htaken k).deliver (fun _ _ _ hm => hres.lobbying hm) k
  · obtain ⟨-, hw⟩ := Option.ite_none_right_eq_some.1 hw
    obtain ⟨r, hr, rfl⟩ := serve_cases hw
    obtain ⟨sv, hreq, rfl⟩ := Option.map_eq_some_iff.1 hr
    obtain ⟨c, -, rfl⟩ := resolve_closed hreq
    exact fun k => (h k).deliver (fun _ _ _ hm => .inl (notice_of_leave (disconnect_sends hm))) k

theorem texts_step {L L' : Lobby} (h : ∀ k, Texts (L.world.peers k)) {a : WireAct} (ha : Clean L a)
    (hs : lobbyStep L (erase L a) = some L') : ∀ k, Texts (L'.world.peers k) := by
  cases a with
  | connect =>
    obtain ⟨w, hw, rfl⟩ := Lobby.client_cases hs
    obtain ⟨-, hw⟩ := Option.ite_none_left_eq_some.1 hw
    cases hw
    exact texts_update h ⟨fun _ hd => absurd hd List.not_mem_nil, fun _ hx => absurd hx List.not_mem_nil⟩
  | type k text =>
    have hd : (Said.string text.val).Short := ⟨text.property, ha⟩
    simp only [erase, lobbyStep] at hs
    split at hs
    · obtain ⟨L₁, hc, rfl⟩ := Option.map_eq_some_iff.1 hs
      have hsent := texts_send h hd hc
      exact hsent
    · exact texts_send h hd (Option.ite_none_left_eq_some.1 hs).2
  | read k =>
    obtain ⟨w, hw, rfl⟩ := Lobby.client_cases hs
    simp only [loginStep] at hw
    split at hw
    · cases hw
    · rename_i x xs hq
      obtain ⟨pc, -, rfl⟩ := Option.map_eq_some_iff.1 hw
      exact texts_update h ⟨(h k).said, fun y hy => (h k).told y (by rw [hq]; exact List.mem_cons_of_mem _ hy)⟩
  | hear k l =>
    simp only [erase, lobbyStep] at hs
    split at hs
    · cases hs
    · rename_i x xs hq
      obtain ⟨-, hs⟩ := Option.ite_none_right_eq_some.1 hs
      obtain ⟨r, -, rfl⟩ := Option.map_eq_some_iff.1 hs
      exact texts_update h ⟨(h k).said, fun y hy => (h k).told y (by rw [hq]; exact List.mem_cons_of_mem _ hy)⟩
  | press k pressed => exact texts_press h hs
  | leave k => exact texts_leave h hs
  | accept n => exact texts_server h (.inl ⟨n, rfl⟩) hs
  | request n db m => exact texts_server h (.inr (.inl ⟨n, db, _, rfl⟩)) hs
  | closed n => exact texts_server h (.inr (.inr ⟨n, _, _, _, rfl⟩)) hs

/-! ## Runs -/

/-- A clean run is one of the lobby. -/
theorem wire_run {ok : Lobby → LobbyAct → Prop} {L : Lobby}
    (h : wireMachine.ReachesBy (fun L a => Clean L a ∧ ok L (erase L a)) L) :
    lobbyMachine.ReachesBy ok L ∧ ∀ k, Texts (L.world.peers k) := by
  induction h with
  | init hs =>
    rw [hs]
    exact ⟨.init rfl, fun k => ⟨fun _ hd => absurd hd List.not_mem_nil, fun _ hx => absurd hx List.not_mem_nil⟩⟩
  | step _ hok hs ih =>
    have hlobby := (wireStep_eq ih.2 hok.1).symm.trans hs
    exact ⟨.step ih.1 hok.2 hlobby, texts_step ih.2 hok.1 hlobby⟩

/-! ## Leave notices -/

/-- The STRING that a client in `prepareLobby` reads next decodes, with any
arrays, to the number of a player in its table, which `playerLeft` removes. -/
def LeaveRead (L : Lobby) : Prop :=
  ∀ k x xs s, (L.world.peers k).pc = .returned → (L.rooms k).gameStart = false →
    (L.world.peers k).toClient = x :: xs → x.msg = .string s →
    ∃ data, x.msg.bytes = some data ∧ ∀ l, ∃ v n q, Marshalling.unmarshalling data l = some (some (.string v)) ∧
      strtol v.val = n.val ∧ (L.rooms k).players n = some q ∧ q.num = n ∧
      playerLeft (strtol v.val) (L.rooms k).players = some (Function.update (L.rooms k).players n none)

/-- While the messages are clean and nobody leaves unannounced, every leave
notice finds its entry. -/
theorem leave_notices_found {L : Lobby}
    (h : wireMachine.ReachesBy (fun L a => Clean L a ∧ Announces L (erase L a)) L) : LeaveRead L := by
  obtain ⟨hrun, htexts⟩ := wire_run h
  intro k x xs s hp hg hq hs
  obtain ⟨n, q, hn, hentry, hnum, hleft⟩ := leave_found hrun k x xs s hp hg hq hs
  -- Every STRING of the lobby is the number of a slot.
  obtain ⟨m, hm⟩ : ∃ m, x.msg = .string (slotText m) := by
    have htold := (htexts k).told x (by rw [hq]; exact List.mem_cons_self)
    rw [hs] at htold ⊢
    obtain ⟨m, rfl⟩ | ⟨b, hb⟩ := htold
    · exact ⟨m, rfl⟩
    · cases hb
  obtain rfl := Msg.string.inj (hs.symm.trans hm)
  rw [hm]
  obtain ⟨data, v, hdata, -, -⟩ := unmarshalling_leave m Marshalling.cleared
  refine ⟨data, hdata, fun l => ?_⟩
  obtain ⟨data', v, hdata', hread, hv⟩ := unmarshalling_leave m l
  obtain rfl := Option.some.inj (hdata.symm.trans hdata')
  rw [← hv] at hn hleft
  exact ⟨v, n, q, hread, hn, hentry, hnum, hleft⟩

/-- What client `k` reads next, if it is a STRING. -/
def Lobby.leaving (L : Lobby) (k : Nat) : Option Bytes :=
  (L.world.peers k).toClient.head?.bind fun x =>
    match x.msg with
    | .string s => some s
    | _ => none

/-- Connection `k` is accepted in slot `n`, sends its name and is answered. -/
def names (k : Nat) (n : Slot) (name : CString) : List WireAct :=
  [.connect, .accept n, .type k name, .request n trusting Checked.clean, .read k]

/-- It sends a password that is right. -/
def admits (k : Nat) (n : Slot) : List WireAct :=
  [.type k ⟨[112, 119], by decide⟩, .request n trusting Checked.clean, .read k]

/-- It hears what it is sent. -/
def hears (k : Nat) : WireAct := .hear k Marshalling.cleared

def ana : CString := ⟨[97, 110, 97], by decide⟩

def eva : CString := ⟨[101, 118, 97], by decide⟩

/-- The second of two clients leaves, and the first one, which has read of its
arrival, reads that next. -/
theorem leave_notices_found_second : ∃ L, wireMachine.ReachesBy (fun L a => Clean L a ∧ Announces L (erase L a)) L ∧
    (L.world.peers 0).pc = .returned ∧ L.leaving 0 = some [49] ∧ LeaveRead L := by
  obtain ⟨L, hr, hp⟩ : ∃ L, wireMachine.ReachesBy (fun L a => Clean L a ∧ Announces L (erase L a)) L ∧
      decide ((L.world.peers 0).pc = .returned ∧ L.leaving 0 = some [49]) = true :=
    Machine.exists_of_runActs (.init rfl)
      (names 0 0 ana ++ admits 0 0 ++ (names 1 1 eva ++ admits 1 1) ++ [.leave 1, .closed 1, hears 0, hears 0]) _
      (by decide +kernel)
  obtain ⟨hp, hleaving⟩ := of_decide_eq_true hp
  exact ⟨L, hr, hp, hleaving, leave_notices_found hr⟩

/-- A client that has only sent its name leaves, and the first one, which has
never heard of it, is told. -/
theorem leave_of_stranger : ¬∀ L, wireMachine.Reaches L → LeaveRead L := by
  intro h
  obtain ⟨L, hr, hp⟩ : ∃ L, wireMachine.Reaches L ∧ decide ((L.world.peers 0).pc = .returned ∧
      (L.rooms 0).gameStart = false ∧ L.leaving 0 = some [49] ∧ (L.rooms 0).players 1 = none) = true :=
    Machine.exists_of_runActs (.init rfl) (names 0 0 ana ++ admits 0 0 ++ names 1 1 eva ++ [.leave 1, .closed 1, hears 0]) _
      (by decide +kernel)
  obtain ⟨hp, hg, hleaving, hnone⟩ := of_decide_eq_true hp
  obtain ⟨x, hx, hs⟩ := Option.bind_eq_some_iff.1 hleaving
  obtain ⟨xs, hq⟩ := List.head?_eq_some_iff.1 hx
  have hmsg : x.msg = .string (slotText 1) := by
    cases hm : x.msg with
    | string s =>
      rw [hm] at hs
      exact congrArg Msg.string (Option.some.inj hs)
    | _ => rw [hm] at hs; cases hs
  obtain ⟨data, hdata, hread⟩ := h L hr 0 x xs _ hp hg hq hmsg
  rw [hmsg] at hdata
  obtain ⟨v, n, q, hv, hn, hentry, -⟩ := hread Marshalling.cleared
  obtain ⟨data', v', hdata', hv', htext⟩ := unmarshalling_leave 1 Marshalling.cleared
  obtain rfl := Option.some.inj (hdata.symm.trans hdata')
  obtain rfl := Marshalling.Value.string.inj (Option.some.inj (Option.some.inj (hv.symm.trans hv')))
  rw [htext, strtol_slotText] at hn
  obtain rfl : (1 : Slot) = n := Fin.ext (by exact_mod_cast hn)
  rw [hnone] at hentry
  cases hentry

/-! ## Tables -/

end Snuffin.ChildServer
