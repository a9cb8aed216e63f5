import Snuffin.Announcements
/-!
# Every leave notice finds its entry

The invariant of the lobby, and its steps: what a client in `prepareLobby` has
still to read can be read to the end, so `playerLeft` never uses an unset
index while nobody leaves unannounced.
-/
open Lib Snuffin.Game

namespace Snuffin.ChildServer

/-! ## The invariant -/

/-- A client that the server has not accepted yet. -/
def Outside (p : Peer Said) : Prop :=
  p.toClient = [] ∧ (p.pc = .absent ∨ p.pc = .sendName ∧ p.toServer = [] ∨ p.pc = .readBelongs)

theorem Outside.deliver {p : Peer Said} (h : Outside p) {es : List Effect} {k : Nat} (hm : mail es k p.taken = []) :
    Outside (p.deliver es k) := by
  unfold Peer.deliver
  rw [hm, List.append_nil]
  exact h

/-- Before `prepareLobby`. -/
def Room.Blank (r : Room) : Prop := r.players = (fun _ => none) ∧ r.ready = false

/-- Where the client of connection `k` is. -/
def Placed (strict : Prop) (s : Round) (told : List Nat) (k : Nat) (p : Peer Said) (r : Room) : Prop :=
  s.nextCon ≤ k ∧ Outside p ∨
    ∃ n c, s.server.clients n = some c ∧ c.con = k ∧ Stage (Prospect strict s.server.clients told n c.name) c p r

structure LobbyInv (strict : Prop) (L : Lobby) : Prop where
  below : L.world.round.nextCon ≤ L.world.connected
  absent : ∀ k, (L.world.peers k).pc = .absent ↔ L.world.connected ≤ k
  table : TableInv L.world.round
  lobby : L.world.round.server.startGame = false → ∀ n c, L.world.round.server.clients n = some c → InLobby c
  told : ∀ k, ∀ con ∈ L.told k, con < L.world.round.nextCon
  rooms : ∀ k, (L.world.peers k).pc ≠ .gone → (L.world.peers k).pc ≠ .returned → (L.rooms k).Blank
  placed : ∀ k, (L.world.peers k).pc ≠ .gone → Placed strict L.world.round (L.told k) k (L.world.peers k) (L.rooms k)

section Inv
variable {strict : Prop} {L : Lobby}

/-- A step of the client of connection `k`. -/
theorem LobbyInv.client (h : LobbyInv strict L) (L' : Lobby) (k : Nat) (hround : L'.world.round = L.world.round)
    (hconn : L'.world.connected = L.world.connected) (htold : L'.told = L.told)
    (hother : ∀ j, j ≠ k → L'.world.peers j = L.world.peers j ∧ L'.rooms j = L.rooms j)
    (hk : (L.world.peers k).pc ≠ .absent) (hk' : (L'.world.peers k).pc ≠ .absent)
    (hroom : (L'.world.peers k).pc ≠ .gone → (L'.world.peers k).pc ≠ .returned → (L'.rooms k).Blank)
    (hplaced : (L'.world.peers k).pc ≠ .gone →
      Placed strict L.world.round (L.told k) k (L'.world.peers k) (L'.rooms k)) : LobbyInv strict L' where
  below := by
    rw [hround, hconn]
    exact h.below
  absent j := by
    rw [hconn, ← h.absent j]
    by_cases hj : j = k
    · subst hj
      exact iff_of_false hk' hk
    · rw [(hother j hj).1]
  table := hround ▸ h.table
  lobby := hround ▸ h.lobby
  told := by
    rw [hround, htold]
    exact h.told
  rooms j := by
    by_cases hj : j = k
    · subst hj
      exact hroom
    · rw [(hother j hj).1, (hother j hj).2]
      exact h.rooms j
  placed j := by
    rw [hround, htold]
    by_cases hj : j = k
    · subst hj
      exact hplaced
    · rw [(hother j hj).1, (hother j hj).2]
      exact h.placed j

/-- A step of the server. -/
theorem LobbyInv.server (h : LobbyInv strict L) (L' : Lobby) (hconn : L'.world.connected = L.world.connected)
    (hpc : ∀ k, (L'.world.peers k).pc = (L.world.peers k).pc) (hrooms : L'.rooms = L.rooms)
    (hnext : L.world.round.nextCon ≤ L'.world.round.nextCon) (hbelow : L'.world.round.nextCon ≤ L.world.connected)
    (htable : TableInv L'.world.round)
    (hlobby : L'.world.round.server.startGame = false →
      ∀ n c, L'.world.round.server.clients n = some c → InLobby c)
    (htold : ∀ k, L'.told k = L.told k ++ announced L'.world.round.server k)
    (hplaced : ∀ k, (L.world.peers k).pc ≠ .gone →
      Placed strict L'.world.round (L'.told k) k (L'.world.peers k) (L.rooms k)) : LobbyInv strict L' where
  below := hconn ▸ hbelow
  absent k := by
    rw [hpc, hconn]
    exact h.absent k
  table := htable
  lobby := hlobby
  told k con hcon := by
    rw [htold] at hcon
    rcases List.mem_append.1 hcon with hcon | hcon
    · exact Nat.lt_of_lt_of_le (h.told k con hcon) hnext
    · obtain ⟨e, -, he⟩ := List.mem_filterMap.1 hcon
      cases e with
      | send why con' msg =>
        cases msg with
        | player q =>
          obtain ⟨-, he⟩ := Option.ite_none_right_eq_some.1 he
          exact htable.below q.num con he
        | _ => cases he
      | _ => cases he
  rooms k := by
    rw [hpc, hrooms]
    exact h.rooms k
  placed k := by
    rw [hpc, hrooms]
    exact hplaced k

/-- A connection that has been accepted and is not closed sits in a slot. -/
theorem LobbyInv.stage (h : LobbyInv strict L) {k : Nat} (hg : (L.world.peers k).pc ≠ .gone)
    (ho : ¬Outside (L.world.peers k)) : ∃ n c, L.world.round.server.clients n = some c ∧ c.con = k ∧
      Stage (Prospect strict L.world.round.server.clients (L.told k) n c.name) c (L.world.peers k) (L.rooms k) := by
  rcases h.placed k hg with ⟨-, hout⟩ | hin
  · exact absurd hout ho
  · exact hin

/-! ## The steps of a client -/

theorem lobby_connect (h : LobbyInv strict L) :
    LobbyInv strict { L with world := { L.world with
      connected := L.world.connected + 1
      peers := Function.update L.world.peers L.world.connected (.new .sendName) } } where
  below := Nat.le_succ_of_le h.below
  absent k := by
    by_cases hk : k = L.world.connected
    · subst hk
      simp [Peer.new]
    · dsimp only
      rw [Function.update_of_ne hk, h.absent k]
      omega
  table := h.table
  lobby := h.lobby
  told := h.told
  rooms k := by
    by_cases hk : k = L.world.connected
    · subst hk
      intro _ _
      have habs := (h.absent L.world.connected).2 (Nat.le_refl _)
      exact h.rooms L.world.connected (by rw [habs]; simp) (by rw [habs]; simp)
    · dsimp only
      rw [Function.update_of_ne hk]
      exact h.rooms k
  placed k := by
    by_cases hk : k = L.world.connected
    · subst hk
      intro _
      refine .inl ⟨h.below, ?_⟩
      dsimp only
      rw [Function.update_self]
      exact ⟨rfl, .inr (.inl ⟨rfl, rfl⟩)⟩
    · dsimp only
      rw [Function.update_of_ne hk]
      exact h.placed k

theorem Pc.send_some {pc pc' : Pc} (h : pc.send = some pc') : pc ≠ .absent ∧ pc' ≠ .absent ∧ pc ≠ .gone ∧ pc' ≠ .gone := by
  cases pc <;> cases h <;> simp

theorem Pc.read_some {pc pc' : Pc} {v : Bool} (h : pc.read v = some pc') :
    pc ≠ .absent ∧ pc' ≠ .absent ∧ pc ≠ .gone ∧ pc ≠ .returned := by
  cases pc with
  | readBelongs =>
    cases h
    simp
  | readBelongs2 | readWPass => cases v <;> cases h <;> simp
  | _ => cases h

/-- The name goes out. -/
theorem lobby_name (h : LobbyInv strict L) {k : Nat} (hpc : (L.world.peers k).pc = .sendName) (text : Bytes) :
    LobbyInv strict { L with
      world := { L.world with
        peers := Function.update L.world.peers k
          { L.world.peers k with
            pc := .readBelongs
            toServer := (L.world.peers k).toServer ++ [.string text]
            sent := (L.world.peers k).sent + 1 } }
      rooms := Function.update L.rooms k { L.rooms k with myName := text } } := by
  have hg : (L.world.peers k).pc ≠ .gone := by simp [hpc]
  refine h.client _ k rfl rfl rfl ?_ ?_ ?_ ?_ ?_
  · intro j hj
    exact ⟨Function.update_of_ne hj _ _, Function.update_of_ne hj _ _⟩
  · simp [hpc]
  · simp
  · intro _ _
    dsimp only
    rw [Function.update_self]
    exact h.rooms k hg (by simp [hpc])
  · intro _
    dsimp only
    rw [Function.update_self, Function.update_self]
    rcases h.placed k hg with ⟨hle, hq, -⟩ | ⟨n, c, hc, hcon, hst⟩
    · exact .inl ⟨hle, hq, .inr (.inr rfl)⟩
    · exact .inr ⟨n, c, hc, hcon, hst.name hpc _ _ _⟩

/-- A password goes out. -/
theorem lobby_password (h : LobbyInv strict L) {k : Nat} {pc : Pc} (hpc : (L.world.peers k).pc.send = some pc)
    (hn : (L.world.peers k).pc ≠ .sendName) (hr : (L.world.peers k).pc ≠ .returned) (text : Bytes) :
    LobbyInv strict { L with
      world := { L.world with
        peers := Function.update L.world.peers k
          { L.world.peers k with
            pc := pc
            toServer := (L.world.peers k).toServer ++ [.string text]
            sent := (L.world.peers k).sent + 1 } } } := by
  obtain ⟨habs, habs', hg, -⟩ := Pc.send_some hpc
  refine h.client _ k rfl rfl rfl ?_ ?_ ?_ ?_ ?_
  · intro j hj
    exact ⟨Function.update_of_ne hj _ _, rfl⟩
  · exact habs
  · simpa using habs'
  · intro _ _
    exact h.rooms k hg hr
  · intro _
    dsimp only
    rw [Function.update_self]
    have hout : ¬Outside (L.world.peers k) := by
      rintro ⟨-, hp | ⟨hp, -⟩ | hp⟩
      · exact habs hp
      · exact hn hp
      · rw [hp] at hpc
        cases hpc
    obtain ⟨n, c, hc, hcon, hst⟩ := h.stage hg hout
    exact .inr ⟨n, c, hc, hcon, hst.send hpc hn _ _⟩

/-- An answer is read in `getInformation`. -/
theorem lobby_read (h : LobbyInv strict L) {k : Nat} {x : Packet} {xs : List Packet}
    (hq : (L.world.peers k).toClient = x :: xs) {pc : Pc} (hpc : (L.world.peers k).pc.read (unmarshBoolean x.msg) = some pc)
    (reads : List Read) :
    LobbyInv strict { L with
      world := { L.world with
        peers := Function.update L.world.peers k { L.world.peers k with pc := pc, toClient := xs }
        reads := reads } } := by
  obtain ⟨habs, habs', hg, hr⟩ := Pc.read_some hpc
  have hroom := h.rooms k hg hr
  refine h.client _ k rfl rfl rfl ?_ ?_ ?_ ?_ ?_
  · intro j hj
    exact ⟨Function.update_of_ne hj _ _, rfl⟩
  · exact habs
  · simpa using habs'
  · intro _ _
    exact hroom
  · intro _
    dsimp only
    rw [Function.update_self]
    have hout : ¬Outside (L.world.peers k) := by
      rintro ⟨hq', -⟩
      rw [hq] at hq'
      cases hq'
    obtain ⟨n, c, hc, hcon, hst⟩ := h.stage hg hout
    exact .inr ⟨n, c, hc, hcon, hst.read hq hpc⟩

theorem outside_returned {p : Peer Said} (h : p.pc = .returned) : ¬Outside p := by
  rintro ⟨-, hp | ⟨hp, -⟩ | hp⟩ <;> rw [h] at hp <;> cases hp

/-- A message is read in `prepareLobby`. -/
theorem lobby_hear (h : LobbyInv strict L) {k : Nat} (hp : (L.world.peers k).pc = .returned) {x : Packet}
    {xs : List Packet} (hq : (L.world.peers k).toClient = x :: xs) {r : Room} (hr : (L.rooms k).hear x.msg = some r) :
    LobbyInv strict { L with
      world := { L.world with peers := Function.update L.world.peers k { L.world.peers k with toClient := xs } }
      rooms := Function.update L.rooms k r } := by
  refine h.client _ k rfl rfl rfl ?_ ?_ ?_ ?_ ?_
  · intro j hj
    exact ⟨Function.update_of_ne hj _ _, Function.update_of_ne hj _ _⟩
  · simp [hp]
  · simp [hp]
  · intro _ hret
    dsimp only at hret
    rw [Function.update_self] at hret
    exact absurd hp hret
  · intro _
    dsimp only
    rw [Function.update_self, Function.update_self]
    obtain ⟨n, c, hc, hcon, hst⟩ := h.stage (by simp [hp]) (outside_returned hp)
    obtain ⟨he, hpro⟩ := hst.returned hp
    rw [hq] at hpro
    obtain ⟨r', hr', hpro'⟩ := hpro.hear
    rw [hr, Option.some.injEq] at hr'
    exact .inr ⟨n, c, hc, hcon, .inside he hp (hr' ▸ hpro')⟩

/-- A client changes its mind. For `strict` it is known by its own name, and
has an entry. -/
theorem lobby_toggle (h : LobbyInv strict L) {k : Nat} (hp : (L.world.peers k).pc = .returned) (b : Bool)
    (hname : strict → ∀ n c, L.world.round.server.clients n = some c → c.con = k → c.name = some (L.rooms k).myName)
    (hhas : strict → (belongs (L.rooms k).players (some (L.rooms k).myName)).isSome = true) :
    LobbyInv strict { L with
      world := { L.world with
        peers := Function.update L.world.peers k
          { L.world.peers k with
            pc := .returned
            toServer := (L.world.peers k).toServer ++ [.boolean b]
            sent := (L.world.peers k).sent + 1 } }
      rooms := Function.update L.rooms k
        { L.rooms k with ready := b, players := changeReady (L.rooms k).myName b (L.rooms k).players } } := by
  refine h.client _ k rfl rfl rfl ?_ ?_ ?_ ?_ ?_
  · intro j hj
    exact ⟨Function.update_of_ne hj _ _, Function.update_of_ne hj _ _⟩
  · simp [hp]
  · simp
  · intro _ hret
    simp at hret
  · intro _
    dsimp only
    rw [Function.update_self, Function.update_self]
    obtain ⟨n, c, hc, hcon, hst⟩ := h.stage (by simp [hp]) (outside_returned hp)
    obtain ⟨he, hpro⟩ := hst.returned hp
    exact .inr ⟨n, c, hc, hcon, .inside he rfl (hpro.press (fun hs => hname hs n c hc hcon) hhas b)⟩

theorem lobby_leave (h : LobbyInv strict L) {k : Nat} (hk : (L.world.peers k).pc ≠ .absent) :
    LobbyInv strict { L with
      world := { L.world with peers := Function.update L.world.peers k { L.world.peers k with pc := .gone } } } := by
  refine h.client _ k rfl rfl rfl ?_ ?_ ?_ ?_ ?_
  · intro j hj
    exact ⟨Function.update_of_ne hj _ _, rfl⟩
  · exact hk
  · simp
  · intro hg
    simp at hg
  · intro hg
    simp at hg

/-! ## The steps of the server -/

theorem Lobby.server_cases {a : LoginAct Said} {L' : Lobby} (h : L.server a = some L') :
    L.world.round.server.startGame = false ∧ ∃ w, loginStep lobbyCodec L.world a = some w ∧
      L' = { L with world := w, told := fun k => L.told k ++ announced w.round.server k } := by
  obtain ⟨hopen, h⟩ := Option.ite_none_left_eq_some.1 h
  obtain ⟨w, hw, rfl⟩ := Option.map_eq_some_iff.1 h
  exact ⟨Bool.eq_false_of_not_eq_true hopen, w, hw, rfl⟩

/-- The table before a step, with nothing sent yet. -/
theorem LobbyInv.quiet (h : LobbyInv strict L) :
    TableInv { L.world.round with server := { L.world.round.server with out := [] } } :=
  h.table.keep h.table.known rfl fun _ _ hc => hc

/-- A client that is not accepted gets nothing. -/
theorem LobbyInv.outside_mail (h : LobbyInv strict L) {k taken : Nat} (hk : L.world.round.nextCon ≤ k) {es : List Effect}
    (hes : ∀ why con msg, .send why con msg ∈ es → ∃ n, cons L.world.round.server.clients n = some con) :
    mail es k taken = [] := by
  apply mail_eq_nil
  intro why msg hmem
  obtain ⟨n, hn⟩ := hes why k msg hmem
  have hlt := h.table.below n k hn
  omega

theorem lobby_accept (h : LobbyInv strict L) {n : Slot} {L' : Lobby} (hs : L.server (.accept n) = some L') :
    LobbyInv strict L' := by
  obtain ⟨hopen, w, hw, rfl⟩ := Lobby.server_cases hs
  obtain ⟨hlt, hw⟩ := Option.ite_none_right_eq_some.1 hw
  obtain ⟨r, hr, rfl⟩ := serve_cases hw
  have htable := table_step h.quiet hr
  obtain ⟨hn, hr⟩ := Option.ite_none_right_eq_some.1 hr
  cases hr
  refine h.server _ rfl (fun _ => rfl) rfl (Nat.le_succ _) hlt htable ?_ (fun _ => rfl) ?_
  · intro _
    exact forall_update (h.lobby hopen) ⟨.inl ⟨rfl, rfl⟩, fun _ => rfl⟩
  · intro k hg
    have htold : L.told k ++ announced (Server.setClient { L.world.round.server with out := [] } n
        (newClient L.world.round.nextCon)) k = L.told k := List.append_nil _
    dsimp only
    rw [htold]
    rcases h.placed k hg with ⟨hle, hout⟩ | ⟨m, c, hc, hcon, hst⟩
    · rcases Nat.eq_or_lt_of_le hle with rfl | hlt'
      · refine .inr ⟨n, newClient L.world.round.nextCon, Function.update_self .., rfl, ?_⟩
        dsimp only [setClient_out]
        rw [deliver_nil]
        obtain ⟨hq, hp | ⟨hp, hs⟩ | hp⟩ := hout
        · have hle' := (h.absent _).1 hp
          omega
        · exact .unnamed rfl hp hs hq
        · exact .named rfl hp hq
      · exact .inl ⟨hlt', by rwa [setClient_out, deliver_nil]⟩
    · have hmn : m ≠ n := by
        rintro rfl
        rw [hn] at hc
        cases hc
      refine .inr ⟨m, c, by rw [setClient_clients, Function.update_of_ne hmn, hc], hcon, ?_⟩
      subst hcon
      apply hst.deliver
      · intro _
        exact ⟨rfl, noTrue_nil, fun _ => rfl⟩
      · intro he
        refine ⟨he, fun q hq => ?_⟩
        rw [setClient_out, mail_nil, List.append_nil]
        refine hq.mono fun u hu => hu.accept hn fun htold => ?_
        have hcon := h.told c.con _ htold
        omega

theorem Resolved.inLobby {db : Db} {d : Said} {n : Slot} {c : Client} {t t' : Table} {es : List Effect} {b : Bool}
    (hc : t n = some c) (h : Resolved lobbyCodec db d n c t t' es b) (hb : b = false)
    (hl : ∀ m c', t m = some c' → InLobby c') : ∀ m c', t' m = some c' → InLobby c' := by
  have hupdate : ∀ u : Client, InLobby u → ∀ m c', Function.update t n (some u) m = some c' → InLobby c' :=
    fun u => forall_update hl
  cases h with
  | kept | refused | rejected => exact hl
  | named name e score es b hu he hno =>
    have hlog : c.state = .logging := by
      rcases (hl n c hc).state with ⟨-, hs⟩ | ⟨he', -⟩
      · exact hs
      · rw [hu] at he'
        cases he'
    apply hupdate
    rcases he with rfl | rfl
    · exact ⟨.inl ⟨rfl, hlog⟩, fun he => by cases he⟩
    · exact ⟨.inl ⟨rfl, hlog⟩, fun he => by cases he⟩
  | admitted asked u hu _ =>
    subst hu
    apply hupdate
    exact ⟨.inr ⟨rfl, .inl rfl⟩, fun he => by cases he⟩
  | toggled st u he hst hu _ =>
    subst hu
    apply hupdate
    exact ⟨.inr ⟨he, hst.symm⟩, fun he' => by rw [he] at he'; cases he'⟩
  | started => cases hb

/-- A message is resolved. -/
theorem lobby_request (h : LobbyInv strict L) {n : Slot} {db : Db} {junk : Bytes} {L' : Lobby}
    (hann : Announces L (.request n db junk)) (hset : strict → Settles L (.request n db junk))
    (hs : L.server (.request n db junk) = some L') : LobbyInv strict L' := by
  obtain ⟨hopen, w, hw, rfl⟩ := Lobby.server_cases hs
  obtain ⟨c, d, ds, sv, hc, hq, hreq, rfl⟩ := take_cases hw
  obtain ⟨es, b, hres, hout, hgame⟩ := resolves_of_client hreq hc
  rw [List.nil_append] at hout
  have hstep : roundStep lobbyCodec { L.world.round with server := { L.world.round.server with out := [] } }
      (.request n db junk true d) = some { L.world.round with server := sv, moved := L.world.round.moved ++ started sv.out } :=
    congrArg (Option.map _) hreq
  have hhead : d ∈ (L.world.peers c.con).toServer.head? := by rw [hq]; rfl
  have hlob := h.lobby hopen
  have hdist : c.expecting.login = true → ∀ c', sv.clients n = some c' → c'.expecting.login = false →
      Admits db junk d c ∧ Distinct L.world.round.server.clients := by
    intro hl c' hc' hl'
    have hadm := admits_of_resolve hreq hc hl hc' hl'
    exact ⟨hadm, hann c hc d hhead (.inl hadm)⟩
  refine h.server _ rfl (fun k => ?_) rfl (Nat.le_refl _) h.below (table_step h.quiet hstep) ?_ (fun _ => rfl) ?_
  · by_cases hk : k = c.con
    · subst hk
      simp [Peer.deliver]
    · simp [Peer.deliver, hk]
  · intro hopen'
    apply hres.inLobby hc _ hlob
    rw [hopen'] at hgame
    exact (Bool.or_eq_false_iff.1 hgame.symm).1
  · intro k hg
    dsimp only
    by_cases hk : k = c.con
    · subst hk
      rw [Function.update_self, announced_eq sv c.con ((L.world.peers c.con).taken + 1), hout]
      rcases h.placed c.con hg with ⟨hle, -⟩ | ⟨m, c₂, hc₂, hcon, hst⟩
      · have hlt := h.table.below n c.con (cons_eq_some.2 ⟨c, hc, rfl⟩)
        omega
      · obtain rfl := Apart.slot h.table.apart hc m c₂ hc₂ hcon
        rw [Option.some.inj (hc₂.symm.trans hc)] at hst
        obtain ⟨c', hc', hcon', hst'⟩ := hst.resolve hq (h.rooms _ hg) h.table.apart hc hlob hres (fun hl c' hc' hl' => by
          obtain ⟨hadm, hd⟩ := hdist hl c' hc' hl'
          exact ⟨hd, fun hs => (hset hs c hc d hhead).1 hadm⟩) ((L.world.peers c.con).taken + 1)
        exact .inr ⟨m, c', hc', hcon', hst'⟩
    · rw [Function.update_of_ne hk, announced_eq sv k (L.world.peers k).taken, hout]
      rcases h.placed k hg with ⟨hle, hout'⟩ | ⟨m, cm, hm, hcon, hst⟩
      · have hnone : mail es k (L.world.peers k).taken = [] := by
          apply h.outside_mail hle
          intro why con msg hmem
          rcases hres.sends hmem with rfl | ⟨i, ci, hi, rfl, -⟩
          · exact ⟨n, cons_eq_some.2 ⟨c, hc, rfl⟩⟩
          · exact ⟨i, cons_eq_some.2 ⟨ci, hi, rfl⟩⟩
        exact .inl ⟨hle, hout'.deliver hnone⟩
      · subst hcon
        have hmn : m ≠ n := by
          rintro rfl
          rw [Option.some.inj (hm.symm.trans hc)] at hk
          exact hk rfl
        have hknown : c.expecting ≠ .user → ∃ name, c.name = some name := by
          intro he
          obtain ⟨name, -, hname, -⟩ := (h.table.known n c hc).past he
          exact ⟨name, hname⟩
        have hrej : Rejects db d c → Distinct L.world.round.server.clients ∧ (strict → cm.state = .logging) := by
          intro hr
          exact ⟨hann c hc d hhead (.inr hr), fun hs => (hset hs c hc d hhead).2 hr m hmn cm hm hg⟩
        obtain ⟨cm', hm', hcon', hst'⟩ := hst.overhear hmn h.table.apart hm hc hlob hknown hres
          (fun hl c' hc' hl' => (hdist hl c' hc' hl').2) hrej
        exact .inr ⟨m, cm', hm', hcon', hst'⟩

/-- A client is found to have left. -/
theorem lobby_closed (h : LobbyInv strict L) {n : Slot} {db : Db} {junk : Bytes} {d : Said} {L' : Lobby}
    (hann : Announces L (.closed n db junk d)) (hs : L.server (.closed n db junk d) = some L') : LobbyInv strict L' := by
  obtain ⟨hopen, w, hw, rfl⟩ := Lobby.server_cases hs
  obtain ⟨hgone, hw⟩ := Option.ite_none_right_eq_some.1 hw
  obtain ⟨r, hr, rfl⟩ := serve_cases hw
  have htable := table_step h.quiet hr
  obtain ⟨sv, hreq, rfl⟩ := Option.map_eq_some_iff.1 hr
  obtain ⟨c, hc, rfl⟩ := resolve_closed hreq
  have hcn : L.world.round.server.clients n = some c := hc
  have hleft : (L.world.peers c.con).pc = .gone := by
    rw [hcn, Option.any_some] at hgone
    exact (of_decide_eq_true hgone).1
  have hout : (disconnect n c { L.world.round.server with out := [] }).out =
      leaveNotices L.world.round.server.clients n ++ [.freeName c.name] := rfl
  have hfree : ∀ k taken, mail [.freeName c.name] k taken = [] := fun _ _ => rfl
  refine h.server _ rfl (fun _ => rfl) rfl (Nat.le_refl _) h.below htable ?_ (fun _ => rfl) ?_
  · intro _ m c' hm
    by_cases hmn : m = n
    · subst hmn
      simp [disconnect] at hm
    · apply h.lobby hopen m c'
      simpa [disconnect, hmn] using hm
  · intro k hg
    have hclients : (disconnect n c { L.world.round.server with out := [] }).clients =
        Function.update L.world.round.server.clients n none := rfl
    dsimp only
    rw [announced_eq _ k (L.world.peers k).taken, hout, hclients]
    rcases h.placed k hg with ⟨hle, hout'⟩ | ⟨m, cm, hm, hcon, hst⟩
    · have hnone : mail (leaveNotices L.world.round.server.clients n ++ [.freeName c.name]) k (L.world.peers k).taken = [] := by
        rw [mail_append, hfree, List.append_nil]
        apply h.outside_mail hle
        intro why con msg hmem
        obtain ⟨i, ci, hi, he⟩ := mem_forClients.1 hmem
        obtain ⟨-, he⟩ := Option.ite_none_right_eq_some.1 he
        cases he
        exact ⟨i, cons_eq_some.2 ⟨ci, hi, rfl⟩⟩
      exact .inl ⟨hle, hout'.deliver hnone⟩
    · subst hcon
      have hmn : m ≠ n := by
        rintro rfl
        rw [Option.some.inj (hm.symm.trans hcn)] at hg
        exact hg hleft
      have hmail : mail (leaveNotices L.world.round.server.clients n ++ [.freeName c.name]) cm.con
          (L.world.peers cm.con).taken = [⟨.leave, (L.world.peers cm.con).taken, .string (slotText n)⟩] := by
        rw [mail_append, hfree, List.append_nil, mail_leave h.table.apart hm hmn]
      obtain ⟨huser, htold⟩ := hann c hcn m hmn cm hm hg
      refine .inr ⟨m, cm, (Function.update_of_ne hmn _ _).trans hm, rfl, ?_⟩
      rw [hmail, announcedIn_string, List.append_nil]
      apply hst.deliver
      · intro _
        refine ⟨rfl, ?_, fun he => absurd he huser⟩
        rw [hmail]
        intro x hx
        rw [List.mem_singleton.1 hx]
        rfl
      · intro he
        have hpast := (h.lobby hopen m cm hm).not_logging he
        refine ⟨he, fun q hq => hq.append fun u hu => ⟨⟨Function.update u n none, ?_, hu.leave n⟩, fun _ => ?_⟩⟩
        swap
        · rw [hmail]
          exact free_leave (Ne.symm hmn) _ _
        obtain ⟨q, hq⟩ : ∃ q, u n = some q := by
          apply hu.covers n c hcn
          by_cases hl : c.state = .logging
          · exact .inr (htold hl hpast)
          · exact .inl hl
        rw [hmail, absorbAll_cons, absorb_leave, playerLeft_eq hu.num hq]
        rfl

/-! ## The run -/

theorem Lobby.client_cases {a : LoginAct Said} {L' : Lobby} (h : L.client a = some L') :
    ∃ w, loginStep lobbyCodec L.world a = some w ∧ L' = { L with world := w } := by
  obtain ⟨w, hw, rfl⟩ := Option.map_eq_some_iff.1 h
  exact ⟨w, hw, rfl⟩

theorem lobby_press (h : LobbyInv strict L) {k : Nat} {pressed : Key} {L' : Lobby}
    (hset : strict → Settles L (.press k pressed))
    (hname : strict → ∀ n c, L.world.round.server.clients n = some c → c.con = k → (L.world.peers k).pc = .returned →
      c.name = some (L.rooms k).myName) (hs : lobbyStep L (.press k pressed) = some L') : LobbyInv strict L' := by
  obtain ⟨⟨hp, -⟩, hs⟩ := Option.ite_none_right_eq_some.1 hs
  have htoggle : ∀ b, (pressed = .enter ↔ (L.rooms k).ready = false) → L.toggle k b = some L' → LobbyInv strict L' := by
    intro b hkey ht
    obtain ⟨L₁, hc, rfl⟩ := Option.map_eq_some_iff.1 ht
    obtain ⟨w, hw, rfl⟩ := Lobby.client_cases hc
    obtain ⟨pc, hpc, rfl⟩ := Option.map_eq_some_iff.1 hw
    rw [hp] at hpc
    cases hpc
    exact lobby_toggle h hp b (fun hst n c hc hcon => hname hst n c hc hcon hp) fun hst => hset hst hkey
  cases pressed with
  | enter =>
    cases hr : (L.rooms k).ready with
    | false =>
      rw [hr] at hs
      exact htoggle true (by simp [hr]) hs
    | true =>
      rw [hr] at hs
      rw [← Option.some.inj hs]
      exact h
  | x =>
    cases hr : (L.rooms k).ready with
    | true =>
      rw [hr] at hs
      exact htoggle false (by simp [hr]) hs
    | false =>
      rw [hr] at hs
      obtain ⟨w, hw, rfl⟩ := Lobby.client_cases hs
      obtain ⟨habs, hw⟩ := Option.ite_none_left_eq_some.1 hw
      cases hw
      exact lobby_leave h habs

theorem lobby_type (h : LobbyInv strict L) {k : Nat} {text : Bytes} {L' : Lobby}
    (hs : lobbyStep L (.type k text) = some L') : LobbyInv strict L' := by
  simp only [lobbyStep] at hs
  split at hs
  · rename_i hn
    obtain ⟨L₁, hc, rfl⟩ := Option.map_eq_some_iff.1 hs
    obtain ⟨w, hw, rfl⟩ := Lobby.client_cases hc
    obtain ⟨pc, hpc, rfl⟩ := Option.map_eq_some_iff.1 hw
    rw [hn] at hpc
    cases hpc
    exact lobby_name h hn text
  · rename_i hn
    obtain ⟨hr, hs⟩ := Option.ite_none_left_eq_some.1 hs
    obtain ⟨w, hw, rfl⟩ := Lobby.client_cases hs
    obtain ⟨pc, hpc, rfl⟩ := Option.map_eq_some_iff.1 hw
    exact lobby_password h hpc hn hr text

theorem lobby_step (h : LobbyInv strict L) {a : LobbyAct} {L' : Lobby} (hann : Announces L a)
    (hset : strict → Settles L a)
    (hname : strict → ∀ k n c, L.world.round.server.clients n = some c → c.con = k → (L.world.peers k).pc = .returned →
      c.name = some (L.rooms k).myName) (hs : lobbyStep L a = some L') : LobbyInv strict L' := by
  cases a with
  | connect =>
    obtain ⟨w, hw, rfl⟩ := Lobby.client_cases hs
    obtain ⟨-, hw⟩ := Option.ite_none_left_eq_some.1 hw
    cases hw
    exact lobby_connect h
  | type k text => exact lobby_type h hs
  | read k =>
    obtain ⟨w, hw, rfl⟩ := Lobby.client_cases hs
    simp only [loginStep] at hw
    split at hw
    · cases hw
    · rename_i x xs hq
      obtain ⟨pc, hpc, rfl⟩ := Option.map_eq_some_iff.1 hw
      exact lobby_read h hq hpc _
  | hear k =>
    simp only [lobbyStep] at hs
    split at hs
    · cases hs
    · rename_i x xs hq
      obtain ⟨⟨hp, -⟩, hs⟩ := Option.ite_none_right_eq_some.1 hs
      obtain ⟨r, hr, rfl⟩ := Option.map_eq_some_iff.1 hs
      exact lobby_hear h hp hq hr
  | press k pressed => exact lobby_press h hset (fun hst => hname hst k) hs
  | leave k =>
    obtain ⟨w, hw, rfl⟩ := Lobby.client_cases hs
    obtain ⟨habs, hw⟩ := Option.ite_none_left_eq_some.1 hw
    cases hw
    exact lobby_leave h habs
  | accept n => exact lobby_accept h hs
  | request n db junk => exact lobby_request h hann hset hs
  | closed n db junk d => exact lobby_closed h hann hs

theorem lobby_start : LobbyInv strict Lobby.start where
  below := Nat.le_refl _
  absent k := ⟨fun _ => Nat.zero_le k, fun _ => rfl⟩
  table := ⟨fun _ _ hn => (by cases hn), fun _ _ hn => (by cases hn), fun _ _ _ hn => (by cases hn)⟩
  lobby _ _ _ hn := by cases hn
  told _ _ hcon := absurd hcon List.not_mem_nil
  rooms _ _ _ := ⟨rfl, rfl⟩
  placed k _ := .inl ⟨Nat.zero_le k, rfl, .inl rfl⟩

end Inv

/-! ## Leave notices -/

/-- The number that a client in `prepareLobby` reads next, when it reads that
somebody has left, is the number of a player in its table, which `playerLeft`
removes. -/
def LeaveFound (L : Lobby) : Prop :=
  ∀ k x xs s, (L.world.peers k).pc = .returned → (L.rooms k).gameStart = false →
    (L.world.peers k).toClient = x :: xs → x.msg = .string s →
    ∃ n q, strtol s = n.val ∧ (L.rooms k).players n = some q ∧ q.num = n ∧
      playerLeft (strtol s) (L.rooms k).players = some (Function.update (L.rooms k).players n none)

/-- While nobody leaves unannounced, every leave notice finds its entry. -/
theorem leave_found {L : Lobby} (h : lobbyMachine.ReachesBy Announces L) : LeaveFound L := by
  have hi : LobbyInv False L := by
    apply h.inv (I := LobbyInv False)
    · intro L hL
      rw [hL]
      exact lobby_start
    · intro L a L' hi hok hs
      exact lobby_step hi hok (fun hf => hf.elim) (fun hf => hf.elim) hs
  intro k x xs s hp _ hq hs
  obtain ⟨n, c, hc, hcon, hst⟩ := hi.stage (by simp [hp]) (outside_returned hp)
  obtain ⟨-, hpro⟩ := hst.returned hp
  rw [hq] at hpro
  obtain ⟨r, hr, -⟩ := hpro.hear
  obtain ⟨t, ht, -⟩ := Option.map_eq_some_iff.1 hr
  rw [hs] at ht
  obtain ⟨i, q, hn, hqi, hnum, rfl⟩ := playerLeft_eq_some hpro.numbered ht
  exact ⟨i, q, hn, hqi, hnum, ht⟩

end Snuffin.ChildServer
