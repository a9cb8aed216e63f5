import Snuffin.LeaveNotices
/-!
# The tables of the clients are the server's

What the clients have said and the server has not taken yet is the rest of the
difference between a client's table and the server's: `Spoken` says so, of the
client's name and of its ready flag.
-/
open Lib Snuffin.Game

namespace Snuffin.ChildServer

/-! ## What a client has said -/

/-- Whether a client is ready for the server once all it has said is taken. -/
def readyAfter (ready : Bool) (q : List Said) : Bool :=
  q.foldl (fun ready d => match d with | .boolean b => b | .string _ => ready) ready

theorem readyAfter_append (ready : Bool) (q q' : List Said) :
    readyAfter ready (q ++ q') = readyAfter (readyAfter ready q) q' := List.foldl_append

/-- Client `c` of the server and what has been said on its connection: its
name comes first, booleans only from `prepareLobby`, and the last of them is
the client's ready flag. -/
structure Spoken (c : Client) (p : Peer Said) (r : Room) : Prop where
  first : c.expecting = .user → ∀ d ∈ p.toServer.head?, d = .string r.myName
  name : c.expecting ≠ .user → c.name = some r.myName
  strings : p.pc ≠ .returned → ∀ d ∈ p.toServer, ∃ s, d = .string s
  ready : c.state ≠ .playing → readyAfter (c.state = .readyPlay) p.toServer = r.ready

/-- What a message does to the client that sent it. -/
inductive Taken (d : Said) (c : Client) : Client → Prop
  | unnamed (b : Bool) : c.expecting = .user → d = .boolean b → Taken d c c
  | named (name : Bytes) (e : Expecting) (score : Int) : c.expecting = .user → d = .string name → e ≠ .user →
      Taken d c { c with expecting := e, score := some score, name := some name }
  | refused : c.expecting.login = true → c.expecting ≠ .user → Taken d c c
  | admitted : c.expecting.login = true → c.expecting ≠ .user → Taken d c c.toLobby
  | ignored (s : Bytes) : c.expecting ≠ .user → d = .string s → Taken d c c
  | toggled (b : Bool) (st : State) : c.expecting ≠ .user → d = .boolean b → (st = if b then .readyPlay else .waiting) →
      Taken d c { c with state := st }
  | started : c.expecting ≠ .user → Taken d c (Client.start { c with state := .readyPlay })

section Spoken
variable {c c' : Client} {p p' : Peer Said} {r : Room}

/-- Nothing is said or taken. -/
theorem Spoken.same (h : Spoken c p r) {r' : Room} (hq : p'.toServer = p.toServer)
    (hpc : p'.pc ≠ .returned → p.pc ≠ .returned) (hn : r'.myName = r.myName) (hr : r'.ready = r.ready) : Spoken c p' r' where
  first he := by
    rw [hq, hn]
    exact h.first he
  name := hn ▸ h.name
  strings hp := hq ▸ h.strings (hpc hp)
  ready hs := by
    rw [hq, hr]
    exact h.ready hs

/-- The client says something more; its name if it has said nothing. -/
theorem Spoken.say (h : Spoken c p r) {pc : Pc} {d : Said} {sent : Nat} {r' : Room}
    (hfirst : c.expecting = .user → p.toServer = [] ∧ d = .string r'.myName)
    (hn : c.expecting ≠ .user → r'.myName = r.myName)
    (hstring : pc ≠ .returned → p.pc ≠ .returned ∧ ∃ s, d = .string s) (hr : readyAfter r.ready [d] = r'.ready) :
    Spoken c { p with pc := pc, toServer := p.toServer ++ [d], sent := sent } r' where
  first he e hmem := by
    obtain ⟨hq, hd⟩ := hfirst he
    rw [hq, List.nil_append, List.head?_cons, Option.mem_some] at hmem
    exact hmem ▸ hd
  name he := (hn he).symm ▸ h.name he
  strings hp e hmem := by
    obtain ⟨hp', hd⟩ := hstring hp
    rcases List.mem_append.1 hmem with hmem | hmem
    · exact h.strings hp' e hmem
    · rw [List.mem_singleton.1 hmem]
      exact hd
  ready hs := by
    rw [readyAfter_append, h.ready hs, hr]

/-- The server takes the next message. Who is in its login has said only
strings. -/
theorem Spoken.taken (h : Spoken c p r) {d : Said} {ds : List Said} (hq : p.toServer = d :: ds) (ht : Taken d c c')
    (hlob : InLobby c) (hlogin : c.expecting.login = true → p.pc ≠ .returned) (hpc : p'.pc = p.pc)
    (hds : p'.toServer = ds) : Spoken c' p' r := by
  have hstrings : p'.pc ≠ .returned → ∀ e ∈ p'.toServer, ∃ s, e = .string s := by
    intro hp e he
    rw [hpc] at hp
    apply h.strings hp e
    rw [hq, ← hds]
    exact List.mem_cons_of_mem _ he
  have hhead : p.pc ≠ .returned → ∃ s, d = .string s := by
    intro hp
    apply h.strings hp d
    rw [hq]
    exact List.mem_cons_self
  -- A string leaves the flag as it is.
  have hready : (∃ s, d = .string s) → c.state ≠ .playing → readyAfter (c.state = .readyPlay) p'.toServer = r.ready := by
    rintro ⟨s, rfl⟩ hs
    rw [← h.ready hs, hq, hds]
    rfl
  have hin : c.expecting = .user → c.expecting.login = true := fun he => by rw [he]; rfl
  cases ht with
  | unnamed b he hd =>
    obtain ⟨s, hs⟩ := hhead (hlogin (hin he))
    rw [hd] at hs
    cases hs
  | named name e score he hd hne =>
    have hname : Said.string name = .string r.myName := by
      rw [← hd]
      exact h.first he d (by rw [hq]; rfl)
    cases hname
    exact ⟨fun he' => absurd he' hne, fun _ => rfl, hstrings, hready ⟨_, hd⟩⟩
  | refused hl hne => exact ⟨fun he => absurd he hne, h.name, hstrings, hready (hhead (hlogin hl))⟩
  | admitted hl hne =>
    refine ⟨fun he => (by cases he), fun _ => h.name hne, hstrings, fun _ => ?_⟩
    have hlog := hlob.logging hl
    have hr := hready (hhead (hlogin hl)) (by simp [hlog])
    rw [hlog] at hr
    exact hr
  | ignored s hne hd => exact ⟨fun he => absurd he hne, h.name, hstrings, hready ⟨s, hd⟩⟩
  | toggled b st hne hd hst =>
    refine ⟨fun he => absurd he hne, fun _ => h.name hne, hstrings, fun _ => ?_⟩
    rw [← h.ready hlob.not_playing, hq, hds, hd, hst]
    cases b <;> rfl
  | started hne => exact ⟨fun he => (by cases he), fun _ => h.name hne, hstrings, fun hs => absurd rfl hs⟩

end Spoken

/-! ## In every run -/

/-- The client of connection `k`, in its slot or before it is accepted. -/
def Stands (s : Round) (k : Nat) (c : Client) : Prop :=
  s.nextCon ≤ k ∧ c = newClient k ∨ ∃ n, s.server.clients n = some c ∧ c.con = k

def SpokenInv (L : Lobby) : Prop :=
  ∀ k, (L.world.peers k).pc ≠ .gone → ∀ c, Stands L.world.round k c → Spoken c (L.world.peers k) (L.rooms k)

section Inv
variable {strict : Prop} {L : Lobby}

theorem LobbyInv.stands (h : LobbyInv strict L) {k : Nat} (hg : (L.world.peers k).pc ≠ .gone) {c : Client}
    (hc : Stands L.world.round k c) : c.expecting = .user ∧ Outside (L.world.peers k) ∨
      ∃ Q, Stage Q c (L.world.peers k) (L.rooms k) := by
  rcases h.placed k hg with ⟨hle, hout⟩ | ⟨n, c₀, h₀, hcon, hst⟩
  · rcases hc with ⟨-, rfl⟩ | ⟨n, hn, rfl⟩
    · exact .inl ⟨rfl, hout⟩
    · have hlt := h.table.below n c.con (cons_eq_some.2 ⟨c, hn, rfl⟩)
      omega
  · rcases hc with ⟨hle, -⟩ | ⟨m, hm, rfl⟩
    · have hlt := h.table.below n k (cons_eq_some.2 ⟨c₀, h₀, hcon⟩)
      omega
    · obtain rfl := Apart.slot h.table.apart hm n c₀ h₀ hcon
      obtain rfl := Option.some.inj (hm.symm.trans h₀)
      exact .inr ⟨_, hst⟩

/-- A client that still has to send its name has sent nothing. -/
theorem LobbyInv.unnamed (h : LobbyInv strict L) {k : Nat} (hpc : (L.world.peers k).pc = .sendName) {c : Client}
    (hc : Stands L.world.round k c) : c.expecting = .user ∧ (L.world.peers k).toServer = [] := by
  rcases h.stands (by simp [hpc]) hc with ⟨he, -, hp | ⟨-, hq⟩ | hp⟩ | ⟨Q, hst⟩
  · rw [hpc] at hp
    cases hp
  · exact ⟨he, hq⟩
  · rw [hpc] at hp
    cases hp
  · cases hst with
    | unnamed he _ hq => exact ⟨he, hq⟩
    | named _ hp => rw [hpc] at hp; cases hp
    | asked _ ha => exact absurd hpc ha.pc.2
    | accepted _ _ _ _ _ _ ha => exact absurd hpc ha.pc.2
    | inside _ hp => rw [hpc] at hp; cases hp

/-- A step of the client of connection `k`. -/
theorem SpokenInv.client (h : SpokenInv L) (L' : Lobby) (k : Nat) (hround : L'.world.round = L.world.round)
    (hother : ∀ j, j ≠ k → L'.world.peers j = L.world.peers j ∧ L'.rooms j = L.rooms j)
    (hk : (L'.world.peers k).pc ≠ .gone → ∀ c, Stands L.world.round k c → Spoken c (L'.world.peers k) (L'.rooms k)) :
    SpokenInv L' := by
  intro j hg c hc
  rw [hround] at hc
  by_cases hj : j = k
  · subst hj
    exact hk hg c hc
  · rw [(hother j hj).1, (hother j hj).2]
    rw [(hother j hj).1] at hg
    exact h j hg c hc

/-- A message moves the other slots only to PLAYING. -/
theorem Resolved.others {db : Db} {d : Said} {n m : Slot} {c c' : Client} {t t' : Table} {es : List Effect} {b : Bool}
    (h : Resolved lobbyCodec db d n c t t' es b) (hmn : m ≠ n) (hm : t' m = some c') :
    ∃ c₀, t m = some c₀ ∧ (c' = c₀ ∨ c' = c₀.start ∧ c₀.state = .readyPlay) := by
  cases h with
  | kept | refused | rejected => exact ⟨c', hm, .inl rfl⟩
  | named =>
    rw [Function.update_of_ne hmn] at hm
    exact ⟨c', hm, .inl rfl⟩
  | admitted _ _ hu _ | toggled _ _ _ _ hu _ =>
    rw [hu, Function.update_of_ne hmn] at hm
    exact ⟨c', hm, .inl rfl⟩
  | started u _ hu hall =>
    obtain ⟨c₀, h₀, rfl⟩ := Option.map_eq_some_iff.1 hm
    have hready := (allReady_iff.1 hall).1 m c₀ h₀
    rw [hu, Function.update_of_ne hmn] at h₀
    exact ⟨c₀, h₀, .inr ⟨rfl, hready⟩⟩

/-- A step of the server. -/
theorem SpokenInv.server (h : SpokenInv L) (L' : Lobby) (hpc : ∀ k, (L'.world.peers k).pc = (L.world.peers k).pc)
    (hrooms : L'.rooms = L.rooms)
    (hk : ∀ k c', (L.world.peers k).pc ≠ .gone → Stands L'.world.round k c' → ∃ c, Stands L.world.round k c ∧
      (Spoken c (L.world.peers k) (L.rooms k) → Spoken c' (L'.world.peers k) (L.rooms k))) : SpokenInv L' := by
  intro k hg c' hc'
  rw [hpc] at hg
  rw [hrooms]
  obtain ⟨c, hc, hkeep⟩ := hk k c' hg hc'
  exact hkeep (h k hg c hc)

theorem Spoken.deliver {c : Client} {p : Peer Said} {r : Room} (h : Spoken c p r) (es : List Effect) (k : Nat) :
    Spoken c (p.deliver es k) r :=
  h.same rfl id rfl rfl

/-- The game starts. -/
theorem Spoken.start {c : Client} {p : Peer Said} {r : Room} (h : Spoken c p r) (hlob : InLobby c)
    (hs : c.state = .readyPlay) : Spoken c.start p r where
  first he := by cases he
  name _ := by
    have hready := (hlob.past (by simp [hs])).1
    exact h.name (by simp [hready])
  strings := h.strings
  ready hp := absurd rfl hp

end Inv

/-! ## The replica -/

end Snuffin.ChildServer
