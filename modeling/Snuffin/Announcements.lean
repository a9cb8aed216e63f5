import Snuffin.OwnEntry
/-!
# Who is told about whom

What a message to the server in its lobby sends to each client, and where that
leaves the client: `Stage.resolve` for the one that sent it, `Stage.overhear`
for the others.
-/
open Lib Snuffin.Game

namespace Snuffin.ChildServer

/-! ## What a connection is sent -/

theorem filterMap_single {α β : Type} {l : List α} (hn : l.Nodup) {a : α} (ha : a ∈ l) (f : α → Option β)
    (hf : ∀ b ∈ l, b ≠ a → f b = none) : l.filterMap f = (f a).toList := by
  induction l with
  | nil => cases ha
  | cons b l ih =>
    rw [List.nodup_cons] at hn
    by_cases hab : b = a
    · subst hab
      have hnone : l.filterMap f = [] := by
        rw [List.filterMap_eq_nil_iff]
        intro x hx
        exact hf x (List.mem_cons_of_mem _ hx) fun e => hn.1 (e ▸ hx)
      rw [List.filterMap_cons, hnone]
      cases f b <;> rfl
    · rw [List.filterMap_cons, hf b List.mem_cons_self hab]
      exact ih hn.2 ((List.mem_cons.1 ha).resolve_left (Ne.symm hab)) fun x hx => hf x (List.mem_cons_of_mem _ hx)

theorem filterMap_toList {α β : Type} (o : Option α) (f : α → Option β) :
    o.toList.filterMap f = (o.bind f).toList := by
  cases o with
  | none => rfl
  | some a => cases h : f a <;> simp [h]

/-- A connection sits in one slot. -/
def Apart (t : Table) : Prop := ∀ m n con, cons t m = some con → cons t n = some con → m = n

section Mail
variable {t : Table} {f : Slot → Client → Option Effect} {m : Slot} {cm : Client} {taken : Nat}

/-- A loop over the table sends a connection what it sends to its slot. -/
theorem mail_forClients (ha : Apart t) (hm : t m = some cm)
    (hf : ∀ i ci e, f i ci = some e → ∃ why msg, e = .send why ci.con msg) :
    mail (forClients t f) cm.con taken = mail (f m cm).toList cm.con taken := by
  unfold mail forClients
  rw [List.filterMap_filterMap, filterMap_single (List.nodup_finRange _) (List.mem_finRange m)]
  · rw [hm, Option.bind_some]
    exact (filterMap_toList (f m cm) _).symm
  · intro i _ hi
    cases hti : t i with
    | none => rfl
    | some ci =>
      rw [Option.bind_some]
      cases hfi : f i ci with
      | none => rfl
      | some e =>
        obtain ⟨why, msg, rfl⟩ := hf i ci e hfi
        have hcon : ci.con ≠ cm.con := by
          intro he
          exact hi (ha i m cm.con (cons_eq_some.2 ⟨ci, hti, he⟩) (cons_eq_some.2 ⟨cm, hm, rfl⟩))
        simp [hcon]

theorem mail_newPlayer (ha : Apart t) (hm : t m = some cm) {n : Slot} (hmn : m ≠ n) (c : Client) :
    mail (newPlayerNotices t n c) cm.con taken =
      if cm.state ≠ .logging then [⟨.notice, taken, .player (createPlayerStruct c n)⟩] else [] := by
  unfold newPlayerNotices
  rw [mail_forClients ha hm]
  · by_cases hs : cm.state = .logging
    · simp [hs]
    · simp [hs, hmn, mail]
  · intro i ci e he
    obtain ⟨-, he⟩ := Option.ite_none_right_eq_some.1 he
    exact ⟨_, _, (Option.some.inj he).symm⟩

/-- The newcomer is not told about itself there. -/
theorem mail_newPlayer_self (ha : Apart t) (hm : t m = some cm) (c : Client) :
    mail (newPlayerNotices t m c) cm.con taken = [] := by
  unfold newPlayerNotices
  rw [mail_forClients ha hm]
  · simp
  · intro i ci e he
    obtain ⟨-, he⟩ := Option.ite_none_right_eq_some.1 he
    exact ⟨_, _, (Option.some.inj he).symm⟩

theorem mail_leave (ha : Apart t) (hm : t m = some cm) {n : Slot} (hmn : m ≠ n) :
    mail (leaveNotices t n) cm.con taken = [⟨.leave, taken, .string (slotText n)⟩] := by
  unfold leaveNotices
  rw [mail_forClients ha hm]
  · simp [hmn, mail]
  · intro i ci e he
    obtain ⟨-, he⟩ := Option.ite_none_right_eq_some.1 he
    exact ⟨_, _, (Option.some.inj he).symm⟩

theorem mail_start (ha : Apart t) (hm : t m = some cm) :
    mail (startNotices t) cm.con taken = [⟨.start, taken, .boolean true⟩] := by
  unfold startNotices
  rw [mail_forClients ha hm]
  · simp [mail]
  · intro i ci e he
    exact ⟨_, _, (Option.some.inj he).symm⟩

/-- What `notifyExistingPlayers` sends. -/
def existing (t : Table) (taken : Nat) (l : List Slot) : List Packet :=
  l.filterMap fun i => (t i).map fun ci => ⟨.notice, taken, .player (createPlayerStruct ci i)⟩

theorem mail_existing (c : Client) :
    mail (existingPlayersNotices t c) c.con taken = existing t taken (List.finRange maxPlayers) := by
  unfold existingPlayersNotices mail forClients existing
  rw [List.filterMap_filterMap]
  congr 1
  funext i
  cases t i <;> simp

theorem mail_to_other {why : Why} {con k : Nat} {msg : Msg} {es : List Effect} (hk : con ≠ k) :
    mail (.send why con msg :: es) k taken = mail es k taken := by
  simp [mail, hk]

/-- The questions to the database are no mail. -/
theorem mail_createUser {name : Option Bytes} {password : Bytes} {ans : Int} {es : List Effect} {k : Nat} :
    mail (.createUser name password ans :: es) k taken = mail es k taken := rfl

theorem mail_asked {c : Client} {asked : Effect} {es : List Effect} {k : Nat}
    (h : c.expecting = .password ∧ (∃ p ans, asked = .validPassword c.name p ans ∧ ans ≠ 0) ∨
      c.expecting = .newPassword ∧ ∃ p, asked = .createUser c.name p 0) :
    mail (asked :: es) k taken = mail es k taken := by
  rcases h with ⟨-, p, ans, rfl, -⟩ | ⟨-, p, rfl⟩ <;> rfl

theorem mail_existing_other {c : Client} {k : Nat} (hk : k ≠ c.con) : mail (existingPlayersNotices t c) k taken = [] := by
  apply mail_eq_nil
  intro why msg hmem
  exact hk (to_existingPlayers hmem)

end Mail

/-! ## Admission -/

/-- All connected clients have chosen a name, and no two the same. -/
def Distinct (t : Table) : Prop :=
  (∀ i, ∀ c ∈ t i, c.name.isSome = true) ∧ ∀ i j, ∀ c ∈ t i, ∀ c' ∈ t j, c.name = c'.name → i = j

instance (t : Table) : Decidable (Distinct t) :=
  inferInstanceAs (Decidable ((∀ i, ∀ c ∈ t i, c.name.isSome = true) ∧
    ∀ i j, ∀ c ∈ t i, ∀ c' ∈ t j, c.name = c'.name → i = j))

/-- The entries that the clients in a table get. -/
def entries (t : Table) : Players := fun i => (t i).map fun c => createPlayerStruct c i

theorem absorb_existing {t : Table} (hd : Distinct t) (taken : Nat) {l : List Slot} (hn : l.Nodup) {players : Players}
    (hp : ∀ i q, players i = some q → i ∉ l ∧ ∃ c, t i = some c ∧ q.name = c.name) :
    absorbAll players (existing t taken l) = some fun i => if i ∈ l then entries t i else players i := by
  induction l generalizing players with
  | nil => simp [existing]
  | cons i l ih =>
    rw [List.nodup_cons] at hn
    have hpi : players i = none := by
      cases hi : players i with
      | none => rfl
      | some q => exact absurd List.mem_cons_self (hp i q hi).1
    cases hti : t i with
    | none =>
      have he : existing t taken (i :: l) = existing t taken l := by simp [existing, hti]
      rw [he, ih hn.2 fun j q hq => ⟨fun hj => (hp j q hq).1 (List.mem_cons_of_mem _ hj), (hp j q hq).2⟩]
      congr 1
      funext j
      by_cases hj : j = i
      · subst hj
        simp [hn.1, hpi, entries, hti]
      · simp [hj]
    | some c =>
      have he : existing t taken (i :: l) =
          ⟨.notice, taken, .player (createPlayerStruct c i)⟩ :: existing t taken l := by simp [existing, hti]
      have hnew : addPlayer (createPlayerStruct c i) players =
          Function.update players i (some (createPlayerStruct c i)) := by
        have hb : belongs players (createPlayerStruct c i).name = none := by
          rw [belongs_eq_none]
          intro j q hq hname
          obtain ⟨hj, cj, hcj, hqn⟩ := hp j q hq
          apply hj
          rw [hd.2 j i cj hcj c hti (hqn.symm.trans hname)]
          exact List.mem_cons_self
        unfold addPlayer
        rw [hb]
        rfl
      rw [he, absorbAll_cons]
      have habs : absorb players (.player (createPlayerStruct c i)) =
          some (Function.update players i (some (createPlayerStruct c i))) := congrArg some hnew
      rw [habs, Option.bind_some, ih hn.2]
      · congr 1
        funext j
        by_cases hj : j = i
        · subst hj
          simp [hn.1, entries, hti]
        · simp [hj]
      · intro j q hq
        by_cases hj : j = i
        · subst hj
          rw [Function.update_self, Option.some.injEq] at hq
          exact ⟨hn.1, c, hti, by rw [← hq]; rfl⟩
        · rw [Function.update_of_ne hj] at hq
          exact ⟨fun hjl => (hp j q hq).1 (List.mem_cons_of_mem _ hjl), (hp j q hq).2⟩

/-- A client that has just been admitted will have an entry for everybody. -/
theorem admission_view {strict : Prop} {t : Table} (hd : Distinct t)
    (hs : strict → ∀ i c, t i = some c → c.state ≠ .logging) (told : List Nat) (m : Slot) (taken : Nat) :
    ∃ players, absorbAll (fun _ => none) (existing t taken (List.finRange maxPlayers)) = some players ∧
      View strict t told m players := by
  refine ⟨entries t, ?_, ?_⟩
  · rw [absorb_existing hd taken (List.nodup_finRange _) (by simp)]
    simp
  · have he : ∀ i q, entries t i = some q → ∃ c, t i = some c ∧ q = createPlayerStruct c i := by
      intro i q hq
      obtain ⟨c, hc, rfl⟩ := Option.map_eq_some_iff.1 hq
      exact ⟨c, hc, rfl⟩
    refine ⟨fun i q hq => ?_, fun i q hq => ?_, fun i j q q' hq hq' hn => ?_, fun i c hc _ => ?_,
      fun hstrict i q c hq hc => hs hstrict i c hc, fun _ i q c _ hq hc _ => ?_⟩
    · obtain ⟨c, -, rfl⟩ := he i q hq
      rfl
    · obtain ⟨c, hc, rfl⟩ := he i q hq
      obtain ⟨name, hname⟩ := Option.isSome_iff_exists.1 (hd.1 i c hc)
      exact ⟨c, name, hc, hname, hname⟩
    · obtain ⟨c, hc, rfl⟩ := he i q hq
      obtain ⟨c', hc', rfl⟩ := he j q' hq'
      exact hd.2 i j c hc c' hc' hn
    · exact ⟨createPlayerStruct c i, by rw [entries, hc]; rfl⟩
    · obtain ⟨c', hc', rfl⟩ := he i q hq
      rw [Option.some.inj (hc'.symm.trans hc)]
      simp [createPlayerStruct]

/-- Its own notice is among the others once. -/
theorem own_existing {t : Table} (hd : Distinct t) {m : Slot} {c : Client} (hm : t m = some c) (hw : c.state ≠ .readyPlay)
    (taken : Nat) {r : Room} (hp : r.players = fun _ => none) (hr : r.ready = false) :
    Own m c.name r (existing t taken (List.finRange maxPlayers)) := by
  obtain ⟨l, l', hl⟩ := List.append_of_mem (List.mem_finRange m)
  have hn : (l ++ m :: l').Nodup := hl ▸ List.nodup_finRange _
  rw [List.nodup_middle, List.nodup_cons, List.mem_append, not_or] at hn
  have hfree : ∀ k : List Slot, m ∉ k → Free m c.name (existing t taken k) := by
    intro k hk x hx
    obtain ⟨i, hi, hx⟩ := List.mem_filterMap.1 hx
    obtain ⟨ci, hci, rfl⟩ := Option.map_eq_some_iff.1 hx
    have him : i ≠ m := fun he => hk (he ▸ hi)
    exact ⟨him, fun hname => him (hd.2 i m ci hci c hm hname)⟩
  have he : existing t taken (List.finRange maxPlayers) =
      existing t taken l ++ ⟨.notice, taken, .player (createPlayerStruct c m)⟩ :: existing t taken l' := by
    rw [hl]
    simp [existing, hm]
  refine .coming _ _ _ (createPlayerStruct c m) he rfl rfl rfl ?_ ?_ hr (hfree l hn.1.1) (hfree l' hn.1.2)
  · simp [createPlayerStruct, hw]
  · rw [hp]

theorem admission {strict : Prop} {t : Table} (hd : Distinct t)
    (hs : strict → ∀ i c, t i = some c → c.state ≠ .logging) (told : List Nat) {m : Slot} {c : Client} (hm : t m = some c)
    (hw : c.state ≠ .readyPlay) (taken : Nat) {r : Room} (hp : r.players = fun _ => none) (hr : r.ready = false) :
    Prospect strict t told m c.name r (existing t taken (List.finRange maxPlayers)) where
  numbered i e he := by
    rw [hp] at he
    cases he
  view := by
    rw [hp]
    exact admission_view hd hs told m taken
  own _ := by
    refine ⟨fun i e he => ?_, own_existing hd hm hw taken hp hr⟩
    rw [hp] at he
    cases he

/-! ## Where a client is -/

def NoTrue (q : List Packet) : Prop := ∀ x ∈ q, unmarshBoolean x.msg = false

/-- A client in `getInformation` past its name, with these messages to read:
it will not return from there before it has got more. -/
def Awaits : Pc → List Packet → Prop
  | .readBelongs, q => ∃ x rest, q = x :: rest ∧ NoTrue rest
  | .sendPassword, q | .readBelongs2, q | .sendAgain, q | .readWPass, q => NoTrue q
  | _, _ => False

theorem noTrue_nil : NoTrue [] := fun _ hx => absurd hx List.not_mem_nil

theorem NoTrue.append {q q' : List Packet} (h : NoTrue q) (h' : NoTrue q') : NoTrue (q ++ q') := by
  intro x hx
  exact (List.mem_append.1 hx).elim (h x) (h' x)

theorem Awaits.append {pc : Pc} {q q' : List Packet} (h : Awaits pc q) (h' : NoTrue q') : Awaits pc (q ++ q') := by
  cases pc with
  | readBelongs =>
    obtain ⟨x, rest, rfl, hrest⟩ := h
    exact ⟨x, rest ++ q', rfl, hrest.append h'⟩
  | sendPassword | readBelongs2 | sendAgain | readWPass => exact NoTrue.append h h'
  | absent | sendName | returned | gone => exact h.elim

theorem Awaits.pc {pc : Pc} {q : List Packet} (h : Awaits pc q) : pc.login = true ∧ pc ≠ .sendName := by
  cases pc with
  | absent | sendName | returned | gone => exact h.elim
  | readBelongs | sendPassword | readBelongs2 | sendAgain | readWPass => exact ⟨rfl, by simp⟩

theorem Awaits.send {pc pc' : Pc} {q : List Packet} (h : Awaits pc q) (hpc : pc.send = some pc') : Awaits pc' q := by
  cases pc with
  | sendPassword | sendAgain =>
    cases hpc
    exact h
  | readBelongs | readBelongs2 | readWPass => cases hpc
  | absent | sendName | returned | gone => exact h.elim

theorem Awaits.read {pc pc' : Pc} {x : Packet} {q : List Packet} (h : Awaits pc (x :: q))
    (hpc : pc.read (unmarshBoolean x.msg) = some pc') : Awaits pc' q := by
  cases pc with
  | readBelongs =>
    obtain ⟨y, rest, he, hrest⟩ := h
    cases hpc
    rw [List.cons.injEq] at he
    exact he.2 ▸ hrest
  | readBelongs2 | readWPass =>
    have hx : unmarshBoolean x.msg = false := h x List.mem_cons_self
    rw [hx] at hpc
    cases hpc
    intro y hy
    exact h y (List.mem_cons_of_mem _ hy)
  | sendPassword | sendAgain => cases hpc
  | absent | sendName | returned | gone => exact h.elim

theorem Awaits.accept {pc pc' : Pc} (h : Awaits pc []) (hpc : pc.read true = some pc') : pc' = .returned := by
  cases pc with
  | readBelongs =>
    obtain ⟨x, rest, he, -⟩ := h
    cases he
  | readBelongs2 | readWPass =>
    cases hpc
    rfl
  | sendPassword | sendAgain => cases hpc
  | absent | sendName | returned | gone => exact h.elim

/-- A client, by what its slot expects: nothing sent yet, its name under way,
asked for a password, admitted with the TRUE still to read, or in
`prepareLobby`. From the TRUE on, what it has still to read meets `Q`. -/
inductive Stage (Q : Room → List Packet → Prop) (c : Client) (p : Peer Said) (r : Room) : Prop
  | unnamed : c.expecting = .user → p.pc = .sendName → p.toServer = [] → p.toClient = [] → Stage Q c p r
  | named : c.expecting = .user → p.pc = .readBelongs → p.toClient = [] → Stage Q c p r
  | asked : c.expecting = .password ∨ c.expecting = .newPassword → Awaits p.pc p.toClient → Stage Q c p r
  | accepted (pre : List Packet) (x : Packet) (rest : List Packet) : c.expecting.login = false →
      p.toClient = pre ++ x :: rest → unmarshBoolean x.msg = true → Awaits p.pc pre → Q r rest → Stage Q c p r
  | inside : c.expecting.login = false → p.pc = .returned → Q r p.toClient → Stage Q c p r

section Stage
variable {Q Q' : Room → List Packet → Prop} {c c' : Client} {p : Peer Said} {r : Room}

theorem not_login {e : Expecting} (h : e = .password ∨ e = .newPassword) : e.login = true := by
  rcases h with rfl | rfl <;> rfl

/-- The name goes out. -/
theorem Stage.name (h : Stage Q c p r) (hpc : p.pc = .sendName) (r' : Room) (q : List Said) (sent : Nat) :
    Stage Q c { p with pc := .readBelongs, toServer := q, sent := sent } r' := by
  cases h with
  | unnamed he _ _ hq => exact .named he rfl hq
  | named _ hp => rw [hpc] at hp; cases hp
  | asked _ ha => exact absurd hpc ha.pc.2
  | accepted _ _ _ _ _ _ ha => exact absurd hpc ha.pc.2
  | inside _ hp => rw [hpc] at hp; cases hp

/-- A password goes out. -/
theorem Stage.send (h : Stage Q c p r) {pc : Pc} (hpc : p.pc.send = some pc) (hn : p.pc ≠ .sendName)
    (q : List Said) (sent : Nat) : Stage Q c { p with pc := pc, toServer := q, sent := sent } r := by
  cases h with
  | unnamed _ hp => exact absurd hp hn
  | named _ hp => rw [hp] at hpc; cases hpc
  | asked he ha => exact .asked he (ha.send hpc)
  | accepted pre x rest he hq hx ha hr => exact .accepted pre x rest he hq hx (ha.send hpc) hr
  | inside he hp hr =>
    rw [hp] at hpc
    cases hpc
    exact .inside he rfl hr

/-- A message is read in `getInformation`. -/
theorem Stage.read (h : Stage Q c p r) {x : Packet} {xs : List Packet} (hq : p.toClient = x :: xs) {pc : Pc}
    (hpc : p.pc.read (unmarshBoolean x.msg) = some pc) : Stage Q c { p with pc := pc, toClient := xs } r := by
  cases h with
  | unnamed _ _ _ he => rw [hq] at he; cases he
  | named _ _ he => rw [hq] at he; cases he
  | asked he ha =>
    rw [hq] at ha
    exact .asked he (ha.read hpc)
  | accepted pre y rest he hq' hy ha hr =>
    rw [hq] at hq'
    cases pre with
    | nil =>
      rw [List.nil_append, List.cons.injEq] at hq'
      obtain ⟨rfl, rfl⟩ := hq'
      rw [hy] at hpc
      exact .inside he (ha.accept hpc) hr
    | cons z pre =>
      rw [List.cons_append, List.cons.injEq] at hq'
      obtain ⟨rfl, rfl⟩ := hq'
      exact .accepted pre y rest he rfl hy (ha.read hpc) hr
  | inside _ hp => rw [hp] at hpc; cases hpc

/-- A client in `prepareLobby`. -/
theorem Stage.returned (h : Stage Q c p r) (hp : p.pc = .returned) : c.expecting.login = false ∧ Q r p.toClient := by
  cases h with
  | unnamed _ hp' => rw [hp] at hp'; cases hp'
  | named _ hp' => rw [hp] at hp'; cases hp'
  | asked _ ha => rw [hp] at ha; exact ha.elim
  | accepted _ _ _ _ _ _ ha => rw [hp] at ha; exact ha.elim
  | inside he _ hr => exact ⟨he, hr⟩

/-- What the server sends to a client whose message it does not answer. -/
theorem Stage.deliver (h : Stage Q c p r) {es : List Effect}
    (hlogin : c.expecting.login = true → c'.expecting = c.expecting ∧ NoTrue (mail es c.con p.taken) ∧
      (c.expecting = .user → mail es c.con p.taken = []))
    (hpast : c.expecting.login = false → c'.expecting.login = false ∧
      ∀ q, Q r q → Q' r (q ++ mail es c.con p.taken)) :
    Stage Q' c' (p.deliver es c.con) r := by
  cases h with
  | unnamed he hp hs hq =>
    obtain ⟨he', -, hm⟩ := hlogin (by rw [he]; rfl)
    exact .unnamed (he'.trans he) hp hs (by simp [Peer.deliver, hq, hm he])
  | named he hp hq =>
    obtain ⟨he', -, hm⟩ := hlogin (by rw [he]; rfl)
    exact .named (he'.trans he) hp (by simp [Peer.deliver, hq, hm he])
  | asked he ha =>
    obtain ⟨he', hm, -⟩ := hlogin (not_login he)
    exact .asked (by rwa [he']) (ha.append hm)
  | accepted pre x rest he hq hx ha hr =>
    obtain ⟨he', hm⟩ := hpast he
    refine .accepted pre x (rest ++ mail es c.con p.taken) he' ?_ hx ha (hm rest hr)
    simp [Peer.deliver, hq]
  | inside he hp hr =>
    obtain ⟨he', hm⟩ := hpast he
    exact .inside he' hp (hm p.toClient hr)

end Stage

/-! ## The conditions -/

/-- Client `c` is admitted: the password `d` is right, or its user is
created. -/
def Admits (db : Db) (junk : Bytes) (d : Said) (c : Client) : Prop :=
  (c.expecting = .password ∧ db.validPassword c.name ((lobbyCodec.unmarshString d).getD junk) ≠ 0) ∨
    c.expecting = .newPassword ∧ ∃ p ∈ lobbyCodec.unmarshString d, db.createUser c.name p = 0

/-- The user of client `c` cannot be created. -/
def Rejects (db : Db) (d : Said) (c : Client) : Prop :=
  c.expecting = .newPassword ∧ ∃ p ∈ lobbyCodec.unmarshString d, db.createUser c.name p ≠ 0

instance (db : Db) (junk : Bytes) (d : Said) (c : Client) : Decidable (Admits db junk d c) := by
  unfold Admits
  infer_instance

instance (db : Db) (d : Said) (c : Client) : Decidable (Rejects db d c) := by
  unfold Rejects
  infer_instance

/-- A login that ends was admitted. -/
theorem admits_of_resolve {db : Db} {junk : Bytes} {d : Said} {n : Slot} {s s' : Server} {c c' : Client}
    (h : resolveRequest lobbyCodec db junk true d n s = some s') (hc : s.clients n = some c)
    (hl : c.expecting.login = true) (hc' : s'.clients n = some c') (hl' : c'.expecting.login = false) :
    Admits db junk d c := by
  have hsame : s'.clients = s.clients → Admits db junk d c := by
    intro he
    rw [he, hc, Option.some.injEq] at hc'
    rw [← hc', hl] at hl'
    cases hl'
  cases he : c.expecting with
  | user =>
    rw [resolve_user hc he] at h
    obtain rfl := Option.some.inj h
    unfold validateUser at hc' hsame
    cases hd : lobbyCodec.unmarshString d with
    | none =>
      rw [hd] at hsame
      exact hsame rfl
    | some name =>
      rw [hd] at hc'
      dsimp only at hc'
      split at hc' <;>
        · rw [setClient_clients, Function.update_self, Option.some.injEq] at hc'
          rw [← hc'] at hl'
          cases hl'
  | password =>
    by_cases ha : db.validPassword c.name ((lobbyCodec.unmarshString d).getD junk) ≠ 0
    · exact .inl ⟨he, ha⟩
    · rw [resolve_refused hc he rfl ha] at h
      obtain rfl := Option.some.inj h
      exact hsame rfl
  | newPassword =>
    rw [resolve_newPassword hc he] at h
    obtain rfl := Option.some.inj h
    unfold newPassword at hc' hsame
    cases hd : lobbyCodec.unmarshString d with
    | none =>
      rw [hd] at hsame
      exact hsame rfl
    | some p =>
      by_cases ha : db.createUser c.name p = 0
      · exact .inr ⟨he, p, hd, ha⟩
      · rw [hd] at hsame
        dsimp only at hsame
        rw [if_neg ha] at hsame
        exact hsame rfl
  | movement => rw [he] at hl; cases hl
  | readyToPlay => rw [he] at hl; cases hl

/-- A client found to have left finds nobody at its name, and if it is still
LOGGING it has been announced to everybody who was admitted. Notices about a
newcomer go out only while all names are set and different. -/
def Announces (L : Lobby) : LobbyAct → Prop
  | .request n db junk => ∀ c ∈ L.world.round.server.clients n, ∀ d ∈ (L.world.peers c.con).toServer.head?,
    Admits db junk d c ∨ Rejects db d c → Distinct L.world.round.server.clients
  | .closed n _ _ _ => ∀ c ∈ L.world.round.server.clients n, ∀ m, m ≠ n → ∀ c' ∈ L.world.round.server.clients m,
    (L.world.peers c'.con).pc ≠ .gone →
      c'.expecting ≠ .user ∧ (c.state = .logging → c'.state ≠ .logging → c.con ∈ L.told c'.con)
  | _ => True

/-- Clients are admitted only while nobody else is LOGGING, a user fails to be
created only while nobody else has been admitted, and a client says that it is
ready, or no longer, only when it has its own entry. -/
def Settles (L : Lobby) : LobbyAct → Prop
  | .request n db junk => ∀ c ∈ L.world.round.server.clients n, ∀ d ∈ (L.world.peers c.con).toServer.head?,
    (Admits db junk d c → ∀ m, m ≠ n → ∀ c' ∈ L.world.round.server.clients m, c'.state ≠ .logging) ∧
      (Rejects db d c → ∀ m, m ≠ n → ∀ c' ∈ L.world.round.server.clients m, (L.world.peers c'.con).pc ≠ .gone →
        c'.state = .logging)
  | .press k pressed => (pressed = .enter ↔ (L.rooms k).ready = false) →
    (belongs (L.rooms k).players (some (L.rooms k).myName)).isSome = true
  | _ => True

instance (L : Lobby) : ∀ a, Decidable (Announces L a)
  | .request n db junk => by
    unfold Announces
    infer_instance
  | .closed n _ _ _ => by
    unfold Announces
    infer_instance
  | .connect | .type .. | .read _ | .hear _ | .press .. | .leave _ | .accept _ => .isTrue trivial

instance (L : Lobby) : ∀ a, Decidable (Settles L a)
  | .request n db junk => by
    unfold Settles
    infer_instance
  | .press k pressed => by
    unfold Settles
    infer_instance
  | .connect | .type .. | .read _ | .hear _ | .leave _ | .accept _ | .closed .. => .isTrue trivial

/-! ## Messages -/

/-- A client before the start: in its login and LOGGING, or admitted. -/
structure InLobby (c : Client) : Prop where
  state : c.expecting.login = true ∧ c.state = .logging ∨
    c.expecting = .readyToPlay ∧ (c.state = .waiting ∨ c.state = .readyPlay)
  name : c.expecting = .user → c.name = none

theorem InLobby.past {c : Client} (h : InLobby c) (hs : c.state ≠ .logging) :
    c.expecting = .readyToPlay ∧ (c.state = .waiting ∨ c.state = .readyPlay) := by
  rcases h.state with ⟨-, hl⟩ | h
  · exact absurd hl hs
  · exact h

theorem InLobby.not_logging {c : Client} (h : InLobby c) (he : c.expecting.login = false) : c.state ≠ .logging := by
  rcases h.state with ⟨hl, -⟩ | ⟨-, hs | hs⟩
  · rw [he] at hl
    cases hl
  · simp [hs]
  · simp [hs]

theorem InLobby.logging {c : Client} (h : InLobby c) (hl : c.expecting.login = true) : c.state = .logging := by
  rcases h.state with ⟨-, hs⟩ | ⟨he, -⟩
  · exact hs
  · rw [he] at hl
    cases hl

theorem InLobby.not_playing {c : Client} (h : InLobby c) : c.state ≠ .playing := by
  rcases h.state with ⟨-, hs⟩ | ⟨-, hs | hs⟩ <;> simp [hs]

/-- The connections that some messages announce. -/
def announcedIn (t : Table) (q : List Packet) : List Nat :=
  q.filterMap fun x => match x.msg with
    | .player p => cons t p.num
    | _ => none

@[simp] theorem announcedIn_nil (t : Table) : announcedIn t [] = [] := rfl

theorem announcedIn_string (t : Table) (why : Why) (taken : Nat) (s : Bytes) :
    announcedIn t [⟨why, taken, .string s⟩] = [] := rfl

theorem announcedIn_boolean (t : Table) (why : Why) (taken : Nat) (b : Bool) :
    announcedIn t [⟨why, taken, .boolean b⟩] = [] := rfl

/-- The start announces nobody. -/
theorem announcedIn_start (t : Table) (q : List Packet) (taken : Nat) :
    announcedIn (fun i => (t i).map Client.start) (q ++ [⟨.start, taken, .boolean true⟩]) = announcedIn t q := by
  have hcons : cons (fun i => (t i).map Client.start) = cons t := by
    funext i
    simp [cons, Option.map_map, Function.comp_def, Client.start]
  unfold announcedIn
  rw [hcons, List.filterMap_append]
  exact List.append_nil _

theorem announced_eq (sv : Server) (k taken : Nat) : announced sv k = announcedIn sv.clients (mail sv.out k taken) := by
  unfold announced announcedIn mail
  rw [List.filterMap_filterMap]
  congr 1
  funext e
  cases e with
  | send why con m =>
    by_cases hk : con = k
    · cases m <;> simp [hk]
    · cases m <;> simp [hk]
  | _ => rfl

section Resolve
variable {strict : Prop} {told : List Nat} {db : Db} {junk : Bytes} {d : Said} {n m : Slot} {c cm : Client}
  {t t' : Table} {es : List Effect} {b : Bool} {p : Peer Said} {r : Room}

theorem Apart.update (ha : Apart t) (hc : t n = some c) (c' : Client) (hcon : c'.con = c.con) :
    Apart (Function.update t n (some c')) := by
  unfold Apart
  rwa [cons_update_same hc hcon]

theorem Apart.slot (ha : Apart t) (hc : t n = some c) : ∀ i ci, t i = some ci → ci.con = c.con → i = n := by
  intro i ci hci hcon
  exact ha i n c.con (cons_eq_some.2 ⟨ci, hci, hcon⟩) (cons_eq_some.2 ⟨c, hc, rfl⟩)

theorem Distinct.update (hd : Distinct t) (hc : t n = some c) (c' : Client) (hn : c'.name = c.name) :
    Distinct (Function.update t n (some c')) := by
  refine ⟨fun i ci hci => ?_, fun i j ci hci cj hcj he => ?_⟩
  · obtain ⟨c₀, h₀, hn₀⟩ := update_same_name hc hn hci
    exact hn₀ ▸ hd.1 i c₀ h₀
  · obtain ⟨c₀, h₀, hn₀⟩ := update_same_name hc hn hci
    obtain ⟨c₁, h₁, hn₁⟩ := update_same_name hc hn hcj
    exact hd.2 i j c₀ h₀ c₁ h₁ (by rw [hn₀, hn₁, he])

/-- A client that is sent nothing waits on. -/
theorem Stage.silent {c' : Client} {name : Option Bytes} (h : Stage (Prospect strict t told n name) c p r)
    (he : c'.expecting = c.expecting) (hmail : mail es c.con p.taken = [])
    (hV : c.expecting.login = false → ∀ u, View strict t told n u → View strict t' told n u) :
    Stage (Prospect strict t' (told ++ announcedIn t' (mail es c.con p.taken)) n name) c' (p.deliver es c.con) r := by
  rw [hmail, announcedIn_nil, List.append_nil]
  apply h.deliver
  · intro _
    exact ⟨he, hmail ▸ noTrue_nil, fun _ => hmail⟩
  · intro hl
    refine ⟨he ▸ hl, fun q hq => ?_⟩
    rw [hmail, List.append_nil]
    exact hq.mono (hV hl)

/-- A client whose password is refused may send another. -/
theorem Stage.denied {Q Q' : Room → List Packet → Prop} (h : Stage Q c p r) (hlogin : c.expecting.login = true)
    (hu : c.expecting ≠ .user) (hmail : NoTrue (mail es c.con p.taken)) : Stage Q' c (p.deliver es c.con) r := by
  apply h.deliver
  · intro _
    exact ⟨rfl, hmail, fun he => absurd he hu⟩
  · intro hl
    rw [hl] at hlogin
    cases hlogin

theorem noTrue_refused (taken : Nat) {q : List Packet} (hq : NoTrue q) : NoTrue (⟨.reply, taken, .boolean false⟩ :: q) := by
  intro x hx
  rcases List.mem_cons.1 hx with rfl | hx
  · rfl
  · exact hq x hx

theorem noTrue_existing (t : Table) (taken : Nat) (l : List Slot) : NoTrue (existing t taken l) := by
  intro x hx
  obtain ⟨i, -, hi⟩ := List.mem_filterMap.1 hx
  obtain ⟨ci, -, rfl⟩ := Option.map_eq_some_iff.1 hi
  rfl

/-- The answer to a name is all there is for the client to read. -/
theorem Stage.answered {Q Q' : Room → List Packet → Prop} {ds : List Said} {c' : Client} (h : Stage Q c p r)
    (hq : p.toServer = d :: ds) (hu : c.expecting = .user) (he : c'.expecting = .password ∨ c'.expecting = .newPassword)
    (hno : ∀ why con msg, .send why con msg ∉ es) (taken : Nat) :
    Stage Q' c' (Peer.deliver { p with toServer := ds, taken := taken } (es ++ [.send .reply c.con (.boolean b)]) c.con) r := by
  cases h with
  | unnamed _ _ hs => rw [hq] at hs; cases hs
  | named _ hp hq' =>
    have hes : mail es c.con taken = [] := mail_eq_nil fun why msg => hno why c.con msg
    apply Stage.asked he
    have hclient : (Peer.deliver { p with toServer := ds, taken := taken } (es ++ [.send .reply c.con (.boolean b)])
        c.con).toClient = [⟨.reply, taken, .boolean b⟩] := by
      show p.toClient ++ mail _ c.con taken = _
      rw [hq', mail_append, hes]
      simp [mail]
    rw [hclient]
    show Awaits p.pc _
    rw [hp]
    exact ⟨_, [], rfl, noTrue_nil⟩
  | asked he' => rcases he' with he' | he' <;> rw [hu] at he' <;> cases he'
  | accepted _ _ _ he' => rw [hu] at he'; cases he'
  | inside he' => rw [hu] at he'; cases he'

/-- A client that is let in is sent the players that are there, itself among
them. -/
theorem Stage.admitted (h : Stage (Prospect strict t told n c.name) c p r)
    (hroom : p.pc ≠ .returned → r.players = (fun _ => none) ∧ r.ready = false) (ha : Apart t) (hc : t n = some c)
    (hd : Distinct t) (hothers : strict → ∀ i, i ≠ n → ∀ ci ∈ t i, ci.state ≠ .logging) {asked : Effect}
    (hasked : c.expecting = .password ∧ (∃ p ans, asked = .validPassword c.name p ans ∧ ans ≠ 0) ∨
      c.expecting = .newPassword ∧ ∃ p, asked = .createUser c.name p 0)
    (hu : t' = Function.update t n (some c.toLobby))
    (hes : es = asked :: .send .reply c.con (.boolean true) ::
      (newPlayerNotices t' n c.toLobby ++ existingPlayersNotices t' c.toLobby)) :
    Stage (Prospect strict t' (told ++ announcedIn t' (mail es c.con p.taken)) n c.name) c.toLobby (p.deliver es c.con) r := by
  have hself : t' n = some c.toLobby := by rw [hu, Function.update_self]
  have hd' : Distinct t' := hu ▸ hd.update hc c.toLobby rfl
  have ha' : Apart t' := hu ▸ ha.update hc c.toLobby rfl
  have hpast : strict → ∀ i ci, t' i = some ci → ci.state ≠ .logging := by
    intro hs i ci hci
    by_cases hi : i = n
    · subst hi
      rw [hself, Option.some.injEq] at hci
      rw [← hci]
      simp [Client.toLobby]
    · rw [hu, Function.update_of_ne hi] at hci
      exact hothers hs i hi ci hci
  have hmail : mail es c.con p.taken =
      ⟨.reply, p.taken, .boolean true⟩ :: existing t' p.taken (List.finRange maxPlayers) := by
    have hex : mail (existingPlayersNotices t' c.toLobby) c.con p.taken = existing t' p.taken (List.finRange maxPlayers) :=
      mail_existing c.toLobby
    have hnew : mail (newPlayerNotices t' n c.toLobby) c.con p.taken = [] := mail_newPlayer_self ha' hself c.toLobby
    rw [hes, mail_asked hasked, mail_to_self, mail_append, hnew, hex, List.nil_append]
  rw [hmail]
  cases h with
  | unnamed he => rcases hasked with ⟨he', -⟩ | ⟨he', -⟩ <;> rw [he'] at he <;> cases he
  | named he => rcases hasked with ⟨he', -⟩ | ⟨he', -⟩ <;> rw [he'] at he <;> cases he
  | asked _ hA =>
    obtain ⟨hp, hr⟩ := hroom fun hp => by rw [hp] at hA; exact hA
    refine .accepted p.toClient ⟨.reply, p.taken, .boolean true⟩ (existing t' p.taken (List.finRange maxPlayers)) rfl ?_ rfl
      hA (admission hd' hpast _ hself (by simp [Client.toLobby]) p.taken hp hr)
    show p.toClient ++ mail _ _ _ = _
    rw [hmail]
  | accepted _ _ _ he => rcases hasked with ⟨he', -⟩ | ⟨he', -⟩ <;> rw [he'] at he <;> cases he
  | inside he => rcases hasked with ⟨he', -⟩ | ⟨he', -⟩ <;> rw [he'] at he <;> cases he

/-- The client that was the last to be ready is sent the start. -/
theorem Stage.started (h : Stage (Prospect strict t told n c.name) c p r) (ha : Apart t) (hc : t n = some c)
    (he : c.expecting = .readyToPlay) (hs : c.state ≠ .logging) {u : Table}
    (hu : u = Function.update t n (some { c with state := .readyPlay })) (hall : allReady u = true)
    (hes : es = newPlayerNotices u n { c with state := .readyPlay } ++ startNotices u) :
    Stage (Prospect strict (fun i => (u i).map Client.start)
        (told ++ announcedIn (fun i => (u i).map Client.start) (mail es c.con p.taken)) n c.name)
      (Client.start { c with state := .readyPlay }) (p.deliver es c.con) r := by
  have hself : u n = some { c with state := .readyPlay } := by rw [hu, Function.update_self]
  have ha' : Apart u := hu ▸ ha.update hc { c with state := .readyPlay } rfl
  have hmail : mail es c.con p.taken = [⟨.start, p.taken, .boolean true⟩] := by
    have hnew : mail (newPlayerNotices u n { c with state := .readyPlay }) c.con p.taken = [] :=
      mail_newPlayer_self ha' hself _
    have hstart : mail (startNotices u) ({ c with state := .readyPlay } : Client).con p.taken =
        [⟨.start, p.taken, .boolean true⟩] := mail_start ha' hself
    rw [hes, mail_append, hnew, List.nil_append]
    exact hstart
  rw [hmail, announcedIn_boolean, List.append_nil]
  apply h.deliver
  · intro hl
    rw [he] at hl
    cases hl
  · intro _
    refine ⟨rfl, fun q hq => hq.append fun v hv => ⟨⟨v, by rw [hmail]; rfl, ?_⟩, fun _ => ?_⟩⟩
    · have hv' : View strict u told n v := hu ▸ hv.own hc rfl (by simp) hs
      apply hv'.start
      intro i ci hci
      rw [(allReady_iff.1 hall).1 i ci hci]
      simp
    · rw [hmail]
      exact free_boolean .start p.taken true

/-- The client whose message is resolved goes on. -/
theorem Stage.resolve {ds : List Said} (h : Stage (Prospect strict t told n c.name) c p r) (hq : p.toServer = d :: ds)
    (hroom : p.pc ≠ .returned → r.players = (fun _ => none) ∧ r.ready = false) (ha : Apart t) (hc : t n = some c)
    (hlob : ∀ i ci, t i = some ci → InLobby ci)
    (hres : Resolved lobbyCodec db d n c t t' es b)
    (hok : c.expecting.login = true → ∀ c', t' n = some c' → c'.expecting.login = false →
      Distinct t ∧ (strict → ∀ i, i ≠ n → ∀ ci ∈ t i, ci.state ≠ .logging)) (taken : Nat) :
    ∃ c', t' n = some c' ∧ c'.con = c.con ∧
      Stage (Prospect strict t' (told ++ announcedIn t' (mail es c.con taken)) n c'.name) c'
        (Peer.deliver { p with toServer := ds, taken := taken } es c.con) r := by
  -- Only a client that has sent nothing is at its name.
  have h' : Stage (Prospect strict t told n c.name) c { p with toServer := ds, taken := taken } r := by
    cases h with
    | unnamed _ _ hs => rw [hq] at hs; cases hs
    | named he hp hq' => exact .named he hp hq'
    | asked he hA => exact .asked he hA
    | accepted pre x rest he hq' hx hA hr => exact .accepted pre x rest he hq' hx hA hr
    | inside he hp hr => exact .inside he hp hr
  cases hres with
  | kept es hes =>
    have hmail : mail es c.con taken = [] := by
      rcases hes with rfl | ⟨q, rfl, -⟩ <;> rfl
    exact ⟨c, hc, rfl, h'.silent rfl hmail fun _ _ hu => hu⟩
  | named name e score es b hu he hno =>
    exact ⟨_, Function.update_self .., rfl, h.answered hq hu he hno taken⟩
  | refused q ans he =>
    refine ⟨c, hc, rfl, h'.denied (by rw [he]; rfl) (by simp [he]) ?_⟩
    have hmail : mail [.validPassword c.name q ans, .send .reply c.con (.boolean false)] c.con taken =
        [⟨.reply, taken, .boolean false⟩] := by
      simp [mail]
    exact hmail ▸ noTrue_refused taken noTrue_nil
  | rejected q he =>
    refine ⟨c, hc, rfl, h'.denied (by rw [he]; rfl) (by simp [he]) ?_⟩
    have hmail : mail (.createUser c.name q (db.createUser c.name q) :: .send .reply c.con (.boolean false) ::
        (newPlayerNotices t n c ++ existingPlayersNotices t c)) c.con taken =
        ⟨.reply, taken, .boolean false⟩ :: existing t taken (List.finRange maxPlayers) := by
      rw [mail_createUser, mail_to_self, mail_append, mail_newPlayer_self ha hc, mail_existing, List.nil_append]
    exact hmail ▸ noTrue_refused taken (noTrue_existing t taken _)
  | admitted asked u hu hasked =>
    have hself : t' n = some c.toLobby := by rw [hu, Function.update_self]
    have hlogin : c.expecting.login = true := by
      rcases hasked with ⟨he, -⟩ | ⟨he, -⟩ <;> rw [he] <;> rfl
    obtain ⟨hdist, hothers⟩ := hok hlogin c.toLobby hself rfl
    exact ⟨c.toLobby, hself, rfl, h'.admitted hroom ha hc hdist hothers hasked hu rfl⟩
  | toggled st u he hst hu _ =>
    subst hu
    have hself : Function.update t n (some { c with state := st }) n = some { c with state := st } := Function.update_self ..
    have hmail : mail (newPlayerNotices (Function.update t n (some { c with state := st })) n { c with state := st })
        c.con taken = [] :=
      mail_newPlayer_self (ha.update hc { c with state := st } rfl) hself _
    have hs : c.state ≠ .logging := (hlob n c hc).not_logging (by rw [he]; rfl)
    refine ⟨_, hself, rfl, h'.silent rfl hmail fun _ u hu => hu.own hc rfl ?_ hs⟩
    rcases hst with rfl | rfl <;> simp
  | started u he hu hall =>
    have hself : u n = some { c with state := .readyPlay } := by rw [hu, Function.update_self]
    have hs : c.state ≠ .logging := (hlob n c hc).not_logging (by rw [he]; rfl)
    exact ⟨Client.start { c with state := .readyPlay }, congrArg (Option.map Client.start) hself, rfl,
      h'.started ha hc he hs hu hall rfl⟩

/-- A notice about the client in slot `n` for whoever is past LOGGING. -/
theorem View.hear_notice {u : Players} (hu : View strict t told m u) (ha : Apart t) (hc : t n = some c) (c' : Client)
    {name : Bytes} (hname : c.name = some name) (hname' : c'.name = c.name) (hcon : c'.con = c.con)
    (hfree : Distinct t ∨ c.state ≠ .logging) (hpast : strict → c'.state ≠ .logging) (taken : Nat) :
    let q : List Packet := [⟨.notice, taken, .player (createPlayerStruct c' n)⟩]
    ∃ u', absorbAll u q = some u' ∧
      View strict (Function.update t n (some c')) (told ++ announcedIn (Function.update t n (some c')) q) m u' := by
  have hann : announcedIn (Function.update t n (some c')) [⟨.notice, taken, .player (createPlayerStruct c' n)⟩] =
      [c'.con] := by
    simp [announcedIn, createPlayerStruct, cons]
  refine ⟨_, rfl, ?_⟩
  rw [hann]
  refine hu.notice hc hname (hname'.trans hname) (fun hn i ci hi hci => ?_) (fun i ci hci he => ?_) hpast
  · rcases hfree with hd | hs
    · intro he
      exact hi (hd.2 i n ci hci c hc (he.trans hname.symm))
    · obtain ⟨q, hq⟩ := hu.covers n c hc (.inl hs)
      rw [hn] at hq
      cases hq
  · exact ha.slot hc i ci hci (he.trans hcon)

/-- A notice about another client touches neither the slot nor the name of one
past LOGGING. -/
theorem free_notice (hmn : m ≠ n) (hm : t m = some cm) (hc : t n = some c) (c' : Client) (hn : c'.name = c.name)
    (hfree : Distinct t ∨ c.state ≠ .logging) (hs : cm.state ≠ .logging) {u : Players} (hu : View strict t told m u)
    (taken : Nat) : Free m cm.name [⟨.notice, taken, .player (createPlayerStruct c' n)⟩] := by
  intro x hx
  rw [List.mem_singleton.1 hx]
  refine ⟨Ne.symm hmn, fun he => ?_⟩
  have hsame : c.name = cm.name := hn.symm.trans he
  rcases hfree with hd | hcs
  · exact hmn (hd.2 n m c hc cm hm hsame).symm
  · exact hu.apart hc hm hcs hs (Ne.symm hmn) hsame

/-- A client that is sent the notice about another, if it is past LOGGING. -/
theorem Stage.notice (h : Stage (Prospect strict t told m cm.name) cm p r) (hmn : m ≠ n) (ha : Apart t)
    (hm : t m = some cm) (hc : t n = some c) (hmlob : InLobby cm) {c' : Client} {name : Bytes} (hname : c.name = some name)
    (hn : c'.name = c.name) (hcon : c'.con = c.con) (hfree : Distinct t ∨ c.state ≠ .logging)
    (hpast : strict → cm.state ≠ .logging → c'.state ≠ .logging)
    (hmail : mail es cm.con p.taken =
      if cm.state ≠ .logging then [⟨.notice, p.taken, .player (createPlayerStruct c' n)⟩] else []) :
    Stage (Prospect strict (Function.update t n (some c'))
      (told ++ announcedIn (Function.update t n (some c')) (mail es cm.con p.taken)) m cm.name) cm (p.deliver es cm.con) r := by
  apply h.deliver
  · intro hl
    have hs : cm.state = .logging := by
      by_contra hs
      rw [(hmlob.past hs).1] at hl
      cases hl
    rw [if_neg (by simp [hs])] at hmail
    exact ⟨rfl, hmail ▸ noTrue_nil, fun _ => hmail⟩
  · intro hl
    have hs := hmlob.not_logging hl
    rw [if_pos hs] at hmail
    rw [hmail]
    refine ⟨hl, fun q hq => hq.append fun u hu => ⟨?_, fun _ => free_notice hmn hm hc c' hn hfree hs hu p.taken⟩⟩
    exact hu.hear_notice ha hc c' hname hn hcon hfree (fun hst => hpast hst hs) p.taken

/-- A client that was ready before the last one is sent the notice about that
one and the start. -/
theorem Stage.notice_start (h : Stage (Prospect strict t told m cm.name) cm p r) (hmn : m ≠ n) (ha : Apart t)
    (hm : t m = some cm) (hc : t n = some c) (hmlob : InLobby cm) {name : Bytes} (hname : c.name = some name)
    (hs : c.state ≠ .logging) {u : Table} (hu : u = Function.update t n (some { c with state := .readyPlay }))
    (hall : allReady u = true) (hes : es = newPlayerNotices u n { c with state := .readyPlay } ++ startNotices u) :
    Stage (Prospect strict (fun i => (u i).map Client.start)
        (told ++ announcedIn (fun i => (u i).map Client.start) (mail es cm.con p.taken)) m cm.name)
      cm.start (p.deliver es cm.con) r := by
  have hready : ∀ i ci, u i = some ci → ci.state ≠ .logging := by
    intro i ci hci
    rw [(allReady_iff.1 hall).1 i ci hci]
    simp
  have hum : u m = some cm := by rw [hu, Function.update_of_ne hmn, hm]
  have ha' : Apart u := hu ▸ ha.update hc { c with state := .readyPlay } rfl
  have hmail : mail es cm.con p.taken = [⟨.notice, p.taken, .player (createPlayerStruct { c with state := .readyPlay } n)⟩] ++
      [⟨.start, p.taken, .boolean true⟩] := by
    rw [hes, mail_append, mail_newPlayer ha' hum hmn, if_pos (hready m cm hum), mail_start ha' hum]
  apply h.deliver
  · intro hl
    rw [(hmlob.past (hready m cm hum)).1] at hl
    cases hl
  · intro _
    have hfree : ∀ v, View strict t told m v → Free m cm.name (mail es cm.con p.taken) := by
      intro v hv
      rw [hmail]
      have hnotice := free_notice hmn hm hc { c with state := .readyPlay } rfl (.inr hs) (hready m cm hum) hv p.taken
      exact hnotice.append (free_boolean .start p.taken true)
    refine ⟨rfl, fun q hq => hq.append fun v hv => ⟨?_, fun _ => hfree v hv⟩⟩
    obtain ⟨v', habs, hv'⟩ := hv.hear_notice ha hc { c with state := .readyPlay } hname rfl rfl (.inr hs)
      (fun _ => by simp) p.taken
    rw [← hu] at hv'
    refine ⟨v', ?_, ?_⟩
    · rw [hmail, absorbAll_append, habs]
      rfl
    · rw [hmail, announcedIn_start]
      exact hv'.start hready

/-- The other clients go on. -/
theorem Stage.overhear (h : Stage (Prospect strict t told m cm.name) cm p r) (hmn : m ≠ n) (ha : Apart t)
    (hm : t m = some cm) (hc : t n = some c) (hlob : ∀ i ci, t i = some ci → InLobby ci)
    (hknown : c.expecting ≠ .user → ∃ name, c.name = some name)
    (hres : Resolved lobbyCodec db d n c t t' es b)
    (hok : c.expecting.login = true → ∀ c', t' n = some c' → c'.expecting.login = false → Distinct t)
    (hreject : Rejects db d c → Distinct t ∧ (strict → cm.state = .logging)) :
    ∃ cm', t' m = some cm' ∧ cm'.con = cm.con ∧
      Stage (Prospect strict t' (told ++ announcedIn t' (mail es cm.con p.taken)) m cm'.name) cm'
        (p.deliver es cm.con) r := by
  have hne : c.con ≠ cm.con := fun he => hmn (ha.slot hc m cm hm he.symm)
  have hkeep : ∀ c' : Client, Function.update t n (some c') m = some cm := by
    intro c'
    rw [Function.update_of_ne hmn, hm]
  have hmlob := hlob m cm hm
  cases hres with
  | kept es hes =>
    have hmail : mail es cm.con p.taken = [] := by
      rcases hes with rfl | ⟨q, rfl, -⟩ <;> rfl
    exact ⟨cm, hm, rfl, h.silent rfl hmail fun _ _ hu => hu⟩
  | named name e score es b hu he hno =>
    have hmail : mail (es ++ [.send .reply c.con (.boolean b)]) cm.con p.taken = [] := by
      rw [mail_append, mail_eq_nil fun why msg => hno why cm.con msg]
      simp [mail, hne]
    exact ⟨cm, hkeep _, rfl, h.silent rfl hmail fun _ u hV => hV.named hc ((hlob n c hc).name hu) rfl rfl⟩
  | refused q ans he =>
    have hmail : mail [.validPassword c.name q ans, .send .reply c.con (.boolean false)] cm.con p.taken = [] := by
      simp [mail, hne]
    exact ⟨cm, hm, rfl, h.silent rfl hmail fun _ _ hu => hu⟩
  | rejected q he hd hans =>
    obtain ⟨hdist, hlog⟩ := hreject ⟨he, q, hd, hans⟩
    obtain ⟨name, hname⟩ := hknown (by simp [he])
    have hmail : mail (.createUser c.name q (db.createUser c.name q) :: .send .reply c.con (.boolean false) ::
        (newPlayerNotices t n c ++ existingPlayersNotices t c)) cm.con p.taken =
        if cm.state ≠ .logging then [⟨.notice, p.taken, .player (createPlayerStruct c n)⟩] else [] := by
      rw [mail_createUser, mail_to_other hne, mail_append, mail_existing_other (Ne.symm hne),
        List.append_nil, mail_newPlayer ha hm hmn]
    have hstage := h.notice hmn ha hm hc hmlob hname rfl rfl (.inl hdist) (fun hs hst => absurd (hlog hs) hst) hmail
    rw [Function.update_eq_self_iff.2 hc.symm] at hstage
    exact ⟨cm, hm, rfl, hstage⟩
  | admitted asked u hu hasked =>
    subst hu
    have he : c.expecting.login = true ∧ c.expecting ≠ .user := by
      rcases hasked with ⟨he, -⟩ | ⟨he, -⟩ <;> rw [he] <;> exact ⟨rfl, by simp⟩
    have hdist := hok he.1 c.toLobby (Function.update_self ..) rfl
    obtain ⟨name, hname⟩ := hknown he.2
    have ha' : Apart (Function.update t n (some c.toLobby)) := ha.update hc c.toLobby rfl
    have hex : mail (existingPlayersNotices (Function.update t n (some c.toLobby)) c.toLobby) cm.con p.taken = [] :=
      mail_existing_other (Ne.symm hne)
    refine ⟨cm, hkeep _, rfl,
      h.notice hmn ha hm hc hmlob hname rfl rfl (.inl hdist) (fun _ _ => by simp [Client.toLobby]) ?_⟩
    rw [mail_asked hasked, mail_to_other hne, mail_append, hex, List.append_nil, mail_newPlayer ha' (hkeep _) hmn]
  | toggled st u he hst hu _ =>
    subst hu
    have hs : c.state ≠ .logging := (hlob n c hc).not_logging (by rw [he]; rfl)
    obtain ⟨name, hname⟩ := hknown (by simp [he])
    have ha' : Apart (Function.update t n (some { c with state := st })) := ha.update hc { c with state := st } rfl
    refine ⟨cm, hkeep _, rfl, h.notice hmn ha hm hc hmlob hname rfl rfl (.inr hs) (fun _ _ => ?_) ?_⟩
    · rcases hst with rfl | rfl <;> simp
    · exact mail_newPlayer ha' (hkeep _) hmn _
  | started u he hu hall =>
    have hs : c.state ≠ .logging := (hlob n c hc).not_logging (by rw [he]; rfl)
    obtain ⟨name, hname⟩ := hknown (by simp [he])
    have hum : u m = some cm := hu ▸ hkeep _
    exact ⟨cm.start, congrArg (Option.map Client.start) hum, rfl,
      h.notice_start hmn ha hm hc hmlob hname hs hu hall rfl⟩

end Resolve

end Snuffin.ChildServer
