import Snuffin.RoundBoard
/-!
# Where names are read

`listenNewClients` leaves the name of a new client unset until `validateUser`
stores one, while the loops over the table take every slot that is not NULL.
`reads` lists the slots whose name a step reads or frees, and the steps that
read an unset one are told by what the slots expect.
-/
open Lib Snuffin.Game

namespace Snuffin.ChildServer

/-! ## The reads -/

section Reads
variable {M : Type} (cd : Codec M)

/-- The slots whose name `resolveRequest` reads or frees, in order: in
`disconnect`, in the calls of the database, in `notifyNewPlayer` and in
`notifyExistingPlayers`. -/
def requestReads (db : Db) (junk : Bytes) (res : Bool) (d : M) (n : Slot) (t : Table) : List Slot :=
  match t n with
  | none => []
  | some c =>
    if res = false then [n]
    else
      match c.expecting with
      | .user => []
      | .password =>
        n :: if db.validPassword c.name ((cd.unmarshString d).getD junk) ≠ 0 then n :: n :: occupied t else []
      | .newPassword => if (cd.unmarshString d).isSome then n :: n :: n :: occupied t else []
      | .readyToPlay => if (cd.unmarshBoolean d).isSome then [n] else []
      | .movement => []

/-- The steps of a round and, once its loop has ended, the rounds of the loop
that sends the results. -/
inductive NameAct (M : Type) where
  | step (a : RoundAct M)
  | result (n : Slot)

def nameStep (s : Round) : NameAct M → Option Round
  | .step a => roundStep cd s a
  | .result n =>
    if s.phase = .over then some { s with server := s.server.emit ((s.server.clients n).elim [] resultOf) } else none

/-- A child server from its first client to the results of its game. -/
def nameMachine : Machine Round (NameAct M) := .ofFun Round.start (nameStep cd)

/-- The slots whose name a step reads or frees. -/
def reads (s : Round) : NameAct M → List Slot
  | .step (.request n db junk res d) => requestReads cd db junk res d n s.server.clients
  | .step _ => []
  | .result n => if (s.server.clients n).isSome then [n] else []

/-- The slot has had a name stored since its connection was accepted. -/
def NameStored (t : Table) (n : Slot) : Prop := ∃ c name, t n = some c ∧ c.name = some name

def ReadsStored (s : Round) (a : NameAct M) : Prop := ∀ n ∈ reads cd s a, NameStored s.server.clients n

/-- The message of client `c` makes the server tell it about every slot: its
password is right, or it sends a password to be created with. -/
def Introduces (db : Db) (junk : Bytes) (d : M) (c : Client) : Prop :=
  c.expecting = .password ∧ db.validPassword c.name ((cd.unmarshString d).getD junk) ≠ 0 ∨
    c.expecting = .newPassword ∧ (cd.unmarshString d).isSome = true

/-- No slot expects USER. -/
def AllNamed (t : Table) : Prop := ∀ n c, t n = some c → c.expecting ≠ .user

/-- Nobody leaves while its slot expects USER, or is introduced or gets a
result while a slot does. -/
def NamesKnown (s : Round) : NameAct M → Prop
  | .step (.request n db junk res d) => ∀ c, s.server.clients n = some c →
      (res = false → c.expecting ≠ .user) ∧ (res = true → Introduces cd db junk d c → AllNamed s.server.clients)
  | .step _ => True
  | .result n => ∀ c, s.server.clients n = some c → c.expecting ≠ .user

end Reads

/-! ## What the effects show -/

/-- The names that an effect carries. -/
def Effect.names : Effect → List (Option Bytes)
  | .send _ _ (.player p) => [p.name]
  | .validPassword name _ _ | .createUser name _ _ | .setHighscore name _ | .freeName name => [name]
  | _ => []

/-- The name is that of a slot in `l`. -/
def NameOf (t : Table) (l : List Slot) (name : Option Bytes) : Prop := ∃ n ∈ l, ∃ c, t n = some c ∧ c.name = name

section Shown
variable {M : Type} {cd : Codec M} {t u : Table} {n : Slot} {c : Client} {l : List Slot}

theorem names_new {c' : Client} (ht : t n = some c) (hn : n ∈ l) (hc : c'.name = c.name) :
    ∀ e ∈ newPlayerNotices u n c', ∀ name ∈ e.names, NameOf t l name := by
  intro e he name hname
  obtain ⟨i, ci, -, hi⟩ := mem_forClients.1 he
  obtain ⟨-, hi⟩ := Option.ite_none_right_eq_some.1 hi
  rw [← Option.some.inj hi, Effect.names, List.mem_singleton] at hname
  exact ⟨n, hn, c, ht, hname ▸ hc.symm⟩

theorem names_existing (hl : ∀ i ∈ occupied u, i ∈ l)
    (hu : ∀ i ci, u i = some ci → ∃ c₀, t i = some c₀ ∧ c₀.name = ci.name) :
    ∀ e ∈ existingPlayersNotices u c, ∀ name ∈ e.names, NameOf t l name := by
  intro e he name hname
  obtain ⟨i, ci, hci, hi⟩ := mem_forClients.1 he
  rw [← Option.some.inj hi, Effect.names, List.mem_singleton] at hname
  obtain ⟨c₀, h₀, hn⟩ := hu i ci hci
  exact ⟨i, hl i (mem_occupied.2 ⟨ci, hci⟩), c₀, h₀, hn.trans hname.symm⟩

/-- An effect that carries the client's own name. -/
theorem names_own (ht : t n = some c) (hn : n ∈ l) {e : Effect} (he : e.names = [c.name]) :
    ∀ name ∈ e.names, NameOf t l name := by
  intro name hname
  rw [he, List.mem_singleton] at hname
  exact ⟨n, hn, c, ht, hname.symm⟩

theorem names_leave : ∀ e ∈ leaveNotices t n, e.names = [] := by
  intro e he
  obtain ⟨i, ci, -, hi⟩ := mem_forClients.1 he
  obtain ⟨-, hi⟩ := Option.ite_none_right_eq_some.1 hi
  rw [← Option.some.inj hi]
  rfl

theorem names_start : ∀ e ∈ startNotices t, e.names = [] := by
  intro e he
  obtain ⟨i, ci, -, hi⟩ := mem_forClients.1 he
  rw [← Option.some.inj hi]
  rfl

/-- Every name that a request asks for, sends or frees is that of a slot whose
name it reads. -/
theorem shown_is_read {db : Db} {junk : Bytes} {res : Bool} {d : M} {s s' : Server}
    (h : resolveRequest cd db junk res d n s = some s') (hs : s.out = []) :
    ∀ e ∈ s'.out, ∀ name ∈ e.names, NameOf s.clients (requestReads cd db junk res d n s.clients) name := by
  obtain ⟨c, hc⟩ := client_of_resolve h
  unfold requestReads
  rw [hc]
  -- The table of the notices differs from the table before in no name.
  have hown : ∀ u : Client, u.name = c.name → ∀ i ci, Function.update s.clients n (some u) i = some ci →
      ∃ c₀, s.clients i = some c₀ ∧ c₀.name = ci.name := fun u hu i ci => update_same_name hc hu
  have hocc : ∀ u : Client, ∀ i ∈ occupied (Function.update s.clients n (some u)), i ∈ occupied s.clients := by
    intro u i hi
    obtain ⟨ci, hci⟩ := mem_occupied.1 hi
    by_cases hin : i = n
    · subst hin
      exact mem_occupied.2 ⟨c, hc⟩
    · rw [Function.update_of_ne hin] at hci
      exact mem_occupied.2 ⟨ci, hci⟩
  cases res with
  | false =>
    rw [resolve_left hc] at h
    obtain rfl := Option.some.inj h
    simp only [disconnect, emit_out, hs, List.nil_append, List.forall_mem_append, List.forall_mem_singleton]
    refine ⟨fun e he name hname => ?_, names_own hc (by simp) rfl⟩
    rw [names_leave e he] at hname
    cases hname
  | true =>
    dsimp only
    rw [if_neg (by simp)]
    cases he : c.expecting with
    | user =>
      rw [resolve_user hc he] at h
      obtain rfl := Option.some.inj h
      unfold validateUser
      split
      · simp [hs]
      · dsimp only
        split <;> simp [hs, Effect.names]
    | password =>
      dsimp only
      by_cases ha : db.validPassword c.name ((cd.unmarshString d).getD junk) ≠ 0
      · rw [resolve_accepted hc he rfl ha] at h
        obtain rfl := Option.some.inj h
        rw [if_pos ha]
        simp only [notifyNewPlayer, notifyExistingPlayers, emit_out, setClient_out, emit_clients, setClient_clients, hs,
          List.nil_append, List.forall_mem_append, List.forall_mem_singleton]
        refine ⟨⟨⟨names_own hc (by simp) rfl, by simp [Effect.names]⟩,
          names_new hc (by simp) rfl⟩, names_existing (fun i hi => ?_) (hown _ rfl)⟩
        simp [hocc _ i hi]
      · rw [resolve_refused hc he rfl ha] at h
        obtain rfl := Option.some.inj h
        rw [if_neg ha]
        simp only [emit_out, hs, List.nil_append, List.forall_mem_append, List.forall_mem_singleton]
        exact ⟨names_own hc (by simp) rfl, by simp [Effect.names]⟩
    | newPassword =>
      rw [resolve_newPassword hc he] at h
      obtain rfl := Option.some.inj h
      unfold newPassword
      dsimp only
      split
      · simp [hs]
      · rename_i p hp
        rw [hp, Option.isSome_some, if_pos rfl]
        split
        · simp only [notifyNewPlayer, notifyExistingPlayers, emit_out, setClient_out, emit_clients, setClient_clients, hs,
            List.nil_append, List.forall_mem_append, List.forall_mem_singleton]
          refine ⟨⟨⟨names_own hc (by simp) rfl, by simp [Effect.names]⟩,
            names_new hc (by simp) rfl⟩, names_existing (fun i hi => ?_) (hown _ rfl)⟩
          simp [hocc _ i hi]
        · simp only [notifyNewPlayer, notifyExistingPlayers, emit_out, emit_clients, hs, List.nil_append,
            List.forall_mem_append, List.forall_mem_singleton]
          refine ⟨⟨⟨names_own hc (by simp) rfl, by simp [Effect.names]⟩,
            names_new hc (by simp) rfl⟩, names_existing (fun i hi => ?_) fun i ci hi => ⟨ci, hi, rfl⟩⟩
          simp [hi]
    | readyToPlay =>
      rw [resolve_ready hc he] at h
      obtain rfl := Option.some.inj h
      unfold readyToPlay
      dsimp only
      split
      · simp [hs]
      · rename_i hb
        rw [hb, Option.isSome_some, if_pos rfl]
        dsimp only [checkGameStart]
        have hnew : ∀ u : Table, ∀ e ∈ newPlayerNotices u n { c with state := .readyPlay },
            ∀ name ∈ e.names, NameOf s.clients [n] name := fun u => names_new hc (by simp) rfl
        split
        · simp only [notifyNewPlayer, sendGameStart, emit_out, setClient_out, hs, List.nil_append, List.forall_mem_append]
          refine ⟨hnew _, fun e he name hname => ?_⟩
          rw [names_start e he] at hname
          cases hname
        · simp only [notifyNewPlayer, emit_out, setClient_out, hs, List.nil_append]
          exact hnew _
      · rename_i hb
        rw [hb, Option.isSome_some, if_pos rfl]
        simp only [notifyNewPlayer, emit_out, setClient_out, hs, List.nil_append]
        exact names_new hc (by simp) rfl
    | movement =>
      rw [resolve_movement hc he] at h
      obtain rfl := Option.some.inj h
      unfold movement
      split
      · simp [hs]
      · simp [hs, Effect.names]

end Shown

/-! ## Reads of a stored name -/

section Runs
variable {M : Type} {cd : Codec M}

/-- A slot expects USER as long as its name is unset. -/
structure NameInv (s : Round) : Prop where
  table : TableInv s
  unset : ∀ n c, s.server.clients n = some c → c.expecting = .user → c.name = none

theorem Client.Next.unset {c c' : Client} (h : c.Next c') (hc : c.expecting = .user → c.name = none)
    (he : c'.expecting = .user) : c'.name = none := by
  cases h with
  | kept => exact hc he
  | named name e score hne => exact absurd he hne
  | admitted => cases he
  | toggled st => exact hc he
  | started => cases he

theorem name_step {s s' : Round} {a : NameAct M} (h : NameInv s) (hs : nameStep cd s a = some s') : NameInv s' := by
  cases a with
  | step a =>
    refine ⟨table_step h.table hs, fun n c' hc' he => ?_⟩
    rcases round_next hs hc' with ⟨c, hc, hn | ⟨-, rfl⟩⟩ | rfl
    · exact hn.unset (h.unset n c hc) he
    · exact h.unset n c hc he
    · rfl
  | result n =>
    obtain ⟨-, hs⟩ := Option.ite_none_right_eq_some.1 hs
    obtain rfl := Option.some.inj hs
    exact ⟨h.table.keep h.table.known rfl fun _ _ hm => hm, h.unset⟩

theorem name_inv {s : Round} (h : (nameMachine cd).Reaches s) : NameInv s := by
  apply h.inv (I := NameInv)
  · intro s hs
    rw [hs]
    exact ⟨table_inv (.init rfl : (roundMachine cd).Reaches Round.start), fun _ _ hn => (by cases hn)⟩
  · intro _ _ _ hi _ hs
    exact name_step hi hs

theorem NameInv.stored_iff {s : Round} (h : NameInv s) {n : Slot} {c : Client} (hc : s.server.clients n = some c) :
    NameStored s.server.clients n ↔ c.expecting ≠ .user := by
  constructor
  · rintro ⟨c', name, hc', hname⟩ he
    obtain rfl : c' = c := Option.some.inj (hc'.symm.trans hc)
    rw [h.unset n c' hc he] at hname
    cases hname
  · intro he
    obtain ⟨name, -, hname, -⟩ := (h.table.known n c hc).past he
    exact ⟨c, name, hc, hname⟩

theorem NameInv.all_stored {s : Round} (h : NameInv s) :
    (∀ n ∈ occupied s.server.clients, NameStored s.server.clients n) ↔ AllNamed s.server.clients := by
  constructor
  · intro hall n c hc
    exact (h.stored_iff hc).1 (hall n (mem_occupied.2 ⟨c, hc⟩))
  · intro hall n hn
    obtain ⟨c, hc⟩ := mem_occupied.1 hn
    exact (h.stored_iff hc).2 (hall n c hc)

/-- A request reads stored names only when its condition holds. -/
theorem NameInv.request_iff {s : Round} (h : NameInv s) (n : Slot) (db : Db) (junk : Bytes) (res : Bool) (d : M) :
    ReadsStored cd s (.step (.request n db junk res d)) ↔ NamesKnown cd s (.step (.request n db junk res d)) := by
  unfold ReadsStored NamesKnown
  dsimp only [reads]
  unfold requestReads
  cases hc : s.server.clients n with
  | none => simp
  | some c =>
    have hstored := h.stored_iff hc
    cases res with
    | false => simpa using hstored
    | true =>
      simp only [Option.some.injEq, forall_eq', Bool.true_eq_false, if_false, false_imp_iff, true_imp_iff, true_and,
        Introduces]
      cases he : c.expecting with
      | user => simp
      | password =>
        have hn : NameStored s.server.clients n := hstored.2 (by simp [he])
        rw [← h.all_stored]
        by_cases ha : db.validPassword c.name ((cd.unmarshString d).getD junk) ≠ 0
        · simp [ha, hn]
        · simp [ha, hn]
      | newPassword =>
        have hn : NameStored s.server.clients n := hstored.2 (by simp [he])
        rw [← h.all_stored]
        by_cases hd : (cd.unmarshString d).isSome = true
        · simp [hd, hn]
        · simp [hd]
      | readyToPlay =>
        have hn : NameStored s.server.clients n := hstored.2 (by simp [he])
        by_cases hd : (cd.unmarshBoolean d).isSome = true
        · simp [hd, hn]
        · simp [hd]
      | movement => simp

theorem NameInv.reads_iff {s : Round} (h : NameInv s) (a : NameAct M) : ReadsStored cd s a ↔ NamesKnown cd s a := by
  cases a with
  | step a =>
    cases a with
    | request n db junk res d => exact h.request_iff n db junk res d
    | accept | initBoard | loadSnake | loaded | tick => exact ⟨fun _ => trivial, fun _ _ hn => (by cases hn)⟩
  | result n =>
    unfold ReadsStored NamesKnown
    dsimp only [reads]
    cases hc : s.server.clients n with
    | none => simp
    | some c => simpa using h.stored_iff hc

/-- In every run the names that are read or freed are stored ones if and only
if nobody leaves while its slot expects USER, or is introduced or gets a result
while a slot does. -/
theorem names_stored_iff {tr : List (Round × NameAct M)} {s : Round} (h : (nameMachine cd).Run Round.start tr s) :
    (∀ e ∈ tr, ReadsStored cd e.1 e.2) ↔ ∀ e ∈ tr, NamesKnown cd e.1 e.2 := by
  have hr := (h.reaches rfl).2
  exact forall₂_congr fun e he => (name_inv (hr e he)).reads_iff e.2

/-- A client that gives its name and leaves. -/
def named : List (NameAct Bytes) :=
  [.step (.accept 0), .step (.request 0 trusting [] true [97]), .step (.request 0 trusting [] false [])]

theorem names_stored_iff_named : ∃ tr s, (nameMachine eagerCodec).Run Round.start tr s ∧ tr.length = 3 ∧
    ((∀ e ∈ tr, ReadsStored eagerCodec e.1 e.2) ↔ ∀ e ∈ tr, NamesKnown eagerCodec e.1 e.2) := by
  obtain ⟨tr, s, hr, hl⟩ : ∃ tr s, (nameMachine eagerCodec).Run Round.start tr s ∧ tr.length = 3 :=
    ⟨_, _, Machine.run_of_trace (l := named) rfl, rfl⟩
  exact ⟨tr, s, hr, hl, names_stored_iff hr⟩

/-- The server with its first client. -/
def greeted : Round := { Round.start with server := Round.start.server.setClient 0 (newClient 0), nextCon := 1 }

/-- The client leaves at once: `disconnect` frees an unset pointer. -/
theorem unset_name_freed : ¬∀ tr s, (nameMachine eagerCodec).Run Round.start tr s →
    ∀ e ∈ tr, ReadsStored eagerCodec e.1 e.2 := by
  intro h
  have hr : (nameMachine eagerCodec).Run Round.start
      ([] ++ [(Round.start, .step (.accept 0))] ++ [(greeted, .step (.request 0 trusting [] false []))]) _ :=
    .snoc (.snoc .nil rfl) rfl
  obtain ⟨c, name, hc, hname⟩ :=
    h _ _ hr (greeted, .step (.request 0 trusting [] false [])) (by simp) 0 (List.mem_singleton_self 0)
  rw [← Option.some.inj (show some (newClient 0) = some c from hc)] at hname
  cases hname

end Runs

end Snuffin.ChildServer
