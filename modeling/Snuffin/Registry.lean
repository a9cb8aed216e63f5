import Snuffin.Accounts
import Snuffin.Session
/-!
# The lobbies and the accounts they share

Every lobby is a child server of its own, and all of them call the one
database process. A lobby resolves a request with what its own calls have
returned, and the calls of the others come in between. The accounts outlive
the lobbies, and no game changes them.
-/
open Lib Snuffin.Game Snuffin.Marshalling

namespace Snuffin.Registry
open ChildServer

/-! ## The lobbies and the database process -/

/-- The call that an effect of a request reports, with what it returned. -/
def asked : Effect → Option (Db.Request × Int)
  | .existUser name v => some (.existUser (cstring name), v)
  | .getHighScore name v => some (.getHighScore (cstring name), v)
  | .validPassword (some name) password v => some (.validPassword (cstring name) (cstring password), v)
  | .createUser (some name) password v => some (.createUser (cstring name) (cstring password), v)
  | _ => none

/-- The database process with its callers, the lobbies, and what the calls of
a lobby have returned since its last request. -/
structure System (κ D : Type) where
  db : Db.World κ D
  lobby : κ → Session
  got : κ → List (Db.Request × Int)

inductive SystemAct (κ M : Type) where
  | db (a : Db.Act κ)
  | lobby (k : κ) (a : SessionAct M)

section System
variable {κ D M : Type} [DecidableEq κ]

/-- A caller that returns hands its value to its lobby. -/
def gets (w w' : Db.World κ D) : Db.Act κ → (κ → List (Db.Request × Int)) → κ → List (Db.Request × Int)
  | .test k, got => Function.update got k (got k ++ Db.history (w'.returned.drop w.returned.length))
  | _, got => got

/-- `sessionMachine`'s step by its label. -/
def sessionStep (cd : Codec M) (s : Session) : SessionAct M → Option Session
  | .accept n con => some ⟨s.server.setClient n (newClient con), Function.update s.answers n []⟩
  | .request n db junk res d =>
    (resolveRequest cd db junk res d n { s.server with out := [] }).map fun sv =>
      ⟨sv, Function.update s.answers n (s.answers n ++ sv.out)⟩
  | .disconnect n => (s.server.clients n).map fun c => ⟨disconnect n c s.server, s.answers⟩
  | .playerLost n => (playerLost n s.server).map fun sv => ⟨sv, s.answers⟩

/-- A request is resolved when its calls have returned; the other steps of a
lobby make no call. -/
def step (sq : Db.Sqlite D) (cd : Codec M) (s : System κ D) : SystemAct κ M → Option (System κ D)
  | .db a => (Db.step sq s.db a).map fun w => { s with db := w, got := gets s.db w a s.got }
  | .lobby k a =>
    (sessionStep cd (s.lobby k) a).bind fun t =>
      match a with
      | .request .. =>
        if s.db.caller k = .idle ∧ t.server.out.filterMap asked = s.got k then
          some { s with lobby := Function.update s.lobby k t, got := Function.update s.got k [] }
        else none
      | _ => some { s with lobby := Function.update s.lobby k t }

/-- Before the first connection to any lobby. -/
def System.start (d : D) : System κ D := ⟨.start d, fun _ => ⟨⟨fun _ => none, false, none, []⟩, fun _ => []⟩, fun _ => []⟩

abbrev system (sq : Db.Sqlite D) (cd : Codec M) (d : D) : Machine (System κ D) (SystemAct κ M) :=
  .ofFun (.start d) (step sq cd)

/-- The calls come one at a time, and say what is meant. -/
def Serially (s : System κ D) : SystemAct κ M → Prop
  | .db a => Db.Serial s.db a
  | .lobby _ _ => True

theorem sessionStep_step {cd : Codec M} {s t : Session} {a : SessionAct M} (h : sessionStep cd s a = some t) :
    (sessionMachine cd).step s a t := by
  cases a with
  | accept n con => exact (Option.some.inj h).symm
  | request n db junk res d =>
    obtain ⟨sv, hsv, rfl⟩ := Option.map_eq_some_iff.1 h
    exact ⟨sv, hsv, rfl⟩
  | disconnect n =>
    obtain ⟨c, hc, rfl⟩ := Option.map_eq_some_iff.1 h
    exact ⟨c, hc, rfl⟩
  | playerLost n =>
    obtain ⟨sv, hsv, rfl⟩ := Option.map_eq_some_iff.1 h
    exact ⟨sv, hsv, rfl⟩

instance [Fintype κ] (s : System κ D) : ∀ a : SystemAct κ M, Decidable (Serially s a)
  | .db a => inferInstanceAs (Decidable (Db.Serial s.db a))
  | .lobby _ _ => .isTrue trivial

/-- What a step does. -/
inductive Stepped (sq : Db.Sqlite D) (cd : Codec M) (s : System κ D) : SystemAct κ M → System κ D → Prop
  | db {a w} : Db.step sq s.db a = some w → Stepped sq cd s (.db a) { s with db := w, got := gets s.db w a s.got }
  | request {k n db junk res d t} : (sessionMachine cd).step (s.lobby k) (.request n db junk res d) t →
      t.server.out.filterMap asked = s.got k →
      Stepped sq cd s (.lobby k (.request n db junk res d))
        { s with lobby := Function.update s.lobby k t, got := Function.update s.got k [] }
  | quiet {k a t} : (∀ n db junk res d, a ≠ .request n db junk res d) → (sessionMachine cd).step (s.lobby k) a t →
      Stepped sq cd s (.lobby k a) { s with lobby := Function.update s.lobby k t }

theorem step_cases {sq : Db.Sqlite D} {cd : Codec M} {s s' : System κ D} {a : SystemAct κ M}
    (h : step sq cd s a = some s') : Stepped sq cd s a s' := by
  cases a with
  | db a =>
    obtain ⟨w, hw, rfl⟩ := Option.map_eq_some_iff.1 h
    exact .db hw
  | lobby k a =>
    obtain ⟨t, ht, h⟩ := Option.bind_eq_some_iff.1 h
    cases a with
    | request n db junk res d =>
      obtain ⟨⟨-, hout⟩, h⟩ := Option.ite_none_right_eq_some.1 h
      obtain rfl := Option.some.inj h
      exact .request (sessionStep_step ht) hout
    | accept | disconnect | playerLost =>
      obtain rfl := Option.some.inj h
      exact .quiet (fun _ _ _ _ _ hr => by cases hr) (sessionStep_step ht)

end System

/-! ## Who is known -/

/-- The database took this password for `name`, or made it the name's own. -/
def AcceptedWith (name password : Bytes) (log : List Effect) : Prop :=
  (∃ ans, .validPassword (some name) password ans ∈ log ∧ ans ≠ 0) ∨ .createUser (some name) password 0 ∈ log

theorem acceptedWith_of_accepted {name : Bytes} {log : List Effect} (h : Accepted name log) :
    ∃ password, AcceptedWith name password log := by
  rcases h with ⟨p, ans, hmem, hne⟩ | ⟨p, hmem⟩
  · exact ⟨p, .inl ⟨ans, hmem, hne⟩⟩
  · exact ⟨p, .inr hmem⟩

/-- What the database has answered about a client that has given its name: the
name was found with its score, or not found, and then the score is 0 and no
password is asked for. -/
def LookedUp (c : Client) (log : List Effect) : Prop := ∃ name score, c.name = some name ∧ c.score = some score ∧
  ((∃ ans, ans ≠ 0 ∧ .existUser name ans ∈ log ∧ .getHighScore name score ∈ log) ∨
    .existUser name 0 ∈ log ∧ score = 0 ∧ c.expecting ≠ .password)

/-- Every client past USER was looked up. -/
def LookedInv (s : Session) : Prop := ∀ n c, s.server.clients n = some c → c.expecting ≠ .user → LookedUp c (s.answers n)

section Looked
variable {M : Type} {cd : Codec M} {db : ChildServer.Db} {junk : Bytes} {d : M} {n : Slot}

theorem LookedUp.keep {c c' : Client} {log : List Effect} (h : LookedUp c log) (hname : c'.name = c.name)
    (hscore : c'.score = c.score) (he : c'.expecting = .password → c.expecting = .password) (es : List Effect) :
    LookedUp c' (log ++ es) := by
  obtain ⟨name, score, hn, hs, hlog⟩ := h
  refine ⟨name, score, hname.trans hn, hscore.trans hs, ?_⟩
  rcases hlog with ⟨ans, hne, hfound, hget⟩ | ⟨hunknown, hzero, hp⟩
  · exact .inl ⟨ans, hne, List.mem_append_left _ hfound, List.mem_append_left _ hget⟩
  · exact .inr ⟨List.mem_append_left _ hunknown, hzero, fun hc => hp (he hc)⟩

/-- The name that a message gives has just been looked up. -/
theorem looked_user {s : Server} {c c' : Client} (hc : s.clients n = some c) (he : c.expecting = .user)
    (hc' : (validateUser cd db d n c s).clients n = some c') (he' : c'.expecting ≠ .user) :
    LookedUp c' (validateUser cd db d n c s).out := by
  unfold validateUser at hc' ⊢
  cases hd : cd.unmarshString d with
  | none =>
    rw [hd] at hc'
    obtain rfl := Option.some.inj (hc.symm.trans hc')
    exact absurd he he'
  | some name =>
    rw [hd] at hc'
    dsimp only at hc' ⊢
    split at hc'
    · rename_i hans
      rw [if_pos hans]
      simp only [setClient_clients, Function.update_self, Option.some.injEq] at hc'
      subst hc'
      exact ⟨name, db.getHighScore name, rfl, rfl, .inl ⟨db.existUser name, hans, by simp, by simp⟩⟩
    · rename_i hans
      rw [if_neg hans]
      simp only [setClient_clients, Function.update_self, Option.some.injEq] at hc'
      subst hc'
      exact ⟨name, 0, rfl, rfl, .inr ⟨by simp [not_not.1 hans], rfl, by simp⟩⟩

/-- A message leaves the name and the score of everybody past USER, but for its
sender when that was asked for its name. -/
theorem before_resolved {c : Client} {t t' : Table} {es : List Effect} {b : Bool} (hc : t n = some c)
    (h : Resolved cd db d n c t t' es b) (hready : ∀ m c, t m = some c → c.state = .readyPlay → c.expecting ≠ .user)
    {m : Slot} {c' : Client} (hc' : t' m = some c') (he' : c'.expecting ≠ .user) (hm : m = n → c.expecting ≠ .user) :
    ∃ c₀, t m = some c₀ ∧ c₀.expecting ≠ .user ∧ c'.name = c₀.name ∧ c'.score = c₀.score ∧
      (c'.expecting = .password → c₀.expecting = .password) := by
  -- A client that is written over the sender, with its name and score.
  have hupdate : ∀ (c₁ : Client) m c', Function.update t n (some c₁) m = some c' → (m = n → c.expecting ≠ .user) →
      c'.expecting ≠ .user → c₁.name = c.name → c₁.score = c.score →
      (c₁.expecting = .password → c.expecting = .password) →
      ∃ c₀, t m = some c₀ ∧ c₀.expecting ≠ .user ∧ c'.name = c₀.name ∧ c'.score = c₀.score ∧
        (c'.expecting = .password → c₀.expecting = .password) := by
    intro c₁ m c' h₁ hu he' hname hscore hp
    by_cases hmn : m = n
    · subst hmn
      rw [Function.update_self, Option.some.injEq] at h₁
      subst h₁
      exact ⟨c, hc, hu rfl, hname, hscore, hp⟩
    · rw [Function.update_of_ne hmn] at h₁
      exact ⟨c', h₁, he', rfl, rfl, id⟩
  cases h with
  | kept | refused | rejected => exact ⟨c', hc', he', rfl, rfl, id⟩
  | named name e score _ _ hu _ _ =>
    by_cases hmn : m = n
    · exact absurd hu (hm hmn)
    · rw [Function.update_of_ne hmn] at hc'
      exact ⟨c', hc', he', rfl, rfl, id⟩
  | admitted asked _ ht _ =>
    rw [ht] at hc'
    exact hupdate c.toLobby m c' hc' hm he' rfl rfl fun hp => by cases hp
  | toggled st _ _ _ ht _ =>
    rw [ht] at hc'
    exact hupdate { c with state := st } m c' hc' hm he' rfl rfl id
  | started u he ht hall =>
    obtain ⟨c₁, h₁, rfl⟩ := Option.map_eq_some_iff.1 hc'
    have hst := (allReady_iff.1 hall).1 m c₁ h₁
    by_cases hmn : m = n
    · subst hmn
      rw [ht, Function.update_self, Option.some.injEq] at h₁
      subst h₁
      exact ⟨c, hc, hm rfl, rfl, rfl, fun hp => by cases hp⟩
    · rw [ht, Function.update_of_ne hmn] at h₁
      exact ⟨c₁, h₁, hready m c₁ h₁ hst, rfl, rfl, fun hp => by cases hp⟩

theorem looked_step {s s' : Session} {a : SessionAct M} (hsession : SessionInv s) (h : LookedInv s)
    (hs : (sessionMachine cd).step s a s') : LookedInv s' := by
  cases a with
  | accept n con =>
    simp only [sessionMachine] at hs
    subst hs
    intro m c hc he
    by_cases hm : m = n
    · subst hm
      simp only [setClient_clients, Function.update_self, Option.some.injEq] at hc
      subst hc
      exact absurd rfl he
    · simp only [setClient_clients, Function.update_of_ne hm] at hc ⊢
      exact h m c hc he
  | disconnect n =>
    obtain ⟨c, -, rfl⟩ := hs
    intro m c hc he
    by_cases hm : m = n
    · subst hm
      simp [disconnect] at hc
    · simp only [disconnect, emit_clients, Function.update_of_ne hm] at hc
      exact h m c hc he
  | playerLost n =>
    obtain ⟨sv, hp, rfl⟩ := hs
    obtain ⟨c₀, hc₀, rfl⟩ := Option.map_eq_some_iff.1 hp
    intro m c hc he
    by_cases hm : m = n
    · subst hm
      simp only [setClient_clients, Function.update_self, Option.some.injEq] at hc
      subst hc
      exact h m c₀ hc₀ he
    · simp only [setClient_clients, Function.update_of_ne hm] at hc
      exact h m c hc he
  | request n db junk res d =>
    obtain ⟨sv, hr, rfl⟩ := hs
    cases res with
    | false =>
      obtain ⟨c, -, rfl⟩ := resolve_closed hr
      intro m c hc he
      by_cases hm : m = n
      · subst hm
        simp [disconnect] at hc
      · simp only [disconnect, emit_clients, Function.update_of_ne hm] at hc ⊢
        exact h m c hc he
    | true =>
      obtain ⟨c, hc, es, b, hres, -, -⟩ := resolve_cases hr
      intro m c' hc' he'
      by_cases hm : m = n ∧ c.expecting = .user
      · obtain ⟨rfl, hu⟩ := hm
        rw [resolve_user hc hu, Option.some.injEq] at hr
        subst hr
        obtain ⟨name, score, hname, hscore, hlog⟩ := looked_user hc hu hc' he'
        refine ⟨name, score, hname, hscore, hlog.imp ?_ ?_⟩
        · rintro ⟨ans, hne, hfound, hget⟩
          exact ⟨ans, hne, by simp [hfound], by simp [hget]⟩
        · rintro ⟨hunknown, hrest⟩
          exact ⟨by simp [hunknown], hrest⟩
      · have hready : ∀ m c, s.server.clients m = some c → c.state = .readyPlay → c.expecting ≠ .user := by
          intro m c hc hst he
          rcases (hsession m c hc).login (.inl he) with hlog | hlog
          · rw [hst] at hlog
            cases hlog
          · rw [hst] at hlog
            cases hlog
        obtain ⟨c₀, hc₀, he₀, hname, hscore, hp⟩ := before_resolved hc hres hready hc' he' fun hmn hu => hm ⟨hmn, hu⟩
        by_cases hmn : m = n
        · subst hmn
          simp only [Function.update_self]
          exact (h m c₀ hc₀ he₀).keep hname hscore hp _
        · simp only [Function.update_of_ne hmn]
          simpa using (h m c₀ hc₀ he₀).keep hname hscore hp []

end Looked

/-! ## What the lobbies were answered -/

section Runs
variable {κ D M : Type} {sq : Db.Sqlite D} {rows : D → Db.Accounts} {cd : Codec M}

/-- The lobbies have been told what the store has answered, each what its own
calls have returned, and before what they returned since. -/
structure Registered (sq : Db.Sqlite D) (rows : D → Db.Accounts) (A : Db.Accounts) (s : System κ D) : Prop where
  faithful : Db.Faithful sq rows A s.db
  turn : Db.InTurn s.db
  session : ∀ k, SessionInv (s.lobby k)
  looked : ∀ k, LookedInv (s.lobby k)
  told : ∀ k, ∃ l₁ l₂, s.db.returned = l₁ ++ l₂ ∧
    (∀ n, ∀ e ∈ (s.lobby k).answers n, ∀ c, asked e = some c → c ∈ Db.history l₁) ∧ ∀ c ∈ s.got k, c ∈ Db.history l₂

theorem history_append (l l' : List Db.Answer) : Db.history (l ++ l') = Db.history l ++ Db.history l' := List.map_append

/-- What an answered call has brought about still holds of the accounts. -/
theorem Registered.lasting {A : Db.Accounts} {s : System κ D} (h : Registered sq rows A s) {P : Db.Accounts → Prop}
    (hkeep : ∀ B r, P B → P (Db.accounts.next B r)) {r : Db.Request} {v : Int} (hmem : (r, v) ∈ Db.history s.db.returned)
    (hfirst : ∀ B, Db.accounts.allows B r v → P (Db.accounts.next B r)) : P (rows s.db.db) := by
  obtain ⟨l, hl⟩ := h.turn.returned
  rw [h.faithful.table]
  apply h.faithful.served.lasting hkeep _ hfirst
  rw [← hl, history_append]
  exact List.mem_append_left _ hmem

/-- The password that was accepted is that of the account. -/
theorem Registered.password {A : Db.Accounts} {s : System κ D} (h : Registered sq rows A s) {k : κ} {n : Slot}
    {name password : Bytes} (hacc : AcceptedWith name password ((s.lobby k).answers n)) :
    ((rows s.db.db) (cstring name)).map Db.Account.password = some (cstring password) := by
  obtain ⟨l₁, l₂, hret, htold, -⟩ := h.told k
  have hmem : ∀ e ∈ (s.lobby k).answers n, ∀ c, asked e = some c → c ∈ Db.history s.db.returned := by
    intro e he c hc
    rw [hret, history_append]
    exact List.mem_append_left _ (htold n e he c hc)
  have hkeep : ∀ B r, (B (cstring name)).map Db.Account.password = some (cstring password) →
      ((Db.accounts.next B r) (cstring name)).map Db.Account.password = some (cstring password) :=
    fun B r hB => Db.password_kept r hB
  rcases hacc with ⟨ans, he, hne⟩ | he
  · apply h.lasting hkeep (hmem _ he _ rfl)
    intro B hB
    by_contra hno
    exact hne (hB.trans (if_neg hno))
  · apply h.lasting hkeep (hmem _ he _ rfl)
    intro B hB
    exact Db.created_account hB

/-- The answer about the password of a name that was found: it is right exactly
when the account has it. -/
theorem Registered.answer {A : Db.Accounts} {s : System κ D} (h : Registered sq rows A s) {k : κ} {n : Slot}
    {name password : Bytes} {found ans : Int} (hmem : .existUser name found ∈ (s.lobby k).answers n) (hfound : found ≠ 0)
    (hgot : (.validPassword (cstring name) (cstring password), ans) ∈ s.got k) :
    ans = if ((rows s.db.db) (cstring name)).map Db.Account.password = some (cstring password) then 1 else 0 := by
  obtain ⟨l₁, l₂, hret, htold, hsince⟩ := h.told k
  obtain ⟨l₃, hl⟩ := h.turn.returned
  have hserved := h.faithful.served
  rw [← hl, hret, history_append, history_append] at hserved
  have htable := h.faithful.table
  rw [← hl, hret, history_append, history_append] at htable
  rw [htable]
  -- The name was found in an earlier request, and the password was asked about since.
  exact Snuffin.Db.password_answer hserved (htold n _ hmem _ rfl) hfound (hsince _ hgot)

/-- The score that a client was given at its login is that of its name in the
accounts, which never changes. -/
theorem Registered.score {A : Db.Accounts} {s : System κ D} (h : Registered sq rows A s) {k : κ} {n : Slot} {c : Client}
    (hc : LookedUp c ((s.lobby k).answers n)) : ∃ name, c.name = some name ∧
      c.score = some (Db.scoreIn A (cstring name)) := by
  obtain ⟨name, score, hname, hscore, hlog⟩ := hc
  refine ⟨name, hname, hscore.trans (congrArg some ?_)⟩
  obtain ⟨l₁, l₂, hret, htold, -⟩ := h.told k
  obtain ⟨l₃, hl⟩ := h.turn.returned
  have hanswered : ∀ e ∈ (s.lobby k).answers n, ∀ r v, asked e = some (r, v) →
      ∃ B, Db.scoreIn B (cstring name) = Db.scoreIn A (cstring name) ∧ Db.accounts.allows B r v := by
    intro e he r v hr
    apply h.faithful.served.answered (P := fun B => Db.scoreIn B (cstring name) = Db.scoreIn A (cstring name))
      (fun B r hB => (Db.score_kept B r _).trans hB) rfl
    rw [← hl, hret, history_append, history_append, List.append_assoc]
    exact List.mem_append_left _ (htold n e he _ hr)
  rcases hlog with ⟨ans, -, -, hget⟩ | ⟨hunknown, rfl, -⟩
  · obtain ⟨B, hB, hallows⟩ := hanswered _ hget _ _ rfl
    exact Eq.trans hallows hB
  · obtain ⟨B, hB, hallows⟩ := hanswered _ hunknown _ _ rfl
    -- The name had no account where the answer was 0.
    have hnone : B (cstring name) = none := by
      by_contra hsome
      rw [← ne_eq, Option.ne_none_iff_isSome] at hsome
      simp only [Db.accounts, if_pos hsome] at hallows
      cases hallows
    rw [← hB, Db.scoreIn, hnone]
    rfl

theorem registered_start (d : D) : Registered sq rows (rows d) (System.start d : System κ D) := by
  refine ⟨Db.faithful_start d, Db.inTurn_start d, fun k n c hc => ?_, fun k n c hc => ?_, fun k => ?_⟩
  · cases hc
  · cases hc
  · refine ⟨[], [], rfl, fun n e he => ?_, fun c hc => ?_⟩
    · cases he
    · cases hc

variable [DecidableEq κ]

/-- What a step of the database process or of its callers returns is added at
the end. -/
theorem returned_step {s s' : Db.World κ D} {a : Db.Act κ} (hs : Db.step sq s a = some s') :
    s.returned <+: s'.returned := by
  cases a with
  | call k r =>
    obtain ⟨-, page, -, rfl⟩ := Db.call_cases hs
    exact List.prefix_rfl
  | test k =>
    obtain ⟨id, r, -, ⟨-, v, -, rfl⟩ | ⟨-, rfl⟩⟩ := Db.test_cases hs
    · exact List.prefix_append ..
    · exact List.prefix_rfl
  | manage junk woken =>
    obtain ⟨-, ⟨-, rfl⟩ | ⟨-, -, ⟨-, rfl⟩ | ⟨r, v, db, -, -, -, rfl⟩⟩⟩ := Db.manage_cases hs
    · exact List.prefix_rfl
    · exact List.prefix_rfl
    · exact List.prefix_rfl
  | spurious k =>
    obtain ⟨-, hs⟩ := Option.ite_none_right_eq_some.1 hs
    obtain rfl := Option.some.inj hs
    exact List.prefix_rfl
  | spuriousDb =>
    obtain ⟨-, hs⟩ := Option.ite_none_right_eq_some.1 hs
    obtain rfl := Option.some.inj hs
    exact List.prefix_rfl

/-- What a lobby has got is what it had, or what has just been returned. -/
theorem mem_gets {w w' : Db.World κ D} {a : Db.Act κ} {got : κ → List (Db.Request × Int)} {k : κ} {c : Db.Request × Int}
    (h : c ∈ gets w w' a got k) : c ∈ got k ∨ c ∈ Db.history (w'.returned.drop w.returned.length) := by
  cases a with
  | test j =>
    simp only [gets] at h
    by_cases hkj : k = j
    · subst hkj
      rw [Function.update_self] at h
      exact List.mem_append.1 h
    · rw [Function.update_of_ne hkj] at h
      exact .inl h
  | _ => exact .inl h

/-- The answers of a slot are those it had, or those of the request resolved. -/
theorem mem_answers {s t : Session} {a : SessionAct M} (hs : (sessionMachine cd).step s a t) {m : Slot} {e : Effect}
    (he : e ∈ t.answers m) : e ∈ s.answers m ∨ (∃ n db junk res d, a = .request n db junk res d) ∧ e ∈ t.server.out := by
  cases a with
  | accept n con =>
    simp only [sessionMachine] at hs
    subst hs
    by_cases hm : m = n
    · subst hm
      simp at he
    · simp only [Function.update_of_ne hm] at he
      exact .inl he
  | request n db junk res d =>
    obtain ⟨sv, -, rfl⟩ := hs
    by_cases hm : m = n
    · subst hm
      simp only [Function.update_self] at he
      exact (List.mem_append.1 he).imp_right fun he => ⟨⟨m, db, junk, res, d, rfl⟩, he⟩
    · simp only [Function.update_of_ne hm] at he
      exact .inl he
  | disconnect n =>
    obtain ⟨c, -, rfl⟩ := hs
    exact .inl he
  | playerLost n =>
    obtain ⟨sv, -, rfl⟩ := hs
    exact .inl he

/-- What holds of every lobby after a step of one. -/
theorem forall_update {P : κ → Session → Prop} {lobby : κ → Session} {k : κ} {t : Session} (h : ∀ j, P j (lobby j))
    (hk : P k t) : ∀ j, P j (Function.update lobby k t j) := by
  intro j
  by_cases hj : j = k
  · subst hj
    rwa [Function.update_self]
  · rw [Function.update_of_ne hj]
    exact h j

theorem registered_step (hf : Db.Follows sq rows) {A : Db.Accounts} (hA : Db.Scored A) {s s' : System κ D}
    {a : SystemAct κ M} (h : Registered sq rows A s) (hok : Serially s a) (hs : step sq cd s a = some s') :
    Registered sq rows A s' := by
  cases step_cases hs with
  | @db a w hw =>
    have hfaithful := Db.faithful_step hf hA h.faithful hok hw
    refine ⟨hfaithful, Db.inTurn_step h.turn h.faithful hfaithful hok hw, h.session, h.looked, fun k => ?_⟩
    obtain ⟨l₁, l₂, hret, htold, hgot⟩ := h.told k
    obtain ⟨new, hnew⟩ := returned_step hw
    refine ⟨l₁, l₂ ++ new, ?_, htold, fun c hc => ?_⟩
    · rw [← hnew, hret, List.append_assoc]
    · rw [history_append]
      rcases mem_gets hc with hc | hc
      · exact List.mem_append_left _ (hgot c hc)
      · rw [← hnew, List.drop_left] at hc
        exact List.mem_append_right _ hc
  | @request k n db junk res d t ht hout =>
    refine ⟨h.faithful, h.turn, forall_update h.session (session_step (h.session k) ht),
      forall_update h.looked (looked_step (h.session k) (h.looked k) ht), fun j => ?_⟩
    obtain ⟨l₁, l₂, hret, htold, hgot⟩ := h.told j
    by_cases hj : j = k
    · subst hj
      refine ⟨l₁ ++ l₂, [], by rw [hret, List.append_nil], fun m e he c hc => ?_, fun c hc => ?_⟩
      · rw [history_append]
        simp only [Function.update_self] at he
        rcases mem_answers ht he with he | ⟨-, he⟩
        · exact List.mem_append_left _ (htold m e he c hc)
        · exact List.mem_append_right _ (hgot c (hout ▸ List.mem_filterMap.2 ⟨e, he, hc⟩))
      · simp only [Function.update_self] at hc
        cases hc
    · simp only [Function.update_of_ne hj]
      exact ⟨l₁, l₂, hret, htold, hgot⟩
  | @quiet k a t hquiet ht =>
    refine ⟨h.faithful, h.turn, forall_update h.session (session_step (h.session k) ht),
      forall_update h.looked (looked_step (h.session k) (h.looked k) ht), fun j => ?_⟩
    obtain ⟨l₁, l₂, hret, htold, hgot⟩ := h.told j
    refine ⟨l₁, l₂, hret, fun m e he => ?_, hgot⟩
    by_cases hj : j = k
    · subst hj
      simp only [Function.update_self] at he
      rcases mem_answers ht he with he | ⟨⟨n, db, junk, res, d, rfl⟩, -⟩
      · exact htold m e he
      · exact absurd rfl (hquiet n db junk res d)
    · simp only [Function.update_of_ne hj] at he
      exact htold m e he

theorem registered (hf : Db.Follows sq rows) {d : D} (hd : Db.Scored (rows d)) {s : System κ D}
    (h : (system sq cd d).ReachesBy Serially s) : Registered sq rows (rows d) s := by
  apply h.inv (I := Registered sq rows (rows d))
  · intro s hs
    rw [show s = System.start d from hs]
    exact registered_start d
  · intro _ _ _ hi hok hs
    exact registered_step hf hd hi hok hs

/-! ## What the accounts say of the players -/

/-- A database that does not know ana, and makes her an account. -/
def unknown : ChildServer.Db := ⟨fun _ => 0, fun _ => 0, fun _ _ => 0, fun _ _ => 0⟩

/-- A call of lobby `k`, handled and returned. -/
def calls (k : Bool) (r : Db.Request) : List (SystemAct Bool Bytes) :=
  [.db (.call k r), .db (.manage 0 [k]), .db (.test k)]

/-- Ana is registered in one lobby. -/
def anaJoins (k : Bool) : List (SystemAct Bool Bytes) :=
  .lobby k (.accept 0 0) :: calls k (.existUser Db.ana) ++ .lobby k (.request 0 unknown [] true [97]) ::
    calls k (.createUser Db.ana Db.eva) ++ [.lobby k (.request 0 unknown [] true [101])]

/-- She logs in at a lobby with the password. -/
def anaReturns (k : Bool) : List (SystemAct Bool Bytes) :=
  .lobby k (.accept 0 0) :: calls k (.existUser Db.ana) ++ calls k (.getHighScore Db.ana) ++
    .lobby k (.request 0 trusting [] true [97]) :: calls k (.validPassword Db.ana Db.eva) ++
      [.lobby k (.request 0 trusting [] true [101])]

/-- Two clients that were let in under one name, in one lobby or in two and at
different times, gave the same password: the one that the account has. -/
theorem same_name_same_password (hf : Db.Follows sq rows) {d : D} (hd : Db.Scored (rows d)) {s : System κ D}
    (h : (system sq cd d).ReachesBy Serially s) {k k' : κ} {n n' : Slot} {c c' : Client}
    (hc : (s.lobby k).server.clients n = some c) (hc' : (s.lobby k').server.clients n' = some c')
    (hin : c.expecting = .readyToPlay ∨ c.expecting = .movement)
    (hin' : c'.expecting = .readyToPlay ∨ c'.expecting = .movement) (hname : c.name = c'.name) :
    ∃ name account, c.name = some name ∧ rows s.db.db (cstring name) = some account ∧
      (∃ p, AcceptedWith name p ((s.lobby k).answers n)) ∧ (∃ p, AcceptedWith name p ((s.lobby k').answers n')) ∧
      ∀ p, AcceptedWith name p ((s.lobby k).answers n) ∨ AcceptedWith name p ((s.lobby k').answers n') →
        cstring p = account.password := by
  have hr := registered hf hd h
  obtain ⟨name, hsome, hacc⟩ := (hr.session k n c hc).past hin
  obtain ⟨name', hsome', hacc'⟩ := (hr.session k' n' c' hc').past hin'
  obtain rfl : name = name' := Option.some.inj (hsome.symm.trans (hname.trans hsome'))
  obtain ⟨p, hp⟩ := acceptedWith_of_accepted hacc
  obtain ⟨account, haccount, -⟩ := Option.map_eq_some_iff.1 (hr.password hp)
  refine ⟨name, account, hsome, haccount, ⟨p, hp⟩, acceptedWith_of_accepted hacc', fun q hq => ?_⟩
  have hpassword : ((rows s.db.db) (cstring name)).map Db.Account.password = some (cstring q) := by
    rcases hq with hq | hq
    · exact hr.password hq
    · exact hr.password hq
  rw [haccount] at hpassword
  exact (Option.some.inj hpassword).symm

set_option maxRecDepth 8000 in
theorem same_name_same_password_ana : ∃ s : System Bool Db.Accounts,
    (system Db.table textCodec fun _ => none).ReachesBy Serially s ∧
    ∃ name account, s.db.db (cstring name) = some account ∧ (∃ p, AcceptedWith name p ((s.lobby false).answers 0)) ∧
      (∃ p, AcceptedWith name p ((s.lobby true).answers 0)) := by
  obtain ⟨s, hs, c, c', hc, hc', hin, hin', hname⟩ : ∃ s : System Bool Db.Accounts,
      (system Db.table textCodec fun _ => none).ReachesBy Serially s ∧ ∃ c c',
        (s.lobby false).server.clients 0 = some c ∧ (s.lobby true).server.clients 0 = some c' ∧
          c.expecting = .readyToPlay ∧ c'.expecting = .readyToPlay ∧ c.name = c'.name :=
    ⟨_, Machine.reachesBy_of_runActs (l := anaJoins false ++ anaReturns true) (.init rfl) rfl, _, _, rfl, rfl, rfl, rfl, rfl⟩
  obtain ⟨name, account, -, hacc, h₁, h₂, -⟩ := same_name_same_password Db.follows_table (fun _ _ ha => by cases ha) hs
    hc hc' (.inl hin) (.inl hin') hname
  exact ⟨s, hs, name, account, hacc, h₁, h₂⟩

/-- A client whose name was found is let in by a message exactly when the
password in it is the one that the account has. -/
theorem let_in_iff (hf : Db.Follows sq rows) {d : D} (hd : Db.Scored (rows d)) {s s' : System κ D}
    (h : (system sq cd d).ReachesBy Serially s) {k : κ} {n : Slot} {db : ChildServer.Db} {junk : Bytes} {m : M}
    (hs : step sq cd s (.lobby k (.request n db junk true m)) = some s') {c : Client}
    (hc : (s.lobby k).server.clients n = some c) (he : c.expecting = .password) :
    ∃ name, c.name = some name ∧
      ((∃ c', (s'.lobby k).server.clients n = some c' ∧ c'.expecting = .readyToPlay) ↔
        ((rows s'.db.db) (cstring name)).map Db.Account.password = some (cstring ((cd.unmarshString m).getD junk))) := by
  have hr := registered hf hd h
  obtain ⟨name, score, hname, -, ⟨found, hfound, hmem, -⟩ | ⟨-, -, hno⟩⟩ := hr.looked k n c hc (by rw [he]; decide)
  case inr => exact absurd he hno
  refine ⟨name, hname, ?_⟩
  cases step_cases hs with
  | quiet hquiet => exact absurd rfl (hquiet n db junk true m)
  | request ht hout =>
    obtain ⟨sv, hsv, rfl⟩ := ht
    simp only [Function.update_self]
    have hc₀ : ({ (s.lobby k).server with out := [] } : Server).clients n = some c := hc
    have hanswer : ∀ ans, .validPassword c.name ((cd.unmarshString m).getD junk) ans ∈ sv.out →
        ans = if ((rows s.db.db) (cstring name)).map Db.Account.password = some (cstring ((cd.unmarshString m).getD junk))
          then 1 else 0 := by
      intro ans hans
      apply hr.answer hmem hfound
      rw [← hout]
      exact List.mem_filterMap.2 ⟨_, hans, by rw [hname]; rfl⟩
    by_cases ha : db.validPassword c.name ((cd.unmarshString m).getD junk) ≠ 0
    · rw [resolve_accepted hc₀ he rfl ha, Option.some.injEq] at hsv
      subst hsv
      refine iff_of_true ⟨c.toLobby, by simp [notifyNewPlayer, notifyExistingPlayers], rfl⟩ ?_
      by_contra hno
      exact ha ((hanswer _ (by simp [notifyNewPlayer, notifyExistingPlayers])).trans (if_neg hno))
    · rw [resolve_refused hc₀ he rfl ha, Option.some.injEq] at hsv
      subst hsv
      refine iff_of_false ?_ fun hyes => ?_
      · rintro ⟨c', hc', he'⟩
        obtain rfl := Option.some.inj (hc.symm.trans hc')
        rw [he] at he'
        cases he'
      · have hone := (hanswer (db.validPassword c.name ((cd.unmarshString m).getD junk)) (by simp)).trans (if_pos hyes)
        rw [not_not.1 ha] at hone
        cases hone

set_option maxRecDepth 8000 in
theorem let_in_iff_ana : ∃ s s' : System Bool Db.Accounts,
    (system Db.table textCodec fun _ => none).ReachesBy Serially s ∧
    step Db.table textCodec s (.lobby true (.request 0 trusting [] true [101])) = some s' ∧
    ∃ c', (s'.lobby true).server.clients 0 = some c' ∧ c'.expecting = .readyToPlay := by
  obtain ⟨s, hs, s', hstep, c, hc, he, hname, hrow⟩ : ∃ s : System Bool Db.Accounts,
      (system Db.table textCodec fun _ => none).ReachesBy Serially s ∧ ∃ s',
        step Db.table textCodec s (.lobby true (.request 0 trusting [] true [101])) = some s' ∧ ∃ c,
          (s.lobby true).server.clients 0 = some c ∧ c.expecting = .password ∧ c.name = some [97] ∧
            (s'.db.db Db.ana).map Db.Account.password = some (cstring [101]) :=
    ⟨_, Machine.reachesBy_of_runActs (l := anaJoins false ++ (anaReturns true).dropLast) (.init rfl) rfl, _, rfl, _, rfl,
      rfl, rfl, rfl⟩
  obtain ⟨name, hname', hiff⟩ := let_in_iff Db.follows_table (fun _ _ ha => by cases ha) hs hstep hc he
  obtain rfl := Option.some.inj (hname.symm.trans hname')
  exact ⟨s, s', hs, hstep, hiff.2 hrow⟩

/-- Every client that has given its name has the score that the accounts have
for that name, the one they had at first: whatever scores are set at the end
of the games, in whichever lobby, nobody ever has another. -/
theorem scores_never_change (hf : Db.Follows sq rows) {d : D} (hd : Db.Scored (rows d)) {s : System κ D}
    (h : (system sq cd d).ReachesBy Serially s) {k : κ} {n : Slot} {c : Client}
    (hc : (s.lobby k).server.clients n = some c) (he : c.expecting ≠ .user) :
    ∃ name, c.name = some name ∧ c.score = some (Db.scoreIn (rows s.db.db) (cstring name)) ∧
      Db.scoreIn (rows s.db.db) (cstring name) = Db.scoreIn (rows d) (cstring name) := by
  have hr := registered hf hd h
  obtain ⟨name, hname, hscore⟩ := hr.score (hr.looked k n c hc he)
  have hnow : Db.scoreIn (rows s.db.db) (cstring name) = Db.scoreIn (rows d) (cstring name) := by
    rw [hr.faithful.table]
    exact SeqSpec.after_inv (P := fun B => Db.scoreIn B (cstring name) = Db.scoreIn (rows d) (cstring name))
      (fun B r hB => (Db.score_kept B r _).trans hB) rfl
  exact ⟨name, hname, hnow ▸ hscore, hnow⟩

set_option maxRecDepth 8000 in
/-- Ana is registered in one lobby, which sets her score to 10, and logs in at
another. -/
theorem scores_never_change_ana : ∃ s : System Bool Db.Accounts,
    (system Db.table textCodec fun _ => none).ReachesBy Serially s ∧
    (∃ a, s.db.returned[2]? = some a ∧ a.request = .setHighscore Db.ana 10) ∧
    ∃ c name, (s.lobby true).server.clients 0 = some c ∧ c.name = some name ∧
      Db.scoreIn s.db.db (cstring name) = Db.scoreIn (fun _ => none) (cstring name) := by
  obtain ⟨s, hs, hset, c, hc, he⟩ : ∃ s : System Bool Db.Accounts,
      (system Db.table textCodec fun _ => none).ReachesBy Serially s ∧
      (∃ a, s.db.returned[2]? = some a ∧ a.request = .setHighscore Db.ana 10) ∧
        ∃ c, (s.lobby true).server.clients 0 = some c ∧ c.expecting = .readyToPlay :=
    ⟨_, Machine.reachesBy_of_runActs (l := anaJoins false ++ calls false (.setHighscore Db.ana 10) ++ anaReturns true)
      (.init rfl) rfl, ⟨_, rfl, rfl⟩, _, rfl, rfl⟩
  obtain ⟨name, hname, -, hscore⟩ := scores_never_change Db.follows_table (fun _ _ ha => by cases ha) hs hc
    (by rw [he]; decide)
  exact ⟨s, hs, hset, c, name, hc, hname, hscore⟩

end Runs

end Snuffin.Registry
