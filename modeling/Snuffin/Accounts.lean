import Snuffin.Statements
import Snuffin.Wakeups
import Snuffin.Lib.SeqSpec
/-!
# The accounts behind the calls

What the database is for: it keeps a password and a score for each name. When
SQLite takes the statements for what they say, the calls are answered as this
store answers them one after the other, in the order in which they are made.
-/
open Lib

namespace Snuffin.Db

/-! ## The store -/

structure Account where
  password : CString
  score : Int32

/-- The accounts by name. -/
abbrev Accounts := CString → Option Account

/-- A new account has score 0, and a name is given once only. Nothing changes
an account, not even setHighscore, whose answer says nothing. -/
def accounts : SeqSpec Accounts Request Int where
  allows A
    | .existUser user, v => v = if (A user).isSome then 1 else 0
    | .validPassword user password, v => v = if (A user).map Account.password = some password then 1 else 0
    | .getHighScore user, v => v = ((A user).elim 0 Account.score).toInt
    | .setHighscore _ _, _ => True
    | .createUser user _, v => v = if (A user).isSome then 1 else 0
  next A
    | .createUser user password => if (A user).isSome then A else Function.update A user (some ⟨password, 0⟩)
    | _ => A

/-- SQLite reads and writes a table of accounts, `rows d`, as the tokens of a
statement say: it counts the rows of a name, gives the second and the third
column of the row, and inserts a row unless there is one of that name. -/
structure Follows {D : Type} (sq : Sqlite D) (rows : D → Accounts) : Prop where
  count : ∀ d sql user, lex quote none sql = some (shape (.existUser user)) →
    sq.columnInt d sql 0 = if (rows d user).isSome then 1 else 0
  password : ∀ d sql user, lex quote none sql = some (shape (.getHighScore user)) →
    sq.columnText d sql 1 = (rows d user).map fun a => a.password.val
  score : ∀ d sql user, lex quote none sql = some (shape (.getHighScore user)) →
    sq.columnInt d sql 2 = (rows d user).elim 0 Account.score
  insert : ∀ d sql user password, lex quote none sql = some (shape (.createUser user password)) →
    ((sq.exec d sql).1 = 0 ↔ rows d user = none) ∧
      rows (sq.exec d sql).2 = accounts.next (rows d) (.createUser user password)

/-! ## A table -/

/-- The literals of a statement that are strings. -/
def literals (ts : List (Token UInt8)) : List CString := ts.filterMap fun
  | .literal l => if h : (0 : UInt8) ∉ l then some ⟨l, h⟩ else none
  | .plain _ => none

/-- Which statement a text is. -/
def meant (sql : Bytes) : Option Request :=
  (lex quote none sql).bind fun ts =>
    match literals ts with
    | [user] =>
      if ts = shape (.existUser user) then some (.existUser user)
      else if ts = shape (.getHighScore user) then some (.getHighScore user)
      else none
    | [user, password] => if ts = shape (.createUser user password) then some (.createUser user password) else none
    | _ => none

/-- SQLite on a table of accounts; 19 is its code for a name that is there. -/
def table : Sqlite Accounts where
  columnInt A sql n :=
    match meant sql with
    | some (.existUser user) => if n = 0 ∧ (A user).isSome then 1 else 0
    | some (.getHighScore user) => if n = 2 then (A user).elim 0 Account.score else 0
    | _ => 0
  columnText A sql n :=
    match meant sql with
    | some (.getHighScore user) => if n = 1 then (A user).map fun a => a.password.val else none
    | _ => none
  exec A sql :=
    match meant sql with
    | some (.createUser user password) =>
      (if (A user).isSome then 19 else 0, accounts.next A (.createUser user password))
    | _ => (1, A)

theorem literals_words (s : String) (ts : List (Token UInt8)) : literals (words s ++ ts) = literals ts := by
  have hnone : literals (words s) = [] := by
    unfold literals words
    rw [List.filterMap_map]
    exact List.filterMap_eq_nil_iff.2 fun _ _ => rfl
  unfold literals at hnone ⊢
  rw [List.filterMap_append, hnone, List.nil_append]

theorem literals_literal (user : CString) (ts : List (Token UInt8)) : literals (.literal user.val :: ts) = user :: literals ts := by
  simp [literals, user.property]

theorem meant_existUser {sql : Bytes} {user : CString} (h : lex quote none sql = some (shape (.existUser user))) :
    meant sql = some (.existUser user) := by
  have hl : literals (shape (.existUser user)) = [user] := by
    rw [shape, literals_words, literals_literal]
    rfl
  rw [meant, h, Option.bind_some, hl]
  exact if_pos rfl

theorem meant_getHighScore {sql : Bytes} {user : CString} (h : lex quote none sql = some (shape (.getHighScore user))) :
    meant sql = some (.getHighScore user) := by
  have hl : literals (shape (.getHighScore user)) = [user] := by
    rw [shape, literals_words, literals_literal]
    rfl
  have hne : shape (.getHighScore user) ≠ shape (.existUser user) := by
    intro he
    have h7 := congrArg (fun ts => ts[7]?) he
    cases h7
  rw [meant, h, Option.bind_some, hl]
  exact (if_neg hne).trans (if_pos rfl)

theorem meant_createUser {sql : Bytes} {user password : CString}
    (h : lex quote none sql = some (shape (.createUser user password))) : meant sql = some (.createUser user password) := by
  have hl : literals (shape (.createUser user password)) = [user, password] := by
    rw [shape, literals_words, literals_literal, literals_words, literals_literal]
    rfl
  rw [meant, h, Option.bind_some, hl]
  exact if_pos rfl

theorem follows_table : Follows table id where
  count A sql user h := by
    simp [table, meant_existUser h]
  password A sql user h := by
    simp [table, meant_getHighScore h]
  score A sql user h := by
    simp [table, meant_getHighScore h]
  insert A sql user password h := by
    have hm := meant_createUser h
    refine ⟨?_, by simp [table, hm]⟩
    cases hu : A user with
    | none => simp [table, hm, hu]
    | some a => simp [table, hm, hu]

/-! ## The operations -/

section Calls
variable {κ D : Type} {sq : Sqlite D} {rows : D → Accounts}

theorem map_password {o : Option Account} {password : CString} :
    (o.map fun a => a.password.val) = some password.val ↔ o.map Account.password = some password := by
  cases o with
  | none => simp
  | some a => simp [Subtype.ext_iff]

/-- An intended statement does what the store does. -/
theorem Follows.operate (hf : Follows sq rows) {r : Request} (hi : Intended r) {junk : Int8} {d d' : D} {v : Int}
    (h : operate sq junk d r = some (v, d')) : accounts.allows (rows d) r v ∧ rows d' = accounts.next (rows d) r := by
  obtain ⟨sql, ts, hsql, hlex, -, rfl⟩ := hi
  cases r with
  | existUser user =>
    rw [statement] at hsql
    simp only [Db.operate, isUser, hsql, Option.map_some, Option.some.injEq, Prod.mk.injEq] at h
    obtain ⟨rfl, rfl⟩ := h
    refine ⟨?_, rfl⟩
    rw [hf.count d sql user hlex]
    exact apply_ite Int32.toInt _ 1 0
  | validPassword user password =>
    rw [statement] at hsql
    simp only [Db.operate, isPassword, hsql, Option.map_some, Option.some.injEq, Prod.mk.injEq] at h
    obtain ⟨rfl, rfl⟩ := h
    refine ⟨?_, rfl⟩
    rw [hf.password d sql user hlex]
    exact if_congr map_password rfl rfl
  | getHighScore user =>
    rw [statement] at hsql
    simp only [Db.operate, getHighscore, hsql, Option.map_some, Option.some.injEq, Prod.mk.injEq] at h
    obtain ⟨rfl, rfl⟩ := h
    refine ⟨?_, rfl⟩
    rw [hf.score d sql user hlex]
    rfl
  | setHighscore user value =>
    rw [statement] at hsql
    simp only [Db.operate, setHighscore, hsql, Option.map_some, Option.some.injEq, Prod.mk.injEq] at h
    obtain ⟨-, rfl⟩ := h
    exact ⟨trivial, rfl⟩
  | createUser user password =>
    rw [statement] at hsql
    simp only [Db.operate, createUser, hsql, Option.map_some, Option.some.injEq, Prod.mk.injEq] at h
    obtain ⟨rfl, rfl⟩ := h
    obtain ⟨hcode, hrows⟩ := hf.insert d sql user password hlex
    refine ⟨if_congr ?_ rfl rfl, hrows⟩
    rw [ne_eq, hcode, ← ne_eq, Option.ne_none_iff_isSome]

/-! ## The calls -/

/-- A call is made while nobody else is in one, with arguments that fit, and
its statement says what is meant. -/
def Serial (s : World κ D) : Act κ → Prop
  | .call _ r => (∀ k, s.caller k = .idle) ∧ Fits r ∧ Intended r
  | _ => True

/-- No score is negative. -/
def Scored (A : Accounts) : Prop := ∀ user a, A user = some a → 0 ≤ a.score.toInt

theorem Scored.next {A : Accounts} (h : Scored A) (r : Request) : Scored (accounts.next A r) := by
  cases r with
  | createUser user password =>
    simp only [accounts]
    split
    · exact h
    · intro name a ha
      rw [Function.update_apply] at ha
      split at ha
      · obtain rfl := Option.some.inj ha
        exact Int.le_refl 0
      · exact h name a ha
  | _ => exact h

/-- The return slot holds what the store answers. -/
theorem Follows.stored (hf : Follows sq rows) {d : D} (h : Scored (rows d)) {r : Request} (hi : Intended r) : Stored sq d r := by
  obtain ⟨sql, ts, hsql, hlex, -, rfl⟩ := hi
  cases r with
  | existUser user =>
    obtain ⟨-, hsql⟩ := Option.ite_none_right_eq_some.1 hsql
    obtain rfl := Option.some.inj hsql
    rw [Stored, hf.count d _ user hlex]
    split <;> decide
  | getHighScore user =>
    obtain ⟨-, hsql⟩ := Option.ite_none_right_eq_some.1 hsql
    obtain rfl := Option.some.inj hsql
    rw [Stored, hf.score d _ user hlex]
    cases hu : rows d user with
    | none => exact Int.le_refl 0
    | some a => exact h user a hu
  | _ => trivial

/-- Requests with their answers. -/
def history (l : List Answer) : List (Request × Int) := l.map fun a => (a.request, a.value)

/-- What was executed is a history of the store, in the order of the calls, and
the database holds what the store holds. -/
structure Faithful (sq : Sqlite D) (rows : D → Accounts) (A : Accounts) (s : World κ D) : Prop where
  calls : CallInv sq s
  served : accounts.Serves A (history s.executed)
  table : rows s.db = accounts.after A (history s.executed)
  order : s.executed.map Answer.id = List.range s.executed.length
  made : ∀ a ∈ s.executed, s.made[a.id]? = some a.request
  free : s.page typePos = 0 → s.made.length = s.executed.length
  posted : s.page typePos ≠ 0 → s.owner = s.executed.length ∧ s.made.length = s.executed.length + 1 ∧
    ∃ r, fetch s.page = some r ∧ s.made[s.owner]? = some r ∧ Intended r

theorem Faithful.keep {A : Accounts} {s s' : World κ D} (h : Faithful sq rows A s) (hc : CallInv sq s') (hp : s'.page = s.page)
    (hd : s'.db = s.db) (hm : s'.made = s.made) (ho : s'.owner = s.owner) (he : s'.executed = s.executed) :
    Faithful sq rows A s' where
  calls := hc
  served := he ▸ h.served
  table := by rw [hd, he]; exact h.table
  order := by rw [he]; exact h.order
  made := by rw [he, hm]; exact h.made
  free := by rw [hp, hm, he]; exact h.free
  posted := by rw [hp, hm, ho, he]; exact h.posted

theorem faithful_start (d : D) : Faithful sq rows (rows d) (World.start d : World κ D) where
  calls := callInv_start d
  served := trivial
  table := rfl
  order := rfl
  made _ ha := absurd ha List.not_mem_nil
  free _ := rfl
  posted h := absurd rfl h

/-- The calls are executed in the order in which they are made. -/
theorem Faithful.id_at {A : Accounts} {s : World κ D} (h : Faithful sq rows A s) {i : Nat} {a : Answer}
    (ha : s.executed[i]? = some a) : a.id = i := by
  have hid : (s.executed.map Answer.id)[i]? = some a.id := by rw [List.getElem?_map, ha, Option.map_some]
  obtain ⟨hlt, -⟩ := List.getElem?_eq_some_iff.1 ha
  rw [h.order, List.getElem?_range hlt] at hid
  exact (Option.some.inj hid).symm

/-- What is returned was executed. -/
theorem Faithful.executed_at {A : Accounts} {s : World κ D} (h : Faithful sq rows A s) {a : Answer} (ha : a ∈ s.returned) :
    s.executed[a.id]? = some a := by
  obtain ⟨i, hget⟩ := List.getElem?_of_mem (h.calls.own a ha).executed
  rw [h.id_at hget]
  exact hget

/-- The calls return in the order in which they are executed, and the one that
waits is the last that was made. -/
structure InTurn (s : World κ D) : Prop where
  returned : s.returned <+: s.executed
  idle : (∀ k, s.caller k = .idle) → s.returned.length = s.made.length
  waiting : ∀ k id r, s.caller k = .waiting id r → s.returned.length = id ∧ id + 1 = s.made.length

theorem InTurn.keep {s s' : World κ D} (h : InTurn s) (he : s.executed <+: s'.executed) (hr : s'.returned = s.returned)
    (hm : s'.made = s.made) (hc : s'.caller = s.caller) : InTurn s' where
  returned := by rw [hr]; exact h.returned.trans he
  idle := by rw [hr, hm, hc]; exact h.idle
  waiting := by rw [hr, hm, hc]; exact h.waiting

theorem inTurn_start (d : D) : InTurn (World.start d : World κ D) where
  returned := List.prefix_rfl
  idle _ := rfl
  waiting _ _ _ hk := by cases hk

variable [DecidableEq κ]

theorem faithful_call {A : Accounts} {s s' : World κ D} (h : Faithful sq rows A s) (hc : CallInv sq s') {k : κ} {r : Request}
    (hok : Serial s (.call k r)) (hs : step sq s (.call k r) = some s') : Faithful sq rows A s' := by
  obtain ⟨hidle, hfits, hi⟩ := hok
  obtain ⟨h0, -⟩ := h.calls.phase.idle hidle
  have hfree := h.free h0
  obtain ⟨page, hpost, hfetch, hne⟩ := fetch_post hfits s.page
  obtain ⟨-, page', hpost', rfl⟩ := call_cases hs
  obtain rfl := Option.some.inj (hpost.symm.trans hpost')
  refine ⟨hc, h.served, h.table, h.order, fun a ha => ?_, fun hz => absurd hz hne, fun _ => ⟨hfree, ?_, r, hfetch, ?_, hi⟩⟩
  · have hold := h.made a ha
    obtain ⟨hlt, -⟩ := List.getElem?_eq_some_iff.1 hold
    dsimp only
    rw [List.getElem?_append_left hlt, hold]
  · dsimp only
    rw [List.length_append, List.length_singleton, hfree]
  · simp

/-- The command that is executed is answered as the store answers it. -/
theorem faithful_manage (hf : Follows sq rows) {A : Accounts} {s s' : World κ D} (h : Faithful sq rows A s)
    (hc : CallInv sq s') {junk : Int8} {woken : List κ} (hs : step sq s (.manage junk woken) = some s') :
    Faithful sq rows A s' := by
  obtain ⟨-, ⟨-, rfl⟩ | ⟨h0, -, hs⟩⟩ := manage_cases hs
  · exact h.keep hc rfl rfl rfl rfl rfl
  obtain ⟨howner, hmade, r, hfetch, hr, hi⟩ := h.posted h0
  obtain ⟨hbad, -⟩ | ⟨q, v, db, -, hq, hop, rfl⟩ := hs
  · rw [isCommand_of_fetch hfetch] at hbad
    cases hbad
  obtain rfl := Option.some.inj (hfetch.symm.trans hq)
  obtain ⟨hallows, hnext⟩ := hf.operate hi hop
  rw [h.table] at hallows hnext
  have hhist : history (s.executed ++ [⟨s.owner, r, v⟩]) = history s.executed ++ [(r, v)] := List.map_append
  have hready := reply_ready r v s.page
  refine ⟨hc, ?_, ?_, ?_, fun a ha => ?_, fun _ => ?_, fun hne => absurd hready hne⟩
  · dsimp only
    rw [hhist]
    exact h.served.snoc hallows
  · dsimp only
    rw [hhist, SeqSpec.after_append]
    exact hnext
  · dsimp only
    rw [List.map_append, h.order, List.map_singleton, howner, List.length_append, List.length_singleton, List.range_succ]
  · rcases List.mem_append.1 ha with ha | ha
    · exact h.made a ha
    · rw [List.mem_singleton.1 ha]
      exact hr
  · dsimp only
    rw [List.length_append, List.length_singleton, hmade]

theorem faithful_step (hf : Follows sq rows) {A : Accounts} (hA : Scored A) {s s' : World κ D} {a : Act κ}
    (h : Faithful sq rows A s) (hok : Serial s a) (hs : step sq s a = some s') : Faithful sq rows A s' := by
  have hscored : Scored (rows s.db) := by
    rw [h.table]
    exact SeqSpec.after_inv (fun _ r hB => hB.next r) hA
  have halone : Alone sq s a := by
    cases a with
    | call k r => exact ⟨hok.1, hok.2.1, hf.stored hscored hok.2.2⟩
    | _ => trivial
  have hc := callInv_step h.calls halone hs
  cases a with
  | call k r => exact faithful_call h hc hok hs
  | manage junk woken => exact faithful_manage hf h hc hs
  | test k =>
    obtain ⟨id, r, -, ⟨-, v, -, rfl⟩ | ⟨-, rfl⟩⟩ := test_cases hs
    · exact h.keep hc rfl rfl rfl rfl rfl
    · exact h.keep hc rfl rfl rfl rfl rfl
  | spurious k =>
    obtain ⟨-, hs⟩ := Option.ite_none_right_eq_some.1 hs
    obtain rfl := Option.some.inj hs
    exact h.keep hc rfl rfl rfl rfl rfl
  | spuriousDb =>
    obtain ⟨-, hs⟩ := Option.ite_none_right_eq_some.1 hs
    obtain rfl := Option.some.inj hs
    exact h.keep hc rfl rfl rfl rfl rfl

theorem faithful (hf : Follows sq rows) {d : D} (hd : Scored (rows d)) {s : World κ D}
    (h : (calls sq d).ReachesBy Serial s) : Faithful sq rows (rows d) s := by
  apply h.inv (I := Faithful sq rows (rows d))
  · intro s hs
    rw [show s = World.start d from hs]
    exact faithful_start d
  · intro _ _ _ hi hok hs
    exact faithful_step hf hd hi hok hs

theorem inTurn_call {s s' : World κ D} (h : InTurn s) {k : κ} {r : Request} (hok : Serial s (.call k r))
    (hs : step sq s (.call k r) = some s') : InTurn s' := by
  obtain ⟨-, page, -, rfl⟩ := call_cases hs
  have hlen := h.idle hok.1
  refine ⟨h.returned, fun hidle => ?_, fun j id q hj => ?_⟩
  · have hk := hidle k
    simp only [Function.update_self] at hk
    cases hk
  · dsimp only at hj ⊢
    by_cases hjk : j = k
    · subst hjk
      rw [Function.update_self] at hj
      cases hj
      exact ⟨hlen, by rw [List.length_append, List.length_singleton]⟩
    · rw [Function.update_of_ne hjk, hok.1 j] at hj
      cases hj

/-- The answer that is returned was executed next after those returned before. -/
theorem inTurn_return {s : World κ D} (h : InTurn s) {k : κ} {id : Nat} {r : Request} {v : Int}
    (hk : s.caller k = .waiting id r) (hother : ∀ j, j ≠ k → s.caller j = .idle) (he : s.executed[id]? = some ⟨id, r, v⟩) :
    InTurn { s with caller := Function.update s.caller k .idle, returned := s.returned ++ [⟨id, r, v⟩] } := by
  obtain ⟨hlen, hlast⟩ := h.waiting k id r hk
  refine ⟨?_, fun _ => ?_, fun j i q hj => ?_⟩
  · obtain ⟨t, ht⟩ := h.returned
    rw [← ht, List.getElem?_append_right hlen.le, hlen, Nat.sub_self] at he
    cases t with
    | nil => cases he
    | cons a t =>
      obtain rfl := Option.some.inj he
      exact ⟨t, (List.append_assoc ..).trans ht⟩
  · dsimp only
    rw [List.length_append, List.length_singleton, hlen, hlast]
  · dsimp only at hj
    by_cases hjk : j = k
    · subst hjk
      rw [Function.update_self] at hj
      cases hj
    · rw [Function.update_of_ne hjk, hother j hjk] at hj
      cases hj

theorem inTurn_step {A : Accounts} {s s' : World κ D} {a : Act κ} (h : InTurn s) (hall : Faithful sq rows A s)
    (hall' : Faithful sq rows A s') (hok : Serial s a) (hs : step sq s a = some s') : InTurn s' := by
  cases a with
  | call k r => exact inTurn_call h hok hs
  | manage junk woken =>
    obtain ⟨-, ⟨-, rfl⟩ | ⟨-, -, ⟨-, rfl⟩ | ⟨r, v, db, -, -, -, rfl⟩⟩⟩ := manage_cases hs
    · exact h.keep List.prefix_rfl rfl rfl rfl
    · exact h.keep List.prefix_rfl rfl rfl rfl
    · exact h.keep (List.prefix_append ..) rfl rfl rfl
  | test k =>
    obtain ⟨id, r, hk, ⟨-, v, -, rfl⟩ | ⟨-, rfl⟩⟩ := test_cases hs
    · have he := hall'.executed_at (List.mem_append_right _ (List.mem_singleton.2 rfl))
      refine inTurn_return h hk (fun j hj => ?_) he
      cases hall.calls.phase with
      | free _ hidle => exact hidle j
      | posted i _ _ ho => exact ho.others j fun hji => hj (hji.trans (ho.same hk).1.symm)
      | done i _ _ _ ho => exact ho.others j fun hji => hj (hji.trans (ho.same hk).1.symm)
    · exact h.keep List.prefix_rfl rfl rfl rfl
  | spurious k =>
    obtain ⟨-, hs⟩ := Option.ite_none_right_eq_some.1 hs
    obtain rfl := Option.some.inj hs
    exact h.keep List.prefix_rfl rfl rfl rfl
  | spuriousDb =>
    obtain ⟨-, hs⟩ := Option.ite_none_right_eq_some.1 hs
    obtain rfl := Option.some.inj hs
    exact h.keep List.prefix_rfl rfl rfl rfl

end Calls

/-! ## What callers can rely on -/

instance : DecidablePred Intended := fun r =>
  match r with
  | .existUser user => decidable_of_iff' _ (@intended_of_text (.existUser user) 400 (isUserSql user.val) rfl)
  | .validPassword user password =>
    decidable_of_iff' _ (@intended_of_text (.validPassword user password) 400 (isPasswordSql user.val) rfl)
  | .getHighScore user => decidable_of_iff' _ (@intended_of_text (.getHighScore user) 400 (getHighscoreSql user.val) rfl)
  | .setHighscore user value =>
    decidable_of_iff' _ (@intended_of_text (.setHighscore user value) 400 (setHighscoreSql user.val value) rfl)
  | .createUser user password =>
    decidable_of_iff' _ (@intended_of_text (.createUser user password) 500 (createUserSql user.val password.val) rfl)

instance {κ D : Type} [Fintype κ] (s : World κ D) : ∀ a : Act κ, Decidable (Serial s a)
  | .call _ r => inferInstanceAs (Decidable ((∀ k, s.caller k = .idle) ∧ Fits r ∧ Intended r))
  | .test _ | .manage _ _ | .spurious _ | .spuriousDb => .isTrue trivial

/-- Ana is created by one caller and logs in at the other. -/
def created : List (Act Bool) :=
  [.call false (.createUser ana ⟨[120], by decide⟩), .manage 0 [false], .test false,
    .call true (.validPassword ana ⟨[120], by decide⟩), .manage 0 [true], .test true]

section Reliable
variable {κ D : Type} [DecidableEq κ] {sq : Sqlite D} {rows : D → Accounts}

/-- In every run of callers that come one at a time, the operations are those
of the calls in the order in which they were made, they are answered as the
store answers them one after the other, the database holds what the store
holds, and what a call returns is the answer to it. -/
theorem calls_serve_accounts (hf : Follows sq rows) {d : D} (hd : Scored (rows d)) {s : World κ D}
    (h : (calls sq d).ReachesBy Serial s) :
    accounts.Serves (rows d) (history s.executed) ∧ rows s.db = accounts.after (rows d) (history s.executed) ∧
      (∀ i (a : Answer), s.executed[i]? = some a → a.id = i ∧ s.made[i]? = some a.request) ∧
      ∀ a ∈ s.returned, s.executed[a.id]? = some a := by
  have hi := faithful hf hd h
  refine ⟨hi.served, hi.table, fun i a ha => ⟨hi.id_at ha, ?_⟩, fun a ha => hi.executed_at ha⟩
  rw [← hi.id_at ha]
  exact hi.made a (List.mem_of_getElem? ha)

theorem calls_serve_accounts_ana : ∃ s : World Bool Accounts, (calls table fun _ => none).ReachesBy Serial s ∧
    s.executed.map Answer.value = [0, 1] ∧ accounts.Serves (fun _ => none) (history s.executed) := by
  obtain ⟨s, hs, hv⟩ : ∃ s : World Bool Accounts, (calls table fun _ => none).ReachesBy Serial s ∧
      s.executed.map Answer.value = [0, 1] :=
    ⟨_, Machine.reachesBy_of_runActs (l := created) (.init rfl) rfl, rfl⟩
  exact ⟨s, hs, hv, (calls_serve_accounts follows_table (fun _ _ ha => by cases ha) hs).1⟩

/-- A password of `user` is kept. -/
theorem password_kept {user password : CString} {A : Accounts} (r : Request)
    (h : (A user).map Account.password = some password) : ((accounts.next A r) user).map Account.password = some password := by
  cases r with
  | createUser name p =>
    simp only [accounts]
    split
    · exact h
    · rename_i hname
      have hne : user ≠ name := by
        rintro rfl
        rw [Option.not_isSome_iff_eq_none.1 hname] at h
        cases h
      rw [Function.update_of_ne hne]
      exact h
  | _ => exact h

/-- The score that is shown for a name: 0 while it has no account. -/
def scoreIn (A : Accounts) (user : CString) : Int := ((A user).elim 0 Account.score).toInt

/-- No request changes a score: a new account starts with the 0 that was shown. -/
theorem score_kept (A : Accounts) (r : Request) (user : CString) : scoreIn (accounts.next A r) user = scoreIn A user := by
  cases r with
  | createUser name p =>
    simp only [accounts]
    split
    · rfl
    · rename_i hname
      by_cases hu : user = name
      · subst hu
        simp [scoreIn, Option.not_isSome_iff_eq_none.1 hname]
      · simp [scoreIn, hu]
  | _ => rfl

/-- A creation that succeeds found no user of that name, and leaves one. -/
theorem created_account {user password : CString} {A : Accounts} (h : accounts.allows A (.createUser user password) 0) :
    ((accounts.next A (.createUser user password)) user).map Account.password = some password := by
  have hnone : ¬(A user).isSome := by
    intro hsome
    simp only [accounts, if_pos hsome] at h
    cases h
  simp only [accounts, if_neg hnone, Function.update_self, Option.map_some]

/-- Once a name is found, a password for it is right exactly when it is the one
that the account has at any later time. -/
theorem password_answer {A : Accounts} {l₁ l₂ l₃ : List (Request × Int)} (h : accounts.Serves A (l₁ ++ l₂ ++ l₃))
    {user password : CString} {v w : Int} (hfound : (.existUser user, v) ∈ l₁) (hv : v ≠ 0)
    (hasked : (.validPassword user password, w) ∈ l₂) :
    w = if ((accounts.after A (l₁ ++ l₂ ++ l₃)) user).map Account.password = some password then 1 else 0 := by
  obtain ⟨u, u', rfl⟩ := List.append_of_mem hasked
  rw [List.append_assoc, SeqSpec.serves_append, List.append_assoc, SeqSpec.serves_append] at h
  obtain ⟨hfirst, -, hallows, -⟩ := h
  obtain ⟨q, hq⟩ : ∃ q, ((accounts.after A l₁) user).map Account.password = some q := by
    apply hfirst.lasting (P := fun B => ∃ q, (B user).map Account.password = some q) _ hfound
    · intro B hB
      have hsome : (B user).isSome := by
        by_contra hno
        exact hv (hB.trans (if_neg hno))
      obtain ⟨a, ha⟩ := Option.isSome_iff_exists.1 hsome
      exact ⟨a.password, congrArg (Option.map Account.password) ha⟩
    · rintro B r ⟨q, hq⟩
      exact ⟨q, password_kept r hq⟩
  have hkept : ∀ l : List (Request × Int), ((accounts.after (accounts.after A l₁) l) user).map Account.password = some q := by
    intro l
    exact SeqSpec.after_inv (P := fun B : Accounts => (B user).map Account.password = some q)
      (fun _ r hB => password_kept r hB) hq
  have hw : w = if ((accounts.after (accounts.after A l₁) u) user).map Account.password = some password then 1 else 0 := hallows
  rw [hw, hkept u, List.append_assoc, SeqSpec.after_append, hkept]

/-- Once a call has created a user, every later call of anybody finds the
user, takes the password that it was created with and no other, and cannot
create it again. -/
theorem accounts_last (hf : Follows sq rows) {d : D} (hd : Scored (rows d)) {s : World κ D}
    (h : (calls sq d).ReachesBy Serial s) {a b : Answer} (ha : a ∈ s.returned) (hb : b ∈ s.returned) (hab : a.id < b.id)
    {user password : CString} (hreq : a.request = .createUser user password) (hdone : a.value = 0) :
    (b.request = .existUser user → b.value = 1) ∧
      (∀ p, b.request = .validPassword user p → b.value = if p = password then 1 else 0) ∧
      ∀ p, b.request = .createUser user p → b.value = 1 := by
  have hi := faithful hf hd h
  have hat : ∀ c ∈ s.returned, (history s.executed)[c.id]? = some (c.request, c.value) := by
    intro c hc
    rw [history, List.getElem?_map, hi.executed_at hc, Option.map_some]
  have hfirst : ∀ A, accounts.allows A a.request a.value →
      ((accounts.next A a.request) user).map Account.password = some password := by
    rw [hreq, hdone]
    exact fun A hA => created_account hA
  obtain ⟨A, hA, hallows⟩ := hi.served.between (P := fun A => (A user).map Account.password = some password)
    (fun _ r hA => password_kept r hA) (hat a ha) (hat b hb) hab hfirst
  have hsome : (A user).isSome := by
    cases hu : A user with
    | none =>
      rw [hu] at hA
      cases hA
    | some x => rfl
  refine ⟨fun hb' => ?_, fun p hb' => ?_, fun p hb' => ?_⟩
  · rw [hb'] at hallows
    exact hallows.trans (if_pos hsome)
  · rw [hb'] at hallows
    refine hallows.trans (if_congr ?_ rfl rfl)
    rw [hA, Option.some.injEq, eq_comm]
  · rw [hb'] at hallows
    exact hallows.trans (if_pos hsome)

theorem accounts_last_ana : ∃ s : World Bool Accounts, (calls table fun _ => none).ReachesBy Serial s ∧
    ∃ b ∈ s.returned, b.request = .validPassword ana ⟨[120], by decide⟩ ∧ b.value = 1 := by
  obtain ⟨s, hs, a, b, hret, ha, hdone, hb, hab⟩ : ∃ s : World Bool Accounts, (calls table fun _ => none).ReachesBy Serial s ∧
      ∃ a b, s.returned = [a, b] ∧ a.request = .createUser ana ⟨[120], by decide⟩ ∧ a.value = 0 ∧
        b.request = .validPassword ana ⟨[120], by decide⟩ ∧ a.id < b.id :=
    ⟨_, Machine.reachesBy_of_runActs (l := created) (.init rfl) rfl, _, _, rfl, rfl, rfl, rfl, Nat.zero_lt_one⟩
  have hmem : a ∈ s.returned ∧ b ∈ s.returned := by simp [hret]
  have hlast := accounts_last follows_table (fun _ _ hx => by cases hx) hs hmem.1 hmem.2 hab ha hdone
  exact ⟨s, hs, b, hmem.2, hb, (hlast.2.1 _ hb).trans (if_pos rfl)⟩

end Reliable

end Snuffin.Db
