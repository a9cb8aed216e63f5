import Snuffin.Wakeups
/-!
# Scores in the database

A score goes through the page as decimal text, and back through `loadInt` and
`atoi`. What comes back is the stored score, or 0 for a negative one; but
`setHighscore` only prepares its statement, so that what is stored never
changes.
-/
open Lib

namespace Snuffin.Db

/-! ## One call with nobody else about -/

section Answered
variable {D : Type} (sq : Sqlite D)

/-- A call from its command to its return value, with the page and the database
after it. -/
def answered (junk : Int8) (r : Request) (m : Mem) (d : D) : Option (Int × Mem × D) :=
  (post r m).bind fun m =>
    (fetch m).bind fun q =>
      (operate sq junk d q).bind fun (v, d) => (returnValue r (reply q v m)).map fun w => (w, reply q v m, d)

/-- What the table holds for a player, in the column that `getHighscore` reads. -/
def scoreOf (d : D) (user : CString) : Int := (sq.columnInt d (getHighscoreSql user.val) 2).toInt

/-- After `setHighscoreDB(user, v)`, the next call `getHighScoreDB(user)` gives
`v`, and the other scores are as before. -/
def SetThenGet (junk : Int8) (user : CString) (v : Int) (m : Mem) (d : D) : Prop :=
  ∃ ret m₁ d₁ w m₂ d₂, answered sq junk (.setHighscore user v) m d = some (ret, m₁, d₁) ∧
    answered sq 0 (.getHighScore user) m₁ d₁ = some (w, m₂, d₂) ∧ w = v ∧
    ∀ other, other ≠ user → scoreOf sq d₁ other = scoreOf sq d other

/-- A game of a player, with what the page holds at its login and at its end. -/
structure Game where
  won : Bool
  login : Mem
  ending : Mem
  junk : Int8

def Game.result (g : Game) : Int := if g.won then 10 else -10

/-- The database after some games: each takes the score that is shown at the
login and sets what the game makes of it. The sum is not cut to an int; what
is set is not stored anyway. -/
def afterGames (user : CString) : List Game → D → Option D
  | [], d => some d
  | g :: gs, d =>
    (answered sq 0 (.getHighScore user) g.login d).bind fun (score, _, d) =>
      (answered sq g.junk (.setHighscore user (score + g.result)) g.ending d).bind fun (_, _, d) => afterGames user gs d

/-- The score that the login shows after some games is the one before them and
the results. -/
def ShowsSum (user : CString) (gs : List Game) (m : Mem) (d : D) : Prop :=
  ∃ d₁ w m₂ d₂, afterGames sq user gs d = some d₁ ∧ answered sq 0 (.getHighScore user) m d₁ = some (w, m₂, d₂) ∧
    w = scoreOf sq d user + (gs.map Game.result).sum

end Answered

/-! ## Calls that come back -/

section Steps
variable {κ D : Type} [DecidableEq κ] {sq : Sqlite D}

/-- What `answered` gives is what a caller gets when nobody else is about: it
posts its command, the database process handles it and wakes the caller, and
the caller returns. -/
theorem answered_steps {s : World κ D} {k : κ} {r : Request} {junk : Int8} {w : Int} {m : Mem} {d : D}
    (hidle : s.caller k = .idle) (hready : s.ready = []) (h : answered sq junk r s.page s.db = some (w, m, d)) :
    ∃ t u s', step sq s (.call k r) = some t ∧ step sq t (.manage junk [k]) = some u ∧ step sq u (.test k) = some s' ∧
      s'.page = m ∧ s'.db = d ∧ s'.ready = [] ∧ s'.returned = s.returned ++ [⟨s.made.length, r, w⟩] := by
  obtain ⟨m₁, hpost, h⟩ := Option.bind_eq_some_iff.1 h
  obtain ⟨q, hfetch, h⟩ := Option.bind_eq_some_iff.1 h
  obtain ⟨⟨v, d₁⟩, hop, h⟩ := Option.bind_eq_some_iff.1 h
  obtain ⟨w', hret, h⟩ := Option.map_eq_some_iff.1 h
  obtain ⟨rfl, rfl, rfl⟩ : w' = w ∧ reply q v m₁ = m ∧ d₁ = d := by simpa using h
  have hcom := isCommand_of_fetch hfetch
  have hne : m₁ typePos ≠ 0 := by
    intro h0
    rw [h0] at hcom
    cases hcom
  let t : World κ D :=
    { s with
      page := m₁
      cond := false
      ready := k :: s.ready
      caller := Function.update s.caller k (.waiting s.made.length r)
      made := s.made ++ [r]
      owner := s.made.length }
  let u : World κ D :=
    { t with
      page := reply q v m₁
      db := d₁
      ready := []
      executed := s.executed ++ [⟨s.made.length, q, v⟩] }
  let s' : World κ D :=
    { u with
      caller := Function.update u.caller k .idle
      returned := s.returned ++ [⟨s.made.length, r, w'⟩] }
  have hcall : step sq s (.call k r) = some t := by simp [step, hidle, hpost, t]
  have hmanage : step sq t (.manage junk [k]) = some u := by
    simp [step, u, t, hne, hcom, hfetch, hop, hready, Wakes]
  have htest : step sq u (.test k) = some s' := by
    simp [step, u, t, s', reply_ready, hret]
  exact ⟨t, u, s', hcall, hmanage, htest, rfl, rfl, rfl, rfl⟩

end Steps

section Spec
variable {D : Type} {sq : Sqlite D}

/-- A negative score is printed like 0. -/
theorem reply_negative (user : CString) (v : Int) (m : Mem) :
    reply (.getHighScore user) v m = reply (.getHighScore user) (max v 0) m := by
  have ht : (max v 0).toNat = v.toNat := by omega
  simp only [reply, loadInt_eq, ht]

variable (sq) in
/-- `getHighScoreDB` gives the stored score, or 0 for a negative one. -/
theorem answered_get (junk : Int8) {user : CString} (hf : Fits (.getHighScore user)) (m : Mem) (d : D) :
    ∃ m', answered sq junk (.getHighScore user) m d = some (max (scoreOf sq d user) 0, m', d) := by
  obtain ⟨m₁, hpost, hfetch, -⟩ := fetch_post hf m
  have hop : operate sq junk d (.getHighScore user) = some (scoreOf sq d user, d) := by
    rw [operate, getHighscore, sprintf_eq hf]
    rfl
  have hlt := Int32.toInt_lt (sq.columnInt d (getHighscoreSql user.val) 2)
  have hslot : InSlot (.getHighScore user) (max (scoreOf sq d user) 0) := by
    unfold InSlot scoreOf
    omega
  have hret := (returnValue_reply hslot m₁).1
  rw [← reply_negative] at hret
  refine ⟨reply (.getHighScore user) (scoreOf sq d user) m₁, ?_⟩
  simp only [answered, hpost, hfetch, hop, hret, Option.bind_some, Option.map_some]

/-- A name whose statement does not fit its buffer is not looked up. -/
theorem answered_get_unfit (junk : Int8) {user : CString} (hf : ¬Fits (.getHighScore user)) (m : Mem) (d : D) :
    answered sq junk (.getHighScore user) m d = none := by
  have hop : operate sq junk d (.getHighScore user) = none := by
    rw [operate, getHighscore, sprintf, if_neg (show ¬(getHighscoreSql user.val).length < 400 from hf)]
    rfl
  cases hpost : post (.getHighScore user) m with
  | none => rw [answered, hpost, Option.bind_none]
  | some m₁ =>
    rw [post, getHighScoreDB] at hpost
    obtain ⟨m₂, h₂, h₁⟩ := Option.bind_eq_some_iff.1 hpost
    have hle : firstArgument + (user.val ++ [0]).length ≤ mutexOffset := (Option.ite_none_right_eq_some.1 h₁).1
    have hlen : user.val.length ≤ 1022 := by
      have ho := offsets
      rw [List.length_append, List.length_singleton] at hle
      omega
    obtain ⟨m₃, h₃, ht, hstr, hb⟩ := getHighScoreDB_spec m hlen
    have hfetch : fetch m₃ = some (.getHighScore user) := by
      simp [fetch, ht, argAt_of_isStr hstr hb]
    rw [answered, post, h₃, Option.bind_some, hfetch, Option.bind_some, hop, Option.bind_none]

theorem decimal_length_le {v : Int} {k : Nat} (h : v.natAbs < 10 ^ k) (hk : 0 < k) : (decimal v).length ≤ k + 1 := by
  have hl := length_text_le h
  unfold decimal
  split
  · rw [List.length_singleton]
    omega
  · rw [List.length_append]
    split
    · rw [List.length_singleton]
      omega
    · rw [List.length_nil]
      omega

/-- A first argument that runs over the place of the second one goes on with
it. -/
theorem twoArguments_overrun (type : UInt8) {first second : Bytes} (m : Mem) (hl : 63 ≤ first.length)
    (h1 : first.length ≤ 1022) (h2 : second.length < 960) :
    ∃ m', twoArguments type first second m = some m' ∧ Holds m' type (first.take 63 ++ second) ∧
      IsStr m' secondArgument second ∧ secondArgument + second.length < mutexOffset := by
  have ho := offsets
  have htake : (first.take 63).length = 63 := List.length_take_of_le hl
  have hover : (first.take 63 ++ second).length = 63 + second.length := by rw [List.length_append, htake]
  refine ⟨_, twoArguments_eq type m h1 h2, ⟨store_arguments type _ _ m, fun i x hx => ?_, by omega⟩,
    isStr_store _ secondArgument second, by omega⟩
  rw [List.append_assoc] at hx
  by_cases hi : i < 63
  · rw [List.getElem?_append_left (by omega), List.getElem?_take_of_lt hi] at hx
    rw [store_outside _ _ _ (by omega)]
    exact store_at _ firstArgument _ (by rwa [List.getElem?_append_left (by omega)])
  · rw [List.getElem?_append_right (by omega), htake] at hx
    rw [show firstArgument + i = secondArgument + (i - 63) by omega]
    exact store_at _ secondArgument _ hx

/-- A name that is too long for its place is read back with the number at its
end. -/
theorem fetch_post_overrun {user : CString} (hl : 63 ≤ user.val.length) (hu : user.val.length ≤ 1022) {v : Int}
    (hv : (decimal v).length < 960) (m : Mem) :
    ∃ m' u, post (.setHighscore user v) m = some m' ∧ fetch m' = some (.setHighscore u v) ∧
      u.val = user.val.take 63 ++ decimal v := by
  have hnul : (0 : UInt8) ∉ user.val.take 63 ++ decimal v := by
    intro h
    rcases List.mem_append.1 h with h | h
    · exact user.property (List.mem_of_mem_take h)
    · exact decimal_nul v h
  obtain ⟨m', hpost, ⟨ht, hstr, hb⟩, hstr2, hb2⟩ := twoArguments_overrun 52 m hl hu hv
  have harg : argAt m' firstArgument = some ⟨user.val.take 63 ++ decimal v, hnul⟩ := argAt_of_isStr hstr hb
  have harg2 : argAt m' secondArgument = some ⟨decimal v, decimal_nul v⟩ := argAt_of_isStr hstr2 hb2
  refine ⟨m', ⟨_, hnul⟩, hpost, ?_, rfl⟩
  simp [fetch, ht, harg, harg2, atoi_decimal]

/-- A score is posted for a name that its statement has room for. -/
theorem fetch_post_score {user : CString} (hu : user.val.length ≤ 364) {v : Int} (hv : (decimal v).length ≤ 11) (m : Mem) :
    ∃ m' u, post (.setHighscore user v) m = some m' ∧ fetch m' = some (.setHighscore u v) ∧ u.val.length ≤ 74 := by
  by_cases hl : user.val.length < 63
  · have hfits : Fits (.setHighscore user v) := by
      simp only [Fits, length_setHighscoreSql]
      omega
    obtain ⟨m', hpost, hfetch, -⟩ := fetch_post hfits m
    exact ⟨m', user, hpost, hfetch, by omega⟩
  · have hlong : 63 ≤ user.val.length := by omega
    have hv' : (decimal v).length < 960 := by omega
    obtain ⟨m', u, hpost, hfetch, htext⟩ := fetch_post_overrun hlong (by omega) hv' m
    refine ⟨m', u, hpost, hfetch, ?_⟩
    rw [htext, List.length_append, List.length_take_of_le (by omega)]
    omega

variable (sq) in
/-- `setHighscoreDB` comes back and leaves the database as it was: with the
name of its caller, or with one that runs into the text of the number. -/
theorem answered_set (junk : Int8) {user : CString} (hu : user.val.length ≤ 364) {v : Int} (hv : (decimal v).length ≤ 11)
    (m : Mem) (d : D) : ∃ ret m', answered sq junk (.setHighscore user v) m d = some (ret, m', d) := by
  obtain ⟨m₁, u, hpost, hfetch, hlen⟩ := fetch_post_score hu hv m
  have hsql : (setHighscoreSql u.val v).length < 400 := by
    rw [length_setHighscoreSql]
    omega
  have hop : operate sq junk d (.setHighscore u v) = some (junk.toInt, d) := by
    rw [operate, setHighscore, sprintf_eq hsql]
    rfl
  refine ⟨fromChar (reply (.setHighscore u v) junk.toInt m₁ returnPos), reply (.setHighscore u v) junk.toInt m₁, ?_⟩
  simp only [answered, hpost, hfetch, hop, returnValue, Option.bind_some, Option.map_some]

/-! ## What is stored does not change -/

theorem length_of_fits {user : CString} (hf : Fits (.getHighScore user)) : user.val.length ≤ 364 := by
  simp only [Fits, length_getHighscoreSql] at hf
  omega

/-- The score that is got after another was set is the one stored before. -/
theorem set_then_get_iff (junk : Int8) (user : CString) {v : Int} (hv : (decimal v).length ≤ 11) (m : Mem) (d : D) :
    SetThenGet sq junk user v m d ↔ Fits (.getHighScore user) ∧ v = max (scoreOf sq d user) 0 := by
  constructor
  · rintro ⟨ret, m₁, d₁, w, m₂, d₂, hset, hget, rfl, -⟩
    by_cases hf : Fits (.getHighScore user)
    · obtain ⟨ret', m', hset'⟩ := answered_set sq junk (length_of_fits hf) hv m d
      obtain ⟨m'', hget'⟩ := answered_get sq 0 hf m₁ d₁
      rw [hset, Option.some.injEq, Prod.mk.injEq, Prod.mk.injEq] at hset'
      rw [hget, Option.some.injEq, Prod.mk.injEq] at hget'
      exact ⟨hf, by rw [hget'.1, hset'.2.2]⟩
    · rw [answered_get_unfit 0 hf] at hget
      cases hget
  · rintro ⟨hf, rfl⟩
    obtain ⟨ret, m', hset⟩ := answered_set sq junk (length_of_fits hf) hv m d
    obtain ⟨m'', hget⟩ := answered_get sq 0 hf m' d
    exact ⟨ret, m', d, _, m'', d, hset, hget, rfl, fun _ _ => rfl⟩

theorem afterGames_same {user : CString} (hf : Fits (.getHighScore user)) (gs : List Game) (d : D) :
    afterGames sq user gs d = some d := by
  induction gs with
  | nil => rfl
  | cons g gs ih =>
    obtain ⟨m', hget⟩ := answered_get sq 0 hf g.login d
    have hv : (decimal (max (scoreOf sq d user) 0 + g.result)).length ≤ 11 := by
      apply decimal_length_le (k := 10)
      · have hlt := Int32.toInt_lt (sq.columnInt d (getHighscoreSql user.val) 2)
        unfold scoreOf Game.result
        split <;> omega
      · decide
    obtain ⟨ret, m'', hset⟩ := answered_set sq g.junk (length_of_fits hf) hv g.ending d
    rw [afterGames, hget, Option.bind_some]
    dsimp only
    rw [hset, Option.bind_some]
    exact ih

theorem shows_sum_iff (user : CString) (gs : List Game) (m : Mem) (d : D) :
    ShowsSum sq user gs m d ↔
      Fits (.getHighScore user) ∧ scoreOf sq d user + (gs.map Game.result).sum = max (scoreOf sq d user) 0 := by
  constructor
  · rintro ⟨d₁, w, m₂, d₂, hgames, hget, rfl⟩
    by_cases hf : Fits (.getHighScore user)
    · rw [afterGames_same hf, Option.some.injEq] at hgames
      obtain ⟨m', hget'⟩ := answered_get sq 0 hf m d₁
      rw [hget, Option.some.injEq, Prod.mk.injEq] at hget'
      exact ⟨hf, by rw [hget'.1, hgames]⟩
    · rw [answered_get_unfit 0 hf] at hget
      cases hget
  · rintro ⟨hf, hsum⟩
    obtain ⟨m', hget⟩ := answered_get sq 0 hf m d
    exact ⟨d, _, m', d, afterGames_same hf gs d, hget, hsum.symm⟩

/-- A score that is set is shown at the next login exactly when it was shown
before, and games add up exactly when their results come to nothing: the
statement is never stepped. -/
theorem scores_kept_iff (user : CString) (d : D) :
    (∀ (v : Int32) (junk : Int8) (m : Mem), SetThenGet sq junk user v.toInt m d ↔
      Fits (.getHighScore user) ∧ v.toInt = max (scoreOf sq d user) 0) ∧
    ∀ (gs : List Game) (m : Mem), ShowsSum sq user gs m d ↔
      Fits (.getHighScore user) ∧ scoreOf sq d user + (gs.map Game.result).sum = max (scoreOf sq d user) 0 := by
  refine ⟨fun v junk m => set_then_get_iff junk user ?_ m d, fun gs m => shows_sum_iff user gs m d⟩
  apply decimal_length_le (k := 10)
  · have hlt := v.toInt_lt
    have hge := v.le_toInt
    omega
  · decide

end Spec

/-- Ana is in the table with the score 0. It is set to 10, and it is 0 when she
logs in again. -/
theorem score_lost : isUser anaTable true ana.val = some 1 ∧
    ¬∀ (v : Int32) (junk : Int8) (m : Mem), SetThenGet anaTable junk ana v.toInt m true := by
  refine ⟨rfl, fun h => ?_⟩
  have hv : (decimal (10 : Int32).toInt).length ≤ 11 := by decide
  obtain ⟨-, hsame⟩ := (set_then_get_iff 0 ana hv (fun _ => 0) true).1 (h 10 0 fun _ => 0)
  exact absurd hsame (by decide)

end Snuffin.Db
