import Snuffin.Database
import Snuffin.Unmarshalling
import Snuffin.Lib.Literals
/-!
# The statements as SQL

Names and passwords come from the clients and are pasted between quotes into
the statements as they are. A statement says what it is meant to say if and
only if they have no quote in them and the text fits its buffer.
-/
open Lib Snuffin.Marshalling

namespace Snuffin.Db

/-- The byte `'`. -/
def quote : UInt8 := 39

/-- The statement an operation gives to SQLite, if it fits its buffer. -/
def statement : Request → Option Bytes
  | .existUser user => sprintf 400 (isUserSql user.val)
  | .validPassword user _ => sprintf 400 (isPasswordSql user.val)
  | .getHighScore user => sprintf 400 (getHighscoreSql user.val)
  | .setHighscore user value => sprintf 400 (setHighscoreSql user.val value)
  | .createUser user password => sprintf 500 (createUserSql user.val password.val)

/-- The strings that are pasted into a statement. -/
def pasted : Request → List CString
  | .existUser user | .validPassword user _ | .getHighScore user | .setHighscore user _ => [user]
  | .createUser user password => [user, password]

def words (s : String) : List (Token UInt8) := (bytes s).map .plain

/-- The tokens that a statement is meant to have. -/
def shape : Request → List (Token UInt8)
  | .existUser user => words "SELECT Count(*) FROM player WHERE name = " ++ [.literal user.val]
  | .validPassword user _ => words "SELECT * FROM player WHERE name = " ++ [.literal user.val]
  | .getHighScore user => words "SELECT * FROM player WHERE name = " ++ [.literal user.val]
  | .setHighscore user value =>
    words "UPDATE player set score = " ++ (decimal value).map .plain ++ words " where name = " ++
      .literal user.val :: words " "
  | .createUser user password =>
    words "INSERT INTO player VALUES (" ++ .literal user.val :: (words "," ++ .literal password.val :: words ",0)")

/-- The text is a single statement, with no `;` in it, and its words and
literals are the ones that are meant. -/
def Intended (r : Request) : Prop :=
  ∃ sql ts, statement r = some sql ∧ lex quote none sql = some ts ∧ .plain 59 ∉ ts ∧ ts = shape r

/-- The statement and its NUL fit the buffer. -/
def Room : Request → Prop
  | .existUser user => user.val.length + 43 < 400
  | .validPassword user _ => user.val.length + 36 < 400
  | .getHighScore user => user.val.length + 36 < 400
  | .setHighscore user value => user.val.length + (decimal value).length + 43 < 400
  | .createUser user password => user.val.length + password.val.length + 35 < 500

/-! ## The operations give this text to SQLite -/

section Operate
variable {D : Type} {sq sq' : Sqlite D} {r : Request} {sql : Bytes}

/-- An operation asks SQLite about its statement and nothing else. -/
theorem operate_statement {d : D} (h : statement r = some sql) (hint : sq.columnInt d sql = sq'.columnInt d sql)
    (htext : sq.columnText d sql = sq'.columnText d sql) (hexec : sq.exec d sql = sq'.exec d sql) (junk : Int8) :
    operate sq junk d r = operate sq' junk d r := by
  cases r with
  | existUser user =>
    rw [statement] at h
    simp only [operate, isUser, h, Option.map_some, hint]
  | validPassword user password =>
    rw [statement] at h
    simp only [operate, isPassword, h, Option.map_some, htext]
  | getHighScore user =>
    rw [statement] at h
    simp only [operate, getHighscore, h, Option.map_some, hint]
  | setHighscore user value => rfl
  | createUser user password =>
    rw [statement] at h
    simp only [operate, createUser, h, Option.map_some, hexec]

/-- Without a statement there is no operation. -/
theorem operate_none (h : statement r = none) (junk : Int8) (d : D) : operate sq junk d r = none := by
  cases r with
  | existUser user =>
    rw [statement] at h
    simp only [operate, isUser, h, Option.map_none]
  | validPassword user password =>
    rw [statement] at h
    simp only [operate, isPassword, h, Option.map_none]
  | getHighScore user =>
    rw [statement] at h
    simp only [operate, getHighscore, h, Option.map_none]
  | setHighscore user value =>
    rw [statement] at h
    simp only [operate, setHighscore, h, Option.map_none]
  | createUser user password =>
    rw [statement] at h
    simp only [operate, createUser, h, Option.map_none]

end Operate

/-! ## What the statements say -/

theorem not_mem_plain {x : UInt8} {l : Bytes} (h : x ∉ l) : Token.plain x ∉ l.map .plain := by
  intro hx
  obtain ⟨y, hy, hyx⟩ := List.mem_map.1 hx
  cases hyx
  exact h hy

theorem shape_single (r : Request) : .plain 59 ∉ shape r := by
  cases r with
  | existUser user =>
    have hw : Token.plain 59 ∉ words "SELECT Count(*) FROM player WHERE name = " := not_mem_plain (by decide)
    simp [shape, hw]
  | validPassword user password =>
    have hw : Token.plain 59 ∉ words "SELECT * FROM player WHERE name = " := not_mem_plain (by decide)
    simp [shape, hw]
  | getHighScore user =>
    have hw : Token.plain 59 ∉ words "SELECT * FROM player WHERE name = " := not_mem_plain (by decide)
    simp [shape, hw]
  | setHighscore user value =>
    have hdec : (59 : UInt8) ∉ decimal value := fun h => by
      rcases mem_decimal h with h | h <;> exact absurd h (by decide)
    have hw : Token.plain 59 ∉ words "UPDATE player set score = " := not_mem_plain (by decide)
    have hw' : Token.plain 59 ∉ words " where name = " := not_mem_plain (by decide)
    have hw'' : Token.plain 59 ∉ words " " := not_mem_plain (by decide)
    have hd := not_mem_plain hdec
    simp [shape, hw, hw', hw'', hdec]
  | createUser user password =>
    have hw : Token.plain 59 ∉ words "INSERT INTO player VALUES (" := not_mem_plain (by decide)
    have hw' : Token.plain 59 ∉ words "," := not_mem_plain (by decide)
    have hw'' : Token.plain 59 ∉ words ",0)" := not_mem_plain (by decide)
    simp [shape, hw, hw', hw'']

theorem lex_words {p : Bytes} (hp : quote ∉ p) : lex quote none p = some (p.map .plain) := by
  have h := lex_plain hp []
  simpa [lex] using h

/-- A text with one string pasted into it. -/
theorem lex_name_iff {p n r : Bytes} (hp : quote ∉ p) (hr : quote ∉ r) :
    lex quote none (p ++ quote :: (n ++ quote :: r)) = some (p.map .plain ++ .literal n :: r.map .plain) ↔ quote ∉ n := by
  have hhead : r.head? ≠ some quote := fun h => hr (List.mem_of_mem_head? h)
  rw [lex_pasted_iff hp hhead]
  exact and_iff_left (lex_words hr)

theorem intended_of_text {r : Request} {room : Nat} {text : Bytes} (h : statement r = sprintf room text) :
    Intended r ↔ text.length < room ∧ lex quote none text = some (shape r) := by
  constructor
  · rintro ⟨sql, ts, hsql, hlex, -, rfl⟩
    rw [h] at hsql
    obtain ⟨hlt, htext⟩ := Option.ite_none_right_eq_some.1 hsql
    obtain rfl := Option.some.inj htext
    exact ⟨hlt, hlex⟩
  · rintro ⟨hlt, hlex⟩
    exact ⟨text, shape r, by rw [h]; exact if_pos hlt, hlex, shape_single r, rfl⟩

theorem isUser_lex_iff (user : CString) :
    lex quote none (isUserSql user.val) = some (shape (.existUser user)) ↔ quote ∉ user.val := by
  have htext : isUserSql user.val =
      bytes "SELECT Count(*) FROM player WHERE name = " ++ quote :: (user.val ++ quote :: []) := by
    have h1 : bytes "SELECT Count(*) FROM player WHERE name = '" =
        bytes "SELECT Count(*) FROM player WHERE name = " ++ [quote] := rfl
    simp only [isUserSql, h1, List.append_assoc, List.cons_append, List.nil_append]
    rfl
  rw [htext]
  exact lex_name_iff (by decide) (by simp)

/-- The same statement looks for the password and the score of a player. -/
theorem player_lex_iff (user : CString) :
    lex quote none (isPasswordSql user.val) = some (shape (.getHighScore user)) ↔ quote ∉ user.val := by
  have htext : isPasswordSql user.val =
      bytes "SELECT * FROM player WHERE name = " ++ quote :: (user.val ++ quote :: []) := by
    have h1 : bytes "SELECT * FROM player WHERE name = '" = bytes "SELECT * FROM player WHERE name = " ++ [quote] := rfl
    simp only [isPasswordSql, h1, List.append_assoc, List.cons_append, List.nil_append]
    rfl
  rw [htext]
  exact lex_name_iff (by decide) (by simp)

theorem update_lex_iff (user : CString) (value : Int) :
    lex quote none (setHighscoreSql user.val value) = some (shape (.setHighscore user value)) ↔ quote ∉ user.val := by
  have hp : quote ∉ bytes "UPDATE player set score = " ++ decimal value ++ bytes " where name = " := by
    have hdec : quote ∉ decimal value := fun h => by
      rcases mem_decimal h with h | h <;> exact absurd h (by decide)
    simp only [List.mem_append, not_or]
    exact ⟨⟨by decide, hdec⟩, by decide⟩
  have htext : setHighscoreSql user.val value =
      bytes "UPDATE player set score = " ++ decimal value ++ bytes " where name = " ++
        quote :: (user.val ++ quote :: bytes " ") := by
    have h1 : bytes " where name = '" = bytes " where name = " ++ [quote] := rfl
    have h2 : bytes "' " = quote :: bytes " " := rfl
    simp [setHighscoreSql, h1, h2]
  have hshape : shape (.setHighscore user value) =
      (bytes "UPDATE player set score = " ++ decimal value ++ bytes " where name = ").map .plain ++
        .literal user.val :: (bytes " ").map .plain := by
    simp [shape, words]
  rw [htext, hshape]
  exact lex_name_iff hp (by decide)

/-- A quote in the name does not go unnoticed even though another quoted
string follows. -/
theorem insert_lex_iff (user password : CString) :
    lex quote none (createUserSql user.val password.val) = some (shape (.createUser user password)) ↔
      quote ∉ user.val ∧ quote ∉ password.val := by
  have htext : createUserSql user.val password.val =
      bytes "INSERT INTO player VALUES (" ++ quote :: (user.val ++ quote ::
        (bytes "," ++ quote :: (password.val ++ quote :: bytes ",0)"))) := by
    have h1 : bytes "INSERT INTO player VALUES ('" = bytes "INSERT INTO player VALUES (" ++ [quote] := rfl
    have h2 : bytes "','" = quote :: (bytes "," ++ [quote]) := rfl
    have h3 : bytes "'," ++ decimal 0 ++ bytes ")" = quote :: bytes ",0)" := rfl
    simp only [createUserSql, h1, h2, ← h3, List.append_assoc, List.cons_append, List.nil_append]
  have hhead : (bytes "," ++ quote :: (password.val ++ quote :: bytes ",0)")).head? ≠ some quote := by
    simp [bytes, quote]
  rw [htext, shape, words, lex_pasted_iff (by decide) hhead]
  exact and_congr_right fun _ => lex_name_iff (by decide) (by decide)

/-- A statement is the one that is meant if and only if the strings pasted
into it have no quote and the text fits its buffer. -/
theorem intended_iff (r : Request) : Intended r ↔ (∀ s ∈ pasted r, quote ∉ s.val) ∧ Room r := by
  cases r with
  | existUser user =>
    rw [intended_of_text rfl, length_isUserSql, isUser_lex_iff, and_comm]
    simp [pasted, Room]
  | validPassword user password =>
    have hshape : shape (.validPassword user password) = shape (.getHighScore user) := rfl
    rw [intended_of_text rfl, length_isPasswordSql, hshape, player_lex_iff, and_comm]
    simp [pasted, Room]
  | getHighScore user =>
    have hsame : getHighscoreSql user.val = isPasswordSql user.val := rfl
    rw [intended_of_text rfl, hsame, length_isPasswordSql, player_lex_iff, and_comm]
    simp [pasted, Room]
  | setHighscore user value =>
    rw [intended_of_text rfl, length_setHighscoreSql, update_lex_iff, and_comm]
    simp [pasted, Room]
  | createUser user password =>
    rw [intended_of_text rfl, length_createUserSql, insert_lex_iff, and_comm]
    simp [pasted, Room]

/-! ## A name that is more than a name -/

/-- A string that a client can send to the server in one message. -/
def Carried (s : CString) : Prop :=
  ∃ (m : CString) (l : Locals), m.val.length ≤ 1023 ∧ unmarshString (m.val ++ [0]) l = some (some s)

def blank (n : Nat) : Scratch n := ⟨List.replicate n 0, [], List.length_replicate⟩

def trick : CString := ⟨bytes "' OR name = 'ana", by decide⟩

/-- The row that is looked at can be that of ana. -/
example : lex quote none (isPasswordSql trick.val) =
    some (words "SELECT * FROM player WHERE name = " ++ .literal [] :: (words " OR name = " ++ [.literal (bytes "ana")])) :=
  rfl

theorem carried_trick : Carried trick :=
  ⟨⟨stringText trick, by decide⟩, ⟨blank 20, blank 5, blank 5, blank 5⟩, by decide, rfl⟩

/-- The name `' OR name = 'ana` comes in a message of 20 bytes. -/
theorem name_injected : ¬∀ r : Request, (∀ s ∈ pasted r, Carried s) → Intended r := by
  intro h
  have hi : Intended (.validPassword trick trick) := by
    apply h
    intro s hs
    rw [List.mem_singleton.1 hs]
    exact carried_trick
  obtain ⟨hquote, -⟩ := (intended_iff _).1 hi
  exact hquote trick (List.mem_singleton_self trick) (by decide)

end Snuffin.Db
