import Snuffin.Structs
import Snuffin.Lib.CString
/-!
# The database process (db.c)

The five operations on the players table, the page of memory in which they
are asked for, and what the loop of `manageDataBase` does with a command. The
SQLite library is the parameter `Sqlite`. `none` is a string that has no end
in the page, or a statement longer than the buffer it is printed to.
-/
open Lib

namespace Snuffin.Db

/-- What the code uses of SQLite: a column of the first row of a query, as an
int (0 without a row) or as text up to its NUL, and the execution of
statements. Preparing a statement alone changes nothing. -/
structure Sqlite (D : Type) where
  columnInt : D → Bytes → Nat → Int32
  columnText : D → Bytes → Nat → Option Bytes
  exec : D → Bytes → Int × D

def bytes (s : String) : Bytes := s.toList.map fun c => UInt8.ofNat c.toNat

/-! ## The statements -/

def isUserSql (user : Bytes) : Bytes := bytes "SELECT Count(*) FROM player WHERE name = '" ++ user ++ bytes "'"

def isPasswordSql (user : Bytes) : Bytes := bytes "SELECT * FROM player WHERE name = '" ++ user ++ bytes "'"

def createUserSql (user pass : Bytes) : Bytes :=
  bytes "INSERT INTO player VALUES ('" ++ user ++ bytes "','" ++ pass ++ bytes "'," ++ decimal 0 ++ bytes ")"

def getHighscoreSql (player : Bytes) : Bytes := bytes "SELECT * FROM player WHERE name = '" ++ player ++ bytes "'"

def setHighscoreSql (player : Bytes) (highscore : Int) : Bytes :=
  bytes "UPDATE player set score = " ++ decimal highscore ++ bytes " where name = '" ++ player ++ bytes "' "

theorem length_isUserSql (user : Bytes) : (isUserSql user).length = user.length + 43 := by
  have h1 : (bytes "SELECT Count(*) FROM player WHERE name = '").length = 42 := rfl
  have h2 : (bytes "'").length = 1 := rfl
  simp only [isUserSql, List.length_append, h1, h2]
  omega

theorem length_isPasswordSql (user : Bytes) : (isPasswordSql user).length = user.length + 36 := by
  have h1 : (bytes "SELECT * FROM player WHERE name = '").length = 35 := rfl
  have h2 : (bytes "'").length = 1 := rfl
  simp only [isPasswordSql, List.length_append, h1, h2]
  omega

theorem length_createUserSql (user pass : Bytes) : (createUserSql user pass).length = user.length + pass.length + 35 := by
  have h1 : (bytes "INSERT INTO player VALUES ('").length = 28 := rfl
  have h2 : (bytes "','").length = 3 := rfl
  have h3 : (bytes "',").length = 2 := rfl
  have h4 : (bytes ")").length = 1 := rfl
  have h5 : (decimal 0).length = 1 := rfl
  simp only [createUserSql, List.length_append, h1, h2, h3, h4, h5]
  omega

theorem length_getHighscoreSql (player : Bytes) : (getHighscoreSql player).length = player.length + 36 :=
  length_isPasswordSql player

theorem length_setHighscoreSql (player : Bytes) (highscore : Int) :
    (setHighscoreSql player highscore).length = player.length + (decimal highscore).length + 43 := by
  have h1 : (bytes "UPDATE player set score = ").length = 26 := rfl
  have h2 : (bytes " where name = '").length = 15 := rfl
  have h3 : (bytes "' ").length = 2 := rfl
  simp only [setHighscoreSql, List.length_append, h1, h2, h3]
  omega

/-- `sprintf` into a buffer of `room` bytes. -/
def sprintf (room : Nat) (sql : Bytes) : Option Bytes := if sql.length < room then some sql else none

/-! ## The operations -/

section Operations
variable {D : Type} (sq : Sqlite D) (d : D)

def isUser (user : Bytes) : Option Int := (sprintf 400 (isUserSql user)).map fun sql => (sq.columnInt d sql 0).toInt

def isPassword (user pass : Bytes) : Option Int :=
  (sprintf 400 (isPasswordSql user)).map fun sql => if sq.columnText d sql 1 = some pass then 1 else 0

def createUser (user pass : Bytes) : Option (Int × D) :=
  (sprintf 500 (createUserSql user pass)).map fun sql => (if (sq.exec d sql).1 ≠ 0 then 1 else 0, (sq.exec d sql).2)

def getHighscore (player : Bytes) : Option Int :=
  (sprintf 400 (getHighscoreSql player)).map fun sql => (sq.columnInt d sql 2).toInt

/-- The statement is prepared and never stepped. There is no `return`, so the
value is an indeterminate one, `junk`: a char, as the caller stores it in one. -/
def setHighscore (player : Bytes) (highscore : Int) (junk : Int8) : Option Int :=
  (sprintf 400 (setHighscoreSql player highscore)).map fun _ => junk.toInt

end Operations

/-! ## loadInt -/

/-- The first loop of `loadInt`. -/
def countDigits : Nat → Int → Nat
  | 0, _ => 0
  | fuel + 1, aux => if aux > 0 then countDigits fuel (aux / 10) + 1 else 0

/-- The second loop of `loadInt`. -/
def fillDigits : Nat → Nat → Nat → Int → Mem → Mem
  | 0, _, _, _, m => m
  | fuel + 1, pos, digits, value, m =>
    if value > 0 then
      fillDigits fuel pos (digits - 1) (value / 10) (store m (pos + (digits - 1)) [UInt8.ofNat ((value % 10).toNat + 48)])
    else m

/-- Both loops divide by 10, so `value` rounds are enough. -/
def loadInt (m : Mem) (pos : Nat) (value : Int) : Mem :=
  let digits := countDigits value.toNat value
  fillDigits value.toNat pos digits value (store m (pos + digits) [0])

/-! ## The page -/

def typePos : Nat := 0
def firstArgument : Nat := 1
def secondArgument : Nat := 64
def returnPos : Nat := 256
def mutexOffset : Nat := 1024

theorem offsets : typePos = 0 ∧ firstArgument = 1 ∧ secondArgument = 64 ∧ returnPos = 256 ∧ mutexOffset = 1024 :=
  ⟨rfl, rfl, rfl, rfl, rfl⟩

/-- A C string: bytes without NUL. -/
abbrev CString := { s : Bytes // (0 : UInt8) ∉ s }

/-- A call of one of the five functions of dbManager.c. -/
inductive Request where
  | existUser (user : CString)
  | validPassword (user password : CString)
  | getHighScore (user : CString)
  | setHighscore (user : CString) (value : Int)
  | createUser (user password : CString)
  deriving DecidableEq

/-- The string at `pos`. -/
def argAt (m : Mem) (pos : Nat) : Option CString :=
  match h : readStr (mutexOffset - pos) m pos with
  | some s => some ⟨s, readStr_nul h⟩
  | none => none

/-- The case of the switch in `manageDataBase` and the arguments it takes from
the page. -/
def fetch (m : Mem) : Option Request :=
  if m typePos = 49 then (argAt m firstArgument).map .existUser
  else if m typePos = 50 then
    (argAt m firstArgument).bind fun user => (argAt m secondArgument).map (.validPassword user)
  else if m typePos = 51 then (argAt m firstArgument).map .getHighScore
  else if m typePos = 52 then
    (argAt m firstArgument).bind fun user => (argAt m secondArgument).map fun v => .setHighscore user (atoi v.val)
  else if m typePos = 53 then
    (argAt m firstArgument).bind fun user => (argAt m secondArgument).map (.createUser user)
  else none

/-- The operation of a case: its value, and the database after it. -/
def operate {D : Type} (sq : Sqlite D) (junk : Int8) (d : D) : Request → Option (Int × D)
  | .existUser user => (isUser sq d user.val).map fun c => (c, d)
  | .validPassword user password => (isPassword sq d user.val password.val).map fun res => (res, d)
  | .getHighScore user => (getHighscore sq d user.val).map fun v => (v, d)
  | .setHighscore user value => (setHighscore user.val value junk).map fun v => (v, d)
  | .createUser user password => createUser sq d user.val password.val

/-- `(char) v`, as the byte it is stored in. -/
def toChar (v : Int) : UInt8 := (Int8.ofInt v).toUInt8

/-- What a case leaves in the page. -/
def reply (r : Request) (v : Int) (m : Mem) : Mem :=
  match r with
  | .getHighScore _ => store (loadInt m returnPos v) typePos [0]
  | _ => store (store m returnPos [toChar v]) typePos [0]

/-! ## What loadInt writes -/

theorem countDigits_eq {fuel n : Nat} (h : n ≤ fuel) : countDigits fuel n = (Nat.digits 10 n).length := by
  induction fuel generalizing n with
  | zero =>
    obtain rfl : n = 0 := by omega
    rfl
  | succ fuel ih =>
    by_cases hn : n = 0
    · subst hn; rfl
    · have hpos : (n : Int) > 0 := by omega
      have hdiv : ((n : Int) / 10) = ((n / 10 : Nat) : Int) := by simp
      have hle : n / 10 ≤ fuel := by omega
      have hdig := Nat.digits_def' (b := 10) (by decide) (show 0 < n by omega)
      rw [countDigits, if_pos hpos, hdiv, ih hle, hdig, List.length_cons]

theorem fillDigits_eq {fuel n : Nat} (h : n ≤ fuel) (pos : Nat) (m : Mem) :
    fillDigits fuel pos (text n).length n m = store m pos (text n) := by
  induction fuel generalizing n m with
  | zero =>
    obtain rfl : n = 0 := by omega
    funext i
    simp [fillDigits, text, store]
  | succ fuel ih =>
    by_cases hn : n = 0
    · subst hn
      funext i
      simp [fillDigits, text, store]
    · have hpos : (n : Int) > 0 := by omega
      have hdiv : ((n : Int) / 10) = ((n / 10 : Nat) : Int) := by simp
      have hmod : ((n : Int) % 10).toNat = n % 10 := by omega
      have htext : text n = text (n / 10) ++ [UInt8.ofNat (n % 10 + 48)] := by
        rw [text, Nat.digits_def' (b := 10) (by decide) (show 0 < n by omega), List.reverse_cons, List.map_append]
        rfl
      have hlen : (text n).length - 1 = (text (n / 10)).length := by
        rw [htext, List.length_append, List.length_singleton]; rfl
      have hle : n / 10 ≤ fuel := by omega
      rw [fillDigits, if_pos hpos, hdiv, hmod, hlen, ih hle, store_append, ← htext]

/-- `loadInt` prints a number that is not negative, except that it prints
nothing for 0; nothing is also what it prints for a negative one. -/
theorem loadInt_eq (m : Mem) (pos : Nat) (v : Int) : loadInt m pos v = store m pos (text v.toNat ++ [0]) := by
  rcases Int.lt_or_le v 0 with hv | hv
  · have h0 : v.toNat = 0 := by omega
    funext i
    simp [loadInt, h0, countDigits, fillDigits, text]
  · obtain ⟨n, rfl⟩ := Int.eq_ofNat_of_zero_le hv
    have hlen : (Nat.digits 10 n).length = (text n).length := by simp [text]
    rw [loadInt, Int.toNat_natCast, countDigits_eq (Nat.le_refl n), hlen, fillDigits_eq (Nat.le_refl n), store_append]

end Snuffin.Db
