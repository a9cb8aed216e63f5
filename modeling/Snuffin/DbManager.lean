import Snuffin.Database
/-!
# The callers' side of the page (dbManager.c)

Each of the five functions has two sections that run with the mutex held:
`post` writes the command and its arguments, and `returnValue` takes the
answer. `fetch_post` says that the database process reads the command back,
and `returnValue_reply` that the caller reads its value back. Only ExistUserDB
sets `cond`, `ready` and `mutex`; it is the first call of any child server.
-/
open Lib

namespace Snuffin.Db

/-! ## Posting a command -/

/-- A write to the page; `none` if it runs into the mutex. -/
def write (pos : Nat) (l : Bytes) (m : Mem) : Option Mem :=
  if pos + l.length ≤ mutexOffset then some (store m pos l) else none

/-- The NUL is written on its own. -/
def existUserDB (user : Bytes) (m : Mem) : Option Mem :=
  ((write typePos [49] m).bind (write firstArgument user)).bind (write (user.length + 1) [0])

/-- A command with the arguments `first` and `second`, each with its NUL. -/
def twoArguments (type : UInt8) (first second : Bytes) (m : Mem) : Option Mem :=
  ((write typePos [type] m).bind (write firstArgument (first ++ [0]))).bind (write secondArgument (second ++ [0]))

def validPasswordDB (user password : Bytes) : Mem → Option Mem := twoArguments 50 user password

def getHighScoreDB (user : Bytes) (m : Mem) : Option Mem :=
  (write typePos [51] m).bind (write firstArgument (user ++ [0]))

def setHighscoreDB (user : Bytes) (value : Int) : Mem → Option Mem := twoArguments 52 user (decimal value)

def createUserDB (user password : Bytes) : Mem → Option Mem := twoArguments 53 user password

/-- What a call does to the page before it waits. -/
def post : Request → Mem → Option Mem
  | .existUser user => existUserDB user.val
  | .validPassword user password => validPasswordDB user.val password.val
  | .getHighScore user => getHighScoreDB user.val
  | .setHighscore user value => setHighscoreDB user.val value
  | .createUser user password => createUserDB user.val password.val

/-! ## Taking the answer -/

/-- A char read as an int; chars are signed. -/
def fromChar (x : UInt8) : Int := x.toInt8.toInt

/-- What a call returns when it finds READY. -/
def returnValue : Request → Mem → Option Int
  | .getHighScore _, m => (argAt m returnPos).map fun s => atoi s.val
  | _, m => some (fromChar (m returnPos))

/-! ## What fits -/

/-- The strings of a call fit their places in the page and in the statement. -/
def Fits : Request → Prop
  | .existUser user => (isUserSql user.val).length < 400
  | .validPassword user password =>
    user.val.length < 63 ∧ password.val.length < 960 ∧ (isPasswordSql user.val).length < 400
  | .getHighScore user => (getHighscoreSql user.val).length < 400
  | .setHighscore user value => user.val.length < 63 ∧ (setHighscoreSql user.val value).length < 400
  | .createUser user password => user.val.length < 63 ∧ (createUserSql user.val password.val).length < 500

/-- What is stored for the player fits the return slot: the number of players
of that name is a char, and the score is not negative. -/
def Stored {D : Type} (sq : Sqlite D) (d : D) : Request → Prop
  | .existUser user =>
    -128 ≤ (sq.columnInt d (isUserSql user.val) 0).toInt ∧ (sq.columnInt d (isUserSql user.val) 0).toInt < 128
  | .getHighScore user => 0 ≤ (sq.columnInt d (getHighscoreSql user.val) 2).toInt
  | _ => True

instance : DecidablePred Fits := fun r => by cases r <;> unfold Fits <;> infer_instance

instance {D : Type} (sq : Sqlite D) (d : D) : DecidablePred (Stored sq d) :=
  fun r => by cases r <;> unfold Stored <;> infer_instance

/-- A value that comes back from the return slot as it went in. -/
def InSlot : Request → Int → Prop
  | .getHighScore _, v => 0 ≤ v ∧ v < 2 ^ 31
  | _, v => -128 ≤ v ∧ v < 128

/-! ## Posted commands are read back -/

theorem argAt_of_isStr {m : Mem} {pos : Nat} {s : CString} (h : IsStr m pos s.val) (hl : pos + s.val.length < mutexOffset) :
    argAt m pos = some s := by
  have hf : s.val.length < mutexOffset - pos := by omega
  have hr := readStr_of_isStr h s.property hf
  unfold argAt
  split
  · rename_i s' hs'
    rw [hr] at hs'
    exact congrArg some (Subtype.ext (Option.some.inj hs').symm)
  · rename_i hn
    rw [hr] at hn
    cases hn

theorem write_eq {pos : Nat} {l : Bytes} {m : Mem} (h : pos + l.length ≤ mutexOffset) : write pos l m = some (store m pos l) :=
  if_pos h

theorem write_some {pos : Nat} {l : Bytes} {m m' : Mem} (h : write pos l m = some m') : m' = store m pos l :=
  (Option.some.inj (Option.ite_none_right_eq_some.1 h).2).symm

/-- What `fetch` needs of the page: the command, and an argument that ends
before the mutex. -/
def Holds (m : Mem) (type : UInt8) (first : Bytes) : Prop :=
  m typePos = type ∧ IsStr m firstArgument first ∧ firstArgument + first.length < mutexOffset

theorem existUserDB_spec {user : Bytes} (m : Mem) (h : user.length < 1022) :
    ∃ m', existUserDB user m = some m' ∧ Holds m' 49 user := by
  have ho := offsets
  have hlen : [(0 : UInt8)].length = 1 := rfl
  have hlen' : [(49 : UInt8)].length = 1 := rfl
  refine ⟨store (store m typePos [49]) firstArgument (user ++ [0]), ?_, ?_, isStr_store _ firstArgument user, by omega⟩
  · unfold existUserDB
    rw [write_eq (by omega), Option.bind_some, write_eq (by omega), Option.bind_some, write_eq (by omega),
      show user.length + 1 = firstArgument + user.length by omega, store_store]
  · rw [store_outside _ _ _ (by omega)]
    exact store_at m typePos [49] (i := 0) rfl

theorem getHighScoreDB_spec {user : Bytes} (m : Mem) (h : user.length ≤ 1022) :
    ∃ m', getHighScoreDB user m = some m' ∧ Holds m' 51 user := by
  have ho := offsets
  have hlen : [(51 : UInt8)].length = 1 := rfl
  have hw : (user ++ [0]).length = user.length + 1 := List.length_append
  refine ⟨store (store m typePos [51]) firstArgument (user ++ [0]), ?_, ?_, isStr_store _ firstArgument user, by omega⟩
  · unfold getHighScoreDB
    rw [write_eq (by omega), Option.bind_some, write_eq (by omega)]
  · rw [store_outside _ _ _ (by omega)]
    exact store_at m typePos [51] (i := 0) rfl

/-- Two arguments that end before the mutex are written, the second over what
the first has there. -/
theorem twoArguments_eq (type : UInt8) {first second : Bytes} (m : Mem) (h1 : first.length ≤ 1022) (h2 : second.length < 960) :
    twoArguments type first second m =
      some (store (store (store m typePos [type]) firstArgument (first ++ [0])) secondArgument (second ++ [0])) := by
  have ho := offsets
  have hlen : [type].length = 1 := rfl
  have hw1 : (first ++ [0]).length = first.length + 1 := List.length_append
  have hw2 : (second ++ [0]).length = second.length + 1 := List.length_append
  rw [twoArguments, write_eq (by omega), Option.bind_some, write_eq (by omega), Option.bind_some, write_eq (by omega)]

/-- The arguments leave the command alone. -/
theorem store_arguments (type : UInt8) (first second : Bytes) (m : Mem) :
    store (store (store m typePos [type]) firstArgument first) secondArgument second typePos = type := by
  have ho := offsets
  rw [store_outside _ _ _ (by omega), store_outside _ _ _ (by omega)]
  exact store_at m typePos [type] (i := 0) rfl

/-- A user name that ends before the second argument leaves room for it. -/
theorem twoArguments_spec (type : UInt8) {first second : Bytes} (m : Mem) (h1 : first.length < 63) (h2 : second.length < 960) :
    ∃ m', twoArguments type first second m = some m' ∧ Holds m' type first ∧ IsStr m' secondArgument second ∧
      secondArgument + second.length < mutexOffset := by
  have ho := offsets
  refine ⟨_, twoArguments_eq type m (by omega) h2, ⟨store_arguments type _ _ m, ?_, ?_⟩,
    isStr_store _ secondArgument second, by omega⟩
  · apply (isStr_store _ firstArgument first).store
    right
    omega
  · omega

/-- The database process reads the very command and arguments of the call. -/
theorem fetch_post {r : Request} (h : Fits r) (m : Mem) :
    ∃ m', post r m = some m' ∧ fetch m' = some r ∧ m' typePos ≠ 0 := by
  cases r with
  | existUser user =>
    have hl : user.val.length < 1022 := by
      simp only [Fits, length_isUserSql] at h
      omega
    obtain ⟨m', hm, ht, h1, hb⟩ := existUserDB_spec m hl
    refine ⟨m', hm, ?_, by rw [ht]; decide⟩
    simp [fetch, ht, argAt_of_isStr h1 hb]
  | validPassword user password =>
    obtain ⟨m', hm, ⟨ht, h1, hb⟩, h2, hb2⟩ := twoArguments_spec 50 m h.1 h.2.1
    refine ⟨m', hm, ?_, by rw [ht]; decide⟩
    simp [fetch, ht, argAt_of_isStr h1 hb, argAt_of_isStr h2 hb2]
  | getHighScore user =>
    have hl : user.val.length ≤ 1022 := by
      simp only [Fits, length_getHighscoreSql] at h
      omega
    obtain ⟨m', hm, ht, h1, hb⟩ := getHighScoreDB_spec m hl
    refine ⟨m', hm, ?_, by rw [ht]; decide⟩
    simp [fetch, ht, argAt_of_isStr h1 hb]
  | setHighscore user value =>
    have hl : (decimal value).length < 960 := by
      simp only [Fits, length_setHighscoreSql] at h
      omega
    obtain ⟨m', hm, ⟨ht, h1, hb⟩, h2, hb2⟩ := twoArguments_spec 52 m h.1 hl
    have hv : argAt m' secondArgument = some ⟨decimal value, decimal_nul value⟩ := argAt_of_isStr h2 hb2
    refine ⟨m', hm, ?_, by rw [ht]; decide⟩
    simp [fetch, ht, argAt_of_isStr h1 hb, hv, atoi_decimal]
  | createUser user password =>
    have hl : password.val.length < 960 := by
      simp only [Fits, length_createUserSql] at h
      omega
    obtain ⟨m', hm, ⟨ht, h1, hb⟩, h2, hb2⟩ := twoArguments_spec 53 m h.1 hl
    refine ⟨m', hm, ?_, by rw [ht]; decide⟩
    simp [fetch, ht, argAt_of_isStr h1 hb, argAt_of_isStr h2 hb2]

/-! ## Answers are read back -/

theorem fromChar_toChar {v : Int} (h : -128 ≤ v ∧ v < 128) : fromChar (toChar v) = v := by
  unfold fromChar toChar
  rw [Int8.toInt8_toUInt8]
  exact Int8.toInt_ofInt_of_le h.1 h.2

theorem text_length {n : Nat} (h : n < 2 ^ 31) : (text n).length ≤ 10 := by
  rw [text, List.length_map, List.length_reverse]
  exact (Nat.digits_length_le_iff (by decide) n).2 (by omega)

/-- The caller reads the very value, and finds READY. -/
theorem returnValue_reply {r : Request} {v : Int} (h : InSlot r v) (m : Mem) :
    returnValue r (reply r v m) = some v ∧ reply r v m typePos = 0 := by
  have ho := offsets
  have hlen : [(0 : UInt8)].length = 1 := rfl
  have hready (m' : Mem) : store m' typePos [0] typePos = 0 := store_at m' typePos [0] (i := 0) rfl
  have hchar (hc : -128 ≤ v ∧ v < 128) :
      some (fromChar (store (store m returnPos [toChar v]) typePos [0] returnPos)) = some v := by
    have hat : store m returnPos [toChar v] returnPos = toChar v := store_at m returnPos [toChar v] (i := 0) rfl
    rw [store_outside _ _ _ (by omega), hat, fromChar_toChar hc]
  cases r with
  | getHighScore user =>
    have hl := text_length (n := v.toNat) (by have := h.2; omega)
    have hs : IsStr (store (loadInt m returnPos v) typePos [0]) returnPos (text v.toNat) := by
      rw [loadInt_eq]
      apply (isStr_store m returnPos _).store
      left
      omega
    have hv : argAt (store (loadInt m returnPos v) typePos [0]) returnPos = some ⟨text v.toNat, text_nul _⟩ :=
      argAt_of_isStr hs (by simp only; omega)
    refine ⟨?_, hready _⟩
    rw [returnValue, reply, hv, Option.map_some, atoi_text, Int.toNat_of_nonneg h.1]
  | existUser user => exact ⟨hchar h, hready _⟩
  | validPassword user password => exact ⟨hchar h, hready _⟩
  | setHighscore user value => exact ⟨hchar h, hready _⟩
  | createUser user password => exact ⟨hchar h, hready _⟩

theorem sprintf_eq {room : Nat} {sql : Bytes} (h : sql.length < room) : sprintf room sql = some sql :=
  if_pos h

/-- An operation that fits is executed, and its value comes back. -/
theorem operate_spec {D : Type} {sq : Sqlite D} {d : D} {r : Request} (hf : Fits r) (hs : Stored sq d r) (junk : Int8) :
    ∃ v d', operate sq junk d r = some (v, d') ∧ InSlot r v := by
  cases r with
  | existUser user =>
    refine ⟨_, d, ?_, hs⟩
    rw [operate, isUser, sprintf_eq hf]
    rfl
  | validPassword user password =>
    refine ⟨if sq.columnText d (isPasswordSql user.val) 1 = some password.val then 1 else 0, d, ?_, ?_⟩
    · rw [operate, isPassword, sprintf_eq hf.2.2]
      rfl
    · unfold InSlot
      split <;> omega
  | getHighScore user =>
    refine ⟨_, d, ?_, hs, Int32.toInt_lt (sq.columnInt d (getHighscoreSql user.val) 2)⟩
    rw [operate, getHighscore, sprintf_eq hf]
    rfl
  | setHighscore user value =>
    refine ⟨junk.toInt, d, ?_, junk.le_toInt, junk.toInt_lt⟩
    rw [operate, setHighscore, sprintf_eq hf.2]
    rfl
  | createUser user password =>
    refine ⟨if (sq.exec d (createUserSql user.val password.val)).1 ≠ 0 then 1 else 0,
      (sq.exec d (createUserSql user.val password.val)).2, ?_, ?_⟩
    · rw [operate, createUser, sprintf_eq hf.2]
      rfl
    · unfold InSlot
      split <;> omega

end Snuffin.Db
