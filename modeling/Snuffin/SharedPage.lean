import Snuffin.Highscores
import Snuffin.Statements
import Snuffin.RoundTrips
/-!
# The places of the arguments

dbconst.h gives the name bytes 1 to 63 of the page and the second argument
bytes 64 to 255; behind them are the return slot and the mutex. Nothing
between the socket and the page looks at a length.
-/
open Lib Snuffin.Marshalling

namespace Snuffin.Db

/-! ## What a call should leave in the page -/

def userOf : Request → CString
  | .existUser user | .validPassword user _ | .getHighScore user | .setHighscore user _ | .createUser user _ => user

/-- The text of the second argument. -/
def secondOf : Request → Option Bytes
  | .existUser _ | .getHighScore _ => none
  | .validPassword _ password | .createUser _ password => some password.val
  | .setHighscore _ value => some (decimal value)

/-- The database process reads the call back, the name and the second argument
with their NULs are in their places, no byte behind these is written, and the
statement fits its buffer. -/
def InPlace (r : Request) (m : Mem) : Prop :=
  ∃ m', post r m = some m' ∧ fetch m' = some r ∧
    readStr (secondArgument - firstArgument) m' firstArgument = some (userOf r).val ∧
    (∀ s ∈ secondOf r, readStr (returnPos - secondArgument) m' secondArgument = some s) ∧
    (∀ i, returnPos ≤ i → m' i = m i) ∧ (statement r).isSome = true

/-- The strings and their NULs are no longer than their places. -/
def Short (r : Request) : Prop := (userOf r).val.length < 63 ∧ ∀ s ∈ secondOf r, s.length < 192

/-! ## Short arguments -/

/-- A write before the return slot leaves what is from there on. -/
theorem write_outside {pos : Nat} {l : Bytes} {m m' : Mem} (h : write pos l m = some m') (hl : pos + l.length ≤ returnPos)
    {i : Nat} (hi : returnPos ≤ i) : m' i = m i := by
  rw [write_some h]
  exact store_outside m pos l (.inr (by omega))

theorem twoArguments_outside {type : UInt8} {first second : Bytes} {m m' : Mem}
    (h : twoArguments type first second m = some m') (h1 : first.length < 63) (h2 : second.length < 192) {i : Nat}
    (hi : returnPos ≤ i) : m' i = m i := by
  have ho := offsets
  obtain ⟨m₂, h₂, h₃⟩ := Option.bind_eq_some_iff.1 h
  obtain ⟨m₁, h₁, h₂⟩ := Option.bind_eq_some_iff.1 h₂
  rw [write_outside h₃ (by simp; omega) hi, write_outside h₂ (by simp; omega) hi, write_outside h₁ (by simp; omega) hi]

theorem post_outside {r : Request} (h : Short r) {m m' : Mem} (hp : post r m = some m') {i : Nat}
    (hi : returnPos ≤ i) : m' i = m i := by
  have ho := offsets
  obtain ⟨h1, h2⟩ := h
  cases r with
  | existUser user =>
    obtain ⟨m₂, h₂, h₃⟩ := Option.bind_eq_some_iff.1 hp
    obtain ⟨m₁, h₁, h₂⟩ := Option.bind_eq_some_iff.1 h₂
    simp only [userOf] at h1
    rw [write_outside h₃ (by simp; omega) hi, write_outside h₂ (by omega) hi, write_outside h₁ (by simp; omega) hi]
  | getHighScore user =>
    have hp' : (write typePos [51] m).bind (write firstArgument (user.val ++ [0])) = some m' := hp
    obtain ⟨m₁, h₁, h₂⟩ := Option.bind_eq_some_iff.1 hp'
    simp only [userOf] at h1
    rw [write_outside h₂ (by simp; omega) hi, write_outside h₁ (by simp; omega) hi]
  | validPassword user password => exact twoArguments_outside hp h1 (h2 _ rfl) hi
  | setHighscore user value => exact twoArguments_outside hp h1 (h2 _ rfl) hi
  | createUser user password => exact twoArguments_outside hp h1 (h2 _ rfl) hi

theorem statement_of_fits {r : Request} (h : Fits r) : (statement r).isSome = true := by
  cases r with
  | existUser user => rw [statement, sprintf_eq h]; rfl
  | validPassword user password => rw [statement, sprintf_eq h.2.2]; rfl
  | getHighScore user => rw [statement, sprintf_eq h]; rfl
  | setHighscore user value => rw [statement, sprintf_eq h.2]; rfl
  | createUser user password => rw [statement, sprintf_eq h.2]; rfl

/-- Short arguments leave room in every statement. -/
theorem fits_of_short {r : Request} (h : Short r) : Fits r := by
  obtain ⟨h1, h2⟩ := h
  cases r with
  | existUser user =>
    simp only [userOf] at h1
    simp only [Fits, length_isUserSql]
    omega
  | getHighScore user =>
    simp only [userOf] at h1
    simp only [Fits, length_getHighscoreSql]
    omega
  | validPassword user password =>
    have hp := h2 _ rfl
    simp only [userOf] at h1
    simp only [Fits, length_isPasswordSql]
    omega
  | setHighscore user value =>
    have hp := h2 _ rfl
    simp only [userOf] at h1
    simp only [Fits, length_setHighscoreSql]
    omega
  | createUser user password =>
    have hp := h2 _ rfl
    simp only [userOf] at h1
    simp only [Fits, length_createUserSql]
    omega

/-- Each argument stands at its place. -/
theorem post_strings {r : Request} (h : Short r) {m m' : Mem} (hp : post r m = some m') :
    IsStr m' firstArgument (userOf r).val ∧ ∀ s ∈ secondOf r, IsStr m' secondArgument s := by
  obtain ⟨h1, h2⟩ := h
  have htwo : ∀ {type : UInt8} {first second : Bytes}, twoArguments type first second m = some m' → first.length < 63 →
      second.length < 192 → IsStr m' firstArgument first ∧ IsStr m' secondArgument second := by
    intro type first second hp h1 h2
    obtain ⟨m'', hm, ⟨-, hfirst, -⟩, hsecond, -⟩ := twoArguments_spec type m h1 (show second.length < 960 by omega)
    obtain rfl := Option.some.inj (hm.symm.trans hp)
    exact ⟨hfirst, hsecond⟩
  cases r with
  | existUser user =>
    simp only [userOf] at h1
    obtain ⟨m'', hm, -, hfirst, -⟩ := existUserDB_spec m (show user.val.length < 1022 by omega)
    obtain rfl := Option.some.inj (hm.symm.trans hp)
    exact ⟨hfirst, by simp [secondOf]⟩
  | getHighScore user =>
    simp only [userOf] at h1
    obtain ⟨m'', hm, -, hfirst, -⟩ := getHighScoreDB_spec m (show user.val.length ≤ 1022 by omega)
    obtain rfl := Option.some.inj (hm.symm.trans hp)
    exact ⟨hfirst, by simp [secondOf]⟩
  | validPassword user password =>
    obtain ⟨hfirst, hsecond⟩ := htwo hp h1 (h2 _ rfl)
    exact ⟨hfirst, fun s hs => by cases hs; exact hsecond⟩
  | setHighscore user value =>
    obtain ⟨hfirst, hsecond⟩ := htwo hp h1 (h2 _ rfl)
    exact ⟨hfirst, fun s hs => by cases hs; exact hsecond⟩
  | createUser user password =>
    obtain ⟨hfirst, hsecond⟩ := htwo hp h1 (h2 _ rfl)
    exact ⟨hfirst, fun s hs => by cases hs; exact hsecond⟩

theorem readStr_length {fuel : Nat} {m : Mem} {pos : Nat} {s : Bytes} (h : readStr fuel m pos = some s) : s.length < fuel := by
  induction fuel generalizing pos s with
  | zero => cases h
  | succ fuel ih =>
    rw [readStr] at h
    split at h
    · cases h
      exact Nat.succ_pos _
    · obtain ⟨t, ht, rfl⟩ := Option.map_eq_some_iff.1 h
      exact Nat.succ_lt_succ (ih ht)

theorem secondOf_nul {r : Request} {s : Bytes} (h : s ∈ secondOf r) : (0 : UInt8) ∉ s := by
  cases r with
  | existUser user => cases h
  | getHighScore user => cases h
  | validPassword user password => cases h; exact password.property
  | createUser user password => cases h; exact password.property
  | setHighscore user value => cases h; exact decimal_nul value

/-- The arguments of a call are in their places exactly when they are no
longer than these. -/
theorem in_place_iff (r : Request) (m : Mem) : InPlace r m ↔ Short r := by
  constructor
  · rintro ⟨m', -, -, hfirst, hsecond, -⟩
    exact ⟨readStr_length hfirst, fun s hs => readStr_length (hsecond s hs)⟩
  · intro h
    have hfits := fits_of_short h
    obtain ⟨m', hp, hfetch, -⟩ := fetch_post hfits m
    obtain ⟨hfirst, hsecond⟩ := post_strings h hp
    refine ⟨m', hp, hfetch, readStr_of_isStr hfirst (userOf r).property h.1, fun s hs => ?_,
      fun i hi => post_outside h hp hi, statement_of_fits hfits⟩
    exact readStr_of_isStr (hsecond s hs) (secondOf_nul hs) (h.2 s hs)

/-- A name of 63 letters. -/
def longName : CString := ⟨List.replicate 63 97, by decide⟩

theorem carried_longName : Carried longName :=
  ⟨⟨stringText longName, stringText_nul longName⟩, cleared, by decide, unmarsh_stringText (by decide) cleared⟩

/-- It comes in a message of 66 bytes. Its NUL is where a password begins, so
that the database process reads the name and the password as one name. -/
theorem not_in_place : (¬∀ r : Request, (∀ s ∈ pasted r, Carried s) → ∀ m, InPlace r m) ∧
    ∀ m, ∃ m', post (.validPassword longName ana) m = some m' ∧ IsStr m' firstArgument (longName.val ++ ana.val) := by
  refine ⟨fun h => ?_, fun m => ?_⟩
  · have hcarried : ∀ s ∈ pasted (.validPassword longName longName), Carried s := by
      intro s hs
      rw [List.mem_singleton.1 hs]
      exact carried_longName
    exact absurd ((in_place_iff _ fun _ => 0).1 (h _ hcarried _)).1 (by decide)
  · obtain ⟨m', hm, ⟨-, hfirst, -⟩, -⟩ := twoArguments_overrun 50 m (show 63 ≤ longName.val.length by decide)
      (by decide) (show ana.val.length < 960 by decide)
    exact ⟨m', hm, hfirst⟩

end Snuffin.Db
