import Snuffin.ComWrapper
import Mathlib.Algebra.Group.Nat.Even
/-!
# Typing a password (client.c)

`getPass` edits a line in the buffer it is given. One `i` counts the
characters, ends the loop and marks the place of the NUL. A backspace is taken
as one only when `i` is not 0, and as a character otherwise, so the text is
the one that was edited after an even number of backspaces on an empty text,
and has a DEL in front of it after an odd number. Every write is checked, and
`none` is a write outside the buffer.
-/
open Snuffin.ComWrapper

namespace Snuffin.Client

/-! ## The code -/

abbrev maxWord : Nat := 20

def backspace : UInt8 := 127

/-- `'\n'`. -/
def newline : UInt8 := 10

/-- The buffer and `i`. -/
structure Typing where
  pass : Bytes
  i : Nat

/-- `pass[i] = c`. -/
def put (pass : Bytes) (i : Nat) (c : UInt8) : Option Bytes := if i < pass.length then some (pass.set i c) else none

/-- The body of the inner loop of `getPass`. -/
def typeKey (t : Typing) (c : UInt8) : Option Typing :=
  if c = backspace ∧ t.i ≠ 0 then some ⟨t.pass, t.i - 1⟩
  else if c = newline then
    if t.i ≠ 0 then (put t.pass t.i 0).map (⟨·, maxWord⟩) else some t
  else (put t.pass t.i c).map (⟨·, t.i + 1⟩)

/-- Both loops of `getPass`, which have one condition. What `kbhit` says
decides whether a key is read, and not what is done with it. -/
def typeKeys : Typing → Bytes → Option (Typing × Bytes)
  | t, [] => some (t, [])
  | t, c :: keys => if t.i < maxWord then (typeKey t c).bind fun t => typeKeys t keys else some (t, c :: keys)

/-- A call waits for more keys, or it has ended and left some unread. -/
inductive Typed where
  | waiting
  | ended (pass rest : Bytes)

/-- `getPass`, given the keys that are pressed. -/
def getPass (pass keys : Bytes) : Option Typed :=
  (typeKeys ⟨pass, 0⟩ keys).bind fun (t, rest) =>
    if t.i < maxWord then some .waiting else (put t.pass (t.i - 1) 0).map fun pass => .ended pass rest

/-! ## The line editor -/

/-- What a key does to a line of text. -/
def edit (text : Bytes) (c : UInt8) : Bytes :=
  if c = backspace then text.dropLast else if c = newline then text else text ++ [c]

/-- The text that some keys make, in a buffer with room for it and a NUL. -/
def lineEdited (keys : Bytes) : Bytes := (keys.foldl edit []).take (maxWord - 1)

/-- The backspaces among some keys that meet an empty text. -/
def idleFrom : Bytes → Bytes → Nat
  | _, [] => 0
  | text, c :: keys => (if c = backspace ∧ text = [] then 1 else 0) + idleFrom (edit text c) keys

def idleBackspaces (keys : Bytes) : Nat := idleFrom [] keys

/-- What a key does to the characters that `getPass` holds. -/
def press (text : Bytes) (c : UInt8) : Bytes :=
  if c = backspace ∧ text ≠ [] then text.dropLast else if c = newline then text else text ++ [c]

theorem press_eq_edit {text : Bytes} {c : UInt8} (h : ¬(c = backspace ∧ text = [])) : press text c = edit text c := by
  unfold press edit
  by_cases hc : c = backspace
  · rw [if_pos ⟨hc, fun ht => h ⟨hc, ht⟩⟩, if_pos hc]
  · rw [if_neg fun hb => hc hb.1, if_neg hc]

theorem press_cons_eq_edit {text : Bytes} {c : UInt8} (h : ¬(c = backspace ∧ text = [])) :
    press (backspace :: text) c = backspace :: edit text c := by
  unfold press edit
  by_cases hc : c = backspace
  · have ht : text ≠ [] := fun ht => h ⟨hc, ht⟩
    rw [if_pos ⟨hc, List.cons_ne_nil _ _⟩, if_pos hc, List.dropLast_cons_of_ne_nil ht]
  · rw [if_neg fun hb => hc hb.1, if_neg hc]
    split
    · rfl
    · rfl

/-- Each backspace on an empty text puts a DEL in front or takes it away. -/
theorem foldl_press (keys text : Bytes) :
    (keys.foldl press text =
      if Even (idleFrom text keys) then keys.foldl edit text else backspace :: keys.foldl edit text) ∧
    keys.foldl press (backspace :: text) =
      if Even (idleFrom text keys) then backspace :: keys.foldl edit text else keys.foldl edit text := by
  induction keys generalizing text with
  | nil => exact ⟨rfl, rfl⟩
  | cons c keys ih =>
    obtain ⟨ih₁, ih₂⟩ := ih (edit text c)
    rw [List.foldl_cons, List.foldl_cons, List.foldl_cons]
    by_cases hidle : c = backspace ∧ text = []
    · obtain ⟨rfl, rfl⟩ := hidle
      have hodd : Even (idleFrom [] (backspace :: keys)) ↔ ¬Even (idleFrom [] keys) := by
        rw [← Nat.even_add_one, Nat.add_comm]
        rfl
      simp only [hodd, ite_not]
      exact ⟨ih₂, ih₁⟩
    · have hsame : idleFrom text (c :: keys) = idleFrom (edit text c) keys := by
        rw [idleFrom, if_neg hidle, Nat.zero_add]
      rw [press_eq_edit hidle, press_cons_eq_edit hidle, hsame]
      exact ⟨ih₁, ih₂⟩

theorem backspace_not_mem_edit {text : Bytes} (h : backspace ∉ text) (c : UInt8) : backspace ∉ edit text c := by
  unfold edit
  by_cases hc : c = backspace
  · rw [if_pos hc]
    exact fun hm => h (List.mem_of_mem_dropLast hm)
  · rw [if_neg hc]
    split
    · exact h
    · simp [h, Ne.symm hc]

theorem backspace_not_mem_edited (keys text : Bytes) (h : backspace ∉ text) : backspace ∉ keys.foldl edit text := by
  induction keys generalizing text with
  | nil => exact h
  | cons c keys ih => exact ih _ (backspace_not_mem_edit h c)

/-! ## The buffer -/

/-- `getPass` holds the characters `text`, and reads on. -/
structure Held (text : Bytes) (t : Typing) : Prop where
  length : t.pass.length = maxWord
  i : t.i = text.length
  room : text.length < maxWord
  pass : ∃ tail, t.pass = text ++ tail

/-- `getPass` has read its last key. -/
structure Filled (text : Bytes) (t : Typing) : Prop where
  i : t.i = maxWord
  pass : ∃ tail, put t.pass (maxWord - 1) 0 = some (text.take (maxWord - 1) ++ 0 :: tail)

/-- A character behind the text. -/
theorem set_append_cons {α : Type} (l : List α) (x y : α) (tail : List α) : (l ++ x :: tail).set l.length y = l ++ y :: tail := by
  rw [List.set_append_right _ _ (Nat.le_refl _), Nat.sub_self, List.set_cons_zero]

theorem Held.tail {text : Bytes} {t : Typing} (h : Held text t) :
    ∃ x tail, t.pass = text ++ x :: tail ∧ text.length + (tail.length + 1) = maxWord := by
  obtain ⟨tail, hp⟩ := h.pass
  have hl := h.length
  have hroom := h.room
  rw [hp, List.length_append] at hl
  cases tail with
  | nil => rw [List.length_nil] at hl; omega
  | cons x tail => exact ⟨x, tail, hp, hl⟩

/-- The NUL that a newline puts behind the text ends it, also after the last
write. -/
theorem filled_newline {text tail : Bytes} (hl : text.length + (tail.length + 1) = maxWord) :
    Filled text ⟨text ++ 0 :: tail, maxWord⟩ := by
  refine ⟨rfl, ?_⟩
  have hlen : (text ++ (0 : UInt8) :: tail).length = maxWord := by rw [List.length_append, List.length_cons, hl]
  have htake : text.take (maxWord - 1) = text := List.take_of_length_le (by omega)
  rw [put, if_pos (by rw [hlen]; decide), htake]
  rcases List.eq_nil_or_concat tail with rfl | ⟨l, x, rfl⟩
  · have : maxWord - 1 = text.length := by rw [List.length_nil] at hl; omega
    exact ⟨[], by rw [this, set_append_cons]⟩
  · rw [List.concat_eq_append, List.length_append, List.length_singleton] at hl
    have h19 : maxWord - 1 = (text ++ 0 :: l).length := by rw [List.length_append, List.length_cons]; omega
    refine ⟨l ++ [0], ?_⟩
    rw [List.concat_eq_append, h19, show text ++ 0 :: (l ++ [x]) = text ++ 0 :: l ++ [x] by simp, set_append_cons]
    simp

/-- The last write cuts a full buffer. -/
theorem filled_full {text : Bytes} (hl : text.length = maxWord) : Filled text ⟨text, maxWord⟩ := by
  refine ⟨rfl, [], ?_⟩
  obtain ⟨l, x, rfl⟩ := List.eq_nil_or_concat text |>.resolve_left (by rintro rfl; cases hl)
  rw [List.concat_eq_append, List.length_append, List.length_singleton] at hl
  have h19 : maxWord - 1 = l.length := by omega
  rw [List.concat_eq_append, put, if_pos (by rw [List.length_append, List.length_singleton, hl]; decide), h19,
    set_append_cons, List.take_left]

/-- One key. -/
theorem Held.key {text : Bytes} {t : Typing} (h : Held text t) (c : UInt8) :
    ∃ t', typeKey t c = some t' ∧ (Held (press text c) t' ∨ Filled (press text c) t') := by
  obtain ⟨x, tail, hp, hl⟩ := h.tail
  have hi := h.i
  have hroom := h.room
  have hlt : t.i < t.pass.length := by rw [h.length, hi]; exact hroom
  have hput : ∀ y, put t.pass t.i y = some (text ++ y :: tail) := by
    intro y
    rw [put, if_pos hlt, hp, hi, set_append_cons]
  have hzero : t.i ≠ 0 ↔ text ≠ [] := by rw [hi, Ne, List.length_eq_zero_iff]
  unfold typeKey press
  by_cases hb : c = backspace ∧ text ≠ []
  · rw [if_pos ⟨hb.1, hzero.2 hb.2⟩, if_pos hb]
    refine ⟨_, rfl, .inl ⟨h.length, ?_, ?_, ?_⟩⟩
    · rw [List.length_dropLast, hi]
    · rw [List.length_dropLast]; omega
    · refine ⟨text.getLast hb.2 :: x :: tail, ?_⟩
      rw [hp, ← List.singleton_append (l := x :: tail), ← List.append_assoc, List.dropLast_append_getLast]
  · rw [if_neg (by rwa [hzero]), if_neg hb]
    by_cases hn : c = newline
    · rw [if_pos hn, if_pos hn]
      by_cases ht : text = []
      · rw [if_neg (by rwa [hzero, not_not])]
        exact ⟨t, rfl, .inl h⟩
      · rw [if_pos (hzero.2 ht), hput, Option.map_some]
        exact ⟨_, rfl, .inr (filled_newline hl)⟩
    · rw [if_neg hn, if_neg hn, hput, Option.map_some]
      refine ⟨_, rfl, ?_⟩
      by_cases hfull : text.length + 1 < maxWord
      · refine .inl ⟨?_, ?_, ?_, tail, ?_⟩
        · rw [List.length_append, List.length_cons, hl]
        · rw [List.length_append, List.length_singleton, hi]
        · rw [List.length_append, List.length_singleton]; exact hfull
        · rw [List.append_assoc, List.singleton_append]
      · right
        obtain rfl : tail = [] := List.length_eq_zero_iff.1 (by omega)
        have h20 : t.i + 1 = maxWord := by omega
        rw [h20]
        exact filled_full (by rw [List.length_append, List.length_singleton]; omega)

/-- All keys. -/
theorem Held.keys {text : Bytes} {t : Typing} (h : Held text t) (keys : Bytes) :
    ∃ t' used rest, typeKeys t keys = some (t', rest) ∧ keys = used ++ rest ∧
      (rest = [] ∧ Held (used.foldl press text) t' ∨ Filled (used.foldl press text) t') := by
  induction keys generalizing text t with
  | nil => exact ⟨t, [], [], rfl, rfl, .inl ⟨rfl, h⟩⟩
  | cons c keys ih =>
    have hlt : t.i < maxWord := by rw [h.i]; exact h.room
    obtain ⟨t₁, ht₁, hkey⟩ := h.key c
    rw [typeKeys, if_pos hlt, ht₁, Option.bind_some]
    rcases hkey with hheld | hfilled
    · obtain ⟨t', used, rest, ht', rfl, hres⟩ := ih hheld
      exact ⟨t', c :: used, rest, ht', rfl, hres⟩
    · refine ⟨t₁, [c], keys, ?_, rfl, .inr hfilled⟩
      have hend : ¬t₁.i < maxWord := by rw [hfilled.i]; decide
      cases keys with
      | nil => rfl
      | cons c' keys => rw [typeKeys, if_neg hend]

/-- `getPass` stays in its buffer. What it leaves there is the line that the
keys make exactly when an even number of backspaces met an empty text, and the
line has no NUL. -/
theorem getPass_iff {pass : Bytes} (hpass : pass.length = maxWord) (keys : Bytes) :
    ∃ res, getPass pass keys = some res ∧ ∀ pass', res = .ended pass' [] →
      (cstr pass' = lineEdited keys ↔ Even (idleBackspaces keys) ∧ (0 : UInt8) ∉ lineEdited keys) := by
  have h0 : Held [] ⟨pass, 0⟩ := ⟨hpass, rfl, by decide, pass, rfl⟩
  obtain ⟨t, used, rest, ht, hkeys, ⟨-, hheld⟩ | hfilled⟩ := h0.keys keys
  · refine ⟨.waiting, ?_, fun pass' h => by cases h⟩
    rw [getPass, ht, Option.bind_some]
    exact if_pos (by rw [hheld.i]; exact hheld.room)
  · obtain ⟨tail, hput⟩ := hfilled.pass
    refine ⟨.ended ((used.foldl press []).take (maxWord - 1) ++ 0 :: tail) rest, ?_, fun pass' h => ?_⟩
    · rw [getPass, ht, Option.bind_some]
      dsimp only
      rw [hfilled.i, if_neg (by decide), hput, Option.map_some]
    · obtain ⟨rfl, rfl⟩ := Typed.ended.inj h
      rw [List.append_nil] at hkeys
      obtain rfl := hkeys
      have hpress : keys.foldl press [] =
          if Even (idleBackspaces keys) then keys.foldl edit [] else backspace :: keys.foldl edit [] :=
        (foldl_press keys []).1
      rw [cstr_append_nul, hpress]
      by_cases heven : Even (idleBackspaces keys)
      · rw [if_pos heven, and_iff_right heven, ← cstr_eq_self]
        rfl
      · rw [if_neg heven]
        refine iff_of_false (fun he => ?_) fun hc => heven hc.1
        -- The DEL in front is no character of the line.
        have hmem : backspace ∈ cstr ((backspace :: keys.foldl edit []).take (maxWord - 1)) := by
          rw [cstr, List.take_cons (by decide), List.takeWhile_cons_of_pos (by decide)]
          exact List.mem_cons_self
        rw [he] at hmem
        exact backspace_not_mem_edited keys [] List.not_mem_nil (List.mem_of_mem_take hmem)

/-- A backspace between two letters. -/
theorem getPass_iff_corrected : ∃ res, getPass (List.replicate maxWord 0) [97, 127, 98, 10] = some res ∧
    ∀ pass', res = .ended pass' [] → (cstr pass' = lineEdited [97, 127, 98, 10] ↔
      Even (idleBackspaces [97, 127, 98, 10]) ∧ (0 : UInt8) ∉ lineEdited [97, 127, 98, 10]) :=
  getPass_iff (List.length_replicate) [97, 127, 98, 10]

/-- A backspace before the first letter becomes a letter. -/
theorem backspace_typed : ¬∀ pass keys pass', pass.length = maxWord → getPass pass keys = some (.ended pass' []) →
    cstr pass' = lineEdited keys := by
  intro h
  exact absurd (h (List.replicate maxWord 0) [127, 97, 10] ([127, 97] ++ List.replicate 18 0) rfl rfl) (by decide)

end Snuffin.Client
