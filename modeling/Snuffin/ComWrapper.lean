import Snuffin.Structs
import Snuffin.Lib.Framing
import Snuffin.Lib.Machine
import Mathlib.Algebra.BigOperators.Group.List.Basic
import Mathlib.Data.List.TakeWhile
/-!
# Reading messages (comWrapper.c)

`readData` cuts what one `receiveData` gave into strings and hands them out
one by one. Every index is checked, and `none` is an access outside an array.
`split_spec` and `takeString_spec` say what the two parts do; the theorems
about streams and connections use only those.
-/
open Lib

namespace Snuffin.ComWrapper

/-! ## The code -/

abbrev bufferSize : Nat := 1024
abbrev blockSize : Nat := 5

/-- `StreamData`; `data` is all of the buffer. -/
structure StreamData where
  data : Bytes
  size : Int

/-- What `recv` or `read` gives: -1, or some bytes, none when the peer has
closed. -/
inductive Received where
  | error
  | bytes (b : Bytes)

def receiveData (r : Received) (sd : StreamData) : StreamData :=
  match r with
  | .error => { sd with size := -1 }
  | .bytes b => ⟨b ++ sd.data.drop b.length, b.length⟩

/-- The locals of `split`; `totalStrings` is the length of `res`. -/
structure Splitting where
  aux : Bytes
  auxCounter : Nat
  res : List Bytes
  resSize : Nat

def clearArr (arr : Bytes) : Bytes := arr.map fun _ => 0

/-- `resSize` after the `realloc` of a full array. -/
def roomFor (totalStrings resSize : Nat) : Nat := if totalStrings = resSize then totalStrings + blockSize else resSize

/-- The body of the loop of `split`. -/
def splitByte (s : Splitting) (x : UInt8) : Option Splitting :=
  if x ≠ 0 then
    if s.auxCounter < s.aux.length then
      some { s with aux := s.aux.set s.auxCounter x, auxCounter := s.auxCounter + 1 }
    else none
  else
    let resSize := roomFor s.res.length s.resSize
    if s.auxCounter + 1 ≤ s.aux.length ∧ s.res.length < resSize then
      some ⟨clearArr s.aux, 0, s.res ++ [s.aux.take (s.auxCounter + 1) ++ [0]], resSize⟩
    else none

/-- The strings; `*amount` is how many they are. A negative size runs the loop
no times. -/
def split (source : Bytes) (size : Int) : Option (List Bytes) :=
  if size ≤ source.length then
    ((source.take size.toNat).foldlM splitByte ⟨List.replicate size.toNat 0, 0, [], blockSize⟩).map Splitting.res
  else none

/-- The globals of `readData`. -/
structure Wrapper where
  readBuffer : Option (List Bytes)
  rBuffSize : Nat
  currentPos : Nat

/-- `strlen`, when there is a NUL to find. -/
def strlen (b : Bytes) : Option Nat := if 0 ∈ b then some (b.takeWhile (· ≠ 0)).length else none

/-- The string a buffer holds. -/
def cstr (b : Bytes) : Bytes := b.takeWhile (· ≠ 0)

/-- `if(readBuffer==NULL)`. -/
def refill (r : Received) (sd : StreamData) (w : Wrapper) : Option (StreamData × Wrapper) :=
  match w.readBuffer with
  | some _ => some (sd, w)
  | none =>
    let sd := receiveData r sd
    (split sd.data sd.size).map fun res => (sd, ⟨some res, res.length, 0⟩)

/-- `currentPos++`, and freeing the array after its last string. -/
def Wrapper.advance (w : Wrapper) : Wrapper :=
  if w.currentPos + 1 = w.rBuffSize then { w with readBuffer := none, currentPos := 0 }
  else { w with currentPos := w.currentPos + 1 }

/-- The rest of `readData`. With no string at all `readBuffer` is NULL or an
array of length 0, and its element 0 does not exist. -/
def takeString (sd : StreamData) (w : Wrapper) : Option (Bool × StreamData × Wrapper) :=
  match (w.readBuffer.getD [])[w.currentPos]? with
  | none => none
  | some str =>
    (strlen str).bind fun n =>
      if n + 1 ≤ sd.data.length then
        some (1 < n, ⟨str.take (n + 1) ++ sd.data.drop (n + 1), n⟩, w.advance)
      else none

/-- `readData`: its return value, the buffer and the globals after it. `r` is
what `receiveData` gets when it is called. -/
def readData (r : Received) (sd : StreamData) (w : Wrapper) : Option (Bool × StreamData × Wrapper) :=
  (refill r sd w).bind fun (sd, w) => takeString sd w

/-! ## split -/

/-- A string in memory that `calloc` has cleared: one NUL ends it, and one
more byte follows. -/
def block (m : Bytes) : Bytes := m ++ [0, 0]

/-- The loop of `split` has read `p`. -/
structure Splitted (size : Nat) (p : Bytes) (s : Splitting) : Prop where
  aux : s.aux = leftover 0 p ++ List.replicate (size - (leftover 0 p).length) 0
  auxCounter : s.auxCounter = (leftover 0 p).length
  res : s.res = (frames 0 p).map block
  resSize : s.res.length ≤ s.resSize

theorem length_leftover_le (p : Bytes) : (leftover 0 p).length ≤ p.length := by
  have h := congrArg List.length (wire_frames (0 : UInt8) p)
  rw [List.length_append] at h
  omega

theorem Splitted.length_aux {size : Nat} {p : Bytes} {s : Splitting} (h : Splitted size p s) (hp : p.length ≤ size) :
    s.aux.length = size := by
  have hl := length_leftover_le p
  rw [h.aux, List.length_append, List.length_replicate]
  omega

/-- One byte more. -/
theorem Splitted.byte {size : Nat} {p : Bytes} {s : Splitting} (h : Splitted size p s) (hp : p.length < size)
    (x : UInt8) : ∃ s', splitByte s x = some s' ∧ Splitted size (p ++ [x]) s' := by
  have hl := length_leftover_le p
  have haux := h.length_aux (Nat.le_of_lt hp)
  -- What `aux` holds after the piece is NULs, at least one.
  obtain ⟨k, hk⟩ : ∃ k, size - (leftover 0 p).length = k + 1 := ⟨size - (leftover 0 p).length - 1, by omega⟩
  by_cases hx : x = 0
  · subst hx
    obtain ⟨hf, hr⟩ := frames_snoc_sep (0 : UInt8) p
    have hroom : s.res.length < roomFor s.res.length s.resSize := by
      have := h.resSize
      unfold roomFor
      split
      · exact Nat.lt_add_of_pos_right (by decide)
      · omega
    refine ⟨⟨clearArr s.aux, 0, s.res ++ [s.aux.take (s.auxCounter + 1) ++ [0]], roomFor s.res.length s.resSize⟩,
      ?_, ?_, ?_, ?_, ?_⟩
    · exact (if_neg (by simp)).trans (if_pos ⟨by rw [haux, h.auxCounter]; omega, hroom⟩)
    · rw [hr, List.nil_append, List.length_nil, Nat.sub_zero]
      simp [clearArr, haux]
    · rw [hr]; rfl
    · have htake : s.aux.take (s.auxCounter + 1) ++ [0] = block (leftover 0 p) := by
        rw [h.aux, h.auxCounter, hk, List.replicate_succ, block]
        simp [List.take_append]
      dsimp only
      rw [h.res, htake, hf, List.map_append, List.map_singleton]
    · rw [List.length_append, List.length_singleton]
      exact hroom
  · obtain ⟨hf, hr⟩ := frames_snoc hx p
    refine ⟨{ s with aux := s.aux.set s.auxCounter x, auxCounter := s.auxCounter + 1 }, ?_, ?_, ?_, ?_, h.resSize⟩
    · exact (if_pos hx).trans (if_pos (by rw [haux, h.auxCounter]; omega))
    · have hk' : size - (leftover 0 p ++ [x]).length = k := by
        rw [List.length_append, List.length_singleton]; omega
      rw [hr, hk', h.aux, h.auxCounter, hk, List.replicate_succ, List.set_append_right _ _ (Nat.le_refl _)]
      simp
    · rw [hr, List.length_append, h.auxCounter, List.length_singleton]
    · rw [hf]; exact h.res

theorem Splitted.bytes {size : Nat} {l p : Bytes} {s : Splitting} (h : Splitted size p s)
    (hl : p.length + l.length ≤ size) : ∃ s', l.foldlM splitByte s = some s' ∧ Splitted size (p ++ l) s' := by
  induction l generalizing p s with
  | nil => exact ⟨s, rfl, by simpa using h⟩
  | cons x l ih =>
    rw [List.length_cons] at hl
    obtain ⟨t, ht, hst⟩ := h.byte (by omega) x
    obtain ⟨s', hs', hs⟩ := ih hst (by rw [List.length_append, List.length_singleton]; omega)
    refine ⟨s', ?_, by simpa using hs⟩
    rw [List.foldlM_cons, ht]; exact hs'

/-- `split` gives the strings that a NUL ends, and never leaves its arrays. -/
theorem split_spec {source : Bytes} {size : Nat} (h : size ≤ source.length) :
    split source size = some ((frames 0 (source.take size)).map block) := by
  have h0 : Splitted size [] ⟨List.replicate size 0, 0, [], blockSize⟩ := ⟨by simp, by simp, by simp, by simp⟩
  obtain ⟨s, hs, hp⟩ := h0.bytes (l := source.take size) (by rw [List.length_take, List.length_nil]; omega)
  rw [split, if_pos (by omega), Int.toNat_natCast, hs, Option.map_some, hp.res, List.nil_append]

theorem takeWhile_block {m : Bytes} (hm : (0 : UInt8) ∉ m) (l : Bytes) :
    (m ++ 0 :: l).takeWhile (fun x => decide (x ≠ 0)) = m := by
  rw [List.takeWhile_append_of_pos]
  · simp
  · intro x hx
    exact decide_eq_true fun e => hm (by rwa [e] at hx)

theorem cstr_nul (b : Bytes) : (0 : UInt8) ∉ cstr b := by
  intro h
  simpa using List.mem_takeWhile_imp h

theorem cstr_append {m : Bytes} (hm : (0 : UInt8) ∉ m) (l : Bytes) : cstr (m ++ 0 :: l) = m := takeWhile_block hm l

theorem cstr_append_of_not_mem {d : Bytes} (h : (0 : UInt8) ∉ d) (l : Bytes) : cstr (d ++ l) = d ++ cstr l := by
  rw [cstr, List.takeWhile_append_of_pos]
  · rfl
  · intro x hx
    exact decide_eq_true fun e => h (by rwa [e] at hx)

theorem cstr_eq_self {s : Bytes} : cstr s = s ↔ (0 : UInt8) ∉ s := by
  constructor
  · intro h
    rw [← h]
    exact cstr_nul s
  · intro h
    have hs := cstr_append_of_not_mem h []
    rwa [List.append_nil, show cstr [] = [] from rfl, List.append_nil] at hs

/-- What stands behind a NUL does not matter. -/
theorem cstr_append_nul (m l : Bytes) : cstr (m ++ 0 :: l) = cstr m := by
  by_cases h : (0 : UInt8) ∈ m
  · obtain ⟨a, b, rfl, ha⟩ := List.eq_append_cons_of_mem h
    rw [List.append_assoc, List.cons_append, cstr_append ha, cstr_append ha]
  · rw [cstr_append h, cstr_eq_self.2 h]

/-- Each NUL ends one message of a stream. -/
theorem count_wire {segs : List Bytes} (h : ∀ m ∈ segs, (0 : UInt8) ∉ m) : (wire 0 segs).count 0 = segs.length := by
  induction segs with
  | nil => rfl
  | cons m segs ih =>
    have hm := List.count_eq_zero.2 (h m List.mem_cons_self)
    rw [wire_cons, List.count_append, List.count_cons_self, hm, ih fun m' hm' => h m' (List.mem_cons_of_mem _ hm')]
    simp

/-- Whatever the bytes are, `split` gives the segments that a NUL ends among
the first `bytes.length`, in order and each with its NUL, as many as there are
NULs. -/
theorem split_segments (bytes rest : Bytes) : ∃ segs last, bytes = wire 0 segs ++ last ∧
    (∀ m ∈ segs, (0 : UInt8) ∉ m) ∧ (0 : UInt8) ∉ last ∧ split (bytes ++ rest) bytes.length = some (segs.map block) ∧
    (segs.map block).map cstr = segs ∧ (segs.map block).length = bytes.count 0 := by
  have hsegs : ∀ m ∈ frames 0 bytes, (0 : UInt8) ∉ m := fun m hm => not_mem_frames hm
  have hlast : (0 : UInt8) ∉ leftover 0 bytes := not_mem_leftover bytes
  refine ⟨frames 0 bytes, leftover 0 bytes, (wire_frames 0 bytes).symm, hsegs, hlast, ?_, ?_, ?_⟩
  · rw [split_spec (by rw [List.length_append]; omega), List.take_left]
  · rw [List.map_map]
    conv_rhs => rw [← List.map_id (frames 0 bytes)]
    exact List.map_congr_left fun m hm => cstr_append (hsegs m hm) [0]
  · conv_rhs => rw [← wire_frames 0 bytes]
    rw [List.count_append, count_wire hsegs, List.count_eq_zero.2 hlast, List.length_map]
    rfl

/-! ## readData -/

theorem strlen_block {m : Bytes} (hm : (0 : UInt8) ∉ m) : strlen (block m) = some m.length := by
  rw [strlen, if_pos (by simp [block]), block, takeWhile_block hm]

/-- The strings in `readBuffer` that are still to be handed out are `ms`; with
none left `readBuffer` is NULL. -/
def Pending (w : Wrapper) (ms : List Bytes) : Prop :=
  ms = [] ∧ w.readBuffer = none ∨
    ms ≠ [] ∧ ∃ done, w.readBuffer = some ((done ++ ms).map block) ∧ w.currentPos = done.length ∧
      w.rBuffSize = (done ++ ms).length

theorem Pending.none {w : Wrapper} (h : Pending w []) : w.readBuffer = none := by
  rcases h with ⟨-, h⟩ | ⟨h, -⟩
  · exact h
  · exact absurd rfl h

theorem Pending.advance {w : Wrapper} {m : Bytes} {ms : List Bytes} (h : Pending w (m :: ms)) :
    Pending w.advance ms := by
  obtain ⟨hne, -⟩ | ⟨-, done, hbuf, hpos, hsize⟩ := h
  · cases hne
  have hlen : w.rBuffSize = done.length + (ms.length + 1) := by rw [hsize, List.length_append, List.length_cons]
  unfold Wrapper.advance
  cases ms with
  | nil =>
    rw [if_pos (by rw [hpos, hlen]; rfl)]
    exact .inl ⟨rfl, rfl⟩
  | cons m' ms =>
    rw [if_neg (by rw [hpos, hlen, List.length_cons]; omega)]
    refine .inr ⟨by simp, done ++ [m], ?_, ?_, ?_⟩
    · simpa using hbuf
    · simp [hpos]
    · simpa using hsize

/-- `readData` hands out the next string. -/
theorem takeString_spec {w : Wrapper} {m : Bytes} {ms : List Bytes} (h : Pending w (m :: ms)) (hm : (0 : UInt8) ∉ m)
    (sd : StreamData) (hsd : m.length < sd.data.length) :
    ∃ data, takeString sd w = some (decide (1 < m.length), ⟨data, m.length⟩, w.advance) ∧ cstr data = m := by
  obtain ⟨hne, -⟩ | ⟨-, done, hbuf, hpos, -⟩ := h
  · cases hne
  have hstr : (w.readBuffer.getD [])[w.currentPos]? = some (block m) := by
    rw [hbuf, hpos, Option.getD_some, List.map_append, List.map_cons]
    exact (List.getElem?_append_right (by simp)).trans (by simp)
  have htake : (block m).take (m.length + 1) = m ++ [0] := by simp [block, List.take_append]
  refine ⟨m ++ [0] ++ sd.data.drop (m.length + 1), ?_, ?_⟩
  · simp only [takeString, hstr, strlen_block hm, Option.bind_some, htake]
    exact if_pos hsd
  · rw [List.append_assoc]; exact cstr_append hm _

theorem readData_pending {w : Wrapper} {m : Bytes} {ms : List Bytes} (h : Pending w (m :: ms)) (r : Received)
    (sd : StreamData) : readData r sd w = takeString sd w := by
  obtain ⟨hne, -⟩ | ⟨-, done, hbuf, -⟩ := h
  · cases hne
  · simp [readData, refill, hbuf]

/-- With no string pending `readData` receives, and hands out the first string
that the bytes complete. -/
theorem readData_receive {w : Wrapper} (h : Pending w []) {b : Bytes} (sd : StreamData) (hb : b.length ≤ sd.data.length)
    {m : Bytes} {ms : List Bytes} (hf : frames 0 b = m :: ms) :
    ∃ data w', readData (.bytes b) sd w = some (decide (1 < m.length), ⟨data, m.length⟩, w') ∧ cstr data = m ∧
      Pending w' ms := by
  have hd : (b ++ sd.data.drop b.length).length = sd.data.length := by
    rw [List.length_append, List.length_drop]; omega
  have hsplit : split (b ++ sd.data.drop b.length) b.length = some ((m :: ms).map block) := by
    rw [split_spec (by rw [hd]; exact hb), List.take_left, hf]
  have hmem : m ∈ frames 0 b := by rw [hf]; exact List.mem_cons_self
  have hlt := length_frame_lt hmem
  have hp : Pending ⟨some ((m :: ms).map block), ((m :: ms).map block).length, 0⟩ (m :: ms) :=
    .inr ⟨by simp, [], by simp, rfl, by simp⟩
  obtain ⟨data, ht, hc⟩ :=
    takeString_spec hp (not_mem_frames hmem) ⟨b ++ sd.data.drop b.length, b.length⟩
      (show m.length < (b ++ sd.data.drop b.length).length by rw [hd]; omega)
  refine ⟨data, _, ?_, hc, hp.advance⟩
  simp only [readData, refill, h.none, receiveData, hsplit, Option.map_some, Option.bind_some]
  exact ht

/-- Bytes without a NUL complete no string, and `readData` reads element 0 of
no array. -/
theorem readData_no_string {w : Wrapper} (h : Pending w []) {b : Bytes} (sd : StreamData)
    (hb : b.length ≤ sd.data.length) (hf : frames 0 b = []) : readData (.bytes b) sd w = none := by
  have hd : (b ++ sd.data.drop b.length).length = sd.data.length := by
    rw [List.length_append, List.length_drop]; omega
  have hsplit : split (b ++ sd.data.drop b.length) b.length = some [] := by
    rw [split_spec (by rw [hd]; exact hb), List.take_left, hf, List.map_nil]
  simp [readData, refill, h.none, receiveData, hsplit, takeString]

/-- What `readData` hands out is a string, with its NUL, over what the buffer
held. -/
theorem takeString_some {sd d : StreamData} {w w' : Wrapper} {res : Bool} (h : takeString sd w = some (res, d, w')) :
    ∃ m : Bytes, (0 : UInt8) ∉ m ∧ m.length + 1 ≤ sd.data.length ∧
      d = ⟨m ++ 0 :: sd.data.drop (m.length + 1), m.length⟩ := by
  unfold takeString at h
  cases hstr : (w.readBuffer.getD [])[w.currentPos]? with
  | none =>
    rw [hstr] at h
    cases h
  | some str =>
    rw [hstr] at h
    obtain ⟨n, hn, h⟩ := Option.bind_eq_some_iff.1 h
    obtain ⟨hlen, h⟩ := Option.ite_none_right_eq_some.1 h
    obtain ⟨hnul, hn⟩ := Option.ite_none_right_eq_some.1 hn
    obtain ⟨m, l, rfl, hm⟩ := List.eq_append_cons_of_mem hnul
    rw [takeWhile_block hm] at hn
    obtain rfl := Option.some.inj hn
    have htake : (m ++ 0 :: l).take (m.length + 1) = m ++ [0] := by simp [List.take_append]
    refine ⟨m, hm, hlen, ?_⟩
    rw [← (Prod.mk.inj (Prod.mk.inj (Option.some.inj h)).2).1, htake, List.append_assoc, List.singleton_append]

/-- `readData` sets the size to the length of the string it leaves. -/
theorem readData_size {r : Received} {sd d : StreamData} {w w' : Wrapper} {res : Bool}
    (h : readData r sd w = some (res, d, w')) : d.size = (cstr d.data).length := by
  obtain ⟨⟨sd, w⟩, -, h⟩ := Option.bind_eq_some_iff.1 h
  obtain ⟨m, hm, -, rfl⟩ := takeString_some h
  rw [cstr_append hm]

/-- The buffer stays as long as it was. -/
theorem readData_length {r : Received} {sd d : StreamData} {w w' : Wrapper} {res : Bool}
    (hr : ∀ b, r = .bytes b → b.length ≤ sd.data.length) (h : readData r sd w = some (res, d, w')) :
    d.data.length = sd.data.length := by
  obtain ⟨⟨sd₁, w₁⟩, hrefill, h⟩ := Option.bind_eq_some_iff.1 h
  obtain ⟨m, -, hlen, rfl⟩ := takeString_some h
  have hsd : sd₁.data.length = sd.data.length := by
    unfold refill at hrefill
    cases hw : w.readBuffer with
    | some strs =>
      rw [hw] at hrefill
      rw [(Prod.mk.inj (Option.some.inj hrefill)).1]
    | none =>
      rw [hw] at hrefill
      obtain ⟨res, -, he⟩ := Option.map_eq_some_iff.1 hrefill
      rw [← (Prod.mk.inj he).1]
      cases r with
      | error => rfl
      | bytes b =>
        have hb := hr b rfl
        simp only [receiveData, List.length_append, List.length_drop]
        omega
  simp only [List.length_append, List.length_cons, List.length_drop]
  omega

end Snuffin.ComWrapper
