import Snuffin.RoundTrips
import Snuffin.ChildServer
/-!
# What is received

`readData` for each outcome of `receiveData`, and the buffers that the callers
of `unmarshString` give it for the string of a message.
-/
open Lib Snuffin.ComWrapper Snuffin.Marshalling
open Snuffin.Db (CString)

namespace Snuffin.ChildServer

/-! ## Peers that leave -/

/-- The next message is the empty one, which a FIFO sends when it is closed, or
nothing is pending and the peer of a socket has closed. -/
def Leaving (r : Received) (ms : List Bytes) : Prop :=
  ms.head? = some [] ∨ ms = [] ∧ (r = .bytes [] ∨ ∃ b, r = .bytes (0 :: b))

/-- The call stays inside its arrays, and when the peer leaves it returns 0, on
which `resolveRequest` disconnects the client. -/
def SafeRead (r : Received) (sd : StreamData) (w : Wrapper) (ms : List Bytes) : Prop :=
  ∃ res d w', readData r sd w = some (res, d, w') ∧ (Leaving r ms → res = false ∧
    ∀ {M : Type} (cd : Codec M) (db : Db) (junk : Bytes) (m : M) (n : Slot) (c : Client) (s : Server),
      s.clients n = some c → resolveRequest cd db junk res m n s = some (disconnect n c s))

theorem safeRead_of {r : Received} {sd : StreamData} {w : Wrapper} {ms : List Bytes} {res : Bool} {d : StreamData}
    {w' : Wrapper} (h : readData r sd w = some (res, d, w')) (hl : Leaving r ms → res = false) : SafeRead r sd w ms := by
  refine ⟨res, d, w', h, fun hleave => ⟨hl hleave, fun cd db junk m n c s hc => ?_⟩⟩
  rw [hl hleave]
  exact resolve_left hc

theorem frames_eq_nil {b : Bytes} : frames 0 b = [] ↔ (0 : UInt8) ∉ b := by
  constructor
  · intro h
    have hw := wire_frames (0 : UInt8) b
    rw [h, wire_nil, List.nil_append] at hw
    rw [← hw]
    exact not_mem_leftover b
  · intro h
    exact (frames_eq [] b rfl (by simp) h).1

theorem frames_nul (b : Bytes) : frames 0 (0 :: b) = [] :: frames 0 b := by
  refine (frames_eq ([] :: frames 0 b) (leftover 0 b) ?_ (fun m hm => ?_) (not_mem_leftover b)).1
  · rw [wire_cons, List.nil_append, List.cons_append, wire_frames]
  · rcases List.mem_cons.1 hm with rfl | hm
    · simp
    · exact not_mem_frames hm

/-- An error gives no string. -/
theorem readData_error {w : Wrapper} (h : Pending w []) (sd : StreamData) : readData .error sd w = none := by
  have hsplit : split sd.data (-1) = some [] := by
    rw [split, if_pos (by omega)]
    rfl
  simp only [readData, refill, h.none, receiveData, hsplit, Option.map_some, Option.bind_some, takeString]
  rfl

/-- `readData` stays inside its arrays exactly when a string is pending or one
is completed by what is received. -/
theorem safeRead_iff {w : Wrapper} {ms : List Bytes} (h : Pending w ms)
    (hms : ∀ m ∈ ms, (0 : UInt8) ∉ m ∧ m.length < bufferSize) {r : Received}
    (hr : ∀ b, r = .bytes b → b.length ≤ bufferSize) {sd : StreamData} (hsd : sd.data.length = bufferSize) :
    SafeRead r sd w ms ↔ ms ≠ [] ∨ ∃ b, r = .bytes b ∧ (0 : UInt8) ∈ b := by
  cases ms with
  | cons m ms =>
    obtain ⟨hm, hlen⟩ := hms m (by simp)
    obtain ⟨data, ht, -⟩ := takeString_spec h hm sd (by rw [hsd]; exact hlen)
    refine iff_of_true (safeRead_of ((readData_pending h r sd).trans ht) fun hleave => ?_) (.inl (by simp))
    rcases hleave with hempty | ⟨hnil, -⟩
    · obtain rfl : m = [] := Option.some.inj hempty
      rfl
    · cases hnil
  | nil =>
    cases r with
    | error =>
      refine iff_of_false ?_ (by simp)
      rintro ⟨res, d, w', hread, -⟩
      cases (readData_error h sd).symm.trans hread
    | bytes b =>
      have hb : b.length ≤ sd.data.length := by rw [hsd]; exact hr b rfl
      simp only [ne_eq, not_true_eq_false, Received.bytes.injEq, exists_eq_left', false_or]
      cases hf : frames 0 b with
      | nil =>
        refine iff_of_false ?_ (frames_eq_nil.1 hf)
        rintro ⟨res, d, w', hread, -⟩
        cases (readData_no_string h sd hb hf).symm.trans hread
      | cons m ms =>
        have hnul : (0 : UInt8) ∈ b := by
          by_contra hn
          rw [frames_eq_nil.2 hn] at hf
          cases hf
        obtain ⟨data, w', hread, -, -⟩ := readData_receive h sd hb hf
        refine iff_of_true (safeRead_of hread fun hleave => ?_) hnul
        rcases hleave with hempty | ⟨-, hclosed | ⟨b', hb'⟩⟩
        · cases hempty
        · cases hclosed
          cases hnul
        · cases hb'
          rw [frames_nul] at hf
          obtain ⟨rfl, -⟩ := List.cons.inj hf
          rfl

/-- The empty message of a FIFO. -/
theorem safeRead_iff_close : SafeRead (.bytes [0]) (zeros 0) .start [] :=
  (safeRead_iff (.inl ⟨rfl, rfl⟩) (by simp) (fun b hb => by cases hb; decide) List.length_replicate).2 (.inr ⟨[0], rfl, by decide⟩)

/-- After a socket is closed, after an error and on "30#" without its NUL,
`readData` reads element 0 of an array that has none. -/
theorem not_safeRead : readData (.bytes []) (zeros 0) .start = none ∧ readData .error (zeros 0) .start = none ∧
    readData (.bytes [51, 48, 35]) (zeros 0) .start = none ∧
    ¬∀ (w : Wrapper) (ms : List Bytes) (r : Received) (sd : StreamData), Pending w ms →
      (∀ m ∈ ms, (0 : UInt8) ∉ m ∧ m.length < bufferSize) → (∀ b, r = .bytes b → b.length ≤ bufferSize) →
        sd.data.length = bufferSize → SafeRead r sd w ms := by
  have hp : Pending .start [] := .inl ⟨rfl, rfl⟩
  have hbuf : (zeros 0).data.length = bufferSize := List.length_replicate
  have hclosed : readData (.bytes []) (zeros 0) .start = none := readData_no_string hp _ (by simp) frames_nil
  have hpiece : readData (.bytes [51, 48, 35]) (zeros 0) .start = none :=
    readData_no_string hp _ (by rw [hbuf]; decide) (frames_eq_nil.2 (by decide))
  refine ⟨hclosed, readData_error hp _, hpiece, fun h => ?_⟩
  obtain ⟨res, d, w', hread, -⟩ := h .start [] (.bytes []) (zeros 0) hp (by simp) (fun b hb => by cases hb; decide) hbuf
  cases hclosed.symm.trans hread

/-! ## Buffers for strings -/

/-- The callers of `unmarshString`. -/
inductive StringCaller where
  | validateUser
  | validatePassword
  | newPassword
  | unmarshalling
  deriving DecidableEq, Repr

/-- `sizeof(int)` and `sizeof(char *)` where the server runs. -/
def sizeofInt : Nat := 4

def sizeofPointer : Nat := 8

/-- The bytes that a caller allocates for the string in `d`. -/
def destination (d : StreamData) : StringCaller → Nat
  | .validateUser => d.size.toNat -- malloc(d->size)
  | .validatePassword => d.size.toNat
  | .newPassword => sizeofInt -- malloc(sizeof(d->size))
  | .unmarshalling => sizeofPointer -- calloc(1,sizeof(char *))

/-- The string that is decoded, with its NUL, fits what the caller allocates. -/
def Enough (d : StreamData) (k : StringCaller) : Prop :=
  ∀ l : Locals, ∃ t, unmarshString (cstr d.data ++ [0]) l = some (some t) ∧ t.val.length + 1 ≤ destination d k

/-- The caller allocates by the message, or the string is short. -/
def Roomy (s : CString) : StringCaller → Prop
  | .validateUser | .validatePassword => True
  | .newPassword => s.val.length < sizeofInt
  | .unmarshalling => s.val.length < sizeofPointer

/-- A caller has allocated enough for the string of a message exactly when it
allocates by the message or the string is short. -/
theorem enough_iff {s : CString} {sd : StreamData} (hs : marshString s = some sd)
    (hlen : (cstr sd.data).length ≤ 1023) {r : Received} {buf d : StreamData} {w w' : Wrapper} {res : Bool}
    (hread : readData r buf w = some (res, d, w')) (hd : cstr d.data = cstr sd.data) (k : StringCaller) :
    Enough d k ↔ Roomy s k := by
  have htext : cstr sd.data = stringText s := Message.cstr_text (m := .string s) hs
  have hsize := readData_size hread
  rw [hd, htext] at hsize
  rw [htext] at hlen hd
  have hl := length_stringText s
  have hplaces : (decimal s.val.length).length ≤ 5 := (length_decimal_le (by decide)).2 (by omega)
  have hback : ∀ l, unmarshString (cstr d.data ++ [0]) l = some (some s) := fun l => by
    rw [hd]
    exact unmarsh_stringText hplaces l
  have hiff : Enough d k ↔ s.val.length + 1 ≤ destination d k := by
    constructor
    · intro h
      obtain ⟨t, ht, hle⟩ := h cleared
      obtain rfl := Option.some.inj (Option.some.inj ((hback cleared).symm.trans ht))
      exact hle
    · exact fun h l => ⟨s, hback l, h⟩
  rw [hiff]
  cases k with
  | validateUser | validatePassword =>
    refine iff_of_true ?_ trivial
    show _ ≤ d.size.toNat
    omega
  | newPassword => exact Nat.lt_iff_add_one_le.symm
  | unmarshalling => exact Nat.lt_iff_add_one_le.symm

/-- The password "abc" is read from one chunk. -/
theorem enough_iff_abc : ∃ (res : Bool) (d : StreamData) (w' : Wrapper),
    readData (.bytes [51, 51, 35, 97, 98, 99, 0]) (zeros 0) .start = some (res, d, w') ∧ Enough d .newPassword := by
  have hf : frames (0 : UInt8) [51, 51, 35, 97, 98, 99, 0] = [[51, 51, 35, 97, 98, 99]] :=
    (frames_eq [[51, 51, 35, 97, 98, 99]] [] rfl (by decide) (by simp)).1
  have hp : Pending .start [] := .inl ⟨rfl, rfl⟩
  have hbuf : (zeros 0).data.length = bufferSize := List.length_replicate
  obtain ⟨data, w', hread, hc, -⟩ := readData_receive hp (zeros 0) (by rw [hbuf]; decide) hf
  have hs : marshString ⟨[97, 98, 99], by decide⟩ = some ⟨[51, 51, 35, 97, 98, 99, 0], 7⟩ := rfl
  exact ⟨_, _, _, hread, (enough_iff hs (by decide) hread hc .newPassword).2 (show 3 < 4 by decide)⟩

/-- A password of four letters takes five bytes, and `malloc(sizeof(d->size))`
gives four. -/
theorem not_enough : ¬∀ (s : CString) (sd : StreamData), marshString s = some sd → (cstr sd.data).length ≤ 1023 →
    ∀ (d : StreamData), cstr d.data = cstr sd.data → d.size = (cstr d.data).length → ∀ k, Enough d k := by
  intro h
  have hs : marshString ⟨[97, 98, 99, 100], by decide⟩ = some ⟨[51, 52, 35, 97, 98, 99, 100, 0], 8⟩ := rfl
  obtain ⟨t, ht, hle⟩ := h _ _ hs (by decide) ⟨[51, 52, 35, 97, 98, 99, 100, 0], 7⟩ rfl rfl .newPassword cleared
  have hread : unmarshString [51, 52, 35, 97, 98, 99, 100, 0] cleared = some (some ⟨[97, 98, 99, 100], by decide⟩) := rfl
  obtain rfl := Option.some.inj (Option.some.inj (hread.symm.trans ht))
  exact absurd hle (by decide)

end Snuffin.ChildServer
