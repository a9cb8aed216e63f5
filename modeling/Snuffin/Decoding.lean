import Snuffin.Unmarshalling
/-!
# What the decoders promise

A decoder is safe on a message when it stays inside the message and its
arrays, and refuses what its encoder does not produce. It looks at the first
byte only, so it is safe on what is addressed to it exactly when the message
is a produced one whose fields fit the arrays.
-/
open Lib Snuffin.ComWrapper
open Snuffin.Db (CString)

namespace Snuffin.Marshalling

inductive Decoder where
  | string
  | point
  | serverId
  | player
  | board
  | boolean
  deriving DecidableEq, Repr

/-- The return value of a decoder, and the bytes that it copied to where the
caller wants the string. -/
structure Returned where
  code : Bool
  copied : Nat

/-- A decoder on a message with its NUL. -/
def unmarsh (data : Bytes) (l : Locals) : Decoder → Option Returned
  | .string => (unmarshString data l).map fun o => ⟨o.isSome, o.elim 0 fun s => s.val.length + 1⟩
  | .point => (unmarshPoint data l).map fun o => ⟨o.isSome, 0⟩
  | .serverId => (unmarshServerId data l).map fun o => ⟨o.isSome, 0⟩
  | .player => (unmarshPlayer data l).map fun o => ⟨o.isSome, o.elim 0 fun p => p.name.val.length + 1⟩
  | .board => (unmarshBoard data l).map fun o => ⟨o.isSome, 0⟩
  | .boolean => (unmarshBoolean data).map fun o => ⟨o.isSome, 0⟩

/-- The message is one that the decoder's encoder produces. -/
def Form (m : Bytes) : Decoder → Prop
  | .string => ∃ s sd, marshString s = some sd ∧ cstr sd.data = m
  | .point => ∃ p sd, marshPoint p = some sd ∧ cstr sd.data = m
  | .serverId => ∃ id sd, marshServerId id = some sd ∧ cstr sd.data = m
  | .player => ∃ p sd, marshPlayer p = some sd ∧ cstr sd.data = m
  | .board => ∃ s heap sd, marshBoard s heap = some sd ∧ cstr sd.data = m
  | .boolean => ∃ v sd, marshBoolean v = some sd ∧ cstr sd.data = m

/-- The decoder ends without an access that it must not make, copies no more
than `dest` bytes to the caller, and returns 0 when the message does not have
the form of its encoder. -/
def Safe (m : CString) (l : Locals) (dest : Nat) (k : Decoder) : Prop :=
  ∃ r, unmarsh (m.val ++ [0]) l k = some r ∧ r.copied ≤ dest ∧ (¬Form m.val k → r.code = false)

def Decoder.kind : Decoder → UInt8
  | .string => STRING
  | .point => POINT
  | .serverId => SERVER_ID
  | .player => PLAYER
  | .board => BOARD
  | .boolean => BOOLEAN

/-- The message begins as the decoder wants it to. -/
def Addressed (m : Bytes) : Decoder → Prop
  | .boolean => ∃ x rest, m = BOOLEAN :: x :: rest ∧ (x = 48 ∨ x = 49)
  | k => ∃ r, m = k.kind :: r

/-- The fields between the separators fit the arrays; a name that goes on in
what `nombre` held fits the caller's buffer; and the cells of a board fit the
rows and columns that its header gives, which goes on in what the arrays held
too. -/
def Fits (m : Bytes) (l : Locals) (dest : Nat) : Decoder → Prop
  | .string => ∃ a s, SEP ∉ a ∧ m = STRING :: (a ++ SEP :: s) ∧ a.length ≤ 5
  | .point => ∃ a b, SEP ∉ a ∧ m = POINT :: (a ++ SEP :: b) ∧ a.length ≤ 5 ∧ b.length ≤ 5
  | .serverId => ∃ a, m = SERVER_ID :: a ∧ a.length ≤ 5
  | .player => ∃ a b c d, SEP ∉ a ∧ SEP ∉ b ∧ SEP ∉ c ∧ m = PLAYER :: (a ++ SEP :: (b ++ SEP :: (c ++ SEP :: d))) ∧
      a.length ≤ 20 ∧ b.length ≤ 5 ∧ c.length ≤ 5 ∧ d.length ≤ 5 ∧ (cstr (l.nombre.over a)).length < dest
  | .board => ∃ a b cells, SEP ∉ a ∧ SEP ∉ b ∧ m = BOARD :: (a ++ SEP :: (b ++ SEP :: cells)) ∧
      a.length ≤ 5 ∧ b.length ≤ 5 ∧
      (cells = [] ∨ 0 < (Int32.ofInt (strtol (l.num2.over b))).toInt ∧
        (cells.length : Int) ≤
          (Int32.ofInt (strtol (l.num.over a))).toInt * (Int32.ofInt (strtol (l.num2.over b))).toInt)
  | .boolean => True

/-! ## When a decoder is safe -/

/-- A decoder that returns 0 on what is not addressed to it and 1 on the rest
has to rely on the form of the rest. -/
theorem safe_of {m : CString} {l : Locals} {dest : Nat} {k : Decoder}
    (hno : ¬Addressed m.val k → unmarsh (m.val ++ [0]) l k = some ⟨false, 0⟩)
    (hyes : Addressed m.val k → ∀ r, unmarsh (m.val ++ [0]) l k = some r → r.code = true)
    (hfits : Addressed m.val k → Form m.val k →
      ((∃ r, unmarsh (m.val ++ [0]) l k = some r ∧ r.copied ≤ dest) ↔ Fits m.val l dest k)) :
    Safe m l dest k ↔ (Addressed m.val k → Form m.val k ∧ Fits m.val l dest k) := by
  constructor
  · rintro ⟨r, hr, hcopied, hform⟩ ha
    have hf : Form m.val k := by
      by_contra hf
      exact Bool.noConfusion ((hform hf).symm.trans (hyes ha r hr))
    exact ⟨hf, (hfits ha hf).1 ⟨r, hr, hcopied⟩⟩
  · intro h
    by_cases ha : Addressed m.val k
    · obtain ⟨hf, hfit⟩ := h ha
      obtain ⟨r, hr, hcopied⟩ := (hfits ha hf).2 hfit
      exact ⟨r, hr, hcopied, fun hn => absurd hf hn⟩
    · exact ⟨_, hno ha, Nat.zero_le _, fun _ => rfl⟩

theorem head_of_not_addressed {m : Bytes} {kind : UInt8} (h : ¬∃ r, m = kind :: r) (h0 : kind ≠ 0) :
    (m ++ [0]).head? ≠ some kind := by
  cases m with
  | nil => simpa using h0.symm
  | cons x m =>
    intro he
    exact h ⟨m, by rw [← Option.some.inj he]⟩

/-- A decoder that looks at the first byte refuses what is not addressed to
it. -/
theorem refuses {m : Bytes} {l : Locals} {k : Decoder} (hk : k ≠ .boolean) (ha : ¬Addressed m k) :
    unmarsh (m ++ [0]) l k = some ⟨false, 0⟩ := by
  cases k with
  | string | point | serverId | player | board =>
    have hh := head_of_not_addressed ha (by decide)
    exact Option.map_eq_some_iff.2 ⟨none, if_pos hh, rfl⟩
  | boolean => exact absurd rfl hk

theorem nul_of_cons {x : UInt8} {r : Bytes} (h : (0 : UInt8) ∉ x :: r) : (0 : UInt8) ∉ r :=
  fun hm => h (List.mem_cons_of_mem _ hm)

theorem safe_serverId (m : CString) (l : Locals) (dest : Nat) :
    Safe m l dest .serverId ↔ (Addressed m.val .serverId → Form m.val .serverId ∧ Fits m.val l dest .serverId) := by
  obtain ⟨m, hm⟩ := m
  refine safe_of (refuses (by simp)) ?_ ?_
  · rintro ⟨r, rfl⟩ ret hret
    obtain ⟨o, ho, rfl⟩ := Option.map_eq_some_iff.1 hret
    obtain ⟨-, rfl⟩ := (unmarshServerId_eq_some (nul_of_cons hm) l o).1 ho
    rfl
  · rintro ⟨r, rfl⟩ -
    constructor
    · rintro ⟨ret, hret, -⟩
      obtain ⟨o, ho, -⟩ := Option.map_eq_some_iff.1 hret
      exact ⟨r, rfl, ((unmarshServerId_eq_some (nul_of_cons hm) l o).1 ho).1⟩
    · rintro ⟨a, ha, hl⟩
      obtain rfl := (List.cons.inj ha).2
      exact ⟨_, Option.map_eq_some_iff.2 ⟨_, (unmarshServerId_eq_some (nul_of_cons hm) l _).2 ⟨hl, rfl⟩, rfl⟩,
        Nat.zero_le _⟩

theorem safe_point (m : CString) (l : Locals) (dest : Nat) :
    Safe m l dest .point ↔ (Addressed m.val .point → Form m.val .point ∧ Fits m.val l dest .point) := by
  obtain ⟨m, hm⟩ := m
  refine safe_of (refuses (by simp)) ?_ ?_
  · rintro ⟨r, rfl⟩ ret hret
    obtain ⟨o, ho, rfl⟩ := Option.map_eq_some_iff.1 hret
    obtain ⟨a, b, -, -, -, -, rfl⟩ := (unmarshPoint_eq_some (nul_of_cons hm) l o).1 ho
    rfl
  · rintro ⟨r, rfl⟩ -
    constructor
    · rintro ⟨ret, hret, -⟩
      obtain ⟨o, ho, -⟩ := Option.map_eq_some_iff.1 hret
      obtain ⟨a, b, ha, rfl, hla, hlb, -⟩ := (unmarshPoint_eq_some (nul_of_cons hm) l o).1 ho
      exact ⟨a, b, ha, rfl, hla, hlb⟩
    · rintro ⟨a, b, ha, hr, hla, hlb⟩
      obtain rfl := (List.cons.inj hr).2
      exact ⟨_, Option.map_eq_some_iff.2
        ⟨_, (unmarshPoint_eq_some (nul_of_cons hm) l _).2 ⟨a, b, ha, rfl, hla, hlb, rfl⟩, rfl⟩, Nat.zero_le _⟩

theorem safe_player (m : CString) (l : Locals) (dest : Nat) :
    Safe m l dest .player ↔ (Addressed m.val .player → Form m.val .player ∧ Fits m.val l dest .player) := by
  obtain ⟨m, hm⟩ := m
  refine safe_of (refuses (by simp)) ?_ ?_
  · rintro ⟨r, rfl⟩ ret hret
    obtain ⟨o, ho, rfl⟩ := Option.map_eq_some_iff.1 hret
    obtain ⟨a, b, c, d, -, -, -, -, -, -, -, -, rfl⟩ := (unmarshPlayer_eq_some (nul_of_cons hm) l o).1 ho
    rfl
  · rintro ⟨r, rfl⟩ -
    constructor
    · rintro ⟨ret, hret, hcopied⟩
      obtain ⟨o, ho, rfl⟩ := Option.map_eq_some_iff.1 hret
      obtain ⟨a, b, c, d, ha, hb, hc, rfl, hla, hlb, hlc, hld, rfl⟩ :=
        (unmarshPlayer_eq_some (nul_of_cons hm) l o).1 ho
      exact ⟨a, b, c, d, ha, hb, hc, rfl, hla, hlb, hlc, hld, hcopied⟩
    · rintro ⟨a, b, c, d, ha, hb, hc, hr, hla, hlb, hlc, hld, hcopied⟩
      obtain rfl := (List.cons.inj hr).2
      exact ⟨_, Option.map_eq_some_iff.2 ⟨_, (unmarshPlayer_eq_some (nul_of_cons hm) l _).2
        ⟨a, b, c, d, ha, hb, hc, rfl, hla, hlb, hlc, hld, rfl⟩, rfl⟩, hcopied⟩

theorem safe_board (m : CString) (l : Locals) (dest : Nat) :
    Safe m l dest .board ↔ (Addressed m.val .board → Form m.val .board ∧ Fits m.val l dest .board) := by
  obtain ⟨m, hm⟩ := m
  refine safe_of (refuses (by simp)) ?_ ?_
  · rintro ⟨r, rfl⟩ ret hret
    obtain ⟨o, ho, rfl⟩ := Option.map_eq_some_iff.1 hret
    obtain ⟨a, b, cells, -, -, -, -, -, board, rfl, -⟩ := (unmarshBoard_eq_some (nul_of_cons hm) l o).1 ho
    rfl
  · rintro ⟨r, rfl⟩ -
    constructor
    · rintro ⟨ret, hret, -⟩
      obtain ⟨o, ho, -⟩ := Option.map_eq_some_iff.1 hret
      obtain ⟨a, b, cells, ha, hb, rfl, hla, hlb, board, -, hfill⟩ := (unmarshBoard_eq_some (nul_of_cons hm) l o).1 ho
      have hn := nul_tail (nul_tail (nul_of_cons hm))
      exact ⟨a, b, cells, ha, hb, rfl, hla, hlb, (fillBoard_start hn _).1 (Option.isSome_of_eq_some hfill)⟩
    · rintro ⟨a, b, cells, ha, hb, hr, hla, hlb, hcells⟩
      obtain rfl := (List.cons.inj hr).2
      have hn := nul_tail (nul_tail (nul_of_cons hm))
      obtain ⟨board, hfill⟩ := Option.isSome_iff_exists.1 ((fillBoard_start hn fun _ _ => 0).2 hcells)
      exact ⟨_, Option.map_eq_some_iff.2 ⟨_, (unmarshBoard_eq_some (nul_of_cons hm) l _).2
        ⟨a, b, cells, ha, hb, rfl, hla, hlb, board, rfl, hfill⟩, rfl⟩, Nat.zero_le _⟩

/-- What an encoder of text gives is the text. -/
theorem Message.cstr_text {m : Message} {sd : StreamData} (h : Marshalling.marshalling m = some sd) :
    cstr sd.data = m.text := by
  have hm := h
  rw [(m.fits_of_marshalling h).marshalling, Option.some.injEq] at hm
  rw [← hm]
  exact cstr_append m.text_nul []

/-- The length that a string is sent with is never read as less, so that the
string fits `aux`. -/
theorem safe_string (m : CString) (l : Locals) {dest : Nat} (hdest : m.val.length < dest) :
    Safe m l dest .string ↔ (Addressed m.val .string → Form m.val .string ∧ Fits m.val l dest .string) := by
  obtain ⟨m, hm⟩ := m
  refine safe_of (refuses (by simp)) ?_ ?_
  · rintro ⟨r, rfl⟩ ret hret
    obtain ⟨o, ho, rfl⟩ := Option.map_eq_some_iff.1 hret
    obtain ⟨a, s, -, -, -, -, rfl⟩ := (unmarshString_eq_some (nul_of_cons hm) l o).1 ho
    rfl
  · rintro ⟨r, rfl⟩ ⟨s, sd, hs, htext⟩
    have hr : STRING :: r = stringText s := htext.symm.trans (Message.cstr_text (m := .string s) hs)
    rw [stringText_eq] at hr
    obtain rfl := (List.cons.inj hr).2
    constructor
    · rintro ⟨ret, hret, -⟩
      obtain ⟨o, ho, -⟩ := Option.map_eq_some_iff.1 hret
      obtain ⟨a, s', ha, hr, hla, -, -⟩ := (unmarshString_eq_some (nul_of_cons hm) l o).1 ho
      exact ⟨a, s', ha, by rw [← hr]; rfl, hla⟩
    · rintro ⟨a, s', ha, hr, hla⟩
      obtain ⟨rfl, rfl⟩ := sep_left_inj (sep_decimal _) ha (List.cons.inj hr).2
      have hle := le_strtol_decimal hla (l.num.held.drop (decimal s.val.length).length ++ l.num.after)
      rw [← List.append_assoc] at hle
      refine ⟨_, Option.map_eq_some_iff.2 ⟨_, (unmarshString_eq_some (nul_of_cons hm) l _).2
        ⟨_, s.val, sep_decimal _, rfl, hla, hle, rfl⟩, rfl⟩, ?_⟩
      show (cstr s.val).length + 1 ≤ dest
      rw [cstr_eq_self.2 s.property]
      simp only [List.length_cons, List.length_append] at hdest
      omega

/-- Two bytes of a message decide whether it is a boolean. -/
theorem refuses_boolean {m : Bytes} (ha : ¬Addressed m .boolean) : unmarshBoolean (m ++ [0]) = some none := by
  have hread : ∀ x rest, m ++ [0] = BOOLEAN :: x :: rest → x ≠ 48 → x ≠ 49 → unmarshBoolean (m ++ [0]) = some none := by
    intro x rest h h48 h49
    rw [h, unmarshBoolean, if_neg (by simp)]
    simp [h48, h49]
  match m with
  | [] => rfl
  | [x] =>
    by_cases hx : x = BOOLEAN
    · subst hx; exact hread 0 [] rfl (by decide) (by decide)
    · exact if_pos (by simpa using hx)
  | x :: y :: rest =>
    by_cases hx : x = BOOLEAN
    · subst hx
      exact hread y _ rfl (fun h => ha ⟨y, rest, rfl, .inl h⟩) (fun h => ha ⟨y, rest, rfl, .inr h⟩)
    · exact if_pos (by simpa using hx)

theorem safe_boolean (m : CString) (l : Locals) (dest : Nat) :
    Safe m l dest .boolean ↔ (Addressed m.val .boolean → Form m.val .boolean ∧ Fits m.val l dest .boolean) := by
  obtain ⟨m, hm⟩ := m
  refine safe_of (fun ha => Option.map_eq_some_iff.2 ⟨none, refuses_boolean ha, rfl⟩) ?_ ?_
  · rintro ⟨x, rest, rfl, rfl | rfl⟩ ret hret <;>
      rw [← Option.some.inj (show some ⟨true, 0⟩ = some ret from hret)]
  · rintro ⟨x, rest, rfl, rfl | rfl⟩ - <;>
      exact ⟨fun _ => trivial, fun _ => ⟨_, rfl, Nat.zero_le _⟩⟩

/-- A decoder is safe exactly when the messages addressed to it have the form
of its encoder and fields that fit. -/
theorem safe_iff (k : Decoder) (m : CString) (l : Locals) {dest : Nat} (hdest : m.val.length < dest) :
    Safe m l dest k ↔ (Addressed m.val k → Form m.val k ∧ Fits m.val l dest k) := by
  cases k with
  | string => exact safe_string m l hdest
  | point => exact safe_point m l dest
  | serverId => exact safe_serverId m l dest
  | player => exact safe_player m l dest
  | board => exact safe_board m l dest
  | boolean => exact safe_boolean m l dest

/-- Arrays that hold NULs, with NULs behind them. -/
def cleared : Locals where
  nombre := ⟨List.replicate 20 0, [], by simp⟩
  num := ⟨List.replicate 5 0, [], by simp⟩
  num2 := ⟨List.replicate 5 0, [], by simp⟩
  num3 := ⟨List.replicate 5 0, [], by simp⟩

/-- The message "85". -/
theorem safe_iff_five : Safe ⟨[56, 53], by decide⟩ cleared 1024 .serverId :=
  (safe_iff .serverId ⟨[56, 53], by decide⟩ cleared (by decide)).2 fun _ => ⟨⟨5, _, rfl, rfl⟩, [53], rfl, by decide⟩

/-- Even with clean arrays, a string without separator is read past its NUL
("3a"), a long id is written past `num` ("8123456"), a board without columns
divides by zero ("51#0#x") and one with too many cells is written past its
rows ("51#1#xy"). -/
theorem unsafe_messages : ¬(∀ (k : Decoder) (m : CString) (l : Locals) (dest : Nat),
      m.val.length ≤ 1023 → m.val.length < dest → Safe m l dest k) ∧
    unmarshString [51, 97, 0] cleared = none ∧
    unmarshServerId [56, 49, 50, 51, 52, 53, 54, 0] cleared = none ∧
    unmarshBoard [53, 49, 35, 48, 35, 120, 0] cleared = none ∧
    unmarshBoard [53, 49, 35, 49, 35, 120, 121, 0] cleared = none := by
  refine ⟨fun h => ?_, rfl, rfl, rfl, rfl⟩
  obtain ⟨r, hr, -⟩ := h .string ⟨[51, 97], by decide⟩ cleared 1024 (by decide) (by decide)
  cases (show none = some r from hr)

end Snuffin.Marshalling
