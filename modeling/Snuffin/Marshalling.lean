import Snuffin.Database
import Snuffin.ComWrapper
/-!
# The encoders (marshalling.c)

The functions that print a message into a buffer whose size they have counted
with `numPlaces`. An int is computed by `int`, which is `none` on overflow, a
buffer is the bytes `calloc` gave for it, and `sprintf` into a buffer that is
too small is `none` too. `text` is what is printed.
-/
open Lib Snuffin.ComWrapper
open Snuffin.Db (CString)

namespace Snuffin.Marshalling

/-! ## The code -/

abbrev PLAYER : UInt8 := 50
abbrev STRING : UInt8 := 51
abbrev POINT : UInt8 := 49
abbrev BOARD : UInt8 := 53
abbrev SERVER_ID : UInt8 := 56
abbrev BOOLEAN : UInt8 := 52

/-- The separator of fields, a '#'. -/
abbrev SEP : UInt8 := 35

def intMin : Int := -2147483648
def intMax : Int := 2147483647

/-- The int `v`, when there is such an int. -/
def int (v : Int) : Option Int := if intMin ≤ v ∧ v ≤ intMax then some v else none

/-- `calloc(n, 1)`. A negative count is too large a size, and any other is
taken to be granted. -/
def calloc (n : Int) : Option Bytes := if 0 ≤ n then some (List.replicate n.toNat 0) else none

/-- `sprintf(d, ..)` when it prints `s`. -/
def sprintf (d s : Bytes) : Option Bytes := if s.length < d.length then some (s ++ 0 :: d.drop (s.length + 1)) else none

/-- `numPlaces`, for at most `fuel` calls. -/
def numPlaces : Nat → Int → Option Int
  | 0, _ => none
  | fuel + 1, n =>
    if n < 0 then ((if n = intMin then some intMax else int (-n)).bind (numPlaces fuel)).bind fun k => int (k + 1)
    else if n < 10 then some 1
    else (numPlaces fuel (n.tdiv 10)).bind fun k => int (1 + k)

/-- The calls that `numPlaces` needs for an int. -/
abbrev maxCalls : Nat := 11

structure Point where
  x : Int32
  y : Int32
  deriving DecidableEq, Repr

structure Player where
  name : CString
  num : Int32
  score : Int32
  ready : Int32
  deriving DecidableEq

/-- `%d` for `POINT - '0'` and the like. -/
def kindText (kind : UInt8) : Bytes := decimal (kind.toNat - 48 : Int)

def stringText (s : CString) : Bytes := kindText STRING ++ decimal s.val.length ++ [SEP] ++ s.val

def pointText (p : Point) : Bytes := kindText POINT ++ decimal (p.x.toInt + 48) ++ [SEP] ++ decimal (p.y.toInt + 48)

def playerText (p : Player) : Bytes :=
  kindText PLAYER ++ p.name.val ++ [SEP] ++ decimal p.num.toInt ++ [SEP] ++ decimal p.score.toInt ++ [SEP] ++
    decimal p.ready.toInt

def serverIdText (id : Int32) : Bytes := kindText SERVER_ID ++ decimal id.toInt

def booleanText (value : Int32) : Bytes := kindText BOOLEAN ++ decimal value.toInt

/-- What an encoder does with `cant`: the buffer, what it prints there, and
the size it reports. No addend of `cant` is negative, so that its sums fit an
int when the last one does. -/
def printed (cant : Int) (text : Bytes) : Option StreamData :=
  (int cant).bind fun cant => (calloc cant).bind fun d => (sprintf d text).map fun d => ⟨d, cant⟩

/-- `d[cant - 1] = '\0'`. -/
def terminate (sd : StreamData) : Option StreamData :=
  if 0 < sd.size ∧ sd.size ≤ sd.data.length then some { sd with data := sd.data.set (sd.size - 1).toNat 0 } else none

def marshString (s : CString) : Option StreamData :=
  (int s.val.length).bind fun length =>
    (numPlaces maxCalls length).bind fun k => (printed (1 + 1 + 1 + length + k) (stringText s)).bind terminate

def marshPoint (p : Point) : Option StreamData :=
  (int (p.x.toInt + 48)).bind fun x =>
    (int (p.y.toInt + 48)).bind fun y =>
      (numPlaces maxCalls x).bind fun k =>
        (numPlaces maxCalls y).bind fun l => (printed (1 + 1 + 1 + k + l) (pointText p)).bind terminate

def marshPlayer (p : Player) : Option StreamData :=
  (numPlaces maxCalls p.num.toInt).bind fun k =>
    (numPlaces maxCalls p.score.toInt).bind fun l =>
      (numPlaces maxCalls p.ready.toInt).bind fun m =>
        printed (1 + p.name.val.length + 1 + k + 1 + l + 1 + m + 1) (playerText p)

def marshServerId (id : Int32) : Option StreamData :=
  (numPlaces maxCalls id.toInt).bind fun k => printed (1 + k + 1) (serverIdText id)

def marshBoolean (value : Int32) : Option StreamData :=
  (numPlaces maxCalls value.toInt).bind fun k => printed (1 + k + 1) (booleanText value)

structure Board where
  board : Nat → Nat → UInt8
  rows : Int32
  columns : Int32

def boardText (s : Board) : Bytes :=
  kindText BOARD ++ decimal s.rows.toInt ++ [SEP] ++ decimal s.columns.toInt ++ [SEP]

/-- `d2[j + i*(s->rows)] = (s->board)[i][j] + '0'`. -/
def marshCell (s : Board) (d2 : Bytes) (i j : Nat) : Option Bytes :=
  (int (i * s.rows.toInt)).bind fun k =>
    (int (j + k)).bind fun n => if n < d2.length then some (d2.set n.toNat (s.board i j + 48)) else none

/-- The two loops of `marshBoard`. -/
def marshCells (s : Board) (d2 : Bytes) : Option Bytes :=
  (List.range s.rows.toInt.toNat).foldlM
    (fun d2 i => (List.range s.columns.toInt.toNat).foldlM (fun d2 j => marshCell s d2 i j) d2) d2

/-- `strcat(d1, d2)`; behind `d2` in memory there is `heap`. -/
def strcat (d1 d2 heap : Bytes) : Option Bytes :=
  let n := (cstr d1).length
  let s := cstr (d2 ++ heap)
  if n + s.length < d1.length then some (cstr d1 ++ s ++ 0 :: d1.drop (n + s.length + 1)) else none

def marshBoard (s : Board) (heap : Bytes) : Option StreamData :=
  (numPlaces maxCalls s.rows.toInt).bind fun k =>
    (numPlaces maxCalls s.columns.toInt).bind fun l =>
      (int (s.rows.toInt * s.columns.toInt)).bind fun size2 =>
        (int (1 + 1 + 1 + 1 + k + l + size2)).bind fun size =>
          (calloc size).bind fun d1 =>
            (calloc size2).bind fun d2 =>
              (sprintf d1 (boardText s)).bind fun d1 =>
                (marshCells s d2).bind fun d2 => (strcat d1 d2 heap).map fun d1 => ⟨d1, size⟩

/-- What `marshalling` is called with, but for boards. -/
inductive Message where
  | string (s : CString)
  | point (p : Point)
  | player (p : Player)
  | serverId (id : Int32)
  | boolean (value : Int32)
  deriving DecidableEq

def marshalling : Message → Option StreamData
  | .string s => marshString s
  | .point p => marshPoint p
  | .player p => marshPlayer p
  | .serverId id => marshServerId id
  | .boolean value => marshBoolean value

/-- What is printed for a message. -/
def Message.text : Message → Bytes
  | .string s => stringText s
  | .point p => pointText p
  | .player p => playerText p
  | .serverId id => serverIdText id
  | .boolean value => booleanText value

/-- The bytes on the connection when some messages are marshalled and sent. -/
def marshalAll (ms : List Message) : Option Bytes :=
  (ms.mapM marshalling).map fun sds => sds.flatMap fun sd => sd.data.take sd.size.toNat

/-! ## Counting places -/

theorem int_eq {v : Int} (h0 : intMin ≤ v) (h1 : v ≤ intMax) : int v = some v := if_pos ⟨h0, h1⟩

theorem int_some {v w : Int} (h : int v = some w) : w = v ∧ intMin ≤ v ∧ v ≤ intMax := by
  obtain ⟨hv, h⟩ := Option.ite_none_right_eq_some.1 h
  exact ⟨(Option.some.inj h).symm, hv⟩

theorem toInt_bounds (v : Int32) : intMin ≤ v.toInt ∧ v.toInt ≤ intMax := by
  have h0 := v.le_toInt
  have h1 := v.toInt_lt
  unfold intMin intMax
  omega

/-- A positive number of `fuel` digits at most takes `fuel` calls at most. -/
theorem numPlaces_text {fuel n : Nat} (h0 : 0 < n) (hf : n < 10 ^ fuel) (hm : fuel ≤ maxCalls) :
    numPlaces fuel n = some ((text n).length : Int) := by
  induction fuel generalizing n with
  | zero => omega
  | succ fuel ih =>
    have hneg : ¬(n : Int) < 0 := by omega
    rw [numPlaces, if_neg hneg]
    by_cases h10 : (n : Int) < 10
    · have hz : n / 10 = 0 := by omega
      rw [if_pos h10, length_text h0, hz, text_zero, List.length_nil]
      rfl
    · have hdiv : (n : Int).tdiv 10 = ((n / 10 : Nat) : Int) := rfl
      have hlt : n / 10 < 10 ^ fuel := by rw [Nat.pow_succ] at hf; omega
      have hlen := length_text_le hlt
      have hk : int (1 + ((text (n / 10)).length : Int)) =
          some (1 + ((text (n / 10)).length : Int)) := by
        apply int_eq
        · unfold intMin; omega
        · unfold intMax; unfold maxCalls at hm; omega
      rw [if_neg h10, hdiv, ih (by omega) hlt (by omega), Option.bind_some, hk, length_text h0]
      congr 1
      omega

/-- `numPlaces` ends on every int, within eleven calls, and counts what `%d`
prints. -/
theorem numPlaces_decimal {n : Int} (h0 : intMin ≤ n) (h1 : n ≤ intMax) :
    numPlaces maxCalls n = some ((decimal n).length : Int) := by
  unfold intMin at h0
  unfold intMax at h1
  rcases Int.lt_trichotomy n 0 with hn | rfl | hn
  · obtain ⟨k, rfl⟩ : ∃ k : Nat, n = -(k : Int) := ⟨n.natAbs, by omega⟩
    have hk : 0 < k := by omega
    have hp : ∀ j : Nat, 0 < j → j ≤ 2147483648 → (text j).length = (text k).length →
        ((numPlaces 10 j).bind fun l => int (l + 1)) = some ((decimal (-(k : Int))).length : Int) := by
      intro j hj hle hlen
      have hl := length_text_le (show k < 10 ^ 10 by omega)
      rw [numPlaces_text hj (by omega) (by decide), Option.bind_some, hlen, decimal_neg hk, List.length_cons]
      exact int_eq (by unfold intMin; omega) (by unfold intMax; omega)
    rw [numPlaces, if_pos hn]
    by_cases hmin : -(k : Int) = intMin
    · have hk' : k = 2147483648 := by unfold intMin at hmin; omega
      rw [if_pos hmin, Option.bind_some]
      exact hp 2147483647 (by decide) (by decide) (by rw [hk']; decide)
    · have hint : int (- -(k : Int)) = some (k : Int) := by
        rw [neg_neg]
        unfold intMin at hmin
        exact int_eq (by unfold intMin; omega) (by unfold intMax; omega)
      rw [if_neg hmin, hint, Option.bind_some]
      exact hp k hk (by omega) rfl
  · decide
  · obtain ⟨k, rfl⟩ : ∃ k : Nat, n = (k : Int) := ⟨n.natAbs, by omega⟩
    have hlt : k < 10 ^ 11 := by omega
    rw [decimal_natCast (by omega)]
    exact numPlaces_text (by omega) hlt (Nat.le_refl _)

theorem numPlaces_int (v : Int32) : numPlaces maxCalls v.toInt = some ((decimal v.toInt).length : Int) :=
  numPlaces_decimal (toInt_bounds v).1 (toInt_bounds v).2

/-! ## What an encoder gives -/

/-- With a count of what is printed and its NUL, `sprintf` fills the buffer. -/
theorem printed_exact {cant : Int} {text : Bytes} (h : cant = text.length + 1) (hm : cant ≤ intMax) :
    printed cant text = some ⟨text ++ [0], cant⟩ := by
  have hint : int cant = some cant := int_eq (by unfold intMin; omega) hm
  have hcalloc : calloc cant = some (List.replicate (text.length + 1) 0) := by
    rw [calloc, if_pos (by omega)]
    congr 2
    omega
  have hprint : sprintf (List.replicate (text.length + 1) 0) text = some (text ++ [0]) := by
    rw [sprintf, if_pos (by simp)]
    simp
  rw [printed, hint, Option.bind_some, hcalloc, Option.bind_some, hprint, Option.map_some]

/-- A count that is too large is no int. -/
theorem printed_some {cant : Int} {text : Bytes} {sd : StreamData} (h : printed cant text = some sd) :
    cant ≤ intMax := by
  obtain ⟨c, hc, -⟩ := Option.bind_eq_some_iff.1 h
  exact (int_some hc).2.2

theorem terminate_exact {cant : Int} {text : Bytes} (h : cant = text.length + 1) :
    terminate ⟨text ++ [0], cant⟩ = some ⟨text ++ [0], cant⟩ := by
  have hn : (cant - 1).toNat = text.length := by omega
  rw [terminate, if_pos (by simp; omega)]
  simp [hn]

/-- The sums of a message fit an int: its coordinates with 48 added, and the
length of what is sent. -/
structure Message.Fits (m : Message) : Prop where
  coordinates : ∀ p, m = .point p → p.x.toInt + 48 ≤ intMax ∧ p.y.toInt + 48 ≤ intMax
  length : (m.text.length : Int) + 1 ≤ intMax

theorem marshString_eq (s : CString) :
    marshString s =
      (int s.val.length).bind fun _ => (printed ((stringText s).length + 1) (stringText s)).bind terminate := by
  unfold marshString
  cases hl : int (s.val.length : Int) with
  | none => rw [Option.bind_none, Option.bind_none]
  | some l =>
    obtain ⟨rfl, h0, h1⟩ := int_some hl
    have hk : kindText STRING = [STRING] := rfl
    rw [Option.bind_some, Option.bind_some, numPlaces_decimal h0 h1, Option.bind_some]
    congr 2
    simp only [stringText, hk, List.length_append, List.length_singleton]
    omega

theorem marshPoint_eq (p : Point) (hx : p.x.toInt + 48 ≤ intMax) (hy : p.y.toInt + 48 ≤ intMax) :
    marshPoint p = (printed ((pointText p).length + 1) (pointText p)).bind terminate := by
  have hx0 := (toInt_bounds p.x).1
  have hy0 := (toInt_bounds p.y).1
  have hk : kindText POINT = [POINT] := rfl
  unfold marshPoint
  rw [int_eq (by omega) hx, int_eq (by omega) hy, Option.bind_some, Option.bind_some, numPlaces_decimal (by omega) hx,
    numPlaces_decimal (by omega) hy, Option.bind_some, Option.bind_some]
  congr 2
  simp only [pointText, hk, List.length_append, List.length_singleton]
  omega

theorem marshPlayer_eq (p : Player) : marshPlayer p = printed ((playerText p).length + 1) (playerText p) := by
  have hk : kindText PLAYER = [PLAYER] := rfl
  unfold marshPlayer
  rw [numPlaces_int, numPlaces_int, numPlaces_int, Option.bind_some, Option.bind_some, Option.bind_some]
  congr 1
  simp only [playerText, hk, List.length_append, List.length_singleton]
  omega

theorem marshServerId_eq (id : Int32) : marshServerId id = printed ((serverIdText id).length + 1) (serverIdText id) := by
  have hk : kindText SERVER_ID = [SERVER_ID] := rfl
  unfold marshServerId
  rw [numPlaces_int, Option.bind_some]
  congr 1
  simp only [serverIdText, hk, List.length_append, List.length_singleton]
  omega

theorem marshBoolean_eq (v : Int32) : marshBoolean v = printed ((booleanText v).length + 1) (booleanText v) := by
  have hk : kindText BOOLEAN = [BOOLEAN] := rfl
  unfold marshBoolean
  rw [numPlaces_int, Option.bind_some]
  congr 1
  simp only [booleanText, hk, List.length_append, List.length_singleton]
  omega

/-- A message whose sums fit an int is printed exactly into its buffer. -/
theorem Message.Fits.marshalling {m : Message} (h : m.Fits) :
    marshalling m = some ⟨m.text ++ [0], m.text.length + 1⟩ := by
  have hp := printed_exact rfl h.length
  have ht : terminate ⟨m.text ++ [0], m.text.length + 1⟩ = _ := terminate_exact rfl
  cases m with
  | string s =>
    have hint : int (s.val.length : Int) = some (s.val.length : Int) := by
      refine int_eq (by unfold intMin; omega) ?_
      have hl := h.length
      simp only [Message.text, stringText, List.length_append] at hl
      omega
    show marshString s = _
    rw [marshString_eq, hint, Option.bind_some]
    exact (congrArg (·.bind terminate) hp).trans ht
  | point p =>
    obtain ⟨hx, hy⟩ := h.coordinates p rfl
    show marshPoint p = _
    rw [marshPoint_eq p hx hy]
    exact (congrArg (·.bind terminate) hp).trans ht
  | player p => exact (marshPlayer_eq p).trans hp
  | serverId id => exact (marshServerId_eq id).trans hp
  | boolean v => exact (marshBoolean_eq v).trans hp

/-- Any other message is not marshalled. -/
theorem Message.fits_of_marshalling {m : Message} {sd : StreamData} (h : Marshalling.marshalling m = some sd) : m.Fits := by
  cases m with
  | string s =>
    have h' : marshString s = some sd := h
    rw [marshString_eq] at h'
    obtain ⟨_, -, h'⟩ := Option.bind_eq_some_iff.1 h'
    obtain ⟨_, hp, -⟩ := Option.bind_eq_some_iff.1 h'
    exact ⟨by simp, printed_some hp⟩
  | point p =>
    have h' : marshPoint p = some sd := h
    unfold marshPoint at h'
    obtain ⟨x, hx, h₁⟩ := Option.bind_eq_some_iff.1 h'
    obtain ⟨y, hy, -⟩ := Option.bind_eq_some_iff.1 h₁
    have hx' := (int_some hx).2.2
    have hy' := (int_some hy).2.2
    have hm : marshPoint p = some sd := h
    rw [marshPoint_eq p hx' hy'] at hm
    obtain ⟨_, hp, -⟩ := Option.bind_eq_some_iff.1 hm
    exact ⟨fun q hq => by cases hq; exact ⟨hx', hy'⟩, printed_some hp⟩
  | player p => exact ⟨by simp, printed_some ((marshPlayer_eq p).symm.trans h)⟩
  | serverId id => exact ⟨by simp, printed_some ((marshServerId_eq id).symm.trans h)⟩
  | boolean v => exact ⟨by simp, printed_some ((marshBoolean_eq v).symm.trans h)⟩

/-- The separator is not the NUL. -/
@[simp] theorem zero_ne_SEP : (0 : UInt8) ≠ SEP := by decide

theorem Message.text_nul (m : Message) : (0 : UInt8) ∉ m.text := by
  have hd := decimal_nul
  have hk : ∀ k : UInt8, (0 : UInt8) ∉ kindText k := fun k => decimal_nul _
  cases m with
  | string s => simp [Message.text, stringText, hd, hk, s.property]
  | point p => simp [Message.text, pointText, hd, hk]
  | player p => simp [Message.text, playerText, hd, hk, p.name.property]
  | serverId id => simp [Message.text, serverIdText, hd, hk]
  | boolean v => simp [Message.text, booleanText, hd, hk]

/-- A text that ends at its only NUL. -/
theorem getElem?_terminated {s : Bytes} (h : (0 : UInt8) ∉ s) (i : Nat) : (s ++ [0])[i]? = some 0 ↔ i = s.length := by
  rcases Nat.lt_trichotomy i s.length with hi | rfl | hi
  · rw [List.getElem?_append_left hi]
    exact ⟨fun hz => absurd (List.mem_of_getElem? hz) h, fun e => by omega⟩
  · simp
  · rw [List.getElem?_eq_none (by simp; omega)]
    exact ⟨fun hz => absurd hz (by simp), fun e => by omega⟩

/-- Every message whose sums fit an int is marshalled; the buffer, the size
that is reported and what `sprintf` writes, its NUL included, are equally
long, and the NUL is the last byte and no other. `numPlaces` ends on every int
without overflow and gives the length of what `%d` prints. -/
theorem marshalling_exact :
    (∀ m : Message, m.Fits → ∃ sd, marshalling m = some sd ∧ (sd.data.length : Int) = sd.size ∧
      (m.text.length : Int) + 1 = sd.size ∧ m.text = sd.data.take m.text.length ∧
      ∀ i : Nat, sd.data[i]? = some 0 ↔ (i : Int) + 1 = sd.size) ∧
    ∀ n, intMin ≤ n → n ≤ intMax → numPlaces maxCalls n = some ((decimal n).length : Int) := by
  refine ⟨fun m h => ⟨_, h.marshalling, by simp, rfl, by simp, fun i => ?_⟩, fun n h0 h1 => numPlaces_decimal h0 h1⟩
  rw [getElem?_terminated m.text_nul]
  show i = m.text.length ↔ (i : Int) + 1 = (m.text.length : Int) + 1
  omega

/-- The id INT_MIN takes 13 bytes. -/
theorem marshalling_exact_min : ∃ sd, marshalling (.serverId Int32.minValue) = some sd ∧ sd.size = 13 ∧
    (sd.data[12]? = some 0 ↔ ((12 : Nat) : Int) + 1 = sd.size) ∧ numPlaces maxCalls intMin = some 11 := by
  obtain ⟨sd, hsd, -, hsize, -, hnul⟩ := marshalling_exact.1 (.serverId Int32.minValue) ⟨by simp, by decide⟩
  exact ⟨sd, hsd, by rw [← hsize]; decide, hnul 12, marshalling_exact.2 intMin (by decide) (by decide)⟩

/-! ## Reading a stream of messages back -/

theorem sep_decimal (v : Int) : SEP ∉ decimal v := by
  intro h
  rcases mem_decimal h with h | h
  · exact absurd h (by decide)
  · exact absurd h (by decide)

/-! The first byte is the kind. -/

theorem stringText_eq (s : CString) : stringText s = STRING :: (decimal s.val.length ++ SEP :: s.val) := by
  simp [stringText, show kindText STRING = [STRING] from rfl]

theorem pointText_eq (p : Point) :
    pointText p = POINT :: (decimal (p.x.toInt + 48) ++ SEP :: decimal (p.y.toInt + 48)) := by
  simp [pointText, show kindText POINT = [POINT] from rfl]

/-- A player is best read from its end, where no field has a separator. -/
theorem playerText_eq (p : Player) :
    playerText p = PLAYER :: (((p.name.val ++ SEP :: decimal p.num.toInt) ++ SEP :: decimal p.score.toInt) ++
      SEP :: decimal p.ready.toInt) := by
  simp [playerText, show kindText PLAYER = [PLAYER] from rfl]

theorem decimal_toInt_inj {v w : Int32} (h : decimal v.toInt = decimal w.toInt) : v = w :=
  Int32.toInt_inj.1 (decimal_injective h)

theorem stringText_inj {s t : CString} (h : stringText s = stringText t) : s = t := by
  rw [stringText_eq, stringText_eq] at h
  exact Subtype.ext (sep_left_inj (sep_decimal _) (sep_decimal _) (List.cons.inj h).2).2

theorem pointText_inj {p q : Point} (h : pointText p = pointText q) : p = q := by
  rw [pointText_eq, pointText_eq] at h
  obtain ⟨hx, hy⟩ := sep_left_inj (sep_decimal _) (sep_decimal _) (List.cons.inj h).2
  have hx' : p.x = q.x := Int32.toInt_inj.1 (by have := decimal_injective hx; omega)
  have hy' : p.y = q.y := Int32.toInt_inj.1 (by have := decimal_injective hy; omega)
  obtain ⟨x, y⟩ := p
  rw [Point.mk.injEq]
  exact ⟨hx', hy'⟩

theorem playerText_inj {p q : Player} (h : playerText p = playerText q) : p = q := by
  rw [playerText_eq, playerText_eq] at h
  obtain ⟨h, hready⟩ := sep_right_inj (sep_decimal _) (sep_decimal _) (List.cons.inj h).2
  obtain ⟨h, hscore⟩ := sep_right_inj (sep_decimal _) (sep_decimal _) h
  obtain ⟨hname, hnum⟩ := sep_right_inj (sep_decimal _) (sep_decimal _) h
  obtain ⟨name, num, score, ready⟩ := p
  obtain ⟨name', num', score', ready'⟩ := q
  rw [Player.mk.injEq]
  exact ⟨Subtype.ext hname, decimal_toInt_inj hnum, decimal_toInt_inj hscore, decimal_toInt_inj hready⟩

/-- The kind of a message, its first byte. -/
def Message.kind : Message → UInt8
  | .string _ => STRING
  | .point _ => POINT
  | .player _ => PLAYER
  | .serverId _ => SERVER_ID
  | .boolean _ => BOOLEAN

theorem Message.head_text (m : Message) : m.text.head? = some m.kind := by
  cases m <;> rfl

theorem text_injective : Function.Injective Message.text := by
  intro m m' h
  have hkind : m.kind = m'.kind := by
    have hh := congrArg List.head? h
    rw [m.head_text, m'.head_text] at hh
    exact Option.some.inj hh
  cases m <;> cases m' <;> try exact absurd hkind (of_decide_eq_false rfl)
  case string.string s t => rw [stringText_inj h]
  case point.point p q => rw [pointText_inj h]
  case player.player p q => rw [playerText_inj h]
  case serverId.serverId v w => rw [decimal_toInt_inj (List.cons.inj h).2]
  case boolean.boolean v w => rw [decimal_toInt_inj (List.cons.inj h).2]

theorem Message.sent {m : Message} {sd : StreamData} (h : Marshalling.marshalling m = some sd) :
    sd.data.take sd.size.toNat = m.text ++ [0] := by
  have hm := h
  rw [(m.fits_of_marshalling h).marshalling, Option.some.injEq] at hm
  have hsize : ((m.text.length : Int) + 1).toNat = (m.text ++ [0]).length := by
    rw [List.length_append, List.length_singleton]
    omega
  rw [← hm]
  show List.take ((m.text.length : Int) + 1).toNat _ = _
  rw [hsize, List.take_length]

/-- The bytes on the connection are the texts, each with its NUL. -/
theorem marshalAll_wire {ms : List Message} {w : Bytes} (h : marshalAll ms = some w) : w = wire 0 (ms.map Message.text) := by
  induction ms generalizing w with
  | nil =>
    rw [← Option.some.inj (h : some [] = some w)]
    rfl
  | cons m ms ih =>
    obtain ⟨sds, hs, rfl⟩ := Option.map_eq_some_iff.1 h
    rw [List.mapM_cons] at hs
    obtain ⟨sd, hm, hs⟩ := Option.bind_eq_some_iff.1 hs
    obtain ⟨sds', hms, hs⟩ := Option.bind_eq_some_iff.1 hs
    rw [← Option.some.inj hs, List.map_cons, wire_cons, List.flatMap_cons, m.sent hm,
      ih (Option.map_eq_some_iff.2 ⟨sds', hms, rfl⟩), List.append_assoc, List.singleton_append]

/-- Two lists of messages that give the same bytes are the same list. -/
theorem marshalAll_unique {ms ms' : List Message} {w : Bytes} (h : marshalAll ms = some w)
    (h' : marshalAll ms' = some w) : ms = ms' := by
  have hw := marshalAll_wire h
  have hw' := marshalAll_wire h'
  have hnul : ∀ ms : List Message, ∀ t ∈ ms.map Message.text, (0 : UInt8) ∉ t := by
    intro ms t ht
    obtain ⟨m, -, rfl⟩ := List.mem_map.1 ht
    exact m.text_nul
  have htexts : ms.map Message.text = ms'.map Message.text := by
    rw [← frames_wire (hnul ms), ← frames_wire (hnul ms'), ← hw, ← hw']
  exact List.map_injective_iff.2 text_injective htexts

/-- A string with a separator in it and a player with two in its name, one
after the other. -/
def greeting : List Message :=
  [.string ⟨[35, 49], by decide⟩, .player ⟨⟨[97, 35, 35], by decide⟩, 2, -1, 0⟩]

/-- Its bytes, which no other list gives. -/
theorem marshalAll_unique_greeting :
    marshalAll greeting = some [51, 50, 35, 35, 49, 0, 50, 97, 35, 35, 35, 50, 35, 45, 49, 35, 48, 0] ∧
      ∀ ms, marshalAll ms = marshalAll greeting → ms = greeting := by
  have h : marshalAll greeting = some _ := rfl
  exact ⟨h, fun ms h' => marshalAll_unique (h'.trans h) h⟩

end Snuffin.Marshalling
