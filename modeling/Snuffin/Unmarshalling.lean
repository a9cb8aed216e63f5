import Snuffin.Marshalling
/-!
# The decoders (marshalling.c)

The functions that copy the fields of a message into local arrays and read
numbers from these. A decoder gets the message with its NUL and what its
arrays hold on entry. `none` is an access that it must not make: a byte behind
the NUL of the message, a byte behind an array that it writes to, or a
division by zero. `some none` is the return value 0.
-/
open Lib Snuffin.ComWrapper
open Snuffin.Db (CString)

namespace Snuffin.Marshalling

/-! ## The code -/

/-- An array of `n` bytes on the stack, and what lies behind it up to a NUL. -/
structure Scratch (n : Nat) where
  held : Bytes
  after : Bytes
  size : held.length = n

/-- The local arrays of the decoders, each of which uses some of them. -/
structure Locals where
  nombre : Scratch 20
  num : Scratch 5
  num2 : Scratch 5
  num3 : Scratch 5

/-- The string that some bytes start with. -/
def cstring (b : Bytes) : CString := ⟨cstr b, fun h => by simpa using List.mem_takeWhile_imp h⟩

/-- `(int) strtol(num, &endptr, 10)`. -/
def number (num after : Bytes) : Int32 := Int32.ofInt (strtol (num ++ after))

def unmarshPlayer (data : Bytes) (l : Locals) : Option (Option Player) :=
  if data.head? ≠ some PLAYER then some none
  else
    (copyUntil SEP data.tail 0 l.nombre.held).bind fun (nombre, data) =>
      (copyUntil SEP data 0 l.num.held).bind fun (num, data) =>
        (copyUntil SEP data 0 l.num2.held).bind fun (num2, data) =>
          (copyUntil 0 data 0 l.num3.held).map fun (num3, _) =>
            some ⟨cstring (nombre ++ l.nombre.after), number num l.num.after, number num2 l.num2.after,
              number num3 l.num3.after⟩

def unmarshServerId (data : Bytes) (l : Locals) : Option (Option Int32) :=
  if data.head? ≠ some SERVER_ID then some none
  else (copyUntil 0 data.tail 0 l.num.held).map fun (num, _) => some (number num l.num.after)

/-- Both coordinates are copied into `num`. -/
def unmarshPoint (data : Bytes) (l : Locals) : Option (Option Point) :=
  if data.head? ≠ some POINT then some none
  else
    (copyUntil SEP data.tail 0 l.num.held).bind fun (num, data) =>
      (copyUntil 0 data 0 num).map fun (num', _) =>
        some ⟨number num l.num.after - 48, number num' l.num.after - 48⟩

/-- `aux` is as long as the message says. `strlen(aux)` needs a NUL in it. -/
def unmarshString (data : Bytes) (l : Locals) : Option (Option CString) :=
  if data.head? ≠ some STRING then some none
  else
    (copyUntil SEP data.tail 0 l.num.held).bind fun (num, data) =>
      (calloc (strtol (num ++ l.num.after) + 1)).bind fun aux =>
        (copyUntil 0 data 0 aux).bind fun (aux, _) => (strlen aux).map fun _ => some (cstring aux)

def unmarshBoolean (data : Bytes) : Option (Option Int32) :=
  if data.head? ≠ some BOOLEAN then some none
  else
    match data[1]? with
    | none => none
    | some x => if x = 49 then some (some 1) else if x = 48 then some (some 0) else some none

/-- `board[k][j] = x`. -/
def writeCell (board : Nat → Nat → UInt8) (k j : Nat) (x : UInt8) : Nat → Nat → UInt8 :=
  Function.update board k (Function.update (board k) j x)

/-- The loop of `unmarshBoard` that fills the `f` rows of `c` cells. -/
def fillBoard (f c : Int) : Bytes → Int → Int → Int → (Nat → Nat → UInt8) → Option (Nat → Nat → UInt8)
  | [], _, _, _, _ => none
  | x :: data, cont, k, j, board =>
    if x = 0 then some board
    else if c = 0 then none
    else
      let (k, j) := if cont.tmod c = 0 then (k + 1, 0) else (k, j)
      if 0 ≤ k ∧ k < f ∧ 0 ≤ j ∧ j < c then
        fillBoard f c data (cont + 1) k (j + 1) (writeCell board k.toNat j.toNat (x - 48))
      else none

def unmarshBoard (data : Bytes) (l : Locals) : Option (Option Board) :=
  if data.head? ≠ some BOARD then some none
  else
    (copyUntil SEP data.tail 0 l.num.held).bind fun (num, data) =>
      (copyUntil SEP data 0 l.num2.held).bind fun (num2, data) =>
        let f := number num l.num.after
        let c := number num2 l.num2.after
        (fillBoard f.toInt c.toInt data 0 (-1) 0 fun _ _ => 0).map fun board => some ⟨board, f, c⟩

/-! ## What each decoder does with a message of its kind -/

/-- What stands in memory when the field `t` has been copied into an array. -/
def Scratch.over {n : Nat} (a : Scratch n) (t : Bytes) : Bytes := t ++ a.held.drop t.length ++ a.after

theorem copy_field {r buf buf' rest : Bytes} :
    copyUntil SEP (r ++ [0]) 0 buf = some (buf', rest) ↔
      ∃ t r', SEP ∉ t ∧ r = t ++ SEP :: r' ∧ rest = r' ++ [0] ∧ t.length ≤ buf.length ∧ buf' = t ++ buf.drop t.length := by
  rw [copyUntil_eq_some]
  constructor
  · rintro ⟨t, ht, hd, hl, hb⟩
    -- The NUL is the last byte of what follows the separator.
    rcases List.eq_nil_or_concat rest with rfl | ⟨r', x, rfl⟩
    · have hlast := congrArg List.getLast? hd
      rw [List.getLast?_concat, List.getLast?_concat] at hlast
      exact absurd hlast (by decide)
    · rw [List.concat_eq_append, ← List.cons_append, ← List.append_assoc] at hd
      obtain ⟨hr', hx⟩ := List.append_inj' hd rfl
      obtain rfl := List.singleton_inj.1 hx
      exact ⟨t, r', ht, hr', List.concat_eq_append, hl, hb⟩
  · rintro ⟨t, r', ht, rfl, rfl, hl, hb⟩
    exact ⟨t, ht, by simp, hl, hb⟩

theorem copy_last {r buf buf' rest : Bytes} (hr : (0 : UInt8) ∉ r) :
    copyUntil 0 (r ++ [0]) 0 buf = some (buf', rest) ↔
      rest = [] ∧ r.length ≤ buf.length ∧ buf' = r ++ buf.drop r.length := by
  rw [copyUntil_eq_some]
  constructor
  · rintro ⟨t, ht, hd, hl, hb⟩
    obtain ⟨rfl, hrest⟩ := sep_left_inj hr ht hd
    exact ⟨hrest.symm, hl, hb⟩
  · rintro ⟨rfl, hl, hb⟩
    exact ⟨r, hr, rfl, hl, hb⟩

theorem nul_tail {t r : Bytes} (h : (0 : UInt8) ∉ t ++ SEP :: r) : (0 : UInt8) ∉ r :=
  fun hm => h (List.mem_append_right _ (List.mem_cons_of_mem _ hm))

theorem unmarshServerId_eq_some {r : Bytes} (hr : (0 : UInt8) ∉ r) (l : Locals) (o : Option Int32) :
    unmarshServerId (SERVER_ID :: (r ++ [0])) l = some o ↔
      r.length ≤ 5 ∧ o = some (Int32.ofInt (strtol (l.num.over r))) := by
  rw [unmarshServerId, if_neg (by simp), List.tail_cons, Option.map_eq_some_iff]
  constructor
  · rintro ⟨⟨num, rest⟩, h, rfl⟩
    obtain ⟨-, hl, rfl⟩ := (copy_last hr).1 h
    exact ⟨by rwa [l.num.size] at hl, rfl⟩
  · rintro ⟨hl, rfl⟩
    exact ⟨_, (copy_last hr).2 ⟨rfl, by rwa [l.num.size], rfl⟩, rfl⟩

theorem unmarshPoint_eq_some {r : Bytes} (hr : (0 : UInt8) ∉ r) (l : Locals) (o : Option Point) :
    unmarshPoint (POINT :: (r ++ [0])) l = some o ↔
      ∃ a b, SEP ∉ a ∧ r = a ++ SEP :: b ∧ a.length ≤ 5 ∧ b.length ≤ 5 ∧
        o = some ⟨Int32.ofInt (strtol (l.num.over a)) - 48,
          Int32.ofInt (strtol (b ++ (a ++ l.num.held.drop a.length).drop b.length ++ l.num.after)) - 48⟩ := by
  have hlen : ∀ a : Bytes, a.length ≤ 5 → (a ++ l.num.held.drop a.length).length = 5 := by
    intro a ha
    rw [List.length_append, List.length_drop, l.num.size]
    omega
  rw [unmarshPoint, if_neg (by simp), List.tail_cons, Option.bind_eq_some_iff]
  constructor
  · rintro ⟨⟨num, rest⟩, h₁, h⟩
    obtain ⟨a, b, ha, rfl, rfl, hl, rfl⟩ := copy_field.1 h₁
    rw [l.num.size] at hl
    obtain ⟨⟨num', rest'⟩, h₂, rfl⟩ := Option.map_eq_some_iff.1 h
    obtain ⟨-, hl', rfl⟩ := (copy_last (nul_tail hr)).1 h₂
    exact ⟨a, b, ha, rfl, hl, by rwa [hlen a hl] at hl', rfl⟩
  · rintro ⟨a, b, ha, rfl, hl, hl', rfl⟩
    refine ⟨_, copy_field.2 ⟨a, b, ha, rfl, rfl, by rwa [l.num.size], rfl⟩, ?_⟩
    exact Option.map_eq_some_iff.2 ⟨_, (copy_last (nul_tail hr)).2 ⟨rfl, by rwa [hlen a hl], rfl⟩, rfl⟩

theorem unmarshPlayer_eq_some {r : Bytes} (hr : (0 : UInt8) ∉ r) (l : Locals) (o : Option Player) :
    unmarshPlayer (PLAYER :: (r ++ [0])) l = some o ↔
      ∃ a b c d, SEP ∉ a ∧ SEP ∉ b ∧ SEP ∉ c ∧ r = a ++ SEP :: (b ++ SEP :: (c ++ SEP :: d)) ∧ a.length ≤ 20 ∧
        b.length ≤ 5 ∧ c.length ≤ 5 ∧ d.length ≤ 5 ∧
        o = some ⟨cstring (l.nombre.over a), Int32.ofInt (strtol (l.num.over b)), Int32.ofInt (strtol (l.num2.over c)),
          Int32.ofInt (strtol (l.num3.over d))⟩ := by
  rw [unmarshPlayer, if_neg (by simp), List.tail_cons, Option.bind_eq_some_iff]
  constructor
  · rintro ⟨⟨nombre, rest⟩, h₁, h⟩
    obtain ⟨a, r₁, ha, rfl, rfl, hla, rfl⟩ := copy_field.1 h₁
    obtain ⟨⟨num, rest⟩, h₂, h⟩ := Option.bind_eq_some_iff.1 h
    obtain ⟨b, r₂, hb, rfl, rfl, hlb, rfl⟩ := copy_field.1 h₂
    obtain ⟨⟨num2, rest⟩, h₃, h⟩ := Option.bind_eq_some_iff.1 h
    obtain ⟨c, d, hc, rfl, rfl, hlc, rfl⟩ := copy_field.1 h₃
    obtain ⟨⟨num3, rest⟩, h₄, rfl⟩ := Option.map_eq_some_iff.1 h
    obtain ⟨-, hld, rfl⟩ := (copy_last (nul_tail (nul_tail (nul_tail hr)))).1 h₄
    rw [l.nombre.size] at hla
    rw [l.num.size] at hlb
    rw [l.num2.size] at hlc
    rw [l.num3.size] at hld
    exact ⟨a, b, c, d, ha, hb, hc, rfl, hla, hlb, hlc, hld, rfl⟩
  · rintro ⟨a, b, c, d, ha, hb, hc, rfl, hla, hlb, hlc, hld, rfl⟩
    refine ⟨_, copy_field.2 ⟨a, _, ha, rfl, rfl, by rwa [l.nombre.size], rfl⟩, ?_⟩
    refine Option.bind_eq_some_iff.2 ⟨_, copy_field.2 ⟨b, _, hb, rfl, rfl, by rwa [l.num.size], rfl⟩, ?_⟩
    refine Option.bind_eq_some_iff.2 ⟨_, copy_field.2 ⟨c, _, hc, rfl, rfl, by rwa [l.num2.size], rfl⟩, ?_⟩
    refine Option.map_eq_some_iff.2 ⟨_, (copy_last (nul_tail (nul_tail (nul_tail hr)))).2 ⟨rfl, ?_, rfl⟩, rfl⟩
    rwa [l.num3.size]

/-- `aux` of `n` bytes with a shorter string in it. -/
theorem strlen_aux {s : Bytes} (hs : (0 : UInt8) ∉ s) (n : Nat) :
    (∃ k, strlen (s ++ (List.replicate n (0 : UInt8)).drop s.length) = some k) ↔ s.length < n := by
  have hmem : (0 : UInt8) ∈ s ++ (List.replicate n (0 : UInt8)).drop s.length ↔ s.length < n := by
    rw [List.drop_replicate, List.mem_append, List.mem_replicate]
    constructor
    · rintro (h | ⟨h, -⟩)
      · exact absurd h hs
      · omega
    · intro h
      exact .inr ⟨by omega, rfl⟩
  rw [strlen, ← hmem]
  constructor
  · rintro ⟨k, hk⟩
    exact (Option.ite_none_right_eq_some.1 hk).1
  · intro h
    exact ⟨_, if_pos h⟩

theorem cstring_aux {s : Bytes} (hs : (0 : UInt8) ∉ s) {n : Nat} (h : s.length < n) :
    cstring (s ++ (List.replicate n (0 : UInt8)).drop s.length) = cstring s := by
  obtain ⟨k, hk⟩ : ∃ k, n - s.length = k + 1 := ⟨n - s.length - 1, by omega⟩
  refine Subtype.ext ?_
  show cstr _ = cstr s
  rw [List.drop_replicate, hk, List.replicate_succ, cstr_append hs, cstr_eq_self.2 hs]

/-- The copy in `aux` ends in a NUL when the message is no longer than it
says. -/
theorem unmarshString_eq_some {r : Bytes} (hr : (0 : UInt8) ∉ r) (l : Locals) (o : Option CString) :
    unmarshString (STRING :: (r ++ [0])) l = some o ↔
      ∃ a s, SEP ∉ a ∧ r = a ++ SEP :: s ∧ a.length ≤ 5 ∧ (s.length : Int) ≤ strtol (l.num.over a) ∧
        o = some (cstring s) := by
  rw [unmarshString, if_neg (by simp), List.tail_cons, Option.bind_eq_some_iff]
  constructor
  · rintro ⟨⟨num, rest⟩, h₁, h⟩
    obtain ⟨a, s, ha, rfl, rfl, hl, rfl⟩ := copy_field.1 h₁
    have hs := nul_tail hr
    rw [l.num.size] at hl
    obtain ⟨aux, haux, h⟩ := Option.bind_eq_some_iff.1 h
    obtain ⟨hm, haux⟩ := Option.ite_none_right_eq_some.1 haux
    obtain rfl := Option.some.inj haux
    obtain ⟨⟨aux', rest'⟩, h₂, h⟩ := Option.bind_eq_some_iff.1 h
    obtain ⟨-, -, rfl⟩ := (copy_last hs).1 h₂
    obtain ⟨n, hn, rfl⟩ := Option.map_eq_some_iff.1 h
    have hlt := (strlen_aux hs _).1 ⟨n, hn⟩
    refine ⟨a, s, ha, rfl, hl, ?_, by rw [cstring_aux hs hlt]⟩
    show (s.length : Int) ≤ strtol (a ++ l.num.held.drop a.length ++ l.num.after)
    omega
  · rintro ⟨a, s, ha, rfl, hl, hls, rfl⟩
    have hs := nul_tail hr
    have hm : (s.length : Int) ≤ strtol (a ++ l.num.held.drop a.length ++ l.num.after) := hls
    have hlt : s.length < (strtol (a ++ l.num.held.drop a.length ++ l.num.after) + 1).toNat := by omega
    obtain ⟨n, hn⟩ := (strlen_aux hs _).2 hlt
    refine ⟨_, copy_field.2 ⟨a, s, ha, rfl, rfl, by rwa [l.num.size], rfl⟩, ?_⟩
    refine Option.bind_eq_some_iff.2 ⟨_, if_pos (by omega), ?_⟩
    refine Option.bind_eq_some_iff.2 ⟨_, (copy_last hs).2 ⟨rfl, by rw [List.length_replicate]; omega, rfl⟩, ?_⟩
    exact Option.map_eq_some_iff.2 ⟨n, hn, by rw [cstring_aux hs hlt]⟩

/-- The cell that comes after `cont` others is in row `q` and column `t`. -/
structure AtCell (c cont k j q t : Int) : Prop where
  cont : cont = c * q + t
  column : 0 ≤ t ∧ t < c
  row : 0 ≤ q
  first : t = 0 → k + 1 = q
  later : t ≠ 0 → k = q ∧ j = t

theorem AtCell.tmod {c cont k j q t : Int} (h : AtCell c cont k j q t) : cont.tmod c = 0 ↔ t = 0 := by
  have hc : 0 ≤ cont := by
    have := Int.mul_nonneg (show 0 ≤ c by have := h.column; omega) h.row
    have := h.cont
    have := h.column
    omega
  rw [Int.tmod_eq_emod_of_nonneg hc, h.cont, Int.add_comm, Int.add_mul_emod_self_left,
    Int.emod_eq_of_lt h.column.1 h.column.2]

theorem AtCell.next {c cont k j q t : Int} (h : AtCell c cont k j q t) : ∃ q' t', AtCell c (cont + 1) q (t + 1) q' t' := by
  have hcol := h.column
  have hcont := h.cont
  have hrow := h.row
  by_cases ht : t + 1 < c
  · exact ⟨q, t + 1, by omega, by omega, hrow, by omega, fun _ => ⟨rfl, rfl⟩⟩
  · have hq : c * (q + 1) = c * q + c := by rw [Int.mul_add, Int.mul_one]
    exact ⟨q + 1, 0, by omega, by omega, by omega, fun _ => rfl, fun hne => absurd rfl hne⟩

/-- A cell is in one of the first `f` rows when all cells up to it fit there. -/
theorem AtCell.row_lt {c cont k j q t : Int} (h : AtCell c cont k j q t) (f : Int) : q < f ↔ cont + 1 ≤ c * f := by
  have hcol := h.column
  have hcont := h.cont
  constructor
  · intro hq
    have hle := Int.mul_le_mul_of_nonneg_left (show q + 1 ≤ f by omega) (show 0 ≤ c by omega)
    rw [Int.mul_add, Int.mul_one] at hle
    omega
  · intro hle
    by_contra hq
    have hle' := Int.mul_le_mul_of_nonneg_left (show f ≤ q by omega) (show 0 ≤ c by omega)
    omega

/-- The place that the loop takes for the cell. -/
theorem AtCell.place {c cont k j q t : Int} (h : AtCell c cont k j q t) :
    (if cont.tmod c = 0 then (k + 1, (0 : Int)) else (k, j)) = (q, t) := by
  by_cases ht : t = 0
  · rw [if_pos (h.tmod.2 ht), h.first ht, ht]
  · obtain ⟨rfl, rfl⟩ := h.later ht
    rw [if_neg fun hm => ht (h.tmod.1 hm)]

/-- The cells are written while they fit the rows. -/
theorem fillBoard_isSome {f c : Int} {cells : Bytes} (hn : (0 : UInt8) ∉ cells) {cont k j q t : Int}
    (h : AtCell c cont k j q t) (board : Nat → Nat → UInt8) :
    (fillBoard f c (cells ++ [0]) cont k j board).isSome = true ↔ cells = [] ∨ cont + cells.length ≤ c * f := by
  induction cells generalizing cont k j q t board with
  | nil => simp [fillBoard]
  | cons x cells ih =>
    have hx : x ≠ 0 := by rintro rfl; exact hn (by simp)
    have hcol := h.column
    have hrow := h.row
    have hlt := h.row_lt f
    obtain ⟨q', t', h'⟩ := h.next
    have hrest := ih (fun hm => hn (List.mem_cons_of_mem _ hm)) h' (writeCell board q.toNat t.toNat (x - 48))
    rw [List.cons_append, fillBoard, if_neg hx, if_neg (by omega), h.place, List.length_cons]
    dsimp only
    by_cases hq : q < f
    · have hle := hlt.1 hq
      rw [if_pos ⟨hrow, hq, hcol.1, hcol.2⟩, hrest]
      cases cells with
      | nil => simp; omega
      | cons y cells => simp only [List.length_cons, reduceCtorEq, false_or]; omega
    · rw [if_neg (by omega)]
      have hgt : ¬cont + 1 ≤ c * f := fun hle => hq (hlt.2 hle)
      simp only [Option.isSome_none, Bool.false_eq_true, reduceCtorEq, false_or, false_iff]
      omega

/-- The loop that fills a board ends well when the cells fit the board, or
there are none. -/
theorem fillBoard_start {f c : Int} {cells : Bytes} (hn : (0 : UInt8) ∉ cells) (board : Nat → Nat → UInt8) :
    (fillBoard f c (cells ++ [0]) 0 (-1) 0 board).isSome = true ↔ cells = [] ∨ 0 < c ∧ (cells.length : Int) ≤ f * c := by
  by_cases hc : 0 < c
  · have h0 : AtCell c 0 (-1) 0 0 0 := ⟨by omega, by omega, by omega, fun _ => by omega, fun hne => absurd rfl hne⟩
    rw [fillBoard_isSome hn h0, Int.zero_add, Int.mul_comm f c]
    exact or_congr_right ⟨fun h => ⟨hc, h⟩, fun h => h.2⟩
  · cases cells with
    | nil => simp [fillBoard]
    | cons x cells =>
      have hx : x ≠ 0 := by rintro rfl; exact hn (by simp)
      rw [List.cons_append, fillBoard, if_neg hx]
      simp only [reduceCtorEq, hc, false_and, or_false, iff_false]
      split
      · simp
      · rw [Int.zero_tmod, if_pos rfl]
        simp only
        rw [if_neg (by omega)]
        simp

theorem unmarshBoard_eq_some {r : Bytes} (hr : (0 : UInt8) ∉ r) (l : Locals) (o : Option Board) :
    unmarshBoard (BOARD :: (r ++ [0])) l = some o ↔
      ∃ a b cells, SEP ∉ a ∧ SEP ∉ b ∧ r = a ++ SEP :: (b ++ SEP :: cells) ∧ a.length ≤ 5 ∧ b.length ≤ 5 ∧
        ∃ board, o = some ⟨board, Int32.ofInt (strtol (l.num.over a)), Int32.ofInt (strtol (l.num2.over b))⟩ ∧
          fillBoard (Int32.ofInt (strtol (l.num.over a))).toInt (Int32.ofInt (strtol (l.num2.over b))).toInt
            (cells ++ [0]) 0 (-1) 0 (fun _ _ => 0) = some board := by
  rw [unmarshBoard, if_neg (by simp), List.tail_cons, Option.bind_eq_some_iff]
  constructor
  · rintro ⟨⟨num, rest⟩, h₁, h⟩
    obtain ⟨a, r₁, ha, rfl, rfl, hla, rfl⟩ := copy_field.1 h₁
    obtain ⟨⟨num2, rest⟩, h₂, h⟩ := Option.bind_eq_some_iff.1 h
    obtain ⟨b, cells, hb, rfl, rfl, hlb, rfl⟩ := copy_field.1 h₂
    obtain ⟨board, hboard, rfl⟩ := Option.map_eq_some_iff.1 h
    rw [l.num.size] at hla
    rw [l.num2.size] at hlb
    exact ⟨a, b, cells, ha, hb, rfl, hla, hlb, board, rfl, hboard⟩
  · rintro ⟨a, b, cells, ha, hb, rfl, hla, hlb, board, rfl, hboard⟩
    refine ⟨_, copy_field.2 ⟨a, _, ha, rfl, rfl, by rwa [l.num.size], rfl⟩, ?_⟩
    refine Option.bind_eq_some_iff.2 ⟨_, copy_field.2 ⟨b, _, hb, rfl, rfl, by rwa [l.num2.size], rfl⟩, ?_⟩
    exact Option.map_eq_some_iff.2 ⟨board, hboard, rfl⟩

end Snuffin.Marshalling
