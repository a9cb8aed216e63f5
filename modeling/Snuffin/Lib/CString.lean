import Mathlib.Data.Nat.Digits.Lemmas
import Mathlib.Data.List.TakeWhile
/-!
# Bytes in memory, C strings and decimal text

Memory is a function from offsets to bytes. `IsStr m pos s` says that the
string `s` and its NUL are at `pos`; stores elsewhere keep it. `text` are the
digits of a number and `decimal` what `%d` prints; `atoi` reads both back.
-/

namespace Lib

abbrev Mem := Nat → UInt8

/-- `memcpy(m + pos, l, l.length)`. -/
def store (m : Mem) (pos : Nat) (l : List UInt8) : Mem := fun i => if pos ≤ i then (l[i - pos]?).getD (m i) else m i

/-- The bytes from `pos` up to the first NUL, looked for in `fuel` bytes. -/
def readStr : Nat → Mem → Nat → Option (List UInt8)
  | 0, _, _ => none
  | fuel + 1, m, pos => if m pos = 0 then some [] else (readStr fuel m (pos + 1)).map (m pos :: ·)

/-- The string `s` stands at `pos`, with the NUL that ends it. -/
def IsStr (m : Mem) (pos : Nat) (s : List UInt8) : Prop := ∀ i x, (s ++ [0])[i]? = some x → m (pos + i) = x

/-! ## Stores -/

theorem store_at (m : Mem) (pos : Nat) (l : List UInt8) {i : Nat} {x : UInt8} (h : l[i]? = some x) :
    store m pos l (pos + i) = x := by
  simp [store, h]

theorem store_outside (m : Mem) (pos : Nat) (l : List UInt8) {i : Nat} (h : i < pos ∨ pos + l.length ≤ i) :
    store m pos l i = m i := by
  unfold store
  split
  · rw [List.getElem?_eq_none (by omega), Option.getD_none]
  · rfl

/-- Two adjacent stores are one. -/
theorem store_append (m : Mem) (pos : Nat) (l l' : List UInt8) :
    store (store m (pos + l.length) l') pos l = store m pos (l ++ l') := by
  funext i
  by_cases hi : pos ≤ i
  · by_cases hl : i - pos < l.length
    · have e : l[i - pos]? = some l[i - pos] := List.getElem?_eq_getElem hl
      simp [store, hi, e, List.getElem?_append_left hl]
    · rw [store_outside _ _ _ (by omega)]
      have hi' : pos + l.length ≤ i := by omega
      simp only [store, hi', hi, if_true]
      rw [List.getElem?_append_right (by omega), Nat.sub_sub]
  · rw [store_outside _ _ _ (by omega), store_outside _ _ _ (by omega), store_outside _ _ _ (by omega)]

theorem store_store (m : Mem) (pos : Nat) (l l' : List UInt8) :
    store (store m pos l) (pos + l.length) l' = store m pos (l ++ l') := by
  rw [← store_append]
  funext i
  by_cases hi : pos + l.length ≤ i
  · rw [store_outside (store m (pos + l.length) l') _ _ (by omega)]
    simp only [store, hi, if_true]
    rw [List.getElem?_eq_none (l := l) (by omega), Option.getD_none, ite_self]
  · rw [store_outside _ _ _ (by omega)]
    simp only [store, hi, if_false]

/-! ## Strings -/

theorem isStr_store (m : Mem) (pos : Nat) (s : List UInt8) : IsStr (store m pos (s ++ [0])) pos s :=
  fun _ _ hx => store_at m pos _ hx

theorem isStr_lt {s : List UInt8} {i : Nat} {x : UInt8} (h : (s ++ [0])[i]? = some x) : i ≤ s.length := by
  obtain ⟨hi, -⟩ := List.getElem?_eq_some_iff.1 h
  rw [List.length_append, List.length_singleton] at hi
  omega

/-- A store beside a string leaves it alone. -/
theorem IsStr.store {m : Mem} {pos : Nat} {s : List UInt8} (h : IsStr m pos s) {at' : Nat} {l : List UInt8}
    (hd : at' + l.length ≤ pos ∨ pos + s.length < at') : IsStr (store m at' l) pos s := by
  intro i x hx
  have hi := isStr_lt hx
  rw [store_outside _ _ _ (by omega)]
  exact h i x hx

theorem readStr_of_isStr {m : Mem} {pos : Nat} {s : List UInt8} (h : IsStr m pos s) (hs : (0 : UInt8) ∉ s) {fuel : Nat}
    (hf : s.length < fuel) : readStr fuel m pos = some s := by
  induction s generalizing pos fuel with
  | nil =>
    obtain ⟨fuel, rfl⟩ : ∃ k, fuel = k + 1 := ⟨fuel - 1, by omega⟩
    have h0 : m pos = 0 := h 0 0 rfl
    simp [readStr, h0]
  | cons c s ih =>
    obtain ⟨fuel, rfl⟩ : ∃ k, fuel = k + 1 := ⟨fuel - 1, by simp at hf; omega⟩
    have h0 : m pos = c := h 0 c rfl
    have hc : c ≠ 0 := by rintro rfl; exact hs (by simp)
    have hrest : IsStr m (pos + 1) s := by
      intro i x hx
      rw [show pos + 1 + i = pos + (i + 1) by omega]
      exact h (i + 1) x (by simpa using hx)
    rw [List.length_cons] at hf
    rw [readStr, h0, if_neg hc, ih hrest (fun hm => hs (by simp [hm])) (by omega), Option.map_some]

/-- What is read is a string without NUL. -/
theorem readStr_nul {fuel : Nat} {m : Mem} {pos : Nat} {s : List UInt8} (h : readStr fuel m pos = some s) :
    (0 : UInt8) ∉ s := by
  induction fuel generalizing pos s with
  | zero => cases h
  | succ fuel ih =>
    simp only [readStr] at h
    split at h
    · cases h; simp
    · rename_i hc
      obtain ⟨s', hs', rfl⟩ := Option.map_eq_some_iff.1 h
      simp [ih hs', Ne.symm hc]

/-! ## Decimal text -/

/-- The digits of a number, none for 0. -/
def text (n : Nat) : List UInt8 := (Nat.digits 10 n).reverse.map fun d => UInt8.ofNat (d + 48)

/-- What `%d` prints. -/
def decimal (v : Int) : List UInt8 :=
  if v = 0 then [48] else (if v < 0 then [45] else []) ++ text v.natAbs

def isSpace (c : UInt8) : Bool := c = 32 || (9 ≤ c && c ≤ 13)

def isDigit (c : UInt8) : Bool := 48 ≤ c && c ≤ 57

/-- The number that some leading digits denote. -/
def digitsValue (s : List UInt8) : Nat := (s.takeWhile isDigit).foldl (fun a c => 10 * a + (c.toNat - 48)) 0

def atoi (s : List UInt8) : Int :=
  match s.dropWhile isSpace with
  | 45 :: s => -digitsValue s
  | 43 :: s => digitsValue s
  | s => digitsValue s

theorem toNat_digit {d : Nat} (h : d < 10) : (UInt8.ofNat (d + 48)).toNat = d + 48 := by
  rw [UInt8.toNat_ofNat']
  omega

theorem isDigit_text {n : Nat} : ∀ c ∈ text n, isDigit c = true := by
  intro c hc
  obtain ⟨d, hd, rfl⟩ := List.mem_map.1 hc
  have hlt := Nat.digits_lt_base (by decide) (List.mem_reverse.1 hd)
  simp only [isDigit, Bool.and_eq_true, decide_eq_true_eq, UInt8.le_iff_toNat_le, toNat_digit hlt]
  constructor
  · show 48 ≤ d + 48; omega
  · show d + 48 ≤ 57; omega

theorem digitsValue_text (n : Nat) : digitsValue (text n) = n := by
  rw [digitsValue, List.takeWhile_eq_self_iff.2 isDigit_text, text, List.foldl_map, List.foldl_reverse]
  conv_rhs => rw [← Nat.ofDigits_digits 10 n, Nat.ofDigits_eq_foldr]
  have hlt : ∀ d ∈ Nat.digits 10 n, d < 10 := fun d hd => Nat.digits_lt_base (by decide) hd
  generalize Nat.digits 10 n = ds at hlt
  induction ds with
  | nil => rfl
  | cons d ds ih =>
    rw [List.foldr_cons, List.foldr_cons, ih fun e he => hlt e (by simp [he]), toNat_digit (hlt d (by simp))]
    simp
    omega

/-- Digits start with neither a blank nor a sign. -/
theorem isDigit_bounds {c : UInt8} (h : isDigit c = true) : isSpace c = false ∧ c ≠ 45 ∧ c ≠ 43 ∧ c ≠ 0 := by
  simp only [isDigit, Bool.and_eq_true, decide_eq_true_eq, UInt8.le_iff_toNat_le] at h
  have h48 : 48 ≤ c.toNat := h.1
  refine ⟨?_, ?_, ?_, ?_⟩
  · have h32 : c ≠ 32 := by rintro rfl; exact absurd h48 (by decide)
    have h13 : ¬ c ≤ 13 := by
      intro hle
      have : c.toNat ≤ 13 := UInt8.le_iff_toNat_le.1 hle
      omega
    simp [isSpace, h32, h13]
  all_goals rintro rfl; exact absurd h48 (by decide)

/-- A string of digits is read as a number, up to its end. -/
theorem atoi_text (n : Nat) : atoi (text n) = n := by
  have hv := digitsValue_text n
  cases h : text n with
  | nil => rw [h] at hv; rw [← hv]; rfl
  | cons c s =>
    obtain ⟨hsp, h45, h43, -⟩ := isDigit_bounds (isDigit_text c (by rw [h]; exact List.mem_cons_self))
    rw [h] at hv
    rw [atoi, List.dropWhile_cons_of_neg (by simp [hsp])]
    split
    · rename_i e; cases e; exact absurd rfl h45
    · rename_i e; cases e; exact absurd rfl h43
    · rw [hv]

/-- `atoi` reads back what `%d` printed. -/
theorem atoi_decimal (v : Int) : atoi (decimal v) = v := by
  unfold decimal
  by_cases h0 : v = 0
  · subst h0; rfl
  rw [if_neg h0]
  by_cases hneg : v < 0
  · rw [if_pos hneg]
    have e : atoi ([45] ++ text v.natAbs) = -digitsValue (text v.natAbs) := rfl
    rw [e, digitsValue_text]
    omega
  · rw [if_neg hneg, List.nil_append, atoi_text]
    omega

/-- `%d` prints digits and a minus sign. -/
theorem mem_decimal {v : Int} {c : UInt8} (h : c ∈ decimal v) : c = 45 ∨ isDigit c = true := by
  unfold decimal at h
  split at h
  · rw [List.mem_singleton.1 h]; exact .inr (by decide)
  · rcases List.mem_append.1 h with h | h
    · split at h
      · exact .inl (List.mem_singleton.1 h)
      · cases h
    · exact .inr (isDigit_text c h)

theorem decimal_injective : Function.Injective decimal := by
  intro v w h
  rw [← atoi_decimal v, h, atoi_decimal]

theorem decimal_natCast {n : Nat} (h : 0 < n) : decimal n = text n := by
  have h0 : (n : Int) ≠ 0 := by omega
  have h1 : ¬(n : Int) < 0 := by omega
  rw [decimal, if_neg h0, if_neg h1, List.nil_append, Int.natAbs_natCast]

theorem decimal_neg {n : Nat} (h : 0 < n) : decimal (-n) = 45 :: text n := by
  have h0 : -(n : Int) ≠ 0 := by omega
  have h1 : -(n : Int) < 0 := by omega
  rw [decimal, if_neg h0, if_pos h1, Int.natAbs_neg, Int.natAbs_natCast]
  rfl

/-- A number has one digit more than its tenth. -/
theorem length_text {n : Nat} (h : 0 < n) : (text n).length = (text (n / 10)).length + 1 := by
  rw [text, text, Nat.digits_def' (by decide) h]
  simp

@[simp] theorem text_zero : text 0 = [] := by simp [text]

theorem length_text_le {n k : Nat} (h : n < 10 ^ k) : (text n).length ≤ k := by
  induction k generalizing n with
  | zero =>
    have h0 : n = 0 := by simpa using h
    simp [h0]
  | succ k ih =>
    rcases Nat.eq_zero_or_pos n with h0 | h0
    · simp [h0]
    · have hlt : n / 10 < 10 ^ k := by rw [Nat.pow_succ] at h; omega
      rw [length_text h0]
      exact Nat.succ_le_succ (ih hlt)

theorem text_nul (n : Nat) : (0 : UInt8) ∉ text n := fun h => (isDigit_bounds (isDigit_text 0 h)).2.2.2 rfl

theorem decimal_nul (v : Int) : (0 : UInt8) ∉ decimal v := by
  unfold decimal
  split
  · decide
  · split <;> simp [text_nul]

/-! ## Numbers with something behind them -/

/-- `atoi` of what `strtol` takes for a long. -/
def strtol (s : List UInt8) : Int := max (-9223372036854775808) (min 9223372036854775807 (atoi s))

theorem digitsValue_append {ds : List UInt8} (h : ∀ c ∈ ds, isDigit c = true) (s : List UInt8) :
    digitsValue (ds ++ s) = (s.takeWhile isDigit).foldl (fun a c => 10 * a + (c.toNat - 48)) (digitsValue ds) := by
  rw [digitsValue, List.takeWhile_append_of_pos h, List.foldl_append, digitsValue, List.takeWhile_eq_self_iff.2 h]

theorem le_foldl_digits (l : List UInt8) (n : Nat) : n ≤ l.foldl (fun a c => 10 * a + (c.toNat - 48)) n := by
  induction l generalizing n with
  | nil => exact Nat.le_refl n
  | cons c l ih =>
    have hle := ih (10 * n + (c.toNat - 48))
    rw [List.foldl_cons]
    omega

/-- More digits do not make a number smaller. -/
theorem le_digitsValue_append {ds : List UInt8} (h : ∀ c ∈ ds, isDigit c = true) (s : List UInt8) :
    digitsValue ds ≤ digitsValue (ds ++ s) := by
  rw [digitsValue_append h]
  exact le_foldl_digits _ _

/-- A number is read as it is if and only if no digit follows. -/
theorem digitsValue_text_append_iff {n : Nat} (h : 0 < n) (s : List UInt8) :
    digitsValue (text n ++ s) = n ↔ ∀ x ∈ s.head?, isDigit x = false := by
  rw [digitsValue_append isDigit_text, digitsValue_text]
  cases s with
  | nil => simp
  | cons c s =>
    cases hc : isDigit c with
    | false => simp [hc]
    | true =>
      have hle := le_foldl_digits (s.takeWhile isDigit) (10 * n + (c.toNat - 48))
      have hne : (s.takeWhile isDigit).foldl (fun a c => 10 * a + (c.toNat - 48)) (10 * n + (c.toNat - 48)) ≠ n := by omega
      simp [hc, hne]

/-- What `atoi` reads in a printed number with `s` behind it. -/
theorem atoi_decimal_append (v : Int) (s : List UInt8) :
    atoi (decimal v ++ s) =
      if v < 0 then -(digitsValue (text v.natAbs ++ s) : Int) else digitsValue (text v.natAbs ++ s) := by
  by_cases h0 : v = 0
  · subst h0
    have hd : digitsValue (48 :: s) = digitsValue s := by
      have h48 : ∀ c ∈ [(48 : UInt8)], isDigit c = true := by
        intro c hc
        rw [List.mem_singleton.1 hc]
        rfl
      show digitsValue ([48] ++ s) = _
      rw [digitsValue_append h48]
      rfl
    rw [if_neg (by omega), Int.natAbs_zero, text_zero, List.nil_append, ← hd]
    rfl
  by_cases hneg : v < 0
  · obtain ⟨n, rfl⟩ : ∃ n : Nat, v = -(n : Int) := ⟨v.natAbs, by omega⟩
    rw [if_pos hneg, decimal_neg (by omega), Int.natAbs_neg, Int.natAbs_natCast]
    rfl
  · obtain ⟨n, rfl⟩ : ∃ n : Nat, v = (n : Int) := ⟨v.natAbs, by omega⟩
    have hn : 0 < n := by omega
    rw [if_neg hneg, decimal_natCast hn, Int.natAbs_natCast]
    cases ht : text n with
    | nil => have hl := length_text hn; rw [ht] at hl; simp at hl
    | cons c t =>
      obtain ⟨hsp, h45, h43, -⟩ := isDigit_bounds (isDigit_text c (by rw [ht]; exact List.mem_cons_self))
      rw [atoi, List.cons_append, List.dropWhile_cons_of_neg (by simp [hsp])]
      split
      · rename_i e; exact absurd (List.cons.inj e).1 h45
      · rename_i e; exact absurd (List.cons.inj e).1 h43
      · rfl

theorem foldl_digits_eq_zero {l : List UInt8} (h : ∀ c ∈ l, isDigit c = true) (n : Nat) :
    l.foldl (fun a c => 10 * a + (c.toNat - 48)) n = 0 ↔ n = 0 ∧ ∀ c ∈ l, c = 48 := by
  induction l generalizing n with
  | nil => simp
  | cons c l ih =>
    have hc : isDigit c = true := h c (by simp)
    have h48 : c.toNat - 48 = 0 ↔ c = 48 := by
      simp only [isDigit, Bool.and_eq_true, decide_eq_true_eq, UInt8.le_iff_toNat_le] at hc
      have hge : 48 ≤ c.toNat := hc.1
      rw [← UInt8.toNat_inj]
      show c.toNat - 48 = 0 ↔ c.toNat = 48
      omega
    rw [List.foldl_cons, ih fun d hd => h d (by simp [hd])]
    simp only [List.mem_cons, forall_eq_or_imp, ← h48]
    constructor
    · rintro ⟨h0, hl⟩
      exact ⟨by omega, by omega, hl⟩
    · rintro ⟨h0, hc, hl⟩
      exact ⟨by omega, hl⟩

theorem foldl_digits_lt {l : List UInt8} (h : ∀ c ∈ l, isDigit c = true) (n : Nat) :
    l.foldl (fun a c => 10 * a + (c.toNat - 48)) n < (n + 1) * 10 ^ l.length := by
  induction l generalizing n with
  | nil => simp
  | cons c l ih =>
    have hc : isDigit c = true := h c (by simp)
    simp only [isDigit, Bool.and_eq_true, decide_eq_true_eq, UInt8.le_iff_toNat_le] at hc
    have h57 : c.toNat ≤ 57 := hc.2
    have hlt := ih (fun d hd => h d (by simp [hd])) (10 * n + (c.toNat - 48))
    have hle : (10 * n + (c.toNat - 48) + 1) * 10 ^ l.length ≤ (10 * (n + 1)) * 10 ^ l.length :=
      Nat.mul_le_mul_right _ (by omega)
    rw [List.foldl_cons, List.length_cons, Nat.pow_succ]
    calc _ < _ := hlt
      _ ≤ _ := hle
      _ = _ := by ring

theorem takeWhile_nul (l s : List UInt8) : (l ++ 0 :: s).takeWhile isDigit = l.takeWhile isDigit := by
  have h0 : (0 :: s).takeWhile isDigit = [] := by simp [isDigit]
  rw [List.takeWhile_append, h0, List.append_nil]
  split
  · rename_i hl
    rw [List.Sublist.eq_of_length (List.takeWhile_sublist _) hl]
  · rfl

/-- Before a NUL there are only so many digits. -/
theorem digitsValue_lt (l s : List UInt8) : digitsValue (l ++ 0 :: s) < 10 ^ l.length := by
  have hall : ∀ c ∈ l.takeWhile isDigit, isDigit c = true := fun c hc => List.mem_takeWhile_imp hc
  have hlt := foldl_digits_lt hall 0
  rw [Nat.zero_add, Nat.one_mul] at hlt
  rw [digitsValue, takeWhile_nul]
  exact Nat.lt_of_lt_of_le hlt (Nat.pow_le_pow_right (by decide) (List.takeWhile_sublist _).length_le)

/-- A printed number is read as it is when no digit follows; and the number 0
also when only zeros do. -/
theorem atoi_decimal_append_iff (v : Int) (s : List UInt8) :
    atoi (decimal v ++ s) = v ↔ (∀ x ∈ s.head?, isDigit x = false) ∨ v = 0 ∧ ∀ c ∈ s.takeWhile isDigit, c = 48 := by
  have hall : ∀ c ∈ s.takeWhile isDigit, isDigit c = true := fun c hc => List.mem_takeWhile_imp hc
  rw [atoi_decimal_append]
  by_cases h0 : v = 0
  · subst h0
    have hiff := foldl_digits_eq_zero hall 0
    have hz : digitsValue s = 0 ↔ ∀ c ∈ s.takeWhile isDigit, c = 48 := hiff.trans ⟨fun h => h.2, fun h => ⟨rfl, h⟩⟩
    have hhead : (∀ x ∈ s.head?, isDigit x = false) → ∀ c ∈ s.takeWhile isDigit, c = 48 := by
      intro h c hc
      cases s with
      | nil => cases hc
      | cons x s => simp [h x rfl] at hc
    rw [if_neg (by omega), Int.natAbs_zero, text_zero, List.nil_append, Int.natCast_eq_zero, hz]
    exact ⟨fun h => .inr ⟨rfl, h⟩, fun h => h.elim hhead And.right⟩
  · have hiff := digitsValue_text_append_iff (n := v.natAbs) (by omega) s
    have hsame : (if v < 0 then -(digitsValue (text v.natAbs ++ s) : Int) else digitsValue (text v.natAbs ++ s)) = v ↔
        digitsValue (text v.natAbs ++ s) = v.natAbs := by
      split <;> omega
    rw [hsame, hiff]
    simp [h0]

/-- Few digits make a small number. -/
theorem lt_of_length_text {n k : Nat} (h : (text n).length ≤ k) : n < 10 ^ k := by
  have hlt : n < 10 ^ (Nat.digits 10 n).length := Nat.lt_base_pow_length_digits (by decide)
  have hlen : (text n).length = (Nat.digits 10 n).length := by simp [text]
  exact Nat.lt_of_lt_of_le hlt (Nat.pow_le_pow_right (by decide) (hlen ▸ h))

/-- A printed length with anything behind it is read as no less. -/
theorem le_strtol_decimal {n : Nat} (h : (decimal n).length ≤ 5) (s : List UInt8) : (n : Int) ≤ strtol (decimal n ++ s) := by
  have hn : n < 10 ^ 5 := by
    rcases Nat.eq_zero_or_pos n with h0 | h0
    · omega
    · exact lt_of_length_text (by rwa [decimal_natCast h0] at h)
  have hle : (n : Int) ≤ atoi (decimal n ++ s) := by
    have hmono := le_digitsValue_append (isDigit_text (n := n)) s
    rw [digitsValue_text] at hmono
    rw [atoi_decimal_append, if_neg (by omega), Int.natAbs_natCast]
    omega
  unfold strtol
  omega

/-- A NUL ends the number. -/
theorem atoi_decimal_nul (v : Int) (s : List UInt8) : atoi (decimal v ++ 0 :: s) = v := by
  rw [atoi_decimal_append, digitsValue_append isDigit_text, digitsValue_text]
  have h0 : (0 :: s).takeWhile isDigit = [] := by simp [isDigit]
  rw [h0, List.foldl_nil]
  split <;> omega

/-- A digit and a NUL give it one place more. -/
theorem atoi_decimal_digit (v : Int) (s : List UInt8) :
    atoi (decimal v ++ 53 :: 0 :: s) = if v < 0 then 10 * v - 5 else 10 * v + 5 := by
  rw [atoi_decimal_append, digitsValue_append isDigit_text, digitsValue_text]
  have h5 : (53 :: 0 :: s).takeWhile isDigit = [53] := by simp [isDigit]
  have h53 : (53 : UInt8).toNat - 48 = 5 := rfl
  rw [h5, List.foldl_cons, List.foldl_nil, h53]
  split <;> omega

end Lib
