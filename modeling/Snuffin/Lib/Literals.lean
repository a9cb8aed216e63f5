import Mathlib.Data.List.Basic
import Mathlib.Data.List.Count
import Mathlib.Data.List.Induction
/-!
# Literals between quotes

A text in which a literal stands between two quotes, and a doubled quote in it
denotes one. `lex` takes the literals out of such a text. A string pasted
between quotes as it is comes back from `lex` if and only if it has no quote
in it, whatever stands behind the closing quote.
-/

namespace Lib

variable {α : Type}

/-- A symbol outside the literals, or what a literal denotes. -/
inductive Token (α : Type) where
  | plain (x : α)
  | literal (s : List α)
  deriving DecidableEq

section Lex
variable [DecidableEq α] (q : α)

/-- The tokens of a text that begins outside a literal, or inside one of which
`c` has been read. A literal that is not closed gives none. -/
def lex : Option (List α) → List α → Option (List (Token α))
  | none, [] => some []
  | none, x :: s => if x = q then lex (some []) s else (lex none s).map (.plain x :: ·)
  | some _, [] => none
  | some c, [x] => if x = q then some [.literal c] else none
  | some c, x :: y :: s =>
    if x = q then
      if y = q then lex (some (c ++ [q])) s else (lex none (y :: s)).map (.literal c :: ·)
    else lex (some (c ++ [x])) (y :: s)

/-- A string with its quotes doubled. -/
def double : List α → List α
  | [] => []
  | x :: s => if x = q then q :: q :: double s else x :: double s

variable {q}

/-! ## Texts without quotes -/

theorem lex_plain {p : List α} (hp : q ∉ p) (s : List α) :
    lex q none (p ++ s) = (lex q none s).map (p.map .plain ++ ·) := by
  induction p with
  | nil => simp
  | cons x p ih =>
    have hx : x ≠ q := (List.ne_of_not_mem_cons hp).symm
    rw [List.cons_append, lex, if_neg hx, ih (List.not_mem_of_not_mem_cons hp), Option.map_map]
    rfl

/-- A literal without quotes ends at the quote behind it. -/
theorem lex_literal {n : List α} (hn : q ∉ n) {r : List α} (hr : r.head? ≠ some q) (c : List α) :
    lex q (some c) (n ++ q :: r) = (lex q none r).map (.literal (c ++ n) :: ·) := by
  induction n generalizing c with
  | nil =>
    rw [List.nil_append, List.append_nil]
    cases r with
    | nil => simp [lex]
    | cons y r =>
      have hy : y ≠ q := fun hy => hr (by rw [hy]; rfl)
      conv_lhs => rw [lex, if_pos rfl, if_neg hy]
  | cons x n ih =>
    have hx : x ≠ q := (List.ne_of_not_mem_cons hn).symm
    have hc : c ++ x :: n = c ++ [x] ++ n := by simp
    rw [hc, ← ih (List.not_mem_of_not_mem_cons hn) (c ++ [x])]
    cases n with
    | nil => rw [List.cons_append, List.nil_append, lex, if_neg hx]
    | cons y n => rw [List.cons_append, List.cons_append, lex, if_neg hx]

/-! ## What a literal stands for -/

/-- The text of a literal is what it denotes with the quotes doubled, up to a
quote that no other one follows. -/
theorem lex_sound {c s : List α} {ts : List (Token α)} (h : lex q (some c) s = some ts) :
    ∃ n r ts', s = double q n ++ q :: r ∧ r.head? ≠ some q ∧ ts = .literal (c ++ n) :: ts' ∧ lex q none r = some ts' := by
  induction s using List.twoStepInduction generalizing c with
  | nil => cases h
  | singleton x =>
    rw [lex] at h
    obtain ⟨rfl, h⟩ := Option.ite_none_right_eq_some.1 h
    exact ⟨[], [], [], rfl, by simp, by simpa using h.symm, rfl⟩
  | cons_cons x y s ih ih' =>
    rw [lex] at h
    by_cases hx : x = q
    · subst hx
      rw [if_pos rfl] at h
      by_cases hy : y = x
      · subst hy
        rw [if_pos rfl] at h
        obtain ⟨n, r, ts', rfl, hr, rfl, hlex⟩ := ih h
        exact ⟨y :: n, r, ts', by simp [double], hr, by simp, hlex⟩
      · rw [if_neg hy] at h
        obtain ⟨ts', hlex, rfl⟩ := Option.map_eq_some_iff.1 h
        exact ⟨[], y :: s, ts', rfl, by simpa using hy, by simp, hlex⟩
    · rw [if_neg hx] at h
      obtain ⟨n, r, ts', hs, hr, rfl, hlex⟩ := ih' y h
      exact ⟨x :: n, r, ts', by simp [double, hx, hs], hr, by simp, hlex⟩

theorem length_double (n : List α) : (double q n).length = n.length + n.count q := by
  induction n with
  | nil => rfl
  | cons x n ih =>
    rw [double]
    split
    · rename_i hx
      subst hx
      simp only [List.length_cons, List.count_cons_self, ih]
      omega
    · rename_i hx
      simp only [List.length_cons, List.count_cons_of_ne hx, ih]
      omega

theorem count_double (n : List α) : (double q n).count q = 2 * n.count q := by
  induction n with
  | nil => rfl
  | cons x n ih =>
    rw [double]
    split
    · rename_i hx
      subst hx
      simp only [List.count_cons_self, ih]
      omega
    · rename_i hx
      simp only [List.count_cons_of_ne hx, ih]

/-- A string that is read back from between two quotes has no quote. Each
quote of its own would move the end of the literal one place behind the
closing quote, and all these places would have to be quotes. -/
theorem not_mem_of_double {n r r' : List α} (h : n ++ q :: r = double q n ++ q :: r') (hr : r.head? ≠ some q) : q ∉ n := by
  have hcut : (n ++ q :: r).take (n.length + n.count q + 1) = n ++ q :: r.take (n.count q) := by
    rw [List.take_append, List.take_of_length_le (by omega),
      show n.length + n.count q + 1 - n.length = n.count q + 1 by omega, List.take_succ_cons]
  have hcut' : (double q n ++ q :: r').take (n.length + n.count q + 1) = double q n ++ [q] := by
    rw [← length_double, List.take_length_add_append]
    rfl
  have hcount : (r.take (n.count q)).count q = n.count q := by
    have hc := congrArg (List.count q) (hcut.symm.trans ((congrArg _ h).trans hcut'))
    simp only [List.count_append, List.count_cons_self, count_double, List.count_nil] at hc
    omega
  apply List.count_eq_zero.1
  cases r with
  | nil => simpa using hcount.symm
  | cons y r =>
    have hy : y ≠ q := fun hy => hr (by rw [hy]; rfl)
    cases hk : n.count q with
    | zero => rfl
    | succ k =>
      rw [hk, List.take_succ_cons, List.count_cons_of_ne hy] at hcount
      have hle : (r.take k).count q ≤ (r.take k).length := List.count_le_length
      rw [List.length_take] at hle
      omega

/-- A string between quotes is read back if and only if it has no quote. -/
theorem lex_literal_iff {n r : List α} (hr : r.head? ≠ some q) {ts : List (Token α)} :
    lex q (some []) (n ++ q :: r) = some (.literal n :: ts) ↔ q ∉ n ∧ lex q none r = some ts := by
  constructor
  · intro h
    obtain ⟨m, r', ts', htext, -, hts, -⟩ := lex_sound h
    obtain ⟨hm, rfl⟩ := List.cons.inj hts
    obtain rfl : n = m := by simpa using hm
    have hn := not_mem_of_double htext hr
    rw [lex_literal hn hr, Option.map_eq_some_iff] at h
    obtain ⟨ts'', hlex, hts''⟩ := h
    exact ⟨hn, by rw [hlex, (List.cons.inj hts'').2]⟩
  · rintro ⟨hn, hlex⟩
    rw [lex_literal hn hr, hlex]
    rfl

/-- The same, behind a text that ends with the opening quote. -/
theorem lex_pasted_iff {p n r : List α} (hp : q ∉ p) (hr : r.head? ≠ some q) {ts : List (Token α)} :
    lex q none (p ++ q :: (n ++ q :: r)) = some (p.map .plain ++ .literal n :: ts) ↔ q ∉ n ∧ lex q none r = some ts := by
  rw [lex_plain hp, Option.map_eq_some_iff, ← lex_literal_iff hr]
  have hopen : lex q none (q :: (n ++ q :: r)) = lex q (some []) (n ++ q :: r) := by rw [lex, if_pos rfl]
  rw [hopen]
  constructor
  · rintro ⟨ts', hlex, heq⟩
    rw [hlex, List.append_cancel_left heq]
  · intro hlex
    exact ⟨_, hlex, rfl⟩

end Lex

end Lib
