import Mathlib.Data.List.Basic
/-!
# Sequential specifications

What a component answers to one request at a time, and what it becomes. A
history of requests and answers is served when each answer is allowed after
the requests before it. `Serves.snoc` is the rule for an implementation that
answers one more request, and `Serves.between` carries what one request brings
about to any later one.
-/

namespace Lib

/-- `allows s r v` when `v` answers the request `r` in state `s`, which becomes
`next s r`. -/
structure SeqSpec (σ ρ ν : Type) where
  allows : σ → ρ → ν → Prop
  next : σ → ρ → σ

namespace SeqSpec
variable {σ ρ ν : Type} (S : SeqSpec σ ρ ν)

/-- The state after the requests of a history. -/
def after (s : σ) (l : List (ρ × ν)) : σ := l.foldl (fun s e => S.next s e.1) s

/-- Every answer is allowed where its request comes. -/
def Serves : σ → List (ρ × ν) → Prop
  | _, [] => True
  | s, e :: l => S.allows s e.1 e.2 ∧ Serves (S.next s e.1) l

variable {S} {s : σ} {l l' : List (ρ × ν)}

theorem after_append : S.after s (l ++ l') = S.after (S.after s l) l' := List.foldl_append

theorem serves_append : S.Serves s (l ++ l') ↔ S.Serves s l ∧ S.Serves (S.after s l) l' := by
  induction l generalizing s with
  | nil => simp [Serves, after]
  | cons e l ih =>
    rw [List.cons_append, Serves, Serves, ih, and_assoc]
    rfl

/-- One more request, answered in the state that the others left. -/
theorem Serves.snoc {r : ρ} {v : ν} (h : S.Serves s l) (hv : S.allows (S.after s l) r v) : S.Serves s (l ++ [(r, v)]) :=
  serves_append.2 ⟨h, hv, trivial⟩

/-- What every request keeps holds after any of them. -/
theorem after_inv {P : σ → Prop} (hkeep : ∀ s r, P s → P (S.next s r)) (h : P s) : P (S.after s l) := by
  induction l generalizing s with
  | nil => exact h
  | cons e l ih => exact ih (hkeep s e.1 h)

/-- What a request brings about, and every request keeps, holds at the end. -/
theorem Serves.lasting {P : σ → Prop} (hkeep : ∀ s r, P s → P (S.next s r)) (h : S.Serves s l) {r : ρ} {v : ν}
    (hmem : (r, v) ∈ l) (hfirst : ∀ t, S.allows t r v → P (S.next t r)) : P (S.after s l) := by
  induction l generalizing s with
  | nil => cases hmem
  | cons e l ih =>
    rcases List.mem_cons.1 hmem with rfl | hmem
    · exact after_inv (s := S.next s r) (l := l) hkeep (hfirst s h.1)
    · exact ih h.2 hmem

/-- What every request keeps holds where any of them is answered. -/
theorem Serves.answered {P : σ → Prop} (hkeep : ∀ s r, P s → P (S.next s r)) (h : S.Serves s l) (hs : P s) {r : ρ} {v : ν}
    (hmem : (r, v) ∈ l) : ∃ t, P t ∧ S.allows t r v := by
  induction l generalizing s with
  | nil => cases hmem
  | cons e l ih =>
    rcases List.mem_cons.1 hmem with rfl | hmem
    · exact ⟨s, hs, h.1⟩
    · exact ih h.2 (hkeep s e.1 hs) hmem

/-- What a request brings about holds where a later one is answered. -/
theorem Serves.between {P : σ → Prop} (hkeep : ∀ s r, P s → P (S.next s r)) (h : S.Serves s l) {i j : Nat} {r r' : ρ}
    {v v' : ν} (hi : l[i]? = some (r, v)) (hj : l[j]? = some (r', v')) (hij : i < j)
    (hfirst : ∀ t, S.allows t r v → P (S.next t r)) : ∃ t, P t ∧ S.allows t r' v' := by
  obtain ⟨hlt, hget⟩ := List.getElem?_eq_some_iff.1 hj
  have hsplit : l = l.take j ++ (r', v') :: l.drop (j + 1) := by
    rw [← hget, List.getElem_cons_drop, List.take_append_drop]
  have hmem : (r, v) ∈ l.take j := by
    apply List.mem_of_getElem? (i := i)
    rw [List.getElem?_take_of_lt hij, hi]
  rw [hsplit, serves_append] at h
  exact ⟨S.after s (l.take j), h.1.lasting hkeep hmem hfirst, h.2.1⟩

end SeqSpec

end Lib
