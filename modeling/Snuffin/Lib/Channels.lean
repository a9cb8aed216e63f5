import Mathlib.Logic.Function.Basic
/-!
# Channels by name

Queues that processes open by name and use on connections of their own. When
no two connections have the same name, what is taken out on a connection is
what was put in on it, in order, and nothing else.
-/

namespace Lib

/-- The queues by name, and what was put in and taken out on each connection. -/
structure Channels (ι π β : Type) where
  queue : π → List β
  put : ι → List β
  taken : ι → List β

namespace Channels
variable {ι π β : Type}

def empty : Channels ι π β := ⟨fun _ => [], fun _ => [], fun _ => []⟩

section Steps
variable [DecidableEq ι] [DecidableEq π]

def write (i : ι) (p : π) (d : List β) (c : Channels ι π β) : Channels ι π β :=
  { c with
    queue := Function.update c.queue p (c.queue p ++ d)
    put := Function.update c.put i (c.put i ++ d) }

/-- Takes the first `n`, or all that is there. -/
def read (i : ι) (p : π) (n : Nat) (c : Channels ι π β) : Channels ι π β :=
  { c with
    queue := Function.update c.queue p ((c.queue p).drop n)
    taken := Function.update c.taken i (c.taken i ++ (c.queue p).take n) }

end Steps

/-- Connection `i` uses the queue `port i`, and no two use the same. What is put
in has been taken out or is still there. -/
structure Conserved (port : ι → Option π) (c : Channels ι π β) : Prop where
  apart : ∀ i j p, port i = some p → port j = some p → i = j
  flow : ∀ i p, port i = some p → c.put i = c.taken i ++ c.queue p
  unused : ∀ i, port i = none → c.put i = [] ∧ c.taken i = []
  quiet : ∀ p, (∀ i, port i ≠ some p) → c.queue p = []

variable {port : ι → Option π} {c : Channels ι π β}

theorem conserved_empty (h : ∀ i, port i = none) : (empty : Channels ι π β).Conserved port where
  apart i j p hi _ := by
    rw [h i] at hi
    cases hi
  flow _ _ _ := rfl
  unused _ _ := ⟨rfl, rfl⟩
  quiet _ _ := rfl

/-- New connections open queues that nobody uses. -/
theorem Conserved.extend (h : c.Conserved port) {port' : ι → Option π}
    (hapart : ∀ i j p, port' i = some p → port' j = some p → i = j) (hkeep : ∀ i p, port i = some p → port' i = some p)
    (hnew : ∀ i p, port i = none → port' i = some p → ∀ j, port j ≠ some p) : c.Conserved port' where
  apart := hapart
  flow i p hi := by
    cases hold : port i with
    | none => rw [(h.unused i hold).1, (h.unused i hold).2, h.quiet p (hnew i p hold hi), List.append_nil]
    | some q =>
      obtain rfl : q = p := Option.some.inj ((hkeep i q hold).symm.trans hi)
      exact h.flow i q hold
  unused i hi := by
    apply h.unused i
    cases hold : port i with
    | none => rfl
    | some q =>
      rw [hkeep i q hold] at hi
      cases hi
  quiet p hp := h.quiet p fun i hi => hp i (hkeep i p hi)

variable [DecidableEq ι] [DecidableEq π]

/-- A connection may do with its own queue what keeps its own account. -/
theorem Conserved.change (h : c.Conserved port) {i : ι} {p : π} (hi : port i = some p) {q d e : List β} (heq : d = e ++ q) :
    Conserved port ⟨Function.update c.queue p q, Function.update c.put i d, Function.update c.taken i e⟩ where
  apart := h.apart
  flow j r hj := by
    dsimp only
    by_cases hji : j = i
    · subst hji
      obtain rfl : r = p := Option.some.inj (hj.symm.trans hi)
      rw [Function.update_self, Function.update_self, Function.update_self, heq]
    · have hrp : r ≠ p := by
        rintro rfl
        exact hji (h.apart j i r hj hi)
      rw [Function.update_of_ne hji, Function.update_of_ne hji, Function.update_of_ne hrp]
      exact h.flow j r hj
  unused j hj := by
    have hji : j ≠ i := by
      rintro rfl
      rw [hi] at hj
      cases hj
    dsimp only
    rw [Function.update_of_ne hji, Function.update_of_ne hji]
    exact h.unused j hj
  quiet r hr := by
    have hrp : r ≠ p := by
      rintro rfl
      exact hr i hi
    dsimp only
    rw [Function.update_of_ne hrp]
    exact h.quiet r hr

theorem Conserved.write (h : c.Conserved port) {i : ι} {p : π} (hi : port i = some p) (d : List β) :
    (c.write i p d).Conserved port := by
  have heq : c.put i ++ d = c.taken i ++ (c.queue p ++ d) := by rw [h.flow i p hi, List.append_assoc]
  have hw := h.change hi heq
  rwa [Function.update_eq_self] at hw

theorem Conserved.read (h : c.Conserved port) {i : ι} {p : π} (hi : port i = some p) (n : Nat) :
    (c.read i p n).Conserved port := by
  have heq : c.put i = c.taken i ++ (c.queue p).take n ++ (c.queue p).drop n := by
    rw [List.append_assoc, List.take_append_drop, h.flow i p hi]
  have hr := h.change hi heq
  rwa [Function.update_eq_self] at hr

end Channels

end Lib
