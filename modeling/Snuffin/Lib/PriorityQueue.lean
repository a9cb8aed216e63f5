import Mathlib.Data.List.TakeWhile
import Mathlib.Order.Basic
/-!
# Bounded queues with priorities

A queue of at most `cap` entries that hands out the oldest entry of the highest
priority, as POSIX message queues do. Seen from outside it is one first-in
first-out list for each priority: `push?` appends to the list of its priority,
and `pop?` takes the head of the highest list that is not empty.
-/

namespace Lib

/-- The entries in the order in which they are handed out. -/
structure PriorityQueue (cap : Nat) (α : Type) where
  entries : List (Nat × α)
  sorted : entries.Pairwise fun e f => f.1 ≤ e.1
  bounded : entries.length ≤ cap

namespace PriorityQueue
variable {cap : Nat} {α : Type}

/-! ## The operations -/

def empty : PriorityQueue cap α := ⟨[], .nil, Nat.zero_le cap⟩

/-- `(p, a)` goes behind all entries whose priority is not lower. -/
def place (p : Nat) (a : α) (l : List (Nat × α)) : List (Nat × α) :=
  l.takeWhile (fun e => p ≤ e.1) ++ (p, a) :: l.dropWhile fun e => p ≤ e.1

/-- The entries of a list with priority `k`, in its order. -/
def ofLevel (k : Nat) (l : List (Nat × α)) : List α := l.filterMap fun e => if e.1 = k then some e.2 else none

/-- The entries with priority `k`, oldest first. -/
def level (q : PriorityQueue cap α) (k : Nat) : List α := ofLevel k q.entries

theorem length_place (p : Nat) (a : α) (l : List (Nat × α)) : (place p a l).length = l.length + 1 := by
  rw [place, List.length_append, List.length_cons, ← Nat.add_assoc, ← List.length_append, List.takeWhile_append_dropWhile]

/-- What stands behind the entries of priority `p` or more is lower. -/
theorem lt_of_mem_dropWhile {p : Nat} {l : List (Nat × α)} (h : l.Pairwise fun e f => f.1 ≤ e.1) :
    ∀ e ∈ l.dropWhile (fun e => p ≤ e.1), e.1 < p := by
  induction h with
  | nil => simp
  | @cons e l hl _ ih =>
    rw [List.dropWhile_cons]
    split
    · exact ih
    · rename_i he
      rw [decide_eq_true_eq, Nat.not_le] at he
      intro f hf
      rcases List.mem_cons.1 hf with rfl | hf
      · exact he
      · exact Nat.lt_of_le_of_lt (hl f hf) he

theorem sorted_place {p : Nat} {a : α} {l : List (Nat × α)} (h : l.Pairwise fun e f => f.1 ≤ e.1) :
    (place p a l).Pairwise fun e f => f.1 ≤ e.1 := by
  have hle : ∀ e ∈ l.takeWhile (fun e => p ≤ e.1), p ≤ e.1 := by
    intro e he
    simpa using List.mem_takeWhile_imp he
  have hlt := lt_of_mem_dropWhile (p := p) h
  rw [place, List.pairwise_append, List.pairwise_cons]
  refine ⟨h.sublist (List.takeWhile_sublist _), ⟨?_, h.sublist (List.dropWhile_sublist _)⟩, ?_⟩
  · intro e he
    exact Nat.le_of_lt (hlt e he)
  · intro e he f hf
    rcases List.mem_cons.1 hf with rfl | hf
    · exact hle e he
    · exact Nat.le_trans (Nat.le_of_lt (hlt f hf)) (hle e he)

/-- Adds an entry, unless the queue is full. -/
def push? (q : PriorityQueue cap α) (p : Nat) (a : α) : Option (PriorityQueue cap α) :=
  if h : q.entries.length < cap then
    some ⟨place p a q.entries, sorted_place q.sorted, by rw [length_place]; exact h⟩
  else none

/-- Hands out the first entry, unless the queue is empty. -/
def pop? : PriorityQueue cap α → Option ((Nat × α) × PriorityQueue cap α)
  | ⟨[], _, _⟩ => none
  | ⟨e :: l, hs, hb⟩ => some (e, ⟨l, hs.of_cons, Nat.le_of_succ_le hb⟩)

/-! ## The levels -/

theorem ofLevel_append (k : Nat) (l l' : List (Nat × α)) : ofLevel k (l ++ l') = ofLevel k l ++ ofLevel k l' :=
  List.filterMap_append

theorem ofLevel_eq_nil {k : Nat} {l : List (Nat × α)} (h : ∀ e ∈ l, e.1 ≠ k) : ofLevel k l = [] := by
  apply List.filterMap_eq_nil_iff.2
  intro e he
  exact if_neg (h e he)

@[simp] theorem level_empty (k : Nat) : (empty : PriorityQueue cap α).level k = [] := rfl

theorem push?_entries {q q' : PriorityQueue cap α} {p : Nat} {a : α} (h : q.push? p a = some q') :
    q'.entries = place p a q.entries := by
  unfold push? at h
  split at h
  · rw [← Option.some.inj h]
  · cases h

/-- A new entry is the last one of its level. -/
theorem level_push {q q' : PriorityQueue cap α} {p : Nat} {a : α} (h : q.push? p a = some q') (k : Nat) :
    q'.level k = if k = p then q.level k ++ [a] else q.level k := by
  have hl : q.level k = ofLevel k (q.entries.takeWhile fun e => p ≤ e.1) ++
      ofLevel k (q.entries.dropWhile fun e => p ≤ e.1) := by
    rw [← ofLevel_append, List.takeWhile_append_dropWhile, level]
  rw [level, push?_entries h, place, ofLevel_append, hl]
  by_cases hk : k = p
  · subst hk
    have hdrop : ofLevel k (q.entries.dropWhile fun e => k ≤ e.1) = [] :=
      ofLevel_eq_nil fun e he => Nat.ne_of_lt (lt_of_mem_dropWhile q.sorted e he)
    have hcons : ofLevel k ((k, a) :: q.entries.dropWhile fun e => k ≤ e.1) = [a] := by
      rw [← List.singleton_append, ofLevel_append, hdrop]
      simp [ofLevel]
    rw [if_pos rfl, hcons, hdrop, List.append_nil]
  · have hcons : ofLevel k ((p, a) :: q.entries.dropWhile fun e => p ≤ e.1) =
        ofLevel k (q.entries.dropWhile fun e => p ≤ e.1) := by
      rw [ofLevel, List.filterMap_cons, if_neg (Ne.symm hk), ofLevel]
    rw [if_neg hk, hcons]

/-- What is handed out is the first entry of the highest level that has one. -/
theorem level_pop {q q' : PriorityQueue cap α} {p : Nat} {a : α} (h : q.pop? = some ((p, a), q')) :
    (∀ k, q.level k = if k = p then a :: q'.level k else q'.level k) ∧ ∀ k, p < k → q.level k = [] := by
  obtain ⟨l, hs, hb⟩ := q
  cases l with
  | nil => cases h
  | cons e l =>
    simp only [pop?, Option.some.injEq, Prod.mk.injEq] at h
    obtain ⟨rfl, rfl⟩ := h
    refine ⟨fun k => ?_, fun k hk => ?_⟩
    · by_cases hkp : k = p
      · simp [level, ofLevel, hkp]
      · simp [level, ofLevel, hkp, Ne.symm hkp]
    · apply ofLevel_eq_nil
      intro f hf
      rcases List.mem_cons.1 hf with rfl | hf
      · exact Nat.ne_of_lt hk
      · exact Nat.ne_of_lt (Nat.lt_of_le_of_lt ((List.pairwise_cons.1 hs).1 f hf) hk)

theorem mem_of_pop {q q' : PriorityQueue cap α} {e : Nat × α} (h : q.pop? = some (e, q')) :
    e ∈ q.entries ∧ ∀ f ∈ q'.entries, f ∈ q.entries := by
  obtain ⟨l, hs, hb⟩ := q
  cases l with
  | nil => cases h
  | cons e' l =>
    simp only [pop?, Option.some.injEq, Prod.mk.injEq] at h
    obtain ⟨rfl, rfl⟩ := h
    exact ⟨List.mem_cons_self, fun f hf => List.mem_cons_of_mem _ hf⟩

theorem mem_of_push {q q' : PriorityQueue cap α} {p : Nat} {a : α} (h : q.push? p a = some q') :
    ∀ e ∈ q'.entries, e = (p, a) ∨ e ∈ q.entries := by
  intro e he
  rw [push?_entries h, place, List.mem_append, List.mem_cons] at he
  rcases he with he | rfl | he
  · exact .inr ((List.takeWhile_sublist _).mem he)
  · exact .inl rfl
  · exact .inr ((List.dropWhile_sublist _).mem he)

/-- A level has no more entries than the queue. -/
theorem length_level_le (q : PriorityQueue cap α) (k : Nat) : (q.level k).length ≤ cap :=
  Nat.le_trans (List.length_filterMap_le _ _) q.bounded

end PriorityQueue
end Lib
