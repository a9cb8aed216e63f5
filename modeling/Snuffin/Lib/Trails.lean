import Snuffin.Lib.Machine
import Mathlib.Data.List.Chain
import Mathlib.Data.Fintype.Basic
/-!
# Games of trails

Players `ι` that draw trails on cells `κ`, one cell in each round, in a fixed
order. Whoever would enter a cell of a trail is lost, and the trails stay. So
no two trails meet and none meets itself (`Trails` says so), and each is a path
of the relation `adj` between cells.
-/

namespace Lib

/-- The trails, newest cell first, and who is still in the game. -/
structure Trails (ι κ : Type) where
  trail : ι → List κ
  alive : ι → Prop
  nodup : ∀ i, (trail i).Nodup
  apart : ∀ i j c, c ∈ trail i → c ∈ trail j → i = j

namespace Trails
variable {ι κ : Type}

/-! ## The moves -/

def empty : Trails ι κ := ⟨fun _ => [], fun _ => False, fun _ => .nil, by simp⟩

/-- No trail goes through the cell. -/
def Free (T : Trails ι κ) (c : κ) : Prop := ∀ i, c ∉ T.trail i

def lose [DecidableEq ι] (T : Trails ι κ) (i : ι) : Trails ι κ := { T with alive := Function.update T.alive i False }

/-- Some cells that no trail goes through become the newest ones of a trail. -/
def extend [DecidableEq ι] (T : Trails ι κ) (i : ι) (l : List κ) (hl : l.Nodup) (hf : ∀ c ∈ l, T.Free c) : Trails ι κ where
  trail := Function.update T.trail i (l ++ T.trail i)
  alive := T.alive
  nodup j := by
    by_cases hj : j = i
    · subst hj
      rw [Function.update_self, List.nodup_append]
      exact ⟨hl, T.nodup j, fun c hc d hd he => hf c hc j (he ▸ hd)⟩
    · rw [Function.update_of_ne hj]
      exact T.nodup j
  apart j k c hj hk := by
    by_cases hji : j = i <;> by_cases hki : k = i
    · rw [hji, hki]
    · subst hji
      rw [Function.update_self, List.mem_append] at hj
      rw [Function.update_of_ne hki] at hk
      rcases hj with hj | hj
      · exact absurd hk (hf c hj k)
      · exact T.apart j k c hj hk
    · subst hki
      rw [Function.update_self, List.mem_append] at hk
      rw [Function.update_of_ne hji] at hj
      rcases hk with hk | hk
      · exact absurd hj (hf c hk j)
      · exact T.apart j k c hj hk
    · rw [Function.update_of_ne hji] at hj
      rw [Function.update_of_ne hki] at hk
      exact T.apart j k c hj hk

theorem mem_extend [DecidableEq ι] {T : Trails ι κ} {i j : ι} {l : List κ} {hl : l.Nodup} {hf : ∀ c ∈ l, T.Free c}
    {c : κ} : c ∈ (T.extend i l hl hf).trail j ↔ (j = i ∧ c ∈ l) ∨ c ∈ T.trail j := by
  by_cases hj : j = i
  · subst hj
    simp [extend]
  · simp [extend, hj]

/-- A player appears with a trail. -/
def join [DecidableEq ι] (T : Trails ι κ) (i : ι) (l : List κ) (hl : l.Nodup) (hf : ∀ c ∈ l, T.Free c) : Trails ι κ :=
  { T.extend i l hl hf with alive := Function.update T.alive i True }

section Round
variable [DecidableEq ι]

open Classical in
/-- A player who is in the game enters the cell `c`, or is lost. -/
noncomputable def turn (T : Trails ι κ) (i : ι) (c : κ) : Trails ι κ :=
  if T.alive i then
    if h : T.Free c then T.extend i [c] (List.nodup_singleton c) (by simpa using h) else T.lose i
  else T

/-- The turns of the players in `l`. -/
noncomputable def round (T : Trails ι κ) (target : ι → κ) (l : List ι) : Trails ι κ :=
  l.foldl (fun T i => T.turn i (target i)) T

/-! ## What a turn does -/

theorem turn_out {T : Trails ι κ} {i : ι} {c : κ} (h : ¬T.alive i) : T.turn i c = T := if_neg h

theorem turn_lost {T : Trails ι κ} {i : ι} {c : κ} (h : T.alive i) (hc : ¬T.Free c) : T.turn i c = T.lose i := by
  rw [turn, if_pos h, dif_neg hc]

theorem turn_enters {T : Trails ι κ} {i : ι} {c : κ} (h : T.alive i) (hc : T.Free c) :
    T.turn i c = T.extend i [c] (List.nodup_singleton c) (by simpa using hc) := by
  rw [turn, if_pos h, dif_pos hc]

/-- What a turn does to its own trail and player, and to the others. -/
theorem turn_cases (T : Trails ι κ) (i : ι) (c : κ) :
    (¬T.alive i ∧ (T.turn i c).trail = T.trail ∧ (T.turn i c).alive = T.alive) ∨
      (T.alive i ∧ ¬T.Free c ∧ (T.turn i c).trail = T.trail ∧ (T.turn i c).alive = Function.update T.alive i False) ∨
      (T.alive i ∧ T.Free c ∧ (T.turn i c).trail = Function.update T.trail i (c :: T.trail i) ∧
        (T.turn i c).alive = T.alive) := by
  by_cases h : T.alive i
  · by_cases hc : T.Free c
    · rw [turn_enters h hc]
      exact .inr (.inr ⟨h, hc, rfl, rfl⟩)
    · rw [turn_lost h hc]
      exact .inr (.inl ⟨h, hc, rfl, rfl⟩)
  · rw [turn_out h]
    exact .inl ⟨h, rfl, rfl⟩

theorem turn_other {T : Trails ι κ} {i j : ι} (c : κ) (hj : j ≠ i) :
    (T.turn i c).trail j = T.trail j ∧ ((T.turn i c).alive j ↔ T.alive j) := by
  rcases T.turn_cases i c with ⟨-, ht, ha⟩ | ⟨-, -, ht, ha⟩ | ⟨-, -, ht, ha⟩ <;> rw [ht, ha] <;> simp [hj]

theorem round_cons (T : Trails ι κ) (target : ι → κ) (i : ι) (l : List ι) :
    T.round target (i :: l) = (T.turn i (target i)).round target l := rfl

/-- A turn takes no cell off a trail. -/
theorem suffix_turn (T : Trails ι κ) (i : ι) (c : κ) (j : ι) : T.trail j <:+ (T.turn i c).trail j := by
  rcases T.turn_cases i c with ⟨-, ht, -⟩ | ⟨-, -, ht, -⟩ | ⟨-, -, ht, -⟩
  · rw [ht]
  · rw [ht]
  · rw [ht]
    by_cases hj : j = i
    · subst hj
      rw [Function.update_self]
      exact List.suffix_cons _ _
    · rw [Function.update_of_ne hj]

theorem suffix_round (T : Trails ι κ) (target : ι → κ) (l : List ι) (j : ι) : T.trail j <:+ (T.round target l).trail j := by
  induction l generalizing T with
  | nil => exact List.suffix_refl _
  | cons i l ih => exact (T.suffix_turn i (target i) j).trans (ih _)

/-- The turns of others do nothing to a player. -/
theorem round_other (T : Trails ι κ) (target : ι → κ) {l : List ι} {j : ι} (hj : j ∉ l) :
    (T.round target l).trail j = T.trail j ∧ ((T.round target l).alive j ↔ T.alive j) := by
  induction l generalizing T with
  | nil => exact ⟨rfl, .rfl⟩
  | cons i l ih =>
    rw [List.mem_cons, not_or] at hj
    obtain ⟨ht, ha⟩ := turn_other (T := T) (target i) hj.1
    obtain ⟨ht', ha'⟩ := ih (T.turn i (target i)) hj.2
    exact ⟨ht'.trans ht, ha'.trans ha⟩

/-- Whoever goes for a cell that had been marked before the round is lost. -/
theorem round_lost {T : Trails ι κ} {target : ι → κ} {l : List ι} {i j : ι} (hi : i ∈ l) (hn : l.Nodup)
    (h : target i ∈ T.trail j) : (T.round target l).trail i = T.trail i ∧ ¬(T.round target l).alive i := by
  induction l generalizing T with
  | nil => cases hi
  | cons k l ih =>
    rw [List.nodup_cons] at hn
    have hmarked : target i ∈ (T.turn k (target k)).trail j := (T.suffix_turn k (target k) j).mem h
    rcases List.mem_cons.1 hi with rfl | hi'
    · obtain ⟨ht, ha⟩ := (T.turn i (target i)).round_other target hn.1
      rw [round_cons, ht, ha]
      rcases T.turn_cases i (target i) with ⟨hout, ht, ha⟩ | ⟨-, -, ht, ha⟩ | ⟨-, hfree, -⟩
      · rw [ht, ha]
        exact ⟨rfl, hout⟩
      · rw [ht, ha, Function.update_self]
        exact ⟨rfl, id⟩
      · exact absurd h (hfree j)
    · obtain ⟨ht, -⟩ := turn_other (T := T) (target k) (show i ≠ k by rintro rfl; exact hn.1 hi')
      rw [round_cons, ← ht]
      exact ih hi' hn.2 hmarked

/-- Whoever is still in the game after a round has entered the cell it went
for. -/
theorem round_enters {T : Trails ι κ} {target : ι → κ} {l : List ι} {i : ι} (hi : i ∈ l) (hn : l.Nodup)
    (h : (T.round target l).alive i) : (T.round target l).trail i = target i :: T.trail i ∧ T.alive i := by
  induction l generalizing T with
  | nil => cases hi
  | cons k l ih =>
    rw [List.nodup_cons] at hn
    rw [round_cons] at h ⊢
    rcases List.mem_cons.1 hi with rfl | hi'
    · obtain ⟨ht, ha⟩ := (T.turn i (target i)).round_other target hn.1
      rw [ht]
      rw [ha] at h
      rcases T.turn_cases i (target i) with ⟨hout, -, ha⟩ | ⟨-, -, -, ha⟩ | ⟨hin, -, ht, -⟩
      · exact absurd (ha ▸ h) hout
      · rw [ha, Function.update_self] at h
        exact h.elim
      · rw [ht, Function.update_self]
        exact ⟨rfl, hin⟩
    · obtain ⟨ht, ha⟩ := turn_other (T := T) (target k) (show i ≠ k by rintro rfl; exact hn.1 hi')
      rw [← ht, ← ha]
      exact ih hi' hn.2 h

end Round

/-! ## Whole games -/

/-- Players join while nobody has moved, and then there are rounds. -/
inductive Act (ι κ : Type) where
  | join (i : ι) (l : List κ)
  | round (target : ι → κ)

/-- In a round, players go for cells next to the ends of their trails. -/
def machine [DecidableEq ι] (adj : κ → κ → Prop) (order : List ι) : Machine (Trails ι κ) (Act ι κ) where
  init T := T = empty
  step T a T' :=
    match a with
    | .join i l => T.trail i = [] ∧ l.IsChain adj ∧ ∃ hl hf, T' = T.join i l hl hf
    | .round target => (∀ i c, T.alive i → (T.trail i).head? = some c → adj (target i) c) ∧ T' = T.round target order

variable [DecidableEq ι] {adj : κ → κ → Prop} {order : List ι}

end Trails
end Lib
