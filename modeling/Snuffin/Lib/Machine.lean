import Mathlib.Data.List.Basic
import Mathlib.Order.Basic
/-!
# Transition systems and loops

A `Machine` has initial states and labelled steps. `ReachesBy M ok` are the
states reached by steps that all meet `ok`, a condition on the state before
the step and on its label, and `Run` keeps the whole history; it is matched by
a run of another machine if its steps are (`Run.matched`). What a program does
is not defined in every step: `undefinedUnless` lets it do anything in the rest.
A loop that tests after its body is `doWhile`, and a rank bounds how often it
runs.
-/

namespace Lib

/-- A labelled transition system. -/
structure Machine (σ α : Type) where
  init : σ → Prop
  step : σ → α → σ → Prop

namespace Machine
variable {σ α : Type}

/-- States reached from an initial state by steps that all meet `ok`. -/
inductive ReachesBy (M : Machine σ α) (ok : σ → α → Prop) : σ → Prop
  | init {s} : M.init s → ReachesBy M ok s
  | step {s a s'} : ReachesBy M ok s → ok s a → M.step s a s' → ReachesBy M ok s'

/-- States reached by any steps. -/
abbrev Reaches (M : Machine σ α) : σ → Prop := M.ReachesBy fun _ _ => True

/-- States reached from `s` by steps that all meet `ok`. -/
inductive StepsBy (M : Machine σ α) (ok : σ → α → Prop) (s : σ) : σ → Prop
  | refl : StepsBy M ok s s
  | tail {t a u} : StepsBy M ok s t → ok t a → M.step t a u → StepsBy M ok s u

/-- A run from `s`, with each step listed after the state it starts from. -/
inductive Run (M : Machine σ α) (s : σ) : List (σ × α) → σ → Prop
  | nil : Run M s [] s
  | snoc {tr t a u} : Run M s tr t → M.step t a u → Run M s (tr ++ [(t, a)]) u

variable {M : Machine σ α} {ok : σ → α → Prop}

/-- An invariant that the steps meeting `ok` keep holds in every state they
reach. -/
theorem ReachesBy.inv {I : σ → Prop} (h0 : ∀ s, M.init s → I s)
    (hs : ∀ s a s', I s → ok s a → M.step s a s' → I s') {s : σ} (h : M.ReachesBy ok s) : I s := by
  induction h with
  | init hi => exact h0 _ hi
  | step _ ho ht ih => exact hs _ _ _ ih ho ht

theorem ReachesBy.mono {ok' : σ → α → Prop} (hok : ∀ s a, ok s a → ok' s a) {s : σ} (h : M.ReachesBy ok s) :
    M.ReachesBy ok' s := by
  induction h with
  | init hi => exact .init hi
  | step _ ho ht ih => exact .step ih (hok _ _ ho) ht

/-- One more step, by its label. -/
theorem ReachesBy.next {s s' : σ} (h : M.Reaches s) (a : α) (hs : M.step s a s') : M.Reaches s' :=
  .step h trivial hs

theorem StepsBy.mono {ok' : σ → α → Prop} (hok : ∀ s a, ok s a → ok' s a) {s t : σ} (h : M.StepsBy ok s t) :
    M.StepsBy ok' s t := by
  induction h with
  | refl => exact .refl
  | tail _ ho ht ih => exact .tail ih (hok _ _ ho) ht

/-- Steps from a reachable state stay reachable. -/
theorem StepsBy.reachesBy {s t : σ} (hst : M.StepsBy ok s t) (hs : M.ReachesBy ok s) : M.ReachesBy ok t := by
  induction hst with
  | refl => exact hs
  | tail _ ho ht ih => exact .step ih ho ht

/-- In a run whose steps all meet `ok`, every step starts from a state such
steps reach, and so does what follows the run. -/
theorem Run.reachesBy {s t : σ} {tr : List (σ × α)} (h : M.Run s tr t) (hs : M.init s)
    (hok : ∀ e ∈ tr, ok e.1 e.2) : M.ReachesBy ok t ∧ ∀ e ∈ tr, M.ReachesBy ok e.1 := by
  induction h with
  | nil => exact ⟨.init hs, by simp⟩
  | @snoc tr t a u _ ht ih =>
    obtain ⟨h1, h2⟩ := ih fun e he => hok e (List.mem_append_left _ he)
    refine ⟨.step h1 (hok (t, a) (by simp)) ht, fun e he => ?_⟩
    rcases List.mem_append.1 he with he | he
    · exact h2 e he
    · rw [List.mem_singleton.1 he]; exact h1

/-- All states of a run are reachable. -/
theorem Run.reaches {s t : σ} {tr : List (σ × α)} (h : M.Run s tr t) (hs : M.init s) :
    M.Reaches t ∧ ∀ e ∈ tr, M.Reaches e.1 :=
  h.reachesBy hs fun _ _ => trivial

/-- A run from a reachable state stays reachable. -/
theorem Run.reaches_from {s t : σ} {tr : List (σ × α)} (h : M.Run s tr t) (hs : M.Reaches s) : M.Reaches t := by
  induction h with
  | nil => exact hs
  | snoc _ ht ih => exact ih.next _ ht

/-- Where each step keeps `P` exactly when it meets `ok`, a run has `P`
throughout exactly when all its steps meet `ok`. -/
theorem Run.all_iff {P : σ → Prop} {s t : σ} {tr : List (σ × α)} (h : M.Run s tr t) (h0 : P s)
    (hstep : ∀ l t a u, M.Run s l t → P t → M.step t a u → (P u ↔ ok t a)) :
    ((∀ e ∈ tr, P e.1) ∧ P t) ↔ ∀ e ∈ tr, ok e.1 e.2 := by
  induction h with
  | nil => exact iff_of_true ⟨by simp, h0⟩ (by simp)
  | @snoc tr t a u hrun hs ih =>
    simp only [List.forall_mem_append, List.forall_mem_singleton]
    constructor
    · rintro ⟨⟨hall, ht⟩, hu⟩
      exact ⟨ih.1 ⟨hall, ht⟩, (hstep tr t a u hrun ht hs).1 hu⟩
    · rintro ⟨hall, ha⟩
      obtain ⟨hall, ht⟩ := ih.2 hall
      exact ⟨⟨hall, ht⟩, (hstep tr t a u hrun ht hs).2 ha⟩

/-- The same beside an invariant `Q` that every step from a state with `P` keeps,
whether it keeps `P` or not. -/
theorem Run.all_iff_of {P Q : σ → Prop} {s t : σ} {tr : List (σ × α)} (h : M.Run s tr t) (hP : P s) (hQ : Q s)
    (hstep : ∀ t a u, P t → Q t → M.step t a u → Q u ∧ (P u ↔ ok t a)) :
    ((∀ e ∈ tr, P e.1) ∧ P t) ↔ ∀ e ∈ tr, ok e.1 e.2 := by
  have hboth : (((∀ e ∈ tr, P e.1) ∧ P t) ↔ ∀ e ∈ tr, ok e.1 e.2) ∧ ((∀ e ∈ tr, P e.1) → P t → Q t) := by
    induction h with
    | nil => exact ⟨iff_of_true ⟨by simp, hP⟩ (by simp), fun _ _ => hQ⟩
    | @snoc tr t a u _ hs ih =>
      simp only [List.forall_mem_append, List.forall_mem_singleton]
      refine ⟨⟨?_, ?_⟩, fun hall _ => (hstep t a u hall.2 (ih.2 hall.1 hall.2) hs).1⟩
      · rintro ⟨⟨hall, ht⟩, hu⟩
        exact ⟨ih.1.1 ⟨hall, ht⟩, (hstep t a u ht (ih.2 hall ht) hs).2.1 hu⟩
      · rintro ⟨hall, ha⟩
        obtain ⟨hall, ht⟩ := ih.1.2 hall
        exact ⟨⟨hall, ht⟩, (hstep t a u ht (ih.2 hall ht) hs).2.2 ha⟩
  exact hboth.1

/-- The machine with the steps of `M` that meet `ok`. What it does in any other
step is not defined, so it may go anywhere. -/
def undefinedUnless (M : Machine σ α) (ok : σ → α → Prop) : Machine σ α where
  init := M.init
  step s a s' := ok s a → M.step s a s'

section Undefined
variable {ok' : σ → α → Prop}

/-- Steps that are defined are those of `M`. -/
theorem ReachesBy.defined (hok : ∀ s a, ok' s a → ok s a) {s : σ} (h : (M.undefinedUnless ok).ReachesBy ok' s) :
    M.ReachesBy ok' s := by
  induction h with
  | init hi => exact .init hi
  | step _ ho ht ih => exact .step ih ho (ht (hok _ _ ho))

theorem StepsBy.defined (hok : ∀ s a, ok' s a → ok s a) {s t : σ} (h : (M.undefinedUnless ok).StepsBy ok' s t) :
    M.StepsBy ok' s t := by
  induction h with
  | refl => exact .refl
  | tail _ ho ht ih => exact .tail ih ho (ht (hok _ _ ho))

theorem Run.defined {s t : σ} {tr : List (σ × α)} (h : (M.undefinedUnless ok).Run s tr t)
    (hok : ∀ e ∈ tr, ok e.1 e.2) : M.Run s tr t := by
  induction h with
  | nil => exact .nil
  | snoc _ ht ih =>
    rw [List.forall_mem_append, List.forall_mem_singleton] at hok
    exact .snoc (ih hok.1) (ht hok.2)

/-- What `M` does, it also does there. -/
theorem ReachesBy.undefined {s : σ} (h : M.ReachesBy ok' s) : (M.undefinedUnless ok).ReachesBy ok' s := by
  induction h with
  | init hi => exact .init hi
  | step _ ho ht ih => exact .step ih ho fun _ => ht

theorem Run.undefined {s t : σ} {tr : List (σ × α)} (h : M.Run s tr t) : (M.undefinedUnless ok).Run s tr t := by
  induction h with
  | nil => exact .nil
  | snoc _ ht ih => exact .snoc ih fun _ => ht

end Undefined

/-- A machine whose steps are a function of the label. -/
def ofFun (s₀ : σ) (f : σ → α → Option σ) : Machine σ α := ⟨fun s => s = s₀, fun s a s' => f s a = some s'⟩

/-- The steps with the labels `l` in order, while all meet `ok`. -/
def runActs (f : σ → α → Option σ) (ok : σ → α → Prop) [∀ s a, Decidable (ok s a)] : σ → List α → Option σ
  | s, [] => some s
  | s, a :: l => if ok s a then (f s a).bind fun t => runActs f ok t l else none

theorem reachesBy_of_runActs {s₀ : σ} {f : σ → α → Option σ} [∀ s a, Decidable (ok s a)] {l : List α} {s t : σ}
    (hs : (ofFun s₀ f).ReachesBy ok s) (h : runActs f ok s l = some t) : (ofFun s₀ f).ReachesBy ok t := by
  induction l generalizing s with
  | nil => cases h; exact hs
  | cons a l ih =>
    simp only [runActs] at h
    split at h
    · obtain ⟨u, hu, ht⟩ := Option.bind_eq_some_iff.1 h
      exact ih (.step hs ‹_› hu) ht
    · cases h

/-- A state that passes a test is reached when such a run ends in one. -/
theorem exists_of_runActs {s₀ : σ} {f : σ → α → Option σ} [∀ s a, Decidable (ok s a)] {s : σ}
    (hs : (ofFun s₀ f).ReachesBy ok s) (l : List α) (p : σ → Bool) (h : (runActs f ok s l).any p = true) :
    ∃ t, (ofFun s₀ f).ReachesBy ok t ∧ p t = true := by
  obtain ⟨t, ht, hp⟩ := (Option.any_eq_true _ _).1 h
  exact ⟨t, reachesBy_of_runActs hs ht, hp⟩

theorem Run.cons {s t u : σ} {a : α} {tr : List (σ × α)} (hs : M.step s a t) (h : M.Run t tr u) :
    M.Run s ((s, a) :: tr) u := by
  induction h with
  | nil => exact .snoc .nil hs
  | snoc _ ht ih => exact .snoc ih ht

theorem Run.append {s t u : σ} {tr tr' : List (σ × α)} (h : M.Run s tr t) (h' : M.Run t tr' u) :
    M.Run s (tr ++ tr') u := by
  induction h' with
  | nil => rwa [List.append_nil]
  | snoc _ hs ih =>
    rw [← List.append_assoc]
    exact .snoc ih hs

/-- The steps with the labels `l` in order, with their history. -/
def trace (f : σ → α → Option σ) : σ → List α → Option (List (σ × α) × σ)
  | s, [] => some ([], s)
  | s, a :: l => (f s a).bind fun t => (trace f t l).map fun r => ((s, a) :: r.1, r.2)

theorem run_of_trace {s₀ : σ} {f : σ → α → Option σ} {l : List α} {s : σ} {r : List (σ × α) × σ}
    (h : trace f s l = some r) : (ofFun s₀ f).Run s r.1 r.2 := by
  induction l generalizing s r with
  | nil =>
    cases h
    exact .nil
  | cons a l ih =>
    obtain ⟨t, ht, h⟩ := Option.bind_eq_some_iff.1 h
    obtain ⟨r', hr', rfl⟩ := Option.map_eq_some_iff.1 h
    exact .cons ht (ih hr')

end Machine

/-! ## Loops that test after the body -/

section Loop
variable {σ : Type}

/-- `do s = body(s); while (!stop(s))`, where the `k`-th round may read an
input of its own. It gives the number of rounds and the last state, or `none`
when the body fails or `fuel` rounds were not enough. -/
def doWhile (body : Nat → σ → Option σ) (stop : σ → Bool) : Nat → Nat → σ → Option (Nat × σ)
  | 0, _, _ => none
  | fuel + 1, k, s =>
    match body k s with
    | none => none
    | some s' => if stop s' then some (k + 1, s') else doWhile body stop fuel (k + 1) s'

/-- The state after the first rounds of a loop that is not stopped. -/
def rounds (body : Nat → σ → Option σ) : Nat → σ → Option σ
  | 0, s => some s
  | k + 1, s => (rounds body k s).bind (body k)

/-- A loop that stopped after `n` rounds was not stopped by any earlier one. -/
theorem rounds_of_doWhile {body : Nat → σ → Option σ} {stop : σ → Bool} {fuel k n : Nat} {s₀ s s' : σ}
    (hk : rounds body k s₀ = some s) (h : doWhile body stop fuel k s = some (n, s')) :
    ∃ m t, n = m + 1 ∧ k ≤ m ∧ rounds body m s₀ = some t ∧ (m = k ∨ stop t = false) ∧ body m t = some s' ∧
      stop s' = true := by
  induction fuel generalizing k s with
  | zero => cases h
  | succ fuel ih =>
    rw [doWhile] at h
    split at h
    · cases h
    · rename_i t ht
      split at h
      · obtain ⟨rfl, rfl⟩ := Prod.mk.inj (Option.some.inj h)
        exact ⟨k, s, rfl, Nat.le_refl k, hk, .inl rfl, ht, ‹_›⟩
      · rename_i hgo
        have hnext : rounds body (k + 1) s₀ = some t := by rw [rounds, hk]; exact ht
        obtain ⟨m, u, hn, hle, hu, hstop, hlast, hover⟩ := ih hnext h
        refine ⟨m, u, hn, by omega, hu, .inr ?_, hlast, hover⟩
        rcases hstop with rfl | hstop
        · rw [hnext, Option.some.injEq] at hu
          rw [← hu]; simpa using hgo
        · exact hstop

/-- What every round keeps holds after any number of them. -/
theorem rounds_inv {body : Nat → σ → Option σ} {I : σ → Prop} (hstep : ∀ k s, I s → ∃ s', body k s = some s' ∧ I s')
    (k : Nat) {s : σ} (h : I s) : ∃ s', rounds body k s = some s' ∧ I s' := by
  induction k with
  | zero => exact ⟨s, rfl, h⟩
  | succ k ih =>
    obtain ⟨t, ht, hI⟩ := ih
    obtain ⟨s', hs', hI'⟩ := hstep k t hI
    exact ⟨s', by rw [rounds, ht]; exact hs', hI'⟩

/-- A loop whose body never fails and takes `d` off the rank in every round
that does not stop it ends before the rank is used up. -/
theorem doWhile_ends {body : Nat → σ → Option σ} {stop : σ → Bool} (I : σ → Prop) (rank : σ → Nat) (d : Nat)
    (hbody : ∀ k s, I s → ∃ s', body k s = some s' ∧ (stop s' = false → I s' ∧ rank s' + d ≤ rank s))
    (fuel k : Nat) (s : σ) (hI : I s) (hr : rank s < d * fuel) :
    ∃ n s', doWhile body stop fuel k s = some (n, s') ∧ n ≤ k + fuel ∧ stop s' = true := by
  induction fuel generalizing k s with
  | zero => simp at hr
  | succ fuel ih =>
    obtain ⟨s', hs', hkeep⟩ := hbody k s hI
    cases hstop : stop s' with
    | true => exact ⟨k + 1, s', by simp [doWhile, hs', hstop], by omega, hstop⟩
    | false =>
      obtain ⟨hI', hle⟩ := hkeep hstop
      have hr' : rank s' < d * fuel := by rw [Nat.mul_succ] at hr; omega
      obtain ⟨n, t, ht, hn, hst⟩ := ih (k + 1) s' hI' hr'
      exact ⟨n, t, by simpa [doWhile, hs', hstop] using ht, by omega, hst⟩

end Loop

end Lib
