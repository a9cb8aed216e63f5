import Snuffin.Lib.Machine
import Mathlib.Logic.Function.Basic
/-!
# The accept thread (listenNewClients)

The thread recounts the table slot by slot, keeps the first slot it saw empty
in `nextEmpty`, and writes there only after the next `accept`, while the
request thread may empty any slot at any moment. Only this thread fills
slots, so a slot it saw empty is still empty when it writes.
-/
open Lib

namespace Snuffin.Accept

/-- Where the thread is. -/
inductive Pc (γ : Type) where
  /-- At `if (nPlayers < MAX_PLAYERS)`. -/
  | check
  /-- Blocked in `acceptConnection`. -/
  | accepting
  /-- About to run `clients[nextEmpty] = c`. -/
  | insert (c : γ)
  /-- About to test `i < MAX_PLAYERS` and read `clients[i]`. -/
  | scan (i : Nat)

structure Thread (γ : Type) where
  clients : Nat → Option γ
  nPlayers : Nat
  nextEmpty : Nat
  pc : Pc γ

/-- The labels: a step of the thread, with the client when it accepts one, and
`disconnect(n)` of the request thread. -/
inductive Act (γ : Type) where
  | test
  | accept (c : γ)
  | insert
  | read
  | disconnect (n : Nat)

variable {γ : Type}

/-- The body of the recount loop, once `clients[i]` is read as `cell`. -/
def recount (i : Nat) (cell : Option γ) (s : Thread γ) : Thread γ :=
  match cell with
  | some _ =>
    { s with
      nPlayers := s.nPlayers + 1
      nextEmpty := if s.nextEmpty = i then s.nextEmpty + 1 else s.nextEmpty
      pc := .scan (i + 1) }
  | none => { s with nextEmpty := if s.nextEmpty > i then i else s.nextEmpty, pc := .scan (i + 1) }

/-- The accept thread on a table of `N` slots, and the departures. -/
inductive Step (N : Nat) : Thread γ → Act γ → Thread γ → Prop
  | room {s} : s.pc = .check → s.nPlayers < N → Step N s .test { s with pc := .accepting }
  | full {s} : s.pc = .check → ¬s.nPlayers < N → Step N s .test { s with nPlayers := 0, pc := .scan 0 }
  | accept {s} (c) : s.pc = .accepting → Step N s (.accept c) { s with pc := .insert c }
  | insert {s c} : s.pc = .insert c →
      Step N s .insert
        { s with clients := Function.update s.clients s.nextEmpty (some c), nPlayers := 0, pc := .scan 0 }
  | read {s i} : s.pc = .scan i → i < N → Step N s .read (recount i (s.clients i) s)
  | done {s i} : s.pc = .scan i → ¬i < N → Step N s .read { s with pc := .check }
  | disconnect {s} (n) : Step N s (.disconnect n) { s with clients := Function.update s.clients n none }

/-- The thread starts on an empty table. -/
def acceptMachine (γ : Type) (N : Nat) : Machine (Thread γ) (Act γ) where
  init s := s = ⟨fun _ => none, 0, 0, .check⟩
  step := Step N

/-- `nextEmpty` is an empty slot of the table. -/
def Free (N : Nat) (s : Thread γ) : Prop := s.nextEmpty < N ∧ s.clients s.nextEmpty = none

/-- What holds at each place: during the recount, `nextEmpty` is either a slot
already seen empty, or every slot read so far was occupied. -/
def AtPc (N : Nat) (s : Thread γ) : Pc γ → Prop
  | .check => s.nPlayers < N → Free N s
  | .accepting => Free N s
  | .insert _ => Free N s
  | .scan i => i ≤ N ∧ (s.nextEmpty < i → s.clients s.nextEmpty = none) ∧ (i ≤ s.nextEmpty → s.nPlayers = i)

structure Inv (N : Nat) (s : Thread γ) : Prop where
  next_le : s.nextEmpty ≤ N
  outside : ∀ n, N ≤ n → s.clients n = none
  at_pc : AtPc N s s.pc

/-- Emptying a slot keeps every empty slot empty. -/
theorem none_of_update {t : Nat → Option γ} (n : Nat) {m : Nat} (h : t m = none) :
    Function.update t n none m = none := by
  by_cases hm : m = n
  · subst hm; simp
  · simpa [hm] using h

theorem inv_recount {N i : Nat} {s : Thread γ} (h : Inv N s) (hpc : s.pc = .scan i) (hi : i < N) :
    Inv N (recount i (s.clients i) s) := by
  have hat := h.at_pc
  rw [hpc] at hat
  obtain ⟨-, hseen, hcount⟩ := hat
  have hle := h.next_le
  cases hc : s.clients i with
  | some c =>
    by_cases he : s.nextEmpty = i
    · simp only [recount, if_pos he]
      refine ⟨?_, h.outside, ?_⟩
      · dsimp only; omega
      · simp only [AtPc]
        refine ⟨by omega, fun hlt => by omega, fun _ => ?_⟩
        rw [hcount (by omega)]
    · simp only [recount, if_neg he]
      refine ⟨hle, h.outside, ?_⟩
      simp only [AtPc]
      refine ⟨by omega, fun hlt => hseen (by omega), fun hge => ?_⟩
      rw [hcount (by omega)]
  | none =>
    by_cases hgt : s.nextEmpty > i
    · simp only [recount, if_pos hgt]
      refine ⟨?_, h.outside, ?_⟩
      · dsimp only; omega
      · simp only [AtPc]
        exact ⟨by omega, fun _ => hc, fun hge => by omega⟩
    · simp only [recount, if_neg hgt]
      refine ⟨hle, h.outside, ?_⟩
      simp only [AtPc]
      refine ⟨by omega, fun hlt => ?_, fun hge => by omega⟩
      rcases Nat.lt_or_ge s.nextEmpty i with hlt' | hge
      · exact hseen hlt'
      · rw [show s.nextEmpty = i by omega]; exact hc

theorem inv_step {N : Nat} {s s' : Thread γ} {a : Act γ} (h : Inv N s) (hs : Step N s a s') : Inv N s' := by
  have hat := h.at_pc
  cases hs with
  | room hpc hlt => rw [hpc] at hat; exact ⟨h.next_le, h.outside, hat hlt⟩
  | full hpc hlt => exact ⟨h.next_le, h.outside, by omega, by simp, by simp⟩
  | accept c hpc => rw [hpc] at hat; exact ⟨h.next_le, h.outside, hat⟩
  | insert hpc =>
    rw [hpc] at hat
    refine ⟨h.next_le, fun n hn => ?_, by omega, by simp, by simp⟩
    have hne : n ≠ s.nextEmpty := by have := hat.1; omega
    simpa [hne] using h.outside n hn
  | read hpc hi => exact inv_recount h hpc hi
  | @done i hpc hi =>
    rw [hpc] at hat
    obtain ⟨hle, hseen, hcount⟩ := hat
    refine ⟨h.next_le, h.outside, fun hlt => ?_⟩
    -- A full count means that no slot was seen empty.
    have hne : s.nextEmpty < i := by
      by_contra hge
      have := hcount (by omega)
      dsimp only at hlt
      omega
    exact ⟨by dsimp only; omega, hseen hne⟩
  | disconnect n =>
    refine ⟨h.next_le, fun m hm => none_of_update n (h.outside m hm), ?_⟩
    revert hat
    dsimp only
    cases s.pc with
    | check => exact fun hat hlt => ⟨(hat hlt).1, none_of_update n (hat hlt).2⟩
    | accepting => exact fun hat => ⟨hat.1, none_of_update n hat.2⟩
    | insert c => exact fun hat => ⟨hat.1, none_of_update n hat.2⟩
    | scan i => exact fun hat => ⟨hat.1, fun hlt => none_of_update n (hat.2.1 hlt), hat.2.2⟩

theorem inv_init (N : Nat) : Inv N (⟨fun _ => none, 0, 0, .check⟩ : Thread γ) :=
  ⟨Nat.zero_le _, fun _ _ => rfl, fun hlt => ⟨hlt, rfl⟩⟩

theorem accept_inv {N : Nat} {s : Thread γ} (h : (acceptMachine γ N).Reaches s) : Inv N s :=
  h.inv (I := Inv N) (fun _ hs => by rw [hs]; exact inv_init N) fun _ _ _ hi _ hs => inv_step hi hs

/-- Whenever the thread runs `clients[nextEmpty] = c`, the index is in the
table and the slot is empty, so no client is overwritten, and nothing outside
the table is ever written. -/
theorem inserts_into_empty_slot {N : Nat} {s : Thread γ} (h : (acceptMachine γ N).Reaches s) :
    (∀ c, s.pc = .insert c → s.nextEmpty < N ∧ s.clients s.nextEmpty = none) ∧ ∀ n, N ≤ n → s.clients n = none := by
  have hi := accept_inv h
  refine ⟨fun c hpc => ?_, hi.outside⟩
  have hat := hi.at_pc
  rw [hpc] at hat
  exact hat

/-- In a table of two the first client leaves while the thread recounts, after
its slot has been read, and the second client is put beside the empty slot. The
third one goes there. -/
theorem inserts_into_empty_slot_first : ∃ s : Thread Nat, (acceptMachine Nat 2).Reaches s ∧
    (s.pc = .insert 9 ∧ s.nextEmpty = 0 ∧ s.clients 1 = some 8) ∧
    (∀ c, s.pc = .insert c → s.nextEmpty < 2 ∧ s.clients s.nextEmpty = none) ∧ ∀ n, 2 ≤ n → s.clients n = none := by
  have h0 : (acceptMachine Nat 2).Reaches ⟨fun _ => none, 0, 0, .check⟩ := .init rfl
  have hfirst := ((h0.next .test (.room rfl (by decide))).next (.accept 7) (.accept 7 rfl)).next .insert (.insert rfl)
  have hread := hfirst.next .read (.read (i := 0) rfl (by decide))
  have hleft := hread.next (.disconnect 0) (.disconnect 0)
  have hcounted := (hleft.next .read (.read (i := 1) rfl (by decide))).next .read (.done (i := 2) rfl (by decide))
  have hsecond := ((hcounted.next .test (.room rfl (by decide))).next (.accept 8) (.accept 8 rfl)).next
    .insert (.insert rfl)
  have hagain := ((hsecond.next .read (.read (i := 0) rfl (by decide))).next .read (.read (i := 1) rfl (by decide))).next
    .read (.done (i := 2) rfl (by decide))
  have hthird := (hagain.next .test (.room rfl (by decide))).next (.accept 9) (.accept 9 rfl)
  exact ⟨_, hthird, ⟨rfl, rfl, rfl⟩, inserts_into_empty_slot hthird⟩

end Snuffin.Accept
