import Snuffin.ChildServer
import Mathlib.Data.List.Find
/-!
# Waiting for a client (childServer.c)

`listenToClients` puts the descriptors of all clients into a set that nothing
has cleared, gives it to `select`, and returns the first client whose
descriptor is still in it. It does so before it looks at what `select`
returned, and a `select` that fails leaves the set as it was.
-/

namespace Snuffin.ChildServer

/-! ## The code -/

/-- What one `select` meets: an error, no event for a second, or descriptors
with something to read. -/
inductive Outcome where
  | failed
  | timeout
  | ready (r : Nat → Bool)

/-- `maxFD` and `cli`. -/
structure Watched where
  maxFD : Nat
  cli : Nat → Bool

/-- The body of the first `for`. The number of a connection is its
descriptor. -/
def watchSlot (t : Table) (w : Watched) (i : Slot) : Watched :=
  match t i with
  | some c => ⟨if c.con > w.maxFD then c.con else w.maxFD, Function.update w.cli c.con true⟩
  | none => w

def watchClients (t : Table) (w : Watched) : Watched := (List.finRange maxPlayers).foldl (watchSlot t) w

/-- `select(nfds, &cli, NULL, NULL, &tv)`: what it returns and the set after
it. It looks at the descriptors below `nfds` only. -/
def select (nfds : Nat) (cli : Nat → Bool) : Outcome → Int × (Nat → Bool)
  | .failed => (-1, cli)
  | .timeout => (0, fun d => if d < nfds then false else cli d)
  | .ready r => (((List.range nfds).filter fun d => cli d && r d).length, fun d => if d < nfds then cli d && r d else cli d)

/-- The second `for`. -/
def firstSet (t : Table) (cli : Nat → Bool) : Option Slot :=
  (List.finRange maxPlayers).find? fun i => (t i).any fun c => cli c.con

/-- A call is still in `select`, or it has returned -1 or a slot, after a last
outcome of `select`. -/
inductive Listened where
  | waiting
  | returned (res : Option Slot) (last : Outcome)

/-- The loop of `listenToClients`, for as many outcomes as there are. -/
def listenLoop (t : Table) : Watched → List Outcome → Listened
  | _, [] => .waiting
  | w, o :: os =>
    let w := watchClients t w
    let (res, cli) := select (w.maxFD + 1) w.cli o
    match firstSet t cli with
    | some i => .returned (some i) o
    | none => if res ≠ -1 then listenLoop t ⟨w.maxFD, cli⟩ os else .returned none o

/-- `listenToClients`; `cli` is what the set holds before it is used. -/
def listenToClients (t : Table) (cli : Nat → Bool) (os : List Outcome) : Listened := listenLoop t ⟨0, cli⟩ os

/-! ## The set -/

theorem watchSlot_spec (t : Table) (l : List Slot) (w : Watched) :
    w.maxFD ≤ (l.foldl (watchSlot t) w).maxFD ∧ (∀ d, w.cli d = true → (l.foldl (watchSlot t) w).cli d = true) ∧
      ∀ i ∈ l, ∀ c, t i = some c →
        c.con ≤ (l.foldl (watchSlot t) w).maxFD ∧ (l.foldl (watchSlot t) w).cli c.con = true := by
  induction l generalizing w with
  | nil => exact ⟨Nat.le_refl _, fun _ h => h, fun _ hi => absurd hi List.not_mem_nil⟩
  | cons j l ih =>
    obtain ⟨hmax, hkept, hall⟩ := ih (watchSlot t w j)
    rw [List.foldl_cons]
    have hj : w.maxFD ≤ (watchSlot t w j).maxFD ∧ ∀ d, w.cli d = true → (watchSlot t w j).cli d = true := by
      unfold watchSlot
      cases t j with
      | none => exact ⟨Nat.le_refl _, fun _ h => h⟩
      | some c =>
        refine ⟨by dsimp only; split <;> omega, fun d hd => ?_⟩
        by_cases hdc : d = c.con
        · rw [hdc]; exact Function.update_self ..
        · exact (Function.update_of_ne hdc ..).trans hd
    refine ⟨hj.1.trans hmax, fun d hd => hkept d (hj.2 d hd), fun i hi c hc => ?_⟩
    rcases List.mem_cons.1 hi with rfl | hi
    · have hc' : c.con ≤ (watchSlot t w i).maxFD ∧ (watchSlot t w i).cli c.con = true := by
        unfold watchSlot
        rw [hc]
        exact ⟨by dsimp only; split <;> omega, Function.update_self ..⟩
      exact ⟨hc'.1.trans hmax, hkept _ hc'.2⟩
    · exact hall i hi c hc

/-- Every client is watched, whatever the set held. -/
theorem watchClients_spec {t : Table} (w : Watched) {i : Slot} {c : Client} (hc : t i = some c) :
    c.con < (watchClients t w).maxFD + 1 ∧ (watchClients t w).cli c.con = true := by
  have h := (watchSlot_spec t (List.finRange maxPlayers) w).2.2 i (List.mem_finRange i) c hc
  exact ⟨Nat.lt_succ_of_le h.1, h.2⟩

/-! ## The loop -/

/-- What the set says of a watched descriptor after `select`. -/
def Outcome.leaves : Outcome → Nat → Bool
  | .failed => fun _ => true
  | .timeout => fun _ => false
  | .ready r => r

theorem firstSet_select (t : Table) (w : Watched) (o : Outcome) :
    firstSet t (select ((watchClients t w).maxFD + 1) (watchClients t w).cli o).2 = firstSet t o.leaves := by
  refine List.find?_congr fun i _ => ?_
  cases hc : t i with
  | none => rfl
  | some c =>
    obtain ⟨hmax, hset⟩ := watchClients_spec w hc
    cases o with
    | failed => exact hset
    | timeout => exact if_pos hmax
    | ready r =>
      refine (if_pos hmax).trans ?_
      rw [hset, Bool.true_and, Outcome.leaves, Option.any_some]

/-- `select` fails, or a client has something to read. -/
def decides (t : Table) : Outcome → Bool
  | .failed => true
  | .timeout => false
  | .ready r => (firstSet t r).isSome

/-- The first outcome that decides ends the call. -/
theorem listenLoop_eq (t : Table) (w : Watched) (os : List Outcome) :
    listenLoop t w os = match os.find? (decides t) with
      | none => .waiting
      | some o => .returned (firstSet t o.leaves) o := by
  induction os generalizing w with
  | nil => rfl
  | cons o os ih =>
    rw [listenLoop]
    dsimp only
    rw [firstSet_select t w o]
    cases o with
    | failed =>
      rw [List.find?_cons_of_pos (by rfl)]
      cases hf : firstSet t Outcome.failed.leaves with
      | none => simp [select, hf]
      | some i => simp [hf]
    | timeout =>
      have hnone : firstSet t Outcome.timeout.leaves = none :=
        List.find?_eq_none.2 fun i _ => by cases t i <;> simp [Outcome.leaves]
      rw [List.find?_cons_of_neg (by simp [decides]), ← ih, hnone]
      rfl
    | ready r =>
      rw [Outcome.leaves]
      cases hr : firstSet t r with
      | some i =>
        rw [List.find?_cons_of_pos (by simp [decides, hr])]
        simp [Outcome.leaves, hr]
      | none =>
        rw [List.find?_cons_of_neg (by simp [decides, hr]), ← ih]
        exact if_pos (by simp only [select]; omega)

theorem listenToClients_eq (t : Table) (cli : Nat → Bool) (os : List Outcome) :
    listenToClients t cli os = match os.find? (decides t) with
      | none => .waiting
      | some o => .returned (firstSet t o.leaves) o := listenLoop_eq t ⟨0, cli⟩ os

theorem firstSet_eq_some {t : Table} {cli : Nat → Bool} {n : Slot} (h : firstSet t cli = some n) :
    ∃ c, t n = some c ∧ cli c.con = true := by
  have hn := List.find?_some h
  rwa [Option.any_eq_true] at hn

/-- With all bits set the first client is found. -/
theorem firstSet_all (t : Table) (cli : Nat → Bool) (hcli : ∀ d, cli d = true) :
    firstSet t cli = none ↔ ∀ n, t n = none := by
  rw [firstSet, List.find?_eq_none]
  constructor
  · intro h n
    cases hn : t n with
    | none => rfl
    | some c => exact absurd (by rw [hn]; exact hcli c.con) (h n (List.mem_finRange n))
  · intro h n _
    simp [h n]

/-! ## What it should heed -/

/-- A slot is returned only after a `select` that reported its descriptor, and
a `select` that fails makes the call return -1. -/
def Heeds (t : Table) (cli : Nat → Bool) (os : List Outcome) : Prop :=
  (∀ n last, listenToClients t cli os = .returned (some n) last →
    ∃ r c, last = .ready r ∧ t n = some c ∧ r c.con = true) ∧
  ∀ used rest, os = used ++ .failed :: rest → listenToClients t cli used = .waiting →
    listenToClients t cli os = .returned none .failed

/-- It does exactly when there is no client, or the first `select` that fails
or reports one does not fail. -/
theorem heeds_iff (t : Table) (cli : Nat → Bool) (os : List Outcome) :
    Heeds t cli os ↔ (os.find? (decides t) = some .failed → ∀ n, t n = none) := by
  constructor
  · rintro ⟨hslot, -⟩ hfind
    rw [← firstSet_all t Outcome.failed.leaves fun _ => rfl]
    cases hf : firstSet t Outcome.failed.leaves with
    | none => rfl
    | some n =>
      obtain ⟨r, c, hlast, -⟩ := hslot n .failed (by rw [listenToClients_eq, hfind, ← hf])
      cases hlast
  · intro hempty
    refine ⟨fun n last h => ?_, fun used rest hos hused => ?_⟩
    · rw [listenToClients_eq] at h
      cases ho : os.find? (decides t) with
      | none => rw [ho] at h; cases h
      | some o =>
        rw [ho] at h
        obtain ⟨hn, rfl⟩ := Listened.returned.inj h
        obtain ⟨c, hc, hset⟩ := firstSet_eq_some hn
        cases o with
        | failed => exact absurd hc (by simp [hempty ho n])
        | timeout => cases hset
        | ready r => exact ⟨r, c, rfl, hc, hset⟩
    · have hnone : used.find? (decides t) = none := by
        rw [listenToClients_eq] at hused
        cases hu : used.find? (decides t) with
        | none => rfl
        | some o => rw [hu] at hused; cases hused
      have hfind : os.find? (decides t) = some .failed := by
        rw [hos, List.find?_append, hnone, List.find?_cons_of_pos (by rfl)]
        rfl
      rw [listenToClients_eq, hfind]
      dsimp only
      rw [(firstSet_all t Outcome.failed.leaves fun _ => rfl).2 (hempty hfind)]

/-- Somebody waits in slot 2, on descriptor 7. -/
def lonely : Table := fun i => if i = 2 then some ⟨none, .waiting, .readyToPlay, some 0, 7⟩ else none

/-- A failed `select` makes its client the one that is read from. -/
theorem failed_returns_slot : ¬∀ (t : Table) (cli : Nat → Bool) (os : List Outcome), Heeds t cli os := by
  intro h
  obtain ⟨r, c, hlast, -⟩ := (h lonely (fun _ => false) [.failed]).1 2 .failed rfl
  cases hlast

end Snuffin.ChildServer
