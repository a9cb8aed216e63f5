import Snuffin.DbCalls
/-!
# Callers left asleep

The database process signals `ready` once for each command it handles, and a
signal is sure to wake one caller only. Two callers that overlap wait on
`ready` together: the answer to one command wakes one of them, and nothing is
left that would wake the other.
-/
open Lib

namespace Snuffin.Db

section Wakeups
variable {κ D : Type} {sq : Sqlite D}

/-- The slot is READY and the database process waits for a command, but a
caller waits on `ready` and no signal is on its way to it. -/
def Asleep (s : World κ D) : Prop := s.page typePos = 0 ∧ s.cond = true ∧ ∃ k, k ∈ s.ready

/-- When the database process handles a command, at most one caller waits on
`ready`. -/
def OneWaits (s : World κ D) : Act κ → Prop
  | .manage _ _ => s.page typePos ≠ 0 → ∀ j ∈ s.ready, ∀ k ∈ s.ready, j = k
  | _ => True

instance [DecidableEq κ] (s : World κ D) : ∀ a : Act κ, Decidable (OneWaits s a)
  | .manage _ _ => by unfold OneWaits; infer_instance
  | .call _ _ | .test _ | .spurious _ | .spuriousDb => .isTrue trivial

/-! ## The command slot -/

/-- A write behind the slot leaves the command alone. -/
theorem write_typePos {pos : Nat} {l : Bytes} {m m' : Mem} (h : write pos l m = some m') (hp : 0 < pos) :
    m' typePos = m typePos := by
  rw [write_some h]
  apply store_outside
  exact .inl hp

theorem write_type {x : UInt8} {m m' : Mem} (h : write typePos [x] m = some m') : m' typePos = x := by
  rw [write_some h]
  exact store_at m typePos [x] (i := 0) rfl

theorem twoArguments_type {type : UInt8} {first second : Bytes} {m m' : Mem}
    (h : twoArguments type first second m = some m') : m' typePos = type := by
  obtain ⟨m₂, h₂, h⟩ := Option.bind_eq_some_iff.1 h
  obtain ⟨m₁, h₁, h₂⟩ := Option.bind_eq_some_iff.1 h₂
  rw [write_typePos h (by decide), write_typePos h₂ (by decide), write_type h₁]

/-- A posted command is one that the switch knows. -/
theorem post_command {r : Request} {m m' : Mem} (h : post r m = some m') : isCommand (m' typePos) = true := by
  cases r with
  | existUser user =>
    obtain ⟨m₂, h₂, h⟩ := Option.bind_eq_some_iff.1 h
    obtain ⟨m₁, h₁, h₂⟩ := Option.bind_eq_some_iff.1 h₂
    rw [write_typePos h (Nat.succ_pos _), write_typePos h₂ (by decide), write_type h₁]
    rfl
  | getHighScore user =>
    rw [post, getHighScoreDB] at h
    obtain ⟨m₁, h₁, h⟩ := Option.bind_eq_some_iff.1 h
    rw [write_typePos h (by decide), write_type h₁]
    rfl
  | validPassword user password =>
    rw [twoArguments_type h]
    rfl
  | setHighscore user value =>
    rw [twoArguments_type h]
    rfl
  | createUser user password =>
    rw [twoArguments_type h]
    rfl

theorem reply_ready (r : Request) (v : Int) (m : Mem) : reply r v m typePos = 0 := by
  have hready (m' : Mem) : store m' typePos [0] typePos = 0 := store_at m' typePos [0] (i := 0) rfl
  cases r <;> exact hready _

/-! ## The steps -/

/-- Nobody waits on `ready` while the slot is READY. -/
structure AwakeInv (s : World κ D) : Prop where
  command : s.page typePos = 0 ∨ isCommand (s.page typePos) = true
  awake : s.page typePos = 0 → s.ready = []

variable [DecidableEq κ]

theorem command_step {s s' : World κ D} {a : Act κ} (h : s.page typePos = 0 ∨ isCommand (s.page typePos) = true)
    (hs : step sq s a = some s') : s'.page typePos = 0 ∨ isCommand (s'.page typePos) = true := by
  cases a with
  | call k r =>
    obtain ⟨-, m, hm, rfl⟩ := call_cases hs
    exact .inr (post_command hm)
  | test k =>
    obtain ⟨id, r, -, ⟨-, v, -, rfl⟩ | ⟨-, rfl⟩⟩ := test_cases hs
    · exact h
    · exact h
  | manage junk woken =>
    obtain ⟨-, ⟨-, rfl⟩ | ⟨-, -, ⟨-, rfl⟩ | ⟨r, v, db, -, -, -, rfl⟩⟩⟩ := manage_cases hs
    · exact h
    · exact h
    · exact .inl (reply_ready r v s.page)
  | spurious k =>
    obtain ⟨-, hs⟩ := Option.ite_none_right_eq_some.1 hs
    obtain rfl := Option.some.inj hs
    exact h
  | spuriousDb =>
    obtain ⟨-, hs⟩ := Option.ite_none_right_eq_some.1 hs
    obtain rfl := Option.some.inj hs
    exact h

theorem awake_step {s s' : World κ D} {a : Act κ} (h : AwakeInv s) (hok : OneWaits s a) (hs : step sq s a = some s') :
    AwakeInv s' := by
  refine ⟨command_step h.command hs, fun h0' => ?_⟩
  cases a with
  | call k r =>
    obtain ⟨-, m, hm, rfl⟩ := call_cases hs
    have hc := post_command hm
    rw [show m typePos = 0 from h0'] at hc
    cases hc
  | test k =>
    obtain ⟨id, r, -, ⟨h0, v, -, rfl⟩ | ⟨h0, rfl⟩⟩ := test_cases hs
    · exact h.awake h0
    · exact absurd h0' h0
  | manage junk woken =>
    obtain ⟨-, ⟨h0, rfl⟩ | ⟨h0, hw, hs⟩⟩ := manage_cases hs
    · exact h.awake h0
    · have hnil := hw.all (hok h0)
      obtain ⟨-, rfl⟩ | ⟨r, v, db, -, -, -, rfl⟩ := hs
      · exact hnil
      · exact hnil
  | spurious k =>
    obtain ⟨hk, hs⟩ := Option.ite_none_right_eq_some.1 hs
    obtain rfl := Option.some.inj hs
    rw [h.awake h0'] at hk
    cases hk
  | spuriousDb =>
    obtain ⟨-, hs⟩ := Option.ite_none_right_eq_some.1 hs
    obtain rfl := Option.some.inj hs
    exact h.awake h0'

/-- When two callers wait, the signal may wake only one of them, and the other
is left asleep as soon as the database process looks for the next command. -/
theorem left_asleep {s s' : World κ D} (hc : s.page typePos = 0 ∨ isCommand (s.page typePos) = true) {junk : Int8}
    {woken : List κ} (hs : step sq s (.manage junk woken) = some s') (hno : ¬OneWaits s (.manage junk woken)) :
    ∃ j t u, step sq s (.manage junk [j]) = some t ∧ step sq t (.manage junk []) = some u ∧ Asleep u := by
  have h0 : s.page typePos ≠ 0 := fun h0 => hno fun hne => absurd h0 hne
  obtain ⟨j, hj, k, hk, hjk⟩ : ∃ j ∈ s.ready, ∃ k ∈ s.ready, j ≠ k := by
    by_contra hall
    exact hno fun _ j hj k hk => by_contra fun hjk => hall ⟨j, hj, k, hk, hjk⟩
  obtain ⟨hcond, ⟨h0', -⟩ | ⟨-, -, ⟨hbad, -⟩ | ⟨r, v, db, hcom, hfetch, hop, -⟩⟩⟩ := manage_cases hs
  · exact absurd h0' h0
  · rw [hc.resolve_left h0] at hbad
    cases hbad
  · have hw : Wakes s.ready [j] := .inr ⟨j, List.mem_singleton_self j, hj⟩
    obtain ⟨t, ht, htp, htc, htr⟩ : ∃ t, step sq s (.manage junk [j]) = some t ∧ t.page typePos = 0 ∧ t.cond = false ∧
        t.ready = s.ready.filter (· ∉ [j]) :=
      ⟨{ s with
          page := reply r v s.page
          db
          ready := s.ready.filter (· ∉ [j])
          executed := s.executed ++ [⟨s.owner, r, v⟩] },
        by simp [step, hcond, h0, hw, hcom, hfetch, hop], reply_ready r v s.page, hcond, rfl⟩
    refine ⟨j, t, { t with cond := true }, ht, by simp [step, htc, htp], htp, rfl, k, ?_⟩
    rw [htr]
    exact List.mem_filter.2 ⟨hk, by simpa using hjk.symm⟩

/-- As long as no more than one caller waits when a command is handled, nobody
is left asleep. And wherever two wait, the signal that wakes just one of them
leaves the other asleep. -/
theorem nobody_asleep (d : D) :
    (∀ s : World κ D, (calls sq d).ReachesBy OneWaits s → ¬Asleep s) ∧
      ∀ s s' : World κ D, (calls sq d).Reaches s → ∀ junk woken, step sq s (.manage junk woken) = some s' →
        ¬OneWaits s (.manage junk woken) →
        ∃ j t u, step sq s (.manage junk [j]) = some t ∧ step sq t (.manage junk []) = some u ∧ Asleep u := by
  refine ⟨fun s h => ?_, fun s s' h junk woken hs hno => ?_⟩
  · have hi : AwakeInv s :=
      h.inv (I := AwakeInv) (fun s hs => by rw [hs]; exact ⟨.inl rfl, fun _ => rfl⟩) fun _ _ _ => awake_step
    rintro ⟨h0, -, k, hk⟩
    rw [hi.awake h0] at hk
    cases hk
  · have hc : s.page typePos = 0 ∨ isCommand (s.page typePos) = true :=
      h.inv (I := fun s => s.page typePos = 0 ∨ isCommand (s.page typePos) = true)
        (fun s hs => by rw [hs]; exact .inl rfl) fun _ _ _ hi _ hs => command_step hi hs
    exact left_asleep hc hs hno

end Wakeups

/-- One caller after the other. -/
theorem nobody_asleep_two : ∃ s : World Bool Bool, (calls anaTable true).ReachesBy OneWaits s ∧
    s.returned.map (·.value) = [1, 0] ∧ ¬Asleep s := by
  have hr : (calls anaTable true).ReachesBy OneWaits _ :=
    Machine.reachesBy_of_runActs
      (l := [.call false (.existUser ana), .manage 0 [false], .test false, .call true (.existUser eva), .manage 0 [true],
        .test true, .manage 0 []]) (.init rfl) rfl
  exact ⟨_, hr, rfl, (nobody_asleep true).1 _ hr⟩

/-- Two callers overlap. The answer to the second command wakes the first, who
takes it, and the second is left asleep. -/
theorem overwritten_asleep : ¬∀ s : World Bool Bool, (calls anaTable true).Reaches s → ¬Asleep s := by
  intro h
  have hr : (calls anaTable true).Reaches _ :=
    Machine.reachesBy_of_runActs
      (l := [.call false (.existUser ana), .call true (.existUser eva), .manage 0 [false], .test false, .manage 0 []])
      (.init rfl) rfl
  exact h _ hr ⟨rfl, rfl, true, List.mem_singleton_self true⟩

end Snuffin.Db
