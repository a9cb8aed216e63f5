import Snuffin.DbManager
import Snuffin.Lib.Machine
import Mathlib.Data.Fintype.Basic
/-!
# Calls to the database process

Callers in any child server and the database process share the page, its mutex
and two condition variables. A step is what one of them does from getting the
mutex to giving it up, at the end of its section or in `pthread_cond_wait`.

There is one place for a command and one for an answer, and no caller looks
whether they are taken. `Phase` says what they hold while callers come one at
a time: nothing, a command that waits, or the answer to it.
-/
open Lib

namespace Snuffin.Db

/-- A caller: in no call, or waiting in the call with that number for the
answer to its request. -/
inductive Caller where
  | idle
  | waiting (id : Nat) (r : Request)
  deriving DecidableEq

/-- The operation that was executed for a call, or the value a call returned. -/
structure Answer where
  id : Nat
  request : Request
  value : Int
  deriving DecidableEq

structure World (κ D : Type) where
  page : Mem
  db : D
  /-- The database process waits on `cond`. -/
  cond : Bool
  /-- The callers that wait on `ready`. -/
  ready : List κ
  caller : κ → Caller
  /-- The calls made so far; a call's number is its index. -/
  made : List Request
  /-- The call whose command was written last. -/
  owner : Nat
  executed : List Answer
  returned : List Answer

inductive Act (κ : Type) where
  /-- A caller takes the mutex, writes its command and waits. -/
  | call (k : κ) (r : Request)
  /-- A caller that is awake tests for READY. -/
  | test (k : κ)
  /-- The database process tests for READY, and otherwise handles the command;
  its signal on `ready` wakes `woken`. -/
  | manage (junk : Int8) (woken : List κ)
  | spurious (k : κ)
  | spuriousDb

section Calls
variable {κ D : Type} (sq : Sqlite D)

section Step
variable [DecidableEq κ]

/-- A signal wakes at least one of those who wait. -/
def Wakes (waiting woken : List κ) : Prop := waiting = [] ∨ ∃ k ∈ woken, k ∈ waiting

instance (waiting woken : List κ) : Decidable (Wakes waiting woken) := by unfold Wakes; infer_instance

def isCommand (type : UInt8) : Bool := 49 ≤ type && type ≤ 53

def step (s : World κ D) : Act κ → Option (World κ D)
  | .call k r =>
    match s.caller k with
    | .waiting _ _ => none
    | .idle =>
      -- The command is not READY, so the caller goes to wait on its first test.
      (post r s.page).map fun page =>
        { s with
          page
          cond := false
          ready := k :: s.ready
          caller := Function.update s.caller k (.waiting s.made.length r)
          made := s.made ++ [r]
          owner := s.made.length }
  | .test k =>
    match s.caller k with
    | .idle => none
    | .waiting id r =>
      if k ∈ s.ready then none
      else if s.page typePos = 0 then
        (returnValue r s.page).map fun v =>
          { s with caller := Function.update s.caller k .idle, returned := s.returned ++ [⟨id, r, v⟩] }
      else some { s with ready := k :: s.ready }
  | .manage junk woken =>
    if s.cond then none
    else if s.page typePos = 0 then some { s with cond := true }
    else if Wakes s.ready woken then
      if isCommand (s.page typePos) then
        (fetch s.page).bind fun r => (operate sq junk s.db r).map fun (v, db) =>
          { s with
            page := reply r v s.page
            db
            ready := s.ready.filter (· ∉ woken)
            executed := s.executed ++ [⟨s.owner, r, v⟩] }
      else some { s with ready := s.ready.filter (· ∉ woken) }
    else none
  | .spurious k => if k ∈ s.ready then some { s with ready := s.ready.filter (· ≠ k) } else none
  | .spuriousDb => if s.cond then some { s with cond := false } else none

end Step

/-- The page as `main` of the super server leaves it. -/
def World.start (d : D) : World κ D := ⟨fun _ => 0, d, false, [], fun _ => .idle, [], 0, [], []⟩

abbrev calls [DecidableEq κ] (d : D) : Machine (World κ D) (Act κ) := Machine.ofFun (.start d) (step sq)

/-- A call is made while nobody else is in one, with arguments that fit, and
about a player whose data fit. -/
def Alone (s : World κ D) : Act κ → Prop
  | .call _ r => (∀ k, s.caller k = .idle) ∧ Fits r ∧ Stored sq s.db r
  | _ => True

instance [Fintype κ] (s : World κ D) (a : Act κ) : Decidable (Alone sq s a) := by
  cases a <;> unfold Alone <;> infer_instance

/-- The answer is that of the call with its number: the operation was executed
once for that call, with its own command and arguments, and gave that value. -/
def World.Own (s : World κ D) (a : Answer) : Prop :=
  s.made[a.id]? = some a.request ∧ s.executed.filter (·.id = a.id) = [a]

/-! ## One call at a time -/

/-- The call of `k` is the only one. -/
structure Only (s : World κ D) (k : κ) (id : Nat) (r : Request) : Prop where
  caller : s.caller k = .waiting id r
  others : ∀ j, j ≠ k → s.caller j = .idle
  asleep : ∀ j ∈ s.ready, j = k
  owner : s.owner = id
  made : s.made[id]? = some r

inductive Phase (s : World κ D) : Prop
  | free : s.page typePos = 0 → (∀ k, s.caller k = .idle) → s.ready = [] → Phase s
  /-- The command is in the page. -/
  | posted (k : κ) (id : Nat) (r : Request) : Only s k id r → s.page typePos ≠ 0 → fetch s.page = some r → Fits r →
      Stored sq s.db r → s.cond = false → (∀ a ∈ s.executed, a.id ≠ id) → Phase s
  /-- The answer is in the page, and its caller is awake. -/
  | done (k : κ) (id : Nat) (r : Request) (v : Int) : Only s k id r → s.page typePos = 0 → returnValue r s.page = some v →
      s.ready = [] → s.executed.filter (·.id = id) = [⟨id, r, v⟩] → Phase s

structure CallInv (s : World κ D) : Prop where
  phase : Phase sq s
  /-- Only calls that were made are answered. -/
  below : ∀ a ∈ s.executed, a.id < s.made.length
  own : ∀ a ∈ s.returned, s.Own a
  settled : ∀ id < s.made.length, (∃ a ∈ s.returned, a.id = id) ∨ ∃ k r, s.caller k = .waiting id r

variable {sq}

theorem isCommand_of_fetch {m : Mem} {r : Request} (h : fetch m = some r) : isCommand (m typePos) = true := by
  unfold fetch at h
  by_cases h1 : m typePos = 49
  · rw [h1]; rfl
  by_cases h2 : m typePos = 50
  · rw [h2]; rfl
  by_cases h3 : m typePos = 51
  · rw [h3]; rfl
  by_cases h4 : m typePos = 52
  · rw [h4]; rfl
  by_cases h5 : m typePos = 53
  · rw [h5]; rfl
  simp [h1, h2, h3, h4, h5] at h

/-- While nobody is in a call the slot is free. -/
theorem Phase.idle {s : World κ D} (h : Phase sq s) (hi : ∀ k, s.caller k = .idle) : s.page typePos = 0 ∧ s.ready = [] := by
  cases h with
  | free h0 _ hr => exact ⟨h0, hr⟩
  | posted k id r ho => have hc := ho.caller; rw [hi k] at hc; cases hc
  | done k id r v ho => have hc := ho.caller; rw [hi k] at hc; cases hc

/-- The call of a caller that waits is the only one. -/
theorem Only.same {s : World κ D} {k j : κ} {id i : Nat} {r q : Request} (h : Only s k id r)
    (hj : s.caller j = .waiting i q) : j = k ∧ i = id ∧ q = r := by
  by_cases hjk : j = k
  · subst hjk
    have hc := h.caller
    rw [hj] at hc
    cases hc
    exact ⟨rfl, rfl, rfl⟩
  · rw [h.others j hjk] at hj
    cases hj

/-- A step of somebody else, after which nobody else waits on `ready`. -/
theorem Only.keep {s s' : World κ D} {k : κ} {id : Nat} {r : Request} (h : Only s k id r) (hc : s'.caller = s.caller)
    (ho : s'.owner = s.owner) (hm : s'.made = s.made) (hr : ∀ j ∈ s'.ready, j = k) : Only s' k id r where
  caller := by rw [hc]; exact h.caller
  others := by rw [hc]; exact h.others
  asleep := hr
  owner := ho.trans h.owner
  made := by rw [hm]; exact h.made

/-- The first operation of a call is the only one. -/
theorem filter_first {l : List Answer} {a : Answer} (h : ∀ e ∈ l, e.id ≠ a.id) :
    (l ++ [a]).filter (·.id = a.id) = [a] := by
  have hold : l.filter (·.id = a.id) = [] := List.filter_eq_nil_iff.2 fun e he => by simpa using h e he
  rw [List.filter_append, hold]
  simp

/-- A returned answer stays its call's own while more calls are made, and
while others are answered. -/
theorem World.Own.mono {s s' : World κ D} {a : Answer} (h : s.Own a) (more : List Request) (es : List Answer)
    (hm : s'.made = s.made ++ more) (he : s'.executed = s.executed ++ es) (hid : ∀ e ∈ es, e.id ≠ a.id) : s'.Own a := by
  obtain ⟨h1, h2⟩ := h
  obtain ⟨hlt, -⟩ := List.getElem?_eq_some_iff.1 h1
  refine ⟨by rw [hm, List.getElem?_append_left hlt, h1], ?_⟩
  have hnone : es.filter (·.id = a.id) = [] := List.filter_eq_nil_iff.2 fun e he => by simpa using hid e he
  rw [he, List.filter_append, h2, hnone, List.append_nil]

theorem World.Own.executed {s : World κ D} {a : Answer} (h : s.Own a) : a ∈ s.executed := by
  have ha : a ∈ s.executed.filter (·.id = a.id) := by rw [h.2]; exact List.mem_singleton.2 rfl
  exact (List.mem_filter.1 ha).1

/-- A step that makes no call and executes nothing, and after which the same
callers wait, keeps the invariant if it keeps the phase. -/
theorem CallInv.keep {s s' : World κ D} (h : CallInv sq s) (hp : Phase sq s') (hc : s'.caller = s.caller)
    (hm : s'.made = s.made) (he : s'.executed = s.executed) (hr : s'.returned = s.returned) : CallInv sq s' where
  phase := hp
  below := by rw [he, hm]; exact h.below
  own a ha := by
    rw [hr] at ha
    exact (h.own a ha).mono [] [] (by simp [hm]) (by simp [he]) (by simp)
  settled := by rw [hm, hc, hr]; exact h.settled

theorem callInv_start (d : D) : CallInv sq (World.start d : World κ D) where
  phase := .free rfl (fun _ => rfl) rfl
  below _ ha := by cases ha
  own _ ha := by cases ha
  settled _ hid := by cases hid

variable [DecidableEq κ]

/-! ## The steps -/

/-- A call begins while its caller is in no other. -/
theorem call_cases {s s' : World κ D} {k : κ} {r : Request} (h : step sq s (.call k r) = some s') :
    s.caller k = .idle ∧ ∃ page, post r s.page = some page ∧
      s' = { s with
        page
        cond := false
        ready := k :: s.ready
        caller := Function.update s.caller k (.waiting s.made.length r)
        made := s.made ++ [r]
        owner := s.made.length } := by
  simp only [step] at h
  cases hk : s.caller k with
  | waiting id q =>
    rw [hk] at h
    cases h
  | idle =>
    rw [hk] at h
    obtain ⟨page, hpage, rfl⟩ := Option.map_eq_some_iff.1 h
    exact ⟨rfl, page, hpage, rfl⟩

/-- A caller that is awake returns from READY, and waits again otherwise. -/
theorem test_cases {s s' : World κ D} {k : κ} (h : step sq s (.test k) = some s') :
    ∃ id r, s.caller k = .waiting id r ∧
      (s.page typePos = 0 ∧ (∃ v, returnValue r s.page = some v ∧
          s' = { s with caller := Function.update s.caller k .idle, returned := s.returned ++ [⟨id, r, v⟩] }) ∨
        s.page typePos ≠ 0 ∧ s' = { s with ready := k :: s.ready }) := by
  simp only [step] at h
  cases hk : s.caller k with
  | idle =>
    rw [hk] at h
    cases h
  | waiting id r =>
    rw [hk] at h
    obtain ⟨-, h⟩ := Option.ite_none_left_eq_some.1 h
    refine ⟨id, r, rfl, ?_⟩
    by_cases h0 : s.page typePos = 0
    · rw [if_pos h0] at h
      obtain ⟨v, hv, rfl⟩ := Option.map_eq_some_iff.1 h
      exact .inl ⟨h0, v, hv, rfl⟩
    · rw [if_neg h0] at h
      exact .inr ⟨h0, (Option.some.inj h).symm⟩

/-- What the database process does with a command. -/
theorem manage_cases {s s' : World κ D} {junk : Int8} {woken : List κ} (h : step sq s (.manage junk woken) = some s') :
    s.cond = false ∧
      (s.page typePos = 0 ∧ s' = { s with cond := true } ∨
        s.page typePos ≠ 0 ∧ Wakes s.ready woken ∧
          (isCommand (s.page typePos) = false ∧ s' = { s with ready := s.ready.filter (· ∉ woken) } ∨
            ∃ r v db, isCommand (s.page typePos) = true ∧ fetch s.page = some r ∧
              operate sq junk s.db r = some (v, db) ∧
              s' = { s with
                page := reply r v s.page
                db
                ready := s.ready.filter (· ∉ woken)
                executed := s.executed ++ [⟨s.owner, r, v⟩] })) := by
  simp only [step] at h
  obtain ⟨hc, h⟩ := Option.ite_none_left_eq_some.1 h
  refine ⟨by simpa using hc, ?_⟩
  by_cases h0 : s.page typePos = 0
  · rw [if_pos h0] at h
    exact .inl ⟨h0, (Option.some.inj h).symm⟩
  · rw [if_neg h0] at h
    obtain ⟨hw, h⟩ := Option.ite_none_right_eq_some.1 h
    refine .inr ⟨h0, hw, ?_⟩
    cases hk : isCommand (s.page typePos) with
    | false =>
      rw [hk, if_neg (by simp)] at h
      exact .inl ⟨rfl, (Option.some.inj h).symm⟩
    | true =>
      rw [hk, if_pos rfl] at h
      obtain ⟨r, hr, h⟩ := Option.bind_eq_some_iff.1 h
      obtain ⟨⟨v, db⟩, hop, rfl⟩ := Option.map_eq_some_iff.1 h
      exact .inr ⟨r, v, db, rfl, hr, hop, rfl⟩

/-! ## Each step keeps the invariant -/

/-- A signal wakes the one who waits. -/
theorem Wakes.all {waiting woken : List κ} (h : Wakes waiting woken) (hone : ∀ j ∈ waiting, ∀ k ∈ waiting, j = k) :
    waiting.filter (· ∉ woken) = [] := by
  rcases h with rfl | ⟨k, hk, hkw⟩
  · rfl
  · apply List.filter_eq_nil_iff.2
    intro j hj
    obtain rfl := hone j hj k hkw
    simpa using hk

/-- The signal of the database process wakes the caller it is for. -/
theorem Only.woken {s : World κ D} {k : κ} {id : Nat} {r : Request} (h : Only s k id r) {woken : List κ}
    (hw : Wakes s.ready woken) : s.ready.filter (· ∉ woken) = [] := by
  apply hw.all
  intro i hi j hj
  rw [h.asleep i hi, h.asleep j hj]

theorem call_inv {s s' : World κ D} (h : CallInv sq s) {k : κ} {r : Request} (hok : Alone sq s (.call k r))
    (hs : step sq s (.call k r) = some s') : CallInv sq s' := by
  obtain ⟨hidle, hf, hst⟩ := hok
  obtain ⟨h0, hr⟩ := h.phase.idle hidle
  obtain ⟨page, hpost, hfetch, hne⟩ := fetch_post hf s.page
  obtain ⟨-, page', hpost', rfl⟩ := call_cases hs
  obtain rfl : page = page' := Option.some.inj (hpost.symm.trans hpost')
  have hnew : ∀ a ∈ s.executed, a.id ≠ s.made.length := fun a ha => by have := h.below a ha; omega
  refine ⟨.posted k s.made.length r ⟨?_, ?_, ?_, rfl, ?_⟩ hne hfetch hf hst rfl hnew, ?_, ?_, ?_⟩
  · simp
  · intro j hj
    simp [hj, hidle j]
  · intro j hj
    simpa [hr] using hj
  · simp
  · intro a ha
    have := h.below a ha
    simp only [List.length_append, List.length_singleton]
    omega
  · intro a ha
    exact (h.own a ha).mono [r] [] rfl (by simp) (by simp)
  · intro id hid
    simp only [List.length_append, List.length_singleton] at hid
    rcases Nat.lt_or_ge id s.made.length with hlt | hge
    · rcases h.settled id hlt with ha | ⟨j, q, hj⟩
      · exact .inl ha
      · rw [hidle j] at hj; cases hj
    · obtain rfl : id = s.made.length := by omega
      exact .inr ⟨k, r, by simp⟩

theorem test_inv {s s' : World κ D} (h : CallInv sq s) {k : κ} (hs : step sq s (.test k) = some s') : CallInv sq s' := by
  obtain ⟨id, r, hk, ⟨h0, v, hv, rfl⟩ | ⟨h0, rfl⟩⟩ := test_cases hs
  · cases h.phase with
    | free _ hidle => rw [hidle k] at hk; cases hk
    | posted j i q ho hne => exact absurd h0 hne
    | done j i q w ho _ hw hr hone =>
      obtain ⟨rfl, rfl, rfl⟩ := ho.same hk
      obtain rfl : w = v := by rw [hw] at hv; exact Option.some.inj hv
      refine ⟨.free h0 (fun l => ?_) hr, h.below, fun a ha => ?_, fun i hi => ?_⟩
      · by_cases hl : l = k
        · subst hl; simp
        · simp [hl, ho.others l hl]
      · rcases List.mem_append.1 ha with ha | ha
        · exact h.own a ha
        · rw [List.mem_singleton.1 ha]
          exact ⟨ho.made, hone⟩
      · rcases h.settled i hi with ⟨a, ha, hai⟩ | ⟨l, q, hl⟩
        · exact .inl ⟨a, List.mem_append_left _ ha, hai⟩
        · obtain ⟨rfl, rfl, rfl⟩ := ho.same hl
          exact .inl ⟨_, List.mem_append_right _ (List.mem_singleton.2 rfl), rfl⟩
  · cases h.phase with
    | free h0' => exact absurd h0' h0
    | posted j i q ho hne hf hfits hst hc hnew =>
      obtain ⟨rfl, rfl, rfl⟩ := ho.same hk
      refine h.keep (.posted k _ _ (ho.keep rfl rfl rfl ?_) hne hf hfits hst hc hnew) rfl rfl rfl rfl
      intro l hl
      rcases List.mem_cons.1 hl with rfl | hl
      · rfl
      · exact ho.asleep l hl
    | done j i q w ho h0' => exact absurd h0' h0

/-- The database process executes the one command, and its signal leaves
nobody asleep. -/
theorem manage_inv {s s' : World κ D} (h : CallInv sq s) {junk : Int8} {woken : List κ}
    (hs : step sq s (.manage junk woken) = some s') : CallInv sq s' := by
  obtain ⟨-, ⟨h0, rfl⟩ | ⟨h0, hw, hs⟩⟩ := manage_cases hs
  · cases h.phase with
    | free _ hidle hr => exact h.keep (.free h0 hidle hr) rfl rfl rfl rfl
    | posted k id r ho hne => exact absurd h0 hne
    | done k id r v ho _ hv hr hone =>
      exact h.keep (.done k id r v (ho.keep rfl rfl rfl ho.asleep) h0 hv hr hone) rfl rfl rfl rfl
  cases h.phase with
  | free h0' => exact absurd h0' h0
  | done k id r v ho h0' => exact absurd h0' h0
  | posted k id r ho hne hf hfits hst hc hnew =>
    obtain ⟨hbad, -⟩ | ⟨q, v, db, -, hq, hop, rfl⟩ := hs
    · rw [isCommand_of_fetch hf] at hbad
      cases hbad
    obtain rfl : r = q := Option.some.inj (hf.symm.trans hq)
    obtain ⟨v', db', hop', hslot⟩ := operate_spec hfits hst junk
    obtain ⟨rfl, rfl⟩ := Prod.mk.inj (Option.some.inj (hop.symm.trans hop'))
    obtain ⟨hv, hready⟩ := returnValue_reply hslot s.page
    have hnil := ho.woken hw
    have hone : (s.executed ++ [(⟨s.owner, r, v⟩ : Answer)]).filter (·.id = id) = [⟨id, r, v⟩] := by
      rw [ho.owner]
      exact filter_first (a := ⟨id, r, v⟩) hnew
    have hlt : id < s.made.length := (List.getElem?_eq_some_iff.1 ho.made).1
    refine ⟨.done k id r v (ho.keep rfl rfl rfl ?_) hready hv hnil hone, ?_, ?_, h.settled⟩
    · intro j hj
      rw [hnil] at hj
      cases hj
    · intro a ha
      rcases List.mem_append.1 ha with ha | ha
      · exact h.below a ha
      · rw [List.mem_singleton.1 ha, ho.owner]
        exact hlt
    · intro a ha
      refine (h.own a ha).mono [] [⟨s.owner, r, v⟩] (by simp) rfl fun e he => ?_
      rw [List.mem_singleton.1 he, ho.owner]
      exact (hnew a (h.own a ha).executed).symm

theorem spurious_inv {s s' : World κ D} (h : CallInv sq s) {k : κ} (hs : step sq s (.spurious k) = some s') :
    CallInv sq s' := by
  obtain ⟨hk, hs⟩ := Option.ite_none_right_eq_some.1 hs
  cases hs
  cases h.phase with
  | free _ _ hr => rw [hr] at hk; cases hk
  | posted j id r ho hne hf hfits hst hc hnew =>
    refine h.keep (.posted j id r (ho.keep rfl rfl rfl ?_) hne hf hfits hst hc hnew) rfl rfl rfl rfl
    intro l hl
    exact ho.asleep l (List.mem_filter.1 hl).1
  | done j id r v ho h0 hv hr => rw [hr] at hk; cases hk

theorem spuriousDb_inv {s s' : World κ D} (h : CallInv sq s) (hs : step sq s .spuriousDb = some s') : CallInv sq s' := by
  obtain ⟨hc', hs⟩ := Option.ite_none_right_eq_some.1 hs
  cases hs
  cases h.phase with
  | free h0 hidle hr => exact h.keep (.free h0 hidle hr) rfl rfl rfl rfl
  | posted j id r ho hne hf hfits hst hc => rw [hc] at hc'; cases hc'
  | done j id r v ho h0 hv hr hone =>
    exact h.keep (.done j id r v (ho.keep rfl rfl rfl ho.asleep) h0 hv hr hone) rfl rfl rfl rfl

theorem callInv_step {s s' : World κ D} {a : Act κ} (h : CallInv sq s) (hok : Alone sq s a) (hs : step sq s a = some s') :
    CallInv sq s' := by
  cases a with
  | call k r => exact call_inv h hok hs
  | test k => exact test_inv h hs
  | manage junk woken => exact manage_inv h hs
  | spurious k => exact spurious_inv h hs
  | spuriousDb => exact spuriousDb_inv h hs

/-- A caller that waits can return: from READY at once, and otherwise after
the database process handled its command. -/
theorem returns_when_ready {s : World κ D} (h : CallInv sq s) {k : κ} {id : Nat} {r : Request}
    (hk : s.caller k = .waiting id r) (h0 : s.page typePos = 0) :
    ∃ t v, step sq s (.test k) = some t ∧ ⟨id, r, v⟩ ∈ t.returned := by
  cases h.phase with
  | free _ hidle => rw [hidle k] at hk; cases hk
  | posted j i q ho hne => exact absurd h0 hne
  | done j i q v ho _ hv hr =>
    obtain ⟨rfl, rfl, rfl⟩ := ho.same hk
    refine ⟨{ s with
      caller := Function.update s.caller k .idle
      returned := s.returned ++ [⟨id, r, v⟩] }, v, ?_, by simp⟩
    simp [step, hk, hr, h0, hv]

/-- The database process can handle a posted command, and READY follows. -/
theorem handles_posted {s : World κ D} (h : CallInv sq s) (h0 : s.page typePos ≠ 0) :
    ∃ s', step sq s (.manage 0 s.ready) = some s' ∧ s'.page typePos = 0 ∧ s'.caller = s.caller := by
  cases h.phase with
  | free h0' => exact absurd h0' h0
  | done k id r v ho h0' => exact absurd h0' h0
  | posted k id r ho hne hf hfits hst hc =>
    obtain ⟨v, db, hop, hslot⟩ := operate_spec hfits hst 0
    have hw : Wakes s.ready s.ready := by
      cases s.ready with
      | nil => exact .inl rfl
      | cons l ls => exact .inr ⟨l, List.mem_cons_self, List.mem_cons_self⟩
    refine ⟨{ s with
      page := reply r v s.page
      db
      ready := s.ready.filter (· ∉ s.ready)
      executed := s.executed ++ [⟨s.owner, r, v⟩] }, ?_, (returnValue_reply hslot s.page).2, rfl⟩
    simp [step, hc, h0, hw, isCommand_of_fetch hf, hf, hop]

theorem can_return {s : World κ D} (h : CallInv sq s) {k : κ} {id : Nat} {r : Request} (hk : s.caller k = .waiting id r)
    (d : D) : ∃ t v, (calls sq d).StepsBy (Alone sq) s t ∧ ⟨id, r, v⟩ ∈ t.returned := by
  by_cases h0 : s.page typePos = 0
  · obtain ⟨t, v, ht, hv⟩ := returns_when_ready h hk h0
    have hok : Alone sq s (.test k) := trivial
    exact ⟨t, v, .tail .refl hok ht, hv⟩
  · obtain ⟨s', hs, h0', hcaller⟩ := handles_posted h h0
    have hok : Alone sq s (.manage 0 s.ready) := trivial
    rw [← hcaller] at hk
    obtain ⟨t, v, ht, hv⟩ := returns_when_ready (callInv_step h hok hs) hk h0'
    have hok' : Alone sq s' (.test k) := trivial
    exact ⟨t, v, .tail (.tail .refl hok hs) hok' ht, hv⟩

/-- While calls come one at a time, every call that returned has the value of
its own operation, executed once for it, and every other call made is still
waiting and can return. -/
theorem own_answer_once {d : D} {s : World κ D} (h : (calls sq d).ReachesBy (Alone sq) s) :
    (∀ a ∈ s.returned, s.Own a) ∧
    ∀ id < s.made.length, (∃ a ∈ s.returned, a.id = id) ∨
      ∃ k r, s.caller k = .waiting id r ∧
        ∃ t v, (calls sq d).StepsBy (Alone sq) s t ∧ ⟨id, r, v⟩ ∈ t.returned := by
  have hi : CallInv sq s :=
    h.inv (I := CallInv sq) (fun s hs => by rw [hs]; exact callInv_start d) fun _ _ _ hi hok hs => callInv_step hi hok hs
  refine ⟨hi.own, fun id hid => ?_⟩
  rcases hi.settled id hid with ha | ⟨k, r, hk⟩
  · exact .inl ha
  · exact .inr ⟨k, r, hk, can_return hi hk d⟩

end Calls

/-! ## Two callers -/

def ana : CString := ⟨[97], by decide⟩

def eva : CString := ⟨[101], by decide⟩

/-- A table that ana may be in, with the password "x". -/
def anaTable : Sqlite Bool where
  columnInt d sql n := if d ∧ sql = isUserSql ana.val ∧ n = 0 then 1 else 0
  columnText d sql n := if d ∧ sql = isPasswordSql ana.val ∧ n = 1 then some [120] else none
  exec d sql := if sql = createUserSql ana.val [120] then (if d then 19 else 0, true) else (1, d)

/-- Ana is created by one caller, which wakes too early once, and then looked
up by the other. -/
theorem own_answer_once_two : ∃ s : World Bool Bool, (calls anaTable false).ReachesBy (Alone anaTable) s ∧
    s.returned.map (·.value) = [0, 1] ∧ (∀ a ∈ s.returned, s.Own a) := by
  have hr : (calls anaTable false).ReachesBy (Alone anaTable) _ :=
    Machine.reachesBy_of_runActs
      (l := [.manage 0 [], .call false (.createUser ana ⟨[120], by decide⟩), .spurious false, .test false,
        .manage 0 [false], .test false, .call true (.existUser ana), .manage 0 [true], .test true]) (.init rfl) rfl
  exact ⟨_, hr, rfl, (own_answer_once hr).1⟩

/-- The second caller writes over the first one's command before it is
handled. The database process looks up eva only, and ana, who is in the table,
is not found. -/
theorem command_overwritten :
    ¬∀ s : World Bool Bool, (calls anaTable true).Reaches s → ∀ a ∈ s.returned, s.Own a := by
  intro h
  have hr : (calls anaTable true).Reaches _ :=
    Machine.reachesBy_of_runActs
      (l := [.call false (.existUser ana), .call true (.existUser eva), .manage 0 [false], .test false]) (.init rfl) rfl
  have ho := (h _ hr ⟨0, .existUser ana, 0⟩ (List.mem_singleton.2 rfl)).2
  cases ho

end Snuffin.Db
