import Snuffin.SuperServer
/-!
# Children and their watchers

A watcher reads the pid of its child through a pointer to a variable that the
main loop writes again at the next `fork`. While each watcher has read it
before that, every child has one watcher, which clears the entry of its lobby
and no other.
-/
open Lib Snuffin.ComWrapper Snuffin.Marshalling

namespace Snuffin.SuperServer

/-! ## What should hold -/

/-- The `k`th watcher waits for `p`, or is going to read `p`. With -1 it waits
for any child. -/
def Watches (s : World) (k : Nat) (p : Int) : Prop :=
  k < s.count ∧ ∃ q, (q = p ∨ q = -1) ∧ ((s.jobs k).stage = .waiting q ∨ (s.jobs k).stage = .created ∧ s.child = q)

/-- The main loop has not started the watcher yet. -/
def Stage.InHand (stage : Stage) : Prop := stage = .forked ∨ stage = .stored

instance (stage : Stage) : Decidable stage.InHand := inferInstanceAs (Decidable (_ ∨ _))

/-- Each child that has been handed over has one watcher, and each watcher the
pid of its own child. The entry of a child that runs is there from when it was
stored, and when a watcher has ended the entry of its lobby is 0 unless the
lobby has been started again. -/
structure Tidy (s : World) : Prop where
  watched : ∀ p, s.Alive p → (∀ k < s.count, (s.jobs k).stage.InHand → (s.jobs k).pid ≠ p) → ∃! k, Watches s k p
  own : ∀ k < s.count, ∀ p i, (s.jobs k).stage = .waiting p ∨ (s.jobs k).stage = .clearing p i → p = (s.jobs k).pid
  kept : ∀ k < s.count, (s.jobs k).stage ≠ .forked → (s.jobs k).stage ≠ .ended → (s.jobs k).pid ∈ s.running →
    s.servers (s.jobs k).lobby = (s.jobs k).pid
  cleared : ∀ k < s.count, (s.jobs k).stage = .ended →
    (∀ j < s.count, k < j → (s.jobs j).lobby ≠ (s.jobs k).lobby) → s.servers (s.jobs k).lobby = 0

/-- The condition on a `fork`: it succeeds, all watchers have read their pids,
and the new pid is none that a watcher is still to clear. -/
def Timely (s : World) : Act → Prop
  | .fork child =>
    0 < child ∧ ∀ k < s.count, (s.jobs k).stage ≠ .created ∧ ∀ i ≤ maxLobby, (s.jobs k).stage ≠ .clearing child i
  | _ => True

/-! ## The invariant -/

/-- The entry of the lobby is the child's. -/
def Job.Holds (j : Job) : Prop :=
  match j.stage with
  | .stored | .created | .waiting _ => True
  | .clearing _ i => i ≤ j.lobby.val
  | .forked | .ended => False

/-- The child has not been waited for. -/
def Stage.Open : Stage → Prop
  | .forked | .stored | .created | .waiting _ => True
  | .clearing _ _ | .ended => False

/-- What is known of a job, by its stage. -/
def JobInv (s : World) (j : Job) : Prop :=
  match j.stage with
  | .forked => 0 < j.pid ∧ s.child = j.pid ∧ s.Alive j.pid ∧ s.servers j.lobby = 0
  | .stored | .created => 0 < j.pid ∧ s.child = j.pid ∧ s.Alive j.pid ∧ s.servers j.lobby = j.pid
  | .waiting p => 0 < j.pid ∧ p = j.pid ∧ s.Alive j.pid ∧ s.servers j.lobby = j.pid
  | .clearing p i =>
    0 < j.pid ∧ p = j.pid ∧ ¬s.Alive j.pid ∧ i ≤ maxLobby ∧ (i ≤ j.lobby.val → s.servers j.lobby = j.pid)
  | .ended => True

structure WatchInv (s : World) : Prop where
  jobs : ∀ k < s.count, JobInv s (s.jobs k)
  inHand : ∀ k < s.count, (s.jobs k).stage.InHand → s.main = .handing ∧ k + 1 = s.count
  forking : ∀ lobby, s.main = .forking lobby → s.servers lobby = 0
  distinct : ∀ j < s.count, ∀ k < s.count, (s.jobs j).stage ≠ .ended → (s.jobs k).stage ≠ .ended →
    (s.jobs j).pid = (s.jobs k).pid → j = k
  owner : ∀ lobby, s.servers lobby ≠ 0 →
    ∃ k < s.count, (s.jobs k).lobby = lobby ∧ (s.jobs k).pid = s.servers lobby ∧ (s.jobs k).Holds
  alive : ∀ p, s.Alive p → ∃ k < s.count, (s.jobs k).pid = p ∧ (s.jobs k).stage.Open
  nodup : s.zombies.Nodup ∧ s.running.Nodup ∧ ∀ p ∈ s.running, p ∉ s.zombies
  order : ∀ k < s.count, ∀ j < k, (s.jobs j).lobby = (s.jobs k).lobby →
    ¬(s.jobs j).Holds ∧ (s.jobs j).stage ≠ .forked

/-! ## What `fork` does -/

section Fork
variable {s : World} (lobby : Lobby) (child : Int)

theorem fork_old {k : Nat} (hk : k < s.count) : (s.fork lobby child).jobs k = s.jobs k :=
  Function.update_of_ne (by omega) ..

theorem fork_lt {k : Nat} : k < (s.fork lobby child).count ↔ k = s.count ∨ k < s.count := by
  show k < s.count + 1 ↔ _
  omega

theorem fork_running {child : Int} (hpos : 0 < child) : (s.fork lobby child).running = child :: s.running :=
  if_neg (by omega)

theorem fork_alive {child : Int} (hpos : 0 < child) (p : Int) : (s.fork lobby child).Alive p ↔ p = child ∨ s.Alive p := by
  show p ∈ (s.fork lobby child).running ∨ p ∈ s.zombies ↔ _
  rw [fork_running lobby hpos, List.mem_cons, or_assoc]
  rfl

end Fork

/-! ## One job moves on -/

theorem JobInv.mono {s s' : World} {j : Job} (h : JobInv s j)
    (hchild : j.stage.InHand ∨ j.stage = .created → s'.child = s.child)
    (halive : j.stage ≠ .ended → (s'.Alive j.pid ↔ s.Alive j.pid))
    (hzero : j.stage = .forked → s.servers j.lobby = 0 → s'.servers j.lobby = 0)
    (hpid : 0 < j.pid → s.servers j.lobby = j.pid → s'.servers j.lobby = j.pid) : JobInv s' j := by
  obtain ⟨lobby, pid, stage⟩ := j
  cases stage with
  | forked =>
    obtain ⟨h0, hc, ha, hs⟩ := h
    exact ⟨h0, (hchild (.inl (.inl rfl))).trans hc, (halive (by simp)).2 ha, hzero rfl hs⟩
  | stored =>
    obtain ⟨h0, hc, ha, hs⟩ := h
    exact ⟨h0, (hchild (.inl (.inr rfl))).trans hc, (halive (by simp)).2 ha, hpid h0 hs⟩
  | created =>
    obtain ⟨h0, hc, ha, hs⟩ := h
    exact ⟨h0, (hchild (.inr rfl)).trans hc, (halive (by simp)).2 ha, hpid h0 hs⟩
  | waiting p =>
    obtain ⟨h0, hp, ha, hs⟩ := h
    exact ⟨h0, hp, (halive (by simp)).2 ha, hpid h0 hs⟩
  | clearing p i =>
    obtain ⟨h0, hp, ha, hi, hs⟩ := h
    exact ⟨h0, hp, fun h => ha ((halive (by simp)).1 h), hi, fun hle => hpid h0 (hs hle)⟩
  | ended => trivial

theorem JobInv.holds {s : World} {j : Job} (h : JobInv s j) (hholds : j.Holds) :
    0 < j.pid ∧ s.servers j.lobby = j.pid := by
  obtain ⟨lobby, pid, stage⟩ := j
  cases stage with
  | forked | ended => exact absurd hholds not_false
  | stored | created | waiting p => exact ⟨h.1, h.2.2.2⟩
  | clearing p i => exact ⟨h.1, h.2.2.2.2 hholds⟩

theorem JobInv.pid_pos {s : World} {j : Job} (h : JobInv s j) (hs : j.stage ≠ .ended) : 0 < j.pid := by
  obtain ⟨lobby, pid, stage⟩ := j
  cases stage with
  | forked | stored | created | waiting p | clearing p i => exact h.1
  | ended => exact absurd rfl hs

/-- What is known of a job whose stage is known. -/
theorem WatchInv.staged {s : World} (h : WatchInv s) {k : Nat} (hk : k < s.count) {stage : Stage}
    (hs : (s.jobs k).stage = stage) : JobInv s ⟨(s.jobs k).lobby, (s.jobs k).pid, stage⟩ := by
  subst hs
  exact h.jobs k hk

theorem WatchInv.waiting {s : World} (h : WatchInv s) {k : Nat} (hk : k < s.count) {p : Int}
    (hs : (s.jobs k).stage = .waiting p) :
    0 < (s.jobs k).pid ∧ p = (s.jobs k).pid ∧ s.Alive (s.jobs k).pid ∧ s.servers (s.jobs k).lobby = (s.jobs k).pid :=
  h.staged hk hs

theorem WatchInv.clearing {s : World} (h : WatchInv s) {k : Nat} (hk : k < s.count) {p : Int} {i : Nat}
    (hs : (s.jobs k).stage = .clearing p i) :
    0 < (s.jobs k).pid ∧ p = (s.jobs k).pid ∧ ¬s.Alive (s.jobs k).pid ∧ i ≤ maxLobby ∧
      (i ≤ (s.jobs k).lobby.val → s.servers (s.jobs k).lobby = (s.jobs k).pid) :=
  h.staged hk hs

theorem Job.holds_of {j : Job} {stage : Stage} (hs : j.stage = stage) (h : Job.Holds ⟨j.lobby, j.pid, stage⟩) : j.Holds := by
  subst hs
  exact h

/-- The stage of the `k`th job changes, and what it is is known. -/
theorem WatchInv.restage {s s' : World} {k : Nat} {stage : Stage} (h : WatchInv s) (hk : k < s.count)
    (hjobs : s'.jobs = (s.setStage k stage).jobs) (hcount : s'.count = s.count) (hold : (s.jobs k).stage ≠ .ended)
    (hself : JobInv s' { s.jobs k with stage := stage }) (hothers : ∀ j < s.count, j ≠ k → JobInv s' (s.jobs j))
    (hhand : stage.InHand → s'.main = .handing ∧ k + 1 = s.count)
    (hhands : ∀ j < s.count, j ≠ k → (s.jobs j).stage.InHand → s'.main = .handing)
    (hforking : ∀ lobby, s'.main = .forking lobby → s'.servers lobby = 0)
    (howner : ∀ lobby, s'.servers lobby ≠ 0 →
      (s.jobs k).lobby = lobby ∧ (s.jobs k).pid = s'.servers lobby ∧ Job.Holds { s.jobs k with stage := stage } ∨
        s'.servers lobby = s.servers lobby ∧ ¬((s.jobs k).lobby = lobby ∧ (s.jobs k).pid = s.servers lobby))
    (halive : ∀ p, s'.Alive p → s.Alive p ∧ ((s.jobs k).pid = p → stage.Open))
    (hnodup : s'.zombies.Nodup ∧ s'.running.Nodup ∧ ∀ p ∈ s'.running, p ∉ s'.zombies)
    (hpassed : ¬(s.jobs k).Holds ∧ (s.jobs k).stage ≠ .forked →
      ¬Job.Holds { s.jobs k with stage := stage } ∧ stage ≠ .forked) : WatchInv s' := by
  have hat : s'.jobs k = { s.jobs k with stage := stage } := by rw [hjobs]; exact Function.update_self ..
  have hne : ∀ j, j ≠ k → s'.jobs j = s.jobs j := fun j hj => by rw [hjobs]; exact Function.update_of_ne hj ..
  have hlobby : ∀ j, (s'.jobs j).lobby = (s.jobs j).lobby := fun j => by
    by_cases hj : j = k
    · subst hj; rw [hat]
    · rw [hne j hj]
  have hpid : ∀ j, (s'.jobs j).pid = (s.jobs j).pid := fun j => by
    by_cases hj : j = k
    · subst hj; rw [hat]
    · rw [hne j hj]
  have hended : ∀ j, (s'.jobs j).stage ≠ .ended → (s.jobs j).stage ≠ .ended := fun j hs => by
    by_cases hj : j = k
    · subst hj; exact hold
    · rwa [hne j hj] at hs
  refine ⟨fun j hj => ?_, fun j hj hs => ?_, hforking, fun i hi j hj hsi hsj hp => ?_, fun lobby hl => ?_, fun p hp => ?_,
    hnodup, fun i hi j hj hl => ?_⟩
  · rw [hcount] at hj
    by_cases hjk : j = k
    · rw [hjk, hat]; exact hself
    · rw [hne j hjk]; exact hothers j hj hjk
  · rw [hcount] at hj ⊢
    by_cases hjk : j = k
    · rw [hjk, hat] at hs
      rw [hjk]
      exact hhand hs
    · rw [hne j hjk] at hs
      exact ⟨hhands j hj hjk hs, (h.inHand j hj hs).2⟩
  · rw [hcount] at hi hj
    rw [hpid, hpid] at hp
    exact h.distinct i hi j hj (hended i hsi) (hended j hsj) hp
  · rw [hcount]
    rcases howner lobby hl with ⟨hlob, hp, hholds⟩ | ⟨heq, hno⟩
    · exact ⟨k, hk, by rw [hat]; exact hlob, by rw [hat]; exact hp, by rw [hat]; exact hholds⟩
    · obtain ⟨j, hj, hlob, hp, hholds⟩ := h.owner lobby (by rwa [heq] at hl)
      have hjk : j ≠ k := by
        rintro rfl
        exact hno ⟨hlob, hp⟩
      exact ⟨j, hj, by rw [hne j hjk]; exact hlob, by rw [hne j hjk, heq]; exact hp, by rw [hne j hjk]; exact hholds⟩
  · rw [hcount]
    obtain ⟨hold', hopen⟩ := halive p hp
    obtain ⟨j, hj, hjp, hjo⟩ := h.alive p hold'
    by_cases hjk : j = k
    · rw [hjk] at hjp
      exact ⟨k, hk, by rw [hat]; exact hjp, by rw [hat]; exact hopen hjp⟩
    · exact ⟨j, hj, by rw [hne j hjk]; exact hjp, by rw [hne j hjk]; exact hjo⟩
  · rw [hcount] at hi
    rw [hlobby, hlobby] at hl
    have hpast := h.order i hi j hj hl
    by_cases hjk : j = k
    · rw [hjk] at hpast
      rw [hjk, hat]
      exact hpassed hpast
    · rw [hne j hjk]; exact hpast

theorem Job.Holds.live {j : Job} (h : j.Holds) : j.stage ≠ .ended := fun he => by
  rw [Job.Holds, he] at h
  exact h

/-- The `k`th job moves on, keeps its entry, and no entry changes. -/
theorem WatchInv.advance {s s' : World} {k : Nat} {stage : Stage} (h : WatchInv s) (hk : k < s.count)
    (hjobs : s'.jobs = (s.setStage k stage).jobs) (hcount : s'.count = s.count) (hservers : s'.servers = s.servers)
    (hchild : s'.child = s.child) (hold : (s.jobs k).Holds) (hself : JobInv s' { s.jobs k with stage := stage })
    (hholds : Job.Holds { s.jobs k with stage := stage }) (hhand : ¬stage.InHand)
    (hmain : s'.main = s.main ∨ s'.main = .idle ∧ s.count = k + 1)
    (halive : ∀ p, s'.Alive p ↔ s.Alive p ∧ ((s.jobs k).pid = p → stage.Open))
    (hnodup : s'.zombies.Nodup ∧ s'.running.Nodup ∧ ∀ p ∈ s'.running, p ∉ s'.zombies) : WatchInv s' := by
  refine h.restage hk hjobs hcount hold.live hself (fun j hj hjk => ?_) (fun hh => absurd hh hhand)
    (fun j hj hjk hh => ?_) (fun lobby hf => ?_) (fun lobby _ => ?_) (fun p hp => (halive p).1 hp) hnodup
    (fun hp => absurd hold hp.1)
  · refine (h.jobs j hj).mono (fun _ => hchild) (fun hjs => ?_) (by rw [hservers]; exact fun _ => id)
      (by rw [hservers]; exact fun _ => id)
    rw [halive]
    exact and_iff_left fun hp => absurd (h.distinct j hj k hk hjs hold.live hp.symm) hjk
  · obtain ⟨hm, hlast⟩ := h.inHand j hj hh
    rcases hmain with hmain | ⟨-, hcount⟩
    · exact hmain.trans hm
    · exact absurd (by omega) hjk
  · rw [hservers]
    rcases hmain with hmain | ⟨hmain, -⟩
    · exact h.forking lobby (hmain.symm.trans hf)
    · cases hmain.symm.trans hf
  · rw [hservers]
    by_cases he : (s.jobs k).lobby = lobby ∧ (s.jobs k).pid = s.servers lobby
    · exact .inl ⟨he.1, he.2, hholds⟩
    · exact .inr ⟨rfl, he⟩

/-! ## The steps -/

/-- A connection moves the main loop only. -/
theorem serve_frame (n : Int32) (r : Received) (l : Locals) (s : World) :
    (serve n r l s).jobs = s.jobs ∧ (serve n r l s).count = s.count ∧ (serve n r l s).servers = s.servers ∧
      (serve n r l s).child = s.child ∧ (serve n r l s).running = s.running ∧ (serve n r l s).zombies = s.zombies ∧
      ∀ lobby, (serve n r l s).main = .forking lobby → s.main = .forking lobby ∨ s.servers lobby = 0 := by
  unfold serve
  split
  · exact ⟨rfl, rfl, rfl, rfl, rfl, rfl, fun lobby h => by cases h⟩
  · split
    · exact ⟨rfl, rfl, rfl, rfl, rfl, rfl, fun lobby h => by cases h⟩
    · dsimp only
      split
      · split
        · exact ⟨rfl, rfl, rfl, rfl, rfl, rfl, fun lobby h => .inl h⟩
        · rename_i hempty
          refine ⟨rfl, rfl, rfl, rfl, rfl, rfl, fun lobby h => .inr ?_⟩
          obtain rfl := Main.forking.inj h
          exact not_not.1 hempty
      · exact ⟨rfl, rfl, rfl, rfl, rfl, rfl, fun lobby h => by cases h⟩

theorem connect_inv {n : Int32} {s : World} (h : WatchInv s) (hidle : s.main = .idle) (r : Received) (l : Locals) :
    WatchInv (serve n r l s) := by
  obtain ⟨hjobs, hcount, hservers, hchild, hrun, hzom, hforking⟩ := serve_frame n r l s
  have halive : ∀ p, (serve n r l s).Alive p ↔ s.Alive p := fun p => by rw [World.Alive, World.Alive, hrun, hzom]
  refine ⟨fun k hk => ?_, fun k hk hs => ?_, fun lobby hm => ?_, ?_, ?_, fun p hp => ?_, ?_, ?_⟩
  · rw [hcount] at hk
    rw [hjobs]
    exact (h.jobs k hk).mono (fun _ => hchild) (fun _ => halive _) (by rw [hservers]; exact fun _ => id)
      (by rw [hservers]; exact fun _ => id)
  · rw [hcount] at hk
    rw [hjobs] at hs
    cases hidle.symm.trans (h.inHand k hk hs).1
  · rw [hservers]
    rcases hforking lobby hm with hf | hf
    · exact h.forking lobby hf
    · exact hf
  · rw [hcount, hjobs]; exact h.distinct
  · rw [hcount, hjobs, hservers]; exact h.owner
  · rw [hcount, hjobs]; exact h.alive p ((halive p).1 hp)
  · rw [hrun, hzom]; exact h.nodup
  · rw [hcount, hjobs]; exact h.order

theorem fork_inv {s : World} (h : WatchInv s) {lobby : Lobby} {child : Int} (hmain : s.main = .forking lobby)
    (hfresh : ¬s.Alive child) (hok : Timely s (.fork child)) : WatchInv (s.fork lobby child) := by
  obtain ⟨hpos, hread⟩ := hok
  have hempty := h.forking lobby hmain
  have hat := fork_last s lobby child
  have hne : ∀ k, k < s.count → (s.fork lobby child).jobs k = s.jobs k := fun k hk => fork_old lobby child hk
  have hcount : ∀ k, k < (s.fork lobby child).count → k = s.count ∨ k < s.count := fun k => (fork_lt lobby child).1
  have halive := fork_alive (s := s) lobby hpos
  -- Nothing is in the hands of the main loop, and no watcher has `child` or is about to read it.
  have hhand : ∀ k < s.count, ¬(s.jobs k).stage.InHand := fun k hk hs => by
    cases hmain.symm.trans (h.inHand k hk hs).1
  have hother : ∀ k < s.count, (s.jobs k).stage ≠ .ended → (s.jobs k).pid ≠ child := fun k hk hs hp => by
    cases hstage : (s.jobs k).stage with
    | forked => exact hhand k hk (.inl hstage)
    | stored => exact hhand k hk (.inr hstage)
    | created => exact (hread k hk).1 hstage
    | waiting p =>
      obtain ⟨-, -, ha, -⟩ := h.waiting hk hstage
      exact hfresh (hp ▸ ha)
    | clearing p i =>
      obtain ⟨-, rfl, -, hi, -⟩ := h.clearing hk hstage
      exact (hread k hk).2 i hi (by rw [hstage, hp])
    | ended => exact hs hstage
  refine ⟨fun k hk => ?_, fun k hk hs => ?_, (fun l hm => nomatch hm), fun i hi j hj hsi hsj hp => ?_, fun l hl => ?_,
    fun p hp => ?_, ?_, fun i hi j hj hl => ?_⟩
  · rcases hcount k hk with rfl | hk'
    · rw [hat]
      exact ⟨hpos, rfl, (halive _).2 (.inl rfl), hempty⟩
    · rw [hne k hk']
      refine (h.jobs k hk').mono ?_ (fun hs => ?_) (fun _ => id) (fun _ => id)
      · rintro (hs | hs)
        · exact absurd hs (hhand k hk')
        · exact absurd hs (hread k hk').1
      · rw [halive]
        exact or_iff_right (hother k hk' hs)
  · rcases hcount k hk with rfl | hk'
    · exact ⟨rfl, rfl⟩
    · rw [hne k hk'] at hs
      exact absurd hs (hhand k hk')
  · rcases hcount i hi with rfl | hi' <;> rcases hcount j hj with rfl | hj'
    · rfl
    · rw [hat, hne j hj'] at hp
      rw [hne j hj'] at hsj
      exact absurd hp.symm (hother j hj' hsj)
    · rw [hne i hi', hat] at hp
      rw [hne i hi'] at hsi
      exact absurd hp (hother i hi' hsi)
    · rw [hne i hi', hne j hj'] at hp
      rw [hne i hi'] at hsi
      rw [hne j hj'] at hsj
      exact h.distinct i hi' j hj' hsi hsj hp
  · obtain ⟨k, hk, hlob, hp, hholds⟩ := h.owner l hl
    exact ⟨k, Nat.lt_succ_of_lt hk, by rw [hne k hk]; exact hlob, by rw [hne k hk]; exact hp,
      by rw [hne k hk]; exact hholds⟩
  · rcases (halive p).1 hp with rfl | hp'
    · exact ⟨s.count, Nat.lt_succ_self _, by rw [hat], by rw [hat]; trivial⟩
    · obtain ⟨k, hk, hkp, ho⟩ := h.alive p hp'
      exact ⟨k, Nat.lt_succ_of_lt hk, by rw [hne k hk]; exact hkp, by rw [hne k hk]; exact ho⟩
  · obtain ⟨hz, hr, hd⟩ := h.nodup
    rw [fork_running lobby hpos]
    refine ⟨hz, List.nodup_cons.2 ⟨fun hm => hfresh (.inl hm), hr⟩, fun p hp => ?_⟩
    rcases List.mem_cons.1 hp with rfl | hp
    · exact fun hm => hfresh (.inr hm)
    · exact hd p hp
  · rcases hcount i hi with rfl | hi'
    · rw [hat, hne j hj] at hl
      rw [hne j hj]
      refine ⟨fun hholds => ?_, fun hs => hhand j hj (.inl hs)⟩
      -- A job that holds the entry of the lobby keeps the loop from forking for it.
      obtain ⟨h0, hentry⟩ := (h.jobs j hj).holds hholds
      rw [hl, hempty] at hentry
      omega
    · have hj' : j < s.count := by omega
      rw [hne i hi', hne j hj'] at hl
      rw [hne j hj']
      exact h.order i hi' j hj hl

/-- Other jobs that are in hand are none. -/
theorem WatchInv.last {s : World} (h : WatchInv s) {k : Nat} (hk : s.count = k + 1) {j : Nat} (hj : j < s.count)
    (hjk : j ≠ k) : ¬(s.jobs j).stage.InHand := fun hs => hjk (by have := (h.inHand j hj hs).2; omega)

/-- A job that holds no entry takes no one else's. -/
theorem WatchInv.entry {s : World} (h : WatchInv s) {k : Nat} (hk : k < s.count) (hs : (s.jobs k).stage ≠ .ended)
    {lobby : Lobby} (hl : s.servers lobby = (s.jobs k).pid) : (s.jobs k).lobby = lobby ∧ (s.jobs k).Holds := by
  have hpos := (h.jobs k hk).pid_pos hs
  obtain ⟨j, hj, hlob, hp, hholds⟩ := h.owner lobby (by omega)
  obtain rfl := h.distinct j hj k hk hholds.live hs (by rw [hp, hl])
  exact ⟨hlob, hholds⟩

theorem store_inv {s : World} (h : WatchInv s) {k : Nat} (hmain : s.main = .handing) (hk : s.count = k + 1)
    (hs : (s.jobs k).stage = .forked) :
    WatchInv { s.setStage k .stored with servers := Function.update s.servers (s.jobs k).lobby s.child } := by
  have hk' : k < s.count := by omega
  obtain ⟨hpos, hchild, halive, hempty⟩ := h.staged hk' hs
  have hown : Function.update s.servers (s.jobs k).lobby s.child (s.jobs k).lobby = (s.jobs k).pid := by
    rw [Function.update_self, hchild]
  refine h.restage hk' rfl rfl (by rw [hs]; simp) ⟨hpos, hchild, halive, hown⟩ (fun j hj hjk => ?_)
    (fun _ => ⟨hmain, hk.symm⟩) (fun _ _ _ _ => hmain) (fun lobby hf => ?_) (fun lobby hl => ?_)
    (fun p hp => ⟨hp, fun _ => trivial⟩) h.nodup (fun hp => absurd hs hp.2)
  · refine (h.jobs j hj).mono (fun _ => rfl) (fun _ => Iff.rfl) (fun hf => absurd (.inl hf) (h.last hk hj hjk)) ?_
    intro hjpos hentry
    have hne : (s.jobs j).lobby ≠ (s.jobs k).lobby := fun he => by
      rw [he, hempty] at hentry
      omega
    exact (Function.update_of_ne hne ..).trans hentry
  · cases hmain.symm.trans hf
  · by_cases hlob : lobby = (s.jobs k).lobby
    · subst hlob
      exact .inl ⟨rfl, hown.symm, trivial⟩
    · exact .inr ⟨Function.update_of_ne hlob .., fun he => hlob he.1.symm⟩

theorem watch_inv {s : World} (h : WatchInv s) {k : Nat} (hk : s.count = k + 1) (hs : (s.jobs k).stage = .stored) :
    WatchInv { s.setStage k .created with main := .idle } := by
  have hk' : k < s.count := by omega
  exact h.advance hk' rfl rfl rfl rfl (Job.holds_of hs trivial) (h.staged hk' hs) trivial
    (by rintro (hh | hh) <;> cases hh) (.inr ⟨rfl, hk⟩) (fun p => (and_iff_left fun _ => trivial).symm) h.nodup

theorem exit_inv {s : World} (h : WatchInv s) {pid : Int} (hp : pid ∈ s.running) :
    WatchInv { s with running := s.running.erase pid, zombies := pid :: s.zombies } := by
  obtain ⟨hz, hr, hd⟩ := h.nodup
  have halive : ∀ p, World.Alive { s with running := s.running.erase pid, zombies := pid :: s.zombies } p ↔ s.Alive p := by
    intro p
    show p ∈ s.running.erase pid ∨ p ∈ pid :: s.zombies ↔ p ∈ s.running ∨ p ∈ s.zombies
    rw [List.mem_cons, hr.mem_erase_iff]
    by_cases he : p = pid
    · subst he
      simp [hp]
    · simp [he]
  refine ⟨fun k hk => ?_, h.inHand, h.forking, h.distinct, h.owner, fun p hp => h.alive p ((halive p).1 hp), ?_, h.order⟩
  · exact (h.jobs k hk).mono (fun _ => rfl) (fun _ => halive _) (fun _ => id) (fun _ => id)
  · refine ⟨List.nodup_cons.2 ⟨hd pid hp, hz⟩, hr.erase pid, fun p hp' => ?_⟩
    rw [hr.mem_erase_iff] at hp'
    rw [List.mem_cons, not_or]
    exact ⟨hp'.1, hd p hp'.2⟩

theorem read_inv {s : World} (h : WatchInv s) {k : Nat} (hk : k < s.count) (hs : (s.jobs k).stage = .created) :
    WatchInv (s.setStage k (.waiting s.child)) :=
  h.advance hk rfl rfl rfl rfl (Job.holds_of hs trivial) (h.staged hk hs) trivial
    (by rintro (hh | hh) <;> cases hh) (.inl rfl) (fun p => (and_iff_left fun _ => trivial).symm) h.nodup

theorem reap_inv {s : World} (h : WatchInv s) {k : Nat} {p : Int} (hk : k < s.count) (hs : (s.jobs k).stage = .waiting p)
    (hp : p ∈ s.zombies) : WatchInv { s.setStage k (.clearing p 0) with zombies := s.zombies.erase p } := by
  obtain ⟨hz, hr, hd⟩ := h.nodup
  obtain ⟨hpos, rfl, -, hentry⟩ := h.waiting hk hs
  -- The child is gone, and the others are where they were.
  have halive : ∀ q, World.Alive { s.setStage k (.clearing (s.jobs k).pid 0) with zombies := s.zombies.erase (s.jobs k).pid } q ↔
      s.Alive q ∧ (s.jobs k).pid ≠ q := by
    intro q
    show q ∈ s.running ∨ q ∈ s.zombies.erase (s.jobs k).pid ↔ (q ∈ s.running ∨ q ∈ s.zombies) ∧ (s.jobs k).pid ≠ q
    rw [hz.mem_erase_iff]
    constructor
    · rintro (hq | ⟨hne, hq⟩)
      · exact ⟨.inl hq, fun he => hd q hq (by rwa [← he])⟩
      · exact ⟨.inr hq, hne.symm⟩
    · rintro ⟨hq | hq, hne⟩
      · exact .inl hq
      · exact .inr ⟨hne.symm, hq⟩
  exact h.advance hk rfl rfl rfl rfl (Job.holds_of hs trivial)
    ⟨hpos, rfl, fun ha => ((halive _).1 ha).2 rfl, Nat.zero_le _, fun _ => hentry⟩ (Nat.zero_le _)
    (by rintro (hh | hh) <;> cases hh) (.inl rfl) halive
    ⟨hz.erase _, hr, fun q hq hm => hd q hq (List.mem_of_mem_erase hm)⟩

theorem clear_inv {s : World} (h : WatchInv s) {k : Nat} {p : Int} (i : Lobby) (hk : k < s.count)
    (hs : (s.jobs k).stage = .clearing p i.val) :
    WatchInv { s.setStage k (.clearing p (i.val + 1)) with
      servers := if s.servers i = p then Function.update s.servers i 0 else s.servers } := by
  obtain ⟨hpos, rfl, hgone, -, hentry⟩ := h.clearing hk hs
  have hlive : (s.jobs k).stage ≠ .ended := by rw [hs]; simp
  -- Only the entry of its own lobby can be the one that is cleared.
  have hother : ∀ lobby, lobby ≠ i ∨ s.servers lobby ≠ (s.jobs k).pid →
      (if s.servers i = (s.jobs k).pid then Function.update s.servers i 0 else s.servers) lobby = s.servers lobby := by
    intro lobby hl
    split
    · rename_i he
      refine Function.update_of_ne ?_ ..
      rintro rfl
      exact hl.elim (fun hne => hne rfl) fun hne => hne he
    · rfl
  have hzero : ∀ lobby, s.servers lobby = 0 →
      (if s.servers i = (s.jobs k).pid then Function.update s.servers i 0 else s.servers) lobby = 0 := by
    intro lobby hl
    rw [hother lobby (.inr (by omega)), hl]
  refine h.restage hk rfl rfl hlive ⟨hpos, rfl, hgone, i.isLt, fun hle => ?_⟩ (fun j hj hjk => ?_) (fun hh => ?_)
    (fun j hj _ hh => (h.inHand j hj hh).1) (fun lobby hf => hzero lobby (h.forking lobby hf)) (fun lobby hl => ?_)
    (fun q hq => ⟨hq, fun he => absurd (he ▸ hq) hgone⟩) h.nodup (fun hp => ⟨fun hholds => hp.1 ?_, by simp⟩)
  · have hle' : i.val + 1 ≤ (s.jobs k).lobby.val := hle
    have hne : (s.jobs k).lobby ≠ i := fun he => by rw [he] at hle'; omega
    exact (hother _ (.inl hne)).trans (hentry (by omega))
  · by_cases hjs : (s.jobs j).stage = .ended
    · rw [JobInv, hjs]
      trivial
    · refine (h.jobs j hj).mono (fun _ => rfl) (fun _ => Iff.rfl) (fun _ => hzero _) (fun _ he => ?_)
      have hne : s.servers (s.jobs j).lobby ≠ (s.jobs k).pid := fun hek =>
        hjk (h.distinct j hj k hk hjs hlive (by rw [← he, hek]))
      exact (hother _ (.inr hne)).trans he
  · rcases hh with hh | hh <;> cases hh
  · have hl' : (if s.servers i = (s.jobs k).pid then Function.update s.servers i 0 else s.servers) lobby ≠ 0 := hl
    have hkeep : lobby ≠ i ∨ s.servers lobby ≠ (s.jobs k).pid := by
      by_contra hno
      rw [not_or, not_not, not_not] at hno
      obtain ⟨rfl, he⟩ := hno
      rw [if_pos he, Function.update_self] at hl'
      exact hl' rfl
    by_cases he : (s.jobs k).lobby = lobby ∧ (s.jobs k).pid = s.servers lobby
    · refine .inl ⟨he.1, he.2.trans (hother lobby hkeep).symm, ?_⟩
      have hholds := (h.entry hk hlive he.2.symm).2
      rw [Job.Holds, hs] at hholds
      have hne : lobby ≠ i := hkeep.resolve_right fun hne => hne he.2.symm
      show i.val + 1 ≤ (s.jobs k).lobby.val
      have hval : lobby.val ≠ i.val := fun hv => hne (Fin.ext hv)
      rw [he.1] at hholds ⊢
      have hle : i.val ≤ lobby.val := hholds
      omega
    · exact .inr ⟨hother lobby hkeep, he⟩
  · rw [Job.Holds, hs]
    exact Nat.le_of_succ_le hholds

theorem done_inv {s : World} (h : WatchInv s) {k : Nat} {p : Int} (hk : k < s.count)
    (hs : (s.jobs k).stage = .clearing p maxLobby) : WatchInv (s.setStage k .ended) := by
  obtain ⟨-, -, hgone, -⟩ := h.clearing hk hs
  have hlive : (s.jobs k).stage ≠ .ended := by rw [hs]; simp
  have hno : ¬(s.jobs k).Holds := fun hholds => by
    rw [Job.Holds, hs] at hholds
    exact absurd hholds (Nat.not_le.2 (s.jobs k).lobby.isLt)
  refine h.restage hk rfl rfl hlive trivial (fun j hj _ => ?_) (fun hh => ?_)
    (fun j hj _ hh => (h.inHand j hj hh).1) h.forking (fun lobby hl => .inr ⟨rfl, fun he => ?_⟩)
    (fun q hq => ⟨hq, fun he => absurd (he ▸ hq) hgone⟩) h.nodup (fun _ => ⟨not_false, by simp⟩)
  · exact (h.jobs j hj).mono (fun _ => rfl) (fun _ => Iff.rfl) (fun _ => id) (fun _ => id)
  · rcases hh with hh | hh <;> cases hh
  · exact hno (h.entry hk hlive he.2.symm).2

theorem watchInv_step {n : Int32} {s s' : World} {a : Act} (h : WatchInv s) (hok : Timely s a) (hs : Step n s a s') :
    WatchInv s' := by
  cases hs with
  | connect r l hidle _ => exact connect_inv h hidle r l
  | fork child hmain hfresh =>
    have hpos := hok.1
    exact fork_inv h hmain (hfresh.resolve_left (by omega)).2 hok
  | store hmain hk hst => exact store_inv h hmain hk hst
  | watch _ hk hst => exact watch_inv h hk hst
  | exit pid hp => exact exit_inv h hp
  | read k hk hst => exact read_inv h hk hst
  | reap hk hst hp => exact reap_inv h hk hst hp
  | @reapAny k q hk hst hq =>
    -- No watcher has read -1.
    obtain ⟨hpos, hp, -⟩ := h.waiting hk hst
    omega
  | @noChild k p hk hst _ hgone =>
    obtain ⟨-, rfl, ha, -⟩ := h.waiting hk hst
    exact absurd ha hgone
  | clear i hk hst => exact clear_inv h i hk hst
  | done hk hst => exact done_inv h hk hst

theorem watchInv_start (data : Bytes) (jobs : Nat → Job) : WatchInv (.start data jobs) where
  jobs k hk := absurd hk (Nat.not_lt_zero k)
  inHand k hk := absurd hk (Nat.not_lt_zero k)
  forking _ h := nomatch h
  distinct j hj := absurd hj (Nat.not_lt_zero j)
  owner _ h := absurd rfl h
  alive _ h := h.elim (fun h => nomatch h) fun h => nomatch h
  nodup := ⟨List.nodup_nil, List.nodup_nil, fun _ hp => nomatch hp⟩
  order k hk := absurd hk (Nat.not_lt_zero k)

/-! ## Every run -/

/-- A watcher of `p` belongs to the job of `p`. -/
theorem WatchInv.pid_of_watches {s : World} (h : WatchInv s) {k : Nat} {p : Int} (hw : Watches s k p) :
    (s.jobs k).pid = p ∧ (s.jobs k).stage ≠ .ended := by
  obtain ⟨hk, q, hq, hs⟩ := hw
  have hpid : 0 < (s.jobs k).pid ∧ q = (s.jobs k).pid ∧ (s.jobs k).stage ≠ .ended := by
    rcases hs with hs | ⟨hs, hc⟩
    · obtain ⟨hpos, hp, -⟩ := h.waiting hk hs
      exact ⟨hpos, hp, by rw [hs]; simp⟩
    · obtain ⟨hpos, hp, -⟩ := h.staged hk hs
      exact ⟨hpos, hc.symm.trans hp, by rw [hs]; simp⟩
  obtain ⟨hpos, hp, hlive⟩ := hpid
  exact ⟨by omega, hlive⟩

theorem WatchInv.watched {s : World} (h : WatchInv s) {p : Int} (hp : s.Alive p)
    (hno : ∀ k < s.count, (s.jobs k).stage.InHand → (s.jobs k).pid ≠ p) : ∃! k, Watches s k p := by
  obtain ⟨k, hk, hkp, hopen⟩ := h.alive p hp
  have hw : Watches s k p := by
    refine ⟨hk, p, .inl rfl, ?_⟩
    cases hs : (s.jobs k).stage with
    | forked => exact absurd hkp (hno k hk (.inl hs))
    | stored => exact absurd hkp (hno k hk (.inr hs))
    | created =>
      obtain ⟨-, hc, -⟩ := h.staged hk hs
      exact .inr ⟨rfl, hc.trans hkp⟩
    | waiting q =>
      obtain ⟨-, hq, -⟩ := h.waiting hk hs
      exact .inl (by rw [hq, ← hkp])
    | clearing q i => rw [hs] at hopen; exact absurd hopen not_false
    | ended => rw [hs] at hopen; exact absurd hopen not_false
  refine ⟨k, hw, fun j hj => ?_⟩
  obtain ⟨hjp, hjs⟩ := h.pid_of_watches hj
  exact h.distinct j hj.1 k hk hjs (h.pid_of_watches hw).2 (hjp.trans hkp.symm)

theorem WatchInv.kept {s : World} (h : WatchInv s) {k : Nat} (hk : k < s.count) (hforked : (s.jobs k).stage ≠ .forked)
    (hended : (s.jobs k).stage ≠ .ended) (hrun : (s.jobs k).pid ∈ s.running) :
    s.servers (s.jobs k).lobby = (s.jobs k).pid := by
  cases hs : (s.jobs k).stage with
  | forked => exact absurd hs hforked
  | stored | created | waiting p => exact (h.staged hk hs).2.2.2
  | clearing p i => exact absurd (.inl hrun) (h.clearing hk hs).2.2.1
  | ended => exact absurd hs hended

theorem WatchInv.cleared {s : World} (h : WatchInv s) {k : Nat} (hk : k < s.count) (hs : (s.jobs k).stage = .ended)
    (hlast : ∀ j < s.count, k < j → (s.jobs j).lobby ≠ (s.jobs k).lobby) : s.servers (s.jobs k).lobby = 0 := by
  by_contra hne
  obtain ⟨j, hj, hlob, -, hholds⟩ := h.owner _ hne
  rcases Nat.lt_trichotomy j k with hlt | rfl | hgt
  · exact (h.order k hk j hlt hlob).1 hholds
  · exact hholds.live hs
  · exact hlast j hj hgt hlob

theorem watchInv_of_reaches {n : Int32} {s : World} (h : (superServer n).ReachesBy Timely s) : WatchInv s := by
  refine h.inv ?_ fun s a s' => watchInv_step
  rintro s ⟨data, jobs, -, rfl⟩
  exact watchInv_start data jobs

/-- While each watcher has read its pid before the next `fork`, which succeeds
with a pid that no watcher is still to clear, every child has one watcher and
the entry of its lobby is cleared by it alone. -/
theorem tidy {n : Int32} {s : World} (h : (superServer n).ReachesBy Timely s) : Tidy s := by
  have hinv := watchInv_of_reaches h
  refine ⟨fun p => hinv.watched, fun k hk p i hs => ?_, fun k hk => hinv.kept hk, fun k hk => hinv.cleared hk⟩
  rcases hs with hs | hs
  · exact (hinv.waiting hk hs).2.1
  · exact (hinv.clearing hk hs).2.1

/-- The `k`th watcher has cleared the entries of `p` from the `i`th on, and has
ended. -/
def World.clearedFrom (s : World) (k : Nat) (p : Int) (i : Nat) : World :=
  { s.setStage k .ended with servers := fun lobby => if i ≤ lobby.val ∧ s.servers lobby = p then 0 else s.servers lobby }

/-- One round of the watcher's loop, and the rest of them. -/
theorem clearedFrom_succ (s : World) (k : Nat) (p : Int) (i : Lobby) :
    World.clearedFrom { s.setStage k (.clearing p (i.val + 1)) with
        servers := if s.servers i = p then Function.update s.servers i 0 else s.servers } k p (i.val + 1) =
      s.clearedFrom k p i.val := by
  have hservers : (fun lobby : Lobby =>
      if i.val + 1 ≤ lobby.val ∧ (if s.servers i = p then Function.update s.servers i 0 else s.servers) lobby = p then 0
        else (if s.servers i = p then Function.update s.servers i 0 else s.servers) lobby) =
      fun lobby => if i.val ≤ lobby.val ∧ s.servers lobby = p then 0 else s.servers lobby := by
    funext lobby
    by_cases hl : lobby = i
    · subst hl
      by_cases hp : s.servers lobby = p
      · rw [if_neg fun h => Nat.not_succ_le_self _ h.1, if_pos hp, Function.update_self, if_pos ⟨Nat.le_refl _, hp⟩]
      · rw [if_neg fun h => Nat.not_succ_le_self _ h.1, if_neg hp, if_neg fun h => hp h.2]
    · have hkeep : (if s.servers i = p then Function.update s.servers i 0 else s.servers) lobby = s.servers lobby := by
        split
        · rw [Function.update_of_ne hl]
        · rfl
      have hne : lobby.val ≠ i.val := fun h => hl (Fin.ext h)
      rw [hkeep]
      exact if_congr (and_congr_left fun _ => by omega) rfl rfl
  simp only [World.clearedFrom, World.setStage, hservers, Function.update_self, Function.update_idem]

/-- A watcher that has waited for its child clears the entries one by one and
ends. -/
theorem reaches_clearedFrom {n : Int32} {ok : World → Act → Prop} {k : Nat} {p : Int} (hok : ∀ t, ok t (.clear k))
    {d i : Nat} (hd : i + d = maxLobby) {s : World} (h : (superServer n).ReachesBy ok s) (hk : k < s.count)
    (hs : (s.jobs k).stage = .clearing p i) : (superServer n).ReachesBy ok (s.clearedFrom k p i) := by
  induction d generalizing i s with
  | zero =>
    obtain rfl : i = maxLobby := hd
    have hdone := h.step (hok s) (.done hk hs)
    convert hdone using 1
    have hservers : (fun lobby : Lobby => if maxLobby ≤ lobby.val ∧ s.servers lobby = p then 0 else s.servers lobby) =
        s.servers := by
      funext lobby
      exact if_neg fun hle => absurd hle.1 (Nat.not_le.2 lobby.isLt)
    rw [World.clearedFrom, hservers]
    rfl
  | succ d ih =>
    have hi : i < maxLobby := by omega
    have hstep := h.step (hok s) (.clear ⟨i, hi⟩ hk hs)
    have hrest := ih (i := i + 1) (by omega) hstep hk (by simp [World.setStage])
    rwa [clearedFrom_succ s k p ⟨i, hi⟩] at hrest

/-- Two children, of which the first has ended and its watcher too, while the
second runs. -/
theorem tidy_two : ∃ s, (superServer 0).ReachesBy Timely s ∧
    (s.count = 2 ∧ (s.jobs 0).stage = .ended ∧ s.servers 0 = 0 ∧ (s.jobs 1).stage = .waiting 102 ∧ s.servers 1 = 102 ∧
      s.running = [102]) ∧ Tidy s := by
  have hstart : (superServer 0).ReachesBy Timely (serve 0 (.bytes [56, 48, 0]) cleared fresh) :=
    reaches_serve (.init (fresh_init 0)) rfl [56, 48, 0] (by decide) trivial
  have hcount : (serve 0 (.bytes [56, 48, 0]) cleared fresh).count = 0 := (serve_frame ..).2.1
  have hhanded := reaches_handOver hstart 0 101 (by decide +kernel) (by decide)
    (by decide +kernel) ⟨by decide, fun k hk => absurd hk (by omega)⟩ (fun _ => trivial) fun _ => trivial
  have hread := hhanded.step (a := Act.read 0) trivial (.read 0 (by decide +kernel) (by decide +kernel))
  have hexit := hread.step (a := Act.exit 101) trivial (.exit 101 (by decide +kernel))
  have hreap := hexit.step (a := Act.waitpid 0) trivial (.reap (k := 0) (p := 101)
    (by decide +kernel) (by decide +kernel) (by decide +kernel))
  have hended := reaches_clearedFrom (k := 0) (fun _ => trivial) (p := 101) (Nat.zero_add maxLobby) hreap
    (by decide +kernel) (by decide +kernel)
  have hnext := reaches_serve hended rfl [56, 49, 0] (by decide) trivial
  have hsecond := reaches_handOver hnext 1 102 (by decide +kernel) (by decide) (by decide +kernel)
    ⟨by decide, by decide +kernel⟩ (fun _ => trivial) fun _ => trivial
  have hlast := hsecond.step (a := Act.read 1) trivial (.read 1 (by decide +kernel) (by decide +kernel))
  exact ⟨_, hlast, by decide +kernel, tidy hlast⟩

/-- Two connections start the lobbies 0 and 1, and the first watcher reads its
pid after the second `fork`. -/
theorem crossed_reached : ∃ s, (superServer 0).Reaches s ∧ s.count = 2 ∧ (s.jobs 0).stage = .waiting 102 ∧
    (s.jobs 1).stage = .created ∧ s.child = 102 ∧ 101 ∈ s.running := by
  have hstart : (superServer 0).Reaches (serve 0 (.bytes [56, 48, 0]) cleared fresh) :=
    reaches_serve (.init (fresh_init 0)) rfl [56, 48, 0] (by decide) trivial
  have hfirst := reaches_handOver hstart 0 101 (by decide +kernel) (by decide)
    (by decide +kernel) trivial (fun _ => trivial) fun _ => trivial
  have hnext := reaches_serve hfirst rfl [56, 49, 0] (by decide) trivial
  have hsecond := reaches_handOver hnext 1 102 (by decide +kernel) (by decide)
    (by decide +kernel) trivial (fun _ => trivial) fun _ => trivial
  exact ⟨_, hsecond.next (.read 0) (.read 0 (by decide +kernel) (by decide +kernel)), by decide +kernel⟩

/-- The child of lobby 0 runs, and no watcher waits for it or will. -/
theorem not_tidy : ¬∀ s : World, (superServer 0).Reaches s → Tidy s := by
  intro h
  obtain ⟨s, hs, hcount, hfirst, hsecond, hchild, hrun⟩ := crossed_reached
  have hhand : ∀ k < s.count, ¬(s.jobs k).stage.InHand := by
    intro k hk
    rw [hcount] at hk
    interval_cases k
    · rw [hfirst]
      decide
    · rw [hsecond]
      decide
  obtain ⟨k, ⟨hk, q, hq, hw⟩, -⟩ := (h s hs).watched 101 (.inl hrun) fun k hk hh => absurd hh (hhand k hk)
  rw [hcount] at hk
  interval_cases k
  · rw [hfirst, hchild] at hw
    simp at hw
    omega
  · rw [hsecond, hchild] at hw
    simp at hw
    omega

/-- A `fork` while a watcher has not read its pid leaves the child of that
watcher to nobody. -/
theorem not_tidy_of_unread {n : Int32} {s : World} (h : (superServer n).ReachesBy Timely s) {lobby : Lobby} {child : Int}
    (hmain : s.main = .forking lobby) (hpos : 0 < child) (hfresh : ¬s.Alive child) {k : Nat} (hk : k < s.count)
    (hs : (s.jobs k).stage = .created) : ¬Tidy (s.fork lobby child) := by
  have hinv := watchInv_of_reaches h
  have halive : s.Alive (s.jobs k).pid := (hinv.staged hk hs).2.2.1
  have hother : child ≠ (s.jobs k).pid := fun he => hfresh (he ▸ halive)
  intro htidy
  obtain ⟨j, ⟨hj, q, hq, hw⟩, -⟩ := htidy.watched _ ((fork_alive lobby hpos _).2 (.inr halive)) fun j hj hh => by
    rcases (fork_lt lobby child).1 hj with rfl | hj'
    · rw [fork_last]
      exact hother
    · rw [fork_old lobby child hj'] at hh
      cases hmain.symm.trans (hinv.inHand j hj' hh).1
  rcases (fork_lt lobby child).1 hj with rfl | hj'
  · rw [fork_last] at hw
    rcases hw with hw | ⟨hw, -⟩ <;> cases hw
  · rw [fork_old lobby child hj'] at hw
    rcases hw with hw | ⟨-, hc⟩
    · obtain ⟨hjpos, hjp, -⟩ := hinv.waiting hj' hw
      obtain rfl := hinv.distinct j hj' k hk (by rw [hw]; simp) (by rw [hs]; simp) (by omega)
      cases hw.symm.trans hs
    · have hc' : child = q := hc
      omega

end Snuffin.SuperServer
