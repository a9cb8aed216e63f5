import Snuffin.RoundTrips
import Snuffin.Lib.Machine
import Mathlib.Logic.Function.Basic
/-!
# The super server (superServer.c)

The main loop reads the first message of each connection, and joins the lobby
that it names or forks a child for it. A watcher thread waits for each child
and clears its entry in `servers`. The steps of the loop, of the watchers and
of the children come in any order.
-/
open Lib Snuffin.ComWrapper Snuffin.Marshalling

namespace Snuffin.SuperServer

/-! ## The code -/

/-- `MAX_LOBBY`. -/
abbrev maxLobby : Nat := 10

abbrev Lobby := Fin maxLobby

/-- What becomes of a connection: it is told the direction of a lobby that
runs or of one that is started, or the loop leaves its arrays. -/
inductive Served where
  | joined (lobby : Lobby) (direction : Int32)
  | started (lobby : Lobby) (direction : Int32)
  | faulted
  deriving DecidableEq

/-- Where the main loop is. After an access outside an array nothing more is
said of it. -/
inductive Main where
  /-- In `acceptConnection`. -/
  | idle
  /-- It has found `servers[lobby]` empty. -/
  | forking (lobby : Lobby)
  /-- Between `fork` and `pthread_create`. -/
  | handing
  | halted
  deriving DecidableEq

/-- How far the hand-over of a child and its watcher are. A watcher in
`waitpid` has read `s` from its pointer. -/
inductive Stage where
  | forked
  | stored
  | created
  | waiting (s : Int)
  | clearing (s : Int) (i : Nat)
  | ended
  deriving DecidableEq

/-- A call of `fork`: the lobby that it was for, what it returned to the main
loop, and what has come of it. -/
structure Job where
  lobby : Lobby
  pid : Int
  stage : Stage

/-- The globals, the variables of `main`, and the children that have not been
waited for. `count` calls of `fork` have been made, and `served` lists the
connections with what they sent first. -/
structure World where
  wrapper : Wrapper
  buffer : StreamData
  joinServer : Int32
  servers : Lobby → Int
  child : Int
  main : Main
  running : List Int
  zombies : List Int
  jobs : Nat → Job
  count : Nat
  served : List (Received × Served)

/-- The labels: a connection with its first bytes and what the decoder's arrays
hold, the steps of the main loop with what `fork` returns, the end of a child,
and the steps of the watchers. -/
inductive Act where
  | connect (r : Received) (l : Locals)
  | fork (child : Int)
  | store
  | watch
  | exit (pid : Int)
  | read (k : Nat)
  | waitpid (k : Nat)
  | clear (k : Nat)

/-- `recv` gives no more than it is asked for. -/
def Arrives : Received → Prop
  | .error => True
  | .bytes b => b.length ≤ bufferSize

/-- A child that has not been waited for. -/
def World.Alive (s : World) (pid : Int) : Prop := pid ∈ s.running ∨ pid ∈ s.zombies

instance (s : World) (pid : Int) : Decidable (s.Alive pid) := inferInstanceAs (Decidable (_ ∨ _))

def World.setStage (s : World) (k : Nat) (stage : Stage) : World :=
  { s with jobs := Function.update s.jobs k { s.jobs k with stage := stage } }

/-- The body of the main loop up to `fork`. -/
def serve (n : Int32) (r : Received) (l : Locals) (s : World) : World :=
  match readData r s.buffer s.wrapper with
  | none => { s with main := .halted, served := s.served ++ [(r, .faulted)] }
  | some (_, buffer, wrapper) =>
    match unmarshServerId (cstr buffer.data ++ [0]) l with
    | none => { s with main := .halted, served := s.served ++ [(r, .faulted)] }
    | some o =>
      -- The return value is dropped, and `joinServer` is what it was.
      let joinServer := o.getD s.joinServer
      let s := { s with buffer := buffer, wrapper := wrapper, joinServer := joinServer }
      if h : 0 ≤ joinServer.toInt ∧ joinServer.toInt < maxLobby then
        let lobby : Lobby := ⟨joinServer.toInt.toNat, by omega⟩
        if s.servers lobby ≠ (0 : Int) then { s with served := s.served ++ [(r, .joined lobby (n + joinServer))] }
        else { s with main := .forking lobby, served := s.served ++ [(r, .started lobby (n + joinServer))] }
      else { s with main := .halted, served := s.served ++ [(r, .faulted)] }

/-- `int child = fork();` -/
def World.fork (s : World) (lobby : Lobby) (child : Int) : World :=
  { s with
    child := child
    main := .handing
    running := if child = -1 then s.running else child :: s.running
    jobs := Function.update s.jobs s.count ⟨lobby, child, .forked⟩
    count := s.count + 1 }

/-- The super server whose lobbies have the directions from `n` on. `fork`
fails, or gives the pid of no child that is still there; `waitpid(-1)` takes
any child. -/
inductive Step (n : Int32) : World → Act → World → Prop
  | connect {s} (r l) : s.main = .idle → Arrives r → Step n s (.connect r l) (serve n r l s)
  | fork {s lobby} (child) : s.main = .forking lobby → child = -1 ∨ 0 < child ∧ ¬s.Alive child →
      Step n s (.fork child) (s.fork lobby child)
  | store {s k} : s.main = .handing → s.count = k + 1 → (s.jobs k).stage = .forked →
      Step n s .store
        { s.setStage k .stored with servers := Function.update s.servers (s.jobs k).lobby s.child }
  | watch {s k} : s.main = .handing → s.count = k + 1 → (s.jobs k).stage = .stored →
      Step n s .watch { s.setStage k .created with main := .idle }
  | exit {s} (pid) : pid ∈ s.running →
      Step n s (.exit pid) { s with running := s.running.erase pid, zombies := pid :: s.zombies }
  | read {s} (k) : k < s.count → (s.jobs k).stage = .created → Step n s (.read k) (s.setStage k (.waiting s.child))
  | reap {s k p} : k < s.count → (s.jobs k).stage = .waiting p → p ∈ s.zombies →
      Step n s (.waitpid k) { s.setStage k (.clearing p 0) with zombies := s.zombies.erase p }
  | reapAny {s k} (q) : k < s.count → (s.jobs k).stage = .waiting (-1) → q ∈ s.zombies →
      Step n s (.waitpid k) { s.setStage k (.clearing (-1) 0) with zombies := s.zombies.erase q }
  | noChild {s k p} : k < s.count → (s.jobs k).stage = .waiting p → p ≠ -1 → ¬s.Alive p →
      Step n s (.waitpid k) (s.setStage k (.clearing p 0))
  | clear {s k p} (i : Lobby) : k < s.count → (s.jobs k).stage = .clearing p i.val →
      Step n s (.clear k)
        { s.setStage k (.clearing p (i.val + 1)) with
          servers := if s.servers i = p then Function.update s.servers i 0 else s.servers }
  | done {s k p} : k < s.count → (s.jobs k).stage = .clearing p maxLobby →
      Step n s (.clear k) (s.setStage k .ended)

/-- Before the first connection; `buffer->data` holds anything. -/
def World.start (data : Bytes) (jobs : Nat → Job) : World where
  wrapper := .start
  buffer := ⟨data, 0⟩
  joinServer := 0
  servers := fun _ => 0
  child := 0
  main := .idle
  running := []
  zombies := []
  jobs := jobs
  count := 0
  served := []

def superServer (n : Int32) : Machine World Act where
  init s := ∃ data jobs, data.length = bufferSize ∧ s = .start data jobs
  step := Step n

/-! ## Connections -/

/-- The lobby of a connection is the one that its own first message names, and
one of the entries of `servers`. -/
def Properly (n : Int32) (e : Received × Served) : Prop :=
  match e.2 with
  | .joined lobby direction | .started lobby direction =>
    ∃ b id, e.1 = .bytes b ∧ (frames 0 b).head? = some (serverIdText id) ∧ id.toInt = lobby.val ∧ direction = n + id
  | .faulted => False

/-- The digits of `id` in `num` are followed by no digit, or `id` is 0 and only
zeros follow. -/
def Clean (id : Int32) (num : Scratch 5) : Prop :=
  (∀ x ∈ (num.held.drop 1 ++ num.after).head?, isDigit x = false) ∨
    id = 0 ∧ ∀ c ∈ (num.held.drop 1 ++ num.after).takeWhile isDigit, c = 48

/-- The condition on a connection: no string of an earlier one is pending, its
first message is complete in what arrives and is the id of a lobby, and `num`
does not go on with a digit. -/
def OwnLobby (s : World) : Act → Prop
  | .connect r l =>
    s.wrapper.readBuffer = none ∧
      ∃ b id, r = .bytes b ∧ (frames 0 b).head? = some (serverIdText id) ∧ 0 ≤ id.toInt ∧ id.toInt < maxLobby ∧
        Clean id l.num
  | _ => True

/-- One place is read as it was printed over a clean `num`. -/
theorem number_clean {id : Int32} (h0 : 0 ≤ id.toInt) (hlt : id.toInt < maxLobby) {num : Scratch 5} (hc : Clean id num) :
    Int32.ofInt (strtol (num.over (decimal id.toInt))) = id := by
  have hmax : ((maxLobby : Nat) : Int) = 10 := rfl
  obtain ⟨k, hk⟩ : ∃ k : Nat, id.toInt = (k : Int) := ⟨id.toInt.toNat, by omega⟩
  have hlen : (decimal id.toInt).length = 1 := by
    have hle : (decimal id.toInt).length ≤ 1 := by
      rw [hk]
      exact (length_decimal_le (by decide)).2 (by omega)
    have hpos := length_decimal_pos id.toInt
    omega
  have hzero : id = 0 ↔ id.toInt = 0 := Int32.toInt_inj.symm
  have hread : atoi (num.over (decimal id.toInt)) = id.toInt := by
    rw [Scratch.over, hlen, List.append_assoc, atoi_decimal_append_iff, ← hzero]
    exact hc
  rw [strtol_of_bounds (by omega), hread, Int32.ofInt_toInt]

/-- A connection that meets the condition is served by its own message. -/
theorem serve_own {n : Int32} {s : World} {b : Bytes} {id : Int32} {l : Locals} (hbuf : s.buffer.data.length = bufferSize)
    (hnone : s.wrapper.readBuffer = none) (hb : b.length ≤ bufferSize)
    (hf : (frames 0 b).head? = some (serverIdText id)) (h0 : 0 ≤ id.toInt) (hlt : id.toInt < maxLobby)
    (hc : Clean id l.num) :
    (serve n (.bytes b) l s).buffer.data.length = bufferSize ∧
      ∃ e, (serve n (.bytes b) l s).served = s.served ++ [e] ∧ Properly n e := by
  have hmax : ((maxLobby : Nat) : Int) = 10 := rfl
  obtain ⟨m, ms, hms⟩ : ∃ m ms, frames 0 b = m :: ms := List.exists_cons_of_ne_nil (by rintro h; rw [h] at hf; cases hf)
  rw [hms] at hf
  obtain rfl := Option.some.inj hf
  obtain ⟨data, w', hread, hcstr, -⟩ := readData_receive (.inl ⟨rfl, hnone⟩) s.buffer (by rw [hbuf]; exact hb) hms
  have hlen := readData_length (fun c hc => by cases hc; rw [hbuf]; exact hb) hread
  have hid : unmarshServerId (serverIdText id ++ [0]) l = some (some id) := by
    have hdec : (decimal id.toInt).length ≤ 5 := by
      have := (length_decimal_le (n := id.toInt.toNat) (k := 5) (by decide)).2 (by omega)
      rwa [Int.toNat_of_nonneg h0] at this
    exact (unmarshServerId_eq_some (decimal_nul _) l _).2 ⟨hdec, by rw [number_clean h0 hlt hc]⟩
  have hown : ∀ out : Lobby → Int32 → Served, (out = .joined ∨ out = .started) →
      Properly n (.bytes b, out ⟨id.toInt.toNat, by omega⟩ (n + id)) := by
    rintro out (rfl | rfl) <;> exact ⟨b, id, rfl, by rw [hms]; rfl, (Int.toNat_of_nonneg h0).symm, rfl⟩
  simp only [serve, hread, hcstr, hid, Option.getD_some, dif_pos (And.intro h0 hlt)]
  split
  · exact ⟨hlen.trans hbuf, _, rfl, hown _ (.inl rfl)⟩
  · exact ⟨hlen.trans hbuf, _, rfl, hown _ (.inr rfl)⟩

/-- While every connection begins with the id of a lobby, in one piece, and
nothing of earlier connections is in its way, each connection is served by its
own message. -/
theorem served_properly {n : Int32} {s : World} (h : (superServer n).ReachesBy OwnLobby s) :
    ∀ e ∈ s.served, Properly n e := by
  have hinv : s.buffer.data.length = bufferSize ∧ ∀ e ∈ s.served, Properly n e := by
    refine h.inv (I := fun s => s.buffer.data.length = bufferSize ∧ ∀ e ∈ s.served, Properly n e) ?_ ?_
    · rintro s ⟨data, jobs, hdata, rfl⟩
      exact ⟨hdata, fun e he => by cases he⟩
    · rintro s a s' ⟨hbuf, hall⟩ hok hs
      cases hs with
      | connect r l hidle harr =>
        obtain ⟨hnone, b, id, rfl, hf, h0, hlt, hc⟩ := hok
        obtain ⟨hbuf', e, hserved, he⟩ := serve_own (n := n) hbuf hnone harr hf h0 hlt hc
        refine ⟨hbuf', fun e' he' => ?_⟩
        rw [hserved] at he'
        rcases List.mem_append.1 he' with he' | he'
        · exact hall e' he'
        · rw [List.mem_singleton.1 he']
          exact he
      | fork | store | watch | exit | read | reap | reapAny | noChild | clear | done => exact ⟨hbuf, hall⟩
  exact hinv.2

/-- A super server before its first connection. -/
def fresh : World := .start (List.replicate bufferSize 0) fun _ => ⟨0, 0, .ended⟩

theorem fresh_init (n : Int32) : (superServer n).init fresh := ⟨_, _, List.length_replicate, rfl⟩

theorem fork_last (s : World) (lobby : Lobby) (child : Int) :
    (s.fork lobby child).jobs s.count = ⟨lobby, child, .forked⟩ := Function.update_self ..

/-- `fork`, the entry of `servers`, and the thread, with no other step between
them. -/
def World.handOver (s : World) (lobby : Lobby) (child : Int) : World :=
  { s with
    child := child
    main := .idle
    servers := Function.update s.servers lobby child
    running := child :: s.running
    jobs := Function.update s.jobs s.count ⟨lobby, child, .created⟩
    count := s.count + 1 }

theorem reaches_handOver {n : Int32} {ok : World → Act → Prop} {s : World}
    (h : (superServer n).ReachesBy ok s) (lobby : Lobby) (child : Int) (hmain : s.main = .forking lobby)
    (hpos : 0 < child) (hfresh : ¬s.Alive child) (hfork : ok s (.fork child)) (hstore : ∀ t, ok t .store)
    (hwatch : ∀ t, ok t .watch) :
    (superServer n).ReachesBy ok (s.handOver lobby child) := by
  have hat := fork_last s lobby child
  have hforked : (superServer n).ReachesBy ok (s.fork lobby child) := h.step hfork (.fork child hmain (.inr ⟨hpos, hfresh⟩))
  have hstored := hforked.step (hstore _) (.store (k := s.count) rfl rfl (by rw [hat]))
  have hwatched := hstored.step (hwatch _) (.watch (k := s.count) rfl rfl (by simp [World.setStage, hat]))
  have hone : ¬child = -1 := by omega
  convert hwatched using 1
  simp [World.handOver, World.setStage, World.fork, hone]

/-- A connection while the main loop waits for one. -/
theorem reaches_serve {n : Int32} {ok : World → Act → Prop} {s : World} (h : (superServer n).ReachesBy ok s)
    (hidle : s.main = .idle) (b : Bytes) (hb : b.length ≤ bufferSize) (hok : ok s (.connect (.bytes b) cleared)) :
    (superServer n).ReachesBy ok (serve n (.bytes b) cleared s) :=
  h.step hok (.connect (.bytes b) cleared hidle hb)

/-- The first connection starts the lobby that is decoded from it, or lobby 0. -/
theorem serve_fresh {n id : Int32} {b m : Bytes} {o : Option Int32} (hb : b.length ≤ bufferSize) (hf : frames 0 b = [m])
    (ho : unmarshServerId (m ++ [0]) cleared = some o) (hid : o.getD 0 = id)
    (h : 0 ≤ id.toInt ∧ id.toInt < maxLobby) :
    (serve n (.bytes b) cleared fresh).served = [(.bytes b, .started ⟨id.toInt.toNat, by omega⟩ (n + id))] := by
  have hp : Pending fresh.wrapper [] := .inl ⟨rfl, rfl⟩
  have hbuf : fresh.buffer.data.length = bufferSize := List.length_replicate
  obtain ⟨data, w', hread, hcstr, -⟩ := readData_receive hp fresh.buffer (by rw [hbuf]; exact hb) hf
  subst hid
  simp only [serve, hread, hcstr, ho, show fresh.joinServer = 0 from rfl, dif_pos h]
  rfl

/-- The id of lobby 3, when nothing is pending. -/
theorem ownLobby_three {s : World} (h : s.wrapper.readBuffer = none) :
    OwnLobby s (.connect (.bytes [56, 51, 0]) cleared) := by
  have hf : frames (0 : UInt8) [56, 51, 0] = [[56, 51]] := (frames_eq [[56, 51]] [] rfl (by decide) (by simp)).1
  exact ⟨h, [56, 51, 0], 3, rfl, by rw [hf]; rfl, by decide, by decide, .inl fun x hx => by cases hx; rfl⟩

/-- A connection has started lobby 3, and a second one has joined it. -/
def joinedThree : World :=
  serve 4000 (.bytes [56, 51, 0]) cleared ((serve 4000 (.bytes [56, 51, 0]) cleared fresh).handOver 3 101)

theorem reaches_joinedThree {ok : World → Act → Prop}
    (hconnect : ∀ s : World, s.wrapper.readBuffer = none → ok s (.connect (.bytes [56, 51, 0]) cleared))
    (hfork : ∀ s, ok s (.fork 101)) (hstore : ∀ s, ok s .store) (hwatch : ∀ s, ok s .watch) :
    (superServer 4000).ReachesBy ok joinedThree := by
  have hfirst : (superServer 4000).ReachesBy ok (serve 4000 (.bytes [56, 51, 0]) cleared fresh) :=
    reaches_serve (.init (fresh_init 4000)) rfl [56, 51, 0] (by decide) (hconnect _ rfl)
  have hhanded := reaches_handOver hfirst 3 101 (by decide +kernel) (by decide) (by decide +kernel) (hfork _) hstore hwatch
  exact reaches_serve hhanded rfl [56, 51, 0] (by decide) (hconnect _ (by decide +kernel))

theorem served_joinedThree : joinedThree.served.map Prod.snd = [.started 3 4003, .joined 3 4003] := by decide +kernel

theorem served_properly_three : ∃ s, (superServer 4000).ReachesBy OwnLobby s ∧
    s.served.map Prod.snd = [.started 3 4003, .joined 3 4003] ∧ ∀ e ∈ s.served, Properly 4000 e := by
  have h : (superServer 4000).ReachesBy OwnLobby joinedThree :=
    reaches_joinedThree (fun _ => ownLobby_three) (fun _ => trivial) (fun _ => trivial) fun _ => trivial
  exact ⟨_, h, served_joinedThree, served_properly h⟩

/-- A connection whose first message is a string starts lobby 0. -/
theorem string_starts : ¬∀ s : World, (superServer 0).Reaches s → ∀ e ∈ s.served, Properly 0 e := by
  intro h
  have hf : frames (0 : UInt8) [51, 48, 35, 0] = [[51, 48, 35]] := (frames_eq [[51, 48, 35]] [] rfl (by decide) (by simp)).1
  have hserved : (serve 0 (.bytes [51, 48, 35, 0]) cleared fresh).served = [(.bytes [51, 48, 35, 0], .started 0 0)] :=
    serve_fresh (o := none) (by decide) hf rfl rfl (by decide)
  have hstep : Step 0 fresh (.connect (.bytes [51, 48, 35, 0]) cleared) _ := .connect _ _ rfl (show 4 ≤ 1024 by decide)
  have hentry := h _ (.step (.init (fresh_init 0)) trivial hstep) (.bytes [51, 48, 35, 0], .started 0 0)
    (by rw [hserved]; exact List.mem_cons_self)
  obtain ⟨b, id, hb, hhead, -⟩ := hentry
  cases hb
  rw [hf] at hhead
  exact absurd (List.cons.inj (Option.some.inj hhead)).1 (by decide)

end Snuffin.SuperServer
