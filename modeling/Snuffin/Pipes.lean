import Snuffin.ComFIFO
import Snuffin.Lib.Channels
/-!
# What goes over the FIFOs (comFIFO.c)

A connection is two FIFOs that are named after the client's pid, and each end
writes to `fd2` and reads from `fd`. While the requests are answered each by
its own call, and no two clients have the same pid, each end reads what the
other end of its own connection wrote.
-/
open Lib

namespace Snuffin.ComFIFO

/-! ## The code -/

inductive Direction where
  | toServer
  | toClient
  deriving DecidableEq

/-- The FIFOs of the clients, and what went over the connections. The `k`-th
connection is the one of the `k`-th request, and of the `k`-th call of
`acceptConnection`. -/
structure Traffic where
  world : World
  pipes : Channels (Nat × Direction) Bytes UInt8

inductive TrafficAct where
  | world (a : Act)
  | clientSends (k : Nat) (data : Bytes)
  | serverReceives (k : Nat)
  | serverSends (k : Nat) (data : Bytes)
  | clientReceives (k : Nat)

/-- `sendData`: `write(c->fd2, ...)`. -/
def sendData (i : Nat × Direction) (c : Connection) (data : Bytes) (s : Traffic) : Option Traffic :=
  c.fd2.map fun path => { s with pipes := s.pipes.write i path data }

/-- `receiveData` on a connection: `read(c->fd, ...)`, which waits while the
FIFO is empty. -/
def receive (i : Nat × Direction) (c : Connection) (s : Traffic) : Option Traffic :=
  c.fd.bind fun path =>
    if s.pipes.queue path = [] then none else some { s with pipes := s.pipes.read i path BUFFER_SIZE }

def trafficStep (s : Traffic) : TrafficAct → Option Traffic
  | .world a => (step s.world a).map fun world => { s with world }
  | .clientSends k data => s.world.connected[k]?.bind fun c => sendData (k, .toServer) c data s
  | .serverReceives k => s.world.accepted[k]?.bind fun c => receive (k, .toServer) c s
  | .serverSends k data => s.world.accepted[k]?.bind fun c => sendData (k, .toClient) c data s
  | .clientReceives k => s.world.connected[k]?.bind fun c => receive (k, .toClient) c s

abbrev traffic : Machine Traffic TrafficAct := .ofFun ⟨.start, .empty⟩ trafficStep

/-- A client has a pid of its own, and each read of the server's FIFO finds one
request. -/
def Orderly (s : Traffic) : TrafficAct → Prop
  | .world (.connect pid) => pid ∉ s.world.written
  | .world a => OneRequest s.world a
  | _ => True

instance (s : Traffic) : ∀ a, Decidable (Orderly s a)
  | .world (.connect pid) => inferInstanceAs (Decidable (pid ∉ s.world.written))
  | .world (.accept fresh) => inferInstanceAs (Decidable (_ ∧ ∀ x ∈ fresh.val[s.world.pending.length]?, isDigit x = false))
  | .clientSends .. | .serverReceives _ | .serverSends .. | .clientReceives _ => .isTrue trivial

/-! ## The names of the FIFOs -/

/-- The FIFO of the client's end of a connection. -/
def port (w : World) (i : Nat × Direction) : Option Bytes :=
  w.connected[i.1]?.bind fun c => if i.2 = .toServer then c.fd2 else c.fd

/-- The FIFO of a client, by the direction. -/
def fifoOf (pid : Pid) : Direction → Bytes
  | .toServer => auxw pid.val
  | .toClient => auxr pid.val

theorem port_eq {w : World} (h : FifoInv w) (i : Nat × Direction) : port w i = w.written[i.1]?.map fun pid => fifoOf pid i.2 := by
  obtain ⟨k, dir⟩ := i
  rw [port, h.connected, List.getElem?_map]
  cases w.written[k]? with
  | none => rfl
  | some pid => cases dir <;> rfl

theorem getLast?_fifoOf (pid : Pid) (dir : Direction) :
    (fifoOf pid dir).getLast? = some (if dir = .toServer then 119 else 114) := by
  cases dir with
  | toServer => exact List.getLast?_concat
  | toClient => exact List.getLast?_concat

theorem fifoOf_inj {p q : Pid} {dir dir' : Direction} (h : fifoOf p dir = fifoOf q dir') : p = q ∧ dir = dir' := by
  have hlast := congrArg List.getLast? h
  rw [getLast?_fifoOf, getLast?_fifoOf, Option.some.injEq] at hlast
  have hdir : dir = dir' := by
    cases dir with
    | toServer =>
      cases dir' with
      | toServer => rfl
      | toClient => cases hlast
    | toClient =>
      cases dir' with
      | toServer => cases hlast
      | toClient => rfl
  subst hdir
  have hdec : decimal p.val = decimal q.val := by
    cases dir with
    | toServer => exact List.append_cancel_left (List.append_cancel_right h)
    | toClient => exact List.append_cancel_left (List.append_cancel_right h)
  exact ⟨Subtype.ext (Int.ofNat_inj.1 (decimal_injective hdec)), rfl⟩

/-! ## Steps -/

structure TrafficInv (s : Traffic) : Prop where
  fifo : FifoInv s.world
  answered : Answered s.world
  apart : s.world.written.Nodup
  pipes : s.pipes.Conserved (port s.world)

theorem trafficInv_start : TrafficInv ⟨.start, .empty⟩ where
  fifo := ⟨rfl, fun _ hp => by cases hp⟩
  answered := ⟨rfl, rfl⟩
  apart := List.nodup_nil
  pipes := Channels.conserved_empty fun _ => rfl

/-- Clients with pids of their own have FIFOs of their own. -/
theorem port_apart {w : World} (h : FifoInv w) (hnodup : w.written.Nodup) {i j : Nat × Direction} {path : Bytes}
    (hi : port w i = some path) (hj : port w j = some path) : i = j := by
  rw [port_eq h] at hi hj
  obtain ⟨p, hp, rfl⟩ := Option.map_eq_some_iff.1 hi
  obtain ⟨q, hq, heq⟩ := Option.map_eq_some_iff.1 hj
  obtain ⟨rfl, hdir⟩ := fifoOf_inj heq
  obtain ⟨hlt, -⟩ := List.getElem?_eq_some_iff.1 hp
  exact Prod.ext ((List.getElem?_inj hlt hnodup).1 (hp.trans hq.symm)) hdir.symm

theorem trafficInv_connect {s : Traffic} (h : TrafficInv s) {pid : Pid} (hnew : pid ∉ s.world.written) :
    TrafficInv { s with world := connectToPeer pid s.world } := by
  have hfifo := fifoInv_connect h.fifo pid
  have hnodup : (s.world.written ++ [pid]).Nodup := by
    rw [List.nodup_append]
    exact ⟨h.apart, List.nodup_singleton pid, fun a ha b hb => by rintro rfl; exact hnew (List.mem_singleton.1 hb ▸ ha)⟩
  refine ⟨hfifo, answered_connect h.answered h.fifo pid, hnodup, ?_⟩
  apply h.pipes.extend
  · intro i j path hi hj
    exact port_apart hfifo hnodup hi hj
  · intro i path hi
    rw [port_eq h.fifo] at hi
    rw [port_eq hfifo]
    obtain ⟨p, hp, hpath⟩ := Option.map_eq_some_iff.1 hi
    obtain ⟨hlt, -⟩ := List.getElem?_eq_some_iff.1 hp
    exact Option.map_eq_some_iff.2 ⟨p, (List.getElem?_append_left hlt).trans hp, hpath⟩
  · intro i path hi hi' j hj
    rw [port_eq h.fifo] at hi hj
    rw [port_eq hfifo] at hi'
    obtain ⟨p, hp, rfl⟩ := Option.map_eq_some_iff.1 hi'
    obtain ⟨q, hq, heq⟩ := Option.map_eq_some_iff.1 hj
    obtain ⟨rfl, -⟩ := fifoOf_inj heq
    -- The new connection is that of the new pid, which no other has.
    rcases List.mem_append.1 (List.mem_of_getElem? hp) with hold | hlast
    · obtain ⟨k, hk⟩ := List.getElem?_of_mem hold
      obtain ⟨hlt, -⟩ := List.getElem?_eq_some_iff.1 hk
      have hsame : i.1 = k := (List.getElem?_inj (List.getElem?_eq_some_iff.1 hp).1 hnodup).1
        (hp.trans ((List.getElem?_append_left hlt).trans hk).symm)
      rw [hsame, hk] at hi
      cases hi
    · rw [List.mem_singleton.1 hlast] at hq
      exact hnew (List.mem_of_getElem? hq)

/-- The server's end of a connection is the other end of the client's. -/
theorem Answered.peer {w : World} (h : Answered w) {k : Nat} {c : Connection} (hc : w.accepted[k]? = some c) :
    ∃ c', w.connected[k]? = some c' ∧ c = c'.peer := by
  rw [h.accepted, List.getElem?_map] at hc
  obtain ⟨c', hc', rfl⟩ := Option.map_eq_some_iff.1 hc
  rw [List.getElem?_take] at hc'
  obtain ⟨-, hc'⟩ := Option.ite_none_right_eq_some.1 hc'
  exact ⟨c', hc', rfl⟩

theorem trafficInv_send {s s' : Traffic} (h : TrafficInv s) {i : Nat × Direction} {c : Connection} {data : Bytes}
    (hport : ∀ path, c.fd2 = some path → port s.world i = some path) (hs : sendData i c data s = some s') :
    TrafficInv s' := by
  obtain ⟨path, hpath, rfl⟩ := Option.map_eq_some_iff.1 hs
  exact ⟨h.fifo, h.answered, h.apart, h.pipes.write (hport path hpath) data⟩

theorem trafficInv_receive {s s' : Traffic} (h : TrafficInv s) {i : Nat × Direction} {c : Connection}
    (hport : ∀ path, c.fd = some path → port s.world i = some path) (hs : receive i c s = some s') : TrafficInv s' := by
  obtain ⟨path, hpath, hs⟩ := Option.bind_eq_some_iff.1 hs
  obtain ⟨-, hs⟩ := Option.ite_none_left_eq_some.1 hs
  obtain rfl := Option.some.inj hs
  exact ⟨h.fifo, h.answered, h.apart, h.pipes.read (hport path hpath) BUFFER_SIZE⟩

theorem trafficInv_step {s s' : Traffic} {a : TrafficAct} (h : TrafficInv s) (hok : Orderly s a)
    (hs : trafficStep s a = some s') : TrafficInv s' := by
  -- A client's end writes to its `fd2`, and the server's end to the client's `fd`.
  have hclient : ∀ {k c}, s.world.connected[k]? = some c → port s.world (k, .toServer) = c.fd2 ∧
      port s.world (k, .toClient) = c.fd := by
    intro k c hc
    constructor
    · rw [port, hc]
      rfl
    · rw [port, hc]
      rfl
  cases a with
  | world a =>
    obtain ⟨w, hw, rfl⟩ := Option.map_eq_some_iff.1 hs
    cases a with
    | connect pid =>
      obtain rfl := Option.some.inj hw
      exact trafficInv_connect h hok
    | accept fresh =>
      have hanswered := (answered_step h.answered h.fifo hw).2 hok
      have hfifo := fifoInv_step h.fifo hw
      obtain ⟨-, hw⟩ := Option.ite_none_left_eq_some.1 hw
      obtain rfl := Option.some.inj hw
      exact ⟨hfifo, hanswered, h.apart, h.pipes⟩
  | clientSends k data =>
    obtain ⟨c, hc, hs⟩ := Option.bind_eq_some_iff.1 hs
    exact trafficInv_send h (fun path hpath => (hclient hc).1.trans hpath) hs
  | serverReceives k =>
    obtain ⟨c, hc, hs⟩ := Option.bind_eq_some_iff.1 hs
    obtain ⟨c', hc', rfl⟩ := h.answered.peer hc
    exact trafficInv_receive h (fun path hpath => (hclient hc').1.trans hpath) hs
  | serverSends k data =>
    obtain ⟨c, hc, hs⟩ := Option.bind_eq_some_iff.1 hs
    obtain ⟨c', hc', rfl⟩ := h.answered.peer hc
    exact trafficInv_send h (fun path hpath => (hclient hc').2.trans hpath) hs
  | clientReceives k =>
    obtain ⟨c, hc, hs⟩ := Option.bind_eq_some_iff.1 hs
    exact trafficInv_receive h (fun path hpath => (hclient hc).2.trans hpath) hs

/-! ## Runs -/

/-- While the requests are answered each by its own call, what the server has
read on a connection and what is still in the FIFO is what the client of that
connection wrote, and the other way round, for every connection at once. -/
theorem reads_what_was_written {s : Traffic} (h : traffic.ReachesBy Orderly s) {k : Nat} {c : Connection}
    (hc : s.world.connected[k]? = some c) :
    ∃ up down, c = ⟨some down, some up⟩ ∧
      s.pipes.put (k, .toServer) = s.pipes.taken (k, .toServer) ++ s.pipes.queue up ∧
      s.pipes.put (k, .toClient) = s.pipes.taken (k, .toClient) ++ s.pipes.queue down := by
  have hi : TrafficInv s := by
    apply h.inv (I := TrafficInv)
    · intro s hs
      rw [hs]
      exact trafficInv_start
    · intro _ _ _ hi hok hs
      exact trafficInv_step hi hok hs
  have hopen := hc
  rw [hi.fifo.connected, List.getElem?_map] at hopen
  obtain ⟨pid, -, rfl⟩ := Option.map_eq_some_iff.1 hopen
  refine ⟨_, _, rfl, ?_, ?_⟩
  · apply hi.pipes.flow
    rw [port, hc]
    rfl
  · apply hi.pipes.flow
    rw [port, hc]
    rfl

set_option maxRecDepth 8000 in
/-- Two clients, and messages both ways. -/
theorem reads_what_was_written_two : ∃ s : Traffic, traffic.ReachesBy Orderly s ∧
    s.pipes.taken (0, .toServer) = [48, 97, 0] ∧ s.pipes.taken (1, .toClient) = [53, 49, 0] ∧
    ∃ c up down, s.world.connected[1]? = some c ∧ c = ⟨some down, some up⟩ ∧
      s.pipes.put (1, .toClient) = s.pipes.taken (1, .toClient) ++ s.pipes.queue down := by
  obtain ⟨s, hs, h₀, h₁, c, hc⟩ : ∃ s : Traffic, traffic.ReachesBy Orderly s ∧
      s.pipes.taken (0, .toServer) = [48, 97, 0] ∧ s.pipes.taken (1, .toClient) = [53, 49, 0] ∧
        ∃ c, s.world.connected[1]? = some c :=
    ⟨_, Machine.reachesBy_of_runActs
      (l := [.world (.connect ana), .world (.accept clean), .world (.connect eva), .clientSends 0 [48, 97, 0],
        .world (.accept clean), .clientSends 1 [48, 98, 0], .serverReceives 0, .serverSends 1 [53, 49, 0],
        .clientReceives 1]) (.init rfl) rfl, rfl, rfl, _, rfl⟩
  obtain ⟨up, down, hfd, -, hdown⟩ := reads_what_was_written hs hc
  exact ⟨s, hs, h₀, h₁, c, up, down, hc, hfd, hdown⟩

end Snuffin.ComFIFO
