import Snuffin.Database
import Snuffin.Lib.Machine
/-!
# Connections over FIFOs (comFIFO.c)

A client writes `@` and its pid into the server's FIFO, and `acceptConnection`
reads what is there into a fresh buffer and takes the pid from its beginning.
Nothing marks the end of a request. It is answered by its own call exactly
when it is alone in the FIFO at the read, and the byte behind it in the buffer
is not a digit.
-/
open Lib

namespace Snuffin.ComFIFO
open Snuffin.Db (bytes)

/-! ## The code -/

def BUFFER_SIZE : Nat := 1024

/-- What `getpid` gives. -/
abbrev Pid := { n : Nat // 0 < n ∧ n < 2 ^ 31 }

/-- What `malloc(BUFFER_SIZE)` gives. -/
abbrev Buffer := { l : Bytes // l.length = BUFFER_SIZE }

/-- `auxr`, the FIFO a client reads from. -/
def auxr (id : Int) : Bytes := bytes "/tmp/client" ++ decimal id ++ bytes "r"

/-- `auxw`, the FIFO a client writes to. -/
def auxw (id : Int) : Bytes := bytes "/tmp/client" ++ decimal id ++ bytes "w"

/-- The FIFO a descriptor is open on; `none` is the descriptor -1. -/
structure Connection where
  fd : Option Bytes
  fd2 : Option Bytes
  deriving DecidableEq

structure World where
  /-- The FIFOs of clients. -/
  fifos : List Bytes
  /-- What the server has not read yet. -/
  pending : Bytes
  /-- The clients that have written a request, in order. -/
  written : List Pid
  /-- The connections that were returned to clients, in the same order. -/
  connected : List Connection
  /-- What `acceptConnection` returned, in order. -/
  accepted : List Connection

def openFifo (fifos : List Bytes) (path : Bytes) : Option Bytes := if path ∈ fifos then some path else none

def request (pid : Pid) : Bytes := 64 :: decimal pid.val

/-- The client makes its two FIFOs if they are not there, opens them and
writes its request. -/
def connectToPeer (pid : Pid) (s : World) : World :=
  let fifos := (s.fifos.insert (auxr pid.val)).insert (auxw pid.val)
  { s with
    fifos
    pending := s.pending ++ request pid
    written := s.written ++ [pid]
    connected := s.connected ++ [⟨openFifo fifos (auxr pid.val), openFifo fifos (auxw pid.val)⟩] }

/-- The buffer after a read into it. -/
def receiveData (pending : Bytes) (fresh : Buffer) : Bytes :=
  pending.take BUFFER_SIZE ++ fresh.val.drop (min pending.length BUFFER_SIZE)

/-- The pid that is read. A number that is no int, and one whose digits go on
behind the buffer, are undefined in C; here they are kept, and are no pid. -/
def requestId (data : Bytes) : Int := if data.head? = some 64 then atoi data.tail else 0

/-- `none` while there is nothing to read. -/
def acceptConnection (fresh : Buffer) (s : World) : Option World :=
  if s.pending = [] then none
  else
    let id := requestId (receiveData s.pending fresh)
    some { s with
      pending := s.pending.drop BUFFER_SIZE
      accepted := s.accepted ++ [⟨openFifo s.fifos (auxw id), openFifo s.fifos (auxr id)⟩] }

inductive Act where
  | connect (pid : Pid)
  /-- `fresh` is what the new buffer holds. -/
  | accept (fresh : Buffer)

def step (s : World) : Act → Option World
  | .connect pid => some (connectToPeer pid s)
  | .accept fresh => acceptConnection fresh s

def World.start : World := ⟨[], [], [], [], []⟩

abbrev fifo : Machine World Act := Machine.ofFun .start step

/-! ## Requests and connections -/

/-- The other end of a connection. -/
def Connection.peer (c : Connection) : Connection := ⟨c.fd2, c.fd⟩

/-- The requests are answered in order, each by one call, with the other end
of the client's own connection; those that are not answered yet are in the
FIFO. -/
structure Answered (s : World) : Prop where
  accepted : s.accepted = (s.connected.take s.accepted.length).map Connection.peer
  pending : s.pending = (s.written.drop s.accepted.length).flatMap request

/-- The read finds one request only, and the byte behind it in the fresh
buffer is not a digit. -/
def OneRequest (s : World) : Act → Prop
  | .connect _ => True
  | .accept fresh => s.pending.count 64 = 1 ∧ ∀ x ∈ fresh.val[s.pending.length]?, isDigit x = false

theorem length_request_le (pid : Pid) : (request pid).length ≤ 11 := by
  have hl := length_text_le (k := 10) (n := pid.val) (by have := pid.property.2; omega)
  rw [request, decimal_natCast pid.property.1, List.length_cons]
  omega

theorem count_request (pid : Pid) : (request pid).count 64 = 1 := by
  have hn : (64 : UInt8) ∉ decimal pid.val := fun h => by
    rcases mem_decimal h with h | h <;> exact absurd h (by decide)
  rw [request, List.count_cons_self, List.count_eq_zero.2 hn]

theorem count_requests (l : List Pid) : (l.flatMap request).count 64 = l.length := by
  induction l with
  | nil => rfl
  | cons pid l ih =>
    rw [List.flatMap_cons, List.count_append, count_request, ih, List.length_cons]
    omega

theorem requests_eq_nil {l : List Pid} (h : l.flatMap request = []) : l = [] := by
  have hc := count_requests l
  rw [h, List.count_nil] at hc
  exact List.length_eq_zero_iff.1 hc.symm

/-- The pid in a request that is alone in the buffer. -/
theorem requestId_iff (pid : Pid) (fresh : Buffer) :
    requestId (receiveData (request pid) fresh) = pid.val ↔
      ∀ x ∈ fresh.val[(request pid).length]?, isDigit x = false := by
  have hl := length_request_le pid
  have hb : BUFFER_SIZE = 1024 := rfl
  have hdata : receiveData (request pid) fresh = 64 :: (decimal pid.val ++ fresh.val.drop (request pid).length) := by
    rw [receiveData, List.take_of_length_le (by omega), Nat.min_eq_left (by omega)]
    rfl
  rw [hdata, requestId, List.head?_cons, if_pos rfl, List.tail_cons, atoi_decimal_append, if_neg (by omega),
    Int.natAbs_natCast, Nat.cast_inj, digitsValue_text_append_iff pid.property.1, List.head?_drop]

theorem auxw_injective : Function.Injective auxw := by
  intro i j h
  exact decimal_injective (List.append_cancel_left (List.append_cancel_right h))

/-! ## Steps -/

/-- Both ends of a connection are open. -/
structure FifoInv (s : World) : Prop where
  connected : s.connected = s.written.map fun pid => ⟨some (auxr pid.val), some (auxw pid.val)⟩
  made : ∀ pid ∈ s.written, auxr pid.val ∈ s.fifos ∧ auxw pid.val ∈ s.fifos

theorem openFifo_mem {fifos : List Bytes} {path : Bytes} (h : path ∈ fifos) : openFifo fifos path = some path := if_pos h

theorem fifoInv_connect {s : World} (h : FifoInv s) (pid : Pid) : FifoInv (connectToPeer pid s) := by
  have hr : auxr pid.val ∈ (connectToPeer pid s).fifos := List.mem_insert_of_mem List.mem_insert_self
  have hw : auxw pid.val ∈ (connectToPeer pid s).fifos := List.mem_insert_self
  constructor
  · have hnew : (connectToPeer pid s).connected =
        s.connected ++ [⟨openFifo (connectToPeer pid s).fifos (auxr pid.val), openFifo (connectToPeer pid s).fifos (auxw pid.val)⟩] :=
      rfl
    have hwritten : (connectToPeer pid s).written = s.written ++ [pid] := rfl
    rw [hnew, hwritten, openFifo_mem hr, openFifo_mem hw, h.connected, List.map_append]
    rfl
  · intro p hp
    rcases List.mem_append.1 hp with hp | hp
    · obtain ⟨h1, h2⟩ := h.made p hp
      exact ⟨List.mem_insert_of_mem (List.mem_insert_of_mem h1), List.mem_insert_of_mem (List.mem_insert_of_mem h2)⟩
    · rw [List.mem_singleton.1 hp]
      exact ⟨hr, hw⟩

theorem fifoInv_step {s s' : World} {a : Act} (h : FifoInv s) (hs : step s a = some s') : FifoInv s' := by
  cases a with
  | connect pid =>
    obtain rfl := Option.some.inj hs
    exact fifoInv_connect h pid
  | accept fresh =>
    obtain ⟨-, hs⟩ := Option.ite_none_left_eq_some.1 hs
    obtain rfl := Option.some.inj hs
    exact ⟨h.connected, h.made⟩

theorem Answered.le {s : World} (h : Answered s) : s.accepted.length ≤ s.connected.length := by
  have hl := congrArg List.length h.accepted
  rw [List.length_map, List.length_take] at hl
  omega

/-- A new request waits behind the others. -/
theorem answered_connect {s : World} (h : Answered s) (hi : FifoInv s) (pid : Pid) : Answered (connectToPeer pid s) := by
  have hle := h.le
  have hle' : s.accepted.length ≤ s.written.length := by
    rw [hi.connected, List.length_map] at hle
    exact hle
  constructor
  · show s.accepted = ((s.connected ++ _).take s.accepted.length).map Connection.peer
    rw [List.take_append_of_le_length hle]
    exact h.accepted
  · show s.pending ++ request pid = ((s.written ++ [pid]).drop s.accepted.length).flatMap request
    rw [List.drop_append_of_le_length hle', List.flatMap_append, ← h.pending, List.flatMap_singleton]

/-- A read leaves all requests but the first in the FIFO only when there are no
others: it takes more than one request is long. -/
theorem drop_requests {pid : Pid} {rest : List Pid} :
    (request pid ++ rest.flatMap request).drop BUFFER_SIZE = rest.flatMap request ↔ rest = [] := by
  have hl := length_request_le pid
  have hb : BUFFER_SIZE = 1024 := rfl
  have hpos : 0 < (request pid).length := Nat.succ_pos _
  constructor
  · intro h
    have hlen := congrArg List.length h
    rw [List.length_drop, List.length_append] at hlen
    exact requests_eq_nil (List.length_eq_zero_iff.1 (by omega))
  · rintro rfl
    rw [List.flatMap_nil, List.append_nil]
    exact List.drop_eq_nil_of_le (by omega)

/-- The connection that is made from a pid. -/
theorem accepted_iff {s : World} (hi : FifoInv s) {pid : Pid} (hmem : pid ∈ s.written) (id : Int) :
    Connection.mk (openFifo s.fifos (auxw id)) (openFifo s.fifos (auxr id)) =
      ⟨some (auxw pid.val), some (auxr pid.val)⟩ ↔ id = pid.val := by
  constructor
  · intro h
    have hw : openFifo s.fifos (auxw id) = some (auxw pid.val) := congrArg Connection.fd h
    exact auxw_injective (Option.some.inj (Option.ite_none_right_eq_some.1 hw).2)
  · rintro rfl
    obtain ⟨hr, hw⟩ := hi.made pid hmem
    rw [openFifo_mem hr, openFifo_mem hw]

/-- A call answers the first request, and leaves the others in the FIFO,
exactly when there are no others and its pid is read right. -/
theorem answered_accept {s s' : World} {fresh : Buffer} (h : Answered s) (hi : FifoInv s)
    (hs : acceptConnection fresh s = some s') : Answered s' ↔ OneRequest s (.accept fresh) := by
  obtain ⟨hne, hs⟩ := Option.ite_none_left_eq_some.1 hs
  obtain rfl := Option.some.inj hs
  obtain ⟨pid, rest, hdrop⟩ : ∃ pid rest, s.written.drop s.accepted.length = pid :: rest := by
    cases hd : s.written.drop s.accepted.length with
    | nil =>
      rw [h.pending, hd] at hne
      exact absurd rfl hne
    | cons pid rest => exact ⟨pid, rest, rfl⟩
  have hpending : s.pending = request pid ++ rest.flatMap request := by rw [h.pending, hdrop, List.flatMap_cons]
  have hmem : pid ∈ s.written := List.mem_of_mem_drop (by rw [hdrop]; exact List.mem_cons_self)
  have hrest : s.written.drop (s.accepted.length + 1) = rest := by rw [← List.drop_drop, hdrop]; rfl
  have hown : s.connected[s.accepted.length]? = some ⟨some (auxr pid.val), some (auxw pid.val)⟩ := by
    have hget : s.written[s.accepted.length]? = some pid := by rw [← List.head?_drop, hdrop]; rfl
    rw [hi.connected, List.getElem?_map, hget]
    rfl
  have hnext : (s.connected.take (s.accepted.length + 1)).map Connection.peer =
      s.accepted ++ [⟨some (auxw pid.val), some (auxr pid.val)⟩] := by
    rw [List.take_add_one, hown, List.map_append, ← h.accepted]
    rfl
  have hone : s.pending.count 64 = 1 ↔ rest = [] := by
    rw [hpending, List.count_append, count_request, count_requests, ← List.length_eq_zero_iff]
    omega
  constructor
  · intro hA
    have hacc := hA.accepted
    have hpend := hA.pending
    simp only [List.length_append, List.length_singleton] at hacc hpend
    rw [hpending, hrest, drop_requests] at hpend
    rw [hnext, List.append_cancel_left_eq, List.singleton_inj, accepted_iff hi hmem] at hacc
    have halone : s.pending = request pid := by rw [hpending, hpend, List.flatMap_nil, List.append_nil]
    refine ⟨hone.2 hpend, ?_⟩
    rw [halone] at hacc ⊢
    exact (requestId_iff pid fresh).1 hacc
  · rintro ⟨hcount, hdigit⟩
    have hnil := hone.1 hcount
    have halone : s.pending = request pid := by rw [hpending, hnil, List.flatMap_nil, List.append_nil]
    rw [halone] at hdigit
    have hid : requestId (receiveData s.pending fresh) = pid.val := by
      rw [halone]
      exact (requestId_iff pid fresh).2 hdigit
    constructor
    · simp only [List.length_append, List.length_singleton]
      rw [hnext, (accepted_iff hi hmem _).2 hid]
    · simp only [List.length_append, List.length_singleton]
      rw [hpending, hrest, drop_requests]
      exact hnil

theorem answered_step {s s' : World} {a : Act} (h : Answered s) (hi : FifoInv s) (hs : step s a = some s') :
    Answered s' ↔ OneRequest s a := by
  cases a with
  | connect pid =>
    obtain rfl := Option.some.inj hs
    exact iff_of_true (answered_connect h hi pid) trivial
  | accept fresh => exact answered_accept h hi hs

theorem fifoInv {s : World} (h : fifo.Reaches s) : FifoInv s := by
  apply h.inv (I := FifoInv)
  · intro s hs
    rw [hs]
    exact ⟨rfl, fun _ hp => (by cases hp)⟩
  · intro _ _ _ hi _ hs
    exact fifoInv_step hi hs

/-! ## Runs -/

/-- In every run each request is answered by one call of its own in every state
exactly when every read finds one request, with no digit behind it. -/
theorem answered_iff {tr : List (World × Act)} {s : World} (h : fifo.Run .start tr s) :
    ((∀ e ∈ tr, Answered e.1) ∧ Answered s) ↔ ∀ e ∈ tr, OneRequest e.1 e.2 := by
  apply h.all_iff (P := Answered)
  · exact ⟨rfl, rfl⟩
  · intro l t a u hrun ht hs
    exact answered_step ht (fifoInv (hrun.reaches rfl).1) hs

def clean : Buffer := ⟨List.replicate BUFFER_SIZE 0, List.length_replicate⟩

def ana : Pid := ⟨12, by decide⟩

def eva : Pid := ⟨345, by decide⟩

/-- One client after the other. -/
theorem answered_iff_two : ∃ tr s, fifo.Run .start tr s ∧ s.accepted = s.connected.map Connection.peer ∧
    s.written = [ana, eva] ∧ (((∀ e ∈ tr, Answered e.1) ∧ Answered s) ↔ ∀ e ∈ tr, OneRequest e.1 e.2) := by
  obtain ⟨tr, s, hr, hacc, hw⟩ : ∃ tr s, fifo.Run .start tr s ∧ s.accepted = s.connected.map Connection.peer ∧
      s.written = [ana, eva] :=
    ⟨_, _, Machine.run_of_trace (l := [.connect ana, .accept clean, .connect eva, .accept clean]) rfl, rfl, rfl⟩
  exact ⟨tr, s, hr, hacc, hw, answered_iff hr⟩

/-- Two clients have written before the server reads. The call returns a
connection to the first one, and the request of the other is gone. -/
theorem request_lost : ¬∀ s, fifo.Reaches s → Answered s := by
  intro h
  have hr : fifo.Reaches _ :=
    Machine.reachesBy_of_runActs (l := [.connect ana, .connect eva, .accept clean]) (.init rfl) rfl
  have hp := (h _ hr).pending
  cases hp

end Snuffin.ComFIFO
