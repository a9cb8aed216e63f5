import Snuffin.Dispatch
import Snuffin.Pipes
/-!
# What the clients read over their FIFOs

The server marshals structs and writes them to the FIFOs of any of its clients,
and each client reads and unmarshals at its own pace. A read takes what is
there, up to the size of the buffer, and cuts a message in two when more is
there. A client that reads in time gets what the server sent, in order.
-/
open Lib Snuffin.Marshalling
open Snuffin.ComWrapper (Wrapper Pending StreamData cstr bufferSize)

namespace Snuffin.ComFIFO

/-! ## The code -/

/-- The traffic, the `readBuffer` of each client, and what the server has sent
on each connection and the client made of it. -/
structure Talk where
  traffic : Traffic
  wrapper : Nat → Wrapper
  sent : Nat → List Struc
  values : Nat → List (Option Value)

inductive TalkAct where
  | traffic (a : TrafficAct)
  | sends (k : Nat) (x : Struc)
  | reads (k : Nat) (sd : StreamData) (l : Locals)

/-- `sendData(clients[i]->con, marshalling(...))`. -/
def Talk.send (k : Nat) (x : Struc) (s : Talk) : Option Talk :=
  x.marshalling.bind fun sd =>
    (trafficStep s.traffic (.serverSends k (sd.data.take sd.size.toNat))).map fun traffic =>
      { s with
        traffic
        sent := Function.update s.sent k (s.sent k ++ [x]) }

/-- `readData(c, buffer); unmarshalling(buffer, &type)`, after `receiveData` if
it is called. -/
def Talk.take (k : Nat) (r : ComWrapper.Received) (sd : StreamData) (l : Locals) (s : Talk) : Option Talk :=
  (ComWrapper.readData r sd (s.wrapper k)).bind fun (_, sd, w) =>
    (unmarshalling (cstr sd.data ++ [0]) l).map fun v =>
      { s with
        wrapper := Function.update s.wrapper k w
        values := Function.update s.values k (s.values k ++ [v]) }

/-- `receiveData` is called when no string is pending. -/
def Talk.read (k : Nat) (sd : StreamData) (l : Locals) (s : Talk) : Option Talk :=
  match (s.wrapper k).readBuffer with
  | some _ => s.take k .error sd l
  | none =>
    (port s.traffic.world (k, .toClient)).bind fun path =>
      (trafficStep s.traffic (.clientReceives k)).bind fun traffic =>
        { s with traffic }.take k (.bytes ((s.traffic.pipes.queue path).take BUFFER_SIZE)) sd l

def talkStep (s : Talk) : TalkAct → Option Talk
  | .traffic (.serverSends ..) | .traffic (.clientReceives _) => none
  | .traffic a => (trafficStep s.traffic a).map fun traffic => { s with traffic }
  | .sends k x => s.send k x
  | .reads k sd l => s.read k sd l

def Talk.start : Talk := ⟨⟨.start, .empty⟩, fun _ => .start, fun _ => [], fun _ => []⟩

abbrev talk : Machine Talk TalkAct := .ofFun .start talkStep

/-- No client lets more than a buffer's size wait for it; what is sent survives
the encoding, and the arrays of the decoders are zero on entry. -/
def InTime (s : Talk) : TalkAct → Prop
  | .traffic a => Orderly s.traffic a
  | .sends _ x => x.Carried
  | .reads k sd l => sd.data.length = bufferSize ∧ l.Zeroed ∧
      ((s.wrapper k).readBuffer = none → ∀ path, port s.traffic.world (k, .toClient) = some path →
        (s.traffic.pipes.queue path).length ≤ BUFFER_SIZE)

/-! ## What has been sent, read and kept -/

/-- What was sent on connection `k`: the client has made values of `read`, keeps
the messages of `pending`, and those of `waiting` are in the FIFO. -/
structure Delivered (s : Talk) (k : Nat) (read pending waiting : List Struc) : Prop where
  sent : s.sent k = read ++ pending ++ waiting
  put : s.traffic.pipes.put (k, .toClient) = wire 0 ((s.sent k).map Struc.body)
  taken : s.traffic.pipes.taken (k, .toClient) = wire 0 ((read ++ pending).map Struc.body)
  values : ∃ vs, s.values k = vs.map some ∧ List.Forall₂ Struc.Same read vs
  carried : ∀ x ∈ s.sent k, x.Carried

/-- The `readBuffer` of the client holds these messages. -/
def Keeps (s : Talk) (k : Nat) (pending : List Struc) : Prop :=
  Pending (s.wrapper k) (pending.map Struc.body) ∧ ∀ x ∈ pending, x.body.length < bufferSize

structure TalkInv (s : Talk) : Prop where
  traffic : TrafficInv s.traffic
  delivered : ∀ k, ∃ read pending waiting, Delivered s k read pending waiting ∧ Keeps s k pending

theorem talkInv_start : TalkInv .start where
  traffic := trafficInv_start
  delivered _ := ⟨[], [], [], ⟨rfl, rfl, rfl, ⟨[], rfl, .nil⟩, fun _ hx => by cases hx⟩, .inl ⟨rfl, rfl⟩, fun _ hx => by cases hx⟩

theorem map_body_append (xs ys : List Struc) : wire 0 ((xs ++ ys).map Struc.body) =
    wire 0 (xs.map Struc.body) ++ wire 0 (ys.map Struc.body) := by
  rw [List.map_append, wire_append]

section Delivered
variable {s : Talk} {k : Nat} {read pending waiting : List Struc}

/-- What waits is in the FIFO. -/
theorem Delivered.queue (h : Delivered s k read pending waiting) (hi : TrafficInv s.traffic) {path : Bytes}
    (hp : port s.traffic.world (k, .toClient) = some path) :
    s.traffic.pipes.queue path = wire 0 (waiting.map Struc.body) := by
  have hflow := hi.pipes.flow _ path hp
  rw [h.put, h.taken, h.sent, map_body_append] at hflow
  exact (List.append_cancel_left hflow).symm

/-- Steps that send nothing to the client and read nothing for it. -/
theorem Delivered.keep (h : Delivered s k read pending waiting) {s' : Talk}
    (hput : s'.traffic.pipes.put (k, .toClient) = s.traffic.pipes.put (k, .toClient))
    (htaken : s'.traffic.pipes.taken (k, .toClient) = s.traffic.pipes.taken (k, .toClient)) (hsent : s'.sent k = s.sent k)
    (hv : s'.values k = s.values k) : Delivered s' k read pending waiting where
  sent := hsent.trans h.sent
  put := by rw [hput, hsent]; exact h.put
  taken := htaken.trans h.taken
  values := by rw [hv]; exact h.values
  carried := by rw [hsent]; exact h.carried

/-- A struct that is sent waits behind the others. -/
theorem Delivered.send (h : Delivered s k read pending waiting) {s' : Talk} {x : Struc} (hx : x.Carried)
    (hput : s'.traffic.pipes.put (k, .toClient) = s.traffic.pipes.put (k, .toClient) ++ (x.body ++ [0]))
    (htaken : s'.traffic.pipes.taken (k, .toClient) = s.traffic.pipes.taken (k, .toClient))
    (hsent : s'.sent k = s.sent k ++ [x]) (hv : s'.values k = s.values k) : Delivered s' k read pending (waiting ++ [x]) where
  sent := by rw [hsent, h.sent, List.append_assoc _ waiting]
  put := by
    rw [hput, h.put, hsent, map_body_append, List.map_singleton, wire_cons, wire_nil]
  taken := htaken.trans h.taken
  values := by rw [hv]; exact h.values
  carried := by
    rw [hsent]
    exact List.forall_mem_append.2 ⟨h.carried, List.forall_mem_singleton.2 hx⟩

/-- What is handed out is unmarshalled, and the rest is kept. -/
theorem Delivered.take {x : Struc} (h : Delivered s k read (x :: pending) waiting) {r : ComWrapper.Received}
    {sd : StreamData} {l : Locals} (hl : l.Zeroed) {data : Bytes} {size : Int} {b : Bool} {w : Wrapper}
    (hread : ComWrapper.readData r sd (s.wrapper k) = some (b, ⟨data, size⟩, w)) (hdata : cstr data = x.body)
    (hw : Pending w (pending.map Struc.body)) (hshort : ∀ y ∈ pending, y.body.length < bufferSize) :
    ∃ s', s.take k r sd l = some s' ∧ s'.traffic = s.traffic ∧ Delivered s' k (read ++ [x]) pending waiting ∧
      Keeps s' k pending ∧ ∀ j, j ≠ k → s'.wrapper j = s.wrapper j ∧ s'.sent j = s.sent j ∧ s'.values j = s.values j := by
  have hx : x.Carried := h.carried x (by rw [h.sent]; simp)
  obtain ⟨v, hv, hsame⟩ := hx.read_back hl
  obtain ⟨vs, hvalues, hall⟩ := h.values
  refine ⟨{ s with
    wrapper := Function.update s.wrapper k w
    values := Function.update s.values k (s.values k ++ [some v]) }, ?_, rfl, ?_, ⟨?_, hshort⟩, fun j hj => ?_⟩
  · rw [Talk.take, hread, Option.bind_some]
    dsimp only
    rw [hdata, hv]
    rfl
  · refine ⟨?_, h.put, ?_, ⟨vs ++ [v], ?_, ?_⟩, h.carried⟩
    · rw [List.append_assoc read, List.singleton_append]
      exact h.sent
    · rw [List.append_assoc read, List.singleton_append]
      exact h.taken
    · dsimp only
      rw [Function.update_self, hvalues, List.map_append, List.map_singleton]
    · exact List.rel_append hall (.cons hsame .nil)
  · dsimp only
    rw [Function.update_self]
    exact hw
  · dsimp only
    rw [Function.update_of_ne hj, Function.update_of_ne hj]
    exact ⟨rfl, rfl, rfl⟩

end Delivered

/-! ## The FIFOs -/

theorem serverSends_cases {t t' : Traffic} {k : Nat} {data : Bytes} (h : trafficStep t (.serverSends k data) = some t') :
    t'.world = t.world ∧ t'.pipes.taken = t.pipes.taken ∧
      t'.pipes.put = Function.update t.pipes.put (k, .toClient) (t.pipes.put (k, .toClient) ++ data) := by
  obtain ⟨c, -, h⟩ := Option.bind_eq_some_iff.1 h
  obtain ⟨path, -, rfl⟩ := Option.map_eq_some_iff.1 h
  exact ⟨rfl, rfl, rfl⟩

theorem clientReceives_cases {t t' : Traffic} {k : Nat} {path : Bytes} (hp : port t.world (k, .toClient) = some path)
    (h : trafficStep t (.clientReceives k) = some t') :
    t.pipes.queue path ≠ [] ∧ t'.world = t.world ∧ t'.pipes.put = t.pipes.put ∧
      t'.pipes.taken = Function.update t.pipes.taken (k, .toClient)
        (t.pipes.taken (k, .toClient) ++ (t.pipes.queue path).take BUFFER_SIZE) := by
  obtain ⟨c, hc, h⟩ := Option.bind_eq_some_iff.1 h
  obtain ⟨path', hpath, h⟩ := Option.bind_eq_some_iff.1 h
  obtain ⟨hne, h⟩ := Option.ite_none_left_eq_some.1 h
  obtain rfl := Option.some.inj h
  rw [port, hc] at hp
  obtain rfl : path' = path := Option.some.inj (hpath.symm.trans hp)
  exact ⟨hne, rfl, rfl, rfl⟩

/-- The other steps leave the way to the clients alone. -/
theorem silent_cases {t t' : Traffic} {a : TrafficAct} (h : trafficStep t a = some t')
    (hs : ∀ k data, a ≠ .serverSends k data) (hr : ∀ k, a ≠ .clientReceives k) (k : Nat) :
    t'.pipes.put (k, .toClient) = t.pipes.put (k, .toClient) ∧ t'.pipes.taken (k, .toClient) = t.pipes.taken (k, .toClient) := by
  have hne : ∀ j, ((k, .toClient) : Nat × Direction) ≠ (j, .toServer) := fun j he => by cases he
  cases a with
  | world a =>
    obtain ⟨w, -, rfl⟩ := Option.map_eq_some_iff.1 h
    exact ⟨rfl, rfl⟩
  | clientSends j data =>
    obtain ⟨c, -, h⟩ := Option.bind_eq_some_iff.1 h
    obtain ⟨path, -, rfl⟩ := Option.map_eq_some_iff.1 h
    exact ⟨Function.update_of_ne (hne j) _ _, rfl⟩
  | serverReceives j =>
    obtain ⟨c, -, h⟩ := Option.bind_eq_some_iff.1 h
    obtain ⟨path, -, h⟩ := Option.bind_eq_some_iff.1 h
    obtain ⟨-, h⟩ := Option.ite_none_left_eq_some.1 h
    obtain rfl := Option.some.inj h
    exact ⟨rfl, Function.update_of_ne (hne j) _ _⟩
  | serverSends j data => exact absurd rfl (hs j data)
  | clientReceives j => exact absurd rfl (hr j)

/-! ## Reading -/

theorem receives {t : Traffic} {k : Nat} {path : Bytes} (hp : port t.world (k, .toClient) = some path)
    (hne : t.pipes.queue path ≠ []) : ∃ t', trafficStep t (.clientReceives k) = some t' := by
  obtain ⟨c, hc, hfd⟩ := Option.bind_eq_some_iff.1 hp
  have hpath : c.fd = some path := hfd
  refine ⟨{ t with pipes := t.pipes.read (k, .toClient) path BUFFER_SIZE }, ?_⟩
  simp only [trafficStep, hc, Option.bind_some, receive, hpath, if_neg hne]

section Reading
variable {s : Talk} {k : Nat} {sd : StreamData} {l : Locals} {read pending waiting : List Struc} {x : Struc}

/-- The first of what the client keeps is handed out. -/
theorem read_pending (h : Delivered s k read (x :: pending) waiting) (hk : Keeps s k (x :: pending))
    (hok : InTime s (.reads k sd l)) :
    ∃ s', s.read k sd l = some s' ∧ s'.traffic = s.traffic ∧ Delivered s' k (read ++ [x]) pending waiting ∧
      Keeps s' k pending ∧ ∀ j, j ≠ k → s'.wrapper j = s.wrapper j ∧ s'.sent j = s.sent j ∧ s'.values j = s.values j := by
  obtain ⟨hsd, hl, -⟩ := hok
  have hnul : (0 : UInt8) ∉ x.body := (h.carried x (by rw [h.sent]; simp)).body_nul
  have hlen : x.body.length < sd.data.length := by
    rw [hsd]
    exact hk.2 x List.mem_cons_self
  obtain ⟨data, htake, hdata⟩ := ComWrapper.takeString_spec hk.1 hnul sd hlen
  obtain ⟨b, hb⟩ : ∃ b, (s.wrapper k).readBuffer = some b := by
    obtain ⟨hnil, -⟩ | ⟨-, done, hb, -⟩ := hk.1
    · cases hnil
    · exact ⟨_, hb⟩
  rw [Talk.read, hb]
  exact h.take hl ((ComWrapper.readData_pending hk.1 _ sd).trans htake) hdata hk.1.advance fun y hy =>
    hk.2 y (List.mem_cons_of_mem _ hy)

/-- With nothing kept, all that waits is received, and the first of it is
handed out. -/
theorem read_waiting (hi : TrafficInv s.traffic) (h : Delivered s k read [] (x :: waiting)) (hk : Keeps s k [])
    (hok : InTime s (.reads k sd l)) {path : Bytes} (hp : port s.traffic.world (k, .toClient) = some path) :
    ∃ s' t, s.read k sd l = some s' ∧ trafficStep s.traffic (.clientReceives k) = some t ∧ s'.traffic = t ∧
      Delivered s' k (read ++ [x]) waiting [] ∧ Keeps s' k waiting ∧
      ∀ j, j ≠ k → s'.wrapper j = s.wrapper j ∧ s'.sent j = s.sent j ∧ s'.values j = s.values j := by
  obtain ⟨hsd, hl, hshort⟩ := hok
  have hqueue := h.queue hi hp
  have hbuf : (s.traffic.pipes.queue path).length ≤ BUFFER_SIZE := hshort hk.1.none path hp
  have hall : (s.traffic.pipes.queue path).take BUFFER_SIZE = s.traffic.pipes.queue path := List.take_of_length_le hbuf
  have hne : s.traffic.pipes.queue path ≠ [] := by
    rw [hqueue, List.map_cons, wire_cons]
    simp
  obtain ⟨t, ht⟩ := receives hp hne
  obtain ⟨-, -, hput, htaken⟩ := clientReceives_cases hp ht
  have hnul : ∀ m ∈ (x :: waiting).map Struc.body, (0 : UInt8) ∉ m := by
    intro m hm
    obtain ⟨y, hy, rfl⟩ := List.mem_map.1 hm
    exact (h.carried y (by rw [h.sent]; exact List.mem_append_right _ hy)).body_nul
  have hframes : frames 0 (s.traffic.pipes.queue path) = x.body :: waiting.map Struc.body := by
    rw [hqueue, frames_wire hnul, List.map_cons]
  obtain ⟨data, w, hread, hdata, hw⟩ := ComWrapper.readData_receive hk.1 sd (hbuf.trans_eq hsd.symm) hframes
  have hd : Delivered { s with traffic := t } k read (x :: waiting) [] := by
    refine ⟨?_, ?_, ?_, h.values, h.carried⟩
    · rw [List.append_nil, ← List.append_nil read]
      exact h.sent
    · rw [hput]
      exact h.put
    · dsimp only
      rw [htaken, Function.update_self, hall, hqueue, h.taken, List.append_nil, map_body_append]
  have hlater : ∀ y ∈ waiting, y.body.length < bufferSize := by
    intro y hy
    have hmem : y.body ∈ frames 0 (s.traffic.pipes.queue path) := by
      rw [hframes]
      exact List.mem_cons_of_mem _ (List.mem_map_of_mem hy)
    exact (length_frame_lt hmem).trans_le hbuf
  obtain ⟨s', hs', htraffic, hd', hk', hother⟩ := hd.take hl hread hdata hw hlater
  refine ⟨s', t, ?_, ht, htraffic, hd', hk', hother⟩
  rw [Talk.read, hk.1.none]
  dsimp only
  rw [hp, Option.bind_some, ht, Option.bind_some, hall]
  exact hs'

/-- With nothing kept and nothing waiting a read blocks. -/
theorem read_blocks (hi : TrafficInv s.traffic) (h : Delivered s k read [] []) (hk : Keeps s k []) : s.read k sd l = none := by
  rw [Talk.read, hk.1.none]
  dsimp only
  cases hp : port s.traffic.world (k, .toClient) with
  | none => rfl
  | some path =>
    rw [Option.bind_some]
    cases ht : trafficStep s.traffic (.clientReceives k) with
    | none => rfl
    | some t => exact absurd (h.queue hi hp) (clientReceives_cases hp ht).1

end Reading

/-! ## Runs -/

theorem talkInv_traffic {s s' : Talk} {a : TrafficAct} (h : TalkInv s) (hok : Orderly s.traffic a)
    (hsends : ∀ k data, a ≠ .serverSends k data) (hreads : ∀ k, a ≠ .clientReceives k)
    (hs : (trafficStep s.traffic a).map (fun traffic => { s with traffic }) = some s') : TalkInv s' := by
  obtain ⟨t, ht, rfl⟩ := Option.map_eq_some_iff.1 hs
  refine ⟨trafficInv_step h.traffic hok ht, fun k => ?_⟩
  obtain ⟨read, pending, waiting, hd, hk⟩ := h.delivered k
  obtain ⟨hput, htaken⟩ := silent_cases ht hsends hreads k
  exact ⟨read, pending, waiting, hd.keep hput htaken rfl rfl, hk⟩

theorem talkInv_sends {s s' : Talk} {k : Nat} {x : Struc} (h : TalkInv s) (hx : x.Carried) (hs : s.send k x = some s') :
    TalkInv s' := by
  obtain ⟨sd, hsd, hs⟩ := Option.bind_eq_some_iff.1 hs
  obtain ⟨t, ht, rfl⟩ := Option.map_eq_some_iff.1 hs
  obtain ⟨sd', hsd', hbytes⟩ := hx.sent
  obtain rfl := Option.some.inj (hsd.symm.trans hsd')
  rw [hbytes] at ht
  obtain ⟨-, htaken, hput⟩ := serverSends_cases ht
  refine ⟨trafficInv_step (a := .serverSends k (x.body ++ [0])) h.traffic trivial ht, fun j => ?_⟩
  obtain ⟨read, pending, waiting, hd, hk⟩ := h.delivered j
  by_cases hj : j = k
  · subst hj
    refine ⟨read, pending, waiting ++ [x], hd.send hx ?_ ?_ ?_ rfl, hk⟩
    · rw [hput, Function.update_self]
    · rw [htaken]
    · exact Function.update_self ..
  · refine ⟨read, pending, waiting, hd.keep ?_ ?_ ?_ rfl, hk⟩
    · rw [hput, Function.update_of_ne fun he => hj (congrArg Prod.fst he)]
    · rw [htaken]
    · exact Function.update_of_ne hj ..

theorem talkInv_reads {s s' : Talk} {k : Nat} {sd : StreamData} {l : Locals} (h : TalkInv s)
    (hok : InTime s (.reads k sd l)) (hs : s.read k sd l = some s') : TalkInv s' := by
  obtain ⟨read, pending, waiting, hd, hk⟩ := h.delivered k
  -- The other connections are where they were, if what is read on this one is its own.
  have hothers : TrafficInv s'.traffic → (∃ r p w, Delivered s' k r p w ∧ Keeps s' k p) →
      (∀ j, j ≠ k → s'.traffic.pipes.put (j, .toClient) = s.traffic.pipes.put (j, .toClient) ∧
        s'.traffic.pipes.taken (j, .toClient) = s.traffic.pipes.taken (j, .toClient)) →
      (∀ j, j ≠ k → s'.wrapper j = s.wrapper j ∧ s'.sent j = s.sent j ∧ s'.values j = s.values j) → TalkInv s' := by
    intro htraffic hown hpipes hother
    refine ⟨htraffic, fun j => ?_⟩
    by_cases hj : j = k
    · subst hj
      exact hown
    · obtain ⟨r, p, w, hdj, hkj⟩ := h.delivered j
      obtain ⟨hw, hsent, hv⟩ := hother j hj
      refine ⟨r, p, w, hdj.keep (hpipes j hj).1 (hpipes j hj).2 hsent hv, ?_⟩
      unfold Keeps
      rw [hw]
      exact hkj
  cases pending with
  | cons x pending =>
    obtain ⟨t, ht, htraffic, hd', hk', hother⟩ := read_pending hd hk hok
    obtain rfl := Option.some.inj (hs.symm.trans ht)
    rw [htraffic] at hothers
    exact hothers h.traffic ⟨_, _, _, hd', hk'⟩ (fun _ _ => ⟨rfl, rfl⟩) hother
  | nil =>
    cases waiting with
    | nil =>
      rw [read_blocks h.traffic hd hk] at hs
      cases hs
    | cons x waiting =>
      cases hp : port s.traffic.world (k, .toClient) with
      | none =>
        rw [Talk.read, hk.1.none, hp] at hs
        cases hs
      | some path =>
        obtain ⟨u, t, hu, ht, htraffic, hd', hk', hother⟩ := read_waiting h.traffic hd hk hok hp
        obtain rfl := Option.some.inj (hs.symm.trans hu)
        obtain ⟨-, -, hput, htaken⟩ := clientReceives_cases hp ht
        rw [htraffic] at hothers
        have hinv := trafficInv_step (a := .clientReceives k) h.traffic trivial ht
        refine hothers hinv ⟨_, _, _, hd', hk'⟩ (fun j hj => ⟨?_, ?_⟩) hother
        · rw [hput]
        · rw [htaken, Function.update_of_ne fun he => hj (congrArg Prod.fst he)]

theorem talkInv_step {s s' : Talk} {a : TalkAct} (h : TalkInv s) (hok : InTime s a) (hs : talkStep s a = some s') :
    TalkInv s' := by
  cases a with
  | sends k x => exact talkInv_sends h hok hs
  | reads k sd l => exact talkInv_reads h hok hs
  | traffic a =>
    cases a with
    | serverSends | clientReceives => cases hs
    | world a => exact talkInv_traffic h hok (fun _ _ he => by cases he) (fun _ he => by cases he) hs
    | clientSends j data =>
      exact talkInv_traffic (a := .clientSends j data) h trivial (fun _ _ he => by cases he) (fun _ he => by cases he) hs
    | serverReceives j =>
      exact talkInv_traffic (a := .serverReceives j) h trivial (fun _ _ he => by cases he) (fun _ he => by cases he) hs

/-- While the clients read in time, what each of them has made of what it read
is what the server sent it, in order, and a read waits exactly when the client
has got everything. -/
theorem delivered_in_order {s : Talk} (h : talk.ReachesBy InTime s) (k : Nat) :
    ∃ read rest vs, s.sent k = read ++ rest ∧ s.values k = vs.map some ∧ List.Forall₂ Struc.Same read vs ∧
      ∀ sd l, InTime s (.reads k sd l) → (talkStep s (.reads k sd l) = none ↔ rest = []) := by
  have hi : TalkInv s := by
    apply h.inv (I := TalkInv)
    · intro s hs
      rw [hs]
      exact talkInv_start
    · intro _ _ _ hi hok hs
      exact talkInv_step hi hok hs
  obtain ⟨read, pending, waiting, hd, hk⟩ := hi.delivered k
  obtain ⟨vs, hvalues, hsame⟩ := hd.values
  refine ⟨read, pending ++ waiting, vs, by rw [hd.sent, List.append_assoc], hvalues, hsame, fun sd l hok => ?_⟩
  cases pending with
  | cons x pending =>
    obtain ⟨t, ht, -⟩ := read_pending hd hk hok
    have hsome : talkStep s (.reads k sd l) = some t := ht
    rw [hsome]
    exact iff_of_false (fun hn => by cases hn) (List.cons_ne_nil _ _)
  | nil =>
    cases waiting with
    | nil => exact iff_of_true (read_blocks hi.traffic hd hk) rfl
    | cons x waiting =>
      -- Something was sent, so the connection is there.
      obtain ⟨path, hp⟩ : ∃ path, port s.traffic.world (k, .toClient) = some path := by
        cases hp : port s.traffic.world (k, .toClient) with
        | some path => exact ⟨path, rfl⟩
        | none =>
          have hput := hd.put
          rw [(hi.traffic.pipes.unused _ hp).1, hd.sent, map_body_append, List.map_cons, wire_cons] at hput
          simp at hput
      obtain ⟨t, -, ht, -⟩ := read_waiting hi.traffic hd hk hok hp
      have hsome : talkStep s (.reads k sd l) = some t := ht
      rw [hsome]
      exact iff_of_false (fun hn => by cases hn) (List.cons_ne_nil _ _)

set_option maxRecDepth 20000 in
/-- A start notice. -/
theorem delivered_in_order_start : ∃ s : Talk, talk.ReachesBy InTime s ∧ s.sent 0 = [.text (.boolean 1)] ∧
    ∃ vs, s.values 0 = vs.map some ∧ List.Forall₂ Struc.Same (s.sent 0) vs := by
  have next : ∀ {s t : Talk} (a : TalkAct), talk.ReachesBy InTime s → InTime s a → talkStep s a = some t →
      talk.ReachesBy InTime t := fun a h hok hs => h.step hok hs
  have hclean : ∀ x ∈ clean.val[3]?, isDigit x = false := by
    intro x hx
    rw [List.eq_of_mem_replicate (List.mem_of_getElem? hx)]
    rfl
  have h₁ := next (.traffic (.world (.connect ana))) (.init rfl) (List.not_mem_nil : ana ∉ []) rfl
  have h₂ := next (.traffic (.world (.accept clean))) h₁ ⟨rfl, hclean⟩ rfl
  have h₃ := next (.sends 0 (.text (.boolean 1))) h₂ (.inr rfl) rfl
  have h₄ := next (.reads 0 (ComWrapper.zeros 0) cleared) h₃
    ⟨List.length_replicate, zeroed_cleared, fun _ path hp => by cases hp; exact Nat.le_of_ble_eq_true rfl⟩ rfl
  obtain ⟨s, hs, hone, hcount⟩ : ∃ s : Talk, talk.ReachesBy InTime s ∧ s.sent 0 = [.text (.boolean 1)] ∧
      (s.values 0).length = 1 := ⟨_, h₄, rfl, rfl⟩
  obtain ⟨read, rest, vs, hsent, hvalues, hsame, -⟩ := delivered_in_order hs 0
  have hread : read.length = 1 := by rw [hsame.length_eq, ← List.length_map some, ← hvalues, hcount]
  have hrest : rest = [] := by
    have hlen := congrArg List.length hsent
    rw [hone, List.length_append, hread, List.length_singleton] at hlen
    exact List.length_eq_zero_iff.1 (by omega)
  rw [hrest, List.append_nil] at hsent
  exact ⟨s, hs, hone, vs, hvalues, hsent ▸ hsame⟩

end Snuffin.ComFIFO
