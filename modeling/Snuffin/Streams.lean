import Snuffin.ComWrapper
/-!
# Messages against chunks and connections

`readData` on one connection whose stream is cut into chunks, and on several
connections of one process. A chunk's strings are all it keeps, and the
strings it has not handed out belong to whoever asks next.
-/
open Lib

namespace Snuffin.ComWrapper

/-! ## One connection -/

def Wrapper.start : Wrapper := ⟨none, 0, 0⟩

/-- The strings that `n` calls of `readData` leave in `sd->data`, or fewer
when a call finds nothing to receive. `buf k` is the buffer of the call that
has `k` calls after it. -/
def readAll (buf : Nat → StreamData) : Nat → List Bytes → Wrapper → Option (List Bytes)
  | 0, _, _ => some []
  | n + 1, chunks, w =>
    match w.readBuffer, chunks with
    | none, [] => some []
    | none, c :: cs =>
      (readData (.bytes c) (buf n) w).bind fun (_, sd, w) => (readAll buf n cs w).map (cstr sd.data :: ·)
    | some _, cs =>
      (readData .error (buf n) w).bind fun (_, sd, w) => (readAll buf n cs w).map (cstr sd.data :: ·)

section Stream
variable {buf : Nat → StreamData} (hbuf : ∀ k, (buf k).data.length = bufferSize)
include hbuf

/-- A pending string is handed out without receiving anything. -/
theorem readAll_pending (n : Nat) (cs : List Bytes) {w : Wrapper} {m : Bytes} {ms : List Bytes}
    (h : Pending w (m :: ms)) (hm : (0 : UInt8) ∉ m) (hlen : m.length < bufferSize) :
    ∃ w', Pending w' ms ∧ readAll buf (n + 1) cs w = (readAll buf n cs w').map (m :: ·) := by
  obtain ⟨data, ht, hc⟩ := takeString_spec h hm (buf n) (by rw [hbuf]; exact hlen)
  refine ⟨w.advance, h.advance, ?_⟩
  have hb : ∃ b, w.readBuffer = some b := by
    obtain ⟨hne, -⟩ | ⟨-, done, hb, -⟩ := h
    · cases hne
    · exact ⟨_, hb⟩
  obtain ⟨b, hb⟩ := hb
  simp only [readAll, hb, readData_pending h, ht, Option.bind_some, hc]

theorem readAll_receive (n : Nat) {c : Bytes} (cs : List Bytes) {w : Wrapper} {m : Bytes} {ms : List Bytes}
    (h : Pending w []) (hlen : c.length ≤ bufferSize) (hf : frames 0 c = m :: ms) :
    ∃ w', Pending w' ms ∧ readAll buf (n + 1) (c :: cs) w = (readAll buf n cs w').map (m :: ·) := by
  obtain ⟨data, w', ht, hc, hp⟩ := readData_receive h (buf n) (by rw [hbuf]; exact hlen) hf
  exact ⟨w', hp, by simp only [readAll, h.none, ht, Option.bind_some, hc]⟩

/-- The calls give the strings that the chunks complete, one by one, unless a
chunk without a NUL is received. -/
theorem readAll_eq (n : Nat) (chunks : List Bytes) {w : Wrapper} {ms : List Bytes} (h : Pending w ms)
    (hms : ∀ m ∈ ms, (0 : UInt8) ∉ m ∧ m.length < bufferSize) (hlen : ∀ c ∈ chunks, c.length ≤ bufferSize) :
    ((∀ c ∈ chunks, frames 0 c ≠ []) → ∃ out, readAll buf n chunks w = some out) ∧
      ∀ out, readAll buf n chunks w = some out → out = (ms ++ chunks.flatMap (frames 0)).take n := by
  induction n generalizing chunks w ms with
  | zero => exact ⟨fun _ => ⟨[], rfl⟩, fun out ho => by cases ho; simp⟩
  | succ n ih =>
    cases ms with
    | cons m ms =>
      obtain ⟨w', hp, e⟩ := readAll_pending hbuf n chunks h (hms m (by simp)).1 (hms m (by simp)).2
      obtain ⟨h1, h2⟩ := ih chunks hp (fun m' hm' => hms m' (by simp [hm'])) hlen
      rw [e]
      refine ⟨fun hne => ?_, fun out ho => ?_⟩
      · obtain ⟨out, ho⟩ := h1 hne; exact ⟨_, by rw [ho]; rfl⟩
      · obtain ⟨out', ho', rfl⟩ := Option.map_eq_some_iff.1 ho
        rw [h2 out' ho']; rfl
    | nil =>
      cases chunks with
      | nil =>
        have e : readAll buf (n + 1) [] w = some [] := by simp only [readAll, h.none]
        rw [e]
        exact ⟨fun _ => ⟨[], rfl⟩, fun out ho => by cases ho; rfl⟩
      | cons c cs =>
        cases hf : frames 0 c with
        | nil =>
          have e : readAll buf (n + 1) (c :: cs) w = none := by
            simp only [readAll, h.none, readData_no_string h (buf n) (by rw [hbuf]; exact hlen c (by simp)) hf,
              Option.bind_none]
          exact ⟨fun hne => absurd hf (hne c (by simp)), fun out ho => by rw [e] at ho; cases ho⟩
        | cons m ms =>
          obtain ⟨w', hp, e⟩ := readAll_receive hbuf n cs h (hlen c (by simp)) hf
          have hms' : ∀ m' ∈ ms, (0 : UInt8) ∉ m' ∧ m'.length < bufferSize := fun m' hm' => by
            have hmem : m' ∈ frames 0 c := by rw [hf]; exact List.mem_cons_of_mem _ hm'
            have := length_frame_lt hmem
            have := hlen c (by simp)
            exact ⟨not_mem_frames hmem, by omega⟩
          obtain ⟨h1, h2⟩ := ih cs hp hms' fun c' hc' => hlen c' (by simp [hc'])
          rw [e]
          refine ⟨fun hne => ?_, fun out ho => ?_⟩
          · obtain ⟨out, ho⟩ := h1 fun c' hc' => hne c' (by simp [hc']); exact ⟨_, by rw [ho]; rfl⟩
          · obtain ⟨out', ho', rfl⟩ := Option.map_eq_some_iff.1 ho
            rw [h2 out' ho', List.flatMap_cons, hf]; rfl

end Stream

/-- The strings that successive calls leave are the messages sent, in order,
exactly when every chunk ends with the NUL of a message. -/
theorem reads_messages_iff {buf : Nat → StreamData} (hbuf : ∀ k, (buf k).data.length = bufferSize)
    {msgs chunks : List Bytes} (hmsgs : ∀ m ∈ msgs, m ≠ [] ∧ (0 : UInt8) ∉ m ∧ m.length < bufferSize)
    (hchunks : ∀ c ∈ chunks, c ≠ [] ∧ c.length ≤ bufferSize) (hwire : chunks.flatten = wire 0 msgs) :
    (∀ n, readAll buf n chunks .start = some (msgs.take n)) ↔ ∀ c ∈ chunks, c.getLast? = some 0 := by
  have hp : Pending .start [] := .inl ⟨rfl, rfl⟩
  have hrun := fun n => readAll_eq hbuf n chunks hp (by simp) fun c hc => (hchunks c hc).2
  have hiff : (∀ c ∈ chunks, c.getLast? = some 0) ↔ ∀ c ∈ chunks, leftover 0 c = [] :=
    forall₂_congr fun c hc => (leftover_eq_nil (hchunks c hc).1).symm
  rw [hiff]
  constructor
  · intro h
    -- With enough calls the messages are all that the chunks complete.
    have e := (hrun (msgs.length + (chunks.flatMap (frames 0)).length)).2 _ (h _)
    rw [List.take_of_length_le (by omega), List.nil_append, List.take_of_length_le (by omega)] at e
    exact wire_chunks.1 (by rw [← e, hwire])
  · intro h n
    have hne : ∀ c ∈ chunks, frames 0 c ≠ [] := fun c hc => frames_ne_nil (hchunks c hc).1 (h c hc)
    have hnul : ∀ m ∈ chunks.flatMap (frames 0), (0 : UInt8) ∉ m := fun m hm => by
      obtain ⟨c, -, hc⟩ := List.mem_flatMap.1 hm
      exact not_mem_frames hc
    have e : chunks.flatMap (frames 0) = msgs := by
      rw [← frames_wire hnul, wire_chunks.2 h, hwire, frames_wire fun m hm => (hmsgs m hm).2.1]
    obtain ⟨out, ho⟩ := (hrun n).1 hne
    rw [ho, (hrun n).2 out ho, List.nil_append, e]

/-- A buffer of zeros for every call. -/
def zeros : Nat → StreamData := fun _ => ⟨List.replicate bufferSize 0, 0⟩

/-- The messages "ab" and "c" in one chunk. -/
theorem reads_messages_iff_two : (∀ n, readAll zeros n [[97, 98, 0, 99, 0]] .start = some ([[97, 98], [99]].take n)) ↔
    ∀ c ∈ [[97, 98, 0, 99, (0 : UInt8)]], c.getLast? = some 0 :=
  reads_messages_iff (fun _ => List.length_replicate) (by decide) (by decide) rfl

/-- "ab" cut after the "a": `readData` finds no string in the first chunk. "a"
and "bc" cut after the "b": the second message arrives as "c". -/
theorem cut_messages :
    [[97], [98, 0]].flatten = wire 0 [[97, (98 : UInt8)]] ∧ readAll zeros 1 [[97], [98, 0]] .start = none ∧
      [[97, 0, 98], [99, 0]].flatten = wire 0 [[97], [98, (99 : UInt8)]] ∧
      readAll zeros 2 [[97, 0, 98], [99, 0]] .start = some [[97], [99]] := by
  have hbuf : ∀ k, (zeros k).data.length = bufferSize := fun _ => List.length_replicate
  have h1 : frames (0 : UInt8) [97] = [] := (frames_eq [] [97] rfl (by simp) (by decide)).1
  have h2 : frames (0 : UInt8) [97, 0, 98] = [[97]] := (frames_eq [[97]] [98] rfl (by decide) (by decide)).1
  have h3 : frames (0 : UInt8) [99, 0] = [[99]] := (frames_eq [[99]] [] rfl (by decide) (by decide)).1
  have hp : Pending Wrapper.start [] := .inl ⟨rfl, rfl⟩
  refine ⟨rfl, ?_, rfl, ?_⟩
  · have hr := readData_no_string hp (zeros 0) (by rw [hbuf]; decide) h1
    simp only [readAll, hp.none, hr, Option.bind_none]
  · obtain ⟨hsome, hout⟩ := readAll_eq hbuf 2 [[97, 0, 98], [99, 0]] hp (by simp) (by decide)
    obtain ⟨out, ho⟩ := hsome (by simp [h2, h3])
    rw [ho, hout out ho]
    simp [h2, h3]

/-! ## Several connections -/

/-- A connection: the chunks that have arrived, and all messages sent and
returned on it. -/
structure Conn where
  incoming : List Bytes
  sent : List Bytes
  returned : List Bytes

/-- A process that serves the connections `κ`. `source` is the connection that
the strings in `readBuffer` came in on. -/
structure Process (κ : Type) where
  wrapper : Wrapper
  source : Option κ
  conns : κ → Conn

/-- The peer's messages arrive in one chunk; `readData` is called for a
connection, with a buffer. -/
inductive ConnAct (κ : Type) where
  | send (c : κ) (ms : List Bytes)
  | read (c : κ) (sd : StreamData)

variable {κ : Type} [DecidableEq κ]

def Process.update (s : Process κ) (c : κ) (f : Conn → Conn) : Process κ :=
  { s with conns := Function.update s.conns c (f (s.conns c)) }

def connStep (s : Process κ) : ConnAct κ → Option (Process κ)
  | .send c ms =>
    if ms ≠ [] ∧ (∀ m ∈ ms, (0 : UInt8) ∉ m) ∧ (wire 0 ms).length ≤ bufferSize then
      some (s.update c fun x => { x with incoming := x.incoming ++ [wire 0 ms], sent := x.sent ++ ms })
    else none
  | .read c sd =>
    if sd.data.length = bufferSize then
      match s.wrapper.readBuffer, (s.conns c).incoming with
      | none, [] => none
      | none, b :: bs =>
        (readData (.bytes b) sd s.wrapper).map fun (_, sd, w) =>
          Process.update ⟨w, some c, s.conns⟩ c fun x =>
            { x with incoming := bs, returned := x.returned ++ [cstr sd.data] }
      | some _, _ =>
        (readData .error sd s.wrapper).map fun (_, sd, w) =>
          Process.update { s with wrapper := w } c fun x => { x with returned := x.returned ++ [cstr sd.data] }
    else none

def Process.start : Process κ := ⟨.start, none, fun _ => ⟨[], [], []⟩⟩

def connMachine (κ : Type) [DecidableEq κ] : Machine (Process κ) (ConnAct κ) := .ofFun Process.start connStep

/-- Strings are pending only for the connection that is read. -/
def OwnStrings (s : Process κ) : ConnAct κ → Prop
  | .read c _ => s.wrapper.readBuffer = none ∨ s.source = some c
  | .send _ _ => True

instance (s : Process κ) : ∀ a, Decidable (OwnStrings s a)
  | .read c _ => inferInstanceAs (Decidable (s.wrapper.readBuffer = none ∨ s.source = some c))
  | .send _ _ => .isTrue trivial

/-- What is pending, and what each connection's messages are: those returned,
those pending and those in its chunks. -/
structure ConnInv (s : Process κ) (ms : List Bytes) : Prop where
  pending : Pending s.wrapper ms
  strings : ∀ m ∈ ms, (0 : UInt8) ∉ m ∧ m.length < bufferSize
  chunks : ∀ c, ∀ b ∈ (s.conns c).incoming, frames 0 b ≠ [] ∧ b.length ≤ bufferSize
  sent : ∀ c, (s.conns c).sent =
    (s.conns c).returned ++ (if s.source = some c then ms else []) ++ (s.conns c).incoming.flatMap (frames 0)

theorem conn_send {s : Process κ} {ms : List Bytes} (h : ConnInv s ms) (c : κ) {new : List Bytes} (hne : new ≠ [])
    (hnew : ∀ m ∈ new, (0 : UInt8) ∉ m) (hlen : (wire 0 new).length ≤ bufferSize) :
    ConnInv (s.update c fun x => { x with incoming := x.incoming ++ [wire 0 new], sent := x.sent ++ new }) ms := by
  have hf : frames 0 (wire 0 new) = new := frames_wire hnew
  refine ⟨h.pending, h.strings, fun d b hb => ?_, fun d => ?_⟩
  · by_cases hd : d = c
    · subst hd
      simp only [Process.update, Function.update_self, List.mem_append, List.mem_singleton] at hb
      rcases hb with hb | rfl
      · exact h.chunks d b hb
      · exact ⟨by rw [hf]; exact hne, hlen⟩
    · simp only [Process.update, Function.update_of_ne hd] at hb
      exact h.chunks d b hb
  · by_cases hd : d = c
    · subst hd
      simp only [Process.update, Function.update_self, h.sent d, List.flatMap_append, List.append_assoc]
      simp [hf]
    · simp only [Process.update, Function.update_of_ne hd]
      exact h.sent d

/-- A call that receives: the new strings are the connection's own. -/
theorem conn_receive {s : Process κ} (h : ConnInv s []) {c : κ} {b m : Bytes} {bs ms : List Bytes}
    (hin : (s.conns c).incoming = b :: bs) (hf : frames 0 b = m :: ms) {w : Wrapper} (hw : Pending w ms) :
    ConnInv (Process.update ⟨w, some c, s.conns⟩ c fun x => { x with incoming := bs, returned := x.returned ++ [m] })
      ms := by
  have hb := h.chunks c b (by rw [hin]; exact List.mem_cons_self)
  refine ⟨hw, fun m' hm' => ?_, fun d b' hb' => ?_, fun d => ?_⟩
  · have hmem : m' ∈ frames 0 b := by rw [hf]; exact List.mem_cons_of_mem _ hm'
    have := length_frame_lt hmem
    exact ⟨not_mem_frames hmem, by omega⟩
  · by_cases hd : d = c
    · subst hd
      simp only [Process.update, Function.update_self] at hb'
      exact h.chunks d b' (by rw [hin]; exact List.mem_cons_of_mem _ hb')
    · simp only [Process.update, Function.update_of_ne hd] at hb'
      exact h.chunks d b' hb'
  · have hs := h.sent d
    by_cases hd : d = c
    · subst hd
      rw [hin, List.flatMap_cons, hf] at hs
      simp only [Process.update, Function.update_self, hs]
      simp
    · simp only [Process.update, Function.update_of_ne hd, hs]
      have hne : ¬c = d := fun e => hd e.symm
      simp [hne]

/-- A call that hands out a pending string of the connection. -/
theorem conn_pending {s : Process κ} {m : Bytes} {ms : List Bytes} (h : ConnInv s (m :: ms)) {c : κ}
    (hc : s.source = some c) {w : Wrapper} (hw : Pending w ms) :
    ConnInv (Process.update { s with wrapper := w } c fun x => { x with returned := x.returned ++ [m] }) ms := by
  refine ⟨hw, fun m' hm' => h.strings m' (List.mem_cons_of_mem _ hm'), fun d b hb => ?_, fun d => ?_⟩
  · by_cases hd : d = c
    · subst hd
      simp only [Process.update, Function.update_self] at hb
      exact h.chunks d b hb
    · simp only [Process.update, Function.update_of_ne hd] at hb
      exact h.chunks d b hb
  · have hs := h.sent d
    by_cases hd : d = c
    · subst hd
      simp only [Process.update, Function.update_self, hs, hc]
      simp
    · have hne : ¬c = d := fun e => hd e.symm
      simp only [Process.update, Function.update_of_ne hd, hs, hc]
      simp [hne]

theorem conn_step {s s' : Process κ} {a : ConnAct κ} (h : ∃ ms, ConnInv s ms) (hok : OwnStrings s a)
    (hs : connStep s a = some s') : ∃ ms, ConnInv s' ms := by
  obtain ⟨ms, h⟩ := h
  cases a with
  | send c new =>
    obtain ⟨⟨hne, hnew, hlen⟩, hs⟩ := Option.ite_none_right_eq_some.1 hs
    rw [← Option.some.inj hs]
    exact ⟨ms, conn_send h c hne hnew hlen⟩
  | read c sd =>
    obtain ⟨hsd, hs⟩ := Option.ite_none_right_eq_some.1 hs
    split at hs
    · cases hs
    · rename_i b bs hnone hin
      have hms : ms = [] := by
        obtain ⟨he, -⟩ | ⟨-, done, hsome, -⟩ := h.pending
        · exact he
        · rw [hnone] at hsome; cases hsome
      subst hms
      obtain ⟨hfne, hlen⟩ := h.chunks c b (by rw [hin]; exact List.mem_cons_self)
      obtain ⟨m, ms, hf⟩ := List.exists_cons_of_ne_nil hfne
      obtain ⟨data, w, hr, hcs, hw⟩ := readData_receive h.pending sd (by rw [hsd]; exact hlen) hf
      rw [hr, Option.map_some, Option.some.injEq] at hs
      subst hs
      dsimp only
      rw [hcs]
      exact ⟨ms, conn_receive h hin hf hw⟩
    · rename_i strs hsome
      cases ms with
      | nil => rw [h.pending.none] at hsome; cases hsome
      | cons m ms =>
        obtain ⟨hm, hlen⟩ := h.strings m (by simp)
        obtain ⟨data, ht, hcs⟩ := takeString_spec h.pending hm sd (by rw [hsd]; exact hlen)
        rw [readData_pending h.pending, ht, Option.map_some, Option.some.injEq] at hs
        subst hs
        dsimp only
        rw [hcs]
        rcases hok with hnone | hc
        · rw [hnone] at hsome; cases hsome
        · exact ⟨ms, conn_pending h hc h.pending.advance⟩

/-- While strings are pending only for the connection that is read, what a
connection returns is a prefix of what was sent on it. -/
theorem returned_prefix_sent {s : Process κ} (h : (connMachine κ).ReachesBy OwnStrings s) (c : κ) :
    (s.conns c).returned <+: (s.conns c).sent := by
  have hi : ∃ ms, ConnInv s ms :=
    h.inv (I := fun s => ∃ ms, ConnInv s ms)
      (fun s hs => by
        rw [hs]
        exact ⟨[], .inl ⟨rfl, rfl⟩, by simp, by simp [Process.start], by simp [Process.start]⟩)
      fun _ _ _ hi hok hs => conn_step hi hok hs
  obtain ⟨ms, hi⟩ := hi
  rw [hi.sent c, List.append_assoc]
  exact List.prefix_append _ _

set_option maxRecDepth 20000 in
/-- Two messages in one chunk of a connection, and one on another that is sent
before they are read and is read after them. -/
theorem returned_prefix_sent_two : ∃ s, (connMachine Bool).ReachesBy OwnStrings s ∧
    ((s.conns true).returned = [[97], [98]] ∧ (s.conns false).returned = [[99]]) ∧
    (s.conns true).returned <+: (s.conns true).sent ∧ (s.conns false).returned <+: (s.conns false).sent := by
  have hr : (connMachine Bool).ReachesBy OwnStrings _ :=
    Machine.reachesBy_of_runActs
      (l := [.send true [[97], [98]], .send false [[99], [100]], .read true (zeros 0), .read true (zeros 0),
        .read false (zeros 0)]) (.init rfl) rfl
  exact ⟨_, hr, ⟨rfl, rfl⟩, returned_prefix_sent hr true, returned_prefix_sent hr false⟩

set_option maxRecDepth 20000 in
/-- The second of them goes to another connection that is read in between. -/
theorem string_of_another : ∃ s, (connMachine Bool).Reaches s ∧
    ¬(s.conns false).returned <+: (s.conns false).sent := by
  have hr : (connMachine Bool).Reaches _ :=
    Machine.reachesBy_of_runActs
      (l := [.send true [[97], [98]], .read true (zeros 0), .read false (zeros 0)]) (.init rfl) rfl
  exact ⟨_, hr, fun h => by cases List.prefix_nil.1 h⟩

end Snuffin.ComWrapper
