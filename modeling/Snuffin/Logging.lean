import Snuffin.ComWrapper
import Snuffin.DbCalls
import Snuffin.Lib.PriorityQueue
/-!
# The log server (log.c, mqserver.c)

The child servers put lines into a POSIX message queue, without waiting, and
the log server takes them out and prints them. The queue is the kernel's: it
holds 10 messages of at most 256 bytes and outlives the log server, which may
be stopped and started again at any time.
-/
open Lib Snuffin.ComWrapper
open Snuffin.Db (CString)

namespace Snuffin.Log

/-! ## The code -/

abbrev maxMessages : Nat := 10
abbrev maxMsgSize : Nat := 256
abbrev msgBufferSize : Nat := maxMsgSize + 10

/-- A process id, which Linux keeps up to 2^22. -/
abbrev Pid := { n : Nat // n ≤ 4194304 }

/-- The kernel's queue with the attributes that the log server gives it. -/
abbrev Queue := PriorityQueue maxMessages Bytes

/-- The globals of log.c in one process; the descriptor is open or not. -/
structure Logger where
  connected : Bool
  qDescriptor : Bool

/-- `queue` is there once a log server has made it. `in_buffer` is there while
a log server runs, and `printed` is all that was given to `printf`. -/
structure Logging where
  queue : Option Queue
  loggers : Pid → Logger
  in_buffer : Option Bytes
  printed : List (String × Bytes)

def INFO : Nat := 1
def WARNING : Nat := 2
def ERROR : Nat := 3

def Logging.setLogger (s : Logging) (p : Pid) (l : Logger) : Logging :=
  { s with loggers := Function.update s.loggers p l }

def connectLogServer (p : Pid) (s : Logging) : Logging :=
  match s.queue with
  | none => s.setLogger p { s.loggers p with qDescriptor := false }
  | some _ => s.setLogger p ⟨true, true⟩

def closeLogServer (p : Pid) (s : Logging) : Logging := s.setLogger p { s.loggers p with qDescriptor := false }

/-- What `sprintf(aux,"%d>%s\n",getpid(),msg)` writes before its NUL. -/
def logLine (pid : Nat) (msg : Bytes) : Bytes := decimal pid ++ 62 :: (msg ++ [10])

/-- `mq_send`, with the queue after it where it succeeds. -/
def mq_send (p : Pid) (aux : Bytes) (level : Nat) (s : Logging) : Option Queue :=
  if (s.loggers p).qDescriptor = true ∧ aux.length ≤ maxMsgSize then s.queue.bind fun q => q.push? level aux else none

/-- `none` is a write behind `aux`. -/
def sendLog (p : Pid) (msg : CString) (level : Nat) (s : Logging) : Option Logging :=
  if (s.loggers p).connected = false then some s
  else if (logLine p.1 msg.1).length + 1 ≤ msg.1.length + 10 then
    match mq_send p (logLine p.1 msg.1) level s with
    | some q => some { s with queue := some q }
    | none => some s
  else none

def logMsg (p : Pid) (msg : CString) : Logging → Option Logging := sendLog p msg INFO

def logWarning (p : Pid) (msg : CString) : Logging → Option Logging := sendLog p msg WARNING

def logError (p : Pid) (msg : CString) : Logging → Option Logging := sendLog p msg ERROR

/-- `mq_open` in the log server, whose buffer holds anything at first. -/
def openServer (garbage : Bytes) (s : Logging) : Logging :=
  { s with queue := some (s.queue.getD .empty), in_buffer := some garbage }

/-- The switch over the priority. -/
def prioMsg (priority : Nat) : Option String :=
  if priority = INFO then some "INFO"
  else if priority = WARNING then some "WARNING"
  else if priority = ERROR then some "ERROR"
  else none

/-- A round of the server's loop: the buffer and what is printed. -/
def showMessage (in_buffer : Bytes) (priority : Nat) (m : Bytes) : Bytes × List (String × Bytes) :=
  let in_buffer := m ++ (in_buffer.map fun _ => 0).drop m.length
  (in_buffer, ((prioMsg priority).map fun prioMsg => (prioMsg, cstr in_buffer)).toList)

/-- A round of the server's loop; `none` while it waits for a message. -/
def serve (s : Logging) : Option Logging :=
  s.in_buffer.bind fun in_buffer => s.queue.bind fun q => q.pop?.map fun ((priority, m), q) =>
    { s with
      queue := some q
      in_buffer := some (showMessage in_buffer priority m).1
      printed := s.printed ++ (showMessage in_buffer priority m).2 }

/-! ## The machine -/

/-- The three functions that log.h offers for messages. -/
inductive Level where
  | info
  | warning
  | error
  deriving DecidableEq, Repr

def Level.prio : Level → Nat
  | .info => INFO
  | .warning => WARNING
  | .error => ERROR

def Level.name : Level → String
  | .info => "INFO"
  | .warning => "WARNING"
  | .error => "ERROR"

def Level.log : Level → Pid → CString → Logging → Option Logging
  | .info => logMsg
  | .warning => logWarning
  | .error => logError

inductive LogAct where
  | connect (p : Pid)
  | close (p : Pid)
  | log (k : Level) (p : Pid) (msg : CString)
  | start (garbage : Bytes)
  | stop
  | serve

def logStep (s : Logging) : LogAct → Option Logging
  | .connect p => some (connectLogServer p s)
  | .close p => some (closeLogServer p s)
  | .log k p msg => k.log p msg s
  | .start garbage =>
    if s.in_buffer = none ∧ garbage.length = msgBufferSize then some (openServer garbage s) else none
  | .stop => if s.in_buffer = none then none else some { s with in_buffer := none }
  | .serve => serve s

/-- Before the first log server. -/
def Logging.start : Logging := ⟨none, fun _ => ⟨false, false⟩, none, []⟩

/-- Any processes that log, and log servers one after the other. -/
def logMachine : Machine Logging LogAct := .ofFun Logging.start logStep

/-- The line that a step puts into the queue. -/
def accepted (s : Logging) : LogAct → Option (Level × Bytes)
  | .log k p msg =>
    if (s.loggers p).connected = true ∧ (mq_send p (logLine p.1 msg.1) k.prio s).isSome = true then
      some (k, logLine p.1 msg.1)
    else none
  | _ => none

/-- The lines of one level that the steps of a run put into the queue. -/
def acceptedAt (k : Level) (tr : List (Logging × LogAct)) : List Bytes :=
  tr.filterMap fun e => (accepted e.1 e.2).bind fun m => if m.1 = k then some m.2 else none

/-- The lines of one level that wait in the queue. -/
def Logging.waiting (s : Logging) (k : Level) : List Bytes :=
  match s.queue with
  | none => []
  | some q => q.level k.prio

/-- The lines of one level that were printed. -/
def Logging.printedAt (s : Logging) (k : Level) : List Bytes :=
  s.printed.filterMap fun e => if e.1 = k.name then some e.2 else none

/-! ## Sending -/

theorem prio_injective {k k' : Level} : k.prio = k'.prio ↔ k = k' := by
  cases k <;> cases k' <;> decide

theorem name_injective {k k' : Level} : k.name = k'.name ↔ k = k' := by
  cases k <;> cases k' <;> decide

theorem prioMsg_prio (k : Level) : prioMsg k.prio = some k.name := by
  cases k <;> rfl

theorem log_eq (k : Level) (p : Pid) (msg : CString) : k.log p msg = sendLog p msg k.prio := by
  cases k <;> rfl

theorem length_logLine (pid : Nat) (msg : Bytes) : (logLine pid msg).length = (decimal pid).length + msg.length + 2 := by
  simp only [logLine, List.length_append, List.length_cons, List.length_nil]
  omega

theorem logLine_nul (pid : Nat) (msg : CString) : (0 : UInt8) ∉ logLine pid msg.1 := by
  simp [logLine, decimal_nul, msg.2]

/-- `aux` has room for a process id of at most seven digits. -/
theorem logLine_fits (p : Pid) (msg : Bytes) : (logLine p.1 msg).length + 1 ≤ msg.length + 10 := by
  have hdigits : (decimal p.1).length ≤ 7 := by
    rcases Nat.eq_zero_or_pos p.1 with h | h
    · rw [h]
      decide
    · rw [decimal_natCast h]
      exact length_text_le (Nat.lt_of_le_of_lt p.2 (by decide))
  rw [length_logLine]
  omega

/-- What a call of one of the three functions does. -/
theorem log_cases (k : Level) (p : Pid) (msg : CString) (s : Logging) :
    (accepted s (.log k p msg) = none ∧ k.log p msg s = some s) ∨
      ∃ q q', s.queue = some q ∧ q.push? k.prio (logLine p.1 msg.1) = some q' ∧ (logLine p.1 msg.1).length ≤ maxMsgSize ∧
        accepted s (.log k p msg) = some (k, logLine p.1 msg.1) ∧ k.log p msg s = some { s with queue := some q' } := by
  have hfits := logLine_fits p msg.1
  rw [log_eq]
  cases hc : (s.loggers p).connected with
  | false => exact .inl ⟨by simp [accepted, hc], by simp [sendLog, hc]⟩
  | true =>
    cases hm : mq_send p (logLine p.1 msg.1) k.prio s with
    | none => exact .inl ⟨by simp [accepted, hm], by simp [sendLog, hc, hm, hfits]⟩
    | some q' =>
      obtain ⟨⟨-, hlen⟩, hq⟩ := Option.ite_none_right_eq_some.1 hm
      obtain ⟨q, hq, hpush⟩ := Option.bind_eq_some_iff.1 hq
      exact .inr ⟨q, q', hq, hpush, hlen, by simp [accepted, hc, hm], by simp [sendLog, hc, hm, hfits]⟩

/-! ## Receiving -/

/-- What the queue holds was sent by one of the three functions, and the
server's buffer has room for it. -/
structure LogInv (s : Logging) : Prop where
  buffer : ∀ b, s.in_buffer = some b → b.length = msgBufferSize
  messages : ∀ q, s.queue = some q → ∀ e ∈ q.entries, (0 : UInt8) ∉ e.2 ∧ e.2.length ≤ maxMsgSize ∧
    ∃ k : Level, e.1 = k.prio

/-- The cleared buffer ends the message that is copied into it. -/
theorem cstr_message {b m : Bytes} (hb : b.length = msgBufferSize) (hm : (0 : UInt8) ∉ m) (hlen : m.length ≤ maxMsgSize) :
    cstr (m ++ (b.map fun _ => 0).drop m.length) = m := by
  obtain ⟨n, hn⟩ : ∃ n, b.length - m.length = n + 1 :=
    ⟨b.length - m.length - 1, by rw [hb, msgBufferSize]; omega⟩
  rw [List.map_const', List.drop_replicate, hn, List.replicate_succ]
  exact cstr_append hm _

/-- A round of the server prints the first line of the highest level. -/
theorem serve_spec {s s' : Logging} (h : LogInv s) (hs : serve s = some s') :
    ∃ b q q' k m, s.in_buffer = some b ∧ s.queue = some q ∧ q.pop? = some ((Level.prio k, m), q') ∧
      s' = { s with
        queue := some q'
        in_buffer := some (m ++ (b.map fun _ => 0).drop m.length)
        printed := s.printed ++ [(k.name, m)] } := by
  obtain ⟨b, hb, hs⟩ := Option.bind_eq_some_iff.1 hs
  obtain ⟨q, hq, hs⟩ := Option.bind_eq_some_iff.1 hs
  obtain ⟨⟨⟨priority, m⟩, q'⟩, hpop, rfl⟩ := Option.map_eq_some_iff.1 hs
  obtain ⟨hm, hlen, k, hk⟩ := h.messages q hq _ (PriorityQueue.mem_of_pop hpop).1
  dsimp only at hm hlen hk
  subst hk
  have hshow : showMessage b k.prio m = (m ++ (b.map fun _ => 0).drop m.length, [(k.name, m)]) := by
    simp only [showMessage, prioMsg_prio, cstr_message (h.buffer b hb) hm hlen]
    rfl
  exact ⟨b, q, q', k, m, hb, hq, hpop, by simp only [hshow]⟩

/-! ## One step -/

theorem LogInv.setLogger {s : Logging} (h : LogInv s) (p : Pid) (l : Logger) : LogInv (s.setLogger p l) :=
  ⟨h.buffer, h.messages⟩

theorem connect_eq (p : Pid) (s : Logging) : ∃ l, connectLogServer p s = s.setLogger p l := by
  unfold connectLogServer
  split <;> exact ⟨_, rfl⟩

theorem log_step {s s' : Logging} {a : LogAct} (h : LogInv s) (hs : logStep s a = some s') : LogInv s' := by
  cases a with
  | connect p =>
    obtain ⟨l, hl⟩ := connect_eq p s
    rw [← Option.some.inj hs, hl]
    exact h.setLogger p l
  | close p =>
    rw [← Option.some.inj hs]
    exact h.setLogger p _
  | log k p msg =>
    rcases log_cases k p msg s with ⟨-, he⟩ | ⟨q, q', hq, hpush, hlen, -, he⟩
    · rw [logStep, he, Option.some.injEq] at hs
      exact hs ▸ h
    · rw [logStep, he, Option.some.injEq] at hs
      subst hs
      refine ⟨h.buffer, fun q₁ hq₁ e he => ?_⟩
      rw [← Option.some.inj hq₁] at he
      rcases PriorityQueue.mem_of_push hpush e he with rfl | he
      · exact ⟨logLine_nul p.1 msg, hlen, k, rfl⟩
      · exact h.messages q hq e he
  | start garbage =>
    obtain ⟨⟨-, hg⟩, hs⟩ := Option.ite_none_right_eq_some.1 hs
    rw [← Option.some.inj hs]
    refine ⟨fun b hb => by rw [← Option.some.inj hb, hg], fun q hq => ?_⟩
    rw [openServer, Option.some.injEq] at hq
    cases hold : s.queue with
    | none =>
      rw [hold] at hq
      rw [← hq]
      intro e he
      cases he
    | some q₀ =>
      rw [hold] at hq
      exact hq ▸ h.messages q₀ hold
  | stop =>
    obtain ⟨-, hs⟩ := Option.ite_none_left_eq_some.1 hs
    rw [← Option.some.inj hs]
    exact ⟨fun b hb => (by cases hb), h.messages⟩
  | serve =>
    obtain ⟨b, q, q', k, m, hb, hq, hpop, rfl⟩ := serve_spec h hs
    obtain ⟨hmem, hold⟩ := PriorityQueue.mem_of_pop hpop
    refine ⟨fun b' hb' => ?_, fun q₁ hq₁ e he => ?_⟩
    · have hlen := (h.messages q hq _ hmem).2.1
      have hb := h.buffer b hb
      rw [← Option.some.inj hb', List.length_append, List.length_drop, List.length_map]
      simp only [msgBufferSize, maxMsgSize] at *
      omega
    · rw [← Option.some.inj hq₁] at he
      exact h.messages q hq e (hold e he)

theorem log_inv {s : Logging} (h : logMachine.Reaches s) : LogInv s := by
  apply h.inv (I := LogInv)
  · intro s hs
    rw [hs]
    exact ⟨fun b hb => (by cases hb), fun q hq => (by cases hq)⟩
  · intro _ _ _ hi _ hs
    exact log_step hi hs

/-- A step appends what it puts into the queue to the lines that wait, or it
prints the first line of the highest level that has one. -/
theorem lines_cases {s s' : Logging} {a : LogAct} (h : LogInv s) (hs : logStep s a = some s') :
    (s'.printed = s.printed ∧ ∀ k, s'.waiting k = s.waiting k ++ acceptedAt k [(s, a)]) ∨
      ∃ k m, s'.printed = s.printed ++ [(Level.name k, m)] ∧ s.waiting k = m :: s'.waiting k ∧
        (∀ k', k' ≠ k → s'.waiting k' = s.waiting k') ∧ (∀ k', k.prio < Level.prio k' → s.waiting k' = []) ∧
        ∀ k', acceptedAt k' [(s, a)] = [] := by
  cases a with
  | connect p =>
    obtain ⟨l, hl⟩ := connect_eq p s
    rw [← Option.some.inj hs, hl]
    exact .inl ⟨rfl, fun k => (List.append_nil _).symm⟩
  | close p =>
    rw [← Option.some.inj hs]
    exact .inl ⟨rfl, fun k => (List.append_nil _).symm⟩
  | log k' p msg =>
    left
    rcases log_cases k' p msg s with ⟨ha, he⟩ | ⟨q, q', hq, hpush, -, ha, he⟩
    · rw [logStep, he, Option.some.injEq] at hs
      subst hs
      exact ⟨rfl, fun k => by simp [acceptedAt, ha]⟩
    · rw [logStep, he, Option.some.injEq] at hs
      subst hs
      refine ⟨rfl, fun k => ?_⟩
      have hlevel := PriorityQueue.level_push hpush k.prio
      by_cases hk : k' = k
      · subst hk
        rw [if_pos rfl] at hlevel
        simp [acceptedAt, ha, Logging.waiting, hq, hlevel]
      · rw [if_neg fun e => hk (prio_injective.1 e).symm] at hlevel
        simp [acceptedAt, ha, Logging.waiting, hq, hlevel, hk]
  | start garbage =>
    obtain ⟨-, hs⟩ := Option.ite_none_right_eq_some.1 hs
    rw [← Option.some.inj hs]
    refine .inl ⟨rfl, fun k => ?_⟩
    cases hq : s.queue <;> simp [openServer, acceptedAt, accepted, Logging.waiting, hq]
  | stop =>
    obtain ⟨-, hs⟩ := Option.ite_none_left_eq_some.1 hs
    rw [← Option.some.inj hs]
    exact .inl ⟨rfl, fun k => (List.append_nil _).symm⟩
  | serve =>
    obtain ⟨b, q, q', k, m, -, hq, hpop, rfl⟩ := serve_spec h hs
    obtain ⟨hlevel, hhigher⟩ := PriorityQueue.level_pop hpop
    refine .inr ⟨k, m, rfl, ?_, fun k' hk => ?_, fun k' hk => ?_, fun k' => rfl⟩
    · rw [Logging.waiting, hq]
      exact (hlevel k.prio).trans (if_pos rfl)
    · rw [Logging.waiting, Logging.waiting, hq]
      exact ((hlevel k'.prio).trans (if_neg fun e => hk (prio_injective.1 e))).symm
    · rw [Logging.waiting, hq]
      exact hhigher k'.prio hk

/-! ## Every run -/

theorem acceptedAt_append (k : Level) (tr tr' : List (Logging × LogAct)) :
    acceptedAt k (tr ++ tr') = acceptedAt k tr ++ acceptedAt k tr' :=
  List.filterMap_append

/-- At each level, the lines that were printed and those that wait are the
lines that were put into the queue, in the order in which they were, whatever
process sent them and whether log servers were stopped and started in between. -/
theorem printed_in_order {s : Logging} {tr : List (Logging × LogAct)} (h : logMachine.Run .start tr s) (k : Level) :
    s.printedAt k ++ s.waiting k = acceptedAt k tr := by
  induction h with
  | nil => rfl
  | @snoc tr t a u hr hs ih =>
    rw [acceptedAt_append, ← ih]
    rcases lines_cases (log_inv (hr.reaches rfl).1) hs with ⟨hp, hw⟩ | ⟨k', m, hp, hw, hother, -, hnone⟩
    · rw [Logging.printedAt, hp, hw k, ← List.append_assoc, Logging.printedAt]
    · rw [hnone k, List.append_nil, Logging.printedAt, hp, List.filterMap_append, List.append_assoc]
      by_cases hk : k' = k
      · subst hk
        simp [Logging.printedAt, hw]
      · have hname : ¬k'.name = k.name := fun e => hk (name_injective.1 e)
        simp [Logging.printedAt, hother k (Ne.symm hk), hname]

def seven : Pid := ⟨7, Nat.le_of_ble_eq_true rfl⟩

def twelve : Pid := ⟨12, Nat.le_of_ble_eq_true rfl⟩

/-- Two processes log while the server is stopped and started again. -/
def twoProcesses : List LogAct :=
  [.start (List.replicate 266 7), .connect seven, .connect twelve, .log .info seven Db.ana, .log .error twelve Db.eva,
    .serve, .stop, .start (List.replicate 266 7), .serve]

set_option maxRecDepth 20000 in
theorem printed_in_order_two : ∃ tr s, logMachine.Run .start tr s ∧
    s.printed = [("ERROR", [49, 50, 62, 101, 10]), ("INFO", [55, 62, 97, 10])] ∧
    s.printedAt .info ++ s.waiting .info = acceptedAt .info tr := by
  obtain ⟨tr, s, hr, hp⟩ : ∃ tr s, logMachine.Run .start tr s ∧
      s.printed = [("ERROR", [49, 50, 62, 101, 10]), ("INFO", [55, 62, 97, 10])] :=
    ⟨_, _, Machine.run_of_trace (l := twoProcesses) rfl, rfl⟩
  exact ⟨tr, s, hr, hp, printed_in_order hr .info⟩

/-- What an error line looks like when it is printed. -/
abbrev errorLine (m : Bytes) : String × Bytes := (Level.error.name, m)

theorem length_waiting_le (s : Logging) (k : Level) : (s.waiting k).length ≤ maxMessages := by
  unfold Logging.waiting
  split
  · exact Nat.zero_le _
  · exact PriorityQueue.length_level_le _ _

/-- No level is above that of errors. -/
theorem prio_lt_error {k : Level} (h : k ≠ .error) : k.prio < Level.error.prio := by
  cases k
  · decide
  · decide
  · exact absurd rfl h

/-- Until the errors that waited at first are all printed, nothing else is. -/
theorem errors_steps {s t : Logging} (h : logMachine.Reaches s) (hst : logMachine.StepsBy (fun _ _ => True) s t) :
    ∃ lines, t.printed = s.printed ++ lines ∧
      ((∃ done rest later, s.waiting .error = done ++ rest ∧ lines = done.map errorLine ∧
          t.waiting .error = rest ++ later) ∨
        (s.waiting .error).map errorLine <+: lines) := by
  induction hst with
  | refl => exact ⟨[], by simp, .inl ⟨[], _, [], rfl, rfl, (List.append_nil _).symm⟩⟩
  | @tail t a u hst _ hs ih =>
    obtain ⟨lines, hp, ih⟩ := ih
    rcases lines_cases (log_inv (hst.reachesBy h)) hs with ⟨hu, hw⟩ | ⟨k, m, hu, hw, -, hhigh, -⟩
    · refine ⟨lines, hu.trans hp, ih.imp_left ?_⟩
      rintro ⟨done, rest, later, he, hl, ht⟩
      exact ⟨done, rest, later ++ acceptedAt .error [(t, a)], he, hl, by rw [hw, ht, List.append_assoc]⟩
    · refine ⟨lines ++ [(k.name, m)], by rw [hu, hp, List.append_assoc], ?_⟩
      rcases ih with ⟨done, rest, later, he, rfl, ht⟩ | hall
      · cases rest with
        | nil =>
          -- They are all printed.
          right
          rw [he, List.append_nil]
          exact List.prefix_append _ _
        | cons e rest =>
          left
          -- An error waits, so an error is printed, and it is the first one.
          have hk : k = .error := by
            by_contra hk
            rw [hhigh .error (prio_lt_error hk)] at ht
            cases ht
          subst hk
          rw [hw, List.cons_append, List.cons.injEq] at ht
          obtain ⟨rfl, ht⟩ := ht
          exact ⟨done ++ [m], rest, later, by simp [he], by simp, ht⟩
      · exact .inr (hall.trans (List.prefix_append _ _))

/-- From a state on, the errors that wait there are printed before anything
else: what is printed begins with them as far as it goes, whatever is logged
meanwhile, and ten lines are enough for all of them. -/
theorem errors_first {s t : Logging} (h : logMachine.Reaches s) (hst : logMachine.StepsBy (fun _ _ => True) s t) :
    ∃ lines, t.printed = s.printed ++ lines ∧
      (lines <+: (s.waiting .error).map errorLine ∨ (s.waiting .error).map errorLine <+: lines) ∧
      (maxMessages ≤ lines.length → (s.waiting .error).map errorLine <+: lines) := by
  obtain ⟨lines, hp, hl⟩ := errors_steps h hst
  refine ⟨lines, hp, ?_, fun hten => ?_⟩
  · rcases hl with ⟨done, rest, later, he, rfl, -⟩ | hall
    · rw [he, List.map_append]
      exact .inl (List.prefix_append _ _)
    · exact .inr hall
  · rcases hl with ⟨done, rest, later, he, rfl, -⟩ | hall
    · -- Ten errors are all that the queue can hold.
      have hlen := length_waiting_le s .error
      rw [he, List.length_append] at hlen
      rw [List.length_map] at hten
      have hrest : rest = [] := List.eq_nil_of_length_eq_zero (by omega)
      rw [he, hrest, List.append_nil]
    · exact hall

set_option maxRecDepth 20000 in
/-- The error of the second process is printed next, before the line of the
first one. -/
theorem errors_first_two : ∃ s t : Logging, s.waiting .error = [[49, 50, 62, 101, 10]] ∧
    s.waiting .info = [[55, 62, 97, 10]] ∧ t.printed = [("ERROR", [49, 50, 62, 101, 10])] ∧
    ∃ lines, t.printed = s.printed ++ lines ∧
      (lines <+: (s.waiting .error).map errorLine ∨ (s.waiting .error).map errorLine <+: lines) ∧
      (maxMessages ≤ lines.length → (s.waiting .error).map errorLine <+: lines) := by
  obtain ⟨s, t, hs, ht, hw, hi, hp⟩ : ∃ s t : Logging, logMachine.Reaches s ∧ logStep s .serve = some t ∧
      s.waiting .error = [[49, 50, 62, 101, 10]] ∧ s.waiting .info = [[55, 62, 97, 10]] ∧
      t.printed = [("ERROR", [49, 50, 62, 101, 10])] :=
    ⟨_, _, Machine.reachesBy_of_runActs (l := twoProcesses.take 5) (.init rfl) rfl, rfl, rfl, rfl, rfl⟩
  exact ⟨s, t, hw, hi, hp, errors_first hs (.tail .refl trivial ht)⟩

end Snuffin.Log
