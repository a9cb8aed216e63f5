import Snuffin.Screen
import Snuffin.Announcements
import Snuffin.Requests
import Snuffin.Results
/-!
# From the ticks of a game to the screens

What a connection is sent from the start of its game to its result: a board
for every tick, notices in between, and no BOOLEAN before the result. So
`startGame` draws the boards of the ticks and ends with the result.
-/
open Lib Snuffin.Game Snuffin.ComWrapper Snuffin.Marshalling Snuffin.Client

namespace Snuffin.ChildServer

variable {M : Type} {cd : Codec M}

/-! ## What a run sends -/

/-- What a step of a round sends and asks. -/
def effects (cd : Codec M) (s : Round) : RoundAct M → List Effect
  | .request n db junk res d => ((resolveRequest cd db junk res d n { s.server with out := [] }).map Server.out).getD []
  | .tick off => ((tick off { s.server with out := [] }).map Server.out).getD []
  | .accept _ | .initBoard _ | .loadSnake _ | .loaded => []

/-- The messages that some effects send on connection `con`. -/
def sentTo (con : Nat) (es : List Effect) : List Msg := (mail es con 0).map Packet.msg

/-- The messages that the steps of a run send on connection `con`. -/
def inbox (cd : Codec M) (con : Nat) (tr : List (Round × RoundAct M)) : List Msg :=
  tr.flatMap fun e => sentTo con (effects cd e.1 e.2)

/-- The boards after the ticks of a run. -/
def tickBoards (tr : List (Round × RoundAct M)) : List GameBoard :=
  tr.filterMap fun e => match e.2 with
    | .tick off => e.1.server.gameBoard.map fun b => (updateBoard off b).board
    | _ => none

/-- What is sent besides boards and BOOLEANs: the number of a slot that was
left, and players. -/
def Notice : Msg → Prop
  | .string s => ∃ n, s = slotText n
  | .player _ => True
  | .boolean _ | .board _ => False

theorem mem_sentTo {con : Nat} {es : List Effect} {m : Msg} : m ∈ sentTo con es ↔ ∃ why, .send why con m ∈ es := by
  simp only [sentTo, mail, List.mem_map, List.mem_filterMap]
  constructor
  · rintro ⟨x, ⟨e, he, hx⟩, rfl⟩
    cases e with
    | send why k m =>
      obtain ⟨rfl, ⟨⟩⟩ := Option.ite_none_right_eq_some.1 hx
      exact ⟨why, he⟩
    | _ => cases hx
  · rintro ⟨why, he⟩
    exact ⟨⟨why, 0, m⟩, ⟨_, he, if_pos rfl⟩, rfl⟩

theorem notice_of_new {t : Table} {n : Slot} {c : Client} {why : Why} {con : Nat} {m : Msg}
    (h : .send why con m ∈ newPlayerNotices t n c) : Notice m := by
  obtain ⟨i, ci, -, hi⟩ := mem_forClients.1 h
  obtain ⟨-, hi⟩ := Option.ite_none_right_eq_some.1 hi
  cases hi
  trivial

theorem notice_of_existing {t : Table} {c : Client} {why : Why} {con : Nat} {m : Msg}
    (h : .send why con m ∈ existingPlayersNotices t c) : Notice m := by
  obtain ⟨i, ci, -, hi⟩ := mem_forClients.1 h
  cases hi
  trivial

theorem notice_of_leave {t : Table} {n : Slot} {why : Why} {con : Nat} {m : Msg} (h : .send why con m ∈ leaveNotices t n) :
    Notice m := by
  obtain ⟨i, ci, -, hi⟩ := mem_forClients.1 h
  obtain ⟨-, hi⟩ := Option.ite_none_right_eq_some.1 hi
  cases hi
  exact ⟨n, rfl⟩

/-- Leaving sends nothing but its notices. -/
theorem disconnect_sends {n : Slot} {c : Client} {sv : Server} {why : Why} {con : Nat} {m : Msg}
    (h : .send why con m ∈ (disconnect n c { sv with out := [] }).out) : .send why con m ∈ leaveNotices sv.clients n := by
  have hout : (disconnect n c { sv with out := [] }).out = leaveNotices sv.clients n ++ [.freeName c.name] := rfl
  rw [hout] at h
  rcases List.mem_append.1 h with h | h
  · exact h
  · cases List.mem_singleton.1 h

/-- Unless it starts the game, a message sends notices to everybody but its
sender, and to that one too once it plays. -/
theorem Resolved.notices {db : Db} {d : M} {n : Slot} {c : Client} {t t' : Table} {es : List Effect}
    (h : Resolved cd db d n c t t' es false) {con : Nat} (hself : con = c.con → c.expecting = .movement) {why : Why}
    {msg : Msg} (hsend : .send why con msg ∈ es) : Notice msg := by
  have hreply : ∀ {why' : Why} {msg' : Msg}, c.expecting ≠ .movement →
      Effect.send why con msg ≠ .send why' c.con msg' := by
    rintro why' msg' hne heq
    exact hne (hself (Effect.send.inj heq).2.1)
  cases h with
  | kept _ hkept =>
    rcases hkept with rfl | ⟨p, rfl, -⟩
    · cases hsend
    · cases List.mem_singleton.1 hsend
  | named _ _ _ _ _ hu _ hnone =>
    rcases List.mem_append.1 hsend with hsend | hsend
    · exact absurd hsend (hnone why con msg)
    · exact absurd (List.mem_singleton.1 hsend) (hreply (by simp [hu]))
  | refused _ _ hp =>
    simp only [List.mem_cons, reduceCtorEq, false_or, List.not_mem_nil, or_false] at hsend
    exact absurd hsend (hreply (by simp [hp]))
  | rejected _ hp =>
    simp only [List.mem_cons, reduceCtorEq, false_or, List.mem_append] at hsend
    rcases hsend with hsend | hsend | hsend
    · exact absurd hsend (hreply (by simp [hp]))
    · exact notice_of_new hsend
    · exact notice_of_existing hsend
  | admitted asked _ _ hasked =>
    simp only [List.mem_cons, List.mem_append] at hsend
    rcases hsend with hsend | hsend | hsend | hsend
    · rcases hasked with ⟨-, p, ans, rfl, -⟩ | ⟨-, p, rfl⟩
      · cases hsend
      · cases hsend
    · refine absurd hsend (hreply ?_)
      rcases hasked with ⟨hp, -⟩ | ⟨hp, -⟩
      · simp [hp]
      · simp [hp]
    · exact notice_of_new hsend
    · exact notice_of_existing hsend
  | toggled => exact notice_of_new hsend

/-- At the start everybody is ready. -/
theorem Resolved.all_ready {db : Db} {d : M} {n m : Slot} {c cm : Client} {t t' : Table} {es : List Effect}
    (h : Resolved cd db d n c t t' es true) (hm : t m = some cm) :
    c.expecting = .readyToPlay ∧ (m ≠ n → cm.state = .readyPlay) := by
  cases h with
  | started u hr hu hall =>
    refine ⟨hr, fun hmn => (allReady_iff.1 hall).1 m cm ?_⟩
    rw [hu, Function.update_of_ne hmn, hm]

/-- A tick sends its board to everybody in the table, and nothing else. -/
theorem effects_tick {off : Slot → UInt8} {s : Server} {b : GameBoard} {sv : Server} (hb : s.gameBoard = some b)
    (hl : playersLost (updateBoard off b).lost s = some sv) :
    ((tick off { s with out := [] }).map Server.out).getD [] = boardNotices sv.clients (updateBoard off b).board := by
  obtain ⟨hocc, hsv⟩ := playersLost_some hl
  obtain ⟨sv', hsv', -, -, hout, ht⟩ := playersLost_spec (updateBoard off b).lost { s with out := [] } hocc
  have htick : tick off { s with out := [] } = some (ticked (updateBoard off b).board sv') :=
    Option.bind_eq_some_iff.2 ⟨b, hb, Option.map_eq_some_iff.2 ⟨sv', hsv', rfl⟩⟩
  have hclients : sv'.clients = sv.clients := by
    funext i
    rw [ht i, hsv i]
  have hnotices : (ticked (updateBoard off b).board sv').out = sv'.out ++ boardNotices sv'.clients (updateBoard off b).board :=
    rfl
  rw [htick, Option.map_some, Option.getD_some, hnotices, hout, List.nil_append, hclients]

/-- A tick sends a client its board. -/
theorem sentTo_tick {off : Slot → UInt8} {s : Server} {b : GameBoard} {sv : Server} (hb : s.gameBoard = some b)
    (hl : playersLost (updateBoard off b).lost s = some sv) (ha : Apart s.clients) {m : Slot} {con : Nat}
    (hm : cons s.clients m = some con) :
    sentTo con (((tick off { s with out := [] }).map Server.out).getD []) = [.board (updateBoard off b).board.gB] := by
  have hcons : cons sv.clients = cons s.clients := (playersLost_cons hl).1
  obtain ⟨cm, hcm, rfl⟩ := cons_eq_some.1 (hcons ▸ hm)
  have ha' : Apart sv.clients := by
    intro i j k hi hj
    rw [hcons] at hi hj
    exact ha i j k hi hj
  rw [effects_tick hb hl, sentTo, boardNotices, mail_forClients ha' hcm]
  · simp [mail]
  · intro i ci e he
    exact ⟨_, _, (Option.some.inj he).symm⟩

/-! ## Clients of the game -/

/-- Who was moved to PLAYING and is still there is past the lobby. -/
structure InPlay (s : Round) : Prop where
  below : ∀ con ∈ s.moved, con < s.nextCon
  plays : ∀ n c, s.server.clients n = some c → c.con ∈ s.moved → c.expecting = .movement ∧ c.state ≠ .readyPlay

theorem InPlay.keep {s s' : Round} (h : InPlay s) (hn : s'.nextCon = s.nextCon) (hm : s'.moved = s.moved)
    (hc : ∀ n c', s'.server.clients n = some c' →
      ∃ c, s.server.clients n = some c ∧ c'.con = c.con ∧ c'.expecting = c.expecting ∧
        (c'.state = .readyPlay → c.state = .readyPlay)) : InPlay s' where
  below con hcon := by
    rw [hn]
    exact h.below con (hm ▸ hcon)
  plays n c' hc' hcon := by
    obtain ⟨c, hcn, hcc, he, hs⟩ := hc n c' hc'
    obtain ⟨h1, h2⟩ := h.plays n c hcn (by rw [← hcc, ← hm]; exact hcon)
    exact ⟨he.trans h1, fun hr => h2 (hs hr)⟩

theorem InPlay.same {s s' : Round} (h : InPlay s) (hn : s'.nextCon = s.nextCon) (hm : s'.moved = s.moved)
    (hc : s'.server.clients = s.server.clients) : InPlay s' :=
  h.keep hn hm fun _ c' hc' => ⟨c', hc ▸ hc', rfl, rfl, id⟩

/-- Effects with no start message move nobody. -/
theorem started_eq_nil {es : List Effect} (h : ∀ e ∈ es, isStart e = false) : started es = [] := by
  apply List.filterMap_eq_nil_iff.2
  intro e he
  have hno := h e he
  cases e with
  | send why con m =>
    cases why with
    | start => cases hno
    | _ => rfl
  | _ => rfl

theorem InPlay.message {s : Round} (ht : TableInv s) (h : InPlay s) {db : Db} {d : M} {n : Slot} {c : Client} {sv : Server}
    {es : List Effect} {b : Bool} (hc : s.server.clients n = some c)
    (hres : Resolved cd db d n c s.server.clients sv.clients es b) (hout : sv.out = es) :
    InPlay { s with server := sv, moved := s.moved ++ started sv.out } := by
  rw [hout]
  cases b with
  | false =>
    rw [started_eq_nil hres.own.2, List.append_nil]
    refine ⟨h.below, fun m c' hm hcon => ?_⟩
    have hp : ∀ c₀, s.server.clients m = some c₀ → c₀.con = c'.con → c₀.expecting = .movement ∧ c₀.state ≠ .readyPlay := by
      intro c₀ h₀ he
      exact h.plays m c₀ h₀ (he ▸ hcon)
    exact h.plays m c' (hres.playing hc hm hp) hcon
  | true =>
    refine ⟨fun con hcon => ?_, fun m c' hm _ => ?_⟩
    · rcases List.mem_append.1 hcon with hcon | hcon
      · exact h.below con hcon
      · obtain ⟨e, he, hs⟩ := List.mem_filterMap.1 hcon
        obtain ⟨msg, rfl⟩ : ∃ msg, e = .send .start con msg := by
          cases e with
          | send why k msg =>
            cases why with
            | start => exact ⟨msg, by rw [← Option.some.inj hs]⟩
            | _ => cases hs
          | _ => cases hs
        rcases hres.sends he with rfl | ⟨i, ci, hi, rfl, -⟩
        · exact ht.below n c.con (cons_eq_some.2 ⟨c, hc, rfl⟩)
        · exact ht.below i ci.con (cons_eq_some.2 ⟨ci, hi, rfl⟩)
    · generalize sv.clients = t' at hres hm
      cases hres with
      | started u _ _ _ =>
        obtain ⟨c₀, -, rfl⟩ := Option.map_eq_some_iff.1 hm
        exact ⟨rfl, by simp [Client.start]⟩

theorem inPlay_step {s s' : Round} {a : RoundAct M} (ht : TableInv s) (h : InPlay s) (hs : roundStep cd s a = some s') :
    InPlay s' := by
  have hcases := round_cases hs
  cases a with
  | accept n =>
    obtain ⟨-, rfl⟩ := hcases
    refine ⟨fun con hcon => Nat.lt_succ_of_lt (h.below con hcon), fun m c hm hcon => ?_⟩
    by_cases hmn : m = n
    · subst hmn
      rw [setClient_clients, Function.update_self, Option.some.injEq] at hm
      subst hm
      exact absurd (h.below s.nextCon hcon) (Nat.lt_irrefl _)
    · rw [setClient_clients, Function.update_of_ne hmn] at hm
      exact h.plays m c hm hcon
  | request n db junk res d =>
    obtain ⟨sv, hr, rfl⟩ := hcases
    cases res with
    | false =>
      obtain ⟨c, -, rfl⟩ := resolve_closed hr
      have hnone : started (disconnect n c { s.server with out := [] }).out = [] :=
        started_eq_nil (starts_leave s.server.clients c)
      refine h.keep rfl (by rw [hnone, List.append_nil]) fun m c' hm => ⟨c', ?_, rfl, rfl, id⟩
      by_cases hmn : m = n
      · subst hmn
        simp [disconnect] at hm
      · simpa [disconnect, hmn] using hm
    | true =>
      obtain ⟨c, hc, es, b, hres, hout, -⟩ := resolve_cases hr
      exact h.message ht hc hres hout
  | initBoard garbage =>
    obtain ⟨-, -, rfl⟩ := hcases
    exact h.same rfl rfl rfl
  | loadSnake n =>
    obtain ⟨-, ⟨-, rfl⟩ | ⟨c, b, -, -, rfl⟩⟩ := hcases
    · exact h.same rfl rfl rfl
    · exact h.same rfl rfl rfl
  | loaded =>
    obtain ⟨-, rfl⟩ := hcases
    exact h.same rfl rfl rfl
  | tick off =>
    obtain ⟨-, b, sv, -, hl, rfl⟩ := hcases
    refine h.keep rfl rfl fun m c' hm => ?_
    have hsv := (playersLost_some hl).2 m
    rw [show sv.clients m = some c' from hm] at hsv
    split at hsv
    · obtain ⟨c, hc, rfl⟩ := Option.map_eq_some_iff.1 hsv.symm
      exact ⟨c, hc, rfl, rfl, fun hr => by cases hr⟩
    · exact ⟨c', hsv.symm, rfl, rfl, id⟩

theorem inPlay {ok : Round → RoundAct M → Prop} {s : Round} (h : (roundMachine cd).ReachesBy ok s) : InPlay s := by
  induction h with
  | init hs =>
    obtain rfl : _ = Round.start := hs
    exact ⟨fun _ hcon => absurd hcon List.not_mem_nil, fun _ _ hn => by cases hn⟩
  | step hr _ hs ih => exact inPlay_step (table_inv hr) ih hs

/-! ## What is on the board -/

/-- Every cell is free or a player's. -/
def Colored (gB : Cell → UInt8) : Prop := ∀ c, (gB c).toNat < 5

theorem slotMark_lt : ∀ i : Slot, (slotMark i).toNat < 5 := by decide

theorem Colored.mark {b : GameBoard} (h : Colored b.gB) (p : Point) (i : Slot) : Colored (b.mark p (slotMark i)).gB := by
  unfold GameBoard.mark
  split
  · intro c
    unfold GameBoard.markCell
    dsimp only
    rw [Function.update_apply]
    split
    · exact slotMark_lt i
    · exact h c
  · exact h

theorem Colored.turn {off : UInt8} {t : Tick} (h : Colored t.board.gB) (i : Slot) : Colored (turn off t i).board.gB := by
  rcases turn_cases off t i with ⟨-, he⟩ | ⟨-, -, he⟩ | ⟨-, -, -, he⟩
  · rw [he]
    exact h
  · rw [he]
    exact h
  · rw [he]
    exact h.mark _ i

theorem Colored.turns {off : Slot → UInt8} (l : List Slot) {t : Tick} (h : Colored t.board.gB) :
    Colored (turns off l t).board.gB := by
  induction l generalizing t with
  | nil => exact h
  | cons i l ih => exact ih (h.turn i)

theorem Colored.loaded {b : GameBoard} (h : Colored b.gB) (i : Slot) : Colored (b.loaded i).gB := by
  intro c
  have hg : (b.loaded i).gB c = if c ∈ body i then slotMark i else b.gB c := (markCells_at b (body i) (slotMark i) c).2
  rw [hg]
  split
  · exact slotMark_lt i
  · exact h c

theorem colored_step {s s' : Round} {a : RoundAct M} (h : ∀ b, s.server.gameBoard = some b → Colored b.gB)
    (hs : roundStep cd s a = some s') : ∀ b, s'.server.gameBoard = some b → Colored b.gB := by
  have hcases := round_cases hs
  cases a with
  | accept n =>
    obtain ⟨-, rfl⟩ := hcases
    exact h
  | request n db junk res d =>
    obtain ⟨sv, hr, rfl⟩ := hcases
    intro b hb
    rcases resolve_board hr with he | ⟨c, p, -, -, -, -, he⟩
    · exact h b (he.symm.trans hb)
    · obtain ⟨b', hb', rfl⟩ := Option.map_eq_some_iff.1 (he.symm.trans hb)
      exact h b' hb'
  | initBoard garbage =>
    obtain ⟨-, -, rfl⟩ := hcases
    intro b hb
    rw [← Option.some.inj hb]
    exact fun _ => Nat.zero_lt_succ 4
  | loadSnake n =>
    obtain ⟨-, ⟨-, rfl⟩ | ⟨c, b', -, hb', rfl⟩⟩ := hcases
    · exact h
    · intro b hb
      rw [← Option.some.inj hb]
      exact (h b' hb').loaded n
  | loaded =>
    obtain ⟨-, rfl⟩ := hcases
    exact h
  | tick off =>
    obtain ⟨-, b', sv, hb', -, rfl⟩ := hcases
    intro b hb
    rw [← Option.some.inj hb]
    exact (h b' hb').turns (List.finRange maxPlayers)

theorem colored_inv {ok : Round → RoundAct M → Prop} {s : Round} (h : (roundMachine cd).ReachesBy ok s) :
    ∀ b, s.server.gameBoard = some b → Colored b.gB := by
  apply h.inv (I := fun s => ∀ b, s.server.gameBoard = some b → Colored b.gB)
  · intro s hs b hb
    rw [hs] at hb
    cases hb
  · intro _ _ _ hi _ hs
    exact colored_step hi hs

/-! ## What a client of the game is sent -/

/-- A notice, or a board. -/
def Told (m : Msg) : Prop := Notice m ∨ ∃ gB, m = .board gB ∧ Colored gB

/-- The boards among some messages. -/
def boardsIn (l : List Msg) : List (Cell → UInt8) := l.filterMap fun
  | .board gB => some gB
  | _ => none

theorem boardsIn_notices {l : List Msg} (h : ∀ m ∈ l, Notice m) : boardsIn l = [] := by
  apply List.filterMap_eq_nil_iff.2
  intro m hm
  have hn := h m hm
  cases m with
  | board gB => exact hn.elim
  | _ => rfl

/-- Who is connected after a step and is not new was connected before it. -/
theorem cons_before {s s' : Round} {a : RoundAct M} (hs : roundStep cd s a = some s') {n : Slot} {con : Nat}
    (hm : cons s'.server.clients n = some con) (hlt : con < s.nextCon) : cons s.server.clients n = some con := by
  obtain ⟨c', hc', rfl⟩ := cons_eq_some.1 hm
  rcases round_next hs hc' with ⟨c, hc, hn | ⟨-, rfl⟩⟩ | rfl
  · refine cons_eq_some.2 ⟨c, hc, ?_⟩
    cases hn <;> rfl
  · exact cons_eq_some.2 ⟨c, hc, rfl⟩
  · exact absurd hlt (Nat.lt_irrefl _)

/-- A step sends a client of the game notices, or the board of a tick. -/
theorem sentTo_step {s s' : Round} {a : RoundAct M} (ht : TableInv s) (hp : InPlay s)
    (hcol : ∀ b, s'.server.gameBoard = some b → Colored b.gB) (hs : roundStep cd s a = some s') {m : Slot} {con : Nat}
    (hmoved : con ∈ s.moved) (hm : cons s.server.clients m = some con) :
    (∀ msg ∈ sentTo con (effects cd s a), Told msg) ∧
      boardsIn (sentTo con (effects cd s a)) = (tickBoards [(s, a)]).map GameBoard.gB := by
  have hnotices : (∀ msg ∈ sentTo con (effects cd s a), Notice msg) → tickBoards [(s, a)] = [] →
      (∀ msg ∈ sentTo con (effects cd s a), Told msg) ∧
        boardsIn (sentTo con (effects cd s a)) = (tickBoards [(s, a)]).map GameBoard.gB := by
    intro hn hb
    rw [hb, boardsIn_notices hn]
    exact ⟨fun msg hmsg => .inl (hn msg hmsg), rfl⟩
  have hcases := round_cases hs
  cases a with
  | request n db junk res d =>
    obtain ⟨sv, hr, rfl⟩ := hcases
    apply hnotices _ rfl
    intro msg hmsg
    obtain ⟨why, hsend⟩ := mem_sentTo.1 hmsg
    rw [effects, hr] at hsend
    obtain ⟨cm, hcm, rfl⟩ := cons_eq_some.1 hm
    cases res with
    | false =>
      obtain ⟨c, -, rfl⟩ := resolve_closed hr
      exact notice_of_leave (disconnect_sends hsend)
    | true =>
      obtain ⟨c, hc, es, b, hres, hout, -⟩ := resolve_cases hr
      obtain ⟨he, hst⟩ := hp.plays m cm hcm hmoved
      rw [Option.map_some, Option.getD_some, hout] at hsend
      have hself : m = n → c = cm := by
        rintro rfl
        exact Option.some.inj (hc.symm.trans hcm)
      cases b with
      | false =>
        refine hres.notices (fun hcon => ?_) hsend
        have hmn := ht.apart m n c.con (cons_eq_some.2 ⟨cm, hcm, hcon⟩) (cons_eq_some.2 ⟨c, hc, rfl⟩)
        rw [hself hmn]
        exact he
      | true =>
        -- A client of the game is not ready.
        obtain ⟨hr, hready⟩ := hres.all_ready hcm
        have hmn : m ≠ n := by
          intro hmn
          rw [hself hmn, he] at hr
          cases hr
        exact absurd (hready hmn) hst
  | tick off =>
    obtain ⟨-, b, sv, hb, hl, rfl⟩ := hcases
    have hsent : sentTo con (effects cd s (.tick off)) = [.board (updateBoard off b).board.gB] :=
      sentTo_tick hb hl ht.apart hm
    have hboards : tickBoards [(s, RoundAct.tick (M := M) off)] = [(updateBoard off b).board] := by
      unfold tickBoards
      simp [hb]
    rw [hsent, hboards]
    refine ⟨fun msg hmsg => ?_, rfl⟩
    rw [List.mem_singleton.1 hmsg]
    exact .inr ⟨_, rfl, hcol _ rfl⟩
  | accept | initBoard | loadSnake | loaded => exact hnotices (fun msg hmsg => absurd hmsg List.not_mem_nil) rfl

/-- Connections are numbered upwards, and who was moved to PLAYING stays so. -/
theorem round_grows {s s' : Round} {a : RoundAct M} (hs : roundStep cd s a = some s') :
    s.nextCon ≤ s'.nextCon ∧ s.moved ⊆ s'.moved := by
  have hcases := round_cases hs
  cases a with
  | request =>
    obtain ⟨sv, -, rfl⟩ := hcases
    exact ⟨Nat.le_refl _, List.subset_append_left _ _⟩
  | accept =>
    obtain ⟨-, rfl⟩ := hcases
    exact ⟨Nat.le_succ _, List.Subset.refl _⟩
  | loadSnake n =>
    obtain ⟨-, ⟨-, rfl⟩ | ⟨c, b, -, -, rfl⟩⟩ := hcases
    · exact ⟨Nat.le_refl _, List.Subset.refl _⟩
    · exact ⟨Nat.le_refl _, List.Subset.refl _⟩
  | initBoard =>
    obtain ⟨-, -, rfl⟩ := hcases
    exact ⟨Nat.le_refl _, List.Subset.refl _⟩
  | loaded =>
    obtain ⟨-, rfl⟩ := hcases
    exact ⟨Nat.le_refl _, List.Subset.refl _⟩
  | tick =>
    obtain ⟨-, b, sv, -, -, rfl⟩ := hcases
    exact ⟨Nat.le_refl _, List.Subset.refl _⟩

theorem run_grows {s t : Round} {tr : List (Round × RoundAct M)} (h : (roundMachine cd).Run s tr t) :
    s.nextCon ≤ t.nextCon ∧ s.moved ⊆ t.moved := by
  induction h with
  | nil => exact ⟨Nat.le_refl _, List.Subset.refl _⟩
  | snoc _ hs ih => exact ⟨ih.1.trans (round_grows hs).1, List.Subset.trans ih.2 (round_grows hs).2⟩

/-- From the start on, whoever stays is sent the boards of the ticks in their
order, and notices. -/
theorem inbox_run {s t : Round} {tr : List (Round × RoundAct M)} (hs : (roundMachine cd).Reaches s)
    (h : (roundMachine cd).Run s tr t) {m : Slot} {con : Nat} (hmoved : con ∈ s.moved)
    (hm : cons t.server.clients m = some con) :
    (∀ msg ∈ inbox cd con tr, Told msg) ∧ boardsIn (inbox cd con tr) = (tickBoards tr).map GameBoard.gB := by
  induction h with
  | nil => exact ⟨fun msg hmsg => absurd hmsg List.not_mem_nil, rfl⟩
  | @snoc tr t a u hrun ht ih =>
    have hbefore := hrun.reaches_from hs
    have hmt := (run_grows hrun).2 hmoved
    have hmem := cons_before ht hm ((inPlay hbefore).below con hmt)
    obtain ⟨htold, hboards⟩ := ih hmem
    have hcol := colored_inv (hbefore.next a ht)
    obtain ⟨h1, h2⟩ := sentTo_step (table_inv hbefore) (inPlay hbefore) hcol ht hmt hmem
    have happ : inbox cd con (tr ++ [(t, a)]) = inbox cd con tr ++ sentTo con (effects cd t a) := by simp [inbox]
    have hticks : tickBoards (tr ++ [(t, a)]) = tickBoards tr ++ tickBoards [(t, a)] := List.filterMap_append
    rw [happ, hticks]
    refine ⟨List.forall_mem_append.2 ⟨htold, h1⟩, ?_⟩
    rw [boardsIn, List.filterMap_append, List.map_append, ← hboards, ← h2, boardsIn, boardsIn]

theorem sentTo_result (con : Nat) (c : Client) :
    sentTo con (resultOf c) = if c.con = con then [.boolean (decide (c.state ≠ .loose))] else [] := by
  unfold resultOf
  by_cases hcon : c.con = con <;> by_cases hl : c.state = .loose <;> simp [sentTo, mail, hcon, hl]

/-- At the end of the game a client is sent its result. -/
theorem sentTo_results {sv : Server} (ha : Apart sv.clients) {n : Slot} {c : Client} (hc : sv.clients n = some c) :
    sentTo c.con (sendResults { sv with out := [] }).out = [.boolean (decide (c.state ≠ .loose))] := by
  have hout : sentTo c.con (sendResults { sv with out := [] }).out =
      (occupied sv.clients).flatMap fun i => sentTo c.con ((sv.clients i).elim [] resultOf) := by
    simp only [sentTo, mail, sendResults, emit_out, List.nil_append, List.filterMap_flatMap, List.map_flatMap]
  -- The other slots hold other connections.
  have hothers : ∀ i, i ≠ n → sentTo c.con ((sv.clients i).elim [] resultOf) = [] := by
    intro i hi
    cases hci : sv.clients i with
    | none => rfl
    | some ci =>
      have hne : ci.con ≠ c.con := by
        intro hcon
        exact hi (ha i n c.con (cons_eq_some.2 ⟨ci, hci, hcon⟩) (cons_eq_some.2 ⟨c, hc, rfl⟩))
      exact (sentTo_result c.con ci).trans (if_neg hne)
  obtain ⟨l, l', hl⟩ := List.append_of_mem (mem_occupied.2 ⟨c, hc⟩)
  have hnodup := nodup_occupied sv.clients
  rw [hl, List.nodup_append, List.nodup_cons] at hnodup
  obtain ⟨-, ⟨hn', -⟩, hn⟩ := hnodup
  have hbefore : l.flatMap (fun i => sentTo c.con ((sv.clients i).elim [] resultOf)) = [] :=
    List.flatMap_eq_nil_iff.2 fun i hi => hothers i (hn i hi n List.mem_cons_self)
  have hafter : l'.flatMap (fun i => sentTo c.con ((sv.clients i).elim [] resultOf)) = [] :=
    List.flatMap_eq_nil_iff.2 fun i hi => hothers i fun hin => hn' (hin ▸ hi)
  rw [hout, hl, List.flatMap_append, List.flatMap_cons, hbefore, hafter, hc, List.nil_append, List.append_nil]
  exact (sentTo_result c.con c).trans (if_pos rfl)

/-! ## From messages to structs -/

/-- The board that `sendBoard` makes of `gB`. -/
def boardOf (gB : Cell → UInt8) : Board where
  board i j := if h : i < boardHeight ∧ j < boardWidth then gB (⟨i, h.1⟩, ⟨j, h.2⟩) else 0
  rows := 20
  columns := 20

/-- The struct is the message. -/
def Encodes : Msg → Struc → Prop
  | .string s, .text (.string s') => s'.val = s
  | .boolean value, .text (.boolean value') => value' = if value then 1 else 0
  | .player p, .text (.player p') => p.name = some p'.name.val ∧ p'.num.toInt = p.num.val ∧
      p.score = some p'.score.toInt ∧ p'.ready = if p.ready then 1 else 0
  | .board gB, .board s _ => s = boardOf gB
  | _, _ => False

/-- What has to be so for a struct of the game to be carried: players are, and
the memory behind the cells of a board begins with a NUL. -/
def Plain : Struc → Prop
  | .text (.player p) => (Struc.text (.player p)).Carried
  | .board _ heap => cstr heap = []
  | .text _ => True

theorem proper_boardOf {gB : Cell → UInt8} (h : Colored gB) : (boardOf gB).Proper := by
  have hsides : (boardOf gB).rows = 20 ∧ (boardOf gB).columns = 20 := ⟨rfl, rfl⟩
  refine ⟨?_, ?_, ?_, fun i j _ _ hz => ?_⟩
  · rw [hsides.1]
    decide
  · rw [hsides.2]
    decide
  · rw [hsides.1, hsides.2]
    decide
  have hcell : ((boardOf gB).board i j).toNat < 5 := by
    unfold boardOf
    dsimp only
    split
    · exact h _
    · exact Nat.zero_lt_succ 4
  have hsum := congrArg UInt8.toNat hz
  rw [UInt8.toNat_add] at hsum
  simp at hsum
  omega

/-- What a client of the game is told is carried. -/
theorem carried_of_told {m : Msg} (hm : Told m) {x : Struc} (he : Encodes m x) (hp : Plain x) :
    x.Carried ∧ ¬Ending x := by
  cases x with
  | board b heap =>
    refine ⟨?_, fun ⟨v, hv⟩ => by cases hv⟩
    cases m with
    | board gB =>
      obtain rfl : b = boardOf gB := he
      obtain hn | ⟨gB', hgB, hcol⟩ := hm
      · exact hn.elim
      · obtain rfl := Msg.board.inj hgB
        exact ⟨proper_boardOf hcol, hp, .inr rfl⟩
    | _ => exact he.elim
  | text t =>
    cases t with
    | string s' =>
      refine ⟨?_, fun ⟨v, hv⟩ => by cases hv⟩
      cases m with
      | string s =>
        obtain ⟨n, rfl⟩ | ⟨gB, hgB, -⟩ := hm
        · have hlen : s'.val.length = 1 := congrArg List.length he
          exact lt_of_eq_of_lt hlen (Nat.one_lt_succ_succ 6)
        · cases hgB
      | _ => exact he.elim
    | player p => exact ⟨hp, fun ⟨v, hv⟩ => by cases hv⟩
    | boolean v =>
      cases m with
      | boolean value =>
        obtain hn | ⟨gB, hgB, -⟩ := hm
        · exact hn.elim
        · cases hgB
      | _ => exact he.elim
    | point => cases m <;> exact he.elim
    | serverId => cases m <;> exact he.elim

theorem encoded_carried {l : List Msg} {xs : List Struc} (h : List.Forall₂ Encodes l xs) (htold : ∀ m ∈ l, Told m)
    (hplain : ∀ x ∈ xs, Plain x) : ∀ x ∈ xs, x.Carried ∧ ¬Ending x := by
  induction h with
  | nil => exact fun _ hx => absurd hx List.not_mem_nil
  | cons hmx _ ih =>
    rw [List.forall_mem_cons] at htold hplain ⊢
    exact ⟨carried_of_told htold.1 hmx hplain.1, ih htold.2 hplain.2⟩

/-- The pictures of some messages are those of their boards. -/
theorem pictures_encoded {l : List Msg} {xs : List Struc} (h : List.Forall₂ Encodes l xs) :
    pictures xs = (boardsIn l).map fun gB => printBoard (boardOf gB) := by
  induction h with
  | nil => rfl
  | @cons m x l xs hmx _ ih =>
    have hone : pictures [x] = (boardsIn [m]).map fun gB => printBoard (boardOf gB) := by
      cases m with
      | board gB =>
        cases x with
        | board b heap =>
          obtain rfl : b = boardOf gB := hmx
          rfl
        | text => exact hmx.elim
      | _ =>
        cases x with
        | board => exact hmx.elim
        | text => rfl
    rw [pictures, ← List.singleton_append, List.filterMap_append, boardsIn, ← List.singleton_append (x := m),
      List.filterMap_append, List.map_append]
    exact congrArg₂ _ hone ih

/-- The structs of some messages and a last one. -/
theorem encoded_snoc {l : List Msg} {m : Msg} {xs : List Struc} (h : List.Forall₂ Encodes (l ++ [m]) xs) :
    ∃ xs' x, xs = xs' ++ [x] ∧ List.Forall₂ Encodes l xs' ∧ Encodes m x := by
  induction l generalizing xs with
  | nil =>
    obtain ⟨x, xs', hx, hnil, rfl⟩ := List.forall₂_cons_left_iff.1 h
    obtain rfl := List.forall₂_nil_left_iff.1 hnil
    exact ⟨[], x, rfl, .nil, hx⟩
  | cons a l ih =>
    obtain ⟨y, ys, hy, hys, rfl⟩ := List.forall₂_cons_left_iff.1 h
    obtain ⟨xs', x, rfl, hl, hx⟩ := ih hys
    exact ⟨y :: xs', x, rfl, .cons hy hl, hx⟩

theorem encodes_boolean {value : Bool} {x : Struc} (h : Encodes (.boolean value) x) :
    x = .text (.boolean (if value then 1 else 0)) := by
  cases x with
  | board => exact h.elim
  | text t =>
    cases t with
    | boolean v => rw [show v = if value then 1 else 0 from h]
    | _ => exact h.elim

/-! ## The end of the game -/

section Loop
variable {ys : List Struc} {groups : List (List Struc)} {chunks : List Bytes} {w : Wrapper} {buf : Nat → StreamData}
  {loc : Nat → Locals} {k : Nat}

/-- When what a client is told ends with a BOOLEAN, `startGame` draws the boards
and returns that value. -/
theorem startGame_told {l : List Msg} {value : Bool} (htold : ∀ m ∈ l, Told m)
    (henc : List.Forall₂ Encodes (l ++ [.boolean value]) (ys ++ groups.flatten)) (hplain : ∀ x ∈ ys ++ groups.flatten, Plain x)
    (hg : InChunks groups chunks) (hw : Pending w (ys.map Struc.body)) (hys : ∀ x ∈ ys, x.body.length < bufferSize)
    (hbuf : ∀ k, (buf k).data.length = bufferSize) (hloc : ∀ k, (loc k).Zeroed) (hk : (ys ++ groups.flatten).length ≤ k) :
    ∃ ms p, readAll buf k chunks w = some ms ∧ startGame loc ms .start = some p ∧ p.playingGame = false ∧
      p.won = some (if value then 1 else 0) ∧ p.drawn = (boardsIn l).map fun gB => printBoard (boardOf gB) := by
  obtain ⟨xs, x, hxs, hin, hlast⟩ := encoded_snoc henc
  obtain rfl := encodes_boolean hlast
  have hall := encoded_carried hin htold fun x hx => hplain x (hxs ▸ List.mem_append_left _ hx)
  have hbit : (if value then (1 : Int32) else 0) = 0 ∨ (if value then (1 : Int32) else 0) = 1 := by
    split
    · exact .inr rfl
    · exact .inl rfl
  have hcarried : ∀ x ∈ ys ++ groups.flatten, x.Carried := by
    rw [hxs]
    refine List.forall_mem_append.2 ⟨fun x hx => (hall x hx).1, fun x hx => ?_⟩
    rw [List.mem_singleton.1 hx]
    exact hbit
  obtain ⟨p, hp, hend, hwon, hdrawn⟩ := startGame_ends hloc (fun x hx => (hall x hx).1) (fun x hx => (hall x hx).2) hbit
  refine ⟨_, p, readAll_bodies hg hcarried hw hys hbuf hk, ?_, hend, hwon, hdrawn.trans (pictures_encoded hin)⟩
  rw [hxs]
  exact hp

end Loop

/-- Whoever stays to the end of its game has drawn every board that the ticks
made, in their order, when `startGame` returns, and returns what the result
loop found: FALSE for a snake that was lost, TRUE otherwise. That is so
whatever the others send and in whichever chunks of whole messages it arrives,
while the steps are defined. -/
theorem plays_to_the_end {s t : Round} {tr : List (Round × RoundAct M)} (hs : (strayMachine cd).ReachesBy (Defined cd) s)
    (h : (strayMachine cd).Run s tr t) (hdef : ∀ e ∈ tr, Defined cd e.1 e.2) {n : Slot} {c : Client}
    (hc : t.server.clients n = some c) (hmoved : c.con ∈ s.moved) {ys : List Struc} {groups : List (List Struc)}
    (henc : List.Forall₂ Encodes (inbox cd c.con tr ++ sentTo c.con (sendResults { t.server with out := [] }).out)
      (ys ++ groups.flatten))
    (hplain : ∀ x ∈ ys ++ groups.flatten, Plain x) {chunks : List Bytes} (hg : InChunks groups chunks) {w : Wrapper}
    (hw : Pending w (ys.map Struc.body)) (hys : ∀ x ∈ ys, x.body.length < bufferSize) {buf : Nat → StreamData}
    (hbuf : ∀ k, (buf k).data.length = bufferSize) {loc : Nat → Locals} (hloc : ∀ k, (loc k).Zeroed) {k : Nat}
    (hk : (ys ++ groups.flatten).length ≤ k) :
    ∃ ms p, readAll buf k chunks w = some ms ∧ startGame loc ms .start = some p ∧ p.playingGame = false ∧
      p.won = some (if c.state = .loose then 0 else 1) ∧
      p.drawn = (tickBoards tr).map fun b => printBoard (boardOf b.gB) := by
  have hs := reaches_of_defined hs
  have h := h.defined hdef
  obtain ⟨htold, hboards⟩ := inbox_run hs h hmoved (cons_eq_some.2 ⟨c, hc, rfl⟩)
  rw [sentTo_results (table_inv (h.reaches_from hs)).apart hc] at henc
  obtain ⟨ms, p, hread, hplay, hend, hwon, hdrawn⟩ := startGame_told htold henc hplain hg hw hys hbuf hloc hk
  refine ⟨ms, p, hread, hplay, hend, ?_, ?_⟩
  · rw [hwon]
    by_cases hl : c.state = .loose <;> simp [hl]
  · rw [hdrawn, hboards, List.map_map]
    rfl

theorem length_boardOf {gB : Cell → UInt8} (heap : Bytes) : (Struc.board (boardOf gB) heap).body.length = 407 := by
  have htext : boardText (boardOf gB) = [53, 50, 48, 35, 50, 48, 35] := rfl
  have hheight : (boardOf gB).height = 20 := rfl
  have hwidth : (boardOf gB).width = 20 := rfl
  rw [Struc.body, htext, List.length_append, length_cells, hheight, hwidth]
  simp

/-- A notice and a board in one chunk, and TRUE in another. -/
theorem left_chunks {gB : Cell → UInt8} (htold : ∀ m ∈ [Msg.string (slotText 1), .board gB], Told m) :
    ∃ groups chunks, List.Forall₂ Encodes ([.string (slotText 1), .board gB] ++ [.boolean true]) ([] ++ groups.flatten) ∧
      (∀ x ∈ [] ++ groups.flatten, Plain x) ∧ InChunks groups chunks ∧ ([] ++ groups.flatten).length = 3 := by
  rw [List.forall_mem_cons] at htold
  obtain ⟨text, htext⟩ : ∃ text : Db.CString, text.val = slotText 1 := ⟨⟨slotText 1, by decide⟩, rfl⟩
  have hcarried : ∀ x ∈ [Struc.text (.string text), .board (boardOf gB) []], x.Carried := by
    have hstring := (carried_of_told (x := .text (.string text)) htold.1 htext trivial).1
    have hboard := (carried_of_told (x := .board (boardOf gB) []) (htold.2 _ (List.mem_singleton_self _)) rfl rfl).1
    exact List.forall_mem_cons.2 ⟨hstring, List.forall_mem_singleton.2 hboard⟩
  refine ⟨[[.text (.string text), .board (boardOf gB) []], [.text (.boolean 1)]],
    [wire 0 [(Struc.text (.string text)).body, (Struc.board (boardOf gB) []).body], [52, 49, 0]],
    .cons htext (.cons rfl (.cons rfl .nil)), by simp [Plain, cstr],
    .cons ⟨by simp, sendAll_wire hcarried, ?_⟩ (.cons ⟨by simp, rfl, by decide⟩ .nil), rfl⟩
  have hlen : (Struc.text (.string text)).body.length = 4 := by
    simp only [Struc.body, Message.text, stringText, htext]
    rfl
  simp only [wire_cons, wire_nil, List.length_append, List.length_cons, List.length_nil, hlen, length_boardOf]
  decide

/-- The second player leaves before the first tick, which ends the game. The
first one reads that, the board and TRUE. -/
theorem plays_to_the_end_left : ∃ s t tr chunks ms p, (strayMachine eagerCodec).ReachesBy (Defined eagerCodec) s ∧
    (strayMachine eagerCodec).Run s tr t ∧ t.phase = .over ∧ (tickBoards tr).length = 1 ∧
    readAll zeros 3 chunks .start = some ms ∧ startGame (fun _ => cleared) ms .start = some p ∧ p.won = some 1 ∧
    p.drawn = (tickBoards tr).map fun b => printBoard (boardOf b.gB) := by
  obtain ⟨s, hs', hmoved, r, hr, hdef, hover, hticks, gB, hinbox, c, hc, hcon, hst⟩ : ∃ s,
      (roundMachine eagerCodec).ReachesBy (Defined eagerCodec) s ∧ 0 ∈ s.moved ∧
      ∃ r, Machine.trace (roundStep eagerCodec) s (loadSnakes ++ [leaves 1, .tick fun _ => 0]) = some r ∧
      (∀ e ∈ r.1, Defined eagerCodec e.1 e.2) ∧ r.2.phase = .over ∧ (tickBoards r.1).length = 1 ∧
      ∃ gB, inbox eagerCodec 0 r.1 = [.string (slotText 1), .board gB] ∧
      ∃ c, r.2.server.clients 0 = some c ∧ c.con = 0 ∧ c.state ≠ .loose :=
    ⟨_, Machine.reachesBy_of_runActs (l := twoReady) (.init rfl) rfl, of_decide_eq_true rfl, _, rfl,
      of_decide_eq_true rfl, rfl, rfl, _, rfl, _, rfl, rfl, of_decide_eq_true rfl⟩
  have hs : (roundMachine eagerCodec).Reaches s := hs'.mono fun _ _ _ => trivial
  have hrun : (roundMachine eagerCodec).Run s r.1 r.2 := Machine.run_of_trace hr
  have htold := (inbox_run hs hrun hmoved (cons_eq_some.2 ⟨c, hc, hcon⟩)).1
  have hresult : sentTo c.con (sendResults { r.2.server with out := [] }).out = [.boolean true] := by
    rw [sentTo_results (table_inv (hrun.reaches_from hs)).apart hc]
    simp [hst]
  rw [hinbox] at htold
  rw [← hcon] at hmoved hinbox
  obtain ⟨groups, chunks, henc, hplain, hg, hlen⟩ := left_chunks htold
  rw [← hresult, ← hinbox] at henc
  have hbuf : ∀ k, (zeros k).data.length = bufferSize := fun _ => List.length_replicate
  obtain ⟨ms, p, hread, hplay, -, hwon, hdrawn⟩ := plays_to_the_end hs'.undefined hrun.undefined hdef hc hmoved henc
    hplain hg (w := .start) (.inl ⟨rfl, rfl⟩) (by simp) hbuf (fun _ => zeroed_cleared) (Nat.le_of_eq hlen)
  exact ⟨s, r.2, r.1, chunks, ms, p, hs'.undefined, hrun.undefined, hover, hticks, hread, hplay,
    by rw [hwon, if_neg hst], hdrawn⟩

end Snuffin.ChildServer
