import Snuffin.Watchers
/-!
# Where the super server sends its clients

A client tells the super server the number of a lobby, is told where to
connect to, and goes there. While `fork` succeeds, clients of one lobby go to
one place, for which a child was forked, and clients of different lobbies to
different ones.
-/
open Lib Snuffin.ComWrapper Snuffin.Marshalling

namespace Snuffin.SuperServer

/-! ## The client -/

/-- What `game` makes of the answer: `readData` and `unmarshServerId`, with
nothing read on the connection before. -/
def game (r : Received) (sd : StreamData) (l : Locals) : Option (Option Int32) :=
  (readData r sd .start).bind fun (_, sd, _) => unmarshServerId (cstr sd.data ++ [0]) l

/-- The answer is read as it was sent. -/
theorem game_answer {place : Int32} (hlen : (decimal place.toInt).length ≤ 5) {sd : StreamData}
    (hsd : sd.data.length = bufferSize) {l : Locals} (hl : Ends place.toInt l.num) :
    game (.bytes (serverIdText place ++ [0])) sd l = some (some place) := by
  have hnul : (0 : UInt8) ∉ serverIdText place := (Message.serverId place).text_nul
  have hframes : frames 0 (serverIdText place ++ [0]) = [serverIdText place] := by
    have hwire := frames_wire (List.forall_mem_singleton.2 hnul)
    rwa [wire_cons, wire_nil] at hwire
  have hfits : (serverIdText place ++ [0]).length ≤ sd.data.length := by
    have hkind : (serverIdText place).length = (decimal place.toInt).length + 1 := by
      rw [serverIdText, List.length_append, Nat.add_comm]
      rfl
    have hbuffer : bufferSize = 1024 := rfl
    rw [hsd, List.length_append, hkind, List.length_singleton]
    omega
  obtain ⟨data, w, hread, hdata, -⟩ := readData_receive (w := .start) (.inl ⟨rfl, rfl⟩) sd hfits hframes
  rw [game, hread, Option.bind_some]
  dsimp only
  rw [hdata]
  apply (unmarshServerId_eq_some (decimal_nul _) l _).2
  refine ⟨hlen, ?_⟩
  rw [number_ends hlen hl, Int32.ofInt_toInt]

/-! ## Who was forked where -/

/-- There is a call of `fork` for `lobby` that gave a child. -/
def Forked (s : World) (lobby : Lobby) : Prop := ∃ k < s.count, (s.jobs k).lobby = lobby ∧ 0 < (s.jobs k).pid

theorem Forked.mono {s s' : World} {lobby : Lobby} (h : Forked s lobby) (hcount : s.count ≤ s'.count)
    (hjobs : ∀ k < s.count, (s'.jobs k).lobby = (s.jobs k).lobby ∧ (s'.jobs k).pid = (s.jobs k).pid) : Forked s' lobby := by
  obtain ⟨k, hk, hlobby, hpid⟩ := h
  obtain ⟨hlobby', hpid'⟩ := hjobs k hk
  exact ⟨k, by omega, hlobby'.trans hlobby, hpid'.symm ▸ hpid⟩

/-- The number of a lobby as it is sent. -/
def lobbyId (lobby : Lobby) : Int32 := Int32.ofInt lobby.val

/-- An entry tells the place of its lobby, for which a child was forked, or is
the last one, whose child is about to be. -/
def Directs (n : Int32) (s : World) (i : Nat) : Served → Prop
  | .joined lobby place => place = n + lobbyId lobby ∧ Forked s lobby
  | .started lobby place =>
    place = n + lobbyId lobby ∧ (Forked s lobby ∨ s.main = .forking lobby ∧ i + 1 = s.served.length)
  | .faulted => False

structure DirectoryInv (n : Int32) (s : World) : Prop where
  buffer : s.buffer.data.length = bufferSize
  own : ∀ e ∈ s.served, Properly n e
  directs : ∀ i e, s.served[i]? = some e → Directs n s i e.2
  table : ∀ lobby, s.servers lobby ≠ 0 → Forked s lobby
  pids : ∀ k < s.count, 0 < (s.jobs k).pid

theorem directoryInv_start {n : Int32} {s : World} (h : (superServer n).init s) : DirectoryInv n s := by
  obtain ⟨data, jobs, hdata, rfl⟩ := h
  refine ⟨hdata, fun e he => ?_, fun i e he => ?_, fun lobby hne => absurd rfl hne, fun k hk => ?_⟩
  · cases he
  · cases he
  · cases hk

/-- What the main loop does with a connection, up to `fork`. -/
theorem serve_cases (n : Int32) (r : Received) (l : Locals) (s : World) :
    (serve n r l s).servers = s.servers ∧ (serve n r l s).jobs = s.jobs ∧ (serve n r l s).count = s.count ∧
      ∃ out, (serve n r l s).served = s.served ++ [(r, out)] ∧
        ((∃ lobby place, out = .joined lobby place ∧ s.servers lobby ≠ 0 ∧ (serve n r l s).main = s.main) ∨
          (∃ lobby place, out = .started lobby place ∧ (serve n r l s).main = .forking lobby) ∨ out = .faulted) := by
  unfold serve
  split
  · exact ⟨rfl, rfl, rfl, _, rfl, .inr (.inr rfl)⟩
  · split
    · exact ⟨rfl, rfl, rfl, _, rfl, .inr (.inr rfl)⟩
    · dsimp only
      split
      · split
        · rename_i hrun
          exact ⟨rfl, rfl, rfl, _, rfl, .inl ⟨_, _, rfl, hrun, rfl⟩⟩
        · exact ⟨rfl, rfl, rfl, _, rfl, .inr (.inl ⟨_, _, rfl, rfl⟩)⟩
      · exact ⟨rfl, rfl, rfl, _, rfl, .inr (.inr rfl)⟩

theorem lobbyId_of_toInt {id : Int32} {lobby : Lobby} (h : id.toInt = lobby.val) : id = lobbyId lobby := by
  rw [lobbyId, ← h, Int32.ofInt_toInt]

theorem directoryInv_connect {n : Int32} {s : World} {r : Received} {l : Locals} (h : DirectoryInv n s)
    (hidle : s.main = .idle) (harr : Arrives r) (hok : OwnLobby s (.connect r l)) : DirectoryInv n (serve n r l s) := by
  obtain ⟨hnone, b, id, rfl, hf, h0, hlt, hc⟩ := hok
  obtain ⟨hbuf, e, hserved, he⟩ := serve_own (n := n) h.buffer hnone harr hf h0 hlt hc
  obtain ⟨hservers, hjobs, hcount, out, hserved', hout⟩ := serve_cases n (.bytes b) l s
  obtain rfl : e = (.bytes b, out) := List.singleton_inj.1 (List.append_cancel_left (hserved.symm.trans hserved'))
  have hforked : ∀ lobby, Forked s lobby → Forked (serve n (.bytes b) l s) lobby := by
    intro lobby hlobby
    exact hlobby.mono hcount.ge fun k _ => by rw [hjobs]; exact ⟨rfl, rfl⟩
  -- The place of the entry is that of its lobby.
  have hplace : ∀ lobby place, out = .joined lobby place ∨ out = .started lobby place → place = n + lobbyId lobby := by
    rintro lobby place (rfl | rfl)
    · obtain ⟨-, id, -, -, hid, hplace⟩ := he
      rw [hplace, lobbyId_of_toInt hid]
    · obtain ⟨-, id, -, -, hid, hplace⟩ := he
      rw [hplace, lobbyId_of_toInt hid]
  refine ⟨hbuf, ?_, ?_, ?_, ?_⟩
  · intro e' he'
    rw [hserved] at he'
    rcases List.mem_append.1 he' with he' | he'
    · exact h.own e' he'
    · rw [List.mem_singleton.1 he']
      exact he
  · intro i e' hi
    rw [hserved] at hi
    obtain hlt | hge := Nat.lt_or_ge i s.served.length
    · rw [List.getElem?_append_left hlt] at hi
      have hold := h.directs i e' hi
      cases hout' : e'.2 with
      | joined lobby place =>
        rw [hout'] at hold
        exact ⟨hold.1, hforked lobby hold.2⟩
      | started lobby place =>
        rw [hout'] at hold
        obtain ⟨hp, hlobby | ⟨hmain, -⟩⟩ := hold
        · exact ⟨hp, .inl (hforked lobby hlobby)⟩
        · rw [hidle] at hmain
          cases hmain
      | faulted =>
        rw [hout'] at hold
        exact hold
    · rw [List.getElem?_append_right hge] at hi
      have hlast : i = s.served.length := by
        have hlen := (List.getElem?_eq_some_iff.1 hi).1
        rw [List.length_singleton] at hlen
        omega
      subst hlast
      rw [Nat.sub_self] at hi
      obtain rfl := Option.some.inj hi
      rcases hout with ⟨lobby, place, rfl, hrun, -⟩ | ⟨lobby, place, rfl, hmain⟩ | rfl
      · exact ⟨hplace lobby place (.inl rfl), hforked lobby (h.table lobby hrun)⟩
      · refine ⟨hplace lobby place (.inr rfl), .inr ⟨hmain, ?_⟩⟩
        rw [hserved, List.length_append, List.length_singleton]
      · exact he
  · intro lobby hne
    rw [hservers] at hne
    exact hforked lobby (h.table lobby hne)
  · intro k hk
    rw [hcount] at hk
    rw [hjobs]
    exact h.pids k hk

/-- Steps that serve nobody and fork nothing keep the invariant, if the entries
that are set are those of calls of `fork`. -/
theorem DirectoryInv.keep {n : Int32} {s s' : World} (h : DirectoryInv n s) (hbuf : s'.buffer = s.buffer)
    (hserved : s'.served = s.served) (hcount : s'.count = s.count)
    (hmain : ∀ lobby, s.main = .forking lobby → s'.main = s.main)
    (hjobs : ∀ k, (s'.jobs k).lobby = (s.jobs k).lobby ∧ (s'.jobs k).pid = (s.jobs k).pid)
    (htable : ∀ lobby, s'.servers lobby ≠ 0 → Forked s lobby) : DirectoryInv n s' := by
  have hforked : ∀ lobby, Forked s lobby → Forked s' lobby :=
    fun lobby hlobby => hlobby.mono hcount.ge fun k _ => hjobs k
  refine ⟨hbuf ▸ h.buffer, hserved ▸ h.own, fun i e he => ?_, fun lobby hne => hforked lobby (htable lobby hne),
    fun k hk => ?_⟩
  · rw [hserved] at he
    have hold := h.directs i e he
    cases hout : e.2 with
    | joined lobby place =>
      rw [hout] at hold
      exact ⟨hold.1, hforked lobby hold.2⟩
    | started lobby place =>
      rw [hout] at hold
      obtain ⟨hp, hlobby | ⟨hforking, hlast⟩⟩ := hold
      · exact ⟨hp, .inl (hforked lobby hlobby)⟩
      · exact ⟨hp, .inr ⟨(hmain lobby hforking).trans hforking, hserved ▸ hlast⟩⟩
    | faulted =>
      rw [hout] at hold
      exact hold
  · rw [hcount] at hk
    rw [(hjobs k).2]
    exact h.pids k hk

theorem setStage_job (s : World) (k : Nat) (stage : Stage) (j : Nat) :
    ((s.setStage k stage).jobs j).lobby = (s.jobs j).lobby ∧ ((s.setStage k stage).jobs j).pid = (s.jobs j).pid := by
  simp only [World.setStage]
  by_cases hj : j = k
  · subst hj
    rw [Function.update_self]
    exact ⟨rfl, rfl⟩
  · rw [Function.update_of_ne hj]
    exact ⟨rfl, rfl⟩

/-- `fork` gives a child. -/
def Succeeds : Act → Prop
  | .fork child => 0 < child
  | _ => True

theorem directoryInv_fork {n : Int32} {s : World} {lobby : Lobby} {child : Int} (h : DirectoryInv n s)
    (hmain : s.main = .forking lobby) (hpos : 0 < child) : DirectoryInv n (s.fork lobby child) := by
  have hold : ∀ k < s.count, ((s.fork lobby child).jobs k) = s.jobs k := fun k hk => fork_old lobby child hk
  have hforked : ∀ l, Forked s l → Forked (s.fork lobby child) l := by
    intro l hl
    exact hl.mono (Nat.le_succ _) fun k hk => by rw [hold k hk]; exact ⟨rfl, rfl⟩
  have hnew : Forked (s.fork lobby child) lobby :=
    ⟨s.count, Nat.lt_succ_self _, by rw [fork_last], by rw [fork_last]; exact hpos⟩
  refine ⟨h.buffer, h.own, fun i e he => ?_, fun l hne => hforked l (h.table l hne), fun k hk => ?_⟩
  · have hdirects := h.directs i e he
    cases hout : e.2 with
    | joined l place =>
      rw [hout] at hdirects
      exact ⟨hdirects.1, hforked l hdirects.2⟩
    | started l place =>
      rw [hout] at hdirects
      obtain ⟨hp, hl | ⟨hforking, -⟩⟩ := hdirects
      · exact ⟨hp, .inl (hforked l hl)⟩
      · rw [hmain] at hforking
        cases hforking
        exact ⟨hp, .inl hnew⟩
    | faulted =>
      rw [hout] at hdirects
      exact hdirects
  · rcases (fork_lt lobby child).1 hk with rfl | hk
    · rw [fork_last]
      exact hpos
    · rw [hold k hk]
      exact h.pids k hk

theorem directoryInv_step {n : Int32} {s s' : World} {a : Act} (h : DirectoryInv n s) (hok : OwnLobby s a ∧ Succeeds a)
    (hs : Step n s a s') : DirectoryInv n s' := by
  cases hs with
  | connect r l hidle harr => exact directoryInv_connect h hidle harr hok.1
  | @fork lobby child hmain hchild => exact directoryInv_fork h hmain hok.2
  | @store k hmain hcount hstage =>
    refine h.keep rfl rfl rfl (fun lobby hm => rfl) (setStage_job s k .stored) fun lobby hne => ?_
    by_cases hlobby : lobby = (s.jobs k).lobby
    · exact ⟨k, by omega, hlobby.symm, h.pids k (by omega)⟩
    · dsimp only at hne
      rw [Function.update_of_ne hlobby] at hne
      exact h.table lobby hne
  | @watch k hmain hcount hstage =>
    refine h.keep rfl rfl rfl (fun lobby hm => ?_) (setStage_job s k .created) h.table
    rw [hmain] at hm
    cases hm
  | exit pid hpid => exact h.keep rfl rfl rfl (fun _ _ => rfl) (fun _ => ⟨rfl, rfl⟩) h.table
  | read k hk hstage => exact h.keep rfl rfl rfl (fun _ _ => rfl) (setStage_job s k _) h.table
  | reap hk hstage hz => exact h.keep rfl rfl rfl (fun _ _ => rfl) (setStage_job s _ _) h.table
  | reapAny q hk hstage hz => exact h.keep rfl rfl rfl (fun _ _ => rfl) (setStage_job s _ _) h.table
  | noChild hk hstage hne hdead => exact h.keep rfl rfl rfl (fun _ _ => rfl) (setStage_job s _ _) h.table
  | @clear k p i hk hstage =>
    refine h.keep rfl rfl rfl (fun _ _ => rfl) (setStage_job s k _) fun lobby hne => ?_
    dsimp only at hne
    split at hne
    · by_cases hlobby : lobby = i
      · rw [hlobby, Function.update_self] at hne
        exact absurd rfl hne
      · rw [Function.update_of_ne hlobby] at hne
        exact h.table lobby hne
    · exact h.table lobby hne
  | done hk hstage => exact h.keep rfl rfl rfl (fun _ _ => rfl) (setStage_job s _ _) h.table

/-! ## Runs -/

/-- Connection `i` has its answer, from the main loop or from the child that
was forked for it. -/
def Answered (s : World) (i : Nat) : Prop :=
  i < s.served.length ∧ ((∃ lobby, s.main = .forking lobby) → i + 1 ≠ s.served.length)

/-- What connection `i` comes to: its client asked for `id` and is told
`place`, the place of a lobby for which a child was forked, and reads that
place from the answer. -/
structure Directed (n : Int32) (s : World) (i : Nat) (id place : Int32) : Prop where
  told : ∃ b lobby out, s.served[i]? = some (.bytes b, out) ∧ (frames 0 b).head? = some (serverIdText id) ∧
    (out = .joined lobby place ∨ out = .started lobby place) ∧ place = n + lobbyId lobby ∧ Forked s lobby
  reads : ∀ sd l, sd.data.length = bufferSize → (decimal place.toInt).length ≤ 5 → Ends place.toInt l.num →
    game (.bytes (serverIdText place ++ [0])) sd l = some (some place)

theorem DirectoryInv.directed {n : Int32} {s : World} (h : DirectoryInv n s) {i : Nat} (hi : Answered s i) :
    ∃ id place, Directed n s i id place := by
  obtain ⟨hlt, hlast⟩ := hi
  have he : s.served[i]? = some s.served[i] := List.getElem?_eq_getElem hlt
  have hown := h.own _ (List.mem_of_getElem? he)
  have hdirects := h.directs i _ he
  generalize s.served[i] = e at he hown hdirects
  obtain ⟨r, out⟩ := e
  cases out with
  | joined lobby place =>
    obtain ⟨b, id, rfl, hf, -, -⟩ := hown
    exact ⟨id, place, ⟨b, lobby, _, he, hf, .inl rfl, hdirects⟩, fun _ _ hsd hlen hl => game_answer hlen hsd hl⟩
  | started lobby place =>
    obtain ⟨b, id, rfl, hf, -, -⟩ := hown
    obtain ⟨hp, hforked | ⟨hmain, hlen⟩⟩ := hdirects
    · exact ⟨id, place, ⟨b, lobby, _, he, hf, .inr rfl, hp, hforked⟩, fun _ _ hsd hlen hl => game_answer hlen hsd hl⟩
    · exact absurd hlen (hlast ⟨lobby, hmain⟩)
  | faulted => exact False.elim hown

/-- The place is that of the id that was asked for. -/
theorem DirectoryInv.place {n : Int32} {s : World} (h : DirectoryInv n s) {i : Nat} {id place : Int32}
    (hd : Directed n s i id place) : place = n + id := by
  obtain ⟨b, lobby, out, he, hf, hout, -⟩ := hd.told
  have hown := h.own _ (List.mem_of_getElem? he)
  obtain ⟨b', id', hb, hf', -, hplace⟩ : ∃ b' id', Received.bytes b = .bytes b' ∧
      (frames 0 b').head? = some (serverIdText id') ∧ id'.toInt = lobby.val ∧ place = n + id' := by
    rcases hout with rfl | rfl
    · exact hown
    · exact hown
  cases hb
  rw [hf, Option.some.injEq] at hf'
  rw [hplace, decimal_toInt_inj (List.append_cancel_left hf')]

/-- While every connection begins with the id of a lobby, in one piece, and
`fork` succeeds, every client that is answered goes to a place for which a
child was forked, and two clients go to the same place exactly when they asked
for the same lobby. -/
theorem same_lobby_same_place {n : Int32} {s : World}
    (h : (superServer n).ReachesBy (fun s a => OwnLobby s a ∧ Succeeds a) s) :
    (∀ i, Answered s i → ∃ id place, Directed n s i id place) ∧
      ∀ i j id id' place place', Directed n s i id place → Directed n s j id' place' → (place = place' ↔ id = id') := by
  have hi : DirectoryInv n s := by
    apply h.inv (I := DirectoryInv n)
    · intro s hs
      exact directoryInv_start hs
    · intro _ _ _ hi hok hs
      exact directoryInv_step hi hok hs
  refine ⟨fun i hlt => hi.directed hlt, fun i j id id' place place' hd hd' => ?_⟩
  rw [hi.place hd, hi.place hd']
  exact Int32.add_right_inj n

/-- A client of lobby 3, for which a child is forked, and a second one. -/
theorem same_lobby_same_place_three : ∃ s, (superServer 4000).ReachesBy (fun s a => OwnLobby s a ∧ Succeeds a) s ∧
    s.served.map Prod.snd = [.started 3 4003, .joined 3 4003] ∧
    (∃ id place, Directed 4000 s 0 id place) ∧ ∃ id place, Directed 4000 s 1 id place := by
  have h : (superServer 4000).ReachesBy (fun s a => OwnLobby s a ∧ Succeeds a) joinedThree :=
    reaches_joinedThree (fun _ hnone => ⟨ownLobby_three hnone, trivial⟩) (fun _ => ⟨trivial, show (0 : Int) < 101 by decide⟩)
      (fun _ => ⟨trivial, trivial⟩) fun _ => ⟨trivial, trivial⟩
  obtain ⟨hall, -⟩ := same_lobby_same_place h
  have hidle : joinedThree.main = .idle := by decide +kernel
  have hanswered : ∀ i < 2, Answered joinedThree i := by
    intro i hi
    refine ⟨lt_of_lt_of_eq hi (by decide +kernel), fun ⟨lobby, hm⟩ => ?_⟩
    rw [hidle] at hm
    cases hm
  exact ⟨_, h, served_joinedThree, hall 0 (hanswered 0 (by decide)), hall 1 (hanswered 1 (by decide))⟩

end Snuffin.SuperServer
