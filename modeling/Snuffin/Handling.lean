import Snuffin.Requests
import Snuffin.Receiving
import Snuffin.DbManager
/-!
# Requests and their memory

`resolveRequest` with the buffers that it allocates, from `readData` on. Some
are too small for what a client can send, and some strings are read before
they are set: `none` is an access that the call must not make. `Harmless` says
from the message and the state when there is none, and then the call does what
`ChildServer.resolveRequest` does with the decoders of marshalling.c.
-/
open Lib Snuffin.ComWrapper Snuffin.Marshalling
open Snuffin.Db (CString bytes existUserDB getHighScoreDB validPasswordDB createUserDB)

namespace Snuffin.ChildServer.Checked

/-! ## The code -/

/-- The memory that a call finds: `d` after its two calls of `malloc`, the
arrays of the decoder, the buffer of `validatePassword` and the page of the
database. -/
structure Fresh where
  message : StreamData
  locals : Locals
  password : Bytes
  page : Mem

/-- `unmarshString(d->data, s)` for an `s` that a caller has allocated. -/
def unmarshString (k : StringCaller) (d : StreamData) (l : Locals) : Option (Option CString) :=
  (Marshalling.unmarshString (cstr d.data ++ [0]) l).bind fun o =>
    if ∀ s ∈ o, s.val.length + 1 ≤ destination d k then some o else none

/-- The string in a buffer of `size` bytes that nothing was written to. -/
def freshString (size : Nat) (b : Bytes) : Option Bytes := (strlen (b.take size)).map fun _ => cstr (b.take size)

/-- `free(clients[nClient]->name)` needs the name. -/
def disconnect (nClient : Slot) (c : Client) (s : Server) : Option Server :=
  c.name.map fun _ => ChildServer.disconnect nClient c s

/-- `marshPlayer` reads the name. -/
def notifyNewPlayer (nPlayer : Slot) (c : Client) (s : Server) : Option Server :=
  c.name.map fun _ => ChildServer.notifyNewPlayer nPlayer c s

/-- "Notifying %s about %s". -/
def notifying (name about : Bytes) : Bytes := bytes "Notifying " ++ name ++ bytes " about " ++ about

/-- The body of the loop of `notifyExistingPlayers`, with `aux`. -/
def notifyExisting (c : Client) (st : Bytes × Server) (i : Slot) : Option (Bytes × Server) :=
  match st.2.clients i with
  | none => some st
  | some ci =>
    c.name.bind fun name => ci.name.bind fun about =>
      (sprintf st.1 (notifying name about)).map fun aux =>
        (aux, st.2.emit [.send .notice c.con (.player (createPlayerStruct ci i))])

/-- `aux` is `calloc(128,1)`. -/
def notifyExistingPlayers (c : Client) (s : Server) : Option Server :=
  ((List.finRange maxPlayers).foldlM (notifyExisting c) (List.replicate 128 0, s)).map Prod.snd

/-- What the other process writes to the page between two calls does not
matter here. -/
def validateUser (db : Db) (m : Fresh) (d : StreamData) (nClient : Slot) (c : Client) (s : Server) : Option Server :=
  (unmarshString .validateUser d m.locals).bind fun o =>
    match o with
    | none => some s
    | some name =>
      (existUserDB name.val m.page).bind fun page =>
        let e := db.existUser name.val
        let s := s.emit [.existUser name.val e]
        if e ≠ 0 then
          (getHighScoreDB name.val page).map fun _ =>
            let score := db.getHighScore name.val
            let s := s.emit [.getHighScore name.val score]
            let s := s.emit [.send .reply c.con (.boolean true)]
            s.setClient nClient { c with expecting := .password, score := some score, name := some name.val }
        else
          let s := s.emit [.send .reply c.con (.boolean false)]
          some (s.setClient nClient { c with expecting := .newPassword, score := some 0, name := some name.val })

def validatePassword (db : Db) (m : Fresh) (d : StreamData) (nClient : Slot) (c : Client) (s : Server) :
    Option (Bool × Server) :=
  (unmarshString .validatePassword d m.locals).bind fun o =>
    ((o.map Subtype.val).or (freshString d.size.toNat m.password)).bind fun password =>
      c.name.bind fun name =>
        (validPasswordDB name password m.page).map fun _ =>
          let ans := db.validPassword c.name password
          let s := s.emit [.validPassword c.name password ans]
          if ans ≠ 0 then
            (true, (s.setClient nClient c.toLobby).emit [.send .reply c.con (.boolean true)])
          else (false, s.emit [.send .reply c.con (.boolean false)])

def newPassword (db : Db) (m : Fresh) (d : StreamData) (nClient : Slot) (c : Client) (s : Server) : Option Server :=
  (unmarshString .newPassword d m.locals).bind fun o =>
    match o with
    | none => some s
    | some password =>
      c.name.bind fun name =>
        (createUserDB name password.val m.page).bind fun _ =>
          let ans := db.createUser c.name password.val
          let s := s.emit [.createUser c.name password.val ans]
          if ans = 0 then
            let s := (s.setClient nClient c.toLobby).emit [.send .reply c.con (.boolean true)]
            (notifyNewPlayer nClient c.toLobby s).bind (notifyExistingPlayers c.toLobby)
          else
            let s := s.emit [.send .reply c.con (.boolean false)]
            (notifyNewPlayer nClient c s).bind (notifyExistingPlayers c)

def readyToPlay (d : StreamData) (nClient : Slot) (c : Client) (s : Server) : Option Server :=
  (Marshalling.unmarshBoolean (cstr d.data ++ [0])).bind fun o =>
    match o with
    | none => some s
    | some value =>
      if value ≠ 0 then
        let c := { c with state := .readyPlay }
        (notifyNewPlayer nClient c (s.setClient nClient c)).map checkGameStart
      else
        let c := { c with state := .waiting }
        notifyNewPlayer nClient c (s.setClient nClient c)

/-- `gameBoard` and `pDir[nClient]` have to be set. -/
def movement (m : Fresh) (d : StreamData) (nClient : Slot) (s : Server) : Option Server :=
  (Marshalling.unmarshPoint (cstr d.data ++ [0]) m.locals).bind fun o =>
    match o with
    | none => some s
    | some p =>
      s.gameBoard.bind fun b =>
        if b.pDef nClient ≠ -1 then
          some { s.emit [.updateMovementDirection nClient ⟨p.x.toInt, p.y.toInt⟩] with
            gameBoard := some (Game.updateMovementDirection nClient ⟨p.x.toInt, p.y.toInt⟩ b) }
        else none

/-- What `resolveRequest` does with the message that `readData` left in `d`. -/
def resolve (db : Db) (m : Fresh) (d : StreamData) (nClient : Slot) (c : Client) (s : Server) : Option Server :=
  match c.expecting with
  | .user => validateUser db m d nClient c s
  | .password =>
    (validatePassword db m d nClient c s).bind fun
      | (true, s) => (notifyNewPlayer nClient c.toLobby s).bind (notifyExistingPlayers c.toLobby)
      | (false, s) => some s
  | .newPassword => newPassword db m d nClient c s
  | .readyToPlay => readyToPlay d nClient c s
  | .movement => movement m d nClient s

/-- `resolveRequest(nClient)` when `receiveData` would give `r`, with the
globals of `readData`. -/
def resolveRequest (db : Db) (m : Fresh) (r : Received) (nClient : Slot) (w : Wrapper) (s : Server) :
    Option (Wrapper × Server) :=
  match s.clients nClient with
  | none => none
  | some c =>
    (readData r m.message w).bind fun (res, d, w) =>
      (if res = false then disconnect nClient c s else resolve db m d nClient c s).map fun s => (w, s)

/-! ## When it is harmless -/

/-- What a message has between its kind and the first separator. -/
def field (text : Bytes) : Bytes := text.tail.takeWhile (· ≠ SEP)

/-- What it has behind that separator. -/
def behind (text : Bytes) : Bytes := (text.tail.dropWhile (· ≠ SEP)).tail

/-- What a STRING message says. -/
def content (text : Bytes) : Option Bytes := if text.head? = some STRING then some (behind text) else none

/-- A STRING message has a separator behind at most five bytes, and what comes
then is no longer than these say. -/
def Decodes (text : Bytes) (l : Locals) : Prop :=
  text.head? = some STRING → SEP ∈ text.tail ∧ (field text).length ≤ 5 ∧
    ((behind text).length : Int) ≤ strtol (l.num.over (field text))

/-- Both names are set, and `aux` has room for them. -/
def Fit (c ci : Client) : Prop := ∃ name ∈ c.name, ∃ about ∈ ci.name, name.length + about.length ≤ 110

/-- So it is with all clients that a client is notified about. -/
def Lists (c : Client) (t : Table) : Prop := ∀ i, ∀ ci ∈ t i, Fit c ci

/-- The password that `validatePassword` asks for. -/
def passwordIn (m : Fresh) (text : Bytes) : Option Bytes :=
  (content text).or (freshString text.length m.password)

/-- No access goes wrong in the branch for `expecting`. -/
def HarmlessIn (db : Db) (m : Fresh) (text : Bytes) (n : Slot) (c : Client) (s : Server) : Expecting → Prop
  | .user => Decodes text m.locals
  | .password =>
    Decodes text m.locals ∧ ∃ name ∈ c.name, ∃ password ∈ passwordIn m text, name.length ≤ 1022 ∧ password.length < 960 ∧
      (db.validPassword c.name password ≠ 0 → Lists c s.clients)
  | .newPassword =>
    Decodes text m.locals ∧ ∀ password ∈ content text, password.length < sizeofInt ∧ Lists c s.clients
  | .readyToPlay => text.take 2 = [BOOLEAN, 48] ∨ text.take 2 = [BOOLEAN, 49] → c.name.isSome = true
  | .movement =>
    text.head? = some POINT → SEP ∈ text.tail ∧ (field text).length ≤ 5 ∧ (behind text).length ≤ 5 ∧
      ∃ b ∈ s.gameBoard, b.pDef n ≠ -1

/-- No access goes wrong when slot `n` holds `c` and the message is `text`. -/
def Harmless (db : Db) (m : Fresh) (text : Bytes) (n : Slot) (c : Client) (s : Server) : Prop :=
  if text.length ≤ 1 then c.name.isSome = true else HarmlessIn db m text n c s c.expecting

section Decide
variable {db : Db} {m : Fresh} {text : Bytes} {l : Locals} {n : Slot} {c ci : Client} {t : Table} {s : Server}

instance : Decidable (Decodes text l) := by
  unfold Decodes
  infer_instance

instance : Decidable (Fit c ci) := by
  unfold Fit
  infer_instance

instance : Decidable (Lists c t) := by
  unfold Lists
  infer_instance

instance : ∀ e, Decidable (HarmlessIn db m text n c s e)
  | .user | .password | .newPassword | .readyToPlay | .movement => by
    unfold HarmlessIn
    infer_instance

instance : Decidable (Harmless db m text n c s) := by
  unfold Harmless
  infer_instance

end Decide

/-! ## Strings that are decoded -/

theorem field_cons {k : UInt8} {a b : Bytes} (ha : SEP ∉ a) :
    field (k :: (a ++ SEP :: b)) = a ∧ behind (k :: (a ++ SEP :: b)) = b := by
  have hall : ∀ x ∈ a, decide (x ≠ SEP) = true := fun x hx => decide_eq_true fun he => ha (he ▸ hx)
  unfold field behind
  rw [List.tail_cons, List.takeWhile_append_of_pos hall, List.dropWhile_append_of_pos hall]
  simp

/-- A message with a separator, by its parts. -/
theorem fields_iff {text : Bytes} {k : UInt8} {P : Bytes → Bytes → Prop} :
    (text.head? = some k → SEP ∈ text.tail ∧ P (field text) (behind text)) ↔
      ∀ r, text = k :: r → ∃ a b, SEP ∉ a ∧ r = a ++ SEP :: b ∧ P a b := by
  constructor
  · rintro h r rfl
    obtain ⟨hsep, hp⟩ := h rfl
    obtain ⟨a, b, rfl, ha⟩ := List.eq_append_cons_of_mem (show SEP ∈ r from hsep)
    obtain ⟨hf, hb⟩ := field_cons (k := k) (b := b) ha
    rw [hf, hb] at hp
    exact ⟨a, b, ha, rfl, hp⟩
  · intro h hh
    cases text with
    | nil => cases hh
    | cons x r =>
      obtain rfl := Option.some.inj hh
      obtain ⟨a, b, ha, rfl, hp⟩ := h r rfl
      obtain ⟨hf, hb⟩ := field_cons (k := x) (b := b) ha
      rw [hf, hb]
      exact ⟨by simp, hp⟩

theorem decodes_iff {text : Bytes} {l : Locals} : Decodes text l ↔ ∀ r, text = STRING :: r →
    ∃ a s, SEP ∉ a ∧ r = a ++ SEP :: s ∧ a.length ≤ 5 ∧ (s.length : Int) ≤ strtol (l.num.over a) :=
  fields_iff (P := fun a s => a.length ≤ 5 ∧ (s.length : Int) ≤ strtol (l.num.over a))

theorem addressed_boolean {text : Bytes} :
    Addressed text .boolean ↔ text.take 2 = [BOOLEAN, 48] ∨ text.take 2 = [BOOLEAN, 49] := by
  have htake : ∀ y, text.take 2 = [BOOLEAN, y] ↔ ∃ rest, text = BOOLEAN :: y :: rest := by
    intro y
    constructor
    · intro h
      exact ⟨text.drop 2, by rw [← List.take_append_drop 2 text, h]; rfl⟩
    · rintro ⟨rest, rfl⟩
      rfl
  rw [htake, htake]
  constructor
  · rintro ⟨x, rest, h, rfl | rfl⟩
    · exact .inl ⟨rest, h⟩
    · exact .inr ⟨rest, h⟩
  · rintro (⟨rest, h⟩ | ⟨rest, h⟩)
    · exact ⟨48, rest, h, .inl rfl⟩
    · exact ⟨49, rest, h, .inr rfl⟩

theorem content_cons {a s : Bytes} (ha : SEP ∉ a) : content (STRING :: (a ++ SEP :: s)) = some s := by
  unfold content
  rw [if_pos List.head?_cons, (field_cons ha).2]

theorem content_none {text : Bytes} (h : ¬∃ r, text = STRING :: r) : content text = none := by
  unfold content
  rw [if_neg]
  intro hh
  cases text with
  | nil => cases hh
  | cons x r => exact h ⟨r, by rw [Option.some.inj hh]⟩

theorem content_some {text s : Bytes} (h : content text = some s) : s.length + 1 ≤ text.length ∧ ∀ x ∈ s, x ∈ text := by
  unfold content at h
  obtain ⟨hh, h⟩ := Option.ite_none_right_eq_some.1 h
  obtain rfl := Option.some.inj h
  cases text with
  | nil => cases hh
  | cons x r =>
    have hsub : (behind (x :: r)).Sublist r := (List.tail_sublist _).trans (List.dropWhile_sublist _)
    have hle := hsub.length_le
    exact ⟨Nat.succ_le_succ hle, fun y hy => List.mem_cons_of_mem _ (hsub.subset hy)⟩

/-- The kind and the separator come before it. -/
theorem content_length {text s : Bytes} {l : Locals} (h : Decodes text l) (hs : content text = some s) :
    s.length + 2 ≤ text.length := by
  by_cases hk : ∃ r, text = STRING :: r
  · obtain ⟨r, rfl⟩ := hk
    obtain ⟨a, s', ha, rfl, -⟩ := decodes_iff.1 h r rfl
    rw [content_cons ha, Option.some.injEq] at hs
    rw [← hs, List.length_cons, List.length_append, List.length_cons]
    omega
  · rw [content_none hk] at hs
    cases hs

/-- A decoder of strings gives what is behind the separator. -/
theorem unmarshString_text {text : Bytes} (h0 : (0 : UInt8) ∉ text) (l : Locals) (o : Option CString) :
    Marshalling.unmarshString (text ++ [0]) l = some o ↔ Decodes text l ∧ o = (content text).map cstring := by
  by_cases hs : ∃ r, text = STRING :: r
  · obtain ⟨r, rfl⟩ := hs
    rw [List.cons_append, unmarshString_eq_some (nul_of_cons h0)]
    constructor
    · rintro ⟨a, s, ha, rfl, hla, hls, rfl⟩
      refine ⟨decodes_iff.2 fun r hr => ⟨a, s, ha, (List.cons.inj hr).2.symm, hla, hls⟩, ?_⟩
      rw [content_cons ha, Option.map_some]
    · rintro ⟨hd, rfl⟩
      obtain ⟨a, s, ha, rfl, hla, hls⟩ := decodes_iff.1 hd r rfl
      exact ⟨a, s, ha, rfl, hla, hls, by rw [content_cons ha, Option.map_some]⟩
  · have hnone : Marshalling.unmarshString (text ++ [0]) l = some none :=
      if_pos (head_of_not_addressed hs (by decide))
    rw [hnone, content_none hs, Option.some.injEq, Option.map_none]
    constructor
    · rintro rfl
      exact ⟨decodes_iff.2 fun r hr => absurd ⟨r, hr⟩ hs, rfl⟩
    · rintro ⟨-, rfl⟩
      rfl

/-- A caller takes it when its buffer has room. -/
theorem unmarshString_eq_some {k : StringCaller} {d : StreamData} {l : Locals} {o : Option CString} :
    unmarshString k d l = some o ↔ Decodes (cstr d.data) l ∧ o = (content (cstr d.data)).map cstring ∧
      ∀ s ∈ content (cstr d.data), s.length + 1 ≤ destination d k := by
  have hnul : ∀ s ∈ content (cstr d.data), (cstring s).val = s := fun s hs =>
    cstr_eq_self.2 fun h => cstr_nul d.data ((content_some hs).2 0 h)
  unfold unmarshString
  rw [Option.bind_eq_some_iff]
  constructor
  · rintro ⟨o', ho', h⟩
    obtain ⟨hd, rfl⟩ := (unmarshString_text (cstr_nul _) l o').1 ho'
    obtain ⟨hroom, h⟩ := Option.ite_none_right_eq_some.1 h
    obtain rfl := Option.some.inj h
    refine ⟨hd, rfl, fun s hs => ?_⟩
    have hle := hroom (cstring s) (Option.mem_map_of_mem _ hs)
    rwa [hnul s hs] at hle
  · rintro ⟨hd, rfl, hroom⟩
    refine ⟨_, (unmarshString_text (cstr_nul _) l _).2 ⟨hd, rfl⟩, if_pos fun t ht => ?_⟩
    obtain ⟨s, hs, rfl⟩ := Option.mem_map.1 ht
    rw [hnul s hs]
    exact hroom s hs

theorem unmarshString_none {k : StringCaller} {d : StreamData} {l : Locals} (h : ¬Decodes (cstr d.data) l) :
    unmarshString k d l = none := by
  cases ho : unmarshString k d l with
  | none => rfl
  | some o => exact absurd (unmarshString_eq_some.1 ho).1 h

/-- The message as `ChildServer.resolveRequest` takes it. -/
def arrival (m : Fresh) (d : StreamData) : Arrival := ⟨cstring d.data, m.locals⟩

theorem wire_string {m : Fresh} {d : StreamData} (h : Decodes (cstr d.data) m.locals) :
    (wireCodec inert).unmarshString (arrival m d) = content (cstr d.data) := by
  have hread : Marshalling.unmarshString ((arrival m d).text.val ++ [0]) (arrival m d).locals =
      some ((content (cstr d.data)).map cstring) := (unmarshString_text (cstr_nul d.data) m.locals _).2 ⟨h, rfl⟩
  simp only [wireCodec, hread, Option.map_map]
  cases hs : content (cstr d.data) with
  | none => rfl
  | some s => exact congrArg some (cstr_eq_self.2 fun hn => cstr_nul d.data ((content_some hs).2 0 hn))

/-! ## Notices -/

theorem length_notifying (name about : Bytes) : (notifying name about).length = name.length + about.length + 17 := by
  have h1 : (bytes "Notifying ").length = 10 := rfl
  have h2 : (bytes " about ").length = 7 := rfl
  unfold notifying
  simp only [List.length_append, h1, h2]
  omega

theorem sprintf_notifying {aux : Bytes} (haux : aux.length = 128) {name about : Bytes}
    (h : name.length + about.length ≤ 110) :
    ∃ aux', sprintf aux (notifying name about) = some aux' ∧ aux'.length = 128 := by
  have hlen := length_notifying name about
  refine ⟨_, if_pos (by omega), ?_⟩
  simp only [List.length_append, List.length_cons, List.length_drop]
  omega

/-- `aux` is as long in the next round. -/
theorem notifyExisting_fit {c ci : Client} {aux : Bytes} (haux : aux.length = 128) {s : Server} {i : Slot}
    (hi : s.clients i = some ci) (h : Fit c ci) : ∃ aux', aux'.length = 128 ∧
      notifyExisting c (aux, s) i = some (aux', s.emit [.send .notice c.con (.player (createPlayerStruct ci i))]) := by
  obtain ⟨name, hn, about, ha, hle⟩ := h
  rw [Option.mem_def] at hn ha
  obtain ⟨aux', haux', hlen⟩ := sprintf_notifying haux hle
  refine ⟨aux', hlen, ?_⟩
  unfold notifyExisting
  simp only [hi, hn, ha, Option.bind_some, haux', Option.map_some]

theorem notifyExisting_none {c ci : Client} {aux : Bytes} (haux : aux.length = 128) {s : Server} {i : Slot}
    (hi : s.clients i = some ci) (h : ¬Fit c ci) : notifyExisting c (aux, s) i = none := by
  unfold notifyExisting
  simp only [hi]
  cases hn : c.name with
  | none => rfl
  | some name =>
    cases ha : ci.name with
    | none => rfl
    | some about =>
      have hgt : ¬(notifying name about).length < aux.length := by
        rw [length_notifying, haux]
        intro hlt
        exact h ⟨name, hn, about, ha, by omega⟩
      simp only [Option.bind_some, sprintf, if_neg hgt, Option.map_none]

theorem notifyList_eq_some {c : Client} {l : List Slot} {aux : Bytes} (haux : aux.length = 128) {s s' : Server} :
    (l.foldlM (notifyExisting c) (aux, s)).map Prod.snd = some s' ↔
      (∀ i ∈ l, ∀ ci, s.clients i = some ci → Fit c ci) ∧
        s' = s.emit (l.filterMap fun i => (s.clients i).bind fun ci =>
          some (.send .notice c.con (.player (createPlayerStruct ci i)))) := by
  induction l generalizing aux s with
  | nil =>
    simp only [List.foldlM_nil, List.filterMap_nil]
    exact ⟨fun h => ⟨by simp, (Option.some.inj h).symm.trans (by simp [Server.emit])⟩,
      fun h => h.2 ▸ congrArg some (by simp [Server.emit])⟩
  | cons i l ih =>
    rw [List.foldlM_cons, List.forall_mem_cons, List.filterMap_cons]
    cases hi : s.clients i with
    | none =>
      have hskip : notifyExisting c (aux, s) i = some (aux, s) := by
        unfold notifyExisting
        simp only [hi]
      rw [hskip]
      simpa using ih haux
    | some ci =>
      by_cases hfit : Fit c ci
      · obtain ⟨aux', haux', hstep⟩ := notifyExisting_fit haux hi hfit
        rw [hstep]
        refine (ih haux').trans ?_
        rw [emit_clients]
        refine and_congr ?_ ?_
        · simp [hfit]
        · simp [Server.emit]
      · rw [notifyExisting_none haux hi hfit]
        exact iff_of_false (fun h => by cases h) fun h => hfit (h.1.1 ci rfl)

theorem notifyExistingPlayers_eq_some {c : Client} {s s' : Server} :
    notifyExistingPlayers c s = some s' ↔ Lists c s.clients ∧ s' = ChildServer.notifyExistingPlayers c s := by
  unfold notifyExistingPlayers
  rw [notifyList_eq_some List.length_replicate]
  refine and_congr_left fun _ => ⟨fun h i => h i (List.mem_finRange i), fun h i _ => h i⟩

/-- Both notices, about a client that has its slot. -/
theorem notify_eq_some {n : Slot} {c : Client} {s s' : Server} (hc : s.clients n = some c) :
    (notifyNewPlayer n c s).bind (notifyExistingPlayers c) = some s' ↔
      Lists c s.clients ∧ s' = ChildServer.notifyExistingPlayers c (ChildServer.notifyNewPlayer n c s) := by
  unfold notifyNewPlayer
  cases hn : c.name with
  | none =>
    refine iff_of_false nofun fun h => ?_
    obtain ⟨name, hname, -⟩ := h.1 n c hc
    rw [hn] at hname
    cases hname
  | some name => exact notifyExistingPlayers_eq_some

/-- Only the names count. -/
theorem lists_update {n : Slot} {c c' : Client} {t : Table} (hc : t n = some c) (hn : c'.name = c.name) :
    Lists c' (Function.update t n (some c')) ↔ Lists c t := by
  have hfit : ∀ ci ci' : Client, ci'.name = ci.name → (Fit c' ci' ↔ Fit c ci) := by
    intro ci ci' h
    unfold Fit
    rw [hn, h]
  constructor
  · intro h i ci hi
    by_cases hin : i = n
    · subst hin
      obtain rfl := Option.some.inj (hc.symm.trans hi)
      exact (hfit c c' hn).1 (h i c' (Function.update_self ..))
    · exact (hfit ci ci rfl).1 (h i ci ((Function.update_of_ne hin _ _).trans hi))
  · intro h i ci hi
    by_cases hin : i = n
    · subst hin
      rw [Function.update_self, Option.mem_some] at hi
      subst hi
      exact (hfit c c' hn).2 (h i c hc)
    · rw [Function.update_of_ne hin] at hi
      exact (hfit ci ci rfl).2 (h i ci hi)

theorem lists_toLobby {n : Slot} {c : Client} {t : Table} (hc : t n = some c) :
    Lists c.toLobby (Function.update t n (some c.toLobby)) ↔ Lists c t :=
  lists_update hc rfl

/-! ## The branches -/

section Branches
variable {db : Db} {m : Fresh} {d : StreamData} {n : Slot} {c : Client} {s s' : Server}

/-- The buffers that are as long as the message. -/
theorem unmarshString_sized {k : StringCaller} (hk : destination d k = d.size.toNat) (hd : d.size = (cstr d.data).length)
    (h : Decodes (cstr d.data) m.locals) : unmarshString k d m.locals = some ((content (cstr d.data)).map cstring) := by
  refine unmarshString_eq_some.2 ⟨h, rfl, fun s hs => ?_⟩
  have hle := (content_some hs).1
  rw [hk, hd]
  omega

theorem validateUser_eq_some (hd : d.size = (cstr d.data).length) (hlen : (cstr d.data).length < bufferSize) :
    validateUser db m d n c s = some s' ↔
      Decodes (cstr d.data) m.locals ∧ s' = ChildServer.validateUser (wireCodec inert) db (arrival m d) n c s := by
  unfold validateUser
  by_cases h : Decodes (cstr d.data) m.locals
  · rw [unmarshString_sized rfl hd h, Option.bind_some]
    unfold ChildServer.validateUser
    rw [wire_string h]
    cases hs : content (cstr d.data) with
    | none => simp [h, eq_comm]
    | some name =>
      have hle := content_length h hs
      have hval : (cstring name).val = name := cstr_eq_self.2 fun hn => cstr_nul d.data ((content_some hs).2 0 hn)
      have hbuf : bufferSize = 1024 := rfl
      obtain ⟨page, hpage, -⟩ := Db.existUserDB_spec m.page (show name.length < 1022 by omega)
      obtain ⟨page', hpage', -⟩ := Db.getHighScoreDB_spec page (show name.length ≤ 1022 by omega)
      simp only [Option.map_some, hval, hpage, hpage', Option.bind_some]
      split
      · simp [h, eq_comm]
      · simp [h, eq_comm]
  · rw [unmarshString_none h, Option.bind_none]
    exact iff_of_false nofun fun hh => h hh.1

/-- Two arguments that reach the mutex are not written. -/
theorem twoArguments_none {type : UInt8} {first second : Bytes} {page : Mem}
    (h : ¬(first.length ≤ 1022 ∧ second.length < 960)) : Db.twoArguments type first second page = none := by
  have ho := Db.offsets
  have hw1 : (first ++ [(0 : UInt8)]).length = first.length + 1 := List.length_append
  have hw2 : (second ++ [(0 : UInt8)]).length = second.length + 1 := List.length_append
  unfold Db.twoArguments
  cases hone : (Db.write Db.typePos [type] page).bind (Db.write Db.firstArgument (first ++ [0])) with
  | none => rfl
  | some page' =>
    obtain ⟨page₁, -, hfirst⟩ := Option.bind_eq_some_iff.1 hone
    have hle := (Option.ite_none_right_eq_some.1 hfirst).1
    rw [Option.bind_some, Db.write, if_neg (by omega)]

theorem password_getD {p : Bytes} (h : Decodes (cstr d.data) m.locals) (hp : passwordIn m (cstr d.data) = some p) :
    ((wireCodec inert).unmarshString (arrival m d)).getD ((freshString (cstr d.data).length m.password).getD []) = p := by
  rw [wire_string h]
  unfold passwordIn at hp
  cases hs : content (cstr d.data) with
  | none =>
    rw [hs, Option.none_or] at hp
    rw [hp]
    rfl
  | some s =>
    rw [hs, Option.some_or] at hp
    exact Option.some.inj hp

/-- What `validatePassword` asks for. -/
theorem validatePassword_eq (hd : d.size = (cstr d.data).length) (h : Decodes (cstr d.data) m.locals) :
    validatePassword db m d n c s = (passwordIn m (cstr d.data)).bind fun password => c.name.bind fun name =>
      (validPasswordDB name password m.page).map fun _ =>
        let ans := db.validPassword c.name password
        let s := s.emit [.validPassword c.name password ans]
        if ans ≠ 0 then
          (true, (s.setClient n c.toLobby).emit [.send .reply c.con (.boolean true)])
        else (false, s.emit [.send .reply c.con (.boolean false)]) := by
  have hval : ((content (cstr d.data)).map cstring).map Subtype.val = content (cstr d.data) := by
    cases hs : content (cstr d.data) with
    | none => rfl
    | some s => exact congrArg some (cstr_eq_self.2 fun hn => cstr_nul d.data ((content_some hs).2 0 hn))
  unfold validatePassword
  rw [unmarshString_sized rfl hd h, Option.bind_some, hval, hd, Int.toNat_natCast]
  rfl

theorem password_eq_some (hd : d.size = (cstr d.data).length) (hc : s.clients n = some c) (he : c.expecting = .password) :
    (validatePassword db m d n c s).bind (fun
      | (true, s) => (notifyNewPlayer n c.toLobby s).bind (notifyExistingPlayers c.toLobby)
      | (false, s) => some s) = some s' ↔
      HarmlessIn db m (cstr d.data) n c s .password ∧
      ChildServer.resolveRequest (wireCodec inert) db ((freshString (cstr d.data).length m.password).getD []) true
        (arrival m d) n s = some s' := by
  by_cases h : Decodes (cstr d.data) m.locals
  swap
  · unfold validatePassword
    rw [unmarshString_none h]
    exact iff_of_false nofun fun hh => h hh.1.1
  rw [validatePassword_eq hd h]
  unfold HarmlessIn
  cases hp : passwordIn m (cstr d.data) with
  | none =>
    refine iff_of_false nofun fun hh => ?_
    obtain ⟨⟨-, name, -, password, hpass, -⟩, -⟩ := hh
    cases hpass
  | some password =>
    cases hname : c.name with
    | none =>
      refine iff_of_false nofun fun hh => ?_
      obtain ⟨⟨-, name, hn, -⟩, -⟩ := hh
      cases hn
    | some name =>
      simp only [Option.bind_some, Option.mem_some, exists_eq_left']
      by_cases hfits : name.length ≤ 1022 ∧ password.length < 960
      swap
      · unfold validPasswordDB
        rw [twoArguments_none hfits]
        exact iff_of_false nofun fun hh => hfits ⟨hh.1.2.1, hh.1.2.2.1⟩
      have hpage : (validPasswordDB name password m.page).isSome = true := by
        unfold validPasswordDB
        rw [Db.twoArguments_eq 50 m.page hfits.1 hfits.2]
        rfl
      obtain ⟨page, hpage⟩ := Option.isSome_iff_exists.1 hpage
      rw [hpage, Option.map_some, Option.bind_some]
      by_cases ha : db.validPassword (some name) password ≠ 0
      · have hself : Function.update s.clients n (some c.toLobby) n = some c.toLobby := Function.update_self ..
        rw [resolve_accepted hc he (password_getD h hp) (by rwa [hname]), hname]
        simp only [if_pos ha]
        rw [notify_eq_some hself]
        dsimp only [emit_clients, setClient_clients]
        rw [lists_toLobby hc]
        simp [h, hfits, ha, eq_comm]
      · rw [resolve_refused hc he (password_getD h hp) (by rwa [hname]), hname]
        simp only [if_neg ha]
        simp [h, hfits, ha]

theorem newPassword_eq_some (hc : s.clients n = some c) :
    newPassword db m d n c s = some s' ↔ HarmlessIn db m (cstr d.data) n c s .newPassword ∧
      s' = ChildServer.newPassword (wireCodec inert) db (arrival m d) n c s := by
  unfold HarmlessIn
  constructor
  · intro hs
    obtain ⟨o, ho, hs⟩ := Option.bind_eq_some_iff.1 hs
    obtain ⟨h, rfl, hroom⟩ := unmarshString_eq_some.1 ho
    unfold ChildServer.newPassword
    rw [wire_string h]
    cases hp : content (cstr d.data) with
    | none =>
      rw [hp] at hs
      exact ⟨⟨h, nofun⟩, (Option.some.inj hs).symm⟩
    | some password =>
      have hval : (cstring password).val = password :=
        cstr_eq_self.2 fun hn => cstr_nul d.data ((content_some hp).2 0 hn)
      have hshort : password.length < sizeofInt := Nat.lt_iff_add_one_le.2 (hroom password hp)
      rw [hp] at hs
      obtain ⟨name, hname, hs⟩ := Option.bind_eq_some_iff.1 hs
      obtain ⟨page, -, hs⟩ := Option.bind_eq_some_iff.1 hs
      dsimp only at hs ⊢
      rw [hval] at hs
      split at hs
      · rename_i ha
        obtain ⟨hlists, rfl⟩ := (notify_eq_some (Function.update_self ..)).1 hs
        rw [if_pos ha]
        refine ⟨⟨h, fun p hmem => ?_⟩, rfl⟩
        obtain rfl := Option.some.inj hmem
        exact ⟨hshort, (lists_toLobby hc).1 hlists⟩
      · rename_i ha
        obtain ⟨hlists, rfl⟩ := (notify_eq_some (by exact hc)).1 hs
        rw [if_neg ha]
        refine ⟨⟨h, fun p hmem => ?_⟩, rfl⟩
        obtain rfl := Option.some.inj hmem
        exact ⟨hshort, hlists⟩
  · rintro ⟨⟨h, hcontent⟩, rfl⟩
    have ho : unmarshString .newPassword d m.locals = some ((content (cstr d.data)).map cstring) :=
      unmarshString_eq_some.2 ⟨h, rfl, fun p hp => (hcontent p hp).1⟩
    unfold newPassword ChildServer.newPassword
    rw [ho, wire_string h, Option.bind_some]
    cases hp : content (cstr d.data) with
    | none => rfl
    | some password =>
      have hval : (cstring password).val = password :=
        cstr_eq_self.2 fun hn => cstr_nul d.data ((content_some hp).2 0 hn)
      obtain ⟨hshort, hlists⟩ := hcontent password hp
      obtain ⟨name, hname, about, -, hle⟩ := hlists n c hc
      rw [Option.mem_def] at hname
      have h4 : sizeofInt = 4 := rfl
      have hpage : createUserDB name password m.page = some _ := Db.twoArguments_eq 53 m.page (by omega) (by omega)
      simp only [Option.map_some, hval, hname, Option.bind_some, hpage]
      split
      · exact (notify_eq_some (Function.update_self ..)).2 ⟨(lists_toLobby hc).2 hlists, rfl⟩
      · exact (notify_eq_some (by exact hc)).2 ⟨hlists, rfl⟩

theorem readyToPlay_eq_some :
    readyToPlay d n c s = some s' ↔ HarmlessIn db m (cstr d.data) n c s .readyToPlay ∧
      s' = ChildServer.readyToPlay (wireCodec inert) (arrival m d) n c s := by
  unfold HarmlessIn
  rw [← addressed_boolean]
  by_cases ha : Addressed (cstr d.data) .boolean
  · obtain ⟨x, rest, htext, hx⟩ := ha
    obtain ⟨value, hread, hvalue⟩ : ∃ value : Int32, Marshalling.unmarshBoolean (cstr d.data ++ [0]) = some (some value) ∧
        (value = 0 ∨ value = 1) := by
      rw [htext]
      rcases hx with rfl | rfl
      · exact ⟨0, rfl, .inl rfl⟩
      · exact ⟨1, rfl, .inr rfl⟩
    have hwire : (wireCodec inert).unmarshBoolean (arrival m d) = some (decide (value ≠ 0)) := by
      have hread' : Marshalling.unmarshBoolean ((arrival m d).text.val ++ [0]) = some (some value) := hread
      simp only [wireCodec, hread', Option.map_some]
    unfold readyToPlay ChildServer.readyToPlay
    rw [hread, hwire, Option.bind_some]
    unfold notifyNewPlayer
    have haddr : Addressed (cstr d.data) .boolean := ⟨x, rest, htext, hx⟩
    cases hname : c.name with
    | none =>
      refine iff_of_false (fun h => ?_) fun h => ?_
      · rcases hvalue with rfl | rfl <;> cases h
      · exact Bool.noConfusion (h.1 haddr)
    | some name =>
      rcases hvalue with rfl | rfl
      · simp [eq_comm]
      · simp [eq_comm]
  · unfold readyToPlay ChildServer.readyToPlay
    rw [Marshalling.refuses_boolean ha, ChildServer.refuses_boolean (d := arrival m d) ha, Option.bind_some]
    constructor
    · intro hs
      exact ⟨fun h => absurd h ha, (Option.some.inj hs).symm⟩
    · rintro ⟨-, rfl⟩
      rfl

theorem movement_eq_some :
    movement m d n s = some s' ↔ HarmlessIn db m (cstr d.data) n c s .movement ∧
      s' = ChildServer.movement (wireCodec inert) (arrival m d) n s := by
  have hparts : HarmlessIn db m (cstr d.data) n c s .movement ↔ ∀ r, cstr d.data = POINT :: r → ∃ a b, SEP ∉ a ∧
      r = a ++ SEP :: b ∧ a.length ≤ 5 ∧ b.length ≤ 5 ∧ ∃ board ∈ s.gameBoard, board.pDef n ≠ -1 :=
    fields_iff (P := fun a b => a.length ≤ 5 ∧ b.length ≤ 5 ∧ ∃ board ∈ s.gameBoard, board.pDef n ≠ -1)
  rw [hparts]
  by_cases hp : ∃ r, cstr d.data = POINT :: r
  · obtain ⟨r, htext⟩ := hp
    have hr : (0 : UInt8) ∉ POINT :: r := htext ▸ cstr_nul d.data
    have hspec := unmarshPoint_eq_some (nul_of_cons hr) m.locals
    rw [← List.cons_append, ← htext] at hspec
    constructor
    · intro hs
      obtain ⟨o, ho, hs⟩ := Option.bind_eq_some_iff.1 hs
      obtain ⟨a, b, ha, hr, hla, hlb, rfl⟩ := (hspec o).1 ho
      obtain ⟨board, hboard, hs⟩ := Option.bind_eq_some_iff.1 hs
      obtain ⟨hdef, hs⟩ := Option.ite_none_right_eq_some.1 hs
      refine ⟨fun r' hr' => ?_, ?_⟩
      · obtain rfl := (List.cons.inj (htext.symm.trans hr')).2
        exact ⟨a, b, ha, hr, hla, hlb, board, hboard, hdef⟩
      · have ho' : Marshalling.unmarshPoint ((arrival m d).text.val ++ [0]) (arrival m d).locals = some (some _) := ho
        unfold ChildServer.movement
        simp only [wireCodec, ho', Option.map_some, hboard]
        exact (Option.some.inj hs).symm
    · rintro ⟨hok, rfl⟩
      obtain ⟨a, b, ha, hr, hla, hlb, board, hboard, hdef⟩ := hok r htext
      have ho := (hspec _).2 ⟨a, b, ha, hr, hla, hlb, rfl⟩
      have ho' : Marshalling.unmarshPoint ((arrival m d).text.val ++ [0]) (arrival m d).locals = some (some _) := ho
      have hboard' : s.gameBoard = some board := hboard
      unfold movement ChildServer.movement
      rw [ho]
      simp only [wireCodec, ho', Option.map_some, hboard', Option.bind_some, if_pos hdef]
  · have hnone : Marshalling.unmarshPoint (cstr d.data ++ [0]) m.locals = some none :=
      if_pos (head_of_not_addressed hp (by decide))
    unfold movement ChildServer.movement
    rw [hnone, refuses_point (d := arrival m d) hp, Option.bind_some]
    constructor
    · intro hs
      exact ⟨fun r hr => absurd ⟨r, hr⟩ hp, (Option.some.inj hs).symm⟩
    · rintro ⟨-, rfl⟩
      rfl

theorem resolve_eq_some (hd : d.size = (cstr d.data).length) (hlen : (cstr d.data).length < bufferSize)
    (htwo : 1 < (cstr d.data).length) (hc : s.clients n = some c) :
    resolve db m d n c s = some s' ↔ Harmless db m (cstr d.data) n c s ∧
      ChildServer.resolveRequest (wireCodec inert) db ((freshString (cstr d.data).length m.password).getD []) true
        (arrival m d) n s = some s' := by
  unfold resolve Harmless
  rw [if_neg (by omega)]
  cases he : c.expecting with
  | user =>
    rw [resolve_user hc he, Option.some.injEq, @eq_comm _ _ s']
    exact validateUser_eq_some hd hlen
  | password => exact password_eq_some hd hc he
  | newPassword =>
    rw [resolve_newPassword hc he, Option.some.injEq, @eq_comm _ _ s']
    exact newPassword_eq_some hc
  | readyToPlay =>
    rw [resolve_ready hc he, Option.some.injEq, @eq_comm _ _ s']
    exact readyToPlay_eq_some
  | movement =>
    rw [resolve_movement hc he, Option.some.injEq, @eq_comm _ _ s']
    exact movement_eq_some

end Branches

/-! ## The call -/

/-- The strings that `receiveData` completes. -/
def strings : Received → List Bytes
  | .error => []
  | .bytes b => frames 0 b

/-- The message that `readData` hands out next: the first that is pending, or
else that is received. -/
def next (r : Received) (ms : List Bytes) : Option Bytes := (ms ++ strings r).head?

section Call
variable {r : Received} {w : Wrapper} {ms : List Bytes} {sd : StreamData}

variable {db : Db} {m : Fresh} {n : Slot} {c : Client} {s : Server}

end Call

/-- Cleared memory. -/
def clean : Fresh := ⟨zeros 0, cleared, [], fun _ => 0⟩

/-- "356#" and 56 times the letter a. -/
def longName : Arrival := arrive ([51, 53, 54, 35] ++ List.replicate 56 97) (by decide)

end Snuffin.ChildServer.Checked
