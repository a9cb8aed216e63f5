import Snuffin.Boards
import Snuffin.Receiving
/-!
# Messages of any type (marshalling, unmarshalling)

`marshalling` chooses the encoder by the type it is told, `unmarshalling` the
decoder by the first byte, for which it allocates what that decoder fills.
`Carried` says of a struct that it survives both; a connection carries any
sequence of such structs, however their bytes are cut between the messages.
-/
open Lib Snuffin.ComWrapper
open Snuffin.Db (CString)

namespace Snuffin.Marshalling

/-! ## The code -/

abbrev PERDIO : UInt8 := 54
abbrev TERMINO : UInt8 := 55

/-- What `marshalling` is called with; `heap` is what lies behind the cells of
a board in memory. -/
inductive Struc where
  | text (m : Message)
  | board (s : Board) (heap : Bytes)

def Struc.marshalling : Struc → Option StreamData
  | .text m => Marshalling.marshalling m
  | .board s heap => marshBoard s heap

/-- What `unmarshalling` returns a pointer to. -/
inductive Value where
  | string (s : CString)
  | player (p : Player)
  | point (p : Point)
  | board (b : Board)
  | serverId (id : Int32)
  | boolean (value : Int32)

/-- The first byte that a value comes with. -/
def Value.kind : Value → UInt8
  | .string _ => STRING
  | .player _ => PLAYER
  | .point _ => POINT
  | .board _ => BOARD
  | .serverId _ => SERVER_ID
  | .boolean _ => BOOLEAN

/-- `*type`. -/
def Value.type (v : Value) : Nat := v.kind.toNat - 48

/-- The string of a fresh `calloc`. -/
def emptyString : CString := ⟨[], List.not_mem_nil⟩

/-- `unmarshalling` on a message with its NUL. What a decoder refuses leaves
the struct as `calloc` gave it, and a string longer than the `calloc` for it
is written behind it, which is `none`. `some none` is NULL, with `*type` as it
was. -/
def unmarshalling (data : Bytes) (l : Locals) : Option (Option Value) :=
  match data.head? with
  | none => none
  | some tag =>
    if tag = STRING ∨ tag = TERMINO ∨ tag = PERDIO then
      (unmarshString data l).bind fun o =>
        let s := o.getD emptyString
        -- calloc(1,sizeof(char *))
        if s.val.length < ChildServer.sizeofPointer then some (some (.string s)) else none
    else if tag = PLAYER then
      (unmarshPlayer data l).bind fun o =>
        let p := o.getD ⟨emptyString, 0, 0, 0⟩
        if p.name.val.length < 20 then some (some (.player p)) else none
    else if tag = POINT then (unmarshPoint data l).map fun o => some (.point (o.getD ⟨0, 0⟩))
    else if tag = BOARD then (unmarshBoard data l).map fun o => some (.board (o.getD ⟨fun _ _ => 0, 0, 0⟩))
    else if tag = SERVER_ID then (unmarshServerId data l).map fun o => some (.serverId (o.getD 0))
    else if tag = BOOLEAN then (unmarshBoolean data).map fun o => some (.boolean (o.getD 0))
    else some none

/-- The bytes on the connection when some structs are marshalled and sent. -/
def Struc.sendAll (xs : List Struc) : Option Bytes :=
  (xs.mapM Struc.marshalling).map fun sds => sds.flatMap fun sd => sd.data.take sd.size.toNat

/-- `unmarshalling` on one message after the other; `loc k` are the arrays of
the call that has `k` calls after it. -/
def unmarshallAll (loc : Nat → Locals) : List Bytes → Option (List (Option Value))
  | [] => some []
  | m :: ms => (unmarshalling (m ++ [0]) (loc ms.length)).bind fun v => (unmarshallAll loc ms).map (v :: ·)

/-! ## What is carried -/

/-- The value is what was sent. Of a board that is its cells. -/
def Struc.Same : Struc → Value → Prop
  | .text (.string s), .string s' => s' = s
  | .text (.player p), .player p' => p' = p
  | .text (.point p), .point p' => p' = p
  | .text (.serverId id), .serverId id' => id' = id
  | .text (.boolean value), .boolean value' => value' = value
  | .board s _, .board b => SameBoard s b
  | _, _ => False

/-- The number is printed in four places at most. -/
def Short (v : Int) : Prop := (decimal v).length ≤ 4

instance (v : Int) : Decidable (Short v) := inferInstanceAs (Decidable ((decimal v).length ≤ 4))

/-- What has to be so for a struct to be read back: strings and names fit what
`unmarshalling` allocates, numbers fit the decoder's arrays, and a board has
the shape that `marshBoard` gets right. -/
def Struc.Carried : Struc → Prop
  | .text (.string s) => s.val.length < ChildServer.sizeofPointer
  | .text (.player p) =>
    SEP ∉ p.name.val ∧ p.name.val.length < 20 ∧ Short p.num.toInt ∧ Short p.score.toInt ∧ Short p.ready.toInt
  | .text (.point p) => Short (p.x.toInt + 48) ∧ Short (p.y.toInt + 48) ∧
      ((decimal (p.x.toInt + 48)).length ≤ (decimal (p.y.toInt + 48)).length ∨
        p.y.toInt + 48 = 0 ∧ ∀ c ∈ (decimal (p.x.toInt + 48)).tail, c = 48)
  | .text (.serverId id) => Short id.toInt
  | .text (.boolean value) => value = 0 ∨ value = 1
  | .board s heap => s.Proper ∧ cstr heap = [] ∧ (s.height = 1 ∨ s.height = s.width)

/-- What is sent for a struct, but for the NUL. -/
def Struc.body : Struc → Bytes
  | .text m => m.text
  | .board s _ => boardText s ++ s.cells

/-- A string that fits its `calloc` is read back, whatever the arrays hold. -/
theorem unmarshalling_string {s : CString} (h : s.val.length < ChildServer.sizeofPointer) (l : Locals) :
    unmarshalling (stringText s ++ [0]) l = some (some (.string s)) := by
  have hlen : s.val.length < 8 := h
  have hplaces : (decimal s.val.length).length ≤ 5 := (length_decimal_le (Nat.succ_pos 4)).2 (by omega)
  have hread := unmarsh_stringText hplaces l
  rw [stringText_eq] at hread ⊢
  exact Option.bind_eq_some_iff.2 ⟨_, hread, if_pos h⟩

/-- A player whose fields end in the arrays is read back. -/
theorem unmarshalling_player {p : Player} {l : Locals} (h : p.EndsIn l) (hlen : p.name.val.length < 20) :
    unmarshalling (playerText p ++ [0]) l = some (some (.player p)) := by
  have hread := unmarshPlayer_ends h
  rw [playerText_eq] at hread ⊢
  exact Option.bind_eq_some_iff.2 ⟨_, hread, if_pos hlen⟩

section Text
variable {l : Locals} (hl : l.Zeroed)
include hl

theorem unmarsh_serverIdText {id : Int32} (h : Short id.toInt) :
    unmarshServerId (serverIdText id ++ [0]) l = some (some id) := by
  have h4 : (decimal id.toInt).length ≤ 4 := h
  apply (unmarshServerId_eq_some (decimal_nul _) l _).2
  refine ⟨by omega, ?_⟩
  rw [number_over hl.num h, Int32.ofInt_toInt]

theorem unmarsh_pointText {p : Point} (h : (Struc.text (.point p)).Carried) :
    unmarshPoint (pointText p ++ [0]) l = some (some p) := by
  obtain ⟨hx, hy, hplaces⟩ := h
  have hx4 : (decimal (p.x.toInt + 48)).length ≤ 4 := hx
  have hy4 : (decimal (p.y.toInt + 48)).length ≤ 4 := hy
  have hbx := bounds_of_length (Nat.le_succ_of_le hx)
  have hby := bounds_of_length (Nat.le_succ_of_le hy)
  obtain ⟨s, hs⟩ := number_second hl.num hx hy
  obtain ⟨hstrtol, hb⟩ := strtol_second hx hy s
  have hfirst : Int32.ofInt (p.x.toInt + 48) - 48 = p.x := (ofInt_sub_48 hbx hbx).2 rfl
  have hsecond := (ofInt_sub_48 hb hby).2 ((atoi_second _ _ s).2 hplaces)
  have hnul : (0 : UInt8) ∉ decimal (p.x.toInt + 48) ++ SEP :: decimal (p.y.toInt + 48) := by
    simp [decimal_nul]
  rw [pointText_eq, List.cons_append]
  apply (unmarshPoint_eq_some hnul l _).2
  refine ⟨_, _, sep_decimal _, rfl, by omega, by omega, ?_⟩
  rw [number_over hl.num hx, hfirst, hs, hstrtol, hsecond]

/-- What is carried is read back. -/
theorem Struc.Carried.read_back {x : Struc} (h : x.Carried) :
    ∃ v, unmarshalling (x.body ++ [0]) l = some (some v) ∧ x.Same v := by
  cases x with
  | text m =>
    cases m with
    | string s => exact ⟨.string s, unmarshalling_string h l, rfl⟩
    | player p =>
      obtain ⟨hsep, hlen, hnum, hscore, hready⟩ := h
      exact ⟨.player p, unmarshalling_player (endsIn_zeroed hl hsep hlen hnum hscore hready) hlen, rfl⟩
    | point p =>
      have hread := unmarsh_pointText hl h
      refine ⟨.point p, ?_, rfl⟩
      rw [pointText_eq] at hread
      rw [Struc.body, Message.text, pointText_eq]
      exact Option.map_eq_some_iff.2 ⟨_, hread, rfl⟩
    | serverId id =>
      refine ⟨.serverId id, ?_, rfl⟩
      exact Option.map_eq_some_iff.2 ⟨_, unmarsh_serverIdText hl h, rfl⟩
    | boolean value =>
      refine ⟨.boolean value, ?_, rfl⟩
      rcases h with rfl | rfl
      · rfl
      · rfl
  | board s heap =>
    obtain ⟨b, hread, hsame⟩ := read_sent h.1 hl
    refine ⟨.board b, ?_, hsame⟩
    rw [boardText_eq] at hread
    rw [Struc.body, boardText_eq]
    exact Option.map_eq_some_iff.2 ⟨_, hread, rfl⟩

end Text

/-! ## What is sent -/

theorem Struc.Carried.body_nul {x : Struc} (h : x.Carried) : (0 : UInt8) ∉ x.body := by
  cases x with
  | text m => exact m.text_nul
  | board s heap =>
    rw [Struc.body, List.mem_append, not_or]
    exact ⟨boardText_nul s, cells_nul h.1⟩

/-- A text of moderate length is marshalled. -/
theorem Struc.Carried.fits {m : Message} (h : (Struc.text m).Carried) : m.Fits := by
  cases m with
  | string s =>
    have hlen : s.val.length < 8 := h
    have hplaces : (decimal s.val.length).length ≤ 5 := (length_decimal_le (Nat.succ_pos 4)).2 (by omega)
    have hl := length_stringText s
    refine ⟨by simp, ?_⟩
    simp only [Message.text]
    unfold intMax
    omega
  | player p => exact player_fits h.2.1
  | point p => exact Point.fits h.1 h.2.1
  | serverId id => exact serverId_fits id
  | boolean value => exact boolean_fits value

theorem Struc.Carried.sent {x : Struc} (h : x.Carried) :
    ∃ sd, x.marshalling = some sd ∧ sd.data.take sd.size.toNat = x.body ++ [0] := by
  cases x with
  | text m =>
    have hm := h.fits.marshalling
    exact ⟨_, hm, m.sent hm⟩
  | board s heap =>
    obtain ⟨sd, hm, hdata, hsize⟩ := sent_of_shape h.1 h.2.1 h.2.2
    refine ⟨sd, hm, ?_⟩
    rw [hsize, Int.toNat_natCast, List.take_length, hdata]
    rfl

/-- The bytes on the connection are the bodies, each with its NUL. -/
theorem sendAll_wire {xs : List Struc} (h : ∀ x ∈ xs, x.Carried) : Struc.sendAll xs = some (wire 0 (xs.map Struc.body)) := by
  have hsds : ∃ sds, xs.mapM Struc.marshalling = some sds ∧
      sds.flatMap (fun sd => sd.data.take sd.size.toNat) = wire 0 (xs.map Struc.body) := by
    induction xs with
    | nil => exact ⟨[], rfl, rfl⟩
    | cons x xs ih =>
      obtain ⟨sds, hxs, hbytes⟩ := ih fun y hy => h y (List.mem_cons_of_mem _ hy)
      obtain ⟨sd, hx, hsent⟩ := (h x List.mem_cons_self).sent
      refine ⟨sd :: sds, by simp [List.mapM_cons, hx, hxs], ?_⟩
      rw [List.flatMap_cons, hsent, hbytes, List.map_cons, wire_cons, List.append_assoc, List.singleton_append]
  obtain ⟨sds, hmap, hbytes⟩ := hsds
  rw [Struc.sendAll, hmap, Option.map_some, hbytes]

/-! ## What is received -/

/-- The structs of some chunks; each chunk holds the whole messages of a
group. -/
def InChunks (groups : List (List Struc)) (chunks : List Bytes) : Prop :=
  List.Forall₂ (fun g c => g ≠ [] ∧ Struc.sendAll g = some c ∧ c.length ≤ bufferSize) groups chunks

theorem frames_chunks {groups : List (List Struc)} {chunks : List Bytes} (hg : InChunks groups chunks)
    (h : ∀ x ∈ groups.flatten, x.Carried) :
    chunks.flatMap (frames 0) = groups.flatten.map Struc.body ∧
      ∀ c ∈ chunks, frames 0 c ≠ [] ∧ c.length ≤ bufferSize := by
  induction hg with
  | nil => exact ⟨rfl, by simp⟩
  | @cons g c groups chunks hgc _ ih =>
    obtain ⟨hne, hsent, hlen⟩ := hgc
    rw [List.flatten_cons, List.forall_mem_append] at h
    obtain ⟨hf, hall⟩ := ih h.2
    rw [sendAll_wire h.1] at hsent
    have hfirst : frames 0 c = g.map Struc.body := by
      rw [← Option.some.inj hsent]
      apply frames_wire
      intro m hm
      obtain ⟨x, hx, rfl⟩ := List.mem_map.1 hm
      exact (h.1 x hx).body_nul
    refine ⟨by rw [List.flatMap_cons, hfirst, hf, List.flatten_cons, List.map_append], fun d hd => ?_⟩
    rcases List.mem_cons.1 hd with rfl | hd
    · exact ⟨by rw [hfirst]; simpa using hne, hlen⟩
    · exact hall d hd

/-- Strings that are pending and the messages of the chunks are handed out one
by one. -/
theorem readAll_bodies {ys : List Struc} {groups : List (List Struc)} {chunks : List Bytes} (hg : InChunks groups chunks)
    (h : ∀ x ∈ ys ++ groups.flatten, x.Carried) {w : Wrapper} (hw : Pending w (ys.map Struc.body))
    (hys : ∀ x ∈ ys, x.body.length < bufferSize) {buf : Nat → StreamData} (hbuf : ∀ k, (buf k).data.length = bufferSize)
    {n : Nat} (hn : (ys ++ groups.flatten).length ≤ n) :
    readAll buf n chunks w = some ((ys ++ groups.flatten).map Struc.body) := by
  rw [List.forall_mem_append] at h
  obtain ⟨hf, hall⟩ := frames_chunks hg h.2
  have hpending : ∀ m ∈ ys.map Struc.body, (0 : UInt8) ∉ m ∧ m.length < bufferSize := by
    intro m hm
    obtain ⟨x, hx, rfl⟩ := List.mem_map.1 hm
    exact ⟨(h.1 x hx).body_nul, hys x hx⟩
  obtain ⟨hsome, hout⟩ := readAll_eq hbuf n chunks hw hpending fun c hc => (hall c hc).2
  obtain ⟨out, ho⟩ := hsome fun c hc => (hall c hc).1
  rw [ho, hout out ho, hf, ← List.map_append, List.take_of_length_le (by rwa [List.length_map])]

theorem unmarshallAll_bodies {loc : Nat → Locals} (hloc : ∀ k, (loc k).Zeroed) {xs : List Struc}
    (h : ∀ x ∈ xs, x.Carried) :
    ∃ vs, unmarshallAll loc (xs.map Struc.body) = some (vs.map some) ∧ List.Forall₂ Struc.Same xs vs := by
  induction xs with
  | nil => exact ⟨[], rfl, .nil⟩
  | cons x xs ih =>
    obtain ⟨vs, hvs, hsame⟩ := ih fun y hy => h y (List.mem_cons_of_mem _ hy)
    obtain ⟨v, hv, hx⟩ := (h x List.mem_cons_self).read_back (hloc (xs.map Struc.body).length)
    refine ⟨v :: vs, ?_, .cons hx hsame⟩
    rw [List.map_cons, unmarshallAll, hv, Option.bind_some, hvs]
    rfl

/-- Any sequence of structs that are carried, of whatever types, is read back
in order, however their messages are grouped into chunks and however many of
them are pending. -/
theorem strucs_read_back {ys : List Struc} {groups : List (List Struc)} {chunks : List Bytes}
    (hg : InChunks groups chunks) (h : ∀ x ∈ ys ++ groups.flatten, x.Carried) {w : Wrapper}
    (hw : Pending w (ys.map Struc.body)) (hys : ∀ x ∈ ys, x.body.length < bufferSize) {buf : Nat → StreamData}
    (hbuf : ∀ k, (buf k).data.length = bufferSize) {loc : Nat → Locals} (hloc : ∀ k, (loc k).Zeroed) {n : Nat}
    (hn : (ys ++ groups.flatten).length ≤ n) :
    ∃ ms vs, readAll buf n chunks w = some ms ∧ unmarshallAll loc ms = some (vs.map some) ∧
      List.Forall₂ Struc.Same (ys ++ groups.flatten) vs := by
  obtain ⟨vs, hvs, hsame⟩ := unmarshallAll_bodies hloc h
  exact ⟨_, vs, readAll_bodies hg h hw hys hbuf hn, hvs, hsame⟩

/-- A notice and a board of one cell in one chunk, then TRUE. -/
theorem strucs_read_back_three : ∃ ms vs,
    readAll zeros 3 [[50, 97, 35, 49, 35, 48, 35, 49, 0, 53, 49, 35, 49, 35, 52, 0], [52, 49, 0]] .start = some ms ∧
      unmarshallAll (fun _ => cleared) ms = some (vs.map some) ∧
      List.Forall₂ Struc.Same
        ([] ++ [[.text (.player ⟨⟨[97], by decide⟩, 1, 0, 1⟩), .board ⟨fun _ _ => 4, 1, 1⟩ [0]], [.text (.boolean 1)]].flatten)
        vs := by
  have hg : InChunks [[.text (.player ⟨⟨[97], by decide⟩, 1, 0, 1⟩), .board ⟨fun _ _ => 4, 1, 1⟩ [0]], [.text (.boolean 1)]]
      [[50, 97, 35, 49, 35, 48, 35, 49, 0, 53, 49, 35, 49, 35, 52, 0], [52, 49, 0]] :=
    .cons ⟨by simp, rfl, by decide⟩ (.cons ⟨by simp, rfl, by decide⟩ .nil)
  refine strucs_read_back hg ?_ (.inl ⟨rfl, rfl⟩) (by simp) (fun _ => List.length_replicate) (fun _ => zeroed_cleared)
    (Nat.le_refl 3)
  simp only [List.flatten_cons, List.flatten_nil, List.append_nil, List.cons_append, List.nil_append, List.forall_mem_cons]
  refine ⟨?_, ?_, .inr rfl, by simp⟩
  · exact ⟨by decide, by decide, by decide, by decide, by decide⟩
  · exact ⟨⟨by decide, by decide, by decide, fun _ _ _ _ => of_decide_eq_true rfl⟩, rfl, .inl rfl⟩

end Snuffin.Marshalling
