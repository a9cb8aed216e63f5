import Snuffin.Lobby
/-!
# The entry of a client in its own table

`changeReady` writes the client's own entry when a key is pressed, and the
server never answers with a notice about it. So the entry is right as long as
nothing under way to the client touches it: `Own` says that, and what is under
way before the client has its entry.
-/
open Lib Snuffin.Game

namespace Snuffin.ChildServer

/-- A message about another slot and another name. -/
def Spares (n : Slot) (name : Option Bytes) : Msg → Prop
  | .player p => p.num ≠ n ∧ p.name ≠ name
  | .string s => strtol s ≠ n.val
  | .boolean _ | .board _ => True

def Free (n : Slot) (name : Option Bytes) (q : List Packet) : Prop := ∀ x ∈ q, Spares n name x.msg

/-- A name that is at slot `n` or nowhere. -/
def OnlyAt (n : Slot) (name : Option Bytes) (players : Players) : Prop :=
  ∀ i e, players i = some e → e.name = name → i = n

/-- The client in slot `n` has its entry, as ready as the client is, and
nothing under way changes it; or exactly one notice under way creates it, and
the client is not ready. -/
inductive Own (n : Slot) (name : Option Bytes) (r : Room) (q : List Packet) : Prop
  | listed (e : Player) : r.players n = some e → e.name = name → e.ready = r.ready → Free n name q → Own n name r q
  | coming (pre : List Packet) (x : Packet) (post : List Packet) (p : Player) : q = pre ++ x :: post → x.msg = .player p →
      p.num = n → p.name = name → p.ready = false → r.players n = none → r.ready = false → Free n name pre →
      Free n name post → Own n name r q

section Own
variable {n : Slot} {name : Option Bytes} {r : Room} {q q' : List Packet} {players t : Players}

theorem Free.append (h : Free n name q) (h' : Free n name q') : Free n name (q ++ q') := by
  intro x hx
  exact (List.mem_append.1 hx).elim (h x) (h' x)

/-- Another client leaves. -/
theorem free_leave {m : Slot} (hmn : m ≠ n) (why : Why) (taken : Nat) :
    Free n name [⟨why, taken, .string (slotText m)⟩] := by
  intro x hx
  rw [List.mem_singleton.1 hx]
  show strtol (slotText m) ≠ n.val
  rw [strtol_slotText]
  intro he
  exact hmn (Fin.ext (by exact_mod_cast he))

theorem free_boolean (why : Why) (taken : Nat) (b : Bool) : Free n name [⟨why, taken, .boolean b⟩] := by
  intro x hx
  rw [List.mem_singleton.1 hx]
  trivial

/-- Changing the flag of an entry changes no name. -/
theorem OnlyAt.setReady (h : OnlyAt n name players) (i : Slot) (b : Bool) : OnlyAt n name (setReady players i b) := by
  intro j e he hname
  by_cases hj : j = i
  · subst hj
    unfold ChildServer.setReady at he
    rw [Function.update_self] at he
    obtain ⟨e₀, h₀, rfl⟩ := Option.map_eq_some_iff.1 he
    exact h j e₀ h₀ hname
  · unfold ChildServer.setReady at he
    rw [Function.update_of_ne hj] at he
    exact h j e he hname

theorem OnlyAt.update (h : OnlyAt n name players) (i : Slot) {o : Option Player}
    (ho : ∀ e, o = some e → e.name = name → i = n) : OnlyAt n name (Function.update players i o) := by
  intro j e he hname
  by_cases hj : j = i
  · subst hj
    rw [Function.update_self] at he
    exact ho e he hname
  · rw [Function.update_of_ne hj] at he
    exact h j e he hname

/-- A message that spares a slot leaves its entry alone. -/
theorem absorb_spares (hnum : Numbered players) (hn : ∀ e, players n = some e → e.name = name) {m : Msg}
    (hm : Spares n name m) (ht : absorb players m = some t) : t n = players n := by
  cases m with
  | player p =>
    rw [← Option.some.inj ht]
    unfold addPlayer
    cases hb : belongs players p.name with
    | none => exact Function.update_of_ne (Ne.symm hm.1) _ _
    | some i =>
      have hi : n ≠ i := by
        rintro rfl
        obtain ⟨e, he, hname⟩ := belongs_eq_some hb
        exact hm.2 (hname.symm.trans (hn e he))
      exact Function.update_of_ne hi _ _
  | string s =>
    obtain ⟨i, e, hs, -, -, rfl⟩ := playerLeft_eq_some hnum ht
    have hi : n ≠ i := by
      rintro rfl
      exact hm hs
    exact Function.update_of_ne hi _ _
  | boolean | board => rw [← Option.some.inj ht]

theorem OnlyAt.absorb (h : OnlyAt n name players) {m : Msg} (hm : Spares n name m) (ht : absorb players m = some t) :
    OnlyAt n name t := by
  cases m with
  | player p =>
    rw [← Option.some.inj ht]
    unfold addPlayer
    cases belongs players p.name with
    | none =>
      apply h.update
      intro e he hname
      rw [← Option.some.inj he] at hname
      exact absurd hname hm.2
    | some i => exact h.setReady i p.ready
  | string s =>
    obtain ⟨i, -, rfl⟩ := Option.map_eq_some_iff.1 ht
    exact h.update i fun e he => by cases he
  | boolean | board => exact Option.some.inj ht ▸ h

/-- The client reads its next message. -/
theorem Own.hear {x : Packet} (h : Own n name r (x :: q)) (hnum : Numbered r.players) (ho : OnlyAt n name r.players)
    {r' : Room} (hr : r.hear x.msg = some r') : OnlyAt n name r'.players ∧ Own n name r' q := by
  obtain ⟨t, ht, rfl⟩ := Option.map_eq_some_iff.1 hr
  cases h with
  | listed e he hname hready hq =>
    have hx := hq x List.mem_cons_self
    have hkeep : t n = r.players n := by
      apply absorb_spares hnum _ hx ht
      intro e' he'
      rw [he, Option.some.injEq] at he'
      exact he' ▸ hname
    exact ⟨ho.absorb hx ht, .listed e (hkeep.trans he) hname hready fun y hy => hq y (List.mem_cons_of_mem _ hy)⟩
  | coming pre y post p hq hy hn hname hp hnone hready hpre hpost =>
    cases pre with
    | nil =>
      rw [List.nil_append, List.cons.injEq] at hq
      obtain ⟨rfl, rfl⟩ := hq
      have hb : belongs r.players p.name = none := by
        rw [belongs_eq_none]
        intro i e he hei
        rw [ho i e he (hei.trans hname), hnone] at he
        cases he
      have ht' : t = Function.update r.players n (some p) := by
        rw [hy] at ht
        rw [← Option.some.inj ht]
        unfold addPlayer
        rw [hb, ← hn]
      refine ⟨?_, .listed p ?_ hname (hp.trans hready.symm) hpost⟩
      · rw [ht']
        exact ho.update n fun _ _ _ => rfl
      · rw [ht']
        exact Function.update_self ..
    | cons z pre =>
      rw [List.cons_append, List.cons.injEq] at hq
      obtain ⟨rfl, rfl⟩ := hq
      have hx := hpre x List.mem_cons_self
      have hkeep : t n = r.players n := by
        apply absorb_spares hnum _ hx ht
        intro e' he'
        rw [hnone] at he'
        cases he'
      exact ⟨ho.absorb hx ht, .coming pre y post p rfl hy hn hname hp (hkeep.trans hnone) hready
        (fun z hz => hpre z (List.mem_cons_of_mem _ hz)) hpost⟩

theorem Own.append (h : Own n name r q) (hq' : Free n name q') : Own n name r (q ++ q') := by
  cases h with
  | listed e he hname hready hq => exact .listed e he hname hready (hq.append hq')
  | coming pre x post p hq hx hn hname hp hnone hready hpre hpost =>
    refine .coming pre x (post ++ q') p ?_ hx hn hname hp hnone hready hpre (hpost.append hq')
    rw [hq, List.append_assoc, List.cons_append]

/-- A key is pressed, and the client has its entry. -/
theorem Own.press {myName : Bytes} (h : Own n (some myName) r q) (ho : OnlyAt n (some myName) r.players)
    (hhas : (belongs r.players (some myName)).isSome = true) (b : Bool) :
    let r' := { r with ready := b, players := changeReady myName b r.players }
    OnlyAt n (some myName) r'.players ∧ Own n (some myName) r' q := by
  obtain ⟨i, hi⟩ := Option.isSome_iff_exists.1 hhas
  obtain ⟨e, he, hname⟩ := belongs_eq_some hi
  obtain rfl := ho i e he hname
  have hc : changeReady myName b r.players = setReady r.players i b := by
    unfold changeReady
    rw [hi]
  cases h with
  | listed e' _ _ _ hq =>
    have hself : setReady r.players i b i = some { e with ready := b } := by
      unfold setReady
      rw [Function.update_self, he]
      rfl
    rw [hc]
    exact ⟨ho.setReady i b, .listed { e with ready := b } hself hname rfl hq⟩
  | coming _ _ _ _ _ _ _ _ _ hnone =>
    rw [hnone] at he
    cases he

end Own

/-! ## What a client has still to read -/

theorem alike_changeReady (myName : Bytes) (b : Bool) (players : Players) :
    ∃ S, Alike S players (changeReady myName b players) ∧ ∀ i ∈ S, belongs players (some myName) = some i := by
  unfold changeReady
  cases hb : belongs players (some myName) with
  | none => exact ⟨∅, fun i => ⟨rfl, fun _ => rfl⟩, fun i hi => hi.elim⟩
  | some i =>
    refine ⟨{i}, alike_setReady players i b, fun j hj => ?_⟩
    rw [Set.mem_singleton_iff.1 hj]

/-- The client `name` in slot `n` can read `q` to its end, and will know
then what `View` says; its own entry counts for `strict`. -/
structure Prospect (strict : Prop) (t : Table) (told : List Nat) (n : Slot) (name : Option Bytes) (r : Room)
    (q : List Packet) : Prop where
  numbered : Numbered r.players
  view : ∃ u, absorbAll r.players q = some u ∧ View strict t told n u
  own : strict → OnlyAt n name r.players ∧ Own n name r q

section Prospect
variable {strict : Prop} {t t' : Table} {told told' : List Nat} {n : Slot} {name : Option Bytes} {r : Room}
  {q q' : List Packet}

theorem Prospect.hear {x : Packet} (h : Prospect strict t told n name r (x :: q)) :
    ∃ r', r.hear x.msg = some r' ∧ Prospect strict t told n name r' q := by
  obtain ⟨u, habs, hu⟩ := h.view
  rw [absorbAll_cons] at habs
  obtain ⟨v, hv, habs⟩ := Option.bind_eq_some_iff.1 habs
  have hr : r.hear x.msg = some _ := Option.map_eq_some_iff.2 ⟨v, hv, rfl⟩
  refine ⟨_, hr, h.numbered.absorb hv, ⟨u, habs, hu⟩, fun hs => ?_⟩
  exact (h.own hs).2.hear h.numbered (h.own hs).1 hr

/-- More is sent. -/
theorem Prospect.append (h : Prospect strict t told n name r q)
    (hq : ∀ u, View strict t told n u →
      (∃ u', absorbAll u q' = some u' ∧ View strict t' told' n u') ∧ (strict → Free n name q')) :
    Prospect strict t' told' n name r (q ++ q') := by
  obtain ⟨u, habs, hu⟩ := h.view
  obtain ⟨⟨u', habs', hu'⟩, hfree⟩ := hq u hu
  refine ⟨h.numbered, ⟨u', ?_, hu'⟩, fun hs => ⟨(h.own hs).1, (h.own hs).2.append (hfree hs)⟩⟩
  rw [absorbAll_append, habs, Option.bind_some, habs']

/-- Nothing is sent. -/
theorem Prospect.mono (h : Prospect strict t told n name r q)
    (hV : ∀ u, View strict t told n u → View strict t' told' n u) : Prospect strict t' told' n name r q := by
  obtain ⟨u, habs, hu⟩ := h.view
  exact ⟨h.numbered, ⟨u, habs, hV u hu⟩, h.own⟩

/-- The client presses a key. -/
theorem Prospect.press {myName : Bytes} (h : Prospect strict t told n name r q) (hname : strict → name = some myName)
    (hhas : strict → (belongs r.players (some myName)).isSome = true) (b : Bool) :
    Prospect strict t told n name { r with ready := b, players := changeReady myName b r.players } q := by
  obtain ⟨u, habs, hu⟩ := h.view
  obtain ⟨S, halike, hS⟩ := alike_changeReady myName b r.players
  obtain ⟨u', habs', halike'⟩ := halike.absorbAll q habs
  refine ⟨h.numbered.changeReady myName b, ⟨u', habs', hu.alike halike' fun hs i hi => ?_⟩, fun hs => ?_⟩
  · obtain ⟨e, he, hei⟩ := belongs_eq_some (hS i hi)
    exact (h.own hs).1 i e he (hei.trans (hname hs).symm)
  · obtain ⟨ho, hown⟩ := h.own hs
    rw [hname hs] at ho hown ⊢
    exact hown.press ho (hhas hs) b

end Prospect

end Snuffin.ChildServer
