import Snuffin.Decoding
/-!
# Decoding and what the arrays held before

No decoder ends the fields it copies with a NUL. Behind a field that is
shorter than its array, `strtol` and `strlen` go on with what the array held
on entry, so that a number or a name is settled by the message alone only when
it fills its array.
-/
open Lib Snuffin.ComWrapper
open Snuffin.Db (CString)

namespace Snuffin.Marshalling

/-! ## Independence -/

/-- The same bytes lie behind the arrays. -/
structure SameAfter (l l' : Locals) : Prop where
  nombre : l.nombre.after = l'.nombre.after
  num : l.num.after = l'.num.after
  num2 : l.num2.after = l'.num2.after
  num3 : l.num3.after = l'.num3.after

/-- The decoder gives a value, and what its arrays held makes no difference. -/
def Independent {V : Type} (decode : Locals → Option (Option V)) : Prop :=
  (∃ l x, decode l = some (some x)) ∧ ∀ l l', SameAfter l l' → decode l = decode l'

theorem SameAfter.symm {l l' : Locals} (h : SameAfter l l') : SameAfter l' l :=
  ⟨h.nombre.symm, h.num.symm, h.num2.symm, h.num3.symm⟩

theorem independent_of {V : Type} {decode : Locals → Option (Option V)} {l₀ : Locals} {x : V}
    (h₀ : decode l₀ = some (some x)) (h : ∀ l l' o, SameAfter l l' → decode l = some o → decode l' = some o) :
    Independent decode := by
  refine ⟨⟨l₀, x, h₀⟩, fun l l' hs => Option.ext fun o => ?_⟩
  exact ⟨h l l' o hs, h l' l o hs.symm⟩

/-! ## Old bytes behind a field -/

/-- An array of NULs but for `x` at `k`, with a NUL behind it. -/
def Scratch.stale (n k : Nat) (x : UInt8) : Scratch n := ⟨(List.replicate n 0).set k x, [0], by simp⟩

/-- Arrays with `x` at `a` in `nombre`, and `y` at `b`, `c` and `d` in the
others. -/
def Locals.stale (x y : UInt8) (a b c d : Nat) : Locals :=
  ⟨.stale 20 a x, .stale 5 b y, .stale 5 c y, .stale 5 d y⟩

theorem sameAfter_stale (x y x' y' : UInt8) (a b c d a' b' c' d' : Nat) :
    SameAfter (.stale x y a b c d) (.stale x' y' a' b' c' d') := ⟨rfl, rfl, rfl, rfl⟩

/-- A field that fills its array hides what the array held. -/
theorem over_full {n : Nat} (a : Scratch n) {t : Bytes} (h : t.length = n) : a.over t = t ++ a.after := by
  rw [Scratch.over, List.drop_eq_nil_of_le (by rw [a.size, h]), List.append_nil]

theorem over_cleared {n k : Nat} (t : Bytes) : ∃ s, (Scratch.stale n k 0).over t = t ++ 0 :: s := by
  refine ⟨List.replicate (n - t.length) 0, ?_⟩
  show t ++ ((List.replicate n 0).set k 0).drop t.length ++ [0] = _
  rw [List.set_replicate_self, List.drop_replicate, List.append_assoc, ← List.replicate_succ', List.replicate_succ]

theorem over_stale {n : Nat} {t : Bytes} (x : UInt8) (h : t.length < n) :
    ∃ s, (Scratch.stale n t.length x).over t = t ++ x :: 0 :: s := by
  refine ⟨List.replicate (n - t.length - 1) 0, ?_⟩
  have hdrop : ((List.replicate n (0 : UInt8)).set t.length x).drop t.length = x :: List.replicate (n - t.length - 1) 0 := by
    obtain ⟨m, hm⟩ : ∃ m, n - t.length = m + 1 := ⟨n - t.length - 1, by omega⟩
    rw [List.drop_set, if_neg (by omega), List.drop_replicate, hm]
    simp [List.replicate_succ]
  show t ++ ((List.replicate n 0).set t.length x).drop t.length ++ [0] = _
  rw [hdrop, List.append_assoc, List.cons_append]
  congr 2
  rw [← List.replicate_succ', List.replicate_succ]

/-- A number of few places is a small one. -/
theorem bounds_of_length {v : Int} (h : (decimal v).length ≤ 5) : -100000 < v ∧ v < 100000 := by
  rcases Int.lt_trichotomy v 0 with hv | rfl | hv
  · obtain ⟨n, rfl⟩ : ∃ n : Nat, v = -(n : Int) := ⟨v.natAbs, by omega⟩
    rw [decimal_neg (by omega), List.length_cons] at h
    have hlt := lt_of_length_text (show (text n).length ≤ 5 by omega)
    omega
  · omega
  · obtain ⟨n, rfl⟩ : ∃ n : Nat, v = (n : Int) := ⟨v.natAbs, by omega⟩
    rw [decimal_natCast (by omega)] at h
    have hlt := lt_of_length_text h
    omega

theorem strtol_of_bounds {s : Bytes} (h : -10000000 < atoi s ∧ atoi s < 10000000) : strtol s = atoi s := by
  unfold strtol
  omega

/-- Behind clean bytes a field is the number that was printed. -/
theorem number_cleared {v : Int} {k : Nat} (h : (decimal v).length ≤ 5) :
    Int32.ofInt (strtol ((Scratch.stale 5 k 0).over (decimal v))) = Int32.ofInt v := by
  obtain ⟨s, hs⟩ := over_cleared (n := 5) (k := k) (decimal v)
  have hb := bounds_of_length h
  have ha := atoi_decimal_nul v s
  rw [hs, strtol_of_bounds (by rw [ha]; omega), ha]

/-- Behind a digit it is another one. -/
theorem number_stale {v : Int} (h : (decimal v).length < 5) :
    Int32.ofInt (strtol ((Scratch.stale 5 (decimal v).length 53).over (decimal v))) ≠ Int32.ofInt v := by
  obtain ⟨s, hs⟩ := over_stale 53 h
  have hb := bounds_of_length (Nat.le_of_lt h)
  have ha := atoi_decimal_digit v s
  rw [hs, strtol_of_bounds (by rw [ha]; split <;> omega), ha]
  intro he
  have hi := congrArg Int32.toInt he
  rw [Int32.toInt_ofInt_of_le (by split <;> omega) (by split <;> omega), Int32.toInt_ofInt_of_le (by omega) (by omega)] at hi
  split at hi <;> omega

/-! ## The decoders -/

theorem serverId_independent {id : Int32} (hfit : (decimal id.toInt).length ≤ 5) :
    Independent (unmarshServerId (serverIdText id ++ [0])) ↔ (decimal id.toInt).length = 5 := by
  have hnul := decimal_nul id.toInt
  have hspec := unmarshServerId_eq_some hnul
  constructor
  · rintro ⟨-, hind⟩
    by_contra hlen
    have hlt : (decimal id.toInt).length < 5 := by omega
    -- With NULs behind it the number is the id, with a digit it is not.
    have h₀ := (hspec (.stale 0 0 0 0 0 0) _).2 ⟨hfit, rfl⟩
    have h₁ := (hind _ _ (sameAfter_stale 0 0 0 53 0 0 0 0 0 (decimal id.toInt).length 0 0)).symm.trans h₀
    obtain ⟨-, he⟩ := (hspec _ _).1 h₁
    exact number_stale hlt ((Option.some.inj he).symm.trans (number_cleared hfit))
  · intro hlen
    refine independent_of ((hspec cleared _).2 ⟨hfit, rfl⟩) fun l l' o hs ho => ?_
    obtain ⟨-, rfl⟩ := (hspec l o).1 ho
    exact (hspec l' _).2 ⟨hfit, by rw [over_full _ hlen, over_full _ hlen, hs.num]⟩

theorem point_independent {p : Point} (hx : (decimal (p.x.toInt + 48)).length ≤ 5)
    (hy : (decimal (p.y.toInt + 48)).length ≤ 5) :
    Independent (unmarshPoint (pointText p ++ [0])) ↔ (decimal (p.x.toInt + 48)).length = 5 := by
  have hnul : (0 : UInt8) ∉ decimal (p.x.toInt + 48) ++ SEP :: decimal (p.y.toInt + 48) := by
    simp [decimal_nul]
  rw [pointText_eq, List.cons_append]
  have hspec := unmarshPoint_eq_some hnul
  have hsep := sep_decimal (p.x.toInt + 48)
  constructor
  · rintro ⟨-, hind⟩
    by_contra hlen
    have hlt : (decimal (p.x.toInt + 48)).length < 5 := by omega
    have h₀ := (hspec (.stale 0 0 0 0 0 0) _).2 ⟨_, _, hsep, rfl, hx, hy, rfl⟩
    have h₁ := (hind _ _ (sameAfter_stale 0 0 0 53 0 0 0 0 0 (decimal (p.x.toInt + 48)).length 0 0)).symm.trans h₀
    obtain ⟨a, b, ha, hr, -, -, he⟩ := (hspec _ _).1 h₁
    obtain ⟨rfl, rfl⟩ := sep_left_inj hsep ha hr
    have hxe := (Int32.sub_left_inj 48).1 (Point.mk.inj (Option.some.inj he)).1
    exact number_stale hlt (hxe.symm.trans (number_cleared hx))
  · intro hlen
    refine independent_of ((hspec cleared _).2 ⟨_, _, hsep, rfl, hx, hy, rfl⟩) fun l l' o hs ho => ?_
    obtain ⟨a, b, ha, hr, hla, hlb, rfl⟩ := (hspec l o).1 ho
    obtain ⟨rfl, rfl⟩ := sep_left_inj hsep ha hr
    have hdrop : ∀ l : Locals, l.num.held.drop (decimal (p.x.toInt + 48)).length = [] := fun l =>
      List.drop_eq_nil_of_le (by rw [l.num.size, hlen])
    exact (hspec l' _).2 ⟨_, _, hsep, rfl, hx, hy, by
      rw [over_full _ hlen, over_full _ hlen, hdrop, hdrop, hs.num]⟩

theorem cstr_over_cleared {k : Nat} {t : Bytes} (hn : (0 : UInt8) ∉ t) : cstr ((Scratch.stale 20 k 0).over t) = t := by
  obtain ⟨s, hs⟩ := over_cleared (n := 20) (k := k) t
  rw [hs, cstr_append hn]

theorem cstr_over_stale {t : Bytes} (hn : (0 : UInt8) ∉ t) (h : t.length < 20) :
    cstr ((Scratch.stale 20 t.length 120).over t) = t ++ [120] := by
  obtain ⟨s, hs⟩ := over_stale 120 h
  have hn' : (0 : UInt8) ∉ t ++ [120] := by
    simp only [List.mem_append, hn, List.mem_singleton, false_or]
    decide
  rw [hs, ← cstr_append hn' s]
  simp

/-- The name runs up to the first separator, also when the separator is in the
name. -/
theorem player_independent {p : Player} (hname : p.name.val.length ≤ 20) (hnum : (decimal p.num.toInt).length ≤ 5)
    (hscore : (decimal p.score.toInt).length ≤ 5) (hready : (decimal p.ready.toInt).length ≤ 5) :
    Independent (unmarshPlayer (playerText p ++ [0])) ↔
      p.name.val.length = 20 ∧ SEP ∉ p.name.val ∧ (decimal p.num.toInt).length = 5 ∧
        (decimal p.score.toInt).length = 5 ∧ (decimal p.ready.toInt).length = 5 := by
  have htext : playerText p = PLAYER :: (p.name.val ++ SEP :: (decimal p.num.toInt ++ SEP ::
      (decimal p.score.toInt ++ SEP :: decimal p.ready.toInt))) := by
    simp [playerText_eq]
  have hnul : (0 : UInt8) ∉ p.name.val ++ SEP :: (decimal p.num.toInt ++ SEP ::
      (decimal p.score.toInt ++ SEP :: decimal p.ready.toInt)) := by
    simp [decimal_nul, p.name.property]
  rw [htext, List.cons_append]
  have hspec := unmarshPlayer_eq_some hnul
  have hsep := sep_decimal
  constructor
  · rintro ⟨⟨l, x, hl⟩, hind⟩
    obtain ⟨a, b, c, d, ha, hb, hc, hr, hla, hlb, hlc, hld, -⟩ := (hspec l _).1 hl
    have hna : (0 : UInt8) ∉ a := fun h => hnul (hr ▸ List.mem_append_left _ h)
    have h₀ := (hspec (.stale 0 0 0 0 0 0) _).2 ⟨a, b, c, d, ha, hb, hc, hr, hla, hlb, hlc, hld, rfl⟩
    have h₁ := (hspec (.stale 120 53 a.length b.length c.length d.length) _).2
      ⟨a, b, c, d, ha, hb, hc, hr, hla, hlb, hlc, hld, rfl⟩
    have he := (h₀.symm.trans (hind _ _ (sameAfter_stale ..))).trans h₁
    obtain ⟨he₁, he₂, he₃, he₄⟩ := Player.mk.inj (Option.some.inj (Option.some.inj he))
    have hlen : a.length = 20 := by
      by_contra hlen
      have hcs := congrArg Subtype.val he₁
      have hc0 : (cstring ((Scratch.stale 20 0 0).over a)).val = a := cstr_over_cleared hna
      have hc1 : (cstring ((Scratch.stale 20 a.length 120).over a)).val = a ++ [120] :=
        cstr_over_stale hna (by omega)
      have := (hc0.symm.trans hcs).trans hc1
      simp at this
    -- A name of 20 bytes at most has no separator after its first 20.
    have hsname : SEP ∉ p.name.val := by
      intro hm
      obtain ⟨u, v, hsu, hu⟩ := List.eq_append_cons_of_mem hm
      have hr' := hr
      rw [hsu, List.append_assoc, List.cons_append] at hr'
      obtain ⟨rfl, -⟩ := sep_left_inj hu ha hr'
      have hl := congrArg List.length hsu
      rw [List.length_append, List.length_cons] at hl
      omega
    obtain ⟨rfl, hr₁⟩ := sep_left_inj hsname ha hr
    obtain ⟨rfl, hr₂⟩ := sep_left_inj (hsep _) hb hr₁
    obtain ⟨rfl, rfl⟩ := sep_left_inj (hsep _) hc hr₂
    have hfull : ∀ {v : Int32}, (decimal v.toInt).length ≤ 5 →
        Int32.ofInt (strtol ((Scratch.stale 5 0 0).over (decimal v.toInt))) =
          Int32.ofInt (strtol ((Scratch.stale 5 (decimal v.toInt).length 53).over (decimal v.toInt))) →
        (decimal v.toInt).length = 5 := by
      intro v hv hev
      by_contra hlen
      exact number_stale (by omega) (hev.symm.trans (number_cleared hv))
    exact ⟨hlen, hsname, hfull hnum he₂, hfull hscore he₃, hfull hready he₄⟩
  · rintro ⟨hlname, hsname, hlnum, hlscore, hlready⟩
    refine independent_of ((hspec cleared _).2
      ⟨_, _, _, _, hsname, hsep _, hsep _, rfl, hname, hnum, hscore, hready, rfl⟩) fun l l' o hs ho => ?_
    obtain ⟨a, b, c, d, ha, hb, hc, hr, hla, hlb, hlc, hld, rfl⟩ := (hspec l o).1 ho
    obtain ⟨rfl, hr₁⟩ := sep_left_inj hsname ha hr
    obtain ⟨rfl, hr₂⟩ := sep_left_inj (hsep _) hb hr₁
    obtain ⟨rfl, rfl⟩ := sep_left_inj (hsep _) hc hr₂
    refine (hspec l' _).2 ⟨_, _, _, _, hsname, hsep _, hsep _, rfl, hname, hnum, hscore, hready, ?_⟩
    rw [over_full _ hlname, over_full _ hlname, over_full _ hlnum, over_full _ hlnum, over_full _ hlscore,
      over_full _ hlscore, over_full _ hlready, over_full _ hlready, hs.nombre, hs.num, hs.num2, hs.num3]

/-- The number of a string only sets how much memory is taken for it. -/
theorem unmarsh_stringText {s : CString} (hplaces : (decimal s.val.length).length ≤ 5) (l : Locals) :
    unmarshString (stringText s ++ [0]) l = some (some s) := by
  have hnul : (0 : UInt8) ∉ decimal s.val.length ++ SEP :: s.val := by
    simp [decimal_nul, s.property]
  have hle := le_strtol_decimal hplaces (l.num.held.drop (decimal s.val.length).length ++ l.num.after)
  rw [← List.append_assoc] at hle
  rw [stringText_eq, List.cons_append]
  refine (unmarshString_eq_some hnul l _).2 ⟨_, s.val, sep_decimal _, rfl, hplaces, hle, ?_⟩
  rw [show cstring s.val = s from Subtype.ext (cstr_eq_self.2 s.property)]

theorem string_independent {s : CString} (hlen : (decimal s.val.length).length ≤ 5) :
    Independent (unmarshString (stringText s ++ [0])) :=
  ⟨⟨cleared, _, unmarsh_stringText hlen _⟩, fun l l' _ => by rw [unmarsh_stringText hlen, unmarsh_stringText hlen]⟩

/-! Boards. -/

theorem boardText_eq (s : Board) :
    boardText s = BOARD :: (decimal s.rows.toInt ++ SEP :: (decimal s.columns.toInt ++ SEP :: [])) := by
  simp [boardText, show kindText BOARD = [BOARD] from rfl]

theorem boardText_nul (s : Board) : (0 : UInt8) ∉ boardText s := by
  simp [boardText_eq, decimal_nul, show (0 : UInt8) ≠ BOARD by decide]

theorem calloc_some {n : Int} {d : Bytes} (h : calloc n = some d) : 0 ≤ n ∧ d = List.replicate n.toNat 0 := by
  obtain ⟨h0, h⟩ := Option.ite_none_right_eq_some.1 h
  exact ⟨h0, (Option.some.inj h).symm⟩

/-- A board that is sent has a header and no more cells than it says. -/
theorem marshBoard_spec {s : Board} {heap : Bytes} {sd : StreamData} (h : marshBoard s heap = some sd) :
    ∃ cells, (0 : UInt8) ∉ cells ∧
      cstr sd.data = BOARD :: (decimal s.rows.toInt ++ SEP :: (decimal s.columns.toInt ++ SEP :: cells)) ∧
      (cells = [] ∨ 0 < s.columns.toInt ∧ (cells.length : Int) ≤ s.rows.toInt * s.columns.toInt) := by
  unfold marshBoard at h
  rw [numPlaces_int, numPlaces_int, Option.bind_some, Option.bind_some] at h
  obtain ⟨size2, h2, h⟩ := Option.bind_eq_some_iff.1 h
  obtain ⟨size, hsize, h⟩ := Option.bind_eq_some_iff.1 h
  obtain ⟨d1, hd1, h⟩ := Option.bind_eq_some_iff.1 h
  obtain ⟨d2, hd2, h⟩ := Option.bind_eq_some_iff.1 h
  obtain ⟨d1', hp, h⟩ := Option.bind_eq_some_iff.1 h
  obtain ⟨d2', hcells, h⟩ := Option.bind_eq_some_iff.1 h
  obtain ⟨d, hcat, rfl⟩ := Option.map_eq_some_iff.1 h
  obtain ⟨rfl, -, -⟩ := int_some h2
  obtain ⟨rfl, -, -⟩ := int_some hsize
  obtain ⟨-, rfl⟩ := calloc_some hd1
  obtain ⟨h20, rfl⟩ := calloc_some hd2
  obtain ⟨hroom, hp⟩ := Option.ite_none_right_eq_some.1 hp
  obtain rfl := Option.some.inj hp
  obtain ⟨hfits, hcat⟩ := Option.ite_none_right_eq_some.1 hcat
  obtain rfl := Option.some.inj hcat
  have hheader := cstr_append (boardText_nul s)
  have hlen : (boardText s).length = 3 + (decimal s.rows.toInt).length + (decimal s.columns.toInt).length := by
    simp only [boardText_eq, List.length_cons, List.length_append, List.length_nil]
    omega
  rw [hheader] at hfits ⊢
  simp only [List.length_append, List.length_cons, List.length_drop, List.length_replicate] at hfits hroom
  have hnul := cstr_nul (d2' ++ heap)
  refine ⟨cstr (d2' ++ heap), hnul, ?_, ?_⟩
  · have hall : (0 : UInt8) ∉ boardText s ++ cstr (d2' ++ heap) := by simp [boardText_nul, hnul]
    rw [cstr_append hall, boardText_eq]
    simp
  · by_contra hc
    rw [not_or, not_and] at hc
    have hpos : 0 < (cstr (d2' ++ heap)).length := List.length_pos_iff.2 hc.1
    have hle : ((cstr (d2' ++ heap)).length : Int) ≤ s.rows.toInt * s.columns.toInt := by omega
    have hcols : ¬0 < s.columns.toInt := fun h => hc.2 h hle
    -- With no column, and with cells, there is no row, and `d2` has been left clear.
    have hrows : s.rows.toInt ≤ 0 := by
      by_contra hr
      have := Int.mul_nonpos_of_nonneg_of_nonpos (show 0 ≤ s.rows.toInt by omega) (show s.columns.toInt ≤ 0 by omega)
      omega
    have hclear : d2' = List.replicate (s.rows.toInt * s.columns.toInt).toNat 0 := by
      rw [marshCells, Int.toNat_of_nonpos hrows] at hcells
      exact (Option.some.inj hcells).symm
    obtain ⟨k, hk⟩ : ∃ k, (s.rows.toInt * s.columns.toInt).toNat = k + 1 :=
      ⟨(s.rows.toInt * s.columns.toInt).toNat - 1, by omega⟩
    apply hc.1
    rw [hclear, hk, List.replicate_succ, List.cons_append]
    exact cstr_append (m := []) (by simp) _

theorem board_independent {s : Board} {heap : Bytes} {sd : StreamData} (h : marshBoard s heap = some sd)
    (hrows : (decimal s.rows.toInt).length ≤ 5) (hcolumns : (decimal s.columns.toInt).length ≤ 5) :
    Independent (unmarshBoard (cstr sd.data ++ [0])) ↔
      (decimal s.rows.toInt).length = 5 ∧ (decimal s.columns.toInt).length = 5 := by
  obtain ⟨cells, hcells, hm, hroom⟩ := marshBoard_spec h
  have hnul : (0 : UInt8) ∉ decimal s.rows.toInt ++ SEP :: (decimal s.columns.toInt ++ SEP :: cells) := by
    simp [decimal_nul, hcells]
  rw [hm, List.cons_append]
  have hspec := unmarshBoard_eq_some hnul
  have hsep := sep_decimal
  -- With clean arrays the header is read as it was printed.
  have h₀ : ∃ board, unmarshBoard (BOARD :: (decimal s.rows.toInt ++ SEP :: (decimal s.columns.toInt ++ SEP :: cells) ++ [0]))
      (.stale 0 0 0 0 0 0) = some (some ⟨board, s.rows, s.columns⟩) := by
    obtain ⟨board, hboard⟩ := Option.isSome_iff_exists.1 ((fillBoard_start hcells fun _ _ => 0).2 hroom)
    refine ⟨board, (hspec _ _).2 ⟨_, _, cells, hsep _, hsep _, rfl, hrows, hcolumns, board, ?_, ?_⟩⟩
    · show _ = some (Board.mk board (Int32.ofInt (strtol ((Scratch.stale 5 0 0).over _)))
        (Int32.ofInt (strtol ((Scratch.stale 5 0 0).over _))))
      rw [number_cleared hrows, number_cleared hcolumns, Int32.ofInt_toInt, Int32.ofInt_toInt]
    · show fillBoard (Int32.ofInt (strtol ((Scratch.stale 5 0 0).over _))).toInt
        (Int32.ofInt (strtol ((Scratch.stale 5 0 0).over _))).toInt _ _ _ _ _ = _
      rw [number_cleared hrows, number_cleared hcolumns, Int32.ofInt_toInt, Int32.ofInt_toInt]
      exact hboard
  obtain ⟨board, h₀⟩ := h₀
  constructor
  · rintro ⟨-, hind⟩
    have h₁ := (hind _ _ (sameAfter_stale 0 0 0 53 0 0 0 0 0 (decimal s.rows.toInt).length
      (decimal s.columns.toInt).length 0)).symm.trans h₀
    obtain ⟨a, b, cells', ha, hb, hr, -, -, board', he, -⟩ := (hspec _ _).1 h₁
    obtain ⟨rfl, hr₁⟩ := sep_left_inj (hsep _) ha hr
    obtain ⟨rfl, -⟩ := sep_left_inj (hsep _) hb hr₁
    obtain ⟨-, he₁, he₂⟩ := Board.mk.inj (Option.some.inj he)
    constructor
    · by_contra hlen
      exact number_stale (v := s.rows.toInt) (by omega) (by rw [Int32.ofInt_toInt]; exact he₁.symm)
    · by_contra hlen
      exact number_stale (v := s.columns.toInt) (by omega) (by rw [Int32.ofInt_toInt]; exact he₂.symm)
  · rintro ⟨hlrows, hlcolumns⟩
    refine independent_of h₀ fun l l' o hs ho => ?_
    obtain ⟨a, b, cells', ha, hb, hr, hla, hlb, board', rfl, hfill⟩ := (hspec l o).1 ho
    obtain ⟨rfl, hr₁⟩ := sep_left_inj (hsep _) ha hr
    obtain ⟨rfl, rfl⟩ := sep_left_inj (hsep _) hb hr₁
    have hnum : ∀ t : Bytes, t.length = 5 → l'.num.over t = l.num.over t := fun t ht => by
      rw [over_full _ ht, over_full _ ht, hs.num]
    have hnum2 : ∀ t : Bytes, t.length = 5 → l'.num2.over t = l.num2.over t := fun t ht => by
      rw [over_full _ ht, over_full _ ht, hs.num2]
    refine (hspec l' _).2 ⟨_, _, cells, hsep _, hsep _, rfl, hrows, hcolumns, board', ?_, ?_⟩
    · rw [hnum _ hlrows, hnum2 _ hlcolumns]
    · rw [hnum _ hlrows, hnum2 _ hlcolumns]
      exact hfill

/-! ## Every message -/

/-- What a client or the server can send; `heap` is what lies behind `d2`
when a board is marshalled. -/
inductive Sent where
  | string (s : CString)
  | point (p : Point)
  | player (p : Player)
  | serverId (id : Int32)
  | board (s : Board) (heap : Bytes)

namespace Sent

def marsh : Sent → Option StreamData
  | .string s => marshString s
  | .point p => marshPoint p
  | .player p => marshPlayer p
  | .serverId id => marshServerId id
  | .board s heap => marshBoard s heap

/-- The fields as they are printed are no longer than the arrays. -/
def FieldsFit : Sent → Prop
  | .string s => (decimal s.val.length).length ≤ 5
  | .point p => (decimal (p.x.toInt + 48)).length ≤ 5 ∧ (decimal (p.y.toInt + 48)).length ≤ 5
  | .player p => p.name.val.length ≤ 20 ∧ (decimal p.num.toInt).length ≤ 5 ∧ (decimal p.score.toInt).length ≤ 5 ∧
      (decimal p.ready.toInt).length ≤ 5
  | .serverId id => (decimal id.toInt).length ≤ 5
  | .board s _ => (decimal s.rows.toInt).length ≤ 5 ∧ (decimal s.columns.toInt).length ≤ 5

/-- The fields that are read back fill their arrays. The length of a string is
not read back, and the second coordinate of a point is written over the first. -/
def Filled : Sent → Prop
  | .string _ => True
  | .point p => (decimal (p.x.toInt + 48)).length = 5
  | .player p => p.name.val.length = 20 ∧ SEP ∉ p.name.val ∧ (decimal p.num.toInt).length = 5 ∧
      (decimal p.score.toInt).length = 5 ∧ (decimal p.ready.toInt).length = 5
  | .serverId id => (decimal id.toInt).length = 5
  | .board s _ => (decimal s.rows.toInt).length = 5 ∧ (decimal s.columns.toInt).length = 5

/-- The matching decoder does not depend on what its arrays held. -/
def ReadAlike (data : Bytes) : Sent → Prop
  | .string _ => Independent (unmarshString data)
  | .point _ => Independent (unmarshPoint data)
  | .player _ => Independent (unmarshPlayer data)
  | .serverId _ => Independent (unmarshServerId data)
  | .board _ _ => Independent (unmarshBoard data)

/-- A message whose fields fit is read alike whatever the arrays held exactly
when its fields fill the arrays. -/
theorem readAlike_iff (v : Sent) {sd : StreamData} (h : v.marsh = some sd) (hfit : v.FieldsFit) :
    v.ReadAlike (cstr sd.data ++ [0]) ↔ v.Filled := by
  cases v with
  | string s =>
    rw [Message.cstr_text (m := .string s) h]
    exact iff_of_true (string_independent hfit) trivial
  | point p =>
    rw [Message.cstr_text (m := .point p) h]
    exact point_independent hfit.1 hfit.2
  | player p =>
    rw [Message.cstr_text (m := .player p) h]
    exact player_independent hfit.1 hfit.2.1 hfit.2.2.1 hfit.2.2.2
  | serverId id =>
    rw [Message.cstr_text (m := .serverId id) h]
    exact serverId_independent hfit
  | board s heap => exact board_independent h hfit.1 hfit.2

/-- An id of five places. -/
theorem readAlike_iff_five : Independent (unmarshServerId [56, 49, 50, 51, 52, 53, 0]) :=
  (readAlike_iff (.serverId 12345) (show _ = some ⟨[56, 49, 50, 51, 52, 53, 0], 7⟩ from rfl)
    (show (decimal 12345).length ≤ 5 by decide)).2 (show (decimal 12345).length = 5 by decide)

/-- The id 7 is read as 75 when the array held a '5' behind it. -/
theorem not_readAlike : marshServerId 7 = some ⟨[56, 55, 0], 3⟩ ∧ unmarshServerId [56, 55, 0] cleared = some (some 7) ∧
    unmarshServerId [56, 55, 0] (.stale 0 53 0 1 0 0) = some (some 75) ∧
    ¬∀ (v : Sent) (sd : StreamData), v.marsh = some sd → v.FieldsFit → v.ReadAlike (cstr sd.data ++ [0]) := by
  refine ⟨rfl, rfl, rfl, fun h => ?_⟩
  have hread : Independent (unmarshServerId [56, 55, 0]) :=
    h (.serverId 7) ⟨[56, 55, 0], 3⟩ rfl (by decide : (decimal 7).length ≤ 5)
  have he := hread.2 (.stale 0 0 0 1 0 0) (.stale 0 53 0 1 0 0) ⟨rfl, rfl, rfl, rfl⟩
  exact absurd (Option.some.inj (Option.some.inj (show some (some (7 : Int32)) = some (some 75) from he))) (by decide)

end Sent

end Snuffin.Marshalling
