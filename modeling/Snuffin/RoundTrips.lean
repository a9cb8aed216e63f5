import Snuffin.Independence
import Snuffin.Streams
/-!
# What is decoded from what was encoded

The decoders of marshalling.c on what its encoders give, with arrays that are
zero-filled on entry. A number of four places at most has a NUL behind it
then, whatever lies behind the array (`number_over`). What is left to go wrong
is said exactly for each kind of message.
-/
open Lib Snuffin.ComWrapper
open Snuffin.Db (CString)

namespace Snuffin.Marshalling

/-! ## Zero-filled arrays -/

/-- The arrays hold NULs on entry. What lies behind them is anything. -/
structure Locals.Zeroed (l : Locals) : Prop where
  nombre : l.nombre.held = List.replicate 20 0
  num : l.num.held = List.replicate 5 0
  num2 : l.num2.held = List.replicate 5 0
  num3 : l.num3.held = List.replicate 5 0

theorem zeroed_cleared : cleared.Zeroed := ⟨rfl, rfl, rfl, rfl⟩

/-- A field that is shorter than its array has a NUL behind it. -/
theorem over_zeroed {n : Nat} {a : Scratch n} (h : a.held = List.replicate n 0) {t : Bytes} (ht : t.length < n) :
    ∃ s, a.over t = t ++ 0 :: s := by
  obtain ⟨m, hm⟩ : ∃ m, n - t.length = m + 1 := ⟨n - t.length - 1, by omega⟩
  refine ⟨List.replicate m 0 ++ a.after, ?_⟩
  rw [Scratch.over, h, List.drop_replicate, hm, List.replicate_succ, List.append_assoc, List.cons_append]

/-- A number of four places at most is read as it was printed. -/
theorem number_over {a : Scratch 5} (h : a.held = List.replicate 5 0) {v : Int} (hv : (decimal v).length ≤ 4) :
    Int32.ofInt (strtol (a.over (decimal v))) = Int32.ofInt v := by
  obtain ⟨s, hs⟩ := over_zeroed h (show (decimal v).length < 5 by omega)
  have hb := bounds_of_length (show (decimal v).length ≤ 5 by omega)
  have ha := atoi_decimal_nul v s
  rw [hs, strtol_of_bounds (by rw [ha]; omega), ha]

/-- What an array holds behind the printed number is no digit. -/
def Ends (v : Int) (num : Scratch 5) : Prop :=
  ∀ x ∈ (num.held.drop (decimal v).length ++ num.after).head?, isDigit x = false

instance (v : Int) (num : Scratch 5) : Decidable (Ends v num) := Option.decidableForallMem _

/-- Then the number is read as it was printed. -/
theorem number_ends {num : Scratch 5} {v : Int} (hlen : (decimal v).length ≤ 5) (h : Ends v num) :
    strtol (num.over (decimal v)) = v := by
  have hatoi : atoi (num.over (decimal v)) = v := by
    unfold Scratch.over
    rw [List.append_assoc, atoi_decimal_append_iff]
    exact .inl h
  have hbounds := bounds_of_length hlen
  rw [strtol_of_bounds (by rw [hatoi]; omega), hatoi]

/-- A zero-filled array ends a number of four places. -/
theorem ends_zeroed {num : Scratch 5} (h : num.held = List.replicate 5 0) {v : Int} (hv : (decimal v).length ≤ 4) :
    Ends v num := by
  obtain ⟨m, hm⟩ : ∃ m, 5 - (decimal v).length = m + 1 := ⟨4 - (decimal v).length, by omega⟩
  unfold Ends
  rw [h, List.drop_replicate, hm, List.replicate_succ]
  intro x hx
  rw [← Option.some.inj hx]
  rfl

theorem length_decimal_pos (v : Int) : 0 < (decimal v).length := by
  rcases Int.lt_trichotomy v 0 with hv | rfl | hv
  · obtain ⟨n, rfl⟩ : ∃ n : Nat, v = -(n : Int) := ⟨v.natAbs, by omega⟩
    rw [decimal_neg (by omega), List.length_cons]
    exact Nat.succ_pos _
  · decide
  · obtain ⟨n, rfl⟩ : ∃ n : Nat, v = (n : Int) := ⟨v.natAbs, by omega⟩
    rw [decimal_natCast (by omega), length_text (by omega)]
    exact Nat.succ_pos _

/-- A minus sign is the first byte only. -/
theorem isDigit_drop_decimal (v : Int) {k : Nat} (hk : 0 < k) : ∀ c ∈ (decimal v).drop k, isDigit c = true := by
  intro c hc
  obtain ⟨k, rfl⟩ : ∃ j, k = j + 1 := ⟨k - 1, by omega⟩
  rcases Int.lt_trichotomy v 0 with hv | rfl | hv
  · obtain ⟨n, rfl⟩ : ∃ n : Nat, v = -(n : Int) := ⟨v.natAbs, by omega⟩
    rw [decimal_neg (by omega), List.drop_succ_cons] at hc
    exact isDigit_text c (List.mem_of_mem_drop hc)
  · rw [show decimal 0 = [48] from rfl, List.drop_succ_cons, List.drop_nil] at hc
    cases hc
  · obtain ⟨n, rfl⟩ : ∃ n : Nat, v = (n : Int) := ⟨v.natAbs, by omega⟩
    rw [decimal_natCast (by omega)] at hc
    exact isDigit_text c (List.mem_of_mem_drop hc)

/-! ## Points -/

/-- The second coordinate is copied over the first, whose last digits stay
behind a shorter one. -/
theorem number_second {a : Scratch 5} (h : a.held = List.replicate 5 0) {v w : Int} (hv : (decimal v).length ≤ 4)
    (hw : (decimal w).length ≤ 4) :
    ∃ s, decimal w ++ (decimal v ++ a.held.drop (decimal v).length).drop (decimal w).length ++ a.after =
      decimal w ++ ((decimal v).drop (decimal w).length ++ 0 :: s) := by
  obtain ⟨m, hm⟩ : ∃ m, 5 - ((decimal v).length + ((decimal w).length - (decimal v).length)) = m + 1 :=
    ⟨5 - ((decimal v).length + ((decimal w).length - (decimal v).length)) - 1, by omega⟩
  refine ⟨List.replicate m 0 ++ a.after, ?_⟩
  rw [h, List.drop_replicate, List.drop_append, List.drop_replicate, Nat.sub_sub, hm, List.replicate_succ,
    List.append_assoc, List.append_assoc, List.cons_append]

theorem atoi_second (v w : Int) (s : Bytes) :
    atoi (decimal w ++ ((decimal v).drop (decimal w).length ++ 0 :: s)) = w ↔
      (decimal v).length ≤ (decimal w).length ∨ w = 0 ∧ ∀ c ∈ (decimal v).tail, c = 48 := by
  have hdig := isDigit_drop_decimal v (length_decimal_pos w)
  have htake : ((decimal v).drop (decimal w).length ++ 0 :: s).takeWhile isDigit = (decimal v).drop (decimal w).length := by
    rw [takeWhile_nul, List.takeWhile_eq_self_iff.2 hdig]
  have hhead : (∀ x ∈ ((decimal v).drop (decimal w).length ++ 0 :: s).head?, isDigit x = false) ↔
      (decimal v).length ≤ (decimal w).length := by
    rw [← List.drop_eq_nil_iff]
    cases hd : (decimal v).drop (decimal w).length with
    | nil => simp [isDigit]
    | cons x d =>
      have hx : isDigit x = true := hdig x (by rw [hd]; exact List.mem_cons_self)
      simp [hx]
  rw [atoi_decimal_append_iff, hhead, htake]
  refine or_congr_right (and_congr_right fun h0 => ?_)
  rw [h0, show (decimal 0).length = 1 from rfl, List.drop_one]

theorem strtol_second {v w : Int} (hv : (decimal v).length ≤ 4) (hw : (decimal w).length ≤ 4) (s : Bytes) :
    strtol (decimal w ++ ((decimal v).drop (decimal w).length ++ 0 :: s)) =
        atoi (decimal w ++ ((decimal v).drop (decimal w).length ++ 0 :: s)) ∧
      -100000 < atoi (decimal w ++ ((decimal v).drop (decimal w).length ++ 0 :: s)) ∧
      atoi (decimal w ++ ((decimal v).drop (decimal w).length ++ 0 :: s)) < 100000 := by
  have hlen : (text w.natAbs ++ (decimal v).drop (decimal w).length).length ≤ 5 := by
    have ht : (text w.natAbs).length ≤ (decimal w).length := by
      unfold decimal
      split
      · rename_i h0; simp [h0]
      · simp
    rw [List.length_append, List.length_drop]
    omega
  have hlt := digitsValue_lt (text w.natAbs ++ (decimal v).drop (decimal w).length) s
  have hpow := Nat.pow_le_pow_right (show 0 < 10 by decide) hlen
  rw [List.append_assoc] at hlt
  have hb : -100000 < atoi (decimal w ++ ((decimal v).drop (decimal w).length ++ 0 :: s)) ∧
      atoi (decimal w ++ ((decimal v).drop (decimal w).length ++ 0 :: s)) < 100000 := by
    rw [atoi_decimal_append]
    split <;> omega
  exact ⟨strtol_of_bounds (by omega), hb⟩

theorem Point.fits {p : Point} (hx : (decimal (p.x.toInt + 48)).length ≤ 4) (hy : (decimal (p.y.toInt + 48)).length ≤ 4) :
    (Message.point p).Fits := by
  have hbx := bounds_of_length (show (decimal (p.x.toInt + 48)).length ≤ 5 by omega)
  have hby := bounds_of_length (show (decimal (p.y.toInt + 48)).length ≤ 5 by omega)
  refine ⟨fun q hq => ?_, ?_⟩
  · cases hq
    unfold intMax
    omega
  · simp only [Message.text, pointText_eq, List.length_cons, List.length_append]
    unfold intMax
    omega

theorem ofInt_sub_48 {p : Int32} {v : Int} (hv : -100000 < v ∧ v < 100000) (hb : -100000 < p.toInt + 48 ∧ p.toInt + 48 < 100000) :
    Int32.ofInt v - 48 = p ↔ v = p.toInt + 48 := by
  have hp : p = Int32.ofInt (p.toInt + 48) - 48 := by
    rw [Int32.ofInt_add, Int32.ofInt_toInt]
    exact (Int32.add_sub_cancel p 48).symm
  constructor
  · intro h
    rw [hp, Int32.sub_left_inj] at h
    have hi := congrArg Int32.toInt h
    rwa [Int32.toInt_ofInt_of_le (by omega) (by omega), ← Int32.ofInt_toInt p, Int32.ofInt_toInt,
      Int32.toInt_ofInt_of_le (by omega) (by omega)] at hi
  · rintro rfl
    exact hp.symm

/-- A point is read back exactly when its second coordinate is printed in as
many places as the first, or is the number 0 over zeros. -/
theorem point_read_back (p : Point) (hx : (decimal (p.x.toInt + 48)).length ≤ 4)
    (hy : (decimal (p.y.toInt + 48)).length ≤ 4) (l : Locals) (hl : l.Zeroed) :
    (∃ sd, marshPoint p = some sd ∧ unmarshPoint sd.data l = some (some p)) ↔
      (decimal (p.x.toInt + 48)).length ≤ (decimal (p.y.toInt + 48)).length ∨
        p.y.toInt + 48 = 0 ∧ ∀ c ∈ (decimal (p.x.toInt + 48)).tail, c = 48 := by
  have hm : marshPoint p = some ⟨pointText p ++ [0], _⟩ := (Point.fits hx hy).marshalling
  have hnul : (0 : UInt8) ∉ decimal (p.x.toInt + 48) ++ SEP :: decimal (p.y.toInt + 48) := by
    simp [decimal_nul]
  have hspec := unmarshPoint_eq_some hnul l (some p)
  obtain ⟨s, hs⟩ := number_second hl.num hx hy
  obtain ⟨hstrtol, hb⟩ := strtol_second hx hy s
  have hbx := bounds_of_length (show (decimal (p.x.toInt + 48)).length ≤ 5 by omega)
  have hby := bounds_of_length (show (decimal (p.y.toInt + 48)).length ≤ 5 by omega)
  have hfirst : Int32.ofInt (p.x.toInt + 48) - 48 = p.x := (ofInt_sub_48 hbx hbx).2 rfl
  rw [← atoi_second _ _ s, ← ofInt_sub_48 hb hby, ← hstrtol, ← hs]
  constructor
  · rintro ⟨sd, hsd, hread⟩
    obtain rfl := Option.some.inj (hm.symm.trans hsd)
    rw [pointText_eq, List.cons_append] at hread
    obtain ⟨a, b, ha, hr, -, -, ho⟩ := hspec.1 hread
    obtain ⟨rfl, rfl⟩ := sep_left_inj (sep_decimal _) ha hr
    exact (congrArg Point.y (Option.some.inj ho)).symm
  · intro h
    refine ⟨_, hm, ?_⟩
    rw [pointText_eq, List.cons_append]
    refine hspec.2 ⟨_, _, sep_decimal _, rfl, by omega, by omega, ?_⟩
    rw [h, number_over hl.num hx, hfirst]

/-- The point (0, 1), "148#49". -/
theorem point_read_back_unit : ∃ sd, marshPoint ⟨0, 1⟩ = some sd ∧ unmarshPoint sd.data cleared = some (some ⟨0, 1⟩) :=
  (point_read_back ⟨0, 1⟩ (by decide) (by decide) cleared zeroed_cleared).2 (.inl (by decide))

/-- The point (52, 1) is sent as "1100#49" and comes back with 490 - 48 as its
second coordinate. -/
theorem point_not_read_back : marshPoint ⟨52, 1⟩ = some ⟨[49, 49, 48, 48, 35, 52, 57, 0], 8⟩ ∧
    unmarshPoint [49, 49, 48, 48, 35, 52, 57, 0] cleared = some (some ⟨52, 442⟩) ∧
    ¬∀ p : Point, (decimal (p.x.toInt + 48)).length ≤ 4 → (decimal (p.y.toInt + 48)).length ≤ 4 →
      ∀ l : Locals, l.Zeroed → ∃ sd, marshPoint p = some sd ∧ unmarshPoint sd.data l = some (some p) := by
  have hsent : marshPoint ⟨52, 1⟩ = some ⟨[49, 49, 48, 48, 35, 52, 57, 0], 8⟩ := rfl
  have hread : unmarshPoint [49, 49, 48, 48, 35, 52, 57, 0] cleared = some (some ⟨52, 442⟩) := rfl
  refine ⟨hsent, hread, fun h => ?_⟩
  obtain ⟨sd, hsd, hback⟩ := h ⟨52, 1⟩ (by decide) (by decide) cleared zeroed_cleared
  obtain rfl := Option.some.inj (hsent.symm.trans hsd)
  have he := Option.some.inj (Option.some.inj (hread.symm.trans hback))
  exact absurd (Point.mk.inj he).2 (by decide)

/-! ## Ids of servers -/

/-- What is copied into `num` stays in it and is ended by a NUL in it. -/
def EndsInside (data : Bytes) (num : Scratch 5) : Prop :=
  ∃ num' rest, copyUntil 0 data.tail 0 num.held = some (num', rest) ∧ (0 : UInt8) ∈ num'

theorem length_decimal_le {n k : Nat} (hk : 0 < k) : (decimal n).length ≤ k ↔ n < 10 ^ k := by
  rcases Nat.eq_zero_or_pos n with rfl | hn
  · have hpow : 0 < 10 ^ k := Nat.pow_pos (by decide)
    exact iff_of_true (by rw [show decimal ((0 : Nat) : Int) = [48] from rfl]; exact hk) hpow
  · rw [decimal_natCast hn]
    exact ⟨lt_of_length_text, length_text_le⟩

theorem length_decimal_int (v : Int32) : (decimal v.toInt).length ≤ 11 := by
  have hb := toInt_bounds v
  unfold intMin intMax at hb
  have ht : (text v.toInt.natAbs).length ≤ 10 := length_text_le (by omega)
  unfold decimal
  split
  · simp
  · split <;> simp <;> omega

theorem serverId_fits (id : Int32) : (Message.serverId id).Fits := by
  have hlen := length_decimal_int id
  refine ⟨by simp, ?_⟩
  simp only [Message.text, serverIdText, show kindText SERVER_ID = [SERVER_ID] from rfl, List.length_append,
    List.length_singleton]
  unfold intMax
  omega

/-- The id of a server is read back, from bytes inside `num` only, exactly
when it has four places at most. -/
theorem serverId_read_back (id : Int32) (h0 : 0 ≤ id.toInt) (l : Locals) (hl : l.Zeroed) :
    (∃ sd, marshServerId id = some sd ∧ unmarshServerId sd.data l = some (some id) ∧ EndsInside sd.data l.num) ↔
      id.toInt < 10000 := by
  have hm : marshServerId id = some ⟨serverIdText id ++ [0], _⟩ := (serverId_fits id).marshalling
  have htext : serverIdText id ++ [0] = SERVER_ID :: (decimal id.toInt ++ [0]) := rfl
  obtain ⟨n, hn⟩ : ∃ n : Nat, id.toInt = (n : Int) := ⟨id.toInt.toNat, by omega⟩
  have hplaces : (decimal id.toInt).length ≤ 4 ↔ id.toInt < 10000 := by
    have hiff := length_decimal_le (n := n) (k := 4) (by decide)
    rw [hn]
    omega
  rw [htext] at hm
  rw [← hplaces]
  constructor
  · rintro ⟨sd, hsd, -, num, rest, hcopy, h0⟩
    obtain rfl := Option.some.inj (hm.symm.trans hsd)
    obtain ⟨-, hlen, rfl⟩ := (copy_last (decimal_nul _)).1 hcopy
    rw [hl.num, List.drop_replicate, List.mem_append, List.mem_replicate] at h0
    rcases h0 with h0 | ⟨h0, -⟩
    · exact absurd h0 (decimal_nul _)
    · omega
  · intro hlen
    refine ⟨_, hm, ?_, ?_⟩
    · refine (unmarshServerId_eq_some (decimal_nul _) l _).2 ⟨by omega, ?_⟩
      rw [number_over hl.num hlen, Int32.ofInt_toInt]
    · refine ⟨_, _, (copy_last (decimal_nul _)).2 ⟨rfl, by rw [l.num.size]; omega, rfl⟩, ?_⟩
      rw [hl.num, List.drop_replicate, List.mem_append, List.mem_replicate]
      exact .inr ⟨by omega, rfl⟩

/-- The id 7. -/
theorem serverId_read_back_seven : ∃ sd, marshServerId 7 = some sd ∧ unmarshServerId sd.data cleared = some (some 7) ∧
    EndsInside sd.data cleared.num :=
  (serverId_read_back 7 (by decide) cleared zeroed_cleared).2 (by decide)

/-- The port 42096 fills `num`, and a '7' behind the array makes it another
number. -/
theorem port_not_read_back : ¬(∀ id : Int32, 0 ≤ id.toInt → ∀ l : Locals, l.Zeroed → ∃ sd, marshServerId id = some sd ∧
      unmarshServerId sd.data l = some (some id) ∧ EndsInside sd.data l.num) ∧
    unmarshServerId [56, 52, 50, 48, 57, 54, 0] { cleared with num := ⟨List.replicate 5 0, [55], by simp⟩ } =
      some (some 420967) := by
  refine ⟨fun h => ?_, rfl⟩
  obtain ⟨sd, hsd, -, num, rest, hcopy, h0⟩ := h 42096 (by decide) cleared zeroed_cleared
  have hm : marshServerId 42096 = some ⟨[56, 52, 50, 48, 57, 54, 0], 7⟩ := rfl
  obtain rfl := Option.some.inj (hm.symm.trans hsd)
  have hc : copyUntil 0 [52, 50, 48, 57, 54, (0 : UInt8)] 0 cleared.num.held = some ([52, 50, 48, 57, 54], []) := rfl
  obtain ⟨rfl, -⟩ := Prod.mk.inj (Option.some.inj (hc.symm.trans hcopy))
  exact absurd h0 (by decide)

/-! ## Players -/

/-- What an array holds behind the name is a NUL. -/
def Stops (name : Bytes) (nombre : Scratch 20) : Prop :=
  ∀ x ∈ (nombre.held.drop name.length ++ nombre.after).head?, x = 0

instance (name : Bytes) (nombre : Scratch 20) : Decidable (Stops name nombre) := Option.decidableForallMem _

/-- The decoder's arrays end the fields of a player. -/
def Player.EndsIn (p : Player) (l : Locals) : Prop :=
  SEP ∉ p.name.val ∧ p.name.val.length ≤ 20 ∧ Stops p.name.val l.nombre ∧
    ((decimal p.num.toInt).length ≤ 5 ∧ Ends p.num.toInt l.num) ∧
    ((decimal p.score.toInt).length ≤ 5 ∧ Ends p.score.toInt l.num2) ∧
    ((decimal p.ready.toInt).length ≤ 5 ∧ Ends p.ready.toInt l.num3)

instance (p : Player) (l : Locals) : Decidable (p.EndsIn l) := by
  unfold Player.EndsIn
  infer_instance

/-- A player's message with its NUL, by its fields. -/
theorem player_fields (p : Player) :
    (0 : UInt8) ∉ p.name.val ++ SEP :: (decimal p.num.toInt ++ SEP ::
      (decimal p.score.toInt ++ SEP :: decimal p.ready.toInt)) ∧
    playerText p ++ [0] = PLAYER :: ((p.name.val ++ SEP :: (decimal p.num.toInt ++ SEP ::
      (decimal p.score.toInt ++ SEP :: decimal p.ready.toInt))) ++ [0]) :=
  ⟨by simp [decimal_nul, p.name.property], by simp [playerText_eq]⟩

/-- Then the player is read back. -/
theorem unmarshPlayer_ends {p : Player} {l : Locals} (h : p.EndsIn l) :
    unmarshPlayer (playerText p ++ [0]) l = some (some p) := by
  obtain ⟨hsep, hlen, hnombre, ⟨hnum, hnum'⟩, ⟨hscore, hscore'⟩, hready, hready'⟩ := h
  obtain ⟨hnul, htext⟩ := player_fields p
  have hname : cstring (l.nombre.over p.name.val) = p.name := by
    apply Subtype.ext
    show cstr (l.nombre.over p.name.val) = p.name.val
    unfold Stops at hnombre
    unfold Scratch.over
    rw [List.append_assoc]
    cases hrest : l.nombre.held.drop p.name.val.length ++ l.nombre.after with
    | nil => rw [List.append_nil, cstr_eq_self.2 p.name.property]
    | cons x rest =>
      rw [hrest] at hnombre
      obtain rfl : x = 0 := hnombre x rfl
      exact cstr_append p.name.property rest
  rw [htext]
  apply (unmarshPlayer_eq_some hnul l _).2
  refine ⟨_, _, _, _, hsep, sep_decimal _, sep_decimal _, rfl, hlen, hnum, hscore, hready, ?_⟩
  rw [hname, number_ends hnum hnum', number_ends hscore hscore', number_ends hready hready', Int32.ofInt_toInt,
    Int32.ofInt_toInt, Int32.ofInt_toInt]

/-- Zero-filled arrays end the fields of a player whose numbers take four places
at most. -/
theorem endsIn_zeroed {p : Player} {l : Locals} (hl : l.Zeroed) (hsep : SEP ∉ p.name.val) (hlen : p.name.val.length < 20)
    (hnum : (decimal p.num.toInt).length ≤ 4) (hscore : (decimal p.score.toInt).length ≤ 4)
    (hready : (decimal p.ready.toInt).length ≤ 4) : p.EndsIn l := by
  refine ⟨hsep, hlen.le, ?_, ⟨Nat.le_succ_of_le hnum, ends_zeroed hl.num hnum⟩,
    ⟨Nat.le_succ_of_le hscore, ends_zeroed hl.num2 hscore⟩, Nat.le_succ_of_le hready, ends_zeroed hl.num3 hready⟩
  obtain ⟨m, hm⟩ : ∃ m, 20 - p.name.val.length = m + 1 := ⟨19 - p.name.val.length, by omega⟩
  unfold Stops
  rw [hl.nombre, List.drop_replicate, hm, List.replicate_succ]
  intro x hx
  exact (Option.some.inj hx).symm

theorem player_fits {p : Player} (h : p.name.val.length < 20) : (Message.player p).Fits := by
  have hnum := length_decimal_int p.num
  have hscore := length_decimal_int p.score
  have hready := length_decimal_int p.ready
  refine ⟨by simp, ?_⟩
  simp only [Message.text, playerText_eq, List.length_cons, List.length_append]
  unfold intMax
  omega

theorem boolean_fits (value : Int32) : (Message.boolean value).Fits := by
  have hlen := length_decimal_int value
  refine ⟨by simp, ?_⟩
  simp only [Message.text, booleanText, show kindText BOOLEAN = [BOOLEAN] from rfl, List.length_append,
    List.length_singleton]
  unfold intMax
  omega

/-- A player is read back into a name of 20 bytes exactly when the name has no
separator and less than 20 bytes. -/
theorem player_read_back (p : Player) (hnum : (decimal p.num.toInt).length ≤ 4)
    (hscore : (decimal p.score.toInt).length ≤ 4) (hready : (decimal p.ready.toInt).length ≤ 4) (l : Locals)
    (hl : l.Zeroed) :
    (∃ sd q, marshPlayer p = some sd ∧ unmarshPlayer sd.data l = some (some q) ∧ q.name.val.length + 1 ≤ 20 ∧ q = p) ↔
      SEP ∉ p.name.val ∧ p.name.val.length < 20 := by
  obtain ⟨hnul, htext⟩ := player_fields p
  have hspec := unmarshPlayer_eq_some hnul l (some p)
  constructor
  · rintro ⟨sd, q, hsd, hread, hlen, rfl⟩
    have hm : marshPlayer q = some ⟨playerText q ++ [0], _⟩ :=
      (Message.fits_of_marshalling (m := .player q) hsd).marshalling
    obtain rfl := Option.some.inj (hm.symm.trans hsd)
    dsimp only at hread
    rw [htext] at hread
    obtain ⟨a, b, c, d, ha, hb, hc, hr, hla, -, -, -, ho⟩ := hspec.1 hread
    refine ⟨fun hmem => ?_, by omega⟩
    -- What stands before the first separator is shorter than the name, and is the name that is read.
    obtain ⟨u, v, hname, hu⟩ := List.eq_append_cons_of_mem hmem
    have hr' := hr
    rw [hname, List.append_assoc, List.cons_append] at hr'
    obtain ⟨rfl, -⟩ := sep_left_inj hu ha hr'
    have hl' := congrArg List.length hname
    rw [List.length_append, List.length_cons] at hl'
    have hnu : (0 : UInt8) ∉ u := fun h => q.name.property (by rw [hname]; exact List.mem_append_left _ h)
    obtain ⟨s, hs⟩ := over_zeroed hl.nombre (show u.length < 20 by omega)
    have hn : q.name.val = cstr (l.nombre.over u) := congrArg (fun q => q.name.val) (Option.some.inj ho)
    rw [hs, cstr_append hnu] at hn
    rw [hn] at hl'
    omega
  · rintro ⟨hname, hlen⟩
    have hm : marshPlayer p = some ⟨playerText p ++ [0], _⟩ := (player_fits hlen).marshalling
    exact ⟨_, p, hm, unmarshPlayer_ends (endsIn_zeroed hl hname hlen hnum hscore hready), by omega, rfl⟩

/-- The player "ana" in slot 2. -/
theorem player_read_back_ana : ∃ sd q, marshPlayer ⟨⟨[97, 110, 97], by decide⟩, 2, 10, 1⟩ = some sd ∧
    unmarshPlayer sd.data cleared = some (some q) ∧ q.name.val.length + 1 ≤ 20 ∧
      q = ⟨⟨[97, 110, 97], by decide⟩, 2, 10, 1⟩ :=
  (player_read_back ⟨⟨[97, 110, 97], by decide⟩, 2, 10, 1⟩ (by decide) (by decide) (by decide) cleared
    zeroed_cleared).2 ⟨by decide, by decide⟩

/-- A name as `scanf("%20s", name)` gives it. -/
def Scanned (name : CString) : Prop := 1 ≤ name.val.length ∧ name.val.length ≤ 20 ∧ ∀ c ∈ name.val, isSpace c = false

/-- The name "a#b" comes back as "a", with the 0 that "b" is read as for its
slot; and a name of 20 bytes takes 21 bytes. -/
theorem player_not_read_back :
    Scanned ⟨[97, 35, 98], by decide⟩ ∧
    marshPlayer ⟨⟨[97, 35, 98], by decide⟩, 2, 3, 1⟩ = some ⟨[50, 97, 35, 98, 35, 50, 35, 51, 35, 49, 0], 11⟩ ∧
    unmarshPlayer [50, 97, 35, 98, 35, 50, 35, 51, 35, 49, 0] cleared = some (some ⟨⟨[97], by decide⟩, 0, 2, 3⟩) ∧
    ¬∀ p : Player, Scanned p.name → 0 ≤ p.num ∧ p.num < 4 → (decimal p.score.toInt).length ≤ 4 →
      p.ready = 0 ∨ p.ready = 1 → ∀ l : Locals, l.Zeroed → ∃ sd q, marshPlayer p = some sd ∧
        unmarshPlayer sd.data l = some (some q) ∧ q.name.val.length + 1 ≤ 20 ∧ q = p := by
  have hscan : Scanned ⟨[97, 35, 98], by decide⟩ := ⟨by decide, by decide, by simp [isSpace]⟩
  have hsent : marshPlayer ⟨⟨[97, 35, 98], by decide⟩, 2, 3, 1⟩ =
    some ⟨[50, 97, 35, 98, 35, 50, 35, 51, 35, 49, 0], 11⟩ := rfl
  have hread : unmarshPlayer [50, 97, 35, 98, 35, 50, 35, 51, 35, 49, 0] cleared =
    some (some ⟨⟨[97], by decide⟩, 0, 2, 3⟩) := rfl
  refine ⟨hscan, hsent, hread, fun h => ?_⟩
  obtain ⟨sd, q, hsd, hback, -, rfl⟩ := h ⟨⟨[97, 35, 98], by decide⟩, 2, 3, 1⟩ hscan ⟨by decide, by decide⟩ (by decide)
    (.inr rfl) cleared zeroed_cleared
  obtain rfl := Option.some.inj (hsent.symm.trans hsd)
  have he := Option.some.inj (Option.some.inj (hread.symm.trans hback))
  exact absurd (Player.mk.inj he).2.1 (by decide)

/-! ## Strings over a connection -/

/-- `unmarshString` on what `readData` left, for a caller whose buffer is
`spare` bytes longer than the message. -/
def decodeString (sd : StreamData) (l : Locals) (spare : Nat) : Option (Option CString) :=
  (unmarshString (cstr sd.data ++ [0]) l).bind fun o =>
    if o.elim 0 (fun s => s.val.length + 1) ≤ sd.size.toNat + spare then some o else none

/-- What the caller decodes after each of `n` calls of `readData`, and how
often `receiveData` is called. The `k`th call from the end has `buf k`, `loc k`
and `spare k`. With nothing to receive a call waits, and that is the end. -/
def readStrings (buf : Nat → StreamData) (loc : Nat → Locals) (spare : Nat → Nat) :
    Nat → List Bytes → Wrapper → Option (List (Option CString) × Nat)
  | 0, _, _ => some ([], 0)
  | n + 1, chunks, w =>
    match w.readBuffer, chunks with
    | none, [] => some ([], 0)
    | none, c :: cs =>
      (readData (.bytes c) (buf n) w).bind fun (_, sd, w) =>
        (decodeString sd (loc n) (spare n)).bind fun o =>
          (readStrings buf loc spare n cs w).map fun (os, k) => (o :: os, k + 1)
    | some _, cs =>
      (readData .error (buf n) w).bind fun (_, sd, w) =>
        (decodeString sd (loc n) (spare n)).bind fun o =>
          (readStrings buf loc spare n cs w).map fun (os, k) => (o :: os, k)

theorem stringText_nul (s : CString) : (0 : UInt8) ∉ stringText s := (Message.string s).text_nul

theorem length_stringText (s : CString) :
    (stringText s).length = 2 + (decimal s.val.length).length + s.val.length := by
  simp only [stringText_eq, List.length_cons, List.length_append]
  omega

theorem decodeString_text {s : CString} {data : Bytes} (hc : cstr data = stringText s)
    (hlen : (stringText s).length < bufferSize) {l : Locals} (spare : Nat) :
    decodeString ⟨data, (stringText s).length⟩ l spare = some (some s) := by
  have hl := length_stringText s
  unfold bufferSize at hlen
  have hplaces : (decimal s.val.length).length ≤ 5 := (length_decimal_le (by decide)).2 (by omega)
  rw [decodeString, hc, unmarsh_stringText hplaces, Option.bind_some]
  exact if_pos (by rw [Option.elim_some, Int.toNat_natCast]; omega)

section Strings
variable {buf : Nat → StreamData} (hbuf : ∀ k, (buf k).data.length = bufferSize) (loc : Nat → Locals)
  (spare : Nat → Nat)
include hbuf

/-- A pending string is decoded without receiving anything. -/
theorem readStrings_pending (n : Nat) (cs : List Bytes) {w : Wrapper} {s : CString} {ss : List CString}
    (h : Pending w ((s :: ss).map stringText)) (hlen : (stringText s).length < bufferSize) :
    ∃ w', Pending w' (ss.map stringText) ∧
      readStrings buf loc spare (n + 1) cs w =
        (readStrings buf loc spare n cs w').map fun (os, k) => (some s :: os, k) := by
  obtain ⟨data, ht, hc⟩ := takeString_spec h (stringText_nul s) (buf n) (by rw [hbuf]; exact hlen)
  refine ⟨w.advance, h.advance, ?_⟩
  obtain ⟨b, hb⟩ : ∃ b, w.readBuffer = some b := by
    obtain ⟨hne, -⟩ | ⟨-, done, hb, -⟩ := h
    · cases hne
    · exact ⟨_, hb⟩
  simp only [readStrings, hb, readData_pending h, ht, Option.bind_some, decodeString_text hc hlen]

/-- With none pending, the next chunk is received. -/
theorem readStrings_receive (n : Nat) {c : Bytes} (cs : List Bytes) {w : Wrapper} {s : CString} {ss : List CString}
    (h : Pending w []) (hlen : c.length ≤ bufferSize) (hf : frames 0 c = (s :: ss).map stringText) :
    ∃ w', Pending w' (ss.map stringText) ∧
      readStrings buf loc spare (n + 1) (c :: cs) w =
        (readStrings buf loc spare n cs w').map fun (os, k) => (some s :: os, k + 1) := by
  obtain ⟨data, w', ht, hc, hp⟩ := readData_receive h (buf n) (by rw [hbuf]; exact hlen) hf
  have hlt : (stringText s).length < c.length := length_frame_lt (by rw [hf]; exact List.mem_cons_self)
  refine ⟨w', hp, ?_⟩
  simp only [readStrings, h.none, ht, Option.bind_some, decodeString_text hc (Nat.lt_of_lt_of_le hlt hlen)]

/-- The strings that are pending and those of the chunks are decoded one by
one, and each chunk is received once. -/
theorem readStrings_run (n : Nat) {ss : List CString} {groups : List (List CString)} {chunks : List Bytes} {w : Wrapper}
    (h : Pending w (ss.map stringText)) (hss : ∀ s ∈ ss, (stringText s).length < bufferSize)
    (hg : List.Forall₂ (fun g c => g ≠ [] ∧ marshalAll (g.map .string) = some c ∧ c.length ≤ bufferSize) groups chunks)
    (hn : ss.length + groups.flatten.length ≤ n) :
    readStrings buf loc spare n chunks w = some ((ss ++ groups.flatten).map some, groups.length) := by
  induction n generalizing ss groups chunks w with
  | zero =>
    obtain rfl : ss = [] := List.length_eq_zero_iff.1 (by omega)
    cases hg with
    | nil => rfl
    | cons hgc hrest =>
      have hpos := List.length_pos_iff.2 hgc.1
      rw [List.flatten_cons, List.length_append] at hn
      omega
  | succ n ih =>
    cases ss with
    | cons s ss =>
      obtain ⟨w', hp, e⟩ := readStrings_pending hbuf loc spare n chunks h (hss s (by simp))
      rw [List.length_cons] at hn
      rw [e, ih hp (fun t ht => hss t (by simp [ht])) hg (by omega)]
      rfl
    | nil =>
      cases hg with
      | nil => simp only [readStrings, h.none]; rfl
      | @cons g c groups chunks hgc hrest =>
        obtain ⟨hne, hsent, hlen⟩ := hgc
        obtain ⟨s, ss, rfl⟩ := List.exists_cons_of_ne_nil hne
        have hf : frames 0 c = (s :: ss).map stringText := by
          have htexts : ((s :: ss).map Message.string).map Message.text = (s :: ss).map stringText := by
            rw [List.map_map]
            rfl
          rw [marshalAll_wire hsent, htexts, frames_wire]
          intro t ht
          obtain ⟨u, -, rfl⟩ := List.mem_map.1 ht
          exact stringText_nul u
        obtain ⟨w', hp, e⟩ := readStrings_receive hbuf loc spare n chunks h hlen hf
        have hss' : ∀ t ∈ ss, (stringText t).length < bufferSize := fun t ht => by
          have hmem : stringText t ∈ frames 0 c := by
            rw [hf]
            exact List.mem_map_of_mem (List.mem_cons_of_mem _ ht)
          exact Nat.lt_of_lt_of_le (length_frame_lt hmem) hlen
        simp only [List.flatten_cons, List.length_append, List.length_cons, List.length_nil] at hn
        rw [e, ih hp hss' hrest (by omega)]
        rfl

end Strings

/-- The strings that are sent are the strings that are decoded, however their
messages are grouped into chunks, and `receiveData` is called once for each
chunk. -/
theorem strings_read_back {groups : List (List CString)} {chunks : List Bytes}
    (hg : List.Forall₂ (fun g c => g ≠ [] ∧ marshalAll (g.map .string) = some c ∧ c.length ≤ bufferSize) groups chunks)
    {buf : Nat → StreamData} (hbuf : ∀ k, (buf k).data.length = bufferSize) (loc : Nat → Locals)
    (spare : Nat → Nat) {n : Nat} (hn : groups.flatten.length ≤ n) :
    readStrings buf loc spare n chunks .start = some (groups.flatten.map some, groups.length) :=
  have h : Pending .start (([] : List CString).map stringText) := .inl ⟨rfl, rfl⟩
  readStrings_run hbuf loc spare n h (by simp) hg (by simpa using hn)

/-- An empty string and "1#", then "3". -/
theorem strings_read_back_three :
    readStrings zeros (fun _ => cleared) (fun _ => 0) 3
      [[51, 48, 35, 0, 51, 50, 35, 49, 35, 0], [51, 49, 35, 51, 0]] .start =
      some ([[⟨[], by decide⟩, ⟨[49, 35], by decide⟩], [⟨[51], by decide⟩]].flatten.map some, 2) :=
  strings_read_back
    (.cons ⟨by simp, rfl, by decide⟩ (.cons ⟨by simp, rfl, by decide⟩ .nil))
    (fun _ => List.length_replicate) (fun _ => cleared) (fun _ => 0) (by decide)

end Snuffin.Marshalling
