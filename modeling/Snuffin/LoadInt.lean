import Snuffin.Database
/-!
# What loadInt prints

Its two loops both divide by 10 until nothing is left. They end for every int,
and print no sign: a score below 0 is printed like 0, as no digit at all.
-/
open Lib

namespace Snuffin.Db

/-! ## The loops with a bound -/

/-- The first loop of `loadInt`; `none` means that `fuel` tests were not
enough. -/
def countWithin : Nat → Int → Option Nat
  | 0, _ => none
  | fuel + 1, aux => if aux > 0 then (countWithin fuel (aux / 10)).map (· + 1) else some 0

/-- The second loop of `loadInt`. -/
def fillWithin : Nat → Nat → Nat → Int → Mem → Option Mem
  | 0, _, _, _, _ => none
  | fuel + 1, pos, digits, value, m =>
    if value > 0 then
      fillWithin fuel pos (digits - 1) (value / 10) (store m (pos + (digits - 1)) [UInt8.ofNat ((value % 10).toNat + 48)])
    else some m

def loadIntWithin (fuel : Nat) (m : Mem) (pos : Nat) (value : Int) : Option Mem :=
  (countWithin fuel value).bind fun digits => fillWithin fuel pos digits value (store m (pos + digits) [0])

/-- A division by 10 takes a positive number down. -/
theorem toNat_div_ten_lt {v : Int} (hv : v > 0) : (v / 10).toNat < v.toNat := by
  omega

theorem countWithin_eq {fuel k : Nat} {v : Int} (hf : v.toNat < fuel) (hk : v.toNat ≤ k) :
    countWithin fuel v = some (countDigits k v) := by
  induction fuel generalizing v k with
  | zero => omega
  | succ fuel ih =>
    rw [countWithin]
    by_cases hv : v > 0
    · have hlt := toNat_div_ten_lt hv
      obtain ⟨k, rfl⟩ : ∃ j, k = j + 1 := ⟨k - 1, by omega⟩
      rw [if_pos hv, ih (k := k) (by omega) (by omega), Option.map_some, countDigits, if_pos hv]
    · rw [if_neg hv]
      cases k with
      | zero => rfl
      | succ k => rw [countDigits, if_neg hv]

theorem fillWithin_eq {fuel k : Nat} {v : Int} (hf : v.toNat < fuel) (hk : v.toNat ≤ k) (pos digits : Nat) (m : Mem) :
    fillWithin fuel pos digits v m = some (fillDigits k pos digits v m) := by
  induction fuel generalizing v k digits m with
  | zero => omega
  | succ fuel ih =>
    rw [fillWithin]
    by_cases hv : v > 0
    · have hlt := toNat_div_ten_lt hv
      obtain ⟨k, rfl⟩ : ∃ j, k = j + 1 := ⟨k - 1, by omega⟩
      rw [if_pos hv, ih (k := k) (by omega) (by omega), fillDigits, if_pos hv]
    · rw [if_neg hv]
      cases k with
      | zero => rfl
      | succ k => rw [fillDigits, if_neg hv]

/-- `loadInt` ends, after no more rounds than its value. -/
theorem loadIntWithin_eq {fuel : Nat} {v : Int} (hf : v.toNat < fuel) (m : Mem) (pos : Nat) :
    loadIntWithin fuel m pos v = some (loadInt m pos v) := by
  rw [loadIntWithin, countWithin_eq hf (Nat.le_refl _), Option.bind_some, fillWithin_eq hf (Nat.le_refl _), loadInt]

/-! ## What is read back -/

/-- Only one string stands at a place. -/
theorem isStr_unique {m : Mem} {pos : Nat} {s t : Bytes} (hs : IsStr m pos s) (ht : IsStr m pos t)
    (hs0 : (0 : UInt8) ∉ s) (ht0 : (0 : UInt8) ∉ t) : s = t := by
  have h1 := readStr_of_isStr hs hs0 (show s.length < s.length + t.length + 1 by omega)
  have h2 := readStr_of_isStr ht ht0 (show t.length < s.length + t.length + 1 by omega)
  exact Option.some.inj (h1.symm.trans h2)

/-- The text at `pos` is read back as `v`. -/
def ReadsAs (m : Mem) (pos : Nat) (v : Int) : Prop := ∃ s : Bytes, (0 : UInt8) ∉ s ∧ IsStr m pos s ∧ atoi s = v

/-- `loadInt` ends, and `atoi` gives back what it printed. -/
def LoadedBack (m : Mem) (pos : Nat) (v : Int) : Prop :=
  ∃ rounds m', (∀ fuel ≥ rounds, loadIntWithin fuel m pos v = some m') ∧ ReadsAs m' pos v

/-- The digits of a number that is not negative, and nothing else. -/
theorem isStr_loadInt (m : Mem) (pos : Nat) (v : Int) : IsStr (loadInt m pos v) pos (text v.toNat) := by
  rw [loadInt_eq]
  exact isStr_store m pos _

theorem loadedBack_of_nonneg {v : Int} (hv : 0 ≤ v) (m : Mem) (pos : Nat) : LoadedBack m pos v := by
  refine ⟨v.toNat + 1, loadInt m pos v, fun fuel hf => loadIntWithin_eq hf m pos, text v.toNat, text_nul _,
    isStr_loadInt m pos v, ?_⟩
  rw [atoi_text, Int.toNat_of_nonneg hv]

/-- A negative number is read back as 0. -/
theorem not_loadedBack_of_neg {v : Int} (hv : v < 0) (m : Mem) (pos : Nat) : ¬LoadedBack m pos v := by
  rintro ⟨rounds, m', hm, s, hs0, hs, rfl⟩
  have hm' := hm (max rounds ((atoi s).toNat + 1)) (Nat.le_max_left ..)
  rw [loadIntWithin_eq (Nat.le_max_right ..)] at hm'
  obtain rfl := Option.some.inj hm'
  have he := isStr_unique hs (isStr_loadInt m pos _) hs0 (text_nul _)
  have hzero : (atoi s).toNat = 0 := by omega
  rw [hzero] at he
  rw [he, atoi_text] at hv
  omega

/-- `loadInt` ends for every int, and what it leaves is read back as that int
exactly when it is not negative. -/
theorem loaded_back_iff (v : Int32) (m : Mem) (pos : Nat) :
    (∃ rounds, ∀ fuel ≥ rounds, loadIntWithin fuel m pos v.toInt = some (loadInt m pos v.toInt)) ∧
      (LoadedBack m pos v.toInt ↔ 0 ≤ v.toInt) := by
  refine ⟨⟨v.toInt.toNat + 1, fun fuel hf => loadIntWithin_eq hf m pos⟩, fun hback => ?_, fun hv => ?_⟩
  · by_contra hneg
    exact not_loadedBack_of_neg (Int.not_le.1 hneg) m pos hback
  · exact loadedBack_of_nonneg hv m pos

/-- The score after one lost game, which `getHighScoreDB` then gives as 0. -/
theorem lost_not_loaded_back : (¬∀ (v : Int32) (m : Mem) (pos : Nat), LoadedBack m pos v.toInt) ∧
    ∀ m : Mem, ReadsAs (loadInt m returnPos (-10)) returnPos 0 := by
  refine ⟨fun h => ?_, fun m => ⟨[], List.not_mem_nil, isStr_loadInt m returnPos (-10), rfl⟩⟩
  have hneg : (-10 : Int32).toInt < 0 := by decide
  exact not_loadedBack_of_neg hneg (fun _ => 0) 0 (h (-10) (fun _ => 0) 0)

end Snuffin.Db
