import Mathlib.Data.List.Basic
/-!
# Messages that end in a separator

A stream carries messages, each followed by a separator that it does not
contain. `frames` are the messages that are complete in some prefix of the
stream and `leftover` is the beginning of the next one. The two are known by
what they add up to (`frames_eq`), and every rule here follows from that.
`copyUntil` takes one field off the stream, into an array of fixed size.
-/

namespace Lib

variable {α : Type}

/-- The stream of some messages. -/
def wire (sep : α) (ms : List (List α)) : List α := ms.flatMap fun m => m ++ [sep]

variable {sep : α}

@[simp] theorem wire_nil : wire sep [] = [] := rfl

@[simp] theorem wire_cons (m : List α) (ms : List (List α)) : wire sep (m :: ms) = m ++ sep :: wire sep ms := by
  simp [wire]

@[simp] theorem wire_append (ms ms' : List (List α)) : wire sep (ms ++ ms') = wire sep ms ++ wire sep ms' := by
  simp [wire]

/-- What stands before the first separator is told apart, and so is the rest. -/
theorem sep_left_inj {a b u v : List α} (ha : sep ∉ a) (hb : sep ∉ b) (h : a ++ sep :: u = b ++ sep :: v) :
    a = b ∧ u = v := by
  induction a generalizing b with
  | nil =>
    cases b with
    | nil => exact ⟨rfl, (List.cons.inj h).2⟩
    | cons y b => exact absurd (List.mem_cons.2 (.inl (List.cons.inj h).1)) hb
  | cons x a ih =>
    cases b with
    | nil => exact absurd (List.mem_cons.2 (.inl (List.cons.inj h).1.symm)) ha
    | cons y b =>
      obtain ⟨rfl, ht⟩ := List.cons.inj h
      obtain ⟨rfl, hu⟩ := ih (fun hm => ha (List.mem_cons_of_mem _ hm)) (fun hm => hb (List.mem_cons_of_mem _ hm)) ht
      exact ⟨rfl, hu⟩

/-- The same for the last separator. -/
theorem sep_right_inj {a b u v : List α} (hu : sep ∉ u) (hv : sep ∉ v) (h : a ++ sep :: u = b ++ sep :: v) :
    a = b ∧ u = v := by
  have hr := congrArg List.reverse h
  simp only [List.reverse_append, List.reverse_cons, List.append_assoc, List.singleton_append] at hr
  obtain ⟨h1, h2⟩ := sep_left_inj (by simpa using hu) (by simpa using hv) hr
  exact ⟨List.reverse_injective h2, List.reverse_injective h1⟩

/-! ## Codes -/

/-- Of two code words at the beginning of one stream, in a code in which none
is the beginning of another, the first is the second. -/
theorem code_inj {codes : List (List α)} (h : ∀ a ∈ codes, ∀ b ∈ codes, a <+: b → a = b) {a b u v : List α}
    (ha : a ∈ codes) (hb : b ∈ codes) (huv : a ++ u = b ++ v) : a = b ∧ u = v := by
  have hab : a = b := by
    rcases List.prefix_or_prefix_of_prefix (List.prefix_append a u) (huv ▸ List.prefix_append b v) with hp | hp
    · exact h a ha b hb hp
    · exact (h b hb a ha hp).symm
  subst hab
  exact ⟨rfl, List.append_cancel_left huv⟩

/-- Pieces that are told apart one by one are told apart one behind the other. -/
theorem flatMap_inj {ι : Type} {l : List ι} {f g : ι → List α}
    (h : ∀ i ∈ l, ∀ u v, f i ++ u = g i ++ v → f i = g i ∧ u = v) {u v : List α}
    (huv : l.flatMap f ++ u = l.flatMap g ++ v) : (∀ i ∈ l, f i = g i) ∧ u = v := by
  induction l with
  | nil => exact ⟨by simp, huv⟩
  | cons i l ih =>
    rw [List.flatMap_cons, List.flatMap_cons, List.append_assoc, List.append_assoc] at huv
    obtain ⟨hi, hrest⟩ := h i List.mem_cons_self _ _ huv
    obtain ⟨hall, he⟩ := ih (fun j hj => h j (List.mem_cons_of_mem _ hj)) hrest
    exact ⟨List.forall_mem_cons.2 ⟨hi, hall⟩, he⟩

variable [DecidableEq α]

/-- The messages that are complete. -/
def frames (sep : α) (l : List α) : List (List α) := (l.splitOn sep).dropLast

/-- What has come of the message after those. -/
def leftover (sep : α) (l : List α) : List α := (l.splitOn sep).getLast (List.splitOn_ne_nil sep l)

/-- Complete messages followed by a piece without separator are told apart. -/
theorem frames_eq {l : List α} (ms : List (List α)) (r : List α) (h : l = wire sep ms ++ r) (hms : ∀ m ∈ ms, sep ∉ m)
    (hr : sep ∉ r) : frames sep l = ms ∧ leftover sep l = r := by
  have e : l.splitOn sep = ms ++ [r] := by
    subst h
    induction ms with
    | nil => simpa using List.splitOn_eq_singleton hr
    | cons m ms ih =>
      rw [wire_cons, List.append_assoc, List.cons_append,
        List.splitOn_append_cons_self_of_not_mem (hms m (by simp)), ih fun m' hm => hms m' (by simp [hm]), List.cons_append]
  exact ⟨by simp [frames, e], by simp [leftover, e]⟩

theorem not_mem_splitOn (l : List α) : ∀ m ∈ l.splitOn sep, sep ∉ m := by
  induction l with
  | nil => simp
  | cons x l ih =>
    rw [List.splitOn_cons_eq_if_modifyHead]
    obtain ⟨m, ms, e⟩ := List.exists_cons_of_ne_nil (List.splitOn_ne_nil sep l)
    rw [e] at ih ⊢
    simp only [List.mem_cons, forall_eq_or_imp, beq_iff_eq] at ih ⊢
    split
    · simpa using ih
    · rename_i hx
      simpa [Ne.symm hx] using ih

theorem not_mem_frames {l m : List α} (h : m ∈ frames sep l) : sep ∉ m :=
  not_mem_splitOn l m (List.dropLast_subset _ h)

theorem not_mem_leftover (l : List α) : sep ∉ leftover sep l := not_mem_splitOn l _ (List.getLast_mem _)

variable (sep) in
/-- Nothing is lost: the messages and the leftover are the stream. -/
theorem wire_frames (l : List α) : wire sep (frames sep l) ++ leftover sep l = l := by
  have h : ∀ (ls : List (List α)) (hne : ls ≠ []), wire sep ls.dropLast ++ ls.getLast hne = [sep].intercalate ls := by
    intro ls hne
    induction ls with
    | nil => exact absurd rfl hne
    | cons m ms ih =>
      cases ms with
      | nil => simp
      | cons m' ms => simp [List.intercalate_cons_cons, ← ih (by simp)]
  exact (h _ (List.splitOn_ne_nil sep l)).trans (List.intercalate_splitOn sep)

theorem frames_wire {ms : List (List α)} (h : ∀ m ∈ ms, sep ∉ m) : frames sep (wire sep ms) = ms :=
  (frames_eq ms [] (by simp) h (by simp)).1

@[simp] theorem frames_nil : frames sep ([] : List α) = [] := by simp [frames]

@[simp] theorem leftover_nil : leftover sep ([] : List α) = [] := by simp [leftover]

variable (sep) in
/-- A separator completes the message under way. -/
theorem frames_snoc_sep (l : List α) :
    frames sep (l ++ [sep]) = frames sep l ++ [leftover sep l] ∧ leftover sep (l ++ [sep]) = [] := by
  refine frames_eq _ [] ?_ (fun m hm => ?_) (by simp)
  · rw [wire_append, wire_cons, wire_nil, List.append_nil, ← List.append_assoc, wire_frames]
  · rcases List.mem_append.1 hm with hm | hm
    · exact not_mem_frames hm
    · rw [List.mem_singleton.1 hm]; exact not_mem_leftover l

/-- Anything else makes it longer. -/
theorem frames_snoc {x : α} (hx : x ≠ sep) (l : List α) :
    frames sep (l ++ [x]) = frames sep l ∧ leftover sep (l ++ [x]) = leftover sep l ++ [x] := by
  refine frames_eq _ _ ?_ (fun m hm => not_mem_frames hm) ?_
  · rw [← List.append_assoc, wire_frames]
  · simp [not_mem_leftover, Ne.symm hx]

/-- A message that is complete is as long as the stream, less the separator, at
most. -/
theorem length_frame_lt {l m : List α} (h : m ∈ frames sep l) : m.length < l.length := by
  obtain ⟨as, bs, e⟩ := List.append_of_mem h
  have hl := congrArg List.length (wire_frames sep l)
  rw [e] at hl
  simp only [wire_append, wire_cons, List.length_append, List.length_cons] at hl
  omega

/-- The leftover is empty exactly when the stream ends in a separator. -/
theorem leftover_eq_nil {l : List α} (hl : l ≠ []) : leftover sep l = [] ↔ l.getLast? = some sep := by
  obtain ⟨l, x, rfl⟩ := List.eq_nil_or_concat l |>.resolve_left hl
  rw [List.concat_eq_append, List.getLast?_concat]
  by_cases hx : x = sep
  · subst hx; simp [(frames_snoc_sep x l).2]
  · simp [(frames_snoc hx l).2, hx]

/-- A stream with a separator at its end has a message. -/
theorem frames_ne_nil {l : List α} (hl : l ≠ []) (h : leftover sep l = []) : frames sep l ≠ [] := by
  intro e
  have := wire_frames sep l
  rw [e, h] at this
  exact hl this.symm

/-- Cutting a stream into chunks loses nothing exactly when every chunk ends in
a separator. -/
theorem wire_chunks {chunks : List (List α)} :
    wire sep (chunks.flatMap (frames sep)) = chunks.flatten ↔ ∀ c ∈ chunks, leftover sep c = [] := by
  have hle : ∀ cs : List (List α), (wire sep (cs.flatMap (frames sep))).length ≤ cs.flatten.length := by
    intro cs
    induction cs with
    | nil => exact Nat.le_refl 0
    | cons c cs ih =>
      have hc := congrArg List.length (wire_frames sep c)
      rw [List.length_append] at hc
      rw [List.flatMap_cons, wire_append, List.flatten_cons, List.length_append, List.length_append]
      omega
  constructor
  · intro h
    induction chunks with
    | nil => simp
    | cons c cs ih =>
      have hc := wire_frames sep c
      rw [List.flatMap_cons, wire_append, List.flatten_cons] at h
      -- The rest of the stream is no shorter than its messages, so nothing of `c` is left over.
      have hlen := congrArg List.length h
      have hcl := congrArg List.length hc
      have hle' := hle cs
      rw [List.length_append, List.length_append] at hlen
      rw [List.length_append] at hcl
      have h0 : leftover sep c = [] := List.length_eq_zero_iff.1 (by omega)
      rw [h0, List.append_nil] at hc
      rw [hc] at h
      simpa [h0] using ih (List.append_cancel_left h)
  · intro h
    induction chunks with
    | nil => rfl
    | cons c cs ih =>
      have hc := wire_frames sep c
      rw [h c (by simp), List.append_nil] at hc
      rw [List.flatMap_cons, wire_append, hc, ih fun c' hc' => h c' (by simp [hc']), List.flatten_cons]

/-! ## Copying a field into an array -/

/-- `for(; data[i] != stop; i++, j++) buf[j] = data[i];` where `d` is the data
from `i` on: the array, and the data after `stop`. It is `none` when the data
ends before `stop` comes, or the array does. -/
def copyUntil (stop : α) : List α → Nat → List α → Option (List α × List α)
  | [], _, _ => none
  | x :: d, j, buf =>
    if x = stop then some (buf, d) else if j < buf.length then copyUntil stop d (j + 1) (buf.set j x) else none

theorem copyUntil_at {stop : α} {d buf buf' rest : List α} {j : Nat} (hj : j ≤ buf.length) :
    copyUntil stop d j buf = some (buf', rest) ↔
      ∃ t, stop ∉ t ∧ d = t ++ stop :: rest ∧ j + t.length ≤ buf.length ∧
        buf' = buf.take j ++ (t ++ buf.drop (j + t.length)) := by
  induction d generalizing j buf with
  | nil => simp [copyUntil]
  | cons x d ih =>
    by_cases hx : x = stop
    · subst hx
      rw [copyUntil, if_pos rfl, Option.some.injEq, Prod.mk.injEq]
      constructor
      · rintro ⟨rfl, rfl⟩
        exact ⟨[], by simp, rfl, hj, by simp⟩
      · rintro ⟨t, ht, hd, -, hb⟩
        cases t with
        | nil => exact ⟨by simpa using hb.symm, (List.cons.inj hd).2⟩
        | cons y t => exact absurd (List.mem_cons.2 (.inl (List.cons.inj hd).1)) ht
    · rw [copyUntil, if_neg hx]
      by_cases hroom : j < buf.length
      · have hset : j + 1 ≤ (buf.set j x).length := by rw [List.length_set]; exact hroom
        have htake : (buf.set j x).take (j + 1) = buf.take j ++ [x] := by
          rw [List.take_succ_eq_append_getElem (by rw [List.length_set]; exact hroom)]
          simp [List.take_set_of_le]
        rw [if_pos hroom, ih hset]
        constructor
        · rintro ⟨t, ht, rfl, hl, rfl⟩
          rw [List.length_set] at hl
          refine ⟨x :: t, by simp [Ne.symm hx, ht], rfl, by simp; omega, ?_⟩
          rw [htake, List.drop_set_of_lt (by omega)]
          simp [Nat.add_comm t.length 1, Nat.add_assoc]
        · rintro ⟨t, ht, hd, hl, rfl⟩
          cases t with
          | nil => exact absurd (List.cons.inj hd).1 hx
          | cons y t =>
            obtain ⟨rfl, rfl⟩ := List.cons.inj hd
            rw [List.length_cons] at hl
            refine ⟨t, fun hm => ht (List.mem_cons_of_mem _ hm), rfl, by rw [List.length_set]; omega, ?_⟩
            rw [htake, List.drop_set_of_lt (by omega)]
            simp [Nat.add_comm t.length 1, Nat.add_assoc]
      · rw [if_neg hroom]
        constructor
        · intro h
          cases h
        · rintro ⟨t, -, hd, hl, -⟩
          cases t with
          | nil => exact absurd (List.cons.inj hd).1 hx
          | cons y t => rw [List.length_cons] at hl; omega

/-- A field is copied when it ends and the array holds it; behind it the array
keeps what it held. -/
theorem copyUntil_eq_some {stop : α} {d buf buf' rest : List α} :
    copyUntil stop d 0 buf = some (buf', rest) ↔
      ∃ t, stop ∉ t ∧ d = t ++ stop :: rest ∧ t.length ≤ buf.length ∧ buf' = t ++ buf.drop t.length := by
  rw [copyUntil_at (Nat.zero_le _)]
  simp

end Lib
