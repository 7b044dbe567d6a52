import Mathlib.Data.List.Range

/-! # Ring buffers -/

namespace AetherOs.Base

open Function List

structure Ring (α : Type*) where
  slots : ℕ → α
  head : ℕ
  tail : ℕ
  count : ℕ

namespace Ring

variable {α : Type*} {n i j k : ℕ} {r : Ring α}

def push (n : ℕ) (x : α) (r : Ring α) : Ring α where
  slots := update r.slots r.tail x
  head := r.head
  tail := (r.tail + 1) % n
  count := r.count + 1

def front (r : Ring α) : α := r.slots r.head

def pop (n : ℕ) (r : Ring α) : Ring α := { r with head := (r.head + 1) % n, count := r.count - 1 }

def clear (r : Ring α) : Ring α := { r with head := 0, tail := 0, count := 0 }

def removeAt (n i : ℕ) (r : Ring α) : Ring α where
  slots := (List.range (r.count - 1 - i)).foldl
    (fun slots k => update slots ((r.head + (i + k)) % n) (slots ((r.head + (i + k) + 1) % n))) r.slots
  head := r.head
  tail := (r.tail + n - 1) % n
  count := r.count - 1

def contents (n : ℕ) (r : Ring α) : List α := (List.range r.count).map fun k => r.slots ((r.head + k) % n)

structure WellFormed (n : ℕ) (r : Ring α) : Prop where
  head : r.head < n
  count : r.count ≤ n
  tail : r.tail = (r.head + r.count) % n

@[simp] theorem length_contents : (r.contents n).length = r.count := by
  simp [contents]

theorem wellFormed_clear (hn : 0 < n) : (clear r).WellFormed n :=
  ⟨hn, Nat.zero_le n, by simp [clear]⟩

@[simp] theorem contents_clear : (clear r).contents n = [] := rfl

theorem position_ne (hi : i < k) (hk : k < n + i) (a : ℕ) : (a + i) % n ≠ (a + k) % n := by
  intro heq
  have hdvd : n ∣ (a + k) - (a + i) := Nat.dvd_of_mod_eq_zero (Nat.sub_mod_eq_zero_of_mod_eq heq.symm)
  have := Nat.le_of_dvd (by omega) hdvd
  omega

theorem slots_shift (hi : i + k < n) (hj : j < n) :
    (List.range k).foldl
      (fun slots k => update slots ((r.head + (i + k)) % n) (slots ((r.head + (i + k) + 1) % n)))
      r.slots ((r.head + j) % n) =
    if i ≤ j ∧ j < i + k then r.slots ((r.head + j + 1) % n) else r.slots ((r.head + j) % n) := by
  induction k generalizing j with
  | zero => rw [if_neg (by omega), range_zero, foldl_nil]
  | succ k ih =>
    rw [range_succ, foldl_append, foldl_cons, foldl_nil]
    rcases Nat.lt_trichotomy j (i + k) with hlt | rfl | hgt
    · rw [update_of_ne (position_ne hlt (by omega) _), ih (by omega) hj]
      by_cases hij : i ≤ j
      · rw [if_pos ⟨hij, hlt⟩, if_pos ⟨hij, by omega⟩]
      · rw [if_neg fun h => hij h.1, if_neg fun h => hij h.1]
    · rw [update_self, Nat.add_assoc, ih (by omega) (by omega), if_neg (by omega),
        if_pos ⟨by omega, by omega⟩]
    · rw [update_of_ne (position_ne hgt (by omega) _).symm, ih (by omega) hj, if_neg (by omega),
        if_neg (by omega)]

section

variable (h : r.WellFormed n)
include h

theorem WellFormed.push (hroom : r.count < n) (x : α) : (r.push n x).WellFormed n := by
  refine ⟨h.head, hroom, ?_⟩
  change (r.tail + 1) % n = (r.head + (r.count + 1)) % n
  rw [h.tail, Nat.mod_add_mod, Nat.add_assoc]

theorem contents_push (hroom : r.count < n) (x : α) : (r.push n x).contents n = r.contents n ++ [x] := by
  change (List.range (r.count + 1)).map (fun k => update r.slots r.tail x ((r.head + k) % n)) = _
  rw [range_succ, map_append, map_singleton, h.tail, update_self, contents]
  congr 1
  refine map_congr_left fun k hk => ?_
  rw [mem_range] at hk
  exact update_of_ne (position_ne hk (by omega) _) _ _

theorem WellFormed.pop (hsome : 0 < r.count) : (r.pop n).WellFormed n := by
  have hcount := h.count
  refine ⟨Nat.mod_lt _ (by omega), ?_, ?_⟩
  · change r.count - 1 ≤ n
    omega
  · change r.tail = ((r.head + 1) % n + (r.count - 1)) % n
    rw [h.tail, Nat.mod_add_mod]
    congr 1
    omega

theorem contents_eq_cons (hsome : 0 < r.count) : r.contents n = r.front :: (r.pop n).contents n := by
  obtain ⟨m, hm⟩ : ∃ m, r.count = m + 1 := ⟨r.count - 1, by omega⟩
  change (List.range r.count).map (fun k => r.slots ((r.head + k) % n)) = _ ::
    (List.range (r.count - 1)).map (fun k => r.slots (((r.head + 1) % n + k) % n))
  rw [hm, range_succ_eq_map, map_cons, Nat.add_zero, Nat.mod_eq_of_lt h.head, map_map,
    Nat.add_sub_cancel]
  congr 1
  refine map_congr_left fun k _ => ?_
  simp only [comp_apply]
  rw [Nat.mod_add_mod]
  congr 2
  omega

theorem WellFormed.removeAt (hi : i < r.count) : (r.removeAt n i).WellFormed n := by
  have hcount := h.count
  refine ⟨h.head, ?_, ?_⟩
  · change r.count - 1 ≤ n
    omega
  · change (r.tail + n - 1) % n = (r.head + (r.count - 1)) % n
    rw [h.tail, Nat.add_sub_assoc (by omega), Nat.mod_add_mod, ← Nat.add_mod_right (r.head + (r.count - 1)) n]
    congr 1
    omega

theorem contents_removeAt (hi : i < r.count) : (r.removeAt n i).contents n = (r.contents n).eraseIdx i := by
  have hcount := h.count
  refine ext_getElem ?_ fun j hj hj' => ?_
  · rw [length_eraseIdx_of_lt (by simpa using hi), length_contents, length_contents]
    rfl
  · rw [length_contents] at hj
    have hlt : j < r.count - 1 := hj
    rw [getElem_eraseIdx]
    simp only [contents, removeAt, getElem_map, getElem_range]
    rw [slots_shift (by omega) (by omega)]
    split
    · rw [dif_neg (by omega)]
      rfl
    · rw [dif_pos (by omega)]

end

end Ring

/-! ## Ring buffers with a gap -/

structure GapRing (α : Type*) where
  slots : ℕ → α
  head : ℕ
  tail : ℕ

namespace GapRing

variable {α : Type*} {n : ℕ} {x : α} {r : GapRing α}

def isEmpty (r : GapRing α) : Bool := r.head = r.tail

def isFull (n : ℕ) (r : GapRing α) : Bool := (r.tail + 1) % n = r.head

def push (n : ℕ) (x : α) (r : GapRing α) : GapRing α :=
  if r.isFull n then r else { r with slots := update r.slots r.tail x, tail := (r.tail + 1) % n }

def pop (n : ℕ) (r : GapRing α) : Option α × GapRing α :=
  if r.isEmpty then (none, r) else (some (r.slots r.head), { r with head := (r.head + 1) % n })

def takeBack (n : ℕ) (r : GapRing α) : GapRing α := { r with tail := if r.tail = 0 then n - 1 else r.tail - 1 }

def clear (r : GapRing α) : GapRing α := { r with head := 0, tail := 0 }

def size (n : ℕ) (r : GapRing α) : ℕ := (r.tail + n - r.head) % n

def toRing (n : ℕ) (r : GapRing α) : Ring α := ⟨r.slots, r.head, r.tail, r.size n⟩

def contents (n : ℕ) (r : GapRing α) : List α := (r.toRing n).contents n

structure WellFormed (n : ℕ) (r : GapRing α) : Prop where
  head : r.head < n
  tail : r.tail < n

@[simp]
theorem length_contents : (r.contents n).length = r.size n := Ring.length_contents

section

variable (h : r.WellFormed n)
include h

theorem size_eq : r.size n = if r.head ≤ r.tail then r.tail - r.head else r.tail + n - r.head := by
  have hhead := h.head
  have htail := h.tail
  rw [size]
  split
  · rw [show r.tail + n - r.head = r.tail - r.head + n by omega, Nat.add_mod_right, Nat.mod_eq_of_lt (by omega)]
  · rw [Nat.mod_eq_of_lt (by omega)]

theorem size_lt : r.size n < n := Nat.mod_lt _ (Nat.zero_lt_of_lt h.head)

theorem isEmpty_iff : r.isEmpty ↔ r.size n = 0 := by
  have hhead := h.head
  have htail := h.tail
  rw [isEmpty, decide_eq_true_iff, size_eq h]
  split <;> omega

theorem contents_of_isEmpty (hempty : r.isEmpty) : r.contents n = [] :=
  eq_nil_of_length_eq_zero (length_contents.trans ((isEmpty_iff h).mp hempty))

theorem wellFormed_toRing : (r.toRing n).WellFormed n := by
  have hhead := h.head
  have htail := h.tail
  refine ⟨h.head, (size_lt h).le, ?_⟩
  change r.tail = (r.head + r.size n) % n
  rw [size_eq h]
  split
  · rw [show r.head + (r.tail - r.head) = r.tail by omega, Nat.mod_eq_of_lt htail]
  · rw [show r.head + (r.tail + n - r.head) = r.tail + n by omega, Nat.add_mod_right, Nat.mod_eq_of_lt htail]

end

theorem succ_mod {i : ℕ} (h : i < n) : (i + 1) % n = if i + 1 = n then 0 else i + 1 := by
  split_ifs with heq
  · rw [heq, Nat.mod_self]
  · exact Nat.mod_eq_of_lt (by omega)

section

variable (h : r.WellFormed n)

include h

theorem isFull_iff : r.isFull n ↔ r.size n + 1 = n := by
  have hhead := h.head
  have htail := h.tail
  rw [isFull, decide_eq_true_iff, size_eq h, succ_mod htail]
  split <;> split <;> omega

theorem WellFormed.push : (r.push n x).WellFormed n := by
  rw [GapRing.push]
  split
  · exact h
  · exact ⟨h.head, Nat.mod_lt _ (Nat.zero_lt_of_lt h.head)⟩

theorem size_push (hroom : r.isFull n = false) : (r.push n x).size n = r.size n + 1 := by
  have hhead := h.head
  have htail := h.tail
  have hlast : r.size n + 1 ≠ n := fun hlast => Bool.eq_false_iff.mp hroom ((isFull_iff h).mpr hlast)
  have hpos : (r.push n x).tail = if r.tail + 1 = n then 0 else r.tail + 1 := by
    rw [push, if_neg (Bool.eq_false_iff.mp hroom), ← succ_mod htail]
  have hsame : (r.push n x).head = r.head := by rw [push, if_neg (Bool.eq_false_iff.mp hroom)]
  rw [size_eq h] at hlast ⊢
  rw [size_eq h.push, hpos, hsame]
  grind

theorem contents_push : (r.push n x).contents n = (r.contents n ++ [x]).take (n - 1) := by
  have hsize := size_lt h
  cases hfull : r.isFull n with
  | true =>
    have hlast := (isFull_iff h).mp hfull
    rw [push, if_pos hfull, take_append_of_le_length (by rw [length_contents]; omega),
      take_of_length_le (by rw [length_contents]; omega)]
  | false =>
    have hcount := size_push (x := x) h hfull
    have hbound := size_lt (h.push (x := x))
    have hring : (r.push n x).toRing n = (r.toRing n).push n x := by
      rw [toRing, hcount, push, if_neg (Bool.eq_false_iff.mp hfull)]
      rfl
    have hlength : (r.contents n ++ [x]).length ≤ n - 1 := by
      rw [length_append, length_contents, length_singleton]
      omega
    rw [take_of_length_le hlength, contents, hring, Ring.contents_push (wellFormed_toRing h) hsize]
    rfl

theorem WellFormed.pop : (r.pop n).2.WellFormed n := by
  rw [GapRing.pop]
  split
  · exact h
  · exact ⟨Nat.mod_lt _ (Nat.zero_lt_of_lt h.head), h.tail⟩

theorem size_pop (hsome : r.isEmpty = false) : (r.pop n).2.size n = r.size n - 1 := by
  have hhead := h.head
  have htail := h.tail
  have hne : r.head ≠ r.tail := by simpa [isEmpty] using hsome
  have hpos : (r.pop n).2.head = if r.head + 1 = n then 0 else r.head + 1 := by
    rw [pop, if_neg (Bool.eq_false_iff.mp hsome), ← succ_mod hhead]
  have hsame : (r.pop n).2.tail = r.tail := by rw [pop, if_neg (Bool.eq_false_iff.mp hsome)]
  rw [size_eq h, size_eq h.pop, hpos, hsame]
  grind

theorem pop_spec (hsome : r.isEmpty = false) :
    ∃ x, (r.pop n).1 = some x ∧ r.contents n = x :: (r.pop n).2.contents n := by
  have hpos : 0 < r.size n := Nat.pos_of_ne_zero fun hzero => Bool.eq_false_iff.mp hsome ((isEmpty_iff h).mpr hzero)
  have hring : (r.pop n).2.toRing n = (r.toRing n).pop n := by
    rw [toRing, size_pop h hsome, pop, if_neg (Bool.eq_false_iff.mp hsome)]
    rfl
  refine ⟨r.slots r.head, by rw [pop, if_neg (Bool.eq_false_iff.mp hsome)], ?_⟩
  rw [contents, contents, hring, Ring.contents_eq_cons (wellFormed_toRing h) hpos]
  rfl

theorem WellFormed.takeBack : (r.takeBack n).WellFormed n := by
  have htail := h.tail
  refine ⟨h.head, ?_⟩
  change (if r.tail = 0 then n - 1 else r.tail - 1) < n
  split <;> omega

theorem contents_takeBack (hsome : r.isEmpty = false) :
    (r.takeBack n).contents n = (r.contents n).dropLast := by
  have hhead := h.head
  have htail := h.tail
  have hne : r.head ≠ r.tail := by simpa [isEmpty] using hsome
  have hsize : (r.takeBack n).size n = r.size n - 1 := by
    rw [size_eq h, size_eq h.takeBack]
    simp only [takeBack]
    grind
  rw [contents, contents, Ring.contents, Ring.contents]
  change (List.range ((r.takeBack n).size n)).map (fun k => r.slots ((r.head + k) % n)) =
    ((List.range (r.size n)).map fun k => r.slots ((r.head + k) % n)).dropLast
  rw [hsize, dropLast_eq_take, ← map_take, take_range, length_map, length_range,
    Nat.min_eq_left (Nat.sub_le _ _)]

end

theorem clear_spec (hn : 0 < n) : (clear r).WellFormed n ∧ (clear r).contents n = [] := by
  refine ⟨⟨hn, hn⟩, contents_of_isEmpty ⟨hn, hn⟩ ?_⟩
  rw [isEmpty, clear, decide_eq_true_iff]

end GapRing

end AetherOs.Base
