import Mathlib.Algebra.Group.Nat.Defs
import Mathlib.Order.Nat

/-! # Shared arithmetic of the kernel sources -/

namespace AetherOs

def wordSize : ℕ := 2 ^ 64

def uintSize : ℕ := 2 ^ 32

def pageSize : ℕ := 4096

def addWord (a b : ℕ) : ℕ := (a + b) % wordSize

def subWord (a b : ℕ) : ℕ := (a + wordSize - b) % wordSize

def alignUp (x align : ℕ) : ℕ := addWord x (align - 1) / align * align

def alignDown (x align : ℕ) : ℕ := x / align * align

theorem addWord_eq {a b : ℕ} (h : a + b < wordSize) : addWord a b = a + b :=
  Nat.mod_eq_of_lt h

theorem addWord_lt (a b : ℕ) : addWord a b < wordSize :=
  Nat.mod_lt _ (Nat.two_pow_pos 64)

theorem subWord_eq {a b : ℕ} (ha : a < wordSize) (h : b ≤ a) : subWord a b = a - b := by
  have hsum : a + wordSize - b = (a - b) + wordSize := by omega
  rw [subWord, hsum, Nat.add_mod_right, Nat.mod_eq_of_lt (by omega)]

theorem le_alignUp {x align : ℕ} (halign : 0 < align) (h : x + (align - 1) < wordSize) :
    x ≤ alignUp x align := by
  have hdiv := Nat.div_add_mod (x + (align - 1)) align
  have hmod := Nat.mod_lt (x + (align - 1)) halign
  rw [alignUp, addWord_eq h, Nat.mul_comm]
  omega

theorem alignUp_le_of_dvd {x align m : ℕ} (halign : 0 < align) (h : x ≤ m) (hdvd : align ∣ m) :
    alignUp x align ≤ m := by
  obtain ⟨k, rfl⟩ := hdvd
  have hle : addWord x (align - 1) ≤ align * k + (align - 1) :=
    (Nat.mod_le _ _).trans (by omega)
  have hdiv : addWord x (align - 1) / align ≤ k := by
    refine (Nat.div_le_div_right hle).trans ?_
    rw [Nat.mul_add_div halign, Nat.div_eq_of_lt (by omega), Nat.add_zero]
  rw [alignUp, Nat.mul_comm align k]
  exact Nat.mul_le_mul_right _ hdiv

theorem dvd_alignUp (x align : ℕ) : align ∣ alignUp x align := Nat.dvd_mul_left _ _

end AetherOs
