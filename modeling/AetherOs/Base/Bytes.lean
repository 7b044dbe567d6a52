import Mathlib.Data.BitVec

/-! # Bytes in memory -/

namespace AetherOs.Base

section

variable {b b' src : ℕ → UInt8} {n off len v j : ℕ}

def splice (b : ℕ → UInt8) (off len : ℕ) (src : ℕ → UInt8) : ℕ → UInt8 :=
  fun j => if off ≤ j ∧ j < off + len then src (j - off) else b j

def leNat (b : ℕ → UInt8) : ℕ → ℕ → ℕ
  | 0, _ => 0
  | n + 1, off => (b off).toNat + 256 * leNat b n (off + 1)

def leBytes (v : ℕ) : ℕ → UInt8 := fun j => UInt8.ofNat (v / 256 ^ j)

def putLE (n off v : ℕ) (b : ℕ → UInt8) : ℕ → UInt8 := splice b off n (leBytes v)

theorem splice_inside (hle : off ≤ j) (hlt : j < off + len) : splice b off len src j = src (j - off) :=
  if_pos ⟨hle, hlt⟩

theorem splice_outside (h : j < off ∨ off + len ≤ j) : splice b off len src j = b j :=
  if_neg fun hbad => by omega

theorem leNat_congr (h : ∀ j, off ≤ j → j < off + n → b' j = b j) : leNat b' n off = leNat b n off := by
  induction n generalizing off with
  | zero => rfl
  | succ n ih =>
    rw [leNat, leNat, h off (Nat.le_refl off) (by omega),
      ih fun j hle hlt => h j (by omega) (by omega)]

theorem leNat_lt : leNat b n off < 256 ^ n := by
  induction n generalizing off with
  | zero => exact Nat.one_pos
  | succ n ih =>
    have hbyte : (b off).toNat < 256 := (b off).toNat_lt
    have hrest : leNat b n (off + 1) < 256 ^ n := ih
    rw [leNat, Nat.pow_succ]
    omega

theorem leNat_inj (h : leNat b' n off = leNat b n off) (hle : off ≤ j) (hlt : j < off + n) : b' j = b j := by
  induction n generalizing off with
  | zero => omega
  | succ n ih =>
    have hbyte : (b off).toNat < 256 := (b off).toNat_lt
    have hbyte' : (b' off).toNat < 256 := (b' off).toNat_lt
    rw [leNat, leNat] at h
    rcases Nat.eq_or_lt_of_le hle with rfl | hlater
    · exact UInt8.toNat_inj.mp (by omega)
    · exact @ih (off + 1) (by omega) hlater (by omega)

theorem leNat_putLE : leNat (putLE n off v b) n off = v % 256 ^ n := by
  induction n generalizing off v with
  | zero => simp [leNat, Nat.mod_one]
  | succ n ih =>
    have hfirst : putLE (n + 1) off v b off = UInt8.ofNat v := by
      rw [putLE, splice_inside (Nat.le_refl off) (by omega), leBytes, Nat.sub_self, Nat.pow_zero, Nat.div_one]
    have hrest : leNat (putLE (n + 1) off v b) n (off + 1) = leNat (putLE n (off + 1) (v / 256) b) n (off + 1) := by
      refine leNat_congr fun j hle hlt => ?_
      rw [putLE, putLE, splice_inside (by omega) (by omega), splice_inside (by omega) (by omega), leBytes,
        leBytes, Nat.div_div_eq_div_mul, ← Nat.pow_succ', show (j - (off + 1)).succ = j - off by omega]
    have hbyte : (UInt8.ofNat v).toNat = v % 256 := UInt8.toNat_ofNat'
    rw [leNat, hfirst, hrest, ih, hbyte, Nat.pow_succ', Nat.mod_mul]

theorem leNat_putLE_disjoint {m off' : ℕ} (h : off + n ≤ off' ∨ off' + m ≤ off) :
    leNat (putLE m off' v b) n off = leNat b n off :=
  leNat_congr fun j hle hlt => splice_outside (by omega)

end

/-! ## Words in memory -/

section

variable {b b' : ℕ → UInt8} {off j k : ℕ} {w : BitVec 64} {ws : List (BitVec 64)}

def putWords (b : ℕ → UInt8) (off : ℕ) : List (BitVec 64) → (ℕ → UInt8)
  | [] => b
  | w :: ws => putWords (putLE 8 off w.toNat b) (off + 8) ws

def getWord (b : ℕ → UInt8) (off : ℕ) : BitVec 64 := BitVec.ofNat 64 (leNat b 8 off)

theorem putWords_outside (h : j < off ∨ off + 8 * ws.length ≤ j) : putWords b off ws j = b j := by
  induction ws generalizing b off with
  | nil => rfl
  | cons w ws ih =>
    rw [List.length_cons] at h
    rw [putWords, ih (by omega), putLE, splice_outside (by omega)]

theorem getWord_congr (h : ∀ j, off ≤ j → j < off + 8 → b' j = b j) : getWord b' off = getWord b off := by
  rw [getWord, getWord, leNat_congr h]

theorem getWord_inj (h : getWord b' off = getWord b off) (hle : off ≤ j) (hlt : j < off + 8) : b' j = b j := by
  have hnat := congrArg BitVec.toNat h
  rw [getWord, getWord, BitVec.toNat_ofNat, BitVec.toNat_ofNat, show 2 ^ 64 = 256 ^ 8 from rfl,
    Nat.mod_eq_of_lt leNat_lt, Nat.mod_eq_of_lt leNat_lt] at hnat
  exact leNat_inj hnat hle hlt

theorem getWord_putLE : getWord (putLE 8 off w.toNat b) off = w := by
  rw [getWord, leNat_putLE, show 256 ^ 8 = 2 ^ 64 from rfl, Nat.mod_eq_of_lt w.isLt, BitVec.ofNat_toNat,
    BitVec.setWidth_eq]

theorem getWord_putWords (hk : ws[k]? = some w) : getWord (putWords b off ws) (off + 8 * k) = w := by
  induction ws generalizing b off k with
  | nil => cases hk
  | cons v ws ih =>
    cases k with
    | zero =>
      obtain rfl : v = w := by simpa using hk
      rw [putWords, Nat.mul_zero, Nat.add_zero, getWord_congr fun j _ hlt => putWords_outside (by omega)]
      exact getWord_putLE
    | succ k =>
      rw [putWords, show off + 8 * (k + 1) = off + 8 + 8 * k by omega]
      exact ih (by simpa using hk)

end

end AetherOs.Base
