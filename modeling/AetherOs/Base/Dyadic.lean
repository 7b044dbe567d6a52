import Mathlib.Algebra.BigOperators.Ring.Finset
import Mathlib.Data.Nat.Bitwise
import Mathlib.Order.Interval.Finset.Nat
import Mathlib.Tactic.Ring

/-! # Dyadic blocks and maximal decompositions -/

namespace AetherOs.Base

open List Finset

structure Block where
  order : ℕ
  num : ℕ
deriving DecidableEq

open Block

namespace Block

variable {b c : Block} {p : ℕ}

def start (b : Block) : ℕ := b.num * 2 ^ b.order

def Has (b : Block) (p : ℕ) : Prop := p / 2 ^ b.order = b.num

instance (b : Block) (p : ℕ) : Decidable (b.Has p) := inferInstanceAs (Decidable (_ = _))

def buddy (b : Block) : Block := ⟨b.order, b.num ^^^ 1⟩

def parent (b : Block) : Block := ⟨b.order + 1, b.num / 2⟩

theorem has_iff : b.Has p ↔ b.start ≤ p ∧ p < b.start + 2 ^ b.order := by
  rw [Has, start, Nat.div_eq_iff (Nat.two_pow_pos _)]
  have := Nat.two_pow_pos b.order
  omega

theorem has_start (b : Block) : b.Has b.start :=
  Nat.mul_div_cancel _ (Nat.two_pow_pos _)

theorem eq_of_start (horder : b.order = c.order) (hstart : b.start = c.start) : b = c := by
  obtain ⟨o, n⟩ := b
  obtain ⟨o', m⟩ := c
  obtain rfl : o = o' := horder
  obtain rfl : n = m := Nat.eq_of_mul_eq_mul_right (Nat.two_pow_pos o) hstart
  rfl

theorem start_buddy (b : Block) : b.buddy.start = b.start ^^^ (1 <<< b.order) := by
  simp only [start, buddy, ← Nat.shiftLeft_eq, Nat.shiftLeft_xor_distrib]

theorem buddy_buddy (b : Block) : b.buddy.buddy = b := by
  simp only [buddy, Nat.xor_assoc, Nat.xor_self, Nat.xor_zero]

theorem num_cases (b : Block) :
    (b.num = 2 * (b.num / 2) ∧ b.buddy.num = 2 * (b.num / 2) + 1) ∨
      (b.num = 2 * (b.num / 2) + 1 ∧ b.buddy.num = 2 * (b.num / 2)) := by
  rcases Nat.even_or_odd b.num with h | h
  · have hxor := Nat.xor_one_of_even h
    obtain ⟨k, hk⟩ := h
    simp only [buddy]
    omega
  · have hxor := Nat.xor_one_of_odd h
    obtain ⟨k, hk⟩ := h
    simp only [buddy]
    omega

theorem start_parent (b : Block) : b.parent.start = min b.start b.buddy.start := by
  have hmin : min b.num b.buddy.num = b.num / 2 * 2 := by
    have := b.num_cases
    omega
  have horder : b.buddy.order = b.order := rfl
  rw [start, start, start, horder, Nat.mul_min_mul_right, hmin, Nat.mul_assoc, ← Nat.pow_succ']
  rfl

theorem parent_limit (h : b.buddy.start < b.start) :
    b.parent.start + 2 ^ b.parent.order = b.start + 2 ^ b.order := by
  have horder : b.buddy.order = b.order := rfl
  have hparent : b.parent.order = b.order + 1 := rfl
  rw [start_parent, min_eq_right h.le, hparent]
  simp only [start, horder] at h ⊢
  rcases b.num_cases with ⟨hn, hm⟩ | ⟨hn, hm⟩
  · rw [hn, hm] at h
    exact absurd (Nat.lt_of_mul_lt_mul_right h) (by omega)
  · rw [hm]
    nth_rewrite 2 [hn]
    ring

theorem has_parent : b.parent.Has p ↔ b.Has p ∨ b.buddy.Has p := by
  have hdiv : p / 2 ^ (b.order + 1) = p / 2 ^ b.order / 2 := by
    rw [Nat.div_div_eq_div_mul, Nat.pow_succ]
  have := b.num_cases
  simp only [Has, parent, hdiv]
  simp only [show b.buddy.order = b.order from rfl]
  omega

theorem not_has_buddy (h : b.Has p) : ¬ b.buddy.Has p := by
  have := b.num_cases
  simp only [Has, show b.buddy.order = b.order from rfl] at *
  omega

theorem buddy_ne (b : Block) : b.buddy ≠ b := fun heq =>
  not_has_buddy b.has_start (by rw [heq]; exact b.has_start)

theorem buddy_even (o n : ℕ) : (⟨o, 2 * n⟩ : Block).buddy = ⟨o, 2 * n + 1⟩ := by
  simp only [buddy, Nat.xor_one_of_even (even_two_mul n)]

theorem has_of_div {o n : ℕ} (ho : o ≤ b.order) (hn : n / 2 ^ (b.order - o) = b.num)
    (hp : p / 2 ^ o = n) : b.Has p := by
  rw [Has, ← hn, ← hp, Nat.div_div_eq_div_mul, ← Nat.pow_add, Nat.add_sub_cancel' ho]

end Block

def blockPages (bs : List Block) : ℕ := (bs.map fun b => 2 ^ b.order).sum

theorem blockPages_eq_sum {bs : List Block} {N : ℕ} (hN : ∀ b ∈ bs, b.start + 2 ^ b.order ≤ N) :
    blockPages bs = ∑ p ∈ Finset.range N, bs.countP (fun b => b.Has p) := by
  induction bs with
  | nil => simp [blockPages]
  | cons b bs ih =>
    have hblock : (Finset.range N).filter (fun p => b.Has p) = Finset.Ico b.start (b.start + 2 ^ b.order) := by
      ext p
      have := hN b (by simp)
      rw [Finset.mem_filter, Finset.mem_range, mem_Ico, has_iff]
      omega
    have hcount : ∑ p ∈ Finset.range N, (if b.Has p then 1 else 0) = 2 ^ b.order := by
      rw [← card_filter, hblock, Nat.card_Ico, Nat.add_sub_cancel_left]
    have hrest : blockPages (b :: bs) = 2 ^ b.order + blockPages bs := List.sum_cons
    rw [hrest, ih fun c hc => hN c (by simp [hc]), ← hcount, ← sum_add_distrib]
    refine sum_congr rfl fun p _ => ?_
    rw [countP_cons, Nat.add_comm]
    simp

structure Partitions (bs : List Block) (P : Set ℕ) : Prop where
  once : ∀ p ∈ P, bs.countP (fun b => b.Has p) = 1
  only : ∀ b ∈ bs, ∀ p, b.Has p → p ∈ P

namespace Partitions

variable {bs cs : List Block} {P : Set ℕ} {b c : Block} {p : ℕ}

theorem parent_iff : Partitions (b.parent :: bs) P ↔ Partitions (b :: b.buddy :: bs) P := by
  have hcount (p : ℕ) : (b.parent :: bs).countP (fun b => b.Has p) =
      (b :: b.buddy :: bs).countP (fun b => b.Has p) := by
    simp only [countP_cons, decide_eq_true_eq]
    by_cases hb : b.Has p
    · simp [has_parent, hb, not_has_buddy hb]
    · simp [has_parent, hb]
  constructor
  · rintro ⟨honce, honly⟩
    refine ⟨fun p hp => (hcount p).symm.trans (honce p hp), fun c hc p hcp => ?_⟩
    rcases mem_cons.mp hc with rfl | hc
    · exact honly c.parent (by simp) p (has_parent.mpr (.inl hcp))
    · rcases mem_cons.mp hc with rfl | hc
      · exact honly b.parent (by simp) p (has_parent.mpr (.inr hcp))
      · exact honly c (by simp [hc]) p hcp
  · rintro ⟨honce, honly⟩
    refine ⟨fun p hp => (hcount p).trans (honce p hp), fun c hc p hcp => ?_⟩
    rcases mem_cons.mp hc with rfl | hc
    · rcases has_parent.mp hcp with hb | hb
      · exact honly b (by simp) p hb
      · exact honly b.buddy (by simp) p hb
    · exact honly c (by simp [hc]) p hcp

section

variable (h : Partitions bs P)
include h

theorem perm (hperm : bs.Perm cs) : Partitions cs P :=
  ⟨fun p hp => (hperm.countP_eq _).symm.trans (h.once p hp),
    fun b hb => h.only b (hperm.mem_iff.mpr hb)⟩

theorem exists_has (hp : p ∈ P) : ∃ b ∈ bs, b.Has p := by
  have hpos : 0 < bs.countP (fun b => b.Has p) := by
    rw [h.once p hp]
    exact Nat.one_pos
  simpa using countP_pos_iff.mp hpos

theorem pairwise : bs.Pairwise fun b c => ∀ p, b.Has p → ¬ c.Has p := by
  have hle : ∀ p, bs.countP (fun b => b.Has p) ≤ 1 := by
    intro p
    by_cases hp : p ∈ P
    · exact (h.once p hp).le
    · rw [countP_eq_zero.mpr fun b hb => by simpa using fun hhas => hp (h.only b hb p hhas)]
      exact Nat.zero_le _
  clear h
  induction bs with
  | nil => exact .nil
  | cons b bs ih =>
    refine pairwise_cons.mpr ⟨fun c hc p hb hcp => ?_, ih fun p => ?_⟩
    · have hpos : 0 < bs.countP (fun b => b.Has p) := countP_pos_iff.mpr ⟨c, hc, by simpa using hcp⟩
      have := hle p
      rw [countP_cons_of_pos (by simpa using hb)] at this
      omega
    · exact (List.Sublist.countP_le (sublist_cons_self b bs)).trans (hle p)

theorem nodup : bs.Nodup :=
  h.pairwise.imp fun {b _} hbc heq => hbc b.start b.has_start (by rw [← heq]; exact b.has_start)

theorem eq_of_has (hb : b ∈ bs) (hc : c ∈ bs) (hbp : b.Has p) (hcp : c.Has p) : b = c := by
  by_contra hne
  have hsymm : Std.Symm fun b c : Block => ∀ p, b.Has p → ¬ c.Has p :=
    ⟨fun _ _ hbc p hc hb => hbc p hb hc⟩
  exact h.pairwise.forall hb hc hne p hbp hcp

theorem cons (hnew : ∀ p, b.Has p → p ∉ P) : Partitions (b :: bs) (P ∪ {p | b.Has p}) := by
  refine ⟨fun p hp => ?_, fun c hc p hcp => ?_⟩
  · rw [countP_cons]
    rcases hp with hp | hp
    · rw [h.once p hp, if_neg (by simpa using fun hb => hnew p hb hp)]
    · have hzero : bs.countP (fun b => b.Has p) = 0 := countP_eq_zero.mpr fun c hc => by
        simpa using fun hcp => hnew p hp (h.only c hc p hcp)
      rw [hzero, if_pos (by simpa using hp)]
  · rcases mem_cons.mp hc with rfl | hc
    · exact .inr hcp
    · exact .inl (h.only c hc p hcp)

end

open Classical in
theorem blockPages_eq {N : ℕ} (h : Partitions bs P) (hN : ∀ p ∈ P, p < N) :
    blockPages bs = ((Finset.range N).filter (· ∈ P)).card := by
  have hend (b : Block) (hb : b ∈ bs) : b.start + 2 ^ b.order ≤ N := by
    have hpos := Nat.two_pow_pos b.order
    have hlast : b.Has (b.start + 2 ^ b.order - 1) := has_iff.mpr (by omega)
    have := hN _ (h.only b hb _ hlast)
    omega
  rw [blockPages_eq_sum hend, card_filter]
  refine sum_congr rfl fun p _ => ?_
  split_ifs with hp
  · exact h.once p hp
  · exact countP_eq_zero.mpr fun b hb => by simpa using fun hhas => hp (h.only b hb p hhas)

theorem blockPages_le {N : ℕ} (h : Partitions bs P) (hN : ∀ p ∈ P, p < N) : blockPages bs ≤ N := by
  classical
  rw [h.blockPages_eq hN]
  exact (card_filter_le _ _).trans (card_range N).le

theorem left (h : Partitions (bs ++ cs) P) :
    Partitions bs {p | p ∈ P ∧ ∀ c ∈ cs, ¬ c.Has p} := by
  refine ⟨fun p ⟨hp, hcs⟩ => ?_, fun b hb p hbp => ⟨h.only b (by simp [hb]) p hbp, fun c hc hcp => ?_⟩⟩
  · have hzero : cs.countP (fun b => b.Has p) = 0 :=
      countP_eq_zero.mpr fun c hc => by simpa using hcs c hc
    have hone := h.once p hp
    rwa [countP_append, hzero, Nat.add_zero] at hone
  · exact (pairwise_append.mp h.pairwise).2.2 b hb c hc p hbp hcp

end Partitions

def Coalesced (top : ℕ) (bs : List Block) : Prop :=
  ∀ b ∈ bs, b.order < top → b.buddy ∉ bs

def MaximalIn (top : ℕ) (P : Set ℕ) (b : Block) : Prop :=
  b.order ≤ top ∧ (∀ p, b.Has p → p ∈ P) ∧ (b.order < top → ∃ p, b.parent.Has p ∧ p ∉ P)

section Maximal

variable {top : ℕ} {bs : List Block} {P : Set ℕ}

theorem half_div_two_pow {m o k : ℕ} (h : o < k) : m / 2 / 2 ^ (k - (o + 1)) = m / 2 ^ (k - o) := by
  rw [Nat.div_div_eq_div_mul, ← Nat.pow_succ', show (k - (o + 1)).succ = k - o by omega]

theorem Partitions.exists_containing (h : Partitions bs P) (hco : Coalesced top bs) {o : ℕ}
    (ho : o ≤ top) (n : ℕ) (hin : ∀ p, p / 2 ^ o = n → p ∈ P) :
    ∃ b ∈ bs, o ≤ b.order ∧ n / 2 ^ (b.order - o) = b.num := by
  induction o generalizing n with
  | zero =>
    obtain ⟨b, hb, hhas⟩ := h.exists_has (hin n (by simp))
    exact ⟨b, hb, Nat.zero_le _, by simpa [Block.Has] using hhas⟩
  | succ o ih =>
    have hhalf {m : ℕ} (hm : m / 2 = n) : ∀ p, p / 2 ^ o = m → p ∈ P := fun p hp => by
      refine hin p ?_
      rw [Nat.pow_succ, ← Nat.div_div_eq_div_mul, hp, hm]
    have hstep {b : Block} {m : ℕ} (hm : m / 2 = n) (hlt : o < b.order)
        (hdiv : m / 2 ^ (b.order - o) = b.num) : n / 2 ^ (b.order - (o + 1)) = b.num := by
      rw [← hm, half_div_two_pow hlt, hdiv]
    obtain ⟨b, hb, hbo, hbn⟩ := ih (by omega) (2 * n) (hhalf (by omega))
    obtain ⟨c, hc, hco', hcn⟩ := ih (by omega) (2 * n + 1) (hhalf (by omega))
    rcases hbo.lt_or_eq with hlt | heq
    · exact ⟨b, hb, hlt, hstep (by omega) hlt hbn⟩
    rcases hco'.lt_or_eq with hlt | heq'
    · exact ⟨c, hc, hlt, hstep (by omega) hlt hcn⟩
    have hbeq : b = ⟨o, 2 * n⟩ := by
      obtain ⟨order, num⟩ := b
      subst heq
      simpa using hbn.symm
    have hceq : c = b.buddy := by
      obtain ⟨order, num⟩ := c
      subst heq'
      rw [hbeq, buddy_even]
      simpa using hcn.symm
    exact absurd (hceq ▸ hc) (hco b hb (by omega))

theorem Partitions.mem_iff_maximalIn (h : Partitions bs P) (hco : Coalesced top bs)
    (hle : ∀ b ∈ bs, b.order ≤ top) (b : Block) : b ∈ bs ↔ MaximalIn top P b := by
  constructor
  · refine fun hb => ⟨hle b hb, h.only b hb, fun hlt => ?_⟩
    by_contra hall
    push Not at hall
    obtain ⟨c, hc, hco', hcn⟩ := h.exists_containing hco (o := b.order + 1) hlt (b.num / 2) hall
    have hhas : c.Has b.start :=
      has_of_div hco' hcn (has_parent.mpr (.inl b.has_start))
    rw [h.eq_of_has hb hc b.has_start hhas] at hco'
    omega
  · rintro ⟨horder, hin, hmax⟩
    obtain ⟨c, hc, hco', hcn⟩ := h.exists_containing hco horder b.num hin
    rcases hco'.lt_or_eq with hlt | heq
    · obtain ⟨p, hp, hout⟩ := hmax (hlt.trans_le (hle c hc))
      refine absurd (h.only c hc p (has_of_div hlt ?_ hp)) hout
      exact (half_div_two_pow hlt).trans hcn
    · obtain ⟨o, n⟩ := b
      obtain ⟨o', n'⟩ := c
      obtain rfl : o = o' := heq
      obtain rfl : n = n' := by simpa using hcn
      exact hc

end Maximal

end AetherOs.Base
