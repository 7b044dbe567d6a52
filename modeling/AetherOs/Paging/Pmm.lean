import AetherOs.Base.Flags
import AetherOs.Types

/-! # The physical frame allocator -/

namespace AetherOs.Paging

open Base Function BitVec

def maxFrames : ℕ := 0x100000000 / pageSize

structure Pmm where
  bitmap : ℕ → BitVec 8
  refcounts : ℕ → BitVec 8
  usedFrameCount : ℕ

def pmmSetBit (frame : ℕ) (m : Pmm) : Pmm :=
  let byte := m.bitmap (frame / 8) ||| twoPow 8 (frame % 8)
  { m with bitmap := update m.bitmap (frame / 8) byte }

def pmmClearBit (frame : ℕ) (m : Pmm) : Pmm :=
  let byte := m.bitmap (frame / 8) &&& ~~~(twoPow 8 (frame % 8))
  { m with bitmap := update m.bitmap (frame / 8) byte }

def pmmTestBit (m : Pmm) (frame : ℕ) : Bool := (m.bitmap (frame / 8) >>> (frame % 8)) &&& 1 != 0

def scanBits (m : Pmm) (byte : ℕ) : ℕ → ℕ → Option ℕ
  | 0, _ => none
  | steps + 1, bit =>
    if pmmTestBit m (byte * 8 + bit) then scanBits m byte steps (bit + 1) else some (byte * 8 + bit)

def scanBytes (m : Pmm) : ℕ → ℕ → Option ℕ
  | 0, _ => none
  | steps + 1, byte =>
    if m.bitmap byte = 0xFF then scanBytes m steps (byte + 1)
    else match scanBits m byte 8 0 with
      | some frame => some frame
      | none => scanBytes m steps (byte + 1)

def takeFrame (frame : ℕ) (m : Pmm) : Pmm :=
  { pmmSetBit frame m with
    refcounts := update m.refcounts frame 1
    usedFrameCount := addWord m.usedFrameCount 1 }

def pmmAllocFrame (m : Pmm) : ℕ × Pmm :=
  match scanBytes m (maxFrames / 8) 0 with
  | some frame => (frame * pageSize, takeFrame frame m)
  | none => (0, m)

def scanRun (m : Pmm) (count : ℕ) : ℕ → ℕ → ℕ → ℕ → Option ℕ
  | 0, _, _, _ => none
  | steps + 1, f, run, start =>
    if pmmTestBit m f then scanRun m count steps (f + 1) 0 start
    else
      let start := if run = 0 then f else start
      if run + 1 = count then some start else scanRun m count steps (f + 1) (run + 1) start

def pmmAllocFrames (count : ℕ) (m : Pmm) : ℕ × Pmm :=
  if count = 0 then (0, m)
  else if count = 1 then pmmAllocFrame m
  else match scanRun m count maxFrames 0 0 0 with
    | some start => (start * pageSize, (List.range' start count).foldl (fun m f => takeFrame f m) m)
    | none => (0, m)

def pmmFreeFrame (frame : ℕ) (m : Pmm) : Pmm :=
  let f := frame / pageSize
  if maxFrames ≤ f then m
  else if !pmmTestBit m f then m
  else if 1 < m.refcounts f then
    { m with refcounts := update m.refcounts f (m.refcounts f - 1) }
  else
    { pmmClearBit f m with
      refcounts := update m.refcounts f 0
      usedFrameCount := subWord m.usedFrameCount 1 }

def pmmFreeFrames (frame count : ℕ) (m : Pmm) : Pmm :=
  (List.range count).foldl (fun m i => pmmFreeFrame (addWord frame (i * pageSize)) m) m

def pmmRefFrame (phys : ℕ) (m : Pmm) : Pmm :=
  let f := phys / pageSize
  if maxFrames ≤ f then m
  else if m.refcounts f < 255 then
    { m with refcounts := update m.refcounts f (m.refcounts f + 1) }
  else m

def pmmUnrefFrame (phys : ℕ) (m : Pmm) : Pmm := pmmFreeFrame phys m

def pmmGetRefcount (m : Pmm) (phys : ℕ) : BitVec 8 :=
  let f := phys / pageSize
  if maxFrames ≤ f then 0 else m.refcounts f

def Free (m : Pmm) (f : ℕ) : Prop := f < maxFrames ∧ pmmTestBit m f = false

variable {m : Pmm} {f g : ℕ}

theorem pmmTestBit_eq (m : Pmm) (f : ℕ) : pmmTestBit m f = (m.bitmap (f / 8)).getLsbD (f % 8) := by
  have hone : (1 : BitVec 8) = twoPow 8 0 := rfl
  rw [pmmTestBit, hone]
  exact (and_twoPow_bne_zero _ 0).trans (by simp)

theorem eq_of_div_mod (hdiv : g / 8 = f / 8) (hmod : g % 8 = f % 8) : g = f := by omega

theorem pmmTestBit_pmmSetBit : pmmTestBit (pmmSetBit f m) g = (decide (g = f) || pmmTestBit m g) := by
  rw [pmmTestBit_eq, pmmTestBit_eq, pmmSetBit]
  by_cases hdiv : g / 8 = f / 8
  · simp only [hdiv, update_self, getLsbD_or, getLsbD_twoPow]
    by_cases hmod : g % 8 = f % 8
    · simp [eq_of_div_mod hdiv hmod, Nat.mod_lt]
    · have hne : g ≠ f := by rintro rfl; exact hmod rfl
      simp [hne, Ne.symm hmod]
  · have hne : g ≠ f := by rintro rfl; exact hdiv rfl
    simp [update_of_ne hdiv, hne]

theorem pmmTestBit_pmmClearBit :
    pmmTestBit (pmmClearBit f m) g = (decide (g ≠ f) && pmmTestBit m g) := by
  rw [pmmTestBit_eq, pmmTestBit_eq, pmmClearBit]
  by_cases hdiv : g / 8 = f / 8
  · simp only [hdiv, update_self, getLsbD_and, getLsbD_not, getLsbD_twoPow]
    by_cases hmod : g % 8 = f % 8
    · simp [eq_of_div_mod hdiv hmod, Nat.mod_lt]
    · have hne : g ≠ f := by rintro rfl; exact hmod rfl
      simp [hne, Ne.symm hmod, Nat.mod_lt]
  · have hne : g ≠ f := by rintro rfl; exact hdiv rfl
    simp [update_of_ne hdiv, hne]

theorem pmmTestBit_takeFrame : pmmTestBit (takeFrame f m) g = (decide (g = f) || pmmTestBit m g) :=
  pmmTestBit_pmmSetBit

theorem scanBits_spec {byte steps bit : ℕ} (h : scanBits m byte steps bit = some f) :
    pmmTestBit m f = false ∧ f < byte * 8 + bit + steps := by
  induction steps generalizing bit with
  | zero => cases h
  | succ steps ih =>
    rw [scanBits] at h
    split_ifs at h with hfree
    · have := ih h
      exact ⟨this.1, by omega⟩
    · obtain rfl := Option.some.inj h
      exact ⟨Bool.eq_false_iff.mpr hfree, by omega⟩

theorem scanBytes_spec {steps byte : ℕ} (h : scanBytes m steps byte = some f) :
    pmmTestBit m f = false ∧ f < (byte + steps) * 8 := by
  induction steps generalizing byte with
  | zero => cases h
  | succ steps ih =>
    have hrest (h : scanBytes m steps (byte + 1) = some f) :
        pmmTestBit m f = false ∧ f < (byte + (steps + 1)) * 8 := by
      have := ih h
      exact ⟨this.1, by omega⟩
    rw [scanBytes] at h
    split at h
    · exact hrest h
    · split at h
      · rename_i frame hframe
        obtain rfl := Option.some.inj h
        have := scanBits_spec hframe
        exact ⟨this.1, by omega⟩
      · exact hrest h

theorem pmmAllocFrame_cases (m : Pmm) : pmmAllocFrame m = (0, m) ∨
    ∃ f, Free m f ∧ pmmAllocFrame m = (f * pageSize, takeFrame f m) := by
  rw [pmmAllocFrame]
  cases hscan : scanBytes m (maxFrames / 8) 0 with
  | none => exact .inl rfl
  | some f =>
    obtain ⟨hfree, hlt⟩ := scanBytes_spec hscan
    exact .inr ⟨f, ⟨by simpa [maxFrames, pageSize] using hlt, hfree⟩, rfl⟩

theorem not_free_takeFrame (hg : ¬ Free m g) : ¬ Free (takeFrame f m) g := fun ⟨hlt, hbit⟩ => by
  rw [pmmTestBit_takeFrame, Bool.or_eq_false_iff] at hbit
  exact hg ⟨hlt, hbit.2⟩

theorem not_free_takeFrame_self : ¬ Free (takeFrame f m) f := fun ⟨_, hbit⟩ => by
  simp [pmmTestBit_takeFrame] at hbit

theorem Free.ne (hf : Free m f) (hg : ¬ Free m g) : g ≠ f := by
  rintro rfl
  exact hg hf

theorem Free.address_ne_zero (hf : Free m f) (hzero : ¬ Free m 0) : f * pageSize ≠ 0 :=
  Nat.mul_ne_zero (hf.ne hzero).symm (by decide)

theorem refcounts_takeFrame (hf : Free m f) (hg : ¬ Free m g) :
    (takeFrame f m).refcounts g = m.refcounts g := update_of_ne (hf.ne hg) _ _

theorem not_free_pmmAllocFrame (hg : ¬ Free m g) : ¬ Free (pmmAllocFrame m).2 g := by
  rcases pmmAllocFrame_cases m with hnone | ⟨f, _, hsome⟩
  · rwa [hnone]
  · rw [hsome]
    exact not_free_takeFrame hg

theorem refcounts_pmmAllocFrame (hg : ¬ Free m g) :
    (pmmAllocFrame m).2.refcounts g = m.refcounts g := by
  rcases pmmAllocFrame_cases m with hnone | ⟨f, hf, hsome⟩
  · rw [hnone]
  · rw [hsome]
    exact refcounts_takeFrame hf hg

@[simp] theorem frame_div (f : ℕ) : f * pageSize / pageSize = f := Nat.mul_div_cancel _ (by decide)

theorem pmmTestBit_pmmFreeFrame (hne : g ≠ f) :
    pmmTestBit (pmmFreeFrame (f * pageSize) m) g = pmmTestBit m g := by
  simp only [pmmFreeFrame, frame_div]
  split
  · rfl
  · split
    · rfl
    · split
      · rfl
      · exact pmmTestBit_pmmClearBit.trans (by simp [hne])

theorem refcounts_pmmFreeFrame (hne : g ≠ f) :
    (pmmFreeFrame (f * pageSize) m).refcounts g = m.refcounts g := by
  simp only [pmmFreeFrame, frame_div]
  split
  · rfl
  · split
    · rfl
    · split <;> exact update_of_ne hne _ _

theorem not_free_pmmFreeFrame (hne : g ≠ f) (hg : ¬ Free m g) :
    ¬ Free (pmmFreeFrame (f * pageSize) m) g := fun ⟨hlt, hbit⟩ =>
  hg ⟨hlt, (pmmTestBit_pmmFreeFrame hne).symm.trans hbit⟩

theorem pmmFreeFrame_offset {off : ℕ} (hoff : off < pageSize) :
    pmmFreeFrame (f * pageSize + off) m = pmmFreeFrame (f * pageSize) m := by
  have hdiv : (f * pageSize + off) / pageSize = f := by
    simp only [pageSize] at *
    omega
  simp only [pmmFreeFrame, hdiv, frame_div]

theorem pmmFreeFrame_shared (hlt : f < maxFrames) (hused : ¬ Free m f)
    (hrefs : 1 < (m.refcounts f).toNat) :
    ¬ Free (pmmFreeFrame (f * pageSize) m) f ∧
      ((pmmFreeFrame (f * pageSize) m).refcounts f).toNat = (m.refcounts f).toNat - 1 := by
  have hbit : pmmTestBit m f := by
    by_contra hbit
    exact hused ⟨hlt, Bool.eq_false_iff.mpr hbit⟩
  have hone : (1 : BitVec 8) < m.refcounts f := by simpa [lt_def] using hrefs
  have heq : pmmFreeFrame (f * pageSize) m =
      { m with refcounts := update m.refcounts f (m.refcounts f - 1) } := by
    simp only [pmmFreeFrame, frame_div]
    rw [if_neg (by omega), hbit, if_neg (by decide), if_pos hone]
  rw [heq]
  refine ⟨hused, ?_⟩
  simp only [update_self, toNat_sub, show (1 : BitVec 8).toNat = 1 from rfl]
  have := (m.refcounts f).isLt
  omega

theorem pmmGetRefcount_eq (hlt : f < maxFrames) : pmmGetRefcount m (f * pageSize) = m.refcounts f := by
  simp only [pmmGetRefcount, frame_div]
  exact if_neg (by omega)

theorem pmmTestBit_pmmRefFrame : pmmTestBit (pmmRefFrame (f * pageSize) m) g = pmmTestBit m g := by
  simp only [pmmRefFrame, frame_div]
  split
  · rfl
  · split <;> rfl

theorem refcounts_pmmRefFrame_min : ((pmmRefFrame (f * pageSize) m).refcounts g).toNat =
    if g = f ∧ f < maxFrames then min 255 ((m.refcounts g).toNat + 1) else (m.refcounts g).toNat := by
  have hlim : m.refcounts f < (255 : BitVec 8) ↔ (m.refcounts f).toNat < 255 := by simp [lt_def]
  have hbyte := (m.refcounts f).isLt
  simp only [pmmRefFrame, frame_div, hlim]
  by_cases hlt : f < maxFrames
  · simp only [if_neg (Nat.not_le.mpr hlt), hlt, and_true]
    by_cases hg : g = f
    · subst hg
      split
      · simp only [update_self, toNat_add, show (1 : BitVec 8).toNat = 1 from rfl, if_true]
        omega
      · rw [if_pos rfl]
        omega
    · split <;> simp [hg]
  · rw [if_pos (Nat.not_lt.mp hlt), if_neg fun h => hlt h.2]

theorem refcounts_pmmRefFrame (hlt : f < maxFrames) (hrefs : (m.refcounts f).toNat < 255) :
    ((pmmRefFrame (f * pageSize) m).refcounts g).toNat =
      if g = f then (m.refcounts g).toNat + 1 else (m.refcounts g).toNat := by
  rw [refcounts_pmmRefFrame_min]
  simp only [hlt, and_true]
  split_ifs with hg
  · subst hg
    omega
  · rfl

end AetherOs.Paging
