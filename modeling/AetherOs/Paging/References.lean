import AetherOs.Paging.Release

/-! # References to one frame -/

namespace AetherOs.Paging

open List

inductive RefCall
  | ref
  | unref
  | free
  deriving DecidableEq

namespace RefCall

def run (phys : ℕ) (m : Pmm) : RefCall → Pmm
  | ref => pmmRefFrame phys m
  | unref => pmmUnrefFrame phys m
  | free => pmmFreeFrame phys m

def runAll (phys : ℕ) (m : Pmm) (calls : List RefCall) : Pmm := calls.foldl (run phys) m

def refs (calls : List RefCall) : ℕ := calls.count .ref

def releases (calls : List RefCall) : ℕ := calls.countP (· ≠ .ref)

def Balanced (calls : List RefCall) : Prop := ∀ pre, pre <+: calls → releases pre ≤ 1 + refs pre

def Countable (calls : List RefCall) : Prop :=
  ∀ pre, pre ++ [.ref] <+: calls → releases pre ≤ refs pre ∧ refs pre < releases pre + 254

def FreedOnTime (phys : ℕ) (m : Pmm) (calls : List RefCall) : Prop :=
  pmmTestBit (runAll phys m calls) (phys / pageSize) = false ↔ releases calls = 1 + refs calls

instance (calls : List RefCall) : Decidable (Balanced calls) :=
  decidable_of_iff (∀ pre ∈ calls.inits, releases pre ≤ 1 + refs pre) (by simp [Balanced])

instance (calls : List RefCall) : Decidable (Countable calls) :=
  decidable_of_iff (∀ pre ∈ calls.inits, pre ++ [.ref] <+: calls → releases pre ≤ refs pre ∧ refs pre < releases pre + 254)
    ⟨fun h pre hpre => h pre ((mem_inits _ _).mpr ((prefix_append _ _).trans hpre)) hpre,
      fun h pre _ => h pre⟩

instance (phys : ℕ) (m : Pmm) (calls : List RefCall) : Decidable (FreedOnTime phys m calls) :=
  inferInstanceAs (Decidable (_ ↔ _))

variable {m : Pmm} {f n : ℕ} {c : RefCall} {calls pre : List RefCall}

theorem counts_concat (calls : List RefCall) (c : RefCall) : refs (calls ++ [c]) = refs calls + (if c = .ref then 1 else 0) ∧
    releases (calls ++ [c]) = releases calls + (if c = .ref then 0 else 1) := by
  cases c <;> simp [refs, releases]

theorem counts_replicate (calls : List RefCall) (n : ℕ) : refs (calls ++ List.replicate n .unref) = refs calls ∧
    releases (calls ++ List.replicate n .unref) = releases calls + n := by
  simp [refs, releases, count_replicate, countP_replicate]

theorem runAll_concat (phys : ℕ) : runAll phys m (calls ++ [c]) = run phys (runAll phys m calls) c := by
  simp [runAll]

theorem run_release (phys : ℕ) (hc : c ≠ .ref) : run phys m c = pmmFreeFrame phys m := by
  cases c
  · exact absurd rfl hc
  · rfl
  · rfl

theorem Balanced.of_prefix (h : Balanced calls) (hpre : pre <+: calls) : Balanced pre :=
  fun p hp => h p (hp.trans hpre)

theorem Countable.of_prefix (h : Countable calls) (hpre : pre <+: calls) : Countable pre :=
  fun p hp => h p (hp.trans hpre)

theorem Balanced.append_releases (h : Balanced calls) (hn : releases calls + n ≤ 1 + refs calls) :
    Balanced (calls ++ List.replicate n .unref) := by
  induction n with
  | zero => simpa using h
  | succ n ih =>
    rw [replicate_succ', ← append_assoc]
    intro p hp
    rcases prefix_concat_iff.mp hp with rfl | hp
    · obtain ⟨hrefs, hreleases⟩ := counts_concat (calls ++ List.replicate n .unref) .unref
      obtain ⟨hrefs', hreleases'⟩ := counts_replicate calls n
      rw [hrefs, hreleases, hrefs', hreleases', if_neg (by decide), if_neg (by decide)]
      omega
    · exact ih (by omega) p hp

theorem Countable.append_releases (h : Countable calls) : Countable (calls ++ List.replicate n .unref) := by
  induction n with
  | zero => simpa using h
  | succ n ih =>
    rw [replicate_succ', ← append_assoc]
    intro p hp
    rcases prefix_concat_iff.mp hp with heq | hp
    · cases (append_inj' heq rfl).2
    · exact ih p hp

structure Holds (m : Pmm) (f n : ℕ) : Prop where
  free_iff : Free m f ↔ n = 0
  count : n ≠ 0 → (m.refcounts f).toNat = n

theorem holds_takeFrame : Holds (takeFrame f m) f 1 := by
  refine ⟨⟨fun hfree => absurd hfree not_free_takeFrame_self, fun h => absurd h (by decide)⟩, fun _ => ?_⟩
  have hone : (takeFrame f m).refcounts f = 1 := Function.update_self _ _ _
  rw [hone]
  rfl

theorem Holds.ref (h : Holds m f n) (hlt : f < maxFrames) (hpos : n ≠ 0) (hlim : n < 255) :
    Holds (pmmRefFrame (f * pageSize) m) f (n + 1) := by
  have hcount := h.count hpos
  refine ⟨?_, fun _ => ?_⟩
  · rw [Free, pmmTestBit_pmmRefFrame]
    exact ⟨fun hfree => absurd (h.free_iff.mp hfree) hpos, fun h => absurd h (by omega)⟩
  · rw [refcounts_pmmRefFrame hlt (by omega), if_pos rfl, hcount]

theorem Holds.release (h : Holds m f (n + 1)) (hlt : f < maxFrames) : Holds (pmmFreeFrame (f * pageSize) m) f n := by
  have hcount := h.count (by omega)
  have hused : ¬ Free m f := fun hfree => absurd (h.free_iff.mp hfree) (by omega)
  refine ⟨?_, fun hpos => ?_⟩
  · rw [free_pmmFreeFrame, hcount]
    exact ⟨fun hfree => hfree.elim (fun hfree => absurd hfree hused) (fun hlast => by omega),
      fun hzero => .inr ⟨rfl, hlt, by omega⟩⟩
  · rw [(pmmFreeFrame_shared hlt hused (by omega)).2]
    omega

theorem Holds.free_releases (h : Holds m f n) (hlt : f < maxFrames) :
    Free (runAll (f * pageSize) m (List.replicate n .unref)) f := by
  induction n generalizing m with
  | zero => exact h.free_iff.mpr rfl
  | succ n ih =>
    rw [replicate_succ]
    exact ih (h.release hlt)

theorem Holds.ref_full (h : Holds m f 255) : pmmRefFrame (f * pageSize) m = m := by
  have hlim : ¬ m.refcounts f < (255 : BitVec 8) := by
    have hcount := h.count (by decide)
    simp [BitVec.lt_def, hcount]
  simp only [pmmRefFrame, frame_div]
  rw [if_neg hlim, ite_self]

section

variable (h : Holds m f 1) (hlt : f < maxFrames) (hbal : Balanced calls)
include h hlt hbal

theorem Holds.of_countable (hcount : Countable calls) :
    Holds (runAll (f * pageSize) m calls) f (1 + refs calls - releases calls) := by
  induction calls using List.reverseRecOn with
  | nil => exact h
  | append_singleton calls c ih =>
    have hpre : calls <+: calls ++ [c] := prefix_append _ _
    have hbefore := hbal calls hpre
    have hafter := hbal _ prefix_rfl
    have ih := ih (hbal.of_prefix hpre) (hcount.of_prefix hpre)
    obtain ⟨hrefs, hreleases⟩ := counts_concat calls c
    rw [hrefs, hreleases] at hafter ⊢
    rw [runAll_concat]
    by_cases hc : c = .ref
    · subst hc
      obtain ⟨hpos, hlim⟩ := hcount calls prefix_rfl
      rw [if_pos rfl, if_pos rfl]
      have hnew := ih.ref hlt (by omega) (by omega)
      rwa [show 1 + refs calls - releases calls + 1 = 1 + (refs calls + 1) - (releases calls + 0) by omega] at hnew
    · rw [if_neg hc, if_neg hc] at hafter ⊢
      rw [run_release _ hc]
      rw [show 1 + refs calls - releases calls = (1 + (refs calls + 0) - (releases calls + 1)) + 1 by omega] at ih
      exact ih.release hlt

theorem freedOnTime_of_countable (hcount : Countable calls) : FreedOnTime (f * pageSize) m calls := by
  have hholds := h.of_countable hlt hbal hcount
  have hle := hbal calls prefix_rfl
  have hfree := hholds.free_iff
  rw [Free, and_iff_right hlt] at hfree
  rw [FreedOnTime, frame_div, hfree]
  omega

theorem countable_of_freedOnTime (htime : ∀ pre, pre <+: calls → ∀ n, releases pre + n ≤ 1 + refs pre →
      FreedOnTime (f * pageSize) m (pre ++ List.replicate n .unref)) : Countable calls := by
  induction calls using List.reverseRecOn with
  | nil => exact fun pre hpre => absurd hpre (by simp)
  | append_singleton calls c ih =>
    have hpre : calls <+: calls ++ [c] := prefix_append _ _
    have hcount := ih (hbal.of_prefix hpre) fun p hp => htime p (hp.trans hpre)
    intro p hp
    rcases prefix_concat_iff.mp hp with heq | hp
    · obtain ⟨rfl, hc⟩ := append_inj' heq rfl
      obtain rfl : c = .ref := by simpa using hc.symm
      have hholds := h.of_countable hlt (hbal.of_prefix hpre) hcount
      have hle := hbal p hpre
      have hrun : runAll (f * pageSize) m (p ++ [.ref]) = pmmRefFrame (f * pageSize) (runAll (f * pageSize) m p) :=
        runAll_concat _
      obtain ⟨hrefs, hreleases⟩ := counts_concat p .ref
      simp only [if_true] at hrefs hreleases
      by_contra hbad
      by_cases hzero : 1 + refs p - releases p = 0
      · -- The frame is free, and the reference does not change that.
        have hnow := htime _ prefix_rfl 0 (by rw [hrefs, hreleases]; omega)
        rw [replicate_zero, append_nil, FreedOnTime, hrun, frame_div, pmmTestBit_pmmRefFrame, hrefs,
          hreleases] at hnow
        have := hnow.mp (hholds.free_iff.mpr hzero).2
        omega
      · -- The count is full, so the frame is free one release too early.
        have hfull : 1 + refs p - releases p = 255 := by
          have hcnt := hholds.count hzero
          have := ((runAll (f * pageSize) m p).refcounts f).isLt
          omega
        rw [hfull] at hholds
        have hnow := htime _ prefix_rfl 255 (by rw [hrefs, hreleases]; omega)
        have hdrop : runAll (f * pageSize) m (p ++ [.ref] ++ List.replicate 255 .unref) =
            runAll (f * pageSize) (runAll (f * pageSize) m p) (List.replicate 255 .unref) := by
          rw [runAll, foldl_append]
          change runAll (f * pageSize) (runAll (f * pageSize) m (p ++ [.ref])) _ = _
          rw [hrun, hholds.ref_full]
        obtain ⟨hrefs', hreleases'⟩ := counts_replicate (p ++ [.ref]) 255
        rw [FreedOnTime, hdrop, frame_div, hrefs', hreleases', hrefs, hreleases] at hnow
        have := hnow.mp (hholds.free_releases hlt).2
        omega
    · exact hcount p hp

end

/-- A frame that was allocated is freed on time, wherever the calls stop and the references are dropped, exactly if every
reference is added while at least one and at most 254 are held. -/
theorem freedOnTime_iff_countable {m' : Pmm} {phys : ℕ} (halloc : pmmAllocFrame m = (phys, m')) (hphys : phys ≠ 0)
    (hbal : Balanced calls) :
    (∀ pre, pre <+: calls → ∀ n, releases pre + n ≤ 1 + refs pre →
      FreedOnTime phys m' (pre ++ List.replicate n .unref)) ↔ Countable calls := by
  rcases pmmAllocFrame_cases m with hnone | ⟨f, hf, hsome⟩
  · rw [hnone] at halloc
    exact absurd (congrArg Prod.fst halloc).symm hphys
  · rw [hsome] at halloc
    obtain ⟨rfl, rfl⟩ := Prod.mk.inj halloc
    refine ⟨countable_of_freedOnTime holds_takeFrame hf.1 hbal, fun hcount pre hpre n hn => ?_⟩
    exact freedOnTime_of_countable holds_takeFrame hf.1 ((hbal.of_prefix hpre).append_releases hn)
      (hcount.of_prefix hpre).append_releases

/-- A frame is shared once and released twice. -/
theorem freedOnTime_iff_countable_shared :
    FreedOnTime (2 * pageSize) (takeFrame 2 bareMachine.pmm) ([.ref, .unref, .free] ++ List.replicate 0 .unref) :=
  (freedOnTime_iff_countable (m := bareMachine.pmm) (Prod.ext (by decide +kernel) rfl) (by decide)
    (by decide)).mpr (by decide) _ prefix_rfl 0 (by decide)

theorem counts_refs (hpre : pre <+: List.replicate n .ref) : refs pre ≤ n ∧ releases pre = 0 := by
  obtain ⟨hlen, heq⟩ := prefix_replicate_iff.mp hpre
  rw [heq]
  simpa [refs, releases, count_replicate, countP_replicate] using hlen

theorem Holds.freed_early (h : Holds m f 1) (hlt : f < maxFrames) (hn : n = 254) :
    Balanced (List.replicate (n + 1) .ref ++ List.replicate (n + 1) .unref) ∧
      ¬ FreedOnTime (f * pageSize) m (List.replicate (n + 1) .ref ++ List.replicate (n + 1) .unref) := by
  have hbal (k : ℕ) : Balanced (List.replicate k .ref) := fun pre hpre => by
    rw [(counts_refs hpre).2]
    exact Nat.zero_le _
  have hrefs (k : ℕ) : refs (List.replicate k .ref) = k ∧ releases (List.replicate k .ref) = 0 := by
    simp [refs, releases, countP_replicate]
  refine ⟨(hbal _).append_releases (by rw [(hrefs _).1, (hrefs _).2]; omega), fun htime => ?_⟩
  have hcount : Countable (List.replicate n .ref) := fun pre hpre => by
    have hle := (counts_refs hpre).1
    rw [(counts_concat pre .ref).1, if_pos rfl] at hle
    rw [(counts_refs ((prefix_append _ _).trans hpre)).2]
    omega
  have hholds := h.of_countable hlt (hbal n) hcount
  rw [(hrefs n).1, (hrefs n).2, show 1 + n - 0 = 255 by omega] at hholds
  have hrun : runAll (f * pageSize) m (List.replicate (n + 1) .ref ++ List.replicate (n + 1) .unref) =
      runAll (f * pageSize) (runAll (f * pageSize) m (List.replicate n .ref)) (List.replicate (n + 1) .unref) := by
    rw [runAll, foldl_append]
    change runAll (f * pageSize) (runAll (f * pageSize) m (List.replicate (n + 1) .ref)) _ = _
    rw [replicate_succ', runAll_concat, run, hholds.ref_full]
  have hfree := hholds.free_releases hlt
  rw [show 255 = n + 1 by omega, ← hrun] at hfree
  obtain ⟨hrefs', hreleases'⟩ := counts_replicate (List.replicate (n + 1) .ref) (n + 1)
  rw [FreedOnTime, frame_div, hrefs', hreleases', (hrefs _).1, (hrefs _).2] at htime
  have := htime.mp hfree.2
  omega

/-- After 255 new references the frame is free when one holder is left. -/
theorem exists_frame_freed_early : ∃ phys m', pmmAllocFrame bareMachine.pmm = (phys, m') ∧ phys ≠ 0 ∧
    Balanced (List.replicate (254 + 1) .ref ++ List.replicate (254 + 1) .unref) ∧
      ¬ FreedOnTime phys m' (List.replicate (254 + 1) .ref ++ List.replicate (254 + 1) .unref) :=
  ⟨2 * pageSize, takeFrame 2 bareMachine.pmm, Prod.ext (by decide +kernel) rfl, by decide,
    holds_takeFrame.freed_early (by decide) rfl⟩

end RefCall

end AetherOs.Paging
