import Mathlib.Data.Finset.Card

/-! # Counted sharing -/

namespace AetherOs.Base

open Option Finset

section

variable {R P F : Type*} [DecidableEq F]

def holders (owners : Finset R) (map : R → P → Option F) (n : P) (d : F) : Finset R :=
  owners.filter fun r => map r n = some d

structure Counted (owners : Finset R) (map : R → P → Option F) (refs : F → ℕ) : Prop where
  same_page : ∀ r ∈ owners, ∀ r' ∈ owners, ∀ n n' d, map r n = some d → map r' n' = some d → n = n'
  count : ∀ r ∈ owners, ∀ n d, map r n = some d → refs d = (holders owners map n d).card

structure Backed (owners : Finset R) (map : R → P → Option F) (refs : F → ℕ) : Prop where
  same_page : ∀ r ∈ owners, ∀ r' ∈ owners, ∀ n n' d, map r n = some d → map r' n' = some d → n = n'
  count_le : ∀ r ∈ owners, ∀ n d, map r n = some d → (holders owners map n d).card ≤ refs d

variable {owners : Finset R} {map map' : R → P → Option F} {refs refs' : F → ℕ} {r r' src : R}
variable {n n' : P} {d z : F}

theorem holders_congr (hmap : ∀ x ∈ owners, ∀ m, map' x m = map x m) : holders owners map' n d = holders owners map n d :=
  filter_congr fun y hy => by rw [hmap y hy n]

section

variable [DecidableEq R]

omit [DecidableEq F] in
theorem mem_of_insert (hempty : ∀ n, map r n = none) (hr' : r' ∈ insert r owners) (hd : map r' n = some d) : r' ∈ owners := by
  rcases mem_insert.mp hr' with rfl | hr'
  · rw [hempty] at hd; cases hd
  · exact hr'

theorem holders_insert (hempty : ∀ n, map r n = none) : holders (insert r owners) map n d = holders owners map n d := by
  rw [holders, filter_insert, if_neg (by simp [hempty])]
  rfl

variable [DecidableEq P] {o : Option F}

def SetsAt (owners : Finset R) (map map' : R → P → Option F) (r : R) (n : P) (o : Option F) : Prop :=
  ∀ x ∈ owners, ∀ m, map' x m = if x = r ∧ m = n then o else map x m

omit [DecidableEq F] in
theorem SetsAt.old (hmap : SetsAt owners map map' r n o) (hr' : r' ∈ owners) (hd : map' r' n' = some d)
    (hne : o ≠ some d) : map r' n' = some d := by
  rw [hmap r' hr'] at hd
  split at hd
  · exact absurd hd hne
  · exact hd

theorem holders_set (hr : r ∈ owners) (hmap : SetsAt owners map map' r n o) (m : P) (f : F) :
    holders owners map' m f = if m = n then
      (if o = some f then insert r (holders owners map n f) else (holders owners map n f).erase r)
      else holders owners map m f := by
  ext x
  by_cases hx : x ∈ owners
  · by_cases hm : m = n
    · subst hm
      by_cases hxr : x = r
      · subst hxr
        by_cases ho : o = some f <;> simp [holders, hmap x hx m, hx, ho]
      · by_cases ho : o = some f <;> simp [holders, hmap x hx m, hx, ho, hxr]
    · simp [holders, hmap x hx m, hm]
  · have hxr : x ≠ r := fun h => hx (h ▸ hr)
    by_cases hm : m = n
    · by_cases ho : o = some f <;> simp [holders, hx, hm, ho, hxr]
    · simp [holders, hx, hm]

theorem holders_set_subset (hr : r ∈ owners)
    (hmap : SetsAt owners map map' r n o) {m : P} {f : F}
    (hne : o ≠ some f) : holders owners map' m f ⊆ holders owners map m f := by
  rw [holders_set hr hmap, if_neg hne]
  split_ifs with hm
  · rw [hm]
    exact erase_subset _ _
  · exact subset_rfl

end

namespace Backed

variable (h : Backed owners map refs)
include h

theorem sole (hr : r ∈ owners) (hd : map r n = some d) (hone : refs d ≤ 1)
    (hr' : r' ∈ owners) (hd' : map r' n' = some d) : r' = r ∧ n' = n := by
  obtain rfl := h.same_page r' hr' r hr n' n d hd' hd
  have hcard := card_le_one.mp ((h.count_le r hr n' d hd).trans hone)
  exact ⟨hcard r' (mem_filter.mpr ⟨hr', hd'⟩) r (mem_filter.mpr ⟨hr, hd⟩), rfl⟩

theorem congr (hmap : ∀ x ∈ owners, ∀ m, map' x m = map x m)
    (hrefs : ∀ x ∈ owners, ∀ m f, map x m = some f → refs f ≤ refs' f) : Backed owners map' refs' := by
  refine ⟨fun x hx y hy m m' f hf hf' => ?_, fun x hx m f hf => ?_⟩
  · exact h.same_page x hx y hy m m' f ((hmap x hx m).symm.trans hf) ((hmap y hy m').symm.trans hf')
  · rw [hmap x hx m] at hf
    rw [holders_congr hmap]
    exact (h.count_le x hx m f hf).trans (hrefs x hx m f hf)

variable [DecidableEq R]

theorem join (hempty : ∀ n, map r n = none) :
    Backed (insert r owners) map refs := by
  refine ⟨fun x hx y hy m m' f hf hf' =>
    h.same_page x (mem_of_insert hempty hx hf) y (mem_of_insert hempty hy hf') m m' f hf hf',
    fun x hx m f hf => ?_⟩
  rw [holders_insert hempty]
  exact h.count_le x (mem_of_insert hempty hx hf) m f hf

variable [DecidableEq P] {o : Option F}

theorem same_page_set
    (hmap : SetsAt owners map map' r n o)
    (hpage : ∀ x ∈ owners, ∀ m f, o = some f → map x m = some f → m = n) :
    ∀ x ∈ owners, ∀ y ∈ owners, ∀ m m' f, map' x m = some f → map' y m' = some f → m = m' := by
  intro x hx y hy m m' f hf hf'
  rw [hmap x hx] at hf
  rw [hmap y hy] at hf'
  split at hf <;> split at hf'
  · rename_i hxm hym
    exact hxm.2.trans hym.2.symm
  · rename_i hxm _
    exact hxm.2.trans (hpage y hy m' f hf hf').symm
  · rename_i _ hym
    exact (hpage x hx m f hf' hf).trans hym.2.symm
  · exact h.same_page x hx y hy m m' f hf hf'

theorem put (hr : r ∈ owners)
    (hfresh : ∀ x ∈ owners, ∀ m, map x m ≠ some z)
    (hmap : SetsAt owners map map' r n (some z))
    (hone : 1 ≤ refs' z) (hrefs : ∀ x ∈ owners, ∀ m f, map x m = some f → refs f ≤ refs' f) :
    Backed owners map' refs' := by
  refine ⟨h.same_page_set hmap fun x hx m f ho hf => ?_, fun x hx m f hf => ?_⟩
  · exact absurd (some.inj ho ▸ hf) (hfresh x hx m)
  · rw [hmap x hx] at hf
    split_ifs at hf with hxm
    · obtain rfl := some.inj hf
      have hempty : holders owners map n z = ∅ :=
        filter_eq_empty_iff.mpr fun y hy => hfresh y hy n
      rw [holders_set hr hmap, if_pos hxm.2, if_pos rfl, hempty]
      exact hone
    · have hne : some z ≠ some f := fun heq => hfresh x hx m (hf.trans heq.symm)
      exact (card_le_card (holders_set_subset hr hmap hne)).trans
        ((h.count_le x hx m f hf).trans (hrefs x hx m f hf))

theorem drop (hr : r ∈ owners) (hd : map r n = some d)
    (hmap : SetsAt owners map map' r n none)
    (hrefs : ∀ x ∈ owners, ∀ m f, map' x m = some f → (if f = d then refs f - 1 else refs f) ≤ refs' f) :
    Backed owners map' refs' := by
  refine ⟨h.same_page_set hmap (fun _ _ _ _ ho => nomatch ho), fun x hx m f hf => ?_⟩
  refine le_trans ?_ (hrefs x hx m f hf)
  have hold := hmap.old hx hf (by simp)
  have hcount := h.count_le x hx m f hold
  split_ifs with hfd
  · subst hfd
    obtain rfl := h.same_page x hx r hr m n f hold hd
    have hmem : r ∈ holders owners map m f := mem_filter.mpr ⟨hr, hd⟩
    rw [holders_set hr hmap, if_pos rfl, if_neg (by simp), card_erase_of_mem hmem]
    exact Nat.sub_le_sub_right hcount 1
  · exact (card_le_card (holders_set_subset hr hmap (by simp))).trans hcount

end Backed

namespace Counted

section

variable (h : Counted owners map refs)
include h

theorem backed : Backed owners map refs :=
  ⟨h.same_page, fun r hr n d hd => (h.count r hr n d hd).ge⟩

theorem pos (hr : r ∈ owners) (hd : map r n = some d) : 0 < refs d := by
  rw [h.count r hr n d hd]
  exact card_pos.mpr ⟨r, mem_filter.mpr ⟨hr, hd⟩⟩

theorem lt_card (hr : r ∈ owners) (hd : map r n = some d)
    (hr' : r' ∈ owners) (hd' : map r' n ≠ some d) : refs d < owners.card := by
  rw [h.count r hr n d hd]
  refine card_lt_card ⟨filter_subset _ _, fun hsub => hd' ?_⟩
  exact (mem_filter.mp (hsub hr')).2

theorem congr (hmap : ∀ x ∈ owners, ∀ m, map' x m = map x m)
    (hrefs : ∀ x ∈ owners, ∀ m f, map x m = some f → refs' f = refs f) : Counted owners map' refs' := by
  refine ⟨(h.backed.congr hmap fun _ _ _ _ _ => le_rfl).same_page, fun x hx m f hf => ?_⟩
  rw [hmap x hx m] at hf
  rw [hrefs x hx m f hf, h.count x hx m f hf, holders_congr hmap]

end

variable [DecidableEq R]

theorem join (h : Counted owners map refs) (hempty : ∀ n, map r n = none) :
    Counted (insert r owners) map refs := by
  refine ⟨(h.backed.join hempty).same_page, fun x hx m f hf => ?_⟩
  rw [holders_insert hempty]
  exact h.count x (mem_of_insert hempty hx hf) m f hf

theorem leave (h : Counted owners map refs) (hempty : ∀ n, map r n = none) :
    Counted (owners.erase r) map refs := by
  refine ⟨fun x hx y hy => h.same_page x (mem_of_mem_erase hx) y (mem_of_mem_erase hy),
    fun x hx m f hf => ?_⟩
  rw [h.count x (mem_of_mem_erase hx) m f hf, holders, holders, filter_erase,
    erase_eq_of_notMem]
  simp [hempty]

variable [DecidableEq P]

section

variable (h : Counted owners map refs) (hr : r ∈ owners)

include h hr

theorem count_erase (hd : map r n = some d) {x : R} (hx : x ∈ owners) {m : P} {f : F} (hf : map x m = some f):
    (if f = d then refs f - 1 else refs f) =
      (if m = n then (holders owners map n f).erase r else holders owners map m f).card := by
  rw [h.count x hx m f hf]
  by_cases hfd : f = d
  · subst hfd
    obtain rfl := h.same_page x hx r hr m n f hf hd
    have hmem : r ∈ holders owners map m f := mem_filter.mpr ⟨hr, hd⟩
    rw [if_pos rfl, if_pos rfl, card_erase_of_mem hmem]
  · rw [if_neg hfd]
    split_ifs with hm
    · rw [erase_eq_of_notMem, hm]
      exact fun hmem => hfd (some.inj ((mem_filter.mp hmem).2.symm.trans hd))
    · rfl

theorem share (hnone : map r n = none) (hsrc : src ∈ owners) (hd : map src n = some d)
    (hmap : SetsAt owners map map' r n (some d))
    (hrefs : ∀ x ∈ owners, ∀ m f, map x m = some f → refs' f = if f = d then refs f + 1 else refs f) :
    Counted owners map' refs' := by
  have hr_notMem (f : F) : r ∉ holders owners map n f := by simp [holders, hnone]
  refine ⟨h.backed.same_page_set hmap fun x hx m f ho hf => ?_, fun x hx m f hf => ?_⟩
  · obtain rfl := some.inj ho
    exact h.same_page x hx src hsrc m n d hf hd
  · rw [holders_set hr hmap]
    rw [hmap x hx] at hf
    split_ifs at hf with hxm
    · obtain rfl := some.inj hf
      rw [if_pos hxm.2, if_pos rfl, card_insert_of_notMem (hr_notMem d),
        hrefs src hsrc n d hd, if_pos rfl, h.count src hsrc n d hd]
    · rw [hrefs x hx m f hf]
      by_cases hfd : f = d
      · subst hfd
        obtain rfl := h.same_page x hx src hsrc m n f hf hd
        rw [if_pos rfl, if_pos rfl, if_pos rfl, card_insert_of_notMem (hr_notMem f),
          h.count x hx m f hf]
      · rw [if_neg hfd, h.count x hx m f hf, if_neg (fun heq => hfd (some.inj heq).symm)]
        split_ifs with hm
        · rw [erase_eq_of_notMem (hr_notMem f), hm]
        · rfl

theorem move (hd : map r n = some d) (hfresh : ∀ x ∈ owners, ∀ m, map x m ≠ some z)
    (hmap : SetsAt owners map map' r n (some z)) (hone : refs' z = 1)
    (hrefs : ∀ x ∈ owners, ∀ m f, map x m = some f → refs' f = if f = d then refs f - 1 else refs f) :
    Counted owners map' refs' := by
  refine ⟨h.backed.same_page_set hmap fun x hx m f ho hf => ?_, fun x hx m f hf => ?_⟩
  · exact absurd (some.inj ho ▸ hf) (hfresh x hx m)
  · rw [holders_set hr hmap]
    rw [hmap x hx] at hf
    split_ifs at hf with hxm
    · obtain rfl := some.inj hf
      have hempty : holders owners map n z = ∅ :=
        filter_eq_empty_iff.mpr fun y hy => hfresh y hy n
      rw [if_pos hxm.2, if_pos rfl, hempty, hone]
      rfl
    · have hne : ¬ (some z = some f) := fun heq => hfresh x hx m (hf.trans heq.symm)
      simp only [if_neg hne]
      rw [hrefs x hx m f hf]
      exact h.count_erase hr hd hx hf

theorem drop (hd : map r n = some d)
    (hmap : SetsAt owners map map' r n none)
    (hrefs : ∀ x ∈ owners, ∀ m f, map' x m = some f → refs' f = if f = d then refs f - 1 else refs f) :
    Counted owners map' refs' := by
  refine ⟨h.backed.same_page_set hmap (fun _ _ _ _ ho => nomatch ho), fun x hx m f hf => ?_⟩
  rw [hrefs x hx m f hf, holders_set hr hmap]
  simp only [reduceCtorEq, if_false]
  exact h.count_erase hr hd hx (hmap.old hx hf (by simp))

end

end Counted

end

/-! ## Counted sharing apart from some frames -/

section

variable {R P F : Type*} [DecidableEq F]

structure Covered (exempt : Set F) (owners : Finset R) (map : R → P → Option F) (refs : F → ℕ) : Prop where
  same_page : ∀ r ∈ owners, ∀ r' ∈ owners, ∀ n n' d, map r n = some d → map r' n' = some d → n = n'
  count_le : ∀ r ∈ owners, ∀ n d, map r n = some d → d ∉ exempt → (holders owners map n d).card ≤ refs d

namespace Covered

variable {exempt exempt' : Set F} {owners : Finset R} {map map' : R → P → Option F} {refs refs' : F → ℕ} {r src : R}
variable {n : P} {d : F} {o : Option F} (h : Covered exempt owners map refs)

include h

theorem backed_card : Backed owners map fun _ => owners.card :=
  ⟨h.same_page, fun _ _ _ _ _ => card_filter_le _ _⟩

theorem congr (hmap : ∀ x ∈ owners, ∀ m, map' x m = map x m)
    (hrefs : ∀ x ∈ owners, ∀ m f, map x m = some f → f ∉ exempt → refs f ≤ refs' f) :
    Covered exempt owners map' refs' := by
  refine ⟨(h.backed_card.congr hmap fun _ _ _ _ _ => le_rfl).same_page, fun x hx m f hf hnot => ?_⟩
  rw [hmap x hx m] at hf
  rw [holders_congr hmap]
  exact (h.count_le x hx m f hf hnot).trans (hrefs x hx m f hf hnot)

theorem release
    (hnew : ∀ x ∈ owners, ∀ m f, map x m = some f → f ∈ exempt → f ∉ exempt' →
      (holders owners map m f).card ≤ refs' f)
    (hrefs : ∀ x ∈ owners, ∀ m f, map x m = some f → f ∉ exempt → refs f ≤ refs' f) :
    Covered exempt' owners map refs' := by
  refine ⟨h.same_page, fun x hx m f hf hnot => ?_⟩
  by_cases hmem : f ∈ exempt
  · exact hnew x hx m f hf hmem hnot
  · exact (h.count_le x hx m f hf hmem).trans (hrefs x hx m f hf hmem)

variable [DecidableEq R]

theorem join (hempty : ∀ n, map r n = none) :
    Covered exempt (insert r owners) map refs := by
  refine ⟨(h.backed_card.join hempty).same_page, fun x hx m f hf hnot => ?_⟩
  rw [holders_insert hempty]
  exact h.count_le x (mem_of_insert hempty hx hf) m f hf hnot

theorem leave (hr : r ∈ owners)
    (hrefs : ∀ x ∈ owners.erase r, ∀ m f, map x m = some f → f ∉ exempt →
      (if map r m = some f then refs f - 1 else refs f) ≤ refs' f) :
    Covered exempt (owners.erase r) map refs' := by
  refine ⟨fun x hx y hy => h.same_page x (mem_of_mem_erase hx) y (mem_of_mem_erase hy),
    fun x hx m f hf hnot => ?_⟩
  have hcount := h.count_le x (mem_of_mem_erase hx) m f hf hnot
  refine le_trans ?_ (hrefs x hx m f hf hnot)
  rw [holders, filter_erase]
  split_ifs with hmap
  · rw [card_erase_of_mem (mem_filter.mpr ⟨hr, hmap⟩)]
    exact Nat.sub_le_sub_right hcount 1
  · exact card_erase_le.trans hcount

variable [DecidableEq P]

theorem set (hr : r ∈ owners)
    (hmap : SetsAt owners map map' r n o)
    (ho : ∀ f, o = some f → f ∈ exempt ∧ ∀ x ∈ owners, ∀ m, map x m = some f → m = n) :
    Covered exempt owners map' refs := by
  refine ⟨h.backed_card.same_page_set hmap fun x hx m f hf => (ho f hf).2 x hx m, fun x hx m f hf hnot => ?_⟩
  have hne : o ≠ some f := fun hof => hnot (ho f hof).1
  exact (card_le_card (holders_set_subset hr hmap hne)).trans
    (h.count_le x hx m f (hmap.old hx hf hne) hnot)

theorem share (hr : r ∈ owners) (hsrc : src ∈ owners) (hd : map src n = some d)
    (hmap : SetsAt owners map map' r n (some d))
    (hnew : d ∉ exempt → (holders owners map n d).card + 1 ≤ refs' d)
    (hrefs : ∀ x ∈ owners, ∀ m f, map x m = some f → f ∉ exempt → f ≠ d → refs f ≤ refs' f) :
    Covered exempt owners map' refs' := by
  refine ⟨h.backed_card.same_page_set hmap fun x hx m f hf hm => ?_, fun x hx m f hf hnot => ?_⟩
  · obtain rfl := some.inj hf
    exact h.same_page x hx src hsrc m n d hm hd
  · by_cases hfd : f = d
    · subst hfd
      obtain rfl : m = n := by
        rw [hmap x hx] at hf
        split_ifs at hf with hxm
        · exact hxm.2
        · exact h.same_page x hx src hsrc m n f hf hd
      rw [holders_set hr hmap, if_pos rfl, if_pos rfl]
      exact (card_insert_le _ _).trans (hnew hnot)
    · have hne : some d ≠ some f := fun heq => hfd (some.inj heq).symm
      have hold := hmap.old hx hf hne
      exact (card_le_card (holders_set_subset hr hmap hne)).trans
        ((h.count_le x hx m f hold hnot).trans (hrefs x hx m f hold hnot hfd))

end Covered

end

end AetherOs.Base
