import AetherOs.Cap.History
import Mathlib.Data.Finset.Card

/-! # References -/

namespace AetherOs.Cap

open Base Function Finset

section

def Valid (slots : ℕ → Capability) (x : ℕ) : Prop := ∃ i, (slots i).valid = true ∧ (slots i).id = x

def children (slots : ℕ → Capability) (x : ℕ) : Finset ℕ :=
  (Finset.range capTableSize).filter fun i => (slots i).valid = true ∧ (slots i).parent = x

def validCount (slots : ℕ → Capability) : ℕ :=
  ((Finset.range capTableSize).filter fun i => (slots i).valid = true).card

structure Tidy (log : List Record) (slots : ℕ → Capability) : Prop where
  bounded : ∀ i, (slots i).valid = true → i < capTableSize
  distinct : ∀ i j, (slots i).valid = true → (slots j).valid = true → (slots i).id = (slots j).id → i = j
  logged : ∀ i, (slots i).valid = true → record log (slots i).id = some (recordOf (slots i))

def Rooted (gone : ℕ → Prop) (slots : ℕ → Capability) : Prop :=
  ∀ i, (slots i).valid = true → (slots i).parent ≠ 0 →
    Valid slots (slots i).parent ∨ gone (slots i).parent

def OnChain (log : List Record) (a x : ℕ) : Prop := Relation.ReflTransGen (DerivedFrom log) x a

def Trimmed (log : List Record) (p : ℕ) (slots slots' : ℕ → Capability) : Prop :=
  ∀ i, slots' i = slots i ∨ (slots i).valid = true ∧ OnChain log (slots i).id p ∧
    (slots' i = { slots i with refCount := (slots i).refCount - 1 } ∨
      (slots' i).valid = false ∧ (slots i).refCount = 1)

structure Balanced (held : ℕ → ℕ) (pending : ℕ) (slots : ℕ → Capability) : Prop where
  count : ∀ i, (slots i).valid = true → (slots i).refCount =
    held (slots i).id + (children slots (slots i).id).card + if (slots i).id = pending then 1 else 0
  pos : ∀ i, (slots i).valid = true → 1 ≤ (slots i).refCount

variable {log : List Record} {slots slots' : ℕ → Capability} {held : ℕ → ℕ} {gone : ℕ → Prop}
variable {t : CapTable} {c : Capability} {i j x p depth : ℕ}

theorem mem_children : j ∈ children slots x ↔
    j < capTableSize ∧ (slots j).valid ∧ (slots j).parent = x := by
  simp [children]

theorem children_update (hc : c.valid = false) : children (update slots i c) x =
    (children slots x).erase i := by
  ext j
  simp only [mem_children, mem_erase]
  by_cases heq : j = i
  · subst heq
    simp [hc]
  · simp [heq]

theorem children_congr (h : ∀ j, (slots' j).valid = (slots j).valid ∧ (slots' j).parent = (slots j).parent) :
    children slots' x = children slots x := by
  ext j
  simp only [mem_children, h j]

theorem validCount_update (hi : i < capTableSize) (hvalid : (slots i).valid) (hc : c.valid = false) :
    validCount (update slots i c) < validCount slots := by
  refine card_lt_card ⟨fun j hj => ?_, fun hsub => ?_⟩
  · simp only [mem_filter] at hj ⊢
    by_cases heq : j = i
    · subst heq
      simp [hc] at hj
    · rwa [update_of_ne heq] at hj
  · have hmem := hsub (mem_filter.mpr ⟨mem_range.mpr hi, hvalid⟩)
    simp [hc] at hmem

theorem validCount_le (slots : ℕ → Capability) : validCount slots ≤ capTableSize :=
  (card_filter_le _ _).trans (card_range _).le

theorem capGet_unique (hlt : i < capTableSize) (hi : (t.slots i).valid) (hne : (t.slots i).id ≠ 0)
    (hall : ∀ j, (t.slots j).valid → (t.slots j).id = (t.slots i).id → j = i) :
    capGet t (t.slots i).id = some i := by
  cases hget : capGet t (t.slots i).id with
  | none => exact absurd rfl (capGet_none hget hne hlt hi)
  | some j =>
    obtain ⟨-, hj, hid, -⟩ := capGet_some hget
    rw [hall j hj hid]

namespace Tidy

section

variable (h : Tidy log slots) (hi : (slots i).valid = true)
include h hi

theorem id_ne_zero : (slots i).id ≠ 0 :=
  (record_lt (h.logged i hi)).1

theorem derivedFrom (hne : (slots i).parent ≠ 0) :
    DerivedFrom log (slots i).id (slots i).parent := ⟨hne, _, h.logged i hi, rfl⟩

theorem parent_eq (hp : DerivedFrom log (slots i).id p) : (slots i).parent = p := by
  obtain ⟨-, e, he, rfl⟩ := hp
  obtain rfl := Option.some.inj ((h.logged i hi).symm.trans he)
  rfl

end

theorem shrink (h : Tidy log slots) (hslots : ∀ i, (slots' i).valid → (slots i).valid ∧
    SameIdentity (slots i) (slots' i)) : Tidy log slots' where
  bounded := fun i hi => h.bounded i (hslots i hi).1
  distinct := fun i j hi hj heq => h.distinct i j (hslots i hi).1 (hslots j hj).1 (by
    rw [← (hslots i hi).2.id, ← (hslots j hj).2.id, heq])
  logged := fun i hi => by
    rw [(hslots i hi).2.id, (hslots i hi).2.recordOf_eq]
    exact h.logged i (hslots i hi).1

theorem capGet_eq (h : Tidy log t.slots) (hi : (t.slots i).valid) :
    capGet t (t.slots i).id = some i :=
  capGet_unique (h.bounded i hi) hi (h.id_ne_zero hi) fun j hj hid => h.distinct j i hj hi hid

theorem capGet_eq_none (hnot : ¬ Valid t.slots x) : capGet t x = none := by
  cases hget : capGet t x with
  | none => rfl
  | some i =>
    obtain ⟨-, hi, hid, -⟩ := capGet_some hget
    exact absurd ⟨i, hi, hid⟩ hnot

end Tidy

theorem update_valid_ne (hc : c.valid = false) (hj : (update slots i c j).valid) : j ≠ i := by
  rintro rfl
  rw [update_self, hc] at hj
  cases hj

theorem update_refCount (r j : ℕ) : update slots i { slots i with refCount := r } j =
    { slots j with refCount := if j = i then r else (slots j).refCount } := by
  rw [update_apply]
  split_ifs with heq
  · rw [heq]
  · rfl

namespace Balanced

section

variable (h : Balanced held p slots)

include h

theorem settle (htidy : Tidy log slots) (hnot : ¬ Valid slots p) :
    Balanced held 0 slots := by
  refine ⟨fun i hi => ?_, h.pos⟩
  rw [h.count i hi, if_neg fun heq => hnot ⟨i, hi, heq⟩, if_neg (htidy.id_ne_zero hi)]

theorem invalidate (htidy : Tidy log slots) (hi : (slots i).valid)
    (hp : p = 0 ∨ p = (slots i).id) (hc : c.valid = false) :
    Balanced held (slots i).parent (update slots i c) := by
  have hpos : ∀ j, (update slots i c j).valid → (slots j).valid ∧ j ≠ i ∧
      update slots i c j = slots j := fun j hj => by
    have hne := update_valid_ne hc hj
    rw [update_of_ne hne] at hj ⊢
    exact ⟨hj, hne, rfl⟩
  refine ⟨fun j hj => ?_, fun j hj => ?_⟩
  · obtain ⟨hvalid, hne, heq⟩ := hpos j hj
    have hnot : (slots j).id ≠ p := by
      rcases hp with rfl | rfl
      · exact htidy.id_ne_zero hvalid
      · exact fun hid => hne (htidy.distinct j i hvalid hi hid)
    have hcount := h.count j hvalid
    rw [if_neg hnot] at hcount
    rw [heq, children_update hc, hcount]
    by_cases hparent : (slots j).id = (slots i).parent
    · have hmem : i ∈ children slots (slots j).id := mem_children.mpr ⟨htidy.bounded i hi, hi, hparent.symm⟩
      have := card_pos.mpr ⟨i, hmem⟩
      rw [if_pos hparent, card_erase_of_mem hmem]
      omega
    · rw [if_neg hparent, erase_eq_of_notMem fun hmem => hparent (mem_children.mp hmem).2.2.symm]
  · obtain ⟨hvalid, -, heq⟩ := hpos j hj
    rw [heq]
    exact h.pos j hvalid

theorem congr (hslots : ∀ i, (slots' i).valid = (slots i).valid ∧
    (slots' i).id = (slots i).id ∧ (slots' i).parent = (slots i).parent ∧
    (slots' i).refCount = (slots i).refCount) : Balanced held p slots' := by
  have hchildren := fun x => children_congr (x := x) fun j => ⟨(hslots j).1, (hslots j).2.2.1⟩
  refine ⟨fun i hi => ?_, fun i hi => ?_⟩
  all_goals
    obtain ⟨hvalid, hid, -, hcount⟩ := hslots i
    rw [hvalid] at hi
  · rw [hid, hcount, hchildren]
    exact h.count i hi
  · rw [hcount]
    exact h.pos i hi

theorem recount {q r : ℕ} (hi : (slots i).valid) (hr : 1 ≤ r)
    (hcount : r = held (slots i).id + (children slots (slots i).id).card + if (slots i).id = q then 1 else 0)
    (hothers : ∀ j, (slots j).valid → j ≠ i → ((slots j).id = p ↔ (slots j).id = q)) :
    Balanced held q (update slots i { slots i with refCount := r }) := by
  have hchildren : ∀ x, children (update slots i { slots i with refCount := r }) x = children slots x :=
    fun x => children_congr fun j => by rw [update_refCount]; exact ⟨rfl, rfl⟩
  refine ⟨fun j hj => ?_, fun j hj => ?_⟩
  all_goals
    rw [update_refCount] at hj ⊢
    by_cases heq : j = i
  · subst heq
    simp only [if_pos, hchildren]
    exact hcount
  · simp only [if_neg heq, hchildren, ← hothers j hj heq]
    exact h.count j hj
  · simp only [heq, if_pos, hr]
  · simp only [if_neg heq]
    exact h.pos j hj

theorem drop (htidy : Tidy log slots) (hi : (slots i).valid)
    (hid : (slots i).id = p) (hmore : 1 < (slots i).refCount) :
    Balanced held 0 (update slots i { slots i with refCount := (slots i).refCount - 1 }) := by
  have hcount := h.count i hi
  rw [if_pos hid] at hcount
  refine h.recount hi (by omega) ?_ fun j hj hne => ?_
  · rw [if_neg (htidy.id_ne_zero hi)]
    omega
  · refine iff_of_false (fun hbad => hne (htidy.distinct j i hj hi (hbad.trans hid.symm))) ?_
    exact htidy.id_ne_zero hj

end

theorem add (h : Balanced held 0 slots) (htidy : Tidy log slots) (hi : (slots i).valid) :
    Balanced held (slots i).id (update slots i { slots i with refCount := (slots i).refCount + 1 }) := by
  have hcount := h.count i hi
  rw [if_neg (htidy.id_ne_zero hi)] at hcount
  refine h.recount hi (by omega) (by rw [if_pos rfl]; omega) fun j hj hne => ?_
  exact iff_of_false (htidy.id_ne_zero hj) fun hbad => hne (htidy.distinct j i hj hi hbad)

theorem take (h : Balanced held p slots) (htidy : Tidy log slots) :
    Balanced (update held p (held p + 1)) 0 slots := by
  refine ⟨fun i hi => ?_, h.pos⟩
  rw [h.count i hi, if_neg (htidy.id_ne_zero hi), update_apply]
  split_ifs with heq
  · rw [heq]
    omega
  · rfl

theorem give (h : Balanced held 0 slots) (htidy : Tidy log slots) (hheld : 1 ≤ held p) :
    Balanced (update held p (held p - 1)) p slots := by
  refine ⟨fun i hi => ?_, h.pos⟩
  rw [h.count i hi, if_neg (htidy.id_ne_zero hi), update_apply]
  split_ifs with heq
  · rw [heq]
    omega
  · rfl

theorem insert (h : Balanced held c.parent slots) (htidy : Tidy log slots) (hlt : i < capTableSize)
    (hfree : (slots i).valid = false) (hc : c.valid) (hone : c.refCount = 1) (hid : c.id ≠ 0)
    (hparent : c.parent ≠ c.id) (hheld : held c.id = 0)
    (hnew : ∀ j, (slots j).valid → (slots j).id ≠ c.id ∧ (slots j).parent ≠ c.id) :
    Balanced (update held c.id (held c.id + 1)) 0 (update slots i c) := by
  have hnotmem : ∀ x, i ∉ children slots x := fun x hmem => by
    rw [mem_children, hfree] at hmem
    cases hmem.2.1
  have hchildren : ∀ x, (children (update slots i c) x).card =
      (children slots x).card + if x = c.parent then 1 else 0 := fun x => by
    have hset : children (update slots i c) x =
        if x = c.parent then Insert.insert i (children slots x) else children slots x := by
      ext j
      by_cases hji : j = i
      · subst hji
        by_cases hx : x = c.parent
        · simp [mem_children, hlt, hc, hx]
        · simp [mem_children, hx, Ne.symm hx, hfree]
      · by_cases hx : x = c.parent <;> simp [mem_children, hx, hji]
    rw [hset]
    split
    · rw [card_insert_of_notMem (hnotmem x)]
    · rw [Nat.add_zero]
  refine ⟨fun j hj => ?_, fun j hj => ?_⟩
  all_goals by_cases hji : j = i
  · subst hji
    have hnone : (children slots c.id).card = 0 := by
      rw [card_eq_zero, eq_empty_iff_forall_notMem]
      exact fun k hk => (hnew k (mem_children.mp hk).2.1).2 (mem_children.mp hk).2.2
    rw [update_self, update_self, hchildren, hone, hheld, hnone, if_neg hparent.symm,
      if_neg hid]
  · rw [update_of_ne hji] at hj ⊢
    rw [update_of_ne (hnew j hj).1, hchildren, h.count j hj, if_neg (htidy.id_ne_zero hj)]
    omega
  · subst hji
    rw [update_self, hone]
  · rw [update_of_ne hji] at hj ⊢
    exact h.pos j hj

end Balanced

theorem Rooted.invalidate {gone' : ℕ → Prop} (h : Rooted gone slots) (hc : c.valid = false)
    (hgone : ∀ x, gone x → gone' x)
    (hlast : gone' (slots i).id ∨ ∀ j, (slots j).valid → (slots j).parent ≠ (slots i).id) :
    Rooted gone' (update slots i c) := by
  intro j hj hne
  have hji := update_valid_ne hc hj
  rw [update_of_ne hji] at hj hne ⊢
  rcases h j hj hne with ⟨k, hk, hid⟩ | hbefore
  · by_cases hki : k = i
    · subst hki
      rcases hlast with hlast | hlast
      · exact .inr (hid ▸ hlast)
      · exact absurd hid.symm (hlast j hj)
    · exact .inl ⟨k, by rwa [update_of_ne hki], by rw [update_of_ne hki]; exact hid⟩
  · exact .inr (hgone _ hbefore)

theorem Rooted.congr (h : Rooted gone slots) (hslots : ∀ i, (slots' i).valid = (slots i).valid ∧
    (slots' i).id = (slots i).id ∧ (slots' i).parent = (slots i).parent) : Rooted gone slots' := by
  intro i hi hne
  obtain ⟨hvalid, -, hparent⟩ := hslots i
  rw [hvalid] at hi
  rw [hparent] at hne ⊢
  rcases h i hi hne with ⟨k, hk, hid⟩ | hgone
  · exact .inl ⟨k, (hslots k).1.trans hk, (hslots k).2.1.trans hid⟩
  · exact .inr hgone

theorem Rooted.recount (h : Rooted gone slots) (r : ℕ) :
    Rooted gone (update slots i { slots i with refCount := r }) :=
  h.congr fun j => by rw [update_refCount]; exact ⟨rfl, rfl, rfl⟩

structure Released (log : List Record) (held : ℕ → ℕ) (gone : ℕ → Prop) (p : ℕ)
    (slots slots' : ℕ → Capability) : Prop where
  balanced : Balanced held 0 slots'
  rooted : Rooted gone slots'
  trimmed : Trimmed log p slots slots'

theorem Trimmed.step {q : ℕ} (hi : (slots i).valid) (hid : (slots i).id = p)
    (hlast : (slots i).refCount = 1) (hc : c.valid = false) (hq : DerivedFrom log p q)
    (h : Trimmed log q (update slots i c) slots') : Trimmed log p slots slots' := by
  intro j
  by_cases hji : j = i
  · subst hji
    right
    refine ⟨hi, hid ▸ .refl, .inr ⟨?_, hlast⟩⟩
    rcases h j with heq | ⟨hbad, -⟩
    · rw [heq, update_self, hc]
    · rw [update_self, hc] at hbad
      cases hbad
  · have hj := h j
    rw [update_of_ne hji] at hj
    rcases hj with heq | ⟨hvalid, hchain, hslot⟩
    · exact .inl heq
    · exact .inr ⟨hvalid, .head hq hchain, hslot⟩

theorem Trimmed.update (hi : (slots i).valid) (hid : (slots i).id = p)
    (hc : c = { slots i with refCount := (slots i).refCount - 1 } ∨ c.valid = false ∧ (slots i).refCount = 1) :
    Trimmed log p slots (update slots i c) := by
  intro j
  by_cases hji : j = i
  · subst hji
    rw [update_self]
    exact .inr ⟨hi, hid ▸ .refl, hc⟩
  · exact .inl (update_of_ne hji _ _)

theorem Trimmed.valid (h : Trimmed log p slots slots') (hi : (slots' i).valid) :
    (slots i).valid ∧ (slots' i).id = (slots i).id := by
  rcases h i with heq | ⟨hold, -, heq | ⟨hbad, -⟩⟩
  · rw [heq] at hi ⊢
    exact ⟨hi, rfl⟩
  · rw [heq]
    exact ⟨hold, rfl⟩
  · rw [hbad] at hi
    cases hi

theorem releaseFrom_released (htidy : Tidy log t.slots) (hroot : Rooted gone t.slots)
    (hbal : Balanced held p t.slots) (hdepth : validCount t.slots < depth) :
    Released log held gone p t.slots (releaseFrom depth p t).slots := by
  induction depth generalizing p t with
  | zero => omega
  | succ depth ih =>
    simp only [releaseFrom]
    split
    · rename_i hget
      have hnot : ¬ Valid t.slots p := by
        rintro ⟨i, hi, rfl⟩
        rw [htidy.capGet_eq hi] at hget
        cases hget
      exact ⟨hbal.settle htidy hnot, hroot, fun _ => .inl rfl⟩
    · rename_i i hget
      obtain ⟨hlt, hi, hid, -⟩ := capGet_some hget
      split
      · rename_i hmore
        exact ⟨hbal.drop htidy hi hid hmore, hroot.recount _, .update hi hid (.inl rfl)⟩
      · rename_i hlast
        have hcount := hbal.count i hi
        have hpos := hbal.pos i hi
        rw [if_pos hid] at hcount
        -- the last reference is the one that is dropped: no client and no capability holds another
        have hchild : ∀ j, (t.slots j).valid → (t.slots j).parent ≠ (t.slots i).id := by
          intro j hj hparent
          have := card_pos.mpr ⟨j, mem_children.mpr ⟨htidy.bounded j hj, hj, hparent⟩⟩
          omega
        generalize hc : ({ t.slots i with refCount := 0, valid := false, object := 0 } : Capability) = c
        have hcv : c.valid = false := hc ▸ rfl
        have htidy' := htidy.shrink (Shrinks.invalidate hi hcv).slot
        have hroot' := hroot.invalidate hcv (fun _ h => h) (.inr hchild)
        have hbal' := hbal.invalidate htidy hi (.inr hid.symm) hcv
        have hdepth' := validCount_update hlt hi hcv
        rw [slots_countDown.1]
        split
        · rename_i hne
          have hrel := ih (t := setSlot i c t) htidy' hroot' hbal' (by simp only [setSlot]; omega)
          exact ⟨hrel.balanced, hrel.rooted,
            .step hi hid (by omega) hcv (hid ▸ htidy.derivedFrom hi hne) hrel.trimmed⟩
        · rename_i hzero
          rw [not_not.mp hzero] at hbal'
          exact ⟨hbal', hroot', .update hi hid (.inr ⟨hcv, by omega⟩)⟩

end

/-! ## The cascade of a revocation -/

section

def revoked (c : Capability) : Capability := { c with valid := false, object := 0 }

def Cut (S : ℕ → Prop) (slots slots' : ℕ → Capability) : Prop :=
  ∀ i, ((slots i).valid = true ∧ S (slots i).id → slots' i = revoked (slots i)) ∧
    (¬ ((slots i).valid = true ∧ S (slots i).id) → slots' i = slots i)

/-- The loop of a revocation over the capabilities derived from `c`. -/
def sweep (depth c : ℕ) (t : CapTable) : CapTable :=
  (List.range capTableSize).foldl (fun t j => if (t.slots j).valid && decide ((t.slots j).parent = c) then
    (revokeFrom depth (t.slots j).id t).2 else t) t

def Swept (log : List Record) (c : ℕ) (slots : ℕ → Capability) (k x : ℕ) : Prop :=
  ∃ i < k, (slots i).valid = true ∧ (slots i).parent = c ∧ OnChain log (slots i).id x

variable {log : List Record} {slots slots' slots'' : ℕ → Capability} {held : ℕ → ℕ} {gone S S' : ℕ → Prop}
variable {t : CapTable} {c i x depth : ℕ}

namespace Cut

theorem valid (h : Cut S slots slots') (hi : (slots' i).valid) :
    (slots i).valid ∧ ¬ S (slots i).id ∧ slots' i = slots i := by
  by_cases hcut : (slots i).valid ∧ S (slots i).id
  · rw [(h i).1 hcut] at hi
    cases hi
  · have heq := (h i).2 hcut
    rw [heq] at hi
    exact ⟨hi, fun hS => hcut ⟨hi, hS⟩, heq⟩

theorem none (hS : ∀ i, (slots i).valid → ¬ S (slots i).id) : Cut S slots slots :=
  fun i => ⟨fun hcut => absurd hcut.2 (hS i hcut.1), fun _ => rfl⟩

section

variable (h : Cut S slots slots')

include h

theorem congr (hS : ∀ i, (slots i).valid → (S (slots i).id ↔ S' (slots i).id)) :
    Cut S' slots slots' := by
  intro i
  have hiff : ((slots i).valid ∧ S' (slots i).id) ↔ ((slots i).valid ∧ S (slots i).id) :=
    and_congr_right fun hi => (hS i hi).symm
  rw [hiff]
  exact h i

theorem trans (h' : Cut S' slots' slots'') :
    Cut (fun x => S x ∨ S' x) slots slots'' := by
  intro i
  by_cases hcut : (slots i).valid ∧ S (slots i).id
  · have heq := (h i).1 hcut
    have hstay : slots'' i = slots' i := (h' i).2 (by rw [heq]; exact fun hbad => Bool.false_ne_true hbad.1)
    exact ⟨fun _ => hstay.trans heq, fun hnot => absurd ⟨hcut.1, .inl hcut.2⟩ hnot⟩
  · have heq := (h i).2 hcut
    have hnext := h' i
    rw [heq] at hnext
    refine ⟨fun ⟨hi, hS⟩ => hnext.1 ⟨hi, hS.resolve_left fun hbad => hcut ⟨hi, hbad⟩⟩, fun hnot => ?_⟩
    exact hnext.2 fun ⟨hi, hS⟩ => hnot ⟨hi, .inr hS⟩

theorem tidy (htidy : Tidy log slots) : Tidy log slots' := by
  refine htidy.shrink fun i hi => ?_
  obtain ⟨hvalid, -, heq⟩ := h.valid hi
  rw [heq]
  exact ⟨hvalid, .refl _⟩

theorem valid_iff : Valid slots' x ↔ Valid slots x ∧ ¬ S x := by
  constructor
  · rintro ⟨i, hi, rfl⟩
    obtain ⟨hvalid, hnot, heq⟩ := h.valid hi
    rw [heq]
    exact ⟨⟨i, hvalid, rfl⟩, hnot⟩
  · rintro ⟨⟨i, hi, rfl⟩, hnot⟩
    have heq := (h i).2 fun hbad => hnot hbad.2
    exact ⟨i, by rw [heq]; exact hi, by rw [heq]⟩

theorem validCount_le : validCount slots' ≤ validCount slots := by
  refine card_le_card fun i hi => ?_
  rw [mem_filter] at hi ⊢
  exact ⟨hi.1, (h.valid hi.2).1⟩

theorem rooted (hroot : Rooted gone slots)
    (hdown : ∀ i, (slots i).valid → S (slots i).parent → S (slots i).id) : Rooted gone slots' := by
  intro i hi hne
  obtain ⟨hvalid, hnot, heq⟩ := h.valid hi
  rw [heq] at hne ⊢
  exact (hroot i hvalid hne).imp_left fun hparent => h.valid_iff.mpr ⟨hparent, fun hS => hnot (hdown i hvalid hS)⟩

theorem balanced (hbal : Balanced held 0 slots)
    (hup : ∀ i j, (slots i).valid → (slots j).valid → S (slots i).id →
      (slots i).parent = (slots j).id → S (slots j).id) : Balanced held 0 slots' := by
  refine ⟨fun j hj => ?_, fun j hj => ?_⟩
  · obtain ⟨hvalid, hnot, heq⟩ := h.valid hj
    have hsame : children slots' (slots j).id = children slots (slots j).id := by
      ext i
      rw [mem_children, mem_children]
      refine and_congr_right fun _ => ⟨fun ⟨hi, hparent⟩ => ?_, fun ⟨hi, hparent⟩ => ?_⟩
      · obtain ⟨hold, -, hslot⟩ := h.valid hi
        exact ⟨hold, hslot ▸ hparent⟩
      · have hslot := (h i).2 fun hbad => hnot (hup i j hi hvalid hbad.2 hparent)
        rw [hslot]
        exact ⟨hi, hparent⟩
    rw [heq, hsame]
    exact hbal.count j hvalid
  · obtain ⟨hvalid, -, heq⟩ := h.valid hj
    rw [heq]
    exact hbal.pos j hvalid

end

end Cut

theorem capRelease_of_not_valid (hnot : ¬ Valid t.slots x) : capRelease x t = t := by
  simp only [capRelease, releaseFrom, Tidy.capGet_eq_none hnot]

theorem not_onChain_zero (hne : x ≠ 0) : ¬ OnChain log x 0 := by
  intro hchain
  rcases Relation.ReflTransGen.cases_head hchain with heq | ⟨p, ⟨-, e, he, -⟩, -⟩
  · exact hne heq.symm
  · exact (record_lt he).1 rfl

theorem OnChain.le (hlt : ∀ x p, DerivedFrom log x p → p < x) (h : OnChain log c x) : c ≤ x := by
  induction h with
  | refl => exact le_rfl
  | tail _ hp ih => exact (hlt _ _ hp).le.trans ih

theorem swept_succ {k : ℕ} : Swept log c slots (k + 1) x ↔ Swept log c slots k x ∨
    (slots k).valid ∧ (slots k).parent = c ∧ OnChain log (slots k).id x := by
  constructor
  · rintro ⟨i, hi, hrest⟩
    rcases Nat.lt_succ_iff_lt_or_eq.mp hi with hlt | rfl
    · exact .inl ⟨i, hlt, hrest⟩
    · exact .inr hrest
  · rintro (⟨i, hi, hrest⟩ | hrest)
    · exact ⟨i, hi.trans (Nat.lt_succ_self k), hrest⟩
    · exact ⟨k, Nat.lt_succ_self k, hrest⟩

theorem Cut.swept_skip {k : ℕ} (h : Cut (Swept log c slots k) slots slots')
    (hskip : ¬ ((slots' k).valid ∧ (slots' k).parent = c)) :
    Cut (Swept log c slots (k + 1)) slots slots' := by
  refine h.congr fun i _ => swept_succ.trans (or_iff_left_of_imp ?_) |>.symm
  rintro ⟨hk, hparent, hchain⟩
  by_cases hswept : Swept log c slots k (slots k).id
  · obtain ⟨j, hj, hjv, hjc, hrest⟩ := hswept
    exact ⟨j, hj, hjv, hjc, hchain.trans hrest⟩
  · have heq := (h k).2 fun hbad => hswept hbad.2
    rw [heq] at hskip
    exact absurd ⟨hk, hparent⟩ hskip

section

variable (h : Tidy log slots) (hi : (slots i).valid = true)
include h hi

theorem Tidy.onChain_parent (hchain : OnChain log c (slots i).id) (hne : (slots i).id ≠ c) :
    (slots i).parent ≠ 0 ∧ OnChain log c (slots i).parent := by
  rcases Relation.ReflTransGen.cases_head hchain with heq | ⟨p, hp, hrest⟩
  · exact absurd heq hne
  · rw [h.parent_eq hi hp]
    exact ⟨hp.1, hrest⟩

theorem Tidy.onChain_of_parent (hne : c ≠ 0)
    (hchain : OnChain log c (slots i).parent) : OnChain log c (slots i).id := by
  have hparent : (slots i).parent ≠ 0 := fun hzero => not_onChain_zero hne (hzero ▸ hchain)
  exact .head (h.derivedFrom hi hparent) hchain

theorem Tidy.cut_self : Cut (· = (slots i).id) slots (update slots i (revoked (slots i))) := by
  intro j
  by_cases hji : j = i
  · subst hji
    exact ⟨fun _ => update_self _ _ _, fun hnot => absurd ⟨hi, rfl⟩ hnot⟩
  · rw [update_of_ne hji]
    exact ⟨fun ⟨hj, hid⟩ => absurd (h.distinct j i hj hi hid) hji, fun _ => rfl⟩

end

theorem swept_of_onChain (htidy : Tidy log slots) (hroot : Rooted gone slots)
    (hgone : ∀ x, gone x → ¬ Valid slots x) (hc : gone c)
    (habove : ∀ x, gone x → x ≠ c → ¬ OnChain log c x) (hlt : ∀ x p, DerivedFrom log x p → p < x)
    (hi : (slots i).valid) (hchain : OnChain log c (slots i).id) :
    Swept log c slots capTableSize (slots i).id := by
  induction hx : (slots i).id using Nat.strong_induction_on generalizing i with
  | _ x ih =>
    subst hx
    have hne : (slots i).id ≠ c := fun heq => hgone c hc ⟨i, hi, heq⟩
    obtain ⟨hzero, hup⟩ := htidy.onChain_parent hi hchain hne
    by_cases hparent : (slots i).parent = c
    · exact ⟨i, htidy.bounded i hi, hi, hparent, .refl⟩
    · rcases hroot i hi hzero with ⟨j, hj, hid⟩ | hbad
      · have hstep := htidy.derivedFrom hi hzero
        obtain ⟨k, hk, hkv, hkc, hrest⟩ := ih _ (hid ▸ hlt _ _ hstep) hj (hid ▸ hup) rfl
        exact ⟨k, hk, hkv, hkc, .head hstep (hid ▸ hrest)⟩
      · exact absurd hup (habove _ hbad hparent)

theorem cascade_cut (depth : ℕ) (htidy : Tidy log t.slots) (hroot : Rooted gone t.slots)
    (hgone : ∀ x, gone x → ¬ Valid t.slots x) (hc : gone c) (hc0 : c ≠ 0)
    (habove : ∀ x, gone x → x ≠ c → ¬ OnChain log c x) (hlt : ∀ x p, DerivedFrom log x p → p < x)
    (hrevoke : ∀ (u : CapTable) (i : ℕ), Tidy log u.slots → Rooted gone u.slots →
      (∀ x, gone x → ¬ Valid u.slots x) → (u.slots i).valid → (u.slots i).parent = c →
      validCount u.slots ≤ validCount t.slots →
      Cut (OnChain log (u.slots i).id) u.slots (revokeFrom depth (u.slots i).id u).2.slots) :
    Cut (OnChain log c) t.slots (sweep depth c t).slots := by
  have hloop : Cut (Swept log c t.slots capTableSize) t.slots (sweep depth c t).slots :=
    foldl_range_invariant (fun k (u : CapTable) => Cut (Swept log c t.slots k) t.slots u.slots)
      (.none fun i _ ⟨_, hk, _⟩ => absurd hk (Nat.not_lt_zero _)) fun k _ u hcut => ?_
  · refine hloop.congr fun i hi => ⟨?_, swept_of_onChain htidy hroot hgone hc habove hlt hi⟩
    rintro ⟨j, -, hj, rfl, hchain⟩
    exact hchain.tail (htidy.derivedFrom hj hc0)
  · split_ifs with hchild
    · rw [Bool.and_eq_true, decide_eq_true_eq] at hchild
      obtain ⟨hold, -, heq⟩ := hcut.valid hchild.1
      have hroot' : Rooted gone u.slots := hcut.rooted hroot fun i hi ⟨j, hj, hjv, hjc, hchain⟩ =>
        ⟨j, hj, hjv, hjc, htidy.onChain_of_parent hi (htidy.id_ne_zero hjv) hchain⟩
      have hgone' : ∀ x, gone x → ¬ Valid u.slots x := fun x hx hv => hgone x hx (hcut.valid_iff.mp hv).1
      have hnext := hrevoke u k (hcut.tidy htidy) hroot' hgone' hchild.1 hchild.2 hcut.validCount_le
      refine (hcut.trans hnext).congr fun i _ => ?_
      rw [swept_succ, heq]
      rw [heq] at hchild
      simp only [hchild, true_and]
    · rw [Bool.and_eq_true, decide_eq_true_eq] at hchild
      exact hcut.swept_skip hchild

theorem revokeFrom_succ (depth : ℕ) (htidy : Tidy log t.slots) (hi : (t.slots i).valid) :
    ∃ t' : CapTable, t'.slots = update t.slots i (revoked (t.slots i)) ∧ (revokeFrom (depth + 1) (t.slots i).id t).2 =
      sweep depth (t.slots i).id (if (t.slots i).parent ≠ 0 then capRelease (t.slots i).parent t' else t') := by
  refine ⟨countDown (setSlot i (revoked (t.slots i)) t), slots_countDown.1, ?_⟩
  simp only [revokeFrom, htidy.capGet_eq hi]
  rfl

theorem revokeFrom_cut (htidy : Tidy log t.slots) (hroot : Rooted gone t.slots)
    (hgone : ∀ x, gone x → ¬ Valid t.slots x) (hlt : ∀ x p, DerivedFrom log x p → p < x)
    (hi : (t.slots i).valid) (horphan : ¬ Valid t.slots (t.slots i).parent)
    (habove : ∀ x, gone x → ¬ OnChain log (t.slots i).id x) (hdepth : validCount t.slots ≤ depth) :
    Cut (OnChain log (t.slots i).id) t.slots (revokeFrom depth (t.slots i).id t).2.slots := by
  induction depth generalizing t gone i with
  | zero =>
    have hmem := validCount_update (c := revoked (t.slots i)) (htidy.bounded i hi) hi rfl
    omega
  | succ depth ih =>
    obtain ⟨t', hslots, hsweep⟩ := revokeFrom_succ depth htidy hi
    have hself := htidy.cut_self hi
    rw [← hslots] at hself
    rw [hsweep, capRelease_of_not_valid fun hv => horphan (hself.valid_iff.mp hv).1, ite_self]
    have hcount : validCount t'.slots < validCount t.slots := by
      rw [hslots]
      exact validCount_update (htidy.bounded i hi) hi rfl
    have hgone' : ∀ x, gone x ∨ x = (t.slots i).id → ¬ Valid t'.slots x := by
      rintro x (hx | rfl) hv
      · exact hgone x hx (hself.valid_iff.mp hv).1
      · exact (hself.valid_iff.mp hv).2 rfl
    have hroot' : Rooted (fun x => gone x ∨ x = (t.slots i).id) t'.slots := by
      rw [hslots]
      exact hroot.invalidate rfl (fun _ => .inl) (.inl (.inr rfl))
    have hrest := cascade_cut depth (hself.tidy htidy) hroot' hgone' (.inr rfl)
      (htidy.id_ne_zero hi) (fun x hx hne => habove x (hx.resolve_right hne)) hlt ?_
    · refine (hself.trans hrest).congr fun j _ => or_iff_right_of_imp fun heq => ?_
      rw [heq]
      exact .refl
    · intro u j hu huroot hugone hj hparent hle
      have hzero := htidy.id_ne_zero hi
      have hlink := hu.derivedFrom hj (hparent ▸ hzero)
      rw [hparent] at hlink
      refine ih hu huroot hugone hj (hparent ▸ hugone _ (.inr rfl)) ?_ (by omega)
      rintro x (hx | rfl) hchain
      · exact habove x hx (hchain.tail hlink)
      · exact absurd (hchain.le hlt) (not_le.mpr (hlt _ _ hlink))

end

end AetherOs.Cap
