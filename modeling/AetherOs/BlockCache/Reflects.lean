import AetherOs.BlockCache.Cache

/-! # What the block cache stands for -/

namespace AetherOs.BlockCache

open Base Function Option Cache

abbrev Sectors := ℤ → ℕ → Block

def Sectors.store (stored : Sectors) (drive : ℤ) (lba : ℕ) (data : Block) : Sectors :=
  update stored drive (update (stored drive) lba data)

def Cache.Ready (c : Cache) (drive : ℤ) : Prop := 0 ≤ drive ∧ drive < driveCount ∧ c.present drive = true

def Cache.Holds (c : Cache) (i : ℕ) (drive : ℤ) (lba : ℕ) : Prop :=
  i < slotCount ∧ (c.slots i).matches drive lba = true

structure Reflects (c : Cache) (stored : Sectors) : Prop where
  unique : ∀ i j d l, c.Holds i d l → c.Holds j d l → i = j
  held : ∀ i d l, c.Holds i d l → (c.slots i).data = stored d l
  clean : ∀ i d l, c.Holds i d l → (c.slots i).dirty = false → (c.slots i).data = c.disk d l
  rest : ∀ d l, (∀ i, ¬ c.Holds i d l) → c.disk d l = stored d l
  home : ∀ i d l, c.Holds i d l → c.Ready d

variable {c c' : Cache} {stored stored' : Sectors} {s : Slot} {i j lba : ℕ} {drive : ℤ}

theorem matches_iff : s.matches drive lba ↔ s.valid ∧ s.drive = drive ∧ s.lba = lba := by
  rw [Slot.matches, Bool.and_eq_true, Bool.and_eq_true, decide_eq_true_eq, decide_eq_true_eq, and_assoc]

theorem matches_unique {d : ℤ} {l : ℕ} (h : s.matches drive lba) (h' : s.matches d l) :
    d = drive ∧ l = lba := by
  obtain ⟨-, hdrive, hlba⟩ := matches_iff.mp h
  obtain ⟨-, hdrive', hlba'⟩ := matches_iff.mp h'
  exact ⟨hdrive'.symm.trans hdrive, hlba'.symm.trans hlba⟩

theorem findSlot_some (h : findSlot drive lba c = some i) : c.Holds i drive lba := by
  obtain ⟨-, hlt, hmatch, -⟩ := search_some h
  exact ⟨by omega, hmatch⟩

theorem findSlot_none (h : findSlot drive lba c = none) (i : ℕ) : ¬ c.Holds i drive lba := by
  rintro ⟨hlt, hmatch⟩
  rw [search_none h (Nat.zero_le i) (by omega)] at hmatch
  cases hmatch

theorem holds_of_update {d : ℤ} {l : ℕ} (hslots : c'.slots = update c.slots i s)
    (hs : s.matches d l = (c.slots i).matches d l) : c'.Holds j d l ↔ c.Holds j d l := by
  rw [Cache.Holds, Cache.Holds, hslots, update_apply]
  split_ifs with hji
  · rw [hji, hs]
  · rfl

theorem holds_release {d : ℤ} {l : ℕ} (hj : (release i c).Holds j d l) : c.Holds j d l := by
  obtain ⟨hlt, hmatch⟩ := hj
  by_cases hji : j = i
  · rw [hji, release, slots_setSlot_self] at hmatch
    cases (matches_iff.mp hmatch).1
  · rw [release, slots_setSlot_of_ne hji] at hmatch
    exact ⟨hlt, hmatch⟩

theorem store_of_ne {d : ℤ} {l : ℕ} {data : Block} (hne : ¬ (d = drive ∧ l = lba)) :
    stored.store drive lba data d l = stored d l := by
  rw [Sectors.store]
  by_cases hd : d = drive
  · subst hd
    rw [update_self, update_of_ne fun hl => hne ⟨rfl, hl⟩]
  · rw [update_of_ne hd]

theorem store_self {data : Block} : stored.store drive lba data drive lba = data := by
  rw [Sectors.store, update_self, update_self]

structure Fills (c c' : Cache) (stored stored' : Sectors) (i : ℕ) (s : Slot) (drive : ℤ) (lba : ℕ) : Prop where
  slots : c'.slots = update c.slots i s
  holds : s.matches drive lba = true
  same : ∀ d l, ¬ (d = drive ∧ l = lba) → c'.disk d l = c.disk d l ∧ stored' d l = stored d l
  data : s.data = stored' drive lba
  clean : s.dirty = false → s.data = c'.disk drive lba
  present : c'.present = c.present

section

variable (h : Reflects c stored)
include h

theorem Reflects.findSlot_eq (hi : c.Holds i drive lba) : findSlot drive lba c = some i := by
  cases hfind : findSlot drive lba c with
  | none => exact absurd hi (findSlot_none hfind i)
  | some j => rw [h.unique j i drive lba (findSlot_some hfind) hi]

theorem Reflects.place (hi : i < slotCount) (hslots : c'.slots = update c.slots i s)
    (hother : ∀ d l, s.matches d l → ∀ j, c.Holds j d l → j = i)
    (hsame : ∀ d l, ¬ s.matches d l → c'.disk d l = c.disk d l ∧ stored' d l = stored d l)
    (hnew : ∀ d l, s.matches d l →
      s.data = stored' d l ∧ (s.dirty = false → s.data = c'.disk d l) ∧ c.Ready d)
    (hgone : ∀ d l, c.Holds i d l → ¬ s.matches d l → c.disk d l = stored d l)
    (hpresent : c'.present = c.present) : Reflects c' stored' := by
  have hat : c'.slots i = s := by rw [hslots, update_self]
  have hout {j : ℕ} (hj : j ≠ i) : c'.slots j = c.slots j := by rw [hslots, update_of_ne hj]
  -- A slot is the one that was replaced, or it holds what it held before.
  have hcases {j : ℕ} {d : ℤ} {l : ℕ} (hj : c'.Holds j d l) : (j = i ∧ s.matches d l) ∨
      (j ≠ i ∧ c.Holds j d l ∧ ¬ s.matches d l) := by
    obtain ⟨hlt, hmatch⟩ := hj
    by_cases hji : j = i
    · rw [hji, hat] at hmatch
      exact .inl ⟨hji, hmatch⟩
    · rw [hout hji] at hmatch
      exact .inr ⟨hji, ⟨hlt, hmatch⟩, fun hs => hji (hother d l hs j ⟨hlt, hmatch⟩)⟩
  refine ⟨fun j k d l hj hk => ?_, fun j d l hj => ?_, fun j d l hj hdirty => ?_, fun d l hnone => ?_, fun j d l hj => ?_⟩
  · rcases hcases hj with ⟨rfl, hs⟩ | ⟨-, hj', hs⟩ <;> rcases hcases hk with ⟨rfl, hs'⟩ | ⟨-, hk', hs'⟩
    · rfl
    · exact absurd hs hs'
    · exact absurd hs' hs
    · exact h.unique j k d l hj' hk'
  · rcases hcases hj with ⟨rfl, hs⟩ | ⟨hji, hj', hs⟩
    · rw [hat]
      exact (hnew d l hs).1
    · rw [hout hji, (hsame d l hs).2]
      exact h.held j d l hj'
  · rcases hcases hj with ⟨rfl, hs⟩ | ⟨hji, hj', hs⟩
    · rw [hat] at hdirty ⊢
      exact (hnew d l hs).2.1 hdirty
    · rw [hout hji] at hdirty ⊢
      rw [(hsame d l hs).1]
      exact h.clean j d l hj' hdirty
  · have hs : ¬ s.matches d l := fun hs => hnone i ⟨hi, by rw [hat]; exact hs⟩
    rw [(hsame d l hs).1, (hsame d l hs).2]
    by_cases hheld : c.Holds i d l
    · exact hgone d l hheld hs
    · refine h.rest d l fun j hj => ?_
      have hji : j ≠ i := fun heq => hheld (heq ▸ hj)
      exact hnone j ⟨hj.1, by rw [hout hji]; exact hj.2⟩
  · rw [Cache.Ready, hpresent]
    rcases hcases hj with ⟨-, hs⟩ | ⟨-, hj', -⟩
    · exact (hnew d l hs).2.2
    · exact h.home j d l hj'

theorem Reflects.fill (hi : i < slotCount)
    (hfree : ∀ d l, c.Holds i d l → d = drive ∧ l = lba) (hother : ∀ j, c.Holds j drive lba → j = i)
    (hf : Fills c c' stored stored' i s drive lba) (hready : c.Ready drive) : Reflects c' stored' := by
  refine h.place hi hf.slots (fun d l hd => ?_) (fun d l hd => hf.same d l ?_) (fun d l hd => ?_)
    (fun d l hheld hd => ?_) hf.present
  · obtain ⟨rfl, rfl⟩ := matches_unique hf.holds hd
    exact hother
  · rintro ⟨rfl, rfl⟩
    exact hd hf.holds
  · obtain ⟨rfl, rfl⟩ := matches_unique hf.holds hd
    exact ⟨hf.data, hf.clean, hready⟩
  · obtain ⟨rfl, rfl⟩ := hfree d l hheld
    exact absurd hf.holds hd

theorem Reflects.rewrite (hi : c.Holds i drive lba) (hf : Fills c c' stored stored' i s drive lba) :
    Reflects c' stored' :=
  h.fill hi.1 (fun _ _ hheld => matches_unique hi.2 hheld.2) (fun j hj => h.unique j i drive lba hj hi) hf
    (h.home i drive lba hi)

theorem release_spec (hi : i < slotCount) (hclean : (c.slots i).dirty = false) :
    Reflects (release i c) stored := by
  have hfree (d : ℤ) (l : ℕ) : ¬ Slot.matches d l { c.slots i with valid := false } :=
    fun hs => Bool.noConfusion (matches_iff.mp hs).1
  exact h.place hi rfl (fun d l hs => absurd hs (hfree d l)) (fun _ _ _ => ⟨rfl, rfl⟩)
    (fun d l hs => absurd hs (hfree d l)) (fun d l hheld _ => (h.clean i d l hheld hclean).symm.trans (h.held i d l hheld))
    rfl

theorem Reflects.written (hi : c.Holds i drive lba)
    (hslots : c'.slots = update c.slots i { c.slots i with dirty := false })
    (hdisk : c'.disk = (c.ataWrite drive lba (c.slots i).data).disk) (hpresent : c'.present = c.present) :
    Reflects c' stored := by
  have hstore : c'.disk = Sectors.store c.disk drive lba (c.slots i).data := hdisk
  refine h.rewrite hi ⟨hslots, hi.2, fun d l hne => ⟨?_, rfl⟩, h.held i drive lba hi, fun _ => ?_, hpresent⟩
  · rw [hstore, store_of_ne hne]
  · rw [hstore, store_self]

end

section Eviction

variable {slots : ℕ → Slot} {steps a oldest : ℕ} {best : Option ℕ}

theorem scanClean_cases {r : ℕ ⊕ Option ℕ} (h : scanClean slots steps a best oldest = r) : match r with
    | .inl i => i < a + steps ∧ (slots i).valid = false
    | .inr (some i) => best = some i ∨ (i < a + steps ∧ (slots i).dirty = false ∧ (slots i).lastUse < oldest)
    | .inr none => best = none ∧ ∀ i, a ≤ i → i < a + steps → (slots i).valid := by
  induction steps generalizing a best oldest with
  | zero =>
    subst h
    cases best with
    | none => exact ⟨rfl, fun i hle hlt => by omega⟩
    | some i => exact .inl rfl
  | succ steps ih =>
    rw [scanClean] at h
    split at h
    · rename_i hfree
      subst h
      exact ⟨by omega, hfree⟩
    · rename_i hvalid
      split at h
      · rename_i hbetter
        have hrest := ih h
        rcases r with i | _ | i
        · exact ⟨by omega, hrest.2⟩
        · exact absurd hrest.1 (some_ne_none a)
        · rcases hrest with heq | ⟨hlt, hclean, hold⟩
          · obtain rfl := some.inj heq
            exact .inr ⟨by omega, hbetter⟩
          · exact .inr ⟨by omega, hclean, hold.trans hbetter.2⟩
      · have hrest := ih h
        rcases r with i | _ | i
        · exact ⟨by omega, hrest.2⟩
        · refine ⟨hrest.1, fun i hle hlt => ?_⟩
          rcases Nat.eq_or_lt_of_le hle with rfl | hlater
          · exact Bool.not_eq_false _ ▸ hvalid
          · exact hrest.2 i hlater (by omega)
        · exact hrest.imp_right fun hfound => ⟨by omega, hfound.2⟩

theorem scanAll_cases {r : Option ℕ} (h : scanAll slots steps a best oldest = r) : match r with
    | some i => best = some i ∨ (i < a + steps ∧ (slots i).lastUse < oldest)
    | none => best = none ∧ ∀ i, a ≤ i → i < a + steps → oldest ≤ (slots i).lastUse := by
  induction steps generalizing a best oldest with
  | zero =>
    subst h
    cases best with
    | none => exact ⟨rfl, fun i hle hlt => by omega⟩
    | some i => exact .inl rfl
  | succ steps ih =>
    rw [scanAll] at h
    split_ifs at h with hbetter
    · have hrest := ih h
      rcases r with _ | i
      · exact absurd hrest.1 (some_ne_none a)
      · rcases hrest with heq | ⟨hlt, hold⟩
        · obtain rfl := some.inj heq
          exact .inr ⟨by omega, hbetter⟩
        · exact .inr ⟨by omega, hold.trans hbetter⟩
    · have hrest := ih h
      rcases r with _ | i
      · refine ⟨hrest.1, fun i hle hlt => ?_⟩
        rcases Nat.eq_or_lt_of_le hle with rfl | hlater
        · omega
        · exact hrest.2 i hlater (by omega)
      · exact hrest.imp_right fun hfound => ⟨by omega, hfound.2⟩

end Eviction

def Cache.Evictable (c : Cache) : Prop :=
  ∃ i < slotCount, (c.slots i).valid = false ∨ (c.slots i).lastUse < uintSize - 1

structure Evicted (c c' : Cache) (i : ℕ) : Prop where
  lt : i < slotCount
  free : (c'.slots i).valid = false
  holds : ∀ j d l, c'.Holds j d l → c.Holds j d l
  present : c'.present = c.present

theorem Evicted.fill {c'' : Cache} (hev : Evicted c c' i) (hc' : Reflects c' stored)
    (hnone : ∀ j, ¬ c.Holds j drive lba) (hready : c.Ready drive)
    (hf : Fills c' c'' stored stored' i s drive lba) : Reflects c'' stored' := by
  have hempty (d : ℤ) (l : ℕ) : ¬ c'.Holds i d l := fun hi =>
    Bool.noConfusion (hev.free.symm.trans (matches_iff.mp hi.2).1)
  exact hc'.fill hev.lt (fun d l hi => absurd hi (hempty d l))
    (fun j hj => absurd (hev.holds j drive lba hj) (hnone j)) hf
    ⟨hready.1, hready.2.1, by rw [hev.present]; exact hready.2.2⟩

def Cache.Serves (c : Cache) (drive : ℤ) (lba : ℕ) : Prop := (∃ i, c.Holds i drive lba) ∨ c.Evictable

theorem Cache.Ready.checks (hready : c.Ready drive) :
    ¬ (drive < 0 ∨ driveCount ≤ drive) ∧ ∀ c' : Cache, c'.present = c.present → ¬ c'.present drive = false := by
  refine ⟨?_, fun c' hpresent habsent => ?_⟩
  · obtain ⟨hlow, hhigh, -⟩ := hready
    omega
  · rw [hpresent, hready.2.2] at habsent
    cases habsent

theorem not_serves (hnone : ∀ i, ¬ c.Holds i drive lba) (hfull : ¬ c.Evictable) : ¬ c.Serves drive lba := by
  rintro (⟨i, hi⟩ | hsome)
  · exact hnone i hi
  · exact hfull hsome

structure Flushed (drive : ℤ) (n : ℕ) (c c' : Cache) : Prop where
  holds : ∀ j d l, c'.Holds j d l ↔ c.Holds j d l
  clean : ∀ j, (c.slots j).dirty = false → (c'.slots j).dirty = false
  done : ∀ j < n, ∀ l, c'.Holds j drive l → (c'.slots j).dirty = false
  present : c'.present = c.present

section

variable (h : Reflects c stored)
include h

theorem writeBack_spec (hi : i < slotCount) (hvalid : (c.slots i).valid) :
    Reflects (writeBack i c) stored ∧ ((writeBack i c).slots i).dirty = false ∧
      (writeBack i c).present = c.present ∧
      ∀ j d l, (writeBack i c).Holds j d l ↔ c.Holds j d l := by
  have hheld : c.Holds i (c.slots i).drive (c.slots i).lba := ⟨hi, matches_iff.mpr ⟨hvalid, rfl, rfl⟩⟩
  obtain ⟨-, hlt, hpresent⟩ := h.home i _ _ hheld
  by_cases hdirty : (c.slots i).dirty
  · have heq : writeBack i c = ((c.ataWrite (c.slots i).drive (c.slots i).lba
        (c.slots i).data).countWrite.setSlot i { c.slots i with dirty := false }) := by
      rw [writeBack, if_pos hdirty, if_pos ⟨hlt, hpresent⟩]
    rw [heq]
    exact ⟨h.written hheld rfl rfl rfl, by rw [slots_setSlot_self], rfl, fun _ _ _ => holds_of_update rfl rfl⟩
  · rw [writeBack, if_neg hdirty]
    exact ⟨h, Bool.eq_false_iff.mpr hdirty, rfl, fun _ _ _ => .rfl⟩

theorem evictSlot_spec :
    (evictSlot c = none ∧ ¬ c.Evictable) ∨
      (c.Evictable ∧ ∃ i c', evictSlot c = some (i, c') ∧ Reflects c' stored ∧ Evicted c c' i) := by
  have hrelease (c : Cache) (i : ℕ) : ((release i c).slots i).valid = false := by
    rw [release, slots_setSlot_self]
  rw [evictSlot]
  rcases hscan : scanClean c.slots slotCount 0 none (uintSize - 1) with i | _ | i
  · obtain ⟨hlt, hfree⟩ := scanClean_cases hscan
    exact .inr ⟨⟨i, by omega, .inl hfree⟩, i, c, rfl, h, by omega, hfree, fun _ _ _ => id, rfl⟩
  · have hvalid := (scanClean_cases hscan).2
    rcases hall : scanAll c.slots slotCount 0 none (uintSize - 1) with _ | i
    · refine .inl ⟨rfl, ?_⟩
      rintro ⟨i, hi, hfree | hused⟩
      · exact Bool.noConfusion (hfree.symm.trans (hvalid i (Nat.zero_le i) (by omega)))
      · exact absurd hused (Nat.not_lt.mpr ((scanAll_cases hall).2 i (Nat.zero_le i) (by omega)))
    · obtain ⟨hlt, hold⟩ := (scanAll_cases hall).resolve_left (some_ne_none i).symm
      have hi : i < slotCount := by omega
      obtain ⟨hkept, hclean, hpresent, hholds⟩ := writeBack_spec h hi (hvalid i (Nat.zero_le i) hlt)
      exact .inr ⟨⟨i, hi, .inr hold⟩, i, _, rfl, release_spec hkept hi hclean, hi, hrelease _ _,
        fun j d l hj => (hholds j d l).mp (holds_release hj), hpresent⟩
  · obtain ⟨hlt, hclean, hold⟩ := (scanClean_cases hscan).resolve_left (some_ne_none i).symm
    have hi : i < slotCount := by omega
    exact .inr ⟨⟨i, hi, .inr hold⟩, i, _, rfl, release_spec h hi hclean, hi, hrelease _ _,
      fun j d l hj => holds_release hj, rfl⟩

theorem bcacheGet_spec (hready : c.Ready drive) :
    (bcacheGet drive lba c = none ∧ ¬ c.Serves drive lba) ∨
      (c.Serves drive lba ∧ ∃ i c', bcacheGet drive lba c = some (some i, c') ∧ c'.Holds i drive lba ∧
        Reflects c' stored ∧ c'.present = c.present) := by
  obtain ⟨hrange, hthere⟩ := hready.checks
  rw [bcacheGet, if_neg hrange]
  cases hfind : findSlot drive lba c with
  | some i =>
    have hi := findSlot_some hfind
    refine .inr ⟨.inl ⟨i, hi⟩, i, _, rfl, ⟨hi.1, ?_⟩, ?_, rfl⟩
    · rw [slots_setSlot_self]
      exact hi.2
    · exact h.rewrite hi ⟨rfl, hi.2, fun _ _ _ => ⟨rfl, rfl⟩, h.held i drive lba hi, h.clean i drive lba hi, rfl⟩
  | none =>
    have hnone := findSlot_none hfind
    have hmiss : Reflects { c with misses := (c.misses + 1) % uintSize } stored :=
      ⟨h.unique, h.held, h.clean, h.rest, h.home⟩
    obtain ⟨hevict, hfull⟩ | ⟨hevictable, i, c', hevict, hc', hev⟩ := evictSlot_spec hmiss
    · exact .inl ⟨by rw [hevict], not_serves hnone hfull⟩
    · have hmatch : (Slot.mk lba drive (c'.disk drive lba) true false c'.tick.lruClock).matches drive lba :=
        matches_iff.mpr ⟨rfl, rfl, rfl⟩
      rw [hevict]
      refine .inr ⟨.inr hevictable, i, _, if_neg (hthere c' hev.present), ⟨hev.lt, ?_⟩, ?_, hev.present⟩
      · rw [slots_setSlot_self]
        exact hmatch
      · refine hev.fill hc' hnone hready ⟨rfl, hmatch, fun _ _ _ => ⟨rfl, rfl⟩, ?_, fun _ => rfl, rfl⟩
        exact hc'.rest drive lba fun j hj => hnone j (hev.holds j drive lba hj)

theorem bcacheDirty_spec (hi : c.Holds i drive lba) (data : Block) :
    Reflects (bcacheDirty drive lba (c.setSlot i { c.slots i with data := data })) (stored.store drive lba data) := by
  have hother (j : ℕ) : (c.setSlot i { c.slots i with data := data }).Holds j drive lba ↔ c.Holds j drive lba :=
    holds_of_update rfl rfl
  have hfind : findSlot drive lba (c.setSlot i { c.slots i with data := data }) = some i := by
    cases hsearch : findSlot drive lba (c.setSlot i { c.slots i with data := data }) with
    | none => exact absurd ((hother i).mpr hi) (findSlot_none hsearch i)
    | some j => rw [h.unique j i drive lba ((hother j).mp (findSlot_some hsearch)) hi]
  have hmarked : bcacheDirty drive lba (c.setSlot i { c.slots i with data := data }) =
      c.setSlot i { c.slots i with data := data, dirty := true } := by
    rw [bcacheDirty, hfind]
    dsimp only
    rw [slots_setSlot_self, setSlot_setSlot]
  rw [hmarked]
  exact h.rewrite hi ⟨rfl, hi.2, fun d l hne => ⟨rfl, store_of_ne hne⟩, store_self.symm,
    fun hbad => Bool.noConfusion hbad, rfl⟩

theorem bcacheWriteThrough_spec (hready : c.Ready drive) (data : Block) :
    (bcacheWriteThrough drive lba data c = none ∧ ¬ c.Serves drive lba) ∨
      (c.Serves drive lba ∧ ∃ c', bcacheWriteThrough drive lba data c = some (0, c') ∧
        Reflects c' (stored.store drive lba data) ∧ c'.present = c.present) := by
  obtain ⟨hrange, hthere⟩ := hready.checks
  rw [bcacheWriteThrough, if_neg hrange, slotFor]
  cases hfind : findSlot drive lba c with
  | some i =>
    have hi := findSlot_some hfind
    refine .inr ⟨.inl ⟨i, hi⟩, _, if_neg (hthere _ rfl), ?_, rfl⟩
    exact h.rewrite hi ⟨rfl, hi.2, fun d l hne => ⟨store_of_ne hne, store_of_ne hne⟩, store_self.symm,
      fun _ => store_self.symm, rfl⟩
  | none =>
    have hnone := findSlot_none hfind
    dsimp only
    obtain ⟨hevict, hfull⟩ | ⟨hevictable, i, c', hevict, hc', hev⟩ := evictSlot_spec h
    · exact .inl ⟨by rw [hevict], not_serves hnone hfull⟩
    · rw [hevict]
      refine .inr ⟨.inr hevictable, _, if_neg (hthere _ hev.present), ?_, hev.present⟩
      refine hev.fill (s := ⟨lba, drive, data, true, false, c'.tick.lruClock⟩) hc' hnone hready
        ⟨?_, matches_iff.mpr ⟨rfl, rfl, rfl⟩, fun d l hne => ⟨store_of_ne hne, store_of_ne hne⟩, store_self.symm,
          fun _ => store_self.symm, rfl⟩
      rw [← update_idem { c'.slots i with valid := true, drive := drive, lba := lba }]
      simp only [countWrite, ataWrite, setSlot, tick, update_self]

theorem flushSlot_spec (hi : i < slotCount) : Reflects (flushSlot drive c i) stored ∧
    (∀ j d l, (flushSlot drive c i).Holds j d l ↔ c.Holds j d l) ∧
    (∀ j, (c.slots j).dirty = false → ((flushSlot drive c i).slots j).dirty = false) ∧
    (∀ l, (flushSlot drive c i).Holds i drive l → ((flushSlot drive c i).slots i).dirty = false) ∧
    (flushSlot drive c i).present = c.present := by
  rw [flushSlot]
  split_ifs with hskip
  · refine ⟨h, fun _ _ _ => .rfl, fun _ => id, fun l hl => ?_, rfl⟩
    obtain ⟨hvalid, hdrive, -⟩ := matches_iff.mp hl.2
    rcases hskip with hbad | hclean | hbad
    · rw [hvalid] at hbad
      cases hbad
    · exact hclean
    · exact absurd hdrive hbad
  · obtain ⟨hvalid, hdirty, hdrive⟩ : (c.slots i).valid ∧ (c.slots i).dirty ∧ (c.slots i).drive = drive := by
      simpa using hskip
    have hheld : c.Holds i drive (c.slots i).lba := ⟨hi, matches_iff.mpr ⟨hvalid, hdrive, rfl⟩⟩
    refine ⟨h.written hheld rfl rfl rfl, fun _ _ _ => holds_of_update rfl rfl, fun j hclean => ?_, fun l _ => ?_, rfl⟩
    · change (update c.slots i _ j).dirty = false
      rw [update_apply]
      split_ifs
      · rfl
      · exact hclean
    · change ((setSlot i _ _).slots i).dirty = false
      rw [slots_setSlot_self]

theorem flushRange_spec {n : ℕ} (hn : n ≤ slotCount) :
    Reflects ((List.range n).foldl (flushSlot drive) c) stored ∧
      Flushed drive n c ((List.range n).foldl (flushSlot drive) c) := by
  induction n with
  | zero => exact ⟨h, fun _ _ _ => .rfl, fun _ => id, fun j hj => absurd hj (Nat.not_lt_zero j), rfl⟩
  | succ n ih =>
    obtain ⟨hmid, hflushed⟩ := ih (by omega)
    rw [List.range_succ, List.foldl_append, List.foldl_cons, List.foldl_nil]
    obtain ⟨hnext, hholds, hclean, hdone, hpresent⟩ := flushSlot_spec hmid (show n < slotCount by omega)
    refine ⟨hnext, fun j d l => (hholds j d l).trans (hflushed.holds j d l),
      fun j hj => hclean j (hflushed.clean j hj), fun j hj l hheld => ?_, hpresent.trans hflushed.present⟩
    rcases Nat.eq_or_lt_of_le (Nat.le_of_lt_succ hj) with rfl | hlt
    · exact hdone l hheld
    · exact hclean j (hflushed.done j hlt l ((hholds j drive l).mp hheld))

theorem bcacheFlush_spec (drive : ℤ) :
    Reflects (bcacheFlush drive c).2 stored ∧ Flushed drive slotCount c (bcacheFlush drive c).2 := by
  -- No slot holds a sector of a drive that is not there.
  have hskip : ¬ c.Ready drive → Flushed drive slotCount c c := fun hout =>
    ⟨fun _ _ _ => .rfl, fun _ => id, fun j _ l hj => absurd (h.home j drive l hj) hout, rfl⟩
  rw [bcacheFlush]
  split
  · rename_i hrange
    refine ⟨h, hskip fun hready => ?_⟩
    obtain ⟨hlow, hhigh, -⟩ := hready
    omega
  · split
    · rename_i habsent
      refine ⟨h, hskip fun hready => ?_⟩
      rw [hready.2.2] at habsent
      cases habsent
    · dsimp only
      exact flushRange_spec h (Nat.le_refl slotCount)

theorem bcacheFlushAll_spec :
    Reflects (bcacheFlushAll c).2 stored ∧ (bcacheFlushAll c).2.disk = stored ∧ (bcacheFlushAll c).2.present = c.present := by
  obtain ⟨h₀, hf₀⟩ := bcacheFlush_spec h 0
  obtain ⟨h₁, hf₁⟩ := bcacheFlush_spec h₀ 1
  obtain ⟨h₂, hf₂⟩ := bcacheFlush_spec h₁ 2
  obtain ⟨h₃, hf₃⟩ : Reflects (bcacheFlushAll c).2 stored ∧ Flushed 3 slotCount _ (bcacheFlushAll c).2 :=
    bcacheFlush_spec h₂ 3
  have hclean : ∀ j d l, (bcacheFlushAll c).2.Holds j d l → ((bcacheFlushAll c).2.slots j).dirty = false := by
    intro j d l hj
    obtain ⟨hlow, hhigh, -⟩ := h₃.home j d l hj
    have hj₂ := (hf₃.holds j d l).mp hj
    have hj₁ := (hf₂.holds j d l).mp hj₂
    have hj₀ := (hf₁.holds j d l).mp hj₁
    simp only [driveCount] at hhigh
    obtain rfl | rfl | rfl | rfl : d = 0 ∨ d = 1 ∨ d = 2 ∨ d = 3 := by omega
    · exact hf₃.clean j (hf₂.clean j (hf₁.clean j (hf₀.done j hj.1 l hj₀)))
    · exact hf₃.clean j (hf₂.clean j (hf₁.done j hj.1 l hj₁))
    · exact hf₃.clean j (hf₂.done j hj.1 l hj₂)
    · exact hf₃.done j hj.1 l hj
  refine ⟨h₃, funext fun d => funext fun l => ?_,
    hf₃.present.trans (hf₂.present.trans (hf₁.present.trans hf₀.present))⟩
  by_cases hheld : ∃ j, (bcacheFlushAll c).2.Holds j d l
  · obtain ⟨j, hj⟩ := hheld
    exact (h₃.clean j d l hj (hclean j d l hj)).symm.trans (h₃.held j d l hj)
  · exact h₃.rest d l fun j hj => hheld ⟨j, hj⟩

end

end AetherOs.BlockCache
