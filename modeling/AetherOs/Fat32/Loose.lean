import AetherOs.Fat32.Tree

/-! # Steps between well-formed volumes -/

namespace AetherOs.Fat32

open Base List Option

namespace Volume

variable {v v' : Volume} {ex o : Option (ℕ × ℕ)} {loose loose' l pre : List ℕ} {c d i x new : ℕ}
  {e e' de : ℕ → UInt8}

structure Reshapes (v v' : Volume) (loose loose' : List ℕ) : Prop where
  shape : SameShape v v'
  hint : 2 ≤ v'.hint ∧ v'.hint ≤ v'.clusters + 2
  fat : ∀ x, x ∉ loose → x ∉ loose' → v'.fat x = v.fat x
  data : ∀ x, x ∉ loose → x ∉ loose' → v'.data x = v.data x
  fresh : ∀ x ∈ loose', x ∈ loose ∨ v.Free x
  used : ∀ x ∈ loose', v'.InRange x ∧ v'.fat x ≠ 0
  freed : ∀ x ∈ loose, x ∉ loose' → v'.fat x = 0

theorem Tidy.congr (h : Tidy v d) (hcount : v'.count d = v.count d) (hentry : ∀ i < v.count d, v'.entry d i 0 = v.entry d i 0) :
    Tidy v' d := by
  refine ⟨by rw [hcount]; exact h.small, fun i j hij hj hend => ?_⟩
  rw [hcount] at hj
  rw [hentry i (by omega)] at hend
  rw [hentry j hj]
  exact h.ended i j hij hj hend

section

variable (h : Owned v ex loose) (hr : Reshapes v v' loose loose')
include h hr

theorem Owned.not_loose (ho : Owns v ex o c) (hx : x ∈ v.chain c) : x ∉ loose ∧ x ∉ loose' := by
  have hout : x ∉ loose := fun hbad => (h.apart x hbad).2.2 o c ho hx
  refine ⟨hout, fun hbad => ?_⟩
  rcases hr.fresh x hbad with hin | hfree
  · exact hout hin
  · exact (h.chains o c ho).not_mem_of_free hfree hx

theorem Owned.reshape_dir (hd : Dir v ex d) :
    v'.chain d = v.chain d ∧ v'.count d = v.count d ∧ ∀ i < v.count d, v'.entry d i = v.entry d i := by
  obtain ⟨o, ho⟩ := h.dir_owns hd
  have hchain : v'.chain d = v.chain d := (h.chain_same hr.shape ho fun x hx =>
    hr.fat x (h.not_loose hr ho hx).1 (h.not_loose hr ho hx).2).2
  refine ⟨hchain, by rw [count, count, hchain, perCluster, perCluster, hr.shape.clusterSize], fun i hi => ?_⟩
  rw [entry, entry, hchain]
  exact slot_congr hr.shape (fun x hx => hr.data x (h.not_loose hr ho hx).1 (h.not_loose hr ho hx).2) h.aligned hi

theorem Owned.reshape : Owned v' ex loose' := by
  refine h.of_same hr.shape hr.hint (fun o c ho x hx => hr.fat x (h.not_loose hr ho hx).1 (h.not_loose hr ho hx).2)
    (fun d hd i hi _ => ?_) (fun x hx => ?_) (fun x hx hused => ?_) (fun d hd => ?_)
  · obtain ⟨hchain, -, hentry⟩ := h.reshape_dir hr hd
    rw [← hchain]
    exact hentry i hi
  · exact ⟨(hr.used x hx).1, (hr.used x hx).2, fun o c ho hbad => (h.not_loose hr ho hbad).2 hx⟩
  · by_cases hin' : x ∈ loose'
    · exact .inl hin'
    · by_cases hin : x ∈ loose
      · exact absurd (hr.freed x hin hin') hused
      · rw [hr.fat x hin hin'] at hused
        exact .inr ((h.covered x (hr.shape.inRange.mp hx) hused).resolve_left hin)
  · obtain ⟨-, hcount, hentry⟩ := h.reshape_dir hr hd
    exact (h.tidy d hd).congr hcount fun i hi => by rw [hentry i hi]

theorem Owned.reshape_agree : Agree v v' ex := by
  refine h.agree_of_same hr.shape (fun o c ho x hx => hr.fat x (h.not_loose hr ho hx).1 (h.not_loose hr ho hx).2)
    fun d hd i hi _ => ?_
  obtain ⟨hchain, -, hentry⟩ := h.reshape_dir hr hd
  rw [← hchain]
  exact hentry i hi

end

theorem Extends.reshapes (h : Extends v v' l loose') (hl : FileChain v' c loose') (hhint : 2 ≤ v.hint) :
    Reshapes v v' l loose' where
  shape := h.shape
  hint := ⟨h.low hhint, h.hint⟩
  fat := fun x _ => h.fat x
  data := fun x _ => h.data x
  fresh := fun x hx => by
    obtain ⟨added, rfl, hfree⟩ := h.added
    exact (mem_append.mp hx).imp_right (hfree x)
  used := fun x hx => ⟨hl.range x hx, hl.fat_ne_zero hx⟩
  freed := fun x hx hout => absurd (h.subset hx) hout

theorem Owned.reshapes_freeAll (h : Owned v ex loose) : Reshapes v (v.freeAll loose) loose [] where
  shape := ⟨rfl, rfl, rfl⟩
  hint := h.hint
  fat := fun _ hx _ => if_neg hx
  data := fun _ _ _ => rfl
  fresh := fun _ hx => absurd hx not_mem_nil
  used := fun _ hx => absurd hx not_mem_nil
  freed := fun _ hx _ => if_pos hx

theorem Owned.slot_setSlot (h : Owned v (some (d, i)) loose) (hd : Dir v (some (d, i)) d) (hi : i < v.count d)
    {d' j : ℕ} (hd' : Dir v (some (d, i)) d') (hj : j < v.count d') :
    slot (v.setSlot (v.chain d) i de) (v.chain d') j =
      if (d', j) = (d, i) then fun k => if k < direntSize then de k else 0 else v.entry d' j := by
  by_cases hsame : d' = d
  · subst hsame
    rw [Volume.slot_setSlot h.aligned (h.dir_chain hd).nodup hi hj]
    by_cases hji : j = i
    · rw [if_pos hji, if_pos (by rw [hji])]
    · rw [if_neg hji, if_neg fun hbad => hji (Prod.mk.inj hbad).2]
      rfl
  · obtain ⟨o, ho⟩ := h.dir_owns hd
    obtain ⟨o', ho'⟩ := h.dir_owns hd'
    rw [if_neg fun hbad => hsame (Prod.mk.inj hbad).1]
    refine slot_congr (.setSlot _ _ _) (fun x hx => data_setSlot fun heq => ?_) h.aligned hj
    exact h.disjoint_of_ne ho' ho hsame hx (heq ▸ slotCluster_mem hi)

theorem Owned.setSlot (h : Owned v (some (d, i)) loose) (hd : Dir v (some (d, i)) d) (hi : i < v.count d)
    (hde : de 0 ≠ 0) (hbefore : ∀ j < i, v.entry d j 0 ≠ 0) :
    Owned (v.setSlot (v.chain d) i de) (some (d, i)) loose ∧ Agree v (v.setSlot (v.chain d) i de) (some (d, i)) := by
  set w := v.setSlot (v.chain d) i de
  have hslot : ∀ d', Dir v (some (d, i)) d' → ∀ j < v.count d', some (d', j) ≠ some (d, i) →
      slot w (v.chain d') j = v.entry d' j := by
    intro d' hd' j hj hne
    rw [h.slot_setSlot hd hi hd' hj, if_neg fun hbad => hne (congrArg some hbad)]
  refine ⟨h.of_same (.setSlot _ _ _) h.hint (fun _ _ _ _ _ => rfl) hslot h.apart h.covered fun d' hd' => ?_,
    h.agree_of_same (.setSlot _ _ _) (fun _ _ _ _ _ => rfl) hslot⟩
  obtain ⟨o', ho'⟩ := h.dir_owns hd'
  have hchain : w.chain d' = v.chain d' :=
    (h.chain_same (.setSlot _ _ _) ho' fun _ _ => rfl).2
  have hcount : w.count d' = v.count d' := by
    rw [count, count, hchain]
    rfl
  have hentry : ∀ j < v.count d', w.entry d' j =
      if (d', j) = (d, i) then fun k => if k < direntSize then de k else 0 else v.entry d' j := fun j hj => by
    rw [entry, hchain]
    exact h.slot_setSlot hd hi hd' hj
  have htidy := h.tidy d' hd'
  refine ⟨by rw [hcount]; exact htidy.small, fun a b hab hb hend => ?_⟩
  rw [hcount] at hb
  rw [hentry a (by omega)] at hend
  rw [hentry b hb]
  by_cases ha : (d', a) = (d, i)
  · rw [if_pos ha] at hend
    exact absurd ((if_pos (by decide)).symm.trans hend) hde
  · rw [if_neg ha] at hend
    by_cases hb' : (d', b) = (d, i)
    · obtain ⟨rfl, rfl⟩ := Prod.mk.inj hb'
      have hlt : a < b := Nat.lt_of_le_of_ne hab fun heq => ha (by rw [heq])
      exact absurd hend (hbefore a hlt)
    · rw [if_neg hb']
      exact htidy.ended a b hab hb hend

section

variable (h : Owned v ex loose) (hd : Dir v ex d) (hall : Allocates x new v v') (hlast : v.chain d = pre ++ [x])
  (hfew : v.clusters + 2 ≤ fatEocMin)

include h hd hall hlast hfew

theorem Owned.chain_allocates (ho : Owns v ex o c) :
    v'.chain c = (if c = d then v.chain d ++ [new] else v.chain c) ∧ FileChain v' c (v'.chain c) := by
  have hD := h.dir_chain hd
  have hxd : x ∈ v.chain d := by
    rw [hlast]
    simp
  by_cases hcd : c = d
  · subst hcd
    rw [if_pos rfl]
    rw [hlast] at hD
    have hgrown := hall.append hfew hD
    rw [hlast, hgrown.chain_eq]
    exact ⟨rfl, hgrown⟩
  · rw [if_neg hcd]
    obtain ⟨o', ho'⟩ := h.dir_owns hd
    have hc := h.chains o c ho
    obtain ⟨-, -, hsame⟩ := hall.fat_eq (.inr (hD.fat_ne_zero hxd))
    have hkept : FileChain v' c (v.chain c) := by
      refine hc.congr hall.shape fun y hy => hsame y (fun heq => ?_) (.inr fun heq => ?_)
      · exact hc.not_mem_of_free hall.free (heq ▸ hy)
      · exact h.disjoint_of_ne ho ho' hcd hy (heq ▸ hxd)
    rw [hkept.chain_eq]
    exact ⟨rfl, hkept⟩

theorem Owned.entry_allocates (ho : Owns v ex o c) :
    v'.count c = (if c = d then v.count d + v.perCluster else v.count c) ∧
      (∀ j < v.count c, v'.entry c j = v.entry c j) ∧
      ((∀ j, v'.data new j = 0) → ∀ j, v.count c ≤ j → j < v'.count c → ∀ k, v'.entry c j k = 0) := by
  have hper := hall.shape.perCluster
  obtain ⟨hchain, -⟩ := h.chain_allocates hd hall hlast hfew ho
  have hnot : new ∉ v.chain c := (h.chains o c ho).not_mem_of_free hall.free
  have hdata : ∀ y ∈ v.chain c, v'.data y = v.data y := fun y hy =>
    hall.data y fun heq => hnot (heq ▸ hy)
  by_cases hcd : c = d
  · subst hcd
    rw [if_pos rfl] at hchain ⊢
    have hcount : v'.count c = v.count c + v.perCluster := by
      rw [count, count, hchain, hper, length_append, length_singleton, Nat.add_mul, Nat.one_mul]
    refine ⟨hcount, fun j hj => ?_, fun hzero j hge hlt k => ?_⟩
    · rw [entry, entry, hchain]
      funext k
      rw [slot, slot]
      split_ifs with hk
      · refine byteAt_append hall.shape.clusterSize hdata ?_
        have hle : (j + 1) * direntSize ≤ (v.chain c).length * v.perCluster * direntSize := Nat.mul_le_mul_right _ hj
        rw [Nat.mul_assoc, h.aligned.mul, Nat.add_mul, Nat.one_mul] at hle
        omega
      · rfl
    · rw [entry, hchain]
      by_cases hk : k < direntSize
      · have hdiv : j / v.perCluster = (v.chain c).length := by
          refine Nat.div_eq_of_lt_le ?_ ?_
          · exact hge
          · rw [Nat.add_mul, Nat.one_mul]
            exact Nat.lt_of_lt_of_eq hlt hcount
        rw [slot_eq_direntAt (h.aligned.congr hall.shape) hk, slotCluster, hper, hdiv,
          getD_append_right _ _ _ _ (Nat.le_refl _), Nat.sub_self]
        exact hzero _
      · exact if_neg hk
  · rw [if_neg hcd] at hchain ⊢
    have hcount : v'.count c = v.count c := by rw [count, count, hchain, hper]
    refine ⟨hcount, fun j hj => ?_, fun _ j hge hlt k => by omega⟩
    rw [entry, entry, hchain]
    exact slot_congr hall.shape hdata h.aligned hj

theorem Owned.grow (hzero : ∀ j, v'.data new j = 0) (hsmall : v.count d + v.perCluster ≤ 2 ^ 31): Owned v' ex loose ∧ Agree v v' ex := by
  have hnew := hall.free.1
  have hxd : x ∈ v.chain d := by
    rw [hlast]
    simp
  obtain ⟨hnewfat, -, hsame⟩ := hall.fat_eq (.inr ((h.dir_chain hd).fat_ne_zero hxd))
  obtain ⟨od, hod⟩ := h.dir_owns hd
  have hchain {o c} (ho : Owns v ex o c) := h.chain_allocates hd hall hlast hfew ho
  have hmem : ∀ o c, Owns v ex o c → ∀ y ∈ v'.chain c, y ∈ v.chain c ∨ (y = new ∧ c = d) := by
    intro o c ho y hy
    rw [(hchain ho).1] at hy
    split_ifs at hy with hcd
    · subst hcd
      exact (mem_append.mp hy).imp_right fun hin => ⟨mem_singleton.mp hin, rfl⟩
    · exact .inl hy
  have hfresh : ∀ o c, Owns v ex o c → new ∉ v.chain c := fun o c ho => (h.chains o c ho).not_mem_of_free hall.free
  have hag : Agree v v' ex := by
    refine ⟨hall.shape, fun a ha i _ => ?_⟩
    obtain ⟨o, ho⟩ := h.dir_owns ha
    obtain ⟨hcount, hold, hnewslots⟩ := h.entry_allocates hd hall hlast hfew ho
    have hle : v.count a ≤ v'.count a := by
      rw [hcount]
      split_ifs with heq
      · rw [heq]
        exact Nat.le_add_right _ _
      · exact Nat.le_refl _
    rw [live, live]
    by_cases hi : i < v.count a
    · have hi' : i < v'.count a := by omega
      simp only [hi, hi', true_and, hold i hi]
    · rw [if_neg fun hbad : i < v.count a ∧ _ => hi hbad.1]
      refine if_neg fun hbad => ?_
      have hdead := hnewslots hzero i (by omega) hbad.1 0
      rw [direntLive, hdead] at hbad
      exact absurd hbad.2 (by simp)
  refine ⟨h.of_agree hag ?_ (fun o c ho => (hchain ho).2)
    (fun o o' c c' ho ho' hne => ?_) (fun y hy => ?_) (fun y hy hused => ?_) (fun a ha => ?_), hag⟩
  · rw [InRange] at hnew
    rw [hall.hint, hall.shape.clusters]
    omega
  · intro y hy hy'
    rcases hmem o c ho y hy with hy | ⟨rfl, rfl⟩
    · rcases hmem o' c' ho' y hy' with hy' | ⟨rfl, rfl⟩
      · exact h.disjoint o o' c c' ho ho' hne hy hy'
      · exact hfresh o c ho hy
    · rcases hmem o' c' ho' y hy' with hy' | ⟨-, rfl⟩
      · exact hfresh o' c' ho' hy'
      · exact hne (h.owner_eq ho ho')
  · obtain ⟨hrange, hused, hout⟩ := h.apart y hy
    have hyn : y ≠ new := fun heq => hused (heq ▸ hall.free.2)
    have hyx : y ≠ x := fun heq => hout od d hod (heq ▸ hxd)
    refine ⟨hall.shape.inRange.mpr hrange, by rw [hsame y hyn (.inr hyx)]; exact hused, fun o c ho hbad => ?_⟩
    exact (hmem o c ho y hbad).elim (hout o c ho) fun hbad => hyn hbad.1
  · by_cases hyn : y = new
    · refine .inr ⟨od, d, hod, ?_⟩
      rw [(hchain hod).1, if_pos rfl, hyn]
      simp
    · have hold : v.fat y ≠ 0 := by
        by_cases hyx : y = x
        · rw [hyx]
          exact (h.dir_chain hd).fat_ne_zero hxd
        · rw [← hsame y hyn (.inr hyx)]
          exact hused
      refine (h.covered y (hall.shape.inRange.mp hy) hold).imp_right ?_
      rintro ⟨o, c, ho, hin⟩
      refine ⟨o, c, ho, ?_⟩
      rw [(hchain ho).1]
      split_ifs with hcd
      · rw [← hcd]
        exact mem_append_left _ hin
      · exact hin
  · obtain ⟨o, ho⟩ := h.dir_owns ha
    obtain ⟨hcount, hold, hnewslots⟩ := h.entry_allocates hd hall hlast hfew ho
    have htidy := h.tidy a ha
    refine ⟨?_, fun i j hij hj hend => ?_⟩
    · rw [hcount]
      split
      · exact hsmall
      · exact htidy.small
    · by_cases hj' : j < v.count a
      · rw [hold j hj']
        rw [hold i (by omega)] at hend
        exact htidy.ended i j hij hj' hend
      · exact hnewslots hzero j (by omega) hj 0

end

theorem owned_hide (hdead : v.live d i = none) (hproper : d = v.root ∨ 2 ≤ i) :
    Owned v (some (d, i)) loose ↔ Owned v none loose := by
  have hheld : Holds v (some (d, i)) = Holds v none := by
    funext d' i' e'
    refine propext ⟨fun h => ⟨some_ne_none _, h.proper, h.live⟩, fun h => ⟨fun heq => ?_, h.proper, h.live⟩⟩
    obtain ⟨rfl, rfl⟩ := Prod.mk.inj (some.inj heq)
    exact absurd (h.live.symm.trans hdead) (some_ne_none e')
  have hsub : Sub v (some (d, i)) = Sub v none := by
    funext a b
    rw [Sub, Sub, hheld]
  have hdir : Dir v (some (d, i)) = Dir v none := by
    funext a
    rw [Dir, Dir, hsub]
  have howns : ∀ o c, Owns v (some (d, i)) o c ↔ Owns v none o c := by
    intro o c
    constructor
    · rintro (_ | ⟨hd, hh, hc⟩)
      · exact .root
      · exact .entry (hdir ▸ hd) (hheld ▸ hh) hc
    · rintro (_ | ⟨hd, hh, hc⟩)
      · exact .root
      · exact .entry (hdir ▸ hd) (hheld ▸ hh) hc
  constructor
  · intro h
    obtain ⟨haligned, hhint, hroot, -, hchains, hdisjoint, hapart, hcovered, hsubdirs, hdots, htidy⟩ := h
    simp only [howns, hheld, hsub, hdir] at hchains hdisjoint hapart hcovered hsubdirs hdots htidy
    exact ⟨haligned, hhint, hroot, fun _ _ hbad => absurd hbad.symm (some_ne_none _), hchains, hdisjoint, hapart,
      hcovered, hsubdirs, hdots, htidy⟩
  · intro h
    obtain ⟨haligned, hhint, hroot, -, hchains, hdisjoint, hapart, hcovered, hsubdirs, hdots, htidy⟩ := h
    simp only [← howns, ← hheld, ← hsub, ← hdir] at hchains hdisjoint hapart hcovered hsubdirs hdots htidy
    refine ⟨haligned, hhint, hroot, fun a b heq => ?_, hchains, hdisjoint, hapart, hcovered, hsubdirs, hdots, htidy⟩
    obtain ⟨rfl, rfl⟩ := Prod.mk.inj (some.inj heq)
    exact hproper

theorem dir_hide (hdead : v.live d i = none) : Dir v (some (d, i)) x ↔ Dir v none x := by
  refine reach_congr fun a b _ => ⟨?_, ?_⟩
  · rintro ⟨i', e', hheld, hrest⟩
    exact ⟨i', e', ⟨some_ne_none _, hheld.proper, hheld.live⟩, hrest⟩
  · rintro ⟨i', e', hheld, hrest⟩
    refine ⟨i', e', ⟨fun heq => ?_, hheld.proper, hheld.live⟩, hrest⟩
    obtain ⟨rfl, rfl⟩ := Prod.mk.inj (some.inj heq)
    exact absurd (hheld.live.symm.trans hdead) (some_ne_none e')

def Vacant (v : Volume) (s : ℕ) : Prop := ∀ j e, ¬ Holds v none s j e

theorem holds_none (hlive : v.live d i = some e) {d' i' : ℕ} (h : Holds v none d' i' e') :
    Holds v (some (d, i)) d' i' e' ∨ (d' = d ∧ i' = i ∧ e' = e) := by
  by_cases heq : (d', i') = (d, i)
  · obtain ⟨rfl, rfl⟩ := Prod.mk.inj heq
    exact .inr ⟨rfl, rfl, some.inj (h.live.symm.trans hlive)⟩
  · exact .inl ⟨fun hbad => heq (some.inj hbad), h.proper, h.live⟩

theorem Holds.unhide (h : Holds v ex d i e) : Holds v none d i e := ⟨some_ne_none _, h.proper, h.live⟩

theorem dir_unhide (h : Dir v ex x) : Dir v none x :=
  reach_mono (fun _ _ _ ⟨j, e, hheld, hrest⟩ => ⟨j, e, hheld.unhide, hrest⟩) h

theorem Owns.unhide (h : Owns v ex o c) : Owns v none o c := by
  cases h with
  | root => exact .root
  | entry hd hheld hc => exact .entry (dir_unhide hd) hheld.unhide hc

theorem dir_none (hlive : v.live d i = some e) (hempty : direntIsDir e → Vacant v (direntCluster e))
    (h : Dir v none x) : Dir v (some (d, i)) x ∨ (direntIsDir e ∧ x = direntCluster e) := by
  have hsub : ∀ a b, Sub v none a b → Sub v (some (d, i)) a b ∨ (direntIsDir e ∧ b = direntCluster e) := by
    rintro a b ⟨j, e', hheld, hdir, rfl⟩
    rcases holds_none hlive hheld with hheld' | ⟨-, -, rfl⟩
    · exact .inl ⟨j, e', hheld', hdir, rfl⟩
    · exact .inr ⟨hdir, rfl⟩
  by_cases hdir : direntIsDir e
  · refine (reach_or_leaf (fun a b _ hab => (hsub a b hab).imp_right And.right) ?_ h).imp_right fun heq => ⟨hdir, heq⟩
    rintro b ⟨j, e', hheld, -⟩
    exact hempty hdir j e' hheld
  · refine .inl (reach_mono (fun a b _ hab => ?_) h)
    exact (hsub a b hab).resolve_right fun hbad => hdir hbad.1

theorem owns_none (hlive : v.live d i = some e) (hempty : direntIsDir e → Vacant v (direntCluster e))
    (h : Owns v none o c) : Owns v (some (d, i)) o c ∨ (o = some (d, i) ∧ c = direntCluster e ∧ 2 ≤ c) := by
  cases h with
  | root => exact .inl .root
  | entry hd hheld hc =>
    rcases dir_none hlive hempty hd with hd' | ⟨hdir, rfl⟩
    · rcases holds_none hlive hheld with hheld' | ⟨rfl, rfl, rfl⟩
      · exact .inl (.entry hd' hheld' hc)
      · exact .inr ⟨rfl, rfl, hc⟩
    · exact absurd hheld (hempty hdir _ _)

theorem WellFormed.detach (h : WellFormed v) (hd : Dir v none d) (hheld : Holds v none d i e)
    (hempty : direntIsDir e → Vacant v (direntCluster e)) :
    Owned v (some (d, i)) (v.chain (direntCluster e)) ∧ Dir v (some (d, i)) d := by
  have hother : ∀ o c, Owns v (some (d, i)) o c → o ≠ some (d, i) := by
    rintro o c (_ | ⟨-, hheld', -⟩)
    · exact (some_ne_none _).symm
    · exact hheld'.seen
  have hself : 2 ≤ direntCluster e → Owns v none (some (d, i)) (direntCluster e) := .entry hd hheld
  have htwo : ∀ x ∈ v.chain (direntCluster e), 2 ≤ direntCluster e := by
    intro x hx
    by_contra hlt
    rw [chain_of_lt (Nat.not_le.mp hlt)] at hx
    exact absurd hx not_mem_nil
  refine ⟨⟨h.aligned, h.hint, h.rooted, fun a b heq => ?_, fun o c ho => h.chains o c ho.unhide,
    fun o o' c c' ho ho' => h.disjoint o o' c c' ho.unhide ho'.unhide, fun x hx => ?_, fun x hx hused => ?_,
    fun a j e' ha hheld' => h.subdirs a j e' (dir_unhide ha) hheld'.unhide, fun a b ha hab => ?_,
    fun a ha => h.tidy a (dir_unhide ha)⟩, ?_⟩
  · obtain ⟨rfl, rfl⟩ := Prod.mk.inj (some.inj heq)
    exact hheld.proper
  · have hown := hself (htwo x hx)
    have hchain := h.chains _ _ hown
    exact ⟨hchain.range x hx, hchain.fat_ne_zero hx, fun o c ho hbad =>
      h.disjoint o _ c _ ho.unhide hown (hother o c ho) hbad hx⟩
  · rcases h.covered x hx hused with hbad | ⟨o, c, ho, hmem⟩
    · exact absurd hbad not_mem_nil
    · rcases owns_none hheld.live hempty ho with ho' | ⟨-, rfl, -⟩
      · exact .inr ⟨o, c, ho', hmem⟩
      · exact .inl hmem
  · obtain ⟨j, e', hheld', hrest⟩ := hab
    exact h.dots a b (dir_unhide ha) ⟨j, e', hheld'.unhide, hrest⟩
  · refine (dir_none hheld.live hempty hd).resolve_right ?_
    rintro ⟨hdir, heq⟩
    exact hempty hdir i e (heq ▸ hheld)

theorem Owned.attach (h : Owned v (some (d, i)) loose) (hd : Dir v (some (d, i)) d) (hlive : v.live d i = some e)
    (hown : OwnChain v (direntCluster e) loose)
    (hdir : direntIsDir e → 2 ≤ direntCluster e ∧ Vacant v (direntCluster e) ∧ Dots v (direntCluster e) d ∧
      Tidy v (direntCluster e)) : WellFormed v := by
  have hempty : direntIsDir e → Vacant v (direntCluster e) := fun hdir' => (hdir hdir').2.1
  have hheld : Holds v none d i e := ⟨some_ne_none _, h.spare d i rfl, hlive⟩
  have hchain : 2 ≤ direntCluster e → FileChain v (direntCluster e) loose := fun htwo =>
    hown.elim (fun hbad => by omega) And.right
  have hdirs : ∀ a, Dir v none a → (∃ j e', Holds v none a j e') → Dir v (some (d, i)) a := by
    rintro a ha ⟨j, e', hheld'⟩
    refine (dir_none hlive hempty ha).resolve_right ?_
    rintro ⟨hdir', rfl⟩
    exact hempty hdir' j e' hheld'
  refine ⟨h.aligned, h.hint, h.rooted, fun a b heq => absurd heq.symm (some_ne_none _), fun o c ho => ?_,
    fun o o' c c' ho ho' hne => ?_, fun x hx => absurd hx not_mem_nil, fun x hx hused => .inr ?_,
    fun a j e' ha hheld' hdir' => ?_, fun a b ha hab => ?_, fun a ha => ?_⟩
  · rcases owns_none hlive hempty ho with ho' | ⟨-, rfl, htwo⟩
    · exact h.chains o c ho'
    · rw [(hchain htwo).chain_eq]
      exact hchain htwo
  · rcases owns_none hlive hempty ho with ho | ⟨rfl, rfl, htwo⟩
    · rcases owns_none hlive hempty ho' with ho' | ⟨-, rfl, htwo⟩
      · exact h.disjoint o o' c c' ho ho' hne
      · rw [(hchain htwo).chain_eq]
        exact fun x hx hx' => (h.apart x hx').2.2 o c ho hx
    · rcases owns_none hlive hempty ho' with ho' | ⟨rfl, -, -⟩
      · rw [(hchain htwo).chain_eq]
        exact fun x hx hx' => (h.apart x hx).2.2 o' c' ho' hx'
      · exact absurd rfl hne
  · rcases h.covered x hx hused with hmem | ⟨o, c, ho, hmem⟩
    · rcases hown with ⟨-, rfl⟩ | ⟨htwo, hl⟩
      · exact absurd hmem not_mem_nil
      · refine ⟨_, _, .entry (dir_unhide hd) hheld htwo, ?_⟩
        rw [hl.chain_eq]
        exact hmem
    · exact ⟨o, c, ho.unhide, hmem⟩
  · rcases holds_none hlive hheld' with hheld'' | ⟨rfl, rfl, rfl⟩
    · exact h.subdirs a j e' (hdirs a ha ⟨j, e', hheld'⟩) hheld'' hdir'
    · exact (hdir hdir').1
  · obtain ⟨j, e', hheld', hdir', rfl⟩ := hab
    have ha' := hdirs a ha ⟨j, e', hheld'⟩
    rcases holds_none hlive hheld' with hheld'' | ⟨rfl, rfl, rfl⟩
    · exact h.dots a _ ha' ⟨j, e', hheld'', hdir', rfl⟩
    · exact (hdir hdir').2.2.1
  · rcases dir_none hlive hempty ha with ha' | ⟨hdir', rfl⟩
    · exact h.tidy a ha'
    · exact (hdir hdir').2.2.2

end Volume

end AetherOs.Fat32
