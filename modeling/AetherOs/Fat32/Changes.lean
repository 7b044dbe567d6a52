import AetherOs.Fat32.Loose

/-! # Operations on well-formed volumes -/

namespace AetherOs.Fat32

open Base Fs Volume Function List Option

section Dirents

variable {name de : ℕ → UInt8} {attr cluster size k : ℕ}

theorem direntCluster_eq (hc : cluster < uintSize) (hhigh : leNat de 2 20 = (cluster >>> 16) % 256 ^ 2)
    (hlow : leNat de 2 26 = (cluster &&& 0xFFFF) % 256 ^ 2) : direntCluster de = cluster := by
  have hand : cluster &&& 0xFFFF = cluster % 2 ^ 16 := Nat.and_two_pow_sub_one_eq_mod cluster 16
  have hshift : cluster >>> 16 = cluster / 2 ^ 16 := Nat.shiftRight_eq_div_pow cluster 16
  have hlt : cluster % 2 ^ 16 % 256 ^ 2 < 2 ^ 16 := Nat.mod_lt _ (by decide)
  rw [direntCluster, hhigh, hlow, hand, hshift, ← Nat.shiftLeft_add_eq_or_of_lt hlt, Nat.shiftLeft_eq]
  simp only [uintSize] at hc
  omega

theorem newDirent_zero : newDirent name attr cluster 0 = name 0 := rfl

theorem direntAttr_newDirent (hattr : attr < 256) : direntAttr (newDirent name attr cluster) = attr := by
  have hbyte : newDirent name attr cluster 11 = UInt8.ofNat attr := rfl
  rw [direntAttr, hbyte]
  exact UInt8.toNat_ofNat_of_lt hattr

theorem direntCluster_newDirent (hc : cluster < uintSize) : direntCluster (newDirent name attr cluster) = cluster := by
  have hrest : ∀ off, 12 ≤ off → leNat (newDirent name attr cluster) 2 off =
      leNat (putLE 2 20 (cluster >>> 16) (putLE 2 26 (cluster &&& 0xFFFF) fun _ => 0)) 2 off := fun off hoff =>
    leNat_congr fun j hj _ => by rw [newDirent, if_neg (by omega), if_neg (by omega)]
  refine direntCluster_eq hc ?_ ?_
  · rw [hrest 20 (by decide), leNat_putLE]
  · rw [hrest 26 (by decide), leNat_putLE_disjoint (by decide), leNat_putLE]

theorem newDirent_outside (hk : direntSize ≤ k) : newDirent name attr cluster k = 0 := by
  simp only [direntSize] at hk
  rw [newDirent, if_neg (by omega), if_neg (by omega), putLE, splice_outside (by omega), putLE,
    splice_outside (by omega)]

theorem direntCluster_updateDirent (hc : cluster < uintSize) : direntCluster (updateDirent size cluster de) = cluster := by
  refine direntCluster_eq hc ?_ ?_
  · rw [updateDirent, leNat_putLE_disjoint (by decide), leNat_putLE]
  · rw [updateDirent, leNat_putLE]

theorem updateDirent_outside (hk : k < 20) : updateDirent size cluster de k = de k := by
  rw [updateDirent, putLE, splice_outside (by omega), putLE, splice_outside (by omega), putLE, splice_outside (by omega)]

theorem direntLive_congr {de' : ℕ → UInt8} (hzero : de 0 = de' 0) (hattr : de 11 = de' 11) :
    direntLive de = direntLive de' ∧ direntIsDir de = direntIsDir de' := by
  rw [direntLive, direntLive, direntIsDir, direntIsDir, direntAttr, direntAttr, hzero, hattr]
  exact ⟨rfl, rfl⟩

theorem direntLive_of_slotFree (h : slotFree de) : direntLive de = false := by
  rw [slotFree, isFreeMark, Bool.or_eq_true, decide_eq_true_eq, decide_eq_true_eq] at h
  rcases h with h | h
  · simp [direntLive, h]
  · simp [direntLive, h]

theorem direntLive_of_visible (hend : de 0 ≠ 0) (h : direntVisible de) : direntLive de := by
  simp only [direntVisible, Bool.and_eq_true, decide_eq_true_eq, ne_eq] at h
  obtain ⟨⟨hmark, -⟩, hattr⟩ := h
  have hlabel : direntAttr de &&& attrVolumeId = 0 := by
    have hboth : direntAttr de &&& (attrSystem ||| attrVolumeId) &&& attrVolumeId = direntAttr de &&& attrVolumeId := by
      rw [Nat.and_assoc]
      rfl
    rw [← hboth, hattr, Nat.zero_and]
  simp [direntLive, hend, hmark, hlabel]

end Dirents

namespace Volume

variable {v : Volume} {loose : List ℕ} {d i : ℕ}

def cut (de : ℕ → UInt8) : ℕ → UInt8 := fun k => if k < direntSize then de k else 0

theorem cut_newDirent (name : ℕ → UInt8) (attr cluster : ℕ) : cut (newDirent name attr cluster) = newDirent name attr cluster := by
  funext k
  rw [cut]
  split
  · rfl
  · exact (newDirent_outside (by omega)).symm

def Room (v : Volume) (d : ℕ) : Prop :=
  (∃ i < v.count d, slotFree (v.entry d i) = true) ∨ (∀ x, ¬ v.Free x) ∨
    (∃ x, v.Free x ∧ v.hint ≤ x) ∧ v.count d + v.perCluster ≤ 2 ^ 31

structure FreshSlot (v v' : Volume) (loose : List ℕ) (d i : ℕ) : Prop where
  owned : Owned v' none loose
  agree : Agree v v' none
  lt : i < v'.count d
  dead : v'.live d i = none
  proper : d = v'.root ∨ 2 ≤ i
  before : ∀ j < i, v'.entry d j 0 ≠ 0
  kept : ∀ x ∈ loose, v'.fat x = v.fat x ∧ v'.data x = v.data x

theorem Owned.proper_of_dead (h : Owned v none loose) (hd : Dir v none d) (hdead : v.live d i = none) :
    d = v.root ∨ 2 ≤ i := by
  by_contra hbad
  obtain ⟨hne, hlt⟩ : d ≠ v.root ∧ i < 2 := by omega
  cases hd with
  | refl => exact hne rfl
  | tail hp hsub =>
    have hdots := h.dots _ _ hp hsub
    obtain ⟨e₀, hself, -⟩ := hdots.self
    obtain ⟨e₁, hparent, -⟩ := hdots.parent
    obtain rfl | rfl : i = 0 ∨ i = 1 := by omega
    · exact some_ne_none _ (hself.symm.trans hdead)
    · exact some_ne_none _ (hparent.symm.trans hdead)

theorem Owned.exists_last (h : Owned v none loose) (hd : Dir v none d) : ∃ pre x, v.chain d = pre ++ [x] := by
  obtain ⟨rest, hrest⟩ := (h.dir_chain hd).exists_cons (h.dir_two hd)
  rcases eq_nil_or_concat' (v.chain d) with hnil | hcons
  · rw [hrest] at hnil
    cases hnil
  · exact hcons

theorem live_of_slotFree (h : slotFree (v.entry d i)) : v.live d i = none := by
  rw [live, if_neg]
  rintro ⟨-, hbad⟩
  rw [direntLive_of_slotFree h] at hbad
  cases hbad

theorem entry_ne_zero_of_used (h : slotFree (v.entry d i) = false) : v.entry d i 0 ≠ 0 := by
  intro hzero
  rw [slotFree, isFreeMark, hzero] at h
  cases h

end Volume

variable {fs : Fat32Fs} {v v' : Volume} {loose : List ℕ} {d i new fuel : ℕ} {e de : ℕ → UInt8} {name : Name}
  {parent : Fat32Node}

theorem toIndex_eq (hi : i < 2 ^ 31) : toIndex i = (i : ℤ) := by
  rw [toIndex, Nat.mod_eq_of_lt (by simp only [uintSize]; omega), if_pos hi]

theorem Volume.Owned.length_lt_fuel (h : Owned v none loose) (hd : Dir v none d) (hfuel : 2 ^ 31 < fuel) :
    (v.chain d).length < fuel := by
  have hsmall := (h.tidy d hd).small
  have hle : (v.chain d).length ≤ v.count d := Nat.le_mul_of_pos_right _ h.aligned.pos
  omega

namespace Volume

def freeSlot (v : Volume) (d : ℕ) : ℕ := (search slotFree (v.entry d) (v.count d) 0).getD (v.count d)

def makeRoom (v : Volume) (d : ℕ) : Volume :=
  if (search slotFree (v.entry d) (v.count d) 0).isSome then v else (v.alloc ((v.chain d).getLastD 0)).2

structure Placed (v w : Volume) (loose : List ℕ) (d i : ℕ) : Prop where
  shape : SameShape v w
  chain : FileChain w d (w.chain d)
  lt : i < w.count d
  count_le : w.count d ≤ i + v.perCluster ∨ w = v
  before : ∀ j < i, w.entry d j 0 ≠ 0
  kept : ∀ x ∈ loose, x ∉ w.chain d ∧ w.fat x = v.fat x ∧ w.data x = v.data x

end Volume

theorem Volume.Owned.place (h : Owned v none loose) (hr : Refines fs v) (hd : Dir v none d) (hfuel : 2 ^ 31 < fuel) :
    ∃ t, (fat32FindFreeDirent fuel d fs = some (-enospc, t) ∧ Refines t v) ∨
      (fat32FindFreeDirent fuel d fs = some (toIndex (v.freeSlot d), t) ∧ Refines t (v.makeRoom d) ∧
        Placed v (v.makeRoom d) loose d (v.freeSlot d)) := by
  have hD := h.dir_chain hd
  obtain ⟨t, ht, hfind⟩ := findFreeDirent_spec hr hD (h.dir_two hd) (h.length_lt_fuel hd hfuel)
  change _ = some (freeDirentResult v (v.chain d) t (search slotFree (v.entry d) (v.count d) 0)) at hfind
  rw [hfind, freeSlot, makeRoom]
  obtain ⟨o, ho⟩ := h.dir_owns hd
  cases hsearch : search slotFree (v.entry d) (v.count d) 0 with
  | some i =>
    obtain ⟨-, hlt, -, hbefore⟩ := search_some hsearch
    rw [Nat.zero_add] at hlt
    exact ⟨t, .inr ⟨rfl, ht, .refl v, hD, hlt, .inr rfl,
      fun j hj => entry_ne_zero_of_used (hbefore j (Nat.zero_le j) hj),
      fun x hx => ⟨(h.apart x hx).2.2 o d ho, rfl, rfl⟩⟩⟩
  | none =>
    have hnone : ∀ j < v.count d, slotFree (v.entry d j) = false := fun j hj =>
      search_none hsearch (Nat.zero_le j) (by omega)
    obtain ⟨pre, x, hlast⟩ := h.exists_last hd
    have hx : (v.chain d).getLastD 0 = x := by simp [hlast]
    have hxd : x ∈ v.chain d := by simp [hlast]
    obtain ⟨hvalue, halloc⟩ := allocCluster_spec ht h.hint.2 (hD.range x hxd).2
    rw [freeDirentResult, hx, hvalue]
    rcases alloc_cases x h.hint.2 with ⟨hfull, -⟩ | ⟨new, hnew, hstep, -⟩
    · rw [hfull] at halloc ⊢
      exact ⟨_, .inl ⟨rfl, halloc⟩⟩
    · have hge : ¬ (v.alloc x).1 < 2 := by
        rw [hnew]
        exact Nat.not_lt.mpr hstep.free.1.1
      obtain ⟨hcount, hold, -⟩ := h.entry_allocates hd hstep hlast hr.few ho
      obtain ⟨hchain, hwalk⟩ := h.chain_allocates hd hstep hlast hr.few ho
      obtain ⟨-, -, hsame⟩ := hstep.fat_eq (.inr (hD.fat_ne_zero hxd))
      rw [if_pos rfl] at hcount hchain
      have hpos := h.aligned.pos
      refine ⟨_, .inr ⟨?_, halloc, hstep.shape, hwalk, ?_, .inl (Nat.le_of_eq hcount), fun j hj => ?_, fun y hy => ?_⟩⟩
      · rw [if_neg hge]
        rfl
      · rw [getD_none]
        change v.count d < (v.alloc x).2.count d
        omega
      · change (v.alloc x).2.entry d j 0 ≠ 0
        rw [hold j hj]
        exact entry_ne_zero_of_used (hnone j hj)
      · obtain ⟨-, hused, hout⟩ := h.apart y hy
        have hyn : y ≠ new := fun heq => hused (heq ▸ hstep.free.2)
        refine ⟨?_, hsame y hyn (.inr fun heq => hout o d ho (heq ▸ hxd)), hstep.data y hyn⟩
        change y ∉ (v.alloc x).2.chain d
        rw [hchain, mem_append, mem_singleton]
        exact not_or_intro (hout o d ho) hyn

theorem Volume.Owned.makeRoom (h : Owned v none loose) (hd : Dir v none d) (hroom : Room v d)
    (hfew : v.clusters + 2 ≤ fatEocMin) (hlt : v.freeSlot d < (v.makeRoom d).count d) :
    Owned (v.makeRoom d) none loose ∧ Agree v (v.makeRoom d) none ∧ (v.makeRoom d).live d (v.freeSlot d) = none ∧
      v.freeSlot d < 2 ^ 31 := by
  have hsmall := (h.tidy d hd).small
  rw [freeSlot, Volume.makeRoom] at hlt ⊢
  cases hsearch : search slotFree (v.entry d) (v.count d) 0 with
  | some i =>
    obtain ⟨-, hi, hfree, -⟩ := search_some hsearch
    refine ⟨h, ⟨.refl v, fun _ _ _ _ => rfl⟩, live_of_slotFree hfree, ?_⟩
    rw [getD_some]
    omega
  | none =>
    rw [hsearch] at hlt
    obtain ⟨pre, x, hlast⟩ := h.exists_last hd
    have hx : (v.chain d).getLastD 0 = x := by simp [hlast]
    rw [hx] at hlt ⊢
    change v.count d < (v.alloc x).2.count d at hlt
    rcases alloc_cases x h.hint.2 with ⟨hfull, -⟩ | ⟨new, -, hstep, horder, hzero⟩
    · rw [hfull] at hlt
      exact absurd hlt (Nat.lt_irrefl _)
    · rcases hroom with ⟨j, hj, hjfree⟩ | hnofree | ⟨habove, hgrow⟩
      · rw [search_none hsearch (Nat.zero_le j) (by omega)] at hjfree
        cases hjfree
      · exact absurd hstep.free (hnofree new)
      · obtain ⟨y, hy, hle⟩ := habove
        have hyorder := horder y hy
        have hzeros := hzero (by omega)
        obtain ⟨howned, hag⟩ := h.grow hd hstep hlast hfew hzeros hgrow
        obtain ⟨o, ho⟩ := h.dir_owns hd
        obtain ⟨-, -, hnewslots⟩ := h.entry_allocates hd hstep hlast hfew ho
        have hpos := h.aligned.pos
        refine ⟨howned, hag, live_of_slotFree ?_, by rw [getD_none]; omega⟩
        rw [getD_none]
        change slotFree ((v.alloc x).2.entry d (v.count d))
        rw [slotFree, hnewslots hzeros _ (Nat.le_refl _) hlt 0]
        rfl

theorem Volume.Owned.findSlot (h : Owned v none loose) (hr : Refines fs v) (hd : Dir v none d) (hroom : Room v d)
    (hfuel : 2 ^ 31 < fuel) :
    (∃ t, fat32FindFreeDirent fuel d fs = some (-enospc, t) ∧ Refines t v) ∨
      ∃ (i : ℕ) (t : Fat32Fs) (w : Volume), fat32FindFreeDirent fuel d fs = some ((i : ℤ), t) ∧ Refines t w ∧
        FreshSlot v w loose d i := by
  obtain ⟨t, ⟨hfind, ht⟩ | ⟨hfind, ht, hplace⟩⟩ := h.place hr hd hfuel
  · exact .inl ⟨t, hfind, ht⟩
  · obtain ⟨howned, hag, hdead, hsmall⟩ := h.makeRoom hd hroom hr.few hplace.lt
    rw [toIndex_eq hsmall] at hfind
    exact .inr ⟨_, t, _, hfind, ht, howned, hag, hplace.lt, hdead, howned.proper_of_dead (hag.dir.mpr hd) hdead,
      hplace.before, fun x hx => (hplace.kept x hx).2⟩

theorem Volume.Owned.fill (h : Owned v (some (d, i)) loose) (hd : Dir v (some (d, i)) d) (hi : i < v.count d)
    (hde : de 0 ≠ 0) (hbefore : ∀ j < i, v.entry d j 0 ≠ 0) :
    Owned (v.setSlot (v.chain d) i de) (some (d, i)) loose ∧ Dir (v.setSlot (v.chain d) i de) (some (d, i)) d ∧
      (v.setSlot (v.chain d) i de).entry d i = cut de ∧ i < (v.setSlot (v.chain d) i de).count d := by
  obtain ⟨howned, hag⟩ := h.setSlot hd hi hde hbefore
  obtain ⟨o, ho⟩ := h.dir_owns hd
  have hchain : (v.setSlot (v.chain d) i de).chain d = v.chain d := (h.chain_same (.setSlot _ _ _) ho fun _ _ => rfl).2
  refine ⟨howned, hag.dir.mpr hd, ?_, ?_⟩
  · rw [entry, hchain, h.slot_setSlot hd hi hd hi, if_pos rfl]
    rfl
  · rw [count, hchain]
    exact hi

theorem Volume.FreshSlot.fill {w : Volume} (h : FreshSlot v w loose d i) (hd : Dir v none d) (hde : de 0 ≠ 0) :
    Owned (w.setSlot (w.chain d) i de) (some (d, i)) loose ∧ Dir (w.setSlot (w.chain d) i de) (some (d, i)) d ∧
      (w.setSlot (w.chain d) i de).entry d i = cut de ∧ i < (w.setSlot (w.chain d) i de).count d :=
  ((owned_hide h.dead h.proper).mpr h.owned).fill ((dir_hide h.dead).mpr (h.agree.dir.mpr hd)) h.lt hde h.before

theorem Volume.live_of_entry {w : Volume} (hentry : w.entry d i = e) (hi : i < w.count d) :
    w.live d i = if direntLive e = true then some e else none := by
  rw [live, hentry]
  by_cases hlive : direntLive e
  · rw [if_pos ⟨hi, hlive⟩, if_pos hlive]
  · rw [if_neg fun hbad => hlive hbad.2, if_neg hlive]

theorem Volume.FreshSlot.wellFormed_file {w : Volume} (h : FreshSlot v w [] d i) (hd : Dir v none d) (hde : de 0 ≠ 0)
    (hfile : direntIsDir (cut de) = false) (hc : direntCluster (cut de) < 2) :
    WellFormed (w.setSlot (w.chain d) i de) := by
  obtain ⟨howned, hdir, hentry, hi⟩ := h.fill hd hde
  have hlive := live_of_entry hentry hi
  by_cases hcut : direntLive (cut de)
  · rw [if_pos hcut] at hlive
    refine howned.attach hdir hlive (.inl ⟨hc, rfl⟩) fun hbad => ?_
    rw [hfile] at hbad
    cases hbad
  · rw [if_neg hcut] at hlive
    exact (owned_hide hlive (howned.spare d i rfl)).mp howned

theorem fat32StrTo83_ne_zero (h : (0 : UInt8) ∉ name) : fat32StrTo83 name 0 ≠ 0 := by
  have hupper : ∀ c : UInt8, c ≠ 0 → upper c ≠ 0 := by
    intro c hc hzero
    rw [upper] at hzero
    split_ifs at hzero with hin
    · have hle : (97 : ℕ) ≤ c.toNat := hin.1
      have hz := congrArg UInt8.toNat hzero
      rw [UInt8.toNat_sub_of_le c 32 (UInt8.le_iff_toNat_le.mpr (by change 32 ≤ c.toNat; omega))] at hz
      change c.toNat - 32 = 0 at hz
      omega
    · exact hc hzero
  have hbase : (0 : UInt8) ∉ (if dot ∈ name then ((name.reverse.dropWhile fun c => c ≠ dot).drop 1).reverse else name) := by
    split
    · intro hbad
      rw [mem_reverse] at hbad
      have hin := (dropWhile_suffix _).subset (mem_of_mem_drop hbad)
      exact h (mem_reverse.mp hin)
    · exact h
  rw [fat32StrTo83]
  simp only [Nat.zero_lt_succ, if_true]
  generalize (if dot ∈ name then ((name.reverse.dropWhile fun c => c ≠ dot).drop 1).reverse else name) = base at hbase
  cases base with
  | nil => decide
  | cons c rest =>
    rw [map_cons, List.getElem?_cons_zero, getD_some]
    exact hupper c fun heq => hbase (heq ▸ mem_cons_self)

theorem vfsCreate_wellFormed (hr : Refines fs v) (h : WellFormed v) (hd : Dir v none (nodeCluster parent fs))
    (hname : (0 : UInt8) ∉ name) (hroom : Room v (nodeCluster parent fs)) (hfuel : 2 ^ 31 < fuel) :
    ∃ r t w, fat32VfsCreate fuel parent name fs = some (r, t) ∧ Refines t w ∧ WellFormed w := by
  rw [fat32VfsCreate]
  rcases Owned.findSlot h hr hd hroom hfuel with ⟨t, hfind, ht⟩ | ⟨i, t, w, hfind, ht, hslot⟩
  · exact ⟨-enospc, t, v, by rw [hfind]; rfl, ht, h⟩
  · have hd' := hslot.agree.dir.mpr hd
    have hD := hslot.owned.dir_chain hd'
    obtain ⟨hzero, hwrite⟩ := writeDirentAt_spec (newDirent (fat32StrTo83 name) attrArchive 0) ht hD
      (hslot.owned.dir_two hd') hslot.lt
    refine ⟨0, _, _, ?_, sync_spec hwrite, hslot.wellFormed_file hd (fat32StrTo83_ne_zero hname) ?_ ?_⟩
    · rw [hfind]
      simp only [bind_eq_bind, bind_some, if_neg (show ¬ ((i : ℤ) < 0) by omega), Int.toNat_natCast, hzero,
        if_true]
    · rw [cut_newDirent, direntIsDir, direntAttr_newDirent (by decide)]
      rfl
    · rw [cut_newDirent, direntCluster_newDirent (by decide)]
      decide

section Mkdir

variable {w : Volume} {p : ℕ}

theorem entry_of_dots (hal : Aligned w) (hchain : w.chain new = [new])
    (hdata : ∀ j < w.clusterSize, w.data new j = dotCluster new p j) :
    w.entry new 0 = newDirent (dotName 1) attrDir new ∧ w.entry new 1 = newDirent (dotName 2) attrDir p ∧
      ∀ j, 2 ≤ j → j < w.count new → ∀ k, w.entry new j k = 0 := by
  have hcount : w.count new = w.perCluster := by rw [Volume.count, hchain, length_singleton, Nat.one_mul]
  have hbyte : ∀ j < w.perCluster, ∀ k < direntSize, w.entry new j k = dotCluster new p (j * direntSize + k) := by
    intro j hj k hk
    have hfits := hal.fits j
    rw [Nat.mod_eq_of_lt hj] at hfits
    have hlt : j * direntSize + k < w.clusterSize := by omega
    rw [entry, hchain, slot, if_pos hk, byteAt, Nat.div_eq_of_lt hlt, Nat.mod_eq_of_lt hlt]
    exact hdata _ hlt
  have hout : ∀ j k, direntSize ≤ k → w.entry new j k = 0 := fun j k hk => if_neg (Nat.not_lt.mpr hk)
  have htwo := hal.two
  refine ⟨funext fun k => ?_, funext fun k => ?_, fun j hj hlt k => ?_⟩
  · by_cases hk : k < direntSize
    · rw [hbyte 0 (by omega) k hk, dotCluster, splice_outside (by simp only [direntSize] at *; omega),
        splice_inside (by omega) (by omega), Nat.zero_mul, Nat.zero_add, Nat.sub_zero]
    · rw [hout 0 k (by omega), newDirent_outside (by omega)]
  · by_cases hk : k < direntSize
    · rw [hbyte 1 (by omega) k hk, dotCluster, splice_inside (by omega) (by omega), Nat.one_mul, Nat.add_sub_cancel_left]
    · rw [hout 1 k (by omega), newDirent_outside (by omega)]
  · by_cases hk : k < direntSize
    · have hge : 2 * direntSize ≤ j * direntSize := Nat.mul_le_mul_right _ hj
      rw [hbyte j (by omega) k hk, dotCluster, splice_outside (by omega), splice_outside (by omega)]
    · exact hout j k (by omega)

theorem direntLive_dots (dots c : ℕ) (hdots : 0 < dots) :
    direntLive (newDirent (dotName dots) attrDir c) ∧ direntIsDir (newDirent (dotName dots) attrDir c) := by
  have hattr : direntAttr (newDirent (dotName dots) attrDir c) = attrDir := direntAttr_newDirent (by decide)
  have hzero : newDirent (dotName dots) attrDir c 0 = dot := if_pos hdots
  rw [direntLive, direntIsDir, hattr, hzero]
  decide

theorem newDirectory (hal : Aligned w) (hchain : w.chain new = [new]) (hnew : new < uintSize) (hp : p < uintSize)
    (hdata : ∀ j < w.clusterSize, w.data new j = dotCluster new p j) (hroot : new ≠ w.root)
    (hsmall : w.perCluster ≤ 2 ^ 31) : Vacant w new ∧ Dots w new p ∧ Tidy w new := by
  have hcount : w.count new = w.perCluster := by rw [Volume.count, hchain, length_singleton, Nat.one_mul]
  have htwo := hal.two
  obtain ⟨hself, hparent, hrest⟩ := entry_of_dots hal hchain hdata
  obtain ⟨hlive₁, hdir₁⟩ := direntLive_dots 1 new (by decide)
  obtain ⟨hlive₂, hdir₂⟩ := direntLive_dots 2 p (by decide)
  have hzero : ∀ (dots c : ℕ), 0 < dots → newDirent (dotName dots) attrDir c 0 ≠ 0 := fun dots c hdots => by
    rw [newDirent_zero, dotName, if_pos hdots]
    decide
  refine ⟨fun j e hheld => ?_, ⟨⟨_, ?_, hdir₁, direntCluster_newDirent hnew⟩, ⟨_, ?_, hdir₂, .inl (direntCluster_newDirent hp)⟩⟩,
    ⟨by rw [hcount]; exact hsmall, fun i j hij hj hend => ?_⟩⟩
  · obtain ⟨hlt, hlive, -⟩ := live_eq_some.mp hheld.live
    have hj : 2 ≤ j := hheld.proper.resolve_left hroot
    rw [direntLive, hrest j hj hlt 0] at hlive
    exact absurd hlive (by simp)
  · exact live_eq_some.mpr ⟨by omega, by rw [hself]; exact hlive₁, hself⟩
  · exact live_eq_some.mpr ⟨by omega, by rw [hparent]; exact hlive₂, hparent⟩
  · have hi : i ≠ 0 ∧ i ≠ 1 := by
      refine ⟨?_, ?_⟩
      · rintro rfl
        rw [hself] at hend
        exact hzero 1 new (by decide) hend
      · rintro rfl
        rw [hparent] at hend
        exact hzero 2 p (by decide) hend
    exact hrest j (by omega) hj 0

end Mkdir

def Volume.RoomForDir (v : Volume) (d : ℕ) : Prop :=
  (∃ i < v.count d, slotFree (v.entry d i) = true) ∨ (∀ x y, v.Free x → v.Free y → x = y) ∨
    (∀ x, v.Free x → v.hint ≤ x → ∃ y, y ≠ x ∧ v.Free y ∧ v.hint ≤ y) ∧ v.count d + v.perCluster ≤ 2 ^ 31

theorem Volume.RoomForDir.room (h : RoomForDir v d) (hall : Allocates 0 new v v')
    (horder : ∀ x, v.Free x → (new ≤ x ∧ (v.hint ≤ x → v.hint ≤ new)) ∨ (x < v.hint ∧ v.hint ≤ new))
    (hcount : v'.count d = v.count d) (hentry : ∀ i < v.count d, v'.entry d i = v.entry d i) : Room v' d := by
  obtain ⟨-, -, hsame⟩ := hall.fat_eq (.inl rfl)
  have hper := hall.shape.perCluster
  have hfree : ∀ x, v'.Free x ↔ v.Free x ∧ x ≠ new := by
    intro x
    rw [Free, Free, hall.shape.inRange]
    by_cases hx : x = new
    · subst hx
      obtain ⟨hend, -, -⟩ := hall.fat_eq (.inl rfl)
      rw [hend]
      exact ⟨fun hbad => absurd hbad.2 (by decide), fun hbad => absurd rfl hbad.2⟩
    · rw [hsame x hx (.inl rfl)]
      exact ⟨fun hfree => ⟨hfree, hx⟩, fun hfree => hfree.1⟩
  rcases h with ⟨i, hi, hfreeslot⟩ | hone | ⟨htwo, hgrow⟩
  · exact .inl ⟨i, by rw [hcount]; exact hi, by rw [hentry i hi]; exact hfreeslot⟩
  · refine .inr (.inl fun x hx => ?_)
    obtain ⟨hx', hne⟩ := (hfree x).mp hx
    exact hne (hone x new hx' hall.free)
  · by_cases hleft : ∃ x, v'.Free x
    · obtain ⟨x, hx⟩ := hleft
      obtain ⟨hx', hne⟩ := (hfree x).mp hx
      refine .inr (.inr ⟨?_, by rw [hcount, hper]; exact hgrow⟩)
      rw [hall.hint]
      rcases horder x hx' with ⟨hle, -⟩ | ⟨-, hge⟩
      · exact ⟨x, hx, by omega⟩
      · -- The new cluster is one of two free ones from the hint on, and the other one comes after it.
        obtain ⟨y, hyne, hy, hyhint⟩ := htwo new hall.free hge
        have hyorder := horder y hy
        exact ⟨y, (hfree y).mpr ⟨hy, hyne⟩, by omega⟩
    · exact .inr (.inl fun x hx => hleft ⟨x, hx⟩)

theorem Volume.Owned.perCluster_le {ex : Option (ℕ × ℕ)} (h : Owned v ex loose) : v.perCluster ≤ 2 ^ 31 := by
  have hroot : Dir v ex v.root := .refl
  have hsmall := (h.tidy v.root hroot).small
  obtain ⟨rest, hrest⟩ := (h.dir_chain hroot).exists_cons h.rooted
  rw [count, hrest, length_cons, Nat.add_mul, Nat.one_mul] at hsmall
  omega

theorem Volume.FreshSlot.wellFormed_dir {w : Volume} (h : FreshSlot v w [new] d i) (hd : Dir v none d)
    (hfew : v.clusters + 2 ≤ fatEocMin) (hchain : FileChain v new [new])
    (hdata : ∀ j < v.clusterSize, v.data new j = dotCluster new d j) (hname : (0 : UInt8) ∉ name)
    (hmark : fat32StrTo83 name 0 ≠ deletedMark) :
    WellFormed (w.setSlot (w.chain d) i (newDirent (fat32StrTo83 name) attrDir new)) := by
  have hfirst : newDirent (fat32StrTo83 name) attrDir new 0 ≠ 0 := fat32StrTo83_ne_zero hname
  obtain ⟨howned, hdir, hentry, hi⟩ := h.fill hd hfirst
  have hmem : new ∈ [new] := mem_singleton.mpr rfl
  obtain ⟨hrange, hused, hout⟩ := h.owned.apart new hmem
  have hlt : new < uintSize ∧ d < uintSize := by
    have hdrange := (h.owned.dir_chain (h.agree.dir.mpr hd)).range d
      ((h.owned.dir_owns (h.agree.dir.mpr hd)).elim fun o ho => h.owned.mem_chain ho)
    rw [InRange, h.agree.shape.clusters] at hrange hdrange
    simp only [uintSize, fatEocMin] at *
    omega
  have hother : new ≠ w.slotCluster (w.chain d) i := by
    obtain ⟨o, ho⟩ := h.owned.dir_owns (h.agree.dir.mpr hd)
    exact fun heq => hout o d ho (heq ▸ slotCluster_mem h.lt)
  have hattr : direntAttr (newDirent (fat32StrTo83 name) attrDir new) = attrDir := direntAttr_newDirent (by decide)
  have hlive : direntLive (newDirent (fat32StrTo83 name) attrDir new) := by
    rw [direntLive, hattr, newDirent_zero]
    simp [fat32StrTo83_ne_zero hname, hmark, attrDir, attrVolumeId]
  have hshape : SameShape v (w.setSlot (w.chain d) i (newDirent (fat32StrTo83 name) attrDir new)) :=
    h.agree.shape.trans (.setSlot _ _ _)
  have hchain' : FileChain (w.setSlot (w.chain d) i (newDirent (fat32StrTo83 name) attrDir new)) new [new] :=
    hchain.congr hshape fun x hx => (h.kept x hx).1
  have hcluster : direntCluster (newDirent (fat32StrTo83 name) attrDir new) = new := direntCluster_newDirent hlt.1
  rw [cut_newDirent] at hentry
  refine howned.attach hdir ((live_of_entry hentry hi).trans (if_pos hlive)) ?_ fun _ => ?_
  · rw [hcluster]
    exact .inr ⟨hrange.1, hchain'⟩
  · rw [hcluster]
    refine ⟨hrange.1, newDirectory howned.aligned hchain'.chain_eq hlt.1 hlt.2 (fun j hj => ?_) (fun heq => ?_)
      howned.perCluster_le⟩
    · rw [data_setSlot hother, (h.kept new hmem).2]
      exact hdata j (by rw [← hshape.clusterSize]; exact hj)
    · have hmemroot : w.root ∈ w.chain w.root := h.owned.mem_chain .root
      exact hout none w.root .root (heq ▸ hmemroot)

def Volume.prepared (v : Volume) (p : ℕ) : Volume := (v.alloc 0).2.setData (v.alloc 0).1 (dotCluster (v.alloc 0).1 p)

theorem prepared_spec (hr : Refines fs v) (h : WellFormed v) (p : ℕ) :
    (v.alloc 0 = (0, v) ∧ Refines (fat32AllocCluster 0 fs).2 v ∧ (fat32AllocCluster 0 fs).1 = 0) ∨
      ∃ new t, (v.alloc 0).1 = new ∧ (fat32AllocCluster 0 fs).1 = new ∧
        fat32WriteCluster new (dotCluster new p) (fat32AllocCluster 0 fs).2 = some t ∧ Refines t (v.prepared p) ∧
        Allocates 0 new v (v.prepared p) ∧
        (∀ j < (v.prepared p).clusterSize, (v.prepared p).data new j = dotCluster new p j) ∧
        ∀ x, v.Free x → (new ≤ x ∧ (v.hint ≤ x → v.hint ≤ new)) ∨ (x < v.hint ∧ v.hint ≤ new) := by
  have hzero : 0 < v.clusters + 2 := by omega
  obtain ⟨hvalue, halloc⟩ := allocCluster_spec hr h.hint.2 hzero
  rcases alloc_cases 0 h.hint.2 with ⟨hfull, -⟩ | ⟨new, hnew, hstep, horder, -⟩
  · rw [hfull] at hvalue halloc
    exact .inl ⟨hfull, halloc, hvalue⟩
  · obtain ⟨t, hwrite, ht⟩ := writeCluster_spec halloc (hstep.shape.inRange.mpr hstep.free.1) (dotCluster new p)
    refine .inr ⟨new, t, hnew, hvalue.trans hnew, hwrite, ?_, ?_, fun j hj => ?_, horder⟩
    · rw [prepared, hnew]
      exact ht
    · rw [prepared, hnew]
      refine ⟨hstep.shape.trans (.setData _ _), hstep.free, hstep.fat, hstep.hint, fun x hx => ?_⟩
      exact (update_of_ne hx _ _).trans (hstep.data x hx)
    · rw [prepared, hnew] at hj ⊢
      exact (congrFun (update_self _ _ _) j).trans (if_pos hj)

theorem vfsMkdir_wellFormed (hr : Refines fs v) (h : WellFormed v) (hd : Dir v none (nodeCluster parent fs))
    (hname : (0 : UInt8) ∉ name) (hmark : fat32StrTo83 name 0 ≠ deletedMark)
    (hroom : RoomForDir v (nodeCluster parent fs)) (hfuel : 2 ^ 31 < fuel) :
    ∃ r t w, fat32VfsMkdirOp fuel parent name fs = some (r, t) ∧ Refines t w ∧ WellFormed w := by
  rw [fat32VfsMkdirOp]
  dsimp only
  rcases prepared_spec hr h (nodeCluster parent fs) with ⟨-, halloc, hvalue⟩ |
    ⟨new, t, hnew, hvalue, hwrite, ht, hstep, hdata, horder⟩
  · rw [hvalue]
    exact ⟨-enospc, _, v, rfl, halloc, h⟩
  · have hge : ¬ new < 2 := Nat.not_lt.mpr hstep.free.1.1
    rw [hvalue, if_neg hge]
    have hsingle := hstep.single hr.few
    have hresh := hstep.extends_nil.reshapes hsingle h.hint.1
    have howned := Owned.reshape h hresh
    have hag := Owned.reshape_agree h hresh
    obtain ⟨-, hcount, hentry⟩ := Owned.reshape_dir h hresh hd
    have hroom' := hroom.room hstep horder hcount hentry
    rw [hwrite, getD_some]
    rcases howned.findSlot ht (hag.dir.mpr hd) hroom' hfuel with ⟨u, hfind, hu⟩ | ⟨i, u, w, hfind, hu, hslot⟩
    · have hless : [new].length < fuel := by
        rw [length_singleton]
        omega
      obtain ⟨z, hfree, hz⟩ := freeChain_spec hu (.inl hsingle) hless
      refine ⟨-enospc, z, _, ?_, hz, howned.reshape howned.reshapes_freeAll⟩
      rw [hfind]
      simp only [bind_eq_bind, bind_some, if_pos (show (-enospc : ℤ) < 0 by decide), hfree]
    · have hd' := hslot.agree.dir.mpr (hag.dir.mpr hd)
      obtain ⟨hok, hdone⟩ := writeDirentAt_spec (newDirent (fat32StrTo83 name) attrDir new) hu
        (hslot.owned.dir_chain hd') (hslot.owned.dir_two hd') hslot.lt
      refine ⟨0, _, _, ?_, sync_spec hdone, hslot.wellFormed_dir (hag.dir.mpr hd)
        (by rw [hstep.shape.clusters]; exact hr.few) hsingle hdata hname hmark⟩
      rw [hfind]
      simp only [bind_eq_bind, bind_some, if_neg (show ¬ ((i : ℤ) < 0) by omega), Int.toNat_natCast, hok,
        ne_eq, not_true_eq_false, if_false]

end AetherOs.Fat32
