import AetherOs.Fat32.WriteRead

/-! # Allocation of clusters under any hint

The hint of a mounted volume is read from its FSInfo sector and never checked. The second search of
`fat32_alloc_cluster` runs from cluster 2 to the hint, so it may leave the volume, and it does not clear
the cluster it takes. -/

namespace AetherOs.Fat32

open Base Volume

variable {fs fs' : Fat32Fs} {v v' : Volume} {c prev n : ℕ}

/-- The entry that `fat32_next_cluster` reads for any number, of a cluster or not. -/
def tableEntry (fs : Fat32Fs) (c : ℕ) : ℕ :=
  leNat (fatSector (fat32FatLba c fs) fs) 4 (fat32FatOffset c) &&& fatMask

/-- What an allocation has to do to the volume `v` when it answers `c`. -/
structure AllocCorrect (prev : ℕ) (v : Volume) (c : ℕ) (v' : Volume) : Prop where
  full : c = 0 ↔ ∀ x, ¬ v.Free x
  kept : c = 0 → v'.fat = v.fat
  free : c ≠ 0 → v.Free c
  zero : c ≠ 0 → ∀ j < v.clusterSize, v'.data c j = 0
  last : c ≠ 0 → v'.fat c = fatEoc
  linked : c ≠ 0 → prev ≠ 0 → v'.fat prev = c
  others : c ≠ 0 → ∀ x, x ≠ c → (prev = 0 ∨ x ≠ prev) → v'.fat x = v.fat x

theorem fatLba_ne (hlow : fs.fatLba < 2 ^ 16) (c : ℕ) : fat32FatLba c fs ≠ uintSize - 1 := by
  simp only [fat32FatLba, sectorSize, uintSize]
  omega

theorem fatOffset_le (c : ℕ) : fat32FatOffset c + 4 ≤ sectorSize := by
  simp only [fat32FatOffset, sectorSize, uintSize]
  omega

namespace SameSectors

theorem trans {fs'' : Fat32Fs} (h : SameSectors fs fs') (h' : SameSectors fs' fs'') : SameSectors fs fs'' := by
  refine ⟨?_, fun l hl o ho => (h'.sector l hl o ho).trans (h.sector l hl o ho)⟩
  obtain ⟨_, _, _, _, rfl⟩ := h'.rest
  obtain ⟨_, _, _, _, rfl⟩ := h.rest
  exact ⟨_, _, _, _, rfl⟩

theorem fatLba_eq (h : SameSectors fs fs') : fs'.fatLba = fs.fatLba := by
  obtain ⟨_, _, _, _, rfl⟩ := h.rest
  rfl

theorem fat32FatLba_eq (h : SameSectors fs fs') (c : ℕ) : fat32FatLba c fs' = fat32FatLba c fs := by
  rw [fat32FatLba, fat32FatLba, h.fatLba_eq]

theorem tableEntry_eq (h : SameSectors fs fs') (hlow : fs.fatLba < 2 ^ 16) (c : ℕ) :
    tableEntry fs' c = tableEntry fs c := by
  have hoff := fatOffset_le c
  rw [tableEntry, tableEntry, h.fat32FatLba_eq,
    leNat_congr fun j _ hj => h.sector _ (fatLba_ne hlow c) j (by omega)]

end SameSectors

theorem nextCluster_sectors (h : Coherent fs) (hlow : fs.fatLba < 2 ^ 16) (c : ℕ) :
    (fat32NextCluster c fs).1 = tableEntry fs c ∧
      Coherent (fat32NextCluster c fs).2 ∧ SameSectors fs (fat32NextCluster c fs).2 := by
  obtain ⟨hcoherent, hsame, hlba⟩ := loadSector_sectors h (fat32FatLba c fs)
  refine ⟨?_, hcoherent, hsame⟩
  rw [← hsame.tableEntry_eq hlow, tableEntry, hsame.fat32FatLba_eq, fatSector, if_pos hlba, fat32NextCluster]

theorem scanFree_sectors (h : Coherent fs) (hlow : fs.fatLba < 2 ^ 16) :
    (scanFree n c fs).1 = search (fun val => val = fatFree) (tableEntry fs) n c ∧
      SameSectors fs (scanFree n c fs).2 := by
  induction n generalizing c fs with
  | zero => exact ⟨rfl, .refl fs⟩
  | succ n ih =>
    obtain ⟨hval, hcoherent, hsame⟩ := nextCluster_sectors h hlow c
    rw [scanFree, search]
    simp only [hval, decide_eq_true_eq]
    split
    · exact ⟨rfl, hsame⟩
    · obtain ⟨hfound, hrest⟩ := ih (c := c + 1) hcoherent (by rw [hsame.fatLba_eq]; exact hlow)
      exact ⟨hfound.trans (search_congr fun j => by rw [hsame.tableEntry_eq hlow]), hsame.trans hrest⟩

theorem scanFree_add (m : ℕ) : scanFree (n + m) c fs =
    if (scanFree n c fs).1 = none then scanFree m (c + n) (scanFree n c fs).2 else scanFree n c fs := by
  induction n generalizing c fs with
  | zero => rw [Nat.zero_add]; rfl
  | succ n ih =>
    rw [Nat.succ_add, scanFree, scanFree]
    split
    rename_i val t _
    by_cases hval : val = fatFree
    · simp only [if_pos hval, reduceCtorEq, if_false]
    · rw [if_neg hval, if_neg hval, ih, Nat.succ_add_eq_add_succ]

theorem Volume.Allocates.correct_iff (h : Allocates prev c v v') (hprev : prev = 0 ∨ v.fat prev ≠ 0) :
    AllocCorrect prev v c v' ↔ ∀ j < v.clusterSize, v'.data c j = 0 := by
  have hne : c ≠ 0 := by
    have hrange := h.free.1.1
    omega
  obtain ⟨hlast, hlinked, hothers⟩ := h.fat_eq hprev
  refine ⟨fun hcorrect => hcorrect.zero hne, fun hzero => ⟨?_, fun hc => absurd hc hne, fun _ => h.free,
    fun _ => hzero, fun _ => hlast, fun _ => hlinked, fun _ => hothers⟩⟩
  exact ⟨fun hc => absurd hc hne, fun hfull => absurd h.free (hfull c)⟩

/-- What `fat32_alloc_cluster` can do: it takes the first free cluster from the hint on and clears it, or the
first free cluster of the volume, which it does not clear, or it finds nothing, or an entry past the volume. -/
inductive AllocOutcome (prev : ℕ) (fs : Fat32Fs) (c : ℕ) (v' : Volume) : Prop
  | above (hle : fs.nextFreeHint ≤ c) (hstep : Allocates prev c fs.volume v') (hzero : ∀ j, v'.data c j = 0)
  | below (hused : ∀ x, fs.volume.Free x → x < fs.nextFreeHint) (hstep : Allocates prev c fs.volume v')
      (hdata : v'.data = fs.volume.data) (hleast : ∀ x, fs.volume.Free x → c ≤ x)
  | full (hzero : c = 0) (hfull : ∀ x, ¬ fs.volume.Free x) (hsame : v'.fat = fs.volume.fat)
      (hpast : ∀ x, fs.totalClusters + 2 ≤ x → x < fs.nextFreeHint → tableEntry fs x ≠ fatFree)
  | past (hfull : ∀ x, ¬ fs.volume.Free x) (hle : fs.totalClusters + 2 ≤ c) (hlt : c < fs.nextFreeHint)
      (hfree : tableEntry fs c = fatFree)

theorem allocCluster_inside (hr : Refines fs fs.volume) (hhint : fs.nextFreeHint ≤ fs.totalClusters + 2)
    (hprev : prev < fs.totalClusters + 2) :
    AllocOutcome prev fs (fat32AllocCluster prev fs).1 (fat32AllocCluster prev fs).2.volume := by
  obtain ⟨hfirst, hrest⟩ := allocCluster_spec hr hhint hprev
  rw [hfirst, hrest.volume, alloc]
  cases habove : fs.volume.freeAbove with
  | some d =>
    obtain ⟨hrange, hfree, hle, -⟩ := freeAbove_some habove
    obtain ⟨hstep, hzero⟩ := allocates_zeroed prev ⟨hrange, hfree⟩
    exact .above hle hstep hzero
  | none =>
    have hused (x : ℕ) (hx : fs.volume.Free x) : x < fs.nextFreeHint := by
      by_contra hge
      exact freeAbove_none habove hx.1 (Nat.le_of_not_lt hge) hx.2
    cases hbelow : fs.volume.freeBelow with
    | some d =>
      obtain ⟨hrange, hfree, -, hleast⟩ := freeBelow_some hbelow hhint
      obtain ⟨hstep, hdata⟩ := allocates_take prev ⟨hrange, hfree⟩
      refine .below hused hstep hdata fun x hx => ?_
      by_contra hlt
      exact hleast x hx.1.1 (Nat.lt_of_not_le hlt) hx.2
    | none =>
      refine .full rfl (fun x hx => ?_) rfl fun x hle hlt => by omega
      exact freeBelow_none hbelow hx.1 (hused x hx) hx.2

theorem SameSectors.fat_eq (h : SameSectors fs fs') (hs : Sound fs) : fs'.volume.fat = fs.volume.fat := by
  obtain ⟨_, _, _, _, heq⟩ := h.rest
  have hend := hs.dataLba_lt
  funext c
  change (if c < fs'.totalClusters + 2 then fatEntry c fs' else 0) = if c < fs.totalClusters + 2 then fatEntry c fs else 0
  have hclusters : fs'.totalClusters = fs.totalClusters := by rw [heq]
  have hlba : fatLbaOf c fs' = fatLbaOf c fs := by rw [fatLbaOf, fatLbaOf, h.fatLba_eq]
  rw [hclusters]
  split_ifs with hc
  · have hlt := hs.fatLbaOf_lt hc
    have hoff := fatOffset_lt c
    rw [fatEntry, fatEntry, hlba, leNat_congr fun j _ hj => h.sector _ (by omega) j (by omega)]
  · rfl

theorem allocCluster_past (hr : Refines fs fs.volume) (hlow : fs.fatLba < 2 ^ 16)
    (hhint : fs.totalClusters + 2 < fs.nextFreeHint) (hprev : prev < fs.totalClusters + 2) :
    AllocOutcome prev fs (fat32AllocCluster prev fs).1 (fat32AllocCluster prev fs).2.volume := by
  -- the first search has no round, the second one goes through the volume and on to the hint
  have hlimit : (fs.totalClusters + 2) % uintSize - fs.nextFreeHint = 0 := by
    have hmod := Nat.mod_le (fs.totalClusters + 2) uintSize
    omega
  have hsplit : fs.nextFreeHint - 2 = fs.totalClusters + (fs.nextFreeHint - (fs.totalClusters + 2)) := by omega
  have hcall (found : Option ℕ) (t : Fat32Fs) (h : scanFree (fs.nextFreeHint - 2) 2 fs = (found, t)) :
      fat32AllocCluster prev fs = (found.getD 0, found.elim t fun c => takeCluster prev c t) := by
    rw [fat32AllocCluster, if_pos (by omega), hlimit]
    simp only [scanFree, h]
    cases found <;> rfl
  obtain ⟨hfound, hafter⟩ := scanFree_spec (c := 2) (n := fs.totalClusters) hr (Nat.add_comm 2 _).le
  rw [hsplit, scanFree_add] at hcall
  cases hscan : scanFree fs.totalClusters 2 fs with
  | mk found t =>
    rw [hscan] at hfound hafter hcall
    cases found with
    | some c =>
      rw [hcall (some c) t rfl]
      obtain ⟨hle, hlt, hfree, hbefore⟩ := search_some hfound.symm
      have hc : fs.volume.Free c := ⟨⟨hle, (Nat.add_comm 2 _).symm ▸ hlt⟩, of_decide_eq_true hfree⟩
      obtain ⟨hstep, hdata⟩ := allocates_take prev hc
      have htaken := (takeCluster_spec hafter hc.1 hprev).volume
      refine .below (fun x hx => hx.1.2.trans hhint) (by rw [← htaken] at hstep; exact hstep)
        (by rw [← htaken] at hdata; exact hdata) fun x hx => ?_
      by_contra hxc
      exact of_decide_eq_false (hbefore x hx.1.1 (Nat.lt_of_not_le hxc)) hx.2
    | none =>
      have hfull (x : ℕ) (hx : fs.volume.Free x) : False := by
        have hused := search_none hfound.symm hx.1.1 (by rw [Nat.add_comm]; exact hx.1.2)
        exact of_decide_eq_false hused hx.2
      have htable : SameSectors fs t := by
        have hall := (scanFree_sectors (n := fs.totalClusters) (c := 2) hr.sound.coherent hlow).2
        rwa [hscan] at hall
      obtain ⟨hpast, hlast⟩ := scanFree_sectors (n := fs.nextFreeHint - (fs.totalClusters + 2))
        (c := 2 + fs.totalClusters) hafter.sound.coherent (by rw [htable.fatLba_eq]; exact hlow)
      rw [search_congr fun j => by rw [htable.tableEntry_eq hlow]] at hpast
      rw [if_pos rfl] at hcall
      cases hscan' : scanFree (fs.nextFreeHint - (fs.totalClusters + 2)) (2 + fs.totalClusters) t with
      | mk found' t' =>
        rw [hscan'] at hpast hlast
        rw [hcall found' t' hscan']
        cases found' with
        | some c =>
          obtain ⟨hle, hlt, hfree, -⟩ := search_some hpast.symm
          exact .past hfull (show _ ≤ c by omega) (show c < _ by omega) (of_decide_eq_true hfree)
        | none =>
          refine .full rfl hfull ((htable.trans hlast).fat_eq hr.sound) fun x hle hlt => ?_
          have hused := search_none (i := x) hpast.symm (by omega) (by omega)
          exact of_decide_eq_false hused

/-- A volume with sound geometry allocates as it should for every hint exactly when a cluster is free from the
hint on, or the first free cluster is clear already, or nothing is free and no entry that the search reads past
the volume looks free. -/
theorem allocCluster_correct_iff (hs : Sound fs) (hlow : fs.fatLba < 2 ^ 16)
    (hprev : prev = 0 ∨ (fs.volume.InRange prev ∧ fs.volume.fat prev ≠ fatFree)) :
    AllocCorrect prev fs.volume (fat32AllocCluster prev fs).1 (fat32AllocCluster prev fs).2.volume ↔
      (∃ x, fs.volume.Free x ∧ fs.nextFreeHint ≤ x) ∨
      (∃ x, fs.volume.Free x ∧ (∀ y, fs.volume.Free y → x ≤ y) ∧ ∀ j < fs.bytesPerCluster, fs.volume.data x j = 0) ∨
      ((∀ x, ¬ fs.volume.Free x) ∧
        ∀ x, fs.totalClusters + 2 ≤ x → x < fs.nextFreeHint → tableEntry fs x ≠ fatFree) := by
  have hr : Refines fs fs.volume := ⟨hs, rfl⟩
  have hlt : prev < fs.totalClusters + 2 := by
    rcases hprev with rfl | hused
    · omega
    · exact hused.1.2
  have hused : prev = 0 ∨ fs.volume.fat prev ≠ 0 := hprev.imp_right And.right
  have hout : AllocOutcome prev fs (fat32AllocCluster prev fs).1 (fat32AllocCluster prev fs).2.volume := by
    rcases Nat.lt_or_ge (fs.totalClusters + 2) fs.nextFreeHint with hbig | hsmall
    · exact allocCluster_past hr hlow hbig hlt
    · exact allocCluster_inside hr hsmall hlt
  cases hout with
  | above hle hstep hzero =>
    rw [hstep.correct_iff hused]
    exact iff_of_true (fun j _ => hzero j) (.inl ⟨_, hstep.free, hle⟩)
  | below hbefore hstep hdata hleast =>
    rw [hstep.correct_iff hused, hdata]
    constructor
    · exact fun hzero => .inr (.inl ⟨_, hstep.free, hleast, hzero⟩)
    · rintro (⟨x, hx, hge⟩ | ⟨x, hx, hxleast, hzero⟩ | ⟨hfull, -⟩)
      · exact absurd (hbefore x hx) (Nat.not_lt.mpr hge)
      · rw [Nat.le_antisymm (hleast x hx) (hxleast _ hstep.free)]
        exact hzero
      · exact absurd hstep.free (hfull _)
  | full hzero hfull hsame hpast =>
    refine iff_of_true ?_ (.inr (.inr ⟨hfull, hpast⟩))
    exact ⟨iff_of_true hzero hfull, fun _ => hsame, fun hne => absurd hzero hne, fun hne => absurd hzero hne,
      fun hne => absurd hzero hne, fun hne => absurd hzero hne, fun hne => absurd hzero hne⟩
  | past hfull hle hlt hfree =>
    refine iff_of_false (fun hcorrect => ?_) ?_
    · have hzero := hcorrect.full.mpr hfull
      omega
    · rintro (⟨x, hx, -⟩ | ⟨x, hx, -⟩ | ⟨-, hpast⟩)
      · exact hfull x hx
      · exact hfull x hx
      · exact hpast _ hle hlt hfree

/-- A volume whose cluster 3 is free and still holds what a deleted file left there. -/
def freedFs (hint : ℕ) : Fat32Fs := twoClusters (putLE 4 8 fatEoc fun _ => 0) (fun _ => 0) (fun _ => 7) hint

theorem allocCluster_correct_freed : AllocCorrect 0 (freedFs 2).volume (fat32AllocCluster 0 (freedFs 2)).1
    (fat32AllocCluster 0 (freedFs 2)).2.volume :=
  (allocCluster_correct_iff (sound_twoClusters _ _ _ _) (by decide) (.inl rfl)).mpr
    (.inl ⟨3, ⟨by decide, by decide +kernel⟩, by decide⟩)

/-- With the hint past cluster 3 the cluster is handed out with the old bytes in it. -/
theorem allocCluster_stale : ¬ AllocCorrect 0 (freedFs 4).volume (fat32AllocCluster 0 (freedFs 4)).1
    (fat32AllocCluster 0 (freedFs 4)).2.volume := by
  intro hcorrect
  have hzero := hcorrect.zero (by decide +kernel) 0 (by decide)
  exact absurd hzero (by decide +kernel)

end AetherOs.Fat32
