import AetherOs.Fat32.FileData

/-! # The entries of a directory -/

namespace AetherOs.Fat32

open Base Volume Function List

namespace Volume

def perCluster (v : Volume) : ℕ := v.clusterSize / direntSize

def slot (v : Volume) (D : List ℕ) (i : ℕ) : ℕ → UInt8 := fun k =>
  if k < direntSize then byteAt v D (i * direntSize + k) else 0

def slotCluster (v : Volume) (D : List ℕ) (i : ℕ) : ℕ := D.getD (i / v.perCluster) 0

def setSlot (D : List ℕ) (i : ℕ) (de : ℕ → UInt8) (v : Volume) : Volume :=
  v.setData (v.slotCluster D i) (splice (v.data (v.slotCluster D i)) (i % v.perCluster * direntSize) direntSize de)

structure Aligned (v : Volume) : Prop where
  two : 2 ≤ v.perCluster
  mul : v.perCluster * direntSize = v.clusterSize

variable {v v' : Volume} {c i j k : ℕ} {D : List ℕ} {de buf buf' : ℕ → UInt8}

theorem SameShape.perCluster (h : SameShape v v') : v'.perCluster = v.perCluster := by
  rw [Volume.perCluster, Volume.perCluster, h.clusterSize]

theorem slotCluster_mem (hi : i < D.length * v.perCluster) : v.slotCluster D i ∈ D := by
  have hlt : i / v.perCluster < D.length := Nat.div_lt_of_lt_mul (by rw [Nat.mul_comm]; exact hi)
  rw [slotCluster, getD_eq_getElem _ _ hlt]
  exact getElem_mem hlt

theorem SameShape.setSlot (D : List ℕ) (i : ℕ) (de : ℕ → UInt8) : SameShape v (v.setSlot D i de) := ⟨rfl, rfl, rfl⟩

theorem data_setSlot (hc : c ≠ v.slotCluster D i) : (v.setSlot D i de).data c = v.data c :=
  update_of_ne hc _ _

section

variable (h : Aligned v)
include h

theorem Aligned.pos : 0 < v.perCluster := Nat.lt_of_lt_of_le Nat.two_pos h.two

theorem Aligned.size_pos : 0 < v.clusterSize := by
  rw [← h.mul]
  exact Nat.mul_pos h.pos (by decide)

theorem Aligned.congr (hshape : SameShape v v') : Aligned v' := by
  have hper := hshape.perCluster
  exact ⟨by rw [hper]; exact h.two, by rw [hper, hshape.clusterSize]; exact h.mul⟩

theorem Aligned.position (i : ℕ) (hk : k < direntSize) :
    (i * direntSize + k) / v.clusterSize = i / v.perCluster ∧
      (i * direntSize + k) % v.clusterSize = i % v.perCluster * direntSize + k := by
  have hmod := Nat.mod_lt i h.pos
  have hsplit : i * direntSize + k = i / v.perCluster * v.clusterSize + (i % v.perCluster * direntSize + k) := by
    have hdiv := Nat.div_add_mod' i v.perCluster
    calc i * direntSize + k
        = (i / v.perCluster * v.perCluster + i % v.perCluster) * direntSize + k := by rw [hdiv]
      _ = i / v.perCluster * v.clusterSize + (i % v.perCluster * direntSize + k) := by
          rw [Nat.add_mul, Nat.mul_assoc, h.mul, Nat.add_assoc]
  have hlt : i % v.perCluster * direntSize + k < v.clusterSize := by
    have hle : (i % v.perCluster + 1) * direntSize ≤ v.clusterSize := by
      rw [← h.mul]
      exact Nat.mul_le_mul_right _ hmod
    rw [Nat.add_mul, Nat.one_mul] at hle
    omega
  rw [hsplit]
  exact position_div hlt

theorem slot_eq_direntAt (hk : k < direntSize) :
    slot v D i k = direntAt (v.data (v.slotCluster D i)) (i % v.perCluster) k := by
  obtain ⟨hdiv, hmod⟩ := h.position i hk
  rw [slot, if_pos hk, byteAt, hdiv, hmod]
  rfl

theorem slot_setSlot (hD : D.Nodup) (hi : i < D.length * v.perCluster)
    (hj : j < D.length * v.perCluster) : slot (v.setSlot D i de) D j =
      if j = i then fun k => if k < direntSize then de k else 0 else slot v D j := by
  have h' : Aligned (v.setSlot D i de) := h.congr (.setSlot D i de)
  funext k
  by_cases hk : k < direntSize
  · have hfits : j % v.perCluster * direntSize + k < v.clusterSize := by
      rw [← (h.position j hk).2]
      exact Nat.mod_lt _ h.size_pos
    have hread : slot (v.setSlot D i de) D j k =
        (v.setSlot D i de).data (v.slotCluster D j) (j % v.perCluster * direntSize + k) := slot_eq_direntAt h' hk
    have hold : slot v D j k = v.data (v.slotCluster D j) (j % v.perCluster * direntSize + k) := slot_eq_direntAt h hk
    rw [hread]
    by_cases hcluster : v.slotCluster D j = v.slotCluster D i
    · have hdiv : j / v.perCluster = i / v.perCluster := by
        have hlti : i / v.perCluster < D.length := Nat.div_lt_of_lt_mul (by rw [Nat.mul_comm]; exact hi)
        have hltj : j / v.perCluster < D.length := Nat.div_lt_of_lt_mul (by rw [Nat.mul_comm]; exact hj)
        rw [slotCluster, slotCluster, getD_eq_getElem _ _ hlti, getD_eq_getElem _ _ hltj] at hcluster
        exact (List.Nodup.getElem_inj_iff hD).mp hcluster
      have hset : (v.setSlot D i de).data (v.slotCluster D i) (j % v.perCluster * direntSize + k) =
          splice (v.data (v.slotCluster D i)) (i % v.perCluster * direntSize) direntSize de
            (j % v.perCluster * direntSize + k) := by
        change update v.data _ _ _ _ = _
        rw [update_self, if_pos hfits]
      rw [hcluster, hset]
      by_cases hji : j = i
      · subst hji
        rw [splice_inside (Nat.le_add_right _ _) (by omega), if_pos rfl, if_pos hk, Nat.add_sub_cancel_left]
      · have hmod : j % v.perCluster ≠ i % v.perCluster := fun hmod => hji (by
          rw [← Nat.div_add_mod j v.perCluster, ← Nat.div_add_mod i v.perCluster, hdiv, hmod])
        rw [splice_outside (by simp only [direntSize] at hk ⊢; omega), if_neg hji, hold, hcluster]
    · have hji : j ≠ i := fun heq => hcluster (by rw [heq])
      rw [data_setSlot hcluster, if_neg hji, hold]
  · have hzero : ∀ w : Volume, slot w D j k = 0 := fun w => if_neg hk
    rw [hzero]
    split
    · exact (if_neg hk).symm
    · exact (hzero v).symm

end

theorem slot_congr (hshape : SameShape v v') (hdata : ∀ x ∈ D, v'.data x = v.data x) (h : Aligned v)
    (hi : i < D.length * v.perCluster) : slot v' D i = slot v D i := by
  have hper := hshape.perCluster
  funext k
  by_cases hk : k < direntSize
  · have hcluster : v'.slotCluster D i = v.slotCluster D i := by rw [slotCluster, slotCluster, hper]
    rw [slot_eq_direntAt (h.congr hshape) hk, slot_eq_direntAt h hk, hcluster, hper,
      hdata _ (slotCluster_mem hi)]
  · rw [slot, slot, if_neg hk, if_neg hk]

theorem setData_congr (h : ∀ j < v.clusterSize, buf j = buf' j) : v.setData c buf = v.setData c buf' := by
  rw [setData, setData]
  congr 2
  funext j
  split
  · exact h j ‹_›
  · rfl

end Volume

variable {fs : Fat32Fs} {v : Volume} {d f i n : ℕ} {D post : List ℕ}

theorem Refines.aligned (h : Refines fs v) : Aligned v := by
  have hsize : v.clusterSize = fs.sectorsPerCluster * 16 * direntSize := by
    rw [← h.size, h.sound.size, Nat.mul_assoc]
    rfl
  have hper : v.perCluster = fs.sectorsPerCluster * 16 := by
    rw [perCluster, hsize, Nat.mul_div_cancel _ (by decide)]
  refine ⟨?_, by rw [hper, hsize]⟩
  have hsectors := h.sound.sectors
  rw [hper]
  omega

theorem Refines.perCluster (h : Refines fs v) : entriesPerCluster fs = v.perCluster := by
  rw [entriesPerCluster, Volume.perCluster, h.size]

structure StopsAtEnd (stop : ℕ → Bool) : Prop where
  ends : ∀ x, fatEocMin ≤ x → stop x = true
  goes : ∀ x, 2 ≤ x → x < fatEocMin → stop x = false

theorem stopsAtEnd_isEoc : StopsAtEnd isEoc :=
  ⟨fun _ hx => decide_eq_true hx, fun _ _ hx => decide_eq_false (Nat.not_le.mpr hx)⟩

theorem stopsAtEnd_isEnd : StopsAtEnd isEnd :=
  ⟨fun x hx => by rw [isEnd, decide_eq_true hx, Bool.true_or],
    fun x hle hlt => by rw [isEnd, decide_eq_false (by omega), decide_eq_false (by omega), Bool.or_false]⟩

theorem followChain_spec {stop : ℕ → Bool} (hstop : StopsAtEnd stop) (h : Refines fs v)
    (hl : FileChain v f (pre ++ c :: post)) :
    (followChain stop n c fs).1 = (c :: post)[n]? ∧ Refines (followChain stop n c fs).2 v := by
  induction n generalizing c fs pre post with
  | zero => exact ⟨rfl, h⟩
  | succ n ih =>
    have hc := hl.range c (by simp)
    obtain ⟨hnext, hrefines⟩ := nextCluster_spec h hc.2
    rw [followChain]
    rcases hl.next with ⟨rfl, hend⟩ | ⟨d, rest, rfl, hfat⟩
    · simp only [hnext, hstop.ends _ hend, if_true]
      exact ⟨by simp, hrefines⟩
    · have hd := hl.range d (by simp)
      have hgo : stop (v.fat c) = false := by
        rw [hfat]
        exact hstop.goes d hd.1 (h.inRange_lt hd)
      simp only [hnext, hgo, Bool.false_eq_true, if_false]
      have hl' : FileChain v f ((pre ++ [c]) ++ d :: rest) := by simpa using hl
      rw [hfat]
      simpa using ih hrefines hl'

theorem followChain_slot {stop : ℕ → Bool} (hstop : StopsAtEnd stop) (h : Refines fs v) (hD : FileChain v d D)
    (hd : 2 ≤ d) :
    (followChain stop (i / entriesPerCluster fs) d fs).1 =
        (if i < D.length * v.perCluster then some (v.slotCluster D i) else none) ∧
      Refines (followChain stop (i / entriesPerCluster fs) d fs).2 v := by
  obtain ⟨rest, rfl⟩ := hD.exists_cons hd
  have hD' : FileChain v d ([] ++ d :: rest) := hD
  rw [h.perCluster]
  obtain ⟨hfound, hrefines⟩ := followChain_spec (n := i / v.perCluster) hstop h hD'
  refine ⟨?_, hrefines⟩
  rw [hfound]
  by_cases hi : i < (d :: rest).length * v.perCluster
  · have hlt : i / v.perCluster < (d :: rest).length := Nat.div_lt_of_lt_mul (by rw [Nat.mul_comm]; exact hi)
    rw [if_pos hi, slotCluster, List.getElem?_eq_getElem hlt, getD_eq_getElem _ _ hlt]
  · have hge : (d :: rest).length ≤ i / v.perCluster := by
      rw [Nat.le_div_iff_mul_le h.aligned.pos]
      omega
    rw [if_neg hi, List.getElem?_eq_none hge]

theorem fat3283ToStr_congr {de de' : ℕ → UInt8} (h : ∀ k < 11, de k = de' k) : fat3283ToStr de = fat3283ToStr de' := by
  have hcut : ∀ n off, n + off ≤ 11 → trimmed n off de = trimmed n off de' := by
    intro n off hle
    rw [trimmed, trimmed]
    congr 1
    refine map_congr_left fun j hj => h _ ?_
    rw [mem_range] at hj
    omega
  rw [fat3283ToStr, fat3283ToStr, hcut 3 8 (by decide), hcut 8 0 (by decide)]

theorem direntVisible_congr {de de' : ℕ → UInt8} (hzero : de 0 = de' 0) (hattr : de 11 = de' 11) :
    direntVisible de = direntVisible de' := by
  rw [direntVisible, direntVisible, direntAttr, direntAttr, hzero, hattr]

theorem dirent_congr {de de' : ℕ → UInt8} (h : ∀ k < direntSize, de k = de' k) :
    fat3283ToStr de = fat3283ToStr de' ∧ direntAttr de = direntAttr de' ∧ direntCluster de = direntCluster de' ∧
      direntFileSize de = direntFileSize de' ∧ direntVisible de = direntVisible de' := by
  have hattr : direntAttr de = direntAttr de' := by rw [direntAttr, direntAttr, h 11 (by decide)]
  have hnum : ∀ n off, n + off ≤ direntSize → leNat de n off = leNat de' n off := fun n off hle =>
    leNat_congr fun j _ hj => h j (by omega)
  refine ⟨?_, hattr, ?_, ?_, ?_⟩
  · exact fat3283ToStr_congr fun k hk => h k (Nat.lt_trans hk (by decide))
  · rw [direntCluster, direntCluster, hnum 2 20 (by decide), hnum 2 26 (by decide)]
  · rw [direntFileSize, direntFileSize, hnum 4 28 (by decide)]
  · exact direntVisible_congr (h 0 (by decide)) (h 11 (by decide))

theorem parseDirent_congr {de de' : ℕ → UInt8} (h : ∀ k < direntSize, de k = de' k) : parseDirent de = parseDirent de' := by
  obtain ⟨hname, hattr, hcluster, hsize, hvisible⟩ := dirent_congr h
  rw [parseDirent, parseDirent, hname, hattr, hcluster, hsize, hvisible, h 0 (by decide)]

theorem readDirEntry_spec (h : Refines fs v) (hD : FileChain v d D) (hd : 2 ≤ d) :
    (fat32ReadDirEntry d i fs).1 = (if i < D.length * v.perCluster then parseDirent (slot v D i) else .finish) ∧
      Refines (fat32ReadDirEntry d i fs).2 v := by
  obtain ⟨hfound, hrefines⟩ := followChain_slot (i := i) stopsAtEnd_isEoc h hD hd
  rw [fat32ReadDirEntry]
  cases hwalk : followChain isEoc (i / entriesPerCluster fs) d fs with
  | mk found t =>
    rw [hwalk] at hfound hrefines
    simp only at hfound hrefines ⊢
    subst hfound
    by_cases hi : i < D.length * v.perCluster
    · obtain ⟨buf, hread, hbuf⟩ := readCluster_spec hrefines (hD.range _ (slotCluster_mem hi))
      simp only [if_pos hi, hread, hrefines.perCluster]
      refine ⟨parseDirent_congr fun k hk => ?_, hrefines⟩
      have hlt : i % v.perCluster * direntSize + k < v.clusterSize := by
        rw [← (h.aligned.position i hk).2]
        exact Nat.mod_lt _ h.size_pos
      rw [slot_eq_direntAt h.aligned hk]
      exact hbuf _ hlt
    · simp only [if_neg hi, true_and]
      exact hrefines

theorem Volume.Aligned.fits (h : Aligned v) (i : ℕ) : i % v.perCluster * direntSize + direntSize ≤ v.clusterSize := by
  have hle : (i % v.perCluster + 1) * direntSize ≤ v.clusterSize := by
    rw [← h.mul]
    exact Nat.mul_le_mul_right _ (Nat.mod_lt i h.pos)
  rw [Nat.add_mul, Nat.one_mul] at hle
  exact hle

theorem setData_splice {buf de de' : ℕ → UInt8} (hbuf : ∀ j < v.clusterSize, buf j = v.data (v.slotCluster D i) j)
    (hde : ∀ k < direntSize, de k = de' k) :
    v.setData (v.slotCluster D i) (splice buf (i % v.perCluster * direntSize) direntSize de) = v.setSlot D i de' := by
  refine setData_congr fun j hj => ?_
  by_cases hin : i % v.perCluster * direntSize ≤ j ∧ j < i % v.perCluster * direntSize + direntSize
  · rw [splice_inside hin.1 hin.2, splice_inside hin.1 hin.2, hde _ (by omega)]
  · rw [splice_outside (by omega), splice_outside (by omega), hbuf j hj]

theorem writeDirentAt_spec (de : ℕ → UInt8) (h : Refines fs v) (hD : FileChain v d D) (hd : 2 ≤ d)
    (hi : i < D.length * v.perCluster) :
    (fat32WriteDirentAt d i de fs).1 = 0 ∧ Refines (fat32WriteDirentAt d i de fs).2 (v.setSlot D i de) := by
  obtain ⟨hfound, hrefines⟩ := followChain_slot (i := i) stopsAtEnd_isEnd h hD hd
  have hper := h.perCluster
  rw [fat32WriteDirentAt]
  cases hwalk : followChain isEnd (i / entriesPerCluster fs) d fs with
  | mk found t =>
    rw [hwalk] at hfound hrefines
    simp only at hfound hrefines ⊢
    rw [if_pos hi] at hfound
    subst hfound
    have hc := hD.range _ (slotCluster_mem hi)
    obtain ⟨buf, hread, hbuf⟩ := readCluster_spec hrefines hc
    obtain ⟨u, hwrite, hdone⟩ := writeCluster_spec hrefines hc (splice buf (i % v.perCluster * direntSize) direntSize de)
    simp only [hread, hper, hwrite, true_and]
    rwa [setData_splice hbuf fun _ _ => rfl] at hdone

theorem updateDirent_congr {size cluster k : ℕ} {de de' : ℕ → UInt8} (h : de k = de' k) :
    updateDirent size cluster de k = updateDirent size cluster de' k := by
  simp only [updateDirent, putLE, splice, h]

theorem writeBack_spec {node : Fat32Node} (h : Refines fs v) (hD : FileChain v node.dirCluster D) :
    Refines (writeBack node fs)
      (if node.direntIdx ≠ noDirent ∧ node.direntIdx < D.length * v.perCluster then
        v.setSlot D node.direntIdx (updateDirent (node.size % uintSize) node.inode (slot v D node.direntIdx)) else v) := by
  have hper := h.perCluster
  rw [writeBack]
  by_cases hzero : node.dirCluster = 0
  · rw [hzero] at hD
    obtain rfl : D = [] := hD.walk.of_null
    rw [if_neg (by simp [hzero]), if_neg (by simp)]
    exact h
  by_cases hidx : node.direntIdx = noDirent
  · rw [if_neg (by simp [hidx]), if_neg (by simp [hidx])]
    exact h
  rw [if_pos ⟨hzero, hidx⟩]
  have hd : 2 ≤ node.dirCluster := by
    obtain ⟨rest, rfl, -⟩ := hD.walk.of_ne_null hzero
    exact (hD.range _ mem_cons_self).1
  obtain ⟨hfound, hrefines⟩ := followChain_slot (i := node.direntIdx) stopsAtEnd_isEnd h hD hd
  cases hwalk : followChain isEnd (node.direntIdx / entriesPerCluster fs) node.dirCluster fs with
  | mk found t =>
    rw [hwalk] at hfound hrefines
    simp only at hfound hrefines ⊢
    subst hfound
    by_cases hi : node.direntIdx < D.length * v.perCluster
    · have hc := hD.range _ (slotCluster_mem hi)
      obtain ⟨buf, hread, hbuf⟩ := readCluster_spec hrefines hc
      obtain ⟨u, hwrite, hdone⟩ := writeCluster_spec hrefines hc
        (splice buf (node.direntIdx % v.perCluster * direntSize) direntSize
          (updateDirent (node.size % uintSize) node.inode (direntAt buf (node.direntIdx % v.perCluster))))
      simp only [if_pos hi, hread, hper, hwrite, Option.getD_some, if_pos (And.intro hidx hi)]
      rw [setData_splice hbuf fun k hk => updateDirent_congr ?_] at hdone
      · exact hdone
      · rw [slot_eq_direntAt h.aligned hk]
        have hfits := h.aligned.fits node.direntIdx
        exact hbuf _ (by omega)
    · simp only [if_neg hi, if_neg fun hboth : node.direntIdx ≠ noDirent ∧ _ => hi hboth.2]
      exact hrefines

end AetherOs.Fat32
