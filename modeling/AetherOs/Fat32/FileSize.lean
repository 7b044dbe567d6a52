import AetherOs.Fat32.Ownership

/-! # The size of a file after a write -/

namespace AetherOs.Fat32

open Base Volume List

/-- What a write owes to the size of its file, in the node and in the slot of its directory `D`. A write that
fails also owes that the clusters it took are free again or reached from the slot. -/
def SizeFollows (v : Volume) (D : List ℕ) (node : Fat32Node) (offset : ℕ) (r : (ℤ × Fat32Node) × Fat32Fs) : Prop :=
  if 0 ≤ r.1.1 then
    r.1.2.size = max node.size (offset + r.1.1.toNat) ∧ direntFileSize (slot r.2.volume D node.direntIdx) = r.1.2.size
  else
    r.1.2.size = node.size ∧ direntFileSize (slot r.2.volume D node.direntIdx) = node.size ∧
      ∀ x, v.Free x → r.2.volume.Free x ∨
        ∃ m, OwnChain r.2.volume (direntCluster (slot r.2.volume D node.direntIdx)) m ∧ x ∈ m

variable {v v' : Volume} {D l l' : List ℕ} {c offset : ℕ} {node : Fat32Node} {fs : Fat32Fs} {buf : List UInt8}

namespace Volume

theorem Extends.length_le (h : Extends v v' l l') (hl' : FileChain v' c l') :
    l'.length ≤ l.length + v.freeCount := by
  obtain ⟨added, rfl, hfree⟩ := h.added
  have hle := le_freeCount (nodup_append.mp hl'.nodup).2.1 hfree
  rw [length_append]
  omega

end Volume

theorem direntFileSize_recordFile (h : Aligned v) (hD : D.Nodup) (hidx : node.direntIdx ≠ noDirent)
    (hin : node.direntIdx < D.length * v.perCluster) (hsize : node.size < uintSize) :
    direntFileSize (slot (v.recordFile D node) D node.direntIdx) = node.size := by
  rw [recordFile, if_pos ⟨hidx, hin⟩, slot_setSlot h hD hin hin, if_pos rfl,
    (dirent_congr fun k hk => if_pos hk).2.2.2.1, direntFileSize, updateDirent, leNat_putLE_disjoint (by decide),
    leNat_putLE_disjoint (by decide), leNat_putLE, Nat.mod_eq_of_lt hsize]
  exact Nat.mod_eq_of_lt hsize

/-- The size follows a write exactly if there are clusters enough for all of it, or if there are too few to reach
the offset and the file has a first cluster or can not get one. -/
theorem vfsWrite_size_iff (hs : Sound fs) (hhint : fs.nextFreeHint ≤ fs.totalClusters + 2)
    (hfile : node.directory = false) (hl : OwnChain fs.volume node.inode l)
    (hlong : node.size ≤ l.length * fs.bytesPerCluster) (hD : FileChain fs.volume node.dirCluster D)
    (hdis : List.Disjoint D l) (hidx : node.direntIdx ≠ noDirent)
    (hslot : node.direntIdx < D.length * fs.volume.perCluster)
    (hsize : direntFileSize (slot fs.volume D node.direntIdx) = node.size)
    (hfirst : direntCluster (slot fs.volume D node.direntIdx) = node.inode) (hbuf : buf ≠ [])
    (hend : offset + buf.length < uintSize) :
    SizeFollows fs.volume D node offset (fat32VfsWrite node offset buf fs) ↔
      offset + buf.length ≤ (l.length + fs.volume.freeCount) * fs.bytesPerCluster ∨
        (l.length + fs.volume.freeCount) * fs.bytesPerCluster ≤ offset ∧
          (2 ≤ node.inode ∨ fs.volume.freeCount = 0) := by
  have h : Refines fs fs.volume := ⟨hs, rfl⟩
  have hlen : 0 < buf.length := length_pos_iff.mpr hbuf
  have hneg : ¬ 0 ≤ -enospc := by decide
  rw [h.size] at hlong ⊢
  rcases vfsWrite_spec node offset h hhint hfile hbuf hl hD hdis with ⟨t, hrun, ht, hlt, hnone⟩ |
    ⟨c, v', l', hc, hsame, hl', hext, hout⟩
  · rw [hrun, SizeFollows, if_neg hneg]
    have hzero : fs.volume.freeCount ≤ 0 := freeCount_le (l := []) fun x hx => absurd hx (hnone x)
    obtain ⟨-, rfl⟩ | ⟨hge, -⟩ := hl
    · refine iff_of_true ⟨rfl, ?_, fun x hx => absurd hx (hnone x)⟩ (.inr ⟨?_, .inr (by omega)⟩)
      · rw [ht.volume]
        exact hsize
      · rw [length_nil, show fs.volume.freeCount = 0 by omega]
        omega
    · omega
  have hmem := hl'.head_mem hc
  have hkept : slot v' D node.direntIdx = slot fs.volume D node.direntIdx :=
    slot_congr hext.shape (fun x hx => hext.data x fun hbad => hext.disjoint hD hdis hx hbad) h.aligned hslot
  rcases hout with ⟨t, hrun, ht, hskip, hfull⟩ | ⟨done, t, hrun, hdone, ht, hwritten, hstop⟩
  · have hge := hext.length_ge hl hfull
    have hfar : (l.length + fs.volume.freeCount) * fs.volume.clusterSize ≤ offset :=
      calc _ ≤ offset / fs.volume.clusterSize * fs.volume.clusterSize :=
            Nat.mul_le_mul_right _ (hge.trans (hskip.trans (Nat.mod_le _ _)))
        _ ≤ offset := Nat.div_mul_le_self _ _
    rw [hrun, SizeFollows, if_neg hneg, ht.volume, hkept, hfirst]
    by_cases htwo : 2 ≤ node.inode
    · refine iff_of_true ⟨rfl, hsize, fun x hx => ?_⟩ (.inr ⟨hfar, .inl htwo⟩)
      by_cases hx' : x ∈ l'
      · exact .inr ⟨l', .inr ⟨htwo, hsame htwo ▸ hl'⟩, hx'⟩
      · exact .inl ⟨hext.shape.inRange.mpr hx.1, (hext.fat x hx').trans hx.2⟩
    · -- The first cluster was taken, and the slot does not lead to it.
      obtain ⟨-, rfl⟩ | ⟨hge, -⟩ := hl
      · obtain ⟨added, rfl, hfree⟩ := hext.added
        have hpos := le_freeCount (nodup_singleton c) fun x hx => mem_singleton.mp hx ▸ hfree c hmem
        rw [length_singleton] at hpos
        refine iff_of_false (fun hbad => ?_) (by omega)
        rcases hbad.2.2 c (hfree c hmem) with hfree' | ⟨m, hm, hin⟩
        · exact hfull c hfree'
        · rcases hm with ⟨-, rfl⟩ | ⟨hge, -⟩
          · exact absurd hin not_mem_nil
          · omega
      · omega
  · rw [position_eq (by omega)] at hwritten hstop
    have hgrown : (grownNode node c offset buf.length).size = max node.size (offset + buf.length) :=
      grownNode_size hend
    have hsmall : node.size < uintSize := hsize ▸ leNat_lt
    have hrecord : direntFileSize (slot t.volume D node.direntIdx) = (grownNode node c offset buf.length).size := by
      rw [ht.volume]
      exact direntFileSize_recordFile (h.aligned.congr hext.shape) hD.nodup hidx (hext.shape.perCluster ▸ hslot) (by rw [hgrown]; omega)
    have hwithin := hwritten.within
    have hle := Nat.mul_le_mul_right fs.volume.clusterSize (hext.length_le hl')
    rw [length_take, Nat.min_eq_left hdone] at hwithin
    rw [hrun, SizeFollows, if_pos (Int.natCast_nonneg done), hrecord, hgrown, Int.toNat_natCast]
    rcases hstop with rfl | ⟨hpos, hexact, hfull⟩
    · exact iff_of_true ⟨rfl, rfl⟩ (.inl (by omega))
    · have hge := Nat.mul_le_mul_right fs.volume.clusterSize (hext.length_ge hl hfull)
      rw [Nat.add_mul] at hle hge ⊢
      omega

/-- A write inside the only cluster of a file. -/
theorem vfsWrite_size_abc : SizeFollows abcFs.volume [2] abcNode 1 (fat32VfsWrite abcNode 1 [88, 89, 90] abcFs) :=
  (vfsWrite_size_iff (sound_twoClusters _ _ _ _) (by decide) rfl abcFs_file (by decide) abcFs_root (by simp) (by decide)
    (by decide) (by decide +kernel) (by decide +kernel) (by decide) (by decide)).mpr (.inl (by decide +kernel))

/-- Four bytes are written from byte 510 on and no cluster is free. Two bytes are written, and the size counts
four. -/
theorem vfsWrite_size_short : Sound abcFs ∧ OwnChain abcFs.volume abcNode.inode [3] ∧
    FileChain abcFs.volume abcNode.dirCluster [2] ∧
    (fat32VfsWrite abcNode 510 [1, 2, 3, 4] abcFs).1.1 = 2 ∧
    (fat32VfsWrite abcNode 510 [1, 2, 3, 4] abcFs).1.2.size = 514 ∧
    ¬ SizeFollows abcFs.volume [2] abcNode 510 (fat32VfsWrite abcNode 510 [1, 2, 3, 4] abcFs) := by
  have hwritten : (fat32VfsWrite abcNode 510 [1, 2, 3, 4] abcFs).1.1 = 2 := by decide +kernel
  have hsize : (fat32VfsWrite abcNode 510 [1, 2, 3, 4] abcFs).1.2.size = 514 := by decide +kernel
  refine ⟨sound_twoClusters _ _ _ _, abcFs_file, abcFs_root, hwritten, hsize, ?_⟩
  rw [SizeFollows, hwritten, hsize, if_pos (by decide)]
  exact fun hbad => absurd hbad.1 (by decide)

end AetherOs.Fat32
