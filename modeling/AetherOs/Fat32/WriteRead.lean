import AetherOs.Fat32.Slots

/-! # Reading what was written -/

namespace AetherOs.Fat32

open Base Fs Volume Function List

namespace Volume

def OwnChain (v : Volume) (c : ℕ) (l : List ℕ) : Prop := (c < 2 ∧ l = []) ∨ (2 ≤ c ∧ FileChain v c l)

def recordFile (D : List ℕ) (node : Fat32Node) (v : Volume) : Volume :=
  if node.direntIdx ≠ noDirent ∧ node.direntIdx < D.length * v.perCluster then
    v.setSlot D node.direntIdx (updateDirent (node.size % uintSize) node.inode (slot v D node.direntIdx))
  else v

def InEntry (v : Volume) (D : List ℕ) (node : Fat32Node) (x j : ℕ) : Prop :=
  x = v.slotCluster D node.direntIdx ∧ node.direntIdx % v.perCluster * direntSize ≤ j ∧
    j < node.direntIdx % v.perCluster * direntSize + direntSize

variable {v v' w : Volume} {x j p : ℕ} {D l l' : List ℕ} {node : Fat32Node} {src : List UInt8}

theorem Written.after {l'' : List ℕ} (h : Written v' w l' l'' p src) (hext : Extends v v' l l')
    (hdata : ∀ x ∈ l, v'.data x = v.data x) : Written v w l l'' p src := by
  obtain ⟨added, rfl, -⟩ := hext.added
  have hsize := hext.shape.clusterSize
  refine ⟨h.bytes, fun i hi hout => ?_, by rw [← hsize]; exact h.within⟩
  have hlt : i < (l ++ added).length * v'.clusterSize := by
    rw [hsize, length_append, Nat.add_mul]
    omega
  rw [h.kept i hlt hout, byteAt_append hsize hdata hi]

theorem SameShape.recordFile : SameShape v (v.recordFile D node) := by
  rw [Volume.recordFile]
  split
  · exact .setSlot _ _ _
  · exact .refl v

theorem fat_recordFile : (v.recordFile D node).fat = v.fat := by
  rw [recordFile]
  split <;> rfl

theorem data_recordFile (hj : j < v.clusterSize) (hout : ¬ InEntry v D node x j) : (v.recordFile D node).data x j = v.data x j := by
  rw [recordFile]
  split
  · by_cases heq : x = v.slotCluster D node.direntIdx
    · change update v.data _ _ x j = _
      rw [heq, update_self, if_pos hj, splice_outside]
      by_contra hin
      exact hout ⟨heq, by omega, by omega⟩
    · rw [data_setSlot heq]
  · rfl

end Volume

variable {fs : Fat32Fs} {v : Volume} {c f n : ℕ} {D l post : List ℕ} {node : Fat32Node} {offset : ℕ}
  {buf : List UInt8}

theorem seekChain_spec (h : Refines fs v) (hl : FileChain v f (pre ++ c :: post)) (hn : n ≤ post.length) :
    ∃ front d rest, pre ++ c :: post = front ++ d :: rest ∧ front.length = pre.length + n ∧
      (seekChain n c fs).1 = d ∧ Refines (seekChain n c fs).2 v := by
  induction n generalizing c fs pre post with
  | zero => exact ⟨pre, c, post, rfl, rfl, rfl, h⟩
  | succ n ih =>
    have hc := hl.range c (by simp)
    obtain ⟨hnext, hrefines⟩ := nextCluster_spec h hc.2
    rcases hl.next with ⟨rfl, -⟩ | ⟨d, rest, rfl, hfat⟩
    · exact absurd hn (by simp)
    · have hl' : FileChain v f ((pre ++ [c]) ++ d :: rest) := by simpa using hl
      obtain ⟨front, e, more, hsplit, hlen, hfound, hdone⟩ := ih hrefines hl' (by simpa using hn)
      rw [seekChain, if_pos (h.inRange_lt hc), hnext, hfat]
      refine ⟨front, e, more, by simpa using hsplit, ?_, hfound, hdone⟩
      rw [hlen, length_append, length_singleton]
      omega

theorem readLoop_spec {fuel byteOff len : ℕ} (h : Refines fs v) (hl : FileChain v f (pre ++ c :: post))
    (hoff : byteOff < v.clusterSize) (hfuel : len ≤ fuel) (hpos : 0 < len)
    (hend : pre.length * v.clusterSize + byteOff + len ≤ (pre ++ c :: post).length * v.clusterSize) :
    (readLoop fuel c byteOff len fs).1 = some ((List.range len).map fun j =>
        byteAt v (pre ++ c :: post) (pre.length * v.clusterSize + byteOff + j)) ∧
      Refines (readLoop fuel c byteOff len fs).2 v := by
  induction fuel generalizing c fs pre post byteOff len with
  | zero => omega
  | succ fuel ih =>
    have hc := hl.range c (by simp)
    obtain ⟨data, hread, hdata⟩ := readCluster_spec h hc
    obtain ⟨hnext, hrefines⟩ := nextCluster_spec h hc.2
    obtain ⟨copy, hcopy⟩ : ∃ copy, copy = min (v.clusterSize - byteOff) len := ⟨_, rfl⟩
    have hbytes : (List.range copy).map (fun j => data (byteOff + j)) = (List.range copy).map fun j =>
        byteAt v (pre ++ c :: post) (pre.length * v.clusterSize + byteOff + j) := by
      refine map_congr_left fun j hj => ?_
      rw [mem_range] at hj
      have hlt : byteOff + j < v.clusterSize := by omega
      obtain ⟨hdiv, hmod⟩ := position_div (k := pre.length) hlt
      rw [hdata _ hlt, byteAt, Nat.add_assoc, hdiv, hmod, getD_eq_getElem?_getD]
      simp
    rw [readLoop, if_pos ⟨hpos, hc.1, h.inRange_lt hc⟩, hread, h.size]
    simp only [hnext, ← hcopy]
    by_cases hlast : len = copy
    · have hstop : ∀ fuel c t, readLoop fuel c 0 (len - copy) t = (some [], t) := by
        intro fuel c t
        cases fuel with
        | zero => rfl
        | succ fuel => rw [readLoop, if_neg (by omega)]
      simp only [hstop, append_nil, hbytes]
      rw [← hlast]
      exact ⟨rfl, hrefines⟩
    · have hfull : byteOff + copy = v.clusterSize := by omega
      rcases hl.next with ⟨rfl, -⟩ | ⟨d, rest, rfl, hfat⟩
      · rw [length_append, length_singleton, Nat.add_mul] at hend
        omega
      · have hl' : FileChain v f ((pre ++ [c]) ++ d :: rest) := by simpa using hl
        have hstart : (pre ++ [c]).length * v.clusterSize + 0 = pre.length * v.clusterSize + byteOff + copy := by
          rw [length_append, length_singleton, Nat.add_mul]
          omega
        have hsame : pre ++ [c] ++ d :: rest = pre ++ c :: d :: rest := by simp
        have hmore : 0 < len - copy := by omega
        obtain ⟨hrest, hdone⟩ := ih hrefines hl' h.size_pos (by omega) hmore (by rw [hsame, hstart]; omega)
        rw [hsame, hstart] at hrest
        rw [hfat]
        cases hrun : readLoop fuel d 0 (len - copy) (fat32NextCluster c fs).2 with
        | mk bytes t =>
          rw [hrun] at hrest hdone
          obtain rfl := hrest
          refine ⟨?_, hdone⟩
          rw [hbytes]
          have hsplit : len = copy + (len - copy) := by omega
          rw [hsplit, range_add, map_append, map_map, ← hsplit]
          simp only [comp_def, Nat.add_assoc]

def readLength (node : Fat32Node) (o k : ℕ) : ℕ :=
  if node.size ≤ o then 0
  else if node.size < addWord o k then node.size - o
  else if k < 2 ^ 63 then k else 0

theorem readLength_le {o k : ℕ} (hsize : node.size < uintSize) (hpos : 0 < readLength node o k) :
    o + readLength node o k ≤ node.size := by
  rw [readLength] at hpos ⊢
  split
  · rw [if_pos ‹_›] at hpos
    omega
  · rename_i hlt
    rw [if_neg hlt] at hpos
    split
    · omega
    · rename_i hend
      rw [if_neg hend] at hpos
      split
      · rename_i hk
        simp only [addWord, wordSize, uintSize] at hend hsize
        omega
      · rename_i hk
        rw [if_neg hk] at hpos
        omega

theorem readLength_eq {o k : ℕ} (hsize : node.size < uintSize) (hend : o + k ≤ node.size) : readLength node o k = k := by
  have hword : addWord o k = o + k := Nat.mod_eq_of_lt (by simp only [uintSize, wordSize] at *; omega)
  rw [readLength, hword, if_neg (Nat.not_lt.mpr hend)]
  split
  · omega
  · rw [if_pos (by simp only [uintSize] at hsize; omega)]

theorem seekChain_position {o : ℕ} (h : Refines fs v) (hl : FileChain v c l) (ho : o < l.length * v.clusterSize)
    (hsmall : o < uintSize) :
    ∃ front d rest, l = front ++ d :: rest ∧ front.length * v.clusterSize + o % v.clusterSize = o ∧
      (seekChain (o / fs.bytesPerCluster % uintSize) c fs).1 = d ∧
      Refines (seekChain (o / fs.bytesPerCluster % uintSize) c fs).2 v := by
  have hskip : o / fs.bytesPerCluster % uintSize = o / v.clusterSize := by
    have hdiv := Nat.div_le_self o v.clusterSize
    rw [h.size]
    exact Nat.mod_eq_of_lt (by omega)
  have hlt : o / v.clusterSize < l.length := div_lt_length ho
  cases l with
  | nil => exact absurd hlt (Nat.not_lt_zero _)
  | cons x rest =>
    obtain rfl : c = x := hl.head_eq
    have hstart : FileChain v c ([] ++ c :: rest) := hl
    obtain ⟨front, d, more, hsplit, hfront, hseek, hrefines⟩ := seekChain_spec h hstart (Nat.le_of_lt_succ hlt)
    rw [hskip]
    refine ⟨front, d, more, hsplit, ?_, hseek, hrefines⟩
    rw [hfront, length_nil, Nat.zero_add]
    exact Nat.div_add_mod' o v.clusterSize

theorem vfsRead_spec {o k : ℕ} (h : Refines fs v) (hfile : node.directory = false) (hsize : node.size < uintSize)
    (hl : OwnChain v node.inode l) (hin : 0 < k → o < node.size → o < l.length * v.clusterSize)
    (hlong : o + readLength node o k ≤ l.length * v.clusterSize ∨ readLength node o k = 0) :
    (fat32VfsRead node o k fs).1 =
        (((readLength node o k : ℕ) : ℤ), (List.range (readLength node o k)).map fun j => byteAt v l (o + j)) ∧
      Refines (fat32VfsRead node o k fs).2 v := by
  rw [fat32VfsRead, if_neg (by rw [h.sound.valid]; exact Bool.noConfusion), if_neg (by rw [hfile]; exact Bool.noConfusion)]
  simp only [Nat.mod_eq_of_lt hsize]
  by_cases hout : node.size ≤ o
  · have hnone : readLength node o k = 0 := if_pos hout
    rw [if_pos hout, hnone]
    exact ⟨rfl, h⟩
  rw [if_neg hout]
  obtain ⟨len, hlen⟩ : ∃ len, len = if node.size < addWord o k then node.size - o else k := ⟨_, rfl⟩
  rw [← hlen]
  have hread : readLength node o k = if len < 2 ^ 63 then len else 0 := by
    rw [readLength, if_neg hout, hlen]
    split
    · rw [if_pos (by simp only [uintSize] at hsize; omega)]
    · rfl
  rw [hread] at hlong ⊢
  by_cases hzero : len = 0
  · rw [if_pos hzero, hzero]
    exact ⟨rfl, h⟩
  rw [if_neg hzero]
  have hinside : o < l.length * v.clusterSize := by
    refine hin (Nat.pos_of_ne_zero fun hk => hzero ?_) (by omega)
    have hword : addWord o 0 ≤ o := Nat.mod_le _ _
    rw [hlen, hk, if_neg (by omega)]
  rcases hl with ⟨-, rfl⟩ | ⟨-, hl⟩
  · rw [length_nil] at hinside
    omega
  obtain ⟨front, d, rest, rfl, hposition, hseek, hrefines⟩ := seekChain_position h hl hinside (by omega)
  rw [hseek, h.size]
  by_cases hbig : len < 2 ^ 63
  · simp only [if_pos hbig] at hlong ⊢
    obtain ⟨hbytes, hdone⟩ := readLoop_spec hrefines hl (Nat.mod_lt o h.size_pos) (Nat.le_refl len) (by omega)
      (by rw [hposition]; omega)
    cases hrun : readLoop len d (o % v.clusterSize) len (seekChain (o / v.clusterSize % uintSize) node.inode fs).2 with
    | mk bytes t =>
      rw [h.size, hrun] at hbytes hdone
      obtain rfl := hbytes
      rw [hposition]
      exact ⟨by simp, hdone⟩
  · simp only [if_neg hbig]
    rw [h.size] at hrefines
    exact ⟨rfl, hrefines⟩

theorem firstCluster_spec (h : Refines fs v) (hhint : v.hint ≤ v.clusters + 2) (hl : OwnChain v node.inode l) :
    (∃ t, firstCluster node fs = (none, t) ∧ Refines t v ∧ node.inode < 2 ∧ ∀ x, ¬ v.Free x) ∨
      ∃ c rest v' t, firstCluster node fs = (some c, t) ∧ Refines t v' ∧
        FileChain v' c (c :: rest) ∧ Extends v v' l (c :: rest) ∧ (∀ x ∈ l, v'.data x = v.data x) ∧
        (2 ≤ node.inode → c = node.inode) := by
  rw [firstCluster]
  rcases hl with ⟨hc, rfl⟩ | ⟨hc, hl⟩
  · rw [if_pos hc]
    have hzero : 0 < v.clusters + 2 := by omega
    obtain ⟨hvalue, halloc⟩ := allocCluster_spec h hhint hzero
    simp only [hvalue]
    rcases alloc_cases 0 hhint with ⟨hfull, hnone⟩ | ⟨new, hnew, hstep, -⟩
    · rw [hfull] at halloc ⊢
      exact .inl ⟨_, rfl, halloc, hc, hnone⟩
    · have hrange := hstep.free.1
      have hge : ¬ (v.alloc 0).1 < 2 := by
        rw [hnew]
        exact Nat.not_lt.mpr hrange.1
      rw [if_neg hge, hnew]
      exact .inr ⟨new, [], _, _, rfl, halloc, hstep.single h.few, hstep.extends_nil,
        fun x hx => absurd hx not_mem_nil, by omega⟩
  · rw [if_neg (Nat.not_lt.mpr hc)]
    obtain ⟨rest, rfl⟩ := hl.exists_cons hc
    exact .inr ⟨node.inode, rest, v, _, rfl, h, hl, .refl hhint _, fun _ _ => rfl, fun _ => rfl⟩

def grownNode (node : Fat32Node) (c offset len : ℕ) : Fat32Node :=
  { node with
    inode := c
    size := if node.size < addWord offset len then addWord offset len % uintSize else node.size }

theorem vfsWrite_spec (node : Fat32Node) (offset : ℕ) (h : Refines fs v) (hhint : v.hint ≤ v.clusters + 2) (hfile : node.directory = false)
    (hbuf : buf ≠ []) (hl : OwnChain v node.inode l) (hD : FileChain v node.dirCluster D) (hdis : List.Disjoint D l) :
    (∃ t, fat32VfsWrite node offset buf fs = ((-enospc, node), t) ∧ Refines t v ∧ node.inode < 2 ∧ ∀ x, ¬ v.Free x) ∨
      ∃ c v' l', 2 ≤ c ∧ (2 ≤ node.inode → c = node.inode) ∧ FileChain v' c l' ∧ Extends v v' l l' ∧
        ((∃ t, fat32VfsWrite node offset buf fs = ((-enospc, { node with inode := c }), t) ∧ Refines t v' ∧
            l'.length ≤ offset / v.clusterSize % uintSize ∧ ∀ x, ¬ v'.Free x) ∨
          ∃ (done : ℕ) (t : Fat32Fs), fat32VfsWrite node offset buf fs =
              (((done : ℤ), grownNode node c offset buf.length), t) ∧ done ≤ buf.length ∧
            Refines t (v'.recordFile D (grownNode node c offset buf.length)) ∧
            Written v v' l l' (offset / v.clusterSize % uintSize * v.clusterSize + offset % v.clusterSize)
              (buf.take done) ∧
            (done = buf.length ∨ 0 < done ∧ l'.length * v.clusterSize =
              offset / v.clusterSize % uintSize * v.clusterSize + offset % v.clusterSize + done ∧ ∀ x, ¬ v'.Free x)) := by
  rw [fat32VfsWrite, if_neg (by rw [h.sound.valid]; exact Bool.noConfusion), if_neg hbuf,
    if_neg (by rw [hfile]; exact Bool.noConfusion)]
  rcases firstCluster_spec h hhint hl with ⟨t, hfirst, hrefines, hnone⟩ |
    ⟨c, rest, v₁, t, hfirst, hrefines, hl₁, hext₁, hdata₁, hsame⟩
  · rw [hfirst]
    exact .inl ⟨t, rfl, hrefines, hnone⟩
  · refine .inr ?_
    have hc := (hl₁.range c mem_cons_self).1
    have hsize₁ := hext₁.shape.clusterSize
    have hstart : FileChain v₁ c ([] ++ c :: rest) := hl₁
    obtain ⟨v₂, l₂, u, hrefines₂, hl₂, hext₂, hdata₂, hwalk⟩ := extendTo_spec
      (n := offset / v.clusterSize % uintSize) hrefines hext₁.hint hstart
    rw [length_nil, Nat.zero_add] at hwalk
    have hext₂' : Extends v₁ v₂ (c :: rest) l₂ := hext₂
    have hext := hext₁.trans hext₂' hl₁
    have hdata : ∀ x ∈ l, v₂.data x = v.data x := fun x hx => by
      rw [hdata₂ x (hext₁.subset hx), hdata₁ x hx]
    have hbytes : t.bytesPerCluster = v.clusterSize := hrefines.size.trans hsize₁
    simp only [hfirst, hbytes]
    rcases hwalk with ⟨hextend, hlen, hfull⟩ | ⟨front, d, more, hextend, rfl, hfront⟩
    · rw [hextend]
      exact ⟨c, v₂, l₂, hc, hsame, hl₂, hext, .inl ⟨u, rfl, hrefines₂, hlen, hfull⟩⟩
    · have hsize₂ : v₂.clusterSize = v.clusterSize := hext.shape.clusterSize
      have hoff : offset % v.clusterSize < v₂.clusterSize := by
        rw [hsize₂]
        exact Nat.mod_lt _ h.size_pos
      obtain ⟨done, v₃, l₃, z, hloop, hrefines₃, hl₃, hext₃, hle, hwritten, hend⟩ :=
        writeLoop_spec hrefines₂ hext.hint hl₂ hoff hbuf (Nat.le_refl buf.length)
      have hext' := hext.trans hext₃ hl₂
      have hD' : FileChain v₃ node.dirCluster D := hext'.other hD hdis
      have hbytes₂ : u.bytesPerCluster = v.clusterSize := hrefines₂.size.trans hsize₂
      rw [hsize₂, hfront] at hwritten hend
      refine ⟨c, v₃, l₃, hc, hsame, hl₃, hext', .inr
        ⟨done, fat32Sync (writeBack (grownNode node c offset buf.length) z), ?_, hle,
          sync_spec (writeBack_spec hrefines₃ hD'), hwritten.after hext hdata, hend⟩⟩
      simp only [hextend, hbytes₂, hloop]
      rfl

theorem grownNode_size (hend : offset + buf.length < uintSize) :
    (grownNode node c offset buf.length).size = max node.size (offset + buf.length) := by
  have hword : addWord offset buf.length = offset + buf.length :=
    Nat.mod_eq_of_lt (by simp only [uintSize, wordSize] at *; omega)
  change (if node.size < addWord offset buf.length then addWord offset buf.length % uintSize else node.size) = _
  rw [hword, Nat.mod_eq_of_lt hend]
  split <;> omega

section

variable (h : Refines fs v) (hfile : node.directory = false) (hsize : node.size < uintSize)
  (hl : OwnChain v node.inode l) (hlong : node.size ≤ l.length * v.clusterSize)

include h hfile hsize hl hlong

theorem vfsRead_eq {o k : ℕ} :
    (fat32VfsRead node o k fs).1 =
      (((readLength node o k : ℕ) : ℤ), (List.range (readLength node o k)).map fun j => byteAt v l (o + j)) := by
  refine (vfsRead_spec h hfile hsize hl (fun _ ho => by omega) ?_).1
  rcases Nat.eq_zero_or_pos (readLength node o k) with hzero | hpos
  · exact .inr hzero
  · exact .inl ((readLength_le hsize hpos).trans hlong)

theorem vfsRead_whole {i : ℕ} (hi : i < node.size) :
    (fat32VfsRead node 0 node.size fs).1.2.getD i 0 = byteAt v l i := by
  rw [vfsRead_eq h hfile hsize hl hlong, readLength_eq hsize (by omega), getD_eq_getElem?_getD]
  simp [hi]

end

theorem Volume.data_recordFile_of_not_mem {x : ℕ} (hx : x ∉ D) : (v.recordFile D node).data x = v.data x := by
  rw [recordFile]
  split_ifs with hin
  · exact data_setSlot fun heq => hx (heq ▸ slotCluster_mem hin.2)
  · rfl

theorem Volume.OwnChain.congr {v' : Volume} (h : OwnChain v c l) (hshape : SameShape v v')
    (hfat : ∀ x ∈ l, v'.fat x = v.fat x) : OwnChain v' c l :=
  h.imp_right fun ⟨hc, hl⟩ => ⟨hc, hl.congr hshape hfat⟩

theorem position_eq (hoff : offset < uintSize) :
    offset / v.clusterSize % uintSize * v.clusterSize + offset % v.clusterSize = offset := by
  have hdiv := Nat.div_le_self offset v.clusterSize
  rw [Nat.mod_eq_of_lt (by omega)]
  exact Nat.div_add_mod' offset v.clusterSize

section Outcome

/-! What has changed after a write of `done` bytes that went from `v` to `v'` and then recorded the file. -/

variable {v' : Volume} {l' m : List ℕ} {done i : ℕ}

theorem Volume.Written.byteAt_eq (h : Written v v' l l' offset (buf.take done)) (hdone : done ≤ buf.length)
    (hi : i < l.length * v.clusterSize ∨ i < offset + done) (hoff : offset ≤ l.length * v.clusterSize) :
    byteAt v' l' i = if offset ≤ i ∧ i < offset + done then buf.getD (i - offset) 0 else byteAt v l i := by
  have hlen : (buf.take done).length = done := by rw [length_take]; omega
  split_ifs with hin
  · obtain ⟨k, rfl⟩ : ∃ k, i = offset + k := ⟨i - offset, by omega⟩
    rw [h.bytes k (by omega), Nat.add_sub_cancel_left, getD_eq_getElem?_getD, getD_eq_getElem?_getD,
      List.getElem?_take_of_lt (by omega)]
  · exact h.kept i (by omega) (by omega)

theorem Volume.Extends.byteAt_recordFile (h : Extends v v' l l') {d : ℕ} (hD : FileChain v d D)
    (hdis : List.Disjoint D l) (hi : i < l'.length * v.clusterSize) :
    byteAt (v'.recordFile D node) l' i = byteAt v' l' i := by
  have hshape : SameShape v' (v'.recordFile D node) := .recordFile
  have hsame : ∀ x ∈ l', (v'.recordFile D node).data x = v'.data x := fun x hx =>
    data_recordFile_of_not_mem fun hbad => h.disjoint hD hdis hbad hx
  have happ : byteAt (v'.recordFile D node) (l' ++ []) i = byteAt v' l' i :=
    byteAt_append hshape.clusterSize hsame (by rw [h.shape.clusterSize]; exact hi)
  rwa [append_nil] at happ

theorem Volume.Extends.other_recordFile (h : Extends v v' l l') (hm : FileChain v c m) (hdis : List.Disjoint m l) :
    FileChain (v'.recordFile D node) c m :=
  (h.other hm hdis).congr .recordFile fun x _ => congrFun fat_recordFile x

theorem Volume.Extends.data_recordFile (h : Extends v v' l l') (hm : FileChain v c m) (hdis : List.Disjoint m l) {x j : ℕ}
    (hx : x ∈ m) (hj : j < v.clusterSize) (hout : ¬ InEntry v D node x j) :
    (v'.recordFile D node).data x j = v.data x j := by
  have hper := h.shape.perCluster
  rw [Volume.data_recordFile (by rw [h.shape.clusterSize]; exact hj), h.data x fun hbad => h.disjoint hm hdis hx hbad]
  rw [InEntry, slotCluster, hper]
  exact hout

variable {t : Fat32Fs} {node' : Fat32Node}

theorem vfsWrite_outcome {n : ℤ} (h : Refines fs v) (hhint : v.hint ≤ v.clusters + 2) (hfile : node.directory = false)
    (hbuf : buf ≠ []) (hl : OwnChain v node.inode l) (hD : FileChain v node.dirCluster D) (hdis : List.Disjoint D l)
    (hoff : offset ≤ l.length * v.clusterSize) (hend : offset + buf.length < uintSize)
    (hwrite : fat32VfsWrite node offset buf fs = ((n, node'), t)) (hn : 0 ≤ n) :
    ∃ v' l', ∃ done : ℕ, n = done ∧ done ≤ buf.length ∧ node'.directory = false ∧
      node'.dirCluster = node.dirCluster ∧ node'.direntIdx = node.direntIdx ∧ node'.size = max node.size (offset + buf.length) ∧
      2 ≤ node'.inode ∧ Extends v v' l l' ∧ FileChain (v'.recordFile D node') node'.inode l' ∧
      Refines t (v'.recordFile D node') ∧ max (l.length * v.clusterSize) (offset + done) ≤ l'.length * v.clusterSize ∧
      ∀ i < max (l.length * v.clusterSize) (offset + done), byteAt (v'.recordFile D node') l' i =
        if offset ≤ i ∧ i < offset + done then buf.getD (i - offset) 0 else byteAt v l i := by
  have hneg : ¬ 0 ≤ -enospc := by decide
  rcases vfsWrite_spec node offset h hhint hfile hbuf hl hD hdis with ⟨t', hrun, -⟩ |
    ⟨c, v', l', hc, -, hl', hext, ⟨t', hrun, -⟩ | ⟨done, t', hrun, hdone, hrefines, hwritten, -⟩⟩ <;>
    rw [hwrite] at hrun <;> obtain ⟨hresult, rfl⟩ := Prod.mk.inj hrun <;> obtain ⟨rfl, rfl⟩ := Prod.mk.inj hresult
  · exact absurd hn hneg
  · exact absurd hn hneg
  rw [position_eq (by omega)] at hwritten
  have hwithin : max (l.length * v.clusterSize) (offset + done) ≤ l'.length * v.clusterSize := by
    have hle := hwritten.within
    obtain ⟨added, rfl, -⟩ := hext.added
    rw [length_append, Nat.add_mul] at hle ⊢
    rw [length_take] at hle
    omega
  refine ⟨v', l', done, rfl, hdone, hfile, rfl, rfl, grownNode_size hend, hc, hext,
    hl'.congr .recordFile fun x _ => congrFun fat_recordFile x, hrefines, hwithin, fun i hi => ?_⟩
  rw [hext.byteAt_recordFile hD hdis (by omega), hwritten.byteAt_eq hdone (by omega) hoff]

theorem Volume.Extends.vfsRead_other (hext : Extends v v' l l') (h : Refines fs v)
    (hrefines : Refines t (v'.recordFile D node)) (hfile : node'.directory = false) (hsize : node'.size < uintSize)
    (hm : OwnChain v node'.inode m) (hlong : node'.size ≤ m.length * v.clusterSize) (hml : List.Disjoint m l)
    (hmD : List.Disjoint m D) (o k : ℕ) : (fat32VfsRead node' o k t).1 = (fat32VfsRead node' o k fs).1 := by
  have hshape : SameShape v (v'.recordFile D node) := hext.shape.trans .recordFile
  have hout : ∀ x ∈ m, x ∉ l' := by
    intro x hx hbad
    rcases hm with ⟨-, rfl⟩ | ⟨-, hm⟩
    · exact absurd hx not_mem_nil
    · exact hext.disjoint hm hml hx hbad
  have hsame : ∀ x ∈ m, (v'.recordFile D node).data x = v.data x := fun x hx => by
    rw [data_recordFile_of_not_mem fun hbad => hmD hx hbad, hext.data x (hout x hx)]
  have hm' : OwnChain (v'.recordFile D node) node'.inode m := hm.congr hshape fun x hx => by
    rw [fat_recordFile, hext.fat x (hout x hx)]
  rw [Fat32.vfsRead_eq h hfile hsize hm hlong,
    Fat32.vfsRead_eq hrefines hfile hsize hm' (by rw [hshape.clusterSize]; exact hlong)]
  refine congrArg _ (map_congr_left fun j hj => ?_)
  rw [mem_range] at hj
  have hle := readLength_le hsize (Nat.zero_lt_of_lt hj)
  have happ : byteAt (v'.recordFile D node) (m ++ []) (o + j) = byteAt v m (o + j) :=
    byteAt_append hshape.clusterSize hsame (by omega)
  rwa [append_nil] at happ

end Outcome

theorem Refines.data_outside (h : Refines fs v) {x j : ℕ} (hj : v.clusterSize ≤ j) : v.data x j = 0 := by
  rw [← h.volume]
  refine if_neg fun hin => ?_
  rw [← h.size] at hj
  omega

/-- A write that returns has its bytes read back through the node, and all other bytes of the file below its
old size are as they were. Other files read the same, and other chains have the same bytes apart from the
entry of the file in its directory. -/
theorem write_then_read {n : ℤ} {node' : Fat32Node} {fs' : Fat32Fs} (hs : Sound fs)
    (hhint : fs.nextFreeHint ≤ fs.totalClusters + 2) (hfile : node.directory = false) (hsize : node.size < uintSize)
    (hl : OwnChain fs.volume node.inode l) (hlong : node.size ≤ l.length * fs.bytesPerCluster)
    (hD : FileChain fs.volume node.dirCluster D) (hdis : List.Disjoint D l) (hoff : offset ≤ node.size)
    (hend : offset + buf.length < uintSize) (hwrite : fat32VfsWrite node offset buf fs = ((n, node'), fs')) (hn : 0 ≤ n) :
    (∀ o k, o + k ≤ max node.size (offset + n.toNat) → (fat32VfsRead node' o k fs').1 =
        ((k : ℤ), (List.range k).map fun j =>
          if offset ≤ o + j ∧ o + j < offset + n.toNat then buf.getD (o + j - offset) 0
          else (fat32VfsRead node 0 node.size fs).1.2.getD (o + j) 0)) ∧
      (∀ (g : Fat32Node) (m : List ℕ), g.directory = false → g.size < uintSize → OwnChain fs.volume g.inode m →
        g.size ≤ m.length * fs.bytesPerCluster → List.Disjoint m l → List.Disjoint m D →
        ∀ o k, (fat32VfsRead g o k fs').1 = (fat32VfsRead g o k fs).1) ∧
      ∀ (c : ℕ) (m : List ℕ), FileChain fs.volume c m → List.Disjoint m l → FileChain fs'.volume c m ∧
        ∀ x ∈ m, ∀ j, ¬ InEntry fs.volume D node x j → fs'.volume.data x j = fs.volume.data x j := by
  have h : Refines fs fs.volume := ⟨hs, rfl⟩
  have hlong' : node.size ≤ l.length * fs.volume.clusterSize := hlong
  by_cases hbuf : buf = []
  · subst hbuf
    rw [fat32VfsWrite, if_neg (by rw [hs.valid]; exact Bool.noConfusion), if_pos rfl] at hwrite
    obtain ⟨⟨rfl, rfl⟩, rfl⟩ : ((0 : ℤ) = n ∧ node = node') ∧ fs = fs' := by simpa using hwrite
    refine ⟨fun o k hk => ?_, fun _ _ _ _ _ _ _ _ _ _ => rfl, fun c m hm _ => ⟨hm, fun _ _ _ _ => rfl⟩⟩
    have hk' : o + k ≤ node.size := by
      rw [Int.toNat_zero] at hk
      omega
    rw [vfsRead_eq h hfile hsize hl hlong', readLength_eq hsize hk']
    refine congrArg _ (map_congr_left fun j hj => ?_)
    rw [mem_range] at hj
    rw [if_neg (by rw [Int.toNat_zero]; omega), vfsRead_whole h hfile hsize hl hlong' (by omega)]
  obtain ⟨v', l', done, rfl, hdone, hfile', -, hidx, hgrown, hc, hext, hl', hrefines, hwithin, hbytes⟩ :=
    vfsWrite_outcome h hhint hfile hbuf hl hD hdis (hoff.trans hlong') hend hwrite hn
  rw [Int.toNat_natCast]
  have hshape : SameShape fs.volume (v'.recordFile D node') := hext.shape.trans .recordFile
  refine ⟨fun o k hk => ?_, fun g m hg hgs hm hmlong hml hmD o k =>
    hext.vfsRead_other h hrefines hg hgs hm hmlong hml hmD o k, fun d m hm hml => ?_⟩
  · have hsize' : node'.size < uintSize := by omega
    have hall : readLength node' o k = k := readLength_eq hsize' (by omega)
    rw [(vfsRead_spec hrefines hfile' hsize' (.inr ⟨hc, hl'⟩) (fun hpos _ => by rw [hshape.clusterSize]; omega)
      (.inl (by rw [hall, hshape.clusterSize]; omega))).1, hall]
    refine congrArg _ (map_congr_left fun j hj => ?_)
    rw [mem_range] at hj
    rw [hbytes _ (by omega)]
    split
    · rfl
    · rw [vfsRead_whole h hfile hsize hl hlong' (by omega)]
  · rw [hrefines.volume]
    refine ⟨hext.other_recordFile hm hml, fun x hx j hout => ?_⟩
    by_cases hj : j < fs.volume.clusterSize
    · exact hext.data_recordFile hm hml hx hj (by rw [InEntry, hidx]; exact hout)
    · rw [h.data_outside (by omega), hrefines.data_outside (by rw [hshape.clusterSize]; omega)]

def twoClusters (fat root other : ℕ → UInt8) (hint : ℕ) : Fat32Fs where
  valid := true
  fatLba := 0
  dataLba := 1
  rootCluster := 2
  sectorsPerCluster := 1
  bytesPerCluster := 512
  totalClusters := 2
  freeClusters := 0
  nextFreeHint := hint
  sectorBuf := fun _ => 0
  sectorBufLba := uintSize - 1
  sectorBufDirty := false
  disk := fun lba => if lba = 0 then fat else if lba = 1 then root else if lba = 2 then other else fun _ => 0

theorem sound_twoClusters (fat root other : ℕ → UInt8) (hint : ℕ) : Sound (twoClusters fat root other hint) := by
  have hlba : (twoClusters fat root other hint).sectorBufLba = uintSize - 1 := rfl
  have hdata : (twoClusters fat root other hint).dataLba = 1 := rfl
  have hsize : 512 = 1 * sectorSize := (Nat.one_mul _).symm
  have hfew : 2 + 2 ≤ fatEocMin := by decide
  have hfat : 0 + ((2 + 2) * 4 + (sectorSize - 1)) / sectorSize ≤ 1 := by decide
  have hend : 1 + 2 * 1 ≤ uintSize := by decide
  refine ⟨rfl, Nat.one_pos, hsize, Nat.two_pos, hfew, hfat, hend, .inr ⟨hlba, rfl⟩, fun _ hlt => ?_⟩
  rw [hlba, hdata] at hlt
  exact absurd hlt (by decide)

def abcFs : Fat32Fs :=
  twoClusters (putLE 4 8 fatEoc (putLE 4 12 fatEoc fun _ => 0))
    (putLE 4 28 3 (newDirent (fat32StrTo83 (ascii "F")) attrArchive 3)) (fun k => [97, 98, 99].getD k 0) 4

def abcNode : Fat32Node := ⟨3, 3, false, 2, 0⟩

theorem abcFs_root : FileChain abcFs.volume abcNode.dirCluster [2] := .single (by decide) (by decide +kernel) (by decide)

theorem abcFs_file : OwnChain abcFs.volume abcNode.inode [3] :=
  .inr ⟨by decide, .single (by decide) (by decide +kernel) (by decide)⟩

/-- Three bytes written from the second byte on are read back after the first. -/
theorem write_then_read_abc :
    (fat32VfsRead (fat32VfsWrite abcNode 1 [88, 89, 90] abcFs).1.2 0 4
      (fat32VfsWrite abcNode 1 [88, 89, 90] abcFs).2).1 = (4, [97, 88, 89, 90]) := by
  set out := fat32VfsWrite abcNode 1 [88, 89, 90] abcFs
  have hwrite : out = ((out.1.1,
      out.1.2), out.2) := rfl
  have hlaw := (write_then_read (sound_twoClusters _ _ _ _) (by decide) rfl (by decide) abcFs_file
    (by decide) abcFs_root (by simp) (by decide) (by decide) hwrite (by decide +kernel)).1 0 4 (by decide +kernel)
  exact hlaw.trans (by decide +kernel)

end AetherOs.Fat32
