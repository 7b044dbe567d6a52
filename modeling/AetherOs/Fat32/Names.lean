import AetherOs.Fat32.Ownership

/-! # Names in a directory -/

namespace AetherOs.Fat32

open Base Fs Volume Option Nat

namespace Volume

def nameAt (v : Volume) (d i : ℕ) : Name := fat3283ToStr (v.entry d i)

structure Shown (v : Volume) (d : ℕ) (ex : Option ℕ) (i : ℕ) : Prop where
  seen : some i ≠ ex
  lt : i < v.count d
  reached : ∀ j ≤ i, some j ≠ ex → v.entry d j 0 ≠ 0
  visible : direntVisible (v.entry d i) = true

def Distinct (v : Volume) (d : ℕ) (ex : Option ℕ) : Prop :=
  ∀ i j, Shown v d ex i → Shown v d ex j → v.nameAt d i = v.nameAt d j → i = j

variable {v w w' : Volume} {d i j : ℕ} {name : Name} {de : ℕ → UInt8}

theorem Shown.search_eq (h : Shown v d none i) (hname : v.nameAt d i = name) (hdistinct : Distinct v d none) :
    search (unlinkStops name) (v.entry d) (v.count d) 0 = some i := by
  have hend := h.reached i (le_refl i) (some_ne_none i)
  have hstop : unlinkStops name (v.entry d i) := by
    rw [unlinkStops, h.visible, decide_eq_true (show fat3283ToStr (v.entry d i) = name from hname), Bool.and_true,
      Bool.or_true]
  cases hsearch : search (unlinkStops name) (v.entry d) (v.count d) 0 with
  | none =>
    have hlt := h.lt
    rw [search_none hsearch (zero_le i) (by omega)] at hstop
    cases hstop
  | some j =>
    obtain ⟨-, hj, hjstop, hbefore⟩ := search_some hsearch
    have hle : j ≤ i := by
      by_contra hlt
      rw [hbefore i (zero_le i) (by omega)] at hstop
      cases hstop
    have hjend := h.reached j hle (some_ne_none j)
    rw [unlinkStops, decide_eq_false hjend, Bool.false_or, Bool.and_eq_true, decide_eq_true_eq] at hjstop
    have hshown : Shown v d none j :=
      ⟨some_ne_none j, by omega, fun k hk hseen => h.reached k (by omega) hseen, hjstop.1⟩
    rw [hdistinct j i hshown h (hjstop.2.trans hname.symm)]

theorem shown_of_search (h : search (unlinkStops name) (v.entry d) (v.count d) 0 = some i) (hend : v.entry d i 0 ≠ 0) :
    Shown v d none i ∧ v.nameAt d i = name := by
  obtain ⟨-, hi, hstop, hbefore⟩ := search_some h
  rw [unlinkStops, decide_eq_false hend, Bool.false_or, Bool.and_eq_true, decide_eq_true_eq] at hstop
  refine ⟨⟨some_ne_none i, by omega, fun j hj _ => ?_, hstop.1⟩, hstop.2⟩
  rcases eq_or_lt_of_le hj with rfl | hlt
  · exact hend
  · intro hzero
    have hgo := hbefore j (zero_le j) hlt
    rw [unlinkStops, decide_eq_true hzero, Bool.true_or] at hgo
    cases hgo

structure Filled (w w' : Volume) (d i : ℕ) (de : ℕ → UInt8) : Prop where
  count : w'.count d = w.count d
  lt : i < w.count d
  used : de 0 ≠ 0
  before : ∀ j < i, w.entry d j 0 ≠ 0
  new : w'.entry d i = de
  old : ∀ j < w.count d, j ≠ i → w'.entry d j = w.entry d j

namespace Filled

theorem shown_new (h : Filled w w' d i de) : Shown w' d none i ↔ direntVisible de := by
  constructor
  · intro hshown
    rw [← h.new]
    exact hshown.visible
  · intro hvisible
    refine ⟨some_ne_none i, by rw [h.count]; exact h.lt, fun j hj _ => ?_, by rw [h.new]; exact hvisible⟩
    rcases eq_or_lt_of_le hj with rfl | hlt
    · rw [h.new]
      exact h.used
    · have hi := h.lt
      rw [h.old j (by omega) (by omega)]
      exact h.before j hlt

theorem shown_old (h : Filled w w' d i de) (hj : j ≠ i) : Shown w' d none j ↔ Shown w d (some i) j := by
  constructor
  · intro hshown
    have hlt : j < w.count d := by
      rw [← h.count]
      exact hshown.lt
    refine ⟨fun heq => hj (some.inj heq), hlt, fun k hk hseen => ?_, ?_⟩
    · rw [← h.old k (by omega) fun heq => hseen (congrArg some heq)]
      exact hshown.reached k hk (some_ne_none k)
    · rw [← h.old j hlt hj]
      exact hshown.visible
  · intro hshown
    have hlt := hshown.lt
    refine ⟨some_ne_none j, by rw [h.count]; exact hlt, fun k hk _ => ?_, ?_⟩
    · by_cases hki : k = i
      · rw [hki, h.new]
        exact h.used
      · rw [h.old k (by omega) hki]
        exact hshown.reached k hk fun heq => hki (some.inj heq)
    · rw [h.old j hlt hj]
      exact hshown.visible

theorem distinct_iff (h : Filled w w' d i de) (hvisible : direntVisible de) : Distinct w' d none ↔
    Distinct w d (some i) ∧ ∀ j, Shown w d (some i) j → w.nameAt d j ≠ fat3283ToStr de := by
  have hne : ∀ j, Shown w d (some i) j → j ≠ i := fun j hshown heq => hshown.seen (congrArg some heq)
  have hold : ∀ j, Shown w d (some i) j → w'.nameAt d j = w.nameAt d j := fun j hshown => by
    rw [nameAt, nameAt, h.old j hshown.lt (hne j hshown)]
  have hnew : w'.nameAt d i = fat3283ToStr de := by rw [nameAt, h.new]
  constructor
  · intro hdistinct
    refine ⟨fun j k hj hk heq => ?_, fun j hj heq => ?_⟩
    · rw [← hold j hj, ← hold k hk] at heq
      exact hdistinct j k ((h.shown_old (hne j hj)).mpr hj) ((h.shown_old (hne k hk)).mpr hk) heq
    · rw [← hold j hj, ← hnew] at heq
      exact hne j hj (hdistinct j i ((h.shown_old (hne j hj)).mpr hj) (h.shown_new.mpr hvisible) heq)
  · rintro ⟨hdistinct, hother⟩ j k hj hk heq
    by_cases hji : j = i
    · by_cases hki : k = i
      · rw [hji, hki]
      · have hk' := (h.shown_old hki).mp hk
        rw [hji, hnew, hold k hk'] at heq
        exact absurd heq.symm (hother k hk')
    · have hj' := (h.shown_old hji).mp hj
      by_cases hki : k = i
      · rw [hki, hnew, hold j hj'] at heq
        exact absurd heq (hother j hj')
      · have hk' := (h.shown_old hki).mp hk
        rw [hold j hj', hold k hk'] at heq
        exact hdistinct j k hj' hk' heq

end Filled

theorem Shown.congr {ex : Option ℕ} (h : Shown w d ex j) (hcount : w'.count d = w.count d)
    (hnames : ∀ j < w.count d, ∀ k < 12, w'.entry d j k = w.entry d j k) :
    Shown w' d ex j ∧ w'.nameAt d j = w.nameAt d j := by
  have hlt := h.lt
  refine ⟨⟨h.seen, hcount ▸ hlt, fun k hk hseen => ?_, ?_⟩, fat3283ToStr_congr fun k hk => hnames j hlt k (by omega)⟩
  · rw [hnames k (by omega) 0 (by decide)]
    exact h.reached k hk hseen
  · rw [direntVisible_congr (hnames j hlt 0 (by decide)) (hnames j hlt 11 (by decide))]
    exact h.visible

structure Later (v : Volume) (d i : ℕ) (v' : Volume) : Prop where
  shape : SameShape v v'
  chain : v'.chain d = v.chain d
  walk : FileChain v' d (v'.chain d)
  names : ∀ j < v.count d, ∀ k < 12, v'.entry d j k = v.entry d j k
  own : ∃ l, OwnChain v' (direntCluster (v'.entry d i)) l

namespace Later

variable {v' : Volume}

theorem count_eq (h : Later v d i v') : v'.count d = v.count d := by
  rw [count, count, h.chain, h.shape.perCluster]

theorem shown (h : Later v d i v') (hshown : Shown v' d none j) : Shown v d none j ∧ v'.nameAt d j = v.nameAt d j := by
  rw [eq_comm]
  exact hshown.congr h.count_eq.symm fun j hj k hk => (h.names j (h.count_eq ▸ hj) k hk).symm

theorem shown_later (h : Later v d i v') (hshown : Shown v d none j) :
    Shown v' d none j ∧ v'.nameAt d j = v.nameAt d j :=
  hshown.congr h.count_eq h.names

theorem distinct (h : Later v d i v') (hdistinct : Distinct v d none) : Distinct v' d none := by
  intro j k hj hk heq
  obtain ⟨hj', hjname⟩ := h.shown hj
  obtain ⟨hk', hkname⟩ := h.shown hk
  exact hdistinct j k hj' hk' (hjname.symm.trans (heq.trans hkname))

end Later

end Volume

def makeEntry (fuel : ℕ) (directory : Bool) (parent : Fat32Node) (name : Name) (fs : Fat32Fs) : Option (ℤ × Fat32Fs) :=
  if directory then fat32VfsMkdirOp fuel parent name fs else fat32VfsCreate fuel parent name fs

def Volume.readied (v : Volume) (directory : Bool) (d : ℕ) : Volume := if directory then v.prepared d else v

def Volume.newEntry (v : Volume) (directory : Bool) (name : Name) : ℕ → UInt8 :=
  if directory then newDirent (fat32StrTo83 name) attrDir (v.alloc 0).1 else newDirent (fat32StrTo83 name) attrArchive 0

variable {fs fs' : Fat32Fs} {v : Volume} {d i fuel : ℕ} {name : Name} {parent : Fat32Node} {directory : Bool}

theorem lt_of_toIndex (hi : i ≤ 2 ^ 31) (h : ¬ toIndex i < 0) : i < 2 ^ 31 := by
  rw [toIndex, mod_eq_of_lt (by simp only [uintSize]; omega)] at h
  split at h
  · assumption
  · simp only [uintSize] at h
    omega

theorem Volume.freeSlot_le (v : Volume) (d : ℕ) : v.freeSlot d ≤ v.count d := by
  rw [freeSlot]
  cases hsearch : search slotFree (v.entry d) (v.count d) 0 with
  | none => exact le_refl _
  | some i =>
    obtain ⟨-, hi, -⟩ := search_some hsearch
    rw [getD_some]
    omega

structure Made (v : Volume) (d : ℕ) (directory : Bool) (name : Name) (fs' : Fat32Fs) : Prop where
  small : (v.readied directory d).freeSlot d < 2 ^ 31
  count_le : (v.readied directory d).count d ≤ 2 ^ 31
  shape : SameShape v (v.readied directory d)
  place : ∃ loose, Placed (v.readied directory d) ((v.readied directory d).makeRoom d) loose d
    ((v.readied directory d).freeSlot d)
  refines : Refines fs' (((v.readied directory d).makeRoom d).setSlot (((v.readied directory d).makeRoom d).chain d)
    ((v.readied directory d).freeSlot d) (v.newEntry directory name))

theorem made_file (hr : Refines fs v) (h : WellFormed v) (hd : Dir v none (nodeCluster parent fs))
    (hmake : fat32VfsCreate fuel parent name fs = some (0, fs')) : Made v (nodeCluster parent fs) false name fs' := by
  have hmany : 2 ^ 31 < max fuel (2 ^ 31 + 1) := by omega
  have hlong := vfsCreate_below (le_max_left fuel (2 ^ 31 + 1)) _ hmake
  rw [fat32VfsCreate] at hlong
  obtain ⟨t, ⟨hfind, -⟩ | ⟨hfind, ht, hplace⟩⟩ := Owned.place h hr hd hmany
  · rw [hfind] at hlong
    exact absurd (congrArg Prod.fst (some.inj hlong)) (show ¬ (-enospc : ℤ) = 0 by decide)
  · simp only [hfind, bind_eq_bind, bind_some] at hlong
    split at hlong
    · rename_i hneg
      have hzero := congrArg Prod.fst (some.inj hlong)
      simp only at hzero
      omega
    · rename_i hneg
      have hsmall := lt_of_toIndex ((freeSlot_le v _).trans (h.tidy _ hd).small) hneg
      rw [toIndex_eq hsmall, Int.toNat_natCast] at hlong
      obtain ⟨hzero, hwrite⟩ := writeDirentAt_spec (newDirent (fat32StrTo83 name) attrArchive 0) ht hplace.chain
        (Owned.dir_two h hd) hplace.lt
      rw [hzero, if_pos rfl] at hlong
      obtain rfl := congrArg Prod.snd (some.inj hlong)
      exact ⟨hsmall, (h.tidy _ hd).small, .refl v, ⟨_, hplace⟩, sync_spec hwrite⟩

theorem made_dir (hr : Refines fs v) (h : WellFormed v) (hd : Dir v none (nodeCluster parent fs))
    (hmake : fat32VfsMkdirOp fuel parent name fs = some (0, fs')) : Made v (nodeCluster parent fs) true name fs' := by
  have hmany : 2 ^ 31 < max fuel (2 ^ 31 + 1) := by omega
  have hlong := vfsMkdir_below (le_max_left fuel (2 ^ 31 + 1)) _ hmake
  rw [fat32VfsMkdirOp] at hlong
  dsimp only at hlong
  rcases prepared_spec hr h (nodeCluster parent fs) with ⟨-, -, hvalue⟩ | ⟨new, t, hnew, hvalue, hwrite, ht, hstep, -⟩
  · rw [hvalue] at hlong
    exact absurd (congrArg Prod.fst (some.inj hlong)) (show ¬ (-enospc : ℤ) = 0 by decide)
  · have hge : ¬ new < 2 := not_lt.mpr hstep.free.1.1
    rw [hvalue, if_neg hge, hwrite, getD_some] at hlong
    have hresh := hstep.extends_nil.reshapes (hstep.single hr.few) h.hint.1
    have howned := Owned.reshape h hresh
    have hd' := (Owned.reshape_agree h hresh).dir.mpr hd
    obtain ⟨u, ⟨hfind, -⟩ | ⟨hfind, hu, hplace⟩⟩ := howned.place ht hd' hmany
    · simp only [hfind, bind_eq_bind, bind_some, if_pos (show (-enospc : ℤ) < 0 by decide)] at hlong
      obtain ⟨z, -, hdone⟩ := bind_eq_some_iff.mp hlong
      exact absurd (congrArg Prod.fst (some.inj hdone)) (show ¬ (-enospc : ℤ) = 0 by decide)
    · simp only [hfind, bind_eq_bind, bind_some] at hlong
      split at hlong
      · rename_i hneg
        obtain ⟨z, -, hdone⟩ := bind_eq_some_iff.mp hlong
        have hzero := congrArg Prod.fst (some.inj hdone)
        simp only at hzero
        omega
      · rename_i hneg
        have hsmall := lt_of_toIndex ((freeSlot_le _ _).trans (howned.tidy _ hd').small) hneg
        rw [toIndex_eq hsmall, Int.toNat_natCast] at hlong
        obtain ⟨hzero, hdone⟩ := writeDirentAt_spec (newDirent (fat32StrTo83 name) attrDir new) hu hplace.chain
          (howned.dir_two hd') hplace.lt
        rw [hzero, if_neg (not_not_intro rfl)] at hlong
        obtain rfl := congrArg Prod.snd (some.inj hlong)
        refine ⟨hsmall, (howned.tidy _ hd').small, hstep.shape, ⟨_, hplace⟩, ?_⟩
        rw [newEntry, if_pos rfl, hnew]
        exact sync_spec hdone

theorem newEntry_name {k : ℕ} (hk : k < 11) : v.newEntry directory name k = fat32StrTo83 name k := by
  cases directory <;> exact if_pos hk

theorem cut_newEntry : cut (v.newEntry directory name) = v.newEntry directory name := by
  cases directory <;> exact cut_newDirent _ _ _

theorem direntVisible_newEntry : direntVisible (v.newEntry directory name) ↔ fat32StrTo83 name 0 ≠ deletedMark := by
  have hattr : direntAttr (v.newEntry directory name) = if directory then attrDir else attrArchive := by
    cases directory <;> exact direntAttr_newDirent (by decide)
  have hkind : (if directory then attrDir else attrArchive) ≠ attrLfn ∧
      (if directory then attrDir else attrArchive) &&& (attrSystem ||| attrVolumeId) = 0 := by
    cases directory <;> decide
  rw [direntVisible, hattr, newEntry_name (by decide)]
  simp [hkind.1, hkind.2]

namespace Made

variable (h : Made v d directory name fs')
include h

theorem sameShape : SameShape v fs'.volume := by
  obtain ⟨loose, hplace⟩ := h.place
  rw [h.refines.volume]
  exact (h.shape.trans hplace.shape).trans (.setSlot _ _ _)

theorem walk : FileChain fs'.volume d (((v.readied directory d).makeRoom d).chain d) := by
  obtain ⟨loose, hplace⟩ := h.place
  rw [h.refines.volume]
  exact hplace.chain.congr (.setSlot _ _ _) fun _ _ => rfl

theorem count_eq : fs'.volume.count d = ((v.readied directory d).makeRoom d).count d := by
  rw [Volume.count, h.walk.chain_eq, h.refines.volume]
  rfl

theorem filled (hname : (0 : UInt8) ∉ name) : Filled ((v.readied directory d).makeRoom d) fs'.volume d
    ((v.readied directory d).freeSlot d) (v.newEntry directory name) := by
  obtain ⟨loose, hplace⟩ := h.place
  have hchain := h.walk.chain_eq
  have hal : Aligned ((v.readied directory d).makeRoom d) := by
    have hal' := h.refines.aligned
    exact ⟨hal'.two, hal'.mul⟩
  refine ⟨h.count_eq, hplace.lt, ?_, hplace.before, ?_, fun j hj hne => ?_⟩
  · rw [newEntry_name (by decide)]
    exact fat32StrTo83_ne_zero hname
  · rw [entry, hchain, h.refines.volume, slot_setSlot hal hplace.chain.nodup hplace.lt hplace.lt, if_pos rfl]
    exact cut_newEntry
  · rw [entry, hchain, h.refines.volume, slot_setSlot hal hplace.chain.nodup hplace.lt hj, if_neg hne]
    rfl

theorem count_lt (hper : v.perCluster ≤ 2 ^ 31) : fs'.volume.count d < uintSize := by
  obtain ⟨loose, hplace⟩ := h.place
  have hi := h.small
  have hsmall := h.count_le
  have hsame := h.shape.perCluster
  rw [h.count_eq]
  simp only [uintSize]
  rcases hplace.count_le with hle | heq
  · omega
  · rw [heq]
    omega

end Made

theorem foundAt_eq_some {f : ℕ → ℕ → UInt8} {r : Option ℕ} :
    foundAt d f r = some (slotNode d i (f i)) ↔ r = some i ∧ f i 0 ≠ 0 := by
  cases r with
  | none => exact ⟨fun hbad => absurd hbad.symm (some_ne_none _), fun hbad => absurd hbad.1.symm (some_ne_none i)⟩
  | some j =>
    rw [foundAt]
    constructor
    · intro hfound
      split at hfound
      · cases hfound
      · rename_i hend
        obtain rfl : j = i := congrArg Fat32Node.direntIdx (some.inj hfound)
        exact ⟨rfl, hend⟩
    · rintro ⟨heq, hend⟩
      obtain rfl := some.inj heq
      rw [if_neg hend]

theorem finddir_found {D : List ℕ} {found : Option Fat32Node} (hr : Refines fs v)
    (hD : FileChain v (nodeCluster parent fs) D) (htwo : 2 ≤ nodeCluster parent fs)
    (hsmall : D.length * v.perCluster < uintSize) (hfind : fat32VfsFinddir fuel parent name fs = some (found, fs')) :
    Refines fs' v ∧ foundAt (nodeCluster parent fs) (slot v D)
      (search (unlinkStops name) (slot v D) (D.length * v.perCluster) 0) = found := by
  obtain ⟨u, hu, hlong⟩ := vfsFinddir_spec name parent hr hD htwo hsmall
    (lt_of_lt_of_le hsmall (le_max_right fuel uintSize))
  have hsame := hlong.symm.trans (vfsFinddir_below (le_max_left fuel uintSize) _ hfind)
  obtain ⟨hfound, rfl⟩ := Prod.mk.inj (some.inj hsame)
  exact ⟨hu, hfound⟩

theorem finddir_iff (name : Name) (i : ℕ) (hr : Refines fs v) (hd : nodeCluster parent fs = d)
    (hD : FileChain v d (v.chain d)) (htwo : 2 ≤ d) (hsmall : v.count d < uintSize) :
    (∃ fuel t, fat32VfsFinddir fuel parent name fs = some (some (slotNode d i (v.entry d i)), t)) ↔
      search (unlinkStops name) (v.entry d) (v.count d) 0 = some i ∧ v.entry d i 0 ≠ 0 := by
  subst hd
  rw [← foundAt_eq_some]
  constructor
  · rintro ⟨fuel, t, hfind⟩
    exact (finddir_found hr hD htwo hsmall hfind).2
  · intro hfound
    obtain ⟨u, -, hlong⟩ := vfsFinddir_spec name parent hr hD htwo hsmall hsmall
    refine ⟨uintSize, u, hlong.trans ?_⟩
    rw [← hfound]
    rfl

theorem unlink_exact {t t' : Fat32Fs} (hs : Sound t) (hlater : Later v d i t.volume) (hd : nodeCluster parent t = d)
    (htwo : 2 ≤ d) (hshown : Shown t.volume d none i) (hname : t.volume.nameAt d i = name)
    (hdistinct : Distinct t.volume d none) (hunlink : fat32VfsUnlink fuel parent name t = some (0, t')) :
    ∃ l, OwnChain t.volume (direntCluster (t.volume.entry d i)) l ∧
      t'.volume = (t.volume.freeAll l).setSlot (t.volume.chain d) i (deletedSlot (t.volume.entry d i)) := by
  subst hd
  have hr : Refines t t.volume := ⟨hs, rfl⟩
  have hmany : 2 ^ 31 < max fuel (2 ^ 31 + 1) := by omega
  have hless : (t.volume.chain (nodeCluster parent t)).length < max fuel (2 ^ 31 + 1) := by
    have hle := hlater.walk.length_le
    have hfew := hr.few
    simp only [fatEocMin] at hfew
    omega
  obtain ⟨u, hu, hresult⟩ := vfsUnlink_spec name parent hr hlater.walk htwo hless
  change UnlinkResult t.volume _ u _ _ (search (unlinkStops name) (t.volume.entry (nodeCluster parent t))
    (t.volume.count (nodeCluster parent t)) 0) at hresult
  rw [hshown.search_eq hname hdistinct] at hresult
  obtain ⟨bytes, hbytes, hrun⟩ := hresult
  have hend : slot t.volume (t.volume.chain (nodeCluster parent t)) i 0 ≠ 0 :=
    hshown.reached i (le_refl i) (some_ne_none i)
  obtain ⟨l, hl⟩ := hlater.own
  obtain ⟨z, hdone, hz⟩ := removeEntry_spec hu hlater.walk hshown.lt hl hmany hbytes
  rw [if_neg hend, hdone, vfsUnlink_below (le_max_left fuel (2 ^ 31 + 1)) _ hunlink] at hrun
  obtain rfl := congrArg Prod.snd (some.inj hrun)
  exact ⟨l, hl, hz.volume⟩

structure Named (fs : Fat32Fs) (parent : Fat32Node) (name : Name) (d i : ℕ) : Prop where
  found : ∃ fuel t, fat32VfsFinddir fuel parent name fs = some (some (slotNode d i (fs.volume.entry d i)), t)
  distinct : Distinct fs.volume d none
  removed : ∀ fuel t t', Sound t → Later fs.volume d i t.volume → fat32VfsUnlink fuel parent name t = some (0, t') →
    ∃ l, OwnChain t.volume (direntCluster (t.volume.entry d i)) l ∧
      t'.volume = (t.volume.freeAll l).setSlot (t.volume.chain d) i (deletedSlot (t.volume.entry d i))

def Volume.Unclashed (v : Volume) (d : ℕ) (name : Name) : Prop :=
  Distinct (v.makeRoom d) d (some (v.freeSlot d)) ∧
    ∀ j, Shown (v.makeRoom d) d (some (v.freeSlot d)) j → (v.makeRoom d).nameAt d j ≠ name

/-- A name that was created has its entry in the free slot of the directory. The name is found there, stays the
only one and can be removed exactly if its 8.3 form reads as the name, does not look deleted, and no name
clashes. -/
theorem created_name_iff (hs : Sound fs) (h : WellFormed fs.volume) (hd : Dir fs.volume none (fs.volume.dirOf parent))
    (hname : (0 : UInt8) ∉ name) (hmake : makeEntry fuel directory parent name fs = some (0, fs')) :
    fs'.volume.entry (fs.volume.dirOf parent)
        ((fs.volume.readied directory (fs.volume.dirOf parent)).freeSlot (fs.volume.dirOf parent)) =
      fs.volume.newEntry directory name ∧
    (Named fs' parent name (fs.volume.dirOf parent)
        ((fs.volume.readied directory (fs.volume.dirOf parent)).freeSlot (fs.volume.dirOf parent)) ↔
      fat3283ToStr (fat32StrTo83 name) = name ∧ fat32StrTo83 name 0 ≠ deletedMark ∧
        (fs.volume.readied directory (fs.volume.dirOf parent)).Unclashed (fs.volume.dirOf parent) name) := by
  have hr : Refines fs fs.volume := ⟨hs, rfl⟩
  have htwo := Owned.dir_two h hd
  have hmade : Made fs.volume (fs.volume.dirOf parent) directory name fs' := by
    rw [← hr.nodeCluster_eq] at hd ⊢
    cases directory with
    | false => exact made_file hr h hd hmake
    | true => exact made_dir hr h hd hmake
  have hlt := hmade.count_lt (Owned.perCluster_le h)
  generalize hdir : fs.volume.dirOf parent = d at *
  have hfilled := hmade.filled hname
  have hread : fat3283ToStr (fs.volume.newEntry directory name) = fat3283ToStr (fat32StrTo83 name) :=
    fat3283ToStr_congr fun k hk => newEntry_name hk
  have hnode : ∀ t : Fat32Fs, t.volume.root = fs.volume.root → nodeCluster parent t = d := fun t hroot => by
    rw [← hdir, dirOf, nodeCluster]
    exact congrArg _ hroot
  have hr' : Refines fs' fs'.volume := ⟨hmade.refines.sound, rfl⟩
  have hd' := hnode fs' hmade.sameShape.root
  refine ⟨hfilled.new, ?_⟩
  have hwalk : FileChain fs'.volume d (fs'.volume.chain d) := by
    rw [hmade.walk.chain_eq]
    exact hmade.walk
  have hfind := finddir_iff name ((fs.volume.readied directory d).freeSlot d) hr' hd' hwalk htwo hlt
  constructor
  · rintro ⟨hfound, hdistinct, -⟩
    obtain ⟨hsearch, hend⟩ := hfind.mp hfound
    obtain ⟨hshown, hat⟩ := shown_of_search hsearch hend
    have hvisible := hfilled.shown_new.mp hshown
    rw [nameAt, hfilled.new, hread] at hat
    obtain ⟨hother, hfresh⟩ := (hfilled.distinct_iff hvisible).mp hdistinct
    rw [hread, hat] at hfresh
    exact ⟨hat, direntVisible_newEntry.mp hvisible, hother, hfresh⟩
  · rintro ⟨hform, hmark, hother, hfresh⟩
    have hvisible : direntVisible (fs.volume.newEntry directory name) := direntVisible_newEntry.mpr hmark
    have hshown := hfilled.shown_new.mpr hvisible
    have hat : fs'.volume.nameAt d ((fs.volume.readied directory d).freeSlot d) = name := by
      rw [nameAt, hfilled.new, hread, hform]
    have hdistinct : Distinct fs'.volume d none :=
      (hfilled.distinct_iff hvisible).mpr ⟨hother, by rw [hread, hform]; exact hfresh⟩
    refine ⟨hfind.mpr ⟨hshown.search_eq hat hdistinct, hshown.reached _ (le_refl _) (some_ne_none _)⟩,
      hdistinct, fun fuel t t' ht hlater hunlink => ?_⟩
    have hroot : t.volume.root = fs.volume.root := hlater.shape.root.trans hmade.sameShape.root
    obtain ⟨hshown', hat'⟩ := hlater.shown_later hshown
    exact unlink_exact ht hlater (hnode t hroot) htwo hshown' (hat'.trans hat) (hlater.distinct hdistinct) hunlink

/-- A name in upper case that is created in an empty root. -/
theorem created_name_iff_upper :
    ∃ fs', makeEntry 2 false (rootNode emptyFs) (ascii "F") emptyFs = some (0, fs') ∧
      Named fs' (rootNode emptyFs) (ascii "F") 2 0 := by
  have hreturn : (makeEntry 2 false (rootNode emptyFs) (ascii "F") emptyFs).map Prod.fst = some 0 := by decide +kernel
  obtain ⟨⟨r, fs'⟩, hmake, rfl⟩ := map_eq_some_iff.mp hreturn
  have hslot : emptyFs.volume.freeSlot 2 = 0 := by decide +kernel
  have hcount : emptyFs.volume.count 2 = 16 := by decide +kernel
  have hzero : ∀ j < 16, emptyFs.volume.entry 2 j 0 = 0 := by decide +kernel
  have hroom : emptyFs.volume.makeRoom 2 = emptyFs.volume := if_pos (by decide +kernel)
  have hnone : ∀ j, ¬ Shown emptyFs.volume 2 (some 0) j := by
    intro j hshown
    have hlt := hshown.lt
    rw [hcount] at hlt
    exact hshown.reached j (le_refl j) hshown.seen (hzero j hlt)
  have hunclashed : emptyFs.volume.Unclashed 2 (ascii "F") := by
    rw [Unclashed, hroom, hslot]
    exact ⟨fun i j hi _ _ => absurd hi (hnone i), fun j hj => absurd hj (hnone j)⟩
  have hroot : Dir emptyFs.volume none (emptyFs.volume.dirOf (rootNode emptyFs)) := .refl
  have hsound : Sound emptyFs := sound_twoClusters _ _ _ _
  have hiff := (created_name_iff hsound wellFormed_emptyFs hroot (by decide) hmake).2
  refine ⟨fs', hmake, ?_⟩
  have hnamed := hiff.mpr ⟨by decide, by decide, hunclashed⟩
  rw [← hslot]
  exact hnamed

/-- A name in lower case that is created in an empty root is not found there. -/
theorem created_name_lost : Sound emptyFs ∧ WellFormed emptyFs.volume ∧
    ∃ fs' t, makeEntry 2 false (rootNode emptyFs) (ascii "f") emptyFs = some (0, fs') ∧
      fat32VfsFinddir 4 (rootNode emptyFs) (ascii "f") fs' = some (none, t) := by
  have hreturn : (makeEntry 2 false (rootNode emptyFs) (ascii "f") emptyFs).map (fun out =>
      (out.1, (fat32VfsFinddir 4 (rootNode emptyFs) (ascii "f") out.2).map Prod.fst)) = some (0, some none) := by
    decide +kernel
  obtain ⟨⟨r, fs'⟩, hmake, hout⟩ := map_eq_some_iff.mp hreturn
  obtain ⟨rfl, hfind⟩ := Prod.mk.inj hout
  obtain ⟨⟨found, t⟩, hrun, rfl⟩ := map_eq_some_iff.mp hfind
  exact ⟨sound_twoClusters _ _ _ _, wellFormed_emptyFs, fs', t, hmake, hrun⟩

end AetherOs.Fat32
