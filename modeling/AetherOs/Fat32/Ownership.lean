import AetherOs.Fat32.Changes
import AetherOs.Base.Run

/-! # Cluster ownership over whole runs -/

namespace AetherOs.Fat32

open Base Fs Volume List Option Owned

/-! ## Writing and removing on well-formed volumes -/

section

namespace Volume

def freeCount (v : Volume) : ℕ := ((List.range' 2 v.clusters).filter fun x => v.fat x = 0).length

def dirOf (v : Volume) (node : Fat32Node) : ℕ := if 2 ≤ node.inode then node.inode else v.root

def Removable (v : Volume) (d : ℕ) (name : Name) : Prop :=
  ∀ i, search (unlinkStops name) (v.entry d) (v.count d) 0 = some i → v.entry d i 0 ≠ 0 →
    (d = v.root ∨ 2 ≤ i) ∧ (direntIsDir (v.entry d i) = true → Vacant v (direntCluster (v.entry d i)))

def Resolved (v : Volume) (node : Fat32Node) : Prop :=
  (node.directory = true ∧ Dir v none (v.dirOf node)) ∨
    ∃ d i e, node = slotNode d i e ∧ Dir v none d ∧ Holds v none d i e ∧ direntIsDir e = false

variable {v v' : Volume} {loose l l' : List ℕ} {ex : Option (ℕ × ℕ)} {c d i j : ℕ} {e : ℕ → UInt8}

theorem freeCount_le (h : ∀ x, v.Free x → x ∈ l) : v.freeCount ≤ l.length := by
  have hnodup : ((List.range' 2 v.clusters).filter fun x => v.fat x = 0).Nodup := List.Nodup.filter _ nodup_range'
  refine (hnodup.subperm fun x hx => ?_).length_le
  obtain ⟨hrange, hfree⟩ := mem_filter.mp hx
  rw [mem_range'_1] at hrange
  exact h x ⟨⟨hrange.1, by omega⟩, of_decide_eq_true hfree⟩

theorem le_freeCount (hnodup : l.Nodup) (h : ∀ x ∈ l, v.Free x) : l.length ≤ v.freeCount := by
  refine (hnodup.subperm fun x hx => ?_).length_le
  obtain ⟨⟨htwo, hlt⟩, hfree⟩ := h x hx
  exact mem_filter.mpr ⟨mem_range'_1.mpr ⟨htwo, by omega⟩, decide_eq_true hfree⟩

/-- Once no cluster is free any more, the chain has taken all of them. -/
theorem Extends.length_ge (h : Extends v v' l l') (hl : OwnChain v c l) (hfull : ∀ x, ¬ v'.Free x) :
    l.length + v.freeCount ≤ l'.length := by
  obtain ⟨added, hl', -⟩ := h.added
  have hle : v.freeCount ≤ added.length := freeCount_le fun x hx => by
    have hnot : x ∉ l := by
      rcases hl with ⟨-, rfl⟩ | ⟨-, hl⟩
      · exact not_mem_nil
      · exact hl.not_mem_of_free hx
    by_contra hout
    refine hfull x ⟨h.shape.inRange.mpr hx.1, (h.fat x ?_).trans hx.2⟩
    rw [hl', mem_append]
    exact fun hbad => hbad.elim hnot hout
  rw [hl', length_append]
  omega

theorem Tidy.before (h : Tidy v d) (hi : i < v.count d) (he : v.entry d i 0 ≠ 0) (hj : j < i) : v.entry d j 0 ≠ 0 :=
  fun hzero => he (h.ended j i (Nat.le_of_lt hj) hi hzero)

theorem ne_zero_of_live (h : direntLive e) : e 0 ≠ 0 := by
  intro hzero
  rw [direntLive, hzero] at h
  exact absurd h (by simp)

theorem Owned.ownChain (h : Owned v ex loose) (hd : Dir v ex d) (hheld : Holds v ex d i e) :
    OwnChain v (direntCluster e) (v.chain (direntCluster e)) := by
  rcases Nat.lt_or_ge (direntCluster e) 2 with hlt | hge
  · exact .inl ⟨hlt, chain_of_lt hlt⟩
  · exact .inr ⟨hge, h.chains _ _ (.entry hd hheld hge)⟩

theorem Owned.dir_disjoint (h : Owned v ex loose) (hd : Dir v ex d) : List.Disjoint (v.chain d) loose := by
  obtain ⟨o, ho⟩ := h.dir_owns hd
  exact fun x hx hbad => (h.apart x hbad).2.2 o d ho hx

end Volume

variable {fs : Fat32Fs} {v : Volume} {l : List ℕ} {c d i fuel offset : ℕ} {e de : ℕ → UInt8} {name : Name}
  {parent node : Fat32Node} {buf : List UInt8}

theorem Volume.Owned.record (h : Owned v (some (d, i)) l) (hd : Dir v (some (d, i)) d) (hi : i < v.count d)
    (hlive : direntLive (v.entry d i)) (hfile : direntIsDir (v.entry d i) = false) (hl : FileChain v c l)
    (hc : 2 ≤ c) (hsmall : c < uintSize) (size : ℕ) :
    WellFormed (v.setSlot (v.chain d) i (updateDirent size c (v.entry d i))) := by
  have hsame : ∀ k < 20, cut (updateDirent size c (v.entry d i)) k = v.entry d i k := fun k hk => by
    rw [cut, if_pos (by simp only [direntSize]; omega), updateDirent_outside hk]
  have hfirst : updateDirent size c (v.entry d i) 0 ≠ 0 := by
    rw [updateDirent_outside (by decide)]
    exact ne_zero_of_live hlive
  obtain ⟨howned, hdir, hentry, hi'⟩ := h.fill hd hi hfirst fun j hj =>
    (h.tidy d hd).before hi (ne_zero_of_live hlive) hj
  obtain ⟨hlive', hfile'⟩ := direntLive_congr (hsame 0 (by decide)) (hsame 11 (by decide))
  have hcluster : direntCluster (cut (updateDirent size c (v.entry d i))) = c := by
    have hcongr : ∀ k < direntSize, cut (updateDirent size c (v.entry d i)) k = updateDirent size c (v.entry d i) k :=
      fun k hk => if_pos hk
    rw [(dirent_congr hcongr).2.2.1, direntCluster_updateDirent hsmall]
  refine howned.attach hdir ((live_of_entry hentry hi').trans (if_pos (hlive'.trans hlive))) ?_ fun hbad => ?_
  · rw [hcluster]
    exact .inr ⟨hc, hl.congr (.setSlot _ _ _) fun _ _ => rfl⟩
  · rw [hfile', hfile] at hbad
    cases hbad

theorem vfsWrite_wellFormed (hr : Refines fs v) (h : WellFormed v) (hd : Dir v none d) (hheld : Holds v none d i e)
    (hfile : direntIsDir e = false) (henough : direntCluster e < 2 → buf ≠ [] →
      (∀ x, ¬ v.Free x) ∨ offset / v.clusterSize % uintSize < v.freeCount) :
    ∃ w, Refines (fat32VfsWrite (slotNode d i e) offset buf fs).2 w ∧ WellFormed w := by
  by_cases hbuf : buf = []
  · refine ⟨v, ?_, h⟩
    rw [fat32VfsWrite, if_neg (by rw [hr.sound.valid]; exact Bool.noConfusion), if_pos hbuf]
    exact hr
  have hplain {P : Prop} (hbad : direntIsDir e) : P := by
    rw [hfile] at hbad
    cases hbad
  obtain ⟨howned, hdir⟩ := h.detach hd hheld hplain
  obtain ⟨hi, hlive, hentry⟩ := live_eq_some.mp hheld.live
  have hsmall := (h.tidy d hd).small
  rcases vfsWrite_spec (slotNode d i e) offset hr h.hint.2 hfile hbuf (ownChain h hd hheld)
    (howned.dir_chain hdir) (howned.dir_disjoint hdir) with ⟨t, hrun, ht, -⟩ |
    ⟨c, v', l', hc, hsame, hl', hext, hout⟩
  · exact ⟨v, by rw [hrun]; exact ht, h⟩
  · have hresh := hext.reshapes hl' h.hint.1
    have howned' := howned.reshape hresh
    have hag := howned.reshape_agree hresh
    have hdir' := hag.dir.mpr hdir
    obtain ⟨hchain, hcount, hentries⟩ := howned.reshape_dir hresh hdir
    have hentry' : v'.entry d i = e := (hentries i hi).trans hentry
    have hlive' : v'.live d i = some e := live_eq_some.mpr ⟨by omega, by rw [hentry', ← hentry]; exact hlive, hentry'⟩
    have hcsmall : c < uintSize := by
      have hrange := hl'.range c (hl'.head_mem hc)
      have hfew := hr.few
      rw [InRange, hext.shape.clusters] at hrange
      simp only [uintSize, fatEocMin] at *
      omega
    rcases hout with ⟨t, hrun, ht, hlen, hfull⟩ | ⟨done, t, hrun, -, ht, -⟩
    · refine ⟨v', by rw [hrun]; exact ht, ?_⟩
      by_cases htwo : 2 ≤ direntCluster e
      · have hceq : c = direntCluster e := hsame htwo
        exact howned'.attach hdir' hlive' (.inr ⟨htwo, hceq ▸ hl'⟩) hplain
      · -- All free clusters were taken, and the chain was still too short.
        have hge := hext.length_ge (ownChain h hd hheld) hfull
        rcases henough (by omega) hbuf with hnone | hmany
        · rcases hresh.fresh c (hl'.head_mem hc) with hin | hfree
          · rw [chain_of_lt (by omega)] at hin
            exact absurd hin not_mem_nil
          · exact absurd hfree (hnone c)
        · omega
    · refine ⟨_, by rw [hrun]; exact ht, ?_⟩
      have hidx : i ≠ noDirent := by
        simp only [noDirent, uintSize]
        omega
      have hlt : i < (v.chain d).length * v'.perCluster := by
        rw [← hchain]
        change i < v'.count d
        omega
      rw [recordFile, if_pos ⟨hidx, hlt⟩]
      change WellFormed (v'.setSlot (v.chain d) i (updateDirent _ c (slot v' (v.chain d) i)))
      rw [← hchain]
      exact howned'.record hdir' (by omega) (by rw [hentry', ← hentry]; exact hlive) (by rw [hentry']; exact hfile) hl'
        hc hcsmall _

def deletedSlot (de : ℕ → UInt8) : ℕ → UInt8 := fun k => if k = 0 then deletedMark else de k

theorem direntLive_deletedSlot : direntLive (cut (deletedSlot de)) = false := by
  have hfirst : cut (deletedSlot de) 0 = deletedMark := rfl
  simp [direntLive, hfirst]

theorem removeEntry_spec {D : List ℕ} {bytes : ℕ → UInt8} (hr : Refines fs v) (hD : FileChain v d D)
    (hi : i < D.length * v.perCluster) (hl : OwnChain v (direntCluster (slot v D i)) l) (hfuel : 2 ^ 31 < fuel)
    (hbytes : ∀ j < v.clusterSize, bytes j = v.data (v.slotCluster D i) j) :
    ∃ t, removeEntry fuel (v.slotCluster D i) (i % v.perCluster) bytes fs = some (0, t) ∧
      Refines t ((v.freeAll l).setSlot D i (deletedSlot (slot v D i))) := by
  set off := i % v.perCluster * direntSize
  have hrange := hD.range _ (slotCluster_mem hi)
  have hfits := hr.aligned.fits i
  have hslot : ∀ k < direntSize, direntAt bytes (i % v.perCluster) k = slot v D i k := fun k hk => by
    rw [slot_eq_direntAt hr.aligned hk]
    exact hbytes _ (by omega)
  generalize slot v D i = e at hl hslot
  have hcluster : direntCluster (direntAt bytes (i % v.perCluster)) = direntCluster e := (dirent_congr hslot).2.2.1
  have hfree : ∃ t, (if 2 ≤ direntCluster e then fat32FreeChain fuel (direntCluster e) fs else some fs) = some t ∧
      Refines t (v.freeAll l) := by
    rcases hl with ⟨hlt, rfl⟩ | ⟨htwo, hchain⟩
    · rw [if_neg (by omega)]
      refine ⟨fs, rfl, ?_⟩
      have hsame : v.freeAll [] = v := by simp [freeAll]
      rw [hsame]
      exact hr
    · rw [if_pos htwo]
      have hless : l.length < fuel := by
        have hle := hchain.length_le
        have hfew := hr.few
        simp only [fatEocMin] at hfew
        omega
      exact freeChain_spec hr (.inl hchain) hless
  obtain ⟨t, hrun, ht⟩ := hfree
  obtain ⟨u, hwrite, hu⟩ := writeCluster_spec ht hrange
    (splice bytes off 1 fun _ => deletedMark)
  have hset : (v.freeAll l).setData (v.slotCluster D i)
      (splice bytes off 1 fun _ => deletedMark) =
      (v.freeAll l).setSlot D i (deletedSlot e) := by
    refine setData_congr fun j hj => ?_
    change _ = splice (v.data (v.slotCluster D i)) off direntSize _ j
    by_cases hin : off ≤ j ∧ j < off + direntSize
    · rw [splice_inside hin.1 hin.2, deletedSlot]
      by_cases hzero : j = off
      · rw [splice_inside (by omega) (by omega), if_pos (by omega)]
      · obtain ⟨k, rfl⟩ : ∃ k, j = off + k := ⟨_, (Nat.add_sub_cancel' hin.1).symm⟩
        rw [splice_outside (by omega), Nat.add_sub_cancel_left, if_neg (by omega), ← hslot k (by omega)]
        rfl
    · have hpos : 0 < direntSize := by decide
      rw [splice_outside (by omega), splice_outside (by omega)]
      exact hbytes j hj
  rw [hset] at hu
  refine ⟨_, ?_, sync_spec hu⟩
  have hbind : removeEntry fuel (v.slotCluster D i) (i % v.perCluster) bytes fs =
      (if 2 ≤ direntCluster e then fat32FreeChain fuel (direntCluster e) fs else some fs).bind fun fs =>
        some (0, fat32Sync ((fat32WriteCluster (v.slotCluster D i)
          (splice bytes off 1 fun _ => deletedMark) fs).getD fs)) := by
    rw [removeEntry, hcluster]
    split <;> rfl
  rw [hbind, hrun, bind_some, hwrite, getD_some]

theorem Volume.WellFormed.remove (h : WellFormed v) (hd : Dir v none d) (hheld : Holds v none d i e)
    (hempty : direntIsDir e → Vacant v (direntCluster e)) :
    WellFormed ((v.freeAll (v.chain (direntCluster e))).setSlot (v.chain d) i (deletedSlot e)) := by
  obtain ⟨hi, hlive, hentry⟩ := live_eq_some.mp hheld.live
  obtain ⟨howned, hdir⟩ := h.detach hd hheld hempty
  have hresh := howned.reshapes_freeAll
  have howned' := howned.reshape hresh
  have hdir' := (howned.reshape_agree hresh).dir.mpr hdir
  obtain ⟨hchain, hcount, hentries⟩ := howned.reshape_dir hresh hdir
  have hused : (v.freeAll (v.chain (direntCluster e))).entry d i 0 ≠ 0 := by
    rw [hentries i hi]
    exact ne_zero_of_live hlive
  have hmark : deletedSlot e 0 ≠ 0 := (show deletedMark ≠ 0 by decide)
  obtain ⟨hdone, -, hslot, hi'⟩ := howned'.fill hdir' (by omega) hmark fun j hj =>
    (howned'.tidy d hdir').before (by omega) hused hj
  rw [hchain] at hdone hslot hi'
  have hdead := live_of_entry hslot hi'
  rw [direntLive_deletedSlot, if_neg Bool.false_ne_true] at hdead
  exact (owned_hide hdead (hdone.spare d i rfl)).mp hdone

theorem vfsUnlink_wellFormed (hr : Refines fs v) (h : WellFormed v) (hd : Dir v none (nodeCluster parent fs))
    (hok : Removable v (nodeCluster parent fs) name) (hfuel : 2 ^ 31 < fuel) :
    ∃ r t w, fat32VfsUnlink fuel parent name fs = some (r, t) ∧ Refines t w ∧ WellFormed w := by
  set d := nodeCluster parent fs
  obtain ⟨t, ht, hresult⟩ := vfsUnlink_spec name parent hr (dir_chain h hd) (dir_two h hd)
    (length_lt_fuel h hd hfuel)
  change UnlinkResult v _ t fuel _ (search (unlinkStops name) (v.entry d)
    (v.count d) 0) at hresult
  cases hsearch : search (unlinkStops name) (v.entry d) (v.count d) 0 with
  | none =>
    rw [hsearch] at hresult
    exact ⟨_, t, v, hresult, ht, h⟩
  | some i =>
    rw [hsearch] at hresult
    obtain ⟨bytes, hbytes, hrun⟩ := hresult
    change _ = if v.entry d i 0 = 0 then _ else _ at hrun
    by_cases hend : v.entry d i 0 = 0
    · rw [if_pos hend] at hrun
      exact ⟨_, t, v, hrun, ht, h⟩
    · rw [if_neg hend] at hrun
      obtain ⟨-, hi, hstop, -⟩ := search_some hsearch
      rw [unlinkStops, decide_eq_false hend, Bool.false_or, Bool.and_eq_true] at hstop
      have hi' : i < v.count d := by omega
      obtain ⟨hproper, hempty⟩ := hok i hsearch hend
      have hheld : Holds v none d i (v.entry d i) :=
        ⟨some_ne_none _, hproper, live_eq_some.mpr ⟨by omega, direntLive_of_visible hend hstop.1, rfl⟩⟩
      obtain ⟨u, hdone, hu⟩ := removeEntry_spec ht (dir_chain h hd) hi' (ownChain h hd hheld) hfuel hbytes
      exact ⟨0, u, _, hrun.trans hdone, hu, h.remove hd hheld hempty⟩

theorem Refines.nodeCluster_eq (h : Refines fs v) : nodeCluster node fs = v.dirOf node := by
  rw [nodeCluster, dirOf, ← h.volume]
  rfl

theorem resolved_rootNode (h : Refines fs v) : Resolved v (rootNode fs) := by
  have hnot : ¬ 2 ≤ (rootNode fs).inode := (show ¬ 2 ≤ 0 by decide)
  refine .inl ⟨rfl, ?_⟩
  rw [← h.nodeCluster_eq, nodeCluster, if_neg hnot, ← h.volume]
  exact .refl

theorem Volume.WellFormed.resolved_slotNode (h : WellFormed v) (hd : Dir v none d) (hlive : v.live d i = some e) :
    Resolved v (slotNode d i e) := by
  have hroot : direntCluster e < 2 → v.dirOf (slotNode d i e) = v.root := fun hzero => if_neg (Nat.not_le.mpr hzero)
  have hdirectory : (slotNode d i e).directory = direntIsDir e := rfl
  have hnode : ∀ c, Dir v none c → direntCluster e = c → Dir v none (v.dirOf (slotNode d i e)) := by
    rintro c hc rfl
    have heq : v.dirOf (slotNode d i e) = direntCluster e := if_pos (dir_two h hc)
    rw [heq]
    exact hc
  by_cases hproper : d = v.root ∨ 2 ≤ i
  · have hheld : Holds v none d i e := ⟨some_ne_none _, hproper, hlive⟩
    by_cases hdir : direntIsDir e
    · exact .inl ⟨hdirectory.trans hdir, hnode _ (hd.tail ⟨i, e, hheld, hdir, rfl⟩) rfl⟩
    · exact .inr ⟨d, i, e, rfl, hd, hheld, Bool.eq_false_iff.mpr hdir⟩
  · obtain ⟨hne, hlt⟩ : d ≠ v.root ∧ i < 2 := by omega
    cases hd with
    | refl => exact absurd rfl hne
    | tail hp hsub =>
      have hdots := h.dots _ _ hp hsub
      obtain rfl | rfl : i = 0 ∨ i = 1 := by omega
      · obtain ⟨e', hself, hdir, hcluster⟩ := hdots.self
        obtain rfl := some.inj (hlive.symm.trans hself)
        exact .inl ⟨hdirectory.trans hdir, hnode _ (hp.tail hsub) hcluster⟩
      · obtain ⟨e', hparent, hdir, hcluster⟩ := hdots.parent
        obtain rfl := some.inj (hlive.symm.trans hparent)
        refine .inl ⟨hdirectory.trans hdir, ?_⟩
        rcases hcluster with hcluster | ⟨hzero, -⟩
        · exact hnode _ hp hcluster
        · rw [hroot hzero]
          exact .refl

theorem Volume.Resolved.dir (hnode : Resolved v node) (hr : Refines fs v) (hdirectory : node.directory) :
    Dir v none (nodeCluster node fs) := by
  rw [hr.nodeCluster_eq]
  rcases hnode with ⟨-, hd⟩ | ⟨d, i, e, rfl, -, -, hfile⟩
  · exact hd
  · exact absurd (hdirectory.symm.trans hfile) (by decide)

theorem findPath_spec {path : List Name} (hr : Refines fs v) (h : WellFormed v) (hnode : Resolved v node)
    (hfuel : 2 ^ 31 < fuel) : ∃ r t, findPath fuel path node fs = some (r, t) ∧ Refines t v ∧
      ∀ found, r = some found → Resolved v found := by
  induction path generalizing node fs with
  | nil => exact ⟨some node, fs, rfl, hr, fun found heq => some.inj heq ▸ hnode⟩
  | cons name path ih =>
    rw [findPath]
    by_cases hdirectory : node.directory
    · rw [if_pos hdirectory]
      have hd := hnode.dir hr hdirectory
      have hsmall := (h.tidy _ hd).small
      obtain ⟨t, ht, hfind⟩ := vfsFinddir_spec name node hr (dir_chain h hd) (dir_two h hd)
        (show v.count (nodeCluster node fs) < uintSize by simp only [uintSize]; omega)
        (show v.count (nodeCluster node fs) < fuel by omega)
      change _ = some (foundAt _ (v.entry (nodeCluster node fs)) (search (unlinkStops name)
        (v.entry (nodeCluster node fs)) (v.count (nodeCluster node fs)) 0), t) at hfind
      rw [hfind]
      cases hsearch : search (unlinkStops name) (v.entry (nodeCluster node fs)) (v.count (nodeCluster node fs)) 0 with
      | none => exact ⟨none, t, rfl, ht, by simp⟩
      | some i =>
        by_cases hend : v.entry (nodeCluster node fs) i 0 = 0
        · rw [foundAt, if_pos hend]
          exact ⟨none, t, rfl, ht, by simp⟩
        · rw [foundAt, if_neg hend]
          obtain ⟨-, hi, hstop, -⟩ := search_some hsearch
          rw [unlinkStops, decide_eq_false hend, Bool.false_or, Bool.and_eq_true] at hstop
          refine ih ht (h.resolved_slotNode hd (live_eq_some.mpr ⟨by omega, direntLive_of_visible hend hstop.1, rfl⟩))
    · rw [if_neg hdirectory]
      exact ⟨none, fs, rfl, hr, by simp⟩

end

/-! ## Cluster ownership over whole runs -/

section

inductive Call
  | create (path : List Name) (name : Name)
  | mkdir (path : List Name) (name : Name)
  | write (path : List Name) (offset : ℕ) (buf : List UInt8)
  | unlink (path : List Name) (name : Name)

def Call.path : Call → List Name
  | .create path _ => path
  | .mkdir path _ => path
  | .write path _ _ => path
  | .unlink path _ => path

def Call.apply (fuel : ℕ) (node : Fat32Node) : Call → Fat32Fs → Option (ℤ × Fat32Fs)
  | .create _ name, fs => fat32VfsCreate fuel node name fs
  | .mkdir _ name, fs => fat32VfsMkdirOp fuel node name fs
  | .write _ offset buf, fs => some ((fat32VfsWrite node offset buf fs).1.1, (fat32VfsWrite node offset buf fs).2)
  | .unlink _ name, fs => fat32VfsUnlink fuel node name fs

def execCall (fuel : ℕ) (call : Call) (fs : Fat32Fs) : Option (ℤ × Fat32Fs) :=
  match findPath fuel call.path (rootNode fs) fs with
  | none => none
  | some (none, fs) => some (-enoent, fs)
  | some (some node, fs) => call.apply fuel node fs

def VolumeStep (fs : Fat32Fs) (call : Call) (fs' : Fat32Fs) : Prop := ∃ fuel r, execCall fuel call fs = some (r, fs')

def Found (fs : Fat32Fs) (path : List Name) (node : Fat32Node) : Prop :=
  ∃ fuel t, findPath fuel path (rootNode fs) fs = some (some node, t)

def Prudent (v : Volume) (node : Fat32Node) : Call → Prop
  | .create _ name => (0 : UInt8) ∉ name ∧ node.directory = true ∧ Room v (v.dirOf node)
  | .mkdir _ name => (0 : UInt8) ∉ name ∧ fat32StrTo83 name 0 ≠ deletedMark ∧ node.directory = true ∧
      RoomForDir v (v.dirOf node)
  | .write _ offset buf => node.directory = false → node.inode < 2 → buf ≠ [] →
      (∀ x, ¬ v.Free x) ∨ offset / v.clusterSize % uintSize < v.freeCount
  | .unlink _ name => node.directory = true ∧ Removable v (v.dirOf node) name

def Safe (fs : Fat32Fs) (call : Call) : Prop := ∀ node, Found fs call.path node → Prudent fs.volume node call

variable {fs fs' : Fat32Fs} {v : Volume} {fuel fuel' : ℕ} {name : Name} {path : List Name} {parent node : Fat32Node}
  {call : Call}

section

variable (hle : fuel ≤ fuel')

include hle

theorem vfsFinddir_below :
    Below (fat32VfsFinddir fuel node name fs) (fat32VfsFinddir fuel' node name fs) := by
  rw [fat32VfsFinddir, fat32VfsFinddir]
  exact .ite (loop_below hle) (.refl _)

theorem findPath_below : Below (findPath fuel path node fs) (findPath fuel' path node fs) := by
  induction path generalizing node fs with
  | nil => exact .refl _
  | cons name path ih =>
    rw [findPath, findPath]
    refine .ite (fun r h => ?_) (.refl _)
    cases hfind : fat32VfsFinddir fuel node name fs with
    | none =>
      rw [hfind] at h
      cases h
    | some found =>
      rw [hfind] at h
      rw [vfsFinddir_below hle found hfind]
      obtain ⟨_ | child, fs⟩ := found
      · exact h
      · exact ih r h

theorem vfsCreate_below : Below (fat32VfsCreate fuel parent name fs) (fat32VfsCreate fuel' parent name fs) :=
  .bind (loop_below hle) fun _ => .refl _

theorem vfsMkdir_below : Below (fat32VfsMkdirOp fuel parent name fs) (fat32VfsMkdirOp fuel' parent name fs) := by
  rw [fat32VfsMkdirOp, fat32VfsMkdirOp]
  refine .ite (.refl _) (.bind (loop_below hle) ?_)
  rintro ⟨idx, t⟩
  refine .ite (.bind (loop_below hle) fun _ => .refl _) (.ite ?_ (.refl _))
  exact .bind (loop_below hle) fun _ => .refl _

theorem vfsUnlink_below : Below (fat32VfsUnlink fuel parent name fs) (fat32VfsUnlink fuel' parent name fs) := by
  refine loop_below_step hle ?_
  rintro ⟨c, fs⟩
  rw [unlinkStep, unlinkStep]
  split
  · cases fat32ReadCluster c fs with
    | none => exact .inl rfl
    | some buf =>
      cases hsearch : search (unlinkStops name) (direntAt buf) (entriesPerCluster fs) 0 with
      | none =>
        simp only [hsearch]
        exact .inl trivial
      | some i =>
        simp only [hsearch]
        refine .inr ⟨_, _, rfl, rfl, .ite (.refl _) ?_⟩
        rw [removeEntry, removeEntry]
        exact .ite (.bind (loop_below hle) fun _ => .refl _) (.refl _)
  · exact .inl rfl

theorem execCall_below : Below (execCall fuel call fs) (execCall fuel' call fs) := by
  intro r h
  rw [execCall] at h ⊢
  cases hfind : findPath fuel call.path (rootNode fs) fs with
  | none =>
    rw [hfind] at h
    cases h
  | some found =>
    rw [hfind] at h
    rw [findPath_below hle found hfind]
    obtain ⟨_ | node, t⟩ := found
    · exact h
    · cases call with
      | create => exact vfsCreate_below hle r h
      | mkdir => exact vfsMkdir_below hle r h
      | write => exact h
      | unlink => exact vfsUnlink_below hle r h

end

theorem apply_wellFormed (hr : Refines fs v) (h : WellFormed v) (hnode : Resolved v node) (hok : Prudent v node call)
    (hfuel : 2 ^ 31 < fuel) : ∃ r t w, call.apply fuel node fs = some (r, t) ∧ Refines t w ∧ WellFormed w := by
  have hdir := hnode.dir hr
  cases call with
  | create path name =>
    obtain ⟨hname, hdirectory, hroom⟩ := hok
    rw [← hr.nodeCluster_eq] at hroom
    exact vfsCreate_wellFormed hr h (hdir hdirectory) hname hroom hfuel
  | mkdir path name =>
    obtain ⟨hname, hmark, hdirectory, hroom⟩ := hok
    rw [← hr.nodeCluster_eq] at hroom
    exact vfsMkdir_wellFormed hr h (hdir hdirectory) hname hmark hroom hfuel
  | write path offset buf =>
    rcases hnode with ⟨hdirectory, -⟩ | ⟨d, i, e, rfl, hd, hheld, hfile⟩
    · have hsame : (fat32VfsWrite node offset buf fs).2 = fs := by
        rw [fat32VfsWrite, if_neg (by rw [hr.sound.valid]; exact Bool.noConfusion), if_pos hdirectory]
        split <;> rfl
      exact ⟨_, _, v, rfl, by rw [hsame]; exact hr, h⟩
    · obtain ⟨w, hw, hform⟩ := vfsWrite_wellFormed hr h hd hheld hfile (hok hfile)
      exact ⟨_, _, w, rfl, hw, hform⟩
  | unlink path name =>
    obtain ⟨hdirectory, hremove⟩ := hok
    rw [← hr.nodeCluster_eq] at hremove
    exact vfsUnlink_wellFormed hr h (hdir hdirectory) hremove hfuel

theorem execCall_wellFormed (hs : Sound fs) (h : WellFormed fs.volume) (hok : Safe fs call) (hfuel : 2 ^ 31 < fuel) :
    ∃ r t, execCall fuel call fs = some (r, t) ∧ Sound t ∧ WellFormed t.volume := by
  have hr : Refines fs fs.volume := ⟨hs, rfl⟩
  obtain ⟨found, t, hfind, ht, hnode⟩ : ∃ r t, findPath fuel call.path (rootNode fs) fs = some (r, t) ∧
      Refines t fs.volume ∧ ∀ found, r = some found → Resolved fs.volume found :=
    findPath_spec hr h (resolved_rootNode hr) hfuel
  rw [execCall, hfind]
  cases found with
  | none => exact ⟨_, t, rfl, ht.sound, by rw [ht.volume]; exact h⟩
  | some node =>
    obtain ⟨r, u, w, happly, hu, hform⟩ := apply_wellFormed ht h (hnode node rfl) (hok node ⟨fuel, t, hfind⟩) hfuel
    exact ⟨r, u, happly, hu.sound, by rw [hu.volume]; exact hform⟩

/-- A run of safe calls keeps a volume well-formed, and after it every safe call returns. -/
theorem cluster_ownership {calls : List Call} (hs : Sound fs) (h : WellFormed fs.volume)
    (hrun : Run (guarded Safe VolumeStep) fs calls fs') :
    Sound fs' ∧ WellFormed fs'.volume ∧ ∀ call, Safe fs' call → ∃ fs'', VolumeStep fs' call fs'' := by
  have hkept : Sound fs' ∧ WellFormed fs'.volume := by
    refine hrun.invariant (I := fun fs => Sound fs ∧ WellFormed fs.volume) ?_ ⟨hs, h⟩
    rintro s call s' ⟨hsound, hform⟩ ⟨hok, fuel, r, hexec⟩
    have hmany : 2 ^ 31 < max fuel (2 ^ 31 + 1) := by omega
    obtain ⟨r', t, hlong, ht, htform⟩ := execCall_wellFormed hsound hform hok hmany
    have hsame := some.inj (hlong.symm.trans (execCall_below (Nat.le_max_left _ _) _ hexec))
    obtain ⟨rfl, rfl⟩ : r' = r ∧ t = s' := by simpa using hsame
    exact ⟨ht, htform⟩
  refine ⟨hkept.1, hkept.2, fun call hok => ?_⟩
  obtain ⟨r, t, hexec, -⟩ := execCall_wellFormed hkept.1 hkept.2 hok (Nat.lt_succ_self _)
  exact ⟨t, _, r, hexec⟩

section Flat

structure Volume.Flat (v : Volume) : Prop where
  chain : v.chain v.root = [v.root]
  files : ∀ i < v.count v.root, direntLive (v.entry v.root i) = true →
    direntIsDir (v.entry v.root i) = false ∧ direntCluster (v.entry v.root i) < 2

variable {c d : ℕ} {o : Option (ℕ × ℕ)}

theorem Volume.Flat.plain {i : ℕ} {e : ℕ → UInt8} (h : Flat v) (hheld : Holds v none v.root i e) :
    direntIsDir e = false ∧ direntCluster e < 2 := by
  obtain ⟨hi, hlive, rfl⟩ := live_eq_some.mp hheld.live
  exact h.files i hi hlive

theorem Volume.Flat.dir_eq (h : Flat v) (hd : Dir v none d) : d = v.root := by
  induction hd with
  | refl => rfl
  | tail _ hsub ih =>
    obtain ⟨i, e, hheld, hdir, -⟩ := hsub
    rw [ih] at hheld
    cases (h.plain hheld).1.symm.trans hdir

theorem Volume.Flat.owns_eq (h : Flat v) (ho : Owns v none o c) : o = none ∧ c = v.root := by
  cases ho with
  | root => exact ⟨rfl, rfl⟩
  | entry hd hheld hc =>
    obtain rfl := h.dir_eq hd
    exact absurd (h.plain hheld).2 (by omega)

theorem Volume.Flat.wellFormed (h : Flat v) (hal : Aligned v) (hhint : 2 ≤ v.hint ∧ v.hint ≤ v.clusters + 2)
    (hroot : FileChain v v.root [v.root]) (htwo : 2 ≤ v.root) (hfree : ∀ x, v.InRange x → v.fat x ≠ 0 → x = v.root)
    (htidy : Tidy v v.root) : WellFormed v where
  aligned := hal
  hint := hhint
  rooted := htwo
  spare := fun _ _ hbad => absurd hbad.symm (some_ne_none _)
  chains := fun o c ho => by
    obtain ⟨rfl, rfl⟩ := h.owns_eq ho
    rw [h.chain]
    exact hroot
  disjoint := fun o o' c c' ho ho' hne => by
    rw [(h.owns_eq ho).1, (h.owns_eq ho').1] at hne
    exact absurd rfl hne
  apart := fun x hx => absurd hx not_mem_nil
  covered := fun x hx hused => by
    refine .inr ⟨none, v.root, .root, ?_⟩
    rw [h.chain, hfree x hx hused]
    exact mem_singleton.mpr rfl
  subdirs := fun d i e hd hheld hdir => by
    obtain rfl := h.dir_eq hd
    cases (h.plain hheld).1.symm.trans hdir
  dots := fun d s hd hs => by
    obtain rfl := h.dir_eq hd
    obtain ⟨i, e, hheld, hdir, -⟩ := hs
    cases (h.plain hheld).1.symm.trans hdir
  tidy := fun d hd => by
    rw [h.dir_eq hd]
    exact htidy

theorem wellFormed_small (hclusters : v.clusters = 2) (hroot : v.root = 2) (hsize : v.clusterSize = 512)
    (hhint : 2 ≤ v.hint ∧ v.hint ≤ 4) (hend : fatEocMin ≤ v.fat v.root) (hspare : v.fat 3 = 0)
    (hfiles : ∀ i < 16, direntLive (v.entry v.root i) →
      direntIsDir (v.entry v.root i) = false ∧ direntCluster (v.entry v.root i) < 2)
    (htidy : ∀ j < 16, ∀ i ≤ j, v.entry v.root i 0 = 0 → v.entry v.root j 0 = 0) : WellFormed v := by
  have hper : v.perCluster = 16 := by
    rw [Volume.perCluster, hsize]
    rfl
  have hchain : FileChain v v.root [v.root] := .single (by rw [InRange]; omega) hend (by rw [hclusters]; decide)
  have hcount : v.count v.root = 16 := by
    rw [Volume.count, hchain.chain_eq, hper]
    rfl
  have hflat : Flat v := ⟨hchain.chain_eq, by rwa [hcount]⟩
  refine hflat.wellFormed ⟨by omega, ?_⟩ (by omega) hchain (by omega) (fun x hx hused => ?_) ⟨?_, fun i j hij hj => ?_⟩
  · rw [hper, hsize]
    rfl
  · by_contra hne
    have hx3 : x = 3 := by
      rw [InRange] at hx
      omega
    exact hused (hx3 ▸ hspare)
  · rw [hcount]
    decide
  · exact htidy j (hcount ▸ hj) i hij

end Flat

def emptyFs : Fat32Fs := twoClusters (putLE 4 8 fatEoc fun _ => 0) (fun _ => 0) (fun _ => 0) 3

theorem wellFormed_emptyFs : WellFormed emptyFs.volume :=
  wellFormed_small rfl rfl rfl (by decide) (by decide +kernel) (by decide +kernel) (by decide +kernel) (by decide +kernel)

/-- A file is created in an empty root. -/
theorem cluster_ownership_create :
    ∃ fs', Run (guarded Safe VolumeStep) emptyFs [.create [] (ascii "F")] fs' ∧ WellFormed fs'.volume := by
  have hsafe : Safe emptyFs (.create [] (ascii "F")) := by
    rintro node ⟨fuel, t, hfind⟩
    have hpair : (some (rootNode emptyFs), emptyFs) = (some node, t) := some.inj hfind
    obtain rfl := some.inj (Prod.mk.inj hpair).1
    exact ⟨by decide, rfl, .inl ⟨0, by decide +kernel, by decide +kernel⟩⟩
  have hreturn : (execCall 2 (.create [] (ascii "F")) emptyFs).isSome := by decide +kernel
  obtain ⟨⟨r, fs'⟩, hexec⟩ := isSome_iff_exists.mp hreturn
  have hrun : Run (guarded Safe VolumeStep) emptyFs [.create [] (ascii "F")] fs' :=
    .cons ⟨hsafe, 2, r, hexec⟩ (.nil fs')
  exact ⟨fs', hrun, (cluster_ownership (sound_twoClusters _ _ _ _) wellFormed_emptyFs hrun).2.1⟩

def emptyFileFs : Fat32Fs :=
  twoClusters (putLE 4 8 fatEoc fun _ => 0) (newDirent (fat32StrTo83 (ascii "F")) attrArchive 0) (fun _ => 0) 3

/-- A write to the second cluster of an empty file fails when one cluster is free, and then that cluster is in
use without an owner. -/
theorem write_loses_cluster : Sound emptyFileFs ∧ WellFormed emptyFileFs.volume ∧
    ∃ fuel t, execCall fuel (.write [ascii "F"] 512 [1]) emptyFileFs = some (-enospc, t) ∧
      t.volume.InRange 3 ∧ t.volume.fat 3 ≠ 0 ∧ ∀ o c, Owns t.volume none o c → 3 ∉ t.volume.chain c := by
  have hform : WellFormed emptyFileFs.volume :=
    wellFormed_small rfl rfl rfl (by decide) (by decide +kernel) (by decide +kernel) (by decide +kernel) (by decide +kernel)
  have hreturn : (execCall 4 (.write [ascii "F"] 512 [1]) emptyFileFs).map (fun out => decide (out.1 = -enospc ∧
      out.2.volume.clusters = 2 ∧ out.2.volume.root = 2 ∧ out.2.volume.fat 3 ≠ 0 ∧ out.2.volume.chain 2 = [2] ∧
      out.2.volume.count 2 = 16)) = some true := by decide +kernel
  have hrest : (execCall 4 (.write [ascii "F"] 512 [1]) emptyFileFs).map (fun out => decide (∀ i : Fin 16,
      direntLive (out.2.volume.entry 2 i) → direntIsDir (out.2.volume.entry 2 i) = false ∧
        direntCluster (out.2.volume.entry 2 i) < 2)) = some true := by decide +kernel
  obtain ⟨⟨r, t⟩, hexec, hfacts⟩ := map_eq_some_iff.mp hreturn
  obtain ⟨rfl, hclusters, hroot, hused, hchain, hcount⟩ := of_decide_eq_true hfacts
  have hin : t.volume.InRange 3 := ⟨by decide, by rw [hclusters]; decide⟩
  rw [hexec, map_some, some.injEq] at hrest
  have hfiles := of_decide_eq_true hrest
  have hflat : Flat t.volume := by
    refine ⟨by rw [hroot]; exact hchain, ?_⟩
    rw [hroot, hcount]
    exact fun i hi => hfiles ⟨i, hi⟩
  refine ⟨sound_twoClusters _ _ _ _, hform, 4, t, hexec, hin, hused, fun o c ho => ?_⟩
  rw [(hflat.owns_eq ho).2, hroot, hchain]
  decide

end

end AetherOs.Fat32
