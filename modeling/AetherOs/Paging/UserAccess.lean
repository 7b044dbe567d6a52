import AetherOs.Paging.CowState

/-! # User reads and writes -/

namespace AetherOs.Paging

open Function Option

def byteAt (page : ℕ → BitVec 64) (off : ℕ) : BitVec 8 := (page (off / 8) >>> (off % 8 * 8)).setWidth 8

def setByte (page : ℕ → BitVec 64) (off : ℕ) (b : BitVec 8) : ℕ → BitVec 64 :=
  let word := page (off / 8) &&& ~~~((0xFF : BitVec 64) <<< (off % 8 * 8))
  update page (off / 8) (word ||| b.setWidth 64 <<< (off % 8 * 8))

def userLoad (s : Machine) (r v : ℕ) : Option (BitVec 8) :=
  (pageOf s r (v / pageSize)).map fun page => byteAt page (v % pageSize)

def userStore (s : Machine) (r v : ℕ) (b : BitVec 8) : Option Machine :=
  (frameOf s r (v / pageSize)).bind fun d =>
    if hasFlag (leaf s r (v / pageSize)) pteWritable then
      some { s with mem := update s.mem d (setByte (s.mem d) (v % pageSize) b) }
    else none

def writeFaultCode (s : Machine) (r v : ℕ) : BitVec 64 :=
  faultUser ||| faultWrite ||| (if (frameOf s r (v / pageSize)).isSome then faultPresent else 0)

def userWrite (s : Machine) (r v : ℕ) (b : BitVec 8) : Option Machine :=
  match userStore s r v b with
  | some s => some s
  | none =>
    match vmmHandlePageFault r v (writeFaultCode s r v) s with
    | .resolved s => userStore s r v b
    | _ => none

variable {s s' : Machine} {live : Finset ℕ} {kernel : Set ℕ} {r v off off' : ℕ} {b : BitVec 8}
variable {page : ℕ → BitVec 64}

theorem getLsbD_byteAt {i : ℕ} (hi : i < 8) :
    (byteAt page off).getLsbD i = (page (off / 8)).getLsbD (off % 8 * 8 + i) := by
  simp [byteAt, hi]

theorem byteAt_setByte : byteAt (setByte page off b) off' = if off' = off then b else byteAt page off' := by
  refine BitVec.eq_of_getLsbD_eq fun i hi => ?_
  rw [getLsbD_byteAt hi]
  by_cases hword : off' / 8 = off / 8
  · have hmask : ∀ x < 64, (0xFF : BitVec 64).getLsbD x = decide (x < 8) := by decide
    have hj : off' % 8 * 8 + i < 64 := by omega
    rw [setByte, hword, update_self]
    simp only [BitVec.getLsbD_or, BitVec.getLsbD_and, BitVec.getLsbD_not, BitVec.getLsbD_shiftLeft,
      BitVec.getLsbD_setWidth, hmask _ (show off' % 8 * 8 + i - off % 8 * 8 < 64 by omega), hj]
    by_cases heq : off' = off
    · subst heq
      simp [show off' % 8 * 8 + i - off' % 8 * 8 = i by omega, hi, show i < 64 by omega,
        show ¬ off' % 8 * 8 + i < off' % 8 * 8 by omega]
    · rw [if_neg heq, getLsbD_byteAt hi, hword]
      by_cases hlt : off' % 8 * 8 + i < off % 8 * 8
      · simp [hlt]
      · have hge : ¬ off' % 8 * 8 + i - off % 8 * 8 < 8 := by omega
        have hb : b.getLsbD (off' % 8 * 8 + i - off % 8 * 8) = false := BitVec.getLsbD_of_ge _ _ (by omega)
        simp [hlt, hge, hb]
  · have hne : off' ≠ off := fun heq => hword (by rw [heq])
    rw [setByte, update_of_ne hword, if_neg hne, getLsbD_byteAt hi]

theorem CowState.userStore (h : CowState s live kernel) (hr : r ∈ live)
    (hstore : userStore s r v b = some s') :
    CowState s' live kernel ∧ ∀ x ∈ live, ∀ w, userLoad s' x w =
      if x = r ∧ w = v then some b else userLoad s x w := by
  rw [Paging.userStore] at hstore
  obtain ⟨d, hd, hstore⟩ := bind_eq_some_iff.mp hstore
  split at hstore
  · rename_i hwritable
    obtain rfl := some.inj hstore
    obtain ⟨hstate, hpage⟩ := h.storePage hr hd hwritable (setByte (s.mem d) (v % pageSize) b)
    refine ⟨hstate, fun x hx w => ?_⟩
    rw [userLoad, hpage x hx]
    by_cases hp : x = r ∧ w / pageSize = v / pageSize
    · have hold : pageOf s x (w / pageSize) = some (s.mem d) := by rw [pageOf, hp.1, hp.2, hd]; rfl
      have hoff : w % pageSize = v % pageSize ↔ x = r ∧ w = v := by
        simp only [pageSize] at hp ⊢
        omega
      rw [if_pos hp, map_some, byteAt_setByte, userLoad, hold, map_some]
      simp only [hoff]
      split <;> rfl
    · rw [if_neg hp, if_neg fun heq => hp ⟨heq.1, by rw [heq.2]⟩]
      rfl
  · cases hstore

theorem CowState.userWrite (h : CowState s live kernel) (hr : r ∈ live) (hv : v < userPages * pageSize)
    (hwrite : userWrite s r v b = some s') :
    CowState s' live kernel ∧ ∀ x ∈ live, ∀ w, userLoad s' x w =
      if x = r ∧ w = v then some b else userLoad s x w := by
  rw [Paging.userWrite] at hwrite
  split at hwrite
  · rename_i hstore
    obtain rfl := some.inj hwrite
    exact h.userStore hr hstore
  · split at hwrite
    · rename_i hfault
      obtain ⟨hstate, hpage⟩ := h.fault hr hv hfault
      obtain ⟨hstate', hload⟩ := hstate.userStore hr hwrite
      refine ⟨hstate', fun x hx w => ?_⟩
      rw [hload x hx, userLoad, hpage x hx]
      rfl
    · cases hwrite

theorem UserSpaces.userStore_resolution {roots : Set ℕ} (h : UserSpaces s roots kernel) (hr : r ∈ roots)
    (hn : v / pageSize < userPages) (hpresent : hasFlag (leaf s r (v / pageSize)) ptePresent)
    (hres : Resolution s r (v / pageSize) s') : (userStore s' r v b).isSome := by
  have hleaf : hasFlag (leaf s' r (v / pageSize)) ptePresent ∧
      hasFlag (leaf s' r (v / pageSize)) pteWritable := by
    cases hres with
    | takeOver ht _ =>
      rw [h.leaf_setLeaf hr hn ht hr hn, if_pos ⟨rfl, rfl⟩]
      exact ⟨(samePage_soleEntry _).present.trans hpresent, hasFlag_soleEntry_writable _⟩
    | copy ht _ hz =>
      obtain ⟨-, hsame, -, hwritable⟩ := privateEntry_spec hz.1 (leaf s r (v / pageSize))
      rw [(pageCopied_copyPage h hr hn ht hpresent hz).leaf_eq r hr _ hn, if_pos ⟨rfl, rfl⟩]
      exact ⟨hsame.trans hpresent, hwritable⟩
  rw [Paging.userStore, frameOf_eq_some.mpr ⟨hn, hleaf.1, rfl⟩, bind_some, if_pos hleaf.2]
  rfl

theorem breakCow_resolved_iff (pt idx : ℕ) (pte : BitVec 64) (s : Machine) :
    (∃ s', breakCow pt idx pte s = .resolved s') ↔
      pmmGetRefcount s.pmm (tableOf pte * pageSize) = 1 ∨ (pmmAllocFrame s.pmm).1 ≠ 0 := by
  simp only [breakCow, pteAddr_eq]
  split_ifs with hsole hnone
  · exact iff_of_true ⟨_, rfl⟩ (.inl hsole)
  · refine iff_of_false ?_ fun hbad => hbad.elim hsole fun hne => hne hnone
    rintro ⟨_, hbad⟩
    cases hbad
  · exact iff_of_true ⟨_, rfl⟩ (.inr hnone)

theorem Tables.writeFault_resolved_iff {own : ℕ → Prop} {roots : Set ℕ} (h : Tables s own roots kernel) (hr : r ∈ roots)
    (hptr : physToVirt (r * pageSize) ≠ 0) (hn : v / pageSize < userPages) :
    (∃ s', vmmHandlePageFault r v (writeFaultCode s r v) s = .resolved s') ↔
      hasFlag (leaf s r (v / pageSize)) ptePresent ∧ hasFlag (leaf s r (v / pageSize)) pteCow ∧
        (pmmGetRefcount s.pmm (tableOf (leaf s r (v / pageSize)) * pageSize) = 1 ∨ (pmmAllocFrame s.pmm).1 ≠ 0) := by
  by_cases hpresent : hasFlag (leaf s r (v / pageSize)) ptePresent
  · obtain ⟨hpath, hidx⟩ := ptPath_page v
    obtain ⟨pt, ht, hleaf⟩ := table_of_present hpresent
    rw [hpath] at ht
    change _ = leaf s r (v / pageSize) at hleaf
    rw [hidx] at hleaf
    have hcode : writeFaultCode s r v = faultUser ||| faultWrite ||| faultPresent := by
      rw [writeFaultCode, frameOf_eq_some.mpr ⟨hn, hpresent, rfl⟩]
      rfl
    rw [hcode, vmmHandlePageFault, if_neg (by decide), and_iff_right hpresent]
    cases hcow : cowTable r v (faultUser ||| faultWrite ||| faultPresent) s with
    | some pt' =>
      obtain ⟨-, -, ht', hmark, -⟩ := (h.cowTable_eq_some hr).mp hcow
      obtain rfl := some.inj (ht'.symm.trans ht)
      dsimp only
      rw [hleaf] at hmark ⊢
      rw [and_iff_right hmark]
      exact breakCow_resolved_iff _ _ _ _
    | none =>
      refine iff_of_false ?_ fun hmark => ?_
      · rintro ⟨s', hres⟩
        dsimp only at hres
        split at hres <;> cases hres
      · have hsome : cowTable r v (faultUser ||| faultWrite ||| faultPresent) s = some pt :=
          (h.cowTable_eq_some hr).mpr ⟨by decide, hptr, ht, by rw [hleaf]; exact ⟨hmark.1, hpresent⟩⟩
        cases hcow.symm.trans hsome
  · refine iff_of_false ?_ fun hbad => hpresent hbad.1
    rintro ⟨_, hres⟩
    exact hpresent (h.resolution hr hres).1

theorem UserSpaces.userWrite_isSome {roots : Set ℕ} (h : UserSpaces s roots kernel) (hr : r ∈ roots)
    (hptr : physToVirt (r * pageSize) ≠ 0) (hv : v < userPages * pageSize) :
    (userWrite s r v b).isSome ↔ hasFlag (leaf s r (v / pageSize)) ptePresent ∧
      (hasFlag (leaf s r (v / pageSize)) pteWritable ∨ hasFlag (leaf s r (v / pageSize)) pteCow ∧
        (pmmGetRefcount s.pmm (tableOf (leaf s r (v / pageSize)) * pageSize) = 1 ∨ (pmmAllocFrame s.pmm).1 ≠ 0)) := by
  have hn := page_lt hv
  have hstore : userStore s r v b = none ↔ ¬ (hasFlag (leaf s r (v / pageSize)) ptePresent ∧
      hasFlag (leaf s r (v / pageSize)) pteWritable) := by
    simp only [Paging.userStore, frameOf, hn, true_and]
    split_ifs <;> simp_all
  rw [Paging.userWrite]
  cases hfirst : userStore s r v b with
  | some s₁ =>
    have hboth := not_not.mp (hstore.not.mp (by rw [hfirst]; simp))
    exact iff_of_true rfl ⟨hboth.1, .inl hboth.2⟩
  | none =>
    have hnot := hstore.mp hfirst
    have hretry := h.tables.writeFault_resolved_iff hr hptr hn
    cases hfault : vmmHandlePageFault r v (writeFaultCode s r v) s with
    | resolved s₁ =>
      obtain ⟨hpresent, hres⟩ := h.tables.resolution hr hfault
      refine iff_of_true (h.userStore_resolution hr hn hpresent hres) ?_
      obtain ⟨-, hcow⟩ := hretry.mp ⟨s₁, hfault⟩
      exact ⟨hpresent, .inr hcow⟩
    | killed | panic =>
      refine iff_of_false (by simp) ?_
      rintro ⟨hpresent, hw⟩
      obtain ⟨s₁, hres⟩ := hretry.mpr ⟨hpresent, hw.resolve_left fun hw => hnot ⟨hpresent, hw⟩⟩
      cases hfault.symm.trans hres

end AetherOs.Paging
