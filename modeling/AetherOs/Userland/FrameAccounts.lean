import AetherOs.Base.Run
import AetherOs.Userland.PageRounds

/-! # The frames of a process -/

namespace AetherOs.Userland

open Base Paging Function List

variable {kernel taken : Set ℕ} {r : ℕ} {s s' : Machine}

inductive MemCall
  | brk (newBrk : ℕ)
  | mmap (addr length : ℕ)
  | munmap (addr length : ℕ)

def MemCall.run : MemCall → Kernel → ℤ × Kernel
  | .brk newBrk => sysBrk newBrk
  | .mmap addr length => sysMmap addr length
  | .munmap addr length => sysMunmap addr length

def MemCall.maps (p : Process) : MemCall → List ℕ
  | .brk newBrk =>
    if newBrk = 0 ∨ newBrk < p.heapStart then []
    else (List.range ((alignUp newBrk pageSize - alignUp p.heapEnd pageSize) / pageSize)).map fun i =>
      alignUp p.heapEnd pageSize + i * pageSize
  | .mmap addr length =>
    if length = 0 then []
    else (List.range (alignUp length pageSize / pageSize)).map fun i =>
      addWord (alignUp (if addr = 0 then p.heapEnd else addr) pageSize) (i * pageSize)
  | .munmap _ _ => []

def MemCall.unmaps : MemCall → List ℕ
  | .munmap addr length =>
    if addr = 0 then [] else (List.range (alignUp length pageSize / pageSize)).map fun i => addWord addr (i * pageSize)
  | _ => []

def MemCall.User (p : Process) (c : MemCall) : Prop :=
  (∀ newBrk, c = .brk newBrk → newBrk < wordSize) ∧ ∀ v ∈ c.maps p ++ c.unmaps, v < userPages * pageSize

open MemCall

structure Session where
  machine : Machine
  process : Process
  taken : Set ℕ

def Session.running (σ : Session) : Kernel := ⟨σ.machine, some σ.process⟩

open Session

def MemStep (σ : Session) (c : MemCall) (σ' : Session) : Prop :=
  c.User σ.process ∧ (c.run σ.running).2 = σ'.running ∧ σ'.taken = takenAfter σ.taken σ.machine σ'.machine

def Clean (σ : Session) (c : MemCall) : Prop :=
  (pmmAllocFrame σ.machine.pmm).1 = 0 ∨
    (Supplies (requests (hasTable σ.machine σ.process.addressSpace) (c.maps σ.process)) σ.machine.pmm ∧
      ∀ v ∈ c.maps σ.process, ∀ d, frameOf σ.machine σ.process.addressSpace (v / pageSize) = some d → d ∉ σ.taken)

theorem MemCall.nodup_maps (p : Process) (c : MemCall) : ((c.maps p).map (· / pageSize)).Nodup := by
  have hpage : 0 < pageSize := by decide
  cases c with
  | brk newBrk =>
    rw [maps]
    split
    · simp
    · rw [map_map]
      refine List.Nodup.map_on (fun i _ j _ heq => ?_) nodup_range
      simp only [comp_apply, Nat.add_mul_div_right _ _ hpage] at heq
      omega
  | mmap addr length =>
    rw [maps]
    split
    · simp
    · rw [map_map]
      refine List.Nodup.map_on (fun i hi j hj heq => ?_) nodup_range
      have hlen : alignUp length pageSize / pageSize < 2 ^ 52 := by
        simp only [alignUp, addWord, pageSize, wordSize]
        omega
      rw [mem_range] at hi hj
      simp only [comp_apply, addWord, pageSize, wordSize] at heq
      omega
  | munmap addr length => simp [maps]

theorem toInt64_nonneg {n : ℕ} (h : n < 2 ^ 63) : 0 ≤ toInt64 n := by
  rw [toInt64, BitVec.toInt_eq_toNat_of_lt (by rw [BitVec.toNat_ofNat]; omega)]
  omega

theorem Accounted.mapPages_ends {round : ℕ → Machine → Except Machine Machine} (hround : MapRound r round)
    {vs : List ℕ} (h : Accounted kernel r taken s) (huser : ∀ v ∈ vs, v < userPages * pageSize)
    (hnodup : (vs.map (· / pageSize)).Nodup)
    (hclean : (pmmAllocFrame s.pmm).1 = 0 ∨ (Supplies (requests (hasTable s r) vs) s.pmm ∧
      ∀ v ∈ vs, ∀ d, frameOf s r (v / pageSize) = some d → d ∉ taken)) :
    Ends (fun s' => Accounted kernel r (takenAfter taken s s') s' ∧ (vs = [] → s' = s)) (fun e => e = s)
      (vs.foldlM (fun s v => round v s) s) := by
  cases vs with
  | nil => exact ⟨h.takenAfter_self.symm ▸ h, fun _ => rfl⟩
  | cons v vs =>
    rcases hclean with hnone | ⟨hserve, hover⟩
    · have hstop := hround.stops v s (pmmAllocFrame_eq_of_zero h.zero hnone)
      rw [foldlM_cons, hstop]
      rfl
    · obtain ⟨s', hok, hacc, -⟩ := h.mapPages hround huser hnodup hover hserve
      rw [hok]
      exact ⟨hacc, fun hnil => by cases hnil⟩

structure StepKept (kernel : Set ℕ) (σ : Session) (res : ℤ × Kernel) : Prop where
  account : Accounted kernel σ.process.addressSpace (takenAfter σ.taken σ.machine res.2.machine) res.2.machine
  space : ∀ p ∈ res.2.current, p.addressSpace = σ.process.addressSpace
  error : res.1 < 0 → res.2.machine = σ.machine

section Kept

variable {σ : Session} {newBrk addr length : ℕ}
  (h : Accounted kernel σ.process.addressSpace σ.taken σ.machine)

include h

theorem stepKept_self (result : ℤ) : StepKept kernel σ (result, σ.running) :=
  ⟨h.takenAfter_self.symm ▸ h, fun p hp => by obtain rfl := Option.some.inj hp; rfl, fun _ => rfl⟩

theorem stepKept_error {e : Machine} (he : e = σ.machine) :
    StepKept kernel σ (-enomem, { σ.running with machine := e }) := by
  subst he
  exact stepKept_self h _

omit h in
theorem toInt64_newBrk_nonneg {p : Process} (huser : (brk newBrk).User p) (hne : (brk newBrk).maps p ≠ []) :
    0 ≤ toInt64 newBrk := by
  obtain ⟨hargs, hpages⟩ := huser
  have hlt := hargs newBrk rfl
  rw [maps] at hne hpages
  split_ifs at hne with hearly
  · exact absurd rfl hne
  · rw [if_neg hearly] at hpages
    obtain ⟨a, ha⟩ := dvd_alignUp p.heapEnd pageSize
    obtain ⟨b, hb⟩ := dvd_alignUp newBrk pageSize
    have hcount : (alignUp newBrk pageSize - alignUp p.heapEnd pageSize) / pageSize ≠ 0 := fun hzero => by
      simp [hzero] at hne
    have hlast := hpages _ (mem_append_left _ (mem_map.mpr
      ⟨_, mem_range.mpr (Nat.sub_lt (Nat.pos_of_ne_zero hcount) Nat.one_pos), rfl⟩))
    refine toInt64_nonneg ?_
    rw [ha, hb] at hlast hcount
    simp only [alignUp, addWord, pageSize, wordSize, userPages] at *
    omega

theorem stepKept_brk (huser : (brk newBrk).User σ.process) (hclean : Clean σ (.brk newBrk)) :
    StepKept kernel σ (sysBrk newBrk σ.running) := by
  have hends := h.mapPages_ends (mapRound_brkPage _) (fun v hv => huser.2 v (mem_append_left _ hv))
    (nodup_maps σ.process (.brk newBrk)) hclean
  have hsign := toInt64_newBrk_nonneg huser
  simp only [sysBrk, running]
  split
  · exact stepKept_self h _
  · split
    · exact stepKept_self h _
    · rename_i hne hge
      rw [maps, if_neg (by tauto)] at hends hsign
      rw [foldlM_map] at hends
      refine hends.outcome (R := StepKept kernel σ) (fun s' hs' => ⟨hs'.1, ?_, fun hneg => hs'.2 ?_⟩) fun e he =>
        stepKept_error h he
      · rintro p hp
        obtain rfl := Option.some.inj hp
        rfl
      · by_contra hpages
        exact absurd (hsign hpages) (by simpa using hneg)

theorem stepKept_mmap (huser : (mmap addr length).User σ.process) (hclean : Clean σ (.mmap addr length)) :
    StepKept kernel σ (sysMmap addr length σ.running) := by
  have hends := h.mapPages_ends (mapRound_mmapPage _) (fun v hv => huser.2 v (mem_append_left _ hv))
    (nodup_maps σ.process (.mmap addr length)) hclean
  have hpages := huser.2
  simp only [sysMmap, running]
  split
  · exact stepKept_self h _
  · rename_i hne
    rw [maps, if_neg hne] at hends hpages
    rw [foldlM_map] at hends
    refine hends.outcome (R := StepKept kernel σ) (fun s' hs' => ⟨hs'.1, ?_, fun hneg => hs'.2 ?_⟩) fun e he =>
      stepKept_error h he
    · rintro p hp
      obtain rfl := Option.some.inj hp
      rfl
    · by_contra hnil
      have hcount : alignUp length pageSize / pageSize ≠ 0 := fun hzero => by simp [hzero] at hnil
      have hfirst := hpages _ (mem_append_left _ (mem_map.mpr
        ⟨0, mem_range.mpr (Nat.pos_of_ne_zero hcount), rfl⟩))
      refine absurd (toInt64_nonneg ?_) (by simpa using hneg)
      simp only [alignUp, addWord, pageSize, wordSize, userPages] at *
      omega

theorem stepKept_munmap (huser : (munmap addr length).User σ.process) :
    StepKept kernel σ (sysMunmap addr length σ.running) := by
  have hpages := huser.2
  simp only [sysMunmap, running]
  split_ifs with hne
  · exact stepKept_self h _
  · rw [unmaps, if_neg hne] at hpages
    have hloop := foldl_range_invariant (n := alignUp length pageSize / pageSize)
      (f := fun s i => munmapPage σ.process.addressSpace (addWord addr (i * pageSize)) s) (s := σ.machine)
      (fun _ t => Accounted kernel σ.process.addressSpace (takenAfter σ.taken σ.machine t) t ∧
        ∀ f, Free σ.machine.pmm f → Free t.pmm f) ⟨h.takenAfter_self.symm ▸ h, fun _ hf => hf⟩ (by
        rintro i hi t ⟨ht, hfree⟩
        obtain ⟨hacc, hmono⟩ := ht.munmapPage (hpages _ (mem_append_right _ (mem_map.mpr
          ⟨i, mem_range.mpr hi, rfl⟩)))
        exact ⟨takenAfter_trans (.inr hmono) ▸ hacc, fun f hf => hmono f (hfree f hf)⟩)
    exact ⟨hloop.1, fun p hp => by obtain rfl := Option.some.inj hp; rfl, fun hneg => by simp at hneg⟩

theorem MemCall.kept {c : MemCall} (huser : c.User σ.process) (hclean : Clean σ c) :
    StepKept kernel σ (c.run σ.running) := by
  cases c with
  | brk newBrk => exact stepKept_brk h huser hclean
  | mmap addr length => exact stepKept_mmap h huser hclean
  | munmap addr length => exact stepKept_munmap h huser

end Kept

theorem MemCall.exists_step (σ : Session) {c : MemCall} (huser : c.User σ.process) :
    ∃ σ', MemStep σ c σ' ∧ σ'.machine = (c.run σ.running).2.machine := by
  obtain ⟨p, hp⟩ : ∃ p, (c.run σ.running).2.current = some p := by
    cases c with
    | brk newBrk =>
      simp only [run, sysBrk, running, outcome]
      split_ifs <;> (try split) <;> exact ⟨_, rfl⟩
    | mmap addr length =>
      simp only [run, sysMmap, running, outcome]
      split_ifs <;> (try split) <;> exact ⟨_, rfl⟩
    | munmap addr length =>
      simp only [run, sysMunmap, running]
      split_ifs <;> exact ⟨_, rfl⟩
  refine ⟨⟨(c.run σ.running).2.machine, p, takenAfter σ.taken σ.machine (c.run σ.running).2.machine⟩,
    ⟨huser, ?_, rfl⟩, rfl⟩
  change (c.run σ.running).2 = ⟨(c.run σ.running).2.machine, some p⟩
  rw [← hp]

theorem MemStep.account {σ σ' : Session} {c : MemCall} (hstep : MemStep σ c σ') (hclean : Clean σ c)
    (h : Accounted kernel σ.process.addressSpace σ.taken σ.machine) :
    σ'.process.addressSpace = σ.process.addressSpace ∧
      Accounted kernel σ'.process.addressSpace σ'.taken σ'.machine := by
  obtain ⟨huser, hrun, htaken⟩ := hstep
  have hkept := kept h huser hclean
  have hspace := hkept.space σ'.process (hrun ▸ rfl)
  have haccount := hkept.account
  rw [hrun] at haccount
  refine ⟨hspace, ?_⟩
  rw [hspace, htaken]
  exact haccount

def bareSession : Session := ⟨(vmmCreateAddressSpace bareMachine).2, ⟨2, 0x400000, 0x400000⟩, ∅⟩

theorem accounted_bareSession : Accounted {1} 2 ∅ bareSession.machine := by
  have hcreate : (vmmCreateAddressSpace bareMachine).1 = some 2 := by decide +kernel
  exact accounted_create kernelHalf_bareMachine kept_bareMachine (Prod.ext hcreate rfl)

def onePage : MemCall := .mmap 0x400000 pageSize

theorem user_onePage (p : Process) : onePage.User p := by
  refine ⟨fun _ h => (nomatch h), ?_⟩
  change ∀ v ∈ [addWord (alignUp 0x400000 pageSize) (0 * pageSize)], _
  decide

theorem clean_onePage : Clean bareSession onePage := by
  refine .inr ⟨by decide +kernel, fun _ _ _ _ => Set.notMem_empty _⟩

theorem run_onePage (σ : Session) (hround : mmapPage σ.process.addressSpace 0x400000 σ.machine = .ok s') :
    onePage.run σ.running = (0x400000, ⟨s', some { σ.process with heapEnd := 0x401000 }⟩) := by
  have hloop : (List.range (alignUp pageSize pageSize / pageSize)).foldlM (fun s i =>
      mmapPage σ.process.addressSpace (addWord (alignUp 0x400000 pageSize) (i * pageSize)) s) σ.machine = .ok s' := by
    change mmapPage σ.process.addressSpace 0x400000 σ.machine >>= pure = _
    rw [hround]
    rfl
  have hsize : pageSize ≠ 0 := by decide
  simp only [onePage, run, sysMmap, running, if_neg hsize]
  rw [if_neg (by decide), hloop]
  rfl

theorem taken_onePage {σ : Session} (hstep : MemStep bareSession onePage σ)
    (hmachine : σ.machine = (onePage.run bareSession.running).2.machine) : 3 ∈ σ.taken := by
  have hbit : pmmTestBit (onePage.run bareSession.running).2.machine.pmm 3 := by decide +kernel
  rw [hstep.2.2]
  refine ⟨fun hfree => ?_, .inr ⟨by decide, by decide +kernel⟩⟩
  rw [hmachine] at hfree
  exact absurd hfree.2 (by rw [hbit]; decide)

end AetherOs.Userland
