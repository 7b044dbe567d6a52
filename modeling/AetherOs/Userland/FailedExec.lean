import AetherOs.Paging.FailedFork
import AetherOs.Userland.FrameAccounts
import AetherOs.Userland.Placement
import AetherOs.Userland.Supplied
import Mathlib.Order.Interval.Finset.Nat

/-! # What an exec keeps -/

namespace AetherOs.Userland

open Base.Radix Paging List

def givenBack (s : Machine) (r : ℕ) : Pmm := freeAll (releasedFrames s r) s.pmm

structure ImageServed (file : ElfFile) (r : ℕ) (s : Machine) : Prop where
  placeable : Placeable [] (segments file)
  frames : Supplies (true :: requests List.isEmpty ((segments file).flatMap Phdr.pageAddrs ++ stackAddrs)) (givenBack s r)

variable {kernel : Set ℕ} {r v : ℕ} {s s' : Machine} {mapped : List ℕ} {segs : List Phdr}
variable {path : List (BitVec 8)} {found : Option ExecFile} {f : ExecFile} {t : Task}

/-! ## A new address space -/

theorem Placeable.user (h : Placeable mapped segs) (hv : v ∈ segs.flatMap Phdr.pageAddrs) : v < userPages * pageSize := by
  induction segs generalizing mapped with
  | nil => cases hv
  | cons ph segs ih =>
    obtain ⟨huser, -, -, hrest⟩ := h
    rw [flatMap_cons, mem_append] at hv
    exact hv.elim (huser v) (ih hrest)

theorem stackAddrs_user (hv : v ∈ stackAddrs) : v < userPages * pageSize := by
  obtain ⟨i, hi, rfl⟩ := mem_map.mp hv
  have := mem_range.mp hi
  simp only [userStackTop, userStackSize, userPages, pageSize] at *
  omega

theorem ready_create (hkernel : KernelHalf s kernel) (hkept : ∀ t ∈ kernel, ¬ Free s.pmm t)
    (hvs : ∀ v ∈ vs, v < userPages * pageSize) (hserve : Supplies (true :: requests List.isEmpty vs) s.pmm) :
    ∃ z s', vmmCreateAddressSpace s = (some z, s') ∧ Ready kernel z [] vs s' := by
  obtain ⟨z, hz, hlowest, hne, hnull, hrest⟩ := supplies_cons.mp hserve
  have hzero : ¬ Free s.pmm 0 := fun h0 => hne (Nat.le_zero.mp (hlowest 0 h0))
  have hroot := hkept _ hkernel.root
  have hcreate : vmmCreateAddressSpace s = (some z, newSpace s z) := by
    rcases vmmCreateAddressSpace_lowest hzero hroot with ⟨z', hz', hlowest', -, heq⟩ | ⟨-, hnone⟩ | ⟨hfree, hlow, -⟩
    · rw [heq, le_antisymm (hlowest z' hz') (hlowest' z hz)]
    · exact absurd hz (hnone z)
    · exact absurd (le_antisymm (hlowest _ hfree) (hlow z hz)) (hnull rfl)
  have hempty : EmptySpace (newSpace s z) z := emptySpace_newSpace fun heq => hroot (heq ▸ hz)
  refine ⟨z, _, hcreate, accounted_create hkernel hkept hcreate, fun n hn => (not_mem_nil hn).elim, ?_⟩
  have htables (p : List ℕ) (hown : Owned userIndex p) : hasTable (newSpace s z) z p = p.isEmpty := by
    cases p with
    | nil => rfl
    | cons i p =>
      cases ht : tableAt (newSpace s z) z (i :: p) with
      | none => rw [hasTable, ht]; rfl
      | some t => cases (hempty.tableAt_user hown ht).1
  rw [requests_congr_on fun v hv k _ =>
    htables _ (by simpa [Owned, ptPath] using owned_ptPath_of_lt (hvs v hv))]
  exact hrest

theorem supplies_of_create (hroot : ¬ Free s.pmm s.kernelPml4) (hcreate : vmmCreateAddressSpace s = (some r, s')) :
    Supplies [true] s.pmm := by
  have hzero := not_free_zero_of_create hcreate
  rcases vmmCreateAddressSpace_lowest hzero hroot with ⟨z, hz, hlowest, hne, -⟩ | ⟨heq, -⟩ | ⟨-, -, heq⟩
  · exact supplies_cons.mpr ⟨z, hz, hlowest, (hz.ne hzero).symm, fun _ => hne, trivial⟩
  · rw [heq] at hcreate
    cases hcreate
  · rw [heq] at hcreate
    cases hcreate

/-! ## The outcomes -/

theorem processExec_refused (path : List (BitVec 8)) (t : Task) (s : Machine) (hnot : ∀ f, ¬ Accepted found f) :
    ∃ code < 0, processExec path found t s = .returned code t s := by
  cases found with
  | none => exact ⟨-enoent, by decide, rfl⟩
  | some f =>
    rw [processExec]
    by_cases hbuffer : f.buffered = false
    · exact ⟨-enomem, by decide, if_pos hbuffer⟩
    by_cases hread : f.readCount ≠ toInt64 f.file.size
    · exact ⟨-eio, by decide, by rw [if_neg hbuffer, if_pos hread]⟩
    by_cases hvalid : elfValidate f.file = false
    · exact ⟨-einval, by decide, by rw [if_neg hbuffer, if_neg hread, if_pos hvalid]⟩
    · exact absurd ⟨rfl, by simpa using hbuffer, not_not.mp hread, by simpa using hvalid⟩ (hnot f)

theorem processExec_panic (path : List (BitVec 8)) (h : UserSpaces s {t.process.addressSpace} kernel)
    (hf : Accepted found f) (hroot : ¬ Supplies [true] (givenBack s t.process.addressSpace)) :
    processExec path found t s = .panic := by
  obtain ⟨rfl, hbuffered, hread, hvalid⟩ := hf
  have hgone := h.destroy (r := t.process.addressSpace) rfl
  rw [givenBack, ← vmmDestroyAddressSpace_eq h rfl] at hroot
  simp only [processExec, hbuffered, hread, hvalid, ne_eq, not_true_eq_false, Bool.true_eq_false, if_false]
  rcases hcreate : vmmCreateAddressSpace (vmmDestroyAddressSpace t.process.addressSpace s) with ⟨_ | z, s₁⟩
  · rfl
  · exact absurd (supplies_of_create (hgone.tables.shared_kept _ hgone.kernelHalf.root) hcreate) hroot

theorem processExec_served (path : List (BitVec 8)) (h : UserSpaces s {t.process.addressSpace} kernel)
    (hf : Accepted found f) (hserve : ImageServed f.file t.process.addressSpace s) :
    ∃ space t' s', processExec path found t s = .returned 0 t' s' ∧
      t'.process = raiseAll (segments f.file) { t.process with addressSpace := space } := by
  obtain ⟨rfl, hbuffered, hread, hvalid⟩ := hf
  have hgone := h.destroy (r := t.process.addressSpace) rfl
  have hpmm : (vmmDestroyAddressSpace t.process.addressSpace s).pmm = givenBack s t.process.addressSpace :=
    vmmDestroyAddressSpace_eq h rfl
  obtain ⟨space, s₁, hcreate, hready⟩ := ready_create hgone.kernelHalf hgone.tables.shared_kept (fun v hv =>
    (mem_append.mp hv).elim hserve.placeable.user stackAddrs_user) (hpmm ▸ hserve.frames)
  obtain ⟨mapped, s₂, hload, hready₂⟩ := Ready.loadPhdrs (p := { t.process with addressSpace := space }) hready
    hserve.placeable
  rw [← append_nil stackAddrs] at hready₂
  obtain ⟨s₃, hstack, -⟩ := hready₂.pagesLoop (fun v s => brkPage space v s) fun v hv {_ _ _} hr =>
    hr.brkPage (stackAddrs_user hv)
  rw [stackAddrs, foldlM_map] at hstack
  refine ⟨space, enterImage path (readLe f.file 24 8)
    { t with process := raiseAll (segments f.file) { t.process with addressSpace := space } }, s₃, ?_, rfl⟩
  have helf : elfLoad f.file { t.process with addressSpace := space } s₁ = ⟨0, some (readLe f.file 24 8),
      raiseAll (segments f.file) { t.process with addressSpace := space }, s₂⟩ := by
    rw [elfLoad, if_pos hvalid, hload]
    rfl
  simp only [processExec, hbuffered, hread, hvalid, ne_eq, not_true_eq_false, Bool.true_eq_false, if_false, hcreate,
    helf, mapStack, hstack]
  rfl

theorem length_requests_le (there : List ℕ → Bool) (vs : List ℕ) : (requests there vs).length ≤ 4 * vs.length := by
  induction vs generalizing there with
  | nil => exact Nat.zero_le _
  | cons v vs ih =>
    have hlacking : lacking there v ≤ 3 := countP_le_length
    have hrest := ih fun p => there p || p.isPrefixOf (ptPath v)
    simp only [requests, length_cons, length_append, length_replicate]
    omega

def bareTask (heap : ℕ) : Task := ⟨⟨2, heap, heap⟩, 0, ⟨0, 0, 0, 0, 0, 0, 0, 0, 0, 0, 0⟩, fun _ => 0⟩

theorem spaces_bareTask (heap : ℕ) : UserSpaces bareSession.machine {(bareTask heap).process.addressSpace} {1} :=
  accounted_bareSession.spaces

def wholeFile (file : ElfFile) : ExecFile := ⟨file, true, toInt64 file.size⟩

theorem accepted_wholeFile (file : ElfFile) (hvalid : elfValidate file) :
    Accepted (some (wholeFile file)) (wholeFile file) := ⟨rfl, rfl, rfl, hvalid⟩

theorem free_givenBack_bare {f : ℕ} (hlow : 8 ≤ f) (hhigh : f < maxFrames) : Free (givenBack bareSession.machine 2) f := by
  have hcreate : vmmCreateAddressSpace bareMachine = (some 2, bareSession.machine) :=
    Prod.ext (by decide +kernel) rfl
  have hroot : ¬ Free bareMachine.pmm bareMachine.kernelPml4 := fun hfree => absurd hfree.2 (by decide)
  obtain ⟨-, -, hnew⟩ := vmmCreateAddressSpace_eq hroot hcreate
  refine (freeAll_of_free _ ?_).1
  rw [hnew]
  refine free_takeFrame.mpr ⟨⟨hhigh, ?_⟩, by omega⟩
  have hbyte : f / 8 ≠ 0 := by omega
  simp [pmmTestBit, bareMachine, hbyte]

theorem imageServed_apartFile : ImageServed apartFile 2 bareSession.machine := by
  refine ⟨by decide +kernel, supplies_of_le_card ?_ ?_⟩
  · rw [givenBack, ← vmmDestroyAddressSpace_eq accounted_bareSession.spaces rfl]
    intro hfree
    exact absurd hfree.2 (by decide +kernel)
  · have hlow : Finset.Ico 8 9000 ⊆ lowFree (givenBack bareSession.machine 2) := by
      intro f hf
      obtain ⟨hle, hlt⟩ := Finset.mem_Ico.mp hf
      have hnull : 9000 < nullFrame := by decide
      have hmax : nullFrame < maxFrames := by decide
      exact mem_lowFree.mpr ⟨free_givenBack_bare hle (by omega), by omega⟩
    refine le_trans ?_ (Finset.card_le_card hlow)
    have hpages : ((segments apartFile).flatMap Phdr.pageAddrs).length = 2 := by decide +kernel
    have hstack : stackAddrs.length = 2048 := by rw [stackAddrs, length_map, length_range]; rfl
    have hle := length_requests_le List.isEmpty ((segments apartFile).flatMap Phdr.pageAddrs ++ stackAddrs)
    rw [length_append, hpages, hstack] at hle
    rw [length_cons, Nat.card_Ico]
    omega

def ExecResult.failedRead (v : ℕ) : ExecResult → Option (Option (BitVec 8))
  | .returned code t s => if code < 0 then some (userLoad s t.process.addressSpace v) else none
  | .panic => none

theorem not_execKeeps_of_failedRead {b : BitVec 8} (hv : v < userPages * pageSize)
    (hread : userLoad s t.process.addressSpace v = some b)
    (hfailed : (processExec path found t s).failedRead v = some none) : ¬ ExecKeeps path found t s := by
  rw [ExecKeeps]
  cases hexec : processExec path found t s with
  | panic =>
    rw [hexec] at hfailed
    cases hfailed
  | returned code t' s' =>
    rw [hexec, ExecResult.failedRead] at hfailed
    rintro ⟨hkeeps, -⟩
    by_cases hneg : code < 0
    · rw [if_pos hneg, Option.some.injEq] at hfailed
      cases hfailed.symm.trans (((hkeeps hneg).1 v hv).trans hread)
    · rw [if_neg hneg] at hfailed
      cases hfailed

def longFile : ElfFile := segmentsFile [loadHeader 120 0x800000 0x1001 0x10] []

theorem heapStart_apartFile : ∃ t' s', processExec [] (some (wholeFile apartFile)) (bareTask 0x800000)
    bareSession.machine = .returned 0 t' s' ∧ t'.process.heapStart = 0x800000 := by
  obtain ⟨space, t', s', heq, hprocess⟩ := processExec_served [] (spaces_bareTask 0x800000)
    (accepted_wholeFile apartFile (by decide +kernel)) imageServed_apartFile
  have hloaded : loadedEnd apartFile = 0x402000 := by decide +kernel
  have hraise := raiseAll_eq (segments apartFile) ⟨space, 0x800000, 0x800000⟩ hloaded
  rw [if_neg (by simp)] at hraise
  exact ⟨t', s', heq, congrArg Process.heapStart (hprocess.trans hraise)⟩

end AetherOs.Userland
