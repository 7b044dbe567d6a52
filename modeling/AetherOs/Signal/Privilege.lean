import AetherOs.Signal.Frame
import AetherOs.Signal.Masks

/-! # Privilege and the signal frame -/

namespace AetherOs.Signal

open Base Function

def userSpaceStart : ℕ := 0x400000

def userSpaceEnd : ℕ := 0x7FFFFFFFFFFF

def IsUserPtr (a : ℕ) : Prop := userSpaceStart ≤ a ∧ a < userSpaceEnd

def privilegedFlags : List ℕ := [9, 12, 13]

def FlagsKept (t : Task) : Prop :=
  ∀ i ∈ privilegedFlags, (signalDoSigreturn t).regs.rflags.getLsbD i = t.regs.rflags.getLsbD i

def ReadsUser (t : Task) : Prop :=
  ∀ memory, (∀ a, IsUserPtr a → memory a = t.memory a) →
    (signalDoSigreturn { t with memory := memory }).regs = (signalDoSigreturn t).regs

def StoresUser (handler : BitVec 64) (sig : ℕ) (t : Task) : Prop :=
  ∀ memory a, ¬ IsUserPtr a → (signalSetupFrame handler sig { t with memory := memory }).memory a = memory a

variable {t : Task} {handler : BitVec 64} {sig : ℕ}

theorem readsUser_iff :
    ReadsUser t ↔ userSpaceStart ≤ t.regs.rsp.toNat ∧ t.regs.rsp.toNat + 144 ≤ userSpaceEnd := by
  constructor
  · intro h
    -- one more in the first or the last byte of the frame shows in a register
    have hbump : ∀ a, ¬ IsUserPtr a → (signalDoSigreturn
        { t with memory := update t.memory a (t.memory a + 1) }).regs = (signalDoSigreturn t).regs :=
      fun a ha => h _ fun b hb => update_of_ne (by rintro rfl; exact ha hb) _ _
    have hne : ∀ a, update t.memory a (t.memory a + 1) a ≠ t.memory a := fun a heq => by
      have hnat := congrArg UInt8.toNat heq
      have hlt : (t.memory a).toNat < 256 := (t.memory a).toNat_lt
      rw [update_self, UInt8.toNat_add, show UInt8.toNat 1 = 1 from rfl] at hnat
      omega
    by_contra hout
    rw [not_and_or, not_le, not_le] at hout
    rcases hout with hlow | hhigh
    · have hregs := hbump t.regs.rsp.toNat fun hbad => absurd hbad.1 (not_le.mpr hlow)
      have hword : getWord (update t.memory _ _) t.regs.rsp.toNat = getWord t.memory t.regs.rsp.toNat :=
        congrFun (congrArg CpuRegisters.gpr hregs) .r15
      exact hne _ (getWord_inj hword (Nat.le_refl _) (by omega))
    · have hregs := hbump (t.regs.rsp.toNat + 143) fun hbad => by
        have := hbad.2
        omega
      have hword : getWord (update t.memory _ _) (t.regs.rsp.toNat + 136) =
          getWord t.memory (t.regs.rsp.toNat + 136) := congrArg CpuRegisters.rsp hregs
      exact hne _ (getWord_inj hword (by omega) (by omega))
  · rintro ⟨hlow, hhigh⟩ memory hsame
    have hword : ∀ off ≤ 136, getWord memory (t.regs.rsp.toNat + off) = getWord t.memory (t.regs.rsp.toNat + off) :=
      fun off hoff => getWord_congr fun j hle hlt => hsame j ⟨by omega, by omega⟩
    have hgpr : ∀ r, getWord memory (t.regs.rsp.toNat + Gpr.offset r) = getWord t.memory (t.regs.rsp.toNat + r.offset) :=
      fun r => hword _ (by cases r <;> decide)
    simp only [signalDoSigreturn, hgpr, hword 120 (by decide), hword 128 (by decide), hword 136 (by decide)]

theorem storesUser_iff : StoresUser handler sig t ↔
    userSpaceStart + 167 ≤ t.regs.rsp.toNat ∧ t.regs.rsp.toNat ≤ userSpaceEnd := by
  have hslot : (returnSlot t.regs).toNat = ((t.regs.rsp - 7#64).toNat / 16 * 16 + (2 ^ 64 - 160)) % 2 ^ 64 := by
    rw [← toNat_and_align, returnSlot, frameAddr, sigFrameSize, trampAddr, sigtrampSize]
    bv_omega
  constructor
  · intro h
    -- what is stored does not depend on what was there before
    have hfixed : ∀ a, ¬ IsUserPtr a → (∀ memory memory', (signalSetupFrame handler sig { t with memory := memory }).memory a =
        (signalSetupFrame handler sig { t with memory := memory' }).memory a) → False := fun a ha hsame => by
      have hbad := hsame (fun _ => 0) fun _ => 1
      rw [h _ a ha, h _ a ha] at hbad
      exact absurd hbad (by decide)
    by_contra hout
    rw [not_and_or, not_le, not_le] at hout
    rcases hout with hlow | hhigh
    · refine hfixed (returnSlot t.regs).toNat (fun hbad => ?_) fun memory memory' => ?_
      · have hrsp := t.regs.rsp.isLt
        rw [IsUserPtr, hslot] at hbad
        simp only [userSpaceStart, userSpaceEnd] at hbad hlow
        bv_omega
      · change putLE 8 _ _ (putWords _ _ _) _ = putLE 8 _ _ (putWords _ _ _) _
        rw [putLE, putLE, splice_inside (Nat.le_refl _) (by omega), splice_inside (Nat.le_refl _) (by omega)]
    · have hplaced : Placed t.regs := placed_of_le (Nat.le_trans (by decide) hhigh.le)
      have htop : t.regs.rsp.toNat - 1 = (trampAddr t.regs).toNat + 6 := by
        have := hplaced.tramp
        rw [sigtrampSize] at this
        omega
      refine hfixed (t.regs.rsp.toNat - 1) (fun hbad => ?_) fun memory memory' => ?_
      · have := hbad.2
        omega
      · rw [htop]
        exact (setup_tramp (t := { t with memory := memory }) hplaced (by decide)).trans
          (setup_tramp (t := { t with memory := memory' }) hplaced (by decide)).symm
  · rintro ⟨hlow, hhigh⟩ memory a ha
    have hplaced : Placed t.regs := placed_of_le (Nat.le_trans (by decide) hlow)
    obtain ⟨htramp, hframe, hret⟩ := hplaced
    rw [sigtrampSize] at htramp
    rw [sigFrameSize] at hframe
    have hout : a < (returnSlot t.regs).toNat ∨ t.regs.rsp.toNat ≤ a := by
      by_contra hin
      rw [not_or, not_lt, not_le] at hin
      refine ha ⟨Nat.le_trans ?_ hin.1, by omega⟩
      rw [hslot]
      simp only [userSpaceStart, userSpaceEnd] at hlow hhigh ⊢
      bv_omega
    change putLE 8 (returnSlot t.regs).toNat _
      (putWords (splice memory (trampAddr t.regs).toNat _ _) (frameAddr t.regs).toNat _) a = memory a
    rw [putLE, splice_outside (by omega),
      putWords_outside (by rw [show (sigFrame t.regs sig).length = 19 from rfl]; omega), sigtrampSize,
      splice_outside (by omega)]

/-- `sigreturn` leaves the privileged flags exactly when the frame holds them as they are, takes the
registers from user space exactly when the frame lies there, and the set-up of a frame stores to user
space only exactly when the stack has room for it there. -/
theorem sigreturn_unprivileged_iff (handler : BitVec 64) (sig : ℕ) (t : Task) :
    (FlagsKept t ↔ ∀ i ∈ privilegedFlags,
      (getWord t.memory (t.regs.rsp.toNat + 120)).getLsbD i = t.regs.rflags.getLsbD i) ∧
    (ReadsUser t ↔ userSpaceStart ≤ t.regs.rsp.toNat ∧ t.regs.rsp.toNat + 144 ≤ userSpaceEnd) ∧
    (StoresUser handler sig t ↔ userSpaceStart + 167 ≤ t.regs.rsp.toNat ∧ t.regs.rsp.toNat ≤ userSpaceEnd) :=
  ⟨Iff.rfl, readsUser_iff, storesUser_iff⟩

def forgedFrame : Task :=
  { idle.task with
    regs := { idle.task.regs with rsp := 0x500000 }
    memory := putLE 8 (0x500000 + 120) 0x3002 idle.task.memory }

def kernelStack : Task := { idle.task with regs := { idle.task.regs with rsp := 0xFFFFFFFF80100000 } }

/-- Both run in ring 3. The first one gets the flags it has put into the frame; the second one has a
trampoline stored to a kernel address. -/
theorem sigreturn_grants_privilege :
    forgedFrame.regs.cs &&& 3 = 3 ∧ forgedFrame.regs.rflags = 0x202 ∧
      (signalDoSigreturn forgedFrame).regs.rflags = 0x3002 ∧
      kernelStack.regs.cs &&& 3 = 3 ∧ kernelStack.memory 0xFFFFFFFF800FFFF9 = 0 ∧
      (signalSetupFrame 0x400000 sigusr1 kernelStack).memory 0xFFFFFFFF800FFFF9 = 0xB8 ∧
      ¬ IsUserPtr 0xFFFFFFFF800FFFF9 := by
  refine ⟨by decide +kernel, by decide +kernel, by decide +kernel, by decide +kernel, rfl, by decide +kernel, ?_⟩
  rintro ⟨-, hbad⟩
  exact absurd hbad (by decide)

end AetherOs.Signal
