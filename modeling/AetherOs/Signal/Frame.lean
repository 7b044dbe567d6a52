import AetherOs.Base.Flags
import AetherOs.Signal.Model

/-! # The signal frame -/

namespace AetherOs.Signal

open Base

variable {t u : Task} {handler : BitVec 64} {sig : ℕ}

def sysSigreturn : BitVec 64 := 52

inductive Instr
  | ret
  | movEax (imm : ℕ)
  | int80
  deriving DecidableEq

def fetch (memory : ℕ → UInt8) (addr : ℕ) : Option Instr :=
  if memory addr = 0xC3 then some .ret
  else if memory addr = 0xB8 then some (.movEax (leNat memory 4 (addr + 1)))
  else if memory addr = 0xCD ∧ memory (addr + 1) = 0x80 then some .int80
  else none

def syscallHandler (t : Task) : Option Task :=
  if t.regs.gpr .rax = sysSigreturn then some (signalDoSigreturn t) else none

def Instr.exec (t : Task) : Instr → Option Task
  | .ret => some { t with regs := { t.regs with rip := getWord t.memory t.regs.rsp.toNat, rsp := t.regs.rsp + 8 } }
  | .movEax imm => some { t with regs := { t.regs with rip := t.regs.rip + 5 }.set .rax (BitVec.ofNat 64 imm) }
  | .int80 => syscallHandler { t with regs := { t.regs with rip := t.regs.rip + 2 } }

def stepInstr (t : Task) : Option Task := (fetch t.memory t.regs.rip.toNat).bind (Instr.exec t)

def stepInstrs : ℕ → Task → Option Task
  | 0, t => some t
  | n + 1, t => (stepInstr t).bind (stepInstrs n)

structure Returning (entry exit : Task) : Prop where
  instr : fetch exit.memory exit.regs.rip.toNat = some .ret
  rsp : exit.regs.rsp = entry.regs.rsp
  memory : ∀ a, entry.regs.rsp.toNat ≤ a → exit.memory a = entry.memory a

def Apart (a n b m : ℕ) : Prop := a + n ≤ b ∨ b + m ≤ a

structure Placed (regs : CpuRegisters) : Prop where
  tramp : (trampAddr regs).toNat + sigtrampSize = regs.rsp.toNat
  frame : (frameAddr regs).toNat + sigFrameSize ≤ (trampAddr regs).toNat
  slot : (returnSlot regs).toNat + 8 = (frameAddr regs).toNat

theorem toNat_and_align (x : BitVec 64) : (x &&& ~~~0xF).toNat = x.toNat / 16 * 16 := by
  have hmask : ∀ i < 64, (~~~(0xF : BitVec 64)).getLsbD i = (decide (4 ≤ i) && decide (i < 4 + 60)) := by decide
  have hlt : x.toNat / 2 ^ 4 < 2 ^ 60 := Nat.div_lt_of_lt_mul x.isLt
  rw [toNat_and_field 4 60 x _ hmask, Nat.mod_eq_of_lt hlt]
  rfl

theorem placed_of_le {regs : CpuRegisters} (h : 4096 ≤ regs.rsp.toNat) : Placed regs := by
  have htramp : (trampAddr regs).toNat + 7 = regs.rsp.toNat := by
    rw [trampAddr, sigtrampSize]
    bv_omega
  have halign := toNat_and_align (trampAddr regs)
  have hframe : (frameAddr regs).toNat + 152 = (trampAddr regs).toNat / 16 * 16 := by
    rw [← halign, frameAddr, sigFrameSize]
    bv_omega
  have hslot : (returnSlot regs).toNat + 8 = (frameAddr regs).toNat := by
    rw [returnSlot]
    bv_omega
  refine ⟨htramp, ?_, hslot⟩
  rw [sigFrameSize]
  omega

theorem setup_tramp (h : Placed t.regs) {k : ℕ} (hk : k < sigtrampSize) :
    (signalSetupFrame handler sig t).memory ((trampAddr t.regs).toNat + k) = sigreturnTramp.getD k 0 := by
  obtain ⟨-, hframe, hslot⟩ := h
  change putLE 8 _ _ (putWords _ _ _) _ = _
  rw [putLE, splice_outside (by omega),
    putWords_outside (.inr (by rw [show (sigFrame t.regs sig).length = 19 from rfl]; rw [sigFrameSize] at hframe; omega)),
    splice_inside (by omega) (by omega), Nat.add_sub_cancel_left]

theorem setup_frame (h : Placed t.regs) {k : ℕ} {w : BitVec 64} (hk : (sigFrame t.regs sig)[k]? = some w) :
    getWord (signalSetupFrame handler sig t).memory ((frameAddr t.regs).toNat + 8 * k) = w := by
  obtain ⟨-, -, hslot⟩ := h
  rw [← getWord_putWords (b := splice t.memory (trampAddr t.regs).toNat sigtrampSize (sigreturnTramp.getD · 0)) hk]
  refine getWord_congr fun j hle hlt => ?_
  change putLE 8 _ _ (putWords _ _ _) _ = _
  rw [putLE, splice_outside (by omega)]

theorem setup_slot :
    getWord (signalSetupFrame handler sig t).memory (returnSlot t.regs).toNat = trampAddr t.regs := getWord_putLE

structure Holds (regs : CpuRegisters) (sig : ℕ) (memory : ℕ → UInt8) : Prop where
  tramp : ∀ k < sigtrampSize, memory ((trampAddr regs).toNat + k) = sigreturnTramp.getD k 0
  frame : ∀ k w, (sigFrame regs sig)[k]? = some w → getWord memory ((frameAddr regs).toNat + 8 * k) = w
  slot : getWord memory (returnSlot regs).toNat = trampAddr regs

theorem Returning.holds (h : Placed t.regs) (hret : Returning (signalSetupFrame handler sig t) u) :
    Holds t.regs sig u.memory := by
  obtain ⟨-, hframe, hslot⟩ := id h
  have hsame : ∀ a, (returnSlot t.regs).toNat ≤ a → u.memory a = (signalSetupFrame handler sig t).memory a :=
    hret.memory
  refine ⟨fun k hk => ?_, fun k w hw => ?_, ?_⟩
  · rw [hsame _ (by omega)]
    exact setup_tramp h hk
  · rw [getWord_congr fun j hle _ => hsame j (by omega)]
    exact setup_frame h hw
  · rw [getWord_congr fun j hle _ => hsame j hle]
    exact setup_slot

theorem step_ret (h : Placed t.regs) (hret : Returning (signalSetupFrame handler sig t) u) :
    stepInstr u = some { u with regs := { u.regs with rip := trampAddr t.regs, rsp := frameAddr t.regs } } := by
  have hrsp : u.regs.rsp = returnSlot t.regs := hret.rsp
  rw [stepInstr, hret.instr, Option.bind_some, Instr.exec, hrsp, (hret.holds h).slot, returnSlot,
    BitVec.sub_add_cancel]

theorem fetch_tramp {regs : CpuRegisters} {memory : ℕ → UInt8} (h : Holds regs sig memory) :
    fetch memory (trampAddr regs).toNat = some (.movEax 52) := by
  have hbyte : ∀ k (hk : k < 7), memory ((trampAddr regs).toNat + k) = sigreturnTramp.getD k 0 := h.tramp
  have h0 : memory (trampAddr regs).toNat = 0xB8 := hbyte 0 (by decide)
  have hnum : leNat memory 4 ((trampAddr regs).toNat + 1) = 52 := by
    simp only [leNat, Nat.add_assoc, hbyte 1 (by decide), hbyte 2 (by decide), hbyte 3 (by decide),
      hbyte 4 (by decide), Nat.reduceAdd]
    rfl
  rw [fetch, h0, hnum]
  rfl

theorem fetch_int {regs : CpuRegisters} {memory : ℕ → UInt8} (h : Holds regs sig memory) :
    fetch memory ((trampAddr regs).toNat + 5) = some .int80 := by
  have h5 : memory ((trampAddr regs).toNat + 5) = 0xCD := h.tramp 5 (by decide)
  have h6 : memory ((trampAddr regs).toNat + 5 + 1) = 0x80 := h.tramp 6 (by decide)
  rw [fetch, h5, h6]
  rfl

theorem sigreturn_regs (hsp : u.regs.rsp = frameAddr t.regs) (h : Holds t.regs sig u.memory) :
    (signalDoSigreturn u).regs.gpr = t.regs.gpr ∧ (signalDoSigreturn u).regs.rip = t.regs.rip ∧
      (signalDoSigreturn u).regs.rsp = t.regs.rsp ∧ (signalDoSigreturn u).regs.rflags = t.regs.rflags := by
  rw [signalDoSigreturn, hsp]
  refine ⟨?_, h.frame 16 _ rfl, h.frame 17 _ rfl, h.frame 15 _ rfl⟩
  funext r
  cases r with
  | r15 => exact h.frame 0 _ rfl
  | r14 => exact h.frame 1 _ rfl
  | r13 => exact h.frame 2 _ rfl
  | r12 => exact h.frame 3 _ rfl
  | r11 => exact h.frame 4 _ rfl
  | r10 => exact h.frame 5 _ rfl
  | r9 => exact h.frame 6 _ rfl
  | r8 => exact h.frame 7 _ rfl
  | rbp => exact h.frame 8 _ rfl
  | rdi => exact h.frame 9 _ rfl
  | rsi => exact h.frame 10 _ rfl
  | rdx => exact h.frame 11 _ rfl
  | rcx => exact h.frame 12 _ rfl
  | rbx => exact h.frame 13 _ rfl
  | rax => exact h.frame 14 _ rfl

theorem step_tramp (hp : Placed t.regs) (h : Holds t.regs sig u.memory) (hrip : u.regs.rip = trampAddr t.regs) :
    ∃ v, stepInstrs 2 u = some (signalDoSigreturn v) ∧ v.regs.rsp = u.regs.rsp ∧ v.memory = u.memory := by
  have hnext : (trampAddr t.regs + 5).toNat = (trampAddr t.regs).toNat + 5 := by
    obtain ⟨htramp, -, -⟩ := hp
    have hlt := t.regs.rsp.isLt
    rw [sigtrampSize] at htramp
    bv_omega
  refine ⟨{ u with regs := { { u.regs with rip := trampAddr t.regs + 5 }.set .rax 52 with
    rip := trampAddr t.regs + 5 + 2 } }, ?_, rfl, rfl⟩
  rw [stepInstrs, stepInstr, hrip, fetch_tramp h, Option.bind_some, Instr.exec, Option.bind_some, stepInstrs, stepInstr]
  simp only [CpuRegisters.set, hrip]
  rw [hnext, fetch_int h]
  rfl

/-- A handler gives the interrupted registers back, and the areas that the delivery writes lie apart from each
other and below the interrupted stack pointer. -/
theorem signal_transparent (t exit : Task) (handler : BitVec 64) (sig : ℕ) (hrsp : 4096 ≤ t.regs.rsp.toNat)
    (hret : Returning (signalSetupFrame handler sig t) exit) :
    (∃ final, stepInstrs 3 exit = some final ∧ final.regs.gpr = t.regs.gpr ∧ final.regs.rip = t.regs.rip ∧
      final.regs.rsp = t.regs.rsp ∧ final.regs.rflags = t.regs.rflags) ∧
    Apart (trampAddr t.regs).toNat sigtrampSize (frameAddr t.regs).toNat sigFrameSize ∧
    Apart (trampAddr t.regs).toNat sigtrampSize (returnSlot t.regs).toNat 8 ∧
    Apart (frameAddr t.regs).toNat sigFrameSize (returnSlot t.regs).toNat 8 ∧
    (trampAddr t.regs).toNat + sigtrampSize ≤ t.regs.rsp.toNat ∧
    (frameAddr t.regs).toNat + sigFrameSize ≤ t.regs.rsp.toNat ∧ (returnSlot t.regs).toNat + 8 ≤ t.regs.rsp.toNat := by
  have hp := placed_of_le hrsp
  refine ⟨?_, ?_⟩
  · rw [stepInstrs, step_ret hp hret, Option.bind_some]
    have hholds := hret.holds hp
    generalize hv : ({ exit with regs := _ } : Task) = v
    have hmem : v.memory = exit.memory := by rw [← hv]
    have hrip : v.regs.rip = trampAddr t.regs := by rw [← hv]
    have hsp : v.regs.rsp = frameAddr t.regs := by rw [← hv]
    obtain ⟨w, hw, hwsp, hwmem⟩ := step_tramp hp (hmem ▸ hholds) hrip
    exact ⟨_, hw, sigreturn_regs (hwsp.trans hsp) (by rw [hwmem, hmem]; exact hholds)⟩
  · obtain ⟨htramp, hframe, hslot⟩ := hp
    simp only [Apart]
    omega

def interrupted : Task where
  state := .running
  exitCode := 0
  sigstate := signalInitProcess
  regs := ⟨fun r => BitVec.ofNat 64 r.offset, 0x401000, 0x23, 0x202, 0x7FF9, 0x1B⟩
  memory := fun a => if a = 0x400000 then 0xC3 else 0

/-- The handler that only returns gives the registers back. -/
theorem signal_transparent_interrupted :
    ∃ final, stepInstrs 3 (signalSetupFrame 0x400000 sigusr1 interrupted) = some final ∧
      final.regs.gpr = interrupted.regs.gpr ∧ final.regs.rip = interrupted.regs.rip ∧
      final.regs.rsp = interrupted.regs.rsp ∧ final.regs.rflags = interrupted.regs.rflags :=
  (signal_transparent interrupted (signalSetupFrame 0x400000 sigusr1 interrupted) 0x400000 sigusr1 (by decide)
    ⟨by decide +kernel, rfl, fun _ _ => rfl⟩).1

end AetherOs.Signal
