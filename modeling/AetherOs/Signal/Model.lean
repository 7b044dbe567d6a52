import AetherOs.Base.Bytes
import AetherOs.Proc.Kernel

/-! # Signals -/

namespace AetherOs.Signal

open Base Proc Function

def sighup : ℕ := 1
def sigint : ℕ := 2
def sigquit : ℕ := 3
def sigill : ℕ := 4
def sigtrap : ℕ := 5
def sigabrt : ℕ := 6
def sigbus : ℕ := 7
def sigfpe : ℕ := 8
def sigkill : ℕ := 9
def sigusr1 : ℕ := 10
def sigsegv : ℕ := 11
def sigusr2 : ℕ := 12
def sigpipe : ℕ := 13
def sigalrm : ℕ := 14
def sigterm : ℕ := 15
def sigchld : ℕ := 17
def sigcont : ℕ := 18
def sigstop : ℕ := 19
def sigtstp : ℕ := 20
def sigttin : ℕ := 21
def sigttou : ℕ := 22
def sigwinch : ℕ := 28

def nsig : ℕ := 32

abbrev SigSet := BitVec 32

def sigbit (sig : ℕ) : SigSet := 1#32 <<< (sig - 1)

def sigaddset (set : SigSet) (sig : ℕ) : SigSet := set ||| sigbit sig

def sigdelset (set : SigSet) (sig : ℕ) : SigSet := set &&& ~~~sigbit sig

def sigismember (set : SigSet) (sig : ℕ) : Bool := set &&& sigbit sig ≠ 0

def saNodefer : BitVec 32 := 0x0040

def saResethand : BitVec 32 := 0x0080

def sigDfl : BitVec 64 := 0

def sigIgn : BitVec 64 := 1

structure SigAction where
  handler : BitVec 64
  mask : SigSet
  flags : BitVec 32
  deriving DecidableEq

structure SignalState where
  actions : ℕ → SigAction
  pending : SigSet
  blocked : SigSet

inductive Gpr
  | r15 | r14 | r13 | r12 | r11 | r10 | r9 | r8 | rbp | rdi | rsi | rdx | rcx | rbx | rax
  deriving DecidableEq

structure CpuRegisters where
  gpr : Gpr → BitVec 64
  rip : BitVec 64
  cs : BitVec 64
  rflags : BitVec 64
  rsp : BitVec 64
  ss : BitVec 64

structure Task where
  state : ProcState
  exitCode : ℤ
  sigstate : SignalState
  regs : CpuRegisters
  memory : ℕ → UInt8

def einval : ℤ := 22

def sigValid (sig : ℤ) : Bool := 1 ≤ sig ∧ sig < nsig

def signalInitProcess : SignalState where
  actions := fun i =>
    if i = sigchld - 1 ∨ i = sigcont - 1 ∨ i = sigwinch - 1 then ⟨sigIgn, 0, 0⟩ else ⟨sigDfl, 0, 0⟩
  pending := 0
  blocked := 0

def signalSendProc (sig : ℤ) (t : Task) : ℤ × Task :=
  if sigValid sig = false then (-einval, t)
  else
    let n := sig.toNat
    let pended := { t with sigstate := { t.sigstate with pending := sigaddset t.sigstate.pending n } }
    if n ≠ sigkill ∧ n ≠ sigstop ∧ sigismember t.sigstate.blocked n then (0, pended)
    else if t.state = .sleeping ∨ t.state = .waiting then (0, { pended with state := .ready })
    else (0, pended)

def sigtrampSize : ℕ := 7

def sigreturnTramp : List UInt8 := [0xB8, 52, 0x00, 0x00, 0x00, 0xCD, 0x80]

def sigFrameSize : ℕ := 152

def sigFrame (regs : CpuRegisters) (sig : ℕ) : List (BitVec 64) :=
  [regs.gpr .r15, regs.gpr .r14, regs.gpr .r13, regs.gpr .r12, regs.gpr .r11, regs.gpr .r10, regs.gpr .r9,
    regs.gpr .r8, regs.gpr .rbp, regs.gpr .rdi, regs.gpr .rsi, regs.gpr .rdx, regs.gpr .rcx, regs.gpr .rbx,
    regs.gpr .rax, regs.rflags, regs.rip, regs.rsp, BitVec.ofNat 64 sig]

def trampAddr (regs : CpuRegisters) : BitVec 64 := regs.rsp - BitVec.ofNat 64 sigtrampSize

def frameAddr (regs : CpuRegisters) : BitVec 64 := (trampAddr regs &&& ~~~0xF) - BitVec.ofNat 64 sigFrameSize

def returnSlot (regs : CpuRegisters) : BitVec 64 := frameAddr regs - 8

def CpuRegisters.set (regs : CpuRegisters) (r : Gpr) (v : BitVec 64) : CpuRegisters :=
  { regs with gpr := fun q => if q = r then v else regs.gpr q }

def signalSetupFrame (handler : BitVec 64) (sig : ℕ) (t : Task) : Task :=
  let withTramp := splice t.memory (trampAddr t.regs).toNat sigtrampSize (sigreturnTramp.getD · 0)
  let withFrame := putWords withTramp (frameAddr t.regs).toNat (sigFrame t.regs sig)
  let withReturn := putLE 8 (returnSlot t.regs).toNat (trampAddr t.regs).toNat withFrame
  { t with
    memory := withReturn
    regs := (({ t.regs with rsp := returnSlot t.regs, rip := handler }.set .rdi (BitVec.ofNat 64 sig)).set
      .rsi 0).set .rdx 0 }

def Gpr.offset : Gpr → ℕ
  | .r15 => 0
  | .r14 => 8
  | .r13 => 16
  | .r12 => 24
  | .r11 => 32
  | .r10 => 40
  | .r9 => 48
  | .r8 => 56
  | .rbp => 64
  | .rdi => 72
  | .rsi => 80
  | .rdx => 88
  | .rcx => 96
  | .rbx => 104
  | .rax => 112

def signalDoSigreturn (t : Task) : Task :=
  let sf := t.regs.rsp.toNat
  { t with
    regs :=
      { t.regs with
        gpr := fun r => getWord t.memory (sf + r.offset)
        rflags := getWord t.memory (sf + 120)
        rip := getWord t.memory (sf + 128)
        rsp := getWord t.memory (sf + 136) } }

def processExit (exitCode : ℤ) (t : Task) : Task :=
  if t.state = .dead then t else { t with state := .unused, exitCode := exitCode }

def stopped (arrived : SigSet) (t : Task) : Task :=
  { t with state := .running, sigstate := { t.sigstate with pending := t.sigstate.pending ||| arrived } }

def signalDefaultAction (arrived : SigSet) (sig : ℕ) (t : Task) : Task :=
  if sig ∈ [sighup, sigint, sigquit, sigill, sigtrap, sigabrt, sigbus, sigfpe, sigsegv, sigpipe, sigalrm, sigterm,
      sigusr1, sigusr2] then processExit (-sig) t
  else if sig ∈ [sigstop, sigtstp, sigttin, sigttou] then stopped arrived t
  else if sig ∈ [sigchld, sigcont, sigwinch] then t
  else processExit (-sig) t

def unpend (sig : ℕ) (t : Task) : Task :=
  { t with sigstate := { t.sigstate with pending := sigdelset t.sigstate.pending sig } }

def callHandler (sig : ℕ) (t : Task) : Task :=
  let action := t.sigstate.actions (sig - 1)
  let blocked := if action.flags &&& saNodefer = 0 then sigaddset t.sigstate.blocked sig else t.sigstate.blocked
  let actions :=
    if action.flags &&& saResethand ≠ 0 then update t.sigstate.actions (sig - 1) { action with handler := sigDfl }
    else t.sigstate.actions
  signalSetupFrame action.handler sig { t with sigstate := { t.sigstate with blocked := blocked, actions := actions } }

def deliverFrom (ring3 : Bool) (arrived : ℕ → SigSet) (deliverable : SigSet) : List ℕ → Task → Option ℕ × Task
  | [], t => (none, t)
  | sig :: rest, t =>
    if sigismember deliverable sig = false then deliverFrom ring3 arrived deliverable rest t
    else
      let u := unpend sig t
      let handler := (u.sigstate.actions (sig - 1)).handler
      if handler = sigIgn then deliverFrom ring3 arrived deliverable rest u
      else if sig = sigkill then (none, processExit (-sig) u)
      else if sig = sigstop then deliverFrom ring3 arrived deliverable rest (stopped (arrived sig) u)
      else if sig = sigcont then
        deliverFrom ring3 arrived deliverable rest (if u.state = .waiting then { u with state := .ready } else u)
      else if handler = sigDfl then (none, signalDefaultAction (arrived sig) sig u)
      else if ring3 then (some sig, callHandler sig u)
      else (none, signalDefaultAction (arrived sig) sig u)

def signalDeliverPending (frame : Bool) (arrived : ℕ → SigSet) (t : Task) : Option ℕ × Task :=
  let deliverable := t.sigstate.pending &&& ~~~t.sigstate.blocked
  if deliverable = 0 then (none, t)
  else deliverFrom (frame && t.regs.cs &&& 3 = 3) arrived deliverable (List.range' 1 (nsig - 1)) t

def signalDoSigaction (sig : ℤ) (act : Option SigAction) (t : Task) : ℤ × Option SigAction × Task :=
  if sigValid sig = false then (-einval, none, t)
  else if sig = sigkill ∨ sig = sigstop then (-einval, none, t)
  else
    let old := t.sigstate.actions (sig.toNat - 1)
    match act with
    | none => (0, some old, t)
    | some act =>
      (0, some old,
        { t with sigstate := { t.sigstate with actions := update t.sigstate.actions (sig.toNat - 1) act } })

inductive How
  | block
  | unblock
  | setmask
  | other
  deriving DecidableEq

def How.apply (how : How) (blocked mask : SigSet) : Option SigSet :=
  match how with
  | .block => some (blocked ||| mask)
  | .unblock => some (blocked &&& ~~~mask)
  | .setmask => some mask
  | .other => none

def signalDoSigprocmask (how : How) (set : Option SigSet) (t : Task) : ℤ × SigSet × Task :=
  let old := t.sigstate.blocked
  match set with
  | none => (0, old, t)
  | some set =>
    match how.apply old (sigdelset (sigdelset set sigkill) sigstop) with
    | none => (-einval, old, t)
    | some blocked => (0, old, { t with sigstate := { t.sigstate with blocked := blocked } })

end AetherOs.Signal
