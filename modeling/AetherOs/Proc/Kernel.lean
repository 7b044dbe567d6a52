import Mathlib.Algebra.Group.Nat.Defs
import AetherOs.Base.Ring
import AetherOs.Base.Loop

/-! # Process management -/

namespace AetherOs.Proc

open Function

/-! ## Processes -/

def maxProcesses : ℕ := 256

def maxFds : ℕ := 64

def schedDefaultQuantum : ℕ := 5

inductive ProcState
  | unused | created | running | ready | sleeping | waiting | zombie | dead
  deriving DecidableEq

structure FdEntry where
  file : Option ℕ
  flags : ℕ
  offset : ℕ
  deriving DecidableEq

structure Process where
  pid : ℕ
  ppid : ℕ
  state : ProcState
  exitCode : ℤ
  timeSlice : ℕ
  totalTicks : ℕ
  uid : ℕ
  gid : ℕ
  euid : ℕ
  egid : ℕ
  fds : ℕ → FdEntry

def Process.zero : Process := ⟨0, 0, .unused, 0, 0, 0, 0, 0, 0, 0, fun _ => ⟨none, 0, 0⟩⟩

/-! ## The scheduler -/

section

open Base

def maxReady : ℕ := 256

def uint64Size : ℕ := 2 ^ 64

structure Sched where
  procs : ℕ → Process
  readyQueue : Base.Ring ℕ
  schedTicks : ℕ
  idleProc : ℕ
  current : Option ℕ
  fullWarnings : ℕ
  cpu : Option ℕ

def setProc (p : ℕ) (proc : Process) (s : Sched) : Sched := { s with procs := update s.procs p proc }

def setState (p : ℕ) (state : ProcState) (s : Sched) : Sched :=
  setProc p { s.procs p with state := state } s

def readyEnqueue (p : ℕ) (s : Sched) : Sched :=
  if maxReady ≤ s.readyQueue.count then { s with fullWarnings := s.fullWarnings + 1 }
  else setState p .ready { s with readyQueue := s.readyQueue.push maxReady p }

def readyDequeue (s : Sched) : ℕ × Sched :=
  if s.readyQueue.count = 0 then (s.idleProc, s)
  else (s.readyQueue.front, { s with readyQueue := s.readyQueue.pop maxReady })

def Sched.boot (procs : ℕ → Process) : Sched := ⟨procs, ⟨fun _ => 0, 0, 0, 0⟩, 0, 0, none, 0, none⟩

def schedulerInit (idle : ℕ) (s : Sched) : Sched :=
  setState idle .created
    { s with readyQueue := s.readyQueue.clear, schedTicks := 0, idleProc := idle }

def schedulerAdd (p : ℕ) (s : Sched) : Sched := readyEnqueue p s

def schedulerRemove (p : ℕ) (s : Sched) : Sched :=
  match search (fun q => decide (q = p)) (fun i => s.readyQueue.slots ((s.readyQueue.head + i) % maxReady))
      s.readyQueue.count 0 with
  | none => s
  | some i => { s with readyQueue := s.readyQueue.removeAt maxReady i }

def dispatch (next : ℕ) (s : Sched) : Sched :=
  { setProc next { s.procs next with state := .running, timeSlice := schedDefaultQuantum } s with
    current := some next }

def contextSwitch (next : ℕ) (s : Sched) : Sched := { s with cpu := some next }

def reschedule (old : ℕ) (s : Sched) : Sched :=
  let s := if (s.procs old).state = .running then readyEnqueue old (setState old .ready s) else s
  let (next, s) := readyDequeue s
  contextSwitch next (dispatch next s)

def schedulerTick (s : Sched) : Sched :=
  let s := { s with schedTicks := (s.schedTicks + 1) % uint64Size }
  match s.current with
  | none =>
    let (next, s) := readyDequeue s
    dispatch next s
  | some old =>
    let proc := s.procs old
    if 0 < proc.timeSlice then
      let s := setProc old
        { proc with timeSlice := proc.timeSlice - 1, totalTicks := (proc.totalTicks + 1) % uint64Size } s
      if 0 < proc.timeSlice - 1 then s else reschedule old s
    else reschedule old s

def schedulerYield (s : Sched) : Sched :=
  match s.current with
  | none => s
  | some old => reschedule old s

def schedulerBlock (p : ℕ) (reason : ProcState) (s : Sched) : Sched :=
  schedulerRemove p (setState p reason s)

def schedulerUnblock (p : ℕ) (s : Sched) : Sched :=
  if (s.procs p).state = .ready ∨ (s.procs p).state = .running then s else readyEnqueue p s

end

/-! ## Process management -/

section

open Base

def ebadf : ℤ := 9

def echild : ℕ := 10

def esrch : ℕ := 3

def emfile : ℤ := 24

def pidSize : ℕ := 2 ^ 32

def waitAttempts : ℕ := 10000

structure File where
  node : ℕ
  offset : ℕ
  flags : ℕ
  refcount : ℕ
  deriving DecidableEq

structure Kernel where
  sched : Sched
  processList : List ℕ
  nextPid : ℕ
  files : ℕ → File
  nextFile : ℕ
  closes : ℕ → ℕ

def Kernel.proc (k : Kernel) (p : ℕ) : Process := k.sched.procs p

def Kernel.setProc (p : ℕ) (proc : Process) (k : Kernel) : Kernel := { k with sched := Proc.setProc p proc k.sched }

def Kernel.setFd (p fd : ℕ) (e : FdEntry) (k : Kernel) : Kernel :=
  k.setProc p { k.proc p with fds := update (k.proc p).fds fd e }

def Kernel.boot : Kernel where
  sched := Sched.boot fun _ => Process.zero
  processList := []
  nextPid := 1
  files := fun _ => ⟨0, 0, 0, 0⟩
  nextFile := 0
  closes := fun _ => 0

def allocProcessSlot (k : Kernel) : Option ℕ :=
  search (fun proc => decide (proc.state = .unused)) k.sched.procs maxProcesses 0

def issuePid (k : Kernel) : Kernel := { k with nextPid := (k.nextPid + 1) % pidSize }

def processListAdd (p : ℕ) (k : Kernel) : Kernel := { k with processList := p :: k.processList }

def processCreate (memory : Bool) (k : Kernel) : Option ℕ × Kernel :=
  match allocProcessSlot k with
  | none => (none, k)
  | some p =>
    let ppid := match k.sched.current with
      | none => 0
      | some c => (k.proc c).pid
    let proc := { Process.zero with
      pid := k.nextPid, ppid := ppid, state := .created, timeSlice := schedDefaultQuantum }
    if memory then (some p, processListAdd p ((issuePid k).setProc p proc))
    else (none, (issuePid k).setProc p { proc with state := .unused })

def processFork (parent : ℕ) (memory : Bool) (k : Kernel) : Option ℕ × Kernel :=
  match allocProcessSlot k with
  | none => (none, k)
  | some child =>
    let proc := { k.proc parent with
      pid := k.nextPid, ppid := (k.proc parent).pid, state := .created, totalTicks := 0,
      timeSlice := schedDefaultQuantum }
    if memory then (some child, processListAdd child ((issuePid k).setProc child proc))
    else (none, (issuePid k).setProc child { proc with state := .unused })

def fdAlloc (p : ℕ) (k : Kernel) : Option ℕ := search (fun e => e.file.isNone) (k.proc p).fds maxFds 0

def fdClose (p fd : ℕ) (k : Kernel) : Kernel :=
  if maxFds ≤ fd then k
  else
    match ((k.proc p).fds fd).file with
    | none => k
    | some f => { k.setFd p fd ⟨none, 0, 0⟩ with closes := update k.closes f (k.closes f + 1) }

def fdShare (p fd newFd : ℕ) (k : Kernel) : Kernel :=
  match ((k.proc p).fds fd).file with
  | none => k
  | some f =>
    { k.setFd p newFd ((k.proc p).fds fd) with
      files := update k.files f { k.files f with refcount := (k.files f).refcount + 1 } }

def fdDup (p fd : ℕ) (k : Kernel) : ℤ × Kernel :=
  if maxFds ≤ fd then (-ebadf, k)
  else if ((k.proc p).fds fd).file.isNone then (-ebadf, k)
  else
    match fdAlloc p k with
    | none => (-emfile, k)
    | some newFd => (newFd, fdShare p fd newFd k)

def fdDup2 (p oldFd newFd : ℕ) (k : Kernel) : ℤ × Kernel :=
  if maxFds ≤ oldFd ∨ maxFds ≤ newFd then (-ebadf, k)
  else if ((k.proc p).fds oldFd).file.isNone then (-ebadf, k)
  else if oldFd = newFd then (newFd, k)
  else (newFd, fdShare p oldFd newFd (fdClose p newFd k))

def fdOpen (p node flags : ℕ) (memory : Bool) (k : Kernel) : Option ℕ × Kernel :=
  match fdAlloc p k with
  | none => (none, k)
  | some fd =>
    if memory then
      (some fd,
        { k.setFd p fd ⟨some k.nextFile, flags, 0⟩ with
          files := update k.files k.nextFile ⟨node, 0, flags, 1⟩
          nextFile := k.nextFile + 1 })
    else (none, k)

def closeFds (p : ℕ) (k : Kernel) : Kernel := (List.range maxFds).foldl (fun k fd => fdClose p fd k) k

theorem closeFds_invariant {p : ℕ} {k : Kernel} (P : ℕ → Kernel → Prop) (hinit : P 0 k)
    (hstep : ∀ fd < maxFds, ∀ u, P fd u → P (fd + 1) (fdClose p fd u)) : P maxFds (closeFds p k) :=
  foldl_range_invariant P hinit hstep

def processListRemove (p : ℕ) (l : List ℕ) : List ℕ := if p ∈ l then l.erase p else []

def freeSlot (p : ℕ) (k : Kernel) : Kernel :=
  { k.setProc p { k.proc p with state := .unused } with processList := processListRemove p k.processList }

def leaveCpu (p : ℕ) (k : Kernel) : Kernel :=
  if k.sched.current = some p then { k with sched := schedulerYield { k.sched with current := none } } else k

def processExit (p : ℕ) (exitCode : ℤ) (k : Kernel) : Kernel :=
  if (k.proc p).state = .dead then k
  else leaveCpu p (freeSlot p (closeFds p
    (k.setProc p { k.proc p with exitCode := exitCode, state := .zombie })))

def findZombie (pid ppid : ℕ) (k : Kernel) : Option ℕ :=
  k.processList.find? fun p =>
    (decide (pid = pidSize - 1) || decide ((k.proc p).pid = pid)) && decide ((k.proc p).ppid = ppid) &&
      decide ((k.proc p).state = .zombie)

def currentPid (nullPid : ℕ) (k : Kernel) : ℕ :=
  match k.sched.current with
  | none => nullPid
  | some c => (k.proc c).pid

def waitpidFrom (others : ℕ → Kernel → Kernel) (nullPid pid : ℕ) : ℕ → Kernel → (ℕ × Option ℤ) × Kernel
  | 0, k => ((pidSize - echild, none), k)
  | attempts + 1, k =>
    match findZombie pid (currentPid nullPid k) k with
    | some p => (((k.proc p).pid, some (k.proc p).exitCode), k.setProc p { k.proc p with state := .dead })
    | none =>
      waitpidFrom others nullPid pid attempts (others attempts { k with sched := schedulerYield k.sched })

def processWaitpid (others : ℕ → Kernel → Kernel) (nullPid pid : ℕ) (k : Kernel) : (ℕ × Option ℤ) × Kernel :=
  if k.sched.current.isNone then ((pidSize - esrch, none), k)
  else waitpidFrom others nullPid pid waitAttempts k

inductive ProcCall
  | create (memory : Bool)
  | fork (parent : ℕ) (memory : Bool)
  | exit (p : ℕ) (code : ℤ)
  | open (p node flags : ℕ) (memory : Bool)
  | close (p fd : ℕ)
  | dup (p fd : ℕ)
  | dup2 (p oldFd newFd : ℕ)

def Kernel.exec (k : Kernel) : ProcCall → Kernel
  | .create memory => (processCreate memory k).2
  | .fork parent memory => (processFork parent memory k).2
  | .exit p code => processExit p code k
  | .open p node flags memory => (fdOpen p node flags memory k).2
  | .close p fd => fdClose p fd k
  | .dup p fd => (fdDup p fd k).2
  | .dup2 p oldFd newFd => (fdDup2 p oldFd newFd k).2

end

end AetherOs.Proc
