import AetherOs.Proc.ReadyQueue

/-! # Exit status -/

namespace AetherOs.Proc

open Base

inductive LifeCall
  | proc (c : ProcCall)
  | sched (c : SchedCall)
  | attempt (nullPid pid : ℕ)

def Kernel.lifeExec (k : Kernel) : LifeCall → Kernel
  | .proc c => k.exec c
  | .sched c => { k with sched := k.sched.exec c }
  | .attempt nullPid pid => (waitpidFrom (fun _ k => k) nullPid pid 1 k).2

def Kernel.started : Kernel :=
  { (processCreate true Kernel.boot).2 with sched := schedulerInit 0 (processCreate true Kernel.boot).2.sched }

def LifeStep (k : Kernel) (c : LifeCall) (k' : Kernel) : Prop :=
  k' = k.lifeExec c ∧ ∀ p reason, c = .sched (.block p reason) → reason = .sleeping ∨ reason = .waiting

def NoZombie (s : Sched) : Prop := ∀ p, (s.procs p).state ≠ .zombie

variable {s : Sched} {k k' : Kernel} {p q fd : ℕ} {proc : Process}

namespace NoZombie

theorem setProc (h : NoZombie s) (hproc : proc.state ≠ .zombie) : NoZombie (setProc p proc s) := by
  intro q
  rw [procs_setProc]
  split
  · exact hproc
  · exact h q

theorem readyEnqueue (h : NoZombie s) : NoZombie (readyEnqueue p s) := by
  rw [Proc.readyEnqueue]
  split
  · exact h
  · exact setProc (s := { s with readyQueue := _ }) h ProcState.noConfusion

theorem dispatchNext (h : NoZombie s) : NoZombie (dispatch (readyDequeue s).1 (readyDequeue s).2) := by
  have hprocs : NoZombie (readyDequeue s).2 := by
    rw [readyDequeue]
    split
    · exact h
    · exact h
  exact hprocs.setProc ProcState.noConfusion

theorem reschedule (h : NoZombie s) : NoZombie (reschedule p s) := by
  have hfirst : NoZombie (if (s.procs p).state = .running then
      Proc.readyEnqueue p (setState p .ready s) else s) := by
    split
    · exact (h.setProc ProcState.noConfusion).readyEnqueue
    · exact h
  exact hfirst.dispatchNext

theorem exec {c : SchedCall} (h : NoZombie s)
    (hblock : ∀ p reason, c = .block p reason → reason = .sleeping ∨ reason = .waiting) :
    NoZombie (s.exec c) := by
  cases c with
  | add p => exact h.readyEnqueue
  | tick =>
    have hticks : NoZombie { s with schedTicks := (s.schedTicks + 1) % uint64Size } := h
    simp only [Sched.exec, schedulerTick]
    split
    · exact hticks.dispatchNext
    · rename_i old _
      have hslice : ∀ k l, NoZombie (Proc.setProc old { s.procs old with timeSlice := k, totalTicks := l }
          { s with schedTicks := (s.schedTicks + 1) % uint64Size }) := fun k l => hticks.setProc (h old)
      split
      · split
        · exact hslice _ _
        · exact (hslice _ _).reschedule
      · exact hticks.reschedule
  | yield =>
    simp only [Sched.exec, schedulerYield]
    split
    · exact h
    · exact h.reschedule
  | block p reason =>
    have hset : NoZombie (setState p reason s) := h.setProc (by
      rcases hblock p reason rfl with rfl | rfl
      · exact ProcState.noConfusion
      · exact ProcState.noConfusion)
    simp only [Sched.exec, schedulerBlock, schedulerRemove]
    split
    · exact hset
    · exact hset
  | unblock p =>
    simp only [Sched.exec, schedulerUnblock]
    split
    · exact h
    · exact h.readyEnqueue

end NoZombie

theorem state_setFd {e : FdEntry} : ((k.setFd p fd e).proc q).state = (k.proc q).state := by
  change ((setProc p _ k.sched).procs q).state = _
  rw [procs_setProc]
  split_ifs with heq
  · rw [heq]
  · rfl

theorem state_fdClose : ((fdClose p fd k).proc q).state = (k.proc q).state := by
  rw [fdClose]
  split
  · rfl
  · split
    · rfl
    · exact state_setFd

theorem state_fdShare {newFd : ℕ} : ((fdShare p fd newFd k).proc q).state = (k.proc q).state := by
  rw [fdShare]
  split
  · rfl
  · exact state_setFd

theorem state_closeFds : ((closeFds p k).proc q).state = (k.proc q).state :=
  closeFds_invariant (fun _ u => (u.proc q).state = (k.proc q).state) rfl
    fun _ _ _ hu => state_fdClose.trans hu

theorem state_processExit {code : ℤ} (hstate : (k.proc p).state ≠ .dead) :
    ((processExit p code k).proc q).state = if q = p then .unused else (k.proc q).state := by
  have hfreed : ∀ u : Kernel, (∀ q, q ≠ p → (u.proc q).state = (k.proc q).state) →
      ((leaveCpu p (freeSlot p u)).proc q).state = if q = p then .unused else (k.proc q).state := fun u hu => by
    have hleave : ((leaveCpu p (freeSlot p u)).proc q).state = ((freeSlot p u).proc q).state := by
      rw [leaveCpu]
      split
      · rfl
      · rfl
    rw [hleave]
    change ((setProc p _ u.sched).procs q).state = _
    rw [procs_setProc]
    split_ifs with hne
    · rfl
    · exact hu q hne
  rw [processExit, if_neg hstate]
  refine hfreed _ fun q hq => state_closeFds.trans ?_
  change ((setProc p _ k.sched).procs q).state = _
  rw [procs_setProc, if_neg hq]
  rfl

theorem NoZombie.procExec (h : NoZombie k.sched) (c : ProcCall) : NoZombie (k.exec c).sched := by
  cases c with
  | create memory =>
    simp only [Kernel.exec, processCreate]
    split
    · exact h
    · split
      · exact h.setProc ProcState.noConfusion
      · exact h.setProc ProcState.noConfusion
  | fork parent memory =>
    simp only [Kernel.exec, processFork]
    split
    · exact h
    · split
      · exact h.setProc ProcState.noConfusion
      · exact h.setProc ProcState.noConfusion
  | exit p code =>
    intro q
    by_cases hstate : (k.proc p).state = .dead
    · simp only [Kernel.exec, processExit, if_pos hstate]
      exact h q
    · change ((processExit p code k).proc q).state ≠ _
      rw [state_processExit hstate]
      split
      · exact ProcState.noConfusion
      · exact h q
  | «open» p node flags memory =>
    intro q
    simp only [Kernel.exec, fdOpen]
    split
    · exact h q
    · split
      · exact fun hbad => h q (state_setFd.symm.trans hbad)
      · exact h q
  | close p fd => exact fun q hbad => h q (state_fdClose.symm.trans hbad)
  | dup p fd =>
    intro q
    simp only [Kernel.exec, fdDup]
    split
    · exact h q
    · split
      · exact h q
      · split
        · exact h q
        · exact fun hbad => h q (state_fdShare.symm.trans hbad)
  | dup2 p oldFd newFd =>
    intro q
    simp only [Kernel.exec, fdDup2]
    split
    · exact h q
    · split
      · exact h q
      · split
        · exact h q
        · exact fun hbad => h q (state_fdClose.symm.trans (state_fdShare.symm.trans hbad))

theorem NoZombie.findZombie (h : NoZombie k.sched) (pid ppid : ℕ) : findZombie pid ppid k = none := by
  rw [Proc.findZombie, List.find?_eq_none]
  intro p _ hp
  simp only [Bool.and_eq_true, decide_eq_true_eq] at hp
  exact h p hp.2

theorem NoZombie.step {c : LifeCall} (h : NoZombie k.sched) (hstep : LifeStep k c k') : NoZombie k'.sched := by
  obtain ⟨rfl, hblock⟩ := hstep
  cases c with
  | proc c => exact h.procExec c
  | sched c => exact h.exec fun p reason heq => hblock p reason (congrArg _ heq)
  | attempt nullPid pid =>
    simp only [Kernel.lifeExec, waitpidFrom, h.findZombie]
    exact h.exec (c := .yield) fun _ _ heq => (nomatch heq)

theorem NoZombie.run {calls : List LifeCall} (h : NoZombie k.sched) (hrun : Run LifeStep k calls k') :
    NoZombie k'.sched := hrun.invariant (fun _ _ _ h hstep => NoZombie.step h hstep) h

theorem noZombie_started : NoZombie Kernel.started.sched := by
  have hboot : NoZombie Kernel.boot.sched := fun _ => ProcState.noConfusion
  exact NoZombie.setProc (s := { (processCreate true Kernel.boot).2.sched with
    readyQueue := _, schedTicks := 0, idleProc := 0 }) (hboot.procExec (.create true)) ProcState.noConfusion

theorem waitpidFrom_of_noZombie {others : ℕ → Kernel → Kernel} {nullPid pid attempts : ℕ}
    (hothers : ∀ n k, NoZombie k.sched → NoZombie (others n k).sched) (h : NoZombie k.sched) :
    (waitpidFrom others nullPid pid attempts k).1 = (pidSize - echild, none) := by
  induction attempts generalizing k with
  | zero => rfl
  | succ attempts ih =>
    rw [waitpidFrom, h.findZombie]
    exact ih (hothers attempts _ (h.exec (c := .yield) fun _ _ heq => (nomatch heq)))

def forkingParent : Kernel :=
  [.proc (.create true), .sched (.add 1), .sched .tick].foldl Kernel.lifeExec Kernel.started

def runningChild : Kernel :=
  [.sched (.add 2), .sched .yield].foldl Kernel.lifeExec (processFork 1 true forkingParent).2

def waitingParent : Kernel := (processExit 2 42 runningChild).lifeExec (.sched .tick)

theorem lifeStep_exec {c : LifeCall} (hc : ∀ p reason, c ≠ .sched (.block p reason)) (k : Kernel) :
    LifeStep k c (k.lifeExec c) := ⟨rfl, fun p reason heq => absurd heq (hc p reason)⟩

theorem run_forkingParent : Run LifeStep Kernel.started [.proc (.create true), .sched (.add 1), .sched .tick]
    forkingParent :=
  .cons (lifeStep_exec (fun _ _ => LifeCall.noConfusion) _) (.cons (lifeStep_exec (by simp) _)
    (.cons (lifeStep_exec (by simp) _) (.nil _)))

theorem run_runningChild : Run LifeStep (processFork 1 true forkingParent).2 [.sched (.add 2), .sched .yield]
    runningChild :=
  .cons (lifeStep_exec (by simp) _) (.cons (lifeStep_exec (by simp) _) (.nil _))

theorem run_waitingParent : Run LifeStep (processExit 2 42 runningChild) [.sched .tick] waitingParent :=
  .cons (lifeStep_exec (by simp) _) (.nil _)

end AetherOs.Proc
