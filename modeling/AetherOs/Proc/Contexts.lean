import AetherOs.Proc.ReadyQueue

/-! # The context that is executed -/

namespace AetherOs.Proc

open Base Sched

inductive CpuCall
  | sched (c : SchedCall)
  | exit (code : ℤ)

def Kernel.cpuExec (k : Kernel) : CpuCall → Kernel
  | .sched c => { k with sched := k.sched.exec c }
  | .exit code =>
    match k.sched.current with
    | none => k
    | some p => processExit p code k

def CpuStep (k : Kernel) (c : CpuCall) (k' : Kernel) : Prop := k' = k.cpuExec c

def Owned (k : Kernel) : Prop := k.sched.cpu = k.sched.current

def Switches (k : Kernel) : CpuCall → Prop
  | .sched .tick => k.sched.current ≠ none
  | .exit _ => ∀ p, k.sched.current = some p → (k.proc p).state = .dead
  | _ => True

variable {k k' : Kernel} {s : Sched} {p : ℕ}

theorem readyEnqueue_other : (readyEnqueue p s).cpu = s.cpu ∧ (readyEnqueue p s).current = s.current ∧
    (readyEnqueue p s).idleProc = s.idleProc ∧ ∀ q ≠ p, (readyEnqueue p s).procs q = s.procs q := by
  rw [readyEnqueue]
  split
  · exact ⟨rfl, rfl, rfl, fun _ _ => rfl⟩
  · exact ⟨rfl, rfl, rfl, fun q hq => procs_setProc.trans (if_neg hq)⟩

theorem schedulerRemove_eq : ∃ r, schedulerRemove p s = { s with readyQueue := r } := by
  rw [schedulerRemove]
  split
  · exact ⟨_, rfl⟩
  · exact ⟨_, rfl⟩

theorem cpu_reschedule (old : ℕ) (s : Sched) : (reschedule old s).cpu = (reschedule old s).current := rfl

theorem sched_closeFds : ∃ procs, (closeFds p k).sched = { k.sched with procs := procs } := by
  refine closeFds_invariant (fun _ u => ∃ procs, u.sched = { k.sched with procs := procs }) ⟨_, rfl⟩
    fun fd _ u hu => ?_
  obtain ⟨procs, hprocs⟩ := hu
  rw [fdClose]
  split
  · exact ⟨procs, hprocs⟩
  · split
    · exact ⟨procs, hprocs⟩
    · exact ⟨_, by rw [Kernel.setFd, Kernel.setProc, setProc, hprocs]⟩

theorem sched_processExit (code : ℤ) (hcurrent : k.sched.current = some p) (hstate : (k.proc p).state ≠ .dead) :
    ∃ procs, (processExit p code k).sched = { k.sched with procs := procs, current := none } := by
  obtain ⟨procs, hprocs⟩ := sched_closeFds (p := p)
    (k := k.setProc p { k.proc p with exitCode := code, state := .zombie })
  rw [processExit, if_neg hstate]
  generalize closeFds p (k.setProc p { k.proc p with exitCode := code, state := .zombie }) = u at hprocs
  have hleft : (freeSlot p u).sched.current = some p := by
    change u.sched.current = _
    rw [hprocs]
    exact hcurrent
  rw [leaveCpu, if_pos hleft]
  exact ⟨_, by rw [freeSlot, Kernel.setProc, setProc, hprocs]; rfl⟩

theorem owned_iff_switches (howned : Owned k) (c : CpuCall) : Owned (k.cpuExec c) ↔ Switches k c := by
  cases c with
  | exit code =>
    cases hcurrent : k.sched.current with
    | none =>
      simp only [Kernel.cpuExec, Switches, hcurrent]
      exact iff_of_true howned fun _ hbad => (nomatch hbad)
    | some p =>
      simp only [Kernel.cpuExec, Switches, hcurrent, Option.some.injEq, forall_eq']
      by_cases hstate : (k.proc p).state = .dead
      · rw [processExit, if_pos hstate]
        exact iff_of_true howned hstate
      · obtain ⟨procs, hprocs⟩ := sched_processExit code hcurrent hstate
        refine iff_of_false (fun hbad => ?_) hstate
        rw [Owned, hprocs] at hbad
        cases hbad.symm.trans (howned.trans hcurrent)
  | sched c =>
    cases c with
    | add p =>
      refine iff_of_true ?_ trivial
      obtain ⟨hcpu, hcurrent, -⟩ := readyEnqueue_other (p := p) (s := k.sched)
      exact hcpu.trans (howned.trans hcurrent.symm)
    | tick =>
      cases hcurrent : k.sched.current with
      | none =>
        refine iff_of_false (fun hbad => ?_) (absurd hcurrent)
        have hnone : k.sched.cpu = none := howned.trans hcurrent
        simp only [Owned, Kernel.cpuExec, exec, schedulerTick, hcurrent, readyDequeue] at hbad
        split at hbad
        · exact Option.some_ne_none _ (hbad.symm.trans hnone)
        · exact Option.some_ne_none _ (hbad.symm.trans hnone)
      | some old =>
        refine iff_of_true ?_ (by simp only [Switches, hcurrent, ne_eq, reduceCtorEq, not_false_eq_true])
        simp only [Owned, Kernel.cpuExec, exec, schedulerTick, hcurrent]
        split
        · split
          · exact howned.trans hcurrent
          · exact cpu_reschedule _ _
        · exact cpu_reschedule _ _
    | yield =>
      refine iff_of_true ?_ trivial
      simp only [Owned, Kernel.cpuExec, exec, schedulerYield]
      split
      · exact howned
      · exact cpu_reschedule _ _
    | block p reason =>
      refine iff_of_true ?_ trivial
      obtain ⟨r, hr⟩ := schedulerRemove_eq (p := p) (s := setState p reason k.sched)
      rw [Owned, Kernel.cpuExec, exec, schedulerBlock, hr]
      exact howned
    | unblock p =>
      refine iff_of_true ?_ trivial
      simp only [Owned, Kernel.cpuExec, exec, schedulerUnblock]
      split
      · exact howned
      · obtain ⟨hcpu, hcurrent, -⟩ := readyEnqueue_other (p := p) (s := k.sched)
        exact hcpu.trans (howned.trans hcurrent.symm)

/-- From a state in which the CPU executes the context of the current process: it does so along every
run whose calls all switch, and a call that does not switch parts the two. -/
theorem cpu_owned_iff {calls : List CpuCall} (howned : Owned k)
    (hrun : Run (guarded Switches CpuStep) k calls k') :
    Owned k' ∧ ∀ c, Owned (k'.cpuExec c) ↔ Switches k' c := by
  have h : Owned k' := hrun.invariant (fun k c k' hk hstep => by
    obtain ⟨hok, rfl⟩ := hstep
    exact (owned_iff_switches hk c).mpr hok) howned
  exact ⟨h, owned_iff_switches h⟩

def switchedTo : Kernel :=
  [.sched (.add 1), .sched (.add 2), .sched .tick, .sched .yield, .sched .yield].foldl Kernel.cpuExec
    { Kernel.boot with sched := schedulerInit 0 (boot fun _ => { Process.zero with state := .created }) }

/-- From there on, yields and ticks keep the CPU in the context of the current process. -/
theorem cpu_owned_iff_switchedTo :
    Owned ((switchedTo.cpuExec (.sched .yield)).cpuExec (.sched .tick)) ∧
    ∀ c, Owned (((switchedTo.cpuExec (.sched .yield)).cpuExec (.sched .tick)).cpuExec c) ↔
      Switches ((switchedTo.cpuExec (.sched .yield)).cpuExec (.sched .tick)) c := by
  have howned : Owned switchedTo := show switchedTo.sched.cpu = switchedTo.sched.current by decide +kernel
  have hcurrent : Switches (switchedTo.cpuExec (.sched .yield)) (.sched .tick) :=
    show (switchedTo.cpuExec (.sched .yield)).sched.current ≠ none by decide +kernel
  have hrun : Run (guarded Switches CpuStep) switchedTo [.sched .yield, .sched .tick] _ :=
    .cons ⟨trivial, rfl⟩ (.cons ⟨hcurrent, rfl⟩ (.nil _))
  exact cpu_owned_iff howned hrun

/-- The first tick after boot makes a process the current one while the boot context goes on; and the
exit of the current process returns into the context of the process that has ended. -/
theorem cpu_leaves_current :
    (∃ k : Kernel, k.sched = (schedulerInit 0 (boot fun _ => { Process.zero with state := .created })).exec
      (.add 1) ∧ Owned k ∧ (k.cpuExec (.sched .tick)).sched.current = some 1 ∧
      (k.cpuExec (.sched .tick)).sched.cpu = none) ∧
    Owned switchedTo ∧ switchedTo.sched.current = some 1 ∧
      (switchedTo.cpuExec (.exit 0)).sched.cpu = some 1 ∧
      ((switchedTo.cpuExec (.exit 0)).proc 1).state = .unused ∧
      (switchedTo.cpuExec (.exit 0)).sched.current = none :=
  ⟨⟨{ Kernel.boot with
      sched := (schedulerInit 0 (boot fun _ => { Process.zero with state := .created })).exec (.add 1) },
    rfl, rfl, by decide +kernel, by decide +kernel⟩,
    show switchedTo.sched.cpu = switchedTo.sched.current by decide +kernel, by decide +kernel,
    by decide +kernel, by decide +kernel, by decide +kernel⟩

end AetherOs.Proc
