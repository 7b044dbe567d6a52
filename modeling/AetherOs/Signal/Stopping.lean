import AetherOs.Proc.Contexts
import AetherOs.Proc.Idle
import AetherOs.Proc.Waitpid
import AetherOs.Signal.Masks

/-! # Stopped processes -/

namespace AetherOs.Signal

open Base Proc Function Option Bool

structure Suspended where
  ring3 : Bool
  deliverable : SigSet
  rest : List ℕ

structure SigKernel where
  kernel : Kernel
  signals : ℕ → SignalState
  suspended : ℕ → Option Suspended
  halted : ℕ → Bool

namespace SigKernel

def sched (k : SigKernel) : Sched := k.kernel.sched

def state (k : SigKernel) (p : ℕ) : ProcState := (k.sched.procs p).state

def setSched (s : Sched) (k : SigKernel) : SigKernel := { k with kernel := { k.kernel with sched := s } }

def setSignals (p : ℕ) (ss : SignalState) (k : SigKernel) : SigKernel :=
  { k with signals := update k.signals p ss }

def exit (p : ℕ) (code : ℤ) (k : SigKernel) : SigKernel :=
  let kernel := Proc.processExit p code k.kernel
  { k with kernel := { kernel with sched := schedulerYield kernel.sched } }

def stop (p : ℕ) (left : Option Suspended) (k : SigKernel) : SigKernel :=
  { k.setSched (schedulerYield (setState p .waiting k.sched)) with
    suspended := update k.suspended p left
    halted := update k.halted p true }

def defaultAction (p sig : ℕ) (k : SigKernel) : SigKernel :=
  if sig ∈ [sighup, sigint, sigquit, sigill, sigtrap, sigabrt, sigbus, sigfpe, sigsegv, sigpipe, sigalrm, sigterm,
      sigusr1, sigusr2] then k.exit p (-sig)
  else if sig ∈ [sigstop, sigtstp, sigttin, sigttou] then k.stop p none
  else if sig ∈ [sigchld, sigcont, sigwinch] then k
  else k.exit p (-sig)

def handlerState (sig : ℕ) (ss : SignalState) : SignalState :=
  let action := ss.actions (sig - 1)
  { ss with
    blocked := if action.flags &&& saNodefer = 0 then sigaddset ss.blocked sig else ss.blocked
    actions :=
      if action.flags &&& saResethand ≠ 0 then update ss.actions (sig - 1) { action with handler := sigDfl }
      else ss.actions }

def wake (p : ℕ) (k : SigKernel) : SigKernel :=
  if k.state p = .sleeping ∨ k.state p = .waiting then k.setSched (schedulerUnblock p k.sched) else k

def pend (p sig : ℕ) (k : SigKernel) : SigKernel :=
  { k.setSignals p { k.signals p with pending := sigaddset (k.signals p).pending sig } with
    halted := if sig = sigcont ∨ sig = sigkill then update k.halted p false else k.halted }

def send (p : ℕ) (sig : ℤ) (k : SigKernel) : SigKernel :=
  if sigValid sig = false then k
  else if sig ≠ sigkill ∧ sig ≠ sigstop ∧ sigismember (k.signals p).blocked sig.toNat then k.pend p sig.toNat
  else (k.pend p sig.toNat).wake p

def deliverLoop (p : ℕ) (ring3 : Bool) (deliverable : SigSet) : List ℕ → SigKernel → SigKernel
  | [], k => k
  | sig :: rest, k =>
    if sigismember deliverable sig = false then deliverLoop p ring3 deliverable rest k
    else
      let k := k.setSignals p { k.signals p with pending := sigdelset (k.signals p).pending sig }
      let handler := ((k.signals p).actions (sig - 1)).handler
      if handler = sigIgn then deliverLoop p ring3 deliverable rest k
      else if sig = sigkill then k.exit p (-sig)
      else if sig = sigstop then k.stop p (some ⟨ring3, deliverable, rest⟩)
      else if sig = sigcont then
        deliverLoop p ring3 deliverable rest
          (if k.state p = .waiting then k.setSched (schedulerAdd p (setState p .ready k.sched)) else k)
      else if handler = sigDfl then k.defaultAction p sig
      else if ring3 then k.setSignals p (handlerState sig (k.signals p))
      else k.defaultAction p sig

def deliver (ring3 : Bool) (k : SigKernel) : SigKernel :=
  match k.sched.current with
  | none => k
  | some p =>
    match k.suspended p with
    | some d =>
      deliverLoop p d.ring3 d.deliverable d.rest { k with suspended := update k.suspended p none }
    | none =>
      deliverLoop p ring3 ((k.signals p).pending &&& ~~~(k.signals p).blocked) (List.range' 1 (nsig - 1)) k

end SigKernel

inductive StopCall
  | send (p : ℕ) (sig : ℤ)
  | deliver (ring3 : Bool)
  | sched (c : SchedCall)

def SigKernel.exec (k : SigKernel) : StopCall → SigKernel
  | .send p sig => k.send p sig
  | .deliver ring3 => k.deliver ring3
  | .sched c => k.setSched (k.sched.exec c)

def StopStep (k : SigKernel) (c : StopCall) (k' : SigKernel) : Prop := k' = k.exec c

def StopObeyed (k : SigKernel) (c : StopCall) (k' : SigKernel) : Prop :=
  (∀ p, k'.halted p = true → k'.sched.current ≠ some p ∧ k'.sched.cpu ≠ some p) ∧
    ∀ p, c = .send p sigcont → k.halted p = true → k'.state p = .ready

def Respects (k : SigKernel) : StopCall → Prop
  | .send p sig => p < maxProcesses ∧ (k.halted p = true → sigValid sig = true →
      sig = sigkill ∨ sig ≠ sigstop ∧ (sigismember (k.signals p).blocked sig.toNat = false ↔ sig = sigcont))
  | .deliver _ => ∀ p, k.sched.current = some p → k.state p = .running ∧ p ≠ k.sched.idleProc
  | .sched c => Sane k.sched c ∧ ∀ p, c = .add p ∨ c = .unblock p → k.halted p = false

structure Halting (k : SigKernel) : Prop where
  consistent : Consistent k.sched
  asleep : ∀ p, k.halted p = true → k.state p = .waiting ∨ k.state p = .sleeping
  other : ∀ p, k.halted p = true → p ≠ k.sched.idleProc ∧ k.sched.current ≠ some p ∧ k.sched.cpu ≠ some p

variable {k k' : SigKernel} {p q sig : ℕ} {s : Sched} {next : ℕ} {left : List ℕ} {c : StopCall}

theorem Halting.setSignals (h : Halting k) (p : ℕ) (ss : SignalState) : Halting (k.setSignals p ss) :=
  ⟨h.consistent, h.asleep, h.other⟩

theorem halting_dispatched {u : Sched} (hs : Consistent s) (hd : Dispatched u s next left)
    (hnext : k.halted next = false) (hleft : ∀ q ∈ left, k.halted q = false)
    (hasleep : ∀ q, k.halted q → (u.procs q).state = .waiting ∨ (u.procs q).state = .sleeping)
    (hidle : ∀ q, k.halted q → q ≠ u.idleProc)
    (hcpu : s.cpu = some next ∨ ∀ q, k.halted q → s.cpu ≠ some q) : Halting (k.setSched s) := by
  have hne : ∀ q, k.halted q → q ≠ next := by
    rintro q hq rfl
    exact false_ne_true (hnext.symm.trans hq)
  refine ⟨hs, fun q hq => ?_, fun q hq => ?_⟩
  · have hstay : q ∉ left := fun hmem => false_ne_true ((hleft q hmem).symm.trans hq)
    change (s.procs q).state = _ ∨ (s.procs q).state = _
    rw [hd.state, if_neg (hne q hq), if_neg hstay]
    exact hasleep q hq
  · change q ≠ s.idleProc ∧ s.current ≠ some q ∧ s.cpu ≠ some q
    have hcurrent : some next ≠ some q := fun hbad => hne q hq (some.inj hbad).symm
    rw [hd.idle, hd.current]
    refine ⟨hidle q hq, hcurrent, ?_⟩
    rcases hcpu with hcpu | hcpu
    · rw [hcpu]
      exact hcurrent
    · exact hcpu q hq

theorem Halting.of_queue (h : Halting k) (hq : q ∈ queue k.sched ∨ q = k.sched.idleProc) : k.halted q = false := by
  rw [← not_eq_true]
  intro hbad
  rcases hq with hmem | hidle
  · have hready : k.state q = .ready := (h.consistent.ready_iff q).mpr hmem
    have hasleep := h.asleep q hbad
    rw [hready] at hasleep
    rcases hasleep with hasleep | hasleep
    · cases hasleep
    · cases hasleep
  · exact (h.other q hbad).1 hidle

theorem Halting.of_current (h : Halting k) (hq : k.sched.current = some q) : k.halted q = false := by
  rw [← not_eq_true]
  exact fun hbad => (h.other q hbad).2.1 hq

theorem cpu_dispatches {c : SchedCall} (hc : Dispatches s c) :
    (s.exec c).cpu = s.cpu ∨ (s.exec c).cpu = (s.exec c).current := by
  cases c with
  | add p => exact hc.elim
  | block p reason => exact hc.elim
  | unblock p => exact hc.elim
  | yield =>
    simp only [Sched.exec, schedulerYield]
    split
    · exact .inl rfl
    · exact .inr rfl
  | tick =>
    simp only [Sched.exec, schedulerTick]
    split
    · simp only [readyDequeue]
      split
      · exact .inl rfl
      · exact .inl rfl
    · split_ifs
      · exact .inl rfl
      · exact .inr rfl
      · exact .inr rfl

theorem Halting.keep (h : Halting k) (hs : Consistent s)
    (hstate : ∀ q, k.halted q → (s.procs q).state = .waiting ∨ (s.procs q).state = .sleeping)
    (hcpu : s.cpu = k.sched.cpu) (hcurrent : s.current = k.sched.current) (hidle : s.idleProc = k.sched.idleProc) :
    Halting (k.setSched s) := by
  refine ⟨hs, hstate, fun q hq => ?_⟩
  change q ≠ s.idleProc ∧ s.current ≠ some q ∧ s.cpu ≠ some q
  rw [hcpu, hcurrent, hidle]
  exact h.other q hq

theorem Halting.enqueue (h : Halting k) (hs : Consistent (readyEnqueue p k.sched)) (hp : k.halted p = false) :
    Halting (k.setSched (readyEnqueue p k.sched)) := by
  obtain ⟨hcpu, hcurrent, hidle, hprocs⟩ := readyEnqueue_other (p := p) (s := k.sched)
  refine h.keep hs (fun q hq => ?_) hcpu hcurrent hidle
  rw [hprocs q fun heq => false_ne_true (hp.symm.trans (heq ▸ hq))]
  exact h.asleep q hq

theorem Halting.sched {c : SchedCall} (h : Halting k) (hsane : Sane k.sched c)
    (hwake : ∀ p, c = .add p ∨ c = .unblock p → k.halted p = false) : Halting (k.setSched (k.sched.exec c)) := by
  have hs : Consistent (k.sched.exec c) := h.consistent.step hsane rfl
  by_cases hc : Dispatches k.sched c
  · have hd := dispatched_exec h.consistent.ring hc
    refine halting_dispatched hs hd ?_ (fun q hq => h.of_current (mem_preempted hq).1) h.asleep
      (fun q hq => (h.other q hq).1) ?_
    · rcases nextUp_cases (s := k.sched) with hmem | hmem | hidle
      · exact h.of_queue (.inl hmem)
      · exact h.of_current (mem_preempted hmem).1
      · exact h.of_queue (.inr hidle)
    · rw [← hd.current]
      refine (cpu_dispatches hc).symm.imp_right fun hcpu q hq => ?_
      rw [hcpu]
      exact (h.other q hq).2.2
  · cases c with
    | add p => exact h.enqueue hs (hwake p (.inl rfl))
    | block p reason =>
      obtain ⟨r, hr⟩ := schedulerRemove_eq (p := p) (s := setState p reason k.sched)
      rw [Sched.exec, schedulerBlock, hr] at hs ⊢
      refine h.keep hs (fun q hq => ?_) rfl rfl rfl
      change ((setState p reason k.sched).procs q).state = _ ∨ ((setState p reason k.sched).procs q).state = _
      rw [state_setState]
      split
      · exact hsane.2.symm
      · exact h.asleep q hq
    | unblock p =>
      rw [Sched.exec, schedulerUnblock] at hs ⊢
      split_ifs at hs ⊢
      · exact h
      · exact h.enqueue hs (hwake p (.inr rfl))
    | yield =>
      rw [Sched.exec, schedulerYield, not_not.mp hc]
      exact h
    | tick =>
      simp only [Dispatches, not_forall, not_le] at hc
      obtain ⟨old, hold, hslice⟩ := hc
      refine h.keep hs (fun q hq => ?_) ?_ ?_ ?_
      all_goals simp only [Sched.exec, schedulerTick, hold]
      all_goals rw [if_pos (by omega), if_pos (by omega)]
      · rw [procs_setProc]
        split_ifs with heq
        · rw [← heq]
          exact h.asleep q hq
        · exact h.asleep q hq
      all_goals rfl

structure Delivering (p : ℕ) (k : SigKernel) : Prop where
  current : k.sched.current = some p
  running : k.state p = .running
  notIdle : p ≠ k.sched.idleProc

theorem Halting.notMem_queue (h : Halting k) (hp : Delivering p k) : p ∉ queue k.sched := fun hmem => by
  have hready : k.state p = .ready := (h.consistent.ready_iff p).mpr hmem
  cases hready.symm.trans hp.running

theorem Halting.exit {code : ℤ} (h : Halting k) (hp : Delivering p k) : Halting (k.exit p code) := by
  have hstate : (k.kernel.proc p).state ≠ .dead := fun hbad => ProcState.noConfusion (hbad.symm.trans hp.running)
  obtain ⟨procs, hprocs⟩ := sched_processExit code hp.current hstate
  have hexit : ∀ q, ((Proc.processExit p code k.kernel).sched.procs q).state =
      if q = p then .unused else k.state q := fun q => state_processExit hstate
  rw [hprocs] at hexit
  have hyield : schedulerYield (Proc.processExit p code k.kernel).sched =
      { k.sched with procs := procs, current := none } := by
    rw [hprocs]
    rfl
  have hother : ∀ q, k.state q = .running → q = p := fun q hq =>
    some.inj ((h.consistent.running q hq).symm.trans hp.current)
  change Halting { k with kernel := { (Proc.processExit p code k.kernel) with sched := _ } }
  rw [hyield]
  refine ⟨⟨h.consistent.ring, h.consistent.nodup, h.consistent.bounded, fun q => ?_, fun q hq => ?_,
    h.consistent.warnings, h.consistent.idle, fun q hq => ?_⟩, fun q hq => ?_, fun q hq => ?_⟩
  · change (procs q).state = .ready ↔ q ∈ queue k.sched
    rw [hexit]
    split_ifs with heq
    · exact iff_of_false id (heq ▸ h.notMem_queue hp)
    · exact h.consistent.ready_iff q
  · change (procs q).state = .running at hq
    rw [hexit] at hq
    split_ifs at hq with heq
    exact absurd (hother q hq) heq
  · cases hq
  · change (procs q).state = _ ∨ (procs q).state = _
    have hne : q ≠ p := by
      rintro rfl
      exact (h.other q hq).2.1 hp.current
    rw [hexit, if_neg hne]
    exact h.asleep q hq
  · obtain ⟨hidle, -, hcpu⟩ := h.other q hq
    exact ⟨hidle, (some_ne_none q).symm, hcpu⟩

theorem Halting.stop {left : Option Suspended} (h : Halting k) (hp : Delivering p k) : Halting (k.stop p left) := by
  set u := setState p .waiting k.sched
  have hu : Consistent u := by
    refine ⟨h.consistent.ring, h.consistent.nodup, h.consistent.bounded, fun q => ?_, fun q hq => ?_,
      h.consistent.warnings, h.consistent.idle, h.consistent.current⟩
    · rw [state_setState]
      split_ifs with heq
      · exact iff_of_false id (heq ▸ h.notMem_queue hp)
      · exact h.consistent.ready_iff q
    · rw [state_setState] at hq
      split_ifs at hq
      exact h.consistent.running q hq
  have hd : Dispatched u (schedulerYield u) _ _ :=
    dispatched_exec (c := .yield) hu.ring (by
      change k.sched.current ≠ none
      rw [hp.current]
      exact some_ne_none p)
  have hempty : ∀ q, q ∉ preempted u := fun q hq => by
    obtain ⟨hcurrent, hrunning⟩ := mem_preempted hq
    obtain rfl : p = q := some.inj (hp.current.symm.trans hcurrent)
    rw [state_setState, if_pos rfl] at hrunning
    cases hrunning
  have hnext : nextUp u ∈ queue k.sched ∨
      nextUp u = k.sched.idleProc := by
    rcases nextUp_cases (s := u) with hmem | hmem | hidle
    · exact .inl hmem
    · exact absurd hmem (hempty _)
    · exact .inr hidle
  have hhalted : ∀ q, (k.stop p left).halted q → q = p ∨ q ≠ p ∧ k.halted q := fun q hq => by
    change update k.halted p true q = true at hq
    rw [update_apply] at hq
    split_ifs at hq with heq
    · exact .inl heq
    · exact .inr ⟨heq, hq⟩
  refine halting_dispatched (k := k.stop p left) hu.yield hd ?_ (fun q hq => absurd hq (hempty q)) (fun q hq => ?_)
    (fun q hq => ?_) (.inl ?_)
  · change update k.halted p true _ = false
    rw [update_of_ne]
    · exact h.of_queue hnext
    · rcases hnext with hmem | hidle
      · exact fun heq => h.notMem_queue hp (heq ▸ hmem)
      · rw [hidle]
        exact hp.notIdle.symm
  · rw [state_setState]
    rcases hhalted q hq with heq | ⟨hne, hq⟩
    · exact .inl (if_pos heq)
    · rw [if_neg hne]
      exact h.asleep q hq
  · rcases hhalted q hq with rfl | ⟨-, hq⟩
    · exact hp.notIdle
    · exact (h.other q hq).1
  · rw [← hd.current, schedulerYield, show u.current = some p from hp.current]
    rfl

theorem Halting.defaultAction (h : Halting k) (hp : Delivering p k) : Halting (k.defaultAction p sig) := by
  rw [SigKernel.defaultAction]
  split_ifs
  · exact h.exit hp
  · exact h.stop hp
  · exact h
  · exact h.exit hp

theorem Halting.deliverLoop {ring3 : Bool} {deliverable : SigSet} {sigs : List ℕ} (h : Halting k)
    (hp : Delivering p k) : Halting (k.deliverLoop p ring3 deliverable sigs) := by
  induction sigs generalizing k with
  | nil => exact h
  | cons sig rest ih =>
    rw [SigKernel.deliverLoop]
    split
    · exact ih h hp
    -- taking the signal off the pending ones changes nothing that matters here
    have h' := h.setSignals p { k.signals p with pending := sigdelset (k.signals p).pending sig }
    have hp' : Delivering p (k.setSignals p { k.signals p with pending := sigdelset (k.signals p).pending sig }) :=
      ⟨hp.current, hp.running, hp.notIdle⟩
    simp only
    split_ifs with hign hkill hstop hcont hwaiting
    · exact ih h' hp'
    · exact h'.exit hp'
    · exact h'.stop hp'
    · cases hwaiting.symm.trans hp.running
    · exact ih h' hp'
    · exact h'.defaultAction hp'
    · exact h'.setSignals p _
    · exact h'.defaultAction hp'

theorem Halting.pend (h : Halting k) : Halting (k.pend p sig) := by
  have hle : ∀ q, (k.pend p sig).halted q → k.halted q := fun q hq => by
    simp only [SigKernel.pend] at hq
    split_ifs at hq
    · rw [update_apply] at hq
      split_ifs at hq
      exact hq
    · exact hq
  exact ⟨h.consistent, fun q hq => h.asleep q (hle q hq), fun q hq => h.other q (hle q hq)⟩

theorem Halting.wake (h : Halting k) (hp : p < maxProcesses) (hhalted : k.halted p = false) :
    Halting (k.wake p) := by
  rw [SigKernel.wake]
  split
  · exact h.sched (c := .unblock p) hp fun q hq => by
      rcases hq with hq | hq
      · cases hq
      · cases hq
        exact hhalted
  · exact h

theorem Halting.send {sig : ℤ} (h : Halting k) (hok : Respects k (.send p sig)) : Halting (k.send p sig) := by
  obtain ⟨hp, hallowed⟩ := hok
  rw [SigKernel.send]
  split_ifs with hvalid hblocked
  · exact h
  · exact h.pend
  · refine h.pend.wake hp ?_
    have hvalid := not_eq_false _ ▸ hvalid
    have hpos : 1 ≤ sig := (of_decide_eq_true hvalid).1
    rw [SigKernel.pend]
    split_ifs with hcont
    · exact update_self ..
    · rw [← not_eq_true]
      intro hbad
      -- a stopped process would be woken by a signal that it does not block
      obtain ⟨hcont, hkill⟩ := not_or.mp hcont
      rcases hallowed hbad hvalid with rfl | ⟨hstop, hfree⟩
      · exact hkill rfl
      · refine hcont (congrArg Int.toNat (hfree.mp ?_))
        rw [← not_eq_true]
        exact fun hset => hblocked ⟨fun heq => hkill (congrArg Int.toNat heq), hstop, hset⟩

theorem Halting.step (h : Halting k) (hstep : guarded Respects StopStep k c k') : Halting k' := by
  obtain ⟨hok, rfl⟩ := hstep
  cases c with
  | send p sig => exact h.send hok
  | sched c => exact h.sched hok.1 hok.2
  | deliver ring3 =>
    rw [SigKernel.exec, SigKernel.deliver]
    split
    · exact h
    · rename_i p hcurrent
      obtain ⟨hrunning, hidle⟩ := hok p hcurrent
      split
      · exact Halting.deliverLoop ⟨h.consistent, h.asleep, h.other⟩ ⟨hcurrent, hrunning, hidle⟩
      · exact h.deliverLoop ⟨hcurrent, hrunning, hidle⟩

theorem Halting.ready (h : Halting k) (hok : Respects k (.send p sigcont)) (hhalted : k.halted p) :
    (k.send p sigcont).state p = .ready := by
  obtain ⟨hp, hallowed⟩ := hok
  have hfree : sigismember (k.signals p).blocked sigcont = false := by
    rcases hallowed hhalted rfl with hbad | ⟨-, hfree⟩
    · exact absurd hbad (by decide)
    · exact hfree.mpr rfl
  have hstate := h.asleep p hhalted
  have hnot : p ∉ queue k.sched := fun hmem =>
    false_ne_true ((h.of_queue (.inl hmem)).symm.trans hhalted)
  obtain ⟨-, -, hready⟩ := h.consistent.enqueue hp hnot
  rw [SigKernel.send, if_neg (by decide)]
  rw [Int.toNat_natCast, hfree, if_neg (by decide), SigKernel.wake,
    if_pos (show (k.pend p sigcont).state p = _ ∨ (k.pend p sigcont).state p = _ from hstate.symm)]
  change ((schedulerUnblock p k.sched).procs p).state = .ready
  rw [schedulerUnblock, if_neg]
  · exact hready
  · change ¬ (k.state p = _ ∨ k.state p = _)
    rcases hstate with hstate | hstate
    · rw [hstate]
      decide
    · rw [hstate]
      decide

/-- Along every run whose calls respect stopped processes, a stopped process is not executed until
`SIGCONT` or `SIGKILL` is sent to it, and is ready when `SIGCONT` is. -/
theorem stopped_stays_stopped {start : SigKernel} {calls : List StopCall} (hstart : Consistent start.sched)
    (hnone : ∀ p, start.halted p = false) (hrun : Run (guarded Respects StopStep) start calls k)
    (hstep : guarded Respects StopStep k c k') : StopObeyed k c k' := by
  have hinit : Halting start := by
    refine ⟨hstart, fun p hp => ?_, fun p hp => ?_⟩
    · exact absurd ((hnone p).symm.trans hp) false_ne_true
    · exact absurd ((hnone p).symm.trans hp) false_ne_true
  have h : Halting k := hrun.invariant (fun _ _ _ h hstep => h.step hstep) hinit
  refine ⟨fun p hp => ((h.step hstep).other p hp).2, ?_⟩
  rintro p rfl hp
  obtain ⟨hok, rfl⟩ := hstep
  exact h.ready hok hp

def oneRuns (blocked : SigSet) : SigKernel :=
  [.sched (.add 1), .sched .tick].foldl SigKernel.exec
    { kernel :=
        { Kernel.boot with sched := schedulerInit 0 (Sched.boot fun _ => { Process.zero with state := .created }) }
      signals := fun _ => { signalInitProcess with blocked := blocked }
      suspended := fun _ => none
      halted := fun _ => false }

def oneStopped (blocked : SigSet) : SigKernel :=
  [.send 1 sigstop, .deliver true].foldl SigKernel.exec (oneRuns blocked)

/-- A process is stopped and sent `SIGCONT`. -/
theorem stopped_stays_stopped_oneStopped :
    StopObeyed (oneStopped 0) (.send 1 sigcont) ((oneStopped 0).exec (.send 1 sigcont)) := by
  have hstart : Consistent (oneRuns 0).sched := by
    have hinit : Consistent (schedulerInit 0 (Sched.boot fun _ => { Process.zero with state := .created })) :=
      .init (by decide) fun _ => ⟨ProcState.noConfusion, ProcState.noConfusion⟩
    exact (hinit.step (c := .add 1) ⟨by decide, rfl⟩ rfl).tick
  have hrun : Run (guarded Respects StopStep) (oneRuns 0) [.send 1 sigstop, .deliver true] (oneStopped 0) := by
    refine .cons ⟨⟨by decide, fun hbad => Bool.noConfusion hbad⟩, rfl⟩ (.cons ⟨fun p hp => ?_, rfl⟩ (.nil _))
    obtain rfl : 1 = p := some.inj (Eq.trans (by decide +kernel) hp)
    exact ⟨by decide +kernel, by decide +kernel⟩
  refine stopped_stays_stopped hstart (fun _ => rfl) hrun ⟨⟨by decide, fun _ _ => .inr ⟨by decide, ?_⟩⟩, rfl⟩
  decide +kernel

/-- A stopped process is executed after it was sent a signal that it ignores, and one that blocks
`SIGCONT` is not ready when that is sent to it. -/
theorem stopped_process_woken :
    (oneStopped 0).halted 1 = true ∧ (oneStopped 0).sched.current = some 0 ∧
      (([.send 1 sigchld, .sched .yield].foldl SigKernel.exec (oneStopped 0)).halted 1 = true ∧
      ([.send 1 sigchld, .sched .yield].foldl SigKernel.exec (oneStopped 0)).sched.current = some 1) ∧
    (oneStopped (sigbit sigcont)).halted 1 = true ∧
      ((oneStopped (sigbit sigcont)).exec (.send 1 sigcont)).state 1 = .waiting := by
  decide +kernel

end AetherOs.Signal
