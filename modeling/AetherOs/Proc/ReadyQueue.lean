import AetherOs.Base.Run
import AetherOs.Proc.Kernel
import Mathlib.Data.Finset.Card

/-! # The ready queue -/

namespace AetherOs.Proc

open Base Function List Sched

def queue (s : Sched) : List ℕ := s.readyQueue.contents maxReady

structure Consistent (s : Sched) : Prop where
  ring : s.readyQueue.WellFormed maxReady
  nodup : (queue s).Nodup
  bounded : ∀ p ∈ queue s, p < maxProcesses
  ready_iff : ∀ p, (s.procs p).state = .ready ↔ p ∈ queue s
  running : ∀ p, (s.procs p).state = .running → s.current = some p
  warnings : s.fullWarnings = 0
  idle : s.idleProc < maxProcesses
  current : ∀ p, s.current = some p → p < maxProcesses

variable {s s' : Sched} {p q : ℕ} {state : ProcState} {proc : Process}

theorem procs_setProc : (setProc p proc s).procs q = if q = p then proc else s.procs q := by
  simp [setProc, update_apply]

theorem state_setState : ((setState p state s).procs q).state = if q = p then state else (s.procs q).state := by
  rw [setState, procs_setProc]
  split
  · rfl
  · rfl

namespace Consistent

section

variable (h : Consistent s)

include h

theorem congr (hstate : ∀ q, (s'.procs q).state = (s.procs q).state)
    (hqueue : s'.readyQueue = s.readyQueue) (hcurrent : s'.current = s.current)
    (hwarnings : s'.fullWarnings = s.fullWarnings) (hidle : s'.idleProc = s.idleProc) : Consistent s' := by
  have hsame : queue s' = queue s := by rw [queue, queue, hqueue]
  refine ⟨by rw [hqueue]; exact h.ring, by rw [hsame]; exact h.nodup, by rw [hsame]; exact h.bounded,
    fun q => ?_, fun q => ?_, hwarnings.trans h.warnings, by rw [hidle]; exact h.idle,
    by rw [hcurrent]; exact h.current⟩
  · rw [hstate, hsame]
    exact h.ready_iff q
  · rw [hstate, hcurrent]
    exact h.running q

theorem count_lt (hp : p < maxProcesses) (hnot : p ∉ queue s) :
    s.readyQueue.count < maxReady := by
  have hnodup : (p :: queue s).Nodup := nodup_cons.mpr ⟨hnot, h.nodup⟩
  have hsub : (p :: queue s).toFinset ⊆ Finset.range maxProcesses := fun q hq => by
    rw [mem_toFinset, mem_cons] at hq
    rw [Finset.mem_range]
    rcases hq with rfl | hq
    · exact hp
    · exact h.bounded q hq
  have hcard := Finset.card_le_card hsub
  rw [toFinset_card_of_nodup hnodup, Finset.card_range, length_cons, queue, Base.Ring.length_contents] at hcard
  exact hcard

theorem enqueue (hp : p < maxProcesses) (hnot : p ∉ queue s) :
    Consistent (readyEnqueue p s) ∧ queue (readyEnqueue p s) = queue s ++ [p] ∧
      ((readyEnqueue p s).procs p).state = .ready := by
  have hroom := h.count_lt hp hnot
  rw [readyEnqueue, if_neg (not_le.mpr hroom)]
  have hqueue : queue (setState p .ready { s with readyQueue := s.readyQueue.push maxReady p }) =
      queue s ++ [p] := Base.Ring.contents_push h.ring hroom p
  refine ⟨⟨h.ring.push hroom p, ?_, fun q hq => ?_, fun q => ?_, fun q hq => ?_, h.warnings, h.idle, h.current⟩,
    hqueue, by rw [state_setState, if_pos rfl]⟩
  · rw [hqueue, nodup_append]
    refine ⟨h.nodup, nodup_singleton p, fun a ha b hb hab => hnot ?_⟩
    rw [mem_singleton] at hb
    rwa [← hb, ← hab]
  · rw [hqueue, mem_append, mem_singleton] at hq
    rcases hq with hq | rfl
    · exact h.bounded q hq
    · exact hp
  · rw [hqueue, state_setState, mem_append, mem_singleton]
    split_ifs with heq
    · exact iff_of_true rfl (.inr heq)
    · rw [or_iff_left heq]
      exact h.ready_iff q
  · rw [state_setState] at hq
    split at hq
    · cases hq
    · exact h.running q hq

theorem dequeue : (readyDequeue s).1 < maxProcesses ∧
    (readyDequeue s).2.readyQueue.WellFormed maxReady ∧
    (readyDequeue s).1 ∉ queue (readyDequeue s).2 ∧ (queue (readyDequeue s).2).Nodup ∧
    (∀ q, q ≠ (readyDequeue s).1 → (q ∈ queue (readyDequeue s).2 ↔ q ∈ queue s)) ∧
    (∃ r, (readyDequeue s).2 = { s with readyQueue := r }) := by
  rw [readyDequeue]
  split_ifs with hzero
  · have hempty : queue s = [] := length_eq_zero_iff.mp (by rw [queue, Base.Ring.length_contents]; exact hzero)
    refine ⟨h.idle, h.ring, ?_, h.nodup, fun q _ => Iff.rfl, s.readyQueue, rfl⟩
    rw [hempty]
    exact not_mem_nil
  · have hcons : queue s = s.readyQueue.front :: queue { s with readyQueue := s.readyQueue.pop maxReady } :=
      Base.Ring.contents_eq_cons h.ring (Nat.pos_of_ne_zero hzero)
    have hnodup := h.nodup
    rw [hcons, nodup_cons] at hnodup
    refine ⟨h.bounded _ (hcons ▸ mem_cons_self), h.ring.pop (Nat.pos_of_ne_zero hzero), hnodup.1, hnodup.2,
      fun q hq => ?_, _, rfl⟩
    rw [hcons, mem_cons, or_iff_right hq]

theorem dispatchNext (hnone : ∀ q, (s.procs q).state ≠ .running) :
    Consistent (dispatch (readyDequeue s).1 (readyDequeue s).2) := by
  obtain ⟨hlt, hring, hnot, hnodup, hmem, r, hr⟩ := h.dequeue
  generalize readyDequeue s = d at *
  obtain ⟨next, s'⟩ := d
  subst hr
  have hstate : ∀ q, ((dispatch next { s with readyQueue := r }).procs q).state =
      if q = next then .running else (s.procs q).state := fun q => by
    change ((setProc next _ _).procs q).state = _
    rw [procs_setProc]
    split
    · rfl
    · rfl
  have hqueue : queue (dispatch next { s with readyQueue := r }) = queue { s with readyQueue := r } := rfl
  refine ⟨hring, hnodup, fun q hq => ?_, fun q => ?_, fun q hq => ?_, h.warnings, h.idle, fun q hq => ?_⟩
  · rw [hqueue] at hq
    have hne : q ≠ next := fun heq => hnot (heq ▸ hq)
    exact h.bounded q ((hmem q hne).mp hq)
  · rw [hstate, hqueue]
    split
    · rename_i heq
      exact iff_of_false ProcState.noConfusion (heq ▸ hnot)
    · rename_i hne
      exact (h.ready_iff q).trans (hmem q hne).symm
  · rw [hstate] at hq
    split at hq
    · rename_i heq
      exact congrArg some heq.symm
    · exact absurd hq (hnone q)
  · obtain rfl : next = q := Option.some.inj hq
    exact hlt

theorem reschedule (hcurrent : s.current = some p) : Consistent (reschedule p s) := by
  rw [Proc.reschedule]
  have hnext : ∀ u, Consistent u → (∀ q, (u.procs q).state ≠ .running) →
      Consistent (contextSwitch (readyDequeue u).1 (dispatch (readyDequeue u).1 (readyDequeue u).2)) :=
    fun u hu hnone => (hu.dispatchNext hnone).congr (fun _ => rfl) rfl rfl rfl rfl
  have honly : ∀ q, (s.procs q).state = .running → q = p := fun q hq =>
    Option.some.inj ((h.running q hq).symm.trans hcurrent)
  by_cases hrun : (s.procs p).state = .running
  · have hnot : p ∉ queue s := fun hmem => by
      rw [(h.ready_iff p).mpr hmem] at hrun
      cases hrun
    have hp := h.current p hcurrent
    have hroom := h.count_lt hp hnot
    -- the state that is set first is set again by the queue
    have hsame : readyEnqueue p (setState p .ready s) = readyEnqueue p s := by
      have hroom' : ¬ maxReady ≤ (setState p .ready s).readyQueue.count := not_le.mpr hroom
      rw [readyEnqueue, readyEnqueue, if_neg hroom', if_neg (not_le.mpr hroom)]
      simp only [setState, setProc, update_self, update_idem]
    obtain ⟨hcons, -, hready⟩ := h.enqueue hp hnot
    rw [if_pos hrun, hsame]
    refine hnext _ hcons fun q hq => ?_
    by_cases heq : q = p
    · rw [heq, hready] at hq
      cases hq
    · rw [readyEnqueue, if_neg (not_le.mpr hroom), state_setState, if_neg heq] at hq
      exact heq (honly q hq)
  · rw [if_neg hrun]
    exact hnext s h fun q hq => hrun (honly q hq ▸ hq)

theorem tick : Consistent (schedulerTick s) := by
  have hticks : Consistent { s with schedTicks := (s.schedTicks + 1) % uint64Size } :=
    h.congr (fun _ => rfl) rfl rfl rfl rfl
  have hslice : ∀ old k l, Consistent (setProc old { s.procs old with timeSlice := k, totalTicks := l }
      { s with schedTicks := (s.schedTicks + 1) % uint64Size }) := fun old k l =>
    h.congr (fun q => by
      rw [procs_setProc]
      split_ifs with heq
      · rw [heq]
      · rfl) rfl rfl rfl rfl
  simp only [schedulerTick]
  split
  · rename_i hnone
    refine hticks.dispatchNext fun q hq => ?_
    cases hnone.symm.trans (h.running q hq)
  · rename_i old hold
    split
    · split
      · exact hslice old _ _
      · exact (hslice old _ _).reschedule hold
    · exact hticks.reschedule hold

theorem yield : Consistent (schedulerYield s) := by
  rw [schedulerYield]
  split
  · exact h
  · rename_i old hold
    exact h.reschedule hold

theorem block (hready : state ≠ .ready) (hrunning : state ≠ .running) :
    Consistent (schedulerBlock p state s) := by
  have hindex := fun i (hi : i < s.readyQueue.count) =>
    show (queue s).get ⟨i, by rw [queue, Base.Ring.length_contents]; exact hi⟩ =
      s.readyQueue.slots ((s.readyQueue.head + i) % maxReady) by simp [queue, Base.Ring.contents]
  obtain ⟨hring, hqueue, hfields⟩ : (schedulerBlock p state s).readyQueue.WellFormed maxReady ∧
      queue (schedulerBlock p state s) = (queue s).erase p ∧
      (∃ r, schedulerBlock p state s = { setState p state s with readyQueue := r }) := by
    rw [schedulerBlock, schedulerRemove]
    cases hsearch : search (fun q => decide (q = p))
        (fun i => (setState p state s).readyQueue.slots (((setState p state s).readyQueue.head + i) % maxReady))
        (setState p state s).readyQueue.count 0 with
    | none =>
      refine ⟨h.ring, ?_, s.readyQueue, rfl⟩
      change queue s = _
      rw [erase_of_not_mem fun hmem => ?_]
      obtain ⟨⟨i, hi⟩, hget⟩ := mem_iff_get.mp hmem
      have hi' : i < s.readyQueue.count := by rwa [queue, Base.Ring.length_contents] at hi
      have hmiss := search_none hsearch (Nat.zero_le i) (by rw [Nat.zero_add]; exact hi')
      rw [hindex i hi'] at hget
      exact of_decide_eq_false hmiss hget
    | some i =>
      obtain ⟨-, hi, hfound, -⟩ := search_some hsearch
      rw [Nat.zero_add] at hi
      have hi' : i < s.readyQueue.count := hi
      refine ⟨h.ring.removeAt hi', ?_, _, rfl⟩
      change (s.readyQueue.removeAt maxReady i).contents maxReady = _
      rw [Base.Ring.contents_removeAt h.ring hi']
      have hlt : i < (queue s).length := by rw [queue, Base.Ring.length_contents]; exact hi'
      have hp : (queue s)[i] = p := (hindex i hi').trans (of_decide_eq_true hfound)
      exact (h.nodup.erase_getElem i hlt).symm.trans (congrArg _ hp)
  obtain ⟨r, hr⟩ := hfields
  have hstate : ∀ q, ((schedulerBlock p state s).procs q).state = if q = p then state else (s.procs q).state :=
    fun q => by rw [hr]; exact state_setState
  refine ⟨hring, hqueue ▸ h.nodup.erase p, fun q hq => ?_, fun q => ?_, fun q hq => ?_, by rw [hr]; exact h.warnings,
    by rw [hr]; exact h.idle, by rw [hr]; exact h.current⟩
  · rw [hqueue] at hq
    exact h.bounded q (mem_of_mem_erase hq)
  · rw [hstate, hqueue, h.nodup.mem_erase_iff]
    split_ifs with heq
    · exact iff_of_false hready fun hbad => hbad.1 heq
    · rw [and_iff_right heq]
      exact h.ready_iff q
  · rw [hstate] at hq
    split at hq
    · exact absurd hq hrunning
    · rw [hr]
      exact h.running q hq

theorem unblock (hp : p < maxProcesses) : Consistent (schedulerUnblock p s) := by
  rw [schedulerUnblock]
  split_ifs with hstate
  · exact h
  · refine (h.enqueue hp fun hmem => hstate (.inl ?_)).1
    exact (h.ready_iff p).mpr hmem

end

end Consistent

inductive SchedCall
  | add (p : ℕ)
  | tick
  | yield
  | block (p : ℕ) (reason : ProcState)
  | unblock (p : ℕ)

def Sched.exec (s : Sched) : SchedCall → Sched
  | .add p => schedulerAdd p s
  | .tick => schedulerTick s
  | .yield => schedulerYield s
  | .block p reason => schedulerBlock p reason s
  | .unblock p => schedulerUnblock p s

def SchedStep (s : Sched) (c : SchedCall) (s' : Sched) : Prop := s' = s.exec c

def Sane (s : Sched) : SchedCall → Prop
  | .add p => p < maxProcesses ∧ (s.procs p).state = .created
  | .block p reason => p < maxProcesses ∧ (reason = .sleeping ∨ reason = .waiting)
  | .unblock p => p < maxProcesses
  | _ => True

namespace Consistent

theorem step {c : SchedCall} (h : Consistent s) (hok : Sane s c) (hstep : SchedStep s c s') : Consistent s' := by
  subst hstep
  cases c with
  | add p =>
    refine (h.enqueue hok.1 fun hmem => ?_).1
    have hready := (h.ready_iff p).mpr hmem
    rw [hok.2] at hready
    cases hready
  | tick => exact h.tick
  | yield => exact h.yield
  | block p reason =>
    rcases hok.2 with rfl | rfl
    · exact h.block ProcState.noConfusion ProcState.noConfusion
    · exact h.block ProcState.noConfusion ProcState.noConfusion
  | unblock p => exact h.unblock hok

theorem init {procs : ℕ → Process} (hidle : p < maxProcesses)
    (hprocs : ∀ q, (procs q).state ≠ .ready ∧ (procs q).state ≠ .running) :
    Consistent (schedulerInit p (boot procs)) := by
  have hstate : ∀ q, ((schedulerInit p (boot procs)).procs q).state =
      if q = p then .created else (procs q).state := fun q => state_setState
  refine ⟨Base.Ring.wellFormed_clear (by decide), nodup_nil, fun q hq => absurd hq not_mem_nil, fun q => ?_,
    fun q hq => ?_, rfl, hidle, fun q hq => (nomatch hq)⟩
  · rw [hstate]
    refine iff_of_false ?_ not_mem_nil
    split
    · exact ProcState.noConfusion
    · exact (hprocs q).1
  · rw [hstate] at hq
    split at hq
    · cases hq
    · exact absurd hq (hprocs q).2

end Consistent

/-- The ready queue is consistent along every run: no process is in it twice, the processes in it are
those that are ready, only the current process is running, and the queue is never found full. -/
theorem ready_queue_consistent {procs : ℕ → Process} {idle : ℕ} {calls : List SchedCall}
    (hidle : idle < maxProcesses)
    (hprocs : ∀ p, (procs p).state ≠ .ready ∧ (procs p).state ≠ .running)
    (hrun : Run (guarded Sane SchedStep) (schedulerInit idle (boot procs)) calls s) :
    (queue s).Nodup ∧ (∀ p, (s.procs p).state = .ready ↔ p ∈ queue s) ∧
    (∀ p, (s.procs p).state = .running → s.current = some p) ∧
    (∀ p q, (s.procs p).state = .running → (s.procs q).state = .running → p = q) ∧ s.fullWarnings = 0 := by
  have h : Consistent s := hrun.invariant (fun _ _ _ h hstep => h.step hstep.1 hstep.2) (.init hidle hprocs)
  refine ⟨h.nodup, h.ready_iff, h.running, fun p q hp hq => ?_, h.warnings⟩
  exact Option.some.inj ((h.running p hp).symm.trans (h.running q hq))

def wokenProcess : Sched :=
  [.add 1, .add 2, .tick, .block 1 .sleeping, .unblock 1, .yield].foldl exec
    (schedulerInit 0 (boot fun _ => { Process.zero with state := .created }))

/-- The woken process is ready, and the other one is running. -/
theorem ready_queue_consistent_wokenProcess :
    (queue wokenProcess).Nodup ∧ (∀ p, (wokenProcess.procs p).state = .ready ↔ p ∈ queue wokenProcess) ∧
    (∀ p, (wokenProcess.procs p).state = .running → wokenProcess.current = some p) ∧
    (∀ p q, (wokenProcess.procs p).state = .running → (wokenProcess.procs q).state = .running → p = q) ∧
    wokenProcess.fullWarnings = 0 := by
  have hrun : Run (guarded Sane SchedStep)
      (schedulerInit 0 (boot fun _ => { Process.zero with state := .created }))
      [.add 1, .add 2, .tick, .block 1 .sleeping, .unblock 1, .yield] wokenProcess :=
    .cons ⟨⟨by decide, rfl⟩, rfl⟩ (.cons ⟨⟨by decide, rfl⟩, rfl⟩ (.cons ⟨trivial, rfl⟩
      (.cons ⟨⟨by decide, .inl rfl⟩, rfl⟩ (.cons ⟨by simp [Sane, maxProcesses], rfl⟩ (.cons ⟨trivial, rfl⟩ (.nil _))))))
  exact ready_queue_consistent (by decide) (fun _ => ⟨ProcState.noConfusion, ProcState.noConfusion⟩) hrun

end AetherOs.Proc
