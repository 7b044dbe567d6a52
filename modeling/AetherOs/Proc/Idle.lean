import AetherOs.Proc.ReadyQueue

/-! # The idle process -/

namespace AetherOs.Proc

open Base List Sched

def Dispatches (s : Sched) : SchedCall → Prop
  | .tick => ∀ old, s.current = some old → (s.procs old).timeSlice ≤ 1
  | .yield => s.current ≠ none
  | _ => False

def preempted (s : Sched) : List ℕ := s.current.toList.filter fun old => (s.procs old).state = .running

def nextUp (s : Sched) : ℕ := (queue s ++ preempted s).head?.getD s.idleProc

def IdleAlone (s : Sched) (c : SchedCall) (s' : Sched) : Prop :=
  Dispatches s c → s'.current = some s'.idleProc → ∀ q ≠ s'.idleProc, (s'.procs q).state ≠ .ready

def NoneWaits (s : Sched) (c : SchedCall) : Prop :=
  Dispatches s c → nextUp s = s.idleProc → ∀ q ≠ s.idleProc, (s.procs q).state ≠ .ready ∧ q ∉ preempted s

variable {s s' : Sched} {p q old : ℕ} {c : SchedCall}

section

variable (h : s.readyQueue.WellFormed maxReady)

include h

theorem fst_readyDequeue :
    (readyDequeue s).1 = (queue s).head?.getD s.idleProc := by
  rw [readyDequeue, queue]
  split_ifs with hzero
  · rw [length_eq_zero_iff.mp (Base.Ring.length_contents.trans hzero)]
    rfl
  · rw [Base.Ring.contents_eq_cons h (Nat.pos_of_ne_zero hzero)]
    rfl

theorem head_readyEnqueue (i : ℕ) :
    (queue (readyEnqueue p s)).head?.getD i = (queue s ++ [p]).head?.getD i := by
  rw [readyEnqueue]
  split_ifs with hfull
  · have hsome : queue s ≠ [] := by
      rw [ne_eq, ← length_eq_zero_iff, queue, Base.Ring.length_contents]
      exact (Nat.lt_of_lt_of_le (by decide) hfull).ne'
    rw [List.head?_append_of_ne_nil _ hsome]
    rfl
  · exact congrArg (fun l => l.head?.getD i) (Base.Ring.contents_push h (not_le.mp hfull) p)

theorem ring_readyEnqueue :
    (readyEnqueue p s).readyQueue.WellFormed maxReady := by
  rw [readyEnqueue]
  split_ifs with hfull
  · exact h
  · exact h.push (not_le.mp hfull) p

theorem snd_readyDequeue : ∃ r : Base.Ring ℕ,
    r.WellFormed maxReady ∧ (readyDequeue s).2 = { s with readyQueue := r } := by
  rw [readyDequeue]
  split_ifs with hzero
  · exact ⟨_, h, rfl⟩
  · exact ⟨_, h.pop (Nat.pos_of_ne_zero hzero), rfl⟩

end

theorem state_readyEnqueue : ((readyEnqueue p (setState p .ready s)).procs q).state =
    if q = p then .ready else (s.procs q).state := by
  rw [readyEnqueue]
  split
  · exact state_setState
  · rw [state_setState]
    split_ifs with hq
    · rfl
    · exact state_setState.trans (if_neg hq)

structure Dispatched (s s' : Sched) (next : ℕ) (left : List ℕ) : Prop where
  ring : s'.readyQueue.WellFormed maxReady
  current : s'.current = some next
  idle : s'.idleProc = s.idleProc
  state : ∀ q, (s'.procs q).state = if q = next then .running else if q ∈ left then .ready else (s.procs q).state

theorem nextUp_cases : nextUp s ∈ queue s ∨ nextUp s ∈ preempted s ∨ nextUp s = s.idleProc := by
  rw [nextUp]
  cases hhead : (queue s ++ preempted s).head? with
  | none => exact .inr (.inr rfl)
  | some q => exact (mem_append.mp (mem_of_head? hhead)).imp_right .inl

theorem mem_preempted (hq : q ∈ preempted s) : s.current = some q ∧ (s.procs q).state = .running := by
  rw [preempted, mem_filter, Option.mem_toList, decide_eq_true_eq] at hq
  exact hq

theorem Dispatched.congr {u : Sched} (h : Dispatched u s' (nextUp u) (preempted u))
    (hqueue : u.readyQueue = s.readyQueue) (hcurrent : u.current = s.current)
    (hidle : u.idleProc = s.idleProc) (hstate : ∀ q, (u.procs q).state = (s.procs q).state) :
    Dispatched s s' (nextUp s) (preempted s) := by
  have hleft : preempted u = preempted s := by
    simp only [preempted, hcurrent, hstate]
  have hnext : nextUp u = nextUp s := by
    rw [nextUp, nextUp, hleft, queue, queue, hqueue, hidle]
  rw [hleft, hnext] at h
  exact ⟨h.ring, h.current, h.idle.trans hidle, fun q => (h.state q).trans (by rw [hstate])⟩

section

variable (h : s.readyQueue.WellFormed maxReady)
include h

theorem dispatched_next :
    Dispatched s (dispatch (readyDequeue s).1 (readyDequeue s).2) ((queue s).head?.getD s.idleProc) [] := by
  obtain ⟨r, hring, hr⟩ := snd_readyDequeue h
  rw [fst_readyDequeue h, hr]
  refine ⟨hring, rfl, rfl, fun q => ?_⟩
  change ((setProc _ _ _).procs q).state = _
  rw [procs_setProc, if_neg not_mem_nil]
  split
  · rfl
  · rfl

theorem dispatched_reschedule (hold : s.current = some old) :
    Dispatched s (reschedule old s) (nextUp s) (preempted s) := by
  rw [reschedule, nextUp, preempted, hold]
  split_ifs with hrunning
  · have hleft : (some old).toList.filter (fun old => decide ((s.procs old).state = .running)) = [old] := by
      simp [hrunning]
    have hnext := dispatched_next (ring_readyEnqueue (p := old) (s := setState old .ready s) h)
    have hidle : (readyEnqueue old (setState old .ready s)).idleProc = s.idleProc := by
      rw [readyEnqueue]
      split
      · rfl
      · rfl
    rw [head_readyEnqueue (s := setState old .ready s) h, hidle] at hnext
    rw [hleft]
    refine ⟨hnext.ring, hnext.current, hnext.idle.trans hidle, fun q => (hnext.state q).trans ?_⟩
    rw [if_neg not_mem_nil, state_readyEnqueue]
    simp only [mem_singleton]
    rfl
  · have hleft : (some old).toList.filter (fun old => decide ((s.procs old).state = .running)) = [] := by
      simp [hrunning]
    rw [hleft, append_nil]
    have hnext := dispatched_next h
    exact ⟨hnext.ring, hnext.current, hnext.idle, hnext.state⟩

theorem dispatched_exec (hc : Dispatches s c) : Dispatched s (s.exec c) (nextUp s) (preempted s) := by
  cases c with
  | add p => exact hc.elim
  | block p reason => exact hc.elim
  | unblock p => exact hc.elim
  | yield =>
    simp only [exec, schedulerYield]
    split
    · rename_i hnone
      exact absurd hnone hc
    · rename_i old hold
      exact dispatched_reschedule h hold
  | tick =>
    simp only [exec, schedulerTick]
    split
    · rename_i hnone
      have hleft : preempted s = [] := by rw [preempted, hnone]; rfl
      rw [nextUp, hleft, append_nil]
      obtain ⟨hring, hcurrent, hidle, hstate⟩ :=
        dispatched_next (s := { s with schedTicks := (s.schedTicks + 1) % uint64Size }) h
      exact ⟨hring, hcurrent, hidle, hstate⟩
    · rename_i old hold
      have hslice := hc old hold
      split_ifs with hpos hmore
      · omega
      · refine Dispatched.congr (dispatched_reschedule h hold) rfl rfl rfl fun q => ?_
        rw [procs_setProc]
        split_ifs with hq
        · rw [hq]
        · rfl
      · exact Dispatched.congr (dispatched_reschedule h hold) rfl rfl rfl fun _ => rfl

theorem ring_exec : (s.exec c).readyQueue.WellFormed maxReady := by
  by_cases hc : Dispatches s c
  · exact (dispatched_exec h hc).ring
  · cases c with
    | add p => exact ring_readyEnqueue h
    | block p reason =>
      simp only [exec, schedulerBlock, schedulerRemove]
      split
      · exact h
      · rename_i i hsearch
        have hi := (search_some hsearch).2.1
        rw [Nat.zero_add] at hi
        exact h.removeAt hi
    | unblock p =>
      simp only [exec, schedulerUnblock]
      split
      · exact h
      · exact ring_readyEnqueue h
    | yield =>
      rw [exec, schedulerYield, not_not.mp hc]
      exact h
    | tick =>
      simp only [Dispatches, not_forall, not_le] at hc
      obtain ⟨old, hold, hslice⟩ := hc
      simp only [exec, schedulerTick, hold]
      rw [if_pos (by omega), if_pos (by omega)]
      exact h

theorem idleAlone_iff : IdleAlone s c (s.exec c) ↔ NoneWaits s c := by
  refine forall_congr' fun hc => ?_
  obtain ⟨-, hcurrent, hidle, hstate⟩ := dispatched_exec h hc
  rw [hcurrent, hidle, Option.some_inj]
  refine forall_congr' fun hturn => forall₂_congr fun q hq => ?_
  rw [hstate, hturn, if_neg hq]
  split_ifs with hleft
  · exact iff_of_false (fun hbad => hbad rfl) fun hbad => hbad.2 hleft
  · exact (and_iff_left hleft).symm

end

def idlePreempted : Sched :=
  [.tick, .add 1, .yield].foldl exec
    (schedulerInit 0 (boot fun _ => { Process.zero with state := .created }))

end AetherOs.Proc
