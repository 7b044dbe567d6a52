import AetherOs.Signal.Masks

/-! # Signals that can not be caught -/

namespace AetherOs.Signal

open Base Function

inductive TaskCall
  | sigaction (sig : ℤ) (act : Option SigAction)
  | sigprocmask (how : How) (set : Option SigSet)
  | send (sig : ℤ)
  | deliver (frame : Bool) (arrived : ℕ → SigSet)
  | sigreturn

def Task.exec (t : Task) : TaskCall → Task
  | .sigaction sig act => (signalDoSigaction sig act t).2.2
  | .sigprocmask how set => (signalDoSigprocmask how set t).2.2
  | .send sig => (signalSendProc sig t).2
  | .deliver frame arrived => (signalDeliverPending frame arrived t).2
  | .sigreturn => signalDoSigreturn t

inductive TasksCall
  | one (p : ℕ) (c : TaskCall)
  | fork (parent child : ℕ)

def TasksStep (s : ℕ → Task) (c : TasksCall) (s' : ℕ → Task) : Prop :=
  match c with
  | .one p c => s' = update s p ((s p).exec c)
  | .fork parent child =>
    (s child).state = .unused ∧ s' = update s child { s parent with state := .created }

structure Uncatchable (t : Task) : Prop where
  free : strip t.sigstate.blocked = t.sigstate.blocked
  kill : (t.sigstate.actions (sigkill - 1)).handler = sigDfl
  stop : (t.sigstate.actions (sigstop - 1)).handler = sigDfl

variable {t u : Task} {sig i : ℕ} {set b : SigSet}

theorem Uncatchable.of_handlers (h : Uncatchable t) (hfree : strip u.sigstate.blocked = u.sigstate.blocked)
    (hhandler : ∀ i, (u.sigstate.actions i).handler = (t.sigstate.actions i).handler ∨
      (u.sigstate.actions i).handler = sigDfl) : Uncatchable u := by
  refine ⟨hfree, ?_, ?_⟩
  · exact (hhandler _).elim (fun hsame => hsame.trans h.kill) id
  · exact (hhandler _).elim (fun hsame => hsame.trans h.stop) id

theorem handler_callHandler (i : ℕ) : ((callHandler sig t).sigstate.actions i).handler =
    (t.sigstate.actions i).handler ∨ ((callHandler sig t).sigstate.actions i).handler = sigDfl := by
  simp only [callHandler, signalSetupFrame]
  split
  · by_cases hi : i = sig - 1
    · subst hi
      rw [update_self]
      exact .inr rfl
    · rw [update_of_ne hi]
      exact .inl rfl
  · exact .inl rfl

theorem handler_deliverFrom {ring3 : Bool} {arrived : ℕ → SigSet} {deliverable : SigSet} {sigs : List ℕ} (i : ℕ) :
    ((deliverFrom ring3 arrived deliverable sigs t).2.sigstate.actions i).handler =
      (t.sigstate.actions i).handler ∨
    ((deliverFrom ring3 arrived deliverable sigs t).2.sigstate.actions i).handler = sigDfl := by
  induction sigs generalizing t with
  | nil => exact .inl rfl
  | cons sig sigs ih =>
    have hdefault : ∀ u : Task, u.sigstate.actions = t.sigstate.actions →
        ((signalDefaultAction (arrived sig) sig u).sigstate.actions i).handler =
          (t.sigstate.actions i).handler := fun u hu => by
      rw [sameMasks_signalDefaultAction.actions, hu]
    rw [deliverFrom]
    simp only
    split_ifs
    · exact ih
    · exact ih
    · exact .inl (by rw [sameMasks_processExit.actions]; rfl)
    · exact ih
    · exact ih
    · exact ih
    · exact .inl (hdefault _ rfl)
    · exact handler_callHandler i
    · exact .inl (hdefault _ rfl)

theorem Uncatchable.exec (h : Uncatchable t) (c : TaskCall) : Uncatchable (t.exec c) := by
  cases c with
  | sigaction sig act =>
    rw [Task.exec, signalDoSigaction]
    split_ifs with hvalid hsig
    · exact h
    · exact h
    · cases act with
      | none => exact h
      | some act =>
        obtain ⟨hkill, hstop⟩ := not_or.mp hsig
        have hrange : 1 ≤ sig := by
          simp only [sigValid, decide_eq_false_iff_not, not_and, not_lt, not_forall] at hvalid
          exact hvalid.1
        refine ⟨h.free, ?_, ?_⟩
        · change (update t.sigstate.actions (sig.toNat - 1) act (sigkill - 1)).handler = _
          rw [update_of_ne (by simp only [sigkill] at *; omega)]
          exact h.kill
        · change (update t.sigstate.actions (sig.toNat - 1) act (sigstop - 1)).handler = _
          rw [update_of_ne (by simp only [sigstop] at *; omega)]
          exact h.stop
  | sigprocmask how set =>
    cases set with
    | none => exact h
    | some set =>
      have hactions : (t.exec (.sigprocmask how (some set))).sigstate.actions = t.sigstate.actions := by
        cases how <;> rfl
      refine h.of_handlers ?_ fun i => .inl (by rw [hactions])
      rw [Task.exec, blocked_signalDoSigprocmask]
      exact strip_apply h.free
  | send sig =>
    have hactions : (t.exec (.send sig)).sigstate.actions = t.sigstate.actions := by
      rw [Task.exec, signalSendProc]
      split
      · rfl
      simp only
      split_ifs <;> rfl
    refine h.of_handlers ?_ fun i => .inl (by rw [hactions])
    rw [Task.exec, blocked_signalSendProc]
    exact h.free
  | deliver frame arrived =>
    refine h.of_handlers ?_ fun i => ?_
    · rcases signalDeliverPending_spec t frame arrived with ⟨-, hb⟩ | ⟨sig, -, hpos, -, hkill, hstop, hb⟩
      · rw [Task.exec, hb]
        exact h.free
      · rw [Task.exec, hb]
        split
        · exact strip_addset h.free hkill hstop hpos
        · exact h.free
    · rw [Task.exec, signalDeliverPending]
      split
      · exact .inl rfl
      · exact handler_deliverFrom i
  | sigreturn => exact ⟨h.free, h.kill, h.stop⟩

theorem uncatchable_step {s s' : ℕ → Task} {c : TasksCall} (h : ∀ p, Uncatchable (s p)) (hstep : TasksStep s c s')
    (p : ℕ) : Uncatchable (s' p) := by
  cases c with
  | one q c =>
    subst hstep
    rw [update_apply]
    split
    · exact (h q).exec c
    · exact h p
  | fork parent child =>
    obtain ⟨-, rfl⟩ := hstep
    rw [update_apply]
    split
    · exact ⟨(h parent).free, (h parent).kill, (h parent).stop⟩
    · exact h p

theorem deliverable_of_free (hfree : sigismember b sig = false) (hpos : 0 < sig) (hlt : sig < nsig)
    (hpending : sigismember set sig) : sigismember (set &&& ~~~b) sig := by
  rw [sigismember_eq] at *
  rw [BitVec.getLsbD_and, BitVec.getLsbD_not, hpending, hfree]
  have hlt' : sig < 32 := hlt
  simp only [Bool.not_false, Bool.and_true, Bool.true_and, decide_eq_true_eq]
  omega

/-- In every state that processes with fresh signal states reach, the two signals are not blocked, have
the default action, and are deliverable when they are pending. -/
theorem kill_stop_uncatchable {start s : ℕ → Task} {calls : List TasksCall}
    (hstart : ∀ p, (start p).sigstate = signalInitProcess) (hrun : Run TasksStep start calls s) (p : ℕ) :
    ∀ sig ∈ [sigkill, sigstop], sigismember (s p).sigstate.blocked sig = false ∧
      ((s p).sigstate.actions (sig - 1)).handler = sigDfl ∧
      (sigismember (s p).sigstate.pending sig = true →
        sigismember ((s p).sigstate.pending &&& ~~~(s p).sigstate.blocked) sig = true) := by
  have hinit : ∀ p, Uncatchable (start p) := fun p => by
    refine ⟨?_, ?_, ?_⟩
    · rw [hstart]
      decide
    · rw [hstart]
      decide
    · rw [hstart]
      decide
  have h := hrun.invariant (I := fun s => ∀ p, Uncatchable (s p))
    (fun s c s' hs hstep p => @uncatchable_step s s' c hs hstep p) hinit p
  have hfree : ∀ sig ∈ [sigkill, sigstop], sigismember (s p).sigstate.blocked sig = false := fun sig hsig => by
    have hlt : sig - 1 < 32 := by
      rcases List.mem_pair.mp hsig with rfl | rfl
      · decide
      · decide
    rw [sigismember_eq, ← h.free, getLsbD_strip hlt]
    rcases List.mem_pair.mp hsig with rfl | rfl
    · simp
    · simp
  intro sig hsig
  refine ⟨hfree sig hsig, ?_, ?_⟩
  · rcases List.mem_pair.mp hsig with rfl | rfl
    · exact h.kill
    · exact h.stop
  · refine deliverable_of_free (hfree sig hsig) ?_ ?_
    · rcases List.mem_pair.mp hsig with rfl | rfl
      · decide
      · decide
    · rcases List.mem_pair.mp hsig with rfl | rfl
      · decide
      · decide

/-- A process tries to block everything and forks, and its child tries to ignore `SIGKILL`, which is
sent to it. -/
theorem kill_stop_uncatchable_child : sigismember
    (((idle.task.exec (.sigprocmask .setmask (some (BitVec.allOnes 32)))).exec
      (.sigaction sigkill (some ⟨sigIgn, 0, 0⟩))).exec (.send sigkill)).sigstate.blocked sigkill = false := by
  have hrun : Run TasksStep (fun _ => { idle.task with state := .unused })
      [.one 0 (.sigprocmask .setmask (some (BitVec.allOnes 32))), .fork 0 1,
        .one 1 (.sigaction sigkill (some ⟨sigIgn, 0, 0⟩)), .one 1 (.send sigkill)] _ :=
    .cons rfl (.cons ⟨rfl, rfl⟩ (.cons rfl (.cons rfl (.nil _))))
  have hchild := (kill_stop_uncatchable (fun _ => rfl) hrun 1 sigkill List.mem_cons_self).1
  exact hchild

inductive Reaction
  | exit
  | stop
  | handler
  deriving DecidableEq

def defaultReaction (sig : ℕ) : List Reaction :=
  if sig ∈ [sighup, sigint, sigquit, sigill, sigtrap, sigabrt, sigbus, sigfpe, sigsegv, sigpipe, sigalrm, sigterm,
      sigusr1, sigusr2] then [.exit]
  else if sig ∈ [sigstop, sigtstp, sigttin, sigttou] then [.stop]
  else if sig ∈ [sigchld, sigcont, sigwinch] then []
  else [.exit]

def reactionsFrom (ring3 : Bool) (deliverable : SigSet) (actions : ℕ → SigAction) : List ℕ → List Reaction
  | [] => []
  | sig :: rest =>
    let handler := (actions (sig - 1)).handler
    if sigismember deliverable sig = false then reactionsFrom ring3 deliverable actions rest
    else if handler = sigIgn then reactionsFrom ring3 deliverable actions rest
    else if sig = sigkill then [.exit]
    else if sig = sigstop then .stop :: reactionsFrom ring3 deliverable actions rest
    else if sig = sigcont then reactionsFrom ring3 deliverable actions rest
    else if handler = sigDfl then defaultReaction sig
    else if ring3 then [.handler]
    else defaultReaction sig

def ring3 (frame : Bool) (t : Task) : Bool := frame && t.regs.cs &&& 3 = 3

def deliverable (t : Task) : SigSet := t.sigstate.pending &&& ~~~t.sigstate.blocked

def reactions (frame : Bool) (t : Task) : List Reaction :=
  reactionsFrom (ring3 frame t) (deliverable t) t.sigstate.actions (List.range' 1 (nsig - 1))

def Ended (t : Task) : Prop := t.state = .unused ∨ t.state = .dead

def Killed (frame : Bool) (arrived : ℕ → SigSet) (t : Task) : Prop :=
  reactions frame t = [.exit] ∧ (signalDeliverPending frame arrived t).1 = none ∧
    Ended (signalDeliverPending frame arrived t).2

def acts (t : Task) (sig : ℕ) : Bool :=
  sigismember (deliverable t) sig && (t.sigstate.actions (sig - 1)).handler != sigIgn && sig != sigcont

def firstActing (t : Task) : Option ℕ := (List.range' 1 (nsig - 1)).find? (acts t)

def Fatal (frame : Bool) (t : Task) (sig : ℕ) : Prop :=
  sig = sigkill ∨ ((t.sigstate.actions (sig - 1)).handler = sigDfl ∨ ring3 frame t = false) ∧
    sig ≠ sigstop ∧ defaultReaction sig = [.exit]

theorem ended_processExit {code : ℤ} : Ended (processExit code t) := by
  rw [processExit]
  split_ifs with hdead
  · exact .inr hdead
  · exact .inl rfl

theorem ended_signalDefaultAction {arrived : SigSet} (h : .exit ∈ defaultReaction sig) :
    Ended (signalDefaultAction arrived sig t) := by
  rw [defaultReaction] at h
  rw [signalDefaultAction]
  split_ifs at h ⊢
  · exact ended_processExit
  · cases List.mem_singleton.mp h
  · cases h
  · exact ended_processExit

theorem deliverFrom_reactions (ring3 : Bool) (arrived : ℕ → SigSet) (deliverable : SigSet) (sigs : List ℕ) (t : Task) :
    (.handler ∉ reactionsFrom ring3 deliverable t.sigstate.actions sigs →
      (deliverFrom ring3 arrived deliverable sigs t).1 = none) ∧
    (.exit ∈ reactionsFrom ring3 deliverable t.sigstate.actions sigs →
      Ended (deliverFrom ring3 arrived deliverable sigs t).2) := by
  induction sigs generalizing t with
  | nil => exact ⟨fun _ => rfl, fun h => absurd h List.not_mem_nil⟩
  | cons sig sigs ih =>
    rw [deliverFrom, reactionsFrom]
    simp only [show (unpend sig t).sigstate.actions = t.sigstate.actions from rfl]
    split_ifs
    · exact ih t
    · exact ih (unpend sig t)
    · exact ⟨fun _ => rfl, fun _ => ended_processExit⟩
    · obtain ⟨hnone, hended⟩ := ih (stopped (arrived sig) (unpend sig t))
      exact ⟨fun h => hnone fun hmem => h (List.mem_cons_of_mem _ hmem),
        fun h => hended ((List.mem_cons.mp h).resolve_left Reaction.noConfusion)⟩
    · exact ih { unpend sig t with state := .ready }
    · exact ih (unpend sig t)
    · exact ⟨fun _ => rfl, ended_signalDefaultAction⟩
    · exact ⟨fun h => absurd (List.mem_singleton_self _) h, fun h => absurd (List.mem_singleton.mp h) Reaction.noConfusion⟩
    · exact ⟨fun _ => rfl, ended_signalDefaultAction⟩

theorem reactionsFrom_eq_exit_iff {frame : Bool} {sigs : List ℕ} :
    reactionsFrom (ring3 frame t) (deliverable t) t.sigstate.actions sigs = [.exit] ↔
      ∃ sig, sigs.find? (acts t) = some sig ∧ Fatal frame t sig := by
  induction sigs with
  | nil => simp [reactionsFrom]
  | cons sig sigs ih =>
    have hskip : acts t sig = false →
        ((∃ i, (sig :: sigs).find? (acts t) = some i ∧ Fatal frame t i) ↔
          ∃ i, sigs.find? (acts t) = some i ∧ Fatal frame t i) := fun hno => by
      rw [List.find?_cons_of_neg (by rw [hno]; exact Bool.false_ne_true)]
    have hact : ¬ sigismember (deliverable t) sig = false → ¬ (t.sigstate.actions (sig - 1)).handler = sigIgn →
        sig ≠ sigcont →
        ((∃ i, (sig :: sigs).find? (acts t) = some i ∧ Fatal frame t i) ↔ Fatal frame t sig) :=
      fun hmem hign hcont => by
        rw [List.find?_cons_of_pos (by simp [acts, hmem, hign, hcont])]
        simp
    rw [reactionsFrom]
    split_ifs with hmem hign hkill hstop hcont hdfl hring
    · rw [ih, hskip (by simp [acts, hmem])]
    · rw [ih, hskip (by simp [acts, hign])]
    · rw [hact hmem hign (by rw [hkill]; decide)]
      exact iff_of_true rfl (.inl hkill)
    · rw [hact hmem hign (by rw [hstop]; decide)]
      refine iff_of_false (fun hbad => ?_) ?_
      · cases (List.cons.inj hbad).1
      · rintro (hbad | ⟨-, hbad, -⟩)
        · exact hkill hbad
        · exact hbad hstop
    · rw [ih, hskip (by simp [acts, hcont])]
    · rw [hact hmem hign hcont, Fatal, or_iff_right hkill, and_iff_right (.inl hdfl),
        and_iff_right hstop]
    · rw [hact hmem hign hcont]
      refine iff_of_false (fun hbad => ?_) ?_
      · cases (List.cons.inj hbad).1
      · rintro (hbad | ⟨hbad | hbad, -⟩)
        · exact hkill hbad
        · exact hdfl hbad
        · exact Bool.false_ne_true (hbad.symm.trans hring)
    · rw [hact hmem hign hcont, Fatal, or_iff_right hkill,
        and_iff_right (.inr (Bool.eq_false_iff.mpr hring)), and_iff_right hstop]

def hungUp : Task :=
  [.sigaction sighup (some ⟨0x400000, 0, 0⟩), .send sighup, .send sigkill].foldl Task.exec idle.task

end AetherOs.Signal
