import AetherOs.Proc.ReadyQueue

/-! # Credentials -/

namespace AetherOs.Proc

open Base Kernel

def eperm : ℤ := 1

def processSetuid (proc : Option ℕ) (uid : ℕ) (k : Kernel) : ℤ × Kernel :=
  match proc with
  | none => (-esrch, k)
  | some p =>
    if (k.proc p).euid ≠ 0 ∧ uid ≠ (k.proc p).uid then (-eperm, k)
    else (0, k.setProc p { k.proc p with uid := uid, euid := uid })

def processSetgid (proc : Option ℕ) (gid : ℕ) (k : Kernel) : ℤ × Kernel :=
  match proc with
  | none => (-esrch, k)
  | some p =>
    if (k.proc p).egid ≠ 0 ∧ gid ≠ (k.proc p).gid then (-eperm, k)
    else (0, k.setProc p { k.proc p with gid := gid, egid := gid })

inductive CredCall
  | setuid (p uid : ℕ)
  | setgid (p gid : ℕ)
  | fork (p : ℕ) (memory : Bool)

def CredCall.caller : CredCall → ℕ
  | .setuid p _ => p
  | .setgid p _ => p
  | .fork p _ => p

def Kernel.credExec (k : Kernel) : CredCall → Kernel
  | .setuid p uid => (processSetuid (some p) uid k).2
  | .setgid p gid => (processSetgid (some p) gid k).2
  | .fork p memory => (processFork p memory k).2

def CredStep (k : Kernel) (c : CredCall) (k' : Kernel) : Prop :=
  (k.proc c.caller).state ≠ .unused ∧ k' = k.credExec c

def family (k : Kernel) (members : Set ℕ) : CredCall → Set ℕ
  | .fork p memory => {q | q ∈ members ∨ p ∈ members ∧ (processFork p memory k).1 = some q}
  | _ => members

def FamilyStep (s : Kernel × Set ℕ) (c : CredCall) (s' : Kernel × Set ℕ) : Prop :=
  CredStep s.1 c s'.1 ∧ s'.2 = family s.1 s.2 c

def AllRoot (k : Kernel) : Prop := ∀ q, (k.proc q).state ≠ .unused → (k.proc q).euid = 0

def CredKept (k : Kernel) (p : ℕ) (s : Kernel × Set ℕ) : Prop :=
  (∀ q ∈ s.2, (s.1.proc q).euid ≠ 0) ∧
    (s.1.proc p).gid = (k.proc p).gid ∧ (s.1.proc p).egid = (k.proc p).egid

def GroupsStay (p : ℕ) (s : Kernel × Set ℕ) : CredCall → Prop
  | .setgid q gid => q = p → (s.1.proc p).egid = 0 ∨ gid = (s.1.proc p).gid →
      gid = (s.1.proc p).gid ∧ gid = (s.1.proc p).egid
  | _ => True

structure NotRoot (proc : Process) : Prop where
  used : proc.state ≠ .unused
  euid : proc.euid ≠ 0
  uid : proc.uid ≠ 0

variable {k k' : Kernel} {p q gid : ℕ} {c : CredCall}

theorem proc_setProc (k : Kernel) (p : ℕ) (proc : Process) (q : ℕ) : (k.setProc p proc).proc q = if q = p then proc else k.proc q :=
  procs_setProc

theorem proc_processSetuid (k : Kernel) (p uid q : ℕ) : (processSetuid (some p) uid k).2.proc q = k.proc q ∨
    q = p ∧ ((k.proc p).euid ≠ 0 → uid = (k.proc p).uid) ∧
      (processSetuid (some p) uid k).2.proc q = { k.proc p with uid := uid, euid := uid } := by
  rw [processSetuid]
  split_ifs with hdenied
  · exact .inl rfl
  · rw [proc_setProc]
    split_ifs with hq
    · exact .inr ⟨hq, fun heuid => not_not.mp fun hne => hdenied ⟨heuid, hne⟩, rfl⟩
    · exact .inl rfl

theorem proc_processSetgid (q : ℕ) : (processSetgid (some p) gid k).2.proc q =
    if q = p ∧ ((k.proc p).egid = 0 ∨ gid = (k.proc p).gid) then { k.proc p with gid := gid, egid := gid }
    else k.proc q := by
  rw [processSetgid]
  split_ifs with hdenied hset hset
  · exact absurd hset.2 (not_or.mpr hdenied)
  · rfl
  · rw [proc_setProc, if_pos hset.1]
  · rw [proc_setProc, if_neg fun hq => hset ⟨hq, ?_⟩]
    rw [← not_not (a := _ ∨ _), not_or]
    exact hdenied

theorem proc_processFork (k : Kernel) (p : ℕ) (memory : Bool) (q : ℕ) :
    (processFork p memory k).1 ≠ some q ∧ ((processFork p memory k).2.proc q = k.proc q ∨
      (k.proc q).state = .unused ∧ ((processFork p memory k).2.proc q).state = .unused) ∨
    (processFork p memory k).1 = some q ∧ (k.proc q).state = .unused ∧
      ((processFork p memory k).2.proc q).state = .created ∧
      ((processFork p memory k).2.proc q).uid = (k.proc p).uid ∧
      ((processFork p memory k).2.proc q).euid = (k.proc p).euid := by
  rw [processFork]
  split
  · exact .inl ⟨(Option.some_ne_none q).symm, .inl rfl⟩
  · rename_i child halloc
    have hfree : (k.proc child).state = .unused := of_decide_eq_true (search_some halloc).2.2.1
    by_cases hq : q = child
    · subst hq
      split
      · have hchild := proc_setProc (issuePid k) q { k.proc p with
          pid := k.nextPid, ppid := (k.proc p).pid, state := .created, totalTicks := 0,
          timeSlice := schedDefaultQuantum } q
        rw [if_pos rfl] at hchild
        refine .inr ⟨rfl, hfree, ?_⟩
        change ((Kernel.setProc q _ (issuePid k)).proc q).state = _ ∧ ((Kernel.setProc q _ (issuePid k)).proc q).uid = _ ∧
          ((Kernel.setProc q _ (issuePid k)).proc q).euid = _
        rw [hchild]
        exact ⟨rfl, rfl, rfl⟩
      · refine .inl ⟨(Option.some_ne_none q).symm, .inr ⟨hfree, ?_⟩⟩
        rw [proc_setProc, if_pos rfl]
    · split
      · exact .inl ⟨fun hbad => hq (Option.some.inj hbad).symm, .inl ((proc_setProc _ _ _ _).trans (if_neg hq))⟩
      · exact .inl ⟨(Option.some_ne_none q).symm, .inl ((proc_setProc _ _ _ _).trans (if_neg hq))⟩

theorem NotRoot.step (h : NotRoot (k.proc q)) (hstep : CredStep k c k') : NotRoot (k'.proc q) := by
  obtain ⟨-, rfl⟩ := hstep
  cases c with
  | setuid p uid =>
    rcases proc_processSetuid k p uid q with hsame | ⟨rfl, hown, hset⟩
    · rw [credExec, hsame]
      exact h
    · obtain rfl := hown h.euid
      rw [credExec, hset]
      exact ⟨h.used, h.uid, h.uid⟩
  | setgid p gid =>
    rw [credExec, proc_processSetgid]
    split_ifs with hset
    · obtain ⟨rfl, -⟩ := hset
      exact ⟨h.used, h.euid, h.uid⟩
    · exact h
  | fork p memory =>
    rcases proc_processFork k p memory q with
      ⟨-, hsame | ⟨hbad, -⟩⟩ | ⟨-, hbad, -⟩
    · rw [credExec, hsame]
      exact h
    · exact absurd hbad h.used
    · exact absurd hbad h.used

def Dropped (k : Kernel) : Prop :=
  ∀ q, (k.proc q).state ≠ .unused → (k.proc q).euid ≠ 0 → (k.proc q).uid ≠ 0

theorem Dropped.step (h : Dropped k) (hstep : CredStep k c k') : Dropped k' := by
  intro q hused heuid
  by_cases hbefore : (k.proc q).state ≠ .unused ∧ (k.proc q).euid ≠ 0
  · exact (NotRoot.step ⟨hbefore.1, hbefore.2, h q hbefore.1 hbefore.2⟩ hstep).uid
  · obtain ⟨hcaller, rfl⟩ := hstep
    cases c with
    | setuid p uid =>
      rcases proc_processSetuid k p uid q with hsame | ⟨rfl, -, hset⟩
      · rw [credExec, hsame] at hused heuid
        exact absurd ⟨hused, heuid⟩ hbefore
      · rw [credExec, hset] at heuid ⊢
        exact heuid
    | setgid p gid =>
      rw [credExec, proc_processSetgid] at hused heuid
      split_ifs at hused heuid with hset
      · obtain ⟨rfl, -⟩ := hset
        exact absurd ⟨hused, heuid⟩ hbefore
      · exact absurd ⟨hused, heuid⟩ hbefore
    | fork p memory =>
      rcases proc_processFork k p memory q with
        ⟨-, hsame | ⟨-, hbad⟩⟩ | ⟨-, -, -, huid, hchild⟩
      · rw [credExec, hsame] at hused heuid
        exact absurd ⟨hused, heuid⟩ hbefore
      · exact absurd hbad hused
      · rw [credExec, hchild] at heuid
        rw [credExec, huid]
        exact h p hcaller heuid

theorem notRoot_family {s s' : Kernel × Set ℕ} (h : ∀ q ∈ s.2, NotRoot (s.1.proc q))
    (hstep : FamilyStep s c s') : ∀ q ∈ s'.2, NotRoot (s'.1.proc q) := by
  obtain ⟨k, members⟩ := s
  obtain ⟨k', members'⟩ := s'
  obtain ⟨hcall, rfl⟩ := hstep
  intro q hq
  cases c with
  | setuid p uid => exact (h q hq).step hcall
  | setgid p gid => exact (h q hq).step hcall
  | fork p memory =>
    rcases hq with hq | ⟨hparent, hchild⟩
    · exact (h q hq).step hcall
    · have hp := h p hparent
      obtain ⟨-, rfl⟩ := hcall
      rcases proc_processFork k p memory q with
        ⟨hne, -⟩ | ⟨-, -, hstate, huid, heuid⟩
      · exact absurd hchild hne
      · refine ⟨?_, ?_, ?_⟩
        · rw [credExec, hstate]
          exact ProcState.noConfusion
        · rw [credExec, heuid]
          exact hp.euid
        · rw [credExec, huid]
          exact hp.uid

theorem groups_step {s s' : Kernel × Set ℕ} (hp : (s.1.proc p).state ≠ .unused) (hstep : FamilyStep s c s') :
    (s'.1.proc p).gid = (s.1.proc p).gid ∧ (s'.1.proc p).egid = (s.1.proc p).egid ↔ GroupsStay p s c := by
  obtain ⟨k, members⟩ := s
  obtain ⟨k', members'⟩ := s'
  obtain ⟨⟨-, rfl⟩, -⟩ := hstep
  cases c with
  | setuid q uid =>
    refine iff_of_true ?_ trivial
    rcases proc_processSetuid k q uid p with hsame | ⟨rfl, -, hset⟩
    · rw [credExec, hsame]
      exact ⟨rfl, rfl⟩
    · rw [credExec, hset]
      exact ⟨rfl, rfl⟩
  | setgid q gid =>
    rw [credExec, proc_processSetgid]
    split_ifs with hset
    · obtain ⟨rfl, hallowed⟩ := hset
      exact ⟨fun h _ _ => h, fun h => h rfl hallowed⟩
    · refine iff_of_true ⟨rfl, rfl⟩ ?_
      rintro rfl hallowed
      exact absurd ⟨rfl, hallowed⟩ hset
  | fork q memory =>
    refine iff_of_true ?_ trivial
    rcases proc_processFork k q memory p with
      ⟨-, hsame | ⟨hbad, -⟩⟩ | ⟨-, hbad, -⟩
    · rw [credExec, hsame]
      exact ⟨rfl, rfl⟩
    · exact absurd hbad hp
    · exact absurd hbad hp

/-- Of all runs that go on from a process that is no longer root, those along which neither it nor a
descendant is root and its groups stay are those in which its calls of `process_setgid` that pass the
check set the groups it has. -/
theorem credentials_kept_iff {start : Kernel} {before after : List CredCall} {s : Kernel × Set ℕ}
    (hroot : AllRoot start) (hbefore : Run CredStep start before k) (hused : (k.proc p).state ≠ .unused)
    (heuid : (k.proc p).euid ≠ 0) :
    Run (fun s c s' => FamilyStep s c s' ∧ CredKept k p s') (k, {p}) after s ↔
      Run (guarded (GroupsStay p) FamilyStep) (k, {p}) after s := by
  have hdropped : Dropped k := hbefore.invariant (fun _ _ _ h hstep => h.step hstep) fun q hq hne =>
    absurd (hroot q hq) hne
  -- the family is not root, and the groups of the process are those it had
  refine Run.iff_of_invariant
    (I := fun s => p ∈ s.2 ∧ (∀ q ∈ s.2, NotRoot (s.1.proc q)) ∧ CredKept k p s) ?_ ?_ ?_
  · refine ⟨rfl, ?_, ?_, rfl, rfl⟩
    · rintro q rfl
      exact ⟨hused, heuid, hdropped q hused heuid⟩
    · rintro q rfl
      exact heuid
  · rintro s c s' ⟨hp, hfamily, -, hgid, hegid⟩
    rw [guarded, and_comm]
    refine and_congr_left fun hstep => ?_
    rw [← groups_step (hfamily p hp).used hstep, hgid, hegid]
    exact ⟨fun h => h.2, fun h => ⟨fun q hq => (notRoot_family hfamily hstep q hq).euid, h⟩⟩
  · rintro s c s' ⟨hp, hfamily, -⟩ ⟨hstep, hkept⟩
    refine ⟨?_, notRoot_family hfamily hstep, hkept⟩
    rw [hstep.2]
    cases c with
    | setuid q uid => exact hp
    | setgid q gid => exact hp
    | fork q memory => exact .inl hp

def firstProcess : Kernel := (processCreate true boot).2

def unprivileged : Kernel := [.setgid 0 100, .setuid 0 1000].foldl credExec firstProcess

/-- A process with a user and a group of its own forks, and its child asks for root. -/
theorem credentials_kept_iff_unprivileged :
    Run (fun s c s' => FamilyStep s c s' ∧ CredKept unprivileged 0 s') (unprivileged, {0})
      [.fork 0 true, .setuid 1 0] (unprivileged.credExec (.fork 0 true) |>.credExec (.setuid 1 0),
        family unprivileged {0} (.fork 0 true)) := by
  have hroot : AllRoot firstProcess := fun q _ => by
    by_cases hq : q = 0
    · subst hq
      decide +kernel
    · exact congrArg Process.euid ((proc_setProc _ _ _ _).trans (if_neg hq))
  have hbefore : Run CredStep firstProcess [.setgid 0 100, .setuid 0 1000] unprivileged :=
    .cons ⟨by decide +kernel, rfl⟩ (.cons ⟨by decide +kernel, rfl⟩ (.nil _))
  exact (credentials_kept_iff hroot hbefore (by decide +kernel) (by decide +kernel)).mpr
    (.cons ⟨trivial, ⟨by decide +kernel, rfl⟩, rfl⟩ (.cons ⟨trivial, ⟨by decide +kernel, rfl⟩, rfl⟩ (.nil _)))

/-- A process that has given up root and not the group 0 takes another group. -/
theorem setgid_after_setuid :
    let k := firstProcess.credExec (.setuid 0 1000)
    (firstProcess.proc 0).euid = 0 ∧ CredStep firstProcess (.setuid 0 1000) k ∧
      CredStep k (.setgid 0 100) (k.credExec (.setgid 0 100)) ∧ (k.proc 0).euid = 1000 ∧
      (k.proc 0).gid = 0 ∧ ((k.credExec (.setgid 0 100)).proc 0).gid = 100 :=
  ⟨by decide +kernel, ⟨by decide +kernel, rfl⟩, ⟨by decide +kernel, rfl⟩, by decide +kernel, by decide +kernel,
    by decide +kernel⟩

end AetherOs.Proc
