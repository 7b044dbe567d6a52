import AetherOs.Paging.CowIsolation

/-! # Write permission after a clone -/

namespace AetherOs.Paging

open Base

variable {s s' t t' : Machine} {roots kernel : Set ℕ} {src dst b n r : ℕ}

structure CloneEntries (s : Machine) (roots kernel : Set ℕ) (src dst b : ℕ) (t : Machine) : Prop where
  spaces : UserSpaces t (insert dst roots) kernel
  held : Held t (insert dst roots)
  parent : ∀ m < userPages, leaf t src m =
    if m < b ∧ hasFlag (leaf s src m) ptePresent = true then cowEntry (leaf s src m) else leaf s src m
  child : ∀ m < userPages, leaf t dst m =
    if m < b ∧ hasFlag (leaf s src m) ptePresent = true then cowEntry (leaf s src m) else 0

theorem CloneEntries.skip (h : CloneEntries s roots kernel src dst b t) (hb : b < userPages)
    (habsent : hasFlag (leaf t src b) ptePresent = false) :
    CloneEntries s roots kernel src dst (b + 1) t := by
  have hsame : hasFlag (leaf s src b) ptePresent = false := by
    rw [h.parent b hb, if_neg (by omega)] at habsent
    exact habsent
  have hiff (m : ℕ) : (m < b + 1 ∧ hasFlag (leaf s src m) ptePresent) ↔
      (m < b ∧ hasFlag (leaf s src m) ptePresent) := by
    refine ⟨fun ⟨hm, hp⟩ => ⟨?_, hp⟩, fun ⟨hm, hp⟩ => ⟨by omega, hp⟩⟩
    by_contra hge
    obtain rfl : m = b := by omega
    rw [hsame] at hp
    cases hp
  exact { h with
    parent := fun m hm => by rw [h.parent m hm]; simp only [hiff m]
    child := fun m hm => by rw [h.child m hm]; simp only [hiff m] }

theorem CloneEntries.share (h : CloneEntries s roots kernel src dst b t) (hsrc : src ∈ roots)
    (hb : b < userPages) (hpresent : hasFlag (leaf t src b) ptePresent)
    (hshared : PageShared (insert dst roots) kernel src dst b t t') :
    CloneEntries s roots kernel src dst (b + 1) t' := by
  have hsrc' : src ∈ insert dst roots := Set.mem_insert_of_mem _ hsrc
  have hdst' : dst ∈ insert dst roots := Set.mem_insert _ _
  have hold : leaf t src b = leaf s src b := by rw [h.parent b hb, if_neg (by omega)]
  have hsame := samePage_cowEntry (leaf t src b)
  refine ⟨hshared.spaces, fun x hx m hm hp => ?_, fun m hm => ?_, fun m hm => ?_⟩
  · rw [hshared.leaf_eq x hx m hm] at hp ⊢
    split_ifs at hp with heq
    · rw [if_pos heq, hsame.frame]
      exact hshared.kept _ (h.held src hsrc' b hb hpresent)
    · rw [if_neg heq]
      exact hshared.kept _ (h.held x hx m hm hp)
  · rw [hshared.leaf_eq src hsrc' m hm, h.parent m hm]
    by_cases hmb : m = b
    · subst hmb
      rw [hold] at hpresent
      simp [hold, hpresent]
    · simp [hmb, show m < b + 1 ↔ m < b by omega]
  · rw [hshared.leaf_eq dst hdst' m hm, h.child m hm]
    by_cases hmb : m = b
    · subst hmb
      rw [hold] at hpresent
      simp [hold, hpresent]
    · simp [hmb, show m < b + 1 ↔ m < b by omega]

theorem cloneEntries_of_clone (h : UserSpaces s roots kernel) (hheld : Held s roots) (hsrc : src ∈ roots)
    (hclone : vmmCloneAddressSpace src s = (some dst, s')) :
    CloneEntries s roots kernel src dst userPages s' := by
  obtain ⟨hfree, _, hloop⟩ := vmmCloneAddressSpace_cases h hclone
  obtain ⟨hspaces, hleaf, hempty⟩ := h.create hheld hfree
  have hstart : CloneEntries s roots kernel src dst 0 (newSpace s dst) := by
    refine ⟨hspaces, fun x hx m hm hp => ?_, fun m hm => ?_, fun m hm => ?_⟩
    · rcases hx with rfl | hx
      · rw [hempty.leaf_eq_zero hm, hasFlag_zero] at hp
        cases hp
      · rw [hleaf x hx] at hp ⊢
        exact not_free_takeFrame (hheld x hx m hm hp)
    · rw [if_neg (by omega), hleaf src hsrc]
    · rw [if_neg (by omega), hempty.leaf_eq_zero hm]
  have hinv : CloneInvariant (insert dst roots) kernel src dst (CloneEntries s roots kernel src dst) := {
    spaces := fun _ _ ht => ht.spaces
    held := fun _ _ ht => ht.held
    skip := fun _ _ ht hn habsent => ht.skip hn habsent
    share := fun _ _ _ ht hn hpresent hshared => ht.share hsrc hn hpresent hshared }
  exact cloneLoop_induction hinv (Set.mem_insert_of_mem _ hsrc) (Set.mem_insert _ _) hstart hloop

structure Fault where
  root : ℕ
  vaddr : ℕ
  errorCode : BitVec 64
  resolved : Bool

def FaultStep (S : System) (f : Fault) (S' : System) : Prop :=
  f.root ∈ S.live ∧
    match vmmHandlePageFault f.root f.vaddr f.errorCode S.machine with
    | .resolved s => f.resolved = true ∧ S'.machine = s ∧ S'.live = S.live
    | .killed _ s => f.resolved = false ∧ S'.machine = vmmDestroyAddressSpace f.root s ∧
        S'.live = S.live.erase f.root
    | .panic => False

def ResolvedAt (faults : List Fault) (r n : ℕ) : Prop :=
  ∃ f ∈ faults, f.resolved = true ∧ f.root = r ∧ f.vaddr / pageSize = n

def UserFaults (faults : List Fault) : Prop :=
  ∀ f ∈ faults, f.resolved = true → f.vaddr < userPages * pageSize

theorem FaultStep.writable_iff {S S' : System} {f : Fault} (hstep : FaultStep S f S')
    (h : UserSpaces S.machine S.live kernel) (huser : f.resolved → f.vaddr < userPages * pageSize)
    (hn : n < userPages) :
    UserSpaces S'.machine S'.live kernel ∧ ∀ r ∈ S'.live, r ∈ S.live ∧
      (hasFlag (leaf S'.machine r n) pteWritable ↔
        hasFlag (leaf S.machine r n) pteWritable ∨ ResolvedAt [f] r n) := by
  obtain ⟨hroot, hstep⟩ := hstep
  simp only [ResolvedAt, List.mem_singleton, exists_eq_left]
  cases hfault : vmmHandlePageFault f.root f.vaddr f.errorCode S.machine with
  | panic => simp [hfault] at hstep
  | resolved s =>
    simp only [hfault] at hstep
    obtain ⟨hres, rfl, hlive⟩ := hstep
    have hpage := page_lt (huser hres)
    obtain ⟨hpresent, hresolution⟩ := h.tables.resolution hroot hfault
    obtain ⟨hspaces, e, he, hleaf⟩ := h.resolution hroot hpage hpresent hresolution
    rw [hlive]
    refine ⟨hspaces, fun r hr => ⟨hr, ?_⟩⟩
    rw [hleaf r hr n hn]
    by_cases heq : r = f.root ∧ n = f.vaddr / pageSize
    · simp [heq, he, hres]
    · rw [if_neg heq, hres]
      simp only [true_and]
      exact ⟨.inl, fun hor => hor.elim id fun hbad => absurd ⟨hbad.1.symm, hbad.2.symm⟩ heq⟩
  | killed reason s =>
    simp only [hfault] at hstep
    obtain ⟨hres, hmachine, hlive⟩ := hstep
    obtain ⟨m, hkept, rfl⟩ := h.tables.killed hroot hfault
    have hspaces : UserSpaces { S.machine with pmm := m } S.live kernel :=
      h.of_frames (fun _ _ => rfl) (fun _ _ => rfl) rfl fun x hx =>
        hkept x (hx.elim (h.tables.kept x) (h.tables.shared_kept x))
    rw [hmachine, hlive, Finset.coe_erase]
    refine ⟨hspaces.destroy hroot, fun r hr => ⟨Finset.mem_of_mem_erase hr, ?_⟩⟩
    simp only [hres, Bool.false_eq_true, false_and, or_false]
    rfl

theorem faultRun_writable_iff {S S' : System} {faults : List Fault} (hrun : Run FaultStep S faults S')
    (h : UserSpaces S.machine S.live kernel) (huser : UserFaults faults) (hn : n < userPages) :
    ∀ r ∈ S'.live, r ∈ S.live ∧ (hasFlag (leaf S'.machine r n) pteWritable ↔
      hasFlag (leaf S.machine r n) pteWritable ∨ ResolvedAt faults r n) := by
  induction hrun with
  | nil S => exact fun r hr => ⟨hr, by simp [ResolvedAt]⟩
  | @cons S mid S' f faults hstep _ ih =>
    obtain ⟨hspaces, hfirst⟩ := hstep.writable_iff h (huser f (by simp)) hn
    intro r hr
    obtain ⟨hmid, hrest⟩ := ih hspaces (fun g hg => huser g (List.mem_cons_of_mem _ hg)) r hr
    obtain ⟨hr', hiff⟩ := hfirst r hmid
    refine ⟨hr', hrest.trans ?_⟩
    rw [hiff, or_assoc]
    simp [ResolvedAt]

theorem userStore_eq_none {v : ℕ} {x : BitVec 8} (h : hasFlag (leaf s r (v / pageSize)) pteWritable = false) :
    userStore s r v x = none := by
  rw [userStore]
  simp [h]

def readOnlyMachine : Machine := pageMachine pteUser

def readOnlyClone : Machine := (vmmCloneAddressSpace 2 readOnlyMachine).2

def writeFault : BitVec 64 := faultUser ||| faultWrite ||| faultPresent

def amplifiedMachine : Machine :=
  (vmmHandlePageFault 7 0x400000 writeFault readOnlyClone).resolved?.getD readOnlyClone

theorem freshSpaces_readOnlyMachine : FreshSpaces readOnlyMachine {2} {1} :=
  freshSpaces_pageMachine ⟨fun i hlo hhi => by revert i; decide, by decide⟩ (by decide +kernel)

theorem clone_readOnlyMachine : vmmCloneAddressSpace 2 readOnlyMachine = (some 7, readOnlyClone) :=
  Prod.ext (by decide +kernel) (by rw [readOnlyClone])

theorem eq_resolved_of_resolved? {res : FaultResult} (h : res.resolved? = some s) : res = .resolved s := by
  cases res with
  | resolved t => exact congrArg FaultResult.resolved (Option.some.inj h)
  | killed reason t => cases h
  | panic => cases h

theorem fault_readOnlyClone :
    Run FaultStep ⟨readOnlyClone, {7, 2}⟩ [⟨7, 0x400000, writeFault, true⟩] ⟨amplifiedMachine, {7, 2}⟩ := by
  have hsome : (vmmHandlePageFault 7 0x400000 writeFault readOnlyClone).resolved?.isSome := by
    decide +kernel
  obtain ⟨s, hs⟩ := Option.isSome_iff_exists.mp hsome
  have hmachine : amplifiedMachine = s := by rw [amplifiedMachine, hs, Option.getD_some]
  refine .cons ⟨by decide, ?_⟩ (.nil _)
  simp only [eq_resolved_of_resolved? hs]
  exact ⟨trivial, hmachine, trivial⟩

end AetherOs.Paging
