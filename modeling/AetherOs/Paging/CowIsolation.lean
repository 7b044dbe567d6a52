import AetherOs.Base.Run
import AetherOs.Paging.CowClone
import AetherOs.Paging.UserAccess

/-! # Copy-on-write isolation -/

namespace AetherOs.Paging

open Base Function Finset

/-! ## Destroying an address space that shares pages -/

section

variable {s : Machine} {live : Finset ℕ} {kernel : Set ℕ} {r b d t : ℕ} {m : Pmm}

def remaining (s : Machine) (r b x n : ℕ) : Option ℕ := if x = r ∧ n < b then none else frameOf s x n

structure Destroying (s : Machine) (live : Finset ℕ) (r b : ℕ) (m : Pmm) : Prop where
  held : ∀ x ∈ live, ∀ n d, remaining s r b x n = some d → ¬ Free m d
  counted : Base.Counted live (remaining s r b) fun f => (m.refcounts f).toNat

theorem frameOf_of_remaining {x n : ℕ} (h : remaining s r b x n = some d) : frameOf s x n = some d := by
  rw [remaining] at h
  split at h
  · cases h
  · exact h

theorem remaining_succ (x n : ℕ) : remaining s r (b + 1) x n =
    if x = r ∧ n = b then none else remaining s r b x n := by
  simp only [remaining]
  by_cases hx : x = r
  · by_cases hn : n = b
    · simp [hx, hn]
    · simp only [hx, hn, true_and, show n < b + 1 ↔ n < b by omega, if_false]
  · simp [hx]

namespace Destroying

variable (h : Destroying s live r b m) (hstate : CowState s live kernel) (hr : r ∈ live)

include h

theorem skip (hnone : frameOf s r b = none) : Destroying s live r (b + 1) m := by
  have heq (x n : ℕ) : remaining s r (b + 1) x n = remaining s r b x n := by
    rw [remaining_succ]
    split_ifs with hx
    · rw [hx.1, hx.2, remaining, if_neg (by omega), hnone]
    · rfl
  refine ⟨fun x hx n d hd => h.held x hx n d ((heq x n).symm.trans hd), ?_⟩
  exact h.counted.congr (fun x _ n => heq x n) fun _ _ _ _ _ => rfl

include hstate hr

theorem page (hd : frameOf s r b = some d) :
    Destroying s live r (b + 1) (pmmFreeFrame (d * pageSize) m) := by
  have hlt := (hstate.held r hr b d hd).1
  have hnow : remaining s r b r b = some d := by rw [remaining, if_neg (by omega), hd]
  have hused := h.held r hr b d hnow
  have hold {x n f : ℕ} (hf : remaining s r (b + 1) x n = some f) :
      remaining s r b x n = some f ∧ ¬ (x = r ∧ n = b) := by
    rw [remaining_succ] at hf
    split at hf
    · cases hf
    · rename_i hne
      exact ⟨hf, hne⟩
  have hmany {x n : ℕ} (hx : x ∈ live) (hf : remaining s r (b + 1) x n = some d) :
      1 < (m.refcounts d).toNat := by
    by_contra hle
    have hpos := h.counted.pos hr hnow
    exact (hold hf).2 (h.counted.backed.sole hr hnow (by omega) hx (hold hf).1)
  refine ⟨fun x hx n f hf => ?_, ?_⟩
  · by_cases hfd : f = d
    · subst hfd
      exact (pmmFreeFrame_shared hlt hused (hmany hx hf)).1
    · exact not_free_pmmFreeFrame hfd (h.held x hx n f (hold hf).1)
  · refine h.counted.drop hr hnow (fun x _ n => remaining_succ x n) fun x hx n f hf => ?_
    split
    · rename_i hfd
      subst hfd
      exact (pmmFreeFrame_shared hlt hused (hmany hx hf)).2
    · rename_i hfd
      rw [refcounts_pmmFreeFrame hfd]

theorem table (ht : OwnTable s userIndex {r} t) :
    Destroying s live r b (pmmFreeFrame (t * pageSize) m) := by
  have hne {x n d : ℕ} (hx : x ∈ live) (hd : remaining s r b x n = some d) : d ≠ t := by
    rintro rfl
    refine (hstate.not_table hx (frameOf_of_remaining hd)).1 ?_
    obtain ⟨_, rfl, p, hp, _, hpt⟩ := ht
    exact ⟨_, hr, p, hp, hpt⟩
  refine ⟨fun x hx n d hd => not_free_pmmFreeFrame (hne hx hd) (h.held x hx n d hd), ?_⟩
  exact h.counted.congr (fun _ _ _ => rfl) fun x hx n d hd => by rw [refcounts_pmmFreeFrame (hne hx hd)]

end Destroying

theorem CowState.destroy (h : CowState s live kernel) (hr : r ∈ live) :
    CowState (vmmDestroyAddressSpace r s) (live.erase r) kernel ∧
      ∀ x n, pageOf (vmmDestroyAddressSpace r s) x n = pageOf s x n := by
  set s' := vmmDestroyAddressSpace r s
  have hstart : Destroying s live r 0 s.pmm :=
    ⟨fun x hx n d hd => (h.held x hx n d (frameOf_of_remaining hd)).2,
      h.counted.congr (fun _ _ _ => by simp [remaining]) fun _ _ _ _ _ => rfl⟩
  have hinv : DestroyInvariant s r (Destroying s live r) := {
    skip := fun n m hm _ habsent => hm.skip (by simp [frameOf, habsent])
    page := fun n m hm hn hpresent => hm.page h hr (frameOf_eq_some.mpr ⟨hn, hpresent, rfl⟩)
    table := fun n m t hm ht => hm.table h hr ht }
  have hend := destroy_induction h.spaces hr hinv hstart
  have hremaining {x : ℕ} (hx : x ∈ live.erase r) (n : ℕ) :
      frameOf s' x n = remaining s r userPages x n := by
    rw [remaining, if_neg fun heq => (mem_erase.mp hx).1 heq.1]
    rfl
  have hgone (n : ℕ) : remaining s r userPages r n = none := by
    simp only [remaining, frameOf, true_and]
    split
    · rfl
    · rename_i hn
      simp [hn]
  have hcounted : Base.Counted (live.erase r) (frameOf s')
      (refs s') :=
    (hend.counted.leave hgone).congr (fun x hx n => hremaining hx n) fun _ _ _ _ _ => rfl
  refine ⟨⟨?_, fun x hx n d hd => ?_, hcounted, fun x hx n d hd hw => ?_⟩, fun _ _ => rfl⟩
  · rw [coe_erase]
    exact h.spaces.destroy hr
  · rw [hremaining hx] at hd
    exact ⟨(h.held x (mem_of_mem_erase hx) n d (frameOf_of_remaining hd)).1,
      hend.held x (mem_of_mem_erase hx) n d hd⟩
  · have hx' := mem_of_mem_erase hx
    have hone : refs s d = 1 := h.writable x hx' n d hd hw
    have hpos := hcounted.pos hx hd
    have hle : refs s' d ≤ refs s d := by
      rw [hcounted.count x hx n d hd, h.counted.count x hx' n d hd]
      exact card_le_card (filter_subset_filter _ (erase_subset _ _))
    omega

end

/-! ## Copy-on-write isolation -/

section

structure System where
  machine : Machine
  live : Finset ℕ

inductive Event
  | clone (src dst : ℕ)
  | write (r vaddr : ℕ) (b : BitVec 8)
  | destroy (r : ℕ)

def SystemStep (S : System) (event : Event) (S' : System) : Prop :=
  match event with
  | .clone src dst => src ∈ S.live ∧ S.live.card < 255 ∧
      vmmCloneAddressSpace src S.machine = (some dst, S'.machine) ∧ S'.live = insert dst S.live
  | .write r vaddr b => r ∈ S.live ∧ vaddr < userPages * pageSize ∧
      userWrite S.machine r vaddr b = some S'.machine ∧ S'.live = S.live
  | .destroy r => r ∈ S.live ∧ S'.machine = vmmDestroyAddressSpace r S.machine ∧
      S'.live = S.live.erase r

abbrev Images := ℕ → ℕ → Option (BitVec 8)

def eagerStep (img : Images) : Event → Images
  | .clone src dst => update img dst (img src)
  | .write r vaddr b => update img r (update (img r) vaddr (some b))
  | .destroy r => update img r fun _ => none

def Reaches (s : Machine) (r f : ℕ) : Prop :=
  (∃ p, TablePath p ∧ tableAt s r p = some f) ∨ ∃ n, frameOf s r n = some f

structure Simulates (kernel : Set ℕ) (S : System) (img : Images) : Prop where
  state : CowState S.machine S.live kernel
  reads : ∀ r ∈ S.live, ∀ v, userLoad S.machine r v = img r v

variable {kernel : Set ℕ} {S S' : System} {img : Images} {event : Event} {events : List Event}
variable {s : Machine} {live : Finset ℕ}

theorem userLoad_congr {s s' : Machine} {r r' : ℕ} (h : ∀ n, pageOf s' r' n = pageOf s r n) (v : ℕ) :
    userLoad s' r' v = userLoad s r v := by
  rw [userLoad, userLoad, h]

theorem Simulates.step (h : Simulates kernel S img) (hstep : SystemStep S event S') :
    Simulates kernel S' (eagerStep img event) := by
  cases event with
  | clone src dst =>
    obtain ⟨hsrc, hcard, hclone, hlive⟩ := hstep
    obtain ⟨hstate, hothers, hdst, hchild⟩ := h.state.clone hsrc hcard hclone
    refine ⟨hlive ▸ hstate, fun r hr v => ?_⟩
    rw [hlive] at hr
    rcases mem_insert.mp hr with rfl | hold
    · rw [eagerStep, update_self, userLoad_congr hchild, h.reads src hsrc]
    · have hne : r ≠ dst := fun heq => hdst (heq ▸ hold)
      rw [eagerStep, update_of_ne hne, userLoad_congr (hothers r hold), h.reads r hold]
  | write r vaddr b =>
    obtain ⟨hr, hv, hwrite, hlive⟩ := hstep
    obtain ⟨hstate, hload⟩ := h.state.userWrite hr hv hwrite
    refine ⟨hlive ▸ hstate, fun x hx v => ?_⟩
    rw [hlive] at hx
    rw [hload x hx, h.reads x hx, eagerStep]
    by_cases hxr : x = r
    · subst hxr
      by_cases hvv : v = vaddr
      · simp [hvv]
      · simp [hvv, update_of_ne]
    · simp [hxr, update_of_ne]
  | destroy r =>
    obtain ⟨hr, hmachine, hlive⟩ := hstep
    obtain ⟨hstate, hpages⟩ := h.state.destroy hr
    refine ⟨by rw [hmachine, hlive]; exact hstate, fun x hx v => ?_⟩
    rw [hlive] at hx
    rw [hmachine, userLoad_congr (hpages x), h.reads x (mem_of_mem_erase hx), eagerStep,
      update_of_ne (mem_erase.mp hx).1]

theorem CowState.not_free_of_reaches {r f : ℕ} (h : CowState s live kernel) (hr : r ∈ live)
    (hf : Reaches s r f) : ¬ Free s.pmm f := by
  rcases hf with ⟨p, hp, ht⟩ | ⟨n, hn⟩
  · exact h.spaces.tables.kept f ⟨r, hr, p, hp, ht⟩
  · exact (h.held r hr n f hn).2

def userMachine : Machine := pageMachine (pteWritable ||| pteUser)

theorem freshSpaces_userMachine : FreshSpaces userMachine {2} {1} :=
  freshSpaces_pageMachine ⟨fun i hlo hhi => by revert i; decide, by decide⟩ (by decide +kernel)

def clonedMachine : Machine := (vmmCloneAddressSpace 2 userMachine).2

def writtenMachine : Machine := (userWrite clonedMachine 7 0x400000 0x41).getD clonedMachine

theorem clone_userMachine : vmmCloneAddressSpace 2 userMachine = (some 7, clonedMachine) :=
  Prod.ext (by decide +kernel) (by rw [clonedMachine])

theorem write_clonedMachine : userWrite clonedMachine 7 0x400000 0x41 = some writtenMachine := by
  have hsome : (userWrite clonedMachine 7 0x400000 0x41).isSome := by decide +kernel
  obtain ⟨s, hs⟩ := Option.isSome_iff_exists.mp hsome
  rw [writtenMachine, hs, Option.getD_some]

end

end AetherOs.Paging
