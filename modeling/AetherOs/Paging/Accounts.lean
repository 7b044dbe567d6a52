import AetherOs.Paging.CowState

/-! # Where the frames of page tables come from -/

namespace AetherOs.Paging

open Base.Radix List Option

section

variable {s s' s'' : Machine} {m : Pmm} {kernel : Set ℕ} {r f g t i k z v : ℕ} {p q : List ℕ} {flags : BitVec 64}

/-! ## The lowest free frame -/

def nullFrame : ℕ := 0x80000000 / pageSize

theorem physToVirt_eq_zero (hz : z < maxFrames) : physToVirt (z * pageSize) = 0 ↔ z = nullFrame := by
  simp only [physToVirt, addWord, wordSize, kernelVmaBase, nullFrame, maxFrames, pageSize] at *
  omega

theorem scanBits_lowest {byte steps bit : ℕ} :
    (∀ f, scanBits m byte steps bit = some f → ∀ g, byte * 8 + bit ≤ g → g < f → pmmTestBit m g) ∧
      (scanBits m byte steps bit = none →
        ∀ g, byte * 8 + bit ≤ g → g < byte * 8 + bit + steps → pmmTestBit m g) := by
  induction steps generalizing bit with
  | zero => exact ⟨fun f hf => absurd hf.symm (some_ne_none f), fun _ g hge hlt => absurd hlt (by omega)⟩
  | succ steps ih =>
    rw [scanBits]
    split_ifs with hused
    · have hcons (g : ℕ) (hge : byte * 8 + bit ≤ g) : g = byte * 8 + bit ∨ byte * 8 + (bit + 1) ≤ g := by omega
      refine ⟨fun f hf g hge hlt => ?_, fun hnone g hge hlt => ?_⟩
      · rcases hcons g hge with rfl | hge
        · exact hused
        · exact ih.1 f hf g hge hlt
      · rcases hcons g hge with rfl | hge
        · exact hused
        · exact ih.2 hnone g hge (by omega)
    · refine ⟨fun f hf g hge hlt => ?_, fun hnone => hnone.elim⟩
      obtain rfl := some.inj hf
      omega

theorem pmmTestBit_of_full {byte : ℕ} (hfull : m.bitmap byte = 0xFF) (hge : byte * 8 ≤ g)
    (hlt : g < (byte + 1) * 8) : pmmTestBit m g := by
  have hbits : ∀ i < 8, (0xFF : BitVec 8).getLsbD i := by decide
  rw [pmmTestBit_eq, show g / 8 = byte by omega, hfull]
  exact hbits _ (Nat.mod_lt _ (by decide))

theorem scanBytes_lowest {steps byte : ℕ} :
    (∀ f, scanBytes m steps byte = some f → ∀ g, byte * 8 ≤ g → g < f → pmmTestBit m g) ∧
      (scanBytes m steps byte = none → ∀ g, byte * 8 ≤ g → g < (byte + steps) * 8 → pmmTestBit m g) := by
  induction steps generalizing byte with
  | zero => exact ⟨fun f hf => absurd hf.symm (some_ne_none f), fun _ g hge hlt => absurd hlt (by omega)⟩
  | succ steps ih =>
    -- A byte without a free frame is skipped in either way.
    have hskip (hbyte : ∀ g, byte * 8 ≤ g → g < (byte + 1) * 8 → pmmTestBit m g) :
        (∀ f, scanBytes m steps (byte + 1) = some f → ∀ g, byte * 8 ≤ g → g < f → pmmTestBit m g) ∧
          (scanBytes m steps (byte + 1) = none →
            ∀ g, byte * 8 ≤ g → g < (byte + (steps + 1)) * 8 → pmmTestBit m g) := by
      refine ⟨fun f hf g hge hlt => ?_, fun hnone g hge hlt => ?_⟩
      · by_cases hg : g < (byte + 1) * 8
        · exact hbyte g hge hg
        · exact ih.1 f hf g (by omega) hlt
      · by_cases hg : g < (byte + 1) * 8
        · exact hbyte g hge hg
        · exact ih.2 hnone g (by omega) (by omega)
    rw [scanBytes]
    split_ifs with hfull
    · exact hskip fun g => pmmTestBit_of_full hfull
    · have hbits := @scanBits_lowest m byte 8 0
      cases hscan : scanBits m byte 8 0 with
      | none => exact hskip fun g hge hlt => hbits.2 hscan g hge (by omega)
      | some f' =>
        refine ⟨fun f hf g hge hlt => ?_, fun hnone => absurd hnone (some_ne_none _)⟩
        obtain rfl := some.inj hf
        exact hbits.1 f' hscan g hge hlt

theorem pmmAllocFrame_lowest (m : Pmm) : (pmmAllocFrame m = (0, m) ∧ ∀ g, ¬ Free m g) ∨
    ∃ f, Free m f ∧ (∀ g, Free m g → f ≤ g) ∧ pmmAllocFrame m = (f * pageSize, takeFrame f m) := by
  obtain ⟨hsome, hnone⟩ := @scanBytes_lowest m (maxFrames / 8) 0
  rw [pmmAllocFrame]
  cases hscan : scanBytes m (maxFrames / 8) 0 with
  | none =>
    refine .inl ⟨rfl, fun g hg => ?_⟩
    have hused := hnone hscan g (by omega) (by simpa [maxFrames, pageSize] using hg.1)
    exact Bool.false_ne_true (hg.2.symm.trans hused)
  | some f =>
    obtain ⟨hfree, hlt⟩ := scanBytes_spec hscan
    refine .inr ⟨f, ⟨by simpa [maxFrames, pageSize] using hlt, hfree⟩, fun g hg => ?_, rfl⟩
    by_contra hlower
    exact Bool.false_ne_true (hg.2.symm.trans (hsome f hscan g (by omega) (by omega)))

theorem free_takeFrame : Free (takeFrame f m) g ↔ Free m g ∧ g ≠ f := by
  rw [Free, Free, pmmTestBit_takeFrame, Bool.or_eq_false_iff, decide_eq_false_iff_not]
  tauto

/-! ## Running into the frame at two gigabytes -/

def lowFree (m : Pmm) : Finset ℕ := (Finset.range nullFrame).filter fun f => pmmTestBit m f = false

def Strands (m : Pmm) (k : ℕ) : Prop := Free m nullFrame ∧ (lowFree m).card < k

theorem mem_lowFree : f ∈ lowFree m ↔ Free m f ∧ f < nullFrame := by
  rw [lowFree, Finset.mem_filter, Finset.mem_range]
  have hlt : nullFrame < maxFrames := by decide
  exact ⟨fun h => ⟨⟨h.1.trans hlt, h.2⟩, h.1⟩, fun h => ⟨h.2, h.1.2⟩⟩

theorem lowFree_takeFrame : lowFree (takeFrame f m) = (lowFree m).erase f := by
  ext g
  rw [Finset.mem_erase, mem_lowFree, mem_lowFree, free_takeFrame]
  tauto

theorem strands_takeFrame (hfree : Free m f) (hlowest : ∀ g, Free m g → f ≤ g) (hne : f ≠ nullFrame) :
    Strands (takeFrame f m) k ↔ Strands m (k + 1) := by
  rw [Strands, Strands, free_takeFrame, and_iff_left hne.symm]
  refine and_congr_right fun hnull => ?_
  have hmem : f ∈ lowFree m := mem_lowFree.mpr ⟨hfree, lt_of_le_of_ne (hlowest _ hnull) hne⟩
  have hpos : 0 < (lowFree m).card := Finset.card_pos.mpr ⟨f, hmem⟩
  rw [lowFree_takeFrame, Finset.card_erase_of_mem hmem]
  omega

theorem strands_of_lowest (hfree : Free m nullFrame) (hlowest : ∀ g, Free m g → nullFrame ≤ g) :
    Strands m (k + 1) := by
  have hempty : lowFree m = ∅ := Finset.eq_empty_of_forall_notMem fun g hg =>
    absurd (hlowest g (mem_lowFree.mp hg).1) (Nat.not_le.mpr (mem_lowFree.mp hg).2)
  exact ⟨hfree, by simp [hempty]⟩

/-! ## One step down -/

inductive TableStep (s : Machine) (r : ℕ) (q : List ℕ) (t i : ℕ) (flags : BitVec 64) : Option ℕ × Machine → Prop
  | present {z : ℕ} : tableAt s r (q ++ [i]) = some z → TableStep s r q t i flags (some z, s)
  | exhausted : tableAt s r (q ++ [i]) = none → (∀ g, ¬ Free s.pmm g) → TableStep s r q t i flags (none, s)
  | created {z : ℕ} : tableAt s r (q ++ [i]) = none → hasFlag (s.mem t i) ptePresent = false → Free s.pmm z →
      (∀ g, Free s.pmm g → z ≤ g) → z ≠ nullFrame →
      TableStep s r q t i flags (some z, linkTable s t i z flags)
  | lost : tableAt s r (q ++ [i]) = none → Free s.pmm nullFrame → (∀ g, Free s.pmm g → nullFrame ≤ g) →
      TableStep s r q t i flags
        (none, { s with pmm := takeFrame nullFrame s.pmm, mem := fill s.mem nullFrame 0 })

theorem getOrCreateTable_step (ht : tableAt s r q = some t) (hzero : ¬ Free s.pmm 0)
    (hplain : hasFlag (s.mem t i) ptePresent → hasFlag (s.mem t i) pteHuge = false)
    (hptr : ∀ z, tableAt s r (q ++ [i]) = some z → physToVirt (z * pageSize) ≠ 0) :
    TableStep s r q t i flags (getOrCreateTable t i flags s) := by
  have hnext : tableAt s r (q ++ [i]) = child (s.mem t i) := by
    rw [tableAt, walk_concat, show walk child s.mem r q = some t from ht]
    rfl
  rw [getOrCreateTable]
  by_cases hpresent : hasFlag (s.mem t i) ptePresent
  · have hchild := child_eq_some.mpr ⟨hpresent, hplain hpresent, rfl⟩
    have hpointer : tablePointer (pteAddr (s.mem t i)) = some (tableOf (s.mem t i)) := by
      rw [tablePointer, pteAddr_eq, if_neg (hptr _ (hnext.trans hchild)), frame_div]
    simp only [hpresent, hplain hpresent, if_true, Bool.false_eq_true, if_false, hpointer]
    exact .present (hnext.trans hchild)
  · have habsent : hasFlag (s.mem t i) ptePresent = false := by simpa using hpresent
    have hnone := hnext.trans (child_eq_none_of_not_present habsent)
    rw [if_neg hpresent, allocPageTable]
    rcases pmmAllocFrame_lowest s.pmm with ⟨heq, hfree⟩ | ⟨z, hz, hlowest, heq⟩
    · simp only [heq, if_true]
      exact .exhausted hnone hfree
    · simp only [heq, hz.address_ne_zero hzero, if_false, frame_div]
      by_cases hnull : z = nullFrame
      · subst hnull
        rw [tablePointer, if_pos ((physToVirt_eq_zero hz.1).mpr rfl)]
        exact .lost hnone hz hlowest
      · rw [tablePointer, if_neg ((physToVirt_eq_zero hz.1).not.mpr hnull), frame_div]
        exact .created hnone habsent hz hlowest hnull

def Supply (s : Machine) (r f : ℕ) : Prop := Free s.pmm f ∨ OwnTable s userIndex {r} f

structure Accounts (r : ℕ) (kernel : Set ℕ) (lost : Prop) (s s' : Machine) : Prop
    extends Extends userIndex {r} kernel s s' where
  supply : ∀ f, Supply s r f ↔ Supply s' r f ∨ (lost ∧ f = nullFrame)
  gone : lost → ¬ Supply s' r nullFrame
  counts : ∀ t, OwnTable s' userIndex {r} t → OwnTable s userIndex {r} t ∨ refs s' t = 1

namespace Accounts

variable {lost lost' : Prop}

theorem refl (h : Tables s userIndex {r} kernel) (hlost : ¬ lost) : Accounts r kernel lost s s :=
  ⟨.refl h, fun _ => by simp [hlost], fun hl => absurd hl hlost, fun _ ht => .inl ht⟩

theorem trans (h : Accounts r kernel lost s s') (h' : Accounts r kernel lost' s' s'') :
    Accounts r kernel (lost ∨ lost') s s'' := by
  refine ⟨h.toExtends.trans h'.toExtends, fun f => ?_, fun hl hs => ?_, fun t ht => ?_⟩
  · rw [h.supply, h'.supply]
    tauto
  · rcases hl with hl | hl
    · exact h.gone hl ((h'.supply _).mpr (.inl hs))
    · exact h'.gone hl hs
  · rcases h'.counts t ht with ht' | hone
    · refine (h.counts t ht').imp id fun hone => ?_
      have hcount := h'.refcounts t (h.tables.kept t ht'.isTable)
      exact (congrArg BitVec.toNat hcount).trans hone
    · exact .inr hone

theorem congr (h : Accounts r kernel lost s s') (hiff : lost ↔ lost') : Accounts r kernel lost' s s' :=
  propext hiff ▸ h

end Accounts

section Step

variable (h : Tables s userIndex {r} kernel)

include h

theorem accounts_linkTable (hq : TablePath (q ++ [i])) (hown : Owned userIndex (q ++ [i]))
    (ht : tableAt s r q = some t) (habsent : hasFlag (s.mem t i) ptePresent = false) (hz : Free s.pmm z)
    (hne : z ≠ nullFrame) (hflags : PointerFlags flags) :
    Accounts r kernel False s (linkTable s t i z flags) := by
  have hwalk {p : List ℕ} (hp : TablePath p) : tableAt (linkTable s t i z flags) r p =
      if r = r ∧ p = q ++ [i] then some z else tableAt s r p :=
    (h.links rfl hq hown ht habsent hz hflags).walk_eq rfl hp
  have hnew (f : ℕ) : OwnTable (linkTable s t i z flags) userIndex {r} f ↔
      OwnTable s userIndex {r} f ∨ f = z := by
    constructor
    · rintro ⟨_, rfl, p, hp, hpo, hpf⟩
      rw [hwalk hp] at hpf
      split at hpf
      · exact .inr (some.inj hpf).symm
      · exact .inl ⟨_, rfl, p, hp, hpo, hpf⟩
    · rintro (⟨_, rfl, p, hp, hpo, hpf⟩ | rfl)
      · exact ⟨_, rfl, p, hp, hpo, (h.extends_linkTable rfl hq hown ht habsent hz
          ((physToVirt_eq_zero hz.1).not.mpr hne) hflags).1.walk_mono _ rfl p f hp hpf⟩
      · exact ⟨_, rfl, _, hq, hown, by rw [hwalk hq, if_pos ⟨rfl, rfl⟩]⟩
  refine ⟨(h.extends_linkTable rfl hq hown ht habsent hz ((physToVirt_eq_zero hz.1).not.mpr hne) hflags).1,
    fun f => ?_, False.elim, fun f hf => ?_⟩
  · have hfree : Free (linkTable s t i z flags).pmm f ↔ Free s.pmm f ∧ f ≠ z := free_takeFrame
    rw [Supply, Supply, hnew, hfree]
    by_cases hfz : f = z
    · simp [hfz, hz]
    · simp [hfz]
  · refine ((hnew f).mp hf).imp id ?_
    rintro rfl
    simp [refs, linkTable, setEntry, takeFrame]

theorem accounts_lost (hfree : Free s.pmm nullFrame) : Accounts r kernel True s
    { s with pmm := takeFrame nullFrame s.pmm, mem := fill s.mem nullFrame 0 } := by
  have hext : Extends userIndex {r} kernel s
      { s with pmm := takeFrame nullFrame s.pmm, mem := fill s.mem nullFrame 0 } :=
    .of_frames h (fun f hf => not_free_takeFrame hf) (fun f hf => refcounts_takeFrame hfree hf)
      fun f hf => fill_of_ne (by rintro rfl; exact hf hfree)
  have hown (f : ℕ) : OwnTable { s with pmm := takeFrame nullFrame s.pmm, mem := fill s.mem nullFrame 0 }
      userIndex {r} f ↔ OwnTable s userIndex {r} f := by
    have hmem (t : ℕ) (ht : IsTable s {r} t) : fill s.mem nullFrame 0 t = s.mem t :=
      fill_of_ne (by rintro rfl; exact h.kept _ ht hfree)
    exact ownTable_congr fun _ hr _ hp => walk_eq_of_not_node hmem hr hp
  refine ⟨hext, fun f => ?_, fun _ hs => ?_, fun f hf => .inl ((hown f).mp hf)⟩
  · rw [Supply, Supply, hown, free_takeFrame]
    by_cases hf : f = nullFrame
    · simp [hf, hfree]
    · simp [hf]
  · rcases hs with hfree' | htable
    · exact not_free_takeFrame_self hfree'
    · exact h.kept _ ((hown _).mp htable).isTable hfree

end Step

/-! ## The way down to a page -/

def descend (flags : BitVec 64) : List ℕ → ℕ → Machine → Option ℕ × Machine
  | [], t, s => (some t, s)
  | i :: p, t, s =>
    match getOrCreateTable t i flags s with
    | (none, s) => (none, s)
    | (some t, s) => descend flags p t s

def missing (s : Machine) (r : ℕ) : List ℕ → List ℕ → ℕ
  | _, [] => 0
  | q, i :: p => if (tableAt s r (q ++ [i])).isNone then p.length + 1 else missing s r (q ++ [i]) p

theorem vmmMapPage_eq_descend {paddr : ℕ} (hsmall : hasFlag flags pteHuge = false) :
    vmmMapPage r v paddr flags s = match descend (tableFlags flags) (ptPath v) r s with
      | (none, s) => (-1, s)
      | (some pt, s) => (0, setEntry pt (ptIndex v) (smallEntry paddr flags) s) := by
  simp only [vmmMapPage, descend, ptPath, hsmall, Bool.false_eq_true, if_false]
  rcases getOrCreateTable r (pml4Index v) (tableFlags flags) s with ⟨_ | pdpt, s₁⟩
  · rfl
  · dsimp only
    rcases getOrCreateTable pdpt (pdptIndex v) (tableFlags flags) s₁ with ⟨_ | pd, s₂⟩
    · rfl
    · dsimp only
      rcases getOrCreateTable pd (pdIndex v) (tableFlags flags) s₂ with ⟨_ | pt, s₃⟩ <;> rfl

theorem missing_of_empty (ht : tableAt s r q = some t) (hempty : ∀ i, s.mem t i = 0) :
    missing s r q p = p.length := by
  cases p with
  | nil => rfl
  | cons i p =>
    have hnone : tableAt s r (q ++ [i]) = none := by
      rw [tableAt, walk_concat, show walk child s.mem r q = some t from ht]
      exact (congrArg child (hempty i)).trans child_zero
    rw [missing, hnone]
    rfl

def PlainPath (s : Machine) (r : ℕ) (p : List ℕ) : Prop :=
  ∀ q i, q ++ [i] <+: p → q.length = 2 → hasFlag (entryOf s r q i) ptePresent = true →
    hasFlag (entryOf s r q i) pteHuge = false

theorem Tables.entry_plain (h : Tables s userIndex {r} kernel) (hqi : TablePath (q ++ [i])) (ht : tableAt s r q = some t)
    (hplain : PlainPath s r (q ++ [i] ++ p)) (hpresent : hasFlag (s.mem t i) ptePresent) :
    hasFlag (s.mem t i) pteHuge = false := by
  have hentry : entryOf s r q i = s.mem t i := entryAt_of_walk ht
  rw [← hentry] at hpresent ⊢
  have hlen : q.length + 1 ≤ 3 := by simpa only [length_append, length_singleton] using hqi.length_le
  rcases Nat.lt_or_eq_of_le (Nat.le_of_succ_le_succ hlen) with hlen | hlen
  · exact h.upper r rfl q i hqi (by omega) hpresent
  · exact hplain q i (prefix_append _ _) hlen hpresent

theorem PlainPath.extends (h : PlainPath s r p) (hp : TablePath p) (hext : Extends userIndex {r} kernel s s') :
    PlainPath s' r p := by
  intro q i hq hlen hpresent
  have hqp := hp.initial ((prefix_append q [i]).trans hq)
  rcases hext.directory r rfl q i hqp hlen with heq | ⟨-, hnew⟩
  · rw [heq] at hpresent ⊢
    exact h q i hq hlen hpresent
  · obtain ⟨z, hz⟩ := ne_none_iff_exists'.mp hnew
    exact (child_eq_some.mp hz).2.1

def Addressable (s : Machine) (r : ℕ) : Prop :=
  ∀ t, OwnTable s userIndex {r} t → t < maxFrames ∧ physToVirt (t * pageSize) ≠ 0

theorem Addressable.extends (h : Addressable s r) (hext : Extends userIndex {r} kernel s s') : Addressable s' r := by
  intro t ht
  constructor
  · rcases hext.nodes t ht with hold | hfree
    · exact (h t hold).1
    · exact hfree.1
  · rcases hext.pointers t ht with hold | hptr
    · exact (h t hold).2
    · exact hptr

def missingTables (s : Machine) (r v : ℕ) : ℕ := missing s r [] (ptPath v)

theorem owned_ptPath_of_lt (hv : v < userPages * pageSize) : Owned userIndex (ptPath v) := by
  have hn := page_lt hv
  have := owned_ptPath (p := []) hn
  rwa [append_nil, (ptPath_page v).1] at this

theorem UserSpaces.plainPath (h : UserSpaces s {r} kernel) (hv : v < userPages * pageSize) :
    PlainPath s r (ptPath v) := by
  have hn := page_lt hv
  intro q i hq hlen
  have heq : q ++ [i] = pdPath v ++ [pdIndex v] := hq.eq_of_length (by simp [hlen, ptPath])
  obtain ⟨rfl, hi⟩ := append_inj' heq rfl
  obtain rfl := head_eq_of_cons_eq hi
  have hdir : directory s r (v / pageSize) = entryOf s r (pdPath v) (pdIndex v) := by
    rw [directory]
    congr 1
    · simp only [pdPath, pml4Index, pdptIndex, pageSize, List.cons.injEq, and_true]
      omega
    · simp only [pdIndex, pageSize]
      omega
  rw [← hdir]
  exact h.small r rfl _ hn

end

/-! ## Requests for frames -/

section

def Supplies : List Bool → Pmm → Prop
  | [], _ => True
  | table :: rest, m =>
    (pmmAllocFrame m).1 ≠ 0 ∧ (table = true → (pmmAllocFrame m).1 ≠ nullFrame * pageSize) ∧
      Supplies rest (pmmAllocFrame m).2

instance Supplies.decidable : ∀ (requests : List Bool) (m : Pmm), Decidable (Supplies requests m)
  | [], _ => inferInstanceAs (Decidable True)
  | table :: rest, m =>
    have := Supplies.decidable rest (pmmAllocFrame m).2
    inferInstanceAs (Decidable (_ ∧ (table = true → _) ∧ Supplies rest (pmmAllocFrame m).2))

def lacking (there : List ℕ → Bool) (v : ℕ) : ℕ :=
  (List.range 3).countP fun k => !there ((ptPath v).take (k + 1))

def requests : (List ℕ → Bool) → List ℕ → List Bool
  | _, [] => []
  | there, v :: vs =>
    false :: (List.replicate (lacking there v) true ++ requests (fun p => there p || p.isPrefixOf (ptPath v)) vs)

def hasTable (s : Machine) (r : ℕ) (p : List ℕ) : Bool := (tableAt s r p).isSome

variable {s s' : Machine} {kernel : Set ℕ} {r t v : ℕ} {p q : List ℕ} {flags : BitVec 64} {rest : List Bool}

theorem requests_congr_on {there there' : List ℕ → Bool} {vs : List ℕ} (h : ∀ v ∈ vs, ∀ k, TablePath ((ptPath v).take (k + 1)) →
    there ((ptPath v).take (k + 1)) = there' ((ptPath v).take (k + 1))) : requests there vs = requests there' vs := by
  induction vs generalizing there there' with
  | nil => rfl
  | cons v vs ih =>
    have hlacking : lacking there v = lacking there' v := by
      refine countP_congr fun k _ => ?_
      rw [h v mem_cons_self k ((tablePath_ptPath v).initial ( take_prefix _ _))]
    simp only [requests, hlacking]
    refine congrArg _ (congrArg _ (ih fun w hw k hp => ?_))
    rw [h w (mem_cons_of_mem _ hw) k hp]

theorem requests_congr {there there' : List ℕ → Bool} {vs : List ℕ} (h : ∀ p, TablePath p → there p = there' p) :
    requests there vs = requests there' vs :=
  requests_congr_on fun _ _ _ => h _

theorem hasTable_concat {i : ℕ} (h : hasTable s r p = false) : hasTable s r (p ++ [i]) = false := by
  have hnone : tableAt s r p = none := by simpa [hasTable] using h
  rw [hasTable, tableAt, walk_concat, show walk child s.mem r p = none from hnone]
  rfl

theorem missingTables_eq_lacking (s : Machine) (r v : ℕ) : missingTables s r v = lacking (hasTable s r) v := by
  have h₂ := hasTable_concat (s := s) (r := r) (p := [pml4Index v]) (i := pdptIndex v)
  have h₃ := hasTable_concat (s := s) (r := r) (p := [pml4Index v, pdptIndex v]) (i := pdIndex v)
  have hnone (p : List ℕ) : (tableAt s r p).isNone = !hasTable s r p := by rw [hasTable, not_isSome]
  simp only [cons_append, nil_append] at h₂ h₃
  simp only [missingTables, missing, lacking, ptPath, hnone, nil_append, cons_append, length_cons,
    length_nil, show List.range 3 = [0, 1, 2] from rfl, countP_cons, countP_nil, take_zero,
    take_succ_cons, take_nil]
  by_cases hpdpt : hasTable s r [pml4Index v] = true <;>
    by_cases hpd : hasTable s r [pml4Index v, pdptIndex v] = true <;>
    by_cases hpt : hasTable s r [pml4Index v, pdptIndex v, pdIndex v] = true <;> simp_all

theorem Supplies.head {table : Bool} {m : Pmm} (h : Supplies (table :: rest) m) :
    ∃ z, Free m z ∧ (∀ g, Free m g → z ≤ g) ∧ pmmAllocFrame m = (z * pageSize, takeFrame z m) ∧
      (table → z ≠ nullFrame) ∧ Supplies rest (takeFrame z m) := by
  obtain ⟨hne, htable, hrest⟩ := h
  rcases pmmAllocFrame_lowest m with ⟨heq, -⟩ | ⟨z, hz, hlowest, heq⟩
  · rw [heq] at hne
    exact absurd rfl hne
  · rw [heq] at htable hrest
    refine ⟨z, hz, hlowest, heq, fun ht hnull => htable ht ?_, hrest⟩
    rw [hnull]

theorem supplies_cons {table : Bool} {m : Pmm} : Supplies (table :: rest) m ↔ ∃ z, Free m z ∧ (∀ g, Free m g → z ≤ g) ∧ z ≠ 0 ∧
    (table → z ≠ nullFrame) ∧ Supplies rest (takeFrame z m) := by
  constructor
  · intro h
    obtain ⟨z, hz, hlowest, halloc, hnull, hrest⟩ := h.head
    refine ⟨z, hz, hlowest, ?_, hnull, hrest⟩
    rintro rfl
    exact h.1 (by rw [halloc, Nat.zero_mul])
  · rintro ⟨z, hz, hlowest, hne, hnull, hrest⟩
    rcases pmmAllocFrame_lowest m with ⟨-, hnone⟩ | ⟨z', hz', hlowest', halloc⟩
    · exact absurd hz (hnone z)
    · obtain rfl : z = z' := le_antisymm (hlowest z' hz') (hlowest' z hz)
      rw [Supplies, halloc]
      refine ⟨Nat.mul_ne_zero hne (by decide), fun ht heq => hnull ht ?_, hrest⟩
      exact Nat.eq_of_mul_eq_mul_right (by decide) heq

theorem Supplies.left {reqs : List Bool} {m : Pmm} (h : Supplies (reqs ++ rest) m) : Supplies reqs m := by
  induction reqs generalizing m with
  | nil => trivial
  | cons table reqs ih => exact ⟨h.1, h.2.1, ih h.2.2⟩

theorem supplies_cons_lowest {table : Bool} {m : Pmm} {z : ℕ} (hz : Free m z) (hlowest : ∀ g, Free m g → z ≤ g)
    (hzero : ¬ Free m 0) (hnull : table → z ≠ nullFrame) :
    Supplies (table :: rest) m ↔ Supplies rest (takeFrame z m) := by
  rw [supplies_cons]
  constructor
  · rintro ⟨z', hz', hlowest', -, -, hrest⟩
    obtain rfl : z = z' := le_antisymm (hlowest z' hz') (hlowest' z hz)
    exact hrest
  · intro hrest
    exact ⟨z, hz, hlowest, fun h => hzero (h ▸ hz), hnull, hrest⟩

theorem hasTable_linkTable {i z : ℕ} (h : Tables s userIndex {r} kernel) (hq : TablePath (q ++ [i]))
    (hown : Owned userIndex (q ++ [i])) (ht : tableAt s r q = some t)
    (habsent : hasFlag (s.mem t i) ptePresent = false) (hz : Free s.pmm z) (hflags : PointerFlags flags)
    (hp : TablePath p) : hasTable (linkTable s t i z flags) r p = (hasTable s r p || p == q ++ [i]) := by
  have hwalk : tableAt (linkTable s t i z flags) r p = if r = r ∧ p = q ++ [i] then some z else tableAt s r p :=
    (h.links rfl hq hown ht habsent hz hflags).walk_eq rfl hp
  rw [hasTable, hwalk, hasTable]
  by_cases heq : p = q ++ [i]
  · simp [heq]
  · simp [heq]

theorem hasTable_of_prefix {p' : List ℕ} (ht : tableAt s r q = some t) (hp : p' <+: q) : hasTable s r p' := by
  obtain ⟨rest, rfl⟩ := hp
  rw [tableAt, walk_append] at ht
  rw [hasTable, tableAt]
  cases hwalk : walk child s.mem r p' with
  | none => simp [hwalk] at ht
  | some _ => rfl

structure Descended (kernel : Set ℕ) (r : ℕ) (p : List ℕ) (k : ℕ) (s : Machine) (res : Option ℕ × Machine) : Prop where
  accounts : Accounts r kernel (Strands s.pmm k) s res.2
  table : ∀ z, res.1 = some z → tableAt res.2 r p = some z
  served : ∀ rest, Supplies (List.replicate k true ++ rest) s.pmm ↔ res.1 ≠ none ∧ Supplies rest res.2.pmm
  tables : res.1 ≠ none → ∀ q, TablePath q → hasTable res.2 r q = (hasTable s r q || q.isPrefixOf p)

theorem descend_spec (h : Tables s userIndex {r} kernel) (hp : TablePath (q ++ p))
    (hown : Owned userIndex (q ++ p)) (ht : tableAt s r q = some t) (hflags : PointerFlags flags)
    (hplain : PlainPath s r (q ++ p)) (hzero : ¬ Free s.pmm 0) (hptr : Addressable s r) :
    Descended kernel r (q ++ p) (missing s r q p) s (descend flags p t s) := by
  -- The induction is on the rest of the path; a new table is empty, so all tables below it are missing.
  induction p generalizing q t s with
  | nil =>
    rw [append_nil]
    refine ⟨.refl h fun hs => Nat.not_lt_zero _ hs.2, fun z hz => some.inj hz ▸ ht,
      fun rest => (and_iff_right (some_ne_none t)).symm, fun _ p' hp' => ?_⟩
    cases hpre : p'.isPrefixOf q with
    | false => rw [Bool.or_false]; rfl
    | true => rw [Bool.or_true]; exact hasTable_of_prefix ht ( isPrefixOf_iff_prefix.mp hpre)
  | cons i p ih =>
    have hsplit : q ++ i :: p = (q ++ [i]) ++ p := by simp
    rw [hsplit] at hp hown hplain ⊢
    have hqi : TablePath (q ++ [i]) := hp.initial (prefix_append _ _)
    have howni : Owned userIndex (q ++ [i]) := by
      cases q <;> simpa [Owned] using hown
    have hstep : TableStep s r q t i flags (getOrCreateTable t i flags s) :=
      getOrCreateTable_step ht hzero (h.entry_plain hqi ht hplain) fun z hz => (hptr z ⟨r, rfl, _, hqi, howni, hz⟩).2
    rw [descend, missing]
    rcases heq : getOrCreateTable t i flags s with ⟨res, s₁⟩
    rw [heq] at hstep
    cases hstep with
    | present hz =>
      rw [hz]
      exact ih h hp hown hz hplain hzero hptr
    | exhausted hnone hfull =>
      rw [hnone]
      refine ⟨.refl h fun hs => hfull _ hs.1, fun z hz => absurd hz.symm (some_ne_none z),
        fun rest => iff_of_false (fun hserve => ?_) fun hbad => hbad.1 rfl, fun hbad => absurd rfl hbad⟩
      obtain ⟨z, hz, -⟩ := supplies_cons.mp hserve
      exact hfull z hz
    | @created z hnone habsent hz hlowest hne =>
      rw [hnone]
      have hlink := accounts_linkTable h hqi howni ht habsent hz hne hflags
      have htable : tableAt (linkTable s t i z flags) r (q ++ [i]) = some z :=
        (h.extends_linkTable rfl hqi howni ht habsent hz ((physToVirt_eq_zero hz.1).not.mpr hne) hflags).2
      have hempty (j : ℕ) : (linkTable s t i z flags).mem z j = 0 := by
        have hzt : z ≠ t := (h.links rfl hqi howni ht habsent hz hflags).ne
        exact (store_of_ne fun heq => hzt heq.1).trans fill_self
      have hrest := ih hlink.tables hp hown htable (hplain.extends hp hlink.toExtends)
        (hlink.kept 0 hzero) (hptr.extends hlink.toExtends)
      rw [missing_of_empty htable hempty] at hrest
      refine ⟨(hlink.trans hrest.accounts).congr ?_, hrest.table, fun rest => ?_, fun hreach p' hp' => ?_⟩
      · rw [false_or]
        exact strands_takeFrame hz hlowest hne
      · exact (supplies_cons_lowest hz hlowest hzero fun _ => hne).trans (hrest.served rest)
      · rw [hrest.tables hreach p' hp', hasTable_linkTable h hqi howni ht habsent hz hflags hp', Bool.or_assoc]
        by_cases hself : p' = q ++ [i]
        · have hpre : p'.isPrefixOf (q ++ [i] ++ p) :=
            isPrefixOf_iff_prefix.mpr (hself ▸ prefix_append _ _)
          rw [hpre, Bool.or_true]
        · rw [beq_false_of_ne hself, Bool.false_or]
    | lost hnone hfree hlowest =>
      rw [hnone]
      refine ⟨(accounts_lost h hfree).congr (iff_of_true trivial (strands_of_lowest hfree hlowest)),
        fun z hz => absurd hz.symm (some_ne_none z), fun rest => iff_of_false (fun hserve => ?_) fun hbad => hbad.1 rfl,
        fun hbad => absurd rfl hbad⟩
      obtain ⟨z, hz, hlowest', -, hnull, -⟩ := supplies_cons.mp hserve
      exact hnull rfl (le_antisymm (hlowest' _ hfree) (hlowest z hz))

theorem Supplies.not_strands {k : ℕ} {m : Pmm} (h : Supplies (List.replicate k true ++ rest) m) : ¬ Strands m k := by
  induction k generalizing m with
  | zero => exact fun hs => Nat.not_lt_zero _ hs.2
  | succ k ih =>
    obtain ⟨z, hz, hlowest, -, hnull, hrest⟩ := h.head
    rw [← strands_takeFrame hz hlowest (hnull rfl)]
    exact ih hrest

inductive MapRequests (kernel : Set ℕ) (r v paddr : ℕ) (flags : BitVec 64) (s e : Machine) : ℤ × Machine → Prop
  | failed : ¬ Supplies (List.replicate (missingTables s r v) true) s.pmm →
      Accounts r kernel (Strands s.pmm (missingTables s r v)) s e → MapRequests kernel r v paddr flags s e (-1, e)
  | mapped {pt : ℕ} : tableAt e r (ptPath v) = some pt → Accounts r kernel False s e →
      (∀ rest, Supplies rest e.pmm ↔ Supplies (List.replicate (missingTables s r v) true ++ rest) s.pmm) →
      (∀ p, TablePath p → hasTable e r p = (hasTable s r p || p.isPrefixOf (ptPath v))) →
      MapRequests kernel r v paddr flags s e (0, setEntry pt (ptIndex v) (smallEntry paddr flags) e)

theorem vmmMapPage_requests (paddr : ℕ) (h : UserSpaces s {r} kernel) (hv : v < userPages * pageSize)
    (hsmall : hasFlag flags pteHuge = false) (hzero : ¬ Free s.pmm 0) (hptr : Addressable s r) :
    MapRequests kernel r v paddr flags s (descend (tableFlags flags) (ptPath v) r s).2
      (vmmMapPage r v paddr flags s) := by
  have hspec : Descended kernel r (ptPath v) (missingTables s r v) s (descend (tableFlags flags) (ptPath v) r s) :=
    descend_spec (q := []) h.tables (tablePath_ptPath v) (owned_ptPath_of_lt hv) rfl (pointerFlags_tableFlags flags)
      (h.plainPath hv) hzero hptr
  rw [vmmMapPage_eq_descend hsmall]
  rcases hres : descend (tableFlags flags) (ptPath v) r s with ⟨_ | pt, e⟩
  · rw [hres] at hspec
    refine .failed (fun hserve => ?_) hspec.accounts
    rw [← append_nil (List.replicate _ _)] at hserve
    exact ((hspec.served []).mp hserve).1 rfl
  · rw [hres] at hspec
    have hreach : some pt ≠ none := some_ne_none pt
    have hall := (hspec.served []).mpr ⟨hreach, trivial⟩
    refine .mapped (hspec.table pt rfl) (hspec.accounts.congr (iff_false_intro hall.not_strands)) (fun rest => ?_)
      (hspec.tables hreach)
    rw [hspec.served, and_iff_right hreach]

theorem MapRequests.accounts {paddr : ℕ} {res : ℤ × Machine} (h : MapRequests kernel r v paddr flags s s' res) :
    Accounts r kernel (Strands s.pmm (missingTables s r v)) s s' ∧ (res = (-1, s') ∨
      ∃ pt, tableAt s' r (ptPath v) = some pt ∧ res = (0, setEntry pt (ptIndex v) (smallEntry paddr flags) s')) := by
  cases h with
  | failed _ hacc => exact ⟨hacc, .inl rfl⟩
  | mapped ht hacc hserved _ =>
    have hall := (hserved []).mp trivial
    exact ⟨hacc.congr (iff_of_false id hall.not_strands), .inr ⟨_, ht, rfl⟩⟩

end

end AetherOs.Paging
