import AetherOs.Paging.Accounts
import AetherOs.Paging.CowClone

/-! # A clone that fails -/

namespace AetherOs.Paging

open Base.Radix Function List Finset

/-! ## The tables that a clone needs -/

section

variable {s : Machine} {m m' : Pmm} {own : ℕ → Prop} {roots kernel : Set ℕ} {r t f k n : ℕ} {p q : List ℕ}
variable {flags : BitVec 64} {rest : List Bool}

/-! ## Requests -/

theorem Supplies.congr (h : Supplies rest m) (hbits : ∀ f, pmmTestBit m' f = pmmTestBit m f) : Supplies rest m' := by
  induction rest generalizing m m' with
  | nil => trivial
  | cons table rest ih =>
    have hfree (f : ℕ) : Free m' f ↔ Free m f := by rw [Free, Free, hbits]
    obtain ⟨z, hz, hlowest, hne, hnull, hrest⟩ := supplies_cons.mp h
    refine supplies_cons.mpr ⟨z, (hfree z).mpr hz, fun g hg => hlowest g ((hfree g).mp hg), hne, hnull, ih hrest ?_⟩
    intro f
    rw [pmmTestBit_takeFrame, pmmTestBit_takeFrame, hbits]

theorem Supplies.mono {k' : ℕ} (h : Supplies (List.replicate k' true) m) (hle : k ≤ k') :
    Supplies (List.replicate k true) m := by
  rw [← Nat.add_sub_cancel' hle, replicate_add] at h
  exact h.left

theorem supplies_of_le_card {reqs : List Bool} (hzero : ¬ Free m 0) (h : reqs.length ≤ (lowFree m).card) :
    Supplies reqs m := by
  induction reqs generalizing m with
  | nil => trivial
  | cons table reqs ih =>
    rw [length_cons] at h
    obtain ⟨g, hg⟩ := card_pos.mp (Nat.zero_lt_of_lt h)
    obtain ⟨hgfree, hglow⟩ := mem_lowFree.mp hg
    rcases pmmAllocFrame_lowest m with ⟨-, hnone⟩ | ⟨z, hz, hlowest, -⟩
    · exact absurd hgfree (hnone g)
    · have hlow : z < nullFrame := Nat.lt_of_le_of_lt (hlowest g hgfree) hglow
      refine supplies_cons.mpr ⟨z, hz, hlowest, (hz.ne hzero).symm, fun _ => hlow.ne, ih (not_free_takeFrame hzero) ?_⟩
      rw [lowFree_takeFrame, card_erase_of_mem (mem_lowFree.mpr ⟨hz, hlow⟩)]
      omega

theorem supplies_of_not_strands (hzero : ¬ Free m 0) (hnull : Free m nullFrame) (h : ¬ Strands m k) :
    Supplies (List.replicate k true) m := by
  refine supplies_of_le_card hzero ?_
  rw [length_replicate]
  by_contra hlt
  exact h ⟨hnull, by omega⟩

theorem Supplies.le_card {free : Finset ℕ} (h : Supplies (List.replicate k true) m) (hfree : ∀ f, Free m f → f ∈ free) :
    k ≤ free.card := by
  induction k generalizing m free with
  | zero => exact Nat.zero_le _
  | succ k ih =>
    obtain ⟨z, hz, -, -, -, hrest⟩ := supplies_cons.mp h
    have hmem := hfree z hz
    have hle : k ≤ (free.erase z).card := ih hrest fun f hf =>
      mem_erase.mpr ⟨(free_takeFrame.mp hf).2, hfree f (free_takeFrame.mp hf).1⟩
    rw [card_erase_of_mem hmem] at hle
    have := card_pos.mpr ⟨z, hmem⟩
    omega

/-! ## The way down -/

theorem descend_extends (h : Tables s own roots kernel) (hr : r ∈ roots) (hp : TablePath (q ++ p))
    (hown : Owned own (q ++ p)) (ht : tableAt s r q = some t) (hflags : PointerFlags flags) :
    Extends own roots kernel s (descend flags p t s).2 := by
  induction p generalizing q t s with
  | nil => exact .refl h
  | cons i p ih =>
    have hsplit : q ++ i :: p = (q ++ [i]) ++ p := by simp
    rw [hsplit] at hp hown
    have howni : Owned own (q ++ [i]) := by
      cases q <;> simpa [Owned] using hown
    have hstep := h.getOrCreateTable hr (hp.initial (prefix_append _ _)) howni ht hflags
    rw [descend]
    rcases heq : getOrCreateTable t i flags s with ⟨_ | z, s₁⟩
    · rw [heq] at hstep
      exact hstep.1
    · rw [heq] at hstep
      exact hstep.1.trans (ih hstep.1.tables hp hown (hstep.2 z rfl))

theorem getOrCreateTable_pmm (t i : ℕ) (flags : BitVec 64) (s : Machine) :
    (getOrCreateTable t i flags s).2.pmm = s.pmm ∨ (getOrCreateTable t i flags s).2.pmm = (pmmAllocFrame s.pmm).2 := by
  rw [getOrCreateTable]
  split_ifs
  · exact .inl rfl
  · exact .inl rfl
  · rw [allocPageTable]
    split_ifs
    · exact .inr rfl
    · cases tablePointer (pmmAllocFrame s.pmm).1 <;> exact .inr rfl

theorem refcounts_descend (hfree : Free (descend flags p t s).2.pmm f) :
    Free s.pmm f ∧ (descend flags p t s).2.pmm.refcounts f = s.pmm.refcounts f := by
  induction p generalizing t s with
  | nil => exact ⟨hfree, rfl⟩
  | cons i p ih =>
    have hone {m : Pmm} (hm : m = s.pmm ∨ m = (pmmAllocFrame s.pmm).2) (hf : Free m f) :
        Free s.pmm f ∧ m.refcounts f = s.pmm.refcounts f := by
      rcases hm with rfl | rfl
      · exact ⟨hf, rfl⟩
      · rcases pmmAllocFrame_cases s.pmm with hnone | ⟨z, hz, hsome⟩
        · rw [hnone] at hf ⊢
          exact ⟨hf, rfl⟩
        · rw [hsome] at hf ⊢
          obtain ⟨hold, hne⟩ := free_takeFrame.mp hf
          exact ⟨hold, update_of_ne hne _ _⟩
    have hstep := getOrCreateTable_pmm t i flags s
    rw [descend] at hfree ⊢
    rcases heq : getOrCreateTable t i flags s with ⟨_ | z, s₁⟩
    · rw [heq] at hstep hfree
      exact hone hstep hfree
    · rw [heq] at hstep hfree
      obtain ⟨hf, hcount⟩ := ih hfree
      obtain ⟨hold, hcount'⟩ := hone hstep hf
      exact ⟨hold, hcount.trans hcount'⟩

/-! ## The requests of a clone -/

def covered (present : ℕ → Bool) (n : ℕ) (p : List ℕ) : Bool :=
  p.isEmpty || (List.range n).any fun i => present i && p.isPrefixOf (ptPath (i * pageSize))

def tablesFor (present : ℕ → Bool) : ℕ → ℕ
  | 0 => 1
  | n + 1 => tablesFor present n + if present n then lacking (covered present n) (n * pageSize) else 0

theorem covered_succ (present : ℕ → Bool) (n : ℕ) (p : List ℕ) :
    covered present (n + 1) p = (covered present n p || (present n && p.isPrefixOf (ptPath (n * pageSize)))) := by
  rw [covered, covered, range_succ, any_append, Bool.or_assoc]
  simp

theorem tablesFor_mono (present : ℕ → Bool) : Monotone (tablesFor present) :=
  monotone_nat_of_le_succ fun n => by rw [tablesFor]; omega

end

/-! ## A clone that fails -/

section

def isMapped (s : Machine) (r n : ℕ) : Bool := hasFlag (leaf s r n) ptePresent

def shares (s : Machine) (r n f : ℕ) : ℕ := ((Finset.range n).filter fun i => frameOf s r i = some f).card

def sharedRefs (s : Machine) (r n f : ℕ) : ℕ := if f < maxFrames then min 255 (refs s f + shares s r n f) else refs s f

def demoted (s : Machine) (r n m : ℕ) : BitVec 64 :=
  if m < n ∧ isMapped s r m = true then cowEntry (leaf s r m) else leaf s r m

variable {s t e : Machine} {kernel : Set ℕ} {src dst n f : ℕ}

theorem shares_succ : shares s src (n + 1) f = shares s src n f + if frameOf s src n = some f then 1 else 0 := by
  rw [shares, shares, range_add_one, filter_insert]
  split
  · rw [card_insert_of_notMem (by simp)]
  · rfl

theorem sharedRefs_succ : sharedRefs s src (n + 1) f =
    if frameOf s src n = some f ∧ f < maxFrames then min 255 (sharedRefs s src n f + 1) else sharedRefs s src n f := by
  simp only [sharedRefs, shares_succ]
  by_cases hlt : f < maxFrames <;> by_cases hpage : frameOf s src n = some f <;> simp [hlt, hpage]
  omega

/-! ## The clone so far -/

structure Forking (s : Machine) (kernel : Set ℕ) (src dst n : ℕ) (t : Machine) : Prop where
  spaces : UserSpaces t (insert dst {src}) kernel
  pages : ∀ i < userPages, leaf t src i = demoted s src n i
  child : ∀ i, frameOf t dst i = if i < n then frameOf s src i else none
  pointers : Addressable t dst
  counts : ∀ f, OwnTable t userIndex {dst} f → refs t f = 1
  supply : ∀ f, Free s.pmm f ↔ Supply t dst f
  refs_free : ∀ f, Free t.pmm f → refs t f = refs s f
  refs_used : ∀ f, ¬ Free s.pmm f → refs t f = sharedRefs s src n f
  tables : ∀ p, TablePath p → Owned userIndex p → hasTable t dst p = covered (isMapped s src) n p
  left : ∀ k, Supplies (List.replicate k true) t.pmm ↔
    Supplies (List.replicate (tablesFor (isMapped s src) n + k) true) s.pmm

theorem samePage_demoted (s : Machine) (r n i : ℕ) : SamePage (leaf s r i) (demoted s r n i) := by
  rw [demoted]
  split
  · exact samePage_cowEntry _
  · exact .refl _

namespace Forking

theorem start (h : UserSpaces s {src} kernel) (hheld : Held s {src}) (hdst : Free s.pmm dst)
    (hlowest : ∀ g, Free s.pmm g → dst ≤ g) (hzero : ¬ Free s.pmm 0) (hnull : dst ≠ nullFrame) :
    Forking s kernel src dst 0 (newSpace s dst) := by
  obtain ⟨hspaces, hleaf, hempty⟩ := h.create hheld hdst
  have hnone := hempty.frameOf_eq_none
  have hown (f : ℕ) : OwnTable (newSpace s dst) userIndex {dst} f ↔ f = dst := by
    constructor
    · rintro ⟨_, rfl, p, _, hown, ht⟩
      exact (hempty.tableAt_user hown ht).2
    · rintro rfl
      exact ⟨_, rfl, [], .nil, by simp [Owned], rfl⟩
  have hfree (f : ℕ) : Free (newSpace s dst).pmm f ↔ Free s.pmm f ∧ f ≠ dst := free_takeFrame
  refine ⟨hspaces, fun i _ => ?_, fun i => ?_, fun f hf => ?_, fun f hf => ?_, fun f => ?_, fun f hf => ?_,
    fun f hf => ?_, fun p hp hpo => ?_, fun k => ?_⟩
  · rw [hleaf src rfl, demoted, if_neg (by omega)]
  · rw [hnone, if_neg (by omega)]
  · rw [(hown f).mp hf]
    exact ⟨hdst.1, (physToVirt_eq_zero hdst.1).not.mpr hnull⟩
  · rw [(hown f).mp hf]
    simp [refs, newSpace, takeFrame]
  · rw [Supply, hown, hfree]
    by_cases hfd : f = dst
    · simp [hfd, hdst]
    · simp [hfd]
  · exact congrArg BitVec.toNat (update_of_ne ((hfree f).mp hf).2 _ _)
  · have hsame : refs (newSpace s dst) f = refs s f := congrArg BitVec.toNat (refcounts_takeFrame hdst hf)
    rw [hsame, sharedRefs]
    have := (s.pmm.refcounts f).isLt
    simp only [shares, Finset.range_zero, filter_empty, card_empty, refs] at *
    split <;> omega
  · cases p with
    | nil => rfl
    | cons i p =>
      have : tableAt (newSpace s dst) dst (i :: p) = none := by
        cases ht : tableAt (newSpace s dst) dst (i :: p) with
        | none => rfl
        | some z => cases (hempty.tableAt_user hpo ht).1
      rw [hasTable, this]
      rfl
  · rw [tablesFor, Nat.add_comm, replicate_succ]
    exact (supplies_cons_lowest hdst hlowest hzero fun _ => hnull).symm

variable (h : Forking s kernel src dst n t) (hheld : Held s {src})

include h

theorem used (hf : ¬ Free s.pmm f) : ¬ Free t.pmm f := fun hfree => hf ((h.supply f).mpr (.inl hfree))

theorem frameOf_src (i : ℕ) : frameOf t src i = frameOf s src i :=
  frameOf_congr fun hi => by rw [h.pages i hi]; exact samePage_demoted _ _ _ _

theorem supplied : Supplies (List.replicate (tablesFor (isMapped s src) n) true) s.pmm := (h.left 0).mp trivial

theorem skip (habsent : isMapped s src n = false) : Forking s kernel src dst (n + 1) t := by
  have hnone : frameOf s src n = none := frameOf_eq_none fun _ => habsent
  refine { h with pages := fun i hi => ?_, child := fun i => ?_, refs_used := fun f hf => ?_,
                  tables := fun p hp hpo => ?_, left := fun k => ?_ }
  · rw [h.pages i hi, demoted, demoted]
    by_cases hin : i = n
    · subst hin
      simp [habsent]
    · simp only [show i < n + 1 ↔ i < n by omega]
  · rw [h.child]
    by_cases hin : i = n
    · subst hin
      simp [hnone]
    · simp only [show i < n + 1 ↔ i < n by omega]
  · rw [h.refs_used f hf, sharedRefs_succ, hnone]
    simp
  · rw [h.tables p hp hpo, covered_succ, habsent, Bool.false_and, Bool.or_false]
  · rw [h.left, tablesFor, habsent]
    simp

theorem missing_eq (hn : n < userPages) :
    missingTables t dst (n * pageSize) = lacking (covered (isMapped s src) n) (n * pageSize) := by
  rw [missingTables_eq_lacking]
  refine countP_congr fun k _ => ?_
  rw [h.tables _ ((tablePath_ptPath _).initial ( take_prefix _ _))]
  have hown : Owned userIndex (ptPath (n * pageSize)) := by simpa using owned_ptPath (p := []) hn
  simpa [Owned, ptPath] using hown

include hheld

theorem frames_held : Held t (insert dst {src}) := by
  have hused {i d : ℕ} (hd : frameOf s src i = some d) : ¬ Free t.pmm d := by
    obtain ⟨hi, hpresent, rfl⟩ := frameOf_eq_some.mp hd
    exact h.used (hheld src rfl i hi hpresent)
  rintro r hr i hi hpresent
  have hd : frameOf t r i = some (tableOf (leaf t r i)) := frameOf_eq_some.mpr ⟨hi, hpresent, rfl⟩
  rcases hr with rfl | rfl
  · rw [h.child] at hd
    split at hd
    · exact hused hd
    · cases hd
  · rw [h.frameOf_src] at hd
    exact hused hd

theorem share {pt pt' : ℕ} (hn : n < userPages) (hpresent : hasFlag (leaf t src n) ptePresent)
    (ht : tableAt t src (ptPath (n * pageSize)) = some pt)
    (hext : Extends userIndex (insert dst {src}) kernel t e) (hacc : Accounts dst kernel False t e)
    (hcounts : ∀ f, Free e.pmm f → e.pmm.refcounts f = t.pmm.refcounts f)
    (ht' : tableAt e dst (ptPath (n * pageSize)) = some pt')
    (hserve : ∀ rest, Supplies rest e.pmm ↔
      Supplies (List.replicate (missingTables t dst (n * pageSize)) true ++ rest) t.pmm)
    (htables : ∀ p, TablePath p → hasTable e dst p = (hasTable t dst p || p.isPrefixOf (ptPath (n * pageSize)))) :
    let c := cowEntry (leaf t src n)
    let t' := setEntry pt (ptIndex (n * pageSize)) c (setEntry pt' (ptIndex (n * pageSize)) c e)
    Forking s kernel src dst (n + 1) { t' with pmm := pmmRefFrame (tableOf (leaf t src n) * pageSize) t'.pmm } ∧
      TablesKept src t { t' with pmm := pmmRefFrame (tableOf (leaf t src n) * pageSize) t'.pmm } := by
  intro c t'
  have hsrc : src ∈ insert dst ({src} : Set ℕ) := .inr rfl
  have hdst : dst ∈ insert dst ({src} : Set ℕ) := .inl rfl
  have hheld' := h.frames_held hheld
  have hshared := pageShared_of_stores h.spaces hheld' hsrc hdst hn hpresent ht hext ht'
  have hleaf : leaf t src n = leaf s src n := by rw [h.pages n hn, demoted, if_neg (by omega)]
  have hmapped : isMapped s src n := by rw [isMapped, ← hleaf, hpresent]
  have hd : frameOf t src n = some (tableOf (leaf t src n)) := frameOf_eq_some.mpr ⟨hn, hpresent, rfl⟩
  have hds : frameOf s src n = some (tableOf (leaf t src n)) := (h.frameOf_src n).symm.trans hd
  have hused : ¬ Free s.pmm (tableOf (leaf t src n)) :=
    hleaf ▸ hheld src rfl n hn (hleaf ▸ hpresent)
  have hnot := not_isTable_of_extends hext (h.used hused) (h.spaces.data src hsrc n hn hpresent)
  generalize tableOf (leaf t src n) = d at *
  have hwalk {p : List ℕ} (hp : TablePath p) : tableAt t' dst p = tableAt e dst p :=
    h.spaces.tableAt_stores hheld' hsrc hdst hn hpresent ht hext ht' hdst hp
  have hown (f : ℕ) : OwnTable { t' with pmm := pmmRefFrame (d * pageSize) t'.pmm } userIndex {dst} f ↔
      OwnTable e userIndex {dst} f := by
    refine ownTable_congr ?_
    rintro _ rfl p hp
    exact hwalk hp
  have hbits (f : ℕ) : pmmTestBit (pmmRefFrame (d * pageSize) e.pmm) f = pmmTestBit e.pmm f := pmmTestBit_pmmRefFrame
  have hfree (f : ℕ) : Free { t' with pmm := pmmRefFrame (d * pageSize) t'.pmm }.pmm f ↔ Free e.pmm f :=
    and_congr_right fun _ => by rw [← hbits]; rfl
  have hrefs (f : ℕ) : refs { t' with pmm := pmmRefFrame (d * pageSize) t'.pmm } f =
      if f = d ∧ d < maxFrames then min 255 (refs e f + 1) else refs e f := refcounts_pmmRefFrame_min
  have hold (f : ℕ) (hf : ¬ Free t.pmm f) : refs e f = refs t f := congrArg BitVec.toNat (hext.refcounts f hf)
  refine ⟨⟨hshared.spaces, fun i hi => ?_, fun i => ?_, fun f hf => ?_, fun f hf => ?_, fun f => ?_, fun f hf => ?_,
    fun f hf => ?_, fun p hp hpo => ?_, fun k => ?_⟩, hshared.walk_mono src hsrc⟩
  · rw [hshared.leaf_eq src hsrc i hi]
    by_cases hin : i = n
    · subst hin
      rw [if_pos ⟨.inl rfl, rfl⟩, demoted, if_pos ⟨by omega, hmapped⟩, hleaf]
    · rw [if_neg fun hbad => hin hbad.2, h.pages i hi, demoted, demoted]
      simp only [show i < n + 1 ↔ i < n by omega]
  · rw [hshared.frameOf_eq hdst hd hdst, h.child]
    by_cases hin : i = n
    · subst hin
      rw [if_pos ⟨rfl, rfl⟩, if_pos (by omega), hds]
    · simp only [hin, and_false, if_false, show i < n + 1 ↔ i < n by omega]
  · exact h.pointers.extends hacc.toExtends f ((hown f).mp hf)
  · rw [hrefs, if_neg]
    · rcases hacc.counts f ((hown f).mp hf) with hold' | hone
      · rw [hold f ((h.spaces.subset (by simp)).tables.kept f hold'.isTable)]
        exact h.counts f hold'
      · exact hone
    · rintro ⟨rfl, -⟩
      exact hnot (((hown f).mp hf).isTable.mono (Set.singleton_subset_iff.mpr hdst))
  · rw [h.supply, hacc.supply, Supply, Supply, hown, hfree]
    simp
  · have hfe := (hfree f).mp hf
    rw [hrefs, if_neg, ← h.refs_free f]
    · exact congrArg BitVec.toNat (hcounts f hfe)
    · by_contra hft
      exact hext.kept f hft hfe
    · rintro ⟨rfl, -⟩
      exact hext.kept _ (h.used hused) hfe
  · rw [hrefs, hold f (h.used hf), h.refs_used f hf, sharedRefs_succ, hds]
    by_cases hfd : f = d
    · subst hfd
      simp
    · simp [hfd, Ne.symm hfd]
  · rw [covered_succ, hmapped, Bool.true_and, ← h.tables p hp hpo, ← htables p hp, hasTable, hasTable]
    exact congrArg _ (hwalk hp)
  · rw [tablesFor, if_pos hmapped, ← h.missing_eq hn, Nat.add_assoc, ← h.left, replicate_add, ← hserve]
    exact ⟨fun hk => hk.congr fun f => (hbits f).symm, fun hk => hk.congr hbits⟩

end Forking

/-! ## The clone stops -/

structure HalfBuilt (s : Machine) (kernel : Set ℕ) (src dst n : ℕ) (e : Machine) : Prop where
  spaces : UserSpaces e (insert dst {src}) kernel
  pages : ∀ i < userPages, leaf e src i = demoted s src n i
  child : ∀ i, frameOf e dst i = if i < n then frameOf s src i else none
  counts : ∀ f, OwnTable e userIndex {dst} f → refs e f = 1
  supply : ∀ f, Free s.pmm f ↔ Supply e dst f ∨ (Free s.pmm nullFrame ∧ f = nullFrame)
  gone : Free s.pmm nullFrame → ¬ Supply e dst nullFrame
  refs_free : ∀ f, Free e.pmm f → refs e f = refs s f
  refs_used : ∀ f, ¬ Free s.pmm f → refs e f = sharedRefs s src n f
  reached : Supplies (List.replicate (tablesFor (isMapped s src) n) true) s.pmm
  stopped : ¬ Supplies (List.replicate (tablesFor (isMapped s src) (n + 1)) true) s.pmm

theorem Forking.halfBuilt (h : Forking s kernel src dst n t) (hheld : Held s {src}) (hzero : ¬ Free s.pmm 0)
    (hn : n < userPages) (hmapped : isMapped s src n)
    (hext : Extends userIndex (insert dst {src}) kernel t e)
    (hcounts : ∀ f, Free e.pmm f → e.pmm.refcounts f = t.pmm.refcounts f)
    (hfail : ¬ Supplies (List.replicate (missingTables t dst (n * pageSize)) true) t.pmm)
    (hacc : Accounts dst kernel (Strands t.pmm (missingTables t dst (n * pageSize))) t e) :
    HalfBuilt s kernel src dst n e := by
  have hdst : dst ∈ insert dst ({src} : Set ℕ) := .inl rfl
  have hold (f : ℕ) (hf : ¬ Free t.pmm f) : refs e f = refs t f := congrArg BitVec.toNat (hext.refcounts f hf)
  -- The walk ran into the frame at two gigabytes, or there was none to run into.
  have hlost : Strands t.pmm (missingTables t dst (n * pageSize)) ↔ Free s.pmm nullFrame := by
    constructor
    · exact fun hs => (h.supply _).mpr (.inl hs.1)
    · intro hnull
      have hfree : Free t.pmm nullFrame := ((h.supply _).mp hnull).resolve_right fun ht =>
        (h.pointers _ ht).2 ((physToVirt_eq_zero hnull.1).mpr rfl)
      by_contra hs
      exact hfail (supplies_of_not_strands (h.used hzero) hfree hs)
  replace hacc := hacc.congr hlost
  refine ⟨h.spaces.extends (h.frames_held hheld) hext, fun i hi => ?_, fun i => ?_, fun f hf => ?_, fun f => ?_,
    hacc.gone, fun f hf => ?_, fun f hf => ?_, ?_, ?_⟩
  · rw [leaf_of_extends hext (.inr rfl), h.pages i hi]
  · rw [← h.child]
    exact frameOf_of_leaf fun _ => leaf_of_extends hext hdst
  · rcases hacc.counts f hf with hold' | hone
    · rw [hold f ((h.spaces.subset (Set.singleton_subset_iff.mpr hdst)).tables.kept f hold'.isTable)]
      exact h.counts f hold'
    · exact hone
  · rw [h.supply, hacc.supply]
  · rw [← h.refs_free f]
    · exact congrArg BitVec.toNat (hcounts f hf)
    · by_contra hft
      exact hext.kept f hft hf
  · rw [hold f (h.used hf), h.refs_used f hf]
  · exact h.supplied
  · rwa [tablesFor, if_pos hmapped, ← h.missing_eq hn, ← h.left]

theorem forking_rounds (hheld : Held s {src}) (hzero : ¬ Free s.pmm 0) :
    CloneRounds (insert dst {src}) kernel src dst (Forking s kernel src dst) fun e =>
      ∃ n < userPages, isMapped s src n ∧ HalfBuilt s kernel src dst n e := by
  have hsrc : src ∈ insert dst ({src} : Set ℕ) := .inr rfl
  refine ⟨fun n t h => h.spaces, fun n t h hn habsent => ?_, fun {i j k l pt t} hi hj hk hl ht h hpresent => ?_⟩
  · have hmapped : isMapped s src n = false := by
      rw [isMapped, ← (samePage_demoted s src n n).present, ← h.pages n hn, habsent]
    exact h.skip hmapped
  · have hn := pageNum_lt hi hj hk hl
    obtain ⟨hpath, -⟩ := index_pageNum hi hj hk hl
    rw [clonePage_of_present hi hj hk hl ht rfl hpresent]
    generalize pageNum i j k l = n at *
    rw [← hpath] at ht
    have hmapped : isMapped s src n := by
      rw [isMapped, ← (samePage_demoted s src n n).present, ← h.pages n hn, hpresent]
    have hsmall := hasFlag_cowFlags_huge (h.spaces.plain src hsrc n hn hpresent)
    have hv : n * pageSize < userPages * pageSize := Nat.mul_lt_mul_of_pos_right hn (by decide)
    have hreq := vmmMapPage_requests (tableOf (leaf t src n) * pageSize)
      (h.spaces.subset (Set.singleton_subset_iff.mpr (.inl rfl))) hv hsmall (h.used hzero) h.pointers
    have hext := descend_extends (q := []) h.spaces.tables (.inl rfl) (tablePath_ptPath _) (owned_ptPath_of_lt hv) rfl
      (pointerFlags_tableFlags (cowFlags (leaf t src n)))
    have hcounts (f : ℕ) (hf : Free (descend (tableFlags (cowFlags (leaf t src n))) (ptPath (n * pageSize)) dst t).2.pmm f) :=
      (refcounts_descend hf).2
    dsimp only
    generalize vmmMapPage dst (n * pageSize) (tableOf (leaf t src n) * pageSize) (cowFlags (leaf t src n)) t = res at hreq ⊢
    cases hreq with
    | failed hfail hacc => exact ⟨n, hn, hmapped, h.halfBuilt hheld hzero hn hmapped hext hcounts hfail hacc⟩
    | mapped hpt hacc hserve htables =>
      rw [← pteAddr_eq, smallEntry_cowFlags hpresent, pteAddr_eq]
      exact h.share hheld hn hpresent ht hext hacc hcounts hpt hserve htables

end

end AetherOs.Paging
