import AetherOs.Paging.Teardown
import AetherOs.Userland.KernelHalf

/-! # Pages and the frames they take -/

namespace AetherOs.Userland

open Base.Radix Paging List

structure Accounted (kernel : Set ℕ) (r : ℕ) (taken : Set ℕ) (s : Machine) : Prop where
  spaces : UserSpaces s {r} kernel
  pointers : Addressable s r
  zero : ¬ Free s.pmm 0
  held : ∀ n d, frameOf s r n = some d → d ≠ 0 ∧ ¬ Free s.pmm d
  apart : ∀ n n' d, frameOf s r n = some d → frameOf s r n' = some d → n = n'
  sole : ∀ f ∈ taken, f < maxFrames ∧ ¬ Free s.pmm f ∧ refs s f = 1
  kept : ∀ f ∈ taken, OwnTable s userIndex {r} f ∨ ∃ n, frameOf s r n = some f

def takenAfter (taken : Set ℕ) (s s' : Machine) : Set ℕ := {f | ¬ Free s'.pmm f ∧ (f ∈ taken ∨ Free s.pmm f)}

variable {kernel taken : Set ℕ} {r v z n d f : ℕ} {s s' s'' : Machine} {rest : List Bool} {flags : BitVec 64}

theorem takenAfter_trans (h : (∀ f, Free s'.pmm f → Free s.pmm f) ∨ ∀ f, Free s'.pmm f → Free s''.pmm f) :
    takenAfter (takenAfter taken s s') s' s'' = takenAfter taken s s'' := by
  ext f
  simp only [takenAfter, Set.mem_ofPred_eq]
  rcases h with h | h <;> have := h f <;> grind

theorem accounted_create (hkernel : KernelHalf s kernel) (hkept : ∀ t ∈ kernel, ¬ Free s.pmm t)
    (hcreate : vmmCreateAddressSpace s = (some r, s')) : Accounted kernel r ∅ s' := by
  have hbuilding := building_create hkernel hkept hcreate
  have hnone {n d : ℕ} (hd : frameOf s' r n = some d) : False := hbuilding.mapped n d hd
  exact ⟨hbuilding.spaces, hbuilding.pointers, hbuilding.zero, fun n d hd => (hnone hd).elim,
    fun n n' d hd => (hnone hd).elim, fun f hf => hf.elim, fun f hf => hf.elim⟩

/-! ## One page is mapped -/

structure Fetched (s : Machine) (z : ℕ) (s₁ : Machine) : Prop where
  free : Free s.pmm z
  pmm : s₁.pmm = takeFrame z s.pmm
  mem : ∀ f, f ≠ z → s₁.mem f = s.mem f
  kernel : s₁.kernelPml4 = s.kernelPml4

theorem Fetched.used (hf : Fetched s z s') (hused : ¬ Free s.pmm f) : ¬ Free s'.pmm f := by
  rw [hf.pmm]
  exact not_free_takeFrame hused

structure MapsPage (kernel : Set ℕ) (r v z : ℕ) (s s' : Machine) : Prop where
  fresh : Free s.pmm z
  spaces : UserSpaces s' {r} kernel
  pointers : Addressable s' r
  pages : ∀ n, frameOf s' r n = if n = v / pageSize then some z else frameOf s r n
  tables : ∀ f, OwnTable s userIndex {r} f → OwnTable s' userIndex {r} f
  nodes : ∀ f, OwnTable s' userIndex {r} f → OwnTable s userIndex {r} f ∨ Free s.pmm f
  taken : ∀ f, Free s.pmm f → ¬ Free s'.pmm f → f = z ∨ OwnTable s' userIndex {r} f
  free : ∀ f, Free s'.pmm f → Free s.pmm f ∧ f ≠ z
  refs_taken : ∀ f, Free s.pmm f → ¬ Free s'.pmm f → refs s' f = 1
  refs_kept : ∀ f, ¬ Free s.pmm f → refs s' f = refs s f

namespace Accounted

variable (h : Accounted kernel r taken s)

include h

theorem mem_fetched (hf : Fetched s z s') (ht : IsTable s {r} f ∨ f ∈ kernel) : s'.mem f = s.mem f := by
  refine hf.mem f ?_
  rintro rfl
  exact ht.elim (fun ht => h.spaces.tables.kept f ht hf.free) fun ht => h.spaces.tables.shared_kept f ht hf.free

theorem fetched (hf : Fetched s z s') :
    UserSpaces s' {r} kernel ∧ (∀ p, TablePath p → tableAt s' r p = tableAt s r p) ∧
      ∀ n, frameOf s' r n = frameOf s r n := by
  have hmem (f : ℕ) (ht : IsTable s {r} f) : s'.mem f = s.mem f := h.mem_fetched hf (.inl ht)
  refine ⟨h.spaces.of_frames hmem (fun f hk => h.mem_fetched hf (.inr hk)) hf.kernel fun f ht => ?_,
    fun p hp => tableAt_of_frames hmem rfl hp, fun n => frameOf_of_leaf fun _ => leaf_of_frames hmem rfl⟩
  exact hf.used (h.spaces.tables.used ht)

theorem held_fetched (hf : Fetched s z s') : Held s' {r} := by
  rintro _ rfl n hn hpresent
  have hd := frameOf_eq_some.mpr ⟨hn, hpresent, rfl⟩
  rw [(h.fetched hf).2.2] at hd
  exact hf.used (h.held n _ hd).2

theorem ownTable_fetched (hf : Fetched s z s') : OwnTable s' userIndex {r} f ↔ OwnTable s userIndex {r} f := by
  refine ownTable_congr ?_
  rintro _ rfl p hp
  exact (h.fetched hf).2.1 p hp

theorem mapsPage_setEntry {s₁ : Machine} {pt : ℕ} (hf : Fetched s z s₁) (hv : v < userPages * pageSize)
    (hflags : SmallFlags flags)
    (hacc : Accounts r kernel False s₁ s') (ht : tableAt s' r (ptPath v) = some pt) :
    MapsPage kernel r v z s (setEntry pt (ptIndex v) (smallEntry (z * pageSize) flags) s') := by
  have hn := page_lt hv
  obtain ⟨hpath, hidx⟩ := ptPath_page v
  have hspaces := (h.fetched hf).1
  have hext := hacc.toExtends
  have hspaces' := hspaces.extends (h.held_fetched hf) hext
  rw [← hpath] at ht
  rw [← hidx]
  have hown (f : ℕ) : OwnTable (setEntry pt (ptIndex (v / pageSize * pageSize))
      (smallEntry (z * pageSize) flags) s') userIndex {r} f ↔ OwnTable s' userIndex {r} f :=
    hspaces'.ownTable_setLeaf rfl hn ht
  have hfree {f : ℕ} : Free s₁.pmm f ↔ Free s.pmm f ∧ f ≠ z := by rw [hf.pmm, free_takeFrame]
  have hnot : ¬ OwnTable s₁ userIndex {r} z := fun hz =>
    h.spaces.tables.kept z ((h.ownTable_fetched hf).mp hz).isTable hf.free
  have htaken (f : ℕ) (hold : Free s.pmm f) (hnew : ¬ Free s'.pmm f) :
      f = z ∨ (OwnTable s' userIndex {r} f ∧ Free s₁.pmm f) := by
    by_cases hz : f = z
    · exact .inl hz
    · have hf₁ := hfree.mpr ⟨hold, hz⟩
      have hsupply := (hacc.supply f).mp (.inl hf₁)
      exact .inr ⟨(hsupply.resolve_right fun hl => hl.1).resolve_left hnew, hf₁⟩
  have hz₁ : ¬ Free s₁.pmm z := fun hz => (hfree.mp hz).2 rfl
  have hrefz : refs s' z = 1 := by
    refine (congrArg BitVec.toNat (hext.refcounts z hz₁)).trans ?_
    rw [hf.pmm]
    simp [takeFrame]
  refine ⟨hf.free, ?_, fun t ht' => ?_, fun m => ?_, fun f hold => ?_, fun f hnew => ?_, fun f hold hnew => ?_,
    fun f hnew => ?_, fun f hold hnew => ?_, fun f hold => ?_⟩
  · refine hspaces'.setLeaf rfl hn ht fun _ => ⟨(hasFlag_smallEntry_huge _ _).trans hflags.small, ?_⟩
    rw [(smallEntry_frame hf.free.1 hflags.only).2]
    have hzk : z ∉ kernel := fun hk => h.spaces.tables.shared_kept z hk hf.free
    refine ⟨not_isTable_of_extends hext hz₁ ⟨fun ht => ?_, hzk⟩, hzk⟩
    exact (hspaces.tables.own_or_shared ht).elim hnot hzk
  · have hptr : Addressable s₁ r := fun t ht => h.pointers t ((h.ownTable_fetched hf).mp ht)
    exact hptr.extends hext t ((hown t).mp ht')
  · rw [hspaces.frameOf_mapped (h.held_fetched hf) hext rfl hn ht hf.free.1 hflags.only rfl, (h.fetched hf).2.2]
    simp
  · obtain ⟨_, rfl, p, hp, hpo, hpf⟩ := (h.ownTable_fetched hf).mpr hold
    exact (hown f).mpr ⟨_, rfl, p, hp, hpo, hext.walk_mono _ rfl p f hp hpf⟩
  · exact (hext.nodes f ((hown f).mp hnew)).imp (h.ownTable_fetched hf).mp fun hfree' => (hfree.mp hfree').1
  · exact (htaken f hold hnew).imp id fun ht => (hown f).mpr ht.1
  · exact hfree.mp (by_contra fun hused => hext.kept f hused hnew)
  · rcases htaken f hold hnew with rfl | ⟨ht, hf₁⟩
    · exact hrefz
    · exact (hacc.counts f ht).resolve_left fun hold => hspaces.tables.kept f hold.isTable hf₁
  · have hused : ¬ Free s₁.pmm f := hf.used hold
    refine (congrArg BitVec.toNat (hext.refcounts f hused)).trans ?_
    rw [hf.pmm]
    exact congrArg BitVec.toNat (refcounts_takeFrame hf.free hold)

theorem mapsPage {s₁ : Machine} (hf : Fetched s z s₁) (hv : v < userPages * pageSize)
    (hflags : SmallFlags flags)
    (hserve : Supplies (List.replicate (lacking (hasTable s r) v) true ++ rest) s₁.pmm) :
    ∃ s', vmmMapPage r v (z * pageSize) flags s₁ = (0, s') ∧ MapsPage kernel r v z s s' ∧
      Supplies rest s'.pmm ∧ ∀ p, TablePath p → hasTable s' r p = (hasTable s r p || p.isPrefixOf (ptPath v)) := by
  obtain ⟨hspaces, hwalk, -⟩ := h.fetched hf
  have htable (p : List ℕ) (hp : TablePath p) : hasTable s₁ r p = hasTable s r p := by
    rw [hasTable, hwalk p hp, hasTable]
  have hlacking : missingTables s₁ r v = lacking (hasTable s r) v := by
    rw [missingTables_eq_lacking]
    refine countP_congr fun k _ => ?_
    rw [htable _ ((tablePath_ptPath v).initial ( take_prefix _ _))]
  have hptr : Addressable s₁ r := fun t ht => h.pointers t ((h.ownTable_fetched hf).mp ht)
  have hreq := vmmMapPage_requests (z * pageSize) hspaces hv hflags.small (hf.used h.zero) hptr
  rw [← hlacking] at hserve
  generalize vmmMapPage r v (z * pageSize) flags s₁ = res at hreq
  cases hreq with
  | failed hbad _ => exact absurd hserve.left hbad
  | mapped ht hacc hleft htables =>
    refine ⟨_, rfl, h.mapsPage_setEntry hf hv hflags hacc ht, (hleft rest).mpr hserve, fun p hp => ?_⟩
    have hspaces₂ := hspaces.extends (h.held_fetched hf) hacc.toExtends
    obtain ⟨hpath, hidx⟩ := ptPath_page v
    rw [← htable p hp, ← htables p hp, hasTable, ← hidx,
      hspaces₂.tableAt_setLeaf rfl ((Nat.div_lt_iff_lt_mul (by decide)).mpr hv) (hpath.symm ▸ ht) rfl hp, hasTable]

theorem mapped (hm : MapsPage kernel r v z s s') (hover : ∀ d, frameOf s r (v / pageSize) = some d → d ∉ taken) :
    Accounted kernel r (takenAfter taken s s') s' := by
  have hused {f : ℕ} (hf : ¬ Free s.pmm f) : ¬ Free s'.pmm f := fun hf' => hf (hm.free f hf').1
  have hz {n : ℕ} (hn : frameOf s r n = some z) : False := (h.held n z hn).2 hm.fresh
  refine ⟨hm.spaces, hm.pointers, hused h.zero, fun n d hd => ?_, fun n n' d hd hd' => ?_, fun f hf => ?_, fun f hf => ?_⟩
  · rw [hm.pages] at hd
    split at hd
    · obtain rfl := Option.some.inj hd
      exact ⟨fun hzero => h.zero (hzero ▸ hm.fresh), fun hfree => (hm.free _ hfree).2 rfl⟩
    · exact ⟨(h.held n d hd).1, hused (h.held n d hd).2⟩
  · rw [hm.pages] at hd hd'
    split at hd <;> split at hd'
    · rename_i hn hn'
      exact hn.trans hn'.symm
    · exact (hz (Option.some.inj hd ▸ hd')).elim
    · exact (hz (Option.some.inj hd' ▸ hd)).elim
    · exact h.apart n n' d hd hd'
  · obtain ⟨hfree, hold | hnew⟩ := hf
    · obtain ⟨hlt, hold, hone⟩ := h.sole f hold
      exact ⟨hlt, hfree, (hm.refs_kept f hold).trans hone⟩
    · exact ⟨hnew.1, hfree, hm.refs_taken f hnew hfree⟩
  · obtain ⟨hfree, hold | hnew⟩ := hf
    · refine (h.kept f hold).imp (hm.tables f) fun ⟨n, hn⟩ => ⟨n, ?_⟩
      rw [hm.pages, if_neg, hn]
      rintro rfl
      exact hover f hn hold
    · refine (hm.taken f hnew hfree).symm.imp id ?_
      rintro rfl
      exact ⟨v / pageSize, by rw [hm.pages, if_pos rfl]⟩

theorem replaced (hm : MapsPage kernel r v z s s') (hd : frameOf s r (v / pageSize) = some d) :
    ¬ Free s'.pmm d ∧ ¬ OwnTable s' userIndex {r} d ∧ ∀ n, frameOf s' r n ≠ some d := by
  have hused : ¬ Free s.pmm d := (h.held _ d hd).2
  obtain ⟨hlt, hpresent, rfl⟩ := frameOf_eq_some.mp hd
  refine ⟨fun hfree => hused (hm.free _ hfree).1, fun ht => ?_, fun n hn => ?_⟩
  · exact (hm.nodes _ ht).elim (fun ht => (h.spaces.data r rfl _ hlt hpresent).1 ht.isTable) hused
  · rw [hm.pages] at hn
    split_ifs at hn with hne
    · exact hused (Option.some.inj hn ▸ hm.fresh)
    · exact hne (h.apart n _ _ hn hd)

end Accounted

/-! ## Pages are mapped one after the other -/

structure MapRound (r : ℕ) (round : ℕ → Machine → Except Machine Machine) : Prop where
  stops : ∀ v s, pmmAllocFrame s.pmm = (0, s.pmm) → round v s = .error s
  maps : ∀ v s z, Free s.pmm z → z ≠ 0 → pmmAllocFrame s.pmm = (z * pageSize, takeFrame z s.pmm) →
    ∃ s₁, Fetched s z s₁ ∧ round v s = .ok (vmmMapPage r v (z * pageSize) userFlags s₁).2

theorem pmmAllocFrame_eq_of_zero {m : Pmm} (hzero : ¬ Free m 0) (h : (pmmAllocFrame m).1 = 0) :
    pmmAllocFrame m = (0, m) := by
  rcases pmmAllocFrame_cases m with hnone | ⟨z, hz, hsome⟩
  · exact hnone
  · rw [hsome] at h
    obtain rfl : z = 0 := (Nat.mul_eq_zero.mp h).resolve_right (by decide)
    exact absurd hz hzero

theorem mapRound_brkPage (r : ℕ) : MapRound r (brkPage r) := by
  refine ⟨fun v s h => ?_, fun v s z hz hne h => ?_⟩
  · rw [brkPage, h]
    rfl
  · refine ⟨{ s with pmm := takeFrame z s.pmm }, ⟨hz, rfl, fun _ _ => rfl, rfl⟩, ?_⟩
    rw [brkPage, h, if_neg (Nat.mul_ne_zero hne (by decide))]

theorem mapRound_mmapPage (r : ℕ) : MapRound r (mmapPage r) := by
  refine ⟨fun v s h => ?_, fun v s z hz hne h => ?_⟩
  · rw [mmapPage, h]
    rfl
  · refine ⟨clearFrame (z * pageSize) { s with pmm := takeFrame z s.pmm }, ⟨hz, rfl, fun f hf => ?_, rfl⟩, ?_⟩
    · rw [clearFrame, frame_div]
      exact fill_of_ne hf
    · rw [mmapPage, h, if_neg (Nat.mul_ne_zero hne (by decide))]

theorem Accounted.takenAfter_self (h : Accounted kernel r taken s) : takenAfter taken s s = taken := by
  ext f
  have := h.sole f
  simp only [takenAfter, Set.mem_ofPred_eq]
  grind

theorem Accounted.mapRound {round : ℕ → Machine → Except Machine Machine} (hround : MapRound r round) {vs : List ℕ}
    (h : Accounted kernel r taken s) (hv : v < userPages * pageSize)
    (hserve : Supplies (requests (hasTable s r) (v :: vs)) s.pmm) :
    ∃ z s', round v s = .ok s' ∧ MapsPage kernel r v z s s' ∧ Supplies (requests (hasTable s' r) vs) s'.pmm := by
  obtain ⟨z, hz, -, halloc, -, hleft⟩ := hserve.head
  obtain ⟨s₁, hf, hok⟩ := hround.maps v s z hz (hz.ne h.zero).symm halloc
  obtain ⟨s', hmap, hm, hserve', htables⟩ := h.mapsPage hf hv smallFlags_userFlags (hf.pmm ▸ hleft)
  rw [hmap] at hok
  exact ⟨z, s', hok, hm, by rwa [requests_congr htables]⟩

theorem Accounted.mapPages {round : ℕ → Machine → Except Machine Machine} (hround : MapRound r round) {vs : List ℕ}
    (h : Accounted kernel r taken s) (huser : ∀ v ∈ vs, v < userPages * pageSize)
    (hnodup : (vs.map (· / pageSize)).Nodup)
    (hover : ∀ v ∈ vs, ∀ d, frameOf s r (v / pageSize) = some d → d ∉ taken)
    (hserve : Supplies (requests (hasTable s r) vs) s.pmm) :
    ∃ s', vs.foldlM (fun s v => round v s) s = .ok s' ∧ Accounted kernel r (takenAfter taken s s') s' ∧
      ∀ f, Free s'.pmm f → Free s.pmm f := by
  induction vs generalizing s taken with
  | nil => exact ⟨s, rfl, h.takenAfter_self.symm ▸ h, fun _ hf => hf⟩
  | cons v vs ih =>
    obtain ⟨hv, hrest⟩ := nodup_cons.mp hnodup
    obtain ⟨z, s₂, hok, hm, hserve'⟩ := h.mapRound hround (huser v mem_cons_self) hserve
    have hstep := h.mapped hm (hover v mem_cons_self)
    obtain ⟨s', hrun, hacc, hfree⟩ := ih hstep (fun u hu => huser u (mem_cons_of_mem _ hu)) hrest (by
      rintro u hu d hd ⟨-, hold⟩
      have hne : u / pageSize ≠ v / pageSize := fun heq => hv (mem_map.mpr ⟨u, hu, heq⟩)
      rw [hm.pages, if_neg hne] at hd
      exact hold.elim (hover u (mem_cons_of_mem _ hu) d hd) (h.held _ d hd).2) hserve'
    have hmono (f : ℕ) (hf : Free s₂.pmm f) : Free s.pmm f := (hm.free f hf).1
    refine ⟨s', ?_, takenAfter_trans (.inl hmono) ▸ hacc, fun f hf => hmono f (hfree f hf)⟩
    rw [foldlM_cons, hok]
    exact hrun

/-! ## Pages are unmapped -/

theorem Accounted.dropPage {pt : ℕ} (h : Accounted kernel r taken s) (hn : n < userPages)
    (ht : tableAt s r (ptPath (n * pageSize)) = some pt) (hd : frameOf s r n = some d) :
    Accounted kernel r (takenAfter taken s (clearEntry s pt (ptIndex (n * pageSize)) d))
      (clearEntry s pt (ptIndex (n * pageSize)) d) := by
  set s' := clearEntry s pt (ptIndex (n * pageSize)) d
  obtain ⟨-, hpresent, htable⟩ := frameOf_eq_some.mp hd
  obtain ⟨hnot, hkernel⟩ := h.spaces.data r rfl n hn hpresent
  rw [htable] at hnot hkernel
  have hpages (i : ℕ) : frameOf s' r i =
      if i = n then none else frameOf s r i := by
    have := h.spaces.frameOf_setLeaf (e := 0) (m := pmmFreeFrame (d * pageSize) s.pmm) (i := i) rfl hn ht rfl
    simp only [hasFlag_zero, Bool.false_eq_true, if_false, true_and] at this
    exact this
  have hfree (f : ℕ) : Free s'.pmm f ↔
      Free s.pmm f ∨ (f = d ∧ d < maxFrames ∧ refs s d ≤ 1) := free_pmmFreeFrame
  have hown (t : ℕ) : OwnTable s' userIndex {r} t ↔
      OwnTable s userIndex {r} t := h.spaces.ownTable_setLeaf rfl hn ht
  have hother {f : ℕ} (hne : f ≠ d) (hused : ¬ Free s.pmm f) :
      ¬ Free s'.pmm f := not_free_pmmFreeFrame hne hused
  have hpage {i f : ℕ} (hi : frameOf s' r i = some f) :
      frameOf s r i = some f ∧ f ≠ d := by
    rw [hpages] at hi
    split at hi
    · cases hi
    · rename_i hne
      refine ⟨hi, ?_⟩
      rintro rfl
      exact hne (h.apart i n f hi hd)
  have hkeep {f : ℕ} (hf : f ∈ takenAfter taken s s') : f ∈ taken ∧ f ≠ d := by
    obtain ⟨hused, hold | hnew⟩ := hf
    · refine ⟨hold, ?_⟩
      rintro rfl
      obtain ⟨hlt, -, hone⟩ := h.sole f hold
      exact hused ((hfree f).mpr (.inr ⟨rfl, hlt, hone.le⟩))
    · exact absurd ((hfree f).mpr (.inl hnew)) hused
  refine ⟨?_, fun t ht' => h.pointers t ((hown t).mp ht'), ?_, fun i f hi => ?_, fun i i' f hi hi' => ?_, fun f hf => ?_,
    fun f hf => ?_⟩
  · have hstored := h.spaces.setLeaf (e := 0) rfl hn ht fun hbad => by
      rw [hasFlag_zero] at hbad
      cases hbad
    refine hstored.of_frames (fun _ _ => rfl) (fun _ _ => rfl) rfl fun f hf => ?_
    rw [h.spaces.isTable_setLeaf rfl hn ht] at hf
    refine not_free_pmmFreeFrame ?_ (h.spaces.tables.used hf)
    rintro rfl
    exact hf.elim hnot hkernel
  · exact hother (h.held n d hd).1.symm h.zero
  · obtain ⟨hold, hne⟩ := hpage hi
    exact ⟨(h.held i f hold).1, hother hne (h.held i f hold).2⟩
  · exact h.apart i i' f (hpage hi).1 (hpage hi').1
  · obtain ⟨hold, hne⟩ := hkeep hf
    obtain ⟨hlt, hused, hone⟩ := h.sole f hold
    exact ⟨hlt, hother hne hused, (congrArg BitVec.toNat (refcounts_pmmFreeFrame hne)).trans hone⟩
  · obtain ⟨hold, hne⟩ := hkeep hf
    refine (h.kept f hold).imp (hown f).mpr fun ⟨i, hi⟩ => ⟨i, ?_⟩
    rw [hpages, if_neg, hi]
    rintro rfl
    exact hne (Option.some.inj (hi.symm.trans hd))

theorem Accounted.munmapPage (h : Accounted kernel r taken s) (hv : v < userPages * pageSize) :
    Accounted kernel r (takenAfter taken s (munmapPage r v s)) (munmapPage r v s) ∧
      ∀ f, Free s.pmm f → Free (munmapPage r v s).pmm f := by
  rw [Userland.munmapPage]
  split_ifs with hphys
  · exact ⟨h.takenAfter_self.symm ▸ h, fun _ hf => hf⟩
  · have hindex := userIndex_of_lt hv
    obtain ⟨-, -, hpath, hidx⟩ := path_userPage v
    obtain ⟨d, hd, heq⟩ := h.spaces.vmmGetPhysical_user rfl hindex hphys
    obtain ⟨pt, ht, hunmap⟩ := h.spaces.vmmUnmapPage_eq (fun t ht => (h.pointers t ht).2) rfl hindex hd
    rw [heq, hunmap]
    dsimp only
    rw [pmmFreeFrame_offset (Nat.mod_lt _ (by decide)), ← hidx]
    exact ⟨h.dropPage (userPage_lt hindex) (hpath.symm ▸ ht) hd, fun f hf => free_pmmFreeFrame.mpr (.inl hf)⟩

end AetherOs.Userland
