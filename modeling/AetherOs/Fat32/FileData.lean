import AetherOs.Base.Chain
import AetherOs.Fat32.Volume
import Mathlib.Data.List.GetD

/-! # Writing along a chain -/

namespace AetherOs.Fat32

open Function List

/-! ## Chains of clusters -/

section

open Base

namespace Volume

def link (v : Volume) (x : ℕ) : ℕ := if v.InRange (v.fat x) then v.fat x else 0

structure FileChain (v : Volume) (c : ℕ) (l : List ℕ) : Prop where
  walk : Chain v.link 0 c l
  range : ∀ x ∈ l, v.InRange x
  ended : ∀ x ∈ l.getLast?, fatEocMin ≤ v.fat x

def Free (v : Volume) (x : ℕ) : Prop := v.InRange x ∧ v.fat x = 0

structure SameShape (v v' : Volume) : Prop where
  clusters : v'.clusters = v.clusters
  clusterSize : v'.clusterSize = v.clusterSize
  root : v'.root = v.root

structure Allocates (prev c : ℕ) (v v' : Volume) : Prop where
  shape : SameShape v v'
  free : v.Free c
  fat : v'.fat = (v.take prev c).fat
  hint : v'.hint = c + 1
  data : ∀ x, x ≠ c → v'.data x = v.data x

variable {v v' w : Volume} {c x y new prev : ℕ} {l pre post : List ℕ}

theorem SameShape.inRange (h : SameShape v v') : v'.InRange x ↔ v.InRange x := by
  rw [InRange, InRange, h.clusters]

theorem SameShape.refl (v : Volume) : SameShape v v := ⟨rfl, rfl, rfl⟩

theorem SameShape.trans (h : SameShape v v') (h' : SameShape v' w) : SameShape v w :=
  ⟨h'.clusters.trans h.clusters, h'.clusterSize.trans h.clusterSize, h'.root.trans h.root⟩

theorem SameShape.setData (c : ℕ) (buf : ℕ → UInt8) : SameShape v (v.setData c buf) := ⟨rfl, rfl, rfl⟩

namespace FileChain

theorem head_eq (h : FileChain v c (x :: l)) : c = x := (h.walk.head_cons).1

theorem fat_eq (h : FileChain v c (pre ++ x :: y :: post)) : v.fat x = y := by
  have hlink : v.link x = y := h.walk.next_eq_headD pre
  have hy := h.range y (by simp)
  rw [link] at hlink
  split at hlink
  · exact hlink
  · rw [InRange] at hy
    omega

theorem fat_last (h : FileChain v c (pre ++ [x])) : fatEocMin ≤ v.fat x := h.ended x (by simp)

section

variable (h : FileChain v c l)
include h

theorem nodup : l.Nodup := h.walk.nodup

theorem exists_cons (hc : 2 ≤ c) : ∃ rest, l = c :: rest := by
  obtain ⟨rest, hrest, -⟩ := h.walk.of_ne_null (by omega)
  exact ⟨rest, hrest⟩

theorem head_mem (hc : 2 ≤ c) : c ∈ l := by
  obtain ⟨rest, rfl⟩ := h.exists_cons hc
  exact mem_cons_self

theorem fat_ne_zero (hx : x ∈ l) : v.fat x ≠ 0 := by
  obtain ⟨pre, post, rfl⟩ := append_of_mem hx
  cases post with
  | nil =>
    have hlast := h.fat_last
    simp only [fatEocMin] at hlast
    omega
  | cons y post =>
    have hy := h.range y (by simp)
    rw [h.fat_eq]
    rw [InRange] at hy
    omega

theorem not_mem_of_free (hx : v.Free x) : x ∉ l := fun hmem => h.fat_ne_zero hmem hx.2

theorem congr (hshape : SameShape v v') (hfat : ∀ x ∈ l, v'.fat x = v.fat x) : FileChain v' c l := by
  refine ⟨h.walk.congr fun x hx => ?_, fun x hx => hshape.inRange.mpr (h.range x hx), fun x hx => ?_⟩
  · rw [link, link, hfat x hx]
    simp only [hshape.inRange]
  · rw [hfat x (mem_of_getLast? hx)]
    exact h.ended x hx

theorem length_le : l.length ≤ v.clusters := by
  have hsub : l ⊆ List.range' 2 v.clusters := fun x hx => by
    have hr := h.range x hx
    rw [InRange] at hr
    exact mem_range'_1.mpr (by omega)
  have hle := (h.nodup.subperm hsub).length_le
  rwa [length_range'] at hle

end

end FileChain

def At (v : Volume) (c : ℕ) (l : List ℕ) : Prop := FileChain v c l ∨ l = [] ∧ fatEocMin ≤ c

theorem FileChain.next (h : FileChain v c (pre ++ x :: post)) :
    (post = [] ∧ fatEocMin ≤ v.fat x) ∨ ∃ y rest, post = y :: rest ∧ v.fat x = y := by
  cases post with
  | nil => exact .inl ⟨rfl, h.fat_last⟩
  | cons y rest => exact .inr ⟨y, rest, rfl, h.fat_eq⟩

theorem FileChain.tail (h : FileChain v c (x :: l)) : At v (v.fat x) l := by
  have hfirst : FileChain v c ([] ++ x :: l) := h
  rcases hfirst.next with ⟨rfl, hend⟩ | ⟨y, rest, rfl, hy⟩
  · exact .inr ⟨rfl, hend⟩
  · refine .inl ⟨?_, fun z hz => h.range z (mem_cons_of_mem _ hz), fun z hz => h.ended z ?_⟩
    · rw [hy]
      exact h.walk.suffix_cons [x]
    · rw [List.getLast?_cons_cons]
      exact hz

theorem fat_take : (v.take prev c).fat x =
    if prev ≠ 0 ∧ x = prev then c else if x = c then fatEoc else v.fat x := by
  rw [take]
  by_cases hprev : prev = 0
  · subst hprev
    simp only [ne_eq, not_true_eq_false, if_false, false_and, setFat, update_apply]
  · simp only [ne_eq, hprev, not_false_eq_true, if_true, true_and, setFat, update_apply]

theorem Allocates.fat_eq (h : Allocates prev new v v') (hprev : prev = 0 ∨ v.fat prev ≠ 0) :
    v'.fat new = fatEoc ∧ (prev ≠ 0 → v'.fat prev = new) ∧
      ∀ x, x ≠ new → (prev = 0 ∨ x ≠ prev) → v'.fat x = v.fat x := by
  rw [h.fat]
  have hne : prev = 0 ∨ prev ≠ new := hprev.imp_right fun hused heq => hused (heq ▸ h.free.2)
  refine ⟨?_, fun hp => ?_, fun x hx hxp => ?_⟩
  · rw [fat_take, if_neg (by omega), if_pos rfl]
  · rw [fat_take, if_pos ⟨hp, rfl⟩]
  · rw [fat_take, if_neg (by omega), if_neg hx]

theorem FileChain.single (hc : v.InRange c) (hfat : fatEocMin ≤ v.fat c) (hfew : v.clusters + 2 ≤ fatEocMin) :
    FileChain v c [c] := by
  have hlink : v.link c = 0 := if_neg fun hbad => by
    rw [InRange] at hbad
    omega
  refine ⟨.cons (by rw [InRange] at hc; omega) (by rw [hlink]; exact .nil), fun x hx => ?_, fun x hx => ?_⟩
  · rw [mem_singleton.mp hx]
    exact hc
  · obtain rfl : c = x := by simpa using hx
    exact hfat

theorem Allocates.single (h : Allocates 0 new v v') (hfew : v.clusters + 2 ≤ fatEocMin) : FileChain v' new [new] := by
  obtain ⟨hnew, -, -⟩ := h.fat_eq (.inl rfl)
  refine .single (h.shape.inRange.mpr h.free.1) ?_ (by rw [h.shape.clusters]; exact hfew)
  rw [hnew]
  decide

theorem Allocates.append (h : Allocates x new v v') (hfew : v.clusters + 2 ≤ fatEocMin)
    (hl : FileChain v c (pre ++ [x])) : FileChain v' c (pre ++ [x] ++ [new]) := by
  have hxl : x ∈ pre ++ [x] := by simp
  have hx := hl.range x hxl
  obtain ⟨hnew, hprev, hsame⟩ := h.fat_eq (.inr (hl.fat_ne_zero hxl))
  have hrange := h.free.1
  have hfresh := hl.not_mem_of_free h.free
  have hnodup := hl.nodup
  have hlink : ∀ y ∈ pre, v'.link y = v.link y := fun y hy => by
    have hyx : y ≠ x := fun heq => by
      rw [nodup_append] at hnodup
      exact hnodup.2.2 y hy x (by simp) heq
    have hyn : y ≠ new := fun heq => hfresh (by rw [← heq]; simp [hy])
    rw [link, link, hsame y hyn (.inr hyx)]
    simp only [h.shape.inRange]
  have hlast : v'.link x = new := by
    rw [link, hprev (by rw [InRange] at hx; omega), if_pos (h.shape.inRange.mpr hrange)]
  have hend : Chain v'.link 0 new [new] := by
    have hzero : v'.link new = 0 := if_neg fun hbad => by
      rw [InRange, h.shape.clusters, hnew] at hbad
      simp only [fatEoc, fatEocMin] at *
      omega
    exact .cons (by rw [InRange] at hrange; omega) (by rw [hzero]; exact .nil)
  refine ⟨?_, fun y hy => h.shape.inRange.mpr ?_, fun y hy => ?_⟩
  · have hgraft := Chain.graft v'.link (pre ++ [x]) (by rw [append_nil]; exact hl.walk)
      (fun y hy => hlink y (by simpa using hy)) (fun y hy => by
        obtain rfl : x = y := by simpa using hy
        exact hlast) hend
    simpa using hgraft
  · rcases mem_append.mp hy with hy | hy
    · exact hl.range y hy
    · rw [mem_singleton.mp hy]
      exact hrange
  · obtain rfl : new = y := by simpa using hy
    rw [hnew]
    decide

theorem allocates_take (prev : ℕ) (hc : v.Free c) :
    Allocates prev c v (v.take prev c) ∧ (v.take prev c).data = v.data := by
  have hdata : (v.take prev c).data = v.data := by
    rw [take]
    split <;> rfl
  have hshape : SameShape v (v.take prev c) := by
    rw [take]
    split <;> exact ⟨rfl, rfl, rfl⟩
  have hhint : (v.take prev c).hint = c + 1 := by rw [take]
  exact ⟨⟨hshape, hc, rfl, hhint, fun x _ => congrFun hdata x⟩, hdata⟩

theorem allocates_zeroed (prev : ℕ) (hc : v.Free c) :
    Allocates prev c v ((v.take prev c).setData c fun _ => 0) ∧
      ∀ j, ((v.take prev c).setData c fun _ => 0).data c j = 0 := by
  obtain ⟨htake, -⟩ := allocates_take prev hc
  refine ⟨⟨htake.shape.trans (.setData _ _), hc, rfl, htake.hint, fun x hx => ?_⟩, fun j => ?_⟩
  · exact (update_of_ne hx _ _).trans (htake.data x hx)
  · exact (congrFun (update_self _ _ _) j).trans (by split <;> rfl)

theorem alloc_cases (prev : ℕ) (hhint : v.hint ≤ v.clusters + 2) :
    (v.alloc prev = (0, v) ∧ ∀ x, ¬ v.Free x) ∨
      ∃ new, (v.alloc prev).1 = new ∧ Allocates prev new v (v.alloc prev).2 ∧
        (∀ x, v.Free x → (new ≤ x ∧ (v.hint ≤ x → v.hint ≤ new)) ∨ (x < v.hint ∧ v.hint ≤ new)) ∧
        (v.hint ≤ new → ∀ j, (v.alloc prev).2.data new j = 0) := by
  rw [alloc]
  cases habove : v.freeAbove with
  | some c =>
    obtain ⟨hrange, hfree, hle, hleast⟩ := freeAbove_some habove
    obtain ⟨hstep, hzero⟩ := allocates_zeroed prev ⟨hrange, hfree⟩
    refine .inr ⟨c, rfl, hstep, fun x hx => ?_, fun _ => hzero⟩
    have hnot : ¬ (v.hint ≤ x ∧ x < c) := fun hin => hleast x hin.1 hx.1.1 hin.2 hx.2
    omega
  | none =>
    cases hbelow : v.freeBelow with
    | some c =>
      obtain ⟨hrange, hfree, hlt, hleast⟩ := freeBelow_some hbelow hhint
      refine .inr ⟨c, rfl, (allocates_take prev ⟨hrange, hfree⟩).1, fun x hx => ?_, by omega⟩
      have hnot : ¬ x < c := fun hxc => hleast x hx.1.1 hxc hx.2
      have hout : ¬ v.hint ≤ x := fun hlx => freeAbove_none habove hx.1 hlx hx.2
      omega
    | none =>
      refine .inl ⟨rfl, fun x hx => ?_⟩
      rcases Nat.lt_or_ge x v.hint with hlt | hge
      · exact freeBelow_none hbelow hx.1 hlt hx.2
      · exact freeAbove_none habove hx.1 hge hx.2

def freeAll (l : List ℕ) (v : Volume) : Volume := { v with fat := fun x => if x ∈ l then 0 else v.fat x }

end Volume

open Volume

variable {fs : Fat32Fs} {v : Volume} {c : ℕ} {l : List ℕ}

theorem freeChain_spec {fuel : ℕ} (h : Refines fs v) (hl : At v c l) (hfuel : l.length < fuel) :
    ∃ fs', fat32FreeChain fuel c fs = some fs' ∧ Refines fs' (v.freeAll l) := by
  induction l generalizing fuel fs v c with
  | nil =>
    obtain ⟨fuel, rfl⟩ : ∃ k, fuel = k + 1 := ⟨fuel - 1, by simp only [length_nil] at hfuel; omega⟩
    have hend : ¬ (2 ≤ c ∧ c < fatEocMin) := by
      rcases hl with hl | ⟨-, hge⟩
      · rw [hl.walk.head_nil]
        omega
      · omega
    have hsame : v.freeAll [] = v := by simp [freeAll]
    refine ⟨fs, ?_, by rw [hsame]; exact h⟩
    simp only [fat32FreeChain, loop, freeStep, if_neg hend]
  | cons x l ih =>
    obtain ⟨fuel, rfl⟩ : ∃ k, fuel = k + 1 := ⟨fuel - 1, by omega⟩
    obtain hl | ⟨hnil, -⟩ := hl
    · obtain rfl : c = x := hl.head_eq
      have hrange := hl.range c mem_cons_self
      have hlt := h.inRange_lt hrange
      have hnot : c ∉ l := (nodup_cons.mp hl.nodup).1
      obtain ⟨hnext, hrefines⟩ := nextCluster_spec h hrange.2
      have hset := (setFat_spec hrefines hrange.2 (Nat.zero_le fatMask)).setFree
        (((fat32SetFat c fatFree (fat32NextCluster c fs).2).freeClusters + 1) % uintSize)
      have hrest : At (v.setFat c fatFree) (v.fat c) l := by
        refine hl.tail.imp_left fun htail => htail.congr ⟨rfl, rfl, rfl⟩ fun y hy => ?_
        exact update_of_ne (ne_of_mem_of_not_mem hy hnot) _ _
      have hless : l.length < fuel := by simpa using hfuel
      obtain ⟨fs', hloop, hdone⟩ := ih hset hrest hless
      refine ⟨fs', ?_, ?_⟩
      · simp only [fat32FreeChain, loop, freeStep, if_pos (And.intro hrange.1 hlt), hnext]
        exact hloop
      · have hfree : (v.setFat c fatFree).freeAll l = v.freeAll (c :: l) := by
          refine Volume.ext rfl rfl rfl rfl (funext fun y => ?_) rfl
          by_cases hyl : y ∈ l
          · simp [freeAll, hyl]
          · by_cases hyc : y = c
            · subst hyc
              simp [freeAll, hyl, setFat, fatFree]
            · simp [freeAll, hyl, hyc, setFat]
        rw [← hfree]
        exact hdone
    · cases hnil

end

/-! ## Writing along a chain -/

section

open Base Volume

namespace Volume

def byteAt (v : Volume) (l : List ℕ) (i : ℕ) : UInt8 := v.data (l.getD (i / v.clusterSize) 0) (i % v.clusterSize)

structure Extends (v v' : Volume) (l l' : List ℕ) : Prop where
  shape : SameShape v v'
  hint : v'.hint ≤ v'.clusters + 2
  low : 2 ≤ v.hint → 2 ≤ v'.hint
  added : ∃ added, l' = l ++ added ∧ ∀ x ∈ added, v.Free x
  fat : ∀ x, x ∉ l' → v'.fat x = v.fat x
  data : ∀ x, x ∉ l' → v'.data x = v.data x

structure Written (v v' : Volume) (l l' : List ℕ) (p : ℕ) (src : List UInt8) : Prop where
  bytes : ∀ k < src.length, byteAt v' l' (p + k) = src.getD k 0
  kept : ∀ i < l.length * v.clusterSize, i < p ∨ p + src.length ≤ i → byteAt v' l' i = byteAt v l i
  within : p + src.length ≤ l'.length * v.clusterSize

variable {v v' w : Volume} {c f x i : ℕ} {l l' m post : List ℕ}

namespace Extends

theorem refl (hhint : v.hint ≤ v.clusters + 2) (l : List ℕ) : Extends v v l l :=
  ⟨.refl v, hhint, id, ⟨[], by simp, by simp⟩, fun _ _ => rfl, fun _ _ => rfl⟩

section

variable (h : Extends v v' l l')
include h

theorem subset (hx : x ∈ l) : x ∈ l' := by
  obtain ⟨added, rfl, -⟩ := h.added
  exact mem_append_left _ hx

theorem trans {l'' : List ℕ} (h' : Extends v' w l' l'') (hl : FileChain v' f l') : Extends v w l l'' := by
  obtain ⟨added, rfl, hfree⟩ := h.added
  obtain ⟨more, rfl, hfree'⟩ := h'.added
  refine ⟨h.shape.trans h'.shape, h'.hint, fun hlow => h'.low (h.low hlow), ⟨added ++ more, by simp, fun x hx => ?_⟩,
    fun x hx => ?_, fun x hx => ?_⟩
  · rcases mem_append.mp hx with hx | hx
    · exact hfree x hx
    · have hnot := hl.not_mem_of_free (hfree' x hx)
      exact ⟨h.shape.inRange.mp (hfree' x hx).1, (h.fat x hnot).symm.trans (hfree' x hx).2⟩
  · have hout : x ∉ l ++ added := fun hbad => hx (mem_append_left _ hbad)
    exact (h'.fat x hx).trans (h.fat x hout)
  · have hout : x ∉ l ++ added := fun hbad => hx (mem_append_left _ hbad)
    exact (h'.data x hx).trans (h.data x hout)

theorem disjoint (hm : FileChain v c m) (hdis : List.Disjoint m l) : List.Disjoint m l' := by
  obtain ⟨added, rfl, hfree⟩ := h.added
  intro x hx hx'
  rcases mem_append.mp hx' with hx' | hx'
  · exact hdis hx hx'
  · exact hm.not_mem_of_free (hfree x hx') hx

theorem other (hm : FileChain v c m) (hdis : List.Disjoint m l) : FileChain v' c m :=
  hm.congr h.shape fun x hx => h.fat x fun hbad => h.disjoint hm hdis hx hbad

theorem setData (hx : x ∈ l') (buf : ℕ → UInt8) : Extends v (v'.setData x buf) l l' :=
  ⟨h.shape.trans (.setData x buf), h.hint, h.low, h.added, h.fat, fun y hy =>
    (update_of_ne (fun heq : y = x => hy (heq ▸ hx)) _ _).trans (h.data y hy)⟩

end

end Extends

theorem div_lt_length (h : i < l.length * v.clusterSize) : i / v.clusterSize < l.length :=
  Nat.div_lt_of_lt_mul (by rw [Nat.mul_comm]; exact h)

theorem byteAt_append {added : List ℕ} (hsize : v'.clusterSize = v.clusterSize) (hdata : ∀ x ∈ l, v'.data x = v.data x)
    (hi : i < l.length * v.clusterSize) : byteAt v' (l ++ added) i = byteAt v l i := by
  have hlt := div_lt_length hi
  rw [byteAt, byteAt, hsize, getD_append _ _ _ _ hlt, getD_eq_getElem _ _ hlt,
    hdata _ (getElem_mem hlt)]

theorem byteAt_setData {buf : ℕ → UInt8} (hnodup : (pre ++ c :: post).Nodup) (hpos : 0 < v.clusterSize)
    (hi : i < (pre ++ c :: post).length * v.clusterSize) :
    byteAt (v.setData c buf) (pre ++ c :: post) i =
      if i / v.clusterSize = pre.length then buf (i % v.clusterSize) else byteAt v (pre ++ c :: post) i := by
  have hlt := div_lt_length hi
  have hc : (pre ++ c :: post)[pre.length]? = some c := by simp
  rw [byteAt, byteAt]
  change update v.data c _ ((pre ++ c :: post).getD (i / v.clusterSize) 0) (i % v.clusterSize) = _
  split
  · rename_i heq
    rw [heq, getD_eq_getElem?_getD, hc, Option.getD_some, update_self,
      if_pos (Nat.mod_lt i hpos)]
  · rename_i hne
    have hother : (pre ++ c :: post).getD (i / v.clusterSize) 0 ≠ c := by
      intro heq
      rw [getD_eq_getElem _ _ hlt] at heq
      have hmid : (pre ++ c :: post)[pre.length] = c := by simp
      exact hne ((List.Nodup.getElem_inj_iff hnodup).mp (heq.trans hmid.symm))
    rw [update_of_ne hother]

end Volume

variable {fs : Fat32Fs} {v : Volume} {c f n : ℕ} {l pre post : List ℕ}

theorem Refines.size (h : Refines fs v) : fs.bytesPerCluster = v.clusterSize := by
  rw [← h.volume]
  rfl

theorem Refines.size_pos (h : Refines fs v) : 0 < v.clusterSize := by
  rw [← h.size, h.sound.size]
  exact Nat.mul_pos h.sound.sectors (by decide)

theorem Refines.few (h : Refines fs v) : v.clusters + 2 ≤ fatEocMin := by
  have hfew := h.sound.few
  rw [← h.volume]
  exact hfew

theorem Volume.Allocates.extends {v' : Volume} {new x : ℕ} (h : Allocates x new v v') (hused : x = 0 ∨ v.fat x ≠ 0)
    (hx : x = 0 ∨ x ∈ l) : Extends v v' l (l ++ [new]) := by
  obtain ⟨-, -, hsame⟩ := h.fat_eq hused
  have hnew := h.free.1
  rw [InRange] at hnew
  refine ⟨h.shape, by rw [h.hint, h.shape.clusters]; omega, fun _ => by rw [h.hint]; omega,
    ⟨[new], rfl, fun y hy => ?_⟩, fun y hy => ?_, fun y hy => h.data y fun heq => hy (by simp [heq])⟩
  · rw [mem_singleton.mp hy]
    exact h.free
  · refine hsame y (fun heq => hy (by simp [heq])) (hx.imp_right fun hin heq => hy ?_)
    rw [heq]
    exact mem_append_left _ hin

theorem Volume.Allocates.extends_nil {v' : Volume} {new : ℕ} (h : Allocates 0 new v v') : Extends v v' [] [new] :=
  h.extends (.inl rfl) (.inl rfl)

theorem roundBuffer_spec (byteOff copy : ℕ) (h : Refines fs v) (hc : v.InRange c) (hcopy : byteOff + copy ≤ v.clusterSize) :
    ∃ buf, (if byteOff ≠ 0 ∨ copy < fs.bytesPerCluster then fat32ReadCluster c fs else some fun _ => 0) = some buf ∧
      ∀ j < v.clusterSize, j < byteOff ∨ byteOff + copy ≤ j → buf j = v.data c j := by
  rw [h.size]
  split
  · obtain ⟨buf, hread, hbuf⟩ := readCluster_spec h hc
    exact ⟨buf, hread, fun j hj _ => hbuf j hj⟩
  · exact ⟨_, rfl, fun j hj hout => by omega⟩

theorem position_div {size k a : ℕ} (ha : a < size) : (k * size + a) / size = k ∧ (k * size + a) % size = a := by
  have hpos : 0 < size := by omega
  refine ⟨?_, ?_⟩
  · rw [Nat.mul_comm, Nat.mul_add_div hpos, Nat.div_eq_of_lt ha, Nat.add_zero]
  · rw [Nat.mul_comm, Nat.mul_add_mod, Nat.mod_eq_of_lt ha]

theorem written_setData {byteOff : ℕ} {src : List UInt8} {buf : ℕ → UInt8} (hl : FileChain v f (pre ++ c :: post))
    (hsrc : byteOff + src.length ≤ v.clusterSize) (hpos : 0 < v.clusterSize)
    (hbuf : ∀ j < v.clusterSize, buf j =
      if byteOff ≤ j ∧ j < byteOff + src.length then src.getD (j - byteOff) 0 else v.data c j) :
    Written v (v.setData c buf) (pre ++ c :: post) (pre ++ c :: post) (pre.length * v.clusterSize + byteOff) src := by
  have hend : (pre.length + 1) * v.clusterSize ≤ (pre ++ c :: post).length * v.clusterSize :=
    Nat.mul_le_mul_right _ (by simp)
  rw [Nat.add_mul, Nat.one_mul] at hend
  refine ⟨fun k hk => ?_, fun i hi hout => ?_, by omega⟩
  · obtain ⟨hdiv, hmod⟩ := position_div (k := pre.length) (show byteOff + k < v.clusterSize by omega)
    rw [byteAt_setData hl.nodup hpos (by omega), Nat.add_assoc, if_pos hdiv, hmod, hbuf _ (by omega),
      if_pos (by omega), Nat.add_sub_cancel_left]
  · rw [byteAt_setData hl.nodup hpos hi]
    split_ifs with hdiv
    · have hmod := Nat.mod_lt i hpos
      have hsplit : pre.length * v.clusterSize + i % v.clusterSize = i := by
        rw [← hdiv, Nat.mul_comm]
        exact Nat.div_add_mod i v.clusterSize
      rw [hbuf _ hmod, if_neg (by omega), byteAt, hdiv, getD_eq_getElem?_getD]
      simp
    · rfl

theorem Volume.Extends.size_le {v' : Volume} {l' : List ℕ} (h : Extends v v' l l') :
    l.length * v.clusterSize ≤ l'.length * v.clusterSize := by
  obtain ⟨added, rfl, -⟩ := h.added
  exact Nat.mul_le_mul_right _ (by simp)

theorem Volume.Written.trans {v' w : Volume} {l' l'' : List ℕ} {p : ℕ} {src rest : List UInt8}
    (h : Written v v' l l' p src) (h' : Written v' w l' l'' (p + src.length) rest) (hext : Extends v v' l l') :
    Written v w l l'' p (src ++ rest) := by
  have hsize := hext.shape.clusterSize
  have hle := hext.size_le
  refine ⟨fun k hk => ?_, fun i hi hout => ?_, ?_⟩
  · rw [length_append] at hk
    rcases Nat.lt_or_ge k src.length with hlt | hge
    · have hwithin := h.within
      rw [h'.kept (p + k) (by rw [hsize]; omega) (.inl (by omega)), h.bytes k hlt, getD_append _ _ _ _ hlt]
    · rw [show p + k = p + src.length + (k - src.length) by omega, h'.bytes (k - src.length) (by omega),
        getD_append_right _ _ _ _ hge]
  · rw [length_append] at hout
    rw [h'.kept i (by rw [hsize]; omega) (by omega), h.kept i hi (by omega)]
  · rw [length_append, ← hsize, ← Nat.add_assoc]
    exact h'.within

theorem Volume.Written.grow {v' w : Volume} {l' l'' : List ℕ} {p : ℕ} {src : List UInt8} (h : Written v v' l l' p src)
    (hext : Extends v v' l l') (hext' : Extends v' w l' l'') (hdata : ∀ x ∈ l', w.data x = v'.data x) :
    Written v w l l'' p src := by
  obtain ⟨more, rfl, -⟩ := hext'.added
  have hsize := hext.shape.clusterSize
  have hle := hext.size_le
  have hsame : ∀ i < l'.length * v.clusterSize, byteAt w (l' ++ more) i = byteAt v' l' i := fun i hi =>
    byteAt_append hext'.shape.clusterSize hdata (by rw [hsize]; exact hi)
  have hwithin := h.within
  refine ⟨fun k hk => ?_, fun i hi hout => ?_, ?_⟩
  · rw [hsame _ (by omega), h.bytes k hk]
  · rw [hsame i (by omega), h.kept i hi hout]
  · rw [length_append, Nat.add_mul]
    omega

section

variable (h : Refines fs v) (hhint : v.hint ≤ v.clusters + 2) (hl : FileChain v f (pre ++ c :: post))
include h hhint hl

theorem nextOrAlloc_spec :
    (∃ t, nextOrAlloc c fs = (none, t) ∧ Refines t v ∧ post = [] ∧ ∀ x, ¬ v.Free x) ∨
      ∃ d rest v' t, nextOrAlloc c fs = (some d, t) ∧ Refines t v' ∧
        FileChain v' f (pre ++ c :: d :: rest) ∧ Extends v v' (pre ++ c :: post) (pre ++ c :: d :: rest) ∧
        ∀ x ∈ pre ++ c :: post, v'.data x = v.data x := by
  have hc := hl.range c (by simp)
  obtain ⟨hnext, hrefines⟩ := nextCluster_spec h hc.2
  rw [nextOrAlloc]
  rcases hl.next with ⟨rfl, hend⟩ | ⟨d, rest, rfl, hfat⟩
  · have hstop : isEnd (v.fat c) := by
      rw [isEnd, decide_eq_true hend, Bool.true_or]
    obtain ⟨hvalue, halloc⟩ := allocCluster_spec hrefines hhint hc.2
    simp only [hnext, hstop, if_true, hvalue]
    rcases alloc_cases c hhint with ⟨hfull, hnone⟩ | ⟨new, hnew, hstep, -⟩
    · rw [hfull] at halloc ⊢
      exact .inl ⟨_, rfl, halloc, trivial, hnone⟩
    · have hge : ¬ (v.alloc c).1 < 2 := by
        have hrange := hstep.free.1.1
        omega
      rw [if_neg hge, hnew]
      refine .inr ⟨new, [], _, _, rfl, halloc, ?_, ?_, fun x hx => hstep.data x fun heq => ?_⟩
      · simpa using hstep.append h.few hl
      · have hmem : c ∈ pre ++ [c] := by simp
        simpa using hstep.extends (.inr (hl.fat_ne_zero hmem)) (.inr hmem)
      · exact hl.not_mem_of_free hstep.free (heq ▸ hx)
  · have hd := hl.range d (by simp)
    have hgo : isEnd (v.fat c) = false := by
      have hlt := h.inRange_lt hd
      rw [hfat, isEnd, decide_eq_false (by omega), decide_eq_false (by rw [InRange] at hd; omega)]
      rfl
    simp only [hnext, hgo, Bool.false_eq_true, if_false]
    rw [hfat]
    exact .inr ⟨d, rest, v, _, rfl, hrefines, hl, .refl hhint _, fun _ _ => rfl⟩

theorem extendTo_spec :
    ∃ v' l' t, Refines t v' ∧ FileChain v' f l' ∧ Extends v v' (pre ++ c :: post) l' ∧
      (∀ x ∈ pre ++ c :: post, v'.data x = v.data x) ∧
      ((extendTo n c fs = (none, t) ∧ l'.length ≤ pre.length + n ∧ ∀ x, ¬ v'.Free x) ∨
        ∃ front d rest, extendTo n c fs = (some d, t) ∧ l' = front ++ d :: rest ∧ front.length = pre.length + n) := by
  induction n generalizing c fs v pre post with
  | zero => exact ⟨v, _, fs, h, hl, .refl hhint _, fun _ _ => rfl, .inr ⟨pre, c, post, rfl, rfl, rfl⟩⟩
  | succ n ih =>
    rw [extendTo]
    rcases nextOrAlloc_spec h hhint hl with ⟨t, hstep, hrefines, rfl, hfull⟩ |
      ⟨d, rest, v', t, hstep, hrefines, hl', hext, hdata⟩
    · rw [hstep]
      refine ⟨v, _, t, hrefines, hl, .refl hhint _, fun _ _ => rfl, .inl ⟨rfl, ?_, hfull⟩⟩
      rw [length_append, length_singleton]
      omega
    · rw [hstep]
      have hl'' : FileChain v' f ((pre ++ [c]) ++ d :: rest) := by simpa using hl'
      obtain ⟨w, l', u, hrefines', hchain, hext', hdata', hend⟩ := ih hrefines hext.hint hl''
      rw [show pre ++ [c] ++ d :: rest = pre ++ c :: d :: rest by simp] at hext' hdata'
      refine ⟨w, l', u, hrefines', hchain, hext.trans hext' hl', fun x hx => ?_, ?_⟩
      · rw [hdata' x (hext.subset hx), hdata x hx]
      · rw [length_append, length_singleton, Nat.add_assoc, Nat.add_comm 1 n] at hend
        exact hend

theorem writeLoop_spec {fuel byteOff : ℕ} {src : List UInt8} (hoff : byteOff < v.clusterSize) (hsrc : src ≠ []) (hfuel : src.length ≤ fuel) :
    ∃ done v' l' t, writeLoop fuel c byteOff src fs = (.ok done, t) ∧ Refines t v' ∧
      FileChain v' f l' ∧ Extends v v' (pre ++ c :: post) l' ∧ done ≤ src.length ∧
      Written v v' (pre ++ c :: post) l' (pre.length * v.clusterSize + byteOff) (src.take done) ∧
      (done = src.length ∨ 0 < done ∧ l'.length * v.clusterSize = pre.length * v.clusterSize + byteOff + done ∧
        ∀ x, ¬ v'.Free x) := by
  induction fuel generalizing c fs v pre post byteOff src with
  | zero => exact absurd (length_eq_zero_iff.mp (by omega)) hsrc
  | succ fuel ih =>
    have hc := hl.range c (by simp)
    have hpos := h.size_pos
    have hlen : 0 < src.length := length_pos_iff.mpr hsrc
    obtain ⟨copy, hcopy⟩ : ∃ copy, copy = min (v.clusterSize - byteOff) src.length := ⟨_, rfl⟩
    have htake : (src.take copy).length = copy := by rw [length_take]; omega
    obtain ⟨buf, hread, hbuf⟩ := roundBuffer_spec byteOff copy h hc (by omega)
    obtain ⟨t, hwrite, hrefines⟩ := writeCluster_spec h hc (splice buf byteOff copy fun j => src.getD j 0)
    have hspliced : ∀ j < v.clusterSize, splice buf byteOff copy (fun j => src.getD j 0) j =
        if byteOff ≤ j ∧ j < byteOff + (src.take copy).length then (src.take copy).getD (j - byteOff) 0
        else v.data c j := by
      intro j hj
      rw [htake]
      by_cases hin : byteOff ≤ j ∧ j < byteOff + copy
      · rw [if_pos hin, splice_inside hin.1 hin.2, getD_eq_getElem?_getD, getD_eq_getElem?_getD,
          List.getElem?_take_of_lt (by omega)]
      · rw [if_neg hin, splice_outside (by omega), hbuf j hj (by omega)]
    have hround := written_setData hl (by omega) hpos hspliced
    have hmem : c ∈ pre ++ c :: post := by simp
    have hext := (Extends.refl hhint (pre ++ c :: post)).setData hmem
      (splice buf byteOff copy fun j => src.getD j 0)
    have hl₁ : FileChain (v.setData c (splice buf byteOff copy fun j => src.getD j 0)) f (pre ++ c :: post) :=
      hl.congr hext.shape fun _ _ => rfl
    rw [writeLoop, h.size, ← hcopy]
    simp only [h.size] at hread
    simp only [hread, hwrite]
    by_cases hlast : src.length ≤ copy
    · rw [if_pos hlast]
      exact ⟨copy, _, _, t, rfl, hrefines, hl₁, hext, by omega, hround, .inl (by omega)⟩
    · rw [if_neg hlast]
      have hfull : byteOff + copy = v.clusterSize := by omega
      rcases nextOrAlloc_spec hrefines hext.hint hl₁ with ⟨u, hstep, hsame, rfl, hnofree⟩ |
        ⟨d, rest, v₂, u, hstep, hrefines₂, hl₂, hext₂, hdata₂⟩
      · rw [hstep]
        refine ⟨copy, _, _, u, rfl, hsame, hl₁, hext, by omega, hround, .inr ⟨by omega, ?_, hnofree⟩⟩
        rw [length_append, length_singleton, Nat.add_mul]
        omega
      · have hl₂' : FileChain v₂ f ((pre ++ [c]) ++ d :: rest) := by simpa using hl₂
        have hsize₂ : v₂.clusterSize = v.clusterSize := hext₂.shape.clusterSize.trans hext.shape.clusterSize
        have hmore : src.drop copy ≠ [] := fun hnil => hlast (drop_eq_nil_iff.mp hnil)
        have hstart : 0 < v₂.clusterSize := by omega
        obtain ⟨done, v', l', z, hrun, hrefines', hchain, hext', hle, hwritten, hend⟩ :=
          ih hrefines₂ hext₂.hint hl₂' hstart hmore (by rw [length_drop]; omega)
        rw [length_drop] at hle hend
        rw [show pre ++ [c] ++ d :: rest = pre ++ c :: d :: rest by simp] at hext' hwritten
        have hposition : (pre ++ [c]).length * v₂.clusterSize + 0 =
            pre.length * v.clusterSize + byteOff + (src.take copy).length := by
          rw [htake, hsize₂, length_append, length_singleton, Nat.add_mul, Nat.one_mul]
          omega
        rw [hposition] at hwritten hend
        have hext₀₂ := hext.trans hext₂ hl₁
        refine ⟨copy + done, v', l', z, ?_, hrefines', hchain, hext₀₂.trans hext' hl₂, by omega, ?_, ?_⟩
        · simp only [hstep, hrun]
        · rw [take_add]
          exact (hround.grow hext hext₂ hdata₂).trans hwritten hext₀₂
        · rw [htake, hsize₂] at hend
          exact hend.imp (by omega) fun ⟨hpos', hlen', hnone⟩ => ⟨by omega, by omega, hnone⟩

end

end

end AetherOs.Fat32
