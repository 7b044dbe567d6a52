import AetherOs.Base.Reach
import AetherOs.Fat32.WriteRead

/-! # Who owns the clusters of a volume -/

namespace AetherOs.Fat32

open List

section

open Base Relation

def direntLive (de : ℕ → UInt8) : Bool :=
  de 0 ≠ 0 && de 0 ≠ deletedMark && direntAttr de &&& attrVolumeId = 0

def direntIsDir (de : ℕ → UInt8) : Bool := direntAttr de &&& attrDir ≠ 0

namespace Volume

def chainFrom (v : Volume) : ℕ → ℕ → List ℕ
  | 0, _ => []
  | n + 1, c => if v.InRange c then c :: chainFrom v n (v.link c) else []

def chain (v : Volume) (c : ℕ) : List ℕ := v.chainFrom v.clusters c

def count (v : Volume) (d : ℕ) : ℕ := (v.chain d).length * v.perCluster

def entry (v : Volume) (d i : ℕ) : ℕ → UInt8 := slot v (v.chain d) i

def live (v : Volume) (d i : ℕ) : Option (ℕ → UInt8) :=
  if i < v.count d ∧ direntLive (v.entry d i) = true then some (v.entry d i) else none

structure Holds (v : Volume) (ex : Option (ℕ × ℕ)) (d i : ℕ) (e : ℕ → UInt8) : Prop where
  seen : some (d, i) ≠ ex
  proper : d = v.root ∨ 2 ≤ i
  live : v.live d i = some e

def Sub (v : Volume) (ex : Option (ℕ × ℕ)) (d s : ℕ) : Prop :=
  ∃ i e, Holds v ex d i e ∧ direntIsDir e = true ∧ direntCluster e = s

def Dir (v : Volume) (ex : Option (ℕ × ℕ)) (d : ℕ) : Prop := ReflTransGen (Sub v ex) v.root d

inductive Owns (v : Volume) (ex : Option (ℕ × ℕ)) : Option (ℕ × ℕ) → ℕ → Prop
  | root : Owns v ex none v.root
  | entry {d i : ℕ} {e : ℕ → UInt8} : Dir v ex d → Holds v ex d i e → 2 ≤ direntCluster e →
      Owns v ex (some (d, i)) (direntCluster e)

structure Dots (v : Volume) (s p : ℕ) : Prop where
  self : ∃ e, v.live s 0 = some e ∧ direntIsDir e = true ∧ direntCluster e = s
  parent : ∃ e, v.live s 1 = some e ∧ direntIsDir e = true ∧
    (direntCluster e = p ∨ direntCluster e < 2 ∧ p = v.root)

structure Tidy (v : Volume) (d : ℕ) : Prop where
  small : v.count d ≤ 2 ^ 31
  ended : ∀ i j, i ≤ j → j < v.count d → v.entry d i 0 = 0 → v.entry d j 0 = 0

structure Owned (v : Volume) (ex : Option (ℕ × ℕ)) (loose : List ℕ) : Prop where
  aligned : Aligned v
  hint : 2 ≤ v.hint ∧ v.hint ≤ v.clusters + 2
  rooted : 2 ≤ v.root
  spare : ∀ d i, ex = some (d, i) → d = v.root ∨ 2 ≤ i
  chains : ∀ o c, Owns v ex o c → FileChain v c (v.chain c)
  disjoint : ∀ o o' c c', Owns v ex o c → Owns v ex o' c' → o ≠ o' → List.Disjoint (v.chain c) (v.chain c')
  apart : ∀ x ∈ loose, v.InRange x ∧ v.fat x ≠ 0 ∧ ∀ o c, Owns v ex o c → x ∉ v.chain c
  covered : ∀ x, v.InRange x → v.fat x ≠ 0 → x ∈ loose ∨ ∃ o c, Owns v ex o c ∧ x ∈ v.chain c
  subdirs : ∀ d i e, Dir v ex d → Holds v ex d i e → direntIsDir e = true → 2 ≤ direntCluster e
  dots : ∀ d s, Dir v ex d → Sub v ex d s → Dots v s d
  tidy : ∀ d, Dir v ex d → Tidy v d

def WellFormed (v : Volume) : Prop := Owned v none []

variable {v v' : Volume} {ex o o' : Option (ℕ × ℕ)} {loose l : List ℕ} {c c' d i s n : ℕ} {e e' : ℕ → UInt8}

theorem chainFrom_eq (h : Chain v.link 0 c l) (hrange : ∀ x ∈ l, v.InRange x) (hn : l.length ≤ n) :
    v.chainFrom n c = l := by
  induction l generalizing n c with
  | nil =>
    obtain rfl := h.head_nil
    cases n with
    | zero => rfl
    | succ n => exact if_neg fun hbad => by rw [InRange] at hbad; omega
  | cons x l ih =>
    obtain ⟨rfl, -, htail⟩ := h.head_cons
    obtain ⟨k, rfl⟩ : ∃ k, n = k + 1 := ⟨n - 1, by rw [length_cons] at hn; omega⟩
    rw [chainFrom, if_pos (hrange c mem_cons_self), ih htail (fun y hy => hrange y (mem_cons_of_mem _ hy))
      (by rw [length_cons] at hn; omega)]

theorem FileChain.chain_eq (h : FileChain v c l) : v.chain c = l := chainFrom_eq h.walk h.range h.length_le

theorem chain_of_lt (hc : c < 2) : v.chain c = [] := by
  rw [chain]
  cases v.clusters with
  | zero => rfl
  | succ n => exact if_neg fun hbad => by rw [InRange] at hbad; omega

theorem live_eq_some : v.live d i = some e ↔ i < v.count d ∧ direntLive (v.entry d i) ∧ v.entry d i = e := by
  rw [live]
  split
  · rename_i hin
    rw [Option.some.injEq]
    exact ⟨fun heq => ⟨hin.1, hin.2, heq⟩, fun h => h.2.2⟩
  · rename_i hout
    exact ⟨fun h => absurd h.symm (Option.some_ne_none e), fun h => absurd ⟨h.1, h.2.1⟩ hout⟩

theorem Holds.unique (h : Holds v ex d i e) (h' : Holds v ex d i e') : e = e' :=
  Option.some.inj (h.live.symm.trans h'.live)

theorem Owns.unique (h : Owns v ex o c) (h' : Owns v ex o c') : c = c' := by
  cases h with
  | root =>
    cases h'
    rfl
  | entry _ hheld _ =>
    cases h' with
    | entry _ hheld' _ => rw [hheld.unique hheld']

namespace Owned

section

variable (h : Owned v ex loose)

include h

theorem dir_owns (hd : Dir v ex d) : ∃ o, Owns v ex o d := by
  cases hd with
  | refl => exact ⟨none, .root⟩
  | tail hp hsub =>
    obtain ⟨i, e, hheld, hdir, rfl⟩ := hsub
    exact ⟨_, .entry hp hheld (h.subdirs _ i e hp hheld hdir)⟩

theorem owns_two (ho : Owns v ex o c) : 2 ≤ c := by
  cases ho with
  | root => exact h.rooted
  | entry _ _ hc => exact hc

theorem dir_two (hd : Dir v ex d) : 2 ≤ d := by
  obtain ⟨o, ho⟩ := h.dir_owns hd
  exact h.owns_two ho

theorem dir_chain (hd : Dir v ex d) : FileChain v d (v.chain d) := by
  obtain ⟨o, ho⟩ := h.dir_owns hd
  exact h.chains o d ho

theorem mem_chain (ho : Owns v ex o c) : c ∈ v.chain c := by
  obtain ⟨rest, hrest⟩ := (h.chains o c ho).exists_cons (h.owns_two ho)
  rw [hrest]
  exact mem_cons_self

theorem owner_eq (ho : Owns v ex o c) (ho' : Owns v ex o' c) : o = o' := by
  by_contra hne
  exact h.disjoint o o' c c ho ho' hne (h.mem_chain ho) (h.mem_chain ho')

theorem disjoint_of_ne (ho : Owns v ex o c) (ho' : Owns v ex o' c') (hne : c ≠ c') :
    List.Disjoint (v.chain c) (v.chain c') :=
  h.disjoint o o' c c' ho ho' fun heq => hne (by
    subst heq
    exact ho.unique ho')

theorem sub_ne_root (hd : Dir v ex d) (hs : Sub v ex d s) : s ≠ v.root := by
  obtain ⟨i, e, hheld, hdir, rfl⟩ := hs
  intro heq
  have hown : Owns v ex (some (d, i)) v.root := heq ▸ .entry hd hheld (h.subdirs d i e hd hheld hdir)
  exact Option.some_ne_none _ (h.owner_eq .root hown).symm

end

end Owned

structure Agree (v v' : Volume) (ex : Option (ℕ × ℕ)) : Prop where
  shape : SameShape v v'
  live : ∀ d, Dir v ex d → ∀ i, some (d, i) ≠ ex → v'.live d i = v.live d i

namespace Agree

theorem holds (h : Agree v v' ex) (hd : Dir v ex d) : Holds v' ex d i e ↔ Holds v ex d i e := by
  constructor
  · intro hheld
    exact ⟨hheld.seen, by rw [← h.shape.root]; exact hheld.proper, by rw [← h.live d hd i hheld.seen]; exact hheld.live⟩
  · intro hheld
    exact ⟨hheld.seen, by rw [h.shape.root]; exact hheld.proper, by rw [h.live d hd i hheld.seen]; exact hheld.live⟩

theorem sub (h : Agree v v' ex) (hd : Dir v ex d) : Sub v' ex d s ↔ Sub v ex d s := by
  simp only [Sub, h.holds hd]

theorem dir (h : Agree v v' ex) : Dir v' ex d ↔ Dir v ex d := by
  rw [Dir, h.shape.root]
  exact reach_congr fun a b ha => h.sub ha

theorem owns (h : Agree v v' ex) : Owns v' ex o c ↔ Owns v ex o c := by
  constructor
  · rintro (_ | ⟨hd, hheld, hc⟩)
    · rw [h.shape.root]
      exact .root
    · exact .entry (h.dir.mp hd) ((h.holds (h.dir.mp hd)).mp hheld) hc
  · rintro (_ | ⟨hd, hheld, hc⟩)
    · rw [← h.shape.root]
      exact .root
    · exact .entry (h.dir.mpr hd) ((h.holds hd).mpr hheld) hc

end Agree

theorem Owned.of_agree (h : Owned v ex loose) (hag : Agree v v' ex) (hhint : 2 ≤ v'.hint ∧ v'.hint ≤ v'.clusters + 2)
    (hchains : ∀ o c, Owns v ex o c → FileChain v' c (v'.chain c))
    (hdisjoint : ∀ o o' c c', Owns v ex o c → Owns v ex o' c' → o ≠ o' → List.Disjoint (v'.chain c) (v'.chain c'))
    (hapart : ∀ x ∈ loose', v'.InRange x ∧ v'.fat x ≠ 0 ∧ ∀ o c, Owns v ex o c → x ∉ v'.chain c)
    (hcovered : ∀ x, v'.InRange x → v'.fat x ≠ 0 → x ∈ loose' ∨ ∃ o c, Owns v ex o c ∧ x ∈ v'.chain c)
    (htidy : ∀ d, Dir v ex d → Tidy v' d) : Owned v' ex loose' where
  aligned := h.aligned.congr hag.shape
  hint := hhint
  rooted := by
    rw [hag.shape.root]
    exact h.rooted
  spare := by
    rw [hag.shape.root]
    exact h.spare
  chains := fun o c ho => hchains o c (hag.owns.mp ho)
  disjoint := fun o o' c c' ho ho' => hdisjoint o o' c c' (hag.owns.mp ho) (hag.owns.mp ho')
  apart := fun x hx => by
    obtain ⟨hrange, hused, hout⟩ := hapart x hx
    exact ⟨hrange, hused, fun o c ho => hout o c (hag.owns.mp ho)⟩
  covered := fun x hx hused => by
    refine (hcovered x hx hused).imp_right ?_
    rintro ⟨o, c, ho, hmem⟩
    exact ⟨o, c, hag.owns.mpr ho, hmem⟩
  subdirs := fun d i e hd hheld => h.subdirs d i e (hag.dir.mp hd) ((hag.holds (hag.dir.mp hd)).mp hheld)
  dots := fun d s hd hs => by
    have hd' := hag.dir.mp hd
    have hs' := (hag.sub hd').mp hs
    have hsdir : Dir v ex s := hd'.tail hs'
    have hne := h.sub_ne_root hd' hs'
    have hseen : ∀ i < 2, some (s, i) ≠ ex := fun i hi heq =>
      (h.spare s i heq.symm).elim hne fun hbad => by omega
    have hdots := h.dots d s hd' hs'
    refine ⟨?_, ?_⟩
    · rw [hag.live s hsdir 0 (hseen 0 (by omega))]
      exact hdots.self
    · rw [hag.live s hsdir 1 (hseen 1 (by omega)), hag.shape.root]
      exact hdots.parent
  tidy := fun d hd => htidy d (hag.dir.mp hd)

section

variable (h : Owned v ex loose) (hshape : SameShape v v')
include h hshape

theorem Owned.chain_same (ho : Owns v ex o c)
    (hfat : ∀ x ∈ v.chain c, v'.fat x = v.fat x) : FileChain v' c (v.chain c) ∧ v'.chain c = v.chain c := by
  have hchain := (h.chains o c ho).congr hshape hfat
  exact ⟨hchain, hchain.chain_eq⟩

theorem Owned.agree_of_same (hfat : ∀ o c, Owns v ex o c → ∀ x ∈ v.chain c, v'.fat x = v.fat x)
    (hslot : ∀ d, Dir v ex d → ∀ i < v.count d, some (d, i) ≠ ex → slot v' (v.chain d) i = v.entry d i) :
    Agree v v' ex := by
  refine ⟨hshape, fun d hd i hseen => ?_⟩
  obtain ⟨o, ho⟩ := h.dir_owns hd
  have hchain := (h.chain_same hshape ho (hfat o d ho)).2
  have hcount : v'.count d = v.count d := by
    rw [count, count, hchain, perCluster, perCluster, hshape.clusterSize]
  rw [live, live, hcount]
  by_cases hi : i < v.count d
  · have hentry : v'.entry d i = v.entry d i := by
      rw [entry, hchain]
      exact hslot d hd i hi hseen
    rw [hentry]
  · rw [if_neg fun hbad => hi hbad.1, if_neg fun hbad => hi hbad.1]

theorem Owned.of_same (hhint : 2 ≤ v'.hint ∧ v'.hint ≤ v'.clusters + 2)
    (hfat : ∀ o c, Owns v ex o c → ∀ x ∈ v.chain c, v'.fat x = v.fat x)
    (hslot : ∀ d, Dir v ex d → ∀ i < v.count d, some (d, i) ≠ ex → slot v' (v.chain d) i = v.entry d i)
    (hapart : ∀ x ∈ loose', v'.InRange x ∧ v'.fat x ≠ 0 ∧ ∀ o c, Owns v ex o c → x ∉ v.chain c)
    (hcovered : ∀ x, v'.InRange x → v'.fat x ≠ 0 → x ∈ loose' ∨ ∃ o c, Owns v ex o c ∧ x ∈ v.chain c)
    (htidy : ∀ d, Dir v ex d → Tidy v' d) : Owned v' ex loose' := by
  have hsame : ∀ o c, Owns v ex o c → FileChain v' c (v.chain c) ∧ v'.chain c = v.chain c := fun o c ho =>
    h.chain_same hshape ho (hfat o c ho)
  refine h.of_agree (h.agree_of_same hshape hfat hslot) hhint (fun o c ho => ?_) (fun o o' c c' ho ho' hne => ?_)
    (fun x hx => ?_) (fun x hx hused => ?_) htidy
  · rw [(hsame o c ho).2]
    exact (hsame o c ho).1
  · rw [(hsame o c ho).2, (hsame o' c' ho').2]
    exact h.disjoint o o' c c' ho ho' hne
  · obtain ⟨hrange, hused, hout⟩ := hapart x hx
    exact ⟨hrange, hused, fun o c ho => by rw [(hsame o c ho).2]; exact hout o c ho⟩
  · refine (hcovered x hx hused).imp_right ?_
    rintro ⟨o, c, ho, hmem⟩
    exact ⟨o, c, ho, by rw [(hsame o c ho).2]; exact hmem⟩

end

end Volume

end

/-! ## Searches in a directory -/

section

open Base Fs Volume

variable {fs : Fat32Fs} {v : Volume} {c d i n fuel : ℕ} {D post : List ℕ} {name : Name} {de de' buf : ℕ → UInt8}

theorem trimmed_length_le (n off : ℕ) (de : ℕ → UInt8) : (trimmed n off de).length ≤ n := by
  have hle := ( rdropWhile_prefix (fun c => decide (c = space)) (l := (List.range n).map fun i => de (off + i))).length_le
  rwa [length_map, length_range] at hle

theorem fat3283ToStr_length_le (de : ℕ → UInt8) : (fat3283ToStr de).length ≤ 12 := by
  have hbase := trimmed_length_le 8 0 de
  have hext := trimmed_length_le 3 8 de
  rw [fat3283ToStr]
  refine ( takeWhile_prefix _).length_le.trans ?_
  rw [length_append]
  split
  · rw [length_nil]
    omega
  · rw [length_cons]
    omega

theorem take_name_eq_iff : (fat3283ToStr de).take vfsNameMax = name.take vfsNameMax ↔ fat3283ToStr de = name := by
  have hlen := fat3283ToStr_length_le de
  have hshort : (fat3283ToStr de).take vfsNameMax = fat3283ToStr de :=
    take_of_length_le (by simp only [vfsNameMax]; omega)
  rw [hshort]
  constructor
  · intro heq
    have hcut : name.length ≤ vfsNameMax := by
      by_contra hlong
      have hfull := congrArg List.length heq
      rw [length_take] at hfull
      simp only [vfsNameMax] at hlong hfull
      omega
    rw [heq, take_of_length_le hcut]
  · rintro rfl
    exact hshort.symm

def slotEntry (de : ℕ → UInt8) : Entry := ⟨fat3283ToStr de, direntCluster de, direntFileSize de, direntAttr de⟩

def slotNode (d i : ℕ) (de : ℕ → UInt8) : Fat32Node := fat32MakeNode (slotEntry de) d i

def foundAt (d : ℕ) (f : ℕ → ℕ → UInt8) : Option ℕ → Option Fat32Node
  | none => none
  | some i => if f i 0 = 0 then none else some (slotNode d i (f i))

theorem finddir_loop (h : Refines fs v) (hD : FileChain v d D) (hd : 2 ≤ d) (hsmall : D.length * v.perCluster < uintSize)
    (hn : i + n = D.length * v.perCluster) (hfuel : n < fuel) :
    ∃ t, loop (finddirStep d name) fuel (i, fs) =
        some (foundAt d (slot v D) (search (unlinkStops name) (slot v D) n i), t) ∧ Refines t v := by
  induction n generalizing i fs fuel with
  | zero =>
    obtain ⟨k, rfl⟩ : ∃ k, fuel = k + 1 := ⟨fuel - 1, by omega⟩
    obtain ⟨hread, hrefines⟩ := readDirEntry_spec (i := i) h hD hd
    rw [if_neg (by omega)] at hread
    cases hrun : fat32ReadDirEntry d i fs with
    | mk r t =>
      rw [hrun] at hread hrefines
      obtain rfl : r = .finish := hread
      refine ⟨t, ?_, hrefines⟩
      simp only [loop, finddirStep, hrun]
      rfl
  | succ n ih =>
    obtain ⟨k, rfl⟩ : ∃ k, fuel = k + 1 := ⟨fuel - 1, by omega⟩
    obtain ⟨hread, hrefines⟩ := readDirEntry_spec (i := i) h hD hd
    rw [if_pos (by omega)] at hread
    have hnext : (i + 1) % uintSize = i + 1 := Nat.mod_eq_of_lt (by omega)
    cases hrun : fat32ReadDirEntry d i fs with
    | mk r t =>
      rw [hrun] at hread hrefines
      obtain ⟨u, hloop, hdone⟩ := ih (i := i + 1) hrefines (by omega) (by omega : n < k)
      rw [parseDirent] at hread
      simp only [loop, finddirStep, hrun, search]
      by_cases hend : slot v D i 0 = 0
      · rw [if_pos hend] at hread
        obtain rfl : r = .finish := hread
        refine ⟨t, ?_, hrefines⟩
        have hstop : unlinkStops name (slot v D i) := by rw [unlinkStops, decide_eq_true hend, Bool.true_or]
        simp only [hstop, if_true, foundAt, if_pos hend]
      · rw [if_neg hend] at hread
        by_cases hvisible : direntVisible (slot v D i) = false
        · rw [if_pos hvisible] at hread
          obtain rfl : r = .skipped := hread
          have hgo : unlinkStops name (slot v D i) = false := by
            rw [unlinkStops, decide_eq_false hend, hvisible, Bool.false_and, Bool.false_or]
          simp only [hgo, hnext, Bool.false_eq_true, if_false]
          exact ⟨u, hloop, hdone⟩
        · rw [if_neg hvisible] at hread
          obtain rfl : r = .entry (slotEntry (slot v D i)) := hread
          rw [Bool.not_eq_false] at hvisible
          have hstop : unlinkStops name (slot v D i) = decide (fat3283ToStr (slot v D i) = name) := by
            rw [unlinkStops, decide_eq_false hend, hvisible, Bool.true_and, Bool.false_or]
          simp only [hstop, slotEntry, take_name_eq_iff, decide_eq_true_eq]
          by_cases hname : fat3283ToStr (slot v D i) = name
          · simp only [if_pos hname, foundAt, if_neg hend]
            exact ⟨t, rfl, hrefines⟩
          · simp only [if_neg hname, hnext]
            exact ⟨u, hloop, hdone⟩

theorem slot_eq_buffer (h : Aligned v) (hbuf : ∀ j < v.clusterSize, buf j = v.data c j) {j k : ℕ} (hj : j < v.perCluster)
    (hk : k < direntSize) : direntAt buf j k = slot v (pre ++ c :: post) (pre.length * v.perCluster + j) k := by
  obtain ⟨hdiv, hmod⟩ := position_div (k := pre.length) hj
  have hfits : j * direntSize + k < v.clusterSize := by
    have hfit := h.fits j
    rw [Nat.mod_eq_of_lt hj] at hfit
    omega
  have hc : v.slotCluster (pre ++ c :: post) (pre.length * v.perCluster + j) = c := by
    rw [slotCluster, hdiv, getD_eq_getElem?_getD]
    simp
  rw [slot_eq_direntAt h hk, hc, hmod]
  exact hbuf _ hfits

theorem search_cluster {p : (ℕ → UInt8) → Bool} (hp : ∀ de de', (∀ k < direntSize, de k = de' k) → p de = p de')
    (h : Aligned v) (hbuf : ∀ j < v.clusterSize, buf j = v.data c j) :
    search p (slot v (pre ++ c :: post)) ((c :: post).length * v.perCluster) (pre.length * v.perCluster) =
      match search p (direntAt buf) v.perCluster 0 with
      | some i => some (pre.length * v.perCluster + i)
      | none => search p (slot v (pre ++ c :: post)) (post.length * v.perCluster) ((pre ++ [c]).length * v.perCluster) := by
  have hsplit : (c :: post).length * v.perCluster = v.perCluster + post.length * v.perCluster := by
    rw [length_cons, Nat.add_mul, Nat.one_mul, Nat.add_comm]
  have hfirst : search p (slot v (pre ++ c :: post)) v.perCluster (pre.length * v.perCluster + 0) =
      (search p (direntAt buf) v.perCluster 0).map (pre.length * v.perCluster + ·) :=
    search_shift fun j _ hj => hp _ _ fun k hk => slot_eq_buffer h hbuf (by omega) hk
  rw [Nat.add_zero] at hfirst
  have hnext : (pre ++ [c]).length * v.perCluster = pre.length * v.perCluster + v.perCluster := by
    rw [length_append, length_singleton, Nat.add_mul, Nat.one_mul]
  rw [hsplit, search_add, hfirst, hnext]
  cases search p (direntAt buf) v.perCluster 0 <;> rfl

def slotFree (de : ℕ → UInt8) : Bool := isFreeMark (de 0)

theorem search_isFreeMark {g : ℕ → ℕ → UInt8} {a : ℕ} :
    search isFreeMark (fun i => g i 0) n a = search slotFree g n a := by
  induction n generalizing a with
  | zero => rfl
  | succ n ih =>
    rw [search, search, ih]
    rfl

def freeDirentResult (v : Volume) (D : List ℕ) (t : Fat32Fs) : Option ℕ → ℤ × Fat32Fs
  | some i => (toIndex i, t)
  | none => (if (fat32AllocCluster (D.getLastD 0) t).1 < 2 then -enospc else toIndex (D.length * v.perCluster),
      (fat32AllocCluster (D.getLastD 0) t).2)

structure Visit (v : Volume) (D : List ℕ) (t : Fat32Fs) (pre : List ℕ) (c : ℕ) (post : List ℕ) (buf : ℕ → UInt8) :
    Prop where
  split : D = pre ++ c :: post
  refines : Refines t v
  inRange : 2 ≤ c ∧ c < fatEocMin
  read : fat32ReadCluster c t = some buf
  bytes : ∀ j < v.clusterSize, buf j = v.data c j
  next : fat32NextCluster c t = (v.fat c, (fat32NextCluster c t).2)

theorem chain_search {σ α : Type} {f : σ → α ⊕ σ} {S : List ℕ → ℕ → Fat32Fs → σ} {R : Fat32Fs → α → Option ℕ → Prop}
    {p : (ℕ → UInt8) → Bool} (hp : ∀ de de', (∀ k < direntSize, de k = de' k) → p de = p de') (hD : FileChain v d D)
    (hfound : ∀ pre c post t buf i, Visit v D t pre c post buf → search p (direntAt buf) v.perCluster 0 = some i →
      ∃ a, f (S pre c t) = .inl a ∧ R t a (some (pre.length * v.perCluster + i)))
    (hnext : ∀ pre c post t buf, Visit v D t pre c post buf → search p (direntAt buf) v.perCluster 0 = none →
      f (S pre c t) = .inr (S (pre ++ [c]) (v.fat c) (fat32NextCluster c t).2))
    (hend : ∀ c t, ¬ (2 ≤ c ∧ c < fatEocMin) → Refines t v → ∃ a, f (S D c t) = .inl a ∧ R t a none)
    (h : Refines fs v) (hsplit : D = pre ++ c :: post) (hfuel : post.length + 1 < fuel) :
    ∃ t a, Refines t v ∧ loop f fuel (S pre c fs) = some a ∧
      R t a (search p (slot v D) ((c :: post).length * v.perCluster) (pre.length * v.perCluster)) := by
  induction fuel generalizing pre c post fs with
  | zero => omega
  | succ k ih =>
    have hchain : FileChain v d (pre ++ c :: post) := hsplit ▸ hD
    have hc := hchain.range c (by simp)
    obtain ⟨buf, hread, hbuf⟩ := readCluster_spec h hc
    obtain ⟨hfat, hrefines⟩ := nextCluster_spec h hc.2
    have hvisit : Visit v D fs pre c post buf :=
      ⟨hsplit, h, ⟨hc.1, h.inRange_lt hc⟩, hread, hbuf, Prod.ext hfat rfl⟩
    rw [hsplit, search_cluster hp h.aligned hbuf, ← hsplit, loop]
    cases hs : search p (direntAt buf) v.perCluster 0 with
    | some i =>
      obtain ⟨a, hstep, hresult⟩ := hfound pre c post fs buf i hvisit hs
      exact ⟨fs, a, h, by rw [hstep], hresult⟩
    | none =>
      rw [hnext pre c post fs buf hvisit hs]
      rcases hchain.next with ⟨rfl, hlast⟩ | ⟨y, rest, rfl, hy⟩
      · obtain ⟨k, rfl⟩ : ∃ m, k = m + 1 := ⟨k - 1, by rw [length_nil] at hfuel; omega⟩
        obtain ⟨a, hstop, hresult⟩ := hend (v.fat c) (fat32NextCluster c fs).2 (by omega) hrefines
        rw [length_nil, Nat.zero_mul]
        refine ⟨_, a, hrefines, ?_, hresult⟩
        change loop f (k + 1) _ = some a
        rw [← hsplit, loop, hstop]
      · rw [hy]
        exact ih hrefines (by rw [hsplit, append_assoc]; rfl) (by rw [length_cons] at hfuel; omega)

theorem findFreeDirent_spec (h : Refines fs v) (hD : FileChain v d D) (hd : 2 ≤ d) (hfuel : D.length < fuel) :
    ∃ t, Refines t v ∧ fat32FindFreeDirent fuel d fs =
      some (freeDirentResult v D t (search slotFree (slot v D) (D.length * v.perCluster) 0)) := by
  obtain ⟨rest, hrest⟩ := hD.exists_cons hd
  have hmark : ∀ de de' : ℕ → UInt8, (∀ k < direntSize, de k = de' k) → slotFree de = slotFree de' :=
    fun de de' heq => by rw [slotFree, slotFree, heq 0 (by decide)]
  have hround := chain_search (f := freeDirentStep) (S := fun pre c t => ⟨c, pre.length, pre.getLastD 0, t⟩)
    (R := fun t a r => a = freeDirentResult v D t r) hmark hD ?_ ?_ ?_ h (show D = [] ++ d :: rest from hrest)
    (by rw [hrest] at hfuel; exact hfuel)
  · obtain ⟨t, a, ht, hloop, rfl⟩ := hround
    refine ⟨t, ht, ?_⟩
    rw [fat32FindFreeDirent, hrest]
    simpa [hrest] using hloop
  · intro pre c post t buf i hvisit hs
    refine ⟨_, ?_, rfl⟩
    simp only [freeDirentStep, if_pos hvisit.inRange, hvisit.read, search_isFreeMark, hvisit.refines.perCluster, hs,
      freeDirentResult]
  · intro pre c post t buf hvisit hs
    simp only [freeDirentStep, if_pos hvisit.inRange, hvisit.read, search_isFreeMark, hvisit.refines.perCluster, hs]
    rw [hvisit.next]
    simp
  · intro c t hout ht
    refine ⟨_, ?_, rfl⟩
    simp only [freeDirentStep, if_neg hout, ht.perCluster, freeDirentResult]

theorem unlinkStops_congr (h : ∀ k < direntSize, de k = de' k) : unlinkStops name de = unlinkStops name de' := by
  obtain ⟨hname, -, -, -, hvisible⟩ := dirent_congr h
  rw [unlinkStops, unlinkStops, hname, hvisible, h 0 (by decide)]

def UnlinkResult (v : Volume) (D : List ℕ) (t : Fat32Fs) (inner : ℕ) (r : Option (ℤ × Fat32Fs)) : Option ℕ → Prop
  | none => r = some (-enoent, t)
  | some i => ∃ buf, (∀ j < v.clusterSize, buf j = v.data (v.slotCluster D i) j) ∧
      r = if slot v D i 0 = 0 then some (-enoent, t)
        else removeEntry inner (v.slotCluster D i) (i % v.perCluster) buf t

section

variable (parent : Fat32Node) (name) (h : Refines fs v) (hD : FileChain v (nodeCluster parent fs) D)
  (hd : 2 ≤ nodeCluster parent fs)

include parent name h hD hd

theorem vfsUnlink_spec (hfuel : D.length < fuel) :
    ∃ t, Refines t v ∧ UnlinkResult v D t fuel (fat32VfsUnlink fuel parent name fs)
      (search (unlinkStops name) (slot v D) (D.length * v.perCluster) 0) := by
  obtain ⟨rest, hrest⟩ := hD.exists_cons hd
  have hround := chain_search (f := unlinkStep fuel name) (S := fun _ c t => (c, t))
    (R := fun t a => UnlinkResult v D t fuel a) (p := unlinkStops name) (fun _ _ => unlinkStops_congr) hD ?_ ?_ ?_ h
    (show D = [] ++ nodeCluster parent fs :: rest from hrest) (by rw [hrest] at hfuel; exact hfuel)
  · obtain ⟨t, r, ht, hloop, hresult⟩ := hround
    refine ⟨t, ht, ?_⟩
    rw [fat32VfsUnlink, hloop]
    simpa [hrest] using hresult
  · intro pre c post t buf i hvisit hs
    have hi : i < v.perCluster := by
      have hlt := (search_some hs).2.1
      omega
    obtain ⟨hdiv, hmod⟩ := position_div (k := pre.length) hi
    have hcluster : v.slotCluster D (pre.length * v.perCluster + i) = c := by
      rw [slotCluster, hdiv, getD_eq_getElem?_getD, hvisit.split]
      simp
    have hslot : direntAt buf i 0 = slot v (pre ++ c :: post) (pre.length * v.perCluster + i) 0 :=
      slot_eq_buffer h.aligned hvisit.bytes hi (by decide)
    refine ⟨_, ?_, buf, by rw [hcluster]; exact hvisit.bytes, rfl⟩
    rw [hcluster, hmod, hvisit.split, ← hslot]
    simp only [unlinkStep, if_pos hvisit.inRange, hvisit.read, hvisit.refines.perCluster, hs]
  · intro pre c post t buf hvisit hs
    simp only [unlinkStep, if_pos hvisit.inRange, hvisit.read, hvisit.refines.perCluster, hs]
    rw [← hvisit.next]
  · exact fun c t hout ht => ⟨_, if_neg hout, rfl⟩

theorem vfsFinddir_spec (hsmall : D.length * v.perCluster < uintSize) (hfuel : D.length * v.perCluster < fuel) :
    ∃ t, Refines t v ∧ fat32VfsFinddir fuel parent name fs =
      some (foundAt (nodeCluster parent fs) (slot v D) (search (unlinkStops name) (slot v D) (D.length * v.perCluster) 0), t) := by
  obtain ⟨t, hloop, hrefines⟩ := finddir_loop h hD hd hsmall (Nat.zero_add _) hfuel
  refine ⟨t, hrefines, ?_⟩
  rw [fat32VfsFinddir, if_pos h.sound.valid, hloop]

end

end

end AetherOs.Fat32
