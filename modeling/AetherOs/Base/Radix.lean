import Mathlib.Data.List.Infix
import Mathlib.Data.Set.Insert
import Mathlib.Data.List.Nodup
import Mathlib.Data.List.Range

/-! # Radix trees stored in memory -/

namespace AetherOs.Base.Radix

open Function

section

variable {E : Type*} {child : E → Option ℕ} {null e : E} {mem mem' : ℕ → ℕ → E}
variable {root r r' t z i j : ℕ} {p q : List ℕ}

def walk (child : E → Option ℕ) (mem : ℕ → ℕ → E) (root : ℕ) : List ℕ → Option ℕ
  | [] => some root
  | i :: p => (child (mem root i)).bind fun t => walk child mem t p

def entryAt (child : E → Option ℕ) (null : E) (mem : ℕ → ℕ → E) (root : ℕ) (p : List ℕ) (i : ℕ) : E :=
  ((walk child mem root p).map fun t => mem t i).getD null

def store (mem : ℕ → ℕ → E) (t i : ℕ) (e : E) : ℕ → ℕ → E :=
  update mem t (update (mem t) i e)

def fill (mem : ℕ → ℕ → E) (t : ℕ) (e : E) : ℕ → ℕ → E := update mem t fun _ => e

@[simp] theorem store_self : store mem t i e t i = e := by simp [store]

theorem store_of_ne {s : ℕ} (h : ¬ (s = t ∧ j = i)) : store mem t i e s j = mem s j := by
  by_cases hs : s = t
  · subst hs
    simp [store, update_of_ne fun hj => h ⟨rfl, hj⟩]
  · simp [store, update_of_ne hs]

@[simp] theorem fill_self : fill mem t e t j = e := by simp [fill]

theorem fill_of_ne {s : ℕ} (h : s ≠ t) : fill mem t e s = mem s := update_of_ne h _ _

theorem walk_append : walk child mem root (p ++ q) =
    (walk child mem root p).bind fun t => walk child mem t q := by
  induction p generalizing root with
  | nil => rfl
  | cons i p ih => simp only [List.cons_append, walk, ih, Option.bind_assoc]

theorem walk_concat : walk child mem root (p ++ [i]) =
    (walk child mem root p).bind fun t => child (mem t i) := by
  simp [walk_append, walk]

theorem walk_congr (h : ∀ q i s, q ++ [i] <+: p → walk child mem root q = some s → mem' s i = mem s i) :
    walk child mem' root p = walk child mem root p := by
  induction p using List.reverseRecOn with
  | nil => rfl
  | append_singleton p i ih =>
    have hpre : walk child mem' root p = walk child mem root p :=
      ih fun q j s hq => h q j s (hq.trans (List.prefix_append p [i]))
    rw [walk_concat, walk_concat, hpre]
    cases hs : walk child mem root p with
    | none => rfl
    | some s => simp only [Option.bind_some, h p i s List.prefix_rfl hs]

theorem entryAt_of_walk (h : walk child mem root p = some t) :
    entryAt child null mem root p i = mem t i := by
  simp [entryAt, h]

theorem walk_concat_eq (hnull : child null = none) :
    walk child mem root (p ++ [i]) = child (entryAt child null mem root p i) := by
  rw [walk_concat, entryAt]
  cases walk child mem root p with
  | none => exact hnull.symm
  | some t => rfl

structure ValidPath (width depth : ℕ) (p : List ℕ) : Prop where
  length_le : p.length ≤ depth
  index_lt : ∀ i ∈ p, i < width

theorem ValidPath.nil {width depth : ℕ} : ValidPath width depth [] := ⟨by simp, by simp⟩

def Owned (own : ℕ → Prop) (p : List ℕ) : Prop := ∀ i ∈ p.head?, own i

structure Forest (child : E → Option ℕ) (mem : ℕ → ℕ → E) (width depth : ℕ) (own : ℕ → Prop)
    (roots shared : Set ℕ) : Prop where
  unique : ∀ r ∈ roots, ∀ r' ∈ roots, ∀ p q t, ValidPath width depth p → ValidPath width depth q →
    Owned own p → Owned own q → walk child mem r p = some t → walk child mem r' q = some t →
    r = r' ∧ p = q
  shared_of_walk : ∀ r ∈ roots, ∀ p t, ValidPath width depth p → ¬ Owned own p →
    walk child mem r p = some t → t ∈ shared
  not_shared : ∀ r ∈ roots, ∀ p t, ValidPath width depth p → Owned own p →
    walk child mem r p = some t → t ∉ shared

variable {width depth : ℕ} {own : ℕ → Prop} {roots shared : Set ℕ}

theorem ValidPath.initial (h : ValidPath width depth p) (hq : q <+: p) : ValidPath width depth q :=
  ⟨hq.length_le.trans h.length_le, fun i hi => h.index_lt i (hq.subset hi)⟩

def Node (child : E → Option ℕ) (mem : ℕ → ℕ → E) (width depth : ℕ) (roots : Set ℕ) (t : ℕ) : Prop :=
  ∃ r ∈ roots, ∃ p, ValidPath width depth p ∧ walk child mem r p = some t

section

variable (h : ∀ t, Node child mem width depth roots t → mem' t = mem t) (hr : r ∈ roots)
  (hp : ValidPath width depth p)

include h hr hp

theorem walk_eq_of_not_node :
    walk child mem' r p = walk child mem r p :=
  walk_congr fun q i s hq hs =>
    congrFun (h s ⟨r, hr, q, hp.initial ((List.prefix_append q [i]).trans hq), hs⟩) i

theorem entryAt_eq_of_not_node :
    entryAt child null mem' r p i = entryAt child null mem r p i := by
  rw [entryAt, entryAt, walk_eq_of_not_node h hr hp]
  cases hs : walk child mem r p with
  | none => rfl
  | some s => simp only [Option.map_some, h s ⟨r, hr, p, hp, hs⟩]

end

theorem Owned.dropLast (h : Owned own (q ++ [i])) : Owned own q := by
  cases q with
  | nil => simp [Owned]
  | cons a q => simpa [Owned] using h

theorem walk_eq_none_of_entry (ht : walk child mem r q = some t) (hnone : child (mem t i) = none)
    (hp : q ++ [i] <+: p) : walk child mem r p = none := by
  obtain ⟨rest, rfl⟩ := hp
  simp [walk_append, ht, walk, hnone]

theorem walk_of_entry_empty (ht : walk child mem r q = some t) (hz : child (mem t i) = some z)
    (hempty : ∀ j, child (mem z j) = none) (hp : q ++ [i] <+: p) :
    walk child mem r p = if p = q ++ [i] then some z else none := by
  obtain ⟨rest, rfl⟩ := hp
  cases rest with
  | nil => simp [walk_append, ht, walk, hz]
  | cons j rest => simp [walk_append, ht, walk, hz, hempty]

theorem walk_of_clear {s : ℕ} (hnull : child null = none) (h : walk child (store mem t i null) root p = some s) :
    walk child mem root p = some s := by
  induction p generalizing root with
  | nil => exact h
  | cons j p ih =>
    rw [walk] at h ⊢
    by_cases hj : root = t ∧ j = i
    · rw [hj.1, hj.2, store_self, hnull] at h
      cases h
    · rw [store_of_ne hj] at h
      cases hc : child (mem root j) with
      | none => rw [hc] at h; cases h
      | some z =>
        rw [hc] at h
        exact ih h

theorem entryAt_clear (hnull : child null = none) : entryAt child null (store mem t i null) root p j = null ∨
    entryAt child null (store mem t i null) root p j = entryAt child null mem root p j := by
  cases hwalk : walk child (store mem t i null) root p with
  | none =>
    left
    rw [entryAt, hwalk]
    rfl
  | some s =>
    rw [entryAt_of_walk hwalk, entryAt_of_walk (walk_of_clear hnull hwalk)]
    by_cases hs : s = t ∧ j = i
    · exact .inl (by rw [hs.1, hs.2, store_self])
    · exact .inr (store_of_ne hs)

namespace Forest

section

variable (h : Forest child mem width depth own roots shared)

include h

theorem walk_store_shared (ht : t ∈ shared) (hr : r ∈ roots)
    (hp : ValidPath width depth p) (hown : Owned own p) :
    walk child (store mem t i e) r p = walk child mem r p := by
  refine walk_congr fun q j s hq hs => store_of_ne fun ⟨hst, _⟩ => ?_
  have hqp : q <+: p := (List.prefix_append q [j]).trans hq
  have hqown : Owned own q := by
    obtain ⟨rest, rfl⟩ := hqp
    cases q with
    | nil => simp [Owned]
    | cons a q => simpa [Owned] using hown
  exact h.not_shared r hr q s (hp.initial hqp) hqown hs (hst ▸ ht)

theorem entryAt_store_shared (ht : t ∈ shared) (hr : r ∈ roots)
    (hp : ValidPath width depth p) (hown : Owned own p) :
    entryAt child null (store mem t i e) r p j = entryAt child null mem r p j := by
  rw [entryAt, entryAt, h.walk_store_shared ht hr hp hown]
  cases hs : walk child mem r p with
  | none => rfl
  | some s =>
    refine store_of_ne fun ⟨hst, _⟩ => ?_
    exact h.not_shared r hr p s hp hown hs (hst ▸ ht)

section

variable (hr : r ∈ roots) (hq : ValidPath width depth q) (hqo : Owned own (q ++ [i]))
  (ht : walk child mem r q = some t)

include hr hq hqo ht

theorem walk_store (hr' : r' ∈ roots) (hp : ValidPath width depth p) (hnot : ¬ (r' = r ∧ q ++ [i] <+: p)):
    walk child (store mem t i e) r' p = walk child mem r' p := by
  refine walk_congr fun q' j s hq' hs => store_of_ne fun ⟨hst, hji⟩ => hnot ?_
  subst hst hji
  have hvalid := hp.initial ((List.prefix_append q' [j]).trans hq')
  by_cases hown : Owned own q'
  · obtain ⟨rfl, rfl⟩ := h.unique r hr r' hr' q q' s hq hvalid hqo.dropLast hown ht hs
    exact ⟨rfl, hq'⟩
  · exact absurd (h.shared_of_walk r' hr' q' s hvalid hown hs)
      (h.not_shared r hr q s hq hqo.dropLast ht)

theorem walk_store_self :
    walk child (store mem t i e) r q = some t := by
  rw [h.walk_store hr hq hqo ht hr hq fun ⟨_, hle⟩ => absurd hle.length_le (by simp), ht]

theorem entryAt_store_self :
    entryAt child null (store mem t i e) r q i = e := by
  rw [entryAt_of_walk (h.walk_store_self hr hq hqo ht), store_self]

theorem entryAt_store
    (hr' : r' ∈ roots) (hp : ValidPath width depth p) (hnot : ¬ (r' = r ∧ q ++ [i] <+: p ++ [j])):
    entryAt child null (store mem t i e) r' p j = entryAt child null mem r' p j := by
  have hwalk : walk child (store mem t i e) r' p = walk child mem r' p :=
    h.walk_store hr hq hqo ht hr' hp fun ⟨hrr, hle⟩ => hnot ⟨hrr, hle.trans (List.prefix_append _ _)⟩
  rw [entryAt, entryAt, hwalk]
  cases hs : walk child mem r' p with
  | none => rfl
  | some s =>
    simp only [Option.map_some, Option.getD_some]
    refine store_of_ne fun ⟨hst, hji⟩ => hnot ?_
    subst hst hji
    by_cases hown : Owned own p
    · obtain ⟨rfl, rfl⟩ := h.unique r hr r' hr' q p s hq hp hqo.dropLast hown ht hs
      exact ⟨rfl, List.prefix_rfl⟩
    · exact absurd (h.shared_of_walk r' hr' p s hp hown hs)
        (h.not_shared r hr q s hq hqo.dropLast ht)

end

end

theorem of_walk (r₀ : ℕ) (p₀ : List ℕ) (h : Forest child mem width depth own roots shared)
    (hz : ¬ Node child mem width depth roots z) (hzs : z ∉ shared) (hp₀ : Owned own p₀)
    (hwalk : ∀ r ∈ roots, ∀ p, ValidPath width depth p → ∀ t, walk child mem' r p = some t →
      walk child mem r p = some t ∨ (r = r₀ ∧ p = p₀ ∧ t = z)) :
    Forest child mem' width depth own roots shared where
  unique := fun r hr r' hr' p q t hp hq hpo hqo hpt hqt => by
    rcases hwalk r hr p hp t hpt with hpt | ⟨rfl, rfl, rfl⟩ <;>
      rcases hwalk r' hr' q hq t hqt with hqt | ⟨rfl, rfl, htz⟩
    · exact h.unique r hr r' hr' p q t hp hq hpo hqo hpt hqt
    · exact absurd ⟨r, hr, p, hp, htz ▸ hpt⟩ hz
    · exact absurd ⟨r', hr', q, hq, hqt⟩ hz
    · exact ⟨rfl, rfl⟩
  shared_of_walk := fun r hr p t hp hpo hpt => by
    rcases hwalk r hr p hp t hpt with hpt | ⟨_, rfl, _⟩
    · exact h.shared_of_walk r hr p t hp hpo hpt
    · exact absurd hp₀ hpo
  not_shared := fun r hr p t hp hpo hpt => by
    rcases hwalk r hr p hp t hpt with hpt | ⟨_, _, rfl⟩
    · exact h.not_shared r hr p t hp hpo hpt
    · exact hzs

section

variable (h : Forest child mem width depth own roots shared)

include h

theorem mono (hwalk : ∀ r ∈ roots, ∀ p, ValidPath width depth p → ∀ t, walk child mem' r p = some t →
      walk child mem r p = some t) :
    Forest child mem' width depth own roots shared where
  unique := fun r hr r' hr' p q t hp hq hpo hqo hpt hqt =>
    h.unique r hr r' hr' p q t hp hq hpo hqo (hwalk r hr p hp t hpt) (hwalk r' hr' q hq t hqt)
  shared_of_walk := fun r hr p t hp hpo hpt =>
    h.shared_of_walk r hr p t hp hpo (hwalk r hr p hp t hpt)
  not_shared := fun r hr p t hp hpo hpt => h.not_shared r hr p t hp hpo (hwalk r hr p hp t hpt)

theorem subset {roots' : Set ℕ} (hsub : roots' ⊆ roots): Forest child mem width depth own roots' shared :=
  ⟨fun r hr r' hr' => h.unique r (hsub hr) r' (hsub hr'),
    fun r hr => h.shared_of_walk r (hsub hr), fun r hr => h.not_shared r (hsub hr)⟩

section

variable (hr : r ∈ roots) (hq : ValidPath width depth q)

include hr hq

theorem cut (hqo : Owned own (q ++ [i])) (ht : walk child mem r q = some t) (he : child e = none): Forest child (store mem t i e) width depth own roots shared := by
  refine h.mono fun r' hr' p hp s hs => ?_
  by_cases hthrough : r' = r ∧ q ++ [i] <+: p
  · obtain ⟨rfl, hpre⟩ := hthrough
    have hself := h.walk_store_self (e := e) hr hq hqo ht
    rw [walk_eq_none_of_entry hself (by rw [store_self]; exact he) hpre] at hs
    cases hs
  · rwa [h.walk_store hr hq hqo ht hr' hp hthrough] at hs

section

variable (hlen : q.length = depth) (hqo : Owned own (q ++ [i])) (ht : walk child mem r q = some t)
include hlen hqo ht

theorem walk_leaf (hr' : r' ∈ roots) (hp : ValidPath width depth p) :
    walk child (store mem t i e) r' p = walk child mem r' p := by
  refine h.walk_store hr hq hqo ht hr' hp fun ⟨_, hle⟩ => ?_
  have := hle.length_le
  have := hp.length_le
  simp only [List.length_append, List.length_singleton] at *
  omega

theorem entryAt_leaf (hr' : r' ∈ roots) (hp : ValidPath width depth p) :
    entryAt child null (store mem t i e) r' p j =
      if r' = r ∧ p = q ∧ j = i then e else entryAt child null mem r' p j := by
  split
  · rename_i heq
    obtain ⟨rfl, rfl, rfl⟩ := heq
    exact h.entryAt_store_self hr hq hqo ht
  · rename_i hne
    refine h.entryAt_store hr hq hqo ht hr' hp fun ⟨hrr, hle⟩ => hne ?_
    have hp' := hp.length_le
    have heq : q ++ [i] = p ++ [j] := hle.eq_of_length_le (by simp; omega)
    obtain ⟨rfl, hij⟩ := List.append_inj' heq rfl
    exact ⟨hrr, rfl, (List.singleton_injective hij).symm⟩

theorem leaf: Forest child (store mem t i e) width depth own roots shared :=
  h.mono fun r' hr' p hp _ hs => by rwa [h.walk_leaf hr hq hlen hqo ht hr' hp] at hs

end

end

end

end Forest

structure Links (child : E → Option ℕ) (null : E) (mem : ℕ → ℕ → E) (width depth : ℕ)
    (own : ℕ → Prop) (roots shared : Set ℕ) (r : ℕ) (q : List ℕ) (t i z : ℕ) (e : E) : Prop where
  forest : Forest child mem width depth own roots shared
  root_mem : r ∈ roots
  valid : ValidPath width depth (q ++ [i])
  owned : Owned own (q ++ [i])
  table : walk child mem r q = some t
  absent : child (mem t i) = none
  fresh : ¬ Node child mem width depth roots z
  not_shared : z ∉ shared
  null_child : child null = none
  points : child e = some z

namespace Links

section

variable (h : Links child null mem width depth own roots shared r q t i z e)

include h

theorem valid_table :
    ValidPath width depth q := h.valid.initial (List.prefix_append _ _)

theorem ne : z ≠ t := by
  rintro rfl
  exact h.fresh ⟨r, h.root_mem, q, h.valid_table, h.table⟩

theorem fill_eq :
    ∀ s, Node child mem width depth roots s → fill mem z null s = mem s := fun _ hs =>
  fill_of_ne fun heq => h.fresh (heq ▸ hs)

theorem filled :
    Forest child (fill mem z null) width depth own roots shared :=
  h.forest.mono fun r' hr' p hp _ hs => by rwa [walk_eq_of_not_node h.fill_eq hr' hp] at hs

theorem walk_eq (hr' : r' ∈ roots) (hp : ValidPath width depth p):
    walk child (store (fill mem z null) t i e) r' p =
      if r' = r ∧ p = q ++ [i] then some z else walk child mem r' p := by
  have htable : walk child (fill mem z null) r q = some t := by
    rw [walk_eq_of_not_node h.fill_eq h.root_mem h.valid_table, h.table]
  by_cases hthrough : r' = r ∧ q ++ [i] <+: p
  · obtain ⟨rfl, hpre⟩ := hthrough
    have hself := h.filled.walk_store_self (e := e) h.root_mem h.valid_table h.owned htable
    rw [walk_of_entry_empty hself (z := z) (by rw [store_self]; exact h.points) (fun j => ?_) hpre]
    · rw [walk_eq_none_of_entry h.table h.absent hpre]
      simp
    · rw [store_of_ne fun ⟨hzt, _⟩ => h.ne hzt, fill_self]
      exact h.null_child
  · rw [h.filled.walk_store h.root_mem h.valid_table h.owned htable hr' hp hthrough,
      walk_eq_of_not_node h.fill_eq hr' hp, if_neg]
    rintro ⟨rfl, rfl⟩
    exact hthrough ⟨rfl, List.prefix_rfl⟩

theorem entryAt_eq (hr' : r' ∈ roots) (hp : ValidPath width depth p):
    entryAt child null (store (fill mem z null) t i e) r' p j =
      if r' = r ∧ p = q ∧ j = i then e else entryAt child null mem r' p j := by
  have htable : walk child (fill mem z null) r q = some t := by
    rw [walk_eq_of_not_node h.fill_eq h.root_mem h.valid_table, h.table]
  by_cases hnew : r' = r ∧ p = q ++ [i]
  · obtain ⟨rfl, rfl⟩ := hnew
    have hold := walk_eq_none_of_entry h.table h.absent (List.prefix_rfl (l := q ++ [i]))
    rw [if_neg (by simp), entryAt, entryAt, h.walk_eq hr' hp, if_pos ⟨rfl, rfl⟩, hold]
    simp [store_of_ne fun hzt : z = t ∧ j = i => h.ne hzt.1]
  split
  · rename_i heq
    obtain ⟨rfl, rfl, rfl⟩ := heq
    exact h.filled.entryAt_store_self h.root_mem h.valid_table h.owned htable
  · rename_i hne
    by_cases hthrough : r' = r ∧ q ++ [i] <+: p ++ [j]
    · obtain ⟨rfl, hpre⟩ := hthrough
      have hp' : q ++ [i] <+: p := by
        rcases List.prefix_concat_iff.mp hpre with heq | hle
        · obtain ⟨rfl, hij⟩ := List.append_inj' heq rfl
          exact absurd ⟨rfl, rfl, (List.singleton_injective hij).symm⟩ hne
        · exact hle
      rw [entryAt, entryAt, h.walk_eq hr' hp, if_neg hnew,
        walk_eq_none_of_entry h.table h.absent hp']
      rfl
    · rw [h.filled.entryAt_store h.root_mem h.valid_table h.owned htable hr' hp hthrough,
        entryAt_eq_of_not_node h.fill_eq hr' hp]

theorem linked :
    Forest child (store (fill mem z null) t i e) width depth own roots shared := by
  refine h.forest.of_walk (z := z) r (q ++ [i]) h.fresh h.not_shared h.owned
    fun r' hr' p hp s hs => ?_
  rw [h.walk_eq hr' hp] at hs
  split_ifs at hs with heq
  · exact .inr ⟨heq.1, heq.2, (Option.some.inj hs).symm⟩
  · exact .inl hs

end

end Links

end

/-! ## The tables of a tree in postorder -/

section

variable {E : Type*} {child : E → Option ℕ} {mem : ℕ → ℕ → E} {width d t i : ℕ} {p : List ℕ} {v : List ℕ × ℕ}

def visitEntry (child : E → Option ℕ) (mem : ℕ → ℕ → E) (below : List ℕ → ℕ → List (List ℕ × ℕ)) (p : List ℕ)
    (t i : ℕ) : List (List ℕ × ℕ) :=
  ((child (mem t i)).map fun z => below (p ++ [i]) z ++ [(p ++ [i], z)]).getD []

def postorder (child : E → Option ℕ) (mem : ℕ → ℕ → E) (width : ℕ) : ℕ → List ℕ → ℕ → List (List ℕ × ℕ)
  | 0, _, _ => []
  | d + 1, p, t => (List.range width).flatMap (visitEntry child mem (postorder child mem width d) p t)

theorem mem_visitEntry
    (hbelow : ∀ p t, v ∈ postorder child mem width d p t ↔
      ∃ rest, rest ≠ [] ∧ ValidPath width d rest ∧ v.1 = p ++ rest ∧ walk child mem t rest = some v.2) :
    v ∈ visitEntry child mem (postorder child mem width d) p t i ↔
      ∃ rest, ValidPath width d rest ∧ v.1 = p ++ i :: rest ∧ walk child mem t (i :: rest) = some v.2 := by
  rw [visitEntry]
  cases hchild : child (mem t i) with
  | none => simp [walk, hchild]
  | some z =>
    simp only [Option.map_some, Option.getD_some, List.mem_append, List.mem_singleton, hbelow, walk, hchild,
      Option.bind_some]
    constructor
    · rintro (⟨rest, -, hvalid, hpath, hwalk⟩ | rfl)
      · exact ⟨rest, hvalid, by simpa using hpath, hwalk⟩
      · exact ⟨[], ⟨Nat.zero_le d, by simp⟩, rfl, rfl⟩
    · rintro ⟨rest, hvalid, hpath, hwalk⟩
      cases rest with
      | nil =>
        obtain ⟨q, x⟩ := v
        exact .inr (Prod.ext hpath (Option.some.inj hwalk).symm)
      | cons j rest => exact .inl ⟨j :: rest, List.cons_ne_nil j rest, hvalid, by simpa using hpath, hwalk⟩

theorem mem_postorder : v ∈ postorder child mem width d p t ↔
    ∃ rest, rest ≠ [] ∧ ValidPath width d rest ∧ v.1 = p ++ rest ∧ walk child mem t rest = some v.2 := by
  induction d generalizing p t with
  | zero =>
    refine iff_of_false List.not_mem_nil ?_
    rintro ⟨rest, hne, hvalid, -⟩
    exact hne (List.length_eq_zero_iff.mp (Nat.le_zero.mp hvalid.length_le))
  | succ d ih =>
    rw [postorder, List.mem_flatMap]
    constructor
    · rintro ⟨i, hi, hv⟩
      obtain ⟨rest, hvalid, hpath, hwalk⟩ := (mem_visitEntry fun _ _ => ih).mp hv
      refine ⟨i :: rest, List.cons_ne_nil i rest, ⟨?_, ?_⟩, hpath, hwalk⟩
      · exact Nat.succ_le_succ hvalid.length_le
      · exact List.forall_mem_cons.mpr ⟨List.mem_range.mp hi, hvalid.index_lt⟩
    · rintro ⟨rest, hne, hvalid, hpath, hwalk⟩
      cases rest with
      | nil => exact absurd rfl hne
      | cons i rest =>
        obtain ⟨hi, hrest⟩ := List.forall_mem_cons.mp hvalid.index_lt
        exact ⟨i, List.mem_range.mpr hi,
          (mem_visitEntry fun _ _ => ih).mpr ⟨rest, ⟨Nat.le_of_succ_le_succ hvalid.length_le, hrest⟩, hpath, hwalk⟩⟩

theorem mem_visitEntry_postorder : v ∈ visitEntry child mem (postorder child mem width d) p t i ↔
    ∃ rest, ValidPath width d rest ∧ v.1 = p ++ i :: rest ∧ walk child mem t (i :: rest) = some v.2 :=
  mem_visitEntry fun _ _ => mem_postorder

theorem disjoint_visitEntry {j : ℕ} (hne : i ≠ j) :
    List.Disjoint ((visitEntry child mem (postorder child mem width d) p t i).map Prod.fst)
      ((visitEntry child mem (postorder child mem width d) p t j).map Prod.fst) := by
  intro q hi hj
  obtain ⟨v, hv, rfl⟩ := List.mem_map.mp hi
  obtain ⟨v', hv', heq⟩ := List.mem_map.mp hj
  obtain ⟨rest, -, hpath, -⟩ := mem_visitEntry_postorder.mp hv
  obtain ⟨rest', -, hpath', -⟩ := mem_visitEntry_postorder.mp hv'
  rw [hpath, hpath'] at heq
  exact hne (List.cons.inj (List.append_cancel_left heq)).1.symm

theorem nodup_visitEntry (hbelow : ∀ p z, ((postorder child mem width d p z).map Prod.fst).Nodup) :
    ((visitEntry child mem (postorder child mem width d) p t i).map Prod.fst).Nodup := by
  rw [visitEntry]
  cases child (mem t i) with
  | none => exact List.nodup_nil
  | some z =>
    simp only [Option.map_some, Option.getD_some, List.map_append, List.map_cons, List.map_nil]
    refine List.Nodup.append (hbelow _ z) (List.nodup_singleton _) ?_
    rw [List.disjoint_singleton]
    intro hmem
    obtain ⟨v, hv, heq⟩ := List.mem_map.mp hmem
    obtain ⟨rest, hne, -, hpath, -⟩ := mem_postorder.mp hv
    rw [hpath] at heq
    exact hne (List.append_right_eq_self.mp heq)

theorem nodup_postorder : ((postorder child mem width d p t).map Prod.fst).Nodup := by
  induction d generalizing p t with
  | zero => exact List.nodup_nil
  | succ d ih =>
    rw [postorder, List.map_flatMap, List.nodup_flatMap]
    exact ⟨fun i _ => nodup_visitEntry fun _ _ => ih,
      List.nodup_range.imp fun hne => disjoint_visitEntry hne⟩

end

end AetherOs.Base.Radix
