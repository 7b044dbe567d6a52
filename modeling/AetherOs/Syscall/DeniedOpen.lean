import AetherOs.Syscall.Files

/-! # Opens that are denied -/

namespace AetherOs.Syscall

open Fs Proc

variable {v w : Vfs Ramfs} {residue path name : Name} {flags node parent : ℕ} {memory : Bool}

def contents (v : Vfs Ramfs) (node : ℕ) : List UInt8 := (v.fs.data node).take (v.nodes node).size

structure SameFiles (v w : Vfs Ramfs) : Prop where
  next : w.next = v.next
  children : w.fs.children = v.fs.children
  size : ∀ n, (w.nodes n).size = (v.nodes n).size
  contents : ∀ n, contents w n = contents v n

def lookup (residue path : Name) (v : Vfs Ramfs) : Option ℕ :=
  match (vfsResolvePath ramfsOps path v).1 with
  | some node => some node
  | none =>
    match (parentOf ramfsOps path v).1 with
    | some parent => (vfsFinddir ramfsOps parent (bufferName residue path) v).1
    | none => none

def Existing (residue path : Name) (v : Vfs Ramfs) : Prop :=
  (vfsResolvePath ramfsOps path v).1.isSome ∨
    ∃ parent, (parentOf ramfsOps path v).1 = some parent ∧
      (ramfsFinddir parent (bufferName residue path) v).isSome

def created (residue path : Name) (parent : ℕ) (v : Vfs Ramfs) : Vfs Ramfs :=
  ramfsInsert vfsFile parent (bufferName residue path) createMode v

theorem ramfsAdd_ok {mode : ℕ} (h : (ramfsAdd flags memory parent name mode v).1 = 0) :
    ((ramfsFinddir parent name v).isSome ∧ (ramfsAdd flags memory parent name mode v).2 = v) ∨
      (ramfsFinddir parent name v = none ∧
        (ramfsAdd flags memory parent name mode v).2 = ramfsInsert flags parent name mode v) := by
  rw [ramfsAdd] at h ⊢
  split
  · rename_i hfound
    exact .inl ⟨hfound, rfl⟩
  · rename_i hmissing
    rw [if_neg hmissing] at h
    refine .inr ⟨Option.not_isSome_iff_eq_none.mp hmissing, ?_⟩
    split
    · rename_i hfull
      rw [if_pos hfull] at h
      cases h
    · rename_i hroom
      rw [if_neg hroom] at h
      split
      · rfl
      · rename_i hmemory
        rw [if_neg hmemory] at h
        cases h

theorem createIn_cases (h : createIn ramfsOps memory parent name v = (some node, w)) :
    (w = v ∧ (ramfsFinddir parent name v).isSome ∧ (vfsFinddir ramfsOps parent name v).1 = some node) ∨
      (w = ramfsInsert vfsFile parent name createMode v ∧ ramfsFinddir parent name v = none ∧
        (vfsFinddir ramfsOps parent name w).1 = some node) := by
  set added := ramfsAdd vfsFile memory parent name createMode v
  have hlookup : ∀ u, vfsFinddir ramfsOps parent name u = (some node, w) →
      w = u ∧ (vfsFinddir ramfsOps parent name u).1 = some node := by
    intro u hu
    have hsame : (vfsFinddir ramfsOps parent name u).2 = u := vfsFinddir_ramfsOps
    rw [hu] at hsame
    exact ⟨hsame, by rw [hu]⟩
  rw [createIn] at h
  split at h
  · change (if added.1 = 0
      then vfsFinddir ramfsOps parent name added.2
      else (none, added.2)) = _ at h
    split_ifs at h with hok
    · rcases ramfsAdd_ok hok with ⟨hfound, hstate⟩ | ⟨hmissing, hstate⟩
      · rw [hstate] at h
        exact .inl ⟨(hlookup _ h).1, hfound, (hlookup _ h).2⟩
      · rw [hstate] at h
        obtain ⟨rfl, hfind⟩ := hlookup _ h
        exact .inr ⟨rfl, hmissing, hfind⟩
    · cases h
  · cases h

theorem openTarget_cases (h : openTarget ramfsOps memory residue path flags v = (some node, w)) :
    (w = v ∧ Existing residue path v ∧ lookup residue path v = some node) ∨
      (¬ Existing residue path v ∧ ∃ parent, (parentOf ramfsOps path v).1 = some parent ∧
        (vfsResolvePath ramfsOps path v).1 = none ∧
        w = created residue path parent v ∧
        (vfsFinddir ramfsOps parent (bufferName residue path) w).1 = some node) := by
  have hwalk : (vfsResolvePath ramfsOps path v).2 = v := vfsResolvePath_ramfsOps
  have hparent : (parentOf ramfsOps path v).2 = v := parentOf_ramfsOps
  rw [openTarget] at h
  split at h
  · rename_i n t hresolve
    obtain ⟨rfl, rfl⟩ : n = node ∧ t = w := by simpa using h
    rw [hresolve] at hwalk
    exact .inl ⟨hwalk, .inl (by rw [hresolve]; rfl), by rw [lookup, hresolve]⟩
  · rename_i t hresolve
    rw [hresolve] at hwalk
    obtain rfl : t = v := hwalk
    split at h
    · cases h
    · split at h
      · cases h
      · rename_i parent u hdir
        rw [hdir] at hparent
        obtain rfl : u = t := hparent
        rcases createIn_cases h with ⟨rfl, hfound, hfind⟩ | ⟨rfl, hmissing, hfind⟩
        · exact .inl ⟨rfl, .inr ⟨parent, by rw [hdir], hfound⟩, by rw [lookup, hresolve, hdir]; exact hfind⟩
        · refine .inr ⟨?_, parent, by rw [hdir], by rw [hresolve], rfl, hfind⟩
          rintro (hsome | ⟨parent', hdir', hfound⟩)
          · rw [hresolve] at hsome
            cases hsome
          · rw [hdir] at hdir'
            obtain rfl : parent = parent' := by simpa using hdir'
            rw [hmissing] at hfound
            cases hfound

def deniedState (flags node : ℕ) (w : Vfs Ramfs) : Vfs Ramfs := vfsClose node (openNode flags node w)

theorem sysOpen_denied {fileMemory : Bool} {s : System Ramfs}
    (h : (sysOpen ramfsOps (some path) flags residue memory fileMemory s).1 = -eacces) :
    ∃ node w, openTarget ramfsOps memory residue path flags s.vfs = (some node, w) ∧
      (sysOpen ramfsOps (some path) flags residue memory fileMemory s).2.vfs = deniedState flags node w := by
  rw [sysOpen] at h ⊢
  split at h
  · cases h
  · rename_i p hcurrent
    rw [vfsOpen] at h ⊢
    cases htarget : openTarget ramfsOps memory residue path flags s.vfs with
    | mk found w =>
      rw [htarget] at h
      cases found with
      | none => cases h
      | some node =>
        refine ⟨node, w, rfl, ?_⟩
        simp only at h ⊢
        split at h
        · rename_i hdenied
          rw [if_pos hdenied]
          rfl
        · split at h
          · rename_i fd k hfd
            have hneg : (fd : ℤ) = -eacces := h
            exact absurd (Int.natCast_nonneg fd) (by rw [hneg]; decide)
          · split at h <;> cases h

theorem size_deniedState (n : ℕ) : ((deniedState flags node w).nodes n).size =
    if n = node ∧ flags &&& oTrunc ≠ 0 ∧ (w.nodes node).isDirectory = false then 0 else (w.nodes n).size := by
  rw [deniedState, vfsClose, openNode]
  by_cases hn : n = node
  · subst hn
    simp [Vfs.setNode]
  · simp [Vfs.setNode, hn]

theorem sameFiles_deniedState : SameFiles v (deniedState flags node v) ↔
    (flags &&& oTrunc ≠ 0 → (v.nodes node).isDirectory ∨ (v.nodes node).size = 0) := by
  constructor
  · intro h htrunc
    have hsize := h.size node
    rw [size_deniedState] at hsize
    by_cases hdir : (v.nodes node).isDirectory
    · exact .inl hdir
    · rw [if_pos ⟨rfl, htrunc, Bool.eq_false_iff.mpr hdir⟩] at hsize
      exact .inr hsize.symm
  · intro h
    have hsize : ∀ n, ((deniedState flags node v).nodes n).size = (v.nodes n).size := by
      intro n
      rw [size_deniedState]
      split_ifs with hn
      · obtain ⟨rfl, htrunc, hdir⟩ := hn
        rcases h htrunc with hyes | hzero
        · rw [hdir] at hyes
          cases hyes
        · exact hzero.symm
      · rfl
    exact ⟨rfl, rfl, hsize, fun n => by rw [contents, contents, hsize n]; rfl⟩

def userKernel : Kernel :=
  { Kernel.boot with sched := { Sched.boot (fun _ => { Process.zero with euid := 1000 }) with current := some 0 } }

def motdTree : Vfs Ramfs where
  root := some 0
  nodes := fun n => if n = 0 then newChild vfsDirectory 0 [slash] 0o755
    else { newChild vfsFile 1 (ascii "motd") 0o444 with size := 5 }
  next := 2
  fs := {
    data := fun n => if n = 1 then ascii "hello" else []
    children := fun n => if n = 0 then [1] else [] }

end AetherOs.Syscall
