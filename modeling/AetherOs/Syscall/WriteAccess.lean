import AetherOs.Proc.ReadyQueue
import AetherOs.Syscall.DeniedOpen

/-! # Files that a process may not write -/

namespace AetherOs.Syscall

open Base Fs Proc Function List Option

def NoDescriptor (f p : ℕ) (k : Kernel) : Prop :=
  ∀ fd file, ((k.proc p).fds fd).file = some file → (k.files file).node ≠ f

def Grown (v : Vfs Ramfs) : Prop := ∀ n, ∀ c ∈ v.fs.children n, c < v.next

def Careful (f : ℕ) (s : System Ramfs) : FileCall → Prop
  | .open (some path) flags residue _ _ => lookup residue path s.vfs = some f →
      flags &&& oTrunc = 0 ∧ (flags &&& 3 = oWronly ∨ flags &&& 3 = oRdwr ∨ flags &&& oCreat ≠ 0)
  | .write fd (some buf) _ => ∀ p, s.kernel.sched.current = some p →
      ((s.kernel.proc p).fds fd).offset + buf.length < wordSize
  | _ => True

structure Barred (f p euid egid : ℕ) (k : Kernel) : Prop where
  current : k.sched.current = some p
  euid : (k.proc p).euid = euid
  egid : (k.proc p).egid = egid
  shut : NoDescriptor f p k

structure Kept (f : ℕ) (n : VfsNode) (data : List UInt8) (v : Vfs Ramfs) : Prop where
  lt : f < v.next
  grown : Grown v
  mode : (v.nodes f).mode = n.mode
  uid : (v.nodes f).uid = n.uid
  gid : (v.nodes f).gid = n.gid
  size : (v.nodes f).size = n.size
  data : v.fs.data f = data

variable {f p euid egid fd node : ℕ} {k : Kernel} {entry : FdEntry} {n : VfsNode} {data : List UInt8}
  {v w : Vfs Ramfs} {s s' : System Ramfs} {path residue name : Name} {flags parent : ℕ} {memory : Bool}

namespace Barred

theorem setFd (h : Barred f p euid egid k)
    (hentry : ∀ file, entry.file = some file → (k.files file).node ≠ f) :
    Barred f p euid egid (k.setFd p fd entry) := by
  have hproc : (k.setFd p fd entry).proc p = { k.proc p with fds := update (k.proc p).fds fd entry } := by
    change (Proc.setProc p _ k.sched).procs p = _
    rw [procs_setProc, if_pos rfl]
  refine ⟨h.current, by rw [hproc]; exact h.euid, by rw [hproc]; exact h.egid, fun e file hfile => ?_⟩
  rw [hproc] at hfile
  by_cases he : e = fd
  · subst he
    exact hentry file (by simpa using hfile)
  · exact h.shut e file (by simpa [he] using hfile)

theorem setFiles (h : Barred f p euid egid k) {files : ℕ → File} {nextFile : ℕ} {closes : ℕ → ℕ}
    (hfiles : ∀ file, (k.files file).node ≠ f → (files file).node ≠ f) :
    Barred f p euid egid { k with files := files, nextFile := nextFile, closes := closes } :=
  ⟨h.current, h.euid, h.egid, fun e file hfile => hfiles file (h.shut e file hfile)⟩

theorem setOffset (h : Barred f p euid egid s.kernel) (offset : ℕ) :
    Barred f p euid egid (setOffset p fd offset s).kernel :=
  h.setFd fun file hfile => h.shut fd file hfile

theorem advance (h : Barred f p euid egid s.kernel) (result : ℤ) :
    Barred f p euid egid (advance p fd result s).kernel := by
  rw [Syscall.advance]
  split
  · exact h.setOffset _
  · exact h

section

variable (h : Barred f p euid egid k)

include h

theorem close : Barred f p euid egid (fdClose p fd k) := by
  rw [fdClose]
  split
  · exact h
  · split
    · exact h
    · exact (h.setFd fun _ hfile => absurd hfile.symm (some_ne_none _)).setFiles fun _ hne => hne

theorem share {newFd : ℕ} : Barred f p euid egid (fdShare p fd newFd k) := by
  rw [fdShare]
  split
  · exact h
  · rename_i file hfile
    refine (h.setFd fun file' hfile' => h.shut fd file' hfile').setFiles fun file' hne => ?_
    by_cases heq : file' = file
    · subst heq
      rw [update_self]
      exact hne
    · rw [update_of_ne heq]
      exact hne

theorem dup : Barred f p euid egid (fdDup p fd k).2 := by
  rw [fdDup]
  split
  · exact h
  · split
    · exact h
    · split
      · exact h
      · exact h.share

theorem dup2 {newFd : ℕ} : Barred f p euid egid (fdDup2 p fd newFd k).2 := by
  rw [fdDup2]
  split
  · exact h
  · split
    · exact h
    · split
      · exact h
      · exact h.close.share

theorem open_ (hne : node ≠ f) : Barred f p euid egid (fdOpen p node flags memory k).2 := by
  rw [fdOpen]
  split
  · exact h
  · split
    · have hfiles : Barred f p euid egid { k with
          files := update k.files k.nextFile ⟨node, 0, flags, 1⟩ } := by
        refine h.setFiles fun file hfile => ?_
        by_cases heq : file = k.nextFile
        · subst heq
          rw [update_self]
          exact hne
        · rw [update_of_ne heq]
          exact hfile
      refine (hfiles.setFd fun file hfile => ?_).setFiles fun _ hfile => hfile
      obtain rfl := some.inj hfile
      change (update k.files k.nextFile ⟨node, 0, flags, 1⟩ k.nextFile).node ≠ f
      rw [update_self]
      exact hne
    · exact h

end

end Barred

namespace Kept

section

variable (h : Kept f n data v)

include h

theorem setNode {m : VfsNode} (hm : node = f → m.mode = (v.nodes f).mode ∧
    m.uid = (v.nodes f).uid ∧ m.gid = (v.nodes f).gid ∧ m.size = (v.nodes f).size) :
    Kept f n data (v.setNode node m) := by
  by_cases heq : node = f
  · subst heq
    obtain ⟨hmode, huid, hgid, hsize⟩ := hm rfl
    refine ⟨h.lt, h.grown, ?_, ?_, ?_, ?_, h.data⟩ <;> simp only [Vfs.setNode, update_self]
    · exact hmode.trans h.mode
    · exact huid.trans h.uid
    · exact hgid.trans h.gid
    · exact hsize.trans h.size
  · have hsame : (v.setNode node m).nodes f = v.nodes f := update_of_ne (Ne.symm heq) _ _
    exact ⟨h.lt, h.grown, by rw [hsame, h.mode], by rw [hsame, h.uid], by rw [hsame, h.gid],
      by rw [hsame, h.size], h.data⟩

theorem close : Kept f n data (vfsClose node v) :=
  h.setNode fun heq => by subst heq; exact ⟨rfl, rfl, rfl, rfl⟩

theorem openNode (htrunc : node = f → flags &&& oTrunc = 0) :
    Kept f n data (openNode flags node v) := by
  refine h.setNode fun heq => ?_
  have hzero := htrunc heq
  subst heq
  exact ⟨rfl, rfl, rfl, if_neg fun hbad => hbad.1 hzero⟩

theorem insert {mode : ℕ} : Kept f n data (ramfsInsert flags parent name mode v) := by
  have hne : f ≠ v.next := Nat.ne_of_lt h.lt
  have hnode : (ramfsInsert flags parent name mode v).nodes f = v.nodes f := update_of_ne hne _ _
  refine ⟨h.lt.trans (Nat.lt_succ_self _), fun m c hc => ?_, by rw [hnode, h.mode], by rw [hnode, h.uid],
    by rw [hnode, h.gid], by rw [hnode, h.size], (update_of_ne hne _ _).trans h.data⟩
  have hold : ∀ m, ∀ c ∈ v.fs.children m, c < v.next + 1 := fun m c hc => (h.grown m c hc).trans (Nat.lt_succ_self _)
  change c ∈ update (update v.fs.children v.next []) parent
    (v.fs.children parent ++ [v.next]) m at hc
  by_cases hm : m = parent
  · subst hm
    rw [update_self] at hc
    rcases mem_append.mp hc with hc | hc
    · exact hold m c hc
    · rw [mem_singleton.mp hc]
      exact Nat.lt_succ_self _
  · rw [update_of_ne hm] at hc
    by_cases hm' : m = v.next
    · subst hm'
      rw [update_self] at hc
      exact absurd hc not_mem_nil
    · rw [update_of_ne hm'] at hc
      exact hold m c hc

theorem write {offset : ℕ} {buf : List UInt8} {r : ℤ} (hne : node ≠ f)
    (hwrite : ramfsWrite memory node offset buf v = some (r, w)) : Kept f n data w := by
  rw [ramfsWrite] at hwrite
  split at hwrite
  · obtain ⟨-, rfl⟩ : -enomem = r ∧ v = w := by simpa using hwrite
    exact h
  · split at hwrite
    · obtain ⟨-, rfl⟩ : toSsize buf.length = r ∧ storeAt node offset buf v = w := by simpa using hwrite
      have hnode : Kept f n data (v.setNode node { v.nodes node with
          size := max (v.nodes node).size (addWord offset buf.length) }) := h.setNode fun hbad => absurd hbad hne
      exact ⟨hnode.lt, hnode.grown, hnode.mode, hnode.uid, hnode.gid, hnode.size,
        (update_of_ne (Ne.symm hne) _ _).trans hnode.data⟩
    · cases hwrite

theorem openTarget :
    Kept f n data (openTarget ramfsOps memory residue path flags v).2 := by
  have hwalk : (vfsResolvePath ramfsOps path v).2 = v := vfsResolvePath_ramfsOps
  have hparent : (parentOf ramfsOps path v).2 = v := parentOf_ramfsOps
  rw [Fs.openTarget]
  split
  · rename_i node t hresolve
    rw [hresolve] at hwalk
    obtain rfl : t = v := hwalk
    exact h
  · rename_i t hresolve
    rw [hresolve] at hwalk
    obtain rfl : t = v := hwalk
    split
    · exact h
    · split
      · rename_i u hdir
        rw [hdir] at hparent
        obtain rfl : u = t := hparent
        exact h
      · rename_i parent u hdir
        rw [hdir] at hparent
        obtain rfl : u = t := hparent
        have hadd : Kept f n data (ramfsAdd vfsFile memory parent (bufferName residue path) createMode u).2 := by
          rw [ramfsAdd]
          split
          · exact h
          · split
            · exact h
            · split
              · exact h.insert
              · exact h
        rw [createIn]
        split
        · change Kept f n data (if (ramfsAdd vfsFile memory parent _ createMode u).1 = 0 then _ else _ : _ × _).2
          split
          · rw [vfsFinddir_ramfsOps]
            exact hadd
          · exact hadd
        · exact h

end

end Kept

theorem ramfsFinddir_congr (hchildren : w.fs.children node = v.fs.children node)
    (hnames : ∀ c ∈ v.fs.children node, (w.nodes c).name = (v.nodes c).name) :
    ramfsFinddir node name w = ramfsFinddir node name v := by
  rw [ramfsFinddir, ramfsFinddir, hchildren]
  generalize v.fs.children node = l at hnames
  induction l with
  | nil => rfl
  | cons c l ih =>
    rw [List.find?_cons, List.find?_cons, hnames c mem_cons_self, ih fun c hc => hnames c (mem_cons_of_mem _ hc)]

theorem vfsFinddir_created (hgrown : Grown v) (hmissing : ramfsFinddir parent name v = none)
    (hfind : (vfsFinddir ramfsOps parent name (ramfsInsert vfsFile parent name createMode v)).1 = some f)
    (hlt : f < v.next) : (vfsFinddir ramfsOps parent name v).1 = some f := by
  set w := ramfsInsert vfsFile parent name createMode v
  have hnode : ∀ m, m ≠ v.next → w.nodes m = v.nodes m :=
    fun m hm => update_of_ne hm _ _
  have hnew : (w.nodes v.next).isDirectory = false := by
    change VfsNode.isDirectory (update v.nodes v.next _ v.next) = false
    rw [update_self]
    change decide (vfsFile &&& vfsDirectory ≠ 0) = false
    decide
  have hnames : ∀ m, ∀ c ∈ v.fs.children m,
      (w.nodes c).name = (v.nodes c).name :=
    fun m c hc => by rw [hnode c (Nat.ne_of_lt (hgrown m c hc))]
  rw [vfsFinddir] at hfind
  split at hfind
  · rename_i hdir
    -- Neither the parent nor what is mounted on it is the new file, which is no directory.
    have hparent : parent ≠ v.next := by
      rintro rfl
      have hentered : Vfs.entered v.next (ramfsInsert vfsFile v.next name createMode v) = v.next := by
        change (update v.nodes v.next _ v.next).mount.getD v.next = v.next
        rw [update_self]
        rfl
      rw [hentered, hnew] at hdir
      cases hdir
    have hentered : Vfs.entered parent w = v.entered parent := by
      rw [Vfs.entered, hnode parent hparent, Vfs.entered]
    rw [hentered] at hdir hfind
    have hother : v.entered parent ≠ v.next := by
      intro heq
      rw [heq, hnew] at hdir
      cases hdir
    rw [hnode _ hother] at hdir
    rw [vfsFinddir, if_pos hdir]
    change ramfsFinddir _ _ _ = some f at hfind ⊢
    by_cases hmount : v.entered parent = parent
    · rw [hmount, ramfsFinddir] at hfind
      have hchildren : w.fs.children parent =
          v.fs.children parent ++ [v.next] := update_self _ _ _
      have hold : (v.fs.children parent).find? (fun child =>
          (w.nodes child).name = name) = none :=
        List.find?_eq_none.mpr fun c hc => by
          rw [hnames parent c hc]
          exact List.find?_eq_none.mp hmissing c hc
      rw [hchildren, List.find?_append, hold, none_or] at hfind
      have hmem := mem_singleton.mp (mem_of_find?_eq_some hfind)
      omega
    · have hchildren : w.fs.children (v.entered parent) =
          v.fs.children (v.entered parent) :=
        (update_of_ne hmount _ _).trans (update_of_ne hother _ _)
      rw [← ramfsFinddir_congr hchildren (hnames _)]
      exact hfind
  · cases hfind

theorem lookup_of_openTarget (hgrown : Grown v) (hlt : f < v.next)
    (h : openTarget ramfsOps memory residue path flags v = (some f, w)) : lookup residue path v = some f := by
  rcases openTarget_cases h with ⟨rfl, -, hlookup⟩ | ⟨hmissing, parent, hparent, hresolve, rfl, hfind⟩
  · exact hlookup
  · have hnone : ramfsFinddir parent (bufferName residue path) v = none :=
      not_isSome_iff_eq_none.mp fun hsome => hmissing (.inr ⟨parent, hparent, hsome⟩)
    rw [lookup, hresolve]
    simp only [hparent]
    exact vfsFinddir_created hgrown hnone hfind hlt

theorem vfsCheckAccess_denied {proc : Process} {mask : ℕ}
    (h : vfsCheckAccess (some proc) n accessW = -eacces) (hmask : mask &&& accessW = accessW) :
    vfsCheckAccess (some proc) n mask = -eacces := by
  simp only [vfsCheckAccess] at h ⊢
  split at h
  · cases h
  · rename_i hroot
    split at h
    · cases h
    · rename_i hmode
      split at h
      · rename_i hbits
        rw [if_neg hroot, if_neg hmode, if_pos]
        intro hall
        apply hbits
        calc effectiveBits proc n &&& accessW
            = effectiveBits proc n &&& mask &&& accessW := by rw [Nat.and_assoc, hmask]
          _ = accessW := by rw [hall, hmask]
      · cases h

theorem neededAccess_write (h : flags &&& 3 = oWronly ∨ flags &&& 3 = oRdwr ∨ flags &&& oCreat ≠ 0) :
    neededAccess flags &&& accessW = accessW := by
  rcases h with h | h | h
  · rw [neededAccess, h]
    by_cases hcreat : flags &&& oCreat ≠ 0
    · rw [if_pos hcreat]
      decide
    · rw [if_neg hcreat]
      decide
  · rw [neededAccess, h]
    by_cases hcreat : flags &&& oCreat ≠ 0
    · rw [if_pos hcreat]
      decide
    · rw [if_neg hcreat]
      decide
  · rw [neededAccess, if_pos h]
    split <;> split <;> decide

structure Shielded (f p euid egid : ℕ) (n : VfsNode) (data : List UInt8) (s : System Ramfs) : Prop where
  barred : Barred f p euid egid s.kernel
  kept : Kept f n data s.vfs
  denied : vfsCheckAccess (some { Process.zero with euid := euid, egid := egid }) n accessW = -eacces

theorem vfsCheckAccess_congr {proc proc' : Process} {m : VfsNode} {mask : ℕ} (heuid : proc.euid = proc'.euid)
    (hegid : proc.egid = proc'.egid) (hmode : n.mode = m.mode) (huid : n.uid = m.uid) (hgid : n.gid = m.gid) :
    vfsCheckAccess (some proc) n mask = vfsCheckAccess (some proc') m mask := by
  have hbits : effectiveBits proc n = effectiveBits proc' m := by
    rw [effectiveBits, effectiveBits, heuid, hegid, hmode, huid, hgid]
  simp only [vfsCheckAccess]
  rw [heuid, hmode, hbits]

namespace Shielded

section

variable (h : Shielded f p euid egid n data s)

include h

theorem denied_here {mask : ℕ} (hmask : mask &&& accessW = accessW) (hkept : Kept f n data v): vfsCheckAccess (some (s.kernel.proc p)) (v.nodes f) mask = -eacces := by
  have hsame : vfsCheckAccess (some (s.kernel.proc p)) (v.nodes f) mask =
      vfsCheckAccess (some { Process.zero with euid := euid, egid := egid }) n mask :=
    vfsCheckAccess_congr h.barred.euid h.barred.egid hkept.mode hkept.uid hkept.gid
  rw [hsame]
  exact vfsCheckAccess_denied h.denied hmask

theorem open_ {path : Option Name} {fileMemory : Bool}
    (hok : Careful f s (.open path flags residue memory fileMemory)) :
    Shielded f p euid egid n data (sysOpen ramfsOps path flags residue memory fileMemory s).2 := by
  cases path with
  | none => exact h
  | some path =>
    simp only [sysOpen, h.barred.current, vfsOpen]
    have htarget : Kept f n data (openTarget ramfsOps memory residue path flags s.vfs).2 := h.kept.openTarget
    cases hfound : openTarget ramfsOps memory residue path flags s.vfs with
    | mk found w =>
      rw [hfound] at htarget
      cases found with
      | none => exact ⟨h.barred, htarget, h.denied⟩
      | some node =>
        have hflags : node = f → flags &&& oTrunc = 0 ∧
            (flags &&& 3 = oWronly ∨ flags &&& 3 = oRdwr ∨ flags &&& oCreat ≠ 0) := by
          rintro rfl
          exact hok (lookup_of_openTarget h.kept.grown h.kept.lt hfound)
        have hopen : Kept f n data (openNode flags node w) := htarget.openNode fun heq => (hflags heq).1
        have hclosed : Shielded f p euid egid n data { s with vfs := vfsClose node (openNode flags node w) } :=
          ⟨h.barred, hopen.close, h.denied⟩
        simp only
        split
        · exact hclosed
        · rename_i hallowed
          have hne : node ≠ f := by
            rintro rfl
            refine hallowed ?_
            rw [h.denied_here (neededAccess_write (hflags rfl).2) hopen]
            decide
          have hfd : Barred f p euid egid (fdOpen p node flags fileMemory s.kernel).2 := h.barred.open_ hne
          split
          · rename_i fd k hnew
            rw [hnew] at hfd
            exact ⟨hfd, hopen, h.denied⟩
          · exact hclosed

theorem openFile_ne {q file : ℕ} (hopen : openFile fd s = some (q, file)) :
    q = p ∧ (s.kernel.files file).node ≠ f := by
  simp only [openFile, h.barred.current] at hopen
  split at hopen
  · cases hopen
  · obtain ⟨file', hfile, heq⟩ := map_eq_some_iff.mp hopen
    obtain ⟨rfl, rfl⟩ := Prod.mk.inj heq
    exact ⟨rfl, h.barred.shut fd file' hfile⟩

theorem write {buf : Option (List UInt8)} (hstep : FileStep ramfsOps s (.write fd buf memory) s'): Shielded f p euid egid n data s' := by
  obtain ⟨⟨r, t⟩, hwrite, rfl⟩ := map_eq_some_iff.mp hstep
  cases buf with
  | none =>
    obtain ⟨-, rfl⟩ : -efault = r ∧ s = t := by simpa [sysWrite] using hwrite
    exact h
  | some buf =>
    simp only [sysWrite] at hwrite
    split at hwrite
    · obtain ⟨-, rfl⟩ : toSsize buf.length = r ∧ s = t := by simpa using hwrite
      exact h
    · split at hwrite
      · obtain ⟨-, rfl⟩ : -ebadf = r ∧ s = t := by simpa using hwrite
        exact h
      · rename_i q file hopen
        obtain ⟨rfl, hne⟩ := h.openFile_ne hopen
        obtain ⟨⟨written, v⟩, hramfs, heq⟩ := map_eq_some_iff.mp hwrite
        obtain ⟨rfl, rfl⟩ := Prod.mk.inj heq
        have hkept : Kept f n data v := h.kept.write hne hramfs
        refine ⟨Barred.advance (s := { s with vfs := v }) h.barred written, ?_, h.denied⟩
        simp only [advance]
        split
        · exact hkept
        · exact hkept

theorem read {buf : Bool} {count : ℕ} {keyboard : ℕ → UInt8} :
    Shielded f p euid egid n data (sysRead ramfsOps fd buf count keyboard s).2 := by
  rw [sysRead]
  split
  · exact h
  · split
    · exact h
    · split
      · exact h
      · rename_i q file hopen
        obtain ⟨rfl, -⟩ := h.openFile_ne hopen
        refine ⟨h.barred.advance _, ?_, h.denied⟩
        simp only [advance]
        split
        · exact h.kept
        · exact h.kept

theorem lseek {offset whence : ℕ} :
    Shielded f p euid egid n data (sysLseek fd offset whence s).2 := by
  rw [sysLseek]
  split
  · exact h
  · split
    · exact h
    · rename_i q file hopen
      obtain ⟨rfl, -⟩ := h.openFile_ne hopen
      split
      · exact h
      · exact ⟨h.barred.setOffset _, h.kept, h.denied⟩

theorem closeFd : Shielded f p euid egid n data (closeFd p fd s) := by
  rw [Syscall.closeFd]
  split
  · exact h
  · exact ⟨h.barred.close, h.kept.close, h.denied⟩

theorem close : Shielded f p euid egid n data (sysClose fd s).2 := by
  rw [sysClose]
  split
  · exact h
  · split
    · exact h
    · rename_i q file hopen
      obtain ⟨rfl, -⟩ := h.openFile_ne hopen
      exact h.closeFd

theorem dup : Shielded f p euid egid n data (sysDup fd s).2 := by
  simp only [sysDup, h.barred.current]
  exact ⟨h.barred.dup, h.kept, h.denied⟩

theorem dup2 {newFd : ℕ} :
    Shielded f p euid egid n data (sysDup2 fd newFd s).2 := by
  simp only [sysDup2, h.barred.current]
  refine ⟨h.barred.dup2, ?_, h.denied⟩
  split
  · exact h.closeFd.kept
  · exact h.kept

theorem step {c : FileCall} (hstep : guarded (Careful f) (FileStep ramfsOps) s c s') :
    Shielded f p euid egid n data s' := by
  obtain ⟨hok, hstep⟩ := hstep
  cases c with
  | «open» path flags residue nodeMemory fileMemory =>
    obtain rfl := some.inj hstep
    exact h.open_ hok
  | read fd buf count keyboard =>
    obtain rfl := some.inj hstep
    exact h.read
  | write fd buf memory => exact h.write hstep
  | lseek fd offset whence =>
    obtain rfl := some.inj hstep
    exact h.lseek
  | dup fd =>
    obtain rfl := some.inj hstep
    exact h.dup
  | dup2 oldFd newFd =>
    obtain rfl := some.inj hstep
    exact h.dup2
  | close fd =>
    obtain rfl := some.inj hstep
    exact h.close

end

end Shielded

theorem le_length_grownData {newEnd : ℕ} : newEnd ≤ (grownData newEnd data).length := by
  rw [grownData]
  split
  · rw [length_append, length_replicate, grownCapacity]
    omega
  · omega

theorem exec_isSome {c : FileCall} (hok : Careful f s c) : (s.exec ramfsOps c).isSome := by
  cases c with
  | write fd buf memory =>
    rw [System.exec, isSome_map]
    cases buf with
    | none => rfl
    | some buf =>
      simp only [sysWrite]
      split
      · rfl
      · split
        · rfl
        · rename_i p file hopen
          have hcurrent : s.kernel.sched.current = some p := by
            simp only [openFile] at hopen
            split at hopen
            · cases hopen
            · rename_i q hq
              split at hopen
              · cases hopen
              · obtain ⟨file', -, heq⟩ := map_eq_some_iff.mp hopen
                rw [hq, (Prod.mk.inj heq).1]
          have hsum : addWord ((s.kernel.proc p).fds fd).offset buf.length = _ := addWord_eq (hok p hcurrent)
          rw [isSome_map]
          change (ramfsWrite _ _ _ _ _).isSome
          rw [ramfsWrite]
          split
          · rfl
          · rw [if_pos (by rw [← hsum]; exact le_length_grownData)]
            rfl
  | _ => rfl

def rewritten : Option (System Ramfs) :=
  (System.exec ramfsOps ⟨userKernel, motdTree⟩ (.open (some (ascii "/motd")) oRdonly [] true true)).bind
    fun s => s.exec ramfsOps (.write 0 (some (ascii "HA")) true)

end AetherOs.Syscall
