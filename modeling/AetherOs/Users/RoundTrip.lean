import AetherOs.Users.Model
import Mathlib.Data.List.TakeWhile
import AetherOs.Base.Run
import Mathlib.Data.List.Induction

/-! # The account database -/

namespace AetherOs.Users

open Function List Option

/-! ## The text of the account database -/

section

variable {u : User} {users : List User} {n : ℕ} {c : UInt8}

/-! ## Fields -/

def FieldText (s : Str) : Prop := ∀ c ∈ s, c ≠ colon ∧ c ≠ newline

theorem takeWhile_field {f q : Str} (hf : FieldText f) :
    (f ++ colon :: q).takeWhile (fun c => c ≠ colon ∧ c ≠ newline) = f := by
  rw [takeWhile_append_of_pos fun c hc => by simpa using hf c hc, takeWhile_cons_of_neg (by simp),
    append_nil]

theorem nextField_cons {max : ℕ} {f q : Str} (hf : FieldText f) (hlen : f.length ≤ max - 1) :
    nextField max (f ++ colon :: q) = (f, q) := by
  rw [nextField, takeWhile_field hf, take_of_length_le hlen, drop_left]
  rfl

theorem nextField_last {max : ℕ} {f : Str} (hf : FieldText f) (hlen : f.length ≤ max - 1) :
    nextField max f = (f, []) := by
  have htake : f.takeWhile (fun c => c ≠ colon ∧ c ≠ newline) = f :=
    takeWhile_eq_self_iff.mpr fun c hc => by simpa using hf c hc
  rw [nextField, htake, take_of_length_le hlen, drop_length]
  rfl

theorem fieldText_nextField {max : ℕ} {p : Str} : FieldText (nextField max p).1 := by
  intro c hc
  have hmem : c ∈ p.takeWhile fun c => c ≠ colon ∧ c ≠ newline := mem_of_mem_take hc
  simpa using mem_takeWhile_imp hmem

/-! ## Numbers -/

theorem ofDigits_digits {fuel : ℕ} (h : n < 10 ^ fuel) :
    (digits fuel n).foldr (fun d acc => acc * 10 + d) 0 = n := by
  fun_induction digits fuel n with
  | case1 n => exact (Nat.lt_one_iff.mp h).symm
  | case2 => rfl
  | case3 n fuel hne ih =>
    rw [foldr_cons, ih (by rw [Nat.pow_succ] at h; omega)]
    omega

theorem mem_digits_lt {fuel d : ℕ} (h : d ∈ digits fuel n) : d < 10 := by
  fun_induction digits fuel n with
  | case1 => cases h
  | case2 => cases h
  | case3 n fuel hne ih =>
    rcases mem_cons.mp h with rfl | h
    · omega
    · exact ih h

theorem length_digits {fuel : ℕ} : (digits fuel n).length ≤ fuel := by
  fun_induction digits fuel n with
  | case1 => exact Nat.le_refl 0
  | case2 => exact Nat.zero_le _
  | case3 n fuel hne ih => exact Nat.succ_le_succ ih

theorem digitByte {d : ℕ} (h : d < 10) :
    (UInt8.ofNat (48 + d)).toNat = 48 + d ∧ isDigit (UInt8.ofNat (48 + d)) := by
  have hnat : (UInt8.ofNat (48 + d)).toNat = 48 + d := by
    rw [UInt8.toNat_ofNat']
    exact Nat.mod_eq_of_lt (by omega)
  refine ⟨hnat, ?_⟩
  simp only [isDigit, UInt8.le_iff_toNat_le, hnat, decide_eq_true_eq]
  exact ⟨by simp, by simp; omega⟩

theorem isDigit_uintToStr (hc : c ∈ uintToStr n) : isDigit c := by
  rw [uintToStr] at hc
  split at hc
  · obtain rfl := mem_singleton.mp hc
    decide
  · obtain ⟨d, hd, rfl⟩ := mem_map.mp (mem_reverse.mp hc)
    exact (digitByte (mem_digits_lt hd)).2

theorem strToUint_uintToStr (h : n < uintSize) : strToUint (uintToStr n) = n := by
  have hall : (uintToStr n).takeWhile isDigit = uintToStr n :=
    takeWhile_eq_self_iff.mpr fun c hc => isDigit_uintToStr hc
  rw [strToUint, hall, uintToStr]
  split_ifs with hzero
  · rw [hzero]
    decide
  · rw [foldl_reverse, foldr_map]
    have hstep : ∀ ds : List ℕ, (∀ d ∈ ds, d < 10) → ds.foldr (fun d acc => acc * 10 + d) 0 < uintSize →
        ds.foldr (fun d acc => (acc * 10 + ((UInt8.ofNat (48 + d)).toNat - 48)) % uintSize) 0 =
          ds.foldr (fun d acc => acc * 10 + d) 0 := by
      intro ds
      induction ds with
      | nil => exact fun _ _ => rfl
      | cons d ds ih =>
        intro hds hlt
        rw [foldr_cons] at hlt
        rw [foldr_cons, foldr_cons, ih (fun d hd => hds d (mem_cons_of_mem _ hd)) (by omega),
          (digitByte (hds d mem_cons_self)).1, Nat.add_sub_cancel_left, Nat.mod_eq_of_lt hlt]
    have hvalue : (digits 10 n).foldr (fun d acc => acc * 10 + d) 0 = n := ofDigits_digits (h.trans (by decide))
    rw [hstep _ (fun d hd => mem_digits_lt hd) (by rwa [hvalue]), hvalue]

/-! ## Accounts -/

def NoZero (s : Str) : Prop := (0 : UInt8) ∉ s

structure Sound (u : User) : Prop where
  uid : u.uid < usersMax
  gid : u.gid < usersMax
  name : u.name.length < userNameLen
  home : u.home.length < userHomeLen
  shell : u.shell.length < userShellLen
  pwHash : u.pwHash.length = userHashLen
  nameZero : NoZero u.name
  homeZero : NoZero u.home
  shellZero : NoZero u.shell
  hashText : FieldText u.pwHash ∧ NoZero u.pwHash
  active : u.active = true

structure Clean (u : User) : Prop where
  named : u.name ≠ []
  name : FieldText u.name
  home : FieldText u.home
  shell : FieldText u.shell

def body (u : User) : Str :=
  uintToStr u.uid ++ colon :: (uintToStr u.gid ++ colon :: (u.name ++ colon :: (u.pwHash ++ colon :: (u.home ++ colon ::
    (u.shell ++ colon :: (flagText u.active ++ colon :: flagText u.locked))))))

theorem flatten_fields : u.fields.flatten = body u ++ [newline] := by
  simp [User.fields, body]

theorem fieldText_uintToStr : FieldText (uintToStr n) := by
  intro c hc
  have hdigit := isDigit_uintToStr hc
  constructor
  · rintro rfl
    exact absurd hdigit (by decide)
  · rintro rfl
    exact absurd hdigit (by decide)

theorem length_uintToStr : (uintToStr n).length ≤ 10 := by
  rw [uintToStr]
  split
  · decide
  · rw [length_reverse, length_map]
    exact length_digits

theorem flagText_spec (b : Bool) :
    FieldText (flagText b) ∧ NoZero (flagText b) ∧ (flagText b).length = 1 ∧
      decide ((flagText b).head? = some 49) = b := by
  cases b <;> simp [flagText, FieldText, NoZero, colon, newline]

theorem parseLine_body (hs : Sound u) (hc : Clean u) : parseLine (body u) = u := by
  have hshort : ∀ m, (uintToStr m).length ≤ tmpSize - 1 := fun m => length_uintToStr.trans (by decide)
  obtain ⟨hactive, -, hactiveLen, hactiveHead⟩ := flagText_spec u.active
  obtain ⟨hlocked, -, hlockedLen, hlockedHead⟩ := flagText_spec u.locked
  simp only [parseLine, body, nextField_cons fieldText_uintToStr (hshort _),
    nextField_cons hc.name (Nat.le_sub_one_of_lt hs.name), nextField_cons hs.hashText.1 (show _ ≤ userHashLen + 1 - 1 from hs.pwHash.le),
    nextField_cons hc.home (Nat.le_sub_one_of_lt hs.home), nextField_cons hc.shell (Nat.le_sub_one_of_lt hs.shell),
    nextField_cons hactive (show _ ≤ tmpSize - 1 by rw [hactiveLen]; decide),
    nextField_last hlocked (show _ ≤ tmpSize - 1 by rw [hlockedLen]; decide)]
  rw [strToUint_uintToStr (hs.uid.trans (by decide)), strToUint_uintToStr (hs.gid.trans (by decide)), hactiveHead,
    hlockedHead]

theorem notMem_body (hne : c ≠ colon) (hdigit : isDigit c = false) (hname : c ∉ u.name) (hhash : c ∉ u.pwHash)
    (hhome : c ∉ u.home) (hshell : c ∉ u.shell) : c ∉ body u := by
  have hnum (n : ℕ) : c ∉ uintToStr n := fun hc => by simp [isDigit_uintToStr hc] at hdigit
  have hflag (b : Bool) : c ∉ flagText b := by
    rintro hc
    cases b <;> simp_all [flagText, isDigit]
  simp only [body, mem_append, mem_cons, not_or]
  exact ⟨hnum _, hne, hnum _, hne, hname, hne, hhash, hne, hhome, hne, hshell, hne, hflag _, hne, hflag _⟩

theorem newline_notMem_body (hs : Sound u) (hc : Clean u) : newline ∉ body u := by
  have hfield {f : Str} (hf : FieldText f) : newline ∉ f := fun hmem => (hf newline hmem).2 rfl
  exact notMem_body (by decide) (by decide) (hfield hc.name) (hfield hs.hashText.1) (hfield hc.home) (hfield hc.shell)

theorem noZero_body (hs : Sound u) : NoZero (body u) :=
  notMem_body (by decide) (by decide) hs.nameZero hs.hashText.2 hs.homeZero hs.shellZero

def lines (users : List User) : Str := (users.map fun u => body u ++ [newline]).flatten

theorem length_line (hs : Sound u) : (body u ++ [newline]).length ≤ 200 := by
  have huid := length_uintToStr (n := u.uid)
  have hgid := length_uintToStr (n := u.gid)
  have hname := hs.name
  have hhome := hs.home
  have hshell := hs.shell
  have hhash := hs.pwHash
  have hactive := (flagText_spec u.active).2.2.1
  have hlocked := (flagText_spec u.locked).2.2.1
  simp only [userNameLen, userHomeLen, userShellLen, userHashLen] at hname hhome hshell hhash
  simp only [body, length_append, length_cons, length_nil]
  omega

theorem length_lines (hs : ∀ u ∈ users, Sound u) : (lines users).length ≤ 200 * users.length := by
  induction users with
  | nil => exact Nat.le_refl 0
  | cons u users ih =>
    have hline := length_line (hs u mem_cons_self)
    have hrest := ih fun u hu => hs u (mem_cons_of_mem _ hu)
    rw [lines] at hrest ⊢
    rw [map_cons, flatten_cons, length_append, length_cons]
    omega

theorem lines_fit (hs : ∀ u ∈ users, Sound u) (hlen : users.length ≤ usersMax) :
    (lines users).length < dbBufSize - 1 := by
  have := length_lines hs
  rw [usersMax] at hlen
  rw [dbBufSize]
  omega

theorem appendFields_eq {fields : List Str} {buf : Str} (h : buf.length + fields.flatten.length < dbBufSize - 1) :
    appendFields fields buf = buf ++ fields.flatten := by
  fun_induction appendFields fields buf with
  | case1 buf => rw [flatten_nil, append_nil]
  | case2 buf f fields hfull =>
    rw [flatten_cons, length_append] at h
    omega
  | case3 buf f fields hroom ih =>
    rw [flatten_cons, length_append] at h
    rw [ih (by rw [length_append]; omega), flatten_cons, append_assoc]

theorem dbText_eq (h : (lines users).length < dbBufSize - 1) : dbText users = lines users := by
  have hfold : ∀ (users : List User) (buf : Str), buf.length + (lines users).length < dbBufSize - 1 →
      users.foldl (fun buf u => appendFields u.fields buf) buf = buf ++ lines users := by
    intro users
    induction users with
    | nil => exact fun buf _ => (append_nil buf).symm
    | cons u users ih =>
      intro buf hlt
      have hcons : lines (u :: users) = u.fields.flatten ++ lines users := by
        rw [flatten_fields]
        rfl
      rw [hcons, length_append] at hlt
      rw [foldl_cons, appendFields_eq (by omega), ih _ (by rw [length_append]; omega), hcons, append_assoc]
  exact hfold users [] (by rw [length_nil]; omega)

theorem splitOn_lines (hs : ∀ u ∈ users, Sound u) (hc : ∀ u ∈ users, Clean u) :
    (lines users).splitOn newline = users.map body ++ [[]] := by
  induction users with
  | nil => exact splitOn_nil newline
  | cons u users ih =>
    have hline := newline_notMem_body (hs u mem_cons_self) (hc u mem_cons_self)
    have hone : (body u).splitOn newline = [body u] := by
      have hsplit : ([newline].intercalate [body u]).splitOn newline = [body u] :=
        splitOn_intercalate newline (by simpa using hline) (by simp)
      simpa using hsplit
    have hcons : lines (u :: users) = body u ++ newline :: lines users := by
      rw [lines, map_cons, flatten_cons, append_assoc, singleton_append]
      rfl
    rw [hcons, List.splitOn, splitOnP_append_cons _ _ (by simp), map_cons, cons_append]
    rw [List.splitOn] at hone
    have hrest := ih (fun u hu => hs u (mem_cons_of_mem _ hu)) fun u hu => hc u (mem_cons_of_mem _ hu)
    rw [List.splitOn] at hrest
    rw [hone, hrest, singleton_append]

theorem loadLines_bodies {acc : List User} (hs : ∀ u ∈ users, Sound u) (hc : ∀ u ∈ users, Clean u)
    (hroom : acc.length + users.length ≤ usersMax) : loadLines (users.map body ++ [[]]) acc = acc ++ users := by
  induction users generalizing acc with
  | nil =>
    rw [map_nil, nil_append, loadLines, append_nil]
    split
    · rfl
    · rw [if_pos rfl, loadLines]
  | cons u users ih =>
    have hsu := hs u mem_cons_self
    have hcu := hc u mem_cons_self
    have hnonempty : body u ≠ [] := by simp [body]
    rw [length_cons] at hroom
    rw [map_cons, cons_append, loadLines, if_neg (by omega), if_neg hnonempty, parseLine_body hsu hcu,
      if_neg hcu.named, ih (fun u hu => hs u (mem_cons_of_mem _ hu)) (fun u hu => hc u (mem_cons_of_mem _ hu))
        (by rw [length_append, length_singleton]; omega), append_assoc, singleton_append]

theorem clean_loadLines {ls : List Str} {acc : List User} (h : ∀ u ∈ acc, Clean u) : ∀ u ∈ loadLines ls acc, Clean u := by
  fun_induction loadLines ls acc with
  | case1 => exact h
  | case2 => exact h
  | case3 users ls hroom ih => exact ih h
  | case4 users l ls hroom hne hname ih => exact ih h
  | case5 users l ls hroom hne hnamed ih =>
    refine ih fun u hu => ?_
    rcases mem_append.mp hu with hu | hu
    · exact h u hu
    · obtain rfl := mem_singleton.mp hu
      exact ⟨hnamed, fieldText_nextField, fieldText_nextField, fieldText_nextField⟩

theorem loadText_dbText (hs : ∀ u ∈ users, Sound u) (hlen : users.length ≤ usersMax) :
    loadText (dbText users) [] = users ↔ ∀ u ∈ users, Clean u := by
  have hfits := lines_fit hs hlen
  have hzero : cstr (lines users) = lines users := by
    refine takeWhile_eq_self_iff.mpr fun c hc => ?_
    obtain ⟨l, hl, hcl⟩ := mem_flatten.mp hc
    obtain ⟨u, hu, rfl⟩ := mem_map.mp hl
    refine decide_eq_true ?_
    rintro rfl
    rcases mem_append.mp hcl with h | h
    · exact noZero_body (hs u hu) h
    · exact absurd (mem_singleton.mp h) (by decide)
  rw [loadText, dbText_eq hfits, hzero]
  constructor
  · intro heq u hu
    rw [← heq] at hu
    exact clean_loadLines (fun u hu => by cases hu) u hu
  · intro hc
    rw [splitOn_lines hs hc, loadLines_bodies hs hc (by rw [length_nil]; omega), nil_append]

end

/-! ## The account database -/

section

open Base Fs

variable {users : List User} {s : Str} {i : ℕ}

/-! ## Tables that the calls build -/

inductive AccountCall
  | create (name password : Str) (home shell : Option Str)
  | chpasswd (uid : ℕ) (oldPw newPw : Str)
  | lock (uid : ℕ)
  | unlock (uid : ℕ)

def exec (users : List User) : AccountCall → List User
  | .create name password home shell => (usersCreate name password home shell users).2
  | .chpasswd uid oldPw newPw => (usersChpasswd uid oldPw newPw users).2
  | .lock uid => usersLock uid users
  | .unlock uid => usersUnlock uid users

structure Built (users : List User) : Prop where
  length : users.length ≤ usersMax
  sound : ∀ u ∈ users, Sound u
  uid : ∀ (i : ℕ) (u : User), users[i]? = some u → u.uid = i

theorem hashPassword_spec (pw : Str) :
    (hashPassword pw).length = userHashLen ∧ FieldText (hashPassword pw) ∧ NoZero (hashPassword pw) := by
  have hdigit : ∀ d < 16, hexDigit d ≠ colon ∧ hexDigit d ≠ newline ∧ hexDigit d ≠ 0 := by decide
  have hmem : ∀ c ∈ hashPassword pw, c ≠ colon ∧ c ≠ newline ∧ c ≠ 0 := by
    intro c hc
    rw [hashPassword, mem_append, hex8, hex8, List.mem_map, List.mem_map] at hc
    rcases hc with ⟨i, -, rfl⟩ | ⟨i, -, rfl⟩ <;> exact hdigit _ (Nat.mod_lt _ (by decide))
  refine ⟨?_, fun c hc => ⟨(hmem c hc).1, (hmem c hc).2.1⟩, fun hc => (hmem 0 hc).2.2 rfl⟩
  rw [hashPassword, length_append, hex8, hex8, length_map, length_map, length_range]
  rfl

theorem noZero_strncpy {size : ℕ} : NoZero (strncpy size s) := by
  intro hmem
  have hcstr : (0 : UInt8) ∈ cstr s := mem_of_mem_take hmem
  simpa using mem_takeWhile_imp hcstr

theorem length_strncpy {size : ℕ} (hsize : 0 < size) : (strncpy size s).length < size := by
  rw [strncpy, length_take]
  omega

theorem maxUid_eq (h : ∀ (i : ℕ) (u : User), users[i]? = some u → u.uid = i) : maxUid users = users.length - 1 := by
  induction users using List.reverseRecOn with
  | nil => rfl
  | append_singleton users u ih =>
    have hlast : u.uid = users.length := h users.length u List.getElem?_concat_length
    have hrest := ih fun i v hv => h i v (by
      rw [List.getElem?_append_left (List.getElem?_eq_some_iff.mp hv).1, hv])
    rw [maxUid] at hrest
    rw [maxUid, foldl_append, foldl_cons, foldl_nil, hrest, hlast, length_append, length_singleton]
    split <;> omega

theorem getElem?_updateUid {uid : ℕ} {f : User → User} {v : User} (h : (updateUid uid f users)[i]? = some v) :
    ∃ u, users[i]? = some u ∧ (v = u ∨ v = f u) := by
  fun_induction updateUid uid f users generalizing i with
  | case1 => cases h
  | case2 u users huid =>
    cases i with
    | zero => exact ⟨u, rfl, .inr (some.inj h).symm⟩
    | succ i => exact ⟨v, h, .inl rfl⟩
  | case3 u users huid ih =>
    cases i with
    | zero => exact ⟨u, rfl, .inl (some.inj h).symm⟩
    | succ i => exact ih h

theorem length_updateUid {uid : ℕ} {f : User → User} : (updateUid uid f users).length = users.length := by
  fun_induction updateUid uid f users with
  | case1 => rfl
  | case2 => rfl
  | case3 u users huid ih => rw [length_cons, ih, length_cons]

theorem Built.update {uid : ℕ} {f : User → User} (h : Built users) (hf : ∀ u, Sound u → Sound (f u))
    (huid : ∀ u, (f u).uid = u.uid) : Built (updateUid uid f users) := by
  refine ⟨length_updateUid.trans_le h.length, fun v hv => ?_, fun i v hv => ?_⟩
  · obtain ⟨i, hi⟩ := mem_iff_getElem?.mp hv
    obtain ⟨u, hu, rfl | rfl⟩ := getElem?_updateUid hi
    · exact h.sound _ (mem_of_getElem? hu)
    · exact hf u (h.sound u (mem_of_getElem? hu))
  · obtain ⟨u, hu, rfl | rfl⟩ := getElem?_updateUid hv
    · exact h.uid i _ hu
    · rw [huid, h.uid i u hu]

theorem Built.create {name password : Str} {home shell : Option Str} (h : Built users) (hne : users ≠ []) :
    Built (usersCreate name password home shell users).2 := by
  rw [usersCreate]
  split
  · exact h
  split
  · exact h
  rename_i hroom _
  have hpos : 0 < users.length := length_pos_iff.mpr hne
  have hlt : users.length < usersMax := Nat.not_le.mp hroom
  have hnext : (maxUid users + 1) % uintSize = users.length := by
    rw [maxUid_eq h.uid, Nat.sub_add_cancel hpos, Nat.mod_eq_of_lt (hlt.trans (by decide))]
  obtain ⟨hhash, htext, hzero⟩ := hashPassword_spec password
  simp only [hnext]
  refine ⟨by rw [length_append, length_singleton]; omega, fun u hu => ?_, fun i u hu => ?_⟩
  · rcases mem_append.mp hu with hu | hu
    · exact h.sound u hu
    · obtain rfl := mem_singleton.mp hu
      exact ⟨hlt, hlt, length_strncpy (by decide), length_strncpy (by decide), length_strncpy (by decide), hhash,
        noZero_strncpy, noZero_strncpy, noZero_strncpy, ⟨htext, hzero⟩, rfl⟩
  · rcases Nat.lt_trichotomy i users.length with hi | rfl | hi
    · rw [List.getElem?_append_left hi] at hu
      exact h.uid i u hu
    · rw [List.getElem?_concat_length] at hu
      rw [← some.inj hu]
    · rw [List.getElem?_eq_none (by rw [length_append, length_singleton]; omega)] at hu
      cases hu

theorem built_exec {c : AccountCall} (h : Built users ∧ users ≠ []) : Built (exec users c) ∧ exec users c ≠ [] := by
  obtain ⟨hb, hne⟩ := h
  have hkeep : ∀ uid f, updateUid uid f users ≠ [] := by
    intro uid f hnil
    have hlen : (updateUid uid f users).length = users.length := length_updateUid
    rw [hnil] at hlen
    exact hne (eq_nil_of_length_eq_zero hlen.symm)
  cases c with
  | create name password home shell =>
    refine ⟨hb.create hne, ?_⟩
    change (usersCreate name password home shell users).2 ≠ []
    rw [usersCreate]
    split_ifs
    · exact hne
    · exact hne
    · simp
  | chpasswd uid oldPw newPw =>
    change Built (usersChpasswd uid oldPw newPw users).2 ∧ (usersChpasswd uid oldPw newPw users).2 ≠ []
    rw [usersChpasswd]
    split
    · exact ⟨hb, hne⟩
    split
    · exact ⟨hb, hne⟩
    · obtain ⟨hhash, htext, hzero⟩ := hashPassword_spec newPw
      exact ⟨hb.update (fun u hu => { hu with pwHash := hhash, hashText := ⟨htext, hzero⟩ }) fun _ => rfl, hkeep _ _⟩
  | lock uid => exact ⟨hb.update (fun u hu => { hu with }) fun _ => rfl, hkeep _ _⟩
  | unlock uid => exact ⟨hb.update (fun u hu => { hu with }) fun _ => rfl, hkeep _ _⟩

theorem built_createDefaults : Built createDefaults := by
  refine ⟨by decide, ?_, ?_⟩
  · intro u hu
    obtain ⟨hhash, htext, hzero⟩ := hashPassword_spec (ascii "aetheros")
    obtain ⟨hhash', htext', hzero'⟩ := hashPassword_spec []
    rw [createDefaults, mem_cons, mem_singleton] at hu
    rcases hu with rfl | rfl
    · exact ⟨by decide, by decide, by decide, by decide, by decide, hhash, by rw [NoZero]; decide, by rw [NoZero]; decide,
        by rw [NoZero]; decide, ⟨htext, hzero⟩, rfl⟩
    · exact ⟨by decide, by decide, by decide, by decide, by decide, hhash', by rw [NoZero]; decide, by rw [NoZero]; decide,
        by rw [NoZero]; decide, ⟨htext', hzero'⟩, rfl⟩
  · intro i u hu
    rcases i with _ | _ | i
    · rw [← some.inj hu]
    · rw [← some.inj hu]
    · cases hu

/-! ## The file -/

structure SameTree (v w : Vfs Ramfs) : Prop where
  root : w.root = v.root
  children : w.fs.children = v.fs.children
  name : ∀ n, (w.nodes n).name = (v.nodes n).name
  flags : ∀ n, (w.nodes n).flags = (v.nodes n).flags
  mount : ∀ n, (w.nodes n).mount = (v.nodes n).mount

variable {v w : Vfs Ramfs} {node : ℕ}

theorem walk_congr (h : SameTree v w) {names : List Name} :
    (walk ramfsOps node names w).1 = (walk ramfsOps node names v).1 := by
  have hdir : ∀ n, (w.nodes n).isDirectory = (v.nodes n).isDirectory := fun n => by
    rw [VfsNode.isDirectory, VfsNode.isDirectory, h.flags]
  have hfind : ∀ n name, (vfsFinddir ramfsOps n name w).1 = (vfsFinddir ramfsOps n name v).1 := by
    intro n name
    have hentered : w.entered n = v.entered n := by rw [Vfs.entered, Vfs.entered, h.mount]
    rw [vfsFinddir, vfsFinddir, hentered, hdir]
    split
    · simp only [ramfsOps, ramfsFinddir, h.children, h.name]
    · rfl
  induction names generalizing node with
  | nil => rfl
  | cons token rest ih =>
    rw [walk, walk, hdir]
    split
    · have hv : (vfsFinddir ramfsOps node token v).2 = v := vfsFinddir_ramfsOps
      have hw : (vfsFinddir ramfsOps node token w).2 = w := vfsFinddir_ramfsOps
      have heq := hfind node token
      generalize vfsFinddir ramfsOps node token v = rv at hv heq
      generalize vfsFinddir ramfsOps node token w = rw' at hw heq
      obtain ⟨fv, v'⟩ := rv
      obtain ⟨fw, w'⟩ := rw'
      obtain rfl : v' = v := hv
      obtain rfl : w' = w := hw
      obtain rfl : fw = fv := heq
      cases fw with
      | none => rfl
      | some child => exact ih
    · rfl

theorem vfsResolvePath_congr (h : SameTree v w) {path : Name} :
    (vfsResolvePath ramfsOps path w).1 = (vfsResolvePath ramfsOps path v).1 := by
  rw [vfsResolvePath, vfsResolvePath, h.root]
  split
  · rfl
  · exact walk_congr h

theorem read_after_write {memory : Bool} {ret : ℤ} {text : Str} (hret : 0 ≤ ret) (hne : text ≠ [])
    (hlen : text.length ≤ dbBufSize - 1)
    (hwrite : ramfsWrite memory node 0 text (v.setNode node { v.nodes node with size := 0 }) = some (ret, w)) :
    SameTree v w ∧ ramfsRead node 0 (dbBufSize - 1) w = ((text.length : ℤ), text) := by
  have hbound : text.length < wordSize := Nat.lt_of_le_of_lt hlen (by decide)
  have hpos : 0 < text.length := length_pos_iff.mpr hne
  have hend : addWord 0 text.length = text.length := by rw [addWord_eq (by omega), Nat.zero_add]
  rw [ramfsWrite, hend] at hwrite
  simp only at hwrite
  split at hwrite
  · obtain ⟨rfl, -⟩ := Prod.mk.inj (some.inj hwrite)
    exact absurd hret (by decide)
  split at hwrite
  · rename_i hfits
    obtain ⟨-, rfl⟩ := Prod.mk.inj (some.inj hwrite)
    have hnode : ((storeAt node 0 text (v.setNode node { v.nodes node with size := 0 })).nodes node).size = text.length := by
      simp [storeAt, Vfs.setNode, hend]
    have hdata : ((storeAt node 0 text (v.setNode node { v.nodes node with size := 0 })).fs.data node).take text.length =
        text := by
      simp only [storeAt, hend, update_self, overwrite, take_zero, nil_append, Nat.zero_add]
      exact take_left
    refine ⟨?_, ?_⟩
    · refine ⟨rfl, rfl, fun n => ?_, fun n => ?_, fun n => ?_⟩ <;>
      · by_cases hn : n = node
        · subst hn
          simp [storeAt, Vfs.setNode]
        · simp [storeAt, Vfs.setNode, update_of_ne hn]
    · generalize storeAt node 0 text (v.setNode node { v.nodes node with size := 0 }) = t at hnode hdata
      have hsome : t.fs.data node ≠ [] := by
        intro hnil
        rw [hnil, take_nil] at hdata
        exact hne hdata.symm
      rw [ramfsRead, if_neg hsome, hnode, if_neg (by omega), Nat.sub_zero, Nat.min_eq_right hlen, drop_zero]
      simp only
      rw [hdata, toSsize, if_pos (Nat.lt_of_le_of_lt hlen (by decide))]
  · cases hwrite

theorem loadDb_usersSave {memory : Bool} {ret : ℤ} (hs : ∀ u ∈ users, Sound u) (hlen : users.length ≤ usersMax)
    (hne : users ≠ []) (hsave : usersSave memory users v = (some ret, w)) (hret : 0 ≤ ret) :
    loadDb [] w = loadText (dbText users) [] := by
  have hfits := lines_fit hs hlen
  have htext : dbText users ≠ [] := by
    rw [dbText_eq hfits]
    cases users with
    | nil => exact absurd rfl hne
    | cons u users => simp [lines]
  rw [usersSave] at hsave
  simp only at hsave
  generalize hprep : (if ((vfsResolvePath ramfsOps userDbPath _).1.isSome) then _ else _ : Vfs Ramfs) = t at hsave
  cases hnode : (vfsResolvePath ramfsOps userDbPath t).1 with
  | none =>
    rw [hnode] at hsave
    cases (Prod.mk.inj hsave).1
  | some node =>
    rw [hnode] at hsave
    simp only at hsave
    cases hwrite : ramfsWrite memory node 0 (dbText users) (t.setNode node { t.nodes node with size := 0 }) with
    | none =>
      rw [hwrite] at hsave
      cases (Prod.mk.inj hsave).1
    | some r =>
      obtain ⟨ret', w'⟩ := r
      rw [hwrite] at hsave
      obtain ⟨hr, rfl⟩ := Prod.mk.inj hsave
      obtain rfl := some.inj hr
      obtain ⟨htree, hread⟩ := read_after_write hret htext (by rw [dbText_eq hfits]; omega) hwrite
      rw [loadDb, vfsResolvePath_congr htree, hnode]
      simp only
      rw [hread]
      simp only
      have hpos : 0 < (dbText users).length := length_pos_iff.mpr htext
      rw [if_neg (by omega)]

def Reloads (users : List User) (s : Vfs Ramfs) : Prop :=
  loadDb [] s = users ∧ ∀ (i : ℕ) (u : User), (loadDb [] s)[i]? = some u → u.uid = 0 → i = 0

/-- A table that the calls build comes back from its file exactly when every account has a name and none of its strings has
a separator. -/
theorem reloads_iff (calls : List AccountCall) (users : List User) (memory : Bool) (v w : Vfs Ramfs) (ret : ℤ)
    (hrun : Run (fun s c s' => s' = exec s c) createDefaults calls users)
    (hsave : usersSave memory users v = (some ret, w)) (hret : 0 ≤ ret) :
    Reloads users w ↔ ∀ u ∈ users, Clean u := by
  obtain ⟨hbuilt, hne⟩ : Built users ∧ users ≠ [] :=
    hrun.invariant (I := fun users => Built users ∧ users ≠ []) (fun s c s' h hstep => hstep ▸ built_exec h)
      ⟨built_createDefaults, by decide⟩
  have hload := loadDb_usersSave hbuilt.sound hbuilt.length hne hsave hret
  rw [Reloads, hload, ← loadText_dbText hbuilt.sound hbuilt.length]
  refine ⟨And.left, fun heq => ⟨heq, fun i u hu hzero => ?_⟩⟩
  rw [heq] at hu
  exact (hbuilt.uid i u hu).symm.trans hzero

def emptyRoot : Vfs Ramfs where
  root := some 0
  nodes := fun n => newChild vfsDirectory n [slash] mkdirMode
  next := 1
  fs := ⟨fun _ => [], fun _ => []⟩

/-- The default accounts come back. -/
theorem reloads_iff_defaults : Reloads createDefaults (usersSave true createDefaults emptyRoot).2 := by
  have hsave : (usersSave true createDefaults emptyRoot).1 = some 96 := by decide +kernel
  refine (reloads_iff [] createDefaults true emptyRoot _ 96 (.nil _) (Prod.ext hsave rfl) (by decide)).mpr ?_
  intro u hu
  rw [createDefaults, mem_cons, mem_singleton] at hu
  rcases hu with rfl | rfl <;>
  · refine ⟨by decide, ?_, ?_, ?_⟩ <;>
    · rw [FieldText]
      decide +kernel

def injectedHome : Str := ascii "/\n0:0:evil:" ++ hashPassword (ascii "x") ++ ascii ":/:/s:1"

def injected : List User := (usersCreate (ascii "eve") [] (some injectedHome) none createDefaults).2

/-- After the database is written and read, a second account of user number zero is there, and its password opens it. -/
theorem injected_account_has_uid_zero :
    (usersAuthenticate (ascii "evil") (ascii "x") injected) = -1 ∧
    (usersAuthenticate (ascii "evil") (ascii "x") (loadDb [] (usersSave true injected emptyRoot).2)) = 0 ∧
    ((loadDb [] (usersSave true injected emptyRoot).2).map User.uid) = [0, 1, 2, 0] ∧
    ¬ Reloads injected (usersSave true injected emptyRoot).2 := by
  have huids : ((loadDb [] (usersSave true injected emptyRoot).2).map User.uid) = [0, 1, 2, 0] := by decide +kernel
  refine ⟨by decide +kernel, by decide +kernel, huids, fun h => ?_⟩
  rw [h.1] at huids
  exact absurd huids (by decide +kernel)

end

end AetherOs.Users
