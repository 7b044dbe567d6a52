import AetherOs.Fs.Ramfs

/-! # User accounts -/

namespace AetherOs.Users

open Fs

abbrev Str := List UInt8

def usersMax : ℕ := 16

def userNameLen : ℕ := 32
def userHomeLen : ℕ := 64
def userShellLen : ℕ := 32
def userHashLen : ℕ := 16

def dbBufSize : ℕ := 4096

def tmpSize : ℕ := 64

def userDbPath : Name := ascii "/sys/users/db"

def colon : UInt8 := 58

def newline : UInt8 := 10

structure User where
  uid : ℕ
  gid : ℕ
  name : Str
  pwHash : Str
  home : Str
  shell : Str
  active : Bool
  locked : Bool
  deriving DecidableEq

def cstr (s : Str) : Str := s.takeWhile fun c => c ≠ 0

def strncpy (size : ℕ) (s : Str) : Str := (cstr s).take (size - 1)

def djb2 (s : Str) : BitVec 32 := s.foldl (fun h c => ((h <<< 5) + h) ^^^ BitVec.ofNat 32 c.toNat) 5381

def hexDigit (n : ℕ) : UInt8 := if n < 10 then UInt8.ofNat (48 + n) else UInt8.ofNat (87 + n)

def hex8 (h : BitVec 32) : Str := (List.range 8).map fun i => hexDigit (h.toNat / 16 ^ (7 - i) % 16)

def hashPassword (pw : Str) : Str := hex8 (djb2 (cstr pw)) ++ hex8 (djb2 ((cstr pw).take 63).reverse)

def checkPassword (u : User) (pw : Str) : Bool := hashPassword pw = u.pwHash

def digits : ℕ → ℕ → List ℕ
  | 0, _ => []
  | fuel + 1, n => if n = 0 then [] else n % 10 :: digits fuel (n / 10)

def uintToStr (n : ℕ) : Str := if n = 0 then [48] else ((digits 10 n).map fun d => UInt8.ofNat (48 + d)).reverse

def isDigit (c : UInt8) : Bool := 48 ≤ c ∧ c ≤ 57

def strToUint (s : Str) : ℕ := (s.takeWhile isDigit).foldl (fun n c => (n * 10 + (c.toNat - 48)) % uintSize) 0

def nextField (max : ℕ) (p : Str) : Str × Str :=
  let out := (p.takeWhile fun c => c ≠ colon ∧ c ≠ newline).take (max - 1)
  let rest := p.drop out.length
  (out, if rest.head? = some colon then rest.drop 1 else rest)

def parseLine (line : Str) : User :=
  let (uid, p) := nextField tmpSize line
  let (gid, p) := nextField tmpSize p
  let (name, p) := nextField userNameLen p
  let (pwHash, p) := nextField (userHashLen + 1) p
  let (home, p) := nextField userHomeLen p
  let (shell, p) := nextField userShellLen p
  let (active, p) := nextField tmpSize p
  let (locked, _) := nextField tmpSize p
  { uid := strToUint uid
    gid := strToUint gid
    name := name
    pwHash := pwHash
    home := home
    shell := shell
    active := active.head? = some 49
    locked := locked.head? = some 49 }

def loadLines : List Str → List User → List User
  | [], users => users
  | line :: lines, users =>
    if usersMax ≤ users.length then users
    else if line = [] then loadLines lines users
    else if (parseLine line).name = [] then loadLines lines users
    else loadLines lines (users ++ [parseLine line])

def loadText (text : Str) (users : List User) : List User := loadLines ((cstr text).splitOn newline) users

def flagText (b : Bool) : Str := if b then [49] else [48]

def User.fields (u : User) : List Str :=
  [uintToStr u.uid, [colon], uintToStr u.gid, [colon], u.name, [colon], u.pwHash, [colon], u.home, [colon], u.shell,
    [colon], flagText u.active, [colon], flagText u.locked, [newline]]

def appendFields : List Str → Str → Str
  | [], buf => buf
  | field :: fields, buf =>
    if dbBufSize - 1 ≤ buf.length + field.length then buf else appendFields fields (buf ++ field)

def dbText (users : List User) : Str := users.foldl (fun buf u => appendFields u.fields buf) []

def usersSave (memory : Bool) (users : List User) (s : Vfs Ramfs) : Option ℤ × Vfs Ramfs :=
  let s := (vfsMkdir ramfsOps memory [] (ascii "/sys") s).2
  let s := (vfsMkdir ramfsOps memory [] (ascii "/sys/users") s).2
  let s :=
    if (vfsResolvePath ramfsOps userDbPath s).1.isSome then s else (vfsCreate ramfsOps memory [] userDbPath 0 s).2
  match (vfsResolvePath ramfsOps userDbPath s).1 with
  | none => (none, s)
  | some node =>
    match ramfsWrite memory node 0 (dbText users) (s.setNode node { s.nodes node with size := 0 }) with
    | none => (none, s)
    | some (ret, t) => (some ret, t)

def loadDb (users : List User) (s : Vfs Ramfs) : List User :=
  match (vfsResolvePath ramfsOps userDbPath s).1 with
  | none => users
  | some node =>
    let (n, bytes) := ramfsRead node 0 (dbBufSize - 1) s
    if n ≤ 0 then users else loadText bytes users

def createDefaults : List User :=
  [{ uid := 0, gid := 0, name := ascii "system", pwHash := hashPassword (ascii "aetheros"), home := ascii "/sys",
     shell := ascii "/bin/ash", active := true, locked := false },
   { uid := 1, gid := 1, name := ascii "user", pwHash := hashPassword [], home := ascii "/home/user",
     shell := ascii "/bin/ash", active := true, locked := false }]

def maxUid (users : List User) : ℕ := users.foldl (fun m u => if m < u.uid then u.uid else m) 0

def usersCreate (name password : Str) (home shell : Option Str) (users : List User) : ℤ × List User :=
  if usersMax ≤ users.length then (-1, users)
  else if users.any fun u => u.name = cstr name then (-1, users)
  else
    let uid := (maxUid users + 1) % uintSize
    (uid, users ++ [{
      uid := uid
      gid := uid
      name := strncpy userNameLen name
      pwHash := hashPassword password
      home := strncpy userHomeLen (home.getD (ascii "/home/user"))
      shell := strncpy userShellLen (shell.getD (ascii "/bin/ash"))
      active := true
      locked := false }])

def updateUid (uid : ℕ) (f : User → User) : List User → List User
  | [] => []
  | u :: users => if u.uid = uid then f u :: users else u :: updateUid uid f users

def usersChpasswd (uid : ℕ) (oldPw newPw : Str) (users : List User) : ℤ × List User :=
  match users.find? fun u => u.uid = uid with
  | none => (-1, users)
  | some u =>
    if uid ≠ 0 ∧ checkPassword u oldPw = false then (-1, users)
    else (0, updateUid uid (fun u => { u with pwHash := hashPassword newPw }) users)

def usersLock (uid : ℕ) (users : List User) : List User := updateUid uid (fun u => { u with locked := true }) users

def usersUnlock (uid : ℕ) (users : List User) : List User := updateUid uid (fun u => { u with locked := false }) users

def usersAuthenticate (name password : Str) : List User → ℤ
  | [] => -1
  | u :: users =>
    if u.active = false then usersAuthenticate name password users
    else if u.name ≠ cstr name then usersAuthenticate name password users
    else if u.locked then -1
    else if checkPassword u password then u.uid
    else usersAuthenticate name password users

end AetherOs.Users
