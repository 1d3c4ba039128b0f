import ShellXv6.Xv6.Inodes

/-!
# The system calls on files

The calls of `kernel/sysfile.c` that create, name, open and remove files, and those of
`kernel/file.c` and `kernel/proc.c` that keep or drop an inode.  A call runs to its end before
the next one starts; `none` is a panic of `fs.c` or `sysfile.c`, or a process that waits for
itself.
-/

namespace ShellXv6.Xv6.FileSystem

open ShellXv6.CString

def NDEV : ℕ := 10
def O_RDONLY : ℕ := 0

variable {sb : Superblock}

/-- The names that every directory has for itself and for the directory above it. -/
def dot : List UInt8 := [46]
def dotdot : List UInt8 := [46, 46]

/-- Links are counted in a `short`. -/
def Inode.addLink (ip : Inode) : Inode := ip.setNlink ((ip.nlink + 1) % 65536)
def Inode.dropLink (ip : Inode) : Inode := ip.setNlink ((ip.nlink + 65535) % 65536)

/-- The label `bad` of `sys_link`. -/
def linkBad (ip : Fin sb.ninodes) (k : Kernel sb) : Option (ℤ × Kernel sb) := do
  let k ← ilock ip k
  let k ← iunlockput ip (k.save ip (k.fs.ino ip).dropLink)
  pure (-1, k)

/-- `sys_link` when it has counted the new link. -/
def linkName (cwd ip : Fin sb.ninodes) (new : List UInt8) (k : Kernel sb) :
    Option (ℤ × Kernel sb) := do
  let (dp, k) ← nameiparent cwd new k
  match dp with
  | none => linkBad ip k
  | some (dp, name) =>
    let k ← ilock dp k
    let (r, k) ← dirlink dp name ip k
    let k ← iunlockput dp k
    if r < 0 then linkBad ip k
    else
      let k ← iput ip k
      pure (0, k)

def sysLink (cwd : Fin sb.ninodes) (old new : List UInt8) (k : Kernel sb) :
    Option (ℤ × Kernel sb) := do
  let (ip, k) ← namei cwd old k
  match ip with
  | none => pure (-1, k)
  | some ip =>
    let k ← ilock ip k
    if (k.fs.ino ip).type = T_DIR then
      let k ← iunlockput ip k
      pure (-1, k)
    else
      let k ← iunlock ip (k.save ip (k.fs.ino ip).addLink)
      linkName cwd ip new k

/-- The check of `sys_unlink` that a directory is empty. -/
def removable (ip : Fin sb.ninodes) (fs : Fs sb) : Option (Bool × Fs sb) :=
  if (fs.ino ip).type = T_DIR then isdirempty ip fs else some (true, fs)

/-- `sys_unlink` when it has found the entry and locked its inode; the panics are
"unlink: nlink < 1" and "unlink: writei". -/
def removeEntry (dp : Fin sb.ninodes) (ip : Fin sb.ninodes) (off : ℕ) (k : Kernel sb) :
    Option (ℤ × Kernel sb) :=
  -- as a `short` the count is less than one
  if (k.fs.ino ip).nlink = 0 ∨ 32768 ≤ (k.fs.ino ip).nlink then none
  else do
    let (may, fs) ← removable ip k.fs
    let k := { k with fs := fs }
    if !may then
      let k ← iunlockput ip k
      let k ← iunlockput dp k
      pure (-1, k)
    else
      let fs ← clearEntry dp off k.fs
      let k := { k with fs := fs }
      let k := if (k.fs.ino ip).type = T_DIR then k.save dp (k.fs.ino dp).dropLink else k
      let k ← iunlockput dp k
      let k ← iunlockput ip (k.save ip (k.fs.ino ip).dropLink)
      pure (0, k)

def sysUnlink (cwd : Fin sb.ninodes) (path : List UInt8) (k : Kernel sb) :
    Option (ℤ × Kernel sb) := do
  let (dp, k) ← nameiparent cwd path k
  match dp with
  | none => pure (-1, k)
  | some (dp, name) =>
    let k ← ilock dp k
    if strncmp DIRSIZ name dot = 0 ∨ strncmp DIRSIZ name dotdot = 0 then
      let k ← iunlockput dp k
      pure (-1, k)
    else
      let (found, k) ← dirlookup dp name k
      match found with
      | none =>
        let k ← iunlockput dp k
        pure (-1, k)
      | some (ip, off) =>
        let k ← ilock ip k
        removeEntry dp ip off k

/-- The first two entries of a directory. -/
def makeDots (type : ℕ) (ip dp : Fin sb.ninodes) (k : Kernel sb) : Option (ℤ × Kernel sb) :=
  if type = T_DIR then do
    let (r, k) ← dirlink ip dot ip k
    if r < 0 then pure (r, k) else dirlink ip dotdot dp k
  else some (0, k)

/-- What `create` stores in a new inode. -/
def Inode.initial (ip : Inode) (major minor : ℕ) : Inode :=
  { ip with major := major % 65536, minor := minor % 65536, nlink := 1 }

/-- The label `fail` of `create`. -/
def createFail (dp ip : Fin sb.ninodes) (k : Kernel sb) :
    Option (Option (Fin sb.ninodes) × Kernel sb) := do
  let k ← iunlockput ip (k.save ip ((k.fs.ino ip).setNlink 0))
  let k ← iunlockput dp k
  pure (none, k)

/-- `create` from `ialloc` on; the new inode stays locked. -/
def createInode (dp : Fin sb.ninodes) (name : List UInt8) (type major minor : ℕ)
    (k : Kernel sb) : Option (Option (Fin sb.ninodes) × Kernel sb) := do
  let (ip, k) ← ialloc type k
  match ip with
  | none =>
    let k ← iunlockput dp k
    pure (none, k)
  | some ip =>
    let k ← ilock ip k
    let (r, k) ← makeDots type ip dp (k.save ip ((k.fs.ino ip).initial major minor))
    if r < 0 then createFail dp ip k
    else
      let (r, k) ← dirlink dp name ip k
      if r < 0 then createFail dp ip k
      else
        let k := if type = T_DIR then k.save dp (k.fs.ino dp).addLink else k
        let k ← iunlockput dp k
        pure (some ip, k)

def create (cwd : Fin sb.ninodes) (path : List UInt8) (type major minor : ℕ) (k : Kernel sb) :
    Option (Option (Fin sb.ninodes) × Kernel sb) := do
  let (dp, k) ← nameiparent cwd path k
  match dp with
  | none => pure (none, k)
  | some (dp, name) =>
    let k ← ilock dp k
    let (found, k) ← dirlookup dp name k
    match found with
    | some (ip, _) =>
      let k ← iunlockput dp k
      let k ← ilock ip k
      if type = T_FILE ∧ ((k.fs.ino ip).type = T_FILE ∨ (k.fs.ino ip).type = T_DEVICE) then
        pure (some ip, k)
      else
        let k ← iunlockput ip k
        pure (none, k)
    | none => createInode dp name type major minor k

/-- A file that a process has open. -/
structure File (sb : Superblock) where
  ip : Fin sb.ninodes
  device : Bool
  readable : Bool
  writable : Bool

/-- `sys_open` without `O_CREATE`, up to the checks that both cases share. -/
def openExisting (cwd : Fin sb.ninodes) (path : List UInt8) (omode : ℕ) (k : Kernel sb) :
    Option (Option (Fin sb.ninodes) × Kernel sb) := do
  let (ip, k) ← namei cwd path k
  match ip with
  | none => pure (none, k)
  | some ip =>
    let k ← ilock ip k
    if (k.fs.ino ip).type = T_DIR ∧ omode ≠ O_RDONLY then
      let k ← iunlockput ip k
      pure (none, k)
    else pure (some ip, k)

/-- The inode that `sys_open` opens; it stays locked. -/
def openInode (cwd : Fin sb.ninodes) (path : List UInt8) (omode : ℕ) (k : Kernel sb) :
    Option (Option (Fin sb.ninodes) × Kernel sb) :=
  if omode.testBit 9 then create cwd path T_FILE 0 0 k else openExisting cwd path omode k

def openTrunc (ip : Fin sb.ninodes) (omode : ℕ) (fs : Fs sb) : Option (Fs sb) :=
  if omode.testBit 10 ∧ (fs.ino ip).type = T_FILE then itrunc ip fs else some fs

/-- `room` says whether `filealloc` and `fdalloc` succeed.  The bits of `omode` are those of
`O_WRONLY`, `O_RDWR`, `O_CREATE` and `O_TRUNC`. -/
def sysOpen (cwd : Fin sb.ninodes) (path : List UInt8) (omode : ℕ) (room : Bool)
    (k : Kernel sb) : Option (Option (File sb) × Kernel sb) := do
  let (ip, k) ← openInode cwd path omode k
  match ip with
  | none => pure (none, k)
  | some ip =>
    let type := (k.fs.ino ip).type
    -- a negative `short` is a large number here
    if type = T_DEVICE ∧ NDEV ≤ (k.fs.ino ip).major ∨ !room then
      let k ← iunlockput ip k
      pure (none, k)
    else
      let fs ← openTrunc ip omode k.fs
      let k ← iunlock ip { k with fs := fs }
      pure (some ⟨ip, type = T_DEVICE, !omode.testBit 0, omode.testBit 0 || omode.testBit 1⟩, k)

/-- `sys_mkdir` and `sys_mknod`. -/
def sysMake (cwd : Fin sb.ninodes) (path : List UInt8) (type major minor : ℕ) (k : Kernel sb) :
    Option (ℤ × Kernel sb) := do
  let (ip, k) ← create cwd path type major minor k
  match ip with
  | none => pure (-1, k)
  | some ip =>
    let k ← iunlockput ip k
    pure (0, k)

def sysMkdir (cwd : Fin sb.ninodes) (path : List UInt8) : Kernel sb → Option (ℤ × Kernel sb) :=
  sysMake cwd path T_DIR 0 0

def sysMknod (cwd : Fin sb.ninodes) (path : List UInt8) (major minor : ℕ) :
    Kernel sb → Option (ℤ × Kernel sb) :=
  sysMake cwd path T_DEVICE major minor

/-- The new current directory, when the call succeeds. -/
def sysChdir (cwd : Fin sb.ninodes) (path : List UInt8) (k : Kernel sb) :
    Option (Option (Fin sb.ninodes) × Kernel sb) := do
  let (ip, k) ← namei cwd path k
  match ip with
  | none => pure (none, k)
  | some ip =>
    let k ← ilock ip k
    if (k.fs.ino ip).type ≠ T_DIR then
      let k ← iunlockput ip k
      pure (none, k)
    else
      let k ← iunlock ip k
      let k ← iput cwd k
      pure (some ip, k)

/-- One round of `filewrite`, which is one transaction. -/
def writeChunk (f : File sb) (src : List UInt8) (off n : ℕ) (k : Kernel sb) :
    Option (Kernel sb) :=
  if !f.writable || f.device then some k
  else do
    let k ← ilock f.ip k
    let (_, fs) ← writei f.ip src off n k.fs
    iunlock f.ip { k with fs := fs }

/-! ## Processes -/

/-- The kernel, the current directories of the processes and the files that are open. -/
structure System (sb : Superblock) where
  kernel : Kernel sb
  cwds : List (Fin sb.ninodes)
  files : List (File sb)

inductive Call
  | opens (p : ℕ) (path : List UInt8) (omode : ℕ) (room : Bool)
  | mkdir (p : ℕ) (path : List UInt8)
  | mknod (p : ℕ) (path : List UInt8) (major minor : ℕ)
  | link (p : ℕ) (old new : List UInt8)
  | unlink (p : ℕ) (path : List UInt8)
  | chdir (p : ℕ) (path : List UInt8)
  | fork (p : ℕ)
  | exit (p : ℕ)
  | close (f : ℕ)
  | write (f : ℕ) (src : List UInt8) (off n : ℕ)

/-- A call of process `p`; nothing happens when there is no such process. -/
def System.byProcess (s : System sb) (p : ℕ)
    (act : Fin sb.ninodes → Option (System sb)) : Option (System sb) :=
  match s.cwds[p]? with
  | none => some s
  | some cwd => act cwd

def System.onFile (s : System sb) (f : ℕ) (act : File sb → Option (System sb)) :
    Option (System sb) :=
  match s.files[f]? with
  | none => some s
  | some file => act file

def System.step (s : System sb) : Call → Option (System sb)
  | .opens p path omode room => s.byProcess p fun cwd => do
      let (file, k) ← sysOpen cwd path omode room s.kernel
      pure { s with kernel := k, files := file.toList ++ s.files }
  | .mkdir p path => s.byProcess p fun cwd => do
      let (_, k) ← sysMkdir cwd path s.kernel
      pure { s with kernel := k }
  | .mknod p path major minor => s.byProcess p fun cwd => do
      let (_, k) ← sysMknod cwd path major minor s.kernel
      pure { s with kernel := k }
  | .link p old new => s.byProcess p fun cwd => do
      let (_, k) ← sysLink cwd old new s.kernel
      pure { s with kernel := k }
  | .unlink p path => s.byProcess p fun cwd => do
      let (_, k) ← sysUnlink cwd path s.kernel
      pure { s with kernel := k }
  | .chdir p path => s.byProcess p fun cwd => do
      let (ip, k) ← sysChdir cwd path s.kernel
      pure { s with kernel := k, cwds := s.cwds.set p (ip.getD cwd) }
  | .fork p => s.byProcess p fun cwd =>
      some { s with kernel := idup cwd s.kernel, cwds := cwd :: s.cwds }
  | .exit p => s.byProcess p fun cwd => do
      let k ← iput cwd s.kernel
      pure { s with kernel := k, cwds := s.cwds.eraseIdx p }
  | .close f => s.onFile f fun file => do
      let k ← iput file.ip s.kernel
      pure { s with kernel := k, files := s.files.eraseIdx f }
  | .write f src off n => s.onFile f fun file => do
      let k ← writeChunk file src off n s.kernel
      pure { s with kernel := k }

end ShellXv6.Xv6.FileSystem
