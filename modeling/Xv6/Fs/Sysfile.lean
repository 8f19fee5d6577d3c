import Xv6.Fs.File

/-!
System calls of `sysfile.c` that work on the file system, and the file part of
`fork` and `exit`. A path argument is `none` when `argstr` fails on it.
-/

namespace Xv6

abbrev Path := List UInt8

def sysDup (fd : ℤ) : K ℤ := do
  match ← argfd fd with
  | none => return -1
  | some f =>
      match ← fdalloc f with
      | none => return -1
      | some fd =>
          let _ ← filedup f
          return fd

def sysRead (fd : ℤ) (addr : ℕ) (n ext : ℤ) : K ℤ := do
  match ← argfd fd with
  | none => return -1
  | some f => fileread f addr n ext

def sysWrite (fd : ℤ) (addr : ℕ) (n ext : ℤ) : K ℤ := do
  match ← argfd fd with
  | none => return -1
  | some f => filewrite f addr n ext

def sysClose (fd : ℤ) : K ℤ := do
  match ← argfd fd with
  | none => return -1
  | some f =>
      modifyProc fun p => { p with ofile := p.ofile.set fd.toNat none }
      fileclose f
      return 0

/-- The label `bad` of `sys_link`. -/
def sysLinkBad (ip : ℕ) : K ℤ := do
  ilock ip
  modifyInode ip fun n => { n with nlink := short (n.nlink - 1) }
  iupdate ip
  iunlockput ip
  endOp
  return -1

def sysLink (old new : Option Path) : K ℤ := do
  match old, new with
  | some old, some new =>
      beginOp
      match ← namei old with
      | none =>
          endOp
          return -1
      | some ip =>
          ilock ip
          if (← getInode ip).type = T_DIR then
            iunlockput ip
            endOp
            return -1
          else
            modifyInode ip fun n => { n with nlink := short (n.nlink + 1) }
            iupdate ip
            iunlock ip
            match ← nameiparent new with
            | none => sysLinkBad ip
            | some (dp, name) =>
                ilock dp
                -- `dirlink` is not called when the devices differ
                let same := (← getInode dp).dev = (← getInode ip).dev
                let ok ← if same then dirlink dp name (← getInode ip).inum else pure false
                iunlockput dp
                if ok then
                  iput ip
                  endOp
                  return 0
                else
                  sysLinkBad ip
  | _, _ => return -1

/-- The loop of `isdirempty` from `off` on for `n` rounds. -/
def isdiremptyFrom (dp off : ℕ) : ℕ → K Bool
  | 0 => return true
  | n + 1 => do
      let de ← readDirent dp off .isdiremptyReadi
      if de.inum ≠ 0 then return false else isdiremptyFrom dp (off + DIRENTSIZE) n

def isdirempty (dp : ℕ) : K Bool := do
  isdiremptyFrom dp (2 * DIRENTSIZE) (direntCount (← getInode dp).size - 2)

/-- The names `"."` and `".."`. -/
def DOT : List UInt8 := [46]
def DOTDOT : List UInt8 := [46, 46]

/-- The label `bad` of `sys_unlink`. -/
def sysUnlinkBad (dp : ℕ) : K ℤ := do
  iunlockput dp
  endOp
  return -1

def sysUnlink (path : Option Path) : K ℤ := do
  match path with
  | none => return -1
  | some path =>
      beginOp
      match ← nameiparent path with
      | none =>
          endOp
          return -1
      | some (dp, name) =>
          ilock dp
          if namecmp name DOT = 0 ∨ namecmp name DOTDOT = 0 then
            sysUnlinkBad dp
          else
            match ← dirlookup dp name with
            | none => sysUnlinkBad dp
            | some (ip, off) =>
                ilock ip
                if (← getInode ip).nlink < 1 then panic .unlinkNlink
                let empty ← if (← getInode ip).type = T_DIR then isdirempty ip else pure true
                if !empty then
                  iunlockput ip
                  sysUnlinkBad dp
                else
                  writeDirent dp off ⟨0, List.replicate DIRSIZ 0⟩ .unlinkWritei
                  if (← getInode ip).type = T_DIR then
                    modifyInode dp fun n => { n with nlink := short (n.nlink - 1) }
                    iupdate dp
                  iunlockput dp
                  modifyInode ip fun n => { n with nlink := short (n.nlink - 1) }
                  iupdate ip
                  iunlockput ip
                  endOp
                  return 0

/-- `create`: the inode, locked. `major` and `minor` are `short`. -/
def create (path : Path) (type major minor : ℤ) : K (Option ℕ) := do
  match ← nameiparent path with
  | none => return none
  | some (dp, name) =>
      ilock dp
      match ← dirlookup dp name with
      | some (ip, _) =>
          iunlockput dp
          ilock ip
          let t := (← getInode ip).type
          if type = T_FILE ∧ (t = T_FILE ∨ t = T_DEVICE) then
            return some ip
          else
            iunlockput ip
            return none
      | none =>
          let ip ← ialloc (← getInode dp).dev type
          ilock ip
          modifyInode ip fun n => { n with major := major, minor := minor, nlink := 1 }
          iupdate ip
          if type = T_DIR then
            modifyInode dp fun n => { n with nlink := short (n.nlink + 1) }
            iupdate dp
            if !(← dirlink ip DOT (← getInode ip).inum) then panic .createDots
            if !(← dirlink ip DOTDOT (← getInode dp).inum) then panic .createDots
          if !(← dirlink dp name (← getInode ip).inum) then panic .createDirlink
          iunlockput dp
          return some ip

/-- The failure branches of `sys_open` after it has an inode. -/
def sysOpenBad (ip : ℕ) : K ℤ := do
  iunlockput ip
  endOp
  return -1

def setUpFile (f ip : ℕ) (d : Dinode) (omode : ℕ) : K Unit :=
  modifyFile f fun x => { x with
    type := if d.type = T_DEVICE then .device else .inode
    major := if d.type = T_DEVICE then d.major else x.major
    off := if d.type = T_DEVICE then x.off else 0
    ip := ip
    readable := omode &&& O_WRONLY = 0
    writable := omode &&& O_WRONLY ≠ 0 ∨ omode &&& O_RDWR ≠ 0 }

/-- `sys_open` from the point where `ip` is found and locked. -/
def sysOpenInode (ip omode : ℕ) : K ℤ := do
  let d := (← getInode ip).toDinode
  if d.type = T_DEVICE ∧ (d.major < 0 ∨ d.major ≥ NDEV) then
    sysOpenBad ip
  else
    match ← filealloc with
    | none => sysOpenBad ip
    | some f =>
        match ← fdalloc f with
        | none =>
            fileclose f
            sysOpenBad ip
        | some fd =>
            setUpFile f ip d omode
            if omode &&& O_TRUNC ≠ 0 ∧ d.type = T_FILE then itrunc ip
            iunlock ip
            endOp
            return fd

/-- `omode` is the 32-bit pattern of the argument. -/
def sysOpen (path : Option Path) (omode : ℕ) : K ℤ := do
  match path with
  | none => return -1
  | some path =>
      beginOp
      if omode &&& O_CREATE ≠ 0 then
        match ← create path T_FILE 0 0 with
        | none =>
            endOp
            return -1
        | some ip => sysOpenInode ip omode
      else
        match ← namei path with
        | none =>
            endOp
            return -1
        | some ip =>
            ilock ip
            if (← getInode ip).type = T_DIR ∧ omode ≠ 0 then sysOpenBad ip
            else sysOpenInode ip omode

/-- `sys_mkdir` and `sys_mknod`, which differ in the arguments of `create`. -/
def sysMake (path : Option Path) (type major minor : ℤ) : K ℤ := do
  beginOp
  match path with
  | none =>
      endOp
      return -1
  | some path =>
      match ← create path type major minor with
      | none =>
          endOp
          return -1
      | some ip =>
          iunlockput ip
          endOp
          return 0

def sysMkdir (path : Option Path) : K ℤ := sysMake path T_DIR 0 0

def sysMknod (path : Option Path) (major minor : ℤ) : K ℤ :=
  sysMake path T_DEVICE (short major) (short minor)

def sysChdir (path : Option Path) : K ℤ := do
  beginOp
  match path with
  | none =>
      endOp
      return -1
  | some path =>
      match ← namei path with
      | none =>
          endOp
          return -1
      | some ip =>
          ilock ip
          if (← getInode ip).type ≠ T_DIR then
            iunlockput ip
            endOp
            return -1
          else
            iunlock ip
            iput ((← myproc).cwd.getD 0)
            endOp
            modifyProc fun p => { p with cwd := some ip }
            return 0

/-- `np->ofile[i] = filedup(p->ofile[i])` from `i` on for `n` rounds. -/
def forkFiles (np i : ℕ) : ℕ → K Unit
  | 0 => return
  | n + 1 => do
      match (← myproc).ofile.get i with
      | some f =>
          let f ← filedup f
          modify fun s => { s with
            procs := s.procs.set np
              { s.procs.get np with ofile := (s.procs.get np).ofile.set i (some f) } }
      | none => pure ()
      forkFiles np (i + 1) n

/-- The file part of `fork`: descriptors and the current directory go to process `np`. -/
def forkFs (np : ℕ) : K Unit := do
  forkFiles np 0 NOFILE
  let d ← idup ((← myproc).cwd.getD 0)
  modify fun s => { s with procs := s.procs.set np { s.procs.get np with cwd := some d } }

/-- `exit` closes the descriptors from `fd` on for `n` rounds. -/
def exitFiles (fd : ℕ) : ℕ → K Unit
  | 0 => return
  | n + 1 => do
      match (← myproc).ofile.get fd with
      | some f =>
          fileclose f
          modifyProc fun p => { p with ofile := p.ofile.set fd none }
      | none => pure ()
      exitFiles (fd + 1) n

/-- The file part of `exit`. -/
def exitFs : K Unit := do
  exitFiles 0 NOFILE
  beginOp
  iput ((← myproc).cwd.getD 0)
  endOp
  modifyProc fun p => { p with cwd := none }

end Xv6
