import Xv6.Fs.Inodes

/-!
# File-system calls

`sysfile.c` as far as it works on inodes and names. A call runs from its beginning to its end without any
other in between. What depends on memory is an argument of the call: whether a string or a buffer can be
copied, and what is in it. There are no pipes here, and the console is a device that may return anything.
-/

namespace Xv6

abbrev MAXPATH : Nat := 128

namespace Fs

variable (sb : Superblock)

/-- `argstr(n, buf, MAXPATH)`, where the user's pointer leads to the bytes `a`. -/
def argstr (a : Option (List UInt8)) : Option (List UInt8) :=
  (a.map (List.takeWhile (· ≠ 0))).filter (·.length < MAXPATH)

/-- The name ".". -/
def dot : List UInt8 := [46]

/-- The name "..". -/
def dotdot : List UInt8 := [46, 46]

/-- The end of `sys_link`, `bad`: the link that was counted is not made. -/
def linkBad (ip : Ptr) : M Bool := do
  ilock ip
  assign ip fun d => { d with nlink := d.nlink - 1 }
  iupdate sb ip
  iunlockput sb ip
  endOp
  return false

/-- Create the path `new` as a link to the same inode as `old`; `false` for -1. -/
def sysLink (cwd : Ptr) (old new : Option (List UInt8)) : M Bool := do
  match argstr old, argstr new with
  | some old, some new =>
    beginOp
    match ← namei sb cwd old with
    | none =>
      endOp
      return false
    | some ip =>
      ilock ip
      if (← copyOf ip).type = .dir then
        iunlockput sb ip
        endOp
        return false
      else
        assign ip fun d => { d with nlink := d.nlink + 1 }
        iupdate sb ip
        iunlock ip
        match ← nameiparent sb cwd new with
        | none => linkBad sb ip
        | some (dp, name) =>
          ilock dp
          if ← dirlink sb dp name ((← get).itable ip).inum then
            iunlockput sb dp
            iput sb ip
            endOp
            return true
          else
            iunlockput sb dp
            linkBad sb ip
  | _, _ => return false

def isdiremptyLoop (dp : Ptr) : (fuel off : Nat) → M Bool
  | 0, _ => return true
  | fuel + 1, off => do
    if off < (← copyOf dp).size then
      let de ← readDirent sb .isdiremptyReadi dp off
      if de.inum ≠ 0 then return false else isdiremptyLoop dp fuel (off + 16)
    else return true

/-- Is the directory `dp` empty except for "." and ".." ? -/
def isdirempty (dp : Ptr) : M Bool := do
  isdiremptyLoop sb dp ((← copyOf dp).size / 16 + 1) 32

/-- The end of `sys_unlink`, `bad`. -/
def unlinkBad (dp : Ptr) : M Bool := do
  iunlockput sb dp
  endOp
  return false

/-- The rest of `sys_unlink` once the entry at `off` of `dp`, with the inode `ip`, may be removed. -/
def unlinkEntry (dp ip : Ptr) (off : Nat) : M Bool := do
  if ← writeDirent sb dp ⟨0, []⟩ off then
    if (← copyOf ip).type = .dir then
      assign dp fun d => { d with nlink := d.nlink - 1 }
      iupdate sb dp
    else pure ()
    iunlockput sb dp
    assign ip fun d => { d with nlink := d.nlink - 1 }
    iupdate sb ip
    iunlockput sb ip
    endOp
    return true
  else throw .unlinkWritei

def sysUnlink (cwd : Ptr) (path : Option (List UInt8)) : M Bool := do
  match argstr path with
  | none => return false
  | some path =>
    beginOp
    match ← nameiparent sb cwd path with
    | none =>
      endOp
      return false
    | some (dp, name) =>
      ilock dp
      if namecmp name dot ∨ namecmp name dotdot then unlinkBad sb dp
      else match ← dirlookup sb dp name with
        | none => unlinkBad sb dp
        | some (ip, off) =>
          ilock ip
          if (← copyOf ip).nlink < 1 then throw .unlinkNlink
          else if (← copyOf ip).type = .dir then
            if ← isdirempty sb ip then unlinkEntry sb dp ip off
            else
              iunlockput sb ip
              unlinkBad sb dp
          else unlinkEntry sb dp ip off

/-- The end of `create`, `fail`: de-allocate `ip`. -/
def createFail (dp ip : Ptr) : M (Option Ptr) := do
  assign ip fun d => { d with nlink := 0 }
  iupdate sb ip
  iunlockput sb ip
  iunlockput sb dp
  return none

/-- `create`, from the new inode `ip` on. -/
def createNew (dp ip : Ptr) (name : List UInt8) (type : InodeType) (major minor : Int16) :
    M (Option Ptr) := do
  ilock ip
  assign ip fun d => { d with major := major, minor := minor, nlink := 1 }
  iupdate sb ip
  if type = .dir then
    -- create . and .. entries; no ip->nlink++ for "."
    if ← dirlink sb ip dot ((← get).itable ip).inum then
      if ← dirlink sb ip dotdot ((← get).itable dp).inum then
        if ← dirlink sb dp name ((← get).itable ip).inum then
          -- now that success is guaranteed: for ".."
          assign dp fun d => { d with nlink := d.nlink + 1 }
          iupdate sb dp
          iunlockput sb dp
          return some ip
        else createFail sb dp ip
      else createFail sb dp ip
    else createFail sb dp ip
  else if ← dirlink sb dp name ((← get).itable ip).inum then
    iunlockput sb dp
    return some ip
  else createFail sb dp ip

/-- The inode for `path`, locked; `none` for 0. -/
def create (cwd : Ptr) (path : List UInt8) (type : InodeType) (major minor : Int16) :
    M (Option Ptr) := do
  match ← nameiparent sb cwd path with
  | none => return none
  | some (dp, name) =>
    ilock dp
    match ← dirlookup sb dp name with
    | some (ip, _) =>
      iunlockput sb dp
      ilock ip
      let t := (← copyOf ip).type
      if type = .file ∧ (t = .file ∨ t = .device) then return some ip
      else
        iunlockput sb ip
        return none
    | none => match ← ialloc sb type with
      | none =>
        iunlockput sb dp
        return none
      | some ip => createNew sb dp ip name type major minor

/-- `sys_mkdir` and `sys_mknod`. -/
def sysMake (cwd : Ptr) (path : Option (List UInt8)) (type : InodeType) (major minor : Int16) :
    M Bool := do
  beginOp
  match argstr path with
  | none =>
    endOp
    return false
  | some path => match ← create sb cwd path type major minor with
    | none =>
      endOp
      return false
    | some ip =>
      iunlockput sb ip
      endOp
      return true

def sysMkdir (cwd : Ptr) (path : Option (List UInt8)) : M Bool := sysMake sb cwd path .dir 0 0

/-- `sys_chdir`: the new current directory, or `none` for -1. -/
def sysChdir (cwd : Ptr) (path : Option (List UInt8)) : M (Option Ptr) := do
  beginOp
  match argstr path with
  | none =>
    endOp
    return none
  | some path => match ← namei sb cwd path with
    | none =>
      endOp
      return none
    | some ip =>
      ilock ip
      if (← copyOf ip).type ≠ .dir then
        iunlockput sb ip
        endOp
        return none
      else
        iunlock ip
        iput sb cwd
        endOp
        return some ip

/-- The inode that `sys_open` opens, locked. -/
def openInode (cwd : Ptr) (path : List UInt8) (creates rdonly : Bool) : M (Option Ptr) := do
  if creates then create sb cwd path .file 0 0
  else match ← namei sb cwd path with
    | none => return none
    | some ip =>
      ilock ip
      if (← copyOf ip).type = .dir ∧ !rdonly then
        iunlockput sb ip
        return none
      else return some ip

end Fs

end Xv6
