import TskSw.Directory

/-! The calls of `fs/fs.c`, with the path walk of `fs/inode.c` and the descriptor table of
`fs/file.c`. A character array of `n` bytes overflows when its terminating zero would be
stored at index `n`. Descriptors are indices into the table of open files. -/
namespace TskSw.FsCalls
open Bytes BlockProgram BlkIo BlkFlat FsLayout FsKernel DataBitmap DataBlocks Bmap Inodes InodeIo CString Directory
open Mkfs (fnameMax)

def thrFdsNr : Nat := 32

def oRdonly : BitVec 32 := 1
def oCreate : BitVec 32 := 0x10
def fread : BitVec 32 := 1
def fwrite : BitVec 32 := 2

def slash : UInt8 := 47
def rootIno : BitVec 32 := BitVec.ofNat 32 Mkfs.rootDentIno

def skipElement (path : List UInt8) : Option (List UInt8 × List UInt8) :=
  let path := path.dropWhile (· = slash)
  if path = [] then none
  else some ((path.takeWhile (· ≠ slash)).take fnameMax,(path.dropWhile (· ≠ slash)).dropWhile (· = slash))

def elements : Nat → List UInt8 → List (List UInt8)
  | 0,_ => []
  | n+1,path =>
    match skipElement path with
    | none => []
    | some (name,rest) => name :: elements n rest

def walk (parent : Bool) (room : Nat) : Nat → List (List UInt8) → Fs (Option (Nat × List UInt8))
  | ip,[] =>
    if parent then do
      inodePut ip
      pure none
    else pure (some (ip,[]))
  | ip,name :: rest =>
    if room ≤ name.length then abort .outOfBounds
    else do
      inodeLock ip
      let x ← getInode ip
      if x.iMode ≠ fsImodeDir then do
        inodeUnlock ip
        inodePut ip
        pure none
      else if parent = true ∧ rest = [] then do
        inodeUnlock ip
        pure (some (ip,name))
      else
        match ← inodeDirlookup ip name with
        | none => do
            inodeUnlock ip
            inodePut ip
            pure none
        | some (next,_) => do
            inodeUnlock ip
            inodePut ip
            walk parent room next rest

def inodePath2inode (path : List UInt8) (parent : Bool) (room : Nat) : Fs (Option (Nat × List UInt8)) := do
  kassert ((cstr path).head? = some slash)
  let ip ← inodeGet devRoot rootIno
  walk parent room ip (elements ((cstr path).length+1) (cstr path))

def inodeNamei (path : List UInt8) : Fs (Option Nat) := do
  match ← inodePath2inode path false (fnameMax+1) with
  | none => pure none
  | some (ip,_) => pure (some ip)

def inodeNameiparent (path : List UInt8) : Fs (Option (Nat × List UInt8)) := inodePath2inode path true fnameMax

def dot : List UInt8 := [46]
def dotDot : List UInt8 := [46,46]

def addOrPanic (dp : Nat) (name : List UInt8) (inum : BitVec 32) : Fs Unit := do
  let rc ← inodeAddDirectoryEntry dp name inum
  if rc < 0 then abort .panic

def create (path : List UInt8) (type : BitVec 32) (dev : BitVec 64) : Fs (Option Nat) := do
  match ← inodeNameiparent path with
  | none => pure none
  | some (dp,name) => do
      inodeLock dp
      match ← inodeDirlookup dp name with
      | some (ip,_) => do
          inodeUnlock dp
          inodePut dp
          inodeLock ip
          let x ← getInode ip
          if type = fsImodeFile ∧ x.iMode = fsImodeFile then pure (some ip)
          else do
            inodeUnlock ip
            inodePut ip
            pure none
      | none => do
          let d ← getInode dp
          match ← inodeAllocate d.iDev type with
          | none => abort .assertion
          | some ip => do
              inodeLock ip
              let x ← getInode ip
              editInode ip (fun x => {x with iDev := dev, iNlink := 1})
              inodeUpdate ip
              if type = fsImodeDir then do
                let d ← getInode dp
                editInode dp (fun d => {d with iNlink := d.iNlink + 1})
                inodeUpdate dp
                addOrPanic ip dot x.inum
                addOrPanic ip dotDot d.inum
              addOrPanic dp name x.inum
              inodeUnlock dp
              inodePut dp
              pure (some ip)

def editFile (f : Fin maxFdTableSize) (g : FileDescriptor → FileDescriptor) : Fs Unit := do
  let k ← memory
  setMemory (k.withFile f (g (k.file f)))

def setFd (fd : Nat) (f : Option (Fin maxFdTableSize)) : Fs Unit := do
  let k ← memory
  setMemory {k with fds := Function.update k.fds k.current (Function.update (k.fds k.current) fd f)}

def allocNewFd (f : Fin maxFdTableSize) : Fs (Option Nat) := do
  let k ← memory
  match (List.range thrFdsNr).find? (fun fd => (k.fds k.current fd).isNone) with
  | none => pure none
  | some fd => do
      setFd fd (some f)
      pure (some fd)

def fdtableAllocNewFd : Fs (Option (Fin maxFdTableSize)) := do
  let k ← memory
  match (List.finRange maxFdTableSize).find? (fun f => (k.file f).fCount == 0) with
  | none => pure none
  | some f => do
      editFile f (fun d => {d with fCount := 1})
      pure (some f)

def fdtableDuplicateFd (f : Fin maxFdTableSize) : Fs Unit := do
  let k ← memory
  kassert (0 < (k.file f).fCount)
  editFile f (fun d => {d with fCount := d.fCount + 1})

def fdtableCloseFd (f : Fin maxFdTableSize) : Fs Unit := do
  let k ← memory
  kassert (0 < (k.file f).fCount)
  editFile f (fun d => {d with fCount := d.fCount - 1})
  if ¬ 0 < (k.file f).fCount - 1 then
    match (k.file f).fInode with
    | none => abort .nullPointer
    | some ip => inodePut ip

def openFile (fd : Int) : Fs (Except Int (Fin maxFdTableSize)) := do
  if fd < 0 ∨ (thrFdsNr : Int) ≤ fd then pure (.error (-einval))
  else do
    let k ← memory
    match k.fds k.current fd.toNat with
    | none => pure (.error (-ebadf))
    | some f => pure (.ok f)

def fsDup (fd : Int) : Fs Int := do
  match ← openFile fd with
  | .error rc => pure rc
  | .ok f =>
    match ← allocNewFd f with
    | none => pure (-enoent)
    | some newFd => do
        fdtableDuplicateFd f
        pure newFd

def fsClose (fd : Int) : Fs Int := do
  match ← openFile fd with
  | .error rc => pure rc
  | .ok f => do
      setFd fd.toNat none
      fdtableCloseFd f
      pure 0

def inodePutOut (ip : Nat) : Fs Int := do
  inodeUnlock ip
  inodePut ip
  pure (-1)

def openInode (ip : Nat) (omode : BitVec 32) : Fs Int := do
  match ← fdtableAllocNewFd with
  | none => inodePutOut ip
  | some f =>
    match ← allocNewFd f with
    | none => do
        fdtableCloseFd f
        inodePutOut ip
    | some fd => do
        inodeUnlock ip
        editFile f (fun d => {d with fInode := some ip, fOffset := 0, fFlags := omode})
        pure fd

def openSource (path : List UInt8) (omode : BitVec 32) : Fs (Option Nat) := do
  if omode &&& oCreate ≠ 0 then create path fsImodeFile devRoot
  else
    match ← inodeNamei path with
    | none => pure none
    | some ip => do
        inodeLock ip
        let x ← getInode ip
        if x.iMode = fsImodeDir ∧ omode ≠ oRdonly then do
          inodeUnlock ip
          inodePut ip
          pure none
        else pure (some ip)

def fsOpen (path : List UInt8) (omode : BitVec 32) : Fs Int := do
  match ← openSource path omode with
  | none => pure (-1)
  | some ip => openInode ip omode

def linkErrorOut (ip : Nat) : Fs Int := do
  inodeLock ip
  editInode ip (fun x => {x with iNlink := x.iNlink - 1})
  inodeUpdate ip
  inodeUnlock ip
  inodePut ip
  pure (-1)

def linkSource (old : List UInt8) : Fs (Option Nat) := do
  match ← inodeNamei old with
  | none => pure none
  | some ip => do
      inodeLock ip
      let x ← getInode ip
      if x.iMode = fsImodeDir then do
        inodeUnlock ip
        inodePut ip
        pure none
      else pure (some ip)

def linkInode (ip : Nat) (new : List UInt8) : Fs Int := do
  editInode ip (fun x => {x with iNlink := x.iNlink + 1})
  inodeUnlock ip
  inodePut ip
  match ← inodeNameiparent new with
  | none => linkErrorOut ip
  | some (dp,name) => do
      inodeLock dp
      let d ← getInode dp
      let x ← getInode ip
      if d.iDev ≠ x.iDev then do
        inodeUnlock dp
        inodePut dp
        linkErrorOut ip
      else do
        let rc ← inodeAddDirectoryEntry dp name x.inum
        if rc < 0 then do
          inodeUnlock dp
          inodePut dp
          linkErrorOut ip
        else do
          inodeUnlock dp
          inodePut dp
          inodePut ip
          pure 0

def fsLink (old new : List UInt8) : Fs Int := do
  match ← linkSource old with
  | none => pure (-1)
  | some ip => linkInode ip new

-- The assertion on the number of bytes read is the wrong way round.
def emptyLoop (dp : Nat) : Nat → Nat → List UInt8 → Fs Bool
  | 0,_,_ => pure true
  | passes+1,off,de => do
      let x ← getInode dp
      if x.iSize.toNat ≤ off then pure true
      else do
        let (rdBytes,bytes) ← inodeRead dp (BitVec.ofNat 64 off) (BitVec.ofNat 64 direntSize)
        kassert (rdBytes ≠ direntSize)
        let de := bytes ++ de.drop bytes.length
        let e := direntOf de
        if strncmp dot e.dName fnameMax = 0 ∨ strncmp dotDot e.dName fnameMax = 0 then emptyLoop dp passes (off+direntSize) de
        else if e.dIno ≠ 0 then pure false
        else emptyLoop dp passes (off+direntSize) de

def isdirempty (dp : Nat) : Fs Bool := do
  let k ← memory
  emptyLoop dp ((k.inode dp).iSize.toNat/direntSize+1) 0 (onStack k)

def removable (ip : Nat) : Fs Bool := do
  let x ← getInode ip
  if x.iMode = fsImodeDir then isdirempty ip else pure true

def unlinkErrorOut (dp : Nat) : Fs Int := do
  inodeUnlock dp
  inodePut dp
  pure (-1)

def unlinkEntry (dp ip off : Nat) : Fs Int := do
  let wrLen ← inodeWrite dp (List.replicate direntSize 0) (BitVec.ofNat 64 off)
  kassert (wrLen = direntSize)
  let x ← getInode ip
  if x.iMode = fsImodeDir then do
    editInode dp (fun d => {d with iNlink := d.iNlink - 1})
    inodeUpdate dp
  inodeUnlock dp
  inodePut dp
  editInode ip (fun x => {x with iNlink := x.iNlink - 1})
  inodeUpdate ip
  inodeUnlock ip
  inodePut ip
  pure 0

def fsUnlink (path : List UInt8) : Fs Int := do
  match ← inodeNameiparent path with
  | none => pure (-1)
  | some (dp,name) => do
      inodeLock dp
      if strncmp dot name fnameMax = 0 ∨ strncmp dotDot name fnameMax = 0 then unlinkErrorOut dp
      else
        match ← inodeDirlookup dp name with
        | none => unlinkErrorOut dp
        | some (ip,off) => do
            inodeLock ip
            let x ← getInode ip
            kassert (0 < x.iNlink.toInt)
            let empty ← removable ip
            if !empty then do
              inodeUnlock ip
              inodePut ip
              unlinkErrorOut dp
            else unlinkEntry dp ip off

inductive Driver where
  | unregistered | root | console

def devswGetHandle (dev : BitVec 64) : Fs Driver := do
  kassert (dev.toNat ≤ devswDevicesNr)
  if dev.toNat = devswDevicesNr then abort .outOfBounds
  else if dev.toNat = rootDev then pure .root
  else if dev.toNat = consDev then pure .console
  else pure .unregistered

def carriageReturn : UInt8 := 13
def newline : UInt8 := 10

def consoleRead (counts : BitVec 64) : Fs (Int × List UInt8) := do
  let k ← memory
  if k.console.length < counts.toNat then abort .sleeps
  else do
    setMemory {k with console := k.console.drop counts.toNat}
    pure (counts.toInt,(k.console.take counts.toNat).map (fun r => if r = carriageReturn then newline else r))

def consoleWrite (src : List UInt8) : Fs Int := pure (BitVec.ofNat 64 src.length).toInt

def advance (f : Fin maxFdTableSize) (count : Int) : Fs Unit :=
  editFile f (fun d => {d with fOffset := d.fOffset + BitVec.ofInt 64 count})

def countOnStack (k : Kernel) : Int := (u64 ((List.range 8).map (fun i => k.stack.getD i 0))).toInt

def asInt (n : Int) : Int := (BitVec.ofInt 32 n).toInt

def fdFileRead (f : Fin maxFdTableSize) (n : BitVec 64) : Fs (Int × Int × List UInt8) := do
  let k ← memory
  if (k.file f).fFlags &&& fread = 0 then pure (eperm,countOnStack k,[])
  else
    match (k.file f).fInode with
    | none => abort .assertion
    | some ip => do
        inodeLock ip
        let x ← getInode ip
        if x.iMode = fsImodeDev then
          match ← devswGetHandle x.iRdev with
          | .unregistered => do
              inodeUnlock ip
              pure (enodev,countOnStack k,[])
          | .root => abort .nullPointer
          | .console => do
              inodeUnlock ip
              let (count,bytes) ← consoleRead n
              inodeLock ip
              inodeUnlock ip
              pure (0,count,bytes)
        else do
          let (count,bytes) ← inodeRead ip (k.file f).fOffset n
          if 0 < count then do
            advance f count
            inodeUnlock ip
            pure (0,count,bytes)
          else do
            inodeUnlock ip
            pure (asInt count,countOnStack k,bytes)

def fdFileWrite (f : Fin maxFdTableSize) (src : List UInt8) : Fs (Int × Int) := do
  let k ← memory
  if (k.file f).fFlags &&& fwrite = 0 then pure (eperm,countOnStack k)
  else
    match (k.file f).fInode with
    | none => abort .nullPointer
    | some ip => do
        inodeLock ip
        let x ← getInode ip
        if x.iMode = fsImodeDev then
          match ← devswGetHandle x.iRdev with
          | .unregistered => do
              inodeUnlock ip
              pure (enodev,countOnStack k)
          | .root => abort .nullPointer
          | .console => do
              inodeUnlock ip
              let count ← consoleWrite src
              inodeLock ip
              inodeUnlock ip
              pure (0,count)
        else do
          let count ← inodeWrite ip src (k.file f).fOffset
          if 0 < count then do
            advance f count
            inodeUnlock ip
            pure (0,count)
          else do
            inodeUnlock ip
            pure (asInt count,countOnStack k)

def fsRead (fd : Int) (counts : BitVec 64) : Fs (Int × List UInt8) := do
  match ← openFile fd with
  | .error rc => pure (rc,[])
  | .ok f => do
      let (rc,count,bytes) ← fdFileRead f counts
      pure (if rc = 0 then asInt count else rc,bytes)

def fsWrite (fd : Int) (src : List UInt8) : Fs Int := do
  match ← openFile fd with
  | .error rc => pure rc
  | .ok f => do
      let (rc,count) ← fdFileWrite f src
      pure (if rc = 0 then asInt count else rc)

def seekCur : Int := 1
def seekEnd : Int := 2

def fsLseek (fd : Int) (off : BitVec 64) (whence : Int) : Fs Int := do
  match ← openFile fd with
  | .error rc => pure rc
  | .ok f => do
      let k ← memory
      let new := if whence = seekCur then (k.file f).fOffset + off else off
      match (k.file f).fInode with
      | none => abort .assertion
      | some ip => do
          inodeLock ip
          let x ← getInode ip
          let new := if whence = seekEnd then x.iSize + off else new
          let new := if new.toInt < 0 then 0 else new
          inodeUnlock ip
          editFile f (fun d => {d with fOffset := new})
          pure new.toInt

structure Stat where
  mode : BitVec 32
  dev : BitVec 64
  rdev : BitVec 64
  ino : BitVec 32
  nlink : BitVec 64
  size : BitVec 64

def inodeGetStat (x : Inode) : Stat := ⟨x.iMode,x.iDev,x.iRdev,x.inum,x.iNlink,x.iSize⟩

def fdFileStat (f : Fin maxFdTableSize) : Fs Stat := do
  let k ← memory
  match (k.file f).fInode with
  | none => abort .assertion
  | some ip => do
      inodeLock ip
      let x ← getInode ip
      inodeUnlock ip
      pure (inodeGetStat x)

def fsFstat (fd : Int) : Fs (Int × Option Stat) := do
  match ← openFile fd with
  | .error rc => pure (rc,none)
  | .ok f => do
      let st ← fdFileStat f
      pure (0,some st)

inductive Call where
  | fsOpen (path : List UInt8) (omode : BitVec 32)
  | fsDup (fd : Int)
  | fsClose (fd : Int)
  | fsLink (old new : List UInt8)
  | fsUnlink (path : List UInt8)
  | fsRead (fd : Int) (counts : BitVec 64)
  | fsWrite (fd : Int) (src : List UInt8)
  | fsLseek (fd : Int) (off : BitVec 64) (whence : Int)
  | fsFstat (fd : Int)

inductive Reply where
  | code (rc : Int)
  | bytes (rc : Int) (data : List UInt8)
  | stat (rc : Int) (st : Option Stat)

def Call.prog : Call → Fs Reply
  | .fsOpen path omode => do let rc ← FsCalls.fsOpen path omode; pure (.code rc)
  | .fsDup fd => do let rc ← FsCalls.fsDup fd; pure (.code rc)
  | .fsClose fd => do let rc ← FsCalls.fsClose fd; pure (.code rc)
  | .fsLink old new => do let rc ← FsCalls.fsLink old new; pure (.code rc)
  | .fsUnlink path => do let rc ← FsCalls.fsUnlink path; pure (.code rc)
  | .fsRead fd counts => do let (rc,data) ← FsCalls.fsRead fd counts; pure (.bytes rc data)
  | .fsWrite fd src => do let rc ← FsCalls.fsWrite fd src; pure (.code rc)
  | .fsLseek fd off whence => do let rc ← FsCalls.fsLseek fd off whence; pure (.code rc)
  | .fsFstat fd => do let (rc,st) ← FsCalls.fsFstat fd; pure (.stat rc st)

end TskSw.FsCalls
