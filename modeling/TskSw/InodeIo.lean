import TskSw.Errno
import TskSw.Inodes

/-! `inode_read` and `inode_write` of `fs/inode.c`. Offsets and sizes are compared as
unsigned numbers; an offset from 2^63 on is negative when it is divided by `BSIZE`. -/
namespace TskSw.InodeIo
open Bytes BlockProgram BlkIo BlkFlat FsLayout FsKernel DataBitmap DataBlocks Bmap Inodes

def readLoop (ip : Nat) : Nat → Nat → Nat → Fs (List UInt8)
  | 0,_,_ => pure []
  | passes+1,off,remains =>
    if remains = 0 then pure []
    else if 2^63 ≤ off then abort .outOfBounds
    else do
      let blk ← bmap ip (off/bsize)
      let x ← getInode ip
      bread x.iDev blk
      let rdBytes := min remains (bsize - off%bsize)
      let d ← blockData blk
      releaseBlock blk
      let rest ← readLoop ip passes (off+rdBytes) (remains-rdBytes)
      pure (slice d (off%bsize) rdBytes ++ rest)

def inodeRead (ip : Nat) (off counts : BitVec 64) : Fs (Int × List UInt8) := do
  let x ← getInode ip
  kassert (x.iMode ≠ fsImodeDev)
  if x.iSize < off ∨ off + counts < off then pure (-enxio,[])
  else do
    let counts := if x.iSize < off + counts then x.iSize - off else counts
    let bytes ← readLoop ip counts.toNat off.toNat counts.toNat
    pure (counts.toInt,bytes)

def writeLoop (ip : Nat) : Nat → Nat → List UInt8 → Fs Unit
  | 0,_,_ => pure ()
  | passes+1,off,src =>
    if src = [] then pure ()
    else if 2^63 ≤ off then abort .outOfBounds
    else do
      let blk ← bmap ip (off/bsize)
      let x ← getInode ip
      bread x.iDev blk
      let wrBytes := min src.length (bsize - off%bsize)
      let d ← blockData blk
      setBlock blk (patch d (off%bsize) (src.take wrBytes))
      writeBlock blk
      releaseBlock blk
      writeLoop ip passes (off+wrBytes) (src.drop wrBytes)

def grow (ip : Nat) (size : BitVec 64) : Fs Unit := do
  let x ← getInode ip
  if x.iSize < size then do
    editInode ip (fun x => {x with iSize := size})
    inodeUpdate ip

def inodeWrite (ip : Nat) (src : List UInt8) (off : BitVec 64) : Fs Int := do
  let counts := BitVec.ofNat 64 src.length
  let x ← getInode ip
  kassert (x.iMode ≠ fsImodeDev)
  if x.iSize < off ∨ off + counts < off then pure (-enxio)
  else if BitVec.ofNat 64 fsMaxfileSize < off + counts then pure (-enxio)
  else do
    writeLoop ip src.length off.toNat src
    if src ≠ [] then grow ip (off + counts)
    pure counts.toInt

theorem inodeWriteRan {s u : State} {ip : Nat} {src : List UInt8} {off : BitVec 64} {rc : Int}
    (ok : run diskLayer (inodeWrite ip src off) s = .ok (rc,u)) :
    rc = -enxio ∧ u = s ∨ ∃ v, run diskLayer (writeLoop ip src.length off.toNat src) s = .ok ((),v) ∧
      (src ≠ [] ∧ run diskLayer (grow ip (off + BitVec.ofNat 64 src.length)) v = .ok ((),u) ∨ src = [] ∧ u = v) := by
  obtain ⟨x,_,get,ok⟩ := runCut ok
  cases get
  obtain ⟨_,_,assertion,ok⟩ := runCut ok
  rw [(runKassertOk assertion).2] at ok
  split at ok
  · cases ok
    exact .inl ⟨rfl,rfl⟩
  split at ok
  · cases ok
    exact .inl ⟨rfl,rfl⟩
  obtain ⟨_,v,loop,ok⟩ := runCut ok
  refine .inr ⟨v,loop,?_⟩
  split at ok
  · rename_i some
    obtain ⟨_,w,grown,ok⟩ := runCut ok
    cases ok
    exact .inl ⟨some,grown⟩
  · rename_i none
    cases ok
    exact .inr ⟨not_not.mp none,rfl⟩

section Block
variable {t : Disk} {k : Kernel} {ip off n : Nat}

theorem offNat (small : off < 2^63) : (BitVec.ofNat 64 off).toNat = off := by
  rw [BitVec.toNat_ofNat]
  omega

theorem offAdd (off n : Nat) : BitVec.ofNat 64 off + BitVec.ofNat 64 n = BitVec.ofNat 64 (off + n) := by
  rw [← BitVec.ofNat_add]

theorem offInt (small : n < 2^63) : (BitVec.ofNat 64 n).toInt = n := by
  rw [BitVec.toInt_eq_toNat_cond,BitVec.toNat_ofNat]
  omega

theorem runReadInside (h : Mapping t (k.inode ip)) (mode : (k.inode ip).iMode ≠ fsImodeDev) (some : 0 < n)
    (fits : off%bsize + n ≤ bsize) (inside : off + n ≤ (k.inode ip).iSize.toNat) (small : off + n < 2^63)
    (block : off/bsize < mappable) (hit : mapped t.view (k.inode ip) (off/bsize) ≠ 0) :
    run diskLayer (inodeRead ip (BitVec.ofNat 64 off) (BitVec.ofNat 64 n)) ⟨t,k⟩ =
      .ok (((n : Int),slice (t.view (mapped t.view (k.inode ip) (off/bsize))) (off%bsize) n),⟨t,k⟩) := by
  have low : ¬ ((k.inode ip).iSize < BitVec.ofNat 64 off ∨ BitVec.ofNat 64 off + BitVec.ofNat 64 n < BitVec.ofNat 64 off) := by
    rw [offAdd off n,BitVec.lt_def,BitVec.lt_def,offNat (by omega),offNat small]
    omega
  have high : ¬ (k.inode ip).iSize < BitVec.ofNat 64 off + BitVec.ofNat 64 n := by
    rw [offAdd off n,BitVec.lt_def,offNat small]
    omega
  have idle : Idle t (mapped t.view (k.inode ip) (off/bsize)) := by
    obtain ⟨i,below,same,_⟩ := h.taken _ block hit
    refine ⟨h.quiet _,?_⟩
    have := h.layout.data
    omega
  have dev : (k.inode ip).iDev.toNat = rootDev := by
    rw [h.root]
    exact devRootNat
  obtain ⟨passes,rfl⟩ : ∃ m, n = m + 1 := ⟨n - 1,by omega⟩
  have whole : min (passes+1) (bsize - off%bsize) = passes + 1 := by omega
  have done : ∀ m o, run diskLayer (readLoop ip m o 0) ⟨t,k⟩ = .ok ([],⟨t,k⟩) := by
    intro m o
    cases m <;> simp [readLoop]
  have loop : run diskLayer (readLoop ip (passes+1) off (passes+1)) ⟨t,k⟩ =
      .ok (slice (t.view (mapped t.view (k.inode ip) (off/bsize))) (off%bsize) (passes+1),⟨t,k⟩) := by
    simp only [readLoop,if_neg (Nat.succ_ne_zero passes),if_neg (show ¬ 2^63 ≤ off by omega),runBind,runMapped h block hit,
      followOk,getInode,runMemory,runPure,runBread dev idle,runData,runRelease idle.free _ rfl,whole,Nat.sub_self,done,
      List.append_nil]
  simp only [inodeRead,getInode,runBind,runMemory,runPure,followOk,kassert,if_pos mode,if_neg low,if_neg high,
    offNat (show passes + 1 < 2^63 by omega),offNat (show off < 2^63 by omega),loop,offInt (show passes + 1 < 2^63 by omega)]

theorem runWriteInside {src b u m} (length : src.length = n)
    (mapping : run diskLayer (bmap ip (off/bsize)) ⟨t,k⟩ = .ok (b,⟨u,m⟩)) (idle : Idle u b)
    (dev : (m.inode ip).iDev.toNat = rootDev) (mode : (k.inode ip).iMode ≠ fsImodeDev) (some : 0 < n)
    (fits : off%bsize + n ≤ bsize) (start : off ≤ (k.inode ip).iSize.toNat) (small : off + n ≤ fsMaxfileSize) :
    run diskLayer (inodeWrite ip src (BitVec.ofNat 64 off)) ⟨t,k⟩ =
      follow (run diskLayer (grow ip (BitVec.ofNat 64 (off+n))) ⟨u.store b (patch (u.view b) (off%bsize) src),m⟩)
        (fun _ s => .ok ((n : Int),s)) := by
  have bound : off + n < 2^63 := Nat.lt_of_le_of_lt small (by decide)
  have low : ¬ ((k.inode ip).iSize < BitVec.ofNat 64 off ∨ BitVec.ofNat 64 (off+n) < BitVec.ofNat 64 off) := by
    rw [BitVec.lt_def,BitVec.lt_def,offNat (by omega),offNat bound]
    omega
  have high : ¬ BitVec.ofNat 64 fsMaxfileSize < BitVec.ofNat 64 (off+n) := by
    rw [BitVec.lt_def,offNat bound,offNat (by decide)]
    omega
  have filled : src ≠ [] := by
    rintro rfl
    rw [List.length_nil] at length
    omega
  obtain ⟨passes,rfl⟩ : ∃ m, n = m + 1 := ⟨n - 1,by omega⟩
  have whole : min (passes+1) (bsize - off%bsize) = passes + 1 := by omega
  have loop : run diskLayer (writeLoop ip (passes+1) off src) ⟨t,k⟩ =
      .ok ((),⟨u.store b (patch (u.view b) (off%bsize) src),m⟩) := by
    have taken : src.take (passes+1) = src := List.take_of_length_le (Nat.le_of_eq length)
    have dropped : src.drop (passes+1) = [] := List.drop_eq_nil_of_le (Nat.le_of_eq length)
    have free : (u.store b (patch (u.view b) (off%bsize) src)).held b = none := idle.free
    simp only [writeLoop,if_neg filled,if_neg (show ¬ 2^63 ≤ off by omega),runBind,mapping,followOk,getInode,runMemory,runPure,
      runBread dev idle,runData,length,whole,taken,runSet,runWrite,runRelease free _ (storeView _).symm,dropped]
    cases passes <;> simp [writeLoop]
  simp only [inodeWrite,getInode,runBind,runMemory,runPure,followOk,kassert,if_pos mode,length,offAdd,if_neg low,if_neg high,
    offNat (show off < 2^63 by omega),loop,if_pos filled,offInt (show passes + 1 < 2^63 by omega)]

end Block

section Grow
variable {sb : Superblock} {t : Disk} {k : Kernel} {ip : Nat} {size : BitVec 64}

theorem runGrowNone (enough : size.toNat ≤ (k.inode ip).iSize.toNat) :
    run diskLayer (grow ip size) ⟨t,k⟩ = .ok ((),⟨t,k⟩) := by
  have same : ¬ (k.inode ip).iSize < size := by
    rw [BitVec.lt_def]
    omega
  simp [grow,getInode,same]

theorem runGrow (h : Tables sb t) (root : (k.inode ip).iDev.toNat = rootDev)
    (numbered : (k.inode ip).inum.toNat < sb.sNinodes.toNat) (short : (k.inode ip).iSize.toNat < size.toNat) :
    run diskLayer (grow ip size) ⟨t,k⟩ =
      .ok ((),⟨putInode t sb (k.inode ip).inum (diskCopy {k.inode ip with iSize := size}),
        k.withInode ip {k.inode ip with iSize := size}⟩) := by
  have more : (k.inode ip).iSize < size := by
    rw [BitVec.lt_def]
    exact short
  have last := @runInodeUpdate _ (k.withInode ip {k.inode ip with iSize := size}) _ ip h
  have get : (k.withInode ip {k.inode ip with iSize := size}).inode ip = {k.inode ip with iSize := size} := by
    simp [Kernel.withInode]
  rw [get] at last
  simp only [grow,getInode,editInode,runBind,runMemory,runPure,runSetMemory,followOk,if_pos more]
  exact last root numbered

end Grow
end TskSw.InodeIo
