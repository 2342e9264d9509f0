import TskSw.Bmap

/-! The inode cache of `fs/inode.c` as one thread runs it: `icache.mtx` is always free,
and a locked inode is never unlocked by somebody else, so waiting for it never ends. -/
namespace TskSw.Inodes
open Bytes BlockProgram BlkIo BlkFlat FsLayout FsKernel DataBitmap DataBlocks Bmap

def ninode : Nat := 1024

def readDiskInode (dev : BitVec 64) (ino : BitVec 32) : Fs (Nat × Nat) := do
  let sb ← readSuperblock dev
  let blk := sb.inodeStart + ino.toNat/inodesPerBlock
  bread dev blk
  pure (blk,ino.toNat % inodesPerBlock)

def lookupSlot (inode : Nat → Inode) (dev : BitVec 64) (inum : BitVec 32) : Option Nat :=
  (List.range ninode).find? (fun i => decide (0 < (inode i).ref) && (inode i).iDev == dev && (inode i).inum == inum)

def emptySlot (inode : Nat → Inode) : Option Nat := (List.range ninode).find? (fun i => (inode i).ref == 0)

def inodeGet (dev : BitVec 64) (inum : BitVec 32) : Fs Nat := do
  let k ← memory
  match lookupSlot k.inode dev inum with
  | some i => do
      editInode i (fun x => {x with ref := x.ref + 1})
      pure i
  | none =>
    match emptySlot k.inode with
    | none => abort .assertion
    | some i => do
        editInode i (fun x => {x with iDev := dev, inum := inum, ref := 1, busy := false, valid := false})
        pure i

def diskCopy (x : Inode) : DInode := ⟨x.iMode,x.iDev,x.iRdev,x.iNlink,x.iSize,x.iAddr⟩

def inodeUpdate (ip : Nat) : Fs Unit := do
  let x ← getInode ip
  let (blk,index) ← readDiskInode x.iDev x.inum
  let d ← blockData blk
  setBlock blk (setDInode d index (diskCopy x))
  writeBlock blk
  releaseBlock blk

def freeDirect (ip : Nat) : Nat → Nat → Fs Unit
  | 0,_ => pure ()
  | rest+1,i => do
      let x ← getInode ip
      if addrAt x.iAddr i ≠ 0 then do
        releaseDataBlock x.iDev (addrAt x.iAddr i).toNat
        setAddr ip i 0
      freeDirect ip rest (i+1)

def freeEntries (dev : BitVec 64) (blk : Nat) : Nat → Nat → Fs Unit
  | 0,_ => pure ()
  | rest+1,j => do
      let d ← blockData blk
      if chunk d j ≠ 0 then do
        releaseDataBlock dev (chunk d j).toNat
        let d ← blockData blk
        setBlock blk (setChunk d j 0)
      freeEntries dev blk rest (j+1)

-- The index block is released whether there is one or not.
def freeIndexBlock (ip i : Nat) : Fs Unit := do
  let x ← getInode ip
  let blk := (addrAt x.iAddr (fsIaddrInDirectMin + i)).toNat
  if blk ≠ 0 then do
    bread x.iDev blk
    freeEntries x.iDev blk iaddrsPerBlock 0
    releaseBlock blk
  releaseDataBlock x.iDev blk
  setAddr ip (fsIaddrInDirectMin + i) 0

def freeIndirect (ip : Nat) : Nat → Nat → Fs Unit
  | 0,_ => pure ()
  | rest+1,i => do
      freeIndexBlock ip i
      freeIndirect ip rest (i+1)

def inodeTruncate (ip : Nat) : Fs Unit := do
  freeDirect ip fsIaddrDirectNr 0
  freeIndirect ip fsIaddrInDirectNr 0
  editInode ip (fun x => {x with iSize := 0})
  inodeUpdate ip

def inodePut (ip : Nat) : Fs Unit := do
  let x ← getInode ip
  if x.ref = 1 ∧ x.valid = true ∧ x.iNlink = 0 then do
    kassert (x.busy = false)
    editInode ip (fun x => {x with busy := true})
    inodeTruncate ip
    inodeUpdate ip
    editInode ip (fun x => {x with busy := false, valid := false})
  editInode ip (fun x => {x with ref := x.ref - 1})

def inodeAllocate (dev : BitVec 64) (mode : BitVec 32) : Fs (Option Nat) := do
  let _ ← readSuperblock dev
  match ← getFreeInode dev with
  | none => pure none
  | some inum => do
      let (blk,index) ← readDiskInode dev inum
      let d ← blockData blk
      setBlock blk (setMode (clearDInode d index) index mode)
      writeBlock blk
      releaseBlock blk
      let i ← inodeGet dev inum
      pure (some i)

def inodeLock (ip : Nat) : Fs Unit := do
  let x ← getInode ip
  kassert (0 < x.ref)
  if x.busy then abort .sleeps
  editInode ip (fun x => {x with busy := true})
  if !x.valid then do
    let _ ← readSuperblock x.iDev
    let (blk,index) ← readDiskInode x.iDev x.inum
    let d ← blockData blk
    let dip := dInodeAt d index
    releaseBlock blk
    editInode ip (fun x => x.load dip)

def inodeUnlock (ip : Nat) : Fs Unit := do
  let x ← getInode ip
  kassert (x.busy = true)
  editInode ip (fun x => {x with busy := false})

def slotFor (k : Kernel) (dev : BitVec 64) (inum : BitVec 32) : Option (Nat × Inode) :=
  match lookupSlot k.inode dev inum with
  | some i => some (i,{k.inode i with ref := (k.inode i).ref + 1})
  | none => (emptySlot k.inode).map
      (fun i => (i,{k.inode i with iDev := dev, inum := inum, ref := 1, busy := false, valid := false}))

structure Gotten (k : Kernel) (dev : BitVec 64) (inum : BitVec 32) (i : Nat) (y : Inode) : Prop where
  inside : i < ninode
  number : y.inum = inum
  device : y.iDev = dev
  ref : y.ref = (k.inode i).ref + 1
  origin : 0 < (k.inode i).ref ∧ y = {k.inode i with ref := (k.inode i).ref + 1} ∨
    (k.inode i).ref = 0 ∧ y.busy = false ∧ y.valid = false ∧
      ∀ j < ninode, 0 < (k.inode j).ref → (k.inode j).iDev = dev → (k.inode j).inum ≠ inum

variable {t : Disk} {k : Kernel} {dev : BitVec 64} {inum : BitVec 32}

section Slots
variable {i : Nat} {y : Inode} {inode : Nat → Inode}

theorem lookupFound (hit : lookupSlot inode dev inum = some i) :
    i < ninode ∧ 0 < (inode i).ref ∧ (inode i).iDev = dev ∧ (inode i).inum = inum := by
  unfold lookupSlot at hit
  have inside := List.mem_of_find?_eq_some hit
  have here := List.find?_some hit
  simp only [Bool.and_eq_true,decide_eq_true_eq,beq_iff_eq] at here
  exact ⟨List.mem_range.mp inside,here.1.1,here.1.2,here.2⟩

theorem lookupNone (none : lookupSlot inode dev inum = none) (j : Nat) (inside : j < ninode) (used : 0 < (inode j).ref)
    (device : (inode j).iDev = dev) : (inode j).inum ≠ inum := by
  intro number
  have never := List.find?_eq_none.mp none j (List.mem_range.mpr inside)
  simp [used,device,number] at never

theorem emptyFound (empty : emptySlot inode = some i) : i < ninode ∧ (inode i).ref = 0 := by
  have zero : (inode i).ref = 0 := by simpa using List.find?_some empty
  unfold emptySlot at empty
  exact ⟨List.mem_range.mp (List.mem_of_find?_eq_some empty),zero⟩

theorem emptySome {j} (inside : j < ninode) (free : (inode j).ref = 0) : ∃ i, emptySlot inode = some i := by
  cases empty : emptySlot inode with
  | some i => exact ⟨i,rfl⟩
  | none =>
    have never := List.find?_eq_none.mp empty j (List.mem_range.mpr inside)
    simp [free] at never

theorem runInodeGet (found : slotFor k dev inum = some (i,y)) :
    run diskLayer (inodeGet dev inum) ⟨t,k⟩ = .ok (i,⟨t,k.withInode i y⟩) := by
  unfold slotFor at found
  simp only [inodeGet,runBind,runMemory,followOk]
  split at found
  · rename_i hit
    cases found
    simp [editInode]
  · rename_i none
    obtain ⟨j,empty,same⟩ := Option.map_eq_some_iff.mp found
    cases same
    simp [empty,editInode]

theorem runInodeGetOk {s u : State} (ok : run diskLayer (inodeGet dev inum) s = .ok (i,u)) :
    ∃ y, slotFor s.mem dev inum = some (i,y) ∧ u = ⟨s.disk,s.mem.withInode i y⟩ := by
  cases found : slotFor s.mem dev inum with
  | some r =>
    obtain ⟨j,y⟩ := r
    have ran := runInodeGet (t := s.disk) found
    rw [ran] at ok
    cases ok
    exact ⟨y,rfl,rfl⟩
  | none =>
    unfold slotFor at found
    split at found
    · cases found
    · rename_i none
      simp [inodeGet,none,Option.map_eq_none_iff.mp found] at ok

theorem slotForGotten (found : slotFor k dev inum = some (i,y)) : Gotten k dev inum i y := by
  unfold slotFor at found
  split at found
  · rename_i hit
    cases found
    obtain ⟨inside,used,device,number⟩ := lookupFound hit
    exact ⟨inside,number,device,rfl,Or.inl ⟨used,rfl⟩⟩
  · rename_i none
    obtain ⟨j,empty,same⟩ := Option.map_eq_some_iff.mp found
    cases same
    obtain ⟨inside,zero⟩ := emptyFound empty
    exact ⟨inside,rfl,rfl,by rw [zero]; rfl,Or.inr ⟨zero,rfl,rfl,lookupNone none⟩⟩

theorem slotForSome {j} (inside : j < ninode) (free : (k.inode j).ref = 0) (dev : BitVec 64) (inum : BitVec 32) :
    ∃ i y, slotFor k dev inum = some (i,y) := by
  unfold slotFor
  split
  · exact ⟨_,_,rfl⟩
  · obtain ⟨i,empty⟩ := emptySome inside free
    rw [empty]
    exact ⟨_,_,rfl⟩

def Linked (x : Inode) : Prop := ¬ (x.ref = 1 ∧ x.valid = true ∧ x.iNlink = 0)

theorem runPutKeep (keep : Linked (k.inode i)) :
    run diskLayer (inodePut i) ⟨t,k⟩ = .ok ((),⟨t,k.withInode i {k.inode i with ref := (k.inode i).ref - 1}⟩) := by
  simp only [inodePut,getInode,editInode,runBind,runMemory,runPure,followOk,if_neg keep,runSetMemory]

theorem runGiveBack {α σ : Type} {L : Layer σ Nat Block Fault} {w : World σ Kernel} {f : Unit → Fs α} (busy : (w.mem.inode i).busy = true)
    (linked : Linked (w.mem.inode i)) : run L (inodeUnlock i >>= fun _ => inodePut i >>= f) w =
      run L (f ()) ⟨w.disk,w.mem.withInode i {w.mem.inode i with busy := false, ref := (w.mem.inode i).ref - 1}⟩ := by
  simp only [inodeUnlock,inodePut,getInode,editInode,runBind,runMemory,runPure,followOk,kassert,if_pos busy,runSetMemory,Kernel.withInode,
    Function.update_self]
  rw [if_neg linked]
  simp only [runBind,runMemory,followOk,runSetMemory,Function.update_self,Function.update_idem]

end Slots

structure Tables (sb : Superblock) (t : Disk) : Prop where
  layout : Layout sb t.size
  super : superOf t.view = sb
  free : ∀ n, 1 ≤ n → n < tablesEnd sb → t.held n = none

def inodeBlock (sb : Superblock) (inum : BitVec 32) : Nat := sb.inodeStart + inum.toNat/inodesPerBlock

def diskInode (view : Nat → Block) (inum : BitVec 32) : DInode :=
  dInodeAt (view (inodeBlock (superOf view) inum)) (inum.toNat % inodesPerBlock)

section Tables
variable {sb : Superblock} {n ip : Nat}

theorem tablesLong (h : Tables sb t) : 2 ≤ sb.bitmapStart ∧ 2 ≤ sb.inodeStart ∧ 2 ≤ tablesEnd sb ∧ tablesEnd sb ≤ t.size := by
  have start := inodeStartNat h.layout
  have map := bitmapStartNat h.layout
  have inside := h.layout.tables
  have : sb.inodeStart ≤ tablesEnd sb := Nat.le_add_right _ _
  omega

theorem tablesIdle (h : Tables sb t) (low : 1 ≤ n) (high : n < tablesEnd sb) : Idle t n :=
  ⟨h.free n low high,high.trans_le h.layout.tables⟩

theorem tablesSuper (h : Tables sb t) : Idle t superBlockBlkNo :=
  tablesIdle h (by decide) (by have := tablesLong h; rw [superBlockBlkNo]; omega)

theorem inodeBlockLow (h : Tables sb t) (inum : BitVec 32) : 2 ≤ inodeBlock sb inum :=
  (tablesLong h).2.1.trans (Nat.le_add_right _ _)

theorem inodeBlockTable (numbered : inum.toNat < sb.sNinodes.toNat) : inodeBlock sb inum < tablesEnd sb := by
  simp only [inodeBlock,tablesEnd,inodesPerBlock,bsize,dInodeBytes]
  omega

theorem tablesInode (h : Tables sb t) (numbered : inum.toNat < sb.sNinodes.toNat) : Idle t (inodeBlock (superOf t.view) inum) := by
  rw [h.super]
  exact tablesIdle h ((inodeBlockLow h inum).trans' (by decide)) (inodeBlockTable numbered)

theorem runReadDiskInode (root : dev.toNat = rootDev) (super : Idle t superBlockBlkNo) (idle : Idle t (inodeBlock (superOf t.view) inum)) :
    run diskLayer (readDiskInode dev inum) ⟨t,k⟩ = .ok ((inodeBlock (superOf t.view) inum,inum.toNat % inodesPerBlock),
      ⟨t.edit (inodeBlock (superOf t.view) inum) (t.view (inodeBlock (superOf t.view) inum)),k⟩) := by
  unfold inodeBlock at idle
  simp only [readDiskInode,runBind,runSuperblock root super,followOk,runBread root idle,runPure]
  rfl

def putInode (t : Disk) (sb : Superblock) (inum : BitVec 32) (d : DInode) : Disk :=
  t.store (inodeBlock sb inum) (setDInode (t.view (inodeBlock sb inum)) (inum.toNat % inodesPerBlock) d)

theorem runInodeUpdate (h : Tables sb t) (root : (k.inode ip).iDev.toNat = rootDev)
    (numbered : (k.inode ip).inum.toNat < sb.sNinodes.toNat) :
    run diskLayer (inodeUpdate ip) ⟨t,k⟩ =
      .ok ((),⟨putInode t sb (k.inode ip).inum (diskCopy (k.inode ip)),k⟩) := by
  have block := tablesInode h numbered
  have free := h.free _ ((inodeBlockLow h (k.inode ip).inum).trans' (by decide)) (inodeBlockTable numbered)
  simp only [inodeUpdate,getInode,runBind,runMemory,runPure,followOk,runReadDiskInode root (tablesSuper h) block,runData,runSet,runWrite,
    h.super]
  exact runRelease (t := putInode t sb (k.inode ip).inum (diskCopy (k.inode ip))) free _ (storeView _).symm

theorem putInodeView {d} (apart : n ≠ inodeBlock sb inum) : (putInode t sb inum d).view n = t.view n := by
  simp [putInode,Disk.store,apart]

theorem putInodeSuper (h : Tables sb t) (d : DInode) : superOf (putInode t sb inum d).view = sb := by
  have apart : superBlockBlkNo ≠ inodeBlock sb inum := by
    have := inodeBlockLow h inum
    rw [superBlockBlkNo]
    omega
  rw [superOf,putInodeView apart]
  exact h.super

theorem diskInodePut (h : Tables sb t) (d : DInode) : diskInode (putInode t sb inum d).view inum = d := by
  rw [diskInode,putInodeSuper h,putInode,storeView]
  exact dInodeSet d (Nat.mod_lt _ (by decide))

theorem diskInodePutOther (h : Tables sb t) (d : DInode) {other} (apart : other ≠ inum) :
    diskInode (putInode t sb inum d).view other = diskInode t.view other := by
  rw [diskInode,putInodeSuper h,diskInode,h.super]
  by_cases same : inodeBlock sb other = inodeBlock sb inum
  · have index : inum.toNat % inodesPerBlock ≠ other.toNat % inodesPerBlock := by
      intro e
      refine apart (BitVec.eq_of_toNat_eq ?_)
      simp only [inodeBlock,inodesPerBlock,bsize,dInodeBytes] at same e
      omega
    rw [same,putInode,storeView,dInodeSetOther d index]
  · rw [putInodeView same]

end Tables
end TskSw.Inodes
