import TskSw.FsKernel
import Mathlib.Data.Finset.Basic

/-! The two bitmaps of `fs/inode.c`. Inodes and data blocks are taken by the same scan for
the first clear bit; only data blocks are ever given back. The scan counts bits from the
first data block, the release counts them from block 0. -/
namespace TskSw.DataBitmap
open Bytes BlockProgram BlkIo BlkFlat FsLayout FsKernel

def readSuperblock (dev : BitVec 64) : Fs Superblock := do
  bread dev superBlockBlkNo
  let d ← blockData superBlockBlkNo
  releaseBlock superBlockBlkNo
  pure (superblockAt d)

def takeBit (dev : BitVec 64) (start i : Nat) : Fs Bool := do
  let blk := start + i/bitsPerBlock
  bread dev blk
  let d ← blockData blk
  let offset := i % bitsPerBlock
  if chunksPerBlock ≤ offset/chunkBytes then abort .outOfBounds
  else if bitAt d offset then do
    releaseBlock blk
    pure false
  else do
    setBlock blk (withBit d offset)
    writeBlock blk
    releaseBlock blk
    pure true

def scanBitmap (dev : BitVec 64) (start : Nat) : Nat → Nat → Fs (Option Nat)
  | 0,_ => pure none
  | rest+1,i => do
      let taken ← takeBit dev start i
      if taken then pure (some i) else scanBitmap dev start rest (i+1)

def getFreeInode (dev : BitVec 64) : Fs (Option (BitVec 32)) := do
  let sb ← readSuperblock dev
  let found ← scanBitmap dev (resvBlockNr + superBlockBlkNr) sb.sNinodes.toNat 0
  pure (found.map (BitVec.ofNat 32))

def findFreeDataBlock (dev : BitVec 64) : Fs (Option Nat) := do
  let sb ← readSuperblock dev
  match ← scanBitmap dev sb.bitmapStart sb.sNblocks.toNat 0 with
  | none => pure none
  | some i =>
    let blk := sb.sFirstdataBlock.toNat + i
    bread dev blk
    setBlock blk (fun _ => 0)
    pure (some blk)

def releaseDataBlock (dev : BitVec 64) (blk : Nat) : Fs Unit := do
  let k ← memory
  setMemory {k with released := blk :: k.released}
  let sb ← readSuperblock dev
  let bitmapBlk := sb.bitmapStart + blk/bitsPerBlock
  bread dev bitmapBlk
  let d ← blockData bitmapBlk
  let offset := blk % bitsPerBlock
  if chunksPerBlock ≤ offset/chunkBytes then abort .outOfBounds
  else do
    kassert (bitAt d offset = true)
    setBlock bitmapBlk (withoutBit d offset)
    writeBlock bitmapBlk
    releaseBlock bitmapBlk

def mapBit (view : Nat → Block) (start i : Nat) : Bool :=
  bitAt (view (start + i/bitsPerBlock)) (i%bitsPerBlock)

def mapBlock (start i : Nat) : Nat := start + i/bitsPerBlock

def setMapBit (t : Disk) (start i : Nat) : Disk :=
  t.store (mapBlock start i) (withBit (t.view (mapBlock start i)) (i%bitsPerBlock))

def clearMapBit (t : Disk) (start i : Nat) : Disk :=
  t.store (mapBlock start i) (withoutBit (t.view (mapBlock start i)) (i%bitsPerBlock))

def reachable (i : Nat) : Prop := (i%bitsPerBlock)/chunkBytes < chunksPerBlock

theorem reachableSmall {i} (small : i < 512) : reachable i := by
  simp only [reachable,bitsPerBlock,bsize,chunkBytes,chunksPerBlock]
  omega

variable {dev : BitVec 64} {t : Disk} {start i j : Nat} {s u : State}

section Runs
variable {k : Kernel}

theorem runSuperblock (root : dev.toNat = rootDev) (idle : Idle t superBlockBlkNo) :
    run diskLayer (readSuperblock dev) ⟨t,k⟩ = .ok (superblockAt (t.view superBlockBlkNo),⟨t,k⟩) := by
  simp [readSuperblock,runBread root idle,runRelease idle.free]

theorem runSuperblockOk {sb : Superblock} (ok : run diskLayer (readSuperblock dev) s = .ok (sb,u)) :
    dev.toNat = rootDev ∧ Idle s.disk superBlockBlkNo ∧ sb = superblockAt (s.disk.view superBlockBlkNo) ∧ u = s := by
  obtain ⟨_,v,first,rest⟩ := runCut ok
  obtain ⟨root,idle,_⟩ := runBreadOk first
  have ran := runSuperblock (k := s.mem) root idle
  rw [ran] at ok
  cases ok
  exact ⟨root,idle,rfl,rfl⟩

theorem runTakeBit (root : dev.toNat = rootDev) (idle : Idle t (mapBlock start i)) :
    run diskLayer (takeBit dev start i) ⟨t,k⟩ =
      if chunksPerBlock ≤ (i%bitsPerBlock)/chunkBytes then .error .outOfBounds
      else if mapBit t.view start i then .ok (false,⟨t,k⟩)
      else .ok (true,⟨setMapBit t start i,k⟩) := by
  have idle' : Idle t (start + i/bitsPerBlock) := idle
  simp only [takeBit,runBind,runBread root idle',followOk,runData]
  split
  · rfl
  · unfold mapBit
    cases bit : bitAt (t.view (start + i/bitsPerBlock)) (i%bitsPerBlock)
    · have free := (idleStore idle' (m := start + i/bitsPerBlock)
        (withBit (t.view (start + i/bitsPerBlock)) (i%bitsPerBlock))).free
      simp [runRelease free,storeView,setMapBit,mapBlock]
    · simp [runRelease idle'.free]

theorem runTakeBitOk {taken} (ok : run diskLayer (takeBit dev start i) s = .ok (taken,u)) :
    dev.toNat = rootDev ∧ Idle s.disk (mapBlock start i) ∧ reachable i ∧
      (taken = true ∧ mapBit s.disk.view start i = false ∧ u = ⟨setMapBit s.disk start i,s.mem⟩ ∨
        taken = false ∧ mapBit s.disk.view start i = true ∧ u = s) := by
  obtain ⟨_,v,first,rest⟩ := runCut ok
  obtain ⟨root,idle,_⟩ := runBreadOk first
  have ran := runTakeBit (k := s.mem) root idle
  rw [show (⟨s.disk,s.mem⟩ : State) = s from rfl] at ran
  rw [ran] at ok
  split at ok
  · cases ok
  · rename_i inside
    refine ⟨root,idle,by simpa [reachable] using inside,?_⟩
    split at ok
    · rename_i bit
      cases ok
      exact Or.inr ⟨rfl,bit,rfl⟩
    · rename_i bit
      cases ok
      exact Or.inl ⟨rfl,by simpa using bit,rfl⟩

theorem runScan {rest f} (root : dev.toNat = rootDev) (from_ : i ≤ f) (upto : f < i + rest)
    (idle : ∀ j, i ≤ j → j ≤ f → Idle t (mapBlock start j)) (reach : ∀ j, i ≤ j → j ≤ f → reachable j)
    (set : ∀ j, i ≤ j → j < f → mapBit t.view start j = true) (clear : mapBit t.view start f = false) :
    run diskLayer (scanBitmap dev start rest i) ⟨t,k⟩ = .ok (some f,⟨setMapBit t start f,k⟩) := by
  induction rest generalizing i with
  | zero => omega
  | succ rest ih =>
    have inside : ¬ chunksPerBlock ≤ (i%bitsPerBlock)/chunkBytes := by
      have := reach i le_rfl from_
      simp only [reachable] at this
      omega
    rw [scanBitmap,runBind,runTakeBit root (idle i le_rfl from_),if_neg inside]
    by_cases here : i = f
    · subst here
      simp [clear]
    · rw [set i le_rfl (by omega)]
      simp only [if_true,followOk,Bool.false_eq_true,if_false]
      exact ih (by omega) (by omega) (fun j low high => idle j (by omega) high)
        (fun j low high => reach j (by omega) high) (fun j low high => set j (by omega) high)

structure Found (dev : BitVec 64) (s u : State) (start i f : Nat) : Prop where
  from_ : i ≤ f
  clear : mapBit s.disk.view start f = false
  set : ∀ j, i ≤ j → j < f → mapBit s.disk.view start j = true
  reach : reachable f
  idle : Idle s.disk (mapBlock start f)
  root : dev.toNat = rootDev
  result : u = ⟨setMapBit s.disk start f,s.mem⟩

theorem runScanOk {rest : Nat} {found : Option Nat} (ok : run diskLayer (scanBitmap dev start rest i) s = .ok (found,u)) :
    (found = none ∧ u = s) ∨ ∃ f, found = some f ∧ f < i + rest ∧ Found dev s u start i f := by
  induction rest generalizing i with
  | zero =>
    cases ok
    exact Or.inl ⟨rfl,rfl⟩
  | succ rest ih =>
    obtain ⟨taken,v,first,next⟩ := runCut ok
    obtain ⟨root,idle,reach,⟨rfl,clear,rfl⟩ | ⟨rfl,bit,rfl⟩⟩ := runTakeBitOk first
    · cases next
      exact Or.inr ⟨i,rfl,by omega,le_rfl,clear,fun j low high => by omega,reach,idle,root,rfl⟩
    · rcases ih next with none | ⟨f,rfl,bound,hit⟩
      · exact Or.inl none
      · refine Or.inr ⟨f,rfl,by omega,by have := hit.from_; omega,hit.clear,?_,hit.reach,hit.idle,hit.root,hit.result⟩
        intro j low high
        by_cases here : j = i
        · subst here; exact bit
        · exact hit.set j (by omega) high

end Runs

theorem setMapView {t start i n} (apart : n ≠ mapBlock start i) :
    (setMapBit t start i).view n = t.view n := by simp [setMapBit,Disk.store,apart]

theorem clearMapView {n : Nat} (apart : n ≠ mapBlock start i) :
    (clearMapBit t start i).view n = t.view n := by simp [clearMapBit,Disk.store,apart]

theorem mapPlace (same : mapBlock start j = mapBlock start i) :
    (i%bitsPerBlock = j%bitsPerBlock) ↔ i = j := by
  simp only [mapBlock,bitsPerBlock,bsize] at same ⊢
  omega

theorem setMapBits (reach : reachable i) :
    mapBit (setMapBit t start i).view start j = (decide (i = j) || mapBit t.view start j) := by
  by_cases same : mapBlock start j = mapBlock start i
  · have block : start + j/bitsPerBlock = mapBlock start i := same
    simp only [mapBit,block,setMapBit,storeView,bitWith reach,mapPlace same]
  · have apart : i ≠ j := fun e => same (by rw [e])
    simp only [mapBit,setMapView (show start + j/bitsPerBlock ≠ mapBlock start i from same),apart,decide_false,
      Bool.false_or]

theorem clearMapBits (reach : reachable i) :
    mapBit (clearMapBit t start i).view start j = (!decide (i = j) && mapBit t.view start j) := by
  by_cases same : mapBlock start j = mapBlock start i
  · have block : start + j/bitsPerBlock = mapBlock start i := same
    simp only [mapBit,block,clearMapBit,storeView,bitWithout reach,mapPlace same]
  · have apart : i ≠ j := fun e => same (by rw [e])
    simp only [mapBit,clearMapView (show start + j/bitsPerBlock ≠ mapBlock start i from same),apart,decide_false,
      Bool.not_false,Bool.true_and]

section Blocks

abbrev superOf (view : Nat → Block) : Superblock := superblockAt (view superBlockBlkNo)

theorem runFindOk {found} (ok : run diskLayer (findFreeDataBlock dev) s = .ok (found,u)) :
    (found = none ∧ u = s) ∨ ∃ f v, found = some ((superOf s.disk.view).sFirstdataBlock.toNat + f) ∧
      f < (superOf s.disk.view).sNblocks.toNat ∧ Found dev s v (superOf s.disk.view).bitmapStart 0 f ∧
      Idle v.disk ((superOf s.disk.view).sFirstdataBlock.toNat + f) ∧
      u = ⟨v.disk.edit ((superOf s.disk.view).sFirstdataBlock.toNat + f) (fun _ => 0),s.mem⟩ := by
  obtain ⟨sb,_,first,rest⟩ := runCut ok
  obtain ⟨root,_,rfl,rfl⟩ := runSuperblockOk first
  obtain ⟨hit,v,scan,rest⟩ := runCut rest
  rcases runScanOk scan with ⟨rfl,rfl⟩ | ⟨f,rfl,bound,hit⟩
  · cases rest
    exact Or.inl ⟨rfl,rfl⟩
  · obtain ⟨_,w,read,rest⟩ := runCut rest
    obtain ⟨_,idle,rfl⟩ := runBreadOk read
    simp only [runBind,runSet,followOk,runPure,Except.ok.injEq,Prod.mk.injEq] at rest
    obtain ⟨rfl,rfl⟩ := rest
    refine Or.inr ⟨f,v,rfl,by simpa using bound,hit,idle,?_⟩
    rw [hit.result]

theorem runReleaseData {t k blk} (root : dev.toNat = rootDev)
    (super : Idle t superBlockBlkNo) (idle : Idle t (mapBlock (superOf t.view).bitmapStart blk)) :
    run diskLayer (releaseDataBlock dev blk) ⟨t,k⟩ =
      if chunksPerBlock ≤ (blk%bitsPerBlock)/chunkBytes then .error .outOfBounds
      else if mapBit t.view (superOf t.view).bitmapStart blk then
        .ok ((),⟨clearMapBit t (superOf t.view).bitmapStart blk,{k with released := blk :: k.released}⟩)
      else .error .assertion := by
  have idle' : Idle t ((superOf t.view).bitmapStart + blk/bitsPerBlock) := idle
  simp only [releaseDataBlock,runBind,runMemory,runSetMemory,followOk,runSuperblock root super,
    runBread root idle',runData]
  split
  · rfl
  · unfold mapBit kassert
    cases bit : bitAt (t.view ((superOf t.view).bitmapStart + blk/bitsPerBlock)) (blk%bitsPerBlock)
    · simp
    · have free := (idleStore idle' (m := (superOf t.view).bitmapStart + blk/bitsPerBlock)
        (withoutBit (t.view ((superOf t.view).bitmapStart + blk/bitsPerBlock)) (blk%bitsPerBlock))).free
      simp [runRelease free,storeView,clearMapBit,mapBlock]

theorem runReleaseDataOk {blk a} (ok : run diskLayer (releaseDataBlock dev blk) s = .ok (a,u)) :
    dev.toNat = rootDev ∧ Idle s.disk superBlockBlkNo ∧
      Idle s.disk (mapBlock (superOf s.disk.view).bitmapStart blk) ∧ reachable blk ∧
      mapBit s.disk.view (superOf s.disk.view).bitmapStart blk = true ∧
      u = ⟨clearMapBit s.disk (superOf s.disk.view).bitmapStart blk,{s.mem with released := blk :: s.mem.released}⟩ := by
  have whole := ok
  obtain ⟨_,_,load,ok⟩ := runCut ok
  cases load
  obtain ⟨_,_,log,ok⟩ := runCut ok
  cases log
  obtain ⟨sb,_,first,rest⟩ := runCut ok
  obtain ⟨root,super,rfl,rfl⟩ := runSuperblockOk first
  obtain ⟨_,v,read,_⟩ := runCut rest
  obtain ⟨_,idle,_⟩ := runBreadOk read
  have ran := @runReleaseData _ _ s.mem blk root super idle
  rw [show (⟨s.disk,s.mem⟩ : State) = s from rfl,whole] at ran
  split at ran
  · cases ran
  · rename_i inside
    split at ran
    · rename_i bit
      cases ran
      exact ⟨root,super,idle,by simpa [reachable] using inside,bit,rfl⟩
    · cases ran

end Blocks
end TskSw.DataBitmap
