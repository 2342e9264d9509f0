import TskSw.MkfsImage
import Mathlib.Data.Set.Lattice
import Mathlib.Order.CompletePartialOrder

/-! Where things lie in the image. mkfs and the kernel compute the block of a bit, of an
inode and of a data block each on their own; both land in the same one of five regions,
and no block belongs to two of them. -/
namespace TskSw.Regions
open Bytes BlockProgram BlkIo BlkFlat FsLayout FsKernel DataBitmap DataBlocks Inodes Mkfs MkfsImage

inductive Region where
  | reserved | inodeMap | dataMap | inodeTable | data

section Regions
variable (sb : Superblock)

def Region.start : Region → Nat
  | .reserved => 0
  | .inodeMap => resvBlockNr + superBlockBlkNr
  | .dataMap => resvBlockNr + superBlockBlkNr + sb.sImapBlocks.toNat
  | .inodeTable => resvBlockNr + superBlockBlkNr + sb.sImapBlocks.toNat + sb.sBmapBlocks.toNat
  | .data => sb.sFirstdataBlock.toNat

def Region.finish : Region → Nat
  | .reserved => resvBlockNr + superBlockBlkNr
  | .inodeMap => resvBlockNr + superBlockBlkNr + sb.sImapBlocks.toNat
  | .dataMap => resvBlockNr + superBlockBlkNr + sb.sImapBlocks.toNat + sb.sBmapBlocks.toNat
  | .inodeTable => sb.sFirstdataBlock.toNat
  | .data => sb.sFirstdataBlock.toNat + sb.sNblocks.toNat

def Region.blocks (r : Region) : Set Nat := {n | r.start sb ≤ n ∧ n < r.finish sb}

inductive Item where
  | inodeBit (ino : BitVec 32)
  | dataBit (i : Nat)
  | inodeSlot (ino : BitVec 32)
  | dataBlock (i : Nat)

def Item.present : Item → Prop
  | .inodeBit ino => ino.toNat < sb.sNinodes.toNat
  | .dataBit i => i < sb.sNblocks.toNat
  | .inodeSlot ino => ino.toNat < sb.sNinodes.toNat
  | .dataBlock i => i < sb.sNblocks.toNat

def Item.region : Item → Region
  | .inodeBit _ => .inodeMap
  | .dataBit _ => .dataMap
  | .inodeSlot _ => .inodeTable
  | .dataBlock _ => .data

def Formats (n : Nat) : Item → Prop
  | .inodeBit ino => ∀ image, markInodeUsed ino.toNat image = Function.update image n (withBit (image n) (ino.toNat%bitsPerBlock))
  | .dataBit i => ∀ image, markDataBlockUsed sb i image = Function.update image n (withBit (image n) (i%bitsPerBlock))
  | .inodeSlot ino => ∀ d image, writeDiskInode sb ino.toNat d image =
      Function.update image n (setDInode (clearDInode (image n) (ino.toNat%inodesPerBlock)) (ino.toNat%inodesPerBlock) d)
  | .dataBlock i => ∀ buf image, writeDiskDataBlock sb i buf image = Function.update image n buf

-- The kernel works on block `n` for the item and, where it looks the tables up, on the superblock. A bit is given to
-- `release_data_block` by its number, and the block that goes with a bit is the one returned when that bit is taken.
def Uses (n : Nat) : Item → Prop
  | .inodeBit ino => ∀ (s : State) S, Within diskLayer S (takeBit devRoot (resvBlockNr + superBlockBlkNr) ino.toNat) s ↔ S n
  | .dataBit i => (∀ (s : State) S, Within diskLayer S (takeBit devRoot sb.bitmapStart i) s ↔ S n) ∧
      ∀ (s : State) S, superOf s.disk.view = sb → Idle s.disk superBlockBlkNo →
        (Within diskLayer S (releaseDataBlock devRoot i) s ↔ S superBlockBlkNo ∧ S n)
  | .inodeSlot ino => ∀ (s : State) S, superOf s.disk.view = sb → Idle s.disk superBlockBlkNo →
      (Within diskLayer S (readDiskInode devRoot ino) s ↔ S superBlockBlkNo ∧ S n)
  | .dataBlock i => ∀ (s u : State) blk, superOf s.disk.view = sb → run diskLayer (DataBitmap.findFreeDataBlock devRoot) s = .ok (some blk,u) →
      mapBit s.disk.view sb.bitmapStart i = false → mapBit u.disk.view sb.bitmapStart i = true → blk = n

end Regions

section Kernel
variable {s : State} {S : Nat → Prop}

theorem withinBread (n : Nat) : Within diskLayer S (bread devRoot n) s ↔ S n := by
  rw [bread,if_pos devRootNat]
  exact withinReadBlock diskLayer n

theorem withinSuperblock : Within diskLayer S (readSuperblock devRoot) s ↔ S superBlockBlkNo := by
  simp only [readSuperblock,withinBind,withinBread,withinBlockData,withinReleaseBlock,withinPure]
  exact ⟨And.left,fun here => ⟨here,fun _ _ _ => ⟨here,fun _ _ _ => ⟨here,fun _ _ _ => trivial⟩⟩⟩⟩

theorem withinTakeBit (start i : Nat) : Within diskLayer S (takeBit devRoot start i) s ↔ S (mapBlock start i) := by
  rw [takeBit,withinBind,withinBread]
  refine ⟨And.left,fun here => ⟨here,fun _ t _ => ?_⟩⟩
  rw [withinBind,withinBlockData]
  refine ⟨here,fun d u _ => ?_⟩
  dsimp only
  split
  · exact withinAbort diskLayer _
  split
  · simp only [withinBind,withinReleaseBlock,withinPure]
    exact ⟨here,fun _ _ _ => trivial⟩
  · simp only [withinBind,withinSetBlock,withinWriteBlock,withinReleaseBlock,withinPure]
    exact ⟨here,fun _ _ _ => ⟨here,fun _ _ _ => ⟨here,fun _ _ _ => trivial⟩⟩⟩

theorem withinBehind {α : Type} {t : Disk} {k} {f : Superblock → Fs α} (idle : Idle t superBlockBlkNo) :
    Within diskLayer S (readSuperblock devRoot >>= f) ⟨t,k⟩ ↔ S superBlockBlkNo ∧ Within diskLayer S (f (superOf t.view)) ⟨t,k⟩ := by
  have read := runSuperblock (k := k) devRootNat idle
  rw [withinBind,withinSuperblock]
  refine and_congr_right fun _ => ⟨fun rest => rest _ _ read,fun rest a u ran => ?_⟩
  rw [read] at ran
  cases ran
  exact rest

theorem withinReadDiskInode (idle : Idle s.disk superBlockBlkNo) (ino : BitVec 32) :
    Within diskLayer S (readDiskInode devRoot ino) s ↔ S superBlockBlkNo ∧ S (inodeBlock (superOf s.disk.view) ino) := by
  obtain ⟨t,k⟩ := s
  rw [readDiskInode,withinBehind idle,withinBind,withinBread]
  exact and_congr_right fun _ => ⟨And.left,fun here => ⟨here,fun _ _ _ => withinPure diskLayer _⟩⟩

theorem withinReleaseData (idle : Idle s.disk superBlockBlkNo) (blk : Nat) :
    Within diskLayer S (releaseDataBlock devRoot blk) s ↔ S superBlockBlkNo ∧ S (mapBlock (superOf s.disk.view).bitmapStart blk) := by
  rw [releaseDataBlock,withinGet,withinPut,withinBehind idle,withinBind,withinBread]
  refine and_congr_right fun _ => ⟨And.left,fun here => ⟨here,fun _ t _ => ?_⟩⟩
  rw [withinBind,withinBlockData]
  refine ⟨here,fun d u _ => ?_⟩
  dsimp only
  split
  · exact withinAbort diskLayer _
  · rw [withinBind]
    refine ⟨?_,fun _ _ _ => ?_⟩
    · unfold kassert
      split
      · exact withinPure diskLayer _
      · exact withinAbort diskLayer _
    · simp only [withinBind,withinSetBlock,withinWriteBlock,withinReleaseBlock]
      exact ⟨here,fun _ _ _ => ⟨here,fun _ _ _ => here⟩⟩

end Kernel

section Places
variable {size nrFiles : Nat} {sb : Superblock}

theorem regionsOrdered (h : Numbers size nrFiles sb) :
    sb.bitmapStart = Region.start sb .dataMap ∧ sb.inodeStart = Region.start sb .inodeTable ∧
      Region.start sb .inodeTable + (nrFiles + 2)/3 = sb.sFirstdataBlock.toNat := by
  have layout := numbersLayout h
  obtain ⟨_,_,_,first,_,_⟩ := h
  refine ⟨bitmapStartNat layout,inodeStartNat layout,?_⟩
  simp only [Region.start,resvBlockNr,superBlockBlkNr]
  omega

theorem regionsDisjoint (h : Numbers size nrFiles sb) (r r' : Region) (apart : r ≠ r') : Disjoint (r.blocks sb) (r'.blocks sb) := by
  have first := (regionsOrdered h).2.2
  rw [Set.disjoint_left]
  rintro n ⟨low,high⟩ ⟨low',high'⟩
  cases r
  all_goals
    cases r'
    all_goals
      first
      | exact apart rfl
      | simp only [Region.start,Region.finish,resvBlockNr,superBlockBlkNr] at low high low' high' first
        omega

theorem regionsInside (h : Numbers size nrFiles sb) (r : Region) {n} (member : n ∈ r.blocks sb) : n < size/bsize := by
  have first := (regionsOrdered h).2.2
  have inside := h.inside
  obtain ⟨low,high⟩ := member
  cases r
  all_goals
    simp only [Region.start,Region.finish,resvBlockNr,superBlockBlkNr] at low high first
    omega

def place (sb : Superblock) : Item → Nat
  | .inodeBit ino => mapBlock (resvBlockNr + superBlockBlkNr) ino.toNat
  | .dataBit i => mapBlock sb.bitmapStart i
  | .inodeSlot ino => inodeBlock sb ino
  | .dataBlock i => sb.sFirstdataBlock.toNat + i

theorem placeRegion (h : Numbers size nrFiles sb) {item} (present : item.present sb) : place sb item ∈ item.region.blocks sb := by
  obtain ⟨bitmap,inode,first⟩ := regionsOrdered h
  obtain ⟨inodes,imap,bmap,_,_,_⟩ := h
  cases item
  all_goals
    simp only [Item.present] at present
    simp only [place,mapBlock,inodeBlock,Item.region,Region.blocks,Set.mem_ofPred_eq,Region.start,Region.finish,resvBlockNr,superBlockBlkNr,
      bitsPerBlock,inodesPerBlock,dInodeBytes,bsize] at bitmap inode first ⊢
    omega

theorem placeFormats (sb : Superblock) (item : Item) : Formats sb (place sb item) item := by
  cases item with
  | inodeBit ino => exact fun _ => rfl
  | dataBit i => exact fun _ => rfl
  | inodeSlot ino => exact fun _ _ => rfl
  | dataBlock i => exact fun _ _ => rfl

theorem placeUses (sb : Superblock) (item : Item) : Uses sb (place sb item) item := by
  cases item with
  | inodeBit ino => exact fun s S => withinTakeBit _ _
  | dataBit i =>
    refine ⟨fun s S => withinTakeBit _ _,fun s S super idle => ?_⟩
    rw [withinReleaseData idle,super]
    rfl
  | inodeSlot ino =>
    intro s S super idle
    rw [withinReadDiskInode idle,super]
    rfl
  | dataBlock i =>
    rintro s u blk rfl ran clear set
    rcases runFindOk ran with ⟨never,_⟩ | ⟨f,v,found,_,hit,_,rfl⟩
    · cases never
    cases found
    have view : (v.disk.edit ((superOf s.disk.view).sFirstdataBlock.toNat + f) fun _ => 0).view =
        (setMapBit s.disk (superOf s.disk.view).bitmapStart f).view := by
      rw [hit.result]
      rfl
    rw [view,setMapBits hit.reach,clear,Bool.or_false,decide_eq_true_iff] at set
    rw [set]
    rfl

end Places

theorem regionsNeverOverlap {size nrFiles : Nat} (blocks : size/bsize < 2^32) (tables : resvBlockNr + superBlockBlkNr +
      (nrFiles + (bitsPerBlock-1))/bitsPerBlock + (nrFiles + (inodesPerBlock-1))/inodesPerBlock ≤ size/bsize) :
    (initSuperBlock size nrFiles).sFirstdataBlock.toNat + (initSuperBlock size nrFiles).sNblocks.toNat ≤
      (initSuperBlock size nrFiles).sMaxSize.toNat ∧
    (initSuperBlock size nrFiles).sNblocks.toNat ≤ (initSuperBlock size nrFiles).sBmapBlocks.toNat*bitsPerBlock ∧
    (∀ r r' : Region, r ≠ r' → Disjoint (r.blocks (initSuperBlock size nrFiles)) (r'.blocks (initSuperBlock size nrFiles))) ∧
    (∀ r : Region, ∀ n ∈ r.blocks (initSuperBlock size nrFiles), n < (initSuperBlock size nrFiles).sMaxSize.toNat) ∧
    ∀ item : Item, item.present (initSuperBlock size nrFiles) → ∃ n ∈ item.region.blocks (initSuperBlock size nrFiles),
      Formats (initSuperBlock size nrFiles) n item ∧ Uses (initSuperBlock size nrFiles) n item := by
  have numbers := superNumbers blocks tables
  have max : (initSuperBlock size nrFiles).sMaxSize.toNat = size/bsize := wordNat blocks
  rw [max]
  refine ⟨numbers.inside,?_,regionsDisjoint numbers,fun r n => regionsInside numbers r,
    fun item present => ⟨_,placeRegion numbers present,placeFormats _ _,placeUses _ _⟩⟩
  have share := numbers.bmap
  simp only [bitsPerBlock,bsize]
  omega

theorem defaultRegions :
    Disjoint (Region.blocks (initSuperBlock defaultFsSize defaultInodeNr) .inodeTable)
      (Region.blocks (initSuperBlock defaultFsSize defaultInodeNr) .data) :=
  (regionsNeverOverlap (by decide) (by decide)).2.2.1 _ _ nofun

end TskSw.Regions
