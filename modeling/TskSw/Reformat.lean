import TskSw.FreshImage

/-! mkfs over a file that already has contents. `map_file` keeps them, the superblock is
written in place, and every other block is read, changed and written back, so an image is
a function of the parameters and of what was in the file before. -/
namespace TskSw.Reformat
open Bytes BlkIo FsLayout DataBitmap DataBlocks Inodes FsCalls FsTree Mkfs MkfsImage
open Function (update update_of_ne update_self)

def onSector (blocks blk : Nat) (image : Image) : Except Fault Image := if blk < blocks then .ok image else .error .outOfBounds

def markInodeUsed (blocks ino : Nat) (image : Image) : Except Fault Image :=
  onSector blocks (mapBlock (resvBlockNr + superBlockBlkNr) ino) (Mkfs.markInodeUsed ino image)

def markDataBlockUsed (blocks blk : Nat) (image : Image) : Except Fault Image :=
  onSector blocks (mapBlock (superOf image).bitmapStart blk) (Mkfs.markDataBlockUsed (superOf image) blk image)

def findFreeDataBlock (blocks : Nat) : Nat → Nat → Image → Except Fault (Option (Nat × Image))
  | 0,_,_ => .ok none
  | rest+1,i,image =>
    if blocks ≤ mapBlock (superOf image).bitmapStart i then .error .outOfBounds
    -- From here on the scan reads behind its buffer.
    else if chunksPerBlock ≤ (i%bitsPerBlock)/chunkBytes then .error .outOfBounds
    else if mapBit image (superOf image).bitmapStart i then findFreeDataBlock blocks rest (i+1) image
    else (markDataBlockUsed blocks i image).map (fun image => some (i,image))

def writeDiskInode (blocks ino : Nat) (d : DInode) (image : Image) : Except Fault Image :=
  onSector blocks ((superOf image).inodeStart + ino/inodesPerBlock) (Mkfs.writeDiskInode (superOf image) ino d image)

def writeDiskDataBlock (blocks dblk : Nat) (buf : Block) (image : Image) : Except Fault Image :=
  onSector blocks ((superOf image).sFirstdataBlock.toNat + dblk) (Mkfs.writeDiskDataBlock (superOf image) dblk buf image)

def writeRootDirent (blocks : Nat) (image : Image) : Except Fault Image := do
  let image ← markInodeUsed blocks rootDentIno image
  let image ← markInodeUsed blocks consIno image
  match ← findFreeDataBlock blocks (superOf image).sNblocks.toNat 0 image with
  -- The result of the search is not looked at, and `blk` was never set.
  | none => .error .stale
  | some (blk,image) => do
    let image ← writeDiskInode blocks rootDentIno (rootInode (superOf image) blk) image
    let image ← writeDiskInode blocks consIno consInode image
    writeDiskDataBlock blocks blk (patch zeros 0 rootDirents) image

def initSuperBlock (size nrFiles : Nat) (image : Image) : Except Fault Image := do
  let image ← onSector (size/bsize) superBlockBlkNo
    (update image superBlockBlkNo (patch (image superBlockBlkNo) 0 (superblockBytes (Mkfs.initSuperBlock size nrFiles))))
  let image ← markInodeUsed (size/bsize) 0 image
  markInodeUsed (size/bsize) 1 image

def superblockSize : Nat := 32

def writeFsImage (size nrFiles : Nat) (prior : Image) : Except Fault Image := do
  let image ← initSuperBlock size nrFiles prior
  let image ← writeRootDirent (size/bsize) image
  onSector (size/bsize) superBlockBlkNo
    (update image superBlockBlkNo (patch zeros 0 (slice (image superBlockBlkNo) 0 superblockSize)))

section Super

theorem copiedField {d : Block} {k : Nat} (small : k < 8) : field32 (patch zeros 0 (slice d 0 superblockSize)) k = field32 d k := by
  have part := slicePatchInside zeros 0 (4*k) 4 (slice d 0 superblockSize) (by rw [sliceLength]; decide)
    (by rw [sliceLength,superblockSize]; omega)
  rw [Nat.zero_add] at part
  rw [field32,field32,part]
  refine congrArg u32 (List.ext_getElem? fun i => ?_)
  by_cases inside : i < 4
  · rw [List.getElem?_take_of_lt inside,List.getElem?_drop,sliceAt _ _ _ _ (by rw [superblockSize]; omega),sliceAt _ _ _ _ inside,Nat.zero_add]
  · rw [List.getElem?_eq_none (by simp; omega),List.getElem?_eq_none (by simp; omega)]

theorem superCopied (d : Block) : superblockAt (patch zeros 0 (slice d 0 superblockSize)) = superblockAt d := by
  simp only [superblockAt,copiedField (d := d) (show 0 < 8 by decide),copiedField (d := d) (show 1 < 8 by decide),
    copiedField (d := d) (show 2 < 8 by decide),copiedField (d := d) (show 3 < 8 by decide),copiedField (d := d) (show 4 < 8 by decide),
    copiedField (d := d) (show 5 < 8 by decide),copiedField (d := d) (show 6 < 8 by decide)]

theorem superElsewhere {image : Image} {n : Nat} (d : Block) (apart : n ≠ superBlockBlkNo) : superOf (update image n d) = superOf image := by
  rw [superOf,update_of_ne (Ne.symm apart),superOf]

end Super

def marked (sb : Superblock) (prior : Image) : Image :=
  update (update prior superBlockBlkNo (patch (prior superBlockBlkNo) 0 (superblockBytes sb))) 2
    (withBit (withBit (withBit (withBit (prior 2) 0) 1) rootDentIno) consIno)

structure First (sb : Superblock) (prior : Image) (b : Nat) : Prop where
  inside : b < sb.sNblocks.toNat
  stored : b < chunksPerBlock*chunkBytes
  clear : mapBit prior sb.bitmapStart b = false
  taken : ∀ j < b, mapBit prior sb.bitmapStart j = true

theorem First.unique {sb prior b c} (h : First sb prior b) (g : First sb prior c) : b = c := by
  rcases Nat.lt_trichotomy b c with before | same | after
  · exact absurd (h.clear.symm.trans (g.taken b before)) Bool.false_ne_true
  · exact same
  · exact absurd (g.clear.symm.trans (h.taken c after)) Bool.false_ne_true

def reformatted (sb : Superblock) (prior : Image) (b : Nat) : Image := fun n =>
  if n = superBlockBlkNo then patch zeros 0 (slice (patch (prior superBlockBlkNo) 0 (superblockBytes sb)) 0 superblockSize)
  else if n = sb.sFirstdataBlock.toNat + b then patch zeros 0 rootDirents
  else if n = sb.inodeStart + 1 then setDInode (clearDInode (prior n) 0) 0 consInode
  else if n = sb.inodeStart then setDInode (clearDInode (prior n) 2) 2 (rootInode sb b)
  else if n = sb.bitmapStart then withBit (prior n) b
  else if n = 2 then withBit (withBit (withBit (withBit (prior 2) 0) 1) rootDentIno) consIno
  else prior n

variable {size nrFiles blocks b : Nat} {sb : Superblock} {prior : Image}

section Run
variable {image : Image}

theorem sectorOk {blk} (inside : blk < blocks) (image : Image) : onSector blocks blk image = .ok image := if_pos inside

theorem markedSuper : superOf (marked sb prior) = sb := by
  rw [marked,superElsewhere _ (by decide),superOf,update_self,superPatched]

theorem markedElsewhere {n : Nat} (high : 2 < n) : marked sb prior n = prior n := by
  rw [marked,update_of_ne (by omega),update_of_ne (by rw [superBlockBlkNo]; omega)]

structure FirstFrom (sb : Superblock) (image : Image) (i b : Nat) : Prop where
  low : i ≤ b
  inside : b < sb.sNblocks.toNat
  stored : ∀ j, i ≤ j → j ≤ b → (j%bitsPerBlock)/chunkBytes < chunksPerBlock
  taken : ∀ j, i ≤ j → j < b → mapBit image sb.bitmapStart j = true
  clear : mapBit image sb.bitmapStart b = false

theorem firstLater {i : Nat} (stored : (i%bitsPerBlock)/chunkBytes < chunksPerBlock) (bit : mapBit image sb.bitmapStart i = true) :
    FirstFrom sb image (i+1) b ↔ FirstFrom sb image i b := by
  constructor
  · intro h
    refine ⟨Nat.le_of_succ_le h.low,h.inside,fun j above below => ?_,fun j above below => ?_,h.clear⟩
    · rcases Nat.eq_or_lt_of_le above with rfl | later
      · exact stored
      · exact h.stored j later below
    · rcases Nat.eq_or_lt_of_le above with rfl | later
      · exact bit
      · exact h.taken j later below
  · intro h
    have other : i ≠ b := fun same => Bool.false_ne_true (h.clear.symm.trans (same ▸ bit))
    exact ⟨lt_of_le_of_ne h.low other,h.inside,fun j above => h.stored j (by omega),fun j above => h.taken j (by omega),h.clear⟩

theorem firstHere {i} (stored : (i%bitsPerBlock)/chunkBytes < chunksPerBlock) (few : i < sb.sNblocks.toNat)
    (bit : mapBit image sb.bitmapStart i = false) : FirstFrom sb image i b ↔ b = i := by
  constructor
  · intro h
    by_contra other
    exact Bool.false_ne_true (bit.symm.trans (h.taken i le_rfl (lt_of_le_of_ne h.low (Ne.symm other))))
  · rintro rfl
    exact ⟨le_rfl,few,fun j above below => le_antisymm below above ▸ stored,fun j above below => absurd below (by omega),bit⟩

theorem searchFrom (inside : ∀ i < sb.sNblocks.toNat, mapBlock sb.bitmapStart i < blocks) (super : superOf image = sb) :
    ∀ rest i b found, i + rest = sb.sNblocks.toNat →
      (findFreeDataBlock blocks rest i image = .ok (some (b,found)) ↔
        FirstFrom sb image i b ∧ found = Mkfs.markDataBlockUsed sb b image) := by
  intro rest
  induction rest with
  | zero =>
    intro i b found total
    refine iff_of_false nofun fun ⟨h,_⟩ => ?_
    have := h.low
    have := h.inside
    omega
  | succ rest ih =>
    intro i b found total
    have few : i < sb.sNblocks.toNat := by omega
    have here := inside i few
    rw [findFreeDataBlock,super,if_neg (by omega)]
    by_cases stored : (i%bitsPerBlock)/chunkBytes < chunksPerBlock
    · rw [if_neg (by omega)]
      cases bit : mapBit image sb.bitmapStart i with
      | true => rw [if_pos rfl,ih (i+1) b found (by omega),firstLater stored bit]
      | false =>
        rw [if_neg Bool.false_ne_true,markDataBlockUsed,super,sectorOk here,firstHere stored few bit]
        constructor
        · intro eq
          cases eq
          exact ⟨rfl,rfl⟩
        · rintro ⟨rfl,rfl⟩
          rfl
    · rw [if_pos (by omega)]
      exact iff_of_false nofun fun ⟨h,_⟩ => stored (h.stored i le_rfl h.low)

theorem searchFirst (inside : ∀ i < sb.sNblocks.toNat, mapBlock sb.bitmapStart i < blocks) (high : 2 < sb.bitmapStart) (found : Image) :
    findFreeDataBlock blocks sb.sNblocks.toNat 0 (marked sb prior) = .ok (some (b,found)) ↔
      First sb prior b ∧ found = Mkfs.markDataBlockUsed sb b (marked sb prior) := by
  have bits : ∀ j, mapBit (marked sb prior) sb.bitmapStart j = mapBit prior sb.bitmapStart j := by
    intro j
    rw [mapBit,markedElsewhere (Nat.lt_add_right _ high),mapBit]
  rw [searchFrom inside markedSuper _ 0 b found (Nat.zero_add _)]
  refine and_congr_left fun _ => ⟨?_,?_⟩
  · rintro ⟨_,few,stored,taken,clear⟩
    refine ⟨few,?_,(bits b).symm.trans clear,fun j before => (bits j).symm.trans (taken j (Nat.zero_le j) before)⟩
    by_contra large
    exact absurd (stored 512 (Nat.zero_le _) (not_lt.mp large)) (by decide)
  · rintro ⟨few,stored,clear,taken⟩
    refine ⟨Nat.zero_le b,few,fun j _ below => ?_,fun j _ before => (bits j).trans (taken j before),(bits b).trans clear⟩
    simp only [bitsPerBlock,chunkBytes,chunksPerBlock,bsize] at stored ⊢
    omega

def written (sb : Superblock) (prior : Image) (b : Nat) : Image :=
  Mkfs.writeDiskDataBlock sb b (patch zeros 0 rootDirents) (Mkfs.writeDiskInode sb consIno consInode
    (Mkfs.writeDiskInode sb rootDentIno (rootInode sb b) (Mkfs.markDataBlockUsed sb b (marked sb prior))))

theorem writtenReformatted (o : Ordered sb) (stored : b < chunksPerBlock*chunkBytes) : update (written sb prior b) superBlockBlkNo
      (patch zeros 0 (slice (written sb prior b superBlockBlkNo) 0 superblockSize)) = reformatted sb prior b := by
  obtain ⟨bitmap,inode,data,_⟩ := o
  have first : sb.inodeStart + rootDentIno/inodesPerBlock = sb.inodeStart := rfl
  have second : sb.inodeStart + consIno/inodesPerBlock = sb.inodeStart + 1 := rfl
  have low : b < bitsPerBlock := stored.trans (by decide)
  simp only [written,Mkfs.writeDiskDataBlock,Mkfs.writeDiskInode,Mkfs.markDataBlockUsed,markUsed,first,second,Nat.div_eq_of_lt low,
    Nat.mod_eq_of_lt low,Nat.add_zero]
  funext n
  by_cases super : n = superBlockBlkNo
  · have one : superBlockBlkNo = 1 := rfl
    rw [super,update_self,reformatted,if_pos rfl,update_of_ne (by omega),update_of_ne (by omega),
      update_of_ne (by omega),update_of_ne (by omega),marked,update_of_ne (by omega),update_self]
  · rw [update_of_ne super,reformatted,if_neg super]
    by_cases root : n = sb.sFirstdataBlock.toNat + b
    · rw [root,update_self,if_pos rfl]
    · rw [update_of_ne root,if_neg root]
      by_cases cons : n = sb.inodeStart + 1
      · rw [cons,update_self,update_of_ne (by omega),update_of_ne (by omega),markedElsewhere (by omega),if_pos rfl]
        rfl
      · rw [update_of_ne cons,if_neg cons]
        by_cases here : n = sb.inodeStart
        · rw [here,update_self,update_of_ne (by omega),markedElsewhere (by omega),if_pos rfl]
          rfl
        · rw [update_of_ne here,if_neg here]
          by_cases map : n = sb.bitmapStart
          · rw [map,update_self,markedElsewhere bitmap,if_pos rfl]
          · rw [update_of_ne map,if_neg map,marked,Function.update_apply,update_of_ne super]

theorem rootWrites (layout : Layout sb blocks) (o : Ordered sb) (few : b < sb.sNblocks.toNat) (super : superOf image = sb) : (do
      let image ← writeDiskInode blocks rootDentIno (rootInode (superOf image) b) image
      let image ← writeDiskInode blocks consIno consInode image
      writeDiskDataBlock blocks b (patch zeros 0 rootDirents) image) =
    .ok (Mkfs.writeDiskDataBlock sb b (patch zeros 0 rootDirents) (Mkfs.writeDiskInode sb consIno consInode
      (Mkfs.writeDiskInode sb rootDentIno (rootInode sb b) image))) := by
  have data := layout.data
  obtain ⟨bitmap,inode,first,_⟩ := o
  have root : sb.inodeStart + rootDentIno/inodesPerBlock = sb.inodeStart := rfl
  have cons : sb.inodeStart + consIno/inodesPerBlock = sb.inodeStart + 1 := rfl
  have superRoot : superOf (Mkfs.writeDiskInode sb rootDentIno (rootInode sb b) image) = sb := by
    rw [Mkfs.writeDiskInode,superElsewhere _ (by rw [root,superBlockBlkNo]; omega),super]
  have superCons : superOf (Mkfs.writeDiskInode sb consIno consInode (Mkfs.writeDiskInode sb rootDentIno (rootInode sb b) image)) = sb := by
    rw [Mkfs.writeDiskInode,superElsewhere _ (by rw [cons,superBlockBlkNo]; omega),superRoot]
  simp only [writeDiskInode,writeDiskDataBlock,super,sectorOk (show sb.inodeStart + rootDentIno/inodesPerBlock < blocks by omega),bind,Except.bind,
    superRoot,sectorOk (show sb.inodeStart + consIno/inodesPerBlock < blocks by omega),superCons,
    sectorOk (show sb.sFirstdataBlock.toNat + b < blocks by omega)]

theorem rootImage (layout : Layout sb blocks) (o : Ordered sb) : writeRootDirent blocks (Mkfs.markInodeUsed 1 (Mkfs.markInodeUsed 0
      (update prior superBlockBlkNo (patch (prior superBlockBlkNo) 0 (superblockBytes sb))))) = .ok image ↔
    ∃ b, First sb prior b ∧ image = written sb prior b := by
  have data := layout.data
  obtain ⟨bitmap,inode,first,some⟩ := id o
  have marks : Mkfs.markInodeUsed consIno (Mkfs.markInodeUsed rootDentIno (Mkfs.markInodeUsed 1 (Mkfs.markInodeUsed 0
      (update prior superBlockBlkNo (patch (prior superBlockBlkNo) 0 (superblockBytes sb)))))) = marked sb prior := by
    rw [markInodes,update_of_ne (by decide)]
    rfl
  have inside : ∀ i < sb.sNblocks.toNat, mapBlock sb.bitmapStart i < blocks := by
    intro i few
    have := (bitmapBlock layout (few.trans_le layout.blockMap)).2
    omega
  have high : ∀ i, sb.bitmapStart + i/bitsPerBlock ≠ superBlockBlkNo := by
    intro i
    have : sb.bitmapStart ≤ sb.bitmapStart + i/bitsPerBlock := Nat.le_add_right _ _
    rw [superBlockBlkNo]
    omega
  have two : ∀ ino, ino < bitsPerBlock → mapBlock (resvBlockNr + superBlockBlkNr) ino < blocks := by
    intro ino small
    rw [mapBlock,Nat.div_eq_of_lt small]
    exact lt_of_lt_of_le (show 2 < sb.sFirstdataBlock.toNat by omega) (by omega)
  unfold writeRootDirent
  rw [markInodeUsed,sectorOk (two _ (by decide))]
  simp only [bind,Except.bind]
  rw [markInodeUsed,sectorOk (two _ (by decide))]
  simp only [marks,markedSuper]
  cases search : findFreeDataBlock blocks sb.sNblocks.toNat 0 (marked sb prior) with
  | error e =>
    refine ⟨fun stopped => (by cases stopped),?_⟩
    rintro ⟨b,least,_⟩
    rw [(searchFirst inside bitmap _).mpr ⟨least,rfl⟩] at search
    cases search
  | ok found =>
    cases found with
    | none =>
      refine ⟨fun stopped => (by cases stopped),?_⟩
      rintro ⟨b,least,_⟩
      rw [(searchFirst inside bitmap _).mpr ⟨least,rfl⟩] at search
      cases search
    | some found =>
      obtain ⟨b,found⟩ := found
      obtain ⟨least,rfl⟩ := (searchFirst inside bitmap _).mp search
      have super : superOf (Mkfs.markDataBlockUsed sb b (marked sb prior)) = sb := by
        rw [Mkfs.markDataBlockUsed,markUsed,superElsewhere _ (high b),markedSuper]
      have writes := rootWrites layout o least.inside super
      simp only [bind,Except.bind] at writes
      simp only [writes,Except.ok.injEq]
      constructor
      · rintro rfl
        exact ⟨b,least,rfl⟩
      · rintro ⟨c,other,rfl⟩
        obtain rfl : b = c := least.unique other
        rfl

theorem writesImage (made : Made (size/bsize) (Mkfs.initSuperBlock size nrFiles)) :
    writeFsImage size nrFiles prior = .ok image ↔
      ∃ b, First (Mkfs.initSuperBlock size nrFiles) prior b ∧ image = reformatted (Mkfs.initSuperBlock size nrFiles) prior b := by
  unfold writeFsImage initSuperBlock
  generalize Mkfs.initSuperBlock size nrFiles = sb at made ⊢
  obtain ⟨layout,o,_,_⟩ := made
  have data := layout.data
  have bitmap := o.bitmap
  have inode := o.inode
  have first := o.data
  have one : superBlockBlkNo < size/bsize := by rw [superBlockBlkNo]; omega
  have two : ∀ ino, ino < bitsPerBlock → mapBlock (resvBlockNr + superBlockBlkNr) ino < size/bsize := by
    intro ino small
    rw [mapBlock,Nat.div_eq_of_lt small]
    exact lt_of_lt_of_le (show 2 < sb.sFirstdataBlock.toNat by omega) (by omega)
  rw [sectorOk one]
  simp only [bind,Except.bind]
  rw [markInodeUsed,sectorOk (two _ (by decide))]
  simp only
  rw [markInodeUsed,sectorOk (two _ (by decide))]
  simp only [sectorOk one]
  constructor
  · intro ran
    cases root : writeRootDirent (size/bsize) (Mkfs.markInodeUsed 1 (Mkfs.markInodeUsed 0
        (update prior superBlockBlkNo (patch (prior superBlockBlkNo) 0 (superblockBytes sb))))) with
    | error e =>
      rw [root] at ran
      cases ran
    | ok image =>
      obtain ⟨b,least,rfl⟩ := (rootImage layout o).mp root
      rw [root] at ran
      simp only [Except.ok.injEq] at ran
      exact ⟨b,least,ran.symm.trans (writtenReformatted o least.stored)⟩
  · rintro ⟨b,least,rfl⟩
    rw [(rootImage layout o).mpr ⟨b,least,rfl⟩]
    exact congrArg Except.ok (writtenReformatted o least.stored)

end Run

@[ext] structure Contents where
  super : Superblock
  inodeUsed : BitVec 32 → Bool
  dataUsed : Nat → Bool
  inode : BitVec 32 → Option DInode
  directory : Block

def used (image : Image) (inum : BitVec 32) : Bool := decide (inum.toNat < (superOf image).sNinodes.toNat) && inodeBit image inum

def contents (image : Image) : Contents where
  super := superOf image
  inodeUsed := used image
  dataUsed j := decide (j < (superOf image).sNblocks.toNat) && dataBit image j
  inode inum := if used image inum then some (diskInode image inum) else none
  directory := image (addrAt (diskInode image rootIno).iAddr 0).toNat

def record (sb : Superblock) (image : Image) (inum : BitVec 32) : DInode := dInodeAt (image (inodeBlock sb inum)) (inum.toNat%inodesPerBlock)

section Read

theorem reformattedSuper : superOf (reformatted sb prior b) = sb := by
  have block : reformatted sb prior b superBlockBlkNo =
    patch zeros 0 (slice (patch (prior superBlockBlkNo) 0 (superblockBytes sb)) 0 superblockSize) := if_pos rfl
  rw [superOf,block,superCopied,superPatched]

variable (made : Made blocks sb)
include made

theorem reformattedInodeBit {inum} (numbered : inum.toNat < sb.sNinodes.toNat) :
    inodeBit (reformatted sb prior b) inum = (decide (inum.toNat < 4) || inodeBit prior inum) := by
  obtain ⟨layout,⟨bitmap,inode,data,_⟩,_,_⟩ := made
  have start := bitmapStartNat layout
  have map := layout.inodeMap
  have place : resvBlockNr + superBlockBlkNr + inum.toNat/bitsPerBlock = 2 + inum.toNat/4096 := rfl
  have bit : inum.toNat%bitsPerBlock = inum.toNat%4096 := rfl
  simp only [bitsPerBlock,bsize] at map
  rw [inodeBit,inodeBit,mapBit,mapBit,place,bit,reformatted,superBlockBlkNo,if_neg (by omega),if_neg (by omega),if_neg (by omega),
    if_neg (by omega),if_neg (by omega)]
  by_cases low : inum.toNat < 4096
  · rw [if_pos (by omega),Nat.mod_eq_of_lt low,Nat.div_eq_of_lt low,bitWith (by decide),bitWith (by decide),bitWith (by decide),
      bitWith (by decide)]
    simp only [consIno,rootDentIno]
    rcases inum.toNat with _ | _ | _ | _ | n
    all_goals simp
  · rw [if_neg (by omega),decide_eq_false (by omega),Bool.false_or]

theorem reformattedDataBit {j} (stored : b < chunksPerBlock*chunkBytes) (inside : j < sb.sNblocks.toNat) :
    dataBit (reformatted sb prior b) j = (decide (b = j) || mapBit prior sb.bitmapStart j) := by
  obtain ⟨layout,⟨bitmap,inode,data,_⟩,_,_⟩ := made
  have place := bitmapBlock layout (inside.trans_le layout.blockMap)
  have here : sb.bitmapStart + j/bitsPerBlock = sb.bitmapStart + j/4096 := rfl
  rw [mapBlock] at place
  have low : b < 512 := stored
  rw [dataBit,reformattedSuper,mapBit,mapBit,reformatted,superBlockBlkNo,if_neg (by omega),if_neg (by omega),if_neg (by omega),if_neg (by omega)]
  by_cases first : j < bitsPerBlock
  · rw [if_pos (by rw [Nat.div_eq_of_lt first,Nat.add_zero]),Nat.mod_eq_of_lt first,bitWith
      (Nat.div_lt_of_lt_mul (by rw [Nat.mul_comm]; exact stored))]
  · have later : j/4096 ≠ 0 ∧ b ≠ j := by
      simp only [bitsPerBlock,bsize] at first
      omega
    rw [if_neg (by omega),if_neg (by omega),decide_eq_false later.2,Bool.false_or]

theorem reformattedRecord {inum} (numbered : inum.toNat < sb.sNinodes.toNat) : diskInode (reformatted sb prior b) inum =
    if inum = rootIno then rootInode sb b else if inum.toNat = consIno then consInode else record sb prior inum := by
  obtain ⟨layout,⟨bitmap,inode,data,_⟩,apart,_⟩ := made
  have block : inodeBlock sb inum = sb.inodeStart + inum.toNat/3 := rfl
  have finish : tablesEnd sb = sb.inodeStart + (sb.sNinodes.toNat + 2)/3 := rfl
  rw [diskInode,record,reformattedSuper,reformatted,superBlockBlkNo,if_neg (by omega),if_neg (by omega),
    if_neg (show inodeBlock sb inum ≠ sb.bitmapStart by omega),if_neg (show inodeBlock sb inum ≠ 2 by omega)]
  exact recordsSet clearedOther clearedOther

omit made in
theorem rootAddress (few : b < sb.sNblocks.toNat) : (addrAt (rootInode sb b).iAddr 0).toNat = b + sb.sFirstdataBlock.toNat := by
  have first := sb.sFirstdataBlock.isLt
  have count := sb.sNblocks.isLt
  have slot : ∀ k, k.val = 0 → (rootInode sb b).iAddr k = BitVec.ofNat 64 (b + sb.sFirstdataBlock.toNat) := by
    intro k zero
    simp only [rootInode,Function.update_apply,Fin.ext_iff,zero,if_true]
  rw [addrAt,dif_pos (by decide),slot _ rfl,BitVec.toNat_ofNat]
  omega

theorem rootNumbered : rootIno.toNat < sb.sNinodes.toNat := (by decide : rootIno.toNat < 4).trans_le made.files

theorem reformattedRoot : diskInode (reformatted sb prior b) rootIno = rootInode sb b := by
  rw [reformattedRecord made (rootNumbered made),if_pos rfl]

theorem reformattedDirectory (few : b < sb.sNblocks.toNat) :
    reformatted sb prior b (addrAt (diskInode (reformatted sb prior b) rootIno).iAddr 0).toNat = patch zeros 0 rootDirents := by
  have first := made.ordered.data
  rw [reformattedRoot made,rootAddress few,reformatted,if_neg (by rw [superBlockBlkNo]; omega),if_pos (Nat.add_comm ..)]

end Read

structure Agree (sb : Superblock) (p q : Image) : Prop where
  data : ∀ j < sb.sNblocks.toNat, mapBit p sb.bitmapStart j = mapBit q sb.bitmapStart j
  free : ∃ j < sb.sNblocks.toNat, j < chunksPerBlock*chunkBytes ∧ mapBit p sb.bitmapStart j = false
  inodes : ∀ inum : BitVec 32, 4 ≤ inum.toNat → inum.toNat < sb.sNinodes.toNat → inodeBit p inum = inodeBit q inum
  records : ∀ inum : BitVec 32, inum.toNat < sb.sNinodes.toNat → inum ≠ rootIno → inum.toNat ≠ consIno →
    inum.toNat < 4 ∨ inodeBit p inum = true → record sb p inum = record sb q inum

def SameFileSystem (size nrFiles : Nat) (p q : Image) : Prop :=
  Made (size/bsize) (Mkfs.initSuperBlock size nrFiles) ∧ ∃ c, ∀ prior ∈ [p,q], ∃ image, writeFsImage size nrFiles prior = .ok image ∧
    contents image = c

section Same
variable {p q : Image}

theorem freeFirst (free : ∃ j < sb.sNblocks.toNat, j < chunksPerBlock*chunkBytes ∧ mapBit p sb.bitmapStart j = false) : ∃ b, First sb p b := by
  classical
  have least := Nat.find_spec free
  refine ⟨Nat.find free,least.1,least.2.1,least.2.2,fun j before => ?_⟩
  have none := Nat.find_min free before
  simp only [not_and] at none
  exact Bool.of_not_eq_false (none (before.trans least.1) (before.trans least.2.1))

theorem Agree.first (agree : Agree sb p q) (least : First sb p b) : First sb q b :=
  ⟨least.inside,least.stored,(agree.data b least.inside).symm.trans least.clear,
    fun j before => (agree.data j (before.trans least.inside)).symm.trans (least.taken j before)⟩

variable (made : Made blocks sb)
include made

theorem agreeContents (agree : Agree sb p q) (least : First sb p b) : contents (reformatted sb p b) = contents (reformatted sb q b) := by
  have inUse : used (reformatted sb p b) = used (reformatted sb q b) := by
    funext inum
    rw [used,used,reformattedSuper,reformattedSuper]
    by_cases numbered : inum.toNat < sb.sNinodes.toNat
    · rw [reformattedInodeBit made numbered,reformattedInodeBit made numbered]
      by_cases low : inum.toNat < 4
      · rw [decide_eq_true low,Bool.true_or,Bool.true_or]
      · rw [agree.inodes inum (not_lt.mp low) numbered]
    · rw [decide_eq_false numbered,Bool.false_and,Bool.false_and]
  apply Contents.ext
  · simp only [contents,reformattedSuper]
  · simp only [contents,inUse]
  · funext j
    simp only [contents,reformattedSuper]
    by_cases inside : j < sb.sNblocks.toNat
    · rw [reformattedDataBit made least.stored inside,reformattedDataBit made least.stored inside,agree.data j inside]
    · rw [decide_eq_false inside,Bool.false_and,Bool.false_and]
  · funext inum
    simp only [contents,← inUse]
    by_cases taken : used (reformatted sb p b) inum = true
    · rw [if_pos taken,if_pos taken]
      rw [used,reformattedSuper,Bool.and_eq_true,decide_eq_true_eq] at taken
      obtain ⟨numbered,bit⟩ := taken
      rw [reformattedInodeBit made numbered,Bool.or_eq_true,decide_eq_true_eq] at bit
      rw [reformattedRecord made numbered,reformattedRecord made numbered]
      by_cases root : inum = rootIno
      · rw [if_pos root,if_pos root]
      · by_cases cons : inum.toNat = consIno
        · rw [if_neg root,if_neg root,if_pos cons,if_pos cons]
        · rw [if_neg root,if_neg root,if_neg cons,if_neg cons,agree.records inum numbered root cons bit]
    · rw [if_neg taken,if_neg taken]
  · simp only [contents,reformattedDirectory made least.inside]

theorem contentsAgree {c} (first : First sb p b) (second : First sb q c) (same : contents (reformatted sb p b) = contents (reformatted sb q c)) :
    Agree sb p q := by
  have super : ∀ prior b, superOf (reformatted sb prior b) = sb := fun _ _ => reformattedSuper
  have inUse : used (reformatted sb p b) = used (reformatted sb q c) := by
    have equal := congrArg Contents.inodeUsed same
    simp only [contents] at equal
    exact equal
  have bit : ∀ inum : BitVec 32, inum.toNat < sb.sNinodes.toNat →
      (decide (inum.toNat < 4) || inodeBit p inum) = (decide (inum.toNat < 4) || inodeBit q inum) := by
    intro inum numbered
    have equal := congrFun inUse inum
    simp only [used,super,decide_eq_true numbered,Bool.true_and,reformattedInodeBit made numbered] at equal
    exact equal
  have entry : ∀ inum : BitVec 32, inum.toNat < sb.sNinodes.toNat → inum.toNat < 4 ∨ inodeBit p inum = true →
      diskInode (reformatted sb p b) inum = diskInode (reformatted sb q c) inum := by
    intro inum numbered taken
    have here : used (reformatted sb p b) inum = true := by
      rw [used,super,decide_eq_true numbered,Bool.true_and,reformattedInodeBit made numbered,Bool.or_eq_true,decide_eq_true_eq]
      exact taken
    have there : used (reformatted sb q c) inum = true := by
      rw [← inUse]
      exact here
    have equal := congrFun (congrArg Contents.inode same) inum
    simp only [contents,here,there,if_true,Option.some.injEq] at equal
    exact equal
  obtain rfl : b = c := by
    have root := entry rootIno (rootNumbered made) (Or.inl (by decide))
    rw [reformattedRoot made,reformattedRoot made] at root
    have address := congrArg (fun d : DInode => (addrAt d.iAddr 0).toNat) root
    simp only [rootAddress first.inside,rootAddress second.inside] at address
    exact Nat.add_right_cancel address
  refine ⟨fun j inside => ?_,⟨b,first.inside,first.stored,first.clear⟩,fun inum high numbered => ?_,fun inum numbered root cons taken => ?_⟩
  · have equal := congrFun (congrArg Contents.dataUsed same) j
    simp only [contents,super,decide_eq_true inside,Bool.true_and,reformattedDataBit made first.stored inside] at equal
    by_cases here : b = j
    · rw [← here,first.clear,second.clear]
    · rw [decide_eq_false here,Bool.false_or,Bool.false_or] at equal
      exact equal
  · have equal := bit inum numbered
    rw [decide_eq_false (not_lt.mpr high),Bool.false_or,Bool.false_or] at equal
    exact equal
  · have equal := entry inum numbered taken
    rw [reformattedRecord made numbered,reformattedRecord made numbered,if_neg root,if_neg root,if_neg cons,if_neg cons] at equal
    exact equal

omit made in
theorem sameAgree (same : SameFileSystem size nrFiles p q) : Agree (Mkfs.initSuperBlock size nrFiles) p q := by
  obtain ⟨made,c,each⟩ := same
  obtain ⟨image,ran,here⟩ := each p (by simp)
  obtain ⟨image',ran',there⟩ := each q (by simp)
  obtain ⟨b,first,rfl⟩ := (writesImage made).mp ran
  obtain ⟨b',second,rfl⟩ := (writesImage made).mp ran'
  exact contentsAgree made first second (here.trans there.symm)

end Same

theorem freshRun {size nrFiles} (made : Made (size/bsize) (Mkfs.initSuperBlock size nrFiles)) :
    writeFsImage size nrFiles (fun _ => zeros) = .ok (Mkfs.writeFsImage size nrFiles) := by
  have o := made.ordered
  rw [imageFormatted o,writesImage made]
  generalize Mkfs.initSuperBlock size nrFiles = sb at o ⊢
  have length : (superblockBytes sb).length = 28 := by simp [superblockBytes]
  have copy : patch zeros 0 (slice (patch zeros 0 (superblockBytes sb)) 0 superblockSize) = patch zeros 0 (superblockBytes sb) := by
    refine patchHead fun i high => if_neg ?_
    rw [length]
    simp only [superblockSize] at high
    omega
  refine ⟨0,⟨o.some,by decide,zeroBit _,fun j before => absurd before (Nat.not_lt_zero j)⟩,?_⟩
  funext n
  simp only [formatted,reformatted,copy,zeroClear,Nat.add_zero]
  rfl

theorem outputDependsOnPrior (size nrFiles : Nat) (p q : Image) : SameFileSystem size nrFiles p q ↔
    Made (size/bsize) (Mkfs.initSuperBlock size nrFiles) ∧ Agree (Mkfs.initSuperBlock size nrFiles) p q := by
  constructor
  · exact fun same => ⟨same.1,sameAgree same⟩
  · rintro ⟨made,agree⟩
    obtain ⟨b,least⟩ := freeFirst agree.free
    refine ⟨made,contents (reformatted (Mkfs.initSuperBlock size nrFiles) p b),fun prior member => ?_⟩
    rcases List.mem_pair.mp member with rfl | rfl
    · exact ⟨_,(writesImage made).mpr ⟨b,least,rfl⟩,rfl⟩
    · exact ⟨_,(writesImage made).mpr ⟨b,agree.first least,rfl⟩,(agreeContents made agree least).symm⟩

theorem secondRunMovesRoot : ∃ image, writeFsImage (64*bsize) 16 (fun _ => zeros) = .ok image ∧
    ¬ SameFileSystem (64*bsize) 16 (fun _ => zeros) image := by
  have made : Made (64*bsize/bsize) (Mkfs.initSuperBlock (64*bsize) 16) := fitsMade ⟨by decide,by decide,by decide,by decide,by decide +kernel⟩
  have some := made.ordered.some
  have bit : dataBit (reformatted (Mkfs.initSuperBlock (64*bsize) 16) (fun _ => zeros) 0) 0 = _ := reformattedDataBit made (by decide) some
  refine ⟨reformatted (Mkfs.initSuperBlock (64*bsize) 16) (fun _ => zeros) 0,(writesImage made).mpr ⟨0,?_,rfl⟩,fun same => ?_⟩
  · exact ⟨some,by decide,zeroBit _,fun j before => absurd before (Nat.not_lt_zero j)⟩
  · have agree := (sameAgree same).data 0 some
    rw [dataBit,reformattedSuper,← agree,mapBit,zeroBit] at bit
    cases bit

end TskSw.Reformat
