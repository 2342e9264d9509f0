import TskSw.FsLayout

/-! The image that `tools/fs/mkfs.c` writes into a file of zeros. The superblock is
computed once and copied to its block at the end. -/
namespace TskSw.Mkfs
open Bytes BlkIo FsLayout

abbrev Image := Nat → Block

def fsMagicNr : BitVec 32 := 0xfeedf5
def rootDentIno : Nat := 2
def consIno : Nat := 3
def fnameMax : Nat := 59

def markUsed (start i : Nat) (image : Image) : Image :=
  let blk := start + i/bitsPerBlock
  Function.update image blk (withBit (image blk) (i%bitsPerBlock))

def markInodeUsed (ino : Nat) : Image → Image := markUsed (resvBlockNr + superBlockBlkNr) ino
def markDataBlockUsed (sb : Superblock) (blk : Nat) : Image → Image := markUsed sb.bitmapStart blk

def findFreeDataBlock (sb : Superblock) : Nat → Nat → Image → Option (Nat × Image)
  | 0,_,_ => none
  | rest+1,i,image =>
    if bitAt (image (sb.bitmapStart + i/bitsPerBlock)) (i%bitsPerBlock) then findFreeDataBlock sb rest (i+1) image
    else some (i,markDataBlockUsed sb i image)

def writeDiskInode (sb : Superblock) (ino : Nat) (d : DInode) (image : Image) : Image :=
  let blk := sb.inodeStart + ino/inodesPerBlock
  let index := ino % inodesPerBlock
  Function.update image blk (setDInode (clearDInode (image blk) index) index d)

def initSuperBlock (size nrFiles : Nat) : Superblock :=
  let inodeBlocks : Nat := (nrFiles + (inodesPerBlock-1))%2^64/inodesPerBlock
  let maxSize := BitVec.ofNat 32 (size/bsize)
  let imapBlocks := BitVec.ofNat 32 ((nrFiles + (bitsPerBlock-1))%2^64/bitsPerBlock)
  -- The first two subtractions are unsigned and wrap at 32 bits.
  let remains : Int := (maxSize - 2#32 - imapBlocks).toNat - inodeBlocks
  let dataBlocks : Int := (remains*bitsPerBlock - (bitsPerBlock-1)).tdiv (bitsPerBlock+1)
  let bmapBlocks := BitVec.ofInt 32 ((dataBlocks + (bitsPerBlock-1)).tdiv bitsPerBlock)
  { sMaxSize := maxSize
    sNinodes := BitVec.ofNat 32 nrFiles
    sImapBlocks := imapBlocks
    sBmapBlocks := bmapBlocks
    sFirstdataBlock := 2#32 + imapBlocks + BitVec.ofNat 32 inodeBlocks + bmapBlocks
    sNblocks := BitVec.ofInt 32 dataBlocks
    sMagic := fsMagicNr }

def direntBytes (ino : BitVec 32) (name : List UInt8) : List UInt8 :=
  le32 ino ++ name ++ List.replicate (fnameMax + 1 - name.length) 0

def rootDirents : List UInt8 :=
  direntBytes (BitVec.ofNat 32 rootDentIno) [46] ++ direntBytes (BitVec.ofNat 32 rootDentIno) [46,46] ++
    direntBytes (BitVec.ofNat 32 consIno) [67,79,78]

def rootInode (sb : Superblock) (blk : Nat) : DInode :=
  ⟨fsImodeDir,0,0,1,BitVec.ofNat 64 bsize,
    Function.update (fun _ => 0) ⟨0,by decide⟩ (BitVec.ofNat 64 (blk + sb.sFirstdataBlock.toNat))⟩

def consInode : DInode := ⟨fsImodeDev,0,BitVec.ofNat 64 consDev,1,0,fun _ => 0⟩

def writeDiskDataBlock (sb : Superblock) (dblk : Nat) (buf : Block) (image : Image) : Image :=
  Function.update image (sb.sFirstdataBlock.toNat + dblk) buf

def writeRootDirent (sb : Superblock) (image : Image) : Image :=
  let image := markInodeUsed consIno (markInodeUsed rootDentIno image)
  match findFreeDataBlock sb sb.sNblocks.toNat 0 image with
  | none => image
  | some (blk,image) =>
    let image := writeDiskInode sb consIno consInode (writeDiskInode sb rootDentIno (rootInode sb blk) image)
    writeDiskDataBlock sb blk (patch (fun _ => 0) 0 rootDirents) image

def superblockBytes (sb : Superblock) : List UInt8 :=
  le32 sb.sMaxSize ++ le32 sb.sNinodes ++ le32 sb.sImapBlocks ++ le32 sb.sBmapBlocks ++ le32 sb.sFirstdataBlock ++
    le32 sb.sNblocks ++ le32 sb.sMagic

def writeFsImage (size nrFiles : Nat) : Image :=
  let sb := initSuperBlock size nrFiles
  let image := markInodeUsed 1 (markInodeUsed 0 (fun _ _ => 0))
  let image := writeRootDirent sb image
  Function.update image superBlockBlkNo (patch (fun _ => 0) 0 (superblockBytes sb))

def defaultFsSize : Nat := 4*1024*1024
def defaultInodeNr : Nat := 1024

end TskSw.Mkfs
