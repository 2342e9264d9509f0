import TskSw.FsTree

/-! An image that mkfs made of zeros, block by block: where its tables lie and what the
kernel finds in them. Such an image is a sound file system before any call. -/
namespace TskSw.MkfsImage
open Bytes BlockProgram BlkIo BlkFlat FsLayout FsKernel DataBitmap DataBlocks Bmap Inodes Directory FsCalls FsTree Mkfs
open DirectoryMap (Live)

variable {size nrFiles a b r i : Nat}

section Super

theorem dataShare (r : Nat) : ((r : Int)*bitsPerBlock - (bitsPerBlock-1)).tdiv (bitsPerBlock+1) = ((r*4096 - 4095)/4097 : Nat) := by
  simp only [bitsPerBlock,bsize]
  cases r with
  | zero => rfl
  | succ r =>
    have positive : (0 : Int) ≤ ((r+1 : Nat) : Int)*(512*8 : Nat) - ((512*8 : Nat) - 1) := by omega
    rw [Int.tdiv_eq_ediv_of_nonneg positive]
    omega

theorem mapShare (d : Nat) : ((d : Int) + (bitsPerBlock-1)).tdiv bitsPerBlock = ((d + 4095)/4096 : Nat) := by
  simp only [bitsPerBlock,bsize]
  rw [Int.tdiv_eq_ediv_of_nonneg (by omega)]
  omega

theorem remainder {q : Nat} (total : q = 2 + a + b + r) (small : q < 2^32) :
    ((BitVec.ofNat 32 q - 2#32 - BitVec.ofNat 32 a).toNat : Int) - (b : Int) = r := by
  simp only [BitVec.toNat_sub,BitVec.toNat_ofNat]
  omega

theorem superShape (blocks : size/bsize < 2^32)
    (total : size/bsize = 2 + (nrFiles + (bitsPerBlock-1))/bitsPerBlock + (nrFiles + (inodesPerBlock-1))/inodesPerBlock + r) :
    initSuperBlock size nrFiles = ⟨BitVec.ofNat 32 (size/bsize),BitVec.ofNat 32 nrFiles,
      BitVec.ofNat 32 ((nrFiles + (bitsPerBlock-1))/bitsPerBlock),
      BitVec.ofNat 32 (((r*4096 - 4095)/4097 + 4095)/4096),
      2#32 + BitVec.ofNat 32 ((nrFiles + (bitsPerBlock-1))/bitsPerBlock) + BitVec.ofNat 32 ((nrFiles + (inodesPerBlock-1))/inodesPerBlock) +
        BitVec.ofNat 32 (((r*4096 - 4095)/4097 + 4095)/4096),
      BitVec.ofNat 32 ((r*4096 - 4095)/4097),fsMagicNr⟩ := by
  have small : ∀ c ≤ 4095, (nrFiles + c)%2^64 = nrFiles + c := by
    intro c bound
    refine Nat.mod_eq_of_lt ?_
    simp only [bitsPerBlock,inodesPerBlock,dInodeBytes,bsize] at total blocks
    omega
  have imap := small (bitsPerBlock-1) (by decide)
  have table := small (inodesPerBlock-1) (by decide)
  unfold initSuperBlock
  simp only [imap,table,remainder total blocks,dataShare,mapShare]
  rw [BitVec.ofInt_natCast,BitVec.ofInt_natCast]

structure Numbers (size nrFiles : Nat) (sb : Superblock) : Prop where
  inodes : sb.sNinodes.toNat = nrFiles%2^32
  imap : sb.sImapBlocks.toNat = (nrFiles + 4095)/4096
  bmap : sb.sBmapBlocks.toNat = (sb.sNblocks.toNat + 4095)/4096
  first : sb.sFirstdataBlock.toNat = 2 + sb.sImapBlocks.toNat + (nrFiles + 2)/3 + sb.sBmapBlocks.toNat
  inside : sb.sFirstdataBlock.toNat + sb.sNblocks.toNat ≤ size/bsize
  blocks : size/bsize < 2^32

theorem wordNat {n} (small : n < 2^32) : (BitVec.ofNat 32 n).toNat = n := by
  rw [BitVec.toNat_ofNat]
  exact Nat.mod_eq_of_lt small

theorem wordSum {c : Nat} (small : 2 + a + b + c < 2^32) :
    (2#32 + BitVec.ofNat 32 a + BitVec.ofNat 32 b + BitVec.ofNat 32 c).toNat = 2 + a + b + c := by
  simp only [BitVec.toNat_add,BitVec.toNat_ofNat]
  omega

theorem superNumbers (blocks : size/bsize < 2^32)
    (tables : 2 + (nrFiles + (bitsPerBlock-1))/bitsPerBlock + (nrFiles + (inodesPerBlock-1))/inodesPerBlock ≤ size/bsize) :
    Numbers size nrFiles (initSuperBlock size nrFiles) := by
  obtain ⟨r,total⟩ : ∃ r, size/bsize = 2 + (nrFiles + (bitsPerBlock-1))/bitsPerBlock + (nrFiles + (inodesPerBlock-1))/inodesPerBlock + r :=
    ⟨_,(Nat.add_sub_cancel' tables).symm⟩
  have fits : (r*4096 - 4095)/4097 + ((r*4096 - 4095)/4097 + 4095)/4096 ≤ r := by omega
  have imap : (nrFiles + (bitsPerBlock-1))/bitsPerBlock = (nrFiles + 4095)/4096 := rfl
  have records : (nrFiles + (inodesPerBlock-1))/inodesPerBlock = (nrFiles + 2)/3 := rfl
  rw [superShape blocks total]
  rw [imap,records] at total ⊢
  generalize (r*4096 - 4095)/4097 = d at fits ⊢
  generalize hf : (d + 4095)/4096 = f at fits ⊢
  generalize hb : (nrFiles + 2)/3 = b at total ⊢
  generalize hi : (nrFiles + 4095)/4096 = i at total ⊢
  have sum := wordSum (a := i) (b := b) (c := f) (by omega)
  refine ⟨BitVec.toNat_ofNat ..,?_,?_,?_,?_,blocks⟩
  all_goals simp only [sum,wordNat (show d < 2^32 by omega),wordNat (show f < 2^32 by omega),wordNat (show i < 2^32 by omega)]
  all_goals omega
end Super

structure Fits (size nrFiles : Nat) : Prop where
  files : 4 ≤ nrFiles
  word : nrFiles < 2^32
  tables : 2 + (nrFiles + (bitsPerBlock-1))/bitsPerBlock + (nrFiles + (inodesPerBlock-1))/inodesPerBlock ≤ size/bsize
  blocks : size/bsize < 2^32
  data : 0 < (initSuperBlock size nrFiles).sNblocks.toNat

theorem fitsNumbers {size nrFiles} (h : Fits size nrFiles) : Numbers size nrFiles (initSuperBlock size nrFiles) :=
  superNumbers h.blocks h.tables

variable {sb : Superblock}

section Layout

theorem numbersLayout (h : Numbers size nrFiles sb) : Layout sb (size/bsize) := by
  obtain ⟨inodes,imap,bmap,first,inside,blocks⟩ := h
  have start : sb.inodeStart = 2 + sb.sImapBlocks.toNat + sb.sBmapBlocks.toNat := by
    simp only [Superblock.inodeStart,BitVec.toNat_add,BitVec.toNat_ofNat]
    omega
  have tables : tablesEnd sb = 2 + sb.sImapBlocks.toNat + sb.sBmapBlocks.toNat + (nrFiles%2^32 + 2)/3 := by
    rw [tablesEnd,start,inodes]
    rfl
  refine ⟨by omega,?_,?_,by omega,inside,fun i _ => Or.inr (by omega)⟩
  all_goals
    simp only [bitsPerBlock,bsize]
    omega

end Layout

section Blocks

def zeros : Block := fun _ => 0

theorem zeroSlice (off len : Nat) : slice zeros off len = List.replicate len 0 := by
  have byte : ∀ i, byteAt zeros i = 0 := by
    intro i
    unfold byteAt
    split <;> rfl
  simp only [slice,byte,List.map_const',List.length_range]

theorem zeroBit (i : Nat) : bitAt zeros i = false := by
  have word : chunk zeros (i/chunkBytes) = 0 := congrArg u64 (zeroSlice _ _)
  rw [bitAt,word,hasBit]
  simp

theorem zeroInode (index : Nat) : dInodeAt zeros index = ⟨0,0,0,0,0,fun _ => 0⟩ := by
  have field : ∀ k, inodeField zeros index k = 0 := fun k => congrArg u64 (zeroSlice _ _)
  simp only [dInodeAt,field]
  rw [zeroSlice]
  rfl

theorem zeroClear (index : Nat) : clearDInode zeros index = zeros := by
  rw [clearDInode,← zeroSlice (dInodeBytes*index) dInodeBytes]
  exact patchSlice _ _ _

def inodeMap : Block := withBit (withBit (withBit (withBit zeros 0) 1) rootDentIno) consIno

def formatted (sb : Superblock) : Image := fun n =>
  if n = superBlockBlkNo then patch zeros 0 (superblockBytes sb)
  else if n = sb.sFirstdataBlock.toNat then patch zeros 0 rootDirents
  else if n = sb.inodeStart + 1 then setDInode zeros 0 consInode
  else if n = sb.inodeStart then setDInode zeros 2 (rootInode sb 0)
  else if n = sb.bitmapStart then withBit zeros 0
  else if n = 2 then inodeMap
  else zeros

structure Ordered (sb : Superblock) : Prop where
  bitmap : 2 < sb.bitmapStart
  inode : sb.bitmapStart < sb.inodeStart
  data : sb.inodeStart + 1 < sb.sFirstdataBlock.toNat
  some : 0 < sb.sNblocks.toNat

theorem markInodes (image : Image) : markInodeUsed consIno (markInodeUsed rootDentIno (markInodeUsed 1 (markInodeUsed 0 image))) =
    Function.update image 2 (withBit (withBit (withBit (withBit (image 2) 0) 1) rootDentIno) consIno) := by
  have marked : ∀ image ino, ino < bitsPerBlock → markInodeUsed ino image = Function.update image 2 (withBit (image 2) ino) := by
    intro image ino small
    rw [markInodeUsed,markUsed,Nat.div_eq_of_lt small,Nat.mod_eq_of_lt small]
    rfl
  rw [marked _ 0 (by decide),marked _ 1 (by decide),marked _ rootDentIno (by decide),marked _ consIno (by decide)]
  simp only [Function.update_self,Function.update_idem]

theorem findFirst {sb image} (some : 0 < sb.sNblocks.toNat) (empty : image sb.bitmapStart = zeros) :
    Mkfs.findFreeDataBlock sb sb.sNblocks.toNat 0 image = .some (0,Function.update image sb.bitmapStart (withBit zeros 0)) := by
  obtain ⟨rest,count⟩ : ∃ m, sb.sNblocks.toNat = m + 1 := ⟨sb.sNblocks.toNat - 1,by omega⟩
  have clear : bitAt (image (sb.bitmapStart + 0/bitsPerBlock)) (0%bitsPerBlock) = false := by
    rw [Nat.zero_div,Nat.add_zero,empty]
    exact zeroBit _
  rw [count,Mkfs.findFreeDataBlock,clear,if_neg Bool.false_ne_true,markDataBlockUsed,markUsed,Nat.zero_div,Nat.zero_mod,Nat.add_zero,empty]

theorem imageFormatted (h : Ordered (initSuperBlock size nrFiles)) :
    writeFsImage size nrFiles = formatted (initSuperBlock size nrFiles) := by
  obtain ⟨bitmap,inode,data,some⟩ := h
  unfold writeFsImage
  generalize initSuperBlock size nrFiles = sb at bitmap inode data some ⊢
  have marks : markInodeUsed consIno (markInodeUsed rootDentIno (markInodeUsed 1 (markInodeUsed 0 fun _ _ => 0))) =
      Function.update (fun _ => zeros) 2 inodeMap := markInodes _
  have empty : Function.update (fun _ => zeros) 2 inodeMap sb.bitmapStart = zeros := Function.update_of_ne (by omega) _ _
  have find := findFirst some empty
  have first : sb.inodeStart + rootDentIno/inodesPerBlock = sb.inodeStart := rfl
  have second : sb.inodeStart + consIno/inodesPerBlock = sb.inodeStart + 1 := rfl
  have zero : (fun _ => 0 : Block) = zeros := rfl
  simp only [writeRootDirent,zero,marks,find]
  simp only [writeDiskDataBlock,writeDiskInode,first,second,Nat.add_zero]
  funext n
  simp only [Function.update_apply,formatted,show ¬ sb.inodeStart + 1 = sb.inodeStart by omega,show ¬ sb.inodeStart = sb.bitmapStart by omega,
    show ¬ sb.inodeStart = 2 by omega,show ¬ sb.inodeStart + 1 = sb.bitmapStart by omega,show ¬ sb.inodeStart + 1 = 2 by omega,
    if_false,zeroClear]
  rfl

end Blocks

section Read

theorem wordAt {words : List (BitVec 32)} {k v} (hit : words[k]? = some v) :
    ((words.flatMap le32).drop (4*k)).take 4 = le32 v := by
  induction words generalizing k with
  | nil => cases hit
  | cons w words ih =>
    cases k with
    | zero =>
      cases hit
      exact List.take_left' (le32Length _)
    | succ k =>
      have skip : (le32 w ++ words.flatMap le32).drop (4 + 4*k) = (words.flatMap le32).drop (4*k) := by
        rw [← List.drop_drop,List.drop_left' (le32Length _)]
      rw [List.flatMap_cons,Nat.mul_succ,Nat.add_comm,skip]
      exact ih hit

theorem superPatched (sb : Superblock) (d : Block) : superblockAt (patch d 0 (superblockBytes sb)) = sb := by
  have bytes : superblockBytes sb =
      [sb.sMaxSize,sb.sNinodes,sb.sImapBlocks,sb.sBmapBlocks,sb.sFirstdataBlock,sb.sNblocks,sb.sMagic].flatMap le32 := by
    simp [superblockBytes]
  have length : (superblockBytes sb).length = 28 := by simp [superblockBytes]
  have field : ∀ k v, k < 7 → [sb.sMaxSize,sb.sNinodes,sb.sImapBlocks,sb.sBmapBlocks,sb.sFirstdataBlock,sb.sNblocks,sb.sMagic][k]? = some v →
      field32 (patch d 0 (superblockBytes sb)) k = v := by
    intro k v small hit
    have part := slicePatchInside d 0 (4*k) 4 (superblockBytes sb) (by rw [length]; decide) (by rw [length]; omega)
    rw [Nat.zero_add,bytes,wordAt hit] at part
    rw [field32,bytes,part,u32Le]
  rw [superblockAt,field 0 _ (by decide) rfl,field 1 _ (by decide) rfl,field 2 _ (by decide) rfl,
    field 3 _ (by decide) rfl,field 4 _ (by decide) rfl,field 5 _ (by decide) rfl,field 6 _ (by decide) rfl]

theorem superRead (sb : Superblock) : superOf (formatted sb) = sb := by
  have block : formatted sb superBlockBlkNo = patch zeros 0 (superblockBytes sb) := if_pos rfl
  rw [superOf,block,superPatched]

theorem regions (o : Ordered sb) (n : Nat) :
    (2 ≤ n → n < sb.bitmapStart → formatted sb n = if n = 2 then inodeMap else zeros) ∧
    (sb.bitmapStart ≤ n → n < sb.inodeStart → formatted sb n = if n = sb.bitmapStart then withBit zeros 0 else zeros) ∧
    (sb.inodeStart ≤ n → n < sb.sFirstdataBlock.toNat → formatted sb n =
      if n = sb.inodeStart + 1 then setDInode zeros 0 consInode
      else if n = sb.inodeStart then setDInode zeros 2 (rootInode sb 0) else zeros) ∧
    (sb.sFirstdataBlock.toNat ≤ n → formatted sb n = if n = sb.sFirstdataBlock.toNat then patch zeros 0 rootDirents else zeros) := by
  obtain ⟨bitmap,inode,data,_⟩ := o
  unfold formatted superBlockBlkNo
  refine ⟨fun low high => ?_,fun low high => ?_,fun low high => ?_,fun low => ?_⟩
  · rw [if_neg (by omega),if_neg (by omega),if_neg (by omega),if_neg (by omega),if_neg (by omega)]
  · rw [if_neg (by omega),if_neg (by omega),if_neg (by omega),if_neg (by omega),if_neg (show n ≠ 2 by omega)]
  · rw [if_neg (by omega),if_neg (by omega),if_neg (show n ≠ sb.bitmapStart by omega),if_neg (show n ≠ 2 by omega)]
  · rw [if_neg (by omega),if_neg (show n ≠ sb.inodeStart + 1 by omega),if_neg (show n ≠ sb.inodeStart by omega),
      if_neg (show n ≠ sb.bitmapStart by omega),if_neg (show n ≠ 2 by omega)]

theorem mapRead (h : Layout sb size) (o : Ordered sb) {inum} (numbered : inum.toNat < sb.sNinodes.toNat) :
    inodeBit (formatted sb) inum = decide (inum.toNat < 4) := by
  have start := bitmapStartNat h
  have map := h.inodeMap
  simp only [inodeBit,mapBit,resvBlockNr,superBlockBlkNr,bitsPerBlock,bsize] at map ⊢
  rw [(regions o _).1 (by omega) (by omega)]
  split
  · rename_i low
    rw [inodeMap,bitWith (by decide),bitWith (by decide),bitWith (by decide),bitWith (by decide),zeroBit,
      Nat.mod_eq_of_lt (show inum.toNat < 512*8 by omega)]
    simp only [consIno,rootDentIno]
    rcases inum.toNat with _ | _ | _ | _ | n
    all_goals simp
  · rename_i high
    rw [zeroBit]
    exact (decide_eq_false (by omega)).symm

theorem dataRead (h : Layout sb size) (o : Ordered sb) {j} (inside : j < sb.sNblocks.toNat) :
    dataBit (formatted sb) j = decide (j = 0) := by
  have place := bitmapBlock h (show j < _ by have := h.blockMap; omega)
  have low : sb.bitmapStart ≤ sb.bitmapStart + j/bitsPerBlock := Nat.le_add_right _ _
  rw [dataBit,superRead,mapBit,(regions o _).2.1 low place.2]
  by_cases first : j < bitsPerBlock
  · rw [if_pos (by rw [Nat.div_eq_of_lt first,Nat.add_zero]),bitWith (by decide),zeroBit,Nat.mod_eq_of_lt first,Bool.or_false]
    exact decide_eq_decide.mpr eq_comm
  · have later : sb.bitmapStart + j/bitsPerBlock ≠ sb.bitmapStart ∧ j ≠ 0 := by
      simp only [bitsPerBlock,bsize] at first ⊢
      omega
    rw [if_neg later.1,zeroBit]
    exact (decide_eq_false later.2).symm

-- mkfs writes two records of the inode table, those of the root directory and of the console; every other one is read as it was
theorem recordsSet {start inum} {before cons dir : Block} {root} (second : ∀ {i}, 0 ≠ i → dInodeAt cons i = dInodeAt before i)
    (first : ∀ {i}, 2 ≠ i → dInodeAt dir i = dInodeAt before i) :
    dInodeAt (if start + inum.toNat/inodesPerBlock = start + 1 then setDInode cons 0 consInode
      else if start + inum.toNat/inodesPerBlock = start then setDInode dir 2 root else before) (inum.toNat%inodesPerBlock) =
    if inum = rootIno then root else if inum.toNat = consIno then consInode else dInodeAt before (inum.toNat%inodesPerBlock) := by
  have number : inum = rootIno ↔ inum.toNat = 2 := ⟨fun e => by rw [e]; rfl,fun e => BitVec.eq_of_toNat_eq e⟩
  simp only [number,consIno,show inodesPerBlock = 3 from rfl]
  by_cases later : inum.toNat/3 = 1
  · rw [if_pos (by omega),if_neg (by omega)]
    by_cases here : inum.toNat = 3
    · rw [if_pos here,here]
      exact dInodeSet _ (by decide)
    · rw [if_neg here,dInodeSetOther _ (by omega),second (by omega)]
  · rw [if_neg (show start + _ ≠ _ by omega),if_neg (show inum.toNat ≠ 3 by omega)]
    by_cases here : inum.toNat = 2
    · rw [if_pos (by omega),if_pos here,here]
      exact dInodeSet _ (by decide)
    · rw [if_neg here]
      by_cases low : inum.toNat/3 = 0
      · rw [if_pos (by omega),dInodeSetOther _ (by omega),first (by omega)]
      · rw [if_neg (by omega)]

theorem recordRead (o : Ordered sb) {inum} (high : inodeBlock sb inum < sb.sFirstdataBlock.toNat) : diskInode (formatted sb) inum =
      if inum = rootIno then rootInode sb 0 else if inum.toNat = consIno then consInode else ⟨0,0,0,0,0,fun _ => 0⟩ := by
  have low : sb.inodeStart ≤ inodeBlock sb inum := Nat.le_add_right _ _
  rw [diskInode,superRead,(regions o _).2.2.1 low high,inodeBlock,recordsSet (fun _ => rfl) (fun _ => rfl),zeroInode]

end Read

theorem direntsRead : ∀ i < 8, ((direntOf (slice (patch zeros 0 rootDirents) (direntSize*(i%direntsPerBlock)) direntSize)).dIno = rootIno →
      (direntOf (slice (patch zeros 0 rootDirents) (direntSize*(i%direntsPerBlock)) direntSize)).dName.headD 0 = 46) ∧
    (direntOf (slice (patch zeros 0 rootDirents) (direntSize*(i%direntsPerBlock)) direntSize)).dIno.toNat < 4 := by decide +kernel

section Root

theorem rootAddr (sb : Superblock) (n : Nat) :
    (addrAt (rootInode sb 0).iAddr n).toNat = if n = 0 then sb.sFirstdataBlock.toNat else 0 := by
  have word : (BitVec.ofNat 64 (0 + sb.sFirstdataBlock.toNat)).toNat = sb.sFirstdataBlock.toNat := by
    have := sb.sFirstdataBlock.isLt
    rw [BitVec.toNat_ofNat]
    omega
  have slot : ∀ k, (rootInode sb 0).iAddr k = if k.val = 0 then BitVec.ofNat 64 (0 + sb.sFirstdataBlock.toNat) else 0 := by
    intro k
    simp only [rootInode,Function.update_apply,Fin.ext_iff]
  unfold addrAt
  by_cases first : n = 0
  · rw [dif_pos (by rw [first]; decide),slot,if_pos first,if_pos first,word]
  · rw [if_neg first]
    split
    · rw [slot,if_neg first]
      rfl
    · rfl

def root (sb : Superblock) : Inode := ({emptyInode with inum := rootIno, iDev := devRoot}).load (rootInode sb 0)

theorem rootFlat (sb : Superblock) : addrAt (root sb).iAddr fsIaddrInDirectMin = 0 := BitVec.eq_of_toNat_eq (rootAddr sb _)

theorem rootMapped (view : Nat → Block) (sb : Superblock) (n : Nat) :
    mapped view (root sb) n = if n = 0 then sb.sFirstdataBlock.toNat else 0 := by
  have addr : (addrAt (root sb).iAddr n).toNat = if n = 0 then sb.sFirstdataBlock.toNat else 0 := rootAddr sb n
  rw [mappedFlat (rootFlat sb),addr]
  by_cases first : n = 0
  · rw [if_pos first,first,if_pos (by decide)]
  · rw [if_neg first]
    exact ite_self _

theorem rootFirst {view n} (hit : mapped view (root sb) n ≠ 0) : n = 0 := by
  rw [rootMapped] at hit
  by_contra other
  exact hit (if_neg other)

theorem rootEntries (sb : Superblock) : entryCount (root sb) = 8 := (by decide : (BitVec.ofNat 64 bsize).toNat/direntSize = 8)

theorem rootBlock (ordered : Ordered sb) {j : Nat} :
    formatted sb (sb.sFirstdataBlock.toNat + j) = if j = 0 then patch zeros 0 rootDirents else zeros := by
  rw [(regions ordered _).2.2.2 (Nat.le_add_right _ _)]
  simp only [Nat.add_eq_left]

theorem rootEntry (ordered : Ordered sb) (inside : i < entryCount (root sb)) : entryAt (formatted sb) (root sb) i =
    direntOf (slice (patch zeros 0 rootDirents) (direntSize*(i%direntsPerBlock)) direntSize) := by
  rw [rootEntries] at inside
  have low : i/direntsPerBlock = 0 := Nat.div_eq_of_lt inside
  have block := rootBlock ordered (j := 0)
  rw [if_pos rfl,Nat.add_zero] at block
  rw [entryAt,rawAt,rootMapped,if_pos low,block]

theorem rootLegible (layout : Layout sb size) (ordered : Ordered sb) : Legible (flat (formatted sb) size) (root sb) := by
  have super : superOf (flat (formatted sb) size).view = sb := superRead sb
  have positive : 0 < sb.sFirstdataBlock.toNat := Nat.zero_lt_of_lt ordered.data
  have length : (root sb).iSize.toNat = bsize := rfl
  refine ⟨⟨by rw [super]; exact layout,fun _ => rfl,by rw [super]; exact positive,rfl,fun attached => absurd (rootFlat sb) attached,?_,?_⟩,
    rfl,by rw [length]; rfl,by rw [length]; decide,?_⟩
  · intro n _ hit
    have first := rootFirst hit
    refine ⟨0,by rw [super]; exact ordered.some,?_,?_⟩
    · rw [super,rootMapped,if_pos first]
      rfl
    · exact dataRead layout ordered ordered.some
  · intro n _ m _ hit same
    rw [rootFirst hit]
    rw [same] at hit
    exact (rootFirst hit).symm
  · intro n inside
    have first : n = 0 := by
      simp only [length,bsize] at inside
      omega
    rw [rootMapped,if_pos first]
    omega

structure Made (size : Nat) (sb : Superblock) : Prop where
  layout : Layout sb size
  ordered : Ordered sb
  apart : tablesEnd sb ≤ sb.sFirstdataBlock.toNat
  files : 4 ≤ sb.sNinodes.toNat

variable (h : Made size sb)
include h

theorem madeStored {inum} (numbered : inum.toNat < sb.sNinodes.toNat) : stored (formatted sb) inum =
    ({emptyInode with inum := inum, iDev := devRoot}).load
      (if inum = rootIno then rootInode sb 0 else if inum.toNat = consIno then consInode else ⟨0,0,0,0,0,fun _ => 0⟩) := by
  rw [stored,recordRead h.ordered ((inodeBlockTable numbered).trans_le h.apart)]

theorem madeRoot : rootOf (formatted sb) = root sb := by
  have files := h.files
  rw [rootOf,madeStored h (show rootIno.toNat < _ by simp only [rootIno,rootDentIno,BitVec.toNat_ofNat]; omega),if_pos rfl]
  rfl

theorem madeEntry (inside : i < entryCount (root sb)) : ((entryAt (formatted sb) (root sb) i).dIno = rootIno →
      (entryAt (formatted sb) (root sb) i).dName.headD 0 = 46) ∧ (entryAt (formatted sb) (root sb) i).dIno.toNat < 4 := by
  rw [rootEntry h.ordered inside]
  rw [rootEntries] at inside
  exact direntsRead i inside

theorem madeListing : Listing (flat (formatted sb) size) (root sb) := by
  have super : superOf (flat (formatted sb) size).view = sb := superRead sb
  refine ⟨rootLegible h.layout h.ordered,?_,fun n _ hit => ?_⟩
  · rw [super]
    exact Nat.lt_of_lt_of_le (by decide : rootIno.toNat < 4) h.files
  · rw [rootFlat]
    exact hit

theorem madePlain {inum} (numbered : inum.toNat < sb.sNinodes.toNat) (other : inum ≠ rootIno) :
    Plain (formatted sb) (stored (formatted sb) inum) ∧ (stored (formatted sb) inum).iMode ≠ fsImodeFile := by
  rw [madeStored h numbered,if_neg other]
  have none : ∀ n, addrAt (fun _ => 0) n = 0 := fun n => by
    unfold addrAt
    split <;> rfl
  split
  · exact ⟨⟨(by decide : fsImodeDev ≠ fsImodeDir),Nat.zero_le _,fun n some => absurd (none n) some⟩,
      (by decide : fsImodeDev ≠ fsImodeFile)⟩
  · exact ⟨⟨(by decide : (0 : BitVec 32) ≠ fsImodeDir),Nat.zero_le _,fun n some => absurd (none n) some⟩,
      (by decide : (0 : BitVec 32) ≠ fsImodeFile)⟩

theorem madeRooted : Rooted none (flat (formatted sb) size) := by
  have super : superOf (flat (formatted sb) size).view = sb := superRead sb
  have rooted : rootOf (flat (formatted sb) size).view = root sb := madeRoot h
  have files := h.files
  have bit : ∀ inum : BitVec 32, inum.toNat < 4 → inodeBit (formatted sb) inum = true := by
    intro inum small
    rw [mapRead h.layout h.ordered (by omega)]
    exact decide_eq_true small
  refine ⟨?_,?_,?_,?_,?_,?_,⟨bit 0 (by decide),bit rootIno (by decide)⟩,?_,?_,?_⟩
  · rw [rooted]
    exact madeListing h
  · rw [rooted]
    exact rootFlat sb
  · rw [rooted,rootEntries]
    decide
  · rw [rooted]
    exact (by decide : (1 : BitVec 64) ≠ 0)
  · rw [rooted]
    exact fun i inside => (madeEntry h inside).1
  · rw [rooted,super]
    intro i inside _
    have small := (madeEntry h inside).2
    exact ⟨small.trans_le files,bit _ small⟩
  · rw [super]
    exact fun inum numbered other => (madePlain h numbered other).1
  · rw [super]
    intro inum numbered mode
    by_cases other : inum = rootIno
    · subst other
      change (rootOf (flat (formatted sb) size).view).iMode = _ at mode
      rw [rooted] at mode
      exact absurd mode (by decide : fsImodeDir ≠ fsImodeFile)
    · exact absurd mode (madePlain h numbered other).2
  · intro j inside clear
    rw [super] at inside ⊢
    have later : j ≠ 0 := of_decide_eq_false ((dataRead h.layout h.ordered inside).symm.trans clear)
    exact (rootBlock h.ordered).trans (if_neg later)

end Root

theorem numbersOrdered {size nrFiles sb} (numbers : Numbers size nrFiles sb) (files : 4 ≤ nrFiles)
    (data : 0 < sb.sNblocks.toNat) : Ordered sb := by
  have layout := numbersLayout numbers
  have start := bitmapStartNat layout
  have inode := inodeStartNat layout
  obtain ⟨_,imap,bmap,first,_,_⟩ := numbers
  exact ⟨by omega,by omega,by omega,data⟩

theorem fitsMade (h : Fits size nrFiles) : Made (size/bsize) (initSuperBlock size nrFiles) := by
  have numbers := fitsNumbers h
  have layout := numbersLayout numbers
  have ordered := numbersOrdered numbers h.files h.data
  have inode := inodeStartNat layout
  obtain ⟨inodes,_,_,first,_,_⟩ := numbers
  have files := h.files
  rw [Nat.mod_eq_of_lt h.word] at inodes
  have table : tablesEnd (initSuperBlock size nrFiles) = (initSuperBlock size nrFiles).inodeStart + (nrFiles + 2)/3 := by
    rw [tablesEnd,inodes]
    rfl
  exact ⟨layout,ordered,by omega,by omega⟩

theorem imageSound {size nrFiles} (h : Fits size nrFiles) (console stack : List UInt8) :
    Sound none ⟨flat (writeFsImage size nrFiles) (size/bsize),bootKernel console stack⟩ := by
  have made := fitsMade h
  rw [imageFormatted made.ordered]
  refine ⟨madeRooted made,fun i used => absurd used (lt_irrefl 0),fun i used => absurd used (lt_irrefl 0),
    fun i _ used => absurd used (lt_irrefl 0)⟩

end TskSw.MkfsImage
