import TskSw.BlkIo
import Mathlib.Data.Fin.Basic

/-! What the file system keeps in blocks, as `kern/fs.h` lays it out for a 64-bit machine:
the superblock, bitmaps in 64-bit chunks, disk inodes and index blocks. Only the first
eight bits of a chunk are ever used, so a bitmap block has 512 usable bits. -/
namespace TskSw.FsLayout
open Bytes BlkIo

def resvBlockNr : Nat := 1
def superBlockBlkNo : Nat := 1
def superBlockBlkNr : Nat := 1
def bitsPerBlock : Nat := bsize*8
def chunkBytes : Nat := 8
def chunksPerBlock : Nat := bsize/chunkBytes
def dInodeBytes : Nat := 168
def inodesPerBlock : Nat := bsize/dInodeBytes
def iaddrsPerBlock : Nat := bsize/8
def fsIaddrDirectNr : Nat := 12
def fsIaddrInDirectMin : Nat := fsIaddrDirectNr
def fsIaddrInDirectNr : Nat := 3
def fsIaddrDoubleNr : Nat := 1
def fsIaddrNr : Nat := fsIaddrDirectNr + fsIaddrInDirectNr + fsIaddrDoubleNr
def fsMaxfileSize : Nat := fsIaddrDirectNr*bsize + fsIaddrInDirectNr*iaddrsPerBlock +
  fsIaddrDoubleNr*iaddrsPerBlock*iaddrsPerBlock

def fsImodeDir : BitVec 32 := 1
def fsImodeFile : BitVec 32 := 2
def fsImodeDev : BitVec 32 := 3

structure Superblock where
  sMaxSize : BitVec 32
  sNinodes : BitVec 32
  sImapBlocks : BitVec 32
  sBmapBlocks : BitVec 32
  sFirstdataBlock : BitVec 32
  sNblocks : BitVec 32
  sMagic : BitVec 32
  deriving DecidableEq

def field32 (b : Block) (k : Nat) : BitVec 32 := u32 (slice b (4*k) 4)

def superblockAt (b : Block) : Superblock :=
  ⟨field32 b 0,field32 b 1,field32 b 2,field32 b 3,field32 b 4,field32 b 5,field32 b 6⟩

-- Sums of `uint32_t` and `int` wrap at 32 bits before the 64-bit index is added.
def Superblock.bitmapStart (sb : Superblock) : Nat := (2#32 + sb.sImapBlocks).toNat
def Superblock.inodeStart (sb : Superblock) : Nat := (2#32 + sb.sImapBlocks + sb.sBmapBlocks).toNat

def chunk (b : Block) (k : Nat) : BitVec 64 := u64 (slice b (chunkBytes*k) chunkBytes)
def setChunk (b : Block) (k : Nat) (v : BitVec 64) : Block := patch b (chunkBytes*k) (le64 v)

theorem chunkSet {b k} (v) (inside : k < chunksPerBlock) : chunk (setChunk b k v) k = v := by
  have fits : chunkBytes*k + (le64 v).length ≤ bsize := by
    rw [le64Length]
    simp only [chunkBytes,chunksPerBlock,bsize] at inside ⊢
    omega
  have same := slicePatchSame b (chunkBytes*k) (le64 v) fits
  rw [le64Length] at same
  exact (congrArg u64 same).trans (u64Le v)

variable {b : Block} {k index index' count : Nat}

theorem chunkSetOther {j : Nat} (v : BitVec 64) (apart : j ≠ k) :
    chunk (setChunk b k v) j = chunk b j := by
  rw [chunk,setChunk,slicePatchOutside _ _ _ _ _ (by rw [le64Length]; simp only [chunkBytes]; omega)]
  rfl

theorem setChunkChunk (b : Block) (k : Nat) : setChunk b k (chunk b k) = b := by
  have word : le64 (chunk b k) = slice b (chunkBytes*k) chunkBytes := leU64 _ (sliceLength ..)
  rw [setChunk,word,patchSlice]

theorem setChunkTwice (b : Block) (k : Nat) (v w : BitVec 64) : setChunk (setChunk b k v) k w = setChunk b k w :=
  patchPatch _ _ _ _ (by simp)

def hasBit (v : BitVec 64) (k : Nat) : Bool := v &&& (1#64 <<< k) != 0

def bitAt (b : Block) (offset : Nat) : Bool := hasBit (chunk b (offset/chunkBytes)) (offset%chunkBytes)
def withBit (b : Block) (offset : Nat) : Block :=
  setChunk b (offset/chunkBytes) (chunk b (offset/chunkBytes) ||| (1#64 <<< (offset%chunkBytes)))
def withoutBit (b : Block) (offset : Nat) : Block :=
  setChunk b (offset/chunkBytes) (chunk b (offset/chunkBytes) &&& ~~~(1#64 <<< (offset%chunkBytes)))

theorem shiftedOne {k} (small : k < 64) (i : Nat) : (1#64 <<< k).getLsbD i = decide (i = k) := by
  rw [BitVec.getLsbD_shiftLeft,BitVec.getLsbD_one]
  by_cases same : i = k
  · subst same; simp [small]
  · by_cases below : i < k
    · simp [below,same]
    · have : i - k ≠ 0 := by omega
      simp [same,this]

theorem hasBitGet (v : BitVec 64) (k : Nat) (small : k < 64) : hasBit v k = v.getLsbD k := by
  unfold hasBit
  cases bit : v.getLsbD k with
  | true =>
    rw [bne_iff_ne]
    intro zero
    have := congrArg (fun x : BitVec 64 => x.getLsbD k) zero
    simp [BitVec.getLsbD_and,shiftedOne small,bit] at this
  | false =>
    have zero : v &&& (1#64 <<< k) = 0 := by
      apply BitVec.eq_of_getLsbD_eq
      intro i _
      rw [BitVec.getLsbD_and,shiftedOne small]
      by_cases same : i = k
      · subst same; simp [bit]
      · simp [same]
    rw [zero]
    rfl

theorem bitWith {b i j} (inside : i/chunkBytes < chunksPerBlock) :
    bitAt (withBit b i) j = (decide (i = j) || bitAt b j) := by
  have small : ∀ k, k % chunkBytes < 64 := fun k => by simp only [chunkBytes]; omega
  by_cases same : j/chunkBytes = i/chunkBytes
  · simp only [bitAt,withBit,same,chunkSet _ inside,hasBitGet _ _ (small _),BitVec.getLsbD_or,shiftedOne (small i)]
    have key : (j % chunkBytes = i % chunkBytes) ↔ i = j := by
      simp only [chunkBytes] at same ⊢
      omega
    simp only [key,Bool.or_comm]
  · have apart : i ≠ j := fun e => same (by rw [e])
    simp [bitAt,withBit,chunkSetOther _ same,apart]

theorem bitWithout {b i j} (inside : i/chunkBytes < chunksPerBlock) :
    bitAt (withoutBit b i) j = (!decide (i = j) && bitAt b j) := by
  have small : ∀ k, k % chunkBytes < 64 := fun k => by simp only [chunkBytes]; omega
  by_cases same : j/chunkBytes = i/chunkBytes
  · simp only [bitAt,withoutBit,same,chunkSet _ inside,hasBitGet _ _ (small _),BitVec.getLsbD_and,
      BitVec.getLsbD_not,shiftedOne (small i)]
    have key : (j % chunkBytes = i % chunkBytes) ↔ i = j := by
      simp only [chunkBytes] at same ⊢
      omega
    simp only [key,small j,decide_true,Bool.true_and,Bool.and_comm]
  · have apart : i ≠ j := fun e => same (by rw [e])
    simp [bitAt,withoutBit,chunkSetOther _ same,apart]

theorem withoutWith {b i} (inside : i/chunkBytes < chunksPerBlock) (clear : bitAt b i = false) :
    withoutBit (withBit b i) i = b := by
  have small : i % chunkBytes < 64 := by simp only [chunkBytes]; omega
  have word : (chunk b (i/chunkBytes) ||| (1#64 <<< (i%chunkBytes))) &&& ~~~(1#64 <<< (i%chunkBytes)) =
      chunk b (i/chunkBytes) := by
    apply BitVec.eq_of_getLsbD_eq
    intro k bound
    simp only [BitVec.getLsbD_and,BitVec.getLsbD_or,BitVec.getLsbD_not,shiftedOne small,bound,decide_true,
      Bool.true_and]
    by_cases same : k = i % chunkBytes
    · rw [bitAt,hasBitGet _ _ small] at clear
      simp [same,clear]
    · simp [same]
  rw [withoutBit,withBit,chunkSet _ inside,setChunkTwice,word,setChunkChunk]

abbrev Addrs := Fin fsIaddrNr → BitVec 64

@[ext] structure DInode where
  iMode : BitVec 32
  iDev : BitVec 64
  iRdev : BitVec 64
  iNlink : BitVec 64
  iSize : BitVec 64
  iAddr : Addrs

def inodeField (b : Block) (index k : Nat) : BitVec 64 := u64 (slice b (dInodeBytes*index + 8*k) 8)

def dInodeAt (b : Block) (index : Nat) : DInode :=
  ⟨u32 (slice b (dInodeBytes*index) 4),inodeField b index 1,inodeField b index 2,inodeField b index 3,
    inodeField b index 4,fun k => inodeField b index (5+k)⟩

def setMode (b : Block) (index : Nat) (mode : BitVec 32) : Block := patch b (dInodeBytes*index) (le32 mode)
def setInodeField (b : Block) (index k : Nat) (v : BitVec 64) : Block := patch b (dInodeBytes*index + 8*k) (le64 v)

def addrAt (a : Addrs) (k : Nat) : BitVec 64 := if h : k < fsIaddrNr then a ⟨k,h⟩ else 0

def DInode.word (d : DInode) : Nat → BitVec 64
  | 0 => d.iDev
  | 1 => d.iRdev
  | 2 => d.iNlink
  | 3 => d.iSize
  | k+4 => addrAt d.iAddr k

def setWords (index : Nat) (word : Nat → BitVec 64) : Nat → Block → Block
  | 0,b => b
  | k+1,b => setInodeField (setWords index word k b) index (1+k) (word k)

def setDInode (b : Block) (index : Nat) (d : DInode) : Block := setWords index d.word 20 (setMode b index d.iMode)

def clearDInode (b : Block) (index : Nat) : Block := patch b (dInodeBytes*index) (List.replicate dInodeBytes 0)

theorem inodeFieldSet {b index k} (v) (inside : index < inodesPerBlock) (small : k < 21) :
    inodeField (setInodeField b index k v) index k = v := by
  have fits : dInodeBytes*index + 8*k + (le64 v).length ≤ bsize := by
    rw [le64Length]
    simp only [inodesPerBlock,dInodeBytes,bsize] at inside ⊢
    omega
  have same := slicePatchSame b _ (le64 v) fits
  rw [le64Length] at same
  exact (congrArg u64 same).trans (u64Le v)

theorem inodeFieldOther {k' : Nat} (v : BitVec 64) (small : k < 21) (small' : k' < 21) (apart : (index,k) ≠ (index',k')) :
    inodeField (setInodeField b index k v) index' k' = inodeField b index' k' := by
  have gap : dInodeBytes*index' + 8*k' + 8 ≤ dInodeBytes*index + 8*k ∨
      dInodeBytes*index + 8*k + 8 ≤ dInodeBytes*index' + 8*k' := by
    simp only [ne_eq,Prod.mk.injEq] at apart
    simp only [dInodeBytes]
    omega
  rw [inodeField,setInodeField,slicePatchOutside _ _ _ _ _ (by rw [le64Length]; exact gap)]
  rfl

theorem modeFieldOther (v : BitVec 64) (small : 0 < k ∧ k < 21) :
    slice (setInodeField b index k v) (dInodeBytes*index') 4 = slice b (dInodeBytes*index') 4 := by
  apply slicePatchOutside
  rw [le64Length]
  simp only [dInodeBytes]
  omega

theorem fieldModeOther (m : BitVec 32) (small : 0 < k ∧ k < 21) :
    inodeField (setMode b index m) index' k = inodeField b index' k := by
  rw [inodeField,setMode,slicePatchOutside _ _ _ _ _ (by rw [le32Length]; simp only [dInodeBytes]; omega)]
  rfl

theorem modeSet (m : BitVec 32) (inside : index < inodesPerBlock) :
    u32 (slice (setMode b index m) (dInodeBytes*index) 4) = m := by
  have fits : dInodeBytes*index + (le32 m).length ≤ bsize := by
    rw [le32Length]
    simp only [inodesPerBlock,dInodeBytes,bsize] at inside ⊢
    omega
  have same := slicePatchSame b _ (le32 m) fits
  rw [le32Length] at same
  exact (congrArg u32 same).trans (u32Le m)

theorem modeOther (m : BitVec 32) (apart : index ≠ index') :
    slice (setMode b index m) (dInodeBytes*index') 4 = slice b (dInodeBytes*index') 4 := by
  apply slicePatchOutside
  rw [le32Length]
  simp only [dInodeBytes]
  omega

theorem setWordsMode {word : Nat → BitVec 64} (b : Block) (bound : count ≤ 20) :
    slice (setWords index word count b) (dInodeBytes*index') 4 = slice b (dInodeBytes*index') 4 := by
  induction count with
  | zero => rfl
  | succ k ih => rw [setWords,modeFieldOther _ (by omega),ih (by omega)]

theorem setWordsOther {word : Nat → BitVec 64} (b : Block) (bound : count ≤ 20) (small : k < 20) (apart : index ≠ index') :
    inodeField (setWords index word count b) index' (1+k) = inodeField b index' (1+k) := by
  induction count with
  | zero => rfl
  | succ j ih => rw [setWords,inodeFieldOther _ (by omega) (by omega) (by simp [apart]),ih (by omega)]

theorem setWordsAt {word : Nat → BitVec 64} (b : Block) (bound : count ≤ 20) (inside : index < inodesPerBlock) (small : k < count) :
    inodeField (setWords index word count b) index (1+k) = word k := by
  induction count with
  | zero => omega
  | succ j ih =>
    by_cases last : k = j
    · subst last
      rw [setWords,inodeFieldSet _ inside (by omega)]
    · rw [setWords,inodeFieldOther _ (by omega) (by omega) (by simp; omega),ih (by omega) (by omega)]

theorem dInodeWords {d : DInode} (mode : u32 (slice b (dInodeBytes*index) 4) = d.iMode)
    (words : ∀ k < 20, inodeField b index (1+k) = d.word k) : dInodeAt b index = d := by
  apply DInode.ext
  · exact mode
  · exact words 0 (by decide)
  · exact words 1 (by decide)
  · exact words 2 (by decide)
  · exact words 3 (by decide)
  · funext k
    have bound : k.val < 16 := k.isLt
    have addr := words (k+4) (by omega)
    rw [show 1+(k.val+4) = 5+k by omega] at addr
    refine addr.trans ?_
    simp [DInode.word,addrAt]

theorem dInodeWord (b index) {k} (small : k < 20) : (dInodeAt b index).word k = inodeField b index (1+k) := by
  match k with
  | 0 | 1 | 2 | 3 => rfl
  | k+4 =>
    have inside : k < fsIaddrNr := by
      have : fsIaddrNr = 16 := rfl
      omega
    rw [DInode.word,addrAt,dif_pos inside,show 1+(k+4) = 5+k by omega]
    rfl

theorem dInodeSame {b' : Block} (mode : slice b' (dInodeBytes*index) 4 = slice b (dInodeBytes*index) 4)
    (words : ∀ k < 20, inodeField b' index (1+k) = inodeField b index (1+k)) : dInodeAt b' index = dInodeAt b index :=
  dInodeWords (congrArg u32 mode) fun k small => (words k small).trans (dInodeWord b index small).symm

theorem dInodeSet (d : DInode) (inside : index < inodesPerBlock) :
    dInodeAt (setDInode b index d) index = d :=
  dInodeWords ((congrArg u32 (setWordsMode _ le_rfl)).trans (modeSet _ inside)) fun _ small => setWordsAt _ le_rfl inside small

theorem dInodeSetOther (d : DInode) (apart : index ≠ index') :
    dInodeAt (setDInode b index d) index' = dInodeAt b index' :=
  dInodeSame ((setWordsMode _ le_rfl).trans (modeOther _ apart))
    fun _ small => (setWordsOther _ le_rfl small apart).trans (fieldModeOther _ (by omega))

theorem clearField (inside : index < inodesPerBlock) (small : k < 21) :
    inodeField (clearDInode b index) index k = 0 := by
  have fits : dInodeBytes*index + (List.replicate dInodeBytes (0 : UInt8)).length ≤ bsize := by
    rw [List.length_replicate]
    simp only [inodesPerBlock,dInodeBytes,bsize] at inside ⊢
    omega
  have part := slicePatchInside b (dInodeBytes*index) (8*k) 8 (List.replicate dInodeBytes 0) fits
    (by rw [List.length_replicate]; simp only [dInodeBytes]; omega)
  rw [List.drop_replicate,List.take_replicate,
    show min 8 (dInodeBytes - 8*k) = 8 by simp only [dInodeBytes]; omega] at part
  exact congrArg u64 part

theorem clearOther {b index index' off len} (apart : index ≠ index') (small : off + len ≤ dInodeBytes) :
    slice (clearDInode b index) (dInodeBytes*index' + off) len = slice b (dInodeBytes*index' + off) len := by
  apply slicePatchOutside
  rw [List.length_replicate]
  simp only [dInodeBytes] at small ⊢
  omega

theorem clearedOther (apart : index ≠ index') : dInodeAt (clearDInode b index) index' = dInodeAt b index' :=
  dInodeSame (@clearOther _ _ _ 0 _ apart (by decide)) fun _ _ => congrArg u64 (clearOther apart (by simp only [dInodeBytes]; omega))

theorem freshDInode (mode) (inside : index < inodesPerBlock) :
    dInodeAt (setMode (clearDInode b index) index mode) index = ⟨mode,0,0,0,0,fun _ => 0⟩ := by
  refine dInodeWords (modeSet _ inside) fun k small => ?_
  rw [fieldModeOther _ (by omega),clearField inside (by omega)]
  match k with
  | 0 | 1 | 2 | 3 => rfl
  | k+4 => simp [DInode.word,addrAt]

theorem freshDInodeOther (mode : BitVec 32) (apart : index ≠ index') :
    dInodeAt (setMode (clearDInode b index) index mode) index' = dInodeAt b index' := by
  refine Eq.trans ?_ (clearedOther apart)
  exact dInodeSame (modeOther _ apart) fun k small => fieldModeOther _ (by omega)

end TskSw.FsLayout
