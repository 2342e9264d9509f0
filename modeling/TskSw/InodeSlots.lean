import TskSw.FsTree
import TskSw.FileSizes

/-! The records of the inode table: what `inode_update` stores `inode_lock` loads again, each
record has bytes of its own, and the kernel and `mkfs` agree where they are. -/
namespace TskSw.InodeSlots
open Bytes BlockProgram BlkIo BlkFlat FsLayout FsKernel DataBitmap DataBlocks Inodes FsTree Bmap FileSizes

section Bytes
variable {b : Block} {index p : Nat}

def Beside (index p : Nat) : Prop := p < dInodeBytes*index ∨ dInodeBytes*(index+1) ≤ p

theorem patchBeside {off bytes} (out : p < off ∨ off + bytes.length ≤ p) : byteAt (patch b off bytes) p = byteAt b p := by
  by_cases inside : p < bsize
  · rw [byteAtPatch _ _ _ _ inside,if_neg (by omega)]
  · rw [byteAt,byteAt,dif_neg inside,dif_neg inside]

theorem setWordsBeside {word : Nat → BitVec 64} {count : Nat} (bound : count ≤ 20) (out : Beside index p) :
    byteAt (setWords index word count b) p = byteAt b p := by
  induction count with
  | zero => rfl
  | succ k ih =>
    rw [setWords,setInodeField,patchBeside,ih (by omega)]
    rw [le64Length]
    simp only [Beside,dInodeBytes] at out ⊢
    omega

theorem setDInodeBeside (d : DInode) (out : Beside index p) : byteAt (setDInode b index d) p = byteAt b p := by
  rw [setDInode,setWordsBeside (by decide) out,setMode,patchBeside]
  rw [le32Length]
  simp only [Beside,dInodeBytes] at out ⊢
  omega

theorem clearDInodeBeside (out : Beside index p) : byteAt (clearDInode b index) p = byteAt b p := by
  rw [clearDInode,patchBeside]
  rw [List.length_replicate]
  simp only [Beside,dInodeBytes] at out ⊢
  omega

end Bytes

structure Unloaded (m : Kernel) (j : Nat) (inum : BitVec 32) : Prop where
  used : 0 < (m.inode j).ref
  idle : (m.inode j).busy = false
  invalid : (m.inode j).valid = false
  root : (m.inode j).iDev.toNat = rootDev
  number : (m.inode j).inum = inum

def fresh (x : Inode) (d : DInode) : Inode := ({x with busy := true}).load d

section Lock
variable {sb : Superblock} {t : Disk} {m : Kernel} {j : Nat} {inum : BitVec 32}

theorem runLoad (h : Tables sb t) (numbered : inum.toNat < sb.sNinodes.toNat) (slot : Unloaded m j inum) :
    run diskLayer (inodeLock j) ⟨t,m⟩ = .ok ((),⟨t,m.withInode j (fresh (m.inode j) (diskInode t.view inum))⟩) := by
  have block := tablesInode h numbered
  have loaded : locked t.view (m.inode j) = fresh (m.inode j) (diskInode t.view inum) := by
    simp only [locked,slot.invalid,Bool.false_eq_true,if_false,slot.number,fresh]
  rw [← slot.number] at block
  rw [runInodeLock (tablesSuper h) block slot.used slot.idle slot.root,loaded]

end Lock

def Loads (s : Store) (m : Kernel) (j : Nat) (y : Inode) : Prop :=
  run cacheLayer (inodeLock j) ⟨s,m⟩ = .error .noBuffers ∨
    ∃ s', run cacheLayer (inodeLock j) ⟨s,m⟩ = .ok ((),⟨s',m.withInode j y⟩)

structure SameFields (x y : Inode) : Prop where
  iMode : y.iMode = x.iMode
  iRdev : y.iRdev = x.iRdev
  iNlink : y.iNlink = x.iNlink
  iSize : y.iSize = x.iSize
  iAddr : y.iAddr = x.iAddr

theorem loadsDisk {sb s t m j inum} (matched : Matches s t) (h : Tables sb t)
    (numbered : inum.toNat < sb.sNinodes.toNat) (slot : Unloaded m j inum) : Loads s m j (fresh (m.inode j) (diskInode t.view inum)) := by
  rcases toCache matched (runLoad h numbered slot) with stuck | ⟨s',ok,_⟩
  · exact Or.inl stuck
  · exact Or.inr ⟨s',ok⟩

structure Placed (sb : Superblock) (inum : BitVec 32) (d : DInode) (image : Mkfs.Image) : Prop where
  others : ∀ n, n ≠ inodeBlock sb inum → Mkfs.writeDiskInode sb inum.toNat d image n = image n
  beside : ∀ p, Beside (inum.toNat % inodesPerBlock) p →
    byteAt (Mkfs.writeDiskInode sb inum.toNat d image (inodeBlock sb inum)) p = byteAt (image (inodeBlock sb inum)) p
  record : dInodeAt (Mkfs.writeDiskInode sb inum.toNat d image (inodeBlock sb inum)) (inum.toNat % inodesPerBlock) = d

theorem placed (sb : Superblock) (inum : BitVec 32) (d : DInode) (image : Mkfs.Image) : Placed sb inum d image := by
  have here : Mkfs.writeDiskInode sb inum.toNat d image (inodeBlock sb inum) =
      setDInode (clearDInode (image (inodeBlock sb inum)) (inum.toNat % inodesPerBlock)) (inum.toNat % inodesPerBlock) d := Function.update_self ..
  refine ⟨fun n apart => Function.update_of_ne apart ..,fun p out => ?_,?_⟩
  · rw [here,setDInodeBeside d out,clearDInodeBeside out]
  · rw [here,dInodeSet d (Nat.mod_lt _ (by decide))]

theorem inodeSlots {s : Store} {t : Disk} {k : Kernel} {sb : Superblock} {ip : Nat} {a : BitVec 32} (matched : Matches s t) (tables : Tables sb t)
    (root : (k.inode ip).iDev.toNat = rootDev) (number : (k.inode ip).inum = a) (numbered : a.toNat < sb.sNinodes.toNat) :
    (run cacheLayer (inodeUpdate ip) ⟨s,k⟩ = .error .noBuffers ∨
      ∃ s', run cacheLayer (inodeUpdate ip) ⟨s,k⟩ = .ok ((),⟨s',k⟩) ∧
        (∀ m j, Unloaded m j a → ∃ y, Loads s' m j y ∧ SameFields (k.inode ip) y) ∧
        (∀ m j b, b ≠ a → b.toNat < sb.sNinodes.toNat → Unloaded m j b → ∃ y, Loads s m j y ∧ Loads s' m j y) ∧
        (∀ n, n ≠ inodeBlock sb a → cachedView s' n = cachedView s n) ∧
        ∀ p, Beside (a.toNat % inodesPerBlock) p → byteAt (cachedView s' (inodeBlock sb a)) p = byteAt (cachedView s (inodeBlock sb a)) p) ∧
    dInodeBytes*(a.toNat % inodesPerBlock + 1) ≤ bsize ∧ ∀ d image, Placed sb a d image := by
  have index : a.toNat % inodesPerBlock < inodesPerBlock := Nat.mod_lt _ (by decide)
  refine ⟨?_,?_,placed sb a⟩
  · subst number
    rcases toCache matched (runInodeUpdate tables root numbered) with stuck | ⟨s',ok,after⟩
    · exact Or.inl stuck
    have tables' : Tables sb (putInode t sb (k.inode ip).inum (diskCopy (k.inode ip))) := ⟨tables.layout,putInodeSuper tables _,tables.free⟩
    refine Or.inr ⟨s',ok,fun m j slot => ?_,fun m j b apart small slot => ?_,fun n apart => ?_,fun p out => ?_⟩
    · have loaded := loadsDisk after tables' numbered slot
      rw [diskInodePut tables] at loaded
      exact ⟨_,loaded,rfl,rfl,rfl,rfl,rfl⟩
    · have loaded := loadsDisk after tables' small slot
      rw [diskInodePutOther tables _ apart] at loaded
      exact ⟨_,loadsDisk matched tables small slot,loaded⟩
    · rw [matchesView after,matchesView matched]
      exact putInodeView apart
    · rw [matchesView after,matchesView matched,putInode,storeView]
      exact setDInodeBeside _ out
  · simp only [inodesPerBlock,dInodeBytes,bsize] at index ⊢
    omega

def twoSlots : Kernel :=
  (emptyFile.withInode 0 {emptyFile.inode 0 with inum := 5, iNlink := 7}).withInode 1 {emptyInode with ref := 1, iDev := devRoot, inum := 5}

theorem linksRestored : ∃ s' y, run cacheLayer (inodeUpdate 0) ⟨smallStore,twoSlots⟩ = .ok ((),⟨s',twoSlots⟩) ∧
    Loads s' twoSlots 1 y ∧ y.iNlink = 7 := by
  obtain ⟨updates,_⟩ := inodeSlots (bootMatches smallImage 64) emptyFileTables (show (twoSlots.inode 0).iDev.toNat = rootDev by decide) rfl
    (by decide)
  rcases updates with stuck | ⟨s',ran,loads,_⟩
  · exact absurd stuck (smallReady (by decide) (by decide +kernel))
  · obtain ⟨y,loaded,same⟩ := loads twoSlots 1 ⟨by decide,rfl,rfl,by decide,rfl⟩
    exact ⟨s',y,ran,loaded,same.iNlink⟩

end TskSw.InodeSlots
