import TskSw.FsRuns
import TskSw.Reformat

/-! From the image that mkfs writes to any state that calls of the file system lead to: what a
check of the file system would look at, and that nothing is ever given back. -/
namespace TskSw.Consistency
open BlkIo BlkFlat BlockProgram FsLayout FsKernel DataBitmap DataBlocks Bmap Inodes Directory FsTree FsCalls MkfsImage FsRuns
open DirectoryMap (Live)
open References (smallWorld fileA)

structure Consistent (view : Nat → Block) (k : Kernel) : Prop where
  entries : ∀ i < entryCount (rootOf view), Live (entryAt view (rootOf view) i) →
    (entryAt view (rootOf view) i).dIno.toNat < (superOf view).sNinodes.toNat ∧ inodeBit view (entryAt view (rootOf view) i).dIno = true
  blocks : ∀ inum, inum.toNat < (superOf view).sNinodes.toNat → inum ≠ rootIno → Plain view (stored view inum)
  cached : ∀ i, 0 < (k.inode i).ref → i < ninode ∧ inodeBit view (k.inode i).inum = true ∧
    ((k.inode i).valid = true → content {k.inode i with iAddr := (stored view (k.inode i).inum).iAddr} = stored view (k.inode i).inum)
  once : ∀ i j, 0 < (k.inode i).ref → 0 < (k.inode j).ref → (k.inode i).inum = (k.inode j).inum → i = j

theorem filesStayConsistent {size nrFiles : Nat} {image : Nat → Block} (fits : Fits size nrFiles)
    (made : Reformat.writeFsImage size nrFiles (fun _ => zeros) = .ok image) (console stack : List UInt8) {w : World Store Kernel}
    (runs : Runs ⟨boot image (size/bsize),bootKernel console stack⟩ w) : Consistent (cachedView w.disk) w.mem := by
  cases made.symm.trans (Reformat.freshRun (fitsMade fits))
  obtain ⟨t,⟨same,⟨disk,cache⟩⟩,-⟩ := runsBacked ⟨bootMatches _ _,imageSound fits console stack⟩ runs
  rw [matchesView same]
  exact ⟨disk.live,disk.plain,fun i used => ⟨cache.inside i used,(cache.slot i used).bit,(cache.slot i used).same⟩,cache.unique⟩

theorem fileCreated : ∃ w, run cacheLayer (Call.fsOpen fileA oCreate).prog smallWorld = .ok (.code 0,w) ∧ Runs smallWorld w := by
  obtain ⟨w,created,-⟩ := smallSeen smallCreated
  have ran : run cacheLayer (Call.fsOpen fileA oCreate).prog smallWorld = .ok (.code 0,w) := (runBindOk _).mpr ⟨0,w,created,rfl⟩
  exact ⟨w,ran,.call .start (smallRoom fileA oCreate) ran⟩

theorem newFileStaysConsistent : ∃ w, run cacheLayer (Call.fsOpen fileA oCreate).prog smallWorld = .ok (.code 0,w) ∧
    Consistent (cachedView w.disk) w.mem := by
  obtain ⟨w,ran,runs⟩ := fileCreated
  exact ⟨w,ran,filesStayConsistent smallFits (Reformat.freshRun (fitsMade smallFits)) [] [] runs⟩

theorem blocksStayTaken {w w' : World Store Kernel} (system : FileSystem w) (later : Runs w w') :
    (∀ b, Taken (cachedView w.disk) b → Taken (cachedView w'.disk) b) ∧
      ∀ i < (superOf (cachedView w'.disk)).sNblocks.toNat, dataBit (cachedView w'.disk) i = false →
        cachedView w'.disk ((superOf (cachedView w'.disk)).sFirstdataBlock.toNat + i) = fun _ => 0 := by
  obtain ⟨t,backed⟩ := system
  obtain ⟨t',backed',evolves⟩ := runsBacked backed later
  rw [matchesView backed.same,matchesView backed'.same]
  exact ⟨evolves.taken,backed'.sound.disk.blank⟩

theorem rootBlockStaysTaken : ∃ w, run cacheLayer (Call.fsOpen fileA oCreate).prog smallWorld = .ok (.code 0,w) ∧
    Taken (cachedView w.disk) 10 := by
  obtain ⟨w,ran,runs⟩ := fileCreated
  have system : FileSystem smallWorld := ⟨_,bootMatches _ _,imageSound smallFits [] []⟩
  refine ⟨w,ran,(blocksStayTaken system runs).1 10 ⟨0,?_⟩⟩
  rw [smallWorld,smallStore,matchesView (bootMatches smallImage 64)]
  decide +kernel

end TskSw.Consistency
