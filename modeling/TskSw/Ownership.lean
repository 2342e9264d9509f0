import TskSw.Interference
import TskSw.Directory

/-! The functions below the inode cache, run among other threads: they change neither `ref`
nor `I_BUSY` of any inode nor the tables of open files, and release each buffer they read
unless they hand it out. -/
namespace TskSw.Ownership
open BlockProgram Interference BlkIo FsLayout FsKernel DataBitmap DataBlocks Bmap Inodes InodeIo Directory

structure Still (k m : Kernel) : Prop where
  file : m.file = k.file
  fds : m.fds = k.fds
  current : m.current = k.current
  ref : ∀ i, (m.inode i).ref = (k.inode i).ref
  busy : ∀ i, (m.inode i).busy = (k.inode i).busy

theorem stillRefl (k : Kernel) : Still k k := ⟨rfl,rfl,rfl,fun _ => rfl,fun _ => rfl⟩

theorem stillTrans {k l m} (h : Still k l) (g : Still l m) : Still k m :=
  ⟨g.file.trans h.file,g.fds.trans h.fds,g.current.trans h.current,fun i => (g.ref i).trans (h.ref i),fun i => (g.busy i).trans (h.busy i)⟩

class Quiets {γ : Type} (D : Discipline Nat Kernel γ) : Prop where
  keeps : ∀ {k m : Kernel} (own : γ), Still k m → D.store k m own own
  gives : ∀ (b : Nat) (own : γ), D.give b (D.take b own) own

def still : Discipline Nat Kernel Unit where
  store k m _ _ := Still k m
  take _ own := own
  give _ _ _ := True
  sees _ _ := True
  whole := True

instance : Quiets still := ⟨fun _ same => same,fun _ _ => trivial⟩

variable {ip b start i rest blk passes off : Nat} {α σ : Type} {g : Inode → Inode} {dev : BitVec 64} {src : List UInt8}
  {L : Layer σ Nat Block Fault} {f : Unit → Fs α}

theorem quietRun {p : Fs α} {s t : World σ Kernel} {a : α} (quiet : Neutral still p) (ok : run L p s = .ok (a,t)) : Still s.mem t.mem :=
  (safeRun stillRefl stillTrans (fun _ _ _ _ (store : still.store ..) => store) (fun _ _ => trivial) (v := ⟨s.mem,false,()⟩) rfl
    ((quiet ()).safe _ rfl) ok).1

variable {γ : Type} {D : Discipline Nat Kernel γ} {own : γ}

section Blocks
variable {post : α → γ}

theorem quietKassert {cond : Prop} [Decidable cond] : Neutral D (kassert cond) := by
  intro own
  unfold kassert
  split
  · exact leavesPure rfl
  · exact leavesAbort

theorem quietInode {ip} : Neutral D (getInode ip) := fun _ => leavesThen neutralMemory fun _ => leavesPure rfl

theorem editField {β : Type} (f : Inode → β) (same : ∀ x, f (g x) = f x) (k : Kernel) (i : Nat) :
    f ((k.withInode ip (g (k.inode ip))).inode i) = f (k.inode i) := by
  by_cases here : i = ip
  · simp [Kernel.withInode,here,same]
  · simp [Kernel.withInode,here]

theorem leavesBread : Leaves D (bread dev b) own (fun _ => D.take b own) := by
  unfold bread
  split
  · exact leavesRead
  · exact leavesAbort

theorem quietBread (rest : ∀ a, Leaves D (f a) (D.take b own) post) :
    Leaves D (bread dev b >>= f) own post := leavesBind leavesBread rest

variable [Quiets D]

theorem quietEdit (ref : ∀ x, (g x).ref = x.ref) (busy : ∀ x, (g x).busy = x.busy) : Neutral D (editInode ip g) :=
  fun own => leavesChange fun k _ => Quiets.keeps own ⟨rfl,rfl,rfl,editField Inode.ref ref k,editField Inode.busy busy k⟩

theorem quietGive (rest : ∀ a, Leaves D (f a) own post) :
    Leaves D (releaseBlock b >>= f) (D.take b own) post := leavesBind (leavesRelease (Quiets.gives b own)) rest

theorem quietRelease : Leaves D (releaseBlock b : Fs Unit) (D.take b own) (fun _ => own) := leavesRelease (Quiets.gives b own)

theorem quietSuperblock : Neutral D (readSuperblock dev) :=
  fun _ => quietBread fun _ => leavesThen neutralData fun _ => quietGive fun _ => leavesPure rfl

theorem quietTakeBit : Neutral D (takeBit dev start i) := by
  refine fun own => quietBread fun _ => leavesThen neutralData fun d => ?_
  dsimp only
  split
  · exact leavesAbort
  split
  · exact quietGive fun _ => leavesPure rfl
  · exact leavesThen neutralSet fun _ => leavesThen neutralWrite fun _ => quietGive fun _ => leavesPure rfl

theorem quietScan : Neutral D (scanBitmap dev start rest i) := by
  intro own
  induction rest generalizing i with
  | zero => exact leavesPure rfl
  | succ rest ih =>
    refine leavesThen quietTakeBit fun taken => ?_
    split
    · exact leavesPure rfl
    · exact ih

theorem quietFreeInode : Neutral D (getFreeInode dev) :=
  fun _ => leavesThen quietSuperblock fun _ => leavesThen quietScan fun _ => leavesPure rfl

def handed {γ : Type} (D : Discipline Nat Kernel γ) (own : γ) : Option Nat → γ
  | none => own
  | some b => D.take b own

theorem leavesFreeBlock : Leaves D (findFreeDataBlock dev) own (handed D own) := by
  refine leavesThen quietSuperblock fun sb => leavesThen quietScan fun found => ?_
  cases found with
  | none => exact leavesPure rfl
  | some i => exact quietBread fun _ => leavesThen neutralSet fun _ => leavesPure rfl

theorem quietReleased : Neutral D (memory >>= fun k => setMemory {k with released := b :: k.released} : Fs Unit) :=
  fun own => leavesChange fun _ _ => Quiets.keeps own ⟨rfl,rfl,rfl,fun _ => rfl,fun _ => rfl⟩

theorem quietReleaseBlock : Neutral D (releaseDataBlock dev blk) := by
  have whole : releaseDataBlock dev blk = (memory >>= fun k => setMemory {k with released := blk :: k.released}) >>= fun _ => (do
      let sb ← readSuperblock dev
      let bitmapBlk := sb.bitmapStart + blk/bitsPerBlock
      bread dev bitmapBlk
      let d ← blockData bitmapBlk
      let offset := blk % bitsPerBlock
      if chunksPerBlock ≤ offset/chunkBytes then abort .outOfBounds
      else do
        kassert (bitAt d offset = true)
        setBlock bitmapBlk (withoutBit d offset)
        writeBlock bitmapBlk
        releaseBlock bitmapBlk) := rfl
  intro own
  rw [whole]
  refine leavesThen quietReleased fun _ => leavesThen quietSuperblock fun sb => quietBread fun _ => leavesThen neutralData fun d => ?_
  dsimp only
  split
  · exact leavesAbort
  · exact leavesThen quietKassert fun _ => leavesThen neutralSet fun _ => leavesThen neutralWrite fun _ => quietRelease

theorem quietSetAddr {ip k b} : Neutral D (setAddr ip k b) := by
  unfold setAddr
  split
  · exact quietEdit (fun _ => rfl) (fun _ => rfl)
  · exact fun _ => leavesAbort

theorem quietIndexBlock {k : Nat} : Neutral D (indexBlock ip k) := by
  refine fun own => leavesThen quietInode fun x => ?_
  dsimp only
  split
  · refine leavesBind leavesFreeBlock fun found => ?_
    cases found with
    | none => exact leavesAbort
    | some b => exact leavesThen quietSetAddr fun _ => quietGive fun _ => leavesPure rfl
  · exact leavesPure rfl

theorem quietBmap {n : Nat} : Neutral D (bmap ip n) := by
  refine fun own => leavesThen quietInode fun x => ?_
  dsimp only
  split
  · split
    · refine leavesBind leavesFreeBlock fun found => ?_
      cases found with
      | none => exact leavesAbort
      | some b => exact leavesThen quietSetAddr fun _ => quietGive fun _ => leavesPure rfl
    · exact leavesPure rfl
  split
  · refine leavesThen quietIndexBlock fun blk => quietBread fun _ => leavesThen neutralData fun idx => ?_
    split
    · exact leavesAbort
    split
    · refine leavesBind leavesFreeBlock fun found => ?_
      cases found with
      | none => exact leavesAbort
      | some b => exact leavesThen neutralSet fun _ => quietGive fun _ => quietGive fun _ => leavesPure rfl
    · exact quietGive fun _ => leavesPure rfl
  · exact leavesPure rfl

end Blocks

section Inode
variable [Quiets D]

theorem leavesReadDiskInode {dev ino} : Leaves D (readDiskInode dev ino) own (fun r => D.take r.1 own) :=
  leavesThen quietSuperblock fun _ => quietBread fun _ => leavesPure rfl

theorem quietUpdate : Neutral D (inodeUpdate ip) :=
  fun _ => leavesThen quietInode fun _ => leavesBind leavesReadDiskInode fun _ => leavesThen neutralData fun _ =>
    leavesThen neutralSet fun _ => leavesThen neutralWrite fun _ => quietRelease

theorem quietFreeDirect : Neutral D (freeDirect ip rest i) := by
  intro own
  induction rest generalizing i with
  | zero => exact leavesPure rfl
  | succ rest ih =>
    refine leavesThen quietInode fun x => ?_
    split
    · exact leavesThen quietReleaseBlock fun _ => leavesThen quietSetAddr fun _ => ih
    · exact ih

theorem quietFreeEntries {j : Nat} : Neutral D (freeEntries dev blk rest j) := by
  intro own
  induction rest generalizing j with
  | zero => exact leavesPure rfl
  | succ rest ih =>
    refine leavesThen neutralData fun d => ?_
    split
    · exact leavesThen quietReleaseBlock fun _ => leavesThen neutralData fun _ => leavesThen neutralSet fun _ => ih
    · exact ih

theorem quietFreeIndexBlock : Neutral D (freeIndexBlock ip i) := by
  refine fun own => leavesThen quietInode fun x => ?_
  dsimp only
  split
  · exact quietBread fun _ => leavesThen quietFreeEntries fun _ => quietGive fun _ => leavesThen quietReleaseBlock fun _ => quietSetAddr own
  · exact leavesThen quietReleaseBlock fun _ => quietSetAddr own

theorem quietFreeIndirect : Neutral D (freeIndirect ip rest i) := by
  intro own
  induction rest generalizing i with
  | zero => exact leavesPure rfl
  | succ rest ih => exact leavesThen quietFreeIndexBlock fun _ => ih

theorem quietTruncate : Neutral D (inodeTruncate ip) :=
  fun own => leavesThen quietFreeDirect fun _ => leavesThen quietFreeIndirect fun _ =>
    leavesThen (quietEdit (fun _ => rfl) fun _ => rfl) fun _ => quietUpdate own

theorem quietReadLoop {remains : Nat} : Neutral D (readLoop ip passes off remains) := by
  intro own
  induction passes generalizing off remains with
  | zero => exact leavesPure rfl
  | succ passes ih =>
    unfold readLoop
    split
    · exact leavesPure rfl
    split
    · exact leavesAbort
    · exact leavesThen quietBmap fun _ => leavesThen quietInode fun _ => quietBread fun _ => leavesThen neutralData fun _ =>
        quietGive fun _ => leavesBind ih fun _ => leavesPure rfl

theorem quietInodeRead {off counts} : Neutral D (inodeRead ip off counts) := by
  refine fun own => leavesThen quietInode fun x => leavesThen quietKassert fun _ => ?_
  split
  · exact leavesPure rfl
  · exact leavesThen quietReadLoop fun _ => leavesPure rfl

theorem quietWriteLoop : Neutral D (writeLoop ip passes off src) := by
  intro own
  induction passes generalizing off src with
  | zero => exact leavesPure rfl
  | succ passes ih =>
    unfold writeLoop
    split
    · exact leavesPure rfl
    split
    · exact leavesAbort
    · exact leavesThen quietBmap fun _ => leavesThen quietInode fun _ => quietBread fun _ => leavesThen neutralData fun _ =>
        leavesThen neutralSet fun _ => leavesThen neutralWrite fun _ => quietGive fun _ => ih

theorem quietGrow {size} : Neutral D (grow ip size) := by
  refine fun own => leavesThen quietInode fun x => ?_
  split
  · exact leavesThen (quietEdit (fun _ => rfl) fun _ => rfl) fun _ => quietUpdate own
  · exact leavesPure rfl

theorem quietInodeWrite {off : BitVec 64} : Neutral D (inodeWrite ip src off) := by
  refine fun own => leavesThen quietInode fun x => leavesThen quietKassert fun _ => ?_
  split
  · exact leavesPure rfl
  split
  · exact leavesPure rfl
  refine leavesThen quietWriteLoop fun _ => ?_
  dsimp only
  split
  · exact leavesThen quietGrow fun _ => leavesPure rfl
  · exact leavesPure rfl

theorem quietLookupLoop {name passes off} : Neutral D (lookupLoop ip name passes off) := by
  intro own
  induction passes generalizing off with
  | zero => exact leavesPure rfl
  | succ passes ih =>
    refine leavesThen quietInode fun x => ?_
    split
    · exact leavesPure rfl
    refine leavesThen quietInodeRead fun _ => leavesThen quietKassert fun _ => ?_
    dsimp only
    split
    · exact leavesPure rfl
    · exact ih

theorem quietSlotLoop {passes off de} : Neutral D (slotLoop ip passes off de) := by
  intro own
  induction passes generalizing off de with
  | zero => exact leavesPure rfl
  | succ passes ih =>
    refine leavesThen quietInode fun x => ?_
    split
    · exact leavesPure rfl
    refine leavesThen quietInodeRead fun _ => leavesThen quietKassert fun _ => ?_
    split
    · exact leavesPure rfl
    · exact ih

end Inode

section Lock
variable {w v : World σ Kernel} {a : Unit}

theorem lockRan (ok : run L (inodeLock ip) w = .ok (a,v)) : 0 < (w.mem.inode ip).ref ∧ (w.mem.inode ip).busy = false ∧
    Still (w.mem.withInode ip {w.mem.inode ip with busy := true}) v.mem ∧ (v.mem.inode ip).valid = true := by
  obtain ⟨x,_,get,ok⟩ := runCut ok
  cases get
  obtain ⟨_,_,assertion,ok⟩ := runCut ok
  obtain ⟨used,rfl⟩ := runKassertOk assertion
  dsimp only at ok
  split at ok
  case isTrue => cases ok
  rename_i free
  obtain ⟨_,_,edit,ok⟩ := runCut ok
  cases edit
  refine ⟨used,Bool.eq_false_of_not_eq_true free,?_⟩
  split at ok
  · have load : ∀ d, Neutral still (editInode ip fun x => x.load d) := fun d => quietEdit (fun _ => rfl) fun _ => rfl
    refine ⟨quietRun (fun _ => leavesThen quietSuperblock fun _ => leavesBind leavesReadDiskInode fun _ => leavesThen neutralData fun _ =>
      quietGive fun _ => load _ _) ok,?_⟩
    obtain ⟨_,_,_,ok⟩ := runCut ok
    obtain ⟨_,_,_,ok⟩ := runCut ok
    obtain ⟨_,_,_,ok⟩ := runCut ok
    obtain ⟨_,_,_,ok⟩ := runCut ok
    cases ok
    simp [Kernel.withInode,Inode.load]
  · rename_i filled
    cases ok
    exact ⟨stillRefl _,by simpa [Kernel.withInode] using filled⟩

structure Owned (x : Inode) : Prop where
  busy : x.busy = true
  valid : x.valid = true
  used : 0 < x.ref

theorem lockOwned (ok : run L (inodeLock ip) w = .ok (a,v)) : Owned (v.mem.inode ip) := by
  obtain ⟨used,_,rest,valid⟩ := lockRan ok
  refine ⟨(rest.busy ip).trans ?_,valid,?_⟩
  · simp [Kernel.withInode]
  · rw [rest.ref ip]
    simpa [Kernel.withInode] using used

end Lock

end TskSw.Ownership
