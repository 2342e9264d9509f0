import TskSw.Ownership
import TskSw.FsCalls

/-! The inode cache and the calls of the file system, run among other threads. What a thread
has locked is part of what it owns; the calls that do not touch the counts and slots of the
descriptors own as much when they return as when they started. -/
namespace TskSw.Locking
open BlockProgram Interference BlkIo FsLayout FsKernel DataBitmap DataBlocks Bmap Inodes InodeIo Directory FsCalls Ownership

structure SameTables (k m : Kernel) : Prop where
  counts : ∀ f, (m.file f).fCount = (k.file f).fCount
  fds : m.fds = k.fds
  current : m.current = k.current

theorem sameInode {k ip x} : SameTables k (k.withInode ip x) := ⟨fun _ => rfl,rfl,rfl⟩

class Caches {γ : Type} (D : Discipline Nat Kernel γ) extends Quiets D where
  lock : γ → Nat → γ
  swap : ∀ (own : γ) (i j : Nat), lock (lock own i) j = lock (lock own j) i
  edits : ∀ {k m : Kernel} (own : γ), SameTables k m → (∀ j, (m.inode j).busy = (k.inode j).busy) → D.store k m own own
  recycles : ∀ {k m : Kernel} (own : γ) (i : Nat), SameTables k m → (D.whole → (k.inode i).ref = 0) → (m.inode i).ref = 1 ∧
    (m.inode i).busy = false →
    (∀ j, j ≠ i → (m.inode j).busy = (k.inode j).busy) → D.store k m own own
  locks : ∀ {k m : Kernel} (own : γ) (i : Nat), SameTables k m → (D.whole → (k.inode i).busy = false) → (m.inode i).busy = true →
    (∀ j, j ≠ i → (m.inode j).busy = (k.inode j).busy) → D.store k m own (lock own i)
  unlocks : ∀ {k m : Kernel} (own : γ) (i : Nat), SameTables k m → (m.inode i).busy = false →
    (∀ j, j ≠ i → (m.inode j).busy = (k.inode j).busy) → D.store k m (lock own i) own

open Caches (lock)

variable {α : Type} {ip dp off : Nat} {g : Inode → Inode} {x : Inode} {name path : List UInt8} {inum : BitVec 32} {dev : BitVec 64}
  {f : Unit → Fs α}

variable {γ : Type} {D : Discipline Nat Kernel γ} {own : γ} {post : α → γ}

section Rules
variable {own' : γ} {k : Kernel}

theorem leavesLookAt {f : Inode → Fs α} (rest : ∀ k : Kernel, Safe D (f (k.inode ip)) ⟨k,true,own⟩ (fun u a => u.own = post a)) :
    Leaves D (getInode ip >>= f) own post := leavesLook fun k _ => rest k

theorem safeKassert {cond : Prop} [Decidable cond] {v} {Q : View Kernel γ → α → Prop}
    (rest : cond → Safe D (f ()) v Q) : Safe D (kassert cond >>= f) v Q := by
  unfold kassert
  split
  · rename_i holds
    exact rest holds
  · trivial

theorem safeEdit
    (store : ∀ k', (D.whole → k' = k) → D.store k' (k'.withInode ip (g (k'.inode ip))) own own') (rest : Leaves D (f ()) own' post) :
    Safe D (editInode ip g >>= f) ⟨k,true,own⟩ (fun u a => u.own = post a) := by
  intro k' _ same
  exact ⟨rfl,own',store k' fun whole => same whole rfl,rest.safe _ rfl⟩

theorem slotSame : (k.withInode ip x).inode ip = x := Function.update_self ..

theorem slotOther (j : Nat) (apart : j ≠ ip) : ((k.withInode ip x).inode j).busy = (k.inode j).busy :=
  congrArg Inode.busy (Function.update_of_ne apart ..)

variable [Caches D]

theorem neutralEdit (busy : ∀ x, (g x).busy = x.busy) : Neutral D (editInode ip g) :=
  fun own => leavesChange fun k _ => Caches.edits own sameInode (editField Inode.busy busy k)

theorem neutralFile {f : Fin maxFdTableSize} {g : FileDescriptor → FileDescriptor} (count : ∀ d, (g d).fCount = d.fCount) :
    Neutral D (editFile f g) := by
  refine fun own => leavesChange fun k _ => Caches.edits own ⟨fun e => ?_,rfl,rfl⟩ fun _ => rfl
  by_cases here : e = f
  · simp [Kernel.withFile,here,count]
  · simp [Kernel.withFile,here]

end Rules

section Inode
variable [Caches D]

theorem leavesLock : Leaves D (inodeLock ip) own (fun _ => lock D own ip) := by
  refine leavesLookAt fun k => safeKassert fun _ => ?_
  dsimp only
  split
  · trivial
  rename_i free
  refine safeEdit (fun k' same => Caches.locks own ip sameInode (fun whole => ?_) (by rw [slotSame]) slotOther) ?_
  · rw [same whole]
    exact Bool.eq_false_of_not_eq_true free
  split
  · have load : ∀ d, Neutral D (editInode ip fun x => x.load d) := fun d => quietEdit (fun _ => rfl) fun _ => rfl
    exact leavesThen quietSuperblock fun _ => leavesBind leavesReadDiskInode fun _ => leavesThen neutralData fun _ => quietGive fun _ => load _ _
  · exact leavesPure rfl

theorem leavesClear {g} (clear : ∀ x, (g x).busy = false) : Leaves D (editInode ip g) (lock D own ip) (fun _ => own) :=
  leavesChange fun k _ => Caches.unlocks own ip sameInode (by rw [slotSame,clear]) slotOther

theorem leavesUnlock : Leaves D (inodeUnlock ip) (lock D own ip) (fun _ => own) :=
  leavesThen quietInode fun _ => leavesThen quietKassert fun _ => leavesClear fun _ => rfl

theorem neutralPut : Neutral D (inodePut ip) := by
  have drop : ∀ own, Leaves D (editInode ip (fun x => {x with ref := x.ref - 1})) own (fun _ => own) := neutralEdit fun _ => rfl
  refine fun own => leavesLookAt fun k => ?_
  split
  · refine safeKassert fun free => safeEdit (fun k' same => Caches.locks own ip sameInode (fun whole => ?_) (by rw [slotSame]) slotOther) ?_
    · rw [same whole]
      exact free
    exact leavesThen quietTruncate fun _ => leavesThen quietUpdate fun _ => leavesBind (leavesClear fun _ => rfl) fun _ => drop own
  · intro k' sees same
    exact (drop own).safe ⟨k,true,own⟩ rfl k' sees same

theorem neutralInodeGet {dev inum} : Neutral D (inodeGet dev inum) := by
  refine fun own => leavesLook fun k _ => ?_
  split
  · refine safeEdit (fun k' _ => Caches.edits own sameInode ?_) (leavesPure rfl)
    exact editField Inode.busy (g := fun x => {x with ref := x.ref + 1}) (fun _ => rfl) k'
  split
  · trivial
  · rename_i i found
    refine safeEdit (fun k' same => Caches.recycles own i sameInode (fun whole => ?_) (by rw [slotSame]; exact ⟨rfl,rfl⟩) slotOther)
      (leavesPure rfl)
    rw [same whole]
    exact (emptyFound found).2

theorem leavesGiveBack (rest : Leaves D (f ()) own post) :
    Leaves D (inodeUnlock ip >>= fun _ => inodePut ip >>= f) (lock D own ip) post :=
  leavesBind leavesUnlock fun _ => leavesThen neutralPut fun _ => rest

theorem neutralAllocate {dev mode} : Neutral D (inodeAllocate dev mode) := by
  refine fun own => leavesThen quietSuperblock fun _ => leavesThen quietFreeInode fun found => ?_
  cases found with
  | none => exact leavesPure rfl
  | some inum =>
    exact leavesBind leavesReadDiskInode fun _ => leavesThen neutralData fun _ => leavesThen neutralSet fun _ =>
      leavesThen neutralWrite fun _ => quietGive fun _ => leavesThen neutralInodeGet fun _ => leavesPure rfl

theorem neutralDirlookup : Neutral D (inodeDirlookup dp name) := by
  refine fun own => leavesThen quietInode fun x => leavesThen quietKassert fun _ => leavesThen quietLookupLoop fun found => ?_
  cases found with
  | none => exact leavesPure rfl
  | some r => exact leavesThen quietInode fun _ => leavesThen neutralInodeGet fun _ => leavesPure rfl

theorem neutralAddEntry : Neutral D (inodeAddDirectoryEntry dp name inum) := by
  refine fun own => leavesThen neutralDirlookup fun found => ?_
  cases found with
  | some r => exact leavesThen neutralPut fun _ => leavesPure rfl
  | none =>
    exact leavesThen neutralMemory fun _ => leavesThen quietSlotLoop fun _ =>
      leavesThen quietInodeWrite fun _ => leavesThen quietKassert fun _ => leavesPure rfl

end Inode

section Paths
variable [Caches D]

theorem neutralWalk {parent room ip names} : Neutral D (walk parent room ip names) := by
  intro own
  induction names generalizing ip with
  | nil =>
    unfold walk
    split
    · exact leavesThen neutralPut fun _ => leavesPure rfl
    · exact leavesPure rfl
  | cons name rest ih =>
    unfold walk
    split
    · exact leavesAbort
    refine leavesBind leavesLock fun _ => leavesThen quietInode fun x => ?_
    split
    · exact leavesGiveBack (leavesPure rfl)
    split
    · exact leavesBind leavesUnlock fun _ => leavesPure rfl
    refine leavesThen neutralDirlookup fun found => ?_
    cases found with
    | none => exact leavesGiveBack (leavesPure rfl)
    | some r => exact leavesGiveBack ih

theorem neutralPath {path parent room} : Neutral D (inodePath2inode path parent room) :=
  fun own => leavesThen quietKassert fun _ => leavesThen neutralInodeGet fun _ => neutralWalk own

theorem neutralNamei : Neutral D (inodeNamei path) := by
  refine fun own => leavesThen neutralPath fun found => ?_
  cases found with
  | none => exact leavesPure rfl
  | some r => exact leavesPure rfl

theorem neutralNameiparent : Neutral D (inodeNameiparent path) := neutralPath

theorem neutralAddOrPanic : Neutral D (addOrPanic dp name inum) := by
  refine fun own => leavesThen neutralAddEntry fun rc => ?_
  split
  · exact leavesAbort
  · exact leavesPure rfl

def locking {γ : Type} (D : Discipline Nat Kernel γ) [Caches D] (own : γ) : Option Nat → γ
  | none => own
  | some ip => lock D own ip

theorem leavesCreate {type : BitVec 32} : Leaves D (create path type dev) own (locking D own) := by
  refine leavesThen neutralNameiparent fun found => ?_
  cases found with
  | none => exact leavesPure rfl
  | some r =>
    obtain ⟨dp,name⟩ := r
    refine leavesBind leavesLock fun _ => leavesThen neutralDirlookup fun found => ?_
    cases found with
    | some r =>
      refine leavesGiveBack (leavesBind leavesLock fun _ => leavesThen quietInode fun x => ?_)
      split
      · exact leavesPure rfl
      · exact leavesGiveBack (leavesPure rfl)
    | none =>
      refine leavesThen quietInode fun d => leavesThen neutralAllocate fun made => ?_
      cases made with
      | none => exact leavesAbort
      | some ip =>
        have enter : ∀ inum, Leaves D (do addOrPanic dp name inum; inodeUnlock dp; inodePut dp; pure (some ip))
            (lock D (lock D own dp) ip) (locking D own) := by
          intro inum
          rw [Caches.swap]
          exact leavesThen neutralAddOrPanic fun _ => leavesGiveBack (leavesPure rfl)
        have link : ∀ dp (g : Inode → BitVec 64), Neutral D (editInode dp fun d => {d with iNlink := g d}) := fun _ _ => neutralEdit fun _ => rfl
        have fill : Neutral D (editInode ip fun x => {x with iDev := dev, iNlink := 1}) := neutralEdit fun _ => rfl
        refine leavesBind leavesLock fun _ => leavesThen quietInode fun x => leavesThen fill fun _ => leavesThen quietUpdate fun _ => ?_
        split
        · exact leavesThen quietInode fun _ => leavesThen (link dp _) fun _ => leavesThen quietUpdate fun _ =>
            leavesThen neutralAddOrPanic fun _ => leavesThen neutralAddOrPanic fun _ => enter x.inum
        · exact enter x.inum

end Paths

section Calls

theorem neutralOpenFile {fd} : Neutral D (openFile fd) := by
  intro own
  unfold openFile
  split
  · exact leavesPure rfl
  refine leavesThen neutralMemory fun k => ?_
  split
  · exact leavesPure rfl
  · exact leavesPure rfl

theorem neutralOnFile {fd : Int} {wrong : Int → α} {p : Fin maxFdTableSize → Fs α} (rest : ∀ f, Neutral D (p f)) :
    Neutral D (do match ← openFile fd with | .error rc => pure (wrong rc) | .ok f => p f) := by
  refine fun own => leavesThen neutralOpenFile fun found => ?_
  cases found with
  | error rc => exact leavesPure rfl
  | ok f => exact rest f own

theorem neutralHandle : Neutral D (devswGetHandle dev) := by
  refine fun own => leavesThen quietKassert fun _ => ?_
  split
  · exact leavesAbort
  split
  · exact leavesPure rfl
  split
  · exact leavesPure rfl
  · exact leavesPure rfl

variable [Caches D]

theorem leavesOpenSource {path omode} : Leaves D (openSource path omode) own (locking D own) := by
  unfold openSource
  split
  · exact leavesCreate
  refine leavesThen neutralNamei fun found => ?_
  cases found with
  | none => exact leavesPure rfl
  | some ip =>
    refine leavesBind leavesLock fun _ => leavesThen quietInode fun x => ?_
    split
    · exact leavesGiveBack (leavesPure rfl)
    · exact leavesPure rfl

theorem neutralLinks {ip} {g : Inode → BitVec 64} : Neutral D (editInode ip fun x => {x with iNlink := g x}) := neutralEdit fun _ => rfl

theorem neutralLinkErrorOut : Neutral D (linkErrorOut ip) :=
  fun _ => leavesBind leavesLock fun _ => leavesThen neutralLinks fun _ => leavesThen quietUpdate fun _ => leavesGiveBack (leavesPure rfl)

theorem leavesLinkSource {old : List UInt8} : Leaves D (linkSource old) own (locking D own) := by
  refine leavesThen neutralNamei fun found => ?_
  cases found with
  | none => exact leavesPure rfl
  | some ip =>
    refine leavesBind leavesLock fun _ => leavesThen quietInode fun x => ?_
    split
    · exact leavesGiveBack (leavesPure rfl)
    · exact leavesPure rfl

theorem leavesLinkInode {new : List UInt8} : Leaves D (linkInode ip new) (lock D own ip) (fun _ => own) := by
  refine leavesThen neutralLinks fun _ => leavesGiveBack (leavesThen neutralNameiparent fun found => ?_)
  cases found with
  | none => exact neutralLinkErrorOut own
  | some r =>
    refine leavesBind leavesLock fun _ => leavesThen quietInode fun d => leavesThen quietInode fun x => ?_
    split
    · exact leavesGiveBack (neutralLinkErrorOut own)
    refine leavesThen neutralAddEntry fun rc => ?_
    split
    · exact leavesGiveBack (neutralLinkErrorOut own)
    · exact leavesGiveBack (leavesThen neutralPut fun _ => leavesPure rfl)

theorem neutralLink {old new} : Neutral D (fsLink old new) := by
  refine fun own => leavesBind leavesLinkSource fun found => ?_
  cases found with
  | none => exact leavesPure rfl
  | some ip => exact leavesLinkInode

theorem quietEmptyLoop {passes : Nat} {de : List UInt8} : Neutral D (emptyLoop dp passes off de) := by
  intro own
  induction passes generalizing off de with
  | zero => exact leavesPure rfl
  | succ passes ih =>
    refine leavesThen quietInode fun x => ?_
    split
    · exact leavesPure rfl
    refine leavesThen quietInodeRead fun _ => leavesThen quietKassert fun _ => ?_
    dsimp only
    split
    · exact ih
    split
    · exact leavesPure rfl
    · exact ih

theorem quietRemovable {ip} : Neutral D (removable ip) := by
  refine fun own => leavesThen quietInode fun x => ?_
  split
  · exact leavesThen neutralMemory fun _ => quietEmptyLoop own
  · exact leavesPure rfl

theorem leavesUnlinkErrorOut : Leaves D (unlinkErrorOut dp) (lock D own dp) (fun _ => own) := leavesGiveBack (leavesPure rfl)

theorem leavesUnlinkEntry : Leaves D (unlinkEntry dp ip off) (lock D (lock D own dp) ip) (fun _ => own) := by
  rw [Caches.swap]
  have finish : Leaves D (do
      inodeUnlock dp
      inodePut dp
      editInode ip (fun x => {x with iNlink := x.iNlink - 1})
      inodeUpdate ip
      inodeUnlock ip
      inodePut ip
      pure (0 : Int)) (lock D (lock D own ip) dp) (fun _ => own) :=
    leavesGiveBack (leavesThen neutralLinks fun _ => leavesThen quietUpdate fun _ => leavesGiveBack (leavesPure rfl))
  refine leavesThen quietInodeWrite fun _ => leavesThen quietKassert fun _ => leavesThen quietInode fun x => ?_
  split
  · exact leavesThen neutralLinks fun _ => leavesThen quietUpdate fun _ => finish
  · exact finish

theorem neutralUnlink {path} : Neutral D (fsUnlink path) := by
  refine fun own => leavesThen neutralNameiparent fun found => ?_
  cases found with
  | none => exact leavesPure rfl
  | some r =>
    refine leavesBind leavesLock fun _ => ?_
    split
    · exact leavesUnlinkErrorOut
    refine leavesThen neutralDirlookup fun found => ?_
    cases found with
    | none => exact leavesUnlinkErrorOut
    | some r =>
      refine leavesBind leavesLock fun _ => leavesThen quietInode fun x => leavesThen quietKassert fun _ =>
        leavesThen quietRemovable fun empty => ?_
      split
      · exact leavesGiveBack leavesUnlinkErrorOut
      · exact leavesUnlinkEntry

theorem neutralConsoleRead {counts} : Neutral D (consoleRead counts) := by
  refine fun own => leavesLook fun k _ => ?_
  split
  · trivial
  · exact ⟨rfl,own,Caches.edits own ⟨fun _ => rfl,rfl,rfl⟩ fun _ => rfl,rfl⟩

theorem neutralFileRead {f : Fin maxFdTableSize} {n : BitVec 64} : Neutral D (fdFileRead f n) := by
  refine fun own => leavesThen neutralMemory fun k => ?_
  split
  · exact leavesPure rfl
  split
  · exact leavesAbort
  refine leavesBind leavesLock fun _ => leavesThen quietInode fun x => ?_
  split
  · refine leavesThen neutralHandle fun driver => ?_
    cases driver with
    | unregistered => exact leavesBind leavesUnlock fun _ => leavesPure rfl
    | root => exact leavesAbort
    | console =>
      exact leavesBind leavesUnlock fun _ => leavesThen neutralConsoleRead fun _ => leavesBind leavesLock fun _ =>
        leavesBind leavesUnlock fun _ => leavesPure rfl
  · refine leavesThen quietInodeRead fun _ => ?_
    dsimp only
    split
    · exact leavesThen (neutralFile fun _ => rfl) fun _ => leavesBind leavesUnlock fun _ => leavesPure rfl
    · exact leavesBind leavesUnlock fun _ => leavesPure rfl

theorem neutralFileWrite {f src} : Neutral D (fdFileWrite f src) := by
  refine fun own => leavesThen neutralMemory fun k => ?_
  split
  · exact leavesPure rfl
  split
  · exact leavesAbort
  refine leavesBind leavesLock fun _ => leavesThen quietInode fun x => ?_
  split
  · refine leavesThen neutralHandle fun driver => ?_
    cases driver with
    | unregistered => exact leavesBind leavesUnlock fun _ => leavesPure rfl
    | root => exact leavesAbort
    | console =>
      exact leavesBind leavesUnlock fun _ => leavesThen (fun _ => leavesPure rfl) fun _ => leavesBind leavesLock fun _ =>
        leavesBind leavesUnlock fun _ => leavesPure rfl
  · refine leavesThen quietInodeWrite fun _ => ?_
    split
    · exact leavesThen (neutralFile fun _ => rfl) fun _ => leavesBind leavesUnlock fun _ => leavesPure rfl
    · exact leavesBind leavesUnlock fun _ => leavesPure rfl

theorem neutralLseek {fd off whence} : Neutral D (fsLseek fd off whence) := by
  refine neutralOnFile fun f own => leavesThen neutralMemory fun k => ?_
  dsimp only
  split
  · exact leavesAbort
  · exact leavesBind leavesLock fun _ => leavesThen quietInode fun _ => leavesBind leavesUnlock fun _ =>
      leavesThen (neutralFile fun _ => rfl) fun _ => leavesPure rfl

theorem neutralFileStat {f : Fin maxFdTableSize} : Neutral D (fdFileStat f) := by
  refine fun own => leavesThen neutralMemory fun k => ?_
  split
  · exact leavesAbort
  · exact leavesBind leavesLock fun _ => leavesThen quietInode fun _ => leavesBind leavesUnlock fun _ => leavesPure rfl

def Plain : Call → Prop
  | .fsOpen _ _ | .fsDup _ | .fsClose _ => False
  | _ => True

theorem neutralPlain {c : Call} (plain : Plain c) : Neutral D c.prog := by
  intro own
  cases c with
  | fsOpen path omode | fsDup fd | fsClose fd => exact plain.elim
  | fsLink old new => exact leavesThen neutralLink fun _ => leavesPure rfl
  | fsUnlink path => exact leavesThen neutralUnlink fun _ => leavesPure rfl
  | fsRead fd counts =>
    have read : Neutral D (fsRead fd counts) := neutralOnFile fun _ _ => leavesThen neutralFileRead fun _ => leavesPure rfl
    exact leavesThen read fun _ => leavesPure rfl
  | fsWrite fd src =>
    have write : Neutral D (fsWrite fd src) := neutralOnFile fun _ _ => leavesThen neutralFileWrite fun _ => leavesPure rfl
    exact leavesThen write fun _ => leavesPure rfl
  | fsLseek fd off whence => exact leavesThen neutralLseek fun _ => leavesPure rfl
  | fsFstat fd =>
    have stat : Neutral D (fsFstat fd) := neutralOnFile fun _ _ => leavesThen neutralFileStat fun _ => leavesPure rfl
    exact leavesThen stat fun _ => leavesPure rfl

end Calls

end TskSw.Locking
