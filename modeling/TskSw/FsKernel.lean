import TskSw.BlkRecycle
import TskSw.FsLayout

/-! What the file system keeps in memory, and how its programs run over the plain disk.
A block that is read and released again is left as it was; one that is written on the
way is replaced and stays dirty. -/
namespace TskSw.FsKernel
open Bytes BlockProgram BlkIo BlkFlat BlkRecycle FsLayout

structure Inode where
  inum : BitVec 32
  ref : Int
  busy : Bool
  valid : Bool
  iMode : BitVec 32
  iDev : BitVec 64
  iRdev : BitVec 64
  iNlink : BitVec 64
  iSize : BitVec 64
  iAddr : Addrs

def Inode.withAddr (x : Inode) (k : Fin fsIaddrNr) (b : Nat) : Inode :=
  {x with iAddr := Function.update x.iAddr k (BitVec.ofNat 64 b)}

def Inode.load (x : Inode) (d : DInode) : Inode :=
  {x with iMode := d.iMode, iRdev := d.iRdev, iNlink := d.iNlink, iSize := d.iSize, iAddr := d.iAddr, valid := true}

def maxFdTableSize : Nat := 1024

structure FileDescriptor where
  fFlags : BitVec 32
  fCount : Int
  fInode : Option Nat
  fOffset : BitVec 64

structure Kernel where
  inode : Nat → Inode
  file : Fin maxFdTableSize → FileDescriptor
  fds : Nat → Nat → Option (Fin maxFdTableSize)
  current : Nat
  console : List UInt8
  stack : List UInt8
  -- The blocks passed to `release_data_block`, last one first.
  released : List Nat

def Kernel.withInode (k : Kernel) (ip : Nat) (x : Inode) : Kernel := {k with inode := Function.update k.inode ip x}

def Kernel.withFile (k : Kernel) (f : Fin maxFdTableSize) (d : FileDescriptor) : Kernel :=
  {k with file := Function.update k.file f d}

def emptyInode : Inode := ⟨0,0,false,false,0,0,0,0,0,fun _ => 0⟩

def bootKernel (console stack : List UInt8) : Kernel :=
  ⟨fun _ => emptyInode,fun _ => ⟨0,0,none,0⟩,fun _ _ => none,0,console,stack,[]⟩

def fault {α : Type} : Except Fault α → Option Fault
  | .ok _ => none
  | .error e => some e

def result {α σ : Type} : Except Fault (α × σ) → Option α
  | .ok (a,_) => some a
  | .error _ => none

variable {t : Disk} {k : Kernel} {α σ : Type} {image : Nat → Block} {blocks : Nat}

theorem resultOk {x : Except Fault (α × σ)} {a : α} (h : result x = some a) : ∃ s, x = .ok (a,s) := by
  cases x with
  | error e => cases h
  | ok r =>
    obtain ⟨b,t⟩ := r
    cases h
    exact ⟨t,rfl⟩

abbrev Fs := Prog Nat Block Fault Kernel

def getInode (ip : Nat) : Fs Inode := do
  let k ← memory
  pure (k.inode ip)

def editInode (ip : Nat) (f : Inode → Inode) : Fs Unit := do
  let k ← memory
  setMemory (k.withInode ip (f (k.inode ip)))

def kassert (cond : Prop) [Decidable cond] : Fs Unit := if cond then pure () else abort .assertion

def bread (dev : BitVec 64) (blockno : Nat) : Fs Unit :=
  if dev.toNat = rootDev then readBlock blockno else abort .noDevice

abbrev State := World Disk Kernel

section Disk
variable {n : Nat}

structure Idle (t : Disk) (n : Nat) : Prop where
  free : t.held n = none
  inside : n < t.size

theorem dropHeld (free : t.held n = none) : (t.edit n (t.view n)).drop n (t.view n) = t := by
  obtain ⟨view,dirty,held,size⟩ := t
  have same : Function.update (Function.update held n (some (view n))) n none = held := by
    rw [Function.update_idem]
    exact Function.update_eq_self_iff.mpr free.symm
  simp [Disk.drop,Disk.edit,same]

theorem storeView (d : Block) : (t.store n d).view n = d := by simp [Disk.store]

theorem idleStore {m} (idle : Idle t n) (d : Block) : Idle (t.store m d) n := ⟨idle.free,idle.inside⟩

theorem runRead (idle : Idle t n) :
    run diskLayer (readBlock n) ⟨t,k⟩ = .ok ((),⟨t.edit n (t.view n),k⟩) := by
  have outside : ¬ t.size ≤ n := by
    have := idle.inside
    omega
  simp [runReadBlock,diskLayer,idle.free,outside,Disk.take,Disk.edit]

theorem runReadOk {s u : State} {a : Unit} (ok : run diskLayer (readBlock n) s = .ok (a,u)) :
    Idle s.disk n ∧ u = ⟨s.disk.edit n (s.disk.view n),s.mem⟩ := by
  simp only [runReadBlock,diskLayer] at ok
  cases held : s.disk.held n with
  | some d => simp [held] at ok
  | none =>
    by_cases outside : s.disk.size ≤ n
    · simp [held,outside] at ok
    · simp only [held,outside,if_false,onDiskOk,Except.ok.injEq,Prod.mk.injEq] at ok
      exact ⟨⟨held,by omega⟩,ok.2.symm⟩

@[simp] theorem runData (d : Block) :
    run diskLayer (blockData n) ⟨t.edit n d,k⟩ = .ok (d,⟨t.edit n d,k⟩) := by
  simp [runBlockData,diskLayer,Disk.edit]

@[simp] theorem runSet (d e : Block) :
    run diskLayer (setBlock n e) ⟨t.edit n d,k⟩ = .ok ((),⟨t.edit n e,k⟩) := by
  simp [runSetBlock,diskLayer,Disk.edit]

@[simp] theorem runWrite (d : Block) :
    run diskLayer (writeBlock n) ⟨t.edit n d,k⟩ = .ok ((),⟨(t.store n d).edit n d,k⟩) := by
  simp [runWriteBlock,diskLayer,Disk.edit,Disk.store]

theorem runRelease (free : t.held n = none) (d : Block) (same : d = t.view n) :
    run diskLayer (releaseBlock n) ⟨t.edit n d,k⟩ = .ok ((),⟨t,k⟩) := by
  subst same
  have mine : (t.edit n (t.view n)).held n = some (t.view n) := by simp [Disk.edit]
  simp [runReleaseBlock,diskLayer,mine,dropHeld free]

theorem runBread {dev} (root : dev.toNat = rootDev) (idle : Idle t n) :
    run diskLayer (bread dev n) ⟨t,k⟩ = .ok ((),⟨t.edit n (t.view n),k⟩) := by
  rw [bread,if_pos root,runRead idle]

theorem runBreadOk {dev : BitVec 64} {s u : State} {a : Unit} (ok : run diskLayer (bread dev n) s = .ok (a,u)) :
    dev.toNat = rootDev ∧ Idle s.disk n ∧ u = ⟨s.disk.edit n (s.disk.view n),s.mem⟩ := by
  unfold bread at ok
  split at ok
  · exact ⟨by assumption,runReadOk ok⟩
  · cases ok

theorem runKassertOk {L : Layer σ Nat Block Fault} {cond : Prop} [Decidable cond] {s u : World σ Kernel} {a : Unit}
    (ok : run L (kassert cond) s = .ok (a,u)) : cond ∧ u = s := by
  unfold kassert at ok
  split at ok
  · cases ok
    exact ⟨by assumption,rfl⟩
  · cases ok

def leave (t : Disk) (n : Nat) (d : Block) : Disk :=
  {t with view := if t.dirty n then Function.update t.view n d else t.view}

theorem runLeave (free : t.held n = none) (d : Block) :
    run diskLayer (releaseBlock n) ⟨t.edit n d,k⟩ = .ok ((),⟨leave t n d,k⟩) := by
  obtain ⟨view,dirty,held,size⟩ := t
  have same : Function.update (Function.update held n (some d)) n none = held := by
    rw [Function.update_idem]
    exact Function.update_eq_self_iff.mpr free.symm
  simp [runReleaseBlock,diskLayer,Disk.edit,Disk.drop,leave,same]

theorem leaveView {m} (apart : m ≠ n) (d : Block) : (leave t n d).view m = t.view m := by
  unfold leave
  cases t.dirty n <;> simp [apart]

end Disk

section Cache
variable {s : Store} {p : Fs α} {a : α}

theorem fromCache {w : World Store Kernel} (h : Matches s t) (ok : run cacheLayer p ⟨s,k⟩ = .ok (a,w)) :
    ∃ t', run diskLayer p ⟨t,k⟩ = .ok (a,⟨t',w.mem⟩) ∧ Matches w.disk t' := by
  rcases runSimulates cacheSimulates p k h with ⟨e,fault,_⟩ | ⟨e,fault,_⟩ | ⟨b,s',t',m,left,right,after⟩
  · rw [ok] at fault; cases fault
  · rw [ok] at fault; cases fault
  · rw [ok] at left
    cases left
    exact ⟨t',right,after⟩

theorem toCache {u : State} (h : Matches s t) (ok : run diskLayer p ⟨t,k⟩ = .ok (a,u)) :
    run cacheLayer p ⟨s,k⟩ = .error .noBuffers ∨
      ∃ s', run cacheLayer p ⟨s,k⟩ = .ok (a,⟨s',u.mem⟩) ∧ Matches s' u.disk := by
  rcases runSimulates cacheSimulates p k h with ⟨e,fault,rfl⟩ | ⟨e,_,fault⟩ | ⟨b,s',t',m,left,right,after⟩
  · exact Or.inl fault
  · rw [ok] at fault; cases fault
  · rw [ok] at right
    cases right
    exact Or.inr ⟨s',left,after⟩

theorem toCacheError {e : Fault} (h : Matches s t) (fault : run diskLayer p ⟨t,k⟩ = .error e) :
    run cacheLayer p ⟨s,k⟩ = .error .noBuffers ∨ run cacheLayer p ⟨s,k⟩ = .error e := by
  rcases runSimulates cacheSimulates p k h with ⟨e',stuck,rfl⟩ | ⟨e',left,right⟩ | ⟨b,s',t',m,left,right,after⟩
  · exact Or.inl stuck
  · rw [fault] at right
    cases right
    exact Or.inr left
  · rw [fault] at right; cases right

theorem smallRun (fewer : blocks < nbuf) (p : Fs α) (k : Kernel) :
    result (run cacheLayer p ⟨boot image blocks,k⟩) = result (run diskLayer p ⟨flat image blocks,k⟩) ∧
      fault (run cacheLayer p ⟨boot image blocks,k⟩) = fault (run diskLayer p ⟨flat image blocks,k⟩) := by
  have roomy := bootRoomy (S := Finset.range blocks) (by rw [Finset.card_range]; exact fewer) image blocks
  rcases runSimulates roomySimulates p k ⟨⟨bootMatches image blocks,roomy⟩,rfl⟩ with
    ⟨_,_,never⟩ | ⟨e,left,right⟩ | ⟨a,s',t',m,left,right,_⟩
  · exact never.elim
  · simp [left,right,result,fault]
  · simp [left,right,result,fault]

theorem bootRun {S : Finset Nat} {u : State} (fewer : S.card < nbuf)
    (within : Within diskLayer (· ∈ S) p ⟨flat image blocks,k⟩) (ok : run diskLayer p ⟨flat image blocks,k⟩ = .ok (a,u)) :
    ∃ s', run cacheLayer p ⟨boot image blocks,k⟩ = .ok (a,⟨s',u.mem⟩) ∧ Matches s' u.disk := by
  rcases roomyRuns p k (bootMatches image blocks) (bootRoomy fewer image blocks) within with ⟨_,_,never⟩ | ⟨e,_,right⟩ |
    ⟨b,s',t',m,left,right,after⟩
  · exact never.elim
  · rw [ok] at right
    cases right
  · rw [ok] at right
    cases right
    exact ⟨s',left,after.1⟩

theorem smallReady (fewer : blocks < nbuf) {p : Fs α}
    (runs : fault (run diskLayer p ⟨flat image blocks,k⟩) = none) : run cacheLayer p ⟨boot image blocks,k⟩ ≠ .error .noBuffers := by
  intro stuck
  rw [← (smallRun fewer p k).2,stuck] at runs
  cases runs

end Cache
end TskSw.FsKernel
