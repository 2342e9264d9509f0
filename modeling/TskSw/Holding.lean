import TskSw.Locking
import Mathlib.Data.Multiset.ZeroCons

/-! Every call of the file system gives back the inodes it locks and the buffers it reads,
whatever the other threads do in the meantime. -/
namespace TskSw.Holding
open BlockProgram Interference FsKernel FsCalls Ownership Locking

structure Own where
  locked : Multiset Nat
  held : Multiset Nat

def Own.lock (own : Own) (i : Nat) : Own := {own with locked := i ::ₘ own.locked}
def Own.hold (own : Own) (b : Nat) : Own := {own with held := b ::ₘ own.held}

inductive Stores (k m : Kernel) : Own → Own → Prop where
  | keeps {own : Own} (others : ∀ j, (m.inode j).busy = (k.inode j).busy ∨
      (k.inode j).ref = 0 ∧ (m.inode j).ref = 1 ∧ (m.inode j).busy = false) : Stores k m own own
  | locks {own : Own} (i : Nat) (before : (k.inode i).busy = false) (after : (m.inode i).busy = true)
      (others : ∀ j, j ≠ i → (m.inode j).busy = (k.inode j).busy) : Stores k m own (own.lock i)
  | unlocks {own : Own} (i : Nat) (after : (m.inode i).busy = false)
      (others : ∀ j, j ≠ i → (m.inode j).busy = (k.inode j).busy) : Stores k m (own.lock i) own

def holding : Discipline Nat Kernel Own where
  store := Stores
  take b own := own.hold b
  give b own own' := own = own'.hold b
  sees _ _ := True
  whole := True

instance : Caches holding where
  keeps _ same := .keeps fun j => Or.inl (same.busy j)
  gives _ _ := rfl
  lock := Own.lock
  swap own i j := by simp only [Own.lock,Multiset.cons_swap]
  edits _ _ same := .keeps fun j => Or.inl (same j)
  recycles own i _ free taken others := .keeps fun j => by
    by_cases here : j = i
    · rw [here]
      exact Or.inr ⟨free trivial,taken⟩
    · exact Or.inl (others j here)
  locks _ i _ free after others := .locks i (free trivial) after others
  unlocks _ i _ after others := .unlocks i after others

variable {own : Own}

theorem neutralTables {g : Kernel → Kernel} (same : ∀ k, (g k).inode = k.inode) :
    Neutral holding (memory >>= fun k => setMemory (g k) : Fs Unit) :=
  fun _ => leavesChange fun k _ => .keeps fun j => Or.inl (by rw [same])

theorem neutralEditFile {f} {g : FileDescriptor → FileDescriptor} : Neutral holding (editFile f g) :=
  neutralTables fun _ => rfl

theorem neutralSetFd {fd : Nat} {f : Option (Fin maxFdTableSize)} : Neutral holding (setFd fd f) := neutralTables fun _ => rfl

theorem neutralAllocFd {f : Fin maxFdTableSize} : Neutral holding (allocNewFd f) := by
  refine fun own => leavesThen neutralMemory fun k => ?_
  split
  · exact leavesPure rfl
  · exact leavesThen neutralSetFd fun _ => leavesPure rfl

theorem neutralAllocFile : Neutral holding fdtableAllocNewFd := by
  refine fun own => leavesThen neutralMemory fun k => ?_
  split
  · exact leavesPure rfl
  · exact leavesThen neutralEditFile fun _ => leavesPure rfl

theorem neutralDuplicateFd {f} : Neutral holding (fdtableDuplicateFd f) :=
  fun own => leavesThen neutralMemory fun _ => leavesThen quietKassert fun _ => neutralEditFile own

theorem neutralCloseFd {f : Fin maxFdTableSize} : Neutral holding (fdtableCloseFd f) := by
  refine fun own => leavesThen neutralMemory fun k => leavesThen quietKassert fun _ => leavesThen neutralEditFile fun _ => ?_
  split
  · split
    · exact leavesAbort
    · exact neutralPut own
  · exact leavesPure rfl

theorem neutralDup {fd : Int} : Neutral holding (fsDup fd) := by
  refine neutralOnFile fun f own => leavesThen neutralAllocFd fun made => ?_
  cases made with
  | none => exact leavesPure rfl
  | some new => exact leavesThen neutralDuplicateFd fun _ => leavesPure rfl

theorem neutralClose {fd : Int} : Neutral holding (fsClose fd) :=
  neutralOnFile fun _ _ => leavesThen neutralSetFd fun _ => leavesThen neutralCloseFd fun _ => leavesPure rfl

theorem leavesOpenInode {ip : Nat} {omode : BitVec 32} : Leaves holding (openInode ip omode) (Caches.lock holding own ip) (fun _ => own) := by
  refine leavesThen neutralAllocFile fun made => ?_
  cases made with
  | none => exact leavesGiveBack (leavesPure rfl)
  | some f =>
    refine leavesThen neutralAllocFd fun slot => ?_
    cases slot with
    | none => exact leavesThen neutralCloseFd fun _ => leavesGiveBack (leavesPure rfl)
    | some fd => exact leavesBind leavesUnlock fun _ => leavesThen neutralEditFile fun _ => leavesPure rfl

theorem neutralOpen {path : List UInt8} {omode : BitVec 32} : Neutral holding (fsOpen path omode) := by
  refine fun own => leavesBind leavesOpenSource fun found => ?_
  cases found with
  | none => exact leavesPure rfl
  | some ip => exact leavesOpenInode

theorem neutralCall (call : Call) : Neutral holding call.prog := by
  intro own
  cases call with
  | fsOpen path omode => exact leavesThen neutralOpen fun _ => leavesPure rfl
  | fsDup fd => exact leavesThen neutralDup fun _ => leavesPure rfl
  | fsClose fd => exact leavesThen neutralClose fun _ => leavesPure rfl
  | fsLink old new | fsUnlink path | fsRead fd counts | fsWrite fd src | fsLseek fd off whence | fsFstat fd =>
    refine neutralPlain ?_ own
    trivial

theorem callsGiveBack (call : Call) (k : Kernel) (got : Bool) :
    Safe holding call.prog ⟨k,got,⟨0,0⟩⟩ (fun u _ => u.own = ⟨0,0⟩) :=
  (neutralCall call ⟨0,0⟩).safe ⟨k,got,⟨0,0⟩⟩ rfl

end TskSw.Holding
