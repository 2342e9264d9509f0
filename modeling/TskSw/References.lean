import TskSw.FsCalls
import TskSw.Mkfs
import TskSw.Ownership
import Mathlib.Data.Fintype.Basic
import Mathlib.Tactic.Abel

/-! The references that inodes are counted by. A program shifts the counts by a vector
that depends on what it returns: `inode_get` adds one to the inode it returns, `inode_put`
takes one away, and everything else between them is silent. -/
namespace TskSw.References
open Bytes BlockProgram BlkIo BlkFlat FsLayout FsKernel DataBitmap DataBlocks Bmap Inodes InodeIo CString Directory FsCalls Ownership
open Interference (Neutral neutralSet neutralWrite neutralData)

variable {σ α : Type} {ip dp off : Nat} {e : Fault} {g : Inode → Inode} {dev : BitVec 64} {inum omode : BitVec 32} {path new : List UInt8}
  {fd rc : Int} {k : Kernel} {d : FileDescriptor} {p : Fs α} {s t : World σ Kernel} {a : α}

section Rules
variable {γ : Type}

structure Moves (δ : Nat → Int) (s t : World σ Kernel) : Prop where
  files : ∀ f, (t.mem.file f).fCount = (s.mem.file f).fCount ∧ (t.mem.file f).fInode = (s.mem.file f).fInode
  fds : t.mem.fds = s.mem.fds
  current : t.mem.current = s.mem.current
  refs : ∀ i, (t.mem.inode i).ref = (s.mem.inode i).ref + δ i

theorem movesNone (same : t.mem = s.mem) : Moves 0 s t := by
  rw [show t = ⟨t.disk,s.mem⟩ by rw [← same]]
  exact ⟨fun f => ⟨rfl,rfl⟩,rfl,rfl,fun i => by simp⟩

theorem movesTrans {u : World σ Kernel} {δ ε : Nat → Int} (first : Moves δ s t) (second : Moves ε t u) :
    Moves (δ + ε) s u where
  files f := ⟨(second.files f).1.trans (first.files f).1,(second.files f).2.trans (first.files f).2⟩
  fds := second.fds.trans first.fds
  current := second.current.trans first.current
  refs i := by rw [second.refs i,first.refs i,Pi.add_apply,add_assoc]

variable (L : Layer σ Nat Block Fault)

def Shifts (p : Fs α) (δ : α → Nat → Int) : Prop := ∀ s a t, run L p s = .ok (a,t) → Moves (δ a) s t

abbrev Silent (p : Fs α) : Prop := Shifts L p (fun _ => 0)

variable {L} {f : α → Fs γ} {δ : α → Nat → Int} {ε : γ → Nat → Int}

theorem shiftsPure {a} (none : δ a = 0) : Shifts L (pure a) δ := by
  intro s b t ok
  cases ok
  rw [none]
  exact movesNone rfl

theorem shiftsCongr {δ' : α → Nat → Int} (same : ∀ a, δ a = δ' a) (h : Shifts L p δ) : Shifts L p δ' := by
  intro s a t ok
  rw [← same a]
  exact h s a t ok

theorem shiftsAbort : Shifts L (abort e) δ := by
  intro s a t ok
  cases ok

theorem shiftsAbortThen : Shifts L (abort e >>= f) ε := by
  intro s a t ok
  cases ok

theorem shiftsBind (first : Shifts L p δ) (rest : ∀ a, Shifts L (f a) (fun b => ε b - δ a)) : Shifts L (p >>= f) ε := by
  intro s b u ok
  obtain ⟨a,t,hp,hf⟩ := runCut ok
  have both := movesTrans (first s a t hp) (rest a t b u hf)
  rwa [add_sub_cancel] at both

theorem shiftsThen (first : Silent L p) (rest : ∀ a, Shifts L (f a) ε) : Shifts L (p >>= f) ε := by
  refine shiftsBind first (fun a => ?_)
  simpa using rest a

theorem silentKassert {cond : Prop} [Decidable cond] : Silent L (kassert cond) := by
  unfold kassert
  split
  · exact shiftsPure rfl
  · exact shiftsAbort

theorem silentMemory : Silent L memory := by
  intro s a t ok
  cases ok
  exact movesNone rfl

theorem silentInode {ip} : Silent L (getInode ip) := shiftsThen silentMemory (fun _ => shiftsPure rfl)

theorem shiftsEdit {δ : Nat → Int} (here : ∀ x, (g x).ref = x.ref + δ ip)
    (others : ∀ i, i ≠ ip → δ i = 0) : Shifts L (editInode ip g) (fun _ => δ) := by
  intro s a t ok
  cases ok
  refine ⟨fun f => ⟨rfl,rfl⟩,rfl,rfl,fun i => ?_⟩
  by_cases same : i = ip
  · subst same
    simp [Kernel.withInode,here]
  · simp [Kernel.withInode,same,others]

theorem silentEdit (same : ∀ x, (g x).ref = x.ref) : Silent L (editInode ip g) :=
  shiftsEdit (fun x => (same x).trans (add_zero _).symm) (fun _ _ => rfl)

end Rules

section Inode
variable {L : Layer σ Nat Block Fault}

theorem silentQuiet (quiet : Neutral still p) : Silent L p := by
  intro s a t ok
  have same := quietRun quiet ok
  refine ⟨fun f => ?_,same.fds,same.current,fun i => ?_⟩
  · rw [same.file]
    exact ⟨rfl,rfl⟩
  · rw [same.ref]
    exact (add_zero _).symm

theorem silentSet {b : Nat} {d : Block} : Silent L (setBlock b d) := silentQuiet neutralSet
theorem silentWrite {b : Nat} : Silent L (writeBlock b) := silentQuiet neutralWrite
theorem silentData {b : Nat} : Silent L (blockData b) := silentQuiet neutralData
theorem silentRelease {b : Nat} : Silent L (releaseBlock b) := silentQuiet fun _ => quietRelease
theorem silentSuperblock {dev : BitVec 64} : Silent L (readSuperblock dev) := silentQuiet quietSuperblock
theorem silentFreeInode {dev : BitVec 64} : Silent L (getFreeInode dev) := silentQuiet quietFreeInode

theorem silentReadDiskInode {ino : BitVec 32} : Silent L (readDiskInode dev ino) :=
  silentQuiet fun _ => leavesReadDiskInode

theorem silentUpdate : Silent L (inodeUpdate ip) := silentQuiet quietUpdate
theorem silentTruncate : Silent L (inodeTruncate ip) := silentQuiet quietTruncate

theorem shiftsPut : Shifts L (inodePut ip) (fun _ => -Pi.single ip 1) := by
  have drop : Shifts L (editInode ip (fun x => {x with ref := x.ref - 1})) (fun _ => -Pi.single ip 1) := by
    refine shiftsEdit (fun x => ?_) (fun i other => ?_)
    · simp [sub_eq_add_neg]
    · simp [other]
  refine shiftsThen silentInode fun x => ?_
  split
  · exact shiftsThen silentKassert fun _ => shiftsThen (silentEdit fun _ => rfl) fun _ => shiftsThen silentTruncate fun _ =>
      shiftsThen silentUpdate fun _ => shiftsThen (silentEdit fun _ => rfl) fun _ => drop
  · exact drop

theorem silentLock : Silent L (inodeLock ip) := by
  refine shiftsThen silentInode fun x => shiftsThen silentKassert fun _ => ?_
  dsimp only
  split
  · exact shiftsAbortThen
  refine shiftsThen (silentEdit fun _ => rfl) fun _ => ?_
  split
  · exact shiftsThen silentSuperblock fun _ => shiftsThen silentReadDiskInode fun _ => shiftsThen silentData fun _ =>
      shiftsThen silentRelease fun _ => silentEdit fun _ => rfl
  · exact shiftsPure rfl

theorem silentUnlock : Silent L (inodeUnlock ip) :=
  shiftsThen silentInode fun _ => shiftsThen silentKassert fun _ => silentEdit fun _ => rfl

theorem shiftsInodeGet {dev inum} : Shifts L (inodeGet dev inum) (fun i => Pi.single i 1) := by
  intro s i t ok
  obtain ⟨k,v,first,ok⟩ := runCut ok
  cases first
  have raised : ∀ j (g : Inode → Inode), (g (s.mem.inode j)).ref = (s.mem.inode j).ref + 1 →
      Moves (Pi.single j 1) s ⟨s.disk,s.mem.withInode j (g (s.mem.inode j))⟩ := by
    intro j g one
    refine ⟨fun f => ⟨rfl,rfl⟩,rfl,rfl,fun l => ?_⟩
    by_cases same : l = j
    · subst same
      simp [Kernel.withInode,one]
    · simp [Kernel.withInode,same]
  split at ok
  · obtain ⟨a,v,edit,ok⟩ := runCut ok
    cases edit
    cases ok
    exact raised i (fun x => {x with ref := x.ref + 1}) rfl
  · split at ok
    · cases ok
    · rename_i j empty
      obtain ⟨a,v,edit,ok⟩ := runCut ok
      cases edit
      cases ok
      have free : (s.mem.inode i).ref = 0 := by simpa using List.find?_some empty
      exact raised i (fun x => {x with iDev := dev, inum := inum, ref := 1, busy := false, valid := false}) (by simp [free])

theorem silentInodeRead {off counts} : Silent L (inodeRead ip off counts) := silentQuiet quietInodeRead
theorem silentInodeWrite {src : List UInt8} {off : BitVec 64} : Silent L (inodeWrite ip src off) := silentQuiet quietInodeWrite

end Inode

def gain : Option Nat → Nat → Int
  | none => 0
  | some ip => Pi.single ip 1

@[simp] theorem gainNone : gain none = 0 := rfl
@[simp] theorem gainSome (ip : Nat) : gain (some ip) = Pi.single ip 1 := rfl

section Names
variable {L : Layer σ Nat Block Fault} {name : List UInt8}

theorem silentLookupLoop {passes off} : Silent L (lookupLoop dp name passes off) := silentQuiet quietLookupLoop

theorem shiftsDirlookup : Shifts L (inodeDirlookup dp name) (fun r => gain (r.map Prod.fst)) := by
  refine shiftsThen silentInode fun x => shiftsThen silentKassert fun _ => shiftsThen silentLookupLoop fun found => ?_
  cases found with
  | none => exact shiftsPure rfl
  | some hit =>
    refine shiftsThen silentInode fun x => shiftsBind shiftsInodeGet fun ip => shiftsPure ?_
    simp

theorem silentSlotLoop {passes : Nat} {de : List UInt8} : Silent L (slotLoop dp passes off de) := silentQuiet quietSlotLoop

theorem silentAddEntry : Silent L (inodeAddDirectoryEntry dp name inum) := by
  refine shiftsBind shiftsDirlookup fun found => ?_
  cases found with
  | none =>
    refine shiftsThen silentMemory fun k => shiftsThen silentSlotLoop fun _ => shiftsThen silentInodeWrite fun _ =>
      shiftsThen silentKassert fun _ => shiftsPure ?_
    simp
  | some hit =>
    refine shiftsBind shiftsPut fun _ => shiftsPure ?_
    simp

theorem shiftsUnlockPut {q : Fs α} {ε : α → Nat → Int} (rest : Shifts L q (fun a => ε a + Pi.single ip 1)) :
    Shifts L (inodeUnlock ip >>= fun _ => inodePut ip >>= fun _ => q) ε := by
  refine shiftsThen silentUnlock fun _ => shiftsBind shiftsPut fun _ => ?_
  simpa using rest

theorem shiftsWalk {parent : Bool} {room : Nat} {names : List (List UInt8)} :
    Shifts L (walk parent room ip names) (fun r => gain (r.map Prod.fst) - Pi.single ip 1) := by
  induction names generalizing ip with
  | nil =>
    unfold walk
    split
    · refine shiftsBind shiftsPut fun _ => shiftsPure ?_
      simp
    · exact shiftsPure (by simp)
  | cons name rest ih =>
    unfold walk
    split
    · exact shiftsAbort
    refine shiftsThen silentLock fun _ => shiftsThen silentInode fun x => ?_
    split
    · exact shiftsUnlockPut (shiftsPure (by simp))
    split
    · exact shiftsThen silentUnlock fun _ => shiftsPure (by simp)
    refine shiftsBind shiftsDirlookup fun found => ?_
    cases found with
    | none => exact shiftsUnlockPut (shiftsPure (by simp))
    | some hit =>
      refine shiftsUnlockPut (shiftsCongr (fun r => ?_) ih)
      simp only [Option.map_some,gainSome]
      abel

theorem shiftsPath {path parent room} :
    Shifts L (inodePath2inode path parent room) (fun r => gain (r.map Prod.fst)) :=
  shiftsThen silentKassert fun _ => shiftsBind shiftsInodeGet fun _ => shiftsWalk

theorem shiftsNamei : Shifts L (inodeNamei path) gain := by
  refine shiftsBind shiftsPath fun found => ?_
  cases found with
  | none => exact shiftsPure (by simp)
  | some hit => exact shiftsPure (by simp)

theorem shiftsAllocate {mode : BitVec 32} : Shifts L (inodeAllocate dev mode) gain := by
  refine shiftsThen silentSuperblock fun _ => shiftsThen silentFreeInode fun found => ?_
  cases found with
  | none => exact shiftsPure rfl
  | some inum =>
    refine shiftsThen silentReadDiskInode fun _ => shiftsThen silentData fun _ => shiftsThen silentSet fun _ =>
      shiftsThen silentWrite fun _ => shiftsThen silentRelease fun _ => shiftsBind shiftsInodeGet fun i => shiftsPure ?_
    simp

theorem silentAddOrPanic : Silent L (addOrPanic dp name inum) := by
  refine shiftsThen silentAddEntry fun rc => ?_
  split
  · exact shiftsAbort
  · exact shiftsPure rfl

theorem shiftsCreate {type : BitVec 32} : Shifts L (create path type dev) gain := by
  refine shiftsBind shiftsPath fun found => ?_
  cases found with
  | none => exact shiftsPure (by simp)
  | some parent =>
    obtain ⟨dp,name⟩ := parent
    refine shiftsThen silentLock fun _ => shiftsBind shiftsDirlookup fun found => ?_
    cases found with
    | some hit =>
      refine shiftsUnlockPut (shiftsThen silentLock fun _ => shiftsThen silentInode fun x => ?_)
      split
      · exact shiftsPure (by simp)
      · refine shiftsUnlockPut (shiftsPure ?_)
        simp only [Option.map_some,gainSome,gainNone]
        abel
    | none =>
      refine shiftsThen silentInode fun d => shiftsBind shiftsAllocate fun made => ?_
      cases made with
      | none => exact shiftsAbort
      | some ip =>
        refine shiftsThen silentLock fun _ => shiftsThen silentInode fun x => shiftsThen (silentEdit fun _ => rfl) fun _ =>
          shiftsThen silentUpdate fun _ => ?_
        dsimp only
        split
        · exact shiftsThen silentInode fun _ => shiftsThen (silentEdit fun _ => rfl) fun _ => shiftsThen silentUpdate fun _ =>
            shiftsThen silentAddOrPanic fun _ => shiftsThen silentAddOrPanic fun _ => shiftsThen silentAddOrPanic fun _ =>
            shiftsUnlockPut (shiftsPure (by simp))
        · exact shiftsThen silentAddOrPanic fun _ => shiftsUnlockPut (shiftsPure (by simp))

end Names

section Calls
variable {L : Layer σ Nat Block Fault}

theorem silentEditFile {f g}
    (same : ∀ d, (g d).fCount = d.fCount ∧ (g d).fInode = d.fInode) : Silent L (editFile f g) := by
  intro s a t ok
  cases ok
  refine ⟨fun e => ?_,rfl,rfl,fun i => (add_zero _).symm⟩
  by_cases here : e = f
  · subst here
    simp [Kernel.withFile,same]
  · simp [Kernel.withFile,here]

theorem silentOpenFile : Silent L (openFile fd) := by
  unfold openFile
  split
  · exact shiftsPure rfl
  refine shiftsThen silentMemory fun k => ?_
  split
  · exact shiftsPure rfl
  · exact shiftsPure rfl

theorem shiftsOpenSource : Shifts L (openSource path omode) gain := by
  unfold openSource
  split
  · exact shiftsCreate
  refine shiftsBind shiftsNamei fun found => ?_
  cases found with
  | none => exact shiftsPure (by simp)
  | some ip =>
    refine shiftsThen silentLock fun _ => shiftsThen silentInode fun x => ?_
    split
    · exact shiftsUnlockPut (shiftsPure (by simp))
    · exact shiftsPure (by simp)

theorem shiftsLinkSource {old} : Shifts L (linkSource old) gain := by
  refine shiftsBind shiftsNamei fun found => ?_
  cases found with
  | none => exact shiftsPure (by simp)
  | some ip =>
    refine shiftsThen silentLock fun _ => shiftsThen silentInode fun x => ?_
    split
    · exact shiftsUnlockPut (shiftsPure (by simp))
    · exact shiftsPure (by simp)

theorem shiftsLinkError : Shifts L (linkErrorOut ip) (fun _ => -Pi.single ip 1) :=
  shiftsThen silentLock fun _ => shiftsThen (silentEdit fun _ => rfl) fun _ => shiftsThen silentUpdate fun _ =>
    shiftsUnlockPut (shiftsPure (by simp))

theorem shiftsLinkInode :
    Shifts L (linkInode ip new) (fun _ => -Pi.single ip 1 - Pi.single ip 1) := by
  refine shiftsThen (silentEdit fun _ => rfl) fun _ => shiftsUnlockPut (shiftsBind shiftsPath fun found => ?_)
  cases found with
  | none => exact shiftsCongr (fun _ => by simp) shiftsLinkError
  | some parent =>
    obtain ⟨dp,name⟩ := parent
    refine shiftsThen silentLock fun _ => shiftsThen silentInode fun d => shiftsThen silentInode fun x => ?_
    split
    · exact shiftsUnlockPut (shiftsCongr (fun _ => by simp) shiftsLinkError)
    refine shiftsThen silentAddEntry fun rc => ?_
    split
    · exact shiftsUnlockPut (shiftsCongr (fun _ => by simp) shiftsLinkError)
    · exact shiftsUnlockPut (shiftsBind shiftsPut fun _ => shiftsPure (by simp))

theorem silentEmptyLoop {dp passes off de} : Silent L (emptyLoop dp passes off de) := by
  induction passes generalizing off de with
  | zero => exact shiftsPure rfl
  | succ passes ih =>
    refine shiftsThen silentInode fun x => ?_
    split
    · exact shiftsPure rfl
    refine shiftsThen silentInodeRead fun _ => shiftsThen silentKassert fun _ => ?_
    dsimp only
    split
    · exact ih
    split
    · exact shiftsPure rfl
    · exact ih

theorem silentRemovable {ip} : Silent L (removable ip) := by
  refine shiftsThen silentInode fun x => ?_
  split
  · exact shiftsThen silentMemory fun _ => silentEmptyLoop
  · exact shiftsPure rfl

theorem shiftsUnlinkError : Shifts L (unlinkErrorOut dp) (fun _ => -Pi.single dp 1) :=
  shiftsUnlockPut (shiftsPure (by simp))

theorem shiftsUnlinkEntry :
    Shifts L (unlinkEntry dp ip off) (fun _ => -Pi.single dp 1 - Pi.single ip 1) := by
  have rest : Shifts L (inodeUnlock dp >>= fun _ => inodePut dp >>= fun _ =>
      editInode ip (fun x => {x with iNlink := x.iNlink - 1}) >>= fun _ => inodeUpdate ip >>= fun _ =>
      inodeUnlock ip >>= fun _ => inodePut ip >>= fun _ => pure (0 : Int)) (fun _ => -Pi.single dp 1 - Pi.single ip 1) :=
    shiftsUnlockPut (shiftsThen (silentEdit fun _ => rfl) fun _ => shiftsThen silentUpdate fun _ =>
      shiftsUnlockPut (shiftsPure (by abel)))
  refine shiftsThen silentInodeWrite fun _ => shiftsThen silentKassert fun _ => shiftsThen silentInode fun x => ?_
  dsimp only
  split
  · exact shiftsThen (silentEdit fun _ => rfl) fun _ => shiftsThen silentUpdate fun _ => rest
  · exact rest

theorem silentUnlink {path} : Silent L (fsUnlink path) := by
  refine shiftsBind shiftsPath fun found => ?_
  cases found with
  | none => exact shiftsPure (by simp)
  | some parent =>
    obtain ⟨dp,name⟩ := parent
    refine shiftsThen silentLock fun _ => ?_
    split
    · exact shiftsCongr (fun _ => by simp) shiftsUnlinkError
    refine shiftsBind shiftsDirlookup fun found => ?_
    cases found with
    | none => exact shiftsCongr (fun _ => by simp) shiftsUnlinkError
    | some hit =>
      obtain ⟨ip,off⟩ := hit
      refine shiftsThen silentLock fun _ => shiftsThen silentInode fun x => shiftsThen silentKassert fun _ =>
        shiftsThen silentRemovable fun empty => ?_
      split
      · exact shiftsUnlockPut (shiftsCongr (fun _ => by simp) shiftsUnlinkError)
      · exact shiftsCongr (fun _ => by simp) shiftsUnlinkEntry

theorem silentDriver {dev} : Silent L (devswGetHandle dev) := by
  refine shiftsThen silentKassert fun _ => ?_
  split
  · exact shiftsAbort
  split
  · exact shiftsPure rfl
  split
  · exact shiftsPure rfl
  · exact shiftsPure rfl

theorem silentConsoleRead {counts : BitVec 64} : Silent L (consoleRead counts) := by
  intro s a t ok
  obtain ⟨k,v,first,ok⟩ := runCut ok
  cases first
  split at ok
  · cases ok
  · cases ok
    exact ⟨fun f => ⟨rfl,rfl⟩,rfl,rfl,fun i => by simp⟩

theorem silentFileRead {f : Fin maxFdTableSize} {n : BitVec 64} : Silent L (fdFileRead f n) := by
  refine shiftsThen silentMemory fun k => ?_
  split
  · exact shiftsPure rfl
  split
  · exact shiftsAbort
  refine shiftsThen silentLock fun _ => shiftsThen silentInode fun x => ?_
  split
  · refine shiftsThen silentDriver fun driver => ?_
    cases driver with
    | unregistered => exact shiftsThen silentUnlock fun _ => shiftsPure rfl
    | root => exact shiftsAbort
    | console =>
      exact shiftsThen silentUnlock fun _ => shiftsThen silentConsoleRead fun _ => shiftsThen silentLock fun _ =>
        shiftsThen silentUnlock fun _ => shiftsPure rfl
  refine shiftsThen silentInodeRead fun _ => ?_
  dsimp only
  split
  · exact shiftsThen (silentEditFile fun d => ⟨rfl,rfl⟩) fun _ => shiftsThen silentUnlock fun _ => shiftsPure rfl
  · exact shiftsThen silentUnlock fun _ => shiftsPure rfl

theorem silentFileWrite {f src} : Silent L (fdFileWrite f src) := by
  refine shiftsThen silentMemory fun k => ?_
  split
  · exact shiftsPure rfl
  split
  · exact shiftsAbort
  refine shiftsThen silentLock fun _ => shiftsThen silentInode fun x => ?_
  split
  · refine shiftsThen silentDriver fun driver => ?_
    cases driver with
    | unregistered => exact shiftsThen silentUnlock fun _ => shiftsPure rfl
    | root => exact shiftsAbort
    | console =>
      exact shiftsThen silentUnlock fun _ => shiftsThen (shiftsPure rfl) fun _ => shiftsThen silentLock fun _ =>
        shiftsThen silentUnlock fun _ => shiftsPure rfl
  refine shiftsThen silentInodeWrite fun _ => ?_
  split
  · exact shiftsThen (silentEditFile fun d => ⟨rfl,rfl⟩) fun _ => shiftsThen silentUnlock fun _ => shiftsPure rfl
  · exact shiftsThen silentUnlock fun _ => shiftsPure rfl

theorem silentFsRead {fd counts} : Silent L (fsRead fd counts) := by
  refine shiftsThen silentOpenFile fun found => ?_
  cases found with
  | error rc => exact shiftsPure rfl
  | ok f => exact shiftsThen silentFileRead fun _ => shiftsPure rfl

theorem silentFsWrite {src : List UInt8} : Silent L (fsWrite fd src) := by
  refine shiftsThen silentOpenFile fun found => ?_
  cases found with
  | error rc => exact shiftsPure rfl
  | ok f => exact shiftsThen silentFileWrite fun _ => shiftsPure rfl

theorem silentLseek {off : BitVec 64} {whence : Int} : Silent L (fsLseek fd off whence) := by
  refine shiftsThen silentOpenFile fun found => ?_
  cases found with
  | error rc => exact shiftsPure rfl
  | ok f =>
    refine shiftsThen silentMemory fun k => ?_
    dsimp only
    split
    · exact shiftsAbort
    · exact shiftsThen silentLock fun _ => shiftsThen silentInode fun x => shiftsThen silentUnlock fun _ =>
        shiftsThen (silentEditFile fun d => ⟨rfl,rfl⟩) fun _ => shiftsPure rfl

theorem silentFstat {fd} : Silent L (fsFstat fd) := by
  refine shiftsThen silentOpenFile fun found => ?_
  cases found with
  | error rc => exact shiftsPure rfl
  | ok f =>
    refine shiftsThen (shiftsThen silentMemory fun k => ?_) fun st => shiftsPure rfl
    split
    · exact shiftsAbort
    · exact shiftsThen silentLock fun _ => shiftsThen silentInode fun x => shiftsThen silentUnlock fun _ => shiftsPure rfl

end Calls

def opened (k : Kernel) (i : Nat) : Finset (Fin maxFdTableSize) :=
  Finset.univ.filter (fun f => 0 < (k.file f).fCount ∧ (k.file f).fInode = some i)

def RefsMatch (k : Kernel) : Prop := ∀ i, (k.inode i).ref = (opened k i).card

section Tables
variable {L : Layer σ Nat Block Fault}

theorem openedMoves {δ} (moves : Moves δ s t) (i : Nat) : opened t.mem i = opened s.mem i := by
  refine Finset.filter_congr fun f _ => ?_
  rw [(moves.files f).1,(moves.files f).2]

theorem matchMoves {δ : Nat → Int} (before : RefsMatch s.mem) (moves : Moves δ s t) : RefsMatch t.mem ↔ δ = 0 := by
  constructor
  · intro after
    funext i
    have new := after i
    rw [moves.refs i,before i,openedMoves moves i] at new
    exact add_eq_left.mp new
  · rintro rfl i
    rw [moves.refs i,before i,openedMoves moves i,Pi.zero_apply,add_zero]

def SameFile (d e : FileDescriptor) : Prop := e.fCount = d.fCount ∧ e.fInode = d.fInode

theorem withFileOthers {f e d} (other : e ≠ f) :
    SameFile (k.file e) ((k.withFile f d).file e) := by
  simp [SameFile,Kernel.withFile,other]

@[simp] theorem withFileSame {f : Fin maxFdTableSize} : (k.withFile f d).file f = d := by
  simp [Kernel.withFile]

@[simp] theorem withFileFds {f : Fin maxFdTableSize} : (k.withFile f d).fds = k.fds := rfl
@[simp] theorem withFileCurrent {k : Kernel} {f : Fin maxFdTableSize} {d : FileDescriptor} : (k.withFile f d).current = k.current := rfl
@[simp] theorem withFileInode {k : Kernel} {f : Fin maxFdTableSize} {d : FileDescriptor} : (k.withFile f d).inode = k.inode := rfl

theorem silentMatches (before : RefsMatch s.mem) (quiet : Silent L p)
    (ok : run L p s = .ok (a,t)) : RefsMatch t.mem := (matchMoves before (quiet s a t ok)).mpr rfl

theorem openedUpdate {m : Kernel} {f : Fin maxFdTableSize} (others : ∀ e, e ≠ f → SameFile (k.file e) (m.file e)) (i : Nat) :
    opened m i = if 0 < (m.file f).fCount ∧ (m.file f).fInode = some i then insert f (opened k i) else (opened k i).erase f := by
  ext e
  by_cases here : e = f
  · subst here
    by_cases used : 0 < (m.file e).fCount ∧ (m.file e).fInode = some i
    · simp [opened,used]
    · simp [opened,used]
  · have same := others e here
    by_cases used : 0 < (m.file f).fCount ∧ (m.file f).fInode = some i
    · simp [opened,used,here,same.1,same.2]
    · simp [opened,used,here,same.1,same.2]

theorem matchKeeps {f} (before : RefsMatch k)
    (used : 0 < (k.file f).fCount) (still : 0 < d.fCount) (same : d.fInode = (k.file f).fInode) : RefsMatch (k.withFile f d) := by
  intro i
  have kept : opened (k.withFile f d) i = opened k i := by
    rw [openedUpdate (fun e => withFileOthers) i,withFileSame]
    split
    · rename_i h
      exact Finset.insert_eq_self.mpr (by simp [opened,used,← same,h.2])
    · rename_i h
      refine Finset.erase_eq_self.mpr fun member => h ⟨still,?_⟩
      rw [same]
      exact (Finset.mem_filter.mp member).2.2
  rw [kept]
  exact before i

theorem dupMatches {fd rc} (before : RefsMatch s.mem) (ok : run L (fsDup fd) s = .ok (rc,t)) : RefsMatch t.mem := by
  obtain ⟨found,u,first,ok⟩ := runCut ok
  have quiet := silentOpenFile s found u first
  have before := (matchMoves before quiet).mpr rfl
  cases found with
  | error code => cases ok; exact before
  | ok f =>
    obtain ⟨slot,v,second,ok⟩ := runCut ok
    obtain ⟨k,w,get,second⟩ := runCut second
    cases get
    split at second
    · cases second
      cases ok
      exact before
    · cases second
      obtain ⟨_,w,dup,ok⟩ := runCut ok
      cases ok
      obtain ⟨k,x,get,dup⟩ := runCut dup
      cases get
      obtain ⟨_,y,assertion,dup⟩ := runCut dup
      obtain ⟨used,rfl⟩ := runKassertOk assertion
      cases dup
      have more : 0 < (u.mem.file f).fCount + 1 := by
        dsimp only at used
        omega
      refine matchKeeps ?_ used more rfl
      exact before

theorem closeMatches {f} (before : RefsMatch s.mem)
    (ok : run L (fdtableCloseFd f) s = .ok ((),t)) : RefsMatch t.mem := by
  obtain ⟨k,u,get,ok⟩ := runCut ok
  cases get
  obtain ⟨_,u,assertion,ok⟩ := runCut ok
  obtain ⟨used,rfl⟩ := runKassertOk assertion
  obtain ⟨_,v,edit,ok⟩ := runCut ok
  cases edit
  split at ok
  · rename_i last
    split at ok
    · cases ok
    · rename_i ip held
      intro i
      have moves := shiftsPut _ _ _ ok
      have gone : ¬ (0 < (u.mem.file f).fCount - 1 ∧ (u.mem.file f).fInode = some i) := fun h => last h.1
      have left : opened (u.mem.withFile f {u.mem.file f with fCount := (u.mem.file f).fCount - 1}) i = (opened u.mem i).erase f := by
        rw [openedUpdate (fun e => withFileOthers) i,withFileSame,if_neg gone]
      have old : ((u.mem.withFile f {u.mem.file f with fCount := (u.mem.file f).fCount - 1}).inode i).ref = (opened u.mem i).card :=
        before i
      rw [moves.refs i,openedMoves moves i,left,old]
      by_cases same : i = ip
      · subst same
        have member : f ∈ opened u.mem i := by simp [opened,used,held]
        have positive := Finset.card_pos.mpr ⟨f,member⟩
        rw [Finset.card_erase_of_mem member]
        simp only [Pi.neg_apply,Pi.single_eq_same]
        omega
      · have absent : f ∉ opened u.mem i := by
          intro member
          have named := (Finset.mem_filter.mp member).2.2
          rw [held] at named
          exact same (Option.some.inj named).symm
        rw [Finset.erase_eq_of_notMem absent]
        exact add_eq_left.mpr (by simp [same])
  · rename_i more
    cases ok
    exact matchKeeps before used (not_not.mp more) rfl

theorem fsCloseMatches {fd rc} (before : RefsMatch s.mem) (ok : run L (fsClose fd) s = .ok (rc,t)) : RefsMatch t.mem := by
  obtain ⟨found,u,first,ok⟩ := runCut ok
  have before := (matchMoves before (silentOpenFile s found u first)).mpr rfl
  cases found with
  | error code => cases ok; exact before
  | ok f =>
    obtain ⟨_,v,second,ok⟩ := runCut ok
    cases second
    obtain ⟨_,w,third,ok⟩ := runCut ok
    cases ok
    refine closeMatches ?_ third
    exact before

structure Full (s : World σ Kernel) : Prop where
  thread : ∀ n < thrFdsNr, (s.mem.fds s.mem.current n).isSome = true
  table : ∃ f, (s.mem.file f).fCount = 0

theorem movesPut {ip rc} (ok : run L (inodePutOut ip) s = .ok (rc,t)) : Moves (-Pi.single ip 1) s t :=
  shiftsUnlockPut (ε := fun _ => -Pi.single ip 1) (shiftsPure (by simp)) s rc t ok

theorem tableAllocCases {entry : Option (Fin maxFdTableSize)} (ok : run L fdtableAllocNewFd s = .ok (entry,t)) :
    entry = none ∧ t = s ∧ (∀ f, (s.mem.file f).fCount ≠ 0) ∨
    ∃ f, entry = some f ∧ (s.mem.file f).fCount = 0 ∧ t = ⟨s.disk,s.mem.withFile f {s.mem.file f with fCount := 1}⟩ := by
  obtain ⟨k,v,get,ok⟩ := runCut ok
  cases get
  split at ok
  · rename_i full
    cases ok
    exact Or.inl ⟨rfl,rfl,fun f => by simpa using List.find?_eq_none.mp full f (List.mem_finRange f)⟩
  · rename_i f found
    cases ok
    exact Or.inr ⟨f,rfl,by simpa using List.find?_some found,rfl⟩

theorem slotAllocCases {f slot} (ok : run L (allocNewFd f) s = .ok (slot,t)) :
    slot = none ∧ t = s ∧ (∀ n < thrFdsNr, (s.mem.fds s.mem.current n).isSome = true) ∨
    ∃ n, slot = some n ∧ n < thrFdsNr ∧ (s.mem.fds s.mem.current n).isNone = true ∧ t.mem.file = s.mem.file ∧
      t.mem.inode = s.mem.inode := by
  obtain ⟨k,v,get,ok⟩ := runCut ok
  cases get
  split at ok
  · rename_i none
    cases ok
    refine Or.inl ⟨rfl,rfl,fun n small => ?_⟩
    have taken := List.find?_eq_none.mp none n (List.mem_range.mpr small)
    simpa [Option.isSome_iff_ne_none] using taken
  · rename_i n spare
    have empty := List.find?_some spare
    cases ok
    exact Or.inr ⟨n,rfl,List.mem_range.mp (List.mem_of_find?_eq_some spare),empty,rfl,rfl⟩

theorem closeFresh {f a} (one : (s.mem.file f).fCount = 1) (ok : run L (fdtableCloseFd f) s = .ok (a,t)) :
    ∃ j, Moves (-Pi.single j 1) ⟨s.disk,s.mem.withFile f {s.mem.file f with fCount := 0}⟩ t := by
  obtain ⟨k,x,get,close⟩ := runCut ok
  cases get
  obtain ⟨_,x,assertion,close⟩ := runCut close
  obtain ⟨used,rfl⟩ := runKassertOk assertion
  obtain ⟨_,y,edit,close⟩ := runCut close
  cases edit
  have last : ¬ 0 < (x.mem.file f).fCount - 1 := by omega
  rw [if_pos last] at close
  split at close
  · cases close
  · rename_i j stale
    have moves := shiftsPut _ _ _ close
    dsimp only at moves
    rw [one] at moves
    exact ⟨j,moves⟩

theorem openInodeCases (ok : run L (openInode ip omode) s = .ok (rc,t)) :
    (∀ f, (s.mem.file f).fCount ≠ 0) ∧ Moves (-Pi.single ip 1) s t ∨
    Full s ∧ (∃ j, Moves (-Pi.single j 1 - Pi.single ip 1) s t) ∨
    ¬ Full s ∧ ∃ f, (s.mem.file f).fCount = 0 ∧ (∀ e, e ≠ f → SameFile (s.mem.file e) (t.mem.file e)) ∧
      (t.mem.file f).fCount = 1 ∧ (t.mem.file f).fInode = some ip ∧ ∀ i, (t.mem.inode i).ref = (s.mem.inode i).ref := by
  obtain ⟨entry,u,alloc,rest⟩ := runCut ok
  rcases tableAllocCases alloc with ⟨rfl,rfl,full⟩ | ⟨f,rfl,free,rfl⟩
  · exact Or.inl ⟨full,movesPut rest⟩
  obtain ⟨slot,v,second,rest'⟩ := runCut rest
  rcases slotAllocCases second with ⟨rfl,rfl,full⟩ | ⟨n,rfl,small,empty,files,inodes⟩
  · obtain ⟨_,w,close,last⟩ := runCut rest'
    obtain ⟨j,closed⟩ := closeFresh (by simp) close
    refine Or.inr (Or.inl ⟨⟨full,f,free⟩,j,?_⟩)
    have both := movesTrans closed (movesPut last)
    rw [← sub_eq_add_neg] at both
    refine ⟨fun e => ?_,both.fds,both.current,both.refs⟩
    refine (both.files e).imp (·.trans ?_) (·.trans ?_)
    all_goals
      by_cases here : e = f
      · subst here
        simp [free]
      · simp [Kernel.withFile,here]
  · obtain ⟨_,w,unlock,last⟩ := runCut rest'
    obtain ⟨_,x,edit,done⟩ := runCut last
    cases edit
    cases done
    have quiet := silentUnlock _ _ _ unlock
    refine Or.inr (Or.inr ⟨fun full => ?_,f,free,fun e other => ?_,?_,?_,fun i => ?_⟩)
    · have taken := full.thread n small
      simp_all
    · have same := quiet.files e
      rw [files] at same
      simpa [SameFile,Kernel.withFile,other] using same
    · have same := (quiet.files f).1
      rw [files] at same
      simpa using same
    · simp
    · have same := quiet.refs i
      rw [inodes] at same
      simpa using same

theorem openMatches (before : RefsMatch s.mem) (ok : run L (fsOpen path omode) s = .ok (rc,t)) :
    RefsMatch t.mem ↔ ¬ ((∃ ip u, run L (openSource path omode) s = .ok (some ip,u)) ∧ Full s) := by
  obtain ⟨found,u,first,ok⟩ := runCut ok
  have moves := shiftsOpenSource s found u first
  cases found with
  | none =>
    cases ok
    have kept := (matchMoves before moves).mpr rfl
    simp [kept,first]
  | some ip =>
    have full : Full u ↔ Full s :=
      ⟨fun h => ⟨moves.fds ▸ moves.current ▸ h.thread,h.table.imp fun f free => (moves.files f).1 ▸ free⟩,
        fun h => ⟨moves.fds ▸ moves.current ▸ h.thread,h.table.imp fun f free => (moves.files f).1.trans free⟩⟩
    have source : (∃ ip u, run L (openSource path omode) s = .ok (some ip,u)) := ⟨ip,u,first⟩
    rw [and_iff_right source,← full]
    rcases openInodeCases ok with ⟨busy,back⟩ | ⟨all,j,back⟩ | ⟨room,f,free,others,one,held,refs⟩
    · have kept := (matchMoves before (movesTrans moves back)).mpr (by simp)
      exact iff_of_true kept fun all => all.table.elim busy
    · refine iff_of_false (fun kept => ?_) (not_not.mpr all)
      have zero := (matchMoves before (movesTrans moves back)).mp kept
      have at_ := congrFun zero j
      simp at at_
    · refine iff_of_true (fun i => ?_) room
      have absent : f ∉ opened u.mem i := by simp [opened,free]
      rw [refs i,moves.refs i,before i,openedUpdate others i,← openedMoves moves i,one,held]
      by_cases same : i = ip
      · subst same
        rw [if_pos ⟨Int.one_pos,rfl⟩,Finset.card_insert_of_notMem absent,Nat.cast_succ]
        exact congrArg _ (Pi.single_eq_same i 1)
      · rw [if_neg (fun h => same (Option.some.inj h.2).symm),Finset.erase_eq_of_notMem absent]
        exact add_eq_left.mpr (by simp [gain,same])

theorem linkMatches {old : List UInt8} (before : RefsMatch s.mem) (ok : run L (fsLink old new) s = .ok (rc,t)) :
    RefsMatch t.mem ↔ ¬ ∃ ip u, run L (linkSource old) s = .ok (some ip,u) := by
  obtain ⟨found,u,first,ok⟩ := runCut ok
  have moves := shiftsLinkSource s found u first
  cases found with
  | none =>
    cases ok
    have kept := (matchMoves before moves).mpr rfl
    simp [kept,first]
  | some ip =>
    have both := movesTrans moves (shiftsLinkInode u rc t ok)
    refine iff_of_false (fun kept => ?_) (not_not.mpr ⟨ip,u,first⟩)
    have zero := congrFun ((matchMoves before both).mp kept) ip
    simp at zero

end Tables

def Spoils (w : World Store Kernel) : Call → Prop
  | .fsLink old _ => ∃ ip u, run cacheLayer (linkSource old) w = .ok (some ip,u)
  | .fsOpen path omode => (∃ ip u, run cacheLayer (openSource path omode) w = .ok (some ip,u)) ∧ Full w
  | _ => False

theorem callsConserveReferences (c : Call) (w w' : World Store Kernel) (reply : Reply) (before : RefsMatch w.mem)
    (ok : run cacheLayer c.prog w = .ok (reply,w')) : RefsMatch w'.mem ↔ ¬ Spoils w c := by
  cases c with
  | fsOpen path omode =>
    obtain ⟨rc,u,call,ok⟩ := runCut ok
    cases ok
    exact openMatches before call
  | fsLink old new =>
    obtain ⟨rc,u,call,ok⟩ := runCut ok
    cases ok
    exact linkMatches before call
  | fsDup fd =>
    obtain ⟨rc,u,call,ok⟩ := runCut ok
    cases ok
    exact iff_of_true (dupMatches before call) not_false
  | fsClose fd =>
    obtain ⟨rc,u,call,ok⟩ := runCut ok
    cases ok
    exact iff_of_true (fsCloseMatches before call) not_false
  | fsUnlink path => exact iff_of_true (silentMatches before (shiftsThen silentUnlink fun _ => shiftsPure rfl) ok) not_false
  | fsRead fd counts => exact iff_of_true (silentMatches before (shiftsThen silentFsRead fun _ => shiftsPure rfl) ok) not_false
  | fsWrite fd src => exact iff_of_true (silentMatches before (shiftsThen silentFsWrite fun _ => shiftsPure rfl) ok) not_false
  | fsLseek fd off whence => exact iff_of_true (silentMatches before (shiftsThen silentLseek fun _ => shiftsPure rfl) ok) not_false
  | fsFstat fd => exact iff_of_true (silentMatches before (shiftsThen silentFstat fun _ => shiftsPure rfl) ok) not_false

theorem bootMatch (console stack : List UInt8) : RefsMatch (bootKernel console stack) := by
  intro i
  simp [bootKernel,emptyInode,opened]

def smallWorld : World Store Kernel := ⟨smallStore,bootKernel [] []⟩

theorem smallRuns (runs : result (run diskLayer p ⟨flat smallImage 64,bootKernel [] []⟩) = some a) :
    ∃ w, run cacheLayer p smallWorld = .ok (a,w) := by
  rw [← (smallRun (by decide) _ _).1] at runs
  exact resultOk runs

theorem rootIsCounted : ∃ w, run cacheLayer (Call.fsOpen [slash] oRdonly).prog smallWorld = .ok (.code 0,w) ∧
    RefsMatch w.mem := by
  obtain ⟨u,ok⟩ := smallRuns (show result (run diskLayer (fsOpen [slash] oRdonly) _) = some 0 by decide +kernel)
  have ok : run cacheLayer (Call.fsOpen [slash] oRdonly).prog smallWorld = .ok (.code 0,u) :=
    (runBindOk cacheLayer).mpr ⟨0,u,ok,rfl⟩
  refine ⟨u,ok,(callsConserveReferences _ _ _ _ (bootMatch [] []) ok).mpr fun spoils => ?_⟩
  have taken := spoils.2.thread 0 (by decide)
  cases taken

def fileA : List UInt8 := [47,97]
def fileB : List UInt8 := [47,98]

def createThenLink : Fs (Int × Int) := do
  let fd ← fsOpen fileA oCreate
  let rc ← fsLink fileA fileB
  pure (fd,rc)

theorem linkDropsReference : ∃ w w',
    run cacheLayer (Call.fsOpen fileA oCreate).prog smallWorld = .ok (.code 0,w) ∧ RefsMatch w.mem ∧
    run cacheLayer (Call.fsLink fileA fileB).prog w = .ok (.code 0,w') ∧ ¬ RefsMatch w'.mem := by
  obtain ⟨w',both⟩ := smallRuns (show result (run diskLayer createThenLink _) = some (0,0) by decide +kernel)
  obtain ⟨fd,w,created,both⟩ := runCut both
  obtain ⟨rc,v,linked,both⟩ := runCut both
  cases both
  have counted : RefsMatch w.mem := by
    refine (openMatches (bootMatch [] []) created).mpr fun spoils => ?_
    have taken := spoils.2.thread 0 (by decide)
    cases taken
  refine ⟨w,w',(runBindOk cacheLayer).mpr ⟨0,w,created,rfl⟩,counted,(runBindOk cacheLayer).mpr ⟨0,w',linked,rfl⟩,?_⟩
  rw [linkMatches counted linked,not_not]
  obtain ⟨found,u,source,rest⟩ := runCut linked
  cases found with
  | none => cases rest
  | some ip => exact ⟨ip,u,source⟩

end TskSw.References
