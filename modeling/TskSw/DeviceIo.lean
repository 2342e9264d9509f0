import TskSw.Devsw
import TskSw.Transfers

/-! `fd_file_read` and `fd_file_write` of `fs/file.c` over any device table. The number of the
device comes from the disk; the driver is found, counted, called and put through the device
switch. The functions of a driver are programs of the kernel. -/
namespace TskSw.DeviceIo
open BlockProgram BlkIo FsLayout FsKernel Inodes InodeIo FsCalls Ownership Transfers
open Devsw (System Slot slotOf stateRun)
open DataBlocks (smallImage)

structure Ops where
  read : Option (Nat → Entry → BitVec 64 → BitVec 64 → Fs (Int × List UInt8))
  write : Option (Nat → Entry → List UInt8 → BitVec 64 → Fs Int)

structure Devices (τ : Type) where
  devices : System τ Ops
  called : List Slot

abbrev Io (τ : Type) := Prog Nat Block Fault (Kernel × Devices τ)

variable {τ α ρ σ : Type} {ip : Nat} {rdev : BitVec 64} {d : Slot} {k : Kernel} {f : Entry} {L : Layer σ Nat Block Fault}
  {v : World σ Kernel} {t : τ} {op : Ops → Option (Fs ρ)} {x : σ} {m : Devices τ}

section Functions
variable [DecidableEq τ]

def onSwitch (f : System τ Ops → Except Fault (α × System τ Ops)) : Io τ α := do
  let (k,m) ← memory
  match f m.devices with
  | .error e => abort e
  | .ok (a,devices) => do
      setMemory (k,{m with devices := devices})
      pure a

def devswGetHandle (t : τ) (dev : BitVec 64) : Io τ Slot := onSwitch (Devsw.devswGetHandle t dev)

def putHandle (t : τ) (dev : BitVec 64) (s : System τ Ops) : Except Fault (Unit × System τ Ops) :=
  if devswDevicesNr < dev.toNat then .error .assertion
  else
    match slotOf dev with
    | none => .error .outOfBounds
    | some d => (Devsw.devswPutHandle t d s).map fun s => ((),s)

def devswPutHandle (t : τ) (dev : BitVec 64) : Io τ Unit := onSwitch (putHandle t dev)

def entry (d : Slot) : Io τ (Devsw.Driver Ops) := do
  let (_,m) ← memory
  pure (m.devices.drv d)

def callDriver (d : Slot) (op : Ops → Option (Fs ρ)) : Io τ ρ := do
  let (k,m) ← memory
  match (m.devices.drv d).table.bind op with
  | none => abort .nullPointer
  | some p => do
      setMemory (k,{m with called := d :: m.called})
      first p

def deviceIo (t : τ) (ip : Nat) (rdev : BitVec 64) (op : Ops → Option (Fs ρ)) : Io τ (Option ρ) := do
  let d ← devswGetHandle t rdev
  let drv ← entry d
  if drv.dev = 0 then do
    first (inodeUnlock ip)
    pure none
  else do
    first (inodeUnlock ip)
    let r ← callDriver d op
    first (inodeLock ip)
    let drv ← entry d
    devswPutHandle t drv.dev
    first (inodeUnlock ip)
    pure (some r)

def readOp (ip : Nat) (f : Entry) (off n : BitVec 64) (ops : Ops) : Option (Fs (Int × List UInt8)) := ops.read.map fun read => read ip f off n
def writeOp (ip : Nat) (f : Entry) (src : List UInt8) (off : BitVec 64) (ops : Ops) : Option (Fs Int) := ops.write.map fun write => write ip f src off

def readResult (k : Kernel) : Option (Int × List UInt8) → Int × Int × List UInt8
  | none => (enodev,countOnStack k,[])
  | some (count,bytes) => (0,count,bytes)

def writeResult (k : Kernel) : Option Int → Int × Int
  | none => (enodev,countOnStack k)
  | some count => (0,count)

def fdFileRead (t : τ) (f : Entry) (n : BitVec 64) : Io τ (Int × Int × List UInt8) := do
  let (k,_) ← memory
  if (k.file f).fFlags &&& fread = 0 then pure (eperm,countOnStack k,[])
  else
    match (k.file f).fInode with
    | none => abort .assertion
    | some ip => do
        first (inodeLock ip)
        let x ← first (getInode ip)
        if x.iMode = fsImodeDev then do
          let r ← deviceIo t ip x.iRdev (readOp ip f (k.file f).fOffset n)
          pure (readResult k r)
        else first do
          let (count,bytes) ← inodeRead ip (k.file f).fOffset n
          if 0 < count then do
            advance f count
            inodeUnlock ip
            pure (0,count,bytes)
          else do
            inodeUnlock ip
            pure (asInt count,countOnStack k,bytes)

def fdFileWrite (t : τ) (f : Entry) (src : List UInt8) : Io τ (Int × Int) := do
  let (k,_) ← memory
  if (k.file f).fFlags &&& fwrite = 0 then pure (eperm,countOnStack k)
  else
    match (k.file f).fInode with
    | none => abort .nullPointer
    | some ip => do
        first (inodeLock ip)
        let x ← first (getInode ip)
        if x.iMode = fsImodeDev then do
          let r ← deviceIo t ip x.iRdev (writeOp ip f src (k.file f).fOffset)
          pure (writeResult k r)
        else first do
          let count ← inodeWrite ip src (k.file f).fOffset
          if 0 < count then do
            advance f count
            inodeUnlock ip
            pure (0,count)
          else do
            inodeUnlock ip
            pure (asInt count,countOnStack k)

end Functions

section Inodes
variable {w : World σ Kernel}

def relocked (ip : Nat) (k : Kernel) : Kernel := k.withInode ip {k.inode ip with busy := true}

theorem relockedBusy (ip : Nat) (k : Kernel) : ((relocked ip k).inode ip).busy = true := by simp [relocked,Kernel.withInode]

theorem runRelock {k} (held : Owned (k.inode ip)) (same : w.mem.inode = (unlocked ip k).inode) :
    run L (inodeLock ip) w = .ok ((),⟨w.disk,relocked ip w.mem⟩) := by
  have slot : w.mem.inode ip = {k.inode ip with busy := false} := by
    rw [same,unlocked,Kernel.withInode]
    exact Function.update_self ..
  have used : 0 < (w.mem.inode ip).ref := by rw [slot]; exact held.used
  have idle : (w.mem.inode ip).busy = false := by rw [slot]
  have valid : (w.mem.inode ip).valid = true := by rw [slot]; exact held.valid
  simp only [inodeLock,getInode,editInode,runBind,runMemory,runPure,followOk,kassert,if_pos used,idle,valid,runSetMemory,Bool.not_true,
    Bool.false_eq_true,
    if_false,relocked]

end Inodes

section Switch
variable {s : System τ Ops}

def taken (t : τ) (d : Slot) (s : System τ Ops) : System τ Ops :=
  let s' := {s with handles := (t,d) :: s.handles}
  if (s.drv d).state &&& stateRun = 0 then s' else s'.set d {s.drv d with drvCount := (s.drv d).drvCount + 1}

def outside (rdev : BitVec 64) : Fault := if devswDevicesNr < rdev.toNat then .assertion else .outOfBounds

theorem getOutside (none : slotOf rdev = none) : Devsw.devswGetHandle t rdev s = .error (outside rdev) := by
  unfold Devsw.devswGetHandle outside
  split
  · rfl
  · rw [none]

theorem slotSmall (found : slotOf rdev = some d) : ¬ devswDevicesNr < rdev.toNat := by
  unfold slotOf at found
  split at found
  · omega
  · cases found

theorem getSlot (found : slotOf rdev = some d) : Devsw.devswGetHandle t rdev s = .ok (d,taken t d s) := by
  rw [Devsw.devswGetHandle,if_neg (slotSmall found),found]
  dsimp only [taken]
  split
  · rfl
  · rfl

theorem takenIdle (idle : (s.drv d).state &&& stateRun = 0) : (taken t d s).drv = s.drv := by rw [taken,if_pos idle]

theorem takenRuns (runs : (s.drv d).state &&& stateRun ≠ 0) :
    (taken t d s).drv = Function.update s.drv d {s.drv d with drvCount := (s.drv d).drvCount + 1} := by
  rw [taken,if_neg runs]
  rfl

theorem takenEntry : ((taken t d s).drv d).dev = (s.drv d).dev ∧ ((taken t d s).drv d).table = (s.drv d).table := by
  by_cases idle : (s.drv d).state &&& stateRun = 0
  · rw [takenIdle idle]
    exact ⟨rfl,rfl⟩
  · rw [takenRuns idle,Function.update_self]
    exact ⟨rfl,rfl⟩

variable [DecidableEq τ]

theorem putTaken (found : slotOf rdev = some d) (runs : (s.drv d).state &&& stateRun ≠ 0) (positive : 0 < ((s.drv d).drvCount + 1).toInt) :
    ∃ s', putHandle t rdev (taken t d s) = .ok ((),s') ∧ s'.drv = s.drv := by
  have count : ((taken t d s).drv d).drvCount = (s.drv d).drvCount + 1 := by rw [takenRuns runs,Function.update_self]
  rw [putHandle,if_neg (slotSmall found),found]
  dsimp only
  rw [Devsw.devswPutHandle]
  dsimp only
  rw [count,if_neg (by omega)]
  refine ⟨_,rfl,?_⟩
  simp only [System.set,takenRuns runs,Function.update_self,Function.update_idem,BitVec.add_sub_cancel,Function.update_eq_self]

theorem putRefused (found : slotOf rdev = some d) (runs : (s.drv d).state &&& stateRun ≠ 0) (negative : ¬ 0 < ((s.drv d).drvCount + 1).toInt) :
    putHandle t rdev (taken t d s) = .error .assertion := by
  have count : ((taken t d s).drv d).drvCount = (s.drv d).drvCount + 1 := by rw [takenRuns runs,Function.update_self]
  rw [putHandle,if_neg (slotSmall found),found]
  dsimp only
  rw [Devsw.devswPutHandle]
  dsimp only
  rw [count,if_pos (by omega)]
  rfl

end Switch

section Runs

theorem runSwitch {α : Type} (f : System τ Ops → Except Fault (α × System τ Ops)) :
    run L (onSwitch f) ⟨x,(k,m)⟩ =
      match f m.devices with
      | .error e => .error e
      | .ok (a,devices) => .ok (a,⟨x,(k,{m with devices := devices})⟩) := by
  simp only [onSwitch,runBind,runMemory,followOk]
  cases f m.devices with
  | error e => rfl
  | ok r => rfl

theorem runFirstInode : run L (first (getInode ip)) ⟨x,(k,m)⟩ = .ok (k.inode ip,⟨x,(k,m)⟩) := rfl

theorem runFirstUnlock (held : (k.inode ip).busy = true) : run L (first (inodeUnlock ip)) ⟨x,(k,m)⟩ = .ok ((),⟨x,(unlocked ip k,m)⟩) := by
  rw [runFirst,runUnlock held]
  rfl

variable [DecidableEq τ]

theorem runDeviceOutside (none : slotOf rdev = none) : run L (deviceIo t ip rdev op) ⟨x,(k,m)⟩ = .error (outside rdev) := by
  rw [deviceIo,runBind,devswGetHandle,runSwitch,getOutside none]
  rfl

theorem runDeviceAbsent (held : Owned (k.inode ip)) (found : slotOf rdev = some d) (absent : (m.devices.drv d).dev = 0) :
    run L (deviceIo t ip rdev op) ⟨x,(k,m)⟩ = .ok (none,⟨x,(unlocked ip k,{m with devices := taken t d m.devices})⟩) := by
  rw [deviceIo,runBind,devswGetHandle,runSwitch,getSlot found]
  simp only [followOk,runBind,entry,runMemory,runPure,takenEntry.1,absent,if_true,runFirstUnlock held.busy]

theorem runDevicePresent (held : Owned (k.inode ip)) (found : slotOf rdev = some d) (present : (m.devices.drv d).dev ≠ 0) :
    run L (deviceIo t ip rdev op) ⟨x,(k,m)⟩ =
      follow (run L (callDriver d op) ⟨x,(unlocked ip k,{m with devices := taken t d m.devices})⟩) fun r u => run L (do
        first (inodeLock ip)
        let drv ← entry d
        devswPutHandle t drv.dev
        first (inodeUnlock ip)
        pure (some r)) u := by
  rw [deviceIo,runBind,devswGetHandle,runSwitch,getSlot found]
  simp only [followOk,runBind,entry,runMemory,runPure,takenEntry.1,if_neg present,runFirstUnlock held.busy]

theorem runDeviceNull (held : Owned (k.inode ip)) (found : slotOf rdev = some d) (present : (m.devices.drv d).dev ≠ 0)
    (null : (m.devices.drv d).table.bind op = none) : run L (deviceIo t ip rdev op) ⟨x,(k,m)⟩ = .error .nullPointer := by
  rw [runDevicePresent held found present]
  simp only [callDriver,runBind,runMemory,followOk,takenEntry.2,null,runAbort,followError]

theorem runDeviceFails {p e} (held : Owned (k.inode ip)) (found : slotOf rdev = some d) (present : (m.devices.drv d).dev ≠ 0)
    (pointer : (m.devices.drv d).table.bind op = some p) (fails : run L p ⟨x,unlocked ip k⟩ = .error e) :
    run L (deviceIo t ip rdev op) ⟨x,(k,m)⟩ = .error e := by
  rw [runDevicePresent held found present]
  simp only [callDriver,runBind,runMemory,followOk,takenEntry.2,pointer,runSetMemory,runFirst,fails,Except.map,followError]

theorem runDeviceCalled {p : Fs ρ} {r : ρ} {u : World σ Kernel} (held : Owned (k.inode ip)) (found : slotOf rdev = some d)
    (present : (m.devices.drv d).dev ≠ 0) (pointer : (m.devices.drv d).table.bind op = some p) (returns : run L p ⟨x,unlocked ip k⟩ = .ok (r,u))
    (same : u.mem.inode = (unlocked ip k).inode) :
    run L (deviceIo t ip rdev op) ⟨x,(k,m)⟩ =
      match putHandle t (m.devices.drv d).dev (taken t d m.devices) with
      | .error e => .error e
      | .ok (_,devices) => .ok (some r,⟨u.disk,(unlocked ip (relocked ip u.mem),⟨devices,d :: m.called⟩)⟩) := by
  have relock := runRelock (L := L) held same
  have busy := relockedBusy ip u.mem
  rw [runDevicePresent held found present]
  simp only [callDriver,runBind,runMemory,followOk,takenEntry.1,takenEntry.2,pointer,runSetMemory,runFirst,returns,relock,Except.map,beside,entry,
    runPure,
    devswPutHandle,runSwitch]
  cases putHandle t (m.devices.drv d).dev (taken t d m.devices) with
  | error e => rfl
  | ok r => simp only [followOk,runFirstUnlock busy]

end Runs

section Safety
variable {y : Except Fault (α × World σ (Kernel × Devices τ))}

def Registered (s : System τ Ops) (rdev : BitVec 64) : Prop :=
  ∃ d, slotOf rdev = some d ∧ (s.drv d).dev = rdev ∧ (s.drv d).state &&& stateRun ≠ 0

def Safe (refused : α → Prop) (rdev : BitVec 64) (m : Devices τ) (y : Except Fault (α × World σ (Kernel × Devices τ))) : Prop :=
  ∃ a u, y = .ok (a,u) ∧ (¬ Registered m.devices rdev → refused a ∧ u.mem.2.called = m.called) ∧
    ∀ d, (u.mem.2.devices.drv d).drvCount = (m.devices.drv d).drvCount

def Usable (op : Ops → Option (Fs ρ)) (s : System τ Ops) (rdev : BitVec 64) : Prop :=
  ∃ d, slotOf rdev = some d ∧
    ((s.drv d).state &&& stateRun = 0 ∧ (s.drv d).dev = 0 ∨
      (s.drv d).state &&& stateRun ≠ 0 ∧ (s.drv d).dev = rdev ∧ rdev ≠ 0 ∧ 0 < ((s.drv d).drvCount + 1).toInt ∧
        ((s.drv d).table.bind op).isSome)

def Answers (L : Layer σ Nat Block Fault) (op : Ops → Option (Fs ρ)) (s : System τ Ops) (rdev : BitVec 64) (w : World σ Kernel) : Prop :=
  ∀ d p, slotOf rdev = some d → (s.drv d).table.bind op = some p → ∃ r u, run L p w = .ok (r,u) ∧ u.mem.inode = w.mem.inode

theorem safeError {refused : α → Prop} {e} (fails : y = .error e) : ¬ Safe refused rdev m y := by
  rintro ⟨a,u,ok,_⟩
  rw [fails] at ok
  cases ok

theorem safeReturned {refused : α → Prop} {a : α} {u : World σ (Kernel × Devices τ)} (ok : y = .ok (a,u)) :
    Safe refused rdev m y ↔ (¬ Registered m.devices rdev → refused a ∧ u.mem.2.called = m.called) ∧
      ∀ d, (u.mem.2.devices.drv d).drvCount = (m.devices.drv d).drvCount := by
  constructor
  · rintro ⟨a',u',ok',safe⟩
    rw [ok] at ok'
    cases ok'
    exact safe
  · exact fun safe => ⟨a,u,ok,safe⟩

theorem safeFollow {β : Type} (refused : α → Prop) {refused' : β → Prop} {g : α → β} (same : ∀ a, refused' (g a) ↔ refused a) :
    Safe refused' rdev m (follow y fun a u => .ok (g a,u)) ↔ Safe refused rdev m y := by
  cases y with
  | error e => exact iff_of_false (safeError rfl) (safeError rfl)
  | ok r =>
    obtain ⟨a,u⟩ := r
    rw [followOk,safeReturned rfl,safeReturned rfl,same]

theorem registeredAt {d : Slot} (found : slotOf rdev = some d) :
    Registered m.devices rdev ↔ (m.devices.drv d).dev = rdev ∧ (m.devices.drv d).state &&& stateRun ≠ 0 := by
  constructor
  · rintro ⟨e,found',rest⟩
    rw [found] at found'
    cases found'
    exact rest
  · exact fun rest => ⟨d,found,rest⟩

theorem usableAt {d : Slot} (found : slotOf rdev = some d) : Usable op m.devices rdev ↔
    (m.devices.drv d).state &&& stateRun = 0 ∧ (m.devices.drv d).dev = 0 ∨
      (m.devices.drv d).state &&& stateRun ≠ 0 ∧ (m.devices.drv d).dev = rdev ∧ rdev ≠ 0 ∧ 0 < ((m.devices.drv d).drvCount + 1).toInt ∧
        ((m.devices.drv d).table.bind op).isSome := by
  constructor
  · rintro ⟨e,found',rest⟩
    rw [found] at found'
    cases found'
    exact rest
  · exact fun rest => ⟨d,found,rest⟩

variable [DecidableEq τ]

theorem absentSafe {d} (held : Owned (k.inode ip)) (found : slotOf rdev = some d) (absent : (m.devices.drv d).dev = 0) :
    Safe (· = none) rdev m (run L (deviceIo t ip rdev op) ⟨x,(k,m)⟩) ↔ (m.devices.drv d).state &&& stateRun = 0 := by
  rw [safeReturned (runDeviceAbsent held found absent)]
  constructor
  · rintro ⟨_,counts⟩
    by_contra runs
    have more := counts d
    rw [takenRuns runs,Function.update_self] at more
    simp at more
  · intro idle
    rw [takenIdle idle]
    exact ⟨fun _ => ⟨rfl,rfl⟩,fun _ => rfl⟩

theorem presentSafe {d p r u} (held : Owned (k.inode ip)) (found : slotOf rdev = some d)
    (present : (m.devices.drv d).dev ≠ 0) (pointer : (m.devices.drv d).table.bind op = some p) (returns : run L p ⟨x,unlocked ip k⟩ = .ok (r,u))
    (same : u.mem.inode = (unlocked ip k).inode) :
    Safe (· = none) rdev m (run L (deviceIo t ip rdev op) ⟨x,(k,m)⟩) ↔
      (m.devices.drv d).state &&& stateRun ≠ 0 ∧ (m.devices.drv d).dev = rdev ∧ 0 < ((m.devices.drv d).drvCount + 1).toInt := by
  have ran := runDeviceCalled (t := t) held found present pointer returns same
  by_cases registered : Registered m.devices rdev
  · obtain ⟨number,runs⟩ := (registeredAt found).mp registered
    rw [number] at ran
    by_cases positive : 0 < ((m.devices.drv d).drvCount + 1).toInt
    · obtain ⟨s',put,counts⟩ := putTaken (t := t) found runs positive
      rw [put] at ran
      rw [safeReturned ran]
      exact iff_of_true ⟨fun none => absurd registered none,fun e => by rw [counts]⟩ ⟨runs,number,positive⟩
    · rw [putRefused found runs positive] at ran
      exact iff_of_false (safeError ran) fun all => positive all.2.2
  · refine iff_of_false ?_ fun all => registered ((registeredAt found).mpr ⟨all.2.1,all.1⟩)
    rintro ⟨o,u',ok,refused,_⟩
    obtain ⟨rfl,_⟩ := refused registered
    rw [ran] at ok
    split at ok
    · cases ok
    · cases ok

theorem deviceSafe (held : Owned (k.inode ip)) (answers : Answers L op m.devices rdev ⟨x,unlocked ip k⟩) :
    Safe (· = none) rdev m (run L (deviceIo t ip rdev op) ⟨x,(k,m)⟩) ↔ Usable op m.devices rdev := by
  cases found : slotOf rdev with
  | none =>
    refine iff_of_false (safeError (runDeviceOutside found)) ?_
    rintro ⟨d,found',_⟩
    rw [found] at found'
    cases found'
  | some d =>
    rw [usableAt found]
    by_cases absent : (m.devices.drv d).dev = 0
    · rw [absentSafe held found absent]
      refine ⟨fun idle => Or.inl ⟨idle,absent⟩,?_⟩
      rintro (⟨idle,_⟩ | ⟨_,number,nonzero,_⟩)
      · exact idle
      · exact absurd (number.symm.trans absent) nonzero
    · cases pointer : (m.devices.drv d).table.bind op with
      | none =>
        refine iff_of_false (safeError (runDeviceNull held found absent pointer)) ?_
        rintro (⟨_,dev⟩ | ⟨_,_,_,_,no⟩)
        · exact absent dev
        · cases no
      | some p =>
        obtain ⟨r,u,returns,same⟩ := answers d p found pointer
        rw [presentSafe held found absent pointer returns same]
        constructor
        · rintro ⟨runs,number,positive⟩
          exact Or.inr ⟨runs,number,fun zero => absent (number.trans zero),positive,rfl⟩
        · rintro (⟨_,dev⟩ | ⟨runs,number,_,positive,_⟩)
          · exact absurd dev absent
          · exact ⟨runs,number,positive⟩

end Safety

section Files
variable [DecidableEq τ]

theorem readRefused (o : Option (Int × List UInt8)) : (readResult k o).1 = enodev ↔ o = none := by
  cases o with
  | none => exact iff_of_true rfl rfl
  | some r => exact iff_of_false (by simp [readResult,enodev]) (by simp)

theorem writeRefused (o : Option Int) : (writeResult k o).1 = enodev ↔ o = none := by
  cases o with
  | none => exact iff_of_true rfl rfl
  | some r => exact iff_of_false (by simp [writeResult,enodev]) (by simp)

theorem deviceIoExact (t : τ) (file : (k.file f).fInode = some ip) (lock : run L (inodeLock ip) ⟨x,k⟩ = .ok ((),v))
    (device : (v.mem.inode ip).iMode = fsImodeDev) :
    ((k.file f).fFlags &&& fread ≠ 0 → ∀ n, Answers L (readOp ip f (k.file f).fOffset n) m.devices (v.mem.inode ip).iRdev
      ⟨v.disk,unlocked ip v.mem⟩ →
      (Safe (fun r => r.1 = enodev) (v.mem.inode ip).iRdev m (run L (fdFileRead t f n) ⟨x,(k,m)⟩) ↔
        Usable (readOp ip f (k.file f).fOffset n) m.devices (v.mem.inode ip).iRdev)) ∧
    ((k.file f).fFlags &&& fwrite ≠ 0 → ∀ src, Answers L (writeOp ip f src (k.file f).fOffset) m.devices (v.mem.inode ip).iRdev
      ⟨v.disk,unlocked ip v.mem⟩ →
      (Safe (fun r => r.1 = enodev) (v.mem.inode ip).iRdev m (run L (fdFileWrite t f src) ⟨x,(k,m)⟩) ↔
        Usable (writeOp ip f src (k.file f).fOffset) m.devices (v.mem.inode ip).iRdev)) := by
  have held := lockOwned lock
  constructor
  · intro allowed n answers
    have ran : run L (fdFileRead t f n) ⟨x,(k,m)⟩ =
        follow (run L (deviceIo t ip (v.mem.inode ip).iRdev (readOp ip f (k.file f).fOffset n)) ⟨v.disk,(v.mem,m)⟩) fun o u =>
          .ok (readResult k o,u) := by
      simp only [fdFileRead,runBind,runMemory,followOk,if_neg allowed,file,runFirst,lock,getInode,runPure,Except.map,beside,device,if_true]
    rw [ran,safeFollow (· = none) readRefused,deviceSafe held answers]
  · intro allowed src answers
    have ran : run L (fdFileWrite t f src) ⟨x,(k,m)⟩ =
        follow (run L (deviceIo t ip (v.mem.inode ip).iRdev (writeOp ip f src (k.file f).fOffset)) ⟨v.disk,(v.mem,m)⟩) fun o u =>
          .ok (writeResult k o,u) := by
      simp only [fdFileWrite,runBind,runMemory,followOk,if_neg allowed,file,runFirst,lock,getInode,runPure,Except.map,beside,device,if_true]
    rw [ran,safeFollow (· = none) writeRefused,deviceSafe held answers]

end Files

def memide : Ops := ⟨none,none⟩
def console : Ops := ⟨some fun _ _ _ n => consoleRead n,some fun _ _ src _ => consoleWrite src⟩

section Booted

structure Serves (ops : Ops) (s : System τ Ops) (d : Slot) : Prop where
  number : (s.drv d).dev = BitVec.ofNat 64 d
  runs : (s.drv d).state &&& stateRun ≠ 0
  table : (s.drv d).table = some ops
  positive : 0 < ((s.drv d).drvCount + 1).toInt

structure Booted (s : System τ Ops) : Prop where
  root : ∀ d, d.val = rootDev → Serves memide s d
  cons : ∀ d, d.val = consDev → Serves console s d
  others : ∀ d, d.val ≠ rootDev → d.val ≠ consDev → (s.drv d).dev = 0 ∧ (s.drv d).state &&& stateRun = 0

def files (y : Except Fault (α × World σ (Kernel × Devices τ))) : Except Fault (α × World σ Kernel) :=
    y.map fun r => (r.1,⟨r.2.disk,r.2.mem.1⟩)

def bootedIo (ip : Nat) (rdev : BitVec 64) (p : Fs ρ) : Fs (Option ρ) := do
  match ← FsCalls.devswGetHandle rdev with
  | .unregistered => do
      inodeUnlock ip
      pure none
  | .root => abort .nullPointer
  | .console => do
      inodeUnlock ip
      let r ← p
      inodeLock ip
      inodeUnlock ip
      pure (some r)

theorem bootedThen (p : Fs ρ) (g : Option ρ → α) :
    (bootedIo ip rdev p >>= fun o => pure (g o)) = (do
      match ← FsCalls.devswGetHandle rdev with
      | .unregistered => do
          inodeUnlock ip
          pure (g none)
      | .root => abort .nullPointer
      | .console => do
          inodeUnlock ip
          let r ← p
          inodeLock ip
          inodeUnlock ip
          pure (g (some r))) := by
  rw [bootedIo,bindAssoc]
  congr 1
  funext driver
  cases driver with
  | unregistered => simp only [bindAssoc,pureBind]
  | root => rfl
  | console => simp only [bindAssoc,pureBind]

theorem slotValue (found : slotOf rdev = some d) : d.val = rdev.toNat := by
  unfold slotOf at found
  split at found
  · cases found
    rfl
  · cases found

theorem runHandleOutside (none : slotOf rdev = none) : run L (FsCalls.devswGetHandle rdev) ⟨x,k⟩ = .error (outside rdev) := by
  have large : ¬ rdev.toNat < 8 := by
    intro small
    simp [slotOf,small] at none
  rw [FsCalls.devswGetHandle,runBind,kassert,outside,show devswDevicesNr = 8 from rfl]
  by_cases last : rdev.toNat = 8
  · rw [last]
    rfl
  · have high : devswDevicesNr < rdev.toNat := Nat.lt_of_le_of_ne (Nat.le_of_not_lt large) (Ne.symm last)
    rw [if_neg (Nat.not_le_of_lt high),if_pos high]
    rfl

theorem runHandle (found : slotOf rdev = some d) : run L (FsCalls.devswGetHandle rdev) ⟨x,k⟩ =
    .ok (if d.val = rootDev then .root else if d.val = consDev then .console else .unregistered,⟨x,k⟩) := by
  have value := slotValue found
  have small : d.val < 8 := d.isLt
  rw [FsCalls.devswGetHandle,runBind,kassert,if_pos (by omega),runPure,followOk,if_neg (by omega),← value]
  split
  · rfl
  · split
    · rfl
    · rfl

theorem servesPresent {ops} (serves : Serves ops m.devices d) (nonzero : d.val ≠ 0) : (m.devices.drv d).dev ≠ 0 := by
  rw [serves.number]
  intro zero
  have value := congrArg BitVec.toNat zero
  have small : d.val < 8 := d.isLt
  rw [BitVec.toNat_ofNat,Nat.mod_eq_of_lt (by omega)] at value
  exact nonzero value

theorem filesFollow {y : Except Fault (α × World σ (Kernel × Devices τ))} {g : α → ρ} :
    files (follow y fun a u => .ok (g a,u)) = follow (files y) fun a u => .ok (g a,u) := by
  cases y with
  | error e => rfl
  | ok r => rfl

theorem filesFirst {p : Fs α} : files (run L (first p : Io τ α) ⟨x,(k,m)⟩) = run L p ⟨x,k⟩ := by
  rw [runFirst]
  cases run L p ⟨x,k⟩ with
  | error e => rfl
  | ok r => rfl

theorem consoleStill {n : BitVec 64} {w u : World σ Kernel} {r : Int × List UInt8} (ok : run L (consoleRead n) w = .ok (r,u)) :
    u.mem.inode = w.mem.inode := by
  simp only [consoleRead,runBind,runMemory,followOk] at ok
  split at ok
  · cases ok
  · cases ok
    rfl

theorem bootedLocked {p : Inode → Io τ α} {q : Inode → Fs α}
    (same : ∀ v : World σ Kernel, Owned (v.mem.inode ip) →
      files (run L (p (v.mem.inode ip)) ⟨v.disk,(v.mem,m)⟩) = run L (q (v.mem.inode ip)) v) :
    files (run L (first (inodeLock ip) >>= fun _ => first (getInode ip) >>= p) ⟨x,(k,m)⟩) = run L (inodeLock ip >>= fun _ => getInode ip >>= q)
      ⟨x,k⟩ := by
  rw [runBind,runBind,runFirst]
  cases lock : run L (inodeLock ip) ⟨x,k⟩ with
  | error e => rfl
  | ok r =>
    simp only [Except.map,beside,followOk,runBind,runFirstInode]
    exact same r.2 (lockOwned lock)

variable [DecidableEq τ]

theorem bootedDevice {op : Ops → Option (Fs ρ)} {p} (booted : Booted m.devices) (held : Owned (k.inode ip)) (root : op memide = none)
    (cons : op console = some p) (still : ∀ r u, run L p ⟨x,unlocked ip k⟩ = .ok (r,u) → u.mem.inode = (unlocked ip k).inode) :
    files (run L (deviceIo t ip rdev op) ⟨x,(k,m)⟩) = run L (bootedIo ip rdev p) ⟨x,k⟩ := by
  unfold bootedIo
  cases found : slotOf rdev with
  | none =>
    rw [runDeviceOutside found,runBind,runHandleOutside found]
    rfl
  | some d =>
    have value := slotValue found
    rw [runBind,runHandle found]
    by_cases first : d.val = rootDev
    · have serves := booted.root d first
      have null : (m.devices.drv d).table.bind op = none := by rw [serves.table]; exact root
      rw [runDeviceNull held found (servesPresent serves (by rw [first]; decide)) null,if_pos first]
      rfl
    rw [if_neg first]
    by_cases second : d.val = consDev
    · have serves := booted.cons d second
      have pointer : (m.devices.drv d).table.bind op = some p := by rw [serves.table]; exact cons
      have present := servesPresent serves (by rw [second]; decide)
      rw [if_pos second]
      simp only [followOk,runBind,runUnlock (w := ⟨x,k⟩) held.busy]
      cases ran : run L p ⟨x,unlocked ip k⟩ with
      | error e =>
        rw [runDeviceFails held found present pointer ran]
        rfl
      | ok r =>
        obtain ⟨r,u⟩ := r
        have same := still r u ran
        have number : (m.devices.drv d).dev = rdev := by
          rw [serves.number,value,BitVec.ofNat_toNat,BitVec.setWidth_eq]
        obtain ⟨s',put,_⟩ := putTaken (t := t) found serves.runs serves.positive
        rw [runDeviceCalled held found present pointer ran same,number,put]
        simp only [followOk,runRelock held same,runUnlock (w := ⟨u.disk,relocked ip u.mem⟩) (relockedBusy ip u.mem),runPure]
        rfl
    · rw [if_neg second,runDeviceAbsent held found (booted.others d first second).1]
      simp only [followOk,runBind,runUnlock (w := ⟨x,k⟩) held.busy,runPure]
      rfl

theorem bootedRead (booted : Booted m.devices) (n : BitVec 64) :
    files (run L (fdFileRead t f n) ⟨x,(k,m)⟩) = run L (FsCalls.fdFileRead f n) ⟨x,k⟩ := by
  by_cases denied : (k.file f).fFlags &&& fread = 0
  · simp only [fdFileRead,FsCalls.fdFileRead,runBind,runMemory,followOk,if_pos denied,runPure]
    rfl
  cases file : (k.file f).fInode with
  | none =>
    simp only [fdFileRead,FsCalls.fdFileRead,runBind,runMemory,followOk,if_neg denied,file,runAbort]
    rfl
  | some ip =>
    rw [fdFileRead,FsCalls.fdFileRead,runBind,runBind,runMemory,runMemory,followOk,followOk]
    dsimp only
    rw [if_neg denied,if_neg denied,file]
    refine bootedLocked fun v held => ?_
    split
    · have device : files (run L (deviceIo t ip (v.mem.inode ip).iRdev (readOp ip f (k.file f).fOffset n)) ⟨v.disk,(v.mem,m)⟩) =
          run L (bootedIo ip (v.mem.inode ip).iRdev (consoleRead n)) v := bootedDevice booted held rfl rfl fun r u ran => consoleStill ran
      refine Eq.trans ?_ (congrArg (fun p => run L p v) (bootedThen (consoleRead n) (readResult k)))
      rw [runBind,runBind,← device]
      exact filesFollow
    · exact filesFirst

theorem bootedWrite (booted : Booted m.devices) (src : List UInt8) :
    files (run L (fdFileWrite t f src) ⟨x,(k,m)⟩) = run L (FsCalls.fdFileWrite f src) ⟨x,k⟩ := by
  by_cases denied : (k.file f).fFlags &&& fwrite = 0
  · simp only [fdFileWrite,FsCalls.fdFileWrite,runBind,runMemory,followOk,if_pos denied,runPure]
    rfl
  cases file : (k.file f).fInode with
  | none =>
    simp only [fdFileWrite,FsCalls.fdFileWrite,runBind,runMemory,followOk,if_neg denied,file,runAbort]
    rfl
  | some ip =>
    rw [fdFileWrite,FsCalls.fdFileWrite,runBind,runBind,runMemory,runMemory,followOk,followOk]
    dsimp only
    rw [if_neg denied,if_neg denied,file]
    refine bootedLocked fun v held => ?_
    split
    · have device : files (run L (deviceIo t ip (v.mem.inode ip).iRdev (writeOp ip f src (k.file f).fOffset)) ⟨v.disk,(v.mem,m)⟩) =
          run L (bootedIo ip (v.mem.inode ip).iRdev (consoleWrite src)) v := bootedDevice booted held rfl rfl fun r u ran => by cases ran; rfl
      refine Eq.trans ?_ (congrArg (fun p => run L p v) (bootedThen (consoleWrite src) (writeResult k)))
      rw [runBind,runBind,← device]
      exact filesFollow
    · exact filesFirst

end Booted

def opened : Entry := ⟨0,Nat.zero_lt_succ _⟩

def deviceFile (rdev : BitVec 64) : Kernel :=
  ((bootKernel [104,105] []).withFile opened ⟨fread ||| fwrite,1,some 0,0⟩).withInode 0 ⟨3,1,false,true,fsImodeDev,1,rdev,1,0,fun _ => 0⟩

def bootDevices : Devices Nat :=
  ⟨(Devsw.registerDeviceDriver (BitVec.ofNat 64 consDev) console (Devsw.registerDeviceDriver (BitVec.ofNat 64 rootDev) memide Devsw.start).2).2,
    []⟩

theorem bootBooted : Booted bootDevices.devices where
  root := fun d value => by
    cases (Fin.ext value : d = 1)
    exact ⟨rfl,by decide,rfl,by decide⟩
  cons := fun d value => by
    cases (Fin.ext value : d = 2)
    exact ⟨rfl,by decide,rfl,by decide⟩
  others := by decide

theorem consoleReads : Safe (fun r => r.1 = enodev) 2 bootDevices
    (run cacheLayer (fdFileRead 0 opened 2) ⟨boot smallImage 64,(deviceFile 2,bootDevices)⟩) := by
  have answers : Answers cacheLayer (readOp 0 opened 0 2) bootDevices.devices 2
      ⟨boot smallImage 64,unlocked 0 (relocked 0 (deviceFile 2))⟩ := by
    intro d p found pointer
    cases found
    cases pointer
    exact ⟨_,_,rfl,rfl⟩
  have usable : Usable (readOp 0 opened 0 2) bootDevices.devices 2 := ⟨2,rfl,Or.inr ⟨by decide,by decide,by decide,by decide,rfl⟩⟩
  have lock : run cacheLayer (inodeLock 0) ⟨boot smallImage 64,deviceFile 2⟩ = .ok ((),⟨boot smallImage 64,relocked 0 (deviceFile 2)⟩) := rfl
  have file : ((deviceFile 2).file opened).fInode = some 0 := rfl
  exact ((deviceIoExact 0 file lock rfl).1 (by decide) 2 answers).mpr usable

theorem deviceTableUnseen {σ τ : Type} [DecidableEq τ] {L : Layer σ Nat Block Fault} {m : Devices τ} (booted : Booted m.devices) (t : τ)
    (f : Entry)
    (x : σ) (k : Kernel) :
    (∀ n, files (run L (fdFileRead t f n) ⟨x,(k,m)⟩) = run L (FsCalls.fdFileRead f n) ⟨x,k⟩) ∧
      ∀ src, files (run L (fdFileWrite t f src) ⟨x,(k,m)⟩) = run L (FsCalls.fdFileWrite f src) ⟨x,k⟩ :=
  ⟨bootedRead booted,bootedWrite booted⟩

theorem consoleTableUnseen : files (run cacheLayer (fdFileRead 0 opened 2) ⟨boot smallImage 64,(deviceFile 2,bootDevices)⟩) =
    run cacheLayer (FsCalls.fdFileRead opened 2) ⟨boot smallImage 64,deviceFile 2⟩ :=
  (deviceTableUnseen bootBooted 0 opened (boot smallImage 64) (deviceFile 2)).1 2

def leavingDevices : Devices Nat := ⟨(Devsw.unregisterDeviceDriver 1 2 bootDevices.devices).2,[]⟩

theorem devicesUnsafe :
    fault (run cacheLayer (fdFileRead 0 opened 2) ⟨boot smallImage 64,(deviceFile 8,bootDevices)⟩) = some .outOfBounds ∧
    fault (run cacheLayer (fdFileRead 0 opened 2) ⟨boot smallImage 64,(deviceFile 9,bootDevices)⟩) = some .assertion ∧
    fault (run cacheLayer (fdFileWrite 0 opened [7]) ⟨boot smallImage 64,(deviceFile 1,bootDevices)⟩) = some .nullPointer ∧
    (run cacheLayer (fdFileRead 0 opened 2) ⟨boot smallImage 64,(deviceFile 2,leavingDevices)⟩).toOption.map
      (fun r => (r.1.1,r.2.mem.2.called,(leavingDevices.devices.drv 2).state,(leavingDevices.devices.drv 2).drvCount,
        (r.2.mem.2.devices.drv 2).drvCount)) =
        some (0,[2],Devsw.stateUnreg,1,0) := by
  refine ⟨by decide +kernel,by decide +kernel,by decide +kernel,by decide +kernel⟩

end TskSw.DeviceIo
