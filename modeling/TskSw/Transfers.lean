import TskSw.FileSizes
import TskSw.FsTree
import TskSw.Ownership
import TskSw.FsCalls

/-! What `fs_read` and `fs_write` report of a transfer. The return code and the count go
through `fd_file_read` and `fd_file_write`, which set the count only after a transfer of at
least one byte. -/
namespace TskSw.Transfers
open Bytes BlockProgram BlkIo BlkFlat FsLayout FsKernel DataBitmap DataBlocks Bmap FreshBlocks Inodes InodeIo FileBytes FileSizes FsTree
  FsCalls Ownership

abbrev Entry := Fin maxFdTableSize

structure Call where
  access : BitVec 32
  inside : BitVec 64 → BitVec 64 → Prop
  amount : BitVec 64 → BitVec 64 → Nat

def reading (counts : BitVec 64) : Call :=
  ⟨fread,fun size off => off.toNat ≤ size.toNat ∧ off.toNat + counts.toNat < 2^64,fun size off => min counts.toNat (size.toNat - off.toNat)⟩

def writing (length : Nat) : Call :=
  ⟨fwrite,fun size off => off.toNat ≤ size.toNat ∧ off.toNat + length ≤ fsMaxfileSize,fun _ _ => length⟩

def Opened (k : Kernel) (fd : Int) (f : Entry) : Prop := 0 ≤ fd ∧ fd < thrFdsNr ∧ k.fds k.current fd.toNat = some f

def during (view : Nat → Block) (k : Kernel) (ip : Nat) : Kernel := k.withInode ip (locked view (k.inode ip))
def unlocked (ip : Nat) (m : Kernel) : Kernel := m.withInode ip {m.inode ip with busy := false}
def advanced (f : Entry) (count : Int) (m : Kernel) : Kernel :=
  m.withFile f {m.file f with fOffset := (m.file f).fOffset + BitVec.ofInt 64 count}

def told (k : Kernel) (count : Int) : Int := if 0 < count then asInt count else if asInt count = 0 then asInt (countOnStack k) else asInt count
def finished (f : Entry) (ip : Nat) (count : Int) (m : Kernel) : Kernel := unlocked ip (if 0 < count then advanced f count m else m)

def size (view : Nat → Block) (k : Kernel) (ip : Nat) : BitVec 64 := (locked view (k.inode ip)).iSize

structure Permitted (c : Call) (view : Nat → Block) (k : Kernel) (fd : Int) (f : Entry) (ip : Nat) : Prop where
  opened : Opened k fd f
  file : (k.file f).fInode = some ip
  allowed : (k.file f).fFlags &&& c.access ≠ 0
  inside : c.inside (size view k ip) (k.file f).fOffset

structure Untouched (view : Nat → Block) (k : Kernel) (view' : Nat → Block) (m : Kernel) : Prop where
  files : m.file = k.file
  blocks : view' = view
  inodes : ∀ i, locked view' (m.inode i) = locked view (k.inode i)

abbrev Moves := Nat → BitVec 64 → Nat → List UInt8 → (Nat → Block) → Prop

def readMoves (t : Disk) (k : Kernel) (counts : BitVec 64) : Moves := fun ip off n bytes view' =>
  bytes.length = n ∧ ∃ u, run diskLayer (inodeRead ip off counts) ⟨t,during t.view k ip⟩ = .ok (((BitVec.ofNat 64 n).toInt,bytes),u) ∧
    view' = u.disk.view

def writeMoves (t : Disk) (k : Kernel) (src : List UInt8) : Moves := fun ip off n bytes view' =>
  bytes = [] ∧ n = src.length ∧ ∃ u, run diskLayer (inodeWrite ip src off) ⟨t,during t.view k ip⟩ = .ok ((n : Int),u) ∧
    view' = u.disk.view

structure Reported (c : Call) (moves : Moves) (view : Nat → Block) (k : Kernel) (fd v : Int) (bytes : List UInt8) (view' : Nat → Block)
    (m : Kernel) :
    Prop where
  sign : 0 ≤ v ↔ ∃ f ip, Permitted c view k fd f ip
  performed : ∀ f ip, Permitted c view k fd f ip → v = c.amount (size view k ip) (k.file f).fOffset ∧
    moves ip (k.file f).fOffset (c.amount (size view k ip) (k.file f).fOffset) bytes view' ∧
    m.file = Function.update k.file f {k.file f with fOffset := (k.file f).fOffset + BitVec.ofNat 64 (c.amount (size view k ip) (k.file f).fOffset)}
  refused : (∀ f ip, ¬ Permitted c view k fd f ip) → bytes = [] ∧ Untouched view k view' m

def Storable (ip last : Nat) (u : State) : Prop := (u.mem.inode ip).iSize.toNat < last →
  Idle u.disk superBlockBlkNo ∧ Idle u.disk (inodeBlock (superOf u.disk.view) (u.mem.inode ip).inum)

def readable (t : Disk) (k : Kernel) (ip : Nat) (off : BitVec 64) (n : Nat) : Prop :=
  Finds unchanged (fun _ => True) ip off.toNat n ⟨t,during t.view k ip⟩

def writable (t : Disk) (k : Kernel) (src : List UInt8) (ip : Nat) (off : BitVec 64) (n : Nat) : Prop :=
  Finds (stored src) (Storable ip (off.toNat + n)) ip off.toNat n ⟨t,during t.view k ip⟩

def covered (change : Disk → Nat → Disk → Prop) (sb : Superblock) (t : Disk) (k : Kernel) (ip : Nat) (off : BitVec 64) (n : Nat) : Prop :=
  Available change sb ip off.toNat n ⟨t,during t.view k ip⟩

def Provided (c : Call) (found : Nat → BitVec 64 → Nat → Prop) (view : Nat → Block) (k : Kernel) (fd : Int) : Prop :=
  ∀ f ip, Permitted c view k fd f ip → found ip (k.file f).fOffset (c.amount (size view k ip) (k.file f).fOffset)

def Honest (c : Call) (view : Nat → Block) (k : Kernel) (fd : Int) : Prop := ∀ f ip, Opened k fd f → (k.file f).fInode = some ip →
  (k.file f).fFlags &&& c.access ≠ 0 ∧ (c.inside (size view k ip) (k.file f).fOffset →
    c.amount (size view k ip) (k.file f).fOffset < 2^31 ∧ (c.amount (size view k ip) (k.file f).fOffset = 0 → asInt (countOnStack k) = 0))

inductive Outcome (c : Call) (moves : Moves) (view : Nat → Block) (k : Kernel) (fd : Int) : Int → List UInt8 → (Nat → Block) → Kernel →
    Prop where
  | closed {v : Int} (none : ∀ f, ¬ Opened k fd f) (negative : v < 0) : Outcome c moves view k fd v [] view k
  | denied {f : Entry} (opened : Opened k fd f) (denied : (k.file f).fFlags &&& c.access = 0) : Outcome c moves view k fd eperm [] view k
  | outside {f : Entry} {ip : Nat} (opened : Opened k fd f) (file : (k.file f).fInode = some ip) (allowed : (k.file f).fFlags &&& c.access ≠ 0)
      (outside : ¬ c.inside (size view k ip) (k.file f).fOffset) : Outcome c moves view k fd (-enxio) [] view (unlocked ip (during view k ip))
  | moved {f : Entry} {ip : Nat} {bytes : List UInt8} {view' : Nat → Block} {m : Kernel} {count : Int} (permitted : Permitted c view k fd f ip)
      (value : count = (BitVec.ofNat 64 (c.amount (size view k ip) (k.file f).fOffset)).toInt)
      (done : moves ip (k.file f).fOffset (c.amount (size view k ip) (k.file f).fOffset) bytes view')
      (files : m.file = k.file) : Outcome c moves view k fd (told k count) bytes view' (finished f ip count m)

theorem asIntBounds (n) : -2^31 ≤ asInt n ∧ asInt n < 2^31 := ⟨BitVec.le_toInt _,BitVec.toInt_lt⟩

variable {c : Call} {moves : Moves} {n : Nat} {count : Int} {α : Type} {found : Nat → BitVec 64 → Nat → Prop}

theorem asIntSame (small : n < 2^31) : asInt n = n := by
  rw [asInt,BitVec.toInt_ofInt]
  exact Int.bmod_eq_of_le (by omega) (by omega)

theorem movedTold (n : Nat) (value : count = (BitVec.ofNat 64 n).toInt) (k : Kernel) :
    told k count = n ↔ n < 2^31 ∧ (n = 0 → asInt (countOnStack k) = 0) := by
  unfold told
  by_cases small : n < 2^31
  · rw [offInt (by omega)] at value
    subst value
    rw [asIntSame small]
    by_cases none : n = 0
    · subst none
      simp
    · rw [if_pos (by omega)]
      exact iff_of_true rfl ⟨small,fun zero => absurd zero none⟩
  · have bounds := asIntBounds count
    have stack := asIntBounds (countOnStack k)
    refine iff_of_false ?_ (fun wrong => small wrong.1)
    split
    · omega
    · split
      · omega
      · omega

variable {view : Nat → Block} {k : Kernel} {f : Entry} {ip : Nat} {fd : Int} {counts : BitVec 64} {src : List UInt8}

section Files
variable {g : Entry} {i : Nat}

theorem openedSame (h : Opened k fd f) (h' : Opened k fd g) : g = f := Option.some.inj (h'.2.2.symm.trans h.2.2)

theorem lockedBusy (view : Nat → Block) (x) : (locked view x).busy = true := by
  unfold locked
  split
  · rfl
  · rfl

theorem lockedAgain (view : Nat → Block) (x : Inode) : locked view {locked view x with busy := false} = locked view x := by
  obtain ⟨_,_,valid⟩ := lockedKeeps view x
  rw [locked.eq_def view {locked view x with busy := false},if_pos valid,← lockedBusy view x]

theorem untouchedUnlock : Untouched view k view (unlocked ip (during view k ip)) := by
  refine ⟨rfl,rfl,fun i => ?_⟩
  by_cases here : i = ip
  · subst here
    simp only [unlocked,during,Kernel.withInode,Function.update_self]
    exact lockedAgain view (k.inode i)
  · simp only [unlocked,during,Kernel.withInode,Function.update_of_ne here]

theorem movedOffset {m n count} (small : n < 2^31) (value : count = (BitVec.ofNat 64 n).toInt) (files : m.file = k.file) :
    (finished f ip count m).file = Function.update k.file f {k.file f with fOffset := (k.file f).fOffset + BitVec.ofNat 64 n} := by
  rw [offInt (by omega)] at value
  subst value
  by_cases none : n = 0
  · subst none
    simp [finished,unlocked,Kernel.withInode,files]
  · rw [finished,if_pos (by omega),advanced,BitVec.ofInt_natCast,files]
    simp only [unlocked,Kernel.withInode,Kernel.withFile,files]

end Files

section Outcomes
variable {view' : Nat → Block} {m : Kernel} {v : Int} {bytes : List UInt8}

theorem refusedReported (none : ∀ f ip, ¬ Permitted c view k fd f ip) (negative : v < 0) (left : Untouched view k view' m) :
    Reported c moves view k fd v [] view' m := by
  refine ⟨iff_of_false (by omega) ?_,fun f ip permitted => absurd permitted (none f ip),fun _ => ⟨rfl,left⟩⟩
  rintro ⟨f,ip,permitted⟩
  exact none f ip permitted

theorem permittedSame {g j} (h : Permitted c view k fd f ip) (h' : Permitted c view k fd g j) : g = f ∧ j = ip := by
  obtain rfl := openedSame h.opened h'.opened
  exact ⟨rfl,Option.some.inj (h'.file.symm.trans h.file)⟩

theorem movedReported (permitted : Permitted c view k fd f ip) (amount : c.amount (size view k ip) (k.file f).fOffset = n)
    (told : v = n) (moved : moves ip (k.file f).fOffset n bytes view')
    (files : m.file = Function.update k.file f {k.file f with fOffset := (k.file f).fOffset + BitVec.ofNat 64 n}) :
    Reported c moves view k fd v bytes view' m := by
  refine ⟨iff_of_true (by omega) ⟨f,ip,permitted⟩,fun g j other => ?_,fun none => absurd permitted (none f ip)⟩
  obtain ⟨rfl,rfl⟩ := permittedSame permitted other
  rw [amount]
  exact ⟨told,moved,files⟩

theorem outcomeReported (outcome : Outcome c moves view k fd v bytes view' m) (file : ∀ f, Opened k fd f → ∃ ip, (k.file f).fInode = some ip) :
    Reported c moves view k fd v bytes view' m ↔ Honest c view k fd := by
  cases outcome with
  | closed none negative =>
    refine iff_of_true (refusedReported (fun f _ permitted => none f permitted.opened) negative ⟨rfl,rfl,fun _ => rfl⟩) ?_
    exact fun f _ opened => absurd opened (none f)
  | @denied f opened denied =>
    refine iff_of_false (fun told => ?_) (fun honest => ?_)
    · obtain ⟨g,ip,permitted⟩ := told.sign.mp (by decide)
      obtain rfl := openedSame opened permitted.opened
      exact permitted.allowed denied
    · obtain ⟨ip,file⟩ := file f opened
      exact (honest f ip opened file).1 denied
  | @outside f ip opened file allowed outside =>
    refine iff_of_true (refusedReported (fun g j permitted => ?_) (by decide) untouchedUnlock) (fun g j opened' file' => ?_)
    · obtain rfl := openedSame opened permitted.opened
      obtain rfl := Option.some.inj (file.symm.trans permitted.file)
      exact outside permitted.inside
    · obtain rfl := openedSame opened opened'
      obtain rfl := Option.some.inj (file.symm.trans file')
      exact ⟨allowed,fun inside => absurd inside outside⟩
  | @moved f ip _ _ _ count permitted value moved files =>
    generalize amount : c.amount (size view k ip) (k.file f).fOffset = n at value moved
    have honest : Honest c view k fd ↔ n < 2^31 ∧ (n = 0 → asInt (countOnStack k) = 0) := by
      refine ⟨fun honest => ?_,fun bounds g j opened file => ?_⟩
      · have bounds := (honest f ip permitted.opened permitted.file).2 permitted.inside
        rwa [amount] at bounds
      · obtain rfl := openedSame permitted.opened opened
        obtain rfl := Option.some.inj (permitted.file.symm.trans file)
        exact ⟨permitted.allowed,fun _ => by rwa [amount]⟩
    rw [honest]
    have same := movedTold n value k
    refine ⟨fun reported => ?_,fun bounds => ?_⟩
    · have told := (reported.performed f ip permitted).1
      rw [amount] at told
      exact same.mp told
    · exact movedReported permitted amount (same.mpr bounds) moved (movedOffset bounds.1 value files)

end Outcomes

section Calls
variable {σ : Type} {L : Layer σ Nat Block Fault} {w v : World σ Kernel}

theorem runUnlock (busy : (w.mem.inode ip).busy = true) : run L (inodeUnlock ip) w = .ok ((),⟨w.disk,unlocked ip w.mem⟩) := by
  simp only [inodeUnlock,getInode,editInode,runBind,runMemory,runPure,followOk,kassert,if_pos busy,runSetMemory,unlocked]

theorem runAdvance {count} : run L (advance f count) w = .ok ((),⟨w.disk,advanced f count w.mem⟩) := by
  rw [advance,editFile,runBind,runMemory,followOk,runSetMemory]
  rfl

theorem runFinish {a b : α} (busy : (w.mem.inode ip).busy = true) :
    run L (if 0 < count then do advance f count; inodeUnlock ip; pure a else do inodeUnlock ip; pure b) w =
      .ok (if 0 < count then a else b,⟨w.disk,finished f ip count w.mem⟩) := by
  unfold finished
  split
  · have busy : (((⟨w.disk,advanced f count w.mem⟩ : World σ Kernel).mem).inode ip).busy = true := busy
    simp only [runBind,runAdvance,followOk,runUnlock busy,runPure]
  · simp only [runBind,runUnlock busy,followOk,runPure]

theorem runOpenFile (opened : Opened w.mem fd f) : run L (openFile fd) w = .ok (.ok f,w) := by
  obtain ⟨low,high,slot⟩ := opened
  rw [openFile,if_neg (by omega),runBind,runMemory,followOk,slot]
  rfl

theorem runOpenNone (none : ∀ f, ¬ Opened w.mem fd f) : ∃ rc, rc < 0 ∧ run L (openFile fd) w = .ok (.error rc,w) := by
  unfold openFile
  split
  · exact ⟨-einval,by decide,rfl⟩
  · rw [runBind,runMemory,followOk]
    split
    · exact ⟨-ebadf,by decide,rfl⟩
    · rename_i f slot
      exact absurd ⟨by omega,by omega,slot⟩ (none f)

theorem runFsReadClosed (counts) (none : ∀ f, ¬ Opened w.mem fd f) : ∃ rc, rc < 0 ∧ run L (fsRead fd counts) w = .ok ((rc,[]),w) := by
  obtain ⟨rc,negative,ran⟩ := runOpenNone (L := L) none
  refine ⟨rc,negative,?_⟩
  rw [fsRead,runBind,ran,followOk]
  rfl

theorem runFsReadDenied (counts : BitVec 64) (opened : Opened w.mem fd f) (denied : (w.mem.file f).fFlags &&& fread = 0) :
    run L (fsRead fd counts) w = .ok ((eperm,[]),w) := by
  rw [fsRead,runBind,runOpenFile opened,followOk]
  simp only [fdFileRead,runBind,runMemory,followOk,if_pos denied,runPure]
  rfl

theorem runFsRead (opened : Opened w.mem fd f) (file : (w.mem.file f).fInode = some ip) (allowed : (w.mem.file f).fFlags &&& fread ≠ 0)
    (lock : run L (inodeLock ip) w = .ok ((),v)) (busy : (v.mem.inode ip).busy = true) (regular : (v.mem.inode ip).iMode ≠ fsImodeDev) :
    run L (fsRead fd counts) w = follow (run L (inodeRead ip (w.mem.file f).fOffset counts) v) fun r u =>
      .ok ((told w.mem r.1,r.2),⟨u.disk,finished f ip r.1 u.mem⟩) := by
  rw [fsRead,runBind,runOpenFile opened,followOk]
  simp only [fdFileRead,runBind,runMemory,followOk,if_neg allowed,file,lock,getInode,runPure,if_neg regular]
  cases ran : run L (inodeRead ip (w.mem.file f).fOffset counts) v with
  | error e => rfl
  | ok r =>
    obtain ⟨⟨count,bytes⟩,u⟩ := r
    have still := quietRun quietInodeRead ran
    have busy : (u.mem.inode ip).busy = true := (still.busy ip).trans busy
    simp only [followOk,runFinish busy,told]
    by_cases some : 0 < count
    · simp only [if_pos some,if_true]
    · simp only [if_neg some]

theorem runFsWriteClosed (src) (none : ∀ f, ¬ Opened w.mem fd f) : ∃ rc, rc < 0 ∧ run L (fsWrite fd src) w = .ok (rc,w) := by
  obtain ⟨rc,negative,ran⟩ := runOpenNone (L := L) none
  refine ⟨rc,negative,?_⟩
  rw [fsWrite,runBind,ran,followOk]
  rfl

theorem runFsWriteDenied (src : List UInt8) (opened : Opened w.mem fd f) (denied : (w.mem.file f).fFlags &&& fwrite = 0) :
    run L (fsWrite fd src) w = .ok (eperm,w) := by
  rw [fsWrite,runBind,runOpenFile opened,followOk]
  simp only [fdFileWrite,runBind,runMemory,followOk,if_pos denied,runPure]
  rfl

theorem runFsWrite (opened : Opened w.mem fd f) (file : (w.mem.file f).fInode = some ip) (allowed : (w.mem.file f).fFlags &&& fwrite ≠ 0)
    (lock : run L (inodeLock ip) w = .ok ((),v)) (busy : (v.mem.inode ip).busy = true) (regular : (v.mem.inode ip).iMode ≠ fsImodeDev) :
    run L (fsWrite fd src) w = follow (run L (inodeWrite ip src (w.mem.file f).fOffset) v) fun count u =>
      .ok (told w.mem count,⟨u.disk,finished f ip count u.mem⟩) := by
  rw [fsWrite,runBind,runOpenFile opened,followOk]
  simp only [fdFileWrite,runBind,runMemory,followOk,if_neg allowed,file,lock,getInode,runPure,if_neg regular]
  cases ran : run L (inodeWrite ip src (w.mem.file f).fOffset) v with
  | error e => rfl
  | ok r =>
    obtain ⟨count,u⟩ := r
    have still := quietRun quietInodeWrite ran
    have busy : (u.mem.inode ip).busy = true := (still.busy ip).trans busy
    simp only [followOk,runFinish busy,told]
    by_cases some : 0 < count
    · simp only [if_pos some,if_true]
    · simp only [if_neg some]

theorem readLoopLength {passes off remains bytes} (enough : remains ≤ passes)
    (ok : run L (readLoop ip passes off remains) w = .ok (bytes,v)) : bytes.length = remains := by
  induction passes generalizing off remains w v bytes with
  | zero =>
    cases ok
    exact (Nat.le_zero.mp enough).symm
  | succ passes ih =>
    unfold readLoop at ok
    split at ok
    · rename_i none
      cases ok
      exact none.symm
    split at ok
    · cases ok
    simp only [runBind] at ok
    obtain ⟨_,_,_,ok⟩ := followReturns ok
    obtain ⟨_,_,_,ok⟩ := followReturns ok
    obtain ⟨_,_,_,ok⟩ := followReturns ok
    obtain ⟨_,_,_,ok⟩ := followReturns ok
    obtain ⟨_,_,_,ok⟩ := followReturns ok
    obtain ⟨rest,u,last,ok⟩ := followReturns ok
    have some : 0 < min remains (bsize - off%bsize) := by
      simp only [bsize]
      omega
    have left := ih (show remains - min remains (bsize - off%bsize) ≤ passes by omega) last
    cases ok
    rw [List.length_append,sliceLength,left]
    omega

end Calls

structure Regular (sb : Superblock) (view : Nat → Block) (k : Kernel) (ip : Nat) : Prop where
  used : 0 < (k.inode ip).ref
  idle : (k.inode ip).busy = false
  root : (k.inode ip).iDev.toNat = rootDev
  numbered : (k.inode ip).inum.toNat < sb.sNinodes.toNat
  file : (locked view (k.inode ip)).iMode ≠ fsImodeDev

def Ready (sb : Superblock) (view : Nat → Block) (k : Kernel) (fd : Int) : Prop :=
  ∀ f, Opened k fd f → ∃ ip, (k.file f).fInode = some ip ∧ Regular sb view k ip

structure Reports {α : Type} (c : Call) (moves : Moves) (found available : Nat → BitVec 64 → Nat → Prop) (p : Fs α)
    (told : α → Int × List UInt8) (s : Store) (k : Kernel) (fd : Int) : Prop where
  returned : ∀ a s' m, run cacheLayer p ⟨s,k⟩ = .ok (a,⟨s',m⟩) →
    (Reported c moves (cachedView s) k fd (told a).1 (told a).2 (cachedView s') m ↔ Honest c (cachedView s) k fd)
  returns : Provided c available (cachedView s) k fd →
    run cacheLayer p ⟨s,k⟩ = .error .noBuffers ∨ ∃ r, run cacheLayer p ⟨s,k⟩ = .ok r
  performed : run cacheLayer p ⟨s,k⟩ ≠ .error .noBuffers → ((∃ a s' m, run cacheLayer p ⟨s,k⟩ = .ok (a,⟨s',m⟩) ∧
      Reported c moves (cachedView s) k fd (told a).1 (told a).2 (cachedView s') m) ↔
    Honest c (cachedView s) k fd ∧ Provided c found (cachedView s) k fd)

section Runs
variable {sb : Superblock} {t : Disk} {u : State}

theorem runLock (tables : Tables sb t) (regular : Regular sb t.view k ip) :
    run diskLayer (inodeLock ip) ⟨t,k⟩ = .ok ((),⟨t,during t.view k ip⟩) := by
  exact runInodeLock (tablesSuper tables) (tablesInode tables regular.numbered) regular.used regular.idle regular.root

theorem duringInode (view : Nat → Block) (k ip) : (during view k ip).inode ip = locked view (k.inode ip) := Function.update_self ..

theorem descriptorCases (regular : Ready sb t.view k fd) (access : BitVec 32) :
    (∀ f, ¬ Opened k fd f) ∨ (∃ f, Opened k fd f ∧ (k.file f).fFlags &&& access = 0) ∨
      ∃ f ip, Opened k fd f ∧ (k.file f).fFlags &&& access ≠ 0 ∧ (k.file f).fInode = some ip ∧ Regular sb t.view k ip := by
  by_cases none : ∀ f, ¬ Opened k fd f
  · exact Or.inl none
  simp only [not_forall,not_not] at none
  obtain ⟨f,opened⟩ := none
  by_cases denied : (k.file f).fFlags &&& access = 0
  · exact Or.inr (Or.inl ⟨f,opened,denied⟩)
  · obtain ⟨ip,file,regular⟩ := regular f opened
    exact Or.inr (Or.inr ⟨f,ip,opened,denied,file,regular⟩)

theorem duringBusy : ((during t.view k ip).inode ip).busy = true := by
  rw [duringInode]
  exact lockedBusy t.view (k.inode ip)

theorem duringMode (regular : Regular sb t.view k ip) : ((during t.view k ip).inode ip).iMode ≠ fsImodeDev := by
  rw [duringInode]
  exact regular.file

theorem readOutcome {v bytes} (tables : Tables sb t)
    (regular : Ready sb t.view k fd)
    (ok : run diskLayer (fsRead fd counts) ⟨t,k⟩ = .ok ((v,bytes),u)) :
    Outcome (reading counts) (readMoves t k counts) t.view k fd v bytes u.disk.view u.mem := by
  rcases descriptorCases regular fread with none | ⟨f,opened,denied⟩ | ⟨f,ip,opened,allowed,file,regular⟩
  · obtain ⟨rc,negative,ran⟩ := runFsReadClosed (L := diskLayer) (w := ⟨t,k⟩) counts none
    cases ran.symm.trans ok
    exact .closed none negative
  · cases (runFsReadDenied (L := diskLayer) (w := ⟨t,k⟩) counts opened denied).symm.trans ok
    exact .denied opened denied
  have inode := duringInode t.view k ip
  rw [runFsRead (w := ⟨t,k⟩) opened file allowed (runLock tables regular) duringBusy (duringMode regular)] at ok
  obtain ⟨⟨count,bytes'⟩,v',ran,done⟩ := followReturns ok
  obtain ⟨same,rfl⟩ := Prod.mk.inj (Except.ok.inj done)
  obtain ⟨rfl,rfl⟩ := Prod.mk.inj same
  have files := (quietRun quietInodeRead ran).file
  by_cases inside : (reading counts).inside (size t.view k ip) (k.file f).fOffset
  · have range := inside
    rw [size,← inode] at range
    have whole := ran
    rw [runReadInside (duringMode regular) range.1 range.2] at whole
    obtain ⟨read,u,loop,last⟩ := followReturns whole
    obtain ⟨same,rfl⟩ := Prod.mk.inj (Except.ok.inj last)
    obtain ⟨value,rfl⟩ := Prod.mk.inj same
    dsimp only [] at value
    rw [inode] at value loop
    refine .moved ⟨opened,file,allowed,inside⟩ value.symm ⟨readLoopLength le_rfl loop,u,?_,rfl⟩ files
    rw [← value] at ran
    exact ran
  · have out := inside
    simp only [reading,size,← inode] at out
    rw [runReadRefused (duringMode regular) (by dsimp only; omega)] at ran
    obtain ⟨same,rfl⟩ := Prod.mk.inj (Except.ok.inj ran)
    obtain ⟨rfl,rfl⟩ := Prod.mk.inj same
    exact .outside opened file allowed inside

theorem writeOutcome {v} (tables : Tables sb t)
    (regular : Ready sb t.view k fd) (short : src.length < 2^64)
    (ok : run diskLayer (fsWrite fd src) ⟨t,k⟩ = .ok (v,u)) :
    Outcome (writing src.length) (writeMoves t k src) t.view k fd v [] u.disk.view u.mem := by
  have bound : fsMaxfileSize < 2^63 := by decide
  rcases descriptorCases regular fwrite with none | ⟨f,opened,denied⟩ | ⟨f,ip,opened,allowed,file,regular⟩
  · obtain ⟨rc,negative,ran⟩ := runFsWriteClosed (L := diskLayer) (w := ⟨t,k⟩) src none
    cases ran.symm.trans ok
    exact .closed none negative
  · cases (runFsWriteDenied (L := diskLayer) (w := ⟨t,k⟩) src opened denied).symm.trans ok
    exact .denied opened denied
  have inode := duringInode t.view k ip
  rw [runFsWrite (w := ⟨t,k⟩) opened file allowed (runLock tables regular) duringBusy (duringMode regular)] at ok
  obtain ⟨count,v',ran,done⟩ := followReturns ok
  obtain ⟨rfl,rfl⟩ := Prod.mk.inj (Except.ok.inj done)
  have files := (quietRun quietInodeWrite ran).file
  by_cases inside : (writing src.length).inside (size t.view k ip) (k.file f).fOffset
  · have range := inside
    rw [size,← inode] at range
    have small : src.length < 2^63 := by
      have := inside.2
      omega
    obtain ⟨rfl,_⟩ := writeReturns (duringMode regular) range.1 range.2 ran
    exact .moved ⟨opened,file,allowed,inside⟩ (offInt small).symm ⟨rfl,rfl,v',ran,rfl⟩ files
  · have out := inside
    simp only [writing,size,← inode] at out
    rw [runWriteRefused (duringMode regular) short (by dsimp only; omega)] at ran
    obtain ⟨rfl,rfl⟩ := Prod.mk.inj (Except.ok.inj ran)
    exact .outside opened file allowed inside

theorem availableSmall {off remains s} (long : 0 < tablesEnd sb) (available : Available reads sb ip off remains s) (some : 0 < remains) :
    off + remains ≤ capacity*bsize := by
  induction available with
  | done => omega
  | @pass off remains b s u _ apart ran idle high rest ih =>
    have block : off/bsize < capacity := by
      by_contra beyond
      rw [bmapBeyond (not_lt.mp beyond)] at ran
      obtain ⟨rfl,_⟩ := Prod.mk.inj (Except.ok.inj ran)
      omega
    have next : (off/bsize + 1)*bsize ≤ capacity*bsize := Nat.mul_le_mul_right bsize block
    have whole := Nat.div_add_mod off bsize
    have left := ih u.disk rfl
    simp only [bsize] at next whole left ⊢
    omega

theorem duringRoot (regular : Regular sb t.view k ip) : ((during t.view k ip).inode ip).iDev.toNat = rootDev := by
  rw [duringInode]
  unfold locked
  split
  · exact regular.root
  · exact regular.root

theorem duringNumber (regular : Regular sb t.view k ip) : ((during t.view k ip).inode ip).inum.toNat < sb.sNinodes.toNat := by
  rw [duringInode,(lockedKeeps t.view (k.inode ip)).2.1]
  exact regular.numbered

theorem providedIff {P : Prop} (regular : Ready sb t.view k fd)
    (closed : (∀ f, ¬ Opened k fd f) → P) (denied : ∀ f, Opened k fd f → (k.file f).fFlags &&& c.access = 0 → P)
    (outside : ∀ f ip, Opened k fd f → (k.file f).fInode = some ip → (k.file f).fFlags &&& c.access ≠ 0 → Regular sb t.view k ip →
      ¬ c.inside (size t.view k ip) (k.file f).fOffset → P)
    (here : ∀ f ip, Permitted c t.view k fd f ip → Regular sb t.view k ip →
      (P ↔ found ip (k.file f).fOffset (c.amount (size t.view k ip) (k.file f).fOffset))) :
    P ↔ Provided c found t.view k fd := by
  rcases descriptorCases regular c.access with none | ⟨f,opened,refused⟩ | ⟨f,ip,opened,allowed,file,regular⟩
  · exact iff_of_true (closed none) fun f _ permitted => absurd permitted.opened (none f)
  · refine iff_of_true (denied f opened refused) fun g _ permitted => ?_
    obtain rfl := openedSame opened permitted.opened
    exact absurd refused permitted.allowed
  by_cases inside : c.inside (size t.view k ip) (k.file f).fOffset
  · have permitted : Permitted c t.view k fd f ip := ⟨opened,file,allowed,inside⟩
    rw [here f ip permitted regular]
    refine ⟨fun found g j other => ?_,fun provided => provided f ip permitted⟩
    obtain ⟨rfl,rfl⟩ := permittedSame permitted other
    exact found
  · refine iff_of_true (outside f ip opened file allowed regular inside) fun g j permitted => ?_
    obtain rfl := openedSame opened permitted.opened
    obtain rfl := Option.some.inj (file.symm.trans permitted.file)
    exact absurd permitted.inside inside

theorem followAlways {β : Type} {x : Except Fault (α × State)} {f : α → State → Except Fault (β × State)}
    (always : ∀ a u, ∃ r, f a u = .ok r) :
    (∃ r, follow x f = .ok r) ↔ ∃ r, x = .ok r := by
  refine ⟨fun ⟨_,ok⟩ => ?_,fun ⟨⟨a,u⟩,ok⟩ => by rw [ok]; exact always a u⟩
  obtain ⟨a,u,ok,_⟩ := followReturns ok
  exact ⟨_,ok⟩

theorem readReturns (tables : Tables sb t) (regular : Ready sb t.view k fd) :
    (∃ r, run diskLayer (fsRead fd counts) ⟨t,k⟩ = .ok r) ↔ Provided (reading counts) (readable t k) t.view k fd := by
  have locks : ∀ {f ip}, Opened k fd f → (k.file f).fInode = some ip → (k.file f).fFlags &&& fread ≠ 0 → Regular sb t.view k ip →
      ((∃ r, run diskLayer (fsRead fd counts) ⟨t,k⟩ = .ok r) ↔
        ∃ r, run diskLayer (inodeRead ip (k.file f).fOffset counts) ⟨t,during t.view k ip⟩ = .ok r) := by
    intro f ip opened file allowed regular
    rw [runFsRead (w := ⟨t,k⟩) opened file allowed (runLock tables regular) duringBusy (duringMode regular),followAlways fun _ _ => ⟨_,rfl⟩]
  refine providedIff regular (fun none => ?_) (fun f opened denied => ⟨_,runFsReadDenied (w := ⟨t,k⟩) counts opened denied⟩) ?_ ?_
  · obtain ⟨rc,_,ran⟩ := runFsReadClosed (L := diskLayer) (w := ⟨t,k⟩) counts none
    exact ⟨_,ran⟩
  · intro f ip opened file allowed regular outside
    rw [locks opened file allowed regular]
    simp only [reading,size,← duringInode t.view k ip] at outside
    exact ⟨_,runReadRefused (duringMode regular) (by dsimp only; omega)⟩
  · intro f ip permitted regular
    have inside := permitted.inside
    rw [locks permitted.opened permitted.file permitted.allowed regular,readable,← readLoopFinds (duringRoot regular) le_rfl]
    rw [size,← duringInode t.view k ip] at inside ⊢
    rw [runReadInside (duringMode regular) inside.1 inside.2,followAlways fun _ _ => ⟨_,rfl⟩]
    rfl

theorem growReturns {last : BitVec 64} (root : (u.mem.inode ip).iDev.toNat = rootDev) :
    (∃ r, run diskLayer (grow ip last) u = .ok r) ↔ Storable ip last.toNat u := by
  rw [Storable,← BitVec.lt_def,grow,runBind]
  simp only [getInode,runMemory,followOk,runPure,runBind]
  split
  · rename_i more
    refine ⟨fun ran _ => ?_,fun stored => ?_⟩
    · obtain ⟨r,ok⟩ := ran
      obtain ⟨_,_,edit,ok⟩ := runCut ok
      cases edit
      obtain ⟨_,_,get,ok⟩ := runCut ok
      cases get
      obtain ⟨_,_,read,_⟩ := runCut ok
      obtain ⟨_,_,super,read⟩ := runCut read
      obtain ⟨_,idle,rfl,rfl⟩ := runSuperblockOk super
      obtain ⟨_,_,read,_⟩ := runCut read
      have there := (runBreadOk read).2.1
      simp only [Kernel.withInode,Function.update_self] at there
      exact ⟨idle,there⟩
    · obtain ⟨super,idle⟩ := stored more
      simp only [runBind,editInode,runMemory,runSetMemory,followOk,inodeUpdate,getInode,runPure,Kernel.withInode,Function.update_self,
        runReadDiskInode root super idle,runData,runSet,runWrite,runRelease (idleStore idle _).free _ (storeView _).symm]
      exact ⟨_,rfl⟩
  · rename_i enough
    exact iff_of_true ⟨_,rfl⟩ fun more => absurd more enough

theorem inodeWriteReturns {s : State} {off : BitVec 64} (root : (s.mem.inode ip).iDev.toNat = rootDev) (file : (s.mem.inode ip).iMode ≠ fsImodeDev)
    (start : off.toNat ≤ (s.mem.inode ip).iSize.toNat) (limit : off.toNat + src.length ≤ fsMaxfileSize) :
    (∃ r, run diskLayer (inodeWrite ip src off) s = .ok r) ↔
      Finds (stored src) (Storable ip (off.toNat + src.length)) ip off.toNat src.length s := by
  have bound : fsMaxfileSize < 2^63 := by decide
  rw [← writeLoopFinds root le_rfl le_rfl,Nat.sub_self,List.drop_zero,runWriteChecked file start limit]
  have ends : ∀ v, run diskLayer (writeLoop ip src.length off.toNat src) s = .ok ((),v) →
      ((∃ r, (if src = [] then .ok ((),v) else run diskLayer (grow ip (BitVec.ofNat 64 (off.toNat + src.length))) v) = .ok r) ↔
        Storable ip (off.toNat + src.length) v) := by
    intro v loop
    have same := writeLoopOk loop
    split
    · rename_i none
      refine iff_of_true ⟨_,rfl⟩ fun more => ?_
      rw [sameSize same,none,List.length_nil] at more
      omega
    · rw [growReturns (sameRoot same root),offNat (by omega)]
  refine ⟨fun ⟨r,ok⟩ => ?_,fun ⟨v,loop,last⟩ => ?_⟩
  · obtain ⟨_,v,loop,rest⟩ := followReturns ok
    obtain ⟨a,w,last,_⟩ := followReturns rest
    exact ⟨v,loop,(ends v loop).mp ⟨_,last⟩⟩
  · rw [loop,followOk,followAlways fun _ _ => ⟨_,rfl⟩]
    exact (ends v loop).mpr last

theorem fsWriteReturns (tables : Tables sb t) (regular : Ready sb t.view k fd)
    (short : src.length < 2^64) :
    (∃ r, run diskLayer (fsWrite fd src) ⟨t,k⟩ = .ok r) ↔ Provided (writing src.length) (writable t k src) t.view k fd := by
  have locks : ∀ {f ip}, Opened k fd f → (k.file f).fInode = some ip → (k.file f).fFlags &&& fwrite ≠ 0 → Regular sb t.view k ip →
      ((∃ r, run diskLayer (fsWrite fd src) ⟨t,k⟩ = .ok r) ↔
        ∃ r, run diskLayer (inodeWrite ip src (k.file f).fOffset) ⟨t,during t.view k ip⟩ = .ok r) := by
    intro f ip opened file allowed regular
    rw [runFsWrite (w := ⟨t,k⟩) opened file allowed (runLock tables regular) duringBusy (duringMode regular),followAlways fun _ _ => ⟨_,rfl⟩]
  refine providedIff regular (fun none => ?_) (fun f opened denied => ⟨_,runFsWriteDenied (w := ⟨t,k⟩) src opened denied⟩) ?_ ?_
  · obtain ⟨rc,_,ran⟩ := runFsWriteClosed (L := diskLayer) (w := ⟨t,k⟩) src none
    exact ⟨_,ran⟩
  · intro f ip opened file allowed regular outside
    rw [locks opened file allowed regular]
    simp only [writing,size,← duringInode t.view k ip] at outside
    exact ⟨_,runWriteRefused (duringMode regular) short (by dsimp only; omega)⟩
  · intro f ip permitted regular
    have inside := permitted.inside
    rw [size,← duringInode t.view k ip] at inside
    rw [locks permitted.opened permitted.file permitted.allowed regular,
      inodeWriteReturns (duringRoot regular) (duringMode regular) inside.1 inside.2]
    rfl

theorem readableAvailable {off n} (tables : Tables sb t) (available : Available reads sb ip off.toNat n ⟨t,during t.view k ip⟩) :
    readable t k ip off n := by
  by_cases none : n = 0
  · subst none
    exact .done trivial
  · have long := tablesLong tables
    have few := availableSmall (by omega) available (by omega)
    have : capacity*bsize < 2^63 := by decide
    exact availableFinds (by omega) available

theorem writableAvailable {off} (tables : Tables sb t) (positive : 0 < sb.sFirstdataBlock.toNat) (regular : Regular sb t.view k ip)
    (inside : (writing src.length).inside (size t.view k ip) off)
    (available : Available writes sb ip off.toNat src.length ⟨t,during t.view k ip⟩) :
    writable t k src ip off src.length := by
  rw [size,← duringInode t.view k ip] at inside
  obtain ⟨u,ran,_⟩ := runInodeWriteAvailable (s := ⟨t,during t.view k ip⟩) tables positive (duringRoot regular) (duringNumber regular)
    (duringMode regular)
    inside.1 inside.2 available
  exact (inodeWriteReturns (s := ⟨t,during t.view k ip⟩) (duringRoot regular) (duringMode regular) inside.1 inside.2).mp ⟨_,ran⟩

theorem reports {s : Store} {available : Nat → BitVec 64 → Nat → Prop} {p : Fs α}
    {told : α → Int × List UInt8} (matched : Matches s t) (regular : Ready sb t.view k fd)
    (outcome : ∀ a u, run diskLayer p ⟨t,k⟩ = .ok (a,u) → Outcome c moves t.view k fd (told a).1 (told a).2 u.disk.view u.mem)
    (returns : (∃ r, run diskLayer p ⟨t,k⟩ = .ok r) ↔ Provided c found t.view k fd)
    (enough : ∀ f ip, Permitted c t.view k fd f ip → Regular sb t.view k ip →
      available ip (k.file f).fOffset (c.amount (size t.view k ip) (k.file f).fOffset) →
        found ip (k.file f).fOffset (c.amount (size t.view k ip) (k.file f).fOffset)) :
    Reports c moves found available p told s k fd := by
  have file : ∀ f, Opened k fd f → ∃ ip, (k.file f).fInode = some ip := fun f opened =>
    (regular f opened).imp fun ip both => both.1
  have view := matchesView matched
  refine ⟨fun a s' m ran => ?_,fun provided => ?_,fun ready => ⟨fun ⟨a,s',m,ran,reported⟩ => ?_,fun ⟨honest,provided⟩ => ?_⟩⟩
  · obtain ⟨t',ran,after⟩ := fromCache matched ran
    rw [matchesView after,view]
    exact outcomeReported (outcome a _ ran) file
  · rw [view] at provided
    obtain ⟨⟨a,u⟩,ran⟩ := returns.mpr fun f ip permitted => by
      obtain ⟨j,same,regular⟩ := regular f permitted.opened
      obtain rfl := Option.some.inj (same.symm.trans permitted.file)
      exact enough f j permitted regular (provided f j permitted)
    exact (toCache matched ran).imp_right fun ⟨_,ok,_⟩ => ⟨_,ok⟩
  · obtain ⟨t',ran,after⟩ := fromCache matched ran
    rw [matchesView after,view] at reported
    rw [view]
    exact ⟨(outcomeReported (outcome a _ ran) file).mp reported,returns.mp ⟨_,ran⟩⟩
  · rw [view] at honest provided ⊢
    obtain ⟨⟨a,u⟩,ran⟩ := returns.mpr provided
    obtain ⟨s',ok,after⟩ := (toCache matched ran).resolve_left ready
    refine ⟨a,s',u.mem,ok,?_⟩
    rw [matchesView after]
    exact (outcomeReported (outcome a u ran) file).mpr honest

end Runs

theorem transfersReported {s : Store} {t : Disk} {k : Kernel} {sb : Superblock} {fd : Int} (matched : Matches s t) (tables : Tables sb t)
    (positive : 0 < sb.sFirstdataBlock.toNat) (regular : Ready sb (cachedView s) k fd) :
    (∀ counts, Reports (reading counts) (readMoves t k counts) (readable t k) (covered reads sb t k) (fsRead fd counts) id s k fd) ∧
    ∀ src, src.length < 2^64 →
      Reports (writing src.length) (writeMoves t k src) (writable t k src) (covered writes sb t k) (fsWrite fd src) (·,[]) s k fd := by
  rw [matchesView matched] at regular
  refine ⟨fun counts => ?_,fun src short => ?_⟩
  · refine reports matched regular (fun _ _ ran => readOutcome tables regular ran) (readReturns tables regular) fun f ip _ _ available => ?_
    exact readableAvailable tables available
  · refine reports matched regular (fun _ _ ran => writeOutcome tables regular short ran) (fsWriteReturns tables regular short) ?_
    intro f ip permitted regular available
    exact writableAvailable tables positive regular permitted.inside available

def firstEntry : Entry := ⟨0,by decide⟩

def oneFile (flags : BitVec 32) (stack : List UInt8) : Kernel :=
  ({emptyFile with stack := stack, fds := fun _ fd => if fd = 0 then some firstEntry else none}).withFile firstEntry ⟨flags,1,some 0,0⟩

theorem oneFileRegular (flags stack f) (opened : Opened (oneFile flags stack) 0 f) :
    ∃ ip, ((oneFile flags stack).file f).fInode = some ip ∧
      Regular ⟨64,16,1,1,10,53,Mkfs.fsMagicNr⟩ (cachedView smallStore) (oneFile flags stack) ip := by
  obtain rfl : f = firstEntry := openedSame ⟨by decide,by decide,rfl⟩ opened
  refine ⟨0,rfl,?_⟩
  have inode : (oneFile flags stack).inode 0 = emptyFile.inode 0 := rfl
  refine ⟨by rw [inode]; decide,rfl,by rw [inode]; decide,by rw [inode]; decide,?_⟩
  rw [inode]
  exact show fsImodeFile ≠ fsImodeDev by decide

theorem twoBytesReported : ∃ s' m, run cacheLayer (fsWrite 0 [104,105]) ⟨smallStore,oneFile fwrite [7]⟩ = .ok (2,⟨s',m⟩) ∧
    Reported (writing 2) (writeMoves (flat smallImage 64) (oneFile fwrite [7]) [104,105]) (cachedView smallStore) (oneFile fwrite [7]) 0 2 []
      (cachedView s') m := by
  obtain ⟨⟨s',m⟩,ran⟩ : ∃ w, run cacheLayer (fsWrite 0 [104,105]) ⟨smallStore,oneFile fwrite [7]⟩ = .ok (2,w) := by
    apply resultOk
    rw [smallStore,(smallRun (by decide) _ _).1]
    decide +kernel
  have reported := ((transfersReported (bootMatches smallImage 64) emptyFileTables (by decide) (oneFileRegular fwrite [7])).2 [104,105]
    (by decide)).1 _ _ _ ran
  refine ⟨s',m,ran,reported.mpr fun f ip opened file => ?_⟩
  obtain rfl : f = firstEntry := openedSame ⟨by decide,by decide,rfl⟩ opened
  exact ⟨by decide,fun _ => ⟨show 2 < 2^31 by decide,fun wrong => absurd wrong (show ¬ 2 = 0 by decide)⟩⟩

theorem unreadReported : (∃ w, run cacheLayer (fsRead 0 5) ⟨smallStore,oneFile fwrite []⟩ = .ok ((1,[]),w)) ∧
    (∃ w, run cacheLayer (fsRead 0 5) ⟨smallStore,oneFile fread [7]⟩ = .ok ((7,[]),w)) ∧
    fault (run cacheLayer (fsWrite 0 [104]) ⟨boot fullImage 64,oneFile fwrite []⟩) = some .assertion := by
  refine ⟨?_,?_,?_⟩
  · apply resultOk
    rw [smallStore,(smallRun (by decide) _ _).1]
    decide +kernel
  · apply resultOk
    rw [smallStore,(smallRun (by decide) _ _).1]
    decide +kernel
  · rw [(smallRun (by decide) _ _).2]
    decide +kernel

end TskSw.Transfers
