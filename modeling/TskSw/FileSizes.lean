import TskSw.FileBytes

/-! The checks of `inode_read` and `inode_write` and the size they keep. Offsets are signed
and counts unsigned; the size of a file is compared with both as an unsigned number. The
limit on the size is given in bytes, and `bmap` counts blocks. -/
namespace TskSw.FileSizes
open Bytes BlockProgram BlkIo BlkFlat FsLayout FsKernel DataBitmap DataBlocks Bmap FreshBlocks Inodes InodeIo FileBytes

def OutOfRange (size off counts : BitVec 64) : Prop :=
  off.toInt < 0 ∨ (size.toNat : Int) < off.toInt ∨ 2^64 ≤ off.toInt + counts.toNat

theorem outOfRangeIff {size off counts} (small : size.toNat ≤ fsMaxfileSize) :
    OutOfRange size off counts ↔ size.toNat < off.toNat ∨ 2^64 ≤ off.toNat + counts.toNat := by
  have bound : fsMaxfileSize < 2^63 := by decide
  have := off.isLt
  rw [OutOfRange,BitVec.toInt_eq_toNat_cond]
  split
  · omega
  · omega

variable {ip : Nat} {src : List UInt8} {σ : Type} {c : Int} {L : Layer σ Nat Block Fault} {w : World σ Kernel}

variable {n b passes : Nat} {u : State} {k : Kernel} {sb : Superblock} {t : Disk}

section Refused
variable {off counts : BitVec 64}

theorem wrapsIff (off counts : BitVec 64) : off + counts < off ↔ 2^64 ≤ off.toNat + counts.toNat := by
  have := off.isLt
  have := counts.isLt
  rw [BitVec.lt_def,BitVec.toNat_add]
  omega

theorem runReadRefused (file : (w.mem.inode ip).iMode ≠ fsImodeDev)
    (out : (w.mem.inode ip).iSize.toNat < off.toNat ∨ 2^64 ≤ off.toNat + counts.toNat) :
    run L (inodeRead ip off counts) w = .ok ((-enxio,[]),w) := by
  rw [← wrapsIff,← BitVec.lt_def] at out
  simp only [inodeRead,getInode,runBind,runMemory,runPure,followOk,kassert,if_pos file,if_pos out]

theorem runWriteRefused (file : (w.mem.inode ip).iMode ≠ fsImodeDev) (length : src.length < 2^64)
    (out : (w.mem.inode ip).iSize.toNat < off.toNat ∨ 2^64 ≤ off.toNat + src.length ∨ fsMaxfileSize < off.toNat + src.length) :
    run L (inodeWrite ip src off) w = .ok (-enxio,w) := by
  have bound : fsMaxfileSize < 2^63 := by decide
  have counts : (BitVec.ofNat 64 src.length).toNat = src.length := by
    rw [BitVec.toNat_ofNat]
    omega
  have wraps := wrapsIff off (BitVec.ofNat 64 src.length)
  rw [counts] at wraps
  by_cases first : (w.mem.inode ip).iSize < off ∨ off + BitVec.ofNat 64 src.length < off
  · simp only [inodeWrite,getInode,runBind,runMemory,runPure,followOk,kassert,if_pos file,if_pos first]
  · have second : BitVec.ofNat 64 fsMaxfileSize < off + BitVec.ofNat 64 src.length := by
      rw [wraps,BitVec.lt_def] at first
      have top := offNat bound
      rw [BitVec.lt_def,BitVec.toNat_add,counts]
      omega
    simp only [inodeWrite,getInode,runBind,runMemory,runPure,followOk,kassert,if_pos file,if_neg first,if_pos second]

end Refused

theorem followReturns {α γ : Type} {x} {f : α → World σ Kernel → Except Fault (γ × World σ Kernel)}
    {r} (ok : follow x f = .ok r) : ∃ a u, x = .ok (a,u) ∧ f a u = .ok r := by
  cases x with
  | error e => cases ok
  | ok y => exact ⟨y.1,y.2,rfl,ok⟩

theorem writeReturns {v : World σ Kernel} {off : BitVec 64}
    (file : (w.mem.inode ip).iMode ≠ fsImodeDev) (start : off.toNat ≤ (w.mem.inode ip).iSize.toNat)
    (limit : off.toNat + src.length ≤ fsMaxfileSize) (ok : run L (inodeWrite ip src off) w = .ok (c,v)) :
    c = src.length ∧ ∃ u, run L (writeLoop ip src.length off.toNat src) w = .ok ((),u) ∧
      (if src = [] then .ok ((),u) else run L (grow ip (BitVec.ofNat 64 (off.toNat + src.length))) u) = .ok ((),v) := by
  rw [runWriteChecked file start limit] at ok
  obtain ⟨_,u,loop,rest⟩ := followReturns ok
  obtain ⟨_,v',last,done⟩ := followReturns rest
  obtain ⟨rfl,rfl⟩ := Prod.mk.inj (Except.ok.inj done)
  exact ⟨rfl,u,loop,last⟩

def capacity : Nat := fsIaddrDirectNr + fsIaddrInDirectNr*iaddrsPerBlock

theorem limitMatchesMap {σ : Type} (L : Layer σ Nat Block Fault) (w : World σ Kernel) {ip : Nat} {off : BitVec 64} {src : List UInt8}
    (file : (w.mem.inode ip).iMode ≠ fsImodeDev) (start : off.toNat ≤ (w.mem.inode ip).iSize.toNat) (fits : off.toNat + src.length < 2^64) :
    (run L (inodeWrite ip src off) w = .ok (-enxio,w) ↔ ∃ p, off.toNat ≤ p ∧ p < off.toNat + src.length ∧ capacity ≤ p/bsize) ↔
      off.toNat + src.length ≤ fsMaxfileSize ∨ src ≠ [] ∧ capacity*bsize < off.toNat + src.length := by
  have sizes : fsMaxfileSize < capacity*bsize := by decide
  have reaches : (∃ p, off.toNat ≤ p ∧ p < off.toNat + src.length ∧ capacity ≤ p/bsize) ↔ src ≠ [] ∧
    capacity*bsize < off.toNat + src.length := by
    constructor
    · rintro ⟨p,low,high,beyond⟩
      have := (Nat.le_div_iff_mul_le (by decide)).mp beyond
      refine ⟨?_,by omega⟩
      rintro rfl
      rw [List.length_nil] at high
      omega
    · rintro ⟨some,beyond⟩
      have := List.length_pos_of_ne_nil some
      exact ⟨off.toNat + src.length - 1,by omega,by omega,(Nat.le_div_iff_mul_le (by decide)).mpr (by omega)⟩
  rw [reaches]
  by_cases limit : off.toNat + src.length ≤ fsMaxfileSize
  · refine iff_of_true (iff_of_false (fun refused => ?_) (by omega)) (Or.inl limit)
    have := (writeReturns file start limit refused).1
    rw [enxio] at this
    omega
  · have refused : run L (inodeWrite ip src off) w = .ok (-enxio,w) := runWriteRefused file (by omega) (by omega)
    simp only [refused,true_iff,limit,false_or]

theorem smallWriteMapped : run diskLayer (inodeWrite 0 [104,105] 0) ⟨flat smallImage 64,emptyFile⟩ = .ok
    (-enxio,⟨flat smallImage 64,emptyFile⟩) ↔
    ∃ p, (0 : BitVec 64).toNat ≤ p ∧ p < (0 : BitVec 64).toNat + [104,105].length ∧ capacity ≤ p/bsize :=
  (limitMatchesMap diskLayer ⟨flat smallImage 64,emptyFile⟩ (by decide) (by decide) (by decide)).mpr (Or.inl (by decide))

theorem limitTooLow :
    run cacheLayer (inodeWrite 0 (List.replicate (fsMaxfileSize+1) 0) 0) ⟨smallStore,emptyFile⟩ = .ok (-enxio,⟨smallStore,emptyFile⟩) ∧
      ∀ p < fsMaxfileSize + 1, p/bsize < capacity := by
  have length : (List.replicate (fsMaxfileSize+1) (0 : UInt8)).length = fsMaxfileSize+1 := List.length_replicate
  refine ⟨runWriteRefused (show (emptyFile.inode 0).iMode ≠ fsImodeDev by decide) (by rw [length]; decide) (Or.inr (Or.inr ?_)),
    fun p below => ?_⟩
  · rw [length]
    exact Nat.lt_add_left _ (Nat.lt_succ_self _)
  · have := show fsMaxfileSize < capacity*bsize by decide
    exact Nat.div_lt_of_lt_mul (by rw [Nat.mul_comm]; omega)

def Same (ip : Nat) (size : BitVec 64) (k m : Kernel) : Prop := ∃ addr, m = k.withInode ip {k.inode ip with iAddr := addr, iSize := size}

section Memory
variable {s : State} {l m : Kernel} {size : BitVec 64}

theorem sameRefl : Same ip (k.inode ip).iSize k k := ⟨(k.inode ip).iAddr,by simp [Kernel.withInode]⟩

theorem sameInode (h : Same ip size k m) : ∃ addr, m.inode ip = {k.inode ip with iAddr := addr, iSize := size} := by
  obtain ⟨addr,rfl⟩ := h
  exact ⟨addr,by simp [Kernel.withInode]⟩

theorem sameSize (h : Same ip size k m) : (m.inode ip).iSize = size := by
  obtain ⟨addr,same⟩ := sameInode h
  rw [same]

theorem sameTrans {size'} (h : Same ip size k l) (g : Same ip size' l m) : Same ip size' k m := by
  obtain ⟨addr,rfl⟩ := h
  obtain ⟨addr',rfl⟩ := g
  exact ⟨addr',by simp [Kernel.withInode]⟩

inductive Mapped (x : Inode) (t : Disk) : Disk → Prop where
  | old : Mapped x t t
  | fresh {c : Nat} {v : Disk} (cleared : Cleared t c v) : Mapped x t v
  | entry {i b : Nat} {v : Disk} {d : Block} (slot : i < fsIaddrInDirectNr)
      (attached : addrAt x.iAddr (i + fsIaddrInDirectMin) ≠ 0) (cleared : Cleared t b v) :
      Mapped x t (leave v (addrAt x.iAddr (i + fsIaddrInDirectMin)).toNat d)
  | both {blk b : Nat} {v v' : Disk} {d : Block} (index : Cleared t blk v) (cleared : Cleared v b v') : Mapped x t (leave v' blk d)

theorem bmapOk (ok : run diskLayer (bmap ip n) s = .ok (b,u)) :
    Same ip (s.mem.inode ip).iSize s.mem u.mem ∧ Mapped (s.mem.inode ip) s.disk u.disk := by
  by_cases direct : n < fsIaddrDirectNr
  · obtain ⟨_,_,first,ok⟩ := runCut ok
    cases first
    simp only [if_pos direct] at ok
    split at ok
    · obtain ⟨found,v,find,rest⟩ := runCut ok
      rcases clearedFind find with rfl | ⟨f,rfl,bound,idle,rfl⟩
      · cases rest
      · have slot : n < fsIaddrNr := direct.trans (by decide)
        have free : (setMapBit s.disk (superOf s.disk.view).bitmapStart f).held ((superOf s.disk.view).sFirstdataBlock.toNat + f) = none := idle.free
        simp only [setAddr,dif_pos slot,editInode,runBind,runMemory,runSetMemory,runLeave free,followOk,runPure,Except.ok.injEq,Prod.mk.injEq] at rest
        obtain ⟨rfl,rfl⟩ := rest
        exact ⟨⟨_,rfl⟩,.fresh ⟨⟨f,bound,rfl,rfl⟩,idle⟩⟩
    · obtain ⟨_,rfl⟩ := Prod.mk.inj (Except.ok.inj ok)
      exact ⟨sameRefl,.old⟩
  · by_cases inside : n < fsIaddrDirectNr + fsIaddrInDirectNr*iaddrsPerBlock
    · rw [bmapIndirect (by omega) inside] at ok
      obtain ⟨blk,v,index,entry⟩ := runCut ok
      obtain ⟨mem,_,_,stored⟩ := mapEntryOk entry
      rw [mem]
      have slot : (n - fsIaddrDirectNr)/iaddrsPerBlock < fsIaddrInDirectNr := Nat.div_lt_of_lt_mul (by rw [Nat.mul_comm]; omega)
      rcases indexOk index with ⟨rfl,attached,place⟩ | ⟨_,cleared,addr,same⟩
      · refine ⟨sameRefl,?_⟩
        rcases stored with ⟨_,same,_⟩ | ⟨_,_,x,cleared,same⟩
        · rw [same]
          exact .old
        · rw [same,place]
          exact .entry slot attached cleared
      · refine ⟨⟨addr,same⟩,?_⟩
        rcases stored with ⟨_,same,_⟩ | ⟨_,_,x,second,same⟩
        · rw [same]
          exact .fresh cleared
        · rw [same]
          exact .both cleared second
    · rw [bmapBeyond (by omega)] at ok
      obtain ⟨_,rfl⟩ := Prod.mk.inj (Except.ok.inj ok)
      exact ⟨sameRefl,.old⟩

theorem updateOk {a} (ok : run diskLayer (inodeUpdate ip) s = .ok (a,u)) : u.mem = s.mem := by
  obtain ⟨_,_,first,ok⟩ := runCut ok
  cases first
  obtain ⟨⟨blk,index⟩,_,read,ok⟩ := runCut ok
  obtain ⟨sb,_,super,read⟩ := runCut read
  obtain ⟨_,_,rfl,rfl⟩ := runSuperblockOk super
  obtain ⟨_,_,read,done⟩ := runCut read
  obtain ⟨_,_,rfl⟩ := runBreadOk read
  obtain ⟨place,rfl⟩ := Prod.mk.inj (Except.ok.inj done)
  obtain ⟨rfl,rfl⟩ := Prod.mk.inj place
  simp only [runBind,runData,followOk,runSet,runWrite] at ok
  exact (runReleaseOk ok).2

theorem growOk {a} (ok : run diskLayer (grow ip size) s = .ok (a,u)) :
    Same ip (if (s.mem.inode ip).iSize < size then size else (s.mem.inode ip).iSize) s.mem u.mem := by
  obtain ⟨_,_,first,ok⟩ := runCut ok
  cases first
  split at ok
  · rename_i more
    rw [if_pos more]
    obtain ⟨_,_,edit,ok⟩ := runCut ok
    cases edit
    rw [updateOk ok]
    exact ⟨_,rfl⟩
  · rename_i enough
    cases ok
    rw [if_neg enough]
    exact sameRefl

end Memory

section Loops
variable {s : State} {off : Nat} {a : Unit}

theorem runWritePass (some : src ≠ []) (small : off < 2^63) (root : (u.mem.inode ip).iDev.toNat = rootDev)
    (ran : run diskLayer (bmap ip (off/bsize)) s = .ok (b,u)) (idle : Idle u.disk b) :
    run diskLayer (writeLoop ip (passes+1) off src) s =
      run diskLayer (writeLoop ip passes (off + min src.length (bsize - off%bsize)) (src.drop (min src.length (bsize - off%bsize))))
        ⟨u.disk.store b (patch (u.disk.view b) (off%bsize) (src.take (min src.length (bsize - off%bsize)))),u.mem⟩ := by
  have free := (idleStore idle (m := b) (patch (u.disk.view b) (off%bsize) (src.take (min src.length (bsize - off%bsize))))).free
  rw [writeLoop,if_neg some,if_neg (by omega)]
  simp only [runBind,ran,followOk,getInode,runMemory,runPure,runBread root idle,runData,runSet,runWrite,runRelease free _ (storeView _).symm]

theorem writePassOk (some : src ≠ []) (ok : run diskLayer (writeLoop ip (passes+1) off src) s = .ok (a,u)) :
    ∃ b v, off < 2^63 ∧ run diskLayer (bmap ip (off/bsize)) s = .ok (b,v) ∧ Idle v.disk b ∧
      run diskLayer (writeLoop ip passes (off + min src.length (bsize - off%bsize)) (src.drop (min src.length (bsize - off%bsize))))
        ⟨v.disk.store b (patch (v.disk.view b) (off%bsize) (src.take (min src.length (bsize - off%bsize)))),v.mem⟩ = .ok (a,u) := by
  have whole := ok
  rw [writeLoop,if_neg some] at ok
  split at ok
  · cases ok
  · obtain ⟨b,v,ran,rest⟩ := runCut ok
    obtain ⟨_,_,first,rest⟩ := runCut rest
    cases first
    obtain ⟨_,_,read,_⟩ := runCut rest
    obtain ⟨root,idle,_⟩ := runBreadOk read
    rw [runWritePass some (by omega) root ran idle] at whole
    exact ⟨b,v,by omega,ran,idle,whole⟩

theorem writeLoopOk (ok : run diskLayer (writeLoop ip passes off src) s = .ok (a,u)) : Same ip (s.mem.inode ip).iSize s.mem u.mem := by
  induction passes generalizing off src s with
  | zero =>
    cases ok
    exact sameRefl
  | succ passes ih =>
    by_cases none : src = []
    · subst none
      cases ok
      exact sameRefl
    obtain ⟨b,v,_,ran,_,rest⟩ := writePassOk none ok
    have first := (bmapOk ran).1
    have last := ih rest
    rw [sameSize first] at last
    exact sameTrans first last

end Loops

structure Kept (sb : Superblock) (t v : Disk) : Prop where
  tables : Tables sb v
  inodes : ∀ n, sb.inodeStart ≤ n → n < tablesEnd sb → v.view n = t.view n

section Kept
variable {v x : Disk} {inum : BitVec 32}

theorem keptTrans (h : Kept sb t v) (g : Kept sb v x) : Kept sb t x :=
  ⟨g.tables,fun n low high => (g.inodes n low high).trans (h.inodes n low high)⟩

theorem keptCleared (h : Tables sb t) (cleared : Cleared t b v) : Kept sb t v := by
  have layout : Layout (superOf t.view) t.size := by
    rw [h.super]
    exact h.layout
  obtain ⟨super,size,held⟩ := clearedGeometry layout cleared
  refine ⟨⟨by rw [size]; exact h.layout,super.trans h.super,by rw [held]; exact h.free⟩,fun n low high => ?_⟩
  obtain ⟨f,bound,rfl,rfl⟩ := cleared.block
  have map := bitmapBlock layout (show f < _ by have := layout.blockMap; omega)
  have start := inodeStartNat h.layout
  rw [← h.super] at low high
  rw [allocatedView layout bound (by omega) high]
  exact setMapView (by omega)

theorem keptOther (h : Tables sb t) (size : v.size = t.size) (held : v.held = t.held) (view : ∀ n < tablesEnd sb, v.view n = t.view n) :
    Kept sb t v := by
  have long := tablesLong h
  refine ⟨⟨by rw [size]; exact h.layout,?_,by rw [held]; exact h.free⟩,fun n _ high => view n high⟩
  rw [superOf,view superBlockBlkNo (by rw [superBlockBlkNo]; omega)]
  exact h.super

theorem keptStore (h : Tables sb t) (high : tablesEnd sb ≤ b) (d : Block) : Kept sb t (t.store b d) :=
  keptOther h rfl rfl fun _ low => Function.update_of_ne (by omega) ..

theorem keptLeave (h : Tables sb t) (high : tablesEnd sb ≤ b) (d : Block) : Kept sb t (leave t b d) :=
  keptOther h rfl rfl fun _ low => leaveView (by omega) d

theorem clearedBehind (h : Tables sb t) (positive : 0 < sb.sFirstdataBlock.toNat) (cleared : Cleared t b v) : tablesEnd sb ≤ b := by
  obtain ⟨layout,rfl,_⟩ := h
  exact clearedHigh layout positive cleared

theorem keptInode (h : Tables sb t) (kept : Kept sb t v) (numbered : inum.toNat < sb.sNinodes.toNat) :
    diskInode v.view inum = diskInode t.view inum := by
  rw [diskInode,diskInode,kept.tables.super,h.super,kept.inodes (inodeBlock sb inum) (Nat.le_add_right _ _) (inodeBlockTable numbered)]

def IndexApart (sb : Superblock) (x : Inode) : Prop := ∀ i < fsIaddrInDirectNr, addrAt x.iAddr (i + fsIaddrInDirectMin) = 0 ∨
  tablesEnd sb ≤ (addrAt x.iAddr (i + fsIaddrInDirectMin)).toNat

theorem keptMapped {y} (h : Tables sb t) (positive : 0 < sb.sFirstdataBlock.toNat) (apart : IndexApart sb y) (mapped : Mapped y t v) :
    Kept sb t v := by
  cases mapped with
  | old => exact ⟨h,fun _ _ _ => rfl⟩
  | fresh cleared => exact keptCleared h cleared
  | entry slot attached cleared =>
    have first := keptCleared h cleared
    exact keptTrans first (keptLeave first.tables ((apart _ slot).resolve_left attached) _)
  | both index cleared =>
    have first := keptCleared h index
    have second := keptCleared first.tables cleared
    exact keptTrans first (keptTrans second (keptLeave second.tables (clearedBehind h positive index) _))

end Kept

inductive Available (change : Disk → Nat → Disk → Prop) (sb : Superblock) (ip : Nat) : Nat → Nat → State → Prop where
  | done {off : Nat} {s : State} : Available change sb ip off 0 s
  | pass {off remains b : Nat} {s u : State} (some : 0 < remains) (apart : IndexApart sb (s.mem.inode ip))
      (ran : run diskLayer (bmap ip (off/bsize)) s = .ok (b,u)) (idle : Idle u.disk b) (high : tablesEnd sb ≤ b)
      (rest : ∀ v, change u.disk b v → Available change sb ip (off + min remains (bsize - off%bsize))
        (remains - min remains (bsize - off%bsize)) ⟨v,u.mem⟩) :
      Available change sb ip off remains s

def writes (t : Disk) (b : Nat) (v : Disk) : Prop := ∃ d, v = t.store b d
def reads (t : Disk) (_ : Nat) (v : Disk) : Prop := v = t

inductive Finds (put : Nat → Nat → Disk → Nat → Disk) (ended : State → Prop) (ip : Nat) : Nat → Nat → State → Prop where
  | done {off : Nat} {s : State} (last : ended s) : Finds put ended ip off 0 s
  | pass {off remains b : Nat} {s u : State} (some : 0 < remains) (small : off < 2^63)
      (ran : run diskLayer (bmap ip (off/bsize)) s = .ok (b,u)) (idle : Idle u.disk b)
      (rest : Finds put ended ip (off + min remains (bsize - off%bsize)) (remains - min remains (bsize - off%bsize))
        ⟨put off remains u.disk b,u.mem⟩) : Finds put ended ip off remains s

def unchanged (_ _ : Nat) (t : Disk) (_ : Nat) : Disk := t

def stored (src : List UInt8) (off remains : Nat) (t : Disk) (b : Nat) : Disk :=
  t.store b (patch (t.view b) (off%bsize) ((src.drop (src.length - remains)).take (min remains (bsize - off%bsize))))

theorem findsNone {put ended ip off s} : Finds put ended ip off 0 s ↔ ended s := by
  refine ⟨fun found => ?_,.done⟩
  cases found with
  | done last => exact last
  | pass some => exact absurd rfl some.ne

section Available
variable {off remains : Nat} {s : State}

theorem sameRoot {size k m} (same : Same ip size k m) (root : (k.inode ip).iDev.toNat = rootDev) :
    (m.inode ip).iDev.toNat = rootDev := by
  obtain ⟨addr,inode⟩ := sameInode same
  rw [inode]
  exact root

theorem runWriteAvailable (h : Tables sb s.disk) (positive : 0 < sb.sFirstdataBlock.toNat) (root : (s.mem.inode ip).iDev.toNat = rootDev)
    (enough : src.length ≤ passes) (small : off + src.length < 2^63) (available : Available writes sb ip off src.length s) :
    ∃ u, run diskLayer (writeLoop ip passes off src) s = .ok ((),u) ∧ Same ip (s.mem.inode ip).iSize s.mem u.mem ∧ Kept sb s.disk u.disk := by
  induction passes generalizing off src s with
  | zero =>
    obtain rfl : src = [] := List.length_eq_zero_iff.mp (by omega)
    exact ⟨s,rfl,sameRefl,h,fun _ _ _ => rfl⟩
  | succ passes ih =>
    by_cases none : src = []
    · subst none
      exact ⟨s,rfl,sameRefl,h,fun _ _ _ => rfl⟩
    have positive' : 0 < src.length := List.length_pos_of_ne_nil none
    have some : 0 < min src.length (bsize - off%bsize) := by
      simp only [bsize]
      omega
    generalize length : src.length = remains at available
    cases available with
    | done => omega
    | @pass _ _ b _ u _ apart ran idle high rest =>
      obtain ⟨same,mapped⟩ := bmapOk ran
      have kept := keptMapped h positive apart mapped
      have stored := keptStore kept.tables high (patch (u.disk.view b) (off%bsize) (src.take (min src.length (bsize - off%bsize))))
      have tail : (src.drop (min src.length (bsize - off%bsize))).length = src.length - min src.length (bsize - off%bsize) := List.length_drop
      have left := rest _ ⟨patch (u.disk.view b) (off%bsize) (src.take (min src.length (bsize - off%bsize))),rfl⟩
      rw [← length,← tail] at left
      obtain ⟨v,final,same',kept'⟩ := ih (s := ⟨_,u.mem⟩) stored.tables (sameRoot same root)
        (by omega) (show off + min src.length (bsize - off%bsize) + (src.drop (min src.length (bsize - off%bsize))).length < 2^63 by omega) left
      rw [runWritePass none (by omega) (sameRoot same root) ran idle]
      rw [sameSize same] at same'
      exact ⟨v,final,sameTrans same same',keptTrans kept (keptTrans stored kept')⟩

theorem readLoopFinds (root : (s.mem.inode ip).iDev.toNat = rootDev) (enough : remains ≤ passes) :
    (∃ r, run diskLayer (readLoop ip passes off remains) s = .ok r) ↔ Finds unchanged (fun _ => True) ip off remains s := by
  induction passes generalizing off remains s with
  | zero =>
    obtain rfl : remains = 0 := by omega
    exact iff_of_true ⟨_,rfl⟩ (.done trivial)
  | succ passes ih =>
    by_cases none : remains = 0
    · subst none
      exact iff_of_true ⟨_,rfl⟩ (.done trivial)
    have some : 0 < min remains (bsize - off%bsize) := by
      simp only [bsize]
      omega
    refine ⟨fun returned => ?_,fun found => ?_⟩
    · obtain ⟨r,ok⟩ := returned
      rw [readLoop,if_neg none] at ok
      split at ok
      · cases ok
      obtain ⟨b,u,ran,ok⟩ := runCut ok
      obtain ⟨_,_,get,ok⟩ := runCut ok
      cases get
      obtain ⟨_,_,read,ok⟩ := runCut ok
      obtain ⟨root',idle,rfl⟩ := runBreadOk read
      simp only [runBind,runData,followOk,runRelease idle.free _ rfl] at ok
      obtain ⟨_,_,rest,_⟩ := followReturns ok
      exact .pass (by omega) (by omega) ran idle ((ih root' (by omega)).mp ⟨_,rest⟩)
    · cases found with
      | done => exact absurd rfl none
      | @pass _ _ b _ u _ small ran idle rest =>
        have root' := sameRoot (bmapOk ran).1 root
        obtain ⟨⟨bytes,v⟩,final⟩ := (ih root' (by omega)).mpr rest
        rw [readLoop,if_neg none,if_neg (by omega)]
        simp only [runBind,ran,followOk,getInode,runMemory,runPure,runBread root' idle,runData,runRelease idle.free _ rfl]
        exact ⟨_,congrArg (follow · _) final⟩

theorem writeLoopFinds {ended} (root : (s.mem.inode ip).iDev.toNat = rootDev) (enough : remains ≤ passes) (left : remains ≤ src.length) :
    (∃ u, run diskLayer (writeLoop ip passes off (src.drop (src.length - remains))) s = .ok ((),u) ∧ ended u) ↔
      Finds (stored src) ended ip off remains s := by
  induction passes generalizing off remains s with
  | zero =>
    obtain rfl : remains = 0 := by omega
    rw [findsNone]
    exact ⟨by rintro ⟨_,⟨⟩,last⟩; exact last,fun last => ⟨s,rfl,last⟩⟩
  | succ passes ih =>
    by_cases none : remains = 0
    · subst none
      rw [findsNone,Nat.sub_zero,List.drop_length]
      exact ⟨by rintro ⟨_,⟨⟩,last⟩; exact last,fun last => ⟨s,rfl,last⟩⟩
    have length : (src.drop (src.length - remains)).length = remains := by
      rw [List.length_drop]
      omega
    have tail : (src.drop (src.length - remains)).drop (min remains (bsize - off%bsize)) =
        src.drop (src.length - (remains - min remains (bsize - off%bsize))) := by
      rw [List.drop_drop]
      exact congrArg (src.drop ·) (by omega)
    have some : src.drop (src.length - remains) ≠ [] := fun empty => by simp [empty] at length; omega
    have step : 0 < min remains (bsize - off%bsize) := by
      simp only [bsize]
      omega
    have fewer : remains - min remains (bsize - off%bsize) ≤ passes := by omega
    have inside : remains - min remains (bsize - off%bsize) ≤ src.length := by omega
    refine ⟨fun returned => ?_,fun found => ?_⟩
    · obtain ⟨u,ok,last⟩ := returned
      obtain ⟨b,v,small,ran,idle,rest⟩ := writePassOk some ok
      rw [length,tail] at rest
      exact .pass (by omega) small ran idle ((ih (s := ⟨stored src off remains v.disk b,v.mem⟩) (sameRoot (bmapOk ran).1 root) fewer inside).mp
        ⟨u,rest,last⟩)
    · cases found with
      | done => exact absurd rfl none
      | @pass _ _ b _ u _ small ran idle rest =>
        have root' := sameRoot (bmapOk ran).1 root
        rw [runWritePass some small root' ran idle,length,tail]
        exact (ih (s := ⟨stored src off remains u.disk b,u.mem⟩) root' fewer inside).mpr rest

theorem availableFinds (small : off + remains < 2^63) (available : Available reads sb ip off remains s) :
    Finds unchanged (fun _ => True) ip off remains s := by
  induction available with
  | done => exact .done trivial
  | pass some apart ran idle high rest ih => exact .pass some (by omega) ran idle (ih _ rfl (by omega))

end Available

section Sizes
variable {s : State} {off : BitVec 64}

theorem grownSize {size end_} (short : end_ < 2^63) :
    (if size < BitVec.ofNat 64 end_ then BitVec.ofNat 64 end_ else size).toNat = max size.toNat end_ := by
  have last := offNat short
  split
  · rename_i more
    rw [BitVec.lt_def] at more
    omega
  · rename_i enough
    rw [BitVec.lt_def] at enough
    omega

theorem writeOk (short : src.length < 2^64) (ok : run diskLayer (inodeWrite ip src off) s = .ok (c,u)) :
    c = -enxio ∧ u = s ∨ c = src.length ∧ off.toNat ≤ (s.mem.inode ip).iSize.toNat ∧ off.toNat + src.length ≤ fsMaxfileSize ∧
      ∃ size, Same ip size s.mem u.mem ∧ size.toNat = max (s.mem.inode ip).iSize.toNat (off.toNat + src.length) := by
  have bound : fsMaxfileSize < 2^63 := by decide
  have file : (s.mem.inode ip).iMode ≠ fsImodeDev := by
    obtain ⟨_,_,first,rest⟩ := runCut ok
    cases first
    obtain ⟨_,_,checked,_⟩ := runCut rest
    exact (runKassertOk checked).1
  by_cases fine : off.toNat ≤ (s.mem.inode ip).iSize.toNat ∧ off.toNat + src.length ≤ fsMaxfileSize
  · obtain ⟨start,limit⟩ := fine
    obtain ⟨count,v,loop,last⟩ := writeReturns file start limit ok
    have same := writeLoopOk loop
    refine Or.inr ⟨count,start,limit,?_⟩
    split at last
    · rename_i none
      cases last
      subst none
      exact ⟨_,same,by rw [List.length_nil]; omega⟩
    · have grown := growOk last
      rw [sameSize same] at grown
      exact ⟨_,sameTrans same grown,grownSize (by omega)⟩
  · rw [runWriteRefused file short (by omega)] at ok
    obtain ⟨rfl,rfl⟩ := Prod.mk.inj (Except.ok.inj ok)
    exact Or.inl ⟨rfl,rfl⟩

theorem runInodeWriteAvailable (h : Tables sb s.disk) (positive : 0 < sb.sFirstdataBlock.toNat) (root : (s.mem.inode ip).iDev.toNat = rootDev)
    (numbered : (s.mem.inode ip).inum.toNat < sb.sNinodes.toNat) (file : (s.mem.inode ip).iMode ≠ fsImodeDev)
    (start : off.toNat ≤ (s.mem.inode ip).iSize.toNat) (limit : off.toNat + src.length ≤ fsMaxfileSize)
    (available : Available writes sb ip off.toNat src.length s) : ∃ u, run diskLayer (inodeWrite ip src off) s = .ok ((src.length : Int),u) ∧
      ((diskInode s.disk.view (s.mem.inode ip).inum).iSize = (s.mem.inode ip).iSize →
        (diskInode u.disk.view (s.mem.inode ip).inum).iSize = (u.mem.inode ip).iSize) := by
  have bound : fsMaxfileSize < 2^63 := by decide
  obtain ⟨v,loop,same,kept⟩ := runWriteAvailable h positive root (Nat.le_refl src.length) (by omega) available
  obtain ⟨addr,inode⟩ := sameInode same
  have before : (diskInode s.disk.view (s.mem.inode ip).inum).iSize = (s.mem.inode ip).iSize →
      (diskInode v.disk.view (s.mem.inode ip).inum).iSize = (v.mem.inode ip).iSize := by
    intro synced
    rw [keptInode h kept numbered,synced,inode]
  have whole := runWriteChecked (L := diskLayer) file start limit
  rw [loop,followOk] at whole
  by_cases none : src = []
  · rw [if_pos none] at whole
    exact ⟨v,whole,before⟩
  rw [if_neg none] at whole
  by_cases more : (v.mem.inode ip).iSize.toNat < (BitVec.ofNat 64 (off.toNat + src.length)).toNat
  · have numbered' : (v.mem.inode ip).inum.toNat < sb.sNinodes.toNat := by
      rw [inode]
      exact numbered
    rw [runGrow kept.tables (sameRoot same root) numbered' more] at whole
    refine ⟨_,whole,fun _ => ?_⟩
    have number : (v.mem.inode ip).inum = (s.mem.inode ip).inum := by rw [inode]
    rw [← number,diskInodePut kept.tables]
    simp [diskCopy,Kernel.withInode]
  · rw [runGrowNone (by omega)] at whole
    exact ⟨v,whole,before⟩

end Sizes

inductive Written (ip : Nat) (w₀ : World Store Kernel) : World Store Kernel → List (Nat × Nat) → Prop where
  | start : Written ip w₀ w₀ []
  | write {w w' : World Store Kernel} {ranges : List (Nat × Nat)} {src : List UInt8} {off : BitVec 64} {c : Int} (before : Written ip w₀ w ranges)
      (short : src.length < 2^64) (ran : run cacheLayer (inodeWrite ip src off) w = .ok (c,w')) :
      Written ip w₀ w' (if c < 0 then ranges else (off.toNat,off.toNat + src.length) :: ranges)
  | other {α : Type} {w w' : World Store Kernel} {ranges : List (Nat × Nat)} {p : Fs α} {a : α} (before : Written ip w₀ w ranges)
      (ran : run cacheLayer p w = .ok (a,w')) (same : (w'.mem.inode ip).iSize = (w.mem.inode ip).iSize) : Written ip w₀ w' ranges

theorem writtenSizes {ip w₀ w t₀ ranges} (matched : Matches w₀.disk t₀)
    (small : (w₀.mem.inode ip).iSize.toNat ≤ fsMaxfileSize) (written : Written ip w₀ w ranges) :
    ∃ t, Matches w.disk t ∧ (w.mem.inode ip).iSize.toNat ≤ fsMaxfileSize ∧
      ∀ p < (w.mem.inode ip).iSize.toNat, p < (w₀.mem.inode ip).iSize.toNat ∨ ∃ r ∈ ranges, r.1 ≤ p ∧ p < r.2 := by
  induction written with
  | start => exact ⟨t₀,matched,small,fun p below => Or.inl below⟩
  | @write w w' ranges src off c before short ran ih =>
    obtain ⟨t,matched,small,covered⟩ := ih
    obtain ⟨u,ok,after⟩ := fromCache matched ran
    refine ⟨u,after,?_⟩
    rcases writeOk short ok with ⟨rfl,same⟩ | ⟨rfl,start,limit,size,same,grown⟩
    · obtain ⟨_,mem⟩ := World.mk.inj same
      rw [mem,if_pos (by decide)]
      exact ⟨small,covered⟩
    · dsimp only at start same grown
      rw [sameSize same,grown,if_neg (by omega)]
      refine ⟨max_le small limit,fun p below => ?_⟩
      by_cases old : p < (w.mem.inode ip).iSize.toNat
      · refine (covered p old).imp_right fun inside => ?_
        obtain ⟨r,mem,inside⟩ := inside
        exact ⟨r,List.mem_cons_of_mem _ mem,inside⟩
      · have bounds : off.toNat ≤ p ∧ p < off.toNat + src.length := by omega
        exact Or.inr ⟨_,List.mem_cons_self,bounds⟩
  | other before ran same ih =>
    obtain ⟨t,matched,small,covered⟩ := ih
    obtain ⟨u,_,after⟩ := fromCache matched ran
    rw [same]
    exact ⟨u,after,small,covered⟩

structure ReadsExactly (sb : Superblock) (ip : Nat) (s : Store) (t : Disk) (k : Kernel) (off counts : BitVec 64) : Prop where
  refused : OutOfRange (k.inode ip).iSize off counts → run cacheLayer (inodeRead ip off counts) ⟨s,k⟩ = .ok ((-enxio,[]),⟨s,k⟩)
  count : ¬ OutOfRange (k.inode ip).iSize off counts → ∀ c dst w, run cacheLayer (inodeRead ip off counts) ⟨s,k⟩ = .ok ((c,dst),w) →
    c = min counts.toNat ((k.inode ip).iSize.toNat - off.toNat)
  returns : ¬ OutOfRange (k.inode ip).iSize off counts →
    Available reads sb ip off.toNat (min counts.toNat ((k.inode ip).iSize.toNat - off.toNat)) ⟨t,k⟩ →
      run cacheLayer (inodeRead ip off counts) ⟨s,k⟩ = .error .noBuffers ∨ ∃ r, run cacheLayer (inodeRead ip off counts) ⟨s,k⟩ = .ok r

def TooLarge (size off : BitVec 64) (len : Nat) : Prop := OutOfRange size off (BitVec.ofNat 64 len) ∨ fsMaxfileSize < off.toNat + len

structure WritesExactly (sb : Superblock) (ip : Nat) (s : Store) (t : Disk) (k : Kernel) (off : BitVec 64) (src : List UInt8) : Prop where
  refused : TooLarge (k.inode ip).iSize off src.length → run cacheLayer (inodeWrite ip src off) ⟨s,k⟩ = .ok (-enxio,⟨s,k⟩)
  count : ¬ TooLarge (k.inode ip).iSize off src.length → ∀ c w, run cacheLayer (inodeWrite ip src off) ⟨s,k⟩ = .ok (c,w) →
    c = src.length ∧ (w.mem.inode ip).iSize.toNat = max (k.inode ip).iSize.toNat (off.toNat + src.length)
  returns : ¬ TooLarge (k.inode ip).iSize off src.length → Available writes sb ip off.toNat src.length ⟨t,k⟩ →
    run cacheLayer (inodeWrite ip src off) ⟨s,k⟩ = .error .noBuffers ∨
      ∃ c w, run cacheLayer (inodeWrite ip src off) ⟨s,k⟩ = .ok (c,w) ∧
        (diskInode (cachedView w.disk) (k.inode ip).inum).iSize = (w.mem.inode ip).iSize

section Exact
variable {s : Store}

theorem readsExactly (matched : Matches s t) (root : (k.inode ip).iDev.toNat = rootDev) (file : (k.inode ip).iMode ≠ fsImodeDev)
    (small : (k.inode ip).iSize.toNat ≤ fsMaxfileSize) (off counts : BitVec 64) : ReadsExactly sb ip s t k off counts := by
  have bound : fsMaxfileSize < 2^63 := by decide
  have range := @outOfRangeIff _ off counts small
  refine ⟨fun out => runReadRefused file (range.mp out),fun inside c dst w ok => ?_,fun inside available => ?_⟩
  · rw [range] at inside
    rw [runReadChecked file (show off.toNat ≤ (k.inode ip).iSize.toNat by omega) (by omega) (by dsimp only; omega)] at ok
    obtain ⟨_,_,_,done⟩ := followReturns ok
    exact (Prod.mk.inj (Prod.mk.inj (Except.ok.inj done)).1).1.symm
  · rw [range] at inside
    obtain ⟨⟨bytes,u⟩,ran⟩ := (readLoopFinds (s := ⟨t,k⟩) root (Nat.le_refl _)).mpr (availableFinds (by omega) available)
    have whole := @runReadChecked ip counts _ diskLayer ⟨t,k⟩ off file (show off.toNat ≤ (k.inode ip).iSize.toNat by omega) (by omega)
      (by dsimp only; omega)
    rw [ran,followOk] at whole
    rcases toCache matched whole with stuck | ⟨s',ok,_⟩
    · exact Or.inl stuck
    · exact Or.inr ⟨_,ok⟩

theorem writesExactly (matched : Matches s t) (tables : Tables sb t) (positive : 0 < sb.sFirstdataBlock.toNat)
    (root : (k.inode ip).iDev.toNat = rootDev) (numbered : (k.inode ip).inum.toNat < sb.sNinodes.toNat)
    (file : (k.inode ip).iMode ≠ fsImodeDev) (small : (k.inode ip).iSize.toNat ≤ fsMaxfileSize)
    (synced : (diskInode (cachedView s) (k.inode ip).inum).iSize = (k.inode ip).iSize) (off : BitVec 64) {src} (short : src.length < 2^64) :
    WritesExactly sb ip s t k off src := by
  have bound : fsMaxfileSize < 2^63 := by decide
  have counts : (BitVec.ofNat 64 src.length).toNat = src.length := by
    rw [BitVec.toNat_ofNat]
    omega
  have range : TooLarge (k.inode ip).iSize off src.length ↔
      (k.inode ip).iSize.toNat < off.toNat ∨ 2^64 ≤ off.toNat + src.length ∨ fsMaxfileSize < off.toNat + src.length := by
    rw [TooLarge,outOfRangeIff small,counts,or_assoc]
  refine ⟨fun out => runWriteRefused file short (range.mp out),fun inside c w ok => ?_,fun inside available => ?_⟩
  · rw [range] at inside
    obtain ⟨u,ok,_⟩ := fromCache matched ok
    rcases writeOk short ok with ⟨rfl,_⟩ | ⟨count,_,_,size,same,grown⟩
    · have := (writeReturns file (show off.toNat ≤ (k.inode ip).iSize.toNat by omega) (by omega) ok).1
      rw [enxio] at this
      omega
    · exact ⟨count,by rw [sameSize same]; exact grown⟩
  · rw [range] at inside
    rw [matchesView matched] at synced
    obtain ⟨u,ran,after⟩ := runInodeWriteAvailable (s := ⟨t,k⟩) tables positive root numbered file (by dsimp only; omega) (by omega) available
    rcases toCache matched ran with stuck | ⟨s',ok,matched'⟩
    · exact Or.inl stuck
    · refine Or.inr ⟨_,_,ok,?_⟩
      rw [matchesView matched']
      exact after synced

theorem sizesExact (matched : Matches s t) (tables : Tables sb t) (positive : 0 < sb.sFirstdataBlock.toNat)
    (root : (k.inode ip).iDev.toNat = rootDev) (numbered : (k.inode ip).inum.toNat < sb.sNinodes.toNat)
    (file : (k.inode ip).iMode ≠ fsImodeDev) (small : (k.inode ip).iSize.toNat ≤ fsMaxfileSize)
    (synced : (diskInode (cachedView s) (k.inode ip).inum).iSize = (k.inode ip).iSize) :
    (∀ off counts, ReadsExactly sb ip s t k off counts) ∧
    (∀ off src, src.length < 2^64 → WritesExactly sb ip s t k off src) ∧
    ∀ w ranges, Written ip ⟨s,k⟩ w ranges → (w.mem.inode ip).iSize.toNat ≤ fsMaxfileSize ∧
      ((k.inode ip).iSize = 0 → ∀ p < (w.mem.inode ip).iSize.toNat, ∃ r ∈ ranges, r.1 ≤ p ∧ p < r.2) := by
  refine ⟨readsExactly matched root file small,fun off src short => writesExactly matched tables positive root numbered file small synced off short,
    fun w ranges written => ?_⟩
  obtain ⟨_,_,kept,covered⟩ := writtenSizes matched small written
  refine ⟨kept,fun empty p below => (covered p below).resolve_left ?_⟩
  dsimp only
  rw [empty]
  exact Nat.not_lt_zero p

end Exact

theorem emptyFileTables : Tables ⟨64,16,1,1,10,53,Mkfs.fsMagicNr⟩ (flat smallImage 64) := by
  refine ⟨?_,smallSuper,fun _ _ _ => rfl⟩
  rw [← smallSuper]
  exact smallLayout

theorem emptyFileAvailable : Available writes ⟨64,16,1,1,10,53,Mkfs.fsMagicNr⟩ 0 0 2 ⟨flat smallImage 64,emptyFile⟩ := by
  have super : superOf (flat smallImage 64).view = ⟨64,16,1,1,10,53,Mkfs.fsMagicNr⟩ := smallSuper
  have fresh := runFresh (k := emptyFile) (n := 0) (f := 1) emptyFileMapping (by decide) (by decide) (by rw [super]; decide) (by decide)
    (by decide +kernel)
    (by decide +kernel)
  rw [super] at fresh
  exact .pass (by decide) (by unfold IndexApart; decide) fresh ⟨rfl,by decide⟩ (by decide) fun _ _ => .done

theorem emptyFileWritten : ∃ w, run cacheLayer (inodeWrite 0 [104,105] 0) ⟨smallStore,emptyFile⟩ = .ok (2,w) ∧
    (w.mem.inode 0).iSize.toNat = 2 ∧
    (diskInode (cachedView w.disk) 0).iSize = (w.mem.inode 0).iSize := by
  have matched : Matches smallStore (flat smallImage 64) := bootMatches smallImage 64
  have synced : (diskInode (cachedView smallStore) (emptyFile.inode 0).inum).iSize = (emptyFile.inode 0).iSize := by
    rw [matchesView matched]
    decide +kernel
  obtain ⟨_,writes,_⟩ := sizesExact matched emptyFileTables (by decide) (by decide) (by decide) (by decide) (by decide) synced
  have checked := writes 0 [104,105] (by decide)
  have fine : ¬ TooLarge (emptyFile.inode 0).iSize 0 [104,105].length := by
    rw [TooLarge,OutOfRange]
    decide
  rcases checked.returns fine emptyFileAvailable with stuck | ⟨c,w,ran,disk⟩
  · exact absurd stuck (smallReady (by decide) (by decide +kernel))
  · obtain ⟨rfl,size⟩ := checked.count fine c w ran
    exact ⟨w,ran,size,disk⟩

def fullImage : Mkfs.Image := Function.update smallImage (superOf smallImage).bitmapStart fun _ => 255

def oneByteFile : Kernel := emptyFile.withInode 0 {emptyFile.inode 0 with iSize := 1}

theorem unmappedReadStops : ¬ OutOfRange (oneByteFile.inode 0).iSize 0 1 ∧ (oneByteFile.inode 0).iSize.toNat ≤ fsMaxfileSize ∧
    fault (run cacheLayer (inodeRead 0 0 1) ⟨boot fullImage 64,oneByteFile⟩) = some .assertion := by
  refine ⟨by rw [OutOfRange]; decide,by decide,?_⟩
  rw [(smallRun (by decide) _ _).2]
  decide +kernel

end TskSw.FileSizes
