import TskSw.DataBlocks

/-! `bmap` of `fs/inode.c`. The caller's block number is 0 before the call. Behind the
direct blocks the code rebases the number and then uses the rebased number everywhere:
as the slot of a new index block and as the entry of whichever index block covers it. -/
namespace TskSw.Bmap
open Bytes BlockProgram BlkIo BlkFlat FsLayout FsKernel DataBitmap DataBlocks

def setAddr (ip k b : Nat) : Fs Unit :=
  if h : k < fsIaddrNr then editInode ip (fun x => x.withAddr ⟨k,h⟩ b)
  else abort .outOfBounds

def indexBlock (ip k : Nat) : Fs Nat := do
  let x ← getInode ip
  let blk := (addrAt x.iAddr (k/iaddrsPerBlock + fsIaddrInDirectMin)).toNat
  if blk = 0 then
    match ← findFreeDataBlock x.iDev with
    | none => abort .assertion
    | some b => do
        setAddr ip k b
        releaseBlock b
        pure b
  else pure blk

def mapEntry (dev : BitVec 64) (blk k : Nat) : Fs Nat := do
  bread dev blk
  let idx ← blockData blk
  if iaddrsPerBlock ≤ k then abort .outOfBounds
  else if chunk idx k = 0 then
    match ← findFreeDataBlock dev with
    | none => abort .assertion
    | some b => do
        setBlock blk (setChunk idx k (BitVec.ofNat 64 b))
        releaseBlock b
        releaseBlock blk
        pure b
  else do
    releaseBlock blk
    pure (chunk idx k).toNat

def bmap (ip n : Nat) : Fs Nat := do
  let x ← getInode ip
  if n < fsIaddrDirectNr then
    let blk := (addrAt x.iAddr n).toNat
    if blk = 0 then
      match ← findFreeDataBlock x.iDev with
      | none => abort .assertion
      | some b => do
          setAddr ip n b
          releaseBlock b
          pure b
    else pure blk
  else
    let k := n - fsIaddrDirectNr
    if k < fsIaddrInDirectNr*iaddrsPerBlock then do
      let blk ← indexBlock ip k
      mapEntry x.iDev blk k
    else pure 0

def mapped (view : Nat → Block) (x : Inode) (n : Nat) : Nat :=
  if n < fsIaddrDirectNr then (addrAt x.iAddr n).toNat
  else if addrAt x.iAddr fsIaddrInDirectMin = 0 then 0
  else (chunk (view (addrAt x.iAddr fsIaddrInDirectMin).toNat) (n - fsIaddrDirectNr)).toNat

def mappable : Nat := fsIaddrDirectNr + iaddrsPerBlock

def Taken (view : Nat → Block) (b : Nat) : Prop :=
  ∃ i < (superOf view).sNblocks.toNat, b = (superOf view).sFirstdataBlock.toNat + i ∧ dataBit view i = true

structure Mapping (t : Disk) (x : Inode) : Prop where
  layout : Layout (superOf t.view) t.size
  quiet : ∀ n, t.held n = none
  positive : 0 < (superOf t.view).sFirstdataBlock.toNat
  root : x.iDev = devRoot
  index : addrAt x.iAddr fsIaddrInDirectMin ≠ 0 → Taken t.view (addrAt x.iAddr fsIaddrInDirectMin).toNat
  taken : ∀ n < mappable, mapped t.view x n ≠ 0 → Taken t.view (mapped t.view x n)
  distinct : ∀ n < mappable, ∀ m < mappable, mapped t.view x n ≠ 0 → mapped t.view x n = mapped t.view x m → n = m

theorem mappingSame {t x y} (h : Mapping t x) (dev : y.iDev = x.iDev) (addr : y.iAddr = x.iAddr) : Mapping t y := by
  cases x
  cases y
  cases dev
  cases addr
  exact ⟨h.layout,h.quiet,h.positive,h.root,h.index,h.taken,h.distinct⟩

def Served (view : Nat → Block) (x : Inode) (n : Nat) : Prop :=
  n < mappable ∧ (mapped view x n ≠ 0 ∨
    n < fsIaddrDirectNr ∧ ∃ i < (superOf view).sNblocks.toNat, i < 512 ∧ dataBit view i = false)

variable {t : Disk} {k : Kernel} {ip n f : Nat} {x : Inode} {s : State}

section Disk

theorem runMapped (h : Mapping t (k.inode ip)) (small : n < mappable) (hit : mapped t.view (k.inode ip) n ≠ 0) :
    run diskLayer (bmap ip n) ⟨t,k⟩ = .ok (mapped t.view (k.inode ip) n,⟨t,k⟩) := by
  by_cases direct : n < fsIaddrDirectNr
  · simp only [mapped,if_pos direct] at hit ⊢
    simp [bmap,getInode,direct,hit]
  · have offset : n - fsIaddrDirectNr < iaddrsPerBlock := by
      simp only [mappable,fsIaddrDirectNr,iaddrsPerBlock,bsize] at small ⊢
      omega
    have slot : (n - fsIaddrDirectNr)/iaddrsPerBlock + fsIaddrInDirectMin = fsIaddrInDirectMin := by
      rw [Nat.div_eq_of_lt offset,Nat.zero_add]
    have range : n - fsIaddrDirectNr < fsIaddrInDirectNr*iaddrsPerBlock := by
      simp only [fsIaddrInDirectNr]
      omega
    have attached : addrAt (k.inode ip).iAddr fsIaddrInDirectMin ≠ 0 := by
      intro none
      simp [mapped,direct,none] at hit
    simp only [mapped,if_neg direct,if_neg attached] at hit ⊢
    have blk : (addrAt (k.inode ip).iAddr fsIaddrInDirectMin).toNat ≠ 0 := by
      intro zero
      exact attached (BitVec.eq_of_toNat_eq (by simpa using zero))
    have idle : Idle t (addrAt (k.inode ip).iAddr fsIaddrInDirectMin).toNat := by
      obtain ⟨i,inside,same,_⟩ := h.index attached
      refine ⟨h.quiet _,?_⟩
      have := h.layout.data
      omega
    have entry : ¬ chunk (t.view (addrAt (k.inode ip).iAddr fsIaddrInDirectMin).toNat) (n - fsIaddrDirectNr) = 0 := by
      intro zero
      simp [zero] at hit
    have dev : (k.inode ip).iDev.toNat = rootDev := by rw [h.root]; exact devRootNat
    have off : ¬ iaddrsPerBlock ≤ n - fsIaddrDirectNr := by omega
    simp only [bmap,indexBlock,mapEntry,getInode,runBind,runMemory,runPure,followOk,if_neg direct,if_pos range,slot,
      if_neg blk,runBread dev idle,runData,if_neg off,if_neg entry,runRelease idle.free _ rfl]

theorem runFresh (h : Mapping t (k.inode ip)) (direct : n < fsIaddrDirectNr) (none : addrAt (k.inode ip).iAddr n = 0)
    {f} (bound : f < (superOf t.view).sNblocks.toNat) (small : f < 512) (clear : dataBit t.view f = false)
    (set : ∀ j < f, dataBit t.view j = true) :
    run diskLayer (bmap ip n) ⟨t,k⟩ =
      .ok ((superOf t.view).sFirstdataBlock.toNat + f,
        ⟨allocated t f,k.withInode ip ((k.inode ip).withAddr ⟨n,direct.trans (by decide)⟩
          ((superOf t.view).sFirstdataBlock.toNat + f))⟩) := by
  have slot : n < fsIaddrNr := direct.trans (by decide)
  have find := runFind (k := k) h.layout h.quiet bound small clear set
  have free := (layoutBlock h.layout h.quiet bound).free
  simp only [bmap,getInode,runBind,runMemory,runPure,followOk,if_pos direct,none,BitVec.toNat_ofNat,Nat.zero_mod,
    if_true,h.root,find,setAddr,dif_pos slot,editInode,runSetMemory,runLeave free,allocated,
    BitVec.ofNat_eq_ofNat]

end Disk

section Fresh

theorem takenAllocated (layout : Layout (superOf t.view) t.size) (bound : f < (superOf t.view).sNblocks.toNat)
    (reach : reachable f) {b} (taken : Taken t.view b) : Taken (allocated t f).view b := by
  obtain ⟨i,inside,same,bit⟩ := taken
  refine ⟨i,by rw [allocatedSuper layout bound]; exact inside,by rw [allocatedSuper layout bound]; exact same,?_⟩
  rw [allocatedBit layout bound reach (by have := layout.blockMap; omega),bit,Bool.or_true]

theorem freshTaken (layout : Layout (superOf t.view) t.size) (bound : f < (superOf t.view).sNblocks.toNat)
    (reach : reachable f) : Taken (allocated t f).view ((superOf t.view).sFirstdataBlock.toNat + f) := by
  refine ⟨f,by rw [allocatedSuper layout bound]; exact bound,by rw [allocatedSuper layout bound],?_⟩
  rw [allocatedBit layout bound reach (by have := layout.blockMap; omega)]
  simp

theorem mappedFresh (h : Mapping t x) (direct : n < fsIaddrDirectNr) (bound : f < (superOf t.view).sNblocks.toNat)
    (clear : dataBit t.view f = false) (m : Nat) :
    mapped (allocated t f).view
        (x.withAddr ⟨n,direct.trans (by decide)⟩ ((superOf t.view).sFirstdataBlock.toNat + f)) m =
      if m = n then (superOf t.view).sFirstdataBlock.toNat + f else mapped t.view x m := by
  have fits : (BitVec.ofNat 64 ((superOf t.view).sFirstdataBlock.toNat + f)).toNat =
      (superOf t.view).sFirstdataBlock.toNat + f := by
    rw [BitVec.toNat_ofNat]
    have := (superOf t.view).sFirstdataBlock.isLt
    have := (superOf t.view).sNblocks.isLt
    omega
  have addr : ∀ j, addrAt (Function.update x.iAddr ⟨n,direct.trans (by decide)⟩
      (BitVec.ofNat 64 ((superOf t.view).sFirstdataBlock.toNat + f))) j =
      if j = n then BitVec.ofNat 64 ((superOf t.view).sFirstdataBlock.toNat + f) else addrAt x.iAddr j := by
    intro j
    by_cases same : j = n
    · subst same
      have : j < fsIaddrNr := direct.trans (by decide)
      simp [addrAt,this]
    · unfold addrAt
      by_cases inside : j < fsIaddrNr
      · have : (⟨j,inside⟩ : Fin fsIaddrNr) ≠ ⟨n,direct.trans (by decide)⟩ := by simp [same]
        simp [inside,this,same]
      · simp [inside,same]
  have slot : fsIaddrInDirectMin ≠ n := by
    simp only [fsIaddrInDirectMin]
    omega
  unfold mapped Inode.withAddr
  simp only [addr,if_neg slot]
  by_cases same : m = n
  · subst same
    simp [direct,fits]
  · simp only [if_neg same]
    by_cases low : m < fsIaddrDirectNr
    · simp [low]
    · by_cases none : addrAt x.iAddr fsIaddrInDirectMin = 0
      · simp [low,none]
      · obtain ⟨i,inside,block,bit⟩ := h.index none
        have apart : i ≠ f := by
          rintro rfl
          rw [bit] at clear
          cases clear
        simp only [if_neg low,if_neg none]
        rw [block,allocatedData h.layout bound inside apart]

theorem mappingFresh (h : Mapping t x) (direct : n < fsIaddrDirectNr) (bound : f < (superOf t.view).sNblocks.toNat)
    (reach : reachable f) (clear : dataBit t.view f = false) :
    Mapping (allocated t f)
      (x.withAddr ⟨n,direct.trans (by decide)⟩ ((superOf t.view).sFirstdataBlock.toNat + f)) := by
  have super := allocatedSuper h.layout bound
  have map := mappedFresh h direct bound clear
  have slot : addrAt (x.withAddr ⟨n,direct.trans (by decide)⟩ ((superOf t.view).sFirstdataBlock.toNat + f)).iAddr
      fsIaddrInDirectMin = addrAt x.iAddr fsIaddrInDirectMin := by
    have other : (⟨fsIaddrInDirectMin,by decide⟩ : Fin fsIaddrNr) ≠ ⟨n,direct.trans (by decide)⟩ := by
      simp only [ne_eq,Fin.mk.injEq,fsIaddrInDirectMin]
      omega
    have inside : fsIaddrInDirectMin < fsIaddrNr := by decide
    simp only [addrAt,Inode.withAddr,dif_pos inside,Function.update_of_ne other]
  have fresh : ∀ m < mappable, mapped t.view x m ≠ 0 → mapped t.view x m ≠ (superOf t.view).sFirstdataBlock.toNat + f := by
    intro m below hit same
    obtain ⟨i,_,block,bit⟩ := h.taken m below hit
    have : i = f := by omega
    rw [this,clear] at bit
    cases bit
  refine ⟨by rw [super]; exact h.layout,h.quiet,by rw [super]; exact h.positive,h.root,?_,?_,?_⟩
  · rw [slot]
    exact fun attached => takenAllocated h.layout bound reach (h.index attached)
  · intro m below hit
    rw [map m] at hit ⊢
    by_cases same : m = n
    · rw [if_pos same]
      exact freshTaken h.layout bound reach
    · rw [if_neg same] at hit ⊢
      exact takenAllocated h.layout bound reach (h.taken m below hit)
  · intro a ha b hb hit same
    rw [map a] at hit
    rw [map a,map b] at same
    by_cases left : a = n
    · by_cases right : b = n
      · omega
      · rw [if_pos left,if_neg right] at same
        exact absurd same.symm (fresh b hb (by have := h.positive; omega))
    · rw [if_neg left] at hit same
      by_cases right : b = n
      · rw [if_pos right] at same
        exact absurd same (fresh a ha hit)
      · rw [if_neg right] at same
        exact h.distinct a ha b hb hit same

end Fresh

def touch (m : Nat) (store : Bool) : Fs Unit := do
  readBlock m
  if store then writeBlock m
  releaseBlock m

theorem runTouchOk {u : State} {m store a} (ok : run diskLayer (touch m store) s = .ok (a,u)) :
    u.disk.view = s.disk.view ∧ u.disk.held = s.disk.held ∧ u.disk.size = s.disk.size ∧ u.mem = s.mem := by
  obtain ⟨_,v,first,rest⟩ := runCut ok
  obtain ⟨idle,rfl⟩ := runReadOk first
  cases store with
  | false =>
    simp only [Bool.false_eq_true,if_false,runRelease idle.free _ rfl] at rest
    cases rest
    exact ⟨rfl,rfl,rfl,rfl⟩
  | true =>
    have stored := idleStore idle (m := m) (s.disk.view m)
    simp only [if_true,runBind,runWrite,followOk,runRelease stored.free _ (storeView _).symm] at rest
    cases rest
    refine ⟨?_,rfl,rfl,rfl⟩
    simp [Disk.store]

inductive Bmapped (ip : Nat) (w₀ : World Store Kernel) : World Store Kernel → List (Nat × Nat) → Prop where
  | start : Bmapped ip w₀ w₀ []
  | call {w w' : World Store Kernel} {seen : List (Nat × Nat)} {n b : Nat} (before : Bmapped ip w₀ w seen)
      (served : Served (cachedView w.disk) (w.mem.inode ip) n) (ran : run cacheLayer (bmap ip n) w = .ok (b,w')) :
      Bmapped ip w₀ w' ((n,b) :: seen)
  | recycle {w w' : World Store Kernel} {seen : List (Nat × Nat)} {m : Nat} {store : Bool} (before : Bmapped ip w₀ w seen)
      (ran : run cacheLayer (touch m store) w = .ok ((),w')) : Bmapped ip w₀ w' seen

def coveringSlot (n : Nat) : Nat :=
  if n < fsIaddrDirectNr then n else (n - fsIaddrDirectNr)/iaddrsPerBlock + fsIaddrInDirectMin

inductive Got (t : Disk) (k : Kernel) (ip n : Nat) : Nat → Disk → Kernel → Prop where
  | old (hit : mapped t.view (k.inode ip) n ≠ 0) : Got t k ip n (mapped t.view (k.inode ip) n) t k
  | fresh {f : Nat} (direct : n < fsIaddrDirectNr) (none : addrAt (k.inode ip).iAddr n = 0)
      (bound : f < (superOf t.view).sNblocks.toNat) (reach : reachable f) (clear : dataBit t.view f = false) :
      Got t k ip n ((superOf t.view).sFirstdataBlock.toNat + f) (allocated t f)
        (k.withInode ip ((k.inode ip).withAddr ⟨n,direct.trans (by decide)⟩ ((superOf t.view).sFirstdataBlock.toNat + f)))

section Got
variable {u : Disk} {m : Kernel} {b : Nat}

theorem unmapped (direct : n < fsIaddrDirectNr) (none : mapped t.view (k.inode ip) n = 0) : addrAt (k.inode ip).iAddr n = 0 := by
  simp only [mapped,if_pos direct] at none
  exact BitVec.eq_of_toNat_eq (by simpa using none)

theorem gotServed (h : Mapping t (k.inode ip)) (served : Served t.view (k.inode ip) n) :
    ∃ b u m, run diskLayer (bmap ip n) ⟨t,k⟩ = .ok (b,⟨u,m⟩) ∧ Got t k ip n b u m := by
  by_cases hit : mapped t.view (k.inode ip) n = 0
  · obtain ⟨direct,i,bound,small,clear⟩ := served.2.resolve_left (fun ne => ne hit)
    obtain ⟨f,below,clear,set⟩ := firstClear clear
    have none := unmapped direct hit
    exact ⟨_,_,_,runFresh h direct none (by omega) (by omega) clear set,
      .fresh direct none (by omega) (reachableSmall (by omega)) clear⟩
  · exact ⟨_,t,k,runMapped h served.1 hit,.old hit⟩

theorem gotDirect (root : (k.inode ip).iDev = devRoot) (direct : n < fsIaddrDirectNr)
    (ok : run diskLayer (bmap ip n) ⟨t,k⟩ = .ok (b,s)) : Got t k ip n b s.disk s.mem := by
  have slot : n < fsIaddrNr := direct.trans (by decide)
  have place : mapped t.view (k.inode ip) n = (addrAt (k.inode ip).iAddr n).toNat := by rw [mapped,if_pos direct]
  obtain ⟨_,_,first,ok⟩ := runCut ok
  cases first
  by_cases empty : (addrAt (k.inode ip).iAddr n).toNat = 0
  · simp only [if_pos direct,if_pos empty,root] at ok
    obtain ⟨found,v,find,rest⟩ := runCut ok
    rcases runFindOk find with ⟨rfl,rfl⟩ | ⟨f,w,rfl,bound,taken,idle,rfl⟩
    · cases rest
    · simp only [setAddr,dif_pos slot,editInode,runBind,runMemory,runPure,runSetMemory,followOk,
        runLeave idle.free,Except.ok.injEq,Prod.mk.injEq] at rest
      obtain ⟨rfl,rfl⟩ := rest
      have result : w.disk = setMapBit t (superOf t.view).bitmapStart f := by rw [taken.result]
      dsimp only
      rw [result]
      exact .fresh direct (unmapped direct (place.trans empty)) bound taken.reach taken.clear
  · simp only [if_pos direct,if_neg empty] at ok
    cases ok
    rw [← place] at empty ⊢
    exact .old empty

theorem gotOk (h : Mapping t (k.inode ip)) (small : n < mappable) (here : n < fsIaddrDirectNr ∨ mapped t.view (k.inode ip) n ≠ 0)
    (ok : run diskLayer (bmap ip n) ⟨t,k⟩ = .ok (b,s)) : Got t k ip n b s.disk s.mem := by
  rcases here with direct | hit
  · exact gotDirect h.root direct ok
  · rw [runMapped h small hit] at ok
    cases ok
    exact .old hit

theorem gotMapping (h : Mapping t (k.inode ip)) (got : Got t k ip n b u m) :
    b ≠ 0 ∧ Mapping u (m.inode ip) ∧ ∀ j, mapped u.view (m.inode ip) j = if j = n then b else mapped t.view (k.inode ip) j := by
  cases got with
  | old hit =>
    refine ⟨hit,h,fun j => ?_⟩
    split
    · rename_i same
      rw [same]
    · rfl
  | fresh direct none bound reach clear =>
    have inode : ∀ x, (k.withInode ip x).inode ip = x := by simp [Kernel.withInode]
    rw [inode]
    refine ⟨?_,mappingFresh h direct bound reach clear,mappedFresh h direct bound clear⟩
    have := h.positive
    omega

theorem gotOld (got : Got t k ip n b u m) (hit : mapped t.view (k.inode ip) n ≠ 0) : b = mapped t.view (k.inode ip) n := by
  cases got with
  | old => rfl
  | fresh direct none bound reach clear => simp [mapped,direct,none] at hit

theorem gotSlot (got : Got t k ip n b u m) (slot : Fin fsIaddrNr) (moved : (m.inode ip).iAddr slot ≠ (k.inode ip).iAddr slot) :
    slot.val = coveringSlot n := by
  cases got with
  | old hit => exact absurd rfl moved
  | fresh direct none bound reach clear =>
    have here : slot = ⟨n,direct.trans (by decide)⟩ := by
      by_contra other
      exact moved (by simp [Kernel.withInode,Inode.withAddr,Function.update_of_ne other])
    rw [here,coveringSlot,if_pos direct]

theorem gotKernel (got : Got t k ip n b u m) : m = k.withInode ip {k.inode ip with iAddr := (m.inode ip).iAddr} := by
  cases got with
  | old hit => simp [Kernel.withInode]
  | fresh direct none bound reach clear => simp [Kernel.withInode,Inode.withAddr]

theorem gotAddr (got : Got t k ip n b u m) {j} (apart : j ≠ coveringSlot n) :
    addrAt (m.inode ip).iAddr j = addrAt (k.inode ip).iAddr j := by
  unfold addrAt
  split
  · rename_i inside
    by_contra moved
    exact apart (gotSlot got ⟨j,inside⟩ moved)
  · rfl

theorem gotIndex (got : Got t k ip n b u m) :
    addrAt (m.inode ip).iAddr fsIaddrInDirectMin = addrAt (k.inode ip).iAddr fsIaddrInDirectMin := by
  cases got with
  | old hit => rfl
  | @fresh f direct none bound reach clear =>
    refine gotAddr (.fresh (f := f) direct none bound reach clear) ?_
    rw [coveringSlot,if_pos direct]
    simp only [fsIaddrInDirectMin]
    omega

theorem gotTaken (layout : Layout (superOf t.view) t.size) (got : Got t k ip n b u m) {c} (taken : Taken t.view c) :
    u.view c = t.view c := by
  cases got with
  | old hit => rfl
  | fresh direct none bound reach clear =>
    obtain ⟨i,inside,rfl,bit⟩ := taken
    exact allocatedData layout bound inside (by rintro rfl; rw [bit] at clear; cases clear)

theorem gotTables (layout : Layout (superOf t.view) t.size) (got : Got t k ip n b u m) {c : Nat} (low : 1 ≤ c)
    (high : c < tablesEnd (superOf t.view)) (apart : c < (superOf t.view).bitmapStart ∨ (superOf t.view).inodeStart ≤ c) :
    u.view c = t.view c := by
  cases got with
  | old hit => rfl
  | @fresh f direct none bound reach clear =>
    have map := bitmapBlock layout (show f < _ by have := layout.blockMap; omega)
    rw [allocatedView layout bound low high]
    refine setMapView ?_
    rintro rfl
    have : (superOf t.view).bitmapStart ≤ mapBlock (superOf t.view).bitmapStart f := Nat.le_add_right _ _
    omega

theorem gotDisk (layout : Layout (superOf t.view) t.size) (got : Got t k ip n b u m) :
    u.size = t.size ∧ u.held = t.held ∧ superOf u.view = superOf t.view := by
  cases got with
  | old hit => exact ⟨rfl,rfl,rfl⟩
  | fresh direct none bound reach clear => exact ⟨rfl,rfl,allocatedSuper layout bound⟩

theorem mappingAgree {x} (h : Mapping t x) (size : u.size = t.size) (held : u.held = t.held)
    (tables : ∀ n, 1 ≤ n → n < (superOf t.view).inodeStart → u.view n = t.view n)
    (index : addrAt x.iAddr fsIaddrInDirectMin ≠ 0 →
      u.view (addrAt x.iAddr fsIaddrInDirectMin).toNat = t.view (addrAt x.iAddr fsIaddrInDirectMin).toNat) :
    Mapping u x ∧ superOf u.view = superOf t.view ∧ ∀ j, mapped u.view x j = mapped t.view x j := by
  have start := inodeStartNat h.layout
  have super : superOf u.view = superOf t.view := by
    rw [superOf,tables superBlockBlkNo (by decide) (by rw [superBlockBlkNo]; omega)]
  have same : ∀ j, mapped u.view x j = mapped t.view x j := by
    intro j
    unfold mapped
    split
    · rfl
    · split
      · rfl
      · rename_i attached
        rw [index attached]
  have taken : ∀ b, Taken t.view b → Taken u.view b := by
    rintro b ⟨i,inside,place,bit⟩
    refine ⟨i,by rw [super]; exact inside,by rw [super]; exact place,?_⟩
    have map := bitmapBlock h.layout (show i < _ by have := h.layout.blockMap; omega)
    rw [← bit,dataBit,dataBit,super]
    exact congrArg (fun d => bitAt d (i%bitsPerBlock)) (tables _ (by unfold mapBlock at map; omega) map.2)
  refine ⟨⟨by rw [super,size]; exact h.layout,by rw [held]; exact h.quiet,by rw [super]; exact h.positive,h.root,
    fun attached => taken _ (h.index attached),?_,?_⟩,super,same⟩
  · intro j small hit
    rw [same] at hit ⊢
    exact taken _ (h.taken j small hit)
  · intro i left j right hit equal
    rw [same] at hit
    rw [same,same] at equal
    exact h.distinct i left j right hit equal

end Got

theorem bmappedMapping {ip w₀ w seen t₀}
    (matched : Matches w₀.disk t₀) (sound : Mapping t₀ (w₀.mem.inode ip)) (run : Bmapped ip w₀ w seen) :
    ∃ t, Matches w.disk t ∧ Mapping t (w.mem.inode ip) ∧
      ∀ p ∈ seen, p.1 < mappable ∧ p.2 ≠ 0 ∧ mapped t.view (w.mem.inode ip) p.1 = p.2 := by
  induction run with
  | start => exact ⟨t₀,matched,sound,by simp⟩
  | call _ served ran ih =>
    obtain ⟨t,matched,mapping,kept⟩ := ih
    rw [matchesView matched] at served
    obtain ⟨b,t',k',ok,got⟩ := gotServed (k := World.mem _) mapping served
    obtain ⟨positive,after,values⟩ := gotMapping mapping got
    obtain ⟨u,ok',matched'⟩ := fromCache matched ran
    rw [ok] at ok'
    cases ok'
    refine ⟨_,matched',after,?_⟩
    intro p mem
    rcases List.mem_cons.mp mem with rfl | old
    · exact ⟨served.1,positive,by rw [values,if_pos rfl]⟩
    · obtain ⟨small,nonzero,same⟩ := kept p old
      refine ⟨small,nonzero,?_⟩
      rw [values]
      split
      · rename_i again
        rw [gotOld got (by rw [← again,same]; exact nonzero),← again,same]
      · exact same
  | recycle _ ran ih =>
    obtain ⟨t,matched,mapping,kept⟩ := ih
    obtain ⟨u,ok,matched'⟩ := fromCache matched ran
    obtain ⟨view,held,size,mem⟩ := runTouchOk ok
    dsimp only at view held size mem
    refine ⟨u,matched',?_,?_⟩
    · obtain ⟨layout,quiet,positive,root,index,taken,distinct⟩ := mapping
      rw [mem]
      constructor
      all_goals first | rw [view] | rw [held] | skip
      all_goals first | rw [size]; assumption | assumption
    · rw [view,mem]
      exact kept

theorem bmapStableInjective {ip : Nat} {w₀ w : World Store Kernel} {seen : List (Nat × Nat)} {t₀ : Disk}
    (matched : Matches w₀.disk t₀) (sound : Mapping t₀ (w₀.mem.inode ip)) (run' : Bmapped ip w₀ w seen) :
    (∀ p ∈ seen, ∀ q ∈ seen, p.1 = q.1 ↔ p.2 = q.2) ∧
    ∀ n, Served (cachedView w.disk) (w.mem.inode ip) n →
      run cacheLayer (bmap ip n) w = .error .noBuffers ∨
        ∃ b w', run cacheLayer (bmap ip n) w = .ok (b,w') ∧
          ∀ slot, (w'.mem.inode ip).iAddr slot ≠ (w.mem.inode ip).iAddr slot → slot.val = coveringSlot n := by
  obtain ⟨t,matched,mapping,kept⟩ := bmappedMapping matched sound run'
  constructor
  · intro p left q right
    obtain ⟨small,nonzero,here⟩ := kept p left
    obtain ⟨small',_,there⟩ := kept q right
    constructor
    · intro same
      rw [← here,← there,same]
    · intro same
      exact mapping.distinct p.1 small q.1 small' (by rw [here]; exact nonzero) (by rw [here,there,same])
  · intro n served
    rw [matchesView matched] at served
    obtain ⟨b,t',k',ok,got⟩ := gotServed (k := w.mem) mapping served
    rcases toCache matched ok with stuck | ⟨s',ran,_⟩
    · exact Or.inl stuck
    · exact Or.inr ⟨b,_,ran,gotSlot got⟩

def emptyFile : Kernel :=
  (bootKernel [] []).withInode 0 {emptyInode with ref := 1, valid := true, iMode := fsImodeFile, iDev := devRoot}

theorem emptyFileMapping : Mapping (flat smallImage 64) (emptyFile.inode 0) := by
  have none : ∀ n, mapped smallImage (emptyFile.inode 0) n = 0 := by
    intro n
    have zero : ∀ j, addrAt (emptyFile.inode 0).iAddr j = 0 := by
      intro j
      simp [emptyFile,Kernel.withInode,emptyInode,addrAt]
    simp [mapped,zero]
  refine ⟨smallLayout,fun _ => rfl,?_,rfl,?_,fun n _ hit => absurd (none n) hit,fun n _ _ _ hit => absurd (none n) hit⟩
  · change 0 < (superOf smallImage).sFirstdataBlock.toNat
    rw [smallSuper]
    decide
  · exact fun attached => absurd (by decide) attached

theorem smallServed (super : superOf t.view = superOf smallImage) (small : n < fsIaddrDirectNr) (bound : f < 53)
    (clear : dataBit t.view f = false) : Served t.view x n := by
  refine ⟨small.trans (by decide),Or.inr ⟨small,f,?_,bound.trans (by decide),clear⟩⟩
  rw [super,smallSuper]
  exact bound

theorem firstBlockStays : ∃ w, Bmapped 0 ⟨smallStore,emptyFile⟩ w [(0,11),(3,12),(0,11)] ∧
    (∀ p ∈ [(0,11),(3,12),(0,11)], ∀ q ∈ [(0,11),(3,12),(0,11)], p.1 = q.1 ↔ p.2 = q.2) := by
  have ran : result (run cacheLayer (do let a ← bmap 0 0; let b ← bmap 0 3; touch 7 true; let c ← bmap 0 0; pure (a,b,c))
    ⟨smallStore,emptyFile⟩) =
      some (11,12,11) := by
    rw [smallStore,(smallRun (by decide) _ _).1]
    decide +kernel
  have matched : Matches smallStore (flat smallImage 64) := bootMatches smallImage 64
  obtain ⟨_,ok⟩ := resultOk ran
  obtain ⟨_,⟨s,m⟩,first,ok⟩ := runCut ok
  obtain ⟨_,_,second,ok⟩ := runCut ok
  obtain ⟨_,_,touched,ok⟩ := runCut ok
  obtain ⟨_,_,third,last⟩ := runCut ok
  cases last
  have served : Served (cachedView smallStore) (emptyFile.inode 0) 0 := by
    rw [smallStore,matchesView (bootMatches smallImage 64)]
    exact smallServed (f := 1) rfl (by decide) (by decide) (by decide +kernel)
  have call : Bmapped 0 ⟨smallStore,emptyFile⟩ ⟨s,m⟩ [(0,11)] := .call (w := ⟨smallStore,emptyFile⟩) .start served first
  obtain ⟨u,taken,there⟩ := fromCache matched first
  rw [runFresh (f := 1) emptyFileMapping (by decide) (by decide) (by decide +kernel) (by decide) (by decide +kernel) (by decide +kernel)] at taken
  obtain ⟨rfl,rfl⟩ := World.mk.inj (Prod.mk.inj (Except.ok.inj taken)).2
  have more : ∀ x, Served (cachedView s) x 3 := fun x => by
    rw [matchesView there]
    exact smallServed (f := 2) (by decide +kernel) (by decide) (by decide) (by decide +kernel)
  have calls := Bmapped.recycle (.call call (more _) second) touched
  obtain ⟨t,same,mapping,kept⟩ := @bmappedMapping 0 ⟨smallStore,emptyFile⟩ _ _ _ matched emptyFileMapping calls
  have again := kept (0,11) (by decide)
  have run' := Bmapped.call calls (by rw [matchesView same]; exact ⟨again.1,Or.inl (by rw [again.2.2]; decide)⟩) third
  have stable := @bmapStableInjective 0 ⟨smallStore,emptyFile⟩ _ _ _ matched emptyFileMapping run'
  exact ⟨_,run',stable.1⟩

def twice (n : Nat) : Fs (Nat × Nat × BitVec 64 × BitVec 64) := do
  let a ← bmap 0 n
  let b ← bmap 0 n
  let x ← getInode 0
  pure (a,b,addrAt x.iAddr 0,addrAt x.iAddr 12)

theorem indirectBlockMoves :
    result (run cacheLayer (twice 12) ⟨smallStore,emptyFile⟩) = some (12,14,13,0) := by
  rw [smallStore,(smallRun (by decide) _ _).1]
  decide +kernel

end TskSw.Bmap
