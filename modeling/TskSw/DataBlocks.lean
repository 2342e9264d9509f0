import TskSw.DataBitmap
import TskSw.Mkfs
import Mathlib.Data.Finset.Image

/-! Data blocks taken and given back. `bmap` takes a block and releases its buffer at once;
`release_data_block` is then told the number of the block on the disk. -/
namespace TskSw.DataBlocks
open Bytes BlockProgram BlkIo BlkFlat FsLayout FsKernel DataBitmap

def devRoot : BitVec 64 := BitVec.ofNat 64 rootDev

theorem devRootNat : devRoot.toNat = rootDev := by decide

def tablesEnd (sb : Superblock) : Nat := sb.inodeStart + (sb.sNinodes.toNat + 2)/inodesPerBlock

structure Layout (sb : Superblock) (size : Nat) : Prop where
  small : 2 + sb.sImapBlocks.toNat + sb.sBmapBlocks.toNat < 2^32
  inodeMap : sb.sNinodes.toNat ≤ bitsPerBlock*sb.sImapBlocks.toNat
  blockMap : sb.sNblocks.toNat ≤ bitsPerBlock*sb.sBmapBlocks.toNat
  tables : tablesEnd sb ≤ size
  data : sb.sFirstdataBlock.toNat + sb.sNblocks.toNat ≤ size
  apart : ∀ i < sb.sNblocks.toNat, sb.sFirstdataBlock.toNat + i = 0 ∨ tablesEnd sb ≤ sb.sFirstdataBlock.toNat + i

variable {sb : Superblock} {size n f : Nat} {t : Disk} {k : Kernel} {u : State}

section Layout
variable (h : Layout sb size)
include h

theorem Layout.more {larger} (le : size ≤ larger) : Layout sb larger :=
  ⟨h.small,h.inodeMap,h.blockMap,h.tables.trans le,h.data.trans le,h.apart⟩

theorem bitmapStartNat : sb.bitmapStart = 2 + sb.sImapBlocks.toNat := by
  have := h.small
  simp only [Superblock.bitmapStart,BitVec.toNat_add,BitVec.toNat_ofNat]
  omega

theorem inodeStartNat : sb.inodeStart = 2 + sb.sImapBlocks.toNat + sb.sBmapBlocks.toNat := by
  have := h.small
  simp only [Superblock.inodeStart,BitVec.toNat_add,BitVec.toNat_ofNat]
  omega

theorem bitmapBlock {i} (inside : i < bitsPerBlock*sb.sBmapBlocks.toNat) :
    2 ≤ mapBlock sb.bitmapStart i ∧ mapBlock sb.bitmapStart i < sb.inodeStart := by
  rw [bitmapStartNat h,inodeStartNat h,mapBlock]
  simp only [bitsPerBlock,bsize] at inside ⊢
  omega

theorem dataApart {i : Nat} (inside : i < sb.sNblocks.toNat) (low : 1 ≤ n) (high : n < tablesEnd sb) :
    n ≠ sb.sFirstdataBlock.toNat + i := by
  have := h.apart i inside
  omega

theorem tablesInside (high : n < sb.inodeStart) : n < tablesEnd sb ∧ n < size := by
  have := h.tables
  have : sb.inodeStart ≤ tablesEnd sb := Nat.le_add_right _ _
  omega

end Layout

def allocateBlock (dev : BitVec 64) : Fs (Option Nat) := do
  match ← findFreeDataBlock dev with
  | none => pure none
  | some b => do
      releaseBlock b
      pure (some b)

def roundTrip (dev : BitVec 64) : Fs (Option Nat) := do
  match ← allocateBlock dev with
  | none => pure none
  | some b => do
      releaseDataBlock dev b
      pure (some b)

def dataBit (view : Nat → Block) (i : Nat) : Bool := mapBit view (superOf view).bitmapStart i

def allocated (t : Disk) (f : Nat) : Disk :=
  leave (setMapBit t (superOf t.view).bitmapStart f) ((superOf t.view).sFirstdataBlock.toNat + f) (fun _ => 0)

theorem firstClear {p : Nat → Bool} {i} (clear : p i = false) :
    ∃ f ≤ i, p f = false ∧ ∀ j < f, p j = true := by
  have some : ∃ j, p j = false := ⟨i,clear⟩
  refine ⟨Nat.find some,Nat.find_min' some clear,Nat.find_spec some,fun j below => ?_⟩
  simpa using Nat.find_min some below

section Disk

theorem layoutSuper (layout : Layout (superOf t.view) t.size) (quiet : ∀ n, t.held n = none) :
    Idle t superBlockBlkNo := by
  refine ⟨quiet _,(tablesInside layout (n := superBlockBlkNo) ?_).2⟩
  rw [inodeStartNat layout,superBlockBlkNo]
  omega

theorem layoutBlock (layout : Layout (superOf t.view) t.size) (quiet : ∀ n, t.held n = none) {f}
    (bound : f < (superOf t.view).sNblocks.toNat) :
    Idle (setMapBit t (superOf t.view).bitmapStart f) ((superOf t.view).sFirstdataBlock.toNat + f) := by
  refine ⟨quiet _,?_⟩
  have := layout.data
  change _ < t.size
  omega

theorem runFind (layout : Layout (superOf t.view) t.size) (quiet : ∀ n, t.held n = none)
    (bound : f < (superOf t.view).sNblocks.toNat) (small : f < 512) (clear : dataBit t.view f = false)
    (set : ∀ j < f, dataBit t.view j = true) :
    run diskLayer (findFreeDataBlock devRoot) ⟨t,k⟩ =
      .ok (some ((superOf t.view).sFirstdataBlock.toNat + f),
        ⟨(setMapBit t (superOf t.view).bitmapStart f).edit ((superOf t.view).sFirstdataBlock.toNat + f) (fun _ => 0),k⟩) := by
  have maps : ∀ j ≤ f, Idle t (mapBlock (superOf t.view).bitmapStart j) := by
    intro j high
    have inside : j < bitsPerBlock*(superOf t.view).sBmapBlocks.toNat := by
      have := layout.blockMap
      omega
    exact ⟨quiet _,(tablesInside layout (bitmapBlock layout inside).2).2⟩
  have reach : ∀ j ≤ f, reachable j := by
    intro j high
    simp only [reachable,bitsPerBlock,bsize,chunkBytes,chunksPerBlock]
    omega
  have scan := @runScan _ _ _ _ k (superOf t.view).sNblocks.toNat _ devRootNat (Nat.zero_le f) (by omega)
    (fun j _ high => maps j high) (fun j _ high => reach j high) (fun j _ low => set j low) clear
  simp only [findFreeDataBlock,runBind,runSuperblock devRootNat (layoutSuper layout quiet),followOk,scan,
    runBread devRootNat (layoutBlock layout quiet bound),runSet,runPure]

theorem runAllocate (layout : Layout (superOf t.view) t.size) (quiet : ∀ n, t.held n = none) {f}
    (bound : f < (superOf t.view).sNblocks.toNat) (small : f < 512) (clear : dataBit t.view f = false)
    (set : ∀ j < f, dataBit t.view j = true) :
    run diskLayer (allocateBlock devRoot) ⟨t,k⟩ =
      .ok (some ((superOf t.view).sFirstdataBlock.toNat + f),⟨allocated t f,k⟩) := by
  simp only [allocateBlock,runBind,runFind layout quiet bound small clear set,followOk,
    runLeave (layoutBlock layout quiet bound).free,runPure,allocated]

theorem runAllocateOk {s : State} {found : Option Nat} (ok : run diskLayer (allocateBlock devRoot) s = .ok (found,u)) :
    (found = none ∧ u = s) ∨ ∃ f, found = some ((superOf s.disk.view).sFirstdataBlock.toNat + f) ∧
      f < (superOf s.disk.view).sNblocks.toNat ∧ reachable f ∧ dataBit s.disk.view f = false ∧
      u = ⟨allocated s.disk f,s.mem⟩ := by
  obtain ⟨hit,v,find,rest⟩ := runCut ok
  rcases runFindOk find with ⟨rfl,rfl⟩ | ⟨f,w,rfl,bound,hit,idle,rfl⟩
  · cases rest
    exact Or.inl ⟨rfl,rfl⟩
  · simp only [runBind,runLeave idle.free,followOk,runPure,Except.ok.injEq,Prod.mk.injEq] at rest
    obtain ⟨rfl,rfl⟩ := rest
    refine Or.inr ⟨f,rfl,bound,hit.reach,hit.clear,?_⟩
    rw [hit.result,allocated]

theorem allocatedView (layout : Layout (superOf t.view) t.size) {f} (bound : f < (superOf t.view).sNblocks.toNat)
    {n} (low : 1 ≤ n) (high : n < tablesEnd (superOf t.view)) :
    (allocated t f).view n = (setMapBit t (superOf t.view).bitmapStart f).view n :=
  leaveView (dataApart layout bound low high) _

theorem allocatedSuper (layout : Layout (superOf t.view) t.size) (bound : f < (superOf t.view).sNblocks.toNat) :
    superOf (allocated t f).view = superOf t.view := by
  have start := inodeStartNat layout
  have map := bitmapBlock layout (i := f) (by have := layout.blockMap; omega)
  have block : (allocated t f).view superBlockBlkNo = t.view superBlockBlkNo := by
    rw [allocatedView layout bound (by simp [superBlockBlkNo]) ((tablesInside layout (by rw [superBlockBlkNo]; omega)).1)]
    exact setMapView (by rw [superBlockBlkNo]; omega)
  exact congrArg superblockAt block

theorem allocatedBit (layout : Layout (superOf t.view) t.size) (bound : f < (superOf t.view).sNblocks.toNat)
    (reach : reachable f) {j : Nat} (inside : j < bitsPerBlock*(superOf t.view).sBmapBlocks.toNat) :
    dataBit (allocated t f).view j = (decide (f = j) || dataBit t.view j) := by
  have map := bitmapBlock layout inside
  have view : (allocated t f).view (mapBlock (superOf t.view).bitmapStart j) =
      (setMapBit t (superOf t.view).bitmapStart f).view (mapBlock (superOf t.view).bitmapStart j) :=
    allocatedView layout bound (by omega) (tablesInside layout map.2).1
  have bits := @setMapBits t (superOf t.view).bitmapStart _ j reach
  unfold dataBit
  rw [allocatedSuper layout bound,← bits]
  exact congrArg (fun b => bitAt b (j%bitsPerBlock)) view

theorem allocatedData (layout : Layout (superOf t.view) t.size) {f i} (bound : f < (superOf t.view).sNblocks.toNat)
    (inside : i < (superOf t.view).sNblocks.toNat) (apart : i ≠ f) :
    (allocated t f).view ((superOf t.view).sFirstdataBlock.toNat + i) =
      t.view ((superOf t.view).sFirstdataBlock.toNat + i) := by
  have map := bitmapBlock layout (i := f) (by have := layout.blockMap; omega)
  have table := dataApart layout inside (n := mapBlock (superOf t.view).bitmapStart f) (by omega)
    (tablesInside layout map.2).1
  rw [allocated,leaveView (by omega),setMapView table.symm]

theorem clearedSuper (layout : Layout (superOf t.view) t.size) (b : Nat) :
    superOf (clearMapBit t (superOf t.view).bitmapStart b).view = superOf t.view := by
  have start := bitmapStartNat layout
  refine congrArg superblockAt (clearMapView ?_)
  simp only [mapBlock,superBlockBlkNo,bitsPerBlock,bsize]
  omega

theorem clearedBit (layout : Layout (superOf t.view) t.size) {b} (reach : reachable b) (j : Nat) :
    dataBit (clearMapBit t (superOf t.view).bitmapStart b).view j = (!decide (b = j) && dataBit t.view j) := by
  unfold dataBit
  rw [clearedSuper layout]
  exact clearMapBits reach

end Disk

section Allocation
variable (w : World Store Kernel)

def inUse (view : Nat → Block) : Finset Nat :=
  ((Finset.range (superOf view).sNblocks.toNat).filter (fun i => dataBit view i = true)).image
    (fun i => (superOf view).sFirstdataBlock.toNat + i)

def Restores : Prop := ∃ b w', run cacheLayer (roundTrip devRoot) w = .ok (some b,w') ∧
  ∀ n, (superOf (cachedView w.disk)).bitmapStart ≤ n → n < (superOf (cachedView w.disk)).inodeStart →
    cachedView w'.disk n = cachedView w.disk n

inductive Handed : World Store Kernel → Finset Nat → Prop where
  | start : Handed w (inUse (cachedView w.disk))
  | take {v v' : World Store Kernel} {used : Finset Nat} {b : Nat} (before : Handed v used)
      (ran : run cacheLayer (allocateBlock devRoot) v = .ok (some b,v')) : Handed v' (insert b used)
  | give {v v' : World Store Kernel} {used : Finset Nat} {b : Nat} (before : Handed v used) (mine : b ∈ used)
      (ran : run cacheLayer (releaseDataBlock devRoot b) v = .ok ((),v')) : Handed v' (used.erase b)

def OthersKept (b : Nat) (s s' : Store) : Prop :=
  ∀ i < (superOf (cachedView s)).sNblocks.toNat, (superOf (cachedView s)).sFirstdataBlock.toNat + i ≠ b →
    dataBit (cachedView s') i = dataBit (cachedView s) i

def Fair : Prop := ∀ v used, Handed w v used →
  (∀ b v', run cacheLayer (allocateBlock devRoot) v = .ok (some b,v') → b ∉ used ∧ OthersKept b v.disk v'.disk) ∧
  (∀ b ∈ used, ∀ v', run cacheLayer (releaseDataBlock devRoot b) v = .ok ((),v') → OthersKept b v.disk v'.disk)

end Allocation

structure Counted (sb : Superblock) (size : Nat) (v : World Store Kernel) (used : Finset Nat) (t : Disk) : Prop where
  matched : Matches v.disk t
  super : superOf t.view = sb
  size : t.size = size
  bits : ∀ b, b ∈ used ↔ b < sb.sNblocks.toNat ∧ dataBit t.view b = true

section Counted
variable (layout : Layout sb size) (zero : sb.sFirstdataBlock.toNat = 0) {v : World Store Kernel} {used : Finset Nat}
include layout zero

theorem countedTake (h : Counted sb size v used t) {b v'}
    (ran : run cacheLayer (allocateBlock devRoot) v = .ok (some b,v')) :
    b ∉ used ∧ OthersKept b v.disk v'.disk ∧ ∃ t', Counted sb size v' (insert b used) t' := by
  obtain ⟨matched,rfl,rfl,bits⟩ := h
  obtain ⟨t',ok,after⟩ := fromCache (t := t) matched ran
  rcases runAllocateOk ok with ⟨none,_⟩ | ⟨f,same,bound,reach,clear,last⟩
  · cases none
  obtain ⟨rfl,_⟩ := World.mk.inj last
  dsimp only at same bound clear after
  rw [zero,Nat.zero_add] at same
  cases same
  have inside : ∀ j < (superOf t.view).sNblocks.toNat, j < bitsPerBlock*(superOf t.view).sBmapBlocks.toNat := by
    intro j below
    have := layout.blockMap
    omega
  refine ⟨?_,?_,_,after,allocatedSuper layout bound,rfl,?_⟩
  · intro mine
    rw [((bits b).mp mine).2] at clear
    cases clear
  · intro i below other
    rw [matchesView matched] at below other ⊢
    rw [zero,Nat.zero_add] at other
    rw [matchesView after,allocatedBit layout bound reach (inside i below)]
    simp [other.symm]
  · intro c
    rw [Finset.mem_insert,bits c]
    by_cases same : c = b
    · subst same
      simp [bound,allocatedBit layout bound reach (inside c bound)]
    · have apart : b ≠ c := fun e => same e.symm
      constructor
      · rintro (e | ⟨below,bit⟩)
        · exact absurd e same
        · exact ⟨below,by rw [allocatedBit layout bound reach (inside c below),bit,Bool.or_true]⟩
      · rintro ⟨below,bit⟩
        rw [allocatedBit layout bound reach (inside c below)] at bit
        exact Or.inr ⟨below,by simpa [apart] using bit⟩

theorem countedGive (h : Counted sb size v used t) {b v'}
    (ran : run cacheLayer (releaseDataBlock devRoot b) v = .ok ((),v')) :
    OthersKept b v.disk v'.disk ∧ ∃ t', Counted sb size v' (used.erase b) t' := by
  obtain ⟨matched,rfl,rfl,bits⟩ := h
  obtain ⟨t',ok,after⟩ := fromCache (t := t) matched ran
  obtain ⟨_,_,_,reach,_,last⟩ := runReleaseDataOk ok
  obtain ⟨rfl,_⟩ := World.mk.inj last
  refine ⟨?_,_,after,clearedSuper layout b,rfl,?_⟩
  · intro i below other
    rw [matchesView matched,zero] at other
    rw [matchesView after,matchesView matched,clearedBit layout reach]
    have apart : b ≠ i := by omega
    simp [apart]
  · intro c
    rw [Finset.mem_erase,bits c,clearedBit layout reach]
    by_cases same : c = b
    · simp [same]
    · have apart : b ≠ c := fun e => same e.symm
      simp [same,apart]

theorem countedHanded {w t} (h : Counted sb size w (inUse (cachedView w.disk)) t)
    (run : Handed w v used) : ∃ u, Counted sb size v used u := by
  induction run with
  | start => exact ⟨t,h⟩
  | take _ ran ih =>
    obtain ⟨u,counted⟩ := ih
    exact (countedTake layout zero counted ran).2.2
  | give _ _ ran ih =>
    obtain ⟨u,counted⟩ := ih
    exact (countedGive layout zero counted ran).2

end Counted

theorem countedStart {w t} (matched : Matches w.disk t)
    (zero : (superOf t.view).sFirstdataBlock.toNat = 0) :
    Counted (superOf t.view) t.size w (inUse (cachedView w.disk)) t := by
  refine ⟨matched,rfl,rfl,fun b => ?_⟩
  rw [matchesView matched]
  simp [inUse,zero]

theorem roundTripZero (layout : Layout (superOf t.view) t.size) (quiet : ∀ n, t.held n = none)
    (zero : (superOf t.view).sFirstdataBlock.toNat = 0) (bound : f < (superOf t.view).sNblocks.toNat)
    (small : f < 512) (clear : dataBit t.view f = false) (set : ∀ j < f, dataBit t.view j = true) :
    ∃ u, run diskLayer (roundTrip devRoot) ⟨t,k⟩ = .ok (some f,u) ∧
      ∀ n, (superOf t.view).bitmapStart ≤ n → n < (superOf t.view).inodeStart → u.disk.view n = t.view n := by
  have reach : reachable f := by
    simp only [reachable,bitsPerBlock,bsize,chunkBytes,chunksPerBlock]
    omega
  have inside : f < bitsPerBlock*(superOf t.view).sBmapBlocks.toNat := by
    have := layout.blockMap
    omega
  have map := bitmapBlock layout inside
  have super := allocatedSuper layout bound
  have bit : mapBit (allocated t f).view (superOf (allocated t f).view).bitmapStart f = true := by
    have := allocatedBit layout bound reach inside
    simpa [dataBit] using this
  have quiet' : ∀ n, (allocated t f).held n = none := quiet
  have release := @runReleaseData devRoot (allocated t f) k f devRootNat
    ⟨quiet' _,(tablesInside layout (n := superBlockBlkNo) (by rw [superBlockBlkNo]; omega)).2⟩
    ⟨quiet' _,by rw [super]; exact (tablesInside layout map.2).2⟩
  have notOut : ¬ chunksPerBlock ≤ (f%bitsPerBlock)/chunkBytes := Nat.not_le.mpr reach
  rw [if_neg notOut,if_pos bit,super] at release
  have alloc := runAllocate (k := k) layout quiet bound small clear set
  rw [zero,Nat.zero_add] at alloc
  refine ⟨⟨clearMapBit (allocated t f) (superOf t.view).bitmapStart f,{k with released := f :: k.released}⟩,
    by simp only [roundTrip,runBind,alloc,followOk,release,runPure],?_⟩
  intro n low high
  have start := bitmapStartNat layout
  have here := allocatedView (t := t) layout bound (n := n) (by omega) (tablesInside layout high).1
  by_cases same : n = mapBlock (superOf t.view).bitmapStart f
  · subst same
    have view : (allocated t f).view (mapBlock (superOf t.view).bitmapStart f) =
        withBit (t.view (mapBlock (superOf t.view).bitmapStart f)) (f%bitsPerBlock) := by
      rw [here,setMapBit,storeView]
    simp only [clearMapBit,storeView,view]
    exact withoutWith reach clear
  · simp only [clearMapView same]
    rw [here,setMapView same]

theorem roundTripKeepsBit {k b} (layout : Layout (superOf t.view) t.size) (ok : run diskLayer (roundTrip devRoot) ⟨t,k⟩ = .ok (some b,u))
    (same : ∀ n, (superOf t.view).bitmapStart ≤ n → n < (superOf t.view).inodeStart → u.disk.view n = t.view n) :
    (superOf t.view).sFirstdataBlock.toNat = 0 := by
  obtain ⟨found,v,take,rest⟩ := runCut ok
  rcases runAllocateOk take with ⟨rfl,_⟩ | ⟨f,rfl,bound,reach,clear,rfl⟩
  · cases rest
  dsimp only at rest bound clear
  obtain ⟨_,v,give,last⟩ := runCut rest
  cases last
  obtain ⟨_,_,_,reach',_,rfl⟩ := runReleaseDataOk give
  by_contra positive
  have inside : f < bitsPerBlock*(superOf t.view).sBmapBlocks.toNat := by
    have := layout.blockMap
    omega
  have map := bitmapBlock layout inside
  have super := allocatedSuper layout bound
  have kept := same (mapBlock (superOf t.view).bitmapStart f) (Nat.le_add_right _ _) map.2
  have bit := @clearMapBits (allocated t f) (superOf t.view).bitmapStart _ f reach'
  have set := allocatedBit layout bound reach inside
  unfold dataBit at set clear
  rw [super] at set kept
  have apart : (superOf t.view).sFirstdataBlock.toNat + f ≠ f := by omega
  rw [set] at bit
  simp only [apart,decide_false,Bool.not_false,decide_true,Bool.true_or,Bool.true_and] at bit
  have : mapBit t.view (superOf t.view).bitmapStart f = true := by
    rw [← bit]
    exact (congrArg (fun d => bitAt d (f%bitsPerBlock)) kept).symm
  rw [this] at clear
  cases clear

theorem releaseInvertsFind {s : Store} {t : Disk} (k : Kernel) (matched : Matches s t)
    (idle : ∀ i ∈ s.cache.mru, (s.cache.buf i).busy = false) (layout : Layout (superOf (cachedView s)) s.blocks)
    {i : Nat} (bound : i < (superOf (cachedView s)).sNblocks.toNat) (small : i < 512)
    (clear : dataBit (cachedView s) i = false) :
    run cacheLayer (roundTrip devRoot) ⟨s,k⟩ = .error .noBuffers ∨
      (Restores ⟨s,k⟩ ∧ Fair ⟨s,k⟩ ↔ (superOf (cachedView s)).sFirstdataBlock.toNat = 0) := by
  have size := matched.size
  have quiet := matchesQuiet matched idle
  have view := matchesView matched
  rw [view] at layout bound clear ⊢
  rw [← size] at layout
  by_cases stuck : run cacheLayer (roundTrip devRoot) ⟨s,k⟩ = .error .noBuffers
  · exact Or.inl stuck
  refine Or.inr ⟨?_,?_⟩
  · rintro ⟨⟨b,w,ran,same⟩,_⟩
    obtain ⟨t',ok,after⟩ := fromCache matched ran
    dsimp only at same
    rw [view,matchesView after] at same
    exact roundTripKeepsBit layout ok same
  · intro zero
    refine ⟨?_,?_⟩
    · obtain ⟨f,below,clear,set⟩ := firstClear (p := dataBit t.view) clear
      obtain ⟨u,ran,same⟩ := roundTripZero (k := k) layout quiet zero (f := f) (by omega) (by omega) clear set
      rcases toCache matched ran with panics | ⟨s',ok,after⟩
      · exact absurd panics stuck
      · refine ⟨f,_,ok,?_⟩
        dsimp only
        rw [view,matchesView after]
        exact same
    · intro v used handed
      obtain ⟨u,counted⟩ := countedHanded layout zero (countedStart (w := ⟨s,k⟩) matched zero) handed
      refine ⟨fun b v' ran => ?_,fun b _ v' ran => ?_⟩
      · obtain ⟨fresh,kept,_⟩ := countedTake layout zero counted ran
        exact ⟨fresh,kept⟩
      · exact (countedGive layout zero counted ran).1

def smallImage : Mkfs.Image := Mkfs.writeFsImage (64*bsize) 16
def smallStore : Store := boot smallImage 64

theorem smallSuper : superOf smallImage = ⟨64,16,1,1,10,53,Mkfs.fsMagicNr⟩ := by decide +kernel

theorem smallLayout : Layout (superOf smallImage) 64 := by
  rw [smallSuper]
  refine ⟨by decide,by decide,by decide,by decide,by decide,fun i _ => Or.inr ?_⟩
  exact (show tablesEnd ⟨64,16,1,1,10,53,Mkfs.fsMagicNr⟩ ≤ 10 by decide).trans (Nat.le_add_right 10 i)

theorem releaseMissesBlock :
    fault (run cacheLayer (roundTrip devRoot) ⟨smallStore,bootKernel [] []⟩) = some .assertion ∧
    ¬ Restores ⟨smallStore,bootKernel [] []⟩ := by
  have fails : fault (run cacheLayer (roundTrip devRoot) ⟨smallStore,bootKernel [] []⟩) = some .assertion := by
    rw [smallStore,(smallRun (by decide) _ _).2]
    decide +kernel
  refine ⟨fails,?_⟩
  rintro ⟨b,w,ran,_⟩
  rw [ran] at fails
  cases fails

def zeroBased : Mkfs.Image :=
  Function.update (fun _ _ => 0) superBlockBlkNo (patch (fun _ => 0) 0 (Mkfs.superblockBytes ⟨8,3,1,1,0,1,Mkfs.fsMagicNr⟩))

theorem zeroBasedRestores : Restores ⟨boot zeroBased 8,bootKernel [] []⟩ ∧ Fair ⟨boot zeroBased 8,bootKernel [] []⟩ := by
  have super : superOf (cachedView (boot zeroBased 8)) = ⟨8,3,1,1,0,1,Mkfs.fsMagicNr⟩ := by
    rw [matchesView (bootMatches zeroBased 8)]
    decide +kernel
  have layout : Layout (superOf (cachedView (boot zeroBased 8))) (boot zeroBased 8).blocks := by
    rw [super]
    refine ⟨by decide,by decide,by decide,by decide,by decide,?_⟩
    intro i below
    have only : i = 0 := Nat.lt_one_iff.mp below
    subst only
    exact Or.inl (by decide)
  rcases releaseInvertsFind (bootKernel [] []) (bootMatches zeroBased 8) (by simp [boot,bufferCacheInit,emptyBuf])
    layout (i := 0) (by rw [super]; decide) (by decide) (by rw [matchesView (bootMatches zeroBased 8)]; decide +kernel) with stuck | iff
  · have runs : fault (run cacheLayer (roundTrip devRoot) ⟨boot zeroBased 8,bootKernel [] []⟩) = none := by
      rw [(smallRun (by decide) _ _).2]
      decide +kernel
    rw [stuck] at runs
    cases runs
  · exact iff.mpr (by rw [super]; decide)

end TskSw.DataBlocks
