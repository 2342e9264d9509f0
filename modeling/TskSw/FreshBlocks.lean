import TskSw.Bmap

/-! Buffers that are changed and released without being written: the block that
`find_free_data_block` clears, and the index block that `bmap` puts an entry into. The next
read fetches the block from the disk again unless its buffer was dirty before. -/
namespace TskSw.FreshBlocks
open Bytes BlockProgram BlkIo BlkFlat BlkRecycle FsLayout FsKernel DataBitmap DataBlocks Bmap

def bufferDirty (s : Store) (n : Nat) : Bool :=
  match s.cache.search rootDev n with
  | some i => (s.cache.buf i).dirty
  | none => false

inductive Traffic (b : Nat) (s : Store) : Store → Prop where
  | none : Traffic b s s
  | read {u v : Store} {n : Nat} (before : Traffic b s u) (other : n ≠ b) (ran : cacheLayer.read n u = .ok v) : Traffic b s v
  | set {u v : Store} {n : Nat} {d : Block} (before : Traffic b s u) (other : n ≠ b) (ran : cacheLayer.set n d u = .ok v) : Traffic b s v
  | write {u v : Store} {n : Nat} (before : Traffic b s u) (other : n ≠ b) (ran : cacheLayer.write n u = .ok v) : Traffic b s v
  | release {u v : Store} {n : Nat} (before : Traffic b s u) (other : n ≠ b) (ran : cacheLayer.release n u = .ok v) : Traffic b s v

def nextRead (b : Nat) : Fs Block := do
  bread devRoot b
  blockData b

def Reads (b : Nat) (w : World Store Kernel) (P : Block → Prop) : Prop :=
  ∀ u, Traffic b w.disk u → run cacheLayer (nextRead b) ⟨u,w.mem⟩ = .error .noBuffers ∨
    ∃ d v, run cacheLayer (nextRead b) ⟨u,w.mem⟩ = .ok (d,v) ∧ P d

variable {t : Disk} {b n ip blk : Nat} {dev : BitVec 64} {k : Kernel}

section Traffic
variable {s u : Store} {v : Disk}

theorem matchesDirty (h : Matches s t) (n : Nat) : bufferDirty s n = t.dirty n := by
  unfold bufferDirty
  cases found : s.cache.search rootDev n with
  | none => exact (h.absent n (searchMissed found)).2.1.symm
  | some i =>
    obtain ⟨mem,dev,block⟩ := searchFound found
    rw [← block]
    exact (h.cached i mem dev).dirty.symm

structure Rests (b : Nat) (t v : Disk) : Prop where
  view : v.view b = t.view b
  held : v.held b = t.held b
  size : v.size = t.size

theorem restsRead (other : n ≠ b) (ok : diskLayer.read n t = .ok v) : Rests b t v := by
  obtain ⟨_,_,rfl⟩ := readTakes.mp ok
  exact ⟨rfl,Function.update_of_ne other.symm ..,rfl⟩

theorem restsSet {d} (other : n ≠ b) (ok : diskLayer.set n d t = .ok v) : Rests b t v := by
  obtain ⟨_,rfl⟩ := setEdits.mp ok
  exact ⟨rfl,Function.update_of_ne other.symm ..,rfl⟩

theorem restsWrite (other : n ≠ b) (ok : diskLayer.write n t = .ok v) : Rests b t v := by
  obtain ⟨_,_,rfl⟩ := writeStores.mp ok
  exact ⟨Function.update_of_ne other.symm ..,rfl,rfl⟩

theorem restsRelease (other : n ≠ b) (ok : diskLayer.release n t = .ok v) : Rests b t v := by
  obtain ⟨_,_,rfl⟩ := releaseDrops.mp ok
  refine ⟨?_,Function.update_of_ne other.symm ..,rfl⟩
  simp only [Disk.drop]
  split
  · exact Function.update_of_ne other.symm ..
  · rfl

theorem trafficRests (matched : Matches s t) (traffic : Traffic b s u) : ∃ v, Matches u v ∧ Rests b t v := by
  have next : ∀ {v v' : Disk}, Rests b t v → Rests b v v' → Rests b t v' :=
    fun first last => ⟨last.view.trans first.view,last.held.trans first.held,last.size.trans first.size⟩
  induction traffic with
  | none => exact ⟨t,matched,rfl,rfl,rfl⟩
  | read _ other ran ih =>
    obtain ⟨v,matched,rests⟩ := ih
    obtain ⟨v',ok,after⟩ := agreeRan (cacheSimulates.read _ _ _ matched) ran
    exact ⟨v',after,next rests (restsRead other ok)⟩
  | set _ other ran ih =>
    obtain ⟨v,matched,rests⟩ := ih
    obtain ⟨v',ok,after⟩ := agreeRan (cacheSimulates.set _ _ _ _ matched) ran
    exact ⟨v',after,next rests (restsSet other ok)⟩
  | write _ other ran ih =>
    obtain ⟨v,matched,rests⟩ := ih
    obtain ⟨v',ok,after⟩ := agreeRan (cacheSimulates.write _ _ _ matched) ran
    exact ⟨v',after,next rests (restsWrite other ok)⟩
  | release _ other ran ih =>
    obtain ⟨v,matched,rests⟩ := ih
    obtain ⟨v',ok,after⟩ := agreeRan (cacheSimulates.release _ _ _ matched) ran
    exact ⟨v',after,next rests (restsRelease other ok)⟩

theorem releasedRead {r} (ok : cacheLayer.release b s = .ok r) : cacheLayer.read b r ≠ .error .noBuffers := by
  obtain ⟨i,found,ok⟩ := exceptBindOk.mp ok
  have holds : (s.cache.buf i).holds rootDev b = true := by
    unfold held at found
    split at found
    · cases found
      rename_i hit
      have both := List.find?_some hit
      rw [Bool.and_eq_true] at both
      exact both.1
    · cases found
  simp only [bufferCacheBlkRelease] at ok
  split_ifs at ok
  have here : r.cache.search rootDev b = some i := by
    rw [← Except.ok.inj ok]
    exact List.find?_cons_of_pos (by simpa [BlkBuf.holds] using holds)
  have idle : (r.cache.buf i).busy = false := by
    rw [← Except.ok.inj ok]
    simp
  intro stuck
  have missed := readStuck stuck
  simp only [bufferCacheBlkGet,here,idle,Bool.false_eq_true,if_false] at missed
  cases missed

theorem runNextRead {k} (idle : Idle t b) : run diskLayer (nextRead b) ⟨t,k⟩ = .ok (t.view b,⟨t.edit b (t.view b),k⟩) := by
  simp only [nextRead,runBind,runBread devRootNat idle,followOk,runData]

theorem nextReadStuck {w : World Store Kernel} (stuck : run cacheLayer (nextRead b) w = .error .noBuffers) :
    cacheLayer.read b w.disk = .error .noBuffers := by
  rw [nextRead,bread,if_pos devRootNat,runBind,runReadBlock] at stuck
  cases ran : cacheLayer.read b w.disk with
  | error e =>
    simp only [ran,onDiskError,followError,Except.error.injEq] at stuck
    rw [stuck]
  | ok r =>
    simp only [ran,onDiskOk,followOk,runBlockData] at stuck
    have stale : ∀ e, held r b = .error e → e = .stale := by
      intro e none
      unfold held at none
      split at none
      · cases none
      · cases none
        rfl
    cases found : held r b with
    | error e =>
      rw [stale e found] at found
      simp [cacheLayer,found,bind,Except.bind] at stuck
    | ok i => simp [cacheLayer,found,bind,Except.bind] at stuck

theorem readsIff {w} {P : Block → Prop} (matched : Matches w.disk t) (idle : Idle t b)
    (released : ∃ r, cacheLayer.release b r = .ok w.disk) : Reads b w P ↔ P (t.view b) := by
  constructor
  · intro reads
    obtain ⟨r,last⟩ := released
    rcases reads w.disk .none with stuck | ⟨d,v,ran,holds⟩
    · exact absurd (nextReadStuck stuck) (releasedRead last)
    · obtain ⟨t',ran',_⟩ := fromCache matched ran
      rw [runNextRead idle] at ran'
      obtain ⟨rfl,_⟩ := Prod.mk.inj (Except.ok.inj ran')
      exact holds
  · intro holds u traffic
    obtain ⟨v,after,rests⟩ := trafficRests matched traffic
    have still : Idle v b := ⟨by rw [rests.held]; exact idle.free,by rw [rests.size]; exact idle.inside⟩
    rcases toCache after (runNextRead (k := w.mem) still) with stuck | ⟨s',ok,_⟩
    · exact Or.inl stuck
    · exact Or.inr ⟨_,_,ok,by rw [rests.view]; exact holds⟩

end Traffic

section Bmap
variable {σ : Type} {L : Layer σ Nat Block Fault} {w v : World σ Kernel}

theorem bmapIndirect (indirect : fsIaddrDirectNr ≤ n) (inside : n < fsIaddrDirectNr + fsIaddrInDirectNr*iaddrsPerBlock) :
    run L (bmap ip n) w = run L (do let blk ← indexBlock ip (n - fsIaddrDirectNr); mapEntry (w.mem.inode ip).iDev blk (n - fsIaddrDirectNr)) w := by
  have direct : ¬ n < fsIaddrDirectNr := by omega
  have range : n - fsIaddrDirectNr < fsIaddrInDirectNr*iaddrsPerBlock := by omega
  simp only [bmap,getInode,runBind,runMemory,runPure,followOk,if_neg direct,if_pos range]

theorem bmapBeyond (beyond : fsIaddrDirectNr + fsIaddrInDirectNr*iaddrsPerBlock ≤ n) : run L (bmap ip n) w = .ok (0,w) := by
  have direct : ¬ n < fsIaddrDirectNr := by omega
  have range : ¬ n - fsIaddrDirectNr < fsIaddrInDirectNr*iaddrsPerBlock := by omega
  simp only [bmap,getInode,runBind,runMemory,runPure,followOk,if_neg direct,if_neg range]

theorem runReleaseOk {a} (ok : run L (releaseBlock b) w = .ok (a,v)) : L.release b w.disk = .ok v.disk ∧ v.mem = w.mem := by
  rw [runReleaseBlock] at ok
  cases ran : L.release b w.disk with
  | error e => rw [ran] at ok; cases ok
  | ok d =>
    rw [ran] at ok
    cases ok
    exact ⟨rfl,rfl⟩

theorem allocateReleases (ok : run L (allocateBlock dev) w = .ok (some b,v)) : ∃ r, L.release b r = .ok v.disk := by
  obtain ⟨found,u,_,rest⟩ := runCut ok
  cases found with
  | none => cases rest
  | some c =>
    obtain ⟨_,x,last,done⟩ := runCut rest
    cases done
    exact ⟨_,(runReleaseOk last).1⟩

theorem indexReleases (empty : addrAt (w.mem.inode ip).iAddr (n/iaddrsPerBlock + fsIaddrInDirectMin) = 0)
    (ok : run L (indexBlock ip n) w = .ok (blk,v)) : ∃ r, L.release blk r = .ok v.disk := by
  obtain ⟨_,_,first,rest⟩ := runCut ok
  cases first
  simp only [empty] at rest
  obtain ⟨found,u,_,rest⟩ := runCut rest
  cases found with
  | none => cases rest
  | some c =>
    obtain ⟨_,_,_,rest⟩ := runCut rest
    obtain ⟨_,_,last,done⟩ := runCut rest
    cases done
    exact ⟨_,(runReleaseOk last).1⟩

theorem entryReleases (ok : run L (mapEntry dev blk n) w = .ok (b,v)) : ∃ r, L.release blk r = .ok v.disk := by
  obtain ⟨_,_,_,ok⟩ := runCut ok
  obtain ⟨idx,_,_,ok⟩ := runCut ok
  split_ifs at ok
  · cases ok
  · obtain ⟨found,_,_,ok⟩ := runCut ok
    cases found with
    | none => cases ok
    | some c =>
      obtain ⟨_,_,_,ok⟩ := runCut ok
      obtain ⟨_,_,_,ok⟩ := runCut ok
      obtain ⟨_,_,last,done⟩ := runCut ok
      cases done
      exact ⟨_,(runReleaseOk last).1⟩
  · obtain ⟨_,_,last,done⟩ := runCut ok
    obtain ⟨_,rfl⟩ := Prod.mk.inj (Except.ok.inj done)
    exact ⟨_,(runReleaseOk last).1⟩

end Bmap

section Disk
variable {s u : State}

structure Cleared (t : Disk) (b : Nat) (u : Disk) : Prop where
  block : ∃ f < (superOf t.view).sNblocks.toNat, b = (superOf t.view).sFirstdataBlock.toNat + f ∧ u = allocated t f
  idle : Idle t b

theorem clearedFind {found} (ok : run diskLayer (findFreeDataBlock dev) s = .ok (found,u)) :
    found = none ∨ ∃ f, found = some ((superOf s.disk.view).sFirstdataBlock.toNat + f) ∧ f < (superOf s.disk.view).sNblocks.toNat ∧
      Idle s.disk ((superOf s.disk.view).sFirstdataBlock.toNat + f) ∧
      u = ⟨(setMapBit s.disk (superOf s.disk.view).bitmapStart f).edit ((superOf s.disk.view).sFirstdataBlock.toNat + f) (fun _ => 0),s.mem⟩ := by
  rcases runFindOk ok with ⟨rfl,_⟩ | ⟨f,v,rfl,bound,taken,idle,rfl⟩
  · exact Or.inl rfl
  · rw [taken.result] at idle ⊢
    exact Or.inr ⟨f,rfl,bound,⟨idle.free,idle.inside⟩,rfl⟩

theorem clearedAllocate (ok : run diskLayer (allocateBlock dev) s = .ok (some b,u)) : Cleared s.disk b u.disk := by
  obtain ⟨found,v,find,rest⟩ := runCut ok
  rcases clearedFind find with rfl | ⟨f,rfl,bound,idle,rfl⟩
  · cases rest
  · have free : (setMapBit s.disk (superOf s.disk.view).bitmapStart f).held ((superOf s.disk.view).sFirstdataBlock.toNat + f) = none := idle.free
    simp only [runBind,runLeave free,followOk,runPure,Except.ok.injEq,Prod.mk.injEq,Option.some.injEq] at rest
    obtain ⟨rfl,rfl⟩ := rest
    exact ⟨⟨f,bound,rfl,rfl⟩,idle⟩

theorem clearedIndex (empty : addrAt (s.mem.inode ip).iAddr (n/iaddrsPerBlock + fsIaddrInDirectMin) = 0)
    (ok : run diskLayer (indexBlock ip n) s = .ok (blk,u)) :
    Cleared s.disk blk u.disk ∧ ∃ addr, u.mem = s.mem.withInode ip {s.mem.inode ip with iAddr := addr} := by
  obtain ⟨_,_,first,rest⟩ := runCut ok
  cases first
  simp only [empty] at rest
  obtain ⟨found,v,find,rest⟩ := runCut rest
  rcases clearedFind find with rfl | ⟨f,rfl,bound,idle,rfl⟩
  · cases rest
  · have free : (setMapBit s.disk (superOf s.disk.view).bitmapStart f).held ((superOf s.disk.view).sFirstdataBlock.toNat + f) = none := idle.free
    by_cases slot : n < fsIaddrNr
    · simp only [setAddr,dif_pos slot,editInode,runBind,runMemory,runSetMemory,runLeave free,followOk,runPure,Except.ok.injEq,Prod.mk.injEq] at rest
      obtain ⟨rfl,rfl⟩ := rest
      exact ⟨⟨⟨f,bound,rfl,rfl⟩,idle⟩,_,rfl⟩
    · simp only [setAddr,dif_neg slot,runBind] at rest
      cases rest

theorem indexOk (ok : run diskLayer (indexBlock ip n) s = .ok (blk,u)) :
    u = s ∧ addrAt (s.mem.inode ip).iAddr (n/iaddrsPerBlock + fsIaddrInDirectMin) ≠ 0 ∧
        blk = (addrAt (s.mem.inode ip).iAddr (n/iaddrsPerBlock + fsIaddrInDirectMin)).toNat ∨
      addrAt (s.mem.inode ip).iAddr (n/iaddrsPerBlock + fsIaddrInDirectMin) = 0 ∧ Cleared s.disk blk u.disk ∧
        ∃ addr, u.mem = s.mem.withInode ip {s.mem.inode ip with iAddr := addr} := by
  by_cases empty : addrAt (s.mem.inode ip).iAddr (n/iaddrsPerBlock + fsIaddrInDirectMin) = 0
  · exact Or.inr ⟨empty,clearedIndex empty ok⟩
  · have some : ¬ (addrAt (s.mem.inode ip).iAddr (n/iaddrsPerBlock + fsIaddrInDirectMin)).toNat = 0 := by
      intro zero
      exact empty (BitVec.eq_of_toNat_eq (by simpa using zero))
    simp only [indexBlock,getInode,runBind,runMemory,runPure,followOk,if_neg some,Except.ok.injEq,Prod.mk.injEq] at ok
    exact Or.inl ⟨ok.2.symm,empty,ok.1.symm⟩

theorem editComm (apart : b ≠ blk) (d e : Block) : (t.edit b d).edit blk e = (t.edit blk e).edit b d := by
  simp only [Disk.edit,Function.update_comm apart]

theorem editHeldOther (apart : b ≠ blk) (d : Block) : (t.edit blk d).held b = t.held b := Function.update_of_ne apart ..

theorem editHeld (d : Block) : (t.edit b d).held b = some d := Function.update_self ..

theorem runStoreEntry {f} (idle : Idle t blk) (bound : f < (superOf t.view).sNblocks.toNat)
    (there : Idle (t.edit blk (t.view blk)) ((superOf t.view).sFirstdataBlock.toNat + f))
    (d e : Block) : (superOf t.view).sFirstdataBlock.toNat + f ≠ blk ∧ Cleared t ((superOf t.view).sFirstdataBlock.toNat + f) (allocated t f) ∧
      run diskLayer (do
          setBlock blk e
          releaseBlock ((superOf t.view).sFirstdataBlock.toNat + f)
          releaseBlock blk
          pure ((superOf t.view).sFirstdataBlock.toNat + f))
        (⟨(setMapBit (t.edit blk d) (superOf t.view).bitmapStart f).edit ((superOf t.view).sFirstdataBlock.toNat + f) (fun _ => 0),k⟩ : State) =
          .ok ((superOf t.view).sFirstdataBlock.toNat + f,⟨leave (allocated t f) blk e,k⟩) := by
  have apart : (superOf t.view).sFirstdataBlock.toNat + f ≠ blk := by
    intro same
    have free := there.free
    rw [same,editHeld] at free
    cases free
  have free : t.held ((superOf t.view).sFirstdataBlock.toNat + f) = none := by
    have free := there.free
    rwa [editHeldOther apart] at free
  have held : ((setMapBit t (superOf t.view).bitmapStart f).edit blk e).held ((superOf t.view).sFirstdataBlock.toNat + f) = none := by
    rw [editHeldOther apart]
    exact free
  have first : (setMapBit (t.edit blk d) (superOf t.view).bitmapStart f).edit ((superOf t.view).sFirstdataBlock.toNat + f) (fun _ => 0) =
      ((setMapBit t (superOf t.view).bitmapStart f).edit ((superOf t.view).sFirstdataBlock.toNat + f) (fun _ => 0)).edit blk d :=
    (editComm (t := setMapBit t (superOf t.view).bitmapStart f) apart _ _).symm
  refine ⟨apart,⟨⟨f,bound,rfl,rfl⟩,free,there.inside⟩,?_⟩
  have last := runLeave (t := allocated t f) (k := k) idle.free e
  rw [first,runBind,runSet,followOk,runBind,editComm apart,runLeave held,followOk]
  exact (runBindOk diskLayer).mpr ⟨_,_,last,rfl⟩

theorem mapEntryOk (ok : run diskLayer (mapEntry dev blk n) s = .ok (b,u)) : u.mem = s.mem ∧ Idle s.disk blk ∧ n < iaddrsPerBlock ∧
    (chunk (s.disk.view blk) n ≠ 0 ∧ u.disk = s.disk ∧ b = (chunk (s.disk.view blk) n).toNat ∨
      chunk (s.disk.view blk) n = 0 ∧ b ≠ blk ∧ ∃ v, Cleared s.disk b v ∧
        u.disk = leave v blk (setChunk (s.disk.view blk) n (BitVec.ofNat 64 b))) := by
  obtain ⟨_,_,read,ok⟩ := runCut ok
  obtain ⟨root,idle,rfl⟩ := runBreadOk read
  rw [runBind,runData,followOk] at ok
  split_ifs at ok with outside empty
  · cases ok
  · obtain ⟨found,v,find,rest⟩ := runCut ok
    rcases clearedFind find with rfl | ⟨f,rfl,bound,there,rfl⟩
    · cases rest
    · obtain ⟨apart,cleared,ran⟩ := runStoreEntry (k := s.mem) idle bound there (s.disk.view blk)
        (setChunk (s.disk.view blk) n (BitVec.ofNat 64 ((superOf s.disk.view).sFirstdataBlock.toNat + f)))
      obtain ⟨rfl,rfl⟩ := Prod.mk.inj (Except.ok.inj (rest.symm.trans ran))
      exact ⟨rfl,idle,by omega,Or.inr ⟨empty,apart,_,cleared,rfl⟩⟩
  · rw [runBind,runRelease idle.free _ rfl,followOk] at ok
    obtain ⟨rfl,rfl⟩ := Prod.mk.inj (Except.ok.inj ok)
    exact ⟨rfl,idle,by omega,Or.inl ⟨empty,rfl,rfl⟩⟩

theorem clearedHigh (layout : Layout (superOf t.view) t.size) (positive : 0 < (superOf t.view).sFirstdataBlock.toNat) {u} (cleared : Cleared t b u) :
    tablesEnd (superOf t.view) ≤ b := by
  obtain ⟨f,bound,rfl,_⟩ := cleared.block
  have := layout.apart f bound
  omega

theorem clearedSmall {u : Disk} (cleared : Cleared t b u) : b < 2^33 := by
  obtain ⟨f,bound,rfl,_⟩ := cleared.block
  have := (superOf t.view).sFirstdataBlock.isLt
  have := (superOf t.view).sNblocks.isLt
  omega

theorem clearedView (layout : Layout (superOf t.view) t.size) {u : Disk} (cleared : Cleared t b u) {c : Nat}
    (high : tablesEnd (superOf t.view) ≤ c) :
    u.dirty c = t.dirty c ∧ u.view c = if c = b ∧ t.dirty c then fun _ => 0 else t.view c := by
  obtain ⟨f,bound,rfl,rfl⟩ := cleared.block
  have map := bitmapBlock layout (show f < _ by have := layout.blockMap; omega)
  have apart : c ≠ mapBlock (superOf t.view).bitmapStart f := by
    have := (tablesInside layout map.2).1
    omega
  have dirty : (setMapBit t (superOf t.view).bitmapStart f).dirty c = t.dirty c := Function.update_of_ne apart ..
  refine ⟨dirty,?_⟩
  by_cases same : c = (superOf t.view).sFirstdataBlock.toNat + f
  · rw [← same,allocated,← same,leave,dirty]
    cases t.dirty c with
    | true => simp
    | false => simpa using setMapView apart
  · rw [if_neg (by simp [same]),allocated,leaveView same,setMapView apart]

theorem clearedGeometry (layout : Layout (superOf t.view) t.size) {u} (cleared : Cleared t b u) :
    superOf u.view = superOf t.view ∧ u.size = t.size ∧ u.held = t.held := by
  obtain ⟨f,bound,rfl,rfl⟩ := cleared.block
  exact ⟨allocatedSuper layout bound,rfl,rfl⟩

theorem clearedFilled (layout : Layout (superOf t.view) t.size) (positive : 0 < (superOf t.view).sFirstdataBlock.toNat) {u : Disk}
    (cleared : Cleared t b u) :
    BitVec.ofNat 64 b ≠ 0 := by
  have := clearedSmall cleared
  have := clearedHigh layout positive cleared
  have := inodeStartNat layout
  have : (superOf t.view).inodeStart ≤ tablesEnd (superOf t.view) := Nat.le_add_right _ _
  intro zero
  have number : b%2^64 = 0 := by rw [← BitVec.toNat_ofNat,zero]; rfl
  omega

theorem indexKeeps (layout : Layout (superOf t.view) t.size) {u : Disk} {m : Kernel}
    (ok : run diskLayer (indexBlock ip n) ⟨t,k⟩ = .ok (blk,⟨u,m⟩)) :
    (superOf u.view = superOf t.view ∧ u.size = t.size) ∧ (tablesEnd (superOf t.view) ≤ blk → u.dirty blk = t.dirty blk) := by
  rcases indexOk ok with ⟨same,_⟩ | ⟨_,cleared,_⟩
  · cases same
    exact ⟨⟨rfl,rfl⟩,fun _ => rfl⟩
  · obtain ⟨super,size,_⟩ := clearedGeometry layout cleared
    exact ⟨⟨super,size⟩,fun high => (clearedView layout cleared high).1⟩

theorem leaveSelf (d : Block) : (leave t n d).view n = if t.dirty n then d else t.view n := by
  unfold leave
  cases t.dirty n with
  | true => simp
  | false => simp

end Disk

section Cache
variable {s : Store} {w : World Store Kernel}

theorem clearedReads (matched : Matches s t) (layout : Layout (superOf t.view) t.size) (positive : 0 < (superOf t.view).sFirstdataBlock.toNat)
    {u} (cleared : Cleared t b u) (after : Matches w.disk u) (released : ∃ r, cacheLayer.release b r = .ok w.disk)
    {P : Block → Prop} (zero : P fun _ => 0) : Reads b w P ↔ bufferDirty s b = true ∨ P (cachedView s b) := by
  obtain ⟨_,size,held⟩ := clearedGeometry layout cleared
  have idle : Idle u b := ⟨by rw [held]; exact cleared.idle.free,by rw [size]; exact cleared.idle.inside⟩
  rw [readsIff after idle released,(clearedView layout cleared (clearedHigh layout positive cleared)).2,matchesDirty matched,matchesView matched]
  cases t.dirty b with
  | true => simp [zero]
  | false => simp

theorem entryReads {v : World Store Kernel} (matched : Matches s t) (layout : Layout (superOf t.view) t.size)
    (positive : 0 < (superOf t.view).sFirstdataBlock.toNat) (index : run cacheLayer (indexBlock ip n) ⟨s,k⟩ = .ok (blk,w))
    (inside : n < fsIaddrInDirectNr*iaddrsPerBlock) (high : tablesEnd (superOf t.view) ≤ blk) (none : chunk (cachedView w.disk blk) n = 0)
    (ran : run cacheLayer (bmap ip (fsIaddrDirectNr + n)) ⟨s,k⟩ = .ok (b,v)) :
    Reads blk v (fun d => chunk d n = BitVec.ofNat 64 b) ↔ bufferDirty s blk = true := by
  obtain ⟨u,ok,after⟩ := fromCache matched index
  obtain ⟨⟨super,size⟩,dirty⟩ := indexKeeps layout ok
  rw [← super,← size] at layout
  rw [bmapIndirect (Nat.le_add_right _ _) (by omega),Nat.add_sub_cancel_left,runBind,index,followOk] at ran
  rw [matchesView after] at none
  obtain ⟨u',ok',after'⟩ := fromCache (k := w.mem) after ran
  obtain ⟨_,idle,small,⟨filled,_⟩ | ⟨_,apart,x,cleared,result⟩⟩ := mapEntryOk ok'
  · exact absurd none filled
  dsimp only at cleared result idle
  obtain ⟨same,view⟩ := clearedView layout cleared (c := blk) (by rw [super]; exact high)
  rw [if_neg fun both => apart both.1.symm] at view
  obtain ⟨_,blocks,held⟩ := clearedGeometry layout cleared
  have still : Idle u' blk := by
    rw [result]
    exact ⟨by rw [← idle.free,← held]; rfl,by have := idle.inside; rw [← blocks] at this; exact this⟩
  have filled := clearedFilled layout (by rw [super]; exact positive) cleared
  rw [readsIff after' still (entryReleases ran),matchesDirty matched,result,leaveSelf,same,dirty high,view]
  cases t.dirty blk with
  | true => exact iff_of_true (chunkSet _ small) rfl
  | false => exact iff_of_false (fun stored => filled (stored.symm.trans none)) Bool.false_ne_true

end Cache

theorem unwrittenReads {s : Store} {t : Disk} {sb : Superblock} (k : Kernel) (matched : Matches s t) (super : superOf (cachedView s) = sb)
    (layout : Layout sb s.blocks) (positive : 0 < sb.sFirstdataBlock.toNat) :
    (∀ b w, run cacheLayer (allocateBlock devRoot) ⟨s,k⟩ = .ok (some b,w) →
      (Reads b w (· = fun _ => 0) ↔ bufferDirty s b = true ∨ cachedView s b = fun _ => 0)) ∧
    ∀ ip n blk w, run cacheLayer (indexBlock ip n) ⟨s,k⟩ = .ok (blk,w) →
      (addrAt (k.inode ip).iAddr (n/iaddrsPerBlock + fsIaddrInDirectMin) = 0 →
        (Reads blk w (fun d => ∀ j < iaddrsPerBlock, chunk d j = 0) ↔
          bufferDirty s blk = true ∨ ∀ j < iaddrsPerBlock, chunk (cachedView s blk) j = 0)) ∧
      ∀ b v, n < fsIaddrInDirectNr*iaddrsPerBlock → tablesEnd sb ≤ blk → chunk (cachedView w.disk blk) n = 0 →
        run cacheLayer (bmap ip (fsIaddrDirectNr + n)) ⟨s,k⟩ = .ok (b,v) →
        (Reads blk v (fun d => chunk d n = BitVec.ofNat 64 b) ↔ bufferDirty s blk = true) := by
  rw [matchesView matched] at super
  have layout : Layout (superOf t.view) t.size := by
    rw [super,matched.size]
    exact layout
  have positive : 0 < (superOf t.view).sFirstdataBlock.toNat := by
    rw [super]
    exact positive
  refine ⟨fun b w ran => ?_,fun ip n blk w index => ⟨fun empty => ?_,fun b v inside high none ran => ?_⟩⟩
  · obtain ⟨u,ok,after⟩ := fromCache matched ran
    exact clearedReads matched layout positive (clearedAllocate ok) after (allocateReleases ran) rfl
  · obtain ⟨u,ok,after⟩ := fromCache matched index
    refine clearedReads matched layout positive (clearedIndex empty ok).1 after (indexReleases empty index) (by decide +kernel)
  · exact entryReads matched layout positive index inside (by rw [super]; exact high) none ran

theorem newImageReads : ∃ w, run cacheLayer (allocateBlock devRoot) ⟨smallStore,bootKernel [] []⟩ = .ok (some 11,w) ∧
    Reads 11 w (· = fun _ => 0) := by
  have matched : Matches smallStore (flat smallImage 64) := bootMatches smallImage 64
  have super : superOf (cachedView smallStore) = ⟨64,16,1,1,10,53,Mkfs.fsMagicNr⟩ := by
    rw [matchesView matched]
    exact smallSuper
  have layout : Layout ⟨64,16,1,1,10,53,Mkfs.fsMagicNr⟩ smallStore.blocks := by
    rw [← smallSuper]
    exact smallLayout
  have ran : result (run cacheLayer (allocateBlock devRoot) ⟨smallStore,bootKernel [] []⟩) = some (some 11) := by
    rw [smallStore,(smallRun (by decide) _ _).1]
    decide +kernel
  obtain ⟨w,ok⟩ := resultOk ran
  refine ⟨w,ok,((unwrittenReads (bootKernel [] []) matched super layout (by decide)).1 11 w ok).mpr (Or.inr ?_)⟩
  rw [matchesView matched]
  have clear : ∀ i, smallImage 11 i = 0 := by decide +kernel
  exact funext clear

theorem readsResult {α β : Type} {p : Fs α} {w : World Store Kernel} {a : α} {b : Nat} {P : Block → Prop} (part : Block → β) (y : β)
    (refused : ∀ d, part d = y → ¬ P d) (ran : result (run cacheLayer (do let a ← p; let d ← nextRead b; pure (a,part d)) w) = some (a,y)) :
    ∃ v, run cacheLayer p w = .ok (a,v) ∧ ¬ Reads b v P := by
  obtain ⟨u,ok⟩ := resultOk ran
  obtain ⟨a',v,first,rest⟩ := runCut ok
  obtain ⟨d',x,read,done⟩ := runCut rest
  cases done
  refine ⟨v,first,fun reads => ?_⟩
  rcases reads v.disk .none with stuck | ⟨e,y,again,holds⟩
  · exact absurd (read.symm.trans stuck) (by simp)
  · obtain ⟨rfl,_⟩ := Prod.mk.inj (Except.ok.inj (read.symm.trans again))
    exact refused _ rfl holds

def staleImage : Mkfs.Image := Function.update smallImage 11 fun _ => 1

theorem unwrittenLost :
    (∃ w, run cacheLayer (allocateBlock devRoot) ⟨boot staleImage 64,bootKernel [] []⟩ = .ok (some 11,w) ∧
      ¬ Reads 11 w (· = fun _ => 0)) ∧
    ∃ w, run cacheLayer (bmap 0 fsIaddrDirectNr) ⟨smallStore,emptyFile⟩ = .ok (12,w) ∧ ¬ Reads 11 w (fun d => chunk d 0 = 12) := by
  constructor
  · refine readsResult (byteAt · 0) 1 (fun d one zero => ?_) ?_
    · rw [zero] at one
      cases one
    · rw [(smallRun (by decide) _ _).1]
      decide +kernel
  · refine readsResult (chunk · 0) 0 (fun d none stored => ?_) ?_
    · rw [none] at stored
      cases stored
    · rw [smallStore,(smallRun (by decide) _ _).1]
      decide +kernel

end TskSw.FreshBlocks
