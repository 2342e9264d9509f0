import TskSw.DataBlocks

/-! The scan for a free inode and for a free data block. A bitmap block has `BITS_PER_BLOCK`
bits, but the code puts eight of them into each 64-bit word, so it leaves the block behind
the first 512. -/
namespace TskSw.Allocators
open Bytes BlockProgram BlkIo BlkFlat FsLayout FsKernel DataBitmap DataBlocks

def place (start i : Nat) : Nat × Nat × Nat := (mapBlock start i,(i%bitsPerBlock)/chunkBytes,(i%bitsPerBlock)%chunkBytes)

def rawBit (view : Nat → Block) (p : Nat × Nat × Nat) : Bool := (chunk (view p.1) p.2.1).getLsbD p.2.2

structure FirstFree (start count : Nat) (before after : Nat → Block) (found : Option Nat) : Prop where
  distinct : ∀ i < count, ∀ j < count, place start i = place start j → i = j
  full : found = none ↔ ∀ i < count, rawBit before (place start i) = true
  kept : found = none → after = before
  least : ∀ i, found = some i → i < count ∧ rawBit before (place start i) = false ∧ ∀ j < i, rawBit before (place start j) = true
  set : ∀ i, found = some i → rawBit after (place start i) = true ∧
    ∀ p, p.2.1 < chunksPerBlock → p ≠ place start i → rawBit after p = rawBit before p

def Works {α : Type} (p : Fs (Option α)) (name : Nat → α) (start count : Nat) (s : Store) (k : Kernel) : Prop :=
  ∃ found s', run cacheLayer p ⟨s,k⟩ = .ok (found.map name,⟨s',k⟩) ∧ FirstFree start count (cachedView s) (cachedView s') found

variable {t : Disk} {start count i : Nat} {k : Kernel}

section Bits
variable {view : Nat → Block} {p : Nat × Nat × Nat}

theorem rawMapBit : rawBit view (place start i) = mapBit view start i := by
  rw [mapBit,bitAt,hasBitGet _ _ ((Nat.mod_lt _ (by decide)).trans (by decide : chunkBytes < 64))]
  rfl

theorem placeInjective {j} (same : place start i = place start j) : i = j := by
  simp only [place,mapBlock,Prod.mk.injEq,bitsPerBlock,bsize,chunkBytes] at same
  omega

theorem rawBitSet (reach : reachable i) (other : p ≠ place start i) : rawBit (setMapBit t start i).view p = rawBit t.view p := by
  obtain ⟨n,word,bit⟩ := p
  by_cases block : n = mapBlock start i
  · subst block
    by_cases same : word = (i%bitsPerBlock)/chunkBytes
    · subst same
      have apart : bit ≠ (i%bitsPerBlock)%chunkBytes := fun e => other (by rw [e]; rfl)
      simp only [rawBit,setMapBit,storeView,withBit,chunkSet _ reach,BitVec.getLsbD_or,
        shiftedOne ((Nat.mod_lt _ (by decide)).trans (by decide : chunkBytes < 64)),apart,decide_false,Bool.or_false]
    · simp only [rawBit,setMapBit,storeView,withBit,chunkSetOther _ same]
  · simp only [rawBit,setMapView block]

theorem rawBitTaken (reach : reachable i) : rawBit (setMapBit t start i).view (place start i) = true := by
  rw [rawMapBit,setMapBits reach]
  simp

theorem fullFree (full : ∀ i < count, mapBit view start i = true) : FirstFree start count view view none where
  distinct _ _ _ _ := placeInjective
  full := iff_of_true rfl fun i inside => by rw [rawMapBit]; exact full i inside
  kept _ := rfl
  least _ never := by cases never
  set _ never := by cases never

theorem takenFree (inside : i < count) (reach : reachable i) (clear : mapBit t.view start i = false) (set : ∀ j < i, mapBit t.view start j = true) :
    FirstFree start count t.view (setMapBit t start i).view (some i) where
  distinct _ _ _ _ := placeInjective
  full := by
    refine iff_of_false nofun fun full => ?_
    have wrong := full i inside
    rw [rawMapBit,clear] at wrong
    cases wrong
  kept never := by cases never
  least j same := by
    cases same
    refine ⟨inside,by rw [rawMapBit]; exact clear,fun j below => ?_⟩
    rw [rawMapBit]
    exact set j below
  set j same := by
    cases same
    exact ⟨rawBitTaken reach,fun p _ other => rawBitSet reach other⟩

end Bits

section Scan
variable {dev : BitVec 64} {rest : Nat}

theorem scanFull (root : dev.toNat = rootDev) (idle : ∀ j < i + rest, Idle t (mapBlock start j)) (reach : ∀ j < i + rest, reachable j)
    (set : ∀ j, i ≤ j → j < i + rest → mapBit t.view start j = true) :
    run diskLayer (scanBitmap dev start rest i) ⟨t,k⟩ = .ok (none,⟨t,k⟩) := by
  induction rest generalizing i with
  | zero => rfl
  | succ rest ih =>
    have inside : ¬ chunksPerBlock ≤ (i%bitsPerBlock)/chunkBytes := Nat.not_le.mpr (reach i (by omega))
    rw [scanBitmap,runBind,runTakeBit root (idle i (by omega)),if_neg inside,set i le_rfl (by omega)]
    exact ih (fun j below => idle j (by omega)) (fun j below => reach j (by omega)) fun j low high => set j (by omega) (by omega)

theorem scanOverruns {f} (root : dev.toNat = rootDev) (below : i ≤ f) (upto : f < i + rest) (idle : ∀ j ≤ f, Idle t (mapBlock start j))
    (reach : ∀ j < f, reachable j) (outside : ¬ reachable f) (set : ∀ j, i ≤ j → j < f → mapBit t.view start j = true) :
    run diskLayer (scanBitmap dev start rest i) ⟨t,k⟩ = .error .outOfBounds := by
  induction rest generalizing i with
  | zero => omega
  | succ rest ih =>
    rw [scanBitmap,runBind,runTakeBit root (idle i below)]
    by_cases here : i = f
    · subst here
      rw [if_pos (Nat.not_lt.mp outside)]
      rfl
    · have inside : ¬ chunksPerBlock ≤ (i%bitsPerBlock)/chunkBytes := Nat.not_le.mpr (reach i (by omega))
      rw [if_neg inside,set i le_rfl (by omega)]
      exact ih (by omega) (by omega) fun j low high => set j (by omega) high

theorem scanCases {count} (root : dev.toNat = rootDev) (idle : ∀ j < count, Idle t (mapBlock start j)) :
    (∃ f < count, reachable f ∧ mapBit t.view start f = false ∧ (∀ j < f, mapBit t.view start j = true) ∧
      (count ≤ 512 ∨ ∃ i < 512, mapBit t.view start i = false) ∧
      run diskLayer (scanBitmap dev start count 0) ⟨t,k⟩ = .ok (some f,⟨setMapBit t start f,k⟩)) ∨
    ((∀ i < count, mapBit t.view start i = true) ∧ count ≤ 512 ∧
      run diskLayer (scanBitmap dev start count 0) ⟨t,k⟩ = .ok (none,⟨t,k⟩)) ∨
    (¬ (count ≤ 512 ∨ ∃ i < 512, mapBit t.view start i = false) ∧
      run diskLayer (scanBitmap dev start count 0) ⟨t,k⟩ = .error .outOfBounds) := by
  by_cases some : ∃ i, i < count ∧ i < 512 ∧ mapBit t.view start i = false
  · obtain ⟨i,inside,small,clear⟩ := some
    obtain ⟨f,below,clear,set⟩ := firstClear (p := mapBit t.view start) clear
    refine Or.inl ⟨f,by omega,reachableSmall (by omega),clear,set,Or.inr ⟨f,by omega,clear⟩,?_⟩
    exact runScan root (Nat.zero_le f) (by omega) (fun j _ high => idle j (by omega)) (fun j _ high => reachableSmall (by omega))
      (fun j _ low => set j low) clear
  · have set : ∀ i < count, i < 512 → mapBit t.view start i = true := by
      intro i inside small
      by_contra clear
      exact some ⟨i,inside,small,by simpa using clear⟩
    by_cases few : count ≤ 512
    · refine Or.inr (Or.inl ⟨fun i inside => set i inside (by omega),few,?_⟩)
      exact scanFull root (fun j below => idle j (by omega)) (fun j below => reachableSmall (by omega)) fun j _ high => set j (by omega) (by omega)
    · refine Or.inr (Or.inr ⟨?_,?_⟩)
      · rintro (few' | ⟨i,small,clear⟩)
        · exact few few'
        · exact some ⟨i,by omega,small,clear⟩
      · exact scanOverruns root (Nat.zero_le 512) (by omega) (fun j high => idle j (by omega)) (fun j below => reachableSmall below)
          (show ¬ (512%bitsPerBlock)/chunkBytes < chunksPerBlock by decide)
          fun j _ below => set j (by omega) below

end Scan

section Allocators
variable {s : Store} {α : Type} {p : Fs (Option α)} {name : Nat → α}

theorem scanWorks (matched : Matches s t) (idle : ∀ j < count, Idle t (mapBlock start j)) (last : Option Nat → Fs (Option α))
    (runs : run diskLayer p ⟨t,k⟩ = run diskLayer (scanBitmap devRoot start count 0 >>= last) ⟨t,k⟩)
    (none : last none = pure none) (found : ∀ f < count, ∃ u, run diskLayer (last (some f)) ⟨setMapBit t start f,k⟩ = .ok
    (some (name f),⟨u,k⟩) ∧
      u.view = (setMapBit t start f).view) :
    run cacheLayer p ⟨s,k⟩ = .error .noBuffers ∨
      (Works p name start count s k ↔ count ≤ 512 ∨ ∃ i < 512, rawBit (cachedView s) (place start i) = false) := by
  have view := matchesView matched
  rw [runBind] at runs
  simp only [Works,rawMapBit,view]
  rcases scanCases (k := k) devRootNat idle with ⟨f,inside,reach,clear,set,met,ran⟩ | ⟨full,few,ran⟩ | ⟨broken,ran⟩
  · obtain ⟨u,ended,same⟩ := found f inside
    rw [ran,followOk,ended] at runs
    rcases toCache matched runs with stuck | ⟨s',ok,after⟩
    · exact Or.inl stuck
    refine Or.inr (iff_of_true ⟨some f,s',ok,?_⟩ met)
    rw [matchesView after,same]
    exact takenFree inside reach clear set
  · rw [ran,followOk,none,runPure] at runs
    rcases toCache matched runs with stuck | ⟨s',ok,after⟩
    · exact Or.inl stuck
    refine Or.inr (iff_of_true ⟨.none,s',ok,?_⟩ (Or.inl few))
    rw [matchesView after]
    exact fullFree full
  · rw [ran,followError] at runs
    rcases toCacheError matched runs with stuck | stopped
    · exact Or.inl stuck
    refine Or.inr (iff_of_false ?_ broken)
    rintro ⟨found,s',ok,_⟩
    rw [stopped] at ok
    cases ok

end Allocators

theorem allocatorsTakeFirstFree {s : Store} {t : Disk} {sb : Superblock} (k : Kernel) (matched : Matches s t)
    (quiet : ∀ i ∈ s.cache.mru, (s.cache.buf i).busy = false) (block : superBlockBlkNo < s.blocks) (super : superOf (cachedView s) = sb) :
    (sb.sNinodes.toNat ≤ bitsPerBlock*sb.sImapBlocks.toNat → resvBlockNr + superBlockBlkNr + sb.sImapBlocks.toNat ≤ s.blocks →
      run cacheLayer (getFreeInode devRoot) ⟨s,k⟩ = .error .noBuffers ∨
        (Works (getFreeInode devRoot) (BitVec.ofNat 32) (resvBlockNr + superBlockBlkNr) sb.sNinodes.toNat s k ↔
          sb.sNinodes.toNat ≤ 512 ∨ ∃ i < 512, rawBit (cachedView s) (place (resvBlockNr + superBlockBlkNr) i) = false)) ∧
    (sb.sNblocks.toNat ≤ bitsPerBlock*sb.sBmapBlocks.toNat → sb.bitmapStart + sb.sBmapBlocks.toNat ≤ s.blocks →
      sb.sFirstdataBlock.toNat + sb.sNblocks.toNat ≤ s.blocks →
      run cacheLayer (findFreeDataBlock devRoot) ⟨s,k⟩ = .error .noBuffers ∨
        (Works (findFreeDataBlock devRoot) (sb.sFirstdataBlock.toNat + ·) sb.bitmapStart sb.sNblocks.toNat s k ↔
          sb.sNblocks.toNat ≤ 512 ∨ ∃ i < 512, rawBit (cachedView s) (place sb.bitmapStart i) = false)) := by
  have free := matchesQuiet matched quiet
  have size := matched.size
  rw [matchesView matched] at super
  have read : run diskLayer (readSuperblock devRoot) ⟨t,k⟩ = .ok (sb,⟨t,k⟩) := by
    rw [runSuperblock devRootNat ⟨free _,by rw [size]; exact block⟩]
    exact congrArg (fun sb => Except.ok (sb,_)) super
  have maps : ∀ start count blocks, count ≤ bitsPerBlock*blocks → start + blocks ≤ s.blocks → ∀ j < count, Idle t (mapBlock start j) := by
    intro start count blocks fits inside j below
    refine ⟨free _,?_⟩
    rw [size]
    simp only [mapBlock,bitsPerBlock,bsize] at fits ⊢
    omega
  refine ⟨fun fits inside => ?_,fun fits inside data => ?_⟩
  · refine scanWorks matched (maps _ _ _ fits inside) (fun found => pure (found.map (BitVec.ofNat 32))) ?_ rfl fun f _ => ⟨_,rfl,rfl⟩
    rw [getFreeInode,runBind,read,followOk]
  · apply scanWorks matched (maps _ _ _ fits inside)
    · rw [findFreeDataBlock,runBind,read,followOk]
    · rfl
    · intro f below
      have there : Idle (setMapBit t sb.bitmapStart f) (sb.sFirstdataBlock.toNat + f) := by
        refine ⟨free _,?_⟩
        change _ < t.size
        omega
      refine ⟨(setMapBit t sb.bitmapStart f).edit (sb.sFirstdataBlock.toNat + f) fun _ => 0,?_,rfl⟩
      simp only [runBind,runBread devRootNat there,followOk,runSet,runPure]

theorem smallAllocates : Works (getFreeInode devRoot) (BitVec.ofNat 32) 2 16 smallStore (bootKernel [] []) ∧
    Works (findFreeDataBlock devRoot) (10 + ·) 3 53 smallStore (bootKernel [] []) := by
  have matched : Matches smallStore (flat smallImage 64) := bootMatches smallImage 64
  have super : superOf (cachedView smallStore) = ⟨64,16,1,1,10,53,Mkfs.fsMagicNr⟩ := by
    rw [matchesView matched]
    exact smallSuper
  obtain ⟨inodes,blocks⟩ := allocatorsTakeFirstFree (bootKernel [] []) matched (by simp [smallStore,boot,bufferCacheInit,emptyBuf])
    (by decide) super
  refine ⟨?_,?_⟩
  · rcases inodes (by decide) (by decide) with stuck | works
    · exact absurd stuck (smallReady (by decide) (by decide +kernel))
    · exact works.mpr (Or.inl (by decide))
  · rcases blocks (by decide) (by decide) (by decide) with stuck | works
    · exact absurd stuck (smallReady (by decide) (by decide +kernel))
    · exact works.mpr (Or.inl (by decide))

def crowdedImage : Mkfs.Image :=
  Function.update (Function.update (fun _ _ => 0) superBlockBlkNo
    (patch (fun _ => 0) 0 (Mkfs.superblockBytes ⟨210,600,1,1,204,6,Mkfs.fsMagicNr⟩)))
    (resvBlockNr + superBlockBlkNr) (fun _ => 255)

theorem scanLeavesBlock : fault (run cacheLayer (getFreeInode devRoot) ⟨boot crowdedImage 210,bootKernel [] []⟩) = some .outOfBounds ∧
    ¬ Works (getFreeInode devRoot) (BitVec.ofNat 32) 2 600 (boot crowdedImage 210) (bootKernel [] []) := by
  have super : superOf crowdedImage = ⟨210,600,1,1,204,6,Mkfs.fsMagicNr⟩ := by decide +kernel
  have every : ∀ j < 512, mapBit crowdedImage 2 j = true := by decide +kernel
  have scan : run diskLayer (scanBitmap devRoot 2 600 0) ⟨flat crowdedImage 210,bootKernel [] []⟩ = .error .outOfBounds := by
    refine scanOverruns devRootNat (Nat.zero_le 512) (by omega) (fun j high => ⟨rfl,?_⟩) (fun j below => reachableSmall below)
      (show ¬ (512%bitsPerBlock)/chunkBytes < chunksPerBlock by decide) fun j _ below => every j below
    simp only [mapBlock,bitsPerBlock,bsize,flat]
    omega
  have stops : run diskLayer (getFreeInode devRoot) ⟨flat crowdedImage 210,bootKernel [] []⟩ = .error .outOfBounds := by
    rw [getFreeInode,runBind,runSuperblock devRootNat ⟨rfl,by decide⟩,followOk]
    change run diskLayer (scanBitmap devRoot 2 (superOf crowdedImage).sNinodes.toNat 0 >>= _) _ = _
    rw [super,runBind]
    exact congrArg (follow · _) scan
  have fails : fault (run cacheLayer (getFreeInode devRoot) ⟨boot crowdedImage 210,bootKernel [] []⟩) = some .outOfBounds := by
    rw [(smallRun (by decide) _ _).2,stops]
    rfl
  refine ⟨fails,?_⟩
  rintro ⟨found,s',ran,_⟩
  rw [ran] at fails
  cases fails

end TskSw.Allocators
