import TskSw.FsTree

/-! The steps of the calls, each with what it leaves of the invariant: a new inode, a
lookup, an entry written or cleared, and the walk along a path. -/
namespace TskSw.FsSteps
open Bytes BlockProgram BlkIo BlkFlat FsLayout FsKernel DataBitmap DataBlocks Bmap Inodes InodeIo CString Directory FsCalls FsTree
open DirectoryMap (Live Replaced replacedHere replacedOther searchSome searchNone writtenReplaced freeSlotDead)

variable {owed : Option (BitVec 32)} {s : State} {t : Disk} {i dp : Nat}

section Allocate
variable {u : State} {inum : BitVec 32}

theorem sameRootTrans {u v} (first : SameRoot t u) (second : SameRoot u v) : SameRoot t v := by
  refine ⟨second.root.trans first.root,fun n direct some => ?_⟩
  have next := second.data n direct (by rw [first.root]; exact some)
  rw [first.root] at next
  exact next.trans (first.data n direct some)

theorem namesFresh (h : Rooted owed t) (clear : inodeBit t.view inum = false) : names t.view (rootOf t.view) inum = 0 := by
  refine Finset.card_eq_zero.mpr (Finset.filter_eq_empty_iff.mpr fun j member both => ?_)
  have live : Live (entryAt t.view (rootOf t.view) j) := by
    rw [Live,both.1]
    exact both.2
  have bit := (h.live j (Finset.mem_range.mp member) live).2
  rw [both.1,clear] at bit
  cases bit

theorem runFreeInodeOk {dev found} (ok : run diskLayer (getFreeInode dev) s = .ok (found,u)) :
    (found = none ∧ u = s) ∨ ∃ inum, found = some inum ∧ inum.toNat < (superOf s.disk.view).sNinodes.toNat ∧
      Found dev s u (resvBlockNr + superBlockBlkNr) 0 inum.toNat := by
  have word := (superOf s.disk.view).sNinodes.isLt
  obtain ⟨sb,_,first,rest⟩ := runCut ok
  obtain ⟨_,_,rfl,rfl⟩ := runSuperblockOk first
  obtain ⟨hit,v,scan,rest⟩ := runCut rest
  cases rest
  rcases runScanOk scan with ⟨rfl,rfl⟩ | ⟨f,rfl,bound,hit⟩
  · exact Or.inl ⟨rfl,rfl⟩
  · have small : (BitVec.ofNat 32 f).toNat = f := by
      rw [BitVec.toNat_ofNat]
      omega
    refine Or.inr ⟨BitVec.ofNat 32 f,rfl,?_,?_⟩
    · rw [small]
      simpa using bound
    · rw [small]
      exact hit

def freshInode (t : Disk) (inum : BitVec 32) (mode : BitVec 32) : Disk :=
  t.store (inodeBlock (superOf t.view) inum) (setMode (clearDInode (t.view (inodeBlock (superOf t.view) inum))
    (inum.toNat % inodesPerBlock)) (inum.toNat % inodesPerBlock) mode)

theorem runFreshInode {k dev} (h : Tables (superOf t.view) t) (root : dev.toNat = rootDev)
    (numbered : inum.toNat < (superOf t.view).sNinodes.toNat) (mode : BitVec 32) (q : Fs (Option Nat)) :
    run diskLayer (do
      let (blk,index) ← readDiskInode dev inum
      let d ← blockData blk
      setBlock blk (setMode (clearDInode d index) index mode)
      writeBlock blk
      releaseBlock blk
      q) ⟨t,k⟩ = run diskLayer q ⟨freshInode t inum mode,k⟩ := by
  have free := h.free _ ((inodeBlockLow h inum).trans' (by decide)) (inodeBlockTable numbered)
  simp only [runBind,followOk,runReadDiskInode root (tablesSuper h) (tablesInode h numbered),runData,runSet,runWrite]
  rw [runRelease (t := t.store (inodeBlock (superOf t.view) inum) _) free _ (storeView _).symm]
  rfl

theorem freshRecord (h : Rooted owed t) (inum mode : BitVec 32) :
    diskInode (freshInode t inum mode).view inum = ⟨mode,0,0,0,0,fun _ => 0⟩ ∧
      ∀ m, m ≠ inum → diskInode (freshInode t inum mode).view m = diskInode t.view m := by
  have low := inodeBlockLow (rootedTables h) inum
  have super : superOf (freshInode t inum mode).view = superOf t.view := by
    refine congrArg superblockAt ?_
    have apart : superBlockBlkNo ≠ inodeBlock (superOf t.view) inum := by
      rw [superBlockBlkNo]
      omega
    simp [freshInode,Disk.store,apart]
  constructor
  · rw [diskInode,super,freshInode,storeView]
    exact freshDInode mode (Nat.mod_lt _ (by decide))
  · intro m apart
    rw [diskInode,super]
    by_cases same : inodeBlock (superOf t.view) m = inodeBlock (superOf t.view) inum
    · have index : inum.toNat % inodesPerBlock ≠ m.toNat % inodesPerBlock := by
        intro e
        refine apart (BitVec.eq_of_toNat_eq ?_)
        simp only [inodeBlock,inodesPerBlock,bsize,dInodeBytes] at same e
        omega
      rw [same,freshInode,storeView,freshDInodeOther mode index,diskInode,same]
    · rw [diskInode]
      simp [freshInode,Disk.store,same]

theorem plainFresh (view : Nat → Block) (inum : BitVec 32) :
    Plain view (({emptyInode with inum := inum, iDev := devRoot}).load ⟨fsImodeFile,0,0,0,0,fun _ => 0⟩) := by
  refine ⟨(by decide : fsImodeFile ≠ fsImodeDir),Nat.zero_le _,fun n some => absurd ?_ some⟩
  unfold addrAt
  split <;> rfl

theorem freshSound (h : Sound none s) (other : inum ≠ rootIno) (numbered : inum.toNat < (superOf s.disk.view).sNinodes.toNat)
    (unused : ∀ j, 0 < (s.mem.inode j).ref → (s.mem.inode j).inum ≠ inum) (unnamed : names s.disk.view (rootOf s.disk.view) inum = 0) :
    Sound none ⟨freshInode s.disk inum fsImodeFile,s.mem⟩ ∧ Evolves s.disk (freshInode s.disk inum fsImodeFile) ∧
      SameRoot s.disk (freshInode s.disk inum fsImodeFile) ∧ (stored (freshInode s.disk inum fsImodeFile).view inum).iMode = fsImodeFile := by
  obtain ⟨mine,others⟩ := freshRecord h.disk inum fsImodeFile
  obtain ⟨evolves,same⟩ := recordEvolves h.disk other numbered others
  have here : stored (freshInode s.disk inum fsImodeFile).view inum =
      ({emptyInode with inum := inum, iDev := devRoot}).load ⟨fsImodeFile,0,0,0,0,fun _ => 0⟩ := by rw [stored,mine]
  have kept : ∀ m, m ≠ inum → stored (freshInode s.disk inum fsImodeFile).view m = stored s.disk.view m := by
    intro m apart
    rw [stored,others m apart]
    rfl
  refine ⟨⟨?_,?_⟩,evolves,same,by rw [here]; rfl⟩
  · refine rootedSame h.disk evolves same (fun m below apart => ?_) fun m below mode => ?_
    · by_cases e : m = inum
      · subst e
        change Plain _ (stored (freshInode s.disk m fsImodeFile).view m)
        rw [here]
        exact plainFresh _ _
      · change Plain _ (stored (freshInode s.disk inum fsImodeFile).view m)
        rw [kept m e]
        exact h.disk.plain m below apart
    · change (stored (freshInode s.disk inum fsImodeFile).view m).iMode = _ at mode
      change (stored (freshInode s.disk inum fsImodeFile).view m).iNlink.toNat = _
      by_cases e : m = inum
      · subst e
        rw [here,unnamed]
        rfl
      · rw [kept m e] at mode ⊢
        exact h.disk.links m below mode
  · refine ⟨h.cache.inside,fun j used => ?_,h.cache.unique⟩
    exact slotSame evolves same (h.cache.slot j used) (kept _ (unused j used))

theorem allocateSound (h : Sound none s) (ok : run diskLayer (inodeAllocate devRoot fsImodeFile) s = .ok (some i,u)) :
    ∃ inum, inum.toNat < (superOf s.disk.view).sNinodes.toNat ∧ inodeBit s.disk.view inum = false ∧ Sound none u ∧
      (u.mem.inode i).inum = inum ∧ inodeBit u.disk.view inum = true ∧ (stored u.disk.view inum).iMode = fsImodeFile ∧
      Stays s u ∧ Evolves s.disk u.disk ∧ SameRoot s.disk u.disk := by
  obtain ⟨sb,v,first,ok⟩ := runCut ok
  rw [(runSuperblockOk first).2.2.2] at ok
  obtain ⟨found,w,second,ok⟩ := runCut ok
  rcases runFreeInodeOk second with ⟨rfl,_⟩ | ⟨inum,rfl,numbered,taken⟩
  · cases ok
  obtain rfl := taken.result
  have clear : inodeBit s.disk.view inum = false := taken.clear
  have other : inum ≠ rootIno := by
    rintro rfl
    rw [h.disk.reserved.2] at clear
    cases clear
  obtain ⟨evolves,same,bit,records⟩ := mapEvolves h.disk numbered taken.reach
  have kept : ∀ m, m.toNat < (superOf s.disk.view).sNinodes.toNat →
      stored (setMapBit s.disk (resvBlockNr + superBlockBlkNr) inum.toNat).view m = stored s.disk.view m := by
    intro m below
    rw [stored,records m below]
    rfl
  have middle : Sound none ⟨setMapBit s.disk (resvBlockNr + superBlockBlkNr) inum.toNat,s.mem⟩ := by
    refine ⟨rootedSame h.disk evolves same (fun m below apart => ?_) fun m below mode => ?_,h.cache.inside,fun j used => ?_,h.cache.unique⟩
    · rw [kept m below]
      exact h.disk.plain m below apart
    · rw [kept m below] at mode ⊢
      exact h.disk.links m below mode
    · have slot := h.cache.slot j used
      exact slotSame evolves same slot (kept _ slot.number)
  have unused : ∀ j, 0 < (s.mem.inode j).ref → (s.mem.inode j).inum ≠ inum := by
    rintro j used rfl
    rw [(h.cache.slot j used).bit] at clear
    cases clear
  have unnamed : names (setMapBit s.disk (resvBlockNr + superBlockBlkNr) inum.toNat).view
      (rootOf (setMapBit s.disk (resvBlockNr + superBlockBlkNr) inum.toNat).view) inum = 0 := by
    rw [namesSame h.disk same]
    exact namesFresh h.disk clear
  have below : inum.toNat < (superOf (setMapBit s.disk (resvBlockNr + superBlockBlkNr) inum.toNat).view).sNinodes.toNat := by
    rw [evolves.super]
    exact numbered
  obtain ⟨sound,evolves',same',mode⟩ := freshSound middle other below unused unnamed
  rw [runFreshInode (rootedTables middle.disk) devRootNat below] at ok
  obtain ⟨j,w,get,ok⟩ := runCut ok
  cases ok
  have bit' := evolves'.bits inum below bit
  obtain ⟨sound',disk,number,stays⟩ := getSound sound (by dsimp only; rw [evolves'.super]; exact below) bit' get
  rw [disk]
  exact ⟨inum,numbered,clear,sound',number,bit',mode,fun j m held =>
    stays j m ⟨held.used,held.valid,held.number⟩,evolvesTrans evolves evolves',sameRootTrans same same'⟩

end Allocate

section Lookup
variable {u : State} {name : List UInt8}

theorem heldListing (h : Sound owed s) (held : Held s dp rootIno) : Listing s.disk (s.mem.inode dp) :=
  slotListing h.disk (h.cache.slot dp held.used) held.valid held.number

theorem heldContent (h : Sound owed s) (held : Held s dp rootIno) : content (s.mem.inode dp) = rootOf s.disk.view :=
  slotRoot (h.cache.slot dp held.used) held.valid held.number

theorem heldCount (h : Sound owed s) (held : Held s dp rootIno) : entryCount (s.mem.inode dp) = entryCount (rootOf s.disk.view) := by
  rw [← heldContent h held]
  rfl

theorem heldEntry (h : Sound owed s) (held : Held s dp rootIno) (j : Nat) :
    entryAt s.disk.view (s.mem.inode dp) j = entryAt s.disk.view (rootOf s.disk.view) j := by
  rw [← heldContent h held]
  rfl

theorem lookupSound (h : Sound owed s) (held : Held s dp rootIno) {r}
    (ok : run diskLayer (inodeDirlookup dp name) s = .ok (r,u)) : Sound owed u ∧ u.disk = s.disk ∧ Stays s u ∧
      ((r = none ∧ u = s ∧ search s.disk.view (s.mem.inode dp) (hit name) = none) ∨
        ∃ i j, r = some (i,direntSize*j) ∧ j < entryCount (s.mem.inode dp) ∧
          hit name (entryAt s.disk.view (s.mem.inode dp) j) = true ∧
          (u.mem.inode i).inum = (entryAt s.disk.view (s.mem.inode dp) j).dIno) := by
  have look := runDirlookup (heldListing h held).legible name
  rw [show (⟨s.disk,s.mem⟩ : State) = s from rfl,ok] at look
  cases found : search s.disk.view (s.mem.inode dp) (hit name) with
  | none =>
    rw [found] at look
    cases look
    exact ⟨h,rfl,fun _ _ held => held,Or.inl ⟨rfl,rfl,rfl⟩⟩
  | some j =>
    simp only [found] at look
    obtain ⟨inside,here,_⟩ := searchSome.mp found
    have live : Live (entryAt s.disk.view (s.mem.inode dp) j) := (of_decide_eq_true here).1
    cases get : run diskLayer (inodeGet devRoot (entryAt s.disk.view (s.mem.inode dp) j).dIno) s with
    | error e =>
      rw [get] at look
      cases look
    | ok out =>
      obtain ⟨i,v⟩ := out
      rw [get] at look
      cases look
      rw [heldCount h held] at inside
      rw [heldEntry h held] at live
      obtain ⟨numbered,bit⟩ := h.disk.live j inside live
      rw [← heldEntry h held] at numbered bit
      obtain ⟨sound,disk,number,stays⟩ := getSound h numbered bit get
      refine ⟨sound,disk,stays,Or.inr ⟨i,j,rfl,?_,here,number⟩⟩
      rw [heldCount h held]
      exact inside

theorem heldDirectory (h : Sound owed s) {inum} (held : Held s dp inum) (mode : (s.mem.inode dp).iMode = fsImodeDir) :
    inum = rootIno := by
  rw [← held.number]
  exact slotDirectory (h.cache.slot dp held.used) held.valid mode

theorem lookupRoot (h : Sound owed s) {inum : BitVec 32} (held : Held s dp inum) {r : Option (Nat × Nat)}
    (ok : run diskLayer (inodeDirlookup dp name) s = .ok (r,u)) : Held s dp rootIno := by
  obtain ⟨x,v,get,ok⟩ := runCut ok
  cases get
  obtain ⟨_,w,assertion,_⟩ := runCut ok
  obtain rfl := heldDirectory h held (runKassertOk assertion).1
  exact held

theorem unlockPutSound {a b : Unit} {v : State} (h : Sound owed s) (unlock : run diskLayer (inodeUnlock i) s = .ok (a,v))
    (put : run diskLayer (inodePut i) v = .ok (b,u)) :
    Sound owed u ∧ u.disk = s.disk ∧ ∀ j inum, j ≠ i → Held s j inum → Held u j inum := by
  obtain ⟨sound,disk,stays⟩ := unlockSound h unlock
  obtain ⟨sound',disk',stays'⟩ := putSound sound put
  exact ⟨sound',disk'.trans disk,fun j inum apart held => stays' j inum apart (stays j inum held)⟩

end Lookup

section Walk
variable {u : State}

theorem walkSound {parent room ip path r} (h : Sound owed s)
    (ok : run diskLayer (walk parent room ip path) s = .ok (r,u)) :
    Sound owed u ∧ u.disk = s.disk ∧ (parent = true → ∀ dp name, r = some (dp,name) → name ∈ path) := by
  induction path generalizing ip s with
  | nil =>
    unfold walk at ok
    split at ok
    · obtain ⟨_,v,put,ok⟩ := runCut ok
      cases ok
      obtain ⟨sound,disk,_⟩ := putSound h put
      exact ⟨sound,disk,fun _ _ _ none => by cases none⟩
    · rename_i child
      cases ok
      exact ⟨h,rfl,fun parent => absurd parent child⟩
  | cons name rest ih =>
    unfold walk at ok
    split at ok
    · cases ok
    obtain ⟨_,v,lock,ok⟩ := runCut ok
    obtain ⟨sound,disk,held,_⟩ := lockSound h lock
    obtain ⟨x,w,get,ok⟩ := runCut ok
    cases get
    split at ok
    · obtain ⟨_,w,unlock,ok⟩ := runCut ok
      obtain ⟨_,w',put,ok⟩ := runCut ok
      cases ok
      obtain ⟨sound,disk',_⟩ := unlockPutSound sound unlock put
      exact ⟨sound,disk'.trans disk,fun _ _ _ none => by cases none⟩
    split at ok
    · obtain ⟨_,w,unlock,ok⟩ := runCut ok
      cases ok
      obtain ⟨sound,disk',_⟩ := unlockSound sound unlock
      refine ⟨sound,disk'.trans disk,fun _ dp found same => ?_⟩
      cases same
      exact List.mem_cons_self
    obtain ⟨found,w,look,ok⟩ := runCut ok
    obtain ⟨sound,disk',_,_⟩ := lookupSound sound (lookupRoot sound held look) look
    cases found with
    | none =>
      obtain ⟨_,w,unlock,ok⟩ := runCut ok
      obtain ⟨_,w',put,ok⟩ := runCut ok
      cases ok
      obtain ⟨sound,disk'',_⟩ := unlockPutSound sound unlock put
      exact ⟨sound,disk''.trans (disk'.trans disk),fun _ _ _ none => by cases none⟩
    | some hit =>
      obtain ⟨_,w,unlock,ok⟩ := runCut ok
      obtain ⟨_,w',put,ok⟩ := runCut ok
      obtain ⟨sound,disk'',_⟩ := unlockPutSound sound unlock put
      obtain ⟨sound,last,from_⟩ := ih sound ok
      exact ⟨sound,last.trans (disk''.trans (disk'.trans disk)),fun p dp n same => List.mem_cons_of_mem _ (from_ p dp n same)⟩

theorem elementsProper {n path name} (clean : 0 ∉ path) (member : name ∈ elements n path) : name ≠ [] ∧ 0 ∉ name := by
  induction n generalizing path with
  | zero => cases member
  | succ n ih =>
    unfold elements at member
    split at member
    · cases member
    · rename_i first rest found
      have smaller : ∀ {c : UInt8}, c ∈ path.dropWhile (· = slash) → c ∈ path := fun member => (List.dropWhile_suffix _).subset member
      unfold skipElement at found
      dsimp only at found
      split at found
      · cases found
      · rename_i some
        cases found
        rcases List.mem_cons.mp member with rfl | later
        · constructor
          · intro empty
            cases whole : path.dropWhile (· = slash) with
            | nil => exact some whole
            | cons c tail =>
              have start := List.head?_dropWhile_not (fun c => decide (c = slash)) path
              rw [whole] at empty start
              simp only [List.head?_cons] at start
              simp_all [Mkfs.fnameMax]
          · intro zero
            exact clean (smaller ((List.takeWhile_prefix _).subset (List.mem_of_mem_take zero)))
        · refine ih (fun zero => clean (smaller ?_)) later
          exact (List.dropWhile_suffix _).subset ((List.dropWhile_suffix _).subset zero)

end Walk

section Entry
variable {u : Disk} {k m : Kernel} {j : Nat} {e : Dirent}

theorem gotEvolves {n b} (h : Rooted owed t) (mapping : Mapping t (k.inode dp)) (small : n < mappable) (got : Got t k dp n b u m) :
    Evolves t u ∧ Taken u.view b := by
  cases got with
  | old hit => exact ⟨evolvesRefl,mapping.taken n small hit⟩
  | fresh direct none bound reach clear =>
    exact ⟨allocatedEvolves h bound reach,freshTaken h.listing.mapping.layout bound reach⟩

theorem writtenEvolves (h : Rooted owed t) (mapping : Mapping t (k.inode dp)) (small : j < directEntries)
    (written : Written dp j e t k u m) : Evolves t u := by
  obtain ⟨b,v,l,got,_,view⟩ := written.block
  have below : j/direntsPerBlock < mappable := by
    simp only [directEntries,direntsPerBlock,direntSize,bsize,fsIaddrDirectNr,mappable,iaddrsPerBlock] at small ⊢
    omega
  obtain ⟨evolves,taken⟩ := gotEvolves h mapping below got
  obtain ⟨size,held,_⟩ := gotDisk h.listing.mapping.layout got
  refine evolvesTrans evolves (storeEvolves h evolves taken ?_ ?_ view)
  · rw [written.disk.1,size]
  · rw [written.disk.2.1,held]

theorem writtenApart (written : Written dp j e t k u m) {b} (taken : Taken t.view b)
    (apart : ∀ n < fsIaddrDirectNr, (addrAt (k.inode dp).iAddr n).toNat ≠ b) :
    ∀ n < fsIaddrDirectNr, (addrAt (m.inode dp).iAddr n).toNat ≠ b := by
  obtain ⟨c,v,l,got,same,_⟩ := written.block
  intro n direct
  rw [same]
  cases got with
  | old hit => exact apart n direct
  | @fresh f direct' none bound reach clear =>
    simp only [Kernel.withInode,Function.update_self]
    by_cases here : n = j/direntsPerBlock
    · subst here
      have inside : j/direntsPerBlock < fsIaddrNr := direct.trans (by decide)
      rintro rfl
      obtain ⟨l,_,place,bit⟩ := taken
      have fits : ((superOf t.view).sFirstdataBlock.toNat + f) % 2^64 = (superOf t.view).sFirstdataBlock.toNat + f := by
        have := (superOf t.view).sFirstdataBlock.isLt
        have := (superOf t.view).sNblocks.isLt
        omega
      simp only [addrAt,dif_pos inside,Inode.withAddr,Function.update_self,BitVec.toNat_ofNat,fits] at place
      have : l = f := by omega
      rw [this,clear] at bit
      cases bit
    · rw [addrWith (n := ⟨j/direntsPerBlock,_⟩) here]
      exact apart n direct

theorem writtenFlat (written : Written dp j e t k u m) :
    addrAt (m.inode dp).iAddr fsIaddrInDirectMin = addrAt (k.inode dp).iAddr fsIaddrInDirectMin := by
  obtain ⟨_,_,_,got,same,_⟩ := written.block
  rw [same,gotIndex got]

theorem cardErase {α : Type} [DecidableEq α] (A : Finset α) (a : α) : A.card = (A.erase a).card + if a ∈ A then 1 else 0 := by
  split
  · rename_i member
    rw [Finset.card_erase_add_one member]
  · rename_i absent
    rw [Finset.erase_eq_of_notMem absent,add_zero]

theorem namesReplaced {view view' x x'} (r : Replaced view x j e view' x') (inum : BitVec 32) :
    names view' x' inum + (if j < entryCount x ∧ (entryAt view x j).dIno = inum ∧ inum ≠ 0 then 1 else 0) =
      names view x inum + if e.dIno = inum ∧ inum ≠ 0 then 1 else 0 := by
  have place := r.place
  have count := r.count
  unfold names
  have rest : ((Finset.range (entryCount x')).filter (fun i => (entryAt view' x' i).dIno = inum ∧ inum ≠ 0)).erase j =
      ((Finset.range (entryCount x)).filter (fun i => (entryAt view x i).dIno = inum ∧ inum ≠ 0)).erase j := by
    ext i
    simp only [Finset.mem_erase,Finset.mem_filter,Finset.mem_range]
    constructor
    · rintro ⟨apart,inside,both⟩
      have inside' : i < entryCount x := by omega
      rw [replacedOther r inside' apart] at both
      exact ⟨apart,inside',both⟩
    · rintro ⟨apart,inside,both⟩
      rw [← replacedOther r inside apart] at both
      exact ⟨apart,by omega,both⟩
  rw [cardErase _ j,cardErase ((Finset.range (entryCount x)).filter _) j,rest]
  simp only [Finset.mem_filter,Finset.mem_range,replacedHere r,show j < entryCount x' by omega,true_and]
  omega

theorem contentListing {x} (h : Listing t x) : Listing t (content x) :=
  ⟨legibleSame h.legible rfl rfl rfl rfl,h.number,h.index⟩

theorem writtenRoot (slot : Slot t (k.inode dp)) (valid : (k.inode dp).valid = true)
    (number : (k.inode dp).inum = rootIno) (written : Written dp j e t k u m) : content (m.inode dp) = rootOf u.view := by
  have kernel := congrArg (fun l : Kernel => l.inode dp) written.kernel
  simp only [Kernel.withInode,Function.update_self] at kernel
  rcases written.own with ⟨record,rfl⟩ | record
  · rw [slotRoot slot valid number]
    rw [number] at record
    rw [rootOf,rootOf,stored,stored,record]
  · rw [number] at record
    have device := slot.device
    rw [rootOf,stored,record]
    generalize m.inode dp = y at kernel
    generalize k.inode dp = x at kernel number device
    obtain ⟨inum,ref,busy,loaded,mode,dev,rdev,nlink,size,addr⟩ := x
    obtain ⟨inum',ref',busy',loaded',mode',dev',rdev',nlink',size',addr'⟩ := y
    cases kernel
    cases number
    cases device
    rfl

theorem slotOther {x} (h : Slot t x) (other : x.inum ≠ rootIno) (evolves : Evolves t u)
    (apart : ∀ b, Apart t.view b → Apart u.view b) (record : stored u.view x.inum = stored t.view x.inum) : Slot u x := by
  refine ⟨h.device,by rw [evolves.super]; exact h.number,evolves.bits _ h.number h.bit,?_,fun _ root => absurd root other,fun valid _ => ?_⟩
  · rw [record]
    exact h.same
  · have plain := h.file valid other
    exact ⟨plain.mode,plain.size,fun n some => (plain.addr n some).imp id (apart _)⟩

theorem slotOfContent {x : Inode} (number : x.inum = rootIno) (device : x.iDev = devRoot) (same : content x = rootOf t.view)
    (numbered : rootIno.toNat < (superOf t.view).sNinodes.toNat) (bit : inodeBit t.view rootIno = true) : Slot t x := by
  have addr : (stored t.view x.inum).iAddr = x.iAddr := by
    rw [number]
    change (rootOf t.view).iAddr = _
    rw [← same]
    rfl
  refine ⟨device,by rw [number]; exact numbered,by rw [number]; exact bit,fun _ => ?_,fun _ _ => ?_,fun _ other => absurd number other⟩
  · rw [addr]
    change content x = stored t.view x.inum
    rw [number]
    exact same
  · rw [← same]
    rfl

theorem replacedRooted {owed'} (h : Rooted owed t) (evolves : Evolves t u) (listing : Listing u (rootOf u.view))
    (replaced : Replaced t.view (rootOf t.view) j e u.view (rootOf u.view)) (low : j < directEntries)
    (flat : addrAt (rootOf u.view).iAddr fsIaddrInDirectMin = 0) (alive : (rootOf u.view).iNlink ≠ 0)
    (apart : ∀ b, Apart t.view b → Apart u.view b)
    (records : ∀ inum, inum.toNat < (superOf t.view).sNinodes.toNat → inum ≠ rootIno → stored u.view inum = stored t.view inum)
    (fresh : Live e → e.dIno.toNat < (superOf t.view).sNinodes.toNat ∧ inodeBit t.view e.dIno = true ∧ e.dIno ≠ rootIno)
    (debts : ∀ inum, (if e.dIno = inum ∧ inum ≠ 0 then 1 else 0) + (if owed' = some inum then 1 else 0) =
      (if j < entryCount (rootOf t.view) ∧ (entryAt t.view (rootOf t.view) j).dIno = inum ∧ inum ≠ 0 then 1 else 0) +
        if owed = some inum then 1 else 0) :
    Rooted owed' u := by
  have count := replaced.count
  have numbered := h.listing.number
  have entries : ∀ i < entryCount (rootOf u.view), i ≠ j →
      i < entryCount (rootOf t.view) ∧ entryAt u.view (rootOf u.view) i = entryAt t.view (rootOf t.view) i := by
    intro i inside other
    have before : i < entryCount (rootOf t.view) := by
      have := replaced.place
      omega
    exact ⟨before,replacedOther replaced before other⟩
  refine ⟨listing,flat,?_,alive,fun i inside same => ?_,fun i inside live => ?_,⟨?_,evolves.bits rootIno numbered h.reserved.2⟩,
    fun inum below other => ?_,fun inum below mode => ?_,evolves.blank h.blank⟩
  · have := h.short
    omega
  · by_cases here : i = j
    · subst here
      rw [replacedHere replaced] at same
      exact absurd same (fresh (by rw [Live,same]; decide)).2.2
    · obtain ⟨before,equal⟩ := entries i inside here
      rw [equal] at same ⊢
      exact h.dots i before same
  · rw [evolves.super]
    by_cases here : i = j
    · subst here
      rw [replacedHere replaced] at live ⊢
      obtain ⟨below,bit,_⟩ := fresh live
      exact ⟨below,evolves.bits _ below bit⟩
    · obtain ⟨before,equal⟩ := entries i inside here
      rw [equal] at live ⊢
      obtain ⟨below,bit⟩ := h.live i before live
      exact ⟨below,evolves.bits _ below bit⟩
  · exact evolves.bits 0 (Nat.zero_lt_of_lt numbered) h.reserved.1
  · rw [evolves.super] at below
    rw [records inum below other]
    have plain := h.plain inum below other
    exact ⟨plain.mode,plain.size,fun n some => (plain.addr n some).imp id (apart _)⟩
  · rw [evolves.super] at below
    have other : inum ≠ rootIno := by
      rintro rfl
      exact absurd (listing.mode.symm.trans mode) (by decide)
    rw [records inum below other] at mode ⊢
    have moved := namesReplaced replaced inum
    have debt := debts inum
    rw [h.links inum below mode]
    omega

section Written
variable {v : State} (h : Sound owed s) (held : Held s dp rootIno) (written : Written dp j e s.disk s.mem v.disk v.mem)
include h held written

omit h held in
theorem writtenInode : v.mem.inode dp = {s.mem.inode dp with iAddr := (v.mem.inode dp).iAddr, iSize := (v.mem.inode dp).iSize} := by
  have kernel := congrArg (fun l : Kernel => l.inode dp) written.kernel
  simpa only [Kernel.withInode,Function.update_self] using kernel

theorem writtenContent : content (v.mem.inode dp) = rootOf v.disk.view :=
  writtenRoot (h.cache.slot dp held.used) held.valid held.number written

theorem writtenEntries (place : j ≤ entryCount (s.mem.inode dp)) :
    Replaced s.disk.view (rootOf s.disk.view) j e v.disk.view (rootOf v.disk.view) := by
  have replaced := writtenReplaced written place
  rw [← heldContent h held,← writtenContent h held written]
  exact ⟨replaced.place,replaced.count,replaced.entries⟩

theorem writtenAside (evolves : Evolves s.disk v.disk) {b} (aside : Apart s.disk.view b) : Apart v.disk.view b := by
  refine ⟨evolves.taken b aside.1,?_⟩
  rw [← writtenContent h held written]
  refine writtenApart written aside.1 fun n direct => ?_
  have far := aside.2 n direct
  rw [← heldContent h held] at far
  exact far

omit h in
theorem writtenRecords {inum : BitVec 32} (numbered : inum.toNat < (superOf s.disk.view).sNinodes.toNat) (other : inum ≠ rootIno) :
    stored v.disk.view inum = stored s.disk.view inum := by
  rw [stored,written.inodes inum numbered (by rw [held.number]; exact other)]
  rfl

theorem writtenCached (evolves : Evolves s.disk v.disk) : Cached v.disk v.mem := by
  have slot := h.cache.slot dp held.used
  have kernel := writtenInode written
  have number : (v.mem.inode dp).inum = rootIno := by rw [kernel]; exact held.number
  have numbered := h.disk.listing.number
  rw [written.kernel]
  refine cachedKeep h.cache (fun i other used => ?_) (fun _ => held.used) rfl fun _ => ?_
  · have different : (s.mem.inode i).inum ≠ rootIno :=
      fun same => other (h.cache.unique i dp used held.used (same.trans held.number.symm))
    have numbered := (h.cache.slot i used).number
    exact slotOther (h.cache.slot i used) different evolves (fun _ => writtenAside h held written evolves)
      (writtenRecords held written numbered different)
  · rw [← kernel]
    exact slotOfContent number (by rw [kernel]; exact slot.device) (writtenContent h held written) (by rw [evolves.super]; exact numbered)
      (evolves.bits rootIno numbered h.disk.reserved.2)

end Written

theorem writtenSound {s u owed'} (h : Sound owed s) (held : Held s dp rootIno)
    (place : j ≤ entryCount (s.mem.inode dp)) (low : j < directEntries) (written : Written dp j e s.disk s.mem u.disk u.mem)
    (fresh : Live e → e.dIno.toNat < (superOf s.disk.view).sNinodes.toNat ∧ inodeBit s.disk.view e.dIno = true ∧ e.dIno ≠ rootIno)
    (debts : ∀ inum, (if e.dIno = inum ∧ inum ≠ 0 then 1 else 0) + (if owed' = some inum then 1 else 0) =
      (if j < entryCount (s.mem.inode dp) ∧ (entryAt s.disk.view (s.mem.inode dp) j).dIno = inum ∧ inum ≠ 0 then 1 else 0) +
        if owed = some inum then 1 else 0) :
    Sound owed' u ∧ Stays s u ∧ Evolves s.disk u.disk := by
  have evolves := writtenEvolves h.disk (heldListing h held).mapping low written
  have root := writtenContent h held written
  have old := heldContent h held
  have listing : Listing u.disk (rootOf u.disk.view) := by
    rw [← root]
    exact contentListing written.listing
  have flat : addrAt (rootOf u.disk.view).iAddr fsIaddrInDirectMin = 0 := by
    have before := h.disk.flat
    rw [← old] at before
    rw [← root]
    exact (writtenFlat written).trans before
  have alive : (rootOf u.disk.view).iNlink ≠ 0 := by
    have before := h.disk.alive
    rw [← old] at before
    rw [← root]
    change (u.mem.inode dp).iNlink ≠ 0
    rw [writtenInode written]
    exact before
  have stays := staysWith (s := s) (t := u.disk) (i := dp)
    (y := {s.mem.inode dp with iAddr := (u.mem.inode dp).iAddr, iSize := (u.mem.inode dp).iSize}) id (fun _ => id) (fun _ => rfl)
  rw [← written.kernel] at stays
  refine ⟨⟨?_,writtenCached h held written evolves⟩,stays,evolves⟩
  refine replacedRooted h.disk evolves listing (writtenEntries h held written place) low flat alive (fun _ => writtenAside h held written evolves)
    (fun _ => writtenRecords held written) fresh fun inum => ?_
  rw [← heldEntry h held,← heldCount h held]
  exact debts inum

end Entry
end TskSw.FsSteps
