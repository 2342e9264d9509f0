import TskSw.InodeIo
import TskSw.CString

/-! Directories of `fs/inode.c`: a file of 64-byte entries, searched from its start. An
entry is free when its inode number is 0. A new entry reuses the local `de`, which keeps
the bytes of the entry read last behind the copied name. -/
namespace TskSw.Directory
open Bytes BlockProgram BlkIo BlkFlat FsLayout FsKernel DataBitmap DataBlocks Bmap Inodes InodeIo CString
open Mkfs (fnameMax)

def direntSize : Nat := 64
def direntsPerBlock : Nat := bsize/direntSize

structure Dirent where
  dIno : BitVec 32
  dName : List UInt8
  deriving DecidableEq

def direntOf (bytes : List UInt8) : Dirent := ⟨u32 (bytes.take 4),bytes.drop 4⟩

def lookupLoop (dp : Nat) (name : List UInt8) : Nat → Nat → Fs (Option (Nat × BitVec 32))
  | 0,_ => pure none
  | passes+1,off => do
      let x ← getInode dp
      if x.iSize.toNat ≤ off then pure none
      else do
        let (rdBytes,bytes) ← inodeRead dp (BitVec.ofNat 64 off) (BitVec.ofNat 64 direntSize)
        kassert (rdBytes = direntSize)
        let de := direntOf bytes
        if de.dIno ≠ 0 ∧ strncmp name de.dName fnameMax = 0 then pure (some (off,de.dIno))
        else lookupLoop dp name passes (off+direntSize)

def inodeDirlookup (dp : Nat) (name : List UInt8) : Fs (Option (Nat × Nat)) := do
  let x ← getInode dp
  kassert (x.iMode = fsImodeDir)
  match ← lookupLoop dp name (x.iSize.toNat/direntSize+1) 0 with
  | none => pure none
  | some (off,ino) => do
      let x ← getInode dp
      let ip ← inodeGet x.iDev ino
      pure (some (ip,off))

def slotLoop (dp : Nat) : Nat → Nat → List UInt8 → Fs (Nat × List UInt8)
  | 0,off,de => pure (off,de)
  | passes+1,off,de => do
      let x ← getInode dp
      if x.iSize.toNat ≤ off then pure (off,de)
      else do
        let (rdBytes,bytes) ← inodeRead dp (BitVec.ofNat 64 off) (BitVec.ofNat 64 direntSize)
        kassert (rdBytes = direntSize)
        if (direntOf bytes).dIno = 0 then pure (off,bytes)
        else slotLoop dp passes (off+direntSize) bytes

def onStack (k : Kernel) : List UInt8 := (List.range direntSize).map (fun i => k.stack.getD i 0)

def newDirent (de name : List UInt8) (inum : BitVec 32) : List UInt8 := le32 inum ++ strncpy (de.drop 4) name fnameMax

def inodeAddDirectoryEntry (dp : Nat) (name : List UInt8) (inum : BitVec 32) : Fs Int := do
  match ← inodeDirlookup dp name with
  | some (ip,_) => do
      inodePut ip
      pure (-eexist)
  | none => do
      let k ← memory
      let (off,de) ← slotLoop dp ((k.inode dp).iSize.toNat/direntSize+1) 0 (onStack k)
      let rdBytes ← inodeWrite dp (newDirent de name inum) (BitVec.ofNat 64 off)
      kassert (rdBytes = direntSize)
      pure 0

def rawAt (view : Nat → Block) (x : Inode) (i : Nat) : List UInt8 :=
  slice (view (mapped view x (i/direntsPerBlock))) (direntSize*(i%direntsPerBlock)) direntSize

def entryAt (view : Nat → Block) (x : Inode) (i : Nat) : Dirent := direntOf (rawAt view x i)

def entryCount (x : Inode) : Nat := x.iSize.toNat/direntSize

structure Legible (t : Disk) (x : Inode) : Prop where
  mapping : Mapping t x
  mode : x.iMode = fsImodeDir
  whole : x.iSize.toNat % direntSize = 0
  limit : x.iSize.toNat ≤ fsMaxfileSize
  filled : ∀ n, bsize*n < x.iSize.toNat → mapped t.view x n ≠ 0

theorem legibleSame {t x y} (h : Legible t x) (mode : y.iMode = x.iMode) (dev : y.iDev = x.iDev) (size : y.iSize = x.iSize)
    (addr : y.iAddr = x.iAddr) : Legible t y := by
  have mapping := mappingSame h.mapping dev addr
  cases x
  cases y
  cases mode
  cases size
  cases addr
  exact ⟨mapping,h.mode,h.whole,h.limit,h.filled⟩

structure Listing (t : Disk) (x : Inode) : Prop extends legible : Legible t x where
  number : x.inum.toNat < (superOf t.view).sNinodes.toNat
  index : ∀ n < mappable, mapped t.view x n ≠ 0 → mapped t.view x n ≠ (addrAt x.iAddr fsIaddrInDirectMin).toNat

def hit (name : List UInt8) (e : Dirent) : Bool := decide (e.dIno ≠ 0 ∧ strncmp name e.dName fnameMax = 0)

variable {t : Disk} {k : Kernel} {dp s i : Nat} {x : Inode} {bytes : List UInt8} {view : Nat → Block}

section Reading

theorem listingCount (h : Legible t x) : x.iSize.toNat = direntSize*entryCount x := by
  have := h.whole
  simp only [entryCount,direntSize] at *
  omega

theorem listingBlock (h : Legible t x) (inside : i < entryCount x) :
    i/direntsPerBlock < mappable ∧ mapped t.view x (i/direntsPerBlock) ≠ 0 := by
  have count := listingCount h
  have limit := h.limit
  simp only [direntsPerBlock,direntSize,bsize,mappable,fsIaddrDirectNr,iaddrsPerBlock,fsMaxfileSize,fsIaddrInDirectNr,
    fsIaddrDoubleNr] at *
  refine ⟨by omega,h.filled _ ?_⟩
  simp only [bsize]
  omega

theorem runReadEntry (h : Legible t (k.inode dp)) (inside : i < entryCount (k.inode dp)) :
    run diskLayer (inodeRead dp (BitVec.ofNat 64 (direntSize*i)) (BitVec.ofNat 64 direntSize)) ⟨t,k⟩ =
      .ok (((direntSize : Int),rawAt t.view (k.inode dp) i),⟨t,k⟩) := by
  have count := listingCount h
  have limit := h.limit
  obtain ⟨block,hit⟩ := listingBlock h inside
  have number : direntSize*i/bsize = i/direntsPerBlock := by
    simp only [direntSize,bsize,direntsPerBlock]
    omega
  have place : direntSize*i%bsize = direntSize*(i%direntsPerBlock) := by
    simp only [direntSize,bsize,direntsPerBlock]
    omega
  have bound : direntSize*i + direntSize ≤ (k.inode dp).iSize.toNat := by
    simp only [direntSize] at count ⊢
    omega
  have read := @runReadInside _ _ _ (direntSize*i) _ h.mapping (by rw [h.mode]; decide) (by decide : 0 < direntSize)
    (by rw [place]; simp only [direntSize,bsize,direntsPerBlock]; omega) bound
    (Nat.lt_of_le_of_lt (bound.trans limit) (by decide)) (by rw [number]; exact block) (by rw [number]; exact hit)
  rw [number,place] at read
  exact read

def searchFrom (view : Nat → Block) (x : Inode) (p : Dirent → Bool) (i : Nat) : Option Nat :=
  (List.range' i (entryCount x - i)).find? (fun j => p (entryAt view x j))

def search (view : Nat → Block) (x : Inode) (p : Dirent → Bool) : Option Nat := searchFrom view x p 0

theorem searchStep {view x p i} (inside : i < entryCount x) :
    searchFrom view x p i = if p (entryAt view x i) then some i else searchFrom view x p (i+1) := by
  have more : entryCount x - i = (entryCount x - (i+1)) + 1 := by omega
  rw [searchFrom,more,List.range'_succ,List.find?_cons]
  cases p (entryAt view x i) <;> rfl

theorem searchEnd {p : Dirent → Bool} (outside : entryCount x ≤ i) :
    searchFrom view x p i = none := by
  have none : entryCount x - i = 0 := by omega
  rw [searchFrom,none]
  rfl

def freeSlot (view : Nat → Block) (x : Inode) : Nat := (search view x (fun e => decide (e.dIno = 0))).getD (entryCount x)

theorem runLookupLoop (h : Legible t (k.inode dp)) (name : List UInt8) (passes : Nat)
    (enough : entryCount (k.inode dp) < i + passes) (below : i ≤ entryCount (k.inode dp)) :
    run diskLayer (lookupLoop dp name passes (direntSize*i)) ⟨t,k⟩ =
      .ok ((searchFrom t.view (k.inode dp) (hit name) i).map
        (fun j => (direntSize*j,(entryAt t.view (k.inode dp) j).dIno)),⟨t,k⟩) := by
  have count := listingCount h
  induction passes generalizing i with
  | zero => omega
  | succ passes ih =>
    simp only [lookupLoop,getInode,runBind,runMemory,runPure,followOk]
    by_cases inside : i < entryCount (k.inode dp)
    · have more : ¬ (k.inode dp).iSize.toNat ≤ direntSize*i := by
        simp only [direntSize] at count ⊢
        omega
      rw [searchStep inside]
      simp only [if_neg more,runBind,runReadEntry h inside,followOk,kassert,if_true,runPure]
      change run diskLayer (if (entryAt t.view (k.inode dp) i).dIno ≠ 0 ∧ _ then _ else _) _ = _
      by_cases found : (entryAt t.view (k.inode dp) i).dIno ≠ 0 ∧
          strncmp name (entryAt t.view (k.inode dp) i).dName fnameMax = 0
      · have here : hit name (entryAt t.view (k.inode dp) i) = true := decide_eq_true found
        rw [if_pos here]
        exact (congrArg (fun p => run diskLayer p ⟨t,k⟩) (if_pos found)).trans rfl
      · have here : hit name (entryAt t.view (k.inode dp) i) = false := decide_eq_false found
        rw [here]
        refine (congrArg (fun p => run diskLayer p ⟨t,k⟩) (if_neg found)).trans ?_
        exact ih (i := i+1) (by omega) inside
    · have done : (k.inode dp).iSize.toNat ≤ direntSize*i := by
        simp only [direntSize] at count ⊢
        omega
      simp [done,searchEnd (Nat.le_of_not_lt inside)]

theorem runSlotLoop (h : Legible t (k.inode dp)) (passes : Nat) {i de} (length : de.length = direntSize)
    (enough : entryCount (k.inode dp) < i + passes) (below : i ≤ entryCount (k.inode dp)) :
    ∃ de', de'.length = direntSize ∧ run diskLayer (slotLoop dp passes (direntSize*i) de) ⟨t,k⟩ =
      .ok ((direntSize*(searchFrom t.view (k.inode dp) (fun e => decide (e.dIno = 0)) i).getD (entryCount (k.inode dp)),de'),⟨t,k⟩) := by
  have count := listingCount h
  induction passes generalizing i de with
  | zero => omega
  | succ passes ih =>
    simp only [slotLoop,getInode,runBind,runMemory,runPure,followOk]
    by_cases inside : i < entryCount (k.inode dp)
    · have more : ¬ (k.inode dp).iSize.toNat ≤ direntSize*i := by
        simp only [direntSize] at count ⊢
        omega
      have size : (rawAt t.view (k.inode dp) i).length = direntSize := sliceLength ..
      rw [searchStep inside]
      simp only [if_neg more,runBind,runReadEntry h inside,followOk,kassert,if_true,runPure]
      by_cases free : (entryAt t.view (k.inode dp) i).dIno = 0
      · refine ⟨rawAt t.view (k.inode dp) i,size,?_⟩
        rw [decide_eq_true free]
        exact (congrArg (fun p => run diskLayer p ⟨t,k⟩) (if_pos free)).trans rfl
      · obtain ⟨de',length',rest⟩ := ih (i := i+1) size (by omega) inside
        refine ⟨de',length',?_⟩
        rw [decide_eq_false free]
        exact (congrArg (fun p => run diskLayer p ⟨t,k⟩) (if_neg free)).trans rest
    · have done : (k.inode dp).iSize.toNat ≤ direntSize*i := by
        simp only [direntSize] at count ⊢
        omega
      have last : i = entryCount (k.inode dp) := by omega
      refine ⟨de,length,?_⟩
      rw [if_pos done,searchEnd (Nat.le_of_not_lt inside),runPure,Option.getD_none,← last]

end Reading

theorem runDirlookup {t k dp} (h : Legible t (k.inode dp)) (name : List UInt8) :
    run diskLayer (inodeDirlookup dp name) ⟨t,k⟩ =
      match search t.view (k.inode dp) (hit name) with
      | none => .ok (none,⟨t,k⟩)
      | some j => follow (run diskLayer (inodeGet devRoot (entryAt t.view (k.inode dp) j).dIno) ⟨t,k⟩)
          (fun ip s => .ok (some (ip,direntSize*j),s)) := by
  have scan := runLookupLoop h name ((k.inode dp).iSize.toNat/direntSize+1) (i := 0)
    (by simp only [entryCount]; omega) (Nat.zero_le _)
  rw [Nat.mul_zero] at scan
  simp only [inodeDirlookup,getInode,runBind,runMemory,runPure,followOk,kassert,if_pos h.mode,scan]
  unfold search
  cases searchFrom t.view (k.inode dp) (hit name) 0 with
  | none => rfl
  | some j =>
    simp only [Option.map_some,runBind,runMemory,runPure,followOk,h.mapping.root]

section Writing
variable {u : Disk} {m : Kernel} {n b : Nat}

theorem listingGot (h : Listing t (k.inode dp)) (small : n < mappable) (got : Got t k dp n b u m) :
    Listing u (m.inode dp) ∧ ∀ i < entryCount (k.inode dp), rawAt u.view (m.inode dp) i = rawAt t.view (k.inode dp) i := by
  obtain ⟨positive,mapping,values⟩ := gotMapping h.mapping got
  have kernel := congrArg (fun k => k.inode dp) (gotKernel got)
  simp only [Kernel.withInode,Function.update_self] at kernel
  have old : ∀ j, mapped t.view (k.inode dp) j ≠ 0 → mapped u.view (m.inode dp) j = mapped t.view (k.inode dp) j := by
    intro j hit
    rw [values]
    split
    · rename_i same
      subst same
      exact gotOld got hit
    · rfl
  refine ⟨⟨⟨mapping,by rw [kernel]; exact h.mode,by rw [kernel]; exact h.whole,by rw [kernel]; exact h.limit,?_⟩,?_,?_⟩,?_⟩
  · intro j inside
    have hit := h.filled j (by rw [kernel] at inside; exact inside)
    rw [old j hit]
    exact hit
  · rw [kernel,(gotDisk h.mapping.layout got).2.2]
    exact h.number
  · intro j below hit
    rw [gotIndex got]
    cases got with
    | old _ => exact h.index j below hit
    | @fresh f direct none bound reach clear =>
      rw [values] at hit ⊢
      split
      · intro same
        have attached : addrAt (k.inode dp).iAddr fsIaddrInDirectMin ≠ 0 := by
          intro zero
          rw [zero] at same
          exact positive same
        obtain ⟨i,_,place,bit⟩ := h.mapping.index attached
        have here : i = f := by omega
        rw [here,clear] at bit
        cases bit
      · rename_i other
        rw [if_neg other] at hit
        exact h.index j below hit
  · intro i inside
    obtain ⟨below,hit⟩ := listingBlock h.legible inside
    rw [rawAt,old _ hit,gotTaken h.mapping.layout got (h.mapping.taken _ below hit)]
    rfl

theorem listingAgree (h : Listing t x) (size : u.size = t.size) (held : u.held = t.held)
    (tables : ∀ c, 1 ≤ c → c < (superOf t.view).inodeStart → u.view c = t.view c)
    (index : addrAt x.iAddr fsIaddrInDirectMin ≠ 0 →
      u.view (addrAt x.iAddr fsIaddrInDirectMin).toNat = t.view (addrAt x.iAddr fsIaddrInDirectMin).toNat) :
    Listing u x ∧ ∀ j, mapped u.view x j = mapped t.view x j := by
  obtain ⟨mapping,super,values⟩ := mappingAgree h.mapping size held tables index
  refine ⟨⟨⟨mapping,h.mode,h.whole,h.limit,?_⟩,by rw [super]; exact h.number,?_⟩,values⟩
  · intro j inside
    rw [values]
    exact h.filled j inside
  · intro j below hit
    rw [values] at hit ⊢
    exact h.index j below hit

theorem listingData (h : Listing t x) {j} (small : j < mappable) (hit : mapped t.view x j ≠ 0) :
    tablesEnd (superOf t.view) ≤ mapped t.view x j := by
  obtain ⟨place,within,block,_⟩ := h.mapping.taken j small hit
  rw [block] at hit ⊢
  exact (h.mapping.layout.apart place within).resolve_left hit

theorem listingStore (h : Listing t x) (length : bytes.length = direntSize)
    (small : s/direntsPerBlock < mappable) (hit : mapped t.view x (s/direntsPerBlock) ≠ 0)
    (same : b = mapped t.view x (s/direntsPerBlock)) :
    Listing (t.store b (patch (t.view b) (direntSize*(s%direntsPerBlock)) bytes)) x ∧
      (∀ j, mapped (t.store b (patch (t.view b) (direntSize*(s%direntsPerBlock)) bytes)).view x j = mapped t.view x j) ∧
      ∀ i, i/direntsPerBlock < mappable → mapped t.view x (i/direntsPerBlock) ≠ 0 →
        rawAt (t.store b (patch (t.view b) (direntSize*(s%direntsPerBlock)) bytes)).view x i =
          if i = s then bytes else rawAt t.view x i := by
  have high := listingData h small hit
  have apart := h.index _ small hit
  rw [← same] at high apart
  have start : (superOf t.view).inodeStart ≤ tablesEnd (superOf t.view) := Nat.le_add_right _ _
  have other : ∀ c, c ≠ b → (t.store b (patch (t.view b) (direntSize*(s%direntsPerBlock)) bytes)).view c = t.view c := by
    intro c apart
    simp [Disk.store,apart]
  obtain ⟨listing,values⟩ := listingAgree (u := t.store b (patch (t.view b) (direntSize*(s%direntsPerBlock)) bytes)) h rfl rfl
    (fun c low below => other c (by omega)) (fun _ => other _ apart.symm)
  refine ⟨listing,values,?_⟩
  intro i below hit'
  · rw [rawAt,values]
    by_cases block : i/direntsPerBlock = s/direntsPerBlock
    · rw [block,← same,storeView]
      by_cases here : i = s
      · subst here
        rw [if_pos rfl,← length,slicePatchSame]
        rw [length]
        simp only [direntSize,direntsPerBlock,bsize]
        omega
      · rw [if_neg here,slicePatchOutside,rawAt,block,← same]
        rw [length]
        simp only [direntSize,direntsPerBlock,bsize] at block ⊢
        omega
    · have apart : mapped t.view x (i/direntsPerBlock) ≠ b :=
        fun e => block (h.mapping.distinct _ below _ small hit' (e.trans same))
      rw [if_neg (fun e => block (by rw [e])),other _ apart]
      rfl

def resized (x : Inode) (count : Nat) : Inode := {x with iSize := BitVec.ofNat 64 (direntSize*count)}

theorem resizedCount (x : Inode) (count : Nat) (limit : direntSize*count ≤ fsMaxfileSize) :
    (resized x count).iSize.toNat = direntSize*count ∧ entryCount (resized x count) = count := by
  have size : (resized x count).iSize.toNat = direntSize*count := offNat (Nat.lt_of_le_of_lt limit (by decide))
  refine ⟨size,?_⟩
  rw [entryCount,size]
  exact Nat.mul_div_cancel_left count (by decide)

theorem listingGrow (h : Listing t x) (d : DInode) (hit : mapped t.view x (entryCount x/direntsPerBlock) ≠ 0)
    (limit : direntSize*(entryCount x+1) ≤ fsMaxfileSize) :
    Listing (putInode t (superOf t.view) x.inum d) (resized x (entryCount x+1)) ∧
      ∀ i, i/direntsPerBlock < mappable → mapped t.view x (i/direntsPerBlock) ≠ 0 →
        rawAt (putInode t (superOf t.view) x.inum d).view (resized x (entryCount x+1)) i = rawAt t.view x i := by
  have inode := inodeBlockTable h.number
  have low : (superOf t.view).inodeStart ≤ inodeBlock (superOf t.view) x.inum := Nat.le_add_right _ _
  obtain ⟨listing,values⟩ := listingAgree (u := putInode t (superOf t.view) x.inum d) h rfl rfl
    (fun c _ below => putInodeView (by omega)) (fun attached => putInodeView (by
      obtain ⟨place,within,block,_⟩ := h.mapping.index attached
      have := h.mapping.layout.apart place within
      have := h.mapping.positive
      omega))
  obtain ⟨size,count⟩ := resizedCount x (entryCount x+1) limit
  refine ⟨⟨⟨mappingSame listing.mapping rfl rfl,h.mode,?_,by rw [size]; exact limit,?_⟩,listing.number,listing.index⟩,?_⟩
  · rw [size]
    exact Nat.mul_mod_right direntSize _
  · intro j inside
    rw [size] at inside
    have old := listingCount h.legible
    change mapped _ x j ≠ 0
    rw [values]
    by_cases before : bsize*j < x.iSize.toNat
    · exact h.filled j before
    · have last : j = entryCount x/direntsPerBlock := by
        simp only [direntSize,direntsPerBlock,bsize] at *
        omega
      rw [last]
      exact hit
  · intro i below hit
    have data := listingData h below hit
    have raw : rawAt (putInode t (superOf t.view) x.inum d).view (resized x (entryCount x+1)) i =
        rawAt (putInode t (superOf t.view) x.inum d).view x i := rfl
    rw [raw,rawAt,values,putInodeView (by omega)]
    rfl

structure Written (dp s : Nat) (e : Dirent) (t : Disk) (k : Kernel) (u : Disk) (m : Kernel) : Prop where
  listing : Listing u (m.inode dp)
  count : entryCount (m.inode dp) = max (entryCount (k.inode dp)) (s+1)
  entries : ∀ i < entryCount (m.inode dp), entryAt u.view (m.inode dp) i = if i = s then e else entryAt t.view (k.inode dp) i
  kernel : m = k.withInode dp {k.inode dp with iAddr := (m.inode dp).iAddr, iSize := (m.inode dp).iSize}
  disk : u.size = t.size ∧ u.held = t.held ∧ superOf u.view = superOf t.view
  maps : ∀ c, 1 ≤ c → c < (superOf t.view).bitmapStart → u.view c = t.view c
  inodes : ∀ inum, inum.toNat < (superOf t.view).sNinodes.toNat → inum ≠ (k.inode dp).inum → diskInode u.view inum = diskInode t.view inum
  own : diskInode u.view (k.inode dp).inum = diskInode t.view (k.inode dp).inum ∧ m = k ∨
    diskInode u.view (k.inode dp).inum = diskCopy (m.inode dp)
  block : ∃ b v l, Got t k dp (s/direntsPerBlock) b v l ∧ (m.inode dp).iAddr = (l.inode dp).iAddr ∧
    ∀ c, c ≠ b → c < (superOf t.view).inodeStart ∨ tablesEnd (superOf t.view) ≤ c → u.view c = v.view c

theorem listingTables (h : Listing t x) : Tables (superOf t.view) t := ⟨h.mapping.layout,rfl,fun n _ _ => h.mapping.quiet n⟩

theorem diskInodeAgree {inum} (super : superOf u.view = superOf t.view)
    (block : u.view (inodeBlock (superOf t.view) inum) = t.view (inodeBlock (superOf t.view) inum)) :
    diskInode u.view inum = diskInode t.view inum := by
  rw [diskInode,super,block]
  rfl

structure Patched (dp s b : Nat) (bytes : List UInt8) (t : Disk) (k : Kernel) (u : Disk) (m : Kernel) (v : Disk) : Prop where
  listing : Listing v (m.inode dp)
  hit : mapped v.view (m.inode dp) (s/direntsPerBlock) ≠ 0
  here : rawAt v.view (m.inode dp) s = bytes
  others : ∀ i < entryCount (k.inode dp), i ≠ s → rawAt v.view (m.inode dp) i = rawAt t.view (k.inode dp) i
  disk : v.size = t.size ∧ v.held = t.held ∧ superOf v.view = superOf t.view
  tables : ∀ c, 1 ≤ c → c < tablesEnd (superOf t.view) → c < (superOf t.view).bitmapStart ∨ (superOf t.view).inodeStart ≤ c →
    v.view c = t.view c
  idle : Idle u b

theorem patched (h : Listing t (k.inode dp)) {s bytes} (length : bytes.length = direntSize)
    (small : s/direntsPerBlock < mappable) (got : Got t k dp (s/direntsPerBlock) b u m) :
    Patched dp s b bytes t k u m (u.store b (patch (u.view b) (direntSize*(s%direntsPerBlock)) bytes)) := by
  obtain ⟨listing,raws⟩ := listingGot h small got
  obtain ⟨positive,mapping,values⟩ := gotMapping h.mapping got
  obtain ⟨size,held,super⟩ := gotDisk h.mapping.layout got
  have here : mapped u.view (m.inode dp) (s/direntsPerBlock) = b := by rw [values,if_pos rfl]
  have hit : mapped u.view (m.inode dp) (s/direntsPerBlock) ≠ 0 := by rw [here]; exact positive
  obtain ⟨listing',values',raws'⟩ := listingStore listing length small hit here.symm
  have high := listingData listing small hit
  rw [here,super] at high
  have apart : ∀ c, c < tablesEnd (superOf t.view) →
      (u.store b (patch (u.view b) (direntSize*(s%direntsPerBlock)) bytes)).view c = u.view c := by
    intro c below
    have : c ≠ b := by omega
    simp [Disk.store,this]
  have start := tablesLong (listingTables h)
  have super' : superOf (u.store b (patch (u.view b) (direntSize*(s%direntsPerBlock)) bytes)).view = superOf t.view := by
    rw [superOf,apart _ (by rw [superBlockBlkNo]; omega)]
    exact super
  refine ⟨listing',by rw [values']; exact hit,?_,?_,⟨size,held,super'⟩,?_,?_⟩
  · rw [raws' s small hit,if_pos rfl]
  · intro i inside other
    obtain ⟨below,hit⟩ := listingBlock h.legible inside
    have kept : mapped u.view (m.inode dp) (i/direntsPerBlock) ≠ 0 := by
      rw [values]
      split
      · exact positive
      · exact hit
    rw [raws' i below kept,if_neg other,raws i inside]
  · intro c low below place
    rw [apart c below]
    exact gotTables h.mapping.layout got low below place
  · obtain ⟨i,within,block,_⟩ := mapping.taken _ small hit
    rw [here] at block
    have := mapping.layout.data
    exact ⟨mapping.quiet b,by omega⟩

theorem patchedInode {s bytes v} (h : Listing t (k.inode dp)) (done : Patched dp s b bytes t k u m v)
    {inum} (numbered : inum.toNat < (superOf t.view).sNinodes.toNat) : diskInode v.view inum = diskInode t.view inum := by
  have low := inodeBlockLow (listingTables h) inum
  refine diskInodeAgree done.disk.2.2 (done.tables _ (by omega) (inodeBlockTable numbered) (Or.inr ?_))
  exact Nat.le_add_right _ _

theorem patchedMaps {v : Disk} (h : Listing t (k.inode dp)) (done : Patched dp s b bytes t k u m v)
    {c : Nat} (low : 1 ≤ c) (high : c < (superOf t.view).bitmapStart) : v.view c = t.view c := by
  have start := inodeStartNat h.mapping.layout
  have map := bitmapStartNat h.mapping.layout
  have : (superOf t.view).inodeStart ≤ tablesEnd (superOf t.view) := Nat.le_add_right _ _
  exact done.tables c low (by omega) (Or.inl high)

theorem entryRaw {view' : Nat → Block} {x' : Inode} (same : rawAt view' x' i = if i = s then bytes else rawAt view x i) :
    entryAt view' x' i = if i = s then direntOf bytes else entryAt view x i := by
  rw [entryAt,same]
  split <;> rfl

theorem entryPlace (s : Nat) : direntSize*s/bsize = s/direntsPerBlock ∧ direntSize*s%bsize = direntSize*(s%direntsPerBlock) := by
  simp only [direntSize,bsize,direntsPerBlock]
  omega

theorem entryMappable (limit : direntSize*(s+1) ≤ fsMaxfileSize) : s/direntsPerBlock < mappable := by
  simp only [direntsPerBlock,direntSize,bsize,mappable,fsIaddrDirectNr,iaddrsPerBlock,fsMaxfileSize,fsIaddrInDirectNr,fsIaddrDoubleNr] at limit ⊢
  omega

theorem gotInode (got : Got t k dp n b u m) : (m.inode dp).inum = (k.inode dp).inum ∧ (m.inode dp).iSize = (k.inode dp).iSize := by
  have kernel := congrArg (fun k => k.inode dp) (gotKernel got)
  simp only [Kernel.withInode,Function.update_self] at kernel
  rw [kernel]
  exact ⟨rfl,rfl⟩

section Entries
variable (h : Listing t (k.inode dp))
  (done : Patched dp s b bytes t k u m (u.store b (patch (u.view b) (direntSize*(s%direntsPerBlock)) bytes)))
include h done

theorem patchedWritten (inside : s < entryCount (k.inode dp)) (got : Got t k dp (s/direntsPerBlock) b u m) (same : u = t ∧ m = k) :
    Written dp s (direntOf bytes) t k (u.store b (patch (u.view b) (direntSize*(s%direntsPerBlock)) bytes)) m := by
  obtain ⟨rfl,rfl⟩ := same
  refine ⟨done.listing,by omega,?_,by simp [Kernel.withInode],done.disk,?_,?_,Or.inl ⟨?_,rfl⟩,b,_,_,got,rfl,?_⟩
  · intro i below
    refine entryRaw ?_
    split
    · rename_i same
      rw [same,done.here]
    · rename_i other
      exact done.others i below other
  · exact fun c low high => patchedMaps h done low high
  · exact fun inum numbered _ => patchedInode h done numbered
  · exact patchedInode h done h.number
  · intro c apart _
    simp [Disk.store,apart]

theorem grownWritten (last : s = entryCount (k.inode dp)) (limit : direntSize*(s+1) ≤ fsMaxfileSize) (got : Got t k dp (s/direntsPerBlock) b u m) :
    Written dp s (direntOf bytes) t k (putInode (u.store b (patch (u.view b) (direntSize*(s%direntsPerBlock)) bytes)) (superOf t.view)
      (m.inode dp).inum
      (diskCopy (resized (m.inode dp) (s+1)))) (m.withInode dp (resized (m.inode dp) (s+1))) := by
  obtain ⟨own,size⟩ := gotInode got
  have counts : entryCount (m.inode dp) = s := by rw [entryCount,size,last]; rfl
  have sizes := resizedCount (m.inode dp) (s+1) limit
  have numbered : (m.inode dp).inum.toNat < (superOf t.view).sNinodes.toNat := by rw [own]; exact h.number
  have super := done.disk.2.2
  have tables := listingTables done.listing
  rw [super] at tables
  obtain ⟨grown,raws⟩ := listingGrow done.listing (diskCopy (resized (m.inode dp) (s+1))) (by rw [counts]; exact done.hit)
    (by rw [counts]; exact limit)
  rw [counts,super] at grown raws
  have get : (m.withInode dp (resized (m.inode dp) (s+1))).inode dp = resized (m.inode dp) (s+1) := by
    simp [Kernel.withInode]
  have low : (superOf t.view).inodeStart ≤ inodeBlock (superOf t.view) (m.inode dp).inum := Nat.le_add_right _ _
  refine ⟨by rw [get]; exact grown,by rw [get,sizes.2]; omega,?_,?_,⟨done.disk.1,done.disk.2.1,putInodeSuper tables _⟩,?_,?_,Or.inr ?_,b,_,_,
    got,
    by rw [get]; rfl,?_⟩
  · intro i below
    rw [get] at below ⊢
    rw [sizes.2] at below
    refine entryRaw ?_
    split
    · rename_i same
      subst same
      rw [raws i (entryMappable limit) done.hit,done.here]
    · rename_i other
      have before : i < entryCount (m.inode dp) := by omega
      obtain ⟨under,hit⟩ := listingBlock done.listing.legible before
      rw [raws i under hit]
      exact done.others i (by omega) other
  · rw [get]
    conv_lhs => rw [gotKernel got]
    simp only [Kernel.withInode,Function.update_idem,Function.update_self]
    rfl
  · intro c first high
    have start := inodeStartNat h.mapping.layout
    have map := bitmapStartNat h.mapping.layout
    rw [putInodeView (by omega)]
    exact patchedMaps h done first high
  · intro inum numbered apart
    rw [diskInodePutOther tables _ (by rw [own]; exact apart)]
    exact patchedInode h done numbered
  · rw [get,← own]
    exact diskInodePut tables _
  · intro c apart place
    have high := inodeBlockTable numbered
    rw [putInodeView (by omega)]
    simp [Disk.store,apart]

end Entries

theorem writtenRuns (h : Listing t (k.inode dp)) {s bytes} (length : bytes.length = direntSize)
    (place : s ≤ entryCount (k.inode dp)) (limit : direntSize*(s+1) ≤ fsMaxfileSize)
    (mapping : run diskLayer (bmap dp (s/direntsPerBlock)) ⟨t,k⟩ = .ok (b,⟨u,m⟩)) (got : Got t k dp (s/direntsPerBlock) b u m) :
    ∃ v l, run diskLayer (inodeWrite dp bytes (BitVec.ofNat 64 (direntSize*s))) ⟨t,k⟩ = .ok ((direntSize : Int),⟨v,l⟩) ∧
      Written dp s (direntOf bytes) t k v l := by
  have count := listingCount h.legible
  obtain ⟨number,offset⟩ := entryPlace s
  obtain ⟨own,size⟩ := gotInode got
  have done := patched h length (entryMappable limit) got
  have root : (m.inode dp).iDev.toNat = rootDev := by
    rw [done.listing.mapping.root]
    exact devRootNat
  have word : (BitVec.ofNat 64 (direntSize*(s+1))).toNat = direntSize*(s+1) := offNat (Nat.lt_of_le_of_lt limit (by decide))
  have write := @runWriteInside _ _ _ (direntSize*s) _ _ _ _ _ length (by rw [number]; exact mapping) done.idle root
    (by rw [h.mode]; decide) (by decide) (by rw [offset]; simp only [direntSize,bsize,direntsPerBlock]; omega)
    (by rw [count]; exact Nat.mul_le_mul_left _ place) (by rw [Nat.mul_succ] at limit; exact limit)
  rw [offset,← Nat.mul_succ] at write
  rcases Nat.lt_or_ge s (entryCount (k.inode dp)) with inside | outside
  · rw [runGrowNone (by rw [word,size,count]; exact Nat.mul_le_mul_left _ inside)] at write
    refine ⟨_,_,write,patchedWritten h done inside got ?_⟩
    cases got with
    | old _ => exact ⟨rfl,rfl⟩
    | fresh direct none _ _ _ =>
      have hit := (listingBlock h.legible inside).2
      simp [mapped,direct,none] at hit
  · have last : s = entryCount (k.inode dp) := by omega
    have tables := listingTables done.listing
    rw [done.disk.2.2] at tables
    rw [runGrow tables root (by rw [own]; exact h.number) (by rw [word,size,count,last]; simp only [direntSize]; omega)] at write
    exact ⟨_,_,write,grownWritten h done last limit got⟩

theorem newDirentOf {de name} (inum : BitVec 32) (length : de.length = direntSize) (clean : 0 ∉ name)
    (short : name.length ≤ fnameMax) :
    (newDirent de name inum).length = direntSize ∧ (direntOf (newDirent de name inum)).dIno = inum ∧
      cstr (direntOf (newDirent de name inum)).dName = name := by
  have four : (le32 inum).length = 4 := le32Length inum
  have rest : (de.drop 4).length = fnameMax + 1 := by
    rw [List.length_drop,length]
    rfl
  refine ⟨?_,?_,?_⟩
  · rw [newDirent,List.length_append,four,strncpyLength,rest]
    rfl
  · rw [direntOf,newDirent,List.take_left' four]
    exact u32Le inum
  · rw [direntOf,newDirent,List.drop_left' four]
    exact strncpyString clean short (by decide) (by rw [rest]; omega)

theorem runAddFree (h : Listing t (k.inode dp)) {name} (none : search t.view (k.inode dp) (hit name) = none)
    (clean : 0 ∉ name) (short : name.length ≤ fnameMax) (inum : BitVec 32) :
    ∃ bytes, bytes.length = direntSize ∧ (direntOf bytes).dIno = inum ∧ cstr (direntOf bytes).dName = name ∧
      run diskLayer (inodeAddDirectoryEntry dp name inum) ⟨t,k⟩ =
        follow (run diskLayer (inodeWrite dp bytes (BitVec.ofNat 64 (direntSize*freeSlot t.view (k.inode dp)))) ⟨t,k⟩)
          (fun rc s => if rc = direntSize then .ok (0,s) else .error .assertion) := by
  have look := runDirlookup h.legible name
  rw [none] at look
  have stack : (onStack k).length = direntSize := by simp [onStack]
  obtain ⟨de,length,scan⟩ := runSlotLoop h.legible ((k.inode dp).iSize.toNat/direntSize+1) (i := 0) stack
    (by simp only [entryCount]; omega) (Nat.zero_le _)
  rw [Nat.mul_zero] at scan
  obtain ⟨size,ino,named⟩ := newDirentOf inum length clean short
  refine ⟨newDirent de name inum,size,ino,named,?_⟩
  simp only [inodeAddDirectoryEntry,runBind,look,followOk,runMemory,scan]
  congr 1
  funext rc s
  unfold kassert
  split <;> rfl

theorem freeSlotPlace (view : Nat → Block) (x : Inode) : freeSlot view x ≤ entryCount x := by
  unfold freeSlot
  cases found : search view x (fun e => decide (e.dIno = 0)) with
  | none => exact Nat.le_refl _
  | some i =>
    have mem := List.mem_of_find?_eq_some found
    simp only [List.mem_range'_1] at mem
    exact Nat.le_of_lt (by simpa using mem.2)

end Writing
end TskSw.Directory
