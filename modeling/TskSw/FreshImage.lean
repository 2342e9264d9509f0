import TskSw.Regions

/-! What the kernel finds in an image that mkfs has just made of zeros, for every geometry.
A lookup in the root directory reads four blocks at most, so the buffer cache of a booted
kernel serves it however large the image is. -/
namespace TskSw.FreshImage
open Bytes BlockProgram BlkIo BlkFlat FsLayout FsKernel DataBitmap DataBlocks Bmap Inodes InodeIo CString Directory FsCalls FsTree Mkfs
  MkfsImage Regions

def consName : List UInt8 := [67,79,78]

def resolve (path : List UInt8) : Fs (Option Inode) := do
  match ← inodeNamei path with
  | none => pure none
  | some ip => do
      inodeLock ip
      let x ← getInode ip
      pure (some x)

structure Ends (S : Nat → Prop) {α : Type} (p : Fs α) (s : State) (a : α) (u : State) : Prop where
  ran : run diskLayer p s = .ok (a,u)
  within : Within diskLayer S p s

variable {u : State} {k : Kernel} {i ip j : Nat} {name : List UInt8} {inum : BitVec 32}

variable {S : Nat → Prop} {s : State} {n size : Nat} {console stack : List UInt8} {sb : Superblock}

section Ends
variable {t : State} {α β : Type} {a : α} {b : β} {p : Fs α} {f : α → Fs β}

theorem Ends.bind (first : Ends S p s a t) (rest : Ends S (f a) t b u) : Ends S (p >>= f) s b u := by
  refine ⟨(runBindOk _).mpr ⟨a,t,first.ran,rest.ran⟩,(withinBind ..).mpr ⟨first.within,fun c v ran => ?_⟩⟩
  rw [first.ran] at ran
  cases ran
  exact rest.within

theorem endsPure : Ends S (pure a) s a s := ⟨rfl,trivial⟩

theorem endsGetInode {ip} : Ends S (getInode ip) s (s.mem.inode ip) s := ⟨rfl,trivial⟩

theorem endsEditInode {g : Inode → Inode} : Ends S (editInode ip g) s () ⟨s.disk,s.mem.withInode ip (g (s.mem.inode ip))⟩ :=
  ⟨rfl,trivial⟩

theorem endsKassert {cond : Prop} [Decidable cond] (holds : cond) : Ends S (kassert cond) s () s := by
  rw [kassert,if_pos holds]
  exact endsPure

end Ends

section Kernel
variable {t : Disk}

theorem endsInodeGet {dev inum y} (found : slotFor k dev inum = some (i,y)) :
    Ends S (inodeGet dev inum) ⟨t,k⟩ i ⟨t,k.withInode i y⟩ := by
  refine ⟨runInodeGet found,?_⟩
  rw [inodeGet,withinGet]
  split
  · simp [editInode,withinBind]
  · split
    · exact withinAbort diskLayer _
    · simp [editInode,withinBind]

theorem endsInodeUnlock (busy : (k.inode i).busy = true) :
    Ends S (inodeUnlock i) ⟨t,k⟩ () ⟨t,k.withInode i {k.inode i with busy := false}⟩ :=
  endsGetInode.bind ((endsKassert busy).bind endsEditInode)

theorem endsPutKeep (keep : ¬ ((k.inode i).ref = 1 ∧ (k.inode i).valid = true ∧ (k.inode i).iNlink = 0)) :
    Ends S (inodePut i) ⟨t,k⟩ () ⟨t,k.withInode i {k.inode i with ref := (k.inode i).ref - 1}⟩ := by
  refine endsGetInode.bind ?_
  rw [if_neg keep]
  exact endsEditInode

theorem endsInodeLock (super : Idle t superBlockBlkNo) (block : Idle t (inodeBlock (superOf t.view) (k.inode i).inum))
    (used : 0 < (k.inode i).ref) (idle : (k.inode i).busy = false) (root : (k.inode i).iDev = devRoot)
    (first : S superBlockBlkNo) (second : S (inodeBlock (superOf t.view) (k.inode i).inum)) :
    Ends S (inodeLock i) ⟨t,k⟩ () ⟨t,k.withInode i (locked t.view (k.inode i))⟩ := by
  refine ⟨runInodeLock super block used idle (by rw [root]; exact devRootNat),?_⟩
  have disk := (withinReadDiskInode (s := ⟨t,k.withInode i {k.inode i with busy := true}⟩) super (k.inode i).inum).mpr ⟨first,second⟩
  have read := runReadDiskInode (k := k.withInode i {k.inode i with busy := true}) devRootNat super block
  unfold inodeLock
  rw [withinBind]
  refine ⟨trivial,fun x u get => ?_⟩
  cases get
  dsimp only
  rw [withinBind,idle,if_neg Bool.false_ne_true]
  refine ⟨(endsKassert used).within,fun _ u ran => ?_⟩
  rw [(endsKassert (S := S) used).ran] at ran
  cases ran
  rw [withinBind]
  refine ⟨trivial,fun _ u set => ?_⟩
  cases set
  split
  · rw [root,withinBehind super,withinBind]
    refine ⟨first,disk,fun a u ran => ?_⟩
    rw [read] at ran
    cases ran
    simp only [withinBind,withinBlockData,withinReleaseBlock]
    exact ⟨second,fun _ _ _ => ⟨second,fun _ _ _ => trivial⟩⟩
  · exact withinPure diskLayer _

end Kernel

section Blocks

structure Direct (S : Nat → Prop) (x : Inode) (n : Nat) : Prop where
  direct : n < fsIaddrDirectNr
  filled : (addrAt x.iAddr n).toNat ≠ 0
  inside : S (addrAt x.iAddr n).toNat

theorem endsBmap (block : Direct S (s.mem.inode ip) n) : Ends S (bmap ip n) s (addrAt (s.mem.inode ip).iAddr n).toNat s := by
  refine endsGetInode.bind ?_
  rw [if_pos block.direct,if_neg block.filled]
  exact endsPure

theorem withinReadLoop {passes off remains} (root : (s.mem.inode ip).iDev = devRoot)
    (blocks : ∀ n, off/bsize ≤ n → bsize*n < off + remains → Direct S (s.mem.inode ip) n) :
    Within diskLayer S (readLoop ip passes off remains) s := by
  induction passes generalizing off remains s with
  | zero => exact withinPure diskLayer _
  | succ passes ih =>
    unfold readLoop
    split
    · exact withinPure diskLayer _
    split
    · exact withinAbort diskLayer _
    rename_i some small
    have here := blocks (off/bsize) le_rfl (by have := Nat.mul_div_le off bsize; omega)
    have found := endsBmap here
    rw [withinBind]
    refine ⟨found.within,fun blk u ran => ?_⟩
    rw [found.ran] at ran
    cases ran
    rw [withinBind]
    refine ⟨trivial,fun x u get => ?_⟩
    cases get
    rw [root,withinBind,withinBread]
    refine ⟨here.inside,fun _ u read => ?_⟩
    obtain ⟨_,_,rfl⟩ := runBreadOk read
    dsimp only
    rw [withinBind,withinBlockData]
    refine ⟨here.inside,fun d u data => ?_⟩
    obtain ⟨_,rfl⟩ := runDataOk _ data
    rw [withinBind,withinReleaseBlock]
    refine ⟨here.inside,fun _ u release => ?_⟩
    have same : u.mem = s.mem := onDiskMem release
    rw [withinBind]
    refine ⟨ih (by rw [same]; exact root) fun n low high => ?_,fun _ _ _ => withinPure diskLayer _⟩
    rw [same]
    refine blocks n (Nat.le_trans (Nat.div_le_div_right (Nat.le_add_right _ _)) low) ?_
    have pass : min remains (bsize - off%bsize) ≤ remains := Nat.min_le_left _ _
    omega

end Blocks

section Directory
variable {t : Disk} {dp : Nat} (h : Legible t (k.inode dp)) (direct : ∀ i < entryCount (k.inode dp), i/direntsPerBlock < fsIaddrDirectNr)
  (inside : ∀ i < entryCount (k.inode dp), S (mapped t.view (k.inode dp) (i/direntsPerBlock)))
include h direct inside

theorem endsReadEntry {i} (small : i < entryCount (k.inode dp)) :
    Ends S (inodeRead dp (BitVec.ofNat 64 (direntSize*i)) (BitVec.ofNat 64 direntSize)) ⟨t,k⟩
      ((direntSize : Int),rawAt t.view (k.inode dp) i) ⟨t,k⟩ := by
  refine ⟨runReadEntry h small,?_⟩
  obtain ⟨_,filled⟩ := listingBlock h small
  have count := listingCount h
  have bound : direntSize*i + direntSize ≤ (k.inode dp).iSize.toNat := by
    simp only [direntSize] at count ⊢
    omega
  have low := direct i small
  have here := inside i small
  have limit : direntSize*i + direntSize < 2^63 := Nat.lt_of_le_of_lt (bound.trans h.limit) (by decide)
  have whole : ¬ (k.inode dp).iSize < BitVec.ofNat 64 (direntSize*i) + BitVec.ofNat 64 direntSize := by
    rw [offAdd,BitVec.lt_def,offNat limit]
    omega
  rw [mapped,if_pos low] at filled here
  rw [inodeRead,withinBind]
  refine ⟨trivial,fun x u get => ?_⟩
  cases get
  rw [withinBind]
  have mode : (k.inode dp).iMode ≠ fsImodeDev := by
    rw [h.mode]
    decide
  refine ⟨(endsKassert mode).within,fun _ u ran => ?_⟩
  rw [(endsKassert (S := S) mode).ran] at ran
  cases ran
  split
  · exact withinPure diskLayer _
  dsimp only
  rw [withinBind,offNat (show direntSize < 2^63 by decide),offNat (by omega)]
  refine ⟨withinReadLoop h.mapping.root fun n from_ upto => ?_,fun _ _ _ => withinPure diskLayer _⟩
  have number : n = i/direntsPerBlock := by
    simp only [direntSize,direntsPerBlock,bsize] at from_ upto ⊢
    omega
  rw [number]
  exact ⟨low,filled,here⟩

theorem endsLookupLoop (name passes) {i} (enough : entryCount (k.inode dp) < i + passes)
    (below : i ≤ entryCount (k.inode dp)) : Ends S (lookupLoop dp name passes (direntSize*i)) ⟨t,k⟩
      ((searchFrom t.view (k.inode dp) (hit name) i).map (fun j => (direntSize*j,(entryAt t.view (k.inode dp) j).dIno))) ⟨t,k⟩ := by
  refine ⟨runLookupLoop h name passes enough below,?_⟩
  have count := listingCount h
  induction passes generalizing i with
  | zero => omega
  | succ passes ih =>
    rw [lookupLoop,withinBind]
    refine ⟨trivial,fun x u get => ?_⟩
    cases get
    split
    · exact withinPure diskLayer _
    rename_i more
    have small : i < entryCount (k.inode dp) := by
      simp only [direntSize] at count more
      omega
    have read := endsReadEntry h direct inside small
    rw [withinBind]
    refine ⟨read.within,fun a u ran => ?_⟩
    rw [read.ran] at ran
    cases ran
    dsimp only
    rw [withinBind]
    refine ⟨(endsKassert rfl).within,fun _ u ran => ?_⟩
    rw [(endsKassert (S := S) rfl).ran] at ran
    cases ran
    split
    · exact withinPure diskLayer _
    · exact ih (i := i+1) (by omega) small

theorem endsDirlookup {name j ip y} (found : search t.view (k.inode dp) (hit name) = some j)
    (slot : slotFor k devRoot (entryAt t.view (k.inode dp) j).dIno = some (ip,y)) :
    Ends S (inodeDirlookup dp name) ⟨t,k⟩ (some (ip,direntSize*j)) ⟨t,k.withInode ip y⟩ := by
  have scan := endsLookupLoop h direct inside name ((k.inode dp).iSize.toNat/direntSize+1) (i := 0)
    (by simp only [entryCount]; omega) (Nat.zero_le _)
  rw [search] at found
  rw [Nat.mul_zero,found] at scan
  refine endsGetInode.bind ((endsKassert h.mode).bind (scan.bind (endsGetInode.bind ?_)))
  dsimp only
  rw [h.mapping.root]
  exact (endsInodeGet slot).bind endsPure

end Directory

def slots (console stack : List UInt8) (r c : Inode) : Kernel := ((bootKernel console stack).withInode 0 r).withInode 1 c

def freshSlot (inum : BitVec 32) : Inode := {emptyInode with iDev := devRoot, inum := inum, ref := 1}

def rootSlot (sb : Superblock) (ref : Int) (busy : Bool) : Inode := {root sb with ref := ref, busy := busy}

section Slots
variable {r c : Inode}

theorem slotsEmpty : bootKernel console stack = slots console stack emptyInode emptyInode := by
  simp [slots,Kernel.withInode,bootKernel]

@[simp] theorem slotsFirst : (slots console stack r c).inode 0 = r := by simp [slots,Kernel.withInode]

@[simp] theorem slotsSecond : (slots console stack r c).inode 1 = c := by simp [slots,Kernel.withInode]

@[simp] theorem slotsSetFirst (r') : (slots console stack r c).withInode 0 r' = slots console stack r' c := by
  have apart : (0 : Nat) ≠ 1 := Nat.zero_ne_one
  simp [slots,Kernel.withInode,Function.update_comm apart]

@[simp] theorem slotsSetSecond (c' : Inode) : (slots console stack r c).withInode 1 c' = slots console stack r c' := by
  simp [slots,Kernel.withInode]

theorem slotsOther {i} (later : 2 ≤ i) : (slots console stack r c).inode i = emptyInode := by
  have first : i ≠ 0 := by omega
  have second : i ≠ 1 := by omega
  simp [slots,Kernel.withInode,first,second,bootKernel]

theorem slotsRange : List.range ninode = 0 :: 1 :: List.range' 2 1022 := by
  rw [List.range_eq_range',ninode,List.range'_succ,List.range'_succ]

theorem lookupSlots (console stack : List UInt8) (r c : Inode) (dev : BitVec 64) (inum : BitVec 32) :
    lookupSlot (slots console stack r c).inode dev inum =
    if 0 < r.ref ∧ r.iDev = dev ∧ r.inum = inum then some 0 else if 0 < c.ref ∧ c.iDev = dev ∧ c.inum = inum then some 1 else none := by
  have rest : (List.range' 2 1022).find? (fun i => decide (0 < ((slots console stack r c).inode i).ref) &&
      ((slots console stack r c).inode i).iDev == dev && ((slots console stack r c).inode i).inum == inum) = none := by
    refine List.find?_eq_none.mpr fun i member => ?_
    rw [slotsOther (List.mem_range'_1.mp member).1]
    exact Bool.false_ne_true
  rw [lookupSlot,slotsRange,List.find?_cons,List.find?_cons,rest]
  simp only [slotsFirst,slotsSecond,← Bool.decide_and,and_assoc,beq_eq_decide]
  by_cases first : 0 < r.ref ∧ r.iDev = dev ∧ r.inum = inum
  · simp only [first,and_self,decide_true,if_true]
  · by_cases second : 0 < c.ref ∧ c.iDev = dev ∧ c.inum = inum
    · simp only [first,second,and_self,decide_true,decide_false,if_true,if_false]
    · simp only [first,second,decide_false,if_false]

theorem emptySlots (console stack r c) : emptySlot
    (slots console stack r c).inode = if r.ref = 0 then some 0 else if c.ref = 0 then some 1 else some 2 := by
  have third : (List.range' 2 1022).find? (fun i => ((slots console stack r c).inode i).ref == 0) = some 2 := by
    rw [List.range'_succ,List.find?_cons_of_pos]
    rw [slotsOther le_rfl]
    rfl
  rw [emptySlot,slotsRange,List.find?_cons,List.find?_cons,third]
  simp only [slotsFirst,slotsSecond,beq_eq_decide]
  by_cases first : r.ref = 0
  · simp only [first,decide_true,if_true]
  · by_cases second : c.ref = 0
    · simp only [first,second,decide_true,decide_false,if_true,if_false]
    · simp only [first,second,decide_false,if_false]

theorem slotForBoot (console stack inum) : slotFor (slots console stack emptyInode emptyInode) devRoot inum = some (0,freshSlot inum) := by
  have free : ¬ (0 < emptyInode.ref ∧ emptyInode.iDev = devRoot ∧ emptyInode.inum = inum) := fun used => absurd used.1 (lt_irrefl 0)
  have none := lookupSlots console stack emptyInode emptyInode devRoot inum
  have first := emptySlots console stack emptyInode emptyInode
  rw [if_neg free,if_neg free] at none
  rw [if_pos (show emptyInode.ref = 0 from rfl)] at first
  unfold slotFor
  rw [none,first]
  simp only [Option.map_some,slotsFirst]
  rfl

theorem slotForSame {inum} (used : 0 < r.ref) (dev : r.iDev = devRoot) (number : r.inum = inum) :
    slotFor (slots console stack r c) devRoot inum = some (0,{r with ref := r.ref + 1}) := by
  have found := lookupSlots console stack r c devRoot inum
  rw [if_pos ⟨used,dev,number⟩] at found
  unfold slotFor
  rw [found]
  simp only [slotsFirst]

theorem slotForNext (used : 0 < r.ref) (number : r.inum ≠ inum) :
    slotFor (slots console stack r emptyInode) devRoot inum = some (1,freshSlot inum) := by
  have free : ¬ (0 < emptyInode.ref ∧ emptyInode.iDev = devRoot ∧ emptyInode.inum = inum) := fun used => absurd used.1 (lt_irrefl 0)
  have none := lookupSlots console stack r emptyInode devRoot inum
  have second := emptySlots console stack r emptyInode
  rw [if_neg fun same => number same.2.2,if_neg free] at none
  rw [if_neg (show r.ref ≠ 0 by omega),if_pos (show emptyInode.ref = 0 from rfl)] at second
  unfold slotFor
  rw [none,second]
  simp only [Option.map_some,slotsSecond]
  rfl

end Slots

section Image

def lookedAt (sb : Superblock) : Finset Nat := {superBlockBlkNo,sb.inodeStart,sb.inodeStart+1,sb.sFirstdataBlock.toNat}

theorem lookedAtFew : (lookedAt sb).card < nbuf := Nat.lt_of_le_of_lt Finset.card_le_four (by decide)

theorem rootRecord (o : Ordered sb) : diskInode (formatted sb) rootIno = rootInode sb 0 := by
  have high : inodeBlock sb rootIno < sb.sFirstdataBlock.toNat := (Nat.le_add_right sb.inodeStart 1).trans_lt o.data
  rw [recordRead o high,if_pos rfl]

theorem consRecord (o : Ordered sb) : diskInode (formatted sb) (BitVec.ofNat 32 consIno) = consInode := by
  have high : inodeBlock sb (BitVec.ofNat 32 consIno) < sb.sFirstdataBlock.toNat := o.data
  rw [recordRead o high,if_neg (by decide),if_pos (by decide)]

variable (layout : Layout sb size) (o : Ordered sb)
include layout o

theorem blockIdle {n} (low : n < sb.sFirstdataBlock.toNat + 1) : Idle (flat (formatted sb) size) n := by
  have inside := layout.data
  have some := o.some
  exact ⟨rfl,show n < size by omega⟩

theorem lockFresh (small : inum.toNat < 4) (slot : k.inode i = freshSlot inum) :
    Ends (· ∈ lookedAt sb) (inodeLock i) ⟨flat (formatted sb) size,k⟩ ()
      ⟨flat (formatted sb) size,k.withInode i (({freshSlot inum with busy := true}).load (diskInode (formatted sb) inum))⟩ := by
  have super : superOf (flat (formatted sb) size).view = sb := superRead sb
  have number : (k.inode i).inum = inum := by rw [slot]; rfl
  have data := o.data
  have bitmap := o.bitmap
  have inode := o.inode
  have block : inodeBlock sb inum = sb.inodeStart ∨ inodeBlock sb inum = sb.inodeStart + 1 := by
    simp only [inodeBlock,inodesPerBlock,dInodeBytes,bsize]
    omega
  have idle := blockIdle layout o (show inodeBlock sb inum < sb.sFirstdataBlock.toNat + 1 by omega)
  have first := blockIdle layout o (show superBlockBlkNo < sb.sFirstdataBlock.toNat + 1 by rw [superBlockBlkNo]; omega)
  have lock := endsInodeLock (S := (· ∈ lookedAt sb)) (k := k) (i := i) first (by rw [super,number]; exact idle) (by rw [slot]; exact one_pos)
    (by rw [slot]; rfl) (by rw [slot]; rfl) (by simp [lookedAt]) (by rw [super,number]; rcases block with e | e <;> simp [lookedAt,e])
  rw [slot] at lock
  exact lock

theorem lockRoot {c} : Ends (· ∈ lookedAt sb) (inodeLock 0) ⟨flat (formatted sb) size,slots console stack (freshSlot rootIno) c⟩ ()
    ⟨flat (formatted sb) size,slots console stack (rootSlot sb 1 true) c⟩ := by
  have lock := lockFresh layout o (k := slots console stack (freshSlot rootIno) c) (by decide) slotsFirst
  rw [rootRecord o,slotsSetFirst] at lock
  exact lock

theorem legibleSlot (ref busy) : Legible (flat (formatted sb) size) (rootSlot sb ref busy) :=
  legibleSame (rootLegible layout o) rfl rfl rfl rfl

theorem lookupRoot {y : Inode} (found : search (formatted sb) (root sb) (hit name) = some j)
    (slot : slotFor (slots console stack (rootSlot sb 1 true) emptyInode) devRoot (entryAt (formatted sb) (root sb) j).dIno = some (ip,y)) :
    Ends (· ∈ lookedAt sb) (inodeDirlookup 0 name) ⟨flat (formatted sb) size,slots console stack (rootSlot sb 1 true) emptyInode⟩
      (some (ip,direntSize*j)) ⟨flat (formatted sb) size,(slots console stack (rootSlot sb 1 true) emptyInode).withInode ip y⟩ := by
  have first : (slots console stack (rootSlot sb 1 true) emptyInode).inode 0 = rootSlot sb 1 true := slotsFirst
  have legible := legibleSlot layout o 1 true
  have low : ∀ i < entryCount (rootSlot sb 1 true), i/direntsPerBlock = 0 := by
    intro i small
    rw [show entryCount (rootSlot sb 1 true) = 8 from rootEntries sb] at small
    exact Nat.div_eq_of_lt small
  rw [← first] at legible
  refine endsDirlookup legible (fun i small => ?_) (fun i small => ?_) ?_ ?_
  · rw [first] at small
    rw [low i small]
    decide
  · rw [first] at small
    rw [first,low i small]
    change mapped (formatted sb) (root sb) 0 ∈ _
    rw [rootMapped,if_pos rfl]
    simp [lookedAt]
  · rw [first]
    exact found
  · rw [first]
    exact slot

variable (short : name.length ≤ fnameMax)
include short

theorem walkLooked {c : Inode} {ref place} (look : Ends (· ∈ lookedAt sb) (inodeDirlookup 0 name)
      ⟨flat (formatted sb) size,slots console stack (rootSlot sb 1 true) emptyInode⟩ (some (ip,place))
      ⟨flat (formatted sb) size,slots console stack (rootSlot sb ref true) c⟩) :
    Ends (· ∈ lookedAt sb) (walk false (fnameMax+1) 0 [name]) ⟨flat (formatted sb) size,slots console stack (freshSlot rootIno) emptyInode⟩
      (some (ip,[])) ⟨flat (formatted sb) size,slots console stack (rootSlot sb (ref-1) false) c⟩ := by
  rw [walk,if_neg (by omega)]
  refine (lockRoot layout o).bind (endsGetInode.bind ?_)
  rw [slotsFirst,if_neg (show ¬ (rootSlot sb 1 true).iMode ≠ fsImodeDir from fun other => other rfl),if_neg (by simp)]
  refine look.bind ?_
  have unlock := endsInodeUnlock (S := (· ∈ lookedAt sb)) (t := flat (formatted sb) size)
    (k := slots console stack (rootSlot sb ref true) c) (i := 0) (by rw [slotsFirst]; rfl)
  rw [slotsFirst,slotsSetFirst] at unlock
  have put := endsPutKeep (S := (· ∈ lookedAt sb)) (t := flat (formatted sb) size) (k := slots console stack (rootSlot sb ref false) c)
    (i := 0) (by rw [slotsFirst]; exact fun last => absurd last.2.2 (by decide : (1 : BitVec 64) ≠ 0))
  rw [slotsFirst,slotsSetFirst] at put
  exact unlock.bind (put.bind endsPure)

variable (found : search (formatted sb) (root sb) (hit name) = some j)
include found

theorem walkRoot (number : (entryAt (formatted sb) (root sb) j).dIno = rootIno) :
    Ends (· ∈ lookedAt sb) (walk false (fnameMax+1) 0 [name]) ⟨flat (formatted sb) size,slots console stack (freshSlot rootIno) emptyInode⟩
      (some (0,[])) ⟨flat (formatted sb) size,slots console stack (rootSlot sb 1 false) emptyInode⟩ := by
  have slot : slotFor (slots console stack (rootSlot sb 1 true) emptyInode) devRoot (entryAt (formatted sb) (root sb) j).dIno =
      some (0,rootSlot sb 2 true) := by
    rw [number]
    exact slotForSame one_pos rfl rfl
  have look := lookupRoot layout o found slot
  rw [slotsSetFirst] at look
  exact walkLooked layout o short look

theorem walkOther {inum} (number : (entryAt (formatted sb) (root sb) j).dIno = inum) (other : rootIno ≠ inum) :
    Ends (· ∈ lookedAt sb) (walk false (fnameMax+1) 0 [name]) ⟨flat (formatted sb) size,slots console stack (freshSlot rootIno) emptyInode⟩
      (some (1,[])) ⟨flat (formatted sb) size,slots console stack (rootSlot sb 0 false) (freshSlot inum)⟩ := by
  have slot : slotFor (slots console stack (rootSlot sb 1 true) emptyInode) devRoot (entryAt (formatted sb) (root sb) j).dIno =
      some (1,freshSlot inum) := by
    rw [number]
    exact slotForNext one_pos other
  have look := lookupRoot layout o found slot
  rw [slotsSetSecond] at look
  exact walkLooked layout o short look

end Image

section Resolve
variable {path : List UInt8}

theorem resolveEnds {ip u v} (starts : (cstr path).head? = some slash)
    (walked : Ends (· ∈ lookedAt sb) (walk false (fnameMax+1) 0 (elements ((cstr path).length+1) (cstr path)))
      ⟨flat (formatted sb) size,slots console stack (freshSlot rootIno) emptyInode⟩ (some (ip,[])) u)
    (lock : Ends (· ∈ lookedAt sb) (inodeLock ip) u () v) :
    Ends (· ∈ lookedAt sb) (resolve path) ⟨flat (formatted sb) size,bootKernel console stack⟩ (some (v.mem.inode ip)) v := by
  have get := endsInodeGet (S := (· ∈ lookedAt sb)) (t := flat (formatted sb) size) (slotForBoot console stack rootIno)
  rw [slotsSetFirst,← slotsEmpty] at get
  have path2inode : Ends (· ∈ lookedAt sb) (inodePath2inode path false (fnameMax+1))
      ⟨flat (formatted sb) size,bootKernel console stack⟩ (some (ip,[])) u := (endsKassert starts).bind (get.bind walked)
  have namei : Ends (· ∈ lookedAt sb) (inodeNamei path) ⟨flat (formatted sb) size,bootKernel console stack⟩ (some ip) u :=
    path2inode.bind endsPure
  exact namei.bind (lock.bind (endsGetInode.bind endsPure))

variable (layout : Layout sb size) (o : Ordered sb)
include layout o

theorem relockRoot : Ends (· ∈ lookedAt sb) (inodeLock 0) ⟨flat (formatted sb) size,slots console stack (rootSlot sb 1 false) emptyInode⟩ ()
    ⟨flat (formatted sb) size,slots console stack (rootSlot sb 1 true) emptyInode⟩ := by
  have super : superOf (flat (formatted sb) size).view = sb := superRead sb
  have data := o.data
  have bitmap := o.bitmap
  have inode := o.inode
  have block : inodeBlock sb rootIno = sb.inodeStart := rfl
  have number : ((slots console stack (rootSlot sb 1 false) emptyInode).inode 0).inum = rootIno := by rw [slotsFirst]; rfl
  have lock := endsInodeLock (S := (· ∈ lookedAt sb)) (t := flat (formatted sb) size) (k := slots console stack (rootSlot sb 1 false) emptyInode)
    (i := 0) (blockIdle layout o (by rw [superBlockBlkNo]; omega)) (by rw [super,number,block]; exact blockIdle layout o (by omega))
    (by rw [slotsFirst]; exact one_pos) (by rw [slotsFirst]; rfl) (by rw [slotsFirst]; rfl) (by simp [lookedAt])
    (by rw [super,number,block]; simp [lookedAt])
  rw [slotsFirst,slotsSetFirst] at lock
  exact lock

omit layout in
theorem rootHit (name) {i} (small : i < 8) : hit name (entryAt (formatted sb) (root sb) i) =
    hit name (direntOf (slice (patch zeros 0 rootDirents) (direntSize*(i%direntsPerBlock)) direntSize)) := by
  rw [rootEntry o (by rw [rootEntries]; exact small)]

omit layout in
theorem rootNumber (small : i < 8) : (entryAt (formatted sb) (root sb) i).dIno =
    (direntOf (slice (patch zeros 0 rootDirents) (direntSize*(i%direntsPerBlock)) direntSize)).dIno := by
  rw [rootEntry o (by rw [rootEntries]; exact small)]

omit layout in
theorem searchDot : search (formatted sb) (root sb) (hit dot) = some 0 := by
  have count := rootEntries sb
  rw [search,searchStep (by omega),rootHit o dot (by decide),if_pos (by decide +kernel)]

omit layout in
theorem searchDotDot : search (formatted sb) (root sb) (hit dotDot) = some 1 := by
  have count := rootEntries sb
  rw [search,searchStep (by omega),rootHit o dotDot (by decide),if_neg (by decide +kernel),searchStep (by omega),
    rootHit o dotDot (by decide),if_pos (by decide +kernel)]

omit layout in
theorem searchCons : search (formatted sb) (root sb) (hit consName) = some 2 := by
  have count := rootEntries sb
  rw [search,searchStep (by omega),rootHit o consName (by decide),if_neg (by decide +kernel),searchStep (by omega),
    rootHit o consName (by decide),if_neg (by decide +kernel),searchStep (by omega),rootHit o consName (by decide),if_pos (by decide +kernel)]

variable (console stack)

theorem resolveRoot (member : path ∈ [[slash],slash :: dot,slash :: dotDot]) :
    Ends (· ∈ lookedAt sb) (resolve path) ⟨flat (formatted sb) size,bootKernel console stack⟩ (some (rootSlot sb 1 true))
      ⟨flat (formatted sb) size,slots console stack (rootSlot sb 1 true) emptyInode⟩ := by
  have slot : (slots console stack (rootSlot sb 1 true) emptyInode).inode 0 = rootSlot sb 1 true := slotsFirst
  rw [← slot]
  simp only [List.mem_cons,List.not_mem_nil,or_false] at member
  rcases member with rfl | rfl | rfl
  · exact resolveEnds rfl endsPure (lockRoot layout o)
  · have number := (rootNumber o (i := 0) (by decide)).trans (by decide +kernel : _ = rootIno)
    exact resolveEnds rfl (walkRoot layout o (by decide) (searchDot o) number) (relockRoot layout o)
  · have number := (rootNumber o (i := 1) (by decide)).trans (by decide +kernel : _ = rootIno)
    exact resolveEnds rfl (walkRoot layout o (by decide) (searchDotDot o) number) (relockRoot layout o)

theorem resolveCons : Ends (· ∈ lookedAt sb) (resolve (slash :: consName)) ⟨flat (formatted sb) size,bootKernel console stack⟩
    (some (({freshSlot (BitVec.ofNat 32 consIno) with busy := true}).load consInode))
    ⟨flat (formatted sb) size,slots console stack (rootSlot sb 0 false)
      (({freshSlot (BitVec.ofNat 32 consIno) with busy := true}).load consInode)⟩ := by
  have number := (rootNumber o (i := 2) (by decide)).trans (by decide +kernel : _ = BitVec.ofNat 32 consIno)
  have lock := lockFresh layout o (k := slots console stack (rootSlot sb 0 false) (freshSlot (BitVec.ofNat 32 consIno))) (by decide) slotsSecond
  rw [consRecord o,slotsSetSecond] at lock
  have slot : (slots console stack (rootSlot sb 0 false) (({freshSlot (BitVec.ofNat 32 consIno) with busy := true}).load consInode)).inode 1 =
    ({freshSlot (BitVec.ofNat 32 consIno) with busy := true}).load consInode := slotsSecond
  rw [← slot]
  exact resolveEnds rfl (walkOther layout o (by decide) (searchCons o) number (by decide)) lock

end Resolve

def bitPlace (start i : Nat) : Nat × Nat × Nat := (mapBlock start i,(i%bitsPerBlock)/chunkBytes,i%bitsPerBlock%chunkBytes)

def diskBit (view : Nat → Block) (place : Nat × Nat × Nat) : Bool := (chunk (view place.1) place.2.1).getLsbD place.2.2

section Bits
variable {c b : Nat}

theorem chunkBitWith {d i} (inside : i/chunkBytes < chunksPerBlock) : (chunk (withBit d i) c).getLsbD b =
    (decide (c = i/chunkBytes ∧ b = i%chunkBytes) || (chunk d c).getLsbD b) := by
  have small : i%chunkBytes < 64 := by simp only [chunkBytes]; omega
  by_cases same : c = i/chunkBytes
  · rw [same,withBit,chunkSet _ inside,BitVec.getLsbD_or,shiftedOne small,Bool.or_comm]
    simp
  · rw [withBit,chunkSetOther _ same]
    simp [same]

theorem chunkZero : (chunk zeros c).getLsbD b = false := by
  have word : chunk zeros c = 0 := congrArg u64 (zeroSlice _ _)
  rw [word]
  exact BitVec.getLsbD_zero

theorem inodeBits (o : Ordered sb) (low : resvBlockNr + superBlockBlkNr ≤ n) (high : n < sb.bitmapStart) :
    diskBit (formatted sb) (n,c,b) = true ↔ ∃ ino < 4, (n,c,b) = bitPlace (resvBlockNr + superBlockBlkNr) ino := by
  have place : ∀ ino < 4, bitPlace (resvBlockNr + superBlockBlkNr) ino = (2,0,ino) := by decide
  have here : (∃ ino < 4, (n,c,b) = bitPlace (resvBlockNr + superBlockBlkNr) ino) ↔ n = 2 ∧ c = 0 ∧ b < 4 := by
    constructor
    · rintro ⟨ino,small,same⟩
      rw [place ino small] at same
      cases same
      exact ⟨rfl,rfl,small⟩
    · rintro ⟨rfl,rfl,small⟩
      exact ⟨b,small,(place b small).symm⟩
  rw [here,diskBit,(regions o n).1 low high]
  split
  · rename_i first
    rw [inodeMap,chunkBitWith (by decide),chunkBitWith (by decide),chunkBitWith (by decide),chunkBitWith (by decide),chunkZero]
    simp only [Bool.or_eq_true,decide_eq_true_eq,Bool.false_eq_true,or_false]
    simp only [consIno,rootDentIno,chunkBytes]
    omega
  · rw [chunkZero]
    simp only [Bool.false_eq_true,false_iff]
    omega

theorem dataBits (o : Ordered sb) (low : sb.bitmapStart ≤ n) (high : n < sb.inodeStart) : diskBit (formatted sb) (n,c,b) = true ↔
    ∃ i, (addrAt (diskInode (formatted sb) rootIno).iAddr 0).toNat = sb.sFirstdataBlock.toNat + i ∧ (n,c,b) = bitPlace sb.bitmapStart i := by
  have place : bitPlace sb.bitmapStart 0 = (sb.bitmapStart,0,0) := rfl
  have here : (∃ i, (addrAt (diskInode (formatted sb) rootIno).iAddr 0).toNat = sb.sFirstdataBlock.toNat + i ∧
      (n,c,b) = bitPlace sb.bitmapStart i) ↔ n = sb.bitmapStart ∧ c = 0 ∧ b = 0 := by
    rw [rootRecord o,rootAddr,if_pos rfl]
    constructor
    · rintro ⟨i,same,at_⟩
      obtain rfl : i = 0 := by omega
      rw [place] at at_
      cases at_
      exact ⟨rfl,rfl,rfl⟩
    · rintro ⟨rfl,rfl,rfl⟩
      exact ⟨0,rfl,rfl⟩
  rw [here,diskBit,(regions o n).2.1 low high]
  split
  · rename_i first
    rw [chunkBitWith (by decide),chunkZero]
    simp only [Bool.or_eq_true,decide_eq_true_eq,Bool.false_eq_true,or_false]
    simp only [chunkBytes]
    omega
  · rw [chunkZero]
    simp only [Bool.false_eq_true,false_iff]
    omega

end Bits

theorem bootEnds {image : Image} {blocks : Nat} {k : FsKernel.Kernel} {S : Finset Nat} {ρ : Type} {p : Fs ρ} {a : ρ}
    (few : S.card < nbuf) (ends : Ends (· ∈ S) p ⟨flat image blocks,k⟩ a u) :
    ∃ w, run cacheLayer p ⟨boot image blocks,k⟩ = .ok (a,w) := by
  obtain ⟨s,ran,_⟩ := bootRun few ends.within ends.ran
  exact ⟨_,ran⟩

theorem superLow (size nrFiles) : initSuperBlock (size/bsize%2^32*bsize) nrFiles = initSuperBlock size nrFiles := by
  have low : BitVec.ofNat 32 (size/bsize%2^32*bsize/bsize) = BitVec.ofNat 32 (size/bsize) := by
    rw [Nat.mul_div_cancel _ (by decide : 0 < bsize)]
    exact BitVec.eq_of_toNat_eq (by simp)
  simp only [initSuperBlock,low]

theorem kernelReadsImage {size nrFiles : Nat} (files : 4 ≤ nrFiles) (tables : resvBlockNr + superBlockBlkNr +
      (nrFiles + (bitsPerBlock-1))/bitsPerBlock + (nrFiles + (inodesPerBlock-1))/inodesPerBlock ≤ (initSuperBlock size nrFiles).sMaxSize.toNat)
    (data : 0 < (initSuperBlock size nrFiles).sNblocks.toNat) (console stack : List UInt8) :
    (∀ path ∈ [[slash],slash :: dot,slash :: dotDot], ∃ x w,
      run cacheLayer (resolve path) ⟨boot (writeFsImage size nrFiles) (size/bsize),bootKernel console stack⟩ = .ok (some x,w) ∧
      x.inum.toNat = rootDentIno ∧ x.iMode = fsImodeDir) ∧
    (∃ x w, run cacheLayer (resolve (slash :: consName)) ⟨boot (writeFsImage size nrFiles) (size/bsize),bootKernel console stack⟩ =
        .ok (some x,w) ∧ x.inum.toNat = consIno ∧ x.iMode = fsImodeDev ∧ x.iRdev.toNat = consDev) ∧
    (∀ n c b, n ∈ Region.inodeMap.blocks (initSuperBlock size nrFiles) → (diskBit (writeFsImage size nrFiles) (n,c,b) = true ↔
      ∃ ino < 4, (n,c,b) = bitPlace (resvBlockNr + superBlockBlkNr) ino)) ∧
    ∀ n c b, n ∈ Region.dataMap.blocks (initSuperBlock size nrFiles) → (diskBit (writeFsImage size nrFiles) (n,c,b) = true ↔
      ∃ i, (addrAt (diskInode (writeFsImage size nrFiles) rootIno).iAddr 0).toNat = (initSuperBlock size nrFiles).sFirstdataBlock.toNat + i ∧
        (n,c,b) = bitPlace (initSuperBlock size nrFiles).bitmapStart i) := by
  have whole : size/bsize%2^32*bsize/bsize = size/bsize%2^32 := Nat.mul_div_cancel _ (by decide)
  have numbers : Numbers (size/bsize%2^32*bsize) nrFiles (initSuperBlock size nrFiles) := by
    rw [← superLow]
    exact superNumbers (whole.trans_lt (Nat.mod_lt _ (by decide))) (tables.trans (le_of_eq (by rw [whole]; exact BitVec.toNat_ofNat ..)))
  have layout : Layout (initSuperBlock size nrFiles) (size/bsize) :=
    (numbersLayout numbers).more (whole.trans_le (Nat.mod_le _ _))
  have o := numbersOrdered numbers files data
  obtain ⟨bitmap,inode,_⟩ := regionsOrdered numbers
  rw [imageFormatted o]
  refine ⟨fun path member => ?_,?_,fun n c b member => ?_,fun n c b member => ?_⟩
  · have ends := resolveRoot console stack layout o member
    obtain ⟨w,ran⟩ := bootEnds lookedAtFew ends
    exact ⟨_,_,ran,rfl,rfl⟩
  · have ends := resolveCons console stack layout o
    obtain ⟨w,ran⟩ := bootEnds lookedAtFew ends
    exact ⟨_,_,ran,rfl,rfl,rfl⟩
  · exact inodeBits o member.1 (bitmap ▸ member.2)
  · exact dataBits o (bitmap ▸ member.1) (inode ▸ member.2)

theorem defaultConsole : ∃ x w, run cacheLayer (resolve (slash :: consName))
    ⟨boot (writeFsImage defaultFsSize defaultInodeNr) (defaultFsSize/bsize),bootKernel [] []⟩ = .ok (some x,w) ∧
    x.inum.toNat = consIno ∧ x.iMode = fsImodeDev ∧ x.iRdev.toNat = consDev :=
  (kernelReadsImage (by decide) (by decide +kernel) (by decide +kernel) [] []).2.1

end TskSw.FreshImage
