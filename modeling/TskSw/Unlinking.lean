import TskSw.FsRuns

/-! What `fs_unlink` removes and what it refuses. `isdirempty` asserts that an entry was not
read whole, so it returns only for a directory without entries; and the names `fs_unlink`
refuses are all that begin with a dot, since `strncmp` stops at the end of `"."`. -/
namespace TskSw.Unlinking
open Bytes BlockProgram BlkIo BlkFlat FsLayout FsKernel DataBitmap DataBlocks Inodes InodeIo CString Directory FsCalls FsRuns
open References (smallWorld fileA)
open Mkfs (fnameMax direntBytes)
open FsTree (stored)
open Ownership (lockOwned)
open Bmap (runMapped)

def Dots (name : List UInt8) : Prop := cstr name = dot ∨ cstr name = dotDot

instance (name : List UInt8) : Decidable (Dots name) := inferInstanceAs (Decidable (_ ∨ _))

def Empty (view : Nat → Block) (x : Inode) : Prop :=
  ∀ i < entryCount x, (entryAt view x i).dIno ≠ 0 → Dots (entryAt view x i).dName

instance (view : Nat → Block) (x : Inode) : Decidable (Empty view x) := inferInstanceAs (Decidable (∀ i < _,_))

def Dotted (name : List UInt8) : Prop := dot <+: cstr name

instance (name : List UInt8) : Decidable (Dotted name) := inferInstanceAs (Decidable (_ <+: _))

theorem nameTest (name : List UInt8) :
    (strncmp dot name fnameMax = 0 ∨ strncmp dotDot name fnameMax = 0) ↔ Dotted name := by
  rw [strncmpZero (by decide) (by decide),strncmpZero (by decide) (by decide)]
  have shorter : dot <+: dotDot := by decide
  exact ⟨fun test => test.elim id shorter.trans,Or.inl⟩

theorem dotsDotted {name} (dots : Dots name) : Dotted name := by
  rcases dots with one | two
  · rw [Dotted,one]
  · rw [Dotted,two]
    decide

variable {t : Disk} {k : Kernel} {dp ip off : Nat} {α : Type} {w : World Store Kernel} {s : Store}

section Emptiness
variable {σ : Type} {L : Layer σ Nat Block Fault}

theorem emptyAtOnce {w : World σ Kernel} (none : (w.mem.inode dp).iSize = 0) : run L (isdirempty dp) w = .ok (true,w) := by
  have passed : (w.mem.inode dp).iSize.toNat = 0 := by simp [none]
  simp [isdirempty,emptyLoop,getInode,passed]

theorem emptyStops (h : Legible t (k.inode dp)) (filled : (k.inode dp).iSize ≠ 0) :
    run diskLayer (isdirempty dp) ⟨t,k⟩ = .error .assertion := by
  have count := listingCount h
  have size : (k.inode dp).iSize.toNat ≠ 0 := fun zero => filled (BitVec.eq_of_toNat_eq zero)
  have entries : 0 < entryCount (k.inode dp) := by
    rw [count] at size
    exact Nat.pos_of_ne_zero (right_ne_zero_of_mul size)
  have read := runReadEntry h entries
  rw [Nat.mul_zero] at read
  simp [isdirempty,emptyLoop,getInode,size,read,kassert]

theorem emptyNever {s a w} (matched : Matches s t) (h : Legible t (k.inode dp))
    (filled : (k.inode dp).iSize ≠ 0) : run cacheLayer (isdirempty dp) ⟨s,k⟩ ≠ .ok (a,w) := by
  intro ok
  obtain ⟨_,ran,_⟩ := fromCache matched ok
  rw [emptyStops h filled] at ran
  cases ran

theorem sizeZeroEmpty {x : Inode} (none : x.iSize = 0) : Empty t.view x := by
  intro i inside
  simp [entryCount,none] at inside

theorem emptinessExact (matched : Matches s t) (h : Legible t (k.inode dp)) :
    (∃ w, run cacheLayer (isdirempty dp) ⟨s,k⟩ = .ok (decide (Empty t.view (k.inode dp)),w)) ↔ (k.inode dp).iSize = 0 := by
  constructor
  · rintro ⟨w,ok⟩
    by_contra filled
    exact emptyNever matched h filled ok
  · intro none
    rw [decide_eq_true (sizeZeroEmpty none)]
    exact ⟨_,emptyAtOnce none⟩

end Emptiness

structure Finds (path name : List UInt8) (dp ip off : Nat) (w w₁ w₂ : World Store Kernel) : Prop where
  parent : run cacheLayer (inodeNameiparent path >>= fun found => inodeLock dp >>= fun _ => pure found) w = .ok (some (dp,name),w₁)
  entry : run cacheLayer (inodeDirlookup dp name >>= fun found => inodeLock ip >>= fun _ => pure found) w₁ = .ok (some (ip,off),w₂)

def Refuses (dp : Nat) (w₁ : World Store Kernel) : Prop := ∃ u, run cacheLayer (unlinkErrorOut dp) w₁ = .ok (-1,u)

structure Removes (dp ip off : Nat) (w₂ : World Store Kernel) : Prop where
  linked : 0 < (w₂.mem.inode ip).iNlink.toInt
  removed : ∃ u, run cacheLayer (unlinkEntry dp ip off) w₂ = .ok (0,u)

structure Removable (dp ip off : Nat) (t : Disk) (k : Kernel) : Prop where
  parent : Listing t (k.inode dp)
  place : ∃ i < entryCount (k.inode dp), off = direntSize*i
  locked : (k.inode dp).busy = true ∧ (k.inode ip).busy = true
  root : (k.inode ip).iDev.toNat = rootDev
  number : (k.inode ip).inum.toNat < (superOf t.view).sNinodes.toNat
  apart : ip ≠ dp
  linked : 0 < (k.inode ip).iNlink.toInt
  stays : (k.inode dp).ref = 1 → (k.inode dp).iNlink ≠ if (k.inode ip).iMode = fsImodeDir then 1 else 0
  used : (k.inode ip).ref = 1 → (k.inode ip).iNlink ≠ 1

section Returning
variable {sb : Superblock}

theorem runDropped {f : Unit → Fs α} (tables : Tables sb t) (root : (k.inode ip).iDev.toNat = rootDev)
    (number : (k.inode ip).inum.toNat < sb.sNinodes.toNat) (busy : (k.inode ip).busy = true)
    (used : (k.inode ip).ref = 1 → (k.inode ip).iNlink ≠ 1) :
    ∃ u y, Tables sb u ∧ run diskLayer (editInode ip (fun x => {x with iNlink := x.iNlink - 1}) >>= fun _ => inodeUpdate ip >>= fun _ =>
      inodeUnlock ip >>= fun _ => inodePut ip >>= f) ⟨t,k⟩ = run diskLayer (f ()) ⟨u,k.withInode ip y⟩ := by
  let l := k.withInode ip {k.inode ip with iNlink := (k.inode ip).iNlink - 1}
  have get : l.inode ip = {k.inode ip with iNlink := (k.inode ip).iNlink - 1} := Function.update_self ..
  have edit : run diskLayer (editInode ip (fun x => {x with iNlink := x.iNlink - 1})) ⟨t,k⟩ = .ok ((),⟨t,l⟩) := rfl
  have linked : Linked (l.inode ip) := by
    rw [get]
    rintro ⟨one,_,zero⟩
    dsimp only at zero
    exact used one (by bv_omega)
  have update := runInodeUpdate tables (k := l) (by rw [get]; exact root) (by rw [get]; exact number)
  have twice : ∀ y, l.withInode ip y = k.withInode ip y := fun y => by simp [l,Kernel.withInode]
  refine ⟨putInode t sb (l.inode ip).inum (diskCopy (l.inode ip)),{l.inode ip with busy := false, ref := (l.inode ip).ref - 1},
    ⟨tables.layout,putInodeSuper tables _,tables.free⟩,?_⟩
  rw [runBind,edit,followOk,runBind,update,followOk,runGiveBack (by rw [get]; exact busy) linked,twice]

theorem entryRemoved (h : Removable dp ip off t k) : ∃ u, run diskLayer (unlinkEntry dp ip off) ⟨t,k⟩ = .ok (0,u) := by
  obtain ⟨i,inside,rfl⟩ := h.place
  have limit : direntSize*(i+1) ≤ fsMaxfileSize := (Nat.mul_le_mul_left _ inside).trans (listingCount h.parent.legible ▸ h.parent.limit)
  obtain ⟨small,hit⟩ := listingBlock h.parent.legible inside
  obtain ⟨v,l,write,written⟩ := writtenRuns h.parent (List.length_replicate ..) inside.le limit (runMapped h.parent.mapping small hit) (.old hit)
  have tables : Tables (superOf t.view) v := written.disk.2.2 ▸ listingTables written.listing
  obtain ⟨busy,stays⟩ : (l.inode dp).busy = true ∧
      ((l.inode dp).ref = 1 → (l.inode dp).iNlink ≠ if (k.inode ip).iMode = fsImodeDir then 1 else 0) := by
    rw [written.kernel]
    dsimp only [Kernel.withInode]
    rw [Function.update_self]
    exact ⟨h.locked.1,h.stays⟩
  have other : l.inode ip = k.inode ip := by
    rw [written.kernel]
    exact Function.update_of_ne h.apart ..
  have last : ∀ u y, Tables (superOf t.view) u → ∃ w, run diskLayer (do
      editInode ip (fun x => {x with iNlink := x.iNlink - 1})
      inodeUpdate ip
      inodeUnlock ip
      inodePut ip
      pure 0) ⟨u,l.withInode dp y⟩ = .ok ((0 : Int),w) := by
    intro u y tables
    have here : (l.withInode dp y).inode ip = k.inode ip := (Function.update_of_ne h.apart ..).trans other
    obtain ⟨u',y',-,ran⟩ := runDropped (f := fun _ => pure (0 : Int)) tables (by rw [here]; exact h.root) (by rw [here]; exact h.number)
      (by rw [here]; exact h.locked.2) (by rw [here]; exact h.used)
    exact ⟨_,ran⟩
  rw [unlinkEntry,runBind,write,followOk]
  simp only [kassert,if_true,runBind,runPure,followOk,getInode,runMemory,other]
  split
  · rename_i dir
    rw [if_pos dir] at stays
    obtain ⟨u,y,tables,ran⟩ := runDropped tables (by rw [written.listing.mapping.root]; exact devRootNat)
      (written.disk.2.2 ▸ written.listing.number) busy stays
    rw [ran]
    exact last u y tables
  · rename_i file
    rw [if_neg file] at stays
    rw [runGiveBack busy fun last => stays last.1 last.2.2]
    exact last v _ tables

theorem removesWhen (matched : Matches s t) (h : Removable dp ip off t k) :
    run cacheLayer (unlinkEntry dp ip off) ⟨s,k⟩ = .error .noBuffers ∨ Removes dp ip off ⟨s,k⟩ := by
  obtain ⟨u,ran⟩ := entryRemoved h
  rcases toCache matched ran with stuck | ⟨s',ok,_⟩
  · exact Or.inl stuck
  · exact Or.inr ⟨h.linked,_,ok⟩

theorem refusesWhen (busy : (w.mem.inode dp).busy = true) (linked : Linked (w.mem.inode dp)) : Refuses dp w := by
  rw [Refuses,unlinkErrorOut,runGiveBack busy linked]
  exact ⟨_,rfl⟩

end Returning

def unlinkFound (dp ip off : Nat) : Fs Int := do
  let x ← getInode ip
  kassert (0 < x.iNlink.toInt)
  let empty ← removable ip
  if !empty then do
    inodeUnlock ip
    inodePut ip
    unlinkErrorOut dp
  else unlinkEntry dp ip off

section Codes
variable {p : Fs α} {f : α → Fs Int} {c : Int}

def Gives (c : Int) (p : Fs Int) : Prop := ∀ w rc u, run cacheLayer p w = .ok (rc,u) → rc = c

theorem givesPure : Gives c (pure c) := by
  intro w rc u ok
  cases ok
  rfl

theorem givesThen (rest : ∀ a, Gives c (f a)) : Gives c (p >>= f) := by
  intro w rc u ok
  obtain ⟨a,v,_,ok⟩ := runCut ok
  exact rest a v rc u ok

end Codes

section Unlink
variable {path name : List UInt8} {w₁ w₂ : World Store Kernel}

theorem unlinkRefused (h : Finds path name dp ip off w w₁ w₂) (dotted : Dotted name) :
    run cacheLayer (fsUnlink path) w = run cacheLayer (unlinkErrorOut dp) w₁ := by
  obtain ⟨found,v,parent,rest⟩ := runCut h.parent
  obtain ⟨_,_,lock,last⟩ := runCut rest
  cases last
  simp only [fsUnlink,runBind,parent,lock,followOk,(nameTest name).mpr dotted,if_true]

theorem unlinkAccepted (h : Finds path name dp ip off w w₁ w₂) (plain : ¬ Dotted name) :
    run cacheLayer (fsUnlink path) w = run cacheLayer (unlinkFound dp ip off) w₂ := by
  obtain ⟨found,v,parent,rest⟩ := runCut h.parent
  obtain ⟨_,_,lock,last⟩ := runCut rest
  cases last
  obtain ⟨hit,v',entry,rest⟩ := runCut h.entry
  obtain ⟨_,_,lock',last⟩ := runCut rest
  cases last
  have test := mt (nameTest name).mp plain
  simp only [fsUnlink,unlinkFound,runBind,parent,lock,followOk,test,if_false,entry,lock']

theorem parentLocked (h : Finds path name dp ip off w w₁ w₂) : (w₁.mem.inode dp).busy = true := by
  obtain ⟨found,v,parent,rest⟩ := runCut h.parent
  obtain ⟨_,_,lock,last⟩ := runCut rest
  cases last
  exact (lockOwned lock).busy

theorem refusedCode : Gives (-1) (unlinkErrorOut dp) := givesThen fun _ => givesThen fun _ => givesPure

theorem removedCode : Gives 0 (unlinkEntry dp ip off) := by
  refine givesThen fun _ => givesThen fun _ => givesThen fun x => ?_
  have tail : Gives 0 (do
      inodeUnlock dp
      inodePut dp
      editInode ip (fun x => {x with iNlink := x.iNlink - 1})
      inodeUpdate ip
      inodeUnlock ip
      inodePut ip
      pure 0) :=
    givesThen fun _ => givesThen fun _ => givesThen fun _ => givesThen fun _ => givesThen fun _ => givesThen fun _ => givesPure
  split
  · exact givesThen fun _ => givesThen fun _ => tail
  · exact tail

theorem foundOk {rc u} : run cacheLayer (unlinkFound dp ip off) w = .ok (rc,u) ↔
    0 < (w.mem.inode ip).iNlink.toInt ∧ ∃ empty v, run cacheLayer (removable ip) w = .ok (empty,v) ∧
      run cacheLayer (if !empty then do
        inodeUnlock ip
        inodePut ip
        unlinkErrorOut dp
      else unlinkEntry dp ip off) v = .ok (rc,u) := by
  by_cases linked : 0 < (w.mem.inode ip).iNlink.toInt
  · rw [← runBindOk,and_iff_right linked]
    simp [unlinkFound,getInode,kassert,linked]
  · simp [unlinkFound,getInode,kassert,linked]

theorem foundFile (file : (w.mem.inode ip).iMode ≠ fsImodeDir) {rc u}
    (ok : run cacheLayer (unlinkFound dp ip off) w = .ok (rc,u)) : rc = 0 := by
  obtain ⟨_,empty,v,check,rest⟩ := foundOk.mp ok
  have always : run cacheLayer (removable ip) w = .ok (true,w) := by simp [removable,getInode,file]
  rw [always] at check
  cases check
  exact removedCode w rc u rest

theorem foundDirectory (matched : Matches w.disk t) (legible : Legible t (w.mem.inode ip)) {rc : Int} {u : World Store Kernel} :
    run cacheLayer (unlinkFound dp ip off) w = .ok (rc,u) ↔
      0 < (w.mem.inode ip).iNlink.toInt ∧ (w.mem.inode ip).iSize = 0 ∧ run cacheLayer (unlinkEntry dp ip off) w = .ok (rc,u) := by
  have check : run cacheLayer (removable ip) w = run cacheLayer (isdirempty ip) w := by simp [removable,getInode,legible.mode]
  rw [foundOk,check]
  refine and_congr_right fun _ => ?_
  by_cases none : (w.mem.inode ip).iSize = 0
  · simp [emptyAtOnce none,none]
  · constructor
    · rintro ⟨empty,v,answer,_⟩
      exact absurd answer (emptyNever matched legible none)
    · intro h
      exact absurd h.1 none

theorem directoryExact {t} (h : Finds path name dp ip off w w₁ w₂) (matched : Matches w₂.disk t)
    (legible : Legible t (w₂.mem.inode ip)) :
    (∃ rc u, run cacheLayer (fsUnlink path) w = .ok (rc,u) ∧ (rc = 0 ↔ Empty t.view (w₂.mem.inode ip))) ↔
      if Dotted name then Refuses dp w₁ ∧ ¬ Empty t.view (w₂.mem.inode ip)
      else Removes dp ip off w₂ ∧ (w₂.mem.inode ip).iSize = 0 := by
  split
  · rename_i dotted
    rw [unlinkRefused h dotted]
    constructor
    · rintro ⟨rc,u,ok,right⟩
      cases refusedCode w₁ rc u ok
      exact ⟨⟨u,ok⟩,mt right.mpr (by decide)⟩
    · rintro ⟨⟨u,refused⟩,filled⟩
      exact ⟨-1,u,refused,iff_of_false (by decide) filled⟩
  · rename_i plain
    rw [unlinkAccepted h plain]
    constructor
    · rintro ⟨rc,u,ok,_⟩
      obtain ⟨linked,none,removed⟩ := (foundDirectory matched legible).mp ok
      cases removedCode w₂ rc u removed
      exact ⟨⟨linked,u,removed⟩,none⟩
    · rintro ⟨⟨linked,u,removed⟩,none⟩
      exact ⟨0,u,(foundDirectory matched legible).mpr ⟨linked,none,removed⟩,iff_of_true rfl (sizeZeroEmpty none)⟩

theorem onlyEmpty {t u} (h : Finds path name dp ip off w w₁ w₂) (matched : Matches w₂.disk t)
    (legible : Legible t (w₂.mem.inode ip)) (ok : run cacheLayer (fsUnlink path) w = .ok (0,u)) :
    Empty t.view (w₂.mem.inode ip) := by
  by_cases dotted : Dotted name
  · rw [unlinkRefused h dotted] at ok
    exact absurd (refusedCode w₁ 0 u ok) (by decide)
  · rw [unlinkAccepted h dotted] at ok
    exact sizeZeroEmpty ((foundDirectory matched legible).mp ok).2.1

theorem fileExact (h : Finds path name dp ip off w w₁ w₂) (file : (w₂.mem.inode ip).iMode ≠ fsImodeDir) :
    ((∃ u, run cacheLayer (fsUnlink path) w = .ok (-1,u)) ↔ Dots name) ↔ (Dotted name → (Refuses dp w₁ ↔ Dots name)) := by
  by_cases dotted : Dotted name
  · rw [unlinkRefused h dotted]
    exact ⟨fun right _ => right,fun right => right dotted⟩
  · have passes : ¬ ∃ u, run cacheLayer (fsUnlink path) w = .ok (-1,u) := by
      rintro ⟨u,ok⟩
      rw [unlinkAccepted h dotted] at ok
      exact absurd (foundFile file ok) (by decide)
    have other : ¬ Dots name := fun dots => dotted (dotsDotted dots)
    exact iff_of_true (iff_of_false passes other) fun yes => absurd yes dotted

end Unlink

theorem unlinkExact (path name : List UInt8) (dp ip off : Nat) (w w₁ w₂ : World Store Kernel) (t : Disk) :
    (Matches w.disk t → Legible t (w.mem.inode dp) →
      ((∃ u, run cacheLayer (isdirempty dp) w = .ok (decide (Empty t.view (w.mem.inode dp)),u)) ↔ (w.mem.inode dp).iSize = 0)) ∧
    (Finds path name dp ip off w w₁ w₂ →
      (¬ Dots name → Matches w₂.disk t → Legible t (w₂.mem.inode ip) →
        ((∃ rc u, run cacheLayer (fsUnlink path) w = .ok (rc,u) ∧ (rc = 0 ↔ Empty t.view (w₂.mem.inode ip))) ↔
          if Dotted name then Refuses dp w₁ ∧ ¬ Empty t.view (w₂.mem.inode ip)
          else Removes dp ip off w₂ ∧ (w₂.mem.inode ip).iSize = 0) ∧
        ∀ u, run cacheLayer (fsUnlink path) w = .ok (0,u) → Empty t.view (w₂.mem.inode ip)) ∧
      ((w₂.mem.inode ip).iMode ≠ fsImodeDir →
        (((∃ u, run cacheLayer (fsUnlink path) w = .ok (-1,u)) ↔ Dots name) ↔ (Dotted name → (Refuses dp w₁ ↔ Dots name)))) ∧
      (Linked (w₁.mem.inode dp) → Refuses dp w₁) ∧
      (Matches w₂.disk t → Removable dp ip off t w₂.mem → run cacheLayer (unlinkEntry dp ip off) w₂ = .error .noBuffers ∨
        Removes dp ip off w₂)) :=
  ⟨emptinessExact,fun h =>
    ⟨fun _ matched legible => ⟨directoryExact h matched legible,fun _ => onlyEmpty h matched legible⟩,fileExact h,
      refusesWhen (parentLocked h),removesWhen⟩⟩

theorem plainNameRemoved : ∃ w w₁ w₂, run cacheLayer (fsOpen fileA oCreate) smallWorld = .ok (0,w) ∧
    Finds fileA [97] 0 1 (3*direntSize) w w₁ w₂ ∧ ¬ ∃ u, run cacheLayer (fsUnlink fileA) w = .ok (-1,u) := by
  have seen : smallView (fsOpen fileA oCreate >>= fun _ =>
      (inodeNameiparent fileA >>= fun found => inodeLock 0 >>= fun _ => pure found) >>= fun found =>
      (inodeDirlookup 0 [97] >>= fun hit => inodeLock 1 >>= fun _ => pure hit) >>= fun hit => pure (found,hit))
      (fun _ k => (k.inode 1).iMode) = some ((some (0,[97]),some (1,3*direntSize)),fsImodeFile) := by decide +kernel
  obtain ⟨w₂,all,mode⟩ := smallSeen seen
  obtain ⟨w,opened,_⟩ := smallSeen smallCreated
  obtain ⟨_,_,again,rest⟩ := runCut all
  rw [opened] at again
  cases again
  obtain ⟨_,w₁,parent,rest⟩ := runCut rest
  obtain ⟨_,_,entry,last⟩ := runCut rest
  cases last
  have finds : Finds fileA [97] 0 1 (3*direntSize) w w₁ w₂ := ⟨parent,entry⟩
  have file : (w₂.mem.inode 1).iMode ≠ fsImodeDir := by
    rw [mode]
    decide
  have found := (unlinkExact fileA [97] 0 1 (3*direntSize) w w₁ w₂ (flat smallImage 64)).2 finds
  have right := (found.2.1 file).mpr fun dotted => absurd dotted (by decide)
  exact ⟨w,w₁,w₂,opened,finds,mt right.mp (by decide)⟩

def con : List UInt8 := [47,67,79,78]

def conInode : DInode := ⟨fsImodeDir,devRoot,0,1,BitVec.ofNat 64 (2*direntSize),fun i => if i.val = 0 then 11 else 0⟩

def conImage (b : Nat) : Block :=
  if b = 3 then patch (smallImage 3) 0 [3]
  else if b = 5 then setDInode (smallImage 5) 0 conInode
  else if b = 11 then patch (fun _ => 0) 0 (direntBytes 3 dot ++ direntBytes 2 dotDot)
  else smallImage b

def conWorld : World Store Kernel := ⟨boot conImage 64,bootKernel [] []⟩

def hidden : List UInt8 := [47,46,112]

theorem emptyMisjudged :
    ((stored conImage 3).iMode = fsImodeDir ∧ entryCount (stored conImage 3) = 2 ∧ Empty conImage (stored conImage 3)) ∧
    (∃ w, run cacheLayer (inodeGet devRoot 3 >>= fun ip => inodeLock ip >>= fun _ => pure ip) conWorld = .ok (0,w) ∧
      fault (run cacheLayer (isdirempty 0) w) = some .assertion) ∧
    fault (run cacheLayer (fsUnlink con) conWorld) = some .assertion ∧
    ∃ w w', run cacheLayer (fsOpen hidden oCreate) smallWorld = .ok (0,w) ∧ (w.mem.inode 1).iMode = fsImodeFile ∧
      run cacheLayer (fsUnlink hidden) w = .ok (-1,w') := by
  refine ⟨by decide +kernel,?_,?_,?_⟩
  · have locked : result (run cacheLayer (inodeGet devRoot 3 >>= fun ip => inodeLock ip >>= fun _ => pure ip) conWorld) = some 0 := by
      rw [conWorld,(smallRun (by decide) _ _).1]
      decide +kernel
    have stops : fault (run cacheLayer ((inodeGet devRoot 3 >>= fun ip => inodeLock ip >>= fun _ => pure ip) >>= fun _ => isdirempty 0)
        conWorld) = some .assertion := by
      rw [conWorld,(smallRun (by decide) _ _).2]
      decide +kernel
    obtain ⟨w,ok⟩ := resultOk locked
    rw [runBind,ok,followOk] at stops
    exact ⟨w,ok,stops⟩
  · rw [conWorld,(smallRun (by decide) _ _).2]
    decide +kernel
  · have created : smallView (fsOpen hidden oCreate) (fun _ k => (k.inode 1).iMode) = some (0,fsImodeFile) := by decide +kernel
    have refused : smallView (fsOpen hidden oCreate >>= fun _ => fsUnlink hidden) (fun _ _ => ()) = some (-1,()) := by decide +kernel
    obtain ⟨w,opened,mode⟩ := smallSeen created
    obtain ⟨w',both,_⟩ := smallSeen refused
    obtain ⟨_,_,again,unlinked⟩ := runCut both
    rw [opened] at again
    cases again
    exact ⟨w,w',opened,mode,unlinked⟩

end TskSw.Unlinking
