import TskSw.References
import TskSw.Ownership
import TskSw.Paths
import TskSw.FsTree
import TskSw.FreshImage

/-! What resolving a path leaves behind: one reference to the inode it returns, and no
lock. The walk holds two inodes at a time, which are the same one when a component is `.`. -/
namespace TskSw.PathReferences
open Bytes BlockProgram Interference BlkIo BlkFlat FsLayout FsKernel DataBitmap DataBlocks Inodes CString Directory FsCalls Ownership References Paths
open FsTree hiding names
open DirectoryMap (searchSome)
open Mkfs (consIno consInode rootDirents)
open MkfsImage (Made zeros formatted root superRead madeStored madeRoot rootLegible rootEntries fitsMade)
open FreshImage (rootNumber)

def FlagKept (k m : Kernel) (i : Nat) : Prop :=
  (m.inode i).busy = (k.inode i).busy ∨ (k.inode i).ref ≤ 0 ∧ (m.inode i).busy = false

section Flags
variable {σ : Type} {L : Layer σ Nat Block Fault} {s t : World σ Kernel} {ip : Nat} {a : Unit}

theorem editRun {g} (ok : run L (editInode ip g) s = .ok (a,t)) : t.mem = s.mem.withInode ip (g (s.mem.inode ip)) := by
  cases ok
  rfl

theorem busyWith {k : Kernel} {x : Inode} (i : Nat) : ((k.withInode ip x).inode i).busy = if i = ip then x.busy else (k.inode i).busy := by
  by_cases here : i = ip
  · rw [if_pos here,here]
    exact congrArg Inode.busy (Function.update_self ..)
  · rw [if_neg here]
    exact congrArg Inode.busy (Function.update_of_ne here ..)

theorem lockFlags (ok : run L (inodeLock ip) s = .ok (a,t)) :
    0 < (s.mem.inode ip).ref ∧ (s.mem.inode ip).busy = false ∧ ∀ i, (t.mem.inode i).busy = if i = ip then true else (s.mem.inode i).busy := by
  obtain ⟨used,free,rest,_⟩ := lockRan ok
  refine ⟨used,free,fun i => ?_⟩
  rw [rest.busy,busyWith]

theorem unlockFlags (ok : run L (inodeUnlock ip) s = .ok (a,t)) (i : Nat) :
    (t.mem.inode i).busy = if i = ip then false else (s.mem.inode i).busy := by
  obtain ⟨x,u,look,ok⟩ := runCut ok
  cases look
  obtain ⟨_,u,assertion,ok⟩ := runCut ok
  rw [(runKassertOk assertion).2] at ok
  rw [editRun ok,busyWith]

theorem putFlags (ok : run L (inodePut ip) s = .ok (a,t)) (i : Nat) : (t.mem.inode i).busy = (s.mem.inode i).busy := by
  obtain ⟨x,u,look,ok⟩ := runCut ok
  cases look
  split at ok
  · obtain ⟨_,u,assertion,ok⟩ := runCut ok
    obtain ⟨free,same⟩ := runKassertOk assertion
    rw [same] at ok
    obtain ⟨_,u,set,ok⟩ := runCut ok
    obtain ⟨_,v,truncate,ok⟩ := runCut ok
    obtain ⟨_,w,update,ok⟩ := runCut ok
    obtain ⟨_,y,clear,ok⟩ := runCut ok
    have between : (w.mem.inode i).busy = (u.mem.inode i).busy :=
      ((quietRun quietUpdate update).busy i).trans ((quietRun quietTruncate truncate).busy i)
    rw [editRun ok,busyWith,editRun clear,busyWith,busyWith,between,editRun set,busyWith]
    split
    · rename_i here
      rw [here,free,if_pos rfl]
    · rfl
  · rw [editRun ok,busyWith]
    split
    · rename_i here
      rw [here]
    · rfl

theorem getFlags {dev inum} (ok : run L (inodeGet dev inum) s = .ok (ip,t)) (i : Nat) : FlagKept s.mem t.mem i := by
  obtain ⟨k,u,look,ok⟩ := runCut ok
  cases look
  split at ok
  · rename_i j found
    obtain ⟨_,u,edit,ok⟩ := runCut ok
    cases ok
    left
    rw [editRun edit,busyWith]
    split
    · rename_i here
      rw [here]
    · rfl
  split at ok
  · cases ok
  · rename_i j empty
    obtain ⟨_,u,edit,ok⟩ := runCut ok
    cases ok
    rw [FlagKept,editRun edit,busyWith]
    split
    · rename_i here
      right
      rw [here,(emptyFound empty).2]
      exact ⟨le_rfl,rfl⟩
    · exact Or.inl rfl

theorem dirlookupFlags {name found} (ok : run L (inodeDirlookup ip name) s = .ok (found,t)) (i : Nat) :
    FlagKept s.mem t.mem i := by
  obtain ⟨x,u,look,ok⟩ := runCut ok
  cases look
  obtain ⟨_,u,assertion,ok⟩ := runCut ok
  obtain ⟨_,rfl⟩ := runKassertOk assertion
  obtain ⟨r,u,scan,ok⟩ := runCut ok
  have same := quietRun quietLookupLoop scan
  cases r with
  | none =>
    cases ok
    exact Or.inl (same.busy i)
  | some r =>
    obtain ⟨y,v,again,ok⟩ := runCut ok
    cases again
    obtain ⟨j,v,get,ok⟩ := runCut ok
    cases ok
    have kept := getFlags get i
    rw [FlagKept,same.busy,same.ref] at kept
    exact kept

theorem flagTrans {k l m i} (first : FlagKept k l i) (second : FlagKept l m i)
    (more : (k.inode i).busy = true → (k.inode i).ref ≤ (l.inode i).ref) : FlagKept k m i := by
  rcases second with same | ⟨free,clear⟩
  · rcases first with before | ⟨unused,clear⟩
    · exact Or.inl (same.trans before)
    · exact Or.inr ⟨unused,same.trans clear⟩
  · cases busy : (k.inode i).busy with
    | false => exact Or.inl (clear.trans busy.symm)
    | true => exact Or.inr ⟨(more busy).trans free,clear⟩

theorem lockedFlags {u v w : World σ Kernel} {b : Unit} {i : Nat} (lock : run L (inodeLock ip) s = .ok (a,u)) (kept : FlagKept u.mem v.mem i)
    (unlock : run L (inodeUnlock ip) v = .ok (b,w)) : FlagKept s.mem w.mem i := by
  obtain ⟨_,free,locked⟩ := lockFlags lock
  have after := unlockFlags unlock i
  by_cases here : i = ip
  · rw [if_pos here] at after
    left
    rw [after,here,free]
  · have same := locked i
    have refs := (silentLock _ _ _ lock).refs i
    rw [if_neg here] at same after
    rw [FlagKept,same] at kept
    rw [FlagKept,after]
    simpa [refs] using kept

theorem givenBackFlags {u v w y b c i} (lock : run L (inodeLock ip) s = .ok (a,u))
    (kept : FlagKept u.mem v.mem i) (unlock : run L (inodeUnlock ip) v = .ok (b,w)) (put : run L (inodePut ip) w = .ok (c,y)) :
    FlagKept s.mem y.mem i := by
  have kept := lockedFlags lock kept unlock
  rwa [FlagKept,← putFlags put i] at kept

theorem oneMore (j i : Nat) : (0 : Int) ≤ (Pi.single j 1 : Nat → Int) i := by
  rw [Pi.single_apply]
  split
  · exact zero_le_one
  · exact le_rfl

theorem walkFlags {parent room names found}
    (ok : run L (walk parent room ip names) s = .ok (found,t)) (i : Nat) : FlagKept s.mem t.mem i := by
  induction names generalizing ip s with
  | nil =>
    unfold walk at ok
    split at ok
    · obtain ⟨_,u,put,ok⟩ := runCut ok
      cases ok
      exact Or.inl (putFlags put i)
    · cases ok
      exact Or.inl rfl
  | cons name rest ih =>
    unfold walk at ok
    split at ok
    · cases ok
    obtain ⟨_,u,lock,ok⟩ := runCut ok
    obtain ⟨x,_,look,ok⟩ := runCut ok
    cases look
    split at ok
    · obtain ⟨_,v,unlock,ok⟩ := runCut ok
      obtain ⟨_,w,put,ok⟩ := runCut ok
      cases ok
      exact givenBackFlags lock (Or.inl rfl) unlock put
    split at ok
    · obtain ⟨_,v,unlock,ok⟩ := runCut ok
      cases ok
      exact lockedFlags lock (Or.inl rfl) unlock
    obtain ⟨hit,v,lookup,ok⟩ := runCut ok
    have looked := dirlookupFlags lookup i
    cases hit with
    | none =>
      obtain ⟨_,w,unlock,ok⟩ := runCut ok
      obtain ⟨_,y,put,ok⟩ := runCut ok
      cases ok
      exact givenBackFlags lock looked unlock put
    | some hit =>
      obtain ⟨_,w,unlock,ok⟩ := runCut ok
      obtain ⟨_,y,put,ok⟩ := runCut ok
      refine flagTrans (givenBackFlags lock looked unlock put) (ih ok) fun busy => ?_
      have other : i ≠ ip := by
        rintro rfl
        rw [(lockFlags lock).2.1] at busy
        cases busy
      have refs := movesTrans (movesTrans (silentLock _ _ _ lock) (shiftsDirlookup _ _ _ lookup))
        (movesTrans (silentUnlock _ _ _ unlock) (shiftsPut _ _ _ put))
      rw [refs.refs i]
      simpa [Pi.single_eq_of_ne other] using oneMore hit.1 i

theorem pathFlags {path parent room found}
    (ok : run L (inodePath2inode path parent room) s = .ok (found,t)) (i : Nat) : FlagKept s.mem t.mem i := by
  obtain ⟨_,u,assertion,ok⟩ := runCut ok
  rw [(runKassertOk assertion).2] at ok
  obtain ⟨root,v,get,ok⟩ := runCut ok
  refine flagTrans (getFlags get i) (walkFlags ok i) fun _ => ?_
  rw [(shiftsInodeGet _ _ _ get).refs i]
  exact le_add_of_nonneg_right (oneMore root i)

end Flags

structure Untouched (k m : Kernel) (found : Option Nat) : Prop where
  refs : ∀ i, (m.inode i).ref = (k.inode i).ref + gain found i
  cached : ∀ i, 0 < (k.inode i).ref → (m.inode i).busy = (k.inode i).busy
  flags : (∀ i, (k.inode i).ref ≤ 0 → (k.inode i).busy = false) → ∀ i, (m.inode i).busy = (k.inode i).busy

theorem untouched {k m found} (refs : ∀ i, (m.inode i).ref = (k.inode i).ref + gain found i)
    (kept : ∀ i, FlagKept k m i) : Untouched k m found := by
  refine ⟨refs,fun i used => ?_,fun clean i => ?_⟩
  · exact (kept i).resolve_right fun free => absurd used (not_lt.mpr free.1)
  · rcases kept i with same | ⟨free,clear⟩
    · exact same
    · rw [clear,clean i free]

structure Tree (t : Disk) (nodes : BitVec 32 → Prop) : Prop where
  super : Idle t superBlockBlkNo
  root : nodes rootIno
  block : ∀ n, nodes n → Idle t (inodeBlock (superOf t.view) n)
  linked : ∀ n, nodes n → (stored t.view n).iNlink ≠ 0
  legible : ∀ n, nodes n → (stored t.view n).iMode = fsImodeDir → Legible t (stored t.view n)
  closed : ∀ n, nodes n → (stored t.view n).iMode = fsImodeDir → ∀ i < entryCount (stored t.view n),
    (entryAt t.view (stored t.view n) i).dIno ≠ 0 → nodes (entryAt t.view (stored t.view n) i).dIno

structure Settled (t : Disk) (x : Inode) : Prop where
  idle : x.busy = false
  device : x.iDev = devRoot
  same : x.valid = true → content x = stored t.view x.inum

section Slots
variable {t : Disk} {k : Kernel} {ip : Nat} {x : Inode}

theorem settledLock (h : Settled t x) : (locked t.view x).busy = true ∧ content (locked t.view x) = stored t.view x.inum := by
  unfold locked
  split
  · rename_i valid
    exact ⟨rfl,h.same valid⟩
  · obtain ⟨inum,ref,busy,valid,mode,dev,rdev,nlink,size,addr⟩ := x
    obtain rfl : dev = devRoot := h.device
    exact ⟨rfl,rfl⟩

theorem settledAgain {n} (same : content x = stored t.view n) (ref : Int) : Settled t {x with busy := false, ref := ref} := by
  have number : x.inum = n := congrArg Inode.inum same
  have device : x.iDev = devRoot := congrArg Inode.iDev same
  exact ⟨rfl,device,fun _ => same.trans (by rw [number])⟩

section Gotten
variable {inum : BitVec 32} {y : Inode} (gotten : Gotten k devRoot inum ip y)
include gotten

theorem gottenUsed : 0 < y.ref := by
  rw [gotten.ref]
  rcases gotten.origin with ⟨some,_⟩ | ⟨zero,_⟩
  · exact Int.lt_add_one_of_le some.le
  · rw [zero]
    exact one_pos

theorem settledGotten (before : 0 < (k.inode ip).ref → Settled t (k.inode ip)) : Settled t y := by
  obtain ⟨some,rfl⟩ | ⟨_,flag,valid,_⟩ := gotten.origin
  · have slot := before some
    exact ⟨slot.idle,slot.device,slot.same⟩
  · exact ⟨flag,gotten.device,fun filled => absurd (valid.symm.trans filled) Bool.false_ne_true⟩

end Gotten

theorem runGetInode : run diskLayer (getInode ip) ⟨t,k⟩ = .ok (k.inode ip,⟨t,k⟩) := rfl

theorem runUnlock (busy : (k.inode ip).busy = true) :
    run diskLayer (inodeUnlock ip) ⟨t,k⟩ = .ok ((),⟨t,k.withInode ip {k.inode ip with busy := false}⟩) := by
  simp [inodeUnlock,getInode,editInode,kassert,busy]

end Slots

structure Ready (t : Disk) (nodes : BitVec 32 → Prop) (count : Nat → Int) (k : Kernel) (ip : Nat) : Prop where
  inside : ip < ninode
  refs : ∀ i, (k.inode i).ref = count i + (Pi.single ip 1 : Nat → Int) i
  used : 0 < (k.inode ip).ref
  node : nodes (k.inode ip).inum
  slots : ∀ i < ninode, 0 < (k.inode i).ref → Settled t (k.inode i)

section Walk
variable {t : Disk} {nodes : BitVec 32 → Prop} {count : Nat → Int} {k : Kernel} {ip : Nat}

theorem readyKeep (tree : Tree t nodes) (h : Ready t nodes count k ip) :
    ¬ ((k.inode ip).ref = 1 ∧ (k.inode ip).valid = true ∧ (k.inode ip).iNlink = 0) := by
  rintro ⟨_,valid,none⟩
  have same := (h.slots ip h.inside h.used).same valid
  exact tree.linked _ h.node ((congrArg Inode.iNlink same).symm.trans none)

theorem readyLock (tree : Tree t nodes) (h : Ready t nodes count k ip) :
    run diskLayer (inodeLock ip) ⟨t,k⟩ = .ok ((),⟨t,k.withInode ip (locked t.view (k.inode ip))⟩) := by
  have slot := h.slots ip h.inside h.used
  exact runInodeLock tree.super (tree.block _ h.node) h.used slot.idle (by rw [slot.device]; exact devRootNat)

theorem lockedRefs (i : Nat) : ((k.withInode ip (locked t.view (k.inode ip))).inode i).ref = (k.inode i).ref := by
  by_cases here : i = ip
  · rw [here,show (k.withInode ip (locked t.view (k.inode ip))).inode ip = _ from Function.update_self ..,(lockedKeeps _ _).1]
  · exact congrArg Inode.ref (Function.update_of_ne here ..)

theorem gottenHere (h : Ready t nodes count k ip) {dev inum next y}
    (found : slotFor (k.withInode ip (locked t.view (k.inode ip))) dev inum = some (next,y)) :
    let z := ((k.withInode ip (locked t.view (k.inode ip))).withInode next y).inode ip
    z.busy = true ∧ content z = stored t.view (k.inode ip).inum ∧ z.ref = (k.inode ip).ref + (Pi.single next 1 : Nat → Int) ip := by
  obtain ⟨busy,same⟩ := settledLock (h.slots ip h.inside h.used)
  have here : (k.withInode ip (locked t.view (k.inode ip))).inode ip = locked t.view (k.inode ip) := Function.update_self ..
  by_cases at_ : ip = next
  · subst at_
    obtain ⟨_,rfl⟩ | ⟨zero,_⟩ := (slotForGotten found).origin
    · rw [here]
      simp only [Kernel.withInode,Function.update_self,Pi.single_eq_same,(lockedKeeps _ _).1]
      exact ⟨busy,same,trivial⟩
    · rw [lockedRefs] at zero
      exact absurd h.used (by rw [zero]; exact lt_irrefl 0)
  · dsimp only
    rw [show (Kernel.withInode _ next y).inode ip = _ from Function.update_of_ne at_ ..,here,Pi.single_eq_of_ne at_,add_zero,(lockedKeeps _ _).1]
    exact ⟨busy,same,rfl⟩

theorem readyNext (tree : Tree t nodes) (h : Ready t nodes count k ip) {free} (small : free < ninode) (unused : count free = 0) (apart : free ≠ ip)
    {inum} (node : nodes inum) : ∃ next m,
      run diskLayer (inodeGet devRoot inum) ⟨t,k.withInode ip (locked t.view (k.inode ip))⟩ = .ok (next,⟨t,m⟩) ∧
      (m.inode ip).busy = true ∧ (m.inode ip).iNlink ≠ 0 ∧
      Ready t nodes count (m.withInode ip {m.inode ip with busy := false, ref := (m.inode ip).ref - 1}) next := by
  set k' := k.withInode ip (locked t.view (k.inode ip)) with start
  have there : ∀ i, i ≠ ip → k'.inode i = k.inode i := fun i other => Function.update_of_ne other ..
  have refs : ∀ i, (k'.inode i).ref = (k.inode i).ref := lockedRefs
  have none : (k'.inode free).ref = 0 := by rw [refs,h.refs,unused,Pi.single_eq_of_ne apart,add_zero]
  obtain ⟨next,y,found⟩ := slotForSome small none devRoot inum
  have gotten := slotForGotten found
  have others : ∀ i, i ≠ next → (k'.withInode next y).inode i = k'.inode i := fun i other => Function.update_of_ne other ..
  have held := gottenHere h found
  refine ⟨next,k'.withInode next y,runInodeGet found,held.1,?_,?_⟩
  · exact fun zero => tree.linked _ h.node ((congrArg Inode.iNlink held.2.1).symm.trans zero)
  have atNext : (k'.withInode next y).inode next = y := Function.update_self ..
  generalize k'.withInode next y = m at held atNext others
  set z := m.inode ip
  have self : (m.withInode ip {z with busy := false, ref := z.ref - 1}).inode ip = {z with busy := false, ref := z.ref - 1} := Function.update_self ..
  have rest : ∀ i, i ≠ ip → (m.withInode ip {z with busy := false, ref := z.ref - 1}).inode i = m.inode i :=
    fun i other => Function.update_of_ne other ..
  refine ⟨gotten.inside,fun i => ?_,?_,?_,fun i inside used => ?_⟩
  · by_cases at_ : i = ip
    · rw [at_,self,held.2.2,h.refs,Pi.single_eq_same]
      ring
    · rw [rest i at_]
      by_cases new : i = next
      · rw [new,atNext,gotten.ref,refs,h.refs,Pi.single_eq_same,Pi.single_eq_of_ne (new ▸ at_),add_zero]
      · rw [others i new,there i at_,h.refs,Pi.single_eq_of_ne at_,Pi.single_eq_of_ne new]
  · by_cases at_ : next = ip
    · rw [at_,self,held.2.2,at_,Pi.single_eq_same]
      simpa using h.used
    · rw [rest next at_,atNext]
      exact gottenUsed gotten
  · by_cases at_ : next = ip
    · rw [at_,self,show z.inum = inum by rw [← gotten.number,← atNext,at_]]
      exact node
    · rw [rest next at_,atNext,gotten.number]
      exact node
  · by_cases at_ : i = ip
    · rw [at_,self]
      exact settledAgain held.2.1 _
    · rw [rest i at_] at used ⊢
      by_cases new : i = next
      · rw [new] at at_
        rw [new,atNext]
        exact settledGotten gotten fun some => by
          rw [there next at_] at some ⊢
          exact h.slots next gotten.inside some
      · rw [others i new,there i at_] at used ⊢
        exact h.slots i inside used

theorem lockedListing {x} (same : content (locked t.view x) = stored t.view x.inum) :
    entryCount (locked t.view x) = entryCount (stored t.view x.inum) ∧
    ∀ i, entryAt t.view (locked t.view x) i = entryAt t.view (stored t.view x.inum) i := by
  rw [← same]
  exact ⟨rfl,fun _ => rfl⟩

theorem freeBeside {a b : Nat} (small : a < ninode ∧ b < ninode) (apart : a ≠ b) (unused : count a = 0 ∧ count b = 0) (ip : Nat) :
    ∃ free < ninode, count free = 0 ∧ free ≠ ip := by
  by_cases first : a = ip
  · exact ⟨b,small.2,unused.2,fun second => apart (first.trans second.symm)⟩
  · exact ⟨a,small.1,unused.1,first⟩

theorem walkReturns (tree : Tree t nodes) {a b : Nat} (small : a < ninode ∧ b < ninode) (apart : a ≠ b) (unused : count a = 0 ∧ count b = 0)
    {parent : Bool} {room : Nat} {list : List (List UInt8)} (fits : ∀ name ∈ list, name.length < room) (h : Ready t nodes count k ip) :
    ∃ found m, run diskLayer (walk parent room ip list) ⟨t,k⟩ = .ok (found,⟨t,m⟩) := by
  induction list generalizing k ip with
  | nil =>
    unfold walk
    split
    · exact ⟨_,_,by rw [runBind,runPutKeep (readyKeep tree h),followOk]; rfl⟩
    · exact ⟨_,_,rfl⟩
  | cons name rest ih =>
    have slot := h.slots ip h.inside h.used
    obtain ⟨busy,same⟩ := settledLock slot
    have here : (k.withInode ip (locked t.view (k.inode ip))).inode ip = locked t.view (k.inode ip) := Function.update_self ..
    have linked : (locked t.view (k.inode ip)).iNlink ≠ 0 := fun zero => tree.linked _ h.node ((congrArg Inode.iNlink same).symm.trans zero)
    rw [← here] at busy linked
    unfold walk
    rw [if_neg (Nat.not_le.mpr (fits name List.mem_cons_self)),runBind,readyLock tree h,followOk,runBind,runGetInode,followOk]
    split
    · rw [runGiveBack busy fun last => linked last.2.2]
      exact ⟨_,_,rfl⟩
    rename_i mode
    split
    · exact ⟨_,_,by rw [runBind,runUnlock busy,followOk]; rfl⟩
    have dir : (stored t.view (k.inode ip).inum).iMode = fsImodeDir := by
      rw [← same]
      rw [here] at mode
      exact not_not.mp mode
    have legible : Legible t (content (locked t.view (k.inode ip))) := by
      rw [same]
      exact tree.legible _ h.node dir
    have legible : Legible t (locked t.view (k.inode ip)) := legibleSame legible rfl rfl rfl rfl
    rw [← here] at legible
    rw [runBind,runDirlookup legible]
    cases found : search t.view ((k.withInode ip (locked t.view (k.inode ip))).inode ip) (hit name) with
    | none =>
      dsimp only
      rw [followOk,runGiveBack busy fun last => linked last.2.2]
      exact ⟨_,_,rfl⟩
    | some j =>
      dsimp only
      obtain ⟨inside,hits,_⟩ := searchSome.mp found
      obtain ⟨amount,entries⟩ := lockedListing same
      rw [here,entries] at hits ⊢
      rw [here,amount] at inside
      have node := tree.closed _ h.node dir j inside (of_decide_eq_true hits).1
      obtain ⟨free,below,none,other⟩ := freeBeside small apart unused ip
      obtain ⟨next,m,get,flag,links,ready⟩ := readyNext tree h below none other node
      rw [get,followOk,followOk,runGiveBack flag fun last => links last.2.2]
      exact ih (fun name member => fits name (List.mem_cons_of_mem _ member)) ready

theorem readyStart (tree : Tree t nodes) (slots : ∀ i < ninode, 0 < (k.inode i).ref → Settled t (k.inode i)) {free} (small : free < ninode)
    (unused : (k.inode free).ref = 0) : ∃ ip m, run diskLayer (inodeGet devRoot rootIno) ⟨t,k⟩ = .ok (ip,⟨t,m⟩) ∧
      Ready t nodes (fun i => (k.inode i).ref) m ip := by
  obtain ⟨ip,y,found⟩ := slotForSome small unused devRoot rootIno
  have gotten := slotForGotten found
  have here : (k.withInode ip y).inode ip = y := Function.update_self ..
  have there : ∀ i, i ≠ ip → (k.withInode ip y).inode i = k.inode i := fun i other => Function.update_of_ne other ..
  refine ⟨ip,k.withInode ip y,runInodeGet found,gotten.inside,fun i => ?_,?_,?_,fun i inside used => ?_⟩
  · by_cases at_ : i = ip
    · rw [at_,here,gotten.ref,Pi.single_eq_same]
    · rw [there i at_,Pi.single_eq_of_ne at_,add_zero]
  · rw [here]
    exact gottenUsed gotten
  · rw [here,gotten.number]
    exact tree.root
  · by_cases at_ : i = ip
    · rw [at_,here]
      exact settledGotten gotten (slots ip gotten.inside)
    · rw [there i at_] at used ⊢
      exact slots i inside used

theorem pathReturns (tree : Tree t nodes) (slots : ∀ i < ninode, 0 < (k.inode i).ref → Settled t (k.inode i)) {a b}
    (small : a < ninode ∧ b < ninode) (apart : a ≠ b) (unused : (k.inode a).ref = 0 ∧ (k.inode b).ref = 0) {path}
    (absolute : (cstr path).head? = some slash) (parent : Bool) {room} (fits : ∀ name ∈ names (cstr path), name.length < room) :
    ∃ found m, run diskLayer (inodePath2inode path parent room) ⟨t,k⟩ = .ok (found,⟨t,m⟩) := by
  obtain ⟨ip,m,get,ready⟩ := readyStart tree slots small.1 unused.1
  rw [path2inodeWalk absolute,runBind,getRoot,get,followOk]
  exact walkReturns tree small apart unused fits ready

end Walk

theorem resolutionNeutral (path : List UInt8) :
    (∀ {σ : Type} (L : Layer σ Nat Block Fault) (s t : World σ Kernel) (found : Option Nat),
      run L (inodeNamei path) s = .ok (found,t) → Untouched s.mem t.mem found) ∧
    (∀ {σ : Type} (L : Layer σ Nat Block Fault) (s t : World σ Kernel) (room : Nat) (found : Option (Nat × List UInt8)),
      run L (inodePath2inode path true room) s = .ok (found,t) → Untouched s.mem t.mem (found.map Prod.fst)) ∧
    ∀ (t : Disk) (nodes : BitVec 32 → Prop) (k : Kernel) (a b : Nat), (cstr path).head? = some slash → Tree t nodes →
      (∀ i < ninode, 0 < (k.inode i).ref → Settled t (k.inode i)) →
      a < ninode ∧ b < ninode → a ≠ b → (k.inode a).ref = 0 ∧ (k.inode b).ref = 0 →
      (∃ found m, run diskLayer (inodeNamei path) ⟨t,k⟩ = .ok (found,⟨t,m⟩)) ∧
      ∀ room, (∀ name ∈ names (cstr path), name.length < room) →
        ∃ found m, run diskLayer (inodePath2inode path true room) ⟨t,k⟩ = .ok (found,⟨t,m⟩) := by
  refine ⟨fun L s t found ok => ?_,fun L s t room found ok => ?_,fun t nodes k a b absolute tree slots small apart unused =>
    ⟨?_,fun room fits => ?_⟩⟩
  · refine untouched (shiftsNamei _ _ _ ok).refs fun i => ?_
    obtain ⟨r,u,walked,ok⟩ := runCut ok
    cases r with
    | none =>
      cases ok
      exact pathFlags walked i
    | some r =>
      cases ok
      exact pathFlags walked i
  · exact untouched (shiftsPath _ _ _ ok).refs (pathFlags ok)
  · obtain ⟨found,m,ran⟩ := pathReturns tree slots small apart unused absolute false (namesShort (cstr path))
    refine ⟨found.map Prod.fst,m,?_⟩
    rw [inodeNamei,runBind,ran,followOk]
    cases found with
    | none => rfl
    | some r => rfl
  · exact pathReturns tree slots small apart unused absolute true fits

section Image
variable {size : Nat} {sb : Superblock} (h : Made size sb)
include h

theorem madeTree : Tree (flat (formatted sb) size) (fun n => n = rootIno ∨ n = BitVec.ofNat 32 consIno) := by
  have super : superOf (flat (formatted sb) size).view = sb := superRead sb
  have tables : Tables sb (flat (formatted sb) size) := ⟨h.layout,super,fun _ _ _ => rfl⟩
  have files := h.files
  have small : ∀ n : BitVec 32, n = rootIno ∨ n = BitVec.ofNat 32 consIno → n.toNat < sb.sNinodes.toNat := by
    rintro n (rfl | rfl)
    · exact Nat.lt_of_lt_of_le (by decide) files
    · exact Nat.lt_of_lt_of_le (by decide) files
  have console : stored (formatted sb) (BitVec.ofNat 32 consIno) =
    ({emptyInode with inum := BitVec.ofNat 32 consIno, iDev := devRoot}).load consInode := by
    rw [madeStored h (small _ (Or.inr rfl)),if_neg (by decide),if_pos (by decide)]
  have rooted : stored (formatted sb) rootIno = root sb := madeRoot h
  have other : (stored (formatted sb) (BitVec.ofNat 32 consIno)).iMode ≠ fsImodeDir := by
    rw [console]
    exact (by decide : fsImodeDev ≠ fsImodeDir)
  have entries : ∀ i < 8, (direntOf (slice (patch zeros 0 rootDirents) (direntSize*(i%direntsPerBlock)) direntSize)).dIno ≠ 0 →
      (direntOf (slice (patch zeros 0 rootDirents) (direntSize*(i%direntsPerBlock)) direntSize)).dIno = rootIno ∨
        (direntOf (slice (patch zeros 0 rootDirents) (direntSize*(i%direntsPerBlock)) direntSize)).dIno = BitVec.ofNat 32 consIno := by
    decide +kernel
  refine ⟨tablesSuper tables,Or.inl rfl,fun n node => tablesInode tables (small n node),?_,?_,?_⟩
  · rintro n (rfl | rfl)
    · rw [show stored (flat (formatted sb) size).view rootIno = root sb from rooted]
      exact (by decide : (1 : BitVec 64) ≠ 0)
    · rw [show stored (flat (formatted sb) size).view (BitVec.ofNat 32 consIno) = _ from console]
      exact (by decide : (1 : BitVec 64) ≠ 0)
  · rintro n (rfl | rfl) dir
    · rw [show stored (flat (formatted sb) size).view rootIno = root sb from rooted]
      exact rootLegible h.layout h.ordered
    · exact absurd dir other
  · rintro n (rfl | rfl) dir
    · rw [show stored (flat (formatted sb) size).view rootIno = root sb from rooted,rootEntries]
      intro i inside
      rw [show (entryAt (flat (formatted sb) size).view (root sb) i).dIno = _ from rootNumber h.ordered inside]
      exact entries i inside
    · exact absurd dir other

end Image

theorem dotsResolve : ∃ found m, run diskLayer (inodeNamei [47,46,47,46,46,47,46])
    ⟨flat (formatted (Mkfs.initSuperBlock (64*bsize) 16)) 64,bootKernel [] []⟩ =
    .ok (found,⟨flat (formatted (Mkfs.initSuperBlock (64*bsize) 16)) 64,m⟩) ∧ Untouched (bootKernel [] []) m found := by
  have made : Made (64*bsize/bsize) (Mkfs.initSuperBlock (64*bsize) 16) := fitsMade ⟨by decide,by decide,by decide,by decide,by decide +kernel⟩
  obtain ⟨neutral,_,returns⟩ := resolutionNeutral [47,46,47,46,46,47,46]
  obtain ⟨⟨found,m,ran⟩,_⟩ := returns _ _ (bootKernel [] []) 0 1 (by decide) (madeTree made) (fun i _ used => absurd used (lt_irrefl 0))
    (by decide) (by decide) ⟨rfl,rfl⟩
  exact ⟨found,m,ran,neutral diskLayer _ _ found ran⟩

end TskSw.PathReferences
