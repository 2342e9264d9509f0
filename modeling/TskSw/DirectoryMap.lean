import TskSw.Directory

/-! What a directory is for: a map from names to inode numbers. The search of the code
takes the first entry whose name starts with the wanted one, so it agrees with the map
only where no name is the beginning of another. -/
namespace TskSw.DirectoryMap
open Bytes BlockProgram BlkIo BlkFlat FsLayout FsKernel DataBitmap DataBlocks Bmap Inodes InodeIo CString Directory
open Mkfs (fnameMax)

structure Name (name : List UInt8) : Prop where
  some : name ≠ []
  short : name.length ≤ fnameMax
  clean : 0 ∉ name

def Live (e : Dirent) : Prop := e.dIno ≠ 0

def exact (name : List UInt8) (e : Dirent) : Bool := decide (e.dIno ≠ 0 ∧ cstr e.dName = name)

theorem hitStarts {name} (h : Name name) (e) : hit name e = true ↔ Live e ∧ name <+: cstr e.dName := by
  rw [hit,decide_eq_true_iff,strncmpZero h.clean (by have := h.short; omega)]
  rfl

variable {view view' : Nat → Block} {x x' : Inode} {e : Dirent} {t : Disk} {k : Kernel} {i : Nat}

variable {dp : Nat} {name other : List UInt8}

section Search
variable {p : Dirent → Bool} {s : Nat}

theorem searchSome : search view x p = some i ↔
    i < entryCount x ∧ p (entryAt view x i) = true ∧ ∀ j < i, p (entryAt view x j) = false := by
  rw [search,searchFrom,List.find?_range'_eq_some,List.mem_range'_1]
  constructor
  · rintro ⟨hit,⟨_,inside⟩,before⟩
    exact ⟨by omega,hit,fun j below => by simpa using before j (Nat.zero_le j) below⟩
  · rintro ⟨inside,hit,before⟩
    exact ⟨hit,⟨Nat.zero_le i,by omega⟩,fun j _ below => by simp [before j below]⟩

theorem searchNone : search view x p = none ↔ ∀ j < entryCount x, p (entryAt view x j) = false := by
  rw [search,searchFrom,List.find?_eq_none]
  constructor
  · intro never j inside
    simpa using never j (by simpa using inside)
  · intro never j inside
    rw [never j (by simpa using inside)]
    exact Bool.false_ne_true

theorem searchCongr {q} (same : ∀ j < entryCount x, p (entryAt view x j) = q (entryAt view x j)) :
    search view x p = search view x q := by
  cases found : search view x p with
  | none =>
    have never := searchNone.mp found
    exact (searchNone.mpr fun j inside => by rw [← same j inside,never j inside]).symm
  | some i =>
    obtain ⟨inside,hit,before⟩ := searchSome.mp found
    exact (searchSome.mpr ⟨inside,by rw [← same i inside,hit],fun j below => by rw [← same j (by omega),before j below]⟩).symm

structure Replaced (view : Nat → Block) (x : Inode) (s : Nat) (e : Dirent) (view' : Nat → Block) (x' : Inode) : Prop where
  place : s ≤ entryCount x
  count : entryCount x' = max (entryCount x) (s+1)
  entries : ∀ j < entryCount x', entryAt view' x' j = if j = s then e else entryAt view x j

theorem replacedHere (h : Replaced view x s e view' x') : entryAt view' x' s = e := by
  rw [h.entries s (by have := h.count; omega),if_pos rfl]

theorem replacedOther (h : Replaced view x s e view' x') (inside : i < entryCount x) (apart : i ≠ s) :
    entryAt view' x' i = entryAt view x i := by
  rw [h.entries i (by have := h.count; omega),if_neg apart]

theorem searchSkip (h : Replaced view x s e view' x') (new : p e = false) (old : s < entryCount x → p (entryAt view x s) = false) :
    search view' x' p = search view x p := by
  have count := h.count
  have place := h.place
  have same : ∀ j < entryCount x, p (entryAt view' x' j) = p (entryAt view x j) := by
    intro j inside
    by_cases here : j = s
    · subst here
      rw [replacedHere h,new,old inside]
    · rw [replacedOther h inside here]
  cases found : search view x p with
  | none =>
    have never := searchNone.mp found
    refine searchNone.mpr fun j inside => ?_
    by_cases here : j = s
    · rw [here,replacedHere h,new]
    · rw [same j (by omega),never j (by omega)]
  | some i =>
    obtain ⟨inside,hit,before⟩ := searchSome.mp found
    exact searchSome.mpr ⟨by omega,by rw [same i inside,hit],fun j below => by rw [same j (by omega),before j below]⟩

theorem searchKeep (h : Replaced view x s e view' x') (earlier : i < s) (hit : p (entryAt view x i) = true) :
    search view' x' p = search view x p ∧ ∃ j < s, search view x p = some j := by
  have count := h.count
  have place := h.place
  cases found : search view x p with
  | none => rw [searchNone.mp found i (by omega)] at hit; cases hit
  | some j =>
    obtain ⟨inside,here,before⟩ := searchSome.mp found
    have first : j ≤ i := by
      by_contra above
      rw [before i (by omega)] at hit
      cases hit
    refine ⟨searchSome.mpr ⟨by omega,?_,fun l below => ?_⟩,j,by omega,rfl⟩
    · rw [replacedOther h (by omega) (by omega),here]
    · rw [replacedOther h (by omega) (by omega),before l below]

theorem searchHere (h : Replaced view x s e view' x') (new : p e = true) (none : ∀ j < s, p (entryAt view x j) = false) :
    search view' x' p = some s := by
  have count := h.count
  have place := h.place
  refine searchSome.mpr ⟨by omega,by rw [replacedHere h,new],fun j below => ?_⟩
  rw [replacedOther h (by omega) (by omega),none j below]

end Search

abbrev Info := BitVec 32 × BitVec 64 × Nat

def lookupEntry (dp : Nat) (name : List UInt8) : Fs (Option Info) := do
  match ← inodeDirlookup dp name with
  | none => pure none
  | some (ip,off) => do
      let y ← getInode ip
      inodePut ip
      pure (some (y.inum,y.iDev,off))

def bothLookups (dp : Nat) (name other : List UInt8) : Fs (Option Info × Option Info) := do
  let a ← lookupEntry dp name
  let b ← lookupEntry dp other
  pure (a,b)

def addThenLookup (dp : Nat) (name other : List UInt8) (inum : BitVec 32) : Fs (Int × Option Info × Option Info) := do
  let rc ← inodeAddDirectoryEntry dp name inum
  let found ← bothLookups dp name other
  pure (rc,found)

def clearEntry (dp off : Nat) : Fs Int := inodeWrite dp (List.replicate direntSize 0) (BitVec.ofNat 64 off)

def clearThenLookup (dp : Nat) (name other : List UInt8) (off : Nat) : Fs (Int × Option Info × Option Info) := do
  let rc ← clearEntry dp off
  let found ← bothLookups dp name other
  pure (rc,found)

def info (view : Nat → Block) (x : Inode) (i : Nat) : Info := ((entryAt view x i).dIno,devRoot,direntSize*i)

structure Borrowed (k k' : Kernel) : Prop where
  refs : ∀ i, (k'.inode i).ref = (k.inode i).ref
  used : ∀ i, (k.inode i).ref ≠ 0 → k'.inode i = k.inode i

structure Open (t : Disk) (k : Kernel) (dp : Nat) : Prop where
  listing : Listing t (k.inode dp)
  held : 0 < (k.inode dp).ref
  spare : ∃ i < ninode, (k.inode i).ref = 0

theorem openBorrowed {t k k' dp} (h : Open t k dp) (same : Borrowed k k') :
    Open t k' dp ∧ k'.inode dp = k.inode dp := by
  have inode := same.used dp (by have := h.held; omega)
  obtain ⟨i,inside,free⟩ := h.spare
  exact ⟨⟨by rw [inode]; exact h.listing,by rw [inode]; exact h.held,i,inside,by rw [same.refs]; exact free⟩,inode⟩

section Runs

theorem runGetPut (spare : ∃ i < ninode, (k.inode i).ref = 0) (dev inum) :
    ∃ i y, run diskLayer (inodeGet dev inum) ⟨t,k⟩ = .ok (i,⟨t,k.withInode i y⟩) ∧ y.inum = inum ∧ y.iDev = dev ∧
      ∃ k', run diskLayer (inodePut i) ⟨t,k.withInode i y⟩ = .ok ((),⟨t,k'⟩) ∧ Borrowed k k' := by
  obtain ⟨j,inside,free⟩ := spare
  obtain ⟨i,y,found⟩ := slotForSome inside free dev inum
  have gotten := slotForGotten found
  have get : (k.withInode i y).inode i = y := by simp [Kernel.withInode]
  have keep : ¬ (((k.withInode i y).inode i).ref = 1 ∧ ((k.withInode i y).inode i).valid = true ∧
      ((k.withInode i y).inode i).iNlink = 0) := by
    rw [get]
    rintro ⟨one,valid,_⟩
    rcases gotten.origin with ⟨used,rfl⟩ | ⟨_,_,invalid,_⟩
    · have := gotten.ref
      omega
    · rw [invalid] at valid
      cases valid
  refine ⟨i,y,runInodeGet found,gotten.number,gotten.device,_,runPutKeep keep,?_⟩
  rw [get]
  have other : ∀ j, j ≠ i → (((k.withInode i y).withInode i {y with ref := y.ref - 1}).inode j) = k.inode j := by
    intro j apart
    simp [Kernel.withInode,apart]
  have here : ((k.withInode i y).withInode i {y with ref := y.ref - 1}).inode i = {y with ref := y.ref - 1} := by
    simp [Kernel.withInode]
  have ref := gotten.ref
  constructor
  · intro j
    by_cases same : j = i
    · rw [same,here,ref]
      exact Int.add_sub_cancel _ _
    · rw [other j same]
  · intro j used
    by_cases same : j = i
    · subst same
      rw [here]
      rcases gotten.origin with ⟨_,rfl⟩ | ⟨zero,_⟩
      · simp
      · exact absurd zero used
    · exact other j same

theorem runLookupEntry (h : Open t k dp) (name) :
    ∃ k', run diskLayer (lookupEntry dp name) ⟨t,k⟩ =
      .ok ((search t.view (k.inode dp) (hit name)).map (info t.view (k.inode dp)),⟨t,k'⟩) ∧ Borrowed k k' := by
  have look := runDirlookup h.listing.legible name
  cases found : search t.view (k.inode dp) (hit name) with
  | none =>
    rw [found] at look
    exact ⟨k,by simp [lookupEntry,look],fun _ => rfl,fun _ _ => rfl⟩
  | some j =>
    rw [found] at look
    obtain ⟨i,y,get,number,device,k',put,same⟩ := runGetPut (t := t) h.spare devRoot (entryAt t.view (k.inode dp) j).dIno
    refine ⟨k',?_,same⟩
    have inode : (k.withInode i y).inode i = y := by simp [Kernel.withInode]
    simp only [lookupEntry,runBind,look,get,followOk,getInode,runMemory,runPure,put,inode,number,device,Option.map_some,info]

theorem runBothLookups (h : Open t k dp) (name other) :
    ∃ k', run diskLayer (bothLookups dp name other) ⟨t,k⟩ =
      .ok (((search t.view (k.inode dp) (hit name)).map (info t.view (k.inode dp)),
        (search t.view (k.inode dp) (hit other)).map (info t.view (k.inode dp))),⟨t,k'⟩) := by
  obtain ⟨l,first,same⟩ := runLookupEntry h name
  obtain ⟨h',inode⟩ := openBorrowed h same
  obtain ⟨m,second,_⟩ := runLookupEntry h' other
  rw [inode] at second
  exact ⟨m,by simp only [bothLookups,runBind,first,followOk,second,runPure]⟩

theorem runAddOld (h : Open t k dp) {name j} (found : search t.view (k.inode dp) (hit name) = some j)
    (inum : BitVec 32) :
    ∃ k', run diskLayer (inodeAddDirectoryEntry dp name inum) ⟨t,k⟩ = .ok (-eexist,⟨t,k'⟩) ∧ Borrowed k k' := by
  have look := runDirlookup h.listing.legible name
  rw [found] at look
  obtain ⟨i,y,get,_,_,k',put,same⟩ := runGetPut (t := t) h.spare devRoot (entryAt t.view (k.inode dp) j).dIno
  exact ⟨k',by simp only [inodeAddDirectoryEntry,runBind,look,get,followOk,put,runPure],same⟩

def Room (view : Nat → Block) (x : Inode) : Prop :=
  freeSlot view x < entryCount x ∨ direntSize*(entryCount x+1) ≤ fsMaxfileSize ∧ Served view x (entryCount x/direntsPerBlock)

theorem roomServed (h : Listing t (k.inode dp)) (room : Room t.view (k.inode dp)) :
    direntSize*(freeSlot t.view (k.inode dp)+1) ≤ fsMaxfileSize ∧
      Served t.view (k.inode dp) (freeSlot t.view (k.inode dp)/direntsPerBlock) := by
  have place := freeSlotPlace t.view (k.inode dp)
  have count := listingCount h.legible
  have limit := h.limit
  rcases Nat.lt_or_ge (freeSlot t.view (k.inode dp)) (entryCount (k.inode dp)) with inside | outside
  · obtain ⟨small,hit⟩ := listingBlock h.legible inside
    refine ⟨?_,small,Or.inl hit⟩
    rw [count] at limit
    exact (Nat.mul_le_mul_left _ inside).trans limit
  · have last : freeSlot t.view (k.inode dp) = entryCount (k.inode dp) := by omega
    rw [last]
    exact room.resolve_left (by omega)

theorem runAddNew (h : Open t k dp) {name} (named : Name name)
    (none : search t.view (k.inode dp) (hit name) = none) (room : Room t.view (k.inode dp)) (inum) :
    ∃ v l e, run diskLayer (inodeAddDirectoryEntry dp name inum) ⟨t,k⟩ = .ok (0,⟨v,l⟩) ∧
      Written dp (freeSlot t.view (k.inode dp)) e t k v l ∧ e.dIno = inum ∧ cstr e.dName = name := by
  obtain ⟨limit,served⟩ := roomServed h.listing room
  obtain ⟨b,u,m,mapping,got⟩ := gotServed h.listing.mapping served
  obtain ⟨bytes,length,ino,string,add⟩ := runAddFree h.listing none named.clean named.short inum
  obtain ⟨v,l,write,written⟩ := writtenRuns h.listing length (freeSlotPlace _ _) limit mapping got
  refine ⟨v,l,_,?_,written,ino,string⟩
  rw [add,write]
  rfl

def zeroDirent : Dirent := direntOf (List.replicate direntSize 0)

theorem runClear (h : Open t k dp) {i} (inside : i < entryCount (k.inode dp)) :
    ∃ v l, run diskLayer (clearEntry dp (direntSize*i)) ⟨t,k⟩ = .ok ((direntSize : Int),⟨v,l⟩) ∧
      Written dp i zeroDirent t k v l := by
  obtain ⟨small,hit⟩ := listingBlock h.listing.legible inside
  have limit := h.listing.limit
  rw [listingCount h.listing.legible] at limit
  exact writtenRuns h.listing (by simp) (Nat.le_of_lt inside) ((Nat.mul_le_mul_left _ inside).trans limit)
    (runMapped h.listing.mapping small hit) (.old hit)

end Runs

section Written
variable {u : Disk} {m : Kernel} {s : Nat}

theorem writtenReplaced (h : Written dp s e t k u m) (place : s ≤ entryCount (k.inode dp)) :
    Replaced t.view (k.inode dp) s e u.view (m.inode dp) := ⟨place,h.count,h.entries⟩

theorem writtenOpen (opened : Open t k dp) (h : Written dp s e t k u m) : Open u m dp := by
  have inode : ∀ i, (m.inode i).ref = (k.inode i).ref := by
    intro i
    rw [h.kernel]
    by_cases same : i = dp
    · simp [Kernel.withInode,same]
    · simp [Kernel.withInode,same]
  obtain ⟨i,inside,free⟩ := opened.spare
  exact ⟨h.listing,by rw [inode]; exact opened.held,i,inside,by rw [inode]; exact free⟩

theorem freeSlotDead (inside : freeSlot t.view (k.inode dp) < entryCount (k.inode dp)) :
    ¬ Live (entryAt t.view (k.inode dp) (freeSlot t.view (k.inode dp))) := by
  unfold freeSlot at inside ⊢
  cases found : search t.view (k.inode dp) (fun e => decide (e.dIno = 0)) with
  | none =>
    rw [found] at inside
    exact absurd inside (Nat.lt_irrefl _)
  | some i =>
    have free := (searchSome.mp found).2.1
    simpa [Live] using free

end Written

def named (view : Nat → Block) (x : Inode) (name : List UInt8) : Option Nat := search view x (exact name)

def IsMap (w : World Store Kernel) (dp : Nat) (name other : List UInt8) (inum : BitVec 32) : Prop :=
  let view := cachedView w.disk
  let x := w.mem.inode dp
  ∃ before, result (run cacheLayer (lookupEntry dp other) w) = some before ∧
    result (run cacheLayer (lookupEntry dp name) w) = some ((named view x name).map (info view x)) ∧
    (named view x name ≠ none → ∃ w', run cacheLayer (inodeAddDirectoryEntry dp name inum) w = .ok (-eexist,w') ∧
      cachedView w'.disk = view ∧ Borrowed w.mem w'.mem) ∧
    (named view x name = none → ∃ off,
      result (run cacheLayer (addThenLookup dp name other inum) w) = some (0,some (inum,devRoot,off),before)) ∧
    ∀ i, named view x name = some i →
      result (run cacheLayer (clearThenLookup dp name other (direntSize*i)) w) = some ((direntSize : Int),none,before)

def Unambiguous (view : Nat → Block) (x : Inode) (name other : List UInt8) : Prop :=
  (∀ i < entryCount x, Live (entryAt view x i) → name <+: cstr (entryAt view x i).dName → cstr (entryAt view x i).dName = name) ∧
    (other <+: name → ∃ i < (named view x name).getD (freeSlot view x),
      Live (entryAt view x i) ∧ other <+: cstr (entryAt view x i).dName)

structure Unblocked (w : World Store Kernel) (dp : Nat) (name other : List UInt8) (inum : BitVec 32) : Prop where
  look : run cacheLayer (lookupEntry dp name) w ≠ .error .noBuffers
  lookOther : run cacheLayer (lookupEntry dp other) w ≠ .error .noBuffers
  add : run cacheLayer (inodeAddDirectoryEntry dp name inum) w ≠ .error .noBuffers
  addLook : run cacheLayer (addThenLookup dp name other inum) w ≠ .error .noBuffers
  clearLook : ∀ i, named (cachedView w.disk) (w.mem.inode dp) name = some i →
    run cacheLayer (clearThenLookup dp name other (direntSize*i)) w ≠ .error .noBuffers

theorem cacheResult {α : Type} {p : Fs α} {a : α} {s : Store} {u : State} (matched : Matches s t)
    (free : run cacheLayer p ⟨s,k⟩ ≠ .error .noBuffers) (ok : run diskLayer p ⟨t,k⟩ = .ok (a,u)) :
    result (run cacheLayer p ⟨s,k⟩) = some a := by
  rcases toCache matched ok with stuck | ⟨s',ran,_⟩
  · exact absurd stuck free
  · rw [ran]
    rfl

section Values

def found (view : Nat → Block) (x : Inode) (name : List UInt8) : Option Info := (search view x (hit name)).map (info view x)

theorem foundIndex {view view' x x' p q}
    (same : (search view x p).map (info view x) = (search view' x' q).map (info view' x')) : search view x p = search view' x' q := by
  cases left : search view x p with
  | none =>
    rw [left] at same
    exact (Option.map_eq_none_iff.mp same.symm).symm
  | some i =>
    rw [left] at same
    obtain ⟨j,right,equal⟩ := Option.map_eq_some_iff.mp same.symm
    have offset : direntSize*j = direntSize*i := congrArg (fun r : Info => r.2.2) equal
    rw [right,Nat.eq_of_mul_eq_mul_left (by decide) offset]

theorem foundSame {view view' x x' s e} (h : Replaced view x s e view' x')
    (same : search view' x' (hit name) = search view x (hit name)) (apart : search view x (hit name) ≠ some s) :
    found view' x' name = found view x name := by
  unfold found
  rw [same]
  cases hit : search view x (hit name) with
  | none => rfl
  | some i =>
    have inside := (searchSome.mp hit).1
    have other : i ≠ s := by
      rintro rfl
      exact apart hit
    simp only [Option.map_some,info,replacedOther h inside other]

theorem runAddThenLookup (other) (h : Open t k dp) (named : Name name) (none : search t.view (k.inode dp) (hit name) = none)
    (room : Room t.view (k.inode dp)) (inum) :
    ∃ view' x' e w, run diskLayer (addThenLookup dp name other inum) ⟨t,k⟩ =
        .ok ((0,found view' x' name,found view' x' other),w) ∧
      Replaced t.view (k.inode dp) (freeSlot t.view (k.inode dp)) e view' x' ∧ e.dIno = inum ∧ cstr e.dName = name := by
  obtain ⟨u,m,e,add,written,ino,string⟩ := runAddNew h named none room inum
  obtain ⟨l,look⟩ := runBothLookups (writtenOpen h written) name other
  refine ⟨u.view,m.inode dp,e,⟨u,l⟩,?_,writtenReplaced written (freeSlotPlace _ _),ino,string⟩
  simp only [addThenLookup,runBind,add,followOk,look,runPure]
  rfl

theorem runClearThenLookup (name other : List UInt8) (h : Open t k dp) {i} (inside : i < entryCount (k.inode dp)) :
    ∃ view' x' w, run diskLayer (clearThenLookup dp name other (direntSize*i)) ⟨t,k⟩ =
        .ok (((direntSize : Int),found view' x' name,found view' x' other),w) ∧
      Replaced t.view (k.inode dp) i zeroDirent view' x' := by
  obtain ⟨u,m,clear,written⟩ := runClear h inside
  obtain ⟨l,look⟩ := runBothLookups (writtenOpen h written) name other
  refine ⟨u.view,m.inode dp,⟨u,l⟩,?_,writtenReplaced written (Nat.le_of_lt inside)⟩
  simp only [clearThenLookup,runBind,clear,followOk,look,runPure]
  rfl

theorem zeroMissed (name : List UInt8) : hit name zeroDirent = false :=
  decide_eq_false (fun live => live.1 (by decide))

theorem namedExact {view x i} (h : named view x name = some i) :
    i < entryCount x ∧ Live (entryAt view x i) ∧ cstr (entryAt view x i).dName = name := by
  obtain ⟨inside,here,_⟩ := searchSome.mp h
  have both := of_decide_eq_true here
  exact ⟨inside,both.1,both.2⟩

theorem missedEntry (h : Name name) (none : ¬ (Live e ∧ name <+: cstr e.dName)) : hit name e = false := by
  rw [← Bool.not_eq_true,hitStarts h]
  exact none

theorem foundKeep {s : Nat} (h : Replaced view x s e view' x')
    (earlier : i < s) (here : hit name (entryAt view x i) = true) : found view' x' name = found view x name := by
  obtain ⟨same,j,below,first⟩ := searchKeep h earlier here
  refine foundSame h same ?_
  rw [first]
  intro equal
  cases equal
  exact Nat.lt_irrefl _ below

theorem foundSkip {s : Nat} (h : Replaced view x s e view' x')
    (new : hit name e = false) (old : s < entryCount x → hit name (entryAt view x s) = false) :
    found view' x' name = found view x name := by
  refine foundSame h (searchSkip h new old) fun first => ?_
  obtain ⟨inside,here,_⟩ := searchSome.mp first
  rw [old inside] at here
  cases here

section Slot
variable {slot : Nat}

theorem unambiguousSearch (clear : Unambiguous view x name other) (proper : Name name) : search view x (hit name) = named view x name := by
  refine searchCongr fun j inside => Bool.eq_iff_iff.mpr ?_
  rw [hitStarts proper,exact,decide_eq_true_iff]
  exact ⟨fun ⟨live,start⟩ => ⟨live,clear.1 j inside live start⟩,fun ⟨live,equal⟩ => ⟨live,equal ▸ List.prefix_rfl⟩⟩

theorem unambiguousOther (clear : Unambiguous view x name other) (proper' : Name other) (place : (named view x name).getD (freeSlot view x) = slot)
    (replaced : Replaced view x slot e view' x') (new : ¬ other <+: name → hit other e = false)
    (old : ¬ other <+: name → slot < entryCount x → hit other (entryAt view x slot) = false) : found view' x' other = found view x other := by
  by_cases start : other <+: name
  · obtain ⟨i,below,live,hides⟩ := clear.2 start
    rw [place] at below
    exact foundKeep replaced below ((hitStarts proper' _).mpr ⟨live,hides⟩)
  · exact foundSkip replaced (new start) (old start)

theorem bareMissed (proper' : Name other) (bare : ¬ ∃ i < slot, Live (entryAt view x i) ∧ other <+: cstr (entryAt view x i).dName) :
    ∀ j < slot, hit other (entryAt view x j) = false :=
  fun j below => missedEntry proper' fun both => bare ⟨j,below,both⟩

theorem addedFirst (proper : Name name) (live : Live e) (start : name <+: cstr e.dName) (replaced : Replaced view x slot e view' x')
    (missed : ∀ j < slot, hit name (entryAt view x j) = false) : search view' x' (hit name) = some slot :=
  searchHere replaced ((hitStarts proper e).mpr ⟨live,start⟩) missed

theorem clearedGone (clear : Unambiguous view x name other) (proper : Name name) (entry : named view x name = some slot)
    (distinct : ∀ i < entryCount x, ∀ j < entryCount x, Live (entryAt view x i) → Live (entryAt view x j) →
      cstr (entryAt view x i).dName = cstr (entryAt view x j).dName → i = j)
    (replaced : Replaced view x slot zeroDirent view' x') : found view' x' name = none := by
  obtain ⟨inside,live,string⟩ := namedExact entry
  refine Option.map_eq_none_iff.mpr (searchNone.mpr fun j below => ?_)
  by_cases here : j = slot
  · rw [here,replacedHere replaced,zeroMissed]
  · have before : j < entryCount x := by
      have := replaced.count
      omega
    rw [replacedOther replaced before here]
    refine missedEntry proper fun both => here ?_
    exact distinct j before slot inside both.1 live ((clear.1 j before both.1 both.2).trans string.symm)

end Slot

end Values

section Claim
variable {s : Store} {inum : BitVec 32}

theorem unambiguousIsMap (matched : Matches s t) (h : Open t k dp) (proper : Name name) (proper' : Name other) (real : inum ≠ 0)
    (distinct : ∀ i < entryCount (k.inode dp), ∀ j < entryCount (k.inode dp), Live (entryAt t.view (k.inode dp) i) →
      Live (entryAt t.view (k.inode dp) j) →
      cstr (entryAt t.view (k.inode dp) i).dName = cstr (entryAt t.view (k.inode dp) j).dName → i = j)
    (room : named t.view (k.inode dp) name = none → Room t.view (k.inode dp)) (unblocked : Unblocked ⟨s,k⟩ dp name other inum)
    (clear : Unambiguous t.view (k.inode dp) name other) : IsMap ⟨s,k⟩ dp name other inum := by
  have same := unambiguousSearch clear proper
  obtain ⟨_,look,_⟩ := runLookupEntry h name
  obtain ⟨_,lookOther,_⟩ := runLookupEntry h other
  unfold IsMap
  simp only [matchesView matched]
  refine ⟨found t.view (k.inode dp) other,cacheResult matched unblocked.lookOther lookOther,?_,?_,?_,?_⟩
  · rw [← same]
    exact cacheResult matched unblocked.look look
  · intro some
    cases entry : named t.view (k.inode dp) name with
    | none => exact absurd entry some
    | some j =>
      obtain ⟨k',add,kept⟩ := runAddOld h (same.trans entry) inum
      rcases toCache matched add with stuck | ⟨s',ran,after⟩
      · exact absurd stuck unblocked.add
      · exact ⟨_,ran,matchesView after,kept⟩
  · intro none
    obtain ⟨view',x',e,w,add,replaced,ino,string⟩ := runAddThenLookup other h proper (same.trans none) (room none) inum
    have live : Live e := by rw [Live,ino]; exact real
    have place := freeSlotPlace t.view (k.inode dp)
    have mine := addedFirst proper live (string ▸ List.prefix_rfl) replaced fun j below => searchNone.mp (same.trans none) j (by omega)
    have others := unambiguousOther clear proper' (by rw [none,Option.getD_none]) replaced
      (fun start => missedEntry proper' fun both => start (string ▸ both.2))
      fun _ inside => missedEntry proper' fun both => freeSlotDead inside both.1
    refine ⟨direntSize*freeSlot t.view (k.inode dp),?_⟩
    rw [cacheResult matched unblocked.addLook add,others,found,mine]
    simp only [Option.map_some,info,replacedHere replaced,ino]
  · intro i entry
    obtain ⟨inside,_,string⟩ := namedExact entry
    obtain ⟨view',x',w,ran,replaced⟩ := runClearThenLookup name other h inside
    have mine := clearedGone clear proper entry distinct replaced
    have others := unambiguousOther clear proper' (by rw [entry,Option.getD_some]) replaced (fun _ => zeroMissed other)
      fun start _ => missedEntry proper' fun both => start (string ▸ both.2)
    rw [cacheResult matched (unblocked.clearLook i (by rw [matchesView matched]; exact entry)) ran,mine,others]

structure Observed (t : Disk) (k : Kernel) (dp : Nat) (name other : List UInt8) (inum : BitVec 32) : Prop where
  look : search t.view (k.inode dp) (hit name) = named t.view (k.inode dp) name
  added : named t.view (k.inode dp) name = none → ∃ view' x' e, Replaced t.view (k.inode dp) (freeSlot t.view (k.inode dp)) e view' x' ∧
    e.dIno = inum ∧ cstr e.dName = name ∧ found view' x' other = found t.view (k.inode dp) other
  cleared : ∀ i, named t.view (k.inode dp) name = some i → ∃ view' x', Replaced t.view (k.inode dp) i zeroDirent view' x' ∧
    found view' x' name = none ∧ found view' x' other = found t.view (k.inode dp) other

theorem isMapObserved (matched : Matches s t) (h : Open t k dp) (proper : Name name)
    (room : named t.view (k.inode dp) name = none → Room t.view (k.inode dp)) (unblocked : Unblocked ⟨s,k⟩ dp name other inum)
    (map : IsMap ⟨s,k⟩ dp name other inum) : Observed t k dp name other inum := by
  unfold IsMap at map
  simp only [matchesView matched] at map
  obtain ⟨before,lookOther,look,_,adds,clears⟩ := map
  obtain ⟨_,ran,_⟩ := runLookupEntry h name
  obtain ⟨_,ranOther,_⟩ := runLookupEntry h other
  rw [cacheResult matched unblocked.lookOther ranOther] at lookOther
  have known : found t.view (k.inode dp) other = before := Option.some.inj lookOther
  rw [cacheResult matched unblocked.look ran] at look
  have same : search t.view (k.inode dp) (hit name) = named t.view (k.inode dp) name := foundIndex (Option.some.inj look)
  subst known
  refine ⟨same,fun none => ?_,fun i entry => ?_⟩
  · obtain ⟨view',x',e,w,add,replaced,ino,string⟩ := runAddThenLookup other h proper (same.trans none) (room none) inum
    obtain ⟨off,value⟩ := adds none
    rw [cacheResult matched unblocked.addLook add] at value
    simp only [Option.some.injEq,Prod.mk.injEq] at value
    exact ⟨view',x',e,replaced,ino,string,value.2.2⟩
  · obtain ⟨view',x',w,clear,replaced⟩ := runClearThenLookup name other h (namedExact entry).1
    have value := clears i entry
    rw [cacheResult matched (unblocked.clearLook i (by rw [matchesView matched]; exact entry)) clear] at value
    simp only [Option.some.injEq,Prod.mk.injEq] at value
    exact ⟨view',x',replaced,value.2.1,value.2.2⟩

theorem observedAlone (proper : Name name) (seen : Observed t k dp name other inum) {i} (inside : i < entryCount (k.inode dp))
    (live : Live (entryAt t.view (k.inode dp) i)) (start : name <+: cstr (entryAt t.view (k.inode dp) i).dName) :
    cstr (entryAt t.view (k.inode dp) i).dName = name := by
  by_contra longer
  have here := (hitStarts proper _).mpr ⟨live,start⟩
  cases entry : named t.view (k.inode dp) name with
  | none =>
    rw [searchNone.mp (seen.look.trans entry) i inside] at here
    cases here
  | some j =>
    obtain ⟨view',x',replaced,gone,_⟩ := seen.cleared j entry
    have apart : i ≠ j := by
      rintro rfl
      exact longer (namedExact entry).2.2
    have missing := searchNone.mp (Option.map_eq_none_iff.mp gone) i (by have := replaced.count; omega)
    rw [replacedOther replaced inside apart,here] at missing
    cases missing

theorem observedHidden (proper' : Name other) (real : inum ≠ 0) (seen : Observed t k dp name other inum) (start : other <+: name) :
    ∃ i < (named t.view (k.inode dp) name).getD (freeSlot t.view (k.inode dp)),
      Live (entryAt t.view (k.inode dp) i) ∧ other <+: cstr (entryAt t.view (k.inode dp) i).dName := by
  by_contra bare
  have missed := bareMissed proper' bare
  cases entry : named t.view (k.inode dp) name with
  | none =>
    rw [entry,Option.getD_none] at missed
    obtain ⟨view',x',e,replaced,ino,string,kept⟩ := seen.added entry
    have here := addedFirst proper' (by rw [Live,ino]; exact real) (string ▸ start) replaced missed
    obtain ⟨inside,hit,_⟩ := searchSome.mp ((foundIndex kept).symm.trans here)
    exact freeSlotDead inside ((hitStarts proper' _).mp hit).1
  | some j =>
    rw [entry,Option.getD_some] at missed
    obtain ⟨view',x',replaced,_,kept⟩ := seen.cleared j entry
    obtain ⟨inside,live,string⟩ := namedExact entry
    have first : search t.view (k.inode dp) (hit other) = some j :=
      searchSome.mpr ⟨inside,(hitStarts proper' _).mpr ⟨live,string ▸ start⟩,missed⟩
    have again := (searchSome.mp ((foundIndex kept).trans first)).2.1
    rw [replacedHere replaced,zeroMissed] at again
    cases again

theorem isMapUnambiguous (matched : Matches s t) (h : Open t k dp) (proper : Name name) (proper' : Name other) (real : inum ≠ 0)
    (room : named t.view (k.inode dp) name = none → Room t.view (k.inode dp)) (unblocked : Unblocked ⟨s,k⟩ dp name other inum)
    (map : IsMap ⟨s,k⟩ dp name other inum) : Unambiguous t.view (k.inode dp) name other := by
  have seen := isMapObserved matched h proper room unblocked map
  exact ⟨fun i inside live start => observedAlone proper seen inside live start,observedHidden proper' real seen⟩

theorem directoryMapExact (matched : Matches s t) (h : Open t k dp) (proper : Name name) (proper' : Name other) (real : inum ≠ 0)
    (distinct : ∀ i < entryCount (k.inode dp), ∀ j < entryCount (k.inode dp), Live (entryAt t.view (k.inode dp) i) →
      Live (entryAt t.view (k.inode dp) j) →
      cstr (entryAt t.view (k.inode dp) i).dName = cstr (entryAt t.view (k.inode dp) j).dName → i = j)
    (room : named t.view (k.inode dp) name = none → Room t.view (k.inode dp)) (unblocked : Unblocked ⟨s,k⟩ dp name other inum) :
    IsMap ⟨s,k⟩ dp name other inum ↔ Unambiguous (cachedView s) (k.inode dp) name other := by
  rw [matchesView matched]
  exact ⟨isMapUnambiguous matched h proper proper' real room unblocked,
    unambiguousIsMap matched h proper proper' real distinct room unblocked⟩

end Claim

def rootOpen : Kernel :=
  (bootKernel [] []).withInode 0
    {emptyInode with inum := 2, ref := 1, busy := true, valid := true, iMode := fsImodeDir, iDev := devRoot, iNlink := 1,
                     iSize := 512, iAddr := fun i => if i.1 = 0 then 10 else 0}

theorem rootMapped (j) : mapped smallImage (rootOpen.inode 0) j = if j = 0 then 10 else 0 := by
  have slot : ∀ i, addrAt (rootOpen.inode 0).iAddr i = if i = 0 then 10 else 0 := by
    intro i
    unfold addrAt
    split
    · rfl
    · rename_i outside
      rw [if_neg (by rintro rfl; exact outside (by decide))]
  unfold mapped
  rw [slot,slot,if_neg (by decide : fsIaddrInDirectMin ≠ 0),if_pos rfl]
  by_cases first : j = 0
  · rw [if_pos (by rw [first]; decide),if_pos first,if_pos first]
    rfl
  · rw [if_neg first,if_neg first]
    split <;> rfl

theorem rootMapping : Mapping (flat smallImage 64) (rootOpen.inode 0) := by
  refine ⟨smallLayout,fun _ => rfl,?_,rfl,fun attached => absurd (by decide) attached,?_,?_⟩
  · change 0 < (superOf smallImage).sFirstdataBlock.toNat
    rw [smallSuper]
    decide
  · intro j _ hit
    change mapped smallImage _ j ≠ 0 at hit
    change Taken smallImage (mapped smallImage _ j)
    rw [rootMapped] at hit ⊢
    have first : j = 0 := by
      by_contra other
      exact hit (if_neg other)
    rw [if_pos first]
    refine ⟨0,?_,?_,by decide +kernel⟩
    · rw [smallSuper]
      decide
    · rw [smallSuper]
      decide
  · intro i _ j _ hit same
    change mapped smallImage _ i ≠ 0 at hit
    change mapped smallImage _ i = mapped smallImage _ j at same
    rw [rootMapped] at hit same
    rw [rootMapped] at same
    by_cases left : i = 0
    · by_cases right : j = 0
      · rw [left,right]
      · simp [left,right] at same
    · exact absurd (if_neg left) hit

theorem rootListing : Listing (flat smallImage 64) (rootOpen.inode 0) := by
  refine ⟨⟨rootMapping,rfl,by decide,by decide,?_⟩,?_,?_⟩
  · intro n inside
    change mapped smallImage _ n ≠ 0
    have first : n = 0 := by
      have : bsize*n < 512 := inside
      simp only [bsize] at this
      omega
    rw [rootMapped,if_pos first]
    decide
  · change 2 < (superOf smallImage).sNinodes.toNat
    rw [smallSuper]
    decide
  · intro n _ hit
    change mapped smallImage _ n ≠ _
    exact fun none => hit none

theorem rootIsOpen : Open (flat smallImage 64) rootOpen 0 := ⟨rootListing,by decide,1,by decide,by decide⟩

theorem newNameIsMapped : IsMap ⟨smallStore,rootOpen⟩ 0 [97] [98] 4 := by
  have view : cachedView smallStore = smallImage := matchesView (bootMatches smallImage 64)
  have absent : named smallImage (rootOpen.inode 0) [97] = none := by decide +kernel
  have contents : ∀ i < 8, ((entryAt smallImage (rootOpen.inode 0) i).dIno ≠ 0 → i < 3) ∧
      cstr (entryAt smallImage (rootOpen.inode 0) i).dName = [[46],[46,46],[67,79,78]].getD i [] := by decide +kernel
  have apart : ∀ i < 3, ∀ j < 3, ([[46],[46,46],[67,79,78]] : List (List UInt8)).getD i [] = [[46],[46,46],[67,79,78]].getD j [] →
      i = j := by decide
  have alone : ∀ i < 3, ¬ [97] <+: ([[46],[46,46],[67,79,78]] : List (List UInt8)).getD i [] := by decide
  refine (directoryMapExact (bootMatches smallImage 64) rootIsOpen ⟨by decide,by decide,by decide⟩ ⟨by decide,by decide,by decide⟩
    (by decide) ?_ (fun _ => Or.inl (by decide +kernel)) ?_).mpr ?_
  · intro i left j right live live' same
    have before := contents i left
    have after := contents j right
    exact apart i (before.1 live) j (after.1 live') (before.2.symm.trans (same.trans after.2))
  · refine ⟨smallReady (by decide) ?_,smallReady (by decide) ?_,smallReady (by decide) ?_,smallReady (by decide) ?_,fun i entry => ?_⟩
    · decide +kernel
    · decide +kernel
    · decide +kernel
    · decide +kernel
    · change named (cachedView smallStore) _ _ = _ at entry
      rw [view,absent] at entry
      cases entry
  · change Unambiguous (cachedView smallStore) _ _ _
    rw [view]
    refine ⟨fun i inside live start => ?_,fun start => absurd start (by decide)⟩
    have here := contents i inside
    rw [here.2] at start
    exact absurd start (alone i (here.1 live))

theorem beginningIsFound :
    named (cachedView smallStore) (rootOpen.inode 0) [67,79] = none ∧
    result (run cacheLayer (lookupEntry 0 [67,79]) ⟨smallStore,rootOpen⟩) = some (some (3,devRoot,128)) ∧
    result (run cacheLayer (inodeAddDirectoryEntry 0 [67,79] 4) ⟨smallStore,rootOpen⟩) = some (-eexist) := by
  refine ⟨?_,?_,?_⟩
  · rw [smallStore,matchesView (bootMatches smallImage 64)]
    decide +kernel
  · rw [smallStore,(smallRun (by decide) _ _).1]
    decide +kernel
  · rw [smallStore,(smallRun (by decide) _ _).1]
    decide +kernel

end TskSw.DirectoryMap
