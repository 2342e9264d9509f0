import TskSw.FsCalls
import TskSw.DirectoryMap

/-! What holds of the file system between two calls: one directory whose entries name
inodes in use, files whose blocks lie apart from it, link counts that agree with the
entries, and cached inodes that agree with the disk. In the middle of a call one link may
be owed: counted in an inode, but not yet or no longer entered. -/
namespace TskSw.FsTree
open Bytes BlockProgram BlkIo BlkFlat FsLayout FsKernel DataBitmap DataBlocks Bmap Inodes InodeIo CString Directory FsCalls
open DirectoryMap (Live Replaced replacedHere replacedOther)

def stored (view : Nat → Block) (inum : BitVec 32) : Inode :=
  ({emptyInode with inum := inum, iDev := devRoot}).load (diskInode view inum)

abbrev rootOf (view : Nat → Block) : Inode := stored view rootIno

def content (x : Inode) : Inode := {x with ref := 0, busy := false, valid := true}

def inodeBit (view : Nat → Block) (inum : BitVec 32) : Bool := mapBit view (resvBlockNr + superBlockBlkNr) inum.toNat

def Apart (view : Nat → Block) (b : Nat) : Prop :=
  Taken view b ∧ ∀ n < fsIaddrDirectNr, (addrAt (rootOf view).iAddr n).toNat ≠ b

structure Plain (view : Nat → Block) (x : Inode) : Prop where
  mode : x.iMode ≠ fsImodeDir
  size : x.iSize.toNat ≤ fsMaxfileSize
  addr : ∀ n, addrAt x.iAddr n ≠ 0 → n < fsIaddrDirectNr ∧ Apart view (addrAt x.iAddr n).toNat

def names (view : Nat → Block) (x : Inode) (inum : BitVec 32) : Nat :=
  ((Finset.range (entryCount x)).filter (fun i => (entryAt view x i).dIno = inum ∧ inum ≠ 0)).card

def Blank (t : Disk) : Prop := ∀ i < (superOf t.view).sNblocks.toNat, dataBit t.view i = false →
  t.view ((superOf t.view).sFirstdataBlock.toNat + i) = fun _ => 0

def directEntries : Nat := fsIaddrDirectNr*direntsPerBlock

structure Rooted (owed : Option (BitVec 32)) (t : Disk) : Prop where
  listing : Listing t (rootOf t.view)
  flat : addrAt (rootOf t.view).iAddr fsIaddrInDirectMin = 0
  short : entryCount (rootOf t.view) ≤ directEntries
  alive : (rootOf t.view).iNlink ≠ 0
  dots : ∀ i < entryCount (rootOf t.view), (entryAt t.view (rootOf t.view) i).dIno = rootIno →
    (entryAt t.view (rootOf t.view) i).dName.headD 0 = 46
  live : ∀ i < entryCount (rootOf t.view), Live (entryAt t.view (rootOf t.view) i) →
    (entryAt t.view (rootOf t.view) i).dIno.toNat < (superOf t.view).sNinodes.toNat ∧
      inodeBit t.view (entryAt t.view (rootOf t.view) i).dIno = true
  reserved : inodeBit t.view 0 = true ∧ inodeBit t.view rootIno = true
  plain : ∀ inum, inum.toNat < (superOf t.view).sNinodes.toNat → inum ≠ rootIno → Plain t.view (stored t.view inum)
  links : ∀ inum, inum.toNat < (superOf t.view).sNinodes.toNat → (stored t.view inum).iMode = fsImodeFile →
    (stored t.view inum).iNlink.toNat = names t.view (rootOf t.view) inum + if owed = some inum then 1 else 0
  blank : Blank t

structure Slot (t : Disk) (x : Inode) : Prop where
  device : x.iDev = devRoot
  number : x.inum.toNat < (superOf t.view).sNinodes.toNat
  bit : inodeBit t.view x.inum = true
  same : x.valid = true → content {x with iAddr := (stored t.view x.inum).iAddr} = stored t.view x.inum
  root : x.valid = true → x.inum = rootIno → x.iAddr = (rootOf t.view).iAddr
  file : x.valid = true → x.inum ≠ rootIno → Plain t.view x

structure Cached (t : Disk) (k : Kernel) : Prop where
  inside : ∀ i, 0 < (k.inode i).ref → i < ninode
  slot : ∀ i, 0 < (k.inode i).ref → Slot t (k.inode i)
  unique : ∀ i j, 0 < (k.inode i).ref → 0 < (k.inode j).ref → (k.inode i).inum = (k.inode j).inum → i = j

structure Sound (owed : Option (BitVec 32)) (s : State) : Prop where
  disk : Rooted owed s.disk
  cache : Cached s.disk s.mem

variable {t : Disk} {x y : Inode} {owed owed' : Option (BitVec 32)} {s : State} {i : Nat} {inum : BitVec 32}

section Disk
variable {u : Disk}

theorem mappedFlat (flat : addrAt x.iAddr fsIaddrInDirectMin = 0) (view : Nat → Block) (n : Nat) :
    mapped view x n = if n < fsIaddrDirectNr then (addrAt x.iAddr n).toNat else 0 := by
  rw [mapped,if_pos flat]

structure Evolves (t u : Disk) : Prop where
  size : u.size = t.size
  held : u.held = t.held
  super : superOf u.view = superOf t.view
  bits : ∀ inum, inum.toNat < (superOf t.view).sNinodes.toNat → inodeBit t.view inum = true → inodeBit u.view inum = true
  taken : ∀ b, Taken t.view b → Taken u.view b
  blank : Blank t → Blank u

theorem evolvesRefl : Evolves t t := ⟨rfl,rfl,rfl,fun _ _ h => h,fun _ h => h,id⟩

theorem evolvesTrans {v} (first : Evolves t u) (second : Evolves u v) : Evolves t v where
  size := second.size.trans first.size
  held := second.held.trans first.held
  super := second.super.trans first.super
  bits inum numbered h := second.bits inum (by rw [first.super]; exact numbered) (first.bits inum numbered h)
  taken b h := second.taken b (first.taken b h)
  blank h := second.blank (first.blank h)

theorem listingEvolves (h : Listing t x) (flat : addrAt x.iAddr fsIaddrInDirectMin = 0) (e : Evolves t u) : Listing u x := by
  have same : ∀ n, mapped u.view x n = mapped t.view x n := fun n => by rw [mappedFlat flat,mappedFlat flat]
  refine ⟨⟨⟨?_,?_,?_,h.mapping.root,fun attached => absurd flat attached,?_,?_⟩,h.mode,h.whole,h.limit,?_⟩,?_,?_⟩
  · rw [e.super,e.size]
    exact h.mapping.layout
  · rw [e.held]
    exact h.mapping.quiet
  · rw [e.super]
    exact h.mapping.positive
  · intro n small hit
    rw [same] at hit ⊢
    exact e.taken _ (h.mapping.taken n small hit)
  · intro n small m small' hit equal
    rw [same] at hit
    rw [same,same] at equal
    exact h.mapping.distinct n small m small' hit equal
  · intro n inside
    rw [same]
    exact h.filled n inside
  · rw [e.super]
    exact h.number
  · intro n small hit
    rw [same] at hit ⊢
    exact h.index n small hit

structure SameRoot (t u : Disk) : Prop where
  root : rootOf u.view = rootOf t.view
  data : ∀ n < fsIaddrDirectNr, addrAt (rootOf t.view).iAddr n ≠ 0 →
    u.view (addrAt (rootOf t.view).iAddr n).toNat = t.view (addrAt (rootOf t.view).iAddr n).toNat

theorem apartSame (e : Evolves t u) (same : SameRoot t u) {b} (h : Apart t.view b) : Apart u.view b := by
  refine ⟨e.taken b h.1,?_⟩
  rw [same.root]
  exact h.2

theorem plainSame (e : Evolves t u) (same : SameRoot t u) (h : Plain t.view x) : Plain u.view x :=
  ⟨h.mode,h.size,fun n some => (h.addr n some).imp id (apartSame e same)⟩

theorem entrySame (h : Rooted owed t) (same : SameRoot t u) {i : Nat} (inside : i < entryCount (rootOf t.view)) :
    entryAt u.view (rootOf u.view) i = entryAt t.view (rootOf t.view) i := by
  rw [same.root]
  have hit := (listingBlock h.listing.legible inside).2
  rw [mappedFlat h.flat] at hit
  have direct : i/direntsPerBlock < fsIaddrDirectNr := by
    by_contra high
    rw [if_neg high] at hit
    exact hit rfl
  rw [if_pos direct] at hit
  have some : addrAt (rootOf t.view).iAddr (i/direntsPerBlock) ≠ 0 := by
    intro zero
    rw [zero] at hit
    exact hit rfl
  rw [entryAt,entryAt,rawAt,rawAt,mappedFlat h.flat,mappedFlat h.flat,if_pos direct,same.data _ direct some]

theorem namesSame (h : Rooted owed t) (same : SameRoot t u) (inum : BitVec 32) :
    names u.view (rootOf u.view) inum = names t.view (rootOf t.view) inum := by
  unfold names
  have count : entryCount (rootOf u.view) = entryCount (rootOf t.view) := by rw [same.root]
  rw [count]
  refine congrArg Finset.card (Finset.filter_congr fun i member => ?_)
  rw [entrySame h same (Finset.mem_range.mp member)]

theorem rootedSame (h : Rooted owed t) (e : Evolves t u) (same : SameRoot t u)
    (plain : ∀ inum, inum.toNat < (superOf t.view).sNinodes.toNat → inum ≠ rootIno → Plain t.view (stored u.view inum))
    (links : ∀ inum, inum.toNat < (superOf t.view).sNinodes.toNat → (stored u.view inum).iMode = fsImodeFile →
      (stored u.view inum).iNlink.toNat = names t.view (rootOf t.view) inum + if owed' = some inum then 1 else 0) :
    Rooted owed' u := by
  have count : entryCount (rootOf u.view) = entryCount (rootOf t.view) := by rw [same.root]
  refine ⟨?_,by rw [same.root]; exact h.flat,by rw [count]; exact h.short,by rw [same.root]; exact h.alive,?_,?_,?_,?_,?_,
    e.blank h.blank⟩
  · rw [same.root]
    exact listingEvolves h.listing h.flat e
  · intro i inside
    rw [count] at inside
    rw [entrySame h same inside]
    exact h.dots i inside
  · intro i inside
    rw [count] at inside
    rw [entrySame h same inside,e.super]
    intro live
    obtain ⟨numbered,bit⟩ := h.live i inside live
    exact ⟨numbered,e.bits _ numbered bit⟩
  · have root := h.listing.number
    exact ⟨e.bits _ (Nat.zero_lt_of_lt root) h.reserved.1,e.bits _ root h.reserved.2⟩
  · intro inum numbered other
    rw [e.super] at numbered
    exact plainSame e same (plain inum numbered other)
  · intro inum numbered mode
    rw [e.super] at numbered
    rw [namesSame h same]
    exact links inum numbered mode

theorem slotSame (e : Evolves t u) (same : SameRoot t u) (h : Slot t x) (record : stored u.view x.inum = stored t.view x.inum) :
    Slot u x := by
  refine ⟨h.device,by rw [e.super]; exact h.number,e.bits _ h.number h.bit,?_,?_,fun valid other => plainSame e same (h.file valid other)⟩
  · rw [record]
    exact h.same
  · rw [same.root]
    exact h.root

end Disk

section Stuck
variable {u : State} {ip : Nat}

theorem releaseSuper {dev b a} (start : 2 ≤ (superOf s.disk.view).bitmapStart)
    (ok : run diskLayer (releaseDataBlock dev b) s = .ok (a,u)) : superOf u.disk.view = superOf s.disk.view := by
  obtain ⟨_,_,_,_,_,rfl⟩ := runReleaseDataOk ok
  refine congrArg superblockAt (clearMapView ?_)
  have low : (superOf s.disk.view).bitmapStart ≤ mapBlock (superOf s.disk.view).bitmapStart b := Nat.le_add_right _ _
  rw [superBlockBlkNo]
  omega

theorem runSetAddrOk {k b : Nat} {a : Unit} (ok : run diskLayer (setAddr ip k b) s = .ok (a,u)) :
    ∃ h : k < fsIaddrNr, u = ⟨s.disk,s.mem.withInode ip ((s.mem.inode ip).withAddr ⟨k,h⟩ b)⟩ := by
  unfold setAddr at ok
  split at ok
  · cases ok
    exact ⟨by assumption,rfl⟩
  · cases ok

theorem addrWith {x : Inode} {j b : Nat} {n : Fin fsIaddrNr} (apart : j ≠ n) :
    addrAt (x.withAddr n b).iAddr j = addrAt x.iAddr j := by
  unfold addrAt
  split
  · rename_i inside
    have other : (⟨j,inside⟩ : Fin fsIaddrNr) ≠ n := fun e => apart (congrArg Fin.val e)
    simp [Inode.withAddr,other]
  · rfl

theorem freeDirectKeeps {rest i : Nat} {a : Unit} (start : 2 ≤ (superOf s.disk.view).bitmapStart)
    (ok : run diskLayer (freeDirect ip rest i) s = .ok (a,u)) :
    superOf u.disk.view = superOf s.disk.view ∧ ∀ j, i + rest ≤ j → addrAt (u.mem.inode ip).iAddr j = addrAt (s.mem.inode ip).iAddr j := by
  induction rest generalizing i s with
  | zero =>
    cases ok
    exact ⟨rfl,fun _ _ => rfl⟩
  | succ rest ih =>
    obtain ⟨x,v,get,ok⟩ := runCut ok
    cases get
    dsimp only at ok
    split at ok
    · obtain ⟨_,v,release,ok⟩ := runCut ok
      have super := releaseSuper start release
      obtain ⟨_,_,_,_,_,rfl⟩ := runReleaseDataOk release
      obtain ⟨_,w,clear,ok⟩ := runCut ok
      obtain ⟨slot,rfl⟩ := runSetAddrOk clear
      obtain ⟨same,kept⟩ := ih (by rw [super]; exact start) ok
      refine ⟨same.trans super,fun j above => (kept j (by omega)).trans ?_⟩
      simp only [Kernel.withInode,Function.update_self]
      exact addrWith (n := ⟨i,slot⟩) (by dsimp only; omega)
    · obtain ⟨same,kept⟩ := ih start ok
      exact ⟨same,fun j above => kept j (by omega)⟩

theorem freeIndexZero {i a} (zero : addrAt (s.mem.inode ip).iAddr (fsIaddrInDirectMin + i) = 0)
    (ok : run diskLayer (freeIndexBlock ip i) s = .ok (a,u)) :
    ∃ v, run diskLayer (releaseDataBlock (s.mem.inode ip).iDev 0) s = .ok ((),v) ∧
      run diskLayer (setAddr ip (fsIaddrInDirectMin + i) 0) v = .ok (a,u) := by
  obtain ⟨x,v,get,ok⟩ := runCut ok
  cases get
  rw [zero] at ok
  obtain ⟨_,v,release,ok⟩ := runCut ok
  exact ⟨v,release,ok⟩

theorem truncateStuck {a : Unit} (start : 2 ≤ (superOf s.disk.view).bitmapStart)
    (first : addrAt (s.mem.inode ip).iAddr fsIaddrInDirectMin = 0)
    (second : addrAt (s.mem.inode ip).iAddr (fsIaddrInDirectMin + 1) = 0) : run diskLayer (inodeTruncate ip) s ≠ .ok (a,u) := by
  intro ok
  obtain ⟨_,v,direct,ok⟩ := runCut ok
  obtain ⟨super,kept⟩ := freeDirectKeeps start direct
  have first := (kept fsIaddrInDirectMin (by decide)).trans first
  have second := (kept (fsIaddrInDirectMin+1) (by decide)).trans second
  rw [← super] at start
  obtain ⟨_,w,indirect,ok⟩ := runCut ok
  obtain ⟨_,x,one,indirect⟩ := runCut indirect
  obtain ⟨y,release,clear⟩ := freeIndexZero (i := 0) first one
  have again := releaseSuper start release
  obtain ⟨_,_,_,reach,_,rfl⟩ := runReleaseDataOk release
  obtain ⟨slot,rfl⟩ := runSetAddrOk clear
  obtain ⟨_,y,two,indirect⟩ := runCut indirect
  obtain ⟨z,release,clear⟩ := freeIndexZero (i := 1) (by
    simp only [Kernel.withInode,Function.update_self]
    exact (addrWith (n := ⟨fsIaddrInDirectMin+0,slot⟩) (Nat.succ_ne_self _)).trans second) two
  obtain ⟨_,_,_,_,bit,_⟩ := runReleaseDataOk release
  dsimp only at bit again
  rw [again,clearMapBits reach] at bit
  simp at bit

end Stuck

structure Held (s : State) (i : Nat) (inum : BitVec 32) : Prop where
  used : 0 < (s.mem.inode i).ref
  valid : (s.mem.inode i).valid = true
  number : (s.mem.inode i).inum = inum

def Stays (s u : State) : Prop := ∀ i inum, Held s i inum → Held u i inum

section Cache
variable {u : State} {k : Kernel}

theorem rootedTables (h : Rooted owed t) : Tables (superOf t.view) t := listingTables h.listing

theorem rootedStart (h : Rooted owed t) : 2 ≤ (superOf t.view).bitmapStart := (tablesLong (rootedTables h)).1

theorem slotRoot (h : Slot t x) (valid : x.valid = true) (root : x.inum = rootIno) : content x = rootOf t.view := by
  have same := h.same valid
  have addr : x.iAddr = (stored t.view x.inum).iAddr := by
    rw [root]
    exact h.root valid root
  rw [← addr] at same
  rw [rootOf,← root]
  exact same

theorem listingContent (h : Listing t (content x)) : Listing t x :=
  ⟨legibleSame h.legible rfl rfl rfl rfl,h.number,h.index⟩

theorem slotListing (h : Rooted owed t) (slot : Slot t x) (valid : x.valid = true) (root : x.inum = rootIno) : Listing t x := by
  apply listingContent
  rw [slotRoot slot valid root]
  exact h.listing

theorem slotMode (slot : Slot t x) (valid : x.valid = true) :
    x.iMode = (stored t.view x.inum).iMode ∧ x.iNlink = (stored t.view x.inum).iNlink ∧ x.iSize = (stored t.view x.inum).iSize := by
  rw [← slot.same valid]
  exact ⟨rfl,rfl,rfl⟩

theorem slotDirectory (slot : Slot t x) (valid : x.valid = true) (mode : x.iMode = fsImodeDir) : x.inum = rootIno := by
  by_contra other
  exact (slot.file valid other).mode mode

theorem slotChange (h : Slot t x) (content : content y = content x) (valid : y.valid = true → x.valid = true) : Slot t y := by
  obtain ⟨inum,ref,busy,loaded,mode,dev,rdev,nlink,size,addr⟩ := x
  obtain ⟨inum',ref',busy',loaded',mode',dev',rdev',nlink',size',addr'⟩ := y
  cases content
  exact ⟨h.device,h.number,h.bit,fun v => h.same (valid v),fun v => h.root (valid v),fun v other =>
    ⟨(h.file (valid v) other).mode,(h.file (valid v) other).size,(h.file (valid v) other).addr⟩⟩

theorem cachedWith (h : Cached t k) {v} (others : ∀ j, j ≠ i → 0 < (k.inode j).ref → Slot v (k.inode j))
    (inside : 0 < y.ref → i < ninode) (slot : 0 < y.ref → Slot v y)
    (unique : 0 < y.ref → ∀ j, j ≠ i → 0 < (k.inode j).ref → (k.inode j).inum ≠ y.inum) : Cached v (k.withInode i y) := by
  have here : (k.withInode i y).inode i = y := by simp [Kernel.withInode]
  have other : ∀ j, j ≠ i → (k.withInode i y).inode j = k.inode j := fun j apart => by simp [Kernel.withInode,apart]
  refine ⟨fun j used => ?_,fun j used => ?_,fun j l left right same => ?_⟩
  · by_cases e : j = i
    · subst e
      rw [here] at used
      exact inside used
    · rw [other j e] at used
      exact h.inside j used
  · by_cases e : j = i
    · subst e
      rw [here] at used ⊢
      exact slot used
    · rw [other j e] at used ⊢
      exact others j e used
  · by_cases e : j = i
    · by_cases f : l = i
      · rw [e,f]
      · subst e
        rw [here] at left same
        rw [other l f] at right same
        exact absurd same.symm (unique left l f right)
    · by_cases f : l = i
      · subst f
        rw [here] at right same
        rw [other j e] at left same
        exact absurd same (unique right j e left)
      · rw [other j e] at left same
        rw [other l f] at right same
        exact h.unique j l left right same

theorem cachedKeep (h : Cached t k) {v} (others : ∀ j, j ≠ i → 0 < (k.inode j).ref → Slot v (k.inode j))
    (used : 0 < y.ref → 0 < (k.inode i).ref) (number : y.inum = (k.inode i).inum) (slot : 0 < y.ref → Slot v y) :
    Cached v (k.withInode i y) := by
  refine cachedWith h others (fun some => h.inside i (used some)) slot fun some j apart active same => ?_
  rw [number] at same
  exact apart (h.unique j i active (used some) same)

theorem staysWith (used : 0 < (s.mem.inode i).ref → 0 < y.ref)
    (valid : 0 < (s.mem.inode i).ref → (s.mem.inode i).valid = true → y.valid = true)
    (number : 0 < (s.mem.inode i).ref → y.inum = (s.mem.inode i).inum) : Stays s ⟨t,s.mem.withInode i y⟩ := by
  intro j inum held
  by_cases e : j = i
  · subst e
    have here : (s.mem.withInode j y).inode j = y := by simp [Kernel.withInode]
    refine ⟨?_,?_,?_⟩
    all_goals rw [here]
    · exact used held.used
    · exact valid held.used held.valid
    · exact (number held.used).trans held.number
  · have other : (s.mem.withInode i y).inode j = s.mem.inode j := by simp [Kernel.withInode,e]
    refine ⟨?_,?_,?_⟩
    all_goals rw [other]
    · exact held.used
    · exact held.valid
    · exact held.number

theorem getSound (h : Sound owed s) (numbered : inum.toNat < (superOf s.disk.view).sNinodes.toNat)
    (bit : inodeBit s.disk.view inum = true) (ok : run diskLayer (inodeGet devRoot inum) s = .ok (i,u)) :
    Sound owed u ∧ u.disk = s.disk ∧ (u.mem.inode i).inum = inum ∧ Stays s u := by
  obtain ⟨y,found,rfl⟩ := runInodeGetOk ok
  have gotten := slotForGotten found
  have here : (s.mem.withInode i y).inode i = y := by simp [Kernel.withInode]
  have number := gotten.number
  refine ⟨⟨h.disk,?_⟩,rfl,by rw [here]; exact number,?_⟩
  · rcases gotten.origin with ⟨used,rfl⟩ | ⟨free,_,invalid,absent⟩
    · exact cachedKeep h.cache (fun j _ => h.cache.slot j) (fun _ => used) rfl fun _ => slotChange (h.cache.slot i used) rfl id
    · refine cachedWith h.cache (fun j _ => h.cache.slot j) (fun _ => gotten.inside) (fun _ => ?_) fun _ j _ used same => ?_
      · refine ⟨gotten.device,by rw [number]; exact numbered,by rw [number]; exact bit,fun v => ?_,fun v => ?_,fun v => ?_⟩
        all_goals
          rw [invalid] at v
          cases v
      · rw [number] at same
        exact absent j (h.cache.inside j used) used (h.cache.slot j used).device same
  · rcases gotten.origin with ⟨used,rfl⟩ | ⟨free,_⟩
    · exact staysWith (fun _ => by simp only; omega) (fun _ => id) (fun _ => rfl)
    · have never : ¬ 0 < (s.mem.inode i).ref := by omega
      exact staysWith (fun used => absurd used never) (fun used => absurd used never) (fun used => absurd used never)

theorem putUnlinked {a} (h : Sound owed s)
    (last : (s.mem.inode i).ref = 1 ∧ (s.mem.inode i).valid = true ∧ (s.mem.inode i).iNlink = 0) :
    run diskLayer (inodePut i) s ≠ .ok (a,u) := by
  intro ok
  obtain ⟨x,v,get,ok⟩ := runCut ok
  cases get
  rw [if_pos last] at ok
  obtain ⟨one,valid,none⟩ := last
  obtain ⟨_,v,assertion,ok⟩ := runCut ok
  rw [(runKassertOk assertion).2] at ok
  obtain ⟨_,w,edit,ok⟩ := runCut ok
  cases edit
  obtain ⟨_,w,truncate,_⟩ := runCut ok
  have slot := h.cache.slot i (by omega)
  have other : (s.mem.inode i).inum ≠ rootIno := by
    intro root
    refine h.disk.alive ?_
    rw [← slotRoot slot valid root]
    exact none
  have zero : ∀ n, fsIaddrDirectNr ≤ n → addrAt (s.mem.inode i).iAddr n = 0 := by
    intro n high
    by_contra some
    have := ((slot.file valid other).addr n some).1
    omega
  refine truncateStuck ?_ ?_ ?_ truncate
  · exact rootedStart h.disk
  all_goals
    simp only [Kernel.withInode,Function.update_self]
    exact zero _ (by decide)

theorem putSound {a} (h : Sound owed s) (ok : run diskLayer (inodePut i) s = .ok (a,u)) :
    Sound owed u ∧ u.disk = s.disk ∧ ∀ j inum, j ≠ i → Held s j inum → Held u j inum := by
  have keep : ¬ ((s.mem.inode i).ref = 1 ∧ (s.mem.inode i).valid = true ∧ (s.mem.inode i).iNlink = 0) := fun last => putUnlinked h last ok
  have ran := runPutKeep (t := s.disk) keep
  rw [show (⟨s.disk,s.mem⟩ : State) = s from rfl,ok] at ran
  cases ran
  refine ⟨⟨h.disk,cachedKeep h.cache (fun j _ => h.cache.slot j) (fun some => by simp only at some; omega) rfl fun some => ?_⟩,rfl,
    fun j inum apart held => ?_⟩
  · exact slotChange (h.cache.slot i (by simp only at some; omega)) rfl id
  · have other : (s.mem.withInode i {s.mem.inode i with ref := (s.mem.inode i).ref - 1}).inode j = s.mem.inode j := by
      simp [Kernel.withInode,apart]
    exact ⟨by rw [other]; exact held.used,by rw [other]; exact held.valid,by rw [other]; exact held.number⟩

def locked (view : Nat → Block) (x : Inode) : Inode :=
  if x.valid then {x with busy := true} else ({x with busy := true}).load (diskInode view x.inum)

theorem runInodeLock (super : Idle t superBlockBlkNo) (block : Idle t (inodeBlock (superOf t.view) (k.inode i).inum))
    (used : 0 < (k.inode i).ref) (idle : (k.inode i).busy = false) (root : (k.inode i).iDev.toNat = rootDev) :
    run diskLayer (inodeLock i) ⟨t,k⟩ = .ok ((),⟨t,k.withInode i (locked t.view (k.inode i))⟩) := by
  simp only [inodeLock,getInode,editInode,runBind,runMemory,runPure,followOk,kassert,if_pos used,idle,Bool.false_eq_true,if_false,
    runSetMemory]
  cases valid : (k.inode i).valid with
  | true => simp [locked,valid]
  | false =>
    simp only [Bool.not_false,if_true,runBind,runSuperblock root super,followOk,runReadDiskInode root super block,runData,
      runRelease block.free _ rfl,runMemory,runSetMemory]
    simp [Kernel.withInode,locked,valid,diskInode]

theorem lockOk {a} (h : Sound owed s) (ok : run diskLayer (inodeLock i) s = .ok (a,u)) :
    0 < (s.mem.inode i).ref ∧ (s.mem.inode i).busy = false ∧
      u = ⟨s.disk,s.mem.withInode i (locked s.disk.view (s.mem.inode i))⟩ := by
  obtain ⟨x,v,get,rest⟩ := runCut ok
  cases get
  obtain ⟨_,v,assertion,rest⟩ := runCut rest
  obtain ⟨used,_⟩ := runKassertOk assertion
  have idle : (s.mem.inode i).busy = false := by
    cases busy : (s.mem.inode i).busy with
    | false => rfl
    | true =>
      rw [busy] at rest
      cases rest
  have slot := h.cache.slot i used
  have tables := rootedTables h.disk
  have ran := runInodeLock (k := s.mem) (tablesSuper tables) (tablesInode tables slot.number) used idle (by rw [slot.device]; exact devRootNat)
  rw [show (⟨s.disk,s.mem⟩ : State) = s from rfl,ok] at ran
  cases ran
  exact ⟨used,idle,rfl⟩

theorem lockedSlot (h : Rooted owed t) (slot : Slot t x) : Slot t (locked t.view x) := by
  unfold locked
  split
  · exact slotChange slot rfl id
  · obtain ⟨inum,ref,busy,loaded,mode,dev,rdev,nlink,size,addr⟩ := x
    obtain rfl : dev = devRoot := slot.device
    refine ⟨rfl,slot.number,slot.bit,fun _ => rfl,fun _ root => ?_,fun _ other => ?_⟩
    · obtain rfl : inum = rootIno := root
      rfl
    · have plain := h.plain inum slot.number other
      exact ⟨plain.mode,plain.size,plain.addr⟩

theorem lockedKeeps (view : Nat → Block) (x : Inode) :
    (locked view x).ref = x.ref ∧ (locked view x).inum = x.inum ∧ (locked view x).valid = true := by
  unfold locked
  split
  · exact ⟨rfl,rfl,by assumption⟩
  · exact ⟨rfl,rfl,rfl⟩

theorem lockSound {a} (h : Sound owed s) (ok : run diskLayer (inodeLock i) s = .ok (a,u)) :
    Sound owed u ∧ u.disk = s.disk ∧ Held u i (s.mem.inode i).inum ∧ Stays s u := by
  obtain ⟨used,_,rfl⟩ := lockOk h ok
  obtain ⟨ref,number,valid⟩ := lockedKeeps s.disk.view (s.mem.inode i)
  have here : (s.mem.withInode i (locked s.disk.view (s.mem.inode i))).inode i = locked s.disk.view (s.mem.inode i) := by
    simp [Kernel.withInode]
  refine ⟨⟨h.disk,cachedKeep h.cache (fun j _ => h.cache.slot j) (fun _ => used) number fun _ =>
    lockedSlot h.disk (h.cache.slot i used)⟩,rfl,?_,?_⟩
  · exact ⟨by rw [here,ref]; exact used,by rw [here]; exact valid,by rw [here]; exact number⟩
  · exact staysWith (fun used => by rw [ref]; exact used) (fun _ _ => valid) (fun _ => number)

theorem editSound (h : Sound owed s) (same : content y = content (s.mem.inode i)) (ref : y.ref = (s.mem.inode i).ref)
    (valid : y.valid = (s.mem.inode i).valid) : Sound owed ⟨s.disk,s.mem.withInode i y⟩ ∧ Stays s ⟨s.disk,s.mem.withInode i y⟩ := by
  have number : y.inum = (s.mem.inode i).inum := by
    change (content y).inum = (content (s.mem.inode i)).inum
    rw [same]
  refine ⟨⟨h.disk,cachedKeep h.cache (fun j _ => h.cache.slot j) (fun some => by rw [← ref]; exact some) number fun some => ?_⟩,?_⟩
  · exact slotChange (h.cache.slot i (by rw [← ref]; exact some)) same (fun v => by rw [← valid]; exact v)
  · exact staysWith (fun used => by rw [ref]; exact used) (fun _ v => by rw [valid]; exact v) (fun _ => number)

theorem unlockSound {a} (h : Sound owed s) (ok : run diskLayer (inodeUnlock i) s = .ok (a,u)) :
    Sound owed u ∧ u.disk = s.disk ∧ Stays s u := by
  obtain ⟨x,v,get,ok⟩ := runCut ok
  cases get
  obtain ⟨_,v,assertion,ok⟩ := runCut ok
  rw [(runKassertOk assertion).2] at ok
  cases ok
  obtain ⟨sound,stays⟩ := editSound (i := i) (y := {s.mem.inode i with busy := false}) h rfl rfl rfl
  exact ⟨sound,rfl,stays⟩

end Cache

section Tables
variable {u : Disk}

theorem rootedData (h : Rooted owed t) {j} (inside : j < (superOf t.view).sNblocks.toNat) :
    tablesEnd (superOf t.view) ≤ (superOf t.view).sFirstdataBlock.toNat + j := by
  have apart := h.listing.mapping.layout.apart j inside
  have := h.listing.mapping.positive
  omega

theorem evolvesKeep (h : Rooted owed t) (size : u.size = t.size) (held : u.held = t.held) (super : superOf u.view = superOf t.view)
    (maps : ∀ c, (superOf t.view).bitmapStart ≤ c → c < (superOf t.view).inodeStart → u.view c = t.view c)
    (data : ∀ c, tablesEnd (superOf t.view) ≤ c → u.view c = t.view c)
    (bits : ∀ inum, inum.toNat < (superOf t.view).sNinodes.toNat → inodeBit t.view inum = true → inodeBit u.view inum = true) :
    Evolves t u := by
  have layout := h.listing.mapping.layout
  have same : ∀ j < (superOf t.view).sNblocks.toNat, dataBit u.view j = dataBit t.view j := by
    intro j inside
    have map := bitmapBlock layout (show j < _ by have := layout.blockMap; omega)
    rw [dataBit,dataBit,super]
    exact congrArg (fun d => bitAt d (j%bitsPerBlock)) (maps _ (Nat.le_add_right _ _) map.2)
  refine ⟨size,held,super,bits,?_,?_⟩
  · rintro b ⟨j,inside,place,bit⟩
    exact ⟨j,by rw [super]; exact inside,by rw [super]; exact place,by rw [same j inside]; exact bit⟩
  · intro blank j inside clear
    rw [super] at inside ⊢
    rw [same j inside] at clear
    rw [data _ (rootedData h inside)]
    exact blank j inside clear

theorem sameRootKeep (h : Rooted owed t) (root : rootOf u.view = rootOf t.view)
    (data : ∀ c, tablesEnd (superOf t.view) ≤ c → u.view c = t.view c) : SameRoot t u := by
  refine ⟨root,fun n direct some => data _ ?_⟩
  have hit : mapped t.view (rootOf t.view) n ≠ 0 := by
    rw [mappedFlat h.flat,if_pos direct]
    intro zero
    exact some (BitVec.eq_of_toNat_eq (by simpa using zero))
  have high := listingData h.listing (Nat.lt_of_lt_of_le direct (by decide)) hit
  rwa [mappedFlat h.flat,if_pos direct] at high

theorem imapBlock (h : Rooted owed t) (numbered : inum.toNat < (superOf t.view).sNinodes.toNat) :
    2 ≤ mapBlock (resvBlockNr + superBlockBlkNr) inum.toNat ∧
      mapBlock (resvBlockNr + superBlockBlkNr) inum.toNat < (superOf t.view).bitmapStart := by
  have layout := h.listing.mapping.layout
  have := layout.inodeMap
  rw [bitmapStartNat layout,mapBlock]
  simp only [resvBlockNr,superBlockBlkNr,bitsPerBlock,bsize] at this ⊢
  omega

theorem recordEvolves (h : Rooted owed t) (other : inum ≠ rootIno) (numbered : inum.toNat < (superOf t.view).sNinodes.toNat) {d}
    (kept : ∀ m, m ≠ inum → diskInode (t.store (inodeBlock (superOf t.view) inum) d).view m = diskInode t.view m) :
    Evolves t (t.store (inodeBlock (superOf t.view) inum) d) ∧ SameRoot t (t.store (inodeBlock (superOf t.view) inum) d) := by
  have start := inodeStartNat h.listing.mapping.layout
  have map := bitmapStartNat h.listing.mapping.layout
  have low : (superOf t.view).inodeStart ≤ inodeBlock (superOf t.view) inum := Nat.le_add_right _ _
  have high := inodeBlockTable numbered
  have view : ∀ c, c ≠ inodeBlock (superOf t.view) inum → (t.store (inodeBlock (superOf t.view) inum) d).view c = t.view c :=
    fun c apart => by simp [Disk.store,apart]
  constructor
  · refine evolvesKeep h rfl rfl ?_ (fun c _ below => view c (by omega)) (fun c above => view c (by omega)) fun m numbered bit => ?_
    · exact congrArg superblockAt (view _ (by rw [superBlockBlkNo]; omega))
    · rw [← bit]
      have place := imapBlock h numbered
      exact congrArg (fun d => bitAt d (m.toNat%bitsPerBlock)) (view (mapBlock (resvBlockNr + superBlockBlkNr) m.toNat) (by omega))
  · refine sameRootKeep h ?_ fun c above => view c (by omega)
    rw [rootOf,stored,kept rootIno (Ne.symm other)]
    rfl

theorem putEvolves (h : Rooted owed t) (other : inum ≠ rootIno) (numbered : inum.toNat < (superOf t.view).sNinodes.toNat) (d : DInode) :
    Evolves t (putInode t (superOf t.view) inum d) ∧ SameRoot t (putInode t (superOf t.view) inum d) :=
  recordEvolves h other numbered fun _ apart => diskInodePutOther (rootedTables h) d apart

theorem storedPut (h : Rooted owed t) (inum : BitVec 32) (d : DInode) :
    stored (putInode t (superOf t.view) inum d).view inum = ({emptyInode with inum := inum, iDev := devRoot}).load d := by
  rw [stored,diskInodePut (rootedTables h)]

theorem storedOther (h : Rooted owed t) (d : DInode) {m} (apart : m ≠ inum) :
    stored (putInode t (superOf t.view) inum d).view m = stored t.view m := by
  rw [stored,diskInodePutOther (rootedTables h) _ apart]
  rfl

theorem updateSound (h : Sound owed s) (held : Held s i inum) (other : inum ≠ rootIno) (number : y.inum = inum)
    (device : y.iDev = devRoot) (ref : y.ref = (s.mem.inode i).ref) (valid : y.valid = true) (plain : Plain s.disk.view y)
    (debts : ∀ m, m ≠ inum → (owed' = some m ↔ owed = some m))
    (count : y.iMode = fsImodeFile →
      y.iNlink.toNat = names s.disk.view (rootOf s.disk.view) inum + if owed' = some inum then 1 else 0) :
    Sound owed' ⟨putInode s.disk (superOf s.disk.view) inum (diskCopy y),s.mem.withInode i y⟩ ∧
      Stays s ⟨putInode s.disk (superOf s.disk.view) inum (diskCopy y),s.mem.withInode i y⟩ ∧
      Evolves s.disk (putInode s.disk (superOf s.disk.view) inum (diskCopy y)) := by
  have slot := h.cache.slot i held.used
  have numbered := slot.number
  have bit := slot.bit
  rw [held.number] at numbered bit
  obtain ⟨evolves,same⟩ := putEvolves h.disk other numbered (diskCopy y)
  have mine := storedPut h.disk inum (diskCopy y)
  refine ⟨⟨?_,?_⟩,?_,evolves⟩
  · refine rootedSame h.disk evolves same (fun m numbered apart => ?_) fun m numbered mode => ?_
    · by_cases e : m = inum
      · subst e
        rw [mine]
        exact ⟨plain.mode,plain.size,plain.addr⟩
      · rw [storedOther h.disk _ e]
        exact h.disk.plain m numbered apart
    · by_cases e : m = inum
      · subst e
        rw [mine] at mode ⊢
        exact count mode
      · rw [storedOther h.disk _ e] at mode ⊢
        rw [h.disk.links m numbered mode]
        simp only [debts m e]
  · refine cachedKeep h.cache (fun j apart used => ?_) (fun _ => held.used) (number.trans held.number.symm) fun used => ?_
    · have different : (s.mem.inode j).inum ≠ inum :=
        fun e => apart (h.cache.unique j i used held.used (e.trans held.number.symm))
      exact slotSame evolves same (h.cache.slot j used) (storedOther h.disk _ different)
    · refine ⟨device,by rw [evolves.super,number]; exact numbered,?_,fun _ => ?_,fun _ root => ?_,fun _ _ => plainSame evolves same plain⟩
      · rw [number]
        exact evolves.bits _ numbered bit
      · rw [number,mine]
        obtain ⟨inum',ref',busy',loaded',mode',dev',rdev',nlink',size',addr'⟩ := y
        cases number
        cases device
        rfl
      · exact absurd (number.symm.trans root) other
  · exact staysWith (fun used => by rw [ref]; exact used) (fun _ _ => valid) (fun _ => number.trans held.number.symm)

theorem mapEvolves (h : Rooted owed t) (numbered : inum.toNat < (superOf t.view).sNinodes.toNat) (reach : reachable inum.toNat) :
    Evolves t (setMapBit t (resvBlockNr + superBlockBlkNr) inum.toNat) ∧
      SameRoot t (setMapBit t (resvBlockNr + superBlockBlkNr) inum.toNat) ∧
      inodeBit (setMapBit t (resvBlockNr + superBlockBlkNr) inum.toNat).view inum = true ∧
      ∀ m, m.toNat < (superOf t.view).sNinodes.toNat →
        diskInode (setMapBit t (resvBlockNr + superBlockBlkNr) inum.toNat).view m = diskInode t.view m := by
  have start := inodeStartNat h.listing.mapping.layout
  have map := bitmapStartNat h.listing.mapping.layout
  have place := imapBlock h numbered
  have super : superOf (setMapBit t (resvBlockNr + superBlockBlkNr) inum.toNat).view = superOf t.view :=
    congrArg superblockAt (setMapView (by rw [superBlockBlkNo]; omega))
  have records : ∀ m, m.toNat < (superOf t.view).sNinodes.toNat →
      diskInode (setMapBit t (resvBlockNr + superBlockBlkNr) inum.toNat).view m = diskInode t.view m := by
    intro m _
    have low : (superOf t.view).inodeStart ≤ inodeBlock (superOf t.view) m := Nat.le_add_right _ _
    exact diskInodeAgree super (setMapView (by omega))
  have long : (superOf t.view).inodeStart ≤ tablesEnd (superOf t.view) := Nat.le_add_right _ _
  refine ⟨?_,?_,?_,records⟩
  · refine evolvesKeep h rfl rfl super (fun c above _ => setMapView (by omega)) (fun c above => setMapView (by omega)) fun m _ bit => ?_
    unfold inodeBit at bit ⊢
    rw [setMapBits reach,bit,Bool.or_true]
  · refine sameRootKeep h ?_ fun c above => setMapView (by omega)
    rw [rootOf,stored,records rootIno h.listing.number]
    rfl
  · rw [inodeBit,setMapBits reach]
    simp

theorem takenTables (h : Rooted owed t) {b} (taken : Taken t.view b) : tablesEnd (superOf t.view) ≤ b := by
  obtain ⟨j,inside,rfl,_⟩ := taken
  exact rootedData h inside

theorem allocatedEvolves (h : Rooted owed t) {f : Nat} (bound : f < (superOf t.view).sNblocks.toNat) (reach : reachable f) :
    Evolves t (allocated t f) := by
  have layout := h.listing.mapping.layout
  have super := allocatedSuper layout bound
  refine ⟨rfl,rfl,super,fun m numbered bit => ?_,fun b => takenAllocated layout bound reach,fun blank j inside clear => ?_⟩
  · have place := imapBlock h numbered
    have start := inodeStartNat layout
    have map := bitmapStartNat layout
    have long : (superOf t.view).inodeStart ≤ tablesEnd (superOf t.view) := Nat.le_add_right _ _
    have block := bitmapBlock layout (show f < _ by have := layout.blockMap; omega)
    have low : (superOf t.view).bitmapStart ≤ mapBlock (superOf t.view).bitmapStart f := Nat.le_add_right _ _
    rw [← bit]
    refine congrArg (fun d => bitAt d (m.toNat%bitsPerBlock)) ?_
    change (allocated t f).view (mapBlock (resvBlockNr + superBlockBlkNr) m.toNat) = t.view _
    rw [allocatedView layout bound (by omega) (by omega),setMapView (by omega)]
    rfl
  · rw [super] at inside ⊢
    rw [allocatedBit layout bound reach (by have := layout.blockMap; omega)] at clear
    simp only [Bool.or_eq_false_iff,decide_eq_false_iff_not] at clear
    rw [allocatedData layout bound inside (fun e => clear.1 e.symm)]
    exact blank j inside clear.2

theorem storeEvolves (h : Rooted owed t) (e : Evolves t u) {v b} (taken : Taken u.view b)
    (size : v.size = u.size) (held : v.held = u.held)
    (view : ∀ c, c ≠ b → c < (superOf t.view).inodeStart ∨ tablesEnd (superOf t.view) ≤ c → v.view c = u.view c) : Evolves u v := by
  have layout := h.listing.mapping.layout
  have start := inodeStartNat layout
  have map := bitmapStartNat layout
  have long : (superOf t.view).inodeStart ≤ tablesEnd (superOf t.view) := Nat.le_add_right _ _
  have high : tablesEnd (superOf t.view) ≤ b := by
    obtain ⟨j,inside,rfl,_⟩ := taken
    rw [e.super] at inside ⊢
    exact rootedData h inside
  have super : superOf v.view = superOf u.view :=
    congrArg superblockAt (view _ (by rw [superBlockBlkNo]; omega) (Or.inl (by rw [superBlockBlkNo]; omega)))
  have bits : ∀ j < (superOf t.view).sNblocks.toNat, dataBit v.view j = dataBit u.view j := by
    intro j inside
    have block := bitmapBlock layout (show j < _ by have := layout.blockMap; omega)
    rw [dataBit,dataBit,super,e.super]
    exact congrArg (fun d => bitAt d (j%bitsPerBlock)) (view (mapBlock (superOf t.view).bitmapStart j) (by omega) (Or.inl block.2))
  refine ⟨size,held,super,fun m numbered bit => ?_,?_,fun blank j inside clear => ?_⟩
  · rw [e.super] at numbered
    have place := imapBlock h numbered
    rw [← bit]
    exact congrArg (fun d => bitAt d (m.toNat%bitsPerBlock))
      (view (mapBlock (resvBlockNr + superBlockBlkNr) m.toNat) (by omega) (Or.inl (by omega)))
  · rintro c ⟨j,inside,place,bit⟩
    have inside' := inside
    rw [e.super] at inside'
    exact ⟨j,by rw [super]; exact inside,by rw [super]; exact place,by rw [bits j inside']; exact bit⟩
  · rw [super] at inside ⊢
    have inside' := inside
    rw [e.super] at inside'
    rw [bits j inside'] at clear
    have apart : (superOf u.view).sFirstdataBlock.toNat + j ≠ b := by
      rintro rfl
      obtain ⟨l,_,place,bit⟩ := taken
      have : l = j := by omega
      rw [this,clear] at bit
      cases bit
    rw [view _ apart (Or.inr (by rw [e.super]; exact rootedData h inside'))]
    exact blank j inside clear

end Tables
end TskSw.FsTree
