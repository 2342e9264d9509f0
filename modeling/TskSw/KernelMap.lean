import Mathlib.Algebra.Group.Nat.Defs
import Mathlib.Data.List.Dedup
import TskSw.RadixTable

/-! `map_kernel_page` of both HALs: three levels of page tables over 2 MiB pages. The
kernel reaches a table through a pointer, the entries hold physical addresses; `mmu` is
the translation in force while the tables are built. -/
namespace TskSw.KernelMap
open RadixTable

abbrev Index := BitVec 9

abbrev Tables := BitVec 64 → Index → BitVec 64

structure Hal where
  vmaBase : BitVec 64
  indexed : BitVec 64 → BitVec 64
  presentMask : BitVec 64
  tableBits : BitVec 64
  entAddr : BitVec 64 → BitVec 64
  accepts : BitVec 64 → Bool
  attrMask : BitVec 64
  leafBits : BitVec 64
  tableMask : BitVec 64
  frameMask : BitVec 64

def pageStart (a : BitVec 64) : BitVec 64 := a &&& ~~~0xfff

def straightPageStart (a : BitVec 64) : BitVec 64 := a &&& ~~~0x1fffff

def sbrkFailed : BitVec 64 := -1

def x64 (vmaBase : BitVec 64) : Hal where
  vmaBase
  indexed vaddr := vaddr
  presentMask := 1
  tableBits := 1
  entAddr ent := pageStart ent
  accepts page := page ≠ sbrkFailed ∧ page ≠ 0
  attrMask := 0xfff
  leafBits := 1 ||| 0x80
  tableMask := 0x000ffffffffff000
  frameMask := 0x000fffffffe00000

def blkAttrMask : BitVec 64 := (0x3ff <<< 2) ||| (0xfff <<< 51)

def aarch64 (vmaBase : BitVec 64) : Hal where
  vmaBase
  indexed vaddr := vaddr - vmaBase
  presentMask := 3
  tableBits := 0x40 ||| 3
  entAddr ent := pageStart ent &&& ~~~blkAttrMask
  accepts page := page ≠ sbrkFailed ∧ page &&& 0xfff = 0 ∧ page ≠ 0
  attrMask := blkAttrMask
  leafBits := 1
  tableMask := 0x0000fffffffff000
  frameMask := 0x0000ffffffe00000

def index (shift : Nat) (vaddr : BitVec 64) : Index := ((vaddr >>> shift) &&& 0x1ff).setWidth 9

structure State where
  tables : Tables
  heap : List (BitVec 64)

variable (h : Hal) (mmu : BitVec 64 → BitVec 64)

def level (s : State) (tbl : BitVec 64) (i : Index) : Option (State × BitVec 64) :=
  let ent := s.tables (mmu tbl) i
  if ent &&& h.presentMask = 0 then
    match s.heap with
    | [] => none
    | page :: heap =>
      if h.accepts page then
        let tables := clear s.tables (mmu page) 0
        let addr := page - h.vmaBase
        some ({ tables := put tables (mmu tbl) i (addr ||| h.tableBits),heap },addr + h.vmaBase)
      else none
  else some (s,h.entAddr ent + h.vmaBase)

def mapKernelPage (kpgtbl : BitVec 64) (s : State) (paddr vaddr attr : BitVec 64) : Option State := do
  let vaddr := h.indexed vaddr
  let (s,pdp) ← level h mmu s kpgtbl (index 39 vaddr)
  let (s,pdir) ← level h mmu s pdp (index 30 vaddr)
  if s.tables (mmu pdir) (index 21 vaddr) &&& h.presentMask = 0 then
    let leaf := straightPageStart paddr ||| (attr &&& h.attrMask) ||| h.leafBits
    some { s with tables := put s.tables (mmu pdir) (index 21 vaddr) leaf }
  else none

structure Call where
  paddr : BitVec 64
  vaddr : BitVec 64
  attr : BitVec 64

def mapPages (kpgtbl : BitVec 64) : State → List Call → Option State
  | s,[] => some s
  | s,call :: calls => do
    let s ← mapKernelPage h mmu kpgtbl s call.paddr call.vaddr call.attr
    mapPages kpgtbl s calls

def coding : Coding (BitVec 64) (BitVec 64) where
  present ent := ent &&& h.presentMask ≠ 0
  next ent := ent &&& h.tableMask
  entry addr := addr ||| h.tableBits
  empty := 0

def path (vaddr : BitVec 64) : List Index :=
  [index 39 (h.indexed vaddr),index 30 (h.indexed vaddr),index 21 (h.indexed vaddr)]

def walkTables (t : Tables) (root vaddr : BitVec 64) : BitVec 64 := walk (coding h) t root (path h vaddr)

def pageBits (vaddr : BitVec 64) : BitVec 27 := (h.indexed vaddr).extractLsb' 21 27

variable {x b m M tbl : BitVec 64} {needs : List (List Index)} {s : State} {i : Index}

section

theorem orMasked (x b m : BitVec 64) : (x ||| b) &&& m = (x &&& m) ||| (b &&& m) := by
  ext i hi
  simp [Bool.and_or_distrib_right]

theorem maskKeeps (inside : x &&& M = x) (sub : M &&& m = M) : x &&& m = x := by
  rw [← inside,BitVec.and_assoc,sub]

theorem maskDrops (inside : x &&& M = x) (apart : M &&& m = 0) : x &&& m = 0 := by
  rw [← inside,BitVec.and_assoc,apart]
  simp

theorem alignedMask {lo} (bits : ∀ i < 64, M.getLsbD i = decide (lo ≤ i ∧ i < 48)) (aligned : 2^lo ∣ x.toNat)
    (small : x.toNat < 2^48) : x &&& M = x := by
  apply BitVec.eq_of_getLsbD_eq
  intro i hi
  rw [BitVec.getLsbD_and,bits i hi]
  have low : i < lo → x.getLsbD i = false := by
    intro below
    obtain ⟨k,number⟩ := aligned
    rw [← BitVec.testBit_toNat,number,Nat.testBit_two_pow_mul]
    simp [Nat.not_le.mpr below]
  have high : 48 ≤ i → x.getLsbD i = false := by
    intro above
    rw [← BitVec.testBit_toNat]
    exact Nat.testBit_lt_two_pow (Nat.lt_of_lt_of_le small (Nat.pow_le_pow_right (by omega) above))
  by_cases inside : lo ≤ i ∧ i < 48
  · simp [inside]
  · have zero : x.getLsbD i = false := by
      rcases not_and_or.mp inside with below | above
      · exact low (by omega)
      · exact high (by omega)
    simp [zero]
end

def tableField : BitVec 64 := 0x0000fffffffff000

def frameField : BitVec 64 := 0x0000ffffffe00000

theorem tableFieldBits : ∀ i < 64, tableField.getLsbD i = decide (12 ≤ i ∧ i < 48) := by decide +kernel

theorem frameFieldBits : ∀ i < 64, frameField.getLsbD i = decide (21 ≤ i ∧ i < 48) := by decide +kernel

theorem presentBits (set : b &&& m ≠ 0) : (x ||| b) &&& m ≠ 0 := by
  rw [orMasked]
  intro zero
  exact set (BitVec.or_eq_zero_iff.mp zero).2

structure Hal.Sound (h : Hal) : Prop where
  present : ∀ a, (a ||| h.tableBits) &&& h.presentMask ≠ 0
  table : ∀ {a}, a &&& tableField = a → (a ||| h.tableBits) &&& h.tableMask = a
  entAddr : ∀ {a}, a &&& tableField = a → h.entAddr (a ||| h.tableBits) = a
  page : ∀ {p}, 2^12 ∣ p.toNat → p ≠ 0 → h.accepts p = true
  leaf : ∀ a, (a ||| h.leafBits) &&& h.presentMask ≠ 0
  frame : ∀ {p}, p &&& frameField = p → p &&& h.frameMask = p ∧ p &&& h.attrMask = 0
  attr : h.attrMask &&& h.frameMask = 0 ∧ h.leafBits &&& h.frameMask = 0

theorem fieldKept (inside : x &&& M = x) (sub : M &&& m = M) (apart : b &&& m = 0) :
    (x ||| b) &&& m = x := by
  rw [orMasked,maskKeeps inside sub,apart]
  exact BitVec.or_zero

theorem alignedLow {p : BitVec 64} (aligned : 2^12 ∣ p.toNat) : p &&& 0xfff = 0 := by
  apply BitVec.eq_of_toNat_eq
  have mask : p.toNat &&& 0xfff = p.toNat % 2^12 := Nat.and_two_pow_sub_one_eq_mod p.toNat 12
  rw [BitVec.toNat_and]
  exact mask.trans (Nat.mod_eq_zero_of_dvd aligned)

theorem alignedGiven {p} (aligned : 2^12 ∣ p.toNat) : p ≠ sbrkFailed := by
  rintro rfl
  exact absurd aligned (by decide)

theorem x64Sound (vmaBase) : (x64 vmaBase).Sound where
  present a := presentBits (by decide : (1 : BitVec 64) &&& 1 ≠ 0)
  table inside := fieldKept inside (by decide : tableField &&& 0x000ffffffffff000 = tableField)
    (by decide : (1 : BitVec 64) &&& 0x000ffffffffff000 = 0)
  entAddr inside := fieldKept inside (by decide : tableField &&& ~~~0xfff = tableField)
    (by decide : (1 : BitVec 64) &&& ~~~0xfff = 0)
  page aligned some := decide_eq_true ⟨alignedGiven aligned,some⟩
  leaf a := presentBits (by decide : (1 ||| 0x80 : BitVec 64) &&& 1 ≠ 0)
  frame inside := ⟨maskKeeps inside (by decide : frameField &&& 0x000fffffffe00000 = frameField),
    maskDrops inside (by decide : frameField &&& 0xfff = 0)⟩
  attr := (by decide : (0xfff : BitVec 64) &&& 0x000fffffffe00000 = 0 ∧ (1 ||| 0x80 : BitVec 64) &&& 0x000fffffffe00000 = 0)

theorem aarch64Sound (vmaBase) : (aarch64 vmaBase).Sound where
  present a := presentBits (by decide : (0x40 ||| 3 : BitVec 64) &&& 3 ≠ 0)
  table inside := fieldKept inside (by decide : tableField &&& 0x0000fffffffff000 = tableField)
    (by decide : (0x40 ||| 3 : BitVec 64) &&& 0x0000fffffffff000 = 0)
  entAddr {a} inside := by
    have start : pageStart (a ||| (0x40 ||| 3)) = a :=
      fieldKept inside (by decide : tableField &&& ~~~0xfff = tableField) (by decide)
    exact (congrArg (· &&& ~~~blkAttrMask) start).trans (maskKeeps inside (by decide))
  page aligned some := decide_eq_true ⟨alignedGiven aligned,alignedLow aligned,some⟩
  leaf a := presentBits (by decide : (1 : BitVec 64) &&& 3 ≠ 0)
  frame inside := ⟨maskKeeps inside (by decide : frameField &&& 0x0000ffffffe00000 = frameField),
    maskDrops inside (by decide : frameField &&& blkAttrMask = 0)⟩
  attr := (by decide : blkAttrMask &&& 0x0000ffffffe00000 = 0 ∧ (1 : BitVec 64) &&& 0x0000ffffffe00000 = 0)

def Straight (addr : BitVec 64) : Prop := mmu (addr + h.vmaBase) = addr ∧ addr &&& tableField = addr

structure Holds (root : BitVec 64) (size : Nat) (needs : List (List Index)) (s : State) (node : List Index → Option (BitVec 64))
    (used : List (List Index)) (leaf : List Index → BitVec 64) : Prop where
  tree : Tree (coding h) (Straight h mmu) 2 root s.tables node leaf
  supply : Supply (Straight h mmu) node (s.heap.map (· - h.vmaBase)) used size
  pages : ∀ page ∈ s.heap, h.accepts page = true
  asked : ∀ ρ ∈ used, ρ ∈ needs

section
variable {h : Hal} {mmu : BitVec 64 → BitVec 64} {root kpgtbl : BitVec 64} {size : Nat} {leaf : List Index → BitVec 64}

theorem codingKeeps (sound : h.Sound) : (coding h).Keeps (Straight h mmu) where
  empty := by simp [coding]
  present {a} _ := decide_eq_true (sound.present a)
  next ok := sound.table ok.2

theorem levelThere {tbl i} (present : s.tables (mmu tbl) i &&& h.presentMask ≠ 0) :
    level h mmu s tbl i = some (s,h.entAddr (s.tables (mmu tbl) i) + h.vmaBase) := if_neg present

theorem levelNew {page : BitVec 64} {heap : List (BitVec 64)} (blank : s.tables (mmu tbl) i &&& h.presentMask = 0)
    (pages : s.heap = page :: heap) (accepts : h.accepts page = true) :
    level h mmu s tbl i =
      some ({ tables := put (clear s.tables (mmu page) 0) (mmu tbl) i (page - h.vmaBase ||| h.tableBits),heap },
        page - h.vmaBase + h.vmaBase) := by
  simp only [level,if_pos blank,pages,if_pos accepts]

section Levels
variable {node : List Index → Option (BitVec 64)} {used : List (List Index)} {π : List Index}

theorem levelHoldsThere (sound : h.Sound) (holds : Holds h mmu root size needs s node used leaf) (here : node π = some (mmu tbl))
    (inside : π.length < 2) {q : BitVec 64} (down : node (π ++ [i]) = some q) :
    level h mmu s tbl i = some (s,q + h.vmaBase) ∧ q = mmu (q + h.vmaBase) := by
  obtain ⟨entry,ok⟩ := holds.tree.edge here inside down
  have present : s.tables (mmu tbl) i &&& h.presentMask ≠ 0 := by
    rw [entry]
    exact sound.present q
  have addr : h.entAddr (s.tables (mmu tbl) i) = q := by
    rw [entry]
    exact sound.entAddr ok.2
  exact ⟨by rw [levelThere present,addr],ok.1.symm⟩

theorem levelHoldsNew (sound : h.Sound) (holds : Holds h mmu root size needs s node used leaf) (here : node π = some (mmu tbl))
    (inside : π.length < 2) (need : π ++ [i] ∈ needs) (down : node (π ++ [i]) = none) {page heap}
    (pages : s.heap = page :: heap) :
    ∃ s' tbl' node' used', level h mmu s tbl i = some (s',tbl') ∧ Holds h mmu root size needs s' node' used' leaf ∧
      node' (π ++ [i]) = some (mmu tbl') := by
  have blank : s.tables (mmu tbl) i &&& h.presentMask = 0 := by simpa [coding] using holds.tree.blank i here inside down
  have supply := holds.supply
  rw [pages,List.map_cons] at supply
  obtain ⟨ok,fresh⟩ := supply.fresh _ List.mem_cons_self
  have accepts := holds.pages page (pages ▸ List.mem_cons_self)
  have back : page - h.vmaBase + h.vmaBase = page := BitVec.sub_add_cancel page h.vmaBase
  have phys : mmu page = page - h.vmaBase := by
    have straight := ok.1
    rwa [back] at straight
  refine ⟨_,_,Function.update node (π ++ [i]) (.some (page - h.vmaBase)),(π ++ [i]) :: used,
    levelNew blank pages accepts,?_,?_⟩
  · refine ⟨?_,supply.take down,?_,?_⟩
    · rw [phys]
      exact holds.tree.grow (codingKeeps sound) here inside down fresh ok
    · exact fun p member => holds.pages p (pages ▸ List.mem_cons_of_mem page member)
    · intro ρ member
      rcases List.mem_cons.mp member with rfl | old
      · exact need
      · exact holds.asked ρ old
  · rw [Function.update_self,back,phys]

theorem levelHolds (sound : h.Sound) (holds : Holds h mmu root size needs s node used leaf) (enough : needs.length ≤ size)
    (here : node π = some (mmu tbl)) (inside : π.length < 2) (need : π ++ [i] ∈ needs) :
    ∃ s' tbl' node' used', level h mmu s tbl i = some (s',tbl') ∧ Holds h mmu root size needs s' node' used' leaf ∧
      node' (π ++ [i]) = some (mmu tbl') := by
  cases down : node (π ++ [i]) with
  | some q =>
    obtain ⟨ran,same⟩ := levelHoldsThere sound holds here inside down
    exact ⟨s,q + h.vmaBase,node,used,ran,holds,down.trans (congrArg some same)⟩
  | none =>
    have some := holds.supply.room down holds.asked need enough
    cases pages : s.heap with
    | nil =>
      rw [pages] at some
      exact absurd rfl some
    | cons page heap => exact levelHoldsNew sound holds here inside need down pages

end Levels

def leafEntry (h : Hal) (call : Call) : BitVec 64 := straightPageStart call.paddr ||| (call.attr &&& h.attrMask) ||| h.leafBits

def Stands (h : Hal) (mmu : BitVec 64 → BitVec 64) (root : BitVec 64) (size : Nat) (needs : List (List Index)) (s : State)
    (leaf : List Index → BitVec 64) : Prop :=
  ∃ node used, Holds h mmu root size needs s node used leaf

theorem mapKernelPageStands (sound : h.Sound) (stands : Stands h mmu (mmu kpgtbl) size needs s leaf)
    (enough : needs.length ≤ size) {call} (need1 : (path h call.vaddr).take 1 ∈ needs)
    (need2 : (path h call.vaddr).take 2 ∈ needs) (free : leaf (path h call.vaddr) = 0) :
    ∃ s', mapKernelPage h mmu kpgtbl s call.paddr call.vaddr call.attr = some s' ∧
      Stands h mmu (mmu kpgtbl) size needs s' (Function.update leaf (path h call.vaddr) (leafEntry h call)) := by
  obtain ⟨node,used,holds⟩ := stands
  obtain ⟨s1,pdp,node1,used1,run1,holds1,at1⟩ := levelHolds sound holds enough holds.tree.root Nat.zero_lt_two need1
  obtain ⟨s2,pdir,node2,used2,run2,holds2,at2⟩ := levelHolds sound holds1 enough at1 Nat.one_lt_two need2
  have entry := holds2.tree.last (index 21 (h.indexed call.vaddr)) at2 rfl
  have zero : s2.tables (mmu pdir) (index 21 (h.indexed call.vaddr)) &&& h.presentMask = 0 := by
    rw [entry]
    exact (congrArg (· &&& h.presentMask) free).trans (by simp)
  have set := holds2.tree.setLeaf (index 21 (h.indexed call.vaddr)) (leafEntry h call) at2 rfl
  refine ⟨{ s2 with tables := put s2.tables (mmu pdir) (index 21 (h.indexed call.vaddr)) (leafEntry h call) },?_,
    node2,used2,set,holds2.supply,holds2.pages,holds2.asked⟩
  simp only [mapKernelPage,bind,Option.bind,run1,run2,if_pos zero]
  rfl

theorem mapPagesStands (sound : h.Sound) (enough : needs.length ≤ size) {calls}
    (stands : Stands h mmu (mmu kpgtbl) size needs s leaf)
    (need : ∀ call ∈ calls, (path h call.vaddr).take 1 ∈ needs ∧ (path h call.vaddr).take 2 ∈ needs)
    (distinct : calls.Pairwise (fun a b => path h a.vaddr ≠ path h b.vaddr))
    (free : ∀ call ∈ calls, leaf (path h call.vaddr) = 0) :
    ∃ s' leaf', mapPages h mmu kpgtbl s calls = some s' ∧ Stands h mmu (mmu kpgtbl) size needs s' leaf' ∧
      (∀ call ∈ calls, leaf' (path h call.vaddr) = leafEntry h call) ∧
      (∀ π, (∀ call ∈ calls, path h call.vaddr ≠ π) → leaf' π = leaf π) := by
  induction calls generalizing s leaf with
  | nil => exact ⟨s,leaf,rfl,stands,by simp,fun _ _ => rfl⟩
  | cons call calls ih =>
    obtain ⟨first,rest⟩ := List.pairwise_cons.mp distinct
    have here := need call List.mem_cons_self
    obtain ⟨s1,run,stands1⟩ := mapKernelPageStands sound stands enough here.1 here.2 (free call List.mem_cons_self)
    obtain ⟨s2,leaf2,run2,stands2,new,old⟩ := ih stands1 (fun c member => need c (List.mem_cons_of_mem _ member)) rest
      (by
        intro c member
        rw [Function.update_of_ne (first c member).symm]
        exact free c (List.mem_cons_of_mem _ member))
    refine ⟨s2,leaf2,?_,stands2,?_,?_⟩
    · simp only [mapPages,bind,Option.bind,run,run2]
    · intro c member
      rcases List.mem_cons.mp member with rfl | later
      · rw [old _ (fun d there => (first d there).symm),Function.update_self]
      · exact new c later
    · intro π other
      rw [old π (fun c member => other c (List.mem_cons_of_mem _ member)),
        Function.update_of_ne (other call List.mem_cons_self).symm]

theorem walkStands (sound : h.Sound) (stands : Stands h mmu root size needs s leaf) (vaddr) :
    walkTables h s.tables root vaddr = leaf (path h vaddr) ∨
      (walkTables h s.tables root vaddr &&& h.presentMask = 0 ∧ leaf (path h vaddr) = 0) := by
  obtain ⟨node,used,holds⟩ := stands
  have length : ([] : List Index).length + (path h vaddr).length = 3 := rfl
  rcases holds.tree.walked (codingKeeps sound) holds.tree.root length with found | absent | none
  · exact .inl found
  · refine .inr ⟨?_,absent.2⟩
    have zero := absent.1
    simpa [coding,walkTables] using zero
  · cases none

theorem zeroedStands (zeroed : ∀ i, s.tables root i = 0) (fresh : s.heap.Nodup) (accepts : ∀ page ∈ s.heap, h.accepts page = true)
    (straight : ∀ page ∈ s.heap, Straight h mmu (page - h.vmaBase)) (apart : ∀ page ∈ s.heap, page - h.vmaBase ≠ root) :
    Stands h mmu root s.heap.length needs s (fun _ => 0) := by
  refine ⟨fun π => if π = [] then some root else none,[],⟨rfl,?_,?_,?_,?_,?_,?_⟩,⟨?_,?_,List.nodup_nil,?_,?_⟩,accepts,?_⟩
  · intro π ρ p one two
    split at one <;> split at two <;> simp_all
  · intro π i _
    simp
  · intro π p i here short gone
    have first : π = [] := by
      by_contra other
      simp [other] at here
    have same : p = root := by simpa [first] using here.symm
    simp [coding,same,zeroed]
  · intro π p i q here short down
    simp at down
  · intro π p i here full
    have first : π = [] := by
      by_contra other
      simp [other] at here
    simp [first] at full
  · intro π i gone full
    rfl
  · exact fresh.map (fun a b same => by simpa using same)
  · intro q member
    obtain ⟨page,there,rfl⟩ := List.mem_map.mp member
    refine ⟨straight page there,?_⟩
    intro π
    split
    · exact fun same => apart page there (Option.some.inj same).symm
    · simp
  · intro π
    by_cases first : π = [] <;> simp [first]
  · simp
  · simp
end

theorem straightStart {p} (inside : p &&& frameField = p) : straightPageStart p = p :=
  maskKeeps inside (by decide : frameField &&& ~~~0x1fffff = frameField)

theorem leafRead {h : Hal} (sound : h.Sound) {call : Call} (inside : call.paddr &&& frameField = call.paddr) :
    leafEntry h call &&& h.presentMask ≠ 0 ∧ leafEntry h call &&& h.frameMask = call.paddr ∧
      leafEntry h call &&& h.attrMask = (call.attr &&& h.attrMask) ||| (h.leafBits &&& h.attrMask) := by
  have field := sound.frame inside
  have attrs : call.attr &&& h.attrMask &&& h.frameMask = 0 := by
    rw [BitVec.and_assoc,sound.attr.1]
    simp
  unfold leafEntry
  rw [straightStart inside]
  refine ⟨sound.leaf _,?_,?_⟩
  · rw [orMasked,orMasked,field.1,attrs,sound.attr.2]
    simp
  · rw [orMasked,orMasked,field.2,BitVec.and_assoc,BitVec.and_self]
    simp

theorem indexBit (shift v j) :
    (index shift v).getLsbD j = (decide (j < 9) && v.getLsbD (shift + j)) := by
  have mask : (0x1ff : BitVec 64).getLsbD j = decide (j < 9) := by
    rcases Nat.lt_or_ge j 64 with small | large
    · have all : ∀ j < 64, (0x1ff : BitVec 64).getLsbD j = decide (j < 9) := by decide +kernel
      exact all j small
    · rw [BitVec.getLsbD_of_ge _ _ large,decide_eq_false (by omega)]
  unfold index
  rw [BitVec.getLsbD_setWidth,BitVec.getLsbD_and,BitVec.getLsbD_ushiftRight,mask]
  cases decide (j < 9) <;> simp

theorem pathBits (h : Hal) (v w : BitVec 64) : path h v = path h w ↔ pageBits h v = pageBits h w := by
  unfold path pageBits
  generalize h.indexed v = v
  generalize h.indexed w = w
  constructor
  · intro same
    simp only [List.cons.injEq,and_true] at same
    apply BitVec.eq_of_getLsbD_eq
    intro j hj
    have bit : ∀ shift, index shift v = index shift w → ∀ k < 9, v.getLsbD (shift+k) = w.getLsbD (shift+k) := by
      intro shift equal k hk
      have this := congrArg (fun x : Index => x.getLsbD k) equal
      simpa only [indexBit,decide_eq_true hk,Bool.true_and] using this
    rw [BitVec.getLsbD_extractLsb',BitVec.getLsbD_extractLsb']
    congr 1
    rcases Nat.lt_or_ge j 9 with low | high
    · exact bit 21 same.2.2 j low
    · rcases Nat.lt_or_ge j 18 with middle | upper
      · have := bit 30 same.2.1 (j-9) (by omega)
        rwa [show 30 + (j-9) = 21 + j by omega] at this
      · have := bit 39 same.1 (j-18) (by omega)
        rwa [show 39 + (j-18) = 21 + j by omega] at this
  · intro same
    have bit : ∀ k < 27, v.getLsbD (21+k) = w.getLsbD (21+k) := by
      intro k hk
      have := congrArg (fun x : BitVec 27 => x.getLsbD k) same
      simpa [BitVec.getLsbD_extractLsb',hk] using this
    have field : ∀ shift, 21 ≤ shift → shift ≤ 39 → index shift v = index shift w := by
      intro shift low high
      apply BitVec.eq_of_getLsbD_eq
      intro j hj
      rw [indexBit,indexBit]
      congr 1
      have := bit (shift - 21 + j) (by omega)
      rwa [show 21 + (shift - 21 + j) = shift + j by omega] at this
    rw [field 39 (by omega) (by omega),field 30 (by omega) (by omega),field 21 (by omega) (by omega)]

structure Setting (vmaBase : BitVec 64) (mmu : BitVec 64 → BitVec 64) (kpgtbl : BitVec 64) (heap : List (BitVec 64)) : Prop where
  base : 2^12 ∣ vmaBase.toNat
  distinct : heap.Nodup
  aligned : ∀ page ∈ heap, 2^12 ∣ page.toNat
  given : ∀ page ∈ heap, page ≠ 0
  straight : ∀ page ∈ heap, mmu page = page - vmaBase ∧ (page - vmaBase).toNat < 2^48
  apart : ∀ page ∈ heap, mmu page ≠ mmu kpgtbl

theorem alignedSub {a : BitVec 64} (one : 2^12 ∣ a.toNat) (two : 2^12 ∣ b.toNat) : 2^12 ∣ (a-b).toNat := by
  rw [BitVec.toNat_sub]
  have := b.isLt
  omega

theorem settingStands {h : Hal} {mmu : BitVec 64 → BitVec 64} {kpgtbl} (sound : h.Sound)
    (setting : Setting h.vmaBase mmu kpgtbl s.heap) (zeroed : ∀ i, s.tables (mmu kpgtbl) i = 0) (needs) :
    Stands h mmu (mmu kpgtbl) s.heap.length needs s (fun _ => 0) := by
  apply zeroedStands zeroed setting.distinct
  · exact fun page member => sound.page (setting.aligned page member) (setting.given page member)
  · intro page member
    obtain ⟨phys,small⟩ := setting.straight page member
    refine ⟨?_,alignedMask tableFieldBits (alignedSub (setting.aligned page member) setting.base) small⟩
    rw [BitVec.sub_add_cancel,phys]
  · intro page member
    rw [← (setting.straight page member).1]
    exact setting.apart page member

def tablesNeeded (h : Hal) (calls : List Call) : List (List Index) :=
  (calls.flatMap (fun call => [(path h call.vaddr).take 1,(path h call.vaddr).take 2])).dedup

theorem mapsPages {h : Hal} {mmu : BitVec 64 → BitVec 64} {kpgtbl} {calls : List Call}
    (sound : h.Sound) (setting : Setting h.vmaBase mmu kpgtbl s.heap)
    (zeroed : ∀ i, s.tables (mmu kpgtbl) i = 0)
    (distinct : calls.Pairwise (fun a b => pageBits h a.vaddr ≠ pageBits h b.vaddr))
    (frames : ∀ call ∈ calls, 2^21 ∣ call.paddr.toNat ∧ call.paddr.toNat < 2^48)
    (need : ∀ call ∈ calls, (path h call.vaddr).take 1 ∈ needs ∧ (path h call.vaddr).take 2 ∈ needs)
    (enough : needs.length ≤ s.heap.length) :
    ∃ s', mapPages h mmu kpgtbl s calls = some s' ∧
      (∀ call ∈ calls, ∀ v, pageBits h v = pageBits h call.vaddr →
        walkTables h s'.tables (mmu kpgtbl) v &&& h.presentMask ≠ 0 ∧
        walkTables h s'.tables (mmu kpgtbl) v &&& h.frameMask = call.paddr ∧
        walkTables h s'.tables (mmu kpgtbl) v &&& h.attrMask = (call.attr &&& h.attrMask) ||| (h.leafBits &&& h.attrMask)) ∧
      (∀ v, (∀ call ∈ calls, pageBits h v ≠ pageBits h call.vaddr) →
        walkTables h s'.tables (mmu kpgtbl) v &&& h.presentMask = 0) := by
  have paths : calls.Pairwise (fun a b => path h a.vaddr ≠ path h b.vaddr) :=
    distinct.imp (fun bits same => bits ((pathBits h _ _).mp same))
  obtain ⟨s',leaf,run,stands,mapped,other⟩ :=
    mapPagesStands sound enough (settingStands sound setting zeroed needs) need paths (fun _ _ => rfl)
  refine ⟨s',run,?_,?_⟩
  · intro call member v same
    have leafHere : leaf (path h v) = leafEntry h call := by
      rw [(pathBits h v call.vaddr).mpr same]
      exact mapped call member
    have field : call.paddr &&& frameField = call.paddr :=
      alignedMask frameFieldBits (frames call member).1 (frames call member).2
    have read := leafRead sound field
    rcases walkStands sound stands v with found | ⟨_,none⟩
    · rw [found,leafHere]
      exact read
    · rw [leafHere] at none
      rw [none] at read
      exact absurd (by simp) read.1
  · intro v none
    have zero : leaf (path h v) = 0 := other _ (fun call member same => none call member ((pathBits h _ _).mp same.symm))
    rcases walkStands sound stands v with found | absent
    · rw [found,zero]
      simp
    · exact absent.1

theorem mapKernelPageExact (vmaBase : BitVec 64) (h : Hal) (hal : h = x64 vmaBase ∨ h = aarch64 vmaBase)
    (mmu : BitVec 64 → BitVec 64) (kpgtbl : BitVec 64) (s : State) (calls : List Call)
    (setting : Setting vmaBase mmu kpgtbl s.heap) (zeroed : ∀ i, s.tables (mmu kpgtbl) i = 0)
    (distinct : calls.Pairwise (fun a b => pageBits h a.vaddr ≠ pageBits h b.vaddr))
    (frames : ∀ call ∈ calls, 2^21 ∣ call.paddr.toNat ∧ call.paddr.toNat < 2^48)
    (enough : (tablesNeeded h calls).length ≤ s.heap.length) :
    ∃ s', mapPages h mmu kpgtbl s calls = some s' ∧
      (∀ call ∈ calls, ∀ v, pageBits h v = pageBits h call.vaddr →
        walkTables h s'.tables (mmu kpgtbl) v &&& h.presentMask ≠ 0 ∧
        walkTables h s'.tables (mmu kpgtbl) v &&& h.frameMask = call.paddr ∧
        walkTables h s'.tables (mmu kpgtbl) v &&& h.attrMask = (call.attr &&& h.attrMask) ||| (h.leafBits &&& h.attrMask)) ∧
      (∀ v, (∀ call ∈ calls, pageBits h v ≠ pageBits h call.vaddr) →
        walkTables h s'.tables (mmu kpgtbl) v &&& h.presentMask = 0) := by
  have sound : h.Sound ∧ h.vmaBase = vmaBase := by
    rcases hal with rfl | rfl
    · exact ⟨x64Sound vmaBase,rfl⟩
    · exact ⟨aarch64Sound vmaBase,rfl⟩
  refine mapsPages sound.1 (sound.2.symm ▸ setting) zeroed distinct frames ?_ enough
  intro call member
  constructor <;>
    exact List.mem_dedup.mpr (List.mem_flatMap.mpr ⟨call,member,by simp⟩)

def twoCalls : List Call := [⟨0x40000000,0x200000,2⟩,⟨0x600000,0x40000000,0x12⟩]

def bareState : State := { tables := fun _ _ => 0,heap := [0x200000,0x201000,0x202000] }

theorem bareSetting : Setting 0 id 0x100000 bareState.heap := by
  have pages : ∀ page ∈ bareState.heap, page = 0x200000 ∨ page = 0x201000 ∨ page = 0x202000 := by
    intro page member
    simpa [bareState] using member
  refine ⟨by decide,by decide,?_,?_,?_,?_⟩ <;> intro page member <;> rcases pages page member with rfl | rfl | rfl <;> decide

theorem mapKernelPageTwo :
    ∃ s, mapPages (aarch64 0) id 0x100000 bareState twoCalls = some s ∧
      walkTables (aarch64 0) s.tables 0x100000 0x3fffff &&& (aarch64 0).frameMask = 0x40000000 := by
  have run := mapKernelPageExact 0 (aarch64 0) (.inr rfl) id 0x100000 bareState twoCalls bareSetting (fun _ => rfl)
    (by decide +kernel) (by decide +kernel) (by decide +kernel)
  obtain ⟨s,done,mapped,_⟩ := run
  exact ⟨s,done,(mapped ⟨0x40000000,0x200000,2⟩ List.mem_cons_self 0x3fffff (by decide +kernel)).2.1⟩

end TskSw.KernelMap
