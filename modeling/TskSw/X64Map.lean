import TskSw.KernelMap

/-! `x64_map_kernel`: the straight map of the memory and the high I/O area behind it. Both
loops run up to an inclusive end address. The end of the I/O area is given to them as the
first address behind it, so one page more is mapped there. -/
namespace TskSw.X64Map
open RadixTable KernelMap

def kernHighIoArea : BitVec 64 := 0xFE000000

def kernHighMemoryBase : BitVec 64 := 0x100000000

def kernHighIoSize : BitVec 64 := kernHighMemoryBase - kernHighIoArea

def kernHighIoBase : BitVec 64 := 0xFFFFFFFFFC000000

def kernPhyMin : BitVec 64 := 0

def kernPhyMax : BitVec 64 := 0x40000000

def straightPageSize : BitVec 64 := 0x200000

def straightPageEnd (a : BitVec 64) : BitVec 64 := straightPageStart a + straightPageSize - 1

def highIoToKernStraight (a : BitVec 64) : BitVec 64 := a + kernHighIoBase - kernHighIoArea

def pageWritable : BitVec 64 := 2

def pageNoncachable : BitVec 64 := 0x10

section
variable (vmaBase : BitVec 64) (mmu : BitVec 64 → BitVec 64) (kpgtbl : BitVec 64)

def mapLoop (last attr : BitVec 64) : Nat → State → BitVec 64 → BitVec 64 → Option State
  | 0,_,_,_ => none
  | fuel+1,s,curPage,curVaddr =>
    if curPage ≤ last then do
      let s ← mapKernelPage (x64 vmaBase) mmu kpgtbl s curPage curVaddr attr
      mapLoop last attr fuel s (curPage + straightPageSize) (curVaddr + straightPageSize)
    else some s

def mapHighIoArea (s : State) : Option State :=
  let last := straightPageEnd (kernHighIoArea + kernHighIoSize)
  mapLoop vmaBase mmu kpgtbl last (pageWritable ||| pageNoncachable) (2^64) s (straightPageStart kernHighIoArea) kernHighIoBase

def x64MapKernel (s : State) (memMax : BitVec 64) : Option State := do
  let s : State := { s with tables := clear s.tables (mmu kpgtbl) 0 }
  let start := straightPageStart kernPhyMin
  let phyLastMem := (if memMax < kernPhyMax then memMax else kernPhyMax) - 1
  let last := straightPageEnd phyLastMem
  let s ← mapLoop vmaBase mmu kpgtbl last pageWritable (2^64) s start vmaBase
  mapHighIoArea vmaBase mmu kpgtbl s
end

def runCalls (page vaddr attr : BitVec 64) (n : Nat) : List Call :=
  (List.range n).map (fun k => ⟨page + BitVec.ofNat 64 (k * 2^21),vaddr + BitVec.ofNat 64 (k * 2^21),attr⟩)

theorem runCallsSucc (page vaddr attr n) :
    runCalls page vaddr attr (n+1) =
      ⟨page,vaddr,attr⟩ :: runCalls (page + straightPageSize) (vaddr + straightPageSize) attr n := by
  have step : ∀ (a : BitVec 64) (k : Nat), a + BitVec.ofNat 64 ((k+1) * 2^21) = a + straightPageSize + BitVec.ofNat 64 (k * 2^21) := by
    intro a k
    rw [Nat.add_mul,Nat.add_comm,BitVec.ofNat_add,BitVec.add_assoc]
    rfl
  rw [runCalls,List.range_succ_eq_map,List.map_cons,List.map_map,runCalls]
  refine congrArg₂ _ (by simp) (List.map_congr_left (fun k _ => ?_))
  simp only [Function.comp_apply,Nat.succ_eq_add_one,step]

variable {vmaBase : BitVec 64} {mmu : BitVec 64 → BitVec 64} {kpgtbl : BitVec 64}

variable {attr page vaddr memMax a : BitVec 64} {s : State} {n x : Nat} {call : Call}

theorem mapLoopPages {last : BitVec 64} {fuel : Nat} (enough : n < fuel)
    (fits : page.toNat + n * 2^21 < 2^64) (inside : ∀ k < n, page.toNat + k * 2^21 ≤ last.toNat)
    (stop : last.toNat < page.toNat + n * 2^21) :
    mapLoop vmaBase mmu kpgtbl last attr fuel s page vaddr =
      mapPages (x64 vmaBase) mmu kpgtbl s (runCalls page vaddr attr n) := by
  induction n generalizing fuel s page vaddr with
  | zero =>
    obtain ⟨fuel,rfl⟩ : ∃ f, fuel = f+1 := ⟨fuel-1,by omega⟩
    have past : ¬page ≤ last := by
      rw [BitVec.le_def]
      omega
    rw [mapLoop,if_neg past]
    rfl
  | succ n ih =>
    obtain ⟨fuel,rfl⟩ : ∃ f, fuel = f+1 := ⟨fuel-1,by omega⟩
    have more : page ≤ last := BitVec.le_def.mpr (by simpa using inside 0 (Nat.succ_pos n))
    have size : straightPageSize.toNat = 2^21 := rfl
    have next : (page + straightPageSize).toNat = page.toNat + 2^21 := by
      rw [BitVec.toNat_add,size,Nat.mod_eq_of_lt (by omega)]
    rw [mapLoop,if_pos more,runCallsSucc,mapPages]
    refine congrArg (Option.bind _) (funext fun s' => ?_)
    apply ih (by omega)
    · rw [next]
      omega
    · intro k hk
      have := inside (k+1) (by omega)
      rw [next]
      omega
    · rw [next]
      omega

theorem mapPagesAppend (s first second) :
    mapPages (x64 vmaBase) mmu kpgtbl s (first ++ second) =
      (mapPages (x64 vmaBase) mmu kpgtbl s first).bind (fun s => mapPages (x64 vmaBase) mmu kpgtbl s second) := by
  induction first generalizing s with
  | nil => rfl
  | cons call first ih =>
    simp only [List.cons_append,mapPages,bind,Option.bind_assoc,ih]

def straightPages (memMax : BitVec 64) : Nat := (min memMax.toNat (2^30) + 2^21 - 1) / 2^21

def kernelCalls (vmaBase memMax : BitVec 64) : List Call :=
  runCalls 0 vmaBase pageWritable (straightPages memMax) ++
    runCalls kernHighIoArea kernHighIoBase (pageWritable ||| pageNoncachable) 17

theorem straightPageEndValue (a) (small : a.toNat < 2^63) :
    (straightPageEnd a).toNat = a.toNat / 2^21 * 2^21 + (2^21 - 1) := by
  have mask : (straightPageStart a).toNat = a.toNat / 2^21 * 2^21 := by
    have low : straightPageStart a = (a >>> 21) <<< 21 := by
      apply BitVec.eq_of_getLsbD_eq
      intro i hi
      have bits : ∀ i < 64, (~~~0x1fffff : BitVec 64).getLsbD i = !decide (i < 21) := by decide +kernel
      rw [straightPageStart,BitVec.getLsbD_and,bits i hi,BitVec.getLsbD_shiftLeft,BitVec.getLsbD_ushiftRight]
      by_cases below : i < 21
      · simp [below]
      · have index : 21 + (i - 21) = i := by omega
        simp [below,hi,index]
    rw [low,BitVec.toNat_shiftLeft,BitVec.toNat_ushiftRight,Nat.shiftLeft_eq,Nat.shiftRight_eq_div_pow,
      Nat.mod_eq_of_lt (by omega)]
  have size : straightPageSize.toNat = 2^21 := rfl
  have one : (1 : BitVec 64).toNat = 1 := rfl
  rw [straightPageEnd,BitVec.toNat_sub,BitVec.toNat_add,mask,size,one]
  omega

theorem x64MapKernelCalls (s) (some : memMax ≠ 0) :
    x64MapKernel vmaBase mmu kpgtbl s memMax =
      mapPages (x64 vmaBase) mmu kpgtbl { s with tables := clear s.tables (mmu kpgtbl) 0 } (kernelCalls vmaBase memMax) := by
  have positive : memMax.toNat ≠ 0 := fun zero => some (BitVec.eq_of_toNat_eq zero)
  have max : kernPhyMax.toNat = 2^30 := rfl
  have least : ((if memMax < kernPhyMax then memMax else kernPhyMax) - 1).toNat = min memMax.toNat (2^30) - 1 := by
    have bound := memMax.isLt
    split
    · rename_i less
      rw [BitVec.lt_def,max] at less
      have one : (1 : BitVec 64).toNat = 1 := rfl
      rw [BitVec.toNat_sub,one]
      omega
    · rename_i more
      rw [BitVec.lt_def,max] at more
      have value : (kernPhyMax - 1).toNat = 2^30 - 1 := rfl
      rw [value]
      omega
  have last := straightPageEndValue ((if memMax < kernPhyMax then memMax else kernPhyMax) - 1) (by omega)
  rw [least] at last
  have start : straightPageStart kernPhyMin = 0 := rfl
  have zero : (0 : BitVec 64).toNat = 0 := rfl
  have high : mapHighIoArea vmaBase mmu kpgtbl = fun s =>
      mapPages (x64 vmaBase) mmu kpgtbl s (runCalls kernHighIoArea kernHighIoBase (pageWritable ||| pageNoncachable) 17) := by
    funext s
    have area : straightPageStart kernHighIoArea = kernHighIoArea := by decide
    have ends : (straightPageEnd (kernHighIoArea + kernHighIoSize)).toNat = 0x1001fffff := by decide
    have first : kernHighIoArea.toNat = 0xfe000000 := rfl
    rw [mapHighIoArea,area]
    exact mapLoopPages (by omega) (by omega) (fun k hk => by omega) (by omega)
  unfold x64MapKernel kernelCalls
  rw [mapPagesAppend,start,high]
  have loop := @mapLoopPages vmaBase mmu kpgtbl pageWritable 0 vmaBase { s with tables := clear s.tables (mmu kpgtbl) 0 }
    (straightPages memMax) (straightPageEnd ((if memMax < kernPhyMax then memMax else kernPhyMax) - 1)) (2^64)
    (by unfold straightPages; omega) (by unfold straightPages; omega)
    (fun k hk => by unfold straightPages at hk; omega) (by unfold straightPages; omega)
  simp only [loop]
  rfl

theorem runAddr {base : BitVec 64} (fits : base.toNat + x < 2^64) : (base + BitVec.ofNat 64 x).toNat = base.toNat + x := by
  rw [BitVec.toNat_add,BitVec.toNat_ofNat,Nat.mod_eq_of_lt (by omega : x < 2^64),Nat.mod_eq_of_lt fits]

theorem pageNumber (vmaBase v) : (pageBits (x64 vmaBase) v).toNat = v.toNat / 2^21 % 2^27 := by
  rw [pageBits,BitVec.extractLsb'_toNat,Nat.shiftRight_eq_div_pow]
  rfl

theorem indexNumber (shift : Nat) (v : BitVec 64) : (index shift v).toNat = v.toNat / 2^shift % 2^9 := by
  have mask : ∀ x : Nat, x &&& 0x1ff = x % 2^9 := fun x => Nat.and_two_pow_sub_one_eq_mod x 9
  rw [index,BitVec.toNat_setWidth,BitVec.toNat_and,BitVec.toNat_ushiftRight,Nat.shiftRight_eq_div_pow]
  exact (congrArg (· % 2^9) (mask _)).trans (Nat.mod_mod _ _)

def Base (vmaBase : BitVec 64) : Prop := vmaBase = 0 ∨ vmaBase = 0xFFFF800000000000

theorem baseNumber (base : Base vmaBase) : ∃ b, (b = 0 ∨ b = 2^26) ∧ vmaBase.toNat / 2^21 % 2^27 = b ∧
    vmaBase.toNat % 2^39 = 0 ∧ vmaBase.toNat + 2^30 ≤ 2^64 := by
  rcases base with rfl | rfl
  · exact ⟨0,by decide⟩
  · exact ⟨2^26,by decide⟩

theorem straightPagesBound (memMax) : straightPages memMax ≤ 512 := by
  unfold straightPages
  omega

theorem straightNumber (base : Base vmaBase) (small : x < 2^30) :
    (pageBits (x64 vmaBase) (vmaBase + BitVec.ofNat 64 x)).toNat = vmaBase.toNat / 2^21 % 2^27 + x / 2^21 := by
  obtain ⟨b,value,number,aligned,fits⟩ := baseNumber base
  rw [pageNumber,runAddr (by omega)]
  omega

theorem highNumber (small : x < 2^26) :
    (pageBits (x64 vmaBase) (kernHighIoBase + BitVec.ofNat 64 x)).toNat = 2^27 - 32 + x / 2^21 := by
  have io : kernHighIoBase.toNat = 0xFFFFFFFFFC000000 := rfl
  rw [pageNumber,runAddr (by omega)]
  omega

theorem memberRun :
    call ∈ runCalls page vaddr attr n ↔
      ∃ k < n, call = ⟨page + BitVec.ofNat 64 (k * 2^21),vaddr + BitVec.ofNat 64 (k * 2^21),attr⟩ := by
  constructor
  · intro member
    obtain ⟨k,inside,rfl⟩ := List.mem_map.mp member
    exact ⟨k,List.mem_range.mp inside,rfl⟩
  · rintro ⟨k,inside,rfl⟩
    exact List.mem_map.mpr ⟨k,List.mem_range.mpr inside,rfl⟩

theorem memberCalls (member : call ∈ kernelCalls vmaBase memMax) :
    (∃ k < straightPages memMax,
      call = ⟨0 + BitVec.ofNat 64 (k * 2^21),vmaBase + BitVec.ofNat 64 (k * 2^21),pageWritable⟩) ∨
    ∃ k < 17, call = ⟨kernHighIoArea + BitVec.ofNat 64 (k * 2^21),kernHighIoBase + BitVec.ofNat 64 (k * 2^21),
      pageWritable ||| pageNoncachable⟩ :=
  (List.mem_append.mp member).imp memberRun.mp memberRun.mp

theorem runDistinct (numbers : ∀ i < n, ∀ j < n, i < j → (pageBits (x64 vmaBase) (vaddr + BitVec.ofNat 64 (i * 2^21))).toNat ≠
        (pageBits (x64 vmaBase) (vaddr + BitVec.ofNat 64 (j * 2^21))).toNat) :
    (runCalls page vaddr attr n).Pairwise (fun a b => pageBits (x64 vmaBase) a.vaddr ≠ pageBits (x64 vmaBase) b.vaddr) := by
  rw [runCalls,List.pairwise_map]
  refine List.Pairwise.imp_of_mem ?_ List.pairwise_lt_range
  intro i j hi hj less same
  exact numbers i (List.mem_range.mp hi) j (List.mem_range.mp hj) less (congrArg BitVec.toNat same)

theorem callsDistinct (base : Base vmaBase) (memMax) :
    (kernelCalls vmaBase memMax).Pairwise (fun a b => pageBits (x64 vmaBase) a.vaddr ≠ pageBits (x64 vmaBase) b.vaddr) := by
  have bound := straightPagesBound memMax
  obtain ⟨b,value,number,_⟩ := baseNumber base
  refine List.pairwise_append.mpr ⟨?_,?_,?_⟩
  · apply runDistinct
    intro i hi j hj less
    rw [straightNumber base (by omega),straightNumber base (by omega)]
    omega
  · apply runDistinct
    intro i hi j hj less
    rw [highNumber (by omega),highNumber (by omega)]
    omega
  · intro one first two second same
    obtain ⟨i,hi,rfl⟩ := memberRun.mp first
    obtain ⟨j,hj,rfl⟩ := memberRun.mp second
    have numbers := congrArg BitVec.toNat same
    dsimp only at numbers
    rw [straightNumber base (by omega),highNumber (by omega)] at numbers
    omega

theorem callsFrames (member : call ∈ kernelCalls vmaBase memMax) :
    2^21 ∣ call.paddr.toNat ∧ call.paddr.toNat < 2^48 := by
  have bound := straightPagesBound memMax
  have zero : (0 : BitVec 64).toNat = 0 := rfl
  have area : kernHighIoArea.toNat = 0xfe000000 := rfl
  rcases memberCalls member with ⟨k,hk,rfl⟩ | ⟨k,hk,rfl⟩ <;> dsimp only <;> rw [runAddr (by omega)] <;> omega

def kernelTables (vmaBase : BitVec 64) : List (List Index) := [[index 39 vmaBase],[index 39 vmaBase,0],[511],[511,511]]

theorem callsTables (base : Base vmaBase) (member : call ∈ kernelCalls vmaBase memMax) :
    (path (x64 vmaBase) call.vaddr).take 1 ∈ kernelTables vmaBase ∧
      (path (x64 vmaBase) call.vaddr).take 2 ∈ kernelTables vmaBase := by
  have bound := straightPagesBound memMax
  obtain ⟨b,value,number,aligned,fits⟩ := baseNumber base
  have io : kernHighIoBase.toNat = 0xFFFFFFFFFC000000 := rfl
  have field : ∀ {i j : Index}, i.toNat = j.toNat → i = j := fun same => BitVec.eq_of_toNat_eq same
  have start : ∀ v, path (x64 vmaBase) v = [index 39 v,index 30 v,index 21 v] := fun _ => rfl
  rcases memberCalls member with ⟨k,hk,rfl⟩ | ⟨k,hk,rfl⟩
  · have top : index 39 (vmaBase + BitVec.ofNat 64 (k * 2^21)) = index 39 vmaBase := by
      apply field
      rw [indexNumber,indexNumber,runAddr (by omega)]
      omega
    have second : index 30 (vmaBase + BitVec.ofNat 64 (k * 2^21)) = 0 := by
      apply field
      rw [indexNumber,runAddr (by omega)]
      change _ = 0
      omega
    rw [start,top,second]
    simp [kernelTables]
  · have top : index 39 (kernHighIoBase + BitVec.ofNat 64 (k * 2^21)) = 511 := by
      apply field
      rw [indexNumber,runAddr (by omega)]
      change _ = 511
      omega
    have second : index 30 (kernHighIoBase + BitVec.ofNat 64 (k * 2^21)) = 511 := by
      apply field
      rw [indexNumber,runAddr (by omega)]
      change _ = 511
      omega
    rw [start,top,second]
    simp [kernelTables]

def translate (vmaBase : BitVec 64) (t : Tables) (root v : BitVec 64) : Option (BitVec 64) :=
  let ent := walkTables (x64 vmaBase) t root v
  if ent &&& (x64 vmaBase).presentMask = 0 then none else some ((ent &&& (x64 vmaBase).frameMask) ||| (v &&& 0x1fffff))

theorem frameOffset {p v : BitVec 64} (frame : p.toNat % 2^21 = 0) (low : v.toNat % 2^21 = x % 2^21) (fits : p.toNat + x < 2^64) :
    (p + BitVec.ofNat 64 (x / 2^21 * 2^21)) ||| (v &&& 0x1fffff) = p + BitVec.ofNat 64 x := by
  apply BitVec.eq_of_toNat_eq
  have mask : v.toNat &&& 0x1fffff = v.toNat % 2^21 := Nat.and_two_pow_sub_one_eq_mod v.toNat 21
  have value : (0x1fffff : BitVec 64).toNat = 0x1fffff := rfl
  rw [BitVec.toNat_or,BitVec.toNat_and,value,mask,low,runAddr (by omega),runAddr fits]
  have whole : p.toNat + x / 2^21 * 2^21 = 2^21 * (p.toNat / 2^21 + x / 2^21) := by omega
  rw [whole,← Nat.two_pow_add_eq_or_of_lt (Nat.mod_lt x (by decide)) (p.toNat / 2^21 + x / 2^21)]
  omega

theorem translateRun {t : Tables} {root paddr : BitVec 64}
    (present : walkTables (x64 vmaBase) t root (vaddr + BitVec.ofNat 64 x) &&& (x64 vmaBase).presentMask ≠ 0)
    (frame : walkTables (x64 vmaBase) t root (vaddr + BitVec.ofNat 64 x) &&& (x64 vmaBase).frameMask = paddr)
    (call : paddr = page + BitVec.ofNat 64 (x / 2^21 * 2^21)) (aligned : page.toNat % 2^21 = 0 ∧ vaddr.toNat % 2^21 = 0)
    (fits : page.toNat + x < 2^64 ∧ vaddr.toNat + x < 2^64) :
    translate vmaBase t root (vaddr + BitVec.ofNat 64 x) = some (page + BitVec.ofNat 64 x) := by
  have low : (vaddr + BitVec.ofNat 64 x).toNat % 2^21 = x % 2^21 := by
    rw [runAddr fits.2]
    omega
  rw [translate,if_neg present,frame,call,frameOffset aligned.1 low fits.1]

def InStraight (memMax a : BitVec 64) : Prop := a.toNat / 2^21 * 2^21 < min memMax.toNat (2^30)

def InHighIo (a : BitVec 64) : Prop := kernHighIoArea ≤ a ∧ a < kernHighMemoryBase

structure Intended (vmaBase memMax : BitVec 64) (t : Tables) (root : BitVec 64) : Prop where
  straight : ∀ a, InStraight memMax a → translate vmaBase t root (vmaBase + a) = some a
  highIo : ∀ a, InHighIo a → translate vmaBase t root (highIoToKernStraight a) = some a
  noOther : ∀ v, translate vmaBase t root v ≠ none →
    (∃ a, InStraight memMax a ∧ pageBits (x64 vmaBase) v = pageBits (x64 vmaBase) (vmaBase + a)) ∨
    (∃ a, InHighIo a ∧ pageBits (x64 vmaBase) v = pageBits (x64 vmaBase) (highIoToKernStraight a))

def seventeenth : BitVec 64 := 0xFFFFFFFFFE000000

theorem highIoRun (x) : highIoToKernStraight (kernHighIoArea + BitVec.ofNat 64 x) = kernHighIoBase + BitVec.ofNat 64 x := by
  rw [highIoToKernStraight,BitVec.add_comm kernHighIoArea,BitVec.add_assoc,BitVec.add_comm kernHighIoArea,← BitVec.add_assoc,
    BitVec.add_sub_cancel,BitVec.add_comm]

theorem highIoOffset (inside : InHighIo a) :
    ∃ x < 2^25, a = kernHighIoArea + BitVec.ofNat 64 x ∧ highIoToKernStraight a = kernHighIoBase + BitVec.ofNat 64 x := by
  obtain ⟨low,high⟩ := inside
  have area : kernHighIoArea.toNat = 0xfe000000 := rfl
  have top : kernHighMemoryBase.toNat = 0x100000000 := rfl
  rw [BitVec.le_def,area] at low
  rw [BitVec.lt_def,top] at high
  have value : a = kernHighIoArea + BitVec.ofNat 64 (a.toNat - 0xfe000000) := by
    apply BitVec.eq_of_toNat_eq
    rw [runAddr (by omega),area]
    omega
  refine ⟨a.toNat - 0xfe000000,by omega,value,?_⟩
  rw [← highIoRun,← value]

theorem straightInside (inside : InStraight memMax a) :
    a.toNat / 2^21 < straightPages memMax ∧ a.toNat < 2^30 := by
  unfold InStraight at inside
  unfold straightPages
  omega

theorem seventeenthRun : kernHighIoBase + BitVec.ofNat 64 (16 * 2^21) = seventeenth := by decide

theorem callPage (some : memMax ≠ 0) (member : call ∈ kernelCalls vmaBase memMax) :
    (∃ a, InStraight memMax a ∧ call.vaddr = vmaBase + a) ∨ (∃ a, InHighIo a ∧ call.vaddr = highIoToKernStraight a) ∨
      call.vaddr = seventeenth := by
  rcases memberCalls member with ⟨k,hk,rfl⟩ | ⟨k,hk,rfl⟩
  · refine .inl ⟨BitVec.ofNat 64 (k * 2^21),?_,rfl⟩
    have positive : memMax.toNat ≠ 0 := fun zero => some (BitVec.eq_of_toNat_eq zero)
    have bound := straightPagesBound memMax
    unfold straightPages at hk bound
    rw [InStraight,BitVec.toNat_ofNat,Nat.mod_eq_of_lt (by omega)]
    omega
  · rcases Nat.lt_or_ge k 16 with inside | more
    · refine .inr (.inl ⟨kernHighIoArea + BitVec.ofNat 64 (k * 2^21),?_,(highIoRun _).symm⟩)
      have area : kernHighIoArea.toNat = 0xfe000000 := rfl
      have top : kernHighMemoryBase.toNat = 0x100000000 := rfl
      constructor
      · rw [BitVec.le_def,runAddr (by omega)]
        omega
      · rw [BitVec.lt_def,runAddr (by omega)]
        omega
    · have sixteen : k = 16 := by omega
      rw [sixteen]
      exact .inr (.inr seventeenthRun)

theorem kernelMapped (base : Base vmaBase) (some : memMax ≠ 0) (setting : Setting vmaBase mmu kpgtbl s.heap) (enough : 4 ≤ s.heap.length) :
    ∃ s', x64MapKernel vmaBase mmu kpgtbl s memMax = .some s' ∧
      (∀ a, InStraight memMax a → translate vmaBase s'.tables (mmu kpgtbl) (vmaBase + a) = .some a) ∧
      (∀ a, InHighIo a → translate vmaBase s'.tables (mmu kpgtbl) (highIoToKernStraight a) = .some a) ∧
      translate vmaBase s'.tables (mmu kpgtbl) seventeenth = .some kernHighMemoryBase ∧
      (∀ v, translate vmaBase s'.tables (mmu kpgtbl) v ≠ none →
        (∃ a, InStraight memMax a ∧ pageBits (x64 vmaBase) v = pageBits (x64 vmaBase) (vmaBase + a)) ∨
        (∃ a, InHighIo a ∧ pageBits (x64 vmaBase) v = pageBits (x64 vmaBase) (highIoToKernStraight a)) ∨
        pageBits (x64 vmaBase) v = pageBits (x64 vmaBase) seventeenth) := by
  obtain ⟨s',run,mapped,absent⟩ := @mapsPages (kernelTables vmaBase)
    { s with tables := clear s.tables (mmu kpgtbl) 0 } (x64 vmaBase) mmu kpgtbl _ (x64Sound vmaBase) setting
    (fun i => clearSame _ _ _ i) (callsDistinct base memMax) (fun _ member => callsFrames member)
    (fun _ member => callsTables base member) enough
  obtain ⟨b,value,number,aligned,fits⟩ := baseNumber base
  have io : kernHighIoBase.toNat = 0xFFFFFFFFFC000000 := rfl
  have area : kernHighIoArea.toNat = 0xfe000000 := rfl
  have bound := straightPagesBound memMax
  have same : ∀ {v w}, (pageBits (x64 vmaBase) v).toNat = (pageBits (x64 vmaBase) w).toNat →
      pageBits (x64 vmaBase) v = pageBits (x64 vmaBase) w := fun equal => BitVec.eq_of_toNat_eq equal
  have behind : kernHighIoArea + BitVec.ofNat 64 (16 * 2^21) = kernHighMemoryBase := by decide
  have high : ∀ x < 17 * 2^21, translate vmaBase s'.tables (mmu kpgtbl) (kernHighIoBase + BitVec.ofNat 64 x) =
      .some (kernHighIoArea + BitVec.ofNat 64 x) := by
    intro x small
    obtain ⟨present,frame,_⟩ := mapped _ (List.mem_append_right _ (memberRun.mpr ⟨x / 2^21,by omega,rfl⟩))
      (kernHighIoBase + BitVec.ofNat 64 x) (same (by rw [highNumber (by omega),highNumber (by omega)]; omega))
    exact translateRun present frame rfl (by omega) (by omega)
  refine ⟨s',by rw [x64MapKernelCalls s some]; exact run,?_,?_,?_,?_⟩
  · intro a inside
    have page := straightInside inside
    have number : a = BitVec.ofNat 64 a.toNat := by simp
    have zero : (0 : BitVec 64).toNat = 0 := rfl
    obtain ⟨present,frame,_⟩ := mapped _ (List.mem_append_left _ (memberRun.mpr ⟨a.toNat / 2^21,page.1,rfl⟩))
      (vmaBase + BitVec.ofNat 64 a.toNat)
      (same (by rw [straightNumber base (by omega),straightNumber base (by omega)]; omega))
    have done := translateRun present frame rfl (by omega) (by omega)
    rw [← number] at done
    rw [done]
    exact congrArg _ (BitVec.zero_add a)
  · intro a inside
    obtain ⟨x,small,here,there⟩ := highIoOffset inside
    rw [there,high x (by omega),← here]
  · have done := high (16 * 2^21) (by omega)
    rwa [seventeenthRun,behind] at done
  · intro v found
    have call : ∃ call ∈ kernelCalls vmaBase memMax, pageBits (x64 vmaBase) v = pageBits (x64 vmaBase) call.vaddr := by
      by_contra none
      have zero := absent v (fun call member equal => none ⟨call,member,equal⟩)
      exact found (by rw [translate]; exact if_pos zero)
    obtain ⟨call,member,equal⟩ := call
    rw [equal]
    rcases callPage some member with ⟨a,inside,named⟩ | ⟨a,inside,named⟩ | named
    · exact .inl ⟨a,inside,congrArg _ named⟩
    · exact .inr (.inl ⟨a,inside,congrArg _ named⟩)
    · exact .inr (.inr (congrArg _ named))

theorem seventeenthApart (base : Base vmaBase) (memMax) :
    (∀ a, InStraight memMax a → pageBits (x64 vmaBase) seventeenth ≠ pageBits (x64 vmaBase) (vmaBase + a)) ∧
    (∀ a, InHighIo a → pageBits (x64 vmaBase) seventeenth ≠ pageBits (x64 vmaBase) (highIoToKernStraight a)) := by
  have number : (pageBits (x64 vmaBase) seventeenth).toNat = 2^27 - 16 := by
    rw [pageNumber]
    decide
  constructor
  · intro a inside same
    have page := straightInside inside
    have bound := straightPagesBound memMax
    obtain ⟨b,value,base26,_⟩ := baseNumber base
    have word : a = BitVec.ofNat 64 a.toNat := by simp
    have numbers := congrArg BitVec.toNat same
    rw [number,word,straightNumber base page.2] at numbers
    omega
  · intro a inside same
    obtain ⟨x,small,_,there⟩ := highIoOffset inside
    have numbers := congrArg BitVec.toNat same
    rw [number,there,highNumber (by omega)] at numbers
    omega

theorem x64MapKernelMore (vmaBase : BitVec 64) (mmu : BitVec 64 → BitVec 64) (kpgtbl : BitVec 64) (s : State) (memMax : BitVec 64)
    (base : vmaBase = 0 ∨ vmaBase = 0xFFFF800000000000) (some : memMax ≠ 0) (setting : Setting vmaBase mmu kpgtbl s.heap)
    (enough : 4 ≤ s.heap.length) :
    ∃ s', x64MapKernel vmaBase mmu kpgtbl s memMax = .some s' ∧
      (∀ a, InStraight memMax a → translate vmaBase s'.tables (mmu kpgtbl) (vmaBase + a) = .some a) ∧
      (∀ a, InHighIo a → translate vmaBase s'.tables (mmu kpgtbl) (highIoToKernStraight a) = .some a) ∧
      (∀ v, translate vmaBase s'.tables (mmu kpgtbl) v ≠ none →
        (∃ a, InStraight memMax a ∧ pageBits (x64 vmaBase) v = pageBits (x64 vmaBase) (vmaBase + a)) ∨
        (∃ a, InHighIo a ∧ pageBits (x64 vmaBase) v = pageBits (x64 vmaBase) (highIoToKernStraight a)) ∨
        pageBits (x64 vmaBase) v = pageBits (x64 vmaBase) seventeenth) ∧
      translate vmaBase s'.tables (mmu kpgtbl) seventeenth = .some kernHighMemoryBase ∧
      ¬Intended vmaBase memMax s'.tables (mmu kpgtbl) := by
  obtain ⟨s',run,straight,high,extra,other⟩ := kernelMapped base some setting enough
  refine ⟨s',run,straight,high,other,extra,?_⟩
  intro intended
  have apart := seventeenthApart base memMax
  rcases intended.noOther seventeenth (by rw [extra]; simp) with ⟨a,inside,same⟩ | ⟨a,inside,same⟩
  · exact apart.1 a inside same
  · exact apart.2 a inside same

def bootState : State := { tables := fun _ _ => 0,heap := [0x200000,0x201000,0x202000,0x203000] }

theorem bootSetting : Setting 0 id 0x100000 bootState.heap := by
  have pages : ∀ page ∈ bootState.heap, page = 0x200000 ∨ page = 0x201000 ∨ page = 0x202000 ∨ page = 0x203000 := by
    intro page member
    simpa [bootState] using member
  refine ⟨by decide,by decide,?_,?_,?_,?_⟩ <;> intro page member <;> rcases pages page member with rfl | rfl | rfl | rfl <;>
    decide

theorem x64MapKernelMoreSmall :
    ∃ s, x64MapKernel 0 id 0x100000 bootState 0x300000 = some s ∧ ¬Intended 0 0x300000 s.tables 0x100000 := by
  obtain ⟨s,run,_,_,_,_,never⟩ :=
    x64MapKernelMore 0 id 0x100000 bootState 0x300000 (.inl rfl) (by decide) bootSetting (by decide)
  exact ⟨s,run,never⟩

theorem highIoAreaMapsMore :
    ((x64MapKernel 0 id 0x100000 bootState 0x300000).map
      (fun s => (translate 0 s.tables 0x100000 0x2fffff,translate 0 s.tables 0x100000 0x400000,
        translate 0 s.tables 0x100000 seventeenth))) =
      some (some 0x2fffff,none,some 0x100000000) := by
  decide +kernel

end TskSw.X64Map
