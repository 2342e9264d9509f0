import Mathlib.Data.List.GetD
import TskSw.Acpi
import TskSw.ByteBuffers

/-! The search for the root pointer in `hal/x64/acpi.c`. The specification's two areas are
searched one after the other; the first one lies where a segment word in low memory says.
`memcpy` and `memcmp` appear as what they do for an object apart from the source: its first
bytes are copied, or compared with those of a string. -/
namespace TskSw.Rsdp
open ByteMemory ByteBuffers Acpi

def ebdaEbdapAddr : Addr := 0x40E
def ebdaLen : Nat := 0x400
def biosAreaStart : Nat := 0xE0000
def biosAreaEnd : Nat := 0x100000

def rsdSignature : List UInt8 := [0x52,0x53,0x44,0x20,0x50,0x54,0x52,0x20]
def rsdChecksumLen : Nat := 20
def rsdpSize : Nat := 24

def acpiCopyPhys (upperhalf : Bool) (m : Mem) (phys : Addr) (target : Buffer) (len : Nat) : Buffer :=
  copyIn m (physToKernStraight upperhalf phys) len target

def acpiRsdpTest (rsdp : Buffer) : Bool :=
  let total := (List.range rsdChecksumLen).foldl (fun total i => total + rsdp i) 0
  if total ≠ 0 then false
  else taken rsdp rsdSignature.length == rsdSignature

def search (upperhalf : Bool) (m : Mem) (stop : BitVec 32) : Nat → BitVec 32 → Option (Option Addr)
  | 0,_ => none
  | fuel+1,sp =>
    if sp < stop then
      let rsdp := physToKernStraight upperhalf (sp.setWidth 64)
      if acpiRsdpTest (view m rsdp) then some (some rsdp) else search upperhalf m stop fuel (sp+16)
    else some none

def searchEbda (upperhalf : Bool) (m : Mem) (ebda : BitVec 16) : Option (Option Addr) :=
  if ebda ≠ 0 then
    let ebda := ebda <<< 4
    search upperhalf m (ebda.setWidth 32 + BitVec.ofNat 32 ebdaLen) (2^32) (ebda.setWidth 32)
  else some none

def searchBios (upperhalf : Bool) (m : Mem) : Option (Option Addr) :=
  search upperhalf m (BitVec.ofNat 32 biosAreaEnd) (2^32) (BitVec.ofNat 32 biosAreaStart)

def getAcpiRsdp (upperhalf : Bool) (m : Mem) (info : Buffer) : Option (BitVec 32 × Buffer) := do
  let ebda := le16 (acpiCopyPhys upperhalf m ebdaEbdapAddr (fun _ => 0) 2) 0
  match ← searchEbda upperhalf m ebda with
  | some rsdp => some (1,copyIn m rsdp rsdpSize info)
  | none =>
    match ← searchBios upperhalf m with
    | some rsdp => some (1,copyIn m rsdp rsdpSize info)
    | none => some (0,info)

structure RootPointer (b : Buffer) : Prop where
  signature : taken b 8 = rsdSignature
  checksum : byteSum b 20 % 256 = 0
instance (b : Buffer) : Decidable (RootPointer b) := decidable_of_iff (_ ∧ _) ⟨fun h => ⟨h.1,h.2⟩,fun h => ⟨h.1,h.2⟩⟩

def ebdaWord (upperhalf : Bool) (m : Mem) : BitVec 16 := le16 (view m (physToKernStraight upperhalf ebdaEbdapAddr)) 0

def boundaries (start len : Nat) : List Nat := (List.range' start len).filter (16 ∣ ·)

def searchOrder (word : BitVec 16) : List Nat :=
  boundaries (16 * word.toNat) ebdaLen ++ boundaries biosAreaStart (biosAreaEnd - biosAreaStart)

def place (upperhalf : Bool) (phys : Nat) : Addr := physToKernStraight upperhalf (BitVec.ofNat 64 phys)

def firstRsdp (upperhalf : Bool) (m : Mem) (order : List Nat) : Option Addr :=
  (order.map (place upperhalf)).find? (fun p => decide (RootPointer (view m p)))

def found (m : Mem) (info : Buffer) (first : Option Addr) : BitVec 32 × Buffer :=
  match first with
  | some rsdp => (1,copyIn m rsdp rsdpSize info)
  | none => (0,info)

theorem rsdpTest (b) : acpiRsdpTest b = decide (RootPointer b) := by
  have sum := accumulatedZero b rsdChecksumLen
  rw [Bool.eq_iff_iff,decide_eq_true_iff,acpiRsdpTest]
  by_cases zero : (List.range rsdChecksumLen).foldl (fun total i => total + b i) 0 = 0
  · rw [if_neg (not_not_intro zero),beq_iff_eq]
    exact ⟨fun same => ⟨same,sum.mp zero⟩,fun rsdp => rsdp.signature⟩
  · rw [if_pos zero]
    exact ⟨fun no => absurd no (by decide),fun rsdp => absurd (sum.mpr rsdp.checksum) zero⟩

theorem boundariesStride {start} (k : Nat) (aligned : 16 ∣ start) :
    boundaries start (16*k) = List.range' start k 16 := by
  induction k generalizing start with
  | zero => rfl
  | succ k ih =>
    have split : List.range' start (16*(k+1)) = List.range' start 16 ++ List.range' (start+16) (16*k) := by
      rw [List.range'_append_1]
      congr 1
      omega
    have first : (List.range' start 16).filter (16 ∣ ·) = [start] := by
      rw [List.range'_eq_map_range,List.filter_map]
      have same : ((fun i => decide (16 ∣ i)) ∘ (start + ·)) = fun i => decide (16 ∣ i) := by
        funext i
        simp [Nat.dvd_add_right aligned]
      have zero : (List.range 16).filter (fun i => decide (16 ∣ i)) = [0] := by decide
      rw [same,zero]
      rfl
    rw [boundaries,split,List.filter_append,first,List.range'_succ]
    exact congrArg (start :: ·) (ih (Nat.dvd_add aligned (Nat.dvd_refl 16)))

theorem firstCons (upperhalf m phys order) :
    firstRsdp upperhalf m (phys :: order) =
      if RootPointer (view m (place upperhalf phys)) then some (place upperhalf phys) else firstRsdp upperhalf m order := by
  unfold firstRsdp
  by_cases here : RootPointer (view m (place upperhalf phys)) <;> simp [here]

theorem firstAppend (upperhalf : Bool) (m : Mem) (one other : List Nat) :
    firstRsdp upperhalf m (one ++ other) = (firstRsdp upperhalf m one).or (firstRsdp upperhalf m other) := by
  unfold firstRsdp
  rw [List.map_append,List.find?_append]

theorem searchFinds (upperhalf : Bool) (m : Mem) {stop} (k fuel : Nat) (sp : BitVec 32) (enough : k < fuel)
    (reach : sp.toNat + 16 * k = stop.toNat) :
    search upperhalf m stop fuel sp = some (firstRsdp upperhalf m (List.range' sp.toNat k 16)) := by
  obtain ⟨fuel,rfl⟩ : ∃ f, fuel = f+1 := ⟨fuel-1,by omega⟩
  induction k generalizing fuel sp with
  | zero =>
    have same : sp = stop := BitVec.eq_of_toNat_eq reach
    rw [search,same,if_neg (BitVec.lt_irrefl stop)]
    rfl
  | succ k ih =>
    obtain ⟨fuel,rfl⟩ : ∃ f, fuel = f+1 := ⟨fuel-1,by omega⟩
    have before : sp < stop := BitVec.lt_def.mpr (by omega)
    have bound := stop.isLt
    have next : (sp+16).toNat = sp.toNat + 16 := by bv_omega
    have here : physToKernStraight upperhalf (sp.setWidth 64) = place upperhalf sp.toNat := by
      rw [place,BitVec.ofNat_toNat]
    have rest := ih (sp+16) (by omega) fuel (by omega)
    rw [search,if_pos before,List.range'_succ,firstCons,here,← next]
    dsimp only
    rw [rsdpTest,rest]
    by_cases pointer : RootPointer (view m (place upperhalf sp.toNat)) <;> simp [pointer]

theorem searchBiosFinds (upperhalf m) :
    searchBios upperhalf m = some (firstRsdp upperhalf m (List.range' biosAreaStart 8192 16)) :=
  searchFinds upperhalf m 8192 (2^32) (BitVec.ofNat 32 biosAreaStart) (by decide) (by decide)

def ebdaSearched (word : BitVec 16) : List Nat := if word = 0 then [] else List.range' (word <<< 4).toNat 64 16

theorem searchEbdaFinds (upperhalf : Bool) (m : Mem) (word : BitVec 16) :
    searchEbda upperhalf m word = some (firstRsdp upperhalf m (ebdaSearched word)) := by
  unfold searchEbda ebdaSearched
  by_cases zero : word = 0
  · rw [if_neg (not_not_intro zero),if_pos zero]
    rfl
  · have start : ((word <<< 4).setWidth 32).toNat = (word <<< 4).toNat := by
      rw [BitVec.toNat_setWidth,Nat.mod_eq_of_lt (by omega)]
    have length : (BitVec.ofNat 32 ebdaLen).toNat = 16 * 64 := by decide
    rw [if_pos zero,if_neg zero,← start]
    refine searchFinds upperhalf m 64 (2^32) _ (by decide) ?_
    rw [BitVec.toNat_add,length,Nat.mod_eq_of_lt (by omega)]

def codeOrder (word : BitVec 16) : List Nat := ebdaSearched word ++ List.range' biosAreaStart 8192 16

theorem getRsdp (upperhalf m info) :
    getAcpiRsdp upperhalf m info =
      some (found m info (firstRsdp upperhalf m (codeOrder (ebdaWord upperhalf m)))) := by
  have word : le16 (acpiCopyPhys upperhalf m ebdaEbdapAddr (fun _ => 0) 2) 0 = ebdaWord upperhalf m := le16Copy (by decide)
  unfold getAcpiRsdp
  simp only [word,searchEbdaFinds,searchBiosFinds,codeOrder,firstAppend,bind,Option.bind]
  cases firstRsdp upperhalf m (ebdaSearched (ebdaWord upperhalf m)) with
  | some rsdp => rfl
  | none =>
    cases firstRsdp upperhalf m (List.range' biosAreaStart 8192 16) with
    | some rsdp => rfl
    | none => rfl

theorem boundariesMem {start len phys} :
    phys ∈ boundaries start len ↔ 16 ∣ phys ∧ start ≤ phys ∧ phys < start + len := by
  rw [boundaries,List.mem_filter,List.mem_range'_1,decide_eq_true_iff]
  exact and_comm

theorem shiftedWord (word : BitVec 16) : (word <<< 4).toNat = 16 * word.toNat % 2^16 := by
  rw [BitVec.toNat_shiftLeft,Nat.shiftLeft_eq,Nat.mul_comm]

theorem orderSame {word : BitVec 16} (some : 0 < word.toNat) (small : word.toNat < 0x1000) :
    codeOrder word = searchOrder word := by
  have nonzero : word ≠ 0 := by
    intro zero
    rw [zero] at some
    exact absurd some (by decide)
  have start : (word <<< 4).toNat = 16 * word.toNat := by
    rw [shiftedWord]
    omega
  have ebda : boundaries (16 * word.toNat) ebdaLen = List.range' (16 * word.toNat) 64 16 :=
    boundariesStride 64 (Nat.dvd_mul_right 16 _)
  have bios : boundaries biosAreaStart (biosAreaEnd - biosAreaStart) = List.range' biosAreaStart 8192 16 :=
    boundariesStride 8192 (by decide)
  rw [codeOrder,ebdaSearched,if_neg nonzero,start,searchOrder,ebda,bios]

def rsdpBytes : List UInt8 := rsdSignature ++ [0xE1]

def imageByte (word : BitVec 16) (phys n : Nat) : UInt8 :=
  if n = 0x40E then UInt8.ofBitVec (word.extractLsb' 0 8)
  else if n = 0x40F then UInt8.ofBitVec (word.extractLsb' 8 8)
  else if n < phys then 0
  else rsdpBytes.getD (n - phys) 0

def image (upperhalf : Bool) (word : BitVec 16) (phys : Nat) : Mem :=
  fun a => imageByte word phys (a - kernVmaBase upperhalf).toNat

variable (upperhalf : Bool) (word : BitVec 16) {phys : Nat}

theorem imageView (phys) {q i} (small : q + i < 2^64) :
    view (image upperhalf word phys) (place upperhalf q) i = imageByte word phys (q+i) := by
  have back : offset (place upperhalf q) i - kernVmaBase upperhalf = BitVec.ofNat 64 (q+i) := by
    unfold offset place physToKernStraight
    rw [BitVec.ofNat_add]
    bv_omega
  rw [view,image,back,BitVec.toNat_ofNat,Nat.mod_eq_of_lt small]

theorem imageWord (phys : Nat) : ebdaWord upperhalf (image upperhalf word phys) = word := by
  have here : physToKernStraight upperhalf ebdaEbdapAddr = place upperhalf 0x40E := rfl
  rw [ebdaWord,here,le16,imageView upperhalf word phys (by decide),imageView upperhalf word phys (by decide)]
  have low : imageByte word phys (0x40E+0) = UInt8.ofBitVec (word.extractLsb' 0 8) := rfl
  have high : imageByte word phys (0x40E+(0+1)) = UInt8.ofBitVec (word.extractLsb' 8 8) := rfl
  have whole : word.extractLsb' 8 8 ++ word.extractLsb' 0 8 = word.extractLsb' 0 16 :=
    BitVec.extractLsb'_append_extractLsb'_eq_extractLsb' rfl
  rw [low,high]
  exact whole.trans BitVec.extractLsb'_eq_self

theorem imagePointer (clear : phys + 20 ≤ 0x40E ∨ 0x410 ≤ phys) (small : phys < 2^32) :
    RootPointer (view (image upperhalf word phys) (place upperhalf phys)) := by
  have bytes : ∀ i < 20, view (image upperhalf word phys) (place upperhalf phys) i = rsdpBytes.getD i 0 := by
    intro i hi
    rw [imageView upperhalf word phys (by omega),imageByte,if_neg (by omega),if_neg (by omega),if_neg (by omega),
      Nat.add_sub_cancel_left]
  have signature : taken (fun i => rsdpBytes.getD i 0) 8 = rsdSignature := by decide
  have checksum : byteSum (fun i => rsdpBytes.getD i 0) 20 % 256 = 0 := by decide
  refine ⟨?_,?_⟩
  · rw [← signature]
    exact takenSame.mpr (fun i hi => bytes i (by omega))
  · rwa [byteSumSame bytes]

theorem imageElsewhere {q} (aligned : 16 ∣ phys) (boundary : 16 ∣ q) (small : q < 2^32) (other : q ≠ phys) :
    ¬RootPointer (view (image upperhalf word phys) (place upperhalf q)) := by
  intro pointer
  have first : view (image upperhalf word phys) (place upperhalf q) 0 = 0x52 := by
    have head := congrArg (·[0]?) pointer.signature
    simpa [taken,rsdSignature] using head
  have nothing : imageByte word phys q = 0 := by
    rw [imageByte,if_neg (by omega),if_neg (by omega)]
    split
    · rfl
    · exact List.getD_eq_default _ _ (by simp [rsdpBytes,rsdSignature]; omega)
  rw [imageView upperhalf word phys (by omega),Nat.add_zero,nothing] at first
  exact absurd first (by decide)

theorem imageFirst (aligned : 16 ∣ phys) (clear : phys + 20 ≤ 0x40E ∨ 0x410 ≤ phys) (order)
    (places : ∀ q ∈ order, 16 ∣ q ∧ q < 2^32) :
    firstRsdp upperhalf (image upperhalf word phys) order = if phys ∈ order then some (place upperhalf phys) else none := by
  induction order with
  | nil => rfl
  | cons q order ih =>
    have here := places q List.mem_cons_self
    rw [firstCons,ih (fun q hq => places q (List.mem_cons_of_mem _ hq))]
    by_cases same : q = phys
    · subst same
      rw [if_pos (imagePointer upperhalf word clear here.2),if_pos List.mem_cons_self]
    · rw [if_neg (imageElsewhere upperhalf word aligned here.1 here.2 same)]
      simp [List.mem_cons,Ne.symm same]

theorem searchOrderPlaces {q} (member : q ∈ searchOrder word) : 16 ∣ q ∧ q < 2^32 := by
  have bound := word.isLt
  rcases List.mem_append.mp member with ebda | bios
  · obtain ⟨aligned,_,before⟩ := boundariesMem.mp ebda
    exact ⟨aligned,by unfold ebdaLen at before; omega⟩
  · obtain ⟨aligned,_,before⟩ := boundariesMem.mp bios
    exact ⟨aligned,by unfold biosAreaStart biosAreaEnd at before; omega⟩

theorem codeOrderMem {q : Nat} : q ∈ codeOrder word ↔
    word ≠ 0 ∧ (∃ i < 64, q = 16 * word.toNat % 2^16 + 16 * i) ∨ ∃ i < 8192, q = biosAreaStart + 16 * i := by
  rw [codeOrder,List.mem_append,List.mem_range',ebdaSearched,← shiftedWord]
  by_cases zero : word = 0
  · simp [zero]
  · rw [if_neg zero,List.mem_range',and_iff_right zero]

theorem codeOrderPlaces {q : Nat} (member : q ∈ codeOrder word) : 16 ∣ q ∧ q < 2^32 := by
  rcases (codeOrderMem word).mp member with ⟨_,i,hi,rfl⟩ | ⟨i,hi,rfl⟩
  · omega
  · unfold biosAreaStart
    omega

theorem searchOrderMem {q : Nat} : q ∈ searchOrder word ↔
    16 ∣ q ∧ (16 * word.toNat ≤ q ∧ q < 16 * word.toNat + 0x400 ∨ 0xE0000 ≤ q ∧ q < 0x100000) := by
  rw [searchOrder,List.mem_append,boundariesMem,boundariesMem]
  exact and_or_left.symm

theorem ordersDiffer (outside : ¬(0 < word.toNat ∧ word.toNat < 0x1000)) :
    ∃ phys, 16 ∣ phys ∧ (phys + 20 ≤ 0x40E ∨ 0x410 ≤ phys) ∧ (phys ∈ codeOrder word ↔ phys ∉ searchOrder word) := by
  have bound := word.isLt
  by_cases zero : word = 0
  · subst zero
    refine ⟨0,by decide,by decide,?_⟩
    rw [codeOrderMem,searchOrderMem]
    unfold biosAreaStart
    simp
    omega
  · have some : 0 < word.toNat := Nat.pos_of_ne_zero (fun no => zero (BitVec.eq_of_toNat_eq no))
    refine ⟨16 * word.toNat % 2^16 + (if 16 * word.toNat % 2^16 = 0x400 then 16 else 0),by split <;> omega,by split <;> omega,?_⟩
    refine iff_of_true ((codeOrderMem word).mpr (.inl ⟨zero,?_⟩)) ?_
    · split
      · exact ⟨1,by decide,rfl⟩
      · exact ⟨0,by decide,rfl⟩
    · rw [searchOrderMem]
      split <;> omega

theorem rsdpFoundExact (upperhalf : Bool) (word : BitVec 16) :
    (∀ (m : Mem) (info : Buffer), ebdaWord upperhalf m = word →
      getAcpiRsdp upperhalf m info = some (found m info (firstRsdp upperhalf m (searchOrder word)))) ↔
      0 < word.toNat ∧ word.toNat < 0x1000 := by
  constructor
  · intro right
    by_contra outside
    obtain ⟨phys,aligned,clear,differ⟩ := ordersDiffer word outside
    have same := right (image upperhalf word phys) (fun _ => 0) (imageWord upperhalf word phys)
    rw [getRsdp,imageWord,imageFirst upperhalf word aligned clear _ (fun _ => codeOrderPlaces word),
      imageFirst upperhalf word aligned clear _ (fun _ => searchOrderPlaces word)] at same
    have codes := congrArg Prod.fst (Option.some.inj same)
    by_cases searched : phys ∈ codeOrder word
    · rw [if_pos searched,if_neg (differ.mp searched)] at codes
      simp [found] at codes
    · rw [if_neg searched,if_pos (not_not.mp (fun no => searched (differ.mpr no)))] at codes
      simp [found] at codes
  · rintro ⟨some,small⟩ m info rfl
    rw [getRsdp,orderSame some small]

theorem ebdaNotSearched :
    let m := image false 0x9fc0 0x9fc00
    ebdaWord false m = 0x9fc0 ∧ 0x9fc00 ∈ searchOrder 0x9fc0 ∧ RootPointer (view m (place false 0x9fc00)) ∧
    ∀ info, getAcpiRsdp false m info = some (0,info) := by
  refine ⟨imageWord _ _ _,(searchOrderMem _).mpr (by decide),imagePointer _ _ (by decide) (by decide),fun info => ?_⟩
  have absent : 0x9fc00 ∉ codeOrder 0x9fc0 := by
    rw [codeOrderMem]
    rintro (⟨_,i,hi,same⟩ | ⟨i,hi,same⟩)
    · have start : 16 * (0x9fc0 : BitVec 16).toNat % 2^16 = 0xfc00 := by decide
      omega
    · unfold biosAreaStart at same
      omega
  rw [getRsdp,imageWord,imageFirst _ _ (by decide) (by decide) _ (fun _ => codeOrderPlaces _),if_neg absent]
  rfl

end TskSw.Rsdp
