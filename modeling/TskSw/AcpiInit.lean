import TskSw.Rsdp

/-! `x64_acpi_init` of `hal/x64/acpi.c`: the RSDT is read into a local of fixed size and its
entries are entered into `g_acpi_info`. The local and `g_acpi_info` are objects apart from
the firmware's tables; every index into them is logged. -/
namespace TskSw.AcpiInit
open ByteMemory ByteBuffers Acpi Rsdp

def maxRsdt : Nat := 35
def sdtSignatureLen : Nat := 4
def sdtHeaderSize : Nat := 36
def rsdtSize : Nat := sdtHeaderSize + 4 * maxRsdt

def rsdtName : List UInt8 := [0x52,0x53,0x44,0x54]
def apicName : List UInt8 := [0x41,0x50,0x49,0x43]
def facpName : List UInt8 := [0x46,0x41,0x43,0x50]
def hpetName : List UInt8 := [0x48,0x50,0x45,0x54]

def acpiCheckCsum (tb : Buffer) (size : BitVec 64) : Nat → BitVec 32 → UInt8 → Option (BitVec 32 × List Int)
  | 0,_,_ => none
  | fuel+1,i,total =>
    if i.signExtend 64 < size then
      (acpiCheckCsum tb size fuel (i+1) (total + tb i.toNat)).map (fun (rc,reads) => (rc,i.toInt :: reads))
    else some (if total = 0 then 0 else -1,[])

structure SdtRead where
  s : BitVec 32
  tb : Buffer
  reads : List Int

def readSdtAt (upperhalf : Bool) (m : Mem) (addr : Addr) (tb : Buffer) (size : BitVec 64) (name : List UInt8) :
    Option SdtRead :=
  let tb := acpiCopyPhys upperhalf m addr tb sdtHeaderSize
  if taken tb sdtSignatureLen ≠ name then some { s := -1,tb,reads := [] }
  else if size < (le32 tb 4).setWidth 64 then some { s := -1,tb,reads := [] }
  else
    let tb := acpiCopyPhys upperhalf m addr tb size.toNat
    (acpiCheckCsum tb ((le32 tb 4).setWidth 64) (2^32) 0 0).map fun (rc,reads) =>
      if rc ≠ 0 then { s := -1,tb,reads } else { s := le32 tb 4,tb,reads }

structure SdtEntry extends SdtTrans where
  paddr : BitVec 32
  length : BitVec 64
  deriving Repr

structure GAcpiInfo where
  rsdp : Buffer
  sdtTrans : Nat → SdtEntry
  sdtCount : BitVec 32

def cleared : GAcpiInfo where
  rsdp := fun _ => 0
  sdtTrans := fun _ => { type := .none,kaddr := 0,paddr := 0,length := 0 }
  sdtCount := 0

inductive Access where
  | csum (i : Int) | data (i : Int) | trans (i : Int)
  deriving DecidableEq, Repr

def sdtType (hdr : Buffer) : SdtType :=
  if taken hdr sdtSignatureLen = apicName then .apic
  else if taken hdr sdtSignatureLen = facpName then .facp
  else if taken hdr sdtSignatureLen = hpetName then .hpet
  else .none

def sdtEntry (upperhalf : Bool) (paddr : BitVec 32) (hdr : Buffer) : SdtEntry where
  type := sdtType hdr
  kaddr := physToKernStraight upperhalf (paddr.setWidth 64)
  paddr
  length := (le32 hdr 4).setWidth 64

def rsdtData (rsdt : Buffer) (i : Nat) : BitVec 32 := le32 rsdt (sdtHeaderSize + 4 * i)

def fillTables (upperhalf : Bool) (m : Mem) (rsdt : Buffer) (sdtCount : BitVec 32) :
    Nat → BitVec 32 → Buffer → (Nat → SdtEntry) → Option ((Nat → SdtEntry) × List Access)
  | 0,_,_,_ => none
  | fuel+1,i,hdr,sdtTrans =>
    if i.slt sdtCount then
      let paddr := rsdtData rsdt i.toNat
      let hdr := acpiCopyPhys upperhalf m (paddr.setWidth 64) hdr sdtHeaderSize
      (fillTables upperhalf m rsdt sdtCount fuel (i+1) hdr
          (Function.update sdtTrans i.toNat (sdtEntry upperhalf paddr hdr))).map
        (fun (sdtTrans,log) => (sdtTrans,.data i.toInt :: .trans i.toInt :: log))
    else some (sdtTrans,[])

def countOf (s : BitVec 32) : BitVec 32 := ((s.signExtend 64 - BitVec.ofNat 64 sdtHeaderSize) / 4).setWidth 32

structure Init where
  info : GAcpiInfo
  accesses : List Access

def x64AcpiInit (upperhalf : Bool) (m : Mem) (rsdt hdr : Buffer) : Option Init := do
  let (rc,rsdp) ← getAcpiRsdp upperhalf m cleared.rsdp
  if rc ≠ 1 then some { info := { cleared with rsdp },accesses := [] }
  else
    let rsdtAddr := le32 rsdp 16
    let read ← readSdtAt upperhalf m (rsdtAddr.setWidth 64) rsdt (BitVec.ofNat 64 rsdtSize) rsdtName
    let sdtCount := countOf read.s
    let (sdtTrans,log) ← fillTables upperhalf m read.tb sdtCount (2^32) 0 hdr cleared.sdtTrans
    some { info := { rsdp,sdtTrans,sdtCount },accesses := read.reads.map .csum ++ log }

def Access.Inside : Access → Prop
  | .csum i => 0 ≤ i ∧ i < rsdtSize
  | .data i | .trans i => 0 ≤ i ∧ i < maxRsdt

theorem smallIndex {n} (small : n < 2^31) :
    (BitVec.ofNat 32 n).toNat = n ∧ (BitVec.ofNat 32 n).toInt = n ∧
    (BitVec.ofNat 32 n).signExtend 64 = BitVec.ofNat 64 n := by
  have value : (BitVec.ofNat 32 n).toNat = n := by
    rw [BitVec.toNat_ofNat,Nat.mod_eq_of_lt (by omega)]
  have positive : (BitVec.ofNat 32 n).msb = false := by
    rw [BitVec.msb_eq_decide,value,decide_eq_false_iff_not]
    omega
  refine ⟨value,?_,?_⟩
  · rw [BitVec.toInt_eq_toNat_of_msb positive,value]
  · rw [BitVec.signExtend_eq_setWidth_of_msb_false positive,← BitVec.ofNat_toNat,value]

theorem nextIndex (n) : BitVec.ofNat 32 n + 1 = BitVec.ofNat 32 (n+1) := (BitVec.ofNat_add n 1).symm

theorem csumRun (tb : Buffer) {size} (small : size.toNat < 2^31) (k fuel i : Nat) (total : UInt8)
    (enough : k < fuel) (reach : i + k = size.toNat) :
    acpiCheckCsum tb size fuel (BitVec.ofNat 32 i) total =
      some (if (List.range' i k).foldl (fun total j => total + tb j) total = 0 then 0 else -1,
        (List.range' i k).map Int.ofNat) := by
  obtain ⟨fuel,rfl⟩ : ∃ f, fuel = f+1 := ⟨fuel-1,by omega⟩
  induction k generalizing fuel i total with
  | zero =>
    obtain ⟨_,_,extended⟩ := smallIndex (n := i) (by omega)
    have behind : ¬BitVec.ofNat 64 i < size := by
      rw [BitVec.lt_def,BitVec.toNat_ofNat]
      omega
    rw [acpiCheckCsum,extended,if_neg behind]
    rfl
  | succ k ih =>
    obtain ⟨fuel,rfl⟩ : ∃ f, fuel = f+1 := ⟨fuel-1,by omega⟩
    obtain ⟨value,index,extended⟩ := smallIndex (n := i) (by omega)
    have before : BitVec.ofNat 64 i < size := by
      rw [BitVec.lt_def,BitVec.toNat_ofNat]
      omega
    rw [acpiCheckCsum,extended,if_pos before,nextIndex,value,ih (i+1) _ (by omega) fuel (by omega),List.range'_succ,
      Option.map_some,index]
    rfl

theorem checkCsum (tb) {size} (small : size.toNat < 2^31) :
    acpiCheckCsum tb size (2^32) 0 0 =
      some (if byteSum tb size.toNat % 256 = 0 then 0 else -1,(List.range size.toNat).map Int.ofNat) := by
  have run := csumRun tb small size.toNat (2^32) 0 0 (by omega) (Nat.zero_add _)
  rw [← List.range_eq_range'] at run
  simp only [accumulatedZero] at run
  exact run

def tableAt (upperhalf : Bool) (m : Mem) (addr : Addr) : Buffer := view m (physToKernStraight upperhalf addr)

structure Sdt (b : Buffer) (name : List UInt8) (size : Nat) : Prop where
  signature : taken b sdtSignatureLen = name
  fits : (le32 b 4).toNat ≤ size
  checksum : byteSum b (le32 b 4).toNat % 256 = 0

theorem readSdt (upperhalf m addr tb name size)
    (header : sdtHeaderSize ≤ size.toNat) (small : size.toNat < 2^31) :
    ∃ read, readSdtAt upperhalf m addr tb size name = some read ∧ (∀ i ∈ read.reads, 0 ≤ i ∧ i < size.toNat) ∧
      (Sdt (tableAt upperhalf m addr) name size.toNat ∧ read.s = le32 (tableAt upperhalf m addr) 4 ∨
        ¬Sdt (tableAt upperhalf m addr) name size.toNat ∧ read.s = -1) := by
  generalize given : tableAt upperhalf m addr = table
  have field : 4 + 4 ≤ sdtHeaderSize := by decide
  have signature : taken (acpiCopyPhys upperhalf m addr tb sdtHeaderSize) sdtSignatureLen = taken table sdtSignatureLen :=
    given ▸ takenCopy (by decide)
  have length : le32 (acpiCopyPhys upperhalf m addr tb sdtHeaderSize) 4 = le32 table 4 := given ▸ le32Copy field
  unfold readSdtAt
  dsimp only
  rw [signature,length]
  by_cases named : taken table sdtSignatureLen = name
  · rw [if_neg (not_not_intro named)]
    by_cases fits : (le32 table 4).toNat ≤ size.toNat
    · have wide : ((le32 table 4).setWidth 64).toNat = (le32 table 4).toNat := by
        rw [BitVec.toNat_setWidth,Nat.mod_eq_of_lt (by omega)]
      have again : le32 (acpiCopyPhys upperhalf m addr (acpiCopyPhys upperhalf m addr tb sdtHeaderSize) size.toNat) 4 =
          le32 table 4 := given ▸ le32Copy (Nat.le_trans field header)
      have sum : byteSum (acpiCopyPhys upperhalf m addr (acpiCopyPhys upperhalf m addr tb sdtHeaderSize) size.toNat)
          (le32 table 4).toNat = byteSum table (le32 table 4).toNat :=
        byteSumSame (fun i hi => given ▸ copyInside (Nat.lt_of_lt_of_le hi fits))
      have within : ∀ i ∈ (List.range (le32 table 4).toNat).map Int.ofNat, 0 ≤ i ∧ i < size.toNat := by
        intro i member
        obtain ⟨j,hj,rfl⟩ := List.mem_map.mp member
        have := List.mem_range.mp hj
        exact ⟨Int.natCast_nonneg j,Int.ofNat_lt.mpr (by omega)⟩
      rw [if_neg (by rw [BitVec.lt_def,wide]; omega),again,checkCsum _ (by omega),wide,sum,Option.map_some]
      by_cases zero : byteSum table (le32 table 4).toNat % 256 = 0
      · rw [if_pos zero]
        exact ⟨_,rfl,within,.inl ⟨⟨named,fits,zero⟩,rfl⟩⟩
      · rw [if_neg zero]
        exact ⟨_,rfl,within,.inr ⟨fun sdt => zero sdt.checksum,rfl⟩⟩
    · rw [if_pos (by rw [BitVec.lt_def,BitVec.toNat_setWidth]; omega)]
      exact ⟨_,rfl,by simp,.inr ⟨fun sdt => fits sdt.fits,rfl⟩⟩
  · rw [if_pos named]
    exact ⟨_,rfl,by simp,.inr ⟨fun sdt => named sdt.signature,rfl⟩⟩

theorem countValue {n} (small : n < 2^31) :
    (countOf (BitVec.ofNat 32 n)).toNat = (2^64 - sdtHeaderSize + n) % 2^64 / 4 % 2^32 := by
  have size : (BitVec.ofNat 64 sdtHeaderSize).toNat = sdtHeaderSize := by decide
  have four : (4 : BitVec 64).toNat = 4 := by decide
  rw [countOf,(smallIndex small).2.2,BitVec.toNat_setWidth,BitVec.toNat_udiv,BitVec.toNat_sub,size,four,
    BitVec.toNat_ofNat,Nat.mod_eq_of_lt (by omega : n < 2^64)]

theorem countLong {n : Nat} (header : sdtHeaderSize ≤ n) (small : n < 2^31) :
    (countOf (BitVec.ofNat 32 n)).toInt = ((n - sdtHeaderSize) / 4 : Nat) := by
  have value := countValue small
  rw [BitVec.toInt_eq_toNat_cond,value]
  unfold sdtHeaderSize at *
  split <;> omega

theorem countShort {n : Nat} (short : n < sdtHeaderSize) : (countOf (BitVec.ofNat 32 n)).toInt < 0 := by
  have value := countValue (n := n) (by unfold sdtHeaderSize at short; omega)
  rw [BitVec.toInt_eq_toNat_cond,value]
  unfold sdtHeaderSize at *
  split <;> omega

theorem countFailed : (countOf (-1)).toInt = -10 := by decide

def entryAt (upperhalf : Bool) (m : Mem) (rsdt : Buffer) (j : Nat) : SdtEntry :=
  sdtEntry upperhalf (rsdtData rsdt j) (tableAt upperhalf m ((rsdtData rsdt j).setWidth 64))

theorem entryCopied (upperhalf m rsdt hdr j) :
    sdtEntry upperhalf (rsdtData rsdt j)
      (acpiCopyPhys upperhalf m ((rsdtData rsdt j).setWidth 64) hdr sdtHeaderSize) = entryAt upperhalf m rsdt j := by
  unfold entryAt sdtEntry sdtType acpiCopyPhys tableAt
  rw [takenCopy (by decide),le32Copy (by decide)]

def entered (upperhalf : Bool) (m : Mem) (rsdt : Buffer) (i k : Nat) (sdtTrans : Nat → SdtEntry) : Nat → SdtEntry :=
  fun j => if i ≤ j ∧ j < i + k then entryAt upperhalf m rsdt j else sdtTrans j

variable (upperhalf : Bool) (m : Mem) (rsdt : Buffer)

theorem enteredNone (i : Nat) (sdtTrans : Nat → SdtEntry) : entered upperhalf m rsdt i 0 sdtTrans = sdtTrans := by
  funext j
  exact if_neg (by omega)

theorem enteredFirst (i k : Nat) (sdtTrans : Nat → SdtEntry) :
    entered upperhalf m rsdt (i+1) k (Function.update sdtTrans i (entryAt upperhalf m rsdt i)) =
      entered upperhalf m rsdt i (k+1) sdtTrans := by
  funext j
  unfold entered
  rcases Nat.lt_trichotomy j i with before | rfl | behind
  · rw [if_neg (by omega),if_neg (by omega),Function.update_of_ne (by omega)]
  · rw [if_neg (by omega),if_pos (by omega),Function.update_self]
  · congr 1
    · exact propext (by omega)
    · rw [Function.update_of_ne (by omega)]

def touched (j : Nat) : List Access := [.data j,.trans j]

theorem fillRun (hdr) (sdtTrans : Nat → SdtEntry) (sdtCount k fuel i) (enough : k < fuel)
    (reach : i + k = sdtCount.toInt.toNat) :
    fillTables upperhalf m rsdt sdtCount fuel (BitVec.ofNat 32 i) hdr sdtTrans =
      some (entered upperhalf m rsdt i k sdtTrans,(List.range' i k).flatMap touched) := by
  have bound : sdtCount.toInt < 2^31 := by
    have := sdtCount.toInt_lt
    simpa using this
  obtain ⟨fuel,rfl⟩ : ∃ f, fuel = f+1 := ⟨fuel-1,by omega⟩
  induction k generalizing fuel i hdr sdtTrans with
  | zero =>
    obtain ⟨_,index,_⟩ := smallIndex (n := i) (by omega)
    have behind : ¬(BitVec.ofNat 32 i).slt sdtCount := by
      rw [BitVec.slt_eq_decide,decide_eq_true_iff,index]
      omega
    rw [fillTables,if_neg behind,enteredNone]
    rfl
  | succ k ih =>
    obtain ⟨fuel,rfl⟩ : ∃ f, fuel = f+1 := ⟨fuel-1,by omega⟩
    obtain ⟨value,index,_⟩ := smallIndex (n := i) (by omega)
    have before : (BitVec.ofNat 32 i).slt sdtCount := by
      rw [BitVec.slt_eq_decide,decide_eq_true_iff,index]
      omega
    rw [fillTables,if_pos before,nextIndex,value]
    dsimp only
    rw [entryCopied,ih _ _ (i+1) (by omega) fuel (by omega),enteredFirst,index,List.range'_succ]
    rfl

theorem countBound {s} (read : s = -1 ∨ s.toNat ≤ rsdtSize) : (countOf s).toInt ≤ maxRsdt := by
  rcases read with rfl | small
  · rw [countFailed]
    decide
  · have value : BitVec.ofNat 32 s.toNat = s := by rw [BitVec.ofNat_toNat,BitVec.setWidth_eq]
    have size : rsdtSize = 176 := rfl
    have most : maxRsdt = 35 := rfl
    rcases Nat.lt_or_ge s.toNat sdtHeaderSize with short | long
    · have count := countShort short
      rw [value] at count
      omega
    · have count := countLong long (by omega)
      rw [value] at count
      unfold sdtHeaderSize at count
      omega

example : (countOf (BitVec.ofNat 32 rsdtSize)).toInt = maxRsdt := by decide

theorem touchedInside {n} (few : n ≤ maxRsdt) : ∀ a ∈ (List.range' 0 n).flatMap touched, a.Inside := by
  intro a member
  obtain ⟨j,hj,here⟩ := List.mem_flatMap.mp member
  have index : (j : Int) < maxRsdt := by
    have := List.mem_range'_1.mp hj
    omega
  have which : a = .data j ∨ a = .trans j := by simpa [touched] using here
  rcases which with rfl | rfl
  · exact ⟨Int.natCast_nonneg j,index⟩
  · exact ⟨Int.natCast_nonneg j,index⟩

structure Initialized (info : GAcpiInfo) : Prop where
  count : info.sdtCount.toInt ≤ maxRsdt
  entries : ∀ j, (info.sdtTrans j).kaddr = 0 ∨
    ∃ paddr : BitVec 32, (info.sdtTrans j).kaddr = physToKernStraight upperhalf (paddr.setWidth 64)

theorem initRun (hdr) :
    ∃ out, x64AcpiInit upperhalf m rsdt hdr = some out ∧ (∀ a ∈ out.accesses, a.Inside) ∧ Initialized upperhalf out.info := by
  unfold x64AcpiInit
  rw [getRsdp]
  cases firstRsdp upperhalf m (codeOrder (ebdaWord upperhalf m)) with
  | none => exact ⟨_,rfl,by simp,⟨by decide,fun j => .inl rfl⟩⟩
  | some p =>
    obtain ⟨read,ran,reads,outcome⟩ := readSdt upperhalf m ((le32 (copyIn m p rsdpSize cleared.rsdp) 16).setWidth 64) rsdt
      rsdtName (BitVec.ofNat 64 rsdtSize) (by decide) (by decide)
    have result : read.s = -1 ∨ read.s.toNat ≤ rsdtSize := by
      rcases outcome with ⟨sdt,length⟩ | ⟨_,failed⟩
      · exact .inr (length ▸ sdt.fits)
      · exact .inl failed
    have count := countBound result
    have most : maxRsdt = 35 := rfl
    have fill := fillRun upperhalf m read.tb hdr cleared.sdtTrans (countOf read.s) _ (2^32) 0 (by omega) (Nat.zero_add _)
    have start : (0 : BitVec 32) = BitVec.ofNat 32 0 := rfl
    simp only [found,bind,Option.bind,ran,start,fill]
    refine ⟨_,if_neg (by decide),?_,⟨count,?_⟩⟩
    · intro a member
      rcases List.mem_append.mp member with csum | fills
      · obtain ⟨i,hi,rfl⟩ := List.mem_map.mp csum
        exact reads i hi
      · exact touchedInside (by omega) a fills
    · intro j
      dsimp only [entered]
      split
      · exact .inr ⟨rsdtData read.tb j,rfl⟩
      · exact .inl rfl

theorem initInside (upperhalf : Bool) (m : Mem) (rsdt hdr : Buffer) :
    ∃ out, x64AcpiInit upperhalf m rsdt hdr = some out ∧ out.info.sdtCount.toInt ≤ maxRsdt ∧
      ∀ a ∈ out.accesses, a.Inside := by
  obtain ⟨out,ran,inside,initialized⟩ := initRun upperhalf m rsdt hdr
  exact ⟨out,ran,initialized.count,inside⟩

def GAcpiInfo.tables (info : GAcpiInfo) : AcpiInfo where
  sdtTrans := (List.range info.sdtCount.toInt.toNat).map (fun i => (info.sdtTrans i).toSdtTrans)

theorem baseStraight {info} (initialized : Initialized upperhalf info) (type) :
    (acpiGetTableBase info.tables type).toNat + 2^33 ≤ 2^64 := by
  unfold acpiGetTableBase
  split
  · rename_i entry found
    obtain ⟨j,_,rfl⟩ := List.mem_map.mp (List.mem_of_find?_eq_some found)
    rcases initialized.entries j with zero | ⟨paddr,straight⟩
    · rw [zero]
      decide
    · rw [straight]
      exact straightRoom upperhalf paddr
  · decide

theorem lapicReturns (hdr) {out} (ran : x64AcpiInit upperhalf m rsdt hdr = some out) (later idx) :
    ∃ r, acpiGetLapic later out.info.tables idx = some r := by
  obtain ⟨_,same,_,initialized⟩ := initRun upperhalf m rsdt hdr
  cases Option.some.inj (same.symm.trans ran)
  obtain ⟨_,w,_,walk,_⟩ := walkRoom later (baseStraight upperhalf initialized .apic) madtTypeLapic idx
  unfold acpiGetLapic
  dsimp only
  split
  · exact ⟨_,rfl⟩
  · rw [walk]
    exact ⟨_,rfl⟩

end TskSw.AcpiInit
