import Mathlib.Data.List.TakeWhile
import TskSw.ByteMemory

/-! The tables of `hal/x64/acpi.c` in the straight-mapped memory: the items of a MADT,
each found again by walking the table from its start, and the enumeration of the local
APICs over them. -/
namespace TskSw.Acpi
open ByteMemory

def kernVmaBase (upperhalf : Bool) : Addr := if upperhalf then 0xFFFF800000000000 else 0

def physToKernStraight (upperhalf : Bool) (phys : Addr) : Addr := phys + kernVmaBase upperhalf

inductive SdtType where
  | none | facp | apic | hpet
  deriving DecidableEq, Repr

structure SdtTrans where
  type : SdtType
  kaddr : Addr
  deriving DecidableEq, Repr

structure AcpiInfo where
  sdtTrans : List SdtTrans
  deriving Repr

def acpiGetTableBase (info : AcpiInfo) (type : SdtType) : Addr :=
  match info.sdtTrans.find? (fun entry => entry.type == type) with
  | some entry => entry.kaddr
  | none => 0

def sdtLength (m : Mem) (hdr : Addr) : BitVec 32 := load32 m (offset hdr 4)

def madtHdrSize : Nat := 44

structure Walk where
  item : Option Addr
  reads : List Addr
  deriving DecidableEq, Repr

def madtScan (m : Mem) (type : UInt8) (idx : BitVec 32) (last : Addr) : Nat → Addr → BitVec 32 → Option Walk
  | 0,_,_ => none
  | fuel+1,t,i =>
    if t < last then
      if m t = type ∧ i = idx then some { item := some t,reads := [t] }
      else
        let i := if m t = type then i+1 else i
        if m (t+1) = 0 then some { item := none,reads := [t,t+1] }
        else
          (madtScan m type idx last fuel (offset t (m (t+1)).toNat) i).map
            (fun w => { w with reads := t :: (t+1) :: w.reads })
    else some { item := none,reads := [] }

def madtGetTypedItem (m : Mem) (hdr : Addr) (type : UInt8) (idx : BitVec 32) : Option Walk :=
  madtScan m type idx (offset hdr (sdtLength m hdr).toNat) (2^64) (offset hdr madtHdrSize) 0

def madtTypeLapic : UInt8 := 0

def procEnabled (m : Mem) (lapic : Addr) : Bool := load32 m (offset lapic 4) &&& 1 ≠ 0

def acpiGetLapic (m : Mem) (info : AcpiInfo) (idx : BitVec 32) : Option (Option Addr × BitVec 32) :=
  let madtHdr := acpiGetTableBase info .apic
  if idx = 0 ∧ madtHdr = 0 then some (none,idx)
  else
    (madtGetTypedItem m madtHdr madtTypeLapic idx).map fun w =>
      match w.item with
      | none => (none,idx)
      | some ret => if procEnabled m ret then (some ret,idx+1) else (none,idx)

def enumerate (m : Mem) (info : AcpiInfo) : Nat → BitVec 32 → Option (List Addr)
  | 0,_ => none
  | fuel+1,idx => do
    let (lapic,idx) ← acpiGetLapic m info idx
    match lapic with
    | none => some []
    | some lapic => (enumerate m info fuel idx).map (lapic :: ·)

inductive Chain (m : Mem) (last : Addr) : Addr → List Addr → Prop where
  | done : Chain m last last []
  | item (t : Addr) (ts : List Addr) (some : m (t+1) ≠ 0) (inside : t.toNat + (m (t+1)).toNat ≤ last.toNat)
      (rest : Chain m last (offset t (m (t+1)).toNat) ts) : Chain m last t (t :: ts)

structure Madt (m : Mem) (hdr : Addr) (ts : List Addr) : Prop where
  fits : hdr.toNat + (sdtLength m hdr).toNat < 2^64
  items : Chain m (offset hdr (sdtLength m hdr).toNat) (offset hdr madtHdrSize) ts
  header : madtHdrSize ≤ (sdtLength m hdr).toNat

theorem chainLength {m last t ts} (chain : Chain m last t ts) :
    t.toNat + ts.length ≤ last.toNat := by
  induction chain with
  | done => simp
  | item t ts some inside rest ih =>
    have length : (m (t+1)).toNat ≠ 0 := fun zero => some (UInt8.toNat_inj.mp zero)
    have bound := last.isLt
    rw [offsetToNat (by omega)] at ih
    rw [List.length_cons]
    omega

inductive Items (m : Mem) (last : Addr) : Addr → List Addr → Prop where
  | done (t : Addr) (behind : last ≤ t) : Items m last t []
  | zero (t : Addr) (before : t < last) (empty : m (t+1) = 0) : Items m last t [t]
  | item (t : Addr) (ts : List Addr) (before : t < last) (some : m (t+1) ≠ 0)
      (rest : Items m last (offset t (m (t+1)).toNat) ts) : Items m last t (t :: ts)

theorem chainItems {m last t ts} (chain : Chain m last t ts) : Items m last t ts := by
  induction chain with
  | done => exact .done _ (BitVec.le_refl _)
  | item t ts some inside rest ih =>
    have length : (m (t+1)).toNat ≠ 0 := fun zero => some (UInt8.toNat_inj.mp zero)
    exact .item t ts (BitVec.lt_def.mpr (by omega)) some ih

def Room (last : Addr) : Prop := last.toNat + 256 ≤ 2^64

variable {m : Mem} {hdr last t : Addr} {ts : List Addr}

theorem itemNext (room : Room last) (before : t < last) :
    (offset t (m (t+1)).toNat).toNat = t.toNat + (m (t+1)).toNat := by
  have length := (m (t+1)).toNat_lt
  have less := BitVec.lt_def.mp before
  unfold Room at room
  exact offsetToNat (by omega)

theorem itemsExist (room : Room last) (t) : ∃ ts, Items m last t ts := by
  induction left : last.toNat - t.toNat using Nat.strong_induction_on generalizing t with
  | _ n ih =>
    by_cases before : t < last
    · by_cases empty : m (t+1) = 0
      · exact ⟨[t],.zero t before empty⟩
      · have length : (m (t+1)).toNat ≠ 0 := fun zero => empty (UInt8.toNat_inj.mp zero)
        have next := itemNext (m := m) room before
        have less := BitVec.lt_def.mp before
        obtain ⟨ts,rest⟩ := ih (last.toNat - (t.toNat + (m (t+1)).toNat)) (by omega) _ (by rw [next])
        exact ⟨t :: ts,.item t ts before empty rest⟩
    · exact ⟨[],.done t (BitVec.not_lt.mp before)⟩

theorem itemsUnique {m last t ts us} (one : Items m last t ts) (other : Items m last t us) :
    ts = us := by
  induction one generalizing us with
  | done t behind =>
    cases other with
    | done => rfl
    | zero _ before => exact absurd before (BitVec.not_lt.mpr behind)
    | item _ _ before => exact absurd before (BitVec.not_lt.mpr behind)
  | zero t before empty =>
    cases other with
    | done _ behind => exact absurd before (BitVec.not_lt.mpr behind)
    | zero => rfl
    | item _ _ _ some => exact absurd empty some
  | item t ts before some rest ih =>
    cases other with
    | done _ behind => exact absurd before (BitVec.not_lt.mpr behind)
    | zero _ _ empty => exact absurd empty some
    | item _ us _ _ others => rw [ih others]

theorem itemsLength {m last t ts} (room : Room last) (items : Items m last t ts) :
    ts.length ≤ last.toNat - t.toNat := by
  induction items with
  | done => exact Nat.zero_le _
  | zero t before =>
    have less := BitVec.lt_def.mp before
    rw [List.length_singleton]
    omega
  | item t ts before some rest ih =>
    have length : (m (t+1)).toNat ≠ 0 := fun zero => some (UInt8.toNat_inj.mp zero)
    have less := BitVec.lt_def.mp before
    rw [itemNext room before] at ih
    rw [List.length_cons]
    omega

theorem scanCases {m type idx i last t fuel w}
    (ran : madtScan m type idx last fuel t i = some w) :
    last ≤ t ∧ w = { item := none,reads := [] } ∨
    t < last ∧ w = { item := some t,reads := [t] } ∨
    t < last ∧ m (t+1) = 0 ∧ w = { item := none,reads := [t,t+1] } ∨
    t < last ∧ m (t+1) ≠ 0 ∧ ∃ n j v, madtScan m type idx last n (offset t (m (t+1)).toNat) j = some v ∧
      w = { v with reads := t :: (t+1) :: v.reads } := by
  cases fuel with
  | zero => simp [madtScan] at ran
  | succ fuel =>
    rw [madtScan] at ran
    split at ran
    · rename_i before
      split at ran
      · exact .inr (.inl ⟨before,(Option.some.inj ran).symm⟩)
      · dsimp only at ran
        split at ran
        · rename_i empty
          exact .inr (.inr (.inl ⟨before,empty,(Option.some.inj ran).symm⟩))
        · rename_i some
          obtain ⟨v,rest,rfl⟩ := Option.map_eq_some_iff.mp ran
          exact .inr (.inr (.inr ⟨before,some,fuel,_,v,rest,rfl⟩))
    · rename_i behind
      exact .inl ⟨BitVec.not_lt.mp behind,(Option.some.inj ran).symm⟩

theorem scanTurn {m} (type) {last t} (before : t < last) (fuel c j) (index : c + j < 2^32) :
    (∀ ts, ((t :: ts).filter (fun t => m t = type))[j]? = some t) ∧
      madtScan m type (BitVec.ofNat 32 (c+j)) last (fuel+1) t (BitVec.ofNat 32 c) = some { item := some t,reads := [t] } ∨
    ∃ d k, d + k = c + j ∧ d ≤ c + 1 ∧
      (∀ ts, ((t :: ts).filter (fun t => m t = type))[j]? = (ts.filter (fun t => m t = type))[k]?) ∧
      madtScan m type (BitVec.ofNat 32 (c+j)) last (fuel+1) t (BitVec.ofNat 32 c) =
        if m (t+1) = 0 then some { item := none,reads := [t,t+1] }
        else (madtScan m type (BitVec.ofNat 32 (d+k)) last fuel (offset t (m (t+1)).toNat) (BitVec.ofNat 32 d)).map
          (fun w => { w with reads := t :: (t+1) :: w.reads }) := by
  rw [madtScan,if_pos before]
  by_cases typed : m t = type
  · have kept : ∀ ts, (t :: ts).filter (fun t => m t = type) = t :: ts.filter (fun t => m t = type) :=
      fun ts => List.filter_cons_of_pos (by simpa using typed)
    cases j with
    | zero => exact .inl ⟨fun ts => by rw [kept]; rfl,if_pos ⟨typed,rfl⟩⟩
    | succ j =>
      have other : BitVec.ofNat 32 c ≠ BitVec.ofNat 32 (c+(j+1)) := by
        intro same
        have numbers := congrArg BitVec.toNat same
        rw [BitVec.toNat_ofNat,BitVec.toNat_ofNat,Nat.mod_eq_of_lt (by omega),Nat.mod_eq_of_lt index] at numbers
        omega
      have next : BitVec.ofNat 32 c + 1 = BitVec.ofNat 32 (c+1) := (BitVec.ofNat_add c 1).symm
      have shift : c + 1 + j = c + (j+1) := by omega
      refine .inr ⟨c+1,j,shift,Nat.le_refl _,fun ts => by rw [kept]; rfl,?_⟩
      rw [if_neg (fun both => other both.2),if_pos typed,next,shift]
  · refine .inr ⟨c,j,rfl,Nat.le_succ c,fun ts => by rw [List.filter_cons_of_neg (by simpa using typed)],?_⟩
    rw [if_neg (fun both => typed both.1),if_neg typed]

theorem scanFinds {m} (type) {last t ts} (items : Items m last t ts)
    (fuel c j) (enough : ts.length < fuel) (small : c + ts.length < 2^32) (index : c + j < 2^32) :
    ∃ w, madtScan m type (BitVec.ofNat 32 (c+j)) last fuel t (BitVec.ofNat 32 c) = some w ∧
      w.item = (ts.filter (fun t => m t = type))[j]? := by
  obtain ⟨fuel,rfl⟩ : ∃ f, fuel = f+1 := ⟨fuel-1,by omega⟩
  induction items generalizing fuel c j with
  | done t behind => exact ⟨_,by rw [madtScan,if_neg (BitVec.not_lt.mpr behind)],rfl⟩
  | zero t before empty =>
    rcases scanTurn type before fuel c j index with ⟨here,scan⟩ | ⟨d,k,_,_,past,scan⟩
    · exact ⟨_,scan,(here []).symm⟩
    · rw [if_pos empty] at scan
      exact ⟨_,scan,(past []).symm⟩
  | item t ts before some rest ih =>
    rw [List.length_cons] at enough small
    obtain ⟨fuel,rfl⟩ : ∃ f, fuel = f+1 := ⟨fuel-1,by omega⟩
    rcases scanTurn type before (fuel+1) c j index with ⟨here,scan⟩ | ⟨d,k,total,less,past,scan⟩
    · exact ⟨_,scan,(here ts).symm⟩
    · obtain ⟨w,later,found⟩ := ih d k (by omega) (by omega) fuel (by omega)
      rw [if_neg some,later,Option.map_some] at scan
      exact ⟨_,scan,found.trans (past ts).symm⟩

theorem scanBehind {m type idx i last t fuel w}
    (behind : last ≤ t) (ran : madtScan m type idx last fuel t i = some w) : w = { item := none,reads := [] } := by
  rcases scanCases ran with ⟨_,nothing⟩ | ⟨before,_⟩ | ⟨before,_⟩ | ⟨before,_⟩
  · exact nothing
  all_goals exact absurd before (BitVec.not_lt.mpr behind)

theorem secondByte (before : t < last) : t ≤ t + 1 ∧ (t + 1 < last ↔ t + 1 ≠ last) := by
  bv_omega

theorem scanReads {type : UInt8} {idx i : BitVec 32} {fuel : Nat} {w : Walk}
    (room : Room last) (items : Items m last t ts) (ran : madtScan m type idx last fuel t i = some w) :
    (∀ a ∈ w.reads, t ≤ a) ∧ ((∀ a ∈ w.reads, a < last) ↔ (w.item = none → ∀ u ∈ ts, u + 1 ≠ last)) := by
  induction items generalizing fuel i w with
  | done t behind =>
    rw [scanBehind behind ran]
    simp
  | zero t before empty =>
    obtain ⟨up,second⟩ := secondByte before
    rcases scanCases ran with ⟨behind,_⟩ | ⟨_,rfl⟩ | ⟨_,_,rfl⟩ | ⟨_,some,_⟩
    · exact absurd before (BitVec.not_lt.mpr behind)
    · simp [before]
    · exact ⟨by simpa using up,by simpa [before] using second⟩
    · exact absurd empty some
  | item t ts before some rest ih =>
    obtain ⟨up,second⟩ := secondByte before
    rcases scanCases ran with ⟨behind,_⟩ | ⟨_,rfl⟩ | ⟨_,empty,_⟩ | ⟨_,_,n,j,v,later,rfl⟩
    · exact absurd before (BitVec.not_lt.mpr behind)
    · simp [before]
    · exact absurd empty some
    · obtain ⟨above,below⟩ := ih later
      have next := itemNext (m := m) room before
      have start : t ≤ offset t (m (t+1)).toNat := BitVec.le_def.mpr (by omega)
      refine ⟨?_,?_⟩
      · simp only [List.forall_mem_cons]
        exact ⟨BitVec.le_refl t,up,fun a read => BitVec.le_trans start (above a read)⟩
      · have final : t + 1 = last → v.item = none := by
          intro here
          have length : (m (t+1)).toNat ≠ 0 := fun zero => some (UInt8.toNat_inj.mp zero)
          have behind : last ≤ offset t (m (t+1)).toNat := by bv_omega
          rw [scanBehind behind later]
        simp only [List.forall_mem_cons,below,second]
        constructor
        · exact fun all none => ⟨all.2.1,all.2.2 none⟩
        · exact fun all => ⟨before,fun here => (all (final here)).1 here,fun none => (all none).2⟩

variable {info : AcpiInfo}

theorem madtLength (madt : Madt m hdr ts) : ts.length < 2^32 := by
  have chain := chainLength madt.items
  have fits := madt.fits
  have size := (sdtLength m hdr).isLt
  have header := madt.header
  rw [offsetToNat (by omega),offsetToNat (by unfold madtHdrSize at *; omega)] at chain
  omega

theorem typedItem (madt : Madt m hdr ts) (type) {j} (index : j < 2^32) :
    ∃ w, madtGetTypedItem m hdr type (BitVec.ofNat 32 j) = some w ∧ w.item = (ts.filter (fun t => m t = type))[j]? := by
  have length := madtLength madt
  have scan := scanFinds type (chainItems madt.items) (2^64) 0 j (by omega) (by omega) (by omega)
  rwa [Nat.zero_add] at scan

def tableEnd (m : Mem) (hdr : Addr) : Addr := offset hdr (sdtLength m hdr).toNat

def InTable (m : Mem) (hdr a : Addr) : Prop := hdr ≤ a ∧ a < tableEnd m hdr
instance (m : Mem) (hdr a : Addr) : Decidable (InTable m hdr a) := inferInstanceAs (Decidable (_ ∧ _))

theorem straightRoom (upperhalf : Bool) (paddr : BitVec 32) :
    (physToKernStraight upperhalf (paddr.setWidth 64)).toNat + 2^33 ≤ 2^64 := by
  have bound := paddr.isLt
  cases upperhalf <;> simp only [physToKernStraight,kernVmaBase,Bool.false_eq_true,if_true,if_false] <;> bv_omega

theorem tableRoom (m : Mem) {hdr} (room : hdr.toNat + 2^33 ≤ 2^64) :
    (tableEnd m hdr).toNat = hdr.toNat + (sdtLength m hdr).toNat ∧ Room (tableEnd m hdr) := by
  have length := (sdtLength m hdr).isLt
  have fits : (tableEnd m hdr).toNat = hdr.toNat + (sdtLength m hdr).toNat := offsetToNat (by omega)
  refine ⟨fits,?_⟩
  unfold Room
  omega

theorem walkRoom (m : Mem) (straight : hdr.toNat + 2^33 ≤ 2^64) (type : UInt8) (idx : BitVec 32) :
    ∃ ts w, (∀ us, Items m (tableEnd m hdr) (offset hdr madtHdrSize) us ↔ us = ts) ∧
      madtGetTypedItem m hdr type idx = some w ∧ w.item = (ts.filter (fun t => m t = type))[idx.toNat]? ∧
      ((∀ a ∈ w.reads, InTable m hdr a) ↔ ((ts.filter (fun t => m t = type)).length ≤ idx.toNat →
        ∀ t ∈ ts, t + 1 ≠ tableEnd m hdr)) := by
  have bound := (sdtLength m hdr).isLt
  obtain ⟨fits,room⟩ := tableRoom m straight
  have start : (offset hdr madtHdrSize).toNat = hdr.toNat + 44 := offsetToNat (by unfold madtHdrSize; omega)
  obtain ⟨ts,items⟩ := itemsExist (m := m) room (offset hdr madtHdrSize)
  have chain : ∀ us, Items m (tableEnd m hdr) (offset hdr madtHdrSize) us ↔ us = ts :=
    fun us => ⟨fun other => itemsUnique other items,fun same => same ▸ items⟩
  have length := itemsLength room items
  obtain ⟨w,ran,found⟩ := scanFinds type items (2^64) 0 idx.toNat (by omega) (by omega) (by omega)
  rw [Nat.zero_add,BitVec.ofNat_toNat,BitVec.setWidth_eq] at ran
  obtain ⟨above,below⟩ := scanReads room items ran
  refine ⟨ts,w,chain,ran,found,?_⟩
  rw [← List.getElem?_eq_none_iff,← found,← below]
  constructor
  · exact fun inside a read => (inside a read).2
  · exact fun inside a read => ⟨BitVec.le_trans (BitVec.le_def.mpr (by omega)) (above a read),inside a read⟩

theorem typedItemReads (upperhalf : Bool) (m : Mem) (paddr : BitVec 32) (type : UInt8) (idx : BitVec 32) :
    let hdr := physToKernStraight upperhalf (paddr.setWidth 64)
    ∃ ts w, (∀ us, Items m (tableEnd m hdr) (offset hdr madtHdrSize) us ↔ us = ts) ∧
      madtGetTypedItem m hdr type idx = some w ∧ w.item = (ts.filter (fun t => m t = type))[idx.toNat]? ∧
      ((∀ a ∈ w.reads, InTable m hdr a) ↔ ((ts.filter (fun t => m t = type)).length ≤ idx.toNat →
        ∀ t ∈ ts, t + 1 ≠ tableEnd m hdr)) :=
  walkRoom m (straightRoom upperhalf paddr) type idx

def shortMadt : Mem := fun a =>
  (([0x41,0x50,0x49,0x43,45,0,0,0] ++ List.replicate 36 0 ++ [1,8] : List UInt8)).getD (a - 0x1000).toNat 0

theorem shortMadtReads :
    madtGetTypedItem shortMadt (physToKernStraight false 0x1000) madtTypeLapic 0 =
      some { item := none,reads := [0x102c,0x102d] } ∧
    InTable shortMadt (physToKernStraight false 0x1000) 0x102c ∧
    ¬InTable shortMadt (physToKernStraight false 0x1000) 0x102d :=
  ⟨by decide +kernel,by decide +kernel,by decide +kernel⟩

def lapicItems (m : Mem) (ts : List Addr) : List Addr := ts.filter (fun t => m t = madtTypeLapic)

theorem lapicAt (madt : Madt m hdr ts) (base : acpiGetTableBase info .apic = hdr) (mapped : hdr ≠ 0) {k}
    (index : k < 2^32) :
    acpiGetLapic m info (BitVec.ofNat 32 k) =
      some (match (lapicItems m ts)[k]? with
        | none => (none,BitVec.ofNat 32 k)
        | some ret => if procEnabled m ret then (some ret,BitVec.ofNat 32 (k+1)) else (none,BitVec.ofNat 32 k)) := by
  obtain ⟨w,found,item⟩ := typedItem madt madtTypeLapic index
  have next : BitVec.ofNat 32 k + 1 = BitVec.ofNat 32 (k+1) := (BitVec.ofNat_add k 1).symm
  unfold acpiGetLapic
  rw [base,if_neg (fun both => mapped both.2),found,Option.map_some,item,next]
  rfl

theorem enumerateFrom (madt : Madt m hdr ts) (base : acpiGetTableBase info .apic = hdr) (mapped : hdr ≠ 0) (fuel k)
    (enough : (lapicItems m ts).length < fuel + k) (within : k ≤ (lapicItems m ts).length) :
    enumerate m info fuel (BitVec.ofNat 32 k) = some (((lapicItems m ts).drop k).takeWhile (procEnabled m)) := by
  have length : (lapicItems m ts).length < 2^32 := Nat.lt_of_le_of_lt (List.length_filter_le _ _) (madtLength madt)
  induction fuel generalizing k with
  | zero => omega
  | succ fuel ih =>
    rw [enumerate,lapicAt madt base mapped (by omega)]
    rcases Nat.lt_or_eq_of_le within with inside | rfl
    · rw [List.getElem?_eq_getElem inside,List.drop_eq_getElem_cons inside]
      by_cases enabled : procEnabled m (lapicItems m ts)[k]
      · have rest := ih (k+1) (by omega) inside
        rw [List.takeWhile_cons_of_pos enabled]
        simp only [bind,Option.bind,enabled,if_true,rest,Option.map_some]
      · simp [enabled]
    · simp

theorem takeWhileFilter {α : Type} (p : α → Bool) (l : List α) :
    l.takeWhile p = l.filter p ↔ l.Pairwise (fun a b => p b = true → p a = true) := by
  induction l with
  | nil => simp
  | cons a l ih =>
    rw [List.pairwise_cons]
    by_cases here : p a = true
    · simp [here,ih]
    · have stop : (a :: l).takeWhile p = [] := by simp [here]
      rw [stop,List.filter_cons_of_neg here,eq_comm,List.filter_eq_nil_iff]
      constructor
      · intro none
        refine ⟨fun b hb yes => absurd yes (none b hb),?_⟩
        exact List.Pairwise.imp_of_mem (fun _ hb _ yes => absurd yes (none _ hb)) (List.pairwise_of_forall (fun _ _ => trivial))
      · rintro ⟨first,_⟩ b hb yes
        exact here (first b hb yes)

theorem enumerateExact (m : Mem) (info : AcpiInfo) (hdr : Addr) (ts : List Addr) (madt : Madt m hdr ts)
    (base : acpiGetTableBase info .apic = hdr) (mapped : hdr ≠ 0) :
    enumerate m info (2^32) 0 = some ((lapicItems m ts).filter (procEnabled m)) ↔
      (lapicItems m ts).Pairwise (fun a b => procEnabled m b = true → procEnabled m a = true) := by
  have length : (lapicItems m ts).length < 2^32 := Nat.lt_of_le_of_lt (List.length_filter_le _ _) (madtLength madt)
  have run := enumerateFrom madt base mapped (2^32) 0 (by omega) (Nat.zero_le _)
  rw [List.drop_zero] at run
  have zero : (0 : BitVec 32) = BitVec.ofNat 32 0 := rfl
  rw [zero,run,Option.some.injEq,takeWhileFilter]

def twoLapics (first second : UInt8) : Mem := fun a =>
  ([0x41,0x50,0x49,0x43,60,0,0,0] ++ List.replicate 36 0 ++ [0,8,0,0,first,0,0,0] ++ [0,8,1,1,second,0,0,0]).getD
    (a - 0x1000).toNat 0

def madtInfo : AcpiInfo := { sdtTrans := [{ type := .facp,kaddr := 0x3000 },{ type := .apic,kaddr := 0x1000 }] }

theorem twoLapicsMadt (first second) : Madt (twoLapics first second) 0x1000 [0x102c,0x1034] := by
  have size : sdtLength (twoLapics first second) 0x1000 = 60 := by
    have low : twoLapics first second (offset 0x1000 4) = 60 := rfl
    have high : ∀ i < 4, twoLapics first second (offset (offset 0x1000 4) i) = if i = 0 then 60 else 0 := by
      intro i hi
      match i,hi with
      | 0,_ | 1,_ | 2,_ | 3,_ => rfl
    rw [sdtLength,load32,low,high 1 (by decide),high 2 (by decide),high 3 (by decide)]
    decide
  have length1 : twoLapics first second (0x102c+1) = 8 := rfl
  have length2 : twoLapics first second (0x1034+1) = 8 := rfl
  refine ⟨?_,?_,?_⟩
  · rw [size]
    decide
  · have start : offset 0x1000 madtHdrSize = 0x102c := by decide
    have next1 : offset 0x102c (8 : UInt8).toNat = 0x1034 := by decide
    have next2 : offset 0x1034 (8 : UInt8).toNat = offset 0x1000 (60 : BitVec 32).toNat := by decide
    rw [size,start]
    refine .item _ _ (by rw [length1]; decide) (by rw [length1]; decide) ?_
    rw [length1,next1]
    refine .item _ _ (by rw [length2]; decide) (by rw [length2]; decide) ?_
    rw [length2,next2]
    exact .done
  · rw [size]
    decide

theorem enumerateBoth : enumerate (twoLapics 1 1) madtInfo (2^32) 0 = some [0x102c,0x1034] :=
  (enumerateExact (twoLapics 1 1) madtInfo 0x1000 [0x102c,0x1034] (twoLapicsMadt 1 1) rfl (by decide)).mpr (by decide +kernel)

theorem enumerateStopsAtDisabled :
    Madt (twoLapics 0 1) 0x1000 [0x102c,0x1034] ∧ enumerate (twoLapics 0 1) madtInfo (2^32) 0 = some [] ∧
    (lapicItems (twoLapics 0 1) [0x102c,0x1034]).filter (procEnabled (twoLapics 0 1)) = [0x1034] :=
  ⟨twoLapicsMadt 0 1,by decide +kernel,by decide +kernel⟩

end TskSw.Acpi
