import Mathlib.Data.List.GetD
import TskSw.CString
import TskSw.MemFunctions

/-! Which characters `strncmp` and `strncpy` of `common/string.c` read and write. The
count is tested only after the character it should keep out has been compared or copied. -/
namespace TskSw.CStringBounds
open ByteMemory MemFunctions

def charValue (signed : Bool) (c : UInt8) : Int := if signed then c.toBitVec.toInt else c.toNat

def strncmp (signed : Bool) : List UInt8 → List UInt8 → Nat → Option Int
  | [],_,_ => none
  | c :: s1,s2,n =>
    if c = 0 then some 0
    else
      match s2 with
      | [] => none
      | d :: s2 =>
        let rc := signedChar (charValue signed c - charValue signed d)
        if rc ≠ 0 ∨ n = 0 then some rc else strncmp signed s1 s2 (n-1)

variable {signed : Bool}

theorem charBounds (signed c d) :
    -256 < charValue signed c - charValue signed d ∧ charValue signed c - charValue signed d < 256 := by
  have c1 := c.toNat_lt
  have d1 := d.toNat_lt
  have c2 := c.toBitVec.toInt_lt
  have c3 := c.toBitVec.le_toInt
  have d2 := d.toBitVec.toInt_lt
  have d3 := d.toBitVec.le_toInt
  unfold charValue
  split <;> omega

theorem charSame {c d} : charValue signed c = charValue signed d ↔ c = d := by
  constructor
  · intro same
    unfold charValue at same
    split at same
    · exact UInt8.toBitVec_inj.mp (BitVec.eq_of_toInt_eq same)
    · exact UInt8.toNat_inj.mp (Int.ofNat_inj.mp same)
  · rintro rfl
    rfl

theorem charRc (signed c d) :
    signedChar (charValue signed c - charValue signed d) = (c - d).toBitVec.toInt := by
  rw [UInt8.toBitVec_sub,BitVec.toInt_sub,signedChar,charValue,charValue]
  split
  · rfl
  · rw [BitVec.toInt_eq_toNat_bmod,BitVec.toInt_eq_toNat_bmod]
    simp

theorem rcZero {c d} : signedChar (charValue signed c - charValue signed d) = 0 ↔ c = d := by
  rw [signedCharZero (charBounds signed c d).1 (charBounds signed c d).2,Int.sub_eq_zero,charSame]

theorem strncmpEnd (s1 s2 : List UInt8) (n : Nat) : strncmp signed (0 :: s1) s2 n = some 0 := by
  rw [strncmp.eq_def]
  exact if_pos rfl

theorem strncmpStep {c : UInt8} (char : c ≠ 0) (d : UInt8) (s1 s2 : List UInt8) (n : Nat) :
    strncmp signed (c :: s1) (d :: s2) n =
      if c ≠ d ∨ n = 0 then some (signedChar (charValue signed c - charValue signed d)) else strncmp signed s1 s2 (n-1) := by
  rw [strncmp.eq_def]
  simp only [if_neg char,ne_eq,rcZero]

theorem strncmpList {s1 s2 : List UInt8} {n : Nat} {rc : Int} (returns : strncmp signed s1 s2 n = some rc) :
    CString.strncmp s1 s2 n = rc := by
  induction s1 generalizing s2 n with
  | nil => cases returns
  | cons c s1 ih =>
    rw [CString.strncmp]
    by_cases zero : c = 0
    · rw [zero,strncmpEnd] at returns
      rw [if_pos zero]
      exact Option.some.inj returns
    · rw [if_neg zero]
      cases s2 with
      | nil =>
        rw [strncmp.eq_def] at returns
        simp [zero] at returns
      | cons d s2 =>
        rw [strncmpStep zero,charRc] at returns
        simp only [List.headD_cons,List.tail_cons,ne_eq,CString.charDiff]
        split at returns
        · rename_i stop
          rw [if_pos stop]
          exact Option.some.inj returns
        · rename_i more
          rw [if_neg more]
          exact ih returns

def window (s : List UInt8) (n : Nat) : List UInt8 := (s ++ [0]).take n

theorem windowHead (s n) : ∃ t, window s (n+1) = s.getD 0 0 :: t := by
  cases s with
  | nil => exact ⟨[],by simp [window]⟩
  | cons c s => exact ⟨window s n,by simp [window]⟩

theorem strncmpDecides {s1 s2 n k}
    (before : ∀ i < k, s1.getD i 0 ≠ 0 ∧ s1.getD i 0 = s2.getD i 0)
    (here : s1.getD k 0 = 0 ∨ s1.getD k 0 ≠ s2.getD k 0) :
    strncmp signed (window s1 n) (window s2 n) n =
      if k < n then
        some (if s1.getD k 0 = 0 then 0
          else signedChar (charValue signed (s1.getD k 0) - charValue signed (s2.getD k 0)))
      else none := by
  induction n generalizing s1 s2 k with
  | zero => rfl
  | succ n ih =>
    cases k with
    | zero =>
      obtain ⟨t1,w1⟩ := windowHead s1 n
      obtain ⟨t2,w2⟩ := windowHead s2 n
      rw [w1,w2,if_pos (Nat.succ_pos n)]
      by_cases zero : s1.getD 0 0 = 0
      · rw [if_pos zero,zero,strncmpEnd]
      · have differ := here.resolve_left zero
        rw [if_neg zero,strncmpStep zero,if_pos (.inl differ)]
    | succ k =>
      have first := before 0 (Nat.succ_pos k)
      obtain ⟨c,s1,rfl⟩ : ∃ c t, s1 = c :: t := by
        cases s1 with
        | nil => exact absurd rfl first.1
        | cons c s1 => exact ⟨c,s1,rfl⟩
      obtain ⟨s2,rfl⟩ : ∃ t, s2 = c :: t := by
        cases s2 with
        | nil => exact absurd first.2 first.1
        | cons d s2 => exact ⟨s2,by rw [show c = d from first.2]⟩
      have rest := @ih s1 s2 k (fun i hi => before (i+1) (by omega)) here
      have more : ¬(c ≠ c ∨ n + 1 = 0) := by simp
      have head : ∀ t, window (c :: t) (n+1) = c :: window t n := fun t => rfl
      have char : c ≠ 0 := first.1
      rw [head,head,strncmpStep char,if_neg more,Nat.add_sub_cancel,rest]
      simp only [List.getD_cons_succ,Nat.add_lt_add_iff_right]

theorem decidingPlace (s1 s2 : List UInt8) :
    ∃ k, (∀ i < k, s1.getD i 0 ≠ 0 ∧ s1.getD i 0 = s2.getD i 0) ∧ (s1.getD k 0 = 0 ∨ s1.getD k 0 ≠ s2.getD k 0) := by
  induction s1 generalizing s2 with
  | nil => exact ⟨0,fun i hi => absurd hi (Nat.not_lt_zero i),.inl rfl⟩
  | cons c s1 ih =>
    by_cases stop : c = 0 ∨ c ≠ s2.getD 0 0
    · exact ⟨0,fun i hi => absurd hi (Nat.not_lt_zero i),stop⟩
    · rw [not_or,not_not] at stop
      obtain ⟨k,before,here⟩ := ih s2.tail
      have tail : ∀ i, s2.tail.getD i 0 = s2.getD (i+1) 0 := fun i => by
        cases s2 with
        | nil => rfl
        | cons d s2 => rfl
      refine ⟨k+1,?_,?_⟩
      · intro i hi
        cases i with
        | zero => exact stop
        | succ i =>
          rw [← tail]
          exact before i (by omega)
      · rw [← tail]
        exact here

theorem decidingOnly {s1 s2 : List UInt8} {j k}
    (before : ∀ i < k, s1.getD i 0 ≠ 0 ∧ s1.getD i 0 = s2.getD i 0) (here : s1.getD k 0 = 0 ∨ s1.getD k 0 ≠ s2.getD k 0)
    (before' : ∀ i < j, s1.getD i 0 ≠ 0 ∧ s1.getD i 0 = s2.getD i 0) (here' : s1.getD j 0 = 0 ∨ s1.getD j 0 ≠ s2.getD j 0) :
    j = k := by
  rcases Nat.lt_trichotomy j k with less | same | more
  · exact absurd here' (by simpa using before j less)
  · exact same
  · exact absurd here (by simpa using before' k more)

theorem behindEnd {s : List UInt8} {k i : Nat} (clean : 0 ∉ s) (zero : s.getD k 0 = 0) (behind : k ≤ i) :
    s.getD i 0 = 0 := by
  have ended : s.length ≤ k := by
    by_contra inside
    rw [List.getD_eq_getElem s 0 (by omega)] at zero
    exact clean (zero ▸ List.getElem_mem _)
  exact List.getD_eq_default s 0 (by omega)

def Compares (signed : Bool) (s1 s2 : List UInt8) (n : Nat) : Prop :=
  ∃ rc, strncmp signed (window s1 n) (window s2 n) n = some rc ∧
    Orders (fun i => charValue signed (s1.getD i 0)) (fun i => charValue signed (s2.getD i 0)) n rc

def Decides (signed : Bool) (s1 s2 : List UInt8) (k : Nat) : Prop :=
  (s1.getD k 0 = 0 ∧ s2.getD k 0 = 0) ∨
    (s1.getD k 0 ≠ 0 ∧ s1.getD k 0 ≠ s2.getD k 0 ∧
      -128 ≤ charValue signed (s1.getD k 0) - charValue signed (s2.getD k 0) ∧
      charValue signed (s1.getD k 0) - charValue signed (s2.getD k 0) ≤ 127)

theorem comparesAt {s1 s2 n k} (clean1 : 0 ∉ s1) (clean2 : 0 ∉ s2) (hk : k < n)
    (before : ∀ i < k, s1.getD i 0 ≠ 0 ∧ s1.getD i 0 = s2.getD i 0)
    (here : s1.getD k 0 = 0 ∨ s1.getD k 0 ≠ s2.getD k 0) :
    Compares signed s1 s2 n ↔ Decides signed s1 s2 k := by
  have run : ∀ rc, strncmp signed (window s1 n) (window s2 n) n = some rc ↔
      (if s1.getD k 0 = 0 then 0
        else signedChar (charValue signed (s1.getD k 0) - charValue signed (s2.getD k 0))) = rc := fun rc => by
    rw [strncmpDecides before here,if_pos hk,Option.some.injEq]
  simp only [Compares,run,exists_eq_left']
  have same : ∀ i < k, charValue signed (s1.getD i 0) = charValue signed (s2.getD i 0) :=
    fun i hi => charSame.mpr (before i hi).2
  by_cases zero : s1.getD k 0 = 0
  · rw [if_pos zero]
    by_cases both : s2.getD k 0 = 0
    · refine iff_of_true ((ordersSame ?_).mpr rfl) (.inl ⟨zero,both⟩)
      intro i _
      rcases Nat.lt_or_ge i k with inside | behind
      · exact same i inside
      · rw [behindEnd clean1 zero behind,behindEnd clean2 both behind]
    · have differ : s1.getD k 0 ≠ s2.getD k 0 := fun e => both (e ▸ zero)
      have values : charValue signed (s1.getD k 0) ≠ charValue signed (s2.getD k 0) := charSame.not.mpr differ
      rw [ordersFirst hk same values]
      refine iff_of_false (fun signs => values ?_) ?_
      · omega
      · rintro (⟨_,e⟩ | ⟨char,_⟩)
        · exact both e
        · exact char zero
  · have differ := here.resolve_left zero
    have bounds := charBounds signed (s1.getD k 0) (s2.getD k 0)
    have sign := signedCharSign bounds.1 bounds.2
    rw [if_neg zero,ordersFirst hk same (charSame.not.mpr differ)]
    constructor
    · rintro ⟨less,greater⟩
      exact .inr ⟨zero,differ,sign.mp ⟨by omega,by omega⟩⟩
    · rintro (⟨e,_⟩ | ⟨_,_,fits⟩)
      · exact absurd e zero
      · have signs := sign.mpr fits
        exact ⟨by omega,by omega⟩

theorem decidesHere {s1 s2 k} (decides : Decides signed s1 s2 k) :
    s1.getD k 0 = 0 ∨ s1.getD k 0 ≠ s2.getD k 0 := by
  rcases decides with ⟨zero,_⟩ | ⟨_,differ,_⟩
  · exact .inl zero
  · exact .inr differ

theorem strncmpExact (signed : Bool) (s1 s2 : List UInt8) (n : Nat) (clean1 : 0 ∉ s1) (clean2 : 0 ∉ s2) :
    Compares signed s1 s2 n ↔
      ∃ k < n, (∀ i < k, s1.getD i 0 ≠ 0 ∧ s1.getD i 0 = s2.getD i 0) ∧ Decides signed s1 s2 k := by
  obtain ⟨k,before,here⟩ := decidingPlace s1 s2
  by_cases hk : k < n
  · rw [comparesAt clean1 clean2 hk before here]
    constructor
    · exact fun decides => ⟨k,hk,before,decides⟩
    · rintro ⟨j,_,before',decides⟩
      exact decidingOnly before here before' (decidesHere decides) ▸ decides
  · refine iff_of_false ?_ ?_
    · rintro ⟨rc,returns,_⟩
      rw [strncmpDecides before here,if_neg hk] at returns
      cases returns
    · rintro ⟨j,hj,before',decides⟩
      exact hk (decidingOnly before here before' (decidesHere decides) ▸ hj)

theorem strncmpExactNames : Compares true [105,110,105,116] [105,110,111,116,105,102,121] 4 :=
  (strncmpExact true [105,110,105,116] [105,110,111,116,105,102,121] 4 (by decide) (by decide)).mpr
    ⟨2,by decide,by decide,.inr (by decide)⟩

theorem strncmpMisses :
    strncmp true (window [] 3) (window [97] 3) 3 = some 0 ∧
    CString.strncmp [97] [98] 0 = -1 ∧
    strncmp true (window [97,98] 1) (window [97,99] 1) 1 = none ∧
    strncmp false (window [200] 1) (window [1] 1) 1 = some (-57) := by
  decide

structure Copying where
  mem : Mem
  reads : List Addr
  writes : List Addr

-- `*src` is read again for the test behind the count's
def strncpyLoop (m : Mem) (dest src : Addr) : Nat → Copying
  | 0 => { mem := store m dest (m src),reads := [src],writes := [dest] }
  | count+1 =>
    let m := store m dest (m src)
    if m src = 0 then { mem := m,reads := [src,src],writes := [dest] }
    else
      let rest := strncpyLoop m (dest+1) (src+1) count
      { mem := rest.mem,reads := src :: src :: rest.reads,writes := dest :: rest.writes }

def strncpy (m : Mem) (dest src : Addr) (count : BitVec 64) : Copying × Addr :=
  if count = 0 then ({ mem := m,reads := [],writes := [] },dest) else (strncpyLoop m dest src count.toNat,dest)

theorem storeKeepsSource (m d s) : store m d (m s) s = m s := by
  by_cases same : s = d
  · rw [same,storeSame]
  · exact storeOther same

theorem placesZero (p a : Addr) : (∃ i ≤ 0, a = offset p i) ↔ a = p := by
  constructor
  · rintro ⟨i,hi,rfl⟩
    rw [Nat.le_zero.mp hi,offsetZero]
  · rintro rfl
    exact ⟨0,Nat.le_refl 0,(offsetZero _).symm⟩

theorem placesSucc (k : Nat) (p a : Addr) : (a = p ∨ ∃ i ≤ k, a = offset (p+1) i) ↔ ∃ i ≤ k+1, a = offset p i := by
  constructor
  · rintro (rfl | ⟨i,hi,rfl⟩)
    · exact ⟨0,Nat.zero_le _,(offsetZero _).symm⟩
    · exact ⟨i+1,by omega,offsetSucc p i⟩
  · rintro ⟨i,hi,rfl⟩
    cases i with
    | zero => exact .inl (offsetZero p)
    | succ i => exact .inr ⟨i,by omega,(offsetSucc p i).symm⟩

theorem loopStops {m dest src count k} (hk : k ≤ count)
    (before : ∀ i < k, copied 1 m dest src i (offset src i) ≠ 0)
    (stop : k = count ∨ copied 1 m dest src k (offset src k) = 0) :
    (strncpyLoop m dest src count).mem = copied 1 m dest src (k+1) ∧
    (∀ a, a ∈ (strncpyLoop m dest src count).reads ↔ ∃ i ≤ k, a = offset src i) ∧
    (∀ a, a ∈ (strncpyLoop m dest src count).writes ↔ ∃ i ≤ k, a = offset dest i) := by
  induction count generalizing m dest src k with
  | zero =>
    have first : k = 0 := Nat.le_zero.mp hk
    subst first
    refine ⟨by simp [strncpyLoop,copied],?_,?_⟩ <;> intro a <;> simp only [strncpyLoop,List.mem_singleton,placesZero]
  | succ count ih =>
    rw [strncpyLoop]
    simp only [storeKeepsSource]
    cases k with
    | zero =>
      have zero : m src = 0 := by simpa [copied] using stop
      rw [if_pos zero]
      refine ⟨by simp [copied],?_,?_⟩ <;> intro a <;> simp
    | succ k =>
      have char : m src ≠ 0 := by simpa [copied] using before 0 (Nat.succ_pos k)
      rw [if_neg char]
      have next : ∀ i, copied 1 (store m dest (m src)) (dest+1) (src+1) i (offset (src+1) i) =
          copied 1 m dest src (i+1) (offset src (i+1)) := fun i => by rw [copiedFirst,offsetSucc]
      obtain ⟨mem,reads,writes⟩ := @ih (store m dest (m src)) (dest+1) (src+1) k (by omega)
        (fun i hi => (next i) ▸ before (i+1) (by omega))
        (by rw [next]; exact stop.imp_left Nat.succ.inj)
      refine ⟨by rw [mem,← copiedFirst],?_,?_⟩
      · intro a
        rw [← placesSucc]
        simp only [List.mem_cons,reads,or_self_left]
      · intro a
        simp only [List.mem_cons,writes,placesSucc]

structure EndsAt (m : Mem) (src : Addr) (len : Nat) : Prop where
  chars : ∀ i < len, m (offset src i) ≠ 0
  nul : m (offset src len) = 0

theorem EndsAt.bound {m src len} (h : EndsAt m src len) : len < 2^64 := by
  by_contra large
  apply h.chars (len % 2^64) (by omega)
  rw [← h.nul,offset,offset]
  congr 2
  apply BitVec.eq_of_toNat_eq
  simp

theorem offsetMeets {dest src : Addr} {i j : Nat} (hi : i < 2^64) (hj : j < 2^64) (same : offset src i = offset dest j) :
    i = (dest-src).toNat + j ∨ i + 2^64 = (dest-src).toNat + j := by
  have distance : BitVec.ofNat 64 i = (dest-src) + BitVec.ofNat 64 j := by
    rw [← BitVec.add_right_inj src,← offset,same,offset,← BitVec.add_assoc,BitVec.add_comm src,BitVec.sub_add_cancel]
  have numbers := congrArg BitVec.toNat distance
  rw [BitVec.toNat_add,BitVec.toNat_ofNat,BitVec.toNat_ofNat,Nat.mod_eq_of_lt hi,Nat.mod_eq_of_lt hj] at numbers
  have bound := (dest-src).isLt
  omega

variable {m : Mem} {dest src : Addr} {len : Nat}

theorem sourceKept (safe : dest = src ∨ len < (dest-src).toNat) (bound : len < 2^64) {i} (hi : i ≤ len) :
    copied 1 m dest src i (offset src i) = m (offset src i) := by
  rcases safe with rfl | apart
  · rw [copiedNothing (fun a => by simp)]
  · apply copiedFrame
    intro j hj same
    rw [strideOne] at same
    have far := (dest-src).isLt
    have := offsetMeets (by omega) (by omega) same
    omega

theorem sourceOverrun (h : EndsAt m src len) (behind : dest ≠ src) (inside : (dest-src).toNat ≤ len) {i}
    (hi : i < 2^64) : copied 1 m dest src i (offset src i) ≠ 0 := by
  have some : 0 < (dest-src).toNat := by
    rcases Nat.eq_zero_or_pos (dest-src).toNat with zero | some
    · have none : dest - src = 0 := BitVec.eq_of_toNat_eq zero
      have same := congrArg (· + src) none
      simp only [BitVec.sub_add_cancel] at same
      exact absurd (same.trans (BitVec.zero_add src)) behind
    · exact some
  induction i using Nat.strongRecOn with
  | ind i ih =>
    rcases Nat.lt_or_ge i (dest-src).toNat with early | late
    · have kept : copied 1 m dest src i (offset src i) = m (offset src i) := by
        apply copiedFrame
        intro j hj same
        rw [strideOne] at same
        have := offsetMeets hi (by omega) same
        omega
      rw [kept]
      exact h.chars i (by omega)
    · -- the character was written `dest-src` places before
      have place : offset src i = stride 1 dest (i - (dest-src).toNat) := by
        have reach : offset src (dest-src).toNat = dest := offsetReaches src dest
        rw [strideOne,← reach,offsetAdd]
        congr 1
        rw [reach]
        omega
      rw [place,copiedStays (by decide) (by omega) (by omega),strideOne]
      exact ih _ (by omega) (by omega)

structure StaysWithin (m : Mem) (dest src : Addr) (count len : Nat) (run : Copying) : Prop where
  writes : ∀ a ∈ run.writes, ∃ i < count, a = offset dest i
  reads : ∀ a ∈ run.reads, ∃ i < count, i ≤ len ∧ a = offset src i
  copies : ∀ i < count, i ≤ len → run.mem (offset dest i) = m (offset src i)

theorem fullCountWrites {count} (bound : count < 2^64)
    (before : ∀ i < count, copied 1 m dest src i (offset src i) ≠ 0) :
    ¬StaysWithin m dest src count len (strncpyLoop m dest src count) := by
  intro within
  have run := loopStops (Nat.le_refl count) before (.inl rfl)
  obtain ⟨i,hi,same⟩ := within.writes _ ((run.2.2 (offset dest count)).mpr ⟨count,Nat.le_refl _,rfl⟩)
  have := offsetInjective bound (by omega) same
  omega

theorem loopExact (h : EndsAt m src len) {count : Nat} (bound : count < 2^64) :
    StaysWithin m dest src count len (strncpyLoop m dest src count) ↔
      len < count ∧ (dest = src ∨ len < (dest-src).toNat) := by
  have end64 := h.bound
  by_cases safe : dest = src ∨ len < (dest-src).toNat
  · have kept : ∀ i ≤ len, copied 1 m dest src i (offset src i) = m (offset src i) := fun i hi => sourceKept safe end64 hi
    rcases Nat.lt_or_ge len count with fits | long
    · refine iff_of_true ?_ ⟨fits,safe⟩
      obtain ⟨mem,reads,writes⟩ := @loopStops m dest src count len (Nat.le_of_lt fits)
        (fun i hi => (kept i (Nat.le_of_lt hi)) ▸ h.chars i hi) (.inr ((kept len (Nat.le_refl _)).trans h.nul))
      constructor
      · intro a written
        obtain ⟨i,hi,rfl⟩ := (writes a).mp written
        exact ⟨i,by omega,rfl⟩
      · intro a read
        obtain ⟨i,hi,rfl⟩ := (reads a).mp read
        exact ⟨i,by omega,hi,rfl⟩
      · intro i _ hi
        have stays : copied 1 m dest src (len+1) (stride 1 dest i) = copied 1 m dest src i (stride 1 src i) :=
          copiedStays (by decide) (by omega) (by omega)
        rw [strideOne,strideOne] at stays
        rw [mem,stays,kept i hi]
    · refine iff_of_false (fullCountWrites bound ?_) (fun both => by omega)
      intro i hi
      rw [kept i (by omega)]
      exact h.chars i (by omega)
  · rw [not_or,Nat.not_lt] at safe
    refine iff_of_false (fullCountWrites bound ?_) ?_
    · intro i hi
      exact sourceOverrun h safe.1 safe.2 (by omega)
    · rintro ⟨_,same | apart⟩
      · exact safe.1 same
      · omega

theorem strncpyExact (m : Mem) (dest src : Addr) (count : BitVec 64) (len : Nat) (ends : EndsAt m src len) :
    ((strncpy m dest src count).2 = dest ∧ StaysWithin m dest src count.toNat len (strncpy m dest src count).1) ↔
      count = 0 ∨ (len < count.toNat ∧ (dest = src ∨ len < (dest-src).toNat)) := by
  unfold strncpy
  by_cases none : count = 0
  · rw [if_pos none,none]
    refine iff_of_true ⟨rfl,?_,?_,?_⟩ (.inl rfl)
    · exact fun a written => absurd written List.not_mem_nil
    · exact fun a read => absurd read List.not_mem_nil
    · exact fun i hi => absurd hi (Nat.not_lt_zero i)
  · rw [if_neg none]
    have exact := @loopExact _ dest _ _ ends _ count.isLt
    constructor
    · exact fun within => .inr (exact.mp within.2)
    · exact fun fits => ⟨rfl,exact.mpr (fits.resolve_left none)⟩

def nameAt (c d : UInt8) : Mem :=
  fun a => if a = 0x1000 then c else if a = 0x1001 then d else if a = 0x1002 then 0 else 0xff

theorem strncpyExactName :
    EndsAt (nameAt 97 98) 0x1000 2 ∧
    StaysWithin (nameAt 97 98) 0x2000 0x1000 3 2 (strncpy (nameAt 97 98) 0x2000 0x1000 3).1 :=
  have ends : EndsAt (nameAt 97 98) 0x1000 2 := ⟨by decide,by decide⟩
  ⟨ends,((strncpyExact (nameAt 97 98) 0x2000 0x1000 3 2 ends).mpr (.inr (by decide))).2⟩

theorem strncpyWritesBehind :
    (0x2002 : Addr) ∈ (strncpy (nameAt 97 98) 0x2000 0x1000 2).1.writes ∧
    (0x1002 : Addr) ∈ (strncpy (nameAt 97 98) 0x2000 0x1000 2).1.reads ∧
    (strncpy (nameAt 97 98) 0x2000 0x1000 2).1.mem 0x2002 = 0 ∧ nameAt 97 98 0x2002 = 0xff := by
  decide

def bytes (m : Mem) (p : Addr) (n : Nat) : List UInt8 := (List.range n).map (fun i => m (offset p i))

theorem bytesSucc (m p n) : bytes m p (n+1) = m p :: bytes m (p+1) n := by
  rw [bytes,List.range_succ_eq_map,List.map_cons,offsetZero,List.map_map]
  exact congrArg _ (List.map_congr_left (fun i _ => congrArg m (offsetSucc p i).symm))

theorem bytesStore {m a p c n} (apart : ∀ i < n, offset p i ≠ a) :
    bytes (store m a c) p n = bytes m p n := by
  apply List.map_congr_left
  intro i hi
  exact storeOther (apart i (List.mem_range.mp hi))

theorem nextApart {p : Addr} {n : Nat} (fits : n < 2^64) : ∀ i < n, offset (p+1) i ≠ p := by
  intro i hi same
  rw [offsetSucc] at same
  have zero : i + 1 = 0 := offsetInjective (p := p) (by omega) (by omega) (same.trans (offsetZero p).symm)
  omega

theorem loopFrame {m : Mem} {dest src a : Addr} {count : Nat} (outside : ∀ i ≤ count, offset dest i ≠ a) :
    (strncpyLoop m dest src count).mem a = m a := by
  induction count generalizing m dest src with
  | zero =>
    have other : a ≠ dest := fun e => outside 0 (Nat.le_refl 0) (by rw [offsetZero,e])
    exact storeOther other
  | succ count ih =>
    have other : a ≠ dest := fun e => outside 0 (Nat.zero_le _) (by rw [offsetZero,e])
    rw [strncpyLoop]
    dsimp only
    split
    · exact storeOther other
    · rw [ih (fun i hi => by rw [offsetSucc]; exact outside (i+1) (by omega))]
      exact storeOther other

theorem loopList {m dest src count n} (fits : n ≤ 2^64) (bound : count < 2^64)
    (apart : ∀ i ≤ count, ∀ j ≤ count, offset src i ≠ offset dest j) :
    bytes (strncpyLoop m dest src count).mem dest n = CString.copyChars (bytes m dest n) (bytes m src (count+1)) count := by
  induction count generalizing m dest src n with
  | zero =>
    cases n with
    | zero => rfl
    | succ n =>
      have kept := bytesStore (m := m) (c := m src) (nextApart (p := dest) (n := n) (by omega))
      rw [bytesSucc m dest,bytesSucc m src,CString.copyChars,strncpyLoop,bytesSucc]
      simp only [storeSame,kept,List.headD_cons,true_or,if_true]
  | succ count ih =>
    cases n with
    | zero => rfl
    | succ n =>
      have kept := bytesStore (m := m) (c := m src) (nextApart (p := dest) (n := n) (by omega))
      rw [bytesSucc m dest,bytesSucc m src,CString.copyChars,strncpyLoop]
      simp only [storeKeepsSource,List.headD_cons,List.tail_cons,Nat.add_sub_cancel,Nat.succ_ne_zero,false_or]
      split
      · rw [bytesSucc]
        simp only [storeSame,kept]
      · have source : bytes (store m dest (m src)) (src+1) (count+1) = bytes m (src+1) (count+1) := by
          apply bytesStore
          intro i hi
          rw [offsetSucc]
          have := apart (i+1) (by omega) 0 (Nat.zero_le _)
          rwa [offsetZero] at this
        have rest := @ih (store m dest (m src)) (dest+1) (src+1) n (by omega) (by omega)
          (fun i hi j hj => by rw [offsetSucc,offsetSucc]; exact apart (i+1) (by omega) (j+1) (by omega))
        rw [bytesSucc,loopFrame (fun i hi => nextApart (n := count+1) (by omega) i (by omega)),storeSame,rest,kept,source]

theorem strncpyList {m dest src count n} (fits : n ≤ 2^64)
    (apart : ∀ i ≤ count.toNat, ∀ j ≤ count.toNat, offset src i ≠ offset dest j) :
    bytes (strncpy m dest src count).1.mem dest n =
      CString.strncpy (bytes m dest n) (bytes m src (count.toNat+1)) count.toNat := by
  unfold strncpy CString.strncpy
  by_cases none : count = 0
  · simp [none]
  · have some : count.toNat ≠ 0 := fun zero => none (BitVec.eq_of_toNat_eq zero)
    rw [if_neg none,if_neg some]
    exact loopList fits count.isLt apart

theorem strncpyListName : bytes (strncpy (nameAt 97 98) 0x2000 0x1000 3).1.mem 0x2000 5 =
    CString.strncpy (bytes (nameAt 97 98) 0x2000 5) (bytes (nameAt 97 98) 0x1000 4) 3 := strncpyList (by decide) (by decide)

end TskSw.CStringBounds
