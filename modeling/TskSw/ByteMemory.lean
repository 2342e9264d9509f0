import Mathlib.Logic.Function.Basic
import Mathlib.Tactic.Ring

/-! A flat byte memory with 64-bit addresses that wrap, and what a loop does to it that
copies one byte after the other with both cursors moving by the same stride. Up to 2^64
steps no byte is written twice. Last, what a comparison up to the first difference returns.
Nothing here is particular to one program. -/
namespace TskSw.ByteMemory

abbrev Addr := BitVec 64

abbrev Mem := Addr → UInt8

def store (m : Mem) (a : Addr) (b : UInt8) : Mem := Function.update m a b

@[simp] theorem storeSame (m a b) : store m a b a = b := by
  simp [store]

theorem storeOther {m a c b} (other : c ≠ a) : store m a b c = m c :=
  Function.update_of_ne other _ _

@[simp] theorem storeNothing (m : Mem) (a : Addr) : store m a (m a) = m := Function.update_eq_self a m

def offset (p : Addr) (i : Nat) : Addr := p + BitVec.ofNat 64 i

@[simp] theorem offsetZero (p : Addr) : offset p 0 = p := by simp [offset]

theorem offsetSucc (p : Addr) (i : Nat) : offset (p+1) i = offset p (i+1) := by
  unfold offset
  rw [BitVec.ofNat_add]
  ac_rfl

theorem offsetAdd (p : Addr) (i j : Nat) : offset (offset p i) j = offset p (i+j) := by
  unfold offset
  rw [BitVec.ofNat_add,BitVec.add_assoc]

theorem offsetToNat {p i} (fits : p.toNat + i < 2^64) : (offset p i).toNat = p.toNat + i := by
  rw [offset,BitVec.toNat_add,BitVec.toNat_ofNat,Nat.mod_eq_of_lt (by omega : i < 2^64),Nat.mod_eq_of_lt fits]

variable {step p : Addr} {m : Mem} {k i n : Nat} {b : UInt8}

theorem offsetInjective {j : Nat} (hi : i < 2^64) (hj : j < 2^64) (same : offset p i = offset p j) : i = j := by
  have numbers := congrArg BitVec.toNat (BitVec.add_right_inj _ |>.mp same)
  rwa [BitVec.toNat_ofNat,BitVec.toNat_ofNat,Nat.mod_eq_of_lt hi,Nat.mod_eq_of_lt hj] at numbers

theorem offsetReaches (p a) : offset p (a-p).toNat = a := by
  rw [offset,BitVec.ofNat_toNat,BitVec.setWidth_eq,BitVec.add_comm,BitVec.sub_add_cancel]

def stride (step p : Addr) (i : Nat) : Addr := p + BitVec.ofNat 64 i * step

@[simp] theorem strideZero (step p : Addr) : stride step p 0 = p := by simp [stride]

theorem strideSucc (step p : Addr) (i : Nat) : stride step (p+step) i = stride step p (i+1) := by
  unfold stride
  rw [BitVec.ofNat_add,BitVec.add_mul]
  simp only [BitVec.one_mul]
  ac_rfl

theorem strideOne (p : Addr) (i : Nat) : stride 1 p i = offset p i := by
  simp [stride,offset]

theorem strideInjective {step p i j} (unit : step * step = 1) (hi : i < 2^64) (hj : j < 2^64)
    (same : stride step p i = stride step p j) : i = j := by
  have times := congrArg (· * step) (BitVec.add_right_inj _ |>.mp same)
  simp only [BitVec.mul_assoc,unit,BitVec.ofNat_eq_ofNat,BitVec.mul_one] at times
  have numbers := congrArg BitVec.toNat times
  rwa [BitVec.toNat_ofNat,BitVec.toNat_ofNat,Nat.mod_eq_of_lt hi,Nat.mod_eq_of_lt hj] at numbers

theorem strideReaches (unit : step * step = 1) (p a : Addr) :
    stride step p ((a-p)*step).toNat = a := by
  rw [stride,BitVec.ofNat_toNat,BitVec.setWidth_eq,BitVec.mul_assoc,unit,BitVec.ofNat_eq_ofNat,
    BitVec.mul_one,BitVec.add_comm,BitVec.sub_add_cancel]

def copied (step : Addr) (m : Mem) (d s : Addr) : Nat → Mem
  | 0 => m
  | k+1 => store (copied step m d s k) (stride step d k) (copied step m d s k (stride step s k))

variable {d s : Addr}

theorem copiedFirst (step m d s k) :
    copied step m d s (k+1) = copied step (store m d (m s)) (d+step) (s+step) k := by
  induction k with
  | zero => simp [copied]
  | succ k ih => rw [copied,ih,copied,strideSucc,strideSucc]

theorem copiedFrame {a} (outside : ∀ i < k, a ≠ stride step d i) : copied step m d s k a = m a := by
  induction k with
  | zero => rfl
  | succ k ih =>
    rw [copied,storeOther (outside k (Nat.lt_succ_self k))]
    exact ih (fun i hi => outside i (Nat.lt_succ_of_lt hi))

theorem copiedStays (unit : step * step = 1) (hi : i < k) (fits : k ≤ 2^64) :
    copied step m d s k (stride step d i) = copied step m d s i (stride step s i) := by
  induction k with
  | zero => exact absurd hi (Nat.not_lt_zero i)
  | succ k ih =>
    rcases Nat.lt_or_eq_of_le (Nat.le_of_lt_succ hi) with before | rfl
    · have other : stride step d i ≠ stride step d k := by
        intro same
        have := strideInjective unit (by omega) (by omega) same
        omega
      rw [copied,storeOther other]
      exact ih before (by omega)
    · rw [copied,storeSame]

theorem copiedApart (unit : step * step = 1) (fits : k ≤ 2^64)
    (apart : ∀ i j, i < j → j < k → stride step s j ≠ stride step d i) {i} (hi : i < k) :
    copied step m d s k (stride step d i) = m (stride step s i) := by
  rw [copiedStays unit hi fits]
  exact copiedFrame (fun j hj => apart j i hj hi)

theorem copiedNothing (period : ∀ a, m (a + (s-d)) = m a) (k) : copied step m d s k = m := by
  induction k with
  | zero => rfl
  | succ k ih =>
    have shift : stride step s k = stride step d k + (s-d) := by
      unfold stride
      rw [BitVec.add_assoc,BitVec.add_comm _ (s-d),← BitVec.add_assoc,BitVec.add_comm d,BitVec.sub_add_cancel]
    rw [copied,ih,shift,period,storeNothing]

theorem copiedAround (unit : step * step = 1) :
    copied step m d s (2^64) = m ↔ ∀ a, m (a + (s-d)) = m a := by
  constructor
  · intro same
    have still : ∀ j ≤ 2^64, copied step m d s j = m := by
      intro j
      induction j with
      | zero => exact fun _ => rfl
      | succ j ih =>
        intro bound
        have before := ih (by omega)
        have kept := copiedStays (m := m) (d := d) (s := s) unit (i := j) (k := 2^64) (by omega) (Nat.le_refl _)
        rw [same] at kept
        rw [copied,← kept,before,storeNothing]
    intro a
    have bound : ((a-d)*step).toNat < 2^64 := BitVec.isLt _
    have kept := copiedStays (m := m) (d := d) (s := s) unit bound (Nat.le_refl _)
    rw [same,still _ (Nat.le_of_lt bound),strideReaches unit] at kept
    have shift : stride step s ((a-d)*step).toNat = a + (s-d) := by
      have there := strideReaches unit d a
      unfold stride at there ⊢
      rw [← BitVec.add_right_inj d,← BitVec.add_assoc,BitVec.add_comm d s,BitVec.add_assoc,there]
      rw [BitVec.add_comm d,BitVec.add_assoc,BitVec.sub_add_cancel,BitVec.add_comm]
    rw [← shift]
    exact kept.symm
  · intro period
    exact copiedNothing period _

def storeLe (n : Nat) {v : Nat} (m : Mem) (a : Addr) (w : BitVec v) : Mem :=
  fun c => if (c-a).toNat < n then UInt8.ofBitVec (w.extractLsb' (8*(c-a).toNat) 8) else m c

def load32 (m : Mem) (a : Addr) : BitVec 32 :=
  (m (offset a 3)).toBitVec ++ (m (offset a 2)).toBitVec ++ (m (offset a 1)).toBitVec ++ (m a).toBitVec

def filled (m : Mem) (p : Addr) (k : Nat) (b : UInt8) : Mem := fun a => if (a-p).toNat < k then b else m a

@[simp] theorem filledZero (m p b) : filled m p 0 b = m := by
  funext a
  simp [filled]

theorem filledInside {m p k i b} (hi : i < k) (fits : i < 2^64) :
    filled m p k b (offset p i) = b := by
  have index : (offset p i - p).toNat = i := by
    rw [offset,BitVec.add_comm,BitVec.add_sub_cancel,BitVec.toNat_ofNat,Nat.mod_eq_of_lt fits]
  rw [filled,index,if_pos hi]

theorem filledFrame {a : Addr} (outside : ∀ i < k, a ≠ offset p i) :
    filled m p k b a = m a := by
  rw [filled,if_neg]
  exact fun inside => outside _ inside (offsetReaches p a).symm

theorem filledWord {v : Nat} {w : BitVec v} (fits : k + n ≤ 2^64) (bytes : ∀ i < n, UInt8.ofBitVec (w.extractLsb' (8*i) 8) = b) :
    storeLe n (filled m p k b) (offset p k) w = filled m p (k+n) b := by
  funext c
  have back : (c - offset p k).toNat = (2^64 - k % 2^64 + (c-p).toNat) % 2^64 := by
    rw [offset,← BitVec.sub_sub,BitVec.toNat_sub,BitVec.toNat_ofNat]
  have bound := (c-p).isLt
  unfold storeLe filled
  generalize (c - offset p k).toNat = i at back
  generalize (c-p).toNat = j at back bound
  rcases Nat.lt_or_ge j k with before | behind
  · rw [if_neg (by omega),if_pos before,if_pos (by omega)]
  · rcases Nat.lt_or_ge i n with inside | outside
    · rw [if_pos inside,if_pos (by omega),bytes i inside]
    · rw [if_neg (by omega),if_neg (by omega),if_neg (by omega)]

structure Orders (f g : Nat → Int) (n : Nat) (rc : Int) : Prop where
  equal : rc = 0 ↔ ∀ i < n, f i = g i
  less : rc < 0 ↔ ∃ k < n, (∀ i < k, f i = g i) ∧ f k < g k
  greater : 0 < rc ↔ ∃ k < n, (∀ i < k, f i = g i) ∧ g k < f k

theorem firstDifference (f g : Nat → Int) (n) :
    (∀ i < n, f i = g i) ∨ ∃ k < n, (∀ i < k, f i = g i) ∧ f k ≠ g k := by
  induction n with
  | zero => exact .inl (fun i hi => absurd hi (Nat.not_lt_zero i))
  | succ n ih =>
    rcases ih with same | ⟨k,hk,same,differ⟩
    · by_cases here : f n = g n
      · refine .inl (fun i hi => ?_)
        rcases Nat.lt_or_eq_of_le (Nat.le_of_lt_succ hi) with before | rfl
        · exact same i before
        · exact here
      · exact .inr ⟨n,Nat.lt_succ_self n,same,here⟩
    · exact .inr ⟨k,Nat.lt_succ_of_lt hk,same,differ⟩

theorem ordersSame {f g n rc} (same : ∀ i < n, f i = g i) : Orders f g n rc ↔ rc = 0 := by
  constructor
  · exact fun h => h.equal.mpr same
  · rintro rfl
    refine ⟨⟨fun _ => same,fun _ => rfl⟩,⟨fun h => absurd h (Int.lt_irrefl 0),?_⟩,⟨fun h => absurd h (Int.lt_irrefl 0),?_⟩⟩
    · rintro ⟨k,hk,_,less⟩
      exact absurd (same k hk) (Int.ne_of_lt less)
    · rintro ⟨k,hk,_,less⟩
      exact absurd (same k hk).symm (Int.ne_of_lt less)

theorem ordersFirst {f g : Nat → Int} {rc : Int} (hk : k < n) (same : ∀ i < k, f i = g i)
    (differ : f k ≠ g k) : Orders f g n rc ↔ (rc < 0 ↔ f k < g k) ∧ (0 < rc ↔ g k < f k) := by
  have notAll : ¬∀ i < n, f i = g i := fun all => differ (all k hk)
  have only : ∀ j, (∀ i < j, f i = g i) → f j ≠ g j → j = k := by
    intro j before here
    rcases Nat.lt_trichotomy j k with less | rfl | more
    · exact absurd (same j less) here
    · rfl
    · exact absurd (before k more) differ
  have less : (∃ j < n, (∀ i < j, f i = g i) ∧ f j < g j) ↔ f k < g k := by
    constructor
    · rintro ⟨j,_,before,here⟩
      exact only j before (Int.ne_of_lt here) ▸ here
    · exact fun here => ⟨k,hk,same,here⟩
  have greater : (∃ j < n, (∀ i < j, f i = g i) ∧ g j < f j) ↔ g k < f k := by
    constructor
    · rintro ⟨j,_,before,here⟩
      exact only j before (Int.ne_of_lt here).symm ▸ here
    · exact fun here => ⟨k,hk,same,here⟩
  constructor
  · rintro ⟨_,h2,h3⟩
    exact ⟨h2.trans less,h3.trans greater⟩
  · rintro ⟨h2,h3⟩
    have nonzero : rc ≠ 0 := by omega
    exact ⟨⟨fun zero => absurd zero nonzero,fun all => absurd all notAll⟩,h2.trans less.symm,h3.trans greater.symm⟩

end TskSw.ByteMemory
