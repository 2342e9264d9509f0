import TskSw.ByteBuffers

/-! `memset`, `memcpy`, `memmove` and `memcmp` of `common/string.c` over the flat memory.
The copy loops test their end after the first byte: a copy of no bytes comes back to its
end only after it has gone round the whole address space. -/
namespace TskSw.MemFunctions
open ByteMemory ByteBuffers

def fillWords (n : Nat) {v : Nat} (w : BitVec v) : Nat → Mem → Addr → Nat → Mem × Addr × Nat
  | 0,m,cp,len => (m,cp,len)
  | fuel+1,m,cp,len =>
    if n ≤ len then fillWords n w fuel (storeLe n m cp w) (offset cp n) (len-n) else (m,cp,len)

def word32 (val : BitVec 64) : BitVec 32 :=
  ((val <<< 24) ||| (val <<< 16) ||| (val <<< 8) ||| val).setWidth 32

def word64 (c32 : BitVec 32) : BitVec 64 := (c32.setWidth 64 <<< 32) ||| c32.setWidth 64

def memset (m : Mem) (s : Addr) (c : BitVec 32) (n : BitVec 64) : Mem × Addr :=
  let len := n.toNat
  let val := (c &&& 0xff).signExtend 64
  let c32 := word32 val
  let c64 := word64 c32
  let (m,cp8,len) :=
    if s &&& 7 = 0 ∧ 8 ≤ len then fillWords 8 c64 len m s len
    else if s &&& 3 = 0 ∧ 4 ≤ len then fillWords 4 c32 len m s len
    else (m,s,len)
  let (m,_,_) := fillWords 1 ((c &&& 0xff).setWidth 8) len m cp8 len
  (m,s)

def copyUp (last : Addr) : Nat → Mem → Addr → Addr → Option Mem
  | 0,_,_,_ => none
  | fuel+1,m,dstp,srcp =>
    let m := store m dstp (m srcp)
    if srcp + 1 = last then some m else copyUp last fuel m (dstp+1) (srcp+1)

def copyDown (last : Addr) : Nat → Mem → Addr → Addr → Option Mem
  | 0,_,_,_ => none
  | fuel+1,m,dstp,srcp =>
    let m := store m (dstp-1) (m (srcp-1))
    if srcp - 1 = last then some m else copyDown last fuel m (dstp-1) (srcp-1)

def memcpy (m : Mem) (dst src len : Addr) : Option (Mem × Addr) :=
  (copyUp (src+len) (2^64) m dst src).map (·,dst)

def memmove (m : Mem) (dst src len : Addr) : Option (Mem × Addr) :=
  if dst < src then (copyUp (src+len) (2^64) m dst src).map (·,dst)
  else (copyDown src (2^64) m (dst+len) (src+len)).map (·,dst)

def signedChar (x : Int) : Int := x.bmod 256

def memcmpLoop (m : Mem) : Nat → Addr → Addr → Int
  | 0,_,_ => 0
  | n+1,s1,s2 =>
    let rc := signedChar ((m s1).toNat - (m s2).toNat)
    if rc ≠ 0 then rc else memcmpLoop m n (s1+1) (s2+1)

def memcmp (m : Mem) (m1 m2 : Addr) (n : BitVec 64) : Int := memcmpLoop m n.toNat m1 m2

theorem fillLoop {n v} {w : BitVec v} {m p b fuel k len} (some : 0 < n)
    (bytes : ∀ i < n, UInt8.ofBitVec (w.extractLsb' (8*i) 8) = b) (enough : len ≤ fuel) (fits : k + len ≤ 2^64) :
    fillWords n w fuel (filled m p k b) (offset p k) len =
      (filled m p (k + (len - len % n)) b,offset p (k + (len - len % n)),len % n) := by
  induction fuel generalizing k len with
  | zero =>
    have none : len = 0 := by omega
    simp [fillWords,none]
  | succ fuel ih =>
    rw [fillWords]
    split
    · rename_i more
      have rest : (len-n) % n = len % n := by rw [← Nat.mod_eq_sub_mod more]
      have below := Nat.mod_lt len some
      have less : (len-n) % n ≤ len - n := Nat.mod_le _ _
      rw [filledWord (by omega) bytes,offsetAdd,ih (by omega) (by omega),rest]
      have total : k + n + (len - n - len % n) = k + (len - len % n) := by omega
      rw [total]
    · rename_i less
      have last : len % n = len := Nat.mod_eq_of_lt (by omega)
      simp [last]

theorem fillStart {n v} {w : BitVec v} {b} (m p) {len} (some : 0 < n)
    (bytes : ∀ i < n, UInt8.ofBitVec (w.extractLsb' (8*i) 8) = b) (fits : len ≤ 2^64) :
    fillWords n w len m p len = (filled m p (len - len % n) b,offset p (len - len % n),len % n) := by
  have loop := fillLoop (m := m) (p := p) (k := 0) some bytes (Nat.le_refl len) (by omega)
  simpa using loop

def lowByte (c : BitVec 32) : UInt8 := UInt8.ofBitVec (c.setWidth 8)

theorem lowByteValue (c : BitVec 32) : ((lowByte c).toNat : Int) = c.toInt % 256 := by
  rw [lowByte,UInt8.toNat_ofBitVec,BitVec.toNat_setWidth,BitVec.toInt_eq_toNat_bmod,Int.bmod_def]
  have bound := c.isLt
  split <;> omega

theorem lowBits (c : BitVec 32) : c &&& 0xff = (c.setWidth 8).setWidth 32 := by
  apply BitVec.eq_of_toNat_eq
  have mask : c.toNat &&& 255 = c.toNat % 256 := Nat.and_two_pow_sub_one_eq_mod c.toNat 8
  rw [BitVec.toNat_and,BitVec.toNat_setWidth,BitVec.toNat_setWidth]
  exact mask.trans (Nat.mod_eq_of_lt (by omega)).symm

theorem word32Bytes (b : BitVec 8) :
    ∀ i < 4, UInt8.ofBitVec ((word32 ((b.setWidth 32).signExtend 64)).extractLsb' (8*i) 8) = UInt8.ofBitVec b := by
  revert b
  decide +kernel

theorem word64Bytes (b : BitVec 8) :
    ∀ i < 8, UInt8.ofBitVec ((word64 (word32 ((b.setWidth 32).signExtend 64))).extractLsb' (8*i) 8) =
      UInt8.ofBitVec b := by
  revert b
  decide +kernel

theorem lowBytes (c : BitVec 32) :
    ∀ i < 1, UInt8.ofBitVec (((c &&& 0xff).setWidth 8).extractLsb' (8*i) 8) = lowByte c := by
  intro i hi
  have first : i = 0 := by omega
  rw [first,lowBits,lowByte]
  congr 1
  ext j hj
  simp

theorem memsetFilled (m : Mem) (s : Addr) (c : BitVec 32) (n : BitVec 64) :
    memset m s c n = (filled m s n.toNat (lowByte c),s) := by
  have bytes1 := lowBytes c
  have bytes4 := word32Bytes (c.setWidth 8)
  have bytes8 := word64Bytes (c.setWidth 8)
  rw [← lowBits] at bytes4 bytes8
  have bound := n.isLt
  have tail : ∀ k len, k + len = n.toNat →
      (fillWords 1 ((c &&& 0xff).setWidth 8) len (filled m s k (lowByte c)) (offset s k) len).1 =
        filled m s n.toNat (lowByte c) := by
    intro k len total
    rw [fillLoop (by omega) bytes1 (Nat.le_refl _) (by omega),Nat.mod_one,Nat.sub_zero,total]
  unfold memset
  dsimp only
  split
  · rw [fillStart m s (by omega) bytes8 (by omega)]
    exact Prod.ext (tail _ (n.toNat % 8) (by omega)) rfl
  · split
    · rw [fillStart m s (by omega) bytes4 (by omega)]
      exact Prod.ext (tail _ (n.toNat % 4) (by omega)) rfl
    · have all := tail 0 n.toNat (by omega)
      rw [filledZero,offsetZero] at all
      exact Prod.ext all rfl

theorem memsetFills (m : Mem) (s : Addr) (c : BitVec 32) (n : BitVec 64) :
    (∀ i < n.toNat, (((memset m s c n).1 (offset s i)).toNat : Int) = c.toInt % 256) ∧
    (∀ a, (∀ i < n.toNat, a ≠ offset s i) → (memset m s c n).1 a = m a) ∧
    (memset m s c n).1 = (fillWords 1 ((c &&& 0xff).setWidth 8) n.toNat m s n.toNat).1 ∧
    (memset m s c n).2 = s := by
  have bound := n.isLt
  rw [memsetFilled]
  refine ⟨?_,?_,?_,rfl⟩
  · intro i hi
    exact (congrArg (fun b : UInt8 => (b.toNat : Int)) (filledInside hi (by omega))).trans (lowByteValue c)
  · intro a outside
    exact filledFrame outside
  · rw [fillStart m s (by omega) (lowBytes c) (by omega),Nat.mod_one,Nat.sub_zero]

theorem copyUpCopied {last d s m k fuel} (some : 0 < k) (enough : k ≤ fuel) (fits : k ≤ 2^64)
    (ends : offset s k = last) : copyUp last fuel m d s = .some (copied 1 m d s k) := by
  induction fuel generalizing m d s k with
  | zero => omega
  | succ fuel ih =>
    obtain ⟨k,rfl⟩ : ∃ j, k = j+1 := ⟨k-1,by omega⟩
    rw [copyUp,copiedFirst]
    rw [← offsetSucc] at ends
    split
    · rename_i here
      have done : k = 0 := by
        have same : offset (s+1) k = offset (s+1) 0 := by rw [ends,offsetZero,here]
        exact offsetInjective (by omega) (by omega) same
      rw [done]
      rfl
    · rename_i more
      have left : 0 < k := by
        rcases Nat.eq_zero_or_pos k with rfl | left
        · exact absurd ends (by rwa [offsetZero])
        · exact left
      exact ih left (by omega) (by omega) ends

theorem copyDownCopied {last d s m k fuel} (some : 0 < k) (enough : k ≤ fuel) (fits : k ≤ 2^64)
    (ends : offset last k = s) : copyDown last fuel m d s = .some (copied (-1) m (d-1) (s-1) k) := by
  induction fuel generalizing m d s k with
  | zero => omega
  | succ fuel ih =>
    obtain ⟨k,rfl⟩ : ∃ j, k = j+1 := ⟨k-1,by omega⟩
    rw [copyDown,copiedFirst]
    have ends : offset last k = s - 1 := by
      rw [← ends,← offsetSucc]
      unfold offset
      bv_omega
    split
    · rename_i here
      have done : k = 0 := by
        have same : offset last k = offset last 0 := by rw [ends,offsetZero,here]
        exact offsetInjective (by omega) (by omega) same
      rw [done]
      rfl
    · rename_i more
      have left : 0 < k := by
        rcases Nat.eq_zero_or_pos k with rfl | left
        · exact absurd ends.symm (by rwa [offsetZero])
        · exact left
      have minus : ∀ a : Addr, a + -1 = a - 1 := fun a => (BitVec.sub_eq_add_neg a 1).symm
      rw [minus,minus]
      exact ih left (by omega) (by omega) ends

def steps (len : Addr) : Nat := if len = 0 then 2^64 else len.toNat

theorem stepsBounds (len) : 0 < steps len ∧ steps len ≤ 2^64 := by
  unfold steps
  have bound := len.isLt
  split
  · omega
  · rename_i some
    have : len.toNat ≠ 0 := fun zero => some (BitVec.eq_of_toNat_eq zero)
    omega

theorem stepsReach (p len : Addr) : offset p (steps len) = p + len := by
  unfold steps offset
  split
  · rename_i none
    rw [none]
    rfl
  · rw [BitVec.ofNat_toNat,BitVec.setWidth_eq]

theorem copyUpRun (m : Mem) (dst src len : Addr) :
    copyUp (src+len) (2^64) m dst src = some (copied 1 m dst src (steps len)) :=
  copyUpCopied (stepsBounds len).1 (stepsBounds len).2 (stepsBounds len).2 (stepsReach src len)

theorem copyDownRun (m : Mem) (dst src len : Addr) :
    copyDown src (2^64) m (dst+len) (src+len) = some (copied (-1) m (dst+len-1) (src+len-1) (steps len)) :=
  copyDownCopied (stepsBounds len).1 (stepsBounds len).2 (stepsBounds len).2 (stepsReach src len)

structure Copies (m : Mem) (dst src : Addr) (len : Nat) (m' : Mem) : Prop where
  inside : ∀ i < len, m' (offset dst i) = m (offset src i)
  outside : ∀ a, (∀ i < len, a ≠ offset dst i) → m' a = m a

theorem copiesNothing {m m' dst src} : Copies m dst src 0 m' ↔ m' = m := by
  constructor
  · intro h
    funext a
    exact h.outside a (fun i hi => absurd hi (Nat.not_lt_zero i))
  · rintro rfl
    exact ⟨fun i hi => absurd hi (Nat.not_lt_zero i),fun _ _ => rfl⟩

theorem copiesUp {m : Mem} {dst src : Addr} {k : Nat} (fits : k ≤ 2^64)
    (apart : ∀ i j, i < j → j < k → offset src j ≠ offset dst i) : Copies m dst src k (copied 1 m dst src k) where
  inside i hi := by
    have same : copied 1 m dst src k (stride 1 dst i) = m (stride 1 src i) := copiedApart (by decide) fits
      (by simpa only [strideOne] using apart) hi
    simpa only [strideOne] using same
  outside a out := copiedFrame (by simpa only [strideOne] using out)

theorem strideDown (p) {k i : Nat} (hi : i < k) : stride (-1) (offset p k - 1) i = offset p (k-1-i) := by
  obtain ⟨j,rfl⟩ : ∃ j, k = j + i + 1 := ⟨k-1-i,by omega⟩
  have index : j + i + 1 - 1 - i = j := by omega
  rw [index]
  unfold stride offset
  rw [BitVec.ofNat_add,BitVec.ofNat_add,BitVec.mul_neg]
  have one : BitVec.ofNat 64 i * 1 = BitVec.ofNat 64 i := BitVec.mul_one _
  rw [one]
  bv_omega

theorem copiesDown {m : Mem} {dst src : Addr} {k : Nat} (fits : k ≤ 2^64)
    (apart : ∀ i j, i < j → j < k → offset src i ≠ offset dst j) :
    Copies m dst src k (copied (-1) m (offset dst k - 1) (offset src k - 1) k) where
  inside i hi := by
    have same : copied (-1) m (offset dst k - 1) (offset src k - 1) k (stride (-1) (offset dst k - 1) (k-1-i)) =
        m (stride (-1) (offset src k - 1) (k-1-i)) := copiedApart
      (by decide) fits
      (by
        intro x y hxy hy
        rw [strideDown src hy,strideDown dst (by omega)]
        exact apart _ _ (by omega) (by omega))
      (by omega)
    have index : k - 1 - (k-1-i) = i := by omega
    rwa [strideDown dst (by omega),strideDown src (by omega),index] at same
  outside a out := by
    apply copiedFrame
    intro i hi
    rw [strideDown dst hi]
    exact out _ (by omega)

theorem copiesRound (step m dst src) {d s} (unit : step * step = 1) (distance : s - d = src - dst) :
    Copies m dst src 0 (copied step m d s (2^64)) ↔ ∀ a, m (a + (src-dst)) = m a := by
  rw [copiesNothing,copiedAround unit,distance]

theorem stepsSome {len : Addr} (some : len ≠ 0) : steps len = len.toNat := if_neg some

theorem memmoveCopies {m : Mem} {dst src len : Addr} (dstFits : dst.toNat + len.toNat ≤ 2^64)
    (srcFits : src.toNat + len.toNat ≤ 2^64) :
    (∃ m', memmove m dst src len = some (m',dst) ∧ Copies m dst src len.toNat m') ↔
      len ≠ 0 ∨ ∀ a, m (a + (src-dst)) = m a := by
  unfold memmove
  by_cases none : len = 0
  · subst none
    split
    · rw [copyUpRun]
      simpa [steps] using copiesRound 1 m dst src (by decide) rfl
    · rw [copyDownRun]
      simpa [steps] using copiesRound (-1) m dst src (by decide) (by bv_omega)
  · have bound := len.isLt
    have reach : ∀ p : Addr, p + len = offset p len.toNat := fun p => by rw [← stepsReach,stepsSome none]
    refine iff_of_true ?_ (.inl none)
    split
    · rename_i below
      rw [copyUpRun,stepsSome none]
      refine ⟨_,rfl,copiesUp (by omega) ?_⟩
      intro i j hij hj same
      have numbers := congrArg BitVec.toNat same
      rw [offsetToNat (by omega),offsetToNat (by omega)] at numbers
      have := BitVec.lt_def.mp below
      omega
    · rename_i above
      rw [copyDownRun,stepsSome none,reach,reach]
      refine ⟨_,rfl,copiesDown (by omega) ?_⟩
      intro i j hij hj same
      have numbers := congrArg BitVec.toNat same
      rw [offsetToNat (by omega),offsetToNat (by omega)] at numbers
      have := BitVec.lt_def.not.mp above
      omega

theorem memcpyCopies {m dst src len}
    (apart : ∀ i < len.toNat, ∀ j < len.toNat, offset src i ≠ offset dst j) :
    (∃ m', memcpy m dst src len = some (m',dst) ∧ Copies m dst src len.toNat m') ↔
      len ≠ 0 ∨ ∀ a, m (a + (src-dst)) = m a := by
  unfold memcpy
  rw [copyUpRun]
  by_cases none : len = 0
  · subst none
    simpa [steps] using copiesRound 1 m dst src (by decide) rfl
  · have bound := len.isLt
    refine iff_of_true ?_ (.inl none)
    rw [stepsSome none]
    exact ⟨_,rfl,copiesUp (by omega) (fun i j hij hj => apart j hj i (by omega))⟩

theorem memcpyCopyIn {m dst src len} (nonzero : len ≠ 0)
    (apart : ∀ i < len.toNat, ∀ j < len.toNat, offset src i ≠ offset dst j) :
    ∃ m', memcpy m dst src len = some (m',dst) ∧ ∀ i < 2^64, view m' dst i = copyIn m src len.toNat (view m dst) i := by
  obtain ⟨m',copy,copies⟩ := (memcpyCopies (m := m) apart).mpr (.inl nonzero)
  refine ⟨m',copy,fun i hi => ?_⟩
  have bound := len.isLt
  rcases Nat.lt_or_ge i len.toNat with inside | behind
  · rw [copyInside inside]
    exact copies.inside i inside
  · rw [copyIn,if_neg (by omega)]
    apply copies.outside
    intro j hj same
    have := offsetInjective hi (by omega) same
    omega

theorem copyExact (m : Mem) (dst src len : Addr) (dstFits : dst.toNat + len.toNat ≤ 2^64)
    (srcFits : src.toNat + len.toNat ≤ 2^64) :
    ((∃ m', memmove m dst src len = some (m',dst) ∧ Copies m dst src len.toNat m') ↔
      len ≠ 0 ∨ ∀ a, m (a + (src-dst)) = m a) ∧
    ((∀ i < len.toNat, ∀ j < len.toNat, offset src i ≠ offset dst j) →
      ((∃ m', memcpy m dst src len = some (m',dst) ∧ Copies m dst src len.toNat m') ↔
        len ≠ 0 ∨ ∀ a, m (a + (src-dst)) = m a)) :=
  ⟨memmoveCopies dstFits srcFits,fun apart => memcpyCopies apart⟩

theorem copyExactFour :
    let m : Mem := fun a => UInt8.ofBitVec (a.setWidth 8)
    ∃ m', memmove m 0x1002 0x1000 4 = some (m',0x1002) ∧ Copies m 0x1002 0x1000 4 m' :=
  (copyExact _ 0x1002 0x1000 4 (by decide) (by decide)).1.mpr (.inl (by decide))

theorem firstByteStays {m dst src} : copied 1 m dst src (2^64) dst = m src := by
  have kept : copied 1 m dst src (2^64) (stride 1 dst 0) = copied 1 m dst src 0 (stride 1 src 0) :=
    copiedStays (by decide) (Nat.two_pow_pos 64) (Nat.le_refl _)
  rw [strideZero,strideZero] at kept
  exact kept

theorem emptyCopyWrites :
    let m := store (fun _ => 0) 0x2000 1
    (∃ m', memmove m 0x1000 0x2000 0 = some (m',0x1000) ∧ m' 0x1000 = 1 ∧ m 0x1000 = 0) ∧
    (∃ m', memcpy m 0x1000 0x2000 0 = some (m',0x1000) ∧ m' 0x1000 = 1 ∧ m 0x1000 = 0) := by
  intro m
  have up := copyUpRun m 0x1000 0x2000 0
  have changed : copied 1 m 0x1000 0x2000 (2^64) 0x1000 = 1 := firstByteStays.trans (storeSame _ _ _)
  have before : m 0x1000 = 0 := storeOther (by decide)
  constructor
  · refine ⟨copied 1 m 0x1000 0x2000 (2^64),?_,changed,before⟩
    rw [memmove,if_pos (by decide),up]
    rfl
  · refine ⟨copied 1 m 0x1000 0x2000 (2^64),?_,changed,before⟩
    rw [memcpy,up]
    rfl

theorem signedCharZero {x} (low : -256 < x) (high : x < 256) : signedChar x = 0 ↔ x = 0 := by
  rw [signedChar,Int.bmod_def]
  split <;> omega

theorem signedCharSign {x : Int} (low : -256 < x) (high : x < 256) :
    ((signedChar x < 0 ↔ x < 0) ∧ (0 < signedChar x ↔ 0 < x)) ↔ -128 ≤ x ∧ x ≤ 127 := by
  rw [signedChar,Int.bmod_def]
  split <;> omega

theorem signedCharOpposite {x : Int} (low : -256 < x) (high : x < 256) :
    ((0 < signedChar x ↔ signedChar (-x) < 0) ∧ (signedChar x < 0 ↔ 0 < signedChar (-x))) ↔ x ≠ -128 ∧ x ≠ 128 := by
  rw [signedChar,signedChar,Int.bmod_def,Int.bmod_def]
  split <;> split <;> omega

def byteValue (m : Mem) (p : Addr) (i : Nat) : Int := (m (offset p i)).toNat

theorem byteValueNext (m p i) : byteValue m (p+1) i = byteValue m p (i+1) := by
  rw [byteValue,byteValue,offsetSucc]

theorem byteValueDiff (m : Mem) (p q : Addr) (i : Nat) :
    -256 < byteValue m p i - byteValue m q i ∧ byteValue m p i - byteValue m q i < 256 := by
  have h1 := (m (offset p i)).toNat_lt
  have h2 := (m (offset q i)).toNat_lt
  unfold byteValue
  omega

theorem memcmpStep (m : Mem) (m1 m2 : Addr) (n : Nat) :
    memcmpLoop m (n+1) m1 m2 =
      if byteValue m m1 0 = byteValue m m2 0 then memcmpLoop m n (m1+1) (m2+1)
      else signedChar (byteValue m m1 0 - byteValue m m2 0) := by
  have here : ((m m1).toNat : Int) - (m m2).toNat = byteValue m m1 0 - byteValue m m2 0 := by simp [byteValue]
  have zero := signedCharZero (byteValueDiff m m1 m2 0).1 (byteValueDiff m m1 m2 0).2
  rw [memcmpLoop,here]
  by_cases same : byteValue m m1 0 = byteValue m m2 0
  · rw [if_pos same,if_neg (not_not_intro (zero.mpr (by omega)))]
  · rw [if_neg same,if_pos (fun rc => same (by have := zero.mp rc; omega))]

theorem memcmpSame {m m1 m2 n} (same : ∀ i < n, byteValue m m1 i = byteValue m m2 i) :
    memcmpLoop m n m1 m2 = 0 := by
  induction n generalizing m1 m2 with
  | zero => rfl
  | succ n ih =>
    rw [memcmpStep,if_pos (same 0 (Nat.succ_pos n))]
    apply ih
    intro i hi
    rw [byteValueNext,byteValueNext]
    exact same (i+1) (by omega)

theorem memcmpFirst {m : Mem} {m1 m2 : Addr} {n k : Nat} (hk : k < n)
    (same : ∀ i < k, byteValue m m1 i = byteValue m m2 i) (differ : byteValue m m1 k ≠ byteValue m m2 k) :
    memcmpLoop m n m1 m2 = signedChar (byteValue m m1 k - byteValue m m2 k) := by
  induction n generalizing m1 m2 k with
  | zero => exact absurd hk (Nat.not_lt_zero k)
  | succ n ih =>
    rw [memcmpStep]
    cases k with
    | zero => rw [if_neg differ]
    | succ k =>
      rw [if_pos (same 0 (Nat.succ_pos k)),← byteValueNext,← byteValueNext]
      apply ih (by omega)
      · intro i hi
        rw [byteValueNext,byteValueNext]
        exact same (i+1) (by omega)
      · rwa [byteValueNext,byteValueNext]

theorem memcmpTaken (m m1 m2 n) :
    memcmp m m1 m2 n = 0 ↔ taken (view m m1) n.toNat = taken (view m m2) n.toNat := by
  have bytes : ∀ i, byteValue m m1 i = byteValue m m2 i ↔ view m m1 i = view m m2 i := by
    intro i
    unfold byteValue view
    rw [← UInt8.toNat_inj]
    omega
  rw [takenSame]
  unfold memcmp
  rcases firstDifference (byteValue m m1) (byteValue m m2) n.toNat with same | ⟨k,hk,same,differ⟩
  · exact iff_of_true (memcmpSame same) (fun i hi => (bytes i).mp (same i hi))
  · have bounds := byteValueDiff m m1 m2 k
    rw [memcmpFirst hk same differ,signedCharZero bounds.1 bounds.2]
    exact iff_of_false (by omega) (fun all => differ ((bytes k).mpr (all k hk)))

theorem memcmpExact (m : Mem) (m1 m2 : Addr) (n : BitVec 64) :
    (Orders (byteValue m m1) (byteValue m m2) n.toNat (memcmp m m1 m2 n) ∧
      (0 < memcmp m m1 m2 n ↔ memcmp m m2 m1 n < 0) ∧ (memcmp m m1 m2 n < 0 ↔ 0 < memcmp m m2 m1 n)) ↔
      ∀ k < n.toNat, (∀ i < k, byteValue m m1 i = byteValue m m2 i) →
        -128 < byteValue m m1 k - byteValue m m2 k ∧ byteValue m m1 k - byteValue m m2 k < 128 := by
  unfold memcmp
  rcases firstDifference (byteValue m m1) (byteValue m m2) n.toNat with same | ⟨k,hk,same,differ⟩
  · rw [memcmpSame same,memcmpSame (fun i hi => (same i hi).symm)]
    refine iff_of_true ⟨(ordersSame same).mpr rfl,by omega,by omega⟩ ?_
    intro k hk _
    have := same k hk
    omega
  · have bounds := byteValueDiff m m1 m2 k
    have swapped : byteValue m m2 k - byteValue m m1 k = -(byteValue m m1 k - byteValue m m2 k) := by omega
    rw [memcmpFirst hk same differ,memcmpFirst hk (fun i hi => (same i hi).symm) differ.symm,swapped,
      ordersFirst hk same differ]
    have sign := signedCharSign bounds.1 bounds.2
    have opposite := signedCharOpposite bounds.1 bounds.2
    constructor
    · rintro ⟨⟨less,greater⟩,signs⟩ j hj before
      have fits := sign.mp ⟨by omega,by omega⟩
      have other := opposite.mp signs
      rcases Nat.lt_trichotomy j k with earlier | rfl | later
      · have := same j earlier
        omega
      · omega
      · exact absurd (before k later) differ
    · intro small
      have here := small k hk same
      have fits := sign.mpr ⟨by omega,by omega⟩
      exact ⟨⟨by omega,by omega⟩,opposite.mpr ⟨by omega,by omega⟩⟩

theorem memcmpBothLess :
    let m := store (fun _ => 0) 0x1000 0x80
    memcmp m 0x1000 0x2000 1 = -128 ∧ memcmp m 0x2000 0x1000 1 = -128 ∧ byteValue m 0x2000 0 < byteValue m 0x1000 0 := by
  decide

end TskSw.MemFunctions
