import TskSw.ByteMemory

/-! An object apart from the memory it is filled from, as the bytes from its start on; what
lies behind its end is part of the same function. Words are little endian. Nothing here is
particular to one program. -/
namespace TskSw.ByteBuffers
open ByteMemory

abbrev Buffer := Nat → UInt8

def view (m : Mem) (p : Addr) : Buffer := fun i => m (offset p i)

def copyIn (m : Mem) (src : Addr) (len : Nat) (target : Buffer) : Buffer :=
  fun i => if i < len then view m src i else target i

def taken (b : Buffer) (n : Nat) : List UInt8 := (List.range n).map b

def le16 (b : Buffer) (i : Nat) : BitVec 16 := (b (i+1)).toBitVec ++ (b i).toBitVec

def le32 (b : Buffer) (i : Nat) : BitVec 32 :=
  (b (i+3)).toBitVec ++ (b (i+2)).toBitVec ++ (b (i+1)).toBitVec ++ (b i).toBitVec

def byteSum (b : Buffer) : Nat → Nat
  | 0 => 0
  | n+1 => byteSum b n + (b n).toNat

theorem takenSame {b c n} : taken b n = taken c n ↔ ∀ i < n, b i = c i := by
  simp [taken]

theorem byteSumSame {b c : Buffer} {n : Nat} (same : ∀ i < n, b i = c i) : byteSum b n = byteSum c n := by
  induction n with
  | zero => rfl
  | succ n ih => rw [byteSum,byteSum,ih (fun i hi => same i (by omega)),same n (Nat.lt_succ_self n)]

variable {m : Mem} {src : Addr} {len : Nat} {target : Buffer}

theorem copyInside {i : Nat} (inside : i < len) : copyIn m src len target i = view m src i := if_pos inside

theorem takenCopy {n : Nat} (inside : n ≤ len) : taken (copyIn m src len target) n = taken (view m src) n :=
  takenSame.mpr (fun _ hi => copyInside (by omega))

theorem le16Copy {i : Nat} (inside : i + 2 ≤ len) : le16 (copyIn m src len target) i = le16 (view m src) i := by
  rw [le16,copyInside (by omega),copyInside (by omega),le16]

theorem le32Copy {i : Nat} (inside : i + 4 ≤ len) : le32 (copyIn m src len target) i = le32 (view m src) i := by
  rw [le32,copyInside (by omega),copyInside (by omega),copyInside (by omega),copyInside (by omega),le32]

theorem accumulated (b : Buffer) (n : Nat) :
    ((List.range n).foldl (fun total i => total + b i) 0).toNat = byteSum b n % 256 := by
  induction n with
  | zero => rfl
  | succ n ih =>
    rw [List.range_succ,List.foldl_append,List.foldl_cons,List.foldl_nil,UInt8.toNat_add,ih,byteSum,Nat.mod_add_mod]

theorem accumulatedZero (b : Buffer) (n : Nat) :
    (List.range n).foldl (fun total i => total + b i) 0 = 0 ↔ byteSum b n % 256 = 0 := by
  rw [← UInt8.toNat_inj,accumulated]
  rfl

end TskSw.ByteBuffers
