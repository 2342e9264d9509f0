import Mathlib.Data.List.Basic
import Mathlib.Tactic.Ring

/-! Fixed-size byte arrays with the two operations C programs apply to them:
copying a run of bytes out (`slice`) and copying a run of bytes in (`patch`).
Integers are stored little endian. Nothing here is particular to one program. -/
namespace TskSw.Bytes

abbrev Buf (n : Nat) := Fin n → UInt8

variable {n : Nat}

def byteAt (d : Buf n) (i : Nat) : UInt8 := if h : i < n then d ⟨i,h⟩ else 0

def slice (d : Buf n) (off len : Nat) : List UInt8 := (List.range len).map (fun k => byteAt d (off+k))

def patch (d : Buf n) (off : Nat) (bs : List UInt8) : Buf n :=
  fun i => if off ≤ i.val ∧ i.val < off + bs.length then bs.getD (i.val-off) 0 else d i

@[simp] theorem sliceLength (d : Buf n) (off len : Nat) : (slice d off len).length = len := by
  simp [slice]

theorem sliceAt (d : Buf n) (off len k : Nat) (h : k < len) :
    (slice d off len)[k]? = some (byteAt d (off+k)) := by
  simp [slice,h]

theorem byteAtPatch (d : Buf n) (off i : Nat) (bs : List UInt8) (h : i < n) :
    byteAt (patch d off bs) i =
      if off ≤ i ∧ i < off + bs.length then bs.getD (i-off) 0 else byteAt d i := by
  simp [byteAt,patch,h]

theorem slicePatchInside (d : Buf n) (off a len : Nat) (bs : List UInt8)
    (fits : off + bs.length ≤ n) (inside : a + len ≤ bs.length) :
    slice (patch d off bs) (off+a) len = (bs.drop a).take len := by
  apply List.ext_getElem?
  intro k
  by_cases h : k < len
  · rw [sliceAt _ _ _ _ h,byteAtPatch _ _ _ _ (by omega),if_pos (by omega)]
    have index : off + a + k - off = a + k := by omega
    rw [index,List.getElem?_take_of_lt h,List.getElem?_drop,List.getD_eq_getElem?_getD,
      List.getElem?_eq_getElem (by omega)]
    rfl
  · rw [List.getElem?_eq_none (by simp; omega),List.getElem?_eq_none (by simp; omega)]

theorem slicePatchSame (d : Buf n) (off : Nat) (bs : List UInt8) (fits : off + bs.length ≤ n) :
    slice (patch d off bs) off bs.length = bs := by
  simpa using slicePatchInside d off 0 bs.length bs fits (by omega)

theorem slicePatchOutside (d : Buf n) (off o len : Nat) (bs : List UInt8)
    (apart : o + len ≤ off ∨ off + bs.length ≤ o) :
    slice (patch d off bs) o len = slice d o len := by
  apply List.map_congr_left
  intro k hk
  have := List.mem_range.mp hk
  by_cases h : o + k < n
  · rw [byteAtPatch _ _ _ _ h,if_neg (by omega)]
  · simp [byteAt,h]

theorem patchSlice (d : Buf n) (off len : Nat) : patch d off (slice d off len) = d := by
  funext i
  unfold patch
  split
  · rename_i h
    rw [sliceLength] at h
    rw [List.getD_eq_getElem?_getD,sliceAt _ _ _ _ (by omega)]
    have index : off + (i.val - off) = i.val := by omega
    simp [byteAt,index]
  · rfl

theorem patchHead {d e len} (rest : ∀ i : Fin n, len ≤ i.val → d i = e i) : patch e 0 (slice d 0 len) = d := by
  funext i
  unfold patch
  rw [sliceLength]
  by_cases inside : i.val < len
  · rw [if_pos (by omega),List.getD_eq_getElem?_getD,sliceAt _ _ _ _ (by omega)]
    simp [byteAt]
  · rw [if_neg (by omega),rest i (by omega)]

theorem patchPatch (d : Buf n) (off : Nat) (bs cs : List UInt8) (same : bs.length = cs.length) :
    patch (patch d off bs) off cs = patch d off cs := by
  funext i
  unfold patch
  rw [same]
  split <;> rfl

def leNat : List UInt8 → Nat
  | [] => 0
  | b :: bs => b.toNat + 256 * leNat bs

def leBytes : Nat → Nat → List UInt8
  | 0, _ => []
  | width+1, v => UInt8.ofNat v :: leBytes width (v/256)

@[simp] theorem leBytesLength (width v : Nat) : (leBytes width v).length = width := by
  induction width generalizing v with
  | zero => rfl
  | succ width ih => simp [leBytes,ih]

theorem leNatBytes (width v : Nat) : leNat (leBytes width v) = v % 256 ^ width := by
  induction width generalizing v with
  | zero => simp [leBytes,leNat,Nat.mod_one]
  | succ width ih =>
    have head : (UInt8.ofNat v).toNat = v % 256 := UInt8.toNat_ofNat'
    rw [leBytes,leNat,ih,head,Nat.pow_succ (n := 256),Nat.mul_comm _ 256,Nat.mod_mul]

theorem leBytesNat (bs : List UInt8) : leBytes bs.length (leNat bs) = bs := by
  induction bs with
  | nil => rfl
  | cons b bs ih =>
    have low := b.toNat_lt
    have head : UInt8.ofNat (b.toNat + 256 * leNat bs) = b := by
      apply UInt8.toNat_inj.mp
      rw [UInt8.toNat_ofNat']
      omega
    have rest : (b.toNat + 256 * leNat bs) / 256 = leNat bs := by omega
    simp only [List.length_cons,leBytes,leNat,head,rest,ih]

theorem leNatLt (bs : List UInt8) : leNat bs < 256 ^ bs.length := by
  induction bs with
  | nil => simp [leNat]
  | cons b bs ih =>
    have low := b.toNat_lt
    simp only [leNat,List.length_cons,Nat.pow_succ]
    omega

def u32 (bs : List UInt8) : BitVec 32 := BitVec.ofNat 32 (leNat bs)
def u64 (bs : List UInt8) : BitVec 64 := BitVec.ofNat 64 (leNat bs)
def le32 (v : BitVec 32) : List UInt8 := leBytes 4 v.toNat
def le64 (v : BitVec 64) : List UInt8 := leBytes 8 v.toNat

@[simp] theorem le32Length (v : BitVec 32) : (le32 v).length = 4 := leBytesLength ..
@[simp] theorem le64Length (v : BitVec 64) : (le64 v).length = 8 := leBytesLength ..

@[simp] theorem u32Le (v : BitVec 32) : u32 (le32 v) = v := by
  apply BitVec.eq_of_toNat_eq
  have bound := v.isLt
  simp [u32,le32,leNatBytes]
  omega

@[simp] theorem u64Le (v : BitVec 64) : u64 (le64 v) = v := by
  apply BitVec.eq_of_toNat_eq
  have bound := v.isLt
  simp [u64,le64,leNatBytes]
  omega

theorem leU64 (bs : List UInt8) (h : bs.length = 8) : le64 (u64 bs) = bs := by
  have bound := leNatLt bs
  rw [h] at bound
  have value : (u64 bs).toNat = leNat bs := by
    rw [u64,BitVec.toNat_ofNat]
    exact Nat.mod_eq_of_lt bound
  rw [le64,value,← h]
  exact leBytesNat bs

end TskSw.Bytes
