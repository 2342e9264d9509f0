import Mathlib.Data.List.TakeWhile

/-! `strncmp` and `strncpy` of `common/string.c`. A string is the memory from its pointer
on: it ends at the first zero byte, and behind the list there are only zeros. `strncmp`
stops at the end of its first argument without looking at the second one there. -/
namespace TskSw.CString

def cstr (s : List UInt8) : List UInt8 := s.takeWhile (· ≠ 0)

def strncmp : List UInt8 → List UInt8 → Nat → Int
  | [],_,_ => 0
  | c :: s1,s2,n =>
    if c = 0 then 0
    else
      let rc := (c - s2.headD 0).toBitVec.toInt
      if rc ≠ 0 ∨ n = 0 then rc else strncmp s1 s2.tail (n-1)

-- `n` counts down to 0 before the loop looks at it, so one more byte than `n` can be copied.
def copyChars : List UInt8 → List UInt8 → Nat → List UInt8
  | [],_,_ => []
  | _ :: dest,src,n =>
    let c := src.headD 0
    c :: (if n = 0 ∨ c = 0 then dest else copyChars dest src.tail (n-1))

def strncpy (dest src : List UInt8) (n : Nat) : List UInt8 := if n = 0 then dest else copyChars dest src n

theorem charDiff (c d : UInt8) : (c - d).toBitVec.toInt = 0 ↔ c = d := by
  constructor
  · intro zero
    have bits : (c - d).toBitVec = 0 := BitVec.eq_of_toInt_eq zero
    have none : c - d = 0 := UInt8.toBitVec_inj.mp bits
    simpa [UInt8.sub_add_cancel] using congrArg (· + d) none
  · rintro rfl
    simp

theorem strncmpZero {s1 s2 n} (clean : 0 ∉ s1) (short : s1.length ≤ n + 1) :
    strncmp s1 s2 n = 0 ↔ s1 <+: cstr s2 := by
  induction s1 generalizing s2 n with
  | nil => simp [strncmp]
  | cons c s1 ih =>
    rw [List.mem_cons,not_or] at clean
    have char : c ≠ 0 := fun e => clean.1 e.symm
    rw [strncmp,if_neg char]
    by_cases same : c = s2.headD 0
    · cases s2 with
      | nil => exact absurd same char
      | cons d s2 =>
        have here : c = d := same
        subst here
        have string : cstr (c :: s2) = c :: cstr s2 := by simp [cstr,char]
        rw [string,List.cons_prefix_cons]
        cases n with
        | zero =>
          have last : s1 = [] := List.length_eq_zero_iff.mp (by simpa using short)
          simp [last]
        | succ n => simpa using ih clean.2 (by simpa using short)
    · have rc : (c - s2.headD 0).toBitVec.toInt ≠ 0 := fun zero => same ((charDiff _ _).mp zero)
      simp only [ne_eq,rc,not_false_eq_true,true_or,if_true,false_iff]
      intro start
      cases s2 with
      | nil => simp [cstr] at start
      | cons d s2 =>
        by_cases zero : d = 0
        · simp [cstr,zero] at start
        · have string : cstr (d :: s2) = d :: cstr s2 := by simp [cstr,zero]
          rw [string,List.cons_prefix_cons] at start
          exact same start.1

theorem copyLength (dest src : List UInt8) (n : Nat) : (copyChars dest src n).length = dest.length := by
  induction dest generalizing src n with
  | nil => rfl
  | cons d dest ih =>
    rw [copyChars,List.length_cons,List.length_cons]
    split
    · rfl
    · rw [ih]

theorem strncpyLength (dest src : List UInt8) (n : Nat) : (strncpy dest src n).length = dest.length := by
  unfold strncpy
  split
  · rfl
  · exact copyLength dest src n

theorem copyString {dest src n} (clean : 0 ∉ src) (fits : src.length ≤ n) (room : src.length < dest.length) :
    cstr (copyChars dest src n) = src := by
  induction src generalizing dest n with
  | nil =>
    cases dest with
    | nil => cases room
    | cons d dest => simp [copyChars,cstr]
  | cons c src ih =>
    cases dest with
    | nil => cases room
    | cons d dest =>
      rw [List.mem_cons,not_or] at clean
      have char : c ≠ 0 := fun e => clean.1 e.symm
      have more : n ≠ 0 := by
        rw [List.length_cons] at fits
        omega
      have rest : cstr (copyChars dest src (n-1)) = src :=
        ih clean.2 (by rw [List.length_cons] at fits; omega) (by simpa using room)
      simpa [copyChars,char,more,cstr] using rest

theorem strncpyString {dest src n} (clean : 0 ∉ src) (fits : src.length ≤ n) (some : 0 < n)
    (room : src.length < dest.length) : cstr (strncpy dest src n) = src := by
  rw [strncpy,if_neg (by omega)]
  exact copyString clean fits room

end TskSw.CString
