import Mathlib
import TskSw.ByteMemory

/-! 64-bit words in a byte memory, little endian, and stacks of them that grow towards lower
addresses. A span is counted from its first address and may go around the end of the address
space; what is left alone is said by `Set.EqOn`. Nothing here is particular to one program. -/
namespace TskSw.WordMemory
open ByteMemory

abbrev Word := BitVec 64

def word (m : Mem) (a : Addr) : Word :=
  (m (offset a 7)).toBitVec ++ (m (offset a 6)).toBitVec ++ (m (offset a 5)).toBitVec ++ (m (offset a 4)).toBitVec ++
    (m (offset a 3)).toBitVec ++ (m (offset a 2)).toBitVec ++ (m (offset a 1)).toBitVec ++ (m (offset a 0)).toBitVec

def put (m : Mem) (a : Addr) (w : Word) : Mem := storeLe 8 m a w

def span (a : Addr) (n : Nat) : Set Addr := {c | (c-a).toNat < n}

def setFlag (i : Nat) (on : Bool) (w : Word) : Word := if on then w ||| 1#64 <<< i else w &&& ~~~(1#64 <<< i)

def Holds (m : Mem) (a : Addr) : List Word → Prop
  | [] => True
  | w :: ws => word m a = w ∧ Holds m (a+8) ws

def pushAll : List Word → Addr × Mem → Addr × Mem
  | [],s => s
  | w :: ws,(sp,m) => pushAll ws (sp-8,put m (sp-8) w)

theorem setFlagBit {w : Word} {i j : Nat} (on) (small : i < 64) :
    (setFlag i on w).getLsbD j = if j = i then on else w.getLsbD j := by
  have bit : (1#64 <<< i).getLsbD j = decide (j = i) := by
    rw [BitVec.getLsbD_shiftLeft,BitVec.getLsbD_one]
    grind
  cases on with
  | true =>
    rw [setFlag,if_pos rfl,BitVec.getLsbD_or,bit]
    grind
  | false =>
    have wide : j ≥ 64 → w.getLsbD j = false := BitVec.getLsbD_of_ge w j
    rw [setFlag,if_neg Bool.false_ne_true,BitVec.getLsbD_and,BitVec.getLsbD_not,bit]
    grind

section Spans
variable {m m' m'' : Mem} {s t : Set Addr} {a b : Addr} {n k : Nat} {w : Word}

theorem spanSub (inside : (b-a).toNat + n ≤ k) : span b n ⊆ span a k := by
  intro c near
  have near : (c-b).toNat < n := near
  show (c-a).toNat < k
  bv_omega

theorem spanApart (behind : n ≤ (b-a).toNat) (fits : (b-a).toNat + k ≤ 2^64) : Disjoint (span a n) (span b k) := by
  refine Set.disjoint_left.mpr fun c here there => ?_
  have here : (c-a).toNat < n := here
  have there : (c-b).toNat < k := there
  bv_omega

theorem keptApart (kept : Set.EqOn m m' sᶜ) (apart : Disjoint s t) : Set.EqOn m m' t :=
  kept.mono fun _ inside outside => Set.disjoint_left.mp apart outside inside

theorem keptMore (kept : Set.EqOn m m' sᶜ) (more : s ⊆ t) : Set.EqOn m m' tᶜ := kept.mono (Set.compl_subset_compl.mpr more)

theorem putOutside : Set.EqOn m (put m a w) (span a 8)ᶜ := fun _ outside => (if_neg outside).symm

theorem offsetIndex {i : Nat} (small : i < 8) : (offset a i - a).toNat = i := by
  rw [offset,BitVec.add_comm,BitVec.add_sub_cancel,BitVec.toNat_ofNat,Nat.mod_eq_of_lt (by omega)]

@[simp] theorem wordPut (m a w) : word (put m a w) a = w := by
  have byte : ∀ i < 8, put m a w (offset a i) = UInt8.ofBitVec (w.extractLsb' (8*i) 8) := fun i small => by
    rw [put,storeLe,offsetIndex small,if_pos small]
  unfold word
  rw [byte 0 (by decide),byte 1 (by decide),byte 2 (by decide),byte 3 (by decide),
    byte 4 (by decide),byte 5 (by decide),byte 6 (by decide),byte 7 (by decide)]
  refine BitVec.eq_of_getLsbD_eq fun i small => ?_
  simp only [BitVec.getLsbD_append,BitVec.getLsbD_extractLsb']
  grind

theorem wordSame (same : Set.EqOn m m' (span a 8)) : word m' a = word m a := by
  have byte : ∀ i < 8, m' (offset a i) = m (offset a i) := fun i small =>
    (same (show (offset a i - a).toNat < 8 by rwa [offsetIndex small])).symm
  unfold word
  rw [byte 0 (by decide),byte 1 (by decide),byte 2 (by decide),byte 3 (by decide),
    byte 4 (by decide),byte 5 (by decide),byte 6 (by decide),byte 7 (by decide)]

theorem wordKept (kept : Set.EqOn m m' sᶜ) (apart : Disjoint s (span a 8)) : word m' a = word m a :=
  wordSame (keptApart kept apart)

end Spans

section Stacks
variable {m m' : Mem} {a sp : Addr} {w : Word} {ws rest : List Word}

theorem holdsSame (same : Set.EqOn m m' (span a (8*ws.length))) (holds : Holds m a ws) : Holds m' a ws := by
  induction ws generalizing a with
  | nil => trivial
  | cons w ws ih =>
    rw [List.length_cons] at same
    exact ⟨(wordSame (same.mono (spanSub (by simp)))).trans holds.1,ih (same.mono (spanSub (by bv_omega))) holds.2⟩

theorem holdsAppend : Holds m a (ws ++ rest) ↔ Holds m a ws ∧ Holds m (a + BitVec.ofNat 64 (8*ws.length)) rest := by
  induction ws generalizing a with
  | nil => simp [Holds]
  | cons w ws ih =>
    have shift : a + 8 + BitVec.ofNat 64 (8*ws.length) = a + BitVec.ofNat 64 (8*(w :: ws).length) := by
      rw [List.length_cons]
      bv_omega
    rw [List.cons_append,Holds,Holds,ih,shift,and_assoc]

theorem pushAllAppend (us vs s) : pushAll (us ++ vs) s = pushAll vs (pushAll us s) := by
  induction us generalizing s with
  | nil => rfl
  | cons u us ih => exact ih _

theorem pushAllPointer (ws : List Word) (sp : Addr) (m : Mem) : (pushAll ws (sp,m)).1 = sp - BitVec.ofNat 64 (8*ws.length) := by
  induction ws generalizing sp m with
  | nil => exact (BitVec.sub_zero sp).symm
  | cons w ws ih =>
    rw [pushAll,ih,List.length_cons]
    bv_omega

theorem pushAllKeeps (ws : List Word) (sp : Addr) (m : Mem) :
    Set.EqOn m (pushAll ws (sp,m)).2 (span (pushAll ws (sp,m)).1 (8*ws.length))ᶜ := by
  induction ws generalizing sp m with
  | nil => exact Set.eqOn_refl _ _
  | cons w ws ih =>
    have first : span (sp-8) 8 ⊆ span (pushAll (w :: ws) (sp,m)).1 (8*(w :: ws).length) := spanSub (by
      rw [pushAllPointer,List.length_cons]
      bv_omega)
    refine (keptMore putOutside first).trans (keptMore (ih (sp-8) _) (spanSub ?_))
    rw [pushAll,List.length_cons]
    bv_omega

theorem pushAllOn (ws) (fits : 8*(ws.length + rest.length) ≤ 2^64) (holds : Holds m sp rest) :
    Holds (pushAll ws (sp,m)).2 (pushAll ws (sp,m)).1 (ws.reverse ++ rest) := by
  induction ws generalizing sp m rest with
  | nil => exact holds
  | cons w ws ih =>
    rw [List.length_cons] at fits
    have apart : Disjoint (span (sp-8) 8) (span sp (8*rest.length)) := spanApart (by bv_omega) (by bv_omega)
    have top : Holds (put m (sp-8) w) (sp-8) (w :: rest) := by
      refine ⟨wordPut _ _ _,?_⟩
      rw [BitVec.sub_add_cancel]
      exact holdsSame (keptApart putOutside apart) holds
    rw [List.reverse_cons,List.append_assoc]
    exact ih (by rw [List.singleton_append,List.length_cons]; omega) top

theorem pushAllHolds (ws sp m) (fits : 8*ws.length ≤ 2^64) :
    Holds (pushAll ws (sp,m)).2 (pushAll ws (sp,m)).1 ws.reverse := by
  have nothing : Holds m sp [] := trivial
  have holds := pushAllOn ws (by rwa [List.length_nil]) nothing
  rwa [List.append_nil] at holds

end Stacks
end TskSw.WordMemory
