import Mathlib.Data.List.Basic
import Mathlib.Data.List.Nodup

/-! Lists in which what was used last is moved to the front. They stay in the order of the last
use; what has never been used keeps the order it had in the beginning, behind everything else. -/
namespace TskSw.Recency

section Recency
variable {α : Type} [DecidableEq α] {first : α → α → Prop} {used l : List α} {a b : α}

def Older (first : α → α → Prop) (used : List α) (a b : α) : Prop :=
  used.idxOf b < used.idxOf a ∨ a ∉ used ∧ b ∉ used ∧ first a b

def ByRecency (first : α → α → Prop) (used l : List α) : Prop := l.Pairwise fun b a => Older first used a b

def moveFront (a : α) (l : List α) : List α := a :: l.erase a

theorem olderUse (other : b ≠ a) : Older first (a :: used) b a := by
  refine Or.inl ?_
  rw [List.idxOf_cons_self,List.idxOf_cons_ne _ (Ne.symm other)]
  exact Nat.succ_pos _

theorem olderStays {c} (older : Older first used b c) (left : b ≠ a) (right : c ≠ a) : Older first (a :: used) b c := by
  rcases older with later | ⟨unused,unused',before⟩
  · refine Or.inl ?_
    rw [List.idxOf_cons_ne _ (Ne.symm left),List.idxOf_cons_ne _ (Ne.symm right)]
    exact Nat.succ_lt_succ later
  · exact Or.inr ⟨by simp [left,unused],by simp [right,unused'],before⟩

theorem moveFrontOrdered (ordered : ByRecency first used l) (nodup : l.Nodup) : ByRecency first (a :: used) (moveFront a l) := by
  refine List.pairwise_cons.mpr ⟨fun b member => olderUse (nodup.mem_erase_iff.mp member).1,?_⟩
  refine (List.Pairwise.sublist List.erase_sublist ordered).imp_of_mem fun {c b} before after older => ?_
  exact olderStays older (nodup.mem_erase_iff.mp after).1 (nodup.mem_erase_iff.mp before).1

theorem moveFrontNodup (nodup : l.Nodup) : (moveFront a l).Nodup :=
  List.nodup_cons.mpr ⟨fun member => (nodup.mem_erase_iff.mp member).1 rfl,nodup.erase a⟩

theorem moveFrontMem (member : a ∈ l) (b : α) : b ∈ moveFront a l ↔ b ∈ l := (List.perm_cons_erase member).mem_iff.symm

theorem findOldest {p} (ordered : ByRecency first used l) (found : l.reverse.find? p = some a) :
    a ∈ l ∧ p a = true ∧ ∀ b ∈ l, p b = true → b ≠ a → Older first used a b := by
  obtain ⟨holds,older,newer,split,none⟩ := List.find?_eq_some_iff_append.mp found
  have list : l = newer.reverse ++ a :: older.reverse := by
    have back := congrArg List.reverse split
    simpa using back
  rw [list] at ordered ⊢
  refine ⟨by simp,holds,fun b member fits other => ?_⟩
  rcases List.mem_append.mp member with before | after
  · exact (List.pairwise_append.mp ordered).2.2 b before a List.mem_cons_self
  · rcases List.mem_cons.mp after with same | back
    · exact absurd same other
    · have fails := none b (List.mem_reverse.mp back)
      rw [fits] at fails
      cases fails

end Recency
end TskSw.Recency
