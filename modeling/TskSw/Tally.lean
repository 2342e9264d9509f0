import Mathlib.Data.List.Basic

/-! Lists of who has what: how many have a thing, when one more takes it and when one gives
it back. -/
namespace TskSw.Tally

section Tally
variable {τ κ : Type} [DecidableEq κ] {t : τ} {k : κ} {l : List (τ × κ)}

def tally (k : κ) (l : List (τ × κ)) : Nat := l.countP fun h => h.2 = k

theorem tallyCons (j k : κ) (t : τ) (l : List (τ × κ)) : tally j ((t,k) :: l) = tally j l + if k = j then 1 else 0 := by
  simp [tally,List.countP_cons]

theorem tallyErase [DecidableEq τ] (j : κ) (member : (t,k) ∈ l) : tally j l = tally j (l.erase (t,k)) + if k = j then 1 else 0 := by
  rw [← tallyCons]
  exact (List.perm_cons_erase member).countP_eq _

theorem tallyPos (member : (t,k) ∈ l) : 0 < tally k l := List.countP_pos_iff.mpr ⟨_,member,by simp⟩

theorem tallySome (some : 0 < tally k l) : ∃ t, (t,k) ∈ l := by
  obtain ⟨⟨t,j⟩,member,same⟩ := List.countP_pos_iff.mp some
  have same : j = k := by simpa using same
  exact ⟨t,same ▸ member⟩

theorem tallyLength (k : κ) (l : List (τ × κ)) : tally k l ≤ l.length := List.countP_le_length

end Tally
end TskSw.Tally
