import Mathlib.Data.List.Perm.Subperm
import Mathlib.Logic.Function.Basic

/-! Tables that point to tables: a radix tree of fixed depth whose nodes are taken from a
heap of fresh tables. `node` says which table stands at which path, `leaf` what the last
level holds. A walk by the entries alone finds the leaf of its path. Nothing here is
particular to one machine or program. -/
namespace TskSw.RadixTable
open Function (update update_of_ne update_self)

structure Coding (A E : Type) where
  present : E → Bool
  next : E → A
  entry : A → E
  empty : E

variable {A I E : Type}

structure Coding.Keeps (c : Coding A E) (valid : A → Prop) : Prop where
  empty : c.present c.empty = false
  present : ∀ {a}, valid a → c.present (c.entry a) = true
  next : ∀ {a}, valid a → c.next (c.entry a) = a

def walk (c : Coding A E) (t : A → I → E) (p : A) : List I → E
  | [] => c.empty
  | [i] => t p i
  | i :: j :: rest => if c.present (t p i) then walk c t (c.next (t p i)) (j :: rest) else t p i

section
variable [DecidableEq A]

def clear (t : A → I → E) (p : A) (e : E) : A → I → E := fun q j => if q = p then e else t q j

@[simp] theorem clearSame (t : A → I → E) (p : A) (e : E) (i : I) : clear t p e p i = e := if_pos rfl

theorem clearTable {t : A → I → E} {p q e i} (other : q ≠ p) : clear t p e q i = t q i := if_neg other

variable [DecidableEq I]

def put (t : A → I → E) (p : A) (i : I) (e : E) : A → I → E := fun q j => if q = p ∧ j = i then e else t q j

@[simp] theorem putSame (t : A → I → E) (p : A) (i : I) (e : E) : put t p i e p i = e := if_pos ⟨rfl,rfl⟩

theorem putTable {t : A → I → E} {p q : A} {i j : I} {e : E} (other : q ≠ p) : put t p i e q j = t q j :=
  if_neg (fun both => other both.1)

theorem putIndex {t : A → I → E} {p q : A} {i j : I} {e : E} (other : j ≠ i) : put t p i e q j = t q j :=
  if_neg (fun both => other both.2)
end

structure Tree (c : Coding A E) (valid : A → Prop) (depth : Nat) (root : A) (t : A → I → E)
    (node : List I → Option A) (leaf : List I → E) : Prop where
  root : node [] = some root
  only : ∀ {π ρ p}, node π = some p → node ρ = some p → π = ρ
  closed : ∀ {π} i, node π = none → node (π ++ [i]) = none
  blank : ∀ {π p} i, node π = some p → π.length < depth → node (π ++ [i]) = none → c.present (t p i) = false
  edge : ∀ {π p i q}, node π = some p → π.length < depth → node (π ++ [i]) = some q → t p i = c.entry q ∧ valid q
  last : ∀ {π p} i, node π = some p → π.length = depth → t p i = leaf (π ++ [i])
  missing : ∀ {π} i, node π = none → π.length = depth → leaf (π ++ [i]) = c.empty

variable {c : Coding A E} {valid : A → Prop} {depth : Nat} {root : A} {t : A → I → E} {node : List I → Option A}
  {leaf : List I → E}

namespace Tree

theorem below (tree : Tree c valid depth root t node leaf) {π} (gone : node π = none) (rest : List I) :
    node (π ++ rest) = none := by
  induction rest generalizing π with
  | nil => rwa [List.append_nil]
  | cons i rest ih =>
    have step := ih (tree.closed i gone)
    rwa [List.append_assoc] at step

theorem above (tree : Tree c valid depth root t node leaf) {π : List I} {i : I} {q : A} (down : node (π ++ [i]) = some q) :
    ∃ p, node π = some p := by
  cases found : node π with
  | none =>
    rw [tree.closed i found] at down
    cases down
  | some p => exact ⟨p,rfl⟩

theorem walked (tree : Tree c valid depth root t node leaf) (keeps : c.Keeps valid) {π rest : List I} {p : A}
    (here : node π = some p) (length : π.length + rest.length = depth + 1) :
    walk c t p rest = leaf (π ++ rest) ∨ (c.present (walk c t p rest) = false ∧ leaf (π ++ rest) = c.empty) ∨ rest = [] := by
  induction rest generalizing π p with
  | nil => exact .inr (.inr rfl)
  | cons i rest ih =>
    cases rest with
    | nil => exact .inl (tree.last i here (by simpa using length))
    | cons j rest =>
      have inside : π.length < depth := by
        simp only [List.length_cons] at length
        omega
      cases down : node (π ++ [i]) with
      | some q =>
        obtain ⟨entry,ok⟩ := tree.edge here inside down
        have step : walk c t p (i :: j :: rest) = walk c t q (j :: rest) := by
          rw [walk,entry,if_pos (keeps.present ok),keeps.next ok]
        have path : π ++ (i :: j :: rest) = (π ++ [i]) ++ (j :: rest) := by simp
        rw [step,path]
        rcases ih down (by simpa [Nat.add_assoc,Nat.add_comm 1] using length) with found | absent | none
        · exact .inl found
        · exact .inr (.inl absent)
        · cases none
      | none =>
        have stop := tree.blank i here inside down
        have step : walk c t p (i :: j :: rest) = t p i := by rw [walk,if_neg (by simp [stop])]
        refine .inr (.inl ⟨step ▸ stop,?_⟩)
        obtain ⟨init,k,split⟩ : ∃ init k, j :: rest = init ++ [k] :=
          ⟨(j :: rest).dropLast,(j :: rest).getLast (by simp),(List.dropLast_append_getLast _).symm⟩
        have path : π ++ (i :: j :: rest) = (π ++ [i] ++ init) ++ [k] := by simp [split]
        rw [path]
        apply tree.missing k (tree.below down init)
        have count := congrArg List.length split
        simp only [List.length_cons,List.length_append,List.length_nil] at count length ⊢
        omega

variable [DecidableEq A] [DecidableEq I]

omit [DecidableEq A] in
theorem updateSome {π ρ q r} (found : update node π (some q) ρ = some r) :
    (ρ = π ∧ r = q) ∨ (ρ ≠ π ∧ node ρ = some r) := by
  by_cases same : ρ = π
  · rw [same,update_self] at found
    exact .inl ⟨same,(Option.some.inj found).symm⟩
  · rw [update_of_ne same] at found
    exact .inr ⟨same,found⟩

omit [DecidableEq A] in
theorem updateNone {π ρ : List I} {q : A} (found : update node π (some q) ρ = none) : ρ ≠ π ∧ node ρ = none := by
  by_cases same : ρ = π
  · rw [same,update_self] at found
    cases found
  · rw [update_of_ne same] at found
    exact ⟨same,found⟩

theorem linkedBlank {p q : A} (apart : p ≠ q) (i j : I) : put (clear t q c.empty) p i (c.entry q) q j = c.empty := by
  rw [putTable apart.symm,clearSame]

theorem linkedKept (tree : Tree c valid depth root t node leaf) {π ρ : List I} {p q r : A} {i : I} (j : I) (here : node π = some p)
    (found : node ρ = some r) (apart : r ≠ q) (other : ρ ++ [j] ≠ π ++ [i]) : put (clear t q c.empty) p i (c.entry q) r j = t r j := by
  by_cases path : ρ = π
  · rw [putIndex (fun index => other (by rw [path,index])),clearTable apart]
  · rw [putTable (fun same : r = p => path (tree.only found (same ▸ here))),clearTable apart]

theorem grow (tree : Tree c valid depth root t node leaf) (keeps : c.Keeps valid) {π : List I} {p q : A} {i : I}
    (here : node π = some p) (inside : π.length < depth) (gone : node (π ++ [i]) = none)
    (fresh : ∀ ρ, node ρ ≠ some q) (ok : valid q) :
    Tree c valid depth root (put (clear t q c.empty) p i (c.entry q)) (update node (π ++ [i]) (some q)) leaf := by
  have apart : ∀ {ρ r}, node ρ = some r → r ≠ q := fun found same => fresh _ (same ▸ found)
  constructor
  · rw [update_of_ne (by simp)]
    exact tree.root
  · intro ρ σ r one two
    rcases updateSome one with ⟨rfl,rfl⟩ | ⟨_,one⟩ <;> rcases updateSome two with ⟨rfl,same⟩ | ⟨_,two⟩
    · rfl
    · exact absurd two (fresh σ)
    · exact absurd same (apart one)
    · exact tree.only one two
  · intro ρ j found
    have none := (updateNone found).2
    have next : ρ ++ [j] ≠ π ++ [i] := by
      intro same
      rw [List.append_inj_left' same rfl,here] at none
      cases none
    rw [update_of_ne next]
    exact tree.closed j none
  · intro ρ r j found short down
    obtain ⟨other,none⟩ := updateNone down
    rcases updateSome found with ⟨rfl,rfl⟩ | ⟨_,found⟩
    · rw [linkedBlank (apart here)]
      exact keeps.empty
    · rw [linkedKept tree j here found (apart found) other]
      exact tree.blank j found short none
  · intro ρ r j s found short down
    rcases updateSome found with ⟨rfl,rfl⟩ | ⟨_,old⟩
    · rcases updateSome down with ⟨same,_⟩ | ⟨_,down⟩
      · have := congrArg List.length same
        simp at this
      · rw [tree.closed j gone] at down
        cases down
    · rcases updateSome down with ⟨same,rfl⟩ | ⟨other,down⟩
      · obtain ⟨rfl,index⟩ := List.append_inj' same rfl
        cases Option.some.inj (old.symm.trans here)
        rw [List.singleton_inj.mp index,putSame]
        exact ⟨rfl,ok⟩
      · rw [linkedKept tree j here old (apart old) other]
        exact tree.edge old short down
  · intro ρ r j found full
    rcases updateSome found with ⟨rfl,rfl⟩ | ⟨_,old⟩
    · rw [linkedBlank (apart here),tree.missing j gone full]
    · have other : ρ ++ [j] ≠ π ++ [i] := by
        intro same
        rw [List.append_inj_left' same rfl] at full
        omega
      rw [linkedKept tree j here old (apart old) other]
      exact tree.last j old full
  · intro ρ j found full
    exact tree.missing j (updateNone found).2 full

theorem setLeaf (tree : Tree c valid depth root t node leaf) {π p} (i : I) (e : E) (here : node π = some p)
    (full : π.length = depth) : Tree c valid depth root (put t p i e) node (update leaf (π ++ [i]) e) := by
  have kept : ∀ {ρ r} j, node ρ = .some r → ρ.length < depth → put t p i e r j = t r j := by
    intro ρ r j found short
    exact putTable (fun same => by
      have path := tree.only found (same ▸ here)
      rw [path] at short
      omega)
  refine ⟨tree.root,tree.only,tree.closed,?_,?_,?_,?_⟩
  · intro ρ r j found short gone
    rw [kept j found short]
    exact tree.blank j found short gone
  · intro ρ r j s found short down
    rw [kept j found short]
    exact tree.edge found short down
  · intro ρ r j found same
    by_cases target : ρ ++ [j] = π ++ [i]
    · obtain ⟨rfl,index⟩ := List.append_inj' target rfl
      cases Option.some.inj (found.symm.trans here)
      rw [List.singleton_inj.mp index,putSame,update_self]
    · rw [update_of_ne target,← tree.last j found same]
      by_cases path : ρ = π
      · exact putIndex (fun index => target (by rw [path,index]))
      · exact putTable (fun table => path (tree.only found (table ▸ here)))
  · intro ρ j found same
    have target : ρ ++ [j] ≠ π ++ [i] := by
      intro target
      rw [List.append_inj_left' target rfl,here] at found
      cases found
    rw [update_of_ne target]
    exact tree.missing j found same

end Tree

structure Supply (valid : A → Prop) (node : List I → Option A) (heap : List A) (used : List (List I)) (size : Nat) : Prop where
  apart : heap.Nodup
  fresh : ∀ q ∈ heap, valid q ∧ ∀ π, node π ≠ some q
  distinct : used.Nodup
  given : ∀ π, node π ≠ none ↔ π = [] ∨ π ∈ used
  total : used.length + heap.length = size

namespace Supply

variable {heap : List A} {used : List (List I)} {size : Nat}

theorem room (supply : Supply valid node heap used size) {π} (gone : node π = none)
    {needs : List (List I)} (asked : ∀ ρ ∈ used, ρ ∈ needs) (here : π ∈ needs) (enough : needs.length ≤ size) :
    heap ≠ [] := by
  intro empty
  have new : π ∉ used := fun old => (supply.given π).mpr (.inr old) gone
  have nodup : (π :: used).Nodup := List.nodup_cons.mpr ⟨new,supply.distinct⟩
  have within : ∀ ρ ∈ π :: used, ρ ∈ needs := by
    intro ρ member
    rcases List.mem_cons.mp member with rfl | old
    · exact here
    · exact asked ρ old
  have count := (List.subperm_of_subset nodup within).length_le
  have total := supply.total
  rw [empty,List.length_nil] at total
  rw [List.length_cons] at count
  omega

variable [DecidableEq I]

theorem take {q} (supply : Supply valid node (q :: heap) used size) {π} (gone : node π = none) :
    Supply valid (update node π (some q)) heap (π :: used) size := by
  obtain ⟨first,rest⟩ := List.nodup_cons.mp supply.apart
  refine ⟨rest,?_,?_,?_,?_⟩
  · intro r member
    obtain ⟨ok,none⟩ := supply.fresh r (List.mem_cons_of_mem q member)
    refine ⟨ok,?_⟩
    intro ρ found
    rcases Tree.updateSome found with ⟨_,rfl⟩ | ⟨_,old⟩
    · exact first member
    · exact none ρ old
  · exact List.nodup_cons.mpr ⟨fun old => (supply.given π).mpr (.inr old) gone,supply.distinct⟩
  · intro ρ
    by_cases same : ρ = π
    · rw [same,update_self]
      simp
    · rw [update_of_ne same,supply.given,List.mem_cons]
      simp [same]
  · have total := supply.total
    rw [List.length_cons] at total ⊢
    omega

end Supply

end TskSw.RadixTable
