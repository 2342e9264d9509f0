import TskSw.Interference
import Mathlib.Logic.Function.Basic

/-! Threads that come, make calls and go, and whose operations interleave. A call is cut into
pieces; within a free piece other threads run between any two operations, except between a
store and the look at the memory right before it. If each call is safe for an owner, and an
invariant ties the memory to what the threads own, the invariant holds in every state. -/
namespace TskSw.Interleaving
open BlockProgram Interference
open Function (update)

inductive Code (β δ ε κ ρ : Type) : Type 1 where
  | done (r : ρ)
  | free {α : Type} (p : Prog β δ ε κ α) (next : α → Code β δ ε κ ρ)
  | atomic {α : Type} (p : Prog β δ ε κ α) (next : α → Code β δ ε κ ρ)

variable {β δ ε κ ρ τ χ γ : Type}

section Code

def Code.whole : Code β δ ε κ ρ → Prog β δ ε κ ρ
  | .done r => pure r
  | .free p next | .atomic p next => p >>= fun a => (next a).whole

def alone {α : Type} : Prog β δ ε κ α → κ → Option (α × κ)
  | .ret a,k => some (a,k)
  | .get next,k => alone (next k) k
  | .put m next,_ => alone next m
  | _,_ => none

theorem aloneMemory {α : Type} {f : κ → Prog β δ ε κ α} {k} : alone (memory >>= f) k = alone (f k) k := rfl

inductive Move (enter : κ → κ) : Code β δ ε κ ρ → κ → Code β δ ε κ ρ → κ → Prop where
  | look {α : Type} {get : κ → Prog β δ ε κ α} {next : α → Code β δ ε κ ρ} {k : κ} (only : ∀ m p, get (enter k) ≠ .put m p) :
      Move enter (.free (.get get) next) k (.free (get (enter k)) next) k
  | change {α : Type} {get : κ → Prog β δ ε κ α} {next : α → Code β δ ε κ ρ} {k m : κ} {p : Prog β δ ε κ α}
    (store : get (enter k) = .put m p) :
      Move enter (.free (.get get) next) k (.free p next) m
  | read {α : Type} {b : β} {p : Prog β δ ε κ α} {next : α → Code β δ ε κ ρ} {k : κ} : Move enter (.free (.read b p) next) k
    (.free p next) k
  | data {α : Type} {b : β} {p : δ → Prog β δ ε κ α} {next : α → Code β δ ε κ ρ} {k : κ} (d : δ) : Move enter
    (.free (.data b p) next) k (.free (p d) next) k
  | set {α : Type} {b : β} {d : δ} {p : Prog β δ ε κ α} {next : α → Code β δ ε κ ρ} {k : κ} : Move enter
    (.free (.set b d p) next) k (.free p next) k
  | write {α : Type} {b : β} {p : Prog β δ ε κ α} {next : α → Code β δ ε κ ρ} {k : κ} : Move enter (.free (.write b p) next) k
    (.free p next) k
  | release {α : Type} {b : β} {p : Prog β δ ε κ α} {next : α → Code β δ ε κ ρ} {k : κ} : Move enter (.free (.release b p) next) k
    (.free p next) k
  | piece {α : Type} {a : α} {next : α → Code β δ ε κ ρ} {k : κ} : Move enter (.free (.ret a) next) k (next a) k
  | atomic {α : Type} {p : Prog β δ ε κ α} {next : α → Code β δ ε κ ρ} {k m : κ} {a : α} (ran : alone p (enter k) = some (a,m)) :
      Move enter (.atomic p next) k (next a) m

end Code

section Pool

structure Setting (τ χ β δ ε κ ρ : Type) where
  code : χ → Code β δ ε κ ρ
  last : χ → Bool
  enter : τ → κ → κ
  born : τ → κ → κ
  leeway : κ → κ → Prop

inductive Phase (χ β δ ε κ ρ : Type) : Type 1 where
  | rest
  | inside (x : χ) (since : κ) (code : Code β δ ε κ ρ)

structure Pool (τ χ β δ ε κ ρ : Type) : Type 1 where
  mem : κ
  phase : τ → Option (Phase χ β δ ε κ ρ)

def Pool.withPhase [DecidableEq τ] (p : Pool τ χ β δ ε κ ρ) (t : τ) (m : κ)
    (a : Option (Phase χ β δ ε κ ρ)) : Pool τ χ β δ ε κ ρ :=
  ⟨m,update p.phase t a⟩

variable [DecidableEq τ]

inductive Step (S : Setting τ χ β δ ε κ ρ) (p : Pool τ χ β δ ε κ ρ) : Pool τ χ β δ ε κ ρ → Prop where
  | birth (t : τ) (none : p.phase t = .none) : Step S p (p.withPhase t (S.born t p.mem) (some .rest))
  | call (t : τ) (x : χ) (rest : p.phase t = some .rest) : Step S p (p.withPhase t p.mem (some (.inside x p.mem (S.code x))))
  | move (t : τ) {x : χ} {since m : κ} {c c' : Code β δ ε κ ρ} (here : p.phase t = some (.inside x since c))
      (moves : Move (S.enter t) c p.mem c' m) : Step S p (p.withPhase t m (some (.inside x since c')))
  | back (t : τ) {x : χ} {since : κ} {r : ρ} (here : p.phase t = some (.inside x since (.done r))) :
      Step S p (p.withPhase t p.mem (if S.last x then .none else some .rest))
  | other {m : κ} (leeway : S.leeway p.mem m) : Step S p ⟨m,p.phase⟩

inductive Reached (S : Setting τ χ β δ ε κ ρ) (start : Pool τ χ β δ ε κ ρ) : Pool τ χ β δ ε κ ρ → Prop where
  | start : Reached S start start
  | step {p q : Pool τ χ β δ ε κ ρ} (before : Reached S start p) (next : Step S p q) : Reached S start q

end Pool

section Owners
variable (D : Discipline β κ γ)

def SafeCode : Code β δ ε κ ρ → γ → (γ → ρ → Prop) → Prop
  | .done r,own,R => R own r
  | .free p next,own,R => ∃ v : View κ γ, v.own = own ∧ Safe D p v (fun u a => SafeCode (next a) u.own R)
  | .atomic p next,own,R => ∀ k, D.sees k own → ∀ a m, alone p k = some (a,m) → ∃ own', D.store k m own own' ∧ SafeCode (next a) own' R

variable {D} {α : Type} [Inhabited κ] {own : γ} {R : γ → ρ → Prop} {next : α → Code β δ ε κ ρ}

theorem safeFree {p mid} (first : Leaves D p own mid) (rest : ∀ a, SafeCode D (next a) (mid a) R) :
    SafeCode D (.free p next) own R := by
  refine ⟨⟨default,false,own⟩,rfl,safePost (fun u a left => ?_) (first.safe _ rfl)⟩
  rw [left]
  exact rest a

theorem safeLook {f : κ → Prog β δ ε κ α} (rest : ∀ k, D.sees k own →
    Safe D (f k) ⟨k,true,own⟩ (fun u a => SafeCode D (next a) u.own R)) :
    SafeCode D (.free (memory >>= f) next) own R := ⟨⟨default,false,own⟩,rfl,fun k sees _ => rest k sees⟩

theorem safeChange {g : κ → κ} {next : Unit → Code β δ ε κ ρ}
    (rest : ∀ k, D.sees k own → ∃ own', D.store k (g k) own own' ∧ SafeCode D (next ()) own' R) :
    SafeCode D (.free (memory >>= fun k => setMemory (g k)) next) own R := by
  refine safeLook fun k sees => ?_
  obtain ⟨own',store,after⟩ := rest k sees
  exact ⟨rfl,own',store,after⟩

end Owners

section Rule
variable [DecidableEq τ]

structure Account (S : Setting τ χ β δ ε κ ρ) (D : Discipline β κ γ) where
  inv : κ → (τ → Option γ) → Prop
  rest : γ → Prop
  fresh : τ → γ
  after : χ → γ → γ → ρ → Prop

structure Lawful {S : Setting τ χ β δ ε κ ρ} {D : Discipline β κ γ} (A : Account S D) : Prop where
  loose : ¬ D.whole
  sees : ∀ {k owns t own}, A.inv k owns → owns t = some own → D.sees (S.enter t k) own
  store : ∀ {k m owns t own own'}, A.inv k owns → owns t = some own → D.store (S.enter t k) m own own' → A.inv m (update owns t (some own'))
  take : ∀ {k owns t own} (b : β), A.inv k owns → owns t = some own → A.inv k (update owns t (some (D.take b own)))
  give : ∀ {k owns t own own'} (b : β), A.inv k owns → owns t = some own → D.give b own own' → A.inv k (update owns t (some own'))
  birth : ∀ {k owns t}, A.inv k owns → owns t = none → A.inv (S.born t k) (update owns t (some (A.fresh t)))
  newborn : ∀ t, A.rest (A.fresh t)
  leeway : ∀ {k m owns}, A.inv k owns → S.leeway k m → A.inv m owns
  safe : ∀ x own, A.rest own → SafeCode D (S.code x) own (A.after x own)
  back : ∀ {x before own r}, A.after x before own r → A.rest own
  gone : ∀ {k owns t x before own r}, A.inv k owns → owns t = some own → A.after x before own r → S.last x = true →
    A.inv k (update owns t none)

variable {S : Setting τ χ β δ ε κ ρ} {D : Discipline β κ γ} {A : Account S D}

def Stands (A : Account S D) (t : τ) : Option (Phase χ β δ ε κ ρ) → Option γ → Prop
  | none,o => o = none
  | some .rest,o => ∃ own, o = some own ∧ A.rest own
  | some (.inside x since c),o =>
    ∃ before own, o = some own ∧ A.rest before ∧ D.sees (S.enter t since) before ∧ SafeCode D c own (A.after x before)

def Good (A : Account S D) (p : Pool τ χ β δ ε κ ρ) : Prop := ∃ owns, A.inv p.mem owns ∧ ∀ t, Stands A t (p.phase t) (owns t)

theorem moveSafe (h : Lawful A) {k m : κ} {owns : τ → Option γ} {t : τ} {own : γ} {c c' : Code β δ ε κ ρ} {R : γ → ρ → Prop}
    (inv : A.inv k owns)
    (here : owns t = some own) (safe : SafeCode D c own R) (moves : Move (S.enter t) c k c' m) :
    ∃ own', A.inv m (update owns t (some own')) ∧ SafeCode D c' own' R := by
  have same : A.inv k (update owns t (some own)) := by rw [← here,Function.update_eq_self]; exact inv
  have sees := h.sees inv here
  cases moves with
  | look only =>
    obtain ⟨v,rfl,rest⟩ := safe
    exact ⟨v.own,same,⟨S.enter t k,true,v.own⟩,rfl,rest _ sees fun whole => absurd whole h.loose⟩
  | change store =>
    obtain ⟨v,rfl,rest⟩ := safe
    have put := rest _ sees fun whole => absurd whole h.loose
    rw [store] at put
    obtain ⟨_,own',books,rest⟩ := put
    exact ⟨own',h.store inv here books,_,rfl,rest⟩
  | @read _ b =>
    obtain ⟨v,rfl,rest⟩ := safe
    exact ⟨_,h.take b inv here,_,rfl,rest⟩
  | data d =>
    obtain ⟨v,rfl,rest⟩ := safe
    exact ⟨v.own,same,⟨v.mem,false,v.own⟩,rfl,rest d⟩
  | set | write =>
    obtain ⟨v,rfl,rest⟩ := safe
    exact ⟨v.own,same,⟨v.mem,false,v.own⟩,rfl,rest⟩
  | @release _ b =>
    obtain ⟨v,rfl,own',give,rest⟩ := safe
    exact ⟨own',h.give b inv here give,_,rfl,rest⟩
  | piece =>
    obtain ⟨v,rfl,rest⟩ := safe
    exact ⟨_,same,rest⟩
  | atomic ran =>
    obtain ⟨own',books,rest⟩ := safe _ sees _ _ ran
    exact ⟨own',h.store inv here books,rest⟩

theorem standsUpdate {p : Pool τ χ β δ ε κ ρ} {owns : τ → Option γ} (others : ∀ t, Stands A t (p.phase t) (owns t)) {t m a o}
    (stands : Stands A t a o) (u : τ) :
    Stands A u ((p.withPhase t m a).phase u) (update owns t o u) := by
  by_cases here : u = t
  · subst here
    simpa [Pool.withPhase] using stands
  · simpa [Pool.withPhase,here] using others u

theorem stepGood (h : Lawful A) {p q : Pool τ χ β δ ε κ ρ} (good : Good A p) (next : Step S p q) : Good A q := by
  obtain ⟨owns,inv,stands⟩ := good
  cases next with
  | birth t none =>
    have unborn := stands t
    rw [none] at unborn
    exact ⟨_,h.birth inv unborn,standsUpdate stands ⟨A.fresh t,rfl,h.newborn t⟩⟩
  | call t x rest =>
    have here := stands t
    rw [rest] at here
    obtain ⟨own,owned,resting⟩ := here
    have same : A.inv p.mem (update owns t (some own)) := by rw [← owned,Function.update_eq_self]; exact inv
    exact ⟨_,same,standsUpdate stands ⟨own,own,rfl,resting,h.sees inv owned,h.safe x own resting⟩⟩
  | move t here moves =>
    have stood := stands t
    rw [here] at stood
    obtain ⟨before,own,owned,rested,saw,safe⟩ := stood
    obtain ⟨own',inv',safe'⟩ := moveSafe h inv owned safe moves
    exact ⟨_,inv',standsUpdate stands ⟨before,own',rfl,rested,saw,safe'⟩⟩
  | @back t x since r here =>
    have stood := stands t
    rw [here] at stood
    obtain ⟨before,own,owned,_,_,done⟩ := stood
    cases last : S.last x with
    | true => exact ⟨_,h.gone inv owned done last,standsUpdate stands rfl⟩
    | false =>
      have same : A.inv p.mem (update owns t (some own)) := by rw [← owned,Function.update_eq_self]; exact inv
      exact ⟨_,same,standsUpdate stands ⟨own,rfl,h.back done⟩⟩
  | other leeway => exact ⟨owns,h.leeway inv leeway,stands⟩

theorem reachedGood (h : Lawful A) {start p} (begins : Good A start) (reached : Reached S start p) : Good A p := by
  induction reached with
  | start => exact begins
  | step before next ih => exact stepGood h ih next

end Rule

end TskSw.Interleaving
