import Mathlib.Logic.Function.Basic

/-! Threads on one processor that switch only where their programs say so, with a logic for
them: an invariant that holds at every switch, and for each thread a relation that the stores
of the others keep while it does not run. Loops and recursion go through procedures. -/
namespace TskSw.Coroutines
open Function (update update_of_ne update_self)

inductive Co (σ P ρ χ ε α : Type) where
  | done (a : α)
  | get (k : σ → Co σ P ρ χ ε α)
  | set (s : σ) (k : Co σ P ρ χ ε α)
  | yield (k : Co σ P ρ χ ε α)
  | call (p : P) (k : ρ → Co σ P ρ χ ε α)
  | choose (k : χ → Co σ P ρ χ ε α)
  | fail (e : ε)

variable {σ P ρ χ ε α β τ : Type}

section Programs

def Co.bind : Co σ P ρ χ ε α → (α → Co σ P ρ χ ε β) → Co σ P ρ χ ε β
  | .done a,f => f a
  | .get k,f => .get fun s => (k s).bind f
  | .set s k,f => .set s (k.bind f)
  | .yield k,f => .yield (k.bind f)
  | .call p k,f => .call p fun r => (k r).bind f
  | .choose k,f => .choose fun c => (k c).bind f
  | .fail e,_ => .fail e

instance : Monad (Co σ P ρ χ ε) where
  pure := .done
  bind := Co.bind

def read : Co σ P ρ χ ε σ := .get .done

def run (f : σ → Except ε σ) : Co σ P ρ χ ε Unit :=
  .get fun s =>
    match f s with
    | .ok s' => .set s' (.done ())
    | .error e => .fail e

def switch : Co σ P ρ χ ε Unit := .yield (.done ())
def invoke (p : P) : Co σ P ρ χ ε ρ := .call p .done
def pick : Co σ P ρ χ ε χ := .choose .done

end Programs

structure System (τ σ P ρ χ ε : Type) where
  body : P → Co σ P ρ χ ε ρ
  current : σ → τ

structure Machine (τ σ P ρ χ ε : Type) where
  shared : σ
  running : τ
  prog : τ → Co σ P ρ χ ε Unit

section Execution
variable [DecidableEq τ]

def Machine.goOn (m : Machine τ σ P ρ χ ε) (x : Co σ P ρ χ ε Unit) : Machine τ σ P ρ χ ε :=
  {m with prog := update m.prog m.running x}

def System.step (y : System τ σ P ρ χ ε) (c : χ) (m : Machine τ σ P ρ χ ε) : Except ε (Machine τ σ P ρ χ ε) :=
  match m.prog m.running with
  | .done _ => .ok m
  | .get k => .ok (m.goOn (k m.shared))
  | .set s k => .ok {m.goOn k with shared := s}
  | .yield k => .ok {m.goOn k with running := y.current m.shared}
  | .call p k => .ok (m.goOn ((y.body p).bind k))
  | .choose k => .ok (m.goOn (k c))
  | .fail e => .error e

inductive System.Reached (y : System τ σ P ρ χ ε) (start : Machine τ σ P ρ χ ε) : Machine τ σ P ρ χ ε → Prop where
  | start : y.Reached start start
  | step {c : χ} {m m' : Machine τ σ P ρ χ ε} (before : y.Reached start m) (next : y.step c m = .ok m') : y.Reached start m'

def System.play (y : System τ σ P ρ χ ε) : List χ → Machine τ σ P ρ χ ε → Except ε (Machine τ σ P ρ χ ε)
  | [],m => .ok m
  | c :: cs,m => do
      let m ← y.step c m
      y.play cs m

theorem playReached {y : System τ σ P ρ χ ε} {start m m' : Machine τ σ P ρ χ ε} {cs : List χ} (before : y.Reached start m)
    (ran : y.play cs m = .ok m') : y.Reached start m' := by
  induction cs generalizing m with
  | nil =>
    cases ran
    exact before
  | cons c cs ih =>
    simp only [System.play] at ran
    cases next : y.step c m with
    | error e =>
      rw [next] at ran
      cases ran
    | ok m₁ =>
      rw [next] at ran
      exact ih (.step before next) ran

theorem played {y : System τ σ P ρ χ ε} {start : Machine τ σ P ρ χ ε} {cs : List χ} {α : Type} {view : Machine τ σ P ρ χ ε → α}
    {a : α}
    (ran : (y.play cs start).toOption.map view = some a) : ∃ m, y.Reached start m ∧ view m = a := by
  cases ended : y.play cs start with
  | error e =>
    rw [ended] at ran
    cases ran
  | ok m =>
    rw [ended] at ran
    exact ⟨m,playReached .start ended,Option.some.inj ran⟩

def Machine.switching (m : Machine τ σ P ρ χ ε) : Bool :=
  match m.prog m.running with
  | .yield _ => true
  | _ => false

end Execution

structure Logic (τ σ P ρ ε : Type) where
  inv : σ → Prop
  rely : τ → σ → σ → Prop
  refl : ∀ t s, rely t s s
  trans : ∀ t s s' s'', rely t s s' → rely t s' s'' → rely t s s''
  pre : τ → P → σ → Prop
  post : τ → P → σ → ρ → σ → Prop
  faults : ε → Prop

section Rules
variable {L : Logic τ σ P ρ ε} {current : σ → τ} {t : τ} {s : σ} {Q Q' : α → σ → Prop}

def wp (L : Logic τ σ P ρ ε) (current : σ → τ) (t : τ) : Co σ P ρ χ ε α → (α → σ → Prop) → σ → Prop
  | .done a,Q,s => Q a s
  | .get k,Q,s => wp L current t (k s) Q s
  | .set s' k,Q,s => (∀ u, u ≠ t → L.rely u s s') ∧ wp L current t k Q s'
  | .yield k,Q,s => L.inv s ∧ ∀ s', L.inv s' → L.rely t s s' → current s' = t → wp L current t k Q s'
  | .call p k,Q,s => L.pre t p s ∧ ∀ r s', L.post t p s r s' → wp L current t (k r) Q s'
  | .choose k,Q,s => ∀ c, wp L current t (k c) Q s
  | .fail e,_,_ => L.faults e

theorem wpMono {x : Co σ P ρ χ ε α} (h : wp L current t x Q s) (weaker : ∀ a s, Q a s → Q' a s) : wp L current t x Q' s := by
  induction x generalizing s with
  | done a => exact weaker a s h
  | get k ih => exact ih s h
  | set s' k ih => exact ⟨h.1,ih h.2⟩
  | yield k ih => exact ⟨h.1,fun s' inv rely here => ih (h.2 s' inv rely here)⟩
  | call p k ih => exact ⟨h.1,fun r s' post => ih r (h.2 r s' post)⟩
  | choose k ih => exact fun c => ih c (h c)
  | fail e => exact h

theorem wpBind {x : Co σ P ρ χ ε α} {f : α → Co σ P ρ χ ε β} {Q : β → σ → Prop}
    (h : wp L current t x (fun a => wp L current t (f a) Q) s) :
    wp L current t (x >>= f) Q s := by
  show wp L current t (x.bind f) Q s
  induction x generalizing s with
  | done a => exact h
  | get k ih => exact ih s h
  | set s' k ih => exact ⟨h.1,ih h.2⟩
  | yield k ih => exact ⟨h.1,fun s' inv rely here => ih (h.2 s' inv rely here)⟩
  | call p k ih => exact ⟨h.1,fun r s' post => ih r (h.2 r s' post)⟩
  | choose k ih => exact fun c => ih c (h c)
  | fail e => exact h

theorem wpSeq {x : Co σ P ρ χ ε α} {f : α → Co σ P ρ χ ε β} {Q' : β → σ → Prop} (h : wp L current t x Q s)
    (next : ∀ a s, Q a s → wp L current t (f a) Q' s) : wp L current t (x >>= f) Q' s := wpBind (wpMono h next)

theorem wpIf {c : Prop} [Decidable c] {x y : Co σ P ρ χ ε α} (pos : c → wp L current t x Q s) (neg : ¬ c → wp L current t y Q s) :
    wp L current t (if c then x else y) Q s := by
  split
  · exact pos (by assumption)
  · exact neg (by assumption)

theorem wpRead {f : σ → Co σ P ρ χ ε α} (h : wp L current t (f s) Q s) : wp L current t (read >>= f) Q s := h

theorem wpPick {f : χ → Co σ P ρ χ ε α} (h : ∀ c, wp L current t (f c) Q s) : wp L current t (pick >>= f) Q s := h

theorem wpInvoke {p : P} {Q : ρ → σ → Prop} (pre : L.pre t p s) (post : ∀ r s', L.post t p s r s' → Q r s') :
    wp (χ := χ) (ε := ε) L current t (invoke p) Q s := ⟨pre,post⟩

theorem wpRun {g : σ → Except ε σ} {Q : Unit → σ → Prop} (ok : ∀ s', g s = .ok s' → (∀ u, u ≠ t → L.rely u s s') ∧ Q () s')
    (error : ∀ e, g s = .error e → L.faults e) : wp (χ := χ) L current t (run g) Q s := by
  show wp (χ := χ) L current t (match g s with | .ok s' => .set s' (.done ()) | .error e => .fail e) Q s
  cases ran : g s with
  | ok s' => exact ok s' ran
  | error e => exact error e ran

theorem wpRunOk {g : σ → Except ε σ} {s' : σ} {Q : Unit → σ → Prop} (ran : g s = .ok s') (rely : ∀ u, u ≠ t → L.rely u s s')
    (h : Q () s') :
    wp (χ := χ) L current t (run g) Q s := by
  refine wpRun (fun s'' again => ?_) fun e failed => ?_
  · cases ran.symm.trans again
    exact ⟨rely,h⟩
  · cases ran.symm.trans failed

end Rules

section Soundness
variable {L : Logic τ σ P ρ ε} {y : System τ σ P ρ χ ε} {m m' start : Machine τ σ P ρ χ ε}

def Waits (L : Logic τ σ P ρ ε) (current : σ → τ) (t : τ) (x : Co σ P ρ χ ε Unit) (s : σ) : Prop :=
  ∀ s', L.inv s' → L.rely t s s' → current s' = t → wp L current t x (fun _ _ => True) s'

def Sound (L : Logic τ σ P ρ ε) (y : System τ σ P ρ χ ε) : Prop :=
  ∀ t p s, L.pre t p s → wp L y.current t (y.body p) (L.post t p s) s

structure Good (L : Logic τ σ P ρ ε) (y : System τ σ P ρ χ ε) (m : Machine τ σ P ρ χ ε) : Prop where
  runs : wp L y.current m.running (m.prog m.running) (fun _ _ => True) m.shared
  waits : ∀ u, u ≠ m.running → Waits L y.current u (m.prog u) m.shared

variable [DecidableEq τ]

theorem goOnGood (good : Good L y m) {x : Co σ P ρ χ ε Unit} (runs : wp L y.current m.running x (fun _ _ => True) m.shared) :
    Good L y (m.goOn x) := by
  refine ⟨?_,fun u (other : u ≠ m.running) => ?_⟩
  · show wp L y.current m.running (update m.prog m.running x m.running) _ m.shared
    rwa [update_self]
  · show Waits L y.current u (update m.prog m.running x u) m.shared
    rw [update_of_ne other]
    exact good.waits u other

theorem stepGood (sound : Sound L y) (good : Good L y m) {c : χ} (next : y.step c m = .ok m') : Good L y m' := by
  have runs := good.runs
  unfold System.step at next
  cases here : m.prog m.running <;> rw [here] at next runs
  case done a =>
    cases next
    exact good
  case get k =>
    cases next
    exact goOnGood good runs
  case set s k =>
    cases next
    refine ⟨?_,fun u (other : u ≠ m.running) => ?_⟩
    · show wp L y.current m.running (update m.prog m.running k m.running) _ s
      rw [update_self]
      exact runs.2
    · show Waits L y.current u (update m.prog m.running k u) s
      rw [update_of_ne other]
      exact fun s' inv rely => good.waits u other s' inv (L.trans u _ _ _ (runs.1 u other) rely)
  case yield k =>
    cases next
    have waits : ∀ u, Waits L y.current u (update m.prog m.running k u) m.shared := by
      intro u
      by_cases same : u = m.running
      · subst same
        rw [update_self]
        exact runs.2
      · rw [update_of_ne same]
        exact good.waits u same
    exact ⟨waits _ m.shared runs.1 (L.refl _ _) rfl,fun u _ => waits u⟩
  case call p k =>
    cases next
    exact goOnGood good (wpSeq (sound _ p _ runs.1) runs.2)
  case choose k =>
    cases next
    exact goOnGood good (runs c)
  case fail e => cases next

theorem reachedGood (sound : Sound L y) (begins : Good L y start) (run : y.Reached start m) : Good L y m := by
  induction run with
  | start => exact begins
  | step _ next ih => exact stepGood sound ih next

omit [DecidableEq τ] in
theorem switchInv (good : Good L y m) (switching : m.switching = true) : L.inv m.shared := by
  have runs := good.runs
  unfold Machine.switching at switching
  split at switching
  case h_1 k here =>
    rw [here] at runs
    exact runs.1
  case h_2 => cases switching

theorem stepFault (good : Good L y m) {c : χ} {e : ε} (failed : y.step c m = .error e) : L.faults e := by
  have runs := good.runs
  unfold System.step at failed
  cases here : m.prog m.running <;> rw [here] at failed runs
  case fail e' =>
    cases failed
    exact runs
  all_goals cases failed

end Soundness
end TskSw.Coroutines
