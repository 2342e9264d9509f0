import TskSw.Coroutines

/-! Threads whose stores also write notes. The notes never decide what a thread does, so a
system with notes runs as the system without them, and an observer who never gets the
processor sees every store. -/
namespace TskSw.Annotations
open Coroutines
open Function (update update_of_ne update_self)

variable {σ γ P ρ χ ε α β τ : Type} {m start : Machine τ σ P ρ χ ε} {y : System τ σ P ρ χ ε}

section Programs

def lift : Co σ P ρ χ ε α → Co (σ × γ) P ρ χ ε α
  | .done a => .done a
  | .get k => .get fun s => lift (k s.1)
  | .set s k => .get fun before => .set (s,before.2) (lift k)
  | .yield k => .yield (lift k)
  | .call p k => .call p fun r => lift (k r)
  | .choose k => .choose fun c => lift (k c)
  | .fail e => .fail e

def mark (f : σ → Except ε σ) (note : σ → γ → γ) : Co (σ × γ) P ρ χ ε Unit :=
  .get fun s =>
    match f s.1 with
    | .ok s' => .set (s',note s.1 s.2) (.done ())
    | .error e => .fail e

theorem liftBind {x : Co σ P ρ χ ε α} {f : α → Co σ P ρ χ ε β} :
    (lift (x >>= f) : Co (σ × γ) P ρ χ ε β) = lift x >>= fun a => lift (f a) := by
  show lift (x.bind f) = (lift x).bind fun a => lift (f a)
  induction x with
  | done a => rfl
  | get k ih => exact congrArg Co.get (funext fun s => ih s.1)
  | set s k ih => exact congrArg Co.get (funext fun before => congrArg (Co.set (s,before.2)) ih)
  | yield k ih => exact congrArg Co.yield ih
  | call p k ih => exact congrArg (Co.call p) (funext ih)
  | choose k ih => exact congrArg Co.choose (funext ih)
  | fail e => rfl

inductive Erases : Co (σ × γ) P ρ χ ε α → Co σ P ρ χ ε α → Prop where
  | done (a : α) : Erases (.done a) (.done a)
  | get {k' : σ × γ → Co (σ × γ) P ρ χ ε α} {k : σ → Co σ P ρ χ ε α} (rest : ∀ s, Erases (k' s) (k s.1)) : Erases (.get k')
    (.get k)
  | look {k' : σ × γ → Co (σ × γ) P ρ χ ε α} {x : Co σ P ρ χ ε α} (rest : ∀ s, Erases (k' s) x) : Erases (.get k') x
  | set {s : σ} {g : γ} {k' : Co (σ × γ) P ρ χ ε α} {k : Co σ P ρ χ ε α} (rest : Erases k' k) : Erases (.set (s,g) k') (.set s k)
  | yield {k' : Co (σ × γ) P ρ χ ε α} {k : Co σ P ρ χ ε α} (rest : Erases k' k) : Erases (.yield k') (.yield k)
  | call {p : P} {k' : ρ → Co (σ × γ) P ρ χ ε α} {k : ρ → Co σ P ρ χ ε α} (rest : ∀ r, Erases (k' r) (k r)) : Erases
    (.call p k') (.call p k)
  | choose {k' : χ → Co (σ × γ) P ρ χ ε α} {k : χ → Co σ P ρ χ ε α} (rest : ∀ c, Erases (k' c) (k c)) : Erases (.choose k')
    (.choose k)
  | fail (e : ε) : Erases (.fail e) (.fail e)

theorem erasesBind {x' : Co (σ × γ) P ρ χ ε α} {x : Co σ P ρ χ ε α} {f' : α → Co (σ × γ) P ρ χ ε β}
    {f : α → Co σ P ρ χ ε β} (first : Erases x' x)
    (rest : ∀ a, Erases (f' a) (f a)) : Erases (x' >>= f') (x >>= f) := by
  show Erases (x'.bind f') (x.bind f)
  induction first with
  | done a => exact rest a
  | get _ ih => exact .get ih
  | look _ ih => exact .look ih
  | set _ ih => exact .set ih
  | yield _ ih => exact .yield ih
  | call _ ih => exact .call ih
  | choose _ ih => exact .choose ih
  | fail e => exact .fail e

theorem erasesLift (x : Co σ P ρ χ ε α) : Erases (lift x : Co (σ × γ) P ρ χ ε α) x := by
  induction x with
  | done a => exact .done a
  | get k ih => exact .get fun s => ih s.1
  | set s k ih => exact .look fun _ => .set ih
  | yield k ih => exact .yield ih
  | call p k ih => exact .call ih
  | choose k ih => exact .choose ih
  | fail e => exact .fail e

theorem erasesMark (f : σ → Except ε σ) (note : σ → γ → γ) : Erases (mark f note : Co (σ × γ) P ρ χ ε Unit) (run f) := by
  refine .get fun s => ?_
  cases f s.1 with
  | ok s' => exact .set (.done ())
  | error e => exact .fail e

theorem erasesIf {c : Prop} [Decidable c] {x' z' : Co (σ × γ) P ρ χ ε α} {x z : Co σ P ρ χ ε α} (pos : Erases x' x) (neg : Erases z' z) :
    Erases (if c then x' else z') (if c then x else z) := by
  split
  · exact pos
  · exact neg

end Programs

section Runs
variable [DecidableEq τ]

structure Shadows (m' : Machine τ (σ × γ) P ρ χ ε) (m : Machine τ σ P ρ χ ε) : Prop where
  shared : m'.shared.1 = m.shared
  running : m'.running = m.running
  progs : ∀ t, Erases (m'.prog t) (m.prog t)

theorem reachedTrans {y : System τ σ P ρ χ ε} {a b c} (first : y.Reached a b) (second : y.Reached b c) : y.Reached a c := by
  induction second with
  | start => exact first
  | step _ next ih => exact .step ih next

variable {m' : Machine τ (σ × γ) P ρ χ ε} {n : Machine τ σ P ρ χ ε} {x' : Co (σ × γ) P ρ χ ε Unit} {x : Co σ P ρ χ ε Unit}
  {y' : System τ (σ × γ) P ρ χ ε}

theorem shadowsProgs (shadows : Shadows m' m) (erases : Erases x' x) (t : τ) : Erases ((m'.goOn x').prog t) ((m.goOn x).prog t) := by
  show Erases (update m'.prog m'.running x' t) (update m.prog m.running x t)
  rw [shadows.running]
  by_cases here : t = m.running
  · subst here
    rw [update_self,update_self]
    exact erases
  · rw [update_of_ne here,update_of_ne here]
    exact shadows.progs t

theorem shadowsGoOn (shadows : Shadows m' m) (erases : Erases x' x) : Shadows (m'.goOn x') (m.goOn x) :=
  ⟨shadows.shared,shadows.running,shadowsProgs shadows erases⟩

theorem shadowsLook (shadows : Shadows m' m) (erases : Erases x' (m.prog m.running)) : Shadows (m'.goOn x') m := by
  have same := shadowsGoOn shadows erases
  rwa [Machine.goOn.eq_def m,Function.update_eq_self] at same

def Together (next' : Except ε (Machine τ (σ × γ) P ρ χ ε)) (next : Except ε (Machine τ σ P ρ χ ε)) : Prop :=
  (∀ n', next' = .ok n' → ∃ n, next = .ok n ∧ Shadows n' n) ∧ ∀ n, next = .ok n → ∃ n', next' = .ok n' ∧ Shadows n' n

omit [DecidableEq τ] in
theorem togetherOk (shadows : Shadows m' m) : Together (.ok m') (.ok m) := by
  refine ⟨fun n' same => ⟨m,rfl,?_⟩,fun n same => ⟨m',rfl,?_⟩⟩
  · cases same
    exact shadows
  · cases same
    exact shadows

structure Follows (y' : System τ (σ × γ) P ρ χ ε) (y : System τ σ P ρ χ ε) (c : χ) (m' : Machine τ (σ × γ) P ρ χ ε)
    (m : Machine τ σ P ρ χ ε) : Prop where
  one : Together (y'.step c m') (y.step c m) ∨ ∃ n', y'.step c m' = .ok n' ∧ Shadows n' m
  all : ∀ n, y.step c m = .ok n → ∃ n', y'.Reached m' n' ∧ Shadows n' n

theorem followsDirect {c} (together : Together (y'.step c m') (y.step c m)) : Follows y' y c m' m := by
  refine ⟨Or.inl together,fun n next => ?_⟩
  obtain ⟨n',ran,after⟩ := together.2 n next
  exact ⟨n',.step .start ran,after⟩

theorem shadowFollows (bodies : ∀ p, Erases (y'.body p) (y.body p)) (current : ∀ s, y'.current s = y.current s.1) (c : χ) (erases : Erases x' x)
    (shadows : Shadows m' m) (here' : m'.prog m'.running = x') (here : m.prog m.running = x) : Follows y' y c m' m := by
  induction erases generalizing m' with
  | @look k' _ rest ih =>
    have looked := shadowsLook shadows (here ▸ rest m'.shared)
    have ran : y'.step c m' = .ok (m'.goOn (k' m'.shared)) := by
      unfold System.step
      rw [here']
    refine ⟨Or.inr ⟨_,ran,looked⟩,fun n next => ?_⟩
    obtain ⟨n',rest,after⟩ := (ih m'.shared looked (update_self ..) here).all n next
    exact ⟨n',reachedTrans (.step .start ran) rest,after⟩
  | done a => exact followsDirect (by simp only [System.step,here',here]; exact togetherOk shadows)
  | get rest =>
    exact followsDirect (by simp only [System.step,here',here]; exact togetherOk (shadowsGoOn shadows (shadows.shared ▸ rest m'.shared)))
  | set rest => exact followsDirect (by simp only [System.step,here',here]; exact togetherOk ⟨rfl,shadows.running,shadowsProgs shadows rest⟩)
  | yield rest =>
    have next : y'.current m'.shared = y.current m.shared := (current m'.shared).trans (congrArg y.current shadows.shared)
    exact followsDirect (by simp only [System.step,here',here]; exact togetherOk ⟨shadows.shared,next,shadowsProgs shadows rest⟩)
  | call rest => exact followsDirect (by simp only [System.step,here',here]; exact togetherOk (shadowsGoOn shadows (erasesBind (bodies _) rest)))
  | choose rest => exact followsDirect (by simp only [System.step,here',here]; exact togetherOk (shadowsGoOn shadows (rest c)))
  | fail e => exact followsDirect (by simp only [System.step,here',here]; exact ⟨fun _ same => (by cases same),fun _ same => (by cases same)⟩)

variable {start' : Machine τ (σ × γ) P ρ χ ε}

theorem reachedErased (bodies : ∀ p, Erases (y'.body p) (y.body p)) (current : ∀ s, y'.current s = y.current s.1) (begins : Shadows start' start)
    (run : y'.Reached start' m') : ∃ m, y.Reached start m ∧ Shadows m' m := by
  induction run with
  | start => exact ⟨start,.start,begins⟩
  | @step c m' n' _ next ih =>
    obtain ⟨m,run,shadows⟩ := ih
    rcases (shadowFollows bodies current c (shadows.running ▸ shadows.progs m'.running) shadows rfl rfl).one with together | ⟨n₁,ran,after⟩
    · obtain ⟨n,ran,after⟩ := together.1 n' next
      exact ⟨n,.step run ran,after⟩
    · cases ran.symm.trans next
      exact ⟨m,run,after⟩

theorem reachedNoted (bodies : ∀ p, Erases (y'.body p) (y.body p)) (current : ∀ s, y'.current s = y.current s.1) (begins : Shadows start' start)
    (run : y.Reached start m) : ∃ m', y'.Reached start' m' ∧ Shadows m' m := by
  induction run with
  | start => exact ⟨start',.start,begins⟩
  | @step c m n _ next ih =>
    obtain ⟨m',run,shadows⟩ := ih
    obtain ⟨n',ran,after⟩ := (shadowFollows bodies current c (shadows.running ▸ shadows.progs m'.running) shadows rfl rfl).all n next
    exact ⟨n',reachedTrans run ran,after⟩

end Runs

section Observer
variable [DecidableEq τ]

def observed (y : System τ σ P ρ χ ε) : System (Option τ) σ P ρ χ ε := ⟨y.body,fun s => some (y.current s)⟩

def observing (m : Machine τ σ P ρ χ ε) : Machine (Option τ) σ P ρ χ ε := ⟨m.shared,some m.running,fun u => u.elim (.done ()) m.prog⟩

variable {L : Logic (Option τ) σ P ρ ε} {m' : Machine τ σ P ρ χ ε}

theorem observingGoOn (m : Machine τ σ P ρ χ ε) (x : Co σ P ρ χ ε Unit) : (observing m).goOn x = observing (m.goOn x) := by
  have progs : update (observing m).prog (some m.running) x = (observing (m.goOn x)).prog := by
    funext u
    cases u with
    | none => rfl
    | some t =>
      show update (observing m).prog (some m.running) x (some t) = update m.prog m.running x t
      by_cases here : t = m.running
      · subst here
        rw [update_self,update_self]
      · rw [update_of_ne here,update_of_ne fun same => here (Option.some.inj same)]
        rfl
  exact congrArg (Machine.mk m.shared (some m.running)) progs

theorem observedStep {c} (next : y.step c m = .ok m') : (observed y).step c (observing m) = .ok (observing m') := by
  have progs := fun x => congrArg Machine.prog (observingGoOn m x)
  have here : (observing m).prog (observing m).running = m.prog m.running := rfl
  unfold System.step at next ⊢
  rw [here]
  cases prog : m.prog m.running <;> rw [prog] at next <;> cases next
  case done a => rfl
  case get k => exact congrArg Except.ok (observingGoOn m _)
  case set s k => exact congrArg (fun progs => Except.ok (Machine.mk s (some m.running) progs)) (progs k)
  case yield k => exact congrArg (fun progs => Except.ok (Machine.mk m.shared (some (y.current m.shared)) progs)) (progs k)
  case call p k => exact congrArg Except.ok (observingGoOn m _)
  case choose k => exact congrArg Except.ok (observingGoOn m _)

theorem observedReached (run : y.Reached start m) : (observed y).Reached (observing start) (observing m) := by
  induction run with
  | start => exact .start
  | step _ next ih => exact .step ih (observedStep next)

theorem observedRely (sound : Sound L (observed y)) (begins : Good L (observed y) (observing start)) (run : y.Reached start m) :
    L.rely none start.shared m.shared := by
  induction run with
  | start => exact L.refl none _
  | @step c m m' before next ih =>
    have runs : wp L (observed y).current (some m.running) (m.prog m.running) (fun _ _ => True) m.shared :=
      (reachedGood sound begins (observedReached before)).runs
    unfold System.step at next
    cases prog : m.prog m.running <;> rw [prog] at next runs
    case set s k =>
      cases next
      exact L.trans none _ _ _ ih (runs.1 none nofun)
    case fail e => cases next
    all_goals
      cases next
      exact ih

end Observer

section Rules
variable {L : Logic τ (σ × γ) P ρ ε} {current : σ × γ → τ} {t : τ} {s : σ × γ}

theorem wpLiftBind {x} {f : α → Co σ P ρ χ ε β} {Q : β → σ × γ → Prop}
    (h : wp L current t (lift x) (fun a => wp L current t (lift (f a)) Q) s) : wp L current t (lift (x >>= f)) Q s := by
  rw [liftBind]
  exact wpBind h

theorem wpLook {f : σ → Co (σ × γ) P ρ χ ε β} {Q : β → σ × γ → Prop} (h : wp L current t (f s.1) Q s) :
    wp L current t (lift read >>= f) Q s := h

theorem wpLiftRead {f : σ → Co σ P ρ χ ε β} {Q : β → σ × γ → Prop} (h : wp L current t (lift (f s.1)) Q s) :
    wp L current t (lift (read >>= f)) Q s := h

theorem wpLiftIf {c : Prop} [Decidable c] {x y : Co σ P ρ χ ε α} {Q : α → σ × γ → Prop} (pos : c → wp L current t (lift x) Q s)
    (neg : ¬ c → wp L current t (lift y) Q s) : wp L current t (lift (if c then x else y)) Q s := by
  split
  · exact pos (by assumption)
  · exact neg (by assumption)

theorem wpLiftRun {g : σ → Except ε σ} {Q : Unit → σ × γ → Prop}
    (ok : ∀ s', g s.1 = .ok s' → (∀ u, u ≠ t → L.rely u s (s',s.2)) ∧ Q () (s',s.2))
    (error : ∀ e, g s.1 = .error e → L.faults e) : wp (χ := χ) L current t (lift (run g)) Q s := by
  show wp (χ := χ) L current t (lift (match g s.1 with | .ok s' => .set s' (.done ()) | .error e => .fail e)) Q s
  cases ran : g s.1 with
  | ok s' => exact ok s' ran
  | error e => exact error e ran

theorem wpMark {g : σ → Except ε σ} {note : σ → γ → γ} {Q : Unit → σ × γ → Prop}
    (ok : ∀ s', g s.1 = .ok s' → (∀ u, u ≠ t → L.rely u s (s',note s.1 s.2)) ∧ Q () (s',note s.1 s.2))
    (error : ∀ e, g s.1 = .error e → L.faults e) : wp (χ := χ) L current t (mark g note) Q s := by
  show wp (χ := χ) L current t (match g s.1 with | .ok s' => .set (s',note s.1 s.2) (.done ()) | .error e => .fail e) Q s
  cases ran : g s.1 with
  | ok s' => exact ok s' ran
  | error e => exact error e ran

end Rules
end TskSw.Annotations
