import Mathlib.Logic.Basic

/-! Code that interrupts break into. A trap runs on top of what it interrupted and is gone
before that goes on, and a procedure runs on top of its caller in the same way. The logic
has a relation that a whole interruption keeps; code that runs with interrupts enabled finds
the memory changed by it before each of its steps. -/
namespace TskSw.Interrupts

inductive Code (σ π ε α : Type) where
  | done (a : α)
  | act (f : σ → σ) (k : σ → Code σ π ε α)
  | any (k : Int → Code σ π ε α)
  | call (p : π) (k : Int → Code σ π ε α)
  | fail (e : ε)

variable {σ π ε α β ξ : Type} {s s' : σ}

section Programs

def Code.bind : Code σ π ε α → (α → Code σ π ε β) → Code σ π ε β
  | .done a,f => f a
  | .act g k,f => .act g fun s => (k s).bind f
  | .any k,f => .any fun i => (k i).bind f
  | .call p k,f => .call p fun r => (k r).bind f
  | .fail e,_ => .fail e

instance : Monad (Code σ π ε) where
  pure := .done
  bind := Code.bind

def exec (f : σ → α × σ) : Code σ π ε α := .act (fun s => (f s).2) fun s => .done (f s).1
def modify (f : σ → σ) : Code σ π ε Unit := .act f fun _ => .done ()
def undefined : Code σ π ε Int := .any .done
def invoke (p : π) : Code σ π ε Int := .call p .done
def stop (e : ε) : Code σ π ε α := .fail e

end Programs

inductive Note (π : Type) where
  | undefined (i : Int)
  | returned (p : π) (r : Int)

inductive Origin (σ π : Type) where
  | trap (before : σ)
  | proc (p : π)

structure Frame (σ π ε : Type) where
  origin : Origin σ π
  entry : σ
  code : Code σ π ε Int
  log : List (Note π)

structure System (σ π ξ ε : Type) where
  trap : ξ → Code σ π ε Int
  body : π → Code σ π ε Int
  enabled : σ → Bool
  enter : σ → σ
  leave : σ → σ → σ

structure Machine (σ π ε : Type) where
  shared : σ
  frames : List (Frame σ π ε)

inductive Choice (ξ : Type) where
  | run (i : Int)
  | interrupt (x : ξ)

section Execution

def Frame.goOn (f : Frame σ π ε) (x : Code σ π ε Int) (notes : List (Note π)) : Frame σ π ε := {f with code := x, log := f.log ++ notes}

def System.pop (y : System σ π ξ ε) (f : Frame σ π ε) (r : Int) (s : σ) (rest : List (Frame σ π ε)) : Option (Machine σ π ε) :=
  match f.origin with
  | .trap before => some ⟨y.leave before s,rest⟩
  | .proc p =>
    match rest with
    | [] => none
    | g :: rest =>
      match g.code with
      | .call _ k => some ⟨s,g.goOn (k r) [.returned p r] :: rest⟩
      | _ => none

def System.step (y : System σ π ξ ε) : Choice ξ → Machine σ π ε → Option (Machine σ π ε)
  | .interrupt x,⟨s,frames⟩ => if y.enabled s then some ⟨y.enter s,⟨.trap s,y.enter s,y.trap x,[]⟩ :: frames⟩ else none
  | .run _,⟨_,[]⟩ => none
  | .run i,⟨s,f :: rest⟩ =>
    match f.code with
    | .done r => y.pop f r s rest
    | .act g k => some ⟨g s,f.goOn (k s) [] :: rest⟩
    | .any k => some ⟨s,f.goOn (k i) [.undefined i] :: rest⟩
    | .call p _ => some ⟨s,⟨.proc p,s,y.body p,[]⟩ :: f :: rest⟩
    | .fail _ => none

inductive System.Move (y : System σ π ξ ε) : Machine σ π ε → Machine σ π ε → Prop where
  | interrupts {s : σ} {frames : List (Frame σ π ε)} (x : ξ) (on : y.enabled s = true) :
      y.Move ⟨s,frames⟩ ⟨y.enter s,⟨.trap s,y.enter s,y.trap x,[]⟩ :: frames⟩
  | acts {s : σ} {f : Frame σ π ε} {rest : List (Frame σ π ε)} {g : σ → σ} {k : σ → Code σ π ε Int} (code : f.code = .act g k) :
      y.Move ⟨s,f :: rest⟩ ⟨g s,f.goOn (k s) [] :: rest⟩
  | finds {s : σ} {f : Frame σ π ε} {rest : List (Frame σ π ε)} {k : Int → Code σ π ε Int} (i : Int) (code : f.code = .any k) :
      y.Move ⟨s,f :: rest⟩ ⟨s,f.goOn (k i) [.undefined i] :: rest⟩
  | calls {s : σ} {f : Frame σ π ε} {rest : List (Frame σ π ε)} {p : π} {k : Int → Code σ π ε Int} (code : f.code = .call p k) :
      y.Move ⟨s,f :: rest⟩ ⟨s,⟨.proc p,s,y.body p,[]⟩ :: f :: rest⟩
  | leaves {s before : σ} {f : Frame σ π ε} {rest : List (Frame σ π ε)} {r : Int} (ended : f.code = .done r)
    (origin : f.origin = .trap before) :
      y.Move ⟨s,f :: rest⟩ ⟨y.leave before s,rest⟩
  | returns {s : σ} {f g : Frame σ π ε} {rest : List (Frame σ π ε)} {r : Int} {p q : π} {k : Int → Code σ π ε Int}
    (ended : f.code = .done r)
      (origin : f.origin = .proc p) (waits : g.code = .call q k) : y.Move ⟨s,f :: g :: rest⟩ ⟨s,g.goOn (k r) [.returned p r] :: rest⟩

def System.begin (y : System σ π ξ ε) (x : ξ) (s : σ) : Machine σ π ε := ⟨s,[⟨.trap s,s,y.trap x,[]⟩]⟩

inductive System.Reached (y : System σ π ξ ε) (start : Machine σ π ε) : Machine σ π ε → Prop where
  | start : y.Reached start start
  | step {c : Choice ξ} {m m' : Machine σ π ε} (before : y.Reached start m) (next : y.step c m = some m') : y.Reached start m'

def System.play (y : System σ π ξ ε) : List (Choice ξ) → Machine σ π ε → Option (Machine σ π ε)
  | [],m => some m
  | c :: cs,m => do
      let m ← y.step c m
      y.play cs m

variable {y : System σ π ξ ε} {start m m' : Machine σ π ε}

theorem popMove {f : Frame σ π ε} {rest : List (Frame σ π ε)} {r : Int} {s : σ} (ended : f.code = .done r) (next : y.pop f r s rest = some m) :
    y.Move ⟨s,f :: rest⟩ m := by
  unfold System.pop at next
  split at next
  · rename_i before origin
    cases next
    exact .leaves ended origin
  · rename_i p origin
    split at next
    · cases next
    · rename_i g tail
      split at next
      · rename_i q k waits
        cases next
        exact .returns ended origin waits
      · cases next

theorem stepMove {c : Choice ξ} (next : y.step c m = some m') : y.Move m m' := by
  obtain ⟨s,frames⟩ := m
  cases c with
  | interrupt x =>
    simp only [System.step] at next
    split at next
    · rename_i on
      cases next
      exact .interrupts x on
    · cases next
  | run i =>
    cases frames with
    | nil => cases next
    | cons f rest =>
      simp only [System.step] at next
      split at next
      · rename_i r ended
        exact popMove ended next
      · rename_i g k code
        cases next
        exact .acts code
      · rename_i k code
        cases next
        exact .finds i code
      · rename_i p k code
        cases next
        exact .calls code
      · cases next

theorem reachedTrans (first : y.Reached start m) (second : y.Reached m m') : y.Reached start m' := by
  induction second with
  | start => exact first
  | step _ next ih => exact .step ih next

theorem playReached {cs : List (Choice ξ)} (before : y.Reached start m) (ran : y.play cs m = some m') : y.Reached start m' := by
  induction cs generalizing m with
  | nil =>
    cases ran
    exact before
  | cons c cs ih =>
    obtain ⟨m₁,next,rest⟩ := Option.bind_eq_some_iff.mp ran
    exact ih (.step before next) rest

theorem played {cs : List (Choice ξ)} {α : Type} {view : Machine σ π ε → α} {a : α} (ran : (y.play cs start).map view = some a) :
    ∃ m, y.Reached start m ∧ view m = a := by
  obtain ⟨m,ended,seen⟩ := Option.map_eq_some_iff.mp ran
  exact ⟨m,playReached .start ended,seen⟩

end Execution

structure Logic (σ π : Type) where
  keeps : σ → σ → Prop
  refl : ∀ s, keeps s s
  trans : ∀ {s s' s''}, keeps s s' → keeps s' s'' → keeps s s''
  pre : π → σ → Prop
  during : π → σ → σ → Prop
  post : π → σ → Int → σ → Prop
  trapPost : σ → Int → σ → List (Note π) → Prop

section Rules
variable {L : Logic σ π} {enabled : σ → Bool} {A : σ → Prop} {l : List (Note π)} {Q Q' : α → σ → List (Note π) → Prop}

def Later (L : Logic σ π) (enabled : σ → Bool) (s s' : σ) : Prop := s' = s ∨ enabled s = true ∧ L.keeps s s'

def wp (L : Logic σ π) (enabled : σ → Bool) (A : σ → Prop) :
    Code σ π ε α → (α → σ → List (Note π) → Prop) → σ → List (Note π) → Prop
  | .done a,Q,s,l => ∀ s', Later L enabled s s' → A s' ∧ Q a s' l
  | .act f k,Q,s,l => ∀ s', Later L enabled s s' → A s' ∧ wp L enabled A (k s') Q (f s') l
  | .any k,Q,s,l => ∀ i, wp L enabled A (k i) Q s (l ++ [.undefined i])
  | .call p k,Q,s,l => ∀ s', Later L enabled s s' → A s' ∧ L.pre p s' ∧
      ∀ r s'', L.post p s' r s'' → wp L enabled A (k r) Q s'' (l ++ [.returned p r])
  | .fail _,_,s,_ => ∀ s', Later L enabled s s' → A s'

theorem laterRefl : Later L enabled s s := Or.inl rfl

theorem laterOff (off : enabled s = false) (later : Later L enabled s s') : s' = s := by
  rcases later with same | ⟨on,_⟩
  · exact same
  · rw [off] at on
    cases on

theorem laterKeeps (later : Later L enabled s s') : L.keeps s s' := by
  rcases later with rfl | ⟨_,keeps⟩
  · exact L.refl s'
  · exact keeps

theorem wpMono {x : Code σ π ε α} (h : wp L enabled A x Q s l) (weaker : ∀ a s l, Q a s l → Q' a s l) : wp L enabled A x Q' s l := by
  induction x generalizing s l with
  | done a => exact fun s' later => ⟨(h s' later).1,weaker a s' l (h s' later).2⟩
  | act f k ih => exact fun s' later => ⟨(h s' later).1,ih s' (h s' later).2⟩
  | any k ih => exact fun i => ih i (h i)
  | call p k ih =>
    intro s' later
    obtain ⟨always,pre,rest⟩ := h s' later
    exact ⟨always,pre,fun r s'' post => ih r (rest r s'' post)⟩
  | fail e => exact h

theorem wpBind {x : Code σ π ε α} {f : α → Code σ π ε β} {Q : β → σ → List (Note π) → Prop}
    (h : wp L enabled A x (fun a s l => wp L enabled A (f a) Q s l) s l) : wp L enabled A (x >>= f) Q s l := by
  change wp L enabled A (x.bind f) Q s l
  induction x generalizing s l with
  | done a => exact (h s laterRefl).2
  | act g k ih => exact fun s' later => ⟨(h s' later).1,ih s' (h s' later).2⟩
  | any k ih => exact fun i => ih i (h i)
  | call p k ih =>
    intro s' later
    obtain ⟨always,pre,rest⟩ := h s' later
    exact ⟨always,pre,fun r s'' post => ih r (rest r s'' post)⟩
  | fail e => exact h

theorem wpSeq {x : Code σ π ε α} {f : α → Code σ π ε β} {Q' : β → σ → List (Note π) → Prop} (h : wp L enabled A x Q s l)
    (next : ∀ a s l, Q a s l → wp L enabled A (f a) Q' s l) : wp L enabled A (x >>= f) Q' s l := wpBind (wpMono h next)

theorem wpAlways {x : Code σ π ε α} (h : wp L enabled A x Q s l) : A s := by
  induction x generalizing l with
  | done a => exact (h s laterRefl).1
  | act f k ih => exact (h s laterRefl).1
  | any k ih => exact ih 0 (h 0)
  | call p k ih => exact (h s laterRefl).1
  | fail e => exact h s laterRefl

theorem wpAny (pre : ∀ p s, L.pre p s) (x : Code σ π ε α) : wp L enabled (fun _ => True) x (fun _ _ _ => True) s l := by
  induction x generalizing s l with
  | done a => exact fun _ _ => ⟨trivial,trivial⟩
  | act f k ih => exact fun s' _ => ⟨trivial,ih s'⟩
  | any k ih => exact fun i => ih i
  | call p k ih => exact fun s' _ => ⟨trivial,pre p s',fun r _ _ => ih r⟩
  | fail e => exact fun _ _ => trivial

theorem wpInterrupted {x : Code σ π ε α} (h : wp L enabled A x Q s l) (on : enabled s = true) (kept : L.keeps s s') :
    wp L enabled A x Q s' l := by
  have later : ∀ s'', Later L enabled s' s'' → Later L enabled s s'' := fun s'' more =>
    Or.inr ⟨on,L.trans kept (laterKeeps more)⟩
  induction x generalizing l with
  | done a => exact fun s'' more => h s'' (later s'' more)
  | act f k ih => exact fun s'' more => h s'' (later s'' more)
  | any k ih => exact fun i => ih i (h i)
  | call p k ih => exact fun s'' more => h s'' (later s'' more)
  | fail e => exact fun s'' more => h s'' (later s'' more)

end Rules

section Soundness

structure Sound (L : Logic σ π) (y : System σ π ξ ε) : Prop where
  trap : ∀ x s, wp L y.enabled (fun _ => True) (y.trap x) (L.trapPost s) s []
  ends : ∀ before r s l, L.trapPost (y.enter before) r s l → L.keeps before (y.leave before s)
  body : ∀ p s, L.pre p s → wp L y.enabled (L.during p s) (y.body p) (fun r s' _ => L.post p s r s') s []

def Holds (L : Logic σ π) (y : System σ π ξ ε) (f : Frame σ π ε) (s : σ) : Prop :=
  match f.origin with
  | .trap _ => wp L y.enabled (fun _ => True) f.code (L.trapPost f.entry) s f.log
  | .proc p => L.pre p f.entry ∧ wp L y.enabled (L.during p f.entry) f.code (fun r s' _ => L.post p f.entry r s') s f.log

def Below (L : Logic σ π) (y : System σ π ξ ε) : Frame σ π ε → List (Frame σ π ε) → Prop
  | _,[] => True
  | f,g :: rest =>
    (match f.origin with
      | .trap before => f.entry = y.enter before ∧ ∀ s, L.keeps before s → Holds L y g s
      | .proc p => ∃ k, g.code = .call p k ∧ ∀ r s, L.post p f.entry r s → Holds L y (g.goOn (k r) [.returned p r]) s) ∧
    Below L y g rest

def Good (L : Logic σ π) (y : System σ π ξ ε) (m : Machine σ π ε) : Prop :=
  match m.frames with
  | [] => True
  | f :: rest => Holds L y f m.shared ∧ Below L y f rest

variable {L : Logic σ π} {y : System σ π ξ ε} {f : Frame σ π ε} {rest : List (Frame σ π ε)} {x : ξ}

theorem holdsInterrupted (h : Holds L y f s) (on : y.enabled s = true) (kept : L.keeps s s') : Holds L y f s' := by
  unfold Holds at h ⊢
  split at h
  · exact wpInterrupted h on kept
  · exact ⟨h.1,wpInterrupted h.2 on kept⟩

theorem holdsGoOn {x : Code σ π ε Int} {notes : List (Note π)} (h : Holds L y f s)
    (next : ∀ A Q, wp L y.enabled A f.code Q s f.log → wp L y.enabled A x Q s' (f.log ++ notes)) : Holds L y (f.goOn x notes) s' := by
  obtain ⟨origin,entry,code,log⟩ := f
  cases origin with
  | trap before => exact next _ _ h
  | proc p => exact ⟨h.1,next _ _ h.2⟩

theorem holdsPre {p : π} {k : Int → Code σ π ε Int} (h : Holds L y f s) (code : f.code = .call p k) : L.pre p s := by
  unfold Holds at h
  rw [code] at h
  split at h
  · exact (h s laterRefl).2.1
  · exact (h.2 s laterRefl).2.1

theorem endsTrap {before : σ} {r : Int} (h : Holds L y f s) (origin : f.origin = .trap before) (ended : f.code = .done r) :
    L.trapPost f.entry r s f.log := by
  rw [Holds,origin] at h
  dsimp only at h
  rw [ended] at h
  exact (h s laterRefl).2

theorem endsProc {p : π} {r : Int} (h : Holds L y f s) (origin : f.origin = .proc p) (ended : f.code = .done r) : L.post p f.entry r s := by
  rw [Holds,origin] at h
  dsimp only at h
  rw [ended] at h
  exact (h.2 s laterRefl).2

theorem belowGoOn {x : Code σ π ε Int} {notes : List (Note π)} (h : Below L y f rest) : Below L y (f.goOn x notes) rest := by
  cases rest with
  | nil => trivial
  | cons g rest => exact h

theorem moveGood {m m' : Machine σ π ε} (sound : Sound L y) (good : Good L y m) (move : y.Move m m') : Good L y m' := by
  cases move with
  | @interrupts s frames x on =>
    refine ⟨sound.trap x (y.enter s),?_⟩
    cases frames with
    | nil => trivial
    | cons g rest => exact ⟨⟨rfl,fun s' kept => holdsInterrupted good.1 on kept⟩,good.2⟩
  | @acts s f rest g k code =>
    refine ⟨holdsGoOn good.1 fun A Q h => ?_,belowGoOn good.2⟩
    rw [code] at h
    rw [List.append_nil]
    exact (h s laterRefl).2
  | @finds s f rest k i code =>
    refine ⟨holdsGoOn good.1 fun A Q h => ?_,belowGoOn good.2⟩
    rw [code] at h
    exact h i
  | @calls s f rest p k code =>
    have pre := holdsPre good.1 code
    refine ⟨⟨pre,sound.body p s pre⟩,⟨k,code,fun r s' post => holdsGoOn good.1 fun A Q h => ?_⟩,good.2⟩
    rw [code] at h
    exact (h s laterRefl).2.2 r s' post
  | @leaves s before f rest r ended origin =>
    cases rest with
    | nil => trivial
    | cons g rest =>
      obtain ⟨here,below⟩ := good.2
      rw [origin] at here
      have post := endsTrap good.1 origin ended
      rw [here.1] at post
      exact ⟨here.2 _ (sound.ends before r s f.log post),below⟩
  | @returns s f g rest r p q k ended origin waits =>
    obtain ⟨here,below⟩ := good.2
    rw [origin] at here
    obtain ⟨k',called,here⟩ := here
    rw [waits] at called
    cases called
    exact ⟨here r s (endsProc good.1 origin ended),belowGoOn below⟩

theorem reachedGood {m : Machine σ π ε} (sound : Sound L y) (run : y.Reached (y.begin x s) m) : Good L y m := by
  induction run with
  | start => exact ⟨sound.trap x s,trivial⟩
  | step _ next ih => exact moveGood sound ih (stepMove next)

theorem returning {m : Machine σ π ε} {before : σ} {r : Int} (sound : Sound L y) (run : y.Reached (y.begin x s) m) (top : m.frames = f :: rest)
    (origin : f.origin = .trap before) (ended : f.code = .done r) : L.trapPost f.entry r m.shared f.log := by
  have good := reachedGood sound run
  rw [Good,top] at good
  exact endsTrap good.1 origin ended

theorem running {m : Machine σ π ε} {p : π} (sound : Sound L y) (run : y.Reached (y.begin x s) m) (top : m.frames = f :: rest)
    (origin : f.origin = .proc p) : L.pre p f.entry ∧ L.during p f.entry m.shared := by
  have good := reachedGood sound run
  rw [Good,top] at good
  have holds := good.1
  rw [Holds,origin] at holds
  exact ⟨holds.1,wpAlways holds.2⟩

end Soundness

section Contents
variable {P : (σ → σ) → Prop} {C : π → Prop} {F : ε → Prop}

def Within (P : (σ → σ) → Prop) (C : π → Prop) (F : ε → Prop) : Code σ π ε α → Prop
  | .done _ => True
  | .act f k => P f ∧ ∀ s, Within P C F (k s)
  | .any k => ∀ i, Within P C F (k i)
  | .call p k => C p ∧ ∀ r, Within P C F (k r)
  | .fail e => F e

theorem withinBind {x : Code σ π ε α} {f : α → Code σ π ε β} (first : Within P C F x) (next : ∀ a, Within P C F (f a)) :
    Within P C F (x >>= f) := by
  change Within P C F (x.bind f)
  induction x with
  | done a => exact next a
  | act g k ih => exact ⟨first.1,fun s => ih s (first.2 s)⟩
  | any k ih => exact fun i => ih i (first i)
  | call p k ih => exact ⟨first.1,fun r => ih r (first.2 r)⟩
  | fail e => exact first

theorem withinMono {P' : (σ → σ) → Prop} {C' : π → Prop} {F' : ε → Prop} {x : Code σ π ε α} (h : Within P C F x)
    (steps : ∀ f, P f → P' f)
    (calls : ∀ p, C p → C' p) (faults : ∀ e, F e → F' e) : Within P' C' F' x := by
  induction x with
  | done a => trivial
  | act f k ih => exact ⟨steps f h.1,fun s => ih s (h.2 s)⟩
  | any k ih => exact fun i => ih i (h i)
  | call p k ih => exact ⟨calls p h.1,fun r => ih r (h.2 r)⟩
  | fail e => exact faults e h

theorem wpWithin {L : Logic σ π} {enabled : σ → Bool} {R : σ → σ → Prop} {x : Code σ π ε α} {e s : σ} {l : List (Note π)}
    (trans : ∀ {s s' s''}, R s s' → R s' s'' → R s s'') (kept : ∀ s s', L.keeps s s' → R s s')
    (within : Within (fun f => ∀ s, R s (f s)) (fun _ => False) F x) (here : R e s) : wp L enabled (R e) x (fun _ s' _ => R e s') s l := by
  have later : ∀ {s s'}, R e s → Later L enabled s s' → R e s' := fun here more => trans here (kept _ _ (laterKeeps more))
  induction x generalizing s l with
  | done a => exact fun s' more => ⟨later here more,later here more⟩
  | act f k ih => exact fun s' more => ⟨later here more,ih s' (within.2 s') (trans (later here more) (within.1 s'))⟩
  | any k ih => exact fun i => ih i (within i) here
  | call p k ih => exact within.1.elim
  | fail e => exact fun s' more => later here more

abbrev Fine (x : Code σ π ε α) : Prop := Within (fun _ => True) (fun _ => True) (fun _ => False) x
abbrev Plain (x : Code σ π ε α) : Prop := Within (fun _ => True) (fun _ => False) (fun _ => False) x

def Keeping (I : σ → Prop) (C : π → Prop) (F : ε → Prop) (m : Machine σ π ε) : Prop :=
  I m.shared ∧ ∀ f ∈ m.frames, Within (fun f => ∀ s, I s → I (f s)) C F f.code

theorem reachedKeeps {y : System σ π ξ ε} {I : σ → Prop} {start m : Machine σ π ε}
    (bodies : ∀ p, Within (fun f => ∀ s, I s → I (f s)) C F (y.body p))
    (trap : ∀ x, Within (fun f => ∀ s, I s → I (f s)) C F (y.trap x)) (enter : ∀ s, I s → I (y.enter s))
    (leave : ∀ before s, I s → I (y.leave before s))
    (run : y.Reached start m) (first : Keeping I C F start) : Keeping I C F m := by
  induction run with
  | start => exact first
  | step _ next ih =>
    cases stepMove next with
    | interrupts x on => exact ⟨enter _ ih.1,List.forall_mem_cons.mpr ⟨trap x,ih.2⟩⟩
    | acts code =>
      obtain ⟨top,below⟩ := List.forall_mem_cons.mp ih.2
      rw [code] at top
      exact ⟨top.1 _ ih.1,List.forall_mem_cons.mpr ⟨top.2 _,below⟩⟩
    | finds i code =>
      obtain ⟨top,below⟩ := List.forall_mem_cons.mp ih.2
      rw [code] at top
      exact ⟨ih.1,List.forall_mem_cons.mpr ⟨top i,below⟩⟩
    | calls code => exact ⟨ih.1,List.forall_mem_cons.mpr ⟨bodies _,ih.2⟩⟩
    | leaves ended origin => exact ⟨leave _ _ ih.1,(List.forall_mem_cons.mp ih.2).2⟩
    | returns ended origin waits =>
      obtain ⟨caller,below⟩ := List.forall_mem_cons.mp (List.forall_mem_cons.mp ih.2).2
      rw [waits] at caller
      exact ⟨ih.1,List.forall_mem_cons.mpr ⟨caller.2 _,below⟩⟩

end Contents

section Ending
variable {y : System σ π ξ ε} {origin : Origin σ π} {entry : σ} {rest : List (Frame σ π ε)} {x : Code σ π ε Int}

theorem plainEnds (plain : Plain x) (s : σ) (l : List (Note π)) :
    ∃ r s' l', y.Reached ⟨s,⟨origin,entry,x,l⟩ :: rest⟩ ⟨s',⟨origin,entry,.done r,l'⟩ :: rest⟩ := by
  induction x generalizing s l with
  | done r => exact ⟨r,s,l,.start⟩
  | act f k ih =>
    obtain ⟨r,s',l',run⟩ := ih s (plain.2 s) (f s) (l ++ [])
    exact ⟨r,s',l',reachedTrans (.step (c := .run 0) .start rfl) run⟩
  | any k ih =>
    obtain ⟨r,s',l',run⟩ := ih 0 (plain 0) s (l ++ [.undefined 0])
    exact ⟨r,s',l',reachedTrans (.step (c := .run 0) .start rfl) run⟩
  | call p k ih => exact plain.1.elim
  | fail e => exact plain.elim

theorem fineEnds (bodies : ∀ p, Plain (y.body p)) (fine : Fine x) (s : σ) (l : List (Note π)) :
    ∃ r s' l', y.Reached ⟨s,⟨origin,entry,x,l⟩ :: rest⟩ ⟨s',⟨origin,entry,.done r,l'⟩ :: rest⟩ := by
  induction x generalizing s l with
  | done r => exact ⟨r,s,l,.start⟩
  | act f k ih =>
    obtain ⟨r,s',l',run⟩ := ih s (fine.2 s) (f s) (l ++ [])
    exact ⟨r,s',l',reachedTrans (.step (c := .run 0) .start rfl) run⟩
  | any k ih =>
    obtain ⟨r,s',l',run⟩ := ih 0 (fine 0) s (l ++ [.undefined 0])
    exact ⟨r,s',l',reachedTrans (.step (c := .run 0) .start rfl) run⟩
  | call p k ih =>
    obtain ⟨r,s₁,l₁,called⟩ := plainEnds (bodies p) s []
    obtain ⟨r',s',l',run⟩ := ih r (fine.2 r) s₁ (l ++ [.returned p r])
    have entered : y.Reached ⟨s,⟨origin,entry,.call p k,l⟩ :: rest⟩
      ⟨s₁,⟨.proc p,s,.done r,l₁⟩ :: ⟨origin,entry,.call p k,l⟩ :: rest⟩ :=
      reachedTrans (.step (c := .run 0) .start rfl) called
    exact ⟨r',s',l',reachedTrans (.step (c := .run 0) entered rfl) run⟩
  | fail e => exact fine.elim

def Stacked : List (Frame σ π ε) → Prop
  | [] => True
  | f :: rest => Fine f.code ∧ (∀ p, f.origin = .proc p → ∃ g k tail, rest = g :: tail ∧ g.code = .call p k) ∧ Stacked rest

theorem stackedGoOn {f : Frame σ π ε} {notes : List (Note π)} (stacked : Stacked (f :: rest)) (fine : Fine x) :
    Stacked (f.goOn x notes :: rest) := ⟨fine,stacked.2⟩

theorem popPossible {f : Frame σ π ε} (stacked : Stacked (f :: rest)) (r : Int) (s : σ) :
    ∃ m, y.pop f r s rest = some m ∧ m.frames.length = rest.length := by
  obtain ⟨origin,entry,code,log⟩ := f
  cases origin with
  | trap before => exact ⟨_,rfl,rfl⟩
  | proc p =>
    obtain ⟨g,k,tail,rfl,waits⟩ := stacked.2.1 p rfl
    simp only [System.pop,waits]
    exact ⟨_,rfl,rfl⟩

theorem moveStacked {m m' : Machine σ π ε} (trap : ∀ x, Fine (y.trap x)) (bodies : ∀ p, Fine (y.body p)) (stacked : Stacked m.frames)
    (move : y.Move m m') :
    Stacked m'.frames := by
  cases move with
  | interrupts x on => exact ⟨trap x,(fun p same => by cases same),stacked⟩
  | acts code =>
    have fine := stacked.1
    rw [code] at fine
    exact stackedGoOn stacked (fine.2 _)
  | finds i code =>
    have fine := stacked.1
    rw [code] at fine
    exact stackedGoOn stacked (fine i)
  | @calls s f rest p k code =>
    refine ⟨bodies p,fun q same => ?_,stacked⟩
    cases same
    exact ⟨f,k,rest,rfl,code⟩
  | leaves ended origin => exact stacked.2.2
  | returns ended origin waits =>
    have fine := stacked.2.2.1
    rw [waits] at fine
    exact stackedGoOn stacked.2.2 (fine.2 _)

theorem allReturn {m : Machine σ π ε} {x : ξ} {s : σ} (trap : ∀ x, Fine (y.trap x)) (bodies : ∀ p, Plain (y.body p))
    (run : y.Reached (y.begin x s) m) :
    ∃ m', y.Reached m m' ∧ m'.frames = [] := by
  have fine : ∀ p, Fine (y.body p) := fun p => withinMono (bodies p) (fun _ _ => trivial) (fun _ _ => trivial) fun _ no => no
  have stacked : Stacked m.frames := by
    induction run with
    | start => exact ⟨trap x,(fun p same => by cases same),trivial⟩
    | step _ next ih => exact moveStacked trap fine ih (stepMove next)
  clear run
  induction depth : m.frames.length generalizing m with
  | zero => exact ⟨m,.start,List.length_eq_zero_iff.mp depth⟩
  | succ n ih =>
    obtain ⟨s,frames⟩ := m
    cases frames with
    | nil => cases depth
    | cons f rest =>
      obtain ⟨r,s',l',run⟩ : ∃ r s' l', y.Reached ⟨s,f :: rest⟩ ⟨s',⟨f.origin,f.entry,.done r,l'⟩ :: rest⟩ :=
        fineEnds bodies stacked.1 s f.log
      have ended : Stacked (⟨f.origin,f.entry,.done r,l'⟩ :: rest : List (Frame σ π ε)) := ⟨trivial,stacked.2⟩
      obtain ⟨m₁,next,shorter⟩ := popPossible (y := y) ended r s'
      have kept := moveStacked trap fine ended (popMove rfl next)
      obtain ⟨m',rest,none⟩ := ih kept (shorter.trans (Nat.succ.inj depth))
      exact ⟨m',reachedTrans (.step (c := .run 0) run next) rest,none⟩

end Ending

end TskSw.Interrupts
