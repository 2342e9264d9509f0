import Mathlib.Logic.Basic

/-! Programs that work on blocks through a buffer layer. A block is read into a
buffer, changed there, written and released; everything else the program keeps is
its own memory. A program runs over any layer, and a simulation between two layers
lifts from their five operations to every program. -/
namespace TskSw.BlockProgram

structure Layer (σ β δ ε : Type) where
  read : β → σ → Except ε σ
  data : β → σ → Except ε δ
  set : β → δ → σ → Except ε σ
  write : β → σ → Except ε σ
  release : β → σ → Except ε σ

structure World (σ κ : Type) where
  disk : σ
  mem : κ

inductive Prog (β δ ε κ : Type) (α : Type) : Type where
  | ret (a : α)
  | fail (e : ε)
  | get (next : κ → Prog β δ ε κ α)
  | put (m : κ) (next : Prog β δ ε κ α)
  | read (b : β) (next : Prog β δ ε κ α)
  | data (b : β) (next : δ → Prog β δ ε κ α)
  | set (b : β) (d : δ) (next : Prog β δ ε κ α)
  | write (b : β) (next : Prog β δ ε κ α)
  | release (b : β) (next : Prog β δ ε κ α)

variable {ε α γ : Type} {c : γ} {excuse : ε → Prop}

theorem exceptBindOk {x} {f : α → Except ε γ} {c} :
    (x >>= f) = .ok c ↔ ∃ a, x = .ok a ∧ f a = .ok c := by
  cases x with
  | error e => simp [bind,Except.bind]
  | ok a => simp [bind,Except.bind]

variable {β δ κ σ : Type}

section Monad

def Prog.bind {α γ : Type} (p : Prog β δ ε κ α) (f : α → Prog β δ ε κ γ) : Prog β δ ε κ γ :=
  match p with
  | .ret a => f a
  | .fail e => .fail e
  | .get next => .get (fun m => (next m).bind f)
  | .put m next => .put m (next.bind f)
  | .read b next => .read b (next.bind f)
  | .data b next => .data b (fun d => (next d).bind f)
  | .set b d next => .set b d (next.bind f)
  | .write b next => .write b (next.bind f)
  | .release b next => .release b (next.bind f)

instance : Monad (Prog β δ ε κ) where
  pure := .ret
  bind := .bind

theorem bindAssoc {η : Type} (p) (f : α → Prog β δ ε κ γ) (g : γ → Prog β δ ε κ η) :
    p >>= f >>= g = p >>= fun a => f a >>= g := by
  change (p.bind f).bind g = p.bind (fun a => (f a).bind g)
  induction p with
  | ret a => rfl
  | fail e => rfl
  | get next ih | data b next ih => exact congrArg _ (funext ih)
  | put m next ih | read b next ih | set b d next ih | write b next ih | release b next ih => exact congrArg _ ih

theorem bindPure (p : Prog β δ ε κ α) : p >>= pure = p := by
  change p.bind .ret = p
  induction p with
  | ret a => rfl
  | fail e => rfl
  | get next ih | data b next ih => exact congrArg _ (funext ih)
  | put m next ih | read b next ih | set b d next ih | write b next ih | release b next ih => exact congrArg _ ih

theorem pureBind (a : α) (f : α → Prog β δ ε κ γ) : pure a >>= f = f a := rfl

def abort {α : Type} (e : ε) : Prog β δ ε κ α := .fail e
def memory : Prog β δ ε κ κ := .get .ret
def setMemory (m : κ) : Prog β δ ε κ Unit := .put m (.ret ())
def readBlock (b : β) : Prog β δ ε κ Unit := .read b (.ret ())
def blockData (b : β) : Prog β δ ε κ δ := .data b .ret
def setBlock (b : β) (d : δ) : Prog β δ ε κ Unit := .set b d (.ret ())
def writeBlock (b : β) : Prog β δ ε κ Unit := .write b (.ret ())
def releaseBlock (b : β) : Prog β δ ε κ Unit := .release b (.ret ())
end Monad

section Run
variable (L : Layer σ β δ ε)

def follow {α γ : Type} (x : Except ε (α × World σ κ)) (f : α → World σ κ → Except ε (γ × World σ κ)) :
    Except ε (γ × World σ κ) :=
  match x with
  | .ok (a,s) => f a s
  | .error e => .error e

def onDisk {α : Type} (x : Except ε σ) (m : κ) (f : World σ κ → Except ε (α × World σ κ)) :
    Except ε (α × World σ κ) :=
  match x with
  | .ok d => f ⟨d,m⟩
  | .error e => .error e

def run {α : Type} : Prog β δ ε κ α → World σ κ → Except ε (α × World σ κ)
  | .ret a, s => .ok (a,s)
  | .fail e, _ => .error e
  | .get next, s => run (next s.mem) s
  | .put m next, s => run next ⟨s.disk,m⟩
  | .read b next, s => onDisk (L.read b s.disk) s.mem (run next)
  | .data b next, s =>
      match L.data b s.disk with
      | .ok d => run (next d) s
      | .error e => .error e
  | .set b d next, s => onDisk (L.set b d s.disk) s.mem (run next)
  | .write b next, s => onDisk (L.write b s.disk) s.mem (run next)
  | .release b next, s => onDisk (L.release b s.disk) s.mem (run next)

@[simp] theorem followOk (a s)
    (f : α → World σ κ → Except ε (γ × World σ κ)) : follow (.ok (a,s)) f = f a s := rfl
@[simp] theorem followError {α γ : Type} (e : ε)
    (f : α → World σ κ → Except ε (γ × World σ κ)) : follow (.error e) f = .error e := rfl
@[simp] theorem onDiskOk {α : Type} (d : σ) (m : κ) (f : World σ κ → Except ε (α × World σ κ)) :
    onDisk (.ok d) m f = f ⟨d,m⟩ := rfl
@[simp] theorem onDiskError {α : Type} (e : ε) (m : κ) (f : World σ κ → Except ε (α × World σ κ)) :
    onDisk (.error e) m f = .error e := rfl

theorem followOnDisk (x : Except ε σ) (m : κ) (g : World σ κ → Except ε (α × World σ κ))
    (f : α → World σ κ → Except ε (γ × World σ κ)) :
    follow (onDisk x m g) f = onDisk x m (fun s => follow (g s) f) := by
  cases x <;> rfl

@[simp] theorem runPure (a : α) (s : World σ κ) :
    run L (pure a : Prog β δ ε κ α) s = .ok (a,s) := rfl

@[simp] theorem runBind (p : Prog β δ ε κ α) (f : α → Prog β δ ε κ γ) (s : World σ κ) :
    run L (p >>= f) s = follow (run L p s) (fun a t => run L (f a) t) := by
  change run L (p.bind f) s = _
  induction p generalizing s with
  | ret a => rfl
  | fail e => rfl
  | get next ih => exact ih s.mem s
  | put m next ih => exact ih ⟨s.disk,m⟩
  | data b next ih =>
    simp only [Prog.bind,run]
    cases L.data b s.disk with
    | error e => rfl
    | ok d => exact ih d s
  | read b next ih | write b next ih | release b next ih | set b d next ih =>
    have same := funext ih
    simp only [Prog.bind,run,followOnDisk,same]

@[simp] theorem runAbort (e s) :
    run L (abort e : Prog β δ ε κ α) s = .error e := rfl
@[simp] theorem runMemory (s : World σ κ) :
    run L (memory : Prog β δ ε κ κ) s = .ok (s.mem,s) := rfl
@[simp] theorem runSetMemory (m : κ) (s : World σ κ) :
    run L (setMemory m : Prog β δ ε κ Unit) s = .ok ((),⟨s.disk,m⟩) := rfl
theorem runReadBlock (b : β) (s : World σ κ) :
    run L (readBlock b : Prog β δ ε κ Unit) s =
      onDisk (L.read b s.disk) s.mem (fun t => .ok ((),t)) := rfl
theorem runBlockData (b : β) (s : World σ κ) :
    run L (blockData b : Prog β δ ε κ δ) s =
      match L.data b s.disk with | .ok d => .ok (d,s) | .error e => .error e := by
  simp only [blockData,run]
theorem runSetBlock (b : β) (d : δ) (s : World σ κ) :
    run L (setBlock b d : Prog β δ ε κ Unit) s =
      onDisk (L.set b d s.disk) s.mem (fun t => .ok ((),t)) := rfl
theorem runWriteBlock (b : β) (s : World σ κ) :
    run L (writeBlock b : Prog β δ ε κ Unit) s =
      onDisk (L.write b s.disk) s.mem (fun t => .ok ((),t)) := rfl
theorem runReleaseBlock (b : β) (s : World σ κ) :
    run L (releaseBlock b : Prog β δ ε κ Unit) s =
      onDisk (L.release b s.disk) s.mem (fun t => .ok ((),t)) := rfl

theorem onDiskBind {x m} {f : World σ κ → Except ε (α × World σ κ)} {r} :
    onDisk x m f = .ok r ↔ ∃ d, x = .ok d ∧ f ⟨d,m⟩ = .ok r := by
  cases x <;> simp

theorem onDiskMem {x : Except ε σ} {m : κ} {a : Unit} {u : World σ κ} (ok : onDisk x m (fun t => .ok ((),t)) = .ok (a,u)) : u.mem = m := by
  cases x with
  | error e => cases ok
  | ok d =>
    cases ok
    rfl

theorem runDataOk {b : β} {s u : World σ κ} {d : δ} (ok : run L (blockData b) s = .ok (d,u)) : L.data b s.disk = .ok d ∧ u = s := by
  rw [runBlockData] at ok
  cases found : L.data b s.disk with
  | error e => rw [found] at ok; cases ok
  | ok e =>
    rw [found] at ok
    cases ok
    exact ⟨rfl,rfl⟩

variable {L} in
theorem runCut {p : Prog β δ ε κ α} {f : α → Prog β δ ε κ γ} {s u : World σ κ} (ok : run L (p >>= f) s = .ok (c,u)) :
    ∃ a t, run L p s = .ok (a,t) ∧ run L (f a) t = .ok (c,u) := by
  rw [runBind] at ok
  cases first : run L p s with
  | error e => simp [first] at ok
  | ok r =>
    rw [first] at ok
    exact ⟨r.1,r.2,rfl,ok⟩

theorem runBindOk {p : Prog β δ ε κ α} {f : α → Prog β δ ε κ γ} {s u : World σ κ} :
    run L (p >>= f) s = .ok (c,u) ↔ ∃ a t, run L p s = .ok (a,t) ∧ run L (f a) t = .ok (c,u) := by
  refine ⟨runCut,?_⟩
  rintro ⟨a,t,first,rest⟩
  rw [runBind]
  simpa [first] using rest

end Run

section Parts
variable {μ : Type}

def first : Prog β δ ε κ α → Prog β δ ε (κ × μ) α
  | .ret a => .ret a
  | .fail e => .fail e
  | .get next => .get fun m => first (next m.1)
  | .put k next => .get fun m => .put (k,m.2) (first next)
  | .read b next => .read b (first next)
  | .data b next => .data b fun d => first (next d)
  | .set b d next => .set b d (first next)
  | .write b next => .write b (first next)
  | .release b next => .release b (first next)

def beside (m : μ) (r : α × World σ κ) : α × World σ (κ × μ) := (r.1,⟨r.2.disk,(r.2.mem,m)⟩)

theorem onDiskBeside {x k m} {f : World σ (κ × μ) → Except ε (α × World σ (κ × μ))} {g : World σ κ → Except ε (α × World σ κ)}
    (same : ∀ d, f ⟨d,(k,m)⟩ = (g ⟨d,k⟩).map (beside m)) : onDisk x (k,m) f = (onDisk x k g).map (beside m) := by
  cases x with
  | error e => rfl
  | ok d => exact same d

@[simp] theorem runFirst {L : Layer σ β δ ε} (p : Prog β δ ε κ α) (d : σ) (k : κ) (m : μ) :
    run L (first p) ⟨d,(k,m)⟩ = (run L p ⟨d,k⟩).map (beside m) := by
  induction p generalizing d k with
  | ret a => rfl
  | fail e => rfl
  | get next ih => exact ih k d k
  | put k' next ih => exact ih d k'
  | data b next ih =>
    simp only [first,run]
    cases L.data b d with
    | error e => rfl
    | ok c => exact ih c d k
  | read b next ih | set b c next ih | write b next ih | release b next ih => exact onDiskBeside fun d => ih d k
end Parts

section Within
variable (L : Layer σ β δ ε) {S : β → Prop} {s : World σ κ}

def Within (S : β → Prop) {α : Type} : Prog β δ ε κ α → World σ κ → Prop
  | .ret _,_ => True
  | .fail _,_ => True
  | .get next,s => Within S (next s.mem) s
  | .put m next,s => Within S next ⟨s.disk,m⟩
  | .read b next,s => S b ∧ ∀ d, L.read b s.disk = .ok d → Within S next ⟨d,s.mem⟩
  | .data b next,s => S b ∧ ∀ d, L.data b s.disk = .ok d → Within S (next d) s
  | .set b e next,s => S b ∧ ∀ d, L.set b e s.disk = .ok d → Within S next ⟨d,s.mem⟩
  | .write b next,s => S b ∧ ∀ d, L.write b s.disk = .ok d → Within S next ⟨d,s.mem⟩
  | .release b next,s => S b ∧ ∀ d, L.release b s.disk = .ok d → Within S next ⟨d,s.mem⟩

@[simp] theorem withinPure (a) : Within L S (pure a : Prog β δ ε κ α) s := trivial
@[simp] theorem withinAbort {α : Type} (e : ε) : Within L S (abort e : Prog β δ ε κ α) s := trivial
@[simp] theorem withinMemory : Within L S (memory : Prog β δ ε κ κ) s := trivial
@[simp] theorem withinSetMemory (m : κ) : Within L S (setMemory m : Prog β δ ε κ Unit) s := trivial

@[simp] theorem withinReadBlock (b : β) : Within L S (readBlock b : Prog β δ ε κ Unit) s ↔ S b :=
  ⟨And.left,fun here => ⟨here,fun _ _ => trivial⟩⟩
@[simp] theorem withinBlockData (b : β) : Within L S (blockData b : Prog β δ ε κ δ) s ↔ S b :=
  ⟨And.left,fun here => ⟨here,fun _ _ => trivial⟩⟩
@[simp] theorem withinSetBlock (b : β) (d : δ) : Within L S (setBlock b d : Prog β δ ε κ Unit) s ↔ S b :=
  ⟨And.left,fun here => ⟨here,fun _ _ => trivial⟩⟩
@[simp] theorem withinWriteBlock (b : β) : Within L S (writeBlock b : Prog β δ ε κ Unit) s ↔ S b :=
  ⟨And.left,fun here => ⟨here,fun _ _ => trivial⟩⟩
@[simp] theorem withinReleaseBlock (b : β) : Within L S (releaseBlock b : Prog β δ ε κ Unit) s ↔ S b :=
  ⟨And.left,fun here => ⟨here,fun _ _ => trivial⟩⟩

theorem withinGet (f : κ → Prog β δ ε κ α) : Within L S (memory >>= f) s ↔ Within L S (f s.mem) s := Iff.rfl
theorem withinPut {α : Type} (m : κ) (f : Unit → Prog β δ ε κ α) :
    Within L S (setMemory m >>= f) s ↔ Within L S (f ()) ⟨s.disk,m⟩ := Iff.rfl

theorem withinBind (p : Prog β δ ε κ α) (f : α → Prog β δ ε κ γ) :
    Within L S (p >>= f) s ↔ Within L S p s ∧ ∀ a t, run L p s = .ok (a,t) → Within L S (f a) t := by
  change Within L S (p.bind f) s ↔ _
  induction p generalizing s with
  | ret a =>
    constructor
    · rintro rest
      exact ⟨trivial,fun b t ran => by cases ran; exact rest⟩
    · exact fun both => both.2 a s rfl
  | fail e => exact ⟨fun _ => ⟨trivial,fun a t ran => by cases ran⟩,fun _ => trivial⟩
  | get next ih => exact ih s.mem
  | put m next ih => exact ih
  | data b next ih =>
    simp only [Prog.bind,Within,run,ih]
    cases found : L.data b s.disk with
    | error e => simp
    | ok d => simp [and_assoc]
  | read b next ih | write b next ih | release b next ih | set b d next ih =>
    simp only [Prog.bind,Within,run,ih,onDiskBind]
    constructor
    · exact fun h => ⟨⟨h.1,fun d ok => (h.2 d ok).1⟩,fun a t ⟨d,ok,ran⟩ => (h.2 d ok).2 a t ran⟩
    · exact fun h => ⟨h.1.1,fun d ok => ⟨h.1.2 d ok,fun a t ran => h.2 a t ⟨d,ok,ran⟩⟩⟩
end Within

section Simulation
variable {τ : Type}

def Agree (excuse : ε → Prop) (R : σ → τ → Prop) (x : Except ε σ) (y : Except ε τ) : Prop :=
  (∃ e, x = .error e ∧ excuse e) ∨ (∃ e, x = .error e ∧ y = .error e) ∨
    ∃ s t, x = .ok s ∧ y = .ok t ∧ R s t

theorem agreeExcused {R : σ → τ → Prop} {x y} (h : Agree (fun _ => False) R x y) : Agree excuse R x y := by
  rcases h with ⟨_,_,never⟩ | rest
  · exact never.elim
  · exact Or.inr rest

theorem agreeRan {R : σ → τ → Prop} {x : Except ε σ} {y : Except ε τ} {s : σ} (h : Agree excuse R x y) (ok : x = .ok s) :
    ∃ t, y = .ok t ∧ R s t := by
  rcases h with ⟨_,fault,_⟩ | ⟨_,fault,_⟩ | ⟨_,t,ran,ran',after⟩
  · cases fault.symm.trans ok
  · cases fault.symm.trans ok
  · cases ran.symm.trans ok
    exact ⟨t,ran',after⟩

theorem agreeRuns {R : σ → τ → Prop} {x : Except ε σ} {y : Except ε τ} {t : τ} (h : Agree excuse R x y) (ok : y = .ok t) :
    (∃ e, x = .error e ∧ excuse e) ∨ ∃ s, x = .ok s ∧ R s t := by
  rcases h with excused | ⟨_,_,fault⟩ | ⟨s,_,ran,ran',after⟩
  · exact Or.inl excused
  · cases fault.symm.trans ok
  · cases ran'.symm.trans ok
    exact Or.inr ⟨s,ran,after⟩

theorem agreeSure {R : σ → τ → Prop} {x : Except ε σ} {y : Except ε τ} {t : τ} (h : Agree (fun _ => False) R x y) (ok : y = .ok t) :
    ∃ s, x = .ok s ∧ R s t := (agreeRuns h ok).resolve_left fun ⟨_,_,never⟩ => never

theorem agreeMore {R R' : σ → τ → Prop} {x : Except ε σ} {y : Except ε τ} (h : Agree excuse R x y)
    (never : ∀ e, x = .error e → ¬ excuse e) (more : ∀ s t, x = .ok s → R s t → R' s t) : Agree (fun _ => False) R' x y := by
  rcases h with ⟨e,fault,excused⟩ | same | ⟨s,t,ran,ran',after⟩
  · exact absurd excused (never e fault)
  · exact Or.inr (Or.inl same)
  · exact Or.inr (Or.inr ⟨s,t,ran,ran',more s t ran after⟩)

structure Simulates (L : Layer σ β δ ε) (M : Layer τ β δ ε) (excuse : ε → Prop)
    (R : σ → τ → Prop) : Prop where
  read : ∀ b s t, R s t → Agree excuse R (L.read b s) (M.read b t)
  data : ∀ b s t, R s t → L.data b s = M.data b t
  set : ∀ b d s t, R s t → Agree excuse R (L.set b d s) (M.set b d t)
  write : ∀ b s t, R s t → Agree excuse R (L.write b s) (M.write b t)
  release : ∀ b s t, R s t → Agree excuse R (L.release b s) (M.release b t)

def RunsAgree (excuse : ε → Prop) (R : σ → τ → Prop) {α : Type}
    (x : Except ε (α × World σ κ)) (y : Except ε (α × World τ κ)) : Prop :=
  (∃ e, x = .error e ∧ excuse e) ∨ (∃ e, x = .error e ∧ y = .error e) ∨
    ∃ a s t m, x = .ok (a,⟨s,m⟩) ∧ y = .ok (a,⟨t,m⟩) ∧ R s t

theorem agreeOnDisk {R R' : σ → τ → Prop} {x y m} {f : World σ κ → Except ε (α × World σ κ)}
    {g : World τ κ → Except ε (α × World τ κ)}
    (h : Agree excuse R' x y) (rest : ∀ s t, x = .ok s → y = .ok t → R' s t → RunsAgree excuse R (f ⟨s,m⟩) (g ⟨t,m⟩)) :
    RunsAgree excuse R (onDisk x m f) (onDisk y m g) := by
  rcases h with ⟨e,rfl,he⟩ | ⟨e,rfl,rfl⟩ | ⟨s,t,rfl,rfl,hr⟩
  · exact Or.inl ⟨e,rfl,he⟩
  · exact Or.inr (Or.inl ⟨e,rfl,rfl⟩)
  · exact rest s t rfl rfl hr

theorem runSimulates {L : Layer σ β δ ε} {M : Layer τ β δ ε} {R : σ → τ → Prop}
    (sim : Simulates L M excuse R) (p : Prog β δ ε κ α) {s : σ} {t : τ} (m : κ) (h : R s t) :
    RunsAgree excuse R (run L p ⟨s,m⟩) (run M p ⟨t,m⟩) := by
  induction p generalizing s t m with
  | ret a => exact Or.inr (Or.inr ⟨a,s,t,m,rfl,rfl,h⟩)
  | fail e => exact Or.inr (Or.inl ⟨e,rfl,rfl⟩)
  | get next ih => exact ih m m h
  | put m' next ih => exact ih m' h
  | read b next ih => exact agreeOnDisk (sim.read b s t h) (fun _ _ _ _ hr => ih m hr)
  | data b next ih =>
    simp only [run,sim.data b s t h]
    cases M.data b t with
    | error e => exact Or.inr (Or.inl ⟨e,rfl,rfl⟩)
    | ok d => exact ih d m h
  | set b d next ih => exact agreeOnDisk (sim.set b d s t h) (fun _ _ _ _ hr => ih m hr)
  | write b next ih => exact agreeOnDisk (sim.write b s t h) (fun _ _ _ _ hr => ih m hr)
  | release b next ih => exact agreeOnDisk (sim.release b s t h) (fun _ _ _ _ hr => ih m hr)
end Simulation

end TskSw.BlockProgram
