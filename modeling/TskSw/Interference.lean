import TskSw.BlockProgram

/-! What one thread owns while its program runs among others. Before each operation the
memory may change in any way that leaves alone what the thread sees as an owner, except
between a store and the look at the memory right before it. The thread's own stores, reads
and releases move what it owns by the rules of a discipline; a program is safe when no
operation breaks them. -/
namespace TskSw.Interference
open BlockProgram

structure Discipline (β κ γ : Type) where
  store : κ → κ → γ → γ → Prop
  take : β → γ → γ
  give : β → γ → γ → Prop
  sees : κ → γ → Prop
  -- Looks that follow each other make one section with the store behind them.
  whole : Prop

structure View (κ γ : Type) where
  mem : κ
  got : Bool
  own : γ

variable {β δ ε κ γ α η : Type} {p : Prog β δ ε κ α} {f : α → Prog β δ ε κ η}

section Safe
variable (D : Discipline β κ γ)

def Safe {α : Type} : Prog β δ ε κ α → View κ γ → (View κ γ → α → Prop) → Prop
  | .ret a,v,Q => Q v a
  | .fail _,_,_ => True
  | .get next,v,Q => ∀ k, D.sees k v.own → (D.whole → v.got = true → k = v.mem) → Safe (next k) ⟨k,true,v.own⟩ Q
  | .put m next,v,Q => v.got = true ∧ ∃ own, D.store v.mem m v.own own ∧ Safe next ⟨m,false,own⟩ Q
  | .read b next,v,Q => Safe next ⟨v.mem,false,D.take b v.own⟩ Q
  | .data _ next,v,Q => ∀ d, Safe (next d) ⟨v.mem,false,v.own⟩ Q
  | .set _ _ next,v,Q => Safe next ⟨v.mem,false,v.own⟩ Q
  | .write _ next,v,Q => Safe next ⟨v.mem,false,v.own⟩ Q
  | .release b next,v,Q => ∃ own, D.give b v.own own ∧ Safe next ⟨v.mem,false,own⟩ Q

variable {D} {v : View κ γ}

theorem safePost {Q Q' : View κ γ → α → Prop} (post : ∀ v a, Q v a → Q' v a) (safe : Safe D p v Q) : Safe D p v Q' := by
  induction p generalizing v with
  | ret a => exact post v a safe
  | fail e => trivial
  | get next ih => exact fun k sees here => ih k (safe k sees here)
  | put m next ih =>
    obtain ⟨got,own,store,rest⟩ := safe
    exact ⟨got,own,store,ih rest⟩
  | data b next ih => exact fun d => ih d (safe d)
  | read b next ih | set b d next ih | write b next ih => exact ih safe
  | release b next ih =>
    obtain ⟨own,give,rest⟩ := safe
    exact ⟨own,give,ih rest⟩

theorem safeBind {Q : View κ γ → η → Prop} : Safe D (p >>= f) v Q ↔ Safe D p v (fun u a => Safe D (f a) u Q) := by
  change Safe D (p.bind f) v Q ↔ _
  induction p generalizing v with
  | ret a | fail e => exact Iff.rfl
  | get next ih => exact forall_congr' fun k => imp_congr_right fun _ => imp_congr_right fun _ => ih k
  | put m next ih => exact and_congr_right fun _ => exists_congr fun own => and_congr_right fun _ => ih
  | data b next ih => exact forall_congr' fun d => ih d
  | read b next ih | set b d next ih | write b next ih => exact ih
  | release b next ih => exact exists_congr fun own => and_congr_right fun _ => ih

theorem safeRun {σ : Type} {L} {R : κ → κ → Prop} (refl : ∀ k, R k k) (trans : ∀ {k l m}, R k l → R l m → R k m)
    (stores : ∀ k m o o', D.store k m o o' → R k m) (sees : ∀ k o, D.sees k o) {Q : View κ γ → α → Prop} {s t : World σ κ} {a}
    (here : v.mem = s.mem)
    (safe : Safe D p v Q) (ok : run L p s = .ok (a,t)) : R s.mem t.mem ∧ ∃ u, u.mem = t.mem ∧ Q u a := by
  induction p generalizing v s with
  | ret b =>
    cases ok
    exact ⟨refl _,v,here,safe⟩
  | fail e => cases ok
  | get next ih => exact ih s.mem rfl (safe s.mem (sees _ _) fun _ _ => here.symm) ok
  | put m next ih =>
    obtain ⟨_,own,store,rest⟩ := safe
    obtain ⟨steps,final⟩ := ih rfl rest ok
    exact ⟨trans (here ▸ stores _ _ _ _ store) steps,final⟩
  | data b next ih =>
    simp only [run] at ok
    cases found : L.data b s.disk with
    | error e => rw [found] at ok; cases ok
    | ok d =>
      rw [found] at ok
      exact ih (v := ⟨v.mem,false,v.own⟩) d here (safe d) ok
  | read b next ih =>
    obtain ⟨d,_,ok⟩ := onDiskBind.mp ok
    exact ih (v := ⟨v.mem,false,D.take b v.own⟩) (s := ⟨d,s.mem⟩) here safe ok
  | set b e next ih | write b next ih =>
    obtain ⟨d,_,ok⟩ := onDiskBind.mp ok
    exact ih (v := ⟨v.mem,false,v.own⟩) (s := ⟨d,s.mem⟩) here safe ok
  | release b next ih =>
    obtain ⟨own,_,rest⟩ := safe
    obtain ⟨d,_,ok⟩ := onDiskBind.mp ok
    exact ih (v := ⟨v.mem,false,own⟩) (s := ⟨d,s.mem⟩) here rest ok

end Safe

section Leaves
variable (D : Discipline β κ γ)

structure Leaves {α : Type} (p : Prog β δ ε κ α) (own : γ) (post : α → γ) : Prop where
  safe : ∀ v : View κ γ, v.own = own → Safe D p v (fun u a => u.own = post a)

abbrev Neutral {α : Type} (p : Prog β δ ε κ α) : Prop := ∀ own, Leaves D p own (fun _ => own)

variable {D} {own : γ} {mid : α → γ} {post : η → γ}

theorem leavesPure {a post} (same : post a = own) : Leaves D (pure a : Prog β δ ε κ α) own post :=
  ⟨fun _ here => here.trans same.symm⟩

theorem leavesAbort {e : ε} {post : α → γ} : Leaves D (abort e : Prog β δ ε κ α) own post := ⟨fun _ _ => trivial⟩

theorem leavesBind (first : Leaves D p own mid) (rest : ∀ a, Leaves D (f a) (mid a) post) : Leaves D (p >>= f) own post :=
  ⟨fun v here => safeBind.mpr (safePost (fun u a left => (rest a).safe u left) (first.safe v here))⟩

theorem leavesThen (first : Neutral D p) (rest : ∀ a, Leaves D (f a) own post) : Leaves D (p >>= f) own post :=
  leavesBind (first own) rest

theorem neutralMemory : Neutral D (memory : Prog β δ ε κ κ) := fun _ => ⟨fun _ here _ _ _ => here⟩

theorem leavesLook {f : κ → Prog β δ ε κ η} (rest : ∀ k, D.sees k own → Safe D (f k) ⟨k,true,own⟩ (fun u a => u.own = post a)) :
    Leaves D (memory >>= f) own post := by
  refine ⟨fun v here k sees _ => ?_⟩
  rw [here] at sees ⊢
  exact rest k sees

theorem leavesChange {g : κ → κ} {own' : γ} (store : ∀ k, D.sees k own → D.store k (g k) own own') :
    Leaves D (memory >>= fun k => setMemory (g k) : Prog β δ ε κ Unit) own (fun _ => own') :=
  leavesLook fun k sees => ⟨rfl,own',store k sees,rfl⟩

theorem leavesRead {b : β} : Leaves D (readBlock b : Prog β δ ε κ Unit) own (fun _ => D.take b own) :=
  ⟨fun _ here => congrArg (D.take b) here⟩

theorem neutralData {b : β} : Neutral D (blockData b : Prog β δ ε κ δ) := fun _ => ⟨fun _ here _ => here⟩
theorem neutralSet {b : β} {d : δ} : Neutral D (setBlock b d : Prog β δ ε κ Unit) := fun _ => ⟨fun _ here => here⟩
theorem neutralWrite {b : β} : Neutral D (writeBlock b : Prog β δ ε κ Unit) := fun _ => ⟨fun _ here => here⟩

theorem leavesRelease {b : β} {own' : γ} (give : D.give b own own') : Leaves D (releaseBlock b : Prog β δ ε κ Unit) own (fun _ => own') :=
  ⟨fun _ here => ⟨own',here.symm ▸ give,rfl⟩⟩

end Leaves

end TskSw.Interference
