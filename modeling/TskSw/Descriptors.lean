import TskSw.Interleaving
import TskSw.Locking
import Mathlib.Data.Set.Card
import Mathlib.Algebra.Group.Pi.Lemmas

/-! Counts and slots of the descriptors while threads open, duplicate and close files and
come and go. A thread keeps a ledger: the entries its slots point to, and what the call it is
in has counted and not entered, or entered and not counted. -/
namespace TskSw.Descriptors
open BlockProgram Interference Interleaving BlkIo FsLayout FsKernel Inodes FsCalls Ownership Locking
open DataBlocks (smallImage)
open Function (update update_of_ne update_self)

abbrev Entry := Fin maxFdTableSize

instance : Inhabited Kernel := ⟨bootKernel [] []⟩

def points (slots : Nat → Option Entry) (f : Entry) : Nat := ((Finset.range thrFdsNr).filter (fun fd => slots fd = some f)).card

structure Ledger where
  self : Nat
  slots : Nat → Option Entry
  extra : Entry → Int
  sane : ∀ f, points slots f ≠ 0 ∨ extra f ≠ 0 → 0 < points slots f + extra f

def Ledger.share (own : Ledger) (f : Entry) : Int := points own.slots f + own.extra f

def Ledger.Mine (own : Ledger) (f : Entry) : Prop := points own.slots f ≠ 0 ∨ own.extra f ≠ 0

structure Sees (k : Kernel) (own : Ledger) : Prop where
  current : k.current = own.self
  fds : k.fds own.self = own.slots
  counts : ∀ f, own.Mine f → (k.file f).fCount = own.share f

structure Books (k m : Kernel) (own own' : Ledger) : Prop where
  self : own'.self = own.self
  fds : m.fds = update k.fds own.self own'.slots
  counts : ∀ f, (m.file f).fCount + own.share f = (k.file f).fCount + own'.share f
  free : ∀ f, own'.Mine f → own.Mine f ∨ (k.file f).fCount = 0

def ledger : Discipline Nat Kernel Ledger where
  store k m own own' := own' = own ∧ SameTables k m ∨ Books k m own own'
  take _ own := own
  give _ own own' := own' = own
  sees := Sees
  whole := False

instance : Caches ledger where
  keeps _ same := Or.inl ⟨rfl,fun f => by rw [same.file],same.fds,same.current⟩
  gives _ _ := rfl
  lock own _ := own
  swap _ _ _ := rfl
  edits _ same _ := Or.inl ⟨rfl,same⟩
  recycles _ _ same _ _ _ := Or.inl ⟨rfl,same⟩
  locks _ _ same _ _ _ := Or.inl ⟨rfl,same⟩
  unlocks _ _ same _ _ := Or.inl ⟨rfl,same⟩

variable {own x : Ledger} {f : Entry} {k m : Kernel} {u : Nat} {o : Option Ledger} {d : FileDescriptor} {α : Type} {path : List UInt8}
  {omode : BitVec 32} {a : α}

variable {fd : Nat} {owns : Nat → Option Ledger}

section Ledger
variable {slots : Nat → Option Entry} {g : Entry}

theorem pointsAt (small : fd < thrFdsNr) (here : slots fd = some f) : points slots f ≠ 0 :=
  Finset.card_ne_zero_of_mem (Finset.mem_filter.mpr ⟨Finset.mem_range.mpr small,here⟩)

theorem pointsUpdate (small : fd < thrFdsNr) (x : Option Entry) (g : Entry) :
    points (update slots fd x) g + (if slots fd = some g then 1 else 0) = points slots g + if x = some g then 1 else 0 := by
  have split : ∀ slots : Nat → Option Entry, points slots g =
      (((Finset.range thrFdsNr).erase fd).filter (fun fd => slots fd = some g)).card + if slots fd = some g then 1 else 0 := by
    intro slots
    conv_lhs => rw [points,← Finset.insert_erase (Finset.mem_range.mpr small),Finset.filter_insert]
    split
    · rw [Finset.card_insert_of_notMem (by simp)]
    · rfl
  have rest : ((Finset.range thrFdsNr).erase fd).filter (fun i => update slots fd x i = some g) =
      ((Finset.range thrFdsNr).erase fd).filter (fun i => slots i = some g) := by
    refine Finset.filter_congr fun i member => ?_
    rw [update_of_ne (Finset.ne_of_mem_erase member)]
  rw [split (update slots fd x),split slots,rest,update_self]
  omega

theorem shareMine (mine : own.Mine f) : 0 < own.share f := own.sane f mine

theorem shareOther (other : ¬ own.Mine f) : own.share f = 0 := by
  unfold Ledger.Mine at other
  unfold Ledger.share
  omega

theorem shareNonneg : 0 ≤ own.share f := by
  by_cases mine : own.Mine f
  · exact (shareMine mine).le
  · exact (shareOther mine).ge

end Ledger

structure Matches (k : Kernel) (owns : Nat → Option Ledger) : Prop where
  self : ∀ {t own}, owns t = some own → own.self = t ∧ k.fds t = own.slots
  counts : ∀ {t own f}, owns t = some own → own.Mine f → (k.file f).fCount = own.share f
  once : ∀ {t u own own' f}, owns t = some own → owns u = some own' → own.Mine f → own'.Mine f → t = u
  unused : ∀ {f}, (∀ t own, owns t = some own → ¬ own.Mine f) → (k.file f).fCount = 0

def enter (t : Nat) (k : Kernel) : Kernel := {k with current := t}

def born (t : Nat) (k : Kernel) : Kernel := {k with fds := update k.fds t (fun _ => none)}

section Matches
variable {t : Nat} {own' : Ledger}

theorem matchesSees (h : Matches k owns) (here : owns t = some own) : Sees (enter t k) own := by
  obtain ⟨rfl,fds⟩ := h.self here
  exact ⟨rfl,fds,fun f => h.counts here⟩

theorem matchesSame (h : Matches k owns) (counts : ∀ f, (m.file f).fCount = (k.file f).fCount) (fds : m.fds = k.fds) : Matches m owns where
  self here := by rw [fds]; exact h.self here
  counts here mine := by rw [counts]; exact h.counts here mine
  once := h.once
  unused none := by rw [counts]; exact h.unused none

theorem updated (here : update owns t o u = some x) : u = t ∧ o = some x ∨ u ≠ t ∧ owns u = some x := by
  by_cases same : u = t
  · rw [same,update_self] at here
    exact Or.inl ⟨same,here⟩
  · rw [update_of_ne same] at here
    exact Or.inr ⟨same,here⟩

theorem booksOthers (h : Matches k owns) (here : owns t = some own) (books : Books (enter t k) m own own')
    (there : owns u = some x) (apart : u ≠ t) (mine : x.Mine f) : ¬ own.Mine f ∧ ¬ own'.Mine f := by
  have not : ¬ own.Mine f := fun both => apart (h.once there here mine both)
  refine ⟨not,fun new => ?_⟩
  rcases books.free f new with both | zero
  · exact not both
  · have count : (k.file f).fCount = x.share f := h.counts there mine
    exact absurd (shareMine mine) (by rw [← count,show (k.file f).fCount = 0 from zero]; exact lt_irrefl 0)

theorem matchesBooks (h : Matches k owns) (here : owns t = some own) (books : Books (enter t k) m own own') :
    Matches m (update owns t (some own')) := by
  obtain ⟨rfl,fds⟩ := h.self here
  refine ⟨fun {u x} at_ => ?_,fun {u x f} at_ mine => ?_,fun {u w x y f} first second mine mine' => ?_,fun {f} none => ?_⟩
  · rw [books.fds]
    obtain ⟨rfl,same⟩ | ⟨apart,there⟩ := updated at_
    · cases same
      exact ⟨books.self,update_self ..⟩
    · rw [update_of_ne apart]
      exact h.self there
  · have sum := books.counts f
    obtain ⟨rfl,same⟩ | ⟨apart,there⟩ := updated at_
    · cases same
      by_cases before : own.Mine f
      · rw [show ((enter own.self k).file f).fCount = own.share f from h.counts here before] at sum
        omega
      · rw [shareOther before,(books.free f mine).resolve_left before] at sum
        omega
    · obtain ⟨not,not'⟩ := booksOthers h here books there apart mine
      rw [shareOther not,shareOther not',show ((enter own.self k).file f).fCount = x.share f from h.counts there mine] at sum
      omega
  · obtain ⟨rfl,same⟩ | ⟨apart,there⟩ := updated first
    · obtain ⟨rfl,same'⟩ | ⟨apart',there'⟩ := updated second
      · rfl
      · cases same
        exact absurd mine (booksOthers h here books there' apart' mine').2
    · obtain ⟨rfl,same'⟩ | ⟨apart',there'⟩ := updated second
      · cases same'
        exact absurd mine' (booksOthers h here books there apart mine).2
      · exact h.once there there' mine mine'
  · have not := none own.self own' (update_self ..)
    have sum := books.counts f
    rw [shareOther not] at sum
    by_cases before : own.Mine f
    · rw [show ((enter own.self k).file f).fCount = own.share f from h.counts here before] at sum
      omega
    · have zero : (k.file f).fCount = 0 := by
        refine h.unused fun u x there mine => ?_
        by_cases same : u = own.self
        · rw [same,here] at there
          cases there
          exact before mine
        · exact none u x (by rw [update_of_ne same]; exact there) mine
      rw [shareOther before,show ((enter own.self k).file f).fCount = 0 from zero] at sum
      omega

theorem matchesReplace (h : Matches k owns) (file : m.file = k.file) (fds : ∀ u, u ≠ t → m.fds u = k.fds u)
    (before : ∀ own, owns t = some own → ∀ f, ¬ own.Mine f)
    (now : ∀ own, o = some own → (∀ f, ¬ own.Mine f) ∧ own.self = t ∧ m.fds t = own.slots) : Matches m (update owns t o) := by
  refine ⟨fun {u x} at_ => ?_,fun {u x f} at_ mine => ?_,fun {u w x y f} first second mine mine' => ?_,fun {f} none => ?_⟩
  · obtain ⟨rfl,same⟩ | ⟨apart,there⟩ := updated at_
    · exact (now x same).2
    · rw [fds u apart]
      exact h.self there
  · obtain ⟨rfl,same⟩ | ⟨apart,there⟩ := updated at_
    · exact absurd mine ((now x same).1 f)
    · rw [file]
      exact h.counts there mine
  · obtain ⟨rfl,same⟩ | ⟨apart,there⟩ := updated first
    · exact absurd mine ((now x same).1 f)
    obtain ⟨rfl,same⟩ | ⟨apart',there'⟩ := updated second
    · exact absurd mine' ((now y same).1 f)
    · exact h.once there there' mine mine'
  · rw [file]
    refine h.unused fun u x there mine => ?_
    by_cases same : u = t
    · exact before x (same ▸ there) f mine
    · exact none u x (by rw [update_of_ne same]; exact there) mine

end Matches

section Books

theorem filesWith (g : Entry) : ((k.withFile f d).file g).fCount = if g = f then d.fCount else (k.file g).fCount := by
  by_cases here : g = f
  · simp [Kernel.withFile,here]
  · simp [Kernel.withFile,here]

theorem booksSlot (sees : Sees k own) (small : fd < thrFdsNr) (x : Option Entry) (new : ∀ g, x = some g → own.Mine g) : ∃ own',
    Books k {k with fds := update k.fds k.current (update (k.fds k.current) fd x)} own own' ∧
    own'.slots = update own.slots fd x ∧
    own'.extra = fun g => own.extra g + (if own.slots fd = some g then 1 else 0) - if x = some g then 1 else 0 := by
  have share : ∀ g, (points (update own.slots fd x) g : Int) +
    (own.extra g + (if own.slots fd = some g then 1 else 0) - if x = some g then 1 else 0) =
      own.share g := by
    intro g
    have sum := @pointsUpdate fd own.slots small x g
    unfold Ledger.share
    split_ifs at sum ⊢ <;> omega
  have mine : ∀ g, points (update own.slots fd x) g ≠ 0 ∨
      own.extra g + (if own.slots fd = some g then 1 else 0) - (if x = some g then 1 else 0) ≠ 0 → own.Mine g := by
    intro g some
    by_contra not
    have here : own.slots fd ≠ .some g := fun here => not (Or.inl (pointsAt small here))
    have there : x ≠ .some g := fun there => not (new g there)
    have sum := @pointsUpdate fd own.slots small x g
    unfold Ledger.Mine at not
    rw [if_neg here,if_neg there] at some sum
    omega
  refine ⟨⟨own.self,update own.slots fd x,fun g => own.extra g + (if own.slots fd = some g then 1 else 0) - if x = some g then 1 else 0,
    fun g some => ?_⟩,⟨rfl,?_,fun g => ?_,fun g some => Or.inl (mine g some)⟩,rfl,rfl⟩
  · rw [share]
    exact shareMine (mine g some)
  · dsimp only
    rw [sees.current,sees.fds]
  · exact congrArg _ (share g).symm

theorem booksCount (sees : Sees k own) {n : Int} (mine : own.Mine f ∨ (k.file f).fCount = 0)
    (sane : points own.slots f ≠ 0 ∨ own.extra f + n ≠ 0 → 0 < own.share f + n) (d : FileDescriptor)
    (count : d.fCount = (k.file f).fCount + n) : ∃ own',
      Books k (k.withFile f d) own own' ∧ own'.slots = own.slots ∧ own'.extra = own.extra + Pi.single f n := by
  have other : ∀ g, g ≠ f → (own.extra + Pi.single f n : Entry → Int) g = own.extra g := by
    intro g apart
    rw [Pi.add_apply,Pi.single_eq_of_ne apart,add_zero]
  have here : (own.extra + Pi.single f n : Entry → Int) f = own.extra f + n := by rw [Pi.add_apply,Pi.single_eq_same]
  refine ⟨⟨own.self,own.slots,own.extra + Pi.single f n,fun g some => ?_⟩,⟨rfl,?_,fun g => ?_,fun g some => ?_⟩,rfl,rfl⟩
  · by_cases at_ : g = f
    · rw [at_,here] at some ⊢
      rw [← add_assoc]
      exact sane some
    · rw [other g at_] at some ⊢
      exact own.sane g some
  · dsimp only [Kernel.withFile]
    rw [← sees.fds,Function.update_eq_self]
  · rw [filesWith]
    unfold Ledger.share
    dsimp only
    by_cases at_ : g = f
    · rw [if_pos at_,at_,here,count]
      omega
    · rw [if_neg at_,other g at_]
  · by_cases at_ : g = f
    · rw [at_]
      exact mine
    · unfold Ledger.Mine at some
      dsimp only at some
      rw [other g at_] at some
      exact Or.inl some

end Books

abbrev Body := Code Nat Block Fault Kernel Reply

def dropCount (f : Entry) : Fs FileDescriptor := do
  let k ← memory
  kassert (0 < (k.file f).fCount)
  editFile f (fun d => {d with fCount := d.fCount - 1})
  pure (k.file f)

def putLast (d : FileDescriptor) : Fs Unit := do
  if ¬ 0 < d.fCount - 1 then
    match d.fInode with
    | none => abort .nullPointer
    | some ip => inodePut ip

def claimSlot (f : Entry) (next : Option Nat → Body) : Body :=
  .free memory fun k =>
    match (List.range thrFdsNr).find? (fun fd => (k.fds k.current fd).isNone) with
    | none => next none
    | some fd => .free (setFd fd (some f)) fun _ => next (some fd)

def closing (f : Entry) (next : Body) : Body := .atomic (dropCount f) fun d => .free (putLast d) fun _ => next

def openCode (path : List UInt8) (omode : BitVec 32) : Body :=
  .free (openSource path omode) fun
    | none => .done (.code (-1))
    | some ip => .atomic fdtableAllocNewFd fun
      | none => .free (inodePutOut ip) fun rc => .done (.code rc)
      | some f => claimSlot f fun
        | none => closing f (.free (inodePutOut ip) fun rc => .done (.code rc))
        | some fd => .free (inodeUnlock ip) fun _ =>
            .free (editFile f (fun d => {d with fInode := some ip, fOffset := 0, fFlags := omode})) fun _ => .done (.code fd)

def dupCode (fd : Int) : Body :=
  .free (openFile fd) fun
    | .error rc => .done (.code rc)
    | .ok f => claimSlot f fun
      | none => .done (.code (-enoent))
      | some new => .atomic (fdtableDuplicateFd f) fun _ => .done (.code new)

def closeThen (fd : Int) (next : Int → Body) : Body :=
  .free (openFile fd) fun
    | .error rc => next rc
    | .ok f => .free (setFd fd.toNat none) fun _ => closing f (next 0)

def exitCode : List Nat → Body
  | [] => .done (.code 0)
  | fd :: rest => closeThen fd fun _ => exitCode rest

inductive Action where
  | fsOpen (path : List UInt8) (omode : BitVec 32)
  | fsDup (fd : Int)
  | fsClose (fd : Int)
  | exit

def code : Action → Body
  | .fsOpen path omode => openCode path omode
  | .fsDup fd => dupCode fd
  | .fsClose fd => closeThen fd fun rc => .done (.code rc)
  | .exit => exitCode (List.range maxFdTableSize)

def closeAll : List Nat → Fs Reply
  | [] => pure (.code 0)
  | fd :: rest => do
      let _ ← fsClose fd
      closeAll rest

def Action.prog : Action → Fs Reply
  | .fsOpen path omode => (Call.fsOpen path omode).prog
  | .fsDup fd => (Call.fsDup fd).prog
  | .fsClose fd => (Call.fsClose fd).prog
  | .exit => closeAll (List.range maxFdTableSize)

section Whole

theorem closingWhole (f : Entry) (next : Body) : (closing f next).whole = fdtableCloseFd f >>= fun _ => next.whole := by
  have halves : fdtableCloseFd f = dropCount f >>= putLast := by
    simp only [dropCount,bindAssoc,pureBind]
    rfl
  rw [halves,bindAssoc]
  rfl

theorem claimWhole (f : Entry) (next : Option Nat → Body) : (claimSlot f next).whole = allocNewFd f >>= fun r => (next r).whole := by
  rw [allocNewFd,bindAssoc]
  refine bind_congr fun k => ?_
  dsimp only
  cases (List.range thrFdsNr).find? (fun fd => (k.fds k.current fd).isNone) with
  | none => rfl
  | some fd => rfl

theorem closeWhole (fd : Int) (next : Int → Body) : (closeThen fd next).whole = fsClose fd >>= fun rc => (next rc).whole := by
  rw [fsClose,bindAssoc]
  refine bind_congr fun found => ?_
  cases found with
  | error rc => rfl
  | ok f =>
    dsimp only [Code.whole]
    rw [closingWhole,bindAssoc]
    refine bind_congr fun _ => ?_
    rw [bindAssoc]
    rfl

theorem exitWhole (list : List Nat) : (exitCode list).whole = closeAll list := by
  induction list with
  | nil => rfl
  | cons fd rest ih =>
    rw [exitCode,closeWhole]
    simp only [ih]
    rfl

theorem codeWhole (a : Action) : (code a).whole = a.prog := by
  cases a with
  | fsOpen path omode =>
    refine Eq.trans ?_ (bindAssoc ..).symm
    refine bind_congr fun found => ?_
    cases found with
    | none => rfl
    | some ip =>
      refine Eq.trans ?_ (bindAssoc ..).symm
      refine bind_congr fun made => ?_
      cases made with
      | none => rfl
      | some f =>
        refine (claimWhole _ _).trans (Eq.trans ?_ (bindAssoc ..).symm)
        refine bind_congr fun slot => ?_
        cases slot with
        | none =>
          refine (closingWhole _ _).trans (Eq.trans ?_ (bindAssoc ..).symm)
          rfl
        | some fd =>
          refine Eq.trans ?_ (bindAssoc ..).symm
          refine bind_congr fun _ => Eq.trans ?_ (bindAssoc ..).symm
          rfl
  | fsDup fd =>
    refine Eq.trans ?_ (bindAssoc ..).symm
    refine bind_congr fun found => ?_
    cases found with
    | error rc => rfl
    | ok f =>
      refine (claimWhole _ _).trans (Eq.trans ?_ (bindAssoc ..).symm)
      refine bind_congr fun slot => ?_
      cases slot with
      | none => rfl
      | some new =>
        refine Eq.trans ?_ (bindAssoc ..).symm
        rfl
  | fsClose fd => exact closeWhole fd _
  | exit => exact exitWhole _

end Whole

def setting : Setting Nat Action Nat Block Fault Kernel Reply where
  code := code
  last a := match a with | .exit => true | _ => false
  enter := enter
  born := born
  leeway := SameTables

def Failed : Reply → Prop
  | .code rc => rc < 0
  | _ => False

def after : Action → Ledger → Ledger → Reply → Prop
  | .exit,_,own,_ => own.extra = 0 ∧ ∀ fd < thrFdsNr, own.slots fd = none
  | _,before,own,r => own.extra = 0 ∧ (Failed r → own.slots = before.slots)

def account : Account setting ledger where
  inv := Matches
  rest own := own.extra = 0
  fresh t := ⟨t,fun _ => none,0,fun f some => absurd some (by simp [points])⟩
  after := after

section Safe
variable {R : Ledger → Reply → Prop}

theorem safeOpenFile {fd : Int} {next : Except Int Entry → Body}
    (wrong : ∀ rc < 0, (0 ≤ fd → fd.toNat < thrFdsNr → own.slots fd.toNat = none) → SafeCode ledger (next (.error rc)) own R)
    (found : ∀ f, fd.toNat < thrFdsNr → own.slots fd.toNat = some f → SafeCode ledger (next (.ok f)) own R) :
    SafeCode ledger (.free (openFile fd) next) own R := by
  unfold openFile
  split
  · exact ⟨⟨default,false,own⟩,rfl,wrong _ (by decide) (by omega)⟩
  rename_i inside
  refine safeLook fun k sees => ?_
  rw [sees.current,sees.fds]
  cases slot : own.slots fd.toNat with
  | none => exact wrong _ (by decide) fun _ _ => slot
  | some f => exact found f (by omega) slot

theorem safeSetFd {fd : Nat} {x : Option Entry} {next : Unit → Body} (small : fd < thrFdsNr) (new : ∀ g, x = some g → own.Mine g)
    (rest : ∀ own' : Ledger, own'.slots = update own.slots fd x →
      (own'.extra = fun g => own.extra g + (if own.slots fd = some g then 1 else 0) - if x = some g then 1 else 0) →
        SafeCode ledger (next ()) own' R) :
    SafeCode ledger (.free (setFd fd x) next) own R := by
  refine safeChange fun k sees => ?_
  obtain ⟨own',books,slots,extra⟩ := booksSlot sees small x new
  exact ⟨own',Or.inr books,rest own' slots extra⟩

theorem safeClaim {next : Option Nat → Body} (mine : own.Mine f) (full : SafeCode ledger (next none) own R)
    (claimed : ∀ fd (own' : Ledger), fd < thrFdsNr → own.slots fd = none → own'.slots = update own.slots fd (some f) →
      own'.extra = own.extra - Pi.single f 1 → SafeCode ledger (next (some fd)) own' R) : SafeCode ledger (claimSlot f next) own R := by
  refine ⟨⟨default,false,own⟩,rfl,fun k sees _ => ?_⟩
  change SafeCode ledger (match (List.range thrFdsNr).find? (fun fd => (k.fds k.current fd).isNone) with | none => next none | some fd => _) own R
  rw [sees.current,sees.fds]
  cases found : (List.range thrFdsNr).find? (fun fd => (own.slots fd).isNone) with
  | none => exact full
  | some fd =>
    have small : fd < thrFdsNr := List.mem_range.mp (List.mem_of_find?_eq_some found)
    have free : own.slots fd = none := by simpa using List.find?_some found
    refine safeSetFd small (fun g same => by cases same; exact mine) fun own' slots extra => claimed fd own' small free slots ?_
    rw [extra]
    funext g
    rw [free,if_neg (by simp),Pi.sub_apply,Pi.single_apply,add_zero]
    simp only [Option.some.injEq,eq_comm]

theorem allocAlone {r : Option Entry} (ran : alone fdtableAllocNewFd k = some (r,m)) :
    r = none ∧ m = k ∨ ∃ f, r = some f ∧ (k.file f).fCount = 0 ∧ m = k.withFile f {k.file f with fCount := 1} := by
  rw [fdtableAllocNewFd,aloneMemory] at ran
  split at ran
  · cases ran
    exact Or.inl ⟨rfl,rfl⟩
  · rename_i f found
    cases ran
    exact Or.inr ⟨f,rfl,by simpa using List.find?_some found,rfl⟩

theorem assertedAlone {cond : Prop} [Decidable cond] {p : Fs α} (ran : alone (kassert cond >>= fun _ => p) k = some (a,m)) :
    alone p k = some (a,m) := by
  unfold kassert at ran
  split at ran
  · exact ran
  · cases ran

theorem dropAlone (ran : alone (dropCount f) k = some (d,m)) :
    m = k.withFile f {k.file f with fCount := (k.file f).fCount - 1} := by
  have ran := assertedAlone (p := editFile f _ >>= fun _ => pure (k.file f)) ran
  cases ran
  rfl

theorem duplicateAlone {a : Unit} (ran : alone (fdtableDuplicateFd f) k = some (a,m)) :
    m = k.withFile f {k.file f with fCount := (k.file f).fCount + 1} := by
  have ran := assertedAlone (p := editFile f _) ran
  cases ran
  rfl

theorem neutralPutLast : Neutral ledger (putLast d) := by
  intro own
  unfold putLast
  split
  · split
    · exact leavesAbort
    · exact neutralPut own
  · exact leavesPure rfl

theorem safeClosing {next : Body} (extra : own.extra = Pi.single f 1) (rest : ∀ own' : Ledger, own'.slots = own.slots → own'.extra = 0 →
    SafeCode ledger next own' R) : SafeCode ledger (closing f next) own R := by
  intro k sees d m ran
  have one : own.extra f = 1 := by rw [extra,Pi.single_eq_same]
  obtain ⟨own',books,slots,extra'⟩ := booksCount (n := -1) sees (f := f) (Or.inl (Or.inr (by rw [one]; exact one_ne_zero)))
    (by unfold Ledger.share; omega) {k.file f with fCount := (k.file f).fCount - 1} rfl
  rw [dropAlone ran]
  refine ⟨own',Or.inr books,safeFree (neutralPutLast own') fun _ => rest own' slots ?_⟩
  rw [extra',extra,← Pi.single_add,add_neg_cancel,Pi.single_zero]

theorem safeOpen (rest : own.extra = 0) :
    SafeCode ledger (openCode path omode) own (fun own' r => own'.extra = 0 ∧ (Failed r → own'.slots = own.slots)) := by
  have out : ∀ (ip : Nat) (own' : Ledger), own'.slots = own.slots → own'.extra = 0 →
    SafeCode ledger (.free (inodePutOut ip) fun rc => .done (.code rc)) own'
      (fun own' r => own'.extra = 0 ∧ (Failed r → own'.slots = own.slots)) := by
    intro ip own' slots extra
    exact safeFree (leavesGiveBack (leavesPure rfl)) fun _ => ⟨extra,fun _ => slots⟩
  refine safeFree leavesOpenSource fun found => ?_
  cases found with
  | none => exact ⟨rest,fun _ => rfl⟩
  | some ip =>
    intro k (sees : Sees k own) made m ran
    obtain ⟨rfl,rfl⟩ | ⟨f,rfl,zero,rfl⟩ := allocAlone ran
    · exact ⟨own,Or.inl ⟨rfl,fun _ => rfl,rfl,rfl⟩,out ip own rfl rest⟩
    obtain ⟨own₁,books,slots,extra⟩ := booksCount (n := 1) sees (Or.inr zero) (fun _ => by have := @shareNonneg own f; omega)
      {k.file f with fCount := 1} (by rw [zero]; rfl)
    rw [rest,zero_add] at extra
    refine ⟨own₁,Or.inr books,safeClaim (Or.inr (by rw [extra,Pi.single_eq_same]; exact one_ne_zero)) ?_ ?_⟩
    · exact safeClosing extra fun own₂ same done => out ip own₂ (same.trans slots) done
    · intro fd own₂ _ _ _ extra₂
      have fill : Neutral ledger (editFile f (fun d => {d with fInode := some ip, fOffset := 0, fFlags := omode})) := neutralFile fun _ => rfl
      refine safeFree leavesUnlock fun _ => safeFree (fill own₂) fun _ => ⟨?_,fun failed => ?_⟩
      · rw [extra₂,extra,sub_self]
      · exact absurd failed (Int.not_lt.mpr (Int.natCast_nonneg fd))

theorem safeDup {fd : Int} (rest : own.extra = 0) :
    SafeCode ledger (dupCode fd) own (fun own' r => own'.extra = 0 ∧ (Failed r → own'.slots = own.slots)) := by
  refine safeOpenFile (fun rc _ _ => ⟨rest,fun _ => rfl⟩) fun f small here => safeClaim (Or.inl (pointsAt small here)) ⟨rest,fun _ => rfl⟩ ?_
  intro new own₁ _ _ _ extra k sees a m ran
  rw [rest,zero_sub] at extra
  obtain ⟨own₂,books,_,extra₂⟩ := booksCount (n := 1) (f := f) sees (Or.inl (Or.inr (by rw [extra]; simp)))
    (fun _ => by have := @shareNonneg own₁ f; omega) {k.file f with fCount := (k.file f).fCount + 1} rfl
  rw [duplicateAlone ran]
  refine ⟨own₂,Or.inr books,?_,fun failed => absurd failed (Int.not_lt.mpr (Int.natCast_nonneg new))⟩
  rw [extra₂,extra,neg_add_cancel]

theorem safeClose {fd : Int} {next : Int → Body} (extra : own.extra = 0)
    (wrong : ∀ rc < 0, (0 ≤ fd → fd.toNat < thrFdsNr → own.slots fd.toNat = none) → SafeCode ledger (next rc) own R)
    (closed : ∀ own' : Ledger, own'.extra = 0 → own'.slots = update own.slots fd.toNat none → SafeCode ledger (next 0) own' R) :
    SafeCode ledger (closeThen fd next) own R := by
  refine safeOpenFile wrong fun f small here => safeSetFd small (by simp) fun own₁ slots extra₁ => ?_
  refine safeClosing ?_ fun own₂ same done => closed own₂ done (same.trans slots)
  rw [extra₁,extra]
  funext g
  rw [here,if_neg (by simp : ¬ none = some g),Pi.single_apply]
  simp [eq_comm]

theorem safeExit {list : List Nat} (before : Ledger) (extra : own.extra = 0) (done : ∀ fd < thrFdsNr, fd ∉ list → own.slots fd = none) :
    SafeCode ledger (exitCode list) own (after .exit before) := by
  induction list generalizing own with
  | nil => exact ⟨extra,fun fd small => done fd small List.not_mem_nil⟩
  | cons fd rest ih =>
    refine safeClose extra (fun _ _ clear => ih extra fun i small out => ?_) fun own' extra' slots => ih extra' fun i small out => ?_
    · by_cases here : i = fd
      · rw [here] at small ⊢
        exact clear (Int.natCast_nonneg fd) small
      · exact done i small (by simp [here,out])
    · rw [slots,Int.toNat_natCast]
      by_cases here : i = fd
      · rw [here,update_self]
      · rw [update_of_ne here]
        exact done i small (by simp [here,out])

theorem safeCode (a : Action) (rest : own.extra = 0) : SafeCode ledger (code a) own (after a own) := by
  cases a with
  | exit =>
    have big : thrFdsNr < maxFdTableSize := by decide
    have every : ∀ fd < thrFdsNr, fd ∉ List.range maxFdTableSize → own.slots fd = none :=
      fun fd small out => (out (List.mem_range.mpr (small.trans big))).elim
    unfold code
    generalize List.range maxFdTableSize = list at every ⊢
    exact safeExit own rest every
  | fsOpen path omode => exact safeOpen rest
  | fsDup fd => exact safeDup rest
  | fsClose fd =>
    exact safeClose rest (fun _ _ _ => ⟨rest,fun _ => rfl⟩) fun own' extra _ => ⟨extra,fun failed => absurd failed (lt_irrefl 0)⟩

end Safe

theorem emptyLedger (extra : own.extra = 0) (slots : ∀ fd < thrFdsNr, own.slots fd = none) (f : Entry) : ¬ own.Mine f := by
  rintro (some | some)
  · obtain ⟨fd,member⟩ := Finset.card_pos.mp (Nat.pos_of_ne_zero some)
    obtain ⟨small,here⟩ := Finset.mem_filter.mp member
    rw [slots fd (Finset.mem_range.mp small)] at here
    cases here
  · exact some (congrFun extra f)

theorem lawful : Lawful account where
  loose := id
  sees := matchesSees
  store {k m owns t own own'} inv here store := by
    obtain ⟨rfl,same⟩ | books := store
    · rw [← here,Function.update_eq_self]
      exact matchesSame inv same.counts same.fds
    · exact matchesBooks inv here books
  take b inv here := by
    rw [show (some (ledger.take b _) : Option Ledger) = _ from here.symm,Function.update_eq_self]
    exact inv
  give b inv here same := by
    obtain rfl := same
    rw [← here,Function.update_eq_self]
    exact inv
  birth {k owns t} inv unborn := by
    refine matchesReplace inv rfl (fun u apart => update_of_ne apart ..) (fun own here => ?_) fun own same => ?_
    · rw [unborn] at here
      cases here
    · cases same
      exact ⟨emptyLedger rfl fun _ _ => rfl,rfl,update_self ..⟩
  newborn _ := rfl
  safe x own rest := safeCode x rest
  leeway inv same := matchesSame inv same.counts same.fds
  back {x before own r} done := by
    cases x with
    | fsOpen path omode | fsDup fd | fsClose fd | exit => exact done.1
  gone {k owns t x before own r} inv here done last := by
    cases x with
    | fsOpen path omode | fsDup fd | fsClose fd => cases last
    | exit =>
      refine matchesReplace inv rfl (fun _ _ => rfl) (fun x same => ?_) (fun x same => by cases same)
      rw [here] at same
      cases same
      exact emptyLedger done.1 done.2

def tabled : Discipline Nat Kernel Unit where
  store k m _ _ := SameTables k m
  take _ own := own
  give _ _ _ := True
  sees _ _ := True
  whole := False

instance : Caches tabled where
  keeps _ same := ⟨fun f => by rw [same.file],same.fds,same.current⟩
  gives _ _ := trivial
  lock own _ := own
  swap _ _ _ := rfl
  edits _ same _ := same
  recycles _ _ same _ _ _ := same
  locks _ _ same _ _ _ := same
  unlocks _ _ same _ _ := same

def BadFd (k : Kernel) (fd : Int) : Prop := 0 ≤ fd → fd < thrFdsNr → k.fds k.current fd.toNat = none

inductive Fails {σ : Type} (L : Layer σ Nat Block Fault) (s : World σ Kernel) : Call → Prop where
  | badDup {fd : Int} (bad : BadFd s.mem fd) : Fails L s (.fsDup fd)
  | badClose {fd : Int} (bad : BadFd s.mem fd) : Fails L s (.fsClose fd)
  | fullDup {fd : Int} (full : ∀ i < thrFdsNr, s.mem.fds s.mem.current i ≠ none) : Fails L s (.fsDup fd)
  | fullOpen {path : List UInt8} {omode : BitVec 32} {ip : Nat} {u : World σ Kernel} (full : ∀ f, (s.mem.file f).fCount ≠ 0)
      (found : run L (openSource path omode) s = .ok (some ip,u)) (busy : (u.mem.inode ip).busy = true) (linked : Linked (u.mem.inode ip)) :
      Fails L s (.fsOpen path omode)

section Failing
variable {σ : Type} {L : Layer σ Nat Block Fault} {s t : World σ Kernel} {rc : Int}

theorem sameTrans {l : Kernel} (h : SameTables k l) (g : SameTables l m) : SameTables k m :=
  ⟨fun f => (g.counts f).trans (h.counts f),g.fds.trans h.fds,g.current.trans h.current⟩

theorem sameRefl (k : Kernel) : SameTables k k := ⟨fun _ => rfl,rfl,rfl⟩

theorem tabledRun {p : Fs α} {post : α → Unit} (leaves : Leaves tabled p () post) (ok : run L p s = .ok (a,t)) : SameTables s.mem t.mem :=
  (safeRun sameRefl sameTrans (fun _ _ _ _ (store : tabled.store ..) => store) (fun _ _ => trivial)
    (v := ⟨s.mem,false,()⟩) rfl (leaves.safe _ rfl) ok).1

theorem closeBack {d : σ} {a : Unit} (zero : (k.file f).fCount = 0)
    (ok : run L (fdtableCloseFd f) ⟨d,k.withFile f {k.file f with fCount := 1}⟩ = .ok (a,t)) : SameTables k t.mem := by
  obtain ⟨_,_,look,ok⟩ := runCut ok
  cases look
  obtain ⟨_,u,assertion,ok⟩ := runCut ok
  rw [(runKassertOk assertion).2] at ok
  obtain ⟨_,v,edit,ok⟩ := runCut ok
  have back : SameTables k v.mem := by
    cases edit
    refine ⟨fun g => ?_,rfl,rfl⟩
    rw [filesWith,filesWith]
    split
    · rename_i here
      rw [here,zero]
      simp [Kernel.withFile]
    · rfl
  refine sameTrans back ?_
  split at ok
  · split at ok
    · cases ok
    · exact tabledRun (neutralPut ()) ok
  · cases ok
    exact sameRefl _

theorem failedOpen (ok : run L (fsOpen path omode) s = .ok (rc,t)) (failed : rc < 0) : SameTables s.mem t.mem := by
  have out : ∀ (ip : Nat) (u : World σ Kernel) (rc : Int), run L (inodePutOut ip) u = .ok (rc,t) → SameTables u.mem t.mem :=
    fun ip u rc => tabledRun (leavesGiveBack (leavesPure rfl) : Leaves tabled (inodePutOut ip) (Caches.lock tabled () ip) fun _ => ())
  obtain ⟨found,u,source,ok⟩ := runCut ok
  refine sameTrans (tabledRun leavesOpenSource source) ?_
  cases found with
  | none =>
    cases ok
    exact sameRefl _
  | some ip =>
    obtain ⟨made,v,alloc,ok⟩ := runCut ok
    obtain ⟨k,_,look,alloc⟩ := runCut alloc
    cases look
    split at alloc
    · cases alloc
      exact out ip _ rc ok
    rename_i f free
    have zero : (u.mem.file f).fCount = 0 := by simpa using List.find?_some free
    cases alloc
    obtain ⟨slot,w,claim,ok⟩ := runCut ok
    obtain ⟨k,_,look,claim⟩ := runCut claim
    cases look
    split at claim
    · cases claim
      obtain ⟨_,x,close,ok⟩ := runCut ok
      exact sameTrans (closeBack zero close) (out ip x rc ok)
    · cases claim
      obtain ⟨_,x,unlock,ok⟩ := runCut ok
      obtain ⟨_,y,fill,ok⟩ := runCut ok
      cases ok
      exact absurd failed (Int.not_lt.mpr (Int.natCast_nonneg _))

theorem failedDup {fd : Int} (ok : run L (fsDup fd) s = .ok (rc,t)) (failed : rc < 0) : SameTables s.mem t.mem := by
  obtain ⟨found,u,look,ok⟩ := runCut ok
  refine sameTrans (tabledRun (neutralOpenFile ()) look) ?_
  cases found with
  | error e =>
    cases ok
    exact sameRefl _
  | ok f =>
    obtain ⟨slot,v,claim,ok⟩ := runCut ok
    obtain ⟨k,_,look,claim⟩ := runCut claim
    cases look
    split at claim
    · cases claim
      cases ok
      exact sameRefl _
    · cases claim
      obtain ⟨_,w,_,ok⟩ := runCut ok
      cases ok
      exact absurd failed (Int.not_lt.mpr (Int.natCast_nonneg _))

theorem failedClose {fd : Int} (ok : run L (fsClose fd) s = .ok (rc,t)) (failed : rc < 0) : SameTables s.mem t.mem := by
  obtain ⟨found,u,look,ok⟩ := runCut ok
  cases found with
  | error e =>
    cases ok
    exact tabledRun (neutralOpenFile ()) look
  | ok f =>
    obtain ⟨_,v,_,ok⟩ := runCut ok
    obtain ⟨_,w,_,ok⟩ := runCut ok
    cases ok
    exact absurd failed (lt_irrefl 0)

theorem failedCall (c : Call) {r : Reply} (ok : run L c.prog s = .ok (r,t)) (failed : Failed r) : SameTables s.mem t.mem := by
  cases c with
  | fsOpen path omode =>
    obtain ⟨rc,u,first,ok⟩ := runCut ok
    cases ok
    exact failedOpen first failed
  | fsDup fd =>
    obtain ⟨rc,u,first,ok⟩ := runCut ok
    cases ok
    exact failedDup first failed
  | fsClose fd =>
    obtain ⟨rc,u,first,ok⟩ := runCut ok
    cases ok
    exact failedClose first failed
  | fsLink old new | fsUnlink path | fsRead fd counts | fsWrite fd src | fsLseek fd off whence | fsFstat fd =>
    refine tabledRun (neutralPlain ?_ ()) ok
    trivial

theorem openedBad {fd : Int} (bad : BadFd s.mem fd) : ∃ rc < 0, run L (openFile fd) s = .ok (.error rc,s) := by
  unfold openFile
  split
  · exact ⟨-einval,by decide,rfl⟩
  · rw [runBind,runMemory,followOk,bad (by omega) (by omega)]
    exact ⟨-ebadf,by decide,rfl⟩

theorem putOutRuns {ip : Nat} (busy : (s.mem.inode ip).busy = true) (linked : Linked (s.mem.inode ip)) :
    ∃ t, run L (inodePutOut ip) s = .ok (-1,t) := by
  rw [inodePutOut,runGiveBack busy linked]
  exact ⟨_,rfl⟩

theorem failingReturns {c : Call} (fails : Fails L s c) : ∃ r t, run L c.prog s = .ok (r,t) ∧ Failed r := by
  have wrong : ∀ {fd}, BadFd s.mem fd → ∃ r t, run L (Call.fsDup fd).prog s = .ok (r,t) ∧ Failed r := by
    intro fd bad
    obtain ⟨rc,negative,ran⟩ := openedBad (L := L) bad
    exact ⟨.code rc,s,(runBindOk L).mpr ⟨rc,s,(runBindOk L).mpr ⟨_,s,ran,rfl⟩,rfl⟩,negative⟩
  cases fails with
  | badDup bad => exact wrong bad
  | badClose bad =>
    obtain ⟨rc,negative,ran⟩ := openedBad (L := L) bad
    exact ⟨.code rc,s,(runBindOk L).mpr ⟨rc,s,(runBindOk L).mpr ⟨_,s,ran,rfl⟩,rfl⟩,negative⟩
  | @fullDup fd full =>
    by_cases bad : BadFd s.mem fd
    · exact wrong bad
    simp only [BadFd,not_forall] at bad
    obtain ⟨low,high,slot⟩ := bad
    obtain ⟨f,slot⟩ := Option.ne_none_iff_exists'.mp slot
    have none : (List.range thrFdsNr).find? (fun i => (s.mem.fds s.mem.current i).isNone) = none :=
      List.find?_eq_none.mpr fun i member => by simpa using full i (List.mem_range.mp member)
    refine ⟨.code (-enoent),s,?_,(by decide : -enoent < 0)⟩
    simp only [Call.prog,fsDup,openFile,allocNewFd,runBind,if_neg (show ¬ (fd < 0 ∨ (thrFdsNr : Int) ≤ fd) by omega),runMemory,followOk,slot,
      runPure,none]
  | @fullOpen path omode ip u full found busy linked =>
    have same := tabledRun leavesOpenSource found
    have none : (List.finRange maxFdTableSize).find? (fun f => (u.mem.file f).fCount == 0) = none :=
      List.find?_eq_none.mpr fun f _ => by simpa [same.counts f] using full f
    obtain ⟨t,ran⟩ := putOutRuns (L := L) busy linked
    refine ⟨.code (-1),t,(runBindOk L).mpr ⟨-1,t,(runBindOk L).mpr ⟨_,u,found,?_⟩,rfl⟩,(by decide : (-1 : Int) < 0)⟩
    refine (runBindOk L).mpr ⟨.none,u,?_,ran⟩
    rw [fdtableAllocNewFd,runBind,runMemory,followOk,none]
    rfl

end Failing

def start (console stack : List UInt8) : Pool Nat Action Nat Block Fault Kernel Reply := ⟨bootKernel console stack,fun _ => none⟩

def slotsTo (p : Pool Nat Action Nat Block Fault Kernel Reply) (f : Entry) : Set (Nat × Nat) :=
  {a | p.phase a.1 ≠ none ∧ a.2 < thrFdsNr ∧ p.mem.fds a.1 a.2 = some f}

section Slots
variable {p : Pool Nat Action Nat Block Fault Kernel Reply}

theorem startGood (console stack : List UInt8) : Good account (start console stack) :=
  ⟨fun _ => none,⟨by simp,by simp,by simp,fun _ => rfl⟩,fun _ => rfl⟩

variable (inv : Matches p.mem owns) (stands : ∀ t, Stands account t (p.phase t) (owns t))
include inv stands

theorem aliveOwns {t : Nat} (alive : p.phase t ≠ none) : ∃ own, owns t = some own ∧ p.mem.fds t = own.slots := by
  have here := stands t
  cases phase : p.phase t with
  | none => exact absurd phase alive
  | some a =>
    rw [phase] at here
    cases a with
    | rest =>
      obtain ⟨own,owned,_⟩ := here
      exact ⟨own,owned,(inv.self owned).2⟩
    | inside x since c =>
      obtain ⟨_,own,owned,_⟩ := here
      exact ⟨own,owned,(inv.self owned).2⟩

theorem slotOwned {a : Nat × Nat} (member : a ∈ slotsTo p f) : ∃ own, owns a.1 = some own ∧ own.Mine f := by
  obtain ⟨alive,small,here⟩ := member
  obtain ⟨own,owned,slots⟩ := aliveOwns inv stands alive
  rw [slots] at here
  exact ⟨own,owned,Or.inl (pointsAt small here)⟩

theorem slotsOnce {a b : Nat × Nat} (first : a ∈ slotsTo p f) (second : b ∈ slotsTo p f) : a.1 = b.1 := by
  obtain ⟨own,owned,mine⟩ := slotOwned inv stands first
  obtain ⟨own',owned',mine'⟩ := slotOwned inv stands second
  exact inv.once owned owned' mine mine'

theorem slotsUnused (zero : (p.mem.file f).fCount = 0) : slotsTo p f = ∅ := by
  refine Set.eq_empty_of_forall_notMem fun a member => ?_
  obtain ⟨own,owned,mine⟩ := slotOwned inv stands member
  rw [inv.counts owned mine] at zero
  exact absurd (shareMine mine) (by rw [zero]; exact lt_irrefl 0)

theorem slotsCount (quiet : ∀ t, p.phase t = none ∨ p.phase t = some .rest) : (p.mem.file f).fCount = ((slotsTo p f).ncard : Int) := by
  by_cases some : ∃ t own, owns t = .some own ∧ own.Mine f
  · obtain ⟨t,own,owned,mine⟩ := some
    have here := stands t
    have alive : p.phase t ≠ none := fun none => by
      rw [none,owned] at here
      cases here
    obtain ⟨own',owned',resting⟩ : ∃ own, owns t = .some own ∧ own.extra = 0 := by
      rw [(quiet t).resolve_left alive] at here
      exact here
    rw [owned] at owned'
    cases owned'
    have fds := (inv.self owned).2
    have image : slotsTo p f = (((Finset.range thrFdsNr).filter (fun fd => own.slots fd = .some f)).image (Prod.mk t) : Finset (Nat × Nat)) := by
      ext ⟨u,fd⟩
      simp only [Finset.coe_image,Finset.coe_filter,Finset.mem_range,Set.mem_image,Set.mem_ofPred_eq,Prod.mk.injEq]
      constructor
      · intro member
        obtain ⟨x,there,other⟩ := slotOwned inv stands member
        obtain rfl := inv.once owned there mine other
        exact ⟨fd,⟨member.2.1,by rw [← fds]; exact member.2.2⟩,rfl,rfl⟩
      · rintro ⟨_,⟨small,at_⟩,rfl,rfl⟩
        exact ⟨alive,small,by rw [fds]; exact at_⟩
    rw [inv.counts owned mine,image,Set.ncard_coe_finset,Finset.card_image_of_injective _ (Prod.mk_right_injective t),Ledger.share,resting]
    exact add_zero _
  · have zero := inv.unused fun t own owned mine => some ⟨t,own,owned,mine⟩
    rw [zero,slotsUnused inv stands zero,Set.ncard_empty]
    rfl

end Slots

theorem countsMatchSlots {console stack : List UInt8} {p : Pool Nat Action Nat Block Fault Kernel Reply}
    (reached : Reached setting (start console stack) p) :
    ((∀ t, p.phase t = none ∨ p.phase t = some .rest) → ∀ f, (p.mem.file f).fCount = ((slotsTo p f).ncard : Int)) ∧
    (∀ f, ∀ a ∈ slotsTo p f, ∀ b ∈ slotsTo p f, a.1 = b.1) ∧
    (∀ t f m, alone fdtableAllocNewFd (enter t p.mem) = some (some f,m) → slotsTo p f = ∅) ∧
    (∀ t a since r, p.phase t = some (.inside a since (.done r)) → a ≠ .exit → Failed r → p.mem.fds t = since.fds t ∧
      ∀ f, points (p.mem.fds t) f ≠ 0 → (p.mem.file f).fCount = (since.file f).fCount) ∧
    ∀ {σ : Type} (L : Layer σ Nat Block Fault) (c : Call) (s : World σ Kernel),
      (∀ s' r, run L c.prog s = .ok (r,s') → Failed r → s'.mem.fds = s.mem.fds ∧ ∀ f, (s'.mem.file f).fCount = (s.mem.file f).fCount) ∧
      (Fails L s c → ∃ r s', run L c.prog s = .ok (r,s') ∧ Failed r) := by
  obtain ⟨owns,inv,stands⟩ := reachedGood lawful (startGood console stack) reached
  refine ⟨fun quiet f => slotsCount inv stands quiet,fun f a first b second => slotsOnce inv stands first second,fun t f m ran => ?_,
    fun t a since r here call failed => ?_,fun L c s => ⟨fun s' r ok failed => ?_,failingReturns⟩⟩
  · obtain ⟨none,_⟩ | ⟨_,same,zero,_⟩ := allocAlone ran
    · cases none
    · cases same
      exact slotsUnused inv stands zero
  · have stood := stands t
    rw [here] at stood
    obtain ⟨before,own,owned,rested,saw,done⟩ := stood
    obtain ⟨extra,slots⟩ : own.extra = 0 ∧ (Failed r → own.slots = before.slots) := by
      cases a with
      | fsOpen path omode | fsDup fd | fsClose fd => exact done
      | exit => exact absurd rfl call
    have self : t = before.self := saw.current
    have fds := (inv.self owned).2
    have slots := slots failed
    have earlier : since.fds t = before.slots := by rw [self]; exact saw.fds
    refine ⟨by rw [fds,slots,earlier],fun f some => ?_⟩
    rw [fds] at some
    have mine : own.Mine f := Or.inl some
    have mine' : before.Mine f := Or.inl (by rw [← slots]; exact some)
    have count : (since.file f).fCount = before.share f := saw.counts f mine'
    rw [inv.counts owned mine,count,Ledger.share,Ledger.share,slots,extra,show before.extra = 0 from rested]
  · have same := failedCall c ok failed
    exact ⟨same.fds,same.counts⟩

theorem badDescriptor : ∃ p since, Reached setting (start [] []) p ∧ p.phase 0 = some (.inside (.fsDup (-1)) since (.done (.code (-einval)))) ∧
    p.mem.fds 0 = since.fds 0 := by
  have first := Reached.step .start (Step.birth (S := setting) (p := start [] []) 0 rfl)
  have second := Reached.step first (.call 0 (.fsDup (-1)) rfl)
  have third := Reached.step second (.move 0 rfl .piece)
  exact ⟨_,_,third,rfl,((countsMatchSlots third).2.2.2.1 0 (.fsDup (-1)) _ _ rfl nofun (by decide : -einval < 0)).1⟩

def fillSlots : Nat → Fs Unit
  | 0 => pure ()
  | n+1 => do
      let _ ← fsDup 0
      fillSlots n

def filled : Fs Bool := do
  let _ ← fsOpen [slash] oRdonly
  fillSlots (thrFdsNr - 1)
  let k ← memory
  pure ((List.range thrFdsNr).all fun fd => (k.fds k.current fd).isSome)

theorem fullSlotsStop : (∃ w, run cacheLayer filled ⟨boot smallImage 64,bootKernel [] []⟩ = .ok (true,w)) ∧
    fault (run cacheLayer (do let _ ← filled; fsOpen [slash] oRdonly) ⟨boot smallImage 64,bootKernel [] []⟩) = some .nullPointer := by
  refine ⟨resultOk ?_,?_⟩
  · rw [(smallRun (by decide) _ _).1]
    decide +kernel
  · rw [(smallRun (by decide) _ _).2]
    decide +kernel

end TskSw.Descriptors
