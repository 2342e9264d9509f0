import TskSw.Inodes
import TskSw.Tally

/-! The inode cache of `fs/inode.c` under any number of threads. A thread switches anywhere;
only one of them is between `mutex_hold` and `mutex_release` of `icache.mtx`. The waiters of
an inode are queued and popped under the mutex; the reason of a wakeup is always
`WQUE_REASON_WAKEUP`. -/
namespace TskSw.InodeThreads
open FsLayout FsKernel Inodes Tally
open BlkIo (Fault)
open Function (update update_of_ne update_self)

inductive Job where
  | get (dev : BitVec 64) (inum : BitVec 32)
  | duplicate (ip : Nat)
  | put (ip : Nat)
  | finish (ip : Nat)
  | lock (ip : Nat)
  | unlock (ip : Nat)

inductive Pc where
  | idle
  | hold (job : Job)
  | work (job : Job)
  | enqueued (ip : Nat)
  | asleep (ip : Nat)
  | reading (ip : Nat)
  | dropping (ip : Nat)
  | truncating (ip : Nat)
  | waking (ip : Nat) (put : Bool)
  | counting (ip : Nat)
  | leaving (result : Option Nat)

structure Machine (τ : Type) where
  inode : Nat → Inode
  waiters : Nat → List τ
  mtx : Option τ
  pc : τ → Pc
  refs : List (τ × Nat)
  locks : List (τ × Nat)

inductive Action (τ : Type) where
  | call (t : τ) (job : Job)
  | go (t : τ) (d : DInode)
  | give (t u : τ) (ip : Nat)
  | relink (t : τ) (ip : Nat) (iNlink : BitVec 64)

variable {inode inode' : Nat → Inode} {i : Nat} {x : Inode} {dev : BitVec 64} {inum : BitVec 32}

variable {τ : Type} {ip : Nat} {p : Pc} {refs refs' locks locks' : List (τ × Nat)} {t : τ} {m m' : Machine τ}

section Functions
variable [DecidableEq τ]

def Machine.goto (m : Machine τ) (t : τ) (p : Pc) : Machine τ := {m with pc := update m.pc t p}

def Machine.edit (m : Machine τ) (ip : Nat) (x : Inode) : Machine τ := {m with inode := update m.inode ip x}

def Machine.refer (m : Machine τ) (t : τ) (ip : Nat) (x : Inode) : Machine τ := {m.edit ip x with refs := (t,ip) :: m.refs}

def Machine.unrefer (m : Machine τ) (t : τ) (ip : Nat) (x : Inode) : Machine τ := {m.edit ip x with refs := m.refs.erase (t,ip)}

def Machine.lock (m : Machine τ) (t : τ) (ip : Nat) (x : Inode) : Machine τ := {m.edit ip x with locks := (t,ip) :: m.locks}

def Machine.unlock (m : Machine τ) (t : τ) (ip : Nat) (x : Inode) : Machine τ := {m.edit ip x with locks := m.locks.erase (t,ip)}

def findOrTake (t : τ) (m : Machine τ) (dev : BitVec 64) (inum : BitVec 32) : Except Fault (Machine τ) :=
  match lookupSlot m.inode dev inum with
  | some i => .ok ((m.refer t i {m.inode i with ref := (m.inode i).ref + 1}).goto t (.leaving (some i)))
  | none =>
    match emptySlot m.inode with
    | none => .error .assertion
    | some i => .ok ((m.refer t i {m.inode i with iDev := dev, inum := inum, ref := 1, busy := false, valid := false}).goto t (.leaving (some i)))

def work (t : τ) (m : Machine τ) : Job → Except Fault (Machine τ)
  | .get dev inum => findOrTake t m dev inum
  | .duplicate ip => .ok ((m.refer t ip {m.inode ip with ref := (m.inode ip).ref + 1}).goto t (.leaving (some ip)))
  | .put ip =>
    let x := m.inode ip
    if x.ref = 1 ∧ x.valid = true ∧ x.iNlink = 0 then
      if x.busy then .error .assertion else .ok ((m.lock t ip {x with busy := true}).goto t (.dropping ip))
    else .ok (m.goto t (.counting ip))
  | .finish ip => .ok ((m.unlock t ip {m.inode ip with busy := false, valid := false}).goto t (.waking ip true))
  | .lock ip =>
    let x := m.inode ip
    if x.busy then .ok ({m with waiters := update m.waiters ip (m.waiters ip ++ [t])}.goto t (.enqueued ip))
    else .ok ((m.lock t ip {x with busy := true}).goto t (.reading ip))
  | .unlock ip =>
    let x := m.inode ip
    if x.busy then .ok ((m.unlock t ip {x with busy := false}).goto t (.waking ip false)) else .error .assertion

def go (t : τ) (d : DInode) (m : Machine τ) : Except Fault (Machine τ) :=
  match m.pc t with
  | .idle => .ok m
  | .hold job => .ok (if m.mtx = none then {m with mtx := some t}.goto t (.work job) else m)
  | .work job => work t m job
  | .enqueued ip => .ok ({m with mtx := none}.goto t (.asleep ip))
  | .asleep ip => .ok (if t ∈ m.waiters ip then m else m.goto t (.hold (.lock ip)))
  | .reading ip =>
    let x := m.inode ip
    .ok ((if x.valid then m else m.edit ip (x.load d)).goto t (.leaving none))
  | .dropping ip => .ok ({m with mtx := none}.goto t (.truncating ip))
  | .truncating ip => .ok (m.goto t (.hold (.finish ip)))
  | .waking ip put => .ok ({m with waiters := update m.waiters ip []}.goto t (if put then .counting ip else .leaving none))
  | .counting ip => .ok ((m.unrefer t ip {m.inode ip with ref := (m.inode ip).ref - 1}).goto t (.leaving none))
  | .leaving _ => .ok ({m with mtx := none}.goto t .idle)

def call (t : τ) (job : Job) (m : Machine τ) : Except Fault (Machine τ) :=
  match job with
  | .lock ip => if 0 < (m.inode ip).ref then .ok (m.goto t (.hold job)) else .error .assertion
  | _ => .ok (m.goto t (.hold job))

def step : Action τ → Machine τ → Except Fault (Machine τ)
  | .call t job,m => call t job m
  | .go t d,m => go t d m
  | .give t u ip,m => .ok {m with refs := (u,ip) :: m.refs.erase (t,ip)}
  | .relink _ ip iNlink,m => .ok (m.edit ip {m.inode ip with iNlink := iNlink})

def start (inode : Nat → Inode) : Machine τ := ⟨inode,fun _ => [],none,fun _ => .idle,[],[]⟩

def Spare (refs locks : List (τ × Nat)) (t : τ) (ip : Nat) : Prop := (t,ip) ∈ refs ∧ ((t,ip) ∈ locks → 2 ≤ refs.count (t,ip))

-- A thread puts and duplicates what it has a reference to, unlocks what it locked, and has a
-- reference while it locks; at most `ninode` inodes are referenced.
def Legal (m : Machine τ) : Action τ → Prop
  | .call t job => m.pc t = .idle ∧
    match job with
    | .get _ _ => True
    | .duplicate ip | .lock ip => (t,ip) ∈ m.refs
    | .put ip => Spare m.refs m.locks t ip
    | .finish _ => False
    | .unlock ip => (t,ip) ∈ m.locks
  | .go t _ => ∀ dev inum, m.pc t = .work (.get dev inum) → (∃ i, lookupSlot m.inode dev inum = some i) ∨ ∃ j < ninode, (m.inode j).ref = 0
  | .give t _ ip => m.pc t = .idle ∧ Spare m.refs m.locks t ip
  | .relink t ip _ => (t,ip) ∈ m.locks

inductive Reached : Machine τ → Prop where
  | start {inode : Nat → Inode} (unused : ∀ i, (inode i).ref = 0 ∧ (inode i).busy = false) : Reached (start inode)
  | step {a : Action τ} {m m' : Machine τ} (before : Reached m) (legal : Legal m a) (next : step a m = .ok m') : Reached m'

def Pc.inside : Pc → Bool
  | .idle | .hold _ | .asleep _ | .truncating _ => false
  | _ => true

def Facts (refs locks : List (τ × Nat)) (t : τ) : Pc → Prop
  | .hold (.lock ip) | .work (.lock ip) | .enqueued ip | .asleep ip | .hold (.duplicate ip) | .work (.duplicate ip) => (t,ip) ∈ refs
  | .hold (.unlock ip) | .work (.unlock ip) | .reading ip | .dropping ip | .truncating ip | .hold (.finish ip) | .work (.finish ip) =>
    (t,ip) ∈ locks
  | .hold (.put ip) | .work (.put ip) | .waking ip true | .counting ip => Spare refs locks t ip
  | _ => True

end Functions

section Invariant
variable [DecidableEq τ]

structure Counts (inode : Nat → Inode) (refs : List (τ × Nat)) : Prop where
  ref : ∀ i, (inode i).ref = tally i refs
  inside : ∀ t i, (t,i) ∈ refs → i < ninode
  keys : ∀ i j, 0 < (inode i).ref → 0 < (inode j).ref → (inode i).iDev = (inode j).iDev → (inode i).inum = (inode j).inum → i = j

structure Locked (inode : Nat → Inode) (refs locks : List (τ × Nat)) : Prop where
  busy : ∀ i, (inode i).busy = true ↔ ∃ t, (t,i) ∈ locks
  single : ∀ i t u, (t,i) ∈ locks → (u,i) ∈ locks → t = u
  nodup : locks.Nodup
  held : ∀ t i, (t,i) ∈ locks → (t,i) ∈ refs

structure Places (mtx : Option τ) (pc : τ → Pc) (refs locks : List (τ × Nat)) : Prop where
  mutex : ∀ t, mtx = some t ↔ (pc t).inside = true
  facts : ∀ t, Facts refs locks t (pc t)

structure Queues (inode : Nat → Inode) (waiters : Nat → List τ) (pc : τ → Pc) : Prop where
  queued : ∀ i t, t ∈ waiters i → pc t = .enqueued i ∨ pc t = .asleep i
  stranded : ∀ i, waiters i ≠ [] → (inode i).busy = true ∨ ∃ t put, pc t = .waking i put

structure Inv (m : Machine τ) : Prop where
  counts : Counts m.inode m.refs
  locked : Locked m.inode m.refs m.locks
  places : Places m.mtx m.pc m.refs m.locks
  queues : Queues m.inode m.waiters m.pc

end Invariant

section Counting
variable [DecidableEq τ]

omit [DecidableEq τ] in
theorem countsEdit {x} (h : Counts inode refs) (ref : x.ref = (inode i).ref) (dev : x.iDev = (inode i).iDev)
    (inum : x.inum = (inode i).inum) : Counts (update inode i x) refs := by
  have same : ∀ j, (update inode i x j).ref = (inode j).ref ∧ (update inode i x j).iDev = (inode j).iDev ∧
      (update inode i x j).inum = (inode j).inum := by
    intro j
    by_cases here : j = i
    · subst here
      simp [ref,dev,inum]
    · simp [here]
  refine ⟨fun j => (same j).1.trans (h.ref j),h.inside,fun j k usedJ usedK sameDev sameInum => ?_⟩
  rw [(same _).1] at usedJ usedK
  rw [(same _).2.1,(same _).2.1] at sameDev
  rw [(same _).2.2,(same _).2.2] at sameInum
  exact h.keys j k usedJ usedK sameDev sameInum

omit [DecidableEq τ] in
theorem countsSet {refs' : List (τ × Nat)} (h : Counts inode refs) (ref : x.ref = tally i refs')
    (others : ∀ j, j ≠ i → tally j refs' = tally j refs) (inside : ∀ t j, (t,j) ∈ refs' → j < ninode)
    (key : 0 < x.ref → 0 < (inode i).ref ∧ x.iDev = (inode i).iDev ∧ x.inum = (inode i).inum ∨
      ∀ j, 0 < (inode j).ref → (inode j).iDev = x.iDev → (inode j).inum ≠ x.inum) : Counts (update inode i x) refs' := by
  have apart : ∀ j, j ≠ i → 0 < x.ref → 0 < (inode j).ref → (inode j).iDev = x.iDev → (inode j).inum = x.inum → False := by
    intro j other used usedJ dev inum
    rcases key used with ⟨before,sameDev,sameInum⟩ | fresh
    · exact other (h.keys j i usedJ before (dev.trans sameDev) (inum.trans sameInum))
    · exact fresh j usedJ dev inum
  refine ⟨fun j => ?_,inside,fun j k usedJ usedK dev inum => ?_⟩
  · by_cases here : j = i
    · subst here
      simpa using ref
    · simpa [here,others j here] using h.ref j
  · by_cases hereJ : j = i <;> by_cases hereK : k = i
    · rw [hereJ,hereK]
    · subst hereJ
      simp only [update_self,update_of_ne hereK] at usedJ usedK dev inum
      exact (apart k hereK usedJ usedK dev.symm inum.symm).elim
    · subst hereK
      simp only [update_self,update_of_ne hereJ] at usedJ usedK dev inum
      exact (apart j hereJ usedK usedJ dev inum).elim
    · simp only [update_of_ne hereJ,update_of_ne hereK] at usedJ usedK dev inum
      exact h.keys j k usedJ usedK dev inum

omit [DecidableEq τ] in
theorem countsMore (h : Counts inode refs) (t) (used : 0 < (inode i).ref) (inside : i < ninode) (ref : x.ref = (inode i).ref + 1)
    (dev : x.iDev = (inode i).iDev) (inum : x.inum = (inode i).inum) : Counts (update inode i x) ((t,i) :: refs) := by
  refine countsSet h ?_ (fun j other => by simp [tallyCons,Ne.symm other]) (fun u j member => ?_) fun _ => Or.inl ⟨used,dev,inum⟩
  · rw [ref,h.ref,tallyCons,if_pos rfl]
    rfl
  · rcases List.mem_cons.mp member with same | member
    · cases same
      exact inside
    · exact h.inside u j member

theorem countsLess (h : Counts inode refs) (member : (t,i) ∈ refs) (ref : x.ref = (inode i).ref - 1)
    (dev : x.iDev = (inode i).iDev) (inum : x.inum = (inode i).inum) : Counts (update inode i x) (refs.erase (t,i)) := by
  have before := tallyErase i member
  rw [if_pos rfl] at before
  have used := h.ref i
  refine countsSet h ?_ (fun j other => ?_) (fun u j inside => h.inside u j (List.mem_of_mem_erase inside)) fun _ => Or.inl ⟨by omega,dev,inum⟩
  · rw [ref,used,before]
    omega
  · rw [tallyErase j member,if_neg (Ne.symm other)]
    rfl

end Counting

section Locking

theorem lockedEdit (h : Locked inode refs locks) (busy : x.busy = (inode i).busy) : Locked (update inode i x) refs locks := by
  refine ⟨fun j => ?_,h.single,h.nodup,h.held⟩
  by_cases here : j = i
  · subst here
    simpa [busy] using h.busy j
  · simpa [here] using h.busy j

theorem lockedRefs (h : Locked inode refs locks) (held : ∀ t i, (t,i) ∈ locks → (t,i) ∈ refs') : Locked inode refs' locks :=
  ⟨h.busy,h.single,h.nodup,held⟩

theorem lockedTake (h : Locked inode refs locks) (free : (inode i).busy = false) (member : (t,i) ∈ refs) (busy : x.busy = true) :
    Locked (update inode i x) refs ((t,i) :: locks) := by
  have nobody : ∀ u, (u,i) ∉ locks := fun u inside => by
    rw [(h.busy i).mpr ⟨u,inside⟩] at free
    cases free
  refine ⟨fun j => ?_,fun j u v first second => ?_,List.nodup_cons.mpr ⟨nobody t,h.nodup⟩,fun u j inside => ?_⟩
  · by_cases here : j = i
    · subst here
      simp [busy]
    · simpa [here] using h.busy j
  · rcases List.mem_cons.mp first with same | first <;> rcases List.mem_cons.mp second with same' | second
    · cases same
      cases same'
      rfl
    · cases same
      exact absurd second (nobody v)
    · cases same'
      exact absurd first (nobody u)
    · exact h.single j u v first second
  · rcases List.mem_cons.mp inside with same | inside
    · cases same
      exact member
    · exact h.held u j inside

variable [DecidableEq τ]

theorem lockedDrop (h : Locked inode refs locks) (member : (t,i) ∈ locks) (free : x.busy = false) :
    Locked (update inode i x) refs (locks.erase (t,i)) ∧ ∀ u, (u,i) ∉ locks.erase (t,i) := by
  have gone : ∀ u, (u,i) ∉ locks.erase (t,i) := fun u inside => by
    have same := h.single i u t (List.mem_of_mem_erase inside) member
    subst same
    exact (List.Nodup.mem_erase_iff h.nodup).mp inside |>.1 rfl
  refine ⟨⟨fun j => ?_,fun j u v first second => h.single j u v (List.mem_of_mem_erase first) (List.mem_of_mem_erase second),h.nodup.erase _,
    fun u j inside => h.held u j (List.mem_of_mem_erase inside)⟩,gone⟩
  by_cases here : j = i
  · subst here
    simpa [free] using gone
  · rw [update_of_ne here,h.busy j]
    refine exists_congr fun u => ?_
    rw [List.mem_erase_of_ne]
    exact fun same => here (Prod.mk.inj same).2

end Locking

section Moving
variable [DecidableEq τ] {mtx mtx' : Option τ} {pc : τ → Pc}

structure Keeps (refs refs' locks locks' : List (τ × Nat)) (u : τ) : Prop where
  ref : ∀ i, (u,i) ∈ refs → (u,i) ∈ refs'
  lock : ∀ i, (u,i) ∈ locks ↔ (u,i) ∈ locks'
  count : ∀ i, refs.count (u,i) ≤ refs'.count (u,i)

theorem keepsRefl (refs locks : List (τ × Nat)) (u) : Keeps refs refs locks locks u := ⟨fun _ => id,fun _ => Iff.rfl,fun _ => Nat.le_refl _⟩

theorem keepsRefCons {u} (i : Nat) (refs locks : List (τ × Nat)) : Keeps refs ((t,i) :: refs) locks locks u :=
  ⟨fun _ => List.mem_cons_of_mem _,fun _ => Iff.rfl,fun _ => List.count_le_count_cons⟩

theorem keepsRefErase {u : τ} (other : u ≠ t) (i : Nat) (refs locks : List (τ × Nat)) : Keeps refs (refs.erase (t,i)) locks locks u := by
  have apart : ∀ j, (u,j) ≠ (t,i) := fun j same => other (Prod.mk.inj same).1
  exact ⟨fun j => (List.mem_erase_of_ne (apart j)).mpr,fun _ => Iff.rfl,fun j => by rw [List.count_erase_of_ne (apart j)]⟩

theorem keepsLockCons {u : τ} (other : u ≠ t) (i : Nat) (refs locks : List (τ × Nat)) : Keeps refs refs locks ((t,i) :: locks) u := by
  refine ⟨fun _ => id,fun j => ?_,fun _ => Nat.le_refl _⟩
  rw [List.mem_cons]
  exact ⟨Or.inr,fun found => found.resolve_left fun same => other (Prod.mk.inj same).1⟩

theorem keepsLockErase {u : τ} (other : u ≠ t) (i : Nat) (refs locks : List (τ × Nat)) : Keeps refs refs locks (locks.erase (t,i)) u := by
  refine ⟨fun _ => id,fun j => ?_,fun _ => Nat.le_refl _⟩
  rw [List.mem_erase_of_ne]
  exact fun same => other (Prod.mk.inj same).1

theorem spareKeeps {u : τ} (h : Spare refs locks u i) (keeps : Keeps refs refs' locks locks' u) : Spare refs' locks' u i :=
  ⟨keeps.ref i h.1,fun locked => Nat.le_trans (h.2 ((keeps.lock i).mpr locked)) (keeps.count i)⟩

theorem factsKeep {u : τ} (h : Facts refs locks u p) (keeps : Keeps refs refs' locks locks' u) : Facts refs' locks' u p := by
  cases p with
  | idle | leaving => trivial
  | hold job | work job =>
    cases job with
    | get => trivial
    | duplicate ip | lock ip => exact keeps.ref ip h
    | put ip => exact spareKeeps h keeps
    | finish ip | unlock ip => exact (keeps.lock ip).mp h
  | enqueued ip | asleep ip => exact keeps.ref ip h
  | reading ip | dropping ip | truncating ip => exact (keeps.lock ip).mp h
  | waking ip put =>
    cases put with
    | false => trivial
    | true => exact spareKeeps h keeps
  | counting ip => exact spareKeeps h keeps

theorem placesMove (h : Places mtx pc refs locks) (mine : Facts refs' locks' t p) (mutex : mtx' = some t ↔ p.inside = true)
    (others : ∀ u, u ≠ t → (mtx' = some u ↔ mtx = some u)) (keeps : ∀ u, u ≠ t → Keeps refs refs' locks locks' u) :
    Places mtx' (update pc t p) refs' locks' := by
  refine ⟨fun u => ?_,fun u => ?_⟩ <;> by_cases same : u = t
  · subst same
    simpa using mutex
  · rw [update_of_ne same,others u same]
    exact h.mutex u
  · subst same
    simpa using mine
  · rw [update_of_ne same]
    exact factsKeep (h.facts u) (keeps u same)

theorem placesStay (h : Places mtx pc refs locks) (before : (pc t).inside = true) (after : p.inside = true) (mine : Facts refs' locks' t p)
    (keeps : ∀ u, u ≠ t → Keeps refs refs' locks locks' u) : Places mtx (update pc t p) refs' locks' :=
  placesMove h mine (iff_of_true ((h.mutex t).mpr before) after) (fun _ _ => Iff.rfl) keeps

theorem placesRelease (h : Places mtx pc refs locks) (before : (pc t).inside = true) (after : p.inside = false) (mine : Facts refs locks t p) :
    Places none (update pc t p) refs locks := by
  refine placesMove h mine (by simp [after]) (fun u other => ?_) fun u _ => keepsRefl refs locks u
  rw [(h.mutex t).mpr before]
  simpa using fun same => other same.symm

theorem placesOutside (h : Places mtx pc refs locks) (before : (pc t).inside = false) (after : p.inside = false) (mine : Facts refs locks t p) :
    Places mtx (update pc t p) refs locks := by
  refine placesMove h mine ?_ (fun _ _ => Iff.rfl) fun u _ => keepsRefl refs locks u
  rw [h.mutex t,before,after]

variable {waiters waiters' : Nat → List τ}

theorem queuesMove (h : Queues inode waiters pc) (p)
    (queued : ∀ i u, u ∈ waiters' i → u ∈ waiters i ∧ u ≠ t ∨ u = t ∧ (p = .enqueued i ∨ p = .asleep i))
    (stranded : ∀ i, waiters' i ≠ [] → (inode' i).busy = true ∨ (∃ put, p = .waking i put) ∨ ∃ u put, u ≠ t ∧
      pc u = .waking i put) :
    Queues inode' waiters' (update pc t p) := by
  refine ⟨fun i u member => ?_,fun i some => ?_⟩
  · rcases queued i u member with ⟨before,other⟩ | ⟨rfl,place⟩
    · rw [update_of_ne other]
      exact h.queued i u before
    · simpa using place
  · rcases stranded i some with busy | ⟨put,same⟩ | ⟨u,put,other,wakes⟩
    · exact Or.inl busy
    · exact Or.inr ⟨t,put,by simp [same]⟩
    · exact Or.inr ⟨u,put,by rw [update_of_ne other]; exact wakes⟩

end Moving

section Steps
variable [DecidableEq τ]

theorem insideAlone (h : Inv m) (mine : (m.pc t).inside = true) {u} (yours : (m.pc u).inside = true) : u = t :=
  Option.some.inj (((h.places.mutex u).mpr yours).symm.trans ((h.places.mutex t).mpr mine))

theorem notQueued (h : Inv m) (enqueued : ∀ i, m.pc t ≠ .enqueued i) (asleep : ∀ i, m.pc t ≠ .asleep i) (i) : t ∉ m.waiters i :=
  fun member => (h.queues.queued i t member).elim (enqueued i) (asleep i)

theorem strandedInside (h : Inv m) (inside : (m.pc t).inside = true) (some : m.waiters i ≠ []) :
    (m.inode i).busy = true ∨ ∃ put, m.pc t = .waking i put := by
  refine (h.queues.stranded i some).imp_right fun ⟨u,put,wakes⟩ => ⟨put,?_⟩
  rwa [← insideAlone h inside (u := u) (by rw [wakes]; rfl)]

theorem queuesInside (h : Inv m) (inside : (m.pc t).inside = true) (awake : ∀ i put, m.pc t ≠ .waking i put)
    (free : ∀ i, t ∉ m.waiters i) (stay : ∀ i, m.waiters i ≠ [] → (m.inode i).busy = true → (inode' i).busy = true ∨
      ∃ put, p = .waking i put) :
    Queues inode' m.waiters (update m.pc t p) := by
  refine queuesMove h.queues p (fun i u member => Or.inl ⟨member,fun same => free i (same ▸ member)⟩) fun i some => ?_
  rcases strandedInside h inside some with busy | ⟨put,wakes⟩
  · exact (stay i some busy).imp id Or.inl
  · exact absurd wakes (awake i put)

theorem queuesOutside (h : Inv m) (outside : (m.pc t).inside = false) (free : ∀ i, t ∉ m.waiters i) :
    Queues m.inode m.waiters (update m.pc t p) := by
  refine queuesMove h.queues p (fun i u member => Or.inl ⟨member,fun same => free i (same ▸ member)⟩) fun i some => ?_
  rcases h.queues.stranded i some with busy | ⟨u,put,wakes⟩
  · exact Or.inl busy
  · refine Or.inr (Or.inr ⟨u,put,fun same => ?_,wakes⟩)
    subst same
    rw [wakes] at outside
    cases outside

theorem busyEdit {i} (busy : x.busy = (inode i).busy) (j) :
    (update inode i x j).busy = (inode j).busy := by
  by_cases here : j = i
  · subst here
    simp [busy]
  · simp [here]

structure Active (m : Machine τ) (t : τ) : Prop where
  inside : (m.pc t).inside = true
  awake : ∀ i put, m.pc t ≠ .waking i put
  free : ∀ i, t ∉ m.waiters i

theorem workActive {job} (h : Inv m) (place : m.pc t = .work job) : Active m t :=
  ⟨by rw [place]; rfl,fun _ _ => by rw [place]; nofun,notQueued h (fun _ => by rw [place]; nofun) fun _ => by rw [place]; nofun⟩

theorem moveInv (h : Inv m) (active : Active m t) (inside : p.inside = true) (facts : Facts m.refs m.locks t p) : Inv (m.goto t p) :=
  ⟨h.counts,h.locked,placesStay h.places active.inside inside facts fun u _ => keepsRefl m.refs m.locks u,
    queuesInside h active.inside active.awake active.free fun _ _ busy => Or.inl busy⟩

theorem referInv (h : Inv m) (active : Active m t) (counts : Counts (update m.inode i x) ((t,i) :: m.refs))
    (busy : x.busy = (m.inode i).busy) : Inv ((m.refer t i x).goto t (.leaving (some i))) := by
  refine ⟨counts,lockedRefs (lockedEdit h.locked busy) fun u j inside => List.mem_cons_of_mem _ (h.locked.held u j inside),
    placesStay h.places active.inside rfl trivial fun _ _ => keepsRefCons i m.refs m.locks,
    queuesInside h active.inside active.awake active.free fun j _ before => Or.inl ?_⟩
  exact (busyEdit busy j).trans before

theorem getInv (h : Inv m) (place : m.pc t = .work (.get dev inum))
    (room : (∃ i, lookupSlot m.inode dev inum = some i) ∨ ∃ j < ninode, (m.inode j).ref = 0) :
    ∃ m', findOrTake t m dev inum = .ok m' ∧ Inv m' := by
  have active := workActive h place
  cases hit : lookupSlot m.inode dev inum with
  | some i =>
    obtain ⟨low,used,_⟩ := lookupFound hit
    have ran : findOrTake t m dev inum = .ok ((m.refer t i {m.inode i with ref := (m.inode i).ref + 1}).goto t (.leaving (some i))) := by
      unfold findOrTake
      rw [hit]
    exact ⟨_,ran,referInv h active (countsMore h.counts t used low rfl rfl rfl) rfl⟩
  | none =>
    obtain ⟨i,empty⟩ : ∃ i, emptySlot m.inode = some i := by
      rcases room with ⟨i,found⟩ | ⟨j,low,zero⟩
      · rw [hit] at found
        cases found
      · exact emptySome low zero
    obtain ⟨low,zero⟩ := emptyFound empty
    have unused : tally i m.refs = 0 := by
      have := h.counts.ref i
      omega
    have idle : (m.inode i).busy = false := by
      by_contra busy
      obtain ⟨u,locked⟩ := (h.locked.busy i).mp (by simpa using busy)
      have := tallyPos (h.locked.held u i locked)
      omega
    have ran : findOrTake t m dev inum = .ok ((m.refer t i {m.inode i with iDev := dev, inum := inum, ref := 1, busy := false, valid := false}).goto t
        (.leaving (some i))) := by
      unfold findOrTake
      rw [hit]
      dsimp only
      rw [empty]
    refine ⟨_,ran,referInv h active (countsSet h.counts ?_ (fun j other => by simp [tallyCons,Ne.symm other]) (fun u j member => ?_)
      fun _ => Or.inr fun j used => lookupNone hit j ?_ used) idle.symm⟩
    · rw [tallyCons,unused,if_pos rfl]
      rfl
    · rcases List.mem_cons.mp member with same | member
      · cases same
        exact low
      · exact h.counts.inside u j member
    · rw [h.counts.ref j] at used
      obtain ⟨u,member⟩ := tallySome (Int.natCast_pos.mp used)
      exact h.counts.inside u j member

theorem refUsed (h : Inv m) (member : (t,ip) ∈ m.refs) : 0 < (m.inode ip).ref := by
  rw [h.counts.ref ip]
  exact Int.natCast_pos.mpr (tallyPos member)

theorem heldErase (h : Inv m) (spare : Spare m.refs m.locks t ip) {u j} (locked : (u,j) ∈ m.locks) : (u,j) ∈ m.refs.erase (t,ip) := by
  by_cases same : (u,j) = (t,ip)
  · rw [same] at locked ⊢
    have two := spare.2 locked
    rw [← List.count_pos_iff,List.count_erase_self]
    omega
  · exact (List.mem_erase_of_ne same).mpr (h.locked.held u j locked)

theorem busyShared (h : Inv m) (spare : Spare m.refs m.locks t ip) (busy : (m.inode ip).busy = true) : (m.inode ip).ref ≠ 1 := by
  obtain ⟨u,locked⟩ := (h.locked.busy ip).mp busy
  have count := tallyErase ip spare.1
  rw [if_pos rfl] at count
  have := tallyPos (heldErase h spare locked)
  have := h.counts.ref ip
  omega

theorem lockInv {x} (h : Inv m) (active : Active m t) (member : (t,ip) ∈ m.refs) (idle : (m.inode ip).busy = false)
    (same : x = {m.inode ip with busy := true}) (inside : p.inside = true) (facts : Facts m.refs ((t,ip) :: m.locks) t p) :
    Inv ((m.lock t ip x).goto t p) := by
  subst same
  refine ⟨countsEdit h.counts rfl rfl rfl,lockedTake h.locked idle member rfl,
    placesStay h.places active.inside inside facts fun _ other => keepsLockCons other ip m.refs m.locks,
    queuesInside h active.inside active.awake active.free fun j _ busy => Or.inl ?_⟩
  have other : j ≠ ip := fun same => by
    rw [same,idle] at busy
    cases busy
  show (update m.inode ip _ j).busy = true
  rwa [update_of_ne other]

theorem unlockInv {x put} (h : Inv m) (active : Active m t) (member : (t,ip) ∈ m.locks) (ref : x.ref = (m.inode ip).ref)
    (dev : x.iDev = (m.inode ip).iDev) (inum : x.inum = (m.inode ip).inum) (idle : x.busy = false) :
    Inv ((m.unlock t ip x).goto t (.waking ip put)) := by
  obtain ⟨locked,gone⟩ := lockedDrop h.locked member idle
  have facts : Facts m.refs (m.locks.erase (t,ip)) t (.waking ip put) := by
    cases put with
    | false => trivial
    | true => exact ⟨h.locked.held t ip member,fun again => absurd again (gone t)⟩
  refine ⟨countsEdit h.counts ref dev inum,locked,
    placesStay h.places active.inside rfl facts fun _ other => keepsLockErase other ip m.refs m.locks,
    queuesInside h active.inside active.awake active.free fun j _ busy => ?_⟩
  by_cases here : j = ip
  · subst here
    exact Or.inr ⟨put,rfl⟩
  · refine Or.inl ?_
    show (update m.inode ip x j).busy = true
    rwa [update_of_ne here]

theorem enqueueInv (h : Inv m) (active : Active m t) (member : (t,ip) ∈ m.refs) (busy : (m.inode ip).busy = true) :
    Inv ({m with waiters := update m.waiters ip (m.waiters ip ++ [t])}.goto t (.enqueued ip)) := by
  refine ⟨h.counts,h.locked,placesStay h.places active.inside rfl member fun u _ => keepsRefl m.refs m.locks u,
    queuesMove h.queues _ (fun i u queued => ?_) fun i some => ?_⟩
  · dsimp only [Machine.goto] at queued
    by_cases here : i = ip
    · subst here
      rw [update_self,List.mem_append,List.mem_singleton] at queued
      rcases queued with queued | same
      · exact Or.inl ⟨queued,fun same => active.free i (same ▸ queued)⟩
      · exact Or.inr ⟨same,Or.inl rfl⟩
    · rw [update_of_ne here] at queued
      exact Or.inl ⟨queued,fun same => active.free i (same ▸ queued)⟩
  · dsimp only [Machine.goto] at some
    by_cases here : i = ip
    · subst here
      exact Or.inl busy
    · rw [update_of_ne here] at some
      rcases strandedInside h active.inside some with still | ⟨put,wakes⟩
      · exact Or.inl still
      · exact absurd wakes (active.awake i put)

theorem workInv {job} (h : Inv m) (place : m.pc t = .work job)
    (room : ∀ dev inum, job = .get dev inum → (∃ i, lookupSlot m.inode dev inum = some i) ∨ ∃ j < ninode, (m.inode j).ref = 0) :
    ∃ m', work t m job = .ok m' ∧ Inv m' := by
  have active := workActive h place
  have facts := h.places.facts t
  rw [place] at facts
  cases job with
  | get dev inum =>
    unfold work
    exact getInv h place (room dev inum rfl)
  | duplicate ip =>
    exact ⟨_,rfl,referInv h active (countsMore h.counts t (refUsed h facts) (h.counts.inside t ip facts) rfl rfl rfl) rfl⟩
  | put ip =>
    by_cases last : (m.inode ip).ref = 1 ∧ (m.inode ip).valid = true ∧ (m.inode ip).iNlink = 0
    · have idle : (m.inode ip).busy = false := by
        by_contra busy
        exact busyShared h facts (by simpa using busy) last.1
      exact ⟨_,(if_pos last).trans (if_neg (by simp [idle])),lockInv (p := .dropping ip) h active facts.1 idle rfl rfl List.mem_cons_self⟩
    · exact ⟨_,if_neg last,moveInv h active rfl facts⟩
  | finish ip => exact ⟨_,rfl,unlockInv h active facts rfl rfl rfl rfl⟩
  | lock ip =>
    cases busy : (m.inode ip).busy with
    | true =>
      exact ⟨_,if_pos busy,enqueueInv h active facts busy⟩
    | false =>
      exact ⟨_,if_neg (by simp [busy]),lockInv (p := .reading ip) h active facts busy rfl rfl List.mem_cons_self⟩
  | unlock ip =>
    refine ⟨_,if_pos ((h.locked.busy ip).mpr ⟨t,facts⟩),unlockInv h active facts rfl rfl rfl rfl⟩

theorem releaseInv (h : Inv m) (active : Active m t) (outside : p.inside = false) (facts : Facts m.refs m.locks t p) :
    Inv ({m with mtx := none}.goto t p) :=
  ⟨h.counts,h.locked,placesRelease h.places active.inside outside facts,
    queuesInside h active.inside active.awake active.free fun _ _ busy => Or.inl busy⟩

theorem sleepInv (h : Inv m) (place : m.pc t = .enqueued ip) : Inv ({m with mtx := none}.goto t (.asleep ip)) := by
  have facts := h.places.facts t
  rw [place] at facts
  have inside : (m.pc t).inside = true := by rw [place]; rfl
  refine ⟨h.counts,h.locked,placesRelease h.places inside rfl facts,queuesMove h.queues _ (fun i u queued => ?_) fun i some => ?_⟩
  · by_cases same : u = t
    · subst same
      refine Or.inr ⟨rfl,Or.inr ?_⟩
      rcases h.queues.queued i u queued with here | here <;> (rw [place] at here; cases here)
      rfl
    · exact Or.inl ⟨queued,same⟩
  · rcases strandedInside h inside some with still | ⟨put,wakes⟩
    · exact Or.inl still
    · rw [place] at wakes
      cases wakes

theorem wakeInv {put} (h : Inv m) (place : m.pc t = .waking ip put) :
    Inv ({m with waiters := update m.waiters ip []}.goto t (if put then .counting ip else .leaving none)) := by
  have facts := h.places.facts t
  rw [place] at facts
  have inside : (m.pc t).inside = true := by rw [place]; rfl
  have awake : ∀ i, t ∉ m.waiters i := notQueued h (fun _ => by rw [place]; nofun) fun _ => by rw [place]; nofun
  refine ⟨h.counts,h.locked,placesStay h.places inside (by cases put <;> rfl) ?_ fun u _ => keepsRefl m.refs m.locks u,
    queuesMove h.queues _ (fun i u queued => ?_) fun i some => ?_⟩
  · cases put with
    | true => exact facts
    | false => trivial
  · dsimp only [Machine.goto] at queued
    by_cases here : i = ip
    · subst here
      simp at queued
    · rw [update_of_ne here] at queued
      exact Or.inl ⟨queued,fun same => awake i (same ▸ queued)⟩
  · dsimp only [Machine.goto] at some
    by_cases here : i = ip
    · subst here
      simp at some
    · rw [update_of_ne here] at some
      rcases strandedInside h inside some with still | ⟨again,wakes⟩
      · exact Or.inl still
      · rw [place] at wakes
        cases wakes
        exact absurd rfl here

theorem enterInv {job} (h : Inv m) (place : m.pc t = .hold job) (free : m.mtx = none) : Inv ({m with mtx := some t}.goto t (.work job)) := by
  have facts := h.places.facts t
  rw [place] at facts
  have awake : ∀ i, t ∉ m.waiters i := notQueued h (fun _ => by rw [place]; nofun) fun _ => by rw [place]; nofun
  refine ⟨h.counts,h.locked,placesMove h.places (by cases job <;> exact facts) (iff_of_true rfl rfl) (fun u other => ?_)
    fun u _ => keepsRefl m.refs m.locks u,queuesOutside h (by rw [place]; rfl) awake⟩
  rw [free]
  exact iff_of_false (fun same => other (Option.some.inj same).symm) nofun

theorem outsideInv (h : Inv m) (before : (m.pc t).inside = false) (awake : ∀ i, t ∉ m.waiters i) (after : p.inside = false)
    (facts : Facts m.refs m.locks t p) : Inv (m.goto t p) :=
  ⟨h.counts,h.locked,placesOutside h.places before after facts,queuesOutside h before awake⟩

theorem editInv (h : Inv m) (ref : x.ref = (m.inode ip).ref) (dev : x.iDev = (m.inode ip).iDev) (inum : x.inum = (m.inode ip).inum)
    (busy : x.busy = (m.inode ip).busy) : Inv (m.edit ip x) := by
  refine ⟨countsEdit h.counts ref dev inum,lockedEdit h.locked busy,h.places,h.queues.queued,fun i some => ?_⟩
  refine (h.queues.stranded i some).imp_left fun before => ?_
  exact (busyEdit busy i).trans before

theorem unreferInv (h : Inv m) (active : Active m t) (spare : Spare m.refs m.locks t ip)
    (same : x = {m.inode ip with ref := (m.inode ip).ref - 1}) : Inv ((m.unrefer t ip x).goto t (.leaving none)) := by
  have busy : x.busy = (m.inode ip).busy := by rw [same]
  refine ⟨countsLess h.counts spare.1 (by rw [same]) (by rw [same]) (by rw [same]),
    lockedRefs (lockedEdit h.locked busy) fun _ _ locked => heldErase h spare locked,
    placesStay h.places active.inside rfl trivial fun _ other => keepsRefErase other ip m.refs m.locks,
    queuesInside h active.inside active.awake active.free fun j _ before => Or.inl ?_⟩
  exact (busyEdit busy j).trans before

theorem goInv (h : Inv m) (d : DInode) (legal : Legal m (.go t d)) : ∃ m', go t d m = .ok m' ∧ Inv m' := by
  have facts := h.places.facts t
  have active : (m.pc t).inside = true → (∀ i, m.pc t ≠ .enqueued i) → (∀ i put, m.pc t ≠ .waking i put) → Active m t :=
    fun inside queued awake => ⟨inside,awake,notQueued h queued fun i place => by rw [place] at inside; cases inside⟩
  unfold go
  cases place : m.pc t <;> rw [place] at facts active
  case idle => exact ⟨m,rfl,h⟩
  case hold job =>
    by_cases free : m.mtx = none
    · exact ⟨_,congrArg Except.ok (if_pos free),enterInv h place free⟩
    · exact ⟨_,congrArg Except.ok (if_neg free),h⟩
  case work job => exact workInv h place fun dev inum same => legal dev inum (place.trans (congrArg Pc.work same))
  case enqueued ip => exact ⟨_,rfl,sleepInv h place⟩
  case asleep ip =>
    by_cases queued : t ∈ m.waiters ip
    · exact ⟨_,congrArg Except.ok (if_pos queued),h⟩
    · refine ⟨_,congrArg Except.ok (if_neg queued),outsideInv h (by rw [place]; rfl) (fun i member => ?_) rfl facts⟩
      rcases h.queues.queued i t member with here | here <;> (rw [place] at here; cases here)
      exact queued member
  case reading ip =>
    have active := active rfl nofun nofun
    refine ⟨_,rfl,?_⟩
    split
    · exact moveInv h active rfl trivial
    · exact moveInv (editInv h rfl rfl rfl rfl) ⟨active.inside,active.awake,active.free⟩ rfl trivial
  case dropping ip => exact ⟨_,rfl,releaseInv h (active rfl nofun nofun) rfl facts⟩
  case truncating ip =>
    exact ⟨_,rfl,outsideInv h (by rw [place]; rfl) (notQueued h (fun _ => by rw [place]; nofun) fun _ => by rw [place]; nofun) rfl facts⟩
  case waking ip put => exact ⟨_,rfl,wakeInv h place⟩
  case counting ip => exact ⟨_,rfl,unreferInv h (active rfl nofun nofun) facts rfl⟩
  case leaving result => exact ⟨_,rfl,releaseInv h (active rfl nofun nofun) rfl trivial⟩

theorem callInv {job} (h : Inv m) (legal : Legal m (.call t job)) : ∃ m', call t job m = .ok m' ∧ Inv m' := by
  obtain ⟨idle,legal⟩ := legal
  have inv : Facts m.refs m.locks t (.hold job) → Inv (m.goto t (.hold job)) :=
    outsideInv h (by rw [idle]; rfl) (notQueued h (fun _ => by rw [idle]; nofun) fun _ => by rw [idle]; nofun) rfl
  cases job with
  | get dev inum => exact ⟨_,rfl,inv trivial⟩
  | duplicate ip | put ip | unlock ip => exact ⟨_,rfl,inv legal⟩
  | finish ip => exact legal.elim
  | lock ip => exact ⟨_,if_pos (refUsed h legal),inv legal⟩

theorem giveInv {u : τ} (h : Inv m) (idle : m.pc t = .idle) (spare : Spare m.refs m.locks t ip) :
    Inv {m with refs := (u,ip) :: m.refs.erase (t,ip)} := by
  have count : ∀ j, tally j ((u,ip) :: m.refs.erase (t,ip)) = tally j m.refs := fun j => by rw [tallyCons,← tallyErase j spare.1]
  refine ⟨⟨fun j => ?_,fun v j member => ?_,h.counts.keys⟩,lockedRefs h.locked fun _ _ locked =>
    List.mem_cons_of_mem _ (heldErase h spare locked),
    ⟨h.places.mutex,fun v => ?_⟩,h.queues⟩
  · rw [count]
    exact h.counts.ref j
  · rcases List.mem_cons.mp member with same | member
    · cases same
      exact h.counts.inside t ip spare.1
    · exact h.counts.inside v j (List.mem_of_mem_erase member)
  · by_cases same : v = t
    · subst same
      rw [idle]
      trivial
    · exact factsKeep (factsKeep (h.places.facts v) (keepsRefErase same ip m.refs m.locks)) (keepsRefCons ip _ m.locks)

theorem stepInv {a} (h : Inv m) (legal : Legal m a) : ∃ m', step a m = .ok m' ∧ Inv m' := by
  cases a with
  | call t job => exact callInv h legal
  | go t d => exact goInv h d legal
  | give t u ip => exact ⟨_,rfl,giveInv h legal.1 legal.2⟩
  | relink t ip iNlink => exact ⟨_,rfl,editInv h rfl rfl rfl rfl⟩

theorem reachedInv (run : Reached m) : Inv m := by
  induction run with
  | @start inode unused =>
    refine ⟨⟨fun i => (unused i).1,nofun,fun i j used => ?_⟩,⟨fun i => ?_,nofun,List.nodup_nil,nofun⟩,
      ⟨fun _ => iff_of_false nofun nofun,fun _ => trivial⟩,
      ⟨nofun,fun i absurd' => absurd rfl absurd'⟩⟩
    · exact absurd used (Int.not_lt.mpr (Int.le_of_eq (unused i).1))
    · exact iff_of_false (fun busy => absurd ((unused i).2.symm.trans busy) nofun) nofun
  | step before legal next ih =>
    obtain ⟨m',ran,inv⟩ := stepInv ih legal
    cases ran.symm.trans next
    exact inv

theorem locksExclude (run : Reached m) :
    (∀ i t u, (t,i) ∈ m.locks → (u,i) ∈ m.locks → t = u) ∧
    (∀ t i, m.pc t = .truncating i → (t,i) ∈ m.locks) ∧
    (∀ i, (m.inode i).busy = true ↔ ∃ t, (t,i) ∈ m.locks) ∧
    (∀ a, Legal m a → ∃ m', step a m = .ok m') ∧
    (m.mtx = none → ∀ i, m.waiters i ≠ [] → (m.inode i).busy = true) := by
  have h := reachedInv run
  refine ⟨h.locked.single,fun t i place => ?_,h.locked.busy,fun a legal => ?_,fun free i some => ?_⟩
  · have facts := h.places.facts t
    rw [place] at facts
    exact facts
  · obtain ⟨m',ran,_⟩ := stepInv h legal
    exact ⟨m',ran⟩
  · rcases h.queues.stranded i some with busy | ⟨t,put,wakes⟩
    · exact busy
    · have mine := (h.places.mutex t).mpr (by rw [wakes]; rfl)
      rw [free] at mine
      cases mine

end Steps

section Keys
variable [DecidableEq τ]

def key (x : Inode) : BitVec 64 × BitVec 32 := (x.iDev,x.inum)

theorem keyEdit {inode x} (same : key x = key (inode ip)) (i) : key (update inode ip x i) = key (inode i) := by
  by_cases here : i = ip
  · subst here
    simp [same]
  · simp [here]

theorem findOrTakeKey (used : (m.inode i).ref ≠ 0) (next : findOrTake t m dev inum = .ok m') :
    key (m'.inode i) = key (m.inode i) := by
  unfold findOrTake at next
  split at next
  · cases next
    refine keyEdit ?_ i
    rfl
  · split at next
    · cases next
    case _ j empty =>
      cases next
      have other : i ≠ j := fun same => used (same ▸ (emptyFound empty).2)
      exact congrArg key (update_of_ne other _ _)

theorem findOrTakeHit {dev inum} (h : Inv m) (used : 0 < (m.inode i).ref) (same : key (m.inode i) = (dev,inum))
    (next : findOrTake t m dev inum = .ok m') : m'.pc t = .leaving (some i) := by
  obtain ⟨sameDev,sameInum⟩ := Prod.mk.inj same
  cases hit : lookupSlot m.inode dev inum with
  | some j =>
    obtain ⟨_,usedJ,devJ,inumJ⟩ := lookupFound hit
    have here := h.counts.keys j i usedJ used (devJ.trans sameDev.symm) (inumJ.trans sameInum.symm)
    unfold findOrTake at next
    rw [hit,here] at next
    cases next
    exact update_self _ _ _
  | none =>
    have outstanding := h.counts.ref i
    obtain ⟨u,member⟩ := tallySome (k := i) (l := m.refs) (by omega)
    exact absurd sameInum (lookupNone hit i (h.counts.inside u i member) used sameDev)

theorem workKey {job} (used : (m.inode i).ref ≠ 0) (next : work t m job = .ok m') : key (m'.inode i) = key (m.inode i) := by
  cases job with
  | get dev inum =>
    unfold work at next
    exact findOrTakeKey used next
  | duplicate ip | finish ip =>
    cases next
    refine keyEdit ?_ i
    rfl
  | put ip =>
    unfold work at next
    dsimp only at next
    split at next
    · split at next
      · cases next
      · cases next
        refine keyEdit ?_ i
        rfl
    · cases next
      rfl
  | lock ip =>
    unfold work at next
    dsimp only at next
    split at next
    · cases next
      rfl
    · cases next
      refine keyEdit ?_ i
      rfl
  | unlock ip =>
    unfold work at next
    dsimp only at next
    split at next
    · cases next
      refine keyEdit ?_ i
      rfl
    · cases next

theorem goKey {d} (used : (m.inode i).ref ≠ 0) (next : go t d m = .ok m') : key (m'.inode i) = key (m.inode i) := by
  unfold go at next
  split at next
  case h_3 => exact workKey used next
  all_goals cases next
  case h_1 | h_4 | h_7 | h_8 | h_9 | h_11 => rfl
  case h_2 | h_5 => split <;> rfl
  case h_6 =>
    split
    · rfl
    · refine keyEdit ?_ i
      rfl
  case h_10 =>
    refine keyEdit ?_ i
    rfl

theorem stepKey {a} (used : (m.inode i).ref ≠ 0) (next : step a m = .ok m') : key (m'.inode i) = key (m.inode i) := by
  cases a with
  | call t job =>
    unfold step call at next
    dsimp only at next
    split at next
    · split at next
      · cases next
        rfl
      · cases next
    · cases next
      rfl
  | go t d => exact goKey used next
  | give t u ip =>
    cases next
    rfl
  | relink t ip iNlink =>
    cases next
    refine keyEdit ?_ i
    rfl

theorem inodesOnce (run : Reached m) :
    (∀ i j, 0 < (m.inode i).ref → 0 < (m.inode j).ref → key (m.inode i) = key (m.inode j) → i = j) ∧
    (∀ i, (m.inode i).ref = m.refs.countP fun r => r.2 = i) ∧
    (∀ i t dev inum d m', 0 < (m.inode i).ref → key (m.inode i) = (dev,inum) → m.pc t = .work (.get dev inum) → go t d m = .ok m' →
      m'.pc t = .leaving (some i)) ∧
    (∀ a m' i, step a m = .ok m' → key (m'.inode i) ≠ key (m.inode i) → (m.inode i).ref = 0) := by
  have h := reachedInv run
  have keys : ∀ i j, 0 < (m.inode i).ref → 0 < (m.inode j).ref → key (m.inode i) = key (m.inode j) → i = j :=
    fun i j usedI usedJ same => h.counts.keys i j usedI usedJ (Prod.mk.inj same).1 (Prod.mk.inj same).2
  refine ⟨keys,h.counts.ref,fun i t dev inum d m' used same place next => ?_,fun a m' i next other => ?_⟩
  · unfold go at next
    rw [place] at next
    exact findOrTakeHit h used same next
  · by_contra used
    exact other (stepKey used next)

end Keys

section Examples
variable [DecidableEq τ]

theorem takesFirst (unused : ∀ i, (m.inode i).ref = 0) (t dev inum) :
    findOrTake t m dev inum = .ok ((m.refer t 0 {m.inode 0 with iDev := dev, inum := inum, ref := 1, busy := false, valid := false}).goto t
      (.leaving (some 0))) := by
  have missing : lookupSlot m.inode dev inum = none := by
    cases hit : lookupSlot m.inode dev inum with
    | none => rfl
    | some i => exact absurd (lookupFound hit).2.1 (by rw [unused i]; decide)
  have first : emptySlot m.inode = some 0 := by
    unfold emptySlot
    rw [show ninode = 1023 + 1 from rfl,List.range_succ_eq_map,List.find?_cons_of_pos]
    simp [unused]
  unfold findOrTake
  rw [missing]
  dsimp only
  rw [first]

def unusedInode : Inode := ⟨0,0,false,false,0,0,0,0,0,fun _ => 0⟩

def someDisk : DInode := ⟨0,0,0,1,0,fun _ => 0⟩

theorem firstGot (unused : ∀ i, (m.inode i).ref = 0) {t dev inum} (place : m.pc t = .work (.get dev inum)) (d : DInode)
    (run : Reached m) : Reached ((m.refer t 0 {m.inode 0 with iDev := dev, inum := inum, ref := 1, busy := false, valid := false}).goto t
      (.leaving (some 0))) := by
  refine .step (a := .go t d) run (fun _ _ _ => Or.inr ⟨0,by decide,unused 0⟩) ?_
  show go t d m = _
  unfold go
  rw [place]
  exact takesFirst unused t dev inum

def oneUser : Machine Nat := ⟨update (fun _ => unusedInode) 0 {unusedInode with inum := 5, ref := 1},fun _ => [],none,fun _ => .idle,[(1,0)],[]⟩

theorem oneUserReached : Reached oneUser := by
  have begin : Reached (start fun _ => unusedInode : Machine Nat) := .start fun _ => ⟨rfl,rfl⟩
  have calls : Reached _ := .step (a := .call 1 (.get 0 5)) begin ⟨rfl,trivial⟩ rfl
  have holds : Reached _ := .step (a := .go 1 someDisk) calls (fun _ _ place => by cases place) rfl
  have takes : Reached _ := firstGot (fun _ => rfl) (t := 1) rfl someDisk holds
  have leaves : Reached _ := .step (a := .go 1 someDisk) takes (fun _ _ place => by cases place) rfl
  have idle : update (update (update (update (fun _ : Nat => Pc.idle) 1 (.hold (.get 0 5))) 1
      (.work (.get 0 5))) 1 (.leaving (some 0))) 1 .idle = fun _ => .idle := by simp
  exact (congrArg (fun pc => Reached {oneUser with pc := pc}) idle).mp leaves

theorem secondUserShares : ∃ m m' : Machine Nat, Reached m ∧ m.pc 2 = .work (.get 0 5) ∧ go 2 someDisk m = .ok m' ∧
    m'.pc 2 = .leaving (some 0) := by
  have calls : Reached _ := .step (a := .call 2 (.get 0 5)) oneUserReached ⟨rfl,trivial⟩ rfl
  have holds : Reached _ := .step (a := .go 2 someDisk) calls (fun _ _ place => by cases place) rfl
  obtain ⟨m',ran,_⟩ := goInv (t := 2) (reachedInv holds) someDisk fun _ _ _ => Or.inr ⟨1,by decide,rfl⟩
  exact ⟨_,m',holds,rfl,ran,(inodesOnce holds).2.2.1 0 2 0 5 someDisk m' (by decide) rfl rfl ran⟩

theorem sleeperIsWaitedFor : ∃ m : Machine Nat, Reached m ∧ m.mtx = none ∧ m.waiters 0 = [2] ∧ (m.inode 0).busy = true := by
  have calls : Reached _ := .step (a := .call 1 (.duplicate 0)) oneUserReached ⟨rfl,by decide⟩ rfl
  have holds : Reached _ := .step (a := .go 1 someDisk) calls (fun _ _ place => by cases place) rfl
  have counts : Reached _ := .step (a := .go 1 someDisk) holds (fun _ _ place => by cases place) rfl
  have leaves : Reached _ := .step (a := .go 1 someDisk) counts (fun _ _ place => by cases place) rfl
  have gives : Reached _ := .step (a := .give 1 2 0) leaves ⟨rfl,by decide,nofun⟩ rfl
  have calls : Reached _ := .step (a := .call 1 (.lock 0)) gives ⟨rfl,by decide⟩ rfl
  have holds : Reached _ := .step (a := .go 1 someDisk) calls (fun _ _ place => by cases place) rfl
  have locks : Reached _ := .step (a := .go 1 someDisk) holds (fun _ _ place => by cases place) rfl
  have reads : Reached _ := .step (a := .go 1 someDisk) locks (fun _ _ place => by cases place) rfl
  have leaves : Reached _ := .step (a := .go 1 someDisk) reads (fun _ _ place => by cases place) rfl
  have calls : Reached _ := .step (a := .call 2 (.lock 0)) leaves ⟨rfl,by decide⟩ rfl
  have holds : Reached _ := .step (a := .go 2 someDisk) calls (fun _ _ place => by cases place) rfl
  have queues : Reached _ := .step (a := .go 2 someDisk) holds (fun _ _ place => by cases place) rfl
  have sleeps : Reached _ := .step (a := .go 2 someDisk) queues (fun _ _ place => by cases place) rfl
  exact ⟨_,sleeps,rfl,rfl,(locksExclude sleeps).2.2.2.2 rfl 0 nofun⟩

end Examples

end TskSw.InodeThreads
