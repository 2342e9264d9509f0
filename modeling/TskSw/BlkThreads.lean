import TskSw.BlkIo
import Mathlib.Data.List.Nodup

/-! The buffer cache under threads that switch only where the kernel reschedules: in a
wait, after a wakeup and between two calls. A wait queue is the set of threads whose
program counter waits on it; the wakeup reason is always `WQUE_REASON_WAKEUP`, since
nobody destroys the cache's mutex. The mutexes of `devsw.c` and of the driver are free
again at every switch. -/
namespace TskSw.BlkThreads
open BlkIo
open Function (update update_of_ne update_self)

inductive Pc where
  | idle
  -- `buffer_cache_blk_get`: before `mutex_hold`, in `mtx.wq`, in `b->waiters`, before and in the
  -- `mutex_hold` that follows the wait, behind `continue`, returned with a buffer.
  | getHold (dev blockno : Nat)
  | getWait (dev blockno : Nat)
  | asleep (dev blockno i : Nat)
  | rehold (dev blockno i : Nat)
  | reholdWait (dev blockno i : Nat)
  | resume (dev blockno i : Nat)
  | found (i : Nat)
  -- `buffer_cache_blk_release`: before and in `mutex_hold`, behind `wque_wakeup`.
  | relHold (i : Nat)
  | relWait (i : Nat)
  | relOut
  | halted
  deriving DecidableEq, Repr

def Pc.mutexWoken : Pc → Pc
  | .getWait dev blockno => .getHold dev blockno
  | .reholdWait dev blockno i => .rehold dev blockno i
  | .relWait i => .relHold i
  | p => p

def Pc.eventWoken (i : Nat) : Pc → Pc
  | .asleep dev blockno j => if j = i then .rehold dev blockno j else .asleep dev blockno j
  | p => p

structure Machine where
  store : Store
  count : UInt32
  pc : Nat → Pc
  owned : Nat → List Nat
  balance : Nat → Int

def start (image : Nat → Block) (blocks : Nat) : Machine :=
  ⟨boot image blocks,0,fun _ => .idle,fun _ => [],fun _ => 0⟩

def Machine.goto (m : Machine) (t : Nat) (p : Pc) : Machine := {m with pc := update m.pc t p}

def mutexHold (t : Nat) (m : Machine) : Machine :=
  {m with count := m.count + 1, balance := update m.balance t (m.balance t + 1)}

def mutexRelease (t : Nat) (m : Machine) : Machine :=
  {m with
    count := m.count - 1
    balance := update m.balance t (m.balance t - 1)
    pc := fun u => (m.pc u).mutexWoken}

def Machine.take (m : Machine) (t i : Nat) (b : BlkBuf) : Machine :=
  {m with
    store := {m.store with cache := m.store.cache.set i b}
    owned := update m.owned t (i :: m.owned t)}

def after (i : Nat) (mru : List Nat) : List Nat := (mru.dropWhile (fun j => j != i)).tail

def getBody (again : Bool) (t dev blockno : Nat) (rest : List Nat) (m : Machine) : Machine :=
  let c := m.store.cache
  match rest.find? (fun i => (c.buf i).holds dev blockno) with
  | some i =>
    if (c.buf i).busy then (mutexRelease t m).goto t (.asleep dev blockno i)
    else (mutexRelease t (m.take t i {c.buf i with busy := true})).goto t (.found i)
  | none =>
    match c.reusable with
    | some i => (mutexRelease t (m.take t i
        {c.buf i with dev := dev, blockno := blockno, busy := true, valid := false, dirty := false})).goto t (.found i)
    | none => (mutexRelease t m).goto t (if again then .getHold dev blockno else .halted)

def releaseBody (t i : Nat) (m : Machine) : Machine :=
  let c := m.store.cache
  {m with
    store := {m.store with cache := ⟨update c.buf i {c.buf i with busy := false},i :: c.mru.erase i⟩}
    owned := update m.owned t ((m.owned t).erase i)
    pc := fun u => (m.pc u).eventWoken i}

inductive Act where
  | read (dev blockno : Nat)
  | write (i : Nat)
  | release (i : Nat)
  | go

def driven (t : Nat) (m : Machine) : Except Fault Store → Machine
  | .ok s => {m with store := s}.goto t .idle
  | .error _ => m.goto t .halted

def step (t : Nat) (a : Act) (m : Machine) : Option Machine :=
  match m.pc t,a with
  | .idle,.read dev blockno => some (m.goto t (.getHold dev blockno))
  | .idle,.write i =>
    if i ∈ m.owned t then some (driven t m (bufferCacheBlkWrite i m.store)) else none
  | .idle,.release i =>
    if i ∈ m.owned t then some (m.goto t (if (m.store.cache.buf i).busy then .relHold i else .halted)) else none
  | .getHold dev blockno,.go =>
    if 0 < m.count then some (m.goto t (.getWait dev blockno))
    else some (getBody false t dev blockno m.store.cache.mru (mutexHold t m))
  | .rehold dev blockno i,.go =>
    if 0 < m.count then some (m.goto t (.reholdWait dev blockno i))
    else some ((mutexRelease t (mutexHold t m)).goto t (.resume dev blockno i))
  | .resume dev blockno i,.go => some (getBody true t dev blockno (after i m.store.cache.mru) m)
  | .found i,.go =>
    if (m.store.cache.buf i).valid then some (m.goto t .idle) else some (driven t m (blkrw i m.store))
  | .relHold i,.go =>
    if 0 < m.count then some (m.goto t (.relWait i))
    else some ((releaseBody t i (mutexHold t m)).goto t .relOut)
  | .relOut,.go => some ((mutexRelease t m).goto t .idle)
  | _,_ => none

def contended (t : Nat) (m : Machine) : Bool :=
  match m.pc t with
  | .getHold dev blockno =>
    m.count == 0 && ((m.store.cache.search dev blockno).any (fun i => (m.store.cache.buf i).busy))
  | _ => false

inductive Reached (image : Nat → Block) (blocks : Nat) : Machine → Prop where
  | start : Reached image blocks (start image blocks)
  | step {m m' : Machine} {t : Nat} {a : Act} (before : Reached image blocks m)
      (free : contended t m = false) (next : step t a m = some m') : Reached image blocks m'

structure Safe (m : Machine) : Prop where
  oneBuffer : ∀ i < nbuf, ∀ j < nbuf, (m.store.cache.buf i).dev ≠ blkDevNodev →
    (m.store.cache.buf i).dev = (m.store.cache.buf j).dev →
    (m.store.cache.buf i).blockno = (m.store.cache.buf j).blockno → i = j
  oneOwner : ∀ t u i, i ∈ m.owned t → i ∈ m.owned u → t = u
  mutex : m.count = 0 ∨ m.count = 1
  balanced : ∀ t i, m.pc t = .found i → m.balance t = 0

def Pc.calm : Pc → Bool
  | .asleep _ _ _ | .rehold _ _ _ | .reholdWait _ _ _ | .resume _ _ _ => false
  | _ => true

def Pc.releasing : Pc → Option Nat
  | .relHold i | .relWait i => some i
  | _ => none

structure Buffers (c : Cache) (owned : Nat → List Nat) : Prop where
  members : ∀ i, i ∈ c.mru ↔ i < nbuf
  oneBuffer : ∀ i < nbuf, ∀ j < nbuf, (c.buf i).dev ≠ blkDevNodev → (c.buf i).dev = (c.buf j).dev →
    (c.buf i).blockno = (c.buf j).blockno → i = j
  oneOwner : ∀ t u i, i ∈ owned t → i ∈ owned u → t = u
  busy : ∀ t i, i ∈ owned t → i < nbuf ∧ (c.buf i).busy = true
  nodup : ∀ t, (owned t).Nodup

structure Control (m : Machine) : Prop where
  calm : ∀ t, (m.pc t).calm = true
  releasing : ∀ t i, (m.pc t).releasing = some i → i ∈ m.owned t
  mutex : m.count = 0 ∨ m.count = 1
  holder : ∀ t, m.pc t = .relOut → m.count = 1
  oneHolder : ∀ t u, m.pc t = .relOut → m.pc u = .relOut → t = u
  balance : ∀ t, m.balance t = if m.pc t = .relOut then 1 else 0

theorem buffersTake {c owned} (h : Buffers c owned) {t i b}
    (inside : i < nbuf) (idle : (c.buf i).busy = false) (taken : b.busy = true)
    (fresh : ∀ j < nbuf, j ≠ i → b.dev ≠ blkDevNodev → b.dev = (c.buf j).dev → b.blockno ≠ (c.buf j).blockno) :
    Buffers (c.set i b) (update owned t (i :: owned t)) := by
  have unowned : ∀ u, i ∉ owned u := by
    intro u mine
    rw [(h.busy u i mine).2] at idle
    cases idle
  have mem : ∀ u k, k ∈ update owned t (i :: owned t) u → (u = t ∧ k = i) ∨ k ∈ owned u := by
    intro u k mine
    by_cases same : u = t
    · subst same
      simp only [update_self,List.mem_cons] at mine
      exact mine.imp (fun e => ⟨rfl,e⟩) id
    · rw [update_of_ne same] at mine
      exact Or.inr mine
  refine ⟨h.members,?_,?_,?_,?_⟩
  · intro j hj k hk dev sameDev sameBlock
    by_cases ji : j = i
    · subst ji
      by_contra kj
      have other : k ≠ j := fun e => kj e.symm
      simp only [Cache.set,update_self,update_of_ne other] at dev sameDev sameBlock
      exact fresh k hk other dev sameDev sameBlock
    · by_cases ki : k = i
      · subst ki
        simp only [Cache.set,update_self,update_of_ne ji] at dev sameDev sameBlock
        exact absurd sameBlock.symm (fresh j hj ji (sameDev ▸ dev) sameDev.symm)
      · simp only [Cache.set,update_of_ne ji,update_of_ne ki] at dev sameDev sameBlock
        exact h.oneBuffer j hj k hk dev sameDev sameBlock
  · intro u v k left right
    rcases mem u k left with ⟨rfl,rfl⟩ | first
    · rcases mem v k right with ⟨rfl,_⟩ | second
      · rfl
      · exact absurd second (unowned v)
    · rcases mem v k right with ⟨rfl,rfl⟩ | second
      · exact absurd first (unowned u)
      · exact h.oneOwner u v k first second
  · intro u k mine
    rcases mem u k mine with ⟨_,rfl⟩ | before
    · exact ⟨inside,by simpa [Cache.set] using taken⟩
    · have other : k ≠ i := fun e => unowned u (e ▸ before)
      simpa [Cache.set,update_of_ne other] using h.busy u k before
  · intro u
    by_cases same : u = t
    · subst same
      simpa using ⟨unowned u,h.nodup u⟩
    · simpa [update_of_ne same] using h.nodup u

theorem buffersDrop {c owned} (h : Buffers c owned) {t i} (mine : i ∈ owned t) :
    Buffers ⟨update c.buf i {c.buf i with busy := false},i :: c.mru.erase i⟩
      (update owned t ((owned t).erase i)) := by
  have key : ∀ j, ((update c.buf i {c.buf i with busy := false}) j).dev = (c.buf j).dev ∧
      ((update c.buf i {c.buf i with busy := false}) j).blockno = (c.buf j).blockno := by
    intro j
    by_cases same : j = i
    · subst same; simp
    · simp [update_of_ne same]
  have mem : ∀ u k, k ∈ update owned t ((owned t).erase i) u → k ∈ owned u ∧ k ≠ i := by
    intro u k left
    by_cases same : u = t
    · subst same
      simp only [update_self] at left
      exact ⟨List.mem_of_mem_erase left,((h.nodup u).mem_erase_iff.mp left).1⟩
    · rw [update_of_ne same] at left
      refine ⟨left,?_⟩
      rintro rfl
      exact same (h.oneOwner u t k left mine)
  refine ⟨?_,?_,?_,?_,?_⟩
  · intro j
    exact ((List.perm_cons_erase ((h.members i).mpr (h.busy t i mine).1)).mem_iff.symm).trans (h.members j)
  · intro j hj k hk dev sameDev sameBlock
    rw [(key j).1] at dev
    rw [(key j).1,(key k).1] at sameDev
    rw [(key j).2,(key k).2] at sameBlock
    exact h.oneBuffer j hj k hk dev sameDev sameBlock
  · intro u v k left right
    exact h.oneOwner u v k (mem u k left).1 (mem v k right).1
  · intro u k left
    obtain ⟨before,other⟩ := mem u k left
    simpa [update_of_ne other] using h.busy u k before
  · intro u
    by_cases same : u = t
    · subst same
      simpa using (h.nodup u).erase i
    · simpa [update_of_ne same] using h.nodup u

structure SameKeys (c d : Cache) : Prop where
  mru : d.mru = c.mru
  keys : ∀ i, (d.buf i).dev = (c.buf i).dev ∧ (d.buf i).blockno = (c.buf i).blockno ∧
    (d.buf i).busy = (c.buf i).busy

theorem sameKeysSet (c : Cache) (i : Nat) {b} (dev : b.dev = (c.buf i).dev)
    (block : b.blockno = (c.buf i).blockno) (busy : b.busy = (c.buf i).busy) : SameKeys c (c.set i b) := by
  refine ⟨rfl,fun j => ?_⟩
  by_cases same : j = i
  · subst same; simp [Cache.set,dev,block,busy]
  · simp [Cache.set,update_of_ne same]

theorem blkrwKeys {i : Nat} {s u : Store} (h : blkrw i s = .ok u) : SameKeys s.cache u.cache := by
  simp only [blkrw,memideRw] at h
  repeat' split at h
  all_goals first | contradiction | cases h
  all_goals first | exact ⟨rfl,fun _ => ⟨rfl,rfl,rfl⟩⟩ | exact sameKeysSet s.cache i rfl rfl rfl

theorem writeKeys {i : Nat} {s u : Store} (h : bufferCacheBlkWrite i s = .ok u) : SameKeys s.cache u.cache := by
  unfold bufferCacheBlkWrite at h
  dsimp only at h
  split at h <;> try contradiction
  have dirtied := sameKeysSet s.cache i (b := {s.cache.buf i with dirty := true}) rfl rfl rfl
  have driven := blkrwKeys h
  refine ⟨driven.mru.trans dirtied.mru,fun j => ?_⟩
  obtain ⟨dev,block,busy⟩ := driven.keys j
  obtain ⟨dev',block',busy'⟩ := dirtied.keys j
  exact ⟨dev.trans dev',block.trans block',busy.trans busy'⟩

theorem buffersSame {c d : Cache} {owned : Nat → List Nat} (h : Buffers c owned) (same : SameKeys c d) :
    Buffers d owned := by
  refine ⟨fun i => by rw [same.mru]; exact h.members i,?_,h.oneOwner,?_,h.nodup⟩
  · intro i hi j hj dev sameDev sameBlock
    rw [(same.keys i).1] at dev
    rw [(same.keys i).1,(same.keys j).1] at sameDev
    rw [(same.keys i).2.1,(same.keys j).2.1] at sameBlock
    exact h.oneBuffer i hi j hj dev sameDev sameBlock
  · intro t i mine
    rw [(same.keys i).2.2]
    exact h.busy t i mine

theorem controlGoto {m} (h : Control m) {t p} (off : m.pc t ≠ .relOut) (calm : p.calm = true)
    (out : p ≠ .relOut) (mine : ∀ i, p.releasing = some i → i ∈ m.owned t) : Control (m.goto t p) := by
  have pcs : ∀ u, (m.goto t p).pc u = .relOut → m.pc u = .relOut := by
    intro u holds
    by_cases same : u = t
    · subst same
      simp only [Machine.goto,update_self] at holds
      exact absurd holds out
    · simpa [Machine.goto,update_of_ne same] using holds
  refine ⟨?_,?_,h.mutex,fun u holds => h.holder u (pcs u holds),
    fun u v left right => h.oneHolder u v (pcs u left) (pcs v right),?_⟩
  · intro u
    by_cases same : u = t
    · subst same; simpa [Machine.goto] using calm
    · simpa [Machine.goto,update_of_ne same] using h.calm u
  · intro u i rel
    by_cases same : u = t
    · subst same
      simp only [Machine.goto,update_self] at rel
      exact mine i rel
    · simp only [Machine.goto,update_of_ne same] at rel
      exact h.releasing u i rel
  · intro u
    by_cases same : u = t
    · subst same
      have := h.balance u
      simpa [Machine.goto,out,off] using this
    · simpa [Machine.goto,update_of_ne same] using h.balance u

theorem mutexWokenOut (p : Pc) : p.mutexWoken = .relOut ↔ p = .relOut := by cases p <;> simp [Pc.mutexWoken]
theorem mutexWokenCalm (p : Pc) : p.mutexWoken.calm = p.calm := by cases p <;> rfl
theorem mutexWokenReleasing (p : Pc) : p.mutexWoken.releasing = p.releasing := by cases p <;> rfl
theorem eventWokenCalm {p : Pc} (i : Nat) (calm : p.calm = true) : p.eventWoken i = p := by
  cases p <;> simp [Pc.calm,Pc.eventWoken] at calm ⊢

theorem controlRelease {m} (h : Control m) {t p} (s : Store) (owned : Nat → List Nat)
    (kept : ∀ u, u ≠ t → m.owned u ⊆ owned u)
    (alone : ∀ u, m.pc u = .relOut → u = t) (calm : p.calm = true) (out : p ≠ .relOut)
    (quiet : p.releasing = none) (balance : Nat → Int) (others : ∀ u, u ≠ t → balance u = m.balance u)
    (even : balance t = 0) :
    Control ⟨s,0,update (fun u => (m.pc u).mutexWoken) t p,owned,balance⟩ := by
  have pcs : ∀ u, update (fun u => (m.pc u).mutexWoken) t p u ≠ .relOut := by
    intro u
    by_cases same : u = t
    · subst same; simpa using out
    · rw [update_of_ne same,ne_eq,mutexWokenOut]
      exact fun holds => same (alone u holds)
  refine ⟨?_,?_,Or.inl rfl,fun u holds => absurd holds (pcs u),fun u _ holds => absurd holds (pcs u),?_⟩
  · intro u
    by_cases same : u = t
    · subst same; simpa using calm
    · simpa [update_of_ne same,mutexWokenCalm] using h.calm u
  · intro u i rel
    by_cases same : u = t
    · subst same
      simp only [update_self,quiet] at rel
      cases rel
    · simp only [update_of_ne same,mutexWokenReleasing] at rel
      exact kept u same (h.releasing u i rel)
  · intro u
    simp only [if_neg (pcs u)]
    by_cases same : u = t
    · subst same; exact even
    · rw [others u same,h.balance u,if_neg (fun holds => same (alone u holds))]

theorem controlDrop {m : Machine} (h : Control m) {t i} (free : m.count = 0) (rel : m.pc t = .relHold i) :
    Control ((releaseBody t i (mutexHold t m)).goto t .relOut) := by
  have none : ∀ u, m.pc u ≠ .relOut := by
    intro u holds
    rw [h.holder u holds] at free
    cases free
  have pcs : ∀ u, ((releaseBody t i (mutexHold t m)).goto t .relOut).pc u = if u = t then .relOut else m.pc u := by
    intro u
    by_cases same : u = t
    · subst same; simp [Machine.goto]
    · simp [Machine.goto,same,releaseBody,mutexHold,eventWokenCalm i (h.calm u)]
  have holds : ∀ u, ((releaseBody t i (mutexHold t m)).goto t .relOut).pc u = .relOut → u = t := by
    intro u
    rw [pcs u]
    split
    · exact fun _ => by assumption
    · exact fun e => absurd e (none u)
  have one : ((releaseBody t i (mutexHold t m)).goto t .relOut).count = 1 := by
    simp [Machine.goto,releaseBody,mutexHold,free]
  refine ⟨?_,?_,Or.inr one,fun _ _ => one,fun u v left right => (holds u left).trans (holds v right).symm,?_⟩
  · intro u
    rw [pcs u]
    split
    · rfl
    · exact h.calm u
  · intro u j
    rw [pcs u]
    split
    · intro e; cases e
    · intro e
      rename_i other
      simpa [Machine.goto,releaseBody,mutexHold,update_of_ne other] using h.releasing u j e
  · intro u
    rw [pcs u]
    by_cases same : u = t
    · subst same
      simp [Machine.goto,releaseBody,mutexHold,h.balance u,none u]
    · simpa [Machine.goto,releaseBody,mutexHold,update_of_ne same,same] using h.balance u

def Inv (m : Machine) : Prop := Buffers m.store.cache m.owned ∧ Control m

theorem invDriven {m} (h : Inv m) {t x} (off : m.pc t ≠ .relOut)
    (keys : ∀ s, x = .ok s → SameKeys m.store.cache s.cache) : Inv (driven t m x) := by
  cases x with
  | error e => exact ⟨h.1,controlGoto h.2 off rfl (by simp) (by simp [Pc.releasing])⟩
  | ok s =>
    have moved := controlGoto h.2 (p := .idle) off rfl (by simp) (by simp [Pc.releasing])
    exact ⟨buffersSame h.1 (keys s rfl),moved.calm,moved.releasing,moved.mutex,moved.holder,moved.oneHolder,
      moved.balance⟩

theorem countFree {count : UInt32} (free : ¬ 0 < count) : count = 0 := by
  apply UInt32.toNat_inj.mp
  rw [UInt32.lt_iff_toNat_lt] at free
  simpa using free

theorem invGet {m : Machine} (h : Inv m) {t dev blockno : Nat} (at' : m.pc t = .getHold dev blockno)
    (free : m.count = 0) (idle : contended t m = false) :
    Inv (getBody false t dev blockno m.store.cache.mru (mutexHold t m)) := by
  have none : ∀ u, m.pc u = .relOut → u = t := by
    intro u holds
    rw [h.2.holder u holds] at free
    cases free
  have even : m.balance t = 0 := by simp [h.2.balance t,at']
  have pass : ∀ (s : Store) (owned : Nat → List Nat) (p : Pc), (∀ u, u ≠ t → m.owned u ⊆ owned u) →
      p.calm = true → p ≠ .relOut → p.releasing = Option.none →
      Control ((mutexRelease t {mutexHold t m with store := s, owned := owned}).goto t p) := by
    intro s owned p kept calm out quiet
    have control := controlRelease h.2 (p := p) s owned kept none calm out quiet
      (update (update m.balance t (m.balance t + 1)) t (m.balance t + 1 - 1))
      (fun u other => by simp [update_of_ne other]) (by simp [even])
    simpa [Machine.goto,mutexRelease,mutexHold,free] using control
  have keep : ∀ (i u : Nat), u ≠ t → m.owned u ⊆ update m.owned t (i :: m.owned t) u := by
    intro i u other
    rw [update_of_ne other]
    exact List.Subset.refl _
  unfold getBody
  dsimp only
  split
  · rename_i i hit
    have hit : m.store.cache.search dev blockno = some i := hit
    have quiet : (m.store.cache.buf i).busy = false := by
      simpa [contended,at',free,hit] using idle
    have mem := List.mem_of_find?_eq_some hit
    have key := List.find?_some hit
    simp only [BlkBuf.holds,Bool.and_eq_true,beq_iff_eq] at key
    have inside := (h.1.members i).mp mem
    simp only [mutexHold,quiet,Bool.false_eq_true,if_false]
    refine ⟨buffersTake h.1 inside quiet rfl ?_,pass _ _ (.found i) (keep i) rfl (by simp) rfl⟩
    intro j hj other dev' sameDev sameBlock
    exact other (h.1.oneBuffer i inside j hj dev' sameDev sameBlock).symm
  · rename_i miss
    split
    · rename_i i reuse
      have mem := List.mem_of_find?_eq_some reuse
      have clean := List.find?_some reuse
      simp only [Bool.and_eq_true,Bool.not_eq_true'] at clean
      have inside := (h.1.members i).mp (List.mem_reverse.mp mem)
      refine ⟨buffersTake h.1 inside clean.1 rfl ?_,pass _ _ (.found i) (keep i) rfl (by simp) rfl⟩
      intro j hj _ _ sameDev sameBlock
      have absent := List.find?_eq_none.mp miss j ((h.1.members j).mpr hj)
      simp only [BlkBuf.holds,Bool.and_eq_true,beq_iff_eq] at absent
      exact absent ⟨sameDev.symm,sameBlock.symm⟩
    · exact ⟨h.1,pass m.store m.owned .halted (fun _ _ => List.Subset.refl _) rfl (by simp) rfl⟩

theorem stepInv {m m' t a} (h : Inv m) (free : contended t m = false)
    (next : step t a m = some m') : Inv m' := by
  unfold step at next
  split at next
  · rename_i dev blockno at'
    cases next
    exact ⟨h.1,controlGoto h.2 (by simp [at']) rfl (by simp) (by simp [Pc.releasing])⟩
  · rename_i i at'
    split at next <;> try contradiction
    cases next
    exact invDriven h (by simp [at']) (fun s ok => writeKeys ok)
  · rename_i i at'
    split at next <;> try contradiction
    rename_i mine
    cases next
    refine ⟨h.1,controlGoto h.2 (by simp [at']) ?_ ?_ ?_⟩
    · split <;> rfl
    · split <;> simp
    · split
      · intro j rel
        cases rel
        exact mine
      · simp [Pc.releasing]
  · rename_i dev blockno at'
    split at next
    · cases next
      exact ⟨h.1,controlGoto h.2 (by simp [at']) rfl (by simp) (by simp [Pc.releasing])⟩
    · cases next
      exact invGet h at' (countFree (by assumption)) free
  · rename_i dev blockno i at'
    have := h.2.calm t
    simp [at',Pc.calm] at this
  · rename_i dev blockno i at'
    have := h.2.calm t
    simp [at',Pc.calm] at this
  · rename_i i at'
    split at next
    · cases next
      exact ⟨h.1,controlGoto h.2 (by simp [at']) rfl (by simp) (by simp [Pc.releasing])⟩
    · cases next
      exact invDriven h (by simp [at']) (fun s ok => blkrwKeys ok)
  · rename_i i at'
    have mine := h.2.releasing t i (by simp [at',Pc.releasing])
    split at next
    · cases next
      refine ⟨h.1,controlGoto h.2 (by simp [at']) rfl (by simp) ?_⟩
      intro j rel
      cases rel
      exact mine
    · cases next
      exact ⟨buffersDrop h.1 mine,controlDrop h.2 (countFree (by assumption)) at'⟩
  · rename_i at'
    cases next
    have one := h.2.holder t at'
    have control := controlRelease h.2 (p := .idle) m.store m.owned (fun _ _ => List.Subset.refl _)
      (fun u holds => h.2.oneHolder u t holds at') rfl (by simp) rfl
      (update m.balance t (m.balance t - 1))
      (fun u other => by simp [update_of_ne other]) (by simp [h.2.balance t,at'])
    refine ⟨h.1,?_⟩
    simpa [Machine.goto,mutexRelease,one] using control
  · contradiction

theorem reachedInv {image blocks m} (run : Reached image blocks m) : Inv m := by
  induction run with
  | start =>
    refine ⟨⟨?_,?_,?_,?_,?_⟩,?_,?_,?_,?_,?_,?_⟩
    all_goals simp [start,boot,bufferCacheInit,emptyBuf,Pc.calm,Pc.releasing]
  | step before free next ih => exact stepInv ih free next

theorem uncontendedRunsStaySafe {image : Nat → Block} {blocks : Nat} {m : Machine}
    (run : Reached image blocks m) : Safe m := by
  obtain ⟨buffers,control⟩ := reachedInv run
  refine ⟨buffers.oneBuffer,buffers.oneOwner,control.mutex,?_⟩
  intro t i got
  simp [control.balance t,got]

def steps (calm : Bool) : List (Nat × Act) → Machine → Option Machine
  | [],m => some m
  | (t,a) :: rest,m => if calm && contended t m then none else do
      let m ← step t a m
      steps calm rest m

theorem calmStepsReached {image blocks run m m'}
    (before : Reached image blocks m) (ran : steps true run m = some m') : Reached image blocks m' := by
  induction run generalizing m with
  | nil =>
    cases ran
    exact before
  | cons first rest ih =>
    obtain ⟨t,a⟩ := first
    simp only [steps,Bool.true_and] at ran
    split at ran <;> try contradiction
    rename_i free
    obtain ⟨u,next,others⟩ := Option.bind_eq_some_iff.mp ran
    exact ih (.step before (by simpa using free) next) others

def apart : List (Nat × Act) :=
  [(1,.read rootDev 5),(2,.read rootDev 6),(1,.go),(2,.go),(1,.go),(2,.go),(1,.write 0),(2,.release 1),
    (1,.release 0),(2,.go),(1,.go),(2,.go),(1,.go)]

theorem apartStaysSafe : ∃ m, Reached (fun _ _ => 0) 16 m ∧ m.pc 1 = .relOut ∧ m.count = 1 ∧ Safe m := by
  have ran : (steps true apart (start (fun _ _ => 0) 16)).any (fun m =>
      decide (m.pc 1 = .relOut ∧ m.count = 1)) = true := by decide +kernel
  obtain ⟨m,last,facts⟩ := (Option.any_eq_true _ _).mp ran
  have facts := of_decide_eq_true facts
  have reached := calmStepsReached .start last
  exact ⟨m,reached,facts.1,facts.2,uncontendedRunsStaySafe reached⟩

-- Thread 2 sleeps on block 5, is woken by its release and goes on behind the buffer it slept on.
def lateSearch : List (Nat × Act) :=
  [(1,.read rootDev 5),(1,.go),(1,.go),(2,.read rootDev 5),(2,.go),(1,.release 0),(1,.go),(1,.go),(2,.go),(2,.go)]

theorem sleeperTakesSecondBuffer : ∃ m, steps false lateSearch (start (fun _ _ => 0) 16) = some m ∧
    ((m.store.cache.buf 0).holds rootDev 5 = true ∧ (m.store.cache.buf 1).holds rootDev 5 = true ∧
      m.pc 2 = .found 1 ∧ m.count = 4294967295 ∧ m.balance 2 = -1) ∧ ¬ Safe m := by
  have ran : (steps false lateSearch (start (fun _ _ => 0) 16)).any (fun m =>
      decide ((m.store.cache.buf 0).holds rootDev 5 = true ∧ (m.store.cache.buf 1).holds rootDev 5 = true ∧
        m.pc 2 = .found 1 ∧ m.count = 4294967295 ∧ m.balance 2 = -1)) = true := by decide +kernel
  obtain ⟨m,last,facts⟩ := (Option.any_eq_true _ _).mp ran
  have facts := of_decide_eq_true facts
  refine ⟨m,last,facts,fun safe => ?_⟩
  have even := safe.balanced 2 1 facts.2.2.1
  have odd := facts.2.2.2.2
  omega

end TskSw.BlkThreads
