import TskSw.BlkFlat
import TskSw.Recency

/-! Which buffer the cache gives away. Only `buffer_cache_blk_release` touches the list, and the
search for a buffer to reuse goes through it from the end. Callers name a buffer by the pointer
they got, so any device, block and buffer may occur. -/
namespace TskSw.BlkRecency
open BlockProgram BlkIo BlkFlat Recency

inductive Op where
  | read (dev blockno : Nat)
  | write (b : Nat)
  | release (b : Nat)

def call : Op → Store → Except Fault Store
  | .read dev blockno,s => do
      let (_,s) ← bufferCacheBlkRead dev blockno s
      .ok s
  | .write b,s => bufferCacheBlkWrite b s
  | .release b,s => bufferCacheBlkRelease b s

def calls : List Op → Store → Except Fault Store
  | [],s => .ok s
  | op :: rest,s => do
      let s ← call op s
      calls rest s

def released (used : List Nat) : List Op → List Nat
  | [] => used
  | .release b :: rest => released (b :: used) rest
  | _ :: rest => released used rest

def initFirst (a b : Nat) : Prop := a < b

def Idle (c : Cache) (b : Nat) : Prop := (c.buf b).busy = false ∧ (c.buf b).dirty = false

structure Listed (s : Store) (used : List Nat) : Prop where
  nodup : s.cache.mru.Nodup
  members : ∀ b, b ∈ s.cache.mru ↔ b < nbuf
  ordered : ByRecency initFirst used s.cache.mru
  busy : ∀ b, (s.cache.buf b).busy = true → b < nbuf

section Steps
variable {s u : Store} {used : List Nat} {b dev blockno : Nat}

structure Aside (s u : Store) : Prop where
  mru : u.cache.mru = s.cache.mru
  busy : ∀ b, (u.cache.buf b).busy = true → (s.cache.buf b).busy = true ∨ b ∈ s.cache.mru

theorem listedAside (h : Listed s used) (aside : Aside s u) : Listed u used := by
  refine ⟨?_,fun b => ?_,?_,fun b busy => ?_⟩
  · rw [aside.mru]
    exact h.nodup
  · rw [aside.mru]
    exact h.members b
  · rw [aside.mru]
    exact h.ordered
  · rcases aside.busy b busy with old | member
    · exact h.busy b old
    · exact (h.members b).mp member

theorem blkrwAside (ok : blkrw b s = .ok u) : u.cache.mru = s.cache.mru ∧ ∀ j, (u.cache.buf j).busy = (s.cache.buf j).busy := by
  simp only [blkrw,memideRw] at ok
  repeat' split at ok
  all_goals first | contradiction | skip
  all_goals cases ok
  all_goals refine ⟨rfl,fun j => ?_⟩
  all_goals first | rfl | skip
  by_cases same : j = b
  · subst same
    simp [memideReadSector,Cache.set]
  · simp [memideReadSector,Cache.set,same]

theorem getAside {c} (ok : bufferCacheBlkGet dev blockno s.cache = .ok (b,c)) :
    c.mru = s.cache.mru ∧ ∀ j, (c.buf j).busy = true → (s.cache.buf j).busy = true ∨ j ∈ s.cache.mru := by
  have taken : ∀ x : BlkBuf, b ∈ s.cache.mru → ∀ j, ((s.cache.set b x).buf j).busy = true → (s.cache.buf j).busy = true ∨
    j ∈ s.cache.mru := by
    intro x member j busy
    by_cases same : j = b
    · subst same
      exact Or.inr member
    · simp only [Cache.set,Function.update_of_ne same] at busy
      exact Or.inl busy
  unfold bufferCacheBlkGet at ok
  split at ok
  · rename_i i found
    split at ok
    · cases ok
    · cases ok
      exact ⟨rfl,taken _ (List.mem_of_find?_eq_some found)⟩
  · split at ok
    · rename_i i reuse
      cases ok
      exact ⟨rfl,taken _ (List.mem_reverse.mp (List.mem_of_find?_eq_some reuse))⟩
    · cases ok

theorem readAside (ok : call (.read dev blockno) s = .ok u) : Aside s u := by
  obtain ⟨⟨i,v⟩,read,last⟩ := exceptBindOk.mp ok
  cases last
  obtain ⟨⟨j,c⟩,got,rest⟩ := exceptBindOk.mp read
  obtain ⟨mru,busy⟩ := getAside got
  dsimp only at rest
  split at rest
  · obtain ⟨w,served,last⟩ := exceptBindOk.mp rest
    cases last
    obtain ⟨mru',busy'⟩ := blkrwAside served
    exact ⟨mru'.trans mru,fun b here => busy b (by rw [← busy']; exact here)⟩
  · cases rest
    exact ⟨mru,busy⟩

theorem writeAside (ok : call (.write b) s = .ok u) : Aside s u := by
  simp only [call,bufferCacheBlkWrite] at ok
  split at ok
  · cases ok
  · rename_i held
    obtain ⟨mru,busy⟩ := blkrwAside ok
    refine ⟨mru,fun j here => Or.inl ?_⟩
    rw [busy] at here
    by_cases same : j = b
    · subst same
      simpa using held
    · simpa [Cache.set,same] using here

theorem releaseListed (h : Listed s used) (ok : call (.release b) s = .ok u) : Listed u (b :: used) := by
  simp only [call,bufferCacheBlkRelease] at ok
  split at ok
  · cases ok
  rename_i held
  cases ok
  have member : b ∈ s.cache.mru := (h.members b).mpr (h.busy b (by simpa using held))
  refine ⟨moveFrontNodup h.nodup,fun j => (moveFrontMem member j).trans (h.members j),moveFrontOrdered h.ordered h.nodup,fun j busy => ?_⟩
  by_cases same : j = b
  · subst same
    exact (h.members j).mp member
  · exact h.busy j (by simpa [same] using busy)

theorem callsListed {ops} (h : Listed s used) (ok : calls ops s = .ok u) : Listed u (released used ops) := by
  induction ops generalizing s used with
  | nil =>
    cases ok
    exact h
  | cons op rest ih =>
    obtain ⟨v,first,later⟩ := exceptBindOk.mp ok
    cases op with
    | read dev blockno => exact ih (listedAside h (readAside first)) later
    | write b => exact ih (listedAside h (writeAside first)) later
    | release b => exact ih (releaseListed h first) later

theorem bootListed (image : Nat → Block) (blocks : Nat) : Listed (boot image blocks) [] := by
  have list : (boot image blocks).cache.mru = (List.range nbuf).reverse := by simp only [boot,bufferCacheInit]
  refine ⟨?_,fun b => ?_,?_,fun b busy => ?_⟩
  · rw [list]
    exact List.nodup_reverse.mpr List.nodup_range
  · rw [list,List.mem_reverse,List.mem_range]
  · rw [list]
    exact List.pairwise_reverse.mpr (List.pairwise_lt_range.imp fun less => Or.inr ⟨List.not_mem_nil,List.not_mem_nil,less⟩)
  · simp [boot,bufferCacheInit,emptyBuf] at busy

end Steps

theorem oldestIsReused {image : Nat → Block} {blocks : Nat} {ops : List Op} {s : Store} (ran : calls ops (boot image blocks) = .ok s) :
    s.cache.mru.Nodup ∧ (∀ b, b ∈ s.cache.mru ↔ b < nbuf) ∧ s.cache.mru.Pairwise (fun a b => Older initFirst (released [] ops) b a) ∧
    ∀ dev blockno b c, (∀ a < nbuf, (s.cache.buf a).holds dev blockno = false) → bufferCacheBlkGet dev blockno s.cache = .ok (b,c) →
      b < nbuf ∧ Idle s.cache b ∧ ∀ a < nbuf, Idle s.cache a → a ≠ b → Older initFirst (released [] ops) b a := by
  have h := callsListed (bootListed image blocks) ran
  refine ⟨h.nodup,h.members,h.ordered,fun dev blockno b c missed got => ?_⟩
  have idle : ∀ a, (!(s.cache.buf a).busy && !(s.cache.buf a).dirty) = true ↔ Idle s.cache a := fun a => by
    simp [Idle]
  unfold bufferCacheBlkGet at got
  split at got
  · rename_i i found
    have holds := List.find?_some found
    rw [missed i ((h.members i).mp (List.mem_of_find?_eq_some found))] at holds
    cases holds
  · split at got
    · rename_i i reuse
      cases got
      obtain ⟨member,fits,oldest⟩ := findOldest h.ordered reuse
      exact ⟨(h.members b).mp member,(idle b).mp fits,fun a inside free other => oldest a ((h.members a).mpr inside) ((idle a).mpr free) other⟩
    · cases got

def twoUsed : List Op := [.read 1 5,.read 1 6,.release 1,.release 0]

theorem unusedIsTaken : ∃ s c, calls twoUsed (boot (fun _ _ => 0) 8) = .ok s ∧ bufferCacheBlkGet 1 7 s.cache = .ok (2,c) ∧
    ∀ a < nbuf, Idle s.cache a → a ≠ 2 → Older initFirst [0,1] 2 a := by
  have seen : (calls twoUsed (boot (fun _ _ => 0) 8)).toOption.map (fun s => ((List.range nbuf).all fun a => !(s.cache.buf a).holds 1 7,
      (bufferCacheBlkGet 1 7 s.cache).toOption.map Prod.fst)) = some (true,some 2) := by decide +kernel
  cases ran : calls twoUsed (boot (fun _ _ => 0) 8) with
  | error e =>
    rw [ran] at seen
    cases seen
  | ok s =>
    rw [ran] at seen
    obtain ⟨missed,taken⟩ := Prod.mk.inj (Option.some.inj seen)
    cases got : bufferCacheBlkGet 1 7 s.cache with
    | error e =>
      rw [got] at taken
      cases taken
    | ok r =>
      obtain ⟨b,c⟩ := r
      rw [got] at taken
      cases taken
      refine ⟨s,c,rfl,got,((oldestIsReused ran).2.2.2 1 7 2 c (fun a inside => ?_) got).2.2⟩
      have absent := List.all_eq_true.mp missed a (List.mem_range.mpr inside)
      simpa using absent

end TskSw.BlkRecency
