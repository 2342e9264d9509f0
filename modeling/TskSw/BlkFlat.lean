import TskSw.BlkIo
import Mathlib.Data.List.Nodup
import Mathlib.Logic.Function.Basic

/-! What the buffer cache is for: a disk whose blocks are read, changed while held and
stored. `view` is what the next read of a block returns. A change that is released
without a write survives only in a buffer that is dirty already, because a clean one
is filled from the image again. The cache does the same up to its one panic. -/
namespace TskSw.BlkFlat
open Bytes BlockProgram BlkIo
open Function (update update_of_ne update_self)

structure Disk where
  view : Nat → Block
  dirty : Nat → Bool
  held : Nat → Option Block
  size : Nat

def Disk.take (t : Disk) (n : Nat) : Disk := {t with held := update t.held n (some (t.view n))}
def Disk.edit (t : Disk) (n : Nat) (d : Block) : Disk := {t with held := update t.held n (some d)}
def Disk.store (t : Disk) (n : Nat) (d : Block) : Disk :=
  {t with view := update t.view n d, dirty := update t.dirty n true}
def Disk.drop (t : Disk) (n : Nat) (d : Block) : Disk :=
  {t with held := update t.held n none,
          view := if t.dirty n then update t.view n d else t.view}

def diskLayer : Layer Disk Nat Block Fault where
  read n t := match t.held n with
    | some _ => .error .sleeps
    | none => if t.size ≤ n then .error .outOfBounds else .ok (t.take n)
  data n t := match t.held n with
    | some d => .ok d
    | none => .error .stale
  set n d t := match t.held n with
    | some _ => .ok (t.edit n d)
    | none => .error .stale
  write n t := match t.held n with
    | some d => .ok (t.store n d)
    | none => .error .stale
  release n t := match t.held n with
    | some d => .ok (t.drop n d)
    | none => .error .stale

variable {t : Disk} {n i : Nat} {c : Cache} {s : Store}

section Flat
variable {u : Disk} {d : Block}

theorem readTakes : diskLayer.read n t = .ok u ↔ t.held n = none ∧ n < t.size ∧ t.take n = u := by
  simp only [diskLayer]
  cases t.held n with
  | some _ => simp
  | none =>
    by_cases outside : t.size ≤ n
    · simp [outside]
    · simp [outside,Nat.lt_of_not_le outside]

theorem setEdits : diskLayer.set n d t = .ok u ↔ (∃ e, t.held n = some e) ∧ t.edit n d = u := by
  simp only [diskLayer]
  cases t.held n <;> simp

theorem writeStores : diskLayer.write n t = .ok u ↔ ∃ d, t.held n = some d ∧ t.store n d = u := by
  simp only [diskLayer]
  cases t.held n <;> simp

theorem releaseDrops : diskLayer.release n t = .ok u ↔ ∃ d, t.held n = some d ∧ t.drop n d = u := by
  simp only [diskLayer]
  cases t.held n <;> simp

end Flat

structure Cached (b : BlkBuf) (image : Nat → Block) (blocks : Nat) (t : Disk) : Prop where
  held : t.held b.blockno = if b.busy then some b.data else none
  dirty : t.dirty b.blockno = b.dirty
  view : t.view b.blockno = if b.busy = false ∧ b.dirty = true then b.data else image b.blockno
  bound : b.busy = true → b.blockno < blocks

structure Matches (s : Store) (t : Disk) : Prop where
  nodup : s.cache.mru.Nodup
  invalid : ∀ i ∈ s.cache.mru, (s.cache.buf i).valid = false
  unique : ∀ i ∈ s.cache.mru, ∀ j ∈ s.cache.mru, (s.cache.buf i).dev ≠ blkDevNodev →
    (s.cache.buf i).dev = (s.cache.buf j).dev → (s.cache.buf i).blockno = (s.cache.buf j).blockno → i = j
  size : t.size = s.blocks
  cached : ∀ i ∈ s.cache.mru, (s.cache.buf i).dev = rootDev → Cached (s.cache.buf i) s.image s.blocks t
  absent : ∀ n, (∀ i ∈ s.cache.mru, (s.cache.buf i).dev = rootDev → (s.cache.buf i).blockno ≠ n) →
    t.held n = none ∧ t.dirty n = false ∧ t.view n = s.image n

def flat (image : Nat → Block) (blocks : Nat) : Disk := ⟨image,fun _ => false,fun _ => none,blocks⟩

theorem bootMatches (image : Nat → Block) (blocks : Nat) : Matches (boot image blocks) (flat image blocks) where
  nodup := by simp [boot,bufferCacheInit,List.nodup_range]
  invalid := fun _ _ => rfl
  unique := fun _ _ _ _ h => absurd rfl h
  size := rfl
  cached := fun i _ h => by
    have : blkDevNodev = rootDev := h
    simp [blkDevNodev,rootDev] at this
  absent := fun _ _ => ⟨rfl,rfl,rfl⟩

theorem holdsIff (b : BlkBuf) (dev n : Nat) : b.holds dev n = true ↔ b.dev = dev ∧ b.blockno = n := by
  simp [BlkBuf.holds]

theorem searchFound {dev n i} (h : c.search dev n = some i) :
    i ∈ c.mru ∧ (c.buf i).dev = dev ∧ (c.buf i).blockno = n := by
  have found := List.find?_some h
  exact ⟨List.mem_of_find?_eq_some h,(holdsIff _ _ _).mp found⟩

theorem searchMissed {dev : Nat} (h : c.search dev n = none) :
    ∀ i ∈ c.mru, (c.buf i).dev = dev → (c.buf i).blockno ≠ n := by
  intro i mem key same
  exact List.find?_eq_none.mp h i mem ((holdsIff _ _ _).mpr ⟨key,same⟩)

theorem reusableFound (h : c.reusable = some i) :
    i ∈ c.mru ∧ (c.buf i).busy = false ∧ (c.buf i).dirty = false := by
  have found := List.find?_some h
  have mem := List.mem_reverse.mp (List.mem_of_find?_eq_some h)
  simp only [Bool.and_eq_true,Bool.not_eq_true'] at found
  exact ⟨mem,found⟩

theorem heldCases (h : Matches s t) (n : Nat) :
    (∃ i ∈ s.cache.mru, held s n = .ok i ∧ (s.cache.buf i).dev = rootDev ∧ (s.cache.buf i).blockno = n ∧
      (s.cache.buf i).busy = true ∧ t.held n = some (s.cache.buf i).data) ∨
    (held s n = .error .stale ∧ t.held n = none) := by
  unfold held
  cases found : s.cache.mru.find? (fun i => (s.cache.buf i).holds rootDev n && (s.cache.buf i).busy) with
  | some i =>
    have prop := List.find?_some found
    have mem := List.mem_of_find?_eq_some found
    simp only [Bool.and_eq_true,holdsIff] at prop
    have cached := (h.cached i mem prop.1.1).held
    rw [prop.1.2,if_pos prop.2] at cached
    exact Or.inl ⟨i,mem,rfl,prop.1.1,prop.1.2,prop.2,cached⟩
  | none =>
    refine Or.inr ⟨rfl,?_⟩
    have missed := List.find?_eq_none.mp found
    by_cases present : ∃ i ∈ s.cache.mru, (s.cache.buf i).dev = rootDev ∧ (s.cache.buf i).blockno = n
    · obtain ⟨i,mem,dev,block⟩ := present
      have idle : (s.cache.buf i).busy = false := by
        have := missed i mem
        simpa [holdsIff,dev,block] using this
      have cached := (h.cached i mem dev).held
      rw [block,idle] at cached
      simpa using cached
    · refine (h.absent n ?_).1
      intro i mem dev block
      exact present ⟨i,mem,dev,block⟩

theorem matchesChange {s t t'} (h : Matches s t) {i n b image mru} (mem : i ∈ s.cache.mru)
    (order : ∀ j, j ∈ mru ↔ j ∈ s.cache.mru) (nodup : mru.Nodup)
    (dev : b.dev = rootDev) (block : b.blockno = n) (invalid : b.valid = false)
    (alone : ∀ j ∈ s.cache.mru, j ≠ i → (s.cache.buf j).dev = rootDev → (s.cache.buf j).blockno ≠ n)
    (leaves : (s.cache.buf i).dev = rootDev → (s.cache.buf i).blockno ≠ n →
      (s.cache.buf i).busy = false ∧ (s.cache.buf i).dirty = false)
    (imageSame : ∀ m, m ≠ n → image m = s.image m) (size : t'.size = t.size)
    (diskSame : ∀ m, m ≠ n → t'.held m = t.held m ∧ t'.dirty m = t.dirty m ∧ t'.view m = t.view m)
    (cached : Cached b image s.blocks t') :
    Matches ⟨⟨update s.cache.buf i b,mru⟩,image,s.blocks⟩ t' where
  nodup := nodup
  invalid := fun j hj => by
    by_cases eq : j = i
    · subst eq; simpa using invalid
    · simpa [eq] using h.invalid j ((order j).mp hj)
  unique := fun j hj k hk real sameDev sameBlock => by
    have mj := (order j).mp hj
    have mk := (order k).mp hk
    by_cases ej : j = i <;> by_cases ek : k = i
    · exact ej.trans ek.symm
    · subst ej
      simp only [update_self,update_of_ne ek] at sameDev sameBlock
      exact absurd (sameBlock.symm.trans block) (alone k mk ek (sameDev.symm.trans dev))
    · subst ek
      simp only [update_self,update_of_ne ej] at sameDev sameBlock
      exact absurd (sameBlock.trans block) (alone j mj ej (sameDev.trans dev))
    · simp only [update_of_ne ej,update_of_ne ek] at real sameDev sameBlock
      exact h.unique j mj k mk real sameDev sameBlock
  size := size.trans h.size
  cached := fun j hj key => by
    have hj := (order j).mp hj
    by_cases eq : j = i
    · subst eq; simpa using cached
    · simp only [update_of_ne eq] at key ⊢
      have old := h.cached j hj key
      have other := alone j hj eq key
      have same := diskSame _ other
      exact ⟨same.1.trans old.held,same.2.1.trans old.dirty,
        by rw [same.2.2,old.view,imageSame _ other],old.bound⟩
  absent := fun m none => by
    have other : m ≠ n := by
      intro eq
      exact none i ((order i).mpr mem) (by simpa using dev) (by simpa [eq] using block)
    have same := diskSame m other
    change t'.held m = Option.none ∧ t'.dirty m = false ∧ t'.view m = image m
    rw [same.1,same.2.1,same.2.2,imageSame m other]
    have rest : ∀ j ∈ s.cache.mru, j ≠ i → (s.cache.buf j).dev = rootDev → (s.cache.buf j).blockno ≠ m := by
      intro j hj eq key
      have := none j ((order j).mpr hj)
      simp only [update_of_ne eq] at this
      exact this key
    by_cases was : (s.cache.buf i).dev = rootDev ∧ (s.cache.buf i).blockno = m
    · have idle := leaves was.1 (by rw [was.2]; exact other)
      have old := h.cached i mem was.1
      refine ⟨?_,?_,?_⟩
      · simpa [was.2,idle.1] using old.held
      · simpa [was.2,idle.2] using old.dirty
      · simpa [was.2,idle.2] using old.view
    · refine h.absent m ?_
      intro j hj key
      by_cases eq : j = i
      · subst eq; exact fun block => was ⟨key,block⟩
      · exact rest j hj eq key

theorem othersApart {s t} (h : Matches s t) {i n} (mem : i ∈ s.cache.mru)
    (dev : (s.cache.buf i).dev = rootDev) (block : (s.cache.buf i).blockno = n) :
    ∀ j ∈ s.cache.mru, j ≠ i → (s.cache.buf j).dev = rootDev → (s.cache.buf j).blockno ≠ n := by
  intro j hj ne key same
  have real : (s.cache.buf j).dev ≠ blkDevNodev := by rw [key]; decide
  exact ne (h.unique j hj i mem real (key.trans dev.symm) (same.trans block.symm))

theorem blkrwRoot (busy : (s.cache.buf i).busy = true) (dev : (s.cache.buf i).dev = rootDev) :
    blkrw i s = if s.blocks ≤ (s.cache.buf i).blockno then .error .outOfBounds
      else if (s.cache.buf i).dirty then .ok (memideWriteSector i s) else .ok (memideReadSector i s) := by
  simp [blkrw,memideRw,dev,busy,rootDev,devswDevicesNr]

theorem readGot {b : BlkBuf} (got : bufferCacheBlkGet rootDev n s.cache = .ok (i,s.cache.set i b)) (busy : b.busy = true)
    (dev : b.dev = rootDev) (block : b.blockno = n) (invalid : b.valid = false) :
    cacheLayer.read n s = if s.blocks ≤ n then .error .outOfBounds else .ok
      (if b.dirty then ⟨⟨update s.cache.buf i b,s.cache.mru⟩,update s.image n b.data,s.blocks⟩
       else ⟨⟨update s.cache.buf i {b with data := s.image n},s.cache.mru⟩,s.image,s.blocks⟩) := by
  have at' : (s.cache.set i b).buf i = b := by simp [Cache.set]
  have rw := blkrwRoot (i := i) (s := {s with cache := s.cache.set i b}) (by rw [at']; exact busy)
    (by rw [at']; exact dev)
  simp only [at',block] at rw
  simp only [cacheLayer,bufferCacheBlkRead,got,bind,Except.bind,at',invalid,rw,Bool.not_false,if_true]
  by_cases inside : s.blocks ≤ n
  · simp [inside]
  · by_cases stored : b.dirty = true
    · simp [inside,stored,memideWriteSector,Cache.set,block]
    · simp [inside,stored,memideReadSector,Cache.set,block,invalid]

theorem readTaken {s t} (h : Matches s t) {i n b} (mem : i ∈ s.cache.mru)
    (got : bufferCacheBlkGet rootDev n s.cache = .ok (i,s.cache.set i b)) (busy : b.busy = true)
    (dev : b.dev = rootDev) (block : b.blockno = n) (invalid : b.valid = false)
    (alone : ∀ j ∈ s.cache.mru, j ≠ i → (s.cache.buf j).dev = rootDev → (s.cache.buf j).blockno ≠ n)
    (leaves : (s.cache.buf i).dev = rootDev → (s.cache.buf i).blockno ≠ n →
      (s.cache.buf i).busy = false ∧ (s.cache.buf i).dirty = false)
    (free : t.held n = none) (dirty : t.dirty n = b.dirty) (view : t.view n = if b.dirty then b.data else s.image n) :
    Agree (· = Fault.noBuffers) Matches (cacheLayer.read n s) (diskLayer.read n t) := by
  have taken : ∀ m, m ≠ n → (t.take n).held m = t.held m ∧ (t.take n).dirty m = t.dirty m ∧ (t.take n).view m = t.view m :=
    fun m other => ⟨update_of_ne other _ _,rfl,rfl⟩
  rw [readGot got busy dev block invalid]
  by_cases outside : s.blocks ≤ n
  · exact Or.inr (Or.inl ⟨.outOfBounds,by rw [if_pos outside],by simp [diskLayer,free,h.size,outside]⟩)
  · refine Or.inr (Or.inr ⟨_,t.take n,if_neg outside,by simp [diskLayer,free,h.size,outside],?_⟩)
    by_cases stored : b.dirty = true
    · rw [if_pos stored] at view ⊢
      refine matchesChange h mem (fun _ => Iff.rfl) h.nodup dev block invalid alone leaves
        (fun m other => update_of_ne other _ _) rfl taken ?_
      exact ⟨by simp [Disk.take,block,busy,view],by simpa [Disk.take,block] using dirty,
        by simp [Disk.take,block,view],fun _ => by simpa [block] using outside⟩
    · rw [if_neg stored] at view ⊢
      refine matchesChange h mem (fun _ => Iff.rfl) h.nodup dev block invalid alone leaves (fun m other => rfl) rfl taken ?_
      exact ⟨by simp [Disk.take,block,busy,view],by simpa [Disk.take,block] using dirty,
        by simp [Disk.take,block,view],fun _ => by simpa [block] using outside⟩

theorem readAgrees (h : Matches s t) (n : Nat) :
    Agree (· = Fault.noBuffers) Matches (cacheLayer.read n s) (diskLayer.read n t) := by
  cases found : s.cache.search rootDev n with
  | some i =>
    obtain ⟨mem,dev,block⟩ := searchFound found
    have cached := h.cached i mem dev
    cases busy : (s.cache.buf i).busy with
    | true =>
      refine Or.inr (Or.inl ⟨.sleeps,?_,?_⟩)
      · simp [cacheLayer,bufferCacheBlkRead,bufferCacheBlkGet,found,busy,bind,Except.bind]
      · have taken : t.held n = some (s.cache.buf i).data := by simpa [block,busy] using cached.held
        simp [diskLayer,taken]
    | false =>
      have free : t.held n = none := by simpa [block,busy] using cached.held
      have got : bufferCacheBlkGet rootDev n s.cache = .ok (i,s.cache.set i {s.cache.buf i with busy := true}) := by
        simp [bufferCacheBlkGet,found,busy]
      have view := cached.view
      have dirty := cached.dirty
      rw [block] at view dirty
      exact readTaken h mem got rfl dev block (h.invalid i mem) (othersApart h mem dev block) (fun _ other => absurd block other)
        free dirty (by simpa [busy] using view)
  | none =>
    have missed := searchMissed found
    cases reuse : s.cache.reusable with
    | none =>
      refine Or.inl ⟨.noBuffers,?_,rfl⟩
      simp [cacheLayer,bufferCacheBlkRead,bufferCacheBlkGet,found,reuse,bind,Except.bind]
    | some i =>
      obtain ⟨mem,idle,clean⟩ := reusableFound reuse
      obtain ⟨free,undirty,view⟩ := h.absent n missed
      have got : bufferCacheBlkGet rootDev n s.cache = .ok (i,s.cache.set i
          {s.cache.buf i with dev := rootDev, blockno := n, busy := true, valid := false, dirty := false}) := by
        simp [bufferCacheBlkGet,found,reuse]
      exact readTaken h mem got rfl rfl rfl rfl (fun j hj _ key => missed j hj key) (fun _ _ => ⟨idle,clean⟩) free undirty view

theorem setAgrees {s t} (h : Matches s t) (n : Nat) (d : Block) :
    Agree (fun _ => False) Matches (cacheLayer.set n d s) (diskLayer.set n d t) := by
  rcases heldCases h n with ⟨i,mem,found,dev,block,busy,data⟩ | ⟨lost,none⟩
  · refine Or.inr (Or.inr ⟨⟨⟨update s.cache.buf i {s.cache.buf i with data := d},s.cache.mru⟩,
      s.image,s.blocks⟩,t.edit n d,?_,by simp [diskLayer,data],?_⟩)
    · simp [cacheLayer,found,bind,Except.bind,Cache.set]
    have old := h.cached i mem dev
    refine matchesChange h mem (fun _ => Iff.rfl) h.nodup dev block (h.invalid i mem)
      (othersApart h mem dev block) (fun _ other => absurd block other)
      (fun m other => rfl) rfl (fun m other => ⟨update_of_ne other _ _,rfl,rfl⟩) ?_
    exact ⟨by simp [Disk.edit,block,busy],old.dirty,by simpa [Disk.edit,busy] using old.view,old.bound⟩
  · exact Or.inr (Or.inl ⟨.stale,by simp [cacheLayer,lost,bind,Except.bind],by simp [diskLayer,none]⟩)

theorem writeAgrees {s t} (h : Matches s t) (n : Nat) :
    Agree (fun _ => False) Matches (cacheLayer.write n s) (diskLayer.write n t) := by
  rcases heldCases h n with ⟨i,mem,found,dev,block,busy,data⟩ | ⟨lost,none⟩
  · have old := h.cached i mem dev
    have inside := old.bound busy
    refine Or.inr (Or.inr ⟨⟨⟨update s.cache.buf i {s.cache.buf i with dirty := true},s.cache.mru⟩,
      update s.image n (s.cache.buf i).data,s.blocks⟩,t.store n (s.cache.buf i).data,
      ?_,by simp [diskLayer,data],?_⟩)
    · have bounded : ¬ s.blocks ≤ n := by omega
      simp [cacheLayer,found,bind,Except.bind,bufferCacheBlkWrite,busy,blkrw,memideRw,Cache.set,dev,block,
        rootDev,devswDevicesNr,bounded,memideWriteSector]
    refine matchesChange h mem (fun _ => Iff.rfl) h.nodup dev block (h.invalid i mem)
      (othersApart h mem dev block) (fun _ other => absurd block other)
      (fun m other => update_of_ne other _ _) rfl
      (fun m other => ⟨rfl,update_of_ne other _ _,update_of_ne other _ _⟩) ?_
    exact ⟨old.held,by simp [Disk.store,block],by simp [Disk.store,block],old.bound⟩
  · exact Or.inr (Or.inl ⟨.stale,by simp [cacheLayer,lost,bind,Except.bind],by simp [diskLayer,none]⟩)

theorem releaseAgrees {s t} (h : Matches s t) (n : Nat) :
    Agree (fun _ => False) Matches (cacheLayer.release n s) (diskLayer.release n t) := by
  rcases heldCases h n with ⟨i,mem,found,dev,block,busy,data⟩ | ⟨lost,none⟩
  · have old := h.cached i mem dev
    have dirty := old.dirty
    have view := old.view
    rw [block] at dirty view
    refine Or.inr (Or.inr ⟨⟨⟨update s.cache.buf i {s.cache.buf i with busy := false},
      i :: s.cache.mru.erase i⟩,s.image,s.blocks⟩,t.drop n (s.cache.buf i).data,?_,by simp [diskLayer,data],?_⟩)
    · simp [cacheLayer,found,bind,Except.bind,bufferCacheBlkRelease,busy]
    have order : ∀ j, j ∈ i :: s.cache.mru.erase i ↔ j ∈ s.cache.mru := by
      intro j
      rw [(List.perm_cons_erase mem).mem_iff]
    have nodup : (i :: s.cache.mru.erase i).Nodup := (List.perm_cons_erase mem).nodup_iff.mp h.nodup
    refine matchesChange h mem order nodup dev block (h.invalid i mem)
      (othersApart h mem dev block) (fun _ other => absurd block other)
      (fun m other => rfl) rfl (fun m other => ⟨update_of_ne other _ _,rfl,?_⟩) ?_
    · simp only [Disk.drop]
      split
      · exact update_of_ne other _ _
      · rfl
    · refine ⟨by simp [Disk.drop,block],by simpa [Disk.drop,block] using dirty,?_,by simp⟩
      cases stored : (s.cache.buf i).dirty with
      | true => simp [Disk.drop,block,dirty,stored]
      | false => simpa [Disk.drop,block,dirty,stored] using view
  · exact Or.inr (Or.inl ⟨.stale,by simp [cacheLayer,lost,bind,Except.bind],by simp [diskLayer,none]⟩)

theorem dataAgrees {s t} (h : Matches s t) (n : Nat) :
    cacheLayer.data n s = diskLayer.data n t := by
  rcases heldCases h n with ⟨i,mem,found,dev,block,busy,data⟩ | ⟨lost,none⟩
  · simp [cacheLayer,diskLayer,found,data,bind,Except.bind]
  · simp [cacheLayer,diskLayer,lost,none,bind,Except.bind]

theorem cacheSimulates : Simulates cacheLayer diskLayer (· = Fault.noBuffers) Matches where
  read := fun n _ _ h => readAgrees h n
  data := fun n _ _ h => dataAgrees h n
  set := fun n d _ _ h => agreeExcused (setAgrees h n d)
  write := fun n _ _ h => agreeExcused (writeAgrees h n)
  release := fun n _ _ h => agreeExcused (releaseAgrees h n)

def cachedView (s : Store) (n : Nat) : Block :=
  match s.cache.search rootDev n with
  | some i => if !(s.cache.buf i).busy && (s.cache.buf i).dirty then (s.cache.buf i).data else s.image n
  | none => s.image n

theorem matchesView (h : Matches s t) : cachedView s = t.view := by
  funext n
  unfold cachedView
  cases found : s.cache.search rootDev n with
  | none => exact (h.absent n (searchMissed found)).2.2.symm
  | some i =>
    obtain ⟨mem,dev,block⟩ := searchFound found
    have view := (h.cached i mem dev).view
    rw [block] at view
    simp [view]

theorem matchesQuiet {s t} (h : Matches s t) (idle : ∀ i ∈ s.cache.mru, (s.cache.buf i).busy = false)
    (n : Nat) : t.held n = none := by
  rcases heldCases h n with ⟨i,mem,_,_,_,busy,_⟩ | ⟨_,none⟩
  · rw [idle i mem] at busy; cases busy
  · exact none

end TskSw.BlkFlat
