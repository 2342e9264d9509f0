import TskSw.BlkRuns

/-! When the cache runs out of buffers. `B_DIRTY` is set by every write and cleared by
nothing, so the buffer of a written block is never given to another block: the blocks
written so far and the blocks held now each keep one buffer for good. -/
namespace TskSw.BlkRecycle
open Bytes BlockProgram BlkIo BlkFlat BlkRuns

structure History where
  written : Finset Nat
  held : Finset Nat

def History.step (h : History) : Op → History
  | .read n => {h with held := insert n h.held}
  | .modify _ _ => h
  | .write n => {h with written := insert n h.written}
  | .release n => {h with held := h.held.erase n}

def history (ops : List Op) : History := ops.foldl History.step ⟨∅,∅⟩

def History.kept (h : History) : Finset Nat := h.written ∪ h.held

structure Tracks (s : Store) (h : History) : Prop where
  seen : ∃ t, Matches s t ∧ (∀ n, t.held n ≠ none ↔ n ∈ h.held) ∧ ∀ n, t.dirty n = true ↔ n ∈ h.written
  members : ∀ i, i ∈ s.cache.mru ↔ i < nbuf
  owned : ∀ i ∈ s.cache.mru, (s.cache.buf i).busy = true ∨ (s.cache.buf i).dirty = true →
    (s.cache.buf i).dev = rootDev

theorem bootTracks (image : Nat → Block) (blocks : Nat) : Tracks (boot image blocks) ⟨∅,∅⟩ where
  seen := ⟨flat image blocks,bootMatches image blocks,by simp [flat],by simp [flat]⟩
  members := by simp [boot,bufferCacheInit]
  owned := by simp [boot,bufferCacheInit,emptyBuf]

structure Shaped (n : Nat) (s u : Store) : Prop where
  changed : ∃ i b, u.cache.buf = Function.update s.cache.buf i b ∧ b.dev = rootDev ∧ b.blockno = n
  inside : n < s.blocks
  size : u.blocks = s.blocks
  members : ∀ j, j ∈ u.cache.mru ↔ j ∈ s.cache.mru

theorem readShaped {s u t n} (matched : Matches s t)
    (h : cacheLayer.read n s = .ok u) : Shaped n s u := by
  have shape : ∀ i b, bufferCacheBlkGet rootDev n s.cache = .ok (i,s.cache.set i b) → b.busy = true →
      b.dev = rootDev → b.blockno = n → b.valid = false → Shaped n s u := by
    intro i b got busy dev block invalid
    rw [readGot got busy dev block invalid] at h
    split at h <;> try contradiction
    have inside : n < s.blocks := by omega
    cases h
    split
    · exact ⟨⟨i,b,rfl,dev,block⟩,inside,rfl,fun _ => Iff.rfl⟩
    · exact ⟨⟨i,_,rfl,dev,block⟩,inside,rfl,fun _ => Iff.rfl⟩
  cases found : s.cache.search rootDev n with
  | some i =>
    obtain ⟨mem,dev,block⟩ := searchFound found
    cases busy : (s.cache.buf i).busy with
    | true => simp [cacheLayer,bufferCacheBlkRead,bufferCacheBlkGet,found,busy,bind,Except.bind] at h
    | false =>
      exact shape i {s.cache.buf i with busy := true} (by simp [bufferCacheBlkGet,found,busy]) rfl dev block
        (matched.invalid i mem)
  | none =>
    cases reuse : s.cache.reusable with
    | none => simp [cacheLayer,bufferCacheBlkRead,bufferCacheBlkGet,found,reuse,bind,Except.bind] at h
    | some i =>
      exact shape i {s.cache.buf i with dev := rootDev, blockno := n, busy := true, valid := false, dirty := false}
        (by simp [bufferCacheBlkGet,found,reuse]) rfl rfl rfl rfl

theorem setShaped {s u t n d} (matched : Matches s t)
    (h : cacheLayer.set n d s = .ok u) : Shaped n s u := by
  obtain ⟨i,hi,last⟩ := exceptBindOk.mp h
  cases last
  rcases heldCases matched n with ⟨j,mem,found,dev,block,busy,_⟩ | ⟨lost,_⟩
  · rw [hi] at found
    cases found
    exact ⟨⟨i,_,rfl,dev,block⟩,block ▸ (matched.cached i mem dev).bound busy,rfl,fun _ => Iff.rfl⟩
  · rw [hi] at lost; cases lost

variable {s u : Store} {h : History} {S : Finset Nat} {n : Nat} {t : Disk}

theorem writeShaped (matched : Matches s t) (h : cacheLayer.write n s = .ok u) : Shaped n s u := by
  obtain ⟨i,hi,hw⟩ := exceptBindOk.mp h
  rcases heldCases matched n with ⟨j,mem,found,dev,block,busy,_⟩ | ⟨lost,_⟩
  · rw [hi] at found
    cases found
    have bounded : ¬ s.blocks ≤ n := by
      have := (matched.cached i mem dev).bound busy
      omega
    simp [bufferCacheBlkWrite,busy,blkrw,memideRw,Cache.set,dev,block,rootDev,devswDevicesNr,bounded,
      memideWriteSector] at hw
    subst hw
    exact ⟨⟨i,_,rfl,rfl,rfl⟩,Nat.lt_of_not_le bounded,rfl,fun _ => Iff.rfl⟩
  · rw [hi] at lost; cases lost

theorem releaseShaped {s u t n} (matched : Matches s t)
    (h : cacheLayer.release n s = .ok u) : Shaped n s u := by
  obtain ⟨i,hi,last⟩ := exceptBindOk.mp h
  rcases heldCases matched n with ⟨j,mem,found,dev,block,busy,_⟩ | ⟨lost,_⟩
  · rw [hi] at found
    cases found
    simp only [bufferCacheBlkRelease,busy,Bool.not_true,Bool.false_eq_true,if_false] at last
    cases last
    exact ⟨⟨i,_,rfl,dev,block⟩,block ▸ (matched.cached i mem dev).bound busy,rfl,fun j => (List.perm_cons_erase mem).mem_iff.symm⟩
  · rw [hi] at lost; cases lost

theorem shapedTracks {h' : History} (shape : Shaped n s u) (before : Tracks s h)
    (seen : ∃ t, Matches u t ∧ (∀ n, t.held n ≠ none ↔ n ∈ h'.held) ∧ ∀ n, t.dirty n = true ↔ n ∈ h'.written) :
    Tracks u h' := by
  obtain ⟨⟨i,b,changed,dev,_⟩,_,_,members⟩ := shape
  refine ⟨seen,fun j => (members j).trans (before.members j),?_⟩
  intro j mem flags
  rw [changed] at flags ⊢
  by_cases same : j = i
  · subst same; simpa using dev
  · simp only [Function.update_of_ne same] at flags ⊢
    exact before.owned j ((members j).mp mem) flags

theorem callTracks {s u h op out} (before : Tracks s h)
    (ran : call cacheLayer op s = .ok (u,out)) : Tracks u (h.step op) := by
  obtain ⟨t,matched,held,dirty⟩ := before.seen
  cases op with
  | read n =>
    obtain ⟨v,hv,rest⟩ := exceptBindOk.mp ran
    obtain ⟨d,_,last⟩ := exceptBindOk.mp rest
    cases last
    obtain ⟨t',ran',after⟩ := agreeRan (readAgrees matched n) hv
    obtain ⟨_,_,rfl⟩ := readTakes.mp ran'
    refine shapedTracks (readShaped matched hv) before ⟨_,after,?_,dirty⟩
    intro k
    by_cases same : k = n
    · subst same; simp [History.step,Disk.take]
    · simpa [History.step,Disk.take,same] using held k
  | modify n f =>
    obtain ⟨d,_,rest⟩ := exceptBindOk.mp ran
    obtain ⟨v,hv,last⟩ := exceptBindOk.mp rest
    cases last
    obtain ⟨t',ran',after⟩ := agreeRan (setAgrees matched n (f d)) hv
    obtain ⟨⟨_,mine⟩,rfl⟩ := setEdits.mp ran'
    refine shapedTracks (setShaped matched hv) before ⟨_,after,?_,dirty⟩
    intro k
    by_cases same : k = n
    · subst same
      have := held k
      simpa [History.step,Disk.edit,mine] using this
    · simpa [History.step,Disk.edit,same] using held k
  | write n =>
    obtain ⟨v,hv,last⟩ := exceptBindOk.mp ran
    cases last
    obtain ⟨t',ran',after⟩ := agreeRan (writeAgrees matched n) hv
    obtain ⟨_,_,rfl⟩ := writeStores.mp ran'
    refine shapedTracks (writeShaped matched hv) before ⟨_,after,held,?_⟩
    intro k
    by_cases same : k = n
    · subst same; simp [History.step,Disk.store]
    · simpa [History.step,Disk.store,same] using dirty k
  | release n =>
    obtain ⟨v,hv,last⟩ := exceptBindOk.mp ran
    cases last
    obtain ⟨t',ran',after⟩ := agreeRan (releaseAgrees matched n) hv
    obtain ⟨_,_,rfl⟩ := releaseDrops.mp ran'
    refine shapedTracks (releaseShaped matched hv) before ⟨_,after,?_,dirty⟩
    intro k
    by_cases same : k = n
    · subst same; simp [History.step,Disk.drop]
    · simpa [History.step,Disk.drop,same] using held k

theorem callsTrack {ops s u h outs} (before : Tracks s h)
    (ran : calls cacheLayer ops s = .ok (u,outs)) : Tracks u (ops.foldl History.step h) := by
  induction ops generalizing s h outs with
  | nil => cases ran; exact before
  | cons op rest ih =>
    obtain ⟨⟨v,out⟩,first,remaining⟩ := exceptBindOk.mp ran
    obtain ⟨⟨w,later⟩,others,last⟩ := exceptBindOk.mp remaining
    cases last
    exact ih (callTracks before first) others

section Counting

def blocked (s : Store) : Finset Nat :=
  (Finset.range nbuf).filter (fun i => (s.cache.buf i).busy = true ∨ (s.cache.buf i).dirty = true)

theorem blockedIff (i : Nat) : i ∈ blocked s ↔
    i < nbuf ∧ ((s.cache.buf i).busy = true ∨ (s.cache.buf i).dirty = true) := by
  simp [blocked]

theorem busyKept (tracks : Tracks s h) {i} (inside : i < nbuf) (dev : (s.cache.buf i).dev = rootDev) :
    (s.cache.buf i).busy = true ↔ (s.cache.buf i).blockno ∈ h.held := by
  obtain ⟨t,matched,held,_⟩ := tracks.seen
  have mem := (tracks.members i).mpr inside
  rw [← held,(matched.cached i mem dev).held]
  cases (s.cache.buf i).busy <;> simp

theorem dirtyKept (tracks : Tracks s h) {i : Nat} (inside : i < nbuf) (dev : (s.cache.buf i).dev = rootDev) :
    (s.cache.buf i).dirty = true ↔ (s.cache.buf i).blockno ∈ h.written := by
  obtain ⟨t,matched,_,dirty⟩ := tracks.seen
  have mem := (tracks.members i).mpr inside
  rw [← dirty,(matched.cached i mem dev).dirty]

theorem keptHasBuffer (tracks : Tracks s h) (mem : n ∈ h.kept) :
    ∃ i < nbuf, (s.cache.buf i).dev = rootDev ∧ (s.cache.buf i).blockno = n := by
  obtain ⟨t,matched,held,dirty⟩ := tracks.seen
  by_contra lost
  have absent := matched.absent n (fun i hi dev block =>
    lost ⟨i,(tracks.members i).mp hi,dev,block⟩)
  rcases Finset.mem_union.mp mem with written | holding
  · have := (dirty n).mpr written
    rw [absent.2.1] at this
    cases this
  · exact (held n).mpr holding absent.1

theorem blockedCard (tracks : Tracks s h) : (blocked s).card = h.kept.card := by
  obtain ⟨t,matched,_,_⟩ := tracks.seen
  have dev : ∀ i ∈ blocked s, i < nbuf ∧ (s.cache.buf i).dev = rootDev := by
    intro i mem
    obtain ⟨inside,flags⟩ := (blockedIff i).mp mem
    exact ⟨inside,tracks.owned i ((tracks.members i).mpr inside) flags⟩
  have image : (blocked s).image (fun i => (s.cache.buf i).blockno) = h.kept := by
    ext n
    rw [Finset.mem_image]
    constructor
    · rintro ⟨i,mem,rfl⟩
      obtain ⟨inside,flags⟩ := (blockedIff i).mp mem
      rcases flags with busy | dirty
      · exact Finset.mem_union_right _ ((busyKept tracks inside (dev i mem).2).mp busy)
      · exact Finset.mem_union_left _ ((dirtyKept tracks inside (dev i mem).2).mp dirty)
    · intro mem
      obtain ⟨i,inside,key,rfl⟩ := keptHasBuffer tracks mem
      refine ⟨i,(blockedIff i).mpr ⟨inside,?_⟩,rfl⟩
      rcases Finset.mem_union.mp mem with written | holding
      · exact Or.inr ((dirtyKept tracks inside key).mpr written)
      · exact Or.inl ((busyKept tracks inside key).mpr holding)
  rw [← image,Finset.card_image_of_injOn]
  intro i hi j hj same
  have di := dev i hi
  have dj := dev j hj
  exact matched.unique i ((tracks.members i).mpr di.1) j ((tracks.members j).mpr dj.1)
    (by rw [di.2]; decide) (di.2.trans dj.2.symm) same

theorem allBlocked (tracks : Tracks s h) : s.cache.reusable = none ↔ h.kept.card = nbuf := by
  rw [← blockedCard tracks]
  have missed : s.cache.reusable = none ↔ ∀ i < nbuf, i ∈ blocked s := by
    simp only [Cache.reusable,List.find?_eq_none,List.mem_reverse,tracks.members,blockedIff]
    refine forall_congr' (fun i => forall_congr' (fun inside => ?_))
    cases (s.cache.buf i).busy <;> cases (s.cache.buf i).dirty <;> simp [inside]
  rw [missed]
  constructor
  · intro all
    have every : blocked s = Finset.range nbuf :=
      Finset.Subset.antisymm (Finset.filter_subset _ _) (fun i mem => all i (Finset.mem_range.mp mem))
    rw [every,Finset.card_range]
  · intro full i inside
    have every : blocked s = Finset.range nbuf :=
      Finset.eq_of_subset_of_card_le (Finset.filter_subset _ _) (by rw [full,Finset.card_range])
    rw [every]
    exact Finset.mem_range.mpr inside

theorem everyBlocked (tracks : Tracks s h) (full : h.kept.card = nbuf) {i} (inside : i < nbuf) :
    i ∈ blocked s := by
  have every : blocked s = Finset.range nbuf := Finset.eq_of_subset_of_card_le
    (Finset.filter_subset _ _) (by rw [blockedCard tracks,full,Finset.card_range])
  rw [every]
  exact Finset.mem_range.mpr inside

theorem exhausted (tracks : Tracks s h) (n : Nat) :
    bufferCacheBlkGet rootDev n s.cache = .error .noBuffers ↔ n ∉ h.kept ∧ h.kept.card = nbuf := by
  constructor
  · intro stuck
    unfold bufferCacheBlkGet at stuck
    split at stuck
    · split at stuck <;> cases stuck
    · rename_i missed
      split at stuck
      · contradiction
      · rename_i none
        refine ⟨?_,(allBlocked tracks).mp none⟩
        intro mem
        obtain ⟨i,inside,dev,block⟩ := keptHasBuffer tracks mem
        exact searchMissed missed i ((tracks.members i).mpr inside) dev block
  · rintro ⟨fresh,full⟩
    have none := (allBlocked tracks).mpr full
    have missed : s.cache.search rootDev n = Option.none := by
      rw [Cache.search,List.find?_eq_none]
      intro i mem key
      obtain ⟨dev,block⟩ := (holdsIff _ _ _).mp key
      have inside := (tracks.members i).mp mem
      rcases ((blockedIff i).mp (everyBlocked tracks full inside)).2 with busy | dirty
      · exact fresh (Finset.mem_union_right _ (block ▸ (busyKept tracks inside dev).mp busy))
      · exact fresh (Finset.mem_union_left _ (block ▸ (dirtyKept tracks inside dev).mp dirty))
    simp [bufferCacheBlkGet,missed,none]
end Counting

theorem panicOnlyWhenAllBusy {image : Nat → Block} {blocks : Nat} {ops : List Op} {s : Store}
    {outs : List Block} (ran : calls cacheLayer ops (boot image blocks) = .ok (s,outs)) (n : Nat) :
    ((bufferCacheBlkGet rootDev n s.cache = .error .noBuffers → ∀ i < nbuf, (s.cache.buf i).busy = true) ↔
      (n ∉ (history ops).kept → (history ops).kept.card = nbuf →
        (history ops).written ⊆ (history ops).held)) ∧
    ((∀ i < nbuf, (s.cache.buf i).dev = rootDev → (s.cache.buf i).blockno ∈ (history ops).written →
        (s.cache.buf i).dirty = false) ↔ (history ops).written = ∅) := by
  have tracks : Tracks s (history ops) := callsTrack (bootTracks image blocks) ran
  rw [exhausted tracks n]
  refine ⟨⟨?_,?_⟩,?_,?_⟩
  · intro busy fresh full w written
    obtain ⟨i,inside,dev,block⟩ := keptHasBuffer tracks (Finset.mem_union_left _ written)
    rw [← block]
    exact (busyKept tracks inside dev).mp (busy ⟨fresh,full⟩ i inside)
  · rintro subset ⟨fresh,full⟩ i inside
    have flags := ((blockedIff i).mp (everyBlocked tracks full inside)).2
    have dev := tracks.owned i ((tracks.members i).mpr inside) flags
    rcases flags with busy | dirty
    · exact busy
    · exact (busyKept tracks inside dev).mpr (subset fresh full ((dirtyKept tracks inside dev).mp dirty))
  · intro clean
    refine Finset.eq_empty_of_forall_notMem (fun w written => ?_)
    obtain ⟨i,inside,dev,block⟩ := keptHasBuffer tracks (Finset.mem_union_left _ written)
    have here : (s.cache.buf i).blockno ∈ (history ops).written := by rw [block]; exact written
    have dirty := (dirtyKept tracks inside dev).mpr here
    rw [clean i inside dev here] at dirty
    cases dirty
  · intro empty i _ _ written
    rw [empty] at written
    exact absurd written (Finset.notMem_empty _)

def round (n : Nat) : List Op := [.read n,.write n,.release n]
def rounds (k : Nat) : List Op := (List.range k).flatMap round

theorem callsAppend {σ : Type} {L : Layer σ Nat Block Fault} {ops more : List Op} {s t u : σ} {outs later : List Block}
    (first : calls L ops s = .ok (t,outs)) (second : calls L more t = .ok (u,later)) :
    calls L (ops ++ more) s = .ok (u,outs ++ later) := by
  induction ops generalizing s outs with
  | nil => cases first; exact second
  | cons op rest ih =>
    obtain ⟨⟨v,out⟩,head,remaining⟩ := exceptBindOk.mp first
    obtain ⟨⟨w,mid⟩,others,last⟩ := exceptBindOk.mp remaining
    cases last
    simp [calls,head,ih others,bind,Except.bind]

theorem blkrwRuns (i : Nat) (s : Store) : blkrw i s ≠ .error .noBuffers := by
  intro stuck
  simp only [blkrw,memideRw] at stuck
  repeat' split at stuck
  all_goals cases stuck

theorem readStuck {s n} (stuck : cacheLayer.read n s = .error .noBuffers) :
    bufferCacheBlkGet rootDev n s.cache = .error .noBuffers := by
  cases got : bufferCacheBlkGet rootDev n s.cache with
  | error e => simpa [cacheLayer,bufferCacheBlkRead,got,bind,Except.bind] using stuck
  | ok r =>
    obtain ⟨i,c⟩ := r
    have other := blkrwRuns i {s with cache := c}
    cases served : blkrw i {s with cache := c} with
    | error e =>
      rw [served] at other
      cases valid : (c.buf i).valid <;>
        simp [cacheLayer,bufferCacheBlkRead,got,served,valid,bind,Except.bind] at stuck
      exact absurd (congrArg Except.error stuck) other
    | ok u =>
      cases valid : (c.buf i).valid <;>
        simp [cacheLayer,bufferCacheBlkRead,got,served,valid,bind,Except.bind] at stuck

theorem roundRuns {s k contents} (inside : k < s.blocks) (room : k < nbuf)
    (mirrors : Mirrors s ⟨contents,fun _ => none⟩) (tracks : Tracks s ⟨Finset.range k,∅⟩) :
    ∃ u, calls cacheLayer (round k) s = .ok (u,[contents k]) ∧ u.blocks = s.blocks ∧
      Mirrors u ⟨contents,fun _ => none⟩ ∧ Tracks u ⟨Finset.range (k+1),∅⟩ := by
  have available : bufferCacheBlkGet rootDev k s.cache ≠ .error .noBuffers := by
    rw [ne_eq,exhausted tracks k]
    simp only [History.kept,Finset.union_empty,Finset.card_range]
    omega
  rcases callMirrors (.read k) mirrors rfl inside with ⟨n,same,stuck⟩ | ⟨u,read,blocks,first⟩
  · cases same
    exact absurd (readStuck stuck) available
  rcases callMirrors (.write k) first (by simp [Sectors.step]; exact ⟨rfl,rfl⟩) trivial with
    ⟨n,same,_⟩ | ⟨v,write,blocks',second⟩
  · cases same
  rcases callMirrors (.release k) second (by simp [Sectors.step]; exact ⟨rfl,rfl⟩) trivial with
    ⟨n,same,_⟩ | ⟨w,release,blocks'',third⟩
  · cases same
  have ran : calls cacheLayer (round k) s = .ok (w,[contents k]) := by
    simp [round,calls,read,write,release,bind,Except.bind]
  refine ⟨w,ran,blocks''.trans (blocks'.trans blocks),?_,?_⟩
  · simpa using third
  · simpa [round,History.step,Finset.range_add_one] using callsTrack tracks ran

theorem roundsRun (image : Nat → Block) (blocks : Nat) (inside : nbuf ≤ blocks) {k : Nat} (room : k ≤ nbuf) :
    ∃ u outs, calls cacheLayer (rounds k) (boot image blocks) = .ok (u,outs) ∧ u.blocks = blocks ∧
      Mirrors u ⟨image,fun _ => none⟩ ∧ Tracks u ⟨Finset.range k,∅⟩ := by
  induction k with
  | zero => exact ⟨boot image blocks,[],rfl,rfl,bootMirrors image blocks,bootTracks image blocks⟩
  | succ k ih =>
    obtain ⟨s,outs,ran,size,mirrors,tracks⟩ := ih (by omega)
    obtain ⟨u,next,size',mirrors',tracks'⟩ := roundRuns (by omega) (by omega) mirrors tracks
    refine ⟨u,outs ++ [image k],?_,size'.trans size,mirrors',tracks'⟩
    simpa [rounds,List.range_succ,List.flatMap_append] using callsAppend ran next

-- After every buffer was written once, an idle cache panics at the next block.
theorem idleCachePanics : ∃ s outs,
    calls cacheLayer (rounds nbuf) (boot (fun _ _ => 0) 2048) = .ok (s,outs) ∧
      bufferCacheBlkGet rootDev nbuf s.cache = .error .noBuffers ∧
      ∀ i < nbuf, (s.cache.buf i).busy = false ∧ (s.cache.buf i).dirty = true := by
  obtain ⟨s,outs,ran,_,_,tracks⟩ := roundsRun (fun _ _ => 0) 2048 (by decide) le_rfl
  have full : (History.kept ⟨Finset.range nbuf,∅⟩).card = nbuf := by simp [History.kept]
  refine ⟨s,outs,ran,(exhausted tracks nbuf).mpr ⟨by simp [History.kept],full⟩,fun i inside => ?_⟩
  have flags := ((blockedIff i).mp (everyBlocked tracks full inside)).2
  have dev := tracks.owned i ((tracks.members i).mpr inside) flags
  have idle : (s.cache.buf i).busy = false := by
    cases busy : (s.cache.buf i).busy with
    | false => rfl
    | true => exact absurd ((busyKept tracks inside dev).mp busy) (Finset.notMem_empty _)
  exact ⟨idle,by simpa [idle] using flags⟩

theorem oneRoundKeepsRoom : ∃ s outs, calls cacheLayer (rounds 1) (boot (fun _ _ => 0) 2048) = .ok (s,outs) ∧
    (bufferCacheBlkGet rootDev 5 s.cache = .error .noBuffers → ∀ i < nbuf, (s.cache.buf i).busy = true) ∧
    ¬ ∀ i < nbuf, (s.cache.buf i).dev = rootDev → (s.cache.buf i).blockno ∈ (history (rounds 1)).written →
      (s.cache.buf i).dirty = false := by
  obtain ⟨s,outs,ran,_⟩ := roundsRun (fun _ _ => 0) 2048 (k := 1) (by decide) (by decide)
  obtain ⟨panics,clean⟩ := panicOnlyWhenAllBusy ran 5
  have written : (history (rounds 1)).written = {0} := rfl
  have card : (history (rounds 1)).kept.card = 1 := rfl
  refine ⟨s,outs,ran,panics.mpr (fun _ full => ?_),fun all => ?_⟩
  · rw [card] at full
    exact absurd full (by decide)
  · have empty := clean.mp all
    rw [written] at empty
    exact absurd empty (Finset.singleton_ne_empty 0)

structure Roomy (S : Finset Nat) (s : Store) : Prop where
  fewer : S.card < nbuf
  members : ∀ i, i ∈ s.cache.mru ↔ i < nbuf
  owned : ∀ i ∈ s.cache.mru, (s.cache.buf i).busy = true ∨ (s.cache.buf i).dirty = true →
    (s.cache.buf i).dev = rootDev ∧ (s.cache.buf i).blockno ∈ S

theorem bootRoomy {S} (fewer : S.card < nbuf) (image : Nat → Block) (blocks : Nat) : Roomy S (boot image blocks) where
  fewer := fewer
  members := by simp [boot,bufferCacheInit]
  owned := by simp [boot,bufferCacheInit,emptyBuf]

theorem shapedRoomy (shape : Shaped n s u) (inside : n ∈ S) (before : Roomy S s) : Roomy S u := by
  obtain ⟨⟨i,b,changed,dev,block⟩,_,_,members⟩ := shape
  refine ⟨before.fewer,fun j => (members j).trans (before.members j),?_⟩
  intro j mem flags
  rw [changed] at flags ⊢
  by_cases same : j = i
  · subst same
    rw [Function.update_self,block]
    exact ⟨dev,inside⟩
  · simp only [Function.update_of_ne same] at flags ⊢
    exact before.owned j ((members j).mp mem) flags

theorem roomyReads {S s t n} (matched : Matches s t) (roomy : Roomy S s) :
    cacheLayer.read n s ≠ .error .noBuffers := by
  intro stuck
  have empty := readStuck stuck
  unfold bufferCacheBlkGet at empty
  split at empty
  · split at empty <;> cases empty
  split at empty
  · cases empty
  rename_i none
  have blocked : ∀ i < nbuf, (s.cache.buf i).busy = true ∨ (s.cache.buf i).dirty = true := by
    intro i inside
    have := List.find?_eq_none.mp none i (List.mem_reverse.mpr ((roomy.members i).mpr inside))
    cases busy : (s.cache.buf i).busy <;> cases dirty : (s.cache.buf i).dirty <;> simp_all
  have maps : ∀ i ∈ Finset.range nbuf, (s.cache.buf i).blockno ∈ S := by
    intro i inside
    have small := Finset.mem_range.mp inside
    exact (roomy.owned i ((roomy.members i).mpr small) (blocked i small)).2
  obtain ⟨i,left,j,right,apart,same⟩ := Finset.exists_ne_map_eq_of_card_lt_of_maps_to
    (by rw [Finset.card_range]; exact roomy.fewer) maps
  have inMru : ∀ i ∈ Finset.range nbuf, i ∈ s.cache.mru := fun i inside =>
    (roomy.members i).mpr (Finset.mem_range.mp inside)
  have dev : ∀ i ∈ Finset.range nbuf, (s.cache.buf i).dev = rootDev := fun i inside =>
    (roomy.owned i (inMru i inside) (blocked i (Finset.mem_range.mp inside))).1
  refine apart (matched.unique i (inMru i left) j (inMru j right) ?_ ?_ same)
  · rw [dev i left]
    decide
  · rw [dev i left,dev j right]

section Roomy

theorem shapedAgree {excuse : Fault → Prop} {x y} (roomy : Roomy S s) (inside : n < s.blocks → n ∈ S)
    (agree : Agree excuse Matches x y) (never : ∀ e, x = .error e → ¬ excuse e) (shape : ∀ u, x = .ok u → Shaped n s u) :
    Agree (fun _ => False) (fun u v => (Matches u v ∧ Roomy S u) ∧ u.blocks = s.blocks) x y :=
  agreeMore agree never fun u _ ran after => ⟨⟨after,shapedRoomy (shape u ran) (inside (shape u ran).inside) roomy⟩,(shape u ran).size⟩

theorem readRoomy (matched : Matches s t) (roomy : Roomy S s) (inside : n < s.blocks → n ∈ S) :
    Agree (fun _ => False) (fun u v => (Matches u v ∧ Roomy S u) ∧ u.blocks = s.blocks) (cacheLayer.read n s) (diskLayer.read n t) := by
  refine shapedAgree roomy inside (readAgrees matched n) (fun e fault same => ?_) fun u => readShaped matched
  exact roomyReads matched roomy (same ▸ fault)

theorem setRoomy (d : Block) (matched : Matches s t) (roomy : Roomy S s) (inside : n < s.blocks → n ∈ S) :
    Agree (fun _ => False) (fun u v => (Matches u v ∧ Roomy S u) ∧ u.blocks = s.blocks) (cacheLayer.set n d s) (diskLayer.set n d t) :=
  shapedAgree roomy inside (setAgrees matched n d) (fun _ _ => id) fun _ => setShaped matched

theorem writeRoomy (matched : Matches s t) (roomy : Roomy S s) (inside : n < s.blocks → n ∈ S) :
    Agree (fun _ => False) (fun u v => (Matches u v ∧ Roomy S u) ∧ u.blocks = s.blocks) (cacheLayer.write n s) (diskLayer.write n t) :=
  shapedAgree roomy inside (writeAgrees matched n) (fun _ _ => id) fun _ => writeShaped matched

theorem releaseRoomy (matched : Matches s t) (roomy : Roomy S s) (inside : n < s.blocks → n ∈ S) :
    Agree (fun _ => False) (fun u v => (Matches u v ∧ Roomy S u) ∧ u.blocks = s.blocks) (cacheLayer.release n s) (diskLayer.release n t) :=
  shapedAgree roomy inside (releaseAgrees matched n) (fun _ _ => id) fun _ => releaseShaped matched

end Roomy

theorem roomySimulates {blocks} : Simulates cacheLayer diskLayer (fun _ => False)
    (fun s t => (Matches s t ∧ Roomy (Finset.range blocks) s) ∧ s.blocks = blocks) where
  read n s t h := by
    obtain ⟨⟨matched,roomy⟩,rfl⟩ := h
    exact readRoomy matched roomy Finset.mem_range.mpr
  data n s t h := dataAgrees h.1.1 n
  set n d s t h := by
    obtain ⟨⟨matched,roomy⟩,rfl⟩ := h
    exact setRoomy d matched roomy Finset.mem_range.mpr
  write n s t h := by
    obtain ⟨⟨matched,roomy⟩,rfl⟩ := h
    exact writeRoomy matched roomy Finset.mem_range.mpr
  release n s t h := by
    obtain ⟨⟨matched,roomy⟩,rfl⟩ := h
    exact releaseRoomy matched roomy Finset.mem_range.mpr

theorem roomyRuns {κ α : Type} {S} (p : Prog Nat Block Fault κ α) {s t} (m : κ) (matched : Matches s t)
    (roomy : Roomy S s) (within : Within diskLayer (· ∈ S) p ⟨t,m⟩) :
    RunsAgree (fun _ => False) (fun s t => Matches s t ∧ Roomy S s) (run cacheLayer p ⟨s,m⟩) (run diskLayer p ⟨t,m⟩) := by
  induction p generalizing s t m with
  | ret a => exact Or.inr (Or.inr ⟨a,s,t,m,rfl,rfl,matched,roomy⟩)
  | fail e => exact Or.inr (Or.inl ⟨e,rfl,rfl⟩)
  | get next ih => exact ih m m matched roomy within
  | put m' next ih => exact ih m' matched roomy within
  | read b next ih =>
    refine agreeOnDisk (readRoomy matched roomy fun _ => within.1) fun u v _ reached after => ?_
    exact ih m after.1.1 after.1.2 (within.2 v reached)
  | data b next ih =>
    simp only [run,dataAgrees matched b]
    cases found : diskLayer.data b t with
    | error e => exact Or.inr (Or.inl ⟨e,rfl,rfl⟩)
    | ok d => exact ih d m matched roomy (within.2 d found)
  | set b d next ih =>
    refine agreeOnDisk (setRoomy d matched roomy fun _ => within.1) fun u v _ reached after => ?_
    exact ih m after.1.1 after.1.2 (within.2 v reached)
  | write b next ih =>
    refine agreeOnDisk (writeRoomy matched roomy fun _ => within.1) fun u v _ reached after => ?_
    exact ih m after.1.1 after.1.2 (within.2 v reached)
  | release b next ih =>
    refine agreeOnDisk (releaseRoomy matched roomy fun _ => within.1) fun u v _ reached after => ?_
    exact ih m after.1.1 after.1.2 (within.2 v reached)

end TskSw.BlkRecycle
