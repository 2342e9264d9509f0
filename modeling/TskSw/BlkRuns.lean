import TskSw.BlkFlat
import Mathlib.Data.Finset.Card
import Mathlib.Data.Finset.Image

/-! Whole runs of the cache by one thread. `modify` is a store through the pointer that
`buffer_cache_blk_read` returned. The plain map on the other side has no cache at all;
it only accepts calls that follow the protocol of the callers. -/
namespace TskSw.BlkRuns
open Bytes BlockProgram BlkIo BlkFlat
open Function (update update_of_ne update_self)

inductive Op where
  | read (n : Nat)
  | modify (n : Nat) (f : Block → Block)
  | write (n : Nat)
  | release (n : Nat)

section Layers
variable {σ : Type} (L : Layer σ Nat Block Fault)

def call : Op → σ → Except Fault (σ × List Block)
  | .read n, s => do
      let s ← L.read n s
      let d ← L.data n s
      .ok (s,[d])
  | .modify n f, s => do
      let d ← L.data n s
      let s ← L.set n (f d) s
      .ok (s,[])
  | .write n, s => do
      let s ← L.write n s
      .ok (s,[])
  | .release n, s => do
      let s ← L.release n s
      .ok (s,[])

def calls : List Op → σ → Except Fault (σ × List Block)
  | [], s => .ok (s,[])
  | op :: rest, s => do
      let (s,out) ← call L op s
      let (s,later) ← calls rest s
      .ok (s,out ++ later)
end Layers

structure Sectors where
  contents : Nat → Block
  held : Nat → Option (Block × Bool)

def Sectors.step : Op → Sectors → Option (Sectors × List Block)
  | .read n, m => match m.held n with
    | none => some (⟨m.contents,update m.held n (some (m.contents n,false))⟩,[m.contents n])
    | some _ => none
  | .modify n f, m => match m.held n with
    | some (d,_) => some (⟨m.contents,update m.held n (some (f d,true))⟩,[])
    | none => none
  | .write n, m => match m.held n with
    | some (d,_) => some (⟨update m.contents n d,update m.held n (some (d,false))⟩,[])
    | none => none
  | .release n, m => match m.held n with
    | some (_,false) => some (⟨m.contents,update m.held n none⟩,[])
    | _ => none

def Sectors.steps : List Op → Sectors → Option (Sectors × List Block)
  | [], m => some (m,[])
  | op :: rest, m => do
      let (m,out) ← m.step op
      let (m,later) ← Sectors.steps rest m
      some (m,out ++ later)

def readsInside (blocks : Nat) : Op → Prop
  | .read n => n < blocks
  | _ => True

structure Mirrors (s : Store) (m : Sectors) : Prop where
  seen : ∃ t, Matches s t ∧ t.view = m.contents ∧ ∀ n, t.held n = (m.held n).map Prod.fst
  image : s.image = m.contents
  copies : ∀ n d, m.held n = some (d,false) → d = m.contents n

theorem bootMirrors (image : Nat → Block) (blocks : Nat) : Mirrors (boot image blocks) ⟨image,fun _ => none⟩ where
  seen := ⟨flat image blocks,bootMatches image blocks,rfl,fun _ => rfl⟩
  image := rfl
  copies := fun _ _ h => by cases h

theorem heldImage {s t} (h : Matches s t) {n d} (held : t.held n = some d) :
    s.image n = t.view n := by
  rcases heldCases h n with ⟨i,mem,_,dev,block,busy,_⟩ | ⟨_,none⟩
  · have view := (h.cached i mem dev).view
    simpa [block,busy] using view.symm
  · rw [held] at none; cases none

variable {s u : Store} {n i : Nat} {t : Disk} {y : Option (Block × Bool)}

theorem blkrwImage (h : blkrw i s = .ok u) :
    ∀ m, m ≠ (s.cache.buf i).blockno → u.image m = s.image m := by
  intro m other
  simp only [blkrw,memideRw] at h
  repeat' split at h
  all_goals first | contradiction | skip
  all_goals cases h
  all_goals first | rfl | exact update_of_ne other _ _

theorem getKey {dev : Nat} {c c' : Cache} (h : bufferCacheBlkGet dev n c = .ok (i,c')) :
    (c'.buf i).blockno = n := by
  unfold bufferCacheBlkGet at h
  split at h
  · rename_i j found
    split at h
    · contradiction
    · cases h
      simpa [Cache.set] using (searchFound found).2.2
  · split at h
    · cases h
      simp [Cache.set]
    · contradiction

theorem readImage {s u n} (h : cacheLayer.read n s = .ok u) :
    ∀ m, m ≠ n → u.image m = s.image m := by
  intro m other
  obtain ⟨⟨i,v⟩,hr,last⟩ := exceptBindOk.mp h
  cases last
  obtain ⟨⟨j,c⟩,hg,hr⟩ := exceptBindOk.mp hr
  dsimp only at hr
  split at hr
  · obtain ⟨w,hw,last⟩ := exceptBindOk.mp hr
    cases last
    exact blkrwImage hw m (by simpa only [getKey hg] using other)
  · cases hr
    rfl

theorem setImage {s u n d} (h : cacheLayer.set n d s = .ok u) : u.image = s.image := by
  obtain ⟨i,_,last⟩ := exceptBindOk.mp h
  cases last
  rfl

theorem writeImage (matched : Matches s t) (h : cacheLayer.write n s = .ok u) : ∀ m, m ≠ n → u.image m = s.image m := by
  intro m other
  obtain ⟨i,hi,hw⟩ := exceptBindOk.mp h
  rcases heldCases matched n with ⟨j,_,found,_,block,_,_⟩ | ⟨lost,_⟩
  · rw [hi] at found
    cases found
    unfold bufferCacheBlkWrite at hw
    dsimp only at hw
    split at hw
    · contradiction
    · exact blkrwImage hw m (by simpa [Cache.set,block] using other)
  · rw [hi] at lost; cases lost

theorem releaseImage {s u n} (h : cacheLayer.release n s = .ok u) : u.image = s.image := by
  obtain ⟨i,_,last⟩ := exceptBindOk.mp h
  unfold bufferCacheBlkRelease at last
  dsimp only at last
  split at last
  · contradiction
  · cases last
    rfl

section Calls
variable {m : Sectors} {d : Block} {changed : Bool}

theorem heldUpdated {x} (held : ∀ n, t.held n = (m.held n).map Prod.fst) (same : x = y.map Prod.fst) :
    ∀ k, update t.held n x k = (update m.held n y k).map Prod.fst := by
  intro k
  by_cases here : k = n
  · subst here
    simpa using same
  · simpa [here] using held k

theorem copiesUpdated {contents : Nat → Block} (copies : ∀ n d, m.held n = some (d,false) → d = m.contents n)
    (clean : ∀ d, y = some (d,false) → d = contents n) (others : ∀ k, k ≠ n → contents k = m.contents k) :
    ∀ k d, update m.held n y k = some (d,false) → d = contents k := by
  intro k d found
  by_cases here : k = n
  · subst here
    rw [update_self] at found
    exact clean d found
  · rw [update_of_ne here] at found
    rw [others k here]
    exact copies k d found

theorem readMirrors (h : Mirrors s m) (free : m.held n = none) (inside : n < s.blocks) :
    cacheLayer.read n s = .error .noBuffers ∨ ∃ u, call cacheLayer (.read n) s = .ok (u,[m.contents n]) ∧ u.blocks = s.blocks ∧
      Mirrors u ⟨m.contents,update m.held n (some (m.contents n,false))⟩ := by
  obtain ⟨⟨t,matched,view,held⟩,image,copies⟩ := h
  have flatRead : diskLayer.read n t = .ok (t.take n) := readTakes.mpr ⟨by rw [held,free]; rfl,by rw [matched.size]; exact inside,rfl⟩
  rcases agreeRuns (readAgrees matched n) flatRead with ⟨_,fault,rfl⟩ | ⟨u,ran,after⟩
  · exact Or.inl fault
  have taken : (t.take n).held n = some (m.contents n) := by simp [Disk.take,view]
  have data : cacheLayer.data n u = .ok (m.contents n) := by
    rw [dataAgrees after]
    simp [diskLayer,taken]
  refine Or.inr ⟨u,by simp [call,ran,data,bind,Except.bind],after.size.symm.trans matched.size,
    ⟨t.take n,after,view,heldUpdated held (congrArg some (congrFun view n))⟩,funext fun k => ?_,copiesUpdated copies
      (fun d same => ?_) fun _ _ => rfl⟩
  · by_cases same : k = n
    · subst same
      rw [heldImage after taken]
      exact congrFun view k
    · rw [readImage ran k same,image]
  · cases same
    rfl

theorem modifyMirrors (h : Mirrors s m) (mine : m.held n = some (d,changed)) (f : Block → Block) :
    ∃ u, call cacheLayer (.modify n f) s = .ok (u,[]) ∧ u.blocks = s.blocks ∧ Mirrors u ⟨m.contents,update m.held n (some (f d,true))⟩ := by
  obtain ⟨⟨t,matched,view,held⟩,image,copies⟩ := h
  have taken : t.held n = some d := by rw [held,mine]; rfl
  have data : cacheLayer.data n s = .ok d := by
    rw [dataAgrees matched]
    simp [diskLayer,taken]
  obtain ⟨u,ran,after⟩ := agreeSure (setAgrees matched n (f d)) (setEdits.mpr ⟨⟨d,taken⟩,rfl⟩)
  exact ⟨u,by simp [call,ran,data,bind,Except.bind],after.size.symm.trans matched.size,
    ⟨t.edit n (f d),after,view,heldUpdated held rfl⟩,(setImage ran).trans image,copiesUpdated copies (fun _ same => by cases same) fun _ _ =>
      rfl⟩

theorem writeMirrors (h : Mirrors s m) (mine : m.held n = some (d,changed)) :
    ∃ u, call cacheLayer (.write n) s = .ok (u,[]) ∧ u.blocks = s.blocks ∧
      Mirrors u ⟨update m.contents n d,update m.held n (some (d,false))⟩ := by
  obtain ⟨⟨t,matched,view,held⟩,image,copies⟩ := h
  have taken : t.held n = some d := by rw [held,mine]; rfl
  obtain ⟨u,ran,after⟩ := agreeSure (writeAgrees matched n) (writeStores.mpr ⟨d,taken,rfl⟩)
  refine ⟨u,by simp [call,ran,bind,Except.bind],after.size.symm.trans matched.size,⟨t.store n d,after,by simp [Disk.store,view],fun k => ?_⟩,
    funext fun k => ?_,copiesUpdated copies (fun e same => ?_) fun k other => update_of_ne other ..⟩
  · have kept : update t.held n (some d) = t.held := by rw [← taken,Function.update_eq_self]
    rw [← heldUpdated held (show some d = (some (d,false)).map Prod.fst from rfl) k,kept]
    rfl
  · by_cases same : k = n
    · subst same
      rw [heldImage after (show (t.store k d).held k = some d from taken)]
      simp [Disk.store]
    · rw [writeImage matched ran k same,image]
      exact (update_of_ne same ..).symm
  · cases same
    show d = update m.contents n d n
    rw [update_self]

theorem releaseMirrors (h : Mirrors s m) (mine : m.held n = some (d,false)) :
    ∃ u, call cacheLayer (.release n) s = .ok (u,[]) ∧ u.blocks = s.blocks ∧ Mirrors u ⟨m.contents,update m.held n none⟩ := by
  obtain ⟨⟨t,matched,view,held⟩,image,copies⟩ := h
  have taken : t.held n = some d := by rw [held,mine]; rfl
  obtain ⟨u,ran,after⟩ := agreeSure (releaseAgrees matched n) (releaseDrops.mpr ⟨d,taken,rfl⟩)
  have unchanged : d = t.view n := (copies n d mine).trans (congrFun view n).symm
  have kept : (t.drop n d).view = m.contents := by
    simp only [Disk.drop,unchanged,Function.update_eq_self,ite_self]
    exact view
  exact ⟨u,by simp [call,ran,bind,Except.bind],after.size.symm.trans matched.size,
    ⟨t.drop n d,after,kept,heldUpdated held rfl⟩,(releaseImage ran).trans image,copiesUpdated copies (fun _ same => by cases same) fun _ _ =>
      rfl⟩

end Calls

theorem callMirrors {s m m' out} (op : Op) (h : Mirrors s m)
    (legal : m.step op = some (m',out)) (inside : readsInside s.blocks op) :
    (∃ n, op = .read n ∧ cacheLayer.read n s = .error .noBuffers) ∨
      ∃ u, call cacheLayer op s = .ok (u,out) ∧ u.blocks = s.blocks ∧ Mirrors u m' := by
  cases op with
  | read n =>
    simp only [Sectors.step] at legal
    split at legal <;> try contradiction
    rename_i free
    cases legal
    exact (readMirrors h free inside).imp_left fun fault => ⟨n,rfl,fault⟩
  | modify n f =>
    simp only [Sectors.step] at legal
    split at legal <;> try contradiction
    rename_i mine
    cases legal
    exact Or.inr (modifyMirrors h mine f)
  | write n =>
    simp only [Sectors.step] at legal
    split at legal <;> try contradiction
    rename_i mine
    cases legal
    exact Or.inr (writeMirrors h mine)
  | release n =>
    simp only [Sectors.step] at legal
    split at legal <;> try contradiction
    rename_i mine
    cases legal
    exact Or.inr (releaseMirrors h mine)

theorem callsMirror {ops s m m' outs} (h : Mirrors s m)
    (legal : Sectors.steps ops m = some (m',outs)) (inside : ∀ op ∈ ops, readsInside s.blocks op) :
    calls cacheLayer ops s = .error .noBuffers ∨
      ∃ u, calls cacheLayer ops s = .ok (u,outs) ∧ Mirrors u m' := by
  induction ops generalizing s m outs with
  | nil =>
    cases legal
    exact Or.inr ⟨s,rfl,h⟩
  | cons op rest ih =>
    simp only [Sectors.steps,bind,Option.bind_eq_some_iff] at legal
    obtain ⟨⟨m₁,out⟩,first,⟨m₂,later⟩,others,last⟩ := legal
    cases last
    rcases callMirrors op h first (inside op List.mem_cons_self) with ⟨n,rfl,stuck⟩ | ⟨u,hu,blocks,next⟩
    · exact Or.inl (by simp [calls,call,stuck,bind,Except.bind])
    · have bounded : ∀ op ∈ rest, readsInside u.blocks op := by
        intro op mem
        rw [blocks]
        exact inside op (List.mem_cons_of_mem _ mem)
      rcases ih next others bounded with stuck | ⟨v,hv,final⟩
      · exact Or.inl (by simp [calls,hu,stuck,bind,Except.bind])
      · exact Or.inr ⟨v,by simp [calls,hu,hv,bind,Except.bind],final⟩

theorem bufferCacheRefinesSectors (image : Nat → Block) (blocks : Nat) (ops : List Op) (m : Sectors)
    (outs : List Block) (inside : ∀ op ∈ ops, readsInside blocks op)
    (legal : Sectors.steps ops ⟨image,fun _ => none⟩ = some (m,outs)) :
    calls cacheLayer ops (boot image blocks) = .error .noBuffers ∨
      ∃ s, calls cacheLayer ops (boot image blocks) = .ok (s,outs) ∧ s.image = m.contents := by
  rcases callsMirror (bootMirrors image blocks) legal inside with stuck | ⟨s,ran,mirrors⟩
  · exact Or.inl stuck
  · exact Or.inr ⟨s,ran,mirrors.image⟩

theorem rereadSeesWrite : ∃ m,
    Sectors.steps [.read 3,.modify 3 (fun _ _ => 9),.write 3,.release 3,.read 3] ⟨fun _ _ => 7,fun _ => none⟩ =
        some (m,[fun _ => 7,fun _ => 9]) ∧
      (calls cacheLayer [.read 3,.modify 3 (fun _ _ => 9),.write 3,.release 3,.read 3] (boot (fun _ _ => 7) 8) =
          .error .noBuffers ∨
        ∃ s, calls cacheLayer [.read 3,.modify 3 (fun _ _ => 9),.write 3,.release 3,.read 3]
            (boot (fun _ _ => 7) 8) = .ok (s,[fun _ => 7,fun _ => 9]) ∧ s.image = m.contents) := by
  refine ⟨_,rfl,bufferCacheRefinesSectors _ _ _ _ _ ?_ rfl⟩
  simp [readsInside]

end TskSw.BlkRuns
