import TskSw.FileData
import TskSw.MkfsImage
import TskSw.References

/-! Whole runs of the file system: calls of any thread, one after another, with slots of
the inode cache that nobody uses filled anew between them. The counts on the disk agree
with the directory as long as no name is added by `fs_link` and the directory fits into its
direct blocks; a number that was once taken from the inode bitmap is never given back. -/
namespace TskSw.FsRuns
open Bytes BlockProgram BlkIo BlkFlat FsLayout FsKernel DataBitmap DataBlocks Inodes Directory FsCalls FsTree FsSteps FsKeeps FileData MkfsImage
open Mkfs (writeFsImage)
open References (smallWorld fileA fileB)

-- The calls that stay clear of `fs_link`'s lost update and of everything behind the direct blocks.
def Harmless (w : World Store Kernel) : Call → Prop
  | .fsOpen _ omode => omode &&& oCreate = 0 ∨ freeSlot (cachedView w.disk) (rootOf (cachedView w.disk)) < directEntries
  | .fsLink old _ => ¬ ∃ ip u, run cacheLayer (linkSource old) w = .ok (some ip,u)
  | .fsRead fd counts => ∀ f, w.mem.fds w.mem.current fd.toNat = some f → Readable (cachedView w.disk) w.mem f counts.toNat
  | .fsWrite fd src => ∀ f, w.mem.fds w.mem.current fd.toNat = some f → Writable w.mem f src.length
  | _ => True

inductive Runs (w₀ : World Store Kernel) : World Store Kernel → Prop where
  | start : Runs w₀ w₀
  | call {w w' : World Store Kernel} {c : Call} {reply : Reply} (before : Runs w₀ w) (harmless : Harmless w c)
      (ran : run cacheLayer c.prog w = .ok (reply,w')) : Runs w₀ w'
  | recycle {w : World Store Kernel} {i : Nat} {x : Inode} (before : Runs w₀ w) (free : (w.mem.inode i).ref = 0) (idle : x.ref = 0) :
      Runs w₀ ⟨w.disk,w.mem.withInode i x⟩
  | switch {w : World Store Kernel} (before : Runs w₀ w) (thread : Nat) : Runs w₀ ⟨w.disk,{w.mem with current := thread}⟩
  | typed {w : World Store Kernel} (before : Runs w₀ w) (chars : List UInt8) :
      Runs w₀ ⟨w.disk,{w.mem with console := w.mem.console ++ chars}⟩

structure Backed (w : World Store Kernel) (t : Disk) : Prop where
  same : Matches w.disk t
  sound : Sound none ⟨t,w.mem⟩

variable {w : World Store Kernel} {α β : Type} {p : Fs α} {a : α}

section Calls
variable {w' w₀ : World Store Kernel} {t t₀ : Disk} {c : Call} {reply : Reply}

theorem keptBacked (h : Backed w t) (keep : ∀ u, run diskLayer p ⟨t,w.mem⟩ = .ok (a,u) → Sound none u ∧ Evolves t u.disk)
    (ran : run cacheLayer p w = .ok (a,w')) : ∃ t', Backed w' t' ∧ Evolves t t' := by
  obtain ⟨t',ok,same⟩ := fromCache h.same ran
  obtain ⟨sound,evolves⟩ := keep _ ok
  exact ⟨t',⟨same,sound⟩,evolves⟩

theorem keepsBacked (h : Backed w t) (keeps : Keeps p) (ran : run cacheLayer p w = .ok (a,w')) : ∃ t', Backed w' t' ∧ Evolves t t' :=
  keptBacked h (fun u ok => keeps _ a u h.sound ok) ran

theorem callBacked (h : Backed w t) (harmless : Harmless w c) (ran : run cacheLayer c.prog w = .ok (reply,w')) :
    ∃ t', Backed w' t' ∧ Evolves t t' := by
  have view := matchesView h.same
  cases c with
  | fsOpen path omode =>
    obtain ⟨rc,u,call,done⟩ := runCut ran
    cases done
    rw [Harmless,view] at harmless
    exact keptBacked h (fun u ok => openSound h.sound harmless ok) call
  | fsLink old new =>
    obtain ⟨rc,u,call,done⟩ := runCut ran
    cases done
    obtain ⟨found,v,source,rest⟩ := runCut call
    cases found with
    | none =>
      cases rest
      exact keepsBacked h keepsLinkSource source
    | some ip => exact absurd ⟨ip,v,source⟩ harmless
  | fsRead fd counts =>
    obtain ⟨rc,u,call,done⟩ := runCut ran
    cases done
    rw [Harmless,view] at harmless
    exact keptBacked h (fun u ok => readSound h.sound harmless ok) call
  | fsWrite fd src =>
    obtain ⟨rc,u,call,done⟩ := runCut ran
    cases done
    exact keptBacked h (fun u ok => writeSound h.sound harmless ok) call
  | fsDup fd => exact keepsBacked h (keepsThen keepsDup fun _ => keepsPure) ran
  | fsClose fd => exact keepsBacked h (keepsThen keepsClose fun _ => keepsPure) ran
  | fsUnlink path => exact keepsBacked h (keepsThen keepsUnlink fun _ => keepsPure) ran
  | fsLseek fd off whence => exact keepsBacked h (keepsThen keepsLseek fun _ => keepsPure) ran
  | fsFstat fd => exact keepsBacked h (keepsThen keepsFstat fun _ => keepsPure) ran

theorem recycleBacked {i x} (h : Backed w t) (idle : x.ref = 0) : Backed ⟨w.disk,w.mem.withInode i x⟩ t := by
  have never : ¬ 0 < x.ref := by omega
  exact ⟨h.same,h.sound.disk,cachedWith h.sound.cache (fun j _ => h.sound.cache.slot j) (fun used => absurd used never)
    (fun used => absurd used never) fun used => absurd used never⟩

theorem runsBacked (h : Backed w₀ t₀) (runs : Runs w₀ w) : ∃ t, Backed w t ∧ Evolves t₀ t := by
  induction runs with
  | start => exact ⟨t₀,h,evolvesRefl⟩
  | call _ harmless ran ih =>
    obtain ⟨t,backed,evolves⟩ := ih
    obtain ⟨t',backed',evolves'⟩ := callBacked backed harmless ran
    exact ⟨t',backed',evolvesTrans evolves evolves'⟩
  | recycle _ _ idle ih =>
    obtain ⟨t,backed,evolves⟩ := ih
    exact ⟨t,recycleBacked backed idle,evolves⟩
  | switch _ thread ih =>
    obtain ⟨t,backed,evolves⟩ := ih
    exact ⟨t,⟨backed.same,soundInodes backed.sound rfl⟩,evolves⟩
  | typed _ chars ih =>
    obtain ⟨t,backed,evolves⟩ := ih
    exact ⟨t,⟨backed.same,soundInodes backed.sound rfl⟩,evolves⟩

end Calls

def smallView {α β : Type} (p : Fs α) (f : (Nat → Block) → Kernel → β) : Option (α × β) :=
  match run diskLayer p ⟨flat smallImage 64,bootKernel [] []⟩ with
  | .ok (a,u) => some (a,f u.disk.view u.mem)
  | .error _ => none

theorem smallSeen {f : (Nat → Block) → Kernel → β} {b : β} (seen : smallView p f = some (a,b)) :
    ∃ w, run cacheLayer p smallWorld = .ok (a,w) ∧ f (cachedView w.disk) w.mem = b := by
  unfold smallView at seen
  split at seen
  · rename_i c u ok
    cases seen
    have room := smallReady (by decide) (congrArg fault ok)
    obtain stuck | ⟨s',ran,same⟩ := toCache (bootMatches smallImage 64) ok
    · exact absurd stuck room
    · exact ⟨_,ran,by rw [matchesView same]⟩
  · cases seen

theorem smallFits : Fits (64*bsize) 16 := by
  refine ⟨by decide,by decide,by decide,by decide,?_⟩
  change 0 < (superOf smallImage).sNblocks.toNat
  rw [smallSuper]
  decide

theorem linkCountsMatch {size nrFiles : Nat} (fits : Fits size nrFiles) (console stack : List UInt8) {w : World Store Kernel}
    (runs : Runs ⟨boot (writeFsImage size nrFiles) (size/bsize),bootKernel console stack⟩ w) (inum : BitVec 32)
    (numbered : inum.toNat < (superOf (cachedView w.disk)).sNinodes.toNat)
    (file : (stored (cachedView w.disk) inum).iMode = fsImodeFile) :
    (stored (cachedView w.disk) inum).iNlink.toNat = names (cachedView w.disk) (rootOf (cachedView w.disk)) inum := by
  obtain ⟨t,backed,_⟩ := runsBacked ⟨bootMatches _ _,imageSound fits console stack⟩ runs
  rw [matchesView backed.same] at numbered file ⊢
  have links := backed.sound.disk.links inum numbered file
  rwa [if_neg (fun none => by cases none)] at links

def firstFile : BitVec 32 := 4

def createThen (p : Fs Int) : Fs (Int × Int) := do
  let fd ← fsOpen fileA oCreate
  let rc ← p
  pure (fd,rc)

theorem createThenOk {p fd rc w'} (ok : run cacheLayer (createThen p) smallWorld = .ok ((fd,rc),w')) :
    ∃ w, run cacheLayer (fsOpen fileA oCreate) smallWorld = .ok (fd,w) ∧ run cacheLayer p w = .ok (rc,w') := by
  obtain ⟨_,w,created,ok⟩ := runCut ok
  obtain ⟨_,_,called,ok⟩ := runCut ok
  cases ok
  exact ⟨w,created,called⟩

theorem smallRoom (path : List UInt8) (omode : BitVec 32) : Harmless smallWorld (.fsOpen path omode) := by
  refine Or.inr ?_
  rw [smallWorld,smallStore,matchesView (bootMatches smallImage 64)]
  decide +kernel

theorem smallCreated : smallView (fsOpen fileA oCreate)
    (fun view _ => ((superOf view).sNinodes,(stored view firstFile).iMode,inodeBit view firstFile)) =
    some (0,(16,fsImodeFile,true)) := by decide +kernel

theorem newFileIsCounted : ∃ w, run cacheLayer (Call.fsOpen fileA oCreate).prog smallWorld = .ok (.code 0,w) ∧
    (stored (cachedView w.disk) firstFile).iNlink.toNat = names (cachedView w.disk) (rootOf (cachedView w.disk)) firstFile := by
  obtain ⟨w,created,view⟩ := smallSeen smallCreated
  obtain ⟨inodes,view⟩ := Prod.mk.inj view
  obtain ⟨mode,_⟩ := Prod.mk.inj view
  have ran : run cacheLayer (Call.fsOpen fileA oCreate).prog smallWorld = .ok (.code 0,w) := (runBindOk _).mpr ⟨0,w,created,rfl⟩
  have runs : Runs smallWorld w := .call .start (smallRoom fileA oCreate) ran
  exact ⟨w,ran,linkCountsMatch smallFits [] [] runs firstFile (by rw [inodes]; decide) mode⟩

theorem linkIsNotStored : ∃ w w', run cacheLayer (Call.fsOpen fileA oCreate).prog smallWorld = .ok (.code 0,w) ∧
    run cacheLayer (Call.fsLink fileA fileB).prog w = .ok (.code 0,w') ∧
    (stored (cachedView w'.disk) firstFile).iMode = fsImodeFile ∧ (stored (cachedView w'.disk) firstFile).iNlink = 1 ∧
    names (cachedView w'.disk) (rootOf (cachedView w'.disk)) firstFile = 2 := by
  have seen : smallView (createThen (fsLink fileA fileB)) (fun view _ =>
      ((stored view firstFile).iMode,(stored view firstFile).iNlink,names view (rootOf view) firstFile)) =
      some ((0,0),(fsImodeFile,1,2)) := by decide +kernel
  obtain ⟨w',both,view⟩ := smallSeen seen
  obtain ⟨w,created,linked⟩ := createThenOk both
  obtain ⟨mode,view⟩ := Prod.mk.inj view
  obtain ⟨nlink,count⟩ := Prod.mk.inj view
  exact ⟨w,w',(runBindOk _).mpr ⟨0,w,created,rfl⟩,(runBindOk _).mpr ⟨0,w',linked,rfl⟩,mode,nlink,count⟩

def FileSystem (w : World Store Kernel) : Prop := ∃ t, Backed w t

theorem inodeNumberStays {w w₁ w₂ : World Store Kernel} (system : FileSystem w) {path : List UInt8} {omode : BitVec 32} {reply : Reply}
    (harmless : Harmless w (.fsOpen path omode)) (created : run cacheLayer (Call.fsOpen path omode).prog w = .ok (reply,w₁))
    {inum : BitVec 32} (numbered : inum.toNat < (superOf (cachedView w.disk)).sNinodes.toNat)
    (free : inodeBit (cachedView w.disk) inum = false) (taken : inodeBit (cachedView w₁.disk) inum = true) (later : Runs w₁ w₂) :
    inodeBit (cachedView w₂.disk) inum ≠ inodeBit (cachedView w.disk) inum ∧
      ∀ ip a w₃, (w₂.mem.inode ip).ref = 1 ∧ (w₂.mem.inode ip).valid = true ∧ (w₂.mem.inode ip).iNlink = 0 →
        run cacheLayer (inodePut ip) w₂ ≠ .ok (a,w₃) := by
  obtain ⟨t,backed⟩ := system
  obtain ⟨t₁,backed₁,evolves⟩ := callBacked backed harmless created
  obtain ⟨t₂,backed₂,evolves'⟩ := runsBacked backed₁ later
  rw [matchesView backed.same] at numbered free ⊢
  rw [matchesView backed₁.same] at taken
  rw [matchesView backed₂.same]
  refine ⟨?_,fun ip a w₃ last ran => ?_⟩
  · rw [free,evolves'.bits inum (by rw [evolves.super]; exact numbered) taken]
    decide
  · obtain ⟨t₃,ok,_⟩ := fromCache backed₂.same ran
    exact putUnlinked backed₂.sound last ok

theorem smallClear : inodeBit (cachedView smallWorld.disk) firstFile = false := by
  rw [smallWorld,smallStore,matchesView (bootMatches smallImage 64)]
  decide +kernel

def firstSeen (view : Nat → Block) (k : Kernel) : Bool × Int × Bool × BitVec 64 :=
  (inodeBit view firstFile,(k.inode 1).ref,(k.inode 1).valid,(k.inode 1).iNlink)

theorem smallUnlinked : smallView (createThen (fsUnlink fileA)) firstSeen = some ((0,0),(true,1,true,0)) := by decide +kernel

theorem unlinkKeepsNumber : ∃ w₁ w₂, run cacheLayer (Call.fsOpen fileA oCreate).prog smallWorld = .ok (.code 0,w₁) ∧
    run cacheLayer (Call.fsUnlink fileA).prog w₁ = .ok (.code 0,w₂) ∧
    inodeBit (cachedView w₂.disk) firstFile ≠ inodeBit (cachedView smallWorld.disk) firstFile ∧
    ∀ a w₃, run cacheLayer (inodePut 1) w₂ ≠ .ok (a,w₃) := by
  have system : FileSystem smallWorld := ⟨flat smallImage 64,bootMatches smallImage 64,imageSound smallFits [] []⟩
  obtain ⟨w₁,created,new⟩ := smallSeen smallCreated
  obtain ⟨_,new⟩ := Prod.mk.inj new
  obtain ⟨_,taken⟩ := Prod.mk.inj new
  obtain ⟨w₂,both,view⟩ := smallSeen smallUnlinked
  obtain ⟨w,again,unlinked⟩ := createThenOk both
  rw [created] at again
  cases again
  have ran : run cacheLayer (Call.fsOpen fileA oCreate).prog smallWorld = .ok (.code 0,w₁) := (runBindOk _).mpr ⟨0,w₁,created,rfl⟩
  have called : run cacheLayer (Call.fsUnlink fileA).prog w₁ = .ok (.code 0,w₂) := (runBindOk _).mpr ⟨0,w₂,unlinked,rfl⟩
  have numbered : firstFile.toNat < (superOf (cachedView smallWorld.disk)).sNinodes.toNat := by
    rw [smallWorld,smallStore,matchesView (bootMatches smallImage 64)]
    change _ < (superOf smallImage).sNinodes.toNat
    rw [smallSuper]
    decide
  have runs : Runs w₁ w₂ := .call (c := .fsUnlink fileA) .start trivial called
  obtain ⟨differs,stops⟩ := inodeNumberStays system (smallRoom fileA oCreate) ran numbered smallClear taken runs
  obtain ⟨_,slot⟩ := Prod.mk.inj view
  obtain ⟨one,slot⟩ := Prod.mk.inj slot
  obtain ⟨valid,unlinked⟩ := Prod.mk.inj slot
  exact ⟨w₁,w₂,ran,called,differs,fun a w₃ => stops 1 a w₃ ⟨one,valid,unlinked⟩⟩

theorem smallStops {q : Fs β} (ok : run cacheLayer p smallWorld = .ok (a,w))
    (fails : fault (run diskLayer (p >>= fun _ => q) ⟨flat smallImage 64,bootKernel [] []⟩) = some .assertion) :
    fault (run cacheLayer q w) = some .assertion := by
  rw [← (smallRun (by decide) _ _).2] at fails
  change fault (run cacheLayer _ smallWorld) = _ at fails
  rwa [runBind,ok,followOk] at fails

theorem removedFileIsNotFreed : ∃ w₁ w₂ w₃, run cacheLayer (Call.fsOpen fileA oCreate).prog smallWorld = .ok (.code 0,w₁) ∧
    run cacheLayer (Call.fsUnlink fileA).prog w₁ = .ok (.code 0,w₂) ∧ run cacheLayer (Call.fsClose 0).prog w₁ = .ok (.code 0,w₃) ∧
    inodeBit (cachedView smallWorld.disk) firstFile = false ∧
    inodeBit (cachedView w₂.disk) firstFile = true ∧ fault (run cacheLayer (Call.fsClose 0).prog w₂) = some .assertion ∧
    inodeBit (cachedView w₃.disk) firstFile = true ∧ fault (run cacheLayer (Call.fsUnlink fileA).prog w₃) = some .assertion := by
  have shut : smallView (createThen (fsClose 0)) (fun view _ => inodeBit view firstFile) = some ((0,0),true) := by decide +kernel
  obtain ⟨w₂,first,view⟩ := smallSeen smallUnlinked
  obtain ⟨bit₂,_⟩ := Prod.mk.inj view
  obtain ⟨w₃,second,bit₃⟩ := smallSeen shut
  obtain ⟨w₁,created,unlinked⟩ := createThenOk first
  obtain ⟨w,again,closed⟩ := createThenOk second
  rw [created] at again
  cases again
  refine ⟨w₁,w₂,w₃,(runBindOk _).mpr ⟨0,w₁,created,rfl⟩,(runBindOk _).mpr ⟨0,w₂,unlinked,rfl⟩,(runBindOk _).mpr
    ⟨0,w₃,closed,rfl⟩,
    smallClear,bit₂,smallStops first ?_,bit₃,smallStops second ?_⟩
  all_goals decide +kernel

end TskSw.FsRuns
