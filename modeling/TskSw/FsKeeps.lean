import TskSw.FsSteps

/-! The calls of `fs/fs.c` keep the invariant. Between two steps that change the directory
or an inode a program leaves no link owed; `create` and `fs_unlink` owe one in the middle. -/
namespace TskSw.FsKeeps
open Bytes BlockProgram BlkIo BlkFlat FsLayout FsKernel DataBitmap DataBlocks Bmap Inodes InodeIo CString Directory FsCalls FsTree FsSteps
open DirectoryMap (Live zeroDirent freeSlotDead searchSome searchNone)
open Mkfs (fnameMax)

variable {owed : Option (BitVec 32)} {s u v : State} {path name : List UInt8} {dp ip n room : Nat} {inum : BitVec 32} {parent : Bool}
  {off : BitVec 64} {rc : Int} {a b : Unit} {r : Option Nat}

section Rules
variable {α γ : Type} {p : Fs α} {f : α → Fs γ}

def Keeps (p : Fs α) : Prop := ∀ s a u, Sound none s → run diskLayer p s = .ok (a,u) → Sound none u ∧ Evolves s.disk u.disk

theorem keptDisk (sound : Sound none u) (same : u.disk = s.disk) : Sound none u ∧ Evolves s.disk u.disk :=
  ⟨sound,by rw [same]; exact evolvesRefl⟩

theorem keepsPure {a : α} : Keeps (pure a) := by
  intro s b u h ok
  cases ok
  exact keptDisk h rfl

theorem keepsAbort {e : Fault} : Keeps (abort e : Fs α) := by
  intro s a u _ ok
  cases ok

theorem keepsThen (first : Keeps p) (rest : ∀ a, Keeps (f a)) : Keeps (p >>= f) := by
  intro s b u h ok
  obtain ⟨a,v,left,right⟩ := runCut ok
  obtain ⟨sound,evolves⟩ := first s a v h left
  obtain ⟨sound',evolves'⟩ := rest a v b u sound right
  exact ⟨sound',evolvesTrans evolves evolves'⟩

theorem keepsMemory : Keeps memory := by
  intro s a u h ok
  cases ok
  exact keptDisk h rfl

theorem keepsAssert {cond : Prop} [Decidable cond] : Keeps (kassert cond) := by
  unfold kassert
  split
  · exact keepsPure
  · exact keepsAbort

theorem keepsGet : Keeps (getInode ip) := keepsThen keepsMemory fun _ => keepsPure

theorem soundInodes {k : Kernel} (h : Sound owed s) (same : k.inode = s.mem.inode) :
    Sound owed ⟨s.disk,k⟩ := by
  refine ⟨h.disk,?_,?_,?_⟩
  all_goals rw [same]
  · exact h.cache.inside
  · exact h.cache.slot
  · exact h.cache.unique

theorem keepsChange {g : Kernel → Kernel} (same : ∀ k, (g k).inode = k.inode) : Keeps (memory >>= fun k => setMemory (g k)) := by
  intro s a u h ok
  cases ok
  exact keptDisk (soundInodes h (same _)) rfl

theorem keepsPut : Keeps (inodePut ip) := fun _ _ _ h ok => keptDisk (putSound h ok).1 (putSound h ok).2.1
theorem keepsLock {ip : Nat} : Keeps (inodeLock ip) := fun _ _ _ h ok => keptDisk (lockSound h ok).1 (lockSound h ok).2.1
theorem keepsUnlock {ip : Nat} : Keeps (inodeUnlock ip) := fun _ _ _ h ok => keptDisk (unlockSound h ok).1 (unlockSound h ok).2.1

theorem keepsDrop (q : Fs α) (rest : Keeps q) : Keeps (do inodeUnlock ip; inodePut ip; q) :=
  keepsThen keepsUnlock fun _ => keepsThen keepsPut fun _ => rest

end Rules

variable {j : Nat}

section Paths

theorem elementsShort (member : name ∈ elements n path) : name.length ≤ fnameMax := by
  induction n generalizing path with
  | zero => cases member
  | succ n ih =>
    unfold elements at member
    split at member
    · cases member
    · rename_i first rest found
      unfold skipElement at found
      dsimp only at found
      split at found
      · cases found
      · cases found
        rcases List.mem_cons.mp member with rfl | later
        · exact List.length_take_le _ _
        · exact ih later

structure Element (name : List UInt8) : Prop where
  some : name ≠ []
  clean : 0 ∉ name
  short : name.length ≤ fnameMax

theorem pathSound {r : Option (Nat × List UInt8)} (h : Sound owed s) (ok : run diskLayer (inodePath2inode path parent room) s = .ok (r,u)) :
    Sound owed u ∧ u.disk = s.disk ∧ (parent = true → ∀ dp name, r = some (dp,name) → Element name) := by
  obtain ⟨_,v,assertion,ok⟩ := runCut ok
  rw [(runKassertOk assertion).2] at ok
  obtain ⟨ip,v,get,ok⟩ := runCut ok
  have numbered : rootIno.toNat < (superOf s.disk.view).sNinodes.toNat := h.disk.listing.number
  obtain ⟨sound,disk,_⟩ := getSound h numbered h.disk.reserved.2 get
  obtain ⟨sound',disk',proper⟩ := walkSound sound ok
  refine ⟨sound',disk'.trans disk,fun up dp name same => ?_⟩
  have member := proper up dp name same
  have clean : 0 ∉ cstr path := by
    intro zero
    have wrong := List.mem_takeWhile_imp zero
    simp at wrong
  obtain ⟨some,clean⟩ := elementsProper clean member
  exact ⟨some,clean,elementsShort member⟩

theorem keepsPath : Keeps (inodePath2inode path parent room) :=
  fun _ _ _ h ok => keptDisk (pathSound h ok).1 (pathSound h ok).2.1

theorem keepsNamei : Keeps (inodeNamei path) := by
  refine keepsThen keepsPath fun found => ?_
  split
  · exact keepsPure
  · exact keepsPure

end Paths

section Entries

theorem writeMapped {src : List UInt8} (some : src ≠ []) (ok : run diskLayer (inodeWrite ip src off) s = .ok (rc,u)) :
    rc = -enxio ∨ ∃ b v, run diskLayer (bmap ip (off.toNat/bsize)) s = .ok (b,v) := by
  rcases inodeWriteRan ok with ⟨refused,_⟩ | ⟨v,loop,_⟩
  · exact Or.inl refused
  cases src with
  | nil => exact absurd rfl some
  | cons c src =>
    rw [List.length_cons,writeLoop,if_neg some] at loop
    split at loop
    · cases loop
    · obtain ⟨b,w,map,_⟩ := runCut loop
      exact Or.inr ⟨b,w,map⟩

theorem entryWritten (h : Sound owed s) (held : Held s dp rootIno) (place : j ≤ entryCount (s.mem.inode dp)) (low : j < directEntries)
    {bytes : List UInt8} (length : bytes.length = direntSize)
    (ok : run diskLayer (inodeWrite dp bytes (BitVec.ofNat 64 (direntSize*j))) s = .ok ((direntSize : Int),u)) :
    Written dp j (direntOf bytes) s.disk s.mem u.disk u.mem := by
  have listing := heldListing h held
  have filled : bytes ≠ [] := by
    rintro rfl
    cases length
  have limit : direntSize*(j+1) ≤ fsMaxfileSize ∧ direntSize*j < 2^63 ∧ j/direntsPerBlock < fsIaddrDirectNr := by
    simp only [directEntries,direntsPerBlock,direntSize,bsize,fsIaddrDirectNr,fsMaxfileSize,fsIaddrInDirectNr,fsIaddrDoubleNr,
      iaddrsPerBlock] at low ⊢
    omega
  have number : (BitVec.ofNat 64 (direntSize*j)).toNat/bsize = j/direntsPerBlock := by
    rw [offNat limit.2.1]
    simp only [direntSize,bsize,direntsPerBlock]
    omega
  obtain ⟨b,v,mapping⟩ := (writeMapped filled ok).resolve_left (by decide)
  rw [number] at mapping
  have got := gotOk listing.mapping (limit.2.2.trans_le (by decide)) (Or.inl limit.2.2) mapping
  obtain ⟨d,l,ran,written⟩ := writtenRuns listing length place limit.1 mapping got
  rw [show (⟨s.disk,s.mem⟩ : State) = s from rfl,ok] at ran
  cases ran
  exact written

theorem heldFree (h : Sound owed s) (held : Held s dp rootIno) :
    freeSlot s.disk.view (s.mem.inode dp) = freeSlot s.disk.view (rootOf s.disk.view) := by
  rw [← heldContent h held]
  rfl

theorem addSound (h : Sound (some inum) s) (held : Held s dp rootIno) (element : Element name)
    (room : freeSlot s.disk.view (rootOf s.disk.view) < directEntries) (numbered : inum.toNat < (superOf s.disk.view).sNinodes.toNat)
    (bit : inodeBit s.disk.view inum = true) (other : inum ≠ rootIno) (real : inum ≠ 0)
    (ok : run diskLayer (addOrPanic dp name inum) s = .ok (a,u)) : Sound none u ∧ Stays s u ∧ Evolves s.disk u.disk := by
  obtain ⟨rc,v,add,ok⟩ := runCut ok
  split at ok
  · cases ok
  rename_i fine
  cases ok
  cases found : search s.disk.view (s.mem.inode dp) (hit name) with
  | some i =>
    obtain ⟨r,w,look,add⟩ := runCut add
    obtain ⟨_,_,_,⟨_,_,none⟩ | ⟨ip,i,rfl,_⟩⟩ := lookupSound h held look
    · rw [none] at found
      cases found
    · obtain ⟨_,x,_,add⟩ := runCut add
      cases add
      exact absurd (by decide) fine
  | none =>
    obtain ⟨bytes,length,ino,_,same⟩ := runAddFree (heldListing h held) found element.clean element.short inum
    rw [show (⟨s.disk,s.mem⟩ : State) = s from rfl,add] at same
    cases write : run diskLayer (inodeWrite dp bytes (BitVec.ofNat 64 (direntSize*freeSlot s.disk.view (s.mem.inode dp)))) s with
    | error e =>
      rw [write] at same
      cases same
    | ok out =>
      obtain ⟨count,w⟩ := out
      rw [write,followOk] at same
      split at same
      · rename_i whole
        cases same
        subst whole
        have low := room
        rw [← heldFree h held] at low
        have written := entryWritten h held (freeSlotPlace _ _) low length write
        refine writtenSound h held (freeSlotPlace _ _) low written (fun _ => ?_) fun m => ?_
        · rw [ino]
          exact ⟨numbered,bit,other⟩
        · have dead : ¬ (freeSlot s.disk.view (s.mem.inode dp) < entryCount (s.mem.inode dp) ∧
              (entryAt s.disk.view (s.mem.inode dp) (freeSlot s.disk.view (s.mem.inode dp))).dIno = m ∧ m ≠ 0) := by
            rintro ⟨inside,same,live⟩
            exact freeSlotDead inside (by rw [Live,same]; exact live)
          rw [ino,if_neg dead]
          by_cases mine : inum = m
          · subst mine
            simpa using real
          · simp [mine]
      · cases same

end Entries

section Create

theorem heldOther (h : Sound owed s) (held : Held s ip inum) (other : inum ≠ rootIno) : Plain s.disk.view (s.mem.inode ip) :=
  (h.cache.slot ip held.used).file held.valid (by rw [held.number]; exact other)

theorem updateRuns {y : Inode} (h : Sound owed s) (held : Held s ip inum) (number : y.inum = inum) (device : y.iDev = devRoot)
    (edit : run diskLayer (editInode ip fun _ => y) s = .ok (a,v)) (update : run diskLayer (inodeUpdate ip) v = .ok (b,u)) :
    u = ⟨putInode s.disk (superOf s.disk.view) inum (diskCopy y),s.mem.withInode ip y⟩ := by
  cases edit
  have here : (s.mem.withInode ip y).inode ip = y := by simp [Kernel.withInode]
  have numbered := (h.cache.slot ip held.used).number
  rw [held.number] at numbered
  have ran := runInodeUpdate (t := s.disk) (k := s.mem.withInode ip y) (rootedTables h.disk) (by rw [here,device]; exact devRootNat)
    (by rw [here,number]; exact numbered)
  rw [here,number,update] at ran
  cases ran
  rfl

theorem newSound (h : Sound none s) (held : Held s ip inum) (other : inum ≠ rootIno)
    (unnamed : names s.disk.view (rootOf s.disk.view) inum = 0)
    (edit : run diskLayer (editInode ip fun x => {x with iDev := devRoot, iNlink := 1}) s = .ok (a,v))
    (update : run diskLayer (inodeUpdate ip) v = .ok (b,u)) : Sound (some inum) u ∧ Stays s u ∧ Evolves s.disk u.disk ∧
      SameRoot s.disk u.disk := by
  have number := (h.cache.slot ip held.used).number
  rw [held.number] at number
  have plain := heldOther h held other
  have debts : ∀ m, m ≠ inum → (some inum = some m ↔ none = some m) :=
    fun m apart => ⟨fun same => absurd (Option.some.inj same).symm apart,fun none => by cases none⟩
  obtain rfl := updateRuns (y := {s.mem.inode ip with iDev := devRoot, iNlink := 1}) h held held.number rfl edit update
  obtain ⟨sound,stays,evolves⟩ := updateSound (y := {s.mem.inode ip with iDev := devRoot, iNlink := 1}) h held other
    held.number rfl rfl held.valid ⟨plain.mode,plain.size,plain.addr⟩ debts fun _ => by rw [unnamed,if_pos rfl]; rfl
  exact ⟨sound,stays,evolves,(putEvolves h.disk other number _).2⟩

theorem freeSame {t u : Disk} (h : Rooted owed t) (same : SameRoot t u) :
    freeSlot u.view (rootOf u.view) = freeSlot t.view (rootOf t.view) := by
  have count : entryCount (rootOf u.view) = entryCount (rootOf t.view) := by rw [same.root]
  have entry : ∀ i < entryCount (rootOf t.view), entryAt u.view (rootOf u.view) i = entryAt t.view (rootOf t.view) i :=
    fun i inside => entrySame h same inside
  have scan : search u.view (rootOf u.view) (fun e => decide (e.dIno = 0)) = search t.view (rootOf t.view) (fun e => decide (e.dIno = 0)) := by
    cases found : search t.view (rootOf t.view) (fun e => decide (e.dIno = 0)) with
    | none =>
      refine searchNone.mpr fun i inside => ?_
      rw [count] at inside
      rw [entry i inside]
      exact searchNone.mp found i inside
    | some i =>
      obtain ⟨inside,here,before⟩ := searchSome.mp found
      refine searchSome.mpr ⟨by rw [count]; exact inside,by rw [entry i inside]; exact here,fun j below => ?_⟩
      rw [entry j (below.trans inside)]
      exact before j below
  rw [freeSlot,freeSlot,scan,count]

theorem enterSound {c d : Unit} {w x y : State} (h : Sound none s) (held : Held s dp rootIno)
    (element : Element name) (room : freeSlot s.disk.view (rootOf s.disk.view) < directEntries)
    (allocate : run diskLayer (inodeAllocate devRoot fsImodeFile) s = .ok (some ip,v))
    (lock : run diskLayer (inodeLock ip) v = .ok (a,w))
    (edit : run diskLayer (editInode ip fun x => {x with iDev := devRoot, iNlink := 1}) w = .ok (b,x))
    (update : run diskLayer (inodeUpdate ip) x = .ok (c,y))
    (add : run diskLayer (addOrPanic dp name (w.mem.inode ip).inum) y = .ok (d,u)) : Sound none u ∧ Evolves s.disk u.disk := by
  obtain ⟨inum,numbered,clear,fresh,number,bit,_,kept,evolves,same⟩ := allocateSound h allocate
  have other : inum ≠ rootIno := by
    rintro rfl
    rw [h.disk.reserved.2] at clear
    cases clear
  have real : inum ≠ 0 := by
    rintro rfl
    rw [h.disk.reserved.1] at clear
    cases clear
  have unnamed : names v.disk.view (rootOf v.disk.view) inum = 0 := by
    rw [namesSame h.disk same]
    exact namesFresh h.disk clear
  obtain ⟨locked,disk,mine,kept'⟩ := lockSound fresh lock
  rw [number] at mine
  rw [← disk] at bit unnamed evolves same
  obtain ⟨owing,kept'',evolves',same'⟩ := newSound locked mine other unnamed edit update
  have grown := evolvesTrans evolves evolves'
  have dir := kept'' dp rootIno (kept' dp rootIno (kept dp rootIno held))
  have space : freeSlot y.disk.view (rootOf y.disk.view) < directEntries := by
    rw [freeSame h.disk (sameRootTrans same same')]
    exact room
  rw [mine.number] at add
  obtain ⟨settled,_,evolves''⟩ := addSound owing dir element space (by rw [grown.super]; exact numbered)
    (evolves'.bits inum (by rw [evolves.super]; exact numbered) bit) other real add
  exact ⟨settled,evolvesTrans grown evolves''⟩

theorem createSound (h : Sound none s) (room : freeSlot s.disk.view (rootOf s.disk.view) < directEntries)
    (ok : run diskLayer (create path fsImodeFile devRoot) s = .ok (r,u)) : Sound none u ∧ Evolves s.disk u.disk := by
  obtain ⟨found,v,parent,ok⟩ := runCut ok
  obtain ⟨sound,disk,proper⟩ := pathSound h parent
  cases found with
  | none =>
    cases ok
    exact keptDisk sound disk
  | some pair =>
    obtain ⟨dp,name⟩ := pair
    have element := proper rfl dp name rfl
    obtain ⟨_,w,lock,ok⟩ := runCut ok
    obtain ⟨sound,disk',held,_⟩ := lockSound sound lock
    obtain ⟨old,x,look,ok⟩ := runCut ok
    have held := lookupRoot sound held look
    obtain ⟨sound',disk'',stays,_⟩ := lookupSound sound held look
    have held' := stays dp rootIno held
    rw [← disk,← disk',← disk''] at room ⊢
    cases old with
    | some hit =>
      obtain ⟨ip,off⟩ := hit
      refine (show Keeps _ from ?_) x r u sound' ok
      refine keepsDrop _ (keepsThen keepsLock fun _ => keepsThen keepsGet fun x => ?_)
      split
      · exact keepsPure
      · exact keepsDrop _ keepsPure
    | none =>
      obtain ⟨d,_,get,ok⟩ := runCut ok
      cases get
      rw [(sound'.cache.slot dp held'.used).device] at ok
      obtain ⟨made,y,allocate,ok⟩ := runCut ok
      cases made with
      | none => cases ok
      | some ip =>
        obtain ⟨_,z,lock,ok⟩ := runCut ok
        obtain ⟨_,_,get,ok⟩ := runCut ok
        cases get
        obtain ⟨_,z₁,edit,ok⟩ := runCut ok
        obtain ⟨_,z₂,update,ok⟩ := runCut ok
        rw [if_neg (by decide : fsImodeFile ≠ fsImodeDir)] at ok
        obtain ⟨_,z₃,add,ok⟩ := runCut ok
        obtain ⟨settled,evolves⟩ := enterSound sound' held' element room allocate lock edit update add
        obtain ⟨done,evolves'⟩ := (show Keeps _ from keepsDrop _ keepsPure) z₃ r u settled ok
        exact ⟨done,evolvesTrans evolves evolves'⟩

end Create

section Unlink
variable {ino : BitVec 32}

theorem clearSound {a : Int} (h : Sound none s) (held : Held s dp rootIno) (inside : j < entryCount (s.mem.inode dp))
    (named : (entryAt s.disk.view (s.mem.inode dp) j).dIno = ino) (live : ino ≠ 0)
    (write : run diskLayer (inodeWrite dp (List.replicate direntSize 0) (BitVec.ofNat 64 (direntSize*j))) s = .ok (a,v))
    (assertion : run diskLayer (kassert (a = direntSize)) v = .ok (b,u)) : Sound (some ino) u ∧ Stays s u ∧ Evolves s.disk u.disk := by
  obtain ⟨rfl,rfl⟩ := runKassertOk assertion
  have short := h.disk.short
  rw [← heldCount h held] at short
  have low : j < directEntries := inside.trans_le short
  have written := entryWritten h held inside.le low (List.length_replicate) write
  have none : (direntOf (List.replicate direntSize 0)).dIno = 0 := by decide
  refine writtenSound h held inside.le low written (fun alive => absurd none alive) fun m => ?_
  rw [none,named,if_neg (fun both : 0 = m ∧ m ≠ 0 => both.2 both.1.symm)]
  by_cases mine : ino = m
  · subst mine
    rw [if_pos rfl,if_pos ⟨inside,rfl,live⟩,if_neg (fun wrong => by cases wrong)]
  · rw [if_neg (fun same => mine (Option.some.inj same)),if_neg (fun all => mine all.2.1),if_neg (fun wrong => by cases wrong)]

theorem undotted {e : Dirent} (element : Element name) (accepted : strncmp dot name fnameMax ≠ 0)
    (found : hit name e = true) : e.dName.headD 0 ≠ 46 := by
  obtain ⟨some,clean,short⟩ := element
  have start := (of_decide_eq_true found).2
  rw [strncmpZero clean (by omega)] at start
  rw [ne_eq,strncmpZero (by decide) (by decide)] at accepted
  cases name with
  | nil => exact absurd rfl some
  | cons c name =>
    intro first
    have here : c = 46 := by
      cases bytes : e.dName with
      | nil =>
        rw [bytes] at start
        simp [cstr] at start
      | cons d rest =>
        rw [bytes] at start first
        by_cases zero : d = 0
        · simp [cstr,zero] at start
        · rw [show cstr (d :: rest) = d :: cstr rest by simp [cstr,zero],List.cons_prefix_cons] at start
          exact start.1.trans first
    refine accepted ?_
    rw [here,show cstr (46 :: name) = 46 :: cstr name by simp [cstr]]
    exact List.cons_prefix_cons.mpr ⟨rfl,List.nil_prefix⟩

theorem uncountSound (h : Sound (some ino) s) (held : Held s ip ino) (other : ino ≠ rootIno)
    (edit : run diskLayer (editInode ip fun x => {x with iNlink := x.iNlink - 1}) s = .ok (a,v))
    (update : run diskLayer (inodeUpdate ip) v = .ok (b,u)) : Sound none u ∧ Evolves s.disk u.disk := by
  have slot := h.cache.slot ip held.used
  have plain := heldOther h held other
  have number := slot.number
  rw [held.number] at number
  obtain ⟨mode,nlink,_⟩ := slotMode slot held.valid
  rw [held.number] at mode nlink
  have debts : ∀ m, m ≠ ino → (none = some m ↔ some ino = some m) :=
    fun m apart => ⟨(fun none => by cases none),fun same => absurd (Option.some.inj same).symm apart⟩
  have count : (s.mem.inode ip).iMode = fsImodeFile →
      ((s.mem.inode ip).iNlink - 1).toNat = names s.disk.view (rootOf s.disk.view) ino + if none = some ino then 1 else 0 := by
    intro file
    have links := h.disk.links ino number (mode.symm.trans file)
    rw [if_pos rfl,← nlink] at links
    have bound := (s.mem.inode ip).iNlink.isLt
    rw [if_neg (fun wrong => by cases wrong),BitVec.toNat_sub,show (1 : BitVec 64).toNat = 1 from rfl]
    omega
  obtain rfl := updateRuns (y := {s.mem.inode ip with iNlink := (s.mem.inode ip).iNlink - 1}) h held held.number slot.device edit update
  obtain ⟨sound,_,evolves⟩ := updateSound (y := {s.mem.inode ip with iNlink := (s.mem.inode ip).iNlink - 1}) h held other
    held.number slot.device rfl held.valid ⟨plain.mode,plain.size,plain.addr⟩ debts count
  exact ⟨sound,evolves⟩

theorem unlinkEntrySound (h : Sound none s) (dir : Held s dp rootIno) (file : Held s ip ino) (other : ino ≠ rootIno)
    (inside : j < entryCount (s.mem.inode dp)) (named : (entryAt s.disk.view (s.mem.inode dp) j).dIno = ino) (live : ino ≠ 0)
    (ok : run diskLayer (unlinkEntry dp ip (direntSize*j)) s = .ok (rc,u)) : Sound none u ∧ Evolves s.disk u.disk := by
  obtain ⟨_,v,write,ok⟩ := runCut ok
  obtain ⟨_,w,assertion,ok⟩ := runCut ok
  obtain ⟨owing,stays,evolves⟩ := clearSound h dir inside named live write assertion
  have file := stays ip ino file
  have dir := stays dp rootIno dir
  obtain ⟨x,_,get,ok⟩ := runCut ok
  cases get
  rw [if_neg (heldOther owing file other).mode] at ok
  obtain ⟨_,x,unlock,ok⟩ := runCut ok
  obtain ⟨_,y,put,ok⟩ := runCut ok
  obtain ⟨owing,disk,kept⟩ := unlockPutSound owing unlock put
  have apart : ip ≠ dp := by
    rintro rfl
    exact other (file.number.symm.trans dir.number)
  have file := kept ip ino apart file
  obtain ⟨_,z,edit,ok⟩ := runCut ok
  obtain ⟨_,z',update,ok⟩ := runCut ok
  obtain ⟨settled,evolves'⟩ := uncountSound owing file other edit update
  obtain ⟨done,evolves''⟩ := (show Keeps _ from keepsDrop _ keepsPure) z' rc u settled ok
  rw [disk] at evolves'
  exact ⟨done,evolvesTrans evolves (evolvesTrans evolves' evolves'')⟩

theorem keepsUnlinkOut : Keeps (unlinkErrorOut dp) := keepsDrop _ keepsPure

theorem keepsUnlink : Keeps (fsUnlink path) := by
  intro s rc u h ok
  obtain ⟨found,v,parent,ok⟩ := runCut ok
  obtain ⟨sound,disk,proper⟩ := pathSound h parent
  rw [← disk]
  cases found with
  | none =>
    cases ok
    exact keptDisk sound rfl
  | some pair =>
    obtain ⟨dp,name⟩ := pair
    have element := proper rfl dp name rfl
    obtain ⟨_,w,lock,ok⟩ := runCut ok
    obtain ⟨sound,disk,held,_⟩ := lockSound sound lock
    rw [← disk]
    split at ok
    · exact keepsUnlinkOut w rc u sound ok
    rename_i accepted
    obtain ⟨old,x,look,ok⟩ := runCut ok
    have held := lookupRoot sound held look
    obtain ⟨sound',disk,stays,result⟩ := lookupSound sound held look
    rw [← disk]
    cases old with
    | none => exact keepsUnlinkOut x rc u sound' ok
    | some hit =>
      obtain ⟨ip,off⟩ := hit
      obtain ⟨_,j,same,inside,here,number⟩ := result.resolve_left (fun wrong => by cases wrong.1)
      cases same
      rw [heldCount sound held,← disk] at inside
      rw [heldEntry sound held,← disk] at here number
      have other : (entryAt x.disk.view (rootOf x.disk.view) j).dIno ≠ rootIno := fun root =>
        undotted element (fun dots => accepted (Or.inl dots)) here (sound'.disk.dots j inside root)
      obtain ⟨_,y,lock,ok⟩ := runCut ok
      obtain ⟨sound,disk,file,stays'⟩ := lockSound sound' lock
      have dir := stays' dp rootIno (stays dp rootIno held)
      rw [number] at file
      obtain ⟨_,_,get,ok⟩ := runCut ok
      cases get
      obtain ⟨_,_,assertion,ok⟩ := runCut ok
      rw [(runKassertOk assertion).2] at ok
      obtain ⟨empty,z,check,ok⟩ := runCut ok
      obtain ⟨_,_,get,check⟩ := runCut check
      cases get
      rw [if_neg (heldOther sound file other).mode] at check
      cases check
      rw [← disk] at inside here other file ⊢
      refine unlinkEntrySound sound dir file other ?_ ?_ (of_decide_eq_true here).1 ok
      · rw [heldCount sound dir]
        exact inside
      · rw [heldEntry sound dir]

end Unlink

section Files
variable {f : Fin maxFdTableSize} {omode : BitVec 32} {fd : Int}

theorem keepsEditFile {g : FileDescriptor → FileDescriptor} : Keeps (editFile f g) := keepsChange fun _ => rfl

theorem keepsSetFd {o : Option (Fin maxFdTableSize)} : Keeps (setFd n o) := keepsChange fun _ => rfl

theorem keepsAllocNewFd : Keeps (allocNewFd f) := by
  refine keepsThen keepsMemory fun k => ?_
  split
  · exact keepsPure
  · exact keepsThen keepsSetFd fun _ => keepsPure

theorem keepsTableAlloc : Keeps fdtableAllocNewFd := by
  refine keepsThen keepsMemory fun k => ?_
  split
  · exact keepsPure
  · exact keepsThen keepsEditFile fun _ => keepsPure

theorem keepsDuplicate : Keeps (fdtableDuplicateFd f) :=
  keepsThen keepsMemory fun _ => keepsThen keepsAssert fun _ => keepsEditFile

theorem keepsCloseFd : Keeps (fdtableCloseFd f) := by
  refine keepsThen keepsMemory fun k => keepsThen keepsAssert fun _ => keepsThen keepsEditFile fun _ => ?_
  split
  · split
    · exact keepsAbort
    · exact keepsPut
  · exact keepsPure

theorem keepsOpenFile : Keeps (openFile fd) := by
  unfold openFile
  split
  · exact keepsPure
  · refine keepsThen keepsMemory fun k => ?_
    split
    · exact keepsPure
    · exact keepsPure

theorem keepsDup : Keeps (fsDup fd) := by
  refine keepsThen keepsOpenFile fun found => ?_
  split
  · exact keepsPure
  · refine keepsThen keepsAllocNewFd fun new => ?_
    split
    · exact keepsPure
    · exact keepsThen keepsDuplicate fun _ => keepsPure

theorem keepsClose : Keeps (fsClose fd) := by
  refine keepsThen keepsOpenFile fun found => ?_
  split
  · exact keepsPure
  · exact keepsThen keepsSetFd fun _ => keepsThen keepsCloseFd fun _ => keepsPure

theorem keepsPutOut : Keeps (inodePutOut ip) := keepsDrop _ keepsPure

theorem keepsOpenInode : Keeps (openInode ip omode) := by
  refine keepsThen keepsTableAlloc fun table => ?_
  split
  · exact keepsPutOut
  · refine keepsThen keepsAllocNewFd fun new => ?_
    split
    · exact keepsThen keepsCloseFd fun _ => keepsPutOut
    · exact keepsThen keepsUnlock fun _ => keepsThen keepsEditFile fun _ => keepsPure

theorem openSourceSound (h : Sound none s) (room : omode &&& oCreate = 0 ∨ freeSlot s.disk.view (rootOf s.disk.view) < directEntries)
    (ok : run diskLayer (openSource path omode) s = .ok (r,u)) : Sound none u ∧ Evolves s.disk u.disk := by
  unfold openSource at ok
  split at ok
  · rename_i creating
    exact createSound h (room.resolve_left creating) ok
  · refine (show Keeps _ from ?_) s r u h ok
    refine keepsThen keepsNamei fun found => ?_
    split
    · exact keepsPure
    · refine keepsThen keepsLock fun _ => keepsThen keepsGet fun x => ?_
      split
      · exact keepsDrop _ keepsPure
      · exact keepsPure

theorem openSound (h : Sound none s) (room : omode &&& oCreate = 0 ∨ freeSlot s.disk.view (rootOf s.disk.view) < directEntries)
    (ok : run diskLayer (fsOpen path omode) s = .ok (rc,u)) : Sound none u ∧ Evolves s.disk u.disk := by
  obtain ⟨found,v,source,ok⟩ := runCut ok
  obtain ⟨sound,evolves⟩ := openSourceSound h room source
  cases found with
  | none =>
    cases ok
    exact ⟨sound,evolves⟩
  | some ip =>
    obtain ⟨sound',evolves'⟩ := keepsOpenInode v rc u sound ok
    exact ⟨sound',evolvesTrans evolves evolves'⟩

theorem keepsLinkSource : Keeps (linkSource path) := by
  refine keepsThen keepsNamei fun found => ?_
  split
  · exact keepsPure
  · refine keepsThen keepsLock fun _ => keepsThen keepsGet fun x => ?_
    split
    · exact keepsDrop _ keepsPure
    · exact keepsPure

theorem keepsLseek {whence : Int} : Keeps (fsLseek fd off whence) := by
  refine keepsThen keepsOpenFile fun found => ?_
  split
  · exact keepsPure
  · refine keepsThen keepsMemory fun k => ?_
    dsimp only
    split
    · exact keepsAbort
    · exact keepsThen keepsLock fun _ => keepsThen keepsGet fun _ => keepsThen keepsUnlock fun _ => keepsThen keepsEditFile fun _ => keepsPure

theorem keepsFstat : Keeps (fsFstat fd) := by
  refine keepsThen keepsOpenFile fun found => ?_
  split
  · exact keepsPure
  · refine keepsThen ?_ fun _ => keepsPure
    refine keepsThen keepsMemory fun k => ?_
    split
    · exact keepsAbort
    · exact keepsThen keepsLock fun _ => keepsThen keepsGet fun _ => keepsThen keepsUnlock fun _ => keepsPure

end Files
end TskSw.FsKeeps
