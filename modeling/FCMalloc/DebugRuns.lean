import FCMalloc.DebugLists
import FCMalloc.NullManager
import FCMalloc.RaceFreedom

/-!
# FCMalloc.DebugRuns

When the debug build ends, in every state of every run of the release build.

With an interval to log its statistics at (`Setting`), three assertions can fail: that a
manager was found or is there to be called, that the size list has blocks of the class asked
for, and that there is room to record one more extension.
`Aborts` says so of each action, and `act_agrees` that the debug build otherwise does what the
release build does, function by function as in `FCMalloc.OwnershipSteps`. The debug build
is therefore the release build on the runs in which no action aborts.
-/

namespace FCMalloc

/-- Once the arena is touched, the request is served exactly if it needs no extension. -/
theorem MmapManager.enter_served {c : Config} {main : Bool} {mm mm' : MmapManager}
    {core size ret : Nat} {served : Option Nat} {touched : List Nat}
    (h : enter c main mm core size ret = some (served, mm', touched)) :
    (mm.touchOnce c main (c.arena main core)).isSome = true ∧
      (served = none ↔ mm.needsExtension c (c.arena main core) size = true) := by
  obtain ⟨touch, htouch, heq⟩ := Option.map_eq_some_iff.mp h
  refine ⟨by rw [htouch, Option.isSome_some], ?_⟩
  dsimp only at heq
  rw [← needsExtension_touchOnce htouch]
  split at heq
  case isTrue hneeds => simp [hneeds, ← (Prod.mk.inj heq).1]
  case isFalse hneeds => simp [hneeds, ← (Prod.mk.inj heq).1]

namespace Debug

open ByteMemory GlobalMemoryManager Machine

/-- The setting of the debug results: the statistics are logged at some interval. -/
structure Setting (c : Config) : Prop extends Machine.Setting c where
  intvl : c.outIntvl ≠ 0

/-- The size list has no blocks of the class of the size. -/
def Batchless (c : Config) (size : Nat) : Prop := c.nPerSize (sizeClass size) ≤ 0

instance (c : Config) (size : Nat) : Decidable (Batchless c size) :=
  inferInstanceAs (Decidable (c.nPerSize _ ≤ 0))

/-- When `malloc` ends the debug build. -/
def MallocAborts (c : Config) (th : Thread) (size : Nat) : Prop :=
  size ≠ 0 ∧ (th.lp = none ∨ Batchless c size)

/-- When a function ends the debug build as it goes on. -/
def FrameAborts (c : Config) (main : Bool) (s : Shared) : Frame → Prop
  | .pool r | .printing r .reported => Batchless c r.size
  | .allocate r => (MmapManager.touchOnce c main s.heap.mm (r.arena c main)).isSome = true ∧
      (Batchless c r.size ∨ s.heap.mm.needsExtension c (r.arena c main) (r.mmapSize c) = true ∧
        MmapManager.extendMax ≤ s.heap.mm.extendOffset)
  | _ => False

/-- **When an action ends the debug build.** -/
def Aborts (c : Config) (main : Bool) (s : Shared) (th : Thread) : Action → Prop
  | .start core => ¬ IdleSlot c s.heap.g core
  | .malloc size => MallocAborts c th size
  | .calloc nmemb size => MallocAborts c th (u64 (nmemb * size))
  | .realloc ptr size =>
      if ptr = 0 then MallocAborts c th size
      else th.lp = none ∨ MemUtil.ptrToSize s.heap.store.mem ptr < size ∧ Batchless c size
  | .free ptr => ptr ≠ 0 ∧ th.lp = none ∧
      ¬ IdleSlot c s.heap.g (MemUtil.ptrToCore s.heap.store.mem ptr)
  | .resume _ => ∃ f, th.stack.head? = some f ∧ FrameAborts c main s f
  | .exit | .allFree | .store _ _ => False

/-! ### Malloc -/

section Malloc

variable {c : Config} {main : Bool} {s : Shared} {th : Thread} {q : QueueId → List Nat}
  {r : Request} {p ptr ret size j : Nat}

/-- A block that was popped is of a class with blocks. -/
theorem popped_batch (h : Popped c s q r ptr) (hptr : ptr ≠ 0) : ¬ Batchless c r.size := by
  cases h with
  | null => exact absurd rfl hptr
  | block hb _ hsize hheap => exact Int.not_le.mpr ((hheap.blocks _ hb).batch hsize)

/-- **The rest of a caller**: `realloc` frees a block that is on no list. -/
theorem finish_eq (hc : Setting c) (h : Popped c s q r ptr) (hr : r.manager < managerN c)
    (hsize : r.size < 2 ^ 64) (hgrow : Growing s r) :
    finish c s r ptr = some (s.finish c r ptr) := by
  rw [finish, inclCounter_eq hc.intvl]
  split
  case h_1 => rfl
  case h_2 => exact check_pos (alignCheck_eq _ _) _
  case h_3 old preSize hcaller =>
    split
    case isTrue hnull => rw [hnull]
    case isFalse hptr =>
      obtain ⟨hlive, hless, b, hb, rfl, -⟩ := hgrow old preSize hcaller
      have hgiven := h.give (copy s.heap.store.mem ptr b.body preSize) hptr hsize fun x hx =>
        if_neg (by omega)
      have hloose := (hgiven.live_iff b hb).mp (List.mem_cons_of_mem ptr hlive)
      have hfree := freeBlock_eq hc.intvl hgiven.heap hr hb hloose
      dsimp only
      rw [show r.lm c = managerPools c r.manager from rfl, hfree, Option.map_some,
        Shared.finish, if_neg hptr, hcaller]
      rfl

/-- **The manager's own lists**, and the way to the pool. -/
theorem enterMalloc_agrees (th : Thread) (hc : Setting c) (h : Owned c s q) (hr : RequestOk c s r) :
    Agrees (enterMalloc c s th r) (Machine.enterMalloc c s th r) (Batchless c r.size) := by
  obtain ⟨hptr, hheap⟩ := h.heap.mallocOwn hr.manager r.size
  have hpop := h.pop hr.manager (h.heap.dealt_own hr.manager) hheap rfl hptr
  have hown : mallocOwn (r.lm c) s.heap.store r.size =
      some ((r.lm c).mallocOwn s.heap.store r.size) := mallocOwn_eq h.heap hr.manager hr.size_lt
  have hlist : (r.lm c).mallocList ≠ .nullptr := mallocList_ne_nullptr hr.manager
  unfold enterMalloc Machine.enterMalloc
  rw [if_neg hr.size_ne, if_neg hr.size_ne, check_pos hlist, hown, Option.bind_some]
  dsimp only
  split
  case isTrue hne =>
    refine Agrees.of_some ?_ (popped_batch hpop hne)
    exact congrArg _ (finish_eq hc hpop hr.manager hr.size_lt hr.grows)
  case isFalse =>
    rw [poolMallocEntry, check_pos hr.core_lt]
    by_cases hbatch : 0 < c.nPerSize (sizeClass r.size)
    · exact Agrees.of_some (check_pos hbatch _) (Int.not_le.mpr hbatch)
    · exact Agrees.of_none (check_neg hbatch _) (Int.not_lt.mp hbatch)

/-- A batch has blocks, unless the size list says otherwise. -/
theorem n_pos_iff (hc : Setting c) (r : Request) : 0 < r.n c ↔ ¬ Batchless c r.size := by
  have hbatch := (hc.fits.batch_eq (sizeClass r.size)).1
  unfold Batchless Request.n
  omega

/-- **The common pool**, and the way to the arena. -/
theorem pool_agrees (hc : Setting c) (h : Owned c s q) (hr : RequestOk c s r) :
    Agrees (resume c main s th ret (.pool r)) (Machine.resume c main s th ret (.pool r))
      (Batchless c r.size) := by
  obtain ⟨hptr, hheap⟩ := h.heap.mallocPool hr.manager hr.size_ne
  have hpop := h.pop hr.manager (h.heap.dealt_pool hr.manager) hheap rfl hptr
  have hpool : poolMalloc c s.heap.store (r.lm c).mallocList (r.lm c).core r.size =
      some (CommonMemoryPool.malloc c s.heap.store (r.lm c).mallocList (r.lm c).core r.size) :=
    poolMalloc_eq h.heap hr.manager hr.size_lt
  unfold resume Machine.resume
  dsimp only
  rw [hpool, Option.bind_some]
  split
  case isTrue hne =>
    refine Agrees.of_some ?_ (popped_batch hpop hne)
    exact congrArg _ (finish_eq hc hpop hr.manager hr.size_lt hr.grows)
  case isFalse =>
    have hsize := Nat.pos_of_ne_zero hr.size_ne
    rw [allocateEntry, check_pos hr.core_lt, check_pos hsize]
    by_cases hn : 0 < r.n c
    · have hsizes : BatchSizes c r.size (r.n c) := hc.fits.batchSizes hsize (by
        have hbatch := (hc.fits.batch_eq (sizeClass r.size)).1
        unfold Request.n at hn
        omega)
      refine Agrees.of_some ?_ ((n_pos_iff hc r).mp hn)
      have hsum : (!addCausesOverflow (bodySize r.size) (align headerSize 16)) = true := by
        have hclass := Nat.pow_le_pow_right Nat.two_pos hsizes.class_le
        have halign : align headerSize 16 = 48 := by decide
        rw [halign, hsizes.body, addCausesOverflow, Bool.not_eq_true', decide_eq_false_iff_not]
        omega
      rw [check_pos hn, check_pos (alignCheck_eq _ _), check_pos (alignCheck_eq _ _),
        check_pos hsum, check_pos (alignCheck_eq _ _), check_pos (Or.inl hr.core_lt)]
    · exact Agrees.of_none (check_neg hn _) (Classical.not_not.mp (mt (n_pos_iff hc r).mpr hn))

/-- **A granted range** is carved and the request served, if there is a batch to carve. -/
theorem serve_agrees (th : Thread) (hc : Setting c) (h : Owned c s q) (hr : RequestOk c s r)
    (hgranted : Granted s.heap c p (r.mmapSize c)) :
    Agrees (serve c s th r p) (Machine.serve c s th r p) (Batchless c r.size) := by
  have hsize := Nat.pos_of_ne_zero hr.size_ne
  by_cases hn : 0 < r.n c
  · refine Agrees.of_some ?_ ((n_pos_iff hc r).mp hn)
    obtain ⟨heap, hrun, hcarved, hmm, -, hinv, -⟩ := h.heap.carveInto hc.fits hsize rfl hr.core_lt
      (listCore_mallocList hr.manager) hgranted
    obtain ⟨hptr, hlast⟩ := hinv.mallocLast (r.lm c) r.size
    have hpop := (h.carve hinv hcarved).pop hr.manager hinv.dealt_refl hlast rfl hptr
    have hkept : Kept s { s with heap := ((r.lm c).mallocLast heap r.size).2 } none none :=
      ⟨⟨_, hcarved.symm⟩, fun _ hp _ => hp, fun _ _ => by
        simp only [LocalMemoryManager.mallocLast, hmm, and_self]⟩
    have hgrow := (hr.mono hkept fun _ _ => by simp).grows
    have hcarve : carveInto c s.heap (r.lm c).mallocList (r.lm c).core r.size (r.n c) p =
        some (some heap) :=
      (carveInto_eq h.heap hc.fits hsize rfl hn hr.core_lt hgranted).trans (congrArg some hrun)
    have hmalloc : mallocLast (r.lm c) heap r.size = some ((r.lm c).mallocLast heap r.size) := by
      rw [mallocLast, mallocFrom_eq hinv.checked (fits_class hinv hr.size_lt _)]
      rfl
    unfold serve Machine.serve
    rw [hcarve, Option.bind_some, show s.heap.carveInto c (r.lm c).mallocList (r.lm c).core r.size
      (r.n c) p = some heap from hrun]
    dsimp only
    rw [hmalloc, Option.bind_some]
    exact congrArg _ (finish_eq hc hpop hr.manager hr.size_lt hgrow)
  · refine Agrees.of_none ?_ (Classical.not_not.mp (mt (n_pos_iff hc r).mpr hn))
    rw [serve, Nat.eq_zero_of_not_pos hn, carveInto_zero hr.core_lt]
    rfl

/-- `MmapManager::Malloc` up to its report ends if the extension it needs cannot be recorded. -/
theorem enter_agrees {mm : MmapManager} {core : Nat} (hcore : core < c.coreN)
    (hret : mm.needsExtension c (c.arena main core) size = true → ret ≠ mapFailed) :
    Agrees (enter c main mm core size ret) (mm.enter c main core size ret)
      ((mm.touchOnce c main (c.arena main core)).isSome = true ∧
        mm.needsExtension c (c.arena main core) size = true ∧
        MmapManager.extendMax ≤ mm.extendOffset) := by
  have harena : mm.firstTouchFlag (c.arena main core) = true ∨ c.arena main core < c.coreN ∨
      c.arena main core = c.mainThreadIndex := by
    unfold Config.arena
    split
    · exact Or.inr (Or.inr rfl)
    · exact Or.inr (Or.inl hcore)
  unfold enter MmapManager.enter
  dsimp only
  rw [check_pos harena]
  cases htouch : mm.touchOnce c main (c.arena main core) with
  | none => exact Agrees.of_some rfl (by simp)
  | some touch =>
      have hneeds := MmapManager.needsExtension_touchOnce htouch (c.arena main core) size
      dsimp only
      rw [Option.map_some, MmapManager.extendOffset_touchOnce htouch, hneeds]
      cases hext : mm.needsExtension c (c.arena main core) size with
      | false => exact Agrees.of_some rfl (by simp)
      | true =>
          rw [if_pos rfl, if_pos rfl]
          by_cases hroom : mm.extendOffset < MmapManager.extendMax
          · rw [check_pos hroom, check_pos (hret hext)]
            exact Agrees.of_some rfl fun hyes => Nat.not_le.mpr hroom hyes.2.2
          · exact Agrees.of_none (check_neg hroom _) ⟨rfl, rfl, Nat.not_lt.mp hroom⟩

/-- Asked for no blocks, an arena has room for them. -/
theorem needsExtension_batch (hc : Setting c) {mm : MmapManager} {a : Nat}
    (hneeds : mm.needsExtension c a (r.mmapSize c) = true) : ¬ Batchless c r.size := by
  refine (n_pos_iff hc r).mp (Nat.pos_of_ne_zero fun hzero => ?_)
  rw [Request.mmapSize, hzero, mmapSize_zero] at hneeds
  simp [MmapManager.needsExtension] at hneeds

/-- **The arena**: it serves the request, or it is extended if that can be recorded. -/
theorem allocate_agrees (hc : Setting c) (h : Owned c s q) (hr : RequestOk c s r)
    (hfresh : s.heap.mm.needsExtension c (r.arena c main) (r.mmapSize c) = true →
      c.Fresh s.heap.mm.maps ret (align (MmapManager.allocSize (r.mmapSize c)) c.pageSize)) :
    Agrees (resume c main s th ret (.allocate r)) (Machine.resume c main s th ret (.allocate r))
      (FrameAborts c main s (.allocate r)) := by
  have henter : Agrees (enter c main s.heap.mm (r.lm c).core (r.mmapSize c) ret)
      (s.heap.mm.enter c main (r.lm c).core (r.mmapSize c) ret) _ :=
    enter_agrees hr.core_lt fun hneeds => (hfresh hneeds).1
  have hspec := fun served mm touched =>
    @HeapInv.enter c s.heap q mm (r.lm c).core (r.mmapSize c) ret main served touched h.heap
      hc.force (Nat.le_of_lt hr.core_lt) (r.dvd_mmapSize c)
      (HeapInv.mmapSize_wrap hc.fits (Nat.pos_of_ne_zero hr.size_ne)) hfresh
  unfold FrameAborts resume Machine.resume
  dsimp only
  by_cases hfull : (s.heap.mm.touchOnce c main (r.arena c main)).isSome = true ∧
      s.heap.mm.needsExtension c (r.arena c main) (r.mmapSize c) = true ∧
      MmapManager.extendMax ≤ s.heap.mm.extendOffset
  · rw [henter.ends hfull]
    exact Agrees.of_none rfl ⟨hfull.1, Or.inr hfull.2⟩
  · rw [henter.goes hfull, Option.bind_some]
    cases hrun : s.heap.mm.enter c main (r.lm c).core (r.mmapSize c) ret with
    | none =>
        have htouch := Option.map_eq_none_iff.mp hrun
        refine Agrees.of_some rfl fun hyes => ?_
        rw [show r.arena c main = c.arena main (r.lm c).core from rfl, htouch] at hyes
        exact absurd hyes.1 (by simp)
    | some e =>
        obtain ⟨served, mm, touched⟩ := e
        obtain ⟨hheap, -, hgranted, -⟩ := hspec served mm touched hrun
        obtain ⟨hsome, hserved⟩ := MmapManager.enter_served hrun
        cases served with
        | none =>
            have hneeds := hserved.mp rfl
            refine Agrees.of_some rfl fun hyes => ?_
            exact hyes.2.elim (needsExtension_batch hc hneeds) fun hext => hfull ⟨hyes.1, hext⟩
        | some p =>
            have hfits := mt hserved.mpr (Option.some_ne_none p)
            have hown : Owned c { s with heap := s.heap.touch mm touched } q :=
              h.reheap hheap rfl fun _ => Iff.rfl
            have hserve := serve_agrees th hc hown (hr.reheap rfl) (hgranted p rfl)
            exact hserve.congr ⟨fun hbatch => ⟨hsome, Or.inl hbatch⟩, fun hyes =>
              hyes.2.resolve_right fun hext => hfits hext.1⟩

/-- **After the report** there is room for the request. -/
theorem reported_agrees (hc : Setting c) (h : Owned c s q) (hr : RequestOk c s r)
    (hroom : Room c main s r) : Agrees (resume c main s th ret (.printing r .reported))
      (Machine.resume c main s th ret (.printing r .reported)) (Batchless c r.size) := by
  obtain ⟨hfit, hflag⟩ := hroom
  have ha : r.arena c main < c.threadN := hr.arena_lt
  have hrest : ¬ s.heap.mm.restSize (r.arena c main) < r.mmapSize c := by
    rw [h.heap.arena.restSize_eq ha]
    exact Nat.not_lt.mpr hfit
  obtain ⟨hheap, hgranted⟩ := h.heap.serve ha hfit hflag (r.dvd_mmapSize c)
  unfold resume Machine.resume
  dsimp only
  rw [if_neg hrest, if_neg hrest]
  exact serve_agrees th hc (h.reheap hheap rfl fun _ => Iff.rfl) (hr.reheap rfl) hgranted

end Malloc

/-! ### All functions -/

section Functions

variable {c : Config} {main : Bool} {s : Shared} {th : Thread} {q : QueueId → List Nat}
  {f : Frame} {ptr ret size nmemb j : Nat}

/-- **Every function, from a mutex operation on.** -/
theorem resume_agrees (th : Thread) (hc : Setting c) (h : Owned c s q) (hf : FrameOk c main s f)
    (hoff : -1 ≤ s.heap.g.freeOffset)
    (hleased : ∀ j, f = .release j → s.heap.g.poolFlags j = true)
    (hfresh : ∀ r, f = .allocate r →
      s.heap.mm.needsExtension c (r.arena c main) (r.mmapSize c) = true →
      c.Fresh s.heap.mm.maps ret (align (MmapManager.allocSize (r.mmapSize c)) c.pageSize)) :
    Agrees (resume c main s th ret f) (Machine.resume c main s th ret f)
      (FrameAborts c main s f) := by
  cases f with
  | pool r => exact pool_agrees hc h hf
  | allocate r => exact allocate_agrees hc h hf (hfresh r rfl)
  | printing r phase =>
      obtain ⟨hr, hroom, hphase⟩ := hf
      cases phase with
      | extended | reporting => exact Agrees.of_some rfl not_false
      | reported => exact reported_agrees hc h hr hroom
      | exhausted => exact absurd rfl hphase
  | freeing j ptr =>
      obtain ⟨b, hb, rfl⟩ := h.live_carved ptr hf.2
      have hfree := freeBlock_eq hc.intvl h.heap hf.1 hb ((h.live_iff b hb).mp hf.2)
      exact Agrees.of_some (by rw [resume, hfree]; rfl) not_false
  | release j =>
      have hfree := freeLocalMemoryManager_eq h.heap.checked hoff hf (hleased j rfl)
      exact Agrees.of_some (by rw [resume, hfree]; rfl) not_false
  | flush j i =>
      have hflush := flushCore_eq h.heap hf.1 hf.2
      refine Agrees.of_some ?_ not_false
      rw [resume, hflush, Option.bind_some, Machine.resume]
      dsimp only
      split
      case isTrue hnext =>
        rw [coreN_manager hf.1] at hnext
        unfold poolFreeEntry
        split
        · rw [check_pos hnext]
        · rfl
      case isFalse => rfl

/-- **`malloc`** needs a manager and a class with blocks. -/
theorem malloc_agrees (hc : Setting c) (h : Owned c s q)
    (hlease : ∀ j, th.lp = some j → j < managerN c)
    {caller : Caller} (hcaller : caller.old = none) (hsize : size < 2 ^ 64) :
    Agrees (malloc c s th size caller) (Machine.malloc c s th size caller)
      (MallocAborts c th size) := by
  unfold malloc Machine.malloc MallocAborts
  split
  case isTrue hzero => exact Agrees.of_some rfl fun hyes => hyes.1 hzero
  case isFalse hne =>
    cases hlp : th.lp with
    | none => exact Agrees.of_none rfl ⟨hne, Or.inl rfl⟩
    | some j =>
        have hgrow : Growing s ⟨j, size, caller⟩ := by
          intro ptr preSize heq
          obtain rfl : caller = _ := heq
          exact absurd hcaller (by simp [Caller.old])
        have henter := enterMalloc_agrees th hc h ⟨hlease j hlp, hne, hsize, hgrow⟩
        exact henter.congr (by simp [hne])

theorem calloc_agrees (hc : Setting c) (h : Owned c s q)
    (hlease : ∀ j, th.lp = some j → j < managerN c) :
    Agrees (calloc c s th nmemb size) (Machine.calloc c s th nmemb size)
      (MallocAborts c th (u64 (nmemb * size))) := by
  unfold calloc Machine.calloc
  split
  case isTrue hzero =>
    refine Agrees.of_some rfl fun hyes => hyes.1 ?_
    rw [Nat.mul_eq_zero.mpr hzero]
    rfl
  case isFalse => exact malloc_agrees hc h hlease rfl (u64_lt _)

/-- **`realloc`** needs a manager, and blocks only if the old one is too small. -/
theorem realloc_agrees (hc : Setting c) (h : Owned c s q)
    (hlease : ∀ j, th.lp = some j → j < managerN c)
    (hsize : size < 2 ^ 64) (hlive : ptr ≠ 0 → ptr ∈ s.live) :
    Agrees (realloc c s th ptr size) (Machine.realloc c s th ptr size)
      (Aborts c main s th (.realloc ptr size)) := by
  unfold realloc Machine.realloc Aborts
  dsimp only
  split
  case isTrue => exact malloc_agrees hc h hlease rfl hsize
  case isFalse hne =>
    rw [check_pos (alignCheck_eq _ _)]
    cases hlp : th.lp with
    | none => exact Agrees.of_none rfl (Or.inl rfl)
    | some j =>
        obtain ⟨b, hb, hbody⟩ := h.live_carved ptr (hlive hne)
        have hchecks : HeaderChecks s.heap.store.mem (headerOf ptr) := by
          rw [← hbody, h.heap.headerOf_body hb]
          exact h.heap.checks hb
        dsimp only
        rw [assertHeader_eq hchecks]
        split
        case isTrue hle => exact Agrees.of_some rfl (by simp [Nat.not_lt.mpr hle])
        case isFalse hgt =>
          have hlt := Nat.not_le.mp hgt
          have hr := h.requestOk_realloc (hlease j hlp) hsize (hlive hne) hlt
          exact (enterMalloc_agrees th hc h hr).congr (by simp [hlt])

/-- **A `free` without a manager** needs an idle one. -/
theorem lateFree_agrees (h : Owned c s q) (hoff : -1 ≤ s.heap.g.allocOffset)
    (hlive : ptr ∈ s.live) : Agrees (lateFree c s th ptr) (Machine.lateFree c s th ptr)
      (¬ IdleSlot c s.heap.g (MemUtil.ptrToCore s.heap.store.mem ptr)) := by
  obtain ⟨b, hb, hbody⟩ := h.live_carved ptr hlive
  have hchecks : HeaderChecks s.heap.store.mem (headerOf ptr) := by
    rw [← hbody, h.heap.headerOf_body hb]
    exact h.heap.checks hb
  unfold lateFree Machine.lateFree
  dsimp only
  rw [getList_eq hchecks]
  obtain ⟨j, hj, hidle, hrun⟩ | ⟨hall, hrun⟩ :=
    allocLocalMemoryManager_eq (c := c) hoff (MemUtil.ptrToCore s.heap.store.mem ptr)
  · rw [hrun, hj]
    exact Agrees.of_some rfl fun hno => hno hidle
  · refine Agrees.of_none (by rw [hrun]; rfl) ?_
    rintro ⟨i, hi, hflag⟩
    exact absurd (hflag.symm.trans (hall i hi)) (by simp)

/-- The counting of a block just freed. -/
theorem countFree_eq (main : Bool) (th : Thread) (h : Owned c s q) (hj : j < managerN c)
    {b : Block} (hb : b ∈ s.heap.carved) :
    countFree c main s th j b.body = some (Machine.countFree c main s th j b.body) := by
  have hchecks : HeaderChecks s.heap.store.mem (headerOf b.body) := by
    rw [h.heap.headerOf_body hb]
    exact h.heap.checks hb
  have hbatch : 0 < c.nPerSize (sizeClass (MemUtil.ptrToSize s.heap.store.mem b.body)) := by
    rw [h.heap.ptrToSize hb]
    exact (h.heap.blocks b hb).batch (h.heap.sizeClass_size hb)
  have hnull := freeLists_ne_nullptr hj (core_lt hj)
  unfold countFree Machine.countFree
  dsimp only
  rw [getList_eq hchecks, check_pos hbatch]
  split
  case isTrue =>
    rw [allFreeEntry, check_pos hnull, poolFreeEntry, check_pos c.coreN_pos, ite_self]
  case isFalse => rfl

/-- **`free`** of a live block. -/
theorem free_agrees (hc : Setting c) (h : Owned c s q)
    (hlease : ∀ j, th.lp = some j → j < managerN c)
    (hoff : -1 ≤ s.heap.g.allocOffset) (hlive : ptr ≠ 0 → ptr ∈ s.live) :
    Agrees (free c main s th ptr) (Machine.free c main s th ptr)
      (Aborts c main s th (.free ptr)) := by
  unfold free Machine.free Aborts
  split
  case isTrue hnull => exact Agrees.of_some rfl fun hyes => hyes.1 hnull
  case isFalse hne =>
    rw [check_pos (alignCheck_eq _ _)]
    cases hlp : th.lp with
    | none => exact (lateFree_agrees h hoff (hlive hne)).congr (by simp [hne])
    | some j =>
        have hj := hlease j hlp
        obtain ⟨b, hb, rfl⟩ := h.live_carved ptr (hlive hne)
        obtain ⟨q', hown⟩ := h.release hj (hlive hne)
        have hfree := freeBlock_eq hc.intvl h.heap hj hb ((h.live_iff b hb).mp (hlive hne))
        have hcount := countFree_eq main th hown hj (b := b) hb
        dsimp only
        rw [hfree, Option.bind_some, hcount]
        exact Agrees.of_some rfl (by simp)

end Functions

/-! ### The machine -/

/-- A step of thread `t` whose mutex, if it needs one, is free; `none` is `abort()`. -/
def go (c : Config) (w : World) (t : Nat) (a : Action) : Option Outcome :=
  (act c (mainThread t) w.shared (w.threads t) a).map fun
    | .next s th => .next (w.commit c t s th)
    | .never => .wait
    | .nullManager => .nullManager

/-- An action of thread `t`. -/
def step (c : Config) (w : World) (t : Nat) (a : Action) : Option Outcome :=
  if !(w.threads t).ready a then some .wait
  else
    match locks c (mainThread t) w.shared (w.threads t) a with
    | none => go c w t a
    | some m =>
        match w.owner m with
        | none => go c w t a
        | some t' => some (if t' = t then .relock m else .wait)

/-- The debug build as a transition system. -/
def system (c : Config) (base : Nat → Nat) : TransitionSystem World (Nat × Action) where
  start w := ∃ mem, w = World.init c base mem
  step w a w' := step c w a.1 a.2 = some (.next w')

/-- The thread is ready and the mutex it needs, if any, is free. -/
def CanAct (c : Config) (w : World) (t : Nat) (a : Action) : Prop :=
  (w.threads t).ready a = true ∧
    ∀ m, locks c (mainThread t) w.shared (w.threads t) a = some m → w.owner m = none

/-- A step that the debug build does not make: it ends. -/
def StepAborts (c : Config) (w : World) (a : Nat × Action) : Prop :=
  CanAct c w a.1 a.2 ∧ Aborts c (mainThread a.1) w.shared (w.threads a.1) a.2

section Steps

variable {c : Config} {base : Nat → Nat} {w w' : World} {t : Nat} {a : Action}

theorem LeasesInv.freeOffset (h : LeasesInv c w) : -1 ≤ w.shared.heap.g.freeOffset := by
  obtain ⟨x, hx, hleased⟩ := h.leased
  rw [← hleased.g]
  exact hx.freeOffset

/-- **Every action.** -/
theorem act_agrees (hc : Setting c) (h : LeasesInv c w) (hready : (w.threads t).ready a = true)
    (hlegal : Legal c w (t, a)) :
    Agrees (act c (mainThread t) w.shared (w.threads t) a)
      (Machine.act c (mainThread t) w.shared (w.threads t) a)
      (Aborts c (mainThread t) w.shared (w.threads t) a) := by
  obtain ⟨q, hq⟩ := h.inv.owned
  have hlease := h.inv.leases t
  have hoff := h.inv.offset
  have hok := hlegal.act
  cases a with
  | start core =>
      obtain ⟨j, hj, hidle, hrun⟩ | ⟨hall, hrun⟩ := allocLocalMemoryManager_eq (c := c) hoff core
      · exact Agrees.of_some (by rw [act, threadInit, hrun]; rfl) fun hno => hno hidle
      · refine Agrees.of_none (by rw [act, threadInit, hrun]; rfl) ?_
        rintro ⟨i, hi, hflag⟩
        exact absurd (hflag.symm.trans (hall i hi)) (by simp)
  | exit =>
      refine Agrees.of_some ?_ not_false
      unfold act threadTerm Machine.act Machine.threadTerm
      cases hlp : (w.threads t).lp with
      | none => rfl
      | some j =>
          have hlease : (j, .own) ∈ (w.threads t).leases :=
            Thread.mem_leases.mpr (Or.inl ⟨rfl, hlp⟩)
          obtain ⟨hj, hflag, hfree, -⟩ := h.exclusive hlease
          dsimp only
          rw [freeLocalMemoryManager_eq hq.heap.checked hfree hj hflag]
          rfl
  | malloc size => exact malloc_agrees hc hq hlease rfl hok
  | calloc nmemb size => exact calloc_agrees hc hq hlease
  | realloc ptr size => exact realloc_agrees hc hq hlease hok.1 hok.2
  | free ptr => exact free_agrees hc hq hlease hoff hok
  | allFree =>
      refine Agrees.of_some ?_ not_false
      simp only [Thread.ready, Bool.and_eq_true] at hready
      obtain ⟨j, hlp⟩ := Option.isSome_iff_exists.mp hready.1.2
      have hnull := freeLists_ne_nullptr (hlease j hlp) (core_lt (hlease j hlp))
      rw [act, allFree, Machine.act, Machine.allFree, hlp]
      dsimp only
      rw [allFreeEntry, check_pos hnull, poolFreeEntry, check_pos c.coreN_pos, ite_self]
  | store addr v => exact Agrees.of_some rfl not_false
  | resume ret =>
      unfold act Machine.act Aborts
      cases hstack : (w.threads t).stack with
      | nil => exact Agrees.of_some rfl (by simp)
      | cons f rest =>
          have hleased : ∀ j, f = .release j → (j, .freed) ∈ (w.threads t).leases := by
            rintro j rfl
            exact Thread.mem_leases.mpr (Or.inr ⟨.release j, by simp [hstack], rfl⟩)
          have hframe := resume_agrees { w.threads t with stack := rest } hc hq
            (h.inv.frames t f (by simp [hstack])) (LeasesInv.freeOffset h)
            (fun j hj => (h.exclusive (hleased j hj)).2.1) fun r heq =>
              hok r (by simp [hstack, heq])
          exact hframe.congr (by simp)

/-- Without its mutex a step waits, or locks twice, in both builds. -/
theorem step_of_not_canAct (h : ¬ CanAct c w t a) :
    step c w t a = some (w.step c t a) ∧ w.step c t a ≠ .nullManager := by
  unfold step World.step
  cases hready : (w.threads t).ready a with
  | false => exact ⟨rfl, Outcome.noConfusion⟩
  | true =>
      simp only [Bool.not_true, Bool.false_eq_true, if_false]
      cases hlocks : locks c (mainThread t) w.shared (w.threads t) a with
      | none => exact absurd ⟨hready, fun m hm => by simp [hlocks] at hm⟩ h
      | some m =>
          dsimp only
          cases howner : w.owner m with
          | none =>
              refine absurd ⟨hready, fun m' hm => ?_⟩ h
              rwa [← Option.some.inj (hlocks.symm.trans hm)]
          | some t' =>
              refine ⟨rfl, ?_⟩
              dsimp only
              split <;> exact Outcome.noConfusion

/-- With its mutex a step does what its action does. -/
theorem step_of_canAct (h : CanAct c w t a) :
    step c w t a = go c w t a ∧ w.step c t a = w.go c t a := by
  obtain ⟨hready, hfree⟩ := h
  unfold step World.step
  rw [hready]
  cases hlocks : locks c (mainThread t) w.shared (w.threads t) a with
  | none => exact ⟨rfl, rfl⟩
  | some m =>
      dsimp only
      rw [hfree m hlocks]
      exact ⟨rfl, rfl⟩

theorem step_agrees (hc : Setting c) (h : LeasesInv c w) (hlegal : Legal c w (t, a)) :
    Agrees (step c w t a) (w.step c t a) (StepAborts c w (t, a)) := by
  by_cases hcan : CanAct c w t a
  · have hact := act_agrees hc h hcan.1 hlegal
    obtain ⟨hstep, hstep'⟩ := step_of_canAct hcan
    rw [hstep, hstep']
    unfold go World.go
    refine ⟨fun hyes => by rw [hact.ends hyes.2]; rfl, fun hno => ?_⟩
    rw [hact.goes fun hyes => hno ⟨hcan, hyes⟩]
    rfl
  · exact Agrees.of_some (step_of_not_canAct hcan).1 fun hyes => hcan hyes.1

/-- **When the debug build ends**: in every state of every run, it ends in a step if the
release build would make it and `Aborts` holds of the action, and otherwise the two builds do
the same. -/
theorem debug_agrees (c : Config) (base : Nat → Nat) (w : World) (hc : Setting c)
    (hbase : c.FreshBase base) (hrun : (Machine.system c base).Run (Legal c) w) (t : Nat)
    (a : Action) (hlegal : Legal c w (t, a)) :
    (step c w t a = none ↔ StepAborts c w (t, a)) ∧
      (¬ StepAborts c w (t, a) → step c w t a = some (w.step c t a)) :=
  have hagrees := step_agrees hc (LeasesInv.run hc.toSetting hbase hrun) hlegal
  ⟨hagrees.none_iff, hagrees.goes⟩

theorem oneCore_setting : Setting MmapManager.oneCore :=
  { Machine.oneCore_setting with intvl := by decide }

/-- A first thread has started. -/
theorem firstStart_made : ((World.init MmapManager.oneCore MmapManager.oneCoreBase fun _ => 0).run
    MmapManager.oneCore (allocates MmapManager.oneCore 1) [(1, .start 0)]).isSome = true := by
  decide +kernel

/-- It asks for more than the largest blocks of the default table, and the debug build ends. -/
theorem debug_agrees_firstStart : ∃ w : World,
    step MmapManager.oneCore w 1 (.malloc (2 ^ 35)) = none ∧
      step MmapManager.oneCore w 1 (.malloc (2 ^ 34)) =
        some (w.step MmapManager.oneCore 1 (.malloc (2 ^ 34))) := by
  have hrun := World.run_sound (Legal MmapManager.oneCore)
    (fun _ _ h => (Alone.of_allocates h).1) (.start ⟨_, rfl⟩) (Option.some_get firstStart_made).symm
  have hlegal : ∀ w size, size < 2 ^ 64 → Legal MmapManager.oneCore w (1, .malloc size) :=
    fun _ _ hsize => ⟨hsize, by simp [Action.freed]⟩
  refine ⟨_, (debug_agrees _ MmapManager.oneCoreBase _ oneCore_setting (by decide) hrun 1 _
    (hlegal _ _ (by decide))).1.mpr ⟨⟨by decide +kernel, fun _ hm => by simp [locks] at hm⟩,
      by decide, Or.inr (by decide +kernel)⟩, ?_⟩
  refine (debug_agrees _ MmapManager.oneCoreBase _ oneCore_setting (by decide) hrun 1 _
    (hlegal _ _ (by decide))).2 fun hyes => ?_
  exact hyes.2.2.elim (by decide +kernel) (by decide +kernel)

end Steps

/-! ### Runs of the debug build -/

/-- A request that a function is working on is of a class with blocks. -/
def Batched (c : Config) (stack : List Frame) : Prop :=
  ∀ f ∈ stack, ∀ r, f.request = some r → ¬ Batchless c r.size

section Runs

variable {c : Config} {main : Bool} {base : Nat → Nat} {s s' : Shared} {th th' : Thread}
  {w w' : World} {t : Nat} {a : Action} {f f' : Frame} {r : Request}

theorem Batched.cons {stack : List Frame} (h : Batched c stack)
    (hf : ∀ r, f.request = some r → ¬ Batchless c r.size) : Batched c (f :: stack) := by
  intro f' hf' r hr
  rcases List.mem_cons.mp hf' with rfl | hin
  · exact hf r hr
  · exact h f' hin r hr

theorem enterMalloc_batched (h : Batched c th.stack) (hbatch : ¬ Batchless c r.size)
    (henter : Machine.enterMalloc c s th r = .next s' th') : Batched c th'.stack := by
  obtain rfl | ⟨rfl, -⟩ := enterMalloc_stack henter
  · exact h
  · refine h.cons fun r' hr' => ?_
    obtain rfl := Option.some.inj hr'
    exact hbatch

theorem malloc_batched {size : Nat} {caller : Caller} (h : Batched c th.stack)
    (hno : ¬ MallocAborts c th size)
    (hmalloc : Machine.malloc c s th size caller = .next s' th') : Batched c th'.stack := by
  obtain ⟨-, -, rfl⟩ | ⟨j, hne, -, henter⟩ := malloc_next hmalloc
  · exact h
  · exact enterMalloc_batched h (fun hbatch => hno ⟨hne, Or.inr hbatch⟩) henter

/-- **A step that passes its assertions** begins no request of a class without blocks. -/
theorem act_batched (h : Batched c th.stack) (hno : ¬ Aborts c main s th a)
    (hact : Machine.act c main s th a = .next s' th') : Batched c th'.stack := by
  obtain ⟨hstack, -⟩ | ⟨f, hstack, -, hstarts⟩ | ⟨ret, f, rest, rfl, hold, -, hnew⟩ :=
    act_stack hact
  · rwa [hstack]
  · cases hstarts with
    | malloc => exact malloc_batched h hno hact
    | calloc =>
        obtain ⟨-, rfl⟩ | ⟨j, hne, -, henter⟩ := calloc_next hact
        · exact h
        · exact enterMalloc_batched h (fun hbatch => hno ⟨hne, Or.inr hbatch⟩) henter
    | @realloc ptr size _ _ _ =>
        unfold Aborts at hno
        dsimp only at hno
        obtain ⟨hnull, hmalloc⟩ | ⟨-, -, rfl, -⟩ | ⟨j, hne, hlt, -, henter⟩ := realloc_next hact
        · exact malloc_batched h (by rwa [if_pos hnull] at hno) hmalloc
        · exact h
        · rw [if_neg hne] at hno
          exact enterMalloc_batched h (fun hbatch => hno (Or.inr ⟨hlt, hbatch⟩)) henter
    | lateFree | free | allFree =>
        rw [hstack]
        exact h.cons (by simp [Frame.request])
  · rw [hold] at h
    have hrest : Batched c rest := fun f' hf' => h f' (List.mem_cons_of_mem f hf')
    obtain hstack | ⟨f', hstack, hfollows⟩ := hnew
    · rwa [hstack]
    · rw [hstack]
      exact hrest.cons fun r hr => h f List.mem_cons_self r (hfollows.request hr)

/-- A call on a null manager does not pass its assertion. -/
theorem aborts_of_nullManager (h : LeaseInv w) (hready : (w.threads t).ready a = true)
    (hact : Machine.act c (mainThread t) w.shared (w.threads t) a = .nullManager) :
    Aborts c (mainThread t) w.shared (w.threads t) a := by
  have hmissing := (act_nullManager_iff h hready).mp hact
  have hlp : ¬ (w.threads t).Leases → (w.threads t).lp = none := fun hno =>
    Option.not_isSome_iff_eq_none.mp (mt (h.lp t).mp hno)
  cases a with
  | malloc size | calloc nmemb size =>
      obtain ⟨hne, hno⟩ := Classical.not_imp.mp hmissing
      exact ⟨hne, Or.inl (hlp hno)⟩
  | realloc ptr size =>
      obtain ⟨hne, hno⟩ := Classical.not_imp.mp hmissing
      unfold Aborts
      dsimp only
      split
      case isTrue hnull => exact ⟨hne.resolve_left fun hptr => hptr hnull, Or.inl (hlp hno)⟩
      case isFalse => exact Or.inl (hlp hno)
  | free ptr =>
      obtain ⟨hne, hno⟩ := Classical.not_imp.mp hmissing
      obtain ⟨hlease, hidle⟩ := not_or.mp hno
      exact ⟨hne, hlp hlease, hidle⟩
  | start | exit | allFree | store | resume => exact absurd trivial hmissing

/-- What is known of a run that passes its assertions. -/
structure Passing (c : Config) (w : World) : Prop where
  leases : LeasesInv c w
  lease : LeaseInv w
  batched : ∀ t, Batched c (w.threads t).stack

theorem Passing.start (hbase : c.FreshBase base) (mem : ByteMemory.Memory) :
    Passing c (World.init c base mem) where
  leases := LeasesInv.start hbase mem
  lease := LeaseInv.start mem
  batched _ _ hf := absurd hf List.not_mem_nil

/-- **A step of the debug build** is one of the release build in which nothing aborts. -/
theorem Passing.step_iff (hc : Setting c) (h : Passing c w) (hlegal : Legal c w (t, a)) :
    step c w t a = some (.next w') ↔ w.step c t a = .next w' ∧ ¬ StepAborts c w (t, a) := by
  have hagrees := step_agrees hc h.leases hlegal
  constructor
  · intro hstep
    have hno : ¬ StepAborts c w (t, a) := fun hyes =>
      absurd (hstep.symm.trans (hagrees.ends hyes)) (by simp)
    exact ⟨Option.some.inj ((hagrees.goes hno).symm.trans hstep), hno⟩
  · intro ⟨hstep, hno⟩
    rw [hagrees.goes hno, hstep]

theorem Passing.step (hc : Setting c) (h : Passing c w) (hlegal : Legal c w (t, a))
    (hstep : w.step c t a = .next w') (hno : ¬ StepAborts c w (t, a)) : Passing c w' := by
  refine ⟨h.leases.step hc.toSetting hlegal hstep, h.lease.step hstep, ?_⟩
  obtain ⟨hready, hfree, s, th, hact, rfl⟩ := World.step_next hstep
  have hpass : ¬ Aborts c (mainThread t) w.shared (w.threads t) a := fun hyes =>
    hno ⟨⟨hready, hfree⟩, hyes⟩
  exact World.forall_commit (P := fun _ th => Batched c th.stack) h.batched
    (act_batched (h.batched t) hpass hact)

theorem Passing.run (hc : Setting c) (hbase : c.FreshBase base)
    (hrun : (Machine.system c base).Run (fun w a => Legal c w a ∧ ¬ StepAborts c w a) w) :
    Passing c w := by
  refine hrun.invariant ?_ fun _ _ _ hinv hok hstep => hinv.step hc hok.1 hstep hok.2
  rintro _ ⟨mem, rfl⟩
  exact Passing.start hbase mem

/-- **Runs of the debug build** are the runs of the release build in which nothing aborts. -/
theorem run_iff (hc : Setting c) (hbase : c.FreshBase base) :
    (system c base).Run (Legal c) w ↔
      (Machine.system c base).Run (fun w a => Legal c w a ∧ ¬ StepAborts c w a) w := by
  constructor
  · intro hrun
    induction hrun with
    | start hs => exact .start hs
    | step _ hok hstep ih =>
        obtain ⟨hstep', hno⟩ := ((Passing.run hc hbase ih).step_iff hc hok).mp hstep
        exact .step ih ⟨hok, hno⟩ hstep'
  · intro hrun
    induction hrun with
    | start hs => exact .start hs
    | step hrun hok hstep ih =>
        exact .step ih hok.1 (((Passing.run hc hbase hrun).step_iff hc hok.1).mpr ⟨hstep, hok.2⟩)

/-- **The debug build refines the release build**: its runs are those of the release build in
which nothing aborts. In them no member function is called on a null manager, and a call that
has begun aborts only if it is about to extend an arena with the record of extensions full. -/
theorem debug_runs (c : Config) (base : Nat → Nat) (w : World) (hc : Setting c)
    (hbase : c.FreshBase base) :
    ((system c base).Run (Legal c) w ↔
      (Machine.system c base).Run (fun w a => Legal c w a ∧ ¬ StepAborts c w a) w) ∧
    ((system c base).Run (Legal c) w → ∀ t a, Legal c w (t, a) →
      step c w t a ≠ some .nullManager ∧
      (∀ ret, a = .resume ret → step c w t a = none →
        ∃ r, (w.threads t).stack.head? = some (.allocate r) ∧
          w.shared.heap.mm.needsExtension c (r.arena c (mainThread t)) (r.mmapSize c) = true ∧
          MmapManager.extendMax ≤ w.shared.heap.mm.extendOffset)) := by
  refine ⟨run_iff hc hbase, fun hrun t a hlegal => ?_⟩
  have hpassing := Passing.run hc hbase ((run_iff hc hbase).mp hrun)
  have hagrees := step_agrees hc hpassing.leases hlegal
  constructor
  · intro hnull
    have hno : ¬ StepAborts c w (t, a) := fun hyes =>
      absurd (hnull.symm.trans (hagrees.ends hyes)) (by simp)
    have hstep := Option.some.inj ((hagrees.goes hno).symm.trans hnull)
    have hcan : CanAct c w t a := Classical.byContradiction fun hcannot =>
      (step_of_not_canAct hcannot).2 hstep
    obtain ⟨hready, hact⟩ := World.step_nullManager hstep
    exact hno ⟨hcan, aborts_of_nullManager hpassing.lease hready hact⟩
  · rintro ret rfl hnone
    obtain ⟨-, f, hhead, hf⟩ := hagrees.none_iff.mp hnone
    have hbatch := hpassing.batched t f (List.mem_of_mem_head? hhead)
    cases f with
    | pool r => exact absurd hf (hbatch r rfl)
    | allocate r =>
        obtain ⟨hneeds, hfull⟩ := hf.2.resolve_left (hbatch r rfl)
        exact ⟨r, hhead, hneeds, hfull⟩
    | printing r phase =>
        cases phase with
        | reported => exact absurd hf (hbatch r rfl)
        | extended | reporting | exhausted => exact absurd hf not_false
    | freeing | release | flush => exact absurd hf not_false

theorem carveRun_passes : ((World.init MmapManager.oneCore MmapManager.oneCoreBase fun _ => 0).run
    MmapManager.oneCore (fun w a => allocates MmapManager.oneCore 1 w a &&
      (step MmapManager.oneCore w a.1 a.2).isSome) carveRun).isSome = true := by
  decide +kernel

/-- The debug build makes the run in which 64 KB are allocated. -/
theorem debug_runs_carveRun : ∃ w : World,
    (system MmapManager.oneCore MmapManager.oneCoreBase).Run (Legal MmapManager.oneCore) w ∧
      w.shared.heap.carved.length = 2 := by
  let c := MmapManager.oneCore
  let ok : World → Nat × Action → Prop := fun w a => Legal c w a ∧ (step c w a.1 a.2).isSome = true
  have hrun : (Machine.system c MmapManager.oneCoreBase).Run ok (Option.get _ carveRun_passes) :=
    World.run_sound ok (fun _ _ h => ⟨(Alone.of_allocates (Bool.and_eq_true_iff.mp h).1).1,
      (Bool.and_eq_true_iff.mp h).2⟩) (.start ⟨_, rfl⟩) (Option.some_get carveRun_passes).symm
  have hstart : ∀ w, (Machine.system c MmapManager.oneCoreBase).start w → LeasesInv c w := by
    rintro _ ⟨mem, rfl⟩
    exact LeasesInv.start (by decide) mem
  have hpasses : ∀ w a, LeasesInv c w → ok w a → Legal c w a ∧ ¬ StepAborts c w a :=
    fun w a hinv hok => ⟨hok.1, fun hyes => by
      have hsome := hok.2
      rw [(step_agrees oneCore_setting hinv hok.1).ends hyes] at hsome
      exact absurd hsome (by simp)⟩
  obtain ⟨-, hrun⟩ := hrun.strengthen hstart
    (fun _ _ _ hinv hok hstep => hinv.step oneCore_setting.toSetting hok.1 hstep) hpasses
  exact ⟨_, (debug_runs c MmapManager.oneCoreBase _ oneCore_setting (by decide)).1.mpr hrun,
    by decide +kernel⟩

end Runs

end Debug

end FCMalloc
