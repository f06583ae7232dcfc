import FCMalloc.OwnershipSteps

/-!
# FCMalloc.QueueFrames

Which lists a step of the machine works on, and that it leaves the queues of all others alone.

`Malloc` of a manager works on its `malloc_`, on the `free_` list of its own core and on that
core's pool (`MallocList`); `Free` on the one list the block's header names (`FreesTo`). A
`realloc` that moves a block does both, under the lease of the calling thread. `Action.Uses`
puts these together for every action. `Action.Touches` is finer: it keeps the sections of
`Malloc` apart, of which only the second works on the pool. `act_touched` is the frame rule,
and `act_frames` what follows from it for whole calls.
-/

namespace FCMalloc

open GlobalMemoryManager LocalMemoryManager

/-- The queues of the lists outside `used` are the same. -/
def Leaves (used : ListId → Prop) (q q' : QueueId → List Nat) : Prop :=
  ∀ l, ¬ used l → ∀ i, q' (l, i) = q (l, i)

section Leaves

variable {c : Config} {used used' : ListId → Prop} {q q' q'' : QueueId → List Nat} {k : QueueId}
  {l l' : ListId} {xs : List Nat} {m : LocalMemoryManager} {i : SizeClass} {core : Nat}

theorem Leaves.refl (q : QueueId → List Nat) : Leaves used q q := fun _ _ _ => rfl

theorem Leaves.trans (h : Leaves used q q') (h' : Leaves used q' q'') : Leaves used q q'' :=
  fun l hl i => (h' l hl i).trans (h l hl i)

theorem Leaves.mono (h : Leaves used q q') (hsub : ∀ l, used l → used' l) : Leaves used' q q' :=
  fun l hl => h l fun hu => hl (hsub l hu)

/-- One queue of a list in use is another. -/
theorem Leaves.update (hk : used k.1) : Leaves used q (Function.update q k xs) := by
  intro l hl i
  refine Function.update_of_ne ?_ _ _
  rintro rfl
  exact hl hk

theorem Leaves.enqueue (hk : used k.1) : Leaves used q (enqueue q k xs) := Leaves.update hk

theorem Leaves.dequeue (hk : used k.1) : Leaves used q (dequeue q k) := Leaves.update hk

theorem Leaves.ownQueues (hl : used m.mallocList) (hl' : used (m.freeLists m.core)) :
    Leaves used q (m.ownQueues q i) := by
  unfold LocalMemoryManager.ownQueues
  split
  · exact (Leaves.update (k := (m.mallocList, i)) hl).trans
      (Leaves.update (k := (m.freeLists m.core, i)) hl')
  · exact Leaves.refl q

theorem Leaves.poolQueues (hl : used l) (hl' : used (.poolsPerCore core)) :
    Leaves used q (CommonMemoryPool.poolQueues c q l core i) := by
  unfold CommonMemoryPool.poolQueues moveFront
  exact (Leaves.update (k := (l, i)) hl).trans (Leaves.update (k := (.poolsPerCore core, i)) hl')

end Leaves

namespace Machine

open ByteMemory

/-- The lists `Malloc` of manager `j` works on. -/
def MallocList (c : Config) (j : Nat) (l : ListId) : Prop :=
  l = (managerPools c j).mallocList ∨
    l = (managerPools c j).freeLists (managerPools c j).core ∨
    l = .poolsPerCore (managerPools c j).core

/-- The list `Free(ptr)` of manager `j` puts the block on. -/
def FreesTo (c : Config) (carved : List Block) (j ptr : Nat) (l : ListId) : Prop :=
  ∃ b ∈ carved, b.body = ptr ∧ l = (managerPools c j).freeLists b.core

/-- The lists a request works on, with those of the `realloc` that has made it. A class
without a batch has no block to move the contents to. -/
def Request.Uses (c : Config) (carved : List Block) (r : Request) (l : ListId) : Prop :=
  MallocList c r.manager l ∨
    (0 < c.nPerSize (sizeClass r.size) ∧
      ∃ ptr, r.caller.old = some ptr ∧ FreesTo c carved r.manager ptr l)

/-- The lists a function works on when it goes on. -/
def Frame.Uses (c : Config) (s : Shared) (l : ListId) : Frame → Prop
  | .pool r | .allocate r | .printing r _ => r.Uses c s.heap.carved l
  | .freeing j ptr => FreesTo c s.heap.carved j ptr l
  | .release j => HandBackList c s.heap.g j l
  | .flush j i =>
      i ≠ (managerPools c j).core ∧ (l = .poolsPerCore i ∨ l = (managerPools c j).freeLists i)

/-- The lists an action works on. -/
def Action.Uses (c : Config) (s : Shared) (th : Thread) (l : ListId) : Action → Prop
  | .malloc _ | .calloc _ _ => ∃ j, th.lp = some j ∧ MallocList c j l
  | .realloc ptr size => ∃ j, th.lp = some j ∧
      (MallocList c j l ∨ (ptr ≠ 0 ∧ MemUtil.ptrToSize s.heap.store.mem ptr < size ∧
        0 < c.nPerSize (sizeClass size) ∧ FreesTo c s.heap.carved j ptr l))
  | .free ptr => ∃ j, th.lp = some j ∧ FreesTo c s.heap.carved j ptr l
  | .exit => ∃ j, th.lp = some j ∧ HandBackList c s.heap.g j l
  | .resume _ => ∃ f, th.stack.head? = some f ∧ f.Uses c s l
  | .start _ | .allFree | .store _ _ => False

/-- The list to which the `realloc` that has made a request gives the old block. -/
def Request.Frees (c : Config) (carved : List Block) (r : Request) (l : ListId) : Prop :=
  0 < c.nPerSize (sizeClass r.size) ∧
    ∃ ptr, r.caller.old = some ptr ∧ FreesTo c carved r.manager ptr l

/-- The lists `Malloc` of manager `j` works on before it locks a mutex. -/
def LocalList (c : Config) (j : Nat) (l : ListId) : Prop :=
  l = (managerPools c j).mallocList ∨
    l = (managerPools c j).freeLists (managerPools c j).core

/-- The lists a function works on up to its next mutex operation. -/
def Frame.Touches (c : Config) (s : Shared) (l : ListId) : Frame → Prop
  | .pool r =>
      l = (r.lm c).mallocList ∨ l = .poolsPerCore (r.lm c).core ∨ r.Frees c s.heap.carved l
  | .allocate r | .printing r _ => l = (r.lm c).mallocList ∨ r.Frees c s.heap.carved l
  | f => f.Uses c s l

/-- The lists a step works on. -/
def Action.Touches (c : Config) (s : Shared) (th : Thread) (l : ListId) : Action → Prop
  | .malloc _ | .calloc _ _ => ∃ j, th.lp = some j ∧ LocalList c j l
  | .realloc ptr size => ∃ j, th.lp = some j ∧
      (LocalList c j l ∨ (ptr ≠ 0 ∧ MemUtil.ptrToSize s.heap.store.mem ptr < size ∧
        0 < c.nPerSize (sizeClass size) ∧ FreesTo c s.heap.carved j ptr l))
  | .resume _ => ∃ f, th.stack.head? = some f ∧ f.Touches c s l
  | a => a.Uses c s th l

section Touches

variable {c : Config} {s : Shared} {th : Thread} {j : Nat} {l : ListId} {f : Frame} {a : Action}

theorem LocalList.mallocList (h : LocalList c j l) : MallocList c j l := h.imp id Or.inl

theorem Frame.Touches.uses (h : f.Touches c s l) : f.Uses c s l := by
  cases f with
  | pool r =>
      obtain hmalloc | hpool | hfrees := h
      · exact Or.inl (Or.inl hmalloc)
      · exact Or.inl (Or.inr (Or.inr hpool))
      · exact Or.inr hfrees
  | allocate r | printing r _ => exact h.imp Or.inl id
  | freeing _ _ | release _ | flush _ _ => exact h

/-- A call uses what its steps touch. -/
theorem Action.Touches.uses (h : a.Touches c s th l) : a.Uses c s th l := by
  cases a with
  | malloc _ | calloc _ _ =>
      obtain ⟨j, hlp, hown⟩ := h
      exact ⟨j, hlp, hown.mallocList⟩
  | realloc ptr size =>
      obtain ⟨j, hlp, hl⟩ := h
      exact ⟨j, hlp, hl.imp LocalList.mallocList id⟩
  | resume _ =>
      obtain ⟨f, hf, hl⟩ := h
      exact ⟨f, hf, hl.uses⟩
  | start _ | exit | free _ | allFree | store _ _ => exact h

end Touches

/-- A step from queues `q` that leaves the lists outside `used` alone. -/
def Frames (c : Config) (s' : Shared) (q : QueueId → List Nat) (used : ListId → Prop) : Prop :=
  ∃ q', HeapInv c s'.heap q' ∧ Leaves used q q'

section Malloc

variable {c : Config} {main : Bool} {s s' : Shared} {th th' : Thread} {q q' : QueueId → List Nat}
  {r : Request} {p ptr ret : Nat} {used : ListId → Prop}

theorem Frames.refl (h : HeapInv c s.heap q) : Frames c s q used := ⟨q, h, Leaves.refl q⟩

theorem Frames.mono {used' : ListId → Prop} (h : Frames c s q used)
    (hsub : ∀ l, used l → used' l) : Frames c s q used' := by
  obtain ⟨q', hheap, hleaves⟩ := h
  exact ⟨q', hheap, hleaves.mono hsub⟩

theorem Frames.trans (hq : Leaves used q q') (h : Frames c s' q' used) : Frames c s' q used := by
  obtain ⟨q'', hheap, hleaves⟩ := h
  exact ⟨q'', hheap, hq.trans hleaves⟩

theorem Popped.heap (h : Popped c s q r ptr) : HeapInv c s.heap q := by
  cases h with
  | null hown => exact hown.heap
  | block _ _ _ hheap => exact hheap

/-- A block was taken, so its class has a batch. -/
theorem Popped.batch (h : Popped c s q r ptr) (hptr : ptr ≠ 0) :
    0 < c.nPerSize (sizeClass r.size) := by
  cases h with
  | null => exact absurd rfl hptr
  | block hb _ hsize hheap => exact (hheap.blocks _ hb).batch hsize

/-- **`Malloc` returns**: the queues change only where `realloc` frees the old block. -/
theorem Popped.finish_frames (h : Popped c s q r ptr) (hr : r.manager < managerN c)
    (hsize : r.size < 2 ^ 64) (hgrow : Growing s r) :
    Frames c (s.finish c r ptr) q (r.Frees c s.heap.carved) := by
  obtain ⟨hown, heq⟩ | ⟨hptr, mem, hgiven, heq | ⟨b, hb, hold, hlive, heq⟩⟩ :=
    h.finish_cases hsize hgrow
  · rw [heq]
    exact .refl hown.heap
  · rw [heq]
    exact .refl hgiven.heap
  · rw [heq]
    have hloose := (hgiven.live_iff b hb).mp (List.mem_cons_of_mem ptr hlive)
    exact ⟨_, hgiven.heap.free hr hb hloose,
      Leaves.enqueue ⟨h.batch hptr, b.body, hold, b, hb, rfl, rfl⟩⟩

/-- **The manager's own lists.** -/
theorem enterMalloc_frames (h : Owned c s q) (hr : RequestOk c s r)
    (hstep : enterMalloc c s th r = .next s' th') :
    Frames c s' q fun l => LocalList c r.manager l ∨ r.Frees c s.heap.carved l := by
  obtain ⟨hptr, hheap⟩ := h.heap.mallocOwn hr.manager r.size
  have hpop := h.pop hr.manager (h.heap.dealt_own hr.manager) hheap rfl hptr
  have hleaves : Leaves (LocalList c r.manager) q _ :=
    (Leaves.ownQueues (m := r.lm c) (i := sizeClass r.size) (Or.inl rfl) (Or.inr rfl)).trans
      (Leaves.dequeue (k := ((r.lm c).mallocList, sizeClass r.size)) (Or.inl rfl))
  have hown : Leaves (fun l => LocalList c r.manager l ∨ r.Frees c s.heap.carved l) q _ :=
    hleaves.mono fun _ => Or.inl
  obtain ⟨hzero, -⟩ | ⟨-, -, -, rfl⟩ | ⟨-, -, -, rfl⟩ := enterMalloc_next hstep
  · exact absurd hzero hr.size_ne
  · exact .trans hown ((hpop.finish_frames hr.manager hr.size_lt hr.grows).mono fun _ => Or.inr)
  · exact ⟨_, hheap, hown⟩

/-- **The common pool.** -/
theorem pool_frames (h : Owned c s q) (hr : RequestOk c s r)
    (hstep : resume c main s th ret (.pool r) = .next s' th') :
    Frames c s' q fun l => Frame.Touches c s l (.pool r) := by
  obtain ⟨hptr, hheap⟩ := h.heap.mallocPool hr.manager hr.size_ne
  have hpop := h.pop hr.manager (h.heap.dealt_pool hr.manager) hheap rfl hptr
  have hpool : Leaves (fun l => Frame.Touches c s l (.pool r)) q
      (CommonMemoryPool.poolQueues c q (r.lm c).mallocList (r.lm c).core (sizeClass r.size)) :=
    Leaves.poolQueues (Or.inl rfl) (Or.inr (Or.inl rfl))
  have hleaves : Leaves (fun l => Frame.Touches c s l (.pool r)) q _ :=
    hpool.trans (Leaves.dequeue (k := ((r.lm c).mallocList, sizeClass r.size)) (Or.inl rfl))
  obtain ⟨-, rfl, -⟩ | ⟨-, rfl, -⟩ := resume_pool hstep
  · have hfinish := hpop.finish_frames hr.manager hr.size_lt hr.grows
    exact .trans hleaves (hfinish.mono fun l hl => Or.inr (Or.inr hl))
  · exact ⟨_, hheap, hleaves⟩

/-- **A granted range**: carving adds blocks behind `malloc_`. -/
theorem serve_frames (hc : Setting c) (h : Owned c s q) (hr : RequestOk c s r)
    (hgranted : Granted s.heap c p (r.mmapSize c)) (hstep : serve c s th r p = .next s' th') :
    Frames c s' q fun l => Frame.Touches c s l (.allocate r) := by
  obtain ⟨-, heap, ptr, hcarved, hmm, -, -, hpop, rfl⟩ := serve_popped hc h hr hgranted hstep
  let carved := blocksFrom p (totalSize r.size) (r.lm c).core (bodySize r.size) (r.n c)
  let k : QueueId := ((r.lm c).mallocList, sizeClass r.size)
  have hcarve : Leaves (fun l => Frame.Touches c s l (.allocate r)) q
      (enqueue q k (carved.map Block.addr)) := Leaves.enqueue (Or.inl rfl)
  have hleaves : Leaves (fun l => Frame.Touches c s l (.allocate r)) q
      (dequeue (enqueue q k (carved.map Block.addr)) k) :=
    hcarve.trans (Leaves.dequeue (Or.inl rfl))
  have hkept : Kept s { s with heap } none none :=
    ⟨⟨_, hcarved.symm⟩, fun _ hp _ => hp, fun a _ => by simp only [hmm, and_self]⟩
  have hr' := hr.mono hkept fun p _ => by simp
  obtain ⟨q', hheap, hfinish⟩ := hpop.finish_frames hr.manager hr.size_lt hr'.grows
  refine ⟨q', hheap, hleaves.trans (hfinish.mono fun l hl => Or.inr ?_)⟩
  -- the block that is freed was there before the new ones
  obtain ⟨hbatch, old, hold, b, hb, rfl, rfl⟩ := hl
  refine ⟨hbatch, b.body, hold, ?_⟩
  cases hcaller : r.caller with
  | malloc | calloc => exact absurd hold (by simp [hcaller, Caller.old])
  | realloc ptr preSize =>
      rw [hcaller, Caller.old, Option.some.injEq] at hold
      obtain ⟨-, -, b', hb', hbody, -⟩ := hr.grows ptr preSize hcaller
      obtain rfl := hpop.heap.body_inj (hkept.mem_carved hb') hb (hbody.trans hold)
      exact ⟨b', hb', rfl, rfl⟩

/-- **The arena.** -/
theorem allocate_frames (hc : Setting c) (h : Owned c s q) (hr : RequestOk c s r)
    (hfresh : s.heap.mm.needsExtension c (r.arena c main) (r.mmapSize c) = true →
      c.Fresh s.heap.mm.maps ret (align (MmapManager.allocSize (r.mmapSize c)) c.pageSize))
    (hstep : resume c main s th ret (.allocate r) = .next s' th') :
    Frames c s' q fun l => Frame.Touches c s l (.allocate r) := by
  obtain ⟨mm, touched, hown, -, hcases⟩ := allocate_granted hc h hr hfresh hstep
  obtain ⟨p, hgranted, hserve⟩ | ⟨rfl, rfl, -⟩ := hcases
  · have hframes := serve_frames hc hown (hr.reheap rfl) hgranted hserve
    exact hframes
  · exact .refl hown.heap

/-- **After the report.** -/
theorem reported_frames (hc : Setting c) (h : Owned c s q) (hr : RequestOk c s r)
    (hroom : Room c main s r)
    (hstep : resume c main s th ret (.printing r .reported) = .next s' th') :
    Frames c s' q fun l => Frame.Touches c s l (.allocate r) := by
  obtain ⟨p, mm, hown, -, hgranted, hserve⟩ := reported_granted h hr hroom hstep
  have hframes := serve_frames hc hown (hr.reheap rfl) hgranted hserve
  exact hframes

end Malloc

/-! ### All functions -/

section Functions

variable {c : Config} {main : Bool} {s s' : Shared} {th th' : Thread} {q q' : QueueId → List Nat}
  {f : Frame} {a : Action} {j size ptr ret : Nat}

/-- **`FreeLocalMemoryManager`** on a leased manager. -/
theorem giveBack_frames (h : HeapInv c s.heap q) (hj : j < managerN c) :
    let r := freeLocalMemoryManager c s.heap.g s.heap.store j
    Frames c { s with heap := { s.heap with g := r.1, store := r.2 } } q
      (fun l => HandBackList c s.heap.g j l) := by
  rw [freeLocalMemoryManager]
  dsimp only
  split
  · obtain ⟨q', hmoved, hback⟩ := handBack_moved hj h.sound
    exact ⟨q', (h.moved hmoved hback.reshuffle.source).withG, hback.frame⟩
  · exact .refl h.withG

/-- **`Free`** of a live block. -/
theorem release_frames (h : Owned c s q) (hj : j < managerN c) (hlive : ptr ∈ s.live) :
    Frames c { s.setStore ((managerPools c j).free s.heap.store ptr) with
      live := s.live.erase ptr } q (FreesTo c s.heap.carved j ptr) := by
  obtain ⟨b, hb, rfl⟩ := h.live_carved ptr hlive
  have hloose := (h.live_iff b hb).mp hlive
  exact ⟨_, h.heap.free hj hb hloose, Leaves.enqueue ⟨b, hb, rfl, rfl⟩⟩

/-- **Every function, from a mutex operation on.** -/
theorem resume_frames (hc : Setting c) (h : Owned c s q) (hf : FrameOk c main s f)
    (hfresh : ∀ r, f = .allocate r →
      s.heap.mm.needsExtension c (r.arena c main) (r.mmapSize c) = true →
      c.Fresh s.heap.mm.maps ret (align (MmapManager.allocSize (r.mmapSize c)) c.pageSize))
    (hstep : resume c main s th ret f = .next s' th') :
    Frames c s' q fun l => f.Touches c s l := by
  cases f with
  | pool r => exact pool_frames h hf hstep
  | allocate r => exact allocate_frames hc h hf (hfresh r rfl) hstep
  | printing r phase =>
      obtain ⟨hr, hroom, hphase⟩ := hf
      cases phase with
      | extended | reporting =>
          obtain ⟨rfl, -⟩ := Result.next.inj hstep
          exact .refl h.heap
      | reported => exact reported_frames hc h hr hroom hstep
      | exhausted => exact absurd rfl hphase
  | freeing j ptr =>
      obtain ⟨rfl, -⟩ := Result.next.inj hstep
      exact release_frames h hf.1 hf.2
  | release j =>
      obtain ⟨rfl, -⟩ := Result.next.inj hstep
      exact giveBack_frames h.heap hf
  | flush j i =>
      obtain ⟨rfl, -⟩ := Result.next.inj hstep
      refine ⟨_, (h.heap.flushCore hf.1 hf.2).1, ?_⟩
      unfold HeapInv.flushQueues
      split
      case isTrue hne =>
        intro l hl k
        exact Rep.joined_of_ne (fun heq => hl ⟨hne, Or.inl heq⟩) fun heq => hl ⟨hne, Or.inr heq⟩
      case isFalse => exact Leaves.refl q

/-- A request that no `realloc` has made works on the manager's own lists alone. -/
theorem malloc_frames (h : Owned c s q) {caller : Caller} (hj : j < managerN c)
    (hcaller : caller.old = none) (hne : size ≠ 0) (hsize : size < 2 ^ 64)
    (hstep : enterMalloc c s th ⟨j, size, caller⟩ = .next s' th') :
    Frames c s' q (LocalList c j) := by
  have hgrow : Growing s ⟨j, size, caller⟩ := by
    intro ptr preSize heq
    obtain rfl : caller = _ := heq
    exact absurd hcaller (by simp [Caller.old])
  refine (enterMalloc_frames h ⟨hj, hne, hsize, hgrow⟩ hstep).mono fun l hl =>
    hl.resolve_right fun hfrees => ?_
  obtain ⟨-, ptr, hold, -⟩ := hfrees
  exact absurd (hcaller.symm.trans hold) (by simp)

/-- **The frame rule**: a step changes the queues of the lists it touches only. -/
theorem act_touched (hc : Setting c) (h : Owned c s q)
    (hlease : ∀ j, th.lp = some j → j < managerN c)
    (hframes : ∀ f ∈ th.stack, FrameOk c main s f) (hok : ActOk c main s th a)
    (hstep : act c main s th a = .next s' th') : Frames c s' q fun l => a.Touches c s th l := by
  have hsame : Frames c s q fun l => a.Touches c s th l := .refl h.heap
  cases a with
  | start core =>
      obtain ⟨rfl, -⟩ := Result.next.inj hstep
      exact .refl h.heap.withG
  | exit =>
      rw [act, threadTerm] at hstep
      split at hstep
      case h_1 =>
        obtain ⟨rfl, -⟩ := Result.next.inj hstep
        exact hsame
      case h_2 j hlp =>
        obtain ⟨rfl, -⟩ := Result.next.inj hstep
        exact (giveBack_frames h.heap (hlease j hlp)).mono fun l hl => ⟨j, hlp, hl⟩
  | malloc size =>
      obtain ⟨-, rfl, -⟩ | ⟨j, hne, hlp, henter⟩ := malloc_next hstep
      · exact hsame
      · have hframes := malloc_frames h (hlease j hlp) rfl hne hok henter
        exact hframes.mono fun l hl => ⟨j, hlp, hl⟩
  | calloc nmemb size =>
      obtain ⟨rfl, -⟩ | ⟨j, hne, hlp, henter⟩ := calloc_next hstep
      · exact hsame
      · have hframes := malloc_frames h (hlease j hlp) rfl hne (u64_lt _) henter
        exact hframes.mono fun l hl => ⟨j, hlp, hl⟩
  | realloc ptr size =>
      obtain ⟨-, hmalloc⟩ | ⟨-, -, -, rfl⟩ | ⟨j, hne, hlt, hlp, henter⟩ := realloc_next hstep
      · obtain ⟨-, rfl, -⟩ | ⟨j, hne, hlp, henter⟩ := malloc_next hmalloc
        · exact hsame
        · have hframes := malloc_frames h (hlease j hlp) rfl hne hok.1 henter
          exact hframes.mono fun l hl => ⟨j, hlp, Or.inl hl⟩
      · exact .refl h.heap
      · have hr := h.requestOk_realloc (hlease j hlp) hok.1 (hok.2 hne) hlt
        refine (enterMalloc_frames h hr henter).mono fun l hl =>
          ⟨j, hlp, hl.imp id fun hfrees => ?_⟩
        -- here `Malloc` frees the old block, and only if the class has a batch
        obtain ⟨hbatch, ptr', hold, hto⟩ := hfrees
        obtain rfl := Option.some.inj hold
        exact ⟨hne, hlt, hbatch, hto⟩
  | free ptr =>
      obtain ⟨-, rfl, -⟩ | ⟨-, -, hlate⟩ | ⟨j, hne, hlp, rfl, -⟩ := free_next hstep
      · exact hsame
      · obtain ⟨j, -, -, rfl⟩ := lateFree_next hlate
        exact .refl h.heap.withG
      · exact (release_frames h (hlease j hlp) (hok hne)).mono fun l hl => ⟨j, hlp, hl⟩
  | allFree =>
      obtain ⟨j, -, rfl, -⟩ := allFree_next hstep
      exact hsame
  | store addr v =>
      obtain ⟨rfl, -⟩ := Result.next.inj hstep
      have hheap := h.heap.setMem (Function.update s.heap.store.mem addr v)
        fun b hb x hx hx' => Function.update_of_ne (by have := hok b hb; omega) _ _
      exact .refl hheap
  | resume ret =>
      rw [act] at hstep
      split at hstep
      · exact absurd hstep (by simp)
      case h_2 f rest hstack =>
        have hused := resume_frames hc h (hframes f (by simp [hstack]))
          (fun r heq => hok r (by simp [hstack, heq])) hstep
        exact hused.mono fun l hl => ⟨f, by simp [hstack], hl⟩

/-- The same for the lists of the whole call. -/
theorem act_frames (hc : Setting c) (h : Owned c s q)
    (hlease : ∀ j, th.lp = some j → j < managerN c)
    (hframes : ∀ f ∈ th.stack, FrameOk c main s f) (hok : ActOk c main s th a)
    (hstep : act c main s th a = .next s' th') : Frames c s' q fun l => a.Uses c s th l :=
  (act_touched hc h hlease hframes hok hstep).mono fun _ hl => hl.uses

end Functions

end Machine

end FCMalloc
