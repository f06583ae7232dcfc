import FCMalloc.MachineSteps
import FCMalloc.Ownership

/-!
# FCMalloc.OwnershipSteps

The ownership invariant through every function of the machine.

The setting is that in which the arithmetic of carving is sound: the size table fits the
address space, and arenas are extended when they are full. Every function then takes
`Owned` to `Owned` and leaves a frame whose needs the new state meets (`FrameOk`).
`Advance` is what a step establishes for its own thread, and `Kept`, in it, what it
promises to the others.
-/

namespace FCMalloc.Machine

open ByteMemory GlobalMemoryManager LocalMemoryManager

/-- The setting the ownership results are about. -/
structure Setting (c : Config) : Prop where
  fits : c.TableFits
  force : c.forceMmapFlag = true

/-- A request on an existing manager. -/
structure RequestOk (c : Config) (s : Shared) (r : Request) : Prop where
  manager : r.manager < managerN c
  size_ne : r.size ≠ 0
  size_lt : r.size < 2 ^ 64
  grows : Growing s r

/-- The arena of a request was touched and has room for it. -/
def Room (c : Config) (main : Bool) (s : Shared) (r : Request) : Prop :=
  r.mmapSize c ≤ s.heap.mm.sizes (r.arena c main) - s.heap.mm.offsets (r.arena c main) ∧
    s.heap.mm.firstTouchFlag (r.arena c main) = true

/-- What the shared state must provide for what a thread has left to do. -/
def FrameOk (c : Config) (main : Bool) (s : Shared) : Frame → Prop
  | .pool r | .allocate r => RequestOk c s r
  | .printing r phase => RequestOk c s r ∧ Room c main s r ∧ phase ≠ .exhausted
  | .freeing j ptr => j < managerN c ∧ ptr ∈ s.live
  | .release j => j < managerN c
  | .flush j i => j < managerN c ∧ i < c.coreN

/-- The live pointer a function is about to give up. -/
def Frame.pending : Frame → Option Nat
  | .pool r | .allocate r | .printing r _ => r.caller.old
  | .freeing _ ptr => some ptr
  | _ => none

/-- The arena a function works on when it goes on. -/
def Frame.arena (c : Config) (main : Bool) : Frame → Option Nat
  | .allocate r | .printing r _ => some (r.arena c main)
  | _ => none

/-- **What a step establishes** for a thread with the frames `rest` below: it gave up at
most the pointer `given` and worked on at most the arena `arena`. -/
structure Advance (c : Config) (main : Bool) (s s' : Shared) (rest : List Frame) (th' : Thread)
    (given arena : Option Nat) : Prop where
  owned : ∃ q, Owned c s' q
  kept : Kept s s' given arena
  stack : th'.stack = rest ∨ ∃ f, th'.stack = f :: rest ∧ FrameOk c main s' f ∧
    ∀ p, f.pending = some p → given = some p

section Requests

variable {c : Config} {main : Bool} {s s' : Shared} {r : Request} {f : Frame} {a : Nat}
  {given arena : Option Nat}

theorem RequestOk.core_lt (h : RequestOk c s r) : (r.lm c).core < c.coreN :=
  GlobalMemoryManager.core_lt h.manager

theorem RequestOk.arena_lt (h : RequestOk c s r) : r.arena c main < c.threadN :=
  Config.arena_lt (Nat.le_of_lt h.core_lt)

theorem Request.dvd_mmapSize (c : Config) (r : Request) : c.pageSize ∣ r.mmapSize c := dvd_align _ _

/-- A request waits as long as nobody else gives up its pointer. -/
theorem RequestOk.mono (h : RequestOk c s r) (hkept : Kept s s' given arena)
    (hgiven : ∀ p, r.caller.old = some p → given ≠ some p) : RequestOk c s' r where
  manager := h.manager
  size_ne := h.size_ne
  size_lt := h.size_lt
  grows ptr preSize hcaller := by
    obtain ⟨hlive, hless, b, hb, hbody⟩ := h.grows ptr preSize hcaller
    have hold : r.caller.old = some ptr := by rw [hcaller, Caller.old]
    exact ⟨hkept.live ptr hlive (hgiven ptr hold), hless, b, hkept.mem_carved hb, hbody⟩

/-- A request waits through a change of the heap that carves nothing. -/
theorem RequestOk.reheap {heap : Process} (h : RequestOk c s r)
    (hcarved : heap.carved = s.heap.carved) : RequestOk c { s with heap } r where
  manager := h.manager
  size_ne := h.size_ne
  size_lt := h.size_lt
  grows ptr preSize hcaller := by
    obtain ⟨hlive, hless, b, hb, hbody⟩ := h.grows ptr preSize hcaller
    exact ⟨hlive, hless, b, hcarved ▸ hb, hbody⟩

/-- **Frame condition.** What a thread has left to do survives the steps of others that
give up another pointer and work on another arena. -/
theorem FrameOk.mono (h : FrameOk c main s f) (hkept : Kept s s' given arena)
    (hgiven : ∀ p, f.pending = some p → given ≠ some p)
    (harena : ∀ a, .mtxs a ∈ f.holds c main → arena ≠ some a) : FrameOk c main s' f := by
  cases f with
  | pool r | allocate r => exact RequestOk.mono h hkept hgiven
  | printing r phase =>
      obtain ⟨hr, ⟨hfit, hflag⟩, hphase⟩ := h
      have hmem : Mutex.mtxs (r.arena c main) ∈ (Frame.printing r phase).holds c main := by
        cases phase <;> simp [Frame.holds]
      obtain ⟨hs, ho, hf⟩ := hkept.arenas _ (harena _ hmem)
      refine ⟨hr.mono hkept hgiven, ⟨?_, ?_⟩, hphase⟩
      · rwa [hs, ho]
      · rwa [hf]
  | freeing j ptr => exact ⟨h.1, hkept.live ptr h.2 (hgiven ptr rfl)⟩
  | release j | flush j i => exact h

end Requests

/-! ### Malloc -/

section Malloc

variable {c : Config} {main : Bool} {s s' : Shared} {th th' : Thread} {q : QueueId → List Nat}
  {r : Request} {p ptr ret : Nat} {heap : Process} {given arena : Option Nat}

theorem Popped.owned (h : Popped c s q r ptr) (hnull : ptr = 0) : Owned c s q := by
  cases h with
  | null hown => exact hown
  | block => exact absurd hnull (HeapInv.body_ne_zero _)

/-- A change of the heap that carves nothing and serves no arena. -/
theorem Kept.reheap (hcarved : heap.carved = s.heap.carved) (hmm : heap.mm = s.heap.mm) :
    Kept s { s with heap } given arena :=
  Kept.of_eq hcarved rfl hmm

/-- Serving from the lists alone. -/
theorem Kept.served {store : Store ListId} :
    Kept s ((s.setStore store).finish c r ptr) r.caller.old arena :=
  have hkept : Kept s (s.setStore store) r.caller.old arena := Kept.of_eq rfl rfl rfl
  hkept.trans (finish_kept c (s.setStore store) r ptr arena)

/-- Carving appends to one list. -/
theorem carveInto_lists {s s' : Process} {l l' : ListId} {core size n : Nat}
    (h : s.carveInto c l core size n p = some s') (hl : l' ≠ l) :
    s'.store.lists l' = s.store.lists l' := by
  obtain ⟨_, -, rfl⟩ := Option.map_eq_some_iff.mp h
  exact Store.append_lists_of_ne hl

theorem mallocLast_lists {m : LocalMemoryManager} {s : Process} {l : ListId} {size : Nat}
    (hl : l ≠ m.mallocList) : (m.mallocLast s size).2.store.lists l = s.store.lists l := by
  rw [mallocLast]
  dsimp only
  split <;> exact Store.malloc_lists_of_ne hl

/-- **The manager's own lists.** -/
theorem enterMalloc_advance (h : Owned c s q) (hr : RequestOk c s r)
    (hstep : enterMalloc c s th r = .next s' th') :
    Advance c main s s' th.stack th' r.caller.old none := by
  obtain ⟨hzero, -⟩ | ⟨-, -, rfl, rfl⟩ | ⟨-, hown, rfl, rfl⟩ := enterMalloc_next hstep
  · exact absurd hzero hr.size_ne
  all_goals
    obtain ⟨hptr, hheap⟩ := h.heap.mallocOwn hr.manager r.size
    have hpop := h.pop hr.manager (h.heap.dealt_own hr.manager) hheap rfl hptr
  · exact ⟨hpop.finish hr.manager hr.size_lt hr.grows,
      Kept.served, Or.inl rfl⟩
  · exact ⟨⟨_, hpop.owned hown⟩, Kept.reheap rfl rfl, Or.inr ⟨_, rfl, hr.reheap rfl, fun _ hp => hp⟩⟩

/-- **The common pool.** -/
theorem pool_advance (h : Owned c s q) (hr : RequestOk c s r)
    (hstep : resume c main s th ret (.pool r) = .next s' th') :
    Advance c main s s' th.stack th' r.caller.old none := by
  obtain ⟨hptr, hheap⟩ := h.heap.mallocPool hr.manager hr.size_ne
  have hpop := h.pop hr.manager (h.heap.dealt_pool hr.manager) hheap rfl hptr
  obtain ⟨-, rfl, rfl⟩ | ⟨hpooled, rfl, rfl⟩ := resume_pool hstep
  · exact ⟨hpop.finish hr.manager hr.size_lt hr.grows,
      Kept.served, Or.inl rfl⟩
  · exact ⟨⟨_, hpop.owned hpooled⟩, Kept.reheap rfl rfl,
      Or.inr ⟨_, rfl, hr.reheap rfl, fun _ hp => hp⟩⟩

/-- Carving makes blocks that are queued and not live. -/
theorem Owned.carve {new : List Block} {k : QueueId} (h : Owned c s q)
    (hheap : HeapInv c heap (enqueue q k (new.map Block.addr)))
    (hcarved : heap.carved = s.heap.carved ++ new) :
    Owned c { s with heap } (enqueue q k (new.map Block.addr)) := by
  have hne : ∀ b ∈ s.heap.carved, ∀ b' ∈ new, b.addr ≠ b'.addr := fun _ hb _ hb' =>
    hheap.addr_ne_of_append hcarved hb hb'
  have hmem : ∀ b, b ∈ heap.carved ↔ b ∈ s.heap.carved ∨ b ∈ new := fun b => by
    rw [hcarved, List.mem_append]
  refine ⟨hheap, ?_, ?_, h.live_nodup, ?_⟩
  · intro b hb
    rw [queued_enqueue]
    rcases (hmem b).mp hb with hold | hnew
    · have hout : b.addr ∉ new.map Block.addr := fun hin => by
        obtain ⟨b', hb', heq⟩ := List.mem_map.mp hin
        exact hne b hold b' hb' heq.symm
      rw [h.live_iff b hold, not_or]
      exact ⟨fun hq => ⟨hq, hout⟩, fun hq => hq.1⟩
    · have hin : b.addr ∈ new.map Block.addr := List.mem_map.mpr ⟨b, hnew, rfl⟩
      refine ⟨fun hlive => ?_, fun hq => absurd (Or.inr hin) hq⟩
      obtain ⟨b', hb', heq⟩ := h.live_carved _ hlive
      exact absurd (Nat.add_right_cancel heq) (hne b' hb' b hnew)
  · intro p hp
    obtain ⟨b, hb, heq⟩ := h.live_carved p hp
    exact ⟨b, (hmem b).mpr (Or.inl hb), heq⟩
  · intro e he hptr
    obtain ⟨b, hb, hok⟩ := h.returned e he hptr
    exact ⟨b, (hmem b).mpr (Or.inl hb), hok⟩

/-- What `Malloc` does with a granted range `[p, p + mmapSize)`: it carves `new` there, and
takes `ptr` off the front of the class, which leaves the process `heap`. -/
structure Carves (c : Config) (s : Shared) (q : QueueId → List Nat) (r : Request) (p : Nat)
    (heap : Process) (ptr : Nat) (new : List Block) : Prop where
  new_eq : new = blocksFrom p (totalSize r.size) (r.lm c).core (bodySize r.size) (r.n c)
  carved : heap.carved = s.heap.carved ++ new
  mm : heap.mm = s.heap.mm
  lists : ∀ l, l ≠ (r.lm c).mallocList → heap.store.lists l = s.heap.store.lists l
  front : ptr = frontBody (q ((r.lm c).mallocList, sizeClass r.size) ++ new.map Block.addr)
  popped : ∃ q', Popped c { s with heap } q' r ptr

/-- A granted range is carved behind `malloc_`, and the front of that is taken. -/
theorem serve_popped (hc : Setting c) (h : Owned c s q) (hr : RequestOk c s r)
    (hgranted : Granted s.heap c p (r.mmapSize c)) (hstep : serve c s th r p = .next s' th') :
    let k : QueueId := ((r.lm c).mallocList, sizeClass r.size)
    let new := blocksFrom p (totalSize r.size) (r.lm c).core (bodySize r.size) (r.n c)
    th' = th ∧ ∃ heap ptr, heap.carved = s.heap.carved ++ new ∧ heap.mm = s.heap.mm ∧
      (∀ l, l ≠ (r.lm c).mallocList → heap.store.lists l = s.heap.store.lists l) ∧
      ptr = frontBody (q k ++ new.map Block.addr) ∧
      Popped c { s with heap } (dequeue (enqueue q k (new.map Block.addr)) k) r ptr ∧
      s' = { s with heap }.finish c r ptr := by
  have hlist : listCore c (r.lm c).mallocList = some (r.lm c).core := listCore_mallocList hr.manager
  obtain ⟨hth, heap, hheap, rfl⟩ := serve_next hstep
  obtain ⟨heap', hrun, hcarved, hmm, -, hinv, -⟩ := h.heap.carveInto hc.fits
    (Nat.pos_of_ne_zero hr.size_ne) rfl hr.core_lt hlist hgranted
  obtain rfl := Option.some.inj (hrun.symm.trans hheap)
  obtain ⟨hptr, hlast⟩ := hinv.mallocLast (r.lm c) r.size
  let last := (r.lm c).mallocLast heap' r.size
  refine ⟨hth, last.2, last.1, hcarved, hmm, fun l hl => ?_, ?_, ?_, rfl⟩
  · rw [mallocLast_lists hl, carveInto_lists hrun hl]
  · rw [hptr, enqueue, Function.update_self]
    rfl
  · exact (h.carve hinv hcarved).pop hr.manager hinv.dealt_refl hlast rfl hptr

/-- **A granted range** is carved, and the request served from it. -/
theorem serve_carves (hc : Setting c) (h : Owned c s q) (hr : RequestOk c s r)
    (hgranted : Granted s.heap c p (r.mmapSize c)) (hstep : serve c s th r p = .next s' th') :
    th' = th ∧ ∃ heap ptr new, Carves c s q r p heap ptr new ∧
      s' = { s with heap }.finish c r ptr := by
  obtain ⟨hth, heap, ptr, hcarved, hmm, hlists, hptr, hpop, hs⟩ :=
    serve_popped hc h hr hgranted hstep
  exact ⟨hth, heap, ptr, _, ⟨rfl, hcarved, hmm, hlists, hptr, _, hpop⟩, hs⟩

theorem serve_owned (arena : Option Nat) (hc : Setting c) (h : Owned c s q) (hr : RequestOk c s r)
    (hgranted : Granted s.heap c p (r.mmapSize c)) (hstep : serve c s th r p = .next s' th') :
    (∃ q', Owned c s' q') ∧ Kept s s' r.caller.old arena ∧ th' = th := by
  obtain ⟨hth, heap, ptr, new, hcarves, rfl⟩ := serve_carves hc h hr hgranted hstep
  obtain ⟨q', hpop⟩ := hcarves.popped
  have hkept : ∀ given, Kept s { s with heap } given arena := fun given =>
    ⟨⟨new, hcarves.carved.symm⟩, fun _ hp _ => hp, fun a _ => by simp only [hcarves.mm, and_self]⟩
  have hr' := hr.mono (hkept none) fun p _ => by simp
  exact ⟨hpop.finish hr.manager hr.size_lt hr'.grows,
    (hkept _).trans (finish_kept c _ r _ arena), hth⟩

/-- **The arena** grants a range, or it was extended and the report is due. -/
theorem allocate_granted (hc : Setting c) (h : Owned c s q) (hr : RequestOk c s r)
    (hfresh : s.heap.mm.needsExtension c (r.arena c main) (r.mmapSize c) = true →
      c.Fresh s.heap.mm.maps ret (align (MmapManager.allocSize (r.mmapSize c)) c.pageSize))
    (hstep : resume c main s th ret (.allocate r) = .next s' th') :
    ∃ mm touched, Owned c { s with heap := s.heap.touch mm touched } q ∧
      Kept s { s with heap := s.heap.touch mm touched } r.caller.old (some (r.arena c main)) ∧
      ((∃ p, Granted (s.heap.touch mm touched) c p (r.mmapSize c) ∧
          serve c { s with heap := s.heap.touch mm touched } th r p = .next s' th') ∨
        (s' = { s with heap := s.heap.touch mm touched } ∧
          th' = th.push (.printing r .extended) ∧ Room c main s' r)) := by
  obtain ⟨served, mm, touched, henter, hcases⟩ := resume_allocate hstep
  obtain ⟨hheap, hothers, hserved, hextended⟩ := h.heap.enter hc.force (Nat.le_of_lt hr.core_lt)
    (r.dvd_mmapSize c) (HeapInv.mmapSize_wrap hc.fits (Nat.pos_of_ne_zero hr.size_ne)) hfresh henter
  refine ⟨mm, touched, h.reheap hheap rfl fun _ => Iff.rfl, ?_, ?_⟩
  · exact ⟨List.prefix_refl _, fun _ hp _ => hp, fun a ha =>
      hothers a fun heq => ha (congrArg some heq.symm)⟩
  · obtain ⟨p, rfl, hserve⟩ | ⟨rfl, rfl, rfl⟩ := hcases
    · exact Or.inl ⟨p, hserved p rfl, hserve⟩
    · exact Or.inr ⟨rfl, rfl, hextended rfl⟩

/-- **After the report** the arena grants the range: it has room for it. -/
theorem reported_granted (h : Owned c s q) (hr : RequestOk c s r) (hroom : Room c main s r)
    (hstep : resume c main s th ret (.printing r .reported) = .next s' th') :
    ∃ p mm, Owned c (s.setMm mm) q ∧
      Kept s (s.setMm mm) r.caller.old (some (r.arena c main)) ∧
      Granted (s.setMm mm).heap c p (r.mmapSize c) ∧
      serve c (s.setMm mm) th r p = .next s' th' := by
  obtain ⟨hfit, hflag⟩ := hroom
  have ha : r.arena c main < c.threadN := hr.arena_lt
  obtain ⟨hrest, -⟩ | ⟨-, hserve⟩ := resume_reported hstep
  · rw [h.heap.arena.restSize_eq ha] at hrest
    exact absurd hfit (Nat.not_le.mpr hrest)
  · obtain ⟨hheap, hgranted⟩ := h.heap.serve ha hfit hflag (r.dvd_mmapSize c)
    refine ⟨_, _, h.reheap hheap rfl fun _ => Iff.rfl, ?_, hgranted, hserve⟩
    exact ⟨List.prefix_refl _, fun _ hp _ => hp, fun a ha => HeapInv.serve_kept _ _ _ a fun heq =>
      ha (congrArg some heq.symm)⟩

theorem allocate_advance (hc : Setting c) (h : Owned c s q) (hr : RequestOk c s r)
    (hfresh : s.heap.mm.needsExtension c (r.arena c main) (r.mmapSize c) = true →
      c.Fresh s.heap.mm.maps ret (align (MmapManager.allocSize (r.mmapSize c)) c.pageSize))
    (hstep : resume c main s th ret (.allocate r) = .next s' th') :
    Advance c main s s' th.stack th' r.caller.old (some (r.arena c main)) := by
  obtain ⟨mm, touched, hown, hkept, hcases⟩ := allocate_granted hc h hr hfresh hstep
  obtain ⟨p, hgranted, hserve⟩ | ⟨rfl, rfl, hroom⟩ := hcases
  · obtain ⟨hserved, hkept', rfl⟩ :=
      serve_owned (some (r.arena c main)) hc hown (hr.reheap rfl) hgranted hserve
    exact ⟨hserved, hkept.trans hkept', Or.inl rfl⟩
  · exact ⟨⟨q, hown⟩, hkept, Or.inr ⟨_, rfl, ⟨hr.reheap rfl, hroom, by simp⟩, fun _ hp => hp⟩⟩

theorem reported_advance (hc : Setting c) (h : Owned c s q) (hr : RequestOk c s r)
    (hroom : Room c main s r)
    (hstep : resume c main s th ret (.printing r .reported) = .next s' th') :
    Advance c main s s' th.stack th' r.caller.old (some (r.arena c main)) := by
  obtain ⟨p, mm, hown, hkept, hgranted, hserve⟩ := reported_granted h hr hroom hstep
  obtain ⟨hserved, hkept', rfl⟩ :=
    serve_owned (some (r.arena c main)) hc hown (hr.reheap rfl) hgranted hserve
  exact ⟨hserved, hkept.trans hkept', Or.inl rfl⟩

end Malloc

/-! ### All functions -/

/-- What an action of the program may be: a core and sizes in range, pointers given back
live, no write into a header, and a fresh mapping from `mmap`. -/
def ActOk [ClzZero] (c : Config) (main : Bool) (s : Shared) (th : Thread) : Action → Prop
  | .start core => core < c.coreN
  | .malloc size => size < 2 ^ 64
  | .realloc ptr size => size < 2 ^ 64 ∧ (ptr ≠ 0 → ptr ∈ s.live)
  | .free ptr => ptr ≠ 0 → ptr ∈ s.live
  | .store addr _ => ∀ b ∈ s.heap.carved, addr < b.addr ∨ b.addr + headerSize ≤ addr
  | .resume ret => ∀ r, .allocate r ∈ th.stack.head? →
      s.heap.mm.needsExtension c (r.arena c main) (r.mmapSize c) = true →
      c.Fresh s.heap.mm.maps ret (align (MmapManager.allocSize (r.mmapSize c)) c.pageSize)
  | .exit | .calloc _ _ | .allFree => True

/-- The pointer an action gives up, at once or later. -/
def Action.given (th : Thread) : Action → Option Nat
  | .realloc ptr _ | .free ptr => some ptr
  | .resume _ => th.stack.head?.bind Frame.pending
  | _ => none

/-- The arena an action works on. -/
def Action.arena (c : Config) (main : Bool) (th : Thread) : Action → Option Nat
  | .resume _ => th.stack.head?.bind (Frame.arena c main)
  | _ => none

/-- The frames an action leaves alone. -/
def Action.below (th : Thread) : Action → List Frame
  | .resume _ => th.stack.tail
  | _ => th.stack

section Functions

variable {c : Config} {main : Bool} {s s' : Shared} {th th' : Thread} {q : QueueId → List Nat}
  {f : Frame} {a : Action} {j size ptr ret : Nat} {heap : Process} {given arena : Option Nat}
  {rest : List Frame}

theorem Advance.refl (h : Owned c s q) : Advance c main s s rest { th with stack := rest } given arena :=
  ⟨⟨q, h⟩, Kept.refl s, Or.inl rfl⟩

/-- `FreeLocalMemoryManager`, as `threadTerm` and `GlobalMemoryManager::Free` call it. -/
theorem Owned.giveBack (h : Owned c s q) (hj : j < managerN c) :
    let r := freeLocalMemoryManager c s.heap.g s.heap.store j
    ∃ q', Owned c { s with heap := { s.heap with g := r.1, store := r.2 } } q' := by
  obtain ⟨q', hheap, hqueued⟩ := h.heap.freeLocalMemoryManager hj
  exact ⟨q', h.reheap hheap rfl hqueued⟩

/-- A freed block is queued in the step that ends its life. -/
theorem release_kept : Kept s { s.setStore ((managerPools c j).free s.heap.store ptr) with
    live := s.live.erase ptr } (some ptr) arena :=
  ⟨List.prefix_refl _, fun _ hp hne => (List.mem_erase_of_ne fun heq =>
    hne (congrArg some heq.symm)).mpr hp, fun _ _ => ⟨rfl, rfl, rfl⟩⟩

/-- **Every function, from a mutex operation on.** -/
theorem resume_advance (hc : Setting c) (h : Owned c s q) (hf : FrameOk c main s f)
    (hfresh : ∀ r, f = .allocate r →
      s.heap.mm.needsExtension c (r.arena c main) (r.mmapSize c) = true →
      c.Fresh s.heap.mm.maps ret (align (MmapManager.allocSize (r.mmapSize c)) c.pageSize))
    (hstep : resume c main s th ret f = .next s' th') :
    Advance c main s s' th.stack th' f.pending (f.arena c main) := by
  cases f with
  | pool r => exact pool_advance h hf hstep
  | allocate r => exact allocate_advance hc h hf (hfresh r rfl) hstep
  | printing r phase =>
      obtain ⟨hr, hroom, hphase⟩ := hf
      cases phase with
      | extended | reporting =>
          obtain ⟨rfl, rfl⟩ := Result.next.inj hstep
          exact ⟨⟨q, h⟩, Kept.refl s, Or.inr ⟨_, rfl, ⟨hr, hroom, by simp⟩, fun _ hp => hp⟩⟩
      | reported => exact reported_advance hc h hr hroom hstep
      | exhausted => exact absurd rfl hphase
  | freeing j ptr =>
      obtain ⟨rfl, rfl⟩ := Result.next.inj hstep
      exact ⟨h.release hf.1 hf.2, release_kept, Or.inr ⟨_, rfl, hf.1, by simp [Frame.pending]⟩⟩
  | release j =>
      obtain ⟨rfl, rfl⟩ := Result.next.inj hstep
      exact ⟨h.giveBack hf, Kept.reheap rfl rfl, Or.inl rfl⟩
  | flush j i =>
      obtain ⟨hj, hi⟩ := hf
      obtain ⟨rfl, rfl⟩ := Result.next.inj hstep
      obtain ⟨hheap, hqueued⟩ := h.heap.flushCore hj hi
      refine ⟨⟨_, h.reheap hheap rfl hqueued⟩, Kept.reheap rfl rfl, ?_⟩
      split
      case isTrue hnext =>
        rw [coreN_manager hj] at hnext
        exact Or.inr ⟨_, rfl, ⟨hj, hnext⟩, by simp [Frame.pending]⟩
      case isFalse => exact Or.inl rfl

theorem malloc_advance (h : Owned c s q) (hlease : ∀ j, th.lp = some j → j < managerN c)
    {caller : Caller} (hcaller : caller.old = none) (hsize : size < 2 ^ 64)
    (hstep : malloc c s th size caller = .next s' th') :
    Advance c main s s' th.stack th' none none := by
  obtain ⟨-, rfl, rfl⟩ | ⟨j, hne, hlp, henter⟩ := malloc_next hstep
  · exact Advance.refl h
  · have hgrow : Growing s ⟨j, size, caller⟩ := by
      intro ptr preSize heq
      obtain rfl : caller = _ := heq
      exact absurd hcaller (by simp [Caller.old])
    have hadvance : Advance c main s s' th.stack th' caller.old none :=
      enterMalloc_advance h ⟨hlease j hlp, hne, hsize, hgrow⟩ henter
    rwa [hcaller] at hadvance

/-- A pointer not given up is kept. -/
theorem Advance.keeping (h : Advance c main s s' rest th' none arena) :
    Advance c main s s' rest th' given arena := by
  obtain ⟨howned, hkept, hstack⟩ := h
  refine ⟨howned, ⟨hkept.carved, fun p hp _ => hkept.live p hp (by simp), hkept.arenas⟩, ?_⟩
  refine hstack.imp id ?_
  rintro ⟨f, hf, hok, hpending⟩
  exact ⟨f, hf, hok, fun p hp => absurd (hpending p hp) (by simp)⟩

/-- `realloc` of a live pointer to a larger size. -/
theorem Owned.requestOk_realloc (h : Owned c s q) (hj : j < managerN c) (hsize : size < 2 ^ 64)
    (hlive : ptr ∈ s.live) (hlt : MemUtil.ptrToSize s.heap.store.mem ptr < size) :
    RequestOk c s ⟨j, size, .realloc ptr (MemUtil.ptrToSize s.heap.store.mem ptr)⟩ where
  manager := hj
  size_ne := Nat.ne_of_gt (Nat.lt_of_le_of_lt (Nat.zero_le _) hlt)
  size_lt := hsize
  grows ptr' preSize heq := by
    obtain ⟨rfl, rfl⟩ := Caller.realloc.inj heq
    obtain ⟨b, hb, hbody⟩ := h.live_carved ptr hlive
    refine ⟨hlive, hlt, b, hb, hbody, ?_⟩
    rw [← hbody, h.heap.ptrToSize hb]

theorem realloc_advance (h : Owned c s q) (hlease : ∀ j, th.lp = some j → j < managerN c)
    (hsize : size < 2 ^ 64) (hlive : ptr ≠ 0 → ptr ∈ s.live)
    (hstep : realloc c s th ptr size = .next s' th') :
    Advance c main s s' th.stack th' (some ptr) none := by
  obtain ⟨-, hmalloc⟩ | ⟨hne, hle, rfl, rfl⟩ | ⟨j, hne, hlt, hlp, henter⟩ := realloc_next hstep
  · exact (malloc_advance h hlease rfl hsize hmalloc).keeping
  · obtain ⟨b, hb, hbody⟩ := h.live_carved ptr (hlive hne)
    rw [← hbody, h.heap.ptrToSize hb] at hle
    have hok : Returned.Ok s ⟨none, size, ptr⟩ := fun _ => ⟨b, hb, hbody, hle, by simp⟩
    exact ⟨⟨q, h.returns hok⟩, Kept.of_eq rfl rfl rfl, Or.inl rfl⟩
  · exact enterMalloc_advance h (h.requestOk_realloc (hlease j hlp) hsize (hlive hne) hlt) henter

theorem free_advance (h : Owned c s q) (hlease : ∀ j, th.lp = some j → j < managerN c)
    (hoff : -1 ≤ s.heap.g.allocOffset) (hlive : ptr ≠ 0 → ptr ∈ s.live)
    (hstep : free c main s th ptr = .next s' th') :
    Advance c main s s' th.stack th' (some ptr) none := by
  obtain ⟨-, rfl, rfl⟩ | ⟨hne, -, hlate⟩ | ⟨j, hne, hlp, rfl, hth⟩ := free_next hstep
  · exact Advance.refl h
  · -- the manager is leased on the core that carved the block
    obtain ⟨b, hb, hbody⟩ := h.live_carved ptr (hlive hne)
    obtain ⟨j, halloc, rfl, rfl⟩ := lateFree_next hlate
    rw [← hbody, h.heap.ptrToCore hb] at halloc
    have hj : j < managerN c := by
      obtain ⟨i, hi, -, hspec⟩ | ⟨-, hspec⟩ :=
        allocLocalMemoryManager_spec (c := c) hoff b.core
      · rw [hspec] at halloc
        obtain rfl := Option.some.inj halloc
        exact slot_lt (h.heap.blocks b hb).core_lt hi
      · rw [hspec] at halloc
        exact absurd halloc (by simp)
    exact ⟨⟨q, h.reheap h.heap.withG rfl fun _ => Iff.rfl⟩, Kept.reheap rfl rfl,
      Or.inr ⟨_, rfl, ⟨hj, hlive hne⟩, fun _ hp => hp⟩⟩
  · have hj := hlease j hlp
    refine ⟨h.release hj (hlive hne), release_kept, ?_⟩
    obtain ⟨cnts, hcount | hcount⟩ := countFree_cases c main _ th j ptr
    · rw [hth, hcount]
      exact Or.inl rfl
    · rw [hth, hcount]
      exact Or.inr ⟨_, rfl, ⟨hj, c.coreN_pos⟩, by simp [Frame.pending]⟩

/-- **Every action.** -/
theorem act_advance (hc : Setting c) (h : Owned c s q)
    (hlease : ∀ j, th.lp = some j → j < managerN c) (hoff : -1 ≤ s.heap.g.allocOffset)
    (hframes : ∀ f ∈ th.stack, FrameOk c main s f) (hok : ActOk c main s th a)
    (hstep : act c main s th a = .next s' th') :
    Advance c main s s' (a.below th) th' (a.given th) (a.arena c main th) := by
  cases a with
  | start core =>
      obtain ⟨rfl, rfl⟩ := Result.next.inj hstep
      exact ⟨⟨q, h.reheap h.heap.withG rfl fun _ => Iff.rfl⟩, Kept.reheap rfl rfl, Or.inl rfl⟩
  | exit =>
      rw [act, threadTerm] at hstep
      split at hstep
      case h_1 =>
        obtain ⟨rfl, rfl⟩ := Result.next.inj hstep
        exact ⟨⟨q, h⟩, Kept.refl s, Or.inl rfl⟩
      case h_2 j hlp =>
        obtain ⟨rfl, rfl⟩ := Result.next.inj hstep
        exact ⟨h.giveBack (hlease j hlp), Kept.reheap rfl rfl, Or.inl rfl⟩
  | malloc size => exact malloc_advance h hlease rfl hok hstep
  | calloc nmemb size =>
      obtain ⟨rfl, rfl⟩ | ⟨j, hne, hlp, henter⟩ := calloc_next hstep
      · exact Advance.refl h
      · exact enterMalloc_advance h ⟨hlease j hlp, hne, u64_lt _, fun _ _ heq => by simp at heq⟩ henter
  | realloc ptr size => exact realloc_advance h hlease hok.1 hok.2 hstep
  | free ptr => exact free_advance h hlease hoff hok hstep
  | allFree =>
      obtain ⟨j, hlp, rfl, rfl⟩ := allFree_next hstep
      exact ⟨⟨q, h⟩, Kept.refl _, Or.inr ⟨_, rfl, ⟨hlease j hlp, c.coreN_pos⟩, by
        simp [Frame.pending]⟩⟩
  | store addr v =>
      obtain ⟨rfl, rfl⟩ := Result.next.inj hstep
      have hheap := h.heap.setMem (Function.update s.heap.store.mem addr v)
        fun b hb x hx hx' => Function.update_of_ne (by have := hok b hb; omega) _ _
      exact ⟨⟨q, h.reheap hheap rfl fun _ => Iff.rfl⟩, Kept.reheap rfl rfl, Or.inl rfl⟩
  | resume ret =>
      rw [act] at hstep
      split at hstep
      · exact absurd hstep (by simp)
      case h_2 f rest hstack =>
        have hadvance := resume_advance hc h (hframes f (by simp [hstack]))
          (fun r heq => hok r (by simp [hstack, heq])) hstep
        simpa only [Action.below, Action.given, Action.arena, hstack, List.head?_cons,
          List.tail_cons, Option.bind_some] using hadvance

/-- Leases stay in the table of managers. -/
theorem act_lease (hlease : ∀ j, th.lp = some j → j < managerN c)
    (hoff : -1 ≤ s.heap.g.allocOffset) (hok : ActOk c main s th a)
    (hstep : act c main s th a = .next s' th') : ∀ j, th'.lp = some j → j < managerN c := by
  have hkeeps : th.KeepsLease th' → ∀ j, th'.lp = some j → j < managerN c := fun hkeeps => by
    rw [hkeeps.lp]
    exact hlease
  obtain ⟨-, hkept | ⟨core, rfl⟩ | rfl⟩ | ⟨f, -, hkept, -⟩ | ⟨ret, f, rest, -, -, hkept, -⟩ :=
    act_stack hstep
  · exact hkeeps hkept
  · obtain ⟨-, rfl⟩ := Result.next.inj hstep
    intro j hj
    simp only at hj
    obtain ⟨i, hi, -, hspec⟩ | ⟨-, hspec⟩ := allocLocalMemoryManager_spec (c := c) hoff core
    · rw [hspec] at hj
      obtain rfl := Option.some.inj hj
      exact slot_lt hok hi
    · rw [hspec] at hj
      exact absurd hj (by simp)
  · rw [act, threadTerm] at hstep
    split at hstep
    case h_1 =>
      obtain ⟨-, rfl⟩ := Result.next.inj hstep
      exact hlease
    case h_2 =>
      obtain ⟨-, rfl⟩ := Result.next.inj hstep
      exact fun j hj => absurd hj (by simp)
  · exact hkeeps hkept
  · exact hkeeps hkept

end Functions

end FCMalloc.Machine
