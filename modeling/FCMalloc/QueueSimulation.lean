import FCMalloc.ClientRefinement
import FCMalloc.QueueFrames
import FCMalloc.QueueMachine
import FCMalloc.Realloc

/-!
# FCMalloc.QueueSimulation

The machine and the machine without memory do the same, step by step.

`Shared.view` leaves the memory out of a state and puts the queues in the place of the links.
Each function shows the view what its counterpart in `FCMalloc.QueueMachine` does
(`Result.Shows`): the operations on lists because they refine those on queues, `PtrToSize` and
`PtrToCore` because the headers of blocks are as they were carved. So every step is possible in
both or in neither (`step_shows`), and the runs are the same.
-/

namespace FCMalloc.Machine

open ByteMemory GlobalMemoryManager LocalMemoryManager

/-- What a state is without its memory, if the queues are `q`. -/
def Shared.view (s : Shared) (q : QueueId → List Nat) : QueueMachine.State :=
  ⟨q, s.heap.mm, s.heap.g, s.heap.carved, s.live, s.returned⟩

/-- A section leaves what its counterpart leaves. -/
def Result.Shows (c : Config) : Result → QueueMachine.Result → Prop
  | .next s th, .next σ th' => th' = th ∧ ∃ q, HeapInv c s.heap q ∧ σ = s.view q
  | .never, .never => True
  | .nullManager, .nullManager => True
  | _, _ => False

section Headers

variable {c : Config} {s : Shared} {q : QueueId → List Nat} {b : Block} {ptr : Nat}

theorem block?_view (h : HeapInv c s.heap q) (hb : b ∈ s.heap.carved) :
    (s.view q).block? b.body = some b := by
  unfold QueueMachine.State.block?
  cases hfound : s.heap.carved.find? fun b' => b'.body = b.body with
  | none => exact absurd (List.find?_eq_none.mp hfound b hb) (by simp)
  | some b' =>
      have hbody : b'.body = b.body := by simpa using List.find?_some hfound
      rw [show (s.view q).carved = s.heap.carved from rfl, hfound,
        h.body_inj (List.mem_of_find?_eq_some hfound) hb hbody]

theorem sizeAt_view (h : HeapInv c s.heap q) (hb : b ∈ s.heap.carved) :
    (s.view q).sizeAt b.body = b.size := by
  rw [QueueMachine.State.sizeAt, block?_view h hb]
  rfl

theorem coreAt_view (h : HeapInv c s.heap q) (hb : b ∈ s.heap.carved) :
    (s.view q).coreAt b.body = b.core := by
  rw [QueueMachine.State.coreAt, block?_view h hb]
  rfl

/-- **The header of a live block** says what was carved. -/
theorem Owned.sizeAt (h : Owned c s q) (hlive : ptr ∈ s.live) :
    (s.view q).sizeAt ptr = MemUtil.ptrToSize s.heap.store.mem ptr := by
  obtain ⟨b, hb, rfl⟩ := h.live_carved ptr hlive
  rw [sizeAt_view h.heap hb, h.heap.ptrToSize hb]

theorem Owned.coreAt (h : Owned c s q) (hlive : ptr ∈ s.live) :
    (s.view q).coreAt ptr = MemUtil.ptrToCore s.heap.store.mem ptr := by
  obtain ⟨b, hb, rfl⟩ := h.live_carved ptr hlive
  rw [coreAt_view h.heap hb, h.heap.ptrToCore hb]

/-- What `Free` of a block does to the queues. -/
theorem free_queues (h : HeapInv c s.heap q) (hb : b ∈ s.heap.carved) (m : LocalMemoryManager) :
    ((s.view q).free m b.body).queues =
      enqueue q (m.freeLists b.core, sizeClass b.size) [b.addr] := by
  rw [QueueMachine.State.free, coreAt_view h hb, sizeAt_view h hb, h.headerOf_body hb]
  rfl

end Headers

/-! ### Malloc -/

section Malloc

variable {c : Config} {main : Bool} {s : Shared} {th : Thread} {q : QueueId → List Nat}
  {r : Request} {p ptr ret : Nat}

/-- **`Malloc` returns**, and its caller after it. -/
theorem Popped.finish_view (h : Popped c s q r ptr) (hr : r.manager < managerN c)
    (hsize : r.size < 2 ^ 64) (hgrow : Growing s r) :
    ∃ q', HeapInv c (s.finish c r ptr).heap q' ∧
      (s.view q).finish c r ptr = (s.finish c r ptr).view q' := by
  cases h with
  | null hown => exact ⟨q, hown.heap, rfl⟩
  | @block b hb hcore hclass hheap hothers hdead hloose hcarved hnodup hreturned =>
      have hfits : r.size ≤ b.size := by
        rw [hclass, sizeClass_val]
        exact le_two_pow_logarithm2 hsize
      have hne := HeapInv.body_ne_zero b
      unfold Shared.finish QueueMachine.State.finish
      simp only [if_neg hne]
      cases hcaller : r.caller with
      | malloc => exact ⟨q, hheap, rfl⟩
      | calloc =>
          exact ⟨q, hheap.setMem_body hb fun x hx => fill_of_outside (by omega), rfl⟩
      | realloc old preSize =>
          obtain ⟨hlive, hless, b₀, hb₀, rfl, rfl⟩ := hgrow old preSize hcaller
          have hne₀ : b₀ ≠ b := by
            rintro rfl
            exact hdead hlive
          have hmoved := (hheap.moveBody hr hb₀ hb (by omega) ((hothers b₀ hb₀ hne₀).mp hlive)).1
          refine ⟨_, hmoved, ?_⟩
          let e : Returned := ⟨some (r.lm c).core, r.size, b.body⟩
          exact congrArg (fun queues => (⟨queues, s.heap.mm, s.heap.g, s.heap.carved,
            b.body :: s.live.erase b₀.body, e :: s.returned⟩ : QueueMachine.State))
            (free_queues hheap hb₀ (r.lm c))

/-- The end of a section of `Malloc` that has taken `ptr`, or goes on to `f` if it is null. -/
theorem Popped.shows (th : Thread) (f : Frame) (h : Popped c s q r ptr)
    (hr : r.manager < managerN c) (hsize : r.size < 2 ^ 64) (hgrow : Growing s r) :
    (if ptr ≠ 0 then Result.next (s.finish c r ptr) th else .next s (th.push f)).Shows c
      (if ptr ≠ 0 then .next ((s.view q).finish c r ptr) th else .next (s.view q) (th.push f)) := by
  split
  · exact ⟨rfl, h.finish_view hr hsize hgrow⟩
  · exact ⟨rfl, q, h.heap, rfl⟩

/-- **The manager's own lists.** -/
theorem enterMalloc_shows (h : Owned c s q) (hr : RequestOk c s r) :
    (enterMalloc c s th r).Shows c (QueueMachine.enterMalloc c (s.view q) th r) := by
  have hown : ((r.lm c).mallocOwn s.heap.store r.size).1 = frontBody _ ∧ _ :=
    h.heap.mallocOwn hr.manager r.size
  have hpop := h.pop hr.manager (h.heap.dealt_own hr.manager) hown.2 rfl hown.1
  have hshows := hpop.shows th (.pool r) hr.manager hr.size_lt hr.grows
  rw [enterMalloc, if_neg hr.size_ne, QueueMachine.enterMalloc, if_neg hr.size_ne]
  dsimp only
  rw [hown.1] at hshows ⊢
  exact hshows

/-- **The common pool.** -/
theorem pool_shows (h : Owned c s q) (hr : RequestOk c s r) :
    (resume c main s th ret (.pool r)).Shows c
      (QueueMachine.resume c main (s.view q) th ret (.pool r)) := by
  have hpool : (CommonMemoryPool.malloc c s.heap.store (r.lm c).mallocList (r.lm c).core
      r.size).1 = frontBody _ ∧ _ := h.heap.mallocPool hr.manager hr.size_ne
  have hpop := h.pop hr.manager (h.heap.dealt_pool hr.manager) hpool.2 rfl hpool.1
  have hshows := hpop.shows th (.allocate r) hr.manager hr.size_lt (hr.reheap rfl).grows
  rw [resume, QueueMachine.resume]
  rw [hpool.1] at hshows ⊢
  exact hshows

/-- **A granted range** is carved behind `malloc_`. -/
theorem serve_shows (hc : Setting c) (h : Owned c s q) (hr : RequestOk c s r)
    (hgranted : Granted s.heap c p (r.mmapSize c)) :
    (serve c s th r p).Shows c (QueueMachine.serve c (s.view q) th r p) := by
  obtain ⟨heap, (hrun : s.heap.carveInto c (r.lm c).mallocList (r.lm c).core r.size (r.n c) p =
    some heap), hcarved, hmm, hg, hinv, -⟩ := h.heap.carveInto hc.fits
    (Nat.pos_of_ne_zero hr.size_ne) rfl hr.core_lt (listCore_mallocList hr.manager) hgranted
  have hlast : ((r.lm c).mallocLast heap r.size).1 = frontBody _ ∧ _ :=
    hinv.mallocLast (r.lm c) r.size
  have hpop := (h.carve hinv hcarved).pop hr.manager hinv.dealt_refl hlast.2 rfl hlast.1
  have hkept : Kept s { s with heap } none none :=
    ⟨⟨_, hcarved.symm⟩, fun _ hp _ => hp, fun a _ => by simp only [hmm, and_self]⟩
  have hfinish := hpop.finish_view hr.manager hr.size_lt (hr.mono hkept fun p _ => by simp).grows
  let k := (r.lm c).ownQueue (sizeClass r.size)
  let new := blocksFrom p (totalSize r.size) (r.lm c).core (bodySize r.size) (r.n c)
  let σ := { (s.view q).setQueues (enqueue q k (new.map Block.addr)) with
    carved := s.heap.carved ++ new }
  have hσ : ({ s with heap } : Shared).view σ.queues = σ := by
    simp only [Shared.view, hcarved, hmm, hg]
    rfl
  rw [serve, hrun, QueueMachine.serve]
  show Result.Shows c (.next _ th) (.next ((σ.take k).2.finish c r (σ.take k).1) th)
  rw [← hσ]
  rw [hlast.1] at hfinish ⊢
  exact ⟨rfl, hfinish⟩

/-- **The arena** grants a range in both, or is extended in both, or neither returns. -/
theorem allocate_shows (hc : Setting c) (h : Owned c s q) (hr : RequestOk c s r)
    (hfresh : s.heap.mm.needsExtension c (r.arena c main) (r.mmapSize c) = true →
      c.Fresh s.heap.mm.maps ret (align (MmapManager.allocSize (r.mmapSize c)) c.pageSize)) :
    (resume c main s th ret (.allocate r)).Shows c
      (QueueMachine.resume c main (s.view q) th ret (.allocate r)) := by
  rw [resume, QueueMachine.resume, show (s.view q).mm = s.heap.mm from rfl]
  cases henter : s.heap.mm.enter c main (r.lm c).core (r.mmapSize c) ret with
  | none => trivial
  | some entered =>
      obtain ⟨served, mm, touched⟩ := entered
      obtain ⟨hheap, -, hserved, -⟩ := h.heap.enter hc.force (Nat.le_of_lt hr.core_lt)
        (r.dvd_mmapSize c) (HeapInv.mmapSize_wrap hc.fits (Nat.pos_of_ne_zero hr.size_ne)) hfresh
        henter
      cases served with
      | none => exact ⟨rfl, q, hheap, rfl⟩
      | some p =>
          exact serve_shows hc (h.reheap hheap rfl fun _ => Iff.rfl) (hr.reheap rfl)
            (hserved p rfl)

/-- **After the report.** -/
theorem reported_shows (hc : Setting c) (h : Owned c s q) (hr : RequestOk c s r)
    (hroom : Room c main s r) :
    (resume c main s th ret (.printing r .reported)).Shows c
      (QueueMachine.resume c main (s.view q) th ret (.printing r .reported)) := by
  obtain ⟨hfit, hflag⟩ := hroom
  have hrest : ¬ s.heap.mm.restSize (r.arena c main) < r.mmapSize c := by
    rw [h.heap.arena.restSize_eq hr.arena_lt]
    exact Nat.not_lt.mpr hfit
  obtain ⟨hheap, hgranted⟩ := h.heap.serve hr.arena_lt hfit hflag (r.dvd_mmapSize c)
  rw [resume, if_neg hrest, QueueMachine.resume, show (s.view q).mm = s.heap.mm from rfl,
    if_neg hrest]
  exact serve_shows hc (h.reheap hheap rfl fun _ => Iff.rfl) (hr.reheap rfl) hgranted

end Malloc

/-! ### Leases -/

section Leases

variable {c : Config} {g : GlobalMemoryManager} {N : Set Nat} {s s' : Store ListId} {h : Process}
  {q q' : QueueId → List Nat} {m i k ii : Nat}

theorem handBackTo_shows (hm : m < managerN c) (hk : k < c.coreN) (hii : ii < c.poolN)
    (h : Moved N s s' q') : Moved N s (GlobalMemoryManager.handBackTo c g m i k ii s')
      (QueueMachine.handBackTo c g m i k ii q') := by
  unfold GlobalMemoryManager.handBackTo QueueMachine.handBackTo
  split
  · exact h
  · split
    · exact Sound.trans h (h.sound.join (mallocList_ne_freeLists (slot_lt hk hii) hm hk))
    · exact h

/-- **A hand-back** joins the queues its loops join. -/
theorem handBack_shows (hm : m < managerN c) (h : Sound N s q) :
    Moved N s (GlobalMemoryManager.handBack c g m i s) (QueueMachine.handBack c g m i q) :=
  forRange_related (Moved N s) h.refl fun _ hk _ _ hs =>
    forRange_related (Moved N s) hs fun _ hii _ _ hs => handBackTo_shows hm hk hii hs

/-- **`FreeLocalMemoryManager`.** -/
theorem freeLocalMemoryManager_shows {heap : Process} (h : HeapInv c heap q)
    (hm : m < managerN c) :
    let r := GlobalMemoryManager.freeLocalMemoryManager c heap.g heap.store m
    let r' := QueueMachine.freeLocalMemoryManager c heap.g q m
    r'.1 = r.1 ∧ HeapInv c { heap with g := r.1, store := r.2 } r'.2 := by
  unfold GlobalMemoryManager.freeLocalMemoryManager QueueMachine.freeLocalMemoryManager
  dsimp only
  cases (scanOrder c (nextOffset heap.g.freeOffset c.coreN)).find? fun slot =>
      heap.g.poolFlags (c.poolN * slot.1 + slot.2) && decide (c.poolN * slot.1 + slot.2 = m) with
  | none => exact ⟨rfl, h.withG⟩
  | some slot =>
      obtain ⟨q', hmoved, hback⟩ := handBack_moved hm h.sound
      obtain rfl := hmoved.sound.linked.unique (handBack_shows hm h.sound).sound.linked
      exact ⟨rfl, (h.moved hmoved hback.reshuffle.source).withG⟩

end Leases

/-! ### All functions -/

section Functions

variable {c : Config} {main : Bool} {s : Shared} {th : Thread} {q : QueueId → List Nat}
  {f : Frame} {a : Action} {j size ptr ret : Nat}

/-- **`Free`** of a live block. -/
theorem Owned.free_view (h : Owned c s q) (hj : j < managerN c) (hlive : ptr ∈ s.live) :
    let s' := { s.setStore ((managerPools c j).free s.heap.store ptr) with
      live := s.live.erase ptr }
    ∃ q', HeapInv c s'.heap q' ∧ (s.view q).free (managerPools c j) ptr = s'.view q' := by
  obtain ⟨b, hb, rfl⟩ := h.live_carved ptr hlive
  refine ⟨_, h.heap.free hj hb ((h.live_iff b hb).mp hlive), ?_⟩
  rw [← free_queues h.heap hb]
  rfl

/-- **`FreeLocalMemoryManager`**, as `threadTerm` and `GlobalMemoryManager::Free` call it. -/
theorem giveBack_shows (h : HeapInv c s.heap q) (hj : j < managerN c) (th : Thread) :
    let r := GlobalMemoryManager.freeLocalMemoryManager c s.heap.g s.heap.store j
    let r' := QueueMachine.freeLocalMemoryManager c s.heap.g q j
    (Result.next { s with heap := { s.heap with g := r.1, store := r.2 } } th).Shows c
      (.next { s.view q with g := r'.1, queues := r'.2 } th) := by
  obtain ⟨hg, hheap⟩ := freeLocalMemoryManager_shows h hj
  refine ⟨rfl, _, hheap, ?_⟩
  rw [hg]
  rfl

/-- **Every function, from a mutex operation on.** -/
theorem resume_shows (hc : Setting c) (h : Owned c s q) (hf : FrameOk c main s f)
    (hfresh : ∀ r, f = .allocate r →
      s.heap.mm.needsExtension c (r.arena c main) (r.mmapSize c) = true →
      c.Fresh s.heap.mm.maps ret (align (MmapManager.allocSize (r.mmapSize c)) c.pageSize)) :
    (resume c main s th ret f).Shows c (QueueMachine.resume c main (s.view q) th ret f) := by
  cases f with
  | pool r => exact pool_shows h hf
  | allocate r => exact allocate_shows hc h hf (hfresh r rfl)
  | printing r phase =>
      obtain ⟨hr, hroom, hphase⟩ := hf
      cases phase with
      | extended | reporting => exact ⟨rfl, q, h.heap, rfl⟩
      | reported => exact reported_shows hc h hr hroom
      | exhausted => exact absurd rfl hphase
  | freeing j ptr => exact ⟨rfl, h.free_view hf.1 hf.2⟩
  | release j => exact giveBack_shows h.heap hf th
  | flush j i => exact ⟨rfl, _, (h.heap.flushCore hf.1 hf.2).1, rfl⟩

theorem malloc_shows (h : Owned c s q) (hlease : ∀ j, th.lp = some j → j < managerN c)
    {caller : Caller} (hcaller : caller.old = none) (hsize : size < 2 ^ 64) :
    (malloc c s th size caller).Shows c (QueueMachine.malloc c (s.view q) th size caller) := by
  rw [malloc, QueueMachine.malloc]
  by_cases hne : size = 0
  · rw [if_pos hne, if_pos hne]
    exact ⟨rfl, q, h.heap, rfl⟩
  · rw [if_neg hne, if_neg hne]
    cases hlp : th.lp with
    | none => trivial
    | some j =>
        refine enterMalloc_shows h ⟨hlease j hlp, hne, hsize, fun ptr preSize heq => ?_⟩
        obtain rfl : caller = _ := heq
        exact absurd hcaller (by simp [Caller.old])

theorem realloc_shows (h : Owned c s q) (hlease : ∀ j, th.lp = some j → j < managerN c)
    (hsize : size < 2 ^ 64) (hlive : ptr ≠ 0 → ptr ∈ s.live) :
    (realloc c s th ptr size).Shows c (QueueMachine.realloc c (s.view q) th ptr size) := by
  rw [realloc, QueueMachine.realloc]
  by_cases hne : ptr = 0
  · rw [if_pos hne, if_pos hne]
    exact malloc_shows h hlease rfl hsize
  · rw [if_neg hne, if_neg hne, h.sizeAt (hlive hne)]
    cases hlp : th.lp with
    | none => trivial
    | some j =>
        dsimp only
        by_cases hle : size ≤ MemUtil.ptrToSize s.heap.store.mem ptr
        · rw [if_pos hle, if_pos hle]
          exact ⟨rfl, q, h.heap, rfl⟩
        · rw [if_neg hle, if_neg hle]
          exact enterMalloc_shows h (h.requestOk_realloc (hlease j hlp) hsize (hlive hne)
            (Nat.lt_of_not_le hle))

theorem free_shows (h : Owned c s q) (hlease : ∀ j, th.lp = some j → j < managerN c)
    (hlive : ptr ≠ 0 → ptr ∈ s.live) :
    (free c main s th ptr).Shows c (QueueMachine.free c main (s.view q) th ptr) := by
  rw [free, QueueMachine.free]
  by_cases hne : ptr = 0
  · rw [if_pos hne, if_pos hne]
    exact ⟨rfl, q, h.heap, rfl⟩
  · rw [if_neg hne, if_neg hne]
    obtain ⟨b, hb, rfl⟩ := h.live_carved ptr (hlive hne)
    cases hlp : th.lp with
    | none =>
        dsimp only
        rw [lateFree, QueueMachine.lateFree, h.coreAt (hlive hne)]
        dsimp only
        rw [show (s.view q).g = s.heap.g from rfl]
        cases (allocLocalMemoryManager c s.heap.g (MemUtil.ptrToCore s.heap.store.mem b.body)).1 with
        | none => trivial
        | some j => exact ⟨rfl, q, h.heap.withG, rfl⟩
    | some j =>
        obtain ⟨q', hheap, hview⟩ := h.free_view (hlease j hlp) (hlive hne)
        refine ⟨?_, q', hheap, hview⟩
        -- the header is read again after the block is on its list
        rw [countFree, QueueMachine.countFree, sizeAt_view h.heap hb, hheap.ptrToSize hb]

/-- **Every action.** -/
theorem act_shows (hc : Setting c) (h : Owned c s q)
    (hlease : ∀ j, th.lp = some j → j < managerN c)
    (hframes : ∀ f ∈ th.stack, FrameOk c main s f) (hok : ActOk c main s th a) :
    (act c main s th a).Shows c (QueueMachine.act c main (s.view q) th a) := by
  cases a with
  | start core => exact ⟨rfl, q, h.heap.withG, rfl⟩
  | exit =>
      rw [act, threadTerm, QueueMachine.act, QueueMachine.threadTerm]
      cases hlp : th.lp with
      | none => exact ⟨rfl, q, h.heap, rfl⟩
      | some j => exact giveBack_shows h.heap (hlease j hlp) _
  | malloc size => exact malloc_shows h hlease rfl hok
  | calloc nmemb size =>
      rw [act, calloc, QueueMachine.act, QueueMachine.calloc]
      split
      · exact ⟨rfl, q, h.heap, rfl⟩
      · exact malloc_shows h hlease rfl (u64_lt _)
  | realloc ptr size => exact realloc_shows h hlease hok.1 hok.2
  | free ptr => exact free_shows h hlease hok
  | allFree =>
      rw [act, allFree, QueueMachine.act, QueueMachine.allFree]
      cases th.lp with
      | none => trivial
      | some j => exact ⟨rfl, q, h.heap, rfl⟩
  | store addr v =>
      exact ⟨rfl, q, h.heap.setMem _ fun b hb x hx hx' =>
        Function.update_of_ne (by have := hok b hb; omega) _ _, rfl⟩
  | resume ret =>
      rw [act, QueueMachine.act]
      cases hstack : th.stack with
      | nil => trivial
      | cons f rest =>
          exact resume_shows hc h (hframes f (by simp [hstack]))
            fun r heq => hok r (by simp [hstack, heq])

end Functions

/-! ### Steps -/

/-- What a world is without its memory, if the queues are `q`. -/
def World.view (w : World) (q : QueueId → List Nat) : QueueMachine.World :=
  ⟨w.shared.view q, w.threads, w.owner⟩

/-- An action has the outcome of its counterpart. -/
def Outcome.Shows (c : Config) : Outcome → QueueMachine.Outcome → Prop
  | .next w, .next v => ∃ q, HeapInv c w.shared.heap q ∧ v = w.view q
  | .wait, .wait => True
  | .relock m, .relock m' => m' = m
  | .nullManager, .nullManager => True
  | _, _ => False

section Steps

variable {c : Config} {main : Bool} {s : Shared} {th : Thread} {w : World}
  {q : QueueId → List Nat} {a : Action} {t : Nat}

theorem locks_view : QueueMachine.locks c main (s.view q).mm th a = locks c main s th a := by
  cases a with
  | resume ret =>
      rw [QueueMachine.locks, locks]
      cases th.stack with
      | nil => rfl
      | cons f _ =>
          cases f with
          | printing r phase => cases phase <;> rfl
          | _ => rfl
  | _ => rfl

theorem actOk_view : QueueMachine.ActOk c main (s.view q) th a ↔ ActOk c main s th a := by
  cases a <;> exact Iff.rfl

theorem legal_view {a : Nat × Action} : QueueMachine.Legal c (w.view q) a ↔ Legal c w a :=
  ⟨fun h => ⟨actOk_view.mp h.act, h.once⟩, fun h => ⟨actOk_view.mpr h.act, h.once⟩⟩

theorem go_shows (h : (act c (mainThread t) w.shared (w.threads t) a).Shows c
      (QueueMachine.act c (mainThread t) (w.shared.view q) (w.threads t) a)) :
    (w.go c t a).Shows c ((w.view q).go c t a) := by
  rw [World.go, QueueMachine.World.go, show (w.view q).shared = w.shared.view q from rfl,
    show (w.view q).threads = w.threads from rfl]
  revert h
  cases act c (mainThread t) w.shared (w.threads t) a with
  | next s th =>
      cases QueueMachine.act c (mainThread t) (w.shared.view q) (w.threads t) a with
      | next σ th' =>
          rintro ⟨rfl, q', hheap, rfl⟩
          exact ⟨q', hheap, rfl⟩
      | never | nullManager => exact False.elim
  | never | nullManager =>
      cases QueueMachine.act c (mainThread t) (w.shared.view q) (w.threads t) a with
      | next | never | nullManager => exact id

/-- **Every legal action** has the outcome of its counterpart. -/
theorem step_shows (hc : Setting c) (h : OwnershipInv c w) (hq : HeapInv c w.shared.heap q)
    (hok : ActOk c (mainThread t) w.shared (w.threads t) a) :
    (w.step c t a).Shows c ((w.view q).step c t a) := by
  obtain ⟨q', howned⟩ := h.owned
  obtain rfl := hq.sound.linked.unique howned.heap.sound.linked
  have hgo := go_shows (act_shows hc howned (h.leases t) (h.frames t) hok)
  rw [World.step, QueueMachine.World.step, show (w.view q).threads = w.threads from rfl,
    show (w.view q).shared = w.shared.view q from rfl, locks_view]
  split
  · trivial
  · cases locks c (mainThread t) w.shared (w.threads t) a with
    | none => exact hgo
    | some m =>
        dsimp only
        rw [show (w.view q).owner = w.owner from rfl]
        cases w.owner m with
        | none => exact hgo
        | some t' =>
            dsimp only
            split
            · rfl
            · trivial

end Steps

/-! ### Runs -/

/-- A world and what it is without its memory. -/
def Viewed (c : Config) (w : World) (v : QueueMachine.World) : Prop :=
  OwnershipInv c w ∧ ∃ q, HeapInv c w.shared.heap q ∧ v = w.view q

section Runs

variable {c : Config} {base : Nat → Nat} {w w' : World} {v v' : QueueMachine.World}
  {a : Nat × Action}

theorem Viewed.start (hbase : c.FreshBase base) (mem : Memory) :
    Viewed c (World.init c base mem) (QueueMachine.World.init c base) :=
  ⟨OwnershipInv.start hbase mem, _, HeapInv.start hbase, rfl⟩

/-- A step of the machine is one of the machine without memory. -/
theorem Viewed.step (hc : Setting c) (h : Viewed c w v)
    (hstep : (system c base).Sees (Legal c) (fun _ a _ => a) w a w') :
    ∃ v', (QueueMachine.system c base).Sees (QueueMachine.Legal c) (fun _ a _ => a) v a v' ∧
      Viewed c w' v' := by
  obtain ⟨hinv, q, hq, rfl⟩ := h
  obtain ⟨_, hlegal, hnext, rfl⟩ := hstep
  have hshows := step_shows hc hinv hq hlegal.act
  have hnext : w.step c a.1 a.2 = .next w' := hnext
  rw [hnext] at hshows
  cases hstep : (w.view q).step c a.1 a.2 with
  | next v' =>
      rw [hstep] at hshows
      exact ⟨v', ⟨a, legal_view.mpr hlegal, hstep, rfl⟩, (hinv.step hc hlegal hnext).1, hshows⟩
  | wait | relock | nullManager =>
      rw [hstep] at hshows
      exact hshows.elim

/-- A step of the machine without memory is one of the machine. -/
theorem Viewed.step_back (hc : Setting c) (h : Viewed c w v)
    (hstep : (QueueMachine.system c base).Sees (QueueMachine.Legal c) (fun _ a _ => a) v a v') :
    ∃ w', (system c base).Sees (Legal c) (fun _ a _ => a) w a w' ∧ Viewed c w' v' := by
  obtain ⟨hinv, q, hq, rfl⟩ := h
  obtain ⟨_, hlegal, hnext, rfl⟩ := hstep
  have hlegal := legal_view.mp hlegal
  have hshows := step_shows hc hinv hq hlegal.act
  have hnext : (w.view q).step c a.1 a.2 = .next v' := hnext
  rw [hnext] at hshows
  cases hstep : w.step c a.1 a.2 with
  | next w' =>
      rw [hstep] at hshows
      exact ⟨w', ⟨a, hlegal, hstep, rfl⟩, (hinv.step hc hlegal hstep).1, hshows⟩
  | wait | relock | nullManager =>
      rw [hstep] at hshows
      exact hshows.elim

/-- A run of the machine is one of the machine without memory. -/
theorem Viewed.path {as : List (Nat × Action)} (hc : Setting c)
    (hpath : Traced ((system c base).Sees (Legal c) fun _ a _ => a) w as w') (h : Viewed c w v) :
    ∃ v', Traced ((QueueMachine.system c base).Sees (QueueMachine.Legal c) fun _ a _ => a) v as v' ∧
      Viewed c w' v' :=
  hpath.simulate (fun _ _ _ _ hviewed hstep => hviewed.step hc hstep) h

theorem Viewed.path_back {as : List (Nat × Action)} (hc : Setting c)
    (hpath : Traced ((QueueMachine.system c base).Sees (QueueMachine.Legal c) fun _ a _ => a) v as v')
    (h : Viewed c w v) :
    ∃ w', Traced ((system c base).Sees (Legal c) fun _ a _ => a) w as w' ∧ Viewed c w' v' := by
  let R : QueueMachine.World → World → Prop := fun v w => Viewed c w v
  have hstep : ∀ v₁ a v₂ w, R v₁ w →
      (QueueMachine.system c base).Sees (QueueMachine.Legal c) (fun _ a _ => a) v₁ a v₂ →
      ∃ w', (system c base).Sees (Legal c) (fun _ a _ => a) w a w' ∧ R v₂ w' :=
    fun _ _ _ _ hviewed hstep => Viewed.step_back hc hviewed hstep
  exact hpath.simulate hstep h

end Runs

/-- **The machine is the machine without memory.** From any initial memory it has the same
legal runs, action by action: the lists in memory are the queues there, and the threads, the
arenas, the leases and what the program was given are the same. And every action that comes
next has the same outcome: it is made, waits, locks a mutex twice or finds no manager. -/
theorem refines_queueMachine (c : Config) (base : Nat → Nat) (mem : Memory) (hc : Setting c)
    (hbase : c.FreshBase base) (as : List (Nat × Action)) :
    (∀ w, Traced ((system c base).Sees (Legal c) fun _ a _ => a) (World.init c base mem) as w →
      ∃ q, HeapInv c w.shared.heap q ∧
        Traced ((QueueMachine.system c base).Sees (QueueMachine.Legal c) fun _ a _ => a)
          (QueueMachine.World.init c base) as (w.view q) ∧
        ∀ t a, ActOk c (mainThread t) w.shared (w.threads t) a →
          (w.step c t a).Shows c ((w.view q).step c t a)) ∧
    (∀ v, Traced ((QueueMachine.system c base).Sees (QueueMachine.Legal c) fun _ a _ => a)
        (QueueMachine.World.init c base) as v →
      ∃ w q, HeapInv c w.shared.heap q ∧ v = w.view q ∧
        Traced ((system c base).Sees (Legal c) fun _ a _ => a) (World.init c base mem) as w) := by
  constructor
  · intro w hpath
    obtain ⟨_, hpath', hinv, q, hq, rfl⟩ := Viewed.path hc hpath (Viewed.start hbase mem)
    exact ⟨q, hq, hpath', fun _ _ hok => step_shows hc hinv hq hok⟩
  · intro v hpath
    obtain ⟨w, hpath', hviewed⟩ := Viewed.path_back hc hpath (Viewed.start hbase mem)
    obtain ⟨-, q, hq, rfl⟩ := hviewed
    exact ⟨w, q, hq, rfl, hpath'⟩

/-- `carveRun` without memory carves the same blocks, and gives out the same one. -/
theorem refines_queueMachine_carveRun : ∃ v : QueueMachine.World,
    Traced ((QueueMachine.system MmapManager.oneCore MmapManager.oneCoreBase).Sees
        (QueueMachine.Legal MmapManager.oneCore) fun _ a _ => a)
      (QueueMachine.World.init MmapManager.oneCore MmapManager.oneCoreBase) carveRun v ∧
    v.shared.live = [139637976727600] ∧ v.shared.carved.length = 2 := by
  obtain ⟨q, -, hpath, -⟩ := (refines_queueMachine MmapManager.oneCore MmapManager.oneCoreBase
    (fun _ => 0) oneCore_setting (by decide) carveRun).1 _ carveRun_path
  have hlive : (Option.get _ carveRun_made).shared.live = [139637976727600] ∧
      (Option.get _ carveRun_made).shared.heap.carved.length = 2 := by decide +kernel
  exact ⟨_, hpath, hlive⟩

/-! ### What the program writes makes no difference -/

/-- An action but for the byte it writes. -/
def Action.shape : Action → Action
  | .store addr _ => .store addr 0
  | a => a

section Shape

variable {c : Config} {base : Nat → Nat} {v v' : QueueMachine.World} {a b : Nat × Action}

theorem step_shape (v : QueueMachine.World) (t : Nat) (a : Action) :
    v.step c t a.shape = v.step c t a := by
  cases a <;> rfl

theorem legal_shape :
    QueueMachine.Legal c v (Prod.map id Action.shape a) ↔ QueueMachine.Legal c v a := by
  obtain ⟨t, a⟩ := a
  cases a <;> exact ⟨fun h => ⟨h.act, h.once⟩, fun h => ⟨h.act, h.once⟩⟩

/-- The machine without memory does not see which byte is written. -/
theorem shape_sees (hshape : Prod.map id Action.shape b = Prod.map id Action.shape a)
    (h : (QueueMachine.system c base).Sees (QueueMachine.Legal c) (fun _ a _ => a) v a v') :
    (QueueMachine.system c base).Sees (QueueMachine.Legal c) (fun _ a _ => a) v b v' := by
  obtain ⟨_, hlegal, hstep, rfl⟩ := h
  refine ⟨b, legal_shape.mp (hshape ▸ legal_shape.mpr hlegal), ?_, rfl⟩
  obtain ⟨(ht : b.1 = a.1), hb⟩ := Prod.mk.inj hshape
  show v.step c b.1 b.2 = .next v'
  rw [← step_shape, hb, ht, step_shape]
  exact hstep

end Shape

/-- **The allocator does not look at contents.** Whatever was in memory at the start and
whatever bytes the program writes, the same calls in the same order go the same way: every
thread, every mutex, the leases, the arenas, the blocks, the lists and the pointers returned
are the same. -/
theorem content_independent (c : Config) (base : Nat → Nat) (mem mem₂ : Memory) (hc : Setting c)
    (hbase : c.FreshBase base) (w : World) (as bs : List (Nat × Action))
    (hpath : Traced ((system c base).Sees (Legal c) fun _ a _ => a) (World.init c base mem) as w)
    (hshape : bs.map (Prod.map id Action.shape) = as.map (Prod.map id Action.shape)) :
    ∃ w₂, Traced ((system c base).Sees (Legal c) fun _ a _ => a) (World.init c base mem₂) bs w₂ ∧
      w₂.threads = w.threads ∧ w₂.owner = w.owner ∧
      ∃ q, HeapInv c w.shared.heap q ∧ HeapInv c w₂.shared.heap q ∧
        w₂.shared.view q = w.shared.view q := by
  obtain ⟨_, hqueues, -, q, hq, rfl⟩ := Viewed.path hc hpath (Viewed.start hbase mem)
  have hqueues' := hqueues.relabel (fun _ _ _ _ => shape_sees) hshape
  obtain ⟨w₂, hpath₂, -, q₂, hq₂, hview⟩ := Viewed.path_back hc hqueues'
    (Viewed.start hbase mem₂)
  obtain ⟨hshared, hthreads, howner⟩ := QueueMachine.World.mk.inj hview
  obtain rfl : q = q₂ := (QueueMachine.State.mk.inj hshared).1
  exact ⟨w₂, hpath₂, hthreads.symm, howner.symm, q, hq, hq₂, hshared.symm⟩

/-- Thread 1 gets the same block in another memory, and may write other bytes into it. -/
theorem content_independent_writeRun : ∃ w₂ : World,
    Traced ((system MmapManager.oneCore MmapManager.oneCoreBase).Sees (Legal MmapManager.oneCore)
        fun _ a _ => a)
      (World.init MmapManager.oneCore MmapManager.oneCoreBase fun _ => 255)
      (carveRun ++ [(1, .store 139637976727605 1), (1, .store 139637976727605 2)]) w₂ ∧
    w₂.shared.live = [139637976727600] := by
  have hpath := World.run_traced MmapManager.oneCoreBase (Legal MmapManager.oneCore)
    (fun _ a _ => a) (fun _ _ => Legal.of_writes) carveRun_path
    (Option.some_get writeRun_made).symm
  rw [World.trace_actions (Option.some_get writeRun_made).symm] at hpath
  obtain ⟨w₂, hpath₂, -, -, q, -, -, hview⟩ := content_independent MmapManager.oneCore
    MmapManager.oneCoreBase (fun _ => 0) (fun _ => 255) oneCore_setting (by decide) _ _
    (carveRun ++ [(1, .store 139637976727605 1), (1, .store 139637976727605 2)]) hpath rfl
  have hlive : (Option.get _ writeRun_made).shared.live = [139637976727600] := by decide +kernel
  exact ⟨w₂, hpath₂, (congrArg QueueMachine.State.live hview).trans hlive⟩

end FCMalloc.Machine
