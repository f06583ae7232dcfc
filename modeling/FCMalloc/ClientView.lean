import FCMalloc.Library.ClientHeap
import FCMalloc.MappedMemory
import FCMalloc.Realloc

/-!
# FCMalloc.ClientView

What the program sees of the machine: its blocks, what is in them, and what each call
tells it.

`Shared.contents` is that view of a state and `seen` that of a step, as an event of a
`ClientHeap`. `act_effect` inverts a step once more, now for what it does to the program's
blocks: it works behind the scenes (`Quietly`), frees a block, writes a byte, or `Malloc`
returns and its caller goes on. The refinement is proved from it in
`FCMalloc.ClientRefinement`.
-/

namespace FCMalloc.Machine

open ByteMemory GlobalMemoryManager LocalMemoryManager

/-- The bytes of the block at `p`, if the program holds it. -/
def Shared.contents (s : Shared) (p : Nat) : Option (List UInt8) :=
  if p ∈ s.live then
    some (bytes s.heap.store.mem p (MemUtil.ptrToSize s.heap.store.mem p))
  else none

/-- What called `Malloc`, in a step that may return from it. -/
def Action.caller? (s : Shared) (th : Thread) : Action → Option Caller
  | .malloc _ => some .malloc
  | .calloc _ _ => some .calloc
  | .realloc ptr _ =>
      some (if ptr = 0 then .malloc else .realloc ptr (MemUtil.ptrToSize s.heap.store.mem ptr))
  | .resume _ => (th.stack.head?.bind Frame.request).map Request.caller
  | _ => none

/-- The pointer that `Free` puts back in a step. -/
def Action.frees? (th : Thread) : Action → Option Nat
  | .free ptr => if ptr ≠ 0 ∧ th.lp.isSome then some ptr else none
  | .resume _ =>
      match th.stack with
      | .freeing _ ptr :: _ => some ptr
      | _ => none
  | _ => none

/-- What a pointer returned means to the caller of `Malloc`. A null pointer, or that of a
block `realloc` has kept, changes nothing. -/
def Caller.answer (caller : Caller) (e : Returned) : HeapEvent UInt8 :=
  if e.ptr = 0 ∨ e.core = none then .quiet
  else
    match caller with
    | .malloc => .alloc e.size e.ptr
    | .calloc => .zalloc e.size e.ptr
    | .realloc old _ => .move old e.ptr e.size

/-- **What the program sees** of an action of thread `th` that takes `s` to `s'`. -/
def seen (s : Shared) (th : Thread) (a : Action) (s' : Shared) : HeapEvent UInt8 :=
  match a, a.frees? th, a.caller? s th with
  | .store x v, _, _ => .write x v
  | _, some ptr, _ => .free ptr
  | _, none, some caller =>
      if s'.returned.length = s.returned.length then .quiet
      else (s'.returned.head?.map caller.answer).getD .quiet
  | _, none, none => .quiet

/-- What the program sees of a step of the machine. -/
def event (w : World) (a : Nat × Action) (w' : World) : HeapEvent UInt8 :=
  seen w.shared (w.threads a.1) a.2 w'.shared

/-! ### What a step does to the program's blocks -/

/-- Behind the scenes: the program keeps what it holds, and is told nothing. What is written is
in mapped memory and in no body. -/
structure Quietly (s s' : Shared) : Prop where
  carved : s.heap.carved <+: s'.heap.carved
  live : s'.live = s.live
  returned : s'.returned = s.returned
  bodies : SameBodies s.heap.carved s.heap.store.mem s'.heap.store.mem
  confined : Confined s.heap s'.heap

theorem Quietly.refl (s : Shared) : Quietly s s :=
  ⟨List.prefix_refl _, rfl, rfl, fun _ _ _ _ _ => rfl, .refl _⟩

theorem Quietly.trans {s s' s'' : Shared} (h : Quietly s s') (h' : Quietly s' s'') :
    Quietly s s'' where
  carved := h.carved.trans h'.carved
  live := h'.live.trans h.live
  returned := h'.returned.trans h.returned
  bodies := h.bodies.trans (h'.bodies.mono fun _ hb => h.carved.subset hb)
  confined := h.confined.trans h'.confined

/-- The memory and the arenas are the same. -/
theorem Quietly.of_eq {s s' : Shared} (hcarved : s'.heap.carved = s.heap.carved)
    (hlive : s'.live = s.live) (hreturned : s'.returned = s.returned)
    (hmem : s'.heap.store.mem = s.heap.store.mem) (hmaps : s'.heap.mm.maps = s.heap.mm.maps) :
    Quietly s s' where
  carved := hcarved ▸ List.prefix_refl _
  live := hlive
  returned := hreturned
  bodies _ _ _ _ _ := by rw [hmem]
  confined := ⟨fun _ he => hmaps ▸ he, fun _ _ => by rw [hmem]⟩

/-- A step of `Malloc` for `r` works behind the scenes, and may then return. -/
inductive Answers (c : Config) (s : Shared) (r : Request) (s' : Shared) : Prop
  | waits : Quietly s s' → Answers c s r s'
  | returns {s₁ : Shared} {q : QueueId → List Nat} {ptr : Nat} : Quietly s s₁ →
      Popped c s₁ q r ptr → s' = s₁.finish c r ptr → Answers c s r s'

/-- **What an action does** to the program's blocks. -/
inductive Effect (c : Config) (s : Shared) (th : Thread) (a : Action) (s' : Shared) : Prop
  | quiet : Quietly s s' → a.frees? th = none → (∀ x v, a ≠ .store x v) → Effect c s th a s'
  /-- `realloc` keeps a block that is large enough. -/
  | keep {ptr size : Nat} : a = .realloc ptr size → ptr ≠ 0 →
      s' = { s with returned := ⟨none, size, ptr⟩ :: s.returned } → Effect c s th a s'
  | answer {r : Request} : a.frees? th = none → (∀ x v, a ≠ .store x v) →
      a.caller? s th = some r.caller → RequestOk c s r → Answers c s r s' → Effect c s th a s'
  | free {j ptr : Nat} : j < managerN c → a.frees? th = some ptr → ptr ∈ s.live →
      (∀ x v, a ≠ .store x v) →
      s' = { s.setStore ((managerPools c j).free s.heap.store ptr) with
        live := s.live.erase ptr } → Effect c s th a s'
  | store {x : Nat} {v : UInt8} : a = .store x v →
      s' = { s with heap := s.heap.setMem (Function.update s.heap.store.mem x v) } →
      Effect c s th a s'

section Malloc

variable {c : Config} {main : Bool} {s s' : Shared} {th th' : Thread} {q : QueueId → List Nat}
  {r : Request} {p ret : Nat} {store : Store ListId}

/-- List operations write links only. -/
theorem Owned.quietly_links (h : Owned c s q)
    (hlinks : OnlyLinks (nodes s.heap.carved) s.heap.store.mem store.mem) :
    Quietly s (s.setStore store) :=
  ⟨List.prefix_refl _, rfl, rfl, h.heap.sameBodies_links hlinks, h.heap.confined_links rfl hlinks⟩

theorem enterMalloc_answers (h : Owned c s q) (hr : RequestOk c s r)
    (hstep : enterMalloc c s th r = .next s' th') : Answers c s r s' := by
  have hne : (r.lm c).mallocList ≠ (r.lm c).freeLists (r.lm c).core :=
    mallocList_ne_freeLists hr.manager hr.manager hr.core_lt
  have hquiet := h.quietly_links (mallocOwn_moved h.heap.sound hne r.size).2.links
  obtain ⟨hzero, -⟩ | ⟨-, -, -, rfl⟩ | ⟨-, -, -, rfl⟩ := enterMalloc_next hstep
  · exact absurd hzero hr.size_ne
  · obtain ⟨hptr, hheap⟩ := h.heap.mallocOwn hr.manager r.size
    exact .returns hquiet (h.pop hr.manager (h.heap.dealt_own hr.manager) hheap rfl hptr) rfl
  · exact .waits hquiet

theorem pool_answers (h : Owned c s q) (hr : RequestOk c s r)
    (hstep : resume c main s th ret (.pool r) = .next s' th') : Answers c s r s' := by
  have hquiet := h.quietly_links (CommonMemoryPool.malloc_moved (c := c) h.heap.sound
    (mallocList_ne_pool (c := c) (j := r.manager) (k := (r.lm c).core)) hr.size_ne).2.links
  obtain ⟨-, rfl, -⟩ | ⟨-, rfl, -⟩ := resume_pool hstep
  · obtain ⟨hptr, hheap⟩ := h.heap.mallocPool hr.manager hr.size_ne
    exact .returns hquiet (h.pop hr.manager (h.heap.dealt_pool hr.manager) hheap rfl hptr) rfl
  · exact .waits hquiet

/-- **A granted range** is carved outside all blocks. -/
theorem serve_answers (hc : Setting c) (h : Owned c s q) (hr : RequestOk c s r)
    (hgranted : Granted s.heap c p (r.mmapSize c)) (hstep : serve c s th r p = .next s' th') :
    Answers c s r s' := by
  obtain ⟨-, heap, hheap, rfl⟩ := serve_next hstep
  obtain ⟨heap', hrun, hcarved, -, -, hinv, hbodies⟩ := h.heap.carveInto hc.fits
    (Nat.pos_of_ne_zero hr.size_ne) rfl hr.core_lt (listCore_mallocList hr.manager) hgranted
  obtain rfl := Option.some.inj (hrun.symm.trans hheap)
  obtain ⟨hptr, hlast⟩ := hinv.mallocLast (r.lm c) r.size
  have hpop := (h.carve hinv hcarved).pop hr.manager hinv.dealt_refl hlast rfl hptr
  have hcarve : Quietly s { s with heap := heap' } :=
    ⟨⟨_, hcarved.symm⟩, rfl, rfl, hbodies, h.heap.confined_carve hc.fits
      (Nat.pos_of_ne_zero hr.size_ne) rfl hr.core_lt hgranted hheap⟩
  have hlinks : Quietly { s with heap := heap' }
      { s with heap := ((r.lm c).mallocLast heap' r.size).2 } :=
    have hlinks := hinv.mallocLast_links (r.lm c) r.size
    ⟨List.prefix_refl _, rfl, rfl, hinv.sameBodies_links hlinks, hinv.confined_links rfl hlinks⟩
  exact .returns (hcarve.trans hlinks) hpop rfl

theorem Answers.after {s₁ : Shared} (hquiet : Quietly s s₁) (h : Answers c s₁ r s') :
    Answers c s r s' := by
  cases h with
  | waits hquiet' => exact .waits (hquiet.trans hquiet')
  | returns hquiet' hpop hs => exact .returns (hquiet.trans hquiet') hpop hs

/-- What first touch clears is in no block. -/
theorem allocate_answers (hc : Setting c) (h : Owned c s q) (hr : RequestOk c s r)
    (hfresh : s.heap.mm.needsExtension c (r.arena c main) (r.mmapSize c) = true →
      c.Fresh s.heap.mm.maps ret (align (MmapManager.allocSize (r.mmapSize c)) c.pageSize))
    (hstep : resume c main s th ret (.allocate r) = .next s' th') : Answers c s r s' := by
  obtain ⟨served, mm, touched, henter, hcases⟩ := resume_allocate hstep
  obtain ⟨hheap, -, hserved, -⟩ := h.heap.enter hc.force (Nat.le_of_lt hr.core_lt)
    (r.dvd_mmapSize c) (HeapInv.mmapSize_wrap hc.fits (Nat.pos_of_ne_zero hr.size_ne)) hfresh henter
  have howned : Owned c { s with heap := s.heap.touch mm touched } q :=
    h.reheap hheap rfl fun _ => Iff.rfl
  have hquiet : Quietly s { s with heap := s.heap.touch mm touched } := by
    obtain ⟨touch, htouch, hmm⟩ := Option.map_eq_some_iff.mp henter
    have hbodies := h.heap.touched_bodies (Nat.le_of_lt hr.core_lt) htouch
    have htouched : touch.2 = touched := by
      dsimp only at hmm
      split at hmm <;> exact congrArg (fun r => r.2.2) hmm
    exact ⟨List.prefix_refl _, rfl, rfl, htouched ▸ hbodies,
      h.heap.confined_touch (Nat.le_of_lt hr.core_lt) henter⟩
  obtain ⟨p, rfl, hserve⟩ | ⟨-, rfl, -⟩ := hcases
  · exact (serve_answers hc howned (hr.reheap rfl) (hserved p rfl) hserve).after hquiet
  · exact .waits hquiet

theorem reported_answers (hc : Setting c) (h : Owned c s q) (hr : RequestOk c s r)
    (hroom : Room c main s r)
    (hstep : resume c main s th ret (.printing r .reported) = .next s' th') :
    Answers c s r s' := by
  obtain ⟨hfit, hflag⟩ := hroom
  have ha : r.arena c main < c.threadN := hr.arena_lt
  obtain ⟨hrest, -⟩ | ⟨-, hserve⟩ := resume_reported hstep
  · rw [h.heap.arena.restSize_eq ha] at hrest
    exact absurd hfit (Nat.not_le.mpr hrest)
  · obtain ⟨hheap, hgranted⟩ := h.heap.serve ha hfit hflag (r.dvd_mmapSize c)
    let s₁ := s.setMm (s.heap.mm.serve (r.arena c main) (r.mmapSize c)).2
    have howned : Owned c s₁ q := h.reheap hheap rfl fun _ => Iff.rfl
    have hquiet : Quietly s s₁ := .of_eq rfl rfl rfl rfl rfl
    exact (serve_answers hc howned (hr.reheap rfl) hgranted hserve).after hquiet

end Malloc

section Functions

variable {c : Config} {main : Bool} {s s' : Shared} {th th' : Thread} {q : QueueId → List Nat}
  {f : Frame} {a : Action} {j size ptr ret : Nat} {rest : List Frame}

/-- `FreeLocalMemoryManager` moves blocks between lists. -/
theorem giveBack_quietly (h : Owned c s q) (hj : j < managerN c) :
    let r := freeLocalMemoryManager c s.heap.g s.heap.store j
    Quietly s { s with heap := { s.heap with g := r.1, store := r.2 } } := by
  rw [freeLocalMemoryManager]
  dsimp only
  split
  · obtain ⟨q', hmoved, -⟩ := handBack_moved hj h.heap.sound
    exact ⟨List.prefix_refl _, rfl, rfl, h.heap.sameBodies_links hmoved.links,
      h.heap.confined_links rfl hmoved.links⟩
  · exact .of_eq rfl rfl rfl rfl rfl

/-- One round of the flush moves blocks between lists. -/
theorem flush_quietly (h : Owned c s q) (hj : j < managerN c) {i : Nat} (hi : i < c.coreN) :
    Quietly s (s.setStore ((managerPools c j).flushCore s.heap.store i)) := by
  unfold flushCore
  split
  · exact h.quietly_links (h.heap.sound.join (freeLists_ne_pool (n := i) hj hi).symm).links
  · exact Quietly.refl s

/-- **Every function, from a mutex operation on.** -/
theorem resume_effect (hc : Setting c) (h : Owned c s q) (hstack : th.stack = f :: rest)
    (hf : FrameOk c main s f)
    (hfresh : ∀ r, f = .allocate r →
      s.heap.mm.needsExtension c (r.arena c main) (r.mmapSize c) = true →
      c.Fresh s.heap.mm.maps ret (align (MmapManager.allocSize (r.mmapSize c)) c.pageSize))
    (hstep : resume c main s { th with stack := rest } ret f = .next s' th') :
    Effect c s th (.resume ret) s' := by
  have hnot : ∀ x v, Action.resume ret ≠ .store x v := fun _ _ => by simp
  have hcaller : ∀ r, f.request = some r →
      (Action.resume ret).caller? s th = some r.caller := fun r hr => by
    simp [Action.caller?, hstack, hr]
  cases f with
  | pool r =>
      exact .answer (by simp [Action.frees?, hstack]) hnot (hcaller r rfl) hf
        (pool_answers h hf hstep)
  | allocate r =>
      exact .answer (by simp [Action.frees?, hstack]) hnot (hcaller r rfl) hf
        (allocate_answers hc h hf (hfresh r rfl) hstep)
  | printing r phase =>
      obtain ⟨hr, hroom, hphase⟩ := hf
      cases phase with
      | extended | reporting =>
          obtain ⟨rfl, -⟩ := Result.next.inj hstep
          exact .quiet (Quietly.refl _) (by simp [Action.frees?, hstack]) hnot
      | reported =>
          exact .answer (by simp [Action.frees?, hstack]) hnot (hcaller r rfl) hr
            (reported_answers hc h hr hroom hstep)
      | exhausted => exact absurd rfl hphase
  | freeing j ptr =>
      obtain ⟨rfl, -⟩ := Result.next.inj hstep
      exact .free hf.1 (by simp [Action.frees?, hstack]) hf.2 hnot rfl
  | release j =>
      obtain ⟨rfl, -⟩ := Result.next.inj hstep
      exact .quiet (giveBack_quietly h hf) (by simp [Action.frees?, hstack]) hnot
  | flush j i =>
      obtain ⟨rfl, -⟩ := Result.next.inj hstep
      exact .quiet (flush_quietly h hf.1 hf.2) (by simp [Action.frees?, hstack]) hnot

/-- A call of `malloc` by a caller other than `realloc`. -/
theorem malloc_effect (h : Owned c s q) (hlease : ∀ j, th.lp = some j → j < managerN c)
    {caller : Caller} (hcaller : caller.old = none) (hsize : size < 2 ^ 64)
    (hfrees : a.frees? th = none) (hnot : ∀ x v, a ≠ .store x v)
    (ha : a.caller? s th = some caller) (hstep : malloc c s th size caller = .next s' th') :
    Effect c s th a s' := by
  obtain ⟨-, rfl, -⟩ | ⟨j, hne, hlp, henter⟩ := malloc_next hstep
  · exact .quiet (Quietly.refl _) hfrees hnot
  · have hr : RequestOk c s ⟨j, size, caller⟩ := by
      refine ⟨hlease j hlp, hne, hsize, fun ptr preSize heq => ?_⟩
      obtain rfl : caller = _ := heq
      exact absurd hcaller (by simp [Caller.old])
    exact .answer hfrees hnot ha hr (enterMalloc_answers h hr henter)

/-- **Every action.** -/
theorem act_effect (hc : Setting c) (h : Owned c s q)
    (hlease : ∀ j, th.lp = some j → j < managerN c)
    (hframes : ∀ f ∈ th.stack, FrameOk c main s f) (hok : ActOk c main s th a)
    (hstep : act c main s th a = .next s' th') : Effect c s th a s' := by
  cases a with
  | start core =>
      obtain ⟨rfl, -⟩ := Result.next.inj hstep
      exact .quiet (.of_eq rfl rfl rfl rfl rfl) rfl (by simp)
  | exit =>
      rw [act, threadTerm] at hstep
      split at hstep
      case h_1 =>
        obtain ⟨rfl, -⟩ := Result.next.inj hstep
        exact .quiet (Quietly.refl _) rfl (by simp)
      case h_2 j hlp =>
        obtain ⟨rfl, -⟩ := Result.next.inj hstep
        exact .quiet (giveBack_quietly h (hlease j hlp)) rfl (by simp)
  | malloc size => exact malloc_effect h hlease rfl hok rfl (by simp) rfl hstep
  | calloc nmemb size =>
      rw [act, calloc] at hstep
      split at hstep
      · obtain ⟨rfl, -⟩ := Result.next.inj hstep
        exact .quiet (Quietly.refl _) rfl (by simp)
      · exact malloc_effect h hlease rfl (u64_lt _) rfl (by simp) rfl hstep
  | realloc ptr size =>
      obtain ⟨hsize, hlive⟩ := hok
      obtain ⟨hnull, hmalloc⟩ | ⟨hne, -, -, rfl⟩ | ⟨j, hne, hlt, hlp, henter⟩ := realloc_next hstep
      · exact malloc_effect h hlease rfl hsize rfl (by simp) (by simp [Action.caller?, hnull]) hmalloc
      · exact .keep rfl hne rfl
      · have hr := h.requestOk_realloc (hlease j hlp) hsize (hlive hne) hlt
        exact .answer rfl (by simp) (by simp [Action.caller?, hne]) hr (enterMalloc_answers h hr henter)
  | free ptr =>
      obtain ⟨hnull, rfl, -⟩ | ⟨-, hlp, hlate⟩ | ⟨j, hne, hlp, rfl, -⟩ := free_next hstep
      · exact .quiet (Quietly.refl _) (by simp [Action.frees?, hnull]) (by simp)
      · obtain ⟨j, -, -, rfl⟩ := lateFree_next hlate
        exact .quiet (.of_eq rfl rfl rfl rfl rfl)
          (by simp [Action.frees?, hlp]) (by simp)
      · exact .free (hlease j hlp) (by simp [Action.frees?, hne, hlp]) (hok hne) (by simp) rfl
  | allFree =>
      obtain ⟨j, -, rfl, -⟩ := allFree_next hstep
      exact .quiet (Quietly.refl _) rfl (by simp)
  | store addr v =>
      obtain ⟨rfl, -⟩ := Result.next.inj hstep
      exact .store rfl rfl
  | resume ret =>
      rw [act] at hstep
      split at hstep
      · exact absurd hstep (by simp)
      case h_2 f rest hstack =>
        exact resume_effect hc h hstack (hframes f (by simp [hstack]))
          (fun r heq => hok r (by simp [hstack, heq])) hstep

end Functions

end FCMalloc.Machine
