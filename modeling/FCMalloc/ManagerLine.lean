import FCMalloc.ClientRefinement
import FCMalloc.LeaseRefinement
import FCMalloc.Library.Fifo
import FCMalloc.MallocPaths

/-!
# FCMalloc.ManagerLine

The blocks of a manager as one queue for each class.

A manager keeps the blocks of a class on two lists: `Malloc` takes from `malloc_`, `Free` puts
blocks of the manager's own core on `free_[core_]`, and when the first is empty the two are
exchanged. `line` reads both as one queue, and each section of a call takes from its front or
adds to its back (`Draws`, `line_free`), as long as `free_[core_]` is empty in the sections
after the exchange. `Passes` puts this together for a step of the thread that has leased the
manager, and `act_passes` shows it of every step.
-/

namespace FCMalloc

open ByteMemory GlobalMemoryManager LocalMemoryManager

/-- The pointers handed out in an event for requests of class `i`. -/
def takenOf {β : Type*} (i : SizeClass) : HeapEvent β → List Nat
  | .alloc size p | .zalloc size p | .move _ p size => if sizeClass size = i then [p] else []
  | .free _ | .write _ _ | .quiet => []

/-- The pointers given up in an event. -/
def givenUpOf {β : Type*} : HeapEvent β → List Nat
  | .free p | .move p _ _ => [p]
  | .alloc _ _ | .zalloc _ _ | .write _ _ | .quiet => []

namespace LocalMemoryManager

/-- **The blocks of class `i` in a manager**, as pointers, in the order of their use. -/
def line (m : LocalMemoryManager) (i : SizeClass) (q : QueueId → List Nat) : List Nat :=
  (q (m.ownQueue i) ++ q (m.coreQueue i)).map (· + headerSize)

/-- Whether a block is of the manager's core and of class `i`, by its header. -/
def isHome (m : LocalMemoryManager) (i : SizeClass) (mem : Memory) (p : Nat) : Bool :=
  MemUtil.ptrToCore mem p = m.core && sizeClass (MemUtil.ptrToSize mem p) = i

end LocalMemoryManager

namespace Machine

/-! ### The sections of `Malloc` -/

/-- A section takes `out` from class `i₀` of the manager, and puts nothing on `free_[core_]`. -/
structure Draws (m : LocalMemoryManager) (i₀ : SizeClass) (q q' : QueueId → List Nat)
    (out : List Nat) : Prop where
  flows : ∀ i, ∃ arrived, Flows (m.line i q) (if i₀ = i then out else []) arrived (m.line i q')
  core : ∀ i, q (m.coreQueue i) = [] → q' (m.coreQueue i) = []

/-- What a null pointer stands for is no pointer. -/
def handedOut (ptr : Nat) : List Nat := if ptr = 0 then [] else [ptr]

section Draws

variable {c : Config} {m : LocalMemoryManager} {i i₀ : SizeClass} {q q' q'' : QueueId → List Nat}
  {xs : List Nat} {j : Nat} {out : List Nat}

theorem handedOut_frontBody (xs : List Nat) :
    handedOut (frontBody xs) = (xs.take 1).map (· + headerSize) := by
  cases xs with
  | nil => rfl
  | cons a t => exact if_neg frontBody_cons_ne_zero

theorem ownQueue_ne_coreQueue (hj : j < managerN c) (i i' : SizeClass) :
    (managerPools c j).ownQueue i ≠ (managerPools c j).coreQueue i' := fun heq =>
  mallocList_ne_freeLists hj hj (core_lt hj) (congrArg Prod.fst heq)

theorem Draws.refl : Draws m i₀ q q [] where
  flows i := ⟨[], by simpa using Flows.refl (m.line i q)⟩
  core _ := id

theorem Draws.trans (h : Draws m i₀ q q' []) (h' : Draws m i₀ q' q'' out) :
    Draws m i₀ q q'' out where
  flows i := by
    obtain ⟨arrived, hflows⟩ := h.flows i
    obtain ⟨arrived', hflows'⟩ := h'.flows i
    exact ⟨arrived ++ arrived', by simpa using hflows.trans hflows'⟩
  core i hcore := h'.core i (h.core i hcore)

/-- Blocks that come to `malloc_` come last, as long as `free_[core_]` is empty. -/
theorem Draws.arrive (hne : ∀ i i', m.ownQueue i ≠ m.coreQueue i')
    (hempty : q (m.coreQueue i₀) = []) (xs : List Nat) :
    Draws m i₀ q (enqueue q (m.ownQueue i₀) xs) [] where
  flows i := by
    simp only [ite_self]
    unfold LocalMemoryManager.line enqueue
    rw [Function.update_of_ne (hne i₀ i).symm]
    by_cases hi : i₀ = i
    · subst hi
      rw [Function.update_self, hempty, List.append_nil, List.append_nil, List.map_append]
      exact ⟨_, Flows.arrive _ _⟩
    · rw [Function.update_of_ne fun heq => hi (congrArg Prod.snd heq).symm]
      exact ⟨[], Flows.refl _⟩
  core i hcore := by
    rw [enqueue, Function.update_of_ne (hne i₀ i).symm]
    exact hcore

/-- **The front of `malloc_`** is the front of the line. -/
theorem Draws.front (hne : ∀ i i', m.ownQueue i ≠ m.coreQueue i') {ptr : Nat}
    (hptr : ptr = frontBody (q (m.ownQueue i₀))) :
    Draws m i₀ q (dequeue q (m.ownQueue i₀)) (handedOut ptr) where
  flows i := by
    refine ⟨[], ?_⟩
    rw [hptr, handedOut_frontBody]
    unfold LocalMemoryManager.line dequeue
    rw [Function.update_of_ne (hne i₀ i).symm]
    by_cases hi : i₀ = i
    · subst hi
      rw [if_pos rfl, Function.update_self]
      cases hq : q (m.ownQueue i₀) with
      | nil => exact Flows.refl _
      | cons a t => exact Flows.leave _ _
    · rw [if_neg hi, Function.update_of_ne fun heq => hi (congrArg Prod.snd heq).symm]
      exact Flows.refl _
  core i hcore := by
    rw [dequeue, Function.update_of_ne (hne i₀ i).symm]
    exact hcore

theorem ownQueues_of_ne_nil (hown : q (m.ownQueue i) ≠ []) : m.ownQueues q i = q := if_neg hown

/-- **The exchange** of the two lists leaves the line as it is, and `free_[core_]` empty. -/
theorem Draws.exchange (hne : ∀ i i', m.ownQueue i ≠ m.coreQueue i') :
    Draws m i₀ q (m.ownQueues q i₀) [] := by
  by_cases hown : q (m.ownQueue i₀) = []
  · rw [ownQueues_of_nil hown]
    constructor
    case flows =>
      intro i
      simp only [ite_self]
      refine ⟨[], ?_⟩
      unfold LocalMemoryManager.line swapped
      by_cases hi : i₀ = i
      · subst hi
        rw [Function.update_of_ne (hne i₀ i₀), Function.update_self, Function.update_self, hown,
          List.append_nil, List.nil_append]
        exact Flows.refl _
      · have hi' : ∀ l l' : ListId, ((l, i) : QueueId) ≠ (l', i₀) := fun l l' heq =>
          hi (congrArg Prod.snd heq).symm
        simp only [ownQueue, coreQueue, Function.update_of_ne (hi' _ _)]
        exact Flows.refl _
    case core =>
      intro i hcore
      unfold swapped
      by_cases hi : i₀ = i
      · subst hi
        rw [Function.update_self, hown]
      · have hi' : m.coreQueue i ≠ m.coreQueue i₀ := fun heq => hi (congrArg Prod.snd heq).symm
        rw [Function.update_of_ne hi', Function.update_of_ne (hne i₀ i).symm]
        exact hcore
  · rw [ownQueues_of_ne_nil hown]
    exact .refl

/-- After the exchange `malloc_` is empty only if `free_[core_]` is. -/
theorem ownQueues_core (h : m.ownQueues q i (m.ownQueue i) = []) :
    m.ownQueues q i (m.coreQueue i) = [] := by
  by_cases hown : q (m.ownQueue i) = []
  · rw [ownQueues_of_nil hown, swapped, Function.update_self, hown]
  · rw [ownQueues_of_ne_nil hown] at h
    exact absurd h hown

/-- **A batch of the pool** comes to `malloc_`. -/
theorem Draws.pool (hne : ∀ i i', m.ownQueue i ≠ m.coreQueue i')
    (hpool : ∀ i i', m.poolQueue i ≠ m.ownQueue i' ∧ m.poolQueue i ≠ m.coreQueue i')
    (hempty : q (m.coreQueue i₀) = []) :
    Draws m i₀ q (CommonMemoryPool.poolQueues c q m.mallocList m.core i₀) [] := by
  have harrive := Draws.arrive hne hempty ((q (m.poolQueue i₀)).take (c.nPerSize i₀).toNat)
  have hsame : ∀ k, k ≠ m.poolQueue i₀ → CommonMemoryPool.poolQueues c q m.mallocList m.core i₀ k =
      enqueue q (m.ownQueue i₀) ((q (m.poolQueue i₀)).take (c.nPerSize i₀).toNat) k := fun k hk =>
    Function.update_of_ne hk _ _
  constructor
  case flows =>
    intro i
    have hflows := harrive.flows i
    unfold LocalMemoryManager.line at hflows ⊢
    rw [hsame _ (hpool i₀ i).1.symm, hsame _ (hpool i₀ i).2.symm]
    exact hflows
  case core =>
    intro i hcore
    rw [hsame _ (hpool i₀ i).2.symm]
    exact harrive.core i hcore

/-- **A block that comes back** to a manager joins the line of its class if it is of the
manager's core, and no line otherwise. -/
theorem line_free (hj : j < managerN c) {k : Nat} (hk : k < c.coreN) (i i' : SizeClass) (a : Nat) :
    let m := managerPools c j
    m.line i (enqueue q (m.freeLists k, i') [a]) =
      m.line i q ++ if k = m.core ∧ i' = i then [a + headerSize] else [] := by
  intro m
  have hown : m.ownQueue i ≠ (m.freeLists k, i') := fun heq =>
    mallocList_ne_freeLists hj hj hk (congrArg Prod.fst heq)
  unfold LocalMemoryManager.line enqueue
  rw [Function.update_of_ne hown]
  split
  case isTrue heq =>
    obtain ⟨rfl, rfl⟩ := heq
    rw [show m.coreQueue i' = (m.freeLists m.core, i') from rfl, Function.update_self,
      ← List.append_assoc, List.map_append]
    rfl
  case isFalse hne =>
    rw [Function.update_of_ne, List.append_nil]
    intro heq
    obtain ⟨hl, rfl⟩ := Prod.mk.inj heq
    exact hne ⟨((freeLists_inj hj hj (core_lt hj) hk hl).2).symm, rfl⟩

end Draws

/-- **A section of `Malloc`** for `r` from queues `q`: it returns what it has drawn, or it has
drawn nothing, and goes on later with `free_[core_]` empty in its class. -/
inductive Serves (c : Config) (s : Shared) (th : Thread) (q : QueueId → List Nat) (r : Request)
    (s' : Shared) (th' : Thread) : Prop
  | waits {q' : QueueId → List Nat} {f : Frame} : HeapInv c s'.heap q' →
      s'.returned = s.returned → Draws (r.lm c) (sizeClass r.size) q q' [] →
      q' ((r.lm c).coreQueue (sizeClass r.size)) = [] → th' = th.push f → f.request = some r →
      Serves c s th q r s' th'
  | returns {s₁ : Shared} {q₁ : QueueId → List Nat} {ptr : Nat} : Popped c s₁ q₁ r ptr →
      Draws (r.lm c) (sizeClass r.size) q q₁ (handedOut ptr) →
      s.heap.carved ⊆ s₁.heap.carved → s₁.live = s.live → s₁.returned = s.returned →
      s' = s₁.finish c r ptr → th' = th → Serves c s th q r s' th'

section Sections

variable {c : Config} {main : Bool} {s s' : Shared} {th th' : Thread} {q : QueueId → List Nat}
  {r : Request} {p ret : Nat}

/-- **The manager's own lists.** -/
theorem enterMalloc_serves (h : Owned c s q) (hr : RequestOk c s r)
    (hstep : enterMalloc c s th r = .next s' th') : Serves c s th q r s' th' := by
  have hne := ownQueue_ne_coreQueue hr.manager
  obtain ⟨hptr, hheap⟩ := h.heap.mallocOwn hr.manager r.size
  have hpop := h.pop hr.manager (h.heap.dealt_own hr.manager) hheap rfl hptr
  have hdraws : Draws (r.lm c) (sizeClass r.size) q _
      (handedOut ((r.lm c).mallocOwn s.heap.store r.size).1) :=
    (Draws.exchange hne).trans (.front hne hptr)
  obtain ⟨hzero, -⟩ | ⟨-, -, rfl, rfl⟩ | ⟨-, hnull, rfl, rfl⟩ := enterMalloc_next hstep
  · exact absurd hzero hr.size_ne
  · exact .returns hpop hdraws (List.Subset.refl _) rfl rfl rfl rfl
  · rw [handedOut, if_pos hnull] at hdraws
    refine .waits hheap rfl hdraws ?_ rfl rfl
    refine (Function.update_of_ne (hne _ _).symm _ _).trans ?_
    exact ownQueues_core (frontBody_eq_zero.mp (hptr.symm.trans hnull))

/-- **The common pool.** -/
theorem pool_serves (h : Owned c s q) (hr : RequestOk c s r)
    (hempty : q ((r.lm c).coreQueue (sizeClass r.size)) = [])
    (hstep : resume c main s th ret (.pool r) = .next s' th') : Serves c s th q r s' th' := by
  have hne := ownQueue_ne_coreQueue hr.manager
  have hpool : ∀ i i', (r.lm c).poolQueue i ≠ (r.lm c).ownQueue i' ∧
      (r.lm c).poolQueue i ≠ (r.lm c).coreQueue i' := fun i i' =>
    ⟨fun heq => mallocList_ne_pool (congrArg Prod.fst heq).symm,
      fun heq => freeLists_ne_pool hr.manager hr.core_lt (congrArg Prod.fst heq).symm⟩
  obtain ⟨hptr, hheap⟩ := h.heap.mallocPool hr.manager hr.size_ne
  have hpop := h.pop hr.manager (h.heap.dealt_pool hr.manager) hheap rfl hptr
  have hdraws : Draws (r.lm c) (sizeClass r.size) q _ (handedOut (CommonMemoryPool.malloc c
      s.heap.store (r.lm c).mallocList (r.lm c).core r.size).1) :=
    (Draws.pool hne hpool hempty).trans (.front hne hptr)
  obtain ⟨-, rfl, rfl⟩ | ⟨hnull, rfl, rfl⟩ := resume_pool hstep
  · exact .returns hpop hdraws (List.Subset.refl _) rfl rfl rfl rfl
  · rw [handedOut, if_pos hnull] at hdraws
    exact .waits hheap rfl hdraws (hdraws.core _ hempty) rfl rfl

/-- **A granted range** is carved behind `malloc_`. -/
theorem serve_serves (hc : Setting c) (h : Owned c s q) (hr : RequestOk c s r)
    (hempty : q ((r.lm c).coreQueue (sizeClass r.size)) = [])
    (hgranted : Granted s.heap c p (r.mmapSize c)) (hstep : serve c s th r p = .next s' th') :
    Serves c s th q r s' th' := by
  have hne := ownQueue_ne_coreQueue hr.manager
  obtain ⟨rfl, heap, ptr, hcarved, -, -, hptr, hpop, rfl⟩ := serve_popped hc h hr hgranted hstep
  let new := blocksFrom p (totalSize r.size) (r.lm c).core (bodySize r.size) (r.n c)
  have hfront : ptr = frontBody (enqueue q ((r.lm c).ownQueue (sizeClass r.size))
      (new.map Block.addr) ((r.lm c).ownQueue (sizeClass r.size))) := by
    rw [enqueue, Function.update_self]
    exact hptr
  have hdraws : Draws (r.lm c) (sizeClass r.size) q _ (handedOut ptr) :=
    (Draws.arrive hne hempty (new.map Block.addr)).trans (.front hne hfront)
  exact .returns hpop hdraws (hcarved ▸ List.subset_append_left _ _) rfl rfl rfl rfl

/-- **The arena.** -/
theorem allocate_serves (hc : Setting c) (h : Owned c s q) (hr : RequestOk c s r)
    (hempty : q ((r.lm c).coreQueue (sizeClass r.size)) = [])
    (hfresh : s.heap.mm.needsExtension c (r.arena c main) (r.mmapSize c) = true →
      c.Fresh s.heap.mm.maps ret (align (MmapManager.allocSize (r.mmapSize c)) c.pageSize))
    (hstep : resume c main s th ret (.allocate r) = .next s' th') : Serves c s th q r s' th' := by
  obtain ⟨mm, touched, hown, -, hcases⟩ := allocate_granted hc h hr hfresh hstep
  obtain ⟨p, hgranted, hserve⟩ | ⟨rfl, rfl, -⟩ := hcases
  · cases serve_serves hc hown (hr.reheap rfl) hempty hgranted hserve with
    | waits hheap hret hdraws hcore hth hf => exact .waits hheap hret hdraws hcore hth hf
    | returns hpop hdraws hsub hlive hret hs hth =>
        exact .returns hpop hdraws hsub hlive hret hs hth
  · exact .waits hown.heap rfl .refl hempty rfl rfl

/-- **After the report.** -/
theorem reported_serves (hc : Setting c) (h : Owned c s q) (hr : RequestOk c s r)
    (hempty : q ((r.lm c).coreQueue (sizeClass r.size)) = []) (hroom : Room c main s r)
    (hstep : resume c main s th ret (.printing r .reported) = .next s' th') :
    Serves c s th q r s' th' := by
  obtain ⟨p, mm, hown, -, hgranted, hserve⟩ := reported_granted h hr hroom hstep
  cases serve_serves hc hown (hr.reheap rfl) hempty hgranted hserve with
  | waits hheap hret hdraws hcore hth hf => exact .waits hheap hret hdraws hcore hth hf
  | returns hpop hdraws hsub hlive hret hs hth => exact .returns hpop hdraws hsub hlive hret hs hth

end Sections

/-! ### The steps of the holder -/

/-- **What a step of the holder does** to the lines of its manager `m`, in which the program
sees `e`: what is handed out leaves at the front, and what is given up comes to the back,
among other blocks. The calls under way have found `free_[core_]` empty. -/
structure Passes (m : LocalMemoryManager) (mem : Memory) (q q' : QueueId → List Nat)
    (th' : Thread) (e : HeapEvent UInt8) : Prop where
  flows : ∀ i, ∃ later, ((givenUpOf e).filter (m.isHome i mem)).Sublist later ∧
    Flows (m.line i q) (takenOf i e) later (m.line i q')
  passed : ∀ f ∈ th'.stack, ∀ r, f.request = some r → q' (m.coreQueue (sizeClass r.size)) = []

section Passes

variable {c : Config} {main : Bool} {s s' : Shared} {th th' th₀ : Thread}
  {q q' : QueueId → List Nat} {r : Request} {ptr old j : Nat} {mem : Memory} {b : Block}
  {m : LocalMemoryManager} {i : SizeClass} {a : Action}

/-- A step that leaves the two lists alone, in which the program asks for nothing. -/
theorem Passes.still {e : HeapEvent UInt8} (htaken : ∀ i, takenOf i e = [])
    (hgiven : givenUpOf e = []) (hown : ∀ i, q' (m.ownQueue i) = q (m.ownQueue i))
    (hcore : ∀ i, q' (m.coreQueue i) = q (m.coreQueue i))
    (hpassed : ∀ f ∈ th'.stack, ∀ r, f.request = some r →
      q (m.coreQueue (sizeClass r.size)) = []) : Passes m mem q q' th' e where
  flows i := by
    rw [htaken, hgiven]
    refine ⟨[], List.Sublist.refl _, ?_⟩
    unfold LocalMemoryManager.line
    rw [hown, hcore]
    exact Flows.refl _
  passed f hf r hr := (hcore _).trans (hpassed f hf r hr)

theorem takenOf_answer (caller : Caller) (core size ptr : Nat) (i : SizeClass) :
    takenOf i (caller.answer ⟨some core, size, ptr⟩) =
      if sizeClass size = i then handedOut ptr else [] := by
  unfold Caller.answer handedOut
  by_cases hptr : ptr = 0
  · simp [hptr, takenOf]
  · cases caller <;> simp [hptr, takenOf]

theorem givenUpOf_answer (caller : Caller) (core size ptr : Nat) :
    givenUpOf (caller.answer ⟨some core, size, ptr⟩) =
      if ptr = 0 then [] else caller.old.toList := by
  unfold Caller.answer
  by_cases hptr : ptr = 0
  · simp [hptr, givenUpOf]
  · cases caller <;> simp [hptr, givenUpOf, Caller.old]

theorem filter_isHome (h : HeapInv c s.heap q) (hb : b ∈ s.heap.carved) :
    [b.body].filter (m.isHome i s.heap.store.mem) =
      if b.core = m.core ∧ sizeClass b.size = i then [b.body] else [] := by
  simp [List.filter_singleton, isHome, h.ptrToCore hb, h.ptrToSize hb]

/-- **A block that comes back** while no call is under way. -/
theorem line_free_home (h : HeapInv c s.heap q) (hb : b ∈ s.heap.carved) (hj : j < managerN c)
    (i : SizeClass) (q₁ : QueueId → List Nat) :
    let m := managerPools c j
    Flows (m.line i q₁) [] ([b.body].filter (m.isHome i s.heap.store.mem))
      (m.line i (enqueue q₁ (m.freeLists b.core, sizeClass b.size) [b.addr])) := by
  intro m
  rw [line_free hj (h.blocks b hb).core_lt, filter_isHome h hb]
  exact Flows.arrive _ _

/-- Only `realloc` gives a pointer up when `Malloc` returns. -/
theorem old_of_finish_given (hgrow : Growing s r) (hptr : ptr ≠ 0)
    (heq : s.finish c r ptr = s.given c r ptr mem) : r.caller.old = none := by
  cases hcaller : r.caller with
  | malloc | calloc => rfl
  | realloc old preSize =>
      have hlive := (hgrow old preSize hcaller).1
      have hsame : s.live.erase old = s.live := by
        simpa [Shared.finish, Shared.given, hptr, hcaller] using congrArg Shared.live heq
      have hlen := congrArg List.length hsame
      rw [List.length_erase_of_mem hlive] at hlen
      have := List.length_pos_of_mem hlive
      omega

/-- **`Malloc` returns**, and its caller after it: a block that `realloc` gives up joins the
line. -/
theorem Popped.finish_line {s₁ : Shared} {q₁ : QueueId → List Nat} (hpop : Popped c s₁ q₁ r ptr)
    (h : Owned c s q) (hr : RequestOk c s r) (hsub : s.heap.carved ⊆ s₁.heap.carved)
    (hlive : s₁.live = s.live) :
    let m := r.lm c
    let e := r.caller.answer ⟨some m.core, r.size, ptr⟩
    ∃ q', HeapInv c (s₁.finish c r ptr).heap q' ∧ (r.caller.old = none → q' = q₁) ∧
      ∀ i, Flows (m.line i q₁) [] ((givenUpOf e).filter (m.isHome i s.heap.store.mem))
        (m.line i q') := by
  intro m e
  have hgrow : Growing s₁ r := by
    intro old preSize heq
    obtain ⟨hold, hlt, b, hb, hbody, hsize⟩ := hr.grows old preSize heq
    exact ⟨hlive ▸ hold, hlt, b, hsub hb, hbody, hsize⟩
  have hgives : givenUpOf e = if ptr = 0 then [] else r.caller.old.toList := givenUpOf_answer ..
  obtain ⟨hown, heq⟩ | ⟨hptr, mem, hgiven, heq | ⟨b, hb, hold, hblive, heq⟩⟩ :=
    hpop.finish_cases hr.size_lt hgrow
  · have hnull : ptr = 0 := by
      have hhead := congrArg Shared.returned heq
      rw [finish_returned] at hhead
      exact congrArg Returned.ptr (List.cons.inj hhead).1
    rw [if_pos hnull] at hgives
    rw [hgives, heq]
    exact ⟨q₁, hown.heap, fun _ => rfl, fun i => Flows.refl _⟩
  · have hnone := old_of_finish_given hgrow hptr heq
    rw [if_neg hptr, hnone] at hgives
    rw [hgives, heq]
    exact ⟨q₁, hgiven.heap, fun _ => rfl, fun i => Flows.refl _⟩
  · rw [if_neg hptr, hold] at hgives
    have hloose := (hgiven.live_iff b hb).mp (List.mem_cons_of_mem ptr hblive)
    obtain ⟨b', hb', hbody⟩ := h.live_carved b.body (hlive ▸ hblive)
    obtain rfl := hgiven.heap.body_inj (hsub hb') hb hbody
    rw [hgives, heq]
    exact ⟨_, hgiven.heap.free hr.manager hb hloose, fun hnone => absurd (hold ▸ hnone) (by simp),
      fun i => line_free_home h.heap hb' hr.manager i q₁⟩

/-- **A section of `Malloc`** below which no call is under way, or which gives nothing up. -/
theorem Serves.passes (hserves : Serves c s th q r s' th') (h : Owned c s q) (hr : RequestOk c s r)
    (hbelow : th.stack = [] ∨ r.caller.old = none)
    (hpassed : ∀ f ∈ th.stack, ∀ r', f.request = some r' →
      q ((r.lm c).coreQueue (sizeClass r'.size)) = [])
    (hnot : ∀ x v, a ≠ .store x v) (hfrees : a.frees? th₀ = none)
    (hcaller : a.caller? s th₀ = some r.caller) :
    ∃ q', HeapInv c s'.heap q' ∧
      Passes (r.lm c) s.heap.store.mem q q' th' (seen s th₀ a s') := by
  cases hserves with
  | @waits q' f hheap hret hdraws hcore hth hf =>
      rw [seen_of_quiet hnot hfrees hret]
      refine ⟨q', hheap, fun i => ?_, fun g hg r' hr' => ?_⟩
      · obtain ⟨arrived, hflows⟩ := hdraws.flows i
        exact ⟨arrived, List.nil_sublist _, by simpa [takenOf] using hflows⟩
      · rw [hth, Thread.push] at hg
        rcases List.mem_cons.mp hg with rfl | hg
        · obtain rfl := Option.some.inj (hf.symm.trans hr')
          exact hcore
        · exact hdraws.core _ (hpassed g hg r' hr')
  | @returns s₁ q₁ ptr hpop hdraws hsub hlive hret hs hth =>
      have hreturned : s'.returned = ⟨some (r.lm c).core, r.size, ptr⟩ :: s.returned := by
        rw [hs, finish_returned, hret]
      rw [seen_of_answer hnot hfrees hcaller hreturned]
      obtain ⟨q', hheap, hsame, hjoins⟩ := hpop.finish_line h hr hsub hlive
      refine ⟨q', hs ▸ hheap, fun i => ?_, fun f hf r' hr' => ?_⟩
      · obtain ⟨arrived, hflows⟩ := hdraws.flows i
        rw [takenOf_answer]
        exact ⟨_, List.sublist_append_right arrived _, by simpa using hflows.trans (hjoins i)⟩
      · rw [hth] at hf
        obtain hnil | hnone := hbelow
        · exact absurd (hnil ▸ hf) List.not_mem_nil
        · rw [hsame hnone]
          exact hdraws.core _ (hpassed f hf r' hr')

/-- A step in which the program sees nothing and no list changes. -/
theorem Passes.same (hpassed : ∀ f ∈ th'.stack, ∀ r, f.request = some r →
    q (m.coreQueue (sizeClass r.size)) = []) : Passes m mem q q th' .quiet :=
  .still (fun _ => rfl) rfl (fun _ => rfl) (fun _ => rfl) hpassed

/-- A flush works on one list of another core and on its pool. -/
theorem flushQueues_ne {k : Nat} {l : ListId} (hpool : l ≠ .poolsPerCore k)
    (hfree : k ≠ m.core → l ≠ m.freeLists k) (i : SizeClass) :
    HeapInv.flushQueues m q k (l, i) = q (l, i) := by
  unfold HeapInv.flushQueues
  split
  case isTrue hne => exact Rep.joined_of_ne hpool (hfree hne)
  case isFalse => rfl

/-- **A function that goes on**, which is none of `GlobalMemoryManager::Free`. -/
theorem resume_passes {f : Frame} {rest : List Frame} {ret : Nat} (hc : Setting c)
    (h : Owned c s q) (hj : j < managerN c) (hstack : th.stack = f :: rest)
    (hf : FrameOk c main s f) (hlease : f.lease? = none)
    (hmanager : ∀ r, f.request = some r → r.manager = j)
    (hbelow : rest = [] ∨ f.pending = none)
    (hpassed : ∀ g ∈ f :: rest, ∀ r, g.request = some r →
      q ((managerPools c j).coreQueue (sizeClass r.size)) = [])
    (hfresh : ∀ r, f = .allocate r →
      s.heap.mm.needsExtension c (r.arena c main) (r.mmapSize c) = true →
      c.Fresh s.heap.mm.maps ret (align (MmapManager.allocSize (r.mmapSize c)) c.pageSize))
    (hstep : resume c main s { th with stack := rest } ret f = .next s' th') :
    ∃ q', HeapInv c s'.heap q' ∧ Passes (managerPools c j) s.heap.store.mem q q' th'
      (seen s th (.resume ret) s') := by
  have hnot : ∀ x v, Action.resume ret ≠ .store x v := fun _ _ => by simp
  have hcaller : ∀ r, f.request = some r →
      (Action.resume ret).caller? s th = some r.caller := fun r hr => by
    simp [Action.caller?, hstack, hr]
  have hrest : ∀ g ∈ rest, ∀ r, g.request = some r →
      q ((managerPools c j).coreQueue (sizeClass r.size)) = [] := fun g hg =>
    hpassed g (List.mem_cons_of_mem f hg)
  cases f with
  | pool r =>
      obtain rfl := hmanager r rfl
      exact (pool_serves h hf (hpassed _ List.mem_cons_self r rfl) hstep).passes h hf hbelow hrest
        hnot (by simp [Action.frees?, hstack]) (hcaller r rfl)
  | allocate r =>
      obtain rfl := hmanager r rfl
      exact (allocate_serves hc h hf (hpassed _ List.mem_cons_self r rfl) (hfresh r rfl)
        hstep).passes h hf hbelow hrest hnot (by simp [Action.frees?, hstack]) (hcaller r rfl)
  | printing r phase =>
      obtain rfl := hmanager r rfl
      obtain ⟨hr, hroom, hphase⟩ := hf
      have hempty := hpassed _ List.mem_cons_self r rfl
      cases phase with
      | extended | reporting =>
          obtain ⟨rfl, rfl⟩ := Result.next.inj hstep
          rw [seen_of_quiet hnot (by simp [Action.frees?, hstack]) rfl]
          refine ⟨q, h.heap, .same fun g hg r' hr' => ?_⟩
          rcases List.mem_cons.mp hg with rfl | hg
          · obtain rfl := Option.some.inj hr'
            exact hempty
          · exact hrest g hg r' hr'
      | reported =>
          exact (reported_serves hc h hr hempty hroom hstep).passes h hr hbelow hrest
            hnot (by simp [Action.frees?, hstack]) (hcaller r rfl)
      | exhausted => exact absurd rfl hphase
  | freeing | release => exact absurd hlease (by simp [Frame.lease?])
  | flush j' k =>
      obtain ⟨rfl, rfl⟩ := Result.next.inj hstep
      have hseen : seen s th (.resume ret)
          (s.setStore ((managerPools c j').flushCore s.heap.store k)) = .quiet :=
        seen_of_quiet hnot (by simp [Action.frees?, hstack]) rfl
      rw [hseen]
      refine ⟨_, (h.heap.flushCore hf.1 hf.2).1, .still (fun _ => rfl) rfl (fun i => ?_)
        (fun i => ?_) fun g hg r hr => ?_⟩
      · exact flushQueues_ne mallocList_ne_pool (fun hne => mallocList_ne_freeLists hj hf.1 hf.2) i
      · exact flushQueues_ne (freeLists_ne_pool hj (core_lt hj))
          (fun hne heq => hne (by
            obtain ⟨rfl, rfl⟩ := freeLists_inj hj hf.1 (core_lt hj) hf.2 heq
            rfl)) i
      · refine hrest g ?_ r hr
        split at hg
        · rcases List.mem_cons.mp hg with rfl | hg
          · exact absurd hr (by simp [Frame.request])
          · exact hg
        · exact hg

/-- Counting a free begins no call of `Malloc`. -/
theorem countFree_request {f : Frame} (hidle : th.stack = [])
    (hf : f ∈ (countFree c main s th j ptr).stack) : f.request = none := by
  obtain ⟨cnts, heq | heq⟩ := countFree_cases c main s th j ptr
  · rw [heq] at hf
    exact absurd (hidle ▸ hf) List.not_mem_nil
  · rw [heq, Thread.push, hidle, List.mem_singleton] at hf
    rw [hf]
    rfl

/-- **Every step of the holder** but its exit. -/
theorem act_passes (hc : Setting c) (h : Owned c s q) (hstarted : th.started = true)
    (hlp : th.lp = some j) (hj : j < managerN c) (hready : th.ready a = true) (hexit : a ≠ .exit)
    (hframes : ∀ f ∈ th.stack, FrameOk c main s f) (hlate : ∀ f ∈ th.stack, f.lease? = none)
    (hmanager : ∀ f ∈ th.stack, ∀ r, f.request = some r → r.manager = j)
    (hbelow : a.below th = [] ∨ a.given th = none)
    (hpassed : ∀ f ∈ th.stack, ∀ r, f.request = some r →
      q ((managerPools c j).coreQueue (sizeClass r.size)) = [])
    (hok : ActOk c main s th a) (hstep : act c main s th a = .next s' th') :
    ∃ q', HeapInv c s'.heap q' ∧
      Passes (managerPools c j) s.heap.store.mem q q' th' (seen s th a s') := by
  have hlease : ∀ j', th.lp = some j' → j' = j := fun j' hj' => Option.some.inj (hj'.symm.trans hlp)
  -- a call of `malloc` whose caller gives nothing up
  have hcall : ∀ {size : Nat} {caller : Caller}, caller.old = none → size < 2 ^ 64 →
      (∀ x v, a ≠ .store x v) → a.frees? th = none → a.caller? s th = some caller →
      malloc c s th size caller = .next s' th' → ∃ q', HeapInv c s'.heap q' ∧
        Passes (managerPools c j) s.heap.store.mem q q' th' (seen s th a s') := by
    intro size caller hold hsize hnot hfrees hcaller hmalloc
    obtain ⟨-, rfl, rfl⟩ | ⟨j', hne, hj', henter⟩ := malloc_next hmalloc
    · rw [seen_of_quiet hnot hfrees rfl]
      exact ⟨q, h.heap, .same hpassed⟩
    · obtain rfl := hlease j' hj'
      have hr : RequestOk c s ⟨j', size, caller⟩ := by
        refine ⟨hj, hne, hsize, fun ptr preSize heq => ?_⟩
        obtain rfl : caller = _ := heq
        exact absurd hold (by simp [Caller.old])
      exact (enterMalloc_serves h hr henter).passes h hr (Or.inr hold) hpassed hnot hfrees hcaller
  cases a with
  | start core => exact absurd hready (by simp [Thread.ready, hstarted])
  | exit => exact absurd rfl hexit
  | malloc size => exact hcall rfl hok (by simp) rfl rfl hstep
  | calloc nmemb size =>
      rw [act, calloc] at hstep
      split at hstep
      · obtain ⟨rfl, rfl⟩ := Result.next.inj hstep
        rw [seen_of_quiet (by simp) rfl rfl]
        exact ⟨q, h.heap, .same hpassed⟩
      · exact hcall rfl (u64_lt _) (by simp) rfl rfl hstep
  | realloc ptr size =>
      obtain ⟨hsize, hlive⟩ := hok
      obtain ⟨hnull, hmalloc⟩ | ⟨hne, -, rfl, rfl⟩ | ⟨j', hne, hlt, hj', henter⟩ := realloc_next hstep
      · exact hcall rfl hsize (by simp) rfl (by simp [Action.caller?, hnull]) hmalloc
      · rw [seen_of_answer (by simp) rfl rfl rfl]
        have hquiet : ∀ caller : Caller, caller.answer ⟨none, size, ptr⟩ = .quiet := fun _ =>
          if_pos (Or.inr rfl)
        rw [hquiet]
        exact ⟨q, h.heap, .same hpassed⟩
      · obtain rfl := hlease j' hj'
        have hr := h.requestOk_realloc hj hsize (hlive hne) hlt
        exact (enterMalloc_serves h hr henter).passes h hr (hbelow.imp id fun hgiven =>
          absurd hgiven (by simp [Action.given])) hpassed (by simp) rfl
          (by simp [Action.caller?, hne])
  | free ptr =>
      obtain ⟨hnull, rfl, rfl⟩ | ⟨-, hnone, -⟩ | ⟨j', hne, hj', rfl, rfl⟩ := free_next hstep
      · rw [seen_of_quiet (by simp) (by simp [Action.frees?, hnull]) rfl]
        exact ⟨q, h.heap, .same hpassed⟩
      · exact absurd (hnone.symm.trans hlp) (by simp)
      · obtain rfl := hlease j' hj'
        obtain ⟨b, hb, rfl⟩ := h.live_carved ptr (hok hne)
        have hloose := (h.live_iff b hb).mp (hok hne)
        have hfrees : (Action.free b.body).frees? th = some b.body :=
          if_pos ⟨hne, by rw [hlp]; rfl⟩
        rw [seen_of_frees (by simp) hfrees]
        refine ⟨_, h.heap.free hj hb hloose, fun i => ⟨_, List.Sublist.refl _,
          line_free_home h.heap hb hj i q⟩, fun f hf r hr => ?_⟩
        -- no call is under way, so that only a flush may be now
        have hidle : th.stack = [] := by
          simpa [Thread.ready, hstarted] using hready
        exact absurd hr (by simp [countFree_request hidle hf])
  | allFree =>
      obtain ⟨j', -, rfl, rfl⟩ := allFree_next hstep
      rw [seen_of_quiet (by simp) rfl rfl]
      refine ⟨q, h.heap, .same fun f hf r hr => ?_⟩
      rcases List.mem_cons.mp hf with rfl | hf
      · exact absurd hr (by simp [Frame.request])
      · exact hpassed f hf r hr
  | store addr v =>
      obtain ⟨rfl, rfl⟩ := Result.next.inj hstep
      exact ⟨q, h.heap.setMem (Function.update s.heap.store.mem addr v)
          fun b hb x hx hx' => Function.update_of_ne (by have := hok b hb; omega) _ _,
        .still (fun _ => rfl) rfl (fun _ => rfl) (fun _ => rfl) hpassed⟩
  | resume ret =>
      rw [act] at hstep
      cases hstack : th.stack with
      | nil => exact absurd (hstack ▸ hstep) (by simp)
      | cons f rest =>
          rw [hstack] at hstep
          simp only [Action.below, Action.given, hstack, List.tail_cons, List.head?_cons,
            Option.bind_some] at hbelow
          have hmem : f ∈ th.stack := hstack ▸ List.mem_cons_self
          exact resume_passes hc h hj hstack (hframes f hmem) (hlate f hmem) (hmanager f hmem)
            hbelow (hstack ▸ hpassed) (fun r heq => hok r (by simp [hstack, heq])) hstep

end Passes

end Machine

end FCMalloc
